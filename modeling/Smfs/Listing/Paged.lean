/-
# A directory in pages over NFS

A client asks for a directory page after page, each time with the file id of
the last entry it was handed. The cookie names an inode and no place in the
directory: where an inode has several names in it and a page ends at one that
is not the first, the next page starts behind the first. The enumeration is
complete exactly if no page does (`Nfs.complete_iff`).

Key definitions: `Nfs.enumerate`, `Nfs.Complete`, `Nfs.FirstName`.
Key theorems: `Nfs.resume_iff`, `Nfs.complete_iff`, `Nfs.never_ends`.
-/
import Smfs.Listing
import Smfs.Names

namespace Smfs
namespace Nfs

/-- Calls of `readdir` until the end is reported, at most `fuel` of them, each
with the last file id returned: all that they hand over. -/
def enumerate (db : Db) (v : Ambient) (dirid maxEntries : ℕ) : ℕ → ℕ → Option (List DirEntry)
  | 0, _ => none
  | fuel + 1, startAfter =>
    match readdir db v dirid startAfter maxEntries with
    | none => none
    | some result =>
      if result.isEnd then some result.entries
      else (enumerate db v dirid maxEntries fuel ((result.entries.getLast?.map fileid).getD startAfter)).map
        (result.entries ++ ·)

/-- The enumeration ends, and has returned every entry once. -/
def Complete (db : Db) (v : Ambient) (dirid maxEntries : ℕ) (entries : List DirEntry) : Prop :=
  ∃ fuel out, enumerate db v dirid maxEntries fuel 0 = some out ∧ out.Perm entries

/-- The `i`-th entry is the first one of its inode, and this has a number other than 0. -/
def FirstName (entries : List DirEntry) (i : ℕ) : Prop :=
  ∃ e, entries[i]? = some e ∧ fileid e ≠ 0 ∧ ∀ x ∈ entries.take i, fileid x ≠ fileid e

section Lemmas

variable {entries out : List DirEntry} {db : Db} {v : Ambient} {dirid maxEntries fuel i s startAfter : ℕ} {e : DirEntry}

/-- The cookie of an entry resumes behind it exactly if it is the first name; else it falls back. -/
theorem resume_iff (he : entries[i]? = some e) : (resume (fileid e) entries = entries.drop (i + 1) ↔
    FirstName entries i) ∧
    entries.length - (i + 1) ≤ (resume (fileid e) entries).length := by
  obtain ⟨hi, hget⟩ := List.getElem?_eq_some_iff.mp he
  have hcut : entries = entries.take i ++ e :: entries.drop (i + 1) := by
    rw [← hget, ← List.drop_eq_getElem_cons hi, List.take_append_drop]
  have hdrop : (entries.drop (i + 1)).length = entries.length - (i + 1) := List.length_drop
  have hfirst : FirstName entries i ↔ fileid e ≠ 0 ∧ ∀ x ∈ entries.take i, fileid x ≠ fileid e := by
    constructor
    · rintro ⟨x, hx, h⟩
      rw [he] at hx
      cases hx
      exact h
    · exact fun h => ⟨e, he, h⟩
  rw [hfirst]
  unfold resume
  by_cases hpos : fileid e > 0
  · rw [if_pos hpos]
    have hafter := @Cursor.after_append _ _ _ fileid (entries.take i) e (entries.drop (i + 1))
    rw [← hcut] at hafter
    rcases hafter with ⟨hne, heq⟩ | ⟨⟨x, hx, hk⟩, hlt⟩
    · rw [heq]
      exact ⟨⟨fun _ => ⟨hpos.ne', hne⟩, fun _ => rfl⟩, hdrop.ge⟩
    · refine ⟨⟨fun heq => ?_, fun h => absurd hk (h.2 x hx)⟩, by omega⟩
      rw [heq] at hlt
      exact absurd hlt (lt_irrefl _)
  · rw [if_neg hpos]
    refine ⟨⟨fun heq => ?_, fun h => absurd (Nat.pos_of_ne_zero h.1) hpos⟩, Nat.sub_le _ _⟩
    have hlen := congrArg List.length heq
    rw [hdrop] at hlen
    omega

/-- What the calls hand over from a cookie on. -/
theorem enumerate_succ (h : Fs.readdirPlus db v dirid = some entries) :
    enumerate db v dirid maxEntries (fuel + 1) startAfter =
      if (resume startAfter entries).length ≤ maxEntries then some ((resume startAfter entries).take maxEntries)
      else (enumerate db v dirid maxEntries fuel
        ((((resume startAfter entries).take maxEntries).getLast?.map fileid).getD startAfter)).map
          ((resume startAfter entries).take maxEntries ++ ·) := by
  rw [enumerate, readdir_eq, h]
  simp

/-- The last entry of a full page. -/
theorem page_last (hmax : 1 ≤ maxEntries) (hs : s + maxEntries < entries.length) : ∃ e,
    entries[s + maxEntries - 1]? = some e ∧ ((entries.drop s).take maxEntries).getLast? = some e := by
  have hlt : s + maxEntries - 1 < entries.length := by omega
  refine ⟨entries[s + maxEntries - 1], List.getElem?_eq_getElem hlt, ?_⟩
  have hlen : ((entries.drop s).take maxEntries).length = maxEntries := by
    rw [List.length_take, List.length_drop]
    omega
  rw [List.getLast?_eq_getElem?, hlen, List.getElem?_take_of_lt (by omega), List.getElem?_drop,
    ← Nat.add_sub_assoc hmax]
  exact List.getElem?_eq_getElem hlt

/-- A call that does not end the enumeration: what is left is enumerated from the cookie of its last entry. -/
theorem enumerate_page (fuel : ℕ) (h : Fs.readdirPlus db v dirid = some entries) (hmax : 1 ≤ maxEntries)
    (hs : resume startAfter entries = entries.drop s) (hlt : s + maxEntries < entries.length) :
    ∃ e, entries[s + maxEntries - 1]? = some e ∧ enumerate db v dirid maxEntries (fuel + 1) startAfter =
      (enumerate db v dirid maxEntries fuel (fileid e)).map ((entries.drop s).take maxEntries ++ ·) := by
  obtain ⟨e, he, hlast⟩ := page_last hmax hlt
  refine ⟨e, he, ?_⟩
  have hmore : ¬ (entries.drop s).length ≤ maxEntries := by
    rw [List.length_drop]
    omega
  rw [enumerate_succ h, hs, if_neg hmore, hlast]
  rfl

/-- The last call. -/
theorem enumerate_last (h : Fs.readdirPlus db v dirid = some entries) (hs : resume startAfter entries = entries.drop s)
    (hle : entries.length ≤ s + maxEntries) : enumerate db v dirid maxEntries (fuel + 1) startAfter =
    some (entries.drop s) := by
  have hend : (entries.drop s).length ≤ maxEntries := by
    rw [List.length_drop]
    omega
  rw [enumerate_succ h, hs, if_pos hend, List.take_of_length_le hend]

/-- An enumeration that ends has handed over as much as was left at its start. -/
theorem enumerate_length (h : Fs.readdirPlus db v dirid = some entries) (hmax : 1 ≤ maxEntries) :
    ∀ {fuel startAfter : ℕ} {out : List DirEntry}, enumerate db v dirid maxEntries fuel startAfter = some out →
      (resume startAfter entries).length ≤ out.length := by
  intro fuel
  induction fuel with
  | zero => exact fun he => (nomatch he)
  | succ fuel ih =>
    intro startAfter out he
    obtain ⟨before, hbefore⟩ := resume_suffix startAfter entries
    have hlen := congrArg List.length hbefore
    rw [List.length_append] at hlen
    have hs : resume startAfter entries = entries.drop before.length := by
      conv_rhs => rw [← hbefore, List.drop_left]
    by_cases hlt : before.length + maxEntries < entries.length
    · obtain ⟨e, hlast, hnext⟩ := enumerate_page fuel h hmax hs hlt
      rw [hnext] at he
      obtain ⟨rest, hrest, rfl⟩ := Option.map_eq_some_iff.mp he
      have hle := ih hrest
      have hback := (resume_iff hlast).2
      rw [List.length_append, List.length_take, List.length_drop]
      omega
    · rw [enumerate_last h hs (by omega)] at he
      cases he
      rw [hs]

/-- Where every full page ends at a first name, the enumeration ends with all that is left. -/
theorem enumerates (h : Fs.readdirPlus db v dirid = some entries) (hmax : 1 ≤ maxEntries) :
    ∀ (m : ℕ) {s startAfter : ℕ},
    entries.length - s ≤ m → resume startAfter entries = entries.drop s →
    (∀ k, s + (k + 1) * maxEntries < entries.length → FirstName entries (s + (k + 1) * maxEntries - 1)) →
    ∃ fuel, enumerate db v dirid maxEntries fuel startAfter = some (entries.drop s) := by
  intro m
  induction m with
  | zero => exact fun hm hs _ => ⟨1, enumerate_last h hs (by omega)⟩
  | succ m ih =>
    intro s startAfter hm hs hfirst
    by_cases hlt : s + maxEntries < entries.length
    · obtain ⟨e, he, hpage⟩ := page_last hmax hlt
      have hname : FirstName entries (s + maxEntries - 1) := by simpa using hfirst 0 (by simpa using hlt)
      have hresume : resume (fileid e) entries = entries.drop (s + maxEntries) := by
        rw [(resume_iff he).1.mpr hname]
        congr 1
        omega
      obtain ⟨fuel, hrest⟩ := ih (by omega) hresume fun k hk => by
        have hnext : s + maxEntries + (k + 1) * maxEntries = s + (k + 1 + 1) * maxEntries := by ring
        rw [hnext] at hk ⊢
        exact hfirst (k + 1) hk
      obtain ⟨e', he', hstep⟩ := enumerate_page fuel h hmax hs hlt
      rw [he] at he'
      cases he'
      refine ⟨fuel + 1, ?_⟩
      rw [hstep, hrest, Option.map_some, ← List.drop_drop, List.take_append_drop]
    · exact ⟨1, enumerate_last h hs (by omega)⟩

/-- An enumeration that hands over no more than was left has ended every full page at a first name. -/
theorem enumerates_first (h : Fs.readdirPlus db v dirid = some entries) (hmax : 1 ≤ maxEntries) :
    ∀ {fuel s startAfter : ℕ} {out : List DirEntry}, resume startAfter entries = entries.drop s →
      enumerate db v dirid maxEntries fuel startAfter = some out → out.length ≤ entries.length - s →
      ∀ k, s + (k + 1) * maxEntries < entries.length → FirstName entries (s + (k + 1) * maxEntries - 1) := by
  intro fuel
  induction fuel with
  | zero => exact fun _ he => (nomatch he)
  | succ fuel ih =>
    intro s startAfter out hs he hle k hk
    have hlt : s + maxEntries < entries.length := by
      have : (k + 1) * maxEntries = k * maxEntries + maxEntries := Nat.succ_mul k maxEntries
      omega
    obtain ⟨e, hlast, hstep⟩ := enumerate_page fuel h hmax hs hlt
    rw [hstep] at he
    obtain ⟨rest, hrest, rfl⟩ := Option.map_eq_some_iff.mp he
    rw [List.length_append, List.length_take, List.length_drop] at hle
    -- what is left at the cookie is neither more nor less than what has not been handed over
    have hlen : (resume (fileid e) entries).length = entries.length - (s + maxEntries) := by
      have hmore := enumerate_length h hmax hrest
      have hless := (resume_iff hlast).2
      omega
    have hresume : resume (fileid e) entries = entries.drop (s + maxEntries) := by
      rw [List.suffix_iff_eq_drop.mp (resume_suffix (fileid e) entries), hlen]
      congr 1
      omega
    cases k with
    | zero =>
      have hname := (resume_iff hlast).1.mp (hresume.trans (by congr 1; omega))
      simpa using hname
    | succ k =>
      have hnext : s + (k + 1 + 1) * maxEntries = s + maxEntries + (k + 1) * maxEntries := by ring
      rw [hnext] at hk ⊢
      exact ih hresume hrest (by omega) k hk

/-- **A directory that does not change is enumerated completely exactly if no
page that others follow ends at a name that is not the first of its inode.** -/
theorem complete_iff (h : Fs.readdirPlus db v dirid = some entries) (hmax : 1 ≤ maxEntries) :
    Complete db v dirid maxEntries entries ↔
      ∀ k, (k + 1) * maxEntries < entries.length → FirstName entries ((k + 1) * maxEntries - 1) := by
  have hstart : resume 0 entries = entries.drop 0 := by simp [resume]
  constructor
  · rintro ⟨fuel, out, he, hperm⟩ k hk
    simpa using enumerates_first h hmax hstart he hperm.length_eq.le k (by simpa using hk)
  · intro hfirst
    obtain ⟨fuel, he⟩ := enumerates h hmax entries.length (by omega) hstart fun k hk => by
      rw [Nat.zero_add] at hk ⊢
      exact hfirst k hk
    rw [List.drop_zero] at he
    exact ⟨fuel, entries, he, List.Perm.refl _⟩

end Lemmas

/-- A view without a client; all files alike. -/
private def offline : Ambient := ⟨false, fun _ => ⟨0o644, 0, 0, (0, 0), (0, 0), (0, 0), 0⟩, none, (0, 0)⟩

private def twoFiles : Db := (Fs.createFile (Fs.createFile .fresh false 1 "b").2 false 1 "a").2

private def threeNames : Db := (Fs.link (Fs.link (Fs.createFile .fresh false 1 "a").2 2 1 "b").2 2 1 "c").2

/-- Two files, one to a page. -/
theorem complete_iff_two : ∃ entries, Fs.readdirPlus twoFiles offline 1 = some entries ∧
    entries.map DirEntry.name = ["a", "b"] ∧ Complete twoFiles offline 1 1 entries := by
  obtain ⟨entries, he⟩ : ∃ entries, Fs.readdirPlus twoFiles offline 1 = some entries :=
    Option.isSome_iff_exists.mp (by decide)
  have hnames : (Fs.readdirPlus twoFiles offline 1).map (List.map fun e => (e.name, Nfs.fileid e)) =
      some [("a", 3), ("b", 2)] := by decide
  rw [he, Option.map_some, Option.some.injEq] at hnames
  obtain ⟨x, rest, rfl, hx, hrest⟩ := List.map_eq_cons_iff.mp hnames
  obtain ⟨y, rest, rfl, hy, hrest⟩ := List.map_eq_cons_iff.mp hrest
  obtain rfl := List.map_eq_nil_iff.mp hrest
  refine ⟨[x, y], he, ?_, (complete_iff he (le_refl 1)).mpr fun k hk => ?_⟩
  · rw [List.map_cons, List.map_cons, List.map_nil, show x.name = "a" from congrArg Prod.fst hx,
      show y.name = "b" from congrArg Prod.fst hy]
  · obtain rfl : k = 0 := by
      simp only [List.length_cons, List.length_nil] at hk
      omega
    refine ⟨x, rfl, ?_, fun z hz => (nomatch hz)⟩
    rw [show fileid x = 3 from congrArg Prod.snd hx]
    decide

/-- A file with three names, one to a page: the second name comes again and again. -/
theorem never_ends : ¬ ∀ db v dirid maxEntries entries, 1 ≤ maxEntries → Fs.readdirPlus db v dirid = some entries →
    Complete db v dirid maxEntries entries := by
  intro hall
  obtain ⟨entries, he⟩ : ∃ entries, Fs.readdirPlus threeNames offline 1 = some entries :=
    Option.isSome_iff_exists.mp (by decide)
  obtain ⟨fuel, out, hout, hperm⟩ := hall _ _ _ 1 entries (le_refl 1) he
  have hids : (Fs.readdirPlus threeNames offline 1).map (List.map fileid) = some [2, 2, 2] := by decide
  rw [he, Option.map_some, Option.some.injEq] at hids
  obtain ⟨x, rest, rfl, hx, hrest⟩ := List.map_eq_cons_iff.mp hids
  obtain ⟨y, rest, rfl, hy, -⟩ := List.map_eq_cons_iff.mp hrest
  have hlen := congrArg List.length hids
  have hresume : resume 0 (x :: y :: rest) = (x :: y :: rest).drop 0 := rfl
  obtain ⟨e, hget, -, hne⟩ := enumerates_first he (le_refl 1) hresume hout hperm.length_eq.le 1 (by
    simp only [List.length_map, List.length_cons, List.length_nil] at hlen ⊢
    omega)
  cases hget
  exact hne x (by simp) (hx.trans hy.symm)

end Nfs
end Smfs
