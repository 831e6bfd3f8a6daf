/-
# The syntax tree of a script

What the parser gives, so far as the shell looks at it, and the expansion of
its words: `_parse.py`. An expansion reads the environment and may write it
(`${x:=word}`); it raises for a command substitution, for arithmetic and for
`${x:?word}` of a parameter that is not set.

Key definitions: `WordNode`, `SimpleCommandNode`, `expandWord`, `extractRedirects`, `extractAssignments`.
-/
import Smfs.Lib.Control
import Mathlib.Logic.Function.Basic

namespace Smfs.Bash.Shell

open Control

/-! ### Nodes -/

mutual

inductive WordPart
  | literal (value : String)
  | singleQuoted (value : String)
  | doubleQuoted (parts : List WordPart)
  | escaped (value : String)
  | parameterExpansion (parameter : String) (operation : Option ParameterOperation)
  | tildeExpansion
  | glob (pattern : String)
  | commandSubstitution
  | arithmeticExpansion
  /-- A brace expansion or a process substitution. -/
  | other

inductive ParameterOperation
  | defaultValue (word : Option WordNode) (checkEmpty : Bool)
  | useAlternative (word : Option WordNode) (checkEmpty : Bool)
  | assignDefault (word : Option WordNode) (checkEmpty : Bool)
  | errorIfUnset (word : Option WordNode) (checkEmpty : Bool)
  /-- A length, a substring, a removal of a pattern and so on. -/
  | other

inductive WordNode
  | mk (parts : List WordPart)

end

structure AssignmentNode where
  name : String
  value : Option WordNode

inductive RedirectionOperator
  | input | output | append | outputDup | inputDup | readWrite | clobber | both | bothAppend | hereString | hereDoc
  | hereDocTabs
  deriving DecidableEq

inductive RedirectionTarget
  | word (target : WordNode)
  | hereDoc (content : Option WordNode)
  | missing

structure RedirectionNode where
  fd : Option ℕ
  operator : RedirectionOperator
  target : RedirectionTarget

structure SimpleCommandNode where
  assignments : List AssignmentNode
  name : Option WordNode
  args : List WordNode
  redirections : List RedirectionNode

/-- The classes of the commands that are not simple. -/
inductive CompoundType
  | ifNode | forNode | cStyleForNode | whileNode | untilNode | caseNode | subshellNode | groupNode
  | arithmeticCommandNode | conditionalCommandNode | functionDefNode
  deriving DecidableEq

def CompoundType.name : CompoundType → String
  | ifNode => "IfNode"
  | forNode => "ForNode"
  | cStyleForNode => "CStyleForNode"
  | whileNode => "WhileNode"
  | untilNode => "UntilNode"
  | caseNode => "CaseNode"
  | subshellNode => "SubshellNode"
  | groupNode => "GroupNode"
  | arithmeticCommandNode => "ArithmeticCommandNode"
  | conditionalCommandNode => "ConditionalCommandNode"
  | functionDefNode => "FunctionDefNode"

inductive CommandNode
  | simple (node : SimpleCommandNode)
  | compound (type : CompoundType)

/-! ### Expansion -/

abbrev Env := String → Option String

/-- What may raise an `UnsupportedSyntaxError`, and write the environment. -/
abbrev Expand (α : Type) := ExceptT String (StateM Env) α

/-- The parameter counts as not set: with a colon also if it is empty. -/
def lacks (val : Option String) (checkEmpty : Bool) : Bool :=
  if checkEmpty then val.getD "" = "" else val = none

mutual

/-- `_expand_part`. -/
def expandPart : WordPart → Expand String
  | .literal value => return value
  | .singleQuoted value => return value
  | .doubleQuoted parts => expandParts parts
  | .escaped value => return value
  | .parameterExpansion name operation => do
    if name = "?" then return ((← get) "?").getD "0"
    else expandOperation name ((← get) name) operation
  | .tildeExpansion => return ((← get) "HOME").getD "/home/user"
  | .glob pattern => return pattern
  | .commandSubstitution => throw "command substitution ($(...) or `...`) is not supported"
  | .arithmeticExpansion => throw "arithmetic expansion ($((...))) is not supported"
  | .other => return ""

/-- `"".join(_expand_part(p, env) for p in parts)`. -/
def expandParts : List WordPart → Expand String
  | [] => return ""
  | p :: rest => do
    let text ← expandPart p
    return text ++ (← expandParts rest)

/-- What becomes of a parameter and its operation. -/
def expandOperation (name : String) (val : Option String) : Option ParameterOperation → Expand String
  | none => return val.getD ""
  | some (.defaultValue word checkEmpty) => do
    let default ← expandOption word
    return if lacks val checkEmpty then default else val.getD ""
  | some (.useAlternative word checkEmpty) => do
    let alt ← expandOption word
    return if lacks val checkEmpty then "" else alt
  | some (.assignDefault word checkEmpty) => do
    let default ← expandOption word
    if lacks val checkEmpty then
      modify fun env => Function.update env name (some default)
      return default
    else return val.getD ""
  | some (.errorIfUnset word checkEmpty) => do
    if lacks val checkEmpty then
      throw (← expandMessage name word)
    else return val.getD ""
  | some .other => return val.getD ""

/-- `expand_word(op.word, env) if op.word else ""`. -/
def expandOption : Option WordNode → Expand String
  | none => return ""
  | some (.mk parts) => expandParts parts

/-- The text of the error for a parameter that is not set. -/
def expandMessage (name : String) : Option WordNode → Expand String
  | none => return name ++ ": parameter null or not set"
  | some (.mk parts) => expandParts parts

end

def expandWord : WordNode → Expand String
  | .mk parts => expandParts parts

def expandWords (words : List WordNode) : Expand (List String) := words.mapM expandWord

/-! ### Redirections and assignments -/

inductive RedirectOp
  | write
  | append
  | read
  deriving DecidableEq

structure Redirect where
  op : RedirectOp
  path : Option String := none
  fd : ℕ := 1
  content : String := ""

/-- `str(r.target)` of what is no word stands for itself. -/
def targetPath : RedirectionTarget → Expand String
  | .word target => expandWord target
  | _ => return "None"

/-- What one redirection is extracted to. -/
def extractRedirect (r : RedirectionNode) : Expand (List Redirect) := do
  match r.target with
  | .hereDoc content => return [{ op := .read, fd := 0, content := ← expandOption content }]
  | target =>
    let path ← targetPath target
    match r.operator with
    | .output | .clobber => return [{ op := .write, path := path, fd := r.fd.getD 1 }]
    | .append => return [{ op := .append, path := path, fd := r.fd.getD 1 }]
    | .input => return [{ op := .read, path := path, fd := 0 }]
    -- the parser has not found its text
    | .hereDoc | .hereDocTabs => return [{ op := .read, fd := 0 }]
    | .both => return [{ op := .write, path := path, fd := 1 }, { op := .write, path := path, fd := 2 }]
    | .bothAppend => return [{ op := .append, path := path, fd := 1 }, { op := .append, path := path, fd := 2 }]
    | .outputDup | .inputDup => return []
    | .readWrite | .hereString =>
      return [{ op := .write, path := path, fd := match r.fd with | none | some 0 => 1 | some fd => fd }]

def extractRedirects (redirections : List RedirectionNode) : Expand (List Redirect) :=
  return (← redirections.mapM extractRedirect).flatten

/-- The value of an assignment, under its name. -/
def extractAssignment (a : AssignmentNode) : Expand (String × String) := return (a.name, ← expandOption a.value)

def extractAssignments (assignments : List AssignmentNode) : Expand (List (String × String)) :=
  assignments.mapM extractAssignment

end Smfs.Bash.Shell
