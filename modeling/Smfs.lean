import Smfs.Lib.Reach
import Smfs.Lib.Table
import Smfs.Queue
import Smfs.Queue.LatestWins
import Smfs.Queue.Ownership
import Smfs.Text
import Smfs.Db
import Smfs.Tree
import Smfs.File
import Smfs.Ops
import Smfs.Reconcile
import Smfs.Mount
import Smfs.Sync.CrashRecovery
import Smfs.Sync.DirtyMark
import Smfs.Server
import Smfs.Sync.Delivery
import Smfs.Lib.Paging
import Smfs.Scan
import Smfs.Sync.DeletionScan
import Smfs.Pull
import Smfs.Sync.Watermark
import Smfs.Reconcile.Mapping
import Smfs.Sync.Mirror
import Smfs.Mem
import Smfs.Names
import Smfs.File.Flat
import Smfs.Names.Parity
import Smfs.Lib.Forest
import Smfs.Names.Cache
import Smfs.Names.Edits
import Smfs.Names.Rooted
import Smfs.Names.Links
import Smfs.Names.Mapped
import Smfs.Lib.Climb
import Smfs.Names.Paths
import Smfs.Sync.Drain
import Smfs.Sync.Overwrite
import Smfs.Sync.QuietPull
import Smfs.Names.Lookup
import Smfs.Queue.Revival
import Smfs.Sync.Duplicates
import Smfs.Sync.HardLinks
import Smfs.Sync.Removal
import Smfs.Bash.Authority
import Smfs.Bash.Reads
import Smfs.Bash.Batches
import Smfs.Bash.Dirents
import Smfs.File.Pushed
import Smfs.Lib.Coalesce
import Smfs.Names.Cascade
import Smfs.Queue.Burst
import Smfs.Queue.Lineage
import Smfs.Queue.Slots
import Smfs.Sync.Changes
import Smfs.Sync.Derived
import Smfs.Sync.Guard
import Smfs.Sync.Homes
import Smfs.Sync.Rehydrate
import Smfs.Sync.Status
import Smfs.Sync.Stuck
import Smfs.Sync.Vanished
import Smfs.Sync.Aims
import Smfs.File.Cap
import Smfs.Grep
import Smfs.Lib.Calendar
import Smfs.Lib.Cursor
import Smfs.Lib.Lru
import Smfs.Listing
import Smfs.Listing.Paged
import Smfs.Listing.Emptying
import Smfs.Names.Subdirs
import Smfs.Timestamp
import Smfs.DentryCache
import Smfs.Lib.Sql
import Smfs.Listing.Agree
import Smfs.Statements
import Smfs.Statements.Calm
import Smfs.Statements.Reconcile
import Smfs.Statements.Retry
import Smfs.Bash.PyFilepath
import Smfs.Bash.PyVolume
import Smfs.Bash.Removal
import Smfs.Hint
import Smfs.Hint.Edits
import Smfs.Hint.History
import Smfs.Hint.Race
import Smfs.Wrapper
import Smfs.Bash.Image
import Smfs.Bash.ReadWrite
import Smfs.Bash.Sizes
import Smfs.Bash.Copying
import Smfs.Bash.Mapped
import Smfs.Bash.Answers
import Smfs.Bash.Inverse
import Smfs.Bash.Lines
import Smfs.Bash.Recency
import Smfs.File.Chunks
import Smfs.Hydration
import Smfs.Marker
import Smfs.Bash.Operators
import Smfs.Bash.Search
import Smfs.Daemon
import Smfs.Daemon.Runs
import Smfs.Api
import Smfs.Lib.Trace
import Smfs.Vfs
import Smfs.File.Held
import Smfs.File.Files
import Smfs.Names.Thins
import Smfs.Names.Walks
import Smfs.File.Shown
import Smfs.File.Calls
import Smfs.Fuse
import Smfs.Fuse.Posix
import Smfs.Nfs
import Smfs.Nfs.Store
import Smfs.Nfs.Paste
import Smfs.Lib.Effect
import Smfs.Bash.Builtins
import Smfs.Bash.Learns
import Smfs.Bash.Spares
import Smfs.Bash.Footprint
