import Memflux.Alloc.Api
import Memflux.Alloc.Classes
import Memflux.Alloc.Invariant
import Memflux.Alloc.Mapping
import Memflux.Alloc.RunOps
import Memflux.Alloc.State
import Memflux.Alloc.Steps
import Memflux.Alloc.Trim
import Memflux.Lib.BitWords
import Memflux.Lib.DList
import Memflux.Lib.Span
import Memflux.Alloc.Calls
import Memflux.Alloc.Reservation
import Memflux.Alloc.Blocks
import Memflux.Alloc.Malloc
import Memflux.Alloc.World
import Memflux.Alloc.Capacity
import Memflux.Alloc.Failure
import Memflux.Alloc.Purge
import Memflux.Alloc.Ownership
import Memflux.Alloc.Release
import Memflux.Alloc.Aligned
import Memflux.Alloc.Locks
import Memflux.Lib.Double
import Memflux.Lib.EarlyExit
import Memflux.Core.Config
import Memflux.Core.Cycle
import Memflux.Core.Scores
import Memflux.Core.Actions
import Memflux.Core.Effects
import Memflux.Core.Guard
import Memflux.Core.DryRun
import Memflux.Core.Cooldown
import Memflux.Core.Backends
import Memflux.Core.WorkingSet
import Memflux.Core.Window
import Memflux.Lib.TwoRuns
import Memflux.Alloc.Influence
import Memflux.Alloc.AddressSpace
import Memflux.Alloc.Foreign
import Memflux.Alloc.Startup
import Memflux.Alloc.Pages
import Memflux.Alloc.Alignment
import Memflux.Alloc.HotPath
import Memflux.Alloc.Resize
import Memflux.Core.Accounting
import Memflux.Core.Reuse
import Memflux.Lib.LongestMatch
import Memflux.Core.Parser
import Memflux.Core.Policies
import Memflux.Ebpf.Counters
import Memflux.Ebpf.Attribution
import Memflux.Alloc.Sections
import Memflux.Alloc.Idle
import Memflux.Lib.Shares
import Memflux.Alloc.Bookkeeping
import Memflux.Core.Sampling
import Memflux.Core.Selection
import Memflux.Lib.LastWins
import Memflux.Core.Reload
import Memflux.Core.Indices
import Memflux.Core.Integers
import Memflux.Core.Uncomment
import Memflux.Core.Comments
import Memflux.Lib.LineBuffer
import Memflux.Core.ProcFiles
import Memflux.Core.CgroupFile
import Memflux.Core.Maps
import Memflux.Core.Choice
import Memflux.Lib.Simulation
import Memflux.Lib.Heap
import Memflux.Lib.Serving
import Memflux.Lib.Turns
import Memflux.Lib.Peers
import Memflux.Lib.Handles
import Memflux.Lib.Peak
import Memflux.Lib.Least
import Memflux.Alloc.Refinement
import Memflux.Alloc.Peak
import Memflux.Alloc.Blowup
import Memflux.Core.Printing
import Memflux.Core.Meminfo
import Memflux.Core.Latch
import Memflux.Core.Tracer
import Memflux.Core.Sysfs
import Memflux.Core.Psi
import Memflux.Core.Memory
import Memflux.Daemon.Reply
import Memflux.Daemon.Server
import Memflux.Daemon.Runs
import Memflux.Daemon.Ipc
import Memflux.Daemon.Ctl
import Memflux.Daemon.Startup
import Memflux.Ebpf.Loader
import Memflux.Daemon.Rate
