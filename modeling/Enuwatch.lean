import Enuwatch.Lib.Effects
import Enuwatch.Lib.Transition
import Enuwatch.Lib.Buffer
import Enuwatch.Lib.Slots
import Enuwatch.Lib.Pool
import Enuwatch.Lib.Transducer
import Enuwatch.Lib.Path
import Enuwatch.Lib.WeakOrder
import Enuwatch.Lib.Exploration
import Enuwatch.Lib.Binary64
import Enuwatch.Lib.Text
import Enuwatch.Lib.Terminal
import Enuwatch.Lib.Ring
import Enuwatch.Lib.Chunked
import Enuwatch.Net
import Enuwatch.Net.Exact
import Enuwatch.Shm
import Enuwatch.ArgParser
import Enuwatch.Wire
import Enuwatch.Sender
import Enuwatch.FileSystem
import Enuwatch.Tracked
import Enuwatch.Spawn
import Enuwatch.SpawnReport
import Enuwatch.SpawnStreams
import Enuwatch.SpawnFamily
import Enuwatch.Lifecycle
import Enuwatch.Watcher
import Enuwatch.Watcher.Chains
import Enuwatch.Sync.Client
import Enuwatch.Sync.Connect
import Enuwatch.Sync.Steps
import Enuwatch.Sync.Books
import Enuwatch.Sync.Upkeep
import Enuwatch.Sync.Invariant
import Enuwatch.Sync.Traversal
import Enuwatch.Sync.Sequence
import Enuwatch.Sync.Setup
import Enuwatch.Sync.Completion
import Enuwatch.Sync.Threads
import Enuwatch.Sync.Deadlock
import Enuwatch.Sync.Framing
import Enuwatch.Sync.Termination
import Enuwatch.Daemon.State
import Enuwatch.Daemon.Connection
import Enuwatch.Daemon.Main
import Enuwatch.Daemon.Decoder
import Enuwatch.Daemon.Messages
import Enuwatch.Daemon.Moves
import Enuwatch.Daemon.Events
import Enuwatch.Daemon.Refinement
import Enuwatch.Daemon.Frame
import Enuwatch.Daemon.Publication
import Enuwatch.Daemon.Coherence
import Enuwatch.Daemon.Invariant
import Enuwatch.Daemon.Atomic
import Enuwatch.Daemon.RoundTrip
import Enuwatch.Daemon.Descriptors
import Enuwatch.Daemon.Bounds
import Enuwatch.Daemon.TempFiles
import Enuwatch.Daemon.Safekeeping
import Enuwatch.Daemon.Isolation
import Enuwatch.Daemon.Permissions
import Enuwatch.Daemon.Replay
import Enuwatch.Daemon.Feed
import Enuwatch.Daemon.Sending
import Enuwatch.Daemon.Overlay
import Enuwatch.Daemon.Ordering
import Enuwatch.Daemon.Resync
import Enuwatch.Daemon.Mirror
import Enuwatch.Daemon.Turns
import Enuwatch.Daemon.Waiting
import Enuwatch.Daemon.Limit
import Enuwatch.Daemon.PollPass
import Enuwatch.Daemon.EndOfStream
import Enuwatch.EndToEnd
import Enuwatch.System
import Enuwatch.Ports
import Enuwatch.Relay
import Enuwatch.Scan.Disk
import Enuwatch.Scan.Worklist
import Enuwatch.Scan.SentPath
import Enuwatch.Scan.Comparator
import Enuwatch.Scan.Rounds
import Enuwatch.Scan.TrackedTree
import Enuwatch.Scan.Reproduction
import Enuwatch.Scan.Unreadable
import Enuwatch.Scan.Cycles
import Enuwatch.Scan.Gate
import Enuwatch.Scan.Handover
import Enuwatch.DiskToDisk
import Enuwatch.Progress
import Enuwatch.Display
import Enuwatch.Display.Frames
import Enuwatch.Display.Tick
import Enuwatch.Transport
import Enuwatch.Arrival
