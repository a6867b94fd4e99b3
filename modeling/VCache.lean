import VCache.Table.Reach
import VCache.Database.Refinement
import VCache.Database.Memory
import VCache.Database.Recency
import VCache.Snapshot.RoundTrip
import VCache.Command.WireText
import VCache.Server.Framing
import VCache.Client.Session
import VCache.Snapshot.Crash
import VCache.Pool.Model
import VCache.Pool.Runs
import VCache.Snapshot.Accepted
import VCache.Snapshot.Words
import VCache.Lib.Damage
import VCache.Snapshot.Damage
import VCache.Snapshot.Oversize
import VCache.Database.Eviction
import VCache.Database.Balance
import VCache.Database.Concurrent
import VCache.Database.Scans
import VCache.Server.Lifecycle
import VCache.Server.Shutdown
import VCache.Database.Routing
import VCache.Lib.Cycle
import VCache.Table.Rehash
import VCache.Database.Sweep
import VCache.Snapshot.Report
import VCache.Command.Grammar
import VCache.Client.OneShot
import VCache.Server.Cap
import VCache.Lib.Checked
import VCache.Snapshot.Clocks
import VCache.Database.Limits
import VCache.Table.Hash
import VCache.Table.Resizing
import VCache.Database.Selection
import VCache.Database.Coherence
import VCache.Server.Sessions
import VCache.Background.Sweeper
import VCache.Server.Lifetime
import VCache.Background.Scheduler
import VCache.Server.Return
import VCache.Client.Network
import VCache.Database.Audit
import VCache.Database.Patrol
import VCache.Server.Options
import VCache.Server.Answers
import VCache.Server.Process
