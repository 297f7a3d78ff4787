import MarloweAgent.Daemon.Allowing
import MarloweAgent.Daemon.Announce
import MarloweAgent.Daemon.Awaiting
import MarloweAgent.Daemon.Cancelling
import MarloweAgent.Daemon.Corrections
import MarloweAgent.Daemon.Escalation
import MarloweAgent.Daemon.External
import MarloweAgent.Daemon.Listing
import MarloweAgent.Daemon.Replay
import MarloweAgent.Daemon.Surfaces
import MarloweAgent.Daemon.Targets
import MarloweAgent.EventLog.ProfileLock
import MarloweAgent.Exec.Disclosure
import MarloweAgent.Exec.Echo
import MarloweAgent.Exec.Paging
import MarloweAgent.Exec.Searching
import MarloweAgent.Extract.Budgets
import MarloweAgent.Extract.Csv
import MarloweAgent.Extract.Selecting
import MarloweAgent.Extract.Showing
import MarloweAgent.Loop.Bracketing
import MarloweAgent.Loop.Caching
import MarloweAgent.Loop.Compaction
import MarloweAgent.Loop.Condensing
import MarloweAgent.Loop.Crediting
import MarloweAgent.Loop.Crossing
import MarloweAgent.Loop.Epochs
import MarloweAgent.Loop.Grant
import MarloweAgent.Loop.HostCalls
import MarloweAgent.Loop.Labels
import MarloweAgent.Loop.Masking
import MarloweAgent.Loop.Pausing
import MarloweAgent.Loop.Routing
import MarloweAgent.Loop.Settlement
import MarloweAgent.Loop.Spending
import MarloweAgent.Loop.Standing
import MarloweAgent.Loop.Tally
import MarloweAgent.Loop.Trimming
import MarloweAgent.Mcp.Dispatch
import MarloweAgent.Memory.Admission
import MarloweAgent.Memory.Gate
import MarloweAgent.Memory.Linkage
import MarloweAgent.Memory.Refusals
import MarloweAgent.Memory.Reopening
import MarloweAgent.Memory.Sessions
import MarloweAgent.Permission.Granting
import MarloweAgent.Permission.Normalized
import MarloweAgent.Permission.Traces
import MarloweAgent.Provider.Chunking
import MarloweAgent.Provider.Conservation
import MarloweAgent.Provider.Retrying
import MarloweAgent.Provider.Streaming
import MarloweAgent.Provider.Wire
import MarloweAgent.Surface.Draft
import MarloweAgent.Surface.Escalation
import MarloweAgent.Tools.RoundTrip
import MarloweAgent.Tools.Skills
