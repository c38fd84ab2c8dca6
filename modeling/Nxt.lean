import Nxt.Ai.Capture
import Nxt.Ai.Lenient
import Nxt.Ai.Transcript
import Nxt.Buffers.Queue
import Nxt.Buffers.Reel
import Nxt.Buffers.Splat
import Nxt.Compression.Delivery
import Nxt.Crypto.Ladder
import Nxt.Crypto.PssLimit
import Nxt.Host.Command
import Nxt.Host.Confined
import Nxt.Host.Routing
import Nxt.Host.Segments
import Nxt.Http.Agreement
import Nxt.Land.Farm
import Nxt.Land.Runs
import Nxt.Mt.Authenticated
import Nxt.Mt.Ledger
import Nxt.Runtime.Buffered
import Nxt.Runtime.EpollOutcomes
import Nxt.Runtime.Failure
import Nxt.Runtime.PoolRules
import Nxt.Runtime.Rounds
import Nxt.Runtime.Uring
import Nxt.Tls.Authentic
import Nxt.Tls.Layer
import Nxt.Tls.Runs
import Nxt.Ui.Arrange
import Nxt.Ui.Insertion
import Nxt.Ui.KeyReport
import Nxt.Ui.Offsets
import Nxt.Ui.Present
import Nxt.Ui.Sanitize
import Nxt.Ui.Snapshot
import Nxt.Ui.Wrap
import Nxt.WebSocket.Decode
import Nxt.Wisp.Allocation
import Nxt.Wisp.Bind
import Nxt.Wisp.Cache
import Nxt.Wisp.Capacity
import Nxt.Wisp.Connectives
import Nxt.Wisp.Equal
import Nxt.Wisp.External
import Nxt.Wisp.Reader
import Nxt.Wisp.Reserve
import Nxt.Wisp.Symbols
