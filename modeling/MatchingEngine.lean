import MatchingEngine.BestPrice
import MatchingEngine.ClusterRepair
import MatchingEngine.Differential
import MatchingEngine.Durable
import MatchingEngine.EndOfStream
import MatchingEngine.EndToEnd
import MatchingEngine.EventLoop
import MatchingEngine.Events
import MatchingEngine.Grammar
import MatchingEngine.JournalFile
import MatchingEngine.Liquidity
import MatchingEngine.Liveness
import MatchingEngine.PriceArithmetic
import MatchingEngine.Recovery
import MatchingEngine.Replay
import MatchingEngine.Representation
import MatchingEngine.ResponseCodec
import MatchingEngine.Routing
import MatchingEngine.Sessions
import MatchingEngine.Shutdown
import MatchingEngine.SnapshotChanged
import MatchingEngine.Spread
import MatchingEngine.SpscThreads
import MatchingEngine.SpscWeak
import MatchingEngine.Streams
import MatchingEngine.Symmetry
import MatchingEngine.Undo
