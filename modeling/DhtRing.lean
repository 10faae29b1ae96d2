import DhtRing.Lib.Transition
import DhtRing.Lib.Tiling
import DhtRing.Pdu
import DhtRing.Wire
import DhtRing.Segments
import DhtRing.Hashtable
import DhtRing.Lib.Linked
import DhtRing.Node
import DhtRing.KeyArray
import DhtRing.Store
import DhtRing.Handlers
import DhtRing.Wiring
import DhtRing.TableCalls
import DhtRing.Sends
import DhtRing.Handover
import DhtRing.Net
import DhtRing.Steps
import DhtRing.Naming
import DhtRing.Rewiring
import DhtRing.HalfConnected
import DhtRing.Records
import DhtRing.Lib.FirstMax
import DhtRing.Election
import DhtRing.Lookup
import DhtRing.Splits
import DhtRing.Moved
import DhtRing.Polling
import DhtRing.Phases
import DhtRing.Membership
import DhtRing.Leave
import DhtRing.Changes
import DhtRing.Stages
import DhtRing.Progress
import DhtRing.Lib.OnePlace
import DhtRing.Requests
import DhtRing.Orderly
import DhtRing.Flow
import DhtRing.Upkeep
import DhtRing.OrderlySteps
import DhtRing.Arrival
import DhtRing.Ledger
import DhtRing.Operations
import DhtRing.Rest
import DhtRing.Histories
import DhtRing.Shape
import DhtRing.Traffic
import DhtRing.BusyJoin
import DhtRing.BusyLeave
import DhtRing.Startup
import DhtRing.Overtaking
import DhtRing.Lib.Framing
import DhtRing.Lib.RingElection
import DhtRing.Lib.Ends
import DhtRing.Lib.AtMostOne
import DhtRing.TestNode.Pdu
import DhtRing.TestNode.Encoding
import DhtRing.TestNode.WireFormats
import DhtRing.TestNode.RoundTrip
import DhtRing.Chunks
import DhtRing.TestNode.Wrapper
import DhtRing.TestNode.Receiving
import DhtRing.TestNode.Draining
import DhtRing.TestNode.Closing
import DhtRing.TestNode.Node
import DhtRing.TestNode.StateFunctions
import DhtRing.TestNode.Rounds
import DhtRing.TestNode.Transfer
import DhtRing.TestNode.Batching
import DhtRing.TestNode.Election
import DhtRing.TestNode.Leaving
import DhtRing.TestNode.Network
import DhtRing.TestNode.Queues
import DhtRing.TestNode.Forwarding
import DhtRing.TestNode.SameValues
import DhtRing.TestNode.Ownership
import DhtRing.Lib.Streams
import DhtRing.TestNode.Streams
import DhtRing.TestNode.Shares
import DhtRing.TestNode.Splitting
import DhtRing.TestNode.Halves
import DhtRing.TableCounters
import DhtRing.TableMemory
import DhtRing.TableRuns
import DhtRing.Lib.Relay
import DhtRing.TestNode.MixedNode
import DhtRing.TestNode.MixedProgress
import DhtRing.TestNode.Session
import DhtRing.TestNode.Discovery
