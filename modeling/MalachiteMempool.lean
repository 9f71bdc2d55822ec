import MalachiteMempool.Mempool
import MalachiteMempool.Pool.Representation
import MalachiteMempool.Pool.Invariant
import MalachiteMempool.Pool.Refinement
import MalachiteMempool.Pool.Fifo
import MalachiteMempool.Host.App
import MalachiteMempool.Node.System
import MalachiteMempool.Node.Custody
import MalachiteMempool.Node.Capacity
import MalachiteMempool.Node.Delivery
import MalachiteMempool.Node.Replies
import MalachiteMempool.Node.Replay
import MalachiteMempool.Node.Subscribers
import MalachiteMempool.Node.Linearization
import MalachiteMempool.Cluster.System
import MalachiteMempool.Cluster.Convergence
import MalachiteMempool.Pool.AtMostOnce
import MalachiteMempool.Pool.Take
import MalachiteMempool.Pool.Indifference
import MalachiteMempool.Lib.Wire
import MalachiteMempool.Network.Codec
import MalachiteMempool.Network.Actor
import MalachiteMempool.Lib.Mpsc
import MalachiteMempool.Network.System
import MalachiteMempool.Network.Shutdown
import MalachiteMempool.Host.Codec
import MalachiteMempool.Network.Protobuf
import MalachiteMempool.Node.Content
import MalachiteMempool.Host.Rpc
import MalachiteMempool.Host.System
import MalachiteMempool.Host.Answers
import MalachiteMempool.Cluster.Stack
import MalachiteMempool.Cluster.Refinement
import MalachiteMempool.Cluster.Provenance
import MalachiteMempool.Lib.Grammar
import MalachiteMempool.Network.Acceptance
import MalachiteMempool.Lib.Ring
import MalachiteMempool.Network.OutputPort
import MalachiteMempool.Network.Subscription
import MalachiteMempool.Network.Sharing
import MalachiteMempool.Network.Queues
import MalachiteMempool.Node.Progress
import MalachiteMempool.Cluster.Work
import MalachiteMempool.Pool.Projection
import MalachiteMempool.Host.Truth
import MalachiteMempool.Network.Completion
