import Memnode.Config
import Memnode.Value
import Memnode.Protocol
import Memnode.Lib.BigEndian
import Memnode.Lib.Dict
import Memnode.Lib.Hex
import Memnode.Lib.Json
import Memnode.Lib.JsonRoundTrip
import Memnode.Lib.Msgpack
import Memnode.Lib.Parser
import Memnode.Lib.Pool
import Memnode.Lib.Py
import Memnode.Lib.RoundRobin
import Memnode.Lib.Semaphore
import Memnode.Lib.Simulation
import Memnode.Lib.Striped
import Memnode.Lib.Utf8
import Memnode.Blocks.Manager
import Memnode.Blocks.Tasks
import Memnode.Blocks.Quota
import Memnode.Blocks.Plain
import Memnode.Blocks.Simulation
import Memnode.Blocks.Refinement
import Memnode.Blocks.AnyKey
import Memnode.Blocks.Eviction
import Memnode.Blocks.Removal
import Memnode.Blocks.Concurrent
import Memnode.Frames
import Memnode.Security.Crypto
import Memnode.Security.ReplayWindow
import Memnode.Security.Channel
import Memnode.Security.Delivery
import Memnode.Security.Lockstep
import Memnode.Security.Duplex
import Memnode.Security.Rejected
import Memnode.Security.Reordering
import Memnode.Security.Nonces
import Memnode.Security.Handshake
import Memnode.Security.Agreement
import Memnode.Mux.Channel
import Memnode.Mux.Closing
import Memnode.Mux.Backpressure
import Memnode.Mux.Link
import Memnode.Mux.Attacked
import Memnode.Peers.Registry
import Memnode.Peers.TrustStore
import Memnode.Peers.Durable
import Memnode.Peers.History
import Memnode.Peers.AnyFile
import Memnode.Peers.Consent
import Memnode.RateLimit.Guard
import Memnode.RateLimit.Accounting
import Memnode.RateLimit.Window
import Memnode.Replication.Coordinator
import Memnode.Replication.Network
import Memnode.Replication.Messages
import Memnode.Replication.Conversation
import Memnode.Replication.Stages
import Memnode.Replication.Arrivals
import Memnode.Replication.Transfers
import Memnode.Replication.Exact
import Memnode.Replication.Stall
import Memnode.Replication.Circuit
import Memnode.Replication.Simulates
import Memnode.Replication.EndToEnd
import Memnode.Replication.Effects
import Memnode.Replication.Hub
import Memnode.Replication.Bounds
import Memnode.Replication.Futures
import Memnode.Replication.Declared
import Memnode.Replication.Isolation
import Memnode.Replication.Requests
import Memnode.Replication.Answered
import Memnode.Replication.CleanUp
import Memnode.Replication.Replies
import Memnode.Rpc.Dispatch
import Memnode.Rpc.Copies
import Memnode.Rpc.ReadYourWrites
import Memnode.Rpc.PeerOps
import Memnode.Rpc.ShortNames
import Memnode.Rpc.FailedStore
import Memnode.Rpc.Overflow
import Memnode.Rpc.Wire
import Memnode.Rpc.Session
import Memnode.Rpc.Codecs
