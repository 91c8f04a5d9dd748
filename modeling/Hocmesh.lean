import Hocmesh.Base.Check
import Hocmesh.Base.MachineInt
import Hocmesh.Base.Table
import Hocmesh.Ledger.Types
import Hocmesh.Protocol.Crypto
import Hocmesh.Compute.Audit
import Hocmesh.Ledger.Membership
import Hocmesh.Ledger.Validate
import Hocmesh.Ledger.Historical
import Hocmesh.Ledger.Store
import Hocmesh.Ledger.Replay
import Hocmesh.Validator.Handlers
import Hocmesh.Base.Quorum
import Hocmesh.Ledger.SetChain
import Hocmesh.Books.Record
import Hocmesh.Books.Chain
import Hocmesh.Books.Flow
import Hocmesh.Base.Along
import Hocmesh.Books.Conservation
import Hocmesh.Books.Sample
import Hocmesh.Books.Supply
import Hocmesh.Books.Jobs
import Hocmesh.Base.Remaining
import Hocmesh.Books.Escrow
import Hocmesh.Books.Batches
import Hocmesh.Books.Inference
import Hocmesh.Compute.Rounding
import Hocmesh.Books.Drain
import Hocmesh.Books.Certify
import Hocmesh.Books.Audit
import Hocmesh.Books.Binding
import Hocmesh.Base.Voting
import Hocmesh.Network.Client
import Hocmesh.Network.Run
import Hocmesh.Network.Seats
import Hocmesh.Network.Agreement
import Hocmesh.Network.Votes
import Hocmesh.Books.Windows
import Hocmesh.Books.Vouches
import Hocmesh.Books.History
import Hocmesh.Ledger.Snapshot
import Hocmesh.Books.Replicas
import Hocmesh.Books.Routes
import Hocmesh.Books.Export
import Hocmesh.Network.Lookup
import Hocmesh.Network.Settle
import Hocmesh.Network.Batching
import Hocmesh.Network.Follow
import Hocmesh.Base.Rows
import Hocmesh.Coordinator.Intents
import Hocmesh.Coordinator.Auth
import Hocmesh.Coordinator.Rebuild
import Hocmesh.Coordinator.Recovery
import Hocmesh.Coordinator.Outcomes
import Hocmesh.Coordinator.Refunds
import Hocmesh.Coordinator.Failover
import Hocmesh.Base.Slots
import Hocmesh.Coordinator.Local
import Hocmesh.Base.Cascade
import Hocmesh.Base.Words
import Hocmesh.Engine.Kernels
import Hocmesh.Engine.Stage
import Hocmesh.Engine.Forward
import Hocmesh.Engine.Shapes
import Hocmesh.Engine.Split
import Hocmesh.Node.Pipeline
import Hocmesh.Node.Runs
import Hocmesh.Node.Release
import Hocmesh.Node.Whole
import Hocmesh.Base.Walk
import Hocmesh.Base.Utf8
import Hocmesh.Model.Gguf
import Hocmesh.Model.Cut
import Hocmesh.Model.Nesting
import Hocmesh.Model.RoundTrip
import Hocmesh.Model.Directory
import Hocmesh.Engine.Reads
import Hocmesh.Base.Faulty
import Hocmesh.Model.Store
import Hocmesh.Model.Locality
import Hocmesh.Engine.Config
import Hocmesh.Engine.Weights
import Hocmesh.Node.Shards
import Hocmesh.Base.Bits
import Hocmesh.Base.Floats
import Hocmesh.Core.Proximity
import Hocmesh.Coordinator.Edges
import Hocmesh.Engine.Half
import Hocmesh.Engine.Blocks
import Hocmesh.Engine.SuperBlocks
import Hocmesh.Base.Scatter
import Hocmesh.Engine.Dequant
import Hocmesh.Transport.Tensors
import Hocmesh.Base.Extended
import Hocmesh.Compute.Tensor
import Hocmesh.Model.Chunks
import Hocmesh.Transport.Seeding
import Hocmesh.Transport.Fetch
import Hocmesh.Base.Search
import Hocmesh.Transport.Hub
import Hocmesh.Node.Assignments
import Hocmesh.Core.Resources
import Hocmesh.Core.Limits
import Hocmesh.Node.Consent
import Hocmesh.Engine.Bounds
import Hocmesh.Base.Tiling
import Hocmesh.Base.Peaks
import Hocmesh.Base.Vanishing
import Hocmesh.Compute.Products
import Hocmesh.Compute.Primes
import Hocmesh.Compute.Buckets
import Hocmesh.Compute.Splitting
import Hocmesh.Compute.Pricing
import Hocmesh.Base.Apportion
import Hocmesh.Ai.Plan
import Hocmesh.Books.Rewinding
import Hocmesh.Ai.Submit
import Hocmesh.Engine.Loading
import Hocmesh.Engine.Crashes
import Hocmesh.Coordinator.Certified
import Hocmesh.Coordinator.Restored
import Hocmesh.Base.Choice
import Hocmesh.Base.Grouping
import Hocmesh.Coordinator.Federation
import Hocmesh.Network.Quorums
import Hocmesh.Network.Outbid
import Hocmesh.Base.Paging
import Hocmesh.Core.Leases
import Hocmesh.Ledger.Paging
import Hocmesh.Coordinator.Standing
import Hocmesh.Coordinator.Syncing
import Hocmesh.Coordinator.Polling
import Hocmesh.Base.Greedy
import Hocmesh.Coordinator.Clusters
import Hocmesh.Core.Identity
import Hocmesh.Desktop.Supervisor
import Hocmesh.Node.SetLimits
import Hocmesh.Base.Ranks
import Hocmesh.Base.Balance
import Hocmesh.Coordinator.Pooling
import Hocmesh.Transport.Uplink
import Hocmesh.Coordinator.Health
import Hocmesh.Transport.Spreading
import Hocmesh.Network.Healing
import Hocmesh.Coordinator.Exchange
