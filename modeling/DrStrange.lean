import DrStrange.Basic
import DrStrange.Lib.TreeMap
import DrStrange.Lib.Versioned
import DrStrange.Lib.Table
import DrStrange.Lib.Replay
import DrStrange.Lib.Binary
import DrStrange.Lib.Outcome
import DrStrange.Lib.BestFirst
import DrStrange.Lib.Interleave
import DrStrange.Graph.Types
import DrStrange.Graph.Txn
import DrStrange.Graph.Meta
import DrStrange.Graph.Edge
import DrStrange.Graph.Node
import DrStrange.Graph.Bulk
import DrStrange.Graph.Exact
import DrStrange.Graph.Sound
import DrStrange.Graph.Runs
import DrStrange.Graph.Change
import DrStrange.Graph.BulkSound
import DrStrange.Graph.Labels
import DrStrange.Api.WriteTxn
import DrStrange.Api.Follows
import DrStrange.Api.Contents
import DrStrange.Api.Registry
import DrStrange.Api.Database
import DrStrange.Api.Reachable
import DrStrange.Api.Allocation
import DrStrange.Api.Planes
import DrStrange.Native.Types
import DrStrange.Native.Read
import DrStrange.Native.Merge
import DrStrange.Native.History
import DrStrange.Native.Txn
import DrStrange.Native.Wal
import DrStrange.Native.Postcard
import DrStrange.Native.Engine
import DrStrange.Native.Visibility
import DrStrange.Native.Trace
import DrStrange.Native.Live
import DrStrange.Native.Refinement
import DrStrange.Native.Disk
import DrStrange.Native.Recovery
import DrStrange.Native.Durability
import DrStrange.Native.CrashSafety
import DrStrange.Native.FailedCommits
import DrStrange.Native.Compaction
import DrStrange.Native.TimeTravel
import DrStrange.Native.Upgrade
import DrStrange.Native.Collected
import DrStrange.Native.PrefixDelete
import DrStrange.Native.Crc
import DrStrange.Native.Format
import DrStrange.Native.Written
import DrStrange.Native.BitRot
import DrStrange.Native.BlockCache
import DrStrange.Api.Isolation
import DrStrange.Api.Counters
import DrStrange.Api.Delivery
import DrStrange.Api.AsOf
import DrStrange.Api.Replicated
import DrStrange.Api.Keyword
import DrStrange.Json.Value
import DrStrange.Json.Node
import DrStrange.Hnsw.Index
import DrStrange.Hnsw.Search
import DrStrange.Hnsw.Update
import DrStrange.Hnsw.Step
import DrStrange.Hnsw.Answers
import DrStrange.Hnsw.Safety
import DrStrange.Hnsw.Build
import DrStrange.Hnsw.Parallel
import DrStrange.Hnsw.WellFormed
import DrStrange.Hnsw.VectorSearch
import DrStrange.Api.Making
import DrStrange.Compute.Agree
import DrStrange.Compute.Exec
import DrStrange.Compute.Groups
import DrStrange.Compute.Live
import DrStrange.Compute.Sum
import DrStrange.Parser.Ast
import DrStrange.Parser.Compile
import DrStrange.Parser.Deletion
import DrStrange.Parser.Matched
import DrStrange.Parser.Summary
import DrStrange.Parser.Copies
import DrStrange.Parser.Folded
import DrStrange.Parser.Merge
import DrStrange.Lib.UnionFind
import DrStrange.Lib.ShortestPath
import DrStrange.Lib.Calendar
import DrStrange.Lib.Utf8
import DrStrange.Lib.Pieces
import DrStrange.Lib.Channel
import DrStrange.Lib.Chase
import DrStrange.Compute.Frame
import DrStrange.Compute.Components
import DrStrange.Compute.Reordered
import DrStrange.Compute.ShortestPath
import DrStrange.Parser.Seek
import DrStrange.Parser.Joined
import DrStrange.Parser.Quoted
import DrStrange.Parser.Denote
import DrStrange.Llm.Fold
import DrStrange.Llm.Reconcile
import DrStrange.Llm.Identity
import DrStrange.Llm.Digest
import DrStrange.Llm.Settable
import DrStrange.Llm.Pipeline
import DrStrange.Llm.Renamed
import DrStrange.Llm.Loadable
import DrStrange.Llm.Linked
import DrStrange.Ops.Time
import DrStrange.Ops.Rev
import DrStrange.Ops.Images
import DrStrange.Web.Robots
import DrStrange.Web.Throttle
import DrStrange.Web.Follow
import DrStrange.Web.Guard
import DrStrange.Lib.Modularity
import DrStrange.Compute.Louvain
import DrStrange.Compute.Weights
import DrStrange.Compute.LocalMoving
import DrStrange.Compute.Communities
import DrStrange.Llm.Chunk
import DrStrange.Llm.Extract
import DrStrange.Lib.WorkPool
import DrStrange.Llm.ExtractAll
import DrStrange.Lib.Layers
import DrStrange.Compact.Walk
import DrStrange.Ops.Stated
import DrStrange.Ops.Counts
import DrStrange.Native.Keys
import DrStrange.Lib.BigEndian
import DrStrange.Lib.KLeast
import DrStrange.Hnsw.HugeK
import DrStrange.Hnsw.Scratch
import DrStrange.Api.PlaneEdits
import DrStrange.Api.Instance
import DrStrange.Llm.VectorizePass
import DrStrange.Compute.Needed
