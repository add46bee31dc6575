import GraphRelay.FrozenGraph.Query
import GraphRelay.Graph.Simple
import GraphRelay.Graph.Bidirected
import GraphRelay.Graph.LineGraph
import GraphRelay.Graph.Disjoint
import GraphRelay.Graph.Halo
import GraphRelay.IdMap
import GraphRelay.Message.ArrayMeta
import GraphRelay.Message.KeyValue
import GraphRelay.Queue.Custody
import GraphRelay.Queue.Pump
import GraphRelay.Transfer.KeyValue
import GraphRelay.Transfer.NodeFlow
import GraphRelay.Transfer.LocalLinks
import GraphRelay.Link.Endpoint
import GraphRelay.Link.Options
import GraphRelay.Link.Outbound
import GraphRelay.Link.Inbound
import GraphRelay.EdgeList
import GraphRelay.Single.Notation
import GraphRelay.Single.Reading
import GraphRelay.Settings.Basic
import GraphRelay.Command.Run
import GraphRelay.Main
import GraphRelay.Proofs.Adjacency.Rows
import GraphRelay.Proofs.Message.ArrayMetaFormat
import GraphRelay.Proofs.Adjacency.Entries
import GraphRelay.Proofs.Adjacency.CountingSort
import GraphRelay.Proofs.Adjacency.WellFormed
import GraphRelay.Proofs.Adjacency.Arrays
import GraphRelay.Proofs.Adjacency.Coordinates
import GraphRelay.Proofs.Adjacency.Reachable
import GraphRelay.Proofs.Adjacency.Bucketing
import GraphRelay.Proofs.Adjacency.Transpose
import GraphRelay.Proofs.FrozenGraph.Source
import GraphRelay.Proofs.FrozenGraph.Views
import GraphRelay.Proofs.Adjacency.Parallel
import GraphRelay.Proofs.Adjacency.IndexedSorting
import GraphRelay.Proofs.Adjacency.TransposeTwice
import GraphRelay.Proofs.Adjacency.Lookup
import GraphRelay.Proofs.FrozenGraph.Cache
import GraphRelay.Proofs.EditableGraph.Listing
import GraphRelay.Proofs.Command.Partition
import GraphRelay.Proofs.Command.Serving
import GraphRelay.Proofs.Command.Feeds
import GraphRelay.Proofs.EdgeList.Loading
import GraphRelay.Proofs.EditableGraph.Columns
import GraphRelay.Proofs.EditableGraph.InStep
import GraphRelay.Proofs.EditableGraph.LineGraph
import GraphRelay.Proofs.Graph.Edges
import GraphRelay.Proofs.Graph.WalkCounts
import GraphRelay.Proofs.FrozenGraph.Expansion
import GraphRelay.Proofs.Graph.Union
import GraphRelay.Proofs.Graph.Parts
import GraphRelay.Proofs.Graph.NestedUnion
import GraphRelay.Proofs.Graph.Partition
import GraphRelay.Proofs.Graph.Shape
import GraphRelay.Proofs.Graph.Splitting
import GraphRelay.Proofs.FrozenGraph.ParentEdges
import GraphRelay.Proofs.Graph.Halo
import GraphRelay.Proofs.Graph.HaloParts
import GraphRelay.Proofs.Graph.FrozenCopy
import GraphRelay.Proofs.Graph.SimpleGraph
import GraphRelay.Proofs.Graph.Bidirecting
import GraphRelay.Proofs.FrozenGraph.InducedSubgraph
import GraphRelay.Proofs.FrozenGraph.EdgeSubgraph
import GraphRelay.Proofs.Transfer.InOrder
import GraphRelay.Proofs.Message.KeyValueFormat
import GraphRelay.Proofs.Tensor.Buffers
import GraphRelay.Proofs.PeerTable
import GraphRelay.Proofs.Transfer.KeyValue
import GraphRelay.Proofs.Transfer.LocalLinks
import GraphRelay.Proofs.Transfer.Streams
import GraphRelay.Proofs.Transfer.KeyValueStream
import GraphRelay.Proofs.Transfer.NodeFlow
import GraphRelay.Proofs.Transfer.NodeFlowStream
import GraphRelay.Proofs.Transfer.Rejection
import GraphRelay.Proofs.Queue.Operations
import GraphRelay.Proofs.Queue.Runs
import GraphRelay.Proofs.Queue.Wakeups
import GraphRelay.Proofs.Queue.Ownership
import GraphRelay.Proofs.Link.Framing
import GraphRelay.Proofs.Link.Delivery
import GraphRelay.Proofs.Link.Accepting
import GraphRelay.Proofs.Link.Receiving
import GraphRelay.Proofs.Link.ReceivingInOrder
import GraphRelay.Proofs.Link.Owing
import GraphRelay.Proofs.Link.Scheduling
import GraphRelay.Proofs.Link.Sending
import GraphRelay.Proofs.Link.SendingRefusals
import GraphRelay.Proofs.Link.Closing
import GraphRelay.Proofs.Transfer.NodeFlowAcceptance
import GraphRelay.Proofs.Message.KeyValueRefusals
import GraphRelay.Proofs.Wire.Text
import GraphRelay.Proofs.FirstPositions
import GraphRelay.Proofs.Decimal
import GraphRelay.Proofs.Link.EndpointText
import GraphRelay.Proofs.Csv.PlainTables
import GraphRelay.Proofs.EdgeList.RoundTrip
import GraphRelay.Proofs.Command.Statistics
import GraphRelay.Proofs.Command.Reports
import GraphRelay.Proofs.Tensor.Acceptance
import GraphRelay.Proofs.Tensor.TypedViews
import GraphRelay.Proofs.Adjacency.RunLengths
import GraphRelay.Proofs.FrozenGraph.Multigraph
