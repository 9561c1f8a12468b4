import LainLang.Cli.PeerManager
import LainLang.Compiler.Entry
import LainLang.Compiler.HashArithmetic
import LainLang.Compiler.HashFrame
import LainLang.Compiler.Interference
import LainLang.Compiler.MergeClosure
import LainLang.Compiler.NeighborDelta
import LainLang.Compiler.ParseRoundTrip
import LainLang.Compiler.StableText
import LainLang.Compiler.Translation
import LainLang.Compiler.Unfold
import LainLang.Grpc.Bridge
import LainLang.Grpc.CardPropagators
import LainLang.Grpc.Connectors
import LainLang.Grpc.Diff
import LainLang.Grpc.Echo
import LainLang.Grpc.PushIterable
import LainLang.Grpc.Sessions
import LainLang.Grpc.Stream
import LainLang.Datalog.FactSets
import LainLang.Datalog.Kiroshi
import LainLang.Datalog.NetworkPipeline
import LainLang.Datalog.Propagator
import LainLang.Datalog.QueryDataflow
import LainLang.Datalog.Reachability
import LainLang.Datalog.TracedGraph
import LainLang.Runtime.StrongestValue
import LainLang.Serialize.Codec
import LainLang.Serialize.GunListeners
import LainLang.Serialize.GunSharing
import LainLang.Serialize.GunTermination
import LainLang.Tracer.Adequacy
import LainLang.Tracer.CardNetwork
import LainLang.Tracer.ClauseOrder
import LainLang.Tracer.Collapse
import LainLang.Tracer.ConnectedPrefix
import LainLang.Tracer.FreshVariables
import LainLang.Tracer.NamespaceConnected
import LainLang.Tracer.Neighbourhood
import LainLang.Tracer.PeriodicTracer
import LainLang.Tracer.ReactiveRuns
import LainLang.Tracer.Traverse
import LainLang.Tracer.Upstream
