import Halyard.Placement
import Halyard.ListDiff.Model
import Halyard.ListDiff.Plan
import Halyard.ListDiff.Apply
import Halyard.ListDiff.Reconcile
import Halyard.Hydration.Dom
import Halyard.Hydration.Row
import Halyard.Hydration.Follow
import Halyard.Hydration.Endings
import Halyard.Hydration.Threads
import Halyard.Acyclic
import Halyard.Reactive.Graph
import Halyard.Reactive.State
import Halyard.Reactive.Invariant
import Halyard.Reactive.Frame
import Halyard.Reactive.Run
import Halyard.Reactive.Update
import Halyard.Reactive.Memos
import Halyard.Reactive.Effect
import Halyard.Reaches
import Halyard.Signal.Record
import Halyard.Signal.Threads
import Halyard.Signal.Uses
import Halyard.Ssr.InOrder
import Halyard.Ssr.Render
import Halyard.Ssr.Suspense
import Halyard.Ssr.Separators
import Halyard.Data.Literal
import Halyard.Data.Resource
import Halyard.Async.Value
import Halyard.Data.Stream
import Halyard.Ssr.Page
import Halyard.Ssr.OutOfOrder
import Halyard.Ssr.Arrival
import Halyard.Ssr.Document
import Halyard.Reactive.Loader
import Halyard.Rebuild.Dom
import Halyard.Rebuild.View
import Halyard.Rebuild.Fits
import Halyard.Rebuild.Build
import Halyard.Rebuild.Replace
import Halyard.Rebuild.Sequence
import Halyard.Rebuild.Shown
import Halyard.Signal.Balance
import Halyard.ListDiff.FromScratch
import Halyard.ListDiff.Keyed
import Halyard.Router.Flat
import Halyard.Reactive.Immediate
import Halyard.Reactive.Nested
import Halyard.Router.Segments
import Halyard.Router.Parts
import Halyard.Router.Accounts
import Halyard.Async.Wakers
import Halyard.Signal.Alone
import Halyard.Signal.Nesting
import Halyard.Signal.Updates
import Halyard.Data.ErrorMessage
import Halyard.Router.Flatten
import Halyard.Router.Values
import Halyard.Router.Grouping
import Halyard.Actions.Action
import Halyard.BreadthFirst
import Halyard.Owner.Context
import Halyard.Router.StaticRoutes
import Halyard.Errors.Boundary
import Halyard.Ssr.RawText
import Halyard.ListDiff.Previous
import Halyard.ListDiff.SameOperations
import Halyard.Attributes.Runs
import Halyard.Axum.RoutePath
import Halyard.Axum.RouteRegistry
import Halyard.Axum.AxumPath
import Halyard.Router.ResolvePath
import Halyard.PercentEncoding
import Halyard.Router.ParamsMap
import Halyard.Router.RequestUrl
import Halyard.Router.NestedParams
import Halyard.Insertions
import Halyard.Meta.Inject
import Halyard.Owner.Pausing
import Halyard.Meta.Origins
import Halyard.Ssr.Waking
import Halyard.Owner.Cleanup
import Halyard.Owner.CleanupOrder
import Halyard.Hydration.IslandsRouting
import Halyard.Hydration.SideBySide
import Halyard.Renderer.UpdateQueue
import Halyard.Router.ActiveLink
import Halyard.Router.NormalizePath
import Halyard.Router.PathMacro
import Halyard.Router.FlatRouting
import Halyard.Router.NestedRouting
import Halyard.Async.Channel
import Halyard.Async.OnceResource
import Halyard.Reactive.Selector
import Halyard.Async.SuspenseTasks
import Halyard.Reactive.Dependence
import Halyard.Rebuild.Detached
import Halyard.Rebuild.KeepAlive
import Halyard.Rebuild.SuspenseBoundary
import Halyard.Reactive.Page
import Halyard.Router.History
import Halyard.Rebuild.Suspend
import Halyard.Rebuild.SuspendShown
import Halyard.Router.Listing
import Halyard.ViewMacro.Tokens
import Halyard.ViewMacro.Inert
