import FdbGo.Client.CommitFence
import FdbGo.Client.ConflictSpanProperties
import FdbGo.Client.GrvCommitFloor
import FdbGo.Client.GrvInvalidation
import FdbGo.Client.KnownRange
import FdbGo.Client.PointRead
import FdbGo.Client.ReadConflicts
import FdbGo.Client.Versionstamp
import FdbGo.Executor.AggregatePages
import FdbGo.Executor.NestedLoopJoinPages
import FdbGo.Query.NormalizeEntryPoints
import FdbGo.RecordLayer.AtomicIndexHistories
import FdbGo.RecordLayer.BitmapHistories
import FdbGo.RecordLayer.IndexPredicate
import FdbGo.RecordLayer.IntersectionPages
import FdbGo.RecordLayer.RangeSetConflicts
import FdbGo.RecordLayer.RankedSetHistories
import FdbGo.RecordLayer.RecordExists
import FdbGo.RecordLayer.UnionPages
import FdbGo.Tuple.Directions
import FdbGo.Tuple.KeySuffix
import FdbGo.Wire.VTable
