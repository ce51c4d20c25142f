import Thredis.Cmd.AclRules
import Thredis.Cmd.PopSelection
import Thredis.Cmd.SetPromotion
import Thredis.Cmd.SnapshotSafety
import Thredis.Cmd.WatchCycles
import Thredis.Core.AclRevocation
import Thredis.Core.AtomicAdmission
import Thredis.Core.CommitWatermark
import Thredis.Core.FlipPolicy
import Thredis.Core.GracePeriod
import Thredis.Core.PubSubOutbox
import Thredis.Core.RetireRing
import Thredis.Core.ShardTransfer
import Thredis.Core.SnapshotCutRuns
import Thredis.Exec.BatchOrder
import Thredis.Exec.QueuePartition
import Thredis.Exec.WakeElision
import Thredis.Net.ReadYourWrites
import Thredis.Net.RespExactness
import Thredis.Persist.AofLifetimes
import Thredis.Persist.AofProducerRuns
import Thredis.Persist.AofRewriteRuns
import Thredis.Persist.SnapshotFileExact
import Thredis.Store.ExpireRuns
import Thredis.Store.FlatCapacity
import Thredis.Store.FlatFailure
import Thredis.Store.ForeignReadDrain
import Thredis.Store.GroupVisibility
import Thredis.Store.LedgerRuns
import Thredis.Store.ProgramOrder
import Thredis.Store.ResizeRuns
import Thredis.Store.ScanCoverage
