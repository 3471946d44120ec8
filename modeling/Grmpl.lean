import Grmpl.Core.Hash
import Grmpl.Ent.BackfollowExact
import Grmpl.Ent.BranchHandles
import Grmpl.Ent.CanopyChurn
import Grmpl.Ent.Collection
import Grmpl.Ent.CommonAncestor
import Grmpl.Ent.ContextLaws
import Grmpl.Ent.CopyHistory
import Grmpl.Ent.DurableFrontier
import Grmpl.Ent.KdBuild
import Grmpl.Ent.RowShifts
import Grmpl.Ent.SnapshotReader
import Grmpl.Ent.TreeDiffExact
import Grmpl.Ent.TreeKinds
import Grmpl.Ent.Verification
import Grmpl.Lang.BootstrapDigest
import Grmpl.Lang.CapabilityState
import Grmpl.Lang.CatalogIds
import Grmpl.Lang.Dispatch
import Grmpl.Lang.EffectRows
import Grmpl.Lang.FailedLoad
import Grmpl.Lang.ScheduledMessages
import Grmpl.Lang.SurfaceText
import Grmpl.Proc.DeliveredOnce
import Grmpl.Proc.HistoryGc
import Grmpl.Proc.Observed
import Grmpl.Proc.Replay
import Grmpl.Proc.SchemaEvolution
import Grmpl.Proc.SchemaLaw
import Grmpl.Proc.TimersOnce
import Grmpl.Session.DriveSplit
import Grmpl.Session.Login
import Grmpl.Session.Subscription
