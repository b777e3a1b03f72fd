import Dagron.Store.Writer
import Dagron.Store.Lives
import Dagron.Store.DatasetFires
import Dagron.Store.Sinks
import Dagron.Store.Gangs
import Dagron.Store.Wakeups
import Dagron.Store.Attempts
import Dagron.Spec.Producers
import Dagron.Spec.Trust
import Dagron.Spec.Environments
import Dagron.Store.ShardLines
import Dagron.Crypto.Attest
import Dagron.Ci.Chunks
import Dagron.Source.StreamRuns
import Dagron.Artifact.TieredReads
import Dagron.CiExec.JobWords
import Dagron.Executor.Secrets
import Dagron.Crypto.BundleTrust
import Dagron.Artifact.Rotation
import Dagron.CiExpr.BranchGlobs
import Dagron.CiExpr.MatrixLaws
import Dagron.Store.ShedBounds
import Dagron.CiGit.ChangedPaths
import Dagron.CiExpr.Parsing
import Dagron.Artifact.TailReads
import Dagron.Store.Superseding
import Dagron.Fleet.Retention
import Dagron.Spec.Floor
import Dagron.Ci.Said
import Dagron.Ci.Schedule
import Dagron.CiGit.FetchAnswer
import Dagron.Review.Unchanged
import Dagron.Gitlab.Holds
import Dagron.CiPipeline.Cycles
