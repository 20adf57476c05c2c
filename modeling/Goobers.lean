import Goobers.Claims.Custody
import Goobers.CloudLease.Epochs
import Goobers.Decomposition.Barrier
import Goobers.Findings.Commit
import Goobers.Gates.RepassCounts
import Goobers.IntSplit.LargestRemainder
import Goobers.Journal.BranchCursors
import Goobers.Journal.HandlePhase
import Goobers.Journal.TailDelivery
import Goobers.Journal.TerminalRestarts
import Goobers.Migration.Undo
import Goobers.PathUtil.SafePath
import Goobers.ReadService.Compaction
import Goobers.Redaction.Checkpoint
import Goobers.Redaction.Retirement
import Goobers.Scheduler.Budgets
import Goobers.Scheduler.CatchUp
import Goobers.Scheduler.Slots
import Goobers.SharedClaim.Exclusive
import Goobers.Workflow.BranchWalk
import Goobers.Workflow.Dominance
import Goobers.Workflow.Handoff
import Goobers.Workflow.RepoCoverage
import Goobers.WorkspaceDelta.Reconcile
