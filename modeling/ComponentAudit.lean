import ComponentAudit.Audit
import ComponentAudit.Edit.Completion
import ComponentAudit.Edit.Fix
import ComponentAudit.Json.Reader
import ComponentAudit.Json.Writer
import ComponentAudit.Tree.Print
import ComponentAudit.Tree.Views
import ComponentAudit.Tree.Written
import ComponentAudit.Proofs.Flow.Lowered
import ComponentAudit.Proofs.Flow.Runs
import ComponentAudit.Proofs.Assign.Exact
import ComponentAudit.Proofs.Assign.Kept
import ComponentAudit.Proofs.Assign.Sound
import ComponentAudit.Proofs.Assign.Structured
import ComponentAudit.Proofs.Edit.Again
import ComponentAudit.Proofs.Flow.Meaning
import ComponentAudit.Proofs.Flow.Performed
import ComponentAudit.Proofs.Edit.Refusal
import ComponentAudit.Proofs.Edit.UpToDate
import ComponentAudit.Proofs.Audit.Distinct
import ComponentAudit.Proofs.Audit.Mended
import ComponentAudit.Proofs.Audit.Trivia
import ComponentAudit.Proofs.Tree.Histories
import ComponentAudit.Proofs.Flow.Unbroken
import ComponentAudit.Proofs.Assign.Straight
import ComponentAudit.Proofs.Edit.Same
import ComponentAudit.Proofs.Edit.Effect
import ComponentAudit.Proofs.Edit.Supply
import ComponentAudit.Proofs.Edit.Stages
import ComponentAudit.Proofs.Edit.Order
import ComponentAudit.Proofs.Source.Names
import ComponentAudit.Proofs.Assign.Plain
import ComponentAudit.Proofs.Edit.Beside
import ComponentAudit.Proofs.Edit.Closed
import ComponentAudit.Proofs.Edit.Settled
import ComponentAudit.Proofs.Assign.Recursion
import ComponentAudit.Proofs.Edit.FieldUses
import ComponentAudit.Proofs.Edit.Handler
import ComponentAudit.Proofs.Assign.Reached
import ComponentAudit.Proofs.Assign.Branches
import ComponentAudit.Proofs.Edit.Limits
import ComponentAudit.Proofs.Audit.Silent
import ComponentAudit.Proofs.Edit.Unwired
import ComponentAudit.Proofs.Edit.Removed
import ComponentAudit.Proofs.Edit.Wired
import ComponentAudit.Proofs.Edit.Completed
import ComponentAudit.Proofs.Exploration
import ComponentAudit.Proofs.Source.Members
import ComponentAudit.Proofs.Flow.Built
import ComponentAudit.Proofs.Source.Selections
