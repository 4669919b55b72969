import ExactPresolve.Bounds
import ExactPresolve.Event
import ExactPresolve.Expression
import ExactPresolve.Import
import ExactPresolve.IndexSet
import ExactPresolve.Model
import ExactPresolve.Number.Basic
import ExactPresolve.Number.Binary
import ExactPresolve.Number.Literal
import ExactPresolve.Number.Printer
import ExactPresolve.Presolve
import ExactPresolve.Proofs.Bounds
import ExactPresolve.Proofs.Compensation
import ExactPresolve.Proofs.Linear
import ExactPresolve.Proofs.Number.Grammar
import ExactPresolve.Proofs.Number.Literal
import ExactPresolve.Proofs.Number.Printer
import ExactPresolve.Proofs.Projection
import ExactPresolve.Proofs.Rule.Apply
import ExactPresolve.Proofs.Rule.Checked
import ExactPresolve.Proofs.Rule.Effect
import ExactPresolve.Proofs.Rule.Extension
import ExactPresolve.Proofs.Rule.Frame
import ExactPresolve.Proofs.Rule.Idempotent
import ExactPresolve.Proofs.Rule.OneFree
import ExactPresolve.Proofs.Rule.Points
import ExactPresolve.Proofs.Rule.Renaming
import ExactPresolve.Proofs.Rule.Reports
import ExactPresolve.Proofs.Rule.Scaling
import ExactPresolve.Proofs.Rule.Signs
import ExactPresolve.Proofs.Rule.Solutions
import ExactPresolve.Proofs.Rule.TwoFree
import ExactPresolve.Proofs.Run.Counts
import ExactPresolve.Proofs.Run.Extension
import ExactPresolve.Proofs.Run.Faultless
import ExactPresolve.Proofs.Run.History
import ExactPresolve.Proofs.Run.Passes
import ExactPresolve.Proofs.Run.Presolve
import ExactPresolve.Proofs.Run.Redundant
import ExactPresolve.Proofs.Run.Refutation
import ExactPresolve.Proofs.Run.Remaining
import ExactPresolve.Proofs.Run.Renaming
import ExactPresolve.Proofs.Run.Reports
import ExactPresolve.Proofs.Run.Resume
import ExactPresolve.Proofs.Run.Scaling
import ExactPresolve.Proofs.Run.Simulation
import ExactPresolve.Proofs.Run.Slack
import ExactPresolve.Proofs.Run.Solutions
import ExactPresolve.Proofs.Run.Solved
import ExactPresolve.Proofs.Run.State
import ExactPresolve.Proofs.Run.Tightening
import ExactPresolve.Proofs.Run.Trace
import ExactPresolve.Proofs.Run.Variables
import ExactPresolve.Proofs.Run.Verdict
import ExactPresolve.Proofs.Settings
import ExactPresolve.Proofs.Text
import ExactPresolve.Proofs.Toml
import ExactPresolve.Rule
import ExactPresolve.Rule.FewFree
import ExactPresolve.Rule.Signs
import ExactPresolve.Settings
import ExactPresolve.Terms
import ExactPresolve.Text
import ExactPresolve.Toml.Document
import ExactPresolve.Toml.Number
import ExactPresolve.Toml.Reader
import ExactPresolve.Toml.Text
import ExactPresolve.Toml.Value
import ExactPresolve.Variable
