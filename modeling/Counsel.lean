import Counsel.Agent.ActionValues
import Counsel.Agent.Basic
import Counsel.Agent.Greedy
import Counsel.Assignment
import Counsel.Beta.Distribution
import Counsel.Beta.Fused
import Counsel.Beta.LogGamma
import Counsel.Beta.LogOnePlus
import Counsel.Beta.Quantile
import Counsel.Config.Read
import Counsel.Config.Settings
import Counsel.Config.Valid
import Counsel.Config.Write
import Counsel.Decimal.Double
import Counsel.Decimal.Shortest
import Counsel.Decimal.Written
import Counsel.Diagram.Basic
import Counsel.Diagram.Declaration
import Counsel.Diagram.Error
import Counsel.Diagram.Factor
import Counsel.Diagram.Memo
import Counsel.Diagram.Read
import Counsel.Diagram.Scope
import Counsel.Diagram.Topological
import Counsel.Diagram.Variable
import Counsel.Environment
import Counsel.Error
import Counsel.Experiment
import Counsel.Expert.Basic
import Counsel.Expert.Gate
import Counsel.Expert.Panel
import Counsel.Inference.Error
import Counsel.Inference.Order
import Counsel.Inference.Query
import Counsel.Inference.Solve
import Counsel.Inference.Write
import Counsel.Json.Basic
import Counsel.Json.Decode
import Counsel.Json.Quoted
import Counsel.Json.Reader
import Counsel.Json.Text
import Counsel.Layout
import Counsel.Log
import Counsel.MixedRadix
import Counsel.NameMap
import Counsel.Oracle
import Counsel.Proofs.Diagram.Topological
import Counsel.Proofs.Factor.Cell
import Counsel.Proofs.Factor.Memo
import Counsel.Proofs.Factor.Numbering
import Counsel.Proofs.Outcome
import Counsel.Proofs.Scope
import Counsel.Proofs.Slots
import Counsel.Random.KeyStream
import Counsel.Random.Source
import Counsel.Record
import Counsel.Run
import Counsel.RunId
import Counsel.Scalar
import Counsel.Scalar.Weights
import Counsel.StateTable
import Counsel.Text.Blank
import Counsel.Text.Escaped
import Counsel.Text.Extending
import Counsel.Text.Ranges
import Counsel.Text.Unseen
import Counsel.Trust.Belief
import Counsel.Trust.Engine
import Counsel.Trust.Follower
import Counsel.Value
import Counsel.Proofs.Diagram.WellFormed
import Counsel.Proofs.Diagram.Build
import Counsel.Proofs.Diagram.Observations
import Counsel.Proofs.Diagram.Ancestors
import Counsel.Proofs.Inference.Stage
import Counsel.Proofs.Factor.Exact
import Counsel.Proofs.Diagram.Rows
import Counsel.Proofs.Inference.Joint
import Counsel.Proofs.Inference.Elimination
import Counsel.Proofs.Inference.Posterior
import Counsel.Proofs.Inference.Orders
import Counsel.Proofs.Inference.Sweep
import Counsel.Proofs.Inference.Backward
import Counsel.Proofs.Inference.Links
import Counsel.Proofs.Inference.Idle
import Counsel.Proofs.Inference.Policy
import Counsel.Proofs.Inference.Nested
import Counsel.Proofs.Inference.Value
import Counsel.Proofs.Inference.Rules
import Counsel.Proofs.Inference.Optimum
import Counsel.Proofs.NameMap
import Counsel.Proofs.Layout
import Counsel.Proofs.Step
import Counsel.Proofs.Trust.Values
import Counsel.Proofs.Trust.Learning
import Counsel.Proofs.Trust.Run
import Counsel.Proofs.Trust.Noninterference
import Counsel.Proofs.Trust.Judgement
import Counsel.Proofs.Factor.Pool
import Counsel.Proofs.Inference.Choice
import Counsel.Proofs.Inference.Session
import Counsel.Proofs.Config.Valid
import Counsel.Proofs.Diagram.Naming
import Counsel.Proofs.Diagram.Likely
import Counsel.Proofs.Inference.Certain
import Counsel.Proofs.Experiment.Environment
import Counsel.Proofs.Experiment.Oracle
import Counsel.Proofs.Experiment.Experts
import Counsel.Proofs.Trust.Learner
import Counsel.Proofs.Trust.Ready
import Counsel.Proofs.Experiment.Run
import Counsel.Proofs.Experiment.Complete
import Counsel.Proofs.Alike
import Counsel.Proofs.Inference.Renumbering
import Counsel.Proofs.Oracle.Faithful
import Counsel.Proofs.Trust.Follower
import Counsel.Proofs.Trust.Requests
import Counsel.Proofs.Inference.Foremost
import Counsel.Proofs.Diagram.Shown
import Counsel.Proofs.Expert.Sighted
import Counsel.Proofs.Oracle.FirstBest
import Counsel.Proofs.Expert.Advice
import Counsel.Proofs.Experiment.Regret
import Counsel.Proofs.Experiment.Reproducible
import Counsel.Proofs.Diagram.Acyclic
import Counsel.Proofs.Expert.Gate
import Counsel.Proofs.StateTable
import Counsel.Proofs.Diagram.Arcs
import Counsel.Proofs.Diagram.Accepted
import Counsel.Proofs.Diagram.LeastOrder
import Counsel.Proofs.Diagram.Cycles
import Counsel.Proofs.Inference.Parallel
import Counsel.Proofs.Oracle.History
import Counsel.Proofs.Listing
import Counsel.Proofs.Diagram.Addresses
import Counsel.Proofs.Inference.Carrier
import Counsel.Proofs.Inference.Evidence
import Counsel.Proofs.Inference.Chain
import Counsel.Proofs.Inference.Congruence
import Counsel.Proofs.Diagram.Frame
import Counsel.Proofs.Inference.Legality
import Counsel.Proofs.Inference.Skipped
import Counsel.Proofs.Oracle.Blind
import Counsel.Proofs.Expert.History
import Counsel.Proofs.Weights
import Counsel.Proofs.Trust.Belief
import Counsel.Proofs.Trust.Evidence
import Counsel.Proofs.Trust.Weighing
import Counsel.Proofs.Trust.Certainty
import Counsel.Proofs.Expert.Disclosure
import Counsel.Proofs.Experiment.Sampling
import Counsel.Proofs.Experiment.Seeds
import Counsel.Proofs.Trust.Memory
import Counsel.Proofs.Trust.Failure
import Counsel.Proofs.Trust.Estimates
import Counsel.Proofs.Machine.Value
import Counsel.Proofs.Machine.Rounding
import Counsel.Proofs.Machine.Arithmetic
import Counsel.Proofs.Beta.Bisection
import Counsel.Proofs.Beta.Quantile
import Counsel.Proofs.Diagram.Upstream
import Counsel.Proofs.Diagram.Slices
import Counsel.Proofs.Machine.Fractions
import Counsel.Proofs.Expert.Noise
import Counsel.Proofs.Expert.Reliability
import Counsel.Proofs.Laws
import Counsel.Proofs.Shares
