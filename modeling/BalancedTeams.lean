import BalancedTeams.Digest
import BalancedTeams.Main
import BalancedTeams.Proofs.Circuit
import BalancedTeams.Proofs.Compile.Meaning
import BalancedTeams.Proofs.Compile.Rows
import BalancedTeams.Proofs.Compile.Steps
import BalancedTeams.Proofs.Compile.Success
import BalancedTeams.Proofs.Compile.Walk
import BalancedTeams.Proofs.Compile.Yields
import BalancedTeams.Proofs.Config.Acceptance
import BalancedTeams.Proofs.Config.Coherence
import BalancedTeams.Proofs.Config.Idempotence
import BalancedTeams.Proofs.Config.Loading
import BalancedTeams.Proofs.Config.Normal
import BalancedTeams.Proofs.Config.Requests
import BalancedTeams.Proofs.Formula.Evaluation
import BalancedTeams.Proofs.Formula.Mentions
import BalancedTeams.Proofs.Mention.Codec
import BalancedTeams.Proofs.Mention.Scanning
import BalancedTeams.Proofs.Model.Assembly
import BalancedTeams.Proofs.Model.Balance
import BalancedTeams.Proofs.Model.Checks
import BalancedTeams.Proofs.Model.Completeness
import BalancedTeams.Proofs.Model.Existence
import BalancedTeams.Proofs.Model.Feasible
import BalancedTeams.Proofs.Model.WellFormed
import BalancedTeams.Proofs.Model.Loaded
import BalancedTeams.Proofs.Model.Partition
import BalancedTeams.Proofs.Model.Placement
import BalancedTeams.Proofs.Model.Soundness
import BalancedTeams.Proofs.Names
import BalancedTeams.Proofs.Relation.Building
import BalancedTeams.Proofs.Relation.Derivation
import BalancedTeams.Proofs.Relation.Layout
import BalancedTeams.Proofs.Relation.Lexing
import BalancedTeams.Proofs.Relation.Meaning
import BalancedTeams.Proofs.Relation.Pieces
import BalancedTeams.Proofs.Relation.Precedence
import BalancedTeams.Proofs.Relation.Validation
import BalancedTeams.Proofs.Relation.Writing
import BalancedTeams.Proofs.Runs
import BalancedTeams.Proofs.Score
import BalancedTeams.Proofs.Solver.Optimality
import BalancedTeams.Proofs.Solver.Running
import BalancedTeams.Proofs.Solver.Search
import BalancedTeams.Proofs.Solver.Translation
import BalancedTeams.Proofs.Tables
import BalancedTeams.Solver.Scripted
import BalancedTeams.Proofs.Config.Faults
import BalancedTeams.Proofs.Relation.Resolving
import BalancedTeams.Proofs.Model.Refusals
import BalancedTeams.Proofs.Relation.Reordering
import BalancedTeams.Proofs.Model.Reordering
import BalancedTeams.Proofs.Relation.Positions
import BalancedTeams.Proofs.Config.Numbering
import BalancedTeams.Proofs.Solver.Protocol
import BalancedTeams.Proofs.Config.Migration
import BalancedTeams.Proofs.Mention.Retention
import BalancedTeams.Proofs.Compile.History
import BalancedTeams.Proofs.Model.Extension
import BalancedTeams.Proofs.Model.Rosters
import BalancedTeams.Proofs.Solver.Models
import BalancedTeams.Proofs.Solver.Partial
import BalancedTeams.Proofs.Compile.Recording
import BalancedTeams.Proofs.Csv
import BalancedTeams.Proofs.Config.Mentionable
import BalancedTeams.Proofs.Formula.Labels
