import BalancedTeams.Csv
import BalancedTeams.Solver.Outcome
import BalancedTeams.Yaml.Writer

/-!
# Reports of results

* `Report.names` : the names under which people are listed, by id;
* `Result.document`, `Result.yaml` : the teams by name, with the status and the objective, warnings
  and a diagnostic where there are any;
* `Result.csv` : one row for each person with the number of the team, from 1 on.
-/

namespace BalancedTeams

namespace Report

/-- The names of people by id; of several people with one id the last one counts. -/
def names (people : List Person) : Except Fault (Table Value) :=
  Fault.orNoKey (Table.of? Person.id Person.name people)

def nameOr (default : Value) (names : Table Value) (id : Value) : Except Fault Value := do
  let k ← id.key
  return (names.find? k).getD default

end Report

namespace Result

/-! ## YAML -/

def teams (r : Result) : List Roster := (r.solution.map Solution.teams).getD []

/-- A person as the document lists it: by name, or by id where no name is known. -/
def listed (names : Table Value) (id : Value) : Except Fault (Key × Value) := do
  let k ← id.key
  return (k, ← Report.nameOr id names id)

def solutionFields (s : Solution) : Except Fault (List (Scalar × Yaml.Tree)) := do
  return [(.str "status", .scalar (.str s.status)),
    (.str "objective", ← Yaml.Tree.of s.objective)]

def diagnosticFields (d : Diagnostic) : List (Scalar × Yaml.Tree) :=
  [(.str "status", .scalar (.str d.status)), (.str "message", .scalar (.str d.message))]

/-- The fields of the report. A name that is a collection is written where it first stands. -/
def document (r : Result) (people : List Person) : Except Fault (List (Scalar × Yaml.Tree)) := do
  let names ← Report.names people
  let listing ← r.teams.mapM (List.mapM (listed names))
  let rows ← Yaml.Tree.share listing
  let teams := rows.map (Yaml.Tree.list none)
  let warnings := r.warnings.map fun w => Yaml.Tree.scalar (.str w)
  let solved ← match r.solution with
    | some s => solutionFields s
    | none => pure []
  return (.str "teams", .list none teams) :: solved ++
    (if warnings.isEmpty then [] else [(.str "warnings", .list none warnings)]) ++
    (r.diagnostic.map fun d => (.str "diagnostic", .map none (diagnosticFields d))).toList

def yaml (r : Result) (people : List Person) : Except Fault String := do
  return Yaml.render (← r.document people)

/-! ## CSV -/

def header : List Value := [.str "team", .str "person_id", .str "name"]

/-- The row of a person; the name is empty where none is known. -/
def personRow (names : Table Value) (team : Nat) (id : Value) : Except Fault (List Value) := do
  return [.int team, id, ← Report.nameOr (.str "") names id]

def csv (r : Result) (people : List Person) : Except Fault Text := do
  let names ← Report.names people
  let header ← Csv.row header
  let rows ← r.teams.zipIdx.mapM fun t =>
    t.1.mapM fun id => do Csv.row (← personRow names (t.2 + 1) id)
  return header ++ rows.flatten.flatten

end Result
end BalancedTeams
