import BalancedTeams.Config.Load
import BalancedTeams.Folder
import BalancedTeams.Options
import BalancedTeams.Report
import BalancedTeams.Solver.Run
import BalancedTeams.Solver.Standard
import BalancedTeams.Yaml.Reader

/-!
# The command line

* `Exit` : what a run prints and writes, and its exit code;
* `Options.run` : the run with these options on the text of the input file. The code is 2 when
  nothing was tried, 1 when a relation is invalid or no teams were found, and 0 otherwise;
* `Options.runIn` : the run in a folder, and the folder after it;
* `usage` : how arguments are given.
-/

namespace BalancedTeams

/-- The folder with a text put at a path. The path is looked at before the text is made. -/
def Folder.write (f : Folder) (path : Text) (text : Except Fault Text) : Except Fault Folder := do
  let name ← f.place path
  let text ← text
  let content ← text.encode
  return (name.map fun n => f.put n content).getD f

structure Exit where
  code : Nat
  stdout : String := ""
  stderr : Text := ""
  /-- Texts by path, in the order they are made and written. -/
  written : List (Text × Except Fault Text) := []

def usage : String :=
  "usage: team-assigner [-h] [-o OUTPUT] [--csv-output CSV_OUTPUT] [--time-limit TIME_LIMIT]\n" ++
  "                     [--check-relation TEXT] [input]\n"

namespace Exit

def notFound (path : Text) : Exit where
  code := 2
  stderr := "Input file not found: " ++ path ++
    "\nTip: pass a path explicitly (e.g., team-assigner path/to/teams.yml).\n"

def writeTo (e : Exit) (folder : Folder) : Except Fault Folder :=
  e.written.foldlM (fun f w => f.write w.1 w.2) folder

/-- The end for a fault with a message; others are faults of the run itself. -/
def ofFault (code : Nat) (label : Text) (f : Fault) : Except Fault Exit :=
  match f.message? with
  | some m => .ok { code, stderr := label ++ ": " ++ m ++ "\n" }
  | none => .error f

end Exit

/-- Whether a value is a text and a relation over the people and tags of a request. -/
def Request.checkRelation (r : Request) (v : Value) : Except Fault Exit := do
  let names ← Fault.orNoKey (Names.of? r.people r.tags)
  match v with
  | .str text =>
    match relationTokens (Entry.parse names text) with
    | .ok _ => return { code := 0, stdout := "valid\n" }
    | .error f => Exit.ofFault 1 "invalid" f
  | _ => throw (.number .wrongType)

def Request.solve (r : Request) : Except Fault Result :=
  let backend := Backend.ofSolver (fun isSet : Bool => isSet) Solver.standard r.workers
  ((solveRequest backend r none false).run { backend := (), stages := [] }).1

namespace Options

def path? (path : Option Text) : Option Text := path.filter fun t => !t.isEmpty

def missingText (result : Result) : Text :=
  let text (status : Text) : Text := "No assignment found: " ++ status ++ "\n"
  match result.solution, result.diagnostic with
  | some _, _ => []
  | none, some d => text d.status
  | none, none => text Status.solverError

def warningLines (r : Request) : Text := r.warnings.flatMap fun w => "Warning: " ++ w ++ "\n"

/-- What is printed and written for a result. -/
def report (o : Options) (r : Request) (result : Result) : Except Fault Exit := do
  let document ← result.yaml r.people
  return {
    code := if result.solution.isSome then 0 else 1
    stdout := if (path? o.output).isSome then "" else document ++ "\n"
    stderr := warningLines r ++ missingText result
    written := ((path? o.output).map fun p => (p, .ok document)).toList ++
      ((path? o.csvOutput).map fun p => (p, result.csv r.people)).toList }

/-- The warnings come before what is said of a fault. -/
def withWarnings (r : Request) (e : Exit) : Exit := { e with stderr := warningLines r ++ e.stderr }

def formTeams (o : Options) (r : Request) : Except Fault Exit :=
  let r := { r with timeLimit := o.timeLimit.or r.timeLimit }
  match r.solve with
  | .ok result => o.report r result
  | .error (.model f) => (Exit.ofFault 2 "Cannot build model" (.model f)).map (withWarnings r)
  | .error f => .error f

def requestOf (document : String) : Except Fault Request := do
  let v ← Value.ofYaml? document
  Request.load v

def run (o : Options) (source : Except PathFault String) : Except Fault Exit :=
  match source with
  | .error .missing => .ok (Exit.notFound o.input)
  | .error f => .error (.path f)
  | .ok document =>
    match requestOf document with
    | .error f => Exit.ofFault 2 "Invalid input" f
    | .ok r =>
      match o.relation with
      | some v => r.checkRelation v
      | none => o.formTeams r

def runIn (o : Options) (folder : Folder) : Except Fault (Exit × Folder) := do
  let e ← o.run (folder.read o.input)
  let folder ← e.writeTo folder
  return (e, folder)

end Options
end BalancedTeams
