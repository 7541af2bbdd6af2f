import BalancedTeams.CommandLine

/-!
# The program

Reads the arguments and the input file, and does what the command line says.
-/

namespace BalancedTeams

def readSource (path : Text) : IO (Except PathFault String) := do
  match path.encode with
  | .error _ => return .error .missing
  | .ok path =>
    try return .ok (← IO.FS.readFile path)
    catch _ => return .error .missing

/-- A text as it is printed, with escapes for what has no encoding. -/
def Text.printed (t : Text) : String :=
  String.ofList (t.flatMap fun c => (c.char?.map fun d => [d]).getD (codeEscape c.toNat))

/-- What is said of a fault that has no message. -/
def unusableText : String := "The input holds a value that cannot be used."

def writeText (path : Text) (text : Except Fault Text) : IO Unit := do
  match path.encode, text.map Text.encode with
  | .ok path, .ok (.ok content) => IO.FS.writeFile path content
  | _, _ => throw (IO.userError unusableText)

def Exit.perform (e : Exit) : IO UInt32 := do
  for (path, text) in e.written do
    writeText path text
  IO.print e.stdout
  IO.eprint e.stderr.printed
  return e.code.toUInt32

end BalancedTeams

open BalancedTeams in
def main (args : List String) : IO UInt32 := do
  match Options.ofArgs (args.map Text.ofString) with
  | .error .help => IO.print usage; return 0
  | .error .usage => IO.eprint usage; return 2
  | .ok o =>
    match o.run (← readSource o.input) with
    | .ok e => e.perform
    | .error _ => IO.eprintln unusableText; return 1
