import BalancedTeams.Number.Numeral
import BalancedTeams.Value

/-!
# Options of the command line

* `Flag` : the named options and their spellings;
* `Arg.read` : an argument as a value, a flag, or something that cannot be used. Long flags may be
  cut short, as long as they stay unambiguous, and may have their value after an equals sign; the
  short flag may have it right behind. Negative numbers and arguments with spaces are values;
* `Options.ofArgs` : the options that a list of arguments gives.
-/

namespace BalancedTeams

/-- Options that take a value, and the request for help, which takes none. -/
inductive Flag where
  | help
  | output
  | csvOutput
  | timeLimit
  | checkRelation
  deriving DecidableEq, Repr, Inhabited

def Flag.spellings : List (Text × Flag) :=
  [("-h", .help), ("--help", .help), ("-o", .output), ("--output", .output),
   ("--csv-output", .csvOutput), ("--time-limit", .timeLimit),
   ("--check-relation", .checkRelation)]

def Flag.ofText? (t : Text) : Option Flag :=
  (Flag.spellings.find? fun e => e.1 == t).map Prod.snd

/-! ## Arguments -/

inductive Arg where
  | value (t : Text)
  /-- A flag, with its value if that stands in the same argument. -/
  | flag (f : Flag) (inside : Option Text)
  /-- Help, and right behind it a flag that has its value in the next argument. -/
  | helpBefore (f : Flag)
  /-- Help with something behind it that is no flag. -/
  | helpWith (t : Text)
  /-- Two hyphens: only values follow. -/
  | separator
  /-- Like a flag, but none. -/
  | unknown
  /-- The start of several flags. -/
  | ambiguous
  deriving DecidableEq, Repr, Inhabited

namespace Arg

def separatorText : Text := "--"

/-- A hyphen, and digits with at most one point among them that is not the last character. A line
end may follow. -/
def isNegativeNumber (t : Text) : Bool :=
  match t.chars? with
  | some ('-' :: cs) =>
    let isDigit := fun c => (Text.digit? c).isSome
    let isEnd := fun rest => rest == [] || rest == ['\n']
    match cs.dropWhile isDigit with
    | '.' :: fraction => fraction.head?.any isDigit && isEnd (fraction.dropWhile isDigit)
    | rest => cs.head?.any isDigit && isEnd rest
  | _ => false

def extending (start : Text) : List Flag :=
  (Flag.spellings.filter fun e => start.isPrefixOf e.1).map Prod.snd

def hyphen : CodePoint := '-'

/-- What stands right behind a short flag for help: short flags without their hyphens, the last one
with its value if it takes one. -/
def readBehindHelp : Text → Arg
  | [] => .helpWith []
  | c :: rest =>
    match Flag.ofText? [hyphen, c] with
    | some .help => if rest.isEmpty then .flag .help none else readBehindHelp rest
    | some f => if rest.isEmpty then .helpBefore f else .flag .help none
    | none => .helpWith (c :: rest)

def flagWith (short : Bool) (f : Flag) (inside : Option Text) : Arg :=
  match f, inside with
  | .help, some t => if short then readBehindHelp t else .helpWith t
  | f, inside => .flag f inside

/-- An argument that starts with a hyphen and is no flag by itself. -/
def readHyphened (t : Text) : Arg :=
  let (start, inside) := Numeral.cutAt (· == CodePoint.char '=') t
  let exact := if inside.isSome then Flag.ofText? start else none
  let long := separatorText.isPrefixOf t
  let short := Flag.ofText? (t.take 2)
  match exact, long, extending start, short with
  | some f, _, _, _ => flagWith (!long) f inside
  | none, true, [f], _ => flagWith false f inside
  | none, true, _ :: _ :: _, _ => .ambiguous
  | none, false, _, some f => flagWith true f (some (t.drop 2))
  | _, _, _, _ => if isNegativeNumber t || t.contains ' ' then .value t else .unknown

def read (t : Text) : Arg :=
  if t = separatorText then .separator
  else if t = [hyphen] || t.head? != some hyphen then .value t
  else match Flag.ofText? t with
    | some f => .flag f none
    | none => readHyphened t

/-- The arguments in order; after the separator all are values. -/
def readAll : List Text → List Arg
  | [] => []
  | t :: rest =>
    match read t with
    | .separator => .separator :: rest.map .value
    | a => a :: readAll rest

end Arg

/-! ## Options -/

structure Options where
  input : Text := "teams.yml"
  /-- Where the teams go; to the standard output if nothing is given. -/
  output : Option Text := none
  csvOutput : Option Text := none
  /-- A limit in place of that of the input. -/
  timeLimit : Option Value := none
  /-- A relation to check, with no teams to be formed. -/
  relation : Option Value := none
  deriving DecidableEq, Repr, Inhabited

inductive Refusal where
  | help
  | usage
  deriving DecidableEq, Repr, Inhabited

namespace Options

/-- The options with the value of a flag. The separator as a value is dropped, so that the flag has
no value at all, an empty list. -/
def set (o : Options) (value : Text) (f : Flag) : Except Refusal Options :=
  let dropped := value == Arg.separatorText
  let path := if dropped then none else some value
  match f with
  | .help => .error .help
  | .output => .ok { o with output := path }
  | .csvOutput => .ok { o with csvOutput := path }
  | .checkRelation =>
    .ok { o with relation := some (if dropped then .list [] else .str value) }
  | .timeLimit =>
    if dropped then .ok { o with timeLimit := some (.list []) }
    else match Numeral.float? value with
      | some x => .ok { o with timeLimit := some (.float x) }
      | none => .error .usage

structure Intake where
  options : Options := {}
  /-- Whether the input has been named. -/
  named : Bool := false
  /-- Whether there was an argument of no use. -/
  surplus : Bool := false
  deriving DecidableEq, Repr, Inhabited

def Intake.place (t : Intake) (value : Text) : Intake :=
  if t.named then { t with surplus := true }
  else { t with options := { t.options with input := value }, named := true }

def pastSeparator : List Arg → List Arg
  | .separator :: rest => rest
  | args => args

theorem length_pastSeparator (args : List Arg) : (pastSeparator args).length ≤ args.length := by
  unfold pastSeparator
  split
  · exact Nat.le_succ _
  · exact Nat.le_refl _

/-- Takes the arguments in one by one. The separator goes with the value before it or after it;
where the input has been named it is of no use. -/
def take (t : Intake) (args : List Arg) : Except Refusal Options :=
  match args with
  | [] => if t.surplus then .error .usage else .ok t.options
  | .value v :: rest => take (t.place v) (if t.named then rest else pastSeparator rest)
  | .flag .help _ :: _ => .error .help
  | .helpBefore _ :: .value _ :: _ => .error .help
  | .helpBefore _ :: _ => .error .usage
  | .helpWith _ :: _ => .error .usage
  | .flag f (some v) :: rest =>
    match t.options.set v f with
    | .ok o => take { t with options := o } rest
    | .error e => .error e
  | .flag f none :: .value v :: rest =>
    match t.options.set v f with
    | .ok o => take { t with options := o } rest
    | .error e => .error e
  | .flag _ none :: _ => .error .usage
  | .separator :: .value v :: rest => take (t.place v) rest
  | .separator :: rest => take { t with named := true, surplus := t.surplus || t.named } rest
  | .unknown :: rest => take { t with surplus := true } rest
  | .ambiguous :: _ => .error .usage
termination_by args.length
decreasing_by
  · have := length_pastSeparator rest
    split <;> simp only [List.length_cons] <;> omega
  all_goals simp only [List.length_cons]; omega

/-- The options that arguments give. An ambiguous one counts before all others. -/
def ofArgs (args : List Text) : Except Refusal Options :=
  let args := Arg.readAll args
  if args.contains .ambiguous then .error .usage else take {} args

end Options
end BalancedTeams
