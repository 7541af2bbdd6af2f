import BalancedTeams.Folder
import BalancedTeams.Relation.Token
import BalancedTeams.Yaml.Node

/-!
# Faults

Every way in which reading, building or solving can fail, by cause; `message` words it. A fault
holds the texts that its message shows, so it can only be made where these can be had.

* `InputFault` : a configuration that cannot be read as a request;
* `WordFault` : relation text with a word that is no operator;
* `GrammarFault` : tokens that form no expression;
* `ModelFault` : a request no model can be built for;
* `SolverFault` : a solver's result that places somebody not exactly once, or no result at all.
-/

namespace BalancedTeams

def numberText (n : Nat) : Text := toString n

inductive InputFault where
  | noPeople
  | duplicateTag (id : Text)
  | duplicatePerson (id : Text)
  | duplicateName (name : Text)
  | relationNotAMap (index : Nat)
  | relationWithoutText (index : Nat)
  | duplicateRelation (id : Text)
  /-- A truth value as a priority. -/
  | truthPriority (index : Nat)
  | badPriority (index : Nat) (given : Text)
  | teamCountNotAnInteger (given : Text)
  deriving DecidableEq, Repr, Inhabited

namespace InputFault

def relation (index : Nat) : Text := "relations[" ++ numberText index ++ "]"

def message : InputFault → Text
  | .noPeople => "Input must include at least one person."
  | .duplicateTag id => "Duplicate tag id " ++ id ++ "."
  | .duplicatePerson id => "Duplicate person id " ++ id ++ "."
  | .duplicateName name =>
    "Duplicate person name " ++ name.quoted ++ "; mentions would be ambiguous."
  | .relationNotAMap i => relation i ++ " must be a mapping with 'text' and 'priority'."
  | .relationWithoutText i => relation i ++ ".text must be a non-empty string."
  | .duplicateRelation id => "Duplicate relation id " ++ id ++ "."
  | .truthPriority i => relation i ++ ".priority must be an integer >= 1."
  | .badPriority i v => relation i ++ ".priority must be an integer >= 1, got " ++ v ++ "."
  | .teamCountNotAnInteger v => "num_teams must be an integer, got " ++ v ++ "."

end InputFault

inductive WordFault where
  | unexpected (word : Text) (entry offset : Nat)
  /-- An entry that is neither text nor a reference. -/
  | foreignEntry (shown : Text) (entry : Nat)
  deriving DecidableEq, Repr, Inhabited

namespace WordFault

def message : WordFault → Text
  | .unexpected word entry offset =>
    "Unexpected word " ++ word.quoted ++ " at entry " ++ numberText entry ++ ", offset " ++
      numberText offset ++ "; only AND, OR, NOT and parentheses may appear between mentions."
  | .foreignEntry shown _ => "Unsupported relation entry: " ++ shown

def entry : WordFault → Nat
  | .unexpected _ entry _ => entry
  | .foreignEntry _ entry => entry

def offset : WordFault → Nat
  | .unexpected _ _ offset => offset
  | .foreignEntry .. => 0

def word : WordFault → Text
  | .unexpected word .. => word
  | .foreignEntry .. => ""

end WordFault

inductive GrammarFault where
  | empty
  /-- `AND` or `OR` without a left side. -/
  | operatorMisplaced (kind : Kind) (index : Nat)
  | notMisplaced (index : Nat)
  | openingMisplaced (index : Nat)
  | unmatchedClosing (index : Nat)
  | closingMisplaced (after : Kind) (index : Nat)
  | mentionMisplaced (index : Nat)
  | unknownKind (name : Text) (index : Nat)
  /-- Parentheses left open after all the tokens. -/
  | unclosed (depth length : Nat)
  /-- An operator without a right side at the end. -/
  | endsWith (kind : Kind) (length : Nat)
  | noTokens
  | malformed (first : Kind)
  | notAMention (kind : Kind)
  deriving DecidableEq, Repr, Inhabited

namespace GrammarFault

def atToken (index : Nat) : Text := " (token " ++ numberText index ++ ")."

def message : GrammarFault → Text
  | .empty => "Relation is empty."
  | .operatorMisplaced kind i => kind.text ++ " must follow a mention or ')'" ++ atToken i
  | .notMisplaced i => "NOT cannot follow a mention or ')'" ++ atToken i
  | .openingMisplaced i => "'(' cannot follow a mention or ')'" ++ atToken i
  | .unmatchedClosing i => "Unmatched ')'" ++ atToken i
  | .closingMisplaced after i => "')' cannot follow " ++ after.text ++ atToken i
  | .mentionMisplaced i => "Mentions must be joined by AND or OR" ++ atToken i
  | .unknownKind name i => "Unknown token kind " ++ name.quoted ++ atToken i
  | .unclosed depth _ => numberText depth ++ " unclosed '(' at end of relation."
  | .endsWith kind _ => "Relation cannot end with " ++ kind.text ++ "."
  | .noTokens => "Cannot build an expression from no tokens."
  | .malformed first => "Malformed expression near token " ++ first.text.quoted ++ "."
  | .notAMention kind => "Expected a mention, found " ++ kind.text ++ "."

def index : GrammarFault → Nat
  | .operatorMisplaced _ i => i
  | .notMisplaced i => i
  | .openingMisplaced i => i
  | .unmatchedClosing i => i
  | .closingMisplaced _ i => i
  | .mentionMisplaced i => i
  | .unknownKind _ i => i
  | .unclosed _ length => length
  | .endsWith _ length => length - 1
  | .empty => 0
  | .noTokens => 0
  | .malformed _ => 0
  | .notAMention _ => 0

end GrammarFault

inductive ModelFault where
  | teamCountNotAnInteger (given : Text)
  | teamCountNotPositive (count : Text)
  | tooManyTeams (count : Text) (people : Nat)
  | duplicatePerson (id : Text)
  | duplicateRelation (id : Text)
  | badPriority (relation : Text)
  | unknownPolicy (name : Text)
  | unknownTag (id : Text)
  | unknownPerson (id : Text)
  | emptyTag (name : Text)
  | duplicateVariable (name : Text)
  | undeclaredVariable (name : Text)
  | unknownOperator (operator : Text)
  /-- Nobody with this id can be placed in this team. -/
  | noMembership (person slot : Text)
  deriving DecidableEq, Repr, Inhabited

def ModelFault.message : ModelFault → Text
  | .teamCountNotAnInteger v => "Team count must be an integer, got " ++ v ++ "."
  | .teamCountNotPositive n => "Team count must be positive, got " ++ n ++ "."
  | .tooManyTeams n people =>
    "Team count " ++ n ++ " exceeds the number of people (" ++ numberText people ++
      "); balanced teams are impossible."
  | .duplicatePerson id => "Duplicate person id " ++ id ++ "."
  | .duplicateRelation id => "Duplicate relation id " ++ id ++ "."
  | .badPriority id => "Relation " ++ id ++ " priority must be an integer >= 1."
  | .unknownPolicy name => "Unknown empty_tag policy: " ++ name
  | .unknownTag id => "Relation references unknown tag id " ++ id ++ "."
  | .unknownPerson id => "Relation references unknown person id " ++ id ++ "."
  | .emptyTag name => "Tag " ++ name ++ " has no members."
  | .duplicateVariable name => "Duplicate variable name: " ++ name
  | .undeclaredVariable name => "Constraint uses undeclared variable " ++ name ++ "."
  | .unknownOperator operator => "Unknown constraint operator " ++ operator.quoted ++ "."
  | .noMembership id slot =>
    "No membership variable for person " ++ id ++ " in team " ++ slot ++ "."

inductive SolverFault where
  /-- A person with a number of teams other than one. -/
  | misplaced (person : Text) (count : Nat)
  /-- No rosters, for this status. -/
  | finished (status : Text)
  deriving DecidableEq, Repr, Inhabited

namespace SolverFault

def message : SolverFault → Text
  | .misplaced id count =>
    "Person " ++ id ++ " is assigned to " ++ numberText count ++
      " teams in the solver result; expected 1."
  | .finished status => "Solver finished with status " ++ status ++ "."

def status : SolverFault → Text
  | .misplaced .. => "solver-error"
  | .finished status => status

end SolverFault

/-- What a solver refuses in a program before it runs. -/
inductive ProgramFault where
  /-- An integer that there is no room for. -/
  | tooWide
  /-- A variable or a constraint whose name cannot be encoded. -/
  | unusableName
  /-- An inequality with the integer at the end of the range that nothing lies beyond. -/
  | unboundedSide
  /-- An equation with an integer at an end of the range. -/
  | extremeValue
  deriving DecidableEq, Repr, Inhabited

/-- The relation a fault was found in: its index and text. -/
structure Place where
  index : Nat
  text : Text
  deriving DecidableEq, Repr, Inhabited

def Place.label (p : Place) : Text := InputFault.relation p.index ++ " " ++ p.text.quoted ++ ": "

inductive Fault where
  | input (f : InputFault)
  | word (place : Option Place) (f : WordFault)
  | grammar (place : Option Place) (f : GrammarFault)
  | model (f : ModelFault)
  | solver (f : SolverFault)
  | number (f : NumberFault)
  | text (f : TextFault)
  | document (f : Yaml.DocumentFault)
  | path (f : PathFault)
  | program (f : ProgramFault)
  /-- A list or a map where an id is looked up. -/
  | noKey
  /-- A variable without a value or not of the model, or a tag that is not listed. -/
  | unknownVariable (name : Text)
  /-- More repetitions of a text or a list than there is memory for. -/
  | noRoom
  /-- A backend that cannot do what is asked of it. -/
  | unsupported
  deriving DecidableEq, Repr, Inhabited

namespace Fault

/-- The faults that a user is told about; the others have no message. -/
def message? : Fault → Option Text
  | .input f => some f.message
  | .word place f => some ((place.map Place.label).getD "" ++ f.message)
  | .grammar place f => some ((place.map Place.label).getD "" ++ f.message)
  | .model f => some f.message
  | .solver f => some f.message
  | _ => none

/-- What is found by keys, or a fault where something without a key is looked up. -/
def orNoKey {α : Type} : Option α → Except Fault α
  | some a => .ok a
  | none => .error .noKey

end Fault

def Value.key (v : Value) : Except Fault Key := Fault.orNoKey v.key?

instance : MonadLift (Except NumberFault) (Except Fault) where
  monadLift
    | .ok a => .ok a
    | .error e => .error (.number e)

instance : MonadLift (Except TextFault) (Except Fault) where
  monadLift
    | .ok a => .ok a
    | .error e => .error (.text e)

instance : MonadLift (Except Yaml.DocumentFault) (Except Fault) where
  monadLift
    | .ok a => .ok a
    | .error e => .error (.document e)

instance : MonadLift (Except PathFault) (Except Fault) where
  monadLift
    | .ok a => .ok a
    | .error e => .error (.path e)

instance : MonadLift (Except ProgramFault) (Except Fault) where
  monadLift
    | .ok a => .ok a
    | .error e => .error (.program e)

end BalancedTeams
