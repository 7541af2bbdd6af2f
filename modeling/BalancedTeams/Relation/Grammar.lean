import BalancedTeams.Relation.Lexer

/-!
# Which tokens form a relation

* `Expr` : the grammar, `E → mention | ( E ) | NOT E | E AND E | E OR E`, on kinds of tokens;
* `Validator.step`, `validate` : one pass from left to right that knows the depth of open
  parentheses and the kind before;
* `relationTokens`, `isValidRelation` : entries read and validated.
-/

namespace BalancedTeams

/-- The lists of kinds that are expressions. -/
inductive Expr : List Kind → Prop
  | mention : Expr [.mention]
  | paren {ks : List Kind} : Expr ks → Expr (.opening :: ks ++ [.closing])
  | not {ks : List Kind} : Expr ks → Expr (.not :: ks)
  | and {ks ls : List Kind} : Expr ks → Expr ls → Expr (ks ++ .and :: ls)
  | or {ks ls : List Kind} : Expr ks → Expr ls → Expr (ks ++ .or :: ls)

namespace Validator

/-- What is known of the tokens read: how many parentheses are open, and the last kind. -/
structure State where
  depth : Nat
  previous : Option Kind
  deriving DecidableEq, Repr

def State.start : State := ⟨0, none⟩

/-- An expression may end after this kind. -/
def endsOperand : Option Kind → Bool
  | some .mention => true
  | some .closing => true
  | _ => false

/-- Reads the token with index `i`. -/
def step (s : State) (i : Nat) (kind : Kind) : Except GrammarFault State :=
  match kind with
  | .and =>
    if endsOperand s.previous then .ok ⟨s.depth, some .and⟩ else .error (.operatorMisplaced .and i)
  | .or =>
    if endsOperand s.previous then .ok ⟨s.depth, some .or⟩ else .error (.operatorMisplaced .or i)
  | .not => if endsOperand s.previous then .error (.notMisplaced i) else .ok ⟨s.depth, some .not⟩
  | .opening =>
    if endsOperand s.previous then .error (.openingMisplaced i)
    else .ok ⟨s.depth + 1, some .opening⟩
  | .closing =>
    match s.depth, s.previous with
    | 0, _ => .error (.unmatchedClosing i)
    | d + 1, some after =>
      if endsOperand (some after) then .ok ⟨d, some .closing⟩
      else .error (.closingMisplaced after i)
    | d + 1, none => .ok ⟨d, some .closing⟩
  | .mention =>
    if endsOperand s.previous then .error (.mentionMisplaced i) else .ok ⟨s.depth, some .mention⟩
  | .other name => .error (.unknownKind name i)

def run (s : State) (i : Nat) : List Kind → Except GrammarFault State
  | [] => .ok s
  | k :: rest => do
    let s ← step s i k
    run s (i + 1) rest

def finish (s : State) (length : Nat) : Except GrammarFault Unit :=
  if s.depth ≠ 0 then .error (.unclosed s.depth length)
  else match s.previous with
    | some .and => .error (.endsWith .and length)
    | some .or => .error (.endsWith .or length)
    | some .not => .error (.endsWith .not length)
    | _ => .ok ()

end Validator

/-- Accepts the lists of kinds that are expressions. -/
def validate (kinds : List Kind) : Except GrammarFault Unit :=
  if kinds.isEmpty then .error .empty
  else do
    let s ← Validator.run .start 0 kinds
    Validator.finish s kinds.length

def relationTokens (entries : List Entry) : Except Fault (List Token) := do
  let tokens ← Token.ofEntries entries
  match validate (tokens.map Token.kind) with
  | .ok () => return tokens
  | .error f => throw (.grammar none f)

def isValidRelation (entries : List Entry) : Except Fault Bool :=
  match relationTokens entries with
  | .ok _ => .ok true
  | .error (.word ..) => .ok false
  | .error (.grammar ..) => .ok false
  | .error f => .error f

end BalancedTeams
