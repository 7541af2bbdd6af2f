import BalancedTeams.Scalar

/-!
# Values of a document

* `Value` : what a YAML or JSON document holds: a scalar, a list, or a map from scalars;
* `Value.key?` : what a value is looked up by, where ids and names may be any values;
* `Value.text` : a value inside a name or a table; `Value.quoted` : a value inside a message; there
  is neither where the value holds an integer that is too long to be written (`Value.isWritable`);
* `Value.field?`, `Value.setField`, `Value.eraseField` : the fields of a map by a text key.
-/

namespace BalancedTeams

/-- A value of a document. A map keeps the order in which its keys were first given. -/
inductive Value where
  | scalar (s : Scalar)
  | list (items : List Value)
  | map (fields : List (Scalar × Value))
  deriving Repr, Inhabited

namespace Value

@[match_pattern] abbrev null : Value := .scalar .null
@[match_pattern] abbrev bool (b : Bool) : Value := .scalar (.bool b)
@[match_pattern] abbrev int (n : Int) : Value := .scalar (.int n)
@[match_pattern] abbrev float (x : Binary64) : Value := .scalar (.float x)
@[match_pattern] abbrev str (t : Text) : Value := .scalar (.str t)

/-! ## Equality -/

mutual

def decEq : (v w : Value) → Decidable (v = w)
  | .scalar s, .scalar t =>
    if h : s = t then isTrue (h ▸ rfl) else isFalse fun e => h (Value.scalar.inj e)
  | .list vs, .list ws =>
    match decEqItems vs ws with
    | isTrue h => isTrue (h ▸ rfl)
    | isFalse h => isFalse fun e => h (Value.list.inj e)
  | .map fs, .map gs =>
    match decEqFields fs gs with
    | isTrue h => isTrue (h ▸ rfl)
    | isFalse h => isFalse fun e => h (Value.map.inj e)
  | .scalar _, .list _ => isFalse nofun
  | .scalar _, .map _ => isFalse nofun
  | .list _, .scalar _ => isFalse nofun
  | .list _, .map _ => isFalse nofun
  | .map _, .scalar _ => isFalse nofun
  | .map _, .list _ => isFalse nofun

def decEqItems : (vs ws : List Value) → Decidable (vs = ws)
  | [], [] => isTrue rfl
  | [], _ :: _ => isFalse nofun
  | _ :: _, [] => isFalse nofun
  | v :: vs, w :: ws =>
    match decEq v w, decEqItems vs ws with
    | isTrue h, isTrue hs => isTrue (h ▸ hs ▸ rfl)
    | isFalse h, _ => isFalse fun e => h (List.cons.inj e).1
    | _, isFalse hs => isFalse fun e => hs (List.cons.inj e).2

def decEqFields : (fs gs : List (Scalar × Value)) → Decidable (fs = gs)
  | [], [] => isTrue rfl
  | [], _ :: _ => isFalse nofun
  | _ :: _, [] => isFalse nofun
  | (k, v) :: fs, (l, w) :: gs =>
    if hk : k = l then
      match decEq v w, decEqFields fs gs with
      | isTrue h, isTrue hs => isTrue (hk ▸ h ▸ hs ▸ rfl)
      | isFalse h, _ => isFalse fun e => h (Prod.mk.inj (List.cons.inj e).1).2
      | _, isFalse hs => isFalse fun e => hs (List.cons.inj e).2
    else isFalse fun e => hk (Prod.mk.inj (List.cons.inj e).1).1

end

instance : DecidableEq Value := decEq

/-! ## Keys -/

/-- What an id or a name is compared by. Lists and maps cannot be looked up. -/
def key? : Value → Option Key
  | .scalar s => some s.key
  | _ => none

def same (v w : Value) : Bool := v.key?.isSome && v.key? == w.key?

/-! ## Text -/

mutual

def isWritable : Value → Bool
  | .scalar s => s.isWritable
  | .list items => areWritable items
  | .map fields => fieldsWritable fields

def areWritable : List Value → Bool
  | [] => true
  | v :: rest => isWritable v && areWritable rest

def fieldsWritable : List (Scalar × Value) → Bool
  | [] => true
  | (k, v) :: rest => k.isWritable && isWritable v && fieldsWritable rest

end

mutual

/-- The spelling of a value: texts quoted, lists in brackets, maps in braces. -/
def spelling : Value → Text
  | .scalar s => s.spelling
  | .list items => "[" ++ (", " : Text).intercalate (spellings items) ++ "]"
  | .map fields => "\x7b" ++ (", " : Text).intercalate (fieldSpellings fields) ++ "\x7d"

def spellings : List Value → List Text
  | [] => []
  | v :: rest => spelling v :: spellings rest

def fieldSpellings : List (Scalar × Value) → List Text
  | [] => []
  | (k, v) :: rest => (k.spelling ++ ": " ++ spelling v) :: fieldSpellings rest

end

/-- A value as it stands in tables: a text as it is, all else as it is spelled. -/
def plain : Value → Text
  | .scalar s => s.plain
  | v => v.spelling

/-- A text for a value, if the value can be written. -/
def written (v : Value) (t : Text) : Except TextFault Text :=
  if v.isWritable then .ok t else .error .tooManyDigits

/-- A value as messages show it. -/
def quoted (v : Value) : Except TextFault Text := v.written v.spelling

/-- A value as it stands in names. -/
def text (v : Value) : Except TextFault Text := v.written v.plain

/-! ## Numbers -/

def toInt : Value → Except NumberFault Int
  | .scalar s => s.toInt
  | _ => .error .wrongType

def toFloat : Value → Except NumberFault Binary64
  | .scalar s => s.toFloat
  | _ => .error .wrongType

def asScalar : Value → Except NumberFault Scalar
  | .scalar s => .ok s
  | _ => .error .wrongType

/-- Null, false, zero, and what is empty. -/
def isNothing : Value → Bool
  | .scalar s => s.isNothing
  | .list items => items.isEmpty
  | .map fields => fields.isEmpty

def integer? : Value → Option Int
  | .scalar s => s.integer?
  | _ => none

/-! ## Maps -/

def field? (name : Text) (fields : List (Scalar × Value)) : Option Value :=
  (fields.find? fun f => f.1 == .str name).map Prod.snd

def hasField (name : Text) (fields : List (Scalar × Value)) : Bool :=
  fields.any fun f => f.1 == .str name

/-- The fields with a text key set: in place if the key is there, else at the end. -/
def setField (name : Text) (v : Value) : List (Scalar × Value) → List (Scalar × Value)
  | [] => [(.str name, v)]
  | (k, old) :: rest =>
    if k = .str name then (k, v) :: rest else (k, old) :: setField name v rest

def eraseField (name : Text) (fields : List (Scalar × Value)) : List (Scalar × Value) :=
  fields.filter fun f => f.1 != .str name

theorem field?_setField_self (name : Text) (v : Value) (fields : List (Scalar × Value)) :
    field? name (setField name v fields) = some v := by
  induction fields with
  | nil => simp [setField, field?]
  | cons f rest ih =>
    obtain ⟨k, old⟩ := f
    by_cases h : k = .str name
    · simp [setField, field?, h]
    · simp only [setField, if_neg h]
      simpa [field?, List.find?_cons, h] using ih

theorem field?_setField_of_ne {name other : Text} (h : other ≠ name) (v : Value)
    (fields : List (Scalar × Value)) :
    field? other (setField name v fields) = field? other fields := by
  induction fields with
  | nil => simp [setField, field?, Ne.symm h]
  | cons f rest ih =>
    obtain ⟨k, old⟩ := f
    by_cases hk : k = .str name
    · have : (Scalar.str name == Scalar.str other) = false := by simpa using Ne.symm h
      simp [setField, field?, hk, this]
    · simp only [setField, if_neg hk]
      by_cases ho : k = .str other
      · simp [field?, ho]
      · simpa [field?, List.find?_cons, ho] using ih

end Value
end BalancedTeams
