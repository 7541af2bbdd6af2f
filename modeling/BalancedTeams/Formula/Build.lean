import BalancedTeams.Formula.Basic
import BalancedTeams.Relation.Grammar

/-!
# From tokens to formulas

* `Context` : the people and tags that references are resolved against (`Context.of?`);
* `Context.expandTag`, `Context.operand` : the formula of a mention;
* `Context.build` : the formula of a token list. It splits at every `OR` outside parentheses, else
  at every `AND`, and a chain nests to the right; `NOT` and a pair of parentheses around the whole
  come last;
* `Context.relation`, `Context.combine` : the formula of a relation, and of all relations together.
-/

namespace BalancedTeams

structure Context where
  people : List Person
  /-- The keys of the people's ids. -/
  ids : List Key
  /-- The tags by their ids. -/
  tags : Table Tag
  policy : EmptyTag

/-! ## Splitting -/

namespace Token

/-- The depth of open parentheses after a token; it may be negative. -/
def depthAfter (depth : Int) (t : Token) : Int :=
  if t.kind = .opening then depth + 1 else if t.kind = .closing then depth - 1 else depth

/-- The pieces between the tokens of kind `op` that are at depth 0. -/
def pieces (op : Kind) (depth : Int) : List Token → List (List Token)
  | [] => [[]]
  | t :: rest =>
    let more := pieces op (depthAfter depth t) rest
    if t.kind = op ∧ depth = 0 then [] :: more
    else match more with
      | p :: ps => (t :: p) :: ps
      | [] => [[t]]

/-- The operator that binds loosest outside parentheses, and the pieces between its tokens. -/
def chain? (tokens : List Token) : Option (Kind × List (List Token)) :=
  let ors := pieces .or 0 tokens
  if 1 < ors.length then some (.or, ors)
  else
    let ands := pieces .and 0 tokens
    if 1 < ands.length then some (.and, ands) else none

/-- Whether parentheses that are open to the depth `depth` stay open over the tokens. -/
def staysOpen (depth : Int) : List Token → Bool
  | [] => true
  | t :: rest =>
    let d := depthAfter depth t
    if t.kind = .closing ∧ d = 0 then false else staysOpen d rest

/-- The tokens inside a pair of parentheses around the whole. -/
def unwrap? : List Token → Option (List Token)
  | [] => none
  | first :: rest =>
    match rest.getLast? with
    | none => none
    | some last =>
      if first.kind = .opening ∧ last.kind = .closing ∧ staysOpen 1 rest.dropLast = true then
        some rest.dropLast
      else none

def totalLength : List (List Token) → Nat
  | [] => 0
  | p :: ps => p.length + totalLength ps

theorem length_pieces (op : Kind) (depth : Int) (tokens : List Token) :
    totalLength (pieces op depth tokens) + (pieces op depth tokens).length =
      tokens.length + 1 := by
  induction tokens generalizing depth with
  | nil => rfl
  | cons t rest ih =>
    have h := ih (depthAfter depth t)
    simp only [pieces]
    split
    · simp only [totalLength, List.length_nil, List.length_cons]
      omega
    · split
      · next p ps hp =>
        simp only [hp, totalLength, List.length_cons] at h ⊢
        omega
      · next hp =>
        simp only [hp, totalLength, List.length_nil] at h
        omega

theorem length_le_totalLength_of_mem {piece : List Token} {ps : List (List Token)}
    (h : piece ∈ ps) : piece.length ≤ totalLength ps := by
  induction ps with
  | nil => cases h
  | cons p rest ih =>
    simp only [totalLength]
    rcases List.mem_cons.1 h with rfl | h
    · exact Nat.le_add_right _ _
    · exact Nat.le_trans (ih h) (Nat.le_add_left _ _)

theorem length_lt_of_mem_chain? {tokens piece : List Token} {op : Kind}
    {ps : List (List Token)} (h : chain? tokens = some (op, ps)) (hp : piece ∈ ps) :
    piece.length < tokens.length := by
  have key : ∀ k : Kind, 1 < (pieces k 0 tokens).length → piece ∈ pieces k 0 tokens →
      piece.length < tokens.length := by
    intro k hk hm
    have hsum := length_pieces k 0 tokens
    have hle := length_le_totalLength_of_mem hm
    omega
  unfold chain? at h
  simp only at h
  split at h
  · next hk => cases h; exact key _ hk hp
  · split at h
    · next hk => cases h; exact key _ hk hp
    · cases h

theorem length_lt_of_unwrap? {tokens inner : List Token} (h : unwrap? tokens = some inner) :
    inner.length < tokens.length := by
  cases tokens with
  | nil => simp [unwrap?] at h
  | cons first rest =>
    simp only [unwrap?] at h
    split at h
    · cases h
    · split at h
      · cases h
        simp only [List.length_dropLast, List.length_cons]
        omega
      · cases h

end Token

/-! ## Building -/

namespace Context

/-- A context with the policy of this name; the ids of all people and tags need keys. -/
def of? (people : List Person) (tags : List Tag) (policy : Text) : Except Fault Context :=
  match EmptyTag.ofName? policy with
  | none => .error (.model (.unknownPolicy policy))
  | some policy => do
    let ids ← Fault.orNoKey (keysOf? (people.map Person.id))
    let tags ← Fault.orNoKey (Table.of? Tag.id id tags)
    return { people, ids, tags, policy }

/-- The ids of the people that carry a tag, whose id is looked up once for each of them. -/
def members (ctx : Context) (tag : Value) : Except Fault (List Value) :=
  if ctx.people.isEmpty then .ok []
  else do
    let k ← tag.key
    return carriers ctx.people k

/-- The formula of a person, whose id has to have a label. -/
def personOf (id : Value) : Except Fault Formula := do
  let _ ← Formula.idText id
  return .person id

/-- At least one of the people, nested to the left; what the policy says when there is none. -/
def anyOf (policy : EmptyTag) (name : Value) : List Value → Except Fault Formula
  | [] =>
    match policy with
    | .vacuous => return .always
    | .unsatisfiable => return .never
    | .error => do
      let shown ← name.quoted
      throw (.model (.emptyTag shown))
  | first :: rest => do
    let start ← personOf first
    rest.foldlM (fun f id => return .or f (← personOf id)) start

def expandTag (ctx : Context) (id : Value) : Except Fault Formula := do
  let k ← id.key
  match ctx.tags.find? k with
  | some tag => anyOf ctx.policy tag.name (carriers ctx.people k)
  | none =>
    let shown ← id.text
    throw (.model (.unknownTag shown))

def findPerson (ctx : Context) (id : Value) : Except Fault Formula := do
  let k ← id.key
  if ctx.ids.contains k then personOf id
  else
    let shown ← id.text
    throw (.model (.unknownPerson shown))

def operand (ctx : Context) (t : Token) : Except Fault Formula :=
  match t.ref with
  | some (.person id) => ctx.findPerson id
  | some (.tag id) => ctx.expandTag id
  | none => .error (.grammar none (.notAMention t.kind))

/-- Two formulas under the operator of a chain. -/
def join (op : Kind) (left right : Formula) : Formula :=
  if op = .or then .or left right else .and left right

/-- Formulas given from the last to the first, nested to the right. -/
def joinAll (op : Kind) : List Formula → Except Fault Formula
  | [] => .error (.grammar none .noTokens)
  | last :: before => .ok (before.foldl (fun right left => join op left right) last)

/-- The formula of a token list; the pieces of a chain are built from the last to the first. -/
def build (ctx : Context) (tokens : List Token) : Except Fault Formula :=
  match tokens with
  | [] => .error (.grammar none .noTokens)
  | first :: rest =>
    match _hc : Token.chain? (first :: rest) with
    | some (op, ps) => do
      let fs ← ps.reverse.attach.mapM fun p => build ctx p.1
      joinAll op fs
    | none =>
      if first.kind = .not then do
        let f ← build ctx rest
        return .not f
      else
        match _hu : Token.unwrap? (first :: rest) with
        | some inner => build ctx inner
        | none =>
          if rest.isEmpty ∧ first.kind = .mention then ctx.operand first
          else .error (.grammar none (.malformed first.kind))
termination_by tokens.length
decreasing_by
  · exact Token.length_lt_of_mem_chain? _hc (List.mem_reverse.1 p.2)
  · exact Nat.lt_succ_self _
  · exact Token.length_lt_of_unwrap? _hu

def relation (ctx : Context) (entries : List Entry) : Except Fault Formula := do
  let tokens ← relationTokens entries
  ctx.build tokens

/-- All formulas together, nested to the left; none at all is `always`. -/
def conjunction : List Formula → Formula
  | [] => .always
  | first :: rest => rest.foldl .and first

def combine (ctx : Context) (relations : List Relation) : Except Fault Formula := do
  let fs ← relations.mapM fun r => ctx.relation r.entries
  return conjunction fs

end Context
end BalancedTeams
