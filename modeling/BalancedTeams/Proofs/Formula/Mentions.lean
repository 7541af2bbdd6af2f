import BalancedTeams.Proofs.Formula.Evaluation
import BalancedTeams.Proofs.Tables

/-!
# What mentions mean

* `Ref.holds` : what a mention says of a set of people;
* `Ref.Resolves` : the mentions that have a formula (`Context.exists_operand_iff`);
* `Formula.Evaluable` : formulas with labels whose ids can all be looked up;
* `Context.exists_operand` : the formula of a mention says what the mention says.
-/

namespace BalancedTeams

/-- What a mention says of the people with these keys: the person is among them; one of those who
carry the tag is, or, if nobody carries it, that a tag without carriers is vacuous. -/
def Ref.holds (people : List Person) (policy : EmptyTag) (members : Key → Bool) : Ref → Bool
  | .person id => id.key?.any members
  | .tag id =>
    let carrying := people.filter fun p => id.key?.any p.tags.contains
    if carrying.isEmpty then decide (policy = .vacuous)
    else carrying.any fun p => p.id.key?.any members

def Value.HasLabelText (id : Value) : Prop := ∃ s, Formula.idText id = .ok s

theorem Value.hasLabelText_iff {id : Value} :
    id.HasLabelText ↔ id.isWritable = true ∧ id.plain.chars?.isSome = true := by
  have hencode : id.plain.chars?.isSome = true ↔ ∃ s, id.plain.encode = .ok s := by
    unfold Text.encode
    cases id.plain.chars? with
    | none => simp
    | some cs => simp
  rw [hencode]
  constructor
  · rintro ⟨s, hs⟩
    obtain ⟨t, ht, hs⟩ := bind_eq_ok_iff.1 hs
    obtain ⟨hwritable, rfl⟩ := text_eq_ok_iff.1 ht
    exact ⟨hwritable, s, hs⟩
  · rintro ⟨hwritable, s, hs⟩
    exact ⟨s, bind_eq_ok_iff.2 ⟨_, text_eq_ok_iff.2 ⟨hwritable, rfl⟩, hs⟩⟩

/-- There is no label text of an id that cannot be written, nor of one whose text cannot be encoded. -/
theorem Formula.cases_of_idText_eq_error {id : Value} {f : TextFault} (h : idText id = .error f) :
    f = .tooManyDigits ∧ id.isWritable = false ∨ f = .loneHalf ∧ id.plain.chars?.isSome = false := by
  rcases bind_eq_error_iff.1 h with h | ⟨t, ht, h⟩
  · exact Or.inl (written_eq_error_iff.1 h)
  · obtain ⟨-, rfl⟩ := text_eq_ok_iff.1 ht
    unfold Text.encode at h
    split at h
    · cases h
    · next hnone =>
      cases h
      exact Or.inr ⟨rfl, by rw [hnone]; rfl⟩

/-- The mention is of a person or of a tag that is known. The ids that get into the formula have texts,
and somebody carries the tag if the policy asks for it. -/
def Ref.Resolves (people : List Person) (tags : List Tag) (policy : EmptyTag) : Ref → Prop
  | .person id => (∃ k, id.key? = some k ∧ ∃ p ∈ people, p.id.key? = some k) ∧ id.HasLabelText
  | .tag id => ∃ k, id.key? = some k ∧ (∃ g ∈ tags, g.id.key? = some k) ∧
      (∀ p ∈ people, k ∈ p.tags → p.id.HasLabelText) ∧
      (policy = .error → ∃ p ∈ people, k ∈ p.tags)

/-! ## Formulas that can be evaluated -/

namespace Formula

/-- There are labels, and all ids have keys. -/
structure Evaluable (f : Formula) : Prop where
  keyed : f.isKeyed = true
  labelled : ∃ node, f.labelled = .ok node

namespace Evaluable
variable {f g : Formula}

theorem person {id : Value} (hk : id.key?.isSome = true) (ht : id.HasLabelText) :
    Evaluable (.person id) := by
  obtain ⟨s, hs⟩ := ht
  exact ⟨hk, _, by rw [Formula.labelled, hs]; rfl⟩

theorem always : Evaluable .always := ⟨rfl, _, rfl⟩

theorem not (h : f.Evaluable) : Evaluable (.not f) := by
  obtain ⟨node, hnode⟩ := h.labelled
  exact ⟨h.keyed, _, by rw [Formula.labelled, hnode]; rfl⟩

theorem and (hf : f.Evaluable) (hg : g.Evaluable) : Evaluable (.and f g) := by
  obtain ⟨node, hnode⟩ := hf.labelled
  obtain ⟨node', hnode'⟩ := hg.labelled
  exact ⟨Bool.and_eq_true_iff.2 ⟨hf.keyed, hg.keyed⟩, _,
    by rw [Formula.labelled, hnode, hnode']; rfl⟩

theorem or (hf : f.Evaluable) (hg : g.Evaluable) : Evaluable (.or f g) := by
  obtain ⟨node, hnode⟩ := hf.labelled
  obtain ⟨node', hnode'⟩ := hg.labelled
  exact ⟨Bool.and_eq_true_iff.2 ⟨hf.keyed, hg.keyed⟩, _,
    by rw [Formula.labelled, hnode, hnode']; rfl⟩

/-- Evaluation gives the truth value of the formula. -/
theorem evaluate_eq (h : f.Evaluable) {node : Labelled} (hnode : f.labelled = .ok node)
    (hlabels : Labelled.Unambiguous [node]) (members : Key → Bool) :
    node.evaluate members = some (f.eval members) := by
  have hformula := formula_of_labelled hnode
  rw [Labelled.evaluate_eq_eval hlabels (by rw [hformula]; exact h.keyed), hformula]

end Evaluable
end Formula

/-! ## Mentions of tags -/

namespace Context

theorem personOf_eq_ok_iff {id : Value} {f : Formula} :
    personOf id = .ok f ↔ id.HasLabelText ∧ f = .person id := by
  rw [personOf, bind_eq_ok_iff]
  constructor
  · rintro ⟨s, hs, h⟩
    cases h
    exact ⟨⟨s, liftText_eq_ok_iff.1 hs⟩, rfl⟩
  · rintro ⟨⟨s, hs⟩, rfl⟩
    exact ⟨s, liftText_eq_ok_iff.2 hs, rfl⟩

theorem foldlM_or_eq_ok_iff {ids : List Value} {f g : Formula} :
    ids.foldlM (fun f id => return .or f (← personOf id)) f = (.ok g : Except Fault Formula) ↔
      (∀ id ∈ ids, id.HasLabelText) ∧ g = ids.foldl (fun f id => .or f (.person id)) f := by
  induction ids generalizing f with
  | nil => simp [pure, Except.pure, eq_comm]
  | cons id ids ih =>
    rw [List.foldlM_cons, bind_eq_ok_iff, List.forall_mem_cons, List.foldl_cons, and_assoc]
    constructor
    · rintro ⟨h, hh, hrest⟩
      obtain ⟨p, hp, hor⟩ := bind_eq_ok_iff.1 hh
      obtain ⟨htext, rfl⟩ := personOf_eq_ok_iff.1 hp
      cases hor
      exact ⟨htext, ih.1 hrest⟩
    · rintro ⟨htext, hrest⟩
      refine ⟨_, ?_, ih.2 hrest⟩
      rw [personOf_eq_ok_iff.2 ⟨htext, rfl⟩]
      rfl

theorem eval_foldl_or {members : Key → Bool} (ids : List Value) (f : Formula) :
    (ids.foldl (fun f id => .or f (.person id)) f).eval members =
      (f.eval members || ids.any fun id => id.key?.any members) := by
  induction ids generalizing f with
  | nil => simp
  | cons id ids ih => rw [List.foldl_cons, ih, List.any_cons, Formula.eval, Formula.eval, Bool.or_assoc]

theorem evaluable_foldl_or {ids : List Value} {f : Formula} (hf : f.Evaluable)
    (h : ∀ id ∈ ids, id.key?.isSome = true ∧ id.HasLabelText) :
    (ids.foldl (fun f id => .or f (.person id)) f).Evaluable := by
  induction ids generalizing f with
  | nil => exact hf
  | cons id ids ih =>
    obtain ⟨hid, hrest⟩ := List.forall_mem_cons.1 h
    exact ih (hf.or (.person hid.1 hid.2)) hrest

theorem anyOf_cons_eq_ok_iff {policy : EmptyTag} {name id : Value} {ids : List Value} {f : Formula} :
    anyOf policy name (id :: ids) = .ok f ↔ (∀ v ∈ id :: ids, v.HasLabelText) ∧
      f = ids.foldl (fun f id => .or f (.person id)) (.person id) := by
  rw [anyOf, bind_eq_ok_iff, List.forall_mem_cons, and_assoc]
  constructor
  · rintro ⟨start, hstart, hrest⟩
    obtain ⟨htext, rfl⟩ := personOf_eq_ok_iff.1 hstart
    exact ⟨htext, foldlM_or_eq_ok_iff.1 hrest⟩
  · rintro ⟨htext, hrest⟩
    exact ⟨_, personOf_eq_ok_iff.2 ⟨htext, rfl⟩, foldlM_or_eq_ok_iff.2 hrest⟩

theorem anyOf_nil_ne_ok_of_error {name : Value} {f : Formula} : anyOf .error name [] ≠ .ok f := by
  intro h
  obtain ⟨s, -, hs⟩ := bind_eq_ok_iff.1 h
  cases hs

theorem exists_anyOf {policy : EmptyTag} (name : Value) {ids : List Value}
    (hids : ∀ id ∈ ids, id.key?.isSome = true ∧ id.HasLabelText)
    (hempty : policy = .error → ids ≠ []) :
    ∃ f, anyOf policy name ids = .ok f ∧ f.Evaluable ∧ ∀ members, f.eval members =
      if ids.isEmpty then decide (policy = .vacuous) else ids.any fun id => id.key?.any members := by
  cases ids with
  | nil =>
    cases policy with
    | vacuous => exact ⟨.always, rfl, .always, fun _ => rfl⟩
    | unsatisfiable => exact ⟨.never, rfl, .not .always, fun _ => rfl⟩
    | error => exact absurd rfl (hempty rfl)
  | cons id ids =>
    obtain ⟨hid, hrest⟩ := List.forall_mem_cons.1 hids
    refine ⟨_, anyOf_cons_eq_ok_iff.2 ⟨fun v hv => (hids v hv).2, rfl⟩,
      evaluable_foldl_or (.person hid.1 hid.2) hrest, fun members => ?_⟩
    rw [eval_foldl_or, Formula.eval, List.isEmpty_cons, if_neg Bool.false_ne_true, List.any_cons]

/-! ## Mentions -/

theorem of?_eq_ok_iff {people : List Person} {tags : List Tag} {policy : EmptyTag} {ctx : Context} :
    of? people tags policy.name = .ok ctx ↔ ∃ ids table, keysOf? (people.map Person.id) = some ids ∧
      Table.of? Tag.id id tags = some table ∧ ctx = ⟨people, ids, table, policy⟩ := by
  simp only [of?, EmptyTag.ofName?_name, bind_eq_ok_iff, orNoKey_eq_ok_iff]
  constructor
  · rintro ⟨ids, hids, table, htable, h⟩
    cases h
    exact ⟨ids, table, hids, htable, rfl⟩
  · rintro ⟨ids, table, hids, htable, rfl⟩
    exact ⟨ids, hids, table, htable, rfl⟩

variable {people : List Person} {tags : List Tag} {policy : EmptyTag} {ctx : Context}

theorem exists_of? (policy : EmptyTag) (hpeople : ∀ p ∈ people, p.id.key?.isSome = true)
    (htags : ∀ g ∈ tags, g.id.key?.isSome = true) :
    ∃ ctx, of? people tags policy.name = .ok ctx := by
  have hids : ∀ id ∈ people.map Person.id, id.key?.isSome = true := by
    intro id hid
    obtain ⟨p, hp, rfl⟩ := List.mem_map.1 hid
    exact hpeople p hp
  obtain ⟨ids, hids⟩ := exists_keysOf? hids
  obtain ⟨table, htable⟩ := Table.exists_of? id htags
  exact ⟨_, of?_eq_ok_iff.2 ⟨ids, table, hids, htable, rfl⟩⟩

theorem key?_isSome_of_mem (h : of? people tags policy.name = .ok ctx) {p : Person} (hp : p ∈ people) :
    p.id.key?.isSome = true := by
  obtain ⟨ids, table, hids, -, -⟩ := of?_eq_ok_iff.1 h
  exact keyed_of_keysOf? hids _ (List.mem_map_of_mem hp)

theorem mem_carriers {id : Value} {k : Key} : id ∈ carriers people k ↔ ∃ p ∈ people, k ∈ p.tags ∧ p.id = id := by
  simp [carriers, and_assoc]

theorem findPerson_eq_ok_iff (h : of? people tags policy.name = .ok ctx) {id : Value} {f : Formula} :
    ctx.findPerson id = .ok f ↔ (Ref.person id).Resolves people tags policy ∧ f = .person id := by
  obtain ⟨ids, table, hids, -, rfl⟩ := of?_eq_ok_iff.1 h
  have hcontains : ∀ k, ids.contains k = true ↔ ∃ p ∈ people, p.id.key? = some k := by
    intro k
    have hmem := congrArg (some k ∈ ·) (keysOf?_eq_some_iff.1 hids)
    simpa [eq_comm] using hmem
  rw [findPerson, bind_eq_ok_iff]
  constructor
  · rintro ⟨k, hk, hf⟩
    dsimp only at hf
    split at hf
    · next hmem =>
      obtain ⟨htext, rfl⟩ := personOf_eq_ok_iff.1 hf
      exact ⟨⟨⟨k, key_eq_ok_iff.1 hk, (hcontains k).1 hmem⟩, htext⟩, rfl⟩
    · obtain ⟨s, -, hs⟩ := bind_eq_ok_iff.1 hf
      cases hs
  · rintro ⟨⟨⟨k, hk, hp⟩, htext⟩, rfl⟩
    refine ⟨k, key_eq_ok_iff.2 hk, ?_⟩
    dsimp only
    rw [if_pos ((hcontains k).2 hp)]
    exact personOf_eq_ok_iff.2 ⟨htext, rfl⟩

theorem expandTag_eq (h : of? people tags policy.name = .ok ctx) {id : Value} {k : Key}
    (hk : id.key? = some k) (hg : ∃ g ∈ tags, g.id.key? = some k) :
    ∃ name, ctx.expandTag id = anyOf policy name (carriers people k) := by
  obtain ⟨ids, table, -, htable, rfl⟩ := of?_eq_ok_iff.1 h
  obtain ⟨g, hg, hgk⟩ := hg
  cases hfind : table.find? k with
  | none => exact absurd hgk ((Table.find?_of?_eq_none htable).1 hfind g hg)
  | some tag =>
    refine ⟨tag.name, ?_⟩
    rw [expandTag, key_eq_ok_iff.2 hk, ok_bind, hfind]

theorem exists_key_of_expandTag (h : of? people tags policy.name = .ok ctx) {id : Value} {f : Formula}
    (hf : ctx.expandTag id = .ok f) :
    ∃ k, id.key? = some k ∧ ∃ g ∈ tags, g.id.key? = some k := by
  obtain ⟨ids, table, -, htable, rfl⟩ := of?_eq_ok_iff.1 h
  obtain ⟨k, hk, hf⟩ := bind_eq_ok_iff.1 hf
  refine ⟨k, key_eq_ok_iff.1 hk, ?_⟩
  dsimp only at hf
  split at hf
  · next tag htag =>
    obtain ⟨before, g, after, rfl, hg, -, -⟩ := Table.exists_of_find?_of? htable htag
    exact ⟨g, List.mem_append_right _ List.mem_cons_self, hg⟩
  · obtain ⟨s, -, hs⟩ := bind_eq_ok_iff.1 hf
    cases hs

def mentioned (ctx : Context) (t : Token) : Formula :=
  match ctx.operand t with
  | .ok f => f
  | .error _ => .always

theorem mentioned_eq {t : Token} {f : Formula} (h : ctx.operand t = .ok f) : ctx.mentioned t = f := by
  unfold mentioned
  rw [h]

/-- A mention that resolves has a formula, which says what the mention says. -/
theorem exists_operand (h : of? people tags policy.name = .ok ctx) {t : Token} {ref : Ref}
    (ht : t.ref = some ref) (hres : ref.Resolves people tags policy) :
    ∃ f, ctx.operand t = .ok f ∧ f.Evaluable ∧
      ∀ members, f.eval members = ref.holds people policy members := by
  cases ref with
  | person id =>
    have ⟨⟨k, hk, _⟩, htext⟩ := hres
    refine ⟨.person id, ?_, .person (by rw [hk]; rfl) htext, fun _ => rfl⟩
    rw [operand, ht]
    exact (findPerson_eq_ok_iff h).2 ⟨hres, rfl⟩
  | tag id =>
    obtain ⟨k, hk, hg, htexts, hempty⟩ := hres
    obtain ⟨name, hexpand⟩ := expandTag_eq h hk hg
    have hids : ∀ v ∈ carriers people k, v.key?.isSome = true ∧ v.HasLabelText := by
      intro v hv
      obtain ⟨p, hp, hcarries, rfl⟩ := mem_carriers.1 hv
      exact ⟨key?_isSome_of_mem h hp, htexts p hp hcarries⟩
    have hsome : policy = .error → carriers people k ≠ [] := by
      intro herror hnil
      obtain ⟨p, hp, hcarries⟩ := hempty herror
      have hmem : p.id ∈ carriers people k := mem_carriers.2 ⟨p, hp, hcarries, rfl⟩
      rw [hnil] at hmem
      cases hmem
    obtain ⟨f, hf, heval, hholds⟩ := exists_anyOf name hids hsome
    refine ⟨f, ?_, heval, fun members => ?_⟩
    · rw [operand, ht]
      exact hexpand.trans hf
    · rw [hholds]
      simp [Ref.holds, carriers, hk]

/-- The mentions that resolve are those with a formula. -/
theorem exists_operand_iff (h : of? people tags policy.name = .ok ctx) {t : Token} {ref : Ref}
    (ht : t.ref = some ref) : (∃ f, ctx.operand t = .ok f) ↔ ref.Resolves people tags policy := by
  refine ⟨?_, fun hres => ?_⟩
  · rintro ⟨f, hf⟩
    rw [operand, ht] at hf
    cases ref with
    | person id => exact ((findPerson_eq_ok_iff h).1 hf).1
    | tag id =>
      obtain ⟨k, hk, hg⟩ := exists_key_of_expandTag h hf
      obtain ⟨name, hexpand⟩ := expandTag_eq h hk hg
      replace hf : anyOf policy name (carriers people k) = .ok f := hexpand.symm.trans hf
      cases hcarriers : carriers people k with
      | nil =>
        have hnobody : ∀ p ∈ people, k ∉ p.tags := by
          intro p hp hmem
          have := mem_carriers.2 ⟨p, hp, hmem, rfl⟩
          rw [hcarriers] at this
          cases this
        refine ⟨k, hk, hg, fun p hp hmem => absurd hmem (hnobody p hp), ?_⟩
        rintro rfl
        rw [hcarriers] at hf
        exact absurd hf anyOf_nil_ne_ok_of_error
      | cons v ids =>
        rw [hcarriers, anyOf_cons_eq_ok_iff, ← hcarriers] at hf
        have hv : v ∈ carriers people k := hcarriers ▸ List.mem_cons_self
        obtain ⟨p, hp, hmem, -⟩ := mem_carriers.1 hv
        exact ⟨k, hk, hg, fun q hq hmem => hf.1 _ (mem_carriers.2 ⟨q, hq, hmem, rfl⟩),
          fun _ => ⟨p, hp, hmem⟩⟩
  · obtain ⟨f, hf, -⟩ := exists_operand h ht hres
    exact ⟨f, hf⟩

end Context
end BalancedTeams
