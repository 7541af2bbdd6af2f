import BalancedTeams.Proofs.Model.Loaded
import BalancedTeams.Proofs.Relation.Resolving

/-!
# Requests without a model

* `Compiler.FailsWith`, `Compiler.assemble_fails` : an assembly can only fail where ids are written the
  same or cannot be written;
* `Request.Keyed`, `Request.HasLabelTexts` : ids that can be looked up, and ids with texts for labels;
* `Request.Buildable` : what a request needs for a model;
* `Request.Fails`, `Request.model_fails` : what the building of a model can end with;
* `Request.exists_model_iff` : the requests that have a model;
* `Request.model_or_fails` : both together;
* `Request.no_model_of_lone` : a label that is missing.
-/

namespace BalancedTeams

/-! ## Computations of the compiler -/

namespace Compiler

variable {P : Fault → Prop} {α β : Type}

/-- Whatever fault a computation ends with, the property holds of it. -/
def FailsWith (P : Fault → Prop) (x : CompileM α) : Prop :=
  ∀ c e c', result x c = (.error e, c') → P e

namespace FailsWith

theorem pure (a : α) : FailsWith P (Pure.pure a : CompileM α) := by
  intro c e c' h
  cases h

theorem bind {x : CompileM α} {f : α → CompileM β} (hx : FailsWith P x) (hf : ∀ a, FailsWith P (f a)) :
    FailsWith P (x >>= f) := by
  intro c e c' h
  rw [result_bind] at h
  cases hr : result x c with
  | mk r d =>
    rw [hr] at h
    cases r with
    | error e' =>
      cases h
      exact hx c _ _ hr
    | ok a => exact hf a d e c' h

theorem lift {x : Except Fault α} (h : BalancedTeams.FailsWith P x) :
    FailsWith P (liftM x : CompileM α) := by
  intro c e c' he
  have hx : result (liftM x : CompileM α) c = (x, c) := rfl
  rw [hx, Prod.mk.injEq] at he
  exact h e he.1

theorem mapM {f : α → CompileM β} {xs : List α} (h : ∀ x ∈ xs, FailsWith P (f x)) :
    FailsWith P (xs.mapM f) := by
  induction xs with
  | nil => exact pure []
  | cons x xs ih =>
    obtain ⟨hx, hrest⟩ := List.forall_mem_cons.1 h
    rw [List.mapM_cons]
    exact hx.bind fun y => (ih hrest).bind fun ys => pure _

theorem forM {f : α → CompileM PUnit} {xs : List α} (h : ∀ x ∈ xs, FailsWith P (f x)) :
    FailsWith P (xs.forM f) := by
  induction xs with
  | nil => exact pure PUnit.unit
  | cons x xs ih =>
    obtain ⟨hx, hrest⟩ := List.forall_mem_cons.1 h
    show FailsWith P (f x >>= fun _ => xs.forM f)
    exact hx.bind fun _ => ih hrest

theorem onBuilder {f : Builder → Except Fault Builder} (h : ∀ b, BalancedTeams.FailsWith P (f b)) :
    FailsWith P (Compiler.onBuilder f) := by
  intro c e c' he
  have hget : result (get : CompileM Compiler) c = (.ok c, c) := rfl
  unfold Compiler.onBuilder at he
  rw [result_bind, hget] at he
  dsimp only at he
  split at he
  · cases he
  · next e' hf =>
    cases he
    exact h c.builder _ hf

theorem declare (h : ∀ f, P (.model f)) (name : Text) : FailsWith P (Compiler.declare name) := by
  refine onBuilder fun b e he => ?_
  cases hb : b.declare name with
  | ok b' =>
    rw [hb] at he
    cases he
  | error f =>
    rw [hb] at he
    cases he
    exact h f

end FailsWith

/-- Memberships cannot be declared where two ids are written the same or one cannot be written. -/
theorem declareMemberships_fails {people : List Person} (teams : Nat)
    (hkeys : ∀ p ∈ people, p.id.key?.isSome = true) :
    FailsWith (fun e => (∃ f, e = .model f) ∨ ∃ p ∈ people, p.id.isWritable = false ∧
      e = .text .tooManyDigits) (declareMemberships people teams) := by
  refine FailsWith.mapM fun p hp => FailsWith.bind (FailsWith.lift ?_) fun text => ?_
  · exact .written (fun hlong => Or.inr ⟨p, hp, hlong, rfl⟩) _
  · refine FailsWith.bind (FailsWith.forM fun t _ => ?_) fun _ => FailsWith.pure _
    refine FailsWith.bind (FailsWith.declare (fun f => Or.inl ⟨f, rfl⟩) _) fun _ => ?_
    obtain ⟨k, hk⟩ := Option.isSome_iff_exists.1 (hkeys p hp)
    refine FailsWith.bind (FailsWith.lift ?_) fun l => ?_
    · exact FailsWith.of_exists_ok ⟨k, key_eq_ok_iff.2 hk⟩
    · intro c e c' he
      cases he

theorem assemble_fails {people : List Person} {teams : Nat} {nodes : List Labelled} (hteams : 0 < teams)
    (hids : DistinctKeys (people.map Person.id)) (hlabels : Labelled.Unambiguous nodes)
    (hpeople : ∀ node ∈ nodes, ∀ id ∈ node.formula.ids, ∃ p ∈ people, p.id.key? = id.key?)
    {e : Fault} {c : Compiler} (h : (assemble people teams nodes).run .empty = (.error e, c)) :
    (∃ f, e = .model f) ∨ ∃ p ∈ people, p.id.isWritable = false ∧ e = .text .tooManyDigits := by
  cases hm : result (declareMemberships people teams) .empty with
  | mk r d =>
    cases r with
    | error e' =>
      replace h : result (assemble people teams nodes) .empty = (.error e, c) := h
      unfold assemble at h
      rw [result_bind, hm] at h
      cases h
      exact declareMemberships_fails teams hids.keyed_map _ _ _ hm
    | ok ids =>
      have hseated := (seated_of_yields_declareMemberships hm).2
      have htexts := nodup_texts_of_seats hteams hseated.nodup
      obtain ⟨vars, c', hrun⟩ := exists_assemble hids (isWritable_of_declareMemberships hm) htexts hlabels
        hpeople
      cases hrun.symm.trans h

end Compiler

/-! ## Requests -/

def Ref.id : Ref → Value
  | .person id => id
  | .tag id => id

theorem Ref.Resolves.exists_key {people : List Person} {tags : List Tag} {policy : EmptyTag} {ref : Ref}
    (h : ref.Resolves people tags policy) : ∃ k, ref.id.key? = some k := by
  cases ref with
  | person id =>
    obtain ⟨⟨k, hk, -⟩, -⟩ := h
    exact ⟨k, hk⟩
  | tag id =>
    obtain ⟨k, hk, -⟩ := h
    exact ⟨k, hk⟩

/-- The ids that a mention puts into a formula: that of the person, or of the people with the tag. -/
def Ref.about (people : List Person) : Ref → List Value
  | .person id => [id]
  | .tag id => (id.key?.map (carriers people)).getD []

/-- The values in an entry that a report can show. -/
def Entry.shown : Entry → List Value
  | .text _ => []
  | .ref r => [r.id]
  | .foreign v => [v]

namespace Request

/-- The values that a report can show. -/
def shown (r : Request) : List Value :=
  r.teamCount :: (r.people.map Person.id ++ r.relations.map Relation.id ++ r.tags.map Tag.name ++
    r.relations.flatMap fun rel => rel.entries.flatMap Entry.shown)

/-- The ids of people, tags, relations and mentions can be looked up. -/
structure Keyed (r : Request) : Prop where
  people : ∀ p ∈ r.people, p.id.key?.isSome = true
  tags : ∀ g ∈ r.tags, g.id.key?.isSome = true
  relations : ∀ rel ∈ r.relations, rel.id.key?.isSome = true
  mentions : ∀ rel ∈ r.relations, ∀ ref, Entry.ref ref ∈ rel.entries → ref.id.key?.isSome = true

/-- The ids that relations are about have texts for labels. -/
def HasLabelTexts (r : Request) : Prop :=
  ∀ rel ∈ r.relations, ∀ ref, Entry.ref ref ∈ rel.entries → ref.HaveLabelTexts r.people

/-- There are as many people as teams at least, ids of people are different and written differently,
relations have different ids, priorities, and tokens that form an expression, the policy is one of the
three, and mentions are of people and tags of the lists, of carried ones if the policy asks for it. -/
structure Buildable (r : Request) : Prop where
  teamCount : ∃ n : Nat, r.teamCount = .int n ∧ 1 ≤ n ∧ n ≤ r.people.length
  people : DistinctKeys (r.people.map Person.id)
  texts : (r.people.map (·.id.plain)).Nodup
  relations : DistinctKeys (r.relations.map Relation.id)
  priorities : ∀ rel ∈ r.relations, ∃ n : Int, rel.priority = .int n ∧ 1 ≤ n
  policy : ∃ policy : EmptyTag, r.emptyTag = policy.name
  tokens : ∀ rel ∈ r.relations, ∃ ts, relationTokens rel.entries = .ok ts
  mentions : ∀ rel ∈ r.relations, ∀ ref, Entry.ref ref ∈ rel.entries → ref.IsKnown r.people r.tags
  carried : r.emptyTag = EmptyTag.error.name → ∀ rel ∈ r.relations, ∀ ref, Entry.ref ref ∈ rel.entries →
    ref.IsCarried r.people

/-- What the building of a model can end with: a report, the fault of a relation that is no expression, or
that there is no text, for a value that cannot be written or an id of a formula that cannot be encoded. -/
inductive Fails (r : Request) : Fault → Prop
  | model (f : ModelFault) : Fails r (.model f)
  | word {rel : Relation} (hrel : rel ∈ r.relations) {f : WordFault}
      (h : relationTokens rel.entries = .error (.word none f)) : Fails r (.word none f)
  | grammar {rel : Relation} (hrel : rel ∈ r.relations) {f : GrammarFault}
      (h : relationTokens rel.entries = .error (.grammar none f)) : Fails r (.grammar none f)
  | digits {w : Value} (hw : w ∈ r.shown) (h : w.isWritable = false) : Fails r (.text .tooManyDigits)
  | half {rel : Relation} (hrel : rel ∈ r.relations) {ref : Ref} (href : Entry.ref ref ∈ rel.entries)
      {id : Value} (hid : id ∈ ref.about r.people) (h : id.plain.chars?.isSome = false) :
      Fails r (.text .loneHalf)

variable {r : Request}

/-! ## Checks -/

theorem written_fails {w : Value} (hw : w ∈ r.shown) (t : Text) :
    FailsWith r.Fails (liftM (w.written t) : Except Fault Text) := .written (.digits hw) t

/-- A report of the model that shows an id. -/
theorem report_fails {α β : Type} {w : Value} (hw : w ∈ r.shown) {f : Text → ModelFault}
    {g : α → Except Fault β} : FailsWith r.Fails
      ((liftM w.text : Except Fault Text) >>= fun t => (throw (.model (f t)) : Except Fault α) >>= g) :=
  (written_fails hw _).bind fun _ _ => .error (.model _)

theorem key_fails {v : Value} (h : v.key?.isSome = true) : FailsWith r.Fails v.key :=
  .key fun hkey => by rw [hkey] at h; cases h

theorem shown_of_mem_people {p : Person} (hp : p ∈ r.people) : p.id ∈ r.shown := by
  have hid := List.mem_map_of_mem (f := Person.id) hp
  simp only [shown, List.mem_cons, List.mem_append, hid, true_or, or_true]

theorem checkTeamCount_fails (people : Nat) : FailsWith r.Fails (checkTeamCount people r.teamCount) := by
  have hshown : r.teamCount ∈ r.shown := List.mem_cons_self
  unfold checkTeamCount
  split
  · next n hn =>
    split
    · exact (written_fails hshown _).bind fun _ _ => .error (.model _)
    · split
      · exact (written_fails hshown _).bind fun _ _ => .error (.model _)
      · exact .ok _
  · exact (written_fails hshown _).bind fun _ _ => .error (.model _)

theorem checkPeople_fails {people : List Person} {seen : List Key}
    (h : ∀ p ∈ people, p.id.key?.isSome = true ∧ p.id ∈ r.shown) :
    FailsWith r.Fails (checkPeople seen people) := by
  induction people generalizing seen with
  | nil => exact .ok _
  | cons p rest ih =>
    obtain ⟨⟨hkey, hshown⟩, hrest⟩ := List.forall_mem_cons.1 h
    unfold checkPeople
    refine (key_fails hkey).bind fun k _ => ?_
    dsimp only
    split
    · exact report_fails hshown
    · exact ih hrest

theorem checkRelations_fails {relations : List Relation} {seen : List Key}
    (h : ∀ rel ∈ relations, rel.id.key?.isSome = true ∧ rel.id ∈ r.shown) :
    FailsWith r.Fails (checkRelations seen relations) := by
  induction relations generalizing seen with
  | nil => exact .ok _
  | cons rel rest ih =>
    obtain ⟨⟨hkey, hshown⟩, hrest⟩ := List.forall_mem_cons.1 h
    unfold checkRelations
    refine (key_fails hkey).bind fun k _ => ?_
    dsimp only
    split
    · exact report_fails hshown
    · split
      · exact report_fails hshown
      · exact ih hrest

theorem check_fails (hkeys : r.Keyed) : FailsWith r.Fails r.check := by
  unfold check
  refine (checkTeamCount_fails _).bind fun n _ => FailsWith.bind (checkPeople_fails ?_) fun _ _ =>
    FailsWith.bind (checkRelations_fails ?_) fun _ _ => .ok _
  · exact fun p hp => ⟨hkeys.people p hp, shown_of_mem_people hp⟩
  · intro rel hrel
    have hid := List.mem_map_of_mem (f := Relation.id) hrel
    exact ⟨hkeys.relations rel hrel,
      by simp only [shown, List.mem_cons, List.mem_append, hid, true_or, or_true]⟩

/-! ## Formulas -/

theorem shown_of_mem_entries {rel : Relation} (hrel : rel ∈ r.relations) {e : Entry} (he : e ∈ rel.entries)
    {w : Value} (hw : w ∈ e.shown) : w ∈ r.shown := by
  have hmem : w ∈ r.relations.flatMap fun rel => rel.entries.flatMap Entry.shown :=
    List.mem_flatMap.2 ⟨rel, hrel, List.mem_flatMap.2 ⟨e, he, hw⟩⟩
  exact List.mem_cons_of_mem _ (List.mem_append_right _ hmem)

/-- Tokens cannot be had for a word or for the grammar, or for a value that cannot be shown. -/
theorem tokens_fails {rel : Relation} (hrel : rel ∈ r.relations) :
    FailsWith r.Fails (relationTokens rel.entries) := by
  intro e he
  rcases relationTokens_fails _ e he with ⟨w, rfl⟩ | ⟨g, rfl⟩ | ⟨v, hv, hlong, rfl⟩
  · exact .word hrel he
  · exact .grammar hrel he
  · exact .digits (shown_of_mem_entries hrel hv (List.mem_singleton_self v)) hlong

theorem personOf_fails {rel : Relation} (hrel : rel ∈ r.relations) {ref : Ref}
    (href : Entry.ref ref ∈ rel.entries) {id : Value} (hid : id ∈ ref.about r.people)
    (hshown : id ∈ r.shown) : FailsWith r.Fails (Context.personOf id) := by
  refine FailsWith.bind (fun e he => ?_) fun _ _ => .ok _
  obtain ⟨f, hf, rfl⟩ := liftText_eq_error_iff.1 he
  rcases Formula.cases_of_idText_eq_error hf with ⟨rfl, hlong⟩ | ⟨rfl, hlone⟩
  · exact .digits hshown hlong
  · exact .half hrel href hid hlone

theorem foldlM_or_fails {ids : List Value} (h : ∀ id ∈ ids, FailsWith r.Fails (Context.personOf id))
    (start : Formula) : FailsWith r.Fails
      (ids.foldlM (fun f id => return .or f (← Context.personOf id)) start : Except Fault Formula) := by
  induction ids generalizing start with
  | nil => exact .ok _
  | cons id ids ih =>
    obtain ⟨hid, hrest⟩ := List.forall_mem_cons.1 h
    rw [List.foldlM_cons]
    exact FailsWith.bind (hid.bind fun p _ => .ok _) fun f _ => ih hrest f

theorem anyOf_fails {policy : EmptyTag} {name : Value} (hname : name ∈ r.shown) {ids : List Value}
    (h : ∀ id ∈ ids, FailsWith r.Fails (Context.personOf id)) :
    FailsWith r.Fails (Context.anyOf policy name ids) := by
  cases ids with
  | nil =>
    cases policy with
    | vacuous => exact .ok _
    | unsatisfiable => exact .ok _
    | error => exact (written_fails hname _).bind fun _ _ => .error (.model _)
  | cons first rest =>
    obtain ⟨hfirst, hrest⟩ := List.forall_mem_cons.1 h
    exact hfirst.bind fun start _ => foldlM_or_fails hrest start

variable {ctx : Context} {policy : EmptyTag}

theorem operand_fails (hkeys : r.Keyed) (h : Context.of? r.people r.tags policy.name = .ok ctx)
    {rel : Relation} (hrel : rel ∈ r.relations) {ref : Ref} (href : Entry.ref ref ∈ rel.entries)
    {t : Token} (ht : t.ref = some ref) : FailsWith r.Fails (ctx.operand t) := by
  have hkey := hkeys.mentions rel hrel ref href
  have hshown := shown_of_mem_entries hrel href (List.mem_singleton_self ref.id)
  obtain ⟨ids, table, hids, htable, rfl⟩ := Context.of?_eq_ok_iff.1 h
  unfold Context.operand
  rw [ht]
  cases ref with
  | person id =>
    refine (key_fails hkey).bind fun k hk => ?_
    dsimp only
    split
    · exact personOf_fails hrel href (List.mem_singleton_self id) hshown
    · exact (written_fails hshown _).bind fun _ _ => .error (.model _)
  | tag id =>
    refine (key_fails hkey).bind fun k hk => ?_
    dsimp only
    split
    · next tag htag =>
      obtain ⟨before, g, after, htags, -, hg, -⟩ := Table.exists_of_find?_of? htable htag
      replace hg : tag = g := hg
      refine anyOf_fails ?_ fun w hw => ?_
      · have hname : tag.name ∈ r.tags.map Tag.name := by
          rw [htags, hg]
          exact List.mem_map_of_mem (List.mem_append_right _ List.mem_cons_self)
        simp only [shown, List.mem_cons, List.mem_append, hname, true_or, or_true]
      · have habout : w ∈ (Ref.tag id).about r.people := by
          have hkey : id.key? = some k := key_eq_ok_iff.1 hk
          rw [Ref.about, hkey]
          exact hw
        obtain ⟨p, hp, -, rfl⟩ := Context.mem_carriers.1 hw
        exact personOf_fails hrel href habout (shown_of_mem_people hp)
    · exact (written_fails hshown _).bind fun _ _ => .error (.model _)

/-- A relation has no formula because of its tokens or because of a mention. -/
theorem relation_fails (hkeys : r.Keyed) (h : Context.of? r.people r.tags policy.name = .ok ctx)
    {rel : Relation} (hrel : rel ∈ r.relations) : FailsWith r.Fails (ctx.relation rel.entries) := by
  refine (tokens_fails hrel).bind fun ts hts e he => ?_
  obtain ⟨hread, hexpr⟩ := relationTokens_eq_ok_iff.1 hts
  obtain ⟨t, ht, hkind, hfault⟩ := Context.fault_of_expr hexpr he
  obtain ⟨ref, htref, href⟩ := Token.exists_ref_of_ofEntries hread ht hkind
  exact operand_fails hkeys h hrel href htref e hfault

theorem formulas_fails (hkeys : r.Keyed) : FailsWith r.Fails r.formulas := by
  unfold formulas
  refine FailsWith.bind (fun e he => ?_) fun ctx hctx => ?_
  · unfold Context.of? at he
    split at he
    · cases he
      exact .model _
    · next policy hpolicy =>
      obtain ⟨ctx, hctx⟩ := Context.exists_of? policy hkeys.people hkeys.tags
      unfold Context.of? at hctx
      rw [EmptyTag.ofName?_name] at hctx
      cases hctx.symm.trans he
  · obtain ⟨policy, hpolicy⟩ := Context.exists_policy hctx
    rw [hpolicy] at hctx
    intro e he
    obtain ⟨rel, hrel, he⟩ := exists_of_mapM_eq_error he
    rcases bind_eq_error_iff.1 he with he | ⟨f, hf, he⟩
    · exact relation_fails hkeys hctx hrel e he
    · obtain ⟨node, hnode⟩ := (Context.evaluable_of_relation hctx hf).1.labelled
      obtain ⟨g, hg, -⟩ := liftText_eq_error_iff.1 he
      cases hnode.symm.trans hg

/-! ## Models -/

theorem known_of_formulas {nodes : List Labelled} (h : r.formulas = .ok nodes) :
    ∀ node ∈ nodes, ∀ id ∈ node.formula.ids, ∃ p ∈ r.people, p.id.key? = id.key? := by
  obtain ⟨ctx, hctx, hall⟩ := formulas_eq_ok_iff.1 h
  obtain ⟨policy, hpolicy⟩ := Context.exists_policy hctx
  rw [hpolicy] at hctx
  intro node hnode
  obtain ⟨rel, -, f, hf, hlabelled⟩ := exists_of_mem_right hall hnode
  rw [Formula.formula_of_labelled hlabelled]
  exact (Context.evaluable_of_relation hctx hf).2

theorem model_fails (hkeys : r.Keyed) (hlabels : r.Unambiguous) : FailsWith r.Fails r.model := by
  unfold model
  refine (check_fails hkeys).bind fun n hcheck => (formulas_fails hkeys).bind fun nodes hnodes => ?_
  obtain ⟨-, hn, hids, -⟩ := check_eq_ok_iff.1 hcheck
  split
  · next e c hrun =>
    refine .error ?_
    rcases Compiler.assemble_fails hn.1 hids (hlabels nodes hnodes) (known_of_formulas hnodes) hrun with
      ⟨f, rfl⟩ | ⟨p, hp, hlong, rfl⟩
    · exact .model f
    · exact .digits (shown_of_mem_people hp) hlong
  · exact .ok _

theorem Buildable.exists_formulas_iff (h : r.Buildable) (hkeys : r.Keyed) :
    (∃ nodes, r.formulas = .ok nodes) ↔ r.HasLabelTexts := by
  rw [Request.exists_formulas_iff]
  constructor
  · rintro ⟨policy, -, -, -, hall⟩ rel hrel ref href
    exact (Ref.resolves_iff.1 ((hall rel hrel).2 ref href)).2.1
  · intro hlabels
    obtain ⟨policy, hpolicy⟩ := h.policy
    refine ⟨policy, hpolicy, hkeys.people, hkeys.tags, fun rel hrel => ⟨h.tokens rel hrel, ?_⟩⟩
    intro ref href
    refine Ref.resolves_iff.2 ⟨h.mentions rel hrel ref href, hlabels rel hrel ref href, ?_⟩
    rintro rfl
    exact h.carried hpolicy rel hrel ref href

theorem buildable_of_model {m : AssignmentModel} (h : r.model = .ok m) : r.Buildable := by
  obtain ⟨nodes, compiled, c₀, ds, c, hbuilt⟩ := exists_built h
  obtain ⟨policy, hpolicy, -, -, hall⟩ := exists_formulas_iff.1 ⟨nodes, hbuilt.formulas⟩
  refine ⟨⟨m.teamCount, hbuilt.count, hbuilt.pos, hbuilt.le⟩, hbuilt.people,
    nodup_texts_of_seats hbuilt.pos hbuilt.assembled.nodup, hbuilt.relations,
    fun rel hrel => isPriority_iff.1 (hbuilt.priorities rel hrel), ⟨policy, hpolicy⟩,
    fun rel hrel => (hall rel hrel).1, fun rel hrel ref href => ?_, fun herror rel hrel ref href => ?_⟩
  · exact (Ref.resolves_iff.1 ((hall rel hrel).2 ref href)).1
  · have heq : EmptyTag.ofName? policy.name = some .error :=
      EmptyTag.ofName?_eq_some_iff.2 (hpolicy.symm.trans herror)
    rw [EmptyTag.ofName?_name] at heq
    exact (Ref.resolves_iff.1 ((hall rel hrel).2 ref href)).2.2 (Option.some.inj heq)

theorem keyed_of_model {m : AssignmentModel} (h : r.model = .ok m) : r.Keyed := by
  obtain ⟨nodes, compiled, c₀, ds, c, hbuilt⟩ := exists_built h
  obtain ⟨policy, -, hpeople, htags, hall⟩ := exists_formulas_iff.1 ⟨nodes, hbuilt.formulas⟩
  refine ⟨hpeople, htags, hbuilt.relations.keyed_map, fun rel hrel ref href => ?_⟩
  obtain ⟨k, hk⟩ := ((hall rel hrel).2 ref href).exists_key
  rw [hk]
  rfl

/-- The requests that have a model. -/
theorem exists_model_iff (hkeys : r.Keyed) (hlabels : r.Unambiguous) : (∃ m, r.model = .ok m) ↔
    r.Buildable ∧ (∀ p ∈ r.people, p.id.isWritable = true) ∧ r.HasLabelTexts := by
  constructor
  · rintro ⟨m, hm⟩
    have hbuildable := buildable_of_model hm
    obtain ⟨n, nodes, vars, c, -, hnodes, hrun, -⟩ := model_eq_ok_iff.1 hm
    exact ⟨hbuildable, Compiler.isWritable_of_assemble hrun,
      (hbuildable.exists_formulas_iff hkeys).1 ⟨nodes, hnodes⟩⟩
  · rintro ⟨hbuildable, hwritable, htexts⟩
    obtain ⟨nodes, hnodes⟩ := (hbuildable.exists_formulas_iff hkeys).2 htexts
    obtain ⟨n, hcount, hn⟩ := hbuildable.teamCount
    have hcheck : r.check = .ok n := check_eq_ok_iff.2 ⟨hcount, hn, hbuildable.people,
      hbuildable.relations, fun rel hrel => isPriority_iff.2 (hbuildable.priorities rel hrel)⟩
    obtain ⟨m, hm, -⟩ := exists_model hcheck hnodes hwritable hbuildable.texts hlabels
      (known_of_formulas hnodes)
    exact ⟨m, hm⟩

/-- **A request has a model exactly if it is buildable**, the ids of its people can be written, and
those that relations are about have texts for labels. If it has none, the reason is a report, a
relation that is no expression, or a value that has no text. -/
theorem model_or_fails (hkeys : r.Keyed) (hlabels : r.Unambiguous) :
    ((∃ m, r.model = .ok m) ↔
      r.Buildable ∧ (∀ p ∈ r.people, p.id.isWritable = true) ∧ r.HasLabelTexts) ∧
    ∀ e, r.model = .error e → r.Fails e :=
  ⟨exists_model_iff hkeys hlabels, model_fails hkeys hlabels⟩

/-- Ids that look like names of variables: one extends the other by a team, and a relation has an
indicator's prefix. -/
def lookalikes : Request where
  people := [⟨.str "a", .str "Ann", [.str "t"]⟩, ⟨.str "a_0", .str "Bob", []⟩]
  tags := [⟨.str "t", .str "Tall"⟩]
  relations := [⟨.str "n_0", [.text "NOT ", .ref (.tag (.str "t"))], .int 3⟩]
  teamCount := .int 2
  emptyTag := "error"

theorem formulas_lookalikes : lookalikes.formulas = .ok [notAnnNode] := by
  refine formulas_eq_ok_iff.2 ⟨⟨lookalikes.people, [.str "a", .str "a_0"],
    ⟨[(.str "t", ⟨.str "t", .str "Tall"⟩)]⟩, .error⟩, rfl, .cons ⟨_, ?_, labelled_notAnn⟩ .nil⟩
  with_unfolding_all rfl

theorem unambiguous_lookalikes : lookalikes.Unambiguous := by
  intro nodes hnodes
  cases formulas_lookalikes.symm.trans hnodes
  decide

theorem keyed_lookalikes : lookalikes.Keyed where
  people := by decide
  tags := by decide
  relations := by decide
  mentions rel hrel ref href := by
    cases List.mem_singleton.1 hrel
    simp only [List.mem_cons, Entry.ref.injEq, reduceCtorEq, List.not_mem_nil, or_false, false_or] at href
    rw [href]
    rfl

theorem model_or_fails_lookalikes : ∃ m, lookalikes.model = .ok m := by
  obtain ⟨policy, hpolicy, -, -, hall⟩ := exists_formulas_iff.1 ⟨_, formulas_lookalikes⟩
  have hmentions := fun rel hrel ref href => Ref.resolves_iff.1 ((hall rel hrel).2 ref href)
  have herror : policy = .error := by
    revert hpolicy
    cases policy <;> decide
  refine (model_or_fails keyed_lookalikes unambiguous_lookalikes).1.2 ⟨?_, by decide, ?_⟩
  · exact {
      teamCount := ⟨2, rfl, by decide⟩
      people := ⟨by decide, by decide⟩
      texts := by decide
      relations := ⟨by decide, by decide⟩
      priorities := fun rel hrel => by
        cases List.mem_singleton.1 hrel
        exact ⟨3, rfl, by decide⟩
      policy := ⟨policy, hpolicy⟩
      tokens := fun rel hrel => (hall rel hrel).1
      mentions := fun rel hrel ref href => (hmentions rel hrel ref href).1
      carried := fun _ rel hrel ref href => (hmentions rel hrel ref href).2.2 herror }
  · exact fun rel hrel ref href => (hmentions rel hrel ref href).2.1

/-- One team of the person whose id is half of a surrogate pair. -/
def lone : Request := { half with teamCount := .int 1 }

theorem mention_lone {rel : Relation} (hrel : rel ∈ lone.relations) {ref : Ref}
    (href : Entry.ref ref ∈ rel.entries) : ref = .person (.str [.half 0]) := by
  cases List.mem_singleton.1 hrel
  exact Entry.ref.inj (List.mem_singleton.1 href)

theorem formulas_lone : lone.formulas = .error (.text .loneHalf) := by
  obtain ⟨ctx, hctx, hrelation⟩ := relation_half .vacuous
  show (Context.of? half.people half.tags EmptyTag.vacuous.name >>= _) = _
  rw [hctx]
  show (ctx.relation _ >>= _) >>= _ = _
  rw [hrelation]
  rfl

theorem keyed_lone : lone.Keyed where
  people := by decide
  tags := by decide
  relations := by decide
  mentions rel hrel ref href := by
    rw [mention_lone hrel href]
    rfl

theorem buildable_lone : lone.Buildable where
  teamCount := ⟨1, rfl, by decide⟩
  people := ⟨by decide, by decide⟩
  texts := by decide
  relations := ⟨by decide, by decide⟩
  priorities rel hrel := by
    cases List.mem_singleton.1 hrel
    exact ⟨1, rfl, by decide⟩
  policy := ⟨.vacuous, rfl⟩
  tokens rel hrel := by
    cases List.mem_singleton.1 hrel
    exact ⟨[⟨.mention, some (.person (.str [.half 0])), 0, 0⟩], by with_unfolding_all rfl⟩
  mentions rel hrel ref href := by
    rw [mention_lone hrel href]
    exact ⟨.str [.half 0], rfl, _, List.mem_cons_self, rfl⟩
  carried := nofun

/-- All that a model needs is there, but a label. -/
theorem no_model_of_lone : lone.Keyed ∧ lone.Unambiguous ∧ lone.Buildable ∧
    lone.model = .error (.text .loneHalf) := by
  refine ⟨keyed_lone, fun nodes hnodes => ?_, buildable_lone, ?_⟩
  · cases formulas_lone.symm.trans hnodes
  · have hcheck : lone.check = .ok 1 := by with_unfolding_all rfl
    unfold model
    rw [hcheck]
    show (lone.formulas >>= _) = _
    rw [formulas_lone]
    rfl

end Request
end BalancedTeams
