import BalancedTeams.Proofs.Formula.Mentions
import BalancedTeams.Proofs.Relation.Derivation
import BalancedTeams.Proofs.Relation.Lexing
import BalancedTeams.Proofs.Score

/-!
# What relations say

* `Derivation.holds` : whether what tokens say holds of a set of people, read with `NOT` before `AND`
  before `OR`;
* `Relation.ReadAs` : the derivation of a relation's tokens;
* `Formula.Says` : what the cached evaluation gives, if no label stands for two formulas;
* `Context.exists_relation`, `Context.exists_combine` : the formulas of a relation and of all
  relations say what the tokens say;
* `relations_say` : the same for evaluation and for scores.
-/

namespace BalancedTeams

variable {people : List Person} {tags : List Tag} {policy : EmptyTag} {ctx : Context}

/-- Whether what the tokens of a derivation say holds of the people with these keys. -/
def Derivation.holds {b : Binding} (people : List Person) (policy : EmptyTag) (d : Derivation b)
    (members : Key → Bool) : Bool :=
  d.truth fun t => t.ref.any fun ref => ref.holds people policy members

/-- The tokens of the relation form an expression, which has this derivation and no other. -/
structure Relation.ReadAs (r : Relation) (d : Derivation .disjunction) : Prop where
  tokens : relationTokens r.entries = .ok d.tokens
  unique : ∀ e : Derivation .disjunction, e.tokens = d.tokens → e = d

/-- The formula evaluates to what is said, provided that none of its labels stands for two formulas. -/
def Formula.Says (f : Formula) (said : (Key → Bool) → Bool) : Prop :=
  ∃ node, f.labelled = .ok node ∧
    (Labelled.Unambiguous [node] → ∀ members, node.evaluate members = some (said members))

theorem Formula.Evaluable.meaning {f : Formula} (h : f.Evaluable) {said : (Key → Bool) → Bool}
    (heval : ∀ members, f.eval members = said members) : f.Says said := by
  obtain ⟨node, hnode⟩ := h.labelled
  refine ⟨node, hnode, fun hlabels members => ?_⟩
  rw [h.evaluate_eq hnode hlabels, heval]

/-! ## Formulas of relations -/

theorem Derivation.evaluable_formula {b : Binding} (d : Derivation b) {mentioned : Token → Formula}
    (h : ∀ t ∈ d.tokens, t.kind = .mention → (mentioned t).Evaluable) :
    (d.formula mentioned).Evaluable :=
  d.formula_induction (P := Formula.Evaluable) .not .and .or h

namespace Context

/-- The formula of a relation says what its tokens say. -/
theorem exists_relation (h : of? people tags policy.name = .ok ctx) {r : Relation} {ts : List Token}
    (hts : relationTokens r.entries = .ok ts)
    (hres : ∀ ref, Entry.ref ref ∈ r.entries → ref.Resolves people tags policy) :
    ∃ d : Derivation .disjunction, r.ReadAs d ∧ ∃ f, ctx.relation r.entries = .ok f ∧ f.Evaluable ∧
      ∀ members, f.eval members = d.holds people policy members := by
  obtain ⟨hread, hexpr⟩ := relationTokens_eq_ok_iff.1 hts
  obtain ⟨d, rfl⟩ := Derivation.exists_of_formExpr hexpr
  have hmention : ∀ t ∈ d.tokens, t.kind = .mention → ∃ f, ctx.operand t = .ok f ∧ f.Evaluable ∧
      ∀ members, f.eval members = t.ref.any fun ref => ref.holds people policy members := by
    intro t ht hkind
    obtain ⟨ref, href, hmem⟩ := Token.exists_ref_of_ofEntries hread ht hkind
    obtain ⟨f, hf, heval, hholds⟩ := exists_operand h href (hres ref hmem)
    refine ⟨f, hf, heval, fun members => ?_⟩
    rw [hholds, href, Option.any_some]
  refine ⟨d, ⟨hts, fun e he => Derivation.tokens_inj he⟩, d.formula ctx.mentioned, ?_, ?_, ?_⟩
  · unfold relation
    rw [hts]
    apply d.build_tokens
    intro t ht hkind
    obtain ⟨f, hf, -⟩ := hmention t ht hkind
    rw [hf, mentioned_eq hf]
  · apply d.evaluable_formula
    intro t ht hkind
    obtain ⟨f, hf, heval, -⟩ := hmention t ht hkind
    rw [mentioned_eq hf]
    exact heval
  · intro members
    apply d.eval_formula
    intro t ht hkind
    obtain ⟨f, hf, -, hholds⟩ := hmention t ht hkind
    rw [mentioned_eq hf, hholds]

/-! ## All relations together -/

theorem eval_conjunction (members : Key → Bool) (fs : List Formula) :
    (conjunction fs).eval members = fs.all fun f => f.eval members := by
  have hfold : ∀ f, (fs.tail.foldl Formula.and f).eval members =
      (f.eval members && fs.tail.all fun g => g.eval members) := by
    intro f
    induction fs.tail generalizing f with
    | nil => simp
    | cons g gs ih => rw [List.foldl_cons, ih, Formula.eval, List.all_cons, Bool.and_assoc]
  cases fs with
  | nil => rfl
  | cons f fs => exact hfold f

theorem evaluable_conjunction {fs : List Formula} (h : ∀ f ∈ fs, f.Evaluable) :
    (conjunction fs).Evaluable := by
  cases fs with
  | nil => exact .always
  | cons f fs =>
    obtain ⟨hf, hrest⟩ := List.forall_mem_cons.1 h
    unfold conjunction
    clear h
    induction fs generalizing f with
    | nil => exact hf
    | cons g gs ih =>
      obtain ⟨hg, hgs⟩ := List.forall_mem_cons.1 hrest
      exact ih _ (hf.and hg) hgs

theorem exists_combine {relations : List Relation} {readings : List (Derivation .disjunction)}
    (h : List.Forall₂ (fun (r : Relation) (d : Derivation .disjunction) =>
      ∃ f, ctx.relation r.entries = .ok f ∧ f.Evaluable ∧
        ∀ members, f.eval members = d.holds people policy members) relations readings) :
    ∃ f, ctx.combine relations = .ok f ∧
      f.Says fun members => readings.all fun d => d.holds people policy members := by
  have hfs : ∃ fs, relations.mapM (fun r => ctx.relation r.entries) = .ok fs ∧
      (∀ f ∈ fs, f.Evaluable) ∧ ∀ members, (fs.all fun f => f.eval members) =
        readings.all fun d => d.holds people policy members := by
    induction h with
    | nil => exact ⟨[], rfl, by simp, fun _ => rfl⟩
    | cons hr _ ih =>
      obtain ⟨f, hf, heval, hmeaning⟩ := hr
      obtain ⟨fs, hfs, hevals, hall⟩ := ih
      refine ⟨f :: fs, mapM_eq_ok_iff.2 (.cons hf (mapM_eq_ok_iff.1 hfs)),
        List.forall_mem_cons.2 ⟨heval, hevals⟩, fun members => ?_⟩
      rw [List.all_cons, List.all_cons, hall, hmeaning]
  obtain ⟨fs, hfs, hevals, hall⟩ := hfs
  refine ⟨conjunction fs, ?_, (evaluable_conjunction hevals).meaning fun members => ?_⟩
  · unfold combine
    rw [hfs]
    rfl
  · rw [eval_conjunction, hall]

end Context

/-! ## Scores -/

/-- A relation adds its priority for every team its tokens are true of. -/
theorem score_eq_sum {relations : List Relation} {readings : List (Derivation .disjunction)}
    {teams : List Roster} (hctx : Context.of? people tags policy.name = .ok ctx)
    (hmeaning : List.Forall₂ (fun (r : Relation) (d : Derivation .disjunction) =>
      ∃ f, ctx.relation r.entries = .ok f ∧ f.Says (d.holds people policy)) relations readings)
    (hpriorities : ∀ r ∈ relations, ∃ n : Int, r.priority = .int n)
    (hteams : ∀ team ∈ teams, ∀ id ∈ team, id.key?.isSome = true)
    (hlabels : ∀ r ∈ relations, ∀ f node, ctx.relation r.entries = .ok f → f.labelled = .ok node →
      Labelled.Unambiguous [node]) :
    score teams relations people tags policy.name = .ok (.int ((relations.zip readings).map fun e =>
      (teams.map fun team => if e.2.holds people policy team.holds then e.1.weight else 0).sum).sum) := by
  have hmeets : List.Forall₂ (Meets ctx teams) relations
      (readings.map fun d => teams.map fun team => d.holds people policy team.holds) := by
    rw [List.forall₂_map_right_iff]
    refine ((List.forall₂_and_left _ _).2 ⟨fun r hr => hr, hmeaning⟩).imp ?_
    intro r d ⟨hr, f, hf, node, hnode, heval⟩
    refine ⟨f, node, hf, hnode, ?_⟩
    rw [List.forall₂_map_right_iff, List.forall₂_same]
    intro team hteam
    rw [Roster.meets_eq_evaluate (hteams team hteam), heval (hlabels r hr f node hf hnode)]
    rfl
  rw [score_eq hctx hpriorities hmeets, weighted_map]

/-- **Relations mean what their tokens say.** Relations whose tokens form expressions and whose
mentions resolve have formulas. Each of them evaluates to the truth of its tokens, all together
evaluate to the truth of all, and a partition is worth the priorities of all pairs of a relation and a
team it is true of. -/
theorem relations_say {relations : List Relation}
    (hpeople : ∀ p ∈ people, p.id.key?.isSome = true) (htags : ∀ g ∈ tags, g.id.key?.isSome = true)
    (htokens : ∀ r ∈ relations, ∃ ts, relationTokens r.entries = .ok ts)
    (hresolve : ∀ r ∈ relations, ∀ ref, Entry.ref ref ∈ r.entries → ref.Resolves people tags policy) :
    ∃ ctx readings, Context.of? people tags policy.name = .ok ctx ∧
      List.Forall₂ Relation.ReadAs relations readings ∧
      List.Forall₂ (fun (r : Relation) (d : Derivation .disjunction) =>
        ∃ f, ctx.relation r.entries = .ok f ∧ f.Says (d.holds people policy)) relations readings ∧
      (∃ f, ctx.combine relations = .ok f ∧
        f.Says fun members => readings.all fun d => d.holds people policy members) ∧
      ∀ teams : List Roster, (∀ team ∈ teams, ∀ id ∈ team, id.key?.isSome = true) →
        (∀ r ∈ relations, ∃ n : Int, r.priority = .int n) →
        (∀ r ∈ relations, ∀ f node, ctx.relation r.entries = .ok f → f.labelled = .ok node →
          Labelled.Unambiguous [node]) →
        score teams relations people tags policy.name =
          .ok (.int ((relations.zip readings).map fun e => (teams.map fun team =>
            if e.2.holds people policy team.holds then e.1.weight else 0).sum).sum) := by
  obtain ⟨ctx, hctx⟩ := Context.exists_of? policy hpeople htags
  have hread : ∀ r ∈ relations, ∃ d : Derivation .disjunction, r.ReadAs d ∧
      ∃ f, ctx.relation r.entries = .ok f ∧ f.Evaluable ∧
        ∀ members, f.eval members = d.holds people policy members := by
    intro r hr
    obtain ⟨ts, hts⟩ := htokens r hr
    exact Context.exists_relation hctx hts (hresolve r hr)
  obtain ⟨readings, hreadings⟩ := exists_forall₂ hread
  have hmeaning : List.Forall₂ (fun (r : Relation) (d : Derivation .disjunction) =>
      ∃ f, ctx.relation r.entries = .ok f ∧ f.Says (d.holds people policy)) relations readings := by
    refine hreadings.imp ?_
    intro r d ⟨_, f, hf, heval, hd⟩
    exact ⟨f, hf, heval.meaning hd⟩
  refine ⟨ctx, readings, hctx, hreadings.imp fun r d h => h.1, hmeaning,
    Context.exists_combine (hreadings.imp fun r d h => h.2), ?_⟩
  intro teams hteams hpriorities hlabels
  exact score_eq_sum hctx hmeaning hpriorities hteams hlabels

/-- `@t and NOT @a`, where nobody carries the tag: the team without the person counts. -/
theorem relations_say_and_not :
    let people : List Person := [⟨.str "a", .str "Ann", []⟩, ⟨.str "b", .str "Bob", []⟩]
    let tags : List Tag := [⟨.str "t", .str "Tall"⟩]
    let r : Relation := ⟨.str "r",
      [.ref (.tag (.str "t")), .text " and NOT ", .ref (.person (.str "a"))], .int 3⟩
    score [[.str "a"], [.str "b"]] [r] people tags EmptyTag.vacuous.name = .ok (.int 3) := by
  intro people tags r
  let t : Token := ⟨.mention, some (.tag (.str "t")), 0, 0⟩
  let a : Token := ⟨.mention, some (.person (.str "a")), 2, 0⟩
  let d : Derivation .disjunction := .only (.and (.mention t rfl) ⟨.and, none, 1, 1⟩ rfl
    (.single (.not ⟨.not, none, 1, 5⟩ rfl (.mention a rfl))))
  have hd : relationTokens r.entries = .ok d.tokens := by decide +kernel
  have hctx : Context.of? people tags EmptyTag.vacuous.name =
      .ok ⟨people, [.str "a", .str "b"], ⟨[(.str "t", ⟨.str "t", .str "Tall"⟩)]⟩, .vacuous⟩ := by
    rfl
  have hresolve : ∀ ref, Entry.ref ref ∈ r.entries → ref.Resolves people tags .vacuous := by
    intro ref href
    simp only [r, List.mem_cons, Entry.ref.injEq, reduceCtorEq, List.not_mem_nil, or_false,
      false_or] at href
    rcases href with rfl | rfl
    · refine ⟨.str "t", rfl, ⟨_, List.mem_cons_self, rfl⟩, ?_, nofun⟩
      intro p hp
      simp only [people, List.mem_cons, List.not_mem_nil, or_false] at hp
      rcases hp with rfl | rfl <;> simp
    · exact ⟨⟨.str "a", rfl, _, List.mem_cons_self, rfl⟩, "a", rfl⟩
  have htokens : ∀ r' ∈ [r], ∃ ts, relationTokens r'.entries = .ok ts := by simp [hd]
  have hpeople : ∀ p ∈ people, p.id.key?.isSome = true := by decide
  have htags : ∀ g ∈ tags, g.id.key?.isSome = true := by decide
  obtain ⟨ctx, readings, hof, hreadings, -, -, hscore⟩ :=
    relations_say hpeople htags htokens (by simpa using hresolve)
  have hlabels : ∀ f node, ctx.relation r.entries = .ok f → f.labelled = .ok node →
      Labelled.Unambiguous [node] := by
    intro f node hf hnode
    have hbuilt : ctx.relation r.entries = .ok (.and .always (.not (.person (.str "a")))) := by
      cases hctx.symm.trans hof
      decide +kernel
    cases hbuilt.symm.trans hf
    cases hnode
    decide +kernel
  have hreadings : readings = [d] := by
    cases hreadings with
    | cons hread hnil =>
      cases hnil
      rw [hread.unique d (Except.ok.inj (hd.symm.trans hread.tokens))]
  have hprio : ∀ r' ∈ [r], ∃ n : Int, r'.priority = .int n := by simp [r]
  rw [hscore _ (by decide) hprio (by simpa using hlabels), hreadings]
  rfl

end BalancedTeams
