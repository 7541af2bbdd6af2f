import BalancedTeams.Proofs.Relation.Resolving
import Mathlib.Data.List.Perm.Basic

/-!
# What relations say in another order

* `Ref.holds_eq_of_perm`, `Derivation.holds_eq_of_perm` : mentions, and all that is made of them, say
  the same whatever the order of the people;
* `Ref.IsKnown.of_perm` and its like : a mention resolves in every order;
* `Regrouped` : the same teams in another order, with their members in another order;
* `Context.meets_iff` : the truths of a relation on teams;
* `Context.exists_meets_of_perm` : they are the same ones in every order.
-/

namespace BalancedTeams

variable {people people' : List Person} {tags tags' : List Tag} {policy : EmptyTag}

/-! ## Mentions -/

namespace Ref
variable {ref : Ref}

theorem holds_eq_of_perm (h : people.Perm people') (policy : EmptyTag) (members : Key → Bool)
    (ref : Ref) : ref.holds people policy members = ref.holds people' policy members := by
  cases ref with
  | person id => rfl
  | tag id =>
    have hcarrying := h.filter fun p => id.key?.any p.tags.contains
    dsimp only [holds]
    rw [hcarrying.isEmpty_eq, hcarrying.any_eq]

theorem IsKnown.of_perm (h : ref.IsKnown people tags) (hpeople : people.Perm people')
    (htags : tags.Perm tags') : ref.IsKnown people' tags' := by
  cases ref with
  | person id =>
    obtain ⟨k, hk, p, hp, hpk⟩ := h
    exact ⟨k, hk, p, hpeople.subset hp, hpk⟩
  | tag id =>
    obtain ⟨k, hk, g, hg, hgk⟩ := h
    exact ⟨k, hk, g, htags.subset hg, hgk⟩

theorem IsCarried.of_perm (h : ref.IsCarried people) (hpeople : people.Perm people') :
    ref.IsCarried people' := by
  cases ref with
  | person id => trivial
  | tag id =>
    obtain ⟨k, hk, p, hp, hcarries⟩ := h
    exact ⟨k, hk, p, hpeople.subset hp, hcarries⟩

theorem HaveLabelTexts.of_perm (h : ref.HaveLabelTexts people) (hpeople : people.Perm people') :
    ref.HaveLabelTexts people' := by
  cases ref with
  | person id => exact h
  | tag id => exact fun k hk p hp => h k hk p (hpeople.symm.subset hp)

theorem Resolves.of_perm (h : ref.Resolves people tags policy) (hpeople : people.Perm people')
    (htags : tags.Perm tags') : ref.Resolves people' tags' policy := by
  obtain ⟨hknown, htexts, hcarried⟩ := resolves_iff.1 h
  exact resolves_iff.2 ⟨hknown.of_perm hpeople htags, htexts.of_perm hpeople,
    fun herror => (hcarried herror).of_perm hpeople⟩

end Ref

theorem Derivation.holds_eq_of_perm (h : people.Perm people') (policy : EmptyTag) {b : Binding}
    (d : Derivation b) (members : Key → Bool) :
    d.holds people policy members = d.holds people' policy members := by
  unfold holds
  simp only [Ref.holds_eq_of_perm h]

/-! ## Teams -/

theorem Roster.holds_eq_of_perm {team team' : Roster} (h : team.Perm team') : team.holds = team'.holds :=
  funext fun _ => h.any_eq

theorem Roster.keyed_of_meets {team : Roster} {node : Labelled} {b : Bool} (h : team.meets node = .ok b) :
    ∀ id ∈ team, id.key?.isSome = true := by
  obtain ⟨keys, hkeys, -⟩ := bind_eq_ok_iff.1 h
  exact keyed_of_keysOf? (orNoKey_eq_ok_iff.1 hkeys)

theorem Roster.meets_eq_eval {team : Roster} {node : Labelled}
    (hteam : ∀ id ∈ team, id.key?.isSome = true) (hlabels : Labelled.Unambiguous [node])
    (hkeyed : node.formula.isKeyed = true) : team.meets node = .ok (node.formula.eval team.holds) := by
  rw [meets_eq_evaluate hteam, Labelled.evaluate_eq_eval hlabels hkeyed]
  rfl

/-- The same teams in another order, the members of each of them in another order. -/
def Regrouped (teams teams' : List Roster) : Prop :=
  ∃ order, teams.Perm order ∧ List.Forall₂ List.Perm order teams'

namespace Regrouped
variable {teams teams' : List Roster}

theorem refl (teams : List Roster) : Regrouped teams teams :=
  ⟨teams, .refl teams, List.forall₂_same.2 fun team _ => .refl team⟩

theorem map_perm {α : Type} {f g : Roster → α} (h : Regrouped teams teams')
    (hfg : ∀ team team' : Roster, team.Perm team' → f team = g team') :
    (teams.map f).Perm (teams'.map g) := by
  obtain ⟨order, hperm, hmembers⟩ := h
  have hmap : order.map f = teams'.map g := by
    clear hperm
    induction hmembers with
    | nil => rfl
    | cons hteam _ ih => rw [List.map_cons, List.map_cons, hfg _ _ hteam, ih]
  exact hmap ▸ hperm.map f

theorem forall_mem {P : Value → Prop} (h : Regrouped teams teams')
    (hP : ∀ team ∈ teams, ∀ id ∈ team, P id) :
    ∀ team ∈ teams', ∀ id ∈ team, P id := by
  obtain ⟨order, hperm, hmembers⟩ := h
  intro team' hteam' id hid
  obtain ⟨team, hteam, hsame⟩ := exists_of_mem_right hmembers hteam'
  exact hP team (hperm.symm.subset hteam) id (hsame.symm.subset hid)

end Regrouped

/-! ## Truths -/

namespace Context

/-- The truths of a relation on teams: what its tokens say of their members. -/
theorem meets_iff {ctx : Context} (h : of? people tags policy.name = .ok ctx) {teams : List Roster}
    {r : Relation} {truths : List Bool}
    (hlabels : ∀ f node, ctx.relation r.entries = .ok f → f.labelled = .ok node →
      Labelled.Unambiguous [node]) :
    Meets ctx teams r truths ↔ (∀ team ∈ teams, ∀ id ∈ team, id.key?.isSome = true) ∧
      (∀ ref, Entry.ref ref ∈ r.entries → ref.Resolves people tags policy) ∧
      ∃ d, r.ReadAs d ∧ truths = teams.map fun team => d.holds people policy team.holds := by
  have htruths : ∀ {d : Derivation .disjunction} {f : Formula} {node : Labelled},
      ctx.relation r.entries = .ok f → f.labelled = .ok node → f.Evaluable →
      (∀ members, f.eval members = d.holds people policy members) →
      (∀ team ∈ teams, ∀ id ∈ team, id.key?.isSome = true) →
      ∀ team ∈ teams, Roster.meets team node = .ok (d.holds people policy team.holds) := by
    intro d f node hf hnode heval hholds hkeyed team hteam
    have hformula := Formula.formula_of_labelled hnode
    rw [Roster.meets_eq_eval (hkeyed team hteam) (hlabels f node hf hnode) (hformula ▸ heval.keyed),
      hformula, hholds]
  constructor
  · rintro ⟨f, node, hf, hnode, hall⟩
    obtain ⟨⟨ts, hts⟩, hres⟩ := (exists_relation_iff h).1 ⟨f, hf⟩
    obtain ⟨d, hd, g, hg, heval, hholds⟩ := exists_relation h hts hres
    obtain rfl : f = g := Except.ok.inj (hf.symm.trans hg)
    have hkeyed : ∀ team ∈ teams, ∀ id ∈ team, id.key?.isSome = true := by
      intro team hteam
      obtain ⟨b, -, hb⟩ := exists_of_mem_right hall.flip hteam
      exact Roster.keyed_of_meets hb
    refine ⟨hkeyed, hres, d, hd, ?_⟩
    have hmap := mapM_eq_ok (htruths hf hnode heval hholds hkeyed)
    exact Except.ok.inj ((mapM_eq_ok_iff.2 hall).symm.trans hmap)
  · rintro ⟨hkeyed, hres, d, hd, rfl⟩
    obtain ⟨e, he, f, hf, heval, hholds⟩ := exists_relation h hd.tokens hres
    obtain ⟨node, hnode⟩ := heval.labelled
    obtain rfl : d = e := he.unique d (Except.ok.inj (hd.tokens.symm.trans he.tokens))
    refine ⟨f, node, hf, hnode, ?_⟩
    rw [List.forall₂_map_right_iff, List.forall₂_same]
    exact htruths hf hnode heval hholds hkeyed

/-- The truths of a relation on teams are the same in every order of people, tags and teams. -/
theorem exists_meets_of_perm {ctx ctx' : Context} (h : of? people tags policy.name = .ok ctx)
    (h' : of? people' tags' policy.name = .ok ctx') (hpeople : people.Perm people')
    (htags : tags.Perm tags') {teams teams' : List Roster} (hteams : Regrouped teams teams')
    {r : Relation} (hlabels : ∀ f node, ctx.relation r.entries = .ok f → f.labelled = .ok node →
      Labelled.Unambiguous [node])
    (hlabels' : ∀ f node, ctx'.relation r.entries = .ok f → f.labelled = .ok node →
      Labelled.Unambiguous [node]) {truths : List Bool} (hmeets : Meets ctx teams r truths) :
    ∃ truths', truths.Perm truths' ∧ Meets ctx' teams' r truths' := by
  obtain ⟨hkeyed, hres, d, hd, rfl⟩ := (meets_iff h hlabels).1 hmeets
  refine ⟨_, hteams.map_perm fun team team' hsame => ?_, (meets_iff h' hlabels').2
    ⟨hteams.forall_mem hkeyed, fun ref href => (hres ref href).of_perm hpeople htags, d, hd, rfl⟩⟩
  rw [Roster.holds_eq_of_perm hsame, Derivation.holds_eq_of_perm hpeople]

end Context
end BalancedTeams
