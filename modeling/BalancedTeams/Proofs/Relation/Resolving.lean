import BalancedTeams.Proofs.Compile.Success
import BalancedTeams.Proofs.Relation.Meaning

/-!
# Which relations have formulas

* `Ref.IsKnown`, `Ref.IsCarried`, `Ref.HaveLabelTexts` : what a mention needs in order to resolve
  (`Ref.resolves_iff`);
* `Context.exists_relation_iff` : a relation has a formula if its tokens form an expression and its
  mentions resolve;
* `Context.evaluable_of_relation` : that formula can be evaluated, and it is about the people;
* `Request.exists_formulas_iff` : the requests whose relations all have formulas.
-/

namespace BalancedTeams

/-! ## Mentions -/

namespace Ref

def IsKnown (people : List Person) (tags : List Tag) : Ref → Prop
  | .person id => ∃ k, id.key? = some k ∧ ∃ p ∈ people, p.id.key? = some k
  | .tag id => ∃ k, id.key? = some k ∧ ∃ g ∈ tags, g.id.key? = some k

def IsCarried (people : List Person) : Ref → Prop
  | .person _ => True
  | .tag id => ∃ k, id.key? = some k ∧ ∃ p ∈ people, k ∈ p.tags

def HaveLabelTexts (people : List Person) : Ref → Prop
  | .person id => id.HasLabelText
  | .tag id => ∀ k, id.key? = some k → ∀ p ∈ people, k ∈ p.tags → p.id.HasLabelText

variable {people : List Person} {tags : List Tag} {policy : EmptyTag}

theorem resolves_iff {ref : Ref} : ref.Resolves people tags policy ↔
    ref.IsKnown people tags ∧ ref.HaveLabelTexts people ∧ (policy = .error → ref.IsCarried people) := by
  cases ref with
  | person id =>
    constructor
    · exact fun h => ⟨h.1, h.2, fun _ => trivial⟩
    · exact fun h => ⟨h.1, h.2.1⟩
  | tag id =>
    constructor
    · rintro ⟨k, hk, hg, htexts, hcarried⟩
      refine ⟨⟨k, hk, hg⟩, fun l hl => ?_, fun herror => ⟨k, hk, hcarried herror⟩⟩
      cases hk.symm.trans hl
      exact htexts
    · rintro ⟨⟨k, hk, hg⟩, htexts, hcarried⟩
      refine ⟨k, hk, hg, htexts k hk, fun herror => ?_⟩
      obtain ⟨l, hl, hp⟩ := hcarried herror
      cases hk.symm.trans hl
      exact hp

end Ref

theorem EmptyTag.ofName?_eq_some_iff {name : Text} {policy : EmptyTag} :
    ofName? name = some policy ↔ name = policy.name := by
  constructor
  · intro h
    unfold ofName? at h
    split at h
    · next hname => cases h; exact hname
    · split at h
      · next hname => cases h; exact hname
      · split at h
        · next hname => cases h; exact hname
        · cases h
  · rintro rfl
    exact ofName?_name policy

/-! ## Relations -/

namespace Context

theorem exists_policy {people : List Person} {tags : List Tag} {name : Text} {ctx : Context}
    (h : of? people tags name = .ok ctx) : ∃ policy : EmptyTag, name = policy.name := by
  unfold of? at h
  split at h
  · cases h
  · next policy hpolicy => exact ⟨policy, EmptyTag.ofName?_eq_some_iff.1 hpolicy⟩

theorem keyed_tags {people : List Person} {tags : List Tag} {policy : EmptyTag} {ctx : Context}
    (h : of? people tags policy.name = .ok ctx) : ∀ g ∈ tags, g.id.key?.isSome = true := by
  intro g hg
  obtain ⟨ids, table, -, htable, -⟩ := of?_eq_ok_iff.1 h
  obtain ⟨keys, hkeys, -⟩ := Table.of?_eq_some_iff.1 htable
  exact keyed_of_keysOf? hkeys _ (List.mem_map_of_mem hg)

theorem ids_foldl_or (ids : List Value) (f : Formula) :
    (ids.foldl (fun f id => Formula.or f (.person id)) f).ids = f.ids ++ ids := by
  induction ids generalizing f with
  | nil => rw [List.foldl_nil, List.append_nil]
  | cons id ids ih =>
    rw [List.foldl_cons, ih, Formula.ids, Formula.ids, List.append_assoc, List.singleton_append]

variable {people : List Person} {tags : List Tag} {policy : EmptyTag} {ctx : Context}
  (h : of? people tags policy.name = .ok ctx)
include h

/-- A relation has a formula exactly if its tokens form an expression and its mentions resolve. -/
theorem exists_relation_iff {entries : List Entry} : (∃ f, ctx.relation entries = .ok f) ↔
    (∃ ts, relationTokens entries = .ok ts) ∧
      ∀ ref, Entry.ref ref ∈ entries → ref.Resolves people tags policy := by
  constructor
  · rintro ⟨f, hf⟩
    obtain ⟨ts, hts, hbuild⟩ := bind_eq_ok_iff.1 hf
    refine ⟨⟨ts, hts⟩, fun ref href => ?_⟩
    obtain ⟨t, ht, hkind, htref⟩ :=
      Token.exists_of_ref_of_ofEntries (relationTokens_eq_ok_iff.1 hts).1 href
    exact (exists_operand_iff h htref).1 (operand_of_build hbuild ht hkind)
  · rintro ⟨⟨ts, hts⟩, hres⟩
    obtain ⟨d, -, f, hf, -⟩ := exists_relation h (r := ⟨.null, entries, .null⟩) hts hres
    exact ⟨f, hf⟩

theorem known_of_operand {t : Token} {f : Formula} (hf : ctx.operand t = .ok f) :
    ∀ id ∈ f.ids, ∃ p ∈ people, p.id.key? = id.key? := by
  cases ht : t.ref with
  | none =>
    rw [operand, ht] at hf
    cases hf
  | some ref =>
    rw [operand, ht] at hf
    cases ref with
    | person id =>
      obtain ⟨⟨⟨k, hk, p, hp, hpk⟩, -⟩, rfl⟩ := (findPerson_eq_ok_iff h).1 hf
      intro w hw
      rw [List.mem_singleton.1 hw]
      exact ⟨p, hp, hpk.trans hk.symm⟩
    | tag id =>
      obtain ⟨k, hk, hg⟩ := exists_key_of_expandTag h hf
      obtain ⟨name, hexpand⟩ := expandTag_eq h hk hg
      replace hf : anyOf policy name (carriers people k) = .ok f := hexpand.symm.trans hf
      cases hcarriers : carriers people k with
      | nil =>
        rw [hcarriers] at hf
        cases policy with
        | vacuous =>
          cases hf
          intro w hw
          cases hw
        | unsatisfiable =>
          cases hf
          intro w hw
          cases hw
        | error => exact absurd hf anyOf_nil_ne_ok_of_error
      | cons first rest =>
        rw [hcarriers] at hf
        obtain ⟨-, rfl⟩ := anyOf_cons_eq_ok_iff.1 hf
        intro w hw
        rw [ids_foldl_or, Formula.ids, List.singleton_append, ← hcarriers] at hw
        obtain ⟨p, hp, -, rfl⟩ := mem_carriers.1 hw
        exact ⟨p, hp, rfl⟩

/-- The formula of a relation can be evaluated, and it is about the people. -/
theorem evaluable_of_relation {entries : List Entry} {f : Formula} (hf : ctx.relation entries = .ok f) :
    f.Evaluable ∧ ∀ id ∈ f.ids, ∃ p ∈ people, p.id.key? = id.key? := by
  obtain ⟨⟨ts, hts⟩, hres⟩ := (exists_relation_iff h).1 ⟨f, hf⟩
  obtain ⟨hread, hexpr⟩ := relationTokens_eq_ok_iff.1 hts
  obtain ⟨d, rfl⟩ := Derivation.exists_of_formExpr hexpr
  have hoperand : ∀ t ∈ d.tokens, t.kind = .mention →
      ctx.operand t = .ok (ctx.mentioned t) ∧ (ctx.mentioned t).Evaluable := by
    intro t ht hkind
    obtain ⟨ref, href, hmem⟩ := Token.exists_ref_of_ofEntries hread ht hkind
    obtain ⟨g, hg, heval, -⟩ := exists_operand h href (hres ref hmem)
    rw [mentioned_eq hg]
    exact ⟨hg, heval⟩
  have hformula : ctx.relation entries = .ok (d.formula ctx.mentioned) := by
    unfold relation
    rw [hts]
    exact d.build_tokens fun t ht hkind => (hoperand t ht hkind).1
  obtain rfl : f = d.formula ctx.mentioned := Except.ok.inj (hf.symm.trans hformula)
  constructor
  · exact d.evaluable_formula fun t ht hkind => (hoperand t ht hkind).2
  · have hboth : ∀ {f g : Formula}, (∀ id ∈ f.ids, ∃ p ∈ people, p.id.key? = id.key?) →
        (∀ id ∈ g.ids, ∃ p ∈ people, p.id.key? = id.key?) →
        ∀ id ∈ f.ids ++ g.ids, ∃ p ∈ people, p.id.key? = id.key? :=
      fun hf hg id hid => (List.mem_append.1 hid).elim (hf id) (hg id)
    apply d.formula_induction (P := fun f => ∀ id ∈ f.ids, ∃ p ∈ people, p.id.key? = id.key?)
      id hboth hboth
    exact fun t ht hkind => known_of_operand h (hoperand t ht hkind).1

end Context

/-! ## Requests -/

namespace Request
variable {r : Request}

/-- Relations all have formulas exactly if the policy is one of the three, ids can be looked up, the
tokens of each relation form an expression, and all mentions resolve. -/
theorem exists_formulas_iff : (∃ nodes, r.formulas = .ok nodes) ↔ ∃ policy : EmptyTag,
    r.emptyTag = policy.name ∧ (∀ p ∈ r.people, p.id.key?.isSome = true) ∧
    (∀ g ∈ r.tags, g.id.key?.isSome = true) ∧
    ∀ rel ∈ r.relations, (∃ ts, relationTokens rel.entries = .ok ts) ∧
      ∀ ref, Entry.ref ref ∈ rel.entries → ref.Resolves r.people r.tags policy := by
  constructor
  · rintro ⟨nodes, hnodes⟩
    obtain ⟨ctx, hctx, hall⟩ := formulas_eq_ok_iff.1 hnodes
    obtain ⟨policy, hpolicy⟩ := Context.exists_policy hctx
    rw [hpolicy] at hctx
    refine ⟨policy, hpolicy, fun p hp => Context.key?_isSome_of_mem hctx hp, Context.keyed_tags hctx,
      fun rel hrel => ?_⟩
    obtain ⟨node, -, f, hf, -⟩ := exists_of_mem_right hall.flip hrel
    exact (Context.exists_relation_iff hctx).1 ⟨f, hf⟩
  · rintro ⟨policy, hpolicy, hpeople, htags, hrelations⟩
    obtain ⟨ctx, hctx⟩ := Context.exists_of? policy hpeople htags
    have hnodes : ∀ rel ∈ r.relations, ∃ node, ∃ f, ctx.relation rel.entries = .ok f ∧
        f.labelled = .ok node := by
      intro rel hrel
      obtain ⟨f, hf⟩ := (Context.exists_relation_iff hctx).2 (hrelations rel hrel)
      obtain ⟨node, hnode⟩ := (Context.evaluable_of_relation hctx hf).1.labelled
      exact ⟨node, f, hf, hnode⟩
    obtain ⟨nodes, hnodes⟩ := exists_forall₂ hnodes
    exact ⟨nodes, formulas_eq_ok_iff.2 ⟨ctx, hpolicy ▸ hctx, hnodes⟩⟩

end Request
end BalancedTeams
