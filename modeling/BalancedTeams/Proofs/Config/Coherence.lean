import BalancedTeams.Proofs.Config.Normal
import BalancedTeams.Proofs.Mention.Codec
import BalancedTeams.Proofs.Relation.Meaning

/-!
# Relations over people and tags that belong together

* `Coherent` : ids and names that can be told apart, and tags that are those that people carry;
* `Ref.IsListed`, `Ref.Covers` : mentions of people and tags of the lists, and whom they are about;
* `Entry.isListed_of_parse`, `Entry.at_mem_of_parse` : what the references in a text are;
* `Coherent.exists_operand`, `Coherent.exists_relation` : a relation has one formula under all
  policies, made of people only;
* `Coherent.exists_relation_iff` : which relations have a formula.
-/

namespace BalancedTeams

variable {people : List Person} {tags : List Tag}

/-- Ids can be looked up and told apart, names are distinct and tidy texts, people carry tags of the
list only, and each of them is carried by somebody. -/
structure Coherent (people : List Person) (tags : List Tag) : Prop where
  personIds : DistinctKeys (people.map Person.id)
  personNames : (people.map Person.name).Nodup
  personTexts : ∀ p ∈ people, ∃ name : Text, p.name = .str name ∧ name.IsTidy
  tagIds : DistinctKeys (tags.map Tag.id)
  tagNames : (tags.map Tag.name).Nodup
  tagTexts : ∀ g ∈ tags, ∃ name : Text, g.name = .str name ∧ name.IsTidy
  carried : ∀ p ∈ people, ∀ k ∈ p.tags, ∃ g ∈ tags, g.id.key? = some k
  used : ∀ g ∈ tags, ∃ p ∈ people, ∃ k ∈ p.tags, g.id.key? = some k

namespace Ref

def IsListed (people : List Person) (tags : List Tag) : Ref → Prop
  | .person id => ∃ p ∈ people, p.id = id
  | .tag id => ∃ g ∈ tags, g.id = id

/-- The mention is about the person, who is meant or carries the tag. -/
def Covers (p : Person) : Ref → Prop
  | .person id => p.id = id
  | .tag id => ∃ k ∈ p.tags, id.key? = some k

end Ref

/-- Everybody the entries are about has an id with a text for labels. -/
def HaveLabelTexts (people : List Person) (entries : List Entry) : Prop :=
  ∀ ref, Entry.ref ref ∈ entries → ∀ p ∈ people, ref.Covers p → p.id.HasLabelText

/-! ## References in texts -/

namespace Entry
variable {names : Names} {text : Text}

theorem reads_of_ref_mem {r : Ref} (h : .ref r ∈ parse names text) :
    Reads names.ref? text (parse names text) := by
  rcases reads_parse names text with hreads | ⟨-, hempty⟩
  · exact hreads
  · rw [hempty, List.mem_singleton] at h
    cases h

theorem Reads.at_mem {find? : Text → Option Ref} {es : List Entry} (h : Reads find? text es) {r : Ref}
    (hr : .ref r ∈ es) : CodePoint.char '@' ∈ text := by
  induction h with
  | nil => cases hr
  | text _ _ _ _ ih =>
    rcases List.mem_cons.1 hr with heq | hr
    · cases heq
    · exact List.mem_append_right _ (ih hr)
  | ref => exact List.mem_append_left _ List.mem_cons_self

theorem at_mem_of_parse {r : Ref} (h : .ref r ∈ parse names text) : CodePoint.char '@' ∈ text :=
  (reads_of_ref_mem h).at_mem h

theorem isListed_of_parse (hnames : Names.of? people tags = some names) {r : Ref}
    (h : .ref r ∈ parse names text) : r.IsListed people tags := by
  obtain ⟨name, -, hfind⟩ := (reads_of_ref_mem h).isRead _ h
  obtain ⟨t, p, ht, hp, hlookup⟩ := Names.ref?_eq hnames
  rw [hlookup, Option.or_eq_some_iff] at hfind
  rcases hfind with hfind | ⟨-, hfind⟩
  · obtain ⟨before, q, after, rfl, -, rfl, -⟩ := Table.exists_of_find?_of? hp hfind
    exact ⟨q, List.mem_append_right _ List.mem_cons_self, rfl⟩
  · obtain ⟨before, g, after, rfl, -, rfl, -⟩ := Table.exists_of_find?_of? ht hfind
    exact ⟨g, List.mem_append_right _ List.mem_cons_self, rfl⟩

end Entry

/-! ## Formulas of people -/

namespace Formula

/-- The formula is about these people and has no part that is always met. -/
def IsOver (people : List Person) : Formula → Prop
  | .person id => ∃ p ∈ people, p.id = id
  | .always => False
  | .not f => f.IsOver people
  | .and f g => f.IsOver people ∧ g.IsOver people
  | .or f g => f.IsOver people ∧ g.IsOver people

theorem isOver_foldl_or {ids : List Value} {f : Formula} (hf : f.IsOver people)
    (hids : ∀ id ∈ ids, ∃ p ∈ people, p.id = id) :
    (ids.foldl (fun f id => .or f (.person id)) f).IsOver people := by
  induction ids generalizing f with
  | nil => exact hf
  | cons id ids ih =>
    obtain ⟨hid, hrest⟩ := List.forall_mem_cons.1 hids
    exact ih ⟨hf, hid⟩ hrest

end Formula

namespace Coherent
variable (h : Coherent people tags) {policy : EmptyTag} {ctx : Context}
include h

theorem exists_names : ∃ names, Names.of? people tags = some names := by
  apply Names.exists_of?
  · intro p hp
    obtain ⟨name, hname, -⟩ := h.personTexts p hp
    rw [hname]
    rfl
  · intro g hg
    obtain ⟨name, hname, -⟩ := h.tagTexts g hg
    rw [hname]
    rfl

theorem exists_context (policy : EmptyTag) : ∃ ctx, Context.of? people tags policy.name = .ok ctx :=
  Context.exists_of? policy h.personIds.keyed_map h.tagIds.keyed_map

/-- A mention has a formula of people that is the same under all policies, if those it is about have
texts for labels. -/
theorem exists_operand {t : Token} {ref : Ref} (ht : t.ref = some ref)
    (hlisted : ref.IsListed people tags) (htexts : ∀ p ∈ people, ref.Covers p → p.id.HasLabelText) :
    ∃ f : Formula, f.IsOver people ∧ f.Evaluable ∧ ∀ {policy : EmptyTag} {ctx : Context},
      Context.of? people tags policy.name = .ok ctx → ctx.operand t = .ok f := by
  cases ref with
  | person id =>
    obtain ⟨p, hp, rfl⟩ := hlisted
    have htext := htexts p hp rfl
    have hkey := h.personIds.keyed_map p hp
    refine ⟨.person p.id, ⟨p, hp, rfl⟩, .person hkey htext, fun hctx => ?_⟩
    obtain ⟨k, hk⟩ := Option.isSome_iff_exists.1 hkey
    rw [Context.operand, ht]
    exact (Context.findPerson_eq_ok_iff hctx).2 ⟨⟨⟨k, hk, p, hp, hk⟩, htext⟩, rfl⟩
  | tag id =>
    obtain ⟨g, hg, rfl⟩ := hlisted
    obtain ⟨p, hp, k, hpk, hk⟩ := h.used g hg
    have hcarriers : ∀ id ∈ carriers people k, ∃ q ∈ people, k ∈ q.tags ∧ q.id = id :=
      fun id hid => Context.mem_carriers.1 hid
    have hlabels : ∀ id ∈ carriers people k, id.key?.isSome = true ∧ id.HasLabelText := by
      intro id hid
      obtain ⟨q, hq, hqk, rfl⟩ := hcarriers id hid
      exact ⟨h.personIds.keyed_map q hq, htexts q hq ⟨k, hqk, hk⟩⟩
    have hpeople : ∀ id ∈ carriers people k, ∃ q ∈ people, q.id = id := by
      intro id hid
      obtain ⟨q, hq, -, hqid⟩ := hcarriers id hid
      exact ⟨q, hq, hqid⟩
    obtain ⟨first, rest, hsome⟩ := List.exists_cons_of_ne_nil
      (List.ne_nil_of_mem (Context.mem_carriers.2 ⟨p, hp, hpk, rfl⟩))
    rw [hsome] at hlabels hpeople
    obtain ⟨hfirst, hrest⟩ := List.forall_mem_cons.1 hlabels
    obtain ⟨hfirst', hrest'⟩ := List.forall_mem_cons.1 hpeople
    refine ⟨_, Formula.isOver_foldl_or (f := .person first) hfirst' hrest',
      Context.evaluable_foldl_or (.person hfirst.1 hfirst.2) hrest, fun hctx => ?_⟩
    obtain ⟨name, hexpand⟩ := Context.expandTag_eq hctx hk ⟨g, hg, hk⟩
    rw [Context.operand, ht]
    refine hexpand.trans ?_
    rw [hsome]
    exact Context.anyOf_cons_eq_ok_iff.2 ⟨fun id hid => (hlabels id hid).2, rfl⟩

/-- A relation has a formula of people that is the same under all policies, if those it is about have
texts for labels. -/
theorem exists_relation {entries : List Entry} {ts : List Token}
    (hts : relationTokens entries = .ok ts)
    (hlisted : ∀ ref, .ref ref ∈ entries → ref.IsListed people tags)
    (htexts : HaveLabelTexts people entries) :
    ∃ f : Formula, f.IsOver people ∧ f.Evaluable ∧ ∀ {policy : EmptyTag} {ctx : Context},
      Context.of? people tags policy.name = .ok ctx → ctx.relation entries = .ok f := by
  obtain ⟨hread, hexpr⟩ := relationTokens_eq_ok_iff.1 hts
  obtain ⟨d, rfl⟩ := Derivation.exists_of_formExpr hexpr
  obtain ⟨ctx, hctx⟩ := h.exists_context .vacuous
  have hmention : ∀ t ∈ d.tokens, t.kind = .mention → (ctx.mentioned t).IsOver people ∧
      (ctx.mentioned t).Evaluable ∧ ∀ {policy : EmptyTag} {ctx' : Context},
        Context.of? people tags policy.name = .ok ctx' → ctx'.operand t = .ok (ctx.mentioned t) := by
    intro t ht hkind
    obtain ⟨ref, href, hmem⟩ := Token.exists_ref_of_ofEntries hread ht hkind
    obtain ⟨f, hover, heval, hf⟩ := h.exists_operand href (hlisted ref hmem) (htexts ref hmem)
    rw [Context.mentioned_eq (hf hctx)]
    exact ⟨hover, heval, hf⟩
  refine ⟨d.formula ctx.mentioned, ?_, ?_, fun {policy ctx'} hctx' => ?_⟩
  · apply d.formula_induction (P := Formula.IsOver people) id And.intro And.intro
    exact fun t ht hkind => (hmention t ht hkind).1
  · apply d.evaluable_formula
    exact fun t ht hkind => (hmention t ht hkind).2.1
  · unfold Context.relation
    rw [hts]
    apply d.build_tokens
    exact fun t ht hkind => (hmention t ht hkind).2.2 hctx'

/-- A relation has a formula exactly if its tokens form an expression and those it is about have texts
for labels. -/
theorem exists_relation_iff (hctx : Context.of? people tags policy.name = .ok ctx)
    {entries : List Entry} (hlisted : ∀ ref, .ref ref ∈ entries → ref.IsListed people tags) :
    (∃ f, ctx.relation entries = .ok f) ↔
      (∃ ts, relationTokens entries = .ok ts) ∧ HaveLabelTexts people entries := by
  constructor
  · rintro ⟨f, hf⟩
    obtain ⟨ts, hts, hbuild⟩ := bind_eq_ok_iff.1 hf
    refine ⟨⟨ts, hts⟩, fun ref href p hp hcovers => ?_⟩
    obtain ⟨t, ht, hkind, htref⟩ :=
      Token.exists_of_ref_of_ofEntries (relationTokens_eq_ok_iff.1 hts).1 href
    have hres := (Context.exists_operand_iff hctx htref).1
      (Context.operand_of_build hbuild ht hkind)
    cases ref with
    | person id =>
      obtain ⟨-, htext⟩ := hres
      exact hcovers ▸ htext
    | tag id =>
      obtain ⟨k, hk, -, hlabels, -⟩ := hres
      obtain ⟨l, hl, hkey⟩ := hcovers
      cases hk.symm.trans hkey
      exact hlabels p hp hl
  · rintro ⟨⟨ts, hts⟩, htexts⟩
    obtain ⟨f, -, -, hf⟩ := h.exists_relation hts hlisted htexts
    exact ⟨f, hf hctx⟩

end Coherent
end BalancedTeams
