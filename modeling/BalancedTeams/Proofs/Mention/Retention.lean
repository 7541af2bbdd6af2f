import BalancedTeams.Proofs.Mention.Codec
import BalancedTeams.Proofs.Relation.Words

/-!
# No mention is lost

* `Mention.afters` : what follows each `@` of a text, one by one;
* `Entry.Reads.refs` : the references among the entries of a text, if no `@` stays in them;
* `Entry.mentions_of_relationTokens` : the mentions of a relation that is read from a text are what
  the names after its `@` stand for, and there is no relation if one of them stands for nothing.
-/

namespace BalancedTeams

/-! ## Every `@` of a text -/

namespace Mention

/-- What follows each `@` of the text. -/
def afters : Text → List Text
  | [] => []
  | c :: rest => if c = '@' then rest :: afters rest else afters rest

theorem afters_at (rest : Text) : afters (CodePoint.char '@' :: rest) = rest :: afters rest :=
  if_pos rfl

theorem afters_of_ne {c : CodePoint} (hc : c ≠ CodePoint.char '@') (rest : Text) :
    afters (c :: rest) = afters rest := if_neg hc

theorem length_afters (t : Text) : (afters t).length = t.count (CodePoint.char '@') := by
  induction t with
  | nil => rfl
  | cons c rest ih =>
    by_cases hc : c = CodePoint.char '@'
    · subst hc
      rw [afters_at, List.length_cons, ih, List.count_cons_self]
    · rw [afters_of_ne hc, ih, List.count_cons_of_ne (Ne.symm hc).symm]

theorem mem_afters_iff {t after : Text} :
    after ∈ afters t ↔ CodePoint.char '@' :: after <:+ t := by
  induction t with
  | nil => simp [afters]
  | cons c rest ih =>
    rw [List.suffix_cons_iff]
    by_cases hc : c = CodePoint.char '@'
    · subst hc
      rw [afters_at, List.mem_cons, ih, List.cons.injEq]
      simp only [true_and]
    · rw [afters_of_ne hc, ih, List.cons.injEq]
      simp only [Ne.symm hc, false_and, false_or]

theorem afters_append {t : Text} (h : CodePoint.char '@' ∉ t) (rest : Text) :
    afters (t ++ rest) = afters rest := by
  induction t with
  | nil => rfl
  | cons c t ih =>
    obtain ⟨hc, ht⟩ := not_or.1 (mt List.mem_cons.2 h)
    rw [List.cons_append, afters_of_ne (Ne.symm hc), ih ht]

end Mention

namespace Entry
variable {find? : Text → Option Ref}

/-! ## Entries -/

def ref? : Entry → Option Ref
  | .ref r => some r
  | .text _ => none
  | .foreign _ => none

theorem not_mem_of_isMentionable {n : Text} (h : isMentionable n = true) : CodePoint.char '@' ∉ n := by
  intro hmem
  have hpoint := List.all_eq_true.1 (Bool.and_eq_true_iff.1 h).2 _ hmem
  revert hpoint
  decide

theorem not_mem_of_isReadable {t : Text} (h : (Entry.text t).IsReadable) : CodePoint.char '@' ∉ t := by
  intro hmem
  obtain ⟨o, ho⟩ := List.mem_iff_getElem?.1 hmem
  obtain ⟨p, w, hw, hp, hpo⟩ := Text.exists_isWord ho (by decide)
  obtain ⟨kind, hkind, hupper⟩ := h p w hw
  have hin : CodePoint.char '@' ∈ w := by
    obtain ⟨-, -, before, after, rfl, rfl, -, -⟩ := hw
    rw [List.getElem?_append_right hp, List.getElem?_append_left (by omega)] at ho
    exact List.mem_of_getElem? ho
  have hletter : CodePoint.char '@' ∈ kind.text := by
    rw [← hupper]
    exact List.mem_map.2 ⟨_, hin, by decide⟩
  have hall : ∀ kind ∈ [Kind.and, .or, .not], CodePoint.char '@' ∉ kind.text := by decide
  exact hall kind hkind hletter

/-- Where no `@` stays in the texts, the references are what the names after the `@` stand for. -/
theorem Reads.refs {s : Text} {es : List Entry} (h : Reads find? s es)
    (hfree : ∀ t, Entry.text t ∈ es → CodePoint.char '@' ∉ t) :
    List.Forall₂ (fun after r => after.takeWhile Mention.isNamePoint ≠ [] ∧
      find? (after.takeWhile Mention.isNamePoint) = some r) (Mention.afters s) (es.filterMap ref?) := by
  induction h with
  | nil => exact .nil
  | @text t rest es hne _ _ _ ih =>
    rw [Mention.afters_append (hfree t List.mem_cons_self)]
    exact ih fun u hu => hfree u (List.mem_cons_of_mem _ hu)
  | @ref n rest r es hn hr hends _ ih =>
    obtain ⟨hne, hrun⟩ := takeWhile_of_isMentionable hn
    have hname : (n ++ rest).takeWhile Mention.isNamePoint = n := (takeWhile_append hends).trans hrun
    rw [List.cons_append, Mention.afters_at, Mention.afters_append (not_mem_of_isMentionable hn)]
    refine .cons ?_ (ih fun u hu => hfree u (List.mem_cons_of_mem _ hu))
    rw [hname]
    exact ⟨hne, hr⟩

/-- The references in a text, if no `@` stays in what is read. -/
theorem refs_parse (names : Names) (text : Text)
    (hfree : ∀ t, Entry.text t ∈ parse names text → CodePoint.char '@' ∉ t) :
    List.Forall₂ (fun after r => after.takeWhile Mention.isNamePoint ≠ [] ∧
      names.ref? (after.takeWhile Mention.isNamePoint) = some r)
      (Mention.afters text) ((parse names text).filterMap ref?) := by
  rcases reads_parse names text with hreads | ⟨rfl, hempty⟩
  · exact hreads.refs hfree
  · rw [hempty]
    exact .nil

end Entry

/-! ## Tokens -/

/-- The mentions among the tokens are the references among the entries. -/
theorem Token.mentions_of_ofEntriesFrom {entries : List Entry} {index : Nat} {ts : List Token}
    (h : ofEntriesFrom index entries = .ok ts) :
    List.Forall₂ (fun r t => t.ref = some r) (entries.filterMap Entry.ref?)
      (ts.filter fun t => t.kind = .mention) := by
  induction entries generalizing index ts with
  | nil =>
    cases h
    exact .nil
  | cons e entries ih =>
    obtain ⟨us, hus, h⟩ := bind_eq_ok_iff.1 h
    obtain ⟨vs, hvs, h⟩ := bind_eq_ok_iff.1 h
    cases h
    rw [List.filter_append]
    cases e with
    | text t =>
      have hnone : us.filter (fun t => t.kind = .mention) = [] := by
        rw [List.filter_eq_nil_iff]
        intro t ht
        simpa using kind_ne_mention_of_ofText hus t ht
      rw [hnone]
      exact ih hvs
    | ref r =>
      cases hus
      exact .cons rfl (ih hvs)
    | foreign v =>
      obtain ⟨s, -, hs⟩ := bind_eq_ok_iff.1 hus
      cases hs

namespace Entry

/-- The mentions read from a text are what the names after its `@` are looked up as. -/
theorem mentions_of_ofEntries {names : Names} {text : Text} {ts : List Token}
    (hts : Token.ofEntries (parse names text) = .ok ts) :
    List.Forall₂ (fun after t => after.takeWhile Mention.isNamePoint ≠ [] ∧
        ∃ r, t.ref = some r ∧ names.ref? (after.takeWhile Mention.isNamePoint) = some r)
      (Mention.afters text) (ts.filter fun t => t.kind = .mention) := by
  have hfree : ∀ t, Entry.text t ∈ parse names text → CodePoint.char '@' ∉ t := by
    intro t ht
    rcases Token.ofEntriesFrom_reads (parse names text) 0 with ⟨_, -, hall, -⟩ | ⟨e, _, _, _, he, -⟩
    · exact not_mem_of_isReadable (hall _ ht)
    · cases hts.symm.trans he
  refine (forall₂_comp (refs_parse names text hfree) (Token.mentions_of_ofEntriesFrom hts)).imp ?_
  rintro after t ⟨r, -, ⟨hne, hr⟩, ht⟩
  exact ⟨hne, r, ht, hr⟩

/-- A text with an `@` before no name is refused for a word. -/
theorem fault_of_unresolved {people : List Person} {tags : List Tag} {names : Names}
    (hnames : Names.of? people tags = some names) {text after : Text}
    (hafter : CodePoint.char '@' :: after <:+ text)
    (hnobody : after.takeWhile Mention.isNamePoint = [] ∨
      ¬ IsName people tags (after.takeWhile Mention.isNamePoint)) :
    ∃ w, Token.ofEntries (parse names text) = .error (.word none w) := by
  cases hts : Token.ofEntries (parse names text) with
  | ok ts =>
    have hmentions := (mentions_of_ofEntries hts).flip
    obtain ⟨t, -, hne, r, -, hr⟩ := exists_of_mem_right hmentions (Mention.mem_afters_iff.2 hafter)
    rcases hnobody with hnil | hnobody
    · exact absurd hnil hne
    · rw [(Names.ref?_eq_none_iff hnames).2 hnobody] at hr
      cases hr
  | error e =>
    rcases Token.ofEntriesFrom_fails (parse names text) 0 e hts with ⟨w, rfl⟩ | ⟨v, hv, -⟩
    · exact ⟨w, rfl⟩
    · exact absurd hv (foreign_not_mem_parse names text v)

/-- **No mention is lost.** A relation that is read from a text has as many mentions as the text has
`@`, and each mention is what the people and tags give for the name after its `@`: the longest run of
name characters, which is not empty. Where one of these names is empty, or is nobody's and no tag's,
the text is refused for a word that is no operator. -/
theorem mentions_of_relationTokens {people : List Person} {tags : List Tag} {names : Names}
    (hnames : Names.of? people tags = some names) (text : Text) :
    (∀ ts, relationTokens (parse names text) = .ok ts →
      (ts.filter fun t => t.kind = .mention).length = text.count (CodePoint.char '@') ∧
      List.Forall₂ (fun after t => after.takeWhile Mention.isNamePoint ≠ [] ∧ ∃ r, t.ref = some r ∧
          r.IsFiledUnder people tags (after.takeWhile Mention.isNamePoint))
        (Mention.afters text) (ts.filter fun t => t.kind = .mention)) ∧
    ∀ after, CodePoint.char '@' :: after <:+ text →
      (after.takeWhile Mention.isNamePoint = [] ∨
        ¬ IsName people tags (after.takeWhile Mention.isNamePoint)) →
      (∃ w, relationTokens (parse names text) = .error (.word none w)) ∧
        isValidRelation (parse names text) = .ok false := by
  constructor
  · intro ts hts
    have hmentions := mentions_of_ofEntries (relationTokens_eq_ok_iff.1 hts).1
    constructor
    · rw [← hmentions.length_eq, Mention.length_afters]
    · refine hmentions.imp ?_
      rintro after t ⟨hne, r, ht, hr⟩
      exact ⟨hne, r, ht, Names.isFiledUnder_of_ref? hnames hr⟩
  · intro after hafter hnobody
    obtain ⟨w, hw⟩ := fault_of_unresolved hnames hafter hnobody
    have herror : relationTokens (parse names text) = .error (.word none w) := by
      unfold relationTokens
      rw [hw]
      rfl
    refine ⟨⟨w, herror⟩, ?_⟩
    unfold isValidRelation
    rw [herror]

/-- The second of two people of one name is mentioned, and a tag of this name is not. An `@` before a
bracket is no mention. -/
theorem mentions_of_relationTokens_shadowed :
    let people : List Person := [⟨.int 1, .str "Ann", []⟩, ⟨.int 2, .str "Ann", []⟩]
    let tags : List Tag := [⟨.int 7, .str "Ann"⟩, ⟨.int 8, .str "tall"⟩]
    let text : Text := "(@tall)AND @Ann"
    ∃ names, Names.of? people tags = some names ∧
      (∃ ts, relationTokens (parse names text) = .ok ts ∧
        (ts.filter fun t => t.kind = .mention).map Token.ref =
          [some (.tag (.int 8)), some (.person (.int 2))] ∧
        List.Forall₂ (fun after t => after.takeWhile Mention.isNamePoint ≠ [] ∧
            ∃ r, t.ref = some r ∧ r.IsFiledUnder people tags (after.takeWhile Mention.isNamePoint))
          (Mention.afters text) (ts.filter fun t => t.kind = .mention)) ∧
      isValidRelation (parse names "@[Ann] AND @Ann") = .ok false := by
  intro people tags text
  obtain ⟨names, hnames⟩ : ∃ names, Names.of? people tags = some names :=
    Names.exists_of? (by decide) (by decide)
  have htokens : relationTokens (parse names text) = .ok [⟨.opening, none, 0, 0⟩,
      ⟨.mention, some (.tag (.int 8)), 1, 0⟩, ⟨.closing, none, 2, 0⟩, ⟨.and, none, 2, 1⟩,
      ⟨.mention, some (.person (.int 2)), 3, 0⟩] := by
    cases hnames
    decide +kernel
  have hmentions := ((mentions_of_relationTokens hnames text).1 _ htokens).2
  have hbracket := (mentions_of_relationTokens hnames "@[Ann] AND @Ann").2 _ (List.suffix_refl _)
    (Or.inl (by decide))
  exact ⟨names, hnames, ⟨_, htokens, by decide, hmentions⟩, hbracket.2⟩

end Entry
end BalancedTeams
