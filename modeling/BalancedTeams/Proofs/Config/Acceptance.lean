import BalancedTeams.Proofs.Config.Requests

/-!
# Texts that are accepted as relations

* `Text.strip_ne_nil_of_relationTokens` : a text that forms a relation is not blank;
* `Load.relations_concat_iff`, `Request.load_addRelation_iff` : when a document loads with one more
  relation;
* `Request.acceptance_agrees` : the check of a text, the loader and the builder accept the same texts;
* `Request.accepted_without_formula` : why labels are needed for the builder.
-/

namespace BalancedTeams

/-! ## Blank texts -/

theorem Expr.mention_mem {ks : List Kind} (h : Expr ks) : Kind.mention ∈ ks := by
  induction h with
  | mention => exact List.mem_singleton_self _
  | paren _ ih => exact List.mem_append_left _ (List.mem_cons_of_mem _ ih)
  | not _ ih => exact List.mem_cons_of_mem _ ih
  | and _ _ ih => exact List.mem_append_left _ ih
  | or _ _ ih => exact List.mem_append_left _ ih

namespace Text

theorem strip_ne_nil {t : Text} {c : CodePoint} (hc : c ∈ t) (hblank : isBlank c = false) :
    t.strip ≠ [] := by
  intro hnil
  have hall : ∀ d ∈ t.dropWhile isBlank, isBlank d = true :=
    List.rdropWhile_eq_nil_iff.1 ((trimBy_eq_rdropWhile isBlank t).symm.trans hnil)
  have hfront : t.dropWhile isBlank = [] := by
    have hhead := List.head?_dropWhile_not isBlank t
    cases hdrop : t.dropWhile isBlank with
    | nil => rfl
    | cons d rest =>
      rw [hdrop, List.head?_cons] at hhead
      have hd := hall d (hdrop ▸ List.mem_cons_self)
      rw [hhead] at hd
      cases hd
  rw [List.dropWhile_eq_nil_iff] at hfront
  rw [hfront c hc] at hblank
  cases hblank

/-- A relation has a mention, so its text has an `@`. -/
theorem strip_ne_nil_of_relationTokens {names : Names} {text : Text} {ts : List Token}
    (h : relationTokens (Entry.parse names text) = .ok ts) : text.strip ≠ [] := by
  obtain ⟨hread, hexpr⟩ := relationTokens_eq_ok_iff.1 h
  obtain ⟨t, ht, hkind⟩ := List.mem_map.1 (Expr.mention_mem hexpr)
  obtain ⟨ref, -, href⟩ := Token.exists_ref_of_ofEntries hread ht hkind
  exact strip_ne_nil (Entry.at_mem_of_parse href) (by decide)

end Text

/-! ## One more relation -/

namespace Load
variable {people : List Person} {tags : List Tag}

theorem nextId_concat (items : List Value) (id text : Text) :
    Config.nextId 0 (givenIds (items ++ [Config.relationEntry id text])) =
      Config.nextId 0 (givenIds items) := by
  have hids : givenIds (items ++ [Config.relationEntry id text]) = givenIds items ++ [.str id] := by
    rw [givenIds, List.filterMap_append]
    rfl
  rw [hids, Config.nextId, List.filterMap_append, Config.nextId]
  congr 2
  exact List.append_nil _

theorem exists_relation_entry_iff {seen : List Key} {id text : Text} (hnew : Key.str id ∉ seen) (next : Int)
    (index : Nat) : (∃ r, relation people tags seen next index (Config.relationEntry id text) = .ok r) ↔
      ∃ names, Names.of? people tags = some names ∧
        ∃ ts, relationTokens (Entry.parse names text) = .ok ts := by
  simp only [relation_eq_ok_iff]
  constructor
  · rintro ⟨r, fields, t, k, n, names, ts, hfields, htext, -, -, -, hnames, hts, -⟩
    cases hfields
    cases (textOf_eq_ok_iff.1 htext).1
    exact ⟨names, hnames, ts, hts⟩
  · rintro ⟨names, hnames, ts, hts⟩
    refine ⟨_, _, text, .str id, 1, names, ts, rfl, ?_, rfl, hnew, rfl, hnames, hts, rfl⟩
    exact textOf_eq_ok_iff.2 ⟨rfl, Text.strip_ne_nil_of_relationTokens hts⟩

/-- One more relation with a new id loads exactly if its text forms a relation. -/
theorem relations_concat_iff {items : List Value} {rs : List Relation} {warnings : List Text}
    (h : relations people tags items = .ok (rs, warnings)) {id : Text}
    (hnew : ∀ r ∈ rs, r.id ≠ .str id) (text : Text) :
    (∃ a, relations people tags (items ++ [Config.relationEntry id text]) = .ok a) ↔
      ∃ names, Names.of? people tags = some names ∧
        ∃ ts, relationTokens (Entry.parse names text) = .ok ts := by
  unfold relations at h ⊢
  obtain ⟨seen, next, hseen, hrest⟩ := exists_relationsFrom_append h
  have hid : Key.str id ∉ seen := by
    intro hmem
    rcases (hseen _).1 hmem with hmem | ⟨r, hr, hkey⟩
    · cases hmem
    · exact hnew r hr (key?_eq_str_iff.1 hkey)
  rw [nextId_concat, hrest, ← exists_relation_entry_iff hid next (0 + items.length)]
  constructor
  · rintro ⟨b, hb⟩
    obtain ⟨r, more, hr, -, -⟩ := relationsFrom_cons_eq_ok_iff.1 hb
    exact ⟨r, hr⟩
  · rintro ⟨r, hr⟩
    exact ⟨_, relationsFrom_cons_eq_ok_iff.2 ⟨r, ([], []), hr, rfl, rfl⟩⟩

end Load

namespace Request
variable {v : Value} {r : Request}

/-- A document that loads does so with one more relation exactly if the text forms a relation. -/
theorem load_addRelation_iff (h : Request.load v = .ok r) {id : Text}
    (hnew : ∀ rel ∈ r.relations, rel.id ≠ .str id) (text : Text) :
    (∃ r', Request.load (Config.addRelation id text v) = .ok r') ↔
      ∃ names, Names.of? r.people r.tags = some names ∧
        ∃ ts, relationTokens (Entry.parse names text) = .ok ts := by
  obtain ⟨n, hn, h⟩ := bind_eq_ok_iff.1 h
  obtain ⟨fields, hn'⟩ := Config.normal_addRelation id text hn
  obtain ⟨tags, people, unfit, relations, warnings, teams, htags, hpeople, hsome, hunfit, hrelations, hteams,
    rfl⟩ := Load.request_eq_ok_iff.1 h
  rw [← Load.relations_concat_iff hrelations hnew text]
  constructor
  · rintro ⟨r', hr'⟩
    obtain ⟨m, hm, hr'⟩ := bind_eq_ok_iff.1 hr'
    cases hn'.symm.trans hm
    obtain ⟨tags', people', -, relations', warnings', -, htags', hpeople', -, -, hrelations', -, -⟩ :=
      Load.request_eq_ok_iff.1 hr'
    cases htags.symm.trans htags'
    cases hpeople.symm.trans hpeople'
    exact ⟨_, hrelations'⟩
  · rintro ⟨⟨relations', warnings'⟩, hrelations'⟩
    exact ⟨_, bind_eq_ok_iff.2 ⟨_, hn', Load.request_eq_ok_iff.2 ⟨tags, people, unfit, relations', warnings',
      teams, htags, hpeople, hsome, hunfit, hrelations', hteams, rfl⟩⟩⟩

/-- **The check of a text, the loader and the builder agree.** Over the people and tags of a document
that loads, every text is read and is found to be a relation or not. It is found to be one exactly if
the document also loads with the text as one more relation, whatever new id it has; and, under each
policy, exactly if it has a formula, as far as those it is about have texts for labels. -/
theorem acceptance_agrees (h : Request.load v = .ok r) (text : Text) :
    ∃ names accepted, Names.of? r.people r.tags = some names ∧
      isValidRelation (Entry.parse names text) = .ok accepted ∧
      (∀ id : Text, (∀ rel ∈ r.relations, rel.id ≠ .str id) →
        (accepted = true ↔ ∃ r', Request.load (Config.addRelation id text v) = .ok r')) ∧
      ∀ policy : EmptyTag, ∃ ctx, Context.of? r.people r.tags policy.name = .ok ctx ∧
        ((∃ f, ctx.relation (Entry.parse names text) = .ok f) ↔
          accepted = true ∧ HaveLabelTexts r.people (Entry.parse names text)) := by
  have hlists := (coherent_of_load h).lists
  obtain ⟨names, hnames⟩ := hlists.exists_names
  obtain ⟨accepted, hvalid, haccepted⟩ :=
    exists_isValidRelation (Entry.foreign_not_mem_parse names text)
  refine ⟨names, accepted, hnames, hvalid, fun id hnew => ?_, fun policy => ?_⟩
  · rw [load_addRelation_iff h hnew, haccepted]
    constructor
    · intro hts
      exact ⟨names, hnames, hts⟩
    · rintro ⟨names', hnames', hts⟩
      cases hnames.symm.trans hnames'
      exact hts
  · obtain ⟨ctx, hctx⟩ := hlists.exists_context policy
    refine ⟨ctx, hctx, ?_⟩
    rw [haccepted]
    exact hlists.exists_relation_iff hctx fun ref href => Entry.isListed_of_parse hnames href

theorem acceptance_agrees_tall :
    ∃ names, Names.of? tall.people tall.tags = some names ∧
      isValidRelation (Entry.parse names "@Bob OR @tall") = .ok true ∧
      (∃ r', Request.load (Config.addRelation "new" "@Bob OR @tall" tallDocument) = .ok r') ∧
      ∀ policy : EmptyTag, ∃ ctx, Context.of? tall.people tall.tags policy.name = .ok ctx ∧
        ∃ f, ctx.relation (Entry.parse names "@Bob OR @tall") = .ok f := by
  obtain ⟨names, accepted, hnames, hvalid, hload, hbuild⟩ := acceptance_agrees load_tall "@Bob OR @tall"
  have htrue : accepted = true := by
    have hread : isValidRelation (Entry.parse names "@Bob OR @tall") = .ok true := by
      cases hnames
      with_unfolding_all rfl
    cases hvalid.symm.trans hread
    rfl
  subst htrue
  refine ⟨names, hnames, hvalid, (hload "new" ?_).1 rfl, fun policy => ?_⟩
  · decide
  · obtain ⟨ctx, hctx, hiff⟩ := hbuild policy
    exact ⟨ctx, hctx, hiff.2 ⟨rfl, haveLabelTexts_tall _⟩⟩

/-- An id without an encoding: a text is found to be a relation and loads as one, but has no formula. -/
theorem accepted_without_formula : Request.load halfDocument = .ok half ∧
    ∃ names, Names.of? half.people half.tags = some names ∧
      isValidRelation (Entry.parse names "@Ann") = .ok true ∧
      (∃ r', Request.load (Config.addRelation "new" "@Ann" halfDocument) = .ok r') ∧
      ∀ policy : EmptyTag, ∃ ctx, Context.of? half.people half.tags policy.name = .ok ctx ∧
        ctx.relation (Entry.parse names "@Ann") = .error (.text .loneHalf) := by
  let names : Names := ⟨[(.str "Ann", .person (.str [.half 0]))]⟩
  let mention : Token := ⟨.mention, some (.person (.str [.half 0])), 0, 0⟩
  have hnames : Names.of? half.people half.tags = some names := rfl
  have hparse : Entry.parse names "@Ann" = [.ref (.person (.str [.half 0]))] := by
    with_unfolding_all rfl
  have htokens : relationTokens (Entry.parse names "@Ann") = .ok [mention] := by rw [hparse]; rfl
  refine ⟨load_half, names, hnames, ?_, ?_, fun policy => ?_⟩
  · rw [hparse]
    rfl
  · exact (load_addRelation_iff load_half (by decide) "@Ann").2 ⟨names, hnames, [mention], htokens⟩
  · rw [hparse]
    exact relation_half policy

end Request
end BalancedTeams
