import BalancedTeams.Proofs.Config.Requests
import BalancedTeams.Proofs.Quoting

/-!
# Which names can be mentioned

* `Names.Reaches` : some text mentions a person or a tag;
* `Names.reaches_iff` : this is so if it has a name that can be mentioned;
* `Coherent.isNamed_person_iff`, `Coherent.isNamed_tag_iff` : the only names that people and tags have;
* `Coherent.reaches_person_iff`, `Coherent.reaches_tag_iff` : which of them some text mentions;
* `Coherent.parse_mention` : what an `@` and a name are read as;
* `Load.warned_person_iff`, `Load.warned_tag_iff` : the names that a user is warned of;
* `Request.reaches_iff_not_warned` : the warnings of a request that loads are exact.
-/

namespace BalancedTeams

/-- Some text is read as entries with this mention among them. -/
def Names.Reaches (names : Names) (ref : Ref) : Prop :=
  ∃ text, ∃ e ∈ Entry.parse names text, e.same (.ref ref) = true

variable {people : List Person} {tags : List Tag} {names : Names} {name : Text} {ref found : Ref}

/-! ## Mentions and names -/

theorem Entry.same_ref_iff {e : Entry} : e.same (.ref ref) = true ↔ ∃ r, e = .ref r ∧ r.same ref = true := by
  cases e <;> simp [Entry.same]

theorem Ref.IsFiledUnder.isNamed_of_same (h : found.IsFiledUnder people tags name)
    (hsame : found.same ref = true) : ref.IsNamed people tags name := by
  cases found with
  | person id =>
    obtain ⟨before, p, after, hpeople, rfl, hrest⟩ := h
    cases ref with
    | person id => exact ⟨before, p, after, hpeople, hsame, hrest⟩
    | tag id => cases hsame
  | tag id =>
    obtain ⟨hnobody, before, g, after, htags, rfl, hrest⟩ := h
    cases ref with
    | person id => cases hsame
    | tag id => exact ⟨hnobody, before, g, after, htags, hsame, hrest⟩

namespace Names

theorem parse_at (hn : isMentionable name = true) (hr : names.ref? name = some found) :
    Entry.parse names (CodePoint.char '@' :: name) = [.ref found] := by
  have hscan : Entry.scan names.ref? [] (CodePoint.char '@' :: name ++ []) = [.ref found] := by
    rw [Entry.scan_mention hn hr Entry.ends_nil, Entry.scan]
    rfl
  rw [List.append_nil] at hscan
  rw [Entry.parse, hscan]

/-- Whatever stands around a mention, its name is one that can be mentioned. -/
theorem reaches_iff (h : of? people tags = some names) :
    names.Reaches ref ↔ ∃ name, isMentionable name = true ∧ ref.IsNamed people tags name := by
  constructor
  · rintro ⟨text, e, he, hsame⟩
    obtain ⟨found, rfl, hfound⟩ := Entry.same_ref_iff.1 hsame
    obtain ⟨name, hn, hr⟩ := (Entry.reads_of_ref_mem he).isRead _ he
    exact ⟨name, hn, (isFiledUnder_of_ref? h hr).isNamed_of_same hfound⟩
  · rintro ⟨name, hn, hnamed⟩
    obtain ⟨found, hr, hfound⟩ := exists_ref? h hnamed
    refine ⟨CodePoint.char '@' :: name, .ref found, ?_, Entry.same_ref_iff.2 ⟨found, rfl, hfound⟩⟩
    rw [parse_at hn hr]
    exact List.mem_singleton_self _

end Names

/-! ## Names of people and tags that belong together -/

theorem DistinctKeys.eq_of_same {α : Type} {id : α → Value} {xs : List α} {x y : α}
    (h : DistinctKeys (xs.map id)) (hx : x ∈ xs) (hy : y ∈ xs) (hsame : (id x).same (id y) = true) :
    x = y := by
  obtain ⟨k, hxk, hyk⟩ := same_eq_true_iff.1 hsame
  have hid : id x = id y :=
    h.inj (List.mem_map_of_mem hx) (List.mem_map_of_mem hy) (hxk.trans hyk.symm)
  exact List.inj_on_of_nodup_map h.nodup_ids hx hy hid

/-- Where ids and names are distinct, the last of those with a name that has the id of one of them is
this one. -/
theorem exists_last_iff {α : Type} {id label : α → Value} {xs : List α} {x : α} {v : Value}
    (hids : DistinctKeys (xs.map id)) (hlabels : (xs.map label).Nodup) (hx : x ∈ xs) :
    (∃ before y after, xs = before ++ y :: after ∧ (id y).same (id x) = true ∧ label y = v ∧
      ∀ z ∈ after, label z ≠ v) ↔ label x = v := by
  constructor
  · rintro ⟨before, y, after, rfl, hsame, hlabel, -⟩
    obtain rfl := hids.eq_of_same (List.mem_append_right _ List.mem_cons_self) hx hsame
    exact hlabel
  · intro hlabel
    obtain ⟨k, hk⟩ := Option.isSome_iff_exists.1 (hids.keyed_map x hx)
    obtain ⟨before, after, rfl⟩ := List.append_of_mem hx
    refine ⟨before, x, after, rfl, same_eq_true_iff.2 ⟨k, hk, hk⟩, hlabel, fun z hz hz' => ?_⟩
    rw [List.map_append, List.nodup_append] at hlabels
    have hnew := (List.nodup_cons.1 hlabels.2.1).1
    exact hnew (List.mem_map.2 ⟨z, hz, hz'.trans hlabel.symm⟩)

namespace Coherent
variable (h : Coherent people tags)
include h

/-- A person is mentioned by no other name. -/
theorem isNamed_person_iff {p : Person} (hp : p ∈ people) :
    (Ref.person p.id).IsNamed people tags name ↔ p.name = .str name :=
  exists_last_iff h.personIds h.personNames hp

/-- So is a tag, and by its own only if no person has it. -/
theorem isNamed_tag_iff {g : Tag} (hg : g ∈ tags) :
    (Ref.tag g.id).IsNamed people tags name ↔ g.name = .str name ∧ ∀ p ∈ people, p.name ≠ g.name := by
  have hlast := exists_last_iff (v := .str name) h.tagIds h.tagNames hg
  constructor
  · rintro ⟨hnobody, hnamed⟩
    have hname := hlast.1 hnamed
    exact ⟨hname, hname ▸ hnobody⟩
  · rintro ⟨hname, hnobody⟩
    exact ⟨hname ▸ hnobody, hlast.2 hname⟩

theorem eq_of_same (hfound : found.IsListed people tags) (hlisted : ref.IsListed people tags)
    (hsame : found.same ref = true) : found = ref := by
  cases found with
  | person id =>
    cases ref with
    | tag id => cases hsame
    | person id' =>
      obtain ⟨p, hp, rfl⟩ := hfound
      obtain ⟨q, hq, rfl⟩ := hlisted
      rw [h.personIds.eq_of_same hp hq hsame]
  | tag id =>
    cases ref with
    | person id => cases hsame
    | tag id' =>
      obtain ⟨f, hf, rfl⟩ := hfound
      obtain ⟨g, hg, rfl⟩ := hlisted
      rw [h.tagIds.eq_of_same hf hg hsame]

theorem parse_mention (hnames : Names.of? people tags = some names)
    (hlisted : ref.IsListed people tags) (hn : isMentionable name = true)
    (hnamed : ref.IsNamed people tags name) :
    Entry.parse names (CodePoint.char '@' :: name) = [.ref ref] := by
  obtain ⟨found, hr, hsame⟩ := Names.exists_ref? hnames hnamed
  have hparse := Names.parse_at hn hr
  have hfound : found.IsListed people tags := by
    apply Entry.isListed_of_parse hnames
    rw [hparse]
    exact List.mem_singleton_self _
  rw [hparse, h.eq_of_same hfound hlisted hsame]

theorem reaches_person_iff (hnames : Names.of? people tags = some names) {p : Person} (hp : p ∈ people)
    (hname : p.name = .str name) : names.Reaches (.person p.id) ↔ isMentionable name = true := by
  simp only [Names.reaches_iff hnames, h.isNamed_person_iff hp]
  constructor
  · rintro ⟨other, hn, hother⟩
    cases hname.symm.trans hother
    exact hn
  · exact fun hn => ⟨name, hn, hname⟩

theorem reaches_tag_iff (hnames : Names.of? people tags = some names) {g : Tag} (hg : g ∈ tags)
    (hname : g.name = .str name) : names.Reaches (.tag g.id) ↔
      isMentionable name = true ∧ ∀ p ∈ people, p.name ≠ g.name := by
  simp only [Names.reaches_iff hnames, h.isNamed_tag_iff hg]
  constructor
  · rintro ⟨other, hn, hother, hnobody⟩
    cases hname.symm.trans hother
    exact ⟨hn, hnobody⟩
  · exact fun ⟨hn, hnobody⟩ => ⟨name, hn, hname, hnobody⟩

end Coherent

/-! ## Warnings -/

namespace Load
variable {v : Value} {r : Request} {kind : Text}

/-- What is told of a name that is a text. -/
def unmentionableText (kind name : Text) : Text :=
  kind ++ " name " ++ name.quoted ++ " contains whitespace, brackets or '@' " ++
    "and cannot be mentioned in relations."

theorem unmentionable_str : unmentionable kind (.str name) = .ok (unmentionableText kind name) := rfl

theorem unmentionableText_inj {s t : Text} :
    unmentionableText kind s = unmentionableText kind t ↔ s = t := by
  refine ⟨fun h => ?_, fun h => congrArg _ h⟩
  have hquoted := List.append_cancel_right (List.append_cancel_right h)
  exact Text.quoted_inj.1 (List.append_cancel_left hquoted)

/-- A warning of one kind is none of another kind, if they begin with different letters. -/
theorem unmentionableText_not_mem {other : Text} {c d : CodePoint} (hkind : kind.head? = some c)
    (hother : other.head? = some d) (hne : c ≠ d) {labels : List Value} {ws : List Text}
    (h : labels.mapM (unmentionable other) = .ok ws) : unmentionableText kind name ∉ ws := by
  intro hw
  obtain ⟨n, -, hn⟩ := exists_of_mem_right (mapM_eq_ok_iff.1 h) hw
  have hhead : (unmentionableText kind name).head? = some c :=
    head?_of_unmentionable hkind unmentionable_str
  rw [head?_of_unmentionable hother hn, Option.some.injEq] at hhead
  exact hne hhead.symm

/-- Among the warnings of texts of one kind are those of the texts that cannot be mentioned. -/
theorem mem_unfit_iff {α : Type} {label : α → Value} {xs : List α} {ws : List Text}
    (hlabels : ∀ x ∈ xs, ∃ t : Text, label x = .str t)
    (h : ((xs.map label).filter fun n => !canMention n).mapM (unmentionable kind) = .ok ws) :
    unmentionableText kind name ∈ ws ↔ isMentionable name = false ∧ ∃ x ∈ xs, label x = .str name := by
  constructor
  · intro hw
    obtain ⟨n, hn, hwarned⟩ := exists_of_mem_right (mapM_eq_ok_iff.1 h) hw
    obtain ⟨hmem, hunfit⟩ := List.mem_filter.1 hn
    obtain ⟨x, hx, rfl⟩ := List.mem_map.1 hmem
    obtain ⟨t, ht⟩ := hlabels x hx
    rw [ht, unmentionable_str, Except.ok.injEq, unmentionableText_inj] at hwarned
    rw [ht, hwarned] at hunfit
    exact ⟨by simpa [canMention] using hunfit, x, hx, hwarned ▸ ht⟩
  · rintro ⟨hunfit, x, hx, hlabel⟩
    have hmem : Value.str name ∈ (xs.map label).filter fun n => !canMention n := by
      rw [List.mem_filter, ← hlabel]
      refine ⟨List.mem_map_of_mem hx, ?_⟩
      rw [hlabel]
      simpa [canMention] using hunfit
    obtain ⟨w, hw, hwarned⟩ := exists_of_mem_of_mapM_eq_ok h hmem
    rw [unmentionable_str, Except.ok.injEq] at hwarned
    rwa [hwarned]

/-- Warnings that begin like those of names are among these. -/
theorem mem_warnings_iff (h : Request.load v = .ok r) : ∃ ofPeople ofTags,
    ((r.people.map Person.name).filter fun n => !canMention n).mapM (unmentionable "Person") = .ok ofPeople ∧
    ((r.tags.map Tag.name).filter fun n => !canMention n).mapM (unmentionable "Tag") = .ok ofTags ∧
    ∀ w, w.head? = some (.char 'P') ∨ w.head? = some (.char 'T') →
      (w ∈ r.warnings ↔ w ∈ ofPeople ∨ w ∈ ofTags) := by
  obtain ⟨n, -, h⟩ := bind_eq_ok_iff.1 h
  obtain ⟨tags, people, unfit, relations, warnings, teams, -, -, -, hunfit, hrelations, -, rfl⟩ :=
    request_eq_ok_iff.1 h
  obtain ⟨ofPeople, hpeople, hunfit⟩ := bind_eq_ok_iff.1 hunfit
  obtain ⟨ofTags, htags, hunfit⟩ := bind_eq_ok_iff.1 hunfit
  cases hunfit
  refine ⟨ofPeople, ofTags, hpeople, htags, fun w hw => ?_⟩
  have hmalformed : w ∉ if n.wellFormed then [] else [malformedPeople] := by
    intro hmem
    split at hmem
    · cases hmem
    · rw [List.mem_singleton.1 hmem, head?_malformedPeople] at hw
      exact absurd hw (by decide)
  have hrelation : w ∉ warnings := by
    intro hmem
    rw [head?_of_mem_relationsFrom hrelations hmem] at hw
    exact absurd hw (by decide)
  rw [List.mem_append, List.mem_append, List.mem_append]
  tauto

theorem warned_person_iff (h : Request.load v = .ok r) : unmentionableText "Person" name ∈ r.warnings ↔
    isMentionable name = false ∧ ∃ p ∈ r.people, p.name = .str name := by
  obtain ⟨ofPeople, ofTags, hpeople, htags, hmem⟩ := mem_warnings_iff h
  have htag : unmentionableText "Person" name ∉ ofTags :=
    unmentionableText_not_mem rfl rfl (by decide) htags
  have htexts := (Request.coherent_of_load h).lists.personTexts
  rw [hmem _ (Or.inl rfl), or_iff_left htag,
    mem_unfit_iff (fun p hp => (htexts p hp).imp fun _ => And.left) hpeople]

theorem warned_tag_iff (h : Request.load v = .ok r) : unmentionableText "Tag" name ∈ r.warnings ↔
    isMentionable name = false ∧ ∃ g ∈ r.tags, g.name = .str name := by
  obtain ⟨ofPeople, ofTags, hpeople, htags, hmem⟩ := mem_warnings_iff h
  have hperson : unmentionableText "Tag" name ∉ ofPeople :=
    unmentionableText_not_mem rfl rfl (by decide) hpeople
  have htexts := (Request.coherent_of_load h).lists.tagTexts
  rw [hmem _ (Or.inr rfl), or_iff_right hperson,
    mem_unfit_iff (fun g hg => (htexts g hg).imp fun _ => And.left) htags]

end Load

/-! ## Requests -/

namespace Request
variable {v : Value} {r : Request}

/-- **The warnings about names are exact.** Some text mentions a person of a request that loads if and
only if there is no warning that the name of the person cannot be mentioned; some text mentions a tag if
and only if there is no such warning about the tag and no person has its name. An `@` and the name are
then this mention alone. -/
theorem reaches_iff_not_warned (h : Request.load v = .ok r) :
    ∃ names, Names.of? r.people r.tags = some names ∧
      (∀ p ∈ r.people, ∃ name w, p.name = .str name ∧ Load.unmentionable "Person" p.name = .ok w ∧
        (names.Reaches (.person p.id) ↔ w ∉ r.warnings) ∧
        (names.Reaches (.person p.id) →
          Entry.parse names (CodePoint.char '@' :: name) = [.ref (.person p.id)])) ∧
      ∀ g ∈ r.tags, ∃ name w, g.name = .str name ∧ Load.unmentionable "Tag" g.name = .ok w ∧
        (names.Reaches (.tag g.id) ↔ w ∉ r.warnings ∧ ∀ p ∈ r.people, p.name ≠ g.name) ∧
        (names.Reaches (.tag g.id) →
          Entry.parse names (CodePoint.char '@' :: name) = [.ref (.tag g.id)]) := by
  have hlists := (coherent_of_load h).lists
  obtain ⟨names, hnames⟩ := hlists.exists_names
  refine ⟨names, hnames, fun p hp => ?_, fun g hg => ?_⟩
  · obtain ⟨name, hname, -⟩ := hlists.personTexts p hp
    have hreaches := hlists.reaches_person_iff hnames hp hname
    refine ⟨name, Load.unmentionableText "Person" name, hname, hname ▸ Load.unmentionable_str, ?_, ?_⟩
    · have hsome : ∃ q ∈ r.people, q.name = .str name := ⟨p, hp, hname⟩
      rw [hreaches, Load.warned_person_iff h, and_iff_left hsome, Bool.not_eq_false]
    · intro hreach
      exact hlists.parse_mention hnames ⟨p, hp, rfl⟩ (hreaches.1 hreach)
        ((hlists.isNamed_person_iff hp).2 hname)
  · obtain ⟨name, hname, -⟩ := hlists.tagTexts g hg
    have hreaches := hlists.reaches_tag_iff hnames hg hname
    refine ⟨name, Load.unmentionableText "Tag" name, hname, hname ▸ Load.unmentionable_str, ?_, ?_⟩
    · have hsome : ∃ f ∈ r.tags, f.name = .str name := ⟨g, hg, hname⟩
      rw [hreaches, Load.warned_tag_iff h, and_iff_left hsome, Bool.not_eq_false]
    · intro hreach
      obtain ⟨hn, hnobody⟩ := hreaches.1 hreach
      exact hlists.parse_mention hnames ⟨g, hg, rfl⟩ hn ((hlists.isNamed_tag_iff hg).2 ⟨hname, hnobody⟩)

/-- Ann Lee, whose name has a blank, and Bob, who is tall and carries a tag that is named as he is. -/
def leeDocument : Value :=
  .map [(.str "people", .list [.str "Ann Lee",
      .map [(.str "name", .str "Bob"), (.str "tags", .list [.str "Bob", .str "tall"])]]),
    (.str "relations", .list [.str "@tall"])]

def lee : Request where
  people := [⟨.int 0, .str "Ann Lee", []⟩, ⟨.int 1, .str "Bob", [.int 0, .int 1]⟩]
  tags := [⟨.int 0, .str "Bob"⟩, ⟨.int 1, .str "tall"⟩]
  relations := [⟨.int 1, [.ref (.tag (.int 1))], .int 1⟩]
  teamCount := .int 2
  warnings := [Load.unmentionableText "Person" "Ann Lee"]

theorem load_lee : Request.load leeDocument = .ok lee := by with_unfolding_all rfl

/-- No text mentions Ann Lee or the tag with the name of Bob. -/
theorem reaches_lee : Request.load leeDocument = .ok lee ∧
    ∃ names, Names.of? lee.people lee.tags = some names ∧ ¬ names.Reaches (.person (.int 0)) ∧
      ¬ names.Reaches (.tag (.int 0)) ∧ Entry.parse names "@tall" = [.ref (.tag (.int 1))] := by
  obtain ⟨names, hnames, hpeople, htags⟩ := reaches_iff_not_warned load_lee
  refine ⟨load_lee, names, hnames, ?_, ?_, ?_⟩
  · obtain ⟨name, w, hname, hw, hiff, -⟩ := hpeople _ (List.getElem_mem (n := 0) (by decide))
    cases hname
    cases hw
    exact fun hreach => hiff.1 hreach (List.mem_singleton_self _)
  · obtain ⟨name, w, hname, hw, hiff, -⟩ := htags _ (List.getElem_mem (n := 0) (by decide))
    exact fun hreach => (hiff.1 hreach).2 _ (List.getElem_mem (n := 1) (by decide)) rfl
  · obtain ⟨name, w, hname, hw, hiff, hparse⟩ := htags _ (List.getElem_mem (n := 1) (by decide))
    cases hname
    cases hw
    exact hparse (hiff.2 (by decide +kernel))

end Request
end BalancedTeams
