import BalancedTeams.Proofs.Config.Coherence
import BalancedTeams.Proofs.Config.Loading

/-!
# What is known of requests that load

* `Load.coherent_of_people` : people and tags that load belong together;
* `Request.Coherent`, `Request.coherent_of_load` : what holds of a request after it has loaded;
* `Request.load_coherent` : the same, with the entries the relations are read from and the formulas
  they have under all policies;
* `Request.tall`, `Request.half` : two requests that load; in the second one a label is missing.
-/

namespace BalancedTeams
namespace Load
variable {known : List Tag} {entries : List Config.NormalPerson} {people : List Person}

/-! ## People and tags -/

theorem ids_names_of_isPerson (h : List.Forall₂ (IsPerson known) entries people) :
    people.map Person.id = entries.map Config.NormalPerson.id ∧
      people.map Person.name = (entries.map Config.NormalPerson.name).map Value.str := by
  induction h with
  | nil => exact ⟨rfl, rfl⟩
  | cons hp _ ih =>
    obtain ⟨hids, hnames⟩ := ih
    simp only [List.map_cons, hids, hnames, hp.id, hp.name, and_self]

theorem tagKey_eq_ok_iff {name : Text} {k : Key} :
    tagKey known name = .ok k ↔ ∃ g, tagNamed? known name = some g ∧ g.id.key? = some k := by
  unfold tagKey
  cases tagNamed? known name with
  | none => exact ⟨nofun, fun ⟨_, h, _⟩ => nomatch h⟩
  | some g =>
    rw [key_eq_ok_iff]
    exact ⟨fun hk => ⟨g, rfl, hk⟩, fun ⟨_, h, hk⟩ => by cases h; exact hk⟩

theorem name_of_tagNamed? {name : Text} {g : Tag} (h : tagNamed? known name = some g) :
    g ∈ known ∧ g.name = .str name :=
  ⟨List.mem_of_find?_eq_some h, by simpa using List.find?_some h⟩

theorem mem_tags_iff {entry : Config.NormalPerson} {p : Person} (h : IsPerson known entry p) {k : Key} :
    k ∈ p.tags ↔ ∃ name ∈ entry.tags, ∃ g, tagNamed? known name = some g ∧ g.id.key? = some k := by
  have hall := mapM_eq_ok_iff.1 h.tags
  constructor
  · intro hk
    obtain ⟨name, hname, hkey⟩ := exists_of_mem_right hall hk
    exact ⟨name, hname, tagKey_eq_ok_iff.1 hkey⟩
  · rintro ⟨name, hname, hg⟩
    obtain ⟨l, hl, hkey⟩ := exists_of_mem_of_mapM_eq_ok h.tags hname
    cases hkey.symm.trans (tagKey_eq_ok_iff.2 hg)
    exact hl

/-- People and tags that load from a normal form belong together. -/
theorem coherent_of_people {v : Value} {n : Config.Normal} {tags : List Tag} (hn : Config.normal v = .ok n)
    (htags : Load.tags [] n.tags = .ok tags) (hpeople : Load.people tags [] [] n.people = .ok people) :
    Coherent people tags := by
  obtain ⟨htagIds, hlist⟩ := tags_eq_ok_iff.1 htags
  obtain ⟨hids, hnames, hall⟩ := people_eq_ok_iff.1 hpeople
  obtain ⟨hmapIds, hmapNames⟩ := ids_names_of_isPerson hall
  have htidy := Config.tidy_of_normal hn
  have hstr : Function.Injective Value.str := fun _ _ h => Scalar.str.inj (Value.scalar.inj h)
  have hmapTagIds : tags.map Tag.id = n.tags.map Config.NormalTag.id := by simp [hlist]
  have hmapTagNames : tags.map Tag.name = (n.tags.map Config.NormalTag.name).map Value.str := by
    simp [hlist]
  have htagNames : (tags.map Tag.name).Nodup := by
    rw [hmapTagNames]
    exact (Config.nodup_tags_of_normal hn).map hstr
  have hcarrier : ∀ g ∈ tags, ∃ name, g.name = .str name ∧ ∃ e ∈ n.people, name ∈ e.tags := by
    intro g hg
    have hgname : g.name ∈ (n.tags.map Config.NormalTag.name).map Value.str :=
      hmapTagNames ▸ List.mem_map_of_mem hg
    obtain ⟨name, hname, heq⟩ := List.mem_map.1 hgname
    exact ⟨name, heq.symm, (Config.mem_tags_of_normal hn).1 hname⟩
  constructor
  · rw [hmapIds]
    exact newKeys_nil_iff.1 hids
  · rw [hmapNames]
    exact hnames.1.map hstr
  · intro p hp
    obtain ⟨e, he, hep⟩ := exists_of_mem_right hall hp
    exact ⟨e.name, hep.name, (htidy e he).1⟩
  · rw [hmapTagIds]
    exact newKeys_nil_iff.1 htagIds
  · exact htagNames
  · intro g hg
    obtain ⟨name, hgname, e, he, hname⟩ := hcarrier g hg
    exact ⟨name, hgname, (htidy e he).2 name hname⟩
  · intro p hp k hk
    obtain ⟨e, -, hep⟩ := exists_of_mem_right hall hp
    obtain ⟨name, -, g, hg, hgk⟩ := (mem_tags_iff hep).1 hk
    exact ⟨g, (name_of_tagNamed? hg).1, hgk⟩
  · intro g hg
    obtain ⟨name, hgname, e, he, hname⟩ := hcarrier g hg
    obtain ⟨p, hp, hep⟩ := exists_of_mem_right hall.flip he
    obtain ⟨k, -, hkey⟩ := exists_of_mem_of_mapM_eq_ok hep.tags hname
    obtain ⟨g', hfind, hgk⟩ := tagKey_eq_ok_iff.1 hkey
    obtain ⟨hmem, hgname'⟩ := name_of_tagNamed? hfind
    obtain rfl := List.inj_on_of_nodup_map htagNames hmem hg (hgname'.trans hgname.symm)
    exact ⟨p, hp, k, (mem_tags_iff hep).2 ⟨name, hname, g', hfind, hgk⟩, hgk⟩

end Load

/-! ## Requests -/

namespace Request

/-- Somebody is to be placed, people and tags belong together, relations have distinct ids and
priorities, their tokens form expressions, and they mention people and tags of the lists; the team
count is an integer, and the policy is one of the three. -/
structure Coherent (r : Request) : Prop where
  inhabited : r.people ≠ []
  lists : BalancedTeams.Coherent r.people r.tags
  relationIds : DistinctKeys (r.relations.map Relation.id)
  priorities : ∀ rel ∈ r.relations, ∃ n : Int, rel.priority = .int n ∧ 1 ≤ n
  tokens : ∀ rel ∈ r.relations, ∃ ts, relationTokens rel.entries = .ok ts
  mentions : ∀ rel ∈ r.relations, ∀ ref, .ref ref ∈ rel.entries → ref.IsListed r.people r.tags
  teamCount : ∃ n : Int, r.teamCount = .int n
  policy : ∃ policy : EmptyTag, r.emptyTag = policy.name

variable {v : Value} {r : Request}

theorem coherent_of_load (h : Request.load v = .ok r) : r.Coherent := by
  obtain ⟨n, hn, h⟩ := bind_eq_ok_iff.1 h
  obtain ⟨tags, people, unfit, relations, warnings, teams, htags, hpeople, hsome, -, hrelations, -, rfl⟩ :=
    Load.request_eq_ok_iff.1 h
  obtain ⟨hids, hall⟩ := Load.isRead_relations hrelations
  have hread : ∀ rel ∈ relations, (∃ n : Int, rel.priority = .int n ∧ 1 ≤ n) ∧
      (∃ ts, relationTokens rel.entries = .ok ts) ∧
      ∀ ref, .ref ref ∈ rel.entries → ref.IsListed people tags := by
    intro rel hrel
    obtain ⟨item, -, fields, text, names, -, -, -, hnames, hentries, htokens, hpriority⟩ :=
      exists_of_mem_right hall hrel
    refine ⟨hpriority, htokens, fun ref href => ?_⟩
    rw [hentries] at href
    exact Entry.isListed_of_parse hnames href
  constructor
  · exact hsome
  · exact Load.coherent_of_people hn htags hpeople
  · exact hids
  · exact fun rel hrel => (hread rel hrel).1
  · exact fun rel hrel => (hread rel hrel).2.1
  · exact fun rel hrel => (hread rel hrel).2.2
  · exact ⟨teams, rfl⟩
  · exact ⟨n.settings.emptyTag, rfl⟩

/-- The relations are read one by one from the entries of the normal form. -/
theorem isRead_of_load (h : Request.load v = .ok r) : ∃ n, Config.normal v = .ok n ∧
    List.Forall₂ (Load.IsRead r.people r.tags) n.relations r.relations := by
  obtain ⟨n, hn, h⟩ := bind_eq_ok_iff.1 h
  obtain ⟨tags, people, unfit, relations, warnings, teams, -, -, -, -, hrelations, -, rfl⟩ :=
    Load.request_eq_ok_iff.1 h
  exact ⟨n, hn, (Load.isRead_relations hrelations).2⟩

/-- **A request that loads is coherent.** Its relations are those of the normal form in order. Each of
them has one formula under all policies, made of people only, if everybody it is about has a text for
labels, and has none under any policy otherwise. -/
theorem load_coherent (h : Request.load v = .ok r) : r.Coherent ∧
    (∃ n, Config.normal v = .ok n ∧
      List.Forall₂ (Load.IsRead r.people r.tags) n.relations r.relations) ∧
    ∀ rel ∈ r.relations,
      (HaveLabelTexts r.people rel.entries → ∃ f : Formula, f.IsOver r.people ∧
        ∀ policy : EmptyTag, ∃ ctx, Context.of? r.people r.tags policy.name = .ok ctx ∧
          ctx.relation rel.entries = .ok f) ∧
      (¬ HaveLabelTexts r.people rel.entries → ∀ policy : EmptyTag,
        ∃ ctx, Context.of? r.people r.tags policy.name = .ok ctx ∧
          ∀ f, ctx.relation rel.entries ≠ .ok f) := by
  have hr := coherent_of_load h
  refine ⟨hr, isRead_of_load h, fun rel hrel => ⟨fun htexts => ?_, fun htexts policy => ?_⟩⟩
  · obtain ⟨ts, hts⟩ := hr.tokens rel hrel
    obtain ⟨f, hover, -, hf⟩ := hr.lists.exists_relation hts (hr.mentions rel hrel) htexts
    refine ⟨f, hover, fun policy => ?_⟩
    obtain ⟨ctx, hctx⟩ := hr.lists.exists_context policy
    exact ⟨ctx, hctx, hf hctx⟩
  · obtain ⟨ctx, hctx⟩ := hr.lists.exists_context policy
    refine ⟨ctx, hctx, fun f hf => htexts ?_⟩
    exact ((hr.lists.exists_relation_iff hctx (hr.mentions rel hrel)).1 ⟨f, hf⟩).2

/-! ## Two documents -/

/-- Ann and Bob, of whom Bob is tall, and a tall person in every team if possible. -/
def tallDocument : Value :=
  .map [(.str "people", .list [.str " Ann ",
      .map [(.str "name", .str "Bob"), (.str "tags", .list [.str "tall"])]]),
    (.str "relations", .list [.str "@tall"])]

def tall : Request where
  people := [⟨.int 0, .str "Ann", []⟩, ⟨.int 1, .str "Bob", [.int 0]⟩]
  tags := [⟨.int 0, .str "tall"⟩]
  relations := [⟨.int 1, [.ref (.tag (.int 0))], .int 1⟩]
  teamCount := .int 2

theorem load_tall : Request.load tallDocument = .ok tall := by with_unfolding_all rfl

theorem haveLabelTexts_tall (entries : List Entry) : HaveLabelTexts tall.people entries := by
  have hall : ∀ p ∈ tall.people, p.id.isWritable = true ∧ p.id.plain.chars?.isSome = true := by
    decide +kernel
  intro ref _ p hp _
  exact Value.hasLabelText_iff.2 (hall p hp)

theorem load_coherent_tall : tall.Coherent ∧ ∀ rel ∈ tall.relations, ∃ f : Formula, f.IsOver tall.people ∧
    ∀ policy : EmptyTag, ∃ ctx, Context.of? tall.people tall.tags policy.name = .ok ctx ∧
      ctx.relation rel.entries = .ok f := by
  obtain ⟨hr, -, hrelations⟩ := load_coherent load_tall
  exact ⟨hr, fun rel hrel => (hrelations rel hrel).1 (haveLabelTexts_tall _)⟩

/-- Ann, whose id is half of a surrogate pair. -/
def halfDocument : Value :=
  .map [(.str "people", .list [.map [(.str "id", .str [.half 0]), (.str "name", .str "Ann")]]),
    (.str "relations", .list [.str "@Ann"])]

def half : Request where
  people := [⟨.str [.half 0], .str "Ann", []⟩]
  relations := [⟨.int 1, [.ref (.person (.str [.half 0]))], .int 1⟩]
  teamCount := .int 2

theorem load_half : Request.load halfDocument = .ok half := by with_unfolding_all rfl

theorem relation_half (policy : EmptyTag) :
    ∃ ctx, Context.of? half.people half.tags policy.name = .ok ctx ∧
      ctx.relation [.ref (.person (.str [.half 0]))] = .error (.text .loneHalf) := by
  refine ⟨⟨half.people, [.str [.half 0]], ⟨[]⟩, policy⟩, ?_, ?_⟩
  · cases policy <;> rfl
  · with_unfolding_all rfl

/-- An id without an encoding: the request loads, but its relation has no formula. -/
theorem no_formula_of_half : Request.load halfDocument = .ok half ∧ ∃ rel ∈ half.relations,
    ∀ policy : EmptyTag, ∃ ctx, Context.of? half.people half.tags policy.name = .ok ctx ∧
      ctx.relation rel.entries = .error (.text .loneHalf) :=
  ⟨load_half, _, List.mem_cons_self, relation_half⟩

end Request
end BalancedTeams
