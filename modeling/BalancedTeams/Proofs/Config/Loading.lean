import BalancedTeams.Config.Load
import BalancedTeams.Proofs.Model.Checks

/-!
# What loading checks

* `Load.tags_eq_ok_iff`, `Load.people_eq_ok_iff` : the tags and the people that load;
* `Load.relation_eq_ok_iff`, `Load.IsRead` : the relation that an entry is read as;
* `Load.isRead_relations` : relations that load have distinct ids, and are read entry by entry;
* `Load.exists_relationsFrom_append` : how reading goes on after entries that load;
* `Load.head?_of_unmentionable`, `Load.head?_of_mem_relationsFrom` : the letters that warnings begin with;
* `Load.request_eq_ok_iff` : the requests that load, part by part.
-/

namespace BalancedTeams
namespace Load

/-! ## Tags and people -/

theorem tags_eq_ok_iff {seen : List Key} {entries : List Config.NormalTag} {tags : List Tag} :
    Load.tags seen entries = .ok tags ↔ NewKeys seen (entries.map Config.NormalTag.id) ∧
      tags = entries.map fun t => ⟨t.id, .str t.name⟩ := by
  induction entries generalizing seen tags with
  | nil =>
    rw [Load.tags, Except.ok.injEq]
    exact ⟨fun h => ⟨⟨.nil, nofun⟩, h.symm⟩, fun h => h.2.symm⟩
  | cons t rest ih =>
    rw [List.map_cons, newKeys_cons_iff, Load.tags, bind_eq_ok_iff]
    constructor
    · rintro ⟨k, hk, h⟩
      dsimp only at h
      split at h
      · exact absurd h shown_ne_ok
      · next hnew =>
        obtain ⟨more, hmore, h⟩ := bind_eq_ok_iff.1 h
        cases h
        obtain ⟨hrest, rfl⟩ := ih.1 hmore
        exact ⟨⟨k, key_eq_ok_iff.1 hk, by simpa using hnew, hrest⟩, rfl⟩
    · rintro ⟨⟨k, hk, hnew, hrest⟩, rfl⟩
      refine ⟨k, key_eq_ok_iff.2 hk, ?_⟩
      dsimp only
      rw [if_neg (by simpa using hnew)]
      exact bind_eq_ok_iff.2 ⟨_, ih.2 ⟨hrest, rfl⟩, rfl⟩

/-- The person that an entry of the normal form is loaded as. -/
structure IsPerson (known : List Tag) (entry : Config.NormalPerson) (p : Person) : Prop where
  id : p.id = entry.id
  name : p.name = .str entry.name
  tags : entry.tags.mapM (tagKey known) = .ok p.tags

theorem isPerson_iff {known : List Tag} {entry : Config.NormalPerson} {p : Person} :
    IsPerson known entry p ↔ ∃ keys, entry.tags.mapM (tagKey known) = .ok keys ∧
      p = ⟨entry.id, .str entry.name, keys⟩ := by
  constructor
  · rintro ⟨hid, hname, htags⟩
    refine ⟨p.tags, htags, ?_⟩
    rw [← hid, ← hname]
  · rintro ⟨keys, hkeys, rfl⟩
    exact ⟨rfl, rfl, hkeys⟩

def NewNames (seen names : List Text) : Prop := names.Nodup ∧ ∀ n ∈ names, n ∉ seen

theorem newNames_cons_iff {seen names : List Text} {n : Text} :
    NewNames seen (n :: names) ↔ n ∉ seen ∧ NewNames (n :: seen) names := by
  unfold NewNames
  rw [List.nodup_cons, List.forall_mem_cons]
  constructor
  · rintro ⟨⟨hn, hnodup⟩, hseen, hrest⟩
    refine ⟨hseen, hnodup, fun m hm hmem => ?_⟩
    rcases List.mem_cons.1 hmem with rfl | hmem
    · exact hn hm
    · exact hrest m hm hmem
  · rintro ⟨hseen, hnodup, hrest⟩
    refine ⟨⟨fun hn => ?_, hnodup⟩, hseen, fun m hm hmem => ?_⟩
    · exact hrest n hn List.mem_cons_self
    · exact hrest m hm (List.mem_cons_of_mem _ hmem)

theorem people_eq_ok_iff {known : List Tag} {ids : List Key} {names : List Text}
    {entries : List Config.NormalPerson} {people : List Person} :
    Load.people known ids names entries = .ok people ↔
      NewKeys ids (entries.map Config.NormalPerson.id) ∧
        NewNames names (entries.map Config.NormalPerson.name) ∧
        List.Forall₂ (IsPerson known) entries people := by
  induction entries generalizing ids names people with
  | nil =>
    rw [Load.people, Except.ok.injEq]
    constructor
    · rintro rfl
      exact ⟨⟨.nil, nofun⟩, ⟨List.nodup_nil, nofun⟩, .nil⟩
    · rintro ⟨-, -, hall⟩
      cases hall
      rfl
  | cons p rest ih =>
    rw [List.map_cons, List.map_cons, newKeys_cons_iff, newNames_cons_iff, List.forall₂_cons_left_iff,
      Load.people, bind_eq_ok_iff]
    constructor
    · rintro ⟨k, hk, h⟩
      dsimp only at h
      split at h
      · exact absurd h shown_ne_ok
      · next hnew =>
        split at h
        · cases h
        · next hname =>
          obtain ⟨keys, hkeys, h⟩ := bind_eq_ok_iff.1 h
          obtain ⟨more, hmore, h⟩ := bind_eq_ok_iff.1 h
          cases h
          obtain ⟨hids, hnames, hall⟩ := ih.1 hmore
          exact ⟨⟨k, key_eq_ok_iff.1 hk, by simpa using hnew, hids⟩,
            ⟨by simpa using hname, hnames⟩, _, more, isPerson_iff.2 ⟨keys, hkeys, rfl⟩, hall, rfl⟩
    · rintro ⟨⟨k, hk, hnew, hids⟩, ⟨hname, hnames⟩, q, more, hq, hall, rfl⟩
      obtain ⟨keys, hkeys, rfl⟩ := isPerson_iff.1 hq
      refine ⟨k, key_eq_ok_iff.2 hk, ?_⟩
      dsimp only
      rw [if_neg (by simpa using hnew), if_neg (by simpa using hname)]
      exact bind_eq_ok_iff.2 ⟨keys, hkeys, bind_eq_ok_iff.2 ⟨more, ih.2 ⟨hids, hnames, hall⟩, rfl⟩⟩

/-! ## Relations -/

theorem refuse_ne_ok {index : Nat} {shown : Value} {n : Int} : priority.refuse index shown ≠ .ok n := by
  intro h
  obtain ⟨s, -, hs⟩ := bind_eq_ok_iff.1 h
  cases hs

theorem one_le_of_priority {index : Nat} {given : Option Value} {n : Int}
    (h : priority index given = .ok n) : 1 ≤ n := by
  unfold priority at h
  split at h
  · cases h
  · dsimp only at h
    split at h
    · split at h
      · next hlow =>
        cases h
        exact hlow
      · exact absurd h refuse_ne_ok
    · exact absurd h refuse_ne_ok

theorem textOf_eq_ok_iff {index : Nat} {fields : Config} {t : Text} :
    textOf index fields = .ok t ↔ Value.field? "text" fields = some (.str t) ∧ t.strip ≠ [] := by
  unfold textOf
  split
  · next u hu =>
    rw [hu]
    split
    · next hblank =>
      rw [List.isEmpty_iff] at hblank
      constructor
      · nofun
      · rintro ⟨h, hne⟩
        cases h
        exact absurd hblank hne
    · next hblank =>
      rw [List.isEmpty_iff] at hblank
      constructor
      · rintro ⟨⟩
        exact ⟨rfl, hblank⟩
      · rintro ⟨⟨⟩, -⟩
        rfl
  · next hother => exact ⟨nofun, fun h => absurd h.1 (hother t)⟩

variable {people : List Person} {tags : List Tag} {seen : List Key} {next : Int} {index : Nat}

theorem relation_eq_ok_iff {v : Value} {r : Read} :
    relation people tags seen next index v = .ok r ↔ ∃ fields text k n names ts, v = .map fields ∧
      textOf index fields = .ok text ∧ (relationId next fields).1.key? = some k ∧ k ∉ seen ∧
      priority index (Value.field? "priority" fields) = .ok n ∧ Names.of? people tags = some names ∧
      relationTokens (Entry.parse names text) = .ok ts ∧
      r = ⟨⟨(relationId next fields).1, Entry.parse names text, .int n⟩, k,
        (sharedNames people tags (Entry.parse names text)).map (shadowed index),
        (relationId next fields).2⟩ := by
  unfold relation
  constructor
  · intro h
    split at h
    · next fields =>
      obtain ⟨text, htext, h⟩ := bind_eq_ok_iff.1 h
      obtain ⟨k, hk, h⟩ := bind_eq_ok_iff.1 h
      dsimp only at h
      split at h
      · exact absurd h shown_ne_ok
      · next hnew =>
        obtain ⟨n, hn, h⟩ := bind_eq_ok_iff.1 h
        obtain ⟨names, hnames, h⟩ := bind_eq_ok_iff.1 h
        split at h
        · cases h
        · next ts hts =>
          cases h
          exact ⟨fields, text, k, n, names, ts, rfl, htext, key_eq_ok_iff.1 hk, by simpa using hnew, hn,
            orNoKey_eq_ok_iff.1 hnames, hts, rfl⟩
    · cases h
  · rintro ⟨fields, text, k, n, names, ts, rfl, htext, hk, hnew, hn, hnames, hts, rfl⟩
    refine bind_eq_ok_iff.2 ⟨text, htext, bind_eq_ok_iff.2 ⟨k, key_eq_ok_iff.2 hk, ?_⟩⟩
    dsimp only
    rw [if_neg (by simpa using hnew)]
    refine bind_eq_ok_iff.2 ⟨n, hn, bind_eq_ok_iff.2 ⟨names, orNoKey_eq_ok_iff.2 hnames, ?_⟩⟩
    rw [hts]
    rfl

/-- The relation is what an entry is read as: its entries are those of the text, which form an
expression, and its id is the given one if there is one. -/
def IsRead (people : List Person) (tags : List Tag) (v : Value) (r : Relation) : Prop :=
  ∃ fields text names, v = .map fields ∧ Value.field? "text" fields = some (.str text) ∧
    (∀ id, Config.given? (Value.field? "id" fields) = some id → r.id = id) ∧
    Names.of? people tags = some names ∧ r.entries = Entry.parse names text ∧
    (∃ ts, relationTokens r.entries = .ok ts) ∧ ∃ n : Int, r.priority = .int n ∧ 1 ≤ n

theorem isRead_of_relation {v : Value} {r : Read}
    (h : relation people tags seen next index v = .ok r) :
    IsRead people tags v r.relation ∧ r.relation.id.key? = some r.key ∧ r.key ∉ seen := by
  obtain ⟨fields, text, k, n, names, ts, rfl, htext, hk, hnew, hn, hnames, hts, rfl⟩ :=
    relation_eq_ok_iff.1 h
  refine ⟨⟨fields, text, names, rfl, (textOf_eq_ok_iff.1 htext).1, fun id hid => ?_, hnames, rfl,
    ⟨ts, hts⟩, n, rfl, one_le_of_priority hn⟩, hk, hnew⟩
  show (relationId next fields).1 = id
  unfold relationId
  rw [hid]

theorem relationsFrom_cons_eq_ok_iff {v : Value} {rest : List Value} {a : List Relation × List Text} :
    relationsFrom people tags seen next index (v :: rest) = .ok a ↔ ∃ r more,
      relation people tags seen next index v = .ok r ∧
      relationsFrom people tags (r.key :: seen) r.next (index + 1) rest = .ok more ∧
      a = (r.relation :: more.1, r.warnings ++ more.2) := by
  rw [relationsFrom, bind_eq_ok_iff]
  constructor
  · rintro ⟨r, hr, h⟩
    obtain ⟨more, hmore, h⟩ := bind_eq_ok_iff.1 h
    cases h
    exact ⟨r, more, hr, hmore, rfl⟩
  · rintro ⟨r, more, hr, hmore, rfl⟩
    exact ⟨r, hr, bind_eq_ok_iff.2 ⟨more, hmore, rfl⟩⟩

theorem isRead_relationsFrom {items : List Value} {a : List Relation × List Text}
    (h : relationsFrom people tags seen next index items = .ok a) :
    NewKeys seen (a.1.map Relation.id) ∧ List.Forall₂ (IsRead people tags) items a.1 := by
  induction items generalizing seen next index a with
  | nil =>
    cases h
    exact ⟨⟨.nil, nofun⟩, .nil⟩
  | cons v rest ih =>
    obtain ⟨r, more, hr, hmore, rfl⟩ := relationsFrom_cons_eq_ok_iff.1 h
    obtain ⟨hids, hall⟩ := ih hmore
    obtain ⟨hread, hkey, hnew⟩ := isRead_of_relation hr
    exact ⟨newKeys_cons_iff.2 ⟨r.key, hkey, hnew, hids⟩, .cons hread hall⟩

/-- Relations that load have distinct ids, and each is what its entry is read as. -/
theorem isRead_relations {items : List Value} {rs : List Relation} {warnings : List Text}
    (h : relations people tags items = .ok (rs, warnings)) :
    DistinctKeys (rs.map Relation.id) ∧ List.Forall₂ (IsRead people tags) items rs := by
  obtain ⟨hids, hall⟩ := isRead_relationsFrom h
  exact ⟨newKeys_nil_iff.1 hids, hall⟩

theorem exists_relationsFrom_append {items : List Value} {a : List Relation × List Text}
    (h : relationsFrom people tags seen next index items = .ok a) :
    ∃ seen' next', (∀ k, k ∈ seen' ↔ k ∈ seen ∨ ∃ r ∈ a.1, r.id.key? = some k) ∧
      ∀ rest, (∃ b, relationsFrom people tags seen next index (items ++ rest) = .ok b) ↔
        ∃ b, relationsFrom people tags seen' next' (index + items.length) rest = .ok b := by
  induction items generalizing seen next index a with
  | nil =>
    cases h
    exact ⟨seen, next, by simp, fun rest => Iff.rfl⟩
  | cons v items ih =>
    obtain ⟨r, more, hr, hmore, rfl⟩ := relationsFrom_cons_eq_ok_iff.1 h
    obtain ⟨-, hkey, -⟩ := isRead_of_relation hr
    obtain ⟨seen', next', hseen', hrest⟩ := ih hmore
    refine ⟨seen', next', fun k => ?_, fun rest => ?_⟩
    · rw [hseen', List.mem_cons, List.exists_mem_cons_iff, hkey, Option.some.injEq, eq_comm (a := k)]
      tauto
    · rw [List.length_cons, Nat.add_comm items.length, ← Nat.add_assoc, ← hrest]
      constructor
      · rintro ⟨b, hb⟩
        obtain ⟨r', more', hr', hmore', -⟩ := relationsFrom_cons_eq_ok_iff.1 hb
        cases hr.symm.trans hr'
        exact ⟨more', hmore'⟩
      · rintro ⟨b, hb⟩
        exact ⟨_, relationsFrom_cons_eq_ok_iff.2 ⟨r, b, hr, hb, rfl⟩⟩

/-! ## Warnings -/

theorem head?_malformedPeople : malformedPeople.head? = some (.char 'S') := rfl

theorem head?_of_unmentionable {kind : Text} {c : CodePoint} (hkind : kind.head? = some c) {name : Value}
    {w : Text} (h : unmentionable kind name = .ok w) : w.head? = some c := by
  obtain ⟨shown, -, h⟩ := bind_eq_ok_iff.1 h
  cases h
  cases kind with
  | nil => cases hkind
  | cons d rest => exact hkind

theorem head?_of_mem_unmentionableNames {unfit : List Text}
    (h : unmentionableNames people tags = .ok unfit) {w : Text} (hw : w ∈ unfit) :
    w.head? = some (.char 'P') ∨ w.head? = some (.char 'T') := by
  obtain ⟨ofPeople, hpeople, h⟩ := bind_eq_ok_iff.1 h
  obtain ⟨ofTags, htags, h⟩ := bind_eq_ok_iff.1 h
  cases h
  rcases List.mem_append.1 hw with hw | hw
  · obtain ⟨name, -, hname⟩ := exists_of_mem_right (mapM_eq_ok_iff.1 hpeople) hw
    exact Or.inl (head?_of_unmentionable rfl hname)
  · obtain ⟨name, -, hname⟩ := exists_of_mem_right (mapM_eq_ok_iff.1 htags) hw
    exact Or.inr (head?_of_unmentionable rfl hname)

theorem head?_of_mem_relationsFrom {items : List Value} {a : List Relation × List Text}
    (h : relationsFrom people tags seen next index items = .ok a) {w : Text} (hw : w ∈ a.2) :
    w.head? = some (.char 'r') := by
  induction items generalizing seen next index a with
  | nil =>
    cases h
    cases hw
  | cons v rest ih =>
    obtain ⟨r, more, hr, hmore, rfl⟩ := relationsFrom_cons_eq_ok_iff.1 h
    rcases List.mem_append.1 hw with hw | hw
    · obtain ⟨fields, text, k, n, names, ts, -, -, -, -, -, -, -, rfl⟩ := relation_eq_ok_iff.1 hr
      obtain ⟨name, -, rfl⟩ := List.mem_map.1 hw
      rfl
    · exact ih hmore hw

/-! ## Requests -/

theorem teamCount_eq_ok_iff {v : Value} {n : Int} : teamCount v = .ok n ↔ v = .int n := by
  unfold teamCount
  split
  · next m => simp
  · next hother =>
    refine ⟨fun h => ?_, fun h => absurd h (hother n)⟩
    obtain ⟨s, -, hs⟩ := bind_eq_ok_iff.1 h
    cases hs

theorem request_eq_ok_iff {n : Config.Normal} {r : Request} : request n = .ok r ↔
    ∃ tags people unfit relations warnings teams, Load.tags [] n.tags = .ok tags ∧
      Load.people tags [] [] n.people = .ok people ∧ people ≠ [] ∧
      unmentionableNames people tags = .ok unfit ∧
      Load.relations people tags n.relations = .ok (relations, warnings) ∧ n.teamCount = .int teams ∧
      r = { people, tags, relations, teamCount := .int teams,
            timeLimit := n.settings.timeLimit.map Value.float
            workers := .int n.settings.workers
            emptyTag := n.settings.emptyTag.name
            warnings := (if n.wellFormed then [] else [malformedPeople]) ++ unfit ++ warnings } := by
  unfold request
  rw [bind_eq_ok_iff]
  constructor
  · rintro ⟨tags, htags, h⟩
    obtain ⟨people, hpeople, h⟩ := bind_eq_ok_iff.1 h
    dsimp only at h
    split at h
    · cases h
    · next hsome =>
      obtain ⟨unfit, hunfit, h⟩ := bind_eq_ok_iff.1 h
      obtain ⟨⟨relations, warnings⟩, hrelations, h⟩ := bind_eq_ok_iff.1 h
      obtain ⟨teams, hteams, h⟩ := bind_eq_ok_iff.1 h
      cases h
      exact ⟨tags, people, unfit, relations, warnings, teams, htags, hpeople, by simpa using hsome,
        liftText_eq_ok_iff.1 hunfit, hrelations, teamCount_eq_ok_iff.1 hteams, rfl⟩
  · rintro ⟨tags, people, unfit, relations, warnings, teams, htags, hpeople, hsome, hunfit, hrelations,
      hteams, rfl⟩
    refine ⟨tags, htags, bind_eq_ok_iff.2 ⟨people, hpeople, ?_⟩⟩
    dsimp only
    rw [if_neg (by simpa using hsome)]
    exact bind_eq_ok_iff.2 ⟨unfit, liftText_eq_ok_iff.2 hunfit, bind_eq_ok_iff.2 ⟨(relations, warnings),
      hrelations, bind_eq_ok_iff.2 ⟨teams, teamCount_eq_ok_iff.2 hteams, rfl⟩⟩⟩

end Load
end BalancedTeams
