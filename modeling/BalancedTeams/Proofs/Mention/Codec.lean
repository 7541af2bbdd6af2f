import BalancedTeams.Proofs.Mention.Scanning
import BalancedTeams.Proofs.Tables
import Mathlib.Data.List.Chain

/-!
# Texts and entries

* `Ref.IsNamed`, `Ref.IsFiledUnder` : the mentions that a name stands for;
* `Entry.Canonical` : the lists of entries that texts are read as;
* `Names.isFiledUnder_of_ref?`, `Names.isNamed_of_ref?`, `Names.exists_ref?` : what names are looked up
  as;
* `Entry.parse_render` : reading gives canonical entries that are written as the text, and what
  canonical entries are written as is read as these entries.
-/

namespace BalancedTeams

/-- The name stands for the mention: of all people with the name the last one, or of all tags with
the name the last one if no person has it. -/
def Ref.IsNamed (people : List Person) (tags : List Tag) (name : Text) : Ref → Prop
  | .person id => ∃ before p after, people = before ++ p :: after ∧ p.id.same id = true ∧
      p.name = .str name ∧ ∀ q ∈ after, q.name ≠ .str name
  | .tag id => (∀ p ∈ people, p.name ≠ .str name) ∧ ∃ before g after, tags = before ++ g :: after ∧
      g.id.same id = true ∧ g.name = .str name ∧ ∀ q ∈ after, q.name ≠ .str name

/-- The same with the very id of the person or of the tag. -/
def Ref.IsFiledUnder (people : List Person) (tags : List Tag) (name : Text) : Ref → Prop
  | .person id => ∃ before p after, people = before ++ p :: after ∧ p.id = id ∧
      p.name = .str name ∧ ∀ q ∈ after, q.name ≠ .str name
  | .tag id => (∀ p ∈ people, p.name ≠ .str name) ∧ ∃ before g after, tags = before ++ g :: after ∧
      g.id = id ∧ g.name = .str name ∧ ∀ q ∈ after, q.name ≠ .str name

def IsName (people : List Person) (tags : List Tag) (name : Text) : Prop :=
  (∃ p ∈ people, p.name = .str name) ∨ ∃ g ∈ tags, g.name = .str name

namespace Entry

/-- The text begins with a blank or a sign. -/
def BeginsApart (t : Text) : Prop :=
  ∃ c rest, t = c :: rest ∧ (Text.isBlank c = true ∨ c ∈ Mention.signs)

/-- No text comes after a text, and after a mention only one that begins with a blank or a sign. -/
def MayFollow : Entry → Entry → Prop
  | .text _, .text _ => False
  | .ref _, .text t => BeginsApart t
  | _, _ => True

/-- One empty text, or texts that are not empty and mentions, so that
* no two texts stand side by side, and a text after a mention begins with a blank or a sign;
* every mention is what its name stands for, and the name can be mentioned;
* no `@` of a text stands before a run of name characters that is the name of a person or a tag. -/
structure Canonical (people : List Person) (tags : List Tag) (es : List Entry) : Prop where
  texts : es = [.text []] ∨ es ≠ [] ∧ ∀ t, .text t ∈ es → t ≠ []
  known : ∀ v, Entry.foreign v ∉ es
  chain : es.IsChain MayFollow
  named : ∀ r, .ref r ∈ es → ∃ name, isMentionable name = true ∧ r.IsNamed people tags name
  free : ∀ t, .text t ∈ es → ∀ after, CodePoint.char '@' :: after <:+ t → ∀ run,
    run = after.takeWhile Mention.isNamePoint → run ≠ [] → ¬ IsName people tags run

end Entry

/-! ## Names -/

namespace Names
variable {people : List Person} {tags : List Tag} {names : Names} {name : Text}

theorem of?_eq_some_iff : of? people tags = some names ↔ ∃ t p,
    Table.of? Tag.name (fun g => Ref.tag g.id) tags = some t ∧
      Table.of? Person.name (fun q => Ref.person q.id) people = some p ∧ names = t ++ p := by
  simp only [of?, Option.bind_eq_bind, Option.bind_eq_some_iff, Option.pure_def, Option.some.injEq]
  simp only [eq_comm, ← exists_and_left]

theorem exists_of? (hpeople : ∀ p ∈ people, p.name.key?.isSome = true)
    (htags : ∀ g ∈ tags, g.name.key?.isSome = true) : ∃ names, of? people tags = some names := by
  obtain ⟨t, ht⟩ := Table.exists_of? (fun g => Ref.tag g.id) htags
  obtain ⟨p, hp⟩ := Table.exists_of? (fun q => Ref.person q.id) hpeople
  exact ⟨_, of?_eq_some_iff.2 ⟨t, p, ht, hp, rfl⟩⟩

theorem ref?_eq (h : of? people tags = some names) : ∃ t p,
    Table.of? Tag.name (fun g => Ref.tag g.id) tags = some t ∧
      Table.of? Person.name (fun q => Ref.person q.id) people = some p ∧
      ∀ name : Text, names.ref? name = (p.find? (.str name)).or (t.find? (.str name)) := by
  obtain ⟨t, p, ht, hp, rfl⟩ := of?_eq_some_iff.1 h
  exact ⟨t, p, ht, hp, fun name => Table.find?_append t p (.str name)⟩

theorem ref?_eq_none_iff (h : of? people tags = some names) :
    names.ref? name = none ↔ ¬ IsName people tags name := by
  obtain ⟨t, p, ht, hp, hfind⟩ := ref?_eq h
  rw [hfind, Option.or_eq_none_iff, Table.find?_of?_eq_none ht, Table.find?_of?_eq_none hp]
  simp [IsName, key?_eq_str_iff, not_or]

/-- What is found under a name is what the name stands for. -/
theorem isFiledUnder_of_ref? (h : of? people tags = some names) {r : Ref}
    (hr : names.ref? name = some r) : r.IsFiledUnder people tags name := by
  obtain ⟨t, p, ht, hp, hfind⟩ := ref?_eq h
  rw [hfind, Option.or_eq_some_iff] at hr
  rcases hr with hr | ⟨hnone, hr⟩
  · obtain ⟨before, q, after, rfl, hq, rfl, hafter⟩ := Table.exists_of_find?_of? hp hr
    exact ⟨before, q, after, rfl, rfl, key?_eq_str_iff.1 hq,
      fun x hx e => hafter x hx (key?_eq_str_iff.2 e)⟩
  · obtain ⟨before, g, after, rfl, hg, rfl, hafter⟩ := Table.exists_of_find?_of? ht hr
    refine ⟨?_, before, g, after, rfl, rfl, key?_eq_str_iff.1 hg, ?_⟩
    · intro x hx e
      exact (Table.find?_of?_eq_none hp).1 hnone x hx (key?_eq_str_iff.2 e)
    · intro x hx e
      exact hafter x hx (key?_eq_str_iff.2 e)

/-- So it is up to ids that are the same, where ids are keys. -/
theorem isNamed_of_ref? (h : of? people tags = some names)
    (hpeople : ∀ p ∈ people, p.id.key?.isSome = true) (htags : ∀ g ∈ tags, g.id.key?.isSome = true)
    {r : Ref} (hr : names.ref? name = some r) : r.IsNamed people tags name := by
  have hself : ∀ {id : Value}, id.key?.isSome = true → id.same id = true := by
    intro id hid
    obtain ⟨k, hk⟩ := Option.isSome_iff_exists.1 hid
    exact same_eq_true_iff.2 ⟨k, hk, hk⟩
  have hfiled := isFiledUnder_of_ref? h hr
  cases r with
  | person id =>
    obtain ⟨before, p, after, heq, rfl, hrest⟩ := hfiled
    exact ⟨before, p, after, heq, hself (hpeople p (by simp [heq])), hrest⟩
  | tag id =>
    obtain ⟨hnobody, before, g, after, heq, rfl, hrest⟩ := hfiled
    exact ⟨hnobody, before, g, after, heq, hself (htags g (by simp [heq])), hrest⟩

/-- The last person with a name is found under the name. -/
theorem ref?_person (h : of? people tags = some names) {before after : List Person} {q : Person}
    (hpeople : people = before ++ q :: after) (hq : q.name = .str name)
    (hafter : ∀ x ∈ after, x.name ≠ .str name) : names.ref? name = some (.person q.id) := by
  obtain ⟨t, p, ht, hp, hfind⟩ := ref?_eq h
  have hkeys : ∀ x ∈ after, x.name.key? ≠ some (.str name) :=
    fun x hx e => hafter x hx (key?_eq_str_iff.1 e)
  rw [hfind, Table.find?_of?_eq_some hp hpeople (key?_eq_str_iff.2 hq) hkeys, Option.some_or]

/-- So is the last tag, if no person has the name. -/
theorem ref?_tag (h : of? people tags = some names) (hnobody : ∀ p ∈ people, p.name ≠ .str name)
    {before after : List Tag} {g : Tag} (htags : tags = before ++ g :: after) (hg : g.name = .str name)
    (hafter : ∀ x ∈ after, x.name ≠ .str name) : names.ref? name = some (.tag g.id) := by
  obtain ⟨t, p, ht, hp, hfind⟩ := ref?_eq h
  have hkeys : ∀ x ∈ after, x.name.key? ≠ some (.str name) :=
    fun x hx e => hafter x hx (key?_eq_str_iff.1 e)
  have hnone : p.find? (.str name) = none :=
    (Table.find?_of?_eq_none hp).2 fun x hx e => hnobody x hx (key?_eq_str_iff.1 e)
  rw [hfind, hnone, Option.none_or, Table.find?_of?_eq_some ht htags (key?_eq_str_iff.2 hg) hkeys]

theorem exists_ref? (h : of? people tags = some names) {r : Ref} (hr : r.IsNamed people tags name) :
    ∃ found, names.ref? name = some found ∧ found.same r = true := by
  cases r with
  | person id =>
    obtain ⟨before, q, after, hpeople, hsame, hq, hafter⟩ := hr
    exact ⟨.person q.id, ref?_person h hpeople hq hafter, hsame⟩
  | tag id =>
    obtain ⟨hnobody, before, g, after, htags, hsame, hg, hafter⟩ := hr
    exact ⟨.tag g.id, ref?_tag h hnobody htags hg hafter, hsame⟩

end Names

deriving instance DecidableEq for Entry

namespace Entry
variable {people : List Person} {tags : List Tag} {names : Names}

/-! ## Writing -/

theorem mention_eq {table : Table Value} {id : Value} {k : Key} {name : Text} (hk : id.key? = some k)
    (hfind : table.find? k = some (.str name)) :
    mention table id = .ok (CodePoint.char '@' :: name) := by
  unfold mention
  rw [key_eq_ok_iff.2 hk, ok_bind, hfind]
  rfl

/-- What is filed under the id of one of several things is what belongs to the thing. -/
theorem find?_of?_split {α β : Type} {field : β → Value} {item : β → α} {before after : List β} {x : β}
    {table : Table α} (hkeys : DistinctKeys ((before ++ x :: after).map field))
    (htable : Table.of? field item (before ++ x :: after) = some table) {k : Key}
    (hk : (field x).key? = some k) : table.find? k = some (item x) := by
  apply Table.find?_of?_eq_some htable rfl hk
  intro y hy e
  have hnodup := hkeys.nodup
  rw [List.map_append, List.map_append, List.map_cons, List.map_cons, List.nodup_append] at hnodup
  have hx := (List.nodup_cons.1 hnodup.2.1).1
  apply hx
  rw [hk, ← e]
  exact List.mem_map_of_mem (List.mem_map_of_mem hy)

theorem renderOne_ref {people : List Person} {tags : List Tag} {p t : Table Value}
    (hpeople : DistinctKeys (people.map Person.id)) (htags : DistinctKeys (tags.map Tag.id))
    (hp : Table.of? Person.id Person.name people = some p) (ht : Table.of? Tag.id Tag.name tags = some t)
    {r : Ref} {name : Text} (hr : r.IsNamed people tags name) :
    renderOne p t (.ref r) = .ok (CodePoint.char '@' :: name) := by
  cases r with
  | person id =>
    obtain ⟨before, q, after, rfl, hsame, hq, -⟩ := hr
    obtain ⟨k, hk, hid⟩ := same_eq_true_iff.1 hsame
    apply mention_eq hid
    rw [find?_of?_split hpeople hp hk, hq]
  | tag id =>
    obtain ⟨-, before, g, after, rfl, hsame, hg, -⟩ := hr
    obtain ⟨k, hk, hid⟩ := same_eq_true_iff.1 hsame
    apply mention_eq hid
    rw [find?_of?_split htags ht hk, hg]

/-- The tables of names exist, and entries are written one after the other. -/
theorem exists_render (hpeople : DistinctKeys (people.map Person.id))
    (htags : DistinctKeys (tags.map Tag.id)) : ∃ p t,
    Table.of? Person.id Person.name people = some p ∧ Table.of? Tag.id Tag.name tags = some t ∧
      ∀ {es : List Entry} {texts : List Text}, es.mapM (renderOne p t) = .ok texts →
        render people tags es = .ok texts.flatten := by
  obtain ⟨p, hp⟩ := Table.exists_of? Person.name hpeople.keyed_map
  obtain ⟨t, ht⟩ := Table.exists_of? Tag.name htags.keyed_map
  refine ⟨p, t, hp, ht, ?_⟩
  intro es texts htexts
  unfold render
  rw [hp, ht]
  show (es.mapM (renderOne p t) >>= fun texts => pure texts.flatten) = _
  rw [htexts]
  rfl

/-! ## From texts to entries -/

def IsRead (find? : Text → Option Ref) : Entry → Prop
  | .text t => t ≠ [] ∧ IsFree find? t []
  | .ref r => ∃ name, isMentionable name = true ∧ find? name = some r
  | .foreign _ => False

theorem Reads.isRead {find? : Text → Option Ref} {s : Text} {es : List Entry} (h : Reads find? s es) :
    ∀ e ∈ es, IsRead find? e := by
  induction h with
  | nil => simp
  | text hne hfree _ _ ih => exact List.forall_mem_cons.2 ⟨⟨hne, hfree⟩, ih⟩
  | ref hn hr _ _ ih => exact List.forall_mem_cons.2 ⟨⟨_, hn, hr⟩, ih⟩

theorem foreign_not_mem_parse (names : Names) (text : Text) :
    ∀ v, Entry.foreign v ∉ parse names text := by
  intro v hv
  rcases reads_parse names text with hreads | ⟨-, hempty⟩
  · exact hreads.isRead _ hv
  · rw [hempty, List.mem_singleton] at hv
    cases hv

theorem beginsApart_iff {t : Text} : BeginsApart t ↔ t ≠ [] ∧ Ends t := by
  cases t with
  | nil => simp [BeginsApart]
  | cons c t => simp [BeginsApart, Ends, Mention.isNamePoint, or_iff_not_imp_left]

theorem Reads.isChain {find? : Text → Option Ref} {s : Text} {es : List Entry}
    (h : Reads find? s es) : es.IsChain MayFollow := by
  induction h with
  | nil => exact .nil
  | text hne hfree hapart h ih =>
    rw [List.isChain_cons]
    refine ⟨fun e he => ?_, ih⟩
    cases e with
    | text t => exact absurd he (hapart t)
    | ref r => trivial
    | foreign v => trivial
  | ref hn hr hends h ih =>
    rw [List.isChain_cons]
    refine ⟨fun e he => ?_, ih⟩
    cases e with
    | text t =>
      cases h with
      | nil => cases he
      | ref => cases he
      | text hne =>
        cases he
        apply beginsApart_iff.2
        refine ⟨hne, fun c hc => hends c ?_⟩
        cases t with
        | nil => cases hc
        | cons d t => exact hc
    | ref r => trivial
    | foreign v => trivial

theorem canonical_empty : Canonical people tags [.text []] where
  texts := Or.inl rfl
  known := by simp
  chain := .singleton _
  named := by simp
  free := by
    intro t ht after hafter
    simp only [List.mem_singleton, Entry.text.injEq] at ht
    subst ht
    simp at hafter

theorem isFree_iff (h : Names.of? people tags = some names) {t : Text} :
    IsFree names.ref? t [] ↔ ∀ after, CodePoint.char '@' :: after <:+ t → ∀ run,
      run = after.takeWhile Mention.isNamePoint → run ≠ [] → ¬ IsName people tags run := by
  apply forall_congr'
  intro after
  apply imp_congr_right
  intro _
  rw [List.append_nil, forall_eq, ← Names.ref?_eq_none_iff h]
  unfold known?
  simp only [List.isEmpty_iff]
  by_cases hrun : after.takeWhile Mention.isNamePoint = [] <;> simp [hrun]

/-- The entries that a text is read as are canonical. -/
theorem Reads.canonical (hnames : Names.of? people tags = some names)
    (hpeople : DistinctKeys (people.map Person.id)) (htags : DistinctKeys (tags.map Tag.id))
    {s : Text} {es : List Entry} (h : Reads names.ref? s es) (hne : es ≠ []) :
    Canonical people tags es where
  texts := Or.inr ⟨hne, fun t ht => (h.isRead _ ht).1⟩
  known := fun v hv => h.isRead _ hv
  chain := h.isChain
  named := by
    intro r hr
    obtain ⟨name, hname, hfind⟩ := h.isRead _ hr
    exact ⟨name, hname, Names.isNamed_of_ref? hnames hpeople.keyed_map htags.keyed_map hfind⟩
  free := fun t ht => (isFree_iff hnames).1 (h.isRead _ ht).2

theorem Reads.mapM_renderOne (hnames : Names.of? people tags = some names)
    (hpeople : DistinctKeys (people.map Person.id)) (htags : DistinctKeys (tags.map Tag.id))
    {p t : Table Value} (hp : Table.of? Person.id Person.name people = some p)
    (ht : Table.of? Tag.id Tag.name tags = some t) {s : Text} {es : List Entry}
    (h : Reads names.ref? s es) :
    ∃ texts, es.mapM (renderOne p t) = .ok texts ∧ texts.flatten = s := by
  induction h with
  | nil => exact ⟨[], rfl, rfl⟩
  | @text u rest es _ _ _ _ ih =>
    obtain ⟨texts, htexts, hflat⟩ := ih
    refine ⟨u :: texts, mapM_eq_ok_iff.2 (.cons rfl (mapM_eq_ok_iff.1 htexts)), ?_⟩
    rw [List.flatten_cons, hflat]
  | @ref n rest r es _ hr _ _ ih =>
    obtain ⟨texts, htexts, hflat⟩ := ih
    have hnamed := Names.isNamed_of_ref? hnames hpeople.keyed_map htags.keyed_map hr
    have hone := renderOne_ref hpeople htags hp ht hnamed
    refine ⟨(CodePoint.char '@' :: n) :: texts,
      mapM_eq_ok_iff.2 (.cons hone (mapM_eq_ok_iff.1 htexts)), ?_⟩
    rw [List.flatten_cons, hflat]

/-! ## From entries to texts -/

theorem same_text_iff {e : Entry} {t : Text} : e.same (.text t) = true ↔ e = .text t := by
  cases e with
  | text u => simp [same]
  | ref r => simp [same]
  | foreign v => simp [same]

/-- A text stands first where one stands first in the same entries. -/
theorem head?_of_same {found es : List Entry} (h : List.Forall₂ (fun a b => a.same b = true) found es)
    {u : Text} (hu : found.head? = some (.text u)) : es.head? = some (.text u) := by
  cases h with
  | nil => cases hu
  | @cons a b found es hab hrest =>
    cases hu
    cases b with
    | text w =>
      cases same_text_iff.1 hab
      rfl
    | ref r => cases hab
    | foreign v => cases hab

/-- Canonical entries that are no single empty text are what some text is read as, and are written as
that text. -/
theorem exists_reads (hnames : Names.of? people tags = some names)
    (hpeople : DistinctKeys (people.map Person.id)) (htags : DistinctKeys (tags.map Tag.id))
    {p t : Table Value} (hp : Table.of? Person.id Person.name people = some p)
    (ht : Table.of? Tag.id Tag.name tags = some t) {es : List Entry}
    (htexts : ∀ t, .text t ∈ es → t ≠ []) (hknown : ∀ v, Entry.foreign v ∉ es)
    (hchain : es.IsChain MayFollow)
    (hnamed : ∀ r, .ref r ∈ es → ∃ name, isMentionable name = true ∧ r.IsNamed people tags name)
    (hfree : ∀ t, .text t ∈ es → IsFree names.ref? t []) :
    ∃ texts found, es.mapM (renderOne p t) = .ok texts ∧ Reads names.ref? texts.flatten found ∧
      List.Forall₂ (fun a b => a.same b = true) found es := by
  induction es with
  | nil => exact ⟨[], [], rfl, .nil, .nil⟩
  | cons e es ih =>
    rw [List.isChain_cons] at hchain
    obtain ⟨hhead, hchain⟩ := hchain
    obtain ⟨texts, found, hwritten, hreads, hsame⟩ := ih
      (fun t ht => htexts t (List.mem_cons_of_mem _ ht))
      (fun v hv => hknown v (List.mem_cons_of_mem _ hv)) hchain
      (fun r hr => hnamed r (List.mem_cons_of_mem _ hr))
      (fun t ht => hfree t (List.mem_cons_of_mem _ ht))
    rw [mapM_eq_ok_iff] at hwritten
    cases e with
    | text u =>
      refine ⟨u :: texts, .text u :: found, mapM_eq_ok_iff.2 (.cons rfl hwritten), ?_,
        .cons (same_text_iff.2 rfl) hsame⟩
      apply Reads.text (htexts u List.mem_cons_self) (hfree u List.mem_cons_self) ?_ hreads
      intro w hw
      exact hhead _ (head?_of_same hsame hw)
    | ref r =>
      obtain ⟨name, hname, hr⟩ := hnamed r List.mem_cons_self
      obtain ⟨r', hr', hsame'⟩ := Names.exists_ref? hnames hr
      refine ⟨(CodePoint.char '@' :: name) :: texts, .ref r' :: found,
        mapM_eq_ok_iff.2 (.cons (renderOne_ref hpeople htags hp ht hr) hwritten), ?_,
        .cons hsame' hsame⟩
      apply Reads.ref hname hr' ?_ hreads
      apply hreads.ends
      intro u hu
      exact beginsApart_iff.1 (hhead _ (head?_of_same hsame hu))
    | foreign v => exact absurd List.mem_cons_self (hknown v)

/-- **Reading and writing are inverse.** Every text is read as canonical entries, which are written as
the text; and canonical entries are written as a text that is read as the same entries. -/
theorem parse_render (hpeople : DistinctKeys (people.map Person.id))
    (htags : DistinctKeys (tags.map Tag.id)) (hpeopleNames : ∀ p ∈ people, p.name.key?.isSome = true)
    (htagNames : ∀ g ∈ tags, g.name.key?.isSome = true) :
    ∃ names, Names.of? people tags = some names ∧
      (∀ text, Canonical people tags (parse names text) ∧
        render people tags (parse names text) = .ok text) ∧
      ∀ es, Canonical people tags es → ∃ text, render people tags es = .ok text ∧
        List.Forall₂ (fun a b => a.same b = true) (parse names text) es := by
  obtain ⟨names, hnames⟩ := Names.exists_of? hpeopleNames htagNames
  obtain ⟨p, t, hp, ht, hrender⟩ := exists_render hpeople htags
  have hempty : render people tags [.text []] = .ok [] := by
    have htexts : [Entry.text []].mapM (renderOne p t) = .ok [[]] := rfl
    exact hrender htexts
  refine ⟨names, hnames, fun text => ?_, fun es hes => ?_⟩
  · have hreads : Reads names.ref? text (scan names.ref? [] text) := reads_scan text isFree_nil
    unfold parse
    cases hscan : scan names.ref? [] text with
    | nil =>
      rw [hscan] at hreads
      cases hreads
      exact ⟨canonical_empty, hempty⟩
    | cons e es =>
      rw [hscan] at hreads
      obtain ⟨texts, htexts, hflat⟩ := hreads.mapM_renderOne hnames hpeople htags hp ht
      exact ⟨hreads.canonical hnames hpeople htags (by simp), hflat ▸ hrender htexts⟩
  · rcases hes.texts with rfl | ⟨hne, htexts⟩
    · refine ⟨[], hempty, ?_⟩
      rw [parse, scan]
      exact .cons rfl .nil
    · obtain ⟨texts, found, hwritten, hreads, hsame⟩ := exists_reads hnames hpeople htags hp ht htexts
        hes.known hes.chain hes.named fun u hu => (isFree_iff hnames).2 (hes.free u hu)
      refine ⟨texts.flatten, hrender hwritten, ?_⟩
      unfold parse
      rw [(scan_of_reads hreads).1]
      cases hsame with
      | nil => exact absurd rfl hne
      | cons hab hrest => exact .cons hab hrest

/-- The name of a person hides the same name of a tag, and an unknown mention stays text. -/
theorem parse_render_hidden :
    let people : List Person := [⟨.int 1, .str "Ann", []⟩, ⟨.int 2, .str "Bob", []⟩]
    let tags : List Tag := [⟨.int 1, .str "Ann"⟩, ⟨.int 2, .str "tall"⟩]
    let text : Text := "hi @Ann@tall(@Zoe, @Bob"
    let es : List Entry := [.text "hi ", .ref (.person (.int 1)), .ref (.tag (.int 2)),
      .text "(@Zoe, ", .ref (.person (.int 2))]
    ∃ names, Names.of? people tags = some names ∧ parse names text = es ∧
      Canonical people tags es ∧ render people tags es = .ok text := by
  intro people tags text es
  have hpeople : DistinctKeys (people.map Person.id) := ⟨by decide, by decide⟩
  have htags : DistinctKeys (tags.map Tag.id) := ⟨by decide, by decide⟩
  obtain ⟨names, hnames, hread, -⟩ := parse_render hpeople htags (by decide) (by decide)
  have hparse : parse names text = es := by
    cases hnames
    decide +kernel
  refine ⟨names, hnames, hparse, ?_⟩
  rw [← hparse]
  exact hread text

end Entry
end BalancedTeams
