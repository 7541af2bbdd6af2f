import BalancedTeams.Proofs.Compile.Census
import Mathlib.Data.List.TakeWhile

/-!
# What labels tell

* `Digest.TellsApart` : no two of some texts have the same digest;
* `Formula.Kind`, `Formula.labelParts`, `Formula.hashedText` : the text whose digest is the label, and
  what it is made from (`Formula.label_eq`);
* `Formula.labelText_inj` : this text tells the kind and the parts, whatever the ids are;
* `Formula.Alike` : the same shape, with ids of the same texts in the same places
  (`Formula.Alike.exists_label`, `Formula.alike_of_label_eq`);
* `Formula.same_label_iff_alike` : formulas have the same label if and only if they are alike;
* `Labelled.unambiguous_of_tellsApart` : labels are unambiguous where digests are.
-/

namespace BalancedTeams

/-! ## Digests -/

namespace Digest

/-- No two different texts among these have the same digest. -/
def TellsApart (texts : List String) : Prop :=
  ∀ s ∈ texts, ∀ t ∈ texts, ofText s = ofText t → s = t

theorem TellsApart.mono {texts fewer : List String} (h : TellsApart texts) (hfewer : fewer ⊆ texts) :
    TellsApart fewer :=
  fun s hs t ht => h s (hfewer hs) t (hfewer ht)

theorem digitChar_ne_bar : ∀ d < 16, Nat.digitChar d ≠ '|' := by decide

theorem bar_not_mem_hexWord (w : UInt32) : '|' ∉ hexWord w := by
  intro h
  obtain ⟨i, -, hi⟩ := List.mem_map.1 h
  exact digitChar_ne_bar _ (Nat.mod_lt _ (by decide)) hi

theorem bar_not_mem_ofText (s : String) : '|' ∉ (ofText s).toList := by
  rw [ofText, String.toList_ofList, List.mem_append]
  exact fun h => h.elim (bar_not_mem_hexWord _) (bar_not_mem_hexWord _)

end Digest

/-! ## Joined parts -/

section
variable {α : Type} [DecidableEq α] {a : α}

/-- Lists that begin with parts without a separator agree in these and in what comes after. -/
theorem append_cons_inj_left {xs ys us vs : List α} (hxs : a ∉ xs) (hus : a ∉ us)
    (h : xs ++ a :: ys = us ++ a :: vs) : xs = us ∧ ys = vs := by
  have hreverse : ys.reverse ++ a :: xs.reverse = vs.reverse ++ a :: us.reverse := by
    simpa using congrArg List.reverse h
  obtain ⟨hys, hxs⟩ := append_cons_inj_right (List.mem_reverse.not.2 hxs) (List.mem_reverse.not.2 hus)
    hreverse
  exact ⟨List.reverse_inj.1 hxs, List.reverse_inj.1 hys⟩

/-- Parts that are joined by a separator can be told from the whole if their number is known and only the
last one may have the separator in it. -/
theorem intercalate_inj {ps qs : List (List α)} (hlength : ps.length = qs.length)
    (hps : ∀ p ∈ ps.dropLast, a ∉ p) (hqs : ∀ q ∈ qs.dropLast, a ∉ q)
    (h : [a].intercalate ps = [a].intercalate qs) : ps = qs := by
  induction ps generalizing qs with
  | nil => exact (List.length_eq_zero_iff.1 hlength.symm).symm
  | cons p ps ih =>
    obtain _ | ⟨q, qs⟩ := qs
    · cases hlength
    obtain _ | ⟨p', ps⟩ := ps
    · obtain rfl : qs = [] := List.length_eq_zero_iff.1 (Nat.succ.inj hlength).symm
      rwa [List.intercalate_singleton, List.intercalate_singleton, ← List.singleton_inj] at h
    obtain _ | ⟨q', qs⟩ := qs
    · cases hlength
    rw [List.dropLast_cons_cons, List.forall_mem_cons] at hps hqs
    rw [List.intercalate_cons_cons, List.intercalate_cons_cons, List.append_assoc, List.append_assoc,
      List.singleton_append, List.singleton_append] at h
    obtain ⟨rfl, hrest⟩ := append_cons_inj_left hps.1 hqs.1 h
    rw [ih (Nat.succ.inj hlength) hps.2 hqs.2 hrest]

end

/-! ## Encoded texts -/

namespace Text

theorem eq_map_char_of_chars? {t : Text} {cs : List Char} (h : t.chars? = some cs) :
    t = cs.map CodePoint.char := by
  induction t generalizing cs with
  | nil =>
    cases h
    rfl
  | cons c t ih =>
    rw [chars?, List.mapM_cons] at h
    obtain ⟨d, hd, h⟩ := Option.bind_eq_some_iff.1 h
    obtain ⟨ds, hds, h⟩ := Option.bind_eq_some_iff.1 h
    cases h
    rw [ih hds, List.map_cons]
    cases c <;> cases hd
    rfl

theorem encode_eq_ok_iff {t : Text} {s : String} : t.encode = .ok s ↔ t = ofString s := by
  constructor
  · intro h
    unfold encode at h
    split at h
    · next cs hcs =>
      cases h
      rw [eq_map_char_of_chars? hcs, ofString, String.toList_ofList]
    · cases h
  · rintro rfl
    exact encode_ofString s

end Text

namespace Formula

variable {f g : Formula} {l s : String} {xs ys : List String}

theorem takeWhile_labelText {kind : String} (h : '|' ∉ kind.toList) (xs : List String) :
    (labelText kind xs).toList.takeWhile (· != '|') = kind.toList := by
  have hkind : ∀ c ∈ kind.toList, (c != '|') = true := by
    rintro c hc
    exact bne_iff_ne.2 fun e => h (e ▸ hc)
  rw [labelText, String.toList_intercalate, List.map_cons]
  cases xs with
  | nil => rw [List.map_nil, List.intercalate_singleton, List.takeWhile_eq_self_iff.2 hkind]
  | cons x xs =>
    rw [List.map_cons, List.intercalate_cons_cons, List.append_assoc,
      List.takeWhile_append_of_pos hkind]
    exact List.append_nil _

/-! ## The texts of labels -/

/-- What a formula is at its root. -/
inductive Kind where
  | person
  | always
  | not
  | and
  | or
  deriving DecidableEq, Repr

namespace Kind

def word : Kind → String
  | person => "PERSON"
  | always => "TRUE"
  | not => "NOT"
  | and => "AND"
  | or => "OR"

def arity : Kind → Nat
  | always => 0
  | person | not => 1
  | and | or => 2

theorem word_inj {k m : Kind} (h : k.word = m.word) : k = m := by
  revert h
  cases k <;> cases m <;> decide

theorem bar_not_mem_word (k : Kind) : '|' ∉ k.word.toList := by
  cases k <;> decide

end Kind

def kind : Formula → Kind
  | person _ => .person
  | always => .always
  | not _ => .not
  | and _ _ => .and
  | or _ _ => .or

/-- What comes after the kind: the text of the id of a person, or the labels of the formulas below. -/
def labelParts : Formula → Except TextFault (List String)
  | person id => do return [← idText id]
  | always => return []
  | not f => do return [← f.label]
  | and f g | or f g => do return [← f.label, ← g.label]

section
variable {x y : Except TextFault String}

theorem onePart_eq_ok_iff : (do return [← x]) = .ok xs ↔ ∃ a, x = .ok a ∧ xs = [a] := by
  rw [bind_eq_ok_iff]
  exact exists_congr fun a => and_congr_right fun _ => (iff_of_eq (Except.ok.injEq _ _)).trans eq_comm

theorem twoParts_eq_ok_iff :
    (do return [← x, ← y]) = .ok xs ↔ ∃ a b, x = .ok a ∧ y = .ok b ∧ xs = [a, b] := by
  rw [bind_eq_ok_iff]
  constructor
  · rintro ⟨a, ha, h⟩
    obtain ⟨b, hb, h⟩ := bind_eq_ok_iff.1 h
    cases h
    exact ⟨a, b, ha, hb, rfl⟩
  · rintro ⟨a, b, ha, hb, rfl⟩
    exact ⟨a, ha, bind_eq_ok_iff.2 ⟨b, hb, rfl⟩⟩

end

/-- The text whose digest is the label. -/
def hashedText (f : Formula) : Except TextFault String := do
  return labelText f.kind.word (← f.labelParts)

/-- The label is the digest of the kind and the parts, joined by bars. -/
theorem label_eq (f : Formula) : f.label = do return labelOf f.kind.word (← f.labelParts) := by
  cases f with
  | person id => rw [label, labelParts, bind_assoc]; rfl
  | always => rfl
  | not f => rw [label, labelParts, bind_assoc]; rfl
  | and f g | or f g => simp only [label, labelParts, bind_assoc, pure_bind]; rfl

theorem hashedText_eq_ok_iff :
    f.hashedText = .ok s ↔ ∃ xs, f.labelParts = .ok xs ∧ labelText f.kind.word xs = s := by
  rw [hashedText, bind_eq_ok_iff]
  exact exists_congr fun xs => and_congr_right fun _ => iff_of_eq (Except.ok.injEq _ _)

theorem label_eq_ok_iff : f.label = .ok l ↔ ∃ s, f.hashedText = .ok s ∧ Digest.ofText s = l := by
  rw [label_eq, bind_eq_ok_iff]
  constructor
  · rintro ⟨xs, hxs, hl⟩
    cases hl
    exact ⟨_, hashedText_eq_ok_iff.2 ⟨xs, hxs, rfl⟩, rfl⟩
  · rintro ⟨s, hs, rfl⟩
    obtain ⟨xs, hxs, rfl⟩ := hashedText_eq_ok_iff.1 hs
    exact ⟨xs, hxs, rfl⟩

theorem bar_not_mem_label (h : f.label = .ok l) : '|' ∉ l.toList := by
  obtain ⟨s, -, rfl⟩ := label_eq_ok_iff.1 h
  exact Digest.bar_not_mem_ofText s

theorem length_labelParts (h : f.labelParts = .ok xs) : xs.length = f.kind.arity := by
  cases f with
  | person id | not f =>
    obtain ⟨x, -, rfl⟩ := onePart_eq_ok_iff.1 h
    rfl
  | always =>
    cases h
    rfl
  | and f g | or f g =>
    obtain ⟨x, y, -, -, rfl⟩ := twoParts_eq_ok_iff.1 h
    rfl

/-- Only the last piece of the text of a label may have a bar in it: the other pieces are kinds and
labels. -/
theorem bar_not_mem_pieces (h : f.labelParts = .ok xs) :
    ∀ x ∈ (f.kind.word :: xs).dropLast, '|' ∉ x.toList := by
  have hkind := f.kind.bar_not_mem_word
  cases f with
  | person id | not f =>
    obtain ⟨x, -, rfl⟩ := onePart_eq_ok_iff.1 h
    exact List.forall_mem_singleton.2 hkind
  | always =>
    cases h
    nofun
  | and f g | or f g =>
    obtain ⟨x, y, hx, -, rfl⟩ := twoParts_eq_ok_iff.1 h
    exact List.forall_mem_cons.2 ⟨hkind, List.forall_mem_singleton.2 (bar_not_mem_label hx)⟩

/-- **The text of a label tells the kind and the parts.** What comes before the first bar is the kind, and
with it the number of the parts is known. The id of a person may have bars in it, so the parts could
not be told apart without their number. -/
theorem labelText_inj (hf : f.labelParts = .ok xs) (hg : g.labelParts = .ok ys)
    (h : labelText f.kind.word xs = labelText g.kind.word ys) : f.kind = g.kind ∧ xs = ys := by
  have hkind : f.kind = g.kind := by
    refine Kind.word_inj (String.toList_inj.1 ?_)
    rw [← takeWhile_labelText f.kind.bar_not_mem_word xs, h,
      takeWhile_labelText g.kind.bar_not_mem_word ys]
  have hpieces : (f.kind.word :: xs).map String.toList = (g.kind.word :: ys).map String.toList := by
    refine intercalate_inj (a := '|') ?_ ?_ ?_ ?_
    · simp only [List.length_map, List.length_cons, length_labelParts hf, length_labelParts hg, hkind]
    · rw [← List.map_dropLast, List.forall_mem_map]
      exact bar_not_mem_pieces hf
    · rw [← List.map_dropLast, List.forall_mem_map]
      exact bar_not_mem_pieces hg
    · have htext := congrArg String.toList h
      rwa [labelText, labelText, String.toList_intercalate, String.toList_intercalate] at htext
  have hcons := List.map_injective_iff.2 (fun _ _ => String.toList_inj.1) hpieces
  exact ⟨hkind, (List.cons.inj hcons).2⟩

/-! ## The parts of formulas -/

def children : Formula → List Formula
  | not f => [f]
  | and f g | or f g => [f, g]
  | _ => []

/-- A formula and all formulas below it. -/
def parts : Formula → List Formula
  | person id => [person id]
  | always => [always]
  | not f => not f :: f.parts
  | and f g => and f g :: (f.parts ++ g.parts)
  | or f g => or f g :: (f.parts ++ g.parts)

/-- The texts that are hashed for the labels of a formula and of all formulas below it. -/
def hashedTexts (f : Formula) : List String := f.parts.filterMap fun part => part.hashedText.toOption

theorem self_mem_parts (f : Formula) : f ∈ f.parts := by
  cases f <;> exact List.mem_cons_self

theorem mem_hashedTexts : s ∈ f.hashedTexts ↔ ∃ part ∈ f.parts, part.hashedText = .ok s := by
  rw [hashedTexts, List.mem_filterMap]
  refine exists_congr fun part => and_congr_right fun _ => ?_
  cases part.hashedText <;> simp [Except.toOption]

theorem hashedText_mem (h : f.hashedText = .ok s) : s ∈ f.hashedTexts :=
  mem_hashedTexts.2 ⟨f, f.self_mem_parts, h⟩

theorem parts_subset_of_mem_children {child : Formula} (h : child ∈ f.children) :
    child.parts ⊆ f.parts := by
  intro part hpart
  cases f with
  | person | always => cases h
  | not f =>
    cases List.mem_singleton.1 h
    exact List.mem_cons_of_mem _ hpart
  | and f g | or f g =>
    rw [children, List.mem_pair] at h
    refine List.mem_cons_of_mem _ (List.mem_append.2 ?_)
    rcases h with rfl | rfl
    · exact Or.inl hpart
    · exact Or.inr hpart

theorem hashedTexts_mono (h : f.parts ⊆ g.parts) : f.hashedTexts ⊆ g.hashedTexts := by
  intro s hs
  obtain ⟨part, hpart, hs⟩ := mem_hashedTexts.1 hs
  exact mem_hashedTexts.2 ⟨part, h hpart, hs⟩

/-- What holds of the texts of two formulas holds of those of formulas below them. -/
theorem tellsApart_below {f' g' : Formula}
    (hdigests : Digest.TellsApart (f.hashedTexts ++ g.hashedTexts)) (hf : f' ∈ f.children)
    (hg : g' ∈ g.children) : Digest.TellsApart (f'.hashedTexts ++ g'.hashedTexts) := by
  refine hdigests.mono (List.append_subset.2 ⟨?_, ?_⟩)
  · exact List.subset_append_of_subset_left _ (hashedTexts_mono (parts_subset_of_mem_children hf))
  · exact List.subset_append_of_subset_right _ (hashedTexts_mono (parts_subset_of_mem_children hg))

/-! ## Formulas that are alike -/

/-- Formulas of the same shape, in which the ids in the same places have the same text, one that can be
encoded. -/
inductive Alike : Formula → Formula → Prop
  | person {a b : Value} {s : String} :
      a.text = .ok (.ofString s) → b.text = .ok (.ofString s) → Alike (.person a) (.person b)
  | always : Alike .always .always
  | not {f g : Formula} : Alike f g → Alike (.not f) (.not g)
  | and {f f' g g' : Formula} : Alike f g → Alike f' g' → Alike (.and f f') (.and g g')
  | or {f f' g g' : Formula} : Alike f g → Alike f' g' → Alike (.or f f') (.or g g')

theorem idText_eq_ok_iff {id : Value} : idText id = .ok s ↔ id.text = .ok (.ofString s) := by
  rw [idText, bind_eq_ok_iff]
  constructor
  · rintro ⟨t, ht, hs⟩
    rw [ht, Text.encode_eq_ok_iff.1 hs]
  · intro h
    exact ⟨_, h, Text.encode_ofString s⟩

/-- Formulas that are alike have a label, the same one. -/
theorem Alike.exists_label (h : Alike f g) : ∃ l, f.label = .ok l ∧ g.label = .ok l := by
  induction h with
  | person ha hb =>
    exact ⟨_, bind_eq_ok_iff.2 ⟨_, idText_eq_ok_iff.2 ha, rfl⟩,
      bind_eq_ok_iff.2 ⟨_, idText_eq_ok_iff.2 hb, rfl⟩⟩
  | always => exact ⟨_, rfl, rfl⟩
  | not _ ih =>
    obtain ⟨l, hf, hg⟩ := ih
    exact ⟨_, bind_eq_ok_iff.2 ⟨_, hf, rfl⟩, bind_eq_ok_iff.2 ⟨_, hg, rfl⟩⟩
  | and _ _ ih ih' | or _ _ ih ih' =>
    obtain ⟨l, hf, hg⟩ := ih
    obtain ⟨l', hf', hg'⟩ := ih'
    exact ⟨_, bind_eq_ok_iff.2 ⟨_, hf, bind_eq_ok_iff.2 ⟨_, hf', rfl⟩⟩,
      bind_eq_ok_iff.2 ⟨_, hg, bind_eq_ok_iff.2 ⟨_, hg', rfl⟩⟩⟩

/-- At the root: with the same label, the kind and the parts are the same. -/
theorem kind_eq_of_label_eq (hdigests : Digest.TellsApart (f.hashedTexts ++ g.hashedTexts))
    (hf : f.label = .ok l) (hg : g.label = .ok l) :
    f.kind = g.kind ∧ ∃ xs, f.labelParts = .ok xs ∧ g.labelParts = .ok xs := by
  obtain ⟨s, hs, hl⟩ := label_eq_ok_iff.1 hf
  obtain ⟨t, ht, rfl⟩ := label_eq_ok_iff.1 hg
  obtain rfl : s = t :=
    hdigests s (List.mem_append_left _ (hashedText_mem hs)) t (List.mem_append_right _ (hashedText_mem ht)) hl
  obtain ⟨xs, hxs, rfl⟩ := hashedText_eq_ok_iff.1 hs
  obtain ⟨ys, hys, htext⟩ := hashedText_eq_ok_iff.1 ht
  obtain ⟨hkind, rfl⟩ := labelText_inj hxs hys htext.symm
  exact ⟨hkind, xs, hxs, hys⟩

/-- Formulas with the same label are alike. By induction on the first one: the kinds say what the second one
is, and the parts are the labels of the formulas below. -/
theorem alike_of_label_eq (hdigests : Digest.TellsApart (f.hashedTexts ++ g.hashedTexts))
    (hf : f.label = .ok l) (hg : g.label = .ok l) : f.Alike g := by
  induction f generalizing g l with
  | person a =>
    obtain ⟨hkind, xs, hfparts, hgparts⟩ := kind_eq_of_label_eq hdigests hf hg
    cases g <;> cases hkind
    obtain ⟨s, ha, rfl⟩ := onePart_eq_ok_iff.1 hfparts
    obtain ⟨t, hb, hst⟩ := onePart_eq_ok_iff.1 hgparts
    cases hst
    exact .person (idText_eq_ok_iff.1 ha) (idText_eq_ok_iff.1 hb)
  | always =>
    obtain ⟨hkind, -⟩ := kind_eq_of_label_eq hdigests hf hg
    cases g <;> cases hkind
    exact .always
  | not f ih =>
    obtain ⟨hkind, xs, hfparts, hgparts⟩ := kind_eq_of_label_eq hdigests hf hg
    cases g <;> cases hkind
    obtain ⟨k, hfk, rfl⟩ := onePart_eq_ok_iff.1 hfparts
    obtain ⟨m, hgm, hkm⟩ := onePart_eq_ok_iff.1 hgparts
    cases hkm
    exact .not (ih (tellsApart_below hdigests List.mem_cons_self List.mem_cons_self) hfk hgm)
  | and f f' ih ih' | or f f' ih ih' =>
    obtain ⟨hkind, xs, hfparts, hgparts⟩ := kind_eq_of_label_eq hdigests hf hg
    cases g <;> cases hkind
    obtain ⟨k, k', hfk, hfk', rfl⟩ := twoParts_eq_ok_iff.1 hfparts
    obtain ⟨m, m', hgm, hgm', hkm⟩ := twoParts_eq_ok_iff.1 hgparts
    cases hkm
    have hsecond : ∀ {p q : Formula}, q ∈ [p, q] := List.mem_cons_of_mem _ List.mem_cons_self
    constructor
    · exact ih (tellsApart_below hdigests List.mem_cons_self List.mem_cons_self) hfk hgm
    · exact ih' (tellsApart_below hdigests hsecond hsecond) hfk' hgm'

theorem Alike.eq (h : f.Alike g)
    (hids : ∀ a b, Formula.person a ∈ f.parts → Formula.person b ∈ g.parts → a.text = b.text → a = b) :
    f = g := by
  induction h with
  | person ha hb => rw [hids _ _ List.mem_cons_self List.mem_cons_self (ha.trans hb.symm)]
  | always => rfl
  | not _ ih =>
    rw [ih fun a b ha hb => hids a b (List.mem_cons_of_mem _ ha) (List.mem_cons_of_mem _ hb)]
  | and _ _ ih ih' | or _ _ ih ih' =>
    rw [ih fun a b ha hb => hids a b (List.mem_cons_of_mem _ (List.mem_append_left _ ha))
        (List.mem_cons_of_mem _ (List.mem_append_left _ hb)),
      ih' fun a b ha hb => hids a b (List.mem_cons_of_mem _ (List.mem_append_right _ ha))
        (List.mem_cons_of_mem _ (List.mem_append_right _ hb))]

theorem label_eq_ok_iff_labelled : f.label = .ok l ↔ ∃ node, f.labelled = .ok node ∧ node.label = l := by
  rw [← map_label_labelled]
  cases f.labelled <;> simp [Except.map]

/-- **Labels identify formulas.** If no two different texts that are hashed for the formulas and for those
below them have the same digest, then both have a label, the same one, if and only if they are alike. In any
case the text that is hashed for a formula tells its kind and its parts, also where an id has bars in it. -/
theorem same_label_iff_alike (f g : Formula) :
    (Digest.TellsApart (f.hashedTexts ++ g.hashedTexts) →
      ((∃ u v, f.labelled = .ok u ∧ g.labelled = .ok v ∧ u.label = v.label) ↔ f.Alike g)) ∧
    ∀ xs ys, f.labelParts = .ok xs → g.labelParts = .ok ys →
      labelText f.kind.word xs = labelText g.kind.word ys → f.kind = g.kind ∧ xs = ys := by
  refine ⟨fun hdigests => ⟨?_, fun h => ?_⟩, fun _ _ => labelText_inj⟩
  · rintro ⟨u, v, hu, hv, hlabel⟩
    exact alike_of_label_eq hdigests (label_eq_ok_iff_labelled.2 ⟨u, hu, hlabel⟩)
      (label_eq_ok_iff_labelled.2 ⟨v, hv, rfl⟩)
  · obtain ⟨l, hf, hg⟩ := h.exists_label
    obtain ⟨u, hu, rfl⟩ := label_eq_ok_iff_labelled.1 hf
    obtain ⟨v, hv, hlabel⟩ := label_eq_ok_iff_labelled.1 hg
    exact ⟨u, v, hu, hv, hlabel.symm⟩

/-! ## An id that looks like a text that is hashed -/

theorem digest_person_one : Digest.ofText "PERSON|1" = "dd76210e304b0fb3" := by decide +kernel

def without (id : Value) : Formula := .not (.person id)

/-- A person whose id looks like the text that is hashed for doing without a person `1`. -/
def disguised : Formula := .person (.str "NOT|dd76210e304b0fb3")

section
variable {id : Value} (hid : id.text = .ok (.ofString "1"))
include hid

theorem hashedText_one : (person id).hashedText = .ok "PERSON|1" :=
  hashedText_eq_ok_iff.2 ⟨["1"], onePart_eq_ok_iff.2 ⟨_, idText_eq_ok_iff.2 hid, rfl⟩, rfl⟩

theorem labelParts_without_one : (without id).labelParts = .ok ["dd76210e304b0fb3"] :=
  onePart_eq_ok_iff.2 ⟨_, label_eq_ok_iff.2 ⟨_, hashedText_one hid, digest_person_one⟩, rfl⟩

theorem hashedTexts_without_one : (without id).hashedTexts = ["NOT|dd76210e304b0fb3", "PERSON|1"] := by
  have hnot : (without id).hashedText = .ok "NOT|dd76210e304b0fb3" :=
    hashedText_eq_ok_iff.2 ⟨_, labelParts_without_one hid, rfl⟩
  rw [without] at hnot ⊢
  simp only [hashedTexts, parts, List.filterMap_cons, hnot, hashedText_one hid, Except.toOption,
    List.filterMap_nil]

end

theorem hashedTexts_disguised : disguised.hashedTexts = ["PERSON|NOT|dd76210e304b0fb3"] := by
  have hid : idText (.str "NOT|dd76210e304b0fb3") = .ok "NOT|dd76210e304b0fb3" := idText_eq_ok_iff.2 rfl
  have htext : disguised.hashedText = .ok "PERSON|NOT|dd76210e304b0fb3" :=
    hashedText_eq_ok_iff.2 ⟨_, onePart_eq_ok_iff.2 ⟨_, hid, rfl⟩, rfl⟩
  rw [disguised] at htext ⊢
  simp only [hashedTexts, parts, List.filterMap_cons, htext, Except.toOption, List.filterMap_nil]

theorem not_alike_disguised (id : Value) : ¬ (without id).Alike disguised := by
  rw [without, disguised]
  nofun

/-- The ids `1` and `"1"` have one text, and with it one label; an id that looks like the text of the label
does not get this label. -/
theorem same_label_iff_alike_disguised :
    let one := without (.int 1)
    let numeral := without (.str "1")
    Digest.TellsApart (one.hashedTexts ++ numeral.hashedTexts) ∧
      (∃ u v, one.labelled = .ok u ∧ numeral.labelled = .ok v ∧ u.label = v.label) ∧
      Digest.TellsApart (one.hashedTexts ++ disguised.hashedTexts) ∧
      (¬ ∃ u v, one.labelled = .ok u ∧ disguised.labelled = .ok v ∧ u.label = v.label) ∧
      one.labelParts = .ok ["dd76210e304b0fb3"] ∧ numeral.labelParts = .ok ["dd76210e304b0fb3"] ∧
      one.kind = numeral.kind := by
  intro one numeral
  have hone : (Value.int 1).text = .ok (.ofString "1") := by decide +kernel
  have hnumeral : (Value.str "1").text = .ok (.ofString "1") := rfl
  have hnot : Digest.ofText "NOT|dd76210e304b0fb3" = "4e2159258b4b0f2c" := by decide +kernel
  have hdisguised : Digest.ofText "PERSON|NOT|dd76210e304b0fb3" = "90bfadc9a25bd69b" := by decide +kernel
  have hdigests : Digest.TellsApart (one.hashedTexts ++ numeral.hashedTexts) := by
    rw [hashedTexts_without_one hone, hashedTexts_without_one hnumeral]
    simp [Digest.TellsApart, digest_person_one, hnot]
  have hdigests' : Digest.TellsApart (one.hashedTexts ++ disguised.hashedTexts) := by
    rw [hashedTexts_without_one hone, hashedTexts_disguised]
    simp [Digest.TellsApart, digest_person_one, hnot, hdisguised]
  have hparts := labelParts_without_one hone
  have hparts' := labelParts_without_one hnumeral
  refine ⟨hdigests, ((same_label_iff_alike one numeral).1 hdigests).2 (.not (.person hone hnumeral)),
    hdigests', fun h => ?_, hparts, hparts',
    ((same_label_iff_alike one numeral).2 _ _ hparts hparts' rfl).1⟩
  exact not_alike_disguised _ (((same_label_iff_alike one disguised).1 hdigests').1 h)

end Formula

/-! ## Unambiguous labels -/

namespace Labelled

theorem formula_parts_subset {node part : Labelled} (h : part ∈ node.parts) :
    part.formula.parts ⊆ node.formula.parts := by
  induction node with
  | person | always =>
    cases List.mem_singleton.1 h
    exact List.Subset.refl _
  | not l f ih =>
    rcases List.mem_cons.1 h with rfl | h
    · exact List.Subset.refl _
    · exact List.subset_cons_of_subset _ (ih h)
  | and l f g ihf ihg | or l f g ihf ihg =>
    rcases List.mem_cons.1 h with rfl | h
    · exact List.Subset.refl _
    · refine List.subset_cons_of_subset _ ?_
      rcases List.mem_append.1 h with h | h
      · exact List.subset_append_of_subset_left _ (ihf h)
      · exact List.subset_append_of_subset_right _ (ihg h)

/-- **Labels are unambiguous where digests are**, as long as ids with the same text are the same. -/
theorem unambiguous_of_tellsApart {nodes : List Labelled}
    (hlabelled : ∀ node ∈ nodes, node.formula.labelled = .ok node)
    (hdigests : Digest.TellsApart (nodes.flatMap fun node => node.formula.hashedTexts))
    (hids : ∀ a ∈ nodes, ∀ b ∈ nodes, ∀ i j, .person i ∈ a.formula.parts → .person j ∈ b.formula.parts →
      i.text = j.text → i = j) : Unambiguous nodes := by
  intro s hs t ht hlabel
  obtain ⟨a, ha, hs⟩ := List.mem_flatMap.1 hs
  obtain ⟨b, hb, ht⟩ := List.mem_flatMap.1 ht
  have hsparts := formula_parts_subset hs
  have htparts := formula_parts_subset ht
  have halike : s.formula.Alike t.formula := by
    refine Formula.alike_of_label_eq (hdigests.mono (List.append_subset.2 ⟨?_, ?_⟩))
      (Formula.label_eq_ok_iff_labelled.2 ⟨s, Formula.labelled_of_mem_parts (hlabelled a ha) hs, hlabel⟩)
      (Formula.label_eq_ok_iff_labelled.2 ⟨t, Formula.labelled_of_mem_parts (hlabelled b hb) ht, rfl⟩)
    · exact fun x hx => List.mem_flatMap.2 ⟨a, ha, Formula.hashedTexts_mono hsparts hx⟩
    · exact fun x hx => List.mem_flatMap.2 ⟨b, hb, Formula.hashedTexts_mono htparts hx⟩
  exact halike.eq fun i j hi hj => hids a ha b hb i j (hsparts hi) (htparts hj)

end Labelled
end BalancedTeams
