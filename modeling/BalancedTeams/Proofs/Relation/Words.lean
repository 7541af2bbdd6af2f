import BalancedTeams.Proofs.Relation.Lexing
import BalancedTeams.Proofs.Mention.Scanning
import Mathlib.Data.Prod.Lex

/-!
# What tokens stand for

* `Text.IsWord` : the longest runs of word characters, and where they begin;
* `Text.Element`, `Entry.Element` : a mention, a parenthesis or an operator in the entries, with its
  letters;
* `Text.words_induction` : texts taken apart word by word;
* `Token.Reading` : the tokens of one text are its elements, in the order of their offsets;
* `Entry.Offence` : a word that is no operator, or an entry that is neither text nor mention;
* `Token.ofEntries_reads_elements` : the tokens of entries are their elements, in the order of their
  places, unless there is an offence, and then the first one is reported.
-/

namespace BalancedTeams

/-- In capital letters the word is the name of the operator. -/
def IsOperatorWord (kind : Kind) (word : Text) : Prop :=
  kind ∈ [Kind.and, .or, .not] ∧ word.map (CodePoint.mapChar Char.toUpper) = kind.text

theorem operator?_eq_some_iff {word : Text} {kind : Kind} :
    operator? word = some kind ↔ IsOperatorWord kind word := by
  have hand : (("AND" : String) : Text) = Kind.and.text := rfl
  have hor : (("OR" : String) : Text) = Kind.or.text := rfl
  have hnot : (("NOT" : String) : Text) = Kind.not.text := rfl
  unfold operator? IsOperatorWord
  simp only [hand, hor, hnot]
  constructor
  · intro h
    split at h
    · next heq =>
      cases h
      exact ⟨by simp, heq⟩
    · split at h
      · next heq =>
        cases h
        exact ⟨by simp, heq⟩
      · split at h
        · next heq =>
          cases h
          exact ⟨by simp, heq⟩
        · cases h
  · rintro ⟨hkind, hupper⟩
    rw [hupper]
    simp only [List.mem_cons, List.not_mem_nil, or_false] at hkind
    rcases hkind with rfl | rfl | rfl <;> rfl

/-- The character is the parenthesis of this kind. -/
def IsParenthesis (kind : Kind) (c : CodePoint) : Prop :=
  (kind = .opening ∧ c = '(') ∨ (kind = .closing ∧ c = ')')

theorem IsParenthesis.isWordPoint {kind : Kind} {c : CodePoint} (h : IsParenthesis kind c) :
    isWordPoint c = false := by
  rcases h with ⟨-, rfl⟩ | ⟨-, rfl⟩ <;> decide

theorem IsParenthesis.kind_eq {kind kind' : Kind} {c : CodePoint} (h : IsParenthesis kind c)
    (h' : IsParenthesis kind' c) : kind = kind' := by
  rcases h with ⟨rfl, rfl⟩ | ⟨rfl, rfl⟩ <;> rcases h' with ⟨rfl, hc⟩ | ⟨rfl, hc⟩ <;> cases hc <;> rfl

theorem exists_isParenthesis {c : CodePoint} (hpoint : isWordPoint c = false)
    (hblank : Text.isBlank c = false) : ∃ kind, IsParenthesis kind c := by
  simp only [isWordPoint, hblank, Bool.not_false, Bool.true_and, Bool.and_eq_false_iff,
    bne_eq_false_iff_eq] at hpoint
  rcases hpoint with rfl | rfl
  · exact ⟨.opening, Or.inl ⟨rfl, rfl⟩⟩
  · exact ⟨.closing, Or.inr ⟨rfl, rfl⟩⟩

/-! ## Words -/

namespace Text

/-- The letters `w` at offset `o` of the text are a word: a run of word characters that goes on
neither to the left nor to the right. -/
structure IsWord (t : Text) (o : Nat) (w : Text) : Prop where
  ne_nil : w ≠ []
  all : ∀ c ∈ w, isWordPoint c = true
  apart : ∃ before after, t = before ++ (w ++ after) ∧ before.length = o ∧
    (∀ c ∈ before.getLast?, isWordPoint c = false) ∧ ∀ c ∈ after.head?, isWordPoint c = false

/-- What stands at offset `o` of the text and is read as a token of this kind, with its letters. -/
inductive Element (t : Text) (o : Nat) : Kind → Text → Prop
  | parenthesis {kind : Kind} {c : CodePoint} (h : t[o]? = some c) (hkind : IsParenthesis kind c) :
      Element t o kind [c]
  | operator {kind : Kind} {w : Text} (h : t.IsWord o w) (hkind : IsOperatorWord kind w) :
      Element t o kind w

variable {c : CodePoint} {rest run w : Text} {o : Nat} {kind : Kind}

theorem not_isWord_nil : ¬ IsWord [] o w := by
  rintro ⟨hne, -, before, after, h, -⟩
  simp_all

theorem isWord_cons_iff (hc : isWordPoint c = false) :
    IsWord (c :: rest) o w ↔ ∃ p, o = p + 1 ∧ IsWord rest p w := by
  constructor
  · rintro ⟨hne, hall, before, after, h, rfl, hbefore, hafter⟩
    cases before with
    | nil =>
      obtain ⟨d, v, rfl⟩ := List.exists_cons_of_ne_nil hne
      cases h
      rw [hall c List.mem_cons_self] at hc
      cases hc
    | cons d before =>
      cases h
      refine ⟨before.length, rfl, hne, hall, before, after, rfl, rfl, ?_, hafter⟩
      intro e he
      apply hbefore e
      rw [List.getLast?_cons, Option.mem_def.1 he]
      rfl
  · rintro ⟨p, rfl, hne, hall, before, after, rfl, rfl, hbefore, hafter⟩
    refine ⟨hne, hall, c :: before, after, rfl, rfl, ?_, hafter⟩
    intro e he
    rw [List.getLast?_cons] at he
    cases hlast : before.getLast? with
    | none =>
      rw [hlast] at he
      cases he
      exact hc
    | some d =>
      rw [hlast] at he
      cases he
      exact hbefore d hlast

/-- A run at the beginning is a word, and the other words come after it. -/
theorem isWord_append_iff (hne : run ≠ []) (hrun : ∀ c ∈ run, isWordPoint c = true)
    (hends : ∀ c ∈ rest.head?, isWordPoint c = false) :
    IsWord (run ++ rest) o w ↔ (o = 0 ∧ w = run) ∨ ∃ p, o = run.length + p ∧ IsWord rest p w := by
  constructor
  · rintro ⟨hw, hall, before, after, h, rfl, hbefore, hafter⟩
    rcases List.append_eq_append_iff.1 h with ⟨x, rfl, hx⟩ | ⟨x, rfl, hx⟩
    · rcases List.eq_nil_or_concat' x with rfl | ⟨y, d, rfl⟩
      · obtain ⟨d, hd⟩ := List.getLast?_isSome.2 hne |> Option.isSome_iff_exists.1
        have hpoint := hbefore d (by simpa using hd)
        rw [hrun d (List.mem_of_getLast? hd)] at hpoint
        cases hpoint
      · refine Or.inr ⟨(y ++ [d]).length, List.length_append, hw, hall, _, after, hx, rfl, ?_, hafter⟩
        intro e he
        apply hbefore e
        rw [← List.append_assoc, List.getLast?_concat]
        rwa [List.getLast?_concat] at he
    · rcases List.eq_nil_or_concat' before with rfl | ⟨y, d, rfl⟩
      · refine Or.inl ⟨rfl, ?_⟩
        rw [← Entry.takeWhile_run hall hafter, hx]
        exact Entry.takeWhile_run hrun hends
      · have hpoint := hbefore d (by simp)
        rw [hrun d (by simp)] at hpoint
        cases hpoint
  · rintro (⟨rfl, rfl⟩ | ⟨p, rfl, hw, hall, before, after, rfl, rfl, hbefore, hafter⟩)
    · exact ⟨hne, hrun, [], rest, rfl, rfl, nofun, hends⟩
    · refine ⟨hw, hall, run ++ before, after, (List.append_assoc _ _ _).symm, List.length_append, ?_,
        hafter⟩
      intro e he
      rcases List.eq_nil_or_concat' before with rfl | ⟨y, d, rfl⟩
      · obtain ⟨d, v, rfl⟩ := List.exists_cons_of_ne_nil hw
        have hpoint := hends d rfl
        rw [hall d List.mem_cons_self] at hpoint
        cases hpoint
      · apply hbefore e
        rw [List.getLast?_concat]
        rwa [← List.append_assoc, List.getLast?_concat] at he

/-- A text is taken apart into words and the characters between them. -/
theorem words_induction {P : Text → Prop} (nil : P [])
    (other : ∀ c rest, isWordPoint c = false → P rest → P (c :: rest))
    (word : ∀ run rest : Text, run ≠ [] → (∀ c ∈ run, isWordPoint c = true) →
      (∀ c ∈ rest.head?, isWordPoint c = false) → P rest → P (run ++ rest)) (t : Text) : P t := by
  match t with
  | [] => exact nil
  | c :: rest =>
    cases hc : isWordPoint c with
    | false => exact other c rest hc (words_induction nil other word rest)
    | true =>
      have hsplit : (c :: rest.takeWhile isWordPoint) ++ rest.dropWhile isWordPoint = c :: rest :=
        congrArg (c :: ·) List.takeWhile_append_dropWhile
      rw [← hsplit]
      refine word _ _ (List.cons_ne_nil _ _) ?_ ?_ (words_induction nil other word _)
      · intro d hd
        rcases List.mem_cons.1 hd with rfl | hd
        · exact hc
        · exact List.mem_takeWhile_imp hd
      · intro d hd
        have h := List.head?_dropWhile_not isWordPoint rest
        rw [Option.mem_def.1 hd] at h
        exact h
termination_by t.length
decreasing_by
  · exact Nat.lt_succ_self _
  · exact Nat.lt_succ_of_le (List.dropWhile_sublist _).length_le

theorem exists_isWord {t : Text} (hc : t[o]? = some c) (hpoint : isWordPoint c = true) :
    ∃ p w, IsWord t p w ∧ p ≤ o ∧ o < p + w.length := by
  induction t using words_induction generalizing o with
  | nil => cases hc
  | other d rest hd ih =>
    cases o with
    | zero =>
      cases hc
      rw [hpoint] at hd
      cases hd
    | succ o =>
      obtain ⟨p, w, hw, hle, hlt⟩ := ih hc
      exact ⟨p + 1, w, (isWord_cons_iff hd).2 ⟨p, rfl, hw⟩, by omega, by omega⟩
  | word run rest hne hrun hends ih =>
    rcases Nat.lt_or_ge o run.length with hlt | hge
    · exact ⟨0, run, (isWord_append_iff hne hrun hends).2 (Or.inl ⟨rfl, rfl⟩), by omega, by omega⟩
    · rw [List.getElem?_append_right hge] at hc
      obtain ⟨p, w, hw, hle, hlt⟩ := ih hc
      exact ⟨run.length + p, w, (isWord_append_iff hne hrun hends).2 (Or.inr ⟨p, rfl, hw⟩),
        by omega, by omega⟩

theorem IsWord.eq_of_overlap {t v : Text} {p q : Nat} (hw : IsWord t p w) (hv : IsWord t q v)
    (hp : p ≤ o) (hpo : o < p + w.length) (hq : q ≤ o) (hqo : o < q + v.length) : p = q ∧ w = v := by
  induction t using words_induction generalizing p q o with
  | nil => exact absurd hw not_isWord_nil
  | other c rest hc ih =>
    obtain ⟨p, rfl, hw'⟩ := (isWord_cons_iff hc).1 hw
    obtain ⟨q, rfl, hv'⟩ := (isWord_cons_iff hc).1 hv
    obtain ⟨rfl, rfl⟩ := ih hw' hv' (o := o - 1) (by omega) (by omega) (by omega) (by omega)
    exact ⟨rfl, rfl⟩
  | word run rest hne hrun hends ih =>
    rcases (isWord_append_iff hne hrun hends).1 hw with ⟨rfl, rfl⟩ | ⟨p, rfl, hw'⟩
    · rcases (isWord_append_iff hne hrun hends).1 hv with ⟨rfl, rfl⟩ | ⟨q, rfl, -⟩
      · exact ⟨rfl, rfl⟩
      · omega
    · rcases (isWord_append_iff hne hrun hends).1 hv with ⟨rfl, rfl⟩ | ⟨q, rfl, hv'⟩
      · omega
      · obtain ⟨rfl, rfl⟩ := ih hw' hv' (o := o - run.length) (by omega) (by omega) (by omega) (by omega)
        exact ⟨rfl, rfl⟩

theorem IsWord.point {t : Text} {p : Nat} (hw : IsWord t p w) (hp : p ≤ o)
    (hpo : o < p + w.length) (hc : t[o]? = some c) : isWordPoint c = true := by
  obtain ⟨-, hall, before, after, rfl, rfl, -, -⟩ := hw
  rw [List.getElem?_append_right hp, List.getElem?_append_left (by omega)] at hc
  exact hall c (List.mem_of_getElem? hc)

/-! ## Elements -/

theorem element_cons_iff (hc : isWordPoint c = false) : Element (c :: rest) o kind w ↔
    (o = 0 ∧ IsParenthesis kind c ∧ w = [c]) ∨ ∃ p, o = p + 1 ∧ Element rest p kind w := by
  constructor
  · intro h
    cases h with
    | parenthesis h hkind =>
      cases o with
      | zero =>
        cases h
        exact Or.inl ⟨rfl, hkind, rfl⟩
      | succ p => exact Or.inr ⟨p, rfl, .parenthesis h hkind⟩
    | operator h hkind =>
      obtain ⟨p, rfl, hw⟩ := (isWord_cons_iff hc).1 h
      exact Or.inr ⟨p, rfl, .operator hw hkind⟩
  · rintro (⟨rfl, hkind, rfl⟩ | ⟨p, rfl, h⟩)
    · exact .parenthesis rfl hkind
    · cases h with
      | parenthesis h hkind => exact .parenthesis h hkind
      | operator h hkind => exact .operator ((isWord_cons_iff hc).2 ⟨p, rfl, h⟩) hkind

theorem element_append_iff (hne : run ≠ []) (hrun : ∀ c ∈ run, isWordPoint c = true)
    (hends : ∀ c ∈ rest.head?, isWordPoint c = false) : Element (run ++ rest) o kind w ↔
    (o = 0 ∧ IsOperatorWord kind run ∧ w = run) ∨
      ∃ p, o = run.length + p ∧ Element rest p kind w := by
  have hlater : ∀ p, (run ++ rest)[run.length + p]? = rest[p]? := by
    intro p
    rw [List.getElem?_append_right (Nat.le_add_right _ _), Nat.add_sub_cancel_left]
  constructor
  · intro h
    cases h with
    | parenthesis h hkind =>
      rcases Nat.lt_or_ge o run.length with hlt | hge
      · rw [List.getElem?_append_left hlt] at h
        have hpoint := hkind.isWordPoint
        rw [hrun _ (List.mem_of_getElem? h)] at hpoint
        cases hpoint
      · rw [List.getElem?_append_right hge] at h
        exact Or.inr ⟨o - run.length, by omega, .parenthesis h hkind⟩
    | operator h hkind =>
      rcases (isWord_append_iff hne hrun hends).1 h with ⟨rfl, rfl⟩ | ⟨p, rfl, hw⟩
      · exact Or.inl ⟨rfl, hkind, rfl⟩
      · exact Or.inr ⟨p, rfl, .operator hw hkind⟩
  · rintro (⟨rfl, hkind, rfl⟩ | ⟨p, rfl, h⟩)
    · exact .operator ((isWord_append_iff hne hrun hends).2 (Or.inl ⟨rfl, rfl⟩)) hkind
    · cases h with
      | parenthesis h hkind => exact .parenthesis ((hlater p).trans h) hkind
      | operator h hkind =>
        exact .operator ((isWord_append_iff hne hrun hends).2 (Or.inr ⟨p, rfl, h⟩)) hkind

/-- Where all words are operators, every character that is not blank is in an element. -/
theorem exists_element {t : Text} (hwords : ∀ o w, IsWord t o w → ∃ kind, IsOperatorWord kind w)
    (hc : t[o]? = some c) (hblank : isBlank c = false) :
    ∃ p kind w, Element t p kind w ∧ p ≤ o ∧ o < p + w.length := by
  cases hpoint : BalancedTeams.isWordPoint c with
  | true =>
    obtain ⟨p, w, hw, hle, hlt⟩ := exists_isWord hc hpoint
    obtain ⟨kind, hkind⟩ := hwords p w hw
    exact ⟨p, kind, w, .operator hw hkind, hle, hlt⟩
  | false =>
    obtain ⟨kind, hkind⟩ := exists_isParenthesis hpoint hblank
    exact ⟨o, kind, [c], .parenthesis hc hkind, Nat.le_refl o, Nat.lt_succ_self o⟩

theorem IsWord.not_isParenthesis {t : Text} {p : Nat} (hw : IsWord t p w) (hp : p ≤ o)
    (hpo : o < p + w.length) (hc : t[o]? = some c) : ¬ IsParenthesis kind c := by
  intro h
  have hpoint := hw.point hp hpo hc
  rw [h.isWordPoint] at hpoint
  cases hpoint

/-- Elements do not overlap. -/
theorem Element.eq_of_overlap {t v : Text} {p q : Nat} {kind' : Kind} (hw : Element t p kind w)
    (hv : Element t q kind' v) (hp : p ≤ o) (hpo : o < p + w.length) (hq : q ≤ o)
    (hqo : o < q + v.length) : p = q ∧ kind = kind' := by
  cases hw with
  | parenthesis h hkind =>
    obtain rfl : p = o := Nat.le_antisymm hp (Nat.le_of_lt_succ hpo)
    cases hv with
    | parenthesis h' hkind' =>
      obtain rfl : q = p := Nat.le_antisymm hq (Nat.le_of_lt_succ hqo)
      rw [h] at h'
      cases h'
      exact ⟨rfl, hkind.kind_eq hkind'⟩
    | operator h' => exact absurd hkind (h'.not_isParenthesis hq hqo h)
  | operator h hkind =>
    cases hv with
    | parenthesis h' hkind' =>
      obtain rfl : q = o := Nat.le_antisymm hq (Nat.le_of_lt_succ hqo)
      exact absurd hkind' (h.not_isParenthesis hp hpo h')
    | operator h' hkind' =>
      obtain ⟨rfl, rfl⟩ := h.eq_of_overlap h' hp hpo hq hqo
      have hboth := (operator?_eq_some_iff.2 hkind).symm.trans (operator?_eq_some_iff.2 hkind')
      exact ⟨rfl, Option.some.inj hboth⟩

end Text

/-! ## Tokens of a text -/

namespace Token
variable {entry base : Nat} {c : CodePoint} {rest run t : Text} {kind : Kind} {ts : List Token}

theorem ofText_blank (hc : Text.isBlank c = true) :
    ofText entry base (c :: rest) = ofText entry (base + 1) rest := by
  have hopen : c ≠ CodePoint.char '(' := by
    rintro rfl
    exact absurd hc (by decide)
  have hclose : c ≠ CodePoint.char ')' := by
    rintro rfl
    exact absurd hc (by decide)
  rw [ofText, if_neg hopen, if_neg hclose, if_pos hc]

theorem ofText_parenthesis (hkind : IsParenthesis kind c) : ofText entry base (c :: rest) =
    (do
      let ts ← ofText entry (base + 1) rest
      return { kind, entry, offset := base } :: ts) := by
  rcases hkind with ⟨rfl, rfl⟩ | ⟨rfl, rfl⟩
  · rw [ofText, if_pos rfl]
  · rw [ofText, if_neg (by decide), if_pos rfl]

theorem ofText_word (hne : run ≠ []) (hrun : ∀ c ∈ run, isWordPoint c = true)
    (hends : ∀ c ∈ rest.head?, isWordPoint c = false) : ofText entry base (run ++ rest) =
    match operator? run with
    | none => .error (.word none (.unexpected run entry base))
    | some kind => do
      let ts ← ofText entry (base + run.length) rest
      return { kind, entry, offset := base } :: ts := by
  obtain ⟨c, more, rfl⟩ := List.exists_cons_of_ne_nil hne
  obtain ⟨hc, hmore⟩ := List.forall_mem_cons.1 hrun
  have htake : (more ++ rest).takeWhile isWordPoint = more := Entry.takeWhile_run hmore hends
  simp only [isWordPoint, Bool.and_eq_true, Bool.not_eq_true', bne_iff_ne, ne_eq] at hc
  obtain ⟨⟨hblank, hopen⟩, hclose⟩ := hc
  rw [List.cons_append, ofText, if_neg hopen, if_neg hclose, if_neg (by simp [hblank])]
  have hlength : base + 1 + more.length = base + (c :: more).length := by
    rw [List.length_cons]
    omega
  cases hkind : operator? (c :: more) with
  | none => simp only [htake, hkind]
  | some kind => simp only [htake, hkind, List.drop_left, hlength]

/-- Every word of the text is an operator, and the tokens are the elements of the text in the order
of their offsets, which are counted from `base`. -/
structure Reading (t : Text) (entry base : Nat) (ts : List Token) : Prop where
  words : ∀ o w, t.IsWord o w → ∃ kind, IsOperatorWord kind w
  mem_iff : ∀ tok : Token, tok ∈ ts ↔ ∃ o w, t.Element o tok.kind w ∧ tok.ref = none ∧
    tok.entry = entry ∧ tok.offset = base + o
  sorted : ts.Pairwise fun a b => a.offset < b.offset

namespace Reading

theorem nil : Reading [] entry base [] := by
  refine ⟨fun o w hw => absurd hw Text.not_isWord_nil, fun tok => ⟨nofun, ?_⟩, .nil⟩
  rintro ⟨o, w, h, -⟩
  cases h with
  | parenthesis h => cases h
  | operator h => exact absurd h Text.not_isWord_nil

theorem blank (hc : Text.isBlank c = true) (h : Reading rest entry (base + 1) ts) :
    Reading (c :: rest) entry base ts := by
  have hpoint : isWordPoint c = false := by simp [isWordPoint, hc]
  have hnone : ∀ kind, ¬ IsParenthesis kind c := by
    rintro kind (⟨-, rfl⟩ | ⟨-, rfl⟩) <;> exact absurd hc (by decide)
  refine ⟨?_, fun tok => ?_, h.sorted⟩
  · intro o w hw
    obtain ⟨p, -, hw⟩ := (Text.isWord_cons_iff hpoint).1 hw
    exact h.words p w hw
  · rw [h.mem_iff]
    constructor
    · rintro ⟨o, w, helement, href, hentry, hoffset⟩
      exact ⟨o + 1, w, (Text.element_cons_iff hpoint).2 (Or.inr ⟨o, rfl, helement⟩), href, hentry,
        by omega⟩
    · rintro ⟨o, w, helement, href, hentry, hoffset⟩
      rcases (Text.element_cons_iff hpoint).1 helement with ⟨-, hkind, -⟩ | ⟨p, rfl, hrest⟩
      · exact absurd hkind (hnone _)
      · exact ⟨p, w, hrest, href, hentry, by omega⟩

/-- An element at the beginning of the text, and a reading of what comes after it. -/
theorem cons {n : Nat} {w : Text} (hn : 0 < n)
    (hwords : ∀ o v, t.IsWord o v → (∃ kind, IsOperatorWord kind v) ∨ ∃ p, rest.IsWord p v)
    (helements : ∀ o k v, t.Element o k v ↔
      (o = 0 ∧ k = kind ∧ v = w) ∨ ∃ p, o = n + p ∧ rest.Element p k v)
    (h : Reading rest entry (base + n) ts) :
    Reading t entry base ({ kind, entry, offset := base } :: ts) := by
  refine ⟨?_, ?_, List.pairwise_cons.2 ⟨?_, h.sorted⟩⟩
  · intro o v hv
    rcases hwords o v hv with hkind | ⟨p, hp⟩
    · exact hkind
    · exact h.words p v hp
  · intro tok
    rw [List.mem_cons, h.mem_iff]
    constructor
    · rintro (rfl | ⟨o, v, helement, href, hentry, hoffset⟩)
      · exact ⟨0, w, (helements 0 kind w).2 (Or.inl ⟨rfl, rfl, rfl⟩), rfl, rfl, rfl⟩
      · exact ⟨n + o, v, (helements _ _ _).2 (Or.inr ⟨o, rfl, helement⟩), href, hentry, by omega⟩
    · rintro ⟨o, v, helement, href, hentry, hoffset⟩
      rcases (helements _ _ _).1 helement with ⟨rfl, hkind, -⟩ | ⟨p, rfl, hrest⟩
      · left
        cases tok
        simp_all
      · exact Or.inr ⟨p, v, hrest, href, hentry, by omega⟩
  · intro tok htok
    obtain ⟨o, v, -, -, -, hoffset⟩ := (h.mem_iff tok).1 htok
    show base < tok.offset
    omega

theorem parenthesis (hkind : IsParenthesis kind c) (h : Reading rest entry (base + 1) ts) :
    Reading (c :: rest) entry base ({ kind, entry, offset := base } :: ts) := by
  refine cons Nat.one_pos (w := [c]) ?_ ?_ h
  · intro o v hv
    obtain ⟨p, -, hv⟩ := (Text.isWord_cons_iff hkind.isWordPoint).1 hv
    exact Or.inr ⟨p, hv⟩
  · intro o k v
    have hsame : IsParenthesis k c ↔ k = kind := ⟨fun h => h.kind_eq hkind, fun h => h ▸ hkind⟩
    rw [Text.element_cons_iff hkind.isWordPoint, hsame]
    simp only [Nat.add_comm]

theorem operator (hne : run ≠ []) (hrun : ∀ c ∈ run, isWordPoint c = true)
    (hends : ∀ c ∈ rest.head?, isWordPoint c = false) (hkind : IsOperatorWord kind run)
    (h : Reading rest entry (base + run.length) ts) :
    Reading (run ++ rest) entry base ({ kind, entry, offset := base } :: ts) := by
  refine cons (List.length_pos_iff.2 hne) (w := run) ?_ ?_ h
  · intro o v hv
    rcases (Text.isWord_append_iff hne hrun hends).1 hv with ⟨-, rfl⟩ | ⟨p, -, hv⟩
    · exact Or.inl ⟨kind, hkind⟩
    · exact Or.inr ⟨p, hv⟩
  · intro o k v
    have hsame : IsOperatorWord k run ↔ k = kind := by
      rw [← operator?_eq_some_iff, operator?_eq_some_iff.2 hkind, Option.some.injEq, eq_comm]
    rw [Text.element_append_iff hne hrun hends, hsame]

end Reading

/-- The first word that is no operator, at its offset from `base` on. -/
def IsUnexpected (t : Text) (entry base : Nat) (e : Fault) : Prop :=
  ∃ o w, t.IsWord o w ∧ (∀ kind, ¬ IsOperatorWord kind w) ∧
    e = .word none (.unexpected w entry (base + o)) ∧
    ∀ p v, t.IsWord p v → (∀ kind, ¬ IsOperatorWord kind v) → o ≤ p

theorem IsUnexpected.shift {n : Nat} {e : Fault} (h : IsUnexpected rest entry (base + n) e)
    (hwords : ∀ o w, (∀ kind, ¬ IsOperatorWord kind w) →
      (t.IsWord o w ↔ ∃ p, o = n + p ∧ rest.IsWord p w)) : IsUnexpected t entry base e := by
  obtain ⟨o, w, hw, hnone, rfl, hleast⟩ := h
  refine ⟨n + o, w, (hwords _ w hnone).2 ⟨o, rfl, hw⟩, hnone, by rw [Nat.add_assoc], ?_⟩
  intro p v hv hnone'
  obtain ⟨q, rfl, hv'⟩ := (hwords p v hnone').1 hv
  exact Nat.add_le_add_left (hleast q v hv' hnone') n

/-- A text is read to its end, or up to the first word that is no operator. -/
theorem ofText_reads (t : Text) (entry base : Nat) :
    (∃ ts, ofText entry base t = .ok ts ∧ Reading t entry base ts) ∨
      ∃ e, ofText entry base t = .error e ∧ IsUnexpected t entry base e := by
  induction t using Text.words_induction generalizing base with
  | nil => exact Or.inl ⟨[], by rw [ofText], .nil⟩
  | other c rest hc ih =>
    have hlater : ∀ e, IsUnexpected rest entry (base + 1) e → IsUnexpected (c :: rest) entry base e := by
      intro e he
      apply he.shift
      intro o w _
      rw [Text.isWord_cons_iff hc]
      simp only [Nat.add_comm]
    cases hblank : Text.isBlank c with
    | true =>
      rw [ofText_blank hblank]
      rcases ih (base + 1) with ⟨ts, hts, hread⟩ | ⟨e, he, hfirst⟩
      · exact Or.inl ⟨ts, hts, hread.blank hblank⟩
      · exact Or.inr ⟨e, he, hlater e hfirst⟩
    | false =>
      obtain ⟨kind, hkind⟩ := exists_isParenthesis hc hblank
      rw [ofText_parenthesis hkind]
      rcases ih (base + 1) with ⟨ts, hts, hread⟩ | ⟨e, he, hfirst⟩
      · rw [hts]
        exact Or.inl ⟨_, rfl, hread.parenthesis hkind⟩
      · rw [he]
        exact Or.inr ⟨e, rfl, hlater e hfirst⟩
  | word run rest hne hrun hends ih =>
    rw [ofText_word hne hrun hends]
    have hword := fun o w => Text.isWord_append_iff (o := o) (w := w) hne hrun hends
    cases hkind : operator? run with
    | none =>
      have hnone : ∀ kind, ¬ IsOperatorWord kind run := by
        intro kind h
        rw [operator?_eq_some_iff.2 h] at hkind
        cases hkind
      exact Or.inr ⟨_, rfl, 0, run, (hword 0 run).2 (Or.inl ⟨rfl, rfl⟩), hnone, rfl,
        fun p v _ _ => Nat.zero_le p⟩
    | some kind =>
      have hkind := operator?_eq_some_iff.1 hkind
      rcases ih (base + run.length) with ⟨ts, hts, hread⟩ | ⟨e, he, hfirst⟩
      · rw [hts]
        exact Or.inl ⟨_, rfl, hread.operator hne hrun hends hkind⟩
      · rw [he]
        refine Or.inr ⟨e, rfl, hfirst.shift fun o w hnone => (hword o w).trans (or_iff_right ?_)⟩
        rintro ⟨-, rfl⟩
        exact hnone kind hkind

end Token

/-! ## Entries -/

namespace Entry

/-- What stands at an offset of the entry and is read as a token of this kind, with what it refers to
and its letters. A mention has no letters. -/
inductive Element : Entry → Nat → Kind → Option Ref → Text → Prop
  | mention (r : Ref) : Element (.ref r) 0 .mention (some r) []
  | text {t : Text} {o : Nat} {kind : Kind} {w : Text} (h : t.Element o kind w) :
      Element (.text t) o kind none w

/-- Every word of the entry is an operator, and the entry is a text or a mention. -/
def IsReadable : Entry → Prop
  | .text t => ∀ o w, t.IsWord o w → ∃ kind, IsOperatorWord kind w
  | .ref _ => True
  | .foreign _ => False

/-- What is wrong at an offset of the entry with index `i`: a word that is no operator, or that the
entry is neither text nor mention, which is reported with the value unless it cannot be written. -/
inductive Offence (i : Nat) : Entry → Nat → Fault → Prop
  | word {t : Text} {o : Nat} {w : Text} (h : t.IsWord o w)
      (hnone : ∀ kind, ¬ IsOperatorWord kind w) :
      Offence i (.text t) o (.word none (.unexpected w i o))
  | foreign {v : Value} {shown : Text} (h : v.quoted = .ok shown) :
      Offence i (.foreign v) 0 (.word none (.foreignEntry shown i))
  | unwritable {v : Value} {f : TextFault} (h : v.quoted = .error f) :
      Offence i (.foreign v) 0 (.text f)

theorem forall_isReadable_iff {entries : List Entry} :
    (∀ x ∈ entries, x.IsReadable) ↔ (∀ v, Entry.foreign v ∉ entries) ∧
      ∀ t, Entry.text t ∈ entries → ∀ o w, t.IsWord o w → ∃ kind, IsOperatorWord kind w := by
  constructor
  · exact fun h => ⟨fun v hv => h _ hv, fun t ht => h _ ht⟩
  · rintro ⟨hforeign, hwords⟩ x hx
    cases x with
    | text t => exact hwords t hx
    | ref r => trivial
    | foreign v => exact hforeign v hx

theorem not_offence_of_isReadable {i o : Nat} {e : Fault} {x : Entry} (hx : x.IsReadable) :
    ¬ x.Offence i o e := by
  intro h
  cases h with
  | word h hnone =>
    obtain ⟨kind, hkind⟩ := hx _ _ h
    exact hnone kind hkind
  | foreign => exact hx
  | unwritable => exact hx

end Entry

namespace Token

/-- The element of the entries at the place of the token is the one that the token stands for. -/
def StandsFor (entries : List Entry) (t : Token) (w : Text) : Prop :=
  ∃ e, entries[t.entry]? = some e ∧ e.Element t.offset t.kind t.ref w

theorem exists_standsFor_iff {entries : List Entry} {t : Token} :
    (∃ w, t.StandsFor entries w) ↔ ∃ i x, entries[i]? = some x ∧ t.entry = i ∧
      ∃ w, x.Element t.offset t.kind t.ref w := by
  constructor
  · rintro ⟨w, x, hx, helement⟩
    exact ⟨t.entry, x, hx, rfl, w, helement⟩
  · rintro ⟨i, x, hx, hentry, w, helement⟩
    exact ⟨w, x, hentry ▸ hx, helement⟩

/-- The places of tokens: by entry, and by offset within an entry. -/
def place (t : Token) : Nat ×ₗ Nat := toLex (t.entry, t.offset)

/-- An entry is read as its elements, or refused for its first offence. -/
theorem ofEntry_reads (index : Nat) (x : Entry) :
    (∃ ts, ofEntry index x = .ok ts ∧ x.IsReadable ∧ (ts.Pairwise fun a b => a.offset < b.offset) ∧
      ∀ tok : Token, tok ∈ ts ↔ tok.entry = index ∧ ∃ w, x.Element tok.offset tok.kind tok.ref w) ∨
    ∃ e o, ofEntry index x = .error e ∧ x.Offence index o e ∧ ∀ p f, x.Offence index p f → o ≤ p := by
  cases x with
  | text t =>
    rcases ofText_reads t index 0 with ⟨ts, hts, hread⟩ | ⟨e, he, o, w, hw, hnone, rfl, hleast⟩
    · refine Or.inl ⟨ts, hts, hread.words, hread.sorted, fun tok => ?_⟩
      rw [hread.mem_iff]
      constructor
      · rintro ⟨o, w, helement, href, hentry, hoffset⟩
        obtain rfl : tok.offset = o := by omega
        rw [href]
        exact ⟨hentry, w, .text helement⟩
      · rintro ⟨hentry, w, helement⟩
        generalize tok.ref = ref at helement
        cases helement with
        | text helement => exact ⟨tok.offset, w, helement, rfl, hentry, by omega⟩
    · rw [Nat.zero_add] at he
      refine Or.inr ⟨_, o, he, .word hw hnone, fun p f hf => ?_⟩
      cases hf with
      | word hv hnone' => exact hleast p _ hv hnone'
  | ref r =>
    refine Or.inl ⟨_, rfl, trivial, List.pairwise_singleton _ _, fun tok => ?_⟩
    rw [List.mem_singleton]
    constructor
    · rintro rfl
      exact ⟨rfl, [], .mention r⟩
    · rintro ⟨hentry, w, helement⟩
      cases tok
      cases helement
      cases hentry
      rfl
  | foreign v =>
    cases hv : v.quoted with
    | ok shown =>
      refine Or.inr ⟨_, 0, ?_, .foreign hv, fun p f _ => Nat.zero_le p⟩
      simp only [ofEntry, hv]
      rfl
    | error f =>
      refine Or.inr ⟨_, 0, ?_, .unwritable hv, fun p f _ => Nat.zero_le p⟩
      simp only [ofEntry, hv]
      rfl

theorem exists_getElem?_cons_iff {α : Type} {P : Nat → α → Prop} {x : α} {xs : List α} :
    (∃ i y, (x :: xs)[i]? = some y ∧ P i y) ↔ P 0 x ∨ ∃ i y, xs[i]? = some y ∧ P (i + 1) y := by
  constructor
  · rintro ⟨i, y, hy, hP⟩
    cases i with
    | zero =>
      cases hy
      exact Or.inl hP
    | succ i => exact Or.inr ⟨i, y, hy, hP⟩
  · rintro (hP | ⟨i, y, hy, hP⟩)
    · exact ⟨0, x, rfl, hP⟩
    · exact ⟨i + 1, y, hy, hP⟩

/-- Entries are read as their elements, in the order of their places, or refused for their first
offence. -/
theorem ofEntriesFrom_reads (entries : List Entry) (index : Nat) :
    (∃ ts, ofEntriesFrom index entries = .ok ts ∧ (∀ x ∈ entries, x.IsReadable) ∧
      (ts.Pairwise fun a b => a.place < b.place) ∧
      ∀ tok : Token, tok ∈ ts ↔ ∃ i x, entries[i]? = some x ∧ tok.entry = index + i ∧
        ∃ w, x.Element tok.offset tok.kind tok.ref w) ∨
    ∃ (e : Fault) (i : Nat) (x : Entry) (o : Nat), ofEntriesFrom index entries = .error e ∧
      entries[i]? = some x ∧ x.Offence (index + i) o e ∧
      ∀ (j : Nat) (y : Entry) (p : Nat) (f : Fault), entries[j]? = some y →
        y.Offence (index + j) p f → toLex (i, o) ≤ toLex (j, p) := by
  induction entries generalizing index with
  | nil => exact Or.inl ⟨[], rfl, nofun, .nil, fun tok => ⟨nofun, by simp⟩⟩
  | cons x entries ih =>
    unfold ofEntriesFrom
    rcases ofEntry_reads index x with ⟨ts, hts, hx, hsorted, hmem⟩ | ⟨e, o, he, hoffence, hleast⟩
    · rw [hts]
      rcases ih (index + 1) with
        ⟨us, hus, hall, hsorted', hmem'⟩ | ⟨e, i, y, o, he, hy, hoffence, hleast⟩
      · rw [hus]
        refine Or.inl ⟨ts ++ us, rfl, List.forall_mem_cons.2 ⟨hx, hall⟩, ?_, fun tok => ?_⟩
        · rw [List.pairwise_append]
          refine ⟨hsorted.imp_of_mem ?_, hsorted', ?_⟩
          · intro a b ha hb hab
            rw [place, place, ((hmem a).1 ha).1, ((hmem b).1 hb).1]
            exact Prod.Lex.toLex_lt_toLex.2 (Or.inr ⟨rfl, hab⟩)
          · intro a ha b hb
            obtain ⟨j, y, -, hentry, -⟩ := (hmem' b).1 hb
            rw [place, place, ((hmem a).1 ha).1, hentry]
            exact Prod.Lex.toLex_lt_toLex.2 (Or.inl (by simp only; omega))
        · rw [List.mem_append, hmem, hmem', exists_getElem?_cons_iff]
          simp only [Nat.add_zero, Nat.add_assoc, Nat.add_comm 1]
      · rw [he]
        refine Or.inr ⟨e, i + 1, y, o, rfl, hy, ?_, ?_⟩
        · rwa [Nat.add_assoc, Nat.add_comm 1] at hoffence
        · intro j z p f hz hf
          cases j with
          | zero =>
            cases hz
            exact absurd hf (Entry.not_offence_of_isReadable hx)
          | succ j =>
            rw [Nat.add_comm j, ← Nat.add_assoc] at hf
            have hle := hleast j z p f hz hf
            rw [Prod.Lex.toLex_le_toLex] at hle ⊢
            simp only at hle ⊢
            omega
    · rw [he]
      refine Or.inr ⟨e, 0, x, o, rfl, rfl, hoffence, ?_⟩
      intro j z p f hz hf
      rw [Prod.Lex.toLex_le_toLex]
      cases j with
      | zero =>
        cases hz
        exact Or.inr ⟨rfl, hleast p f hf⟩
      | succ j => exact Or.inl (Nat.succ_pos j)

/-- Exactly one token stands for the character at this offset of this text. -/
theorem existsUnique_covering {entries : List Entry} {ts : List Token}
    (hmem : ∀ tok : Token, tok ∈ ts ↔ ∃ w, tok.StandsFor entries w) {i : Nat} {t : Text} {o : Nat}
    {c : CodePoint} (ht : entries[i]? = some (.text t)) (hread : (Entry.text t).IsReadable)
    (hc : t[o]? = some c) (hblank : Text.isBlank c = false) :
    ∃! tok, tok ∈ ts ∧ tok.entry = i ∧
      ∃ w, tok.StandsFor entries w ∧ tok.offset ≤ o ∧ o < tok.offset + w.length := by
  obtain ⟨p, kind, w, helement, hp, hpo⟩ := Text.exists_element hread hc hblank
  have hstands : StandsFor entries { kind, entry := i, offset := p } w := ⟨_, ht, .text helement⟩
  refine ⟨{ kind, entry := i, offset := p }, ⟨(hmem _).2 ⟨w, hstands⟩, rfl, w, hstands, hp, hpo⟩, ?_⟩
  rintro ⟨kind', ref, _, q⟩ ⟨-, rfl, v, ⟨x, hx, helement'⟩, hq, hqo⟩
  rw [ht] at hx
  cases hx
  cases helement' with
  | text helement' =>
    obtain ⟨rfl, rfl⟩ := helement.eq_of_overlap helement' hp hpo hq hqo
    rfl

/-- **What is read from entries.** They are read exactly if each is a text or a mention and every
word of the texts is an operator. The tokens then stand in the order of their places, they are those
of the elements of the entries, and every character that is not blank belongs to one token. Otherwise
the fault is that of the first offence, which concerns a word or an entry, except where the value of
an entry that is neither text nor mention cannot be written. -/
theorem ofEntries_reads_elements (entries : List Entry) :
    ((∃ ts, ofEntries entries = .ok ts) ↔ (∀ v, Entry.foreign v ∉ entries) ∧
      ∀ t, Entry.text t ∈ entries → ∀ o w, t.IsWord o w → ∃ kind, IsOperatorWord kind w) ∧
    (∀ ts, ofEntries entries = .ok ts →
      (ts.Pairwise fun a b => a.place < b.place) ∧
      (∀ tok : Token, tok ∈ ts ↔ ∃ w, tok.StandsFor entries w) ∧
      ∀ (i : Nat) (t : Text) (o : Nat) (c : CodePoint), entries[i]? = some (.text t) →
        t[o]? = some c → Text.isBlank c = false → ∃! tok, tok ∈ ts ∧ tok.entry = i ∧
          ∃ w, tok.StandsFor entries w ∧ tok.offset ≤ o ∧ o < tok.offset + w.length) ∧
    (∀ e, ofEntries entries = .error e → ∃ (i : Nat) (x : Entry) (o : Nat),
      entries[i]? = some x ∧ x.Offence i o e ∧
      ∀ (j : Nat) (y : Entry) (p : Nat) (f : Fault), entries[j]? = some y → y.Offence j p f →
        toLex (i, o) ≤ toLex (j, p)) ∧
    ((∀ v, Entry.foreign v ∈ entries → v.isWritable = true) →
      ∀ e, ofEntries entries = .error e → ∃ w, e = .word none w) := by
  have hfault : (∀ v, Entry.foreign v ∈ entries → v.isWritable = true) →
      ∀ e, ofEntries entries = .error e → ∃ w, e = .word none w := by
    intro hwritable e he
    rcases ofEntriesFrom_fails entries 0 e he with hword | ⟨v, hv, hlong, -⟩
    · exact hword
    · rw [hwritable v hv] at hlong
      cases hlong
  rw [← Entry.forall_isReadable_iff]
  unfold ofEntries at hfault ⊢
  rcases ofEntriesFrom_reads entries 0 with
    ⟨ts, hts, hall, hsorted, hmem⟩ | ⟨e, i, x, o, he, hx, hoffence, hleast⟩
  · refine ⟨⟨fun _ => hall, fun _ => ⟨ts, hts⟩⟩, ?_, ?_, hfault⟩
    · intro us hus
      rw [hts] at hus
      cases hus
      have hstands : ∀ tok : Token, tok ∈ ts ↔ ∃ w, tok.StandsFor entries w := by
        intro tok
        simp only [hmem, exists_standsFor_iff, Nat.zero_add]
      refine ⟨hsorted, hstands, fun i t o c ht hc hblank => ?_⟩
      exact existsUnique_covering hstands ht (hall _ (List.mem_of_getElem? ht)) hc hblank
    · intro e he
      rw [hts] at he
      cases he
  · simp only [Nat.zero_add] at hoffence hleast
    refine ⟨⟨?_, ?_⟩, ?_, ?_, hfault⟩
    · rintro ⟨ts, hts⟩
      rw [he] at hts
      cases hts
    · intro hall
      exact absurd hoffence (Entry.not_offence_of_isReadable (hall x (List.mem_of_getElem? hx)))
    · intro ts hts
      rw [he] at hts
      cases hts
    · intro e' he'
      rw [he] at he'
      cases he'
      exact ⟨i, x, o, hx, hoffence, hleast⟩

end Token
end BalancedTeams
