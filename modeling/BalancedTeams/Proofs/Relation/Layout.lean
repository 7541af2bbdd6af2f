import BalancedTeams.Proofs.Relation.Words

/-!
# How relations are laid out as text

* `Lexeme`, `Lexeme.spelling` : mentions, operators in any letter case, and parentheses;
* `Laid` : lexemes one after the other with blanks between them, at least one between two that would
  run together;
* `Lexeme.IsReadAs` : the tokens of lexemes;
* `exists_tokens_of_laid` : the tokens of a text are those of its lexemes.
-/

namespace BalancedTeams

inductive Lexeme where
  | mention (name : Text)
  | word (kind : Kind) (letters : Text)
  | opening
  | closing
  deriving DecidableEq, Repr

namespace Lexeme

def spelling : Lexeme → Text
  | mention name => CodePoint.char '@' :: name
  | word _ letters => letters
  | opening => [CodePoint.char '(']
  | closing => [CodePoint.char ')']

/-- Two lexemes of this kind would run together. -/
def isSolid : Lexeme → Bool
  | mention _ => true
  | word _ _ => true
  | opening => false
  | closing => false

/-- A word in every mixture of small and capital letters. -/
def casings : List Char → List Text
  | [] => [[]]
  | l :: ls => (casings ls).flatMap fun w => [CodePoint.char l :: w, CodePoint.char l.toUpper :: w]

/-- The letters are those of the operator, in any case. -/
def IsOperator : Kind → Text → Prop
  | .and, w => w ∈ casings ['a', 'n', 'd']
  | .or, w => w ∈ casings ['o', 'r']
  | .not, w => w ∈ casings ['n', 'o', 't']
  | _, _ => False

instance (kind : Kind) (w : Text) : Decidable (IsOperator kind w) :=
  match kind with
  | .and => inferInstanceAs (Decidable (w ∈ casings ['a', 'n', 'd']))
  | .or => inferInstanceAs (Decidable (w ∈ casings ['o', 'r']))
  | .not => inferInstanceAs (Decidable (w ∈ casings ['n', 'o', 't']))
  | .mention | .opening | .closing | .other _ => inferInstanceAs (Decidable False)

def IsKnown (find? : Text → Option Ref) : Lexeme → Prop
  | mention name => isMentionable name = true ∧ ∃ r, find? name = some r
  | word kind letters => IsOperator kind letters
  | opening => True
  | closing => True

/-- The token that a lexeme is read as. -/
def IsReadAs (find? : Text → Option Ref) : Lexeme → Token → Prop
  | mention name, t => t.kind = .mention ∧ t.ref = find? name
  | word kind _, t => t.kind = kind
  | opening, t => t.kind = .opening
  | closing, t => t.kind = .closing

end Lexeme

/-- Each lexeme with the blanks after it. -/
inductive Laid : List Lexeme → Text → Prop
  | nil : Laid [] []
  | cons {l : Lexeme} {ls : List Lexeme} {gap text : Text} (hgap : gap.all Text.isBlank = true)
      (hsolid : l.isSolid = true → ∀ next ∈ ls.head?, next.isSolid = true → gap ≠ [])
      (h : Laid ls text) : Laid (l :: ls) (l.spelling ++ gap ++ text)

/-! ## Operators -/

namespace Lexeme

theorem operator_spec {kind : Kind} {w : Text} (h : IsOperator kind w) : operator? w = some kind ∧
    w ≠ [] ∧ ∀ c ∈ w, isWordPoint c = true ∧ c ≠ CodePoint.char '@' := by
  cases kind with
  | and =>
    have hall : ∀ w ∈ casings ['a', 'n', 'd'], operator? w = some .and ∧ w ≠ [] ∧
        ∀ c ∈ w, isWordPoint c = true ∧ c ≠ CodePoint.char '@' := by decide
    exact hall w h
  | or =>
    have hall : ∀ w ∈ casings ['o', 'r'], operator? w = some .or ∧ w ≠ [] ∧
        ∀ c ∈ w, isWordPoint c = true ∧ c ≠ CodePoint.char '@' := by decide
    exact hall w h
  | not =>
    have hall : ∀ w ∈ casings ['n', 'o', 't'], operator? w = some .not ∧ w ≠ [] ∧
        ∀ c ∈ w, isWordPoint c = true ∧ c ≠ CodePoint.char '@' := by decide
    exact hall w h
  | mention | opening | closing | other => exact h.elim

end Lexeme

/-! ## Plain text -/

/-- The text is read as the lexemes, wherever it stands. -/
def Spells (find? : Text → Option Ref) (t : Text) (ls : List Lexeme) : Prop :=
  ∀ entry offset, ∃ ts, Token.ofText entry offset t = .ok ts ∧
    List.Forall₂ (Lexeme.IsReadAs find?) ls ts

namespace Spells
variable {find? : Text → Option Ref} {t : Text} {ls : List Lexeme}

theorem nil : Spells find? [] [] := by
  intro entry offset
  exact ⟨[], by rw [Token.ofText], .nil⟩

theorem parenthesis {point : CodePoint} {kind : Kind} {l : Lexeme}
    (hpoint : IsParenthesis kind point) (hl : ∀ entry offset, l.IsReadAs find? { kind, entry, offset })
    (h : Spells find? t ls) : Spells find? (point :: t) (l :: ls) := by
  intro entry offset
  obtain ⟨ts, hts, hread⟩ := h entry (offset + 1)
  refine ⟨{ kind, entry, offset } :: ts, ?_, .cons (hl entry offset) hread⟩
  rw [Token.ofText_parenthesis hpoint, hts]
  rfl

theorem blanks {gap : Text} (hgap : gap.all Text.isBlank = true) (h : Spells find? t ls) :
    Spells find? (gap ++ t) ls := by
  induction gap with
  | nil => exact h
  | cons c gap ih =>
    rw [List.all_cons, Bool.and_eq_true] at hgap
    obtain ⟨hc, hgap⟩ := hgap
    intro entry offset
    obtain ⟨ts, hts, hread⟩ := ih hgap entry (offset + 1)
    refine ⟨ts, ?_, hread⟩
    rw [List.cons_append, Token.ofText_blank hc]
    exact hts

/-- An operator is read up to a blank or a parenthesis. -/
theorem word {kind : Kind} {w : Text} (hw : Lexeme.IsOperator kind w)
    (hstop : ∀ c ∈ t.head?, isWordPoint c = false) (h : Spells find? t ls) :
    Spells find? (w ++ t) (.word kind w :: ls) := by
  obtain ⟨hkind, hne, hall⟩ := Lexeme.operator_spec hw
  intro entry offset
  obtain ⟨ts, hts, hread⟩ := h entry (offset + w.length)
  refine ⟨{ kind, entry, offset } :: ts, ?_, .cons rfl hread⟩
  rw [Token.ofText_word hne (fun c hc => (hall c hc).1) hstop, hkind]
  simp only [hts]
  rfl

theorem eq_nil (h : Spells find? [] ls) : ls = [] := by
  obtain ⟨ts, hts, hread⟩ := h 0 0
  rw [Token.ofText] at hts
  cases hts
  cases hread
  rfl

end Spells

/-! ## Whole texts -/

/-- The entries are read as the lexemes. -/
def SpellOut (find? : Text → Option Ref) (es : List Entry) (ls : List Lexeme) : Prop :=
  ∀ index, ∃ ts, Token.ofEntriesFrom index es = .ok ts ∧
    List.Forall₂ (Lexeme.IsReadAs find?) ls ts

namespace SpellOut
variable {find? : Text → Option Ref} {es : List Entry} {ls : List Lexeme}

theorem ref {name : Text} {r : Ref} (hr : find? name = some r) (h : SpellOut find? es ls) :
    SpellOut find? (.ref r :: es) (.mention name :: ls) := by
  intro index
  obtain ⟨ts, hts, hread⟩ := h (index + 1)
  refine ⟨{ kind := .mention, ref := some r, entry := index } :: ts, ?_, .cons ⟨rfl, hr.symm⟩ hread⟩
  unfold Token.ofEntriesFrom
  rw [hts]
  rfl

theorem text {t : Text} {ks : List Lexeme} (ht : Spells find? t ks) (h : SpellOut find? es ls) :
    SpellOut find? (Entry.ofPending t.reverse ++ es) (ks ++ ls) := by
  by_cases hne : t = []
  · subst hne
    rw [ht.eq_nil]
    exact h
  · have hentry : Entry.ofPending t.reverse = [.text t] := by simp [Entry.ofPending, hne]
    intro index
    obtain ⟨us, hus, hreadt⟩ := ht index 0
    obtain ⟨ts, hts, hread⟩ := h (index + 1)
    refine ⟨us ++ ts, ?_, List.rel_append hreadt hread⟩
    rw [hentry, List.singleton_append]
    show (Token.ofText index 0 t >>= fun us => Token.ofEntriesFrom (index + 1) es >>= fun ts =>
      pure (us ++ ts)) = _
    rw [hus, hts]
    rfl

end SpellOut

/-- The text up to the first mention is plain and read as the first lexemes; from there on it is
read as entries. -/
inductive Segmented (find? : Text → Option Ref) : List Lexeme → Text → Prop
  | intro {t rest : Text} {es : List Entry} {ks ls : List Lexeme} (hplain : Spells find? t ks)
      (hfree : Entry.IsFree find? t []) (hapart : Entry.Apart es) (hreads : Entry.Reads find? rest es)
      (hentries : SpellOut find? es ls) : Segmented find? (ks ++ ls) (t ++ rest)

theorem Entry.IsFree.append {find? : Text → Option Ref} {u t rest : Text}
    (hu : CodePoint.char '@' ∉ u) (h : IsFree find? t rest) : IsFree find? (u ++ t) rest := by
  induction u with
  | nil => exact h
  | cons c u ih =>
    simp only [List.mem_cons, not_or] at hu
    intro after hafter
    rcases List.suffix_cons_iff.1 hafter with heq | hsuffix
    · cases heq
      exact absurd rfl hu.1
    · exact ih hu.2 after hsuffix

namespace Segmented
variable {find? : Text → Option Ref} {ls : List Lexeme} {text : Text}

theorem nil : Segmented find? [] [] := by
  have hentries : SpellOut find? [] [] := fun index => ⟨[], rfl, .nil⟩
  have hfree : Entry.IsFree find? [] [] := Entry.isFree_nil
  have hapart : Entry.Apart [] := by simp [Entry.Apart]
  exact .intro .nil hfree hapart .nil hentries

theorem plain {u : Text} (ks : List Lexeme) (hu : CodePoint.char '@' ∉ u)
    (hspells : ∀ {t rest : Text} {js : List Lexeme}, text = t ++ rest → Spells find? t js →
      Spells find? (u ++ t) (ks ++ js))
    (h : Segmented find? ls text) : Segmented find? (ks ++ ls) (u ++ text) := by
  cases h with
  | intro hplain hfree hapart hreads hentries =>
    rw [← List.append_assoc, ← List.append_assoc]
    exact .intro (hspells rfl hplain) (hfree.append hu) hapart hreads hentries

theorem exists_reads (h : Segmented find? ls text) :
    ∃ es, Entry.Reads find? text es ∧ SpellOut find? es ls := by
  cases h with
  | intro hplain hfree hapart hreads hentries =>
    exact ⟨_, hreads.prepend hfree hapart, hentries.text hplain⟩

theorem mention {name : Text} {r : Ref} (hname : isMentionable name = true)
    (hr : find? name = some r) (hends : Entry.Ends text) (h : Segmented find? ls text) :
    Segmented find? (.mention name :: ls) (CodePoint.char '@' :: name ++ text) := by
  obtain ⟨es, hreads, hentries⟩ := h.exists_reads
  have hfree : Entry.IsFree find? [] [] := Entry.isFree_nil
  have hapart : Entry.Apart (.ref r :: es) := by simp [Entry.Apart]
  exact .intro .nil hfree hapart (.ref hname hr hends hreads) (hentries.ref hr)

end Segmented

theorem segmented_gap {find? : Text → Option Ref} {ls : List Lexeme} {gap text : Text}
    (hgap : gap.all Text.isBlank = true) (h : Segmented find? ls text) :
    Segmented find? ls (gap ++ text) := by
  have hat : CodePoint.char '@' ∉ gap := by
    intro hmem
    exact absurd (List.all_eq_true.1 hgap _ hmem) (by decide)
  exact h.plain [] hat fun _ hspells => hspells.blanks hgap

/-- A text begins with a parenthesis if its first lexeme is one, and is empty if there is none. -/
theorem Laid.head?_of_not_solid {ls : List Lexeme} {text : Text} (h : Laid ls text)
    (hsolid : ∀ l ∈ ls.head?, l.isSolid = false) :
    ∀ c ∈ text.head?, c = CodePoint.char '(' ∨ c = CodePoint.char ')' := by
  intro c hc
  cases h with
  | nil => cases hc
  | @cons l =>
    have hl := hsolid l rfl
    cases l with
    | mention | word => cases hl
    | opening =>
      cases hc
      exact Or.inl rfl
    | closing =>
      cases hc
      exact Or.inr rfl

/-- After a mention or a word comes a blank or a parenthesis, or nothing. -/
theorem Laid.head?_append {ls : List Lexeme} {gap text : Text}
    (hgap : gap.all Text.isBlank = true)
    (hsolid : ∀ next ∈ ls.head?, next.isSolid = true → gap ≠ []) (h : Laid ls text) :
    ∀ c ∈ (gap ++ text).head?,
      Text.isBlank c = true ∨ c = CodePoint.char '(' ∨ c = CodePoint.char ')' := by
  cases gap with
  | nil =>
    have hnext : ∀ next ∈ ls.head?, next.isSolid = false := by
      intro next hnext
      have hne := hsolid next hnext
      simpa using hne
    intro c hc
    exact Or.inr (h.head?_of_not_solid hnext c hc)
  | cons d gap =>
    intro c hc
    cases hc
    exact Or.inl (Bool.and_eq_true_iff.1 hgap).1

theorem segmented_of_laid {find? : Text → Option Ref} {ls : List Lexeme} {text : Text}
    (h : Laid ls text) (hknown : ∀ l ∈ ls, l.IsKnown find?) : Segmented find? ls text := by
  induction h with
  | nil => exact .nil
  | @cons l ls gap text hgap hsolid h ih =>
    obtain ⟨hl, hrest⟩ := List.forall_mem_cons.1 hknown
    have htail : Segmented find? ls (gap ++ text) := segmented_gap hgap (ih hrest)
    rw [List.append_assoc]
    cases l with
    | mention name =>
      obtain ⟨hname, r, hr⟩ := hl
      apply htail.mention hname hr
      intro c hc
      rcases h.head?_append hgap (hsolid rfl) c hc with hblank | rfl | rfl
      · simp [Mention.isNamePoint, hblank]
      · decide
      · decide
    | word kind w =>
      have hat : CodePoint.char '@' ∉ w := fun hmem => ((Lexeme.operator_spec hl).2.2 _ hmem).2 rfl
      refine htail.plain [.word kind w] hat ?_
      intro t rest js htext hspells
      apply hspells.word hl
      intro c hc
      have hfirst : c ∈ (gap ++ text).head? := by
        rw [htext, List.head?_append]
        rw [Option.mem_def] at hc ⊢
        rw [hc, Option.some_or]
      rcases h.head?_append hgap (hsolid rfl) c hfirst with hblank | rfl | rfl
      · simp [isWordPoint, hblank]
      · decide
      · decide
    | opening =>
      exact htail.plain [.opening] (by decide) fun _ hspells =>
        hspells.parenthesis (Or.inl ⟨rfl, rfl⟩) fun _ _ => rfl
    | closing =>
      exact htail.plain [.closing] (by decide) fun _ hspells =>
        hspells.parenthesis (Or.inr ⟨rfl, rfl⟩) fun _ _ => rfl

/-- **The tokens of a text are those of its lexemes**, whatever blanks it begins with. -/
theorem exists_tokens_of_laid {names : Names} {ls : List Lexeme} {lead text : Text}
    (hlead : lead.all Text.isBlank = true) (h : Laid ls text)
    (hknown : ∀ l ∈ ls, l.IsKnown names.ref?) :
    ∃ ts, Token.ofEntries (Entry.parse names (lead ++ text)) = .ok ts ∧
      List.Forall₂ (Lexeme.IsReadAs names.ref?) ls ts := by
  obtain ⟨es, hreads, hentries⟩ := (segmented_gap hlead (segmented_of_laid h hknown)).exists_reads
  obtain ⟨ts, hts, hread⟩ := hentries 0
  refine ⟨ts, ?_, hread⟩
  unfold Entry.parse Token.ofEntries
  rw [(Entry.scan_of_reads hreads).1]
  cases es with
  | nil =>
    generalize lead ++ text = whole at hreads
    cases hreads
    cases hts
    rw [Token.ofEntriesFrom, Token.ofEntry, Token.ofText]
    rfl
  | cons e es => exact hts

end BalancedTeams
