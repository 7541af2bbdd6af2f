import BalancedTeams.Mention
import Mathlib.Data.List.TakeWhile

/-!
# How text is scanned for mentions

* `Entry.known?` : what an `@` before a text refers to;
* `Entry.IsFree` : no `@` of a text refers to anything;
* `Entry.Reads` : the entries of a text, mention by mention, with the text between them;
* `Entry.scan_of_reads`, `Entry.reads_scan` : the scan finds these entries, in every text.
-/

namespace BalancedTeams
namespace Entry

/-- What an `@` before the text refers to. -/
def known? (find? : Text → Option Ref) (after : Text) : Option Ref :=
  let run := after.takeWhile Mention.isNamePoint
  if run.isEmpty then none else find? run

/-- No `@` of the text refers to anything, where `rest` comes after the text. -/
def IsFree (find? : Text → Option Ref) (t rest : Text) : Prop :=
  ∀ after, CodePoint.char '@' :: after <:+ t → known? find? (after ++ rest) = none

/-- A name ends before the text. -/
def Ends (rest : Text) : Prop := ∀ c ∈ rest.head?, Mention.isNamePoint c = false

def Apart (es : List Entry) : Prop := ∀ t, es.head? ≠ some (.text t)

/-- The text consists of known mentions, each of which ends there, and of free texts between them. -/
inductive Reads (find? : Text → Option Ref) : Text → List Entry → Prop
  | nil : Reads find? [] []
  | text {t rest : Text} {es : List Entry} (hne : t ≠ []) (hfree : IsFree find? t [])
      (hapart : Apart es) (h : Reads find? rest es) : Reads find? (t ++ rest) (.text t :: es)
  | ref {n rest : Text} {r : Ref} {es : List Entry} (hn : isMentionable n = true)
      (hr : find? n = some r) (hends : Ends rest) (h : Reads find? rest es) :
      Reads find? (CodePoint.char '@' :: n ++ rest) (.ref r :: es)

/-! ## Runs of name characters -/

theorem ends_nil : Ends [] := nofun

theorem ends_at (rest : Text) : Ends (CodePoint.char '@' :: rest) := by
  intro c hc
  cases hc
  decide

theorem takeWhile_of_ends {p : CodePoint → Bool} {rest : Text} (h : ∀ c ∈ rest.head?, p c = false) :
    rest.takeWhile p = [] := by
  cases rest with
  | nil => rfl
  | cons c cs =>
    have hc : p c = false := h c rfl
    exact List.takeWhile_cons_of_neg (by simp [hc])

theorem takeWhile_run {p : CodePoint → Bool} {run rest : Text} (hrun : ∀ c ∈ run, p c = true)
    (hrest : ∀ c ∈ rest.head?, p c = false) : (run ++ rest).takeWhile p = run := by
  rw [List.takeWhile_append_of_pos hrun, takeWhile_of_ends hrest, List.append_nil]

theorem dropWhile_of_ends {rest : Text} (h : Ends rest) :
    rest.dropWhile Mention.isNamePoint = rest := by
  have hsplit := rest.takeWhile_append_dropWhile (p := Mention.isNamePoint)
  rwa [takeWhile_of_ends h, List.nil_append] at hsplit

/-- A run that ends inside the text is the same whatever comes after. -/
theorem takeWhile_append {t rest : Text} (hrest : Ends rest) :
    (t ++ rest).takeWhile Mention.isNamePoint = t.takeWhile Mention.isNamePoint := by
  induction t with
  | nil => exact takeWhile_of_ends hrest
  | cons c t ih =>
    by_cases hc : Mention.isNamePoint c = true
    · rw [List.cons_append, List.takeWhile_cons_of_pos hc, ih, List.takeWhile_cons_of_pos hc]
    · rw [List.cons_append, List.takeWhile_cons_of_neg hc, List.takeWhile_cons_of_neg hc]

theorem ends_dropWhile (t : Text) : Ends (t.dropWhile Mention.isNamePoint) := by
  intro c hc
  have h := List.head?_dropWhile_not Mention.isNamePoint t
  rw [hc] at h
  exact h

variable {find? : Text → Option Ref} {pending : Text}

theorem known?_append {t rest : Text} (hrest : Ends rest) :
    known? find? (t ++ rest) = known? find? t := by
  unfold known?
  rw [takeWhile_append hrest]

theorem takeWhile_of_isMentionable {n : Text} (hn : isMentionable n = true) :
    n ≠ [] ∧ n.takeWhile Mention.isNamePoint = n := by
  obtain ⟨hne, hall⟩ := Bool.and_eq_true_iff.1 hn
  refine ⟨by simpa using hne, ?_⟩
  rw [List.takeWhile_eq_self_iff]
  exact List.all_eq_true.1 hall

theorem known?_mention {n : Text} {r : Ref} (hn : isMentionable n = true) (hr : find? n = some r) :
    known? find? n = some r := by
  obtain ⟨hne, hrun⟩ := takeWhile_of_isMentionable hn
  unfold known?
  simp only [hrun]
  rw [if_neg (by simpa using hne), hr]

theorem exists_of_known?_eq_some {after : Text} {r : Ref} (h : known? find? after = some r) :
    ∃ n rest, after = n ++ rest ∧ isMentionable n = true ∧ find? n = some r ∧ Ends rest ∧
      rest = after.dropWhile Mention.isNamePoint := by
  unfold known? at h
  simp only at h
  split at h
  · cases h
  · next hne =>
    refine ⟨_, _, List.takeWhile_append_dropWhile.symm, ?_, h, ends_dropWhile after, rfl⟩
    have hall : (after.takeWhile Mention.isNamePoint).all Mention.isNamePoint = true :=
      List.all_takeWhile
    simp only [isMentionable, hall, hne, Bool.and_true, Bool.not_false]

/-! ## Single steps -/

theorem scan_at {after : Text} : scan find? pending (CodePoint.char '@' :: after) =
    match known? find? after with
    | some r => ofPending pending ++ .ref r :: scan find? [] (after.dropWhile Mention.isNamePoint)
    | none => scan find? (CodePoint.char '@' :: pending) after := by
  have hdrop : after.dropWhile Mention.isNamePoint =
      after.drop (after.takeWhile Mention.isNamePoint).length := by
    have hsplit := after.takeWhile_append_dropWhile (p := Mention.isNamePoint)
    have hdrop := congrArg (List.drop (after.takeWhile Mention.isNamePoint).length) hsplit
    rwa [List.drop_left] at hdrop
  rw [scan, if_pos rfl, hdrop]
  rfl

theorem scan_of_ne {c : CodePoint} (hc : c ≠ CodePoint.char '@') (after : Text) :
    scan find? pending (c :: after) = scan find? (c :: pending) after := by
  rw [scan, if_neg hc]

/-- A known mention is cut out. -/
theorem scan_mention {n rest : Text} {r : Ref} (hn : isMentionable n = true) (hr : find? n = some r)
    (hends : Ends rest) : scan find? pending (CodePoint.char '@' :: n ++ rest) =
      ofPending pending ++ .ref r :: scan find? [] rest := by
  have hknown : known? find? (n ++ rest) = some r := by
    rw [known?_append hends, known?_mention hn hr]
  have hdrop : (n ++ rest).dropWhile Mention.isNamePoint = rest := by
    have hall := (Bool.and_eq_true_iff.1 hn).2
    rw [List.dropWhile_append_of_pos (List.all_eq_true.1 hall), dropWhile_of_ends hends]
  rw [List.cons_append, scan_at, hknown, hdrop]

theorem scan_append {t rest : Text} (h : IsFree find? t rest) :
    scan find? pending (t ++ rest) = scan find? (t.reverse ++ pending) rest := by
  induction t generalizing pending with
  | nil => rfl
  | cons c t ih =>
    have htail : IsFree find? t rest := fun after hafter => h after (hafter.trans (List.suffix_cons c t))
    have hstep : scan find? pending (c :: (t ++ rest)) = scan find? (c :: pending) (t ++ rest) := by
      by_cases hc : c = CodePoint.char '@'
      · subst hc
        rw [scan_at, h t (List.suffix_refl _)]
      · exact scan_of_ne hc _
    rw [List.cons_append, hstep, ih htail, List.reverse_cons, List.append_assoc, List.singleton_append]

/-! ## Whole texts -/

theorem Reads.ends {rest : Text} {es : List Entry} (h : Reads find? rest es)
    (hhead : ∀ t, es.head? = some (.text t) → t ≠ [] ∧ Ends t) : Ends rest := by
  cases h with
  | nil => exact ends_nil
  | @text t =>
    obtain ⟨hne, hends⟩ := hhead t rfl
    intro c hc
    apply hends c
    cases t with
    | nil => exact absurd rfl hne
    | cons d t => exact hc
  | ref => exact ends_at _

theorem Reads.ends_of_apart {rest : Text} {es : List Entry} (h : Reads find? rest es)
    (hapart : Apart es) : Ends rest := h.ends fun t ht => absurd ht (hapart t)

/-- The scan finds the entries of a text. -/
theorem scan_of_reads {s : Text} {es : List Entry} (h : Reads find? s es) :
    scan find? [] s = es ∧
      (Apart es → ∀ pending, scan find? pending s = ofPending pending ++ es) := by
  induction h with
  | nil =>
    refine ⟨by rw [scan]; rfl, fun _ pending => ?_⟩
    rw [scan, List.append_nil]
  | @text t rest es hne hfree hapart h ih =>
    refine ⟨?_, fun hhead => absurd rfl (hhead t)⟩
    have hends := h.ends_of_apart hapart
    have hfree' : IsFree find? t rest := by
      intro after hafter
      rw [known?_append hends, ← List.append_nil after]
      exact hfree after hafter
    rw [scan_append hfree', ih.2 hapart]
    simp [ofPending, hne]
  | @ref n rest r es hn hr hends h ih =>
    have hall : ∀ pending, scan find? pending (CodePoint.char '@' :: n ++ rest) =
        ofPending pending ++ .ref r :: es := by
      intro pending
      rw [scan_mention hn hr hends, ih.1]
    exact ⟨hall [], fun _ => hall⟩

/-- A free text before entries that do not begin with a text is an entry, unless it is empty. -/
theorem Reads.prepend {t rest : Text} {es : List Entry} (hfree : IsFree find? t []) (hapart : Apart es)
    (h : Reads find? rest es) : Reads find? (t ++ rest) (ofPending t.reverse ++ es) := by
  by_cases ht : t = []
  · subst ht
    exact h
  · have hentry : ofPending t.reverse = [.text t] := by simp [ofPending, ht]
    rw [hentry]
    exact .text ht hfree hapart h

theorem reads_ofPending {s : Text} {r : Ref} {es : List Entry}
    (hfree : IsFree find? pending.reverse s) (h : Reads find? s (.ref r :: es)) :
    Reads find? (pending.reverse ++ s) (ofPending pending ++ .ref r :: es) := by
  have hapart : Apart (.ref r :: es) := by
    intro t
    simp
  have hfree' : IsFree find? pending.reverse [] := by
    intro after hafter
    rw [List.append_nil, ← known?_append (h.ends_of_apart hapart)]
    exact hfree after hafter
  have hreads := h.prepend hfree' hapart
  rwa [List.reverse_reverse] at hreads

theorem isFree_nil {rest : Text} : IsFree find? ([] : Text).reverse rest := by
  intro after hafter
  simp at hafter

theorem IsFree.cons {c : CodePoint} {rest : Text} (hfree : IsFree find? pending.reverse (c :: rest))
    (hc : c = CodePoint.char '@' → known? find? rest = none) :
    IsFree find? (c :: pending).reverse rest := by
  intro after hafter
  rw [List.reverse_cons] at hafter
  rcases List.suffix_concat_iff.1 hafter with hnil | ⟨t, ht, hsuffix⟩
  · cases hnil
  · cases t with
    | nil =>
      cases ht
      exact hc rfl
    | cons d t =>
      cases ht
      have hknown := hfree t hsuffix
      show known? find? ((t ++ [c]) ++ rest) = none
      rwa [List.append_assoc]

/-- Every text is read, if no `@` among what is pending refers to anything. -/
theorem reads_scan (cs : Text) {pending : Text} (hfree : IsFree find? pending.reverse cs) :
    Reads find? (pending.reverse ++ cs) (scan find? pending cs) := by
  match cs with
  | [] =>
    rw [scan]
    by_cases hp : pending = []
    · subst hp
      exact .nil
    · have hreads := Reads.text (by simpa using hp) hfree (by simp [Apart]) .nil
      simpa [ofPending, hp] using hreads
  | c :: rest =>
    have hskip : ∀ hc : c = CodePoint.char '@' → known? find? rest = none,
        Reads find? (pending.reverse ++ c :: rest) (scan find? (c :: pending) rest) := by
      intro hc
      have hreads := reads_scan rest (hfree.cons hc)
      rwa [List.reverse_cons, List.append_assoc] at hreads
    by_cases hc : c = CodePoint.char '@'
    · subst hc
      rw [scan_at]
      cases hknown : known? find? rest with
      | none => exact hskip fun _ => hknown
      | some r =>
        obtain ⟨n, after, hrest, hn, hr, hends, hafter⟩ := exists_of_known?_eq_some hknown
        have hshorter : after.length < (CodePoint.char '@' :: rest).length := by
          rw [hrest, List.length_cons, List.length_append]
          omega
        apply reads_ofPending hfree
        rw [← hafter, hrest]
        exact .ref hn hr hends (reads_scan after isFree_nil)
    · rw [scan_of_ne hc]
      exact hskip fun h => absurd h hc
termination_by cs.length
decreasing_by
  · exact Nat.lt_succ_self _
  · exact hshorter

/-- A text is read as what stands in it, and the empty text as an empty entry. -/
theorem reads_parse (names : Names) (text : Text) :
    Reads names.ref? text (parse names text) ∨ text = [] ∧ parse names text = [.text []] := by
  have hreads : Reads names.ref? text (scan names.ref? [] text) := reads_scan text isFree_nil
  unfold parse
  split
  · next hscan =>
    rw [hscan] at hreads
    cases hreads
    exact Or.inr ⟨rfl, rfl⟩
  · exact Or.inl hreads

end Entry
end BalancedTeams
