import BalancedTeams.Proofs.Relation.Validation

/-!
# Where the validator finds a fault

* `Viable` : what can be completed to an expression (`Viable.take`: so can its beginnings);
* `Validator.exists_completion` : after a run without fault the tokens are completed by closing
  parentheses, with a mention before them where an operand is missing;
* `Validator.depth_of_run`, `Validator.previous_of_run` : the depth is the number of parentheses left
  open, and the kind before is that of the last token;
* `Validator.exists_step_of_run_error`, `Validator.index_of_run_error` : a run that fails does so at one
  token, whose index the fault has, and which nothing can complete;
* `validate_index` : the index of a fault is that of the first token after which nothing completes the
  tokens; if there is no such token, it tells how they end.
-/

namespace BalancedTeams

/-- Can be completed to an expression. -/
def Viable (ks : List Kind) : Prop := ∃ rest, Expr (ks ++ rest)

theorem Viable.of_append {ks ls : List Kind} (h : Viable (ks ++ ls)) : Viable ks := by
  obtain ⟨rest, hexpr⟩ := h
  exact ⟨ls ++ rest, by rwa [← List.append_assoc]⟩

theorem Viable.take {ks : List Kind} (h : Viable ks) (n : Nat) : Viable (ks.take n) := by
  rw [← List.take_append_drop n ks] at h
  exact h.of_append

namespace Validator

theorem run_append (s : State) (i : Nat) (ks ls : List Kind) :
    run s i (ks ++ ls) = run s i ks >>= fun t => run t (i + ks.length) ls := by
  induction ks generalizing s i with
  | nil => rfl
  | cons k ks ih =>
    rw [List.cons_append]
    cases hk : step s i k with
    | error f => simp only [run, hk]; rfl
    | ok t =>
      rw [run_cons_of_step hk, run_cons_of_step hk, ih, List.length_cons, Nat.add_assoc,
        Nat.add_comm 1]

/-! ## What the state knows -/

theorem depth_of_step {s t : State} {i : Nat} {k : Kind} (h : step s i k = .ok t) :
    t.depth + [k].count .closing = s.depth + [k].count .opening := by
  cases k with
  | other name => cases h
  | closing =>
    obtain ⟨depth, previous⟩ := s
    cases depth with
    | zero => cases h
    | succ d =>
      cases previous with
      | none => cases h; rfl
      | some after =>
        simp only [step] at h
        split at h
        · cases h; rfl
        · cases h
  | mention | not | opening | and | or =>
    simp only [step] at h
    split at h <;> cases h
    rfl

/-- The depth is the number of parentheses that are left open. -/
theorem depth_of_run {ks : List Kind} {s t : State} {i : Nat} (h : run s i ks = .ok t) :
    t.depth + ks.count .closing = s.depth + ks.count .opening := by
  induction ks generalizing s i with
  | nil => cases h; rfl
  | cons k ks ih =>
    obtain ⟨u, hstep, hrest⟩ := exists_step_of_run_cons h
    have hfirst := depth_of_step hstep
    have hlater := ih hrest
    rw [← List.singleton_append, List.count_append, List.count_append]
    omega

theorem previous_of_run {ks : List Kind} (hne : ks ≠ []) {s t : State} {i : Nat}
    (h : run s i ks = .ok t) : t.previous = ks.getLast? := by
  induction ks generalizing s i with
  | nil => exact absurd rfl hne
  | cons k ks ih =>
    obtain ⟨u, hstep, hrest⟩ := exists_step_of_run_cons h
    cases ks with
    | nil =>
      cases hrest
      exact (last_of_step hstep).1
    | cons l more =>
      rw [List.getLast?_cons_cons]
      exact ih (List.cons_ne_nil _ _) hrest

theorem endsOperand_of_mem {k : Kind} (h : k ∈ [Kind.and, .or, .not]) :
    endsOperand (some k) = false := by
  revert k
  decide

/-! ## Completions -/

/-- After an operand all open parentheses can be closed. -/
theorem exists_run_closings {last : Kind} (hlast : endsOperand (some last) = true) (depth i : Nat) :
    ∃ last', endsOperand (some last') = true ∧
      run ⟨depth, some last⟩ i (List.replicate depth .closing) = .ok ⟨0, some last'⟩ := by
  induction depth generalizing last i with
  | zero => exact ⟨last, hlast, rfl⟩
  | succ d ih =>
    obtain ⟨last', hlast', hrun⟩ := ih (rfl : endsOperand (some .closing) = true) (i + 1)
    have hclose : step ⟨d + 1, some last⟩ i .closing = .ok ⟨d, some .closing⟩ := by
      simp [step, hlast]
    refine ⟨last', hlast', ?_⟩
    rw [List.replicate_succ, run_cons_of_step hclose, hrun]

/-- From every state the tokens can go on to the end of an expression. They have to go on where a
parenthesis is open or an operand is missing. -/
theorem exists_completion (t : State) (i : Nat) :
    ∃ rest last, endsOperand (some last) = true ∧ run t i rest = .ok ⟨0, some last⟩ ∧
      (t.depth ≠ 0 ∨ endsOperand t.previous = false → rest ≠ []) := by
  cases hends : endsOperand t.previous with
  | true =>
    obtain ⟨depth, previous⟩ := t
    cases previous with
    | none => cases hends
    | some before =>
      obtain ⟨last, hlast, hrun⟩ := exists_run_closings hends depth i
      refine ⟨_, last, hlast, hrun, ?_⟩
      rintro (hdepth | hmissing)
      · rwa [Ne, List.replicate_eq_nil_iff]
      · cases hmissing
  | false =>
    have hmention : step t i .mention = .ok ⟨t.depth, some .mention⟩ := by simp [step, hends]
    obtain ⟨last, hlast, hrun⟩ := exists_run_closings (rfl : endsOperand (some .mention) = true) t.depth (i + 1)
    refine ⟨.mention :: List.replicate t.depth .closing, last, hlast, ?_, fun _ => List.cons_ne_nil _ _⟩
    rw [run_cons_of_step hmention, hrun]

/-- Tokens read without fault have a completion, which adds something to those that cannot end here. -/
theorem exists_expr_of_run_start {ks : List Kind} {t : State} (h : run .start 0 ks = .ok t) :
    ∃ rest, Expr (ks ++ rest) ∧ (t.depth ≠ 0 ∨ endsOperand t.previous = false → rest ≠ []) := by
  obtain ⟨rest, last, hlast, hrun, hmore⟩ := exists_completion t (0 + ks.length)
  have hall : run .start 0 (ks ++ rest) = .ok ⟨0, some last⟩ := by
    rw [run_append, h]
    exact hrun
  have hempty : (ks ++ rest).isEmpty = false := by
    rw [List.isEmpty_eq_false_iff]
    intro hnil
    rw [hnil] at hall
    cases hall
  refine ⟨rest, (validate_eq_ok_iff_expr _).1 ?_, hmore⟩
  unfold validate
  rw [hempty, hall]
  exact (finish_eq_ok_iff (t := ⟨0, some last⟩) rfl (by rintro _ rfl; cases hlast)
    (by rintro rfl; cases hlast)).2 ⟨rfl, hlast⟩

theorem viable_of_run {ks : List Kind} {t : State} (h : run .start 0 ks = .ok t) : Viable ks := by
  obtain ⟨rest, hexpr, -⟩ := exists_expr_of_run_start h
  exact ⟨rest, hexpr⟩

/-- What comes later does not mend a fault. -/
theorem not_viable_of_run {ks : List Kind} {f : GrammarFault} (h : run .start 0 ks = .error f) :
    ¬ Viable ks := by
  rintro ⟨rest, hexpr⟩
  obtain ⟨last, j, -, hrun⟩ := run_expr_append hexpr .start 0 [] rfl
  rw [List.append_nil, run_append, h] at hrun
  cases hrun

/-! ## Faults -/

theorem index_of_step_error {s : State} {i : Nat} {k : Kind} {f : GrammarFault}
    (h : step s i k = .error f) : f.index = i := by
  cases k with
  | other name => cases h; rfl
  | closing =>
    obtain ⟨depth, previous⟩ := s
    cases depth with
    | zero => cases h; rfl
    | succ d =>
      cases previous with
      | none => cases h
      | some after =>
        simp only [step] at h
        split at h <;> cases h
        rfl
  | mention | not | opening | and | or =>
    simp only [step] at h
    split at h <;> cases h
    rfl

/-- A run that fails does so at one of its tokens, up to which there is no fault. -/
theorem exists_step_of_run_error {ks : List Kind} {s : State} {i : Nat} {f : GrammarFault}
    (h : run s i ks = .error f) : ∃ front k back t, ks = front ++ k :: back ∧
      run s i front = .ok t ∧ step t (i + front.length) k = .error f := by
  induction ks generalizing s i with
  | nil => cases h
  | cons k ks ih =>
    cases hk : step s i k with
    | error g =>
      simp only [run, hk] at h
      cases h
      exact ⟨[], k, ks, s, rfl, rfl, hk⟩
    | ok t =>
      rw [run_cons_of_step hk] at h
      obtain ⟨front, l, back, u, rfl, hrun, hstep⟩ := ih h
      refine ⟨k :: front, l, back, u, rfl, ?_, ?_⟩
      · rw [run_cons_of_step hk, hrun]
      · rwa [List.length_cons, Nat.add_comm front.length, ← Nat.add_assoc]

/-- The tokens up to the one at fault cannot be completed, those before it can. -/
theorem index_of_run_error {ks : List Kind} {f : GrammarFault} (h : run .start 0 ks = .error f) :
    f.index < ks.length ∧ ¬ Viable (ks.take (f.index + 1)) ∧ ∀ n ≤ f.index, Viable (ks.take n) := by
  obtain ⟨front, k, back, t, rfl, hfront, hstep⟩ := exists_step_of_run_error h
  have hindex : f.index = front.length := by rw [index_of_step_error hstep, Nat.zero_add]
  rw [hindex]
  refine ⟨by simp, ?_, fun n hn => ?_⟩
  · have htake : (front ++ k :: back).take (front.length + 1) = front ++ [k] := by
      rw [List.take_append, List.take_of_length_le (Nat.le_succ _), Nat.add_sub_cancel_left]
      rfl
    apply not_viable_of_run (f := f)
    rw [htake, run_append, hfront]
    simp only [run, bind, Except.bind, hstep]
  · rw [List.take_append_of_le_length hn]
    exact (viable_of_run hfront).take n

/-- Tokens without a fault of their own cannot end here where parentheses are open, or else after an
operator. -/
theorem finish_eq_error {t : State} {length : Nat} {f : GrammarFault} (h : finish t length = .error f) :
    (t.depth ≠ 0 ∧ f.index = length) ∨
      (t.depth = 0 ∧ (∃ k ∈ [Kind.and, .or, .not], t.previous = some k) ∧ f.index = length - 1) := by
  unfold finish at h
  split at h
  · next hdepth =>
    cases h
    exact Or.inl ⟨hdepth, rfl⟩
  · next hdepth =>
    refine Or.inr ⟨Decidable.not_not.1 hdepth, ?_⟩
    split at h
    · next hlast => cases h; exact ⟨⟨.and, by decide, hlast⟩, rfl⟩
    · next hlast => cases h; exact ⟨⟨.or, by decide, hlast⟩, rfl⟩
    · next hlast => cases h; exact ⟨⟨.not, by decide, hlast⟩, rfl⟩
    · cases h

end Validator

/-! ## Positions -/

/-- **A fault has the index of the first token after which nothing completes the tokens.** Where every
beginning can be completed, the tokens are the beginning of a longer expression, and the index is that
of their end if parentheses are left open, else that of an operator which is last. -/
theorem validate_index {ks : List Kind} (hne : ks ≠ []) {f : GrammarFault} (h : validate ks = .error f) :
    ((∃ n, ¬ Viable (ks.take n)) → f.index < ks.length ∧ ¬ Viable (ks.take (f.index + 1)) ∧
      ∀ n ≤ f.index, Viable (ks.take n)) ∧
    ((∀ n, Viable (ks.take n)) → (∃ rest, rest ≠ [] ∧ Expr (ks ++ rest)) ∧
      ((ks.count .closing < ks.count .opening ∧ f.index = ks.length) ∨
        (ks.count .closing = ks.count .opening ∧
          (∃ k ∈ [Kind.and, .or, .not], ks.getLast? = some k) ∧ f.index = ks.length - 1))) := by
  have hempty : ks.isEmpty = false := List.isEmpty_eq_false_iff.2 hne
  unfold validate at h
  rw [hempty] at h
  cases hrun : Validator.run .start 0 ks with
  | error g =>
    rw [hrun] at h
    cases h
    have hfault := Validator.index_of_run_error hrun
    exact ⟨fun _ => hfault, fun hall => absurd (hall _) hfault.2.1⟩
  | ok t =>
    rw [hrun] at h
    have hviable := Validator.viable_of_run hrun
    have hdepth : t.depth + ks.count .closing = 0 + ks.count .opening := Validator.depth_of_run hrun
    obtain ⟨rest, hexpr, hmore⟩ := Validator.exists_expr_of_run_start hrun
    refine ⟨fun ⟨n, hn⟩ => absurd (hviable.take n) hn, fun _ => ?_⟩
    rcases Validator.finish_eq_error h with ⟨hopen, hindex⟩ | ⟨hclosed, ⟨k, hk, hprevious⟩, hindex⟩
    · exact ⟨⟨rest, hmore (Or.inl hopen), hexpr⟩, Or.inl ⟨by omega, hindex⟩⟩
    · have hmissing : Validator.endsOperand t.previous = false := by
        rw [hprevious]
        exact Validator.endsOperand_of_mem hk
      have hlast : ks.getLast? = some k := (Validator.previous_of_run hne hrun).symm.trans hprevious
      exact ⟨⟨rest, hmore (Or.inr hmissing), hexpr⟩, Or.inr ⟨by omega, ⟨k, hk, hlast⟩, hindex⟩⟩

/-- `@ AND ) @` is at fault at its third token; `( @ OR` and `@ AND NOT` are beginnings. -/
theorem validate_index_cases :
    validate [.mention, .and, .closing, .mention] = .error (.unmatchedClosing 2) ∧
    (¬ Viable [.mention, .and, .closing] ∧ ∀ n ≤ 2, Viable ([.mention, .and, .closing, .mention].take n)) ∧
    validate [.opening, .mention, .or] = .error (.unclosed 1 3) ∧
    (∃ rest, rest ≠ [] ∧ Expr ([.opening, .mention, .or] ++ rest)) ∧
    validate [.mention, .and, .not] = .error (.endsWith .not 3) ∧
    ∃ rest, rest ≠ [] ∧ Expr ([.mention, .and, .not] ++ rest) := by
  have hcut : validate [.mention, .and, .closing, .mention] = .error (.unmatchedClosing 2) := rfl
  have hopen : validate [.opening, .mention, .or] = .error (.unclosed 1 3) := rfl
  have hlast : validate [.mention, .and, .not] = .error (.endsWith .not 3) := rfl
  have hfault : ¬ Viable [.mention, .and, .closing] :=
    Validator.not_viable_of_run (f := .unmatchedClosing 2) rfl
  have hopenViable : Viable [.opening, .mention, .or] :=
    Validator.viable_of_run (t := ⟨1, some .or⟩) rfl
  have hlastViable : Viable [.mention, .and, .not] :=
    Validator.viable_of_run (t := ⟨0, some .not⟩) rfl
  refine ⟨hcut, ?_, hopen, ?_, hlast, ?_⟩
  · exact ((validate_index (List.cons_ne_nil _ _) hcut).1 ⟨3, hfault⟩).2
  · exact ((validate_index (List.cons_ne_nil _ _) hopen).2 hopenViable.take).1
  · exact ((validate_index (List.cons_ne_nil _ _) hlast).2 hlastViable.take).1

end BalancedTeams
