import BalancedTeams.Relation.Grammar

/-!
# The validator accepts exactly the expressions

* `Validator.step_before_operand`, `Validator.step_after_operand` : all that one step can do, before
  and after the end of an operand;
* `Validator.run_expr_append` : an expression is read to the depth at which it began, and an operand
  ends with it;
* `Validator.exists_expr_of_run` : what is read up to the end of an operand begins with an expression,
  after which comes a closing parenthesis or nothing;
* `validate_eq_ok_iff_expr` : the two together.
-/

namespace BalancedTeams
namespace Validator

/-- An operand may begin. Nothing has been read only where no parenthesis is open. -/
def State.BeforeOperand (s : State) : Prop :=
  endsOperand s.previous = false ∧ (s.previous = none → s.depth = 0)

/-! ## Single steps -/

theorem step_before_operand {s t : State} {i : Nat} {k : Kind} (hs : s.BeforeOperand)
    (h : step s i k = .ok t) :
    (k = .mention ∧ t = ⟨s.depth, some .mention⟩) ∨ (k = .not ∧ t = ⟨s.depth, some .not⟩) ∨
      (k = .opening ∧ t = ⟨s.depth + 1, some .opening⟩) := by
  obtain ⟨hends, hnone⟩ := hs
  cases k with
  | mention => simpa [step, hends, eq_comm] using h
  | not => simpa [step, hends, eq_comm] using h
  | opening => simpa [step, hends, eq_comm] using h
  | and => simp [step, hends] at h
  | or => simp [step, hends] at h
  | other name => simp [step] at h
  | closing =>
    obtain ⟨depth, previous⟩ := s
    cases depth with
    | zero => simp [step] at h
    | succ d =>
      cases previous with
      | none => exact absurd (hnone rfl) (Nat.succ_ne_zero d)
      | some after => simp only [step, hends] at h; cases h

theorem step_after_operand {s t : State} {i : Nat} {k : Kind} (hs : endsOperand s.previous = true)
    (h : step s i k = .ok t) :
    (k = .and ∧ t = ⟨s.depth, some .and⟩) ∨ (k = .or ∧ t = ⟨s.depth, some .or⟩) ∨
      ∃ d, k = .closing ∧ s.depth = d + 1 ∧ t = ⟨d, some .closing⟩ := by
  cases k with
  | and => simpa [step, hs, eq_comm] using h
  | or => simpa [step, hs, eq_comm] using h
  | mention => simp [step, hs] at h
  | not => simp [step, hs] at h
  | opening => simp [step, hs] at h
  | other name => simp [step] at h
  | closing =>
    obtain ⟨depth, previous⟩ := s
    cases depth with
    | zero => simp [step] at h
    | succ d =>
      cases previous with
      | none => cases hs
      | some after =>
        simp only [step, hs, if_true] at h
        exact Or.inr (Or.inr ⟨d, rfl, rfl, (Except.ok.inj h).symm⟩)

/-! ## Runs -/

theorem run_cons_of_step {s t : State} {i : Nat} {k : Kind} (h : step s i k = .ok t)
    (rest : List Kind) : run s i (k :: rest) = run t (i + 1) rest := by
  simp only [run, h]
  rfl

theorem exists_step_of_run_cons {s u : State} {i : Nat} {k : Kind} {rest : List Kind}
    (h : run s i (k :: rest) = .ok u) : ∃ t, step s i k = .ok t ∧ run t (i + 1) rest = .ok u := by
  cases hk : step s i k with
  | error e => simp only [run, hk] at h; cases h
  | ok t => exact ⟨t, rfl, by rwa [run_cons_of_step hk] at h⟩

/-- An expression is read from where an operand may begin, whatever comes after it. -/
theorem run_expr_append {ks : List Kind} (hks : Expr ks) :
    ∀ (s : State) (i : Nat) (rest : List Kind), endsOperand s.previous = false →
      ∃ last j, endsOperand (some last) = true ∧
        run s i (ks ++ rest) = run ⟨s.depth, some last⟩ j rest := by
  induction hks with
  | mention =>
    intro s i rest hs
    refine ⟨.mention, i + 1, rfl, ?_⟩
    exact run_cons_of_step (by simp [step, hs]) rest
  | @paren ks _ ih =>
    intro s i rest hs
    obtain ⟨last, j, hlast, hrun⟩ :=
      ih ⟨s.depth + 1, some .opening⟩ (i + 1) (.closing :: rest) rfl
    refine ⟨.closing, j + 1, rfl, ?_⟩
    have hopen : step s i .opening = .ok ⟨s.depth + 1, some .opening⟩ := by simp [step, hs]
    have hclose : step ⟨s.depth + 1, some last⟩ j .closing = .ok ⟨s.depth, some .closing⟩ := by
      simp [step, hlast]
    rw [List.cons_append, List.cons_append, List.append_assoc, run_cons_of_step hopen,
      List.singleton_append, hrun, run_cons_of_step hclose]
  | @not ks _ ih =>
    intro s i rest hs
    obtain ⟨last, j, hlast, hrun⟩ := ih ⟨s.depth, some .not⟩ (i + 1) rest rfl
    have hnot : step s i .not = .ok ⟨s.depth, some .not⟩ := by simp [step, hs]
    refine ⟨last, j, hlast, ?_⟩
    rw [List.cons_append, run_cons_of_step hnot, hrun]
  | @and ks ls _ _ ihk ihl =>
    intro s i rest hs
    obtain ⟨mid, j, hmid, hrunk⟩ := ihk s i (.and :: ls ++ rest) hs
    obtain ⟨last, l, hlast, hrunl⟩ := ihl ⟨s.depth, some .and⟩ (j + 1) rest rfl
    have hand : step ⟨s.depth, some mid⟩ j .and = .ok ⟨s.depth, some .and⟩ := by simp [step, hmid]
    refine ⟨last, l, hlast, ?_⟩
    rw [List.append_assoc, hrunk, List.cons_append, run_cons_of_step hand, hrunl]
  | @or ks ls _ _ ihk ihl =>
    intro s i rest hs
    obtain ⟨mid, j, hmid, hrunk⟩ := ihk s i (.or :: ls ++ rest) hs
    obtain ⟨last, l, hlast, hrunl⟩ := ihl ⟨s.depth, some .or⟩ (j + 1) rest rfl
    have hor : step ⟨s.depth, some mid⟩ j .or = .ok ⟨s.depth, some .or⟩ := by simp [step, hmid]
    refine ⟨last, l, hlast, ?_⟩
    rw [List.append_assoc, hrunk, List.cons_append, run_cons_of_step hor, hrunl]

/-- The kinds begin with an expression, after which the run goes on to `t` at depth `depth` with
nothing or with a closing parenthesis. -/
def BeginsWithExpr (depth : Nat) (t : State) (ks : List Kind) : Prop :=
  ∃ e rest last j, ks = e ++ rest ∧ Expr e ∧ endsOperand (some last) = true ∧
    run ⟨depth, some last⟩ j rest = .ok t ∧ (rest = [] ∨ ∃ r, rest = .closing :: r)

/-- What begins with an expression where an operand may begin. -/
def ReadsExpr (n : Nat) : Prop :=
  ∀ (ks : List Kind) (s t : State) (i : Nat), ks.length < n → s.BeforeOperand →
    run s i ks = .ok t → endsOperand t.previous = true → t.depth ≤ s.depth →
    BeginsWithExpr s.depth t ks

/-- After an expression `f` the run may stop, close a parenthesis, or go on with an operator, whose
right side is shorter than the whole. -/
theorem beginsWithExpr_append {n : Nat} (ih : ReadsExpr n) {f r : List Kind} {t : State}
    {depth j : Nat} {last : Kind} (hf : Expr f) (hlast : endsOperand (some last) = true)
    (hrun : run ⟨depth, some last⟩ j r = .ok t) (hlen : r.length ≤ n)
    (hends : endsOperand t.previous = true) (hdepth : t.depth ≤ depth) :
    BeginsWithExpr depth t (f ++ r) := by
  cases r with
  | nil => exact ⟨f, [], last, j, rfl, hf, hlast, hrun, Or.inl rfl⟩
  | cons k r =>
    have hr : r.length < n := by simp only [List.length_cons] at hlen; omega
    obtain ⟨u, hstep, hrest⟩ := exists_step_of_run_cons hrun
    rcases step_after_operand hlast hstep with ⟨rfl, rfl⟩ | ⟨rfl, rfl⟩ | ⟨d, rfl, -, -⟩
    · obtain ⟨e, rest, l, m, rfl, he, hl, hm, hstop⟩ :=
        ih r ⟨depth, some .and⟩ t _ hr ⟨rfl, nofun⟩ hrest hends hdepth
      exact ⟨f ++ .and :: e, rest, l, m, by simp, hf.and he, hl, hm, hstop⟩
    · obtain ⟨e, rest, l, m, rfl, he, hl, hm, hstop⟩ :=
        ih r ⟨depth, some .or⟩ t _ hr ⟨rfl, nofun⟩ hrest hends hdepth
      exact ⟨f ++ .or :: e, rest, l, m, by simp, hf.or he, hl, hm, hstop⟩
    · exact ⟨f, .closing :: r, last, j, rfl, hf, hlast, hrun, Or.inr ⟨r, rfl⟩⟩

/-- What is read from the beginning of an operand to the end of one, at no greater depth, begins with
an expression. By induction on the number of tokens, along the first of them. -/
theorem exists_expr_of_run (n : Nat) : ReadsExpr n := by
  induction n with
  | zero => intro ks s t i hlen; exact absurd hlen (Nat.not_lt_zero _)
  | succ n ih =>
    intro ks s t i hlen hs hrun hends hdepth
    cases ks with
    | nil =>
      cases hrun
      rw [hs.1] at hends
      cases hends
    | cons k r =>
      have hr : r.length < n + 1 := by simp only [List.length_cons] at hlen; omega
      obtain ⟨u, hstep, hrest⟩ := exists_step_of_run_cons hrun
      rcases step_before_operand hs hstep with ⟨rfl, rfl⟩ | ⟨rfl, rfl⟩ | ⟨rfl, rfl⟩
      · exact beginsWithExpr_append ih (f := [.mention]) .mention rfl hrest (by omega) hends hdepth
      · have hr' : r.length < n := by simp only [List.length_cons] at hlen; omega
        obtain ⟨e, rest, l, m, rfl, he, hl, hm, hstop⟩ :=
          ih r ⟨s.depth, some .not⟩ t _ hr' ⟨rfl, nofun⟩ hrest hends hdepth
        exact ⟨.not :: e, rest, l, m, rfl, he.not, hl, hm, hstop⟩
      · have hr' : r.length < n := by simp only [List.length_cons] at hlen; omega
        obtain ⟨e, rest, l, m, rfl, he, hl, hm, hstop⟩ :=
          ih r ⟨s.depth + 1, some .opening⟩ t _ hr' ⟨rfl, nofun⟩ hrest hends
            (Nat.le_succ_of_le hdepth)
        rcases hstop with rfl | ⟨after, rfl⟩
        · -- the parenthesis just opened would still be open at the end
          cases hm
          exact absurd hdepth (Nat.not_succ_le_self _)
        · obtain ⟨v, hclose, hafter⟩ := exists_step_of_run_cons hm
          have hv : v = ⟨s.depth, some .closing⟩ := by
            simp only [step, hl, if_true, Except.ok.injEq] at hclose
            exact hclose.symm
          subst hv
          have := beginsWithExpr_append ih (r := after) he.paren rfl hafter
            (by simp only [List.length_append, List.length_cons] at hr'; omega) hends hdepth
          simpa using this

/-! ## The end -/

/-- What is known after a token: it is the last kind, it is one that relations are made of, and
after an opening parenthesis one is open. -/
theorem last_of_step {s t : State} {i : Nat} {k : Kind} (h : step s i k = .ok t) :
    t.previous = some k ∧ (∀ name, k ≠ .other name) ∧ (k = .opening → 0 < t.depth) := by
  obtain ⟨depth, previous⟩ := s
  cases k with
  | other name => simp [step] at h
  | closing =>
    cases depth with
    | zero => simp [step] at h
    | succ d =>
      cases previous with
      | none => cases h; simp
      | some after =>
        simp only [step] at h
        split at h
        · cases h; simp
        · cases h
  | mention | not | opening =>
    simp only [step] at h
    split at h
    · cases h
    · cases h
      simp
  | and | or =>
    simp only [step] at h
    split at h
    · cases h
      simp
    · cases h

theorem last_of_run {ks : List Kind} (hne : ks ≠ []) :
    ∀ {s t : State} {i : Nat}, run s i ks = .ok t →
      ∃ k, t.previous = some k ∧ (∀ name, k ≠ .other name) ∧ (k = .opening → 0 < t.depth) := by
  induction ks with
  | nil => exact absurd rfl hne
  | cons k rest ih =>
    intro s t i h
    obtain ⟨u, hstep, hrest⟩ := exists_step_of_run_cons h
    cases rest with
    | nil => cases hrest; exact ⟨k, last_of_step hstep⟩
    | cons l more => exact ih (List.cons_ne_nil _ _) hrest

/-- The tokens may end where no parenthesis is open and an operand has ended. -/
theorem finish_eq_ok_iff {t : State} {k : Kind} {length : Nat} (hk : t.previous = some k)
    (hother : ∀ name, k ≠ .other name) (hopen : k = .opening → 0 < t.depth) :
    finish t length = .ok () ↔ t.depth = 0 ∧ endsOperand t.previous = true := by
  unfold finish
  by_cases hd : t.depth = 0
  · cases k with
    | other name => exact absurd rfl (hother name)
    | opening => exact absurd hd (Nat.pos_iff_ne_zero.1 (hopen rfl))
    | _ => simp [hd, hk, endsOperand]
  · simp [hd]

end Validator

/-! ## The language -/

theorem Expr.ne_nil {ks : List Kind} (h : Expr ks) : ks ≠ [] := by
  cases h <;> simp

/-- **The validator accepts exactly the expressions.** -/
theorem validate_eq_ok_iff_expr (ks : List Kind) : validate ks = .ok () ↔ Expr ks := by
  unfold validate
  constructor
  · intro h
    split at h
    · cases h
    · next hempty =>
      have hne : ks ≠ [] := fun e => hempty (e ▸ rfl)
      cases hrun : Validator.run .start 0 ks with
      | error e => simp only [hrun] at h; cases h
      | ok t =>
        simp only [hrun] at h
        obtain ⟨k, hk, hother, hopen⟩ := Validator.last_of_run hne hrun
        obtain ⟨hdepth, hends⟩ := (Validator.finish_eq_ok_iff hk hother hopen).1 h
        obtain ⟨e, rest, last, j, rfl, he, hlast, hafter, hstop⟩ :=
          Validator.exists_expr_of_run _ ks .start t 0 (Nat.lt_succ_self _) ⟨rfl, fun _ => rfl⟩ hrun
            hends (Nat.le_of_eq hdepth)
        rcases hstop with rfl | ⟨after, rfl⟩
        · simpa using he
        · obtain ⟨u, hclose, -⟩ := Validator.exists_step_of_run_cons hafter
          cases hclose
  · intro h
    obtain ⟨last, j, hlast, hrun⟩ := Validator.run_expr_append h .start 0 [] rfl
    have hempty : ks.isEmpty = false := by simpa using h.ne_nil
    rw [List.append_nil] at hrun
    rw [hempty, hrun]
    exact (Validator.finish_eq_ok_iff (t := ⟨0, some last⟩) rfl (by rintro _ rfl; cases hlast)
      (by rintro rfl; cases hlast)).2 ⟨rfl, hlast⟩

end BalancedTeams
