import BalancedTeams.Fault
import Mathlib.Data.List.Forall2

/-!
# Computations that succeed and computations that fail

* `bind_eq_ok_iff`, `bind_eq_error_iff` : how two computations in a row end; `map_eq_ok_iff`,
  `map_eq_error_iff` : how one ends whose result is changed;
* `mapM_eq_ok_iff`, `exists_mapM_eq_ok`, `exists_of_mapM_eq_error` : the same for a list of them;
* `FailsWith` : a property of all the errors that a computation can end with, with `FailsWith.written`
  and `FailsWith.key` for values;
* `exists_forall₂` : a list of things that each belong to something;
* `written_eq_error_iff` : values that cannot be written;
* `mapM_eq_ok`, `mapM_eq_ok_map_iff`, `mapM_eq_error`, `filterM_eq_ok` : lists of computations with known
  results.
-/

namespace BalancedTeams

variable {ε α β : Type}

theorem ok_bind (a : α) (f : α → Except ε β) : (Except.ok a >>= f) = f a := rfl

theorem bind_eq_ok_iff {x : Except ε α} {f : α → Except ε β} {b : β} :
    (x >>= f) = .ok b ↔ ∃ a, x = .ok a ∧ f a = .ok b := by
  cases x with
  | error e => simp [bind, Except.bind]
  | ok a => simp [bind, Except.bind]

theorem bind_eq_error_iff {x : Except ε α} {f : α → Except ε β} {e : ε} :
    (x >>= f) = .error e ↔ x = .error e ∨ ∃ a, x = .ok a ∧ f a = .error e := by
  cases x with
  | error e => simp [bind, Except.bind]
  | ok a => simp [bind, Except.bind]

theorem map_eq_ok_iff {f : α → β} {x : Except ε α} {b : β} :
    x.map f = .ok b ↔ ∃ a, x = .ok a ∧ f a = b := by cases x <;> simp [Except.map]

theorem map_eq_error_iff {f : α → β} {x : Except ε α} {e : ε} :
    x.map f = .error e ↔ x = .error e := by cases x <;> simp [Except.map]

theorem mapM_eq_ok_iff {f : α → Except ε β} {xs : List α} {ys : List β} :
    xs.mapM f = .ok ys ↔ List.Forall₂ (fun x y => f x = .ok y) xs ys := by
  induction xs generalizing ys with
  | nil => cases ys <;> simp [pure, Except.pure]
  | cons x xs ih =>
    rw [List.mapM_cons, bind_eq_ok_iff]
    constructor
    · rintro ⟨y, hy, h⟩
      obtain ⟨zs, hzs, h⟩ := bind_eq_ok_iff.1 h
      cases h
      exact .cons hy (ih.1 hzs)
    · intro h
      cases h with
      | cons hy hzs => exact ⟨_, hy, bind_eq_ok_iff.2 ⟨_, ih.2 hzs, rfl⟩⟩

theorem length_of_mapM_eq_ok {f : α → Except ε β} {xs : List α} {ys : List β}
    (h : xs.mapM f = .ok ys) : xs.length = ys.length := (mapM_eq_ok_iff.1 h).length_eq

theorem exists_of_mem_of_mapM_eq_ok {f : α → Except ε β} {xs : List α} {ys : List β}
    (h : xs.mapM f = .ok ys) {x : α} (hx : x ∈ xs) : ∃ y ∈ ys, f x = .ok y := by
  rw [mapM_eq_ok_iff] at h
  induction h with
  | nil => cases hx
  | cons hy _ ih =>
    rcases List.mem_cons.1 hx with rfl | hx
    · exact ⟨_, List.mem_cons_self, hy⟩
    · obtain ⟨y, hy, hf⟩ := ih hx
      exact ⟨y, List.mem_cons_of_mem _ hy, hf⟩

theorem exists_mapM_eq_ok {f : α → Except ε β} {xs : List α} (h : ∀ x ∈ xs, ∃ y, f x = .ok y) :
    ∃ ys, xs.mapM f = .ok ys := by
  induction xs with
  | nil => exact ⟨[], rfl⟩
  | cons x xs ih =>
    obtain ⟨y, hy⟩ := h x List.mem_cons_self
    obtain ⟨ys, hys⟩ := ih fun z hz => h z (List.mem_cons_of_mem _ hz)
    exact ⟨y :: ys, mapM_eq_ok_iff.2 (.cons hy (mapM_eq_ok_iff.1 hys))⟩

theorem exists_of_mapM_eq_error {f : α → Except ε β} {xs : List α} {e : ε}
    (h : xs.mapM f = .error e) : ∃ x ∈ xs, f x = .error e := by
  induction xs with
  | nil => cases h
  | cons x xs ih =>
    rw [List.mapM_cons, bind_eq_error_iff] at h
    rcases h with h | ⟨y, -, h⟩
    · exact ⟨x, List.mem_cons_self, h⟩
    · rcases bind_eq_error_iff.1 h with h | ⟨ys, -, h⟩
      · obtain ⟨z, hz, hf⟩ := ih h
        exact ⟨z, List.mem_cons_of_mem _ hz, hf⟩
      · cases h

/-- Whatever error a computation ends with has the property. -/
def FailsWith (P : ε → Prop) (x : Except ε α) : Prop := ∀ e, x = .error e → P e

namespace FailsWith
variable {P Q : ε → Prop}

theorem ok (a : α) : FailsWith P (.ok a) := nofun

theorem error {e : ε} (h : P e) : FailsWith P (.error e : Except ε α) := by
  rintro _ ⟨⟩
  exact h

theorem mono {x : Except ε α} (h : FailsWith P x) (hPQ : ∀ e, P e → Q e) : FailsWith Q x :=
  fun e he => hPQ e (h e he)

theorem bind {x : Except ε α} {f : α → Except ε β} (hx : FailsWith P x)
    (hf : ∀ a, x = .ok a → FailsWith P (f a)) : FailsWith P (x >>= f) := by
  intro e he
  rcases bind_eq_error_iff.1 he with he | ⟨a, ha, he⟩
  · exact hx e he
  · exact hf a ha e he

theorem of_exists_ok {x : Except ε α} (h : ∃ a, x = .ok a) : FailsWith P x := by
  obtain ⟨a, rfl⟩ := h
  exact ok a

end FailsWith

theorem exists_of_mem_right {R : α → β → Prop} {xs : List α} {ys : List β}
    (h : List.Forall₂ R xs ys) {y : β} (hy : y ∈ ys) : ∃ x ∈ xs, R x y := by
  induction h with
  | nil => cases hy
  | cons hxy _ ih =>
    rcases List.mem_cons.1 hy with rfl | hy
    · exact ⟨_, List.mem_cons_self, hxy⟩
    · obtain ⟨x, hx, hR⟩ := ih hy
      exact ⟨x, List.mem_cons_of_mem _ hx, hR⟩

theorem forall₂_comp {γ : Type} {R : α → β → Prop} {S : β → γ → Prop} {xs : List α} {ys : List β}
    {zs : List γ} (h : List.Forall₂ R xs ys) (h' : List.Forall₂ S ys zs) :
    List.Forall₂ (fun x z => ∃ y ∈ ys, R x y ∧ S y z) xs zs := by
  induction h generalizing zs with
  | nil => cases h'; exact .nil
  | cons hxy _ ih =>
    cases h' with
    | cons hyz hrest =>
      refine .cons ⟨_, List.mem_cons_self, hxy, hyz⟩ ((ih hrest).imp ?_)
      rintro x z ⟨y, hy, hboth⟩
      exact ⟨y, List.mem_cons_of_mem _ hy, hboth⟩

theorem exists_append_of_forall₂ {R : α → β → Prop} {xs xs' : List α} {ys : List β}
    (h : List.Forall₂ R (xs ++ xs') ys) :
    ∃ zs zs', ys = zs ++ zs' ∧ List.Forall₂ R xs zs ∧ List.Forall₂ R xs' zs' := by
  induction xs generalizing ys with
  | nil => exact ⟨[], ys, rfl, .nil, h⟩
  | cons x xs ih =>
    cases h with
    | cons hx hrest =>
      obtain ⟨zs, zs', rfl, hzs, hzs'⟩ := ih hrest
      exact ⟨_ :: zs, zs', rfl, .cons hx hzs, hzs'⟩

theorem exists_forall₂ {R : α → β → Prop} {xs : List α} (h : ∀ x ∈ xs, ∃ y, R x y) :
    ∃ ys, List.Forall₂ R xs ys := by
  induction xs with
  | nil => exact ⟨[], .nil⟩
  | cons x xs ih =>
    obtain ⟨hx, hrest⟩ := List.forall_mem_cons.1 h
    obtain ⟨y, hy⟩ := hx
    obtain ⟨ys, hys⟩ := ih hrest
    exact ⟨y :: ys, .cons hy hys⟩

theorem mapM_eq_ok {f : α → Except ε β} {g : α → β} {xs : List α} (h : ∀ x ∈ xs, f x = .ok (g x)) :
    xs.mapM f = .ok (xs.map g) := by
  rw [mapM_eq_ok_iff, List.forall₂_map_right_iff, List.forall₂_same]
  exact h

/-- A loop over steps that succeed under a condition, each with a known result. -/
theorem mapM_eq_ok_map_iff {f : α → Except ε β} {P : α → Prop} {g : α → β} {xs : List α} {ys : List β}
    (h : ∀ x ∈ xs, ∀ y, f x = .ok y ↔ P x ∧ y = g x) :
    xs.mapM f = .ok ys ↔ (∀ x ∈ xs, P x) ∧ ys = xs.map g := by
  rw [mapM_eq_ok_iff]
  induction xs generalizing ys with
  | nil => simp
  | cons x xs ih =>
    obtain ⟨hx, hrest⟩ := List.forall_mem_cons.1 h
    cases ys with
    | nil => simp
    | cons y ys =>
      rw [List.forall₂_cons, hx, ih hrest, List.forall_mem_cons, List.map_cons, List.cons.injEq,
        and_and_and_comm]

/-- The first step that fails ends the loop. -/
theorem mapM_eq_error {f : α → Except ε β} {before after : List α} {x : α} {e : ε}
    (hbefore : ∀ y ∈ before, ∃ z, f y = .ok z) (hx : f x = .error e) :
    (before ++ x :: after).mapM f = .error e := by
  obtain ⟨zs, hzs⟩ := exists_mapM_eq_ok hbefore
  rw [List.mapM_append, hzs, List.mapM_cons, hx]
  rfl

theorem filterM_eq_ok {α : Type} {f : α → Except ε Bool} {g : α → Bool} {xs : List α}
    (h : ∀ x ∈ xs, f x = .ok (g x)) : xs.filterM f = .ok (xs.filter g) := by
  have haux : ∀ acc, xs.filterAuxM f acc = .ok ((xs.filter g).reverse ++ acc) := by
    induction xs with
    | nil => intro acc; rfl
    | cons x xs ih =>
      obtain ⟨hx, hrest⟩ := List.forall_mem_cons.1 h
      intro acc
      rw [List.filterAuxM, hx]
      refine (ih hrest _).trans ?_
      cases hg : g x <;> simp [hg]
  rw [List.filterM, haux, List.append_nil]
  exact congrArg Except.ok (List.reverse_reverse _)

/-! ## Numbers and texts -/

theorem liftNumber_eq_ok_iff {x : Except NumberFault α} {a : α} :
    (liftM x : Except Fault α) = .ok a ↔ x = .ok a := by
  cases x with
  | error e => exact ⟨nofun, nofun⟩
  | ok b =>
    rw [Except.ok.injEq]
    exact ⟨fun h => Except.ok.inj h, fun h => congrArg Except.ok h⟩

theorem written_eq_error_iff {v : Value} {t : Text} {e : TextFault} :
    v.written t = .error e ↔ e = .tooManyDigits ∧ v.isWritable = false := by
  unfold Value.written
  split
  · next h => simp [h]
  · next h => simp [h, eq_comm]

theorem liftText_eq_error_iff {x : Except TextFault α} {e : Fault} :
    (liftM x : Except Fault α) = .error e ↔ ∃ f, x = .error f ∧ e = .text f := by
  cases x with
  | ok a => exact ⟨nofun, nofun⟩
  | error f =>
    show Except.error (Fault.text f) = _ ↔ _
    simp [eq_comm]

namespace FailsWith
variable {P : Fault → Prop} {w : Value}

theorem written (h : w.isWritable = false → P (.text .tooManyDigits)) (t : Text) :
    FailsWith P (liftM (w.written t) : Except Fault Text) := by
  intro e he
  obtain ⟨f, hf, rfl⟩ := liftText_eq_error_iff.1 he
  obtain ⟨rfl, hlong⟩ := written_eq_error_iff.1 hf
  exact h hlong

theorem key (h : w.key? = none → P .noKey) : FailsWith P w.key := by
  intro e he
  unfold Value.key Fault.orNoKey at he
  split at he
  · cases he
  · next hkey =>
    cases he
    exact h hkey

end FailsWith
end BalancedTeams
