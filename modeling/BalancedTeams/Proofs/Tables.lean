import BalancedTeams.Mention
import BalancedTeams.Proofs.Model.Checks

/-!
# What tables hold

* `Table.exists_of?`, `Table.find?_of?` : a list of things whose fields have keys has a table, in
  which the last thing under a key is found;
* `Table.find?_of?_eq_some`, `Table.find?_of?_eq_none` : the same for a thing known by its place;
* `key?_eq_str_iff` : only a text has the key of a text.
-/

namespace BalancedTeams

theorem key?_eq_str_iff {v : Value} {t : Text} : v.key? = some (.str t) ↔ v = .str t := by
  constructor
  · intro h
    cases v with
    | list | map => cases h
    | scalar s =>
      rw [Value.key?, Option.some.injEq] at h
      cases s with
      | str u => cases h; rfl
      | float x =>
        simp only [Scalar.key] at h
        split at h <;> cases h
      | _ => cases h
  · rintro rfl
    rfl

namespace Table
variable {α β : Type} {field : β → Value} {item : β → α} {things : List β} {table : Table α}

theorem of?_eq_some_iff : Table.of? field item things = some table ↔
    ∃ keys, keysOf? (things.map field) = some keys ∧ table = ofList (keys.zip (things.map item)) := by
  rw [of?, Option.bind_eq_bind, Option.bind_eq_some_iff]
  refine exists_congr fun keys => and_congr_right fun _ => ?_
  rw [Option.pure_def, Option.some.injEq, eq_comm]

theorem exists_of? (item : β → α) (h : ∀ x ∈ things, (field x).key?.isSome = true) :
    ∃ table, Table.of? field item things = some table := by
  have hkeyed : ∀ v ∈ things.map field, v.key?.isSome = true := by
    intro v hv
    obtain ⟨x, hx, rfl⟩ := List.mem_map.1 hv
    exact h x hx
  obtain ⟨keys, hkeys⟩ := exists_keysOf? hkeyed
  exact ⟨_, of?_eq_some_iff.2 ⟨keys, hkeys, rfl⟩⟩

theorem find?_of? (h : Table.of? field item things = some table) (k : Key) :
    table.find? k = (things.reverse.find? fun x => (field x).key? == some k).map item := by
  obtain ⟨keys, hkeys, rfl⟩ := of?_eq_some_iff.1 h
  rw [keysOf?_eq_some_iff] at hkeys
  show ((keys.zip (things.map item)).reverse.find? fun e => e.1 == k).map Prod.snd = _
  clear h
  induction things generalizing keys with
  | nil => simp
  | cons x things ih =>
    cases keys with
    | nil => cases hkeys
    | cons l keys =>
      simp only [List.map_cons, List.cons.injEq] at hkeys
      obtain ⟨hx, hrest⟩ := hkeys
      have hfirst : (l == k) = ((field x).key? == some k) := by simp [hx]
      rw [List.map_cons, List.zip_cons_cons, List.reverse_cons, List.reverse_cons,
        List.find?_append, List.find?_append, Option.map_or, Option.map_or, ih keys hrest,
        List.find?_singleton, List.find?_singleton, hfirst]
      cases (field x).key? == some k <;> rfl

theorem find?_of?_eq_some (h : Table.of? field item things = some table) {k : Key} {before after : List β}
    {x : β} (hthings : things = before ++ x :: after) (hx : (field x).key? = some k)
    (hafter : ∀ y ∈ after, (field y).key? ≠ some k) : table.find? k = some (item x) := by
  have hnone : after.reverse.find? (fun y => (field y).key? == some k) = none := by
    simpa using hafter
  rw [find?_of? h, hthings, List.reverse_append, List.reverse_cons, List.append_assoc,
    List.find?_append, hnone, Option.none_or, List.singleton_append,
    List.find?_cons_of_pos (by simp [hx]), Option.map_some]

theorem find?_of?_eq_none (h : Table.of? field item things = some table) {k : Key} :
    table.find? k = none ↔ ∀ x ∈ things, (field x).key? ≠ some k := by
  simp [find?_of? h]

theorem exists_of_find?_of? (h : Table.of? field item things = some table) {k : Key} {a : α}
    (hfind : table.find? k = some a) : ∃ before x after, things = before ++ x :: after ∧
      (field x).key? = some k ∧ a = item x ∧ ∀ y ∈ after, (field y).key? ≠ some k := by
  rw [find?_of? h, Option.map_eq_some_iff] at hfind
  obtain ⟨x, hx, rfl⟩ := hfind
  obtain ⟨hkey, as, bs, hsplit, has⟩ := List.find?_eq_some_iff_append.1 hx
  refine ⟨bs.reverse, x, as.reverse, ?_, by simpa using hkey, rfl, by simpa using has⟩
  rw [← List.reverse_inj, hsplit]
  simp

end Table
end BalancedTeams
