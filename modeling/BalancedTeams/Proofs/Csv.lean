import BalancedTeams.Proofs.Tables
import BalancedTeams.Report

/-!
# Comma-separated values read back

* `Csv.Reader`, `Csv.Reader.step` : a reader of the format that goes from code point to code point;
* `Csv.decode` : the rows of a text, if it is well formed;
* `Csv.Reader.run_quoteIfNeeded`, `Csv.Reader.run_line` : a field and a row as they are written are read
  as what they were, whatever code points they have;
* `Csv.decode_lines` : so are any number of rows;
* `Result.csv_eq_ok_iff` : what a report is written as, and when it can be had;
* `Result.decode_csv` : the report has one row for each member of each team.
-/

namespace BalancedTeams

namespace Csv

/-! ## Reading -/

/-- Where a reader stands. -/
inductive Place where
  /-- Before a field. -/
  | start
  /-- In a field without quotes. -/
  | bare
  /-- Between the quotes of a field. -/
  | quoted
  /-- After a quote that ends a field, unless another one follows. -/
  | closed
  /-- Within the end of a row. -/
  | ending
  deriving DecidableEq, Repr

/-- What has been read: whole rows, the fields of the row that is open, and the start of a field. -/
structure Reader where
  rows : List (List Text) := []
  row : List Text := []
  field : Text := []
  place : Place := .start
  deriving DecidableEq, Repr

namespace Reader

def extend (r : Reader) (c : CodePoint) (place : Place) : Reader :=
  { r with field := r.field ++ [c], place }

/-- After a field there is another one or the end of the row. -/
def separate (r : Reader) (c : CodePoint) : Option Reader :=
  if c = ',' then some { r with row := r.row ++ [r.field], field := [], place := .start }
  else if c = '\r' then some { r with place := .ending }
  else none

/-- Quotes may only be around a field, and within it in pairs; a line feed only after a return. -/
def step (r : Reader) (c : CodePoint) : Option Reader :=
  match r.place with
  | .start =>
    if c = quote then some { r with place := .quoted }
    else if isSign c then r.separate c
    else some (r.extend c .bare)
  | .bare => if isSign c then r.separate c else some (r.extend c .bare)
  | .quoted => some (if c = quote then { r with place := .closed } else r.extend c .quoted)
  | .closed => if c = quote then some (r.extend c .quoted) else r.separate c
  | .ending => if c = '\n' then some { rows := r.rows ++ [r.row ++ [r.field]] } else none

def run (r : Reader) (t : Text) : Option Reader := t.foldlM step r

/-- The rows at the end of the text. The last one may lack its end. -/
def finish (r : Reader) : Option (List (List Text)) :=
  match r.place with
  | .start => some (if r.row = [] then r.rows else r.rows ++ [r.row ++ [r.field]])
  | .bare | .closed => some (r.rows ++ [r.row ++ [r.field]])
  | .quoted | .ending => none

end Reader

/-- The rows of a text. -/
def decode (t : Text) : Option (List (List Text)) := (Reader.run {} t).bind Reader.finish

/-! ## Fields -/

/-- The reader may be at the end of a field. -/
def Place.isField : Place → Bool
  | .start | .bare | .closed => true
  | .quoted | .ending => false

namespace Reader
variable {r : Reader} {t : Text}

theorem run_append (r : Reader) (s t : Text) : r.run (s ++ t) = (r.run s).bind (run · t) :=
  List.foldlM_append

theorem run_cons (r : Reader) (c : CodePoint) (t : Text) : r.run (c :: t) = (r.step c).bind (run · t) :=
  List.foldlM_cons

/-- Without signs nothing needs quotes. -/
theorem run_bare (ht : t.any isSign = false) (hr : r.place = .start ∨ r.place = .bare) :
    ∃ place, place.isField = true ∧ r.run t = some { r with field := r.field ++ t, place } := by
  induction t generalizing r with
  | nil =>
    refine ⟨r.place, ?_, by rw [List.append_nil]; rfl⟩
    rcases hr with hr | hr <;> rw [hr] <;> rfl
  | cons c t ih =>
    rw [List.any_cons, Bool.or_eq_false_iff] at ht
    obtain ⟨hc, ht⟩ := ht
    have hquote : c ≠ quote := by
      rintro rfl
      revert hc
      decide
    have hstep : r.step c = some (r.extend c .bare) := by
      unfold step
      rcases hr with hr | hr
      · simp [hr, hc, hquote]
      · simp [hr, hc]
    obtain ⟨place, hplace, hrun⟩ := @ih (r.extend c .bare) ht (Or.inr rfl)
    refine ⟨place, hplace, ?_⟩
    rw [run_cons, hstep, Option.bind_some, hrun]
    simp [extend]

/-- Pairs of quotes are read as quotes, and all other code points as they are. -/
theorem run_doubled (hr : r.place = .quoted) :
    r.run (doubled t) = some { r with field := r.field ++ t } := by
  induction t generalizing r with
  | nil =>
    rw [List.append_nil]
    rfl
  | cons c t ih =>
    have hnext := @ih (r.extend c .quoted) rfl
    have hpoint : r.run (if c = quote then [c, c] else [c]) = some (r.extend c .quoted) := by
      split
      · next hc => simp [step, hr, hc, extend, run]
      · next hc => simp [step, hr, hc, run]
    rw [doubled, List.flatMap_cons, run_append, hpoint, Option.bind_some]
    refine hnext.trans ?_
    simp [extend, hr]

/-- A field is read as it was before it was written. -/
theorem run_quoteIfNeeded (rows : List (List Text)) (row : List Text) (t : Text) :
    ∃ place, place.isField = true ∧
      run { rows, row } (quoteIfNeeded t) = some { rows, row, field := t, place } := by
  unfold quoteIfNeeded
  split
  · refine ⟨.closed, rfl, ?_⟩
    have hopen : step { rows, row } quote = some { rows, row, place := .quoted } := rfl
    have hclose : run { rows, row, field := t, place := .quoted } [quote] =
        some { rows, row, field := t, place := .closed } := rfl
    rw [List.cons_append, run_cons, hopen, Option.bind_some, run_append, run_doubled rfl,
      Option.bind_some, List.nil_append]
    exact hclose
  · next ht =>
    exact @run_bare { rows, row } t (by simpa using ht) (Or.inl rfl)

theorem step_comma (hr : r.place.isField = true) :
    r.step ',' = some { r with row := r.row ++ [r.field], field := [], place := .start } := by
  obtain ⟨rows, row, field, place⟩ := r
  cases place with
  | start | bare | closed => rfl
  | quoted | ending => cases hr

theorem run_end (hr : r.place.isField = true) :
    r.run "\r\n" = some { rows := r.rows ++ [r.row ++ [r.field]] } := by
  obtain ⟨rows, row, field, place⟩ := r
  cases place with
  | start | bare | closed => rfl
  | quoted | ending => cases hr

end Reader

/-! ## Rows -/

def line (fields : List Text) : Text := ("," : Text).intercalate (fields.map quoteIfNeeded) ++ "\r\n"

theorem line_cons_cons (f g : Text) (fs : List Text) :
    line (f :: g :: fs) = quoteIfNeeded f ++ CodePoint.char ',' :: line (g :: fs) := by
  simp [line, List.intercalate, List.append_assoc]
  rfl

theorem Reader.run_line (rows : List (List Text)) (row : List Text) (f : Text) (fs : List Text) :
    run { rows, row } (line (f :: fs)) = some { rows := rows ++ [row ++ f :: fs] } := by
  induction fs generalizing f row with
  | nil =>
    obtain ⟨place, hplace, hrun⟩ := run_quoteIfNeeded rows row f
    have hline : line [f] = quoteIfNeeded f ++ ("\r\n" : Text) := by simp [line, List.intercalate]
    rw [hline, run_append, hrun, Option.bind_some, run_end hplace]
  | cons g fs ih =>
    obtain ⟨place, hplace, hrun⟩ := run_quoteIfNeeded rows row f
    rw [line_cons_cons, run_append, hrun, Option.bind_some, run_cons, step_comma hplace,
      Option.bind_some]
    refine (ih (row ++ [f]) g).trans ?_
    rw [List.append_assoc]
    rfl

theorem Reader.run_lines {rows : List (List Text)} (h : ∀ fields ∈ rows, fields ≠ [])
    (before : List (List Text)) :
    run { rows := before } (rows.flatMap line) = some { rows := before ++ rows } := by
  induction rows generalizing before with
  | nil =>
    rw [List.append_nil]
    rfl
  | cons fields rows ih =>
    obtain ⟨hfields, hrest⟩ := List.forall_mem_cons.1 h
    obtain ⟨f, fs, rfl⟩ := List.exists_cons_of_ne_nil hfields
    rw [List.flatMap_cons, run_append, run_line, Option.bind_some, List.nil_append, ih hrest,
      List.append_assoc]
    rfl

/-- **Rows are read as they were written**, with whatever code points they have. -/
theorem decode_lines {rows : List (List Text)} (h : ∀ fields ∈ rows, fields ≠ []) :
    decode (rows.flatMap line) = some rows := by
  rw [decode, Reader.run_lines h []]
  rfl

example : decode "a,\"b,\"\"c\"\"\"\r\n,\r\n" = some ([["a", "b,\"c\""], ["", ""]] : List (List Text)) := by
  decide

/-! ## Values -/

def cell : Value → Text
  | .null => []
  | v => v.plain

theorem field_eq_ok_iff {v : Value} {t : Text} :
    field v = .ok t ↔ v.isWritable = true ∧ t = quoteIfNeeded (cell v) := by
  by_cases hv : v = .null
  · subst hv
    rw [field, Except.ok.injEq, eq_comm]
    exact ⟨fun h => ⟨rfl, h⟩, And.right⟩
  · have hfield : field v = v.text.map quoteIfNeeded := by
      unfold field
      split
      · exact absurd rfl hv
      · rfl
    have hcell : cell v = v.plain := by
      unfold cell
      split
      · exact absurd rfl hv
      · rfl
    rw [hfield, hcell, Value.text, Value.written]
    cases v.isWritable with
    | false => simp [Except.map]
    | true =>
      rw [if_pos rfl, Except.map, Except.ok.injEq, eq_comm]
      exact ⟨fun h => ⟨rfl, h⟩, And.right⟩

theorem row_eq_ok_iff {values : List Value} {t : Text} :
    row values = .ok t ↔ (∀ v ∈ values, v.isWritable = true) ∧ t = line (values.map cell) := by
  unfold row
  rw [bind_eq_ok_iff]
  simp only [mapM_eq_ok_map_iff fun v _ t => field_eq_ok_iff]
  constructor
  · rintro ⟨_, ⟨hwritable, rfl⟩, ht⟩
    cases ht
    exact ⟨hwritable, by rw [line, List.map_map]; rfl⟩
  · rintro ⟨hwritable, rfl⟩
    exact ⟨_, ⟨hwritable, rfl⟩, by rw [line, List.map_map]; rfl⟩

end Csv

/-! ## Reports -/

/-- The name of the last person with an id, or an empty one. -/
def Report.nameIn (people : List Person) (id : Value) : Value :=
  ((people.reverse.find? fun p => p.id.key? == id.key?).map Person.name).getD (.str "")

namespace Result

variable {people : List Person} {names : Table Value} {team : Nat} {id : Value} {t : Text}

theorem nameOr_eq_ok_iff {name : Value} (h : Report.names people = .ok names) :
    Report.nameOr (.str "") names id = .ok name ↔
      id.key?.isSome = true ∧ name = Report.nameIn people id := by
  unfold Report.nameOr
  simp only [bind_eq_ok_iff, key_eq_ok_iff]
  constructor
  · rintro ⟨k, hk, hname⟩
    cases hname
    refine ⟨by rw [hk]; rfl, ?_⟩
    rw [Table.find?_of? (orNoKey_eq_ok_iff.1 h), Report.nameIn, hk]
  · rintro ⟨hkey, rfl⟩
    obtain ⟨k, hk⟩ := Option.isSome_iff_exists.1 hkey
    refine ⟨k, hk, ?_⟩
    rw [Table.find?_of? (orNoKey_eq_ok_iff.1 h), Report.nameIn, hk]
    rfl

/-- The values in the row of a member of a team. -/
def record (people : List Person) (team : Nat) (id : Value) : List Value :=
  [.int team, id, Report.nameIn people id]

theorem row_personRow_eq_ok_iff (h : Report.names people = .ok names) :
    (do Csv.row (← personRow names team id) : Except Fault Text) = .ok t ↔
      (id.key?.isSome = true ∧ ∀ v ∈ record people team id, v.isWritable = true) ∧
      t = Csv.line ((record people team id).map Csv.cell) := by
  have hperson : ∀ fields, personRow names team id = .ok fields ↔
      id.key?.isSome = true ∧ fields = record people team id := by
    intro fields
    unfold personRow
    simp only [bind_eq_ok_iff, nameOr_eq_ok_iff h]
    constructor
    · rintro ⟨_, ⟨hkey, rfl⟩, hfields⟩
      cases hfields
      exact ⟨hkey, rfl⟩
    · rintro ⟨hkey, rfl⟩
      exact ⟨_, ⟨hkey, rfl⟩, rfl⟩
  simp only [bind_eq_ok_iff, hperson, liftText_eq_ok_iff, Csv.row_eq_ok_iff]
  constructor
  · rintro ⟨_, ⟨hkey, rfl⟩, hwritable, rfl⟩
    exact ⟨⟨hkey, hwritable⟩, rfl⟩
  · rintro ⟨⟨hkey, hwritable⟩, rfl⟩
    exact ⟨_, ⟨hkey, rfl⟩, hwritable, rfl⟩

def records (r : Result) (people : List Person) : List (List Value) :=
  r.teams.zipIdx.flatMap fun t => t.1.map (record people (t.2 + 1))

/-- Ids can be looked up, and what stands in the rows can be written. -/
structure IsReportable (r : Result) (people : List Person) : Prop where
  listed : ∀ p ∈ people, p.id.key?.isSome = true
  members : ∀ team ∈ r.teams, ∀ id ∈ team, id.key?.isSome = true
  writable : ∀ fields ∈ r.records people, ∀ v ∈ fields, v.isWritable = true

theorem exists_names_iff : (∃ names, Report.names people = .ok names) ↔
    ∀ p ∈ people, p.id.key?.isSome = true := by
  constructor
  · rintro ⟨names, h⟩ p hp
    obtain ⟨keys, hkeys, -⟩ := Table.of?_eq_some_iff.1 (orNoKey_eq_ok_iff.1 h)
    exact keyed_of_keysOf? hkeys _ (List.mem_map_of_mem hp)
  · intro h
    obtain ⟨names, hnames⟩ := Table.exists_of? Person.name h
    exact ⟨names, orNoKey_eq_ok_iff.2 hnames⟩

/-- The rows can be written one by one. -/
theorem isReportable_iff {r : Result} : r.IsReportable people ↔
    (∀ p ∈ people, p.id.key?.isSome = true) ∧ ∀ t ∈ r.teams.zipIdx, ∀ id ∈ t.1,
      id.key?.isSome = true ∧ ∀ v ∈ record people (t.2 + 1) id, v.isWritable = true := by
  constructor
  · rintro ⟨hlisted, hmembers, hwritable⟩
    refine ⟨hlisted, fun t ht id hid => ⟨hmembers t.1 (List.fst_mem_of_mem_zipIdx ht) id hid, ?_⟩⟩
    exact hwritable _ (List.mem_flatMap.2 ⟨t, ht, List.mem_map_of_mem hid⟩)
  · rintro ⟨hlisted, hrows⟩
    refine ⟨hlisted, fun team hteam id hid => ?_, fun fields hfields => ?_⟩
    · rw [← List.zipIdx_map_fst 0 r.teams] at hteam
      obtain ⟨t, ht, rfl⟩ := List.mem_map.1 hteam
      exact (hrows t ht id hid).1
    · obtain ⟨t, ht, hfields⟩ := List.mem_flatMap.1 hfields
      obtain ⟨id, hid, rfl⟩ := List.mem_map.1 hfields
      exact (hrows t ht id hid).2

theorem csv_eq_ok_iff {r : Result} : r.csv people = .ok t ↔ r.IsReportable people ∧
    t = ((header :: r.records people).map (List.map Csv.cell)).flatMap Csv.line := by
  have hheader : ∀ u, (liftM (Csv.row header) : Except Fault Text) = .ok u ↔
      u = Csv.line (header.map Csv.cell) := by
    intro u
    rw [liftText_eq_ok_iff, Csv.row_eq_ok_iff, and_iff_right (by decide)]
  have hrows : ∀ names, Report.names people = .ok names → ∀ rows,
      (r.teams.zipIdx.mapM fun t => t.1.mapM fun id => do
        Csv.row (← personRow names (t.2 + 1) id) : Except Fault (List (List Text))) = .ok rows ↔
      (∀ t ∈ r.teams.zipIdx, ∀ id ∈ t.1, id.key?.isSome = true ∧
          ∀ v ∈ record people (t.2 + 1) id, v.isWritable = true) ∧
        rows = r.teams.zipIdx.map fun t =>
          t.1.map fun id => Csv.line ((record people (t.2 + 1) id).map Csv.cell) :=
    fun names h rows => mapM_eq_ok_map_iff fun t _ row =>
      mapM_eq_ok_map_iff fun id _ u => row_personRow_eq_ok_iff h
  have hjoin : ((header :: r.records people).map (List.map Csv.cell)).flatMap Csv.line =
      Csv.line (header.map Csv.cell) ++ (r.teams.zipIdx.map fun t =>
        t.1.map fun id => Csv.line ((record people (t.2 + 1) id).map Csv.cell)).flatten.flatten := by
    simp [records, List.flatMap_def, List.map_flatten, Function.comp_def]
  rw [isReportable_iff, ← exists_names_iff, hjoin]
  unfold csv
  simp only [bind_eq_ok_iff, hheader]
  constructor
  · rintro ⟨names, hnames, _, rfl, rows, hall, ht⟩
    obtain ⟨hkeyed, rfl⟩ := (hrows names hnames rows).1 hall
    cases ht
    exact ⟨⟨⟨names, hnames⟩, hkeyed⟩, rfl⟩
  · rintro ⟨⟨⟨names, hnames⟩, hkeyed⟩, rfl⟩
    exact ⟨names, hnames, _, rfl, _, (hrows names hnames _).2 ⟨hkeyed, rfl⟩, rfl⟩

/-- **A report has one row for each member of each team.** It can be had exactly if ids can be looked up
and what stands in its rows can be written. Then the rows that are read from it are the header and, team
by team and in the order of the members, the number of the team from 1 on, the id, and the name of the last
person listed with it, empty where there is none or it is null; whatever code points these have. -/
theorem decode_csv (r : Result) (people : List Person) :
    ((∃ t, r.csv people = .ok t) ↔ r.IsReportable people) ∧
    ∀ t, r.csv people = .ok t → Csv.decode t =
      some ((["team", "person_id", "name"] : List Text) :: r.teams.zipIdx.flatMap fun team =>
        team.1.map fun id =>
          [Text.ofString (toString (team.2 + 1)), Csv.cell id, Csv.cell (Report.nameIn people id)]) := by
  refine ⟨⟨fun ⟨t, ht⟩ => (csv_eq_ok_iff.1 ht).1, fun h => ⟨_, csv_eq_ok_iff.2 ⟨h, rfl⟩⟩⟩, fun t ht => ?_⟩
  obtain ⟨-, rfl⟩ := csv_eq_ok_iff.1 ht
  have hfields : ∀ fields ∈ (header :: r.records people).map (List.map Csv.cell), fields ≠ [] := by
    intro fields hfields
    obtain ⟨values, hvalues, rfl⟩ := List.mem_map.1 hfields
    rcases List.mem_cons.1 hvalues with rfl | hvalues
    · exact List.cons_ne_nil _ _
    · obtain ⟨team, -, hvalues⟩ := List.mem_flatMap.1 hvalues
      obtain ⟨id, -, rfl⟩ := List.mem_map.1 hvalues
      exact List.cons_ne_nil _ _
  rw [Csv.decode_lines hfields, List.map_cons, records, List.map_flatMap]
  simp only [List.map_map]
  rfl

/-- A member with signs of the format in id and name, one who is not listed, and one whose id is null. -/
def signs : Result where
  solution := some ⟨[[.str "a,b", .int 7], [.null]], .int 0, Status.optimal⟩

def signsPeople : List Person := [⟨.str "a,b", .str "Ann", []⟩, ⟨.null, .null, []⟩,
  ⟨.str "a,b", .str "Ann \"the\r\nfirst\"", []⟩]

theorem isReportable_signs : signs.IsReportable signsPeople := isReportable_iff.2 (by decide +kernel)

theorem decode_csv_signs : ∃ t, signs.csv signsPeople = .ok t ∧ Csv.decode t =
    some ([["team", "person_id", "name"], ["1", "a,b", "Ann \"the\r\nfirst\""], ["1", "7", ""],
      ["2", "", ""]] : List (List Text)) := by
  obtain ⟨hcsv, hdecode⟩ := decode_csv signs signsPeople
  obtain ⟨t, ht⟩ := hcsv.2 isReportable_signs
  refine ⟨t, ht, (hdecode t ht).trans ?_⟩
  decide +kernel

end Result
end BalancedTeams
