import BalancedTeams.Proofs.Relation.Pieces
import BalancedTeams.Proofs.Relation.Validation
import BalancedTeams.Proofs.Runs

/-!
# Which tokens are read

* `Token.exists_ref_of_ofEntries`, `Token.exists_of_ref_of_ofEntries` : the mentions among the tokens
  are the references;
* `Token.ofEntriesFrom_fails`, `relationTokens_fails` : what entries are refused for;
* `relationTokens_eq_ok_iff` : the tokens of a relation are the tokens read, if they are an
  expression.
-/

namespace BalancedTeams

theorem operator?_ne_mention (word : Text) : operator? word ≠ some .mention := by
  unfold operator?
  simp only
  split
  · simp
  · split
    · simp
    · split <;> simp

namespace Token

theorem kind_ne_mention_of_ofText {entry offset : Nat} {cs : Text} {ts : List Token}
    (h : ofText entry offset cs = .ok ts) : ∀ t ∈ ts, t.kind ≠ .mention := by
  have hcons : ∀ {t : Token} {x : Except Fault (List Token)} {us : List Token}, t.kind ≠ .mention →
      (∀ {vs : List Token}, x = .ok vs → ∀ u ∈ vs, u.kind ≠ .mention) →
      (do let vs ← x; return t :: vs) = Except.ok us → ∀ u ∈ us, u.kind ≠ .mention := by
    intro t x us ht hx hus
    obtain ⟨vs, hvs, hus⟩ := bind_eq_ok_iff.1 hus
    cases hus
    exact List.forall_mem_cons.2 ⟨ht, hx hvs⟩
  fun_induction ofText entry offset cs generalizing ts with
  | case1 => cases h; simp
  | case2 offset rest ih =>
    apply hcons ?_ ih h
    simp
  | case3 offset rest hne ih =>
    apply hcons ?_ ih h
    simp
  | case4 offset c rest hopen hclose hblank ih => exact ih h
  | case5 => cases h
  | case6 offset c rest hopen hclose hblank more kind hkind =>
    rename_i ih
    apply hcons ?_ ih h
    show kind ≠ .mention
    intro hmention
    exact operator?_ne_mention _ (hmention ▸ hkind)

theorem exists_ref_of_ofEntriesFrom {entries : List Entry} {index : Nat} {ts : List Token}
    (h : ofEntriesFrom index entries = .ok ts) :
    ∀ t ∈ ts, t.kind = .mention → ∃ ref, t.ref = some ref ∧ Entry.ref ref ∈ entries := by
  induction entries generalizing index ts with
  | nil => cases h; simp
  | cons e entries ih =>
    obtain ⟨us, hus, h⟩ := bind_eq_ok_iff.1 h
    obtain ⟨vs, hvs, h⟩ := bind_eq_ok_iff.1 h
    cases h
    intro t ht hmention
    rcases List.mem_append.1 ht with hin | hin
    · cases e with
      | text s => exact absurd hmention (kind_ne_mention_of_ofText hus t hin)
      | ref ref =>
        cases hus
        rw [List.mem_singleton.1 hin]
        exact ⟨ref, rfl, List.mem_cons_self⟩
      | foreign v =>
        obtain ⟨s, -, hs⟩ := bind_eq_ok_iff.1 hus
        cases hs
    · obtain ⟨ref, href, hmem⟩ := ih hvs t hin hmention
      exact ⟨ref, href, List.mem_cons_of_mem _ hmem⟩

theorem exists_ref_of_ofEntries {entries : List Entry} {ts : List Token}
    (h : ofEntries entries = .ok ts) {t : Token} (ht : t ∈ ts) (hmention : t.kind = .mention) :
    ∃ ref, t.ref = some ref ∧ Entry.ref ref ∈ entries :=
  exists_ref_of_ofEntriesFrom h t ht hmention

theorem exists_of_ref_of_ofEntriesFrom {entries : List Entry} {index : Nat} {ts : List Token}
    (h : ofEntriesFrom index entries = .ok ts) {ref : Ref} (href : Entry.ref ref ∈ entries) :
    ∃ t ∈ ts, t.kind = .mention ∧ t.ref = some ref := by
  induction entries generalizing index ts with
  | nil => cases href
  | cons e entries ih =>
    obtain ⟨us, hus, h⟩ := bind_eq_ok_iff.1 h
    obtain ⟨vs, hvs, h⟩ := bind_eq_ok_iff.1 h
    cases h
    rcases List.mem_cons.1 href with rfl | href
    · cases hus
      exact ⟨_, List.mem_append_left _ List.mem_cons_self, rfl, rfl⟩
    · obtain ⟨t, ht, hboth⟩ := ih hvs href
      exact ⟨t, List.mem_append_right _ ht, hboth⟩

theorem exists_of_ref_of_ofEntries {entries : List Entry} {ts : List Token}
    (h : ofEntries entries = .ok ts) {ref : Ref} (href : Entry.ref ref ∈ entries) :
    ∃ t ∈ ts, t.kind = .mention ∧ t.ref = some ref := exists_of_ref_of_ofEntriesFrom h href

/-! ## What is refused -/

theorem fault_of_ofText {entry offset : Nat} {cs : Text} {e : Fault}
    (h : ofText entry offset cs = .error e) : ∃ w, e = .word none w := by
  have hcons : ∀ {t : Token} {x : Except Fault (List Token)}, (x = .error e → ∃ w, e = .word none w) →
      (do let vs ← x; return t :: vs) = Except.error e → ∃ w, e = .word none w := by
    intro t x hx hus
    rcases bind_eq_error_iff.1 hus with hus | ⟨vs, -, hus⟩
    · exact hx hus
    · cases hus
  fun_induction ofText entry offset cs with
  | case1 => cases h
  | case2 offset rest ih => exact hcons ih h
  | case3 offset rest hne ih => exact hcons ih h
  | case4 offset c rest hopen hclose hblank ih => exact ih h
  | case5 =>
    cases h
    exact ⟨_, rfl⟩
  | case6 offset c rest hopen hclose hblank more kind hkind ih => exact hcons ih h

/-- Entries are refused for a word, or for a value that cannot be shown. -/
theorem ofEntriesFrom_fails (entries : List Entry) (index : Nat) :
    FailsWith (fun e => (∃ w, e = .word none w) ∨ ∃ v, Entry.foreign v ∈ entries ∧
      v.isWritable = false ∧ e = .text .tooManyDigits) (ofEntriesFrom index entries) := by
  induction entries generalizing index with
  | nil => exact .ok _
  | cons x entries ih =>
    refine FailsWith.bind (fun e he => ?_) fun us _ => FailsWith.bind (fun e he => ?_) fun vs _ => .ok _
    · cases x with
      | text t => exact Or.inl (fault_of_ofText he)
      | ref ref => cases he
      | foreign v =>
        rcases bind_eq_error_iff.1 he with he | ⟨shown, -, he⟩
        · obtain ⟨f, hf, rfl⟩ := liftText_eq_error_iff.1 he
          obtain ⟨rfl, hlong⟩ := written_eq_error_iff.1 hf
          exact Or.inr ⟨v, List.mem_cons_self, hlong, rfl⟩
        · cases he
          exact Or.inl ⟨_, rfl⟩
    · rcases ih (index + 1) e he with hword | ⟨v, hv, hboth⟩
      · exact Or.inl hword
      · exact Or.inr ⟨v, List.mem_cons_of_mem _ hv, hboth⟩

end Token

theorem relationTokens_eq_ok_iff {entries : List Entry} {ts : List Token} :
    relationTokens entries = .ok ts ↔ Token.ofEntries entries = .ok ts ∧ Token.FormExpr ts := by
  unfold relationTokens Token.FormExpr
  rw [bind_eq_ok_iff]
  constructor
  · intro ⟨us, hus, h⟩
    split at h
    · next hvalid =>
      cases h
      exact ⟨hus, (validate_eq_ok_iff_expr _).1 hvalid⟩
    · cases h
  · intro ⟨hts, hexpr⟩
    refine ⟨ts, hts, ?_⟩
    simp only [(validate_eq_ok_iff_expr _).2 hexpr]
    rfl

theorem relationTokens_fails (entries : List Entry) :
    FailsWith (fun e => (∃ w, e = .word none w) ∨ (∃ g, e = .grammar none g) ∨
      ∃ v, Entry.foreign v ∈ entries ∧ v.isWritable = false ∧ e = .text .tooManyDigits)
      (relationTokens entries) := by
  unfold relationTokens
  refine FailsWith.bind ((Token.ofEntriesFrom_fails entries 0).mono ?_) fun ts _ => ?_
  · rintro e (hword | hvalue)
    · exact Or.inl hword
    · exact Or.inr (Or.inr hvalue)
  · split
    · exact .ok _
    · exact .error (Or.inr (Or.inl ⟨_, rfl⟩))

theorem exists_isValidRelation {entries : List Entry} (hknown : ∀ v, Entry.foreign v ∉ entries) :
    ∃ b, isValidRelation entries = .ok b ∧ (b = true ↔ ∃ ts, relationTokens entries = .ok ts) := by
  unfold isValidRelation
  cases hread : relationTokens entries with
  | ok ts => exact ⟨true, rfl, fun _ => ⟨ts, rfl⟩, fun _ => rfl⟩
  | error e =>
    have hno : (∃ b, Except.ok false = (.ok b : Except Fault Bool) ∧
        (b = true ↔ ∃ ts, Except.error e = (.ok ts : Except Fault (List Token)))) :=
      ⟨false, rfl, nofun, fun ⟨_, h⟩ => nomatch h⟩
    rcases relationTokens_fails entries e hread with ⟨w, rfl⟩ | ⟨g, rfl⟩ | ⟨v, hv, -⟩
    · exact hno
    · exact hno
    · exact absurd hv (hknown v)

end BalancedTeams
