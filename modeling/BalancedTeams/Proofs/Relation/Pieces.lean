import BalancedTeams.Formula.Build

/-!
# Splitting tokens outside parentheses

* `Token.glue` : two lists of pieces, the last piece of the first joined to the first of the second;
* `Token.pieces_append` : the pieces of tokens one after the other;
* `Kind.join` : lists of kinds with an operator between them; the kinds of tokens are those of their
  pieces, joined (`Token.join_pieces`);
* `FormExpr.depthOver_eq`, `FormExpr.pieces_of_pos`, `FormExpr.staysOpen_append` : an expression closes what
  it opens, so nothing splits it at a positive depth;
* `FormExpr.of_mem_pieces` : the pieces of an expression are expressions.
-/

namespace BalancedTeams

namespace Kind

def join (op : Kind) : List (List Kind) → List Kind
  | [] => []
  | [p] => p
  | p :: ps => p ++ op :: join op ps

theorem join_cons {p : List Kind} {ps : List (List Kind)} (op : Kind) (h : ps ≠ []) :
    join op (p :: ps) = p ++ op :: join op ps := by
  cases ps with
  | nil => exact absurd rfl h
  | cons p' ps => rfl

end Kind

namespace Token

/-! ## Pieces of concatenations -/

def depthOver (depth : Int) (ts : List Token) : Int := ts.foldl depthAfter depth

def glue : List (List Token) → List (List Token) → List (List Token)
  | [p], q :: qs => (p ++ q) :: qs
  | p :: ps, qs => p :: glue ps qs
  | [], qs => qs

theorem glue_cons {p : List Token} {ps : List (List Token)} (h : ps ≠ [])
    (qs : List (List Token)) : glue (p :: ps) qs = p :: glue ps qs := by
  cases ps with
  | nil => exact absurd rfl h
  | cons p' ps => rfl

theorem length_glue {ps qs : List (List Token)} (hp : ps ≠ []) (hq : qs ≠ []) :
    (glue ps qs).length + 1 = ps.length + qs.length := by
  obtain ⟨q, qs, rfl⟩ := List.exists_cons_of_ne_nil hq
  induction ps with
  | nil => exact absurd rfl hp
  | cons p ps ih =>
    by_cases h : ps = []
    · subst h
      simp only [glue, List.length_cons, List.length_nil]
      omega
    · rw [glue_cons h, List.length_cons, List.length_cons, ih h]
      omega

/-- A piece of the whole is a piece of one part, or begins in the first and ends in the second. -/
theorem mem_glue {x : List Token} {ps qs : List (List Token)} {q : List Token}
    (h : x ∈ glue ps (q :: qs)) (hp : ps ≠ []) : x ∈ ps ∨ x ∈ qs ∨ ∃ p ∈ ps, x = p ++ q := by
  induction ps with
  | nil => exact absurd rfl hp
  | cons p ps ih =>
    by_cases hps : ps = []
    · subst hps
      rcases List.mem_cons.1 h with rfl | h
      · exact Or.inr (Or.inr ⟨p, List.mem_cons_self, rfl⟩)
      · exact Or.inr (Or.inl h)
    · rw [glue_cons hps] at h
      rcases List.mem_cons.1 h with rfl | h
      · exact Or.inl List.mem_cons_self
      · rcases ih h hps with h | h | ⟨p', hp', rfl⟩
        · exact Or.inl (List.mem_cons_of_mem _ h)
        · exact Or.inr (Or.inl h)
        · exact Or.inr (Or.inr ⟨p', List.mem_cons_of_mem _ hp', rfl⟩)

theorem pieces_ne_nil (op : Kind) (depth : Int) (ts : List Token) : pieces op depth ts ≠ [] := by
  cases ts with
  | nil => simp [pieces]
  | cons t rest =>
    simp only [pieces]
    split
    · simp
    · split <;> simp

/-- The pieces from a token on that is no splitting point. -/
theorem pieces_cons_of_not {op : Kind} {depth : Int} {t : Token} (h : ¬ (t.kind = op ∧ depth = 0))
    (rest : List Token) :
    ∃ p ps, pieces op (depthAfter depth t) rest = p :: ps ∧
      pieces op depth (t :: rest) = (t :: p) :: ps := by
  obtain ⟨p, ps, hps⟩ := List.exists_cons_of_ne_nil (pieces_ne_nil op (depthAfter depth t) rest)
  refine ⟨p, ps, hps, ?_⟩
  simp only [pieces, if_neg h, hps]

theorem pieces_cons_of_split {op : Kind} {t : Token} (h : t.kind = op) (rest : List Token) :
    pieces op 0 (t :: rest) = [] :: pieces op (depthAfter 0 t) rest := by
  simp only [pieces, h, and_self, if_true]

theorem pieces_append (op : Kind) (depth : Int) (ts us : List Token) :
    pieces op depth (ts ++ us) = glue (pieces op depth ts) (pieces op (depthOver depth ts) us) := by
  induction ts generalizing depth with
  | nil =>
    obtain ⟨q, qs, hq⟩ := List.exists_cons_of_ne_nil (pieces_ne_nil op depth us)
    simp only [List.nil_append, depthOver, List.foldl_nil, hq, pieces, glue]
  | cons t rest ih =>
    have ih := ih (depthAfter depth t)
    by_cases h : t.kind = op ∧ depth = 0
    · obtain ⟨hk, rfl⟩ := h
      rw [List.cons_append, pieces_cons_of_split hk, pieces_cons_of_split hk, ih,
        glue_cons (pieces_ne_nil _ _ _)]
      rfl
    · obtain ⟨p, ps, hrest, hcons⟩ := pieces_cons_of_not h rest
      obtain ⟨q, qs, happ, hall⟩ := pieces_cons_of_not h (rest ++ us)
      obtain ⟨r, rs, hr⟩ := List.exists_cons_of_ne_nil
        (pieces_ne_nil op (depthOver (depthAfter depth t) rest) us)
      have hover : depthOver depth (t :: rest) = depthOver (depthAfter depth t) rest := rfl
      rw [hrest, happ, hr] at ih
      rw [List.cons_append, hall, hcons, hover, hr]
      by_cases hps : ps = []
      · subst hps
        simp only [glue, List.cons.injEq] at ih ⊢
        exact ⟨by rw [ih.1, List.cons_append], ih.2⟩
      · rw [glue_cons hps] at ih ⊢
        obtain ⟨hq, hqs⟩ := List.cons.inj ih
        rw [hq, hqs]

theorem join_pieces (op : Kind) (depth : Int) (ts : List Token) :
    Kind.join op ((pieces op depth ts).map (List.map Token.kind)) = ts.map Token.kind := by
  induction ts generalizing depth with
  | nil => rfl
  | cons t rest ih =>
    have ih := ih (depthAfter depth t)
    by_cases h : t.kind = op ∧ depth = 0
    · obtain ⟨hk, rfl⟩ := h
      rw [pieces_cons_of_split hk, List.map_cons,
        Kind.join_cons op (by simpa using pieces_ne_nil op (depthAfter 0 t) rest), ih, hk.symm]
      rfl
    · obtain ⟨p, ps, hrest, hcons⟩ := pieces_cons_of_not h rest
      rw [hrest, List.map_cons] at ih
      rw [hcons, List.map_cons, List.map_cons, List.map_cons]
      by_cases hps : ps = []
      · subst hps
        simpa [Kind.join] using ih
      · have hps' : ps.map (List.map Token.kind) ≠ [] := by simpa using hps
        rw [Kind.join_cons op hps'] at ih ⊢
        rw [List.cons_append, ih]

theorem mem_of_mem_pieces {op : Kind} {depth : Int} {ts p : List Token} {t : Token}
    (hp : p ∈ pieces op depth ts) (ht : t ∈ p) : t ∈ ts := by
  induction ts generalizing depth p with
  | nil =>
    rw [pieces, List.mem_singleton] at hp
    exact hp ▸ ht
  | cons u rest ih =>
    by_cases h : u.kind = op ∧ depth = 0
    · obtain ⟨hk, rfl⟩ := h
      rw [pieces_cons_of_split hk] at hp
      rcases List.mem_cons.1 hp with rfl | hp
      · cases ht
      · exact List.mem_cons_of_mem _ (ih hp ht)
    · obtain ⟨q, qs, hrest, hall⟩ := pieces_cons_of_not h rest
      rw [hall] at hp
      rcases List.mem_cons.1 hp with rfl | hp
      · rcases List.mem_cons.1 ht with rfl | ht
        · exact List.mem_cons_self
        · exact List.mem_cons_of_mem _ (ih (hrest ▸ List.mem_cons_self) ht)
      · exact List.mem_cons_of_mem _ (ih (hrest ▸ List.mem_cons_of_mem _ hp) ht)

theorem exists_mem_pieces {op : Kind} {ts : List Token} {t : Token} (ht : t ∈ ts) (hop : t.kind ≠ op)
    (depth : Int) : ∃ p ∈ pieces op depth ts, t ∈ p := by
  induction ts generalizing depth with
  | nil => cases ht
  | cons u rest ih =>
    by_cases h : u.kind = op ∧ depth = 0
    · obtain ⟨hk, rfl⟩ := h
      rw [pieces_cons_of_split hk]
      rcases List.mem_cons.1 ht with rfl | ht
      · exact absurd hk hop
      · obtain ⟨p, hp, htp⟩ := ih ht (depthAfter 0 u)
        exact ⟨p, List.mem_cons_of_mem _ hp, htp⟩
    · obtain ⟨q, qs, hrest, hall⟩ := pieces_cons_of_not h rest
      rw [hall]
      rcases List.mem_cons.1 ht with rfl | ht
      · exact ⟨t :: q, List.mem_cons_self, List.mem_cons_self⟩
      · obtain ⟨p, hp, htp⟩ := ih ht (depthAfter depth u)
        rw [hrest] at hp
        rcases List.mem_cons.1 hp with rfl | hp
        · exact ⟨u :: p, List.mem_cons_self, List.mem_cons_of_mem _ htp⟩
        · exact ⟨p, List.mem_cons_of_mem _ hp, htp⟩

end Token

/-! ## Expressions -/

section
open Token

/-- The lists of tokens whose kinds are an expression. -/
def Token.FormExpr (ts : List Token) : Prop := Expr (ts.map Token.kind)

namespace Token

/-- Induction on the grammar, with tokens for kinds. -/
theorem FormExpr.induction {P : ∀ ts : List Token, FormExpr ts → Prop}
    (mention : ∀ t h, t.kind = .mention → P [t] h)
    (paren : ∀ o ts c h, o.kind = .opening → c.kind = .closing → ∀ hts, P ts hts →
      P (o :: ts ++ [c]) h)
    (not : ∀ t ts h, t.kind = .not → ∀ hts, P ts hts → P (t :: ts) h)
    (binary : ∀ ts t us h, t.kind = .and ∨ t.kind = .or → ∀ hts hus, P ts hts → P us hus →
      P (ts ++ t :: us) h)
    {ts : List Token} (h : FormExpr ts) : P ts h := by
  obtain ⟨ks, hks⟩ : ∃ ks, ts.map Token.kind = ks := ⟨_, rfl⟩
  have hexpr : Expr ks := hks ▸ h
  induction hexpr generalizing ts with
  | mention =>
    obtain ⟨t, rfl, ht⟩ := List.map_eq_singleton_iff.1 hks
    exact mention t _ ht
  | @paren ks hinner ih =>
    obtain ⟨o, rest, rfl, ho, hrest⟩ := List.map_eq_cons_iff.1 hks
    obtain ⟨inner, last, rfl, hk, hlast⟩ := List.map_eq_append_iff.1 hrest
    obtain ⟨c, rfl, hc⟩ := List.map_eq_singleton_iff.1 hlast
    subst hk
    exact paren o inner c _ ho hc hinner (ih _ rfl)
  | @not ks hinner ih =>
    obtain ⟨t, rest, rfl, ht, hk⟩ := List.map_eq_cons_iff.1 hks
    subst hk
    exact not t rest _ ht hinner (ih _ rfl)
  | @and ks ls hk hl ihk ihl =>
    obtain ⟨ts, rest, rfl, h1, hrest⟩ := List.map_eq_append_iff.1 hks
    obtain ⟨t, us, rfl, ht, h2⟩ := List.map_eq_cons_iff.1 hrest
    subst h1 h2
    exact binary ts t us _ (Or.inl ht) hk hl (ihk _ rfl) (ihl _ rfl)
  | @or ks ls hk hl ihk ihl =>
    obtain ⟨ts, rest, rfl, h1, hrest⟩ := List.map_eq_append_iff.1 hks
    obtain ⟨t, us, rfl, ht, h2⟩ := List.map_eq_cons_iff.1 hrest
    subst h1 h2
    exact binary ts t us _ (Or.inr ht) hk hl (ihk _ rfl) (ihl _ rfl)

theorem depthAfter_opening {t : Token} (h : t.kind = .opening) (d : Int) :
    depthAfter d t = d + 1 := by simp [depthAfter, h]

theorem depthAfter_closing {t : Token} (h : t.kind = .closing) (d : Int) :
    depthAfter d t = d - 1 := by simp [depthAfter, h]

theorem depthAfter_of_ne {t : Token} (ho : t.kind ≠ .opening) (hc : t.kind ≠ .closing) (d : Int) :
    depthAfter d t = d := by simp [depthAfter, ho, hc]

theorem depthAfter_operator {t : Token} (h : t.kind = .and ∨ t.kind = .or) (d : Int) :
    depthAfter d t = d := by
  apply depthAfter_of_ne <;> rcases h with h | h <;> simp [h]

theorem depthOver_append (d : Int) (ts us : List Token) :
    depthOver d (ts ++ us) = depthOver (depthOver d ts) us := List.foldl_append

theorem depthOver_cons (d : Int) (t : Token) (ts : List Token) :
    depthOver d (t :: ts) = depthOver (depthAfter d t) ts := rfl

theorem FormExpr.depthOver_eq {ts : List Token} (h : FormExpr ts) (d : Int) :
    depthOver d ts = d := by
  induction h using FormExpr.induction generalizing d with
  | mention t _ ht =>
    rw [depthOver_cons, depthAfter_of_ne (by simp [ht]) (by simp [ht])]
    rfl
  | paren o ts c _ ho hc _ ih =>
    rw [List.cons_append, depthOver_cons, depthAfter_opening ho, depthOver_append, ih,
      depthOver_cons, depthAfter_closing hc, Int.add_sub_cancel]
    rfl
  | not t ts _ ht _ ih => rw [depthOver_cons, depthAfter_of_ne (by simp [ht]) (by simp [ht]), ih]
  | binary ts t us _ ht _ _ iht ihu =>
    rw [depthOver_append, iht, depthOver_cons, depthAfter_operator ht, ihu]

/-- Parentheses hold a part together that is not split inside them. -/
theorem pieces_paren {op : Kind} {d : Int} {o c : Token} {ts : List Token} (ho : o.kind = .opening)
    (hd : 0 ≤ d) (hsplit : ¬ (o.kind = op ∧ d = 0))
    (hdepth : depthOver (d + 1) ts = d + 1) (hts : pieces op (d + 1) ts = [ts]) :
    pieces op d (o :: ts ++ [c]) = [o :: ts ++ [c]] := by
  have hinside : ¬ (c.kind = op ∧ d + 1 = 0) := by
    rintro ⟨-, h⟩
    omega
  obtain ⟨p, ps, hrest, hall⟩ := pieces_cons_of_not hsplit (ts ++ [c])
  obtain ⟨q, qs, hlast, hclose⟩ := pieces_cons_of_not hinside []
  cases hlast
  rw [depthAfter_opening ho, pieces_append, hdepth, hts, hclose] at hrest
  cases hrest
  exact hall

theorem FormExpr.pieces_of_pos {ts : List Token} (h : FormExpr ts) (op : Kind) {d : Int}
    (hd : 0 < d) : pieces op d ts = [ts] := by
  have hsplit : ∀ (e : Int) (t : Token), 0 < e → ¬ (t.kind = op ∧ e = 0) := by
    intro e t he hsplit
    omega
  induction h using FormExpr.induction generalizing d with
  | mention t _ ht =>
    obtain ⟨p, ps, hrest, hall⟩ := pieces_cons_of_not (hsplit d t hd) []
    cases hrest
    exact hall
  | paren o ts c _ ho hc hts ih =>
    exact pieces_paren ho (by omega) (hsplit d o hd) (hts.depthOver_eq _) (ih (by omega))
  | not t ts _ ht hts ih =>
    obtain ⟨p, ps, hrest, hall⟩ := pieces_cons_of_not (hsplit d t hd) ts
    rw [depthAfter_of_ne (by simp [ht]) (by simp [ht]), ih hd] at hrest
    cases hrest
    exact hall
  | binary ts t us _ ht hts hus iht ihu =>
    obtain ⟨p, ps, hrest, hall⟩ := pieces_cons_of_not (hsplit d t hd) us
    rw [depthAfter_operator ht, ihu hd] at hrest
    cases hrest
    rw [pieces_append, hts.depthOver_eq, iht hd, hall]
    rfl

/-- Parentheses around an expression stay open over it. -/
theorem FormExpr.staysOpen_append {ts : List Token} (h : FormExpr ts) {d : Int} (hd : 0 < d)
    (rest : List Token) : staysOpen d (ts ++ rest) = staysOpen d rest := by
  have hcons : ∀ (e : Int) (t : Token) (us : List Token), t.kind ≠ .closing →
      staysOpen e (t :: us) = staysOpen (depthAfter e t) us := by
    intro e t us ht
    simp [staysOpen, ht]
  induction h using FormExpr.induction generalizing d rest with
  | mention t _ ht =>
    rw [List.singleton_append, hcons d t rest (by simp [ht]),
      depthAfter_of_ne (by simp [ht]) (by simp [ht])]
  | paren o ts c _ ho hc hts ih =>
    have hclose : staysOpen (d + 1) (c :: rest) = staysOpen d rest := by
      have hne : d ≠ 0 := by omega
      simp [staysOpen, depthAfter_closing hc, hne]
    rw [List.cons_append, List.cons_append, List.append_assoc, hcons d o _ (by simp [ho]),
      depthAfter_opening ho, ih (by omega), List.singleton_append, hclose]
  | not t ts _ ht hts ih =>
    rw [List.cons_append, hcons d t _ (by simp [ht]),
      depthAfter_of_ne (by simp [ht]) (by simp [ht]), ih hd]
  | binary ts t us _ ht hts hus iht ihu =>
    have hne : t.kind ≠ .closing := by rcases ht with h | h <;> simp [h]
    rw [List.append_assoc, iht hd, List.cons_append, hcons d t _ hne, depthAfter_operator ht,
      ihu hd]

/-- The pieces of an expression between its outer operators of one kind are expressions. An operator of the
other kind keeps the last piece on its left and the first one on its right together. -/
theorem FormExpr.of_mem_pieces {ts : List Token} (h : FormExpr ts) {op : Kind}
    (hop : op = .and ∨ op = .or) {p : List Token} (hp : p ∈ pieces op 0 ts) : FormExpr p := by
  induction h using FormExpr.induction generalizing p with
  | mention t _ ht =>
    have hne : ¬ (t.kind = op ∧ (0 : Int) = 0) := by rcases hop with h | h <;> simp [ht, h]
    obtain ⟨q, qs, hrest, hall⟩ := pieces_cons_of_not hne []
    cases hrest
    rw [hall, List.mem_singleton] at hp
    subst hp
    exact show Expr [t.kind] from ht ▸ .mention
  | paren o ts c _ ho hc hts ih =>
    have hne : ¬ (o.kind = op ∧ (0 : Int) = 0) := by rcases hop with h | h <;> simp [ho, h]
    have hinside : pieces op (0 + 1) ts = [ts] := hts.pieces_of_pos op (by omega)
    rw [pieces_paren ho (Int.le_refl 0) hne (hts.depthOver_eq _) hinside, List.mem_singleton] at hp
    subst hp
    simpa [FormExpr, ho, hc] using Expr.paren hts
  | not t ts _ ht hts ih =>
    have hne : ¬ (t.kind = op ∧ (0 : Int) = 0) := by rcases hop with h | h <;> simp [ht, h]
    obtain ⟨q, qs, hrest, hall⟩ := pieces_cons_of_not hne ts
    rw [depthAfter_of_ne (by simp [ht]) (by simp [ht])] at hrest
    rw [hall] at hp
    rcases List.mem_cons.1 hp with rfl | hp
    · have hq : FormExpr q := ih (hrest ▸ List.mem_cons_self)
      simpa [FormExpr, ht] using Expr.not hq
    · exact ih (hrest ▸ List.mem_cons_of_mem _ hp)
  | binary ts t us _ ht hts hus iht ihu =>
    have hjoin : ∀ a b : List Token, FormExpr a → FormExpr b → FormExpr (a ++ t :: b) := by
      intro a b ha hb
      rcases ht with ht | ht
      · simpa [FormExpr, ht] using Expr.and ha hb
      · simpa [FormExpr, ht] using Expr.or ha hb
    rw [pieces_append, hts.depthOver_eq] at hp
    by_cases hk : t.kind = op
    · rw [pieces_cons_of_split hk, depthAfter_operator ht] at hp
      rcases mem_glue hp (pieces_ne_nil _ _ _) with hp | hp | ⟨a, ha, rfl⟩
      · exact iht hp
      · exact ihu hp
      · rw [List.append_nil]
        exact iht ha
    · obtain ⟨q, qs, hrest, hall⟩ := pieces_cons_of_not (fun h => hk h.1) us
      rw [depthAfter_operator ht] at hrest
      rw [hall] at hp
      rcases mem_glue hp (pieces_ne_nil _ _ _) with hp | hp | ⟨a, ha, rfl⟩
      · exact iht hp
      · exact ihu (hrest ▸ List.mem_cons_of_mem _ hp)
      · exact hjoin a q (iht ha) (ihu (hrest ▸ List.mem_cons_self))

/-- An operator outside parentheses splits the tokens. -/
theorem FormExpr.one_lt_length_pieces {ts us : List Token} {t : Token} (hts : FormExpr ts) :
    1 < (pieces t.kind 0 (ts ++ t :: us)).length := by
  have hlen := length_glue (pieces_ne_nil t.kind 0 ts) (pieces_ne_nil t.kind 0 (t :: us))
  have hfirst := List.length_pos_iff.2 (pieces_ne_nil t.kind 0 ts)
  have hsecond := List.length_pos_iff.2 (pieces_ne_nil t.kind (depthAfter 0 t) us)
  rw [pieces_append, hts.depthOver_eq]
  rw [pieces_cons_of_split rfl, List.length_cons] at hlen
  rw [pieces_cons_of_split rfl]
  omega

end Token
end
end BalancedTeams
