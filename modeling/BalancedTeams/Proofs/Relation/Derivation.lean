import BalancedTeams.Proofs.Relation.Building

/-!
# Derivations that respect precedence

* `Binding`, `Derivation` : the grammar `Or → And | And OR Or`, `And → Not | Not AND And`,
  `Not → NOT Not | mention | ( Or )`, with the tokens at the leaves;
* `Derivation.formula`, `Derivation.truth` : what a derivation means, given what its mentions mean;
* `Derivation.Determined`, `Derivation.tokens_inj` : tokens have at most one derivation;
* `Derivation.exists_of_formExpr` : an expression has one;
* `Derivation.build_tokens` : the builder gives the formula of the derivation.
-/

namespace BalancedTeams

/-- How tightly an expression holds together. -/
inductive Binding where
  | disjunction
  | conjunction
  | factor
  deriving DecidableEq, Repr

inductive Derivation : Binding → Type
  | mention (t : Token) (ht : t.kind = .mention) : Derivation .factor
  | paren (o : Token) (ho : o.kind = .opening) (d : Derivation .disjunction) (c : Token)
      (hc : c.kind = .closing) : Derivation .factor
  | not (t : Token) (ht : t.kind = .not) (d : Derivation .factor) : Derivation .factor
  | single (d : Derivation .factor) : Derivation .conjunction
  | and (d : Derivation .factor) (t : Token) (ht : t.kind = .and) (e : Derivation .conjunction) :
      Derivation .conjunction
  | only (d : Derivation .conjunction) : Derivation .disjunction
  | or (d : Derivation .conjunction) (t : Token) (ht : t.kind = .or)
      (e : Derivation .disjunction) : Derivation .disjunction

namespace Derivation

open Token

def tokens {b : Binding} : Derivation b → List Token
  | mention t _ => [t]
  | paren o _ d c _ => o :: d.tokens ++ [c]
  | not t _ d => t :: d.tokens
  | single d => d.tokens
  | and d t _ e => d.tokens ++ t :: e.tokens
  | only d => d.tokens
  | or d t _ e => d.tokens ++ t :: e.tokens

def formula {b : Binding} (mentioned : Token → Formula) : Derivation b → Formula
  | mention t _ => mentioned t
  | paren _ _ d _ _ => d.formula mentioned
  | not _ _ d => .not (d.formula mentioned)
  | single d => d.formula mentioned
  | and d _ _ e => .and (d.formula mentioned) (e.formula mentioned)
  | only d => d.formula mentioned
  | or d _ _ e => .or (d.formula mentioned) (e.formula mentioned)

/-- The truth value of a derivation, given those of its mentions. -/
def truth {b : Binding} (holds : Token → Bool) : Derivation b → Bool
  | mention t _ => holds t
  | paren _ _ d _ _ => d.truth holds
  | not _ _ d => !d.truth holds
  | single d => d.truth holds
  | and d _ _ e => d.truth holds && e.truth holds
  | only d => d.truth holds
  | or d _ _ e => d.truth holds || e.truth holds

theorem eval_formula {b : Binding} (d : Derivation b) {members : Key → Bool}
    {mentioned : Token → Formula} {holds : Token → Bool}
    (h : ∀ t ∈ d.tokens, t.kind = .mention → (mentioned t).eval members = holds t) :
    (d.formula mentioned).eval members = d.truth holds := by
  induction d with
  | mention t ht => exact h t List.mem_cons_self ht
  | paren o _ d c _ ih =>
    exact ih fun t ht => h t (List.mem_append_left _ (List.mem_cons_of_mem _ ht))
  | not t _ d ih =>
    rw [formula, Formula.eval, truth, ih fun u hu => h u (List.mem_cons_of_mem _ hu)]
  | single d ih => exact ih h
  | only d ih => exact ih h
  | and d t _ e ihd ihe =>
    rw [formula, Formula.eval, truth, ihd fun u hu => h u (List.mem_append_left _ hu),
      ihe fun u hu => h u (List.mem_append_right _ (List.mem_cons_of_mem _ hu))]
  | or d t _ e ihd ihe =>
    rw [formula, Formula.eval, truth, ihd fun u hu => h u (List.mem_append_left _ hu),
      ihe fun u hu => h u (List.mem_append_right _ (List.mem_cons_of_mem _ hu))]

/-- What holds of the mentions and of what operators make of them holds of the formula. -/
theorem formula_induction {P : Formula → Prop} (hnot : ∀ {f}, P f → P (.not f))
    (hand : ∀ {f g}, P f → P g → P (.and f g)) (hor : ∀ {f g}, P f → P g → P (.or f g)) {b : Binding}
    (d : Derivation b) {mentioned : Token → Formula}
    (h : ∀ t ∈ d.tokens, t.kind = .mention → P (mentioned t)) : P (d.formula mentioned) := by
  induction d with
  | mention t ht => exact h t List.mem_cons_self ht
  | paren o _ d c _ ih =>
    exact ih fun t ht => h t (List.mem_append_left _ (List.mem_cons_of_mem _ ht))
  | not t _ d ih => exact hnot (ih fun u hu => h u (List.mem_cons_of_mem _ hu))
  | single d ih => exact ih h
  | only d ih => exact ih h
  | and d t _ e ihd ihe =>
    apply hand
    · exact ihd fun u hu => h u (List.mem_append_left _ hu)
    · exact ihe fun u hu => h u (List.mem_append_right _ (List.mem_cons_of_mem _ hu))
  | or d t _ e ihd ihe =>
    apply hor
    · exact ihd fun u hu => h u (List.mem_append_left _ hu)
    · exact ihe fun u hu => h u (List.mem_append_right _ (List.mem_cons_of_mem _ hu))

/-! ## At most one derivation -/

/-- What may come after an expression that ends there: nothing that would go on with it. -/
def Stops : Binding → List Token → Prop
  | .factor, _ => True
  | .conjunction, rest => ∀ t ∈ rest.head?, t.kind ≠ .and
  | .disjunction, rest => ∀ t ∈ rest.head?, t.kind ≠ .and ∧ t.kind ≠ .or

theorem stops_closing {c : Token} (hc : c.kind = .closing) (rest : List Token) :
    Stops .disjunction (c :: rest) := by
  rintro t ⟨⟩
  simp [hc]

theorem stops_or {t : Token} (ht : t.kind = .or) (rest : List Token) :
    Stops .conjunction (t :: rest) := by
  rintro u ⟨⟩
  simp [ht]

theorem Stops.conjunction {rest : List Token} (h : Stops .disjunction rest) :
    Stops .conjunction rest := fun t ht => (h t ht).1

/-- Another derivation that reads the same tokens, up to places where both may stop, is this one and stops
at the same place. -/
def Determined {b : Binding} (d : Derivation b) : Prop :=
  ∀ (e : Derivation b) (r s : List Token), Stops b r → Stops b s → d.tokens ++ r = e.tokens ++ s →
    d = e ∧ r = s

theorem determined_mention (t : Token) (ht : t.kind = .mention) : (mention t ht).Determined := by
  intro e r s hr hs h
  cases e with
  | mention u hu =>
    obtain ⟨rfl, hrs⟩ := List.cons.inj h
    exact ⟨rfl, hrs⟩
  | paren o ho e c hc => cases (List.cons.inj h).1; rw [ht] at ho; cases ho
  | not u hu e => cases (List.cons.inj h).1; rw [ht] at hu; cases hu

namespace Determined

theorem paren {d : Derivation .disjunction} (hd : d.Determined) {o c : Token} (ho : o.kind = .opening)
    (hc : c.kind = .closing) : (paren o ho d c hc).Determined := by
  intro e r s hr hs h
  cases e with
  | mention u hu => cases (List.cons.inj h).1; rw [ho] at hu; cases hu
  | not u hu e => cases (List.cons.inj h).1; rw [ho] at hu; cases hu
  | paren o' ho' e c' hc' =>
    simp only [tokens, List.cons_append, List.append_assoc, List.nil_append, List.cons.injEq] at h
    obtain ⟨rfl, hinner⟩ := h
    obtain ⟨rfl, hrest⟩ := hd e _ _ (stops_closing hc r) (stops_closing hc' s) hinner
    obtain ⟨rfl, hrs⟩ := List.cons.inj hrest
    exact ⟨rfl, hrs⟩

theorem not {d : Derivation .factor} (hd : d.Determined) {t : Token} (ht : t.kind = .not) :
    (not t ht d).Determined := by
  intro e r s hr hs h
  cases e with
  | mention u hu => cases (List.cons.inj h).1; rw [ht] at hu; cases hu
  | paren o ho e c hc => cases (List.cons.inj h).1; rw [ht] at ho; cases ho
  | not u hu e =>
    obtain ⟨rfl, hrest⟩ := List.cons.inj h
    obtain ⟨rfl, hrs⟩ := hd e _ _ trivial trivial hrest
    exact ⟨rfl, hrs⟩

theorem single {d : Derivation .factor} (hd : d.Determined) : (single d).Determined := by
  intro e r s hr hs h
  cases e with
  | single e =>
    obtain ⟨rfl, hrs⟩ := hd e _ _ trivial trivial h
    exact ⟨rfl, hrs⟩
  | and e u hu f =>
    rw [tokens, tokens, List.append_assoc] at h
    obtain ⟨-, rfl⟩ := hd e _ _ trivial trivial h
    exact absurd hu (hr u rfl)

theorem and {d : Derivation .factor} {e : Derivation .conjunction} (hd : d.Determined)
    (he : e.Determined) {t : Token} (ht : t.kind = .and) : (and d t ht e).Determined := by
  intro e' r s hr hs h
  cases e' with
  | single d' =>
    rw [tokens, tokens, List.append_assoc] at h
    obtain ⟨-, rfl⟩ := hd d' _ _ trivial trivial h
    exact absurd ht (hs t rfl)
  | and d' u hu e' =>
    rw [tokens, tokens, List.append_assoc, List.append_assoc] at h
    obtain ⟨rfl, hrest⟩ := hd d' _ _ trivial trivial h
    obtain ⟨rfl, hright⟩ := List.cons.inj hrest
    obtain ⟨rfl, hrs⟩ := he e' _ _ hr hs hright
    exact ⟨rfl, hrs⟩

theorem only {d : Derivation .conjunction} (hd : d.Determined) : (only d).Determined := by
  intro e r s hr hs h
  cases e with
  | only e =>
    obtain ⟨rfl, hrs⟩ := hd e _ _ hr.conjunction hs.conjunction h
    exact ⟨rfl, hrs⟩
  | or e u hu f =>
    rw [tokens, tokens, List.append_assoc] at h
    obtain ⟨-, rfl⟩ := hd e _ _ hr.conjunction (stops_or hu _) h
    exact absurd hu (hr u rfl).2

theorem or {d : Derivation .conjunction} {e : Derivation .disjunction} (hd : d.Determined)
    (he : e.Determined) {t : Token} (ht : t.kind = .or) : (or d t ht e).Determined := by
  intro e' r s hr hs h
  cases e' with
  | only d' =>
    rw [tokens, tokens, List.append_assoc] at h
    obtain ⟨-, rfl⟩ := hd d' _ _ (stops_or ht _) hs.conjunction h
    exact absurd ht (hs t rfl).2
  | or d' u hu e' =>
    rw [tokens, tokens, List.append_assoc, List.append_assoc] at h
    obtain ⟨rfl, hrest⟩ := hd d' _ _ (stops_or ht _) (stops_or hu _) h
    obtain ⟨rfl, hright⟩ := List.cons.inj hrest
    obtain ⟨rfl, hrs⟩ := he e' _ _ hr hs hright
    exact ⟨rfl, hrs⟩

end Determined

theorem determined {b : Binding} (d : Derivation b) : d.Determined := by
  induction d with
  | mention t ht => exact determined_mention t ht
  | paren o ho d c hc ih => exact ih.paren ho hc
  | not t ht d ih => exact ih.not ht
  | single d ih => exact ih.single
  | and d t ht e ihd ihe => exact ihd.and ihe ht
  | only d ih => exact ih.only
  | or d t ht e ihd ihe => exact ihd.or ihe ht

/-- The grammar is unambiguous. -/
theorem tokens_inj {b : Binding} {d e : Derivation b} (h : d.tokens = e.tokens) : d = e := by
  have hstops : Stops b [] := by cases b <;> simp [Stops]
  exact (d.determined e [] [] hstops hstops (congrArg (· ++ []) h)).1

/-! ## Every expression has a derivation -/

def negate {b : Binding} (t : Token) (ht : t.kind = .not) : Derivation b → Derivation b
  | .mention u hu => .not t ht (.mention u hu)
  | .paren o ho d c hc => .not t ht (.paren o ho d c hc)
  | .not u hu d => .not t ht (.not u hu d)
  | .single d => .single (d.negate t ht)
  | .and d u hu e => .and (d.negate t ht) u hu e
  | .only d => .only (d.negate t ht)
  | .or d u hu e => .or (d.negate t ht) u hu e

theorem tokens_negate {b : Binding} (t : Token) (ht : t.kind = .not) (d : Derivation b) :
    (d.negate t ht).tokens = t :: d.tokens := by
  induction d with
  | mention u hu => rfl
  | paren o ho d c hc => rfl
  | not u hu d => rfl
  | single d ih => exact ih
  | only d ih => exact ih
  | and d u hu e ihd ihe => rw [negate, tokens, ihd, List.cons_append, tokens]
  | or d u hu e ihd ihe => rw [negate, tokens, ihd, List.cons_append, tokens]

def conj (t : Token) (ht : t.kind = .and) (e : Derivation .conjunction) :
    Derivation .conjunction → Derivation .conjunction
  | .single d => .and d t ht e
  | .and d u hu f => .and d u hu (conj t ht e f)

theorem tokens_conj (t : Token) (ht : t.kind = .and) (d e : Derivation .conjunction) :
    (conj t ht e d).tokens = d.tokens ++ t :: e.tokens := by
  match d with
  | .single d => rw [conj]; rfl
  | .and d u hu f =>
    rw [conj, tokens, tokens_conj t ht f e, tokens, List.append_assoc, List.cons_append]

/-- `AND` between a conjunction and a disjunction binds the first of its parts only. -/
def andFirst (d : Derivation .conjunction) (t : Token) (ht : t.kind = .and) :
    Derivation .disjunction → Derivation .disjunction
  | .only e => .only (conj t ht e d)
  | .or e u hu f => .or (conj t ht e d) u hu f

theorem tokens_andFirst (d : Derivation .conjunction) (t : Token) (ht : t.kind = .and)
    (e : Derivation .disjunction) : (andFirst d t ht e).tokens = d.tokens ++ t :: e.tokens := by
  cases e with
  | only e => exact tokens_conj t ht d e
  | or e u hu f =>
    rw [andFirst, tokens, tokens_conj, tokens, List.append_assoc, List.cons_append]

/-- Two disjunctions with an operator between them. -/
def join (t : Token) (ht : t.kind = .and ∨ t.kind = .or) (e : Derivation .disjunction) :
    Derivation .disjunction → Derivation .disjunction
  | .only d => if h : t.kind = .and then andFirst d t h e else .or d t (ht.resolve_left h) e
  | .or d u hu f => .or d u hu (join t ht e f)

theorem tokens_join (t : Token) (ht : t.kind = .and ∨ t.kind = .or) (d e : Derivation .disjunction) :
    (join t ht e d).tokens = d.tokens ++ t :: e.tokens := by
  match d with
  | .only d =>
    rw [join]
    split
    · next h => exact tokens_andFirst d t h e
    · rfl
  | .or d u hu f =>
    rw [join, tokens, tokens_join t ht f e, tokens, List.append_assoc, List.cons_append]

theorem exists_of_formExpr {ts : List Token} (h : FormExpr ts) :
    ∃ d : Derivation .disjunction, d.tokens = ts := by
  induction h using FormExpr.induction with
  | mention t _ ht => exact ⟨.only (.single (.mention t ht)), rfl⟩
  | paren o ts c _ ho hc _ ih =>
    obtain ⟨d, rfl⟩ := ih
    exact ⟨.only (.single (.paren o ho d c hc)), rfl⟩
  | not t ts _ ht _ ih =>
    obtain ⟨d, rfl⟩ := ih
    exact ⟨d.negate t ht, tokens_negate t ht d⟩
  | binary ts t us _ ht _ _ iht ihu =>
    obtain ⟨d, rfl⟩ := iht
    obtain ⟨e, rfl⟩ := ihu
    exact ⟨join t ht e d, tokens_join t ht d e⟩

theorem formExpr {b : Binding} (d : Derivation b) : FormExpr d.tokens := by
  induction d with
  | mention t ht => exact show Expr [t.kind] from ht ▸ .mention
  | paren o ho d c hc ih => simpa [FormExpr, tokens, ho, hc] using Expr.paren ih
  | not t ht d ih => simpa [FormExpr, tokens, ht] using Expr.not ih
  | single d ih => exact ih
  | only d ih => exact ih
  | and d t ht e ihd ihe => simpa [FormExpr, tokens, ht] using Expr.and ihd ihe
  | or d t ht e ihd ihe => simpa [FormExpr, tokens, ht] using Expr.or ihd ihe

/-! ## What is built -/

/-- The operators that bind looser than an expression holds together. -/
def Looser (op : Kind) : Binding → Prop
  | .factor => op = .and ∨ op = .or
  | .conjunction => op = .or
  | .disjunction => False

theorem pieces_single {op : Kind} {t : Token} {d e : Int} {rest : List Token}
    (h : ¬ (t.kind = op ∧ d = 0)) (hd : depthAfter d t = e) (hrest : pieces op e rest = [rest]) :
    pieces op d (t :: rest) = [t :: rest] := by
  obtain ⟨p, ps, hp, hall⟩ := pieces_cons_of_not h rest
  rw [hd, hrest] at hp
  cases hp
  exact hall

/-- A looser operator does not split the tokens of a derivation. -/
theorem pieces_tokens {b : Binding} (d : Derivation b) {op : Kind} (hop : Looser op b) :
    pieces op 0 d.tokens = [d.tokens] := by
  induction d with
  | mention t ht =>
    have hne : t.kind ≠ op := by rcases hop with rfl | rfl <;> simp [ht]
    exact pieces_single (fun h => hne h.1) rfl rfl
  | paren o ho d c hc ih =>
    have hne : o.kind ≠ op := by rcases hop with rfl | rfl <;> simp [ho]
    have hclose : pieces op 1 [c] = [[c]] := pieces_single (by simp) rfl rfl
    have hinner : pieces op 1 (d.tokens ++ [c]) = [d.tokens ++ [c]] := by
      rw [pieces_append, d.formExpr.depthOver_eq, d.formExpr.pieces_of_pos op Int.one_pos, hclose]
      rfl
    exact pieces_single (fun h => hne h.1) (depthAfter_opening ho 0) hinner
  | not t ht d ih =>
    have hne : t.kind ≠ op := by rcases hop with rfl | rfl <;> simp [ht]
    exact pieces_single (fun h => hne h.1) (depthAfter_of_ne (by simp [ht]) (by simp [ht]) 0)
      (ih hop)
  | single d ih => exact ih (Or.inr hop)
  | and d t ht e ihd ihe =>
    have hne : t.kind ≠ op := by rw [show op = .or from hop, ht]; decide
    have hright : pieces op 0 (t :: e.tokens) = [t :: e.tokens] :=
      pieces_single (fun h => hne h.1) (depthAfter_operator (Or.inl ht) 0) (ihe hop)
    rw [tokens, pieces_append, d.formExpr.depthOver_eq, ihd (Or.inr hop), hright]
    rfl
  | only d ih => exact hop.elim
  | or d t ht e ihd ihe => exact hop.elim

/-- Where the operator of a chain stands between two derivations, the first is a piece. -/
theorem pieces_tokens_append {b : Binding} (d : Derivation b) {t : Token} (hop : Looser t.kind b)
    (ht : t.kind = .and ∨ t.kind = .or) (us : List Token) :
    pieces t.kind 0 (d.tokens ++ t :: us) = d.tokens :: pieces t.kind 0 us := by
  rw [pieces_append, d.formExpr.depthOver_eq, d.pieces_tokens hop, pieces_cons_of_split rfl,
    depthAfter_operator ht]
  simp [glue]

theorem pieces_eq_singleton {op : Kind} {depth : Int} {ts : List Token}
    (h : ¬ 1 < (pieces op depth ts).length) : pieces op depth ts = [ts] := by
  induction ts generalizing depth with
  | nil => rfl
  | cons t rest ih =>
    by_cases hsplit : t.kind = op ∧ depth = 0
    · obtain ⟨hk, rfl⟩ := hsplit
      have hpos := List.length_pos_iff.2 (pieces_ne_nil op (depthAfter 0 t) rest)
      rw [pieces_cons_of_split hk, List.length_cons] at h
      omega
    · obtain ⟨p, ps, hrest, hall⟩ := pieces_cons_of_not hsplit rest
      rw [hall] at h
      exact pieces_single hsplit rfl (ih (by rw [hrest]; exact h))

variable {ctx : Context}

/-- Tokens are built from their pieces at an operator, even where there is one piece only. -/
theorem build_eq_pieces {ts : List Token} {op : Kind} (hop : op = .and ∨ op = .or)
    (hor : op = .and → pieces .or 0 ts = [ts]) :
    ctx.build ts = (pieces op 0 ts).reverse.mapM ctx.build >>= Context.joinAll op := by
  by_cases h : 1 < (pieces op 0 ts).length
  · refine Context.build_of_chain? ?_
    rcases hop with rfl | rfl
    · simp [chain?, hor rfl, h]
    · simp [chain?, h]
  · rw [pieces_eq_singleton h, List.reverse_singleton, List.mapM_cons, List.mapM_nil]
    cases ctx.build ts <;> rfl

/-- The right side of an operator is built first, and then the left side. -/
theorem build_join {b : Binding} (d : Derivation b) {t : Token} {us : List Token} {f g : Formula}
    (hop : Looser t.kind b) (ht : t.kind = .and ∨ t.kind = .or)
    (hor : t.kind = .and → pieces .or 0 us = [us] ∧
      pieces .or 0 (d.tokens ++ t :: us) = [d.tokens ++ t :: us])
    (hd : ctx.build d.tokens = .ok f) (hus : ctx.build us = .ok g) :
    ctx.build (d.tokens ++ t :: us) = .ok (Context.join t.kind f g) := by
  rw [build_eq_pieces ht fun h => (hor h).1] at hus
  obtain ⟨gs, hgs, hjoin⟩ := bind_eq_ok_iff.1 hus
  have hall : (d.tokens :: pieces t.kind 0 us).reverse.mapM ctx.build = .ok (gs ++ [f]) := by
    rw [List.reverse_cons, List.mapM_append, hgs, List.mapM_cons, List.mapM_nil, hd]
    rfl
  rw [build_eq_pieces ht fun h => (hor h).2, d.pieces_tokens_append hop ht, hall]
  cases gs with
  | nil => cases hjoin
  | cons last before =>
    cases hjoin
    show Context.joinAll t.kind (last :: (before ++ [f])) = _
    rw [Context.joinAll, List.foldl_append]
    rfl

/-- **The builder gives the formula of the derivation**, if the mentions resolve. -/
theorem build_tokens {b : Binding} (d : Derivation b) {mentioned : Token → Formula}
    (h : ∀ t ∈ d.tokens, t.kind = .mention → ctx.operand t = .ok (mentioned t)) :
    ctx.build d.tokens = .ok (d.formula mentioned) := by
  have hchain : ∀ e : Derivation .factor, chain? e.tokens = none := by
    intro e
    have hors : pieces .or 0 e.tokens = [e.tokens] := e.pieces_tokens (Or.inr rfl)
    have hands : pieces .and 0 e.tokens = [e.tokens] := e.pieces_tokens (Or.inl rfl)
    simp [chain?, hors, hands]
  induction d with
  | mention t ht =>
    rw [tokens, Context.build_single (hchain (.mention t ht)) (by simp [ht]) rfl, if_pos ⟨rfl, ht⟩]
    exact h t List.mem_cons_self ht
  | paren o ho d c hc ih =>
    have hopen : staysOpen 1 d.tokens = true := by
      simpa [staysOpen] using d.formExpr.staysOpen_append Int.one_pos []
    refine (Context.build_of_unwrap? (hchain (.paren o ho d c hc))
      (unwrap?_wrapped ho hc hopen)).trans ?_
    exact ih fun t ht => h t (List.mem_append_left _ (List.mem_cons_of_mem _ ht))
  | not t ht d ih =>
    rw [tokens, Context.build_not (hchain (.not t ht d)) ht,
      ih fun u hu => h u (List.mem_cons_of_mem _ hu)]
    rfl
  | single d ih => exact ih h
  | only d ih => exact ih h
  | and d t ht e ihd ihe =>
    have hd := ihd fun u hu => h u (List.mem_append_left _ hu)
    have he := ihe fun u hu => h u (List.mem_append_right _ (List.mem_cons_of_mem _ hu))
    rw [tokens, d.build_join (Or.inl ht) (Or.inl ht) ?_ hd he, ht]
    · rfl
    · exact fun _ => ⟨e.pieces_tokens rfl, (and d t ht e).pieces_tokens rfl⟩
  | or d t ht e ihd ihe =>
    have hd := ihd fun u hu => h u (List.mem_append_left _ hu)
    have he := ihe fun u hu => h u (List.mem_append_right _ (List.mem_cons_of_mem _ hu))
    rw [tokens, d.build_join ht (Or.inr ht) (fun hand => by rw [ht] at hand; cases hand) hd he, ht]
    rfl

end Derivation
end BalancedTeams
