import BalancedTeams.Proofs.Formula.Mentions
import BalancedTeams.Proofs.Relation.Derivation

/-!
# The tree of a relation is its precedence tree

* `Derivation.Occurs` : where a part of an expression stands in it, and the tokens around it;
* `Derivation.Occurs.exists_replaced` : a part may be replaced by one with the same formula;
* `Derivation.exists_enclosed` : a pair of parentheses around a part leaves the formula as it is;
* `Derivation.exists_chain` : a chain of one operator nests to the right;
* `Context.build_precedence` : what the validator accepts has one derivation, and the builder gives
  the formula of it.
-/

namespace BalancedTeams

namespace Derivation

variable {b c : Binding}

/-! ## Parts of an expression -/

/-- The first derivation is a part of the last one, between these tokens. -/
inductive Occurs (s : Derivation b) : {c : Binding} → List Token → List Token → Derivation c → Prop
  | self : Occurs s [] [] s
  | paren {before after : List Token} {d : Derivation .disjunction} (o : Token) (ho : o.kind = .opening)
      (c : Token) (hc : c.kind = .closing) (h : Occurs s before after d) :
      Occurs s (o :: before) (after ++ [c]) (.paren o ho d c hc)
  | not {before after : List Token} {d : Derivation .factor} (t : Token) (ht : t.kind = .not)
      (h : Occurs s before after d) : Occurs s (t :: before) after (.not t ht d)
  | single {before after : List Token} {d : Derivation .factor} (h : Occurs s before after d) :
      Occurs s before after (.single d)
  | andLeft {before after : List Token} {d : Derivation .factor} (t : Token) (ht : t.kind = .and)
      (e : Derivation .conjunction) (h : Occurs s before after d) :
      Occurs s before (after ++ t :: e.tokens) (.and d t ht e)
  | andRight {before after : List Token} (d : Derivation .factor) (t : Token) (ht : t.kind = .and)
      {e : Derivation .conjunction} (h : Occurs s before after e) :
      Occurs s (d.tokens ++ t :: before) after (.and d t ht e)
  | only {before after : List Token} {d : Derivation .conjunction} (h : Occurs s before after d) :
      Occurs s before after (.only d)
  | orLeft {before after : List Token} {d : Derivation .conjunction} (t : Token) (ht : t.kind = .or)
      (e : Derivation .disjunction) (h : Occurs s before after d) :
      Occurs s before (after ++ t :: e.tokens) (.or d t ht e)
  | orRight {before after : List Token} (d : Derivation .conjunction) (t : Token) (ht : t.kind = .or)
      {e : Derivation .disjunction} (h : Occurs s before after e) :
      Occurs s (d.tokens ++ t :: before) after (.or d t ht e)

variable {s : Derivation b} {d : Derivation c} {before after : List Token}

theorem Occurs.tokens_eq (h : Occurs s before after d) :
    d.tokens = before ++ s.tokens ++ after := by
  induction h with
  | self => simp
  | paren o _ c _ _ ih => simp [tokens, ih]
  | not t _ _ ih => simp [tokens, ih]
  | single _ ih => exact ih
  | andLeft t _ e _ ih => simp [tokens, ih]
  | andRight d t _ _ ih => simp [tokens, ih]
  | only _ ih => exact ih
  | orLeft t _ e _ ih => simp [tokens, ih]
  | orRight d t _ _ ih => simp [tokens, ih]

/-- A part with the same formula may stand in place of a part. -/
theorem Occurs.exists_replaced (h : Occurs s before after d) {s' : Derivation b}
    (hsame : ∀ mentioned, s'.formula mentioned = s.formula mentioned) :
    ∃ d' : Derivation c, d'.tokens = before ++ s'.tokens ++ after ∧
      ∀ mentioned, d'.formula mentioned = d.formula mentioned := by
  induction h with
  | self => exact ⟨s', by simp, hsame⟩
  | paren o ho e he _ ih =>
    obtain ⟨d', htokens, hformula⟩ := ih
    exact ⟨.paren o ho d' e he, by simp [tokens, htokens], hformula⟩
  | not t ht _ ih =>
    obtain ⟨d', htokens, hformula⟩ := ih
    refine ⟨.not t ht d', by simp [tokens, htokens], fun mentioned => ?_⟩
    rw [formula, formula, hformula]
  | single _ ih =>
    obtain ⟨d', htokens, hformula⟩ := ih
    exact ⟨.single d', htokens, hformula⟩
  | andLeft t ht r _ ih =>
    obtain ⟨d', htokens, hformula⟩ := ih
    refine ⟨.and d' t ht r, by simp [tokens, htokens], fun mentioned => ?_⟩
    rw [formula, formula, hformula]
  | andRight l t ht _ ih =>
    obtain ⟨d', htokens, hformula⟩ := ih
    refine ⟨.and l t ht d', by simp [tokens, htokens], fun mentioned => ?_⟩
    rw [formula, formula, hformula]
  | only _ ih =>
    obtain ⟨d', htokens, hformula⟩ := ih
    exact ⟨.only d', htokens, hformula⟩
  | orLeft t ht r _ ih =>
    obtain ⟨d', htokens, hformula⟩ := ih
    refine ⟨.or d' t ht r, by simp [tokens, htokens], fun mentioned => ?_⟩
    rw [formula, formula, hformula]
  | orRight l t ht _ ih =>
    obtain ⟨d', htokens, hformula⟩ := ih
    refine ⟨.or l t ht d', by simp [tokens, htokens], fun mentioned => ?_⟩
    rw [formula, formula, hformula]

/-! ## Redundant parentheses -/

def enclosed (o : Token) (ho : o.kind = .opening) (e : Token) (he : e.kind = .closing) :
    {b : Binding} → Derivation b → Derivation b
  | .factor, d => .paren o ho (.only (.single d)) e he
  | .conjunction, d => .single (.paren o ho (.only d) e he)
  | .disjunction, d => .only (.single (.paren o ho d e he))

theorem tokens_enclosed (o : Token) (ho : o.kind = .opening) (e : Token) (he : e.kind = .closing)
    (d : Derivation b) : (d.enclosed o ho e he).tokens = o :: d.tokens ++ [e] := by
  cases b <;> rfl

theorem formula_enclosed (o : Token) (ho : o.kind = .opening) (e : Token) (he : e.kind = .closing)
    (d : Derivation b) (mentioned : Token → Formula) :
    (d.enclosed o ho e he).formula mentioned = d.formula mentioned := by
  cases b <;> rfl

/-- Parentheses around a part of an expression leave no trace in the formula. -/
theorem exists_enclosed {o e : Token} (ho : o.kind = .opening) (he : e.kind = .closing)
    (h : Occurs s before after d) : ∃ d' : Derivation c,
      d'.tokens = before ++ o :: s.tokens ++ e :: after ∧
        ∀ mentioned, d'.formula mentioned = d.formula mentioned := by
  obtain ⟨d', htokens, hformula⟩ := h.exists_replaced (formula_enclosed o ho e he s)
  refine ⟨d', ?_, hformula⟩
  rw [htokens, tokens_enclosed]
  simp

/-! ## Chains -/

/-- The tokens are an operand of the operator: an expression that needs no parentheses beside it. -/
def IsOperand (op : Kind) (ts : List Token) : Prop :=
  ∃ b, ∃ d : Derivation b, Looser op b ∧ d.tokens = ts

/-- Operands with an operator after each of them, and a last operand. -/
def chained (links : List (List Token × Token)) (last : List Token) : List Token :=
  links.flatMap (fun l => l.1 ++ [l.2]) ++ last

theorem chained_cons (operand : List Token) (t : Token) (links : List (List Token × Token))
    (last : List Token) : chained ((operand, t) :: links) last = operand ++ t :: chained links last := by
  simp [chained]

theorem mem_chained {links : List (List Token × Token)} {last : List Token} {t : Token} :
    t ∈ chained links last ↔ (∃ l ∈ links, t ∈ l.1 ∨ t = l.2) ∨ t ∈ last := by
  simp [chained]

/-- A chain is read as what its first operand is linked to, where `lift` reads a single operand and
`link` one before the rest of the chain. -/
theorem exists_chain {op : Kind} (lift : Derivation b → Derivation c)
    (link : Derivation b → (t : Token) → t.kind = op → Derivation c → Derivation c)
    (hlift : ∀ d, (lift d).tokens = d.tokens ∧ ∀ m, (lift d).formula m = d.formula m)
    (hlink : ∀ d t ht e, (link d t ht e).tokens = d.tokens ++ t :: e.tokens ∧
      ∀ m, (link d t ht e).formula m = Context.join op (d.formula m) (e.formula m))
    {links : List (List Token × Token)} {last : List Token}
    (hlinks : ∀ l ∈ links, (∃ d : Derivation b, d.tokens = l.1) ∧ l.2.kind = op)
    (hlast : ∃ d : Derivation b, d.tokens = last) :
    ∃ (ds : List (Derivation b)) (d : Derivation b) (e : Derivation c),
      links.map Prod.fst = ds.map tokens ∧ d.tokens = last ∧ e.tokens = chained links last ∧
        ∀ m, e.formula m = (ds.map (formula m)).foldr (Context.join op) (d.formula m) := by
  induction links with
  | nil =>
    obtain ⟨d, rfl⟩ := hlast
    exact ⟨[], d, lift d, rfl, rfl, (hlift d).1, (hlift d).2⟩
  | cons l links ih =>
    obtain ⟨operand, t⟩ := l
    obtain ⟨⟨⟨first, hfirst⟩, ht⟩, hrest⟩ := List.forall_mem_cons.1 hlinks
    obtain ⟨ds, d, e, hds, hd, he, hformula⟩ := ih hrest
    dsimp only at hfirst ht
    subst hfirst
    refine ⟨first :: ds, d, link first t ht e, ?_, hd, ?_, fun m => ?_⟩
    · rw [List.map_cons, List.map_cons, hds]
    · rw [chained_cons, (hlink first t ht e).1, he]
    · rw [(hlink first t ht e).2, hformula, List.map_cons, List.foldr_cons]

/-- The operands of a chain are expressions, and the chain nests to the right. -/
theorem exists_chain_of_isOperand {op : Kind} (hop : op = .and ∨ op = .or)
    {links : List (List Token × Token)} {last : List Token}
    (hlinks : ∀ l ∈ links, IsOperand op l.1 ∧ l.2.kind = op) (hlast : IsOperand op last) :
    ∃ b c, ∃ (ds : List (Derivation b)) (d : Derivation b) (e : Derivation c),
      links.map Prod.fst = ds.map tokens ∧ d.tokens = last ∧ e.tokens = chained links last ∧
        ∀ m, e.formula m = (ds.map (formula m)).foldr (Context.join op) (d.formula m) := by
  rcases hop with rfl | rfl
  · have hfactor : ∀ {ts}, IsOperand .and ts → ∃ d : Derivation .factor, d.tokens = ts := by
      rintro ts ⟨b, d, hloose, hd⟩
      cases b with
      | factor => exact ⟨d, hd⟩
      | conjunction => cases hloose
      | disjunction => cases hloose
    exact ⟨_, _, exists_chain .single .and (fun _ => ⟨rfl, fun _ => rfl⟩)
      (fun _ _ _ _ => ⟨rfl, fun _ => rfl⟩) (fun l hl => (hlinks l hl).imp_left hfactor)
      (hfactor hlast)⟩
  · have hconj : ∀ {ts}, IsOperand .or ts → ∃ d : Derivation .conjunction, d.tokens = ts := by
      rintro ts ⟨b, d, hloose, hd⟩
      cases b with
      | factor => exact ⟨.single d, hd⟩
      | conjunction => exact ⟨d, hd⟩
      | disjunction => cases hloose
    exact ⟨_, _, exists_chain .only .or (fun _ => ⟨rfl, fun _ => rfl⟩)
      (fun _ _ _ _ => ⟨rfl, fun _ => rfl⟩) (fun l hl => (hlinks l hl).imp_left hconj)
      (hconj hlast)⟩

end Derivation

namespace Context
variable {ctx : Context} {mentioned : Token → Formula}

open BalancedTeams.Derivation

/-- A chain is built from what its operands are built as, nested to the right. -/
theorem build_chained {op : Kind} (hop : op = .and ∨ op = .or) {links : List (List Token × Token)}
    {last : List Token} (hlinks : ∀ l ∈ links, IsOperand op l.1 ∧ l.2.kind = op)
    (hlast : IsOperand op last) (hresolve : ∀ t ∈ chained links last, t.kind = .mention →
      ctx.operand t = .ok (mentioned t)) :
    ∃ fs f, List.Forall₂ (fun l f => ctx.build l.1 = .ok f) links fs ∧ ctx.build last = .ok f ∧
      ctx.build (chained links last) = .ok (fs.foldr (join op) f) := by
  obtain ⟨b, c, ds, d, e, hds, rfl, he, hformula⟩ := exists_chain_of_isOperand hop hlinks hlast
  refine ⟨ds.map (formula mentioned), d.formula mentioned, ?_, ?_, ?_⟩
  · have hbuilt : List.Forall₂ (fun ts f => ctx.build ts = .ok f) (links.map Prod.fst)
        (ds.map (formula mentioned)) := by
      rw [hds, List.forall₂_map_left_iff, List.forall₂_map_right_iff, List.forall₂_same]
      intro d hd
      obtain ⟨l, hl, hld⟩ : ∃ l ∈ links, l.1 = d.tokens :=
        List.mem_map.1 (hds ▸ List.mem_map_of_mem hd)
      apply build_tokens
      intro t ht
      exact hresolve t (mem_chained.2 (Or.inl ⟨l, hl, Or.inl (hld ▸ ht)⟩))
    rwa [List.forall₂_map_left_iff] at hbuilt
  · apply build_tokens
    intro t ht
    exact hresolve t (mem_chained.2 (Or.inr ht))
  · rw [← he, ← hformula]
    exact build_tokens e (he ▸ hresolve)

/-- **The builder gives the formula of the precedence tree.** Tokens that the validator accepts have
exactly one derivation, and are built as its formula if their mentions resolve. Parentheses around a
part change nothing, and a chain of one operator nests to the right. -/
theorem build_precedence {ts : List Token} (hvalid : validate (ts.map Token.kind) = .ok ())
    (hresolve : ∀ t ∈ ts, t.kind = .mention → ctx.operand t = .ok (mentioned t)) :
    (∃ d : Derivation .disjunction, d.tokens = ts ∧
      (∀ e : Derivation .disjunction, e.tokens = ts → e = d) ∧
      ctx.build ts = .ok (d.formula mentioned) ∧
      ∀ {b : Binding} {s : Derivation b} {before after : List Token}, s.Occurs before after d →
        ∀ o c : Token, o.kind = .opening → c.kind = .closing →
          ctx.build (before ++ o :: s.tokens ++ c :: after) = ctx.build ts) ∧
    ∀ op, op = .and ∨ op = .or → ∀ (links : List (List Token × Token)) (last : List Token),
      (∀ l ∈ links, IsOperand op l.1 ∧ l.2.kind = op) → IsOperand op last →
        ts = chained links last → ∃ fs f, List.Forall₂ (fun l f => ctx.build l.1 = .ok f) links fs ∧
          ctx.build last = .ok f ∧ ctx.build ts = .ok (fs.foldr (join op) f) := by
  refine ⟨?_, ?_⟩
  · obtain ⟨d, rfl⟩ := exists_of_formExpr ((validate_eq_ok_iff_expr _).1 hvalid)
    have hbuild := d.build_tokens hresolve
    refine ⟨d, rfl, fun e he => tokens_inj he, hbuild, ?_⟩
    intro b s before after hs o c ho hc
    obtain ⟨d', htokens, hformula⟩ := exists_enclosed ho hc hs
    rw [hbuild, ← hformula, ← htokens]
    apply d'.build_tokens
    intro t ht hkind
    refine hresolve t ?_ hkind
    rw [hs.tokens_eq]
    rw [htokens] at ht
    simp only [List.mem_append, List.mem_cons] at ht ⊢
    rcases ht with (hin | rfl | hin) | rfl | hin
    · exact Or.inl (Or.inl hin)
    · rw [ho] at hkind
      cases hkind
    · exact Or.inl (Or.inr hin)
    · rw [hc] at hkind
      cases hkind
    · exact Or.inr hin
  · rintro op hop links last hlinks hlast rfl
    exact build_chained hop hlinks hlast hresolve

/-- `@a OR @b AND NOT @c`, with and without parentheses around the conjunction. -/
theorem build_precedence_or_and_not :
    let person (id : Text) : Person := ⟨.str id, .str id, []⟩
    let mention (id : Text) : Token := ⟨.mention, some (.person (.str id)), 0, 0⟩
    let sign (kind : Kind) : Token := ⟨kind, none, 0, 0⟩
    let ctx : Context :=
      ⟨[person "a", person "b", person "c"], [.str "a", .str "b", .str "c"], ⟨[]⟩, .vacuous⟩
    let f : Formula := .or (.person (.str "a")) (.and (.person (.str "b")) (.not (.person (.str "c"))))
    ctx.build [mention "a", sign .or, mention "b", sign .and, sign .not, mention "c"] = .ok f ∧
      ctx.build [mention "a", sign .or, sign .opening, mention "b", sign .and, sign .not, mention "c",
        sign .closing] = .ok f := by
  intro person mention sign ctx f
  let right : Derivation .conjunction := .and (.mention (mention "b") rfl) (sign .and) rfl
    (.single (.not (sign .not) rfl (.mention (mention "c") rfl)))
  let d : Derivation .disjunction :=
    .or (.single (.mention (mention "a") rfl)) (sign .or) rfl (.only right)
  have hvalid : validate (d.tokens.map Token.kind) = .ok () := by decide
  have hresolve : ∀ t ∈ d.tokens, t.kind = .mention → ctx.operand t = .ok (ctx.mentioned t) := by
    decide +kernel
  obtain ⟨⟨e, -, hunique, hbuild, hparens⟩, -⟩ := build_precedence hvalid hresolve
  obtain rfl := hunique d rfl
  have hf : d.formula ctx.mentioned = f := by decide +kernel
  rw [hf] at hbuild
  refine ⟨hbuild, ?_⟩
  have hpart : right.Occurs [mention "a", sign .or] [] d :=
    .orRight (.single (.mention (mention "a") rfl)) (sign .or) rfl (.only .self)
  exact (hparens hpart (sign .opening) (sign .closing) rfl rfl).trans hbuild

end Context
end BalancedTeams
