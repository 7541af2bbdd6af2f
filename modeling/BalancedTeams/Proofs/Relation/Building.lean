import BalancedTeams.Proofs.Relation.Pieces
import BalancedTeams.Proofs.Relation.Validation
import BalancedTeams.Proofs.Runs

/-!
# The builder accepts exactly the expressions

* `Token.chain?_eq_some`, `Token.unwrap?_eq_some` : what it means that tokens split or are wrapped;
* `Context.build_of_chain?`, `Context.build_not`, `Context.build_of_unwrap?`,
  `Context.build_single` : the cases of the builder, and `Context.build_induction` along them;
* `Context.expr_of_build`, `Context.build_of_expr`, `Context.fault_of_build` : tokens that are built
  are an expression, an expression is built, and all else is a fault of the grammar;
* `Context.fault_of_expr` : an expression has no faults but those of its mentions;
* `Context.operand_of_build` : the mentions of what is built resolve;
* `validate_iff_expr_iff_build` : the validator, the grammar and the builder agree.
-/

namespace BalancedTeams

/-! ## Splitting and unwrapping -/

namespace Token

theorem chain?_eq_some {ts : List Token} {op : Kind} {ps : List (List Token)}
    (h : chain? ts = some (op, ps)) :
    (op = .and ∨ op = .or) ∧ ps = pieces op 0 ts ∧ 1 < ps.length := by
  unfold chain? at h
  simp only at h
  split at h
  · next hlen => cases h; exact ⟨Or.inr rfl, rfl, hlen⟩
  · split at h
    · next hlen => cases h; exact ⟨Or.inl rfl, rfl, hlen⟩
    · cases h

theorem length_pieces_of_chain?_eq_none {ts : List Token} (h : chain? ts = none) {op : Kind}
    (hop : op = .and ∨ op = .or) : ¬ 1 < (pieces op 0 ts).length := by
  unfold chain? at h
  simp only at h
  split at h
  · cases h
  · next hors =>
    split at h
    · cases h
    · next hands => rcases hop with rfl | rfl <;> assumption

theorem unwrap?_eq_some {ts inner : List Token} (h : unwrap? ts = some inner) :
    ∃ o c, ts = o :: inner ++ [c] ∧ o.kind = .opening ∧ c.kind = .closing := by
  cases ts with
  | nil => cases h
  | cons o rest =>
    simp only [unwrap?] at h
    split at h
    · cases h
    · next c hc =>
      split at h
      · next hkinds =>
        cases h
        refine ⟨o, c, ?_, hkinds.1, hkinds.2.1⟩
        rw [List.cons_append, List.dropLast_append_getLast? c hc]
      · cases h

theorem unwrap?_wrapped {o c : Token} {inner : List Token} (ho : o.kind = .opening)
    (hc : c.kind = .closing) (hopen : staysOpen 1 inner = true) :
    unwrap? (o :: inner ++ [c]) = some inner := by
  simp [unwrap?, ho, hc, hopen]

end Token

/-! ## Cases of the builder -/

namespace Context
variable {ctx : Context}

open Token

theorem build_of_chain? {ts : List Token} {op : Kind} {ps : List (List Token)}
    (h : chain? ts = some (op, ps)) : ctx.build ts = ps.reverse.mapM ctx.build >>= joinAll op := by
  cases ts with
  | nil => cases h
  | cons first rest =>
    rw [build]
    split
    · next op' ps' hc =>
      cases hc.symm.trans h
      rw [List.mapM_subtype (g := ctx.build) (fun _ _ => rfl), List.unattach_attach]
    · next hc => rw [hc] at h; cases h

theorem build_not {first : Token} {rest : List Token} (h : chain? (first :: rest) = none)
    (hfirst : first.kind = .not) : ctx.build (first :: rest) = (ctx.build rest).map .not := by
  rw [build]
  split
  · next hc => rw [hc] at h; cases h
  · rw [if_pos hfirst]
    cases ctx.build rest <;> rfl

theorem build_of_unwrap? {ts inner : List Token} (h : chain? ts = none)
    (hu : unwrap? ts = some inner) : ctx.build ts = ctx.build inner := by
  obtain ⟨o, c, rfl, ho, -⟩ := unwrap?_eq_some hu
  rw [List.cons_append] at h hu ⊢
  rw [build]
  split
  · next hc => rw [hc] at h; cases h
  · rw [if_neg (by simp [ho])]
    split
    · next inner' hu' => cases hu'.symm.trans hu; rfl
    · next hu' => rw [hu'] at hu; cases hu

/-- What neither splits nor begins with `NOT` nor is wrapped is a single mention. -/
theorem build_single {first : Token} {rest : List Token} (h : chain? (first :: rest) = none)
    (hfirst : first.kind ≠ .not) (hu : unwrap? (first :: rest) = none) :
    ctx.build (first :: rest) = if rest.isEmpty ∧ first.kind = .mention then ctx.operand first
      else .error (.grammar none (.malformed first.kind)) := by
  rw [build]
  split
  · next hc => rw [hc] at h; cases h
  · rw [if_neg hfirst]
    split
    · next hu' => rw [hu'] at hu; cases hu
    · rfl

/-- Induction along the cases of the builder, which goes from tokens to their pieces, to what is negated, or
to what is in parentheses. -/
theorem build_induction (ctx : Context) {motive : List Token → Prop} (nil : motive [])
    (chain : ∀ op ts, (op = .and ∨ op = .or) →
      ctx.build ts = (pieces op 0 ts).reverse.mapM ctx.build >>= joinAll op →
      (∀ p ∈ pieces op 0 ts, motive p) → motive ts)
    (not : ∀ t ts, t.kind = .not → ctx.build (t :: ts) = (ctx.build ts).map .not → motive ts →
      motive (t :: ts))
    (paren : ∀ o ts c, o.kind = .opening → c.kind = .closing →
      ctx.build (o :: ts ++ [c]) = ctx.build ts → motive ts → motive (o :: ts ++ [c]))
    (single : ∀ t ts, ctx.build (t :: ts) = (if ts.isEmpty ∧ t.kind = .mention then ctx.operand t
      else .error (.grammar none (.malformed t.kind))) → motive (t :: ts)) (ts : List Token) :
    motive ts := by
  induction hn : ts.length using Nat.strongRecOn generalizing ts with
  | ind n ih =>
    subst hn
    cases hchain : chain? ts with
    | some split =>
      obtain ⟨op, ps⟩ := split
      obtain ⟨hop, rfl, -⟩ := chain?_eq_some hchain
      exact chain op ts hop (build_of_chain? hchain) fun p hp =>
        ih _ (length_lt_of_mem_chain? hchain hp) p rfl
    | none =>
      cases ts with
      | nil => exact nil
      | cons first rest =>
        by_cases hfirst : first.kind = .not
        · exact not first rest hfirst (build_not hchain hfirst) (ih _ (Nat.lt_succ_self _) rest rfl)
        · cases hu : unwrap? (first :: rest) with
          | some inner =>
            have hbuild : ctx.build (first :: rest) = ctx.build inner := build_of_unwrap? hchain hu
            have hinner := ih _ (length_lt_of_unwrap? hu) inner rfl
            obtain ⟨o, c, hts, ho, hc⟩ := unwrap?_eq_some hu
            rw [hts] at hbuild ⊢
            exact paren o inner c ho hc hbuild hinner
          | none => exact single first rest (build_single hchain hfirst hu)

/-! ## Accepted tokens -/

theorem expr_join {op : Kind} (hop : op = .and ∨ op = .or) {ks : List (List Kind)} (hne : ks ≠ [])
    (h : ∀ k ∈ ks, Expr k) : Expr (Kind.join op ks) := by
  induction ks with
  | nil => exact absurd rfl hne
  | cons k ks ih =>
    by_cases hks : ks = []
    · subst hks
      exact h k List.mem_cons_self
    · have hk := h k List.mem_cons_self
      have hrest := ih hks fun l hl => h l (List.mem_cons_of_mem _ hl)
      rw [Kind.join_cons op hks]
      rcases hop with rfl | rfl
      · exact hk.and hrest
      · exact hk.or hrest

theorem expr_of_build {ts : List Token} {f : Formula} (h : ctx.build ts = .ok f) : FormExpr ts := by
  induction ts using build_induction ctx generalizing f with
  | nil => simp [build] at h
  | chain op ts hop hbuild ih =>
    rw [hbuild] at h
    obtain ⟨fs, hfs, -⟩ := bind_eq_ok_iff.1 h
    have hpieces : ∀ p ∈ pieces op 0 ts, FormExpr p := by
      intro p hp
      obtain ⟨g, -, hg⟩ := exists_of_mem_of_mapM_eq_ok hfs (List.mem_reverse.2 hp)
      exact ih p hp hg
    have hne : (pieces op 0 ts).map (List.map Token.kind) ≠ [] := by
      simpa using pieces_ne_nil op 0 ts
    have hjoin := expr_join hop hne (by simpa [FormExpr] using hpieces)
    rwa [join_pieces] at hjoin
  | not t ts ht hbuild ih =>
    rw [hbuild] at h
    obtain ⟨g, hg, -⟩ := map_eq_ok_iff.1 h
    exact show Expr (t.kind :: _) from ht ▸ (ih hg).not
  | paren o ts c ho hc hbuild ih =>
    rw [hbuild] at h
    simpa [FormExpr, ho, hc] using Expr.paren (ih h)
  | single t ts hbuild =>
    rw [hbuild] at h
    split at h
    · next hsingle =>
      rw [List.isEmpty_iff.1 hsingle.1]
      exact show Expr [t.kind] from hsingle.2 ▸ .mention
    · cases h

/-- The mentions among tokens that a formula is built from have formulas. -/
theorem operand_of_build {ts : List Token} {f : Formula} (h : ctx.build ts = .ok f) {t : Token}
    (ht : t ∈ ts) (hkind : t.kind = .mention) : ∃ g, ctx.operand t = .ok g := by
  induction ts using build_induction ctx generalizing f with
  | nil => cases ht
  | chain op ts hop hbuild ih =>
    have hne : t.kind ≠ op := by rcases hop with rfl | rfl <;> simp [hkind]
    obtain ⟨p, hp, htp⟩ := exists_mem_pieces ht hne 0
    rw [hbuild] at h
    obtain ⟨fs, hfs, -⟩ := bind_eq_ok_iff.1 h
    obtain ⟨g, -, hg⟩ := exists_of_mem_of_mapM_eq_ok hfs (List.mem_reverse.2 hp)
    exact ih p hp hg htp
  | not u ts hu hbuild ih =>
    rw [hbuild] at h
    obtain ⟨g, hg, -⟩ := map_eq_ok_iff.1 h
    rcases List.mem_cons.1 ht with rfl | ht
    · cases hkind.symm.trans hu
    · exact ih hg ht
  | paren o ts c ho hc hbuild ih =>
    rw [hbuild] at h
    rw [List.mem_append, List.mem_cons, List.mem_singleton] at ht
    rcases ht with (rfl | ht) | rfl
    · cases hkind.symm.trans ho
    · exact ih h ht
    · cases hkind.symm.trans hc
  | single u ts hbuild =>
    rw [hbuild] at h
    split at h
    · next hsingle =>
      rw [List.isEmpty_iff.1 hsingle.1, List.mem_singleton] at ht
      exact ⟨f, ht ▸ h⟩
    · cases h

/-- An expression that is not built has a mention with the same fault, by induction on its number of
tokens. -/
theorem fault_of_expr {ts : List Token} {e : Fault} (hexpr : FormExpr ts)
    (h : ctx.build ts = .error e) : ∃ t ∈ ts, t.kind = .mention ∧ ctx.operand t = .error e := by
  induction hn : ts.length using Nat.strongRecOn generalizing ts with
  | ind n ih =>
    subst hn
    cases hchain : chain? ts with
    | some chain =>
      obtain ⟨op, ps⟩ := chain
      obtain ⟨hop, hps, hlong⟩ := chain?_eq_some hchain
      rw [build_of_chain? hchain, bind_eq_error_iff] at h
      rcases h with h | ⟨fs, hfs, h⟩
      · obtain ⟨p, hp, hpe⟩ := exists_of_mapM_eq_error h
        rw [List.mem_reverse] at hp
        have hshort := length_lt_of_mem_chain? hchain hp
        subst hps
        obtain ⟨t, ht, hboth⟩ := ih _ hshort (hexpr.of_mem_pieces hop hp) hpe rfl
        exact ⟨t, mem_of_mem_pieces hp ht, hboth⟩
      · have hlen' := length_of_mapM_eq_ok hfs
        cases fs with
        | nil => simp only [List.length_nil, List.length_reverse] at hlen'; omega
        | cons last before => cases h
    | none =>
      induction hexpr using FormExpr.induction with
      | mention t _ ht =>
        rw [build_single hchain (by simp [ht]) rfl, if_pos ⟨rfl, ht⟩] at h
        exact ⟨t, List.mem_cons_self, ht, h⟩
      | paren o inner c _ ho hc hinner _ =>
        have hopen : staysOpen 1 inner = true := by
          simpa [staysOpen] using hinner.staysOpen_append Int.one_pos []
        rw [build_of_unwrap? hchain (unwrap?_wrapped ho hc hopen)] at h
        have hshort : inner.length < (o :: inner ++ [c]).length := by
          simp only [List.length_append, List.length_cons, List.length_nil]
          omega
        obtain ⟨t, ht, hboth⟩ := ih _ hshort hinner h rfl
        exact ⟨t, List.mem_append_left _ (List.mem_cons_of_mem _ ht), hboth⟩
      | not t rest _ ht hrest _ =>
        rw [build_not hchain ht] at h
        rcases bind_eq_error_iff.1 h with h | ⟨f, -, h⟩
        · obtain ⟨u, hu, hboth⟩ := ih _ (Nat.lt_succ_self _) hrest h rfl
          exact ⟨u, List.mem_cons_of_mem _ hu, hboth⟩
        · cases h
      | binary ts t us _ ht hts _ _ _ =>
        -- the operator is outside parentheses and would have split the tokens
        exact absurd hts.one_lt_length_pieces (length_pieces_of_chain?_eq_none hchain ht)

/-- An expression is built if its mentions resolve. -/
theorem build_of_expr {ts : List Token} (hexpr : FormExpr ts)
    (hresolve : ∀ t ∈ ts, t.kind = .mention → ∃ f, ctx.operand t = .ok f) :
    ∃ f, ctx.build ts = .ok f := by
  cases h : ctx.build ts with
  | ok f => exact ⟨f, rfl⟩
  | error e =>
    obtain ⟨t, ht, hkind, he⟩ := fault_of_expr hexpr h
    obtain ⟨f, hf⟩ := hresolve t ht hkind
    rw [hf] at he
    cases he

/-- Tokens whose mentions resolve are refused with a fault of the grammar only. -/
theorem fault_of_build {ts : List Token} {e : Fault}
    (hresolve : ∀ t ∈ ts, t.kind = .mention → ∃ f, ctx.operand t = .ok f)
    (h : ctx.build ts = .error e) : ∃ g, e = .grammar none g := by
  induction ts using build_induction ctx generalizing e with
  | nil =>
    rw [build] at h
    cases h
    exact ⟨_, rfl⟩
  | chain op ts hop hbuild ih =>
    rw [hbuild, bind_eq_error_iff] at h
    rcases h with h | ⟨fs, -, h⟩
    · obtain ⟨p, hp, hpe⟩ := exists_of_mapM_eq_error h
      rw [List.mem_reverse] at hp
      exact ih p hp (fun t ht => hresolve t (mem_of_mem_pieces hp ht)) hpe
    · cases fs with
      | nil => cases h; exact ⟨_, rfl⟩
      | cons last before => cases h
  | not t ts ht hbuild ih =>
    rw [hbuild] at h
    exact ih (fun u hu => hresolve u (List.mem_cons_of_mem _ hu)) (map_eq_error_iff.1 h)
  | paren o ts c ho hc hbuild ih =>
    rw [hbuild] at h
    refine ih (fun t ht => hresolve t ?_) h
    exact List.mem_append_left _ (List.mem_cons_of_mem _ ht)
  | single t ts hbuild =>
    rw [hbuild] at h
    split at h
    · next hsingle =>
      obtain ⟨f, hf⟩ := hresolve t List.mem_cons_self hsingle.2
      rw [hf] at h
      cases h
    · cases h
      exact ⟨_, rfl⟩

end Context

/-! ## The three together -/

/-- **The validator, the grammar and the builder accept the same tokens.** All other tokens are
refused by the validator and, if their mentions resolve, by the builder, with a fault of the grammar
each. -/
theorem validate_iff_expr_iff_build (ts : List Token) :
    (validate (ts.map Token.kind) = .ok () ↔ Expr (ts.map Token.kind)) ∧
      ∀ ctx : Context, (∀ t ∈ ts, t.kind = .mention → ∃ f, ctx.operand t = .ok f) →
        (validate (ts.map Token.kind) = .ok () ↔ ∃ f, ctx.build ts = .ok f) ∧
        (validate (ts.map Token.kind) ≠ .ok () →
          (∃ g, validate (ts.map Token.kind) = .error g) ∧
          ∃ g, ctx.build ts = .error (.grammar none g)) := by
  have hlang := validate_eq_ok_iff_expr (ts.map Token.kind)
  refine ⟨hlang, fun ctx hresolve => ?_⟩
  have hbuild : validate (ts.map Token.kind) = .ok () ↔ ∃ f, ctx.build ts = .ok f := by
    rw [hlang]
    exact ⟨fun h => Context.build_of_expr h hresolve,
      fun ⟨f, hf⟩ => Context.expr_of_build hf⟩
  refine ⟨hbuild, fun hrefused => ⟨?_, ?_⟩⟩
  · cases hv : validate (ts.map Token.kind) with
    | ok u => exact absurd hv hrefused
    | error g => exact ⟨g, rfl⟩
  · cases hb : ctx.build ts with
    | ok f => exact absurd (hbuild.2 ⟨f, hb⟩) hrefused
    | error e =>
      obtain ⟨g, rfl⟩ := Context.fault_of_build hresolve hb
      exact ⟨g, rfl⟩

/-- `@a OR NOT ( @a )` is built where `a` is a person, and `@a OR` is refused there. -/
theorem build_or_not_of_person :
    let a : Token := ⟨.mention, some (.person (.str "a")), 0, 0⟩
    let ctx : Context := ⟨[⟨.str "a", .str "a", []⟩], [.str "a"], ⟨[]⟩, .vacuous⟩
    (∃ f, ctx.build [a, ⟨.or, none, 0, 0⟩, ⟨.not, none, 0, 0⟩, ⟨.opening, none, 0, 0⟩, a,
      ⟨.closing, none, 0, 0⟩] = .ok f) ∧
    ∃ g, ctx.build [a, ⟨.or, none, 0, 0⟩] = .error (.grammar none g) := by
  intro a ctx
  have ha : ctx.operand a = .ok (.person (.str "a")) := by decide +kernel
  refine ⟨((validate_iff_expr_iff_build _).2 ctx ?_).1.1 (by decide +kernel),
    (((validate_iff_expr_iff_build _).2 ctx ?_).2 (by decide +kernel)).2⟩
  · intro t ht hkind
    simp only [List.mem_cons, List.not_mem_nil, or_false] at ht
    rcases ht with rfl | rfl | rfl | rfl | rfl | rfl <;> first | exact ⟨_, ha⟩ | cases hkind
  · intro t ht hkind
    simp only [List.mem_cons, List.not_mem_nil, or_false] at ht
    rcases ht with rfl | rfl <;> first | exact ⟨_, ha⟩ | cases hkind

end BalancedTeams
