import BalancedTeams.Proofs.Formula.Mentions
import BalancedTeams.Proofs.Mention.Codec
import BalancedTeams.Proofs.Relation.Derivation
import BalancedTeams.Proofs.Relation.Layout
import BalancedTeams.Proofs.Relation.Lexing

/-!
# Formulas as text

* `Formula.Prints` : the ways to write a formula of people, negations, conjunctions and disjunctions,
  with parentheses at least where they are needed;
* `Derives` : whatever tokens lexemes are read as, they have a derivation with the formula;
* `Formula.Prints.derives` : a written formula is derived from its lexemes;
* `parse_build_of_prints` : the text of a formula is read as the formula.
-/

namespace BalancedTeams

namespace Formula

def isAnd : Formula → Bool
  | .and _ _ => true
  | _ => false

def isOr : Formula → Bool
  | .or _ _ => true
  | _ => false

/-- Pairs of parentheses around lexemes. -/
def wrap : Nat → List Lexeme → List Lexeme
  | 0, ls => ls
  | n + 1, ls => .opening :: wrap n ls ++ [.closing]

/-- The lexemes of a formula without parentheses around the whole. There are any numbers of
parentheses around its parts, but at least one pair around a chain under `NOT`, around a disjunction
under `AND` and around a chain that is the left side of a chain with the same operator. -/
inductive Prints (people : List Person) : Formula → List Lexeme → Prop
  | person {p : Person} {name : Text} (hp : p ∈ people) (hname : p.name = .str name) :
      Prints people (.person p.id) [.mention name]
  | not {f : Formula} {ls : List Lexeme} {w : Text} {n : Nat} (hf : Prints people f ls)
      (hw : Lexeme.IsOperator .not w) (hparens : f.isAnd = true ∨ f.isOr = true → 0 < n) :
      Prints people (.not f) (.word .not w :: wrap n ls)
  | and {f g : Formula} {ls ms : List Lexeme} {w : Text} {m n : Nat} (hf : Prints people f ls)
      (hg : Prints people g ms) (hw : Lexeme.IsOperator .and w)
      (hleft : f.isAnd = true ∨ f.isOr = true → 0 < m) (hright : g.isOr = true → 0 < n) :
      Prints people (.and f g) (wrap m ls ++ .word .and w :: wrap n ms)
  | or {f g : Formula} {ls ms : List Lexeme} {w : Text} {m n : Nat} (hf : Prints people f ls)
      (hg : Prints people g ms) (hw : Lexeme.IsOperator .or w) (hleft : f.isOr = true → 0 < m) :
      Prints people (.or f g) (wrap m ls ++ .word .or w :: wrap n ms)

end Formula

/-! ## Derivations from lexemes -/

/-- Whatever tokens the lexemes are read as, they have a derivation with this formula. -/
def Derives (find? : Text → Option Ref) (mentioned : Token → Formula) (b : Binding)
    (ls : List Lexeme) (f : Formula) : Prop :=
  ∀ ts, List.Forall₂ (Lexeme.IsReadAs find?) ls ts →
    ∃ d : Derivation b, d.tokens = ts ∧ d.formula mentioned = f

namespace Derives
variable {find? : Text → Option Ref} {mentioned : Token → Formula} {ls ms : List Lexeme} {f g : Formula}

theorem single (h : Derives find? mentioned .factor ls f) : Derives find? mentioned .conjunction ls f := by
  intro ts hts
  obtain ⟨d, hd, hf⟩ := h ts hts
  exact ⟨.single d, hd, hf⟩

theorem only (h : Derives find? mentioned .conjunction ls f) :
    Derives find? mentioned .disjunction ls f := by
  intro ts hts
  obtain ⟨d, hd, hf⟩ := h ts hts
  exact ⟨.only d, hd, hf⟩

theorem mention {name : Text}
    (h : ∀ t : Token, t.kind = .mention → t.ref = find? name → mentioned t = f) :
    Derives find? mentioned .factor [.mention name] f := by
  intro ts hts
  cases hts with
  | @cons _ t _ _ ht hrest =>
    cases hrest
    exact ⟨.mention t ht.1, rfl, h t ht.1 ht.2⟩

theorem not {w : Text} (h : Derives find? mentioned .factor ls f) :
    Derives find? mentioned .factor (.word .not w :: ls) (.not f) := by
  intro ts hts
  cases hts with
  | @cons _ t _ us ht hus =>
    obtain ⟨d, rfl, rfl⟩ := h us hus
    exact ⟨.not t ht d, rfl, rfl⟩

theorem exists_split {ts : List Token} {kind : Kind} {w : Text}
    (h : List.Forall₂ (Lexeme.IsReadAs find?) (ls ++ .word kind w :: ms) ts) :
    ∃ us t vs, ts = us ++ t :: vs ∧ t.kind = kind ∧ List.Forall₂ (Lexeme.IsReadAs find?) ls us ∧
      List.Forall₂ (Lexeme.IsReadAs find?) ms vs := by
  obtain ⟨us, rest, rfl, hus, hrest⟩ := exists_append_of_forall₂ h
  cases hrest with
  | cons ht hvs => exact ⟨us, _, _, rfl, ht, hus, hvs⟩

theorem and {w : Text} (hf : Derives find? mentioned .factor ls f)
    (hg : Derives find? mentioned .conjunction ms g) :
    Derives find? mentioned .conjunction (ls ++ .word .and w :: ms) (.and f g) := by
  intro ts hts
  obtain ⟨us, t, vs, rfl, ht, hus, hvs⟩ := exists_split hts
  obtain ⟨d, rfl, rfl⟩ := hf us hus
  obtain ⟨e, rfl, rfl⟩ := hg vs hvs
  exact ⟨.and d t ht e, rfl, rfl⟩

theorem or {w : Text} (hf : Derives find? mentioned .conjunction ls f)
    (hg : Derives find? mentioned .disjunction ms g) :
    Derives find? mentioned .disjunction (ls ++ .word .or w :: ms) (.or f g) := by
  intro ts hts
  obtain ⟨us, t, vs, rfl, ht, hus, hvs⟩ := exists_split hts
  obtain ⟨d, rfl, rfl⟩ := hf us hus
  obtain ⟨e, rfl, rfl⟩ := hg vs hvs
  exact ⟨.or d t ht e, rfl, rfl⟩

theorem paren (h : Derives find? mentioned .disjunction ls f) :
    Derives find? mentioned .factor (.opening :: ls ++ [.closing]) f := by
  intro ts hts
  cases hts with
  | @cons _ o _ us ho hus =>
    obtain ⟨inner, last, rfl, hinner, hlast⟩ := exists_append_of_forall₂ hus
    cases hlast with
    | @cons _ c _ _ hc hnil =>
      cases hnil
      obtain ⟨d, rfl, rfl⟩ := h inner hinner
      exact ⟨.paren o ho d c hc, rfl, rfl⟩

/-- Within parentheses anything is a factor. -/
theorem wrap_succ (h : Derives find? mentioned .disjunction ls f) (n : Nat) :
    Derives find? mentioned .factor (Formula.wrap (n + 1) ls) f := by
  induction n with
  | zero => exact h.paren
  | succ n ih => exact ih.single.only.paren

end Derives

/-! ## Written formulas are derived -/

namespace Formula
variable {find? : Text → Option Ref} {mentioned : Token → Formula} {f : Formula} {ls : List Lexeme}

def binding : Formula → Binding
  | .or _ _ => .disjunction
  | .and _ _ => .conjunction
  | _ => .factor

theorem disjunction_of_binding (h : Derives find? mentioned f.binding ls f) (n : Nat) :
    Derives find? mentioned .disjunction (wrap n ls) f := by
  have hbare : Derives find? mentioned .disjunction ls f := by
    cases f with
    | person | always | not => exact h.single.only
    | and => exact h.only
    | or => exact h
  cases n with
  | zero => exact hbare
  | succ n => exact (hbare.wrap_succ n).single.only

theorem conjunction_of_binding (h : Derives find? mentioned f.binding ls f) {n : Nat}
    (hparens : f.isOr = true → 0 < n) : Derives find? mentioned .conjunction (wrap n ls) f := by
  cases n with
  | zero =>
    cases f with
    | person | always | not => exact h.single
    | and => exact h
    | or => exact absurd (hparens rfl) (Nat.lt_irrefl 0)
  | succ n => exact ((disjunction_of_binding h 0).wrap_succ n).single

theorem factor_of_binding (h : Derives find? mentioned f.binding ls f) {n : Nat}
    (hparens : f.isAnd = true ∨ f.isOr = true → 0 < n) :
    Derives find? mentioned .factor (wrap n ls) f := by
  cases n with
  | zero =>
    cases f with
    | person | always | not => exact h
    | and => exact absurd (hparens (Or.inl rfl)) (Nat.lt_irrefl 0)
    | or => exact absurd (hparens (Or.inr rfl)) (Nat.lt_irrefl 0)
  | succ n => exact (disjunction_of_binding h 0).wrap_succ n

variable {people : List Person}

/-- The lexemes of a formula are derived from the grammar as the formula. -/
theorem Prints.derives (h : Prints people f ls)
    (hpeople : ∀ p ∈ people, ∀ name, p.name = .str name → ∀ t : Token, t.kind = .mention →
      t.ref = find? name → mentioned t = .person p.id) :
    Derives find? mentioned f.binding ls f := by
  induction h with
  | person hp hname => exact .mention (hpeople _ hp _ hname)
  | not hf hw hparens ih => exact .not (factor_of_binding ih hparens)
  | and hf hg hw hleft hright ihf ihg =>
    exact .and (factor_of_binding ihf hleft) (conjunction_of_binding ihg hright)
  | or hf hg hw hleft ihf ihg =>
    exact .or (conjunction_of_binding ihf hleft) (disjunction_of_binding ihg _)

/-- What is known of each lexeme: the mentioned people have ids with a text. -/
def IsPiece (people : List Person) : Lexeme → Prop
  | .mention name => ∃ p ∈ people, p.name = .str name ∧ p.id.HasLabelText
  | .word kind letters => Lexeme.IsOperator kind letters
  | .opening => True
  | .closing => True

theorem forall_isPiece_wrap (h : ∀ l ∈ ls, IsPiece people l) (n : Nat) :
    ∀ l ∈ wrap n ls, IsPiece people l := by
  induction n with
  | zero => exact h
  | succ n ih =>
    unfold wrap
    simp only [List.cons_append, List.forall_mem_cons, List.forall_mem_append, List.not_mem_nil,
      false_imp_iff, implies_true, and_true]
    exact ⟨trivial, ih, trivial⟩

theorem Prints.forall_isPiece (h : Prints people f ls) (hlabel : ∃ label, f.label = .ok label) :
    ∀ l ∈ ls, IsPiece people l := by
  induction h with
  | @person p name hp hname =>
    obtain ⟨label, hlabel⟩ := hlabel
    obtain ⟨s, hs, -⟩ := bind_eq_ok_iff.1 hlabel
    intro l hl
    rw [List.mem_singleton.1 hl]
    exact ⟨p, hp, hname, s, hs⟩
  | not hf hw hparens ih =>
    obtain ⟨label, hlabel⟩ := hlabel
    obtain ⟨part, hpart, -⟩ := bind_eq_ok_iff.1 hlabel
    exact List.forall_mem_cons.2 ⟨hw, forall_isPiece_wrap (ih ⟨part, hpart⟩) _⟩
  | and hf hg hw hleft hright ihf ihg =>
    obtain ⟨label, hlabel⟩ := hlabel
    obtain ⟨left, hl, hrest⟩ := bind_eq_ok_iff.1 hlabel
    obtain ⟨right, hr, -⟩ := bind_eq_ok_iff.1 hrest
    rw [List.forall_mem_append, List.forall_mem_cons]
    exact ⟨forall_isPiece_wrap (ihf ⟨left, hl⟩) _, hw, forall_isPiece_wrap (ihg ⟨right, hr⟩) _⟩
  | or hf hg hw hleft ihf ihg =>
    obtain ⟨label, hlabel⟩ := hlabel
    obtain ⟨left, hl, hrest⟩ := bind_eq_ok_iff.1 hlabel
    obtain ⟨right, hr, -⟩ := bind_eq_ok_iff.1 hrest
    rw [List.forall_mem_append, List.forall_mem_cons]
    exact ⟨forall_isPiece_wrap (ihf ⟨left, hl⟩) _, hw, forall_isPiece_wrap (ihg ⟨right, hr⟩) _⟩

end Formula

/-! ## From the text to the formula -/

def Token.person (t : Token) : Formula :=
  match t.ref with
  | some (.person id) => .person id
  | _ => .always

section
variable {people : List Person} {tags : List Tag} {policy : EmptyTag} {ctx : Context} {names : Names}

/-- Where names are distinct each of them refers to the person. -/
theorem ref?_of_nodup (hof : Names.of? people tags = some names)
    (hdistinct : (people.map Person.name).Nodup) {p : Person} (hp : p ∈ people) {name : Text}
    (hname : p.name = .str name) : names.ref? name = some (.person p.id) := by
  obtain ⟨before, after, rfl⟩ := List.append_of_mem hp
  apply Names.ref?_person hof rfl hname
  intro q hq e
  rw [List.map_append, List.map_cons, List.nodup_append] at hdistinct
  apply (List.nodup_cons.1 hdistinct.2.1).1
  rw [hname, ← e]
  exact List.mem_map_of_mem hq

theorem operand_of_isPiece (hctx : Context.of? people tags policy.name = .ok ctx)
    {find? : Text → Option Ref} (hfind : ∀ p ∈ people, ∀ name, p.name = .str name →
      find? name = some (.person p.id)) {l : Lexeme} {t : Token} (hl : Formula.IsPiece people l)
    (ht : l.IsReadAs find? t) (hkind : t.kind = .mention) : ctx.operand t = .ok t.person := by
  cases l with
  | mention name =>
    obtain ⟨p, hp, hname, htext⟩ := hl
    have href : t.ref = some (.person p.id) := ht.2.trans (hfind p hp name hname)
    obtain ⟨k, hk⟩ := Option.isSome_iff_exists.1 (Context.key?_isSome_of_mem hctx hp)
    unfold Context.operand Token.person
    rw [href]
    exact (Context.findPerson_eq_ok_iff hctx).2 ⟨⟨⟨k, hk, p, hp, hk⟩, htext⟩, rfl⟩
  | word kind letters =>
    have hmention : kind = .mention := ht.symm.trans hkind
    subst hmention
    exact absurd hl id
  | opening => exact absurd (ht.symm.trans hkind) (by decide)
  | closing => exact absurd (ht.symm.trans hkind) (by decide)

end

/-- **What is written is read.** Any text of a formula of people, however it is laid out, is read as
tokens from which the formula is built, so that it also has the same label. -/
theorem parse_build_of_prints {people : List Person} {tags : List Tag} (policy : EmptyTag)
    {f : Formula} {label : String} {ls : List Lexeme} {n : Nat} {lead text : Text}
    (hids : DistinctKeys (people.map Person.id))
    (hnames : ∀ p ∈ people, ∃ name, p.name = .str name ∧ isMentionable name = true)
    (hdistinct : (people.map Person.name).Nodup) (htagIds : ∀ g ∈ tags, g.id.key?.isSome = true)
    (htagNames : ∀ g ∈ tags, g.name.key?.isSome = true) (hlabel : f.label = .ok label)
    (hprints : f.Prints people ls) (hlead : lead.all Text.isBlank = true)
    (hlaid : Laid (Formula.wrap n ls) text) :
    ∃ names ctx tokens g, Names.of? people tags = some names ∧
      Context.of? people tags policy.name = .ok ctx ∧
      relationTokens (Entry.parse names (lead ++ text)) = .ok tokens ∧
      ctx.build tokens = .ok g ∧ g = f ∧ g.label = .ok label := by
  obtain ⟨ctx, hctx⟩ := Context.exists_of? policy hids.keyed_map htagIds
  have hnameKeys : ∀ p ∈ people, p.name.key?.isSome = true := by
    intro p hp
    obtain ⟨name, hname, -⟩ := hnames p hp
    rw [hname]
    rfl
  obtain ⟨names, hof⟩ := Names.exists_of? hnameKeys htagNames
  have hfind : ∀ p ∈ people, ∀ name, p.name = .str name →
      names.ref? name = some (.person p.id) := by
    intro p hp name hname
    exact ref?_of_nodup hof hdistinct hp hname
  have hpieces := Formula.forall_isPiece_wrap (hprints.forall_isPiece ⟨label, hlabel⟩) n
  have hknown : ∀ l ∈ Formula.wrap n ls, l.IsKnown names.ref? := by
    intro l hl
    have hpiece := hpieces l hl
    cases l with
    | mention name =>
      obtain ⟨p, hp, hname, -⟩ := hpiece
      obtain ⟨name', hname', hmentionable⟩ := hnames p hp
      cases hname.symm.trans hname'
      exact ⟨hmentionable, _, hfind p hp name hname⟩
    | word kind letters => exact hpiece
    | opening => trivial
    | closing => trivial
  obtain ⟨tokens, htokens, hread⟩ := exists_tokens_of_laid hlead hlaid hknown
  have hmentioned : ∀ p ∈ people, ∀ name, p.name = .str name → ∀ t : Token, t.kind = .mention →
      t.ref = names.ref? name → t.person = .person p.id := by
    intro p hp name hname t _ href
    unfold Token.person
    rw [href, hfind p hp name hname]
  obtain ⟨d, rfl, hformula⟩ :=
    Formula.disjunction_of_binding (hprints.derives hmentioned) n tokens hread
  refine ⟨names, ctx, d.tokens, d.formula Token.person, hof, hctx,
    relationTokens_eq_ok_iff.2 ⟨htokens, d.formExpr⟩, d.build_tokens ?_, hformula, hformula ▸ hlabel⟩
  intro t ht hkind
  obtain ⟨l, ⟨hl, hlt⟩⟩ := exists_of_mem_right ((List.forall₂_and_left _ _).2 ⟨hpieces, hread⟩) ht
  exact operand_of_isPiece hctx hfind hlt.1 hlt.2 hkind

/-- `NOT` before a disjunction in parentheses, in mixed case, with more blanks and parentheses than
are needed. -/
theorem parse_build_of_not_or :
    let people : List Person := [⟨.int 1, .str "Ann", []⟩, ⟨.int 2, .str "Bob", []⟩]
    let f : Formula := .and (.not (.or (.person (.int 1)) (.person (.int 2)))) (.person (.int 2))
    ∃ names ctx tokens, Names.of? people [] = some names ∧
      Context.of? people [] EmptyTag.error.name = .ok ctx ∧
      relationTokens (Entry.parse names " nOT( @Ann oR @Bob )And ((@Bob))") = .ok tokens ∧
      ctx.build tokens = .ok f := by
  intro people f
  have hids : DistinctKeys (people.map Person.id) := ⟨by decide, by decide⟩
  have hnames : ∀ p ∈ people, ∃ name, p.name = .str name ∧ isMentionable name = true := by
    have hann : isMentionable "Ann" = true := by decide
    have hbob : isMentionable "Bob" = true := by decide
    simp [people, hann, hbob]
  have hann : Formula.Prints people (.person (.int 1)) [.mention "Ann"] :=
    .person List.mem_cons_self rfl
  have hbob : Formula.Prints people (.person (.int 2)) [.mention "Bob"] :=
    .person (List.mem_cons_of_mem _ List.mem_cons_self) rfl
  have hor : Formula.Prints people (.or (.person (.int 1)) (.person (.int 2)))
      [.mention "Ann", .word .or "oR", .mention "Bob"] :=
    .or (m := 0) (n := 0) hann hbob (by decide) nofun
  have hnot : Formula.Prints people (.not (.or (.person (.int 1)) (.person (.int 2))))
      [.word .not "nOT", .opening, .mention "Ann", .word .or "oR", .mention "Bob", .closing] :=
    .not (n := 1) hor (by decide) fun _ => Nat.one_pos
  have hprints : Formula.Prints people f [.word .not "nOT", .opening, .mention "Ann", .word .or "oR",
      .mention "Bob", .closing, .word .and "And", .opening, .opening, .mention "Bob", .closing,
      .closing] :=
    .and (m := 0) (n := 2) hnot hbob (by decide) nofun nofun
  have hlaid : ∃ text, Laid (Formula.wrap 0 [.word .not "nOT", .opening, .mention "Ann",
      .word .or "oR", .mention "Bob", .closing, .word .and "And", .opening, .opening, .mention "Bob",
      .closing, .closing]) text ∧ text = "nOT( @Ann oR @Bob )And ((@Bob))" := by
    have hnone : ([] : Text).all Text.isBlank = true := rfl
    have hblank : (" " : Text).all Text.isBlank = true := by decide
    refine ⟨_, .cons hnone ?_ (.cons hblank ?_ (.cons hblank ?_ (.cons hblank ?_ (.cons hblank ?_
      (.cons hnone ?_ (.cons hblank ?_ (.cons hnone ?_ (.cons hnone ?_ (.cons hnone ?_
      (.cons hnone ?_ (.cons hnone ?_ .nil))))))))))), rfl⟩
    all_goals simp [Lexeme.isSolid, Text.ofString]
  obtain ⟨text, hlaid, rfl⟩ := hlaid
  have hblank : (" " : Text).all Text.isBlank = true := by decide
  have htags : ∀ g ∈ ([] : List Tag), g.id.key?.isSome = true ∧ g.name.key?.isSome = true := by simp
  have hone : Formula.idText (.int 1) = .ok "1" := by decide +kernel
  have htwo : Formula.idText (.int 2) = .ok "2" := by decide +kernel
  have hlabel : ∃ label, f.label = .ok label := by
    simp only [f, Formula.label, hone, htwo]
    exact ⟨_, rfl⟩
  obtain ⟨label, hlabel⟩ := hlabel
  obtain ⟨names, ctx, tokens, g, hof, hctx, htokens, hg, rfl, -⟩ := parse_build_of_prints .error hids
    hnames (by decide) (fun g hg => (htags g hg).1) (fun g hg => (htags g hg).2) hlabel hprints hblank
    hlaid
  exact ⟨names, ctx, tokens, hof, hctx, htokens, hg⟩

end BalancedTeams
