import Lark.Column.Biz.DslGrammar

namespace Lark.Column.Biz.Dsl

open Lark.Base Lark.Toolkit.Dsl Lark.Column.Exec

structure Ident where
  chars : List Char
  valid : IsIdent chars

structure FunctionName (known : List String) extends Ident where
  mem : String.ofList chars ∈ known

inductive Tree where
  | col (name : Ident)
  | lit (l : Literal)
  | neg (e : Tree)
  | bin (op : BinOp) (l r : Tree)
  | call (fn : FunctionName unaryFunctions) (a : Tree)
  | pair (fn : FunctionName ["filter", "dot"]) (a b : Tree)
  | select (m a b : Tree)
  | cast (a : Tree) (dtype : Ident)

def grouped (p : Nat) (t : Term) : Term := if t.level < p then .paren t else t

namespace Tree

def minimal : Tree → Term
  | col name => .col name.chars
  | lit l => l.term
  | neg e => .neg (grouped 100 e.minimal)
  | bin op l r =>
    .bin op (grouped op.precedence l.minimal) (grouped (op.precedence + 1) r.minimal)
  | call fn a => .call fn.chars a.minimal
  | pair fn a b => .pair fn.chars a.minimal b.minimal
  | select m a b => .select m.minimal a.minimal b.minimal
  | cast a dtype => .cast a.minimal dtype.chars

def full : Tree → Term
  | col name => .paren (.col name.chars)
  | lit l => .paren l.term
  | neg e => .paren (.neg e.full)
  | bin op l r => .paren (.bin op l.full r.full)
  | call fn a => .paren (.call fn.chars a.full)
  | pair fn a b => .paren (.pair fn.chars a.full b.full)
  | select m a b => .paren (.select m.full a.full b.full)
  | cast a dtype => .paren (.cast a.full dtype.chars)

inductive Prints : Tree → Term → Prop
  | paren {e t} (h : Prints e t) : Prints e (.paren t)
  | col (name) : Prints (.col name) (.col name.chars)
  | lit (l) : Prints (.lit l) l.term
  | neg {e t} (h : Prints e t) : Prints (.neg e) (.neg t)
  | bin {op l r t u} (hl : Prints l t) (hr : Prints r u) : Prints (.bin op l r) (.bin op t u)
  | call {fn a t} (h : Prints a t) : Prints (.call fn a) (.call fn.chars t)
  | pair {fn a b t u} (ha : Prints a t) (hb : Prints b u) :
      Prints (.pair fn a b) (.pair fn.chars t u)
  | select {m a b t u w} (hm : Prints m t) (ha : Prints a u) (hb : Prints b w) :
      Prints (.select m a b) (.select t u w)
  | cast {a t dtype} (h : Prints a t) : Prints (.cast a dtype) (.cast t dtype.chars)

end Tree

def Term.parens : Term → Nat
  | col _ => 0
  | lit _ _ => 0
  | neg e => e.parens
  | paren e => e.parens + 1
  | bin _ l r => l.parens + r.parens
  | call _ a => a.parens
  | pair _ a b => a.parens + b.parens
  | select m a b => m.parens + a.parens + b.parens
  | cast a _ => a.parens

theorem grouped_level {p : Nat} (hp : p ≤ 100) (t : Term) : p ≤ (grouped p t).level := by
  unfold grouped
  split_ifs with h
  · exact hp
  · exact not_lt.1 h

theorem grouped_wellFormed {t : Term} (p : Nat) (h : t.WellFormed) :
    (grouped p t).WellFormed := by
  unfold grouped
  split_ifs
  · exact h
  · exact h

theorem precedence_lt (op : BinOp) : op.precedence < 100 := by
  rcases op with op | op <;> cases op <;> decide

theorem level_le (t : Term) : t.level ≤ 100 := by
  cases t with
  | bin op l r => exact (precedence_lt op).le
  | _ => exact le_rfl

namespace Tree

theorem Prints.grouped {e : Tree} {t : Term} (p : Nat) (h : Prints e t) :
    Prints e (grouped p t) := by
  unfold Dsl.grouped
  split_ifs
  · exact .paren h
  · exact h

theorem prints_minimal (e : Tree) : Prints e e.minimal := by
  induction e with
  | col name => exact .col name
  | lit l => exact .lit l
  | neg e ih => exact .neg (ih.grouped 100)
  | bin op l r ihl ihr => exact .bin (ihl.grouped _) (ihr.grouped _)
  | call fn a ih => exact .call ih
  | pair fn a b iha ihb => exact .pair iha ihb
  | select m a b ihm iha ihb => exact .select ihm iha ihb
  | cast a dtype ih => exact .cast ih

theorem prints_full (e : Tree) : Prints e e.full := by
  induction e with
  | col name => exact .paren (.col name)
  | lit l => exact .paren (.lit l)
  | neg e ih => exact .paren (.neg ih)
  | bin op l r ihl ihr => exact .paren (.bin ihl ihr)
  | call fn a ih => exact .paren (.call ih)
  | pair fn a b iha ihb => exact .paren (.pair iha ihb)
  | select m a b ihm iha ihb => exact .paren (.select ihm iha ihb)
  | cast a dtype ih => exact .paren (.cast ih)

theorem minimal_wellFormed (e : Tree) : e.minimal.WellFormed := by
  induction e with
  | col name => exact name.valid
  | lit l => exact l.term_wellFormed
  | neg e ih =>
    exact ⟨grouped_wellFormed 100 ih, le_antisymm (level_le _) (grouped_level le_rfl _)⟩
  | bin op l r ihl ihr =>
    have hp := precedence_lt op
    exact ⟨grouped_wellFormed _ ihl, grouped_wellFormed _ ihr, grouped_level hp.le _,
      grouped_level (Nat.succ_le_of_lt hp) _⟩
  | call fn a ih => exact ⟨fn.valid, fn.mem, ih⟩
  | pair fn a b iha ihb => exact ⟨fn.valid, fn.mem, iha, ihb⟩
  | select m a b ihm iha ihb => exact ⟨ihm, iha, ihb⟩
  | cast a dtype ih => exact ⟨ih, dtype.valid⟩

theorem full_level (e : Tree) : e.full.level = 100 := by
  cases e <;> rfl

theorem full_wellFormed (e : Tree) : e.full.WellFormed := by
  induction e with
  | col name => exact name.valid
  | lit l => exact l.term_wellFormed
  | neg e ih => exact ⟨ih, full_level e⟩
  | bin op l r ihl ihr =>
    have hp := precedence_lt op
    refine ⟨ihl, ihr, ?_, ?_⟩
    · rw [full_level]
      exact hp.le
    · rw [full_level]
      exact hp
  | call fn a ih => exact ⟨fn.valid, fn.mem, ih⟩
  | pair fn a b iha ihb => exact ⟨fn.valid, fn.mem, iha, ihb⟩
  | select m a b ihm iha ihb => exact ⟨ihm, iha, ihb⟩
  | cast a dtype ih => exact ⟨ih, dtype.valid⟩

theorem gen_grouped (p : Nat) (t : Term) (st : ParserState) : (grouped p t).gen st = t.gen st := by
  unfold grouped
  split_ifs
  · rfl
  · rfl

theorem Prints.gen_eq {e : Tree} {t : Term} (h : Prints e t) (st : ParserState) :
    t.gen st = e.minimal.gen st := by
  induction h generalizing st with
  | paren _ ih => exact ih st
  | col name => rfl
  | lit l => rfl
  | neg _ ih => simp only [minimal, Term.gen, gen_grouped, ih]
  | bin _ _ ihl ihr => simp only [minimal, Term.gen, gen_grouped, ihl, ihr]
  | call _ ih => simp only [minimal, Term.gen, ih]
  | pair _ _ iha ihb => simp only [minimal, Term.gen, iha, ihb]
  | select _ _ _ ihm iha ihb => simp only [minimal, Term.gen, ihm, iha, ihb]
  | cast _ ih => simp only [minimal, Term.gen, ih]

theorem Prints.level_eq {e : Tree} {t : Term} (h : Prints e t) :
    e.minimal.level = t.level ∨ ∃ u, t = .paren u := by
  cases h with
  | paren h => exact .inr ⟨_, rfl⟩
  | _ => exact .inl rfl

theorem parens_grouped_le {e : Tree} {t : Term} {p : Nat} (h : Prints e t) (hp : p ≤ t.level)
    (hle : e.minimal.parens ≤ t.parens)
    (hparen : ∀ u, t = .paren u → e.minimal.parens ≤ u.parens) :
    (grouped p e.minimal).parens ≤ t.parens := by
  unfold grouped
  split_ifs with hlt
  · rcases h.level_eq with hlevel | ⟨u, rfl⟩
    · omega
    · exact Nat.succ_le_succ (hparen u rfl)
  · exact hle

theorem Prints.parens_le {e : Tree} {t : Term} (h : Prints e t) (hwf : t.WellFormed) :
    e.minimal.parens ≤ t.parens ∧ ∀ u, t = .paren u → e.minimal.parens ≤ u.parens := by
  induction h with
  | paren _ ih =>
    have hle := (ih hwf).1
    refine ⟨Nat.le_succ_of_le hle, ?_⟩
    rintro u ⟨⟩
    exact hle
  | col name => exact ⟨le_rfl, by simp⟩
  | lit l => exact ⟨le_rfl, by simp [Literal.term]⟩
  | neg h ih =>
    have hle := parens_grouped_le h hwf.2.ge (ih hwf.1).1 (ih hwf.1).2
    exact ⟨hle, by simp⟩
  | bin hl hr ihl ihr =>
    obtain ⟨hwl, hwr, hlp, hrp⟩ := hwf
    have hleft := parens_grouped_le hl hlp (ihl hwl).1 (ihl hwl).2
    have hright := parens_grouped_le hr hrp (ihr hwr).1 (ihr hwr).2
    exact ⟨Nat.add_le_add hleft hright, by simp⟩
  | call _ ih => exact ⟨(ih hwf.2.2).1, by simp⟩
  | pair _ _ iha ihb =>
    exact ⟨Nat.add_le_add (iha hwf.2.2.1).1 (ihb hwf.2.2.2).1, by simp⟩
  | select _ _ _ ihm iha ihb =>
    have hfront := Nat.add_le_add (ihm hwf.1).1 (iha hwf.2.1).1
    exact ⟨Nat.add_le_add hfront (ihb hwf.2.2).1, by simp⟩
  | cast _ ih => exact ⟨(ih hwf.1).1, by simp⟩

end Tree

def assignmentTexts (v : Ident) (t : Term) : List (List Char) :=
  (Statement.mk v.chars t).toks.map Tok.text

theorem parse_assignment (v : Ident) {e : Tree} {t : Term} (ht : e.Prints t) (hwf : t.WellFormed)
    {source : List Char} (h : Renders (assignmentTexts v t) source) (lx : Lexer) :
    parse (String.ofList source) =
      ((Statement.mk v.chars e.minimal).gen ⟨lx, [], 0⟩).map ParserState.ops := by
  obtain ⟨rest, hr, hrest⟩ := h.split
  have hprog : RendersProgram [⟨v.chars, t⟩] source := .statement hr hrest.blank (.done hrest)
  have hok : ∀ s ∈ [Statement.mk v.chars t], s.WellFormed := by
    simpa using Statement.WellFormed.mk v.valid hwf
  rw [parse_program hprog hok lx]
  simp only [genProgram, List.foldlM_cons, List.foldlM_nil, Statement.gen, ht.gen_eq, bind_pure]

theorem parentheses_only_group (v : Ident) (e : Tree) :
    (e.Prints e.minimal ∧ e.minimal.WellFormed ∧
        ∀ t, e.Prints t → t.WellFormed → e.minimal.parens ≤ t.parens) ∧
      ∀ source source', Renders (assignmentTexts v e.minimal) source →
        Renders (assignmentTexts v e.full) source' →
        parse (String.ofList source) = parse (String.ofList source') := by
  have hfewest := fun t (ht : e.Prints t) hwf => (ht.parens_le hwf).1
  refine ⟨⟨e.prints_minimal, e.minimal_wellFormed, hfewest⟩, fun source source' h h' => ?_⟩
  have lx : Lexer := .make "" [] []
  rw [parse_assignment v e.prints_minimal e.minimal_wellFormed h lx,
    parse_assignment v e.prints_full e.full_wellFormed h' lx]

theorem renders_spaced (ts : List (List Char)) : Renders ts (spaced ts) := by
  induction ts with
  | nil => exact .done (.gap .nil)
  | cons t ts ih => exact .tok (.space rfl .nil) ih

def letter (c : Char) (h : Lexer.isIdentStart c = true) : Ident := ⟨[c], isIdent_letter h⟩

def numeralTwo : Literal :=
  ⟨['2'], none, ⟨List.all_eq_true.mp rfl, List.all_eq_true.mp rfl, by decide⟩, by decide +kernel⟩

def sample : Tree :=
  .bin (.arith .sub) (.col (letter 'a' rfl))
    (.bin (.arith .add) (.neg (.col (letter 'b' rfl))) (.lit numeralTwo))

theorem parentheses_only_group_sample :
    parse " v = a - ( - b + 2 )" = parse " v = ( ( a ) - ( ( - ( b ) ) + ( 2 ) ) )" :=
  (parentheses_only_group (letter 'v' rfl) sample).2 _ _ (renders_spaced _) (renders_spaced _)

end Lark.Column.Biz.Dsl
