import Lark.Column.Biz.DslGrammar

namespace Lark.Column.Biz.Dsl

open Lark.Base Lark.Toolkit.Dsl Lark.Column.Exec

inductive Expr where
  | col (name : List Char)
  | lit (int : List Char) (frac : Option (List Char))
  | neg (e : Expr)
  | paren (e : Expr)
  | bin (op : BinOp) (l r : Expr)

namespace Expr

def toks : Expr → List Tok
  | col name => [.ident name]
  | lit int frac => [.numeral int frac]
  | neg e => .symbol ['-'] :: e.toks
  | paren e => .symbol ['('] :: (e.toks ++ [.symbol [')']])
  | bin op l r => l.toks ++ .symbol op.chars :: r.toks

def level : Expr → Nat
  | bin op _ _ => op.precedence
  | _ => 100

-- What the grammar builds: the operand of a minus is a primary, binary operators associate to the
-- left, and every other grouping is written as parentheses.
def WellFormed : Expr → Prop
  | col name => IsIdent name
  | lit int frac => IsDecimal int frac
  | neg e => e.WellFormed ∧ e.level = 100
  | paren e => e.WellFormed
  | bin op l r => l.WellFormed ∧ r.WellFormed ∧ op.precedence ≤ l.level ∧ op.precedence < r.level

def InRange : Expr → Prop
  | col _ => True
  | lit int frac => inDoubleRange (decimalValue int frac) = true
  | neg e => e.InRange
  | paren e => e.InRange
  | bin _ l r => l.InRange ∧ r.InRange

end Expr

def Expr.gen : Expr → ParserState → Except Exn (Value × ParserState)
  | col name, st => .ok (.named (String.ofList name), st)
  | lit int frac, st => .ok (.literal (.num (decimalValue int frac)), st)
  | neg e, st => do
    let (v, st) ← e.gen st
    .ok (makeNeg v st)
  | paren e, st => e.gen st
  | bin op l r, st => do
    let (a, st) ← l.gen st
    let (b, st) ← r.gen st
    makeBinary a b op st

def statementToks (v : List Char) (e : Expr) : List Tok := .ident v :: .symbol ['='] :: e.toks

def Expr.toTerm : Expr → Term
  | col name => .col name
  | lit int frac => .lit int frac
  | neg e => .neg e.toTerm
  | paren e => .paren e.toTerm
  | bin op l r => .bin op l.toTerm r.toTerm

theorem toks_toTerm (e : Expr) : e.toTerm.toks = e.toks := by
  induction e with
  | col name => rfl
  | lit int frac => rfl
  | neg e ih => simp [Expr.toTerm, Term.toks, Expr.toks, ih]
  | paren e ih => simp [Expr.toTerm, Term.toks, Expr.toks, close, ih]
  | bin op l r ihl ihr => simp [Expr.toTerm, Term.toks, Expr.toks, ihl, ihr]

theorem level_toTerm (e : Expr) : e.toTerm.level = e.level := by
  cases e <;> rfl

theorem wellFormed_toTerm {e : Expr} (h : e.WellFormed) (hr : e.InRange) :
    e.toTerm.WellFormed := by
  induction e with
  | col name => exact h
  | lit int frac => exact ⟨h, hr⟩
  | neg e ih => exact ⟨ih h.1 hr, (level_toTerm e).trans h.2⟩
  | paren e ih => exact ih h hr
  | bin op l r ihl ihr =>
    obtain ⟨hl, hr', hlp, hrp⟩ := h
    refine ⟨ihl hl hr.1, ihr hr' hr.2, ?_, ?_⟩
    · rwa [level_toTerm]
    · rwa [level_toTerm]

theorem gen_toTerm (e : Expr) (st : ParserState) : e.toTerm.gen st = e.gen st := by
  induction e generalizing st with
  | col name => rfl
  | lit int frac => rfl
  | neg e ih => simp only [Expr.toTerm, Term.gen, Expr.gen, ih]
  | paren e ih => exact ih st
  | bin op l r ihl ihr => simp only [Expr.toTerm, Term.gen, Expr.gen, ihl, ihr]

theorem rendersProgram_single {v : List Char} {e : Expr} {source : List Char}
    (h : Renders ((statementToks v e).map Tok.text) source) :
    RendersProgram [⟨v, e.toTerm⟩] source := by
  obtain ⟨rest, hr, hrest⟩ := h.split
  have htoks : Statement.toks ⟨v, e.toTerm⟩ = statementToks v e := by
    simp only [Statement.toks, statementToks, toks_toTerm]
  rw [← htoks] at hr
  exact .statement hr hrest.blank (.done hrest)

theorem parse_statement {v : List Char} {e : Expr} {source : List Char} (hv : IsIdent v)
    (he : e.WellFormed) (hr : e.InRange)
    (hs : Renders ((statementToks v e).map Tok.text) source) {val : Value} {st st' : ParserState}
    (hg : e.gen ⟨.make (String.ofList source) exprSymbols exprMulti, [], 0⟩ = .ok (val, st))
    (ha : assign (String.ofList v) val st = .ok st') :
    parse (String.ofList source) = .ok st'.ops := by
  have hwf : ∀ s ∈ [Statement.mk v e.toTerm], s.WellFormed := by
    simpa using Statement.WellFormed.mk hv (wellFormed_toTerm he hr)
  rw [parse_program (rendersProgram_single hs) hwf (.make (String.ofList source) exprSymbols exprMulti)]
  simp only [genProgram, List.foldlM_cons, List.foldlM_nil, Statement.gen, gen_toTerm, hg,
    except_ok_bind, ha]
  rfl

end Lark.Column.Biz.Dsl
