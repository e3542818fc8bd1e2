import Lark.Toolkit.Dsl
import Lark.Column.Exec.Ops

namespace Lark.Column.Biz.Dsl

open Lark.Base Lark.Toolkit.Dsl Lark.Column.Exec

def format (v : Double) : Except Exn String :=
  match v with
  | .num q =>
    if (⌊q⌋ : ℚ) = q then
      match v.toInt 64 with
      | some n => .ok (intToString n)
      | none => .error castUndefined
    else .ok (fixedToString q)
  | .inf s => .ok (if s then "-inf" else "inf")
  | .nan => .ok "nan"

inductive BinOp where
  | arith (op : ArithOp)
  | cmp (op : CmpOp)
  deriving DecidableEq

namespace BinOp

def ofSymbol (s : String) : Option BinOp :=
  if s = "*" then some (.arith .mul)
  else if s = "/" then some (.arith .div)
  else if s = "+" then some (.arith .add)
  else if s = "-" then some (.arith .sub)
  else if s = ">" then some (.cmp .gt)
  else if s = ">=" then some (.cmp .ge)
  else if s = "<" then some (.cmp .lt)
  else if s = "<=" then some (.cmp .le)
  else if s = "==" then some (.cmp .eq)
  else if s = "!=" then some (.cmp .neq)
  else none

def precedence : BinOp → Nat
  | arith .mul | arith .div => 10
  | arith .add | arith .sub => 5
  | cmp _ => 2

def baseName : BinOp → String
  | arith .add => "add"
  | arith .sub => "sub"
  | arith .mul => "mul"
  | arith .div => "div"
  | cmp .gt => "gt"
  | cmp .ge => "ge"
  | cmp .lt => "lt"
  | cmp .le => "le"
  | cmp .eq => "eq"
  | cmp .neq => "neq"

-- On exact values; `Term.folds` is the folding with every literal and every result rounded.
def fold (op : BinOp) (x y : Double) : Double :=
  match op with
  | arith .add => x + y
  | arith .sub => x - y
  | arith .mul => x * y
  | arith .div => if y.eq 0 then 0 else x / y
  | cmp op => if op.apply x y then 1 else 0

end BinOp

inductive Value where
  | literal (v : Double)
  | named (name : String)
  deriving DecidableEq

structure ParserState where
  lexer : Lexer
  ops : List OpSpec
  tmp : Nat

namespace ParserState

def withLexer (st : ParserState) (lx : Lexer) : ParserState := { st with lexer := lx }

def temp (st : ParserState) : String × ParserState :=
  ("@t" ++ toString st.tmp, { st with tmp := st.tmp + 1 })

def emit (st : ParserState) (spec : OpSpec) : ParserState := { st with ops := st.ops ++ [spec] }

end ParserState

def tempName (k : Nat) : String := "@t" ++ toString k

theorem tempName_inj {j k : Nat} (h : tempName j = tempName k) : j = k := by
  have hrepr : toString j = toString k := (String.append_right_inj _).1 h
  have hdigits : Nat.toDigits 10 j = Nat.toDigits 10 k := by
    simpa [Nat.repr] using congrArg String.toList hrepr
  rw [← Nat.ofDigitChars_ten_toDigits (n := j), hdigits, Nat.ofDigitChars_ten_toDigits]

def assign (lhs : String) (v : Value) (st : ParserState) : Except Exn ParserState :=
  match v with
  | .literal x => do
    let text ← format x
    .ok (st.emit ⟨"const", [], [lhs], [("value", text), ("size", "1")]⟩)
  | .named name =>
    if name = lhs then .ok st else .ok (st.emit ⟨"identity", [name], [lhs], []⟩)

def makeBinary (a b : Value) (op : BinOp) (st : ParserState) : Except Exn (Value × ParserState) :=
  match a, b with
  | .literal x, .literal y => .ok (.literal (op.fold x y), st)
  -- The scalar operation keeps the column on its left, whichever side the literal was on.
  | .literal x, .named b => do
    let (out, st) := st.temp
    let text ← format x
    .ok (.named out, st.emit ⟨op.baseName ++ "_scalar", [b], [out], [("scalar", text)]⟩)
  | .named a, .literal y => do
    let (out, st) := st.temp
    let text ← format y
    .ok (.named out, st.emit ⟨op.baseName ++ "_scalar", [a], [out], [("scalar", text)]⟩)
  | .named a, .named b =>
    let (out, st) := st.temp
    .ok (.named out, st.emit ⟨op.baseName, [a, b], [out], []⟩)

def makeNeg (v : Value) (st : ParserState) : Value × ParserState :=
  match v with
  | .literal x => (.literal (-x), st)
  | .named name =>
    let (out, st) := st.temp
    (.named out, st.emit ⟨"neg", [name], [out], []⟩)

def materialize (v : Value) (st : ParserState) : Except Exn (String × ParserState) :=
  match v with
  | .named name => .ok (name, st)
  | .literal x => do
    let (cname, st) := st.temp
    let text ← format x
    .ok (cname, st.emit ⟨"const", [], [cname], [("value", text), ("size", "1")]⟩)

def unaryFunctions : List String :=
  ["sum", "mean", "count", "max", "min", "stddev", "abs", "neg", "square", "sqrt", "exp", "log",
    "quantize", "dequantize"]

def expect (symbol what : String) (st : ParserState) : Except Exn ParserState := do
  let lx ← Parser.expectSymbol st.lexer symbol what
  .ok (st.withLexer lx)

mutual

def parseExpr : Nat → Nat → ParserState → Except Exn (Value × ParserState)
  | 0, _, _ => .error .fuel
  | fuel + 1, minPrec, st => do
    let (left, st) ← parsePrimary fuel st
    exprLoop fuel minPrec left st

def exprLoop : Nat → Nat → Value → ParserState → Except Exn (Value × ParserState)
  | 0, _, _, _ => .error .fuel
  | fuel + 1, minPrec, left, st => do
    let (t, lx) ← st.lexer.peek
    let st := st.withLexer lx
    if t.kind = .symbol then
      match BinOp.ofSymbol t.text with
      | none => .ok (left, st)
      | some op =>
        if op.precedence < minPrec then .ok (left, st)
        else do
          let (_, lx) ← Parser.consume st.lexer
          let (right, st) ← parseExpr fuel (op.precedence + 1) (st.withLexer lx)
          let (left, st) ← makeBinary left right op st
          exprLoop fuel minPrec left st
    else .ok (left, st)

def parsePrimary : Nat → ParserState → Except Exn (Value × ParserState)
  | 0, _ => .error .fuel
  | fuel + 1, st => do
    let (t, lx) ← Parser.consume st.lexer
    let st := st.withLexer lx
    match t.kind with
    | .number => .ok (.literal t.number, st)
    | .ident => do
      let (p, lx) ← st.lexer.peek
      let st := st.withLexer lx
      if p.kind = .symbol ∧ p.text = "(" then do
        let (_, lx) ← Parser.consume st.lexer
        parseCall fuel t.text (st.withLexer lx)
      else .ok (.named t.text, st)
    | .symbol =>
      if t.text = "-" then do
        let (v, st) ← parsePrimary fuel st
        .ok (makeNeg v st)
      else if t.text = "(" then do
        let (v, st) ← parseExpr fuel 0 st
        let st ← expect ")" "')'" st
        .ok (v, st)
      else Parser.fail st.lexer "dsl: unexpected token"
    | .eof => Parser.fail st.lexer "dsl: unexpected token"

def parseCall : Nat → String → ParserState → Except Exn (Value × ParserState)
  | 0, _, _ => .error .fuel
  | fuel + 1, fn, st => do
    let (out, st) := st.temp
    if fn = "select" then do
      let (mask, st) ← parseExpr fuel 0 st
      let st ← expect "," "','" st
      let (a, st) ← parseExpr fuel 0 st
      let st ← expect "," "','" st
      let (b, st) ← parseExpr fuel 0 st
      let st ← expect ")" "')'" st
      let (mask, st) ← materialize mask st
      let (a, st) ← materialize a st
      let (b, st) ← materialize b st
      .ok (.named out, st.emit ⟨"select", [mask, a, b], [out], []⟩)
    else if fn = "filter" ∨ fn = "dot" then do
      let (a, st) ← parseExpr fuel 0 st
      let st ← expect "," "','" st
      let (b, st) ← parseExpr fuel 0 st
      let st ← expect ")" "')'" st
      let (a, st) ← materialize a st
      let (b, st) ← materialize b st
      .ok (.named out, st.emit ⟨fn, [a, b], [out], []⟩)
    else if fn = "cast" then do
      let (a, st) ← parseExpr fuel 0 st
      let st ← expect "," "','" st
      let (dtype, lx) ← Parser.consume st.lexer
      let st := st.withLexer lx
      if dtype.kind ≠ .ident then Parser.fail st.lexer "dsl: cast expects a dtype name"
      else do
        let st ← expect ")" "')'" st
        let (a, st) ← materialize a st
        .ok (.named out, st.emit ⟨"cast", [a], [out], [("dtype", dtype.text)]⟩)
    else if unaryFunctions.contains fn then do
      let (a, st) ← parseExpr fuel 0 st
      let st ← expect ")" "')'" st
      let (a, st) ← materialize a st
      .ok (.named out, st.emit ⟨fn, [a], [out], []⟩)
    else Parser.fail st.lexer ("dsl: unknown function '" ++ fn ++ "'")

end

def parseStatement (fuel : Nat) (st : ParserState) : Except Exn ParserState := do
  let (lhs, lx) ← Parser.consume st.lexer
  let st := st.withLexer lx
  if lhs.kind ≠ .ident then Parser.fail st.lexer "dsl: statement must start with an identifier"
  else do
    let st ← expect "=" "'='" st
    let (v, st) ← parseExpr fuel 0 st
    assign lhs.text v st

def parseStatements : Nat → ParserState → Except Exn (List OpSpec)
  | 0, _ => .error .fuel
  | fuel + 1, st => do
    let (atEnd, lx) ← Parser.atEnd st.lexer
    let st := st.withLexer lx
    if atEnd then .ok st.ops
    else do
      let st ← parseStatement fuel st
      parseStatements fuel st

def exprSymbols : List Char := ['+', '-', '*', '/', '=', '(', ')', ',', '<', '>', '!']

def exprMulti : List (List Char) := [['>', '='], ['<', '='], ['=', '='], ['!', '=']]

def parseFuel (source : String) : Nat := 4 * source.toList.length + 8

def parse (source : String) : Except Exn (List OpSpec) :=
  parseStatements (parseFuel source) ⟨.make source exprSymbols exprMulti, [], 0⟩

end Lark.Column.Biz.Dsl
