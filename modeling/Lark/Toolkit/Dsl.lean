import Lark.Base.Strings
import Mathlib.Data.List.Sort

namespace Lark.Toolkit.Dsl

open Lark.Base

inductive TokenKind where
  | ident
  | number
  | symbol
  | eof
  deriving DecidableEq

structure Token where
  kind : TokenKind
  text : String
  number : Double
  offset : Nat
  line : Nat
  col : Nat

-- A source is its list of bytes, each a `Char`; `rest` is what `pos` has not passed yet.
structure Cursor where
  rest : List Char
  pos : Nat
  line : Nat
  col : Nat

structure Lexer where
  symbols : List Char
  multi : List (List Char)
  cursor : Cursor
  peeked : Option Token

def Cursor.start (source : List Char) : Cursor := ⟨source, 0, 1, 1⟩

def Cursor.advance (cur : Cursor) (n : Nat) : Cursor :=
  ⟨cur.rest.drop n, cur.pos + n, cur.line, cur.col + n⟩

namespace Lexer

def make (source : String) (symbols : List Char) (multi : List (List Char)) : Lexer where
  symbols := symbols
  multi := multi.insertionSort fun a b => b.length ≤ a.length
  cursor := .start source.toList
  peeked := none

-- The two nested loops of SkipSpace as one: `comment` is set inside the inner loop.
def skip (comment : Bool) : List Char → Nat → Nat → Nat → Cursor
  | [], pos, line, col => ⟨[], pos, line, col⟩
  | c :: cs, pos, line, col =>
    if comment && c != '\n' then skip true cs (pos + 1) line (col + 1)
    else if c = '#' then skip true cs (pos + 1) line (col + 1)
    else if isSpace c then
      if c = '\n' then skip false cs (pos + 1) (line + 1) 1
      else skip false cs (pos + 1) line (col + 1)
    else ⟨c :: cs, pos, line, col⟩

def skipSpace (cur : Cursor) : Cursor := skip false cur.rest cur.pos cur.line cur.col

def isNumberStart : List Char → Bool
  | c :: cs => c.isDigit || (c = '.' && cs.head?.any Char.isDigit)
  | [] => false

def isNumberChar (c : Char) : Bool := c.isDigit || c = '.'

def isIdentStart (c : Char) : Bool := c.isAlpha || c = '_'

def isIdentChar (c : Char) : Bool := c.isAlphanum || c = '_'

def lex (lx : Lexer) : Except Exn (Token × Lexer) :=
  let cur := skipSpace lx.cursor
  let emit (kind : TokenKind) (text : List Char) (number : Double) : Token × Lexer :=
    (⟨kind, String.ofList text, number, cur.pos, cur.line, cur.col⟩,
      { lx with cursor := cur.advance text.length })
  match cur.rest with
  | [] => .ok (emit .eof [] 0)
  | c :: cs =>
    if isNumberStart (c :: cs) then do
      let text := (c :: cs).takeWhile isNumberChar
      let number ← stod (String.ofList text)
      .ok (emit .number text number)
    else if isIdentStart c then .ok (emit .ident ((c :: cs).takeWhile isIdentChar) 0)
    else
      match lx.multi.find? fun sym => sym.isPrefixOf (c :: cs) with
      | some sym => .ok (emit .symbol sym 0)
      | none =>
        if lx.symbols.contains c then .ok (emit .symbol [c] 0)
        else .error (.dslError ("unexpected character '" ++ String.ofList [c] ++ "'") cur.line cur.col)

def peek (lx : Lexer) : Except Exn (Token × Lexer) :=
  match lx.peeked with
  | some t => .ok (t, lx)
  | none => do
    let (t, lx) ← lx.lex
    .ok (t, { lx with peeked := some t })

def next (lx : Lexer) : Except Exn (Token × Lexer) := do
  let (t, lx) ← lx.peek
  .ok (t, { lx with peeked := none })

end Lexer

namespace Parser

def consume (lx : Lexer) : Except Exn (Token × Lexer) := lx.next

def fail {α : Type} (lx : Lexer) (message : String) : Except Exn α :=
  match lx.peek with
  | .ok (t, _) => .error (.dslError message t.line t.col)
  | .error _ => .error (.dslError message 0 0)

def expectSymbol (lx : Lexer) (symbol what : String) : Except Exn Lexer := do
  let (t, lx) ← lx.peek
  if t.kind ≠ .symbol ∨ t.text ≠ symbol then fail lx ("expected " ++ what)
  else
    let (_, lx) ← lx.next
    .ok lx

def matchSymbol (lx : Lexer) (symbol : String) : Except Exn (Bool × Lexer) := do
  let (t, lx) ← lx.peek
  if t.kind = .symbol ∧ t.text = symbol then
    let (_, lx) ← lx.next
    .ok (true, lx)
  else .ok (false, lx)

def expectToken (lx : Lexer) (kind : TokenKind) (what : String) : Except Exn (Token × Lexer) := do
  let (t, lx) ← lx.peek
  if t.kind ≠ kind then fail lx ("expected " ++ what)
  else
    let (_, lx) ← lx.next
    .ok (t, lx)

def atEnd (lx : Lexer) : Except Exn (Bool × Lexer) := do
  let (t, lx) ← lx.peek
  .ok (t.kind = .eof, lx)

end Parser

end Lark.Toolkit.Dsl
