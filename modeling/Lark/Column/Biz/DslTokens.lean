import Lark.Column.Biz.Dsl
import Lark.Toolkit.DslSyntax

namespace Lark.Column.Biz.Dsl

open Lark.Base Lark.Toolkit.Dsl Lark.Column.Exec

def BinOp.chars : BinOp → List Char
  | arith .mul => ['*']
  | arith .div => ['/']
  | arith .add => ['+']
  | arith .sub => ['-']
  | cmp .gt => ['>']
  | cmp .ge => ['>', '=']
  | cmp .lt => ['<']
  | cmp .le => ['<', '=']
  | cmp .eq => ['=', '=']
  | cmp .neq => ['!', '=']

theorem BinOp.ofSymbol_chars (op : BinOp) : BinOp.ofSymbol (String.ofList op.chars) = some op := by
  rcases op with op | op <;> cases op <;> decide

abbrev Renders := Rendering TrailingGap

def symbolTexts : List (List Char) :=
  [['='], ['('], [')'], ['*'], ['/'], ['+'], ['-'], ['>'], ['>', '='], ['<'], ['<', '='],
    ['=', '='], ['!', '='], [',']]

inductive TokOk : Tok → Prop
  | ident {name} (h : IsIdent name) : TokOk (.ident name)
  | numeral {int frac} (h : IsDecimal int frac)
      (hr : inDoubleRange (decimalValue int frac) = true) : TokOk (.numeral int frac)
  | symbol {text} (h : text ∈ symbolTexts) : TokOk (.symbol text)

def Stops (t : Tok) (rest : List Char) : Prop :=
  match t.kind with
  | .ident => ∀ c ∈ rest.head?, Lexer.isIdentChar c = false
  | .number => ∀ c ∈ rest.head?, Lexer.isNumberChar c = false
  | _ => rest.head? = some '=' → t.text ∉ [['='], ['<'], ['>']]

theorem tok_head_solid {t : Tok} (h : TokOk t) : ∃ c cs, t.text = c :: cs ∧ IsSolid c := by
  cases h with
  | ident h =>
    obtain ⟨c, cs, rfl, hc⟩ := h.start
    have := isIdentStart_toNat hc
    exact ⟨c, cs, rfl, isSolid_of_toNat (by omega)⟩
  | numeral h hr =>
    obtain ⟨c, cs, hb, hc, -⟩ := decimalChars_head h
    exact ⟨c, cs, hb, isSolid_numberChar hc⟩
  | symbol h =>
    fin_cases h
    all_goals exact ⟨_, _, rfl, by unfold IsSolid; decide⟩

theorem multi_find_pair {c : Char} (rest : List Char) (h : [c, '='] ∈ exprMulti) :
    (exprMulti.find? fun sym => sym.isPrefixOf (c :: '=' :: rest)) = some [c, '='] := by
  simp only [exprMulti, List.mem_cons, List.cons.injEq, and_true, List.not_mem_nil, or_false] at h
  rcases h with rfl | rfl | rfl | rfl <;> simp [exprMulti, List.isPrefixOf]

theorem multi_find_single {c : Char} {rest : List Char}
    (h : rest.head? = some '=' → [c] ∉ [['='], ['<'], ['>']]) (hc : c ≠ '!') :
    (exprMulti.find? fun sym => sym.isPrefixOf (c :: rest)) = none := by
  cases rest with
  | nil => simp [exprMulti, List.isPrefixOf]
  | cons d ds =>
    rcases eq_or_ne d '=' with rfl | hd
    · have hn := h rfl
      simp only [List.mem_cons, List.cons.injEq, and_true, List.not_mem_nil, or_false, not_or] at hn
      obtain ⟨h₁, h₂, h₃⟩ := hn
      simp [exprMulti, List.isPrefixOf, Ne.symm h₁, Ne.symm h₂, Ne.symm h₃, Ne.symm hc]
    · simp [exprMulti, List.isPrefixOf, Ne.symm hd]

theorem symbolTexts_head {text : List Char} (h : text ∈ symbolTexts) :
    ∃ c ∈ text.head?, (∀ cs, Lexer.isNumberStart (c :: cs) = false) ∧
      Lexer.isIdentStart c = false := by
  have hall : symbolTexts.all fun t => t.head?.any fun c =>
      (!c.isDigit && c != '.') && !Lexer.isIdentStart c := by decide
  obtain ⟨c, hc, hfree⟩ := (Option.any_eq_true _ _).1 (List.all_eq_true.1 hall text h)
  obtain ⟨⟨hd, hdot⟩, hid⟩ : (c.isDigit = false ∧ c ≠ '.') ∧ Lexer.isIdentStart c = false := by
    simpa using hfree
  exact ⟨c, hc, fun cs => by simp [Lexer.isNumberStart, hd, hdot], hid⟩

theorem symbolTexts_cases {text : List Char} (h : text ∈ symbolTexts) :
    (∃ c, text = [c] ∧ exprSymbols.contains c = true ∧ c ≠ '!') ∨
      ∃ c, text = [c, '='] ∧ [c, '='] ∈ exprMulti := by
  fin_cases h
  case «8» => exact .inr ⟨_, rfl, by decide⟩
  case «10» => exact .inr ⟨_, rfl, by decide⟩
  case «11» => exact .inr ⟨_, rfl, by decide⟩
  case «12» => exact .inr ⟨_, rfl, by decide⟩
  all_goals exact .inl ⟨_, rfl, by decide, by decide⟩

theorem lex_tok {lx : Lexer} {t : Tok} {g rest : List Char} (hsymbols : lx.symbols = exprSymbols)
    (hmulti : lx.multi = exprMulti) (ht : TokOk t) (hs : Stops t rest) (hg : Gap g)
    (hcur : lx.cursor.rest = g ++ t.text ++ rest) : Reads lx t rest := by
  obtain ⟨c, cs, htext, hsolid⟩ := tok_head_solid ht
  cases ht with
  | ident h => exact lex_ident h hs hg hcur
  | numeral h hr =>
    rename_i int frac
    obtain ⟨pos, line, col, hskip⟩ := skipSpace_gap hg htext hsolid hcur
    have htext : decimalChars int frac = c :: cs := htext
    have hnum := isNumberStart_decimal h rest
    have hall : ∀ d ∈ decimalChars int frac, Lexer.isNumberChar d = true := by
      intro d hd
      simpa [Lexer.isNumberChar] using decimalChars_mem h hd
    have htake := takeWhile_append_stop hall hs
    have hstod := stod_decimal false h (by simpa [signed] using hr)
    simp only [signChars, signed, Bool.false_eq_true, if_false, List.nil_append] at hstod
    rw [htext, List.cons_append] at htake hnum
    rw [htext] at hstod
    simp only [Tok.numeral, htext]
    refine lex_word hskip ?_
    simp only [Lexer.lex, hskip, hnum, if_true, htake, hstod, except_ok_bind]
  | symbol h =>
    rename_i text
    obtain ⟨d, hd, hnum, hid⟩ := symbolTexts_head h
    obtain rfl : text = c :: cs := htext
    obtain rfl : c = d := by simpa using hd
    refine lex_symbol hsolid (hnum _) hid ?_ hg hcur
    simp only [Toolkit.Dsl.Lexer.Scans, hmulti, hsymbols]
    rcases symbolTexts_cases h with ⟨d, hd, hmem, hne⟩ | ⟨d, hd, hmem⟩
    · obtain ⟨rfl, rfl⟩ : c = d ∧ cs = [] := by simpa using hd
      exact .inr ⟨multi_find_single (by simpa [Stops, Tok.symbol] using hs) hne, rfl, hmem⟩
    · obtain ⟨rfl, rfl⟩ : c = d ∧ cs = ['='] := by simpa using hd
      exact .inl (multi_find_pair rest hmem)

def Joinable (t t' : Tok) : Prop :=
  match t.kind with
  | .ident | .number => t'.kind = .symbol
  | _ => t'.text.head? = some '=' → t.text ∉ [['='], ['<'], ['>']]

theorem stops_of_blank {t : Tok} {rest : List Char} (h : ∀ c ∈ rest.head?, c.toNat ≤ 35 ∧ c ≠ '=') :
    Stops t rest := by
  unfold Stops
  split
  · intro c hc
    by_contra hi
    have := isIdentChar_toNat (by simpa using hi)
    have := (h c hc).1
    omega
  · intro c hc
    by_contra hi
    have := isNumberChar_toNat (by simpa using hi)
    have := (h c hc).1
    omega
  · intro he
    exact absurd rfl (h '=' he).2

theorem symbolTexts_blank {text : List Char} (h : text ∈ symbolTexts) :
    ∀ c ∈ text.head?, Lexer.isIdentChar c = false ∧ Lexer.isNumberChar c = false := by
  have hall : symbolTexts.all fun t => t.head?.all fun c =>
      !Lexer.isIdentChar c && !Lexer.isNumberChar c := by decide
  intro c hc
  have hfree := (Option.all_eq_true _ _).1 (List.all_eq_true.1 hall text h) c hc
  simpa using hfree

theorem stops_of_joinable {t t' : Tok} {rest : List Char} (h : Joinable t t') (ht' : TokOk t') :
    Stops t (t'.text ++ rest) := by
  obtain ⟨c, cs, htext, -⟩ := tok_head_solid ht'
  have hhead : (t'.text ++ rest).head? = t'.text.head? := by simp [htext]
  have hsym : t'.kind = .symbol → ∀ c ∈ t'.text.head?,
      Lexer.isIdentChar c = false ∧ Lexer.isNumberChar c = false := by
    intro hk
    cases ht' with
    | ident h => simp [Tok.ident] at hk
    | numeral h hr => simp [Tok.numeral] at hk
    | symbol hmem => exact symbolTexts_blank hmem
  cases hk : t.kind with
  | ident =>
    simp only [Joinable, hk] at h
    simp only [Stops, hk, hhead]
    exact fun c hc => (hsym h c hc).1
  | number =>
    simp only [Joinable, hk] at h
    simp only [Stops, hk, hhead]
    exact fun c hc => (hsym h c hc).2
  | symbol =>
    simp only [Joinable, hk] at h
    simpa only [Stops, hk, hhead] using h
  | eof =>
    simp only [Joinable, hk] at h
    simpa only [Stops, hk, hhead] using h

def exprLanguage : Language where
  symbols := exprSymbols
  multi := exprMulti
  Ok := TokOk
  Stops := Stops
  Joinable := Joinable
  lex := lex_tok
  stops_blank := stops_of_blank
  stops_tok := stops_of_joinable

abbrev Ready := Toolkit.Dsl.Ready exprLanguage TrailingGap

theorem peek_cons {lx : Lexer} {t : Tok} {ts : List Tok} (h : Ready lx (t :: ts)) :
    ∃ token lx', lx.peek = .ok (token, lx') ∧ Matches token t ∧ lx'.peeked = some token ∧
      Ready { lx' with peeked := none } ts :=
  Toolkit.Dsl.Ready.peek_cons h

theorem peek_nil {lx : Lexer} (h : Ready lx []) :
    ∃ token lx', lx.peek = .ok (token, lx') ∧ token.kind = .eof ∧ Ready lx' [] :=
  Toolkit.Dsl.Ready.peek_nil h

theorem consume_cons {lx : Lexer} {t : Tok} {ts : List Tok} (h : Ready lx (t :: ts)) :
    ∃ token lx', Parser.consume lx = .ok (token, lx') ∧ Matches token t ∧ Ready lx' ts :=
  Toolkit.Dsl.Ready.consume_cons h

theorem ready_peeked {lx lx' : Lexer} {t : Tok} {ts : List Tok} {token : Token}
    (h : Ready lx (t :: ts)) (hp : lx.peek = .ok (token, lx')) : Ready lx' (t :: ts) :=
  Toolkit.Dsl.Ready.peeked h hp

theorem expect_cons (st : ParserState) {text : List Char} (symbol what : String) {ts : List Tok}
    (h : Ready st.lexer (.symbol text :: ts)) (hs : symbol = String.ofList text) :
    ∃ lx', expect symbol what st = .ok (st.withLexer lx') ∧ Ready lx' ts := by
  obtain ⟨token, lx', hpeek, hm, hp, hr⟩ := peek_cons h
  have hk : token.kind = .symbol := hm.kind
  have ht : token.text = String.ofList text := hm.text
  refine ⟨{ lx' with peeked := none }, ?_, hr⟩
  have hnext : lx'.next = .ok (token, { lx' with peeked := none }) := by
    simp [Lexer.next, Lexer.peek, hp]
  simp [expect, Parser.expectSymbol, hpeek, hk, ht, hs, hnext]

theorem chars_mem (op : BinOp) : op.chars ∈ symbolTexts := by
  rcases op with op | op <;> cases op <;> decide

def IsFirst (t : Tok) : Prop := t.text.head? ≠ some '='

def IsLast (t : Tok) : Prop := t.kind = .ident ∨ t.kind = .number ∨ t = .symbol [')']

theorem joinable_last {t : Tok} {text : List Char} (h : IsLast t) : Joinable t (.symbol text) := by
  rcases h with h | h | rfl
  · simp [Joinable, h, Tok.symbol]
  · simp [Joinable, h, Tok.symbol]
  · simp [Joinable, Tok.symbol]

theorem joinable_first {t : Tok} {text : List Char} (h : IsFirst t) : Joinable (.symbol text) t := by
  simp only [Joinable, Tok.symbol]
  exact fun he => absurd he h

theorem ident_isFirst {name : List Char} (h : IsIdent name) : IsFirst (.ident name) := by
  obtain ⟨c, cs, rfl, hc⟩ := h.start
  rintro he
  obtain rfl : c = '=' := by simpa [Tok.ident] using he
  exact absurd (isIdentStart_toNat hc) (by decide)

structure Chained (ts : List Tok) : Prop where
  chain : ts.IsChain Joinable
  first : ∃ t ∈ ts.head?, IsFirst t
  last : ∃ t ∈ ts.getLast?, IsLast t

namespace Chained

variable {ts ts' : List Tok} {text : List Char}

theorem single {t : Tok} (hf : IsFirst t) (hl : IsLast t) : Chained [t] :=
  ⟨by simp, ⟨t, rfl, hf⟩, t, rfl, hl⟩

theorem cons_symbol (h : Chained ts) : (Tok.symbol text :: ts).IsChain Joinable := by
  obtain ⟨t, ht, hf⟩ := h.first
  refine List.isChain_cons.2 ⟨fun t' ht' => ?_, h.chain⟩
  obtain rfl := Option.mem_unique ht ht'
  exact joinable_first hf

theorem append_symbol (h : Chained ts) (hts : (Tok.symbol text :: ts').IsChain Joinable) :
    (ts ++ Tok.symbol text :: ts').IsChain Joinable := by
  obtain ⟨t, ht, hl⟩ := h.last
  refine List.isChain_append.2 ⟨h.chain, hts, fun x hx y hy => ?_⟩
  obtain rfl := Option.mem_unique ht hx
  obtain rfl : Tok.symbol text = y := by simpa using hy
  exact joinable_last hl

theorem cons (hf : IsFirst (.symbol text)) (h : Chained ts) : Chained (.symbol text :: ts) := by
  obtain ⟨t, ht, hl⟩ := h.last
  refine ⟨h.cons_symbol, ⟨_, rfl, hf⟩, t, ?_, hl⟩
  simp only [List.getLast?_cons, Option.mem_def] at ht ⊢
  simp [ht]

theorem join (h : Chained ts) (h' : Chained ts') : Chained (ts ++ .symbol text :: ts') := by
  obtain ⟨t, ht, hf⟩ := h.first
  obtain ⟨t', ht', hl⟩ := h'.last
  refine ⟨h.append_symbol h'.cons_symbol, ⟨t, ?_, hf⟩, t', ?_, hl⟩
  · simp only [List.head?_append, Option.mem_def] at ht ⊢
    simp [ht]
  · simp only [List.getLast?_append, List.getLast?_cons, Option.mem_def] at ht' ⊢
    simp [ht']

theorem close (h : Chained ts) : Chained (ts ++ [.symbol [')']]) := by
  obtain ⟨t, ht, hf⟩ := h.first
  refine ⟨h.append_symbol (by simp), ⟨t, ?_, hf⟩, .symbol [')'], by simp, .inr (.inr rfl)⟩
  simp only [List.head?_append, Option.mem_def] at ht ⊢
  simp [ht]

end Chained

theorem numeral_isFirst {int : List Char} {frac : Option (List Char)} (h : IsDecimal int frac) :
    IsFirst (.numeral int frac) := by
  obtain ⟨c, cs, hb, hc, -⟩ := decimalChars_head h
  simp only [IsFirst, Tok.numeral, hb, List.head?_cons, ne_eq, Option.some.injEq]
  rintro rfl
  rcases hc with hc | hc <;> simp [Char.isDigit] at hc

theorem chained_ident {name : List Char} (h : IsIdent name) : Chained [.ident name] :=
  .single (ident_isFirst h) (.inl rfl)

theorem chained_numeral {int : List Char} {frac : Option (List Char)} (h : IsDecimal int frac) :
    Chained [.numeral int frac] :=
  .single (numeral_isFirst h) (.inr (.inl rfl))

end Lark.Column.Biz.Dsl
