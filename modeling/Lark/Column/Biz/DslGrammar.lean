import Lark.Column.Biz.DslTokens

namespace Lark.Column.Biz.Dsl

open Lark.Base Lark.Toolkit.Dsl Lark.Column.Exec

inductive Term where
  | col (name : List Char)
  | lit (int : List Char) (frac : Option (List Char))
  | neg (e : Term)
  | paren (e : Term)
  | bin (op : BinOp) (l r : Term)
  | call (fn : List Char) (a : Term)
  | pair (fn : List Char) (a b : Term)
  | select (m a b : Term)
  | cast (a : Term) (dtype : List Char)

def selectName : List Char := ['s', 'e', 'l', 'e', 'c', 't']

def castName : List Char := ['c', 'a', 's', 't']

def openCall (fn : List Char) (ts : List Tok) : List Tok := .ident fn :: .symbol ['('] :: ts

def comma (ts : List Tok) : List Tok := .symbol [','] :: ts

def close : List Tok := [.symbol [')']]

namespace Term

def toks : Term → List Tok
  | col name => [.ident name]
  | lit int frac => [.numeral int frac]
  | neg e => .symbol ['-'] :: e.toks
  | paren e => .symbol ['('] :: (e.toks ++ close)
  | bin op l r => l.toks ++ .symbol op.chars :: r.toks
  | call fn a => openCall fn (a.toks ++ close)
  | pair fn a b => openCall fn (a.toks ++ comma (b.toks ++ close))
  | select m a b => openCall selectName (m.toks ++ comma (a.toks ++ comma (b.toks ++ close)))
  | cast a dtype => openCall castName (a.toks ++ comma (.ident dtype :: close))

def level : Term → Nat
  | bin op _ _ => op.precedence
  | _ => 100

def WellFormed : Term → Prop
  | col name => IsIdent name
  | lit int frac => IsDecimal int frac ∧ inDoubleRange (decimalValue int frac) = true
  | neg e => e.WellFormed ∧ e.level = 100
  | paren e => e.WellFormed
  | bin op l r => l.WellFormed ∧ r.WellFormed ∧ op.precedence ≤ l.level ∧ op.precedence < r.level
  | call fn a => IsIdent fn ∧ String.ofList fn ∈ unaryFunctions ∧ a.WellFormed
  | pair fn a b => IsIdent fn ∧ String.ofList fn ∈ ["filter", "dot"] ∧ a.WellFormed ∧ b.WellFormed
  | select m a b => m.WellFormed ∧ a.WellFormed ∧ b.WellFormed
  | cast a dtype => a.WellFormed ∧ IsIdent dtype

def gen : Term → ParserState → Except Exn (Value × ParserState)
  | col name, st => .ok (.named (String.ofList name), st)
  | lit int frac, st => .ok (.literal (.num (decimalValue int frac)), st)
  | neg e, st => do
    let (v, st) ← e.gen st
    .ok (makeNeg v st)
  | paren e, st => e.gen st
  | bin op l r, st => do
    let (a, st) ← l.gen st
    let (b, st) ← r.gen st
    makeBinary a b op st
  | call fn a, st => do
    let (a, st') ← a.gen st.temp.2
    let (a, st') ← materialize a st'
    .ok (.named st.temp.1, st'.emit ⟨String.ofList fn, [a], [st.temp.1], []⟩)
  | pair fn a b, st => do
    let (a, st') ← a.gen st.temp.2
    let (b, st') ← b.gen st'
    let (a, st') ← materialize a st'
    let (b, st') ← materialize b st'
    .ok (.named st.temp.1, st'.emit ⟨String.ofList fn, [a, b], [st.temp.1], []⟩)
  | select m a b, st => do
    let (m, st') ← m.gen st.temp.2
    let (a, st') ← a.gen st'
    let (b, st') ← b.gen st'
    let (m, st') ← materialize m st'
    let (a, st') ← materialize a st'
    let (b, st') ← materialize b st'
    .ok (.named st.temp.1, st'.emit ⟨"select", [m, a, b], [st.temp.1], []⟩)
  | cast a dtype, st => do
    let (a, st') ← a.gen st.temp.2
    let (a, st') ← materialize a st'
    .ok (.named st.temp.1,
      st'.emit ⟨"cast", [a], [st.temp.1], [("dtype", String.ofList dtype)]⟩)

def spine : Term → Nat
  | bin _ l _ => l.spine + 1
  | _ => 1

theorem spine_le (e : Term) : e.spine ≤ e.toks.length := by
  induction e with
  | bin op l r ihl ihr =>
    simp only [spine, toks, List.length_append, List.length_cons]
    omega
  | _ => simp [spine, toks, openCall]

end Term

inductive Past {α : Type} (rest : List Tok) : α × ParserState → α × ParserState → Prop
  | intro {a st lx} (h : Ready lx rest) : Past rest (a, st) (a, st.withLexer lx)

abbrev Tracks {α : Type} (rest : List Tok) (r p : Except Exn (α × ParserState)) : Prop :=
  ExceptRel (Past rest) r p

namespace Tracks

variable {α β : Type} {rest rest' : List Tok} {st : ParserState} {lx : Lexer}

theorem ok (a : α) (st : ParserState) (h : Ready lx rest) :
    Tracks rest (.ok (a, st)) (.ok (a, st.withLexer lx)) :=
  ExceptRel.ok (.intro h)

theorem andThen {r p : Except Exn (α × ParserState)}
    {k k' : α × ParserState → Except Exn (β × ParserState)} (h : Tracks rest r p)
    (hk : ∀ a st lx, Ready lx rest → Tracks rest' (k (a, st)) (k' (a, st.withLexer lx))) :
    Tracks rest' (r >>= k) (p >>= k') := by
  refine ExceptRel.bind h ?_
  rintro _ _ ⟨hr⟩
  exact hk _ _ _ hr

theorem expect {text : List Char} {symbol what : String} {r : Except Exn (β × ParserState)}
    {k : ParserState → Except Exn (β × ParserState)} (h : Ready lx (.symbol text :: rest))
    (hs : symbol = String.ofList text)
    (hk : ∀ lx, Ready lx rest → Tracks rest' r (k (st.withLexer lx))) :
    Tracks rest' r (Dsl.expect symbol what (st.withLexer lx) >>= k) := by
  obtain ⟨lx', hexpect, hr⟩ := expect_cons (st.withLexer lx) symbol what h hs
  rw [hexpect]
  exact hk lx' hr

theorem makeNeg (v : Value) (st : ParserState) (h : Ready lx rest) :
    Tracks rest (.ok (Dsl.makeNeg v st)) (.ok (Dsl.makeNeg v (st.withLexer lx))) := by
  cases v with
  | literal x => exact .ok _ st h
  | named name => exact .ok _ (Dsl.makeNeg (.named name) st).2 h

theorem format {x : Double} {r p : String → Except Exn (α × ParserState)}
    (h : ∀ text, Tracks rest (r text) (p text)) :
    Tracks rest (Dsl.format x >>= r) (Dsl.format x >>= p) := by
  cases Dsl.format x with
  | error e => exact .error e
  | ok text => exact h text

theorem makeBinary (a b : Value) (op : BinOp) (st : ParserState) (h : Ready lx rest) :
    Tracks rest (Dsl.makeBinary a b op st) (Dsl.makeBinary a b op (st.withLexer lx)) := by
  cases a with
  | literal x =>
    cases b with
    | literal y => exact .ok _ st h
    | named b => exact format fun text => .ok _ (st.temp.2.emit _) h
  | named a =>
    cases b with
    | literal y => exact format fun text => .ok _ (st.temp.2.emit _) h
    | named b => exact .ok _ (st.temp.2.emit _) h

theorem materialize (v : Value) (st : ParserState) (h : Ready lx rest) :
    Tracks rest (Dsl.materialize v st) (Dsl.materialize v (st.withLexer lx)) := by
  cases v with
  | literal x => exact format fun text => .ok _ (st.temp.2.emit _) h
  | named name => exact .ok _ st h

end Tracks

-- A token that ends an expression: a closing one, or the name the next statement starts with.
def Ends (t : Tok) : Prop := t.kind = .ident ∨ t = .symbol [')'] ∨ t = .symbol [',']

def Ended (rest : List Tok) : Prop := ∀ t ∈ rest.head?, Ends t

def Below (rest : List Tok) (p : Nat) : Prop :=
  ∀ t ∈ rest.head?, Ends t ∨ ∃ op : BinOp, t = .symbol op.chars ∧ op.precedence ≤ p

theorem Ended.below {rest : List Tok} (h : Ended rest) (p : Nat) : Below rest p :=
  fun t ht => .inl (h t ht)

theorem ended_close (rest : List Tok) : Ended (.symbol [')'] :: rest) := by
  intro t ht
  exact .inr (.inl (by simpa using ht.symm))

theorem ended_comma (rest : List Tok) : Ended (.symbol [','] :: rest) := by
  intro t ht
  exact .inr (.inr (by simpa using ht.symm))

theorem Below.mono {rest : List Tok} {p q : Nat} (h : Below rest p) (hpq : p ≤ q) :
    Below rest q := by
  intro t ht
  rcases h t ht with h | ⟨op, hop, hp⟩
  · exact .inl h
  · exact .inr ⟨op, hop, hp.trans hpq⟩

theorem exprLoop_ends (fuel minPrec : Nat) (left : Value) (st : ParserState) {lx : Lexer}
    {token : Token} {t : Tok} (hpeek : st.lexer.peek = .ok (token, lx)) (hm : Matches token t)
    (ht : Ends t) : exprLoop (fuel + 1) minPrec left st = .ok (left, st.withLexer lx) := by
  rcases ht with hk | rfl | rfl
  · have hne : token.kind ≠ .symbol := by
      rw [hm.kind, hk]
      decide
    simp [exprLoop, hpeek, hne]
  · have hk : token.kind = .symbol := hm.kind
    have htext : token.text = ")" := hm.text
    have hof : BinOp.ofSymbol ")" = none := by decide
    simp [exprLoop, hpeek, hk, htext, hof]
  · have hk : token.kind = .symbol := hm.kind
    have htext : token.text = "," := hm.text
    have hof : BinOp.ofSymbol "," = none := by decide
    simp [exprLoop, hpeek, hk, htext, hof]

theorem exprLoop_stop (fuel minPrec : Nat) (left : Value) (st : ParserState) {p : Nat}
    {rest : List Tok} (hr : Ready st.lexer rest) (hb : Below rest p)
    (hp : p < minPrec ∨ Ended rest) :
    ∃ lx', exprLoop (fuel + 1) minPrec left st = .ok (left, st.withLexer lx') ∧ Ready lx' rest := by
  cases rest with
  | nil =>
    obtain ⟨token, lx', hpeek, hk, hr'⟩ := peek_nil hr
    exact ⟨lx', by simp [exprLoop, hpeek, hk], hr'⟩
  | cons t ts =>
    obtain ⟨token, lx', hpeek, hm, -, -⟩ := peek_cons hr
    refine ⟨lx', ?_, ready_peeked hr hpeek⟩
    rcases hp with hp | hp
    · rcases hb t rfl with ht | ⟨op, rfl, hop⟩
      · exact exprLoop_ends fuel minPrec left st hpeek hm ht
      · have hk : token.kind = .symbol := hm.kind
        have ht : token.text = String.ofList op.chars := hm.text
        have hlt : op.precedence < minPrec := lt_of_le_of_lt hop hp
        simp [exprLoop, hpeek, hk, ht, BinOp.ofSymbol_chars, hlt]
    · exact exprLoop_ends fuel minPrec left st hpeek hm (hp t rfl)

theorem exprLoop_op (fuel minPrec : Nat) (left : Value) (st : ParserState) {op : BinOp}
    {ts : List Tok} (hr : Ready st.lexer (.symbol op.chars :: ts)) (hp : minPrec ≤ op.precedence) :
    ∃ lx', Ready lx' ts ∧ exprLoop (fuel + 1) minPrec left st = (do
      let (right, st) ← parseExpr fuel (op.precedence + 1) (st.withLexer lx')
      let (left, st) ← makeBinary left right op st
      exprLoop fuel minPrec left st) := by
  obtain ⟨token, lx', hpeek, hm, hpk, hr'⟩ := peek_cons hr
  have hk : token.kind = .symbol := hm.kind
  have ht : token.text = String.ofList op.chars := hm.text
  refine ⟨{ lx' with peeked := none }, hr', ?_⟩
  have hnext : Parser.consume lx' = .ok (token, { lx' with peeked := none }) := by
    simp [Parser.consume, Lexer.next, Lexer.peek, hpk]
  simp [exprLoop, hpeek, hk, ht, BinOp.ofSymbol_chars, Nat.not_lt.2 hp, ParserState.withLexer,
    hnext]

def ParsesPrimary (e : Term) : Prop :=
  ∀ fuel, 2 * e.toks.length ≤ fuel → ∀ st lx rest, Ready lx (e.toks ++ rest) → Below rest 100 →
    Tracks rest (e.gen st) (parsePrimary fuel (st.withLexer lx))

def ParsesExpr (e : Term) : Prop :=
  ∀ fuel, 2 * e.toks.length + 1 ≤ fuel → ∀ minPrec ≤ e.level, ∀ st lx rest rest',
    Ready lx (e.toks ++ rest) → Below rest e.level →
    ∀ k : Value × ParserState → Except Exn (Value × ParserState),
      (∀ v st lx, Ready lx rest →
        Tracks rest' (k (v, st)) (exprLoop (fuel - e.spine) minPrec v (st.withLexer lx))) →
      Tracks rest' (e.gen st >>= k) (parseExpr fuel minPrec (st.withLexer lx))

theorem parsesExpr_of_primary {e : Term} (hl : e.level = 100) (hs : e.spine = 1)
    (h : ParsesPrimary e) : ParsesExpr e := by
  intro fuel hfuel minPrec hmin st lx rest rest' hr hb k hk
  obtain ⟨f, rfl⟩ : ∃ f, fuel = f + 1 := ⟨fuel - 1, by omega⟩
  rw [hs] at hk
  rw [parseExpr]
  refine (h f (by omega) st lx rest hr (hl ▸ hb)).andThen fun v st lx hr => ?_
  exact hk v st lx hr

theorem ParsesExpr.stops {e : Term} (h : ParsesExpr e) {fuel minPrec : Nat} {rest : List Tok}
    (hf : 2 * e.toks.length + 1 ≤ fuel) (hmin : minPrec ≤ e.level) (st : ParserState) {lx : Lexer}
    (hr : Ready lx (e.toks ++ rest)) {p : Nat} (hb : Below rest p) (hle : p ≤ e.level)
    (hp : p < minPrec ∨ Ended rest) :
    Tracks rest (e.gen st) (parseExpr fuel minPrec (st.withLexer lx)) := by
  have hspine := e.spine_le
  obtain ⟨n, hn⟩ : ∃ n, fuel - e.spine = n + 1 := ⟨fuel - e.spine - 1, by omega⟩
  have htracks := h fuel hf minPrec hmin st lx rest rest hr (hb.mono hle) pure ?_
  · rwa [bind_pure] at htracks
  · intro v st lx hr
    rw [hn]
    obtain ⟨lx', hstop, hr'⟩ := exprLoop_stop n minPrec v (st.withLexer lx) hr hb hp
    rw [hstop]
    exact .ok v st hr'

theorem ParsesExpr.ended {e : Term} (h : ParsesExpr e) {fuel : Nat} {rest : List Tok}
    (hf : 2 * e.toks.length + 1 ≤ fuel) (st : ParserState) {lx : Lexer}
    (hr : Ready lx (e.toks ++ rest)) (hend : Ended rest) :
    Tracks rest (e.gen st) (parseExpr fuel 0 (st.withLexer lx)) :=
  h.stops hf (Nat.zero_le _) st hr (hend.below 0) (Nat.zero_le _) (.inr hend)

theorem parsesPrimary_col {name : List Char} : ParsesPrimary (.col name) := by
  intro fuel hfuel st lx rest hr hb
  obtain ⟨f, rfl⟩ : ∃ f, fuel = f + 1 := ⟨fuel - 1, by simp [Term.toks] at hfuel; omega⟩
  obtain ⟨token, lx₁, hcons, hm, hr⟩ := consume_cons hr
  have hk : token.kind = .ident := hm.kind
  have ht : token.text = String.ofList name := hm.text
  cases rest with
  | nil =>
    obtain ⟨token', lx', hpeek, hk', hr'⟩ := peek_nil hr
    have hparse : parsePrimary (f + 1) (st.withLexer lx) =
        .ok (.named (String.ofList name), st.withLexer lx') := by
      simp [parsePrimary, hcons, hk, ht, ParserState.withLexer, hpeek, hk']
    rw [hparse]
    exact .ok _ st hr'
  | cons t ts =>
    obtain ⟨token', lx', hpeek, hm', -, -⟩ := peek_cons hr
    have hne : ¬(token'.kind = .symbol ∧ token'.text = "(") := by
      rintro ⟨hkind, htext⟩
      rw [hm'.kind] at hkind
      rw [hm'.text] at htext
      rcases hb t rfl with (hid | rfl | rfl) | ⟨op, rfl, -⟩
      · simp [hid] at hkind
      · exact absurd htext (by decide)
      · exact absurd htext (by decide)
      · revert htext
        rcases op with op | op <;> cases op <;> decide
    have hparse : parsePrimary (f + 1) (st.withLexer lx) =
        .ok (.named (String.ofList name), st.withLexer lx') := by
      simp [parsePrimary, hcons, hk, ht, ParserState.withLexer, hpeek, hne]
    rw [hparse]
    exact .ok _ st (ready_peeked hr hpeek)

theorem parsesPrimary_lit {int : List Char} {frac : Option (List Char)} :
    ParsesPrimary (.lit int frac) := by
  intro fuel hfuel st lx rest hr hb
  obtain ⟨f, rfl⟩ : ∃ f, fuel = f + 1 := ⟨fuel - 1, by simp [Term.toks] at hfuel; omega⟩
  obtain ⟨token, lx₁, hcons, hm, hr⟩ := consume_cons hr
  have hk : token.kind = .number := hm.kind
  have hn : token.number = .num (decimalValue int frac) := hm.number
  have hparse : parsePrimary (f + 1) (st.withLexer lx) =
      .ok (.literal (.num (decimalValue int frac)), st.withLexer lx₁) := by
    simp [parsePrimary, hcons, hk, hn, ParserState.withLexer]
  rw [hparse]
  exact .ok _ st hr

theorem parsesPrimary_neg {e : Term} (h : ParsesPrimary e) : ParsesPrimary (.neg e) := by
  intro fuel hfuel st lx rest hr hb
  simp only [Term.toks, List.length_cons] at hfuel
  obtain ⟨f, rfl⟩ : ∃ f, fuel = f + 1 := ⟨fuel - 1, by omega⟩
  obtain ⟨token, lx₁, hcons, hm, hr⟩ := consume_cons hr
  have hk : token.kind = .symbol := hm.kind
  have ht : token.text = "-" := hm.text
  have hparse : parsePrimary (f + 1) (st.withLexer lx) = (do
      let (v, st) ← parsePrimary f (st.withLexer lx₁)
      .ok (makeNeg v st)) := by
    simp [parsePrimary, hcons, hk, ht, ParserState.withLexer]
  rw [hparse]
  exact (h f (by omega) st lx₁ rest hr hb).andThen fun v st lx hr => .makeNeg v st hr

theorem parsesPrimary_paren {e : Term} (h : ParsesExpr e) : ParsesPrimary (.paren e) := by
  intro fuel hfuel st lx rest hr hb
  simp only [Term.toks, close, List.length_cons, List.length_append, List.length_nil] at hfuel
  obtain ⟨f, rfl⟩ : ∃ f, fuel = f + 1 := ⟨fuel - 1, by omega⟩
  simp only [Term.toks, close, List.cons_append, List.append_assoc, List.nil_append] at hr
  obtain ⟨token, lx₁, hcons, hm, hr⟩ := consume_cons hr
  have hk : token.kind = .symbol := hm.kind
  have ht : token.text = "(" := hm.text
  have hparse : parsePrimary (f + 1) (st.withLexer lx) = (do
      let (v, st) ← parseExpr f 0 (st.withLexer lx₁)
      let st ← expect ")" "')'" st
      .ok (v, st)) := by
    simp [parsePrimary, hcons, hk, ht, ParserState.withLexer]
  rw [hparse, Term.gen, ← bind_pure (e.gen st)]
  refine (h.ended (by omega) st hr (ended_close rest)).andThen fun v st lx hr => ?_
  exact .expect hr rfl fun lx hr => .ok v st hr

theorem parsePrimary_call (fuel : Nat) (fn : List Char) (ts : List Tok) (st : ParserState)
    {lx : Lexer} (hr : Ready lx (openCall fn ts)) :
    ∃ lx', Ready lx' ts ∧ parsePrimary (fuel + 1) (st.withLexer lx) =
      parseCall fuel (String.ofList fn) (st.withLexer lx') := by
  obtain ⟨token, lx₁, hcons, hm, hr⟩ := consume_cons hr
  obtain ⟨token', lx₂, hpeek, hm', hpk, hr'⟩ := peek_cons hr
  have hk : token.kind = .ident := hm.kind
  have ht : token.text = String.ofList fn := hm.text
  have hk' : token'.kind = .symbol := hm'.kind
  have ht' : token'.text = "(" := hm'.text
  have hnext : Parser.consume lx₂ = .ok (token', { lx₂ with peeked := none }) := by
    simp [Parser.consume, Lexer.next, Lexer.peek, hpk]
  refine ⟨_, hr', ?_⟩
  simp [parsePrimary, hcons, hk, ht, ParserState.withLexer, hpeek, hk', ht', hnext]

theorem parseCall_unary (fuel : Nat) {fn : String} (h : fn ∈ unaryFunctions) (st : ParserState) :
    parseCall (fuel + 1) fn st = (do
      let (a, st') ← parseExpr fuel 0 st.temp.2
      let st' ← expect ")" "')'" st'
      let (a, st') ← materialize a st'
      .ok (.named st.temp.1, st'.emit ⟨fn, [a], [st.temp.1], []⟩)) := by
  have hother : ∀ g ∈ unaryFunctions, g ∉ ["select", "filter", "dot", "cast"] := by decide
  have hne := hother fn h
  simp only [List.mem_cons, List.not_mem_nil, or_false, not_or] at hne
  obtain ⟨hselect, hfilter, hdot, hcast⟩ := hne
  simp only [parseCall, hselect, hfilter, hdot, hcast, or_self, if_false,
    List.contains_iff_mem.mpr h, if_true]

theorem parseCall_pair (fuel : Nat) {fn : String} (h : fn ∈ ["filter", "dot"])
    (st : ParserState) :
    parseCall (fuel + 1) fn st = (do
      let (a, st') ← parseExpr fuel 0 st.temp.2
      let st' ← expect "," "','" st'
      let (b, st') ← parseExpr fuel 0 st'
      let st' ← expect ")" "')'" st'
      let (a, st') ← materialize a st'
      let (b, st') ← materialize b st'
      .ok (.named st.temp.1, st'.emit ⟨fn, [a, b], [st.temp.1], []⟩)) := by
  have hselect : fn ≠ "select" := by
    rintro rfl
    exact absurd h (by decide)
  have hpair : fn = "filter" ∨ fn = "dot" := by simpa using h
  simp only [parseCall, hselect, if_false, hpair, if_true]

theorem parsesPrimary_call {fn : List Char} {a : Term} (hfn : String.ofList fn ∈ unaryFunctions)
    (ha : ParsesExpr a) : ParsesPrimary (.call fn a) := by
  intro fuel hfuel st lx rest hr hb
  simp only [Term.toks, openCall, close, List.length_cons, List.length_append,
    List.length_nil] at hfuel
  obtain ⟨f, rfl⟩ : ∃ f, fuel = f + 2 := ⟨fuel - 2, by omega⟩
  obtain ⟨lx₁, hr, hparse⟩ := parsePrimary_call (f + 1) fn (a.toks ++ close ++ rest) st hr
  rw [List.append_assoc] at hr
  rw [hparse, parseCall_unary f hfn]
  refine (ha.ended (by omega) st.temp.2 hr (ended_close rest)).andThen fun a st' lx hr => ?_
  refine .expect hr rfl fun lx hr => ?_
  exact (Tracks.materialize a st' hr).andThen fun a st' lx hr => .ok _ (st'.emit _) hr

theorem parsesPrimary_pair {fn : List Char} {a b : Term}
    (hfn : String.ofList fn ∈ ["filter", "dot"]) (ha : ParsesExpr a) (hb : ParsesExpr b) :
    ParsesPrimary (.pair fn a b) := by
  intro fuel hfuel st lx rest hr _
  simp only [Term.toks, openCall, comma, close, List.length_cons, List.length_append,
    List.length_nil] at hfuel
  obtain ⟨f, rfl⟩ : ∃ f, fuel = f + 2 := ⟨fuel - 2, by omega⟩
  obtain ⟨lx₁, hr, hparse⟩ := parsePrimary_call (f + 1) fn
    (a.toks ++ comma (b.toks ++ close) ++ rest) st hr
  simp only [comma, close, List.append_assoc, List.cons_append, List.nil_append] at hr
  rw [hparse, parseCall_pair f hfn]
  refine (ha.ended (by omega) st.temp.2 hr (ended_comma _)).andThen fun va st' lx hr => ?_
  refine .expect hr rfl fun lx hr => ?_
  refine (hb.ended (by omega) st' hr (ended_close rest)).andThen fun vb st' lx hr => ?_
  refine .expect hr rfl fun lx hr => ?_
  refine (Tracks.materialize va st' hr).andThen fun na st' lx hr => ?_
  exact (Tracks.materialize vb st' hr).andThen fun nb st' lx hr => .ok _ (st'.emit _) hr

theorem parsesPrimary_select {m a b : Term} (hm : ParsesExpr m) (ha : ParsesExpr a)
    (hb : ParsesExpr b) : ParsesPrimary (.select m a b) := by
  intro fuel hfuel st lx rest hr _
  simp only [Term.toks, openCall, comma, close, List.length_cons, List.length_append,
    List.length_nil] at hfuel
  obtain ⟨f, rfl⟩ : ∃ f, fuel = f + 2 := ⟨fuel - 2, by omega⟩
  obtain ⟨lx₁, hr, hparse⟩ := parsePrimary_call (f + 1) selectName
    (m.toks ++ comma (a.toks ++ comma (b.toks ++ close)) ++ rest) st hr
  simp only [comma, close, List.append_assoc, List.cons_append, List.nil_append] at hr
  have hname : String.ofList selectName = "select" := by decide
  rw [hparse, hname, parseCall]
  simp only [if_true]
  refine (hm.ended (by omega) st.temp.2 hr (ended_comma _)).andThen fun vm st' lx hr => ?_
  refine .expect hr rfl fun lx hr => ?_
  refine (ha.ended (by omega) st' hr (ended_comma _)).andThen fun va st' lx hr => ?_
  refine .expect hr rfl fun lx hr => ?_
  refine (hb.ended (by omega) st' hr (ended_close rest)).andThen fun vb st' lx hr => ?_
  refine .expect hr rfl fun lx hr => ?_
  refine (Tracks.materialize vm st' hr).andThen fun nm st' lx hr => ?_
  refine (Tracks.materialize va st' hr).andThen fun na st' lx hr => ?_
  exact (Tracks.materialize vb st' hr).andThen fun nb st' lx hr => .ok _ (st'.emit _) hr

theorem parsesPrimary_cast {a : Term} {dtype : List Char} (ha : ParsesExpr a) :
    ParsesPrimary (.cast a dtype) := by
  intro fuel hfuel st lx rest hr _
  simp only [Term.toks, openCall, comma, close, List.length_cons, List.length_append,
    List.length_nil] at hfuel
  obtain ⟨f, rfl⟩ : ∃ f, fuel = f + 2 := ⟨fuel - 2, by omega⟩
  obtain ⟨lx₁, hr, hparse⟩ := parsePrimary_call (f + 1) castName
    (a.toks ++ comma (.ident dtype :: close) ++ rest) st hr
  simp only [comma, close, List.append_assoc, List.cons_append, List.nil_append] at hr
  have hname : String.ofList castName = "cast" := by decide
  have hselect : ("cast" : String) ≠ "select" := by decide
  have hpair : ¬(("cast" : String) = "filter" ∨ ("cast" : String) = "dot") := by decide
  rw [hparse, hname, parseCall]
  simp only [hselect, if_false, hpair, if_true]
  refine (ha.ended (by omega) st.temp.2 hr (ended_comma _)).andThen fun va st' lx hr => ?_
  refine .expect hr rfl fun lx hr => ?_
  obtain ⟨token, lx', hcons, hmatch, hr⟩ := consume_cons hr
  have hk : token.kind = .ident := hmatch.kind
  have ht : token.text = String.ofList dtype := hmatch.text
  have hcons : Parser.consume (st'.withLexer lx).lexer = .ok (token, lx') := hcons
  have hlex : (st'.withLexer lx).withLexer lx' = st'.withLexer lx' := rfl
  simp only [hcons, except_ok_bind, hk, ht, ne_eq, not_true_eq_false, if_false, hlex]
  refine .expect hr rfl fun lx hr => ?_
  exact (Tracks.materialize va st' hr).andThen fun na st' lx hr => .ok _ (st'.emit _) hr

theorem parsesExpr_bin {op : BinOp} {l r : Term} (hl : ParsesExpr l) (hr : ParsesExpr r)
    (hlp : op.precedence ≤ l.level) (hrp : op.precedence < r.level) :
    ParsesExpr (.bin op l r) := by
  intro fuel hfuel minPrec hmin st lx rest rest' hready hb k hk
  have hsl := l.spine_le
  simp only [Term.toks, List.length_cons, List.length_append] at hfuel
  simp only [Term.toks, List.append_assoc, List.cons_append] at hready
  obtain ⟨n, hn⟩ : ∃ n, fuel - l.spine = n + 1 := ⟨fuel - l.spine - 1, by omega⟩
  have hspine : fuel - (Term.bin op l r).spine = n := by
    simp only [Term.spine]
    omega
  have hbl : Below (.symbol op.chars :: (r.toks ++ rest)) l.level := by
    intro t ht
    exact .inr ⟨op, by simpa using ht.symm, hlp⟩
  rw [Term.gen, bind_assoc]
  refine hl fuel (by omega) minPrec (le_trans hmin hlp) st lx _ rest' hready hbl _ ?_
  intro a st₁ lx₁ hr₁
  obtain ⟨lx₂, hr₂, hloop⟩ := exprLoop_op n minPrec a (st₁.withLexer lx₁) hr₁ hmin
  rw [hn, hloop]
  simp only [bind_assoc]
  have hfuel : 2 * r.toks.length + 1 ≤ n := by omega
  have hright := hr.stops hfuel hrp st₁ hr₂ hb hrp.le (.inl (Nat.lt_succ_self op.precedence))
  refine hright.andThen fun b st₂ lx₃ hr₃ => ?_
  refine (Tracks.makeBinary a b op st₂ hr₃).andThen fun v st₃ lx₄ hr₄ => ?_
  rw [hspine] at hk
  exact hk v st₃ lx₄ hr₄

theorem Term.parses (e : Term) (h : e.WellFormed) :
    ParsesExpr e ∧ (e.level = 100 → ParsesPrimary e) := by
  have primary {e : Term} (hl : e.level = 100) (hs : e.spine = 1) (h : ParsesPrimary e) :
      ParsesExpr e ∧ (e.level = 100 → ParsesPrimary e) :=
    ⟨parsesExpr_of_primary hl hs h, fun _ => h⟩
  induction e with
  | col name => exact primary rfl rfl parsesPrimary_col
  | lit int frac => exact primary rfl rfl parsesPrimary_lit
  | neg e ih => exact primary rfl rfl (parsesPrimary_neg ((ih h.1).2 h.2))
  | paren e ih => exact primary rfl rfl (parsesPrimary_paren (ih h).1)
  | call fn a ih => exact primary rfl rfl (parsesPrimary_call h.2.1 (ih h.2.2).1)
  | pair fn a b iha ihb =>
    exact primary rfl rfl (parsesPrimary_pair h.2.1 (iha h.2.2.1).1 (ihb h.2.2.2).1)
  | select m a b ihm iha ihb =>
    exact primary rfl rfl (parsesPrimary_select (ihm h.1).1 (iha h.2.1).1 (ihb h.2.2).1)
  | cast a dtype ih => exact primary rfl rfl (parsesPrimary_cast (ih h.1).1)
  | bin op l r ihl ihr =>
    obtain ⟨hwl, hwr, hlp, hrp⟩ := h
    refine ⟨parsesExpr_bin (ihl hwl).1 (ihr hwr).1 hlp hrp, fun hlevel => ?_⟩
    exfalso
    rcases op with op | op <;> cases op <;> simp [Term.level, BinOp.precedence] at hlevel

theorem isIdent_selectName : IsIdent selectName :=
  ⟨⟨_, _, rfl, by decide⟩, List.all_eq_true.mp (by decide)⟩

theorem isIdent_castName : IsIdent castName :=
  ⟨⟨_, _, rfl, by decide⟩, List.all_eq_true.mp (by decide)⟩

theorem chained_openCall {fn : List Char} {ts : List Tok} (hfn : IsIdent fn) (h : Chained ts) :
    Chained (openCall fn ts) :=
  (chained_ident hfn).join h

theorem Term.toks_chained {e : Term} (h : e.WellFormed) : Chained e.toks := by
  induction e with
  | col name => exact chained_ident h
  | lit int frac => exact chained_numeral h.1
  | neg e ih => exact .cons (by simp [IsFirst, Tok.symbol]) (ih h.1)
  | paren e ih => exact .cons (by simp [IsFirst, Tok.symbol]) (ih h).close
  | bin op l r ihl ihr => exact (ihl h.1).join (ihr h.2.1)
  | call fn a ih => exact chained_openCall h.1 (ih h.2.2).close
  | pair fn a b iha ihb =>
    exact chained_openCall h.1 ((iha h.2.2.1).join (ihb h.2.2.2).close)
  | select m a b ihm iha ihb =>
    exact chained_openCall isIdent_selectName
      ((ihm h.1).join ((iha h.2.1).join (ihb h.2.2).close))
  | cast a dtype ih =>
    exact chained_openCall isIdent_castName ((ih h.1).join (chained_ident h.2).close)

theorem tokOk_openCall {fn : List Char} {ts : List Tok} (hfn : IsIdent fn)
    (h : ∀ t ∈ ts, TokOk t) : ∀ t ∈ openCall fn ts, TokOk t := by
  simp only [openCall, List.mem_cons, forall_eq_or_imp]
  exact ⟨.ident hfn, .symbol (by decide), h⟩

theorem tokOk_comma {ts ts' : List Tok} (h : ∀ t ∈ ts, TokOk t) (h' : ∀ t ∈ ts', TokOk t) :
    ∀ t ∈ ts ++ comma ts', TokOk t := by
  simp only [comma, List.mem_append, List.mem_cons]
  rintro t (ht | rfl | ht)
  · exact h t ht
  · exact .symbol (by decide)
  · exact h' t ht

theorem tokOk_close {ts : List Tok} (h : ∀ t ∈ ts, TokOk t) : ∀ t ∈ ts ++ close, TokOk t := by
  simp only [close, List.mem_append, List.mem_singleton]
  rintro t (ht | rfl)
  · exact h t ht
  · exact .symbol (by decide)

theorem Term.toks_ok {e : Term} (h : e.WellFormed) : ∀ t ∈ e.toks, TokOk t := by
  induction e with
  | col name => simpa [Term.toks] using TokOk.ident h
  | lit int frac => simpa [Term.toks] using TokOk.numeral h.1 h.2
  | neg e ih =>
    simp only [Term.toks, List.mem_cons, forall_eq_or_imp]
    exact ⟨.symbol (by decide), ih h.1⟩
  | paren e ih =>
    simp only [Term.toks, List.mem_cons, forall_eq_or_imp]
    exact ⟨.symbol (by decide), tokOk_close (ih h)⟩
  | bin op l r ihl ihr =>
    simp only [Term.toks, List.mem_append, List.mem_cons]
    rintro t (ht | rfl | ht)
    · exact ihl h.1 t ht
    · exact .symbol (chars_mem op)
    · exact ihr h.2.1 t ht
  | call fn a ih => exact tokOk_openCall h.1 (tokOk_close (ih h.2.2))
  | pair fn a b iha ihb =>
    exact tokOk_openCall h.1 (tokOk_comma (iha h.2.2.1) (tokOk_close (ihb h.2.2.2)))
  | select m a b ihm iha ihb =>
    exact tokOk_openCall isIdent_selectName
      (tokOk_comma (ihm h.1) (tokOk_comma (iha h.2.1) (tokOk_close (ihb h.2.2))))
  | cast a dtype ih =>
    refine tokOk_openCall isIdent_castName (tokOk_comma (ih h.1) ?_)
    simp only [close, List.mem_cons, List.not_mem_nil, or_false, forall_eq_or_imp, forall_eq]
    exact ⟨.ident h.2, .symbol (by decide)⟩

structure Literal where
  int : List Char
  frac : Option (List Char)
  decimal : IsDecimal int frac
  range : inDoubleRange (decimalValue int frac) = true

def Literal.value (l : Literal) : ℚ := decimalValue l.int l.frac

def Literal.term (l : Literal) : Term := .lit l.int l.frac

theorem Literal.term_wellFormed (l : Literal) : l.term.WellFormed := ⟨l.decimal, l.range⟩

structure Statement where
  target : List Char
  term : Term

namespace Statement

def toks (s : Statement) : List Tok := .ident s.target :: .symbol ['='] :: s.term.toks

structure WellFormed (s : Statement) : Prop where
  target : IsIdent s.target
  term : s.term.WellFormed

def gen (s : Statement) (st : ParserState) : Except Exn ParserState := do
  let (v, st) ← s.term.gen st
  assign (String.ofList s.target) v st

theorem toks_ok {s : Statement} (h : s.WellFormed) : ∀ t ∈ s.toks, TokOk t := by
  simp only [toks, List.mem_cons, forall_eq_or_imp]
  exact ⟨.ident h.target, .symbol (by decide), Term.toks_ok h.term⟩

theorem toks_chained {s : Statement} (h : s.WellFormed) : Chained s.toks :=
  (chained_ident h.target).join (Term.toks_chained h.term)

end Statement

-- Statements with a gap after each, which alone separates a name from the one before it.
inductive RendersProgram : List Statement → List Char → Prop
  | done {g} (hg : TrailingGap g) : RendersProgram [] g
  | statement {s prog source rest} (h : Rendering (· = rest) (s.toks.map Tok.text) source)
      (hsep : ∀ c ∈ rest.head?, isSpace c = true ∨ c = '#') (hr : RendersProgram prog rest) :
      RendersProgram (s :: prog) source

def genProgram (prog : List Statement) (st : ParserState) : Except Exn ParserState :=
  prog.foldlM (fun st s => s.gen st) st

def programToks (prog : List Statement) : List Tok := prog.flatMap Statement.toks

theorem lexable_program {prog : List Statement} {source : List Char}
    (h : RendersProgram prog source) (hwf : ∀ s ∈ prog, s.WellFormed) :
    Lexable exprLanguage TrailingGap (programToks prog) source := by
  induction h with
  | done hg => exact .done hg
  | @statement s prog source rest h hsep _ ih =>
    have hs := hwf s (by simp)
    have hblank : ∀ t, Stops t rest := fun t =>
      stops_of_blank fun c hc => blank_toNat (hsep c hc)
    have hlex : Lexable exprLanguage (· = rest) s.toks source :=
      .of_rendering (fun t g hg => hg ▸ hblank t) h (Statement.toks_ok hs)
        (Statement.toks_chained hs).chain
    exact hlex.bind (ih fun s' hs' => hwf s' (by simp [hs']))

def spaced (ts : List (List Char)) : List Char := ts.flatMap fun t => ' ' :: t

theorem rendering_spaced (ts : List (List Char)) (rest : List Char) :
    Rendering (· = rest) ts (spaced ts ++ rest) := by
  induction ts with
  | nil => exact .done rfl
  | cons t ts ih =>
    have hcons : spaced (t :: ts) ++ rest = [' '] ++ t ++ (spaced ts ++ rest) := by
      simp [spaced]
    rw [hcons]
    exact .tok (.space rfl .nil) ih

def programText (prog : List Statement) : List Char := spaced ((programToks prog).map Tok.text)

theorem rendersProgram_text (prog : List Statement) : RendersProgram prog (programText prog) := by
  induction prog with
  | nil => exact .done (.gap .nil)
  | cons s prog ih =>
    have hcons : programText (s :: prog) = spaced (s.toks.map Tok.text) ++ programText prog := by
      simp [programText, programToks, spaced]
    rw [hcons]
    refine .statement (rendering_spaced _ _) ?_ ih
    cases prog with
    | nil => simp [programText, programToks, spaced]
    | cons s' prog => simp [programText, programToks, Statement.toks, spaced, isSpace]

theorem length_programToks {prog : List Statement} {source : List Char}
    (h : RendersProgram prog source) (hwf : ∀ s ∈ prog, s.WellFormed) :
    (programToks prog).length ≤ source.length := by
  refine (lexable_program h hwf).length_le fun t hok => ?_
  obtain ⟨c, cs, htext, -⟩ := tok_head_solid hok
  simp [htext]

def AtRest (rest : List Tok) (st st' : ParserState) : Prop :=
  ∃ lx, Ready lx rest ∧ st' = st.withLexer lx

theorem assign_tracks (lhs : String) (v : Value) (st : ParserState) {lx : Lexer} {rest : List Tok}
    (h : Ready lx rest) :
    ExceptRel (AtRest rest) (assign lhs v st) (assign lhs v (st.withLexer lx)) := by
  cases v with
  | literal x =>
    simp only [assign]
    cases format x with
    | error e => exact .error e
    | ok text => exact .ok ⟨lx, h, rfl⟩
  | named name =>
    by_cases hn : name = lhs
    · simp only [assign, hn, if_true]
      exact .ok ⟨lx, h, rfl⟩
    · simp only [assign, hn, if_false]
      exact .ok ⟨lx, h, rfl⟩

theorem parseStatement_tracks {s : Statement} (hs : s.WellFormed) {fuel : Nat}
    (hf : 2 * s.toks.length ≤ fuel) (st : ParserState) {lx : Lexer} {rest : List Tok}
    (hr : Ready lx (s.toks ++ rest)) (hend : Ended rest) :
    ExceptRel (AtRest rest) (s.gen st) (parseStatement fuel (st.withLexer lx)) := by
  obtain ⟨token, lx₁, hcons, hm, hr₁⟩ := consume_cons hr
  have hk : token.kind = .ident := hm.kind
  have ht : token.text = String.ofList s.target := hm.text
  obtain ⟨lx₂, hexpect, hr₂⟩ := expect_cons (st.withLexer lx₁) "=" "'='" hr₁ rfl
  have hparse : parseStatement fuel (st.withLexer lx) = (do
      let (v, st) ← parseExpr fuel 0 (st.withLexer lx₂)
      assign (String.ofList s.target) v st) := by
    have hcons : Parser.consume (st.withLexer lx).lexer = .ok (token, lx₁) := hcons
    have hlex : (st.withLexer lx).withLexer lx₁ = st.withLexer lx₁ := rfl
    have hlex₂ : (st.withLexer lx₁).withLexer lx₂ = st.withLexer lx₂ := rfl
    simp only [parseStatement, hcons, except_ok_bind, hk, ht, hlex, ne_eq, not_true_eq_false,
      if_false, hexpect, hlex₂]
  simp only [Statement.toks, List.length_cons] at hf
  rw [hparse, Statement.gen]
  refine ExceptRel.bind ((Term.parses s.term hs.term).1.ended (by omega) st hr₂ hend) ?_
  rintro _ _ ⟨hr⟩
  exact assign_tracks _ _ _ hr

theorem ended_program (prog : List Statement) : Ended (programToks prog) := by
  cases prog with
  | nil => simp [programToks, Ended]
  | cons s prog =>
    intro t ht
    obtain rfl : Tok.ident s.target = t := by simpa [programToks, Statement.toks] using ht
    exact .inl rfl

theorem parseStatements_program {prog : List Statement} (hwf : ∀ s ∈ prog, s.WellFormed)
    {fuel : Nat} (hf : 2 * (programToks prog).length + 1 ≤ fuel) (st : ParserState) {lx : Lexer}
    (hr : Ready lx (programToks prog)) :
    parseStatements fuel (st.withLexer lx) = (genProgram prog st).map ParserState.ops := by
  induction prog generalizing fuel st lx with
  | nil =>
    obtain ⟨f, rfl⟩ : ∃ f, fuel = f + 1 := ⟨fuel - 1, by omega⟩
    obtain ⟨token, lx', hpeek, hk, -⟩ := peek_nil hr
    simp [parseStatements, Parser.atEnd, ParserState.withLexer, hpeek, hk, genProgram, pure,
      Except.pure, Except.map]
  | cons s prog ih =>
    obtain ⟨f, rfl⟩ : ∃ f, fuel = f + 1 := ⟨fuel - 1, by omega⟩
    have hlen : (programToks (s :: prog)).length = s.toks.length + (programToks prog).length := by
      simp [programToks]
    have htoks : programToks (s :: prog) = s.toks ++ programToks prog := by simp [programToks]
    have hpos : 1 ≤ s.toks.length := by simp [Statement.toks]
    rw [htoks] at hr
    obtain ⟨token, lx', hpeek, hm, -, -⟩ := peek_cons hr
    have hk : token.kind = .ident := hm.kind
    have hfirst : parseStatements (f + 1) (st.withLexer lx) =
        parseStatement f (st.withLexer lx') >>= parseStatements f := by
      have hpeek : (st.withLexer lx).lexer.peek = .ok (token, lx') := hpeek
      have hlex : (st.withLexer lx).withLexer lx' = st.withLexer lx' := rfl
      simp [parseStatements, Parser.atEnd, hpeek, hk, hlex]
    have hfuel : 2 * s.toks.length ≤ f := by omega
    have hstep := parseStatement_tracks (hwf s (by simp)) hfuel st (ready_peeked hr hpeek)
      (ended_program prog)
    rw [hfirst, genProgram, List.foldlM_cons]
    generalize hp : parseStatement f (st.withLexer lx') = p at hstep
    generalize hg : s.gen st = r at hstep
    cases hstep with
    | error e => rfl
    | @ok st₁ st₂ hst =>
      obtain ⟨lx₁, hr₁, rfl⟩ := hst
      exact ih (fun s' hs' => hwf s' (by simp [hs'])) (by omega) st₁ hr₁

theorem parse_program {prog : List Statement} {source : List Char}
    (h : RendersProgram prog source) (hwf : ∀ s ∈ prog, s.WellFormed) (lx : Lexer) :
    parse (String.ofList source) = (genProgram prog ⟨lx, [], 0⟩).map ParserState.ops := by
  have hready : Ready (.make (String.ofList source) exprSymbols exprMulti) (programToks prog) :=
    .start (lexable_program h hwf) (by decide)
  have hlen := length_programToks h hwf
  have hfuel : 2 * (programToks prog).length + 1 ≤ parseFuel (String.ofList source) := by
    simp only [parseFuel, String.toList_ofList]
    omega
  exact parseStatements_program hwf hfuel ⟨lx, [], 0⟩ hready

end Lark.Column.Biz.Dsl
