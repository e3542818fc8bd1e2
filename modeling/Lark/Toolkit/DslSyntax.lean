import Lark.Toolkit.Dsl

namespace Lark.Toolkit.Dsl

open Lark.Base

structure Tok where
  kind : TokenKind
  text : List Char
  number : Double

namespace Tok

def ident (name : List Char) : Tok := ⟨.ident, name, 0⟩

def numeral (int : List Char) (frac : Option (List Char)) : Tok :=
  ⟨.number, decimalChars int frac, .num (decimalValue int frac)⟩

def symbol (text : List Char) : Tok := ⟨.symbol, text, 0⟩

end Tok

structure IsIdent (name : List Char) : Prop where
  start : ∃ c cs, name = c :: cs ∧ Lexer.isIdentStart c = true
  chars : ∀ c ∈ name, Lexer.isIdentChar c = true

theorem isIdent_letter {c : Char} (h : Lexer.isIdentStart c = true) : IsIdent [c] := by
  refine ⟨⟨c, [], rfl, h⟩, ?_⟩
  intro d hd
  obtain rfl := List.mem_singleton.1 hd
  simp only [Lexer.isIdentStart, Lexer.isIdentChar, Char.isAlphanum, Bool.or_eq_true] at h ⊢
  exact h.imp .inl (fun h => h)

inductive Gap : List Char → Prop
  | nil : Gap []
  | space {c g} (hc : isSpace c = true) (hg : Gap g) : Gap (c :: g)
  | comment {body g} (hb : ∀ c ∈ body, c ≠ '\n') (hg : Gap g) : Gap ('#' :: body ++ '\n' :: g)

inductive TrailingGap : List Char → Prop
  | gap {g} (hg : Gap g) : TrailingGap g
  | comment {g body} (hg : Gap g) (hb : ∀ c ∈ body, c ≠ '\n') : TrailingGap (g ++ '#' :: body)

inductive Rendering (End : List Char → Prop) : List (List Char) → List Char → Prop
  | done {g} (hg : End g) : Rendering End [] g
  | tok {g t ts rest} (hg : Gap g) (h : Rendering End ts rest) :
      Rendering End (t :: ts) (g ++ t ++ rest)

theorem Gap.append {g g' : List Char} (hg : Gap g) (hg' : Gap g') : Gap (g ++ g') := by
  induction hg with
  | nil => exact hg'
  | space hc _ ih => exact .space hc ih
  | @comment body g hb _ ih => simpa using Gap.comment hb ih

theorem TrailingGap.prepend {g g' : List Char} (hg : Gap g) (hg' : TrailingGap g') :
    TrailingGap (g ++ g') := by
  cases hg' with
  | gap hg' => exact .gap (hg.append hg')
  | comment hg' hb =>
    rw [← List.append_assoc]
    exact .comment (hg.append hg') hb

theorem Rendering.append {ts : List (List Char)} {body : List Char} (rest : List Char)
    (h : Rendering (· = []) ts body) : Rendering (· = rest) ts (body ++ rest) := by
  induction h with
  | done hg => exact .done (by simp [hg])
  | tok hg _ ih =>
    rw [List.append_assoc]
    exact .tok hg ih

theorem Rendering.split {End : List Char → Prop} {ts : List (List Char)} {source : List Char}
    (h : Rendering End ts source) : ∃ rest, Rendering (· = rest) ts source ∧ End rest := by
  induction h with
  | done hg => exact ⟨_, .done rfl, hg⟩
  | tok hg _ ih =>
    obtain ⟨rest, hr, hend⟩ := ih
    exact ⟨rest, .tok hg hr, hend⟩

theorem Gap.blank {g : List Char} (hg : Gap g) : ∀ c ∈ g.head?, isSpace c = true ∨ c = '#' := by
  cases hg with
  | nil => simp
  | space hc _ => simp [hc]
  | comment _ _ => simp

theorem TrailingGap.blank {g : List Char} (hg : TrailingGap g) :
    ∀ c ∈ g.head?, isSpace c = true ∨ c = '#' := by
  cases hg with
  | gap hg => exact hg.blank
  | @comment g body hg _ =>
    cases g with
    | nil => simp
    | cons c g => simpa using hg.blank c rfl

def IsSolid (c : Char) : Prop := isSpace c = false ∧ c ≠ '#'

theorem skip_comment {body : List Char} (xs : List Char) (hb : ∀ c ∈ body, c ≠ '\n')
    (pos line col : Nat) :
    ∃ pos' line' col', Lexer.skip true (body ++ '\n' :: xs) pos line col =
      Lexer.skip false xs pos' line' col' := by
  induction body generalizing pos col with
  | nil => exact ⟨_, _, _, by simp [Lexer.skip, isSpace]; rfl⟩
  | cons c body ih =>
    have hc : c ≠ '\n' := hb c (by simp)
    obtain ⟨pos', line', col', h⟩ := ih (fun d hd => hb d (by simp [hd])) (pos + 1) (col + 1)
    exact ⟨pos', line', col', by simp [Lexer.skip, hc, h]⟩

theorem skip_gap {g xs : List Char} (hg : Gap g) (pos line col : Nat) :
    ∃ pos' line' col', Lexer.skip false (g ++ xs) pos line col =
      Lexer.skip false xs pos' line' col' := by
  induction hg generalizing pos line col with
  | nil => exact ⟨pos, line, col, rfl⟩
  | @space c g hc hg ih =>
    have hne : c ≠ '#' := by
      rintro rfl
      simp [isSpace] at hc
    rcases eq_or_ne c '\n' with rfl | hn
    · obtain ⟨pos', line', col', h⟩ := ih (pos + 1) (line + 1) 1
      exact ⟨pos', line', col', by simp [Lexer.skip, hc, h]⟩
    · obtain ⟨pos', line', col', h⟩ := ih (pos + 1) line (col + 1)
      exact ⟨pos', line', col', by simp [Lexer.skip, hc, hne, hn, h]⟩
  | @comment body g hb hg ih =>
    obtain ⟨p₁, l₁, c₁, h₁⟩ := skip_comment (g ++ xs) hb (pos + 1) line (col + 1)
    obtain ⟨p₂, l₂, c₂, h₂⟩ := ih p₁ l₁ c₁
    exact ⟨p₂, l₂, c₂, by simp [Lexer.skip, h₁, h₂]⟩

theorem skip_solid {c : Char} {cs : List Char} (hc : IsSolid c) (pos line col : Nat) :
    Lexer.skip false (c :: cs) pos line col = ⟨c :: cs, pos, line, col⟩ := by
  simp [Lexer.skip, hc.1, hc.2]

theorem skip_open_comment {body : List Char} (hb : ∀ c ∈ body, c ≠ '\n') (pos line col : Nat) :
    (Lexer.skip true body pos line col).rest = [] := by
  induction body generalizing pos col with
  | nil => rfl
  | cons c body ih =>
    have hc : c ≠ '\n' := hb c (by simp)
    simpa [Lexer.skip, hc] using ih (fun d hd => hb d (by simp [hd])) (pos + 1) (col + 1)

theorem skip_trailing {g : List Char} (hg : TrailingGap g) (pos line col : Nat) :
    (Lexer.skip false g pos line col).rest = [] := by
  cases hg with
  | gap hg =>
    obtain ⟨pos', line', col', h⟩ := skip_gap hg pos line col
    rw [List.append_nil] at h
    rw [h]
    rfl
  | comment hg hb =>
    obtain ⟨pos', line', col', h⟩ := skip_gap hg pos line col
    rw [h]
    simpa [Lexer.skip] using skip_open_comment hb (pos' + 1) line' (col' + 1)

structure Matches (token : Token) (t : Tok) : Prop where
  kind : token.kind = t.kind
  text : token.text = String.ofList t.text
  number : token.number = t.number

theorem takeWhile_append_stop {p : Char → Bool} {xs rest : List Char} (h : ∀ c ∈ xs, p c = true)
    (hr : ∀ c ∈ rest.head?, p c = false) : (xs ++ rest).takeWhile p = xs := by
  rw [List.takeWhile_append, List.takeWhile_eq_self_iff.2 h, if_pos rfl]
  cases rest with
  | nil => simp
  | cons c cs => simp [hr c rfl]

def Reads (lx : Lexer) (t : Tok) (rest : List Char) : Prop :=
  ∃ token lx', lx.lex = .ok (token, lx') ∧ Matches token t ∧ lx'.cursor.rest = rest ∧
    lx'.symbols = lx.symbols ∧ lx'.multi = lx.multi

theorem lex_word {lx : Lexer} {kind : TokenKind} {text rest : List Char} {number : Double}
    {pos line col : Nat} (hskip : Lexer.skipSpace lx.cursor = ⟨text ++ rest, pos, line, col⟩)
    (hlex : lx.lex = .ok (⟨kind, String.ofList text, number, pos, line, col⟩,
      { lx with cursor := (Lexer.skipSpace lx.cursor).advance text.length })) :
    Reads lx ⟨kind, text, number⟩ rest := by
  refine ⟨_, _, hlex, ⟨rfl, rfl, rfl⟩, ?_, rfl, rfl⟩
  simp [hskip, Cursor.advance]

theorem isDigit_iff {c : Char} : c.isDigit = true ↔ 48 ≤ c.toNat ∧ c.toNat ≤ 57 := by
  simp [Char.isDigit, UInt32.le_iff_toNat_le]

theorem isSpace_toNat {c : Char} (h : isSpace c = true) : c.toNat ≤ 32 := by
  have hs : c = ' ' ∨ '\t' ≤ c ∧ c ≤ '\r' := by simpa [isSpace] using h
  rcases hs with rfl | ⟨-, hr⟩
  · decide
  · have : c.toNat ≤ 13 := UInt32.le_iff_toNat_le.1 hr
    omega

theorem isIdentStart_toNat {c : Char} (h : Lexer.isIdentStart c = true) : 65 ≤ c.toNat := by
  have hranges : (decide ('A'.val ≤ c.val ∧ c.val ≤ 'Z'.val) ||
      ('a'.val ≤ c.val && c.val ≤ 'z'.val) || c = '_') = true := h
  simp only [Bool.or_eq_true, Bool.and_eq_true, decide_eq_true_eq,
    UInt32.le_iff_toNat_le] at hranges
  rcases hranges with (hupper | hlower) | rfl
  · exact hupper.1
  · exact le_trans (by decide) hlower.1
  · decide

theorem isSolid_of_toNat {c : Char} (h : 36 ≤ c.toNat) : IsSolid c := by
  refine ⟨?_, ?_⟩
  · by_contra hs
    have := isSpace_toNat (by simpa using hs)
    omega
  · rintro rfl
    exact absurd h (by decide)

theorem isSolid_numberChar {c : Char} (h : c.isDigit = true ∨ c = '.') : IsSolid c := by
  rcases h with h | rfl
  · have := isDigit_iff.1 h
    exact isSolid_of_toNat (by omega)
  · exact isSolid_of_toNat (by decide)

theorem isNumberStart_decimal {int : List Char} {frac : Option (List Char)}
    (h : IsDecimal int frac) (rest : List Char) :
    Lexer.isNumberStart (decimalChars int frac ++ rest) = true := by
  cases int with
  | cons c cs =>
    have hc := h.int c (by simp)
    cases frac <;> simp [decimalChars, Lexer.isNumberStart, hc]
  | nil =>
    cases frac with
    | none => simpa using h.nonempty
    | some fs =>
      cases fs with
      | nil => simpa using h.nonempty
      | cons d ds =>
        have hd : d.isDigit = true := h.fractional d (by simp)
        simp [decimalChars, Lexer.isNumberStart, hd]

theorem skipSpace_gap {cur : Cursor} {g text cs rest : List Char} {c : Char} (hg : Gap g)
    (htext : text = c :: cs) (hc : IsSolid c) (hcur : cur.rest = g ++ text ++ rest) :
    ∃ pos line col, Lexer.skipSpace cur = ⟨c :: (cs ++ rest), pos, line, col⟩ := by
  obtain ⟨pos, line, col, hskip⟩ := skip_gap hg cur.pos cur.line cur.col
  refine ⟨pos, line, col, ?_⟩
  rw [Lexer.skipSpace, hcur, List.append_assoc, hskip, htext, List.cons_append, skip_solid hc]

theorem lex_ident {lx : Lexer} {g name rest : List Char} (h : IsIdent name)
    (hs : ∀ c ∈ rest.head?, Lexer.isIdentChar c = false) (hg : Gap g)
    (hcur : lx.cursor.rest = g ++ name ++ rest) : Reads lx (.ident name) rest := by
  obtain ⟨c, cs, rfl, hstart⟩ := h.start
  have hge := isIdentStart_toNat hstart
  have hnd : c.isDigit = false := by
    by_contra hd
    have := isDigit_iff.1 (by simpa using hd)
    omega
  have hdot : c ≠ '.' := by
    rintro rfl
    exact absurd hge (by decide)
  obtain ⟨pos, line, col, hskip⟩ := skipSpace_gap hg rfl (isSolid_of_toNat (by omega)) hcur
  have htake := takeWhile_append_stop h.chars hs
  rw [List.cons_append] at htake
  refine lex_word hskip ?_
  simp [Lexer.lex, hskip, Lexer.isNumberStart, hnd, hdot, hstart, htake]

def Lexer.Scans (lx : Lexer) (c : Char) (cs rest : List Char) : Prop :=
  (lx.multi.find? fun sym => sym.isPrefixOf (c :: (cs ++ rest))) = some (c :: cs) ∨
    (lx.multi.find? fun sym => sym.isPrefixOf (c :: (cs ++ rest))) = none ∧ cs = [] ∧
      lx.symbols.contains c = true

theorem lex_symbol {lx : Lexer} {g cs rest : List Char} {c : Char} (hc : IsSolid c)
    (hnum : Lexer.isNumberStart (c :: (cs ++ rest)) = false) (hid : Lexer.isIdentStart c = false)
    (hscan : lx.Scans c cs rest) (hg : Gap g) (hcur : lx.cursor.rest = g ++ (c :: cs) ++ rest) :
    Reads lx (.symbol (c :: cs)) rest := by
  obtain ⟨pos, line, col, hskip⟩ := skipSpace_gap hg rfl hc hcur
  refine lex_word hskip ?_
  rcases hscan with hfind | ⟨hfind, rfl, hmem⟩
  · simp only [Lexer.lex, hskip, hnum, Bool.false_eq_true, if_false, hid, hfind]
  · simp only [List.nil_append] at hskip hnum hfind
    simp only [Lexer.lex, hskip, hnum, Bool.false_eq_true, if_false, hid, hfind, hmem, if_true]

theorem lex_eof {lx : Lexer} {g : List Char} (hg : TrailingGap g) (hcur : lx.cursor.rest = g) :
    ∃ token lx', lx.lex = .ok (token, lx') ∧ token.kind = .eof ∧ lx'.cursor.rest = [] ∧
      lx'.symbols = lx.symbols ∧ lx'.multi = lx.multi := by
  have hrest : (Lexer.skipSpace lx.cursor).rest = [] := by
    rw [Lexer.skipSpace, hcur]
    exact skip_trailing hg _ _ _
  simp [Lexer.lex, hrest, Cursor.advance]

theorem blank_toNat {c : Char} (h : isSpace c = true ∨ c = '#') : c.toNat ≤ 35 ∧ c ≠ '=' := by
  have hle : c.toNat ≤ 35 := by
    rcases h with h | rfl
    · have := isSpace_toNat h
      omega
    · decide
  refine ⟨hle, ?_⟩
  rintro rfl
  exact absurd hle (by decide)

theorem isIdentChar_toNat {c : Char} (h : Lexer.isIdentChar c = true) : 48 ≤ c.toNat := by
  simp only [Lexer.isIdentChar, Char.isAlphanum, Bool.or_eq_true, decide_eq_true_eq] at h
  rcases h with (h | h) | rfl
  · have := isIdentStart_toNat (c := c) (by simp [Lexer.isIdentStart, h])
    omega
  · exact (isDigit_iff.1 h).1
  · decide

theorem isNumberChar_toNat {c : Char} (h : Lexer.isNumberChar c = true) : 46 ≤ c.toNat := by
  simp only [Lexer.isNumberChar, Bool.or_eq_true, decide_eq_true_eq] at h
  rcases h with h | rfl
  · have := isDigit_iff.1 h
    omega
  · decide

-- What a symbol set of the lexer reads, and which tokens may stand next to each other without a
-- gap.
structure Language where
  symbols : List Char
  multi : List (List Char)
  Ok : Tok → Prop
  Stops : Tok → List Char → Prop
  Joinable : Tok → Tok → Prop
  lex : ∀ {lx : Lexer} {t : Tok} {g rest : List Char}, lx.symbols = symbols → lx.multi = multi →
    Ok t → Stops t rest → Gap g → lx.cursor.rest = g ++ t.text ++ rest →
      Reads lx t rest
  stops_blank : ∀ {t rest}, (∀ c ∈ rest.head?, c.toNat ≤ 35 ∧ c ≠ '=') → Stops t rest
  stops_tok : ∀ {t t' rest}, Joinable t t' → Ok t' → Stops t (t'.text ++ rest)

section Ready

variable {L : Language} {End : List Char → Prop}

inductive Lexable (L : Language) (End : List Char → Prop) : List Tok → List Char → Prop
  | done {g} (hg : End g) : Lexable L End [] g
  | tok {g t ts rest} (hg : Gap g) (hok : L.Ok t) (hs : L.Stops t rest)
      (h : Lexable L End ts rest) : Lexable L End (t :: ts) (g ++ t.text ++ rest)

theorem stops_trailing {t : Tok} {g : List Char} (hg : TrailingGap g) : L.Stops t g :=
  L.stops_blank fun c hc => blank_toNat (hg.blank c hc)

theorem stops_rendering {t : Tok} {ts : List Tok} {rest : List Char}
    (hE : ∀ g, End g → L.Stops t g) (hr : Rendering End (ts.map Tok.text) rest)
    (hok : ∀ t' ∈ ts, L.Ok t') (hj : ∀ t' ∈ ts.head?, L.Joinable t t') : L.Stops t rest := by
  cases ts with
  | nil =>
    cases hr with
    | done hg => exact hE _ hg
  | cons t' ts =>
    cases hr with
    | @tok g _ _ rest' hg hr =>
      cases g with
      | nil => exact L.stops_tok (hj t' rfl) (hok t' (by simp))
      | cons c g =>
        refine L.stops_blank fun d hd => blank_toNat (hg.blank d ?_)
        simpa using hd

theorem Lexable.of_rendering {ts : List Tok} {source : List Char}
    (hE : ∀ t g, End g → L.Stops t g) (hr : Rendering End (ts.map Tok.text) source)
    (hok : ∀ t ∈ ts, L.Ok t) (hj : ts.IsChain L.Joinable) : Lexable L End ts source := by
  induction ts generalizing source with
  | nil =>
    cases hr with
    | done hg => exact .done hg
  | cons t ts ih =>
    cases hr with
    | tok hg hr =>
      have hchain := List.isChain_cons.1 hj
      have hoks : ∀ t' ∈ ts, L.Ok t' := fun t' ht' => hok t' (by simp [ht'])
      exact .tok hg (hok t (by simp)) (stops_rendering (hE t) hr hoks hchain.1)
        (ih hr hoks hchain.2)

theorem Lexable.length_le {ts : List Tok} {source : List Char} (hne : ∀ t, L.Ok t → t.text ≠ [])
    (h : Lexable L End ts source) : ts.length ≤ source.length := by
  induction h with
  | done hg => simp
  | @tok g t ts rest _ hok _ _ ih =>
    have hpos := List.length_pos_iff.2 (hne t hok)
    simp only [List.length_cons, List.length_append]
    omega

theorem Lexable.bind {ts ts' : List Tok} {source rest : List Char}
    (h : Lexable L (· = rest) ts source) (h' : Lexable L End ts' rest) :
    Lexable L End (ts ++ ts') source := by
  induction h with
  | done hg =>
    obtain rfl := hg
    exact h'
  | tok hg hok hs _ ih => exact .tok hg hok hs ih

theorem Lexable.prepend {ts : List Tok} {g source : List Char}
    (hE : ∀ g', End g' → End (g ++ g')) (hg : Gap g) (h : Lexable L End ts source) :
    Lexable L End ts (g ++ source) := by
  cases h with
  | done hg' => exact .done (hE _ hg')
  | tok hg' hok hs h =>
    rw [← List.append_assoc, ← List.append_assoc]
    exact .tok (hg.append hg') hok hs h

inductive Ready (L : Language) (End : List Char → Prop) : Lexer → List Tok → Prop
  | fresh {lx ts} (hs : lx.symbols = L.symbols) (hm : lx.multi = L.multi) (hp : lx.peeked = none)
      (hl : Lexable L End ts lx.cursor.rest) : Ready L End lx ts
  | cached {lx token t ts} (hp : lx.peeked = some token) (hm : Matches token t)
      (hr : Ready L End { lx with peeked := none } ts) : Ready L End lx (t :: ts)
  | eof {lx token} (hE : End []) (hp : lx.peeked = some token) (hk : token.kind = .eof) :
      Ready L End lx []

namespace Ready

theorem peek_cons {lx : Lexer} {t : Tok} {ts : List Tok} (h : Ready L End lx (t :: ts)) :
    ∃ token lx', lx.peek = .ok (token, lx') ∧ Matches token t ∧ lx'.peeked = some token ∧
      Ready L End { lx' with peeked := none } ts := by
  cases h with
  | fresh hs hm hp hl =>
    generalize hrest : lx.cursor.rest = source at hl
    cases hl with
    | tok hg hok hstop hl =>
      obtain ⟨token, lx', hlex, hmt, hcur', hsym, hmulti⟩ := L.lex hs hm hok hstop hg hrest
      refine ⟨token, { lx' with peeked := some token }, ?_, hmt, rfl, ?_⟩
      · simp [Lexer.peek, hp, hlex]
      · refine .fresh (hsym.trans hs) (hmulti.trans hm) rfl ?_
        simpa [hcur'] using hl
  | cached hp hm hr => exact ⟨_, lx, by simp [Lexer.peek, hp], hm, hp, hr⟩

theorem peek_nil {lx : Lexer} (h : Ready L TrailingGap lx []) :
    ∃ token lx', lx.peek = .ok (token, lx') ∧ token.kind = .eof ∧
      Ready L TrailingGap lx' [] := by
  cases h with
  | fresh hs hm hp hl =>
    generalize hrest : lx.cursor.rest = source at hl
    cases hl with
    | done hg =>
      obtain ⟨token, lx', hlex, hk, -⟩ := lex_eof hg hrest
      exact ⟨token, { lx' with peeked := some token }, by simp [Lexer.peek, hp, hlex], hk,
        .eof (.gap .nil) rfl hk⟩
  | eof hE hp hk => exact ⟨_, lx, by simp [Lexer.peek, hp], hk, .eof hE hp hk⟩

theorem consume_cons {lx : Lexer} {t : Tok} {ts : List Tok} (h : Ready L End lx (t :: ts)) :
    ∃ token lx', Parser.consume lx = .ok (token, lx') ∧ Matches token t ∧ Ready L End lx' ts := by
  obtain ⟨token, lx', hpeek, hm, hp, hr⟩ := h.peek_cons
  exact ⟨token, _, by simp [Parser.consume, Lexer.next, hpeek], hm, hr⟩

theorem peeked {lx lx' : Lexer} {t : Tok} {ts : List Tok} {token : Token}
    (h : Ready L End lx (t :: ts)) (hp : lx.peek = .ok (token, lx')) :
    Ready L End lx' (t :: ts) := by
  obtain ⟨token', lx'', hpeek, hm, hpk, hr⟩ := h.peek_cons
  obtain ⟨rfl, rfl⟩ : token' = token ∧ lx'' = lx' := by simpa [hpeek] using hp
  exact .cached hpk hm hr

theorem start {source : List Char} {ts : List Tok} (h : Lexable L End ts source)
    (hm : L.multi.Pairwise fun a b => b.length ≤ a.length) :
    Ready L End (.make (String.ofList source) L.symbols L.multi) ts := by
  refine .fresh rfl hm.insertionSort_eq rfl ?_
  simpa [Lexer.make, Cursor.start] using h

theorem next_peeked {lx : Lexer} {token : Token} (hp : lx.peeked = some token) :
    lx.next = .ok (token, { lx with peeked := none }) := by
  simp [Lexer.next, Lexer.peek, hp]

theorem matchSymbol_cons {lx : Lexer} {text : List Char} {ts : List Tok} (symbol : String)
    (h : Ready L End lx (.symbol text :: ts)) (hs : symbol = String.ofList text) :
    ∃ lx', Parser.matchSymbol lx symbol = .ok (true, lx') ∧ Ready L End lx' ts := by
  obtain ⟨token, lx', hpeek, hm, hp, hr⟩ := h.peek_cons
  have hk : token.kind = .symbol := hm.kind
  have ht : token.text = String.ofList text := hm.text
  exact ⟨_, by simp [Parser.matchSymbol, hpeek, hk, ht, hs, next_peeked hp], hr⟩

theorem matchSymbol_ne {lx : Lexer} {t : Tok} {ts : List Tok} {symbol : String}
    (h : Ready L End lx (t :: ts)) (hne : t.kind = .symbol → String.ofList t.text ≠ symbol) :
    ∃ lx', Parser.matchSymbol lx symbol = .ok (false, lx') ∧ Ready L End lx' (t :: ts) := by
  obtain ⟨token, lx', hpeek, hm, -, -⟩ := h.peek_cons
  have hno : ¬(token.kind = .symbol ∧ token.text = symbol) := by
    rintro ⟨hk, ht⟩
    exact hne (hm.kind ▸ hk) (hm.text ▸ ht)
  exact ⟨lx', by simp [Parser.matchSymbol, hpeek, hno], h.peeked hpeek⟩

theorem matchSymbol_nil {lx : Lexer} (symbol : String) (h : Ready L TrailingGap lx []) :
    ∃ lx', Parser.matchSymbol lx symbol = .ok (false, lx') ∧ Ready L TrailingGap lx' [] := by
  obtain ⟨token, lx', hpeek, hk, hr⟩ := h.peek_nil
  exact ⟨lx', by simp [Parser.matchSymbol, hpeek, hk], hr⟩

theorem expectToken_cons {lx : Lexer} {t : Tok} {ts : List Tok} (what : String)
    (h : Ready L End lx (t :: ts)) :
    ∃ token lx', Parser.expectToken lx t.kind what = .ok (token, lx') ∧ Matches token t ∧
      Ready L End lx' ts := by
  obtain ⟨token, lx', hpeek, hm, hp, hr⟩ := h.peek_cons
  exact ⟨token, _, by simp [Parser.expectToken, hpeek, hm.kind, next_peeked hp], hm, hr⟩

end Ready

end Ready

end Lark.Toolkit.Dsl
