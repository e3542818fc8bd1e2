import Lark.Base.Run
import Lark.Toolkit.Lexing

namespace Lark.Toolkit.Dsl

open Lark.Base

inductive Consumes (lx : Lexer) : List Token → Lexer → Prop
  | nil : Consumes lx [] lx
  | peek {ts lx' lx'' t} (h : Consumes lx ts lx') (hp : lx'.peek = .ok (t, lx'')) :
      Consumes lx ts lx''
  | next {ts lx' lx'' t} (h : Consumes lx ts lx') (hn : lx'.next = .ok (t, lx''))
      (hk : t.kind ≠ .eof) : Consumes lx (ts ++ [t]) lx''

variable {lx lx' lx'' : Lexer} {t : Token} {ts us : List Token} {E : Exn → Prop}

theorem Consumes.trans (h : Consumes lx ts lx') (h' : Consumes lx' us lx'') :
    Consumes lx (ts ++ us) lx'' := by
  induction h' with
  | nil => simpa using h
  | peek _ hp ih => exact ih.peek hp
  | next _ hn hk ih =>
    rw [← List.append_assoc]
    exact ih.next hn hk

theorem peek_eq_ok (h : lx.peek = .ok (t, lx')) :
    lx'.peeked = some t ∧ (lx.peeked = some t ∧ lx' = lx ∨
      lx.peeked = none ∧ ∃ lx₀, lx.lex = .ok (t, lx₀) ∧ lx' = { lx₀ with peeked := some t }) := by
  unfold Lexer.peek at h
  cases hp : lx.peeked with
  | some t' =>
    obtain ⟨rfl, rfl⟩ : t' = t ∧ lx = lx' := by simpa [hp] using h
    exact ⟨hp, .inl ⟨rfl, rfl⟩⟩
  | none =>
    cases hl : lx.lex with
    | error e => simp [hp, hl] at h
    | ok r =>
      obtain ⟨rfl, rfl⟩ : r.1 = t ∧ { r.2 with peeked := some r.1 } = lx' := by
        simpa [hp, hl] using h
      exact ⟨rfl, .inr ⟨rfl, r.2, rfl, rfl⟩⟩

theorem next_eq_ok : lx.next = .ok (t, lx'') ↔
    ∃ lx', lx.peek = .ok (t, lx') ∧ lx'' = { lx' with peeked := none } := by
  unfold Lexer.next
  cases hp : lx.peek with
  | error e => simp
  | ok r =>
    obtain ⟨t', lx₁⟩ := r
    simp only [except_ok_bind, Except.ok.injEq, Prod.mk.injEq]
    constructor
    · rintro ⟨rfl, rfl⟩
      exact ⟨lx₁, ⟨rfl, rfl⟩, rfl⟩
    · rintro ⟨lx₂, ⟨rfl, rfl⟩, rfl⟩
      exact ⟨rfl, rfl⟩

theorem next_peek (h : lx.peek = .ok (t, lx')) : lx'.next = lx.next := by
  have hp : lx'.peek = .ok (t, lx') := by simp [Lexer.peek, (peek_eq_ok h).1]
  rw [Lexer.next, Lexer.next, h, hp]

def Lexer.size (lx : Lexer) : Nat :=
  lx.cursor.rest.length +
    match lx.peeked with
    | some t => if t.kind = .eof then 0 else 1
    | none => 0

theorem skip_suffix (comment : Bool) (cs : List Char) (pos line col : Nat) :
    (Lexer.skip comment cs pos line col).rest <:+ cs := by
  induction cs generalizing comment pos line col with
  | nil => simp [Lexer.skip]
  | cons c cs ih =>
    rw [Lexer.skip]
    have hcs : cs <:+ c :: cs := List.suffix_cons c cs
    split_ifs
    · exact (ih _ _ _ _).trans hcs
    · exact (ih _ _ _ _).trans hcs
    · exact (ih _ _ _ _).trans hcs
    · exact (ih _ _ _ _).trans hcs
    · exact List.suffix_rfl

theorem skipSpace_suffix (cur : Cursor) : (Lexer.skipSpace cur).rest <:+ cur.rest :=
  skip_suffix false cur.rest cur.pos cur.line cur.col

theorem lex_size (hu : lx.Usable) (h : lx.lex = .ok (t, lx')) :
    lx'.Usable ∧ lx'.cursor.rest.length + (if t.kind = .eof then 0 else 1) ≤
      lx.cursor.rest.length := by
  obtain ⟨kind, text, number, ht, rfl, rfl⟩ := Lexer.lex_ok h
  refine ⟨⟨hu.symbols, hu.longest⟩, ?_⟩
  have hle := (skipSpace_suffix lx.cursor).length_le
  have htext := ht.text_prefix.length_le
  have hempty := (ht.clean hu).2
  simp only [Cursor.advance, List.length_drop]
  split_ifs with hk
  · omega
  · have hpos : 0 < text.length := List.length_pos_iff.2 fun he => hk (hempty.1 he)
    omega

theorem peek_size (hu : lx.Usable) (h : lx.peek = .ok (t, lx')) :
    lx'.Usable ∧ lx'.size ≤ lx.size := by
  obtain ⟨-, ⟨-, rfl⟩ | ⟨hp, lx₀, hl, rfl⟩⟩ := peek_eq_ok h
  · exact ⟨hu, le_rfl⟩
  · obtain ⟨hu', hsize⟩ := lex_size hu hl
    refine ⟨⟨hu'.symbols, hu'.longest⟩, ?_⟩
    simpa [Lexer.size, hp] using hsize

theorem next_size (hu : lx.Usable) (h : lx.next = .ok (t, lx')) (hk : t.kind ≠ .eof) :
    lx'.Usable ∧ lx'.size + 1 ≤ lx.size := by
  obtain ⟨lx₀, hp, rfl⟩ := next_eq_ok.1 h
  obtain ⟨hu', hsize⟩ := peek_size hu hp
  refine ⟨⟨hu'.symbols, hu'.longest⟩, ?_⟩
  simpa [Lexer.size, (peek_eq_ok hp).1, hk] using hsize

theorem Consumes.size (hu : lx.Usable) (h : Consumes lx ts lx') :
    lx'.Usable ∧ lx'.size + ts.length ≤ lx.size := by
  induction h with
  | nil => exact ⟨hu, by simp⟩
  | peek _ hp ih =>
    obtain ⟨hu', hsize⟩ := peek_size ih.1 hp
    exact ⟨hu', by omega⟩
  | next _ hn hk ih =>
    obtain ⟨hu', hsize⟩ := next_size ih.1 hn hk
    refine ⟨hu', ?_⟩
    rw [List.length_append, List.length_singleton]
    omega

structure Lexer.Fit (E : Exn → Prop) (lx : Lexer) : Prop where
  usable : lx.Usable
  throws : ∀ ts lx', Consumes lx ts lx' → ∀ e, lx'.peek = .error e → E e

theorem Lexer.Fit.consumes (h : lx.Fit E) (hc : Consumes lx ts lx') : lx'.Fit E :=
  ⟨(hc.size h.usable).1, fun _ _ hc' => h.throws _ _ (hc.trans hc')⟩

theorem Lexer.Fit.mono {E' : Exn → Prop} (h : lx.Fit E) (hE : ∀ e, E e → E' e) : lx.Fit E' :=
  ⟨h.usable, fun ts lx' hc e he => hE e (h.throws ts lx' hc e he)⟩

def Positioned (E : Exn → Prop) : Prop := ∀ what line col, E (.dslError what line col)

theorem peek_settles (h : lx.Fit E) :
    Settles lx.peek (fun r => Consumes lx [] r.2 ∧ r.2.peeked = some r.1) E := by
  cases hp : lx.peek with
  | error e => exact h.throws [] lx .nil e hp
  | ok r => exact ⟨Consumes.nil.peek hp, (peek_eq_ok hp).1⟩

theorem next_settles (h : lx.Fit E) :
    Settles lx.next (fun r => r.1.kind ≠ .eof → Consumes lx [r.1] r.2) E := by
  cases hn : lx.next with
  | error e =>
    refine h.throws [] lx .nil e ?_
    cases hp : lx.peek with
    | error e' => simpa [Lexer.next, hp] using hn
    | ok r => simp [Lexer.next, hp] at hn
  | ok r => exact fun hk => Consumes.nil.next hn hk

theorem fail_settles {α : Type} (hE : Positioned E) (lx : Lexer) (message : String)
    (Q : α → Prop) : Settles (Parser.fail lx message) Q E := by
  unfold Parser.fail
  split <;> exact hE _ _ _

section

variable (hE : Positioned E)
include hE

theorem expectSymbol_settles (h : lx.Fit E) (symbol what : String) :
    Settles (Parser.expectSymbol lx symbol what)
      (fun lx' => ∃ t, t.kind = .symbol ∧ t.text = symbol ∧ Consumes lx [t] lx') E := by
  unfold Parser.expectSymbol
  refine (peek_settles h).bind fun r hr => ?_
  obtain ⟨t, lx'⟩ := r
  simp only
  split_ifs with hk
  · exact fail_settles hE _ _ _
  · rw [not_or, not_not, not_not] at hk
    have hn := Ready.next_peeked hr.2
    rw [hn]
    exact ⟨t, hk.1, hk.2, hr.1.next hn (by simp [hk.1])⟩

theorem expectToken_settles (h : lx.Fit E) {kind : TokenKind} (hk : kind ≠ .eof) (what : String) :
    Settles (Parser.expectToken lx kind what)
      (fun r => r.1.kind = kind ∧ Consumes lx [r.1] r.2) E := by
  unfold Parser.expectToken
  refine (peek_settles h).bind fun r hr => ?_
  obtain ⟨t, lx'⟩ := r
  simp only
  split_ifs with hkind
  · exact fail_settles hE _ _ _
  · rw [not_not] at hkind
    have hn := Ready.next_peeked hr.2
    rw [hn]
    exact ⟨hkind, hr.1.next hn (hkind ▸ hk)⟩

end

theorem matchSymbol_settles (h : lx.Fit E) (symbol : String) :
    Settles (Parser.matchSymbol lx symbol)
      (fun r => ∃ ts, Consumes lx ts r.2 ∧ (r.1 = true → ts ≠ [])) E := by
  unfold Parser.matchSymbol
  refine (peek_settles h).bind fun r hr => ?_
  obtain ⟨t, lx'⟩ := r
  simp only
  split_ifs with hk
  · have hn := Ready.next_peeked hr.2
    rw [hn]
    exact ⟨[t], hr.1.next hn (by simp [hk.1]), by simp⟩
  · exact ⟨[], hr.1, by simp⟩

theorem atEnd_settles (h : lx.Fit E) :
    Settles (Parser.atEnd lx) (fun r => Consumes lx [] r.2 ∧
      ∃ t, r.2.peeked = some t ∧ r.1 = decide (t.kind = .eof)) E := by
  refine (peek_settles h).bind fun r hr => ?_
  exact ⟨hr.1, r.1, hr.2, rfl⟩

theorem Consumes.produces (h : Consumes lx ts lx') :
    ∃ lx₀, Produces lx ts lx₀ ∧ (lx' = lx₀ ∨ ∃ t, lx₀.peek = .ok (t, lx')) := by
  induction h with
  | nil => exact ⟨lx, .nil, .inl rfl⟩
  | @peek ts lx' lx'' t _ hpeek ih =>
    obtain ⟨lx₀, hprod, rfl | ⟨u, hu⟩⟩ := ih
    · exact ⟨lx', hprod, .inr ⟨t, hpeek⟩⟩
    · obtain ⟨rfl, rfl⟩ : u = t ∧ lx' = lx'' := by
        simpa [Lexer.peek, (peek_eq_ok hu).1] using hpeek
      exact ⟨lx₀, hprod, .inr ⟨u, hu⟩⟩
  | @next ts lx' lx'' t _ hn _ ih =>
    obtain ⟨lx₀, hprod, rfl | ⟨u, hu⟩⟩ := ih
    · exact ⟨lx'', hprod.next hn, .inl rfl⟩
    · exact ⟨lx'', hprod.next (next_peek hu ▸ hn), .inl rfl⟩

theorem Consumes.lexes (h : Consumes lx ts lx') (hs : Lexes lx' us) : Lexes lx (ts ++ us) := by
  induction h generalizing us with
  | nil => exact hs
  | @peek ts lx' lx'' t _ hp ih =>
    refine ih ?_
    cases hs with
    | eof hn hk => exact .eof (next_peek hp ▸ hn) hk
    | token hn hk hs => exact .token (next_peek hp ▸ hn) hk hs
  | next _ hn hk ih =>
    rw [List.append_assoc]
    exact ih (.token hn hk hs)

def Overflows (lx : Lexer) : Prop :=
  ∃ ts lx', Produces lx ts lx' ∧ Lexer.isNumberStart (Lexer.skipSpace lx'.cursor).rest = true ∧
    inDoubleRange (leadingValue (Lexer.numberRun (Lexer.skipSpace lx'.cursor).rest)) = false

inductive LexError (lx : Lexer) : Exn → Prop
  | positioned (what : String) (line col : Nat) : LexError lx (.dslError what line col)
  | overflow (h : Overflows lx) : LexError lx (.outOfRange "stod")

theorem lex_throws {e : Exn} (h : lx.lex = .error e) :
    (∃ what line col, e = .dslError what line col) ∨ e = .outOfRange "stod" ∧
      Lexer.isNumberStart (Lexer.skipSpace lx.cursor).rest = true ∧
      inDoubleRange (leadingValue (Lexer.numberRun (Lexer.skipSpace lx.cursor).rest)) = false := by
  have hl := Lexer.lex_lexed lx
  rw [h] at hl
  cases hl with
  | unexpected what _ => exact .inl ⟨what, _, _, rfl⟩
  | unread hn hx =>
    rw [stod_numberRun hn] at hx
    split_ifs at hx with hr
    exact .inr ⟨(Except.error.inj hx).symm, hn, by simpa using hr⟩

theorem fit_lexError (hu : lx.Usable) (hp : lx.peeked = none) : lx.Fit (LexError lx) := by
  refine ⟨hu, fun ts lx' hc e he => ?_⟩
  obtain ⟨lx₀, hprod, rfl | ⟨t, ht⟩⟩ := hc.produces
  · have hl : lx'.lex = .error e := by
      cases hl : lx'.lex with
      | error e' => simpa [Lexer.peek, hprod.peeked hp, hl] using he
      | ok r => simp [Lexer.peek, hprod.peeked hp, hl] at he
    rcases lex_throws hl with ⟨what, line, col, rfl⟩ | ⟨rfl, hn, hr⟩
    · exact .positioned what line col
    · exact .overflow ⟨ts, lx', hprod, hn, hr⟩
  · simp [Lexer.peek, (peek_eq_ok ht).1] at he

theorem Produces.suffix (h : Produces lx ts lx') (hp : lx.peeked = none) :
    lx'.cursor.rest <:+ lx.cursor.rest := by
  induction h with
  | nil => exact List.suffix_rfl
  | next hprod hn ih =>
    obtain ⟨_, _, _, -, -, rfl⟩ := Lexer.lex_ok (next_fresh (hprod.peeked hp) hn).1
    exact ((List.drop_suffix _ _).trans (skipSpace_suffix _)).trans ih

theorem not_overflows (hp : lx.peeked = none) (hd : ∀ c ∈ lx.cursor.rest, c.isDigit = false) :
    ¬ Overflows lx := by
  rintro ⟨ts, lx', hprod, hn, -⟩
  have hsuffix := (skipSpace_suffix lx'.cursor).trans (hprod.suffix hp)
  generalize (Lexer.skipSpace lx'.cursor).rest = rest at hn hsuffix
  have hnone : ∀ c ∈ rest, c.isDigit = false := fun c hc => hd c (hsuffix.subset hc)
  cases rest with
  | nil => cases hn
  | cons c cs =>
    cases cs with
    | nil => simp [Lexer.isNumberStart, hnone c] at hn
    | cons d cs => simp [Lexer.isNumberStart, hnone c, hnone d] at hn

end Lark.Toolkit.Dsl
