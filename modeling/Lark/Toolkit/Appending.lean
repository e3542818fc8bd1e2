import Lark.Toolkit.Parsing

namespace Lark.Toolkit.Dsl

open Lark.Base

structure Alike (t u : Token) : Prop where
  kind : t.kind = u.kind
  text : t.text = u.text
  number : t.number = u.number

section Lexes

variable {lx : Lexer} {t : Token} {ts : List Token}

theorem Lexes.ne_nil (h : Lexes lx ts) : ts ≠ [] := by
  cases h <;> simp

theorem Lexes.peek (h : Lexes lx (t :: ts)) :
    ∃ lx', lx.peek = .ok (t, lx') ∧ lx'.peeked = some t ∧ Lexes lx' (t :: ts) := by
  cases h with
  | eof hn hk =>
    obtain ⟨lx', hp, -⟩ := next_eq_ok.1 hn
    exact ⟨lx', hp, (peek_eq_ok hp).1, .eof ((next_peek hp).trans hn) hk⟩
  | token hn hk hs =>
    obtain ⟨lx', hp, -⟩ := next_eq_ok.1 hn
    exact ⟨lx', hp, (peek_eq_ok hp).1, .token ((next_peek hp).trans hn) hk hs⟩

theorem Lexes.next (h : Lexes lx (t :: ts)) : ∃ lx', lx.next = .ok (t, lx') ∧
    (t.kind = .eof ∧ ts = [] ∨ t.kind ≠ .eof ∧ Lexes lx' ts) := by
  cases h with
  | eof hn hk => exact ⟨_, hn, .inl ⟨hk, rfl⟩⟩
  | token hn hk hs => exact ⟨_, hn, .inr ⟨hk, hs⟩⟩

theorem Lexes.last_kind (h : Lexes lx ts) : ∀ t ∈ ts.getLast?, t.kind = .eof := by
  induction h with
  | eof _ hk => simpa using hk
  | @token _ _ t ts _ _ hs ih =>
    obtain ⟨u, us, rfl⟩ := List.exists_cons_of_ne_nil hs.ne_nil
    simpa [List.getLast?_cons_cons] using ih

theorem Lexes.all {P : Token → Prop} {I : Lexer → Prop}
    (hstep : ∀ lx t lx', I lx → lx.next = .ok (t, lx') → P t ∧ I lx') (h : Lexes lx ts)
    (hi : I lx) : ∀ t ∈ ts, P t := by
  induction h with
  | eof hn _ => simpa using (hstep _ _ _ hi hn).1
  | token hn _ _ ih =>
    obtain ⟨ht, hi'⟩ := hstep _ _ _ hi hn
    simpa using ⟨ht, ih hi'⟩

end Lexes

def Lexer.pending (lx : Lexer) : List Char := (skipSpace lx.cursor).rest

theorem skip_rest (comment : Bool) (cs : List Char) (pos line col pos' line' col' : Nat) :
    (Lexer.skip comment cs pos line col).rest = (Lexer.skip comment cs pos' line' col').rest := by
  induction cs generalizing comment pos line col pos' line' col' with
  | nil => rfl
  | cons c cs ih =>
    rw [Lexer.skip, Lexer.skip]
    split_ifs
    · exact ih _ _ _ _ _ _ _
    · exact ih _ _ _ _ _ _ _
    · exact ih _ _ _ _ _ _ _
    · exact ih _ _ _ _ _ _ _
    · rfl

theorem skip_line (comment : Bool) (cs tail : List Char) (pos line col : Nat) :
    (Lexer.skip comment cs pos line col).rest = [] ∧
        (Lexer.skip comment (cs ++ '\n' :: tail) pos line col).rest =
          (Lexer.skip false tail 0 1 1).rest ∨
      (Lexer.skip comment cs pos line col).rest ≠ [] ∧
        (Lexer.skip comment (cs ++ '\n' :: tail) pos line col).rest =
          (Lexer.skip comment cs pos line col).rest ++ '\n' :: tail := by
  induction cs generalizing comment pos line col with
  | nil =>
    refine .inl ⟨rfl, ?_⟩
    simp only [List.nil_append, Lexer.skip, bne_self_eq_false, Bool.and_false, Bool.false_eq_true,
      if_false, show ('\n' : Char) ≠ '#' by decide, show isSpace '\n' = true from rfl, if_true]
    exact skip_rest _ _ _ _ _ _ _ _
  | cons c cs ih =>
    rw [List.cons_append, Lexer.skip, Lexer.skip]
    split_ifs
    · exact ih _ _ _ _
    · exact ih _ _ _ _
    · exact ih _ _ _ _
    · exact ih _ _ _ _
    · exact .inr ⟨by simp, rfl⟩

section Takes

variable {a b lx : Lexer} {rest text : List Char} {kind : TokenKind} {number : Double}

theorem Lexer.Takes.congr (h : a.Takes rest kind text number) (hs : b.symbols = a.symbols)
    (hm : b.multi = a.multi) : b.Takes rest kind text number := by
  cases h with
  | eof => exact .eof
  | number hn hx => exact .number hn hx
  | ident hn hi => exact .ident hn hi
  | multi hn hi hsym => exact .multi hn hi (hm ▸ hsym)
  | single hn hi hsym hc => exact .single hn hi (hm ▸ hsym) (hs ▸ hc)

theorem Lexer.Takes.next (h : lx.Takes lx.pending kind text number) (hp : lx.peeked = none) :
    ∃ lx', lx.next = .ok (⟨kind, String.ofList text, number, (skipSpace lx.cursor).pos,
        (skipSpace lx.cursor).line, (skipSpace lx.cursor).col⟩, lx') ∧
      lx'.symbols = lx.symbols ∧ lx'.multi = lx.multi ∧ lx'.peeked = none ∧
      lx'.cursor.rest = lx.pending.drop text.length := by
  have hlex : lx.lex = .ok (⟨kind, String.ofList text, number, (skipSpace lx.cursor).pos,
      (skipSpace lx.cursor).line, (skipSpace lx.cursor).col⟩,
      { lx with cursor := (skipSpace lx.cursor).advance text.length }) := by
    unfold Lexer.pending at h
    unfold Lexer.lex
    generalize skipSpace lx.cursor = cur at h
    obtain ⟨rest, pos, line, col⟩ := cur
    cases h with
    | eof => rfl
    | number hn hx =>
      rw [numberRun] at hx ⊢
      simp [hn, hx]
    | ident hn hi => simp [hn, hi]
    | multi hn hi hsym => simp [hn, hi, hsym]
    | single hn hi hsym hc => simp [hn, hi, hsym, List.contains_iff_mem.1 hc]
  refine ⟨{ lx with cursor := (skipSpace lx.cursor).advance text.length }, ?_, rfl, rfl, hp, rfl⟩
  simp [Lexer.next, Lexer.peek, hp, hlex]

theorem prefix_line {sym cs tail : List Char} (hn : '\n' ∉ sym) :
    sym.isPrefixOf (cs ++ '\n' :: tail) = sym.isPrefixOf cs := by
  rw [Bool.eq_iff_iff, List.isPrefixOf_iff_prefix, List.isPrefixOf_iff_prefix]
  constructor
  · intro h
    rcases List.prefix_or_prefix_of_prefix h (List.prefix_append cs ('\n' :: tail)) with hle | hle
    · exact hle
    · obtain ⟨more, rfl⟩ := hle
      rw [List.prefix_append_right_inj] at h
      cases more with
      | nil => simp
      | cons c more =>
        obtain ⟨rfl, -⟩ := List.cons_prefix_cons.1 h
        simp at hn
  · exact fun h => h.trans (List.prefix_append _ _)

theorem takeWhile_line {p : Char → Bool} (hp : p '\n' = false) (cs tail : List Char) :
    (cs ++ '\n' :: tail).takeWhile p = cs.takeWhile p := by
  induction cs with
  | nil => simp [hp]
  | cons c cs ih => simp [List.takeWhile_cons, ih]

theorem numberStart_line (c : Char) (cs tail : List Char) :
    Lexer.isNumberStart (c :: (cs ++ '\n' :: tail)) = Lexer.isNumberStart (c :: cs) := by
  cases cs with
  | nil =>
    have hdigit : Char.isDigit '\n' = false := rfl
    simp [Lexer.isNumberStart, hdigit]
  | cons d cs => rfl

theorem Lexer.Takes.line (hu : lx.Usable) (h : lx.Takes rest kind text number)
    (hr : rest ≠ []) (tail : List Char) : lx.Takes (rest ++ '\n' :: tail) kind text number := by
  have hfind (cs : List Char) : (lx.multi.find? fun sym => sym.isPrefixOf (cs ++ '\n' :: tail)) =
      lx.multi.find? fun sym => sym.isPrefixOf cs := by
    refine List.find?_congr fun sym hsym => ?_
    exact prefix_line (hu.symbols sym (List.mem_append_left _ hsym)).2
  cases h with
  | eof => exact absurd rfl hr
  | @number c cs _ hn hx =>
    have hrun : numberRun (c :: (cs ++ '\n' :: tail)) = numberRun (c :: cs) :=
      takeWhile_line rfl (c :: cs) tail
    rw [← hrun] at hx ⊢
    exact .number (numberStart_line c cs tail ▸ hn) hx
  | @ident c cs hn hi =>
    rw [← takeWhile_line rfl (c :: cs) tail]
    exact .ident (numberStart_line c cs tail ▸ hn) hi
  | @multi c cs _ hn hi hsym =>
    exact .multi (numberStart_line c cs tail ▸ hn) hi ((hfind (c :: cs)).trans hsym)
  | @single c cs hn hi hsym hc =>
    exact .single (numberStart_line c cs tail ▸ hn) hi ((hfind (c :: cs)).trans hsym) hc

end Takes

structure Twin (a b : Lexer) : Prop where
  symbols : b.symbols = a.symbols
  multi : b.multi = a.multi
  left : a.peeked = none
  right : b.peeked = none

section Twin

variable {a a' b c : Lexer} {t : Token} {ts us : List Token} {more tail : List Char}

theorem Twin.next (h : Twin a b) (hn : a.next = .ok (t, a')) (hb : b.pending = a.pending ++ more)
    (hm : ∀ kind text number, a.Takes a.pending kind text number →
      a.Takes (a.pending ++ more) kind text number) :
    ∃ u b', b.next = .ok (u, b') ∧ Alike t u ∧ Twin a' b' ∧
      b'.cursor.rest = a'.cursor.rest ++ more := by
  obtain ⟨hl, hp⟩ := next_fresh h.left hn
  obtain ⟨kind, text, number, ht, rfl, rfl⟩ := Lexer.lex_ok hl
  have hb' : b.Takes b.pending kind text number := by
    rw [hb]
    exact (hm kind text number ht).congr h.symbols h.multi
  obtain ⟨b', hn', hs, hmulti, hp', hrest⟩ := hb'.next h.right
  refine ⟨_, b', hn', ⟨rfl, rfl, rfl⟩, ⟨hs.trans h.symbols, hmulti.trans h.multi, hp, hp'⟩, ?_⟩
  have hle : text.length ≤ a.pending.length := ht.text_prefix.length_le
  rw [hrest, hb, List.drop_append_of_le_length hle]
  rfl

theorem Twin.passed (h : Twin a c) (hn : a.next = .ok (t, a')) : Twin a' c := by
  obtain ⟨hl, hp⟩ := next_fresh h.left hn
  obtain ⟨_, _, _, -, -, rfl⟩ := Lexer.lex_ok hl
  exact ⟨h.symbols, h.multi, hp, h.right⟩

theorem Twin.lexes_same (h : Twin a b) (hb : b.pending = a.pending) (hs : Lexes a ts) :
    ∃ us, Lexes b us ∧ List.Forall₂ Alike ts us := by
  induction hs generalizing b with
  | @eof a a' t hn hk =>
    have hsame : b.pending = a.pending ++ [] := by rw [hb, List.append_nil]
    obtain ⟨u, b', hn', hu, -, -⟩ := h.next hn hsame fun _ _ _ ht => by simpa using ht
    exact ⟨[u], .eof hn' (hu.kind ▸ hk), .cons hu .nil⟩
  | @token a a' t ts hn hk _ ih =>
    have hsame : b.pending = a.pending ++ [] := by rw [hb, List.append_nil]
    obtain ⟨u, b', hn', hu, htwin, hrest⟩ := h.next hn hsame fun _ _ _ ht => by simpa using ht
    have hpending : b'.pending = a'.pending := by
      rw [Lexer.pending, Lexer.skipSpace, hrest, List.append_nil]
      exact skip_rest _ _ _ _ _ _ _ _
    obtain ⟨us, hus, hall⟩ := ih htwin hpending
    exact ⟨u :: us, .token hn' (hu.kind ▸ hk) hus, .cons hu hall⟩

theorem pending_line (hb : b.cursor.rest = a.cursor.rest ++ '\n' :: tail) :
    a.pending = [] ∧ b.pending = (Lexer.skip false tail 0 1 1).rest ∨
      a.pending ≠ [] ∧ b.pending = a.pending ++ '\n' :: tail := by
  have hline := skip_line false a.cursor.rest tail b.cursor.pos b.cursor.line b.cursor.col
  rw [← hb] at hline
  have hsame : (Lexer.skip false a.cursor.rest b.cursor.pos b.cursor.line b.cursor.col).rest =
      a.pending := skip_rest _ _ _ _ _ _ _ _
  rwa [hsame] at hline

theorem Twin.lexes_line (h : Twin a b) (hu : a.Usable)
    (hb : b.cursor.rest = a.cursor.rest ++ '\n' :: tail) (hs : Lexes a ts) (hc : Twin a c)
    (htail : c.cursor.rest = tail) (hs' : Lexes c us) :
    ∃ ts' us', Lexes b (ts' ++ us') ∧ List.Forall₂ Alike ts.dropLast ts' ∧
      List.Forall₂ Alike us us' := by
  induction hs generalizing b with
  | @eof a a' t hn hk =>
    have hend : a.pending = [] := by
      obtain ⟨_, _, _, ht, rfl, -⟩ := Lexer.lex_ok (next_fresh h.left hn).1
      exact ht.rest_of_eof hk
    have hpending : b.pending = c.pending := by
      rcases pending_line hb with ⟨-, hline⟩ | ⟨hne, -⟩
      · rw [hline, ← htail]
        exact skip_rest _ _ _ _ _ _ _ _
      · exact absurd hend hne
    have htwin : Twin c b := ⟨h.symbols.trans hc.symbols.symm, h.multi.trans hc.multi.symm,
      hc.right, h.right⟩
    obtain ⟨us', hus, hall⟩ := htwin.lexes_same hpending hs'
    exact ⟨[], us', hus, .nil, hall⟩
  | @token a a' t ts hn hk hs ih =>
    have hne : a.pending ≠ [] := by
      obtain ⟨_, _, _, ht, rfl, -⟩ := Lexer.lex_ok (next_fresh h.left hn).1
      intro hnil
      change a.Takes a.pending _ _ _ at ht
      rw [hnil] at ht
      cases ht
      exact hk rfl
    have hpending : b.pending = a.pending ++ '\n' :: tail := by
      rcases pending_line hb with ⟨hnil, -⟩ | ⟨-, hline⟩
      · exact absurd hnil hne
      · exact hline
    obtain ⟨u, b', hn', hut, htwin, hrest⟩ := h.next hn hpending fun _ _ _ ht => ht.line hu hne tail
    obtain ⟨ts', us', hlexes, hall, hall'⟩ :=
      ih htwin (next_size hu hn hk).1 hrest (hc.passed hn)
    refine ⟨u :: ts', us', .token hn' (hut.kind ▸ hk) hlexes, ?_, hall'⟩
    rw [List.dropLast_cons_of_ne_nil hs.ne_nil]
    exact .cons hut hall

end Twin

def Goes (P : Token → Prop) (more : List Token) (a b : Lexer) : Prop :=
  ∃ ts us eof, Lexes a (ts ++ [eof]) ∧ Lexes b (us ++ more) ∧ List.Forall₂ Alike ts us ∧
    ∀ t ∈ ts, P t

structure Ahead (P : Token → Prop) (more : List Token) (r r' : Token × Lexer) : Prop where
  goes : Goes P more r.2 r'.2
  left : r.2.peeked = some r.1
  right : r'.2.peeked = some r'.1
  symbol : r.1.kind = .symbol ↔ r'.1.kind = .symbol
  passed : r.1.kind = .symbol → r.1.text = r'.1.text ∧
    Goes P more { r.2 with peeked := none } { r'.2 with peeked := none }

section Goes

variable {P : Token → Prop} {more : List Token} {a b : Lexer} {t : Token} {ts : List Token}

theorem Lexes.eof_kind (h : Lexes a [t]) : t.kind = .eof := h.last_kind t rfl

theorem Lexes.kind_ne_eof (h : Lexes a (t :: ts)) (hne : ts ≠ []) : t.kind ≠ .eof := by
  obtain ⟨_, -, ⟨-, hts⟩ | ⟨hk, -⟩⟩ := h.next
  · exact absurd hts hne
  · exact hk

theorem Lexes.popped (h : Lexes a (t :: ts)) (hp : a.peeked = some t) (hk : t.kind ≠ .eof) :
    Lexes { a with peeked := none } ts := by
  obtain ⟨a', hn, ⟨heof, -⟩ | ⟨-, hs⟩⟩ := h.next
  · exact absurd heof hk
  · rw [Ready.next_peeked hp] at hn
    cases hn
    exact hs

theorem fail_simulates {α β : Type} (lx : Lexer) (message : String) (y : Except Exn β)
    (R : α → β → Prop) : Simulates (Parser.fail lx message) y R := by
  unfold Parser.fail
  split <;> exact .error _ _ _

theorem next_goes (h : Goes P more a b) : Simulates a.next b.next fun r r' =>
    r.1.kind ≠ .eof → Alike r.1 r'.1 ∧ P r.1 ∧ Goes P more r.2 r'.2 := by
  obtain ⟨ts, us, eof, ha, hb, hall, hP⟩ := h
  cases hall with
  | nil =>
    obtain ⟨u, more', rfl⟩ := List.exists_cons_of_ne_nil hb.ne_nil
    obtain ⟨a', hn, -⟩ := ha.next
    obtain ⟨b', hn', -⟩ := hb.next
    rw [hn, hn']
    exact .ok fun hk => absurd ha.eof_kind hk
  | @cons t u ts us htu hall =>
    obtain ⟨a', hn, hcase⟩ := ha.next
    obtain ⟨b', hn', hcase'⟩ := hb.next
    rw [hn, hn']
    refine .ok fun hk => ⟨htu, hP t (by simp), ts, us, eof, ?_, ?_, hall, ?_⟩
    · exact (hcase.resolve_left fun h => hk h.1).2
    · exact (hcase'.resolve_left fun h => hk (htu.kind.trans h.1)).2
    · exact fun t ht => hP t (by simp [ht])

theorem atEnd_goes_end (h : Goes P more a b) {a' : Lexer}
    (ha : Parser.atEnd a = .ok (true, a')) : Lexes b more := by
  obtain ⟨ts, us, eof, hs, hb, hall, -⟩ := h
  cases hall with
  | nil => exact hb
  | @cons t u ts us =>
    have hk : t.kind ≠ .eof := hs.kind_ne_eof (by simp)
    obtain ⟨_, hp, -, -⟩ := hs.peek
    simp [Parser.atEnd, hp, hk] at ha

theorem atEnd_goes (h : Goes P more a b) {a' : Lexer} (ha : Parser.atEnd a = .ok (false, a')) :
    ∃ b', Parser.atEnd b = .ok (false, b') ∧ Goes P more a' b' := by
  obtain ⟨ts, us, eof, hs, hb, hall, hP⟩ := h
  cases hall with
  | nil =>
    obtain ⟨_, hp, -, -⟩ := hs.peek
    simp [Parser.atEnd, hp, hs.eof_kind] at ha
  | @cons t u ts us htu hall =>
    have hk : t.kind ≠ .eof := hs.kind_ne_eof (by simp)
    obtain ⟨a₁, hp, -, hs₁⟩ := hs.peek
    obtain ⟨b₁, hp', -, hs₁'⟩ := hb.peek
    obtain rfl : a₁ = a' := by simpa [Parser.atEnd, hp, hk] using ha
    refine ⟨b₁, ?_, t :: ts, u :: us, eof, hs₁, hs₁', .cons htu hall, hP⟩
    simp [Parser.atEnd, hp', ← htu.kind, hk]

variable (hmore : ∀ u ∈ more.head?, u.kind ≠ .symbol)
include hmore

theorem peek_goes (h : Goes P more a b) : Simulates a.peek b.peek (Ahead P more) := by
  obtain ⟨ts, us, eof, ha, hb, hall, hP⟩ := h
  cases hall with
  | nil =>
    obtain ⟨u, more', rfl⟩ := List.exists_cons_of_ne_nil hb.ne_nil
    obtain ⟨a', hp, hpa, hs⟩ := ha.peek
    obtain ⟨b', hp', hpb, hs'⟩ := hb.peek
    have hk : eof.kind ≠ .symbol := by simp [ha.eof_kind]
    have hku : u.kind ≠ .symbol := hmore u rfl
    rw [hp, hp']
    exact .ok ⟨⟨[], [], eof, hs, hs', .nil, by simp⟩, hpa, hpb, by simp [hk, hku],
      fun hsym => absurd hsym hk⟩
  | @cons t u ts us htu hall =>
    obtain ⟨a', hp, hpa, hs⟩ := ha.peek
    obtain ⟨b', hp', hpb, hs'⟩ := hb.peek
    have hk : t.kind ≠ .eof := hs.kind_ne_eof (by simp)
    rw [hp, hp']
    refine .ok ⟨⟨t :: ts, u :: us, eof, hs, hs', .cons htu hall, hP⟩, hpa, hpb, ?_, fun _ => ?_⟩
    · rw [htu.kind]
    · exact ⟨htu.text, ts, us, eof, hs.popped hpa hk, hs'.popped hpb (htu.kind ▸ hk), hall,
        fun t ht => hP t (by simp [ht])⟩

theorem expectSymbol_goes (h : Goes P more a b) (symbol what : String) :
    Simulates (Parser.expectSymbol a symbol what) (Parser.expectSymbol b symbol what)
      (Goes P more) := by
  unfold Parser.expectSymbol
  refine (peek_goes hmore h).bind fun r r' hr => ?_
  obtain ⟨t, a'⟩ := r
  obtain ⟨u, b'⟩ := r'
  simp only
  split_ifs with hk hk₁ hk'
  · exact fail_simulates _ _ _ _
  · exact fail_simulates _ _ _ _
  · rw [not_or, not_not, not_not] at hk
    have hu : u.kind = .symbol := hr.symbol.1 hk.1
    have htext : u.text = symbol := (hr.passed hk.1).1.symm.trans hk.2
    simp [hu, htext] at hk'
  · rw [not_or, not_not, not_not] at hk
    rw [Ready.next_peeked hr.left, Ready.next_peeked hr.right]
    exact .ok (hr.passed hk.1).2

end Goes

end Lark.Toolkit.Dsl
