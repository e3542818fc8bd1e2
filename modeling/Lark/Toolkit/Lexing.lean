import Lark.Toolkit.DslSyntax

namespace Lark.Toolkit.Dsl

open Lark.Base

namespace Lexer

def numberRun (rest : List Char) : List Char := rest.takeWhile isNumberChar

inductive Takes (lx : Lexer) : List Char → TokenKind → List Char → Double → Prop
  | eof : Takes lx [] .eof [] 0
  | number {c cs x} (hn : isNumberStart (c :: cs) = true)
      (hx : stod (String.ofList (numberRun (c :: cs))) = .ok x) :
      Takes lx (c :: cs) .number (numberRun (c :: cs)) x
  | ident {c cs} (hn : isNumberStart (c :: cs) = false) (hi : isIdentStart c = true) :
      Takes lx (c :: cs) .ident ((c :: cs).takeWhile isIdentChar) 0
  | multi {c cs sym} (hn : isNumberStart (c :: cs) = false) (hi : isIdentStart c = false)
      (hs : (lx.multi.find? fun sym => sym.isPrefixOf (c :: cs)) = some sym) :
      Takes lx (c :: cs) .symbol sym 0
  | single {c cs} (hn : isNumberStart (c :: cs) = false) (hi : isIdentStart c = false)
      (hs : (lx.multi.find? fun sym => sym.isPrefixOf (c :: cs)) = none)
      (hc : lx.symbols.contains c = true) : Takes lx (c :: cs) .symbol [c] 0

inductive Lexed (lx : Lexer) (cur : Cursor) : Except Exn (Token × Lexer) → Prop
  | token {kind text number} (h : Takes lx cur.rest kind text number) :
      Lexed lx cur (.ok (⟨kind, String.ofList text, number, cur.pos, cur.line, cur.col⟩,
        { lx with cursor := cur.advance text.length }))
  | unexpected (what : String) (hn : isNumberStart cur.rest = false) :
      Lexed lx cur (.error (.dslError what cur.line cur.col))
  | unread {e} (hn : isNumberStart cur.rest = true)
      (hx : stod (String.ofList (numberRun cur.rest)) = .error e) : Lexed lx cur (.error e)

theorem lex_lexed (lx : Lexer) : Lexed lx (skipSpace lx.cursor) lx.lex := by
  unfold lex
  generalize skipSpace lx.cursor = cur
  obtain ⟨rest, pos, line, col⟩ := cur
  cases rest with
  | nil => exact .token .eof
  | cons c cs =>
    simp only
    cases hn : isNumberStart (c :: cs) with
    | true =>
      rw [if_pos rfl]
      cases hx : stod (String.ofList ((c :: cs).takeWhile isNumberChar)) with
      | ok x => exact .token (.number hn hx)
      | error e => exact .unread hn hx
    | false =>
      cases hi : isIdentStart c with
      | true => exact .token (.ident hn hi)
      | false =>
        simp only [Bool.false_eq_true, if_false]
        cases hs : lx.multi.find? fun sym => sym.isPrefixOf (c :: cs) with
        | some sym => exact .token (.multi hn hi hs)
        | none =>
          simp only
          split_ifs with hc
          · exact .token (.single hn hi hs hc)
          · exact .unexpected _ hn

theorem lex_ok {lx lx' : Lexer} {t : Token} (h : lx.lex = .ok (t, lx')) :
    ∃ kind text number, Takes lx (skipSpace lx.cursor).rest kind text number ∧
      t = ⟨kind, String.ofList text, number, (skipSpace lx.cursor).pos,
        (skipSpace lx.cursor).line, (skipSpace lx.cursor).col⟩ ∧
      lx' = { lx with cursor := (skipSpace lx.cursor).advance text.length } := by
  have hl := lex_lexed lx
  rw [h] at hl
  cases hl with
  | token ht => exact ⟨_, _, _, ht, rfl, rfl⟩

end Lexer

section Position

variable {source before rest : List Char} {pos line col : Nat}

structure Located (source before : List Char) (cur : Cursor) : Prop where
  split : source = before ++ cur.rest
  pos : cur.pos = before.length
  line : cur.line = 1 + before.count '\n'
  col : cur.col = 1 + (before.reverse.takeWhile (· != '\n')).length

theorem located_start (source : List Char) : Located source [] (.start source) :=
  ⟨rfl, rfl, rfl, rfl⟩

theorem Located.char {c : Char} (h : Located source before ⟨c :: rest, pos, line, col⟩)
    (hc : c ≠ '\n') : Located source (before ++ [c]) ⟨rest, pos + 1, line, col + 1⟩ where
  split := by simp [h.split]
  pos := by simp [h.pos.symm]
  line := by simpa [List.count_append, hc] using h.line
  col := by
    have hcol := h.col
    simp only at hcol
    simp [hc, hcol]
    omega

theorem Located.newline (h : Located source before ⟨'\n' :: rest, pos, line, col⟩) :
    Located source (before ++ ['\n']) ⟨rest, pos + 1, line + 1, 1⟩ where
  split := by simp [h.split]
  pos := by simp [h.pos.symm]
  line := by
    have hline := h.line
    simp only at hline
    simp [List.count_append, hline]
    omega
  col := by simp

theorem Located.advance {cur : Cursor} {text : List Char} (h : Located source before cur)
    (ht : text <+: cur.rest) (hn : '\n' ∉ text) :
    Located source (before ++ text) (cur.advance text.length) := by
  obtain ⟨rest, pos, line, col⟩ := cur
  induction text generalizing before rest pos col with
  | nil => simpa [Cursor.advance] using h
  | cons c text ih =>
    obtain ⟨rest', rfl⟩ := ht
    have hc : c ≠ '\n' := fun he => hn (by simp [he])
    have hstep := ih (fun hm => hn (by simp [hm])) (text ++ rest') (pos + 1) (col + 1)
      (by simpa using h.char hc) (List.prefix_append _ _)
    simpa [Cursor.advance, Nat.add_assoc, Nat.add_comm 1] using hstep

inductive Skipped : Bool → List Char → Prop
  | gap {g} (hg : Gap g) : Skipped false g
  | comment {g body} (hg : Gap g) (hb : ∀ c ∈ body, c ≠ '\n') : Skipped true (g ++ '#' :: body)

theorem Skipped.space {comment : Bool} {g : List Char} {c : Char} (h : Skipped comment g)
    (hc : isSpace c = true) (hn : comment = true → c = '\n') : Skipped false (g ++ [c]) := by
  cases h with
  | gap hg => exact .gap (hg.append (.space hc .nil))
  | @comment g body hg hb =>
    obtain rfl := hn rfl
    have hline : Gap ('#' :: body ++ '\n' :: []) := .comment hb .nil
    simpa using Skipped.gap (hg.append hline)

theorem Skipped.trailing {comment : Bool} {g : List Char} (h : Skipped comment g) :
    TrailingGap g := by
  cases h with
  | gap hg => exact .gap hg
  | comment hg hb => exact .comment hg hb

structure Blank (source base : List Char) (cur : Cursor) (g : List Char) : Prop where
  located : Located source (base ++ g) cur
  gap : cur.rest ≠ [] → Gap g
  trailing : cur.rest = [] → TrailingGap g

theorem skip_blank {comment : Bool} {g base : List Char} (hs : Skipped comment g)
    (h : Located source (base ++ g) ⟨rest, pos, line, col⟩) :
    ∃ g', Blank source base (Lexer.skip comment rest pos line col) g' := by
  induction rest generalizing comment g pos line col with
  | nil => exact ⟨g, h, by simp [Lexer.skip], fun _ => hs.trailing⟩
  | cons c rest ih =>
    rw [Lexer.skip]
    split_ifs with hcomment hhash hspace hnewline
    · obtain ⟨rfl, hc⟩ : comment = true ∧ c ≠ '\n' := by simpa using hcomment
      cases hs with
      | @comment g body hg hb =>
        have hbody : ∀ d ∈ body ++ [c], d ≠ '\n' := by simpa [or_imp, forall_and, hc] using hb
        exact ih (.comment hg hbody) (by simpa using h.char hc)
    · subst hhash
      obtain rfl : comment = false := by simpa using hcomment
      cases hs with
      | gap hg => exact ih (.comment hg (by simp) : Skipped true (g ++ '#' :: [])) (by
          simpa using h.char (by decide))
    · subst hnewline
      exact ih (hs.space hspace fun _ => rfl) (by simpa using h.newline)
    · have hout : comment = false := by simpa [hnewline] using hcomment
      exact ih (hs.space hspace (by simp [hout])) (by simpa using h.char hnewline)
    · obtain rfl : comment = false := by
        by_contra hc
        refine hspace ?_
        obtain rfl : c = '\n' := by simpa [hc] using hcomment
        rfl
      cases hs with
      | gap hg => exact ⟨g, h, fun _ => hg, by simp⟩

theorem skipSpace_blank {cur : Cursor} (h : Located source before cur) :
    ∃ g, Blank source before (Lexer.skipSpace cur) g := by
  obtain ⟨rest, pos, line, col⟩ := cur
  exact skip_blank (.gap .nil) (by simpa using h)

end Position

def configured (symbols : List Char) (multi : List (List Char)) : List (List Char) :=
  multi ++ symbols.map fun c => [c]

def Lexer.configured (lx : Lexer) : List (List Char) := Dsl.configured lx.symbols lx.multi

-- The constructor has put the longest symbols first.
structure Lexer.Usable (lx : Lexer) : Prop where
  symbols : ∀ sym ∈ lx.configured, sym ≠ [] ∧ '\n' ∉ sym
  longest : lx.multi.Pairwise fun a b => b.length ≤ a.length

section Takes

variable {lx : Lexer} {rest text : List Char} {kind : TokenKind} {number : Double}

theorem Lexer.Takes.text_prefix (h : lx.Takes rest kind text number) : text <+: rest := by
  cases h with
  | eof => exact List.prefix_rfl
  | number _ _ => exact List.takeWhile_prefix _
  | ident _ _ => exact List.takeWhile_prefix _
  | multi _ _ hs =>
    have hsym := List.find?_some hs
    exact List.isPrefixOf_iff_prefix.1 hsym
  | single _ _ _ _ => simp

theorem Lexer.Takes.rest_of_eof (h : lx.Takes rest kind text number) (hk : kind = .eof) :
    rest = [] := by
  cases h with
  | eof => rfl
  | number _ _ => cases hk
  | ident _ _ => cases hk
  | multi _ _ _ => cases hk
  | single _ _ _ _ => cases hk

theorem Lexer.Takes.symbol_mem (h : lx.Takes rest .symbol text number) :
    text ∈ lx.configured := by
  cases h with
  | multi _ _ hs => exact List.mem_append_left _ (List.mem_of_find?_eq_some hs)
  | single _ _ _ hc => exact List.mem_append_right _ (List.mem_map.2 ⟨_, by simpa using hc, rfl⟩)

theorem numberStart_char {c : Char} {cs : List Char} (h : Lexer.isNumberStart (c :: cs) = true) :
    Lexer.isNumberChar c = true := by
  simp only [Lexer.isNumberStart, Lexer.isNumberChar, Bool.or_eq_true, Bool.and_eq_true,
    decide_eq_true_eq] at h ⊢
  exact h.imp_right And.left

theorem identStart_char {c : Char} (h : Lexer.isIdentStart c = true) :
    Lexer.isIdentChar c = true := (isIdent_letter h).chars c (by simp)

theorem Lexer.Takes.clean (hu : lx.Usable) (h : lx.Takes rest kind text number) :
    '\n' ∉ text ∧ (text = [] ↔ kind = .eof) := by
  have hsym (hk : kind = .symbol) : text ≠ [] ∧ '\n' ∉ text :=
    hu.symbols text (Lexer.Takes.symbol_mem (hk ▸ h))
  cases h with
  | eof => simp
  | number hn hx =>
    refine ⟨fun hmem => absurd (List.mem_takeWhile_imp hmem) (by decide), ?_⟩
    simp [Lexer.numberRun, numberStart_char hn]
  | ident hn hi =>
    refine ⟨fun hmem => absurd (List.mem_takeWhile_imp hmem) (by decide), ?_⟩
    simp [identStart_char hi]
  | multi hn hi hs => simp [hsym rfl]
  | single hn hi hs hc => simpa using (hsym rfl).2

theorem Lexer.Takes.longest (hu : lx.Usable) (h : lx.Takes rest .symbol text number) :
    ∀ sym ∈ lx.configured, sym <+: rest → sym.length ≤ text.length := by
  intro sym hmem hprefix
  rcases List.mem_append.1 hmem with hmem | hmem
  · cases h with
    | multi hn hi hs =>
      obtain ⟨-, longer, shorter, hsplit, hlonger⟩ := List.find?_eq_some_iff_append.1 hs
      rw [hsplit] at hmem
      have hsorted := hu.longest
      rw [hsplit] at hsorted
      rcases List.mem_append.1 hmem with hmem | hmem
      · have hno := hlonger sym hmem
        simp [List.isPrefixOf_iff_prefix.2 hprefix] at hno
      · rcases List.mem_cons.1 hmem with rfl | hmem
        · exact le_rfl
        · exact List.rel_of_pairwise_cons (List.pairwise_append.1 hsorted).2.1 hmem
    | single hn hi hs hc =>
      have hno := List.find?_eq_none.1 hs sym hmem
      simp [List.isPrefixOf_iff_prefix.2 hprefix] at hno
  · obtain ⟨c, -, rfl⟩ := List.mem_map.1 hmem
    exact List.length_pos_iff.2 (hu.symbols text h.symbol_mem).1

end Takes

inductive Lexes : Lexer → List Token → Prop
  | eof {lx lx' t} (h : lx.next = .ok (t, lx')) (hk : t.kind = .eof) : Lexes lx [t]
  | token {lx lx' t ts} (h : lx.next = .ok (t, lx')) (hk : t.kind ≠ .eof) (hs : Lexes lx' ts) :
      Lexes lx (t :: ts)

structure Placed (source : List Char) (symbols : List (List Char)) (t : Token) : Prop where
  occurs : ∃ before after, source = before ++ t.text.toList ++ after ∧ before.length = t.offset
  line : t.line = 1 + (source.take t.offset).count '\n'
  col : t.col = 1 + ((source.take t.offset).reverse.takeWhile (· != '\n')).length
  longest : t.kind = .symbol → t.text.toList ∈ symbols ∧
    ∀ sym ∈ symbols, sym <+: source.drop t.offset → sym.length ≤ t.text.length

inductive Tiles (source : List Char) : Nat → List Token → Prop
  | eof {p t} (hk : t.kind = .eof) (ht : t.text = "") (hp : p ≤ t.offset)
      (he : t.offset = source.length) (hg : TrailingGap (source.drop p)) : Tiles source p [t]
  | token {p t ts} (hk : t.kind ≠ .eof) (ht : t.text ≠ "") (hp : p ≤ t.offset)
      (hg : Gap ((source.take t.offset).drop p))
      (h : Tiles source (t.offset + t.text.length) ts) : Tiles source p (t :: ts)

structure Lossless (source : List Char) (symbols : List (List Char)) (ts : List Token) : Prop where
  placed : ∀ t ∈ ts, Placed source symbols t
  ordered : ts.Pairwise fun t u => t.offset < u.offset ∧ t.offset + t.text.length ≤ u.offset
  tiles : Tiles source 0 ts

theorem Tiles.ordered {source : List Char} {p : Nat} {ts : List Token} (h : Tiles source p ts) :
    (∀ t ∈ ts, p ≤ t.offset) ∧
      ts.Pairwise fun t u => t.offset < u.offset ∧ t.offset + t.text.length ≤ u.offset := by
  induction h with
  | eof _ _ hp _ _ => simpa using hp
  | @token p t ts _ ht hp _ _ ih =>
    obtain ⟨hle, hpairs⟩ := ih
    have hpos : 0 < t.text.length := by
      simpa [Nat.pos_iff_ne_zero, String.length_eq_zero_iff] using ht
    refine ⟨?_, List.pairwise_cons.2 ⟨fun u hu => ?_, hpairs⟩⟩
    · intro u hu
      rcases List.mem_cons.1 hu with rfl | hu
      · exact hp
      · have := hle u hu
        omega
    · have := hle u hu
      omega

theorem next_fresh {lx lx' : Lexer} {t : Token} (hp : lx.peeked = none)
    (h : lx.next = .ok (t, lx')) : lx.lex = .ok (t, lx') ∧ lx'.peeked = none := by
  cases hl : lx.lex with
  | error e => simp [Lexer.next, Lexer.peek, hp, hl] at h
  | ok r =>
    obtain ⟨t', lx''⟩ := r
    obtain ⟨_, _, _, _, -, hlx⟩ := Lexer.lex_ok hl
    have hnone : lx''.peeked = none := by rw [hlx, hp]
    obtain ⟨rfl, rfl⟩ : t' = t ∧ { lx'' with peeked := none } = lx' := by
      simpa [Lexer.next, Lexer.peek, hp, hl] using h
    exact ⟨by rw [← hnone], rfl⟩

structure Moves (source before : List Char) (lx : Lexer) (t : Token) (lx' : Lexer)
    (g text : List Char) : Prop where
  located : Located source (before ++ g ++ text) lx'.cursor
  placed : Placed source lx.configured t
  offset : t.offset = (before ++ g).length
  reads : t.text = String.ofList text
  eof : t.kind = .eof → text = [] ∧ TrailingGap g ∧ source = before ++ g
  token : t.kind ≠ .eof → text ≠ [] ∧ Gap g
  symbols : lx'.symbols = lx.symbols
  multi : lx'.multi = lx.multi

theorem lex_moves {source before : List Char} {lx lx' : Lexer} {t : Token} (hu : lx.Usable)
    (hl : Located source before lx.cursor) (h : lx.lex = .ok (t, lx')) :
    ∃ g text, Moves source before lx t lx' g text := by
  obtain ⟨g, hblank⟩ := skipSpace_blank hl
  obtain ⟨kind, text, number, ht, rfl, rfl⟩ := Lexer.lex_ok h
  generalize Lexer.skipSpace lx.cursor = cur at hblank ht
  obtain ⟨hclean, hempty⟩ := ht.clean hu
  have hat := hblank.located
  have htake : source.take cur.pos = before ++ g := by
    rw [hat.split, hat.pos, List.take_left]
  have hdrop : source.drop cur.pos = cur.rest := by
    rw [hat.split, hat.pos, List.drop_left]
  obtain ⟨after, hafter⟩ := ht.text_prefix
  refine ⟨g, text, hat.advance ht.text_prefix hclean, ⟨?_, ?_, ?_, ?_⟩, hat.pos, rfl, ?_, ?_, rfl, rfl⟩
  · exact ⟨before ++ g, after, by simp [hat.split, ← hafter], hat.pos.symm⟩
  · simpa [htake] using hat.line
  · simpa [htake] using hat.col
  · intro hk
    obtain rfl : kind = .symbol := hk
    refine ⟨by simpa using ht.symbol_mem, ?_⟩
    simpa [hdrop] using ht.longest hu
  · intro hk
    obtain rfl := hempty.2 hk
    have hrest : cur.rest = [] := ht.rest_of_eof hk
    exact ⟨rfl, hblank.trailing hrest, by simpa [hrest] using hat.split⟩
  · intro hk
    have hne : text ≠ [] := fun he => hk (hempty.1 he)
    refine ⟨hne, hblank.gap ?_⟩
    rintro hrest
    rw [hrest] at hafter
    exact hne (List.append_eq_nil_iff.1 hafter).1

theorem lexes_tiles {source before : List Char} {lx : Lexer} {ts : List Token}
    (h : Lexes lx ts) (hu : lx.Usable) (hp : lx.peeked = none)
    (hl : Located source before lx.cursor) :
    Tiles source before.length ts ∧ ∀ t ∈ ts, Placed source lx.configured t := by
  induction h generalizing before with
  | @eof lx lx' t h hk =>
    obtain ⟨g, text, hm⟩ := lex_moves hu hl (next_fresh hp h).1
    obtain ⟨rfl, hgap, rfl⟩ := hm.eof hk
    refine ⟨.eof hk hm.reads ?_ hm.offset (by simpa using hgap), by simpa using hm.placed⟩
    simp [hm.offset]
  | @token lx lx' t ts h hk _ ih =>
    obtain ⟨hlex, hp'⟩ := next_fresh hp h
    obtain ⟨g, text, hm⟩ := lex_moves hu hl hlex
    obtain ⟨hne, hgap⟩ := hm.token hk
    have hsame : lx'.configured = lx.configured := by
      rw [Lexer.configured, Lexer.configured, hm.symbols, hm.multi]
    have hu' : lx'.Usable := ⟨hsame ▸ hu.symbols, hm.multi ▸ hu.longest⟩
    obtain ⟨htiles, hplaced⟩ := ih hu' hp' hm.located
    have hsplit := hm.located.split
    refine ⟨.token hk ?_ ?_ ?_ ?_, ?_⟩
    · simpa [hm.reads] using hne
    · simp [hm.offset]
    · rw [hm.offset, hsplit, List.append_assoc, List.take_left, List.drop_left]
      exact hgap
    · simpa [hm.offset, hm.reads, Nat.add_assoc] using htiles
    · intro u hu
      rcases List.mem_cons.1 hu with rfl | hu
      · exact hm.placed
      · exact hsame ▸ hplaced u hu

theorem usable_make (source : String) {symbols : List Char} {multi : List (List Char)}
    (h : ∀ sym ∈ configured symbols multi, sym ≠ [] ∧ '\n' ∉ sym) :
    (Lexer.make source symbols multi).Usable ∧
      ∀ sym, sym ∈ (Lexer.make source symbols multi).configured ↔ sym ∈ configured symbols multi := by
  have hmem : ∀ sym, sym ∈ (Lexer.make source symbols multi).configured ↔
      sym ∈ configured symbols multi := by
    simp [Lexer.configured, configured, Lexer.make]
  refine ⟨⟨fun sym hsym => h sym ((hmem sym).1 hsym), ?_⟩, hmem⟩
  exact List.pairwise_insertionSort _ _

theorem lex_lossless (source : String) {symbols : List Char} {multi : List (List Char)}
    (hs : ∀ sym ∈ configured symbols multi, sym ≠ [] ∧ '\n' ∉ sym) {ts : List Token}
    (h : Lexes (.make source symbols multi) ts) :
    Lossless source.toList (configured symbols multi) ts := by
  obtain ⟨hu, hmem⟩ := usable_make source hs
  obtain ⟨htiles, hplaced⟩ := lexes_tiles h hu rfl (located_start source.toList)
  refine ⟨fun t ht => ?_, htiles.ordered.2, htiles⟩
  obtain ⟨hoccurs, hline, hcol, hlongest⟩ := hplaced t ht
  refine ⟨hoccurs, hline, hcol, fun hk => ?_⟩
  obtain ⟨hsym, hmax⟩ := hlongest hk
  exact ⟨(hmem _).1 hsym, fun sym hsym => hmax sym ((hmem sym).2 hsym)⟩

theorem lex_lossless_arrow : ∃ ts, ts.map (·.text) = ["a", "->", "b", "-", ""] ∧
    Lossless "a->b # c\n -".toList (configured ['-', '>'] [['-', '>']]) ts := by
  have hlexes : Lexes (.make "a->b # c\n -" ['-', '>'] [['-', '>']]) _ :=
    .token rfl (by decide) (.token rfl (by decide) (.token rfl (by decide) (.token rfl (by decide)
      (.eof rfl rfl))))
  exact ⟨_, rfl, lex_lossless _ (by decide) hlexes⟩

section Numbers

-- The documented grammar: digits, digits '.' digits, or '.' digits.
def Numeral (cs : List Char) : Prop :=
  ∃ int frac, IsDecimal int frac ∧ frac ≠ some [] ∧ cs = decimalChars int frac

inductive Produces (lx : Lexer) : List Token → Lexer → Prop
  | nil : Produces lx [] lx
  | next {ts lx' lx'' t} (h : Produces lx ts lx') (hn : lx'.next = .ok (t, lx'')) :
      Produces lx (ts ++ [t]) lx''

structure MaximalRun (before run after : List Char) : Prop where
  chars : ∀ c ∈ run, Lexer.isNumberChar c = true
  left : ∀ c ∈ before.getLast?, Lexer.isNumberChar c = false
  right : ∀ c ∈ after.head?, Lexer.isNumberChar c = false

structure NumbersOk (source : List Char) (ts : List Token) : Prop where
  form : ∀ t ∈ ts, t.kind = .number → ∃ int frac, IsDecimal int frac ∧ frac ≠ some [] ∧
    t.text.toList = decimalChars int frac ∧ t.number = .num (decimalValue int frac)
  runs : ∀ before run after, source = before ++ run ++ after → MaximalRun before run after →
    ¬ Numeral run → ∀ t ∈ ts, t.kind = .number → ¬ (t.offset = before.length ∧ t.text.toList = run)

def leadingValue (cs : List Char) : ℚ := decimalValue (leadingDecimal cs).1 (leadingDecimal cs).2

-- A run that is off the grammar although the numeral it starts with can be converted.
structure OffGrammar (rest : List Char) : Prop where
  start : Lexer.isNumberStart rest = true
  form : ¬ Numeral (Lexer.numberRun rest)
  range : inDoubleRange (leadingValue (Lexer.numberRun rest)) = true

variable {rest : List Char}

theorem isRun_numberRun (h : Lexer.isNumberStart rest = true) :
    IsRun (Lexer.numberRun rest) := by
  cases rest with
  | nil => cases h
  | cons c cs =>
    refine ⟨by simp [Lexer.numberRun, numberStart_char h], fun d hd => ?_⟩
    simpa [Lexer.isNumberChar] using List.mem_takeWhile_imp hd

theorem leadingDecimal_fst (cs : List Char) : (leadingDecimal cs).1 = cs.takeWhile Char.isDigit := by
  unfold leadingDecimal
  split <;> rfl

theorem isDecimal_leading (h : Lexer.isNumberStart rest = true) :
    IsDecimal (leadingDecimal (Lexer.numberRun rest)).1
      (leadingDecimal (Lexer.numberRun rest)).2 := by
  have hdigits : ∀ cs : List Char, ∀ c ∈ cs.takeWhile Char.isDigit, c.isDigit = true :=
    fun _ _ hc => List.mem_takeWhile_imp hc
  refine ⟨?_, ?_, ?_⟩
  · unfold leadingDecimal
    split <;> exact hdigits _
  · unfold leadingDecimal
    split
    · exact hdigits _
    · simp
  · cases rest with
    | nil => cases h
    | cons c cs =>
      have hrun : Lexer.numberRun (c :: cs) = c :: Lexer.numberRun cs := by
        simp [Lexer.numberRun, numberStart_char h]
      rw [hrun]
      by_cases hc : c.isDigit = true
      · left
        rw [leadingDecimal_fst]
        simp [hc]
      · right
        cases cs with
        | nil => simp [Lexer.isNumberStart, hc] at h
        | cons d cs =>
          obtain ⟨rfl, hd⟩ : c = '.' ∧ d.isDigit = true := by
            simpa [Lexer.isNumberStart, hc] using h
          have hdot : ('.' : Char).isDigit = false := rfl
          simp [leadingDecimal, Lexer.numberRun, Lexer.isNumberChar, hdot, hd]

theorem stod_numberRun (h : Lexer.isNumberStart rest = true) :
    stod (String.ofList (Lexer.numberRun rest)) =
      if inDoubleRange (leadingValue (Lexer.numberRun rest)) then
        .ok (.num (leadingValue (Lexer.numberRun rest)))
      else .error (.outOfRange "stod") :=
  (isRun_numberRun h).stod (isDecimal_leading h)

theorem Produces.peeked {lx lx' : Lexer} {ts : List Token} (h : Produces lx ts lx')
    (hp : lx.peeked = none) : lx'.peeked = none := by
  induction h with
  | nil => exact hp
  | next _ hn ih => exact (next_fresh ih hn).2

theorem next_number {lx lx' : Lexer} {t : Token} (hp : lx.peeked = none)
    (h : lx.next = .ok (t, lx')) (hk : t.kind = .number) :
    Lexer.isNumberStart (Lexer.skipSpace lx.cursor).rest = true ∧
      t.text.toList = Lexer.numberRun (Lexer.skipSpace lx.cursor).rest ∧
      stod (String.ofList (Lexer.numberRun (Lexer.skipSpace lx.cursor).rest)) = .ok t.number := by
  obtain ⟨kind, text, number, ht, rfl, -⟩ := Lexer.lex_ok (next_fresh hp h).1
  obtain rfl : kind = .number := hk
  generalize (Lexer.skipSpace lx.cursor).rest = rest at ht
  cases ht with
  | number hn hx => exact ⟨hn, by simp, hx⟩

theorem next_of_numberStart {lx : Lexer} (hp : lx.peeked = none)
    (hn : Lexer.isNumberStart (Lexer.skipSpace lx.cursor).rest = true)
    (hr : inDoubleRange (leadingValue (Lexer.numberRun (Lexer.skipSpace lx.cursor).rest)) = true) :
    ∃ t lx', lx.next = .ok (t, lx') ∧ t.kind = .number := by
  have hstod := stod_numberRun hn
  rw [if_pos hr] at hstod
  have hl := Lexer.lex_lexed lx
  generalize hlex : lx.lex = r at hl
  cases hl with
  | @token kind text number ht =>
    refine ⟨_, _, by simp [Lexer.next, Lexer.peek, hp, hlex]; exact ⟨rfl, rfl⟩, ?_⟩
    generalize (Lexer.skipSpace lx.cursor).rest = rest at ht hn
    cases ht with
    | eof => cases hn
    | number _ _ => rfl
    | ident hn' _ => simp [hn'] at hn
    | multi hn' _ _ => simp [hn'] at hn
    | single hn' _ _ _ => simp [hn'] at hn
  | unexpected what hn' => simp [hn'] at hn
  | unread _ hx => simp [hstod] at hx

theorem number_form {number : Double} (hn : Lexer.isNumberStart rest = true)
    (hx : stod (String.ofList (Lexer.numberRun rest)) = .ok number) (hoff : ¬ OffGrammar rest) :
    ∃ int frac, IsDecimal int frac ∧ frac ≠ some [] ∧
      Lexer.numberRun rest = decimalChars int frac ∧ number = .num (decimalValue int frac) := by
  have hrange : inDoubleRange (leadingValue (Lexer.numberRun rest)) = true := by
    by_contra hr
    rw [stod_numberRun hn, if_neg hr] at hx
    cases hx
  obtain ⟨int, frac, hd, hfrac, hrun⟩ : Numeral (Lexer.numberRun rest) := by
    by_contra hform
    exact hoff ⟨hn, hform, hrange⟩
  have hvalue := stod_signed false hd
  simp only [signChars, Bool.false_eq_true, if_false, List.nil_append, signed, ← hrun, hx] at hvalue
  split_ifs at hvalue
  exact ⟨int, frac, hd, hfrac, hrun, Except.ok.inj hvalue⟩

theorem numbers_follow_grammar_iff (source : String) (symbols : List Char)
    (multi : List (List Char)) :
    (∀ ts lx, Produces (.make source symbols multi) ts lx → NumbersOk source.toList ts) ↔
      ∀ ts lx, Produces (.make source symbols multi) ts lx →
        ¬ OffGrammar (Lexer.skipSpace lx.cursor).rest := by
  constructor
  · intro h ts lx hts hoff
    have hp := hts.peeked rfl
    obtain ⟨t, lx', hn, hk⟩ := next_of_numberStart hp hoff.start hoff.range
    obtain ⟨int, frac, hd, hfrac, htext, -⟩ := (h _ _ (hts.next hn)).form t (by simp) hk
    exact hoff.form ⟨int, frac, hd, hfrac, (next_number hp hn hk).2.1 ▸ htext⟩
  · intro h ts lx hts
    have hform : ∀ t ∈ ts, t.kind = .number → ∃ int frac, IsDecimal int frac ∧ frac ≠ some [] ∧
        t.text.toList = decimalChars int frac ∧ t.number = .num (decimalValue int frac) := by
      induction hts with
      | nil => simp
      | @next ts lx lx' t hts hn ih =>
        intro u hu hk
        rcases List.mem_append.1 hu with hu | hu
        · exact ih u hu hk
        · obtain rfl := List.mem_singleton.1 hu
          obtain ⟨hstart, htext, hx⟩ := next_number (hts.peeked rfl) hn hk
          rw [htext]
          exact number_form hstart hx (h _ _ hts)
    refine ⟨hform, fun before run after _ _ hrun t ht hk hat => hrun ?_⟩
    obtain ⟨int, frac, hd, hfrac, htext, -⟩ := hform t ht hk
    exact ⟨int, frac, hd, hfrac, hat.2 ▸ htext⟩

theorem Numeral.dots {cs : List Char} (h : Numeral cs) : cs.count '.' ≤ 1 := by
  obtain ⟨int, frac, hd, -, rfl⟩ := h
  have hdigits : ∀ ds : List Char, (∀ c ∈ ds, c.isDigit = true) → ds.count '.' = 0 := by
    intro ds hds
    refine List.count_eq_zero.2 fun hmem => ?_
    have hdot := hds '.' hmem
    cases hdot
  cases frac with
  | none => simp [decimalChars, hdigits int hd.int]
  | some fs => simp [decimalChars, List.count_append, hdigits int hd.int, hdigits fs hd.fractional]

theorem number_two_dots : ¬ ∀ ts lx, Produces (.make "1.2.3" [] []) ts lx →
    NumbersOk "1.2.3".toList ts := by
  intro h
  have hleading : leadingDecimal ['1', '.', '2', '.', '3'] = (['1'], some ['2']) := rfl
  have hdigits : Nat.ofDigitChars 10 ['1', '2'] 0 = 12 := rfl
  have hvalue : leadingValue ['1', '.', '2', '.', '3'] = 12 / 10 := by
    simp [leadingValue, hleading, decimalValue, hdigits]
  have hrange : inDoubleRange (12 / 10) = true :=
    inDoubleRange_of_abs_le (.inr (by norm_num [abs_of_pos])) (by norm_num [abs_of_pos])
  obtain ⟨t, lx, hn, hk⟩ := @next_of_numberStart (.make "1.2.3" [] []) rfl rfl (hvalue ▸ hrange)
  obtain ⟨int, frac, hd, hfrac, htext, -⟩ := (h _ _ (.next .nil hn)).form t (by simp) hk
  have hread : t.text.toList = ['1', '.', '2', '.', '3'] := (next_number rfl hn hk).2.1
  have hrun : Numeral ['1', '.', '2', '.', '3'] := ⟨int, frac, hd, hfrac, hread ▸ htext⟩
  exact absurd hrun.dots (by decide)

end Numbers

end Lark.Toolkit.Dsl
