import Lark.Dag.OpGraphBuilder

namespace Lark.Dag.OpGraphBuilder

open Lark.Base Lark.Toolkit.Dsl

inductive Seg where
  | typed (id type : List Char)
  | bare (type : List Char)

namespace Seg

def idChars : Seg → List Char
  | typed id _ => id
  | bare type => type

def typeChars : Seg → List Char
  | typed _ type => type
  | bare type => type

def id (s : Seg) : String := String.ofList s.idChars

def type (s : Seg) : String := String.ofList s.typeChars

def toks : Seg → List Tok
  | typed id type => [.ident id, .symbol [':'], .ident type]
  | bare type => [.ident type]

structure Named (s : Seg) : Prop where
  id : IsIdent s.idChars
  type : IsIdent s.typeChars

end Seg

def tailToks (ss : List Seg) : List Tok := ss.flatMap fun s => .symbol ['-', '>'] :: s.toks

def chainToks : List Seg → List Tok
  | [] => []
  | s :: ss => s.toks ++ tailToks ss

inductive Sep where
  | semi
  | newline
  deriving DecidableEq

def texts (c : List Seg) : List (List Char) := (chainToks c).map Tok.text

inductive Program : List (List Seg) → List Sep → List Char → Prop
  | empty {g} (hg : TrailingGap g) : Program [] [] g
  | last {c source} (h : Rendering TrailingGap (texts c) source) : Program [c] [] source
  | newline {c c' cs seps body g rest} (hc : Rendering (· = []) (texts c) body) (hg : Gap g)
      (hn : '\n' ∈ g) (h : Program (c' :: cs) seps rest) :
      Program (c :: c' :: cs) (.newline :: seps) (body ++ (g ++ rest))
  | semi {c c' cs seps body g rest} (hc : Rendering (· = []) (texts c) body) (hg : Gap g)
      (h : Program (c' :: cs) seps rest) :
      Program (c :: c' :: cs) (.semi :: seps) (body ++ (g ++ ';' :: rest))

inductive TokOk : Tok → Prop
  | ident {name} (h : IsIdent name) : TokOk (.ident name)
  | colon : TokOk (.symbol [':'])
  | arrow : TokOk (.symbol ['-', '>'])

def Stops (t : Tok) (rest : List Char) : Prop :=
  t.kind = .ident → ∀ c ∈ rest.head?, Lexer.isIdentChar c = false

def Joinable (t t' : Tok) : Prop := t.kind = .ident → t'.kind = .symbol

theorem lex_tok {lx : Lexer} {t : Tok} {g rest : List Char} (hsymbols : lx.symbols = arrowSymbols)
    (hmulti : lx.multi = arrowMulti) (ht : TokOk t) (hs : Stops t rest) (hg : Gap g)
    (hcur : lx.cursor.rest = g ++ t.text ++ rest) : Reads lx t rest := by
  cases ht with
  | ident h => exact lex_ident h (hs rfl) hg hcur
  | colon =>
    refine lex_symbol (isSolid_of_toNat (by decide)) ?_ (by decide) ?_ hg hcur
    · simp [Lexer.isNumberStart]
    · refine .inr ⟨?_, rfl, by simp [hsymbols, arrowSymbols]⟩
      simp [hmulti, arrowMulti]
  | arrow =>
    refine lex_symbol (isSolid_of_toNat (by decide)) ?_ (by decide) ?_ hg hcur
    · simp [Lexer.isNumberStart]
    · exact .inl (by simp [hmulti, arrowMulti])

theorem stops_of_blank {t : Tok} {rest : List Char}
    (h : ∀ c ∈ rest.head?, c.toNat ≤ 35 ∧ c ≠ '=') : Stops t rest := by
  intro _ c hc
  by_contra hi
  have := isIdentChar_toNat (by simpa using hi)
  have := (h c hc).1
  omega

theorem punctuation_notIdent : Lexer.isIdentChar ':' = false ∧ Lexer.isIdentChar '-' = false ∧
    Lexer.isIdentChar ';' = false := by
  decide

theorem stops_of_joinable {t t' : Tok} {rest : List Char} (h : Joinable t t') (ht' : TokOk t') :
    Stops t (t'.text ++ rest) := by
  intro hk
  cases ht' with
  | ident _ => cases h hk
  | colon => simp [Tok.symbol, punctuation_notIdent]
  | arrow => simp [Tok.symbol, punctuation_notIdent]

def arrowLanguage : Language where
  symbols := arrowSymbols
  multi := arrowMulti
  Ok := TokOk
  Stops := Stops
  Joinable := Joinable
  lex := lex_tok
  stops_blank := stops_of_blank
  stops_tok := stops_of_joinable

def SemiEnd (g : List Char) : Prop := ∃ gap rest, Gap gap ∧ g = gap ++ ';' :: rest

theorem stops_semi {t : Tok} {g : List Char} (h : SemiEnd g) : Stops t g := by
  obtain ⟨gap, rest, hg, rfl⟩ := h
  cases gap with
  | nil => simp [Stops, punctuation_notIdent]
  | cons c gap =>
    refine stops_of_blank fun d hd => blank_toNat (hg.blank d ?_)
    simpa using hd

theorem SemiEnd.prepend {g g' : List Char} (hg : Gap g) (h : SemiEnd g') : SemiEnd (g ++ g') := by
  obtain ⟨gap, rest, hgap, rfl⟩ := h
  exact ⟨g ++ gap, rest, hg.append hgap, by simp⟩

theorem toks_ok {s : Seg} (h : s.Named) : ∀ t ∈ s.toks, TokOk t := by
  cases s with
  | typed id type =>
    have hid : IsIdent id := h.id
    have htype : IsIdent type := h.type
    simp [Seg.toks, TokOk.ident hid, TokOk.ident htype, TokOk.colon]
  | bare type =>
    have htype : IsIdent type := h.type
    simp [Seg.toks, TokOk.ident htype]

theorem toks_chain (s : Seg) : s.toks.IsChain Joinable := by
  cases s <;> simp [Seg.toks, Joinable, Tok.ident, Tok.symbol]

theorem tailToks_ok {ss : List Seg} (h : ∀ s ∈ ss, s.Named) : ∀ t ∈ tailToks ss, TokOk t := by
  intro t ht
  obtain ⟨s, hs, ht⟩ := List.mem_flatMap.1 ht
  rcases List.mem_cons.1 ht with rfl | ht
  · exact .arrow
  · exact toks_ok (h s hs) t ht

theorem tailToks_head (ss : List Seg) : ∀ t ∈ (tailToks ss).head?, t = .symbol ['-', '>'] := by
  cases ss <;> simp [tailToks]

theorem append_tail_chain (s : Seg) (ss : List Seg) :
    (s.toks ++ tailToks ss).IsChain Joinable := by
  induction ss generalizing s with
  | nil => simpa [tailToks] using toks_chain s
  | cons s' ss ih =>
    refine List.isChain_append.2 ⟨toks_chain s, ?_, ?_⟩
    · refine List.isChain_cons.2 ⟨?_, ih s'⟩
      intro t _ hk
      cases hk
    · rintro t - t' ht' -
      rw [tailToks_head _ t' ht']
      rfl

theorem chainToks_ok {c : List Seg} (h : ∀ s ∈ c, s.Named) : ∀ t ∈ chainToks c, TokOk t := by
  cases c with
  | nil => simp [chainToks]
  | cons s ss =>
    intro t ht
    rcases List.mem_append.1 ht with ht | ht
    · exact toks_ok (h s (by simp)) t ht
    · exact tailToks_ok (fun s' hs' => h s' (by simp [hs'])) t ht

theorem chainToks_chain (c : List Seg) : (chainToks c).IsChain Joinable := by
  cases c with
  | nil => exact .nil
  | cons s ss => exact append_tail_chain s ss

section Lexing

variable {End : List Char → Prop}

theorem lexable_statement {c : List Seg} {body rest : List Char} {ts : List Tok}
    (hc : Rendering (· = []) (texts c) body) (hn : ∀ s ∈ c, s.Named) (hs : ∀ t, Stops t rest)
    (h : Lexable arrowLanguage End ts rest) :
    Lexable arrowLanguage End (chainToks c ++ ts) (body ++ rest) := by
  refine .bind (.of_rendering ?_ (hc.append rest) (chainToks_ok hn) (chainToks_chain c)) h
  rintro t _ rfl
  exact hs t

theorem stops_newline {t : Tok} {g rest : List Char} (hg : Gap g) (hn : '\n' ∈ g) :
    Stops t (g ++ rest) := by
  cases g with
  | nil => cases hn
  | cons c g =>
    refine stops_of_blank fun d hd => blank_toNat (hg.blank d ?_)
    simpa using hd

variable {chains : List (List Seg)} {seps : List Sep} {source : List Char}

theorem Program.lexable (h : Program chains seps source) (hn : ∀ c ∈ chains, ∀ s ∈ c, s.Named)
    (hsemi : .semi ∉ seps) :
    Lexable arrowLanguage TrailingGap (chains.flatMap chainToks) source := by
  induction h with
  | empty hg => exact .done hg
  | @last c source hc =>
    have hc' : Lexable arrowLanguage TrailingGap (chainToks c) source :=
      .of_rendering (fun t g hg => stops_trailing hg) hc (chainToks_ok (hn c (by simp)))
        (chainToks_chain c)
    simpa using hc'
  | @newline c c' cs seps body g rest hc hg hnl h ih =>
    have ih' := ih (fun d hd => hn d (by simp_all)) (fun hmem => hsemi (by simp [hmem]))
    exact lexable_statement hc (hn c (by simp)) (fun t => stops_newline hg hnl)
      (ih'.prepend (fun g' => TrailingGap.prepend hg) hg)
  | semi hc hg h ih => simp at hsemi

theorem Program.lexable_semi (h : Program chains seps source)
    (hn : ∀ c ∈ chains, ∀ s ∈ c, s.Named) (hsemi : .semi ∈ seps) :
    ∃ front c back, chains = front ++ c :: back ∧
      Lexable arrowLanguage SemiEnd (front.flatMap chainToks ++ chainToks c) source := by
  induction h with
  | empty hg => cases hsemi
  | last hc => cases hsemi
  | @newline c c' cs seps body g rest hc hg hnl h ih =>
    obtain ⟨front, d, back, hsplit, hl⟩ := ih (fun d hd => hn d (by simp_all))
      (by simpa using hsemi)
    refine ⟨c :: front, d, back, by simp [hsplit], ?_⟩
    have hrest : Lexable arrowLanguage SemiEnd (front.flatMap chainToks ++ chainToks d) (g ++ rest) :=
      hl.prepend (fun g' => SemiEnd.prepend hg) hg
    have hl' := lexable_statement hc (hn c (by simp)) (fun t => stops_newline hg hnl) hrest
    simpa using hl'
  | @semi c c' cs seps body g rest hc hg h ih =>
    have hend : SemiEnd (g ++ ';' :: rest) := ⟨g, rest, hg, rfl⟩
    refine ⟨[], c, c' :: cs, rfl, ?_⟩
    have hl := lexable_statement hc (hn c (by simp)) (fun t => stops_semi hend)
      (.done hend : Lexable arrowLanguage SemiEnd [] _)
    simpa using hl

theorem lexable_length {ts : List Tok} (h : Lexable arrowLanguage End ts source) :
    ts.length ≤ source.length := by
  refine h.length_le fun t hok => ?_
  have hok : TokOk t := hok
  cases hok with
  | ident h =>
    obtain ⟨c, cs, rfl, -⟩ := h.start
    simp [Tok.ident]
  | colon => simp [Tok.symbol]
  | arrow => simp [Tok.symbol]

abbrev Ready := Toolkit.Dsl.Ready arrowLanguage

variable {lx : Lexer} {ts : List Tok}

theorem matchSymbol_other (symbol : String) (h : Ready End lx ts)
    (hend : ts = [] → End = TrailingGap)
    (hne : ∀ t ∈ ts.head?, t.kind = .symbol → String.ofList t.text ≠ symbol) :
    ∃ lx', Parser.matchSymbol lx symbol = .ok (false, lx') ∧ Ready End lx' ts := by
  cases ts with
  | nil =>
    obtain rfl := hend rfl
    exact h.matchSymbol_nil symbol
  | cons t ts => exact h.matchSymbol_ne (hne t rfl)

def Follows (t : Tok) : Prop := t.kind = .ident ∨ t = .symbol ['-', '>']

theorem Follows.ne {t : Tok} (h : Follows t) {symbol : String} (hs : symbol ≠ "->") :
    t.kind = .symbol → String.ofList t.text ≠ symbol := by
  intro hk
  rcases h with h | rfl
  · rw [hk] at h
    cases h
  · exact hs.symm

theorem segment_typed {id type : List Char} (h : Ready End lx ((Seg.typed id type).toks ++ ts)) :
    ∃ lx', segment lx = .ok ((String.ofList id, String.ofList type), lx') ∧ Ready End lx' ts := by
  obtain ⟨t₁, lx₁, h₁, hm₁, hr₁⟩ := h.expectToken_cons "identifier"
  obtain ⟨lx₂, h₂, hr₂⟩ := hr₁.matchSymbol_cons ":" rfl
  obtain ⟨t₃, lx₃, h₃, hm₃, hr₃⟩ := hr₂.expectToken_cons "identifier"
  refine ⟨lx₃, ?_, hr₃⟩
  simp only [Tok.ident] at h₁ h₃
  simp [segment, h₁, h₂, h₃, hm₁.text, hm₃.text, Tok.ident]

theorem segment_spec {s : Seg} (h : Ready End lx (s.toks ++ ts))
    (hend : ts = [] → End = TrailingGap) (hf : ∀ t ∈ ts.head?, Follows t) :
    ∃ lx', segment lx = .ok ((s.id, s.type), lx') ∧ Ready End lx' ts := by
  cases s with
  | typed id type => exact segment_typed h
  | bare type =>
    obtain ⟨t₁, lx₁, h₁, hm₁, hr₁⟩ := h.expectToken_cons "identifier"
    obtain ⟨lx₂, h₂, hr₂⟩ := matchSymbol_other ":" hr₁ hend
      (fun t ht => (hf t ht).ne (by decide))
    refine ⟨lx₂, ?_, hr₂⟩
    simp only [Tok.ident] at h₁
    simp [segment, h₁, h₂, hm₁.text, Seg.id, Seg.type, Seg.idChars, Seg.typeChars, Tok.ident]

end Lexing

namespace Defs

def addTail : String → List Seg → Defs → Except Exn Defs
  | _, [], d => .ok d
  | prev, s :: ss, d => do
    let (slot, d) ← d.ensure s.id s.type
    addTail s.id ss (d.addDep slot prev)

def addChain : List Seg → Defs → Except Exn Defs
  | [], d => .ok d
  | s :: ss, d => do
    let (_, d) ← d.ensure s.id s.type
    addTail s.id ss d

def addChains : List (List Seg) → Defs → Except Exn Defs
  | [], d => .ok d
  | c :: cs, d => do
    let d ← addChain c d
    addChains cs d

end Defs

section Parsing

variable {End : List Char → Prop} {lx : Lexer} {ts : List Tok}

theorem tail_follows {ss : List Seg} (hf : ∀ t ∈ ts.head?, t.kind = .ident) :
    ∀ t ∈ (tailToks ss ++ ts).head?, Follows t := by
  intro t ht
  cases ss with
  | nil => exact .inl (hf t (by simpa [tailToks] using ht))
  | cons s ss => exact .inr (by simpa [tailToks] using ht.symm)

theorem tail_end {ss : List Seg} (hend : ts = [] → End = TrailingGap) :
    tailToks ss ++ ts = [] → End = TrailingGap := by
  intro h
  exact hend (List.append_eq_nil_iff.1 h).2

theorem tailToks_cons (s : Seg) (ss : List Seg) :
    tailToks (s :: ss) ++ ts = .symbol ['-', '>'] :: (s.toks ++ (tailToks ss ++ ts)) := by
  simp [tailToks]

theorem chain_spec {fuel : Nat} {ss : List Seg} {prev : String} {d d' : Defs}
    (hfuel : ss.length < fuel) (h : Ready End lx (tailToks ss ++ ts))
    (hend : ts = [] → End = TrailingGap) (hf : ∀ t ∈ ts.head?, t.kind = .ident)
    (hd : Defs.addTail prev ss d = .ok d') :
    ∃ lx', chain fuel prev d lx = .ok (d', lx') ∧ Ready End lx' ts := by
  induction ss generalizing fuel lx prev d with
  | nil =>
    obtain ⟨fuel, rfl⟩ : ∃ n, fuel = n + 1 := ⟨fuel - 1, by simp at hfuel; omega⟩
    obtain rfl : d = d' := by simpa [Defs.addTail] using hd
    obtain ⟨lx', hmatch, hr⟩ := matchSymbol_other "->" (by simpa [tailToks] using h) hend
      (fun t ht hk => by simp [hf t ht] at hk)
    exact ⟨lx', by simp [chain, hmatch], hr⟩
  | cons s ss ih =>
    obtain ⟨fuel, rfl⟩ : ∃ n, fuel = n + 1 := ⟨fuel - 1, by simp at hfuel; omega⟩
    rw [Defs.addTail] at hd
    obtain ⟨⟨slot, d₁⟩, he, hd⟩ := except_bind_eq_ok.1 hd
    rw [tailToks_cons] at h
    obtain ⟨lx₁, hmatch, hr₁⟩ := h.matchSymbol_cons "->" rfl
    obtain ⟨lx₂, hseg, hr₂⟩ := segment_spec hr₁ (tail_end hend) (tail_follows hf)
    obtain ⟨lx', hchain, hr'⟩ := ih (by simpa using hfuel) hr₂ hd
    exact ⟨lx', by simp [chain, hmatch, hseg, he, hchain], hr'⟩

theorem atEnd_chain {s : Seg} {ss : List Seg} (h : Ready End lx (chainToks (s :: ss) ++ ts)) :
    ∃ lx', Parser.atEnd lx = .ok (false, lx') ∧ Ready End lx' (chainToks (s :: ss) ++ ts) := by
  obtain ⟨t, rest, hhead, hk⟩ : ∃ t rest, chainToks (s :: ss) ++ ts = t :: rest ∧
      t.kind ≠ .eof := by
    cases s <;> exact ⟨_, _, rfl, by simp [Tok.ident]⟩
  rw [hhead] at h ⊢
  obtain ⟨token, lx', hpeek, hm, -, -⟩ := h.peek_cons
  exact ⟨lx', by simp [Parser.atEnd, hpeek, hm.kind, hk], h.peeked hpeek⟩

theorem statements_step {fuel : Nat} {c : List Seg} {d d' : Defs} (hc : c ≠ [])
    (hfuel : c.length ≤ fuel) (h : Ready End lx (chainToks c ++ ts))
    (hend : ts = [] → End = TrailingGap) (hf : ∀ t ∈ ts.head?, t.kind = .ident)
    (hd : Defs.addChain c d = .ok d') :
    ∃ lx', statements (fuel + 1) d lx = statements fuel d' lx' ∧ Ready End lx' ts := by
  cases c with
  | nil => exact absurd rfl hc
  | cons s ss =>
    rw [Defs.addChain] at hd
    obtain ⟨⟨slot, d₁⟩, he, hd⟩ := except_bind_eq_ok.1 hd
    obtain ⟨lx₀, hatEnd, hr₀⟩ := atEnd_chain h
    rw [chainToks, List.append_assoc] at hr₀
    obtain ⟨lx₁, hseg, hr₁⟩ := segment_spec hr₀ (tail_end hend) (tail_follows hf)
    obtain ⟨lx₂, hchain, hr₂⟩ := chain_spec (by simpa using hfuel) hr₁ hend hf hd
    obtain ⟨lx₃, hmatch, hr₃⟩ := matchSymbol_other ";" hr₂ hend
      (fun t ht hk => by simp [hf t ht] at hk)
    exact ⟨lx₃, by simp [statements, hatEnd, hseg, he, hchain, hmatch], hr₃⟩

theorem chainToks_length (c : List Seg) : c.length ≤ (chainToks c).length := by
  cases c with
  | nil => simp
  | cons s ss =>
    have htail : ss.length ≤ (tailToks ss).length := by
      induction ss with
      | nil => simp
      | cons s ss ih =>
        simp only [tailToks, List.flatMap_cons, List.length_append, List.length_cons] at ih ⊢
        omega
    have htoks : 1 ≤ s.toks.length := by cases s <;> simp [Seg.toks]
    simp only [chainToks, List.length_append, List.length_cons]
    omega

theorem chains_head {chains : List (List Seg)} (hne : ∀ c ∈ chains, c ≠ []) :
    ∀ t ∈ (chains.flatMap chainToks).head?, t.kind = .ident := by
  cases chains with
  | nil => simp
  | cons c cs =>
    obtain ⟨s, ss, rfl⟩ := List.exists_cons_of_ne_nil (hne c (by simp))
    cases s <;> simp [chainToks, Seg.toks, Tok.ident]

theorem statements_spec {fuel : Nat} {chains : List (List Seg)} {d d' : Defs}
    (hne : ∀ c ∈ chains, c ≠ []) (hfuel : (chains.flatMap chainToks).length < fuel)
    (h : Ready TrailingGap lx (chains.flatMap chainToks)) (hd : Defs.addChains chains d = .ok d') :
    statements fuel d lx = .ok d' := by
  induction chains generalizing fuel lx d with
  | nil =>
    obtain ⟨fuel, rfl⟩ : ∃ n, fuel = n + 1 := ⟨fuel - 1, by omega⟩
    obtain rfl : d = d' := by simpa [Defs.addChains] using hd
    obtain ⟨token, lx', hpeek, hk, -⟩ := h.peek_nil
    simp [statements, Parser.atEnd, hpeek, hk]
  | cons c cs ih =>
    obtain ⟨fuel, rfl⟩ : ∃ n, fuel = n + 1 := ⟨fuel - 1, by omega⟩
    have hc := hne c (by simp)
    have hcs : ∀ c' ∈ cs, c' ≠ [] := fun c' hc' => hne c' (by simp [hc'])
    have hlen := chainToks_length c
    have hpos := List.length_pos_iff.2 hc
    simp only [List.flatMap_cons, List.length_append] at hfuel
    cases he : Defs.addChain c d with
    | error e => simp [Defs.addChains, he] at hd
    | ok d₁ =>
      simp only [Defs.addChains, he, except_ok_bind] at hd
      have hle : c.length ≤ fuel := by omega
      obtain ⟨lx', hstep, hr⟩ := statements_step hc hle h (fun _ => rfl) (chains_head hcs) he
      rw [hstep]
      exact ih hcs (by omega) hr hd

def IsDslError {α : Type} (r : Except Exn α) : Prop :=
  ∃ what line col, r = .error (.dslError what line col)

theorem IsDslError.bind {α γ : Type} {r : Except Exn α} (h : IsDslError r)
    (f : α → Except Exn γ) : IsDslError (r >>= f) := by
  obtain ⟨what, line, col, rfl⟩ := h
  exact ⟨what, line, col, rfl⟩

theorem peek_semi (h : Ready SemiEnd lx []) : IsDslError lx.peek := by
  cases h with
  | fresh hs hm hp hl =>
    generalize hrest : lx.cursor.rest = source at hl
    cases hl with
    | done hg =>
      obtain ⟨gap, rest, hgap, rfl⟩ := hg
      obtain ⟨pos, line, col, hskip⟩ := skip_gap hgap lx.cursor.pos lx.cursor.line lx.cursor.col
      have hcur : Lexer.skipSpace lx.cursor = ⟨';' :: rest, pos, line, col⟩ := by
        rw [Lexer.skipSpace, hrest, hskip, skip_solid (isSolid_of_toNat (by decide))]
      have hsym : lx.symbols = arrowSymbols := hs
      have hmulti : lx.multi = arrowMulti := hm
      have hstart : Lexer.isIdentStart ';' = false := rfl
      refine ⟨"unexpected character ';'", line, col, ?_⟩
      simp [Lexer.peek, hp, Lexer.lex, hcur, hsym, hmulti, arrowSymbols, arrowMulti,
        Lexer.isNumberStart, hstart]
  | eof hE hp hk =>
    obtain ⟨gap, rest, -, hnil⟩ := hE
    simp at hnil

theorem matchSymbol_semi (symbol : String) (h : Ready SemiEnd lx []) :
    IsDslError (Parser.matchSymbol lx symbol) :=
  (peek_semi h).bind _

theorem segment_semi {s : Seg} (h : Ready SemiEnd lx (s.toks ++ ts))
    (hf : ∀ t ∈ ts.head?, Follows t) :
    (∃ lx', segment lx = .ok ((s.id, s.type), lx') ∧ Ready SemiEnd lx' ts) ∨
      IsDslError (segment lx) := by
  cases ts with
  | cons t ts => exact .inl (segment_spec h (by simp) hf)
  | nil =>
    cases s with
    | typed id type => exact .inl (segment_typed h)
    | bare type =>
      obtain ⟨t₁, lx₁, h₁, -, hr₁⟩ := h.expectToken_cons "identifier"
      obtain ⟨what, line, col, h₂⟩ := matchSymbol_semi ":" hr₁
      simp only [Tok.ident] at h₁
      exact .inr ⟨what, line, col, by simp [segment, h₁, h₂]⟩

theorem chain_semi {fuel : Nat} {ss : List Seg} {prev : String} {d d' : Defs}
    (hfuel : ss.length < fuel) (h : Ready SemiEnd lx (tailToks ss))
    (hd : Defs.addTail prev ss d = .ok d') : IsDslError (chain fuel prev d lx) := by
  induction ss generalizing fuel lx prev d with
  | nil =>
    obtain ⟨fuel, rfl⟩ : ∃ n, fuel = n + 1 := ⟨fuel - 1, by simp at hfuel; omega⟩
    exact (matchSymbol_semi "->" h).bind _
  | cons s ss ih =>
    obtain ⟨fuel, rfl⟩ : ∃ n, fuel = n + 1 := ⟨fuel - 1, by simp at hfuel; omega⟩
    rw [Defs.addTail] at hd
    obtain ⟨⟨slot, d₁⟩, he, hd⟩ := except_bind_eq_ok.1 hd
    obtain ⟨lx₁, hmatch, hr₁⟩ := h.matchSymbol_cons "->" rfl
    rcases segment_semi hr₁ (fun t ht => .inr (tailToks_head ss t ht)) with
      ⟨lx₂, hseg, hr₂⟩ | ⟨what, line, col, hseg⟩
    · obtain ⟨what, line, col, hchain⟩ := ih (by simpa using hfuel) hr₂ hd
      exact ⟨what, line, col, by simp [chain, hmatch, hseg, he, hchain]⟩
    · exact ⟨what, line, col, by simp [chain, hmatch, hseg]⟩

theorem statement_semi {fuel : Nat} {c : List Seg} {d d' : Defs} (hc : c ≠ [])
    (hfuel : c.length ≤ fuel) (h : Ready SemiEnd lx (chainToks c))
    (hd : Defs.addChain c d = .ok d') : IsDslError (statements (fuel + 1) d lx) := by
  obtain ⟨s, ss, rfl⟩ := List.exists_cons_of_ne_nil hc
  rw [Defs.addChain] at hd
  obtain ⟨⟨slot, d₁⟩, he, hd⟩ := except_bind_eq_ok.1 hd
  rw [← List.append_nil (chainToks _)] at h
  obtain ⟨lx₀, hatEnd, hr₀⟩ := atEnd_chain h
  rw [List.append_nil, chainToks] at hr₀
  rcases segment_semi hr₀ (fun t ht => .inr (tailToks_head ss t ht)) with
    ⟨lx₁, hseg, hr₁⟩ | ⟨what, line, col, hseg⟩
  · obtain ⟨what, line, col, hchain⟩ := chain_semi (by simpa using hfuel) hr₁ hd
    exact ⟨what, line, col, by simp [statements, hatEnd, hseg, he, hchain]⟩
  · exact ⟨what, line, col, by simp [statements, hatEnd, hseg]⟩

theorem statements_semi {fuel : Nat} {front back : List (List Seg)} {c : List Seg} {d d' : Defs}
    (hne : ∀ c' ∈ front ++ c :: back, c' ≠ [])
    (hfuel : (front.flatMap chainToks ++ chainToks c).length < fuel)
    (h : Ready SemiEnd lx (front.flatMap chainToks ++ chainToks c))
    (hd : Defs.addChains (front ++ c :: back) d = .ok d') : IsDslError (statements fuel d lx) := by
  induction front generalizing fuel lx d with
  | nil =>
    have hlen := chainToks_length c
    simp only [List.flatMap_nil, List.nil_append] at hfuel h
    obtain ⟨fuel, rfl⟩ : ∃ n, fuel = n + 1 := ⟨fuel - 1, by omega⟩
    cases he : Defs.addChain c d with
    | error e => simp [Defs.addChains, he] at hd
    | ok d₁ => exact statement_semi (hne c (by simp)) (by omega) h he
  | cons c' front ih =>
    have hlen := chainToks_length c'
    have hpos := List.length_pos_iff.2 (hne c' (by simp))
    have hhead : ∀ t ∈ (front.flatMap chainToks ++ chainToks c).head?, t.kind = .ident := by
      have hcs : ∀ c'' ∈ front ++ [c], c'' ≠ [] := by
        intro c'' hc''
        refine hne c'' ?_
        rcases List.mem_append.1 hc'' with hc'' | hc'' <;> simp_all
      simpa using chains_head hcs
    have hnil : front.flatMap chainToks ++ chainToks c ≠ [] := by
      have := chainToks_length c
      have := List.length_pos_iff.2 (hne c (by simp))
      refine List.append_ne_nil_of_right_ne_nil _ (List.length_pos_iff.1 (by omega))
    simp only [List.flatMap_cons, List.append_assoc, List.length_append] at hfuel h
    obtain ⟨fuel, rfl⟩ : ∃ n, fuel = n + 1 := ⟨fuel - 1, by omega⟩
    cases he : Defs.addChain c' d with
    | error e => simp [Defs.addChains, he] at hd
    | ok d₁ =>
      simp only [List.cons_append, Defs.addChains, he, except_ok_bind] at hd
      have hle : c'.length ≤ fuel := by omega
      obtain ⟨lx', hstep, hr⟩ := statements_step (hne c' (by simp)) hle h
        (fun hn => absurd hn hnil) hhead he
      rw [hstep]
      refine ih (fun c'' hc'' => hne c'' (List.mem_cons_of_mem c' hc'')) ?_ hr hd
      simp only [List.length_append]
      omega

end Parsing

end Lark.Dag.OpGraphBuilder
