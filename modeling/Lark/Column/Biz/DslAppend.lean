import Lark.Toolkit.Appending
import Lark.Column.Biz.Acceptance
import Lark.Column.Biz.DslTemps

namespace Lark.Column.Biz.Dsl

open Lark.Base Lark.Toolkit.Dsl Lark.Column.Exec

def Value.rename (ρ : String → String) : Value → Value
  | literal v => literal v
  | named name => named (ρ name)

structure Renaming (ρ : String → String) (k : Nat) : Prop where
  temp : ∀ j, ρ (tempName j) = tempName (j + k)
  plain : ∀ c, isLocalName c = false → ρ c = c
  kept : ∀ c, isLocalName (ρ c) = isLocalName c

def shiftTemp (k : Nat) (name : String) : String :=
  match name.toList with
  | '@' :: 't' :: digits => tempName (Nat.ofDigitChars 10 digits 0 + k)
  | _ => name

theorem renaming_id : Renaming id 0 := ⟨fun _ => rfl, fun _ _ => rfl, fun _ => rfl⟩

theorem renaming_shiftTemp (k : Nat) : Renaming (shiftTemp k) k where
  temp := by
    intro j
    have hlist : (tempName j).toList = '@' :: 't' :: Nat.toDigits 10 j := by
      simp [tempName, Nat.repr]
    rw [shiftTemp, hlist]
    simp only [Nat.ofDigitChars_ten_toDigits]
  plain := by
    intro c hc
    unfold shiftTemp
    split
    · rename_i digits hlist
      simp [isLocalName, startsWithAt, hlist] at hc
    · rfl
  kept := by
    intro c
    unfold shiftTemp
    split
    · rename_i digits hlist
      rw [isLocalName_temp]
      simp [isLocalName, startsWithAt, hlist]
    · rfl

section Step

variable (ρ : String → String) (k : Nat) (more : List Token) (ops₀ : List OpSpec)

structure Follows (st st' : ParserState) : Prop where
  lexers : Goes TokenOk more st.lexer st'.lexer
  ops_eq : st'.ops = ops₀ ++ st.ops.map (renameSpec ρ)
  tmp_eq : st'.tmp = st.tmp + k

structure Mirrors (r r' : Value × ParserState) : Prop where
  value : r'.1 = r.1.rename ρ
  states : Follows ρ k more ops₀ r.2 r'.2

variable {ρ k more ops₀} (hρ : Renaming ρ k) (hmore : ∀ u ∈ more.head?, u.kind ≠ .symbol)
variable {st st' : ParserState} {v : Value}

theorem Follows.withLexer (h : Follows ρ k more ops₀ st st') {a b : Lexer}
    (hl : Goes TokenOk more a b) : Follows ρ k more ops₀ (st.withLexer a) (st'.withLexer b) :=
  ⟨hl, h.ops_eq, h.tmp_eq⟩

theorem Follows.temp (h : Follows ρ k more ops₀ st st') :
    Follows ρ k more ops₀ st.temp.2 st'.temp.2 := by
  refine ⟨h.lexers, h.ops_eq, ?_⟩
  have htmp := h.tmp_eq
  simp only [ParserState.temp]
  omega

theorem Follows.emit (h : Follows ρ k more ops₀ st st') (spec : OpSpec) :
    Follows ρ k more ops₀ (st.emit spec) (st'.emit (renameSpec ρ spec)) where
  lexers := h.lexers
  ops_eq := by simp [ParserState.emit, h.ops_eq]
  tmp_eq := h.tmp_eq

theorem format_simulates (x : Double) : Simulates (format x) (format x) Eq :=
  fun text h => ⟨text, h, rfl⟩

section

include hρ

theorem Follows.temp_name (h : Follows ρ k more ops₀ st st') : st'.temp.1 = ρ st.temp.1 := by
  change tempName st'.tmp = ρ (tempName st.tmp)
  rw [hρ.temp, h.tmp_eq]

theorem Follows.close (h : Follows ρ k more ops₀ st st') {st₁ st₁' : ParserState}
    (h₁ : Follows ρ k more ops₀ st₁ st₁') (type : String) (inputs : List String)
    (attrs : List (String × String)) :
    Mirrors ρ k more ops₀ (.named st.temp.1, st₁.emit ⟨type, inputs, [st.temp.1], attrs⟩)
      (.named st'.temp.1, st₁'.emit ⟨type, inputs.map ρ, [st'.temp.1], attrs⟩) := by
  rw [h.temp_name hρ]
  exact ⟨rfl, h₁.emit ⟨type, inputs, [st.temp.1], attrs⟩⟩

theorem makeBinary_follows (h : Follows ρ k more ops₀ st st') (a b : Value) (op : BinOp) :
    Simulates (makeBinary a b op st) (makeBinary (a.rename ρ) (b.rename ρ) op st')
      (Mirrors ρ k more ops₀) := by
  have hclose := fun type inputs attrs => h.close hρ h.temp type inputs attrs
  cases a with
  | literal x =>
    cases b with
    | literal y => exact .ok ⟨rfl, h⟩
    | named b =>
      refine (format_simulates x).bind ?_
      rintro text _ rfl
      exact .ok (hclose _ [b] _)
  | named a =>
    cases b with
    | literal y =>
      refine (format_simulates y).bind ?_
      rintro text _ rfl
      exact .ok (hclose _ [a] _)
    | named b => exact .ok (hclose _ [a, b] _)

theorem makeNeg_follows (h : Follows ρ k more ops₀ st st') (v : Value) :
    Mirrors ρ k more ops₀ (makeNeg v st) (makeNeg (v.rename ρ) st') := by
  cases v with
  | literal x => exact ⟨rfl, h⟩
  | named name => exact h.close hρ h.temp _ [name] _

theorem materialize_follows (h : Follows ρ k more ops₀ st st') (v : Value) :
    Simulates (materialize v st) (materialize (v.rename ρ) st') fun r r' =>
      r'.1 = ρ r.1 ∧ Follows ρ k more ops₀ r.2 r'.2 := by
  cases v with
  | named name => exact .ok ⟨rfl, h⟩
  | literal x =>
    refine (format_simulates x).bind ?_
    rintro text _ rfl
    exact .ok ⟨h.temp_name hρ, (h.close hρ h.temp _ [] _).states⟩

theorem assign_follows (h : Follows ρ k more ops₀ st st') {lhs : String}
    (hl : isLocalName lhs = false) (v : Value) :
    Simulates (assign lhs v st) (assign lhs (v.rename ρ) st') (Follows ρ k more ops₀) := by
  have hlhs := hρ.plain lhs hl
  cases v with
  | literal x =>
    refine (format_simulates x).bind ?_
    rintro text _ rfl
    have hemit := h.emit ⟨"const", [], [lhs], [("value", text), ("size", "1")]⟩
    simp only [renameSpec, List.map_nil, List.map_cons, hlhs] at hemit
    exact .ok hemit
  | named name =>
    have hname : ρ name = lhs ↔ name = lhs := by
      constructor
      · intro he
        have hkept := hρ.kept name
        rw [he, hl] at hkept
        rw [← hρ.plain name hkept.symm, he]
      · rintro rfl
        exact hlhs
    have hemit := h.emit ⟨"identity", [name], [lhs], []⟩
    simp only [renameSpec, List.map_nil, List.map_cons, hlhs] at hemit
    simp only [assign, Value.rename, hname]
    split_ifs
    · exact .ok h
    · exact .ok hemit

end

section

include hmore

theorem expect_follows (h : Follows ρ k more ops₀ st st') (symbol what : String) :
    Simulates (expect symbol what st) (expect symbol what st') (Follows ρ k more ops₀) :=
  (expectSymbol_goes hmore h.lexers symbol what).bind fun _ _ hl => .ok (h.withLexer hl)

end

variable (ρ k more ops₀) in
structure Mirrored (fuel fuel' : Nat) : Prop where
  expr : ∀ minPrec st st', Follows ρ k more ops₀ st st' →
    Simulates (parseExpr fuel minPrec st) (parseExpr fuel' minPrec st') (Mirrors ρ k more ops₀)
  loop : ∀ minPrec left st st', Follows ρ k more ops₀ st st' →
    Simulates (exprLoop fuel minPrec left st) (exprLoop fuel' minPrec (left.rename ρ) st')
      (Mirrors ρ k more ops₀)
  primary : ∀ st st', Follows ρ k more ops₀ st st' →
    Simulates (parsePrimary fuel st) (parsePrimary fuel' st') (Mirrors ρ k more ops₀)
  call : ∀ fn st st', Follows ρ k more ops₀ st st' →
    Simulates (parseCall fuel fn st) (parseCall fuel' fn st') (Mirrors ρ k more ops₀)

variable {fuel fuel' : Nat}

theorem Mirrored.expr_succ (ih : Mirrored ρ k more ops₀ fuel fuel') (minPrec : Nat)
    (h : Follows ρ k more ops₀ st st') :
    Simulates (parseExpr (fuel + 1) minPrec st) (parseExpr (fuel' + 1) minPrec st')
      (Mirrors ρ k more ops₀) := by
  rw [parseExpr, parseExpr]
  refine (ih.primary st st' h).bind fun r r' hr => ?_
  change Simulates (exprLoop fuel minPrec r.1 r.2) (exprLoop fuel' minPrec r'.1 r'.2) _
  rw [hr.value]
  exact ih.loop minPrec r.1 r.2 r'.2 hr.states

include hρ hmore

theorem Mirrored.loop_succ (ih : Mirrored ρ k more ops₀ fuel fuel') (minPrec : Nat) (left : Value)
    (h : Follows ρ k more ops₀ st st') :
    Simulates (exprLoop (fuel + 1) minPrec left st)
      (exprLoop (fuel' + 1) minPrec (left.rename ρ) st') (Mirrors ρ k more ops₀) := by
  rw [exprLoop, exprLoop]
  refine (peek_goes hmore h.lexers).bind fun r r' hr => ?_
  obtain ⟨t, lx⟩ := r
  obtain ⟨u, lx'⟩ := r'
  have hstop : Mirrors ρ k more ops₀ (left, st.withLexer lx)
      (left.rename ρ, st'.withLexer lx') := ⟨rfl, h.withLexer hr.goes⟩
  have hsymbol := hr.symbol
  simp only at hsymbol ⊢
  by_cases hk : t.kind = .symbol
  · obtain ⟨htext, hgoes⟩ := hr.passed hk
    simp only at htext
    rw [if_pos hk, if_pos (hsymbol.1 hk), ← htext]
    cases BinOp.ofSymbol t.text with
    | none => exact .ok hstop
    | some op =>
      simp only
      split_ifs
      · exact .ok hstop
      · simp only [Parser.consume, ParserState.withLexer, Ready.next_peeked hr.left,
          Ready.next_peeked hr.right, except_ok_bind]
        refine (ih.expr _ _ _ (h.withLexer hgoes)).bind fun v v' hv => ?_
        rw [hv.value]
        refine (makeBinary_follows hρ hv.states left v.1 op).bind fun w w' hw => ?_
        rw [hw.value]
        exact ih.loop minPrec w.1 w.2 w'.2 hw.states
  · rw [if_neg hk, if_neg (mt hsymbol.2 hk)]
    exact .ok hstop

theorem Mirrored.primary_succ (ih : Mirrored ρ k more ops₀ fuel fuel')
    (h : Follows ρ k more ops₀ st st') :
    Simulates (parsePrimary (fuel + 1) st) (parsePrimary (fuel' + 1) st')
      (Mirrors ρ k more ops₀) := by
  rw [parsePrimary, parsePrimary, Parser.consume, Parser.consume]
  refine (next_goes h.lexers).bind fun r r' hr => ?_
  obtain ⟨t, lx⟩ := r
  obtain ⟨u, lx'⟩ := r'
  simp only at hr ⊢
  cases hk : t.kind with
  | eof => exact fail_simulates _ _ _ _
  | number =>
    obtain ⟨hlike, -, hgoes⟩ := hr (by simp [hk])
    rw [← hlike.kind, ← hlike.number, hk]
    exact .ok ⟨rfl, h.withLexer hgoes⟩
  | ident =>
    obtain ⟨hlike, hplain, hgoes⟩ := hr (by simp [hk])
    rw [← hlike.kind, ← hlike.text, hk]
    have h₁ := h.withLexer hgoes
    refine (peek_goes hmore h₁.lexers).bind fun p p' hp => ?_
    obtain ⟨p, lx₁⟩ := p
    obtain ⟨p', lx₁'⟩ := p'
    have hsymbol := hp.symbol
    simp only at hsymbol ⊢
    have hopen : (p.kind = .symbol ∧ p.text = "(") ↔ (p'.kind = .symbol ∧ p'.text = "(") := by
      rw [hsymbol]
      refine and_congr_right fun hp' => ?_
      have htext : p.text = p'.text := (hp.passed (hsymbol.2 hp')).1
      rw [htext]
    simp only [← hopen]
    split_ifs with hcall
    · simp only [Parser.consume, ParserState.withLexer, Ready.next_peeked hp.left,
        Ready.next_peeked hp.right, except_ok_bind]
      exact ih.call t.text _ _ (h.withLexer (hp.passed hcall.1).2)
    · refine .ok ⟨?_, h₁.withLexer hp.goes⟩
      simp only [Value.rename, hρ.plain t.text (hplain hk)]
  | symbol =>
    obtain ⟨hlike, -, hgoes⟩ := hr (by simp [hk])
    rw [← hlike.kind, ← hlike.text, hk]
    have h₁ := h.withLexer hgoes
    simp only
    split_ifs
    · refine (ih.primary _ _ h₁).bind fun v v' hv => ?_
      rw [hv.value]
      exact .ok (makeNeg_follows hρ hv.states v.1)
    · refine (ih.expr 0 _ _ h₁).bind fun v v' hv => ?_
      refine (expect_follows hmore hv.states _ _).bind fun st₂ st₂' h₂ => ?_
      exact .ok ⟨hv.value, h₂⟩
    · exact fail_simulates _ _ _ _

omit hρ in
theorem Mirrored.argument (ih : Mirrored ρ k more ops₀ fuel fuel')
    (h : Follows ρ k more ops₀ st st') (symbol what : String) {α β : Type}
    {f : Value × ParserState → ParserState → Except Exn α}
    {g : Value × ParserState → ParserState → Except Exn β} {R : α → β → Prop}
    (hk : ∀ r r' st₁ st₁', r'.1 = r.1.rename ρ → Follows ρ k more ops₀ st₁ st₁' →
      Simulates (f r st₁) (g r' st₁') R) :
    Simulates (do
      let r ← parseExpr fuel 0 st
      let st₁ ← expect symbol what r.2
      f r st₁) (do
      let r' ← parseExpr fuel' 0 st'
      let st₁' ← expect symbol what r'.2
      g r' st₁') R := by
  refine (ih.expr 0 st st' h).bind fun r r' hr => ?_
  refine (expect_follows hmore hr.states symbol what).bind fun st₁ st₁' h₁ => ?_
  exact hk r r' st₁ st₁' hr.value h₁

omit hmore in
theorem materialize_follows_then (h : Follows ρ k more ops₀ st st') {v v' : Value}
    (hv : v' = v.rename ρ) {α β : Type} {f : String × ParserState → Except Exn α}
    {g : String × ParserState → Except Exn β} {R : α → β → Prop}
    (hk : ∀ r r', r'.1 = ρ r.1 → Follows ρ k more ops₀ r.2 r'.2 → Simulates (f r) (g r') R) :
    Simulates (materialize v st >>= f) (materialize v' st' >>= g) R := by
  subst hv
  exact (materialize_follows hρ h v).bind fun r r' hr => hk r r' hr.1 hr.2

theorem Mirrored.call_succ (ih : Mirrored ρ k more ops₀ fuel fuel') (fn : String)
    (h : Follows ρ k more ops₀ st st') :
    Simulates (parseCall (fuel + 1) fn st) (parseCall (fuel' + 1) fn st')
      (Mirrors ρ k more ops₀) := by
  have hclose {st₁ st₁' : ParserState} (h₁ : Follows ρ k more ops₀ st₁ st₁')
      (type : String) {inputs inputs' : List String} (attrs : List (String × String))
      (hin : inputs' = inputs.map ρ) :
      Mirrors ρ k more ops₀ (.named st.temp.1, st₁.emit ⟨type, inputs, [st.temp.1], attrs⟩)
        (.named st'.temp.1, st₁'.emit ⟨type, inputs', [st'.temp.1], attrs⟩) :=
    hin ▸ h.close hρ h₁ type inputs attrs
  rw [parseCall, parseCall]
  simp only
  split_ifs
  · refine ih.argument hmore h.temp _ _ fun mask mask' st₁ st₁' hm h₁ => ?_
    refine ih.argument hmore h₁ _ _ fun a a' st₂ st₂' ha h₂ => ?_
    refine ih.argument hmore h₂ _ _ fun b b' st₃ st₃' hb h₃ => ?_
    refine materialize_follows_then hρ h₃ hm fun m m' hm h₄ => ?_
    refine materialize_follows_then hρ h₄ ha fun a a' ha h₅ => ?_
    refine materialize_follows_then hρ h₅ hb fun b b' hb h₆ => ?_
    exact .ok (hclose h₆ _ _ (by simp [hm, ha, hb]))
  · refine ih.argument hmore h.temp _ _ fun a a' st₁ st₁' ha h₁ => ?_
    refine ih.argument hmore h₁ _ _ fun b b' st₂ st₂' hb h₂ => ?_
    refine materialize_follows_then hρ h₂ ha fun a a' ha h₃ => ?_
    refine materialize_follows_then hρ h₃ hb fun b b' hb h₄ => ?_
    exact .ok (hclose h₄ _ _ (by simp [ha, hb]))
  · refine ih.argument hmore h.temp _ _ fun a a' st₁ st₁' ha h₁ => ?_
    refine (next_goes h₁.lexers).bind fun r r' hr => ?_
    obtain ⟨t, lx⟩ := r
    obtain ⟨u, lx'⟩ := r'
    simp only at hr ⊢
    by_cases hk : t.kind = .ident
    · obtain ⟨hlike, -, hgoes⟩ := hr (by simp [hk])
      simp only [← hlike.kind, ← hlike.text, hk, ne_eq, not_true_eq_false, if_false]
      refine (expect_follows hmore (h₁.withLexer hgoes) _ _).bind fun st₂ st₂' h₂ => ?_
      refine materialize_follows_then hρ h₂ ha fun a a' ha h₃ => ?_
      exact .ok (hclose h₃ _ _ (by simp [ha]))
    · rw [if_pos hk]
      exact fail_simulates _ _ _ _
  · refine ih.argument hmore h.temp _ _ fun a a' st₁ st₁' ha h₁ => ?_
    refine materialize_follows_then hρ h₁ ha fun a a' ha h₂ => ?_
    exact .ok (hclose h₂ _ _ (by simp [ha]))
  · exact fail_simulates _ _ _ _

theorem mirrored (fuel fuel' : Nat) (hle : fuel ≤ fuel') : Mirrored ρ k more ops₀ fuel fuel' := by
  induction fuel generalizing fuel' with
  | zero =>
    refine ⟨fun _ _ _ _ => ?_, fun _ _ _ _ _ => ?_, fun _ _ _ => ?_, fun _ _ _ _ => ?_⟩
    · rw [parseExpr]
      exact .error _ _ _
    · rw [exprLoop]
      exact .error _ _ _
    · rw [parsePrimary]
      exact .error _ _ _
    · rw [parseCall]
      exact .error _ _ _
  | succ fuel ih =>
    cases fuel' with
    | zero => omega
    | succ fuel' =>
      have ih' := ih fuel' (by omega)
      exact ⟨fun p _ _ h => ih'.expr_succ p h, fun p v _ _ h => ih'.loop_succ hρ hmore p v h,
        fun _ _ h => ih'.primary_succ hρ hmore h, fun fn _ _ h => ih'.call_succ hρ hmore fn h⟩

theorem parseStatement_follows (hle : fuel ≤ fuel') (h : Follows ρ k more ops₀ st st') :
    Simulates (parseStatement fuel st) (parseStatement fuel' st') (Follows ρ k more ops₀) := by
  unfold parseStatement
  rw [Parser.consume, Parser.consume]
  refine (next_goes h.lexers).bind fun r r' hr => ?_
  obtain ⟨t, lx⟩ := r
  obtain ⟨u, lx'⟩ := r'
  simp only at hr ⊢
  by_cases hk : t.kind = .ident
  · obtain ⟨hlike, hplain, hgoes⟩ := hr (by simp [hk])
    simp only [← hlike.kind, ← hlike.text, hk, ne_eq, not_true_eq_false, if_false]
    refine (expect_follows hmore (h.withLexer hgoes) _ _).bind fun st₁ st₁' h₁ => ?_
    refine ((mirrored hρ hmore fuel fuel' hle).expr 0 _ _ h₁).bind fun v v' hv => ?_
    rw [hv.value]
    exact assign_follows hρ hv.states (hplain hk) v.1
  · rw [if_pos hk]
    exact fail_simulates _ _ _ _

structure Reaches (ρ : String → String) (k : Nat) (more : List Token) (ops₀ ops : List OpSpec)
    (st' : ParserState) : Prop where
  lexes : Lexes st'.lexer more
  ops_eq : st'.ops = ops₀ ++ ops.map (renameSpec ρ)
  numbered : ∃ tmp, Numbered ops tmp ∧ st'.tmp = tmp + k

theorem parseStatements_follows {ops : List OpSpec} (hle : fuel ≤ fuel')
    (h : Follows ρ k more ops₀ st st') (hu : st.lexer.Usable) (hs : 2 * st.lexer.size + 1 ≤ fuel)
    (hg : Good st) (hn : Numbered st.ops st.tmp) (hok : parseStatements fuel st = .ok ops) :
    ∃ n st'', n ≤ st.lexer.size ∧ Reaches ρ k more ops₀ ops st'' ∧
      parseStatements fuel' st' = parseStatements (fuel' - n) st'' := by
  induction fuel generalizing fuel' st st' with
  | zero => omega
  | succ fuel ih =>
    obtain ⟨fuel', rfl⟩ : ∃ f, fuel' = f + 1 := ⟨fuel' - 1, by omega⟩
    have hfit : st.lexer.Fit fun _ => True := ⟨hu, fun _ _ _ _ _ => trivial⟩
    have hlook : Gives (Parser.atEnd st.lexer) fun r => LexerOk r.2 :=
      (peek_ok hg.lexer).bind fun r hr => Gives.ok hr.2
    have hlexed := atEnd_settles hfit
    rw [parseStatements] at hok
    obtain ⟨⟨atEnd, lx⟩, hend, hok⟩ := except_bind_eq_ok.1 hok
    rw [hend] at hlexed
    obtain ⟨hpeek, -⟩ := hlexed
    have hread : Steps st (st.withLexer lx) [] [] := .peek hpeek
    have hsize := hread.size hfit
    rw [List.length_nil] at hsize
    cases atEnd with
    | true =>
      cases hok
      refine ⟨0, st', Nat.zero_le _, ⟨atEnd_goes_end h.lexers hend, h.ops_eq, ?_⟩, rfl⟩
      exact ⟨st.tmp, hn, h.tmp_eq⟩
    | false =>
      obtain ⟨st₂, hstep, hok⟩ := except_bind_eq_ok.1 hok
      have hg₁ : Good (st.withLexer lx) := hg.withLexer (hlook _ hend)
      have hg₂ : Good st₂ := parseStatement_good fuel hg₁ st₂ hstep
      have hspec : Settles (parseStatement fuel (st.withLexer lx))
          (fun st₂ => ∃ a, Executes (st.withLexer lx) st₂ a) fun _ => True :=
        parseStatement_settles ⟨fun _ _ _ => trivial, trivial⟩ (hread.fit hfit) (by omega)
          hg₁.lexer hn
      rw [hstep] at hspec
      obtain ⟨a, hexec⟩ := hspec
      obtain ⟨hu₂, hsize₂⟩ := (hread.consumes.trans hexec.consumes).size hu
      simp only [List.nil_append, Assignment.toks, List.length_cons] at hsize₂
      obtain ⟨lx', hend', hgoes⟩ := atEnd_goes h.lexers hend
      have hle₁ : fuel ≤ fuel' := by omega
      obtain ⟨st₂', hstep', h₂⟩ :=
        parseStatement_follows hρ hmore hle₁ (h.withLexer hgoes) st₂ hstep
      obtain ⟨n, st'', hle₂, hreach, hrest⟩ :=
        ih hle₁ h₂ hu₂ (by omega) hg₂ hexec.numbered hok
      refine ⟨n + 1, st'', by omega, hreach, ?_⟩
      rw [parseStatements]
      simp only [hend', except_ok_bind, Bool.false_eq_true, if_false, hstep', hrest,
        Nat.add_sub_add_right]

end Step

theorem tokenOk_lexes {source : String} {ts : List Token} (h : Lexes (start source) ts) :
    ∀ t ∈ ts, TokenOk t :=
  h.all (fun _ _ _ hl hn => next_ok hl _ hn) (by simp [LexerOk, start, Lexer.make])

theorem renameSpec_id : renameSpec id = id := by
  funext spec
  simp [renameSpec]

theorem parseStatements_end {st : ParserState} {eof : Token} (h : Lexes st.lexer [eof])
    (fuel : Nat) : parseStatements (fuel + 1) st = .ok st.ops := by
  obtain ⟨lx, hp, -, -⟩ := h.peek
  rw [parseStatements]
  simp [Parser.atEnd, hp, h.eof_kind, ParserState.withLexer]

theorem Program.head_kind {source : String} {ops : List OpSpec} {tmp : Nat}
    {as : List Assignment} {eof : Token} (h : Program (start source) [] ops tmp as)
    (hl : Lexes (start source) (as.flatMap Assignment.toks ++ [eof])) :
    ∀ t ∈ (as.flatMap Assignment.toks ++ [eof]).head?, t.kind ≠ .symbol := by
  cases as with
  | nil =>
    have hk : eof.kind = .eof := Lexes.eof_kind hl
    simp [hk]
  | cons a as =>
    have hk := (h.ok a (by simp)).target
    simp [Assignment.toks, hk]

theorem Alike.head_kind {ts us : List Token} (h : List.Forall₂ Alike ts us)
    (hk : ∀ t ∈ ts.head?, t.kind ≠ .symbol) : ∀ u ∈ us.head?, u.kind ≠ .symbol := by
  cases h with
  | nil => simp
  | @cons t u ts us htu _ =>
    have ht := hk t rfl
    rw [htu.kind] at ht
    simpa using ht

theorem twin_start (source source' : String) : Twin (start source) (start source') :=
  ⟨rfl, rfl, rfl, rfl⟩

theorem parse_follows {ρ : String → String} {k : Nat} (hρ : Renaming ρ k) {more : List Token}
    (hmore : ∀ u ∈ more.head?, u.kind ≠ .symbol) {source : String} {ops : List OpSpec}
    (hparse : parse source = .ok ops) (st : ParserState) (hk : st.tmp = k)
    (hgoes : Goes TokenOk more (start source) st.lexer) (fuel : Nat)
    (hfuel : parseFuel source ≤ fuel) :
    ∃ n st', n ≤ source.toList.length ∧ Reaches ρ k more st.ops ops st' ∧
      parseStatements fuel st = parseStatements (fuel - n) st' := by
  have hfollows : Follows ρ k more st.ops ⟨start source, [], 0⟩ st :=
    ⟨hgoes, by simp, by simp [hk]⟩
  rw [← size_start]
  exact parseStatements_follows hρ hmore hfuel hfollows (usable_start source) (fuel_start source)
    (good_start source) numbered_nil hparse

theorem lexes_append {s t : String} {ts us : List Token} {eof eof' : Token}
    (hs : Lexes (start s) (ts ++ [eof])) (ht : Lexes (start t) (us ++ [eof'])) :
    ∃ ts' us' last, Lexes (start (s ++ "\n" ++ t)) (ts' ++ (us' ++ [last])) ∧
      List.Forall₂ Alike ts ts' ∧ List.Forall₂ Alike us us' ∧ Alike eof' last := by
  have hjoined : (start (s ++ "\n" ++ t)).cursor.rest =
      (start s).cursor.rest ++ '\n' :: t.toList := by
    simp [start, Lexer.make, Cursor.start]
  obtain ⟨ts', us', hall, hts, hus⟩ :=
    (twin_start s _).lexes_line (usable_start s) hjoined hs (twin_start s t) rfl ht
  rw [List.dropLast_concat] at hts
  have hus₁ := List.forall₂_take us.length hus
  have hus₂ := List.forall₂_drop us.length hus
  rw [List.take_left] at hus₁
  rw [List.drop_left, List.forall₂_cons_left_iff] at hus₂
  obtain ⟨last, rest, hlast, hrest, hdrop⟩ := hus₂
  rw [List.forall₂_nil_left_iff.1 hrest] at hdrop
  refine ⟨ts', us'.take us.length, last, ?_, hts, hus₁, hlast⟩
  rwa [← hdrop, List.take_append_drop]

theorem parse_append {s t : String} {ops ops' : List OpSpec} (hs : parse s = .ok ops)
    (ht : parse t = .ok ops') : ∃ tmp, Numbered ops tmp ∧ ∀ ρ, Renaming ρ tmp →
      parse (s ++ "\n" ++ t) = .ok (ops ++ ops'.map (renameSpec ρ)) := by
  obtain ⟨_, as, hprog⟩ := parse_program_of_ok hs
  obtain ⟨_, as', hprog'⟩ := parse_program_of_ok ht
  obtain ⟨eof, hlexes⟩ := hprog.lexes
  obtain ⟨eof', hlexes'⟩ := hprog'.lexes
  have hhead := hprog'.head_kind hlexes'
  obtain ⟨ts, us, last, hall, hts, hus, hlast⟩ := lexes_append hlexes hlexes'
  have hlength : (s ++ "\n" ++ t).toList.length = s.toList.length + 1 + t.toList.length := by
    simp [Nat.add_assoc, Nat.add_comm 1]
  have hgoes : Goes TokenOk (us ++ [last]) (start s) (start (s ++ "\n" ++ t)) :=
    ⟨_, ts, eof, hlexes, hall, hts, fun t ht => tokenOk_lexes hlexes t (by simp [ht])⟩
  have hmore := Alike.head_kind (List.rel_append hus (.cons hlast .nil)) hhead
  obtain ⟨n, st, hn, hreach, hrest⟩ := parse_follows renaming_id hmore hs
    ⟨start (s ++ "\n" ++ t), [], 0⟩ rfl hgoes (parseFuel (s ++ "\n" ++ t))
    (by rw [parseFuel, parseFuel, hlength]; omega)
  obtain ⟨tmp, hnum, htmp⟩ := hreach.numbered
  have hops : st.ops = ops := by simpa [renameSpec_id] using hreach.ops_eq
  refine ⟨tmp, hnum, fun ρ hρ => ?_⟩
  have hgoes' : Goes TokenOk [last] (start t) st.lexer :=
    ⟨_, us, eof', hlexes', hreach.lexes, hus, fun t ht => tokenOk_lexes hlexes' t (by simp [ht])⟩
  have hlastKind : last.kind = .eof := by
    rw [← hlast.kind]
    exact hlexes'.last_kind eof' (by simp)
  obtain ⟨n', st', hn', hreach', hrest'⟩ := parse_follows hρ (by simp [hlastKind]) ht st
    (by simpa using htmp) hgoes' (parseFuel (s ++ "\n" ++ t) - n)
    (by rw [parseFuel, parseFuel, hlength]; omega)
  have hfuel : parseFuel (s ++ "\n" ++ t) - n - n' =
      (parseFuel (s ++ "\n" ++ t) - n - n' - 1) + 1 := by
    rw [parseFuel, hlength]
    omega
  rw [parse]
  change parseStatements _ ⟨start (s ++ "\n" ++ t), [], 0⟩ = _
  rw [hrest, hrest', hfuel, parseStatements_end hreach'.lexes, hreach'.ops_eq, hops]

end Lark.Column.Biz.Dsl
