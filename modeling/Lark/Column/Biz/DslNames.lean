import Lark.Column.Biz.PipelineCompiler
import Lark.Toolkit.Lexing

namespace Lark.Column.Biz

open Lark.Base Lark.Toolkit.Dsl Lark.Column.Exec

def IsTemp (c : String) : Prop := ∃ k : Nat, c = "@t" ++ toString k

def NameOk (ops : List OpSpec) (c : String) : Prop :=
  isLocalName c = false ∨ IsTemp c ∧ ∃ spec ∈ ops, c ∈ spec.outputs

structure SpecOk (ops : List OpSpec) (spec : OpSpec) : Prop where
  inputs : ∀ c ∈ spec.inputs, NameOk ops c
  outputs : ∀ c ∈ spec.outputs, isLocalName c = false ∨ IsTemp c

def OpsOk (ops : List OpSpec) : Prop :=
  ∀ pre spec post, ops = pre ++ spec :: post → SpecOk pre spec

theorem NameOk.mono {ops ops' : List OpSpec} {c : String} (h : NameOk ops c) (hs : ops <+: ops') :
    NameOk ops' c := by
  rcases h with h | ⟨ht, spec, hm, hc⟩
  · exact .inl h
  · exact .inr ⟨ht, spec, hs.subset hm, hc⟩

theorem SpecOk.mono {ops ops' : List OpSpec} {spec : OpSpec} (h : SpecOk ops spec)
    (hs : ∀ s ∈ ops, s ∈ ops') : SpecOk ops' spec where
  inputs := by
    intro c hc
    rcases h.inputs c hc with h | ⟨ht, s, hm, hc⟩
    · exact .inl h
    · exact .inr ⟨ht, s, hs s hm, hc⟩
  outputs := h.outputs

theorem opsOk_nil : OpsOk [] := by
  intro pre spec post h
  simp at h

theorem OpsOk.append {ops ops' : List OpSpec} (h : OpsOk ops) (h' : OpsOk ops') :
    OpsOk (ops ++ ops') := by
  intro pre spec post hs
  rcases List.append_eq_append_iff.1 hs with ⟨mid, rfl, hm⟩ | ⟨mid, hm, hs'⟩
  · exact (h' mid spec post hm).mono fun s hs => List.mem_append_right _ hs
  · cases mid with
    | nil =>
      simp only [List.nil_append] at hs'
      refine (h' [] spec post hs'.symm).mono ?_
      simp
    | cons s mid =>
      obtain ⟨rfl, -⟩ := List.cons.inj hs'
      exact h pre spec mid hm

theorem OpsOk.emit {ops : List OpSpec} {spec : OpSpec} (h : OpsOk ops) (hs : SpecOk ops spec) :
    OpsOk (ops ++ [spec]) := by
  intro pre spec' post he
  rcases List.eq_nil_or_concat post with rfl | ⟨post', z, rfl⟩
  · obtain ⟨rfl, hx⟩ := List.append_inj' he rfl
    obtain ⟨rfl, -⟩ := List.cons.inj hx
    exact hs
  · rw [List.concat_eq_append, ← List.cons_append, ← List.append_assoc] at he
    obtain ⟨rfl, -⟩ := List.append_inj' he rfl
    exact h pre spec' post' rfl

def TokenOk (t : Token) : Prop := t.kind = .ident → isLocalName t.text = false

def LexerOk (lx : Lexer) : Prop := ∀ t ∈ lx.peeked, TokenOk t

theorem isLocalName_ident {c : Char} {cs : List Char} (h : Lexer.isIdentStart c = true) :
    isLocalName (String.ofList ((c :: cs).takeWhile Lexer.isIdentChar)) = false := by
  have hat : c ≠ '@' := by
    rintro rfl
    exact absurd h (by decide)
  simp [isLocalName, startsWithAt, identStart_char h, hat]

theorem lex_ok (lx : Lexer) : Gives lx.lex fun r => TokenOk r.1 ∧ r.2.peeked = lx.peeked := by
  rintro ⟨t, lx'⟩ h
  obtain ⟨kind, text, number, ht, rfl, rfl⟩ := Lexer.lex_ok h
  refine ⟨fun hk => ?_, rfl⟩
  generalize (Lexer.skipSpace lx.cursor).rest = rest at ht
  cases ht with
  | ident _ hi => exact isLocalName_ident hi
  | eof => cases hk
  | number _ _ => cases hk
  | multi _ _ _ => cases hk
  | single _ _ _ _ => cases hk

theorem peek_ok {lx : Lexer} (h : LexerOk lx) :
    Gives lx.peek fun r => TokenOk r.1 ∧ LexerOk r.2 := by
  unfold Lexer.peek
  split
  · rename_i t ht
    exact Gives.ok ⟨h t ht, h⟩
  · refine (lex_ok lx).bind fun r hr => Gives.ok ⟨hr.1, ?_⟩
    rintro t ht
    obtain rfl : r.1 = t := by simpa using ht
    exact hr.1

theorem next_ok {lx : Lexer} (h : LexerOk lx) :
    Gives lx.next fun r => TokenOk r.1 ∧ LexerOk r.2 := by
  unfold Lexer.next
  refine (peek_ok h).bind fun r hr => Gives.ok ⟨hr.1, ?_⟩
  simp [LexerOk]

theorem fail_gives {α : Type} (lx : Lexer) (message : String) (Q : α → Prop) :
    Gives (Parser.fail lx message) Q := by
  unfold Parser.fail
  split <;> exact Gives.error _ _

theorem expectSymbol_ok {lx : Lexer} (h : LexerOk lx) (symbol what : String) :
    Gives (Parser.expectSymbol lx symbol what) LexerOk := by
  unfold Parser.expectSymbol
  refine (peek_ok h).bind fun r hr => ?_
  obtain ⟨t, lx'⟩ := r
  simp only
  split_ifs
  · exact fail_gives _ _ _
  · exact (next_ok hr.2).bind fun r' hr' => Gives.ok hr'.2

namespace Dsl

def ValueOk (ops : List OpSpec) : Value → Prop
  | .literal _ => True
  | .named name => NameOk ops name

structure Good (st : ParserState) : Prop where
  ops : OpsOk st.ops
  lexer : LexerOk st.lexer

structure Grown (ops : List OpSpec) (r : Value × ParserState) : Prop where
  good : Good r.2
  ops : ops <+: r.2.ops
  value : ValueOk r.2.ops r.1

theorem ValueOk.mono {ops ops' : List OpSpec} {v : Value} (h : ValueOk ops v)
    (hs : ops <+: ops') : ValueOk ops' v := by
  cases v with
  | literal x => trivial
  | named name => exact NameOk.mono h hs

theorem Good.withLexer {st : ParserState} (h : Good st) {lx : Lexer} (hl : LexerOk lx) :
    Good (st.withLexer lx) := ⟨h.ops, hl⟩

theorem isTemp_temp (st : ParserState) : IsTemp st.temp.1 := ⟨st.tmp, rfl⟩

theorem Grown.emit {ops : List OpSpec} {st : ParserState} (h : Good st) (hs : ops <+: st.ops)
    {type out : String} {inputs : List String} {attrs : List (String × String)}
    (hin : ∀ c ∈ inputs, NameOk st.ops c) (ht : IsTemp out) :
    Grown ops (.named out, st.emit ⟨type, inputs, [out], attrs⟩) where
  good := ⟨h.ops.emit ⟨hin, by simp [ht]⟩, h.lexer⟩
  ops := hs.trans (List.prefix_append _ _)
  value := .inr ⟨ht, ⟨type, inputs, [out], attrs⟩, by simp [ParserState.emit], by simp⟩

theorem Grown.weaken {ops ops' : List OpSpec} {r : Value × ParserState} (h : Grown ops' r)
    (hs : ops <+: ops') : Grown ops r := ⟨h.good, hs.trans h.ops, h.value⟩

theorem Good.refl {st : ParserState} (h : Good st) {v : Value} (hv : ValueOk st.ops v) :
    Grown st.ops (v, st) := ⟨h, List.prefix_refl _, hv⟩

theorem Good.temp {st : ParserState} (h : Good st) : Good st.temp.2 := ⟨h.ops, h.lexer⟩

theorem nameOk_one {ops : List OpSpec} {a : String} (ha : NameOk ops a) : ∀ c ∈ [a], NameOk ops c := by
  simpa using ha

theorem nameOk_two {ops : List OpSpec} {a b : String} (ha : NameOk ops a) (hb : NameOk ops b) :
    ∀ c ∈ [a, b], NameOk ops c := by
  simpa using ⟨ha, hb⟩

theorem makeBinary_grown {st : ParserState} (h : Good st) {a b : Value} (ha : ValueOk st.ops a)
    (hb : ValueOk st.ops b) (op : BinOp) : Gives (makeBinary a b op st) (Grown st.ops) := by
  cases a with
  | literal x =>
    cases b with
    | literal y => exact Gives.ok (h.refl trivial)
    | named b =>
      refine (Gives.trivial (format x)).bind fun text _ => Gives.ok ?_
      exact Grown.emit h.temp (List.prefix_refl _) (nameOk_one hb) (isTemp_temp st)
  | named a =>
    cases b with
    | literal y =>
      refine (Gives.trivial (format y)).bind fun text _ => Gives.ok ?_
      exact Grown.emit h.temp (List.prefix_refl _) (nameOk_one ha) (isTemp_temp st)
    | named b =>
      refine Gives.ok ?_
      exact Grown.emit h.temp (List.prefix_refl _) (nameOk_two ha hb) (isTemp_temp st)

theorem makeNeg_grown {st : ParserState} (h : Good st) {v : Value} (hv : ValueOk st.ops v) :
    Grown st.ops (makeNeg v st) := by
  cases v with
  | literal x => exact h.refl trivial
  | named name => exact Grown.emit h.temp (List.prefix_refl _) (nameOk_one hv) (isTemp_temp st)

theorem materialize_grown {st : ParserState} (h : Good st) {v : Value} (hv : ValueOk st.ops v) :
    Gives (materialize v st) fun r => Grown st.ops (.named r.1, r.2) := by
  cases v with
  | literal x =>
    refine (Gives.trivial (format x)).bind fun text _ => Gives.ok ?_
    exact Grown.emit h.temp (List.prefix_refl _) (fun c hc => by cases hc) (isTemp_temp st)
  | named name => exact Gives.ok (h.refl hv)

theorem expect_good {st : ParserState} (h : Good st) (symbol what : String) :
    Gives (expect symbol what st) fun st' => Good st' ∧ st'.ops = st.ops :=
  (expectSymbol_ok h.lexer symbol what).bind fun _ hl => Gives.ok ⟨h.withLexer hl, rfl⟩

structure Parses (fuel : Nat) : Prop where
  expr : ∀ minPrec st, Good st → Gives (parseExpr fuel minPrec st) (Grown st.ops)
  loop : ∀ minPrec left st, Good st → ValueOk st.ops left →
    Gives (exprLoop fuel minPrec left st) (Grown st.ops)
  primary : ∀ st, Good st → Gives (parsePrimary fuel st) (Grown st.ops)
  call : ∀ fn st, Good st → Gives (parseCall fuel fn st) (Grown st.ops)

section Step

variable {fuel : Nat}

theorem Parses.expr_succ (ih : Parses fuel) (minPrec : Nat) {st : ParserState} (h : Good st) :
    Gives (parseExpr (fuel + 1) minPrec st) (Grown st.ops) := by
  rw [parseExpr]
  refine (ih.primary st h).bind fun r hr => ?_
  exact (ih.loop minPrec r.1 r.2 hr.good hr.value).mono fun r' hr' => hr'.weaken hr.ops

theorem Parses.loop_succ (ih : Parses fuel) (minPrec : Nat) {left : Value} {st : ParserState}
    (h : Good st) (hv : ValueOk st.ops left) :
    Gives (exprLoop (fuel + 1) minPrec left st) (Grown st.ops) := by
  rw [exprLoop]
  refine (peek_ok h.lexer).bind fun r hr => ?_
  obtain ⟨t, lx⟩ := r
  have h₁ : Good (st.withLexer lx) := h.withLexer hr.2
  simp only
  split_ifs
  · split
    · exact Gives.ok (h₁.refl hv)
    · split_ifs
      · exact Gives.ok (h₁.refl hv)
      · refine (next_ok h₁.lexer).bind fun r' hr' => ?_
        have h₂ : Good ((st.withLexer lx).withLexer r'.2) := h₁.withLexer hr'.2
        refine (ih.expr _ _ h₂).bind fun right hright => ?_
        refine (makeBinary_grown hright.good (hv.mono hright.ops) hright.value _).bind
          fun v hbin => ?_
        exact (ih.loop minPrec v.1 v.2 hbin.good hbin.value).mono
          fun r'' hr'' => hr''.weaken (hright.ops.trans hbin.ops)
  · exact Gives.ok (h₁.refl hv)

theorem Parses.primary_succ (ih : Parses fuel) {st : ParserState} (h : Good st) :
    Gives (parsePrimary (fuel + 1) st) (Grown st.ops) := by
  rw [parsePrimary]
  refine (next_ok h.lexer).bind fun r hr => ?_
  obtain ⟨t, lx⟩ := r
  have h₁ : Good (st.withLexer lx) := h.withLexer hr.2
  simp only
  cases hk : t.kind with
  | number => exact Gives.ok (h₁.refl trivial)
  | ident =>
    refine (peek_ok h₁.lexer).bind fun r' hr' => ?_
    have h₂ : Good ((st.withLexer lx).withLexer r'.2) := h₁.withLexer hr'.2
    split_ifs
    · refine (next_ok h₂.lexer).bind fun r'' hr'' => ?_
      exact ih.call _ _ (h₂.withLexer hr''.2)
    · exact Gives.ok (h₂.refl (.inl (hr.1 hk)))
  | symbol =>
    simp only
    split_ifs
    · refine (ih.primary _ h₁).bind fun v hv => Gives.ok ?_
      exact (makeNeg_grown hv.good hv.value).weaken hv.ops
    · refine (ih.expr 0 _ h₁).bind fun v hv => ?_
      refine (expect_good hv.good _ _).bind fun st' hst => Gives.ok ?_
      exact ⟨hst.1, hst.2 ▸ hv.ops, hst.2 ▸ hv.value⟩
    · exact fail_gives _ _ _
  | eof => exact fail_gives _ _ _

theorem Parses.argument (ih : Parses fuel) {st : ParserState} (h : Good st) (symbol what : String)
    {β : Type} {k : Value × ParserState → ParserState → Except Exn β} {Q : β → Prop}
    (hk : ∀ r st', Good st' → st.ops <+: st'.ops → ValueOk st'.ops r.1 → Gives (k r st') Q) :
    Gives (do
      let r ← parseExpr fuel 0 st
      let st' ← expect symbol what r.2
      k r st') Q := by
  refine (ih.expr 0 st h).bind fun r hr => ?_
  refine (expect_good hr.good symbol what).bind fun st' hst => ?_
  exact hk r st' hst.1 (hst.2 ▸ hr.ops) (hst.2 ▸ hr.value)

theorem Parses.call_succ (ih : Parses fuel) (fn : String) {st : ParserState} (h : Good st) :
    Gives (parseCall (fuel + 1) fn st) (Grown st.ops) := by
  have htemp := isTemp_temp st
  rw [parseCall]
  simp only
  split_ifs
  · refine ih.argument h.temp _ _ fun mask st₁ g₁ p₁ v₁ => ?_
    refine ih.argument g₁ _ _ fun a st₂ g₂ p₂ v₂ => ?_
    refine ih.argument g₂ _ _ fun b st₃ g₃ p₃ v₃ => ?_
    refine (materialize_grown g₃ ((v₁.mono p₂).mono p₃)).bind fun mask' h₄ => ?_
    refine (materialize_grown h₄.good ((v₂.mono p₃).mono h₄.ops)).bind fun a' h₅ => ?_
    refine (materialize_grown h₅.good ((v₃.mono h₄.ops).mono h₅.ops)).bind fun b' h₆ => Gives.ok ?_
    have hp : st.ops <+: b'.2.ops :=
      p₁.trans (p₂.trans (p₃.trans (h₄.ops.trans (h₅.ops.trans h₆.ops))))
    refine Grown.emit h₆.good hp (fun c hc => ?_) htemp
    rcases (by simpa using hc : c = mask'.1 ∨ c = a'.1 ∨ c = b'.1) with rfl | rfl | rfl
    · exact (h₄.value.mono h₅.ops).mono h₆.ops
    · exact h₅.value.mono h₆.ops
    · exact h₆.value
  · refine ih.argument h.temp _ _ fun a st₁ g₁ p₁ v₁ => ?_
    refine ih.argument g₁ _ _ fun b st₂ g₂ p₂ v₂ => ?_
    refine (materialize_grown g₂ (v₁.mono p₂)).bind fun a' h₃ => ?_
    refine (materialize_grown h₃.good (v₂.mono h₃.ops)).bind fun b' h₄ => Gives.ok ?_
    exact Grown.emit h₄.good (p₁.trans (p₂.trans (h₃.ops.trans h₄.ops)))
      (nameOk_two (h₃.value.mono h₄.ops) h₄.value) htemp
  · refine ih.argument h.temp _ _ fun a st₁ g₁ p₁ v₁ => ?_
    refine (next_ok g₁.lexer).bind fun r hr => ?_
    have g₂ : Good (st₁.withLexer r.2) := g₁.withLexer hr.2
    split_ifs
    · exact fail_gives _ _ _
    · refine (expect_good g₂ _ _).bind fun st₃ hst => ?_
      have hp : st₁.ops <+: st₃.ops := hst.2 ▸ List.prefix_refl _
      refine (materialize_grown hst.1 (v₁.mono hp)).bind fun a' h₄ => Gives.ok ?_
      exact Grown.emit h₄.good (p₁.trans (hp.trans h₄.ops)) (nameOk_one h₄.value) htemp
  · refine ih.argument h.temp _ _ fun a st₁ g₁ p₁ v₁ => ?_
    refine (materialize_grown g₁ v₁).bind fun a' h₂ => Gives.ok ?_
    exact Grown.emit h₂.good (p₁.trans h₂.ops) (nameOk_one h₂.value) htemp
  · exact fail_gives _ _ _

end Step

theorem parses (fuel : Nat) : Parses fuel := by
  induction fuel with
  | zero =>
    refine ⟨fun _ _ _ => ?_, fun _ _ _ _ _ => ?_, fun _ _ => ?_, fun _ _ _ => ?_⟩
    · rw [parseExpr]
      exact Gives.error _ _
    · rw [exprLoop]
      exact Gives.error _ _
    · rw [parsePrimary]
      exact Gives.error _ _
    · rw [parseCall]
      exact Gives.error _ _
  | succ fuel ih =>
    exact ⟨fun p _ h => ih.expr_succ p h, fun p _ _ h hv => ih.loop_succ p h hv,
      fun _ h => ih.primary_succ h, fun fn _ h => ih.call_succ fn h⟩

theorem assign_good {st : ParserState} (h : Good st) {lhs : String} (hl : isLocalName lhs = false)
    {v : Value} (hv : ValueOk st.ops v) : Gives (assign lhs v st) Good := by
  cases v with
  | literal x =>
    refine (Gives.trivial (format x)).bind fun text _ => Gives.ok ⟨h.ops.emit ⟨?_, ?_⟩, h.lexer⟩
    · exact fun c hc => by cases hc
    · simpa using .inl hl
  | named name =>
    simp only [assign]
    split_ifs
    · exact Gives.ok h
    · exact Gives.ok ⟨h.ops.emit ⟨nameOk_one hv, by simpa using .inl hl⟩, h.lexer⟩

theorem parseStatement_good (fuel : Nat) {st : ParserState} (h : Good st) :
    Gives (parseStatement fuel st) Good := by
  unfold parseStatement
  refine (next_ok h.lexer).bind fun r hr => ?_
  have h₁ : Good (st.withLexer r.2) := h.withLexer hr.2
  simp only
  split_ifs with hk
  · exact fail_gives _ _ _
  · refine (expect_good h₁ _ _).bind fun st₂ h₂ => ?_
    refine ((parses fuel).expr 0 st₂ h₂.1).bind fun v hv => ?_
    exact assign_good hv.good (hr.1 (not_not.1 hk)) hv.value

theorem parseStatements_ok (fuel : Nat) {st : ParserState} (h : Good st) :
    Gives (parseStatements fuel st) OpsOk := by
  induction fuel generalizing st with
  | zero =>
    rw [parseStatements]
    exact Gives.error _ _
  | succ fuel ih =>
    rw [parseStatements]
    have hend : Gives (Parser.atEnd st.lexer) fun r => LexerOk r.2 :=
      (peek_ok h.lexer).bind fun r hr => Gives.ok hr.2
    refine hend.bind fun r hr => ?_
    have h₁ : Good (st.withLexer r.2) := h.withLexer hr
    simp only
    split_ifs
    · exact Gives.ok h.ops
    · exact (parseStatement_good fuel h₁).bind fun st₂ h₂ => ih h₂

theorem parse_ok (source : String) : Gives (parse source) OpsOk :=
  parseStatements_ok _ ⟨opsOk_nil, by simp [LexerOk, Lexer.make]⟩

end Dsl

inductive Built (Port : String → Prop) : Module → Prop
  | make (name : String) : Built Port (.make name)
  | input {m : Module} {port : String} (h : Built Port m) (hp : Port port) :
    Built Port (m.input port)
  | output {m : Module} {port : String} (h : Built Port m) (hp : Port port) :
    Built Port (m.output port)
  | fromDsl {m m' : Module} {source : String} (h : Built Port m) (hs : m.fromDsl source = .ok m') :
    Built Port m'

structure PortsAndDsl (Port : String → Prop) (m : Module) : Prop where
  inputs : ∀ p ∈ m.inputs, Port p
  outputs : ∀ p ∈ m.outputs, Port p
  dependencies : m.dependencies = []
  ops : OpsOk m.ops

theorem Built.portsAndDsl {Port : String → Prop} {m : Module} (h : Built Port m) :
    PortsAndDsl Port m := by
  induction h with
  | make name => exact ⟨by simp [Module.make], by simp [Module.make], rfl, opsOk_nil⟩
  | @input m port _ hp ih =>
    refine { ih with inputs := fun p hm => ?_ }
    rcases List.mem_append.1 hm with hm | hm
    · exact ih.inputs p hm
    · obtain rfl := List.mem_singleton.1 hm
      exact hp
  | @output m port _ hp ih =>
    refine { ih with outputs := fun p hm => ?_ }
    rcases List.mem_append.1 hm with hm | hm
    · exact ih.outputs p hm
    · obtain rfl := List.mem_singleton.1 hm
      exact hp
  | @fromDsl m m' source _ hs ih =>
    have hgives : Gives (m.fromDsl source) fun m' => PortsAndDsl Port m' :=
      (Dsl.parse_ok source).bind fun specs hspecs => Gives.ok { ih with ops := ih.ops.append hspecs }
    exact hgives m' hs

end Lark.Column.Biz
