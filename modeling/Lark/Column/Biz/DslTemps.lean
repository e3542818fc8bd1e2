import Lark.Column.Biz.DslGrammar
import Lark.Column.Biz.DslNames
import Lark.Toolkit.Parsing

namespace Lark.Column.Biz.Dsl

open Lark.Base Lark.Toolkit.Dsl Lark.Column.Exec

theorem isLocalName_temp (k : Nat) : isLocalName (tempName k) = true := by
  simp [isLocalName, tempName, startsWithAt]

structure Emitted (ops : List OpSpec) (tmp : Nat) (st : ParserState) (new : List OpSpec) :
    Prop where
  ops_eq : st.ops = ops ++ new
  tmp_eq : st.tmp = tmp + new.length
  outputs : (new.map (·.outputs)).Perm ((List.range' tmp new.length).map fun k => [tempName k])

section

variable {ops new new' : List OpSpec} {tmp : Nat} {st st' : ParserState}

theorem Emitted.nil (st : ParserState) : Emitted st.ops st.tmp st [] := ⟨by simp, by simp, by simp⟩

theorem Emitted.trans (h : Emitted ops tmp st new) (h' : Emitted st.ops st.tmp st' new') :
    Emitted ops tmp st' (new ++ new') where
  ops_eq := by rw [h'.ops_eq, h.ops_eq, List.append_assoc]
  tmp_eq := by rw [h'.tmp_eq, h.tmp_eq, List.length_append, Nat.add_assoc]
  outputs := by
    have hrange : List.range' tmp (new ++ new').length =
        List.range' tmp new.length ++ List.range' st.tmp new'.length := by
      rw [List.length_append, h.tmp_eq, List.range'_append_1]
    rw [List.map_append, hrange, List.map_append]
    exact h.outputs.append h'.outputs

theorem Emitted.close (h : Emitted ops (tmp + 1) st new) {spec : OpSpec}
    (ho : spec.outputs = [tempName tmp]) : Emitted ops tmp (st.emit spec) (new ++ [spec]) where
  ops_eq := by rw [ParserState.emit, h.ops_eq, List.append_assoc]
  tmp_eq := by
    rw [ParserState.emit, h.tmp_eq, List.length_append, List.length_singleton]
    omega
  outputs := by
    rw [List.map_append, List.length_append, List.length_singleton, List.range'_succ,
      List.map_cons, List.map_cons, List.map_nil, ho]
    exact (List.perm_append_singleton _ _).trans (h.outputs.cons _)

def Assigns (t : Token) : Prop := t.kind = .symbol ∧ t.text = "="

structure Steps (st st' : ParserState) (ts : List Token) (new : List OpSpec) : Prop where
  consumes : Consumes st.lexer ts st'.lexer
  emitted : Emitted st.ops st.tmp st' new
  plain : ∀ t ∈ ts, ¬ Assigns t

end

section

variable {new new' : List OpSpec} {ts ts' : List Token} {st st' st'' : ParserState}
  {E : Exn → Prop}

theorem Steps.refl (st : ParserState) : Steps st st [] [] := ⟨.nil, .nil st, by simp⟩

theorem Steps.trans (h : Steps st st' ts new) (h' : Steps st' st'' ts' new') :
    Steps st st'' (ts ++ ts') (new ++ new') :=
  ⟨h.consumes.trans h'.consumes, h.emitted.trans h'.emitted,
    List.forall_mem_append.2 ⟨h.plain, h'.plain⟩⟩

theorem Steps.peek {lx : Lexer} (h : Consumes st.lexer [] lx) :
    Steps st (st.withLexer lx) [] [] := ⟨h, .nil (st.withLexer lx), by simp⟩

theorem Steps.read {t : Token} {lx : Lexer} (h : Consumes st.lexer [t] lx)
    (ht : ¬ Assigns t) : Steps st (st.withLexer lx) [t] [] :=
  ⟨h, .nil (st.withLexer lx), by simpa using ht⟩

theorem not_assigns_kind {t : Token} (h : t.kind ≠ .symbol) : ¬ Assigns t := fun ha => h ha.1

theorem not_assigns_text {t : Token} {text : String} (ht : t.text = text) (hne : text ≠ "=") :
    ¬ Assigns t := fun ha => hne (ht.symm.trans ha.2)

theorem Steps.close (h : Steps st.temp.2 st' ts new) (type : String) (inputs : List String)
    (attrs : List (String × String)) :
    Steps st (st'.emit ⟨type, inputs, [st.temp.1], attrs⟩) ts
      (new ++ [⟨type, inputs, [st.temp.1], attrs⟩]) :=
  ⟨h.consumes, h.emitted.close rfl, h.plain⟩

theorem Steps.fit (h : Steps st st' ts new) (hf : st.lexer.Fit E) : st'.lexer.Fit E :=
  hf.consumes h.consumes

theorem Steps.size (h : Steps st st' ts new) (hf : st.lexer.Fit E) :
    st'.lexer.size + ts.length ≤ st.lexer.size := (h.consumes.size hf.usable).2

end

inductive Grouped (name : String) : List Token → Prop
  | plain {t} (hk : t.kind = .ident) (ht : t.text = name) : Grouped name [t]
  | paren {left right ts} (hl : left.kind = .symbol ∧ left.text = "(")
      (hr : right.kind = .symbol ∧ right.text = ")") (h : Grouped name ts) :
      Grouped name (left :: ts ++ [right])

def Fresh (v : Value) : Prop := ∀ name, v = .named name → isLocalName name = true

theorem fresh_temp (st : ParserState) : Fresh (.named st.temp.1) := by
  rintro name h
  obtain rfl := Value.named.inj h
  exact isLocalName_temp st.tmp

theorem fresh_literal (x : Double) : Fresh (.literal x) := by
  intro name h
  cases h

def Parsed (st : ParserState) (r : Value × ParserState) : Prop :=
  ∃ ts new, Steps st r.2 ts new ∧ ts ≠ [] ∧
    ∀ name, r.1 = .named name → isLocalName name = false → new = [] ∧ Grouped name ts

def Looped (left : Value) (st : ParserState) (r : Value × ParserState) : Prop :=
  ∃ ts new, Steps st r.2 ts new ∧ (r.1 = left ∧ ts = [] ∧ new = [] ∨ Fresh r.1)

def Called (st : ParserState) (r : Value × ParserState) : Prop :=
  ∃ ts new, Steps st r.2 ts new ∧ Fresh r.1

structure Throws (E : Exn → Prop) : Prop where
  positioned : Positioned E
  cast : E castUndefined

section Step

variable {E : Exn → Prop} (hE : Throws E)
include hE

theorem format_settles (x : Double) : Settles (format x) (fun _ => True) E := by
  cases x with
  | num q =>
    simp only [format]
    split_ifs
    · cases (Double.num q).toInt 64 with
      | none => exact hE.cast
      | some n => trivial
    · trivial
  | inf s => trivial
  | nan => trivial

theorem makeBinary_settles (a b : Value) (op : BinOp) (st : ParserState) :
    Settles (makeBinary a b op st) (fun r => ∃ new, Steps st r.2 [] new ∧ Fresh r.1) E := by
  have hclose := fun type inputs attrs => (Steps.refl st.temp.2).close type inputs attrs
  cases a with
  | literal x =>
    cases b with
    | literal y => exact ⟨[], .refl st, fresh_literal _⟩
    | named b =>
      refine (format_settles hE x).bind fun text _ => ?_
      exact ⟨_, hclose _ _ _, fresh_temp st⟩
  | named a =>
    cases b with
    | literal y =>
      refine (format_settles hE y).bind fun text _ => ?_
      exact ⟨_, hclose _ _ _, fresh_temp st⟩
    | named b => exact ⟨_, hclose _ _ _, fresh_temp st⟩

theorem materialize_settles (v : Value) (st : ParserState) :
    Settles (materialize v st) (fun r => ∃ new, Steps st r.2 [] new) E := by
  cases v with
  | named name => exact ⟨[], .refl st⟩
  | literal x =>
    refine (format_settles hE x).bind fun text _ => ?_
    exact ⟨_, (Steps.refl st.temp.2).close _ _ _⟩

omit hE in
theorem makeNeg_advances (v : Value) (st : ParserState) :
    ∃ new, Steps st (makeNeg v st).2 [] new ∧ Fresh (makeNeg v st).1 := by
  cases v with
  | literal x => exact ⟨[], .refl st, fresh_literal _⟩
  | named name => exact ⟨_, (Steps.refl st.temp.2).close _ _ _, fresh_temp st⟩

theorem expect_settles {st : ParserState} (hf : st.lexer.Fit E) (symbol what : String) :
    Settles (expect symbol what st) (fun st' => ∃ t lx, t.kind = .symbol ∧ t.text = symbol ∧
      Consumes st.lexer [t] lx ∧ st' = st.withLexer lx) E := by
  refine (expectSymbol_settles hE.positioned hf symbol what).bind fun lx hlx => ?_
  obtain ⟨t, hk, ht, hc⟩ := hlx
  exact ⟨t, lx, hk, ht, hc, rfl⟩

structure Bounded (E : Exn → Prop) (fuel : Nat) : Prop where
  expr : ∀ minPrec st, st.lexer.Fit E → 2 * st.lexer.size + 2 ≤ fuel →
    Settles (parseExpr fuel minPrec st) (Parsed st) E
  loop : ∀ minPrec left st, st.lexer.Fit E → 2 * st.lexer.size + 1 ≤ fuel →
    Settles (exprLoop fuel minPrec left st) (Looped left st) E
  primary : ∀ st, st.lexer.Fit E → 2 * st.lexer.size + 1 ≤ fuel →
    Settles (parsePrimary fuel st) (Parsed st) E
  call : ∀ fn st, st.lexer.Fit E → 2 * st.lexer.size + 3 ≤ fuel →
    Settles (parseCall fuel fn st) (Called st) E

variable {fuel : Nat} {st : ParserState}

omit hE in
theorem Bounded.expr_succ (ih : Bounded E fuel) (minPrec : Nat) (hf : st.lexer.Fit E)
    (hs : 2 * st.lexer.size + 2 ≤ fuel + 1) :
    Settles (parseExpr (fuel + 1) minPrec st) (Parsed st) E := by
  rw [parseExpr]
  refine (ih.primary st hf (by omega)).bind fun r hr => ?_
  obtain ⟨ts, new, hadv, hne, hname⟩ := hr
  have hsize := hadv.size hf
  have hpos := List.length_pos_iff.2 hne
  refine (ih.loop minPrec r.1 r.2 (hadv.fit hf) (by omega)).mono fun r' hr' => ?_
  obtain ⟨ts', new', hadv', hcase⟩ := hr'
  refine ⟨ts ++ ts', new ++ new', hadv.trans hadv', by simp [hne], fun name hn hl => ?_⟩
  rcases hcase with ⟨he, rfl, rfl⟩ | hfresh
  · simpa using hname name (he ▸ hn) hl
  · simp [hfresh name hn] at hl

theorem Bounded.loop_succ (ih : Bounded E fuel) (minPrec : Nat) (left : Value)
    (hf : st.lexer.Fit E) (hs : 2 * st.lexer.size + 1 ≤ fuel + 1) :
    Settles (exprLoop (fuel + 1) minPrec left st) (Looped left st) E := by
  rw [exprLoop]
  refine (peek_settles hf).bind fun r hr => ?_
  obtain ⟨t, lx⟩ := r
  obtain ⟨hpeek, hpeeked⟩ := hr
  have hstop : Looped left st (left, st.withLexer lx) :=
    ⟨[], [], .peek hpeek, .inl ⟨rfl, rfl, rfl⟩⟩
  simp only
  split_ifs with hk
  · split
    · exact hstop
    · rename_i op hop
      have hassigns : ¬ Assigns t := by
        rintro ⟨-, ht⟩
        rw [ht] at hop
        simp [BinOp.ofSymbol] at hop
      split_ifs
      · exact hstop
      · have hn := Ready.next_peeked hpeeked
        rw [Parser.consume]
        simp only [ParserState.withLexer, hn, except_ok_bind]
        have hread : Steps st (st.withLexer { lx with peeked := none }) [t] [] :=
          .read (hpeek.next hn (by simp [hk])) hassigns
        have hsize := hread.size hf
        rw [List.length_singleton] at hsize
        refine (ih.expr _ _ (hread.fit hf) (by omega)).bind fun right hright => ?_
        obtain ⟨ts₁, new₁, hadv₁, hne₁, -⟩ := hright
        have hadv := hread.trans hadv₁
        refine (makeBinary_settles hE left right.1 _ right.2).bind fun v hv => ?_
        obtain ⟨new₂, hadv₂, hfresh⟩ := hv
        have hadv' := hadv.trans hadv₂
        have hsize' := hadv'.size hf
        simp only [List.length_append, List.length_singleton, List.append_nil] at hsize'
        refine (ih.loop minPrec v.1 v.2 (hadv'.fit hf) (by omega)).mono fun r' hr' => ?_
        obtain ⟨ts₃, new₃, hadv₃, hcase⟩ := hr'
        refine ⟨_, _, hadv'.trans hadv₃, .inr ?_⟩
        rcases hcase with ⟨he, -, -⟩ | hfresh'
        · exact he ▸ hfresh
        · exact hfresh'
  · exact hstop

theorem Bounded.primary_succ (ih : Bounded E fuel) (hf : st.lexer.Fit E)
    (hs : 2 * st.lexer.size + 1 ≤ fuel + 1) :
    Settles (parsePrimary (fuel + 1) st) (Parsed st) E := by
  rw [parsePrimary, Parser.consume]
  refine (next_settles hf).bind fun r hr => ?_
  obtain ⟨t, lx⟩ := r
  simp only at hr ⊢
  cases hk : t.kind with
  | eof => exact fail_settles hE.positioned _ _ _
  | number =>
    have hread : Steps st (st.withLexer lx) [t] [] :=
      .read (hr (by simp [hk])) (not_assigns_kind (by simp [hk]))
    exact ⟨[t], [], hread, by simp, fun name h => by cases h⟩
  | ident =>
    have hread : Steps st (st.withLexer lx) [t] [] :=
      .read (hr (by simp [hk])) (not_assigns_kind (by simp [hk]))
    have hsize := hread.size hf
    rw [List.length_singleton] at hsize
    refine (peek_settles (hread.fit hf)).bind fun r' hr' => ?_
    obtain ⟨p, lx'⟩ := r'
    obtain ⟨hpeek, hpeeked⟩ := hr'
    have hread' : Steps st ((st.withLexer lx).withLexer lx') [t] [] :=
      hread.trans (.peek hpeek)
    simp only
    split_ifs with hcall
    · have hn := Ready.next_peeked hpeeked
      have hopen : Steps st ((st.withLexer lx).withLexer { lx' with peeked := none })
          [t, p] [] := hread.trans (.read (hpeek.next hn (by simp [hcall.1]))
            (not_assigns_text hcall.2 (by decide)))
      have hsize' := hopen.size hf
      simp only [List.length_cons, List.length_nil] at hsize'
      rw [Parser.consume]
      simp only [ParserState.withLexer, hn, except_ok_bind]
      refine (ih.call _ _ (hopen.fit hf) (by omega)).mono fun r'' hr'' => ?_
      obtain ⟨ts, new, hadv, hfresh⟩ := hr''
      refine ⟨_, _, hopen.trans hadv, by simp, fun name h hl => ?_⟩
      simp [hfresh name h] at hl
    · refine ⟨[t], [], hread', by simp, fun name h _ => ⟨rfl, .plain hk ?_⟩⟩
      exact Value.named.inj h
  | symbol =>
    have hstep (text : String) (ht : t.text = text) (hne : text ≠ "=") :
        Steps st (st.withLexer lx) [t] [] ∧ (st.withLexer lx).lexer.size + 1 ≤ st.lexer.size := by
      have hread : Steps st (st.withLexer lx) [t] [] :=
        .read (hr (by simp [hk])) (not_assigns_text ht hne)
      exact ⟨hread, hread.size hf⟩
    simp only
    split_ifs with hneg hopen
    · obtain ⟨hread, hsize⟩ := hstep "-" hneg (by decide)
      refine (ih.primary _ (hread.fit hf) (by omega)).bind fun v hv => ?_
      obtain ⟨ts, new, hadv, -, -⟩ := hv
      obtain ⟨new', hadv', hfresh⟩ := makeNeg_advances v.1 v.2
      refine ⟨_, _, (hread.trans hadv).trans hadv', by simp, fun name h hl => ?_⟩
      simp [hfresh name h] at hl
    · obtain ⟨hread, hsize⟩ := hstep "(" hopen (by decide)
      refine (ih.expr 0 _ (hread.fit hf) (by omega)).bind fun v hv => ?_
      obtain ⟨ts, new, hadv, -, hname⟩ := hv
      have hadv' := hread.trans hadv
      refine (expect_settles hE (hadv'.fit hf) _ _).bind fun st' hst => ?_
      obtain ⟨u, lx', huk, hut, hclose, rfl⟩ := hst
      refine ⟨_, _, hadv'.trans (.read hclose (not_assigns_text hut (by decide))), by simp, fun name h hl => ?_⟩
      obtain ⟨rfl, hgrouped⟩ := hname name h hl
      exact ⟨rfl, .paren ⟨hk, hopen⟩ ⟨huk, hut⟩ hgrouped⟩
    · exact fail_settles hE.positioned _ _ _

theorem Bounded.argument (ih : Bounded E fuel) {st₀ : ParserState} {ts₀ : List Token}
    {new₀ : List OpSpec} (h₀ : Steps st₀ st ts₀ new₀) (hf : st₀.lexer.Fit E)
    (hs : 2 * st₀.lexer.size + 2 ≤ fuel) (symbol what : String) (hne : symbol ≠ "=") {β : Type}
    {k : Value × ParserState → ParserState → Except Exn β} {Q : β → Prop}
    (hk : ∀ r st' ts new, Steps st₀ st' ts new → Settles (k r st') Q E) :
    Settles (do
      let r ← parseExpr fuel 0 st
      let st' ← expect symbol what r.2
      k r st') Q E := by
  have hsize := h₀.size hf
  refine (ih.expr 0 st (h₀.fit hf) (by omega)).bind fun r hr => ?_
  obtain ⟨ts, new, hadv, -, -⟩ := hr
  have hadv' := h₀.trans hadv
  refine (expect_settles hE (hadv'.fit hf) symbol what).bind fun st' hst => ?_
  obtain ⟨t, lx, -, ht, hread, rfl⟩ := hst
  exact hk r _ _ _ (hadv'.trans (.read hread (not_assigns_text ht hne)))

theorem materialize_then {st₀ : ParserState} {ts₀ : List Token} {new₀ : List OpSpec}
    (h₀ : Steps st₀ st ts₀ new₀) (v : Value) {β : Type}
    {k : String × ParserState → Except Exn β} {Q : β → Prop}
    (hk : ∀ r ts new, Steps st₀ r.2 ts new → Settles (k r) Q E) :
    Settles (materialize v st >>= k) Q E := by
  refine (materialize_settles hE v st).bind fun r hr => ?_
  obtain ⟨new, hadv⟩ := hr
  exact hk r _ _ (h₀.trans hadv)

theorem Bounded.call_succ (ih : Bounded E fuel) (fn : String) (hf : st.lexer.Fit E)
    (hs : 2 * st.lexer.size + 3 ≤ fuel + 1) :
    Settles (parseCall (fuel + 1) fn st) (Called st) E := by
  have hclose {st' : ParserState} {ts : List Token} {new : List OpSpec}
      (h : Steps st.temp.2 st' ts new) (type : String) (inputs : List String)
      (attrs : List (String × String)) :
      Called st (.named st.temp.1, st'.emit ⟨type, inputs, [st.temp.1], attrs⟩) :=
    ⟨_, _, h.close type inputs attrs, fresh_temp st⟩
  have hstart := Steps.refl st.temp.2
  have hs' : 2 * st.temp.2.lexer.size + 2 ≤ fuel := by
    change 2 * st.lexer.size + 2 ≤ fuel
    omega
  rw [parseCall]
  simp only
  split_ifs
  · refine ih.argument hE hstart hf hs' _ _ (by decide) fun mask st₁ _ _ h₁ => ?_
    refine ih.argument hE h₁ hf hs' _ _ (by decide) fun a st₂ _ _ h₂ => ?_
    refine ih.argument hE h₂ hf hs' _ _ (by decide) fun b st₃ _ _ h₃ => ?_
    refine materialize_then hE h₃ _ fun mask' _ _ h₄ => ?_
    refine materialize_then hE h₄ _ fun a' _ _ h₅ => ?_
    refine materialize_then hE h₅ _ fun b' _ _ h₆ => ?_
    exact hclose h₆ _ _ _
  · refine ih.argument hE hstart hf hs' _ _ (by decide) fun a st₁ _ _ h₁ => ?_
    refine ih.argument hE h₁ hf hs' _ _ (by decide) fun b st₂ _ _ h₂ => ?_
    refine materialize_then hE h₂ _ fun a' _ _ h₃ => ?_
    refine materialize_then hE h₃ _ fun b' _ _ h₄ => ?_
    exact hclose h₄ _ _ _
  · refine ih.argument hE hstart hf hs' _ _ (by decide) fun a st₁ _ _ h₁ => ?_
    refine (next_settles (h₁.fit hf)).bind fun r hr => ?_
    split_ifs with hk
    · exact fail_settles hE.positioned _ _ _
    · have h₂ := h₁.trans (.read (hr (by simp [not_not.1 hk]))
        (not_assigns_kind (by simp [not_not.1 hk])))
      refine (expect_settles hE (h₂.fit hf) _ _).bind fun st₃ hst => ?_
      obtain ⟨t, lx, -, ht, hread, rfl⟩ := hst
      have h₃ := h₂.trans (.read hread (not_assigns_text ht (by decide)))
      refine materialize_then hE h₃ _ fun a' _ _ h₄ => ?_
      exact hclose h₄ _ _ _
  · refine ih.argument hE hstart hf hs' _ _ (by decide) fun a st₁ _ _ h₁ => ?_
    refine materialize_then hE h₁ _ fun a' _ _ h₂ => ?_
    exact hclose h₂ _ _ _
  · exact fail_settles hE.positioned _ _ _

theorem bounded (fuel : Nat) : Bounded E fuel := by
  induction fuel with
  | zero =>
    refine ⟨fun _ _ _ h => ?_, fun _ _ _ _ h => ?_, fun _ _ h => ?_, fun _ _ _ h => ?_⟩
    all_goals omega
  | succ fuel ih =>
    exact ⟨fun p _ hf hs => ih.expr_succ p hf hs, fun p v _ hf hs => ih.loop_succ hE p v hf hs,
      fun _ hf hs => ih.primary_succ hE hf hs, fun fn _ hf hs => ih.call_succ hE fn hf hs⟩

end Step

structure Numbered (ops : List OpSpec) (tmp : Nat) : Prop where
  single : ∀ op ∈ ops, ∃ c, op.outputs = [c]
  temps : ((ops.flatMap (·.outputs)).filter isLocalName).Perm ((List.range tmp).map tempName)

theorem numbered_nil : Numbered [] 0 := ⟨by simp, by simp⟩

theorem Emitted.numbered {ops new : List OpSpec} {tmp : Nat} {st : ParserState}
    (h : Emitted ops tmp st new) (hn : Numbered ops tmp) : Numbered st.ops st.tmp where
  single := by
    intro op hop
    rw [h.ops_eq, List.mem_append] at hop
    rcases hop with hop | hop
    · exact hn.single op hop
    · obtain ⟨k, -, hk⟩ := List.mem_map.1 (h.outputs.mem_iff.1 (List.mem_map_of_mem hop))
      exact ⟨tempName k, hk.symm⟩
  temps := by
    have hflat : (new.flatMap (·.outputs)).Perm ((List.range' tmp new.length).map tempName) := by
      have hperm := h.outputs.flatten
      rwa [← List.flatMap_def, ← List.flatMap_def, ← List.map_eq_flatMap] at hperm
    have hlocal : ((new.flatMap (·.outputs)).filter isLocalName).Perm
        ((List.range' tmp new.length).map tempName) := by
      rw [List.filter_eq_self.2]
      · exact hflat
      · intro c hc
        obtain ⟨k, -, rfl⟩ := List.mem_map.1 (hflat.mem_iff.1 hc)
        exact isLocalName_temp k
    have hrange : List.range st.tmp = List.range tmp ++ List.range' tmp new.length := by
      rw [h.tmp_eq, List.range_eq_range', List.range_eq_range', ← List.range'_append_1,
        Nat.zero_add]
    rw [h.ops_eq, List.flatMap_append, List.filter_append, hrange, List.map_append]
    exact hn.temps.append hlocal

theorem Numbered.emit {ops : List OpSpec} {tmp : Nat} (h : Numbered ops tmp) {spec : OpSpec}
    {lhs : String} (ho : spec.outputs = [lhs]) (hl : isLocalName lhs = false) :
    Numbered (ops ++ [spec]) tmp where
  single := by
    intro op hop
    rcases List.mem_append.1 hop with hop | hop
    · exact h.single op hop
    · exact ⟨lhs, List.mem_singleton.1 hop ▸ ho⟩
  temps := by simpa [ho, hl] using h.temps

structure Assignment where
  target : Token
  equals : Token
  expr : List Token
  ops : List OpSpec

namespace Assignment

def toks (a : Assignment) : List Token := a.target :: a.equals :: a.expr

def SelfAssigned (a : Assignment) : Prop := a.ops = [] ∧ Grouped a.target.text a.expr

def WritesLast (a : Assignment) : Prop := ∃ op ∈ a.ops.getLast?, op.outputs = [a.target.text]

structure Ok (a : Assignment) : Prop where
  target : a.target.kind = .ident
  equals : Assigns a.equals
  expr : ∀ t ∈ a.expr, ¬ Assigns t
  effect : a.SelfAssigned ∨ a.WritesLast

end Assignment

section Statement

variable {E : Exn → Prop} (hE : Throws E) {fuel : Nat} {st : ParserState}
include hE

theorem assign_settles {lhs : String} {r : Value × ParserState} {ts : List Token}
    {new : List OpSpec} (hl : isLocalName lhs = false) (hadv : Steps st r.2 ts new)
    (hname : ∀ name, r.1 = .named name → isLocalName name = false → new = [] ∧ Grouped name ts)
    (hn : Numbered st.ops st.tmp) :
    Settles (assign lhs r.1 r.2) (fun st' => st'.lexer = r.2.lexer ∧ Numbered st'.ops st'.tmp ∧
      ∃ ops, st'.ops = st.ops ++ ops ∧ (ops = [] ∧ Grouped lhs ts ∨
        ∃ op ∈ ops.getLast?, op.outputs = [lhs])) E := by
  have hn' := hadv.emitted.numbered hn
  have hwrite (spec : OpSpec) (ho : spec.outputs = [lhs]) :
      Numbered (r.2.emit spec).ops (r.2.emit spec).tmp ∧ ∃ ops, (r.2.emit spec).ops =
        st.ops ++ ops ∧ (ops = [] ∧ Grouped lhs ts ∨ ∃ op ∈ ops.getLast?, op.outputs = [lhs]) := by
    refine ⟨hn'.emit ho hl, new ++ [spec], ?_, .inr ⟨spec, by simp, ho⟩⟩
    rw [ParserState.emit, hadv.emitted.ops_eq, List.append_assoc]
  obtain ⟨v, st'⟩ := r
  cases v with
  | literal x =>
    refine (format_settles hE x).bind fun text _ => ?_
    exact ⟨rfl, hwrite _ rfl⟩
  | named name =>
    simp only [assign]
    split_ifs with he
    · subst he
      obtain ⟨rfl, hgrouped⟩ := hname name rfl hl
      exact ⟨rfl, hn', [], by simpa using hadv.emitted.ops_eq, .inl ⟨rfl, hgrouped⟩⟩
    · exact ⟨rfl, hwrite _ rfl⟩

structure Executes (st st' : ParserState) (a : Assignment) : Prop where
  consumes : Consumes st.lexer a.toks st'.lexer
  ops_eq : st'.ops = st.ops ++ a.ops
  numbered : Numbered st'.ops st'.tmp
  ok : a.Ok

theorem parseStatement_settles (hf : st.lexer.Fit E) (hs : 2 * st.lexer.size ≤ fuel)
    (hl : LexerOk st.lexer) (hn : Numbered st.ops st.tmp) :
    Settles (parseStatement fuel st) (fun st' => ∃ a, Executes st st' a) E := by
  unfold parseStatement
  rw [Parser.consume]
  refine ((next_settles hf).and_gives (next_ok hl)).bind fun r hr => ?_
  obtain ⟨t, lx⟩ := r
  obtain ⟨hread, htoken, -⟩ := hr
  simp only at hread htoken ⊢
  split_ifs with hk
  · exact fail_settles hE.positioned _ _ _
  · rw [not_not] at hk
    have h₁ : Consumes st.lexer [t] lx := hread (by simp [hk])
    refine (expect_settles hE (hf.consumes h₁) _ _).bind fun st₂ hst => ?_
    obtain ⟨u, lx₂, huk, hut, h₂, rfl⟩ := hst
    have h₁₂ : Consumes st.lexer [t, u] lx₂ := h₁.trans h₂
    have hsize := (h₁₂.size hf.usable).2
    simp only [List.length_cons, List.length_nil] at hsize
    have hsize₂ : ((st.withLexer lx).withLexer lx₂).lexer.size = lx₂.size := rfl
    refine ((bounded hE fuel).expr 0 _ (hf.consumes h₁₂) (by omega)).bind fun r hr => ?_
    obtain ⟨ts, new, hadv, -, hname⟩ := hr
    refine (assign_settles hE (htoken hk) hadv hname hn).mono fun st' hst' => ?_
    obtain ⟨hlexer, hnum, ops, hops, heffect⟩ := hst'
    refine ⟨⟨t, u, ts, ops⟩, ?_, hops, hnum, hk, ⟨huk, hut⟩, hadv.plain, heffect⟩
    rw [hlexer]
    exact h₁₂.trans hadv.consumes

structure Program (lx : Lexer) (ops₀ ops : List OpSpec) (tmp : Nat) (as : List Assignment) :
    Prop where
  lexes : ∃ eof, Lexes lx (as.flatMap Assignment.toks ++ [eof])
  ops_eq : ops = ops₀ ++ as.flatMap (·.ops)
  numbered : Numbered ops tmp
  ok : ∀ a ∈ as, a.Ok

theorem parseStatements_settles (hf : st.lexer.Fit E) (hs : 2 * st.lexer.size + 1 ≤ fuel)
    (hg : Good st) (hn : Numbered st.ops st.tmp) :
    Settles (parseStatements fuel st) (fun ops => ∃ tmp as, Program st.lexer st.ops ops tmp as)
      E := by
  induction fuel generalizing st with
  | zero => omega
  | succ fuel ih =>
    rw [parseStatements]
    have hend : Gives (Parser.atEnd st.lexer) fun r => LexerOk r.2 :=
      (peek_ok hg.lexer).bind fun r hr => Gives.ok hr.2
    refine ((atEnd_settles hf).and_gives hend).bind fun r hr => ?_
    obtain ⟨atEnd, lx⟩ := r
    obtain ⟨⟨hpeek, t, hpeeked, rfl⟩, hlexer⟩ := hr
    have h₁ : Steps st (st.withLexer lx) [] [] := .peek hpeek
    have hg₁ : Good (st.withLexer lx) := hg.withLexer hlexer
    have hsize := h₁.size hf
    rw [List.length_nil] at hsize
    simp only [decide_eq_true_eq]
    split_ifs with hk
    · refine ⟨st.tmp, [], ⟨t, ?_⟩, by simp [ParserState.withLexer], hn, by simp⟩
      exact hpeek.lexes (.eof (Ready.next_peeked hpeeked) hk)
    · refine ((parseStatement_settles hE (h₁.fit hf) (by omega) hlexer hn).and_gives
        (parseStatement_good fuel hg₁)).bind fun st₂ hst => ?_
      obtain ⟨⟨a, hexec⟩, hg₂⟩ := hst
      have hcons := h₁.consumes.trans hexec.consumes
      have hsize₂ := (hcons.size hf.usable).2
      simp only [List.nil_append, Assignment.toks, List.length_cons] at hsize₂
      refine (ih (hf.consumes hcons) (by omega) hg₂ hexec.numbered).mono fun ops hops => ?_
      obtain ⟨tmp, as, ⟨eof, hlexes⟩, hops, hnum, hok⟩ := hops
      refine ⟨tmp, a :: as, ⟨eof, ?_⟩, ?_, hnum, ?_⟩
      · simpa using hcons.lexes hlexes
      · rw [hops, hexec.ops_eq]
        simp [ParserState.withLexer]
      · simpa using ⟨hexec.ok, hok⟩

end Statement

def start (source : String) : Lexer := .make source exprSymbols exprMulti

theorem usable_start (source : String) : (start source).Usable :=
  (usable_make source (by decide)).1

theorem size_start (source : String) : (start source).size = source.toList.length := by
  simp [start, Lexer.make, Lexer.size, Cursor.start]

theorem good_start (source : String) : Good ⟨start source, [], 0⟩ :=
  ⟨opsOk_nil, by simp [LexerOk, start, Lexer.make]⟩

theorem fuel_start (source : String) : 2 * (start source).size + 1 ≤ parseFuel source := by
  rw [size_start, parseFuel]
  omega

theorem parse_settles {E : Exn → Prop} (hE : Throws E) (source : String)
    (hf : (start source).Fit E) :
    Settles (parse source) (fun ops => ∃ tmp as, Program (start source) [] ops tmp as) E :=
  @parseStatements_settles E hE _ ⟨start source, [], 0⟩ hf (fuel_start source)
    (good_start source) numbered_nil

theorem parse_program_of_ok {source : String} {ops : List OpSpec} (h : parse source = .ok ops) :
    ∃ tmp as, Program (start source) [] ops tmp as := by
  have hall : (start source).Fit fun _ => True := ⟨usable_start source, fun _ _ _ _ _ => trivial⟩
  have hspec := parse_settles ⟨fun _ _ _ => trivial, trivial⟩ source hall
  rwa [h] at hspec

structure SingleAssignment (source : String) (ops : List OpSpec) : Prop where
  single : ∀ op ∈ ops, ∃ c, op.outputs = [c]
  written : ((ops.flatMap (·.outputs)).filter isLocalName).Nodup
  read : ∀ pre op post, ops = pre ++ op :: post → ∀ c ∈ op.inputs, isLocalName c = true →
    (∃ writer ∈ pre, c ∈ writer.outputs) ∧ (ops.filter (c ∈ ·.outputs)).length = 1
  statements : ∃ (as : List Assignment) (eof : Token),
    Lexes (start source) (as.flatMap Assignment.toks ++ [eof]) ∧
      ops = as.flatMap (·.ops) ∧ ∀ a ∈ as, a.Ok

theorem Numbered.nodup {ops : List OpSpec} {tmp : Nat} (h : Numbered ops tmp) :
    ((ops.flatMap (·.outputs)).filter isLocalName).Nodup :=
  h.temps.nodup_iff.2 (List.nodup_range.map fun _ _ => tempName_inj)

theorem writers_le (ops : List OpSpec) (c : String) :
    (ops.filter (c ∈ ·.outputs)).length ≤ (ops.flatMap (·.outputs)).count c := by
  induction ops with
  | nil => simp
  | cons op ops ih =>
    rw [List.flatMap_cons, List.count_append, List.filter_cons]
    split_ifs with hc
    · have hpos : 0 < op.outputs.count c := List.count_pos_iff.2 (by simpa using hc)
      rw [List.length_cons]
      omega
    · omega

theorem parse_single_assignment {source : String} {ops : List OpSpec}
    (h : parse source = .ok ops) : SingleAssignment source ops := by
  obtain ⟨tmp, as, ⟨eof, hlexes⟩, hops, hnum, hok⟩ := parse_program_of_ok h
  refine ⟨hnum.single, hnum.nodup, ?_, as, eof, hlexes, by simpa using hops, hok⟩
  intro pre op post hsplit c hc hlocal
  obtain hcol | ⟨-, writer, hw, hcw⟩ := (parse_ok source ops h pre op post hsplit).inputs c hc
  · simp [hcol] at hlocal
  · refine ⟨⟨writer, hw, hcw⟩, le_antisymm ?_ ?_⟩
    · refine (writers_le ops c).trans ?_
      rw [← List.count_filter hlocal]
      exact List.nodup_iff_count_le_one.1 hnum.nodup c
    · refine List.length_pos_of_mem (List.mem_filter.2 ⟨?_, by simpa using hcw⟩)
      rw [hsplit]
      exact List.mem_append_left _ hw

theorem parse_single_assignment_select : ∃ ops,
    parse " y = select ( a > b , ( a ) , - b ) x = ( x )" = .ok ops ∧
      ops.map (·.outputs) = [["@t1"], ["@t2"], ["@t0"], ["y"]] ∧
      SingleAssignment " y = select ( a > b , ( a ) , - b ) x = ( x )" ops := by
  let prog : List Statement :=
    [⟨['y'], .select (.bin (.cmp .gt) (.col ['a']) (.col ['b'])) (.paren (.col ['a']))
      (.neg (.col ['b']))⟩, ⟨['x'], .paren (.col ['x'])⟩]
  have hletter (c : Char) (hc : Lexer.isIdentStart c = true) : (Term.col [c]).WellFormed :=
    isIdent_letter hc
  have hwf : ∀ s ∈ prog, s.WellFormed := by
    have hcmp : (Term.bin (.cmp .gt) (.col ['a']) (.col ['b'])).WellFormed :=
      ⟨hletter 'a' rfl, hletter 'b' rfl, by decide, by decide⟩
    simp only [prog, List.forall_mem_cons]
    refine ⟨⟨isIdent_letter rfl, hcmp, hletter 'a' rfl, hletter 'b' rfl, rfl⟩,
      ⟨isIdent_letter rfl, hletter 'x' rfl⟩, by simp⟩
  have hparse := parse_program (rendersProgram_text prog) hwf (start "")
  exact ⟨_, hparse, rfl, parse_single_assignment hparse⟩

end Lark.Column.Biz.Dsl
