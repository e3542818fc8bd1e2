import Lark.Column.Biz.DslTemps
import Lark.Dag.OpGraphBuilder

namespace Lark.Dag.OpGraphBuilder

open Lark.Base Lark.Toolkit.Dsl

def startArrow (dsl : String) : Lexer := .make dsl arrowSymbols arrowMulti

def parseDefs (dsl : String) : Except Exn Defs :=
  statements (dsl.length + 1) .empty (startArrow dsl)

def twoTypes (id : String) : Exn :=
  .invalidArgument ("OpGraphBuilder DSL: node id '" ++ id ++ "' used with two different types")

structure Throws (E : Exn → Prop) : Prop where
  positioned : Positioned E
  twoTypes : ∀ id, E (twoTypes id)

def Defs.Indexed (d : Defs) : Prop := ∀ id slot, d.index id = some slot → slot < d.defs.length

section

variable {E : Exn → Prop} (hE : Throws E) {lx : Lexer} {d : Defs} {fuel : Nat}
include hE

theorem ensure_settles (hd : d.Indexed) (id type : String) :
    Settles (d.ensure id type) (fun r => r.2.Indexed) E := by
  unfold Defs.ensure
  cases hid : d.index id with
  | some slot =>
    have hlt := hd id slot hid
    simp only [List.getElem?_eq_getElem hlt]
    split_ifs
    · exact hE.twoTypes id
    · exact hd
  | none =>
    intro id' slot hslot
    rw [List.length_append, List.length_singleton]
    rcases eq_or_ne id' id with rfl | hne
    · have : d.defs.length = slot := by simpa using hslot
      omega
    · have := hd id' slot (by simpa [hne] using hslot)
      omega

omit hE in
theorem indexed_addDep (hd : d.Indexed) (slot : Nat) (prev : String) :
    (d.addDep slot prev).Indexed := by
  intro id slot' hslot
  simpa [Defs.addDep] using hd id slot' hslot

theorem segment_settles (hf : lx.Fit E) :
    Settles (segment lx) (fun r => ∃ ts, Consumes lx ts r.2 ∧ ts ≠ []) E := by
  unfold segment
  refine (expectToken_settles hE.positioned hf (by decide) _).bind fun r hr => ?_
  refine (matchSymbol_settles (hf.consumes hr.2) ":").bind fun r' hr' => ?_
  obtain ⟨typed, lx'⟩ := r'
  obtain ⟨ts, hts, -⟩ := hr'
  have hread := hr.2.trans hts
  simp only
  split_ifs
  · refine (expectToken_settles hE.positioned (hf.consumes hread) (by decide) _).bind fun r'' hr'' => ?_
    exact ⟨_, hread.trans hr''.2, by simp⟩
  · exact ⟨_, hread, by simp⟩

theorem chain_settles (prev : String) (hf : lx.Fit E) (hd : d.Indexed) (hs : lx.size < fuel) :
    Settles (chain fuel prev d lx) (fun r => r.1.Indexed ∧ ∃ ts, Consumes lx ts r.2) E := by
  induction fuel generalizing prev d lx with
  | zero => omega
  | succ fuel ih =>
    rw [chain]
    refine (matchSymbol_settles hf "->").bind fun r hr => ?_
    obtain ⟨arrow, lx'⟩ := r
    obtain ⟨ts, hts, harrow⟩ := hr
    simp only
    split_ifs with ha
    · refine (segment_settles hE (hf.consumes hts)).bind fun r' hr' => ?_
      obtain ⟨ts', hts', -⟩ := hr'
      have hread := hts.trans hts'
      have hsize := (hread.size hf.usable).2
      have hpos := List.length_pos_iff.2 (harrow ha)
      rw [List.length_append] at hsize
      refine (ensure_settles hE hd _ _).bind fun slot hslot => ?_
      refine (ih _ (hf.consumes hread) (indexed_addDep hslot _ _) (by omega)).mono fun r'' hr'' => ?_
      obtain ⟨hd', us, hus⟩ := hr''
      exact ⟨hd', _, hread.trans hus⟩
    · exact ⟨hd, ts, hts⟩

theorem statements_settles (hf : lx.Fit E) (hd : d.Indexed) (hs : lx.size < fuel) :
    Settles (statements fuel d lx) (fun _ => True) E := by
  induction fuel generalizing d lx with
  | zero => omega
  | succ fuel ih =>
    rw [statements]
    refine (atEnd_settles hf).bind fun r hr => ?_
    obtain ⟨done, lx'⟩ := r
    simp only
    split_ifs
    · trivial
    · refine (segment_settles hE (hf.consumes hr.1)).bind fun r' hr' => ?_
      obtain ⟨ts, hts, hne⟩ := hr'
      have hread := hr.1.trans hts
      have hsize := (hread.size hf.usable).2
      have hpos := List.length_pos_iff.2 hne
      rw [List.nil_append] at hsize
      refine (ensure_settles hE hd _ _).bind fun slot hslot => ?_
      refine (chain_settles hE _ (hf.consumes hread) hslot (by omega)).bind fun r'' hr'' => ?_
      obtain ⟨hd', us, hus⟩ := hr''
      have hread' := hread.trans hus
      refine (matchSymbol_settles (hf.consumes hread') ";").bind fun q hq => ?_
      obtain ⟨vs, hvs, -⟩ := hq
      have hread'' := hread'.trans hvs
      have hsize' := (hread''.size hf.usable).2
      simp only [List.length_append, List.nil_append] at hsize'
      exact ih (hf.consumes hread'') hd' (by omega)

end

theorem usable_startArrow (dsl : String) : (startArrow dsl).Usable :=
  (usable_make dsl (by decide)).1

theorem parseDefs_settles {E : Exn → Prop} (hE : Throws E) (dsl : String)
    (hf : (startArrow dsl).Fit E) : Settles (parseDefs dsl) (fun _ => True) E := by
  refine statements_settles hE hf ?_ ?_
  · intro id slot h
    cases h
  · simp [startArrow, Lexer.make, Lexer.size, Cursor.start, String.length_toList]

section

open Column Column.Biz.Dsl

variable (source : String)

theorem parse_outcome : Settles (parse source) (fun _ => True)
    fun e => LexError (start source) e ∨ e = castUndefined := by
  have hE : Biz.Dsl.Throws fun e => LexError (start source) e ∨ e = castUndefined :=
    ⟨fun what line col => .inl (.positioned what line col), .inr rfl⟩
  have hfit := fit_lexError (usable_start source) rfl
  have hspec := parse_settles hE source (hfit.mono fun e he => .inl he)
  exact hspec.mono fun _ _ => trivial

theorem parseDefs_outcome : Settles (parseDefs source) (fun _ => True)
    fun e => LexError (startArrow source) e ∨ ∃ id, e = twoTypes id := by
  have hE : Throws fun e => LexError (startArrow source) e ∨ ∃ id, e = twoTypes id :=
    ⟨fun what line col => .inl (.positioned what line col), fun id => .inr ⟨id, rfl⟩⟩
  have hfit := fit_lexError (usable_startArrow source) rfl
  exact parseDefs_settles hE source (hfit.mono fun e he => .inl he)

theorem dsl_errors :
    (parse source ≠ .error .fuel ∧ parseDefs source ≠ .error .fuel) ∧
      (¬ Overflows (start source) → (∃ ops, parse source = .ok ops) ∨
        (∃ what line col, parse source = .error (.dslError what line col)) ∨
        parse source = .error castUndefined) ∧
      (¬ Overflows (startArrow source) → (∃ d, parseDefs source = .ok d) ∨
        (∃ what line col, parseDefs source = .error (.dslError what line col)) ∨
        ∃ id, parseDefs source = .error (twoTypes id)) := by
  have hparse := parse_outcome source
  have hdefs := parseDefs_outcome source
  refine ⟨⟨fun he => ?_, fun he => ?_⟩, fun hno => ?_, fun hno => ?_⟩
  · rw [he] at hparse
    rcases hparse with h | h <;> cases h
  · rw [he] at hdefs
    rcases hdefs with h | ⟨id, h⟩ <;> cases h
  · cases hr : parse source with
    | ok ops => exact .inl ⟨ops, rfl⟩
    | error e =>
      rw [hr] at hparse
      rcases hparse with h | rfl
      · cases h with
        | positioned what line col => exact .inr (.inl ⟨what, line, col, rfl⟩)
        | overflow ho => exact absurd ho hno
      · exact .inr (.inr rfl)
  · cases hr : parseDefs source with
    | ok d => exact .inl ⟨d, rfl⟩
    | error e =>
      rw [hr] at hdefs
      rcases hdefs with h | ⟨id, rfl⟩
      · cases h with
        | positioned what line col => exact .inr (.inl ⟨what, line, col, rfl⟩)
        | overflow ho => exact absurd ho hno
      · exact .inr (.inr ⟨id, rfl⟩)

theorem dsl_errors_plain : (∃ ops, parse "y = (x" = .ok ops) ∨
    (∃ what line col, parse "y = (x" = .error (.dslError what line col)) ∨
      parse "y = (x" = .error castUndefined := by
  have hdigits : ("y = (x".toList.all fun c => !c.isDigit) = true := rfl
  refine (dsl_errors "y = (x").2.1 (not_overflows rfl fun c hc => ?_)
  simpa using List.all_eq_true.mp hdigits c hc

theorem dsl_errors_two_types : ¬ ∀ source : String,
    ((∃ ops, parse source = .ok ops) ∨
      ∃ what line col, parse source = .error (.dslError what line col)) ∧
    ((∃ d, parseDefs source = .ok d) ∨
      ∃ what line col, parseDefs source = .error (.dslError what line col)) := by
  intro h
  have hthrown : parseDefs "a:X a:Y" = .error (twoTypes "a") := rfl
  rcases (h "a:X a:Y").2 with ⟨d, hd⟩ | ⟨what, line, col, he⟩
  · cases hthrown.symm.trans hd
  · cases hthrown.symm.trans he

end

end Lark.Dag.OpGraphBuilder
