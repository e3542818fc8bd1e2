import Lark.Column.Biz.DslCorrect

namespace Lark.Column.Biz

open Lark.Base Lark.Toolkit.Dsl Lark.Column.Exec Lark.Column.Biz.Dsl

namespace Ops

def doubleToString : Double → String
  | .num q => fixedToString q
  | .inf s => if s then "-inf" else "inf"
  | .nan => "nan"

def scalarSpec (type out a : String) (v : Double) : OpSpec :=
  ⟨type, [a], [out], [("scalar", doubleToString v)]⟩

def addScalar : String → String → Double → OpSpec := scalarSpec "add_scalar"

def subScalar : String → String → Double → OpSpec := scalarSpec "sub_scalar"

def mulScalar : String → String → Double → OpSpec := scalarSpec "mul_scalar"

def divScalar : String → String → Double → OpSpec := scalarSpec "div_scalar"

def gtScalar : String → String → Double → OpSpec := scalarSpec "gt_scalar"

def geScalar : String → String → Double → OpSpec := scalarSpec "ge_scalar"

def ltScalar : String → String → Double → OpSpec := scalarSpec "lt_scalar"

def leScalar : String → String → Double → OpSpec := scalarSpec "le_scalar"

def eqScalar : String → String → Double → OpSpec := scalarSpec "eq_scalar"

def neqScalar : String → String → Double → OpSpec := scalarSpec "neq_scalar"

def constant (out : String) (value : Double) : OpSpec :=
  ⟨"const", [], [out], [("value", doubleToString value), ("size", "1")]⟩

def scalarBuilder : BinOp → String → String → Double → OpSpec
  | .arith .add => addScalar
  | .arith .sub => subScalar
  | .arith .mul => mulScalar
  | .arith .div => divScalar
  | .cmp .gt => gtScalar
  | .cmp .ge => geScalar
  | .cmp .lt => ltScalar
  | .cmp .le => leScalar
  | .cmp .eq => eqScalar
  | .cmp .neq => neqScalar

theorem scalarBuilder_eq (op : BinOp) (out a : String) (v : Double) :
    scalarBuilder op out a v =
      ⟨op.baseName ++ "_scalar", [a], [out], [("scalar", doubleToString v)]⟩ := by
  rcases op with op | op <;> cases op <;> rfl

end Ops

def ScalarDecoded (spec : OpSpec) (op : BinOp) (v : Double) : Prop :=
  ∃ o, createOp spec = .ok o ∧ o.kernel = op.scalarKernel v

def ConstDecoded (spec : OpSpec) (v : Double) : Prop :=
  ∃ o text, createOp spec = .ok o ∧ o.kernel = .const text "float64" "1" ∧ stod text = .ok v

structure DslSurvives (v : Double) : Prop where
  right : ∀ (op : BinOp) (a : String) (st : ParserState), ∃ spec,
    makeBinary (.named a) (.literal v) op st = .ok (.named st.temp.1, st.temp.2.emit spec) ∧
      ScalarDecoded spec op v
  left : ∀ (op : BinOp) (b : String) (st : ParserState), ∃ spec,
    makeBinary (.literal v) (.named b) op st = .ok (.named st.temp.1, st.temp.2.emit spec) ∧
      ScalarDecoded spec op v
  assigned : ∀ (lhs : String) (st : ParserState), ∃ spec,
    assign lhs (.literal v) st = .ok (st.emit spec) ∧ ConstDecoded spec v
  argument : ∀ st : ParserState, ∃ spec,
    materialize (.literal v) st = .ok (st.temp.1, st.temp.2.emit spec) ∧ ConstDecoded spec v

structure BuilderSurvives (v : Double) : Prop where
  scalar : ∀ (op : BinOp) (out a : String), ScalarDecoded (Ops.scalarBuilder op out a v) op v
  constant : ∀ out : String, ConstDecoded (Ops.constant out v) v

theorem scalarDecoded_iff (op : BinOp) (a out : String) (v : Double) (text : String) :
    ScalarDecoded ⟨op.baseName ++ "_scalar", [a], [out], [("scalar", text)]⟩ op v ↔
      stod text = .ok v := by
  have hinj {x y : Double} (h : op.scalarKernel x = op.scalarKernel y) : x = y := by
    rcases op with op | op
    · exact (Kernel.scalarArith.inj h).2
    · exact (Kernel.compareScalar.inj h).2
  constructor
  · rintro ⟨o, ho, hk⟩
    rw [createOp_scalar_eq] at ho
    cases hs : stod text with
    | error e => simp [hs, Except.map] at ho
    | ok w =>
      rw [hs] at ho
      obtain rfl := Except.ok.inj ho
      rw [hinj hk]
  · intro h
    exact ⟨_, createOp_scalar op [a] [out] h, rfl⟩

theorem constDecoded_iff (out : String) (v : Double) (text : String) :
    ConstDecoded ⟨"const", [], [out], [("value", text), ("size", "1")]⟩ v ↔
      stod text = .ok v := by
  constructor
  · rintro ⟨o, text', ho, hk, hs⟩
    obtain rfl := Except.ok.inj ho
    obtain ⟨rfl, -⟩ := Kernel.const.inj hk
    exact hs
  · intro h
    exact ⟨_, text, rfl, rfl, h⟩

theorem builderSurvives_iff (v : Double) :
    BuilderSurvives v ↔ stod (Ops.doubleToString v) = .ok v := by
  constructor
  · intro h
    exact (constDecoded_iff "" v _).mp (h.constant "")
  · intro h
    refine ⟨?_, ?_⟩
    · intro op out a
      rw [Ops.scalarBuilder_eq]
      exact (scalarDecoded_iff op a out v _).mpr h
    · intro out
      exact (constDecoded_iff out v _).mpr h

theorem dslSurvives_iff (v : Double) :
    DslSurvives v ↔ ∃ text, format v = .ok text ∧ stod text = .ok v := by
  constructor
  · intro h
    obtain ⟨spec, hassign, hdec⟩ := h.assigned "" ⟨.make "" [] [], [], 0⟩
    cases hf : format v with
    | error e => simp [assign, hf] at hassign
    | ok text =>
      have hspec : spec = ⟨"const", [], [""], [("value", text), ("size", "1")]⟩ := by
        simpa [assign, hf, ParserState.emit] using hassign.symm
      rw [hspec, constDecoded_iff] at hdec
      exact ⟨text, rfl, hdec⟩
  · rintro ⟨text, hf, hs⟩
    refine ⟨?_, ?_, ?_, ?_⟩
    · intro op a st
      refine ⟨_, ?_, (scalarDecoded_iff op a st.temp.1 v text).mpr hs⟩
      simp [makeBinary, hf]
    · intro op b st
      refine ⟨_, ?_, (scalarDecoded_iff op b st.temp.1 v text).mpr hs⟩
      simp [makeBinary, hf]
    · intro lhs st
      refine ⟨_, ?_, (constDecoded_iff lhs v text).mpr hs⟩
      simp [assign, hf]
    · intro st
      refine ⟨_, ?_, (constDecoded_iff st.temp.1 v text).mpr hs⟩
      simp [materialize, hf]

section

variable {v : ℚ}

theorem stod_fixed_iff (h : |v| < 2 ^ 63) :
    stod (fixedToString v) = .ok (.num v) ↔ (v * 10 ^ 6).den = 1 := by
  rw [stod_fixedToString (inDoubleRange_fixedValue h.le), ← fixedValue_eq_iff]
  simp

theorem stod_format_iff (h : |v| < 2 ^ 63) :
    (∃ text, format (.num v) = .ok text ∧ stod text = .ok (.num v)) ↔ (v * 10 ^ 6).den = 1 := by
  by_cases hfloor : (⌊v⌋ : ℚ) = v
  · obtain ⟨n, rfl⟩ : ∃ n : Int, (n : ℚ) = v := ⟨_, hfloor⟩
    have habs : |n| < 2 ^ 63 := by exact_mod_cast h
    obtain ⟨hlo, hhi⟩ := abs_lt.mp habs
    have hden : ((n : ℚ) * 10 ^ 6).den = 1 := by
      rw [show (n : ℚ) * 10 ^ 6 = ((n * 10 ^ 6 : Int) : ℚ) by push_cast; ring]
      exact Rat.den_intCast _
    simp only [hden, iff_true]
    exact format_encodable (.inl ⟨n, rfl, hlo.le, hhi⟩)
  · have hformat : format (.num v) = .ok (fixedToString v) := by
      simp [format, hfloor]
    rw [hformat, ← stod_fixed_iff h]
    simp

theorem scalar_survives_iff (h : |v| < 2 ^ 63) :
    (DslSurvives (.num v) ↔ (v * 10 ^ 6).den = 1) ∧
      (BuilderSurvives (.num v) ↔ (v * 10 ^ 6).den = 1) := by
  constructor
  · rw [dslSurvives_iff, stod_format_iff h]
  · rw [builderSurvives_iff, Ops.doubleToString, stod_fixed_iff h]

end

theorem scalar_survives_half :
    |(5 / 2 : ℚ)| < 2 ^ 63 ∧ DslSurvives (.num (5 / 2)) ∧ BuilderSurvives (.num (5 / 2)) := by
  have hbound : |(5 / 2 : ℚ)| < 2 ^ 63 := by
    rw [abs_of_pos (by norm_num)]
    norm_num
  have hden : ((5 / 2 : ℚ) * 10 ^ 6).den = 1 := by
    norm_num
  have h := scalar_survives_iff hbound
  exact ⟨hbound, h.1.mpr hden, h.2.mpr hden⟩

theorem lexed_tiny :
    ∃ (t : Token) (lx : Lexer), (Lexer.make "0.0000001" exprSymbols exprMulti).lex = .ok (t, lx) ∧
      t.kind = .number ∧ t.number = .num (1 / 10 ^ 7) := by
  have hvalue : decimalValue ['0'] (some ['0', '0', '0', '0', '0', '0', '1']) = 1 / 10 ^ 7 := by
    rfl
  have hrange : inDoubleRange (1 / 10 ^ 7) = true := by
    decide +kernel
  have hdecimal : IsDecimal ['0'] (some ['0', '0', '0', '0', '0', '0', '1']) :=
    isDecimal_of_all rfl rfl (by simp)
  have hstops : Stops (.numeral ['0'] (some ['0', '0', '0', '0', '0', '0', '1'])) [] := by
    intro c hc
    simp at hc
  have hread : Reads (.make "0.0000001" exprSymbols exprMulti)
      (.numeral ['0'] (some ['0', '0', '0', '0', '0', '0', '1'])) [] :=
    lex_tok rfl rfl (.numeral hdecimal (by rw [hvalue]; exact hrange)) hstops .nil rfl
  obtain ⟨t, lx, hlex, hmatch, -⟩ := hread
  exact ⟨t, lx, hlex, hmatch.kind, hmatch.number.trans (congrArg Double.num hvalue)⟩

theorem scalar_loses_seventh_digit :
    ∃ (t : Token) (lx : Lexer), (Lexer.make "0.0000001" exprSymbols exprMulti).lex = .ok (t, lx) ∧
      t.kind = .number ∧ t.number = .num (1 / 10 ^ 7) ∧ ¬ DslSurvives t.number ∧
        ¬ BuilderSurvives t.number := by
  obtain ⟨t, lx, hlex, hkind, hnumber⟩ := lexed_tiny
  have hbound : |(1 / 10 ^ 7 : ℚ)| < 2 ^ 63 := by
    rw [abs_of_pos (by norm_num)]
    norm_num
  have hden : ¬ ((1 / 10 ^ 7 : ℚ) * 10 ^ 6).den = 1 := by
    norm_num
  refine ⟨t, lx, hlex, hkind, hnumber, ?_, ?_⟩
  · rw [hnumber, dslSurvives_iff, stod_format_iff hbound]
    exact hden
  · rw [hnumber, builderSurvives_iff, Ops.doubleToString, stod_fixed_iff hbound]
    exact hden

end Lark.Column.Biz
