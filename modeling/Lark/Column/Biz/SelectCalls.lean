import Lark.Column.Biz.DslSemantics
import Lark.Column.Exec.ScalarOps

namespace Lark.Column.Biz.Dsl

open Lark.Base Lark.Toolkit.Dsl Lark.Column.Exec

inductive Arg where
  | column (name : List Char)
  | literal (l : Literal)

namespace Arg

def term : Arg → Term
  | column name => .col name
  | literal l => l.term

def WellFormed : Arg → Prop
  | column name => IsIdent name
  | literal _ => True

def Reads (store : TensorStore) : Arg → Tensor → Prop
  | column name, t => store.find (String.ofList name) = some t
  | literal l, t => Printable l.value ∧ t = .scalar .float64 [.num (fixedValue l.value)]

theorem term_wellFormed {x : Arg} (h : x.WellFormed) : x.term.WellFormed := by
  cases x with
  | column name => exact h
  | literal l => exact l.term_wellFormed

end Arg

theorem read_column_iff (store : TensorStore) (name : String) (t : Tensor) :
    Source.read store (.column name) = .ok t ↔ store.find name = some t := by
  cases h : store.find name <;> simp [Source.read, h]

theorem arg_reads (libm : Libm) (store : TensorStore) (x : Arg) (t : Tensor) :
    (∃ d s, x.term.eval libm store = .ok d ∧ evalArg libm store d = .ok s ∧
      s.read store = .ok t) ↔ x.Reads store t := by
  cases x with
  | column name =>
    constructor
    · rintro ⟨d, s, hd, hs, hread⟩
      obtain rfl := Except.ok.inj hd
      obtain rfl := Except.ok.inj hs
      exact (read_column_iff store _ t).mp hread
    · intro h
      exact ⟨_, _, rfl, rfl, (read_column_iff store _ t).mpr h⟩
  | literal l =>
    constructor
    · rintro ⟨d, s, hd, hs, hread⟩
      obtain rfl := Except.ok.inj hd
      obtain ⟨t', ht', rfl⟩ := except_map_eq_ok.mp hs
      obtain rfl := Except.ok.inj hread
      exact (evalConst_num libm store _ _).mp ht'
    · intro h
      refine ⟨_, .tensor t, rfl, ?_, rfl⟩
      exact except_bind_eq_ok.mpr ⟨t, (evalConst_num libm store _ _).mpr h, rfl⟩

theorem invoke_select (libm : Libm) (store : TensorStore) (m a b : Source) :
    invoke libm store "select" [] [m, a, b] = (do
      let m ← m.read store
      let a ← a.read store
      let b ← b.read store
      Exec.select m a b) := rfl

def selectStatement (v m : List Char) (x y : Arg) : Statement :=
  ⟨v, .select (.col m) x.term y.term⟩

theorem select_eval (libm : Libm) {v m : List Char} {x y : Arg} (store : TensorStore)
    (t : Tensor) :
    (∃ store', evalProgram libm [selectStatement v m x y] store = .ok store' ∧
      store'.find (String.ofList v) = some t) ↔
      ∃ tm tx ty, store.find (String.ofList m) = some tm ∧ x.Reads store tx ∧ y.Reads store ty ∧
        Exec.select tm tx ty = .ok t := by
  have hmask (s : Source) : evalArg libm store (.source s) = .ok s := rfl
  simp only [evalProgram, List.foldlM_cons, List.foldlM_nil, Statement.eval, selectStatement,
    Term.eval, evalCall, invoke_select, hmask, except_ok_bind, bind_assoc, except_bind_eq_ok,
    evalAssign]
  constructor
  · rintro ⟨store', ⟨dx, hdx, dy, hdy, sx, hsx, sy, hsy, tm, hm, tx, hx, ty, hy, t', ht', hs⟩, ht⟩
    obtain rfl := Except.ok.inj hs
    obtain rfl : t' = t := by simpa using ht
    exact ⟨tm, tx, ty, (read_column_iff store _ tm).mp hm,
      (arg_reads libm store x tx).mp ⟨dx, sx, hdx, hsx, hx⟩,
      (arg_reads libm store y ty).mp ⟨dy, sy, hdy, hsy, hy⟩, ht'⟩
  · rintro ⟨tm, tx, ty, hm, hx, hy, ht⟩
    obtain ⟨dx, sx, hdx, hsx, hx⟩ := (arg_reads libm store x tx).mpr hx
    obtain ⟨dy, sy, hdy, hsy, hy⟩ := (arg_reads libm store y ty).mpr hy
    exact ⟨_, ⟨dx, hdx, dy, hdy, sx, hsx, sy, hsy, tm, (read_column_iff store _ tm).mpr hm, tx, hx,
      ty, hy, t, ht, rfl⟩, by simp⟩

def pick (mask : List Int64) (xs ys : List Double) : List Double :=
  List.zipWith (fun k p => if k ≠ 0 then p.1 else p.2) mask (List.zip xs ys)

theorem readable_values (a : Tensor) : Readable a .float64 a.values := by
  cases a with
  | scalar t data =>
    rw [Tensor.values_scalar]
    exact readable_double data
  | q8_0 n blocks =>
    have hvalues : (Tensor.q8_0 n blocks).values = Tensor.dequantizeBlocks n blocks := by
      simp [Tensor.values, Tensor.elems, Function.comp_def, Num.toDouble]
    rw [hvalues]
    exact readable_dequantized n blocks

theorem promote_float64 (d : DType) : promote d .float64 = .float64 := by
  cases d with
  | scalar t => exact promote_double
  | q8_0 => rfl

theorem select_float64 {mask : List Int64} {a b : Tensor}
    (hpro : promote a.dtype b.dtype = .float64) (t : Tensor) :
    Exec.select (.scalar .int64 mask) a b = .ok t ↔
      a.size = mask.length ∧ b.size = mask.length ∧
        t = .scalar .float64 (pick mask a.values b.values) := by
  obtain ⟨ra, hra, hpa⟩ := (readable_values a).reads
  obtain ⟨rb, hrb, hpb⟩ := (readable_values b).reads
  have hpick : List.zipWith (fun (k : Int64) (p : Double × Double) => if k = 0 then p.2 else p.1)
      mask (List.zip a.values b.values) = pick mask a.values b.values := by
    simp only [pick, ne_eq, ite_not]
  unfold Exec.select
  dsimp only
  by_cases hsize : mask.length ≠ a.size ∨ b.size ≠ a.size
  · rw [if_pos hsize]
    simp only [reduceCtorEq, false_iff, not_and]
    omega
  · rw [if_neg hsize, hpro]
    simp only [DType.float64, hra, hrb, except_ok_bind, hpa, hpb, Except.ok.injEq]
    rw [← hpick]
    constructor
    · intro h
      exact ⟨by omega, by omega, h.symm⟩
    · rintro ⟨-, -, h⟩
      exact h.symm

theorem values_float64 (xs : List Double) : (Tensor.scalar .float64 xs).values = xs := by
  rw [Tensor.values_scalar]
  exact List.map_id xs

def Selects (libm : Libm) (source v : List Char) (store : TensorStore) (mask : List Int64)
    (xs ys : List Double) : Prop :=
  ∃ store' t, runSource libm (String.ofList source) store = .ok store' ∧
    store'.find (String.ofList v) = some t ∧ t.values = pick mask xs ys

section

variable {libm : Libm} {v m source : List Char} {x y : Arg} {store : TensorStore}
  {mask : List Int64}

theorem selects_iff (hv : IsIdent v) (hm : IsIdent m) (hx : x.WellFormed) (hy : y.WellFormed)
    (hs : RendersProgram [selectStatement v m x y] source)
    (hmask : store.find (String.ofList m) = some (.scalar .int64 mask))
    (hpro : ∀ tx ty, x.Reads store tx → y.Reads store ty →
      promote tx.dtype ty.dtype = .float64) (xs ys : List Double) :
    Selects libm source v store mask xs ys ↔
      ∃ tx ty, x.Reads store tx ∧ y.Reads store ty ∧ tx.size = mask.length ∧
        ty.size = mask.length ∧ pick mask tx.values ty.values = pick mask xs ys := by
  have hterm : (selectStatement v m x y).term.WellFormed :=
    ⟨hm, Arg.term_wellFormed hx, Arg.term_wellFormed hy⟩
  have hwf : ∀ s ∈ [selectStatement v m x y], s.WellFormed := by
    simpa using Statement.WellFormed.mk hv hterm
  have hrun := runSource_find_iff libm hs hwf store (ident_ne_tempName hv)
  constructor
  · rintro ⟨store', t, hok, ht, hvalues⟩
    obtain ⟨tm, tx, ty, htm, htx, hty, hselect⟩ :=
      (select_eval libm store t).mp ((hrun t).mp ⟨store', hok, ht⟩)
    obtain rfl := Option.some.inj (hmask.symm.trans htm)
    obtain ⟨hsx, hsy, rfl⟩ := (select_float64 (hpro tx ty htx hty) t).mp hselect
    rw [values_float64] at hvalues
    exact ⟨tx, ty, htx, hty, hsx, hsy, hvalues⟩
  · rintro ⟨tx, ty, htx, hty, hsx, hsy, hvalues⟩
    have hselect := (select_float64 (hpro tx ty htx hty) _).mpr ⟨hsx, hsy, rfl⟩
    obtain ⟨store', hok, ht⟩ := (hrun _).mpr
      ((select_eval libm store _).mpr ⟨_, tx, ty, hmask, htx, hty, hselect⟩)
    exact ⟨store', _, hok, ht, (values_float64 _).trans hvalues⟩

def SixDecimals (x : ℚ) : Prop := (x * 10 ^ 6).den = 1

-- The rows an argument has by its meaning: those of its column, or its literal at every row.
def Arg.Denotes (store : TensorStore) (n : Nat) : Arg → List Double → Prop
  | .column name, xs => ∃ t, store.find (String.ofList name) = some t ∧ t.WellFormed ∧
      t.size = n ∧ xs = t.values
  | .literal l, xs => xs = List.replicate n (.num l.value)

def Arg.Prints : Arg → Prop
  | .column _ => True
  | .literal l => Printable l.value

def Arg.Exact : Arg → Prop
  | .column _ => True
  | .literal l => SixDecimals l.value

def Arg.IsLiteral : Arg → Prop
  | .column _ => False
  | .literal _ => True

theorem Arg.Reads.prints {t : Tensor} (h : x.Reads store t) : x.Prints := by
  cases x with
  | column name => trivial
  | literal l => exact h.1

theorem Arg.IsLiteral.reads {t : Tensor} (h : x.IsLiteral) (ht : x.Reads store t) :
    t.dtype = .float64 ∧ t.size = 1 := by
  cases x with
  | column name => exact h.elim
  | literal l =>
    obtain ⟨-, rfl⟩ := ht
    exact ⟨rfl, rfl⟩

theorem Arg.Denotes.reads {n : Nat} {xs : List Double} (h : x.Denotes store n xs)
    (hp : x.Prints) : ∃ t, x.Reads store t := by
  cases x with
  | column name =>
    obtain ⟨t, ht, -⟩ := h
    exact ⟨t, ht⟩
  | literal l => exact ⟨_, hp, rfl⟩

theorem Arg.Denotes.single {xs : List Double} {t : Tensor} (h : x.Denotes store 1 xs)
    (ht : x.Reads store t) :
    ∃ z w, xs = [z] ∧ t.values = [w] ∧ t.size = 1 ∧ (w = z ↔ x.Exact) := by
  cases x with
  | column name =>
    obtain ⟨t', ht', hwf, hsize, rfl⟩ := h
    obtain rfl := Option.some.inj (ht'.symm.trans ht)
    have hlen : t'.values.length = 1 := by
      rw [Tensor.values, List.length_map, Tensor.length_elems hwf, hsize]
    obtain ⟨z, hz⟩ := List.length_eq_one_iff.mp hlen
    exact ⟨z, z, hz, hz, hsize, by simp [Arg.Exact]⟩
  | literal l =>
    obtain ⟨-, rfl⟩ := ht
    refine ⟨_, _, h, values_float64 _, rfl, ?_⟩
    rw [Arg.Exact, SixDecimals, ← fixedValue_eq_iff]
    exact ⟨fun h => Double.num.inj h, fun h => congrArg Double.num h⟩

theorem pick_single (k : Int64) (z w : Double) :
    pick [k] [z] [w] = [if k ≠ 0 then z else w] := rfl

theorem select_literal_iff (hv : IsIdent v) (hm : IsIdent m) (hx : x.WellFormed)
    (hy : y.WellFormed) (hs : RendersProgram [selectStatement v m x y] source)
    (hmask : store.find (String.ofList m) = some (.scalar .int64 mask))
    (hlit : x.IsLiteral ∨ y.IsLiteral) {xs ys : List Double}
    (hxs : x.Denotes store mask.length xs) (hys : y.Denotes store mask.length ys) :
    Selects libm source v store mask xs ys ↔
      mask.length = 1 ∧ x.Prints ∧ y.Prints ∧
        ∀ k ∈ mask, (k ≠ 0 → x.Exact) ∧ (k = 0 → y.Exact) := by
  have hpro : ∀ tx ty, x.Reads store tx → y.Reads store ty →
      promote tx.dtype ty.dtype = .float64 := by
    intro tx ty htx hty
    rcases hlit with h | h
    · rw [(h.reads htx).1, promote_comm]
      exact promote_float64 ty.dtype
    · rw [(h.reads hty).1]
      exact promote_float64 tx.dtype
  have hone {k : Int64} {tx ty : Tensor} (hxs : x.Denotes store 1 xs) (hys : y.Denotes store 1 ys)
      (htx : x.Reads store tx) (hty : y.Reads store ty) :
      tx.size = 1 ∧ ty.size = 1 ∧ (pick [k] tx.values ty.values = pick [k] xs ys ↔
        (k ≠ 0 → x.Exact) ∧ (k = 0 → y.Exact)) := by
    obtain ⟨z, w, rfl, hw, hsx, hex⟩ := hxs.single htx
    obtain ⟨z', w', rfl, hw', hsy, hey⟩ := hys.single hty
    refine ⟨hsx, hsy, ?_⟩
    rw [hw, hw', pick_single, pick_single, ← hex, ← hey]
    by_cases hk : k = 0
    · simp [hk]
    · simp [hk]
  rw [selects_iff hv hm hx hy hs hmask hpro]
  constructor
  · rintro ⟨tx, ty, htx, hty, hsx, hsy, hpick⟩
    have hlen : mask.length = 1 := by
      rcases hlit with h | h
      · exact hsx.symm.trans (h.reads htx).2
      · exact hsy.symm.trans (h.reads hty).2
    obtain ⟨k, rfl⟩ := List.length_eq_one_iff.mp hlen
    obtain ⟨-, -, hiff⟩ := hone hxs hys htx hty
    exact ⟨rfl, htx.prints, hty.prints, by simpa using hiff.mp hpick⟩
  · rintro ⟨hlen, hpx, hpy, hexact⟩
    obtain ⟨k, rfl⟩ := List.length_eq_one_iff.mp hlen
    obtain ⟨tx, htx⟩ := hxs.reads hpx
    obtain ⟨ty, hty⟩ := hys.reads hpy
    obtain ⟨hsx, hsy, hiff⟩ := hone hxs hys htx hty
    exact ⟨tx, ty, htx, hty, hsx, hsy, hiff.mpr (hexact k (by simp))⟩

end

def broadcast (mask : List Int64) (l : Literal) : List Double :=
  List.replicate mask.length (.num l.value)

structure SelectRows (store : TensorStore) (m a b : List Char) (mask : List Int64)
    (ta tb : Tensor) : Prop where
  condition : store.find (String.ofList m) = some (.scalar .int64 mask)
  left : store.find (String.ofList a) = some ta
  right : store.find (String.ofList b) = some tb
  left_wf : ta.WellFormed
  right_wf : tb.WellFormed
  left_size : ta.size = mask.length
  right_size : tb.size = mask.length

theorem select_broadcasts_iff (libm : Libm) {v m a b s₁ s₂ s₃ : List Char} {store : TensorStore}
    {mask : List Int64} {ta tb : Tensor} (p q : Literal) (hv : IsIdent v) (hm : IsIdent m)
    (ha : IsIdent a) (hb : IsIdent b) (hrows : SelectRows store m a b mask ta tb)
    (h₁ : RendersProgram [selectStatement v m (.column a) (.literal q)] s₁)
    (h₂ : RendersProgram [selectStatement v m (.literal p) (.column b)] s₂)
    (h₃ : RendersProgram [selectStatement v m (.literal p) (.literal q)] s₃) :
    (Selects libm s₁ v store mask ta.values (broadcast mask q) ∧
      Selects libm s₂ v store mask (broadcast mask p) tb.values ∧
      Selects libm s₃ v store mask (broadcast mask p) (broadcast mask q)) ↔
      mask.length = 1 ∧ Printable p.value ∧ Printable q.value ∧
        ∀ k ∈ mask, SixDecimals (if k ≠ 0 then p else q).value := by
  have hta : (Arg.column a).Denotes store mask.length ta.values :=
    ⟨ta, hrows.left, hrows.left_wf, hrows.left_size, rfl⟩
  have htb : (Arg.column b).Denotes store mask.length tb.values :=
    ⟨tb, hrows.right, hrows.right_wf, hrows.right_size, rfl⟩
  have hlit (l : Literal) : (Arg.literal l).Denotes store mask.length (broadcast mask l) := rfl
  have hpick (k : Int64) : SixDecimals (if k ≠ 0 then p else q).value ↔
      (k ≠ 0 → SixDecimals p.value) ∧ (k = 0 → SixDecimals q.value) := by
    by_cases hk : k = 0
    · simp [hk]
    · simp [hk]
  rw [select_literal_iff (x := .column a) (y := .literal q) hv hm ha trivial h₁ hrows.condition
      (.inr trivial) hta (hlit q),
    select_literal_iff (x := .literal p) (y := .column b) hv hm trivial hb h₂ hrows.condition
      (.inl trivial) (hlit p) htb,
    select_literal_iff (x := .literal p) (y := .literal q) hv hm trivial trivial h₃ hrows.condition
      (.inl trivial) (hlit p) (hlit q)]
  simp only [hpick, Arg.Prints, Arg.Exact]
  constructor
  · rintro ⟨-, -, h⟩
    exact h
  · rintro ⟨hlen, hp, hq, hexact⟩
    exact ⟨⟨hlen, trivial, hq, fun k hk => ⟨fun _ => trivial, (hexact k hk).2⟩⟩,
      ⟨hlen, hp, trivial, fun k hk => ⟨(hexact k hk).1, fun _ => trivial⟩⟩, hlen, hp, hq, hexact⟩

def three : Literal := ⟨['3'], none, isDecimal_of_all rfl rfl (by simp), by decide +kernel⟩

def half : Literal := ⟨['0'], some ['5'], isDecimal_of_all rfl rfl (by simp), by decide +kernel⟩

theorem isDecimal_zero : IsDecimal ['0'] none := isDecimal_of_all rfl rfl (by simp)

theorem zero_inRange : inDoubleRange (decimalValue ['0'] none) = true := by
  decide +kernel

def zero : Literal := ⟨['0'], none, isDecimal_zero, zero_inRange⟩

def selectStore (mask : List Int64) (xs ys : List Double) : TensorStore :=
  ((TensorStore.empty.set "m" (.scalar .int64 mask)).set "a" (.scalar .float64 xs)).set "b"
    (.scalar .float64 ys)

theorem selectRows_store {mask : List Int64} {xs ys : List Double} (hx : xs.length = mask.length)
    (hy : ys.length = mask.length) :
    SelectRows (selectStore mask xs ys) ['m'] ['a'] ['b'] mask (.scalar .float64 xs)
      (.scalar .float64 ys) where
  condition := rfl
  left := rfl
  right := rfl
  left_wf := trivial
  right_wf := trivial
  left_size := hx
  right_size := hy

theorem select_broadcasts_row :
    SelectRows (selectStore [1] [4] [6]) ['m'] ['a'] ['b'] [1] (.scalar .float64 [4])
        (.scalar .float64 [6]) ∧
      Selects exactLibm
        (programText [selectStatement ['v'] ['m'] (.literal three) (.literal half)]) ['v']
        (selectStore [1] [4] [6]) [1] (broadcast [1] three) (broadcast [1] half) := by
  have hrows : SelectRows (selectStore [1] [4] [6]) ['m'] ['a'] ['b'] [1] (.scalar .float64 [4])
      (.scalar .float64 [6]) := selectRows_store rfl rfl
  have hprint : Printable three.value ∧ Printable half.value := by
    unfold Printable FitsInt64
    decide +kernel
  have hsix : SixDecimals three.value := by
    unfold SixDecimals
    decide +kernel
  have hiff := select_broadcasts_iff exactLibm (v := ['v']) three half (isIdent_letter rfl)
    (isIdent_letter rfl) (isIdent_letter rfl) (isIdent_letter rfl) hrows
    (rendersProgram_text _) (rendersProgram_text _) (rendersProgram_text _)
  refine ⟨hrows, (hiff.mpr ⟨rfl, hprint.1, hprint.2, ?_⟩).2.2⟩
  intro k hk
  obtain rfl : k = 1 := by simpa using hk
  exact hsix

theorem renders_select :
    RendersProgram [selectStatement ['v'] ['m'] (.column ['a']) (.literal zero)]
      "v = select(m, a, 0)".toList := by
  have htext : Rendering (· = [])
      ((selectStatement ['v'] ['m'] (.column ['a']) (.literal zero)).toks.map Tok.text)
      "v = select(m, a, 0)".toList :=
    .tok (g := []) .nil (.tok (g := [' ']) (.space rfl .nil) (.tok (g := [' ']) (.space rfl .nil)
      (.tok (g := []) .nil (.tok (g := []) .nil (.tok (g := []) .nil (.tok (g := [' '])
        (.space rfl .nil) (.tok (g := []) .nil (.tok (g := [' ']) (.space rfl .nil)
          (.tok (g := []) .nil (.done rfl))))))))))
  exact .statement htext (by simp) (.done (.gap .nil))

theorem select_literal_too_short :
    SelectRows (selectStore [1, 0] [4, 5] [6, 7]) ['m'] ['a'] ['b'] [1, 0] (.scalar .float64 [4, 5])
        (.scalar .float64 [6, 7]) ∧
      RendersProgram [selectStatement ['v'] ['m'] (.column ['a']) (.literal zero)]
        "v = select(m, a, 0)".toList ∧
      ¬ Selects exactLibm "v = select(m, a, 0)".toList ['v'] (selectStore [1, 0] [4, 5] [6, 7])
        [1, 0] [4, 5] (broadcast [1, 0] zero) := by
  refine ⟨selectRows_store rfl rfl, renders_select, ?_⟩
  rintro ⟨store', t, hrun, -⟩
  have hfails : (runSource exactLibm "v = select(m, a, 0)"
      (selectStore [1, 0] [4, 5] [6, 7])).toBool = false := by decide +kernel
  rw [String.ofList_toList] at hrun
  rw [hrun] at hfails
  cases hfails

end Lark.Column.Biz.Dsl
