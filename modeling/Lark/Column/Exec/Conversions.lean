import Lark.Column.Quantization
import Lark.Column.Exec.KernelValues

namespace Lark.Column

open Lark.Base

namespace Tensor

def elems : Tensor → List Num
  | scalar _ data => data.map Elem.toNum
  | q8_0 n blocks => (dequantizeBlocks n blocks).map Num.dbl

def WellFormed : Tensor → Prop
  | scalar _ _ => True
  | q8_0 n blocks => blocks.length = numBlocks n ∧ ∀ b ∈ blocks, b.qs.length = q8BlockSize

theorem length_dequantizeBlocks {n : Nat} {blocks : List BlockQ8}
    (h : (q8_0 n blocks).WellFormed) : (dequantizeBlocks n blocks).length = n := by
  obtain ⟨hlen, hqs⟩ := h
  have hchunks := congrArg List.length
    (flatMap_chunk_all q8BlockSize (fun _ i => i) (List.range n) (n := numBlocks n)
      (by simpa using length_le_numBlocks n))
  simp only [List.map_id', List.length_flatMap, List.length_mapIdx, List.length_range,
    length_chunk] at hchunks
  rw [dequantizeBlocks, List.length_flatMap, List.take_of_length_le (by simp [hlen])]
  have hmap : (blocks.zipIdx.map fun blk => ((blk.1.qs.take (min q8BlockSize
      (n - blk.2 * q8BlockSize))).map fun (q : Int) => Double.num q * blk.1.d).length) =
        (List.range (numBlocks n)).map fun b => min q8BlockSize (n - b * q8BlockSize) := by
    apply List.ext_getElem
    · simp [hlen]
    · intro i hi _
      have hi : i < blocks.length := by simpa using hi
      have hblock : blocks[i].qs.length = q8BlockSize := hqs _ (List.getElem_mem hi)
      simp [hblock, min_comm]
  rw [hmap]
  exact hchunks

theorem length_elems {a : Tensor} (h : a.WellFormed) : a.elems.length = a.size := by
  cases a with
  | scalar t data => simp [elems, size]
  | q8_0 n blocks => simpa [elems, size] using length_dequantizeBlocks h

theorem elems_of_empty {n : Nat} {blocks : List BlockQ8} (h : n = 0) :
    dequantizeBlocks n blocks = [] := by
  subst h
  simp [dequantizeBlocks, numBlocks, q8BlockSize]

theorem quantizeBlock_length {xs : List Double} {blk : BlockQ8} (h : quantizeBlock xs = .ok blk)
    (hx : xs.length ≤ q8BlockSize) : blk.qs.length = q8BlockSize := by
  obtain ⟨qs, hqs, rfl⟩ := except_map_eq_ok.mp h
  have hlen := (mapM_eq_ok_iff.mp hqs).length_eq
  simp only [List.length_append, List.length_replicate]
  omega

theorem quantizeQ8_0_spec {a r : Tensor} (h : a.quantizeQ8_0 = .ok r) :
    r.dtype = .q8_0 ∧ r.size = a.size ∧ r.WellFormed := by
  have hspec {data : List Double} (h : quantizeQ8 data = .ok r) :
      r.dtype = .q8_0 ∧ r.size = data.length ∧ r.WellFormed := by
    obtain ⟨blocks, hblocks, rfl⟩ := except_map_eq_ok.mp h
    have hrel := mapM_eq_ok_iff.mp hblocks
    refine ⟨rfl, rfl, by simpa using hrel.length_eq.symm, ?_⟩
    intro blk hblk
    obtain ⟨b, -, hb⟩ := exists_of_mem_mapM hblocks hblk
    exact quantizeBlock_length hb (by simp)
  unfold quantizeQ8_0 at h
  split at h
  · exact hspec h
  · exact hspec h
  · simp at h

end Tensor

namespace Exec

def CastConverts (a : Tensor) (d : DType) : Prop :=
  ∀ r, castTensor a d = .ok r → r.dtype = d ∧ r.size = a.size ∧
    match d with
    | .scalar t => ∃ data : List t.Carrier, r = .scalar t data ∧ a.elems.mapM Elem.ofNum = .ok data
    | .q8_0 => r = a ∨ a.quantizeQ8_0 = .ok r

-- A run that does not throw: it returns, or reads a buffer at a type it does not hold.
def NotThrown (r : Except Exn Tensor) : Prop := ∀ e, r = .error e → ∃ what, e = .undefined what

def ArithConverts (op : ArithOp) (a b : Tensor) : Prop :=
  NotThrown (binaryArith op a b) → ∃ (t : ScalarType) (xs ys rs : List t.Carrier),
    promote a.dtype b.dtype = .scalar t ∧ a.elems.mapM Elem.ofNum = .ok xs ∧
      b.elems.mapM Elem.ofNum = .ok ys ∧ binaryArith op a b = .ok (.scalar t rs) ∧
      rs.length = a.size ∧ ∀ (i : Nat) (x y : t.Carrier), xs[i]? = some x → ys[i]? = some y →
        ∃ r, rs[i]? = some r ∧ op.apply t x y = .ok r

def CompareConverts (op : CmpOp) (a b : Tensor) : Prop :=
  NotThrown (compare op a b) → ∃ (t : ScalarType) (xs ys : List t.Carrier) (rs : List Int64),
    promote a.dtype b.dtype = .scalar t ∧ a.elems.mapM Elem.ofNum = .ok xs ∧
      b.elems.mapM Elem.ofNum = .ok ys ∧ compare op a b = .ok (.scalar .int64 rs) ∧
      rs.length = a.size ∧ ∀ (i : Nat) (x y : t.Carrier), xs[i]? = some x → ys[i]? = some y →
        rs[i]? = some (maskOf (op.apply x y))

def Reinterprets (a b : Tensor) : Prop :=
  0 < a.size ∧ (a.dtype = .q8_0 ∧ b.dtype ≠ .q8_0 ∧ b.dtype ≠ .float64 ∨
    b.dtype = .q8_0 ∧ a.dtype ≠ .q8_0 ∧ a.dtype ≠ .float64)

theorem ofNum_toNum {t : ScalarType} (x : t.Carrier) :
    (Elem.ofNum (Elem.toNum x) : Except Exn t.Carrier) = .ok x := by
  cases t with
  | int32 => exact congrArg Except.ok (Int32.ofInt_toInt x)
  | int64 => exact congrArg Except.ok (Int64.ofInt_toInt x)
  | float32 => rfl
  | float64 => rfl

structure Readable (a : Tensor) (t : ScalarType) (xs : List t.Carrier) : Prop where
  converted : a.elems.mapM Elem.ofNum = .ok xs
  reads : ∃ r, castTensor a (.scalar t) = .ok r ∧ r.dataAs t = .ok xs

theorem readable_same {t : ScalarType} (data : List t.Carrier) :
    Readable (.scalar t data) t data := by
  refine ⟨?_, _, castTensor_self data, by simp⟩
  rw [Tensor.elems, List.mapM_map]
  exact (mapM_ok fun x _ => ofNum_toNum x).trans (by simp)

theorem readable_of_ok {t t' : ScalarType} (data : List t.Carrier)
    (h : ∀ x ∈ data, ∃ y : t'.Carrier, Elem.ofNum (Elem.toNum x) = .ok y) :
    ∃ xs, Readable (.scalar t data) t' xs := by
  by_cases ht : t = t'
  · subst ht
    exact ⟨data, readable_same data⟩
  · obtain ⟨xs, hxs⟩ := exists_mapM_ok h
    refine ⟨xs, ?_, .scalar t' xs, ?_, by simp⟩
    · rw [Tensor.elems, List.mapM_map]
      exact hxs
    · rw [castTensor_scalar data ht, hxs]
      rfl

theorem castTensor_q8_0 (n : Nat) (blocks : List BlockQ8) (t : ScalarType) :
    castTensor (.q8_0 n blocks) (.scalar t) =
      .ok (.scalar .float64 (Tensor.dequantizeBlocks n blocks)) := by
  unfold castTensor
  exact if_neg (by simp [Tensor.dtype])

theorem readable_dequantized (n : Nat) (blocks : List BlockQ8) :
    Readable (.q8_0 n blocks) .float64 (Tensor.dequantizeBlocks n blocks) := by
  refine ⟨?_, _, castTensor_q8_0 n blocks .float64, by simp⟩
  rw [Tensor.elems, List.mapM_map]
  exact (mapM_ok fun x _ => rfl).trans (by simp)

theorem readable_empty {n : Nat} (blocks : List BlockQ8) (t : ScalarType) (h : n = 0) :
    Readable (.q8_0 n blocks) t [] := by
  refine ⟨?_, _, castTensor_q8_0 n blocks t, ?_⟩
  · rw [Tensor.elems, Tensor.elems_of_empty h]
    rfl
  · rw [Tensor.elems_of_empty h]
    cases t <;> rfl

theorem dataAs_dequantized {n : Nat} {blocks : List BlockQ8} (h : (Tensor.q8_0 n blocks).WellFormed)
    (hn : 0 < n) {t : ScalarType} (ht : t ≠ .float64) :
    (Tensor.scalar .float64 (Tensor.dequantizeBlocks n blocks)).dataAs t =
      .error (.undefined "element read at another type") := by
  have hne : Tensor.dequantizeBlocks n blocks ≠ [] := by
    apply List.ne_nil_of_length_pos
    rw [Tensor.length_dequantizeBlocks h]
    exact hn
  rw [Tensor.dataAs_ne ht.symm, if_neg hne]

def widens : ScalarType → ScalarType → Bool
  | .int32, _ => true
  | .int64, _ => true
  | _, .float32 => true
  | _, .float64 => true
  | _, _ => false

theorem readable_widened {t t' : ScalarType} (data : List t.Carrier) (h : widens t t' = true) :
    ∃ xs, Readable (.scalar t data) t' xs := by
  apply readable_of_ok
  intro x _
  cases t <;> cases t' <;> first | exact ⟨_, rfl⟩ | simp [widens] at h

theorem promote_widens (t t' : ScalarType) :
    ∃ u, promote (.scalar t) (.scalar t') = .scalar u ∧ widens t u = true ∧ widens t' u = true := by
  cases t <;> cases t' <;> exact ⟨_, rfl, rfl, rfl⟩

theorem promote_comm (d d' : DType) : promote d d' = promote d' d := by
  rcases d with t | _ <;> rcases d' with t' | _
  · cases t <;> cases t' <;> rfl
  · cases t <;> rfl
  · cases t' <;> rfl
  · rfl

theorem promote_quantized (t : ScalarType) :
    ∃ u, promote .q8_0 (.scalar t) = .scalar u ∧ widens t u = true ∧ (u = .float64 ↔ t = .float64) := by
  cases t <;> exact ⟨_, rfl, rfl, by decide⟩

theorem mixed_readable {n : Nat} (blocks : List BlockQ8) {t : ScalarType} (data : List t.Carrier)
    (h : 0 < n → t = .float64) :
    ∃ u xs ys, promote .q8_0 (.scalar t) = .scalar u ∧ Readable (.q8_0 n blocks) u xs ∧
      Readable (.scalar t data) u ys := by
  obtain ⟨u, hpro, hwide, hfloat⟩ := promote_quantized t
  obtain ⟨ys, hys⟩ := readable_widened data hwide
  rcases Nat.eq_zero_or_pos n with hn | hn
  · exact ⟨u, [], ys, hpro, readable_empty blocks u hn, hys⟩
  · obtain rfl := hfloat.mpr (h hn)
    exact ⟨_, _, ys, hpro, readable_dequantized n blocks, hys⟩

section

variable {a b : Tensor}

theorem operands_readable (hsize : a.size = b.size) (hq : ¬ (a.dtype = .q8_0 ∧ b.dtype = .q8_0))
    (hr : ¬ Reinterprets a b) :
    ∃ u xs ys, promote a.dtype b.dtype = .scalar u ∧ Readable a u xs ∧ Readable b u ys := by
  cases a with
  | scalar t data =>
    cases b with
    | scalar t' data' =>
      obtain ⟨u, hpro, hw, hw'⟩ := promote_widens t t'
      obtain ⟨xs, hxs⟩ := readable_widened data hw
      obtain ⟨ys, hys⟩ := readable_widened data' hw'
      exact ⟨u, xs, ys, hpro, hxs, hys⟩
    | q8_0 n blocks =>
      have hfloat : 0 < n → t = .float64 := by
        intro hn
        by_contra ht
        exact hr ⟨hsize ▸ hn, .inr ⟨rfl, by simp [Tensor.dtype], by simpa [Tensor.dtype, DType.float64]⟩⟩
      obtain ⟨u, xs, ys, hpro, hxs, hys⟩ := mixed_readable blocks data hfloat
      exact ⟨u, ys, xs, by rw [promote_comm]; exact hpro, hys, hxs⟩
  | q8_0 n blocks =>
    cases b with
    | scalar t data =>
      have hfloat : 0 < n → t = .float64 := by
        intro hn
        by_contra ht
        exact hr ⟨hn, .inl ⟨rfl, by simp [Tensor.dtype], by simpa [Tensor.dtype, DType.float64]⟩⟩
      exact mixed_readable blocks data hfloat
    | q8_0 n' blocks' => exact absurd ⟨rfl, rfl⟩ hq

theorem Readable.length (ha : a.WellFormed) {t : ScalarType} {xs : List t.Carrier}
    (h : Readable a t xs) : xs.length = a.size := by
  rw [← Tensor.length_elems ha]
  exact (mapM_eq_ok_iff.mp h.converted).length_eq.symm

theorem elementwiseBinary_readable
    (fn : (t : ScalarType) → t.Carrier → t.Carrier → Except Exn t.Carrier)
    (hsize : a.size = b.size) {t : ScalarType} {xs ys : List t.Carrier}
    (hx : Readable a t xs) (hy : Readable b t ys) :
    elementwiseBinary fn a b (.scalar t) =
      ((List.zip xs ys).mapM fun p => fn t p.1 p.2) >>= fun rs => .ok (.scalar t rs) := by
  obtain ⟨ra, hra, hpa⟩ := hx.reads
  obtain ⟨rb, hrb, hpb⟩ := hy.reads
  unfold elementwiseBinary
  rw [if_neg (by simp [hsize])]
  simp only [hra, hrb, except_ok_bind, hpa, hpb]

theorem binaryArith_readable (op : ArithOp) (hop : op ≠ .div) (hsize : a.size = b.size)
    {t : ScalarType} {xs ys : List t.Carrier} (hpro : promote a.dtype b.dtype = .scalar t)
    (hx : Readable a t xs) (hy : Readable b t ys) :
    binaryArith op a b =
      ((List.zip xs ys).mapM fun p => op.apply t p.1 p.2) >>= fun rs => .ok (.scalar t rs) := by
  rw [binaryArith, if_neg hop, hpro]
  exact elementwiseBinary_readable op.apply hsize hx hy

theorem compare_readable (op : CmpOp) (hsize : a.size = b.size) {t : ScalarType}
    {xs ys : List t.Carrier} (hpro : promote a.dtype b.dtype = .scalar t)
    (hx : Readable a t xs) (hy : Readable b t ys) :
    compare op a b =
      .ok (.scalar .int64 ((List.zip xs ys).map fun p => maskOf (op.apply p.1 p.2))) := by
  obtain ⟨ra, hra, hpa⟩ := hx.reads
  obtain ⟨rb, hrb, hpb⟩ := hy.reads
  unfold compare
  rw [hpro, if_neg (by simp [hsize])]
  simp only [hra, hrb, except_ok_bind, hpa, hpb]

theorem apply_ok (op : ArithOp) (hop : op ≠ .div) {t : ScalarType} (x y : t.Carrier) :
    ∃ r, op.apply t x y = .ok r := by
  cases op with
  | div => exact absurd rfl hop
  | _ => exact ⟨_, rfl⟩

def readError : Exn := .undefined "element read at another type"

theorem reinterprets_reads (ha : a.WellFormed) (hb : b.WellFormed) (hsize : a.size = b.size)
    (h : Reinterprets a b) :
    ∃ t ra rb, promote a.dtype b.dtype = .scalar t ∧ castTensor a (.scalar t) = .ok ra ∧
      castTensor b (.scalar t) = .ok rb ∧
        (ra.dataAs t = .error readError ∨
          ∃ xs, ra.dataAs t = .ok xs ∧ rb.dataAs t = .error readError) := by
  obtain ⟨hpos, ⟨hq, hnq, hnf⟩ | ⟨hq, hnq, hnf⟩⟩ := h
  · cases a with
    | scalar t data => simp [Tensor.dtype] at hq
    | q8_0 n blocks =>
      cases b with
      | q8_0 n' blocks' => exact absurd rfl hnq
      | scalar t data =>
        obtain ⟨u, hpro, hwide, hfloat⟩ := promote_quantized t
        obtain ⟨ys, -, rb, hrb, -⟩ := readable_widened data hwide
        have hu : u ≠ .float64 := fun he => hnf (congrArg DType.scalar (hfloat.mp he))
        exact ⟨u, _, rb, hpro, castTensor_q8_0 n blocks u, hrb, .inl (dataAs_dequantized ha hpos hu)⟩
  · cases b with
    | scalar t data => simp [Tensor.dtype] at hq
    | q8_0 n blocks =>
      cases a with
      | q8_0 n' blocks' => exact absurd rfl hnq
      | scalar t data =>
        obtain ⟨u, hpro, hwide, hfloat⟩ := promote_quantized t
        obtain ⟨xs, -, ra, hra, hpa⟩ := readable_widened data hwide
        have hu : u ≠ .float64 := fun he => hnf (congrArg DType.scalar (hfloat.mp he))
        have hread := dataAs_dequantized hb (lt_of_lt_of_eq hpos hsize) hu
        exact ⟨u, ra, _, by rw [promote_comm]; exact hpro, hra, castTensor_q8_0 n blocks u,
          .inr ⟨xs, hpa, hread⟩⟩

theorem binaryArith_reinterprets (op : ArithOp) (hop : op ≠ .div) (ha : a.WellFormed)
    (hb : b.WellFormed) (hsize : a.size = b.size) (h : Reinterprets a b) :
    binaryArith op a b = .error readError := by
  obtain ⟨t, ra, rb, hpro, hra, hrb, hread⟩ := reinterprets_reads ha hb hsize h
  unfold binaryArith elementwiseBinary
  rw [if_neg hop, hpro, if_neg (by simp [hsize])]
  simp only [hra, hrb, except_ok_bind]
  rcases hread with he | ⟨xs, hxs, he⟩
  · rw [he]
    rfl
  · rw [hxs, he]
    rfl

theorem compare_reinterprets (op : CmpOp) (ha : a.WellFormed) (hb : b.WellFormed)
    (hsize : a.size = b.size) (h : Reinterprets a b) : compare op a b = .error readError := by
  obtain ⟨t, ra, rb, hpro, hra, hrb, hread⟩ := reinterprets_reads ha hb hsize h
  unfold compare
  rw [hpro, if_neg (by simp [hsize])]
  simp only [hra, hrb, except_ok_bind]
  rcases hread with he | ⟨xs, hxs, he⟩
  · rw [he]
    rfl
  · rw [hxs, he]
    rfl

theorem thrown_unsupported : ¬ NotThrown (.error unsupportedDtype) := by
  intro h
  obtain ⟨what, hw⟩ := h _ rfl
  simp [unsupportedDtype] at hw

theorem notThrown_undefined : NotThrown (.error readError) := by
  rintro e ⟨⟩
  exact ⟨_, rfl⟩

theorem both_quantized (hsize : a.size = b.size) (ha : a.dtype = .q8_0) (hb : b.dtype = .q8_0) :
    (∀ op, op ≠ .div → binaryArith op a b = .error unsupportedDtype) ∧
      ∀ op, compare op a b = .error unsupportedDtype := by
  have hpro : promote a.dtype b.dtype = .q8_0 := by rw [ha, hb]; rfl
  constructor
  · intro op hop
    unfold binaryArith elementwiseBinary
    rw [if_neg hop, hpro, if_neg (by simp [hsize])]
    simp [castTensor, ha, hb]
  · intro op
    unfold compare
    rw [hpro, if_neg (by simp [hsize])]

theorem arithConverts_iff (op : ArithOp) (hop : op ≠ .div) (ha : a.WellFormed) (hb : b.WellFormed)
    (hsize : a.size = b.size) : ArithConverts op a b ↔ ¬ Reinterprets a b := by
  constructor
  · intro h hr
    have herr := binaryArith_reinterprets op hop ha hb hsize hr
    rw [ArithConverts, herr] at h
    obtain ⟨t, xs, ys, rs, -, -, -, hok, -⟩ := h notThrown_undefined
    simp at hok
  · intro hr hthrown
    by_cases hq : a.dtype = .q8_0 ∧ b.dtype = .q8_0
    · rw [(both_quantized hsize hq.1 hq.2).1 op hop] at hthrown
      exact absurd hthrown thrown_unsupported
    · obtain ⟨t, xs, ys, hpro, hx, hy⟩ := operands_readable hsize hq hr
      obtain ⟨rs, hrs⟩ := exists_mapM_ok fun p (_ : p ∈ List.zip xs ys) => apply_ok op hop p.1 p.2
      have hrel := mapM_eq_ok_iff.mp hrs
      refine ⟨t, xs, ys, rs, hpro, hx.converted, hy.converted, ?_, ?_, ?_⟩
      · rw [binaryArith_readable op hop hsize hpro hx hy, hrs]
        rfl
      · rw [← hrel.length_eq, List.length_zip, hx.length ha, hy.length hb, ← hsize, min_self]
      · intro i x y hxi hyi
        have hzip : (List.zip xs ys)[i]? = some (x, y) :=
          List.getElem?_zip_eq_some.mpr ⟨hxi, hyi⟩
        exact getElem?_mapM hrs hzip

theorem compareConverts_iff (op : CmpOp) (ha : a.WellFormed) (hb : b.WellFormed)
    (hsize : a.size = b.size) : CompareConverts op a b ↔ ¬ Reinterprets a b := by
  constructor
  · intro h hr
    have herr := compare_reinterprets op ha hb hsize hr
    rw [CompareConverts, herr] at h
    obtain ⟨t, xs, ys, rs, -, -, -, hok, -⟩ := h notThrown_undefined
    simp at hok
  · intro hr hthrown
    by_cases hq : a.dtype = .q8_0 ∧ b.dtype = .q8_0
    · rw [(both_quantized hsize hq.1 hq.2).2 op] at hthrown
      exact absurd hthrown thrown_unsupported
    · obtain ⟨t, xs, ys, hpro, hx, hy⟩ := operands_readable hsize hq hr
      refine ⟨t, xs, ys, _, hpro, hx.converted, hy.converted,
        compare_readable op hsize hpro hx hy, ?_, ?_⟩
      · simp [hx.length ha, hy.length hb, hsize]
      · intro i x y hxi hyi
        have hzip : (List.zip xs ys)[i]? = some (x, y) :=
          List.getElem?_zip_eq_some.mpr ⟨hxi, hyi⟩
        simp [hzip]

theorem cast_scalar_ok {t t' : ScalarType} {data : List t.Carrier} {r : Tensor}
    (h : castTensor (.scalar t data) (.scalar t') = .ok r) :
    ∃ xs, r = .scalar t' xs ∧ (Tensor.scalar t data).elems.mapM Elem.ofNum = .ok xs := by
  by_cases ht : t = t'
  · subst ht
    obtain rfl := Except.ok.inj ((castTensor_self data).symm.trans h)
    exact ⟨data, rfl, (readable_same data).converted⟩
  · rw [castTensor_scalar data ht] at h
    obtain ⟨xs, hxs, rfl⟩ := except_map_eq_ok.mp h
    refine ⟨xs, rfl, ?_⟩
    rw [Tensor.elems, List.mapM_map]
    exact hxs

theorem castConverts_iff (ha : a.WellFormed) (d : DType) :
    CastConverts a d ↔ ¬ (a.dtype = .q8_0 ∧ d ≠ .q8_0 ∧ d ≠ .float64) := by
  cases a with
  | scalar t data =>
    simp only [Tensor.dtype, reduceCtorEq, false_and, not_false_eq_true, iff_true]
    intro r hr
    cases d with
    | scalar t' =>
      obtain ⟨xs, rfl, hxs⟩ := cast_scalar_ok hr
      have hlen := (mapM_eq_ok_iff.mp hxs).length_eq
      rw [Tensor.length_elems ha] at hlen
      exact ⟨rfl, hlen.symm, xs, rfl, hxs⟩
    | q8_0 =>
      have hq : (Tensor.scalar t data).quantizeQ8_0 = .ok r := hr
      obtain ⟨hd, hn, -⟩ := Tensor.quantizeQ8_0_spec hq
      exact ⟨hd, hn, .inr hq⟩
  | q8_0 n blocks =>
    cases d with
    | q8_0 =>
      simp only [ne_eq, not_true_eq_false, false_and, and_false, not_false_eq_true, iff_true]
      intro r hr
      obtain rfl := Except.ok.inj hr
      exact ⟨rfl, rfl, .inl rfl⟩
    | scalar t =>
      have hcast := castTensor_q8_0 n blocks t
      by_cases ht : t = .float64
      · subst ht
        simp only [DType.float64, ne_eq, not_true_eq_false, and_false, not_false_eq_true, iff_true]
        intro r hr
        obtain rfl := Except.ok.inj (hcast.symm.trans hr)
        refine ⟨rfl, Tensor.length_dequantizeBlocks ha, _, rfl, ?_⟩
        exact (readable_dequantized n blocks).converted
      · constructor
        · intro h
          have hdtype := (h _ hcast).1
          exact absurd (DType.scalar.inj hdtype).symm ht
        · intro h
          exact absurd ⟨rfl, by simp, by simpa [DType.float64] using ht⟩ h

theorem kernels_convert_iff (ha : a.WellFormed) (hb : b.WellFormed) (hsize : a.size = b.size) :
    (∀ d, CastConverts a d ↔ ¬ (a.dtype = .q8_0 ∧ d ≠ .q8_0 ∧ d ≠ .float64)) ∧
      (∀ op, op ≠ .div → (ArithConverts op a b ↔ ¬ Reinterprets a b)) ∧
        ∀ op, CompareConverts op a b ↔ ¬ Reinterprets a b :=
  ⟨castConverts_iff ha, fun op hop => arithConverts_iff op hop ha hb hsize,
    fun op => compareConverts_iff op ha hb hsize⟩

end

def oneBlock : Tensor := .q8_0 1 [⟨.num 1, 5 :: List.replicate 31 0⟩]

theorem oneBlock_wellFormed : oneBlock.WellFormed := by
  refine ⟨rfl, ?_⟩
  intro b hb
  obtain rfl := List.mem_singleton.mp hb
  rfl

theorem kernels_convert_double :
    oneBlock.WellFormed ∧ oneBlock.size = (Tensor.scalar .float64 [.num (1 / 2)]).size ∧
      CastConverts oneBlock .float64 ∧
        ArithConverts .add oneBlock (.scalar .float64 [.num (1 / 2)]) ∧
          CompareConverts .gt oneBlock (.scalar .float64 [.num (1 / 2)]) := by
  have hread : ¬ Reinterprets oneBlock (.scalar .float64 [.num (1 / 2)]) := by
    rintro ⟨-, ⟨-, -, h⟩ | ⟨h, -⟩⟩
    · exact h rfl
    · exact absurd h (by decide)
  obtain ⟨hcast, harith, hcompare⟩ := kernels_convert_iff oneBlock_wellFormed
    (b := .scalar .float64 [.num (1 / 2)]) trivial rfl
  exact ⟨oneBlock_wellFormed, rfl, (hcast _).mpr fun h => h.2.2 rfl,
    (harith .add (by decide)).mpr hread, (hcompare .gt).mpr hread⟩

theorem quantized_reinterpreted :
    oneBlock.WellFormed ∧ ¬ CastConverts oneBlock .int64 ∧
      ¬ ArithConverts .add oneBlock (.scalar .int64 [1]) ∧
        ¬ CompareConverts .gt oneBlock (.scalar .int64 [1]) := by
  have hread : Reinterprets oneBlock (.scalar .int64 [1]) :=
    ⟨by decide, .inl ⟨rfl, by decide, by decide⟩⟩
  have hscalar : (Tensor.scalar .int64 [1]).WellFormed := trivial
  refine ⟨oneBlock_wellFormed, ?_, ?_, ?_⟩
  · rw [castConverts_iff oneBlock_wellFormed]
    exact fun h => h ⟨rfl, by decide, by decide⟩
  · intro h
    exact (arithConverts_iff .add (by decide) oneBlock_wellFormed hscalar rfl).mp h hread
  · intro h
    exact (compareConverts_iff .gt oneBlock_wellFormed hscalar rfl).mp h hread

end Exec

end Lark.Column
