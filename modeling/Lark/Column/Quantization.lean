import Lark.Base.Chunks
import Lark.Column.Tensor

namespace Lark.Column

open Lark.Base

namespace Tensor

def absMax (xs : List ℚ) : ℚ := xs.foldl (fun m x => max m |x|) 0

def scale (xs : List ℚ) : ℚ := absMax xs / 127

def blockScale (xs : List ℚ) (b : Nat) : ℚ := scale (chunk q8BlockSize xs b)

def exactBlock (xs : List ℚ) : BlockQ8 :=
  ⟨.num (scale xs), xs.map (fun x => Double.truncate (x / scale xs)) ++
    List.replicate (q8BlockSize - xs.length) 0⟩

def requantize (d x : ℚ) : ℚ := Double.truncate (x / d) * d

theorem le_foldl_max (xs : List ℚ) (m : ℚ) :
    m ≤ xs.foldl (fun m x => max m |x|) m ∧
      ∀ x ∈ xs, |x| ≤ xs.foldl (fun m x => max m |x|) m := by
  induction xs generalizing m with
  | nil => simp
  | cons y ys ih =>
    obtain ⟨hm, hy⟩ := ih (max m |y|)
    refine ⟨le_trans (le_max_left _ _) hm, ?_⟩
    intro x hx
    rcases List.mem_cons.mp hx with rfl | hx
    · exact le_trans (le_max_right _ _) hm
    · exact hy x hx

theorem absMax_nonneg (xs : List ℚ) : 0 ≤ absMax xs := (le_foldl_max xs 0).1

theorem abs_le_absMax {xs : List ℚ} {x : ℚ} (h : x ∈ xs) : |x| ≤ absMax xs :=
  (le_foldl_max xs 0).2 x h

theorem fabs_num (x : ℚ) : fabs (.num x) = .num |x| := by
  change (if decide (x < 0) = true then -Double.num x else Double.num x) = _
  rcases lt_or_ge x 0 with hx | hx
  · simp [hx, abs_of_neg hx]
  · simp [not_lt.mpr hx, abs_of_nonneg hx]

theorem fmax_num (x y : ℚ) : fmax (.num x) (.num y) = .num (max x y) := by
  rw [fmax, Double.num_lt]
  rcases lt_or_ge x y with h | h
  · simp [h, max_eq_right h.le]
  · simp [not_lt.mpr h, max_eq_left h]

theorem fmin_num (x y : ℚ) : fmin (.num x) (.num y) = .num (min x y) := by
  rw [fmin, Double.num_lt]
  rcases lt_or_ge y x with h | h
  · simp [h, min_eq_right h.le]
  · simp [not_lt.mpr h, min_eq_left h]

theorem foldl_fmax_num (xs : List ℚ) (m : ℚ) :
    (xs.map Double.num).foldl (fun m x => fmax m (fabs x)) (.num m) =
      .num (xs.foldl (fun m x => max m |x|) m) := by
  induction xs generalizing m with
  | nil => rfl
  | cons x xs ih => simp [fabs_num, fmax_num, ih]

theorem scale_nonneg (xs : List ℚ) : 0 ≤ scale xs :=
  div_nonneg (absMax_nonneg xs) (by norm_num)

theorem abs_le_scale {xs : List ℚ} {x : ℚ} (h : x ∈ xs) : |x| ≤ 127 * scale xs := by
  rw [scale]
  linarith [abs_le_absMax h]

theorem abs_div_scale_le {xs : List ℚ} {x : ℚ} (h : x ∈ xs) : |x / scale xs| ≤ 127 := by
  rcases (scale_nonneg xs).eq_or_lt with hz | hpos
  · simp [← hz]
  · rw [abs_div, abs_of_pos hpos, div_le_iff₀ hpos]
    exact abs_le_scale h

theorem clamp_num {q : ℚ} (h : |q| ≤ 127) :
    fmax (-127) (fmin 127 (.num q)) = .num q := by
  obtain ⟨hlo, hhi⟩ := abs_le.mp h
  change fmax (.num (-127)) (fmin (.num 127) (.num q)) = _
  rw [fmin_num, fmax_num, min_eq_right hhi, max_eq_right hlo]

theorem toInt_clamped {q : ℚ} (h : |q| ≤ 127) :
    (fmax (-127) (fmin 127 (.num q))).toInt 8 = some (Double.truncate q) := by
  obtain ⟨hlo, hhi⟩ := Double.truncate_mem (n := 127) (by exact_mod_cast h)
  rw [clamp_num h, Double.toInt_num, if_pos]
  constructor <;> norm_num <;> omega

theorem quantizeBlock_num (xs : List ℚ) :
    quantizeBlock (xs.map Double.num) = .ok (exactBlock xs) := by
  have hscale : (xs.map Double.num).foldl (fun m x => fmax m (fabs x)) 0 / 127 =
      .num (scale xs) := by
    change (xs.map Double.num).foldl _ (.num 0) / Double.num 127 = _
    rw [foldl_fmax_num, Double.num_div _ _ (by norm_num)]
    rfl
  have hzero (v : Double) : (if (Double.num (scale xs)).eq 0 then 0 else v) =
      if scale xs = 0 then 0 else v := by
    change (if decide (scale xs = 0) = true then 0 else v) = _
    simp only [decide_eq_true_eq]
  have hquot (x : ℚ) : (if (Double.num (scale xs)).eq 0 then (0 : Double)
      else .num x / .num (scale xs)) = .num (x / scale xs) := by
    rw [hzero]
    split_ifs with h
    · rw [h, div_zero]
      rfl
    · exact Double.num_div _ _ h
  have hd : (if (Double.num (scale xs)).eq 0 then (0 : Double) else .num (scale xs)) =
      .num (scale xs) := by
    rw [hzero]
    split_ifs with h
    · rw [h]
      rfl
    · rfl
  unfold quantizeBlock
  simp only [hscale, List.mapM_map, hd, Function.comp_def, hquot]
  rw [mapM_ok (g := fun x => Double.truncate (x / scale xs))]
  · simp [exactBlock]
  · intro x hx
    rw [toInt_clamped (abs_div_scale_le hx)]

theorem length_le_numBlocks (n : Nat) : n ≤ numBlocks n * q8BlockSize := by
  simp only [numBlocks, q8BlockSize]
  omega

theorem quantizeQ8_num (xs : List ℚ) :
    quantizeQ8 (xs.map Double.num) =
      .ok (.q8_0 xs.length ((List.range (numBlocks xs.length)).map fun b =>
        exactBlock (chunk q8BlockSize xs b))) := by
  unfold quantizeQ8
  rw [List.length_map, mapM_ok]
  · rfl
  · intro b _
    rw [← List.map_drop, ← List.map_take]
    exact quantizeBlock_num (chunk q8BlockSize xs b)

theorem take_exactBlock (xs : List ℚ) (n : Nat) (h : xs.length = min q8BlockSize n) :
    ((exactBlock xs).qs.take (min q8BlockSize n)).map (fun (q : Int) =>
        Double.num q * (exactBlock xs).d) =
      xs.map fun x => Double.num (requantize (scale xs) x) := by
  rw [exactBlock, List.take_append_of_le_length (by simp [h]), List.take_of_length_le (by simp [h]),
    List.map_map]
  rfl

theorem dequantizeBlocks_num (xs : List ℚ) :
    dequantizeBlocks xs.length ((List.range (numBlocks xs.length)).map fun b =>
        exactBlock (chunk q8BlockSize xs b)) =
      (xs.mapIdx fun i => requantize (blockScale xs (i / q8BlockSize))).map Double.num := by
  have hzip (n : Nat) (f : Nat → BlockQ8) :
      ((List.range n).map f).zipIdx = (List.range n).map fun b => (f b, b) := by
    apply List.ext_getElem <;> simp
  rw [dequantizeBlocks, hzip, List.take_of_length_le (by simp), List.flatMap_map]
  have hmap : (xs.mapIdx fun i => requantize (blockScale xs (i / q8BlockSize))).map Double.num =
      xs.mapIdx fun i x => Double.num (requantize (blockScale xs (i / q8BlockSize)) x) := by
    apply List.ext_getElem <;> simp
  rw [hmap, ← flatMap_chunk_all q8BlockSize (fun b x => Double.num (requantize (blockScale xs b) x)) xs
    (length_le_numBlocks xs.length)]
  apply List.flatMap_congr
  intro b _
  exact take_exactBlock _ _ (length_chunk _ _ _)

inductive FloatTensor (xs : List ℚ) : Tensor → Prop
  | float32 : FloatTensor xs (.scalar .float32 (xs.map Double.num))
  | float64 : FloatTensor xs (.scalar .float64 (xs.map Double.num))

theorem dequantize_quantize {xs : List ℚ} {t : Tensor} (h : FloatTensor xs t) :
    t.quantizeQ8_0 >>= dequantize =
      .ok (.scalar .float64 ((xs.mapIdx fun i =>
        requantize (blockScale xs (i / q8BlockSize))).map Double.num)) := by
  rw [← dequantizeBlocks_num]
  cases h with
  | float32 =>
    change quantizeQ8 (xs.map Double.num) >>= dequantize = _
    rw [quantizeQ8_num]
    rfl
  | float64 =>
    change quantizeQ8 (xs.map Double.num) >>= dequantize = _
    rw [quantizeQ8_num]
    rfl

theorem error_requantize {d : ℚ} (hd : 0 < d) (x : ℚ) :
    |x - requantize d x| = Int.fract (|x| / d) * d := by
  have hfactor : x - requantize d x = (x / d - Double.truncate (x / d)) * d := by
    rw [requantize, sub_mul, div_mul_cancel₀ x hd.ne']
  rw [hfactor, abs_mul, Double.abs_sub_truncate, abs_div, abs_of_pos hd]

theorem requantize_zero (x : ℚ) : requantize 0 x = 0 := by
  simp [requantize]

theorem error_requantize_le_iff {xs : List ℚ} {x : ℚ} (h : x ∈ xs) :
    |x - requantize (scale xs) x| ≤ scale xs / 2 ↔ Int.fract (|x| / scale xs) ≤ 1 / 2 := by
  rcases (scale_nonneg xs).eq_or_lt with hz | hpos
  · have hx : x = 0 := by
      simpa [← hz] using abs_le_scale h
    simp [← hz, hx, requantize_zero]
  · rw [error_requantize hpos, div_eq_mul_one_div (scale xs), mul_comm (scale xs)]
    exact mul_le_mul_iff_left₀ hpos

def ErrorBounded (xs : List ℚ) (r : Except Exn Tensor) : Prop :=
  ∃ ys : List ℚ, r = .ok (.scalar .float64 (ys.map Double.num)) ∧ ys.length = xs.length ∧
    ∀ (i : Nat) (x y : ℚ), xs[i]? = some x → ys[i]? = some y →
      |x - y| ≤ blockScale xs (i / q8BlockSize) / 2 ∧
        (blockScale xs (i / q8BlockSize) = 0 → y = 0)

def LowFraction (xs : List ℚ) : Prop :=
  ∀ (i : Nat) (x : ℚ), xs[i]? = some x →
    Int.fract (|x| / blockScale xs (i / q8BlockSize)) ≤ 1 / 2

section

variable {xs : List ℚ} {t : Tensor}

theorem error_le_iff_at {i : Nat} {x : ℚ} (hx : xs[i]? = some x) :
    |x - requantize (blockScale xs (i / q8BlockSize)) x| ≤ blockScale xs (i / q8BlockSize) / 2 ↔
      Int.fract (|x| / blockScale xs (i / q8BlockSize)) ≤ 1 / 2 :=
  error_requantize_le_iff (mem_chunk q8BlockSize xs hx (by decide))

theorem lowFraction_of_errorBounded (h : FloatTensor xs t)
    (hb : ErrorBounded xs (t.quantizeQ8_0 >>= dequantize)) : LowFraction xs := by
  rw [dequantize_quantize h] at hb
  obtain ⟨ys, hys, -, hbound⟩ := hb
  have hinj : Function.Injective (List.map Double.num) :=
    List.map_injective_iff.mpr fun _ _ he => Double.num.inj he
  obtain rfl : _ = ys := hinj (by simpa using hys)
  intro i x hx
  exact (error_le_iff_at hx).mp (hbound i x _ hx (by simp [hx])).1

theorem errorBounded_of_lowFraction (h : FloatTensor xs t) (hlow : LowFraction xs) :
    ErrorBounded xs (t.quantizeQ8_0 >>= dequantize) := by
  refine ⟨_, dequantize_quantize h, by simp, ?_⟩
  intro i x y hx hy
  obtain rfl : requantize (blockScale xs (i / q8BlockSize)) x = y := by
    simpa [hx] using hy
  refine ⟨(error_le_iff_at hx).mpr (hlow i x hx), ?_⟩
  intro hz
  rw [hz, requantize_zero]

theorem quantize_error_bounded_iff (h : FloatTensor xs t) :
    ErrorBounded xs (t.quantizeQ8_0 >>= dequantize) ↔ LowFraction xs :=
  ⟨lowFraction_of_errorBounded h, errorBounded_of_lowFraction h⟩

end

theorem blockScale_pair {x y : ℚ} (h : |x| ≤ |y|) : blockScale [y, x] 0 = |y| / 127 := by
  have hchunk : chunk q8BlockSize [y, x] 0 = [y, x] := rfl
  rw [blockScale, hchunk, scale, absMax]
  simp [h]

theorem quantize_error_bounded_pair :
    FloatTensor [127, -3] (.scalar .float32 [.num 127, .num (-3)]) ∧
      ErrorBounded [127, -3]
        ((Tensor.scalar .float32 [.num 127, .num (-3)]).quantizeQ8_0 >>= dequantize) := by
  refine ⟨.float32, (quantize_error_bounded_iff .float32).mpr ?_⟩
  intro i x hx
  have hscale : blockScale [127, -3] 0 = 1 := by
    rw [blockScale_pair (by norm_num)]
    norm_num
  match i with
  | 0 =>
    obtain rfl : 127 = x := by simpa using hx
    change Int.fract (_ / blockScale [127, -3] 0) ≤ _
    norm_num [hscale]
  | 1 =>
    obtain rfl : -3 = x := by simpa using hx
    change Int.fract (_ / blockScale [127, -3] 0) ≤ _
    norm_num [hscale]
  | i + 2 => simp at hx

theorem quantize_error_exceeds :
    ¬ ErrorBounded [127, 3 / 4]
      ((Tensor.scalar .float64 [.num 127, .num (3 / 4)]).quantizeQ8_0 >>= dequantize) := by
  intro h
  have hscale : blockScale [127, 3 / 4] 0 = 1 := by
    rw [blockScale_pair (by norm_num [abs_of_pos])]
    norm_num
  have hlow : Int.fract (|(3 / 4 : ℚ)| / blockScale [127, 3 / 4] 0) ≤ 1 / 2 :=
    lowFraction_of_errorBounded .float64 h 1 (3 / 4) rfl
  have hfract : Int.fract (3 / 4 : ℚ) = 3 / 4 := Int.fract_eq_self.mpr (by norm_num)
  rw [hscale, abs_of_pos (by norm_num), div_one, hfract] at hlow
  norm_num at hlow

end Tensor

end Lark.Column
