import Lark.Base.Chunks
import Lark.Column.Tensor

namespace Lark.Column.Tensor

open Lark.Base

structure QuantBlock where
  d : ℚ
  qs : List Int8
  length : qs.length = q8BlockSize

namespace QuantBlock

def toBlock (b : QuantBlock) : BlockQ8 := ⟨.num b.d, b.qs.map Int8.toInt⟩

def values (b : QuantBlock) : List ℚ := b.qs.map fun q => (q.toInt : ℚ) * b.d

def products (x y : QuantBlock) (k : Nat) : List Int :=
  List.zipWith (fun p q => p.toInt * q.toInt) (x.qs.take k) (y.qs.take k)

end QuantBlock

structure QuantTensor where
  size : Nat
  blocks : List QuantBlock
  covers : blocks.length = numBlocks size

namespace QuantTensor

def toTensor (a : QuantTensor) : Tensor := .q8_0 a.size (a.blocks.map QuantBlock.toBlock)

def values (a : QuantTensor) : List ℚ := (a.blocks.flatMap QuantBlock.values).take a.size

end QuantTensor

def accumulator (x y : BlockQ8) (k : Nat) : Int32 :=
  (List.zipWith (fun p q => Int32.ofInt p * Int32.ofInt q) (x.qs.take k) (y.qs.take k)).foldl
    (· + ·) 0

def used (n b : Nat) : Nat := min q8BlockSize (n - b * q8BlockSize)

theorem dotBlock_accumulator (n b : Nat) (x y : BlockQ8) :
    dotBlock n b x y = x.d * y.d * Double.num (accumulator x y (used n b)).toInt := rfl

section Block

variable (x y : QuantBlock) (k : Nat)

theorem foldl_ofInt (ps : List Int) (s : Int) :
    (ps.map Int32.ofInt).foldl (· + ·) (Int32.ofInt s) = Int32.ofInt (s + ps.sum) := by
  induction ps generalizing s with
  | nil => simp
  | cons p ps ih =>
    rw [List.map_cons, List.foldl_cons, ← Int32.ofInt_add, ih, List.sum_cons, add_assoc]

theorem accumulator_eq :
    accumulator x.toBlock y.toBlock k = Int32.ofInt (x.products y k).sum := by
  have hmap : List.zipWith (fun p q => Int32.ofInt p * Int32.ofInt q) (x.toBlock.qs.take k)
      (y.toBlock.qs.take k) = (x.products y k).map Int32.ofInt := by
    simp only [QuantBlock.toBlock, QuantBlock.products, ← List.map_take, List.zipWith_map,
      List.map_zipWith, Int32.ofInt_mul]
  rw [accumulator, hmap]
  simpa using foldl_ofInt (x.products y k) 0

theorem abs_mul_int8 (p q : Int8) : |p.toInt * q.toInt| ≤ 2 ^ 14 := by
  have hp : |p.toInt| ≤ 2 ^ 7 := abs_le.mpr ⟨p.le_toInt, p.toInt_lt.le⟩
  have hq : |q.toInt| ≤ 2 ^ 7 := abs_le.mpr ⟨q.le_toInt, q.toInt_lt.le⟩
  calc |p.toInt * q.toInt| = |p.toInt| * |q.toInt| := abs_mul _ _
    _ ≤ 2 ^ 7 * 2 ^ 7 := mul_le_mul hp hq (abs_nonneg _) (by norm_num)
    _ = 2 ^ 14 := by norm_num

theorem abs_sum_le {ps : List Int} {c : Int} (h : ∀ p ∈ ps, |p| ≤ c) :
    |ps.sum| ≤ ps.length * c := by
  induction ps with
  | nil => simp
  | cons p ps ih =>
    have hp := h p (by simp)
    have hps := ih fun q hq => h q (by simp [hq])
    rw [List.sum_cons, List.length_cons]
    push_cast
    linarith [abs_add_le p ps.sum]

theorem abs_products_le : |(x.products y k).sum| ≤ 2 ^ 19 := by
  have hlen : (x.products y k).length ≤ q8BlockSize := by
    simp only [QuantBlock.products, List.length_zipWith, List.length_take, x.length]
    omega
  have hmem : ∀ p ∈ x.products y k, |p| ≤ 2 ^ 14 := by
    intro p hp
    rw [QuantBlock.products, List.mem_iff_getElem] at hp
    obtain ⟨i, hi, rfl⟩ := hp
    rw [List.getElem_zipWith]
    exact abs_mul_int8 _ _
  have hlen' : ((x.products y k).length : Int) ≤ 32 := by exact_mod_cast hlen
  linarith [abs_sum_le hmem]

theorem accumulator_exact :
    (accumulator x.toBlock y.toBlock k).toInt = (x.products y k).sum ∧
      -2 ^ 31 ≤ (x.products y k).sum ∧ (x.products y k).sum < 2 ^ 31 := by
  obtain ⟨hlo, hhi⟩ := abs_le.mp (abs_products_le x y k)
  have hrange : -2 ^ 31 ≤ (x.products y k).sum ∧ (x.products y k).sum < 2 ^ 31 := by
    constructor <;> linarith
  exact ⟨by rw [accumulator_eq, Int32.toInt_ofInt_of_le hrange.1 hrange.2], hrange⟩

theorem sum_zipWith_scaled (ps qs : List Int8) (c d : ℚ) :
    (List.zipWith (fun p q => (p.toInt : ℚ) * c * (q.toInt * d)) ps qs).sum =
      c * d * ((List.zipWith (fun p q => p.toInt * q.toInt) ps qs).sum : Int) := by
  induction ps generalizing qs with
  | nil => simp
  | cons p ps ih =>
    cases qs with
    | nil => simp
    | cons q qs =>
      rw [List.zipWith_cons_cons, List.zipWith_cons_cons, List.sum_cons, List.sum_cons, ih]
      push_cast
      ring

theorem dotBlock_num (n b : Nat) :
    dotBlock n b x.toBlock y.toBlock =
      .num (List.zipWith (· * ·) (x.values.take (used n b)) (y.values.take (used n b))).sum := by
  have hvalues : (List.zipWith (· * ·) (x.values.take (used n b)) (y.values.take (used n b))).sum =
      x.d * y.d * ((x.products y (used n b)).sum : Int) := by
    rw [QuantBlock.products, ← sum_zipWith_scaled, QuantBlock.values, QuantBlock.values,
      ← List.map_take, ← List.map_take, List.zipWith_map]
  rw [dotBlock_accumulator, (accumulator_exact x y (used n b)).1, hvalues]
  rfl

end Block

theorem length_values (b : QuantBlock) : b.values.length = q8BlockSize := by
  simp [QuantBlock.values, b.length]

theorem length_blocks_values {bs : List QuantBlock} :
    (bs.flatMap QuantBlock.values).length = bs.length * q8BlockSize := by
  induction bs with
  | nil => simp
  | cons b bs ih =>
    rw [List.flatMap_cons, List.length_append, ih, length_values, List.length_cons, Nat.succ_mul,
      Nat.add_comm]

theorem length_quant_values (a : QuantTensor) : a.values.length = a.size := by
  have hn : a.size ≤ a.blocks.length * q8BlockSize := by
    rw [a.covers, numBlocks, q8BlockSize]
    omega
  rw [QuantTensor.values, List.length_take, length_blocks_values, min_eq_left hn]

theorem flatMap_used (n : Nat) (bs : List QuantBlock) :
    (bs.zipIdx.flatMap fun p => p.1.values.take (used n p.2)) =
      (bs.flatMap QuantBlock.values).take n := by
  have hvalues := flatMap_take_blocks (bs.map QuantBlock.values)
    (by simpa using fun b _ => length_values b) n 0
  rw [List.zipIdx_map, List.flatMap_map, ← List.flatMap_def] at hvalues
  simpa [used] using hvalues

theorem dequantize_quant (a : QuantTensor) :
    a.toTensor.dequantize = .ok (.scalar .float64 (a.values.map Double.num)) := by
  have hblock (p : QuantBlock × Nat) :
      ((p.1.toBlock.qs.take (used a.size p.2)).map
        fun (q : Int) => Double.num q * p.1.toBlock.d) =
          (p.1.values.take (used a.size p.2)).map Double.num := by
    simp only [QuantBlock.toBlock, QuantBlock.values, ← List.map_take, List.map_map]
    rfl
  have hblocks : dequantizeBlocks a.size (a.blocks.map QuantBlock.toBlock) =
      a.blocks.zipIdx.flatMap fun p => (p.1.values.take (used a.size p.2)).map Double.num := by
    rw [dequantizeBlocks, List.take_of_length_le (by simp [a.covers]), List.zipIdx_map,
      List.flatMap_map]
    exact List.flatMap_congr fun p _ => hblock p
  rw [QuantTensor.toTensor, dequantize, hblocks, ← List.map_flatMap, flatMap_used]
  rfl

theorem foldl_dotBlock (n : Nat) (ps : List ((QuantBlock × QuantBlock) × Nat)) (acc : ℚ) :
    ps.foldl (fun acc p => acc + dotBlock n p.2 p.1.1.toBlock p.1.2.toBlock) (.num acc) =
      .num (acc + (List.zipWith (· * ·) (ps.flatMap fun p => p.1.1.values.take (used n p.2))
        (ps.flatMap fun p => p.1.2.values.take (used n p.2))).sum) := by
  induction ps generalizing acc with
  | nil => simp
  | cons p ps ih =>
    have hlen : (p.1.1.values.take (used n p.2)).length =
        (p.1.2.values.take (used n p.2)).length := by
      simp [length_values]
    rw [List.foldl_cons, dotBlock_num, Double.num_add, ih, List.flatMap_cons, List.flatMap_cons,
      List.zipWith_append hlen, List.sum_append, add_assoc]

theorem dotQ8_0_quant {a b : QuantTensor} (h : a.size = b.size) :
    a.toTensor.dotQ8_0 b.toTensor = .ok (.num (List.zipWith (· * ·) a.values b.values).sum) := by
  have hlen : a.blocks.length = b.blocks.length := by rw [a.covers, b.covers, h]
  have hzip : (List.zip (a.blocks.map QuantBlock.toBlock) (b.blocks.map QuantBlock.toBlock)).zipIdx =
      (List.zip a.blocks b.blocks).zipIdx.map fun p => ((p.1.1.toBlock, p.1.2.toBlock), p.2) := by
    rw [List.zip_map, List.zipIdx_map]
    rfl
  have hcovers : (List.zip a.blocks b.blocks).zipIdx.length ≤ numBlocks a.size := by
    simp [a.covers]
  have hleft := flatMap_used a.size ((List.zip a.blocks b.blocks).map Prod.fst)
  have hright := flatMap_used a.size ((List.zip a.blocks b.blocks).map Prod.snd)
  rw [List.zipIdx_map, List.flatMap_map, List.map_fst_zip hlen.le] at hleft
  rw [List.zipIdx_map, List.flatMap_map, List.map_snd_zip hlen.ge] at hright
  have hfold := foldl_dotBlock a.size (List.zip a.blocks b.blocks).zipIdx 0
  simp only [Prod.map, id] at hleft hright
  rw [zero_add, hleft, hright] at hfold
  rw [QuantTensor.toTensor, QuantTensor.toTensor, dotQ8_0, if_neg (not_not.mpr h), hzip,
    List.take_of_length_le (by simpa using hcovers), List.foldl_map]
  refine congrArg Except.ok (hfold.trans ?_)
  rw [QuantTensor.values, QuantTensor.values, h]

theorem dot_equals_plain {a b : QuantTensor} (h : a.size = b.size) :
    a.toTensor.dequantize = .ok (.scalar .float64 (a.values.map Double.num)) ∧
      b.toTensor.dequantize = .ok (.scalar .float64 (b.values.map Double.num)) ∧
      a.values.length = a.size ∧ b.values.length = a.size ∧
      a.toTensor.dotQ8_0 b.toTensor = .ok (.num (List.zipWith (· * ·) a.values b.values).sum) ∧
      ∀ x ∈ a.blocks, ∀ y ∈ b.blocks, ∀ k,
        (accumulator x.toBlock y.toBlock k).toInt = (x.products y k).sum ∧
          -2 ^ 31 ≤ (x.products y k).sum ∧ (x.products y k).sum < 2 ^ 31 := by
  refine ⟨dequantize_quant a, dequantize_quant b, length_quant_values a, ?_, dotQ8_0_quant h, ?_⟩
  · rw [length_quant_values, h]
  · intro x _ y _ k
    exact accumulator_exact x y k

def flatBlock (q : Int8) (d : ℚ) : QuantBlock := ⟨d, List.replicate q8BlockSize q, by simp⟩

def twoBlocks : QuantTensor := ⟨33, [flatBlock 3 2, flatBlock (-5) 1], rfl⟩

theorem dot_equals_plain_partial :
    twoBlocks.size = twoBlocks.size ∧
      twoBlocks.toTensor.dotQ8_0 twoBlocks.toTensor = .ok (.num 1177) := by
  have hsum : (List.zipWith (· * ·) twoBlocks.values twoBlocks.values).sum = 1177 := by
    decide +kernel
  exact ⟨rfl, hsum ▸ (dot_equals_plain (a := twoBlocks) (b := twoBlocks) rfl).2.2.2.2.1⟩

end Lark.Column.Tensor
