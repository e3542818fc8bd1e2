import Lark.Base.Chunks
import Lark.Coro.Batch

namespace Lark.Coro.Batch

open Lark.Base

variable {n batchSize workers : UInt64}

def launched (n batchSize workers : UInt64) : List (UInt64 × UInt64 × UInt64) :=
  (List.range (batches n batchSize workers).toNat).map fun b =>
    let r := range n batchSize workers (.ofNat b)
    (r.1, r.2, .ofNat b)

-- `BatchReduce` counts its slots itself and hands the size it found to `RunBatches`.
def reduceSlots (n batchSize workers : UInt64) : UInt64 :=
  let size := effectiveSize n batchSize workers
  if n = 0 then 0 else (n + size - 1) / size

def spans (n batchSize workers : UInt64) : List (Nat × Nat) :=
  (launched n batchSize workers).map fun l => (l.1.toNat, l.2.1.toNat)

structure Partitioned (n batchSize workers : UInt64) : Prop where
  partitions : Partitions n.toNat (spans n batchSize workers)
  index : (launched n batchSize workers).map (·.2.2.toNat) =
    List.range (launched n batchSize workers).length
  slots : (reduceSlots n batchSize workers).toNat =
    (launched n (effectiveSize n batchSize workers) workers).length
  bounded : batchSize = 0 → (launched n batchSize workers).length ≤ max 1 workers.toNat

def Fits (n batchSize workers : Nat) : Prop :=
  if batchSize = 0 then n ≤ max 1 workers ∨
    n + max 1 workers ≤ 2 ^ 64 ∧ n + (n + max 1 workers - 1) / max 1 workers ≤ 2 ^ 64
  else n = 0 ∨ n + batchSize ≤ 2 ^ 64

instance (n batchSize workers : Nat) : Decidable (Fits n batchSize workers) :=
  inferInstanceAs (Decidable (ite _ _ _))

theorem toNat_pos {x : UInt64} (h : x ≠ 0) : 0 < x.toNat := by
  rw [Nat.pos_iff_ne_zero]
  exact fun hx => h (UInt64.toNat_inj.1 hx)

theorem toNat_ceilDiv {k : UInt64} (hn : n ≠ 0) (hk : k ≠ 0) : ((n + k - 1) / k).toNat =
    if n.toNat + k.toNat ≤ 2 ^ 64 then (n.toNat + k.toNat - 1) / k.toNat else 0 := by
  have hnpos := toNat_pos hn
  have hkpos := toNat_pos hk
  have hn64 := n.toNat_lt
  have hk64 := k.toNat_lt
  have hone : (1 : UInt64).toNat = 1 := rfl
  rw [UInt64.toNat_div, UInt64.toNat_sub, UInt64.toNat_add, hone]
  split_ifs with h
  · have hsum : (2 ^ 64 - 1 + (n.toNat + k.toNat) % 2 ^ 64) % 2 ^ 64 =
        n.toNat + k.toNat - 1 := by omega
    rw [hsum]
  · apply Nat.div_eq_of_lt
    omega

theorem effectiveSize_ne_zero (n batchSize workers : UInt64) :
    effectiveSize n batchSize workers ≠ 0 := by
  have hcases : ∀ size : UInt64, (if size = 0 then 1 else size) ≠ 0 := by
    intro size
    split_ifs with h
    · decide
    · exact h
  exact hcases _

theorem effectiveSize_twice (n batchSize workers : UInt64) :
    effectiveSize n (effectiveSize n batchSize workers) workers =
      effectiveSize n batchSize workers := by
  have h := effectiveSize_ne_zero n batchSize workers
  generalize effectiveSize n batchSize workers = size at h
  simp [effectiveSize, h]

theorem length_launched : (launched n batchSize workers).length =
    (batches n batchSize workers).toNat := by
  simp [launched]

theorem toNat_batches (batchSize workers : UInt64) (hn : n ≠ 0) :
    (batches n batchSize workers).toNat =
      if n.toNat + (effectiveSize n batchSize workers).toNat ≤ 2 ^ 64 then
        (n.toNat + (effectiveSize n batchSize workers).toNat - 1) /
          (effectiveSize n batchSize workers).toNat
      else 0 := by
  rw [batches, if_neg hn, toNat_ceilDiv hn (effectiveSize_ne_zero _ _ _)]

theorem toNat_range {b : Nat} (hb : b < (batches n batchSize workers).toNat) (hn : n ≠ 0) :
    ((range n batchSize workers (.ofNat b)).1.toNat,
      (range n batchSize workers (.ofNat b)).2.toNat) =
        span (effectiveSize n batchSize workers).toNat n.toNat b := by
  have hpos := toNat_pos (effectiveSize_ne_zero n batchSize workers)
  rw [toNat_batches _ _ hn] at hb
  split_ifs at hb with hfits
  · have hbegin := (lt_ceilDiv hpos _ _).1 hb
    have hn64 := n.toNat_lt
    have hle : b ≤ b * (effectiveSize n batchSize workers).toNat := Nat.le_mul_of_pos_right b hpos
    have hindex : (UInt64.ofNat b).toNat = b := by
      rw [UInt64.toNat_ofNat', Nat.mod_eq_of_lt (by omega)]
    simp only [range, span, UInt64.toNat_min, UInt64.toNat_add, UInt64.toNat_mul, hindex]
    rw [Nat.mod_eq_of_lt (by omega : b * (effectiveSize n batchSize workers).toNat < 2 ^ 64)]
    congr 1
    omega
  · omega

theorem spans_eq (hn : n ≠ 0) : spans n batchSize workers =
    (List.range (batches n batchSize workers).toNat).map
      (span (effectiveSize n batchSize workers).toNat n.toNat) := by
  rw [spans, launched, List.map_map]
  apply List.map_congr_left
  intro b hb
  exact toNat_range (List.mem_range.1 hb) hn

theorem spans_nil (hb : (batches n batchSize workers).toNat = 0) : spans n batchSize workers = [] := by
  simp [spans, launched, hb]

theorem partitions_spans_iff : Partitions n.toNat (spans n batchSize workers) ↔
    n = 0 ∨ n.toNat + (effectiveSize n batchSize workers).toNat ≤ 2 ^ 64 := by
  rcases eq_or_ne n 0 with rfl | hn
  · have hnil : spans 0 batchSize workers = [] := spans_nil (by simp [batches])
    have hempty := partitions_span Nat.one_pos 0
    simpa [hnil] using hempty
  · have hcount := toNat_batches batchSize workers hn
    simp only [hn, false_or]
    constructor
    · intro h
      by_contra hwraps
      rw [if_neg hwraps] at hcount
      obtain ⟨r, hr, -⟩ := (h.covers 0).2 (toNat_pos hn)
      simp [spans_nil hcount] at hr
    · intro hfits
      rw [if_pos hfits] at hcount
      rw [spans_eq hn, hcount]
      exact partitions_span (toNat_pos (effectiveSize_ne_zero _ _ _)) _

theorem index_launched : (launched n batchSize workers).map (·.2.2.toNat) =
    List.range (launched n batchSize workers).length := by
  have h64 := (batches n batchSize workers).toNat_lt
  rw [length_launched, launched, List.map_map]
  conv_rhs => rw [← List.map_id (List.range _)]
  apply List.map_congr_left
  intro b hb
  have hlt := List.mem_range.1 hb
  simp only [Function.comp_apply, UInt64.toNat_ofNat', id_eq]
  exact Nat.mod_eq_of_lt (hlt.trans h64)

theorem slots_eq : (reduceSlots n batchSize workers).toNat =
    (launched n (effectiveSize n batchSize workers) workers).length := by
  rw [length_launched, batches, effectiveSize_twice, reduceSlots]

def workersUsed (workers : UInt64) : UInt64 := if workers = 0 then 1 else workers

theorem toNat_workersUsed (workers : UInt64) : (workersUsed workers).toNat = max 1 workers.toNat := by
  rw [workersUsed]
  split_ifs with h
  · simp [h]
  · have hpos := toNat_pos h
    omega

-- What the default size comes to: one element a batch, also when its own ceiling division wraps.
theorem toNat_defaultSize (workers : UInt64) (hn : n ≠ 0) :
    (effectiveSize n 0 workers).toNat =
      if n.toNat ≤ max 1 workers.toNat ∨ 2 ^ 64 < n.toNat + max 1 workers.toNat then 1
      else (n.toNat + max 1 workers.toNat - 1) / max 1 workers.toNat := by
  have hused := toNat_workersUsed workers
  have hne : workersUsed workers ≠ 0 := by
    rw [workersUsed]
    split_ifs with h
    · decide
    · exact h
  have hdefault : defaultBatchSize n workers = if n ≤ workersUsed workers then 1
      else (n + workersUsed workers - 1) / workersUsed workers := rfl
  have heff : effectiveSize n 0 workers = if defaultBatchSize n workers = 0 then 1
      else defaultBatchSize n workers := rfl
  have hiff : n ≤ workersUsed workers ↔ n.toNat ≤ max 1 workers.toNat := by
    rw [UInt64.le_iff_toNat_le, hused]
  rw [heff, hdefault]
  by_cases hle : n.toNat ≤ max 1 workers.toNat
  · simp [hiff, hle]
  · have hceil := toNat_ceilDiv hn hne
    rw [hused] at hceil
    rw [if_neg (mt hiff.1 hle)]
    simp only [hle, false_or]
    by_cases hwraps : 2 ^ 64 < n.toNat + max 1 workers.toNat
    · rw [if_neg (by omega)] at hceil
      have hzero : (n + workersUsed workers - 1) / workersUsed workers = 0 :=
        UInt64.toNat_inj.1 hceil
      rw [if_pos hzero, if_pos hwraps]
      rfl
    · rw [if_pos (by omega)] at hceil
      have hpos : 0 < (n.toNat + max 1 workers.toNat - 1) / max 1 workers.toNat :=
        Nat.div_pos (by omega) (by omega)
      have hzero : (n + workersUsed workers - 1) / workersUsed workers ≠ 0 := by
        intro h
        rw [h] at hceil
        simp only [UInt64.toNat_zero] at hceil
        omega
      rw [if_neg hzero, hceil, if_neg hwraps]

theorem bounded_iff (hn : n ≠ 0) (hfits : n.toNat + (effectiveSize n 0 workers).toNat ≤ 2 ^ 64) :
    (launched n 0 workers).length ≤ max 1 workers.toNat ↔
      n.toNat ≤ max 1 workers.toNat ∨ n.toNat + max 1 workers.toNat ≤ 2 ^ 64 := by
  have hsize := toNat_defaultSize workers hn
  have hpos := toNat_pos (effectiveSize_ne_zero n 0 workers)
  rw [length_launched, toNat_batches _ _ hn, if_pos hfits, ceilDiv_le_iff hpos]
  by_cases hle : n.toNat ≤ max 1 workers.toNat
  · rw [if_pos (.inl hle)] at hsize
    simp [hsize, hle]
  · by_cases hwraps : 2 ^ 64 < n.toNat + max 1 workers.toNat
    · rw [if_pos (.inr hwraps)] at hsize
      rw [hsize]
      omega
    · rw [if_neg (by omega)] at hsize
      have hcover : n.toNat ≤ max 1 workers.toNat * (effectiveSize n 0 workers).toNat := by
        rw [hsize, Nat.mul_comm, ← ceilDiv_le_iff (by omega)]
      simp only [hcover, true_iff]
      exact .inr (by omega)

theorem batches_partition_iff : Partitioned n batchSize workers ↔
    Fits n.toNat batchSize.toNat workers.toNat := by
  have hzero : batchSize.toNat = 0 ↔ batchSize = 0 := by
    rw [← UInt64.toNat_inj]
    rfl
  have hn0 : n = 0 ↔ n.toNat = 0 := by
    rw [← UInt64.toNat_inj]
    rfl
  have hsplit : Partitioned n batchSize workers ↔
      (n = 0 ∨ n.toNat + (effectiveSize n batchSize workers).toNat ≤ 2 ^ 64) ∧
        (batchSize = 0 → (launched n batchSize workers).length ≤ max 1 workers.toNat) := by
    rw [← partitions_spans_iff]
    exact ⟨fun h => ⟨h.partitions, h.bounded⟩, fun h => ⟨h.1, index_launched, slots_eq, h.2⟩⟩
  rw [hsplit, Fits]
  rcases eq_or_ne batchSize 0 with rfl | hsize
  · rcases eq_or_ne n 0 with rfl | hn
    · simp [length_launched, batches]
    · have hone := toNat_pos hn
      have hdefault := toNat_defaultSize workers hn
      simp only [hn, false_or, forall_const, if_pos (hzero.2 rfl)]
      constructor
      · rintro ⟨hfits, hbounded⟩
        rcases Nat.lt_or_ge (max 1 workers.toNat) n.toNat with hgt | hle
        · have hsum := ((bounded_iff hn hfits).1 hbounded).resolve_left (by omega)
          rw [hdefault, if_neg (by omega)] at hfits
          exact .inr ⟨hsum, hfits⟩
        · exact .inl hle
      · intro h
        have hfits : n.toNat + (effectiveSize n 0 workers).toNat ≤ 2 ^ 64 := by
          rw [hdefault]
          split_ifs with hcase
          · have h64 := n.toNat_lt
            omega
          · exact (h.resolve_left (by omega)).2
        exact ⟨hfits, (bounded_iff hn hfits).2 (h.imp_right And.left)⟩
  · have heff : effectiveSize n batchSize workers = batchSize := by simp [effectiveSize, hsize]
    simp only [hsize, heff, if_neg (mt hzero.1 hsize), false_implies, and_true, hn0]

theorem batches_skip_elements : launched 5 (.ofNat (2 ^ 64 - 1)) 1 = [] ∧
    ¬ Partitioned 5 (.ofNat (2 ^ 64 - 1)) 1 := by
  refine ⟨by decide, fun h => ?_⟩
  rcases partitions_spans_iff.1 h.partitions with hzero | hfits
  · exact absurd hzero (by decide)
  · exact absurd hfits (by decide)

end Lark.Coro.Batch
