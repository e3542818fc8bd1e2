import Mathlib.Data.List.Basic
import Mathlib.Tactic

namespace Lark.Base

variable {α β : Type}

def chunk (k : Nat) (xs : List α) (b : Nat) : List α := (xs.drop (b * k)).take k

theorem length_chunk (k : Nat) (xs : List α) (b : Nat) :
    (chunk k xs b).length = min k (xs.length - b * k) := by
  simp [chunk]

theorem mem_chunk (k : Nat) (xs : List α) {i : Nat} {x : α} (h : xs[i]? = some x) (hk : 0 < k) :
    x ∈ chunk k xs (i / k) := by
  apply List.mem_of_getElem? (i := i % k)
  rw [chunk, List.getElem?_take_of_lt (Nat.mod_lt i hk), List.getElem?_drop,
    Nat.div_add_mod' i k]
  exact h

theorem flatMap_chunk (k : Nat) (g : Nat → α → β) (xs : List α) (n : Nat) :
    (List.range n).flatMap (fun b => (chunk k xs b).map (g b)) =
      (xs.take (n * k)).mapIdx fun i => g (i / k) := by
  induction n with
  | zero => simp
  | succ n ih =>
    rw [Nat.succ_mul, List.take_add, List.mapIdx_append, List.range_succ, List.flatMap_append, ih,
      List.flatMap_singleton]
    congr 1
    apply List.ext_getElem
    · simp [chunk]
    · intro i hi _
      have hlen : i < k ∧ i < xs.length - n * k := by
        simpa [chunk] using hi
      have hdiv : (i + min (n * k) xs.length) / k = n := by
        rw [min_eq_left (by omega), Nat.add_mul_div_right i n (by omega),
          Nat.div_eq_of_lt hlen.1, Nat.zero_add]
      simp [chunk, hdiv]

theorem flatMap_chunk_all (k : Nat) (g : Nat → α → β) (xs : List α) {n : Nat}
    (h : xs.length ≤ n * k) :
    (List.range n).flatMap (fun b => (chunk k xs b).map (g b)) =
      xs.mapIdx fun i => g (i / k) := by
  rw [flatMap_chunk, List.take_of_length_le h]

theorem flatMap_take_blocks {k : Nat} (ls : List (List α)) (h : ∀ l ∈ ls, l.length = k)
    (n m : Nat) :
    ((ls.zipIdx m).flatMap fun p => p.1.take (min k (n - p.2 * k))) =
      ls.flatten.take (n - m * k) := by
  induction ls generalizing m with
  | nil => simp
  | cons l ls ih =>
    have hl := h l (by simp)
    rw [List.zipIdx_cons, List.flatMap_cons, ih (fun l' hl' => h l' (by simp [hl'])),
      List.flatten_cons, List.take_append, hl, Nat.succ_mul, ← Nat.sub_sub]
    congr 1
    rcases Nat.le_total k (n - m * k) with hk | hk
    · rw [min_eq_left hk, List.take_of_length_le hl.le, List.take_of_length_le (hl.le.trans hk)]
    · rw [min_eq_right hk]

structure Partitions (n : Nat) (spans : List (Nat × Nat)) : Prop where
  nonempty : ∀ r ∈ spans, r.1 < r.2
  consecutive : spans.IsChain fun r r' => r.2 = r'.1
  disjoint : spans.Pairwise fun r r' => r.2 ≤ r'.1
  covers : ∀ i, (∃ r ∈ spans, r.1 ≤ i ∧ i < r.2) ↔ i < n

def span (k n b : Nat) : Nat × Nat := (b * k, min (b * k + k) n)

theorem lt_ceilDiv {k : Nat} (hk : 0 < k) (n b : Nat) : b < (n + k - 1) / k ↔ b * k < n := by
  rw [Nat.lt_iff_add_one_le, Nat.le_div_iff_mul_le hk, Nat.add_mul, Nat.one_mul]
  omega

theorem ceilDiv_le_iff {k : Nat} (hk : 0 < k) (n m : Nat) : (n + k - 1) / k ≤ m ↔ n ≤ m * k := by
  rw [← not_lt, lt_ceilDiv hk, not_lt]

theorem partitions_span {k : Nat} (hk : 0 < k) (n : Nat) :
    Partitions n ((List.range ((n + k - 1) / k)).map (span k n)) := by
  have hbegin : ∀ b ∈ List.range ((n + k - 1) / k), b * k < n := by
    intro b hb
    exact (lt_ceilDiv hk n b).1 (List.mem_range.1 hb)
  refine ⟨?_, ?_, ?_, fun i => ⟨?_, fun hi => ?_⟩⟩
  · intro r hr
    obtain ⟨b, hb, rfl⟩ := List.mem_map.1 hr
    have hlt := hbegin b hb
    simp only [span, lt_min_iff]
    omega
  · rw [List.isChain_map, List.isChain_range]
    intro b hb
    have hnext : (b + 1) * k < n := (lt_ceilDiv hk n (b + 1)).1 (by omega)
    rw [Nat.add_mul, Nat.one_mul] at hnext
    simp only [span, Nat.succ_eq_add_one, Nat.add_mul, Nat.one_mul]
    exact min_eq_left hnext.le
  · rw [List.pairwise_map]
    refine List.pairwise_lt_range.imp fun {a b} hab => ?_
    have hmul : (a + 1) * k ≤ b * k := Nat.mul_le_mul_right k hab
    rw [Nat.add_mul, Nat.one_mul] at hmul
    exact (min_le_left _ _).trans hmul
  · rintro ⟨r, hr, -, hi⟩
    obtain ⟨b, -, rfl⟩ := List.mem_map.1 hr
    exact hi.trans_le (min_le_right _ _)
  · have hdiv : i / k * k ≤ i := Nat.div_mul_le_self i k
    have hmod : i < i / k * k + k := Nat.lt_div_mul_add hk
    refine ⟨span k n (i / k), List.mem_map_of_mem (List.mem_range.2 ?_), hdiv, lt_min hmod hi⟩
    exact (lt_ceilDiv hk n (i / k)).2 (hdiv.trans_lt hi)

section Folds

variable {fn : β → α → β} {combine : β → β → β} {init : β}

def chunkFold (fn : β → α → β) (combine : β → β → β) (init : β) (k : Nat) (xs : List α)
    (m : Nat) : β :=
  (List.range m).foldl (fun acc b => combine acc ((chunk k xs b).foldl fn init)) init

-- For what fewer than `n` elements fold to, a second `init` does not count.
def Absorbs (fn : β → α → β) (combine : β → β → β) (init : β) (n : Nat) : Prop :=
  ∀ (pre : List α) (x : α), pre.length < n →
    combine (pre.foldl fn init) (fn init x) = fn (pre.foldl fn init) x

theorem combine_foldl (h : ∀ a b x, fn (combine a b) x = combine a (fn b x)) (a b : β)
    (xs : List α) : combine a (xs.foldl fn b) = xs.foldl fn (combine a b) := by
  induction xs generalizing b with
  | nil => rfl
  | cons x xs ih => rw [List.foldl_cons, List.foldl_cons, ih, h]

theorem Absorbs.foldl {n : Nat} (habs : Absorbs fn combine init n)
    (h : ∀ a b x, fn (combine a b) x = combine a (fn b x)) {pre xs : List α}
    (hn : pre.length < n) (hne : xs ≠ []) :
    combine (pre.foldl fn init) (xs.foldl fn init) = (pre ++ xs).foldl fn init := by
  obtain ⟨x, xs, rfl⟩ := List.exists_cons_of_ne_nil hne
  rw [List.foldl_cons, combine_foldl h, habs pre x hn, List.foldl_append, List.foldl_cons]

theorem chunkFold_succ (k : Nat) (xs : List α) (m : Nat) :
    chunkFold fn combine init k xs (m + 1) =
      combine (chunkFold fn combine init k xs m) ((chunk k xs m).foldl fn init) := by
  rw [chunkFold, List.range_succ, List.foldl_append]
  rfl

theorem chunkFold_eq {n k : Nat} (habs : Absorbs fn combine init n)
    (h : ∀ a b x, fn (combine a b) x = combine a (fn b x)) (hk : 0 < k) {xs : List α}
    (hn : xs.length ≤ n) {m : Nat} (hm : ∀ b < m, b * k < xs.length) :
    chunkFold fn combine init k xs m = (xs.take (m * k)).foldl fn init := by
  induction m with
  | zero => simp [chunkFold]
  | succ m ih =>
    have hlast := hm m (Nat.lt_succ_self m)
    have hne : chunk k xs m ≠ [] := by
      rw [← List.length_pos_iff_ne_nil, length_chunk]
      omega
    have hpre : (xs.take (m * k)).length < n := by
      rw [List.length_take]
      omega
    rw [chunkFold_succ, ih fun b hb => hm b (hb.trans (Nat.lt_succ_self m)),
      habs.foldl h hpre hne, Nat.succ_mul, List.take_add, chunk]

theorem chunkFold_concat (xs : List α) (x : α) :
    chunkFold fn combine init 1 (xs ++ [x]) (xs.length + 1) =
      combine (chunkFold fn combine init 1 xs xs.length) (fn init x) := by
  have hlast : chunk 1 (xs ++ [x]) xs.length = [x] := by simp [chunk]
  have hsame : chunkFold fn combine init 1 (xs ++ [x]) xs.length =
      chunkFold fn combine init 1 xs xs.length := by
    refine List.foldl_ext _ _ _ fun acc b hb => ?_
    have hlt := List.mem_range.1 hb
    have hchunk : chunk 1 (xs ++ [x]) b = chunk 1 xs b := by
      rw [chunk, chunk, Nat.mul_one, List.drop_append_of_le_length hlt.le,
        List.take_append_of_le_length]
      rw [List.length_drop]
      omega
    rw [hchunk]
  rw [chunkFold_succ, hsame, hlast, List.foldl_cons, List.foldl_nil]

theorem absorbs_of_singles {n : Nat} (h : ∀ xs : List α, xs.length ≤ n →
    chunkFold fn combine init 1 xs xs.length = xs.foldl fn init) :
    Absorbs fn combine init n := by
  intro pre x hn
  have hpre := h pre hn.le
  have hlong := h (pre ++ [x]) (by simpa using hn)
  rw [List.length_append, List.length_singleton, chunkFold_concat, hpre, List.foldl_append] at hlong
  exact hlong

end Folds

end Lark.Base
