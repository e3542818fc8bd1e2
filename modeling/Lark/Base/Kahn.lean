import Mathlib.Data.Fintype.Card
import Mathlib.Logic.Relation
import Mathlib.Order.WellFounded
import Mathlib.Tactic

namespace Lark.Base.Kahn

open Relation

variable {α : Type}

def DependsOn (deps : α → List α) (x d : α) : Prop := d ∈ deps x

def Acyclic (deps : α → List α) : Prop := ∀ x, ¬ TransGen (DependsOn deps) x x

def Ordered (deps : α → List α) (topo : List α) : Prop :=
  ∀ pre x post, topo = pre ++ x :: post → ∀ d ∈ deps x, d ∈ pre

theorem ordered_snoc {deps : α → List α} {topo : List α} {x : α} (h : Ordered deps topo)
    (hx : ∀ d ∈ deps x, d ∈ topo) : Ordered deps (topo ++ [x]) := by
  intro pre y post he d hd
  rcases List.eq_nil_or_concat post with rfl | ⟨post', z, rfl⟩
  · obtain ⟨rfl, hy⟩ := List.append_inj' he rfl
    obtain rfl : x = y := by simpa using hy
    exact hx d hd
  · have he' : topo ++ [x] = (pre ++ y :: post') ++ [z] := by simpa using he
    obtain ⟨rfl, -⟩ := List.append_inj' he' rfl
    exact h pre y post' rfl d hd

theorem ordered_before {deps : α → List α} {topo : List α} (h : Ordered deps topo) {x y : α}
    (hxy : TransGen (DependsOn deps) x y) (hx : x ∈ topo) :
    ∃ pre post, topo = pre ++ x :: post ∧ y ∈ pre := by
  induction hxy with
  | single hd =>
    obtain ⟨pre, post, rfl⟩ := List.append_of_mem hx
    exact ⟨pre, post, rfl, h pre _ post rfl _ hd⟩
  | tail _ hd ih =>
    obtain ⟨pre, post, rfl, hy⟩ := ih
    obtain ⟨pre', mid, rfl⟩ := List.append_of_mem hy
    refine ⟨_, post, rfl, ?_⟩
    have := h pre' _ (mid ++ x :: post) (by simp) _ hd
    simp [this]

variable [DecidableEq α]

def outs (nodes : List α) (deps : α → List α) (x : α) : List α :=
  nodes.flatMap fun y => ((deps y).filter (· = x)).map fun _ => y

def release (indegree : α → Nat) (ready : List α) : List α → (α → Nat) × List α
  | [] => (indegree, ready)
  | y :: ys =>
    let d := indegree y - 1
    release (Function.update indegree y d) (if d = 0 then ready ++ [y] else ready) ys

def loop (nodes : List α) (deps : α → List α) : Nat → (α → Nat) → List α → List α → List α
  | 0, _, _, topo => topo
  | _ + 1, _, [], topo => topo
  | fuel + 1, indegree, x :: ready, topo =>
    let (indegree, ready) := release indegree ready (outs nodes deps x)
    loop nodes deps fuel indegree ready (topo ++ [x])

def sort (nodes : List α) (deps : α → List α) : List α :=
  loop nodes deps nodes.length (fun x => (deps x).length)
    (nodes.filter fun x => (deps x).length = 0) []

structure Closed (nodes : List α) (deps : α → List α) : Prop where
  nodes_nodup : nodes.Nodup
  deps_mem : ∀ x, ∀ d ∈ deps x, d ∈ nodes
  mem_of_deps : ∀ x, deps x ≠ [] → x ∈ nodes

section

variable {nodes : List α} {deps : α → List α}

theorem mem_outs {x y : α} : y ∈ outs nodes deps x ↔ y ∈ nodes ∧ x ∈ deps y := by
  simp only [outs, List.mem_flatMap, List.mem_map, List.mem_filter, decide_eq_true_eq]
  constructor
  · rintro ⟨z, hz, d, ⟨hd, rfl⟩, rfl⟩
    exact ⟨hz, hd⟩
  · rintro ⟨hy, hx⟩
    exact ⟨y, hy, x, ⟨hx, rfl⟩, rfl⟩

theorem count_outs (h : nodes.Nodup) {x y : α} (hy : y ∈ nodes) :
    (outs nodes deps x).count y = (deps y).count x := by
  induction nodes with
  | nil => cases hy
  | cons z nodes ih =>
    obtain ⟨hz, hnodes⟩ := List.nodup_cons.1 h
    have hcons : outs (z :: nodes) deps x =
        (((deps z).filter (· = x)).map fun _ => z) ++ outs nodes deps x := rfl
    rw [hcons, List.count_append]
    rcases List.mem_cons.1 hy with rfl | hmem
    · have hrest : (outs nodes deps x).count y = 0 :=
        List.count_eq_zero.2 fun hm => hz (mem_outs.1 hm).1
      rw [hrest, List.map_const', List.count_replicate_self, List.count_eq_length_filter]
      rfl
    · have hne : z ≠ y := by
        rintro rfl
        exact hz hmem
      rw [ih hnodes hmem, List.map_const', List.count_replicate]
      simp [hne]

theorem release_spec {ys : List α} {indegree : α → Nat} (h : ∀ y, ys.count y ≤ indegree y)
    (ready : List α) :
    (∀ x, (release indegree ready ys).1 x = indegree x - ys.count x) ∧
      ∃ new, (release indegree ready ys).2 = ready ++ new ∧ new.Nodup ∧
        ∀ y, y ∈ new ↔ y ∈ ys ∧ indegree y = ys.count y := by
  induction ys generalizing indegree ready with
  | nil => exact ⟨by simp [release], [], by simp [release], by simp, by simp⟩
  | cons z ys ih =>
    have hz : ys.count z + 1 ≤ indegree z := by simpa using h z
    have hys : ∀ y, ys.count y ≤ Function.update indegree z (indegree z - 1) y := by
      intro y
      rcases eq_or_ne y z with rfl | hne
      · rw [Function.update_self]
        omega
      · simpa [hne, hne.symm] using h y
    obtain ⟨hcount, new, hready, hnodup, hmem⟩ :=
      ih hys (if indegree z - 1 = 0 then ready ++ [z] else ready)
    refine ⟨fun x => ?_, ?_⟩
    · simp only [release]
      rw [hcount x]
      rcases eq_or_ne x z with rfl | hne
      · simp only [Function.update_self, List.count_cons_self]
        omega
      · simp [hne, hne.symm]
    · by_cases hd : indegree z - 1 = 0
      · have hone : indegree z = 1 ∧ ys.count z = 0 := by omega
        have hzys : z ∉ ys := List.count_eq_zero.1 hone.2
        refine ⟨z :: new, ?_, ?_, fun y => ?_⟩
        · simp only [release]
          rw [hready, if_pos hd]
          simp
        · refine List.nodup_cons.2 ⟨fun hm => ?_, hnodup⟩
          exact hzys ((hmem z).1 hm).1
        · rw [List.mem_cons, hmem]
          rcases eq_or_ne y z with rfl | hne
          · simp [hone.1, hone.2]
          · simp [hne, hne.symm]
      · refine ⟨new, ?_, hnodup, fun y => ?_⟩
        · simp only [release]
          rw [hready, if_neg hd]
        · rw [hmem]
          rcases eq_or_ne y z with rfl | hne
          · have hiff : indegree y - 1 = ys.count y ↔ indegree y = ys.count y + 1 := by omega
            have hpos : indegree y = ys.count y + 1 → y ∈ ys := by
              intro he
              exact List.count_pos_iff.1 (by omega)
            simpa [hiff] using hpos
          · simp [hne, hne.symm]

structure Inv (nodes : List α) (deps : α → List α) (indegree : α → Nat) (ready topo : List α) :
    Prop where
  nodup : (topo ++ ready).Nodup
  mem : ∀ x ∈ topo ++ ready, x ∈ nodes
  count : ∀ x ∈ nodes, indegree x = ((deps x).filter (· ∉ topo)).length
  ready_iff : ∀ x ∈ nodes, x ∈ topo ++ ready ↔ ∀ d ∈ deps x, d ∈ topo
  ordered : Ordered deps topo

theorem inv_start (h : Closed nodes deps) :
    Inv nodes deps (fun x => (deps x).length) (nodes.filter fun x => (deps x).length = 0) [] where
  nodup := by simpa using h.nodes_nodup.filter _
  mem := by
    intro x hx
    have hx' : x ∈ nodes ∧ deps x = [] := by simpa using hx
    exact hx'.1
  count := by simp
  ready_iff := by
    intro x hx
    simp [hx, List.eq_nil_iff_forall_not_mem]
  ordered := by
    intro pre x post he
    simp at he

theorem filter_snoc_length {ds topo : List α} {x : α} (hnt : x ∉ topo) :
    (ds.filter (· ∉ topo ++ [x])).length = (ds.filter (· ∉ topo)).length - ds.count x := by
  induction ds with
  | nil => rfl
  | cons d ds ih =>
    have hle : ds.count x ≤ (ds.filter (· ∉ topo)).length := by
      rw [List.count_eq_length_filter]
      refine List.Sublist.length_le (List.monotone_filter_right ds fun z hz => ?_)
      obtain rfl : z = x := by simpa using hz
      simpa using hnt
    rcases eq_or_ne d x with rfl | hne
    · rw [List.filter_cons_of_neg (by simp), List.filter_cons_of_pos (by simpa using hnt),
        List.length_cons, List.count_cons_self, ih]
      omega
    · by_cases hd : d ∈ topo
      · simpa [hd, hne, List.count_cons_of_ne hne] using ih
      · have hnot : d ∉ topo ++ [x] := by simp [hd, hne]
        rw [List.filter_cons_of_pos (by simpa using hnot),
          List.filter_cons_of_pos (by simpa using hd), List.length_cons, List.length_cons, ih,
          List.count_cons_of_ne hne]
        omega

theorem count_outs_le (h : Closed nodes deps) {indegree : α → Nat} {x : α} {ready topo : List α}
    (hi : Inv nodes deps indegree (x :: ready) topo) (y : α) :
    (outs nodes deps x).count y ≤ indegree y := by
  have hxt : x ∉ topo := by
    intro hx
    exact (List.nodup_append.1 hi.nodup).2.2 x hx x (by simp) rfl
  by_cases hy : y ∈ nodes
  · rw [count_outs h.nodes_nodup hy, hi.count y hy, List.count_eq_length_filter]
    refine List.Sublist.length_le (List.monotone_filter_right _ fun z hz => ?_)
    obtain rfl : z = x := by simpa using hz
    simpa using hxt
  · rw [List.count_eq_zero.2 fun hm => hy (mem_outs.1 hm).1]
    exact Nat.zero_le _

theorem inv_step (h : Closed nodes deps) {indegree : α → Nat} {x : α} {ready topo : List α}
    (hi : Inv nodes deps indegree (x :: ready) topo) :
    Inv nodes deps (release indegree ready (outs nodes deps x)).1
      (release indegree ready (outs nodes deps x)).2 (topo ++ [x]) := by
  obtain ⟨hcount, new, hready, hnodup, hmem⟩ := release_spec (count_outs_le h hi) ready
  have hxt : x ∉ topo := by
    intro hx
    exact (List.nodup_append.1 hi.nodup).2.2 x hx x (by simp) rfl
  have hxn : x ∈ nodes := hi.mem x (by simp)
  have hdeps : ∀ d ∈ deps x, d ∈ topo := (hi.ready_iff x hxn).1 (by simp)
  have hindegree : ∀ y ∈ nodes, indegree y - (deps y).count x =
      ((deps y).filter (· ∉ topo ++ [x])).length := by
    intro y hy
    rw [hi.count y hy, filter_snoc_length hxt]
  have hnew : ∀ y ∈ nodes, x ∈ deps y → (y ∈ new ↔ ∀ d ∈ deps y, d ∈ topo ++ [x]) := by
    intro y hy hxy
    have hle := count_outs_le h hi y
    rw [count_outs h.nodes_nodup hy] at hle
    have hzero : indegree y = (deps y).count x ↔ indegree y - (deps y).count x = 0 := by omega
    rw [hmem, mem_outs, count_outs h.nodes_nodup hy, hzero, hindegree y hy,
      List.length_eq_zero_iff, List.filter_eq_nil_iff]
    simp [hy, hxy, or_iff_not_imp_left]
  have hold : ∀ y ∈ nodes, x ∈ deps y → y ∉ topo ++ x :: ready := by
    intro y hy hxy hmem
    exact hxt ((hi.ready_iff y hy).1 hmem x hxy)
  have hsplit : topo ++ [x] ++ (ready ++ new) = (topo ++ x :: ready) ++ new := by simp
  rw [hready]
  refine ⟨?_, ?_, ?_, ?_, ordered_snoc hi.ordered hdeps⟩
  · rw [hsplit]
    refine List.nodup_append.2 ⟨hi.nodup, hnodup, ?_⟩
    rintro y hy z hz rfl
    obtain ⟨hyn, hxy⟩ := mem_outs.1 ((hmem y).1 hz).1
    exact hold y hyn hxy hy
  · intro y hy
    rw [hsplit, List.mem_append] at hy
    rcases hy with hy | hy
    · exact hi.mem y hy
    · exact (mem_outs.1 ((hmem y).1 hy).1).1
  · intro y hy
    rw [hcount y, count_outs h.nodes_nodup hy, hindegree y hy]
  · intro y hy
    rw [hsplit, List.mem_append]
    by_cases hxy : x ∈ deps y
    · rw [hnew y hy hxy]
      exact or_iff_right (hold y hy hxy)
    · have hnot : y ∉ new := fun hm => hxy (mem_outs.1 ((hmem y).1 hm).1).2
      rw [or_iff_left hnot, hi.ready_iff y hy]
      refine forall₂_congr fun d hd => ?_
      have hne : d ≠ x := by
        rintro rfl
        exact hxy hd
      simp [hne]

structure Sorted (nodes : List α) (deps : α → List α) (topo : List α) : Prop where
  nodup : topo.Nodup
  mem : ∀ x ∈ topo, x ∈ nodes
  ordered : Ordered deps topo
  closed : ∀ x ∈ nodes, (∀ d ∈ deps x, d ∈ topo) → x ∈ topo

theorem inv_done {indegree : α → Nat} {topo : List α} (hi : Inv nodes deps indegree [] topo) :
    Sorted nodes deps topo where
  nodup := by simpa using hi.nodup
  mem := by simpa using hi.mem
  ordered := hi.ordered
  closed := fun x hx hd => by simpa using (hi.ready_iff x hx).2 hd

theorem loop_sorted (h : Closed nodes deps) {fuel : Nat} {indegree : α → Nat} {ready topo : List α}
    (hi : Inv nodes deps indegree ready topo) (hf : nodes.length ≤ fuel + topo.length) :
    Sorted nodes deps (loop nodes deps fuel indegree ready topo) := by
  induction fuel generalizing indegree ready topo with
  | zero =>
    have hlen : (topo ++ ready).length ≤ nodes.length := (hi.nodup.subperm hi.mem).length_le
    obtain rfl : ready = [] := by
      rw [List.length_append] at hlen
      exact List.length_eq_zero_iff.1 (by omega)
    exact inv_done hi
  | succ fuel ih =>
    cases ready with
    | nil => exact inv_done hi
    | cons x ready =>
      refine ih (inv_step h hi) ?_
      rw [List.length_append, List.length_singleton]
      omega

theorem sort_sorted (h : Closed nodes deps) : Sorted nodes deps (sort nodes deps) :=
  loop_sorted h (inv_start h) (by simp)

theorem wellFounded_of_acyclic (h : Closed nodes deps) (ha : Acyclic deps) :
    WellFounded fun d x => DependsOn deps x d := by
  let r : {x // x ∈ nodes} → {x // x ∈ nodes} → Prop :=
    fun d x => TransGen (DependsOn deps) x.1 d.1
  have : IsTrans _ r := ⟨fun _ _ _ hab hbc => hbc.trans hab⟩
  have : Std.Irrefl r := ⟨fun x hx => ha x.1 hx⟩
  have hwf : WellFounded r := Finite.wellFounded_of_trans_of_irrefl r
  have hacc : ∀ x : {x // x ∈ nodes}, Acc (fun d x => DependsOn deps x d) x.1 := by
    intro x
    induction x using hwf.induction with
    | _ x ih => exact ⟨x.1, fun d hd => ih ⟨d, h.deps_mem _ d hd⟩ (.single hd)⟩
  refine ⟨fun x => ⟨x, fun d hd => hacc ⟨d, h.deps_mem x d hd⟩⟩⟩

theorem Sorted.complete {topo : List α} (hs : Sorted nodes deps topo) (h : Closed nodes deps) :
    topo.length = nodes.length ↔ Acyclic deps := by
  constructor
  · intro hlen x hx
    have hperm : topo.Perm nodes := (hs.nodup.subperm hs.mem).perm_of_length_le hlen.ge
    have hxn : x ∈ nodes := by
      obtain ⟨d, hd, -⟩ := TransGen.head'_iff.1 hx
      exact h.mem_of_deps x (List.ne_nil_of_mem hd)
    obtain ⟨pre, post, he, hmem⟩ := ordered_before hs.ordered hx (hperm.mem_iff.2 hxn)
    have hnd := hs.nodup
    rw [he, List.nodup_append] at hnd
    exact hnd.2.2 x hmem x (by simp) rfl
  · intro ha
    have hall : ∀ x, x ∈ nodes → x ∈ topo := by
      intro x
      induction x using (wellFounded_of_acyclic h ha).induction with
      | _ x ih =>
        intro hx
        exact hs.closed x hx fun d hd => ih d hd (h.deps_mem x d hd)
    exact le_antisymm (hs.nodup.subperm hs.mem).length_le
      (h.nodes_nodup.subperm hall).length_le

theorem sort_complete (h : Closed nodes deps) :
    (sort nodes deps).length = nodes.length ↔ Acyclic deps :=
  (sort_sorted h).complete h

end

end Lark.Base.Kahn
