import Lark.Base.Exn
import Lark.Base.Kahn

namespace Lark.Dag

open Lark.Base

variable {α β : Type} [DecidableEq α]

-- Ops and aspects are their addresses, in `α` and `β`.
structure OpGraph (α β : Type) where
  ops : List α
  byId : String → Option α
  deps : α → List α
  aspects : List β
  order : List α
  compiled : Bool

namespace OpGraph

def empty : OpGraph α β := ⟨[], fun _ => none, fun _ => [], [], [], false⟩

def addOp (g : OpGraph α β) (name : α → String) (op : Option α) (id : String) :
    Except Exn (OpGraph α β) :=
  match op with
  | none => .error (.invalidArgument "OpGraph: null op")
  | some x =>
    let id := if id = "" then name x else id
    match g.byId id with
    | some _ => .error (.invalidArgument ("OpGraph: duplicate node id '" ++ id ++ "'"))
    | none => .ok { g with
        ops := g.ops ++ [x]
        byId := Function.update g.byId id (some x)
        compiled := false }

def addAspect (g : OpGraph α β) : Option β → OpGraph α β
  | none => g
  | some a => { g with aspects := g.aspects ++ [a] }

def dependsOn (g : OpGraph α β) (dep dependent : String) : Except Exn (OpGraph α β) :=
  match g.byId dep, g.byId dependent with
  | none, _ => .error (.invalidArgument ("OpGraph: unknown dependency '" ++ dep ++ "'"))
  | _, none => .error (.invalidArgument ("OpGraph: unknown dependent '" ++ dependent ++ "'"))
  | some d, some x => .ok { g with
      deps := Function.update g.deps x (g.deps x ++ [d])
      compiled := false }

-- `--in_degree[next] == 0` holds when the counter was one; an exhausted counter never is again.
def countDown (indegree : α → Nat) (ready : List α) : List α → (α → Nat) × List α
  | [] => (indegree, ready)
  | y :: ys =>
    countDown (Function.update indegree y (indegree y - 1))
      (if indegree y = 1 then ready ++ [y] else ready) ys

def drain (ops : List α) (deps : α → List α) : Nat → (α → Nat) → List α → List α → List α
  | 0, _, _, order => order
  | _ + 1, _, [], order => order
  | fuel + 1, indegree, x :: ready, order =>
    let (indegree, ready) := countDown indegree ready (Kahn.outs ops deps x)
    drain ops deps fuel indegree ready (order ++ [x])

-- Each entry of `ops` is queued at most once at the start and once by its counter.
def sorted (g : OpGraph α β) : List α :=
  let indegree := fun x => g.ops.count x * (g.deps x).length
  drain g.ops g.deps (2 * g.ops.length) indegree (g.ops.filter fun x => indegree x = 0) []

def compile (g : OpGraph α β) : Except Exn (List α) × OpGraph α β :=
  if g.compiled then (.ok g.order, g)
  else if g.sorted.length = g.ops.length then
    (.ok g.sorted, { g with order := g.sorted, compiled := true })
  else (.error (.runtimeError "OpGraph: dependency cycle detected"), { g with order := g.sorted })

inductive Built (name : α → String) : OpGraph α β → Prop
  | empty : Built name .empty
  | addOp {g g' op id} (h : Built name g) (ho : g.addOp name op id = .ok g') : Built name g'
  | addAspect {g} (h : Built name g) (aspect : Option β) : Built name (g.addAspect aspect)
  | dependsOn {g g' dep dependent} (h : Built name g) (hd : g.dependsOn dep dependent = .ok g') :
      Built name g'
  | compile {g} (h : Built name g) : Built name g.compile.2

structure WellFormed (g : OpGraph α β) : Prop where
  byId_mem : ∀ id x, g.byId id = some x → x ∈ g.ops
  deps_mem : ∀ x, ∀ d ∈ g.deps x, d ∈ g.ops ∧ x ∈ g.ops
  compiled : g.compiled = true → g.order = g.sorted ∧ g.sorted.length = g.ops.length

variable {name : α → String} {g g' : OpGraph α β}

omit [DecidableEq α] in
theorem addOp_eq_ok {op : Option α} {id : String} (h : g.addOp name op id = .ok g') :
    ∃ x, op = some x ∧ g.byId (if id = "" then name x else id) = none ∧ g' = { g with
      ops := g.ops ++ [x]
      byId := Function.update g.byId (if id = "" then name x else id) (some x)
      compiled := false } := by
  cases op with
  | none => cases h
  | some x =>
    simp only [addOp] at h
    split at h
    · cases h
    · next hnone => exact ⟨x, rfl, hnone, (Except.ok.inj h).symm⟩

theorem dependsOn_eq_ok {dep dependent : String} (h : g.dependsOn dep dependent = .ok g') :
    ∃ d x, g.byId dep = some d ∧ g.byId dependent = some x ∧ g' = { g with
      deps := Function.update g.deps x (g.deps x ++ [d])
      compiled := false } := by
  simp only [dependsOn] at h
  split at h
  · cases h
  · cases h
  · next d x hdep hx => exact ⟨d, x, hdep, hx, (Except.ok.inj h).symm⟩

theorem Built.wellFormed (h : Built name g) : g.WellFormed := by
  induction h with
  | empty =>
    refine ⟨by simp [OpGraph.empty], by simp [OpGraph.empty], ?_⟩
    intro hc
    cases hc
  | @addOp g g' op id _ ho ih =>
    obtain ⟨x, rfl, -, rfl⟩ := addOp_eq_ok ho
    refine ⟨fun id' y hy => ?_, fun y d hd => ?_, fun hc => ?_⟩
    · rcases eq_or_ne id' (if id = "" then name x else id) with rfl | hne
      · obtain rfl : x = y := by simpa using hy
        simp
      · have hy' : g.byId id' = some y := by simpa [hne] using hy
        simp [ih.byId_mem id' y hy']
    · obtain ⟨hd', hy⟩ := ih.deps_mem y d hd
      simp [hd', hy]
    · cases hc
  | addAspect _ aspect ih =>
    cases aspect with
    | none => exact ih
    | some a => exact ⟨ih.byId_mem, ih.deps_mem, ih.compiled⟩
  | @dependsOn g g' dep dependent _ hd ih =>
    obtain ⟨d, x, hdep, hx, rfl⟩ := dependsOn_eq_ok hd
    refine ⟨ih.byId_mem, fun y e he => ?_, fun hc => ?_⟩
    · rcases eq_or_ne y x with rfl | hne
      · rcases List.mem_append.1 (by simpa using he : e ∈ g.deps y ++ [d]) with he | he
        · exact ih.deps_mem y e he
        · obtain rfl := List.mem_singleton.1 he
          exact ⟨ih.byId_mem dep e hdep, ih.byId_mem dependent y hx⟩
      · exact ih.deps_mem y e (by simpa [hne] using he)
    · cases hc
  | @compile g _ ih =>
    unfold OpGraph.compile
    split_ifs with hc hlen
    · exact ih
    · exact ⟨ih.byId_mem, ih.deps_mem, fun _ => ⟨rfl, hlen⟩⟩
    · exact ⟨ih.byId_mem, ih.deps_mem, fun hc' => absurd hc' hc⟩

theorem WellFormed.compile_eq (h : g.WellFormed) : g.compile.1 =
    if g.sorted.length = g.ops.length then .ok g.sorted
    else .error (.runtimeError "OpGraph: dependency cycle detected") := by
  unfold compile
  by_cases hc : g.compiled = true
  · obtain ⟨horder, hlen⟩ := h.compiled hc
    rw [if_pos hc, if_pos hlen, horder]
  · rw [if_neg hc]
    split_ifs <;> rfl

theorem WellFormed.closed (h : g.WellFormed) (hnd : g.ops.Nodup) :
    Kahn.Closed g.ops g.deps where
  nodes_nodup := hnd
  deps_mem := fun x d hd => (h.deps_mem x d hd).1
  mem_of_deps := by
    intro x hx
    obtain ⟨d, hd⟩ := List.exists_mem_of_ne_nil _ hx
    exact (h.deps_mem x d hd).2

theorem countDown_eq_release {ys : List α} {indegree : α → Nat}
    (h : ∀ y, ys.count y ≤ indegree y) (ready : List α) :
    countDown indegree ready ys = Kahn.release indegree ready ys := by
  induction ys generalizing indegree ready with
  | nil => rfl
  | cons z ys ih =>
    have hz : ys.count z + 1 ≤ indegree z := by simpa using h z
    have hiff : indegree z = 1 ↔ indegree z - 1 = 0 := by omega
    have hys : ∀ y, ys.count y ≤ Function.update indegree z (indegree z - 1) y := by
      intro y
      rcases eq_or_ne y z with rfl | hne
      · rw [Function.update_self]
        omega
      · simpa [hne, hne.symm] using h y
    simp only [countDown, Kahn.release, hiff]
    exact ih hys _

theorem drain_eq_loop {ops : List α} {deps : α → List α} (h : Kahn.Closed ops deps)
    {indegree : α → Nat} {ready order : List α} (hi : Kahn.Inv ops deps indegree ready order)
    (fuel : Nat) : drain ops deps fuel indegree ready order =
      Kahn.loop ops deps fuel indegree ready order := by
  induction fuel generalizing indegree ready order with
  | zero => rfl
  | succ fuel ih =>
    cases ready with
    | nil => rfl
    | cons x ready =>
      simp only [drain, Kahn.loop]
      rw [countDown_eq_release (Kahn.count_outs_le h hi)]
      exact ih (Kahn.inv_step h hi)

theorem WellFormed.sorted_sorted (h : g.WellFormed) (hnd : g.ops.Nodup) :
    Kahn.Sorted g.ops g.deps g.sorted := by
  have hindegree : ∀ x, g.ops.count x * (g.deps x).length = (g.deps x).length := by
    intro x
    by_cases hx : x ∈ g.ops
    · rw [List.count_eq_one_of_mem hnd hx, Nat.one_mul]
    · have hnil : g.deps x = [] :=
        List.eq_nil_iff_forall_not_mem.2 fun d hd => hx (h.deps_mem x d hd).2
      simp [hnil]
  have hclosed := h.closed hnd
  have hinv := Kahn.inv_start hclosed
  simp only [sorted, hindegree]
  rw [drain_eq_loop hclosed hinv]
  exact Kahn.loop_sorted hclosed hinv (by simp; omega)

def Acyclic (g : OpGraph α β) : Prop := Kahn.Acyclic g.deps

structure Order (g : OpGraph α β) (order : List α) : Prop where
  nodup : order.Nodup
  mem : ∀ x, x ∈ order ↔ x ∈ g.ops
  ordered : Kahn.Ordered g.deps order

theorem WellFormed.compile_order (h : g.WellFormed) (hnd : g.ops.Nodup) {order : List α}
    (hc : g.compile.1 = .ok order) : g.Order order := by
  have hs := h.sorted_sorted hnd
  rw [h.compile_eq] at hc
  split_ifs at hc with hlen
  obtain rfl := Except.ok.inj hc
  have hperm : g.sorted.Perm g.ops := (hs.nodup.subperm hs.mem).perm_of_length_le hlen.ge
  exact ⟨hs.nodup, fun x => hperm.mem_iff, hs.ordered⟩

theorem WellFormed.compile_ok (h : g.WellFormed) (hnd : g.ops.Nodup) (ha : g.Acyclic) :
    ∃ order, g.compile.1 = .ok order := by
  have hlen := ((h.sorted_sorted hnd).complete (h.closed hnd)).2 ha
  exact ⟨g.sorted, by rw [h.compile_eq, if_pos hlen]⟩

end OpGraph

end Lark.Dag
