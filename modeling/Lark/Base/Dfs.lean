import Lark.Base.Kahn

namespace Lark.Base.Dfs

open Relation Kahn

variable {α : Type}

inductive Mark where
  | unvisited
  | inStack
  | done
  deriving DecidableEq

inductive Result (α : Type) where
  | finished (marks : α → Mark)
  | cycle (x : α)
  | fuel

section

variable {deps : α → List α} {marks : α → Mark} {stack : List (α × Nat)}

def Scanned (deps : α → List α) (marks : α → Mark) : Option α → List (α × Nat) → Prop
  | _, [] => True
  | above, (x, i) :: stack =>
    (∀ d ∈ (deps x).take i, marks d = .done ∨ above = some d) ∧ Scanned deps marks (some x) stack

structure Inv (nodes : List α) (deps : α → List α) (marks : α → Mark) (stack : List (α × Nat)) :
    Prop where
  nodup : (stack.map Prod.fst).Nodup
  mem : ∀ x ∈ stack.map Prod.fst, x ∈ nodes
  inStack : ∀ x, marks x = .inStack ↔ x ∈ stack.map Prod.fst
  chain : (stack.map Prod.fst).IsChain fun y x => DependsOn deps x y
  scanned : Scanned deps marks none stack
  accessible : ∀ x, marks x = .done → Acc (fun d x => DependsOn deps x d) x

def Grows (marks marks' : α → Mark) : Prop := ∀ x, marks x = .done → marks' x = .done

theorem Scanned.mono {marks' : α → Mark} {above : Option α} (h : Scanned deps marks above stack)
    (hm : Grows marks marks') : Scanned deps marks' above stack := by
  induction stack generalizing above with
  | nil => trivial
  | cons e stack ih => exact ⟨fun d hd => (h.1 d hd).imp_left (hm d), ih h.2⟩

theorem Scanned.finish {y : α} (h : Scanned deps marks (some y) stack) (hy : marks y = .done) :
    Scanned deps marks none stack := by
  cases stack with
  | nil => trivial
  | cons e stack =>
    refine ⟨fun d hd => .inl ?_, h.2⟩
    rcases h.1 d hd with hd | hd
    · exact hd
    · exact Option.some.inj hd ▸ hy

theorem path_to_top {x y : α} {xs : List α} (h : (x :: xs).IsChain fun y x => DependsOn deps x y)
    (hy : y ∈ x :: xs) : ReflTransGen (DependsOn deps) y x := by
  induction xs generalizing x with
  | nil =>
    obtain rfl := List.mem_singleton.1 hy
    exact .refl
  | cons z xs ih =>
    obtain ⟨hzx, hxs⟩ := List.isChain_cons_cons.1 h
    rcases List.mem_cons.1 hy with rfl | hy
    · exact .refl
    · exact (ih hxs hy).tail hzx

theorem not_cyclic_of_acc {x : α} (h : Acc (fun d x => DependsOn deps x d) x) :
    ¬ TransGen (DependsOn deps) x x := by
  induction h with
  | intro x _ ih =>
    intro hx
    obtain ⟨y, hxy, hyx⟩ := TransGen.head'_iff.1 hx
    exact ih y hxy (TransGen.tail' hyx hxy)

section Entry

variable {nodes : List α} {x y : α} {i : Nat}

theorem take_succ_done {marks' : α → Mark} (hs : Scanned deps marks none ((x, i) :: stack))
    (hi : (deps x)[i]? = some y) (hg : Grows marks marks') {above : Option α}
    (hy : marks' y = .done ∨ above = some y) :
    Scanned deps marks' above ((x, i + 1) :: stack) := by
  refine ⟨fun d hd => ?_, hs.2.mono hg⟩
  rw [List.take_add_one, hi, Option.toList_some, List.mem_append, List.mem_singleton] at hd
  rcases hd with hd | rfl
  · rcases hs.1 d hd with hd | hd
    · exact .inl (hg d hd)
    · cases hd
  · exact hy

theorem inv_skip (h : Inv nodes deps marks ((x, i) :: stack)) (hi : (deps x)[i]? = some y)
    (hy : marks y = .done) : Inv nodes deps marks ((x, i + 1) :: stack) :=
  { h with scanned := take_succ_done h.scanned hi (fun _ hd => hd) (.inl hy) }

theorem cycle_found (h : Inv nodes deps marks ((x, i) :: stack)) (hi : (deps x)[i]? = some y)
    (hy : marks y = .inStack) : TransGen (DependsOn deps) y y :=
  TransGen.tail' (path_to_top h.chain ((h.inStack y).1 hy)) (List.mem_of_getElem? hi)

end Entry

inductive Answers (nodes : List α) (deps : α → List α) (marks : α → Mark) (pending : List α) :
    Result α → Prop
  | finished {marks'} (hi : Inv nodes deps marks' []) (hg : Grows marks marks')
      (hp : ∀ x ∈ pending, marks' x = .done) : Answers nodes deps marks pending (.finished marks')
  | cycle {x} (h : TransGen (DependsOn deps) x x) : Answers nodes deps marks pending (.cycle x)

theorem Answers.mono {nodes : List α} {marks₀ : α → Mark} {pending pending' : List α} {r : Result α}
    (h : Answers nodes deps marks pending r) (hg : Grows marks₀ marks)
    (hp : ∀ x ∈ pending', marks x = .done ∨ x ∈ pending) : Answers nodes deps marks₀ pending' r := by
  cases h with
  | finished hi hg' hp' =>
    refine .finished hi (fun x hx => hg' x (hg x hx)) fun x hx => ?_
    exact (hp x hx).elim (hg' x) (hp' x)
  | cycle h => exact .cycle h

def fresh : α → Mark := fun _ => .unvisited

theorem inv_fresh (nodes : List α) (deps : α → List α) : Inv nodes deps fresh [] where
  nodup := by simp
  mem := by simp
  inStack := by simp [fresh]
  chain := by simp
  scanned := trivial
  accessible := by simp [fresh]

end

variable [DecidableEq α]

-- The head of the stack is its top; an entry counts the dependencies it has looked at.
def search (deps : α → List α) : Nat → (α → Mark) → List (α × Nat) → Result α
  | 0, _, _ => .fuel
  | _ + 1, marks, [] => .finished marks
  | fuel + 1, marks, (x, i) :: stack =>
    match (deps x)[i]? with
    | none => search deps fuel (Function.update marks x .done) stack
    | some y =>
      match marks y with
      | .inStack => .cycle y
      | .unvisited =>
        search deps fuel (Function.update marks y .inStack) ((y, 0) :: (x, i + 1) :: stack)
      | .done => search deps fuel marks ((x, i + 1) :: stack)

def searchFrom (deps : α → List α) (fuel : Nat) : List α → (α → Mark) → Result α
  | [], marks => .finished marks
  | x :: starts, marks =>
    if marks x = .unvisited then
      match search deps fuel (Function.update marks x .inStack) [(x, 0)] with
      | .finished marks => searchFrom deps fuel starts marks
      | .cycle y => .cycle y
      | .fuel => .fuel
    else searchFrom deps fuel starts marks

def budget (nodes : List α) (deps : α → List α) : Nat := ∑ x ∈ nodes.toFinset, ((deps x).length + 2)

section

variable {nodes : List α} {deps : α → List α} {marks : α → Mark} {stack : List (α × Nat)}

def unvisitedCost (nodes : List α) (deps : α → List α) (marks : α → Mark) : Nat :=
  ∑ x ∈ nodes.toFinset, if marks x = .unvisited then (deps x).length + 2 else 0

def stackCost (deps : α → List α) (stack : List (α × Nat)) : Nat :=
  (stack.map fun e => (deps e.1).length - e.2 + 1).sum

def cost (nodes : List α) (deps : α → List α) (marks : α → Mark) (stack : List (α × Nat)) : Nat :=
  unvisitedCost nodes deps marks + stackCost deps stack

theorem grows_update {x : α} {m : Mark} (h : marks x ≠ .done) :
    Grows marks (Function.update marks x m) := by
  intro y hy
  rcases eq_or_ne y x with rfl | hne
  · exact absurd hy h
  · rwa [Function.update_of_ne hne]

theorem unvisitedCost_visit {y : α} {m : Mark} (hy : y ∈ nodes) (hu : marks y = .unvisited)
    (hm : m ≠ .unvisited) :
    unvisitedCost nodes deps (Function.update marks y m) + ((deps y).length + 2) =
      unvisitedCost nodes deps marks := by
  have hmem : y ∈ nodes.toFinset := List.mem_toFinset.2 hy
  unfold unvisitedCost
  rw [← Finset.sum_erase_add _ _ hmem, ← Finset.sum_erase_add nodes.toFinset _ hmem]
  have hrest : ∀ x ∈ nodes.toFinset.erase y,
      (if Function.update marks y m x = .unvisited then (deps x).length + 2 else 0) =
        if marks x = .unvisited then (deps x).length + 2 else 0 := by
    intro x hx
    rw [Function.update_of_ne (Finset.ne_of_mem_erase hx)]
  rw [Finset.sum_congr rfl hrest, Function.update_self, if_neg hm, if_pos hu]
  omega

theorem unvisitedCost_finish {x : α} (h : marks x = .inStack) :
    unvisitedCost nodes deps (Function.update marks x .done) = unvisitedCost nodes deps marks := by
  refine Finset.sum_congr rfl fun y _ => ?_
  rcases eq_or_ne y x with rfl | hne
  · simp [h]
  · rw [Function.update_of_ne hne]

theorem inv_start {x : α} (h : Inv nodes deps marks []) (hx : x ∈ nodes)
    (hu : marks x = .unvisited) : Inv nodes deps (Function.update marks x .inStack) [(x, 0)] where
  nodup := by simp
  mem := by simpa using hx
  inStack := by
    intro y
    have hold := h.inStack y
    rcases eq_or_ne y x with rfl | hne
    · simp
    · simpa [hne] using hold
  chain := by simp
  scanned := by simp [Scanned]
  accessible := by
    intro y hy
    rcases eq_or_ne y x with rfl | hne
    · simp at hy
    · exact h.accessible y (by simpa [hne] using hy)

section Step

variable {x y : α} {i : Nat}

theorem inv_push (h : Inv nodes deps marks ((x, i) :: stack)) (hi : (deps x)[i]? = some y)
    (hy : y ∈ nodes) (hu : marks y = .unvisited) :
    Inv nodes deps (Function.update marks y .inStack) ((y, 0) :: (x, i + 1) :: stack) := by
  have hnew : y ∉ x :: stack.map Prod.fst := by
    intro hmem
    simp [(h.inStack y).2 hmem] at hu
  have hgrows : Grows marks (Function.update marks y .inStack) := grows_update (by simp [hu])
  refine ⟨List.nodup_cons.2 ⟨hnew, h.nodup⟩, ?_, fun z => ?_, ?_, ⟨by simp, ?_⟩, fun z hz => ?_⟩
  · intro z hz
    rcases List.mem_cons.1 hz with rfl | hz
    · exact hy
    · exact h.mem z hz
  · have hold := h.inStack z
    rcases eq_or_ne z y with rfl | hne
    · simp
    · simpa [hne] using hold
  · exact List.isChain_cons_cons.2 ⟨List.mem_of_getElem? hi, h.chain⟩
  · exact take_succ_done h.scanned hi hgrows (.inr rfl)
  · rcases eq_or_ne z y with rfl | hne
    · simp at hz
    · exact h.accessible z (by simpa [hne] using hz)

theorem inv_pop (h : Inv nodes deps marks ((x, i) :: stack)) (hi : (deps x)[i]? = none) :
    Inv nodes deps (Function.update marks x .done) stack := by
  obtain ⟨hx, hnodup⟩ := List.nodup_cons.1 h.nodup
  have hmark : marks x = .inStack := (h.inStack x).2 (by simp)
  have hgrows : Grows marks (Function.update marks x .done) := grows_update (by simp [hmark])
  have hall : ∀ d ∈ deps x, marks d = .done := by
    intro d hd
    rw [← List.take_of_length_le (List.getElem?_eq_none_iff.1 hi)] at hd
    exact (h.scanned.1 d hd).resolve_right (by simp)
  refine ⟨hnodup, fun z hz => h.mem z (List.mem_cons_of_mem _ hz), fun z => ?_, h.chain.tail, ?_,
    fun z hz => ?_⟩
  · have hold := h.inStack z
    rcases eq_or_ne z x with rfl | hne
    · simpa using hx
    · simpa [hne] using hold
  · exact (h.scanned.2.mono hgrows).finish (by simp)
  · rcases eq_or_ne z x with rfl | hne
    · exact ⟨_, fun d hd => h.accessible d (hall d hd)⟩
    · exact h.accessible z (by simpa [hne] using hz)

end Step

theorem search_answers (hc : ∀ x, ∀ d ∈ deps x, d ∈ nodes) {fuel : Nat}
    (h : Inv nodes deps marks stack) (hf : cost nodes deps marks stack < fuel) :
    Answers nodes deps marks (stack.map Prod.fst) (search deps fuel marks stack) := by
  induction fuel generalizing marks stack with
  | zero => omega
  | succ fuel ih =>
    cases stack with
    | nil => exact .finished h (fun _ hx => hx) (by simp)
    | cons e stack =>
      obtain ⟨x, i⟩ := e
      have hmark : marks x = .inStack := (h.inStack x).2 (by simp)
      simp only [cost, stackCost, List.map_cons, List.sum_cons] at hf
      rw [search]
      cases hi : (deps x)[i]? with
      | none =>
        have hcost := @unvisitedCost_finish _ _ nodes deps marks x hmark
        refine (ih (inv_pop h hi) ?_).mono (grows_update (by simp [hmark])) ?_
        · simp only [cost, stackCost]
          omega
        · simp only [List.map_cons, List.mem_cons, forall_eq_or_imp]
          exact ⟨.inl (by simp), fun z hz => .inr hz⟩
      | some y =>
        have hlt : i < (deps x).length := (List.getElem?_eq_some_iff.1 hi).1
        have hy : y ∈ nodes := hc x y (List.mem_of_getElem? hi)
        cases hm : marks y with
        | inStack =>
          simp only [hm]
          exact .cycle (cycle_found h hi hm)
        | unvisited =>
          simp only [hm]
          have hcost := @unvisitedCost_visit _ _ nodes deps marks y .inStack hy hm (by decide)
          refine (ih (inv_push h hi hy hm) ?_).mono (grows_update (by simp [hm])) ?_
          · simp only [cost, stackCost, List.map_cons, List.sum_cons]
            omega
          · exact fun z hz => .inr (List.mem_cons_of_mem _ hz)
        | done =>
          simp only [hm]
          refine (ih (inv_skip h hi hm) ?_).mono (fun _ hx => hx) fun z hz => .inr hz
          simp only [cost, stackCost, List.map_cons, List.sum_cons]
          omega

theorem unvisitedCost_le : unvisitedCost nodes deps marks ≤ budget nodes deps := by
  refine Finset.sum_le_sum fun x _ => ?_
  split_ifs
  · exact le_rfl
  · exact Nat.zero_le _

theorem searchFrom_answers (hc : ∀ x, ∀ d ∈ deps x, d ∈ nodes) {starts : List α}
    (hs : ∀ x ∈ starts, x ∈ nodes) (h : Inv nodes deps marks []) :
    Answers nodes deps marks starts (searchFrom deps (budget nodes deps) starts marks) := by
  induction starts generalizing marks with
  | nil => exact .finished h (fun _ hx => hx) (by simp)
  | cons x starts ih =>
    have hx : x ∈ nodes := hs x (by simp)
    have hrest : ∀ y ∈ starts, y ∈ nodes := fun y hy => hs y (by simp [hy])
    rw [searchFrom]
    split_ifs with hu
    · have hle : unvisitedCost nodes deps marks ≤ budget nodes deps := unvisitedCost_le
      have hcost := @unvisitedCost_visit _ _ nodes deps marks x .inStack hx hu (by decide)
      have hstart : cost nodes deps (Function.update marks x .inStack) [(x, 0)] <
          budget nodes deps := by
        simp only [cost, stackCost, List.map_cons, List.map_nil, List.sum_cons, List.sum_nil]
        omega
      have hsearch := search_answers hc (inv_start h hx hu) hstart
      generalize search deps (budget nodes deps) (Function.update marks x .inStack) [(x, 0)] = r
        at hsearch
      cases hsearch with
      | finished hi hg hp =>
        refine (ih hrest hi).mono (fun y hy => hg y (grows_update (by simp [hu]) y hy)) ?_
        simp only [List.mem_cons, forall_eq_or_imp]
        exact ⟨.inl (hp x (by simp)), fun y hy => .inr hy⟩
      | cycle hcycle => exact .cycle hcycle
    · have hdone : marks x = .done := by
        have hnot : marks x ≠ .inStack := fun hin => by simpa using (h.inStack x).1 hin
        cases hm : marks x <;> simp_all
      refine (ih hrest h).mono (fun _ hy => hy) ?_
      simp only [List.mem_cons, forall_eq_or_imp]
      exact ⟨.inl hdone, fun y hy => .inr hy⟩

end

theorem searchFrom_decides {nodes : List α} {deps : α → List α} (h : Closed nodes deps) :
    (∃ marks, searchFrom deps (budget nodes deps) nodes fresh = .finished marks) ∧ Acyclic deps ∨
      ∃ x, searchFrom deps (budget nodes deps) nodes fresh = .cycle x ∧
        TransGen (DependsOn deps) x x := by
  have hanswer := searchFrom_answers h.deps_mem (fun x hx => hx) (inv_fresh nodes deps)
  generalize searchFrom deps (budget nodes deps) nodes fresh = r at hanswer
  cases hanswer with
  | finished hi _ hp =>
    refine .inl ⟨⟨_, rfl⟩, fun x hx => ?_⟩
    obtain ⟨d, hd, -⟩ := TransGen.head'_iff.1 hx
    have hmem : x ∈ nodes := h.mem_of_deps x (List.ne_nil_of_mem hd)
    exact not_cyclic_of_acc (hi.accessible x (hp x hmem)) hx
  | cycle hcycle => exact .inr ⟨_, rfl, hcycle⟩

end Lark.Base.Dfs
