import Mathlib.Data.Vector.Zip
import Mathlib.Tactic

namespace Lark.Base

section Loops

variable {m : Type → Type} [Monad m] {σ τ : Type}

-- for (; i + w <= n; i += w)
def strided (w n : Nat) [hw : NeZero w] (body : Nat → σ → m σ) (i : Nat) (s : σ) : m (Nat × σ) :=
  if i + w ≤ n then do
    let s ← body i s
    strided w n body (i + w) s
  else pure (i, s)
termination_by n - i
decreasing_by exact Nat.sub_lt_sub_left (by have := hw.pos; omega) (by have := hw.pos; omega)

def lanes (body : Nat → σ → m σ) : Nat → Nat → σ → m σ
  | 0, _, s => pure s
  | k + 1, i, s => do
    let s ← body i s
    lanes body k (i + 1) s

-- for (; i < n; ++i)
def tail (n : Nat) (lane : Nat → σ → m σ) (i : Nat) (s : σ) : m σ :=
  Prod.snd <$> strided 1 n lane i s

def sequential (n : Nat) (lane : Nat → σ → m σ) (s : σ) : m σ := tail n lane 0 s

-- Whole registers as long as they fit, then one element at a time.
def vectorized (w n : Nat) [NeZero w] (register lane : Nat → σ → m σ) (s : σ) : m σ := do
  let p ← strided w n register 0 s
  tail n lane p.1 p.2

section Step

variable {w n i : Nat} [NeZero w] {body : Nat → σ → m σ}

theorem strided_next (h : i + w ≤ n) (s : σ) :
    strided w n body i s = body i s >>= strided w n body (i + w) := by
  rw [strided, if_pos h]

theorem strided_done (h : ¬ i + w ≤ n) (s : σ) : strided w n body i s = pure (i, s) := by
  rw [strided, if_neg h]

end Step

variable [LawfulMonad m] {w n : Nat} [NeZero w]

theorem strided_lanes {lane : Nat → σ → m σ} (k : Nat) {i : Nat} (h : i + k ≤ n) (s : σ) :
    strided 1 n lane i s = lanes lane k i s >>= strided 1 n lane (i + k) := by
  induction k generalizing i s with
  | zero => simp [lanes]
  | succ k ih =>
    rw [strided_next (by omega), lanes, bind_assoc]
    refine bind_congr fun s' => ?_
    rw [ih (by omega), Nat.add_assoc, Nat.add_comm 1 k]

theorem strided_tail {register lane : Nat → σ → m σ}
    (h : ∀ i s, register i s = lanes lane w i s) (i : Nat) (s : σ) :
    (strided w n register i s >>= fun p => tail n lane p.1 p.2) = tail n lane i s := by
  induction i, s using strided.induct w n with
  | case1 i s hi ih =>
    rw [strided_next hi, bind_assoc, h, tail, strided_lanes w hi, map_bind]
    exact bind_congr fun s' => ih s'
  | case2 i s hi => rw [strided_done hi, pure_bind]

theorem vectorized_eq_sequential {register lane : Nat → σ → m σ}
    (h : ∀ i s, register i s = lanes lane w i s) (s : σ) :
    vectorized w n register lane s = sequential n lane s :=
  strided_tail h 0 s

theorem ite_vectorized {register lane : Nat → σ → m σ}
    (h : ∀ i s, register i s = lanes lane w i s) (c : Prop) [Decidable c] (s : σ) :
    (if c then vectorized w n register lane s else sequential n lane s) = sequential n lane s := by
  split_ifs
  · exact vectorized_eq_sequential h s
  · rfl

theorem strided_map {body : Nat → σ → m σ} {body' : Nat → τ → m τ} {φ : σ → τ}
    (h : ∀ i s, body' i (φ s) = φ <$> body i s) (i : Nat) (s : σ) :
    strided w n body' i (φ s) = Prod.map id φ <$> strided w n body i s := by
  induction i, s using strided.induct w n with
  | case1 i s hi ih =>
    rw [strided_next hi, strided_next hi, h, bind_map_left, map_bind]
    exact bind_congr fun s' => ih s'
  | case2 i s hi => rw [strided_done hi, strided_done hi, map_pure, Prod.map_apply, id_eq]

end Loops

section Total

variable {σ : Type} {w n : Nat} [NeZero w]

theorem strided_rule {body : Nat → σ → Option σ} {P : Nat → σ → Prop}
    (hstep : ∀ i s, i + w ≤ n → P i s → ∃ s', body i s = some s' ∧ P (i + w) s') (i : Nat) (s : σ)
    (hi : i ≤ n) (h : P i s) : ∃ j s', strided w n body i s = some (j, s') ∧ P j s' ∧
      j ≤ n ∧ n < j + w := by
  induction i, s using strided.induct w n with
  | case1 i s hw ih =>
    obtain ⟨s₁, hs, hP⟩ := hstep i s hw h
    obtain ⟨j, s', hrun, hend⟩ := ih s₁ hw hP
    refine ⟨j, s', ?_, hend⟩
    rw [strided_next hw, hs]
    exact hrun
  | case2 i s hw =>
    rw [strided_done hw]
    exact ⟨i, s, rfl, h, hi, Nat.lt_of_not_le hw⟩

theorem sequential_rule {lane : Nat → σ → Option σ} {P : Nat → σ → Prop} {s : σ} (h : P 0 s)
    (hstep : ∀ i s, i < n → P i s → ∃ s', lane i s = some s' ∧ P (i + 1) s') :
    ∃ s', sequential n lane s = some s' ∧ P n s' := by
  obtain ⟨j, s', hrun, hP, hle, hlt⟩ := strided_rule (fun i s hi => hstep i s hi) 0 s n.zero_le h
  obtain rfl : j = n := by omega
  refine ⟨s', ?_, hP⟩
  rw [sequential, tail, hrun]
  rfl

end Total

section Registers

variable {α β γ σ τ : Type}

def gather (read : Nat → σ → Option (α × σ)) : (w : Nat) → Nat → σ → Option (List.Vector α w × σ)
  | 0, _, s => some (.nil, s)
  | w + 1, i, s => do
    let p ← read i s
    let q ← gather read w (i + 1) p.2
    some (p.1 ::ᵥ q.1, q.2)

def scatter (write : Nat → α → τ → Option τ) : (w : Nat) → Nat → List.Vector α w → τ → Option τ
  | 0, _, _, t => some t
  | w + 1, i, v, t => do
    let t ← write i v.head t
    scatter write w (i + 1) v.tail t

def transfer (read : Nat → σ → Option (α × σ)) (f : α → γ) (write : Nat → γ → τ → Option τ)
    (i : Nat) (s : σ × τ) : Option (σ × τ) := do
  let p ← read i s.1
  let t ← write i (f p.1) s.2
  some (p.2, t)

def readBoth (read : Nat → σ → Option (α × σ)) (read' : Nat → τ → Option (β × τ)) (i : Nat)
    (s : σ × τ) : Option ((α × β) × σ × τ) := do
  let p ← read i s.1
  let q ← read' i s.2
  some ((p.1, q.1), p.2, q.2)

variable {read : Nat → σ → Option (α × σ)} {read' : Nat → τ → Option (β × τ)}
  {write : Nat → γ → τ → Option τ}

theorem lanes_transfer (f : α → γ) (w i : Nat) (s : σ × τ) :
    lanes (transfer read f write) w i s = (do
      let p ← gather read w i s.1
      let t ← scatter write w i (p.1.map f) s.2
      some (p.2, t)) := by
  induction w generalizing i s with
  | zero => rfl
  | succ w ih =>
    rw [lanes, gather, transfer]
    cases hp : read i s.1 with
    | none => rfl
    | some p =>
      -- A write that fails early fails the whole register, whatever the reads after it say.
      cases ht : write i (f p.1) s.2 with
      | none => cases hg : gather read w (i + 1) p.2 <;> simp [scatter, ht, hg]
      | some t => simp [scatter, ht, ih, Option.bind_assoc]

theorem gather_readBoth (w i : Nat) (s : σ × τ) :
    gather (readBoth read read') w i s = (do
      let p ← gather read w i s.1
      let q ← gather read' w i s.2
      some (List.Vector.zipWith Prod.mk p.1 q.1, p.2, q.2)) := by
  induction w generalizing i s with
  | zero => rfl
  | succ w ih =>
    rw [gather, readBoth, gather, gather]
    cases hp : read i s.1 with
    | none => rfl
    | some p =>
      cases hq : read' i s.2 with
      | none => simp
      | some q =>
        simp only [ih, Option.bind_assoc, Option.bind_eq_bind, Option.bind_some]
        rfl

def absorb (read : Nat → σ → Option (α × σ)) (op : β → α → β) (i : Nat) (s : β × σ) :
    Option (β × σ) := do
  let p ← read i s.2
  some (op s.1 p.1, p.2)

theorem lanes_absorb (op : β → α → β) (w i : Nat) (s : β × σ) :
    lanes (absorb read op) w i s = (do
      let p ← gather read w i s.2
      some (p.1.toList.foldl op s.1, p.2)) := by
  induction w generalizing i s with
  | zero => rfl
  | succ w ih =>
    rw [lanes, gather, absorb]
    cases hp : read i s.2 with
    | none => rfl
    | some p => simp [ih, Option.bind_assoc]

end Registers

section Reductions

variable {α : Type} {op : α → α → α}

-- The upper half of a register laid over the lower one.
def halve (op : α → α → α) {w : Nat} (v : List.Vector α (w + w)) : List.Vector α w :=
  List.Vector.zipWith op (.ofFn fun i => v.get (i.castAdd w)) (.ofFn fun i => v.get (i.natAdd w))

variable [Std.Associative op] [Std.Commutative op]

theorem foldl_zipWith {us vs : List α} (h : us.length = vs.length) (e : α) :
    (List.zipWith op us vs).foldl op e = vs.foldl op (us.foldl op e) := by
  induction us generalizing vs e with
  | nil => rw [List.length_eq_zero_iff.mp h.symm]; rfl
  | cons u us ih =>
    cases vs with
    | nil => cases h
    | cons v vs =>
      have hv : us.foldl op (op e (op u v)) = op (us.foldl op (op e u)) v :=
        calc us.foldl op (op e (op u v))
          _ = us.foldl op (op v (op e u)) := congrArg (us.foldl op) (by ac_rfl)
          _ = op v (us.foldl op (op e u)) := List.foldl_assoc
          _ = op (us.foldl op (op e u)) v := Std.Commutative.comm _ _
      rw [List.zipWith_cons_cons, List.foldl_cons, List.foldl_cons, List.foldl_cons, ← hv]
      exact ih (Nat.succ.inj h) _

theorem foldl_zipWith_vector {w : Nat} (u v : List.Vector α w) (e : α) :
    (List.Vector.zipWith op u v).toList.foldl op e = v.toList.foldl op (u.toList.foldl op e) := by
  rw [List.Vector.zipWith_toList]
  exact foldl_zipWith (u.toList_length.trans v.toList_length.symm) e

theorem foldl_halve {w : Nat} (v : List.Vector α (w + w)) (e : α) :
    (halve op v).toList.foldl op e = v.toList.foldl op e := by
  have hv : v.toList = (List.Vector.ofFn fun i : Fin w => v.get (i.castAdd w)).toList ++
      (List.Vector.ofFn fun i : Fin w => v.get (i.natAdd w)).toList := by
    rw [List.Vector.toList_ofFn, List.Vector.toList_ofFn]
    calc v.toList
      _ = List.ofFn v.get := by rw [← List.Vector.toList_ofFn, List.Vector.ofFn_get]
      _ = _ := List.ofFn_add
  rw [halve, foldl_zipWith_vector, hv, List.foldl_append]

end Reductions

end Lark.Base
