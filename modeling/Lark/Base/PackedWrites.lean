import Lark.Base.Transition
import Lark.Base.Counting

namespace Lark.Base

-- How a vector keeps its elements: each in an object of its own, or 64 booleans to a word, where a
-- write of one element reads its word and writes the whole word back.
inductive Layout : Type → Type 1 where
  | apart {α : Type} : Layout α
  | packed : Layout Bool

namespace Layout

variable {α : Type}

def isPacked : Layout α → Bool
  | apart => false
  | packed => true

end Layout

def wordOf (k : Nat) : Nat := k / 64

def writeBack {α : Type} (cells seen : List α) (k : Nat) (v : α) : List α :=
  cells.mapIdx fun j c =>
    if j = k then v else if wordOf j = wordOf k then seen[j]?.getD c else c

theorem writeBack_eq {α : Type} {cells seen : List α} {k : Nat} (v : α)
    (h : ∀ j, wordOf j = wordOf k → seen[j]? = cells[j]?) :
    writeBack cells seen k v = cells.set k v := by
  apply List.ext_getElem?
  intro j
  rw [writeBack, List.getElem?_mapIdx, List.getElem?_set]
  rcases eq_or_ne k j with rfl | hne
  · cases hj : cells[k]? with
    | none => simpa using hj
    | some c => simp [(List.getElem?_eq_some_iff.1 hj).1]
  · cases hj : cells[j]? with
    | none => simp [hne]
    | some c =>
      by_cases hw : wordOf j = wordOf k
      · simp [hne, hne.symm, hw, h j hw, hj]
      · simp [hne, hne.symm, hw]

variable {σ α : Type} {n : Nat}

-- Threads that write cells of one vector. `due` is the write that a thread makes next, `put` the
-- state in which it has made it and the vector is as given.
structure Writers (M : System σ) (n : Nat) (α : Type) where
  cells : σ → List α
  due : σ → Fin n → Option (Nat × α)
  put : σ → Fin n → List α → σ
  cells_put : ∀ s i c, cells (put s i c) = c
  due_put : ∀ {s i j} c, j ≠ i → due (put s i c) j = due s j
  write : ∀ {s i k v}, M.Reachable s → due s i = some (k, v) → M.step s (put s i ((cells s).set k v))
  still : ∀ {s i x t}, M.Reachable s → due s i = some x → M.step s t →
    (∀ j y, due s j = some y → due t j = some y) → cells t = cells s
  only : ∀ {s i k v t}, M.step s t → due s i = some (k, v) → due t i ≠ some (k, v) →
    t = put s i ((cells s).set k v)

structure Torn (σ : Type) (n : Nat) (α : Type) where
  base : σ
  held : Fin n → Option (List α)

structure VectorProgram (σ : Type) (n : Nat) (α : Type) where
  base : System σ
  writers : Writers base n α

namespace Writers

variable {M : System σ} (W : Writers M n α) (layout : Layout α)

def Quiet (s t : σ) : Prop := M.step s t ∧ ∀ i x, W.due s i = some x → W.due t i = some x

variable {W} in
theorem Quiet.of_due {s t : σ} (h : M.step s t)
    (hd : ∀ i, W.due s i = none ∨ W.due t i = W.due s i) : W.Quiet s t := by
  refine ⟨h, fun i x hi => ?_⟩
  rcases hd i with hn | he
  · exact absurd (hi.symm.trans hn) (by simp)
  · exact he.trans hi

inductive Step : Torn σ n α → Torn σ n α → Prop
  | whole {s t} (hl : layout.isPacked = false) (h : M.step s.base t) : Step s { s with base := t }
  | quiet {s t} (hl : layout.isPacked = true) (h : W.Quiet s.base t) : Step s { s with base := t }
  | read {s} (i : Fin n) {x} (hl : layout.isPacked = true) (h : W.due s.base i = some x)
      (hn : s.held i = none) :
      Step s { s with held := Function.update s.held i (some (W.cells s.base)) }
  | write {s} (i : Fin n) {k v seen} (hl : layout.isPacked = true)
      (h : W.due s.base i = some (k, v)) (hs : s.held i = some seen) :
      Step s
        { base := W.put s.base i (writeBack (W.cells s.base) seen k v)
          held := Function.update s.held i none }

def Alone (s : Torn σ n α) (i : Fin n) : Prop :=
  ∀ x, W.due s.base i = some x → ∀ j y, W.due s.base j = some y → s.held j ≠ none →
    wordOf y.1 ≠ wordOf x.1

def system : System (Torn σ n α) where
  initial := fun s => M.initial s.base ∧ ∀ i, s.held i = none
  step := W.Step layout

def undisturbed : System (Torn σ n α) where
  initial := (W.system layout).initial
  step := fun s t => (W.system layout).step s t ∧
    ∀ i, s.held i = none → t.held i ≠ none → W.Alone s i

def Clean (s : Torn σ n α) : Prop :=
  layout.isPacked = false ∧ (W.system layout).Reachable s ∨ (W.undisturbed layout).Reachable s

structure Sound (s : Torn σ n α) : Prop where
  reachable : M.Reachable s.base
  seen : ∀ i w, s.held i = some w → ∃ x, W.due s.base i = some x ∧
    ∀ j, wordOf j = wordOf x.1 → w[j]? = (W.cells s.base)[j]?
  alone : ∀ i j x y, s.held i ≠ none → s.held j ≠ none → W.due s.base i = some x →
    W.due s.base j = some y → wordOf x.1 = wordOf y.1 → i = j

section Refinement

variable {W layout} {s t : Torn σ n α}

theorem Sound.quiet (h : W.Sound s) {u : σ} (hq : W.Quiet s.base u) :
    W.Sound { s with base := u } := by
  obtain ⟨hst, hdue⟩ := hq
  have hkept : ∀ i w, s.held i = some w → ∃ x, W.due s.base i = some x ∧ W.due u i = some x := by
    intro i w hi
    obtain ⟨x, hx, -⟩ := h.seen i w hi
    exact ⟨x, hx, hdue i x hx⟩
  refine ⟨h.reachable.step hst, fun i w hi => ?_, fun i j x y hi hj hx hy => ?_⟩
  · obtain ⟨x, hx, hw⟩ := h.seen i w hi
    refine ⟨x, hdue i x hx, fun j hj => ?_⟩
    rw [W.still h.reachable hx hst hdue]
    exact hw j hj
  · obtain ⟨wi, hwi⟩ := Option.ne_none_iff_exists'.1 hi
    obtain ⟨wj, hwj⟩ := Option.ne_none_iff_exists'.1 hj
    obtain ⟨x', hx', hxu⟩ := hkept i wi hwi
    obtain ⟨y', hy', hyu⟩ := hkept j wj hwj
    obtain rfl : x' = x := Option.some.inj (hxu.symm.trans hx)
    obtain rfl : y' = y := Option.some.inj (hyu.symm.trans hy)
    exact h.alone i j _ _ hi hj hx' hy'

theorem Sound.read (h : W.Sound s) {i : Fin n} {x : Nat × α} (hx : W.due s.base i = some x)
    (ha : W.Alone s i) :
    W.Sound { s with held := Function.update s.held i (some (W.cells s.base)) } := by
  have hother : ∀ j y, j ≠ i → Function.update s.held i (some (W.cells s.base)) j ≠ none →
      W.due s.base j = some y → wordOf y.1 ≠ wordOf x.1 := by
    intro j y hne hj hy
    exact ha x hx j y hy (by simpa [hne] using hj)
  refine ⟨h.reachable, fun j w hj => ?_, fun j k y z hj hk hy hz hw => ?_⟩
  · rcases eq_or_ne j i with rfl | hne
    · refine ⟨x, hx, fun k _ => ?_⟩
      have hcells : W.cells s.base = w := by simpa using hj
      rw [hcells]
    · exact h.seen j w (by simpa [hne] using hj)
  · rcases eq_or_ne j i with rfl | hji
    · obtain rfl : x = y := Option.some.inj (hx.symm.trans hy)
      by_contra hne
      exact hother k z (Ne.symm hne) hk hz hw.symm
    · rcases eq_or_ne k i with rfl | hki
      · obtain rfl : x = z := Option.some.inj (hx.symm.trans hz)
        exact absurd hw (hother j y hji hj hy)
      · exact h.alone j k y z (by simpa [hji] using hj) (by simpa [hki] using hk) hy hz hw

theorem Sound.write (h : W.Sound s) {i : Fin n} {k : Nat} {v : α} {seen : List α}
    (hx : W.due s.base i = some (k, v)) (hs : s.held i = some seen) :
    W.Sound
      { base := W.put s.base i (writeBack (W.cells s.base) seen k v)
        held := Function.update s.held i none } := by
  obtain ⟨x, hx', hseen⟩ := h.seen i seen hs
  obtain rfl : (k, v) = x := Option.some.inj (hx.symm.trans hx')
  have hback : writeBack (W.cells s.base) seen k v = (W.cells s.base).set k v :=
    writeBack_eq v hseen
  rw [hback]
  have hheld : ∀ j w, Function.update s.held i none j = some w → j ≠ i ∧ s.held j = some w := by
    intro j w hj
    have hne : j ≠ i := by
      rintro rfl
      simp at hj
    exact ⟨hne, by simpa [hne] using hj⟩
  refine ⟨h.reachable.step (W.write h.reachable hx), fun j w hj => ?_,
    fun j j' y z hj hj' hy hz hw => ?_⟩
  · obtain ⟨hne, hj⟩ := hheld j w hj
    obtain ⟨y, hy, hcells⟩ := h.seen j w hj
    refine ⟨y, (W.due_put _ hne).trans hy, fun k' hk' => ?_⟩
    have hword : k ≠ k' := by
      rintro rfl
      exact hne (h.alone j i y (k, v) (by simp [hj]) (by simp [hs]) hy hx hk'.symm)
    change w[k']? = (W.cells (W.put s.base i ((W.cells s.base).set k v)))[k']?
    rw [W.cells_put, List.getElem?_set_ne hword]
    exact hcells k' hk'
  · obtain ⟨w, hjw⟩ := Option.ne_none_iff_exists'.1 hj
    obtain ⟨w', hjw'⟩ := Option.ne_none_iff_exists'.1 hj'
    obtain ⟨hne, hjw⟩ := hheld j w hjw
    obtain ⟨hne', hjw'⟩ := hheld j' w' hjw'
    refine h.alone j j' y z (by simp [hjw]) (by simp [hjw']) ?_ ?_ hw
    · exact (W.due_put _ hne).symm.trans hy
    · exact (W.due_put _ hne').symm.trans hz

theorem sound_step (h : W.Sound s) (hst : (W.undisturbed layout).step s t)
    (hheld : layout.isPacked = false → ∀ i, s.held i = none) :
    W.Sound t ∧ (layout.isPacked = false → ∀ i, t.held i = none) := by
  obtain ⟨hst, halone⟩ := hst
  cases hst with
  | whole hl hs =>
    refine ⟨⟨h.reachable.step hs, fun i w hi => ?_, fun i j x y hi => ?_⟩, hheld⟩
    · exact absurd ((hheld hl i).symm.trans hi) (by simp)
    · exact absurd (hheld hl i) hi
  | quiet hl hq => exact ⟨h.quiet hq, fun hf => absurd (hf.symm.trans hl) (by simp)⟩
  | read i hl hx hn =>
    refine ⟨h.read hx (halone i hn ?_), fun hf => absurd (hf.symm.trans hl) (by simp)⟩
    simp
  | write i hl hx hs => exact ⟨h.write hx hs, fun hf => absurd (hf.symm.trans hl) (by simp)⟩

theorem sound_of_undisturbed (h : (W.undisturbed layout).Reachable s) : W.Sound s := by
  refine (h.invariant (I := fun s => W.Sound s ∧ (layout.isPacked = false → ∀ i, s.held i = none))
    ?_ fun s t hs hst => sound_step hs.1 hst hs.2).1
  rintro s ⟨hi, hn⟩
  refine ⟨⟨System.reachable_initial hi, fun i w hw => ?_, fun i j x y hw => ?_⟩, fun _ => hn⟩
  · exact absurd ((hn i).symm.trans hw) (by simp)
  · exact absurd (hn i) hw

theorem base_quiescent (hq : (W.system layout).Quiescent s) : M.Quiescent s.base := by
  intro t hst
  cases hl : layout.isPacked with
  | false => exact hq _ (.whole hl hst)
  | true =>
    by_cases hquiet : W.Quiet s.base t
    · exact hq _ (.quiet hl hquiet)
    · simp only [Quiet, hst, true_and, not_forall] at hquiet
      obtain ⟨i, x, hx, -⟩ := hquiet
      cases hi : s.held i with
      | none => exact hq _ (.read i hl hx hi)
      | some seen => exact hq _ (.write i hl hx hi)

theorem undisturbed_step {u v : σ} (h : (W.undisturbed layout).Reachable ⟨u, fun _ => none⟩)
    (hst : M.step u v) : (W.undisturbed layout).Reachable ⟨v, fun _ => none⟩ := by
  cases hl : layout.isPacked with
  | false => exact h.step ⟨.whole hl hst, fun i _ hi => absurd rfl hi⟩
  | true =>
    by_cases hquiet : W.Quiet u v
    · exact h.step ⟨.quiet hl hquiet, fun i _ hi => absurd rfl hi⟩
    · simp only [Quiet, hst, true_and, not_forall] at hquiet
      obtain ⟨i, ⟨k, c⟩, hx, hne⟩ := hquiet
      obtain rfl := W.only hst hx hne
      have hread := h.step ⟨.read i hl hx rfl, fun j _ _ x _ j' y _ hj' => absurd rfl hj'⟩
      have hwrite := hread.step ⟨.write i hl hx (Function.update_self ..), fun j hj hj' => ?_⟩
      · rw [writeBack_eq c fun _ _ => rfl, Function.update_idem, Function.update_eq_self] at hwrite
        exact hwrite
      · rcases eq_or_ne j i with rfl | hji
        · simp at hj'
        · simp [hji] at hj'

theorem clean_of_reachable {u : σ} (h : M.Reachable u) : W.Clean layout ⟨u, fun _ => none⟩ := by
  refine .inr (h.invariant (I := fun u => (W.undisturbed layout).Reachable ⟨u, fun _ => none⟩) ?_
    fun _ _ hu hst => undisturbed_step hu hst)
  intro u hu
  exact System.reachable_initial ⟨hu, fun _ => rfl⟩

theorem Clean.undisturbed (h : W.Clean layout s) : (W.undisturbed layout).Reachable s := by
  rcases h with ⟨hl, h⟩ | h
  · refine System.Reachable.invariant (M := W.system layout) (I := (W.undisturbed layout).Reachable)
      (fun s hs => System.reachable_initial hs) (fun s t hs hst => ?_) h
    refine hs.step ⟨hst, fun i hn hi => ?_⟩
    cases hst with
    | whole => exact absurd hn hi
    | quiet hp => exact absurd (hl.symm.trans hp) (by simp)
    | read _ hp => exact absurd (hl.symm.trans hp) (by simp)
    | write _ hp => exact absurd (hl.symm.trans hp) (by simp)
  · exact h

theorem Clean.reachable (h : W.Clean layout s) : M.Reachable s.base :=
  (sound_of_undisturbed h.undisturbed).reachable

end Refinement

section Progress

variable {W layout} {s t : Torn σ n α} (rank : σ → Nat)

def height (s : Torn σ n α) : Nat :=
  2 * rank s.base + count (fun w : Option (List α) => w.isNone = true) s.held

theorem height_step (hstep : ∀ s t, M.step s t → rank t < rank s)
    (hput : ∀ s i x c, W.due s i = some x → rank (W.put s i c) < rank s)
    (hst : W.Step layout s t) : height rank t < height rank s := by
  cases hst with
  | whole hl h =>
    have hlt := hstep _ _ h
    simp only [height]
    omega
  | quiet hl h =>
    have hlt := hstep _ _ h.1
    simp only [height]
    omega
  | read i hl h hn =>
    have hdrop := count_update_drop (q := fun w : Option (List α) => w.isNone = true) (f := s.held)
      (x := i) (a := some (W.cells s.base)) (by simp [hn]) (by simp)
    simp only [height]
    omega
  | @write i k v seen hl h hs =>
    have hlt := hput _ _ _ (writeBack (W.cells s.base) seen k v) h
    have hgrow := count_update_grow (q := fun w : Option (List α) => w.isNone = true) (f := s.held)
      (x := i) (a := none) (by simp [hs]) rfl
    simp only [height]
    omega

theorem system_wellFounded (hstep : ∀ s t, M.step s t → rank t < rank s)
    (hput : ∀ s i x c, W.due s i = some x → rank (W.put s i c) < rank s) :
    WellFounded fun t s => (W.system layout).step s t :=
  Subrelation.wf (fun hst => height_step rank hstep hput hst) (measure (height rank)).wf

end Progress

end Writers

end Lark.Base
