import Lark.Coro.BatchElements

namespace Lark.Coro.Batch

open Lark.Base Lark.Coro.Future

variable {E T U γ : Type} {m : Nat}

-- `fn` makes the element of the new vector; where it throws, the slot keeps its value.
def transformBody (fn : T → Except E U) (data : List T) : CellBody U E := fun k c =>
  match data[k]? with
  | none => (c, .ok ())
  | some x =>
    match fn x with
    | .ok u => (u, .ok ())
    | .error e => (c, .error e)

structure Transformed (fn : T → Except E U) (data : List T) (s : Sweep m E U) : Prop where
  value : ∀ us, s.run.result.get = some (.ok us) → data.map fn = us.map .ok
  error : ∀ e, s.run.result.get = some (.error e) → ∃ k ∈ s.log, data[k]?.map fn = some (.error e)

def Answers (s : Sweep m E γ) : Option E → Prop
  | none => ∀ i, (s.run.batch i).call = .ended (.ok ())
  | some e => ∃ i, (s.run.batch i).call = .ended (.error e)

structure RelayInv (body : CellBody γ E) (cells : List γ) (s : Sweep m E γ) : Prop where
  observed : ∀ error, s.run.relay = .observed error → Answers s error
  called : s.run.relay = .called → s.run.result.resolved = true
  result : s.run.result = .pending ∨ s.run.result.resolved = true ∧
    ((Holds s.run.result (.ok (cells.mapIdx fun k c => (body k c).1)) ∧ Answers s none) ∨
      ∃ e, Holds s.run.result (.error e) ∧ Answers s (some e))

section Relay

variable {span : Fin m → Nat × Nat} {body : CellBody γ E} {cells : List γ} {s t : Sweep m E γ}

theorem answers_step (hst : SweepStep span body s t) {error : Option E} (h : Answers s error) :
    Answers t error := by
  have hkept : ∀ i o, (s.run.batch i).call = .ended o → (t.run.batch i).call = .ended o := by
    intro i o ho
    have hother : ∀ j (o' : Except E Unit), (s.run.batch j).call = .running →
        ((s.run.setBatch j { s.run.batch j with call := .ended o' }).batch i).call = .ended o := by
      intro j o' hj
      have hne : i ≠ j := by
        rintro rfl
        rw [hj] at ho
        cases ho
      simpa [State.setBatch, hne] using ho
    cases hst with
    | element => exact ho
    | throw j hr => exact hother j _ hr
    | finish j hr => exact hother j _ hr
    | other hst => exact call_ended hst ho
  cases error with
  | none => exact fun i => hkept i _ (h i)
  | some e => exact h.imp fun i hi => hkept i _ hi

theorem SweepInv.answers (h : SweepInv span body cells s)
    (hr : s.run.join.out.resolved = true) : Answers s s.run.join.out.error := by
  obtain ⟨o, ho⟩ := h.run.join.out_holds hr
  cases o with
  | ok v =>
    rw [ho.2]
    exact h.ended_ok ho
  | error e =>
    rw [ho.2]
    exact h.ended_error ho

namespace RelayInv

theorem frame (h : RelayInv body cells s) (hst : SweepStep span body s t)
    (hrelay : t.run.relay = s.run.relay) (hresult : t.run.result = s.run.result) :
    RelayInv body cells t := by
  refine ⟨fun error he => ?_, fun hc => ?_, ?_⟩
  · exact answers_step hst (h.observed error (hrelay ▸ he))
  · rw [hresult]
    exact h.called (hrelay ▸ hc)
  · rw [hresult]
    refine h.result.imp_right fun ⟨hres, hheld⟩ => ⟨hres, hheld.imp ?_ ?_⟩
    · exact fun ⟨hv, ha⟩ => ⟨hv, answers_step hst ha⟩
    · exact fun ⟨e, he, ha⟩ => ⟨e, he, answers_step hst ha⟩

theorem call (h : RelayInv body cells s) (hs : Tiled span cells.length)
    (hinv : SweepInv span body cells s) {error : Option E} (hw : s.run.relay = .observed error) :
    RelayInv body cells { s with
      run := { s.run with
        relay := .called
        result := answer (some s.cells) s.run.result error } } := by
  have hanswers := h.observed error hw
  have hresolve : ∀ o : Except E (List γ),
      answer (some s.cells) s.run.result error = s.run.result.resolve o →
      ((o = .ok (cells.mapIdx fun k c => (body k c).1) ∧ Answers s none) ∨
        ∃ e, o = .error e ∧ Answers s (some e)) →
      RelayInv body cells { s with run :=
        { s.run with relay := .called, result := answer (some s.cells) s.run.result error } } := by
    intro o ho hval
    refine ⟨fun error he => (by cases he), fun _ => ?_, .inr ⟨?_, ?_⟩⟩
    · simp only [ho, resolve_resolved]
    · simp only [ho, resolve_resolved]
    · simp only [ho]
      rcases h.result with hp | ⟨hres, hheld⟩
      · rw [hp]
        rcases hval with ⟨rfl, ha⟩ | ⟨e, rfl, ha⟩
        · exact .inl ⟨holds_resolve_pending, ha⟩
        · exact .inr ⟨e, holds_resolve_pending, ha⟩
      · rw [resolve_of_resolved hres]
        exact hheld
  cases error with
  | none => exact hresolve (.ok s.cells) rfl (.inl ⟨by rw [(hinv.full hs hanswers).2], hanswers⟩)
  | some e => exact hresolve (.error e) rfl (.inr ⟨e, rfl, hanswers⟩)

theorem step (h : RelayInv body cells s) (hs : Tiled span cells.length)
    (hinv : SweepInv span body cells s) (hst : SweepStep span body s t) :
    RelayInv body cells t := by
  have hframe := h.frame hst
  cases hst with
  | element => exact hframe rfl rfl
  | throw => exact hframe rfl rfl
  | finish => exact hframe rfl rfl
  | other hrun hr =>
    cases hrun with
    | launch => exact hframe rfl rfl
    | run => exact hframe rfl rfl
    | join => exact hframe rfl rfl
    | observe hw hp hd =>
      refine ⟨fun error he => ?_, by simp, h.result⟩
      rw [← Relay.observed.inj he]
      exact hinv.answers (hinv.run.join.out_resolved hd)
    | call hw => exact h.call hs hinv hw
    | set hres hd =>
      refine ⟨h.observed, h.called, .inr ⟨hres, ?_⟩⟩
      rcases h.result with hp | ⟨-, hheld⟩
      · rw [hp] at hres
        cases hres
      · exact hheld.imp (fun ⟨hv, ha⟩ => ⟨holds_set hv, ha⟩)
          fun ⟨e, he, ha⟩ => ⟨e, holds_set he, ha⟩

theorem init (span : Fin m → Nat × Nat) (body : CellBody γ E) (cells : List γ) :
    RelayInv body cells (⟨.init, cells, fun i => (span i).1, []⟩ : Sweep m E γ) := by
  refine ⟨fun error he => ?_, fun hc => ?_, .inl rfl⟩
  · cases he
  · cases hc

end RelayInv

theorem relayInv_reachable (hs : Tiled span cells.length)
    (h : (sweeping span body cells).Reachable s) :
    SweepInv span body cells s ∧ RelayInv body cells s := by
  have hstep : ∀ s t, SweepInv span body cells s ∧ RelayInv body cells s →
      SweepStep span body s t → SweepInv span body cells t ∧ RelayInv body cells t :=
    fun s t hinv hst => ⟨hinv.1.step hs hst, hinv.2.step hs hinv.1 hst⟩
  refine h.invariant (I := fun s => SweepInv span body cells s ∧ RelayInv body cells s) ?_ hstep
  rintro s rfl
  exact ⟨.init hs, .init span body cells⟩

end Relay

variable {fn : T → Except E U} {data : List T} {blank : U} {batchSize workers : UInt64}

theorem fails_transformBody_iff {k : Nat} {e : E} :
    Fails (transformBody fn data) (List.replicate data.length blank) k e ↔
      data[k]?.map fn = some (.error e) := by
  rcases Nat.lt_or_ge k data.length with hk | hk
  · cases ho : fn data[k] with
    | ok u => simp [Fails, transformBody, hk, ho]
    | error e' => simp [Fails, transformBody, hk, ho]
  · simp [Fails, hk]

theorem map_eq_of_clear (h : ∀ k e, ¬ Fails (transformBody fn data)
    (List.replicate data.length blank) k e) :
    data.map fn = ((List.replicate data.length blank).mapIdx fun k c =>
      (transformBody fn data k c).1).map .ok := by
  apply List.ext_getElem?
  intro k
  rcases Nat.lt_or_ge k data.length with hk | hk
  · cases ho : fn data[k] with
    | ok u => simp [transformBody, hk, ho]
    | error e => exact absurd (fails_transformBody_iff.2 (by simp [hk, ho])) (h k e)
  · rw [List.getElem?_eq_none (by simpa using hk), List.getElem?_eq_none (by simpa using hk)]

theorem transformed {span : Fin m → Nat × Nat} {s : Sweep m E U} (hs : Tiled span data.length)
    (hinv : SweepInv span (transformBody fn data) (List.replicate data.length blank) s)
    (h : RelayInv (transformBody fn data) (List.replicate data.length blank) s) :
    Transformed fn data s := by
  have hs' : Tiled span (List.replicate data.length blank).length := by rwa [List.length_replicate]
  rcases h.result with hp | ⟨hres, ⟨hv, ha⟩ | ⟨e, he, ha⟩⟩
  · refine ⟨fun us hus => ?_, fun e he => ?_⟩
    · rw [hp] at hus
      cases hus
    · rw [hp] at he
      cases he
  · have hget := get_of_holds hres hv
    refine ⟨fun us hus => ?_, fun e he => ?_⟩
    · rw [hget] at hus
      rw [← Except.ok.inj (Option.some.inj hus)]
      refine map_eq_of_clear fun k e hfail => ?_
      obtain ⟨c, hc, -⟩ := id hfail
      obtain ⟨i, hi⟩ := hs'.covers k (List.getElem?_eq_some_iff.1 hc).1
      exact hinv.no_failure hs' (ha i) hi e hfail
    · rw [hget] at he
      cases he
  · have hget := get_of_holds hres he
    obtain ⟨i, hi⟩ := ha
    refine ⟨fun us hus => ?_, fun e' he' => ?_⟩
    · rw [hget] at hus
      cases hus
    · rw [hget] at he'
      obtain rfl := Except.error.inj (Option.some.inj he')
      obtain ⟨k, hk, hfail⟩ := hinv.failure hs' hi
      exact ⟨k, hk, fails_transformBody_iff.1 hfail⟩

namespace Transform

variable {span : Fin m → Nat × Nat} {s t : Sweep m E U} (fn data)

def due (span : Fin m → Nat × Nat) (s : Sweep m E U) (i : Fin m) : Option (Nat × U) :=
  match (s.run.batch i).call with
  | .running =>
    if s.cursor i < (span i).2 then
      (data[s.cursor i]?.bind fun x => (fn x).toOption).map fun u => (s.cursor i, u)
    else none
  | _ => none

variable {fn data}

def put (s : Sweep m E U) (i : Fin m) (out : List U) : Sweep m E U :=
  { s with
    cells := out
    cursor := Function.update s.cursor i (s.cursor i + 1)
    log := s.log ++ [s.cursor i] }

theorem due_eq {i : Fin m} {k : Nat} {u : U} : due fn data span s i = some (k, u) ↔
    (s.run.batch i).call = .running ∧ s.cursor i < (span i).2 ∧ s.cursor i = k ∧
      ∃ x, data[k]? = some x ∧ fn x = .ok u := by
  have hok : ∀ x, (fn x).toOption = some u ↔ fn x = .ok u := by
    intro x
    cases fn x <;> simp [Except.toOption]
  unfold due
  split
  · rename_i hi
    split_ifs with hk
    · simp only [hi, hk, Option.map_eq_some_iff, Prod.mk.injEq, Option.bind_eq_some_iff,
        true_and]
      constructor
      · rintro ⟨v, ⟨x, hx, hv⟩, rfl, rfl⟩
        exact ⟨rfl, x, hx, (hok x).1 hv⟩
      · rintro ⟨rfl, x, hx, hv⟩
        exact ⟨u, ⟨x, hx, (hok x).2 hv⟩, rfl, rfl⟩
    · simp [hk]
  · rename_i hi
    simp only [reduceCtorEq, false_iff, not_and]
    exact fun hr => absurd hr (by simpa using hi)

theorem due_put {i j : Fin m} (c : List U) (h : j ≠ i) :
    due fn data span (put s i c) j = due fn data span s j := by
  simp [due, put, h]

theorem length_cells (h : (sweeping span (transformBody fn data)
    (List.replicate data.length blank)).Reachable s) : s.cells.length = data.length := by
  refine h.invariant (I := fun s => s.cells.length = data.length) ?_ fun s t hs hst => ?_
  · rintro s rfl
    exact List.length_replicate
  · cases hst with
    | element => exact List.length_set.trans hs
    | throw => exact List.length_set.trans hs
    | finish => exact hs
    | other => exact hs

theorem element_due {i : Fin m} {c u : U} (hlen : s.cells.length = data.length)
    (hr : (s.run.batch i).call = .running) (hk : s.cursor i < (span i).2)
    (hc : s.cells[s.cursor i]? = some c)
    (hb : transformBody fn data (s.cursor i) c = (u, .ok ())) :
    due fn data span s i = some (s.cursor i, u) := by
  have hlt : s.cursor i < data.length := by
    rw [← hlen]
    exact (List.getElem?_eq_some_iff.1 hc).1
  refine due_eq.2 ⟨hr, hk, rfl, data[s.cursor i], List.getElem?_eq_getElem hlt, ?_⟩
  rw [transformBody, List.getElem?_eq_getElem hlt] at hb
  simp only at hb
  split at hb
  · rename_i ho
    rw [ho, (Prod.mk.inj hb).1]
  · cases (Prod.mk.inj hb).2

theorem transformBody_eq {k : Nat} {x : T} {u : U} (c : U) (hx : data[k]? = some x)
    (hu : fn x = .ok u) : transformBody fn data k c = (u, .ok ()) := by
  simp [transformBody, hx, hu]

theorem cell_of_throw {k : Nat} {c c' : U} {e : E}
    (hb : transformBody fn data k c = (c', .error e)) : c' = c := by
  rw [transformBody] at hb
  split at hb
  · cases (Prod.mk.inj hb).2
  · split at hb
    · cases (Prod.mk.inj hb).2
    · exact (Prod.mk.inj hb).1.symm

theorem only_write {i : Fin m} {k : Nat} {u : U}
    (hst : SweepStep span (transformBody fn data) s t) (hi : due fn data span s i = some (k, u))
    (hne : due fn data span t i ≠ some (k, u)) : t = put s i (s.cells.set k u) := by
  obtain ⟨hr, hk, rfl, x, hx, hu⟩ := due_eq.1 hi
  have hkept : (t.run.batch i).call = .running → t.cursor i = s.cursor i →
      t = put s i (s.cells.set (s.cursor i) u) :=
    fun hrun hcur => absurd (due_eq.2 ⟨hrun, hcur ▸ hk, hcur, x, hx, hu⟩) hne
  cases hst with
  | @element j c c' hj hjk hc hb =>
    rcases eq_or_ne i j with rfl | hij
    · rw [transformBody_eq c hx hu] at hb
      rw [← (Prod.mk.inj hb).1]
      rfl
    · exact hkept hr (by simp [hij])
  | @throw j c c' e hj hjk hc hb =>
    rcases eq_or_ne i j with rfl | hij
    · rw [transformBody_eq c hx hu] at hb
      cases (Prod.mk.inj hb).2
    · exact hkept (by simpa [State.setBatch, hij] using hr) (by simp [hij])
  | finish j hj hjk =>
    rcases eq_or_ne i j with rfl | hij
    · exact absurd hk hjk
    · exact hkept (by simpa [State.setBatch, hij] using hr) rfl
  | other _ hrun => exact hkept (hrun i hr) rfl

theorem still_step (hlen : s.cells.length = data.length)
    (hst : SweepStep span (transformBody fn data) s t)
    (hdue : ∀ j y, due fn data span s j = some y → due fn data span t j = some y) :
    t.cells = s.cells := by
  cases hst with
  | element j hj hjk hc hb =>
    obtain ⟨-, -, hcur, -⟩ := due_eq.1 (hdue j _ (element_due hlen hj hjk hc hb))
    simp at hcur
  | throw j hj hjk hc hb =>
    rw [cell_of_throw hb]
    obtain ⟨hlt, rfl⟩ := List.getElem?_eq_some_iff.1 hc
    exact List.set_getElem_self hlt
  | finish => rfl
  | other => rfl

def writers (span : Fin m → Nat × Nat) (fn : T → Except E U) (data : List T) (blank : U) :
    Writers (sweeping span (transformBody fn data) (List.replicate data.length blank)) m U where
  cells s := s.cells
  due := due fn data span
  put := put
  cells_put := by
    intro s i c
    rfl
  due_put := due_put
  write := by
    intro s i k u h hi
    obtain ⟨hr, hk, rfl, x, hx, hu⟩ := due_eq.1 hi
    have hlt : s.cursor i < s.cells.length := by
      rw [length_cells h]
      exact (List.getElem?_eq_some_iff.1 hx).1
    exact .element i hr hk (List.getElem?_eq_getElem hlt) (transformBody_eq _ hx hu)
  still := by
    intro s i x t h _ hst hdue
    exact still_step (length_cells h) hst hdue
  only := only_write

end Transform

def transformation (span : Fin m → Nat × Nat) (fn : T → Except E U) (data : List T) (blank : U) :
    VectorProgram (Sweep m E U) m U where
  base := sweeping span (transformBody fn data) (List.replicate data.length blank)
  writers := Transform.writers span fn data blank

def batchTransform (blank : U) (data : List T) (batchSize workers : UInt64) (fn : T → Except E U) :
    FutureState E (List U) ⊕
      VectorProgram (Sweep (batches (.ofNat data.length) batchSize workers).toNat E U)
        (batches (.ofNat data.length) batchSize workers).toNat U :=
  if data.length = 0 then .inl { (FutureState.pending.resolve (.ok [])) with done := true }
  else .inr (transformation (spanOf (.ofNat data.length) batchSize workers) fn data blank)

def Transforms (layout : Layout U) (fn : T → Except E U) (data : List T) :
    FutureState E (List U) ⊕ VectorProgram (Sweep m E U) m U → Prop
  | .inl f => data = [] ∧ f.done = true ∧ f.get = some (.ok [])
  | .inr P => (WellFounded fun t s => (P.writers.system layout).step s t) ∧
      ∀ s, P.writers.Clean layout s → Transformed fn data s.base ∧
        ((P.writers.system layout).Quiescent s →
          s.base.run.result.done = true ∧ s.base.run.result.resolved = true)

theorem transformation_wellFounded (layout : Layout U) (span : Fin m → Nat × Nat) :
    WellFounded fun t s =>
      ((Transform.writers span fn data blank).system layout).step (s : Torn (Sweep m E U) m U) t := by
  refine Writers.system_wellFounded (Sweep.rank span) (fun s t hst => sweep_rank_step hst)
    fun s i x c hi => ?_
  obtain ⟨-, hk, -⟩ := Transform.due_eq.1 hi
  exact Nat.add_lt_add_left (rank_advance hk) _

theorem batchTransform_transforms (layout : Layout U)
    (hfits : data.length + (effectiveSize (.ofNat data.length) batchSize workers).toNat ≤ 2 ^ 64) :
    Transforms layout fn data (batchTransform blank data batchSize workers fn) := by
  rw [batchTransform]
  split_ifs with hlen
  · exact ⟨List.length_eq_zero_iff.1 hlen, rfl, rfl⟩
  · have htiled := tiled_spanOf_length hlen hfits
    have htiled' : Tiled (spanOf (.ofNat data.length) batchSize workers)
        (List.replicate data.length blank).length := by
      rwa [List.length_replicate]
    refine ⟨transformation_wellFounded layout _, fun s hs => ?_⟩
    obtain ⟨hinv, hrelay⟩ := relayInv_reachable htiled' hs.reachable
    refine ⟨transformed htiled hinv hrelay, fun hq => ?_⟩
    have hstuck := run_stuck hinv htiled' (Writers.base_quiescent hq)
    have hres := hrelay.called (called_of_stuck hinv.run hinv.signals hstuck)
    refine ⟨?_, hres⟩
    cases hd : s.base.run.result.done with
    | true => rfl
    | false => exact absurd (.set hres hd) (hstuck _)

theorem batchTransform_transforms_halves :
    Transforms .apart (fun x : Nat => if x = 0 then Except.error "zero" else .ok (12 / x)) [1, 2, 3]
      (batchTransform 0 [1, 2, 3] 2 2
        fun x : Nat => if x = 0 then Except.error "zero" else .ok (12 / x)) :=
  batchTransform_transforms .apart (by decide)

end Lark.Coro.Batch
