import Lark.Coro.BatchRanges

namespace Lark.Coro.Batch

open Lark.Base Lark.Coro.Future

variable {E T Acc : Type} {m : Nat}

structure Reduction (m : Nat) (E Acc : Type) where
  run : State m E Acc
  partials : List Acc

-- A batch function stores its accumulator, in an object of its own, and returns; no other step
-- touches the vector.
inductive ReduceStep (body : Fin m → Acc) (collect : List Acc → Acc) :
    Reduction m E Acc → Reduction m E Acc → Prop
  | store {s} (i : Fin m) (h : (s.run.batch i).call = .running) :
      ReduceStep body collect s
        { run := s.run.setBatch i { s.run.batch i with call := .ended (.ok ()) }
          partials := s.partials.set i (body i) }
  | other {s t} (h : Step (fun _ => .ok ()) (some (collect s.partials)) s.run t)
      (hr : ∀ i, (s.run.batch i).call = .running → (t.batch i).call = .running) :
      ReduceStep body collect s { s with run := t }

def reducing (slots : Nat) (blank : Acc) (body : Fin m → Acc) (collect : List Acc → Acc) :
    System (Reduction m E Acc) where
  initial := fun s => s = ⟨.init, List.replicate slots blank⟩
  step := ReduceStep body collect

def partialFold (fn : Acc → T → Acc) (init : Acc) (data : List T) (batchSize workers : UInt64)
    (batch : UInt64) : Acc :=
  let r := range (.ofNat data.length) batchSize workers batch
  (data.extract r.1.toNat r.2.toNat).foldl fn init

structure ReduceInv (body : Fin m → Acc) (collect : List Acc → Acc) (s : Reduction m E Acc) :
    Prop where
  run : Inv (fun _ => .ok ()) s.run
  signals : AllOf.Signals s.run.join
  length : s.partials.length = m
  stored : ∀ i : Fin m, (s.run.batch i).call.Ended → s.partials[i.1]? = some (body i)
  observed : ∀ e, s.run.relay = .observed e → e = none
  called : s.run.relay = .called → s.run.result.resolved = true
  result : s.run.result = .pending ∨ s.run.result.resolved = true ∧
    Holds s.run.result (.ok (collect (List.ofFn body)))

section Steps

variable {V : Type} {outcome : Fin m → Except E Unit} {collect : Option V} {s t : State m E V}

theorem signals_step (h : AllOf.Signals s.join) (hst : Step outcome collect s t) :
    AllOf.Signals t.join := by
  cases hst with
  | join hl hj => exact AllOf.signals_step h hj
  | _ => exact h

theorem ended_of_step (hst : Step outcome collect s t)
    (hr : ∀ i, (s.batch i).call = .running → (t.batch i).call = .running) {i : Fin m}
    (he : (t.batch i).call.Ended) : (s.batch i).call.Ended := by
  have hother : ∀ {k : Fin m} {u : Task E}, t = s.setBatch k u → i ≠ k →
      (s.batch i).call.Ended := by
    rintro k u rfl hne
    simpa [State.setBatch, hne] using he
  cases hst with
  | launch k hk =>
    rcases eq_or_ne i k with rfl | hne
    · obtain ⟨o, ho⟩ := he
      simp [State.setBatch, Task.launch] at ho
    · exact hother rfl hne
  | run k hk =>
    rcases eq_or_ne i k with rfl | hne
    · obtain ⟨o, ho⟩ := he
      have hrun := hr i
      simp only [State.setBatch, Function.update_self] at ho hrun
      cases hk with
      | hop => cases ho
      | start => cases ho
      | finish hc => cases hrun hc
      | lock => exact ⟨o, ho⟩
      | set => exact ⟨o, ho⟩
    · exact hother rfl hne
  | _ => exact he

end Steps

section Reduction

variable {body : Fin m → Acc} {collect : List Acc → Acc} {s t : Reduction m E Acc}

theorem ReduceStep.run (h : ReduceStep body collect s t) :
    Step (fun _ => .ok ()) (some (collect s.partials)) s.run t.run := by
  cases h with
  | store i hi => exact .run i (.finish hi)
  | other hst => exact hst

theorem stuck (hq : ∀ t, ¬ ReduceStep body collect s t) (u : State m E Acc) :
    ¬ Step (fun _ => .ok ()) (some (collect s.partials)) s.run u := by
  intro hst
  refine hq _ (.other hst fun i hi => ?_)
  exact absurd (.store i hi) (hq _)

namespace ReduceInv

theorem full (h : ReduceInv body collect s) (hr : s.run.join.out.resolved = true) :
    s.partials = List.ofFn body := by
  apply List.ext_getElem?
  intro k
  rcases Nat.lt_or_ge k m with hk | hk
  · have hend := h.run.ended (.inr fun _ => rfl) hr ⟨k, hk⟩
    rw [h.stored ⟨k, hk⟩ hend]
    simp [hk]
  · rw [List.getElem?_eq_none (by rw [h.length]; exact hk), List.getElem?_eq_none (by simpa using hk)]

theorem no_error (h : ReduceInv body collect s) (hr : s.run.join.out.resolved = true) :
    s.run.join.out.error = none := by
  obtain ⟨o, ho⟩ := h.run.join.out_holds hr
  cases o with
  | ok v => exact ho.2
  | error e =>
    obtain ⟨i, hi⟩ := h.run.join.out_error ho
    cases ((h.run.task i).holds hi).1

theorem store (h : ReduceInv body collect s) {i : Fin m} (hi : (s.run.batch i).call = .running) :
    ReduceInv body collect
      { run := s.run.setBatch i { s.run.batch i with call := .ended (.ok ()) }
        partials := s.partials.set i (body i) } := by
  have hrun : Step (fun _ => .ok ()) (some (body i)) s.run
      (s.run.setBatch i { s.run.batch i with call := .ended (.ok ()) }) := .run i (.finish hi)
  refine ⟨h.run.step hrun, h.signals, ?_, ?_, h.observed, h.called, h.result⟩
  · rw [List.length_set, h.length]
  · intro j hj
    rcases eq_or_ne j i with rfl | hne
    · have hlt : j.1 < s.partials.length := by
        rw [h.length]
        exact j.2
      exact List.getElem?_set_self hlt
    · have hidx : i.1 ≠ j.1 := fun he => hne (Fin.ext he.symm)
      refine (List.getElem?_set_ne hidx).trans (h.stored j ?_)
      simpa [State.setBatch, hne] using hj

theorem other (h : ReduceInv body collect s) {u : State m E Acc}
    (hst : Step (fun _ => .ok ()) (some (collect s.partials)) s.run u)
    (hr : ∀ i, (s.run.batch i).call = .running → (u.batch i).call = .running) :
    ReduceInv body collect { s with run := u } := by
  have hrun := h.run.step hst
  have hsignals := signals_step h.signals hst
  have hstored : ∀ i : Fin m, (u.batch i).call.Ended → s.partials[i.1]? = some (body i) :=
    fun i hi => h.stored i (ended_of_step hst hr hi)
  cases hst with
  | observe hw hp hd =>
    refine ⟨hrun, hsignals, h.length, hstored, ?_, by simp, h.result⟩
    intro e he
    rw [← (Relay.observed.inj he), h.no_error (h.run.join.out_resolved hd)]
  | @call error hw =>
    obtain rfl := h.observed error hw
    have hfull := h.full (h.run.relay (by simp [hw]))
    have hanswer : answer (some (collect s.partials)) s.run.result none =
        s.run.result.resolve (.ok (collect (List.ofFn body))) := by
      rw [hfull]
      rfl
    have hresolved : (answer (some (collect s.partials)) s.run.result none).resolved = true := by
      rw [hanswer, resolve_resolved]
    have hheld : Holds (answer (some (collect s.partials)) s.run.result none)
        (.ok (collect (List.ofFn body))) := by
      rw [hanswer]
      rcases h.result with hp | ⟨hres, hv⟩
      · rw [hp]
        exact holds_resolve_pending
      · rwa [resolve_of_resolved hres]
    exact ⟨hrun, hsignals, h.length, hstored, by simp, fun _ => hresolved, .inr ⟨hresolved, hheld⟩⟩
  | set hres hd =>
    refine ⟨hrun, hsignals, h.length, hstored, h.observed, h.called, .inr ⟨hres, ?_⟩⟩
    rcases h.result with hp | ⟨-, hv⟩
    · rw [hp] at hres
      cases hres
    · exact holds_set hv
  | _ => exact ⟨hrun, hsignals, h.length, hstored, h.observed, h.called, h.result⟩

theorem step (h : ReduceInv body collect s) (hst : ReduceStep body collect s t) :
    ReduceInv body collect t := by
  cases hst with
  | store i hi => exact h.store hi
  | other hst hr => exact h.other hst hr

theorem init (blank : Acc) : ReduceInv body collect
    (⟨.init, List.replicate m blank⟩ : Reduction m E Acc) := by
  refine ⟨.init, AllOf.signals_init, by simp, ?_, ?_, ?_, .inl rfl⟩
  · rintro i ⟨o, ho⟩
    cases ho
  · rintro e he
    cases he
  · intro hc
    cases hc

end ReduceInv

theorem reduceInv_reachable {blank : Acc}
    (h : (reducing m blank body collect : System (Reduction m E Acc)).Reachable s) :
    ReduceInv body collect s := by
  refine System.Reachable.invariant ?_ (fun s t hs hst => hs.step hst) h
  rintro s rfl
  exact .init blank

theorem done_of_quiescent {slots : Nat} {blank : Acc} (h : ReduceInv body collect s)
    (hq : (reducing slots blank body collect : System (Reduction m E Acc)).Quiescent s) :
    s.run.result.done = true := by
  have hcalled := h.called (called_of_stuck h.run h.signals (stuck hq))
  cases hd : s.run.result.done with
  | true => rfl
  | false => exact absurd (.set hcalled hd) (stuck hq _)

namespace Reduction

def due (body : Fin m → Acc) (s : Reduction m E Acc) (i : Fin m) : Option (Nat × Acc) :=
  match (s.run.batch i).call with
  | .running => some (i.1, body i)
  | _ => none

def put (s : Reduction m E Acc) (i : Fin m) (partials : List Acc) : Reduction m E Acc :=
  { run := s.run.setBatch i { s.run.batch i with call := .ended (.ok ()) }
    partials := partials }

theorem due_eq {i : Fin m} {x : Nat × Acc} :
    due body s i = some x ↔ (s.run.batch i).call = .running ∧ x = (i.1, body i) := by
  unfold due
  split
  · rename_i hi
    simp [hi, eq_comm]
  · rename_i hi
    simp only [reduceCtorEq, false_iff, not_and]
    exact fun hr => absurd hr (by simpa using hi)

theorem due_put {i j : Fin m} (c : List Acc) (h : j ≠ i) :
    due body (put s i c) j = due body s j := by
  simp [due, put, State.setBatch, h]

theorem only_write {i : Fin m} {k : Nat} {v : Acc} (hst : ReduceStep body collect s t)
    (hi : due body s i = some (k, v)) (hne : due body t i ≠ some (k, v)) :
    t = put s i (s.partials.set k v) := by
  obtain ⟨hr, hx⟩ := due_eq.1 hi
  obtain ⟨rfl, rfl⟩ := Prod.mk.inj hx
  cases hst with
  | store j hj =>
    rcases eq_or_ne i j with rfl | hij
    · rfl
    · exact absurd (due_eq.2 ⟨by simpa [State.setBatch, hij] using hr, rfl⟩) hne
  | other _ hrun => exact absurd (due_eq.2 ⟨hrun i hr, rfl⟩) hne

theorem still_step (hst : ReduceStep body collect s t)
    (hdue : ∀ j y, due body s j = some y → due body t j = some y) : t.partials = s.partials := by
  cases hst with
  | store j hj =>
    obtain ⟨hr, -⟩ := due_eq.1 (hdue j _ (due_eq.2 ⟨hj, rfl⟩))
    simp [State.setBatch] at hr
  | other => rfl

def writers (slots : Nat) (blank : Acc) (body : Fin m → Acc) (collect : List Acc → Acc) :
    Writers (reducing slots blank body collect : System (Reduction m E Acc)) m Acc where
  cells s := s.partials
  due := due body
  put := put
  cells_put := by
    intro s i c
    rfl
  due_put := due_put
  write := by
    intro s i k v _ hi
    obtain ⟨hr, hx⟩ := due_eq.1 hi
    obtain ⟨rfl, rfl⟩ := Prod.mk.inj hx
    exact .store i hr
  still := by
    intro s i x t _ _ hst hdue
    exact still_step hst hdue
  only := only_write

end Reduction

def reduction (slots : Nat) (blank : Acc) (body : Fin m → Acc) (collect : List Acc → Acc) :
    VectorProgram (Reduction m E Acc) m Acc where
  base := reducing slots blank body collect
  writers := Reduction.writers slots blank body collect

def Returns (layout : Layout Acc) (v : Acc) :
    FutureState E Acc ⊕ VectorProgram (Reduction m E Acc) m Acc → Prop
  | .inl f => f.done = true ∧ f.get = some (.ok v)
  | .inr P => (WellFounded fun t s => (P.writers.system layout).step s t) ∧
      ∀ s, P.writers.Clean layout s →
        ((P.writers.system layout).Quiescent s → s.base.run.result.done = true) ∧
          (s.base.run.result.resolved = true → s.base.run.result.get = some (.ok v))

theorem reducing_wellFounded (slots : Nat) (blank : Acc) (layout : Layout Acc) :
    WellFounded fun t s =>
      ((Reduction.writers slots blank body collect : Writers _ m Acc).system layout).step
        (s : Torn (Reduction m E Acc) m Acc) t := by
  refine Writers.system_wellFounded (fun s => s.run.rank) (fun s t hst => ?_) fun s i x c hi => ?_
  · exact rank_step hst.run
  · obtain ⟨hr, -⟩ := Reduction.due_eq.1 hi
    have hfinish : Step (fun _ => .ok ()) (some (body i)) s.run
        (s.run.setBatch i { s.run.batch i with call := .ended (.ok ()) }) := .run i (.finish hr)
    exact rank_step hfinish

theorem reducing_returns (layout : Layout Acc) (blank v : Acc) :
    Returns layout v (.inr (reduction m blank body collect) :
      FutureState E Acc ⊕ VectorProgram (Reduction m E Acc) m Acc) ↔
        v = collect (List.ofFn body) := by
  have hget : ∀ s : Reduction m E Acc, ReduceInv body collect s → s.run.result.resolved = true →
      s.run.result.get = some (.ok (collect (List.ofFn body))) := by
    intro s hinv hres
    rcases hinv.result with hp | ⟨-, hv⟩
    · rw [hp] at hres
      cases hres
    · exact get_of_holds hres hv
  have hwf : WellFounded fun t s : Reduction m E Acc => (reducing m blank body collect).step s t :=
    Subrelation.wf (fun hst => rank_step (ReduceStep.run hst))
      (measure fun s : Reduction m E Acc => s.run.rank).wf
  constructor
  · rintro ⟨-, hall⟩
    obtain ⟨s, hs, hq⟩ := System.exists_quiescent hwf (System.reachable_initial rfl)
    have hinv := reduceInv_reachable hs
    have hres := hinv.called (called_of_stuck hinv.run hinv.signals (stuck hq))
    have hv := (hall _ (Writers.clean_of_reachable hs)).2 hres
    rw [hget s hinv hres] at hv
    exact (Except.ok.inj (Option.some.inj hv)).symm
  · rintro rfl
    refine ⟨reducing_wellFounded m blank layout, fun s hs => ⟨fun hq => ?_, ?_⟩⟩
    · exact done_of_quiescent (reduceInv_reachable hs.reachable) (Writers.base_quiescent hq)
    · exact hget s.base (reduceInv_reachable hs.reachable)

end Reduction

-- The vector without elements is answered at once. `blank` is the value an `Acc` starts with.
def batchReduce (E : Type) (blank : Acc) (data : List T) (batchSize workers : UInt64) (init : Acc)
    (fn : Acc → T → Acc) (combine : Acc → Acc → Acc) :
    let size := effectiveSize (.ofNat data.length) batchSize workers
    FutureState E Acc ⊕
      VectorProgram (Reduction (batches (.ofNat data.length) size workers).toNat E Acc)
        (batches (.ofNat data.length) size workers).toNat Acc :=
  if data.length = 0 then .inl { (FutureState.pending.resolve (.ok init)) with done := true }
  else .inr (reduction (reduceSlots (.ofNat data.length) batchSize workers).toNat blank
    (fun b => partialFold fn init data (effectiveSize (.ofNat data.length) batchSize workers) workers
      (.ofNat b)) fun partials => partials.foldl combine init)

theorem extract_span (k : Nat) (xs : List T) (b : Nat) :
    xs.extract (span k xs.length b).1 (span k xs.length b).2 = chunk k xs b := by
  rw [List.extract_eq_take_drop, chunk, span]
  rcases Nat.le_total (b * k + k) xs.length with hle | hle
  · rw [min_eq_left hle, Nat.add_sub_cancel_left]
  · rw [min_eq_right hle, List.take_of_length_le, List.take_of_length_le]
    · rw [List.length_drop]
      omega
    · rw [List.length_drop]

section Fits

variable {data : List T} {batchSize workers : UInt64} {fn : Acc → T → Acc}
  {combine : Acc → Acc → Acc} {init : Acc}

theorem foldl_partials (hsize : batchSize ≠ 0) (hne : data ≠ [])
    (hfits : data.length + batchSize.toNat < 2 ^ 64) :
    (List.ofFn fun b : Fin (batches (.ofNat data.length) batchSize workers).toNat =>
      partialFold fn init data batchSize workers (.ofNat b)).foldl combine init =
        chunkFold fn combine init batchSize.toNat data
          ((data.length + batchSize.toNat - 1) / batchSize.toNat) := by
  have hn : (UInt64.ofNat data.length).toNat = data.length := by
    rw [UInt64.toNat_ofNat', Nat.mod_eq_of_lt (by omega)]
  have hn0 : UInt64.ofNat data.length ≠ 0 := by
    intro h
    rw [h] at hn
    exact hne (List.length_eq_zero_iff.1 hn.symm)
  have heff : effectiveSize (.ofNat data.length) batchSize workers = batchSize := by
    simp [effectiveSize, hsize]
  have hcount := toNat_batches batchSize workers hn0
  rw [heff, hn, if_pos hfits.le] at hcount
  have hbody : ∀ b : Fin (batches (.ofNat data.length) batchSize workers).toNat,
      partialFold fn init data batchSize workers (.ofNat b) =
        (chunk batchSize.toNat data b).foldl fn init := by
    intro b
    obtain ⟨hbegin, hend⟩ := Prod.mk.inj (toNat_range b.2 hn0)
    rw [partialFold, hbegin, hend, heff, hn]
    exact congrArg (List.foldl fn init) (extract_span batchSize.toNat data b)
  simp only [hbody]
  rw [List.ofFn_eq_map, List.foldl_map, chunkFold, ← hcount, ← List.map_coe_finRange_eq_range,
    List.foldl_map]

theorem batchReduce_returns (layout : Layout Acc) (blank v : Acc) (hsize : batchSize ≠ 0) (hne : data ≠ [])
    (hfits : data.length + batchSize.toNat < 2 ^ 64) :
    Returns layout v (batchReduce E blank data batchSize workers init fn combine) ↔
      v = chunkFold fn combine init batchSize.toNat data
        ((data.length + batchSize.toNat - 1) / batchSize.toNat) := by
  have hlen : data.length ≠ 0 := fun h => hne (List.length_eq_zero_iff.1 h)
  have heff : effectiveSize (.ofNat data.length) batchSize workers = batchSize := by
    simp [effectiveSize, hsize]
  have hslots : (reduceSlots (.ofNat data.length) batchSize workers).toNat =
      (batches (.ofNat data.length) (effectiveSize (.ofNat data.length) batchSize workers)
        workers).toNat := by
    rw [slots_eq, length_launched]
  rw [batchReduce, if_neg hlen, hslots, reducing_returns, foldl_partials]
  · rw [heff]
  · rw [heff]
    exact hsize
  · exact hne
  · rw [heff]
    exact hfits

theorem batchReduce_nil (layout : Layout Acc) (blank v : Acc) :
    Returns layout v (batchReduce E blank ([] : List T) batchSize workers init fn combine) ↔ v = init := by
  rw [batchReduce, if_pos List.length_nil]
  constructor
  · rintro ⟨-, hget⟩
    exact (Except.ok.inj (Option.some.inj hget)).symm
  · rintro rfl
    exact ⟨rfl, rfl⟩

end Fits

theorem batchReduce_folds_iff (layout : Layout Acc) (blank : Acc) {fn : Acc → T → Acc}
    {combine : Acc → Acc → Acc} {init : Acc} (h : ∀ a b x, fn (combine a b) x = combine a (fn b x)) :
    (∀ (data : List T) (batchSize workers : UInt64), 1 ≤ batchSize.toNat →
      data.length + batchSize.toNat < 2 ^ 64 →
        Returns layout (data.foldl fn init)
          (batchReduce E blank data batchSize workers init fn combine)) ↔
      Absorbs fn combine init (2 ^ 64 - 2) := by
  constructor
  · intro hall
    apply absorbs_of_singles
    intro data hlen
    rcases eq_or_ne data [] with rfl | hne
    · rfl
    · have hfits : data.length + (1 : UInt64).toNat < 2 ^ 64 := by
        rw [UInt64.toNat_one]
        omega
      have hret := (batchReduce_returns layout blank _ (by decide) hne hfits).1 (hall data 1 1 le_rfl hfits)
      simpa using hret.symm
  · intro habs data batchSize workers hone hfits
    have hsize : batchSize ≠ 0 := by
      rintro rfl
      simp at hone
    rcases eq_or_ne data [] with rfl | hne
    · exact (batchReduce_nil layout blank _).2 rfl
    · rw [batchReduce_returns layout blank _ hsize hne hfits, chunkFold_eq habs h hone (by omega),
        List.take_of_length_le]
      · exact (ceilDiv_le_iff hone _ _).1 le_rfl
      · intro b hb
        exact (lt_ceilDiv hone _ b).1 hb

theorem batchReduce_folds_sum : Returns .apart 6
    (batchReduce String 0 [1, 2, 3] 2 4 0 (fun acc x : Nat => acc + x) (· + ·)) := by
  refine (batchReduce_folds_iff .apart 0 (fun a b x => Nat.add_assoc a b x)).2 ?_ [1, 2, 3] 2 4 (by decide)
    (by decide)
  intro pre x _
  simp

-- The start value counts once for each batch and once more for the slots: 1 + (1 + 1) + (1 + 1).
theorem batchReduce_counts_init :
    Returns .apart 5 (batchReduce String 0 [1, 1] 1 1 1 (fun acc x : Nat => acc + x) (· + ·)) ∧
      ¬ Returns .apart ([1, 1].foldl (fun acc x : Nat => acc + x) 1)
        (batchReduce String 0 [1, 1] 1 1 1 (fun acc x : Nat => acc + x) (· + ·)) := by
  have hret : ∀ v, Returns .apart v
      (batchReduce String 0 [1, 1] 1 1 1 (fun acc x : Nat => acc + x) (· + ·)) ↔ v = 5 :=
    fun v => batchReduce_returns .apart 0 v (by decide) (by decide) (by decide)
  exact ⟨(hret 5).2 rfl, fun h => absurd ((hret _).1 h) (by decide)⟩

end Lark.Coro.Batch
