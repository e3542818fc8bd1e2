import Lark.Rpc.InProc
import Mathlib.Tactic

namespace Lark.Rpc

open Lark.Base

variable {σ ι : Type}

namespace InProcRegistry

variable {services : List (RpcService σ)} {r r' : InProcRegistry σ}

structure Free (r : InProcRegistry σ) (services : List (RpcService σ)) : Prop where
  distinct : (services.map (·.name)).Nodup
  absent : ∀ svc ∈ services, r svc.name = none

theorem registerAll_cons {svc : RpcService σ} (h : r svc.name = none) :
    registerAll (svc :: services) r =
      registerAll services (Function.update r svc.name (some svc)) := by
  simp [registerAll, register, h]

variable (services) in
theorem registerAll_registered {svc : RpcService σ} (h : r svc.name ≠ none) :
    ∃ e, registerAll (svc :: services) r = (.error e, r) := by
  cases hr : r svc.name with
  | none => exact absurd hr h
  | some other =>
    refine ⟨.invalidArgument ("InProcRegistry: duplicate service '" ++ svc.name ++ "'"), ?_⟩
    simp [registerAll, register, hr]

theorem Free.tail {svc : RpcService σ} (h : Free r (svc :: services)) :
    Free (Function.update r svc.name (some svc)) services := by
  have hd : svc.name ∉ services.map (·.name) ∧ (services.map (·.name)).Nodup :=
    List.nodup_cons.1 h.distinct
  refine ⟨hd.2, fun svc' hs => ?_⟩
  have hne : svc'.name ≠ svc.name := by
    intro he
    exact hd.1 (he ▸ List.mem_map_of_mem hs)
  rw [Function.update_of_ne hne]
  exact h.absent svc' (by simp [hs])

theorem registerAll_free (h : Free r services) :
    ∃ r', registerAll services r = (.ok (), r') ∧
      ∀ n svc, r' n = some svc ↔ r n = some svc ∨ svc ∈ services ∧ svc.name = n := by
  induction services generalizing r with
  | nil => exact ⟨r, rfl, by simp⟩
  | cons svc services ih =>
    have hnone : r svc.name = none := h.absent svc (by simp)
    obtain ⟨r', hr, hfind⟩ := ih h.tail
    refine ⟨r', (registerAll_cons hnone).trans hr, fun n svc' => ?_⟩
    rw [hfind]
    rcases eq_or_ne n svc.name with rfl | hn
    · rw [Function.update_self, hnone]
      constructor
      · rintro (hs | ⟨hs, he⟩)
        · exact .inr ⟨by simp [Option.some.inj hs], by rw [Option.some.inj hs]⟩
        · exact .inr ⟨by simp [hs], he⟩
      · rintro (hs | ⟨hs, he⟩)
        · exact absurd hs (by simp)
        · rcases List.mem_cons.1 hs with rfl | hs
          · exact .inl rfl
          · exact .inr ⟨hs, he⟩
    · rw [Function.update_of_ne hn]
      refine or_congr_right (and_congr_left fun he => ?_)
      have hne : svc' ≠ svc := by
        rintro rfl
        exact hn he.symm
      simp [hne]

variable (services) in
theorem registerAll_keeps {n : String} {svc : RpcService σ} (h : r n = some svc) :
    (registerAll services r).2 n = some svc := by
  induction services generalizing r with
  | nil => exact h
  | cons svc' services ih =>
    cases hr : r svc'.name with
    | some other =>
      have hsome : r svc'.name ≠ none := by simp [hr]
      obtain ⟨e, he⟩ := registerAll_registered services hsome
      rw [he]
      exact h
    | none =>
      rw [registerAll_cons hr]
      refine ih ?_
      have hne : n ≠ svc'.name := by
        rintro rfl
        simp [hr] at h
      rwa [Function.update_of_ne hne]

theorem free_of_registerAll (h : (registerAll services r).1 = .ok ()) : Free r services := by
  induction services generalizing r with
  | nil => exact ⟨by simp, by simp⟩
  | cons svc services ih =>
    cases hr : r svc.name with
    | some other =>
      have hsome : r svc.name ≠ none := by simp [hr]
      obtain ⟨e, he⟩ := registerAll_registered services hsome
      simp [he] at h
    | none =>
      rw [registerAll_cons hr] at h
      have hfree := ih h
      have hnot : ∀ svc' ∈ services, svc'.name ≠ svc.name := by
        intro svc' hs he
        have := hfree.absent svc' hs
        simp [he] at this
      refine ⟨?_, fun svc' hs => ?_⟩
      · refine List.nodup_cons.2 ⟨fun hm => ?_, hfree.distinct⟩
        obtain ⟨svc', hs, he⟩ := List.mem_map.1 hm
        exact hnot svc' hs he
      · rcases List.mem_cons.1 hs with rfl | hs
        · exact hr
        · have := hfree.absent svc' hs
          rwa [Function.update_of_ne (hnot svc' hs)] at this

theorem unregisterAll_apply (services : List (RpcService σ)) (r : InProcRegistry σ) (n : String) :
    unregisterAll services r n = if n ∈ services.map (·.name) then none else r n := by
  induction services generalizing r with
  | nil => simp [unregisterAll]
  | cons svc services ih =>
    have hstep : unregisterAll (svc :: services) r =
        unregisterAll services (r.unregister svc.name) := rfl
    rw [hstep, ih]
    rcases eq_or_ne n svc.name with rfl | hn
    · simp [unregister]
    · simp [unregister, hn]

end InProcRegistry

namespace Process

variable [DecidableEq ι]

def owned (p : Process σ ι) (i : ι) : List (RpcService σ) :=
  if (p.server i).started then (p.server i).registered else []

def FindsStarted (p : Process σ ι) : Prop :=
  ∀ n svc, p.registry.find n = some svc ↔
    ∃ i, (p.server i).started = true ∧ svc ∈ (p.server i).registered ∧ svc.name = n

def StopsOwn (p : Process σ ι) (i : ι) : Prop :=
  ∀ n, (p.stop i).registry n =
    if n ∈ (p.owned i).map (·.name) then none else p.registry n

def Owns (p : Process σ ι) : Call σ ι → Prop
  | .registerService i service => (p.registerService i service).2.registry = p.registry
  | .start i => ∀ e, (p.start i).1 = .error e → (p.start i).2.registry = p.registry
  | .stop i => p.StopsOwn i
  | .destroy i => p.StopsOwn i

def LeavesOthers (p : Process σ ι) (i : ι) : Prop :=
  (p.server i).started = true → ∀ svc ∈ (p.server i).services,
    svc.name ∈ (p.server i).registered.map (·.name) ∨ p.registry svc.name = none

def Disciplined (p : Process σ ι) : Call σ ι → Prop
  | .registerService _ _ => True
  | .start i => (p.server i).started = true ∨
      (∃ svc ∈ (p.server i).services.head?, p.registry svc.name ≠ none) ∨
      InProcRegistry.Free p.registry (p.server i).services
  | .stop i => p.LeavesOthers i
  | .destroy i => p.LeavesOthers i

def system : System (Process σ ι) where
  initial := fun p => p = .init
  step := fun p q => ∃ c, q = (p.call c).2

def disciplined : System (Process σ ι) where
  initial := fun p => p = .init
  step := fun p q => ∃ c, p.Disciplined c ∧ q = (p.call c).2

structure Inv (p : Process σ ι) : Prop where
  finds : p.FindsStarted
  distinct : ∀ i j, (p.server i).started = true → (p.server j).started = true →
    ∀ svc ∈ (p.server i).registered, ∀ svc' ∈ (p.server j).registered,
      svc.name = svc'.name → i = j
  kept : ∀ i, (p.server i).started = true → ∀ svc ∈ (p.server i).registered,
    svc ∈ (p.server i).services

variable {p : Process σ ι} {i : ι}

theorem start_cases (hs : (p.server i).started = false) :
    (InProcRegistry.Free p.registry (p.server i).services ∧ ∃ r,
      p.start i = (.ok (), { p with registry := r }.setServer i
        { p.server i with started := true, registered := (p.server i).services }) ∧
      ∀ n svc, r n = some svc ↔
        p.registry n = some svc ∨ svc ∈ (p.server i).services ∧ svc.name = n) ∨
    (¬ InProcRegistry.Free p.registry (p.server i).services ∧ ∃ e,
      p.start i = (.error e, { p with
        registry := (InProcRegistry.registerAll (p.server i).services p.registry).2 })) := by
  cases hres : InProcRegistry.registerAll (p.server i).services p.registry with
  | mk out r =>
    cases out with
    | ok u =>
      have hfree : InProcRegistry.Free p.registry (p.server i).services :=
        InProcRegistry.free_of_registerAll (by rw [hres])
      obtain ⟨r', hr, hfind⟩ := InProcRegistry.registerAll_free hfree
      rw [hres] at hr
      obtain rfl : r = r' := by simpa using hr
      exact .inl ⟨hfree, r, by simp [start, hs, hres], hfind⟩
    | error e =>
      refine .inr ⟨fun hfree => ?_, e, by simp [start, hs, hres]⟩
      obtain ⟨r', hr, -⟩ := InProcRegistry.registerAll_free hfree
      simp [hres] at hr

theorem start_owns_iff : p.Owns (.start i) ↔ p.Disciplined (.start i) := by
  simp only [Owns, Disciplined]
  cases hs : (p.server i).started with
  | true => simp [start, hs]
  | false =>
    rcases start_cases hs with ⟨hfree, r, hstart, -⟩ | ⟨hfree, e, hstart⟩
    · simp [hstart, hfree]
    · simp only [hstart, Except.error.injEq, forall_eq', hfree, or_false, Bool.false_eq_true,
        false_or]
      cases hsv : (p.server i).services with
      | nil => exact absurd ⟨by simp [hsv], by simp [hsv]⟩ hfree
      | cons svc rest =>
        simp only [List.head?_cons, Option.mem_some_iff, exists_eq_left']
        constructor
        · intro hsame hnone
          have hkeep := InProcRegistry.registerAll_keeps rest
            (Function.update_self svc.name (some svc) p.registry)
          rw [← InProcRegistry.registerAll_cons hnone, hsame, hnone] at hkeep
          simp at hkeep
        · intro hreg
          obtain ⟨e', he⟩ := InProcRegistry.registerAll_registered rest hreg
          rw [he]

theorem stop_owns_iff (h : Inv p) : p.StopsOwn i ↔ p.LeavesOthers i := by
  unfold StopsOwn LeavesOthers owned
  cases hs : (p.server i).started with
  | false => simp [stop, hs]
  | true =>
    have hstop : ∀ n, (p.stop i).registry n =
        if n ∈ (p.server i).services.map (·.name) then none else p.registry n := by
      intro n
      rw [← InProcRegistry.unregisterAll_apply]
      simp [stop, hs, setServer]
    simp only [hstop, if_true, forall_true_left]
    constructor
    · intro hown svc hm
      have := hown svc.name
      rw [if_pos (List.mem_map_of_mem hm)] at this
      split_ifs at this with hreg
      · exact .inl hreg
      · exact .inr this.symm
    · intro hleave n
      by_cases hn : n ∈ (p.server i).services.map (·.name)
      · obtain ⟨svc, hm, rfl⟩ := List.mem_map.1 hn
        rw [if_pos hn]
        rcases hleave svc hm with hreg | hnone
        · rw [if_pos hreg]
        · rw [hnone, ite_self]
      · have hreg : n ∉ (p.server i).registered.map (·.name) := by
          intro hm
          obtain ⟨svc, hsvc, rfl⟩ := List.mem_map.1 hm
          exact hn (List.mem_map_of_mem (h.kept i hs svc hsvc))
        rw [if_neg hn, if_neg hreg]

theorem owns_iff (h : Inv p) (c : Call σ ι) : p.Owns c ↔ p.Disciplined c := by
  cases c with
  | registerService i service =>
    simp only [Owns, Disciplined, iff_true]
    cases service <;> rfl
  | start i => exact start_owns_iff
  | stop i => exact stop_owns_iff h
  | destroy i => exact stop_owns_iff h

omit [DecidableEq ι] in
theorem inv_init : Inv (.init : Process σ ι) := by
  refine ⟨fun n svc => ?_, ?_, ?_⟩
  · simp [init, InProcRegistry.find, InProcServer.make]
  · simp [init, InProcServer.make]
  · simp [init, InProcServer.make]

theorem inv_registerService (h : Inv p) (service : Option (RpcService σ)) :
    Inv (p.registerService i service).2 := by
  cases service with
  | none => exact h
  | some svc =>
    have hserver : ∀ j, (((p.registerService i (some svc)).2.server j).started =
          (p.server j).started) ∧
        ((p.registerService i (some svc)).2.server j).registered = (p.server j).registered ∧
        ∀ svc' ∈ (p.server j).services,
          svc' ∈ ((p.registerService i (some svc)).2.server j).services := by
      intro j
      rcases eq_or_ne j i with rfl | hj
      · simp +contextual [registerService, setServer]
      · simp [registerService, setServer, hj]
    refine ⟨fun n svc' => ?_, fun j k => ?_, fun j hj svc' hm => ?_⟩
    · simp only [hserver]
      exact h.finds n svc'
    · simp only [hserver]
      exact h.distinct j k
    · rw [(hserver j).1] at hj
      rw [(hserver j).2.1] at hm
      exact (hserver j).2.2 svc' (h.kept j hj svc' hm)

theorem inv_start (h : Inv p) (hd : p.Disciplined (.start i)) : Inv (p.start i).2 := by
  cases hs : (p.server i).started with
  | true =>
    have hsame : p.start i = (.ok (), p) := by simp [start, hs]
    rw [hsame]
    exact h
  | false =>
    rcases start_cases hs with ⟨hfree, r, hstart, hfind⟩ | ⟨hfree, e, hstart⟩
    · rw [hstart]
      have hnot : ∀ j, (p.server j).started = true → j ≠ i := by
        rintro j hj rfl
        simp [hs] at hj
      have hfresh : ∀ svc ∈ (p.server i).services, ∀ j, (p.server j).started = true →
          ∀ svc' ∈ (p.server j).registered, svc.name ≠ svc'.name := by
        intro svc hm j hj svc' hm' he
        have := (h.finds svc'.name svc').2 ⟨j, hj, hm', rfl⟩
        rw [← he, InProcRegistry.find, hfree.absent svc hm] at this
        simp at this
      refine ⟨fun n svc => ?_, fun j k hj hk svc hm svc' hm' he => ?_, fun j hj svc hm => ?_⟩
      · have hold := h.finds n svc
        simp only [InProcRegistry.find] at hold
        simp only [InProcRegistry.find, setServer, hfind, hold]
        constructor
        · rintro (⟨j, hj, hm, he⟩ | ⟨hm, he⟩)
          · exact ⟨j, by simp [hnot j hj, hj], by simpa [hnot j hj] using hm, he⟩
          · exact ⟨i, by simp, by simpa using hm, he⟩
        · rintro ⟨j, hj, hm, he⟩
          rcases eq_or_ne j i with rfl | hji
          · exact .inr ⟨by simpa using hm, he⟩
          · exact .inl ⟨j, by simpa [hji] using hj, by simpa [hji] using hm, he⟩
      · rcases eq_or_ne j i with rfl | hji <;> rcases eq_or_ne k j with rfl | hkj
        · rfl
        · simp only [setServer, Function.update_self, ne_eq, hkj, not_false_eq_true,
            Function.update_of_ne] at hm hk hm'
          exact absurd he (hfresh svc hm k hk svc' hm')
        · rfl
        · rcases eq_or_ne k i with rfl | hki
          · simp only [setServer, Function.update_self, ne_eq, hji, not_false_eq_true,
              Function.update_of_ne] at hm hj hm'
            exact absurd he.symm (hfresh svc' hm' j hj svc hm)
          · simp only [setServer, ne_eq, hji, hki, not_false_eq_true,
              Function.update_of_ne] at hm hj hm' hk
            exact h.distinct j k hj hk svc hm svc' hm' he
      · rcases eq_or_ne j i with rfl | hji
        · simpa [setServer] using hm
        · simp only [setServer, ne_eq, hji, not_false_eq_true, Function.update_of_ne] at hm hj ⊢
          exact h.kept j hj svc hm
    · have hsame := start_owns_iff.2 hd e (by rw [hstart])
      have hp : (p.start i).2 = p := by
        rw [hstart] at hsame ⊢
        have hr : (InProcRegistry.registerAll (p.server i).services p.registry).2 = p.registry :=
          hsame
        rw [hr]
      rw [hp]
      exact h

theorem inv_retire (h : Inv p) (hd : p.LeavesOthers i) {s : InProcServer σ}
    (hs : s.started = false) : Inv ((p.stop i).setServer i s) := by
  have hreg := (stop_owns_iff h).2 hd
  have hserver : ∀ j, j ≠ i → ((p.stop i).setServer i s).server j = p.server j := by
    intro j hj
    simp only [setServer, Function.update_of_ne hj]
    unfold stop
    split_ifs
    · simp [setServer, hj]
    · rfl
  have hother : ∀ j, (((p.stop i).setServer i s).server j).started = true → j ≠ i := by
    rintro j hj rfl
    simp [setServer, hs] at hj
  refine ⟨fun n svc => ?_, fun j k hj hk => ?_, fun j hj => ?_⟩
  · have hfind : ((p.stop i).setServer i s).registry.find n = (p.stop i).registry n := rfl
    rw [hfind, hreg n]
    have hold := h.finds n svc
    rw [InProcRegistry.find] at hold
    constructor
    · intro hsome
      split_ifs at hsome with hown
      obtain ⟨j, hj, hm, he⟩ := hold.1 hsome
      have hji : j ≠ i := by
        rintro rfl
        exact hown (List.mem_map.2 ⟨svc, by simpa [owned, hj] using hm, he⟩)
      exact ⟨j, by rw [hserver j hji]; exact hj, by rw [hserver j hji]; exact hm, he⟩
    · rintro ⟨j, hj, hm, he⟩
      have hji := hother j hj
      rw [hserver j hji] at hj hm
      rw [if_neg, hold.2 ⟨j, hj, hm, he⟩]
      intro hown
      obtain ⟨svc', hm', he'⟩ := List.mem_map.1 hown
      cases hi : (p.server i).started with
      | false => simp [owned, hi] at hm'
      | true =>
        simp only [owned, hi, if_true] at hm'
        exact hji (h.distinct j i hj hi svc hm svc' hm' (he.trans he'.symm))
  · have hj' := hserver j (hother j hj)
    have hk' := hserver k (hother k hk)
    rw [hj'] at hj ⊢
    rw [hk'] at hk ⊢
    exact h.distinct j k hj hk
  · have hj' := hserver j (hother j hj)
    rw [hj'] at hj ⊢
    exact h.kept j hj

theorem inv_stop (h : Inv p) (hd : p.LeavesOthers i) : Inv (p.stop i) := by
  have hs : ((p.stop i).server i).started = false := by
    unfold stop
    split_ifs with hi
    · simp [setServer]
    · simpa using hi
  have hr := inv_retire h hd hs
  simpa [setServer, Function.update_eq_self] using hr

theorem inv_call (h : Inv p) {c : Call σ ι} (hd : p.Disciplined c) : Inv (p.call c).2 := by
  cases c with
  | registerService i service => exact inv_registerService h service
  | start i => exact inv_start h hd
  | stop i => exact inv_stop h hd
  | destroy i => exact inv_retire h hd rfl

theorem inv_disciplined (h : (disciplined : System (Process σ ι)).Reachable p) : Inv p := by
  refine System.Reachable.invariant (I := Inv) ?_ ?_ h
  · rintro p rfl
    exact inv_init
  · rintro p q hp ⟨c, hc, rfl⟩
    exact inv_call hp hc

theorem servers_own_registrations (h : (disciplined : System (Process σ ι)).Reachable p) :
    p.FindsStarted ∧ ∀ c, p.Owns c ↔ p.Disciplined c :=
  ⟨(inv_disciplined h).finds, owns_iff (inv_disciplined h)⟩

def noService (ptr : Nat) (name : String) : RpcService Unit :=
  ⟨ptr, name, fun _ _ _ response world => (.ok (.success, response), world)⟩

def afterCalls (p : Process σ ι) (calls : List (Call σ ι)) : Process σ ι :=
  calls.foldl (fun p c => (p.call c).2) p

def serving : Process Unit Bool :=
  afterCalls .init [.registerService true (some (noService 0 "x")), .start true]

theorem disciplined_serving : disciplined.Reachable serving := by
  have h₀ : (disciplined : System (Process Unit Bool)).Reachable .init :=
    System.reachable_initial rfl
  have h₁ := h₀.step ⟨.registerService true (some (noService 0 "x")), trivial, rfl⟩
  refine h₁.step ⟨.start true, .inr (.inr ⟨?_, ?_⟩), rfl⟩
  · decide
  · intro svc _
    rfl

theorem servers_own_registrations_serving : serving.FindsStarted ∧
    serving.Owns (.stop true) ∧ (serving.stop true).registry "x" = none := by
  obtain ⟨hfind, howns⟩ := servers_own_registrations disciplined_serving
  have hstop : serving.Owns (.stop true) := by
    refine (howns _).2 fun _ svc hm => ?_
    obtain rfl : svc = noService 0 "x" := List.mem_singleton.1 hm
    exact .inl (by decide)
  exact ⟨hfind, hstop, hstop "x"⟩

-- A `Start` that throws leaves what it had registered, and `Stop` unregisters by the current list.
theorem servers_share_registrations :
    (∃ p : Process Unit Bool, system.Reachable p ∧ ¬ p.Owns (.start false) ∧
      ¬ (p.call (.start false)).2.FindsStarted) ∧
    (∃ p : Process Unit Bool, system.Reachable p ∧ ¬ p.Owns (.stop false) ∧
      ¬ (p.call (.stop false)).2.FindsStarted) := by
  have h₀ : (system : System (Process Unit Bool)).Reachable .init := System.reachable_initial rfl
  have h₁ := h₀.step ⟨.registerService true (some (noService 0 "x")), rfl⟩
  have h₂ := h₁.step ⟨.start true, rfl⟩
  constructor
  · have h₃ := h₂.step ⟨.registerService false (some (noService 1 "y")), rfl⟩
    have h₄ := h₃.step ⟨.registerService false (some (noService 2 "x")), rfl⟩
    refine ⟨_, h₄, fun howns => ?_, fun hfind => ?_⟩
    · have := congrFun (howns _ rfl) "y"
      cases this
    · obtain ⟨i, hs, hm, -⟩ := (hfind "y" (noService 1 "y")).1 rfl
      cases i with
      | false => cases hs
      | true =>
        have hm : noService 1 "y" ∈ [noService 0 "x"] := hm
        have := congrArg RpcService.ptr (List.mem_singleton.1 hm)
        cases this
  · have h₃ := h₂.step ⟨.start false, rfl⟩
    have h₄ := h₃.step ⟨.registerService false (some (noService 2 "x")), rfl⟩
    refine ⟨_, h₄, fun howns => ?_, fun hfind => ?_⟩
    · have := howns "x"
      cases this
    · have := (hfind "x" (noService 0 "x")).2 ⟨true, rfl, List.mem_singleton.2 rfl, rfl⟩
      cases this

end Process

end Lark.Rpc
