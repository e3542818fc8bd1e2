import Lark.Coro.BatchReduce

namespace Lark.Coro.Batch

open Lark.Base Lark.Coro.Future

variable {E T U γ : Type} {m : Nat}

abbrev CellBody (γ E : Type) := Nat → γ → γ × Except E Unit

structure Sweep (m : Nat) (E γ : Type) where
  run : State m E (List γ)
  cells : List γ
  cursor : Fin m → Nat
  log : List Nat

section Model

variable (span : Fin m → Nat × Nat) (body : CellBody γ E)

-- One call of the user function is one step, on a cell that is an object of its own; the loops of
-- different batches interleave.
inductive SweepStep : Sweep m E γ → Sweep m E γ → Prop
  | element {s} (i : Fin m) {c c' : γ} (h : (s.run.batch i).call = .running)
      (hk : s.cursor i < (span i).2) (hc : s.cells[s.cursor i]? = some c)
      (hb : body (s.cursor i) c = (c', .ok ())) :
      SweepStep s { s with
        cells := s.cells.set (s.cursor i) c'
        cursor := Function.update s.cursor i (s.cursor i + 1)
        log := s.log ++ [s.cursor i] }
  | throw {s} (i : Fin m) {c c' : γ} {e : E} (h : (s.run.batch i).call = .running)
      (hk : s.cursor i < (span i).2) (hc : s.cells[s.cursor i]? = some c)
      (hb : body (s.cursor i) c = (c', .error e)) :
      SweepStep s
        { run := s.run.setBatch i { s.run.batch i with call := .ended (.error e) }
          cells := s.cells.set (s.cursor i) c'
          cursor := Function.update s.cursor i (s.cursor i + 1)
          log := s.log ++ [s.cursor i] }
  | finish {s} (i : Fin m) (h : (s.run.batch i).call = .running) (hk : ¬ s.cursor i < (span i).2) :
      SweepStep s { s with
        run := s.run.setBatch i { s.run.batch i with call := .ended (.ok ()) } }
  | other {s t} (h : Step (fun _ => .ok ()) (some s.cells) s.run t)
      (hr : ∀ i, (s.run.batch i).call = .running → (t.batch i).call = .running) :
      SweepStep s { s with run := t }

def sweeping (cells : List γ) : System (Sweep m E γ) where
  initial := fun s => s = ⟨.init, cells, fun i => (span i).1, []⟩
  step := SweepStep span body

def sweep (cells : List γ) : Nat → Nat → Nat × Except E Unit
  | 0, k => (k, .ok ())
  | r + 1, k =>
    match cells[k]? with
    | none => (k, .ok ())
    | some c =>
      match (body k c).2 with
      | .error e => (k + 1, .error e)
      | .ok _ => sweep cells r (k + 1)

def swept (cells : List γ) (i : Fin m) : Nat × Except E Unit :=
  sweep body cells ((span i).2 - (span i).1) (span i).1

def Fails (cells : List γ) (k : Nat) (e : E) : Prop :=
  ∃ c, cells[k]? = some c ∧ (body k c).2 = .error e

def Within (i : Fin m) (k : Nat) : Prop := (span i).1 ≤ k ∧ k < (span i).2

instance (i : Fin m) (k : Nat) : Decidable (Within span i k) := inferInstanceAs (Decidable (_ ∧ _))

structure Tiled (n : Nat) : Prop where
  ordered : ∀ i, (span i).1 ≤ (span i).2
  bounded : ∀ i, (span i).2 ≤ n
  disjoint : ∀ i j k, Within span i k → Within span j k → i = j
  covers : ∀ k < n, ∃ i, Within span i k

def Clear (cells : List γ) (i : Fin m) (k : Nat) : Prop :=
  ∀ j, (span i).1 ≤ j → j < k → ∀ e, ¬ Fails body cells j e

end Model

section Sweep

variable {body : CellBody γ E} {cells : List γ}

theorem le_sweep (r k : Nat) : k ≤ (sweep body cells r k).1 := by
  induction r generalizing k with
  | zero => exact le_rfl
  | succ r ih =>
    have hrest := ih (k + 1)
    simp only [sweep]
    split
    · exact le_rfl
    · split
      · exact k.le_succ
      · exact k.le_succ.trans hrest

theorem sweep_ok {r k : Nat} (hlen : r + k ≤ cells.length) (h : (sweep body cells r k).2 = .ok ()) :
    (sweep body cells r k).1 = k + r ∧ ∀ j, k ≤ j → j < k + r → ∀ e, ¬ Fails body cells j e := by
  induction r generalizing k with
  | zero => exact ⟨rfl, fun j hj hlt => by omega⟩
  | succ r ih =>
    have hk : k < cells.length := by omega
    rw [sweep, List.getElem?_eq_getElem hk] at h ⊢
    simp only at h ⊢
    cases hb : (body k cells[k]).2 with
    | error e => simp [hb] at h
    | ok u =>
      simp only [hb] at h ⊢
      obtain ⟨hstop, hrest⟩ := ih (by omega) h
      refine ⟨by omega, fun j hj hlt e => ?_⟩
      rcases hj.eq_or_lt with rfl | hlt'
      · rintro ⟨c, hc, he⟩
        obtain rfl : cells[k] = c := by simpa [List.getElem?_eq_getElem hk] using hc
        rw [hb] at he
        cases he
      · exact hrest j hlt' (by omega) e

theorem sweep_error {r k : Nat} {e : E} (hlen : r + k ≤ cells.length)
    (h : (sweep body cells r k).2 = .error e) :
    ∃ j, (sweep body cells r k).1 = j + 1 ∧ k ≤ j ∧ j < k + r ∧ Fails body cells j e ∧
      ∀ j', k ≤ j' → j' < j → ∀ e', ¬ Fails body cells j' e' := by
  induction r generalizing k with
  | zero => cases h
  | succ r ih =>
    have hk : k < cells.length := by omega
    rw [sweep, List.getElem?_eq_getElem hk] at h ⊢
    simp only at h ⊢
    cases hb : (body k cells[k]).2 with
    | error e' =>
      simp only [hb] at h ⊢
      obtain rfl := Except.error.inj h
      exact ⟨k, rfl, le_rfl, by omega, ⟨_, List.getElem?_eq_getElem hk, hb⟩,
        fun j' hj hlt => by omega⟩
    | ok u =>
      simp only [hb] at h ⊢
      obtain ⟨j, hstop, hkj, hj, hfail, hrest⟩ := ih (by omega) h
      refine ⟨j, hstop, by omega, by omega, hfail, fun j' hj' hlt e' => ?_⟩
      rcases hj'.eq_or_lt with rfl | hlt'
      · rintro ⟨c, hc, he⟩
        obtain rfl : cells[k] = c := by simpa [List.getElem?_eq_getElem hk] using hc
        rw [hb] at he
        cases he
      · exact hrest j' hlt' hlt e'

theorem sweep_next {r k : Nat} {c c' : γ} (hc : cells[k]? = some c)
    (hb : body k c = (c', .ok ())) : sweep body cells (r + 1) k = sweep body cells r (k + 1) := by
  simp [sweep, hc, hb]

theorem sweep_throw {r k : Nat} {c c' : γ} {e : E} (hc : cells[k]? = some c)
    (hb : body k c = (c', .error e)) : sweep body cells (r + 1) k = (k + 1, .error e) := by
  simp [sweep, hc, hb]

theorem lt_sweep_iff {r k j : Nat} (hlen : r + k ≤ cells.length) (hj : j < k + r) :
    j < (sweep body cells r k).1 ↔ ∀ j', k ≤ j' → j' < j → ∀ e, ¬ Fails body cells j' e := by
  cases ho : (sweep body cells r k).2 with
  | ok v =>
    obtain ⟨hstop, hrest⟩ := sweep_ok hlen ho
    exact ⟨fun _ j' hj' hlt => hrest j' hj' (by omega), fun _ => by omega⟩
  | error e =>
    obtain ⟨x, hstop, hkx, hx, hfail, hrest⟩ := sweep_error hlen ho
    constructor
    · intro hlt j' hj' hlt'
      exact hrest j' hj' (by omega)
    · intro hclear
      by_contra hle
      exact hclear x hkx (by omega) e hfail

end Sweep

structure SweepInv (span : Fin m → Nat × Nat) (body : CellBody γ E) (cells : List γ)
    (s : Sweep m E γ) : Prop where
  run : Inv (fun i => (swept span body cells i).2) s.run
  signals : AllOf.Signals s.run.join
  held : ∀ k, s.cells[k]? = cells[k]?.map fun c => if k ∈ s.log then (body k c).1 else c
  within : ∀ k ∈ s.log, ∃ i, Within span i k
  order : ∀ i, s.log.filter (Within span i ·) =
    List.range' (span i).1 (s.cursor i - (span i).1)
  cursor : ∀ i, (span i).1 ≤ s.cursor i ∧ s.cursor i ≤ (span i).2
  ahead : ∀ i, ¬ (s.run.batch i).call.Ended →
    sweep body cells ((span i).2 - s.cursor i) (s.cursor i) = swept span body cells i
  ended : ∀ i, (s.run.batch i).call.Ended → s.cursor i = (swept span body cells i).1

section Steps

variable {span : Fin m → Nat × Nat} {body : CellBody γ E} {cells : List γ} {s t : Sweep m E γ}

theorem Step.recast {V : Type} {outcome outcome' : Fin m → Except E Unit} {collect : Option V}
    {s t : State m E V} (h : Step outcome collect s t)
    (hr : ∀ i, (s.batch i).call = .running → (t.batch i).call = .running) :
    Step outcome' collect s t := by
  cases h with
  | launch i hi hp => exact .launch i hi hp
  | run i hi =>
    refine .run i ?_
    cases hi with
    | hop hc => exact .hop hc
    | start hc => exact .start hc
    | finish hc =>
      have hrun := hr i hc
      simp [State.setBatch] at hrun
    | lock hc hres => exact .lock hc hres
    | set hres hd => exact .set hres hd
  | join hl hj => exact .join hl hj
  | observe hw hp hd => exact .observe hw hp hd
  | call hw => exact .call hw
  | set hres hd => exact .set hres hd

theorem call_ended {V : Type} {outcome : Fin m → Except E Unit} {collect : Option V}
    {s t : State m E V} (h : Step outcome collect s t) {i : Fin m} {o : Except E Unit}
    (ho : (s.batch i).call = .ended o) : (t.batch i).call = .ended o := by
  cases h with
  | launch k hk =>
    rcases eq_or_ne i k with rfl | hne
    · rw [hk] at ho
      cases ho
    · simpa [State.setBatch, hne] using ho
  | run k hk =>
    rcases eq_or_ne i k with rfl | hne
    · simpa [State.setBatch] using hk.ended ho
    · simpa [State.setBatch, hne] using ho
  | _ => exact ho

namespace SweepInv

theorem mem_log_iff (h : SweepInv span body cells s) {i : Fin m} {k : Nat} (hk : Within span i k) :
    k ∈ s.log ↔ k < s.cursor i := by
  have hmem : k ∈ s.log ↔ k ∈ s.log.filter (Within span i ·) := by simp [hk]
  rw [hmem, h.order i, List.mem_range'_1]
  have hle := h.cursor i
  have hbegin := hk.1
  omega

theorem fresh (h : SweepInv span body cells s) {i : Fin m} (hk : s.cursor i < (span i).2) :
    Within span i (s.cursor i) ∧ s.cursor i ∉ s.log := by
  have hwithin : Within span i (s.cursor i) := ⟨(h.cursor i).1, hk⟩
  exact ⟨hwithin, by simp [h.mem_log_iff hwithin]⟩

theorem untouched (h : SweepInv span body cells s) {i : Fin m} (hk : s.cursor i < (span i).2)
    {c : γ} (hc : s.cells[s.cursor i]? = some c) : cells[s.cursor i]? = some c := by
  have hheld := h.held (s.cursor i)
  rw [hc] at hheld
  simpa [(h.fresh hk).2, eq_comm] using hheld

theorem advance (h : SweepInv span body cells s) (hs : Tiled span cells.length) {i : Fin m}
    (hk : s.cursor i < (span i).2) {c : γ} (hc : s.cells[s.cursor i]? = some c) :
    (∀ k, (s.cells.set (s.cursor i) (body (s.cursor i) c).1)[k]? =
      cells[k]?.map fun c => if k ∈ s.log ++ [s.cursor i] then (body k c).1 else c) ∧
    (∀ k ∈ s.log ++ [s.cursor i], ∃ i, Within span i k) ∧
    (∀ j, (s.log ++ [s.cursor i]).filter (Within span j ·) = List.range' (span j).1
      (Function.update s.cursor i (s.cursor i + 1) j - (span j).1)) ∧
    ∀ j, (span j).1 ≤ Function.update s.cursor i (s.cursor i + 1) j ∧
      Function.update s.cursor i (s.cursor i + 1) j ≤ (span j).2 := by
  have hwithin := (h.fresh hk).1
  have hcell := h.untouched hk hc
  have hlt : s.cursor i < s.cells.length := (List.getElem?_eq_some_iff.1 hc).1
  refine ⟨fun k => ?_, fun k hmem => ?_, fun j => ?_, fun j => ?_⟩
  · rcases eq_or_ne (s.cursor i) k with rfl | hne
    · simp [hlt, hcell]
    · rw [List.getElem?_set_ne hne, h.held k]
      simp [hne.symm]
  · rcases List.mem_append.1 hmem with hmem | hmem
    · exact h.within k hmem
    · exact ⟨i, List.mem_singleton.1 hmem ▸ hwithin⟩
  · rw [List.filter_append, h.order j]
    rcases eq_or_ne j i with rfl | hne
    · have hstep : s.cursor j + 1 - (span j).1 = s.cursor j - (span j).1 + 1 := by
        have hle := (h.cursor j).1
        omega
      have hlast : (span j).1 + (s.cursor j - (span j).1) = s.cursor j :=
        Nat.add_sub_cancel' (h.cursor j).1
      simp [hwithin, hstep, List.range'_1_concat, hlast]
    · have hout : ¬ Within span j (s.cursor i) := fun hj => hne (hs.disjoint j i _ hj hwithin)
      simp [hout, hne]
  · rcases eq_or_ne j i with rfl | hne
    · have hle := (h.cursor j).1
      simp only [Function.update_self]
      omega
    · simpa [hne] using h.cursor j

theorem element (h : SweepInv span body cells s) (hs : Tiled span cells.length) {i : Fin m}
    {c c' : γ} (hr : (s.run.batch i).call = .running) (hk : s.cursor i < (span i).2)
    (hc : s.cells[s.cursor i]? = some c) (hb : body (s.cursor i) c = (c', .ok ())) :
    SweepInv span body cells { s with
      cells := s.cells.set (s.cursor i) c'
      cursor := Function.update s.cursor i (s.cursor i + 1)
      log := s.log ++ [s.cursor i] } := by
  have hcell := h.untouched hk hc
  obtain ⟨hheld, hwithin, horder, hcursor⟩ := h.advance hs hk hc
  rw [hb] at hheld
  refine ⟨h.run, h.signals, hheld, hwithin, horder, hcursor, fun j hj => ?_, fun j hj => ?_⟩
  · rcases eq_or_ne j i with rfl | hne
    · obtain ⟨r, hr⟩ : ∃ r, (span j).2 - s.cursor j = r + 1 :=
        ⟨(span j).2 - s.cursor j - 1, by omega⟩
      have hahead := h.ahead j hj
      rw [hr, sweep_next hcell hb] at hahead
      have hrest : (span j).2 - (s.cursor j + 1) = r := by omega
      simpa [hrest] using hahead
    · simpa [hne] using h.ahead j hj
  · rcases eq_or_ne j i with rfl | hne
    · obtain ⟨o, ho⟩ := hj
      simp [hr] at ho
    · simpa [hne] using h.ended j hj

theorem close (h : SweepInv span body cells s) {i : Fin m} {o : Except E Unit}
    {cells' : List γ} {cursor' : Fin m → Nat} {log' : List Nat}
    (hr : (s.run.batch i).call = .running)
    (hheld : ∀ k, cells'[k]? = cells[k]?.map fun c => if k ∈ log' then (body k c).1 else c)
    (hwithin : ∀ k ∈ log', ∃ i, Within span i k)
    (horder : ∀ j, log'.filter (Within span j ·) =
      List.range' (span j).1 (cursor' j - (span j).1))
    (hcursor : ∀ j, (span j).1 ≤ cursor' j ∧ cursor' j ≤ (span j).2)
    (hsame : ∀ j ≠ i, cursor' j = s.cursor j)
    (hswept : swept span body cells i = (cursor' i, o)) :
    SweepInv span body cells
      { run := s.run.setBatch i { s.run.batch i with call := .ended o }
        cells := cells', cursor := cursor', log := log' } := by
  have hout : o = (swept span body cells i).2 := by rw [hswept]
  have hrun : Step (fun i => (swept span body cells i).2) (none : Option (List γ)) s.run
      (s.run.setBatch i { s.run.batch i with call := .ended o }) := by
    rw [hout]
    exact .run i (.finish hr)
  refine ⟨h.run.step hrun, h.signals, hheld, hwithin, horder, hcursor, fun j hj => ?_,
    fun j hj => ?_⟩
  · rcases eq_or_ne j i with rfl | hne
    · exact absurd ⟨o, by simp [State.setBatch]⟩ hj
    · have hopen : ¬ (s.run.batch j).call.Ended := by simpa [State.setBatch, hne] using hj
      simpa [hsame j hne] using h.ahead j hopen
  · rcases eq_or_ne j i with rfl | hne
    · rw [hswept]
    · have hend : (s.run.batch j).call.Ended := by simpa [State.setBatch, hne] using hj
      simpa [hsame j hne] using h.ended j hend

theorem other (h : SweepInv span body cells s) {u : State m E (List γ)}
    (hst : Step (fun _ => .ok ()) (some s.cells) s.run u)
    (hr : ∀ i, (s.run.batch i).call = .running → (u.batch i).call = .running) :
    SweepInv span body cells { s with run := u } := by
  have hstep : Step (fun i => (swept span body cells i).2) (some s.cells) s.run u :=
    hst.recast hr
  refine ⟨h.run.step hstep, signals_step h.signals hst, h.held, h.within, h.order, h.cursor,
    fun i hi => h.ahead i fun ⟨o, ho⟩ => hi ⟨o, call_ended hst ho⟩, fun i hi => ?_⟩
  exact h.ended i (ended_of_step hst hr hi)

theorem step (h : SweepInv span body cells s) (hs : Tiled span cells.length)
    (hst : SweepStep span body s t) : SweepInv span body cells t := by
  cases hst with
  | element i hr hk hc hb => exact h.element hs hr hk hc hb
  | throw i hr hk hc hb =>
    obtain ⟨hheld, hwithin, horder, hcursor⟩ := h.advance hs hk hc
    rw [hb] at hheld
    refine h.close hr hheld hwithin horder hcursor (fun j hne => by simp [hne]) ?_
    have hopen : ¬ (s.run.batch i).call.Ended := by
      rintro ⟨o, ho⟩
      simp [hr] at ho
    obtain ⟨r, hr⟩ : ∃ r, (span i).2 - s.cursor i = r + 1 :=
      ⟨(span i).2 - s.cursor i - 1, by omega⟩
    rw [← h.ahead i hopen, hr, sweep_throw (h.untouched hk hc) hb, Function.update_self]
  | finish i hr hk =>
    refine h.close hr h.held h.within h.order h.cursor (fun j _ => rfl) ?_
    have hopen : ¬ (s.run.batch i).call.Ended := by
      rintro ⟨o, ho⟩
      simp [hr] at ho
    have hrest : (span i).2 - s.cursor i = 0 := by omega
    rw [← h.ahead i hopen, hrest, sweep]
  | other hst hr => exact h.other hst hr

theorem init (hs : Tiled span cells.length) :
    SweepInv span body cells (⟨.init, cells, fun i => (span i).1, []⟩ : Sweep m E γ) := by
  refine ⟨.init, AllOf.signals_init, by simp, by simp, by simp, fun i => ⟨le_rfl, hs.ordered i⟩,
    fun i _ => rfl, ?_⟩
  rintro i ⟨o, ho⟩
  cases ho

theorem lt_swept_iff (hs : Tiled span cells.length) {i : Fin m} {k : Nat} (hk : Within span i k) :
    k < (swept span body cells i).1 ↔ Clear span body cells i k := by
  have hend := hs.bounded i
  have hlen : (span i).2 - (span i).1 + (span i).1 ≤ cells.length := by
    have hle := hs.ordered i
    omega
  rw [swept, lt_sweep_iff hlen, Clear]
  have hlt := hk.2
  omega

theorem stopped (h : SweepInv span body cells s) (hs : Tiled span cells.length) {i : Fin m}
    (hi : (s.run.batch i).call.Ended) {k : Nat} (hk : Within span i k) :
    k ∈ s.log ↔ Clear span body cells i k := by
  rw [h.mem_log_iff hk, h.ended i hi, lt_swept_iff hs hk]

theorem clear (h : SweepInv span body cells s) (hs : Tiled span cells.length) {i : Fin m}
    {k : Nat} (hk : Within span i k) (hmem : k ∈ s.log) : Clear span body cells i k := by
  have hstop : s.cursor i ≤ (swept span body cells i).1 := by
    by_cases he : (s.run.batch i).call.Ended
    · exact (h.ended i he).le
    · rw [← h.ahead i he]
      exact le_sweep _ _
  rw [← lt_swept_iff hs hk]
  exact ((h.mem_log_iff hk).1 hmem).trans_le hstop

theorem no_failure (h : SweepInv span body cells s) (hs : Tiled span cells.length) {i : Fin m}
    (hi : (s.run.batch i).call = .ended (.ok ())) {k : Nat} (hk : Within span i k) (e : E) :
    ¬ Fails body cells k e := by
  have hout := (h.run.task i).call _ hi
  have hend := hs.bounded i
  have hlen : (span i).2 - (span i).1 + (span i).1 ≤ cells.length := by
    have hle := hs.ordered i
    omega
  refine (sweep_ok hlen hout.symm).2 k hk.1 ?_ e
  have hlt := hk.2
  omega

theorem failure (h : SweepInv span body cells s) (hs : Tiled span cells.length) {i : Fin m} {e : E}
    (hi : (s.run.batch i).call = .ended (.error e)) : ∃ k ∈ s.log, Fails body cells k e := by
  have hout := (h.run.task i).call _ hi
  have hend := hs.bounded i
  have hlen : (span i).2 - (span i).1 + (span i).1 ≤ cells.length := by
    have hle := hs.ordered i
    omega
  obtain ⟨k, hstop, hbegin, hk, hfail, -⟩ := sweep_error hlen hout.symm
  have hwithin : Within span i k := ⟨hbegin, by omega⟩
  refine ⟨k, (h.mem_log_iff hwithin).2 ?_, hfail⟩
  rw [h.ended i ⟨_, hi⟩, swept]
  omega

theorem full (h : SweepInv span body cells s) (hs : Tiled span cells.length)
    (hall : ∀ i, (s.run.batch i).call = .ended (.ok ())) :
    (∀ k < cells.length, k ∈ s.log) ∧ s.cells = cells.mapIdx fun k c => (body k c).1 := by
  have hlogged : ∀ k < cells.length, k ∈ s.log := by
    intro k hk
    obtain ⟨i, hwithin⟩ := hs.covers k hk
    refine (h.stopped hs ⟨_, hall i⟩ hwithin).2 fun j hj hlt e => ?_
    exact h.no_failure hs (hall i) ⟨hj, hlt.trans hwithin.2⟩ e
  refine ⟨hlogged, List.ext_getElem? fun k => ?_⟩
  rw [h.held k, List.getElem?_mapIdx]
  rcases Nat.lt_or_ge k cells.length with hk | hk
  · simp [hlogged k hk]
  · simp [List.getElem?_eq_none hk]

theorem nodup (h : SweepInv span body cells s) : s.log.Nodup := by
  rw [List.nodup_iff_count_le_one]
  intro k
  by_cases hmem : k ∈ s.log
  · obtain ⟨i, hi⟩ := h.within k hmem
    rw [← List.count_filter (p := (Within span i ·)) (by simpa using hi), h.order i]
    exact List.nodup_iff_count_le_one.1 List.nodup_range' k
  · simp [List.count_eq_zero_of_not_mem hmem]

end SweepInv

theorem sweepInv_reachable (hs : Tiled span cells.length)
    (h : (sweeping span body cells).Reachable s) : SweepInv span body cells s := by
  refine System.Reachable.invariant ?_ (fun s t hinv hst => hinv.step hs hst) h
  rintro s rfl
  exact .init hs

def Sweep.rank (span : Fin m → Nat × Nat) (s : Sweep m E γ) : Nat :=
  s.run.rank + ∑ i, ((span i).2 - s.cursor i)

theorem rank_advance {i : Fin m} (hk : s.cursor i < (span i).2) :
    ∑ j, ((span j).2 - Function.update s.cursor i (s.cursor i + 1) j) <
      ∑ j, ((span j).2 - s.cursor j) :=
  sum_update_lt (fun j k => (span j).2 - k) (by omega)

theorem sweep_rank_step (hst : SweepStep span body s t) : t.rank span < s.rank span := by
  have hend : ∀ (i : Fin m) (o : Except E Unit), (s.run.batch i).call = .running →
      (s.run.setBatch i { s.run.batch i with call := .ended o }).rank < s.run.rank := by
    intro i o hr
    have hrun : Step (fun _ => o) (none : Option (List γ)) s.run
        (s.run.setBatch i { s.run.batch i with call := .ended o }) := .run i (.finish hr)
    exact rank_step hrun
  cases hst with
  | element i hr hk => exact Nat.add_lt_add_left (rank_advance hk) _
  | throw i hr hk => exact Nat.add_lt_add (hend i _ hr) (rank_advance hk)
  | finish i hr => exact Nat.add_lt_add_right (hend i _ hr) _
  | other hst => exact Nat.add_lt_add_right (rank_step hst) _

theorem sweeping_wellFounded (span : Fin m → Nat × Nat) (body : CellBody γ E) (cells : List γ) :
    WellFounded fun t s => (sweeping span body cells).step s t :=
  Subrelation.wf (fun hst => sweep_rank_step hst) (measure (Sweep.rank span)).wf

section Quiescent

variable (h : SweepInv span body cells s) (hs : Tiled span cells.length)
  (hq : ∀ t, ¬ SweepStep span body s t)

include h hs hq

theorem not_running (i : Fin m) : (s.run.batch i).call ≠ .running := by
  intro hr
  by_cases hk : s.cursor i < (span i).2
  · have hlt : s.cursor i < cells.length := hk.trans_le (hs.bounded i)
    have hlen : s.cells[s.cursor i]? = some cells[s.cursor i] := by
      rw [h.held, List.getElem?_eq_getElem hlt]
      simp [(h.fresh hk).2]
    rcases hb : body (s.cursor i) cells[s.cursor i] with ⟨c', o⟩
    cases o with
    | ok u => exact hq _ (.element i hr hk hlen hb)
    | error e => exact hq _ (.throw i hr hk hlen hb)
  · exact hq _ (.finish i hr hk)

theorem run_stuck (u : State m E (List γ)) :
    ¬ Step (fun i => (swept span body cells i).2) (some s.cells) s.run u := by
  have hidle := not_running h hs hq
  intro hst
  have hkept : ∀ i, (s.run.batch i).call = .running → (u.batch i).call = .running :=
    fun i hi => absurd hi (hidle i)
  exact hq _ (.other (hst.recast hkept) hkept)

theorem joined_of_stuck : (∀ i, (s.run.batch i).call.Ended) ∧ s.run.join.out.done = true := by
  have hstuck := run_stuck h hs hq
  have hl := launched_of_stuck hstuck
  have hbatch : ∀ i, (s.run.batch i).future.done = true := fun i =>
    Task.done_of_stuck (hl i) fun t ht => hstuck _ (.run i ht)
  have hheld := fun i => (h.run.task i).of_done (hbatch i)
  refine ⟨fun i => ⟨_, ((h.run.task i).holds (hheld i)).2⟩, ?_⟩
  exact AllOf.done_of_finished h.run.join h.signals (AllOf.finished_of_stuck
    (fun i => ⟨hbatch i, _, hheld i⟩) fun j hj => hstuck _ (.join hl hj))

end Quiescent

end Steps

section Ranges

def spanOf (n batchSize workers : UInt64) (b : Fin (batches n batchSize workers).toNat) :
    Nat × Nat :=
  let r := range n batchSize workers (.ofNat b)
  (r.1.toNat, r.2.toNat)

theorem tiled_spanOf {n batchSize workers : UInt64} (hn : n ≠ 0)
    (hfits : n.toNat + (effectiveSize n batchSize workers).toNat ≤ 2 ^ 64) :
    Tiled (spanOf n batchSize workers) n.toNat := by
  have hpos := toNat_pos (effectiveSize_ne_zero n batchSize workers)
  have hcount := toNat_batches batchSize workers hn
  have hspan : ∀ b, spanOf n batchSize workers b =
      span (effectiveSize n batchSize workers).toNat n.toNat b := fun b => toNat_range b.2 hn
  rw [if_pos hfits] at hcount
  generalize (effectiveSize n batchSize workers).toNat = size at hpos hcount hspan
  have hindex : ∀ b k, Within (spanOf n batchSize workers) b k → b.1 = k / size := by
    rintro b k ⟨hbegin, hend⟩
    rw [hspan, span] at hbegin hend
    refine (Nat.div_eq_of_lt_le hbegin ?_).symm
    rw [Nat.succ_mul]
    exact hend.trans_le (min_le_left _ _)
  refine ⟨fun b => ?_, fun b => ?_, fun b b' k hb hb' => ?_, fun k hk => ?_⟩
  · have hlt : b.1 * size < n.toNat := by
      rw [← lt_ceilDiv hpos, ← hcount]
      exact b.2
    rw [hspan, span]
    exact le_min (Nat.le_add_right _ _) hlt.le
  · rw [hspan, span]
    exact min_le_right _ _
  · exact Fin.ext ((hindex b k hb).trans (hindex b' k hb').symm)
  · have hdiv : k / size * size ≤ k := Nat.div_mul_le_self k size
    refine ⟨⟨k / size, ?_⟩, ?_, ?_⟩
    · rw [hcount, lt_ceilDiv hpos]
      exact hdiv.trans_lt hk
    · rw [hspan]
      exact hdiv
    · rw [hspan]
      exact lt_min (Nat.lt_div_mul_add hpos) hk

theorem tiled_spanOf_length {data : List T} {batchSize workers : UInt64} (hlen : data.length ≠ 0)
    (hfits : data.length + (effectiveSize (.ofNat data.length) batchSize workers).toNat ≤ 2 ^ 64) :
    Tiled (spanOf (.ofNat data.length) batchSize workers) data.length := by
  have hpos := toNat_pos (effectiveSize_ne_zero (.ofNat data.length) batchSize workers)
  have hn : (UInt64.ofNat data.length).toNat = data.length := by
    rw [UInt64.toNat_ofNat', Nat.mod_eq_of_lt (by omega)]
  have hn0 : UInt64.ofNat data.length ≠ 0 := by
    intro h
    rw [h] at hn
    exact hlen hn.symm
  have htiled : Tiled (spanOf (.ofNat data.length) batchSize workers)
      (UInt64.ofNat data.length).toNat := tiled_spanOf hn0 (by rwa [hn])
  rwa [hn] at htiled

end Ranges

section Map

structure Handled (span : Fin m → Nat × Nat) (body : CellBody γ E) (cells : List γ)
    (s : Sweep m E γ) : Prop where
  once : s.log.Nodup
  inside : ∀ k ∈ s.log, k < cells.length
  held : ∀ k, s.cells[k]? = cells[k]?.map fun c => if k ∈ s.log then (body k c).1 else c
  order : ∀ i, s.log.filter (Within span i ·) <+:
    List.range' (span i).1 ((span i).2 - (span i).1)
  clear : ∀ i k, Within span i k → k ∈ s.log → Clear span body cells i k
  value : Holds s.run.join.out (.ok ()) →
    s.log.Perm (List.range cells.length) ∧ ∀ k e, ¬ Fails body cells k e
  error : ∀ e, Holds s.run.join.out (.error e) → ∃ k ∈ s.log, Fails body cells k e
  quiescent : (∀ t, ¬ SweepStep span body s t) → s.run.join.out.done = true ∧
    ∀ i k, Within span i k → (k ∈ s.log ↔ Clear span body cells i k)

def Handles (span : Fin m → Nat × Nat) (body : CellBody γ E) (cells : List γ) :
    FutureState E Unit ⊕ System (Sweep m E γ) → Prop
  | .inl f => cells = [] ∧ f.done = true ∧ f.get = some (.ok ())
  | .inr M => (WellFounded fun t s => M.step s t) ∧
      ∀ s, M.Reachable s → Handled span body cells s

def batchMap (data : List T) (batchSize workers : UInt64) (fn : T → T × Except E Unit) :
    FutureState E Unit ⊕ System (Sweep (batches (.ofNat data.length) batchSize workers).toNat E T) :=
  if data.length = 0 then .inl { (FutureState.pending.resolve (.ok ())) with done := true }
  else .inr (sweeping (spanOf (.ofNat data.length) batchSize workers) (fun _ => fn) data)

def batchForEach (data : List T) (batchSize workers : UInt64) (fn : T → Except E Unit) :
    FutureState E Unit ⊕ System (Sweep (batches (.ofNat data.length) batchSize workers).toNat E T) :=
  batchMap data batchSize workers fun x => (x, fn x)

variable {span : Fin m → Nat × Nat} {body : CellBody γ E} {cells : List γ} {s t : Sweep m E γ}

theorem SweepInv.ended_ok (h : SweepInv span body cells s)
    (hv : Holds s.run.join.out (.ok ())) (i : Fin m) :
    (s.run.batch i).call = .ended (.ok ()) := by
  obtain ⟨w, hw⟩ := h.run.join.out_value hv i
  obtain ⟨hout, hend⟩ := (h.run.task i).holds hw
  rw [hend, ← hout]

theorem SweepInv.ended_error (h : SweepInv span body cells s) {e : E}
    (he : Holds s.run.join.out (.error e)) :
    ∃ i, (s.run.batch i).call = .ended (.error e) := by
  obtain ⟨i, hi⟩ := h.run.join.out_error he
  obtain ⟨hout, hend⟩ := (h.run.task i).holds hi
  exact ⟨i, by rw [hend, ← hout]⟩

theorem SweepInv.inside (h : SweepInv span body cells s) (hs : Tiled span cells.length) :
    ∀ k ∈ s.log, k < cells.length := by
  intro k hk
  obtain ⟨i, hi⟩ := h.within k hk
  exact hi.2.trans_le (hs.bounded i)

theorem handled (hs : Tiled span cells.length) (h : SweepInv span body cells s) :
    Handled span body cells s := by
  refine ⟨h.nodup, h.inside hs, h.held, fun i => ?_, fun i k hk => h.clear hs hk, fun hv => ?_,
    fun e he => ?_, fun hq => ?_⟩
  · have hcut : s.cursor i - (span i).1 + ((span i).2 - s.cursor i) =
        (span i).2 - (span i).1 := by
      have hle := h.cursor i
      omega
    rw [h.order i, ← hcut, ← List.range'_append_1]
    exact List.prefix_append _ _
  · have hended := h.ended_ok hv
    refine ⟨?_, fun k e hfail => ?_⟩
    · rw [List.perm_ext_iff_of_nodup h.nodup List.nodup_range]
      intro k
      rw [List.mem_range]
      exact ⟨h.inside hs k, (h.full hs hended).1 k⟩
    · obtain ⟨c, hc, -⟩ := id hfail
      obtain ⟨i, hi⟩ := hs.covers k (List.getElem?_eq_some_iff.1 hc).1
      exact h.no_failure hs (hended i) hi e hfail
  · obtain ⟨i, hi⟩ := h.ended_error he
    exact h.failure hs hi
  · obtain ⟨hended, hdone⟩ := joined_of_stuck h hs hq
    exact ⟨hdone, fun i k hk => h.stopped hs (hended i) hk⟩

theorem batchMap_handles {data : List T} {batchSize workers : UInt64}
    {fn : T → T × Except E Unit}
    (hfits : data.length + (effectiveSize (.ofNat data.length) batchSize workers).toNat ≤ 2 ^ 64) :
    Handles (spanOf (.ofNat data.length) batchSize workers) (fun _ => fn) data
      (batchMap data batchSize workers fn) := by
  rw [batchMap]
  split_ifs with hlen
  · exact ⟨List.length_eq_zero_iff.1 hlen, rfl, rfl⟩
  · have htiled := tiled_spanOf_length hlen hfits
    exact ⟨sweeping_wellFounded _ _ _, fun s hs => handled htiled (sweepInv_reachable htiled hs)⟩

theorem batchMap_handles_pairs : Handles (spanOf (.ofNat [1, 2, 3, 4].length) 2 2)
    (fun _ (x : Nat) => (x + 1, if x % 2 = 0 then Except.error x else .ok ())) [1, 2, 3, 4]
    (batchMap [1, 2, 3, 4] 2 2 fun x : Nat => (x + 1, if x % 2 = 0 then .error x else .ok ())) := by
  apply batchMap_handles
  decide

theorem batchForEach_keeps {data : List T} {batchSize workers : UInt64} {fn : T → Except E Unit}
    (hfits : data.length + (effectiveSize (.ofNat data.length) batchSize workers).toNat ≤ 2 ^ 64)
    {M : System (Sweep (batches (.ofNat data.length) batchSize workers).toNat E T)}
    (hM : batchForEach data batchSize workers fn = .inr M) {s} (h : M.Reachable s) :
    s.cells = data := by
  rw [batchForEach, batchMap] at hM
  split_ifs at hM with hlen
  obtain rfl := Sum.inr.inj hM
  have hinv := sweepInv_reachable (tiled_spanOf_length hlen hfits) h
  apply List.ext_getElem?
  intro k
  simpa using hinv.held k

end Map

end Lark.Coro.Batch
