import Lark.Column.Biz.DslTemps
import Lark.Column.Biz.Folding

namespace Lark.Column.Biz.Dsl

open Lark.Base Lark.Toolkit.Dsl Lark.Column.Exec

def Within (cols : List String) (c : String) : Prop := isLocalName c = false → c ∈ cols

structure Naming (ins outs : List String) (spec : OpSpec) : Prop where
  inputs : ∀ c ∈ spec.inputs, Within ins c
  outputs : ∀ c ∈ spec.outputs, Within outs c

def Value.Within (cols : List String) : Value → Prop
  | literal _ => True
  | named c => Dsl.Within cols c

namespace Emitter

variable {α β : Type}

structure Emits (P : OpSpec → Prop) (Q : α → Prop) (p : Emitter α) : Prop where
  specs : ∀ st a st', p.run st = .ok (a, st') → ∃ new, st'.ops = st.ops ++ new ∧ ∀ spec ∈ new, P spec
  value : ∀ st a st', p.run st = .ok (a, st') → Q a

section

variable {P : OpSpec → Prop} {Q : α → Prop} {R : β → Prop}

theorem Emits.pure {a : α} (h : Q a) : Emits P Q (pure a) where
  specs := by
    intro st b st' hrun
    obtain ⟨rfl, rfl⟩ := Prod.mk.inj (Except.ok.inj hrun)
    exact ⟨[], by simp, by simp⟩
  value := by
    intro st b st' hrun
    obtain ⟨rfl, rfl⟩ := Prod.mk.inj (Except.ok.inj hrun)
    exact h

theorem Emits.bind {p : Emitter α} {k : α → Emitter β} (hp : Emits P Q p)
    (hk : ∀ a, Q a → Emits P R (k a)) : Emits P R (p >>= k) where
  specs := by
    intro st b st' hrun
    obtain ⟨⟨a, st₁⟩, hrun₁, hrun₂⟩ := except_bind_eq_ok.mp hrun
    obtain ⟨new, hops, hnew⟩ := hp.specs st a st₁ hrun₁
    obtain ⟨new', hops', hnew'⟩ := (hk a (hp.value st a st₁ hrun₁)).specs st₁ b st' hrun₂
    refine ⟨new ++ new', by rw [hops', hops, List.append_assoc], fun spec hspec => ?_⟩
    exact (List.mem_append.1 hspec).elim (hnew spec) (hnew' spec)
  value := by
    intro st b st' hrun
    obtain ⟨⟨a, st₁⟩, hrun₁, hrun₂⟩ := except_bind_eq_ok.mp hrun
    exact (hk a (hp.value st a st₁ hrun₁)).value st₁ b st' hrun₂

theorem Emits.imp {Q' : α → Prop} {p : Emitter α} (hp : Emits P Q p) (h : ∀ a, Q a → Q' a) :
    Emits P Q' p :=
  ⟨hp.specs, fun st a st' hrun => h a (hp.value st a st' hrun)⟩

theorem Emits.map {f : α → β} {p : Emitter α} (hp : Emits P Q p) (hf : ∀ a, Q a → R (f a)) :
    Emits P R (f <$> p) where
  specs := by
    intro st b st' hrun
    rw [run_map] at hrun
    obtain ⟨⟨a, st₁⟩, hrun₁, hrun₂⟩ := except_bind_eq_ok.mp hrun
    obtain ⟨rfl, rfl⟩ := Prod.mk.inj (Except.ok.inj hrun₂)
    exact hp.specs st a _ hrun₁
  value := by
    intro st b st' hrun
    rw [run_map] at hrun
    obtain ⟨⟨a, st₁⟩, hrun₁, hrun₂⟩ := except_bind_eq_ok.mp hrun
    obtain ⟨rfl, rfl⟩ := Prod.mk.inj (Except.ok.inj hrun₂)
    exact hf a (hp.value st a _ hrun₁)

end

section

variable {ins outs : List String}

theorem emits_temp {P : OpSpec → Prop} :
    Emits P (fun c => isLocalName c = true) temp where
  specs := by
    intro st c st' hrun
    obtain ⟨rfl, rfl⟩ := Prod.mk.inj (Except.ok.inj hrun)
    exact ⟨[], (List.append_nil _).symm, by simp⟩
  value := by
    intro st c st' hrun
    obtain ⟨rfl, rfl⟩ := Prod.mk.inj (Except.ok.inj hrun)
    exact isLocalName_temp st.tmp

theorem emits_print {P : OpSpec → Prop} (x : Double) : Emits P (fun _ => True) (print x) where
  specs := by
    intro st c st' hrun
    obtain ⟨text, -, hrun⟩ := except_bind_eq_ok.mp hrun
    obtain ⟨rfl, rfl⟩ := Prod.mk.inj (Except.ok.inj hrun)
    exact ⟨[], by simp, by simp⟩
  value := fun _ _ _ _ => trivial

theorem within_local {cols : List String} {c : String} (h : isLocalName c = true) :
    Within cols c := by
  intro hl
  simp [h] at hl

theorem emits_named {out type : String} {attrs : List (String × String)} {inputs : List String}
    (hin : ∀ c ∈ inputs, Within ins c) (hout : Within outs out) :
    Emits (Naming ins outs) (fun c => c = out) (named out type attrs inputs) where
  specs := by
    intro st c st' hrun
    obtain ⟨rfl, rfl⟩ := Prod.mk.inj (Except.ok.inj hrun)
    refine ⟨[⟨type, inputs, [out], attrs⟩], rfl, fun spec hspec => ?_⟩
    obtain rfl := List.mem_singleton.1 hspec
    exact ⟨hin, by simpa using hout⟩
  value := by
    intro st c st' hrun
    obtain ⟨rfl, rfl⟩ := Prod.mk.inj (Except.ok.inj hrun)
    rfl

theorem emits_source {out type : String} {attrs : List (String × String)} {inputs : List String}
    (hin : ∀ c ∈ inputs, Within ins c) (hout : isLocalName out = true) :
    Emits (Naming ins []) (Value.Within ins) (Value.named <$> named out type attrs inputs) := by
  apply (emits_named hin (within_local hout)).map
  rintro c rfl
  exact within_local hout

theorem emits_constant {out : String} (x : Double) (hout : Within outs out) :
    Emits (Naming ins outs) (fun c => c = out) (constant out x) := by
  apply (emits_print x).bind
  intro text _
  exact emits_named (by simp) hout

theorem emits_scalar (op : BinOp) (x : Double) {a : String} (ha : Within ins a) :
    Emits (Naming ins []) (Value.Within ins) (scalar op x a) := by
  apply emits_temp.bind
  intro out hout
  apply (emits_print x).bind
  intro text _
  exact emits_source (by simpa using ha) hout

theorem emits_binary (op : BinOp) {a b : Value} (ha : a.Within ins) (hb : b.Within ins) :
    Emits (Naming ins []) (Value.Within ins) (binary op a b) := by
  cases a with
  | literal x =>
    cases b with
    | literal y => exact .pure trivial
    | named b => exact emits_scalar op x hb
  | named a =>
    cases b with
    | literal y => exact emits_scalar op y ha
    | named b =>
      apply emits_temp.bind
      intro out hout
      exact emits_source (by simpa using ⟨ha, hb⟩) hout

theorem emits_negate {v : Value} (h : v.Within ins) :
    Emits (Naming ins []) (Value.Within ins) (negate v) := by
  cases v with
  | literal x => exact .pure trivial
  | named a =>
    apply emits_temp.bind
    intro out hout
    exact emits_source (List.forall_mem_singleton.2 h) hout

theorem emits_argument {v : Value} (h : v.Within ins) :
    Emits (Naming ins []) (Within ins) (argument v) := by
  cases v with
  | literal x =>
    apply emits_temp.bind
    intro out hout
    apply (emits_constant x (within_local hout)).imp
    rintro c rfl
    exact within_local hout
  | named a => exact .pure h

theorem emits_assigned {lhs : String} {v : Value} (h : v.Within ins) :
    Emits (Naming ins [lhs]) (fun _ => True) (assigned lhs v) := by
  have hlhs : Within [lhs] lhs := fun _ => by simp
  cases v with
  | literal x =>
    apply (emits_constant x hlhs).bind
    intro c _
    exact .pure trivial
  | named a =>
    simp only [assigned]
    split_ifs
    · exact .pure trivial
    · apply (emits_named (List.forall_mem_singleton.2 h) hlhs).bind
      intro c _
      exact .pure trivial

end

end Emitter

open Emitter

def Term.names (e : Term) : List String := e.columns.map String.ofList

theorem Term.emits {ins : List String} (e : Term) (h : e.names ⊆ ins) :
    Emits (Naming ins []) (Value.Within ins) e.emitter := by
  induction e with
  | col name => exact .pure fun _ => h (by simp [names, columns])
  | lit int frac => exact .pure trivial
  | neg e ih =>
    apply (ih h).bind
    intro v hv
    exact emits_negate hv
  | paren e ih => exact ih h
  | bin op l r ihl ihr =>
    simp only [names, columns, List.map_append, List.append_subset] at h
    apply (ihl h.1).bind
    intro a ha
    apply (ihr h.2).bind
    intro b hb
    exact emits_binary op ha hb
  | call fn a ih =>
    apply emits_temp.bind
    intro out hout
    apply (ih h).bind
    intro a ha
    apply (emits_argument ha).bind
    intro a ha
    exact emits_source (by simpa using ha) hout
  | pair fn a b iha ihb =>
    simp only [names, columns, List.map_append, List.append_subset] at h
    apply emits_temp.bind
    intro out hout
    apply (iha h.1).bind
    intro a ha
    apply (ihb h.2).bind
    intro b hb
    apply (emits_argument ha).bind
    intro a ha
    apply (emits_argument hb).bind
    intro b hb
    exact emits_source (by simpa using ⟨ha, hb⟩) hout
  | select m a b ihm iha ihb =>
    simp only [names, columns, List.map_append, List.append_subset] at h
    apply emits_temp.bind
    intro out hout
    apply (ihm h.1.1).bind
    intro m hm
    apply (iha h.1.2).bind
    intro a ha
    apply (ihb h.2).bind
    intro b hb
    apply (emits_argument hm).bind
    intro m hm
    apply (emits_argument ha).bind
    intro a ha
    apply (emits_argument hb).bind
    intro b hb
    exact emits_source (by simpa using ⟨hm, ha, hb⟩) hout
  | cast a dtype ih =>
    apply emits_temp.bind
    intro out hout
    apply (ih h).bind
    intro a ha
    apply (emits_argument ha).bind
    intro a ha
    exact emits_source (by simpa using ha) hout

theorem Naming.mono {ins outs ins' outs' : List String} {spec : OpSpec}
    (h : Naming ins outs spec) (hi : ins ⊆ ins') (ho : outs ⊆ outs') : Naming ins' outs' spec :=
  ⟨fun c hc hl => hi (h.inputs c hc hl), fun c hc hl => ho (h.outputs c hc hl)⟩

namespace Statement

def column (s : Statement) : String := String.ofList s.target

def reads (s : Statement) : List String := s.term.names

theorem emits (s : Statement) : Emits (Naming s.reads [s.column]) (fun _ => True)
    (s.term.emitter >>= Emitter.assigned s.column) := by
  have hterm := s.term.emits (List.Subset.refl s.reads)
  have hwide : Emits (Naming s.reads [s.column]) (Value.Within s.reads) s.term.emitter := by
    refine ⟨fun st v st' hrun => ?_, hterm.value⟩
    obtain ⟨new, hops, hnew⟩ := hterm.specs st v st' hrun
    exact ⟨new, hops, fun spec hspec => (hnew spec hspec).mono (List.Subset.refl _) (by simp)⟩
  apply hwide.bind
  intro v hv
  exact emits_assigned hv

theorem run_emitter (s : Statement) (st : ParserState) :
    (s.term.emitter >>= Emitter.assigned s.column).run st = s.gen st >>= fun st => .ok ((), st) := by
  rw [run_bind, Term.emitter_run, gen, bind_assoc]
  congr 1
  funext r
  exact assigned_run s.column r.1 r.2

theorem gen_naming {s : Statement} {st st' : ParserState} (h : s.gen st = .ok st') :
    ∃ new, st'.ops = st.ops ++ new ∧ ∀ spec ∈ new, Naming s.reads [s.column] spec := by
  apply s.emits.specs st () st'
  rw [run_emitter, h]
  rfl

end Statement

structure Causal (prog : List Statement) : Prop where
  once : (prog.map Statement.column).Nodup
  later : prog.Pairwise fun s t => t.column ∉ s.reads
  self : ∀ s ∈ prog, s.column ∉ s.reads

theorem Causal.tail {s : Statement} {prog : List Statement} (h : Causal (s :: prog)) :
    Causal prog :=
  ⟨(List.nodup_cons.1 h.once).2, (List.pairwise_cons.1 h.later).2,
    fun t ht => h.self t (List.mem_cons_of_mem _ ht)⟩

theorem Causal.sublist {prog prog' : List Statement} (h : Causal prog) (hs : prog'.Sublist prog) :
    Causal prog' :=
  ⟨h.once.sublist (hs.map _), h.later.sublist hs, fun s hm => h.self s (hs.subset hm)⟩

def Apart (a b : OpSpec) : Prop := ∀ c ∈ a.inputs, isLocalName c = false → c ∉ b.outputs

theorem apart_of_naming {s t : Statement} {a b : OpSpec} (ha : Naming s.reads [s.column] a)
    (hb : Naming t.reads [t.column] b) (h : t.column ∉ s.reads) : Apart a b := by
  intro c hc hl hout
  obtain rfl : c = t.column := by simpa using hb.outputs c hout hl
  exact h (ha.inputs _ hc hl)

theorem genProgram_apart {prog : List Statement} {st st' : ParserState} (hc : Causal prog)
    (h : genProgram prog st = .ok st') : ∃ new, st'.ops = st.ops ++ new ∧
      new.Pairwise Apart ∧ (∀ a ∈ new, Apart a a) ∧
      ∀ a ∈ new, ∃ s ∈ prog, Naming s.reads [s.column] a := by
  induction prog generalizing st with
  | nil =>
    obtain rfl := Except.ok.inj h
    exact ⟨[], by simp, .nil, by simp, by simp⟩
  | cons s prog ih =>
    rw [genProgram, List.foldlM_cons] at h
    obtain ⟨st₁, hs, hrest⟩ := except_bind_eq_ok.mp h
    obtain ⟨new, hops, hnew⟩ := Statement.gen_naming hs
    obtain ⟨new', hops', hpair, hself, hfrom⟩ := ih hc.tail hrest
    have hown : ∀ a ∈ new, ∀ b ∈ new, Apart a b := fun a ha b hb =>
      apart_of_naming (hnew a ha) (hnew b hb) (hc.self s (by simp))
    have hcross : ∀ a ∈ new, ∀ b ∈ new', Apart a b := by
      intro a ha b hb
      obtain ⟨t, ht, hnaming⟩ := hfrom b hb
      exact apart_of_naming (hnew a ha) hnaming ((List.pairwise_cons.1 hc.later).1 t ht)
    refine ⟨new ++ new', by rw [hops', hops, List.append_assoc], ?_, ?_, ?_⟩
    · exact List.pairwise_append.2 ⟨List.pairwise_of_forall_mem_list hown, hpair, hcross⟩
    · intro a ha
      exact (List.mem_append.1 ha).elim (fun ha => hown a ha a ha) (hself a)
    · intro a ha
      rcases List.mem_append.1 ha with ha | ha
      · exact ⟨s, by simp, hnew a ha⟩
      · obtain ⟨t, ht, hnaming⟩ := hfrom a ha
        exact ⟨t, by simp [ht], hnaming⟩

structure Flowing (ops : List OpSpec) : Prop where
  single : ∀ op ∈ ops, ∃ c, op.outputs = [c]
  inputs : ∀ op ∈ ops, ∀ c ∈ op.inputs, isLocalName c = false ∨ IsTemp c
  outputs : ∀ op ∈ ops, ∀ c ∈ op.outputs, isLocalName c = false ∨ IsTemp c
  before : ∀ (i j : Nat) (s t : OpSpec) (c : String), ops[i]? = some s → ops[j]? = some t →
    c ∈ s.outputs → c ∈ t.inputs → i < j

theorem writer_unique {ops : List OpSpec} {tmp : Nat} (h : Numbered ops tmp) {c : String}
    (hl : isLocalName c = true) {i j : Nat} {s t : OpSpec} (hi : ops[i]? = some s)
    (hj : ops[j]? = some t) (hs : c ∈ s.outputs) (ht : c ∈ t.outputs) : i = j := by
  have hnodup := h.nodup
  rw [List.filter_flatMap, List.nodup_flatMap] at hnodup
  obtain ⟨hilt, rfl⟩ := List.getElem?_eq_some_iff.1 hi
  obtain ⟨hjlt, rfl⟩ := List.getElem?_eq_some_iff.1 hj
  have hpair := List.pairwise_iff_getElem.1 hnodup.2
  by_contra hne
  rcases lt_or_gt_of_ne hne with hlt | hlt
  · exact hpair i j hilt hjlt hlt (List.mem_filter.2 ⟨hs, hl⟩) (List.mem_filter.2 ⟨ht, hl⟩)
  · exact hpair j i hjlt hilt hlt (List.mem_filter.2 ⟨ht, hl⟩) (List.mem_filter.2 ⟨hs, hl⟩)

theorem parse_flowing {prog : List Statement} {source : List Char} {ops : List OpSpec}
    (hr : RendersProgram prog source) (hwf : ∀ s ∈ prog, s.WellFormed) (hc : Causal prog)
    (h : parse (String.ofList source) = .ok ops) : Flowing ops := by
  obtain ⟨tmp, as, -, -, hnum, -⟩ := parse_program_of_ok h
  have hok := parse_ok _ ops h
  have hspec : ∀ (j : Nat) (t : OpSpec), ops[j]? = some t → SpecOk (ops.take j) t := by
    intro j t hj
    obtain ⟨hlt, rfl⟩ := List.getElem?_eq_some_iff.1 hj
    exact hok _ _ (ops.drop (j + 1)) (by simp)
  refine ⟨hnum.single, fun op hop c hin => ?_, fun op hop c hout => ?_, ?_⟩
  · obtain ⟨j, hj⟩ := List.mem_iff_getElem?.1 hop
    exact ((hspec j op hj).inputs c hin).imp_right And.left
  · obtain ⟨j, hj⟩ := List.mem_iff_getElem?.1 hop
    exact (hspec j op hj).outputs c hout
  intro i j s t c hi hj hout hin
  rcases (hspec j t hj).inputs c hin with hl | ⟨htemp, w, hw, hcw⟩
  · rw [parse_program hr hwf (start "")] at h
    cases hgen : genProgram prog ⟨start "", [], 0⟩ with
    | error e => simp [hgen, Except.map] at h
    | ok st =>
      obtain rfl : st.ops = ops := by simpa [hgen, Except.map] using h
      obtain ⟨new, hops, hpair, hself, -⟩ := genProgram_apart hc hgen
      rw [hops, List.nil_append] at hi hj
      obtain ⟨hilt, rfl⟩ := List.getElem?_eq_some_iff.1 hi
      obtain ⟨hjlt, rfl⟩ := List.getElem?_eq_some_iff.1 hj
      by_contra hnot
      rcases lt_or_eq_of_le (not_lt.1 hnot) with hlt | rfl
      · exact List.pairwise_iff_getElem.1 hpair j i hjlt hilt hlt c hin hl hout
      · exact hself _ (List.getElem_mem hilt) c hin hl hout
  · obtain ⟨k, hk⟩ := List.mem_iff_getElem?.1 hw
    have hlt : k < j := by
      have hbound := (List.getElem?_eq_some_iff.1 hk).1
      rw [List.length_take] at hbound
      omega
    rw [List.getElem?_take_of_lt hlt] at hk
    obtain ⟨n, rfl⟩ := htemp
    rw [writer_unique hnum (isLocalName_temp n) hi hk hout hcw]
    exact hlt

end Lark.Column.Biz.Dsl
