import Lark.Column.Biz.DslFlow

namespace Lark.Column.Biz.Dsl

open Lark.Base Lark.Toolkit.Dsl Lark.Column.Exec

def Source.Within (cols : List String) : Source → Prop
  | column name => name ∈ cols
  | tensor _ => True

def Datum.Within (cols : List String) : Datum → Prop
  | literal _ => True
  | source s => s.Within cols

structure Framed {α : Type} (Q : α → Prop) (x x' : Except Exn α) : Prop where
  same : x = x'
  value : ∀ a, x = .ok a → Q a

section

variable {α β : Type} {Q : α → Prop} {R : β → Prop} {x x' : Except Exn α}

theorem Framed.ok {a : α} (h : Q a) : Framed Q (.ok a) (.ok a) := by
  refine ⟨rfl, fun b hb => ?_⟩
  obtain rfl := Except.ok.inj hb
  exact h

theorem Framed.bind {k k' : α → Except Exn β} (h : Framed Q x x')
    (hk : ∀ a, Q a → Framed R (k a) (k' a)) : Framed R (x >>= k) (x' >>= k') := by
  obtain ⟨rfl, hv⟩ := h
  cases x with
  | error e => exact ⟨rfl, fun b hb => by cases hb⟩
  | ok a => exact hk a (hv a rfl)

theorem Framed.any (h : x = x') : Framed (fun _ => True) x x' := ⟨h, fun _ _ => trivial⟩

end

section

variable {libm : Libm} {store store' : TensorStore} {cols : List String}
  (h : ∀ c ∈ cols, store.find c = store'.find c)

include h

theorem read_frame {s : Source} (hs : s.Within cols) : s.read store = s.read store' := by
  cases s with
  | tensor t => rfl
  | column name => simp only [Source.read, h name hs]

theorem invoke_frame (type : String) (attrs : List (String × String)) {args : List Source}
    (ha : ∀ s ∈ args, s.Within cols) :
    invoke libm store type attrs args = invoke libm store' type attrs args := by
  have hargs : readArg store args = readArg store' args := by
    funext i
    unfold readArg
    cases hi : args[i]? with
    | none => rfl
    | some s => exact read_frame h (ha s (List.mem_of_getElem? hi))
  unfold invoke
  rw [hargs]

theorem tensor_framed (type : String) (attrs : List (String × String)) {args : List Source}
    (ha : ∀ s ∈ args, s.Within cols) :
    Framed (Datum.Within cols)
      (invoke libm store type attrs args >>= fun t => .ok (.source (.tensor t)))
      (invoke libm store' type attrs args >>= fun t => .ok (.source (.tensor t))) :=
  (Framed.any (invoke_frame h type attrs ha)).bind fun _ _ => .ok trivial

omit h in
theorem evalConst_frame (x : Double) : evalConst libm store x = evalConst libm store' x := rfl

theorem evalScalar_framed (op : BinOp) (x : Double) {s : Source} (hs : s.Within cols) :
    Framed (Datum.Within cols) (evalScalar libm store op x s) (evalScalar libm store' op x s) := by
  apply (Framed.any (x := format x) rfl).bind
  intro text _
  exact tensor_framed h _ _ (by simpa using hs)

theorem evalBinary_framed (op : BinOp) {a b : Datum} (ha : a.Within cols) (hb : b.Within cols) :
    Framed (Datum.Within cols) (evalBinary libm store op a b) (evalBinary libm store' op a b) := by
  cases a with
  | literal x =>
    cases b with
    | literal y => exact .ok trivial
    | source s => exact evalScalar_framed h op x hb
  | source s =>
    cases b with
    | literal y => exact evalScalar_framed h op y ha
    | source s' => exact tensor_framed h _ _ (by simpa using ⟨ha, hb⟩)

theorem evalNeg_framed {d : Datum} (hd : d.Within cols) :
    Framed (Datum.Within cols) (evalNeg libm store d) (evalNeg libm store' d) := by
  cases d with
  | literal x => exact .ok trivial
  | source s => exact tensor_framed h _ _ (List.forall_mem_singleton.2 hd)

omit h in
theorem evalArg_framed {d : Datum} (hd : d.Within cols) :
    Framed (Source.Within cols) (evalArg libm store d) (evalArg libm store' d) := by
  cases d with
  | literal x => exact (Framed.any (evalConst_frame x)).bind fun _ _ => .ok trivial
  | source s => exact .ok hd

theorem Term.eval_framed (e : Term) (he : e.names ⊆ cols) :
    Framed (Datum.Within cols) (e.eval libm store) (e.eval libm store') := by
  induction e with
  | col name => exact .ok (he (by simp [names, columns]))
  | lit int frac => exact .ok trivial
  | neg e ih =>
    apply (ih he).bind
    intro d hd
    exact evalNeg_framed h hd
  | paren e ih => exact ih he
  | bin op l r ihl ihr =>
    simp only [names, columns, List.map_append, List.append_subset] at he
    apply (ihl he.1).bind
    intro a ha
    apply (ihr he.2).bind
    intro b hb
    exact evalBinary_framed h op ha hb
  | call fn a ih =>
    apply (ih he).bind
    intro a ha
    apply (evalArg_framed ha).bind
    intro a ha
    exact tensor_framed h _ _ (by simpa using ha)
  | pair fn a b iha ihb =>
    simp only [names, columns, List.map_append, List.append_subset] at he
    apply (iha he.1).bind
    intro a ha
    apply (ihb he.2).bind
    intro b hb
    apply (evalArg_framed ha).bind
    intro a ha
    apply (evalArg_framed hb).bind
    intro b hb
    exact tensor_framed h _ _ (by simpa using ⟨ha, hb⟩)
  | select m a b ihm iha ihb =>
    simp only [names, columns, List.map_append, List.append_subset] at he
    apply (ihm he.1.1).bind
    intro m hm
    apply (iha he.1.2).bind
    intro a ha
    apply (ihb he.2).bind
    intro b hb
    apply (evalArg_framed hm).bind
    intro m hm
    apply (evalArg_framed ha).bind
    intro a ha
    apply (evalArg_framed hb).bind
    intro b hb
    exact tensor_framed h _ _ (by simpa using ⟨hm, ha, hb⟩)
  | cast a dtype ih =>
    apply (ih he).bind
    intro a ha
    apply (evalArg_framed ha).bind
    intro a ha
    exact tensor_framed h _ _ (by simpa using ha)

end

inductive Alongside (store store' : TensorStore) (column : String) :
    Except Exn TensorStore → Except Exn TensorStore → Prop
  | assigned (t : Tensor) :
    Alongside store store' column (.ok (store.set column t)) (.ok (store'.set column t))
  | refused (e : Exn) : Alongside store store' column (.error e) (.error e)

theorem alongside_bind {store store' : TensorStore} {column : String} {x x' : Except Exn Tensor}
    (h : x = x') : Alongside store store' column (x >>= fun t => .ok (store.set column t))
      (x' >>= fun t => .ok (store'.set column t)) := by
  subst h
  cases x with
  | error e => exact .refused e
  | ok t => exact .assigned t

theorem Statement.eval_alongside {libm : Libm} {store store' : TensorStore} {s : Statement}
    (h : ∀ c ∈ s.reads, store.find c = store'.find c) (hs : s.column ∉ s.reads) :
    Alongside store store' s.column (s.eval libm store) (s.eval libm store') := by
  have hframed := @Term.eval_framed libm store store' s.reads h s.term (List.Subset.refl s.reads)
  obtain ⟨hsame, hvalue⟩ := hframed
  unfold Statement.eval
  rw [← hsame]
  cases hd : s.term.eval libm store with
  | error e => exact .refused e
  | ok d =>
    have hwithin := hvalue d hd
    cases d with
    | literal x => exact alongside_bind (evalConst_frame x)
    | source src =>
      cases src with
      | tensor t => exact .assigned t
      | column name =>
        have hne : name ≠ String.ofList s.target := by
          rintro rfl
          exact hs hwithin
        simp only [except_ok_bind, evalAssign, if_neg hne]
        exact alongside_bind (read_frame h hwithin)

theorem isLocalName_ofIdent {name : List Char} (h : IsIdent name) :
    isLocalName (String.ofList name) = false := by
  obtain ⟨c, cs, rfl, hc⟩ := h.start
  have hat : c ≠ '@' := by
    rintro rfl
    exact absurd hc (by decide)
  simp [isLocalName, startsWithAt, hat]

theorem Term.names_ordinary {e : Term} (h : e.WellFormed) :
    ∀ c ∈ e.names, isLocalName c = false := by
  induction e with
  | col name =>
    intro c hc
    obtain rfl : c = String.ofList name := by simpa [names, columns] using hc
    exact isLocalName_ofIdent h
  | lit int frac => simp [names, columns]
  | neg e ih => exact ih h.1
  | paren e ih => exact ih h
  | bin op l r ihl ihr =>
    simp only [names, columns, List.map_append, List.forall_mem_append]
    exact ⟨ihl h.1, ihr h.2.1⟩
  | call fn a ih => exact ih h.2.2
  | pair fn a b iha ihb =>
    simp only [names, columns, List.map_append, List.forall_mem_append]
    exact ⟨iha h.2.2.1, ihb h.2.2.2⟩
  | select m a b ihm iha ihb =>
    simp only [names, columns, List.map_append, List.forall_mem_append]
    exact ⟨⟨ihm h.1, iha h.2.1⟩, ihb h.2.2⟩
  | cast a dtype ih => exact ih h.1

def Solved (libm : Libm) (store : TensorStore) (s : Statement) : Prop :=
  ∃ t, s.eval libm store = .ok (store.set s.column t) ∧ store.find s.column = some t

section

variable {libm : Libm} {final store : TensorStore} {s : Statement}

theorem Solved.eval_of_reads (h : Solved libm final s)
    (hr : ∀ c ∈ s.reads, store.find c = final.find c) (hs : s.column ∉ s.reads) :
    ∃ t, s.eval libm store = .ok (store.set s.column t) ∧ final.find s.column = some t := by
  obtain ⟨t, he, hf⟩ := h
  have halong := @Statement.eval_alongside libm _ _ s hr hs
  generalize hstore : s.eval libm store = r at halong
  generalize hfinal : s.eval libm final = r' at halong
  cases halong with
  | refused e =>
    rw [he] at hfinal
    cases hfinal
  | assigned t' =>
    have hsame : final.set s.column t = final.set s.column t' :=
      Except.ok.inj (he.symm.trans hfinal)
    obtain rfl : t = t' := by
      have hfind := congrArg (fun store => store.find s.column) hsame
      simpa using hfind
    exact ⟨t, rfl, hf⟩

theorem eval_error_of_reads {e : Exn} (h : s.eval libm final = .error e)
    (hr : ∀ c ∈ s.reads, store.find c = final.find c) (hs : s.column ∉ s.reads) :
    s.eval libm store = .error e := by
  have halong := @Statement.eval_alongside libm _ _ s hr hs
  rw [h] at halong
  generalize hstore : s.eval libm store = r at halong
  cases halong with
  | refused e => rfl

inductive Verdict (libm : Libm) (all : List Statement) (store final : TensorStore) :
    Except Exn TensorStore → Prop
  | solved {out : TensorStore} (h : ∀ s ∈ all, Solved libm final s)
    (hout : ∀ c, isLocalName c = false → out.find c = final.find c) :
    Verdict libm all store final (.ok out)
  | refused {pre post : List Statement} {s : Statement} {out : TensorStore} {e : Exn}
    (hsplit : all = pre ++ s :: post) (hpre : ∀ p ∈ pre, Solved libm final p)
    (hrun : evalProgram libm pre store = .ok out) (hs : s.eval libm out = .error e)
    (hfinal : s.eval libm final = .error e)
    (hout : ∀ c, isLocalName c = false → c ∉ (s :: post).map Statement.column →
      out.find c = final.find c) : Verdict libm all store final (.error e)

theorem evalProgram_snoc (pre : List Statement) (s : Statement) (store : TensorStore) :
    evalProgram libm (pre ++ [s]) store =
      evalProgram libm pre store >>= fun store => s.eval libm store := by
  simp only [evalProgram, List.foldlM_append, List.foldlM_cons, List.foldlM_nil]
  cases List.foldlM (fun store s => s.eval libm store) store pre with
  | error e => rfl
  | ok out => exact bind_pure (s.eval libm out)

theorem evalProgram_verdict {all : List Statement} (hc : Causal all)
    (hwf : ∀ s ∈ all, s.WellFormed)
    (hfix : ∀ pre s post, all = pre ++ s :: post → (∀ p ∈ pre, Solved libm final p) →
      Solved libm final s ∨ ∃ e, s.eval libm final = .error e)
    (hstart : ∀ c, isLocalName c = false → c ∉ all.map Statement.column →
      store.find c = final.find c) :
    Verdict libm all store final (evalProgram libm all store) := by
  have hrest : ∀ rest pre out, all = pre ++ rest → (∀ p ∈ pre, Solved libm final p) →
      evalProgram libm pre store = .ok out →
      (∀ c, isLocalName c = false → c ∉ rest.map Statement.column → out.find c = final.find c) →
      Verdict libm all store final (evalProgram libm rest out) := by
    intro rest
    induction rest with
    | nil =>
      intro pre out hsplit hpre _ hout
      obtain rfl : all = pre := by simpa using hsplit
      exact .solved hpre fun c hl => hout c hl (by simp)
    | cons s rest ih =>
      intro pre out hsplit hpre hrun hout
      have hsub : (s :: rest).Sublist all := hsplit ▸ List.sublist_append_right pre _
      have hcs := hc.sublist hsub
      have hself := hcs.self s (by simp)
      have hreads : ∀ c ∈ s.reads, out.find c = final.find c := by
        intro c hread
        apply hout c (Term.names_ordinary (hwf s (hsub.subset (by simp))).term c hread)
        intro hmem
        obtain ⟨t, ht, rfl⟩ := List.mem_map.1 hmem
        rcases List.mem_cons.1 ht with rfl | ht
        · exact hself hread
        · exact (List.pairwise_cons.1 hcs.later).1 t ht hread
      rw [evalProgram, List.foldlM_cons]
      rcases hfix pre s rest hsplit hpre with hsolved | ⟨e, herr⟩
      · obtain ⟨t, he, hf⟩ := hsolved.eval_of_reads hreads hself
        rw [he, except_ok_bind]
        apply ih (pre ++ [s]) _ (by simp [hsplit])
        · intro p hp
          rcases List.mem_append.1 hp with hp | hp
          · exact hpre p hp
          · obtain rfl := List.mem_singleton.1 hp
            exact hsolved
        · rw [evalProgram_snoc, hrun, except_ok_bind, he]
        · intro c hl hnot
          rcases eq_or_ne c s.column with rfl | hne
          · simp [hf]
          · rw [TensorStore.set_find_of_ne _ _ _ hne]
            exact hout c hl (by simpa using ⟨hne, by simpa using hnot⟩)
      · have herr' := eval_error_of_reads herr hreads hself
        rw [herr']
        exact .refused hsplit hpre hrun herr' herr hout
  exact hrest all [] store rfl (by simp) rfl hstart

theorem evalProgram_solved {prog : List Statement} (hc : Causal prog)
    (h : ∀ s ∈ prog, Solved libm final s) (hs : store.find = final.find) :
    ∃ out, evalProgram libm prog store = .ok out ∧ out.find = final.find := by
  induction prog generalizing store with
  | nil => exact ⟨store, rfl, hs⟩
  | cons s prog ih =>
    have hread : ∀ c ∈ s.reads, store.find c = final.find c := fun c _ => by rw [hs]
    obtain ⟨t, he, hf⟩ := (h s (by simp)).eval_of_reads hread (hc.self s (by simp))
    rw [evalProgram, List.foldlM_cons, he]
    apply ih hc.tail fun s' hs' => h s' (List.mem_cons_of_mem _ hs')
    rw [← hs] at hf ⊢
    exact funext fun c => by
      rcases eq_or_ne c s.column with rfl | hne
      · simp [hf]
      · exact TensorStore.set_find_of_ne _ _ _ hne

end

end Lark.Column.Biz.Dsl
