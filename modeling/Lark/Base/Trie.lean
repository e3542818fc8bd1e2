import Mathlib.Algebra.BigOperators.Group.List.Basic
import Mathlib.Data.List.Infix
import Mathlib.Data.List.Nodup

namespace Lark.Base

inductive Trie (κ α : Type*) where
  | node (label : κ) (value : α) (children : List (Trie κ α))

namespace Trie

variable {κ α : Type*}

def label : Trie κ α → κ
  | node k _ _ => k

def value : Trie κ α → α
  | node _ a _ => a

def children : Trie κ α → List (Trie κ α)
  | node _ _ ts => ts

@[simp]
theorem label_node (k : κ) (a : α) (ts : List (Trie κ α)) : (node k a ts).label = k := rfl

@[simp]
theorem value_node (k : κ) (a : α) (ts : List (Trie κ α)) : (node k a ts).value = a := rfl

@[simp]
theorem children_node (k : κ) (a : α) (ts : List (Trie κ α)) : (node k a ts).children = ts := rfl

mutual

def entriesAt : Trie κ α → List (List κ × α)
  | node k a ts => ([k], a) :: (entries ts).map fun e => (k :: e.1, e.2)

def entries : List (Trie κ α) → List (List κ × α)
  | [] => []
  | t :: ts => entriesAt t ++ entries ts

end

inductive Distinct : List (Trie κ α) → Prop
  | intro {ts : List (Trie κ α)} (labels : (ts.map label).Nodup)
    (below : ∀ t ∈ ts, Distinct t.children) : Distinct ts

theorem distinct_nil : Distinct ([] : List (Trie κ α)) := .intro List.nodup_nil (by simp)

theorem entries_eq_flatMap (ts : List (Trie κ α)) : entries ts = ts.flatMap fun t =>
    ([t.label], t.value) :: (entries t.children).map fun e => (t.label :: e.1, e.2) := by
  induction ts with
  | nil => rfl
  | cons t ts ih =>
    cases t
    rw [entries, ih]
    rfl

theorem mem_entries {ts : List (Trie κ α)} {q : List κ} {a : α} :
    (q, a) ∈ entries ts ↔ ∃ t ∈ ts, (q = [t.label] ∧ a = t.value) ∨
      ∃ q', q = t.label :: q' ∧ (q', a) ∈ entries t.children := by
  rw [entries_eq_flatMap, List.mem_flatMap]
  apply exists_congr
  intro t
  apply and_congr_right
  intro _
  rw [List.mem_cons, Prod.mk.injEq]
  apply or_congr_right
  rw [List.mem_map]
  constructor
  · rintro ⟨⟨q', a'⟩, he, heq⟩
    obtain ⟨rfl, rfl⟩ := Prod.mk.inj heq
    exact ⟨q', rfl, he⟩
  · rintro ⟨q', rfl, he⟩
    exact ⟨(q', a), he, rfl⟩

theorem mem_entries_perm {ts us : List (Trie κ α)} (h : ts.Perm us) {e : List κ × α} :
    e ∈ entries ts ↔ e ∈ entries us := by
  rw [mem_entries, mem_entries]
  apply exists_congr
  intro t
  rw [h.mem_iff]

theorem Distinct.perm {ts us : List (Trie κ α)} (hd : Distinct us) (h : ts.Perm us) :
    Distinct ts := by
  obtain ⟨labels, below⟩ := hd
  exact .intro ((h.map label).nodup_iff.2 labels) fun t ht => below t (h.mem_iff.1 ht)

theorem nil_notMem_entries {ts : List (Trie κ α)} {a : α} : ([], a) ∉ entries ts := by
  rw [mem_entries]
  rintro ⟨t, -, ⟨h, -⟩ | ⟨q', h, -⟩⟩ <;> cases h

theorem Distinct.nodup {ts : List (Trie κ α)} (h : Distinct ts) :
    ((entries ts).map Prod.fst).Nodup := by
  induction h with
  | @intro ts labels _ ih =>
    rw [entries_eq_flatMap, List.map_flatMap, List.nodup_flatMap]
    refine ⟨?_, ?_⟩
    · intro t ht
      rw [List.map_cons, List.nodup_cons, List.map_map]
      refine ⟨?_, ?_⟩
      · rw [List.mem_map]
        rintro ⟨⟨q, a⟩, he, heq⟩
        obtain rfl : q = [] := (List.cons.inj heq).2
        exact nil_notMem_entries he
      · have hinj : Function.Injective (t.label :: · : List κ → List κ) :=
          fun _ _ h => (List.cons.inj h).2
        simpa [Function.comp_def] using (ih t ht).map hinj
    · refine (List.pairwise_map.1 labels).imp ?_
      intro t u hne q hq hq'
      apply hne
      have hhead : ∀ v : Trie κ α, q ∈ (([v.label], v.value) ::
          (entries v.children).map fun e => (v.label :: e.1, e.2)).map Prod.fst →
            q.head? = some v.label := by
        intro v hv
        simp only [List.map_cons, List.map_map, List.mem_cons, List.mem_map] at hv
        rcases hv with rfl | ⟨e, -, rfl⟩ <;> rfl
      exact Option.some.inj ((hhead t hq).symm.trans (hhead u hq'))

variable [DecidableEq κ]

def find : List (Trie κ α) → List κ → Option α
  | _, [] => none
  | ts, k :: ks =>
    match ts.find? (·.label = k) with
    | none => none
    | some t => if ks = [] then some t.value else find t.children ks

theorem find_nil (q : List κ) : find ([] : List (Trie κ α)) q = none := by
  cases q <;> rfl

theorem Distinct.find?_eq_some {ts : List (Trie κ α)} (h : Distinct ts) {k : κ} {t : Trie κ α} :
    ts.find? (·.label = k) = some t ↔ t ∈ ts ∧ t.label = k := by
  obtain ⟨labels, -⟩ := h
  constructor
  · intro hfound
    exact ⟨List.mem_of_find?_eq_some hfound, by simpa using List.find?_some hfound⟩
  · rintro ⟨ht, rfl⟩
    cases hfound : ts.find? (·.label = t.label) with
    | none => simpa using List.find?_eq_none.1 hfound t ht
    | some u =>
      have hu : u.label = t.label := by simpa using List.find?_some hfound
      rw [List.inj_on_of_nodup_map labels (List.mem_of_find?_eq_some hfound) ht hu]

theorem Distinct.find_eq_some {ts : List (Trie κ α)} (h : Distinct ts) {q : List κ} {a : α} :
    find ts q = some a ↔ (q, a) ∈ entries ts := by
  induction q generalizing ts with
  | nil => simp [find, nil_notMem_entries]
  | cons k ks ih =>
    rw [mem_entries]
    constructor
    · intro hfind
      rw [find] at hfind
      cases hfound : ts.find? (·.label = k) with
      | none => simp [hfound] at hfind
      | some t =>
        obtain ⟨ht, rfl⟩ := h.find?_eq_some.1 hfound
        simp only [hfound] at hfind
        refine ⟨t, ht, ?_⟩
        split_ifs at hfind with hks
        · exact .inl ⟨by rw [hks], (Option.some.inj hfind).symm⟩
        · obtain ⟨-, below⟩ := h
          exact .inr ⟨ks, rfl, (ih (below t ht)).1 hfind⟩
    · rintro ⟨t, ht, hcases⟩
      have hlabel : t.label = k := by
        rcases hcases with ⟨hq, -⟩ | ⟨q', hq, -⟩ <;> exact (List.cons.inj hq).1.symm
      rw [find, h.find?_eq_some.2 ⟨ht, hlabel⟩]
      rcases hcases with ⟨hq, rfl⟩ | ⟨q', hq, hmem⟩
      · simp [(List.cons.inj hq).2]
      · obtain rfl := (List.cons.inj hq).2
        obtain ⟨-, below⟩ := h
        have hne : ks ≠ [] := by
          rintro rfl
          exact nil_notMem_entries hmem
        simp only [hne, if_false]
        exact (ih (below t ht)).2 hmem

section Insert

variable [AddMonoid α]

def atLabel (k : κ) (f : Trie κ α → Trie κ α) : List (Trie κ α) → List (Trie κ α)
  | [] => [f (node k 0 [])]
  | t :: ts => if t.label = k then f t :: ts else t :: atLabel k f ts

def insert (x : α) : List κ → List (Trie κ α) → List (Trie κ α)
  | [], ts => ts
  | [k], ts => atLabel k (fun t => node t.label (t.value + x) t.children) ts
  | k :: ks, ts => atLabel k (fun t => node t.label t.value (insert x ks t.children)) ts

variable {ts : List (Trie κ α)} {k : κ} {f : Trie κ α → Trie κ α}

theorem insert_cons (x : α) (k : κ) (ks : List κ) (ts : List (Trie κ α)) :
    insert x (k :: ks) ts = atLabel k (fun t =>
      node t.label (t.value + if ks = [] then x else 0) (insert x ks t.children)) ts := by
  cases ks with
  | nil => simp [insert]
  | cons k' ks => simp [insert]

theorem find?_atLabel_self (hf : ∀ t, (f t).label = t.label) :
    (atLabel k f ts).find? (·.label = k) =
      some (f ((ts.find? (·.label = k)).getD (node k 0 []))) := by
  induction ts with
  | nil => simp [atLabel, hf]
  | cons t ts ih =>
    rw [atLabel]
    by_cases ht : t.label = k
    · simp [ht, hf]
    · simp [ht, ih]

theorem find?_atLabel_of_ne (hf : ∀ t, (f t).label = t.label) {k' : κ} (hne : k' ≠ k) :
    (atLabel k f ts).find? (·.label = k') = ts.find? (·.label = k') := by
  induction ts with
  | nil => simp [atLabel, hf, hne.symm]
  | cons t ts ih =>
    rw [atLabel]
    by_cases ht : t.label = k
    · simp [ht, hf, hne.symm]
    · simp [ht, List.find?_cons, ih]

theorem find_insert (x : α) (p q : List κ) (ts : List (Trie κ α)) :
    find (insert x p ts) q =
      if q ≠ [] ∧ q <+: p then some ((find ts q).getD 0 + if q = p then x else 0)
      else find ts q := by
  induction p generalizing q ts with
  | nil =>
    rw [insert, if_neg]
    rintro ⟨hne, hq⟩
    exact hne (List.prefix_nil.1 hq)
  | cons k ks ih =>
    rw [insert_cons]
    have hlabel : ∀ t : Trie κ α, (node t.label (t.value + if ks = [] then x else 0)
        (insert x ks t.children)).label = t.label := fun _ => rfl
    cases q with
    | nil => simp [find]
    | cons k' qs =>
      rcases eq_or_ne k' k with rfl | hne
      · set t := (ts.find? (·.label = k')).getD (node k' 0 []) with ht
        have hfind : find ts (k' :: qs) = if qs = [] then (ts.find? (·.label = k')).map value
            else find t.children qs := by
          rw [find]
          cases hfound : ts.find? (·.label = k') with
          | none => simp [ht, hfound, find_nil]
          | some u => simp [ht, hfound]
        rw [find, find?_atLabel_self hlabel, ← ht]
        by_cases hqs : qs = []
        · subst hqs
          have hval : t.value = ((ts.find? (·.label = k')).map value).getD 0 := by
            cases hfound : ts.find? (·.label = k') <;> simp [ht, hfound]
          rw [if_pos rfl] at hfind
          simp [hfind, hval, eq_comm (a := ([] : List κ))]
        · simp only [hqs, if_false, children_node] at hfind ⊢
          rw [ih, hfind]
          simp [hqs]
      · rw [find, find?_atLabel_of_ne hlabel hne, ← find, if_neg]
        simp [hne]

theorem map_label_atLabel (hf : ∀ t, (f t).label = t.label) :
    (atLabel k f ts).map label =
      if k ∈ ts.map label then ts.map label else ts.map label ++ [k] := by
  induction ts with
  | nil => simp [atLabel, hf]
  | cons t ts ih =>
    rw [atLabel]
    by_cases ht : t.label = k
    · simp [ht, hf]
    · rw [if_neg ht, List.map_cons, ih]
      by_cases hk : k ∈ ts.map label
      · simp [hk]
      · simp [hk, Ne.symm ht]

theorem mem_atLabel {t : Trie κ α} (h : t ∈ atLabel k f ts) :
    t ∈ ts ∨ t = f (node k 0 []) ∨ ∃ u ∈ ts, t = f u := by
  induction ts with
  | nil => exact .inr (.inl (List.mem_singleton.1 h))
  | cons u ts ih =>
    rw [atLabel] at h
    split_ifs at h with hu
    · rcases List.mem_cons.1 h with rfl | h
      · exact .inr (.inr ⟨u, List.mem_cons_self, rfl⟩)
      · exact .inl (List.mem_cons_of_mem _ h)
    · rcases List.mem_cons.1 h with rfl | h
      · exact .inl List.mem_cons_self
      · rcases ih h with h | h | ⟨v, hv, h⟩
        · exact .inl (List.mem_cons_of_mem _ h)
        · exact .inr (.inl h)
        · exact .inr (.inr ⟨v, List.mem_cons_of_mem _ hv, h⟩)

theorem Distinct.insert (x : α) (p : List κ) (h : Distinct ts) : Distinct (insert x p ts) := by
  induction p generalizing ts with
  | nil => exact h
  | cons k ks ih =>
    rw [insert_cons]
    obtain ⟨labels, below⟩ := h
    refine .intro ?_ ?_
    · rw [map_label_atLabel (by simp)]
      split_ifs with hk
      · exact labels
      · exact List.nodup_append.2 ⟨labels, List.nodup_singleton k, by simpa using hk⟩
    · intro t ht
      rcases mem_atLabel ht with ht | rfl | ⟨u, hu, rfl⟩
      · exact below t ht
      · exact ih distinct_nil
      · exact ih (below u hu)

def insertAll (es : List (List κ × α)) (ts : List (Trie κ α)) : List (Trie κ α) :=
  es.foldl (fun ts e => insert e.2 e.1 ts) ts

theorem Distinct.insertAll (es : List (List κ × α)) (h : Distinct ts) :
    Distinct (insertAll es ts) := by
  induction es generalizing ts with
  | nil => exact h
  | cons e es ih => exact ih (h.insert e.2 e.1)

theorem find_insertAll_of_not (es : List (List κ × α)) {q : List κ}
    (h : ∀ e ∈ es, ¬ q <+: e.1) : find (insertAll es ts) q = find ts q := by
  induction es generalizing ts with
  | nil => rfl
  | cons e es ih =>
    obtain ⟨he, hes⟩ := List.forall_mem_cons.1 h
    rw [insertAll, List.foldl_cons, ← insertAll, ih hes, find_insert, if_neg fun hq => he hq.2]

theorem find_insertAll_of_prefix (es : List (List κ × α)) {q : List κ} (hq : q ≠ [])
    (h : (find ts q).isSome ∨ ∃ e ∈ es, q <+: e.1) : find (insertAll es ts) q =
      some ((find ts q).getD 0 + ((es.filter (·.1 = q)).map Prod.snd).sum) := by
  induction es generalizing ts with
  | nil =>
    obtain ⟨a, ha⟩ := Option.isSome_iff_exists.1 (h.resolve_right (by simp))
    simp [insertAll, ha]
  | cons e es ih =>
    rw [insertAll, List.foldl_cons, ← insertAll]
    have hins := find_insert e.2 e.1 q ts
    by_cases hpre : q <+: e.1
    · rw [if_pos ⟨hq, hpre⟩] at hins
      rw [ih (.inl (by simp [hins])), hins]
      by_cases heq : q = e.1 <;> simp [heq, add_assoc, Ne.symm]
    · rw [if_neg fun hq => hpre hq.2] at hins
      have hne : e.1 ≠ q := by
        rintro rfl
        exact hpre List.prefix_rfl
      rw [ih, hins]
      · simp [hne]
      · rw [hins]
        refine h.imp_right ?_
        rintro ⟨e', he', hpre'⟩
        rcases List.mem_cons.1 he' with rfl | he'
        · exact absurd hpre' hpre
        · exact ⟨e', he', hpre'⟩

end Insert

section Places

inductive At : List (Trie κ α) → List κ → Trie κ α → Prop
  | here {ts : List (Trie κ α)} {t : Trie κ α} (h : t ∈ ts) : At ts [t.label] t
  | under {ts : List (Trie κ α)} {t u : Trie κ α} {q : List κ} (h : t ∈ ts)
    (hu : At t.children q u) : At ts (t.label :: q) u

def level : List (Trie κ α) → List κ → List α
  | ts, [] => ts.map value
  | ts, k :: ks =>
    match ts.find? (·.label = k) with
    | none => []
    | some t => level t.children ks

theorem level_nil (q : List κ) : level ([] : List (Trie κ α)) q = [] := by
  cases q <;> rfl

theorem level_cons (ts : List (Trie κ α)) (k : κ) (ks : List κ) :
    level ts (k :: ks) = ((ts.find? (·.label = k)).map fun t => level t.children ks).getD [] := by
  rw [level]
  cases ts.find? (·.label = k) <;> rfl

omit [DecidableEq κ] in
theorem At.ne_nil {ts : List (Trie κ α)} {q : List κ} {t : Trie κ α} (h : At ts q t) : q ≠ [] := by
  cases h <;> simp

omit [DecidableEq κ] in
theorem At.perm {ts us : List (Trie κ α)} {q : List κ} {t : Trie κ α} (h : At ts q t)
    (hp : ts.Perm us) : At us q t := by
  cases h with
  | here ht => exact .here (hp.mem_iff.1 ht)
  | under ht hu => exact .under (hp.mem_iff.1 ht) hu

theorem At.find {ts : List (Trie κ α)} {q : List κ} {t : Trie κ α} (h : At ts q t)
    (hd : Distinct ts) : find ts q = some t.value ∧ level ts q = t.children.map value := by
  induction h with
  | @here ts t ht =>
    have hfound := hd.find?_eq_some.2 ⟨ht, rfl⟩
    rw [Trie.find, level_cons, hfound]
    exact ⟨by simp, rfl⟩
  | @under ts t u q ht hu ih =>
    have hfound := hd.find?_eq_some.2 ⟨ht, rfl⟩
    obtain ⟨-, below⟩ := hd
    obtain ⟨hfind, hlevel⟩ := ih (below t ht)
    rw [Trie.find, level_cons, hfound]
    simp only [hu.ne_nil, if_false, Option.map_some, Option.getD_some]
    exact ⟨hfind, hlevel⟩

theorem exists_at {ts : List (Trie κ α)} {q : List κ} {a : α} (h : find ts q = some a) :
    ∃ t, At ts q t ∧ t.value = a := by
  induction q generalizing ts with
  | nil => simp [find] at h
  | cons k ks ih =>
    rw [find] at h
    cases hfound : ts.find? (·.label = k) with
    | none => simp [hfound] at h
    | some t =>
      have hmem := List.mem_of_find?_eq_some hfound
      obtain rfl : t.label = k := by simpa using List.find?_some hfound
      simp only [hfound] at h
      split_ifs at h with hks
      · subst hks
        exact ⟨t, .here hmem, Option.some.inj h⟩
      · obtain ⟨u, hu, rfl⟩ := ih h
        exact ⟨u, .under hmem hu, rfl⟩

end Places

section Sums

variable [AddCommMonoid α] {k : κ}

theorem sum_value_atLabel (x : α) (g : Trie κ α → List (Trie κ α)) (ts : List (Trie κ α)) :
    ((atLabel k (fun t => node t.label (t.value + x) (g t)) ts).map value).sum =
      (ts.map value).sum + x := by
  induction ts with
  | nil => simp [atLabel]
  | cons t ts ih =>
    rw [atLabel]
    split_ifs with ht
    · simp only [List.map_cons, List.sum_cons, value_node]
      rw [add_right_comm]
    · simp only [List.map_cons, List.sum_cons, ih, add_assoc]

theorem sum_level_insert (x : α) (p q : List κ) (ts : List (Trie κ α)) :
    (level (insert x p ts) q).sum =
      (level ts q).sum + if p ≠ [] ∧ p.dropLast = q then x else 0 := by
  induction p generalizing q ts with
  | nil => simp [insert]
  | cons k ks ih =>
    rw [insert_cons]
    have hlabel : ∀ t : Trie κ α, (node t.label (t.value + if ks = [] then x else 0)
        (insert x ks t.children)).label = t.label := fun _ => rfl
    cases q with
    | nil =>
      have hdrop : (k :: ks).dropLast = [] ↔ ks = [] := by
        cases ks <;> simp
      rw [level, sum_value_atLabel, level]
      simp [hdrop]
    | cons k' qs =>
      rw [level_cons, level_cons]
      rcases eq_or_ne k' k with rfl | hne
      · rw [find?_atLabel_self hlabel]
        simp only [Option.map_some, Option.getD_some, children_node, ih]
        have hlevel : level ((ts.find? (·.label = k')).getD (node k' 0 [])).children qs =
            ((ts.find? (·.label = k')).map fun t => level t.children qs).getD [] := by
          cases ts.find? (·.label = k') <;> simp [level_nil]
        have hdrop : (k' :: ks ≠ [] ∧ (k' :: ks).dropLast = k' :: qs) ↔
            ks ≠ [] ∧ ks.dropLast = qs := by
          cases ks <;> simp
        simp only [hlevel, hdrop]
      · rw [find?_atLabel_of_ne hlabel hne, if_neg, add_zero]
        rintro ⟨-, hdrop⟩
        cases ks with
        | nil => cases hdrop
        | cons k'' ks => exact hne (List.cons.inj hdrop).1.symm

theorem sum_level_insertAll (es : List (List κ × α)) (q : List κ) (ts : List (Trie κ α)) :
    (level (insertAll es ts) q).sum = (level ts q).sum +
      ((es.filter fun e => e.1 ≠ [] ∧ e.1.dropLast = q).map Prod.snd).sum := by
  induction es generalizing ts with
  | nil => simp [insertAll]
  | cons e es ih =>
    rw [insertAll, List.foldl_cons, ← insertAll, ih, sum_level_insert, List.filter_cons, add_assoc]
    by_cases he : e.1 ≠ [] ∧ e.1.dropLast = q
    · simp [he]
    · simp [he]

theorem head_insertAll (es : List (List κ × α)) (t : Trie κ α) (ts : List (Trie κ α)) :
    ∃ t' ts', insertAll es (t :: ts) = t' :: ts' ∧ t'.label = t.label := by
  induction es generalizing t ts with
  | nil => exact ⟨t, ts, rfl, rfl⟩
  | cons e es ih =>
    have hhead : ∃ t' ts', insert e.2 e.1 (t :: ts) = t' :: ts' ∧ t'.label = t.label := by
      cases hp : e.1 with
      | nil => exact ⟨t, ts, rfl, rfl⟩
      | cons k ks =>
        rw [insert_cons]
        by_cases ht : t.label = k
        · exact ⟨_, _, if_pos ht, rfl⟩
        · exact ⟨_, _, if_neg ht, rfl⟩
    obtain ⟨t', ts', hins, hlabel⟩ := hhead
    obtain ⟨t'', ts'', hall, hlabel'⟩ := ih t' ts'
    exact ⟨t'', ts'', by rw [insertAll, List.foldl_cons, ← insertAll, hins, hall],
      hlabel'.trans hlabel⟩

end Sums

end Trie

end Lark.Base
