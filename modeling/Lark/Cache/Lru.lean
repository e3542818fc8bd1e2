import Lark.Cache.LocalCache

namespace Lark.Cache

open Lark.Base LocalCache

def NoOverflow (o : CacheOptions) (now ttl : Int64) : Prop :=
  0 < (timeToLive o ttl).toInt → now.toInt + (timeToLive o ttl).toInt * 1000000 < 2 ^ 63

section Expiry

variable {o : CacheOptions} {p : Stored} {now : Int64}

theorem deadline_toInt {ttl : Int64} (h : now.toInt + ttl.toInt * 1000000 < 2 ^ 63)
    (ht : 0 < ttl.toInt) : (now + ttl * 1000000).toInt = now.toInt + ttl.toInt * 1000000 := by
  have hmul : (1000000 : Int64).toInt = 1000000 := by decide
  have hlow : -2 ^ 63 ≤ now.toInt := Int64.le_toInt now
  rw [Int64.toInt_add, Int64.toInt_mul, hmul, Int.add_bmod_bmod]
  refine Int.bmod_eq_of_le ?_ ?_
  · norm_num at hlow ⊢
    omega
  · norm_num at h ⊢
    omega

theorem isExpired_entryFor (h : NoOverflow o p.now p.ttl) :
    isExpired (entryFor o p.now p.value p.ttl) now = decide (p.Expired o now) := by
  have hpos : (0 < timeToLive o p.ttl) ↔ 0 < (timeToLive o p.ttl).toInt := by
    rw [Int64.lt_iff_toInt_lt]
    rfl
  simp only [isExpired, entryFor, Stored.Expired, hpos]
  by_cases ht : 0 < (timeToLive o p.ttl).toInt
  · simp only [ht, decide_true, Bool.true_and]
    refine decide_eq_decide.2 ?_
    rw [Int64.le_iff_toInt_le, deadline_toInt (h ht) ht, true_and]
  · simp [ht]

end Expiry

structure Inv (o : CacheOptions) (c : LocalCache) (past : List Happened) : Prop where
  options : c.options = o
  ordered : Recency.Ordered (uses past) c.lru
  keys : ∀ k, k ∈ c.lru ↔ k ∈ c.entries
  bounded : 0 < o.capacity → c.entries.keys.length ≤ o.capacity
  stored : ∀ k e, c.entries.lookup k = some e → ∃ p, lastPut k past = some p ∧
    NoOverflow o p.now p.ttl ∧ e = entryFor o p.now p.value p.ttl
  absent : ∀ k, c.entries.lookup k = none → lastPut k past = none

section Stored

variable {past : List Happened} {k : String}

theorem mem_uses_of_lastPut {p : Stored} (h : lastPut k past = some p) : k ∈ uses past := by
  induction past with
  | nil => cases h
  | cons e past ih =>
    have hmem : lastPut k past = some p → k ∈ uses (e :: past) := by
      intro hp
      rw [uses, List.filterMap_cons]
      split
      · exact ih hp
      · exact List.mem_cons_of_mem _ (ih hp)
    cases e with
    | put k' value now ttl =>
      rcases eq_or_ne k' k with rfl | hne
      · simp [uses, Happened.used?]
      · exact hmem (by simpa [lastPut, hne] using h)
    | hit k' => exact hmem h
    | cleared => cases h
    | expired k' | removed k' | evicted k' =>
      rcases eq_or_ne k' k with rfl | hne
      · simp [lastPut] at h
      · exact hmem (by simpa [lastPut, hne] using h)

theorem mem_storedKeys : k ∈ storedKeys past ↔ ∃ p, lastPut k past = some p := by
  rw [storedKeys, List.mem_filter, List.mem_dedup, Option.isSome_iff_exists]
  exact ⟨And.right, fun h => ⟨mem_uses_of_lastPut h.choose_spec, h⟩⟩

theorem nodup_storedKeys : (storedKeys past).Nodup := (List.nodup_dedup _).filter _

end Stored

variable {o : CacheOptions} {now : Int64} {c : LocalCache} {past : List Happened}
  {key value : String} {ttl : Int64}

namespace Inv

theorem start (o : CacheOptions) : Inv o (.make o) [] := by
  refine ⟨rfl, ⟨.nil, .nil⟩, ?_, ?_, ?_, ?_⟩
  · simp [make]
  · simp [make]
  · simp [make]
  · simp [lastPut]

theorem emit (h : Inv o c past) (action key : String) : Inv o (c.emit action key) past := by
  refine ⟨by simpa using h.options, by simpa using h.ordered, ?_, ?_, ?_, ?_⟩
  · simpa using h.keys
  · simpa using h.bounded
  · simpa using h.stored
  · simpa using h.absent

theorem mem_entries (h : Inv o c past) (k : String) :
    k ∈ c.entries ↔ ∃ p, lastPut k past = some p := by
  rw [← AList.lookup_isSome, Option.isSome_iff_exists]
  constructor
  · rintro ⟨e, he⟩
    obtain ⟨p, hp, -⟩ := h.stored k e he
    exact ⟨p, hp⟩
  · rintro ⟨p, hp⟩
    cases he : c.entries.lookup k with
    | none => exact absurd (hp.symm.trans (h.absent k he)) (by simp)
    | some e => exact ⟨e, rfl⟩

theorem perm_storedKeys (h : Inv o c past) : (storedKeys past).Perm c.entries.keys :=
  (List.perm_ext_iff_of_nodup nodup_storedKeys c.entries.keys_nodup).2 fun k =>
    mem_storedKeys.trans (h.mem_entries k).symm

theorem oldest_eq (h : Inv o c past) {lru : List String} {victim : String}
    (hlru : c.lru = lru ++ [victim]) : oldest past = some victim := by
  have hmem : ∀ k, k ∈ storedKeys past ↔ k ∈ lru ++ [victim] := by
    intro k
    rw [mem_storedKeys, ← h.mem_entries, ← h.keys, hlru]
  have hordered := h.ordered
  rw [hlru] at hordered
  have hleast : ∀ k ∈ storedKeys past, k ≠ victim →
      Recency.lastUse victim (uses past) < Recency.lastUse k (uses past) := by
    intro k hk hne
    exact hordered.oldest (by simpa [hne] using (hmem k).1 hk)
  refine (List.argmin_eq_some_iff).2 ⟨(hmem victim).2 (by simp), fun k hk => ?_, fun k hk hle => ?_⟩
  · rcases eq_or_ne k victim with rfl | hne
    · exact le_rfl
    · exact (hleast k hk hne).le
  · rcases eq_or_ne k victim with rfl | hne
    · exact le_rfl
    · exact absurd hle (not_le.2 (hleast k hk hne))

theorem erase (h : Inv o c past) (key : String) (past' : List Happened)
    (huses : uses past' = uses past)
    (hother : ∀ k, k ≠ key → lastPut k past' = lastPut k past)
    (hkey : lastPut key past' = none) :
    Inv o { c with entries := c.entries.erase key, lru := Recency.forget key c.lru } past' := by
  refine ⟨h.options, ?_, fun k => ?_, fun hc => ?_, fun k e hk => ?_, fun k hk => ?_⟩
  · rw [huses]
    exact h.ordered.forget key
  · simp only [Recency.mem_forget, AList.mem_erase, h.keys, and_comm]
  · refine le_trans ?_ (h.bounded hc)
    rw [AList.keys_erase]
    exact List.length_erase_le
  · have hne : k ≠ key := by
      rintro rfl
      simp at hk
    rw [AList.lookup_erase_ne hne] at hk
    rw [hother k hne]
    exact h.stored k e hk
  · rcases eq_or_ne k key with rfl | hne
    · exact hkey
    · rw [AList.lookup_erase_ne hne] at hk
      rw [hother k hne]
      exact h.absent k hk

theorem hit (h : Inv o c past) (hk : key ∈ c.entries) :
    Inv o { c with lru := Recency.touch key c.lru } (.hit key :: past) := by
  refine ⟨h.options, h.ordered.touch key, fun k => ?_, h.bounded, h.stored, h.absent⟩
  rw [Recency.mem_touch, h.keys]
  constructor
  · rintro (rfl | hm)
    · exact hk
    · exact hm
  · exact .inr

theorem store (h : Inv o c past) (key value : String) (hfits : NoOverflow o now ttl)
    (hroom : 0 < o.capacity → (key :: c.entries.keys.erase key).length ≤ o.capacity) :
    Inv o { c with
      entries := c.entries.insert key (entryFor c.options now value ttl)
      lru := Recency.touch key c.lru } (.put key value now ttl :: past) := by
  refine ⟨h.options, h.ordered.touch key, fun k => ?_, fun hc => ?_, fun k e hk => ?_,
    fun k hk => ?_⟩
  · rw [Recency.mem_touch, h.keys, AList.mem_insert]
  · rw [AList.keys_insert]
    exact hroom hc
  · rcases eq_or_ne k key with rfl | hne
    · rw [AList.lookup_insert] at hk
      refine ⟨⟨value, now, ttl⟩, by simp [lastPut], hfits, ?_⟩
      rw [← Option.some.inj hk, h.options]
    · rw [AList.lookup_insert_ne hne] at hk
      simpa [lastPut, hne.symm] using h.stored k e hk
  · rcases eq_or_ne k key with rfl | hne
    · simp at hk
    · rw [AList.lookup_insert_ne hne] at hk
      simpa [lastPut, hne.symm] using h.absent k hk

end Inv

theorem get_eq (h : Inv o c past) (now : Int64) (key : String) :
    (c.get now key).1 = (lastPut key past).bind fun p =>
      if p.Expired o now then none else some p.value := by
  unfold LocalCache.get
  cases hk : c.entries.lookup key with
  | none => rw [h.absent key hk, Option.bind_none]
  | some e =>
    obtain ⟨p, hp, hfits, rfl⟩ := h.stored key e hk
    rw [hp]
    simp only [isExpired_entryFor hfits, decide_eq_true_eq, Option.bind_some]
    split_ifs <;> rfl

theorem inv_get (h : Inv o c past) (now : Int64) (key : String) :
    Inv o (c.get now key).2 (happens o past now (.get key) ++ past) := by
  cases hk : c.entries.lookup key with
  | none =>
    have hget : c.get now key = (none, c.emit "cache.miss" key) := by simp [LocalCache.get, hk]
    simpa [happens, hget, h.absent key hk] using h.emit "cache.miss" key
  | some e =>
    obtain ⟨p, hp, hfits, he⟩ := h.stored key e hk
    have hexp : isExpired e now = decide (p.Expired o now) := by rw [he, isExpired_entryFor hfits]
    by_cases hx : p.Expired o now
    · have hget : c.get now key = (none, { c with
          lru := Recency.forget key c.lru, entries := c.entries.erase key }.emit
          "cache.miss" key) := by simp [LocalCache.get, hk, hexp, hx]
      have hdrop := h.erase key (.expired key :: past) rfl
        (fun k hne => by simp [lastPut, hne.symm]) (by simp [lastPut])
      simpa [happens, hget, hp, hx] using hdrop.emit "cache.miss" key
    · have hget : c.get now key = (some e.value, { c with
          lru := Recency.touch key c.lru }.emit "cache.hit" key) := by
        simp [LocalCache.get, hk, hexp, hx]
      have hmem : key ∈ c.entries := AList.lookup_isSome.1 (by simp [hk])
      simpa [happens, hget, hp, hx] using (h.hit hmem).emit "cache.hit" key

theorem evict_spec (h : Inv o c past) :
    (c.evict = (c, []) ∧ (0 < o.capacity → c.entries.keys.length < o.capacity)) ∨
    (0 < o.capacity ∧ o.capacity ≤ c.entries.keys.length ∧
      ∃ lru victim, c.lru = lru ++ [victim] ∧ c.evict = ({ c with lru := lru, entries := c.entries.erase victim }.emit
        "cache.evict" victim, [victim])) := by
  unfold evict
  rw [h.options]
  split_ifs with hfull
  · obtain ⟨hpos, hcap⟩ := hfull
    have hperm : c.lru.Perm c.entries.keys :=
      (List.perm_ext_iff_of_nodup h.ordered.nodup c.entries.keys_nodup).2 h.keys
    have hlen : c.entries.keys.length = o.capacity := le_antisymm (h.bounded hpos) hcap
    rcases List.eq_nil_or_concat c.lru with hnil | ⟨lru, victim, hlru⟩
    · have := hperm.length_eq
      rw [hnil, hlen] at this
      simp at this
      omega
    · rw [List.concat_eq_append] at hlru
      refine .inr ⟨hpos, hcap, lru, victim, hlru, ?_⟩
      have hmem : victim ∈ c.entries.keys := hperm.mem_iff.1 (by simp [hlru])
      have hstop : ∀ n, evictLoop n ({ c with
          lru := lru, entries := c.entries.erase victim }.emit "cache.evict" victim) [victim] =
          ({ c with lru := lru, entries := c.entries.erase victim }.emit
            "cache.evict" victim, [victim]) := by
        intro n
        cases n with
        | zero => rfl
        | succ n =>
          have hroom : ¬ o.capacity ≤ (c.entries.erase victim).keys.length := by
            rw [AList.keys_erase, List.length_erase_of_mem hmem]
            omega
          unfold evictLoop
          split
          · rfl
          · rw [if_neg]
            simpa [h.options] using hroom
      have hn : c.lru.length = lru.length + 1 := by simp [hlru]
      rw [hn, evictLoop, hlru]
      simp only [List.getLast?_append, List.getLast?_singleton, Option.some_or, h.options, hcap,
        if_true, List.dropLast_concat, List.nil_append]
      simpa only [h.options] using hstop lru.length
  · exact .inl ⟨rfl, fun hpos => by omega⟩

theorem inv_evict (h : Inv o c past) :
    Inv o c.evict.1 ((if Full o past then (oldest past).toList.map .evicted else []) ++ past) ∧
      (0 < o.capacity → c.evict.1.entries.keys.length < o.capacity) ∧
      ∀ k, c.entries.lookup k = none → c.evict.1.entries.lookup k = none := by
  have hlen : (storedKeys past).length = c.entries.keys.length := h.perm_storedKeys.length_eq
  rcases evict_spec h with ⟨hev, hroom⟩ | ⟨hpos, hcap, lru, victim, hlru, hev⟩
  · have hfull : ¬ Full o past := by
      rintro ⟨hpos, hle⟩
      have hlt := hroom hpos
      omega
    rw [hev, if_neg hfull]
    exact ⟨h, hroom, fun _ hk => hk⟩
  · have hfull : Full o past := ⟨hpos, hlen ▸ hcap⟩
    have hnot : victim ∉ lru := by
      have hnd := h.ordered.nodup
      rw [hlru] at hnd
      intro hm
      exact (List.nodup_append.1 hnd).2.2 victim hm victim (by simp) rfl
    have hforget : Recency.forget victim c.lru = lru := by
      rw [hlru, Recency.forget, List.filter_append, ← Recency.forget,
        Recency.forget_of_notMem hnot]
      simp
    have hdrop := h.erase victim (.evicted victim :: past) rfl
      (fun k hk => by simp [lastPut, hk.symm]) (by simp [lastPut])
    rw [hforget] at hdrop
    rw [hev, if_pos hfull, h.oldest_eq hlru]
    refine ⟨hdrop.emit _ _, fun _ => ?_, fun k hk => ?_⟩
    · have hmem : victim ∈ c.entries.keys := (h.keys victim).1 (by simp [hlru])
      have hle := h.bounded hpos
      have hlen := List.length_pos_of_mem hmem
      rw [emit_entries, AList.keys_erase, List.length_erase_of_mem hmem]
      omega
    · rcases eq_or_ne k victim with rfl | hne
      · simp
      · simpa [AList.lookup_erase_ne hne] using hk

theorem inv_put (h : Inv o c past) (hfits : NoOverflow o now ttl) :
    Inv o (c.put now key value ttl) (happens o past now (.put key value ttl) ++ past) := by
  cases hk : c.entries.lookup key with
  | some e =>
    obtain ⟨p, hp, -⟩ := h.stored key e hk
    have hput : c.put now key value ttl = { c with
        entries := c.entries.insert key (entryFor c.options now value ttl)
        lru := Recency.touch key c.lru }.emit "cache.put" key := by simp [put, hk]
    have hmem : key ∈ c.entries.keys := AList.lookup_isSome.1 (by simp [hk])
    have hstore := h.store key value hfits fun hc => by
      have hlen := List.length_pos_of_mem hmem
      have hle := h.bounded hc
      rw [List.length_cons, List.length_erase_of_mem hmem]
      omega
    rw [hput]
    simpa [happens, hp] using hstore.emit "cache.put" key
  | none =>
    obtain ⟨hev, hroom, hnone⟩ := inv_evict h
    have hnone := hnone key hk
    have hkey : key ∉ c.evict.1.entries := AList.lookup_eq_none.1 hnone
    have hlru : key ∉ c.evict.1.lru := fun hm => hkey ((hev.keys key).1 hm)
    have hput : c.put now key value ttl = { c.evict.1 with
        entries := c.evict.1.entries.insert key (entryFor c.evict.1.options now value ttl)
        lru := Recency.touch key c.evict.1.lru }.emit "cache.put" key := by
      simp [put, hk, Recency.touch, Recency.forget_of_notMem hlru]
    have hstore := hev.store key value hfits fun hc => by
      rw [List.erase_of_not_mem hkey, List.length_cons]
      exact hroom hc
    rw [hput]
    simpa [happens, h.absent key hk] using hstore.emit "cache.put" key

theorem inv_remove (h : Inv o c past) (key : String) :
    Inv o (c.remove key).2 (.removed key :: past) := by
  have hdrop := h.erase key (.removed key :: past) rfl
    (fun k hk => by simp [lastPut, hk.symm]) (by simp [lastPut])
  cases hk : c.entries.lookup key with
  | some e =>
    have hrem : (c.remove key).2 = { c with
        entries := c.entries.erase key, lru := Recency.forget key c.lru }.emit
        "cache.remove" key := by simp [remove, hk]
    rw [hrem]
    exact hdrop.emit "cache.remove" key
  | none =>
    have hkey : key ∉ c.entries := AList.lookup_eq_none.1 hk
    have hrem : (c.remove key).2 = c := by simp [remove, hk]
    rw [hrem]
    refine ⟨h.options, h.ordered, h.keys, h.bounded, fun k e hk' => ?_, fun k hk' => ?_⟩
    · have hne : key ≠ k := by
        rintro rfl
        simp [hk] at hk'
      simpa [lastPut, hne] using h.stored k e hk'
    · rw [lastPut, h.absent k hk', ite_self]

theorem inv_clear (h : Inv o c past) : Inv o c.clear (.cleared :: past) := by
  have hclear : Inv o { c with entries := ∅, lru := [] } (.cleared :: past) := by
    refine ⟨h.options, ⟨.nil, .nil⟩, ?_, ?_, ?_, ?_⟩
    · simp
    · simp
    · simp
    · simp [lastPut]
  exact hclear.emit "cache.clear" ""

theorem inv_call (h : Inv o c past) (now : Int64) (call : Call)
    (hfits : ∀ key value ttl, call = .put key value ttl → NoOverflow o now ttl) :
    Inv o (c.call now call).2 (happens o past now call ++ past) := by
  cases call with
  | get key => exact inv_get h now key
  | put key value ttl => exact inv_put h (hfits key value ttl rfl)
  | remove key => exact inv_remove h key
  | clear => exact inv_clear h
  | size => exact h

theorem runCalls_inv {calls : List (Int64 × Call)}
    (hfits : ∀ t key value ttl, (t, Call.put key value ttl) ∈ calls → NoOverflow o t ttl) :
    Inv o (runCalls o calls) (history o calls) := by
  induction calls using List.reverseRecOn with
  | nil => exact .start o
  | append_singleton calls c ih =>
    have hstep := inv_call (ih fun t key value ttl hm => hfits t key value ttl (by simp [hm])) c.1 c.2
      fun key value ttl he => hfits c.1 key value ttl (by simp [← he])
    rw [runCalls, history, List.foldl_append, List.foldl_append]
    exact hstep

structure IsLru (o : CacheOptions) (c : LocalCache) (past : List Happened) : Prop where
  nodup : c.lru.Nodup
  keys : ∀ k, k ∈ c.lru ↔ k ∈ c.entries
  bounded : 0 < o.capacity → c.entries.keys.length ≤ o.capacity
  evicts : ∀ now key value ttl, 0 < o.capacity → key ∉ c.entries →
    o.capacity ≤ c.entries.keys.length → ∃ victim ∈ c.entries,
      (∀ k ∈ c.entries, k ≠ victim →
        Recency.lastUse victim (uses past) < Recency.lastUse k (uses past)) ∧
      victim ∉ (c.put now key value ttl).entries ∧
      ∀ k, k ≠ victim → k ≠ key →
        (c.put now key value ttl).entries.lookup k = c.entries.lookup k
  spares : ∀ now key value ttl,
    ¬ (0 < o.capacity ∧ key ∉ c.entries ∧ o.capacity ≤ c.entries.keys.length) →
      ∀ k, k ≠ key → (c.put now key value ttl).entries.lookup k = c.entries.lookup k

theorem Inv.isLru (h : Inv o c past) : IsLru o c past := by
  refine ⟨h.ordered.nodup, h.keys, h.bounded, fun t key value ttl hpos hnew hfull => ?_,
    fun t key value ttl hroom k hne => ?_⟩
  · rcases evict_spec h with ⟨-, hroom⟩ | ⟨-, -, lru, victim, hlru, hev⟩
    · exact absurd (hroom hpos) (not_lt.2 hfull)
    · have hmem : victim ∈ c.entries := (h.keys victim).1 (by simp [hlru])
      have hne : victim ≠ key := by
        rintro rfl
        exact hnew hmem
      have hput : (c.put t key value ttl).entries =
          (c.entries.erase victim).insert key (entryFor c.options t value ttl) := by
        simp [put, AList.lookup_eq_none.2 hnew, hev]
      have hordered := h.ordered
      rw [hlru] at hordered
      refine ⟨victim, hmem, fun k hk hkv => ?_, ?_, fun k hkv hkk => ?_⟩
      · have hk : k ∈ lru ++ [victim] := hlru ▸ (h.keys k).2 hk
        exact hordered.oldest (by simpa [hkv] using hk)
      · rw [hput, AList.mem_insert, AList.mem_erase]
        simp [hne]
      · rw [hput, AList.lookup_insert_ne hkk, AList.lookup_erase_ne hkv]
  · cases hk : c.entries.lookup key with
    | some e => simp [put, hk, AList.lookup_insert_ne hne]
    | none =>
      have hev : c.evict = (c, []) := by
        rw [evict, if_neg]
        rw [h.options]
        exact fun hfull => hroom ⟨hfull.1, AList.lookup_eq_none.1 hk, hfull.2⟩
      simp [put, hk, hev, AList.lookup_insert_ne hne]

theorem localCache_is_lru {calls : List (Int64 × Call)}
    (hfits : ∀ t key value ttl, (t, Call.put key value ttl) ∈ calls → NoOverflow o t ttl) :
    IsLru o (runCalls o calls) (history o calls) ∧
    ∀ now key, ((runCalls o calls).get now key).1 =
      (lastPut key (history o calls)).bind fun p =>
        if p.Expired o now then none else some p.value := by
  constructor
  · exact (runCalls_inv hfits).isLru
  · intro now key
    exact get_eq (runCalls_inv hfits) now key

def pairCalls : List (Int64 × Call) := [(0, .put "a" "1" 0), (1, .put "b" "2" 0)]

theorem localCache_is_lru_pair :
    ((runCalls ⟨1, 0, false⟩ pairCalls).get 1 "b").1 = some "2" ∧
      ((runCalls ⟨1, 0, false⟩ pairCalls).get 1 "a").1 = none := by
  have hfits : ∀ t key value ttl, (t, Call.put key value ttl) ∈ pairCalls →
      NoOverflow ⟨1, 0, false⟩ t ttl := by
    intro t key value ttl hm
    obtain rfl : ttl = 0 := by
      rcases (by simpa [pairCalls] using hm : _ ∨ _) with ⟨-, -, -, rfl⟩ | ⟨-, -, -, rfl⟩ <;> rfl
    exact fun hpos => absurd hpos (by decide)
  obtain ⟨-, hget⟩ := localCache_is_lru hfits
  exact ⟨hget 1 "b", hget 1 "a"⟩

end Lark.Cache
