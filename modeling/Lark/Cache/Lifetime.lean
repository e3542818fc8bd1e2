import Lark.Cache.Lru
import Lark.Cache.RemoteCache

namespace Lark.Cache

open Lark.Base Lark.Rpc LocalCache

variable {c : LocalCache} {now now' t ttl : Int64} {key value : String} {e : Entry}

def LocalCache.Disturbs (c : LocalCache) (key : String) : Call → Prop
  | .get _ => False
  | .put k _ _ => k = key ∨ (c.entries.lookup k).isSome = false ∧ key ∈ c.evict.2
  | .remove k => k = key
  | .clear => True
  | .size => False

def LocalCache.runFrom (c : LocalCache) (calls : List (Int64 × Call)) : LocalCache :=
  calls.foldl (fun c x => (c.call x.1 x.2).2) c

def Undisturbed (key : String) : LocalCache → List (Int64 × Call) → Prop
  | _, [] => True
  | c, (now, call) :: rest => ¬ c.Disturbs key call ∧
      Undisturbed key (c.call now call).2 rest

def Readings (now : Int64) (calls : List (Int64 × Call)) (t : Int64) : Prop :=
  (now :: (calls.map Prod.fst ++ [t])).IsChain (· ≤ ·)

def KeepsPromise (c : LocalCache) (now : Int64) (key value : String) (ttl : Int64) : Prop :=
  ∀ (calls : List (Int64 × Call)) (t : Int64), Readings now calls t →
    Undisturbed key (c.put now key value ttl) calls →
      (((c.put now key value ttl).runFrom calls).get t key).1 =
        if t.toInt - now.toInt < ttl.toInt * 1000000 then some value else none

section Kept

theorem lookup_evictLoop (n : Nat) (c : LocalCache) (victims : List String)
    (h : key ∉ (evictLoop n c victims).2) :
    (evictLoop n c victims).1.entries.lookup key = c.entries.lookup key ∧ key ∉ victims := by
  induction n generalizing c victims with
  | zero => exact ⟨rfl, h⟩
  | succ n ih =>
    unfold evictLoop at h ⊢
    cases hlast : c.lru.getLast? with
    | none =>
      simp only [hlast] at h
      exact ⟨rfl, h⟩
    | some victim =>
      simp only [hlast] at h ⊢
      split_ifs at h ⊢ with hfull
      · obtain ⟨hlook, hnot⟩ := ih _ _ h
        have hne : key ≠ victim := by
          rintro rfl
          simp at hnot
        refine ⟨?_, fun hm => hnot (List.mem_append_left _ hm)⟩
        rw [hlook, emit_entries, AList.lookup_erase_ne hne]
      · exact ⟨rfl, h⟩

theorem lookup_evict (h : key ∉ c.evict.2) :
    c.evict.1.entries.lookup key = c.entries.lookup key := by
  unfold evict at h ⊢
  split_ifs at h ⊢ with hfull
  · exact (lookup_evictLoop _ _ _ h).1
  · rfl

theorem lookup_put_self (c : LocalCache) (now : Int64) (key value : String) (ttl : Int64) :
    (c.put now key value ttl).entries.lookup key =
      some (entryFor c.options now value ttl) := by
  unfold put
  split
  · simp
  · simp

theorem lookup_put_ne {k : String} (hne : key ≠ k)
    (h : (c.entries.lookup k).isSome = true ∨ key ∉ c.evict.2) :
    (c.put now k value ttl).entries.lookup key = c.entries.lookup key := by
  unfold put
  split
  · rw [emit_entries, AList.lookup_insert_ne hne]
  · rename_i hk
    rw [emit_entries, AList.lookup_insert_ne hne, lookup_evict (h.resolve_left (by simp [hk]))]

def Held (key : String) (e : Entry) (now : Int64) (c : LocalCache) : Prop :=
  c.entries.lookup key = some e ∨ c.entries.lookup key = none ∧ isExpired e now = true

theorem isExpired_mono (h : isExpired e now = true) (hle : now ≤ now') : isExpired e now' = true := by
  simp only [isExpired, Bool.and_eq_true, decide_eq_true_eq] at h ⊢
  exact ⟨h.1, Int64.le_trans h.2 hle⟩

namespace Held

theorem mono (h : Held key e now c) (hle : now ≤ now') : Held key e now' c :=
  h.imp_right fun ⟨hnone, hx⟩ => ⟨hnone, isExpired_mono hx hle⟩

theorem of_lookup {c' : LocalCache} (h : Held key e now c)
    (hl : c'.entries.lookup key = c.entries.lookup key) : Held key e now c' := by
  simpa only [Held, hl] using h

theorem get_eq (h : Held key e now c) :
    (c.get now key).1 = if isExpired e now then none else some e.value := by
  unfold LocalCache.get
  rcases h with hk | ⟨hk, hx⟩
  · simp only [hk]
    split_ifs <;> rfl
  · simp [hk, hx]

theorem get (h : Held key e now c) (k : String) : Held key e now (c.get now k).2 := by
  unfold LocalCache.get
  cases hk : c.entries.lookup k with
  | none => exact h.of_lookup (by simp)
  | some e' =>
    simp only
    split_ifs with hx
    · rcases eq_or_ne key k with rfl | hne
      · rcases h with hkey | ⟨-, hx'⟩
        · obtain rfl := Option.some.inj (hk.symm.trans hkey)
          exact .inr ⟨by simp, hx⟩
        · exact .inr ⟨by simp, hx'⟩
      · exact h.of_lookup (by simp [AList.lookup_erase_ne hne])
    · exact h.of_lookup (by simp)

theorem call (h : Held key e now c) {call : Call} (hleft : ¬ c.Disturbs key call) :
    Held key e now (c.call now call).2 := by
  cases call with
  | get k => exact h.get k
  | put k value ttl =>
    obtain ⟨hne, hev⟩ := not_or.1 hleft
    refine h.of_lookup (lookup_put_ne (Ne.symm hne) ?_)
    cases hk : (c.entries.lookup k).isSome with
    | true => exact .inl rfl
    | false => exact .inr fun hm => hev ⟨hk, hm⟩
  | remove k =>
    have hne : key ≠ k := fun he => hleft he.symm
    refine h.of_lookup ?_
    simp only [LocalCache.call, LocalCache.remove]
    split
    · rfl
    · rw [emit_entries, AList.lookup_erase_ne hne]
  | clear => exact absurd trivial hleft
  | size => exact h

theorem runFrom {calls : List (Int64 × Call)} (h : Held key e now c) (hread : Readings now calls t)
    (hleft : Undisturbed key c calls) : Held key e t (c.runFrom calls) := by
  induction calls generalizing c now with
  | nil =>
    have hle : now ≤ t := by simpa [Readings] using hread
    exact h.mono hle
  | cons x calls ih =>
    obtain ⟨hle, hread⟩ := List.isChain_cons_cons.1 hread
    exact ih ((h.mono hle).call hleft.1) hread hleft.2

end Held

end Kept

theorem timeToLive_of_pos (o : CacheOptions) (h : 0 < ttl) : timeToLive o ttl = ttl := if_pos h

theorem ttl_promise_iff (c : LocalCache) (now : Int64) (key value : String) (hpos : 0 < ttl) :
    KeepsPromise c now key value ttl ↔ now.toInt + ttl.toInt * 1000000 < 2 ^ 63 := by
  have hput := lookup_put_self c now key value ttl
  have httl : 0 < ttl.toInt := Int64.lt_iff_toInt_lt.1 hpos
  have hget : ∀ calls t, Readings now calls t → Undisturbed key (c.put now key value ttl) calls →
      (((c.put now key value ttl).runFrom calls).get t key).1 =
        if isExpired (entryFor c.options now value ttl) t then none else some value := by
    intro calls t hread hleft
    exact (Held.runFrom (.inl hput) hread hleft).get_eq
  constructor
  · intro h
    by_contra hwraps
    have hread : Readings now [] Int64.maxValue := by
      simp [Readings, Int64.le_maxValue]
    have hlast := h [] Int64.maxValue hread trivial
    have hexpired : isExpired (entryFor c.options now value ttl) Int64.maxValue = true := by
      simp [isExpired, entryFor, timeToLive_of_pos c.options hpos, hpos, Int64.le_maxValue]
    have hmax : Int64.maxValue.toInt = 2 ^ 63 - 1 := by decide
    rw [hget [] _ hread trivial, if_pos hexpired, if_pos] at hlast
    · cases hlast
    · rw [hmax]
      omega
  · intro hfits calls t hread hleft
    have hno : NoOverflow c.options now ttl := by
      intro _
      rwa [timeToLive_of_pos c.options hpos]
    have hx : isExpired (entryFor c.options now value ttl) t =
        decide ((⟨value, now, ttl⟩ : Stored).Expired c.options t) :=
      isExpired_entryFor (p := ⟨value, now, ttl⟩) hno
    rw [hget calls t hread hleft, hx]
    simp only [Stored.Expired, timeToLive_of_pos c.options hpos, httl, true_and, decide_eq_true_eq]
    by_cases hlt : t.toInt - now.toInt < ttl.toInt * 1000000
    · rw [if_pos hlt, if_neg (by omega)]
    · rw [if_neg hlt, if_pos (by omega)]

theorem ttl_promise_minute : KeepsPromise (.make ⟨2, 0, false⟩) 7 "k" "v" 60000 :=
  (ttl_promise_iff _ _ _ _ (by decide)).2 (by decide)

-- A time to live that stands for "keep for ever": the deadline wraps to one millisecond before.
theorem ttl_promise_forever : ¬ KeepsPromise (.make ⟨2, 0, false⟩) 0 "k" "v" Int64.maxValue := by
  intro h
  have hread : Readings 0 [] 0 := by simp [Readings]
  have hlost : (((LocalCache.make ⟨2, 0, false⟩).put 0 "k" "v" Int64.maxValue).get 0 "k").1 = none :=
    rfl
  have hkept := h [] 0 hread trivial
  rw [if_pos (by decide)] at hkept
  cases hlost.symm.trans hkept

section Decision

variable {r : RemoteCache} {registry : InProcRegistry LocalCache} {ptr : Nat} {name : String}

-- The time to live that the interface promises; none is an entry that does not expire.
def promised (defaultTtl ttl : Int64) : Option Int64 :=
  if 0 < ttl then some ttl else if 0 < defaultTtl then some defaultTtl else none

def Entry.Lives (e : Entry) (now : Int64) : Option Int64 → Prop
  | none => e.hasTtl = false
  | some d => e.hasTtl = true ∧ e.expiresAt = now + d * 1000000

theorem lives_entryFor (o : CacheOptions) (now : Int64) (value : String) (ttl : Int64) :
    (entryFor o now value ttl).Lives now (promised o.defaultTtl ttl) := by
  unfold promised
  split_ifs with ht hd
  · simp [Entry.Lives, entryFor, timeToLive, ht]
  · simp [Entry.Lives, entryFor, timeToLive, ht, hd]
  · simp [Entry.Lives, entryFor, timeToLive, ht, hd]

theorem lives_unique {o o' : Option Int64} (h : e.Lives now o) (h' : e.Lives now o') :
    o.isSome = o'.isSome := by
  cases o with
  | none =>
    cases o' with
    | none => rfl
    | some d' => cases h.symm.trans h'.1
  | some d =>
    cases o' with
    | none => cases h'.symm.trans h.1
    | some d' => rfl

theorem promised_resolveTtl (r : RemoteCache) (serverTtl ttl : Int64) :
    promised serverTtl (r.resolveTtl ttl) =
      if 0 < ttl ∨ 0 < r.options.defaultTtl then promised r.options.defaultTtl ttl
      else promised serverTtl 0 := by
  have hzero : ¬ (0 : Int64) < 0 := by decide
  unfold promised RemoteCache.resolveTtl
  by_cases ht : 0 < ttl
  · simp only [ht, if_true, true_or]
  · by_cases hc : 0 < r.options.defaultTtl
    · simp only [ht, hc, if_true, if_false, or_true]
    · simp only [ht, hc, hzero, if_false, or_self]

theorem client_ttl_reaches_store_iff
    (h : registry.find r.service = some (CacheRpcService.make ptr name)) (now : Int64)
    (key value : String) (ttl : Int64) (store : LocalCache) :
    (∃ r' store' e, r.put registry now key value ttl store = (.ok r', store') ∧
      store'.entries.lookup key = some e ∧ e.value = value ∧
        e.Lives now (promised r.options.defaultTtl ttl)) ↔
      0 < ttl ∨ 0 < r.options.defaultTtl ∨ ¬ 0 < store.options.defaultTtl := by
  have hlives := lives_entryFor store.options now value (r.resolveTtl ttl)
  rw [promised_resolveTtl] at hlives
  rw [RemoteCache.put_eq h]
  constructor
  · rintro ⟨r', store', e, hput, hl, -, he⟩
    obtain ⟨-, rfl⟩ := Prod.mk.inj hput
    obtain rfl := Option.some.inj ((lookup_put_self _ _ _ _ _).symm.trans hl)
    by_contra hnot
    obtain ⟨ht, hc, hs⟩ : ¬ 0 < ttl ∧ ¬ 0 < r.options.defaultTtl ∧ 0 < store.options.defaultTtl := by
      simpa only [not_or, not_not] using hnot
    rw [if_neg (not_or.2 ⟨ht, hc⟩)] at hlives
    have hsome := lives_unique hlives he
    simp [promised, ht, hc, hs] at hsome
  · intro hcase
    refine ⟨_, _, _, rfl, lookup_put_self _ _ _ _ _, rfl, ?_⟩
    by_cases hclient : 0 < ttl ∨ 0 < r.options.defaultTtl
    · rwa [if_pos hclient] at hlives
    · obtain ⟨ht, hc⟩ := not_or.1 hclient
      have hs := (hcase.resolve_left ht).resolve_left hc
      rw [if_neg hclient] at hlives
      simpa [promised, ht, hc, hs] using hlives

theorem client_ttl_reaches_store_default : ∃ r' store' e,
    (RemoteCache.make ⟨2, 5, false⟩ ⟨"inproc", "cache"⟩ "cache").put cacheRegistry 0 "k" "v" 0
      (.make ⟨2, 9, false⟩) = (.ok r', store') ∧
      store'.entries.lookup "k" = some e ∧ e.value = "v" ∧ e.Lives 0 (promised 5 0) :=
  (client_ttl_reaches_store_iff find_cacheRegistry 0 "k" "v" 0 _).2 (by decide)

theorem server_default_overrides : ∃ r' store' e,
    (RemoteCache.make ⟨2, 0, false⟩ ⟨"inproc", "cache"⟩ "cache").put cacheRegistry 0 "k" "v" 0
      (.make ⟨2, 9, false⟩) = (.ok r', store') ∧
      store'.entries.lookup "k" = some e ∧ e.Lives 0 (some 9) ∧ ¬ e.Lives 0 (promised 0 0) := by
  have hlives : (entryFor ⟨2, 9, false⟩ 0 "v" 0).Lives 0 (some 9) := ⟨rfl, rfl⟩
  refine ⟨_, _, _, RemoteCache.put_eq find_cacheRegistry 0 "k" "v" 0 _, lookup_put_self _ _ _ _ _,
    hlives, ?_⟩
  intro h
  cases lives_unique hlives h

end Decision

section Absent

def LocalCache.without (c : LocalCache) (key : String) : LocalCache :=
  { c with entries := c.entries.erase key, lru := Recency.forget key c.lru }

def observed : LocalCache → List (Int64 × String) → List (Option String)
  | _, [] => []
  | c, (t, k) :: gets => (c.get t k).1 :: observed (c.get t k).2 gets

-- A call at `t` answers, and leaves to later Gets, what it would if the key were not stored.
structure AsAbsent (c : LocalCache) (t : Int64) (key : String) (call : Call) : Prop where
  reply : (c.call t call).1 = ((c.without key).call t call).1
  later : ∀ gets : List (Int64 × String), (∀ g ∈ gets, t ≤ g.1) →
    observed (c.call t call).2 gets = observed ((c.without key).call t call).2 gets

theorem get_congr {c' : LocalCache} (h : c.entries = c'.entries) (t : Int64) (k : String) :
    (c.get t k).1 = (c'.get t k).1 ∧ (c.get t k).2.entries = (c'.get t k).2.entries := by
  unfold LocalCache.get
  rw [h]
  split
  · simpa using h
  · split_ifs <;> simp

theorem observed_congr {c' : LocalCache} (h : c.entries = c'.entries) (gets : List (Int64 × String)) :
    observed c gets = observed c' gets := by
  induction gets generalizing c c' with
  | nil => rfl
  | cons g gets ih =>
    obtain ⟨hv, he⟩ := get_congr h g.1 g.2
    rw [observed, observed, hv, ih he]

theorem get_without (c : LocalCache) (t : Int64) (key : String) :
    (c.without key).get t key = (none, (c.without key).emit "cache.miss" key) := by
  simp [LocalCache.get, LocalCache.without]

theorem get_expired (hk : c.entries.lookup key = some e) (hx : isExpired e t = true) :
    c.get t key = (none, (c.without key).emit "cache.miss" key) := by
  simp [LocalCache.get, LocalCache.without, hk, hx]

theorem remove_without (c : LocalCache) (key : String) :
    (c.without key).remove key = (false, c.without key) := by
  simp [LocalCache.remove, LocalCache.without]

theorem remove_stored (hk : c.entries.lookup key = some e) :
    c.remove key = (true, (c.without key).emit "cache.remove" key) := by
  simp [LocalCache.remove, LocalCache.without, hk]

theorem remove_later (hk : c.entries.lookup key = some e) (gets : List (Int64 × String)) :
    observed (c.remove key).2 gets = observed ((c.without key).remove key).2 gets := by
  rw [remove_stored hk, remove_without]
  exact observed_congr emit_entries gets

theorem expired_as_absent_iff (hk : c.entries.lookup key = some e) (hx : isExpired e t = true)
    {call : Call} (hcall : call = .get key ∨ call = .remove key) :
    (AsAbsent c t key call ↔ call = .get key) ∧
      ∀ gets, observed (c.call t call).2 gets = observed ((c.without key).call t call).2 gets := by
  rcases hcall with rfl | rfl
  · have hsame : c.call t (.get key) = (c.without key).call t (.get key) := by
      simp only [LocalCache.call, get_expired hk hx, get_without]
    simp only [iff_true]
    exact ⟨⟨by rw [hsame], fun gets _ => by rw [hsame]⟩, fun gets => by rw [hsame]⟩
  · refine ⟨⟨?_, ?_⟩, remove_later hk⟩
    · rintro ⟨hreply, -⟩
      simp [LocalCache.call, remove_stored hk, remove_without] at hreply
    · rintro ⟨⟩

def stale : LocalCache := runCalls ⟨2, 0, false⟩ [(0, .put "k" "v" 1)]

theorem expired_as_absent_get : AsAbsent stale 1000000 "k" (.get "k") :=
  (expired_as_absent_iff rfl rfl (.inl rfl)).1.2 rfl

theorem expired_removed : ¬ AsAbsent stale 1000000 "k" (.remove "k") := by
  rintro ⟨hreply, -⟩
  exact absurd hreply (by decide)

end Absent

end Lark.Cache
