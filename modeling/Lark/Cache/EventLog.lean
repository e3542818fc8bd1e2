import Lark.Base.Audit
import Lark.Cache.RemoteCache

namespace Lark.Cache

open Lark.Base LocalCache Lark.Rpc

-- What an event says of the keys that are stored, the one used last in front.
def replayed (lru : List String) (e : Event) : List String :=
  if e.action = "cache.hit" ∨ e.action = "cache.put" then Recency.touch e.key lru
  else if e.action = "cache.clear" then []
  else Recency.forget e.key lru

inductive Lawful (capacity : Nat) (lru : List String) : Event → Prop
  | hit {key} (h : key ∈ lru) : Lawful capacity lru ⟨"cache.hit", key, true⟩
  | miss {key} : Lawful capacity lru ⟨"cache.miss", key, true⟩
  | put {key} (h : 0 < capacity → key ∈ lru ∨ lru.length < capacity) :
      Lawful capacity lru ⟨"cache.put", key, true⟩
  | evict {key} (hpos : 0 < capacity) (hfull : capacity ≤ lru.length)
      (hlast : lru.getLast? = some key) : Lawful capacity lru ⟨"cache.evict", key, true⟩
  | remove {key} (h : key ∈ lru) : Lawful capacity lru ⟨"cache.remove", key, true⟩
  | clear : Lawful capacity lru ⟨"cache.clear", "", true⟩

def asked : Call × Reply → Option (String × Bool)
  | (.get key, .value v) => some (key, v.isSome)
  | _ => none

def answered (e : Event) : Option (String × Bool) :=
  if e.action = "cache.hit" then some (e.key, true)
  else if e.action = "cache.miss" then some (e.key, false)
  else none

structure Audited (c : LocalCache) : Prop where
  monitored : c.options.monitored = true
  keys : ∀ k, k ∈ c.lru ↔ k ∈ c.entries
  nodup : c.lru.Nodup
  replay : c.events.foldl replayed [] = c.lru
  clean : Clean replayed (Lawful c.options.capacity) [] c.events

namespace Audited

variable {c : LocalCache} {key : String}

theorem make {o : CacheOptions} (h : o.monitored = true) : Audited (.make o) where
  monitored := h
  keys := by simp [LocalCache.make]
  nodup := List.nodup_nil
  replay := rfl
  clean := clean_nil

theorem length_keys (h : Audited c) : c.lru.length = c.entries.keys.length := by
  refine List.Perm.length_eq ((List.perm_ext_iff_of_nodup h.nodup c.entries.keys_nodup).2 ?_)
  exact h.keys

theorem record (h : Audited c) {action : String} {entries : AList fun _ : String => Entry}
    {lru : List String} (hlaw : Lawful c.options.capacity c.lru ⟨action, key, true⟩)
    (hlru : replayed c.lru ⟨action, key, true⟩ = lru) (hkeys : ∀ k, k ∈ lru ↔ k ∈ entries)
    (hnodup : lru.Nodup) :
    Audited ({ c with entries := entries, lru := lru }.emit action key) := by
  have hemit : ({ c with entries := entries, lru := lru } : LocalCache).emit action key =
      { c with entries := entries, lru := lru, events := c.events ++ [⟨action, key, true⟩] } :=
    if_pos h.monitored
  rw [hemit]
  refine ⟨h.monitored, hkeys, hnodup, ?_, clean_concat h.clean ?_⟩
  · rw [List.foldl_append, h.replay]
    exact hlru
  · rwa [h.replay]

theorem forget (h : Audited c) {action : String}
    (hlaw : Lawful c.options.capacity c.lru ⟨action, key, true⟩)
    (hforget : replayed c.lru ⟨action, key, true⟩ = Recency.forget key c.lru) :
    Audited ({ c with entries := c.entries.erase key, lru := Recency.forget key c.lru }.emit
      action key) := by
  refine h.record hlaw hforget (fun k => ?_) (List.filter_sublist.nodup h.nodup)
  rw [Recency.mem_forget, AList.mem_erase, h.keys, and_comm]

theorem touch (h : Audited c) {action : String} {entries : AList fun _ : String => Entry}
    (hlaw : Lawful c.options.capacity c.lru ⟨action, key, true⟩)
    (htouch : replayed c.lru ⟨action, key, true⟩ = Recency.touch key c.lru)
    (hkeys : ∀ k, k ∈ entries ↔ k = key ∨ k ∈ c.entries) :
    Audited ({ c with entries := entries, lru := Recency.touch key c.lru }.emit action key) := by
  refine h.record hlaw htouch (fun k => ?_) ?_
  · rw [Recency.mem_touch, h.keys, hkeys]
  · exact List.nodup_cons.2 ⟨by simp, List.filter_sublist.nodup h.nodup⟩

theorem get (h : Audited c) (now : Int64) (key : String) : Audited (c.get now key).2 := by
  unfold LocalCache.get
  cases hk : c.entries.lookup key with
  | none =>
    have hnot : key ∉ c.lru := fun hm => AList.lookup_eq_none.1 hk ((h.keys key).1 hm)
    refine h.record .miss ?_ h.keys h.nodup
    exact Recency.forget_of_notMem hnot
  | some e =>
    have hmem : key ∈ c.lru := (h.keys key).2 (AList.lookup_isSome.1 (by simp [hk]))
    simp only
    split_ifs with hx
    · exact h.forget .miss rfl
    · refine h.touch (.hit hmem) rfl fun k => ⟨.inr, ?_⟩
      rintro (rfl | hm)
      · exact (h.keys _).1 hmem
      · exact hm

theorem remove (h : Audited c) (key : String) : Audited (c.remove key).2 := by
  unfold LocalCache.remove
  cases hk : c.entries.lookup key with
  | none => exact h
  | some e =>
    have hmem : key ∈ c.lru := (h.keys key).2 (AList.lookup_isSome.1 (by simp [hk]))
    exact h.forget (.remove hmem) rfl

theorem clear (h : Audited c) : Audited c.clear :=
  h.record .clear rfl (by simp) List.nodup_nil

theorem evictLoop (h : Audited c) (hpos : 0 < c.options.capacity) (n : Nat)
    (hn : c.lru.length ≤ n) (victims : List String) :
    Audited (evictLoop n c victims).1 ∧ (evictLoop n c victims).1.lru.Sublist c.lru ∧
      (evictLoop n c victims).1.lru.length < c.options.capacity := by
  induction n generalizing c victims with
  | zero => exact ⟨h, .refl _, (Nat.le_zero.1 hn).trans_lt hpos⟩
  | succ n ih =>
    rw [LocalCache.evictLoop]
    rcases List.eq_nil_or_concat c.lru with hnil | ⟨lru, victim, hlru⟩
    · have hlast : c.lru.getLast? = none := by simp [hnil]
      simp only [hlast]
      exact ⟨h, .refl _, by simpa [hnil] using hpos⟩
    · rw [List.concat_eq_append] at hlru
      have hlast : c.lru.getLast? = some victim := by simp [hlru]
      have hlen := h.length_keys
      simp only [hlast]
      split_ifs with hfull
      · have hnd := h.nodup
        rw [hlru, List.nodup_append] at hnd
        have hnot : victim ∉ lru := fun hm => hnd.2.2 victim hm victim (by simp) rfl
        have hdrop : c.lru.dropLast = Recency.forget victim c.lru := by
          rw [hlru, List.dropLast_concat, Recency.forget, List.filter_append, ← Recency.forget,
            Recency.forget_of_notMem hnot]
          simp
        have hevict : Audited ({ c with
            lru := c.lru.dropLast, entries := c.entries.erase victim }.emit "cache.evict" victim) := by
          rw [hdrop]
          exact h.forget (.evict hpos (by omega) hlast) rfl
        have hshort : c.lru.dropLast.length ≤ n := by
          rw [List.length_dropLast]
          omega
        have hrest := ih hevict (by simpa using hpos) (by simpa using hshort)
          (victims ++ [victim])
        simp only [emit_lru, emit_options] at hrest
        exact ⟨hrest.1, hrest.2.1.trans (List.dropLast_sublist _), hrest.2.2⟩
      · have hroom : c.lru.length < c.options.capacity := by omega
        exact ⟨h, .refl _, hroom⟩

theorem evict (h : Audited c) : Audited c.evict.1 ∧ c.evict.1.lru.Sublist c.lru ∧
    (0 < c.options.capacity → c.evict.1.lru.length < c.options.capacity) := by
  unfold LocalCache.evict
  split_ifs with hfull
  · obtain ⟨hevict, hsub, hroom⟩ := h.evictLoop hfull.1 c.lru.length le_rfl []
    exact ⟨hevict, hsub, fun _ => hroom⟩
  · have hlen := h.length_keys
    have hroom : 0 < c.options.capacity → c.lru.length < c.options.capacity := fun hpos => by omega
    exact ⟨h, .refl _, hroom⟩

theorem put (h : Audited c) (now : Int64) (key value : String) (ttl : Int64) :
    Audited (c.put now key value ttl) := by
  unfold LocalCache.put
  cases hk : c.entries.lookup key with
  | some e =>
    have hmem : key ∈ c.lru := (h.keys key).2 (AList.lookup_isSome.1 (by simp [hk]))
    exact h.touch (.put fun _ => .inl hmem) rfl fun k => AList.mem_insert c.entries
  | none =>
    obtain ⟨hevict, hsub, hroom⟩ := h.evict
    have hnot : key ∉ c.evict.1.lru := fun hm =>
      AList.lookup_eq_none.1 hk ((h.keys key).1 (hsub.subset hm))
    have hfront : key :: c.evict.1.lru = Recency.touch key c.evict.1.lru := by
      rw [Recency.touch, Recency.forget_of_notMem hnot]
    simp only [hfront]
    refine hevict.touch (.put fun hpos => .inr ?_) rfl fun k => AList.mem_insert _
    rw [evict_options] at hpos ⊢
    exact hroom hpos

theorem call (h : Audited c) (now : Int64) (call : Call) : Audited (c.call now call).2 := by
  cases call with
  | get key => exact h.get now key
  | put key value ttl => exact h.put now key value ttl
  | remove key => exact h.remove key
  | clear => exact h.clear
  | size => exact h

theorem replies (h : Audited c) (calls : List (Int64 × Call)) : Audited (c.replies calls).2 := by
  induction calls generalizing c with
  | nil => exact h
  | cons call calls ih => exact ih (h.call call.1 call.2)

end Audited

-- Evictions happen at the store only, and it says nothing of a removal that finds no key.
def common (e : Event) : Bool := e.action ≠ "cache.evict" && e.action ≠ "cache.remove"

def exchanges (calls : List (Int64 × Call)) (replies : List Reply) : List (Call × Reply) :=
  (calls.map Prod.snd).zip replies

section Calls

variable {c : LocalCache}

theorem emit_events (h : c.options.monitored = true) (action key : String) :
    (c.emit action key).events = c.events ++ [⟨action, key, true⟩] := by
  rw [emit, if_pos h]

theorem evictLoop_events (h : c.options.monitored = true) (n : Nat) (victims : List String) :
    ∃ es, (evictLoop n c victims).1.events = c.events ++ es ∧ es.filter common = [] := by
  induction n generalizing c victims with
  | zero => exact ⟨[], by simp [evictLoop], rfl⟩
  | succ n ih =>
    rw [evictLoop]
    cases hlast : c.lru.getLast? with
    | none => exact ⟨[], by simp, rfl⟩
    | some victim =>
      simp only
      split_ifs
      · obtain ⟨es, hes, hnone⟩ := ih (c := { c with
            lru := c.lru.dropLast, entries := c.entries.erase victim }.emit "cache.evict" victim)
          (by simpa using h) (victims ++ [victim])
        refine ⟨⟨"cache.evict", victim, true⟩ :: es, ?_, by simpa [common] using hnone⟩
        rw [hes, emit_events (by simpa using h)]
        simp
      · exact ⟨[], by simp, rfl⟩

theorem evict_events (h : c.options.monitored = true) :
    ∃ es, c.evict.1.events = c.events ++ es ∧ es.filter common = [] := by
  unfold evict
  split_ifs
  · exact evictLoop_events h _ _
  · exact ⟨[], by simp, rfl⟩

theorem call_events (h : c.options.monitored = true) (now : Int64) (call : Call) :
    ∃ es, (c.call now call).2.events = c.events ++ es ∧
      es.filter common = (told (call, (c.call now call).1)).filter common := by
  cases call with
  | get key =>
    simp only [LocalCache.call, LocalCache.get]
    cases hk : c.entries.lookup key with
    | none => exact ⟨_, emit_events h _ _, rfl⟩
    | some e =>
      simp only
      split_ifs with hx
      · exact ⟨_, emit_events (by simpa using h) _ _, rfl⟩
      · exact ⟨_, emit_events (by simpa using h) _ _, rfl⟩
  | put key value ttl =>
    simp only [LocalCache.call, LocalCache.put]
    cases hk : c.entries.lookup key with
    | some e => exact ⟨_, emit_events (by simpa using h) _ _, rfl⟩
    | none =>
      obtain ⟨es, hes, hnone⟩ := evict_events h
      refine ⟨es ++ [⟨"cache.put", key, true⟩], ?_, by simp [hnone, told]⟩
      simp only
      rw [emit_events (by simpa using h)]
      simp [hes]
  | remove key =>
    simp only [LocalCache.call, LocalCache.remove]
    cases hk : c.entries.lookup key with
    | none => exact ⟨[], by simp, rfl⟩
    | some e => exact ⟨_, emit_events (by simpa using h) _ _, rfl⟩
  | clear => exact ⟨_, emit_events (by simpa using h) _ _, rfl⟩
  | size => exact ⟨[], by simp [LocalCache.call], rfl⟩

theorem replies_events (h : c.options.monitored = true) (calls : List (Int64 × Call)) :
    ∃ es, (c.replies calls).2.events = c.events ++ es ∧ es.filter common =
      ((exchanges calls (c.replies calls).1).flatMap told).filter common := by
  induction calls generalizing c with
  | nil => exact ⟨[], by simp [LocalCache.replies], rfl⟩
  | cons call calls ih =>
    obtain ⟨now, call⟩ := call
    obtain ⟨es, hes, hcommon⟩ := call_events h now call
    obtain ⟨es', hes', hcommon'⟩ := ih (c := (c.call now call).2) (by rw [call_options, h])
    refine ⟨es ++ es', ?_, ?_⟩
    · simp only [LocalCache.replies, hes', hes, List.append_assoc]
    · simp [LocalCache.replies, exchanges, hcommon, hcommon', List.filter_append]

end Calls

theorem filterMap_answered (es : List Event) :
    es.filterMap answered = (es.filter common).filterMap answered := by
  induction es with
  | nil => rfl
  | cons e es ih =>
    rw [List.filter_cons]
    split_ifs with hc
    · rw [List.filterMap_cons, List.filterMap_cons, ih]
    · have hnone : answered e = none := by
        have haction : e.action = "cache.evict" ∨ e.action = "cache.remove" := by
          simpa [common, imp_iff_not_or] using hc
        rcases haction with ha | ha <;> simp [answered, ha]
      rw [List.filterMap_cons, hnone, ih]

theorem filterMap_told (exchanges : List (Call × Reply)) :
    (exchanges.flatMap told).filterMap answered = exchanges.filterMap asked := by
  induction exchanges with
  | nil => rfl
  | cons x exchanges ih =>
    have hx : (told x).filterMap answered = (asked x).toList := by
      obtain ⟨call, reply⟩ := x
      cases call with
      | get key =>
        cases reply with
        | value v => cases v <;> rfl
        | _ => rfl
      | _ => rfl
    rw [List.flatMap_cons, List.filterMap_append, ih, hx]
    cases hasked : asked x with
    | none => simp [hasked]
    | some a => simp [hasked]

structure Logged (c : LocalCache) (exchanges : List (Call × Reply)) : Prop where
  clean : Clean replayed (Lawful c.options.capacity) [] c.events
  order : c.events.foldl replayed [] = c.lru
  stored : ∀ k, k ∈ c.events.foldl replayed [] ↔ k ∈ c.entries
  once : (c.events.foldl replayed []).Nodup
  answers : c.events.filterMap answered = exchanges.filterMap asked

theorem logged {c : LocalCache} (h : Audited c) {es : List (Call × Reply)}
    (hes : c.events.filter common = (es.flatMap told).filter common) : Logged c es := by
  refine ⟨h.clean, h.replay, fun k => ?_, ?_, ?_⟩
  · rw [h.replay, h.keys]
  · rw [h.replay]
    exact h.nodup
  · rw [filterMap_answered, hes, ← filterMap_answered, filterMap_told]

theorem cache_events_tell {o : CacheOptions} (h : o.monitored = true)
    (calls : List (Int64 × Call)) : Logged ((LocalCache.make o).replies calls).2
      (exchanges calls ((LocalCache.make o).replies calls).1) := by
  obtain ⟨es, hes, hcommon⟩ := replies_events (c := .make o) h calls
  refine logged ((Audited.make h).replies calls) ?_
  rw [hes]
  exact hcommon

def evictingCalls : List (Int64 × Call) :=
  [(0, .put "a" "1" 0), (1, .put "b" "2" 5), (2, .get "a"), (3, .put "c" "3" 0), (4, .get "b")]

theorem cache_events_tell_evicting :
    ((LocalCache.make ⟨2, 0, true⟩).replies evictingCalls).2.events.map (·.action) =
        ["cache.put", "cache.put", "cache.hit", "cache.evict", "cache.put", "cache.miss"] ∧
      Logged ((LocalCache.make ⟨2, 0, true⟩).replies evictingCalls).2
        (exchanges evictingCalls ((LocalCache.make ⟨2, 0, true⟩).replies evictingCalls).1) :=
  ⟨by decide, cache_events_tell rfl evictingCalls⟩

namespace RemoteCache

variable {r : RemoteCache} {registry : InProcRegistry LocalCache} {ptr : Nat} {name : String}

def session (registry : InProcRegistry LocalCache) (r : RemoteCache) (store : LocalCache) :
    List (Int64 × Call) → Except Exn (List Reply × RemoteCache) × LocalCache
  | [] => (.ok ([], r), store)
  | (now, call) :: rest =>
    match r.call registry now store call with
    | (.error e, store) => (.error e, store)
    | (.ok (reply, r), store) =>
      let (out, store) := r.session registry store rest
      (out.map fun p => (reply :: p.1, p.2), store)

def refused : Call → List Event
  | .get key => [⟨"cache.error", key, false⟩]
  | .put key _ _ => [⟨"cache.put", key, false⟩]
  | .remove key => [⟨"cache.remove", key, false⟩]
  | .clear => [⟨"cache.clear", "", false⟩]
  | .size => []

def refusal : Call → Reply
  | .get _ => .value none
  | .remove _ => .removed false
  | .size => .size 0
  | _ => .done

theorem logs_events (h : r.options.monitored = true) {es : List Event} :
    (r.logs es).events = r.events ++ es := by
  rw [logs, if_pos h]

theorem call_told (h : registry.find r.service = some (CacheRpcService.make ptr name))
    (hm : r.options.monitored = true) (store : LocalCache) (now : Int64) (call : Call) :
    ∃ r', r.call registry now store call =
        (.ok ((store.call now (r.forwarded call)).1, r'),
          (store.call now (r.forwarded call)).2) ∧
      r'.service = r.service ∧ r'.options = r.options ∧
      r'.events = r.events ++ told (call, (store.call now (r.forwarded call)).1) := by
  exact ⟨_, call_forwarded h store now call, logs_service, logs_options, logs_events hm⟩

theorem call_refused (h : registry.find r.service = none) (hm : r.options.monitored = true)
    (store : LocalCache) (now : Int64) (call : Call) :
    ∃ r', r.call registry now store call = (.ok (refusal call, r'), store) ∧
      r'.service = r.service ∧ r'.options = r.options ∧
      r'.events = r.events ++ refused call := by
  have hemit : ∀ action key ok, (r.emit action key ok).service = r.service ∧
      (r.emit action key ok).options = r.options ∧
      (r.emit action key ok).events = r.events ++ [⟨action, key, ok⟩] := by
    intro action key ok
    exact ⟨logs_service, logs_options, logs_events hm⟩
  cases call with
  | get key =>
    refine ⟨r.emit "cache.error" key false, ?_, hemit _ _ _⟩
    simp only [RemoteCache.call, RemoteCache.get, request, InProcChannel.call, h]
    rfl
  | put key value ttl =>
    refine ⟨r.emit "cache.put" key false, ?_, hemit _ _ _⟩
    simp only [RemoteCache.call, RemoteCache.put, request, InProcChannel.call, h]
    rfl
  | remove key =>
    refine ⟨r.emit "cache.remove" key false, ?_, hemit _ _ _⟩
    simp only [RemoteCache.call, RemoteCache.remove, request, InProcChannel.call, h]
    rfl
  | clear =>
    refine ⟨r.emit "cache.clear" "" false, ?_, hemit _ _ _⟩
    simp only [RemoteCache.call, RemoteCache.clear, request, InProcChannel.call, h]
    rfl
  | size =>
    refine ⟨r, ?_, rfl, rfl, by simp [refused]⟩
    simp only [RemoteCache.call, RemoteCache.size, request, InProcChannel.call, h]
    rfl

structure Shared (r : RemoteCache) (store : LocalCache) (calls : List (Int64 × Call))
    (replies : List Reply) (r' : RemoteCache) (store' : LocalCache) : Prop where
  client : r'.events = r.events ++ (exchanges calls replies).flatMap told
  server : ∃ es, store'.events = store.events ++ es ∧
    es.filter common = ((exchanges calls replies).flatMap told).filter common
  audited : Audited store'

theorem told_forwarded (r : RemoteCache) (call : Call) (reply : Reply) :
    told (r.forwarded call, reply) = told (call, reply) := by
  cases call <;> rfl

theorem session_told (h : registry.find r.service = some (CacheRpcService.make ptr name))
    (hm : r.options.monitored = true) {store : LocalCache} (hs : Audited store)
    (calls : List (Int64 × Call)) : ∃ replies r' store',
      r.session registry store calls = (.ok (replies, r'), store') ∧
        Shared r store calls replies r' store' := by
  induction calls generalizing r store with
  | nil => exact ⟨[], r, store, rfl, by simp [exchanges], ⟨[], by simp, rfl⟩, hs⟩
  | cons call calls ih =>
    obtain ⟨now, call⟩ := call
    obtain ⟨r₁, hcall, hservice, hoptions, hclient⟩ := call_told h hm store now call
    obtain ⟨es, hes, hcommon⟩ := call_events hs.monitored now (r.forwarded call)
    have hs₁ : Audited (store.call now (r.forwarded call)).2 := hs.call now _
    obtain ⟨replies, r', store', hrun, hshared⟩ :=
      ih (r := r₁) (by rw [hservice, h]) (by rw [hoptions, hm]) hs₁
    obtain ⟨es', hes', hcommon'⟩ := hshared.server
    refine ⟨(store.call now (r.forwarded call)).1 :: replies, r', store', ?_, ?_, ?_,
      hshared.audited⟩
    · simp only [session, hcall, hrun, Except.map]
    · rw [hshared.client, hclient, List.append_assoc]
      rfl
    · refine ⟨es ++ es', by rw [hes', hes, List.append_assoc], ?_⟩
      rw [List.filter_append, hcommon, hcommon', told_forwarded]
      simp [exchanges, List.filter_append]

theorem session_refused (h : registry.find r.service = none) (hm : r.options.monitored = true)
    (store : LocalCache) (calls : List (Int64 × Call)) : ∃ r',
      r.session registry store calls = (.ok (calls.map fun c => refusal c.2, r'), store) ∧
        r'.events = r.events ++ calls.flatMap fun c => refused c.2 := by
  induction calls generalizing r with
  | nil => exact ⟨r, rfl, by simp⟩
  | cons call calls ih =>
    obtain ⟨now, call⟩ := call
    obtain ⟨r₁, hcall, hservice, hoptions, hclient⟩ := call_refused h hm store now call
    obtain ⟨r', hrun, hevents⟩ := ih (r := r₁) (by rw [hservice, h]) (by rw [hoptions, hm])
    refine ⟨r', ?_, by rw [hevents, hclient]; simp⟩
    simp only [session, hcall, hrun, Except.map, List.map_cons]

theorem client_events_tell {client server : CacheOptions} (hclient : client.monitored = true)
    (hserver : server.monitored = true) (endpoint : RpcEndpoint) (service : String)
    (registry : InProcRegistry LocalCache) (calls : List (Int64 × Call)) :
    (∀ ptr name, registry.find service = some (CacheRpcService.make ptr name) →
      ∃ replies r' store', (make client endpoint service).session registry (.make server) calls =
          (.ok (replies, r'), store') ∧
        r'.events = (exchanges calls replies).flatMap told ∧
        r'.events.filter common = store'.events.filter common ∧
        Logged store' (exchanges calls replies)) ∧
    (registry.find service = none → ∃ r',
      (make client endpoint service).session registry (.make server) calls =
          (.ok (calls.map fun c => refusal c.2, r'), .make server) ∧
        r'.events = calls.flatMap fun c => refused c.2) := by
  constructor
  · intro ptr name hfind
    obtain ⟨replies, r', store', hrun, hshared⟩ :=
      session_told (r := make client endpoint service) hfind hclient (Audited.make hserver) calls
    obtain ⟨es, hes, hcommon⟩ := hshared.server
    have hevents : r'.events = (exchanges calls replies).flatMap told := hshared.client
    have hsame : store'.events.filter common =
        ((exchanges calls replies).flatMap told).filter common := by
      rw [hes]
      exact hcommon
    exact ⟨replies, r', store', hrun, hevents, by rw [hevents, hsame],
      logged hshared.audited hsame⟩
  · intro hnone
    obtain ⟨r', hrun, hevents⟩ :=
      session_refused (r := make client endpoint service) hnone hclient (.make server) calls
    exact ⟨r', hrun, hevents⟩

theorem client_events_tell_evicting : ∃ replies r' store',
    (make ⟨7, 1, true⟩ ⟨"inproc", "cache"⟩ "cache").session cacheRegistry
        (.make ⟨2, 0, true⟩) evictingCalls = (.ok (replies, r'), store') ∧
      r'.events = (exchanges evictingCalls replies).flatMap told ∧
      r'.events.filter common = store'.events.filter common ∧
      Logged store' (exchanges evictingCalls replies) :=
  (client_events_tell rfl rfl ⟨"inproc", "cache"⟩ "cache" cacheRegistry evictingCalls).1 0 "cache"
    find_cacheRegistry

end RemoteCache

end Lark.Cache
