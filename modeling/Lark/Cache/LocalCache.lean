import Lark.Base.Recency
import Mathlib.Data.List.AList
import Mathlib.Tactic

namespace Lark.Cache

open Lark.Base

structure CacheOptions where
  capacity : Nat
  defaultTtl : Int64
  monitored : Bool

structure Entry where
  value : String
  hasTtl : Bool
  expiresAt : Int64
  deriving DecidableEq

structure Event where
  action : String
  key : String
  ok : Bool
  deriving DecidableEq

-- Clock readings and deadlines are 64-bit nanoseconds, time to live is 64-bit milliseconds.
structure LocalCache where
  options : CacheOptions
  entries : AList fun _ : String => Entry
  lru : List String
  events : List Event

namespace LocalCache

def make (options : CacheOptions) : LocalCache := ⟨options, ∅, [], []⟩

def emit (c : LocalCache) (action key : String) : LocalCache :=
  if c.options.monitored then { c with events := c.events ++ [⟨action, key, true⟩] } else c

@[simp] theorem emit_options {c : LocalCache} {action key : String} :
    (c.emit action key).options = c.options := by
  unfold emit
  split_ifs <;> rfl

@[simp] theorem emit_entries {c : LocalCache} {action key : String} :
    (c.emit action key).entries = c.entries := by
  unfold emit
  split_ifs <;> rfl

@[simp] theorem emit_lru {c : LocalCache} {action key : String} :
    (c.emit action key).lru = c.lru := by
  unfold emit
  split_ifs <;> rfl

def isExpired (e : Entry) (now : Int64) : Bool := e.hasTtl && decide (e.expiresAt ≤ now)

def get (c : LocalCache) (now : Int64) (key : String) : Option String × LocalCache :=
  match c.entries.lookup key with
  | none => (none, c.emit "cache.miss" key)
  | some e =>
    if isExpired e now then
      (none, { c with lru := Recency.forget key c.lru, entries := c.entries.erase key }.emit
        "cache.miss" key)
    else (some e.value, { c with lru := Recency.touch key c.lru }.emit "cache.hit" key)

def timeToLive (o : CacheOptions) (ttl : Int64) : Int64 := if 0 < ttl then ttl else o.defaultTtl

def entryFor (o : CacheOptions) (now : Int64) (value : String) (ttl : Int64) : Entry where
  value := value
  hasTtl := 0 < timeToLive o ttl
  expiresAt := now + timeToLive o ttl * 1000000

def evictLoop : Nat → LocalCache → List String → LocalCache × List String
  | 0, c, victims => (c, victims)
  | n + 1, c, victims =>
    match c.lru.getLast? with
    | none => (c, victims)
    | some victim =>
      if c.options.capacity ≤ c.entries.keys.length then
        evictLoop n ({ c with lru := c.lru.dropLast, entries := c.entries.erase victim }.emit
          "cache.evict" victim) (victims ++ [victim])
      else (c, victims)

def evict (c : LocalCache) : LocalCache × List String :=
  if 0 < c.options.capacity ∧ c.options.capacity ≤ c.entries.keys.length then
    evictLoop c.lru.length c []
  else (c, [])

def put (c : LocalCache) (now : Int64) (key value : String) (ttl : Int64) : LocalCache :=
  match c.entries.lookup key with
  | some _ =>
    { c with
      entries := c.entries.insert key (entryFor c.options now value ttl)
      lru := Recency.touch key c.lru }.emit "cache.put" key
  | none =>
    let c := c.evict.1
    { c with
      entries := c.entries.insert key (entryFor c.options now value ttl)
      lru := key :: c.lru }.emit "cache.put" key

def remove (c : LocalCache) (key : String) : Bool × LocalCache :=
  match c.entries.lookup key with
  | none => (false, c)
  | some _ =>
    (true, { c with entries := c.entries.erase key, lru := Recency.forget key c.lru }.emit
      "cache.remove" key)

def clear (c : LocalCache) : LocalCache := { c with entries := ∅, lru := [] }.emit "cache.clear" ""

def size (c : LocalCache) : UInt64 := UInt64.ofNat c.entries.keys.length

end LocalCache

inductive Call where
  | get (key : String)
  | put (key value : String) (ttl : Int64)
  | remove (key : String)
  | clear
  | size

inductive Reply where
  | value (v : Option String)
  | removed (found : Bool)
  | size (n : UInt64)
  | done
  deriving DecidableEq

def LocalCache.call (c : LocalCache) (now : Int64) : Call → Reply × LocalCache
  | .get key => let (v, c) := c.get now key; (.value v, c)
  | .put key value ttl => (.done, c.put now key value ttl)
  | .remove key => let (found, c) := c.remove key; (.removed found, c)
  | .clear => (.done, c.clear)
  | .size => (.size c.size, c)

namespace LocalCache

theorem evictLoop_options (n : Nat) (c : LocalCache) (victims : List String) :
    (evictLoop n c victims).1.options = c.options := by
  induction n generalizing c victims with
  | zero => rfl
  | succ n ih =>
    unfold evictLoop
    split
    · rfl
    · split_ifs
      · rw [ih, emit_options]
      · rfl

@[simp] theorem evict_options (c : LocalCache) : c.evict.1.options = c.options := by
  unfold evict
  split_ifs
  · exact evictLoop_options _ _ _
  · rfl

theorem call_options (c : LocalCache) (now : Int64) (call : Call) :
    (c.call now call).2.options = c.options := by
  cases call with
  | get key =>
    simp only [LocalCache.call, LocalCache.get]
    split
    · exact emit_options
    · split_ifs <;> exact emit_options
  | put key value ttl =>
    simp only [LocalCache.call, put]
    split
    · exact emit_options
    · exact emit_options.trans (evict_options c)
  | remove key =>
    simp only [LocalCache.call, remove]
    split
    · rfl
    · exact emit_options
  | clear => exact emit_options
  | size => rfl

end LocalCache

-- What an LRU map with expiry is told about: the history of a run, without its cache.
inductive Happened where
  | put (key value : String) (now ttl : Int64)
  | hit (key : String)
  | expired (key : String)
  | removed (key : String)
  | evicted (key : String)
  | cleared

namespace Happened

def used? : Happened → Option String
  | put key _ _ _ => some key
  | hit key => some key
  | _ => none

end Happened

structure Stored where
  value : String
  now : Int64
  ttl : Int64
  deriving DecidableEq

def lastPut (key : String) : List Happened → Option Stored
  | [] => none
  | .put k value now ttl :: past => if k = key then some ⟨value, now, ttl⟩ else lastPut key past
  | .removed k :: past => if k = key then none else lastPut key past
  | .evicted k :: past => if k = key then none else lastPut key past
  | .expired k :: past => if k = key then none else lastPut key past
  | .cleared :: _ => none
  | .hit _ :: past => lastPut key past

def uses (past : List Happened) : List String := past.filterMap Happened.used?

def Stored.Expired (o : CacheOptions) (p : Stored) (now : Int64) : Prop :=
  0 < (LocalCache.timeToLive o p.ttl).toInt ∧
    p.now.toInt + (LocalCache.timeToLive o p.ttl).toInt * 1000000 ≤ now.toInt

instance (o : CacheOptions) (p : Stored) (now : Int64) : Decidable (p.Expired o now) :=
  inferInstanceAs (Decidable (_ ∧ _))

def storedKeys (past : List Happened) : List String :=
  (uses past).dedup.filter fun k => (lastPut k past).isSome

def oldest (past : List Happened) : Option String :=
  (storedKeys past).argmin fun k => Recency.lastUse k (uses past)

def Full (o : CacheOptions) (past : List Happened) : Prop :=
  0 < o.capacity ∧ o.capacity ≤ (storedKeys past).length

instance (o : CacheOptions) (past : List Happened) : Decidable (Full o past) :=
  inferInstanceAs (Decidable (_ ∧ _))

def happens (o : CacheOptions) (past : List Happened) (now : Int64) : Call → List Happened
  | .get key =>
    match lastPut key past with
    | none => []
    | some p => if p.Expired o now then [.expired key] else [.hit key]
  | .put key value ttl =>
    .put key value now ttl ::
      if lastPut key past = none ∧ Full o past then (oldest past).toList.map .evicted else []
  | .remove key => [.removed key]
  | .clear => [.cleared]
  | .size => []

def history (o : CacheOptions) (calls : List (Int64 × Call)) : List Happened :=
  calls.foldl (fun past c => happens o past c.1 c.2 ++ past) []

def runCalls (o : CacheOptions) (calls : List (Int64 × Call)) : LocalCache :=
  calls.foldl (fun s c => (s.call c.1 c.2).2) (.make o)

end Lark.Cache
