import Lark.Base.Strings
import Lark.Cache.LocalCache
import Lark.Rpc.InProc

namespace Lark.Cache

open Lark.Base Lark.Rpc

def toHeaderBool (v : Bool) : String := if v then "1" else "0"

namespace CacheRpcService

def ttlHeader : Option String → Except Exn Int
  | none => .ok 0
  | some text => stoll text

def dispatch (now : Int64) (method : String) (request response : RpcMessage)
    (store : LocalCache) : Except Exn (RpcStatus × RpcMessage) × LocalCache :=
  let key := request.headers "key"
  if method = "get" then
    match key with
    | none => (.ok (.invalidArgument "get: missing header 'key'", response), store)
    | some key =>
      let (v, store) := store.get now key
      let response := response.setHeader "found" (toHeaderBool v.isSome)
      (.ok (.success, match v with
        | some v => { response with payload := v }
        | none => response), store)
  else if method = "put" then
    match key with
    | none => (.ok (.invalidArgument "put: missing header 'key'", response), store)
    | some key =>
      match ttlHeader (request.headers "ttl_ms") with
      | .error e => (.error e, store)
      | .ok ttl => (.ok (.success, response), store.put now key request.payload (.ofInt ttl))
  else if method = "remove" then
    match key with
    | none => (.ok (.invalidArgument "remove: missing header 'key'", response), store)
    | some key =>
      let (found, store) := store.remove key
      (.ok (.success, response.setHeader "found" (toHeaderBool found)), store)
  else if method = "clear" then (.ok (.success, response), store.clear)
  else if method = "size" then
    (.ok (.success, { response with payload := intToString store.size.toNat }), store)
  else (.ok (.notFound ("cache has no method '" ++ method ++ "'"), response), store)

def make (ptr : Nat) (name : String) : RpcService LocalCache := ⟨ptr, name, dispatch⟩

end CacheRpcService

structure RemoteCache where
  options : CacheOptions
  endpoint : RpcEndpoint
  service : String
  events : List Event

namespace RemoteCache

def make (options : CacheOptions) (endpoint : RpcEndpoint) (service : String) : RemoteCache :=
  ⟨options, endpoint, service, []⟩

def emit (r : RemoteCache) (action key : String) (ok : Bool) : RemoteCache :=
  if r.options.monitored then { r with events := r.events ++ [⟨action, key, ok⟩] } else r

def resolveTtl (r : RemoteCache) (ttl : Int64) : Int64 :=
  if 0 < ttl then ttl else r.options.defaultTtl

-- A call through the channel, and what the client makes of the status and the response.
def request {α : Type} (r : RemoteCache) (registry : InProcRegistry LocalCache) (now : Int64)
    (method : String) (message : RpcMessage) (store : LocalCache)
    (answer : RpcStatus → RpcMessage → α) : Except Exn α × LocalCache :=
  match InProcChannel.call registry r.endpoint now r.service method message .empty store with
  | (.error e, store) => (.error e, store)
  | (.ok (status, response), store) => (.ok (answer status response), store)

variable (r : RemoteCache) (registry : InProcRegistry LocalCache) (now : Int64)

def get (key : String) (store : LocalCache) :
    Except Exn (Option String × RemoteCache) × LocalCache :=
  r.request registry now "get" (RpcMessage.empty.setHeader "key" key) store fun status res =>
    if status.isOk then
      if (res.headers "found").getD "" = "1" then (some res.payload, r.emit "cache.hit" key true)
      else (none, r.emit "cache.miss" key true)
    else (none, r.emit "cache.error" key false)

def put (key value : String) (ttl : Int64) (store : LocalCache) :
    Except Exn RemoteCache × LocalCache :=
  let message := { (RpcMessage.empty.setHeader "key" key).setHeader "ttl_ms"
    (intToString (r.resolveTtl ttl).toInt) with payload := value }
  r.request registry now "put" message store fun status _ => r.emit "cache.put" key status.isOk

def remove (key : String) (store : LocalCache) : Except Exn (Bool × RemoteCache) × LocalCache :=
  r.request registry now "remove" (RpcMessage.empty.setHeader "key" key) store fun status res =>
    (status.isOk && (res.headers "found").getD "" = "1", r.emit "cache.remove" key status.isOk)

def clear (store : LocalCache) : Except Exn RemoteCache × LocalCache :=
  r.request registry now "clear" .empty store fun status _ => r.emit "cache.clear" "" status.isOk

def size (store : LocalCache) : Except Exn UInt64 × LocalCache :=
  r.request registry now "size" .empty store fun status res =>
    if status.isOk then
      match stoull res.payload with
      | .ok n => UInt64.ofNat n
      | .error _ => 0
    else 0

def call (store : LocalCache) : Call → Except Exn (Reply × RemoteCache) × LocalCache
  | .get key =>
    let (out, store) := r.get registry now key store
    (out.map fun (v, r) => (.value v, r), store)
  | .put key value ttl =>
    let (out, store) := r.put registry now key value ttl store
    (out.map fun r => (.done, r), store)
  | .remove key =>
    let (out, store) := r.remove registry now key store
    (out.map fun (found, r) => (.removed found, r), store)
  | .clear =>
    let (out, store) := r.clear registry now store
    (out.map fun r => (.done, r), store)
  | .size =>
    let (out, store) := r.size registry now store
    (out.map fun n => (.size n, r), store)

end RemoteCache

def LocalCache.replies (c : LocalCache) : List (Int64 × Call) → List Reply × LocalCache
  | [] => ([], c)
  | (now, call) :: rest =>
    let (reply, c) := c.call now call
    let (replies, c) := c.replies rest
    (reply :: replies, c)

def RemoteCache.replies (registry : InProcRegistry LocalCache) (r : RemoteCache)
    (store : LocalCache) : List (Int64 × Call) → Except Exn (List Reply) × LocalCache
  | [] => (.ok [], store)
  | (now, call) :: rest =>
    match r.call registry now store call with
    | (.error e, store) => (.error e, store)
    | (.ok (reply, r), store) =>
      let (out, store) := r.replies registry store rest
      (out.map (reply :: ·), store)

theorem LocalCache.put_timeToLive (c : LocalCache) (now : Int64) (key value : String)
    (ttl : Int64) : c.put now key value (timeToLive c.options ttl) = c.put now key value ttl := by
  have htwice : timeToLive c.options (timeToLive c.options ttl) = timeToLive c.options ttl := by
    unfold timeToLive
    split_ifs <;> rfl
  have hentry : entryFor c.options now value (timeToLive c.options ttl) =
      entryFor c.options now value ttl := by
    simp only [entryFor, htwice]
  unfold put
  split
  · rw [hentry]
  · simp only [evict_options, hentry]

def told : Call × Reply → List Event
  | (.get key, .value v) => [⟨if v.isSome then "cache.hit" else "cache.miss", key, true⟩]
  | (.put key _ _, _) => [⟨"cache.put", key, true⟩]
  | (.remove key, _) => [⟨"cache.remove", key, true⟩]
  | (.clear, _) => [⟨"cache.clear", "", true⟩]
  | _ => []

namespace RemoteCache

def forwarded (r : RemoteCache) : Call → Call
  | .put key value ttl => .put key value (r.resolveTtl ttl)
  | call => call

def logs (r : RemoteCache) (es : List Event) : RemoteCache :=
  if r.options.monitored then { r with events := r.events ++ es } else r

variable {r : RemoteCache} {registry : InProcRegistry LocalCache} {ptr : Nat} {name : String}

theorem request_eq {α : Type} (h : registry.find r.service = some (CacheRpcService.make ptr name))
    (now : Int64) (method : String) (message : RpcMessage) (store : LocalCache)
    (answer : RpcStatus → RpcMessage → α) {status : RpcStatus} {response : RpcMessage}
    {store' : LocalCache}
    (hd : CacheRpcService.dispatch now method message .empty store =
      (.ok (status, response), store')) :
    r.request registry now method message store answer = (.ok (answer status response), store') := by
  simp only [request, InProcChannel.call, h, CacheRpcService.make, hd]

theorem logs_service {es : List Event} : (r.logs es).service = r.service := by
  unfold logs
  split_ifs <;> rfl

theorem logs_options {es : List Event} : (r.logs es).options = r.options := by
  unfold logs
  split_ifs <;> rfl

theorem logs_nil : r.logs [] = r := by
  unfold logs
  split_ifs
  · rw [List.append_nil]
  · rfl

theorem emit_eq {action key : String} {ok : Bool} : r.emit action key ok = r.logs [⟨action, key, ok⟩] :=
  rfl

theorem put_eq (h : registry.find r.service = some (CacheRpcService.make ptr name)) (now : Int64)
    (key value : String) (ttl : Int64) (store : LocalCache) :
    r.put registry now key value ttl store =
      (.ok (r.emit "cache.put" key true), store.put now key value (r.resolveTtl ttl)) := by
  have hround := stoll_intToString ⟨Int64.le_toInt (r.resolveTtl ttl),
    Int64.toInt_lt (r.resolveTtl ttl)⟩
  have hd : CacheRpcService.dispatch now "put" { (RpcMessage.empty.setHeader "key" key).setHeader
      "ttl_ms" (intToString (r.resolveTtl ttl).toInt) with payload := value } .empty store =
      (.ok (.success, .empty), store.put now key value (r.resolveTtl ttl)) := by
    simp [CacheRpcService.dispatch, RpcMessage.setHeader, CacheRpcService.ttlHeader, hround]
  simp only [RemoteCache.put, request_eq h now _ _ _ _ hd]
  simp [RpcStatus.isOk, RpcStatus.success]

theorem call_forwarded (h : registry.find r.service = some (CacheRpcService.make ptr name))
    (store : LocalCache) (now : Int64) (call : Call) :
    r.call registry now store call =
      (.ok ((store.call now (r.forwarded call)).1,
        r.logs (told (call, (store.call now (r.forwarded call)).1))),
        (store.call now (r.forwarded call)).2) := by
  cases call with
  | get key =>
    cases hg : store.get now key with
    | mk v store' =>
      have hd : CacheRpcService.dispatch now "get" (RpcMessage.empty.setHeader "key" key) .empty
          store = (.ok (.success, match v with
            | some v => { RpcMessage.empty.setHeader "found" "1" with payload := v }
            | none => RpcMessage.empty.setHeader "found" "0"), store') := by
        cases v <;> simp [CacheRpcService.dispatch, RpcMessage.setHeader, hg, toHeaderBool]
      simp only [RemoteCache.call, RemoteCache.get, request_eq h now _ _ _ _ hd]
      cases v <;>
        simp [forwarded, LocalCache.call, hg, told, emit_eq, RpcStatus.isOk, RpcStatus.success,
          RpcMessage.setHeader, Except.map]
  | put key value ttl =>
    simp only [RemoteCache.call, put_eq h, forwarded, LocalCache.call, told, emit_eq, Except.map]
  | remove key =>
    cases hg : store.remove key with
    | mk found store' =>
      have hd : CacheRpcService.dispatch now "remove" (RpcMessage.empty.setHeader "key" key) .empty
          store = (.ok (.success, RpcMessage.empty.setHeader "found" (toHeaderBool found)),
            store') := by
        simp [CacheRpcService.dispatch, RpcMessage.setHeader, hg]
      simp only [RemoteCache.call, RemoteCache.remove, request_eq h now _ _ _ _ hd]
      cases found <;>
        simp [forwarded, LocalCache.call, hg, told, emit_eq, RpcStatus.isOk, RpcStatus.success,
          RpcMessage.setHeader, Except.map, toHeaderBool]
  | clear =>
    have hd : CacheRpcService.dispatch now "clear" .empty .empty store =
        (.ok (.success, .empty), store.clear) := by
      simp [CacheRpcService.dispatch]
    simp only [RemoteCache.call, RemoteCache.clear, request_eq h now _ _ _ _ hd]
    simp [forwarded, LocalCache.call, told, emit_eq, RpcStatus.isOk, RpcStatus.success, Except.map]
  | size =>
    have hround := stoull_intToString store.size.toNat_lt
    have hd : CacheRpcService.dispatch now "size" .empty .empty store =
        (.ok (.success, { RpcMessage.empty with payload := intToString store.size.toNat }),
          store) := by
      simp [CacheRpcService.dispatch]
    simp only [RemoteCache.call, RemoteCache.size, request_eq h now _ _ _ _ hd]
    simp [forwarded, LocalCache.call, told, logs_nil, hround, RpcStatus.isOk, RpcStatus.success,
      Except.map]

theorem call_forwarded_eq {store : LocalCache} (ho : r.options = store.options) (now : Int64)
    (call : Call) : store.call now (r.forwarded call) = store.call now call := by
  cases call with
  | put key value ttl =>
    have httl : r.resolveTtl ttl = LocalCache.timeToLive store.options ttl := by
      simp only [resolveTtl, LocalCache.timeToLive, ho]
    simp only [forwarded, LocalCache.call, httl, LocalCache.put_timeToLive]
  | _ => rfl

theorem call_eq (h : registry.find r.service = some (CacheRpcService.make ptr name))
    {store : LocalCache} (ho : r.options = store.options) (now : Int64) (call : Call) :
    ∃ r', r.call registry now store call =
        (.ok ((store.call now call).1, r'), (store.call now call).2) ∧
      r'.service = r.service ∧ r'.options = r.options := by
  refine ⟨r.logs (told (call, (store.call now call).1)), ?_, logs_service, logs_options⟩
  rw [call_forwarded h, call_forwarded_eq ho]

end RemoteCache

theorem remoteCache_refines_localCache {registry : InProcRegistry LocalCache} {r : RemoteCache}
    {ptr : Nat} {name : String}
    (h : registry.find r.service = some (CacheRpcService.make ptr name)) {store : LocalCache}
    (ho : r.options = store.options) (calls : List (Int64 × Call)) :
    r.replies registry store calls = (.ok (store.replies calls).1, (store.replies calls).2) := by
  induction calls generalizing r store with
  | nil => rfl
  | cons c calls ih =>
    obtain ⟨now, call⟩ := c
    obtain ⟨r', hcall, hservice, hoptions⟩ := RemoteCache.call_eq h ho now call
    have hih : r'.replies registry (store.call now call).2 calls = _ :=
      ih (by rw [hservice, h]) (by rw [hoptions, ho, LocalCache.call_options])
    simp only [RemoteCache.replies, hcall, hih, LocalCache.replies, Except.map]

def cacheRegistry : InProcRegistry LocalCache :=
  Function.update (fun _ => none) "cache" (some (CacheRpcService.make 0 "cache"))

theorem find_cacheRegistry : cacheRegistry.find "cache" = some (CacheRpcService.make 0 "cache") := by
  simp [cacheRegistry, InProcRegistry.find]

theorem remoteCache_refines_localCache_expiring :
    (RemoteCache.make ⟨2, 5, true⟩ ⟨"inproc", "cache"⟩ "cache").replies cacheRegistry
        (.make ⟨2, 5, true⟩) [(0, .put "k" "" (-1)), (4999999, .get "k"), (5000000, .get "k"),
          (5000000, .size)] =
      (.ok [.done, .value (some ""), .value none, .size 0],
        ((LocalCache.make ⟨2, 5, true⟩).replies [(0, .put "k" "" (-1)), (4999999, .get "k"),
          (5000000, .get "k"), (5000000, .size)]).2) := by
  rw [remoteCache_refines_localCache find_cacheRegistry rfl]
  rfl

end Lark.Cache
