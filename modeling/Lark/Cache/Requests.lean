import Lark.Cache.RemoteCache

namespace Lark.Cache

open Lark.Base Lark.Rpc

variable {registry : InProcRegistry LocalCache} {endpoint : RpcEndpoint} {service method : String}
  {now : Int64} {request response : RpcMessage} {store : LocalCache} {ptr : Nat} {name : String}

structure DecimalInt (text : String) (negative : Bool) (digits : List Char) : Prop where
  chars : ∃ sign, (sign = [] ∧ negative = false ∨ sign = ['+'] ∧ negative = false ∨
    sign = ['-'] ∧ negative = true) ∧ text.toList = sign ++ digits
  nonempty : digits ≠ []
  digits : ∀ c ∈ digits, c.isDigit = true

def signedValue (negative : Bool) (digits : List Char) : Int :=
  if negative then -(Nat.ofDigitChars 10 digits 0 : Int) else Nat.ofDigitChars 10 digits 0

def ValidTtl (text : String) : Prop :=
  ∃ negative digits, DecimalInt text negative digits ∧ -2 ^ 63 ≤ signedValue negative digits ∧
    signedValue negative digits < 2 ^ 63

-- The requests to be answered with OK.
def WellFormed (method : String) (request : RpcMessage) : Prop :=
  (method = "get" ∨ method = "remove") ∧ (request.headers "key").isSome = true ∨
  (method = "put" ∧ (request.headers "key").isSome = true ∧
    ∀ text, request.headers "ttl_ms" = some text → ValidTtl text) ∨
  method = "clear" ∨ method = "size"

def Answered (out : Except Exn (RpcStatus × RpcMessage) × LocalCache) (method : String)
    (request : RpcMessage) (store : LocalCache) : Prop :=
  ∃ status response, out.1 = .ok (status, response) ∧
    (status.isOk = true ↔ WellFormed method request) ∧
      (status.isOk = false → out.2.entries = store.entries ∧ out.2.lru = store.lru)

def TtlReadable (method : String) (request : RpcMessage) : Prop :=
  method = "put" → (request.headers "key").isSome = true →
    ∀ text, request.headers "ttl_ms" = some text → ValidTtl text

theorem takeSign_decimal {text : String} {negative : Bool} {digits : List Char}
    (h : DecimalInt text negative digits) :
    takeSign (text.toList.dropWhile isSpace) = (negative, digits) := by
  obtain ⟨sign, hsign, htext⟩ := h.chars
  obtain ⟨d, ds, rfl⟩ := List.exists_cons_of_ne_nil h.nonempty
  rw [htext]
  rcases hsign with ⟨rfl, rfl⟩ | ⟨rfl, rfl⟩ | ⟨rfl, rfl⟩
  · have hrun : IsRun (d :: ds) := ⟨h.nonempty, fun c hc => .inl (h.digits c hc)⟩
    exact hrun.takeSign_signed false
  · rfl
  · rfl

theorem stoll_valid {text : String} {negative : Bool} {digits : List Char}
    (h : DecimalInt text negative digits) (hlow : -2 ^ 63 ≤ signedValue negative digits)
    (hhigh : signedValue negative digits < 2 ^ 63) :
    stoll text = .ok (signedValue negative digits) := by
  have htake : digits.takeWhile Char.isDigit = digits := List.takeWhile_eq_self_iff.2 h.digits
  simp only [stoll, takeSign_decimal h, htake, h.nonempty, if_false]
  exact if_pos ⟨hlow, hhigh⟩

section Methods

open CacheRpcService

theorem answered_success {out : Except Exn (RpcStatus × RpcMessage) × LocalCache}
    (hout : ∃ response, out.1 = .ok (.success, response)) (hwf : WellFormed method request) :
    Answered out method request store := by
  obtain ⟨response, hout⟩ := hout
  refine ⟨_, response, hout, iff_of_true rfl hwf, ?_⟩
  rintro ⟨⟩

theorem answered_refusal {status : RpcStatus} (hstatus : status.isOk = false)
    (hwf : ¬ WellFormed method request) :
    Answered (.ok (status, response), store) method request store :=
  ⟨_, _, rfl, by simp [hstatus, hwf], fun _ => ⟨rfl, rfl⟩⟩

theorem answered_get : Answered (dispatch now "get" request response store) "get" request store := by
  cases hkey : request.headers "key" with
  | none =>
    have hout : dispatch now "get" request response store =
        (.ok (.invalidArgument "get: missing header 'key'", response), store) := by
      simp [dispatch, hkey]
    rw [hout]
    exact answered_refusal rfl (by simp [WellFormed, hkey])
  | some key =>
    refine answered_success ?_ (.inl ⟨.inl rfl, by simp [hkey]⟩)
    simp only [dispatch, hkey, if_true]
    exact ⟨_, rfl⟩

theorem answered_remove :
    Answered (dispatch now "remove" request response store) "remove" request store := by
  cases hkey : request.headers "key" with
  | none =>
    have hout : dispatch now "remove" request response store =
        (.ok (.invalidArgument "remove: missing header 'key'", response), store) := by
      simp [dispatch, hkey]
    rw [hout]
    exact answered_refusal rfl (by simp [WellFormed, hkey])
  | some key =>
    exact answered_success ⟨response.setHeader "found" (toHeaderBool (store.remove key).1),
      by simp [dispatch, hkey]⟩ (.inl ⟨.inr rfl, by simp [hkey]⟩)

theorem answered_clear : Answered (dispatch now "clear" request response store) "clear" request store :=
  answered_success ⟨response, by simp [dispatch]⟩ (.inr (.inr (.inl rfl)))

theorem answered_size : Answered (dispatch now "size" request response store) "size" request store :=
  answered_success ⟨{ response with payload := intToString store.size.toNat }, by simp [dispatch]⟩
    (.inr (.inr (.inr rfl)))

theorem answered_put_iff : Answered (dispatch now "put" request response store) "put" request store ↔
    TtlReadable "put" request := by
  cases hkey : request.headers "key" with
  | none =>
    have hout : dispatch now "put" request response store =
        (.ok (.invalidArgument "put: missing header 'key'", response), store) := by
      simp [dispatch, hkey]
    rw [hout]
    refine iff_of_true (answered_refusal rfl (by simp [WellFormed, hkey])) ?_
    simp [TtlReadable, hkey]
  | some key =>
    have hwf : WellFormed "put" request ↔ TtlReadable "put" request := by
      simp [WellFormed, TtlReadable, hkey]
    cases hread : ttlHeader (request.headers "ttl_ms") with
    | error e =>
      have hout : dispatch now "put" request response store = (.error e, store) := by
        simp [dispatch, hkey, hread]
      rw [hout]
      refine iff_of_false ?_ fun hvalid => ?_
      · rintro ⟨status, response', hok, -⟩
        cases hok
      · cases htext : request.headers "ttl_ms" with
        | none => simp [htext, ttlHeader] at hread
        | some text =>
          obtain ⟨negative, digits, hd, hlow, hhigh⟩ := hvalid rfl (by simp [hkey]) text htext
          simp [htext, ttlHeader, stoll_valid hd hlow hhigh] at hread
    | ok ttl =>
      have hout : dispatch now "put" request response store =
          (.ok (.success, response), store.put now key request.payload (.ofInt ttl)) := by
        simp [dispatch, hkey, hread]
      rw [hout, ← hwf]
      constructor
      · rintro ⟨status, response', hok, hiff, -⟩
        obtain ⟨rfl, -⟩ := Prod.mk.inj (Except.ok.inj hok)
        exact hiff.1 rfl
      · exact answered_success ⟨response, rfl⟩

theorem answered_unknown (h : method ∉ ["get", "put", "remove", "clear", "size"]) :
    Answered (dispatch now method request response store) method request store := by
  simp only [List.mem_cons, List.not_mem_nil, or_false, not_or] at h
  obtain ⟨hget, hput, hremove, hclear, hsize⟩ := h
  have hout : dispatch now method request response store =
      (.ok (.notFound ("cache has no method '" ++ method ++ "'"), response), store) := by
    simp [dispatch, hget, hput, hremove, hclear, hsize]
  rw [hout]
  exact answered_refusal rfl (by simp [WellFormed, hget, hput, hremove, hclear, hsize])

end Methods

theorem call_registered (h : registry.find service = some (CacheRpcService.make ptr name)) :
    InProcChannel.call registry endpoint now service method request response store =
      CacheRpcService.dispatch now method request response store := by
  simp [InProcChannel.call, h, CacheRpcService.make]

theorem requests_answered_iff (h : registry.find service = some (CacheRpcService.make ptr name)) :
    Answered (InProcChannel.call registry endpoint now service method request response store) method
      request store ↔ TtlReadable method request := by
  rw [call_registered h]
  by_cases hmem : method ∈ ["get", "put", "remove", "clear", "size"]
  · simp only [List.mem_cons, List.not_mem_nil, or_false] at hmem
    rcases hmem with rfl | rfl | rfl | rfl | rfl
    · exact iff_of_true answered_get fun h => absurd h (by decide)
    · exact answered_put_iff
    · exact iff_of_true answered_remove fun h => absurd h (by decide)
    · exact iff_of_true answered_clear fun h => absurd h (by decide)
    · exact iff_of_true answered_size fun h => absurd h (by decide)
  · refine iff_of_true (answered_unknown hmem) ?_
    rintro rfl
    simp at hmem

def putRequest (text : String) : RpcMessage :=
  (RpcMessage.empty.setHeader "key" "k").setHeader "ttl_ms" text

theorem validTtl_negative : ValidTtl "-1" :=
  ⟨true, ['1'], ⟨⟨['-'], .inr (.inr ⟨rfl, rfl⟩), rfl⟩, by simp, by simp⟩, by decide, by decide⟩

theorem not_validTtl {text : String} (h : text.toList.getLast? = some 'x') : ¬ ValidTtl text := by
  rintro ⟨negative, digits, ⟨⟨sign, -, htext⟩, hne, hdigits⟩, -⟩
  rw [htext, List.getLast?_append_of_ne_nil sign hne] at h
  have hx := hdigits 'x' (List.mem_of_getLast? h)
  cases hx

theorem header_putRequest (text : String) : (putRequest text).headers "ttl_ms" = some text := by
  simp [putRequest, RpcMessage.setHeader]

theorem requests_answered_put : Answered (InProcChannel.call cacheRegistry ⟨"inproc", "cache"⟩ 0 "cache"
    "put" (putRequest "-1") .empty (.make ⟨2, 0, false⟩)) "put" (putRequest "-1")
      (.make ⟨2, 0, false⟩) := by
  refine (requests_answered_iff find_cacheRegistry).2 ?_
  intro _ _ text htext
  obtain rfl := Option.some.inj ((header_putRequest "-1").symm.trans htext)
  exact validTtl_negative

-- The exception of stoll escapes; after a number at the front it accepts anything.
theorem put_request_escapes :
    (InProcChannel.call cacheRegistry ⟨"inproc", "cache"⟩ 0 "cache" "put" (putRequest "x") .empty
      (.make ⟨2, 0, false⟩)).1 = .error (.invalidArgument "stoll") ∧
    ∀ text ∈ ["x", "1x"], ¬ Answered (InProcChannel.call cacheRegistry ⟨"inproc", "cache"⟩ 0 "cache"
      "put" (putRequest text) .empty (.make ⟨2, 0, false⟩)) "put" (putRequest text)
        (.make ⟨2, 0, false⟩) := by
  constructor
  · rw [call_registered find_cacheRegistry]
    simp [CacheRpcService.dispatch, putRequest, RpcMessage.setHeader, CacheRpcService.ttlHeader,
      stoll, takeSign, isSpace]
  · intro text htext hanswered
    rw [call_registered find_cacheRegistry, answered_put_iff] at hanswered
    have hvalid := hanswered rfl rfl text (header_putRequest text)
    refine not_validTtl ?_ hvalid
    rcases (by simpa using htext : text = "x" ∨ text = "1x") with rfl | rfl <;> rfl

end Lark.Cache
