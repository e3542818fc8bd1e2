import Lark.Base.Exn
import Lark.Base.Transition
import Mathlib.Data.List.Nodup
import Mathlib.Logic.Function.Basic

namespace Lark.Rpc

open Lark.Base

abbrev Headers := String → Option String

structure RpcMessage where
  payload : String
  headers : Headers

def RpcMessage.empty : RpcMessage := ⟨"", fun _ => none⟩

def RpcMessage.setHeader (m : RpcMessage) (key value : String) : RpcMessage :=
  { m with headers := Function.update m.headers key (some value) }

inductive RpcCode where
  | ok
  | deadline
  | notFound
  | unavailable
  | invalidArgument
  | internal
  deriving DecidableEq

structure RpcStatus where
  code : RpcCode
  message : String
  deriving DecidableEq

namespace RpcStatus

def success : RpcStatus := ⟨.ok, ""⟩

def notFound (message : String) : RpcStatus := ⟨.notFound, message⟩

def unavailable (message : String) : RpcStatus := ⟨.unavailable, message⟩

def invalidArgument (message : String) : RpcStatus := ⟨.invalidArgument, message⟩

def isOk (s : RpcStatus) : Bool := s.code = .ok

end RpcStatus

-- `ptr` is the object's identity. `dispatch` is given the clock reading that the handler takes.
structure RpcService (σ : Type) where
  ptr : Nat
  name : String
  dispatch : Int64 → String → RpcMessage → RpcMessage → σ → Except Exn (RpcStatus × RpcMessage) × σ

abbrev InProcRegistry (σ : Type) := String → Option (RpcService σ)

variable {σ ι : Type}

namespace InProcRegistry

def register (r : InProcRegistry σ) (name : String) (service : RpcService σ) :
    Except Exn (InProcRegistry σ) :=
  match r name with
  | some _ => .error (.invalidArgument ("InProcRegistry: duplicate service '" ++ name ++ "'"))
  | none => .ok (Function.update r name (some service))

def unregister (r : InProcRegistry σ) (name : String) : InProcRegistry σ :=
  Function.update r name none

def find (r : InProcRegistry σ) (name : String) : Option (RpcService σ) := r name

def registerAll : List (RpcService σ) → InProcRegistry σ → Except Exn Unit × InProcRegistry σ
  | [], r => (.ok (), r)
  | svc :: rest, r =>
    match r.register svc.name svc with
    | .error e => (.error e, r)
    | .ok r' => registerAll rest r'

def unregisterAll (services : List (RpcService σ)) (r : InProcRegistry σ) : InProcRegistry σ :=
  services.foldl (fun r svc => r.unregister svc.name) r

end InProcRegistry

structure RpcEndpoint where
  scheme : String
  address : String

def RpcEndpoint.uri (e : RpcEndpoint) : String := e.scheme ++ "://" ++ e.address

def InProcChannel.call (registry : InProcRegistry σ) (endpoint : RpcEndpoint) (now : Int64)
    (service method : String) (request response : RpcMessage) (world : σ) :
    Except Exn (RpcStatus × RpcMessage) × σ :=
  match registry.find service with
  | none => (.ok (.unavailable ("inproc: no service '" ++ service ++ "' registered (endpoint " ++
      endpoint.uri ++ ")"), response), world)
  | some svc => svc.dispatch now method request response world

-- `registered` is history: the services that the last successful `Start` registered.
structure InProcServer (σ : Type) where
  services : List (RpcService σ)
  started : Bool
  registered : List (RpcService σ)

def InProcServer.make : InProcServer σ := ⟨[], false, []⟩

structure Process (σ ι : Type) where
  registry : InProcRegistry σ
  server : ι → InProcServer σ

inductive Call (σ ι : Type) where
  | registerService (i : ι) (service : Option (RpcService σ))
  | start (i : ι)
  | stop (i : ι)
  | destroy (i : ι)

namespace Process

variable [DecidableEq ι]

def init : Process σ ι := ⟨fun _ => none, fun _ => .make⟩

def setServer (p : Process σ ι) (i : ι) (s : InProcServer σ) : Process σ ι :=
  { p with server := Function.update p.server i s }

def registerService (p : Process σ ι) (i : ι) (service : Option (RpcService σ)) :
    Except Exn Unit × Process σ ι :=
  match service with
  | none => (.error (.invalidArgument "InProcServer: null service"), p)
  | some svc =>
    (.ok (), p.setServer i { p.server i with services := (p.server i).services ++ [svc] })

def start (p : Process σ ι) (i : ι) : Except Exn Unit × Process σ ι :=
  if (p.server i).started then (.ok (), p)
  else
    match InProcRegistry.registerAll (p.server i).services p.registry with
    | (.error e, registry) => (.error e, { p with registry := registry })
    | (.ok (), registry) =>
      (.ok (), { p with registry := registry }.setServer i
        { p.server i with started := true, registered := (p.server i).services })

def stop (p : Process σ ι) (i : ι) : Process σ ι :=
  if (p.server i).started then
    { p with registry := InProcRegistry.unregisterAll (p.server i).services p.registry }.setServer i
      { p.server i with started := false }
  else p

def call (p : Process σ ι) : Call σ ι → Except Exn Unit × Process σ ι
  | .registerService i service => p.registerService i service
  | .start i => p.start i
  | .stop i => (.ok (), p.stop i)
  | .destroy i => (.ok (), (p.stop i).setServer i .make)

end Process

end Lark.Rpc
