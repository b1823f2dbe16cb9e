import VarahaCache.Types

/-!
# Cached objects and their storage

`ObjCore` of `rv-storage`, with the fields the cache and the request path
read, and the part of the `Stevedore` trait the cache engine calls. The
engine holds its storage behind `Arc<dyn Stevedore>`, so it is a parameter
here too: any state type with any behaviour of the three calls.
-/

namespace VarahaCache

/-- A cached object behind its `Arc`. The program compares handles, not
values; `addr` is the allocation, so that two objects with equal contents stay
two. -/
structure ObjCore where
  addr : Nat
  digest : Digest
  flags : ObjCoreFlags
  tOrigin : VtimReal
  ttl : VtimDur
  grace : VtimDur
  keep : VtimDur
  hits : Int
  varyData : Option (List UInt8)
  body : List UInt8
deriving DecidableEq

namespace ObjCore

/-- `ObjCore::new`: no flags, no lifetime, no body. -/
def new (addr : Nat) (digest : Digest) : ObjCore :=
  { addr := addr, digest := digest, flags := .empty, tOrigin := 0, ttl := 0, grace := 0,
    keep := 0, hits := 0, varyData := none, body := [] }

def isExpired (oc : ObjCore) (now : VtimReal) : Bool := oc.tOrigin + oc.ttl < now

/-- What is left of `t_origin + ttl + grace`, or zero. -/
def remainingGrace (oc : ObjCore) (now : VtimReal) : VtimDur :=
  let remaining := oc.tOrigin + oc.ttl + oc.grace - now
  if 0 < remaining then remaining else 0

/-- The stored body; an empty one reads as none. -/
def getBody (oc : ObjCore) : Option (List UInt8) :=
  if oc.body = [] then none else some oc.body

/-- When the expiry queue lets the object go:
`t_origin + ttl + grace + keep`. -/
def deadline (oc : ObjCore) : VtimReal := oc.tOrigin + oc.ttl + oc.grace + oc.keep

end ObjCore

inductive StorageError
  | allocFailed | full | notFound | io (message : String)
deriving DecidableEq

/-- The storage calls the engine makes. Every call may change the store,
a failing one included. -/
structure Stevedore (σ : Type) where
  allocObj : σ → ObjCore → Nat → σ × Except StorageError Unit
  freeObj : σ → ObjCore → σ
  extend : σ → ObjCore → List UInt8 → σ × Except StorageError Unit

def Stevedore.unlimited : Stevedore Unit where
  allocObj _ _ _ := ((), .ok ())
  freeObj _ _ := ()
  extend _ _ _ := ((), .ok ())

end VarahaCache
