import Aloelite.Direct

/-! How `dav.py` lets a client in: the PIN cache, the token of a request, its session. -/
namespace Aloelite

/-- `_PinCache`: for each volume, digests of PINs with the tokens they stand for. -/
abbrev PinCache := String → List (Bytes × Token)

namespace PinCache

variable (hash : Bytes → Bytes) (pins : PinCache) (vid : String) (pin : Bytes)

def get : Option Token := ((pins vid).find? (fun e => e.1 = hash pin)).map Prod.snd

/-- The loop of `put`: the first entry of the digest is written over. -/
def putEntry (digest : Bytes) (token : Token) : List (Bytes × Token) → List (Bytes × Token)
  | [] => [(digest, token)]
  | e :: entries =>
    if e.1 = digest then (digest, token) :: entries else e :: putEntry digest token entries

def put (token : Token) : PinCache :=
  Function.update pins vid (putEntry (hash pin) token (pins vid))

def forget : PinCache := Function.update pins vid []

end PinCache

/-- Why a request does not get its session: a fault with its status, or an error that goes
up as it is. -/
inductive DavRefusal where
  | fault (status : ℕ)
  | raised (e : ManagerError)
  deriving DecidableEq, Repr

/-- `_translate`, on the errors of the registry. -/
def DavRefusal.translate : ManagerError → DavRefusal
  | .notAuthorized => .fault 401
  | .notMounted => .fault 503
  | e => .raised e

/-- The manager's registry, and the PINs the blueprint remembers. -/
structure DavFront where
  reg : DirectSessionRegistry
  pins : PinCache := fun _ => []

namespace DavFront

variable (C : Crypto) (M : Msgpack) (spelt : String → Option VolumeId) (hash : Bytes → Bytes)
  (d : Draws) (rec : VolumeRecord)

/-- The handler of the first `try` of `_session_token`. -/
def refusePin : ManagerError → DavRefusal
  | .badPin => .fault 401
  | .encryptionMismatch => .fault 401
  | .mountFailed _ => .fault 500
  | e => .translate e

/-- `_session_token` where the cache has no token to hand out. -/
def provePin (f : DavFront) (pin : Bytes) : DavFront × Except DavRefusal (Option Token) :=
  let tried :=
    if (f.reg.sessions rec.id).isSome then f.reg.attach C M spelt d rec (some pin)
    else f.reg.unlock C M spelt d rec (some pin)
  match tried with
  | (reg, .ok token) => ({ reg := reg, pins := f.pins.put hash rec.id pin token }, .ok (some token))
  | (reg, .error .alreadyMounted) =>
    match reg.attach C M spelt d rec (some pin) with
    | (reg, .ok token) =>
      ({ reg := reg, pins := f.pins.put hash rec.id pin token }, .ok (some token))
    | (reg, .error e) => ({ f with reg := reg }, .error (.translate e))
  | (reg, .error e) => ({ f with reg := reg }, .error (refusePin e))

/-- `_session_token`; `none` is the token of a plain volume. -/
def sessionToken (f : DavFront) (encrypted : Bool) (pin : Option Bytes) :
    DavFront × Except DavRefusal (Option Token) :=
  if encrypted then
    match pin with
    | none => (f, .error (.fault 401))
    | some pin =>
      match f.pins.get hash rec.id pin with
      | some token =>
        if (f.reg.sessions rec.id).isSome then (f, .ok (some token))
        -- the volume was locked under the cache
        else provePin C M spelt hash d rec { f with pins := f.pins.forget rec.id } pin
      | none => provePin C M spelt hash d rec f pin
  else if (f.reg.sessions rec.id).isSome then (f, .ok none)
  else
    match f.reg.unlock C M spelt d rec none with
    | (reg, .ok _) => ({ f with reg := reg }, .ok none)
    | (reg, .error .alreadyMounted) => ({ f with reg := reg }, .ok none)
    | (reg, .error e) => ({ f with reg := reg }, .error (.translate e))

/-- `_session_ctx`, entered: the mount the handler works on. -/
def sessionCtx (f : DavFront) (encrypted : Bool) (pin : Option Bytes) :
    DavFront × Except DavRefusal MountId :=
  match sessionToken C M spelt hash d rec f encrypted pin with
  | (f, .error e) => (f, .error e)
  | (f, .ok token) => (f, (f.reg.session rec.id (token.map Option.some)).mapError .translate)

/-- The calls a handler makes on the connection of its volume. -/
def handle (f : DavFront) (calls : List (Env × Op)) : DavFront :=
  match f.reg.sessions rec.id with
  | none => f
  | some entry =>
    let s := calls.foldl (fun s call => (exec C M call.1 s entry.conn call.2).1)
      (f.reg.files entry.path)
    { f with reg := f.reg.setFile entry.path s }

/-- `_dispatch` of a request that has a handler and is not `OPTIONS`; `calls` is what the
handler comes to ask of the engine. -/
def dispatch (f : DavFront) (encrypted : Bool) (pin : Option Bytes) (calls : List (Env × Op)) :
    DavFront × Except DavRefusal MountId :=
  match sessionCtx C M spelt hash d rec f encrypted pin with
  | (f, .error e) => (f, .error e)
  | (f, .ok m) => (f.handle C M rec calls, .ok m)

end DavFront

end Aloelite
