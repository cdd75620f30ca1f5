import Maki.Json
import Maki.JournalFormat

/-! The remote freshness authority (`maki_backing::remote_witness`): one record for a volume, changed
by compare-and-set requests that carry a session capability. The digest is a dependency of the
program and a parameter here; a string is its UTF-8 bytes. -/
namespace Maki

class Sha256 where
  hash : Bytes → Vector UInt8 32

abbrev Bytes16 := Vector UInt8 16
abbrev Bytes32 := Vector UInt8 32

def nil16 : Bytes16 := Vector.replicate 16 0
def nil32 : Bytes32 := Vector.replicate 32 0

inductive WitnessError where
  | InvalidData (message : String)
  | InvalidInput (message : String)
  | PermissionDenied (message : String)
  | WouldBlock (message : String)
  | AlreadyExists (message : String)
  | Other (message : String)
  | Io (kind : ErrorKind)
  deriving DecidableEq

/-- The point a witness vouches for: a volume, its generation and the digest of its manifest. -/
structure Anchor where
  identity : Bytes16
  generation : ℕ
  root : Bytes32
  deriving DecidableEq

namespace RemoteWitness

def maxBytes : ℕ := 64*1024
def maxGeneration : ℕ := i64Max
def magic : Bytes := ascii "MAKIRW02"
def stateDomain : Bytes := ascii "maki-remote-witness-state-v2" ++ [0]
def requestDomain : Bytes := ascii "maki-remote-witness-request-v2" ++ [0]
def authorizationDomain : Bytes := ascii "maki-remote-witness-session-authorization-v2" ++ [0]

def denied : WitnessError := .PermissionDenied "administrator authority required"
def conflict : WitnessError := .WouldBlock "remote witness comparison failed"

/-- `if c { return Err(e) }`. -/
def refuse (c : Prop) [Decidable c] (e : WitnessError) : Except WitnessError Unit :=
  if c then .error e else .ok ()

def digest [Sha256] (domain bytes : Bytes) : Bytes32 := Sha256.hash (domain ++ bytes)

def increment (value maximum : ℕ) : Except WitnessError ℕ :=
  if value+1 ≤ maximum then .ok (value+1)
  else .error (.InvalidInput "remote witness counter exhausted")

def hexDigit (b : UInt8) : Bool := (48 ≤ b && b ≤ 57) || (97 ≤ b && b ≤ 102)

def hexValue (bs : Bytes) : ℕ :=
  bs.foldl (fun n b => 16*n+(if b ≤ 57 then b.toNat-48 else b.toNat-87)) 0

def namespaceFence (value : Bytes) : Except WitnessError ℕ := do
  refuse (value.length ≠ 56 ∨ value.take 7 ≠ ascii "remote-" ∨ value[23]? ≠ some 45)
    (.InvalidData "invalid remote namespace")
  refuse (¬ ((value.drop 7).take 16 ++ value.drop 24).all hexDigit)
    (.InvalidData "invalid remote namespace encoding")
  let fence := hexValue ((value.drop 7).take 16)
  refuse (fence = 0 ∨ (value.drop 24).all (· = 48))
    (.InvalidData "nil remote namespace session or fence")
  return fence

def hexText (width n : ℕ) : Bytes :=
  let digits := (Nat.toDigits 16 n).map fun c => UInt8.ofNat c.toNat
  List.replicate (width-digits.length) 48 ++ digits

def namespaceName (fence : ℕ) (session : Bytes16) : Bytes :=
  ascii "remote-" ++ (hexText 16 fence ++ 45::session.toList.flatMap fun b => hexText 2 b.toNat)

end RemoteWitness

open RemoteWitness

structure Descriptor where
  anchor : Anchor
  epoch : ℕ
  ns : Bytes
  deriving DecidableEq

def Descriptor.validate (x : Descriptor) : Except WitnessError Unit := do
  refuse (x.anchor.identity = nil16 ∨ x.anchor.generation > maxGeneration ∨
    x.epoch > x.anchor.generation) (.InvalidData "invalid remote descriptor identity or counters")
  let _ ← namespaceFence x.ns
  return ()

namespace RemoteWitness

inductive Phase where
  | Released
  | Claimed
  | RestoreClaimed
  | Active
  deriving DecidableEq

structure Record where
  identity : Bytes16
  current : Option Descriptor
  fence : ℕ
  session : Bytes16
  phase : Phase
  restoreSource : Option Descriptor
  lastOperation : Bytes16
  deriving DecidableEq

namespace Record

/-- A descriptor of this volume from a session up to the fence. -/
def checkInside (r : Record) (x : Descriptor) (e : WitnessError) : Except WitnessError Unit := do
  refuse (x.anchor.identity ≠ r.identity) e
  let fence ← namespaceFence x.ns
  refuse (fence > r.fence) e

def checkCurrent (r : Record) : Except WitnessError Unit :=
  match r.current with
  | some current => do
    current.validate
    r.checkInside current
      (.InvalidData "remote witness descriptor is outside its identity or fence")
    refuse (r.phase = .Active ∧ current.ns ≠ namespaceName r.fence r.session)
      (.InvalidData "active remote namespace differs from its session")
  | none => refuse (r.phase = .Active ∨ r.phase = .RestoreClaimed)
      (.InvalidData "remote witness phase requires a current descriptor")

/-- A restore goes to a descriptor of this volume that is no newer than the current one. -/
def checkSource (r : Record) (source : Descriptor) (missing e : WitnessError) :
    Except WitnessError Descriptor := do
  source.validate
  match r.current with
  | none => .error missing
  | some current =>
    refuse (source.anchor.identity ≠ r.identity ∨
      source.anchor.generation > current.anchor.generation ∨ source.epoch > current.epoch) e
    let fence ← namespaceFence source.ns
    refuse (fence > r.fence) e
    return current

def checkRestore (r : Record) : Except WitnessError Unit :=
  match r.restoreSource with
  | some source =>
    if r.phase = .RestoreClaimed then do
      let _ ← r.checkSource source (.InvalidData "restore has no current descriptor")
        (.InvalidData "invalid remote restore source")
      return ()
    else .error (.InvalidData "remote restore source does not match phase")
  | none => refuse (r.phase = .RestoreClaimed)
      (.InvalidData "remote restore source does not match phase")

def validate (r : Record) : Except WitnessError Unit := do
  refuse (r.identity = nil16) (.InvalidData "nil remote witness identity")
  if r.fence = 0 then
    refuse (r.current.isSome ∨ r.session ≠ nil16 ∨ r.phase ≠ .Released ∨ r.restoreSource.isSome ∨
      r.lastOperation ≠ nil16) (.InvalidData "invalid initial remote witness record")
  else
    refuse (r.session = nil16 ∨ r.lastOperation = nil16)
      (.InvalidData "nil remote witness operation or session")
    r.checkCurrent
    r.checkRestore

end Record

inductive Action where
  | Inspect
  | Claim
  | Takeover
  | RecoverEnrollment
  | ClaimRestore (source : Descriptor)
  | Activate (descriptor : Descriptor)
  | Advance (anchor : Anchor)
  | Release
  deriving DecidableEq

def Action.installsSession : Action → Bool
  | .Claim | .Takeover | .RecoverEnrollment | .ClaimRestore _ => true
  | _ => false

/-- The authorization is a bearer capability for one session. -/
structure Request where
  operationId : Bytes16
  expected : Option Record
  action : Action
  authorization : Option Bytes32
  deriving DecidableEq

inductive Role where
  | Writer
  | Admin
  deriving DecidableEq

structure Stored where
  format : ℕ
  record : Record
  lastRequestHash : Option Bytes32
  sessionAuthorizationHash : Option Bytes32
  deriving DecidableEq

def Stored.validate (s : Stored) : Except WitnessError Unit := do
  refuse (s.format ≠ 2 ∨ s.lastRequestHash.isSome ≠ decide (s.record.fence ≠ 0) ∨
      s.sessionAuthorizationHash.isSome ≠ decide (s.record.fence ≠ 0))
    (.InvalidData "unsupported or inconsistent remote witness format")
  s.record.validate

section Encoding

/-! The JSON texts of requests and of the stored state. -/

def phaseJson : Phase → Bytes
  | .Released => Json.str (ascii "released")
  | .Claimed => Json.str (ascii "claimed")
  | .RestoreClaimed => Json.str (ascii "restore_claimed")
  | .Active => Json.str (ascii "active")

def roleJson : Role → Bytes
  | .Writer => Json.str (ascii "writer")
  | .Admin => Json.str (ascii "admin")

def anchorJson (x : Anchor) : Bytes :=
  Json.obj [Json.field "identity" (Json.bytes x.identity.toList),
    Json.field "generation" (Json.num x.generation), Json.field "root" (Json.bytes x.root.toList)]

def descriptorJson (x : Descriptor) : Bytes :=
  Json.obj [Json.field "anchor" (anchorJson x.anchor), Json.field "epoch" (Json.num x.epoch),
    Json.field "namespace" (Json.str x.ns)]

def recordJson (r : Record) : Bytes :=
  Json.obj [Json.field "identity" (Json.bytes r.identity.toList),
    Json.field "current" (Json.opt descriptorJson r.current),
    Json.field "fence" (Json.num r.fence),
    Json.field "session" (Json.bytes r.session.toList),
    Json.field "phase" (phaseJson r.phase),
    Json.field "restore_source" (Json.opt descriptorJson r.restoreSource),
    Json.field "last_operation" (Json.bytes r.lastOperation.toList)]

def actionJson : Action → Bytes
  | .Inspect => Json.obj [Json.field "type" (Json.str (ascii "inspect"))]
  | .Claim => Json.obj [Json.field "type" (Json.str (ascii "claim"))]
  | .Takeover => Json.obj [Json.field "type" (Json.str (ascii "takeover"))]
  | .RecoverEnrollment => Json.obj [Json.field "type" (Json.str (ascii "recover_enrollment"))]
  | .ClaimRestore source => Json.obj [Json.field "type" (Json.str (ascii "claim_restore")),
      Json.field "source" (descriptorJson source)]
  | .Activate descriptor => Json.obj [Json.field "type" (Json.str (ascii "activate")),
      Json.field "descriptor" (descriptorJson descriptor)]
  | .Advance anchor => Json.obj [Json.field "type" (Json.str (ascii "advance")),
      Json.field "anchor" (anchorJson anchor)]
  | .Release => Json.obj [Json.field "type" (Json.str (ascii "release"))]

/-- An absent authorization is left out. -/
def requestJson (q : Request) : Bytes :=
  Json.obj ([Json.field "operation_id" (Json.bytes q.operationId.toList),
    Json.field "expected" (Json.opt recordJson q.expected),
    Json.field "action" (actionJson q.action)] ++
    q.authorization.toList.map fun a => Json.field "authorization" (Json.bytes a.toList))

def storedJson (s : Stored) : Bytes :=
  Json.obj [Json.field "format" (Json.num s.format), Json.field "record" (recordJson s.record),
    Json.field "last_request_hash" (Json.opt (fun h => Json.bytes h.toList) s.lastRequestHash),
    Json.field "session_authorization_hash"
      (Json.opt (fun h => Json.bytes h.toList) s.sessionAuthorizationHash)]

variable [Sha256]

def requestText (role : Role) (q : Request) : Bytes := Json.arr [roleJson role,requestJson q]

def requestHash (role : Role) (q : Request) : Except WitnessError Bytes32 :=
  if (requestText role q).length > maxBytes then
    .error (.InvalidInput "invalid or oversized remote witness request")
  else .ok (digest requestDomain (requestText role q))

def authorizationHash (a : Bytes32) : Except WitnessError Bytes32 := do
  refuse (a = nil32) (.InvalidInput "nil session authorization")
  return digest authorizationDomain a.toList

/-- The stored bytes: magic, length, JSON body and checksum. -/
def encode (s : Stored) : Except WitnessError Bytes := do
  s.validate
  let body := storedJson s
  refuse (body.length+44 > maxBytes) (.InvalidInput "remote witness state too large")
  let bytes := magic ++ (leBytes 4 body.length ++ body)
  return bytes ++ (digest stateDomain bytes).toList

end Encoding

/-- The bytes in which two digests differ, without an early exit. -/
def mismatch (a b : Bytes32) : UInt8 :=
  (a.toList.zip b.toList).foldl (fun difference p => difference ||| (p.1 ^^^ p.2)) 0

/-- The phase a session starts in; the restore source is kept for its activation. -/
def claimed (r : Record) : Action → Except WitnessError Record
  | .ClaimRestore source => do
    let current ← r.checkSource source (.InvalidInput "cannot restore an unenrolled backing")
      (.InvalidInput "restore source is not an earlier descriptor of this volume")
    let _ ← increment current.epoch maxGeneration
    let _ ← increment current.anchor.generation maxGeneration
    return { r with restoreSource := some source, phase := .RestoreClaimed }
  | _ => .ok { r with restoreSource := none, phase := .Claimed }

def install (r : Record) (role : Role) (q : Request) : Except WitnessError Record := do
  refuse (q.action = .Claim ∧ r.phase ≠ .Released) conflict
  refuse (q.action ≠ .Claim ∧ role ≠ .Admin) denied
  refuse (q.action = .Takeover ∧ r.current = none)
    (.InvalidInput "uninitialized backing requires explicit enrollment recovery")
  refuse (q.action = .RecoverEnrollment ∧
      (r.current.isSome ∨ ¬ (r.phase = .Released ∨ r.phase = .Claimed)))
    (.InvalidInput "cannot recover enrollment after its first activation")
  let next ← claimed r q.action
  let fence ← increment next.fence u64Max
  return { next with fence, session := q.operationId }

/-- An ordinary activation keeps anchor and epoch; a restore advances both once. -/
def checkActivation (r : Record) (role : Role) (x : Descriptor) : Except WitnessError Unit :=
  match r.phase with
  | .Claimed =>
    match r.current with
    | some current => refuse (x.anchor ≠ current.anchor ∨ x.epoch ≠ current.epoch)
        (.InvalidInput "ordinary activation cannot change anchor or epoch")
    | none => refuse (x.anchor.generation ≠ 0 ∨ x.epoch ≠ 0)
        (.InvalidInput "initial activation requires generation and epoch zero")
  | .RestoreClaimed => do
    refuse (role ≠ .Admin) denied
    match r.current with
    | none => .error (.InvalidData "restore has no current descriptor")
    | some current =>
      let e := .InvalidInput "restore must advance current generation and epoch exactly once"
      let generation ← increment current.anchor.generation maxGeneration
      refuse (x.anchor.generation ≠ generation) e
      let epoch ← increment current.epoch maxGeneration
      refuse (x.epoch ≠ epoch) e
  | _ => .error (.InvalidInput "activation requires an outstanding claim")

def activate (r : Record) (role : Role) (x : Descriptor) : Except WitnessError Record := do
  x.validate
  refuse (x.anchor.identity ≠ r.identity ∨ x.ns ≠ namespaceName r.fence r.session)
    (.InvalidInput "activation must use the claimed volume and fresh namespace")
  checkActivation r role x
  return { r with current := some x, restoreSource := none, phase := .Active }

def advance (r : Record) (anchor : Anchor) : Except WitnessError Record := do
  refuse (r.phase ≠ .Active) (.InvalidInput "advance requires active writer")
  match r.current with
  | none => .error (.InvalidData "active writer has no descriptor")
  | some current =>
    let e := .InvalidInput "advance must increment current volume generation exactly once"
    refuse (anchor.identity ≠ r.identity) e
    let generation ← increment current.anchor.generation maxGeneration
    refuse (anchor.generation ≠ generation) e
    return { r with current := some { current with anchor } }

def release (r : Record) (role : Role) : Except WitnessError Record := do
  refuse (r.phase = .Released) (.InvalidInput "remote writer is already released")
  refuse (r.phase = .RestoreClaimed ∧ role ≠ .Admin) denied
  return { r with phase := .Released, restoreSource := none }

/-- What a request makes of the record; an inspection never comes here. -/
def transition (r : Record) (role : Role) (q : Request) : Except WitnessError Record :=
  match q.action with
  | .Inspect => .error (.Other "internal error: entered unreachable code: inspect handled before transition")
  | .Claim | .Takeover | .RecoverEnrollment | .ClaimRestore _ => install r role q
  | .Activate x => activate r role x
  | .Advance anchor => advance r anchor
  | .Release => release r role

end RemoteWitness

open RemoteWitness

structure CanonicalState where
  stored : Stored
  deriving DecidableEq

namespace CanonicalState

def record (s : CanonicalState) : Record := s.stored.record

def initial (identity : Bytes16) : Except WitnessError CanonicalState := do
  refuse (identity = nil16) (.InvalidInput "nil remote witness identity")
  return ⟨2,⟨identity,none,0,nil16,.Released,none,nil16⟩,none,none⟩

def encode [Sha256] (s : CanonicalState) : Except WitnessError Bytes := RemoteWitness.encode s.stored

def inspect (s : CanonicalState) (q : Request) : Except WitnessError CanonicalState := do
  refuse q.authorization.isSome
    (.InvalidInput "inspection must not carry session authorization")
  refuse (q.expected.any (· ≠ s.record)) conflict
  return s

/-- The capability of the session must be presented, unless a new one is installed. -/
def checkAuthorization (s : CanonicalState) (q : Request) (authorization : Bytes32) :
    Except WitnessError Unit :=
  if q.action.installsSession then .ok ()
  else
    match s.stored.sessionAuthorizationHash with
    | none => .error (.InvalidData "session authorization absent")
    | some expected => refuse (mismatch authorization expected ≠ 0)
        (.PermissionDenied "session authorization differs")

/-- The compare-and-set of a request that is not a repetition of the last one. -/
def change [Sha256] (s : CanonicalState) (role : Role) (q : Request) (hash : Bytes32) :
    Except WitnessError CanonicalState := do
  refuse (q.expected ≠ some s.record) conflict
  match q.authorization with
  | none => .error (.PermissionDenied "session authorization required")
  | some a =>
    let authorization ← authorizationHash a
    s.checkAuthorization q authorization
    let next ← transition s.record role q
    let next := { next with lastOperation := q.operationId }
    next.validate
    return ⟨2,next,some hash,
      if q.action.installsSession then some authorization else s.stored.sessionAuthorizationHash⟩

/-- Apply an exact full-record compare-and-set, including role-bound replay. -/
def apply [Sha256] (s : CanonicalState) (role : Role) (q : Request) :
    Except WitnessError CanonicalState :=
  if q.action = .Inspect then s.inspect q
  else do
    refuse (q.operationId = nil16) (.InvalidInput "nil remote witness operation id")
    let hash ← requestHash role q
    if q.operationId = s.record.lastOperation then
      if s.stored.lastRequestHash = some hash then return s
      else .error (.InvalidInput "remote witness operation id reused with different request or role")
    else s.change role q hash

end CanonicalState
end Maki
