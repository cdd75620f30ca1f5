import Maki.BatchLimits
import Maki.Cache
import Maki.FootprintRun
import Maki.Request
import Maki.VolumeBacked

/-! The engine (`maki_core::engine`): requests on bytes over the ciphertext volume. One request is
served at a time; the checkpoint worker and the control socket act between its steps, wherever it
does not hold the volume. What the environment answers (the clock, free space, the provider, when the
worker runs) is a function of the number of questions asked so far. -/
namespace Maki

inductive EngineError where
  | Core (error : CoreError)
  | Crypto (error : CryptoError)
  /-- `io::ErrorKind::StorageFull`. -/
  | StorageFull (message : String)
  deriving DecidableEq

/-- A provider whose calls may fail: a ciphertext it returned decrypts to the plaintext it was
made from. The first argument of a call is the number of the question. -/
structure CryptoProvider where
  plaintextOf : ℕ → Bytes → Bytes
  encryptBatch : ℕ → List PlaintextUnit → Except CryptoError (List CiphertextUnit)
  decryptBatch : ℕ → List CiphertextUnit → Except CryptoError (List PlaintextUnit)
  encrypt_ok : ∀ n items cts, encryptBatch n items = .ok cts →
    cts.map (fun ct => ⟨ct.unitIndex,plaintextOf ct.unitIndex ct.data⟩) = items
  decrypt_ok : ∀ n cts items, decryptBatch n cts = .ok items →
    cts.map (fun ct => ⟨ct.unitIndex,plaintextOf ct.unitIndex ct.data⟩) = items

structure CheckpointPolicy where
  journalMaxBytes : ℕ
  maxPendingBytes : ℕ
  emergencyReserveBytes : ℕ
  lowSpaceCheckpointBytes : ℕ
  deriving DecidableEq

/-- What happens besides the request being served: the steps of a worker pass, and a cache
reconfigured through the control socket. -/
inductive Background where
  | sync
  | prepare
  | execute
  | finish
  | configureCache (maxBytes : ℕ) (ttl : Option ℕ)
  deriving DecidableEq

/-- A move that does not wait for the checkpoint gate. -/
def Background.ungated : Background → Bool
  | .sync | .configureCache _ _ => true
  | _ => false

/-- The fixed part of an engine, with the answers of its environment. -/
structure EngineInner where
  params : EngineParams
  provider : CryptoProvider
  caps : CryptoCapabilities
  cacheVerifyOnHit : Bool
  maxOverlayBytes : ℕ
  maxOverlayEntries : ℕ
  policy : CheckpointPolicy
  clock : ℕ → ℕ
  backingFreeBytes : ℕ → Option ℕ
  background : ℕ → List Background

/-- A running engine. `plan` is the checkpoint that holds the gate and `accepted` has the records
accepted since the engine was started. -/
structure Engine where
  volume : Volume
  cache : Option VersionedLruCache
  plan : Volume.Plan := .none
  accepted : List JournalRecord := []
  calls : ℕ := 0

def JournalWriter.pendingBytes (w : JournalWriter) : ℕ :=
  match w.active with
  | some a => if a.unsynced then a.writeOffset-a.syncedOffset else 0
  | none => 0

def saturatingMul (a b : ℕ) : ℕ := min (a*b) u64Max

def recordLen (ct : CiphertextUnit) : ℕ := recordHeaderSize+ct.data.length

def maxReclaimRounds : ℕ := 4

namespace Engine

section Environment

def ask {ε : Type} : Io Engine ε ℕ := do
  let (s,_) ← Prog.get
  Prog.modify fun t => ({ t.1 with calls := t.1.calls+1 },t.2)
  return s.calls

def setPlan {ε : Type} (plan : Volume.Plan) : Io Engine ε Unit :=
  Prog.modify fun t => ({ t.1 with plan := plan },t.2)

def mapCache {ε : Type} (f : VersionedLruCache → VersionedLruCache) : Io Engine ε Unit :=
  Prog.modify fun t => ({ t.1 with cache := t.1.cache.map f },t.2)

/-- A call of the volume that accepts no record. -/
def onVolume {α : Type} (p : Io Volume CoreError α) : Io Engine EngineError α :=
  Prog.mapErr .Core (Prog.zoom (fun t => (t.1.volume,t.2)) (fun t r => ({ t.1 with volume := r.1 },r.2)) p)

def checkFreshness : Io Engine EngineError Unit := Prog.mapErr (fun e => .Core (.Io e)) (Io.fp "check_freshness")

end Environment

section Calls

variable [Crc32] [DefaultHasher] [HashOrder]

/-- A request of the volume, and the record it may add. -/
def serve (q : Volume.Request) : Io Engine EngineError Unit :=
  Prog.mapErr .Core (Prog.zoom (fun t => (t.1.volume,t.2))
    (fun t r => ({ t.1 with
      volume := r.1, accepted := t.1.accepted ++ q.accepted t.1.volume r.1 },r.2)) q.run)

def syncJournal : Io Engine EngineError Unit := serve .flush

def act : Background → Io Engine EngineError Unit
  | .sync => do
    let _ ← Prog.attempt (δ := EngineError) syncJournal
    return ()
  | .prepare => do
    let (s,_) ← Prog.get
    match s.plan with
    | .none =>
      match ← Prog.attempt (onVolume Volume.prepareCheckpoint) with
      | .ok p => setPlan (.prepared p)
      | .error _ => return ()
    | _ => return ()
  | .execute => do
    let (s,_) ← Prog.get
    match s.plan with
    | .prepared p =>
      match ← Prog.attempt (onVolume (Volume.execute p)) with
      | .ok _ => setPlan (.executed p)
      | .error _ => setPlan .none
    | _ => return ()
  | .finish => do
    let (s,_) ← Prog.get
    match s.plan with
    | .executed p =>
      let _ ← Prog.attempt (δ := EngineError) (onVolume (Volume.finishCheckpoint ⟨p⟩))
      setPlan .none
    | _ => return ()
  | .configureCache maxBytes ttl => mapCache (·.reconfigure maxBytes ttl)

variable (c : EngineInner)

/-- The volume is free: the others may act. -/
def pause : Io Engine EngineError Unit := do
  let n ← ask
  Prog.forEach (c.background n) act

/-- The same while the request itself holds the checkpoint gate. -/
def pauseGated : Io Engine EngineError Unit := do
  let n ← ask
  Prog.forEach ((c.background n).filter Background.ungated) act

/-- `EngineInner::checkpoint`: the one under way ends first, since it holds the gate. -/
def checkpoint : Io Engine EngineError ℕ := do
  pause c
  act .execute
  act .finish
  let (s,_) ← Prog.get
  match s.plan with
  | .none =>
    pauseGated c
    let prepared ← onVolume Volume.prepareCheckpoint
    setPlan (.prepared prepared)
    pauseGated c
    let completed ← Prog.onError (onVolume (Volume.execute prepared)) fun t => ({ t.1 with plan := .none },t.2)
    setPlan (.executed completed.prepared)
    pauseGated c
    let sequence ← Prog.onError (onVolume (Volume.finishCheckpoint completed))
      fun t => ({ t.1 with plan := .none },t.2)
    setPlan .none
    return sequence
  | _ => Prog.throw (.Core (.Panic "the checkpoint gate is held"))

section Reading

inductive Found where
  | zero
  | cached (data : Bytes)
  | sealed (sequence : ℕ) (ciphertext : Bytes)
  deriving DecidableEq

namespace Found

def ciphertext? (unit : ℕ) : Found → Option CiphertextUnit
  | .sealed _ ciphertext => some ⟨unit,ciphertext⟩
  | _ => none

def cached? : Found → Option Bytes
  | .cached data => some data
  | _ => none

def sequence? : Found → Option ℕ
  | .sealed sequence _ => some sequence
  | _ => none

end Found

def cacheGet (unit sequence : ℕ) : Io Engine EngineError (Option Bytes) := do
  let n ← ask
  let (s,_) ← Prog.get
  match s.cache with
  | none => return none
  | some cache =>
    let (hit,cache) := cache.get (c.clock n) unit sequence
    Prog.modify fun t => ({ t.1 with cache := some cache },t.2)
    return hit

def fetch (unit : ℕ) : Io Engine EngineError Found := do
  match ← onVolume (Volume.readCt unit) with
  | none => return .zero
  | some (sequence,ciphertext) => return .sealed sequence ciphertext

/-- A unit's current version, from the cache if it has it. With `verify_on_hit` the payload is read
and checked first, and the cache only saves the decryption. -/
def lookup (unit : ℕ) : Io Engine EngineError Found := do
  let (s,_) ← Prog.get
  if s.cache.isSome && !c.cacheVerifyOnHit then
    match ← onVolume (Volume.currentSequence unit) with
    | none => return .zero
    | some sequence =>
      match ← cacheGet c unit sequence with
      | some data => return .cached data
      | none => fetch unit
  else
    match ← fetch unit with
    | .sealed sequence ciphertext =>
      match ← cacheGet c unit sequence with
      | some data => return .cached data
      | none => return .sealed sequence ciphertext
    | found => return found

def runBatches {α β : Type} (call : ℕ → List α → Except CryptoError (List β)) (batches : List (List α)) :
    Io Engine EngineError (List (List β)) :=
  Prog.traverse batches fun batch => do
    pause c
    let n ← ask
    Prog.ofExcept ((call n batch).mapError .Crypto)

/-- Plaintext by unit; every unit must have the volume's size. -/
def collect (unitSize : ℕ) (m : Std.TreeMap ℕ Bytes) :
    List PlaintextUnit → Except EngineError (Std.TreeMap ℕ Bytes)
  | [] => .ok m
  | pt::rest =>
    if pt.data.length ≠ unitSize then
      .error (.Crypto (.Contract
        s!"decrypt of unit {pt.unitIndex} returned {pt.data.length} bytes, volume unit size is {unitSize}"))
    else collect unitSize (m.insert pt.unitIndex pt.data) rest

def decryptUnits (cts : List CiphertextUnit) : Io Engine EngineError (Std.TreeMap ℕ Bytes) := do
  if cts.isEmpty then return ∅
  else
    let batches ← runBatches c c.provider.decryptBatch (decryptBatches c.caps c.params.unitSize cts)
    Prog.ofExcept (collect c.params.unitSize ∅ batches.flatten)

def unitRange (unitSize offset len : ℕ) : List ℕ :=
  List.range' (offset/unitSize) ((offset+len-1)/unitSize-offset/unitSize+1)

def sealedUnits (found : List (ℕ × Found)) : List CiphertextUnit := found.filterMap fun p => p.2.ciphertext? p.1

def cachedUnit (found : List (ℕ × Found)) (unit : ℕ) : Option Bytes := (found.lookup unit).bind Found.cached?

def sequenceOf (found : List (ℕ × Found)) (unit : ℕ) : Option ℕ := (found.lookup unit).bind Found.sequence?

/-- Keep what was decrypted, in the order the map is iterated. -/
def cachePut (found : List (ℕ × Found)) (plain : Std.TreeMap ℕ Bytes) : Io Engine EngineError Unit :=
  Prog.forEach (HashOrder.order plain.keys) fun unit => do
    let n ← ask
    match sequenceOf found unit,plain[unit]? with
    | some sequence,some data => mapCache (·.put (c.clock n) unit sequence data)
    | _,_ => return ()

def window (unitSize offset len unit : ℕ) (buf : Option Bytes) : Bytes :=
  let unitStart := unit*unitSize
  let start := max offset unitStart-unitStart
  let stop := min (offset+len) (unitStart+unitSize)-unitStart
  ((buf.getD (List.replicate unitSize 0)).drop start).take (stop-start)

def readSecretInner (offset len : ℕ) : Io Engine EngineError Bytes := do
  Prog.ofExcept ((c.params.checkRange offset len).mapError .Core)
  checkFreshness
  pause c
  let units := unitRange c.params.unitSize offset len
  let looked ← Prog.traverse units (lookup c)
  let found := units.zip looked
  let plain ← decryptUnits c (sealedUnits found)
  pause c
  cachePut c found plain
  return (units.map fun unit =>
    window c.params.unitSize offset len unit (plain[unit]?.or (cachedUnit found unit))).flatten

end Reading

section Journal

/-- The tombstones that are needed: a unit that is proved unwritten has none. -/
def neededTombstones : List CiphertextUnit → Io Engine EngineError (List CiphertextUnit)
  | [] => Prog.pure []
  | ct::rest => do
    let zero ← onVolume (Volume.reclaimUnwritten ct.unitIndex)
    let needed ← neededTombstones rest
    return if zero then needed else ⟨ct.unitIndex,[]⟩::needed

def checkReserve (free : Option ℕ) (cts : List CiphertextUnit) (footprint : ℕ) : Except EngineError Unit :=
  let reserve := c.policy.emergencyReserveBytes
  let lowSpace := c.policy.lowSpaceCheckpointBytes
  let headroom := if cts.all (·.data.isEmpty) then 0 else lowSpace
  if reserve = 0 then .ok ()
  else
    match checkedAdd reserve headroom with
    | none => .error (.StorageFull
        s!"emergency reserve {reserve} plus checkpoint headroom {lowSpace} exceeds free-space accounting range")
    | some reserved =>
      match checkedAdd reserved footprint with
      | none => .error (.StorageFull
          s!"reserves {reserved} plus journal append footprint {footprint} exceeds free-space accounting range")
      | some required =>
        match free with
        | none => .error (.StorageFull "backing free space unavailable while emergency reserve is enabled")
        | some free =>
          if free < required then .error (.StorageFull
            s!"backing free space {free} below required {required} bytes (emergency reserve {reserve} + checkpoint headroom {headroom} + journal append footprint {footprint})")
          else .ok ()

/-- Every unit ends up with a durable copy of its latest version, which is charged at once. -/
def overOverlay (v : Volume) (cts : List CiphertextUnit) : Bool :=
  let payload := (cts.map fun ct => ct.data.length).sum
  (c.maxOverlayBytes > 0 && saturatingAdd (max v.overlay.bytes (saturatingMul v.overlay.latestBytes 2))
    (saturatingMul payload 2) > c.maxOverlayBytes) ||
  (c.maxOverlayEntries > 0 && saturatingAdd v.overlay.units.size cts.length > c.maxOverlayEntries)

/-- Admission of a request to the journal; `false` if it has to be reclaimed first. -/
def admitJournal (cts : List CiphertextUnit) (reclaimed lastRound : Bool) : Io Engine EngineError Bool := do
  let n ← ask
  let (s,_) ← Prog.get
  let v := s.volume
  let exhausted : Bool := reclaimed &&
    (lastRound || v.checkpointSequence ≥ v.journal.appendedSequence)
  let footprint := v.journal.appendFootprint (cts.map recordLen)
  Prog.ofExcept (checkReserve c (c.backingFreeBytes n) cts footprint)
  if overOverlay c v cts then
    if exhausted then Prog.throw (.StorageFull
      s!"overlay at its limit ({v.overlay.bytes} bytes / {v.overlay.units.size} units held, limits {c.maxOverlayBytes} bytes / {c.maxOverlayEntries} units) and cannot be reclaimed")
    else do
      syncJournal
      return false
  else if saturatingAdd v.journal.totalBytes footprint > c.policy.journalMaxBytes then
    if exhausted then Prog.throw (.StorageFull
      s!"journal at hard limit {c.policy.journalMaxBytes} bytes and cannot be reclaimed")
    else do
      syncJournal
      return false
  else return true

def recordOf (ct : CiphertextUnit) : Volume.Request :=
  if ct.data.isEmpty then .discard ct.unitIndex false else .write ct.unitIndex ct.data false

/-- Journal one record of a request; no cached plaintext of its unit is current any more. -/
def journalUnit (ct : CiphertextUnit) : Io Engine EngineError Unit := do
  let (s,_) ← Prog.get
  Prog.when (saturatingAdd s.volume.journal.pendingBytes (recordLen ct) > c.policy.maxPendingBytes)
    syncJournal
  serve (recordOf ct)
  mapCache (·.invalidate ct.unitIndex)

def appendRecords (cts : List CiphertextUnit) (fua : Bool) : Io Engine EngineError Bool := do
  Prog.forEach cts (journalUnit c)
  Prog.when fua syncJournal
  return true

/-- All records of a request are writes, or all are tombstones. -/
def neededRecords (cts : List CiphertextUnit) : Io Engine EngineError (List CiphertextUnit) :=
  if cts.head?.any (·.data.isEmpty) then neededTombstones cts else Prog.pure cts

def admitRecords (cts : List CiphertextUnit) (reclaimed lastRound : Bool) : Io Engine EngineError Bool :=
  if cts.isEmpty then Prog.pure true else admitJournal c cts reclaimed lastRound

def journalRequest (cts : List CiphertextUnit) (fua reclaimed lastRound : Bool) :
    Io Engine EngineError Bool := do
  let cts ← neededRecords cts
  let admitted ← admitRecords c cts reclaimed lastRound
  if admitted then appendRecords c cts fua else return false

def publishRounds (cts : List CiphertextUnit) (fua : Bool) : Bool → ℕ → Io Engine EngineError Unit
  | _,0 => Prog.throw (.Core (.Panic "the last unsuccessful admission round returns ENOSPC"))
  | reclaimed,left+1 => do
    pause c
    let written ← journalRequest c cts fua reclaimed (left = 0)
    if written then return ()
    else do
      let _ ← checkpoint c
      publishRounds cts fua true left

def publishCiphertexts (cts : List CiphertextUnit) (fua : Bool) : Io Engine EngineError Unit :=
  publishRounds c cts fua false (maxReclaimRounds+1)

end Journal

section Requests

/-- A ciphertext the volume cannot hold never reaches the journal. -/
def checkCiphertexts (cts : List CiphertextUnit) : Except EngineError Unit :=
  let maxCt := c.params.geometry.maxCiphertextSize
  match cts.find? fun ct => ct.data.isEmpty || ct.data.length > maxCt with
  | some bad => .error (.Crypto (.Contract
      s!"encrypt of unit {bad.unitIndex} returned {bad.data.length} bytes, volume maximum is {maxCt}"))
  | none => .ok ()

def writeAdmitted (offset : ℕ) (data : WriteInput) (fua : Bool) : Io Engine EngineError Unit := do
  checkFreshness
  pause c
  let units := unitRange c.params.unitSize offset data.len
  -- Only a unit that is covered in part is read.
  let needRmw := units.filter fun unit => !c.params.full offset data.len unit
  let looked ← Prog.traverse needRmw (lookup c)
  let found := needRmw.zip looked
  let existing ← decryptUnits c (sealedUnits found)
  let items := units.map fun unit => PlaintextUnit.mk unit
    (c.params.unitBuffer offset data unit ((cachedUnit found unit).or existing[unit]?))
  let batches ← runBatches c c.provider.encryptBatch (encryptBatches c.caps items)
  Prog.ofExcept (checkCiphertexts c batches.flatten)
  publishCiphertexts c batches.flatten fua

def writeInner (offset : ℕ) (data : Bytes) (fua : Bool) : Io Engine EngineError Unit := do
  Prog.ofExcept ((c.params.checkRange offset data.length).mapError .Core)
  writeAdmitted c offset (.Borrowed data) fua

def writeZeroes (offset len : ℕ) (fua : Bool) : Io Engine EngineError Unit := do
  Prog.ofExcept ((c.params.checkRange offset len).mapError .Core)
  writeAdmitted c offset (.Zeroes len) fua

def trimUnits (first last : ℕ) (fua : Bool) : Io Engine EngineError Unit := do
  checkFreshness
  publishCiphertexts c ((List.range' first (last+1-first)).map fun unit => ⟨unit,[]⟩) fua

def flushInner : Io Engine EngineError Unit := do
  checkFreshness
  pause c
  syncJournal

/-- Discard the complete units of the range; only the last chunk is synced. -/
def trimInner (offset len : ℕ) (fua : Bool) : Io Engine EngineError Unit := do
  Prog.ofExcept ((c.params.check (.trim offset len)).mapError .Core)
  let stop := c.params.trimEnd offset len
  if c.params.trimFirst offset ≥ stop then
    if fua then flushInner c else checkFreshness
  else Prog.forEach (c.params.chunks (.trim offset len)) fun chunk =>
    trimUnits c chunk.1 chunk.2 (fua && chunk.2+1 = stop)

end Requests
end Calls

inductive Request where
  | read (offset len : ℕ)
  | write (offset : ℕ) (data : Bytes) (fua : Bool)
  | writeZeroes (offset len : ℕ) (fua : Bool)
  | trim (offset len : ℕ) (fua : Bool)
  | flush
  | checkpoint
  deriving DecidableEq

def Request.run [Crc32] [DefaultHasher] [HashOrder] (c : EngineInner) : Request → Io Engine EngineError Bytes
  | .read offset len => readSecretInner c offset len
  | .write offset data fua => do
    writeInner c offset data fua
    return []
  | .writeZeroes offset len fua => do
    Engine.writeZeroes c offset len fua
    return []
  | .trim offset len fua => do
    trimInner c offset len fua
    return []
  | .flush => do
    flushInner c
    return []
  | .checkpoint => do
    let _ ← Engine.checkpoint c
    return []

end Engine
end Maki
