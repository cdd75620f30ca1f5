import Maki.Overlay
import Maki.Recovery

/-! The ciphertext volume (`maki_core::volume`): journal, overlay, slot store and checkpoints.
The overlay is promoted after every journal call that can move the durable boundary, and
always before a newer version of a unit is published. The freshness authority of a plain
backing always agrees and is left out. -/
namespace Maki

structure Volume where
  superblock : Superblock
  journal : JournalWriter
  store : SlotStore
  overlay : Overlay
  ckState : CheckpointState

/-- A fixed checkpoint horizon whose slot destinations have been captured. -/
structure PreparedCheckpoint where
  baseCheckpoint : ℕ
  horizon : ℕ
  allowDiscard : Bool
  items : List (ℕ × OverlayVersion)
  slots : CheckpointSlotPlan
  deriving DecidableEq

structure CompletedCheckpoint where
  prepared : PreparedCheckpoint
  deriving DecidableEq

namespace PreparedCheckpoint

/-- The items that write a slot: a discard has none. -/
def written (p : PreparedCheckpoint) : List (ℕ × OverlayVersion) :=
  p.items.filter fun i => !(p.allowDiscard && i.2.ciphertext.isEmpty)

end PreparedCheckpoint

namespace Volume

def checkpointSequence (v : Volume) : ℕ := v.ckState.checkpointSequence
def supportsDiscard (v : Volume) : Bool := v.store.discardEnabled

def update {ε : Type} (f : Volume → Volume) : Io Volume ε Unit := Prog.modify fun t => (f t.1,t.2)

def onJournal {ε α : Type} (p : Io JournalWriter ε α) : Io Volume ε α :=
  Prog.zoom (fun t => (t.1.journal,t.2)) (fun t r => ({ t.1 with journal := r.1 },r.2)) p

def onStore {ε α : Type} (p : Io SlotStore ε α) : Io Volume ε α :=
  Prog.zoom (fun t => (t.1.store,t.2)) (fun t r => ({ t.1 with store := r.1 },r.2)) p

/-- `self.overlay.promote(self.journal.durable_sequence())`. -/
def promote (v : Volume) : Volume :=
  { v with overlay := v.overlay.promote v.journal.durableSequence }

def publish (unit sequence : ℕ) (ciphertext : Bytes) (v : Volume) : Volume :=
  { v with overlay := v.overlay.publish unit sequence ciphertext }

section Calls

variable [Crc32] [DefaultHasher] [HashOrder]

def recover {μ : Type} (journalSegmentSize : ℕ) : Io μ RecoveryError Volume := do
  let segmentSize := effectiveSegmentSize journalSegmentSize
  let r ← recoverBounded segmentSize
  let journal := JournalWriter.resume r.superblock.volumeUuid segmentSize r.durableSequence
    r.nextSegmentIndex r.segments r.durableProof
  let overlay : Overlay := r.replay.foldl (fun (o : Overlay) t => o.publish t.unitIndex t.sequence t.payload) {}
  return {
    superblock := r.superblock
    journal := journal.allowCoveredHolesBelow r.checkpointState.checkpointSequence
    store := r.store.scheduleReclamation
    overlay := overlay.promote r.durableSequence
    ckState := r.checkpointState }

/-- Journal a record and publish it: promote first, since an automatic roll may have moved
the durable boundary even when the append failed. -/
def journalRecord (unit : ℕ) (payload : Bytes) : Io Volume CoreError ℕ := do
  let appended ← Prog.attempt (onJournal (JournalWriter.append unit payload))
  update promote
  let sequence ← Prog.ofExcept appended
  update (publish unit sequence payload)
  update promote
  return sequence

def verifyDurable (what : String) (durable sequence : ℕ) : Except CoreError Unit :=
  if durable < sequence then
    .error (.Durability s!"{what} verify failed: durable {durable} < sequence {sequence}")
  else .ok ()

def forceUnitAccess (what : String) (sequence : ℕ) : Io Volume CoreError Unit := do
  let sync ← Prog.attempt (onJournal JournalWriter.sync)
  update promote
  let durable ← Prog.ofExcept sync
  Prog.ofExcept (verifyDurable what durable sequence)

def writeCt (unit : ℕ) (ciphertext : Bytes) (fua : Bool) : Io Volume CoreError ℕ := do
  let (v,_) ← Prog.get
  let _ ← Prog.ofExcept (v.journal.checkAppend ciphertext.length)
  if ciphertext.length > v.superblock.geometry.maxCiphertextSize then
    Prog.ofExcept (SlotStore.exceedsMax v.superblock.geometry ciphertext)
  else
    onStore (SlotStore.reserveSlot unit)
    let sequence ← journalRecord unit ciphertext
    Prog.when fua (forceUnitAccess "FUA" sequence)
    return sequence

/-- Skip a zero-only trim's record but keep its release hint; whether the unit is zero. -/
def reclaimUnwritten (unit : ℕ) : Io Volume CoreError Bool := do
  let (v,_) ← Prog.get
  match v.overlay.get unit with
  | some version => return version.ciphertext.isEmpty
  | none =>
    match ← Prog.attempt (v.store.slotSequence unit) with
    | .ok none =>
      onStore (SlotStore.reclaimUnwritten unit)
      return true
    | _ => return false

def barrier : Io Volume CoreError ℕ := do
  let durable ← onJournal JournalWriter.sync
  update fun v => { v with overlay := v.overlay.promote durable }
  return durable

def flush : Io Volume CoreError Unit := do
  let _ ← barrier
  return ()

/-- A unit whose newest version is a discard already. -/
def repeatDiscard (sequence : ℕ) (fua : Bool) : Io Volume CoreError ℕ := do
  Prog.when fua do
    let durable ← barrier
    Prog.ofExcept (verifyDurable "discard FUA" durable sequence)
  return sequence

def discardRecord (unit : ℕ) (fua : Bool) : Io Volume CoreError ℕ := do
  let (v,_) ← Prog.get
  if v.journal.nextSequence = u64Max then Prog.throw (.Corrupt "journal sequence exhausted")
  else
    let sequence ← journalRecord unit []
    Prog.when fua (forceUnitAccess "discard FUA" sequence)
    return sequence

/-- Journal a logical discard without reserving storage for a unit that is already zero. -/
def discardCt (unit : ℕ) (fua : Bool) : Io Volume CoreError ℕ := do
  let (v,_) ← Prog.get
  if !v.supportsDiscard then
    Prog.throw (.Invalid "discard requires a v3 discard-enabled volume")
  else if unit ≥ v.superblock.geometry.numUnits then
    Prog.throw (.Invalid s!"unit {unit} beyond the device")
  else
    match v.overlay.get unit with
    | some version =>
      if version.ciphertext.isEmpty then repeatDiscard version.sequence fua
      else discardRecord unit fua
    | none =>
      let zero ← reclaimUnwritten unit
      if zero then
        let (v,_) ← Prog.get
        return v.journal.appendedSequence
      else discardRecord unit fua

/-- The write sequence of a unit's current version; `none` for zeros. -/
def currentSequence (unit : ℕ) : Io Volume CoreError (Option ℕ) := do
  let (v,_) ← Prog.get
  match v.overlay.get unit with
  | some version =>
    if v.supportsDiscard && version.ciphertext.isEmpty then return none
    else return some version.sequence
  | none => v.store.slotSequence unit

/-- One unit's ciphertext: overlay first, then slots; `none` for zeros. -/
def readCt (unit : ℕ) : Io Volume CoreError (Option (ℕ × Bytes)) := do
  let (v,_) ← Prog.get
  match v.overlay.get unit with
  | some version =>
    if v.supportsDiscard && version.ciphertext.isEmpty then return none
    else return some (version.sequence,version.ciphertext)
  | none =>
    match ← v.store.readSlot unit with
    | .Zero => return none
    | .Ciphertext writeSequence data => return some (writeSequence,data)

/-- Capture a fixed durable horizon and its slot targets. -/
def prepareCheckpoint : Io Volume CoreError PreparedCheckpoint := do
  update promote
  let (v,_) ← Prog.get
  let durable := v.journal.durableSequence
  let base := v.checkpointSequence
  let items := if durable ≤ base then [] else v.overlay.collectDurable durable
  let slots ← onStore (SlotStore.checkpointSlotPlan
    ((items.filter fun i => !v.supportsDiscard || !i.2.ciphertext.isEmpty).map (·.1)))
  return {
    baseCheckpoint := base, horizon := max durable base, allowDiscard := v.supportsDiscard, items
    slots }

def execute (p : PreparedCheckpoint) : Io Volume CoreError CompletedCheckpoint := do
  Prog.forEach p.written.zipIdx fun ((_,version),index) => do
    coreIo (Io.fp "checkpoint.slot_write")
    p.slots.write index version.sequence version.ciphertext
  p.slots.syncShards
  let (v,_) ← Prog.get
  Prog.ofExcept (p.slots.validateReservationBarriers v.store.reservationFailures)
  return ⟨p⟩

/-- A failure of physical reclamation is logged and retried later; a panic is not caught. -/
def deferred {α : Type} (p : Io Volume CoreError α) : Io Volume CoreError (Except CoreError α) := do
  match ← Prog.attempt p with
  | .error (.Panic what) => Prog.throw (.Panic what)
  | result => return result

/-- One window of the reclamation scan; a unit with an overlay version is left alone. -/
def reclaimWindow : Io Volume CoreError Unit := do
  let (v,_) ← Prog.get
  let _ ← deferred (onStore (SlotStore.retryReclamation fun unit => (v.overlay.get unit).isNone))
  return ()

def syncJournalDir : Io Volume CoreError Unit := do
  coreIo (Io.fp "checkpoint.dirsync")
  coreIo (Io.syncDir .journal)

/-- Nothing new is durable: retire, repair and reclaim what an interrupted checkpoint left. -/
def finishIdle (base : ℕ) : Io Volume CoreError ℕ := do
  update fun v => { v with overlay := v.overlay.retire base }
  let (v,_) ← Prog.get
  Prog.when v.store.hasPendingRepairs do
    onStore SlotStore.persistDiscards
    onStore SlotStore.persistAllocations
  let deleted ← onJournal (JournalWriter.deleteCovered base)
  Prog.when (deleted > 0) syncJournalDir
  reclaimWindow
  return base

/-- Advance the checkpoint state; in memory only after the durable store succeeded. -/
def storeState (horizon : ℕ) : Io Volume CoreError Unit := do
  coreIo (Io.fp "checkpoint.state_store")
  let (v,_) ← Prog.get
  let (_,state) ← coreFormat (Io.withLocal { v.ckState with checkpointSequence := horizon }
    (CheckpointState.store.store CheckpointState))
  coreIo (Io.syncDir .checkpoint)
  update fun v => { v with ckState := state }

def punchRetired (punchable : List ℕ) : Io Volume CoreError Bool := do
  if punchable.isEmpty then return false
  else
    match ← deferred (onStore (SlotStore.punchSlots punchable)) with
    | .ok _ => return false
    | .error _ =>
      update fun v => { v with store := v.store.scheduleReclamation }
      return true

/-- The discarded units of a plan without a newer version. -/
def punchable (v : Volume) (p : PreparedCheckpoint) : List ℕ :=
  if p.allowDiscard then
    (p.items.filter fun i => i.2.ciphertext.isEmpty &&
      (v.overlay.get i.1).all fun latest => latest.sequence ≤ i.2.sequence).map (·.1)
  else []

def finishMaps (p : PreparedCheckpoint) : Io Volume CoreError Unit := do
  Prog.forEach p.written fun i => onStore (SlotStore.markAllocated i.1)
  Prog.when p.allowDiscard do
    Prog.forEach p.items fun i => onStore (SlotStore.setDiscarded i.1 i.2.ciphertext.isEmpty)
    onStore SlotStore.persistDiscards

def finishPlan (p : PreparedCheckpoint) : Io Volume CoreError ℕ := do
  finishMaps p
  let (v,_) ← Prog.get
  let retired := v.punchable p
  onStore SlotStore.persistAllocations
  storeState p.horizon
  let failed ← punchRetired retired
  let _ ← onJournal (JournalWriter.deleteCovered p.horizon)
  syncJournalDir
  update fun v => { v with overlay := v.overlay.retire p.horizon }
  Prog.when (!failed) reclaimWindow
  return p.horizon

def finishCheckpoint (completed : CompletedCheckpoint) : Io Volume CoreError ℕ := do
  let p := completed.prepared
  let (v,_) ← Prog.get
  Prog.ofExcept (p.slots.validateReservationBarriers v.store.reservationFailures)
  if v.checkpointSequence ≠ p.baseCheckpoint then
    Prog.throw (.Durability s!"stale checkpoint plan based at {p.baseCheckpoint}, current checkpoint is {v.checkpointSequence}")
  else if p.horizon ≤ p.baseCheckpoint then finishIdle p.baseCheckpoint
  else finishPlan p

def checkpoint : Io Volume CoreError ℕ := do
  let prepared ← prepareCheckpoint
  let completed ← execute prepared
  finishCheckpoint completed

end Calls

end Volume
end Maki
