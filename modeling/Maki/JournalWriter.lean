import Maki.JournalScan

/-! The ordered ciphertext journal writer (`maki_core::journal`). Its invariant checks run in
debug builds only; they are the predicate `CheckInvariants` here and no part of the calls. -/
namespace Maki

/-- The segment size the writer actually rolls at for a configured value. -/
def effectiveSegmentSize (configured : ℕ) : ℕ := max configured (segmentHeaderSize+64)

structure ActiveSegment where
  info : SegmentInfo
  file : InodeId
  writeOffset : ℕ
  syncedOffset : ℕ
  unsynced : Bool
  /-- The visible file may extend beyond the last accepted record. -/
  needsTailCleanup : Bool
  /-- A failed sync left the accepted bytes clean and unpersisted. -/
  needsRedirty : Bool
  /-- What the pending fingerprint covers: the records accepted after `syncedOffset`. -/
  pending : Bytes
  deriving DecidableEq

namespace ActiveSegment

def synced (a : ActiveSegment) : ActiveSegment :=
  { a with
    unsynced := false, needsTailCleanup := false, needsRedirty := false, pending := []
    syncedOffset := a.writeOffset }

def accept (a : ActiveSegment) (bytes : Bytes) : ActiveSegment :=
  { a with
    pending := a.pending ++ bytes
    writeOffset := a.writeOffset+bytes.length
    info := { a.info with
      recordCount := a.info.recordCount+1, size := a.writeOffset+bytes.length }
    unsynced := true
    needsTailCleanup := false }

end ActiveSegment

structure JournalWriter where
  volumeUuid : BitVec 128
  segmentSize : ℕ
  nextSequence : ℕ
  appendedSequence : ℕ
  durableSequence : ℕ
  sealed : List SegmentInfo
  active : Option ActiveSegment
  nextSegmentIndex : ℕ
  creationCleanup : Option ℕ
  mark : Option InodeId
  proof : DurableProof
  holesAllowedBelow : ℕ
  syncFailures : ℕ
  deriving DecidableEq

/-- Read a range back and rewrite it chunk by chunk; the bytes read. -/
def rewriteRange {μ : Type} (file : InodeId) (offset len : ℕ) : Io μ ErrorKind Bytes :=
  if len = 0 then Prog.pure []
  else
    Prog.bind (Io.readAt file offset (min len readChunk)) fun chunk =>
      Prog.bind (Io.writeAt file offset chunk) fun _ =>
        Prog.bind (rewriteRange file (offset+min len readChunk) (len-min len readChunk)) fun rest =>
          Prog.pure (chunk ++ rest)
termination_by len
decreasing_by
  simp only [readChunk]
  omega

/-- Redirty an accepted range and verify that its bytes still match their fingerprint. -/
def rewriteVerifiedRange {μ : Type} [DefaultHasher] (file : InodeId) (start stop : ℕ)
    (expected : UInt64) : Io μ CoreError Unit :=
  Prog.bind (coreIo (rewriteRange file start (stop-start))) fun bytes =>
    if DefaultHasher.finish bytes ≠ expected then
      Prog.throw (.Corrupt
        "journal bytes changed after validation; refusing a durability acknowledgement")
    else Prog.pure ()

/-- `FormatError::Io` of a proof advance stays an I/O error. -/
def advanceError : FormatError → CoreError
  | .Io kind => .Io kind
  | error => .Format error

namespace JournalWriter

/-- Resume after recovery; appends start a fresh segment. -/
def resume (volumeUuid : BitVec 128) (segmentSize durableSequence nextSegmentIndex : ℕ)
    (sealed : List SegmentInfo) (proof : DurableProof) : JournalWriter where
  volumeUuid := volumeUuid
  segmentSize := effectiveSegmentSize segmentSize
  nextSequence := durableSequence+1
  appendedSequence := durableSequence
  durableSequence := durableSequence
  sealed := sealed
  active := none
  nextSegmentIndex := nextSegmentIndex
  creationCleanup := none
  mark := none
  proof := proof
  holesAllowedBelow := 0
  syncFailures := 0

def allowCoveredHolesBelow (w : JournalWriter) (checkpointSequence : ℕ) : JournalWriter :=
  { w with holesAllowedBelow := checkpointSequence }

def mapActive (f : ActiveSegment → ActiveSegment) (w : JournalWriter) : JournalWriter :=
  { w with active := w.active.map f }

/-- A sync or a proof publication failed: the accepted range must be redirtied. -/
def noteSyncFailure (w : JournalWriter) : JournalWriter :=
  { w.mapActive fun a => { a with needsRedirty := true } with syncFailures := w.syncFailures+1 }

def noteSynced (w : JournalWriter) : JournalWriter :=
  { w.mapActive ActiveSegment.synced with durableSequence := w.appendedSequence }

def retire (w : JournalWriter) : JournalWriter :=
  { w with
    sealed := w.sealed ++ (w.active.map ActiveSegment.info).toList
    active := none }

def update {ε : Type} (f : JournalWriter → JournalWriter) : Io JournalWriter ε Unit :=
  Prog.modify fun s => (f s.1,s.2)

section Calls

variable [Crc32] [DefaultHasher]

def openMark : Io JournalWriter CoreError Unit := do
  let (w,_) ← Prog.get
  match w.mark with
  | some _ => return ()
  | none =>
    match ← Prog.attempt (Io.openFile .journalDurableMark true) with
    | .ok file => update fun w => { w with mark := some file }
    | .error _ => return ()

/-- Best effort and never synced: a mark can only make recovery stricter. -/
def writeMark (mark : DurableMark) : Io JournalWriter CoreError Unit := do
  openMark
  let (w,_) ← Prog.get
  match w.mark with
  | none => return ()
  | some file =>
    let _ ← Prog.attempt (Io.writeAt file 0 mark.encode)
    return ()

def truncateTail (a : ActiveSegment) : Io JournalWriter CoreError Unit := do
  coreIo (Io.fp "journal.tail.truncate")
  coreIo (Io.setLen a.file a.writeOffset)

def redirty (a : ActiveSegment) : Io JournalWriter CoreError Unit := do
  coreIo (Io.fp "journal.rewrite")
  rewriteVerifiedRange a.file a.syncedOffset a.writeOffset (DefaultHasher.finish a.pending)

/-- Publish the synced horizon in both copies of the durable proof. -/
def publishProof (a : ActiveSegment) : Io JournalWriter CoreError Unit := do
  let (w,_) ← Prog.get
  if w.appendedSequence > w.proof.durableSequence ∧ a.info.recordCount > 0 then
    let candidate := { w.proof with
      durableSequence := w.appendedSequence, segmentIndex := a.info.index
      durableSize := a.writeOffset }
    let (_,candidate) ← Prog.onError
      (Prog.mapErr advanceError (Io.withLocal candidate DurableProofStore.advance))
      fun s => (s.1.noteSyncFailure,s.2)
    update fun w => { w with proof := candidate }
  else return ()

/-- Sync the active segment's pending records and publish the durable mark. -/
def syncActive : Io JournalWriter CoreError Unit := do
  let (w,_) ← Prog.get
  match w.active with
  | none => return ()
  | some a =>
    if a.unsynced = false ∧ a.needsTailCleanup = false then return ()
    else
      Prog.when (a.needsTailCleanup || a.needsRedirty) (truncateTail a)
      Prog.when a.needsRedirty (redirty a)
      coreIo (Io.fp "journal.sync")
      Prog.onError (coreIo (Io.syncData a.file)) fun s => (s.1.noteSyncFailure,s.2)
      publishProof a
      update noteSynced
      writeMark ⟨a.info.index,a.writeOffset⟩

/-- On a sync failure the segment stays active, so a later barrier still covers it. -/
def sealActive : Io JournalWriter CoreError Unit := do
  syncActive
  update retire

/-- Make a failed creation's removal durable before a barrier or index reuse. -/
def cleanupFailedCreation : Io JournalWriter CoreError Unit := do
  let (w,_) ← Prog.get
  match w.creationCleanup with
  | none => return ()
  | some index =>
    let _ ← coreIo (Io.optional .NotFound (Io.remove (.journalSegment index)))
    coreIo (Io.syncDir .journal)
    update fun w => { w with creationCleanup := none }

/-- Create, header, fdatasync, directory sync: no record precedes them. -/
def createSegment (header : SegmentHeader) : Io JournalWriter CoreError InodeId := do
  coreIo (Io.fp "journal.segment.create")
  let file ← coreIo (Io.openFile (.journalSegment header.segmentIndex) true)
  coreIo (Io.setLen file 0)
  coreIo (Io.allocateRange file 0 segmentHeaderSize)
  coreIo (Io.writeAt file 0 header.encode)
  coreIo (Io.fp "journal.segment.header_sync")
  coreIo (Io.syncData file)
  coreIo (Io.fp "journal.segment.dirsync")
  coreIo (Io.syncDir .journal)
  return file

def freshSegment (index baseSequence : ℕ) (file : InodeId) : ActiveSegment where
  info := ⟨index,baseSequence,0,segmentHeaderSize⟩
  file := file
  writeOffset := segmentHeaderSize
  syncedOffset := segmentHeaderSize
  unsynced := false
  needsTailCleanup := false
  needsRedirty := false
  pending := []

def startSegment (index nextSegmentIndex : ℕ) : Io JournalWriter CoreError Unit := do
  let (w,_) ← Prog.get
  match ← Prog.attempt (createSegment ⟨index,w.volumeUuid,w.nextSequence⟩) with
  | .ok file =>
    update fun w => { w with
      nextSegmentIndex := nextSegmentIndex
      active := some (freshSegment index w.nextSequence file) }
    writeMark ⟨index,segmentHeaderSize⟩
  | .error e =>
    update fun w => { w with creationCleanup := some index }
    let _ ← Prog.attempt (ε := CoreError) cleanupFailedCreation
    Prog.throw e

def roll : Io JournalWriter CoreError Unit := do
  let (w,_) ← Prog.get
  match checkedAdd w.nextSegmentIndex 1 with
  | none => Prog.throw (.Corrupt "journal segment index exhausted")
  | some nextSegmentIndex =>
    cleanupFailedCreation
    sealActive
    startSegment w.nextSegmentIndex nextSegmentIndex

def needsRoll (w : JournalWriter) (payloadLen : ℕ) : Bool :=
  match w.active with
  | none => true
  | some a => a.info.recordCount > 0 && a.writeOffset+(32+payloadLen) > w.segmentSize

/-- The counters an append needs: the sequence after it and whether it rolls first. -/
def checkAppend (w : JournalWriter) (payloadLen : ℕ) : Except CoreError (ℕ × Bool) :=
  match checkedAdd w.nextSequence 1 with
  | none => .error (.Corrupt "journal sequence exhausted")
  | some nextSequence =>
    if w.needsRoll payloadLen ∧ w.nextSegmentIndex = u64Max then
      .error (.Corrupt "journal segment index exhausted")
    else .ok (nextSequence,w.needsRoll payloadLen)

/-- Write one record behind the accepted ones. Cleanup stays armed while the file may have
been extended. -/
def appendRecord (r : JournalRecord) (nextSequence : ℕ) : Io JournalWriter CoreError ℕ := do
  let (w,_) ← Prog.get
  match w.active with
  | none => Prog.throw (.Panic "active segment after roll")
  | some a =>
    let bytes := encodeRecord r
    Prog.when a.needsTailCleanup (truncateTail a)
    update (mapActive fun a => { a with needsTailCleanup := true })
    coreIo (Io.allocateRange a.file a.writeOffset bytes.length)
    coreIo (Io.fp "journal.append.write")
    coreIo (Io.writeAt a.file a.writeOffset bytes)
    update fun w => { w.mapActive (·.accept bytes) with
      nextSequence := nextSequence, appendedSequence := r.sequence }
    return r.sequence

def append (unitIndex : ℕ) (payload : Bytes) : Io JournalWriter CoreError ℕ := do
  let (w,_) ← Prog.get
  let (nextSequence,rolls) ← Prog.ofExcept (w.checkAppend payload.length)
  Prog.when rolls roll
  appendRecord ⟨w.nextSequence,unitIndex,payload⟩ nextSequence

def sync : Io JournalWriter CoreError ℕ := do
  cleanupFailedCreation
  syncActive
  update fun w => { w with durableSequence := w.appendedSequence }
  let (w,_) ← Prog.get
  return w.durableSequence

def removeSegment (s : SegmentInfo) : Io JournalWriter CoreError Unit := do
  coreIo (Io.fp "checkpoint.segment_delete")
  coreIo (Io.remove (.journalSegment s.index))

/-- Delete covered segments until one cannot be: what is kept, how many were deleted and
the first error. -/
def deleteSegments (checkpointSequence : ℕ) : List SegmentInfo → Option CoreError →
    Io JournalWriter CoreError (List SegmentInfo × ℕ × Option CoreError)
  | [], error => return ([],0,error)
  | s::rest, error =>
    if s.lastSequence ≤ checkpointSequence ∧ error = none then do
      match ← Prog.attempt (removeSegment s) with
      | .ok _ =>
        let (kept,deleted,error) ← deleteSegments checkpointSequence rest none
        return (kept,deleted+1,error)
      | .error e =>
        let (kept,deleted,error) ← deleteSegments checkpointSequence rest (some e)
        return (s::kept,deleted,error)
    else do
      let (kept,deleted,error) ← deleteSegments checkpointSequence rest error
      return (s::kept,deleted,error)

def deleteCovered (checkpointSequence : ℕ) : Io JournalWriter CoreError ℕ := do
  cleanupFailedCreation
  let (w,_) ← Prog.get
  let (kept,deleted,error) ← deleteSegments checkpointSequence w.sealed none
  update fun w => { w with sealed := kept }
  match error with
  | some e => Prog.throw e
  | none => return deleted

end Calls

/-- One pass over the segments, the active one last: indexes increase below the next one,
bases are contiguous up to covered holes, sealed records are durable. -/
def CheckSegments (w : JournalWriter) : Option ℕ → Option ℕ → List (SegmentInfo × Bool) → Prop
  | _, _, [] => True
  | prevIndex, expectedBase, (s,isActive)::rest =>
    (∀ p ∈ prevIndex, p < s.index) ∧ s.index < w.nextSegmentIndex ∧
      (∀ base ∈ expectedBase, s.baseSequence = base ∨
        (base ≤ w.holesAllowedBelow+1 ∧ s.baseSequence ≤ w.holesAllowedBelow+1)) ∧
      segmentHeaderSize ≤ s.size ∧
      (isActive = false → 0 < s.recordCount → s.lastSequence ≤ w.durableSequence) ∧
      CheckSegments w (some s.index) (some (s.baseSequence+s.recordCount)) rest

def CheckActive (w : JournalWriter) (d : Disk) (a : ActiveSegment) : Prop :=
  a.info.baseSequence+a.info.recordCount = w.nextSequence ∧ a.writeOffset = a.info.size ∧
    a.syncedOffset ≤ a.writeOffset ∧
    (a.needsTailCleanup = false → (d.inodes a.file).image.length = a.writeOffset) ∧
    (a.unsynced = true → a.syncedOffset < a.writeOffset) ∧
    (a.unsynced = false → a.syncedOffset = a.writeOffset ∧
      w.durableSequence = w.appendedSequence)

def CheckInvariants (w : JournalWriter) (d : Disk) : Prop :=
  (∀ index ∈ w.creationCleanup, w.active = none ∧ index = w.nextSegmentIndex) ∧
    w.durableSequence ≤ w.appendedSequence ∧ w.nextSequence = w.appendedSequence+1 ∧
    w.CheckSegments none none
      (w.sealed.map (·,false) ++ (w.active.map fun a => (a.info,true)).toList) ∧
    (∀ a ∈ w.active, w.CheckActive d a) ∧
    (w.active = none → w.durableSequence = w.appendedSequence)

end JournalWriter
end Maki
