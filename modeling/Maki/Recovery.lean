import Maki.JournalWriter
import Maki.SlotStore
import Maki.CheckpointState

/-! Recovery before a volume is exposed (`maki_core::recovery`): load the metadata, scan the
journal, apply the repairs, make what the scan accepted durable, and checkpoint the records
the slots do not have yet in batches of bounded size. The volume lock is not modelled. -/
namespace Maki

structure Recovered where
  superblock : Superblock
  store : SlotStore
  checkpointState : CheckpointState
  durableSequence : ℕ
  durableProof : DurableProof
  nextSegmentIndex : ℕ
  segments : List SegmentInfo
  replay : List JournalRecord

/-- A target for grouped records, not a cap on a single record. -/
def replayBatchBytes : ℕ := 1 <<< 20

def saturatingAdd (a b : ℕ) : ℕ := min (a+b) u64Max

section

variable {μ α : Type}

def recoveryFormat (p : Io μ FormatError α) : Io μ RecoveryError α := Prog.mapErr .Format p
def recoveryCore (p : Io μ CoreError α) : Io μ RecoveryError α := Prog.mapErr .ofCore p

/-- An initialized volume always has a valid copy. -/
def loadCheckpointState [Crc32] : Io μ RecoveryError CheckpointState := do
  match ← recoveryFormat (CheckpointState.store.load CheckpointState) with
  | some state => return state
  | none => Prog.throw (.Corrupt "no valid checkpoint state copy")

def storeCheckpointState [Crc32] (state : CheckpointState) : Io μ RecoveryError CheckpointState := do
  let (_,state) ← recoveryFormat (Io.withLocal state (CheckpointState.store.store CheckpointState))
  recoveryIo (Io.syncDir .checkpoint)
  return state

def applyRepair : JournalRepair → Io μ RecoveryError Unit
  | .Discard path => do
    recoveryIo (Io.remove path)
    recoveryIo (Io.syncDir .journal)
  | .Truncate path len => do
    let file ← recoveryIo (Io.openFile path false)
    recoveryIo (Io.setLen file len)
    recoveryIo (Io.syncData file)

def rewritePrefix [DefaultHasher] (pre : VerifiedPrefix) : Io μ RecoveryError Unit := do
  let file ← recoveryIo (Io.openFile pre.path false)
  recoveryIo (Io.setLen file pre.len)
  recoveryCore (rewriteVerifiedRange file 0 pre.len pre.fingerprint)
  recoveryIo (Io.syncData file)

def publishMark [Crc32] (segments : List SegmentInfo) : Io μ RecoveryError Unit := do
  match segments.getLast? with
  | none => return ()
  | some last =>
    recoveryIo (Io.syncDir .journal)
    let file ← recoveryIo (Io.openFile .journalDurableMark true)
    recoveryIo (Io.writeAt file 0 (DurableMark.mk last.index last.size).encode)
    recoveryIo (Io.syncData file)

/-- The proof recovery publishes: every accepted tail is durable from now on. -/
def recoveredProof (proof : DurableProof) (checkpointSequence : ℕ) (scan : JournalScan) :
    Except RecoveryError DurableProof :=
  if scan.durableSequence > proof.durableSequence then
    match scan.segments.reverse.find? fun s =>
        s.recordCount > 0 && s.lastSequence = scan.durableSequence with
    | some last =>
      .ok { proof with
        durableSequence := scan.durableSequence, segmentIndex := last.index, durableSize := last.size }
    | none =>
      if scan.durableSequence > checkpointSequence then
        .error (.Corrupt "recovered durable horizon has no journal boundary")
      else .ok proof
  else .ok proof

end

def latestSequences (records : List JournalRecord) : Std.TreeMap ℕ ℕ :=
  records.foldl (fun m r => m.insert r.unitIndex r.sequence) ∅

/-- The records of a batch that write a slot: superseded ciphertext is skipped, and a latest
discard suppresses earlier writes as well. -/
def latestWrites (allowDiscard : Bool) (records : List JournalRecord) : List JournalRecord :=
  records.filter fun r => (latestSequences records)[r.unitIndex]? = some r.sequence &&
    (!allowDiscard || !r.payload.isEmpty)

section Replay

variable [Crc32] [HashOrder]

def applyReplayBatch (allowDiscard : Bool) (records : List JournalRecord) :
    Io SlotStore CoreError Unit :=
  if records.isEmpty then Prog.pure ()
  else do
    let writes := latestWrites allowDiscard records
    Prog.forEach writes fun r => SlotStore.writeSlot r.unitIndex r.sequence r.payload
    let (s,_) ← Prog.get
    Prog.forEach (s.shardsOfUnits (writes.map (·.unitIndex))) SlotStore.syncShardData
    -- Evidence of every accepted write, even where a later discard skipped its slot.
    Prog.forEach (records.filter fun r => !allowDiscard || !r.payload.isEmpty)
      fun r => SlotStore.markAllocated r.unitIndex
    Prog.when allowDiscard do
      Prog.forEach records fun r => SlotStore.setDiscarded r.unitIndex r.payload.isEmpty
      SlotStore.persistDiscards
    SlotStore.persistAllocations

/-- The store with the records not yet applied to it and their size. -/
structure ReplayBatch where
  store : SlotStore
  batch : List JournalRecord := []
  batchBytes : ℕ := 0

namespace ReplayBatch

def flush (allowDiscard : Bool) : Io ReplayBatch RecoveryError Unit := do
  let (b,_) ← Prog.get
  recoveryCore (Prog.zoom (fun t => (t.1.store,t.2)) (fun t r => ({ t.1 with store := r.1 },r.2))
    (applyReplayBatch allowDiscard b.batch))
  Prog.modify fun t => ({ t.1 with batch := [] },t.2)

def clearBytes : Io ReplayBatch RecoveryError Unit :=
  Prog.modify fun t => ({ t.1 with batchBytes := 0 },t.2)

/-- Take one record; a full batch is applied before the scanner reads on. -/
def push (limit : ℕ) (allowDiscard : Bool) (r : JournalRecord) : Io ReplayBatch RecoveryError Unit := do
  let recordBytes := saturatingAdd recordHeaderSize r.payload.length
  let (b,_) ← Prog.get
  Prog.when (!b.batch.isEmpty && saturatingAdd b.batchBytes recordBytes > limit) do
    flush allowDiscard
    clearBytes
  Prog.modify fun t => ({ t.1 with
    batch := t.1.batch ++ [r], batchBytes := saturatingAdd t.1.batchBytes recordBytes },t.2)
  let (b,_) ← Prog.get
  Prog.when (b.batchBytes ≥ limit) do
    flush allowDiscard
    clearBytes

end ReplayBatch

variable [DefaultHasher]

def changed {α : Type} (segment : SegmentInfo) : Io ReplayBatch RecoveryError α :=
  Prog.throw (.Corrupt s!"journal segment {segmentName segment.index} changed after validation")

def replayScanner (superblock : Superblock) (checkpointSequence : ℕ) (segment : SegmentInfo)
    (file : InodeId) (headerBytes : Bytes) : SegmentScanner where
  file := file
  header := headerBytes
  bodyLen := segment.size-segmentHeaderSize
  firstSequence := segment.baseSequence
  durableLen := segment.size-segmentHeaderSize
  requiredBoundary := none
  geometry := superblock.geometry
  checkpointSequence := checkpointSequence
  name := segmentName segment.index

/-- The body of an accepted segment, which must still scan as it did. -/
def replayBody (limit : ℕ) (allowDiscard : Bool) (superblock : Superblock) (checkpointSequence : ℕ)
    (segment : SegmentInfo) (file : InodeId) (headerBytes : Bytes) :
    Io ReplayBatch RecoveryError Unit :=
  if segment.size < segmentHeaderSize then
    Prog.throw (.Corrupt s!"journal segment {segmentName segment.index} is too short")
  else do
    let scanned ← (replayScanner superblock checkpointSequence segment file headerBytes).scan
      (ReplayBatch.push limit allowDiscard)
    Prog.when (scanned.recordCount ≠ segment.recordCount ∨
      scanned.validBodyBytes ≠ segment.size-segmentHeaderSize ∨ scanned.outcome ≠ .Clean)
        (changed segment)

def replaySegment (limit : ℕ) (allowDiscard : Bool) (superblock : Superblock)
    (checkpointSequence : ℕ) (segment : SegmentInfo) : Io ReplayBatch RecoveryError Unit := do
  let file ← recoveryIo (Io.openFile (.journalSegment segment.index) false)
  let headerBytes ← recoveryIo (Io.readAt file 0 segmentHeaderSize)
  match SegmentHeader.decode headerBytes with
  | .error e => Prog.throw (.Corrupt
      s!"journal segment {segmentName segment.index} changed after validation: {e.text}")
  | .ok decoded =>
    if decoded.segmentIndex ≠ segment.index ∨ decoded.baseSequence ≠ segment.baseSequence ∨
        decoded.volumeUuid ≠ superblock.volumeUuid then changed segment
    else replayBody limit allowDiscard superblock checkpointSequence segment file headerBytes

def replaySegments (limit : ℕ) (allowDiscard : Bool) (superblock : Superblock)
    (checkpointSequence : ℕ) (segments : List SegmentInfo) : Io ReplayBatch RecoveryError Unit := do
  Prog.forEach segments (replaySegment limit allowDiscard superblock checkpointSequence)
  ReplayBatch.flush allowDiscard

/-- Checkpoint the accepted records into the slots and delete their segments. -/
def checkpointValidatedReplay (limit : ℕ) (superblock : Superblock)
    (checkpointState : CheckpointState) (scan : JournalScan) :
    Io SlotStore RecoveryError CheckpointState := do
  let envelope ← recoveryFormat loadVolumeSuperblock
  let allowDiscard : Bool := envelope.metadataVersion = superblockVersionV3
  let (store,_) ← Prog.get
  let (_,b) ← Io.withLocal { store } (replaySegments limit allowDiscard superblock
    checkpointState.checkpointSequence scan.segments)
  Prog.modify fun t => (b.store,t.2)
  let state ← storeCheckpointState { checkpointState with checkpointSequence := scan.durableSequence }
  Prog.forEach scan.segments fun s => recoveryIo (Io.remove (.journalSegment s.index))
  recoveryIo (Io.syncDir .journal)
  return state

/-- The checkpoint state and the segments the writer resumes with; the discard copies are
restabilized even when there is no replay. -/
def settleReplay (limit : ℕ) (checkpointReplay : Bool) (superblock : Superblock)
    (checkpointState : CheckpointState) (scan : JournalScan) :
    Io SlotStore RecoveryError (CheckpointState × List SegmentInfo) := do
  let settled ←
    if checkpointReplay ∧ scan.durableSequence > checkpointState.checkpointSequence then do
      let state ← checkpointValidatedReplay limit superblock checkpointState scan
      Prog.pure (state,[])
    else Prog.pure (checkpointState,scan.segments)
  recoveryCore SlotStore.persistDiscards
  return settled

variable {μ : Type}

/-- Everything the scan accepted is durable from now on: the selected checkpoint state, the
repairs, the accepted prefixes, the mark and both copies of the proof. -/
def adoptScan (proof : DurableProof) (checkpointState : CheckpointState) (scan : JournalScan) :
    Io μ RecoveryError DurableProof := do
  let _ ← storeCheckpointState checkpointState
  Prog.forEach scan.repairs applyRepair
  Prog.forEach scan.verifiedPrefixes rewritePrefix
  publishMark scan.segments
  let proof ← Prog.ofExcept (recoveredProof proof checkpointState.checkpointSequence scan)
  let (_,proof) ← recoveryFormat (Io.withLocal proof DurableProofStore.advance)
  return proof

def legacyVolume : RecoveryError := .Format (.Unsupported
  "legacy v1 volume requires an explicit migration; writable recovery refuses it without changing recovery metadata")

def recoverWithReplay (limit segmentSize : ℕ) (replay : ReplayRecords) (checkpointReplay : Bool) :
    Io μ RecoveryError Recovered := do
  let envelope ← recoveryFormat loadVolumeSuperblock
  if envelope.metadataVersion ≠ superblockVersionV2 ∧
      envelope.metadataVersion ≠ superblockVersionV3 then Prog.throw legacyVolume
  else
    let superblock := envelope.superblock
    let proof ← recoveryFormat (DurableProofStore.load superblock.volumeUuid)
    let store ← recoveryCore (SlotStore.openStore superblock.geometry)
    let checkpointState ← loadCheckpointState
    let scan ← scanJournalWithProof superblock checkpointState.checkpointSequence segmentSize
      (some proof) replay
    let proof ← adoptScan proof checkpointState scan
    let ((checkpointState,segments),store) ← Io.withLocal store
      (settleReplay limit checkpointReplay superblock checkpointState scan)
    return {
      superblock, store, checkpointState, durableSequence := scan.durableSequence
      durableProof := proof, nextSegmentIndex := scan.nextSegmentIndex, segments
      replay := scan.replay }

/-- The public recovery: every uncovered record is kept in memory. -/
def recover (segmentSize : ℕ) : Io μ RecoveryError Recovered :=
  recoverWithReplay replayBatchBytes segmentSize (.All []) false

/-- Attach validates without keeping payloads, then checkpoints the accepted records through
a bounded working set. -/
def recoverBounded (segmentSize : ℕ) : Io μ RecoveryError Recovered :=
  recoverWithReplay replayBatchBytes segmentSize .Discard true

end Replay
end Maki
