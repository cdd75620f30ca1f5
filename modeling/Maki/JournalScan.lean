import Mathlib
import Maki.SegmentScan
import Maki.Superblock
import Maki.ProofStore

/-! The read-only journal scan of recovery (`maki_core::recovery`): it verifies every
segment, decides the repairs recovery applies and collects the records newer than the
checkpoint. -/
namespace Maki

structure SegmentInfo where
  index : ℕ
  baseSequence : ℕ
  recordCount : ℕ
  size : ℕ
  deriving DecidableEq

def SegmentInfo.lastSequence (s : SegmentInfo) : ℕ :=
  if s.recordCount > 0 then s.baseSequence+s.recordCount-1 else s.baseSequence-1

inductive JournalRepair where
  | Discard (path : Path)
  | Truncate (path : Path) (len : ℕ)
  deriving DecidableEq

structure VerifiedPrefix where
  path : Path
  len : ℕ
  fingerprint : UInt64
  deriving DecidableEq

/-- What a scan retains of the records it hands on. -/
inductive ReplayRecords where
  | All (records : List JournalRecord)
  | Discard
  | Units (units : Finset ℕ)
  deriving DecidableEq

namespace ReplayRecords

def push : ReplayRecords → JournalRecord → ReplayRecords
  | .All records, r => .All (records ++ [r])
  | .Discard, _ => .Discard
  | .Units units, r => .Units (insert r.unitIndex units)

def intoParts : ReplayRecords → List JournalRecord × Finset ℕ
  | .All records => (records,∅)
  | .Discard => ([],∅)
  | .Units units => ([],units)

end ReplayRecords

def pushRecord (r : JournalRecord) : Io ReplayRecords RecoveryError Unit :=
  Prog.modify fun s => (s.1.push r,s.2)

structure JournalScan where
  durableSequence : ℕ
  nextSegmentIndex : ℕ
  segments : List SegmentInfo
  replay : List JournalRecord
  replayUnits : Finset ℕ
  repairs : List JournalRepair
  mark : Option DurableMark
  verifiedPrefixes : List VerifiedPrefix
  deriving DecidableEq

/-- What the walk over the segments reads but does not change. -/
structure ScanContext where
  superblock : Superblock
  checkpointSequence : ℕ
  afterCheckpoint : ℕ
  maxFileSize : ℕ
  mark : Option DurableMark
  proof : Option DurableProof

/-- The variables the walk carries from segment to segment. -/
structure Walk where
  segments : List SegmentInfo := []
  repairs : List JournalRepair := []
  prevLastSeq : Option ℕ := none
  maxSeq : ℕ := 0
  finalMark : Option DurableMark := none
  verifiedPrefixes : List VerifiedPrefix := []
  requiredSeen : Bool := false

/-- `u64` subtraction without an overflow check. -/
def wrappingSub (a b : ℕ) : ℕ := if b ≤ a then a-b else a+2^64-b

def Walk.discard (w : Walk) (index : ℕ) : Walk :=
  { w with repairs := w.repairs ++ [.Discard (.journalSegment index)] }

namespace ScanContext

variable (ctx : ScanContext)

/-- The proof, when it reaches past the checkpoint. -/
def required : Option DurableProof :=
  ctx.proof.filter fun p => ctx.checkpointSequence < p.durableSequence

def requiredAt (index : ℕ) : Option DurableProof :=
  ctx.required.filter fun p => p.segmentIndex = index

def markAt (index : ℕ) : Option DurableMark := ctx.mark.filter fun m => m.segmentIndex = index

/-- How much of this segment the mark or the proof says is durable. -/
def markedDurable (index : ℕ) : Option ℕ :=
  let marked := (ctx.markAt index).map DurableMark.durableSize
  let proven := (ctx.proof.filter fun p => 0 < p.durableSequence ∧ p.segmentIndex = index).map
    DurableProof.durableSize
  (marked.toList ++ proven.toList).max?

def noteMark (isLast : Bool) (index : ℕ) (w : Walk) : Walk :=
  if isLast then { w with finalMark := ctx.markAt index } else w

/-- Whether the file is long enough for a header; a final one without evidence may be
shorter. -/
def checkLength (isLast : Bool) (index len : ℕ) : Except RecoveryError Bool :=
  let name := segmentName index
  if len > ctx.maxFileSize then
    .error (.Corrupt s!"journal segment {name}: size {len} exceeds maximum {ctx.maxFileSize}, larger than any journal segment a writer can produce")
  else if (ctx.markedDurable index).any fun durable => durable > len then
    .error (.Corrupt s!"journal segment {name}: durable mark covers {(ctx.markedDurable index).getD 0} bytes but file has {len}")
  else if len < segmentHeaderSize then
    if isLast ∧ ctx.markedDurable index = none then .ok false
    else .error (.Corrupt s!"journal segment {name}: truncated header in non-final or synced segment")
  else .ok true

def checkHeader (w : Walk) (index : ℕ) (header : SegmentHeader) : Except RecoveryError Unit :=
  let name := segmentName index
  if header.volumeUuid ≠ ctx.superblock.volumeUuid then
    .error (.Corrupt s!"journal segment {name}: foreign volume uuid")
  else if header.segmentIndex ≠ index then
    .error (.Corrupt s!"journal segment {name}: header index {header.segmentIndex} mismatch")
  else if w.prevLastSeq = none ∧ header.baseSequence > ctx.afterCheckpoint then
    .error (.Corrupt s!"journal segment {name}: base sequence {header.baseSequence} does not bridge from checkpoint {ctx.checkpointSequence}")
  else .ok ()

/-- A non-final segment was synced in full before its successor was created; of the final
one only the proven prefix is durable. -/
def scanner (isLast : Bool) (index : ℕ) (file : InodeId) (len : ℕ) (headerBytes : Bytes)
    (header : SegmentHeader) : SegmentScanner where
  file := file
  header := headerBytes
  bodyLen := len-segmentHeaderSize
  firstSequence := header.baseSequence
  durableLen :=
    if isLast then ((ctx.markedDurable index).map (· - segmentHeaderSize)).getD 0
    else len-segmentHeaderSize
  requiredBoundary := (ctx.requiredAt index).map fun p =>
    (p.durableSequence,wrappingSub p.durableSize segmentHeaderSize)
  geometry := ctx.superblock.geometry
  checkpointSequence := ctx.checkpointSequence
  name := segmentName index

/-- The size the segment is kept at and the repair that gives it this size. -/
def settleTail (isLast : Bool) (index len : ℕ) (scanned : SegmentBodyScan) :
    Except RecoveryError (ℕ × List JournalRepair) :=
  let name := segmentName index
  match scanned.outcome with
  | .Clean =>
    if isLast ∧ scanned.validBodyBytes < len-segmentHeaderSize then
      let size := segmentHeaderSize+scanned.validBodyBytes
      .ok (size,[.Truncate (.journalSegment index) size])
    else .ok (len,[])
  | .TornTail start =>
    if isLast then
      let size := segmentHeaderSize+start
      .ok (size,[.Truncate (.journalSegment index) size])
    else .error (.Corrupt s!"journal segment {name}: torn tail in non-final segment")
  | .Corrupt start reason =>
    .error (.Corrupt s!"journal segment {name}: corrupt at body offset {start}: {reason}")

/-- The last sequence of a segment that continues the walk. Only a prefix the checkpoint
covers may have holes. -/
def follow (w : Walk) (index base recordCount : ℕ) : Except RecoveryError ℕ :=
  let name := segmentName index
  match checkedAdd base recordCount with
  | none =>
    .error (.Corrupt s!"journal segment {name}: sequence range has no representable successor")
  | some afterSegment =>
    match w.prevLastSeq with
    | none => .ok (afterSegment-1)
    | some prev =>
      if base ≠ prev+1 ∧ ¬ (prev ≤ ctx.checkpointSequence ∧ base ≤ ctx.afterCheckpoint) then
        .error (.Corrupt s!"journal segment {name}: base sequence {base} does not follow {prev}")
      else .ok (afterSegment-1)

variable [Crc32] [DefaultHasher]

def scanBody (isLast : Bool) (index : ℕ) (w : Walk) (file : InodeId) (len : ℕ) (headerBytes : Bytes)
    (header : SegmentHeader) : Io ReplayRecords RecoveryError Walk := do
  Prog.ofExcept (ctx.checkHeader w index header)
  let scanned ← (ctx.scanner isLast index file len headerBytes header).scan pushRecord
  let (size,repairs) ← Prog.ofExcept (settleTail isLast index len scanned)
  let last ← Prog.ofExcept (ctx.follow w index header.baseSequence scanned.recordCount)
  return { w with
    segments := w.segments ++ [⟨index,header.baseSequence,scanned.recordCount,size⟩]
    repairs := w.repairs ++ repairs
    prevLastSeq := some last
    maxSeq := max w.maxSeq last
    verifiedPrefixes :=
      w.verifiedPrefixes ++ [⟨.journalSegment index,size,scanned.fingerprint⟩]
    requiredSeen := w.requiredSeen || (ctx.requiredAt index).isSome }

/-- A never-written final segment is a creation crash, any other bad header damage. -/
def discardZeroed (isLast : Bool) (index : ℕ) (w : Walk) (file : InodeId) (len : ℕ) (e : FormatError) :
    Io ReplayRecords RecoveryError Walk :=
  let damaged := Prog.throw (.Corrupt s!"journal segment {segmentName index}: invalid header ({e.text})")
  if isLast ∧ ctx.markedDurable index = none then
    Prog.bind (recoveryIo (rangeIsZero file 0 len)) fun zero =>
      if zero then Prog.pure (w.discard index) else damaged
  else damaged

def scanHeader (isLast : Bool) (index : ℕ) (w : Walk) (file : InodeId) (len : ℕ) :
    Io ReplayRecords RecoveryError Walk := do
  let headerBytes ← recoveryIo (Io.readAt file 0 segmentHeaderSize)
  match SegmentHeader.decode headerBytes with
  | .ok header => ctx.scanBody isLast index w file len headerBytes header
  | .error e => ctx.discardZeroed isLast index w file len e

def scanFile (isLast : Bool) (index : ℕ) (w : Walk) : Io ReplayRecords RecoveryError Walk := do
  let file ← recoveryIo (Io.openFile (.journalSegment index) false)
  let len ← recoveryIo (Io.len file)
  let present ← Prog.ofExcept (ctx.checkLength isLast index len)
  if present then ctx.scanHeader isLast index (ctx.noteMark isLast index w) file len
  else return (ctx.noteMark isLast index w).discard index

def walk : List ℕ → Walk → Io ReplayRecords RecoveryError Walk
  | [], w => return w
  | index::rest, w => do
    let w ← ctx.scanFile rest.isEmpty index w
    walk rest w

def knownIndices (segments : List SegmentInfo) : List ℕ :=
  segments.map SegmentInfo.index ++ (ctx.mark.map DurableMark.segmentIndex).toList ++
    ((ctx.proof.filter fun p => 0 < p.durableSequence).map DurableProof.segmentIndex).toList

/-- Segment indexes are never reused: continue above all known ones. -/
def nextIndex (segments : List SegmentInfo) : Except RecoveryError ℕ :=
  match (ctx.knownIndices segments).max? with
  | none => .ok 0
  | some highest =>
    match checkedAdd highest 1 with
    | none => .error (.Corrupt "journal segment index has no representable successor")
    | some next => .ok next

def finish (w : Walk) (replay : ReplayRecords) : Except RecoveryError JournalScan :=
  if ctx.required.isSome ∧ w.requiredSeen = false then
    .error (.Corrupt "required durable journal segment is missing; refusing to discard acknowledged history")
  else do
    let nextSegmentIndex ← ctx.nextIndex w.segments
    let (records,units) := replay.intoParts
    return ⟨max ctx.checkpointSequence w.maxSeq,nextSegmentIndex,w.segments,records,units,w.repairs,
      w.finalMark,w.verifiedPrefixes⟩

end ScanContext

section Scan

variable {μ : Type} [Crc32]

def loadDurableMark : Io μ RecoveryError (Option DurableMark) := do
  match ← recoveryIo (Io.optional .NotFound (Io.openFile .journalDurableMark false)) with
  | none => return none
  | some file =>
    let len ← recoveryIo (Io.len file)
    if len < durableMarkSize then return none
    else
      let buf ← recoveryIo (Io.optional .UnexpectedEof (Io.readAt file 0 durableMarkSize))
      return buf.bind fun bytes => (DurableMark.decode bytes).toOption

def segmentIndices (listed : List Path) : List ℕ :=
  (listed.filterMap parseJournalSegment).insertionSort (· ≤ ·)

variable [DefaultHasher]

def scanJournalWithProof (superblock : Superblock) (checkpointSequence segmentSize : ℕ)
    (proof : Option DurableProof) (replay : ReplayRecords) : Io μ RecoveryError JournalScan :=
  match checkedAdd checkpointSequence 1 with
  | none => Prog.throw (.Corrupt "checkpoint sequence has no representable successor")
  | some afterCheckpoint => do
    let mark ← loadDurableMark
    let listed ← recoveryIo (Io.list .journal)
    let ctx : ScanContext := ⟨superblock,checkpointSequence,afterCheckpoint,
      max (maxSegmentFileSize segmentSize) maxJournalSegmentFileSize,mark,proof⟩
    let (w,replay) ← Io.withLocal replay (ctx.walk (segmentIndices listed) {})
    Prog.ofExcept (ctx.finish w replay)

/-- The proof is evidence of a v2 or v3 volume only. -/
def loadScanProof (envelope : VolumeSuperblock) (volumeUuid : BitVec 128) :
    Io μ RecoveryError (Option DurableProof) :=
  if envelope.metadataVersion = superblockVersionV2 ∨
      envelope.metadataVersion = superblockVersionV3 then do
    let proof ← Prog.mapErr .Format (DurableProofStore.load volumeUuid)
    return some proof
  else return none

def scanJournalWithReplay (superblock : Superblock) (checkpointSequence segmentSize : ℕ)
    (replay : ReplayRecords) : Io μ RecoveryError JournalScan := do
  let envelope ← Prog.mapErr .Format loadVolumeSuperblock
  if envelope.superblock.volumeUuid ≠ superblock.volumeUuid then
    Prog.throw (.Corrupt "journal scan superblock identity mismatch")
  else
    let proof ← loadScanProof envelope superblock.volumeUuid
    scanJournalWithProof superblock checkpointSequence segmentSize proof replay

def scanJournal (superblock : Superblock) (checkpointSequence segmentSize : ℕ) :
    Io μ RecoveryError JournalScan :=
  scanJournalWithReplay superblock checkpointSequence segmentSize (.All [])

structure JournalSummary where
  segmentCount : ℕ
  uncoveredRecords : ℕ
  durableSequence : ℕ
  repairs : List JournalRepair
  replayUnits : Finset ℕ
  deriving DecidableEq

def SegmentInfo.uncovered (s : SegmentInfo) (checkpointSequence : ℕ) : ℕ :=
  min s.recordCount (s.lastSequence-checkpointSequence)

def summarizeJournal (superblock : Superblock) (checkpointSequence segmentSize : ℕ) :
    Io μ RecoveryError JournalSummary := do
  let scan ← scanJournalWithReplay superblock checkpointSequence segmentSize (.Units ∅)
  return ⟨scan.segments.length,(scan.segments.map (·.uncovered checkpointSequence)).sum,
    scan.durableSequence,scan.repairs,scan.replayUnits⟩

end Scan
end Maki
