import Maki.JournalRecords
import Maki.Geometry
import Maki.CoreError

/-! The streaming scanner of one segment body (`maki_core::recovery_scan`). Records are
accepted one by one up to the first position that holds none; what stands there decides
between a clean end, a torn tail and corruption. -/
namespace Maki

/-- The standard library's hasher, as a function of all bytes written to it. -/
class DefaultHasher where
  finish : Bytes → UInt64

def readChunk : ℕ := 64*1024

section Ranges

variable {μ : Type}

def readRange (file : InodeId) (offset len : ℕ) : Io μ ErrorKind Bytes :=
  if len = 0 then Prog.pure []
  else
    Prog.bind (Io.readAt file offset (min len readChunk)) fun chunk =>
      Prog.bind (readRange file (offset+min len readChunk) (len-min len readChunk)) fun rest =>
        Prog.pure (chunk ++ rest)
termination_by len
decreasing_by
  simp only [readChunk]
  omega

/-- Whether a range is zero throughout; it is always read to its end. -/
def rangeIsZero (file : InodeId) (start stop : ℕ) : Io μ ErrorKind Bool :=
  Prog.bind (readRange file start (stop-start)) fun bytes => Prog.pure (bytes.all (· == 0))

def rangeOf (data : Bytes) (offset len : ℕ) : Except ErrorKind Bytes :=
  if len = 0 ∨ offset+len ≤ data.length then .ok ((data.drop offset).take len)
  else .error .UnexpectedEof

theorem rangeOf_of_le {data : Bytes} {offset len : ℕ} (h : offset+len ≤ data.length) :
    rangeOf data offset len = .ok ((data.drop offset).take len) := if_pos (.inr h)

theorem readRange_checks (file : InodeId) (offset len : ℕ) :
    Io.Checks (readRange file offset len : Io μ ErrorKind _)
      fun d => rangeOf (d.inodes file).image offset len := by
  induction len using Nat.strong_induction_on generalizing offset with
  | _ len ih =>
    rw [readRange]
    by_cases hz : len = 0
    · subst hz
      simpa [rangeOf] using Io.Checks.ofReads (.pure [])
    rw [if_neg hz]
    have hc : min len readChunk ≤ len := Nat.min_le_left _ _
    have hp : 0 < min len readChunk := by simp only [readChunk]; omega
    have hrest := ih (len-min len readChunk) (by omega) (offset+min len readChunk)
    have hread := (Io.Checks.readAt (μ := μ) file offset (min len readChunk)).bind fun chunk =>
      hrest.bind fun rest => .ofReads (.pure (chunk ++ rest))
    apply hread.congr
    intro d
    set data := (d.inodes file).image
    generalize min len readChunk = c at hc hp
    by_cases hl : offset+len ≤ data.length
    · have hsplit : (data.drop offset).take c ++ (data.drop (offset+c)).take (len-c) =
          (data.drop offset).take len := by
        rw [← List.drop_drop,← List.take_add,Nat.add_sub_cancel' hc]
      simp only [if_pos (show offset+c ≤ data.length by omega),Except.bind,
        rangeOf_of_le (show offset+c+(len-c) ≤ data.length by omega),rangeOf_of_le hl,hsplit]
    · have hfail : rangeOf data offset len = .error .UnexpectedEof := if_neg (by omega)
      by_cases hch : offset+c ≤ data.length
      · have hfail' : rangeOf data (offset+c) (len-c) = .error .UnexpectedEof := if_neg (by omega)
        simp only [if_pos hch,Except.bind,hfail,hfail']
      · simp only [if_neg hch,Except.bind,hfail]

theorem rangeIsZero_checks (file : InodeId) (start stop : ℕ) :
    Io.Checks (rangeIsZero file start stop : Io μ ErrorKind _) fun d =>
      (rangeOf (d.inodes file).image start (stop-start)).map fun bytes => bytes.all (· == 0) := by
  apply ((readRange_checks (μ := μ) file start (stop-start)).bind fun bytes =>
    .ofReads (.pure (bytes.all (· == 0)))).congr
  intro d
  cases rangeOf (d.inodes file).image start (stop-start) <;> rfl

end Ranges

structure SegmentBodyScan where
  recordCount : ℕ
  validBodyBytes : ℕ
  outcome : ScanOutcome
  fingerprint : UInt64
  deriving DecidableEq

structure SegmentScanner where
  file : InodeId
  header : Bytes
  bodyLen : ℕ
  firstSequence : ℕ
  durableLen : ℕ
  /-- A durable proof requires this sequence to end at exactly this byte of the body. -/
  requiredBoundary : Option (ℕ × ℕ)
  geometry : Geometry
  checkpointSequence : ℕ
  name : String

/-- The scanner's loop variables; `hashed` is what its fingerprint covers. -/
structure ScanState where
  position : ℕ
  recordCount : ℕ
  readEnd : ℕ
  boundarySeen : Bool
  hashed : Bytes

/-- A decoded header ends the scan, or its record of `n` bytes fits what is left. -/
inductive Framing (n left : ℕ) where
  | stop (outcome : ScanOutcome)
  | record (fits : n ≤ left)

namespace SegmentScanner

variable (sc : SegmentScanner)

def inDurable (position : ℕ) : Bool := position < sc.durableLen

/-- Damage is corruption in the durable prefix and a torn tail after it. -/
def damage (position : ℕ) (reason : String) : ScanOutcome :=
  if sc.inDurable position then .Corrupt position reason else .TornTail position

def undecodable (position : ℕ) (zero : Bool) : ScanOutcome :=
  if sc.inDurable position then
    .Corrupt position (if zero then "zeroed record inside durable prefix"
      else "record header damaged inside durable prefix")
  else if zero then .Clean else .TornTail position

/-- The checks of a decoded header's framing. An impossible length or sequence is
corruption even outside the durable prefix. -/
def frame (st : ScanState) (h : RecordHeader) :
    Except RecoveryError (Framing (recordHeaderSize+h.payloadLen) (sc.bodyLen-st.position)) :=
  if h.payloadLen > maxPayload then
    .ok (.stop (.Corrupt st.position s!"payload_len {h.payloadLen} exceeds cap"))
  else
    match checkedAdd sc.firstSequence st.recordCount with
    | none => .error (.Corrupt "journal record sequence overflow")
    | some expected =>
      if h.sequence ≠ expected then
        .ok (.stop (.Corrupt st.position s!"sequence {h.sequence} where {expected} expected"))
      else if hlong : recordHeaderSize+h.payloadLen > sc.bodyLen-st.position then
        .ok (.stop (sc.damage st.position "record truncated inside durable prefix"))
      else .ok (.record (Nat.not_lt.mp hlong))

/-- The semantic checks of an intact record that ends at `stop`: its geometry, then the
boundary a proof requires. Whether that boundary has been seen. -/
def check (h : RecordHeader) (stop : ℕ) (seen : Bool) : Except RecoveryError Bool :=
  if h.unit ≥ sc.geometry.numUnits then
    .error (.Corrupt s!"journal segment {sc.name}: record {h.sequence} names unit {h.unit} beyond the device ({sc.geometry.numUnits} units)")
  else if h.payloadLen > sc.geometry.maxCiphertextSize then
    .error (.Corrupt s!"journal segment {sc.name}: record {h.sequence} payload of {h.payloadLen} bytes exceeds the volume's maximum ciphertext size {sc.geometry.maxCiphertextSize}")
  else
    match sc.requiredBoundary with
    | none => .ok seen
    | some (sequence,required) =>
      if h.sequence = sequence then
        if stop ≠ required then
          .error (.Corrupt s!"journal segment {sc.name}: required durable record {sequence} ends at body byte {stop}, proof requires {required}")
        else .ok true
      else .ok seen

theorem frame_record_iff {st : ScanState} {h : RecordHeader}
    (hfit : recordHeaderSize+h.payloadLen ≤ sc.bodyLen-st.position) :
    sc.frame st h = .ok (.record hfit) ↔ h.payloadLen ≤ maxPayload ∧
      h.sequence = sc.firstSequence+st.recordCount ∧ sc.firstSequence+st.recordCount < 2^64 := by
  unfold frame checkedAdd
  by_cases h₁ : h.payloadLen > maxPayload
  · simp [h₁,Nat.not_le.mpr h₁]
  by_cases hlt : sc.firstSequence+st.recordCount < 2^64
  · simp only [if_neg h₁,if_pos hlt]
    by_cases h₂ : h.sequence ≠ sc.firstSequence+st.recordCount
    · simp [h₂]
    · simp only [if_neg h₂,dif_neg (Nat.not_lt.mpr hfit),true_iff]
      exact ⟨Nat.not_lt.mp h₁,not_not.mp h₂,hlt⟩
  · simp only [if_neg h₁,hlt,if_false,reduceCtorEq,and_false]

variable {μ : Type} [Crc32]

/-- Only records above the checkpoint are handed on. -/
def offer (accept : JournalRecord → Io μ RecoveryError Unit) (r : JournalRecord) :
    Io μ RecoveryError Unit :=
  if r.sequence > sc.checkpointSequence then accept r else Prog.pure ()

def loop (accept : JournalRecord → Io μ RecoveryError Unit) (st : ScanState) :
    Io μ RecoveryError (ScanOutcome × ScanState) :=
  if st.position = sc.bodyLen then Prog.pure (.Clean,st)
  else
    let headerLen := min (sc.bodyLen-st.position) recordHeaderSize
    Prog.bind (recoveryIo (Io.readAt sc.file (segmentHeaderSize+st.position) headerLen)) fun bytes =>
      match RecordHeader.decode bytes with
      | none =>
        Prog.bind (recoveryIo (rangeIsZero sc.file (segmentHeaderSize+st.position)
          (segmentHeaderSize+sc.bodyLen))) fun zero =>
            Prog.pure (sc.undecodable st.position zero,{ st with readEnd := sc.bodyLen })
      | some h =>
        match sc.frame st h with
        | .error e => Prog.throw e
        | .ok (.stop outcome) =>
          Prog.pure (outcome,{ st with readEnd := st.position+headerLen })
        | .ok (.record _fits) =>
          Prog.bind (recoveryIo (readRange sc.file
            (segmentHeaderSize+st.position+recordHeaderSize) h.payloadLen)) fun payload =>
              let stop := st.position+(recordHeaderSize+h.payloadLen)
              if (Crc32.hash payload).toNat ≠ h.payloadCrc then
                Prog.pure (sc.damage st.position "payload CRC failure in durable body",
                  { st with readEnd := stop })
              else
                Prog.bind (Prog.ofExcept (sc.check h stop st.boundarySeen)) fun seen =>
                  Prog.bind (sc.offer accept ⟨h.sequence,h.unit,payload⟩) fun _ =>
                    loop accept ⟨stop,st.recordCount+1,stop,seen,st.hashed ++ (bytes ++ payload)⟩
termination_by sc.bodyLen-st.position
decreasing_by
  simp only [recordHeaderSize] at _fits ⊢
  omega

/-- A torn-tail decision must not hide a read error in the rest of the file. -/
def readRest (outcome : ScanOutcome) (st : ScanState) : Io μ RecoveryError Unit :=
  match outcome with
  | .Corrupt _ _ => Prog.pure ()
  | _ =>
    if st.readEnd < sc.bodyLen then
      Prog.bind (recoveryIo (rangeIsZero sc.file (segmentHeaderSize+st.readEnd)
        (segmentHeaderSize+sc.bodyLen))) fun _ => Prog.pure ()
    else Prog.pure ()

def boundaryFound (st : ScanState) : Except RecoveryError Unit :=
  match sc.requiredBoundary with
  | some (sequence,stop) =>
    if st.boundarySeen then .ok ()
    else .error (.Corrupt s!"journal segment {sc.name}: required durable record {sequence} ending at body byte {stop} was not found")
  | none => .ok ()

def scan [DefaultHasher] (accept : JournalRecord → Io μ RecoveryError Unit) :
    Io μ RecoveryError SegmentBodyScan := do
  let (outcome,st) ← sc.loop accept ⟨0,0,0,false,sc.header⟩
  sc.readRest outcome st
  Prog.ofExcept (sc.boundaryFound st)
  return ⟨st.recordCount,st.position,outcome,DefaultHasher.finish st.hashed⟩

end SegmentScanner
end Maki
