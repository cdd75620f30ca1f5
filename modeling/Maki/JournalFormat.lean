import Maki.Codec

/-! Record and segment framing of the journal (`maki_format::journal`). A segment is a
header followed by records; each header carries a CRC of itself and a record header a CRC
of its payload as well. What a decoder accepts is exactly what the encoder writes. -/
namespace Maki

def recordMagic : Bytes := ascii "MJR1"
def recordHeaderSize : ℕ := 32
def segmentMagic : Bytes := ascii "MAKIJSG1"
def segmentVersion : ℕ := 1
def segmentHeaderSize : ℕ := 48
def durableMarkMagic : Bytes := ascii "MAKIJDM1"
def durableMarkVersion : ℕ := 1
def durableMarkSize : ℕ := 32

def maxPayload : ℕ := 16 <<< 20

def maxJournalSegmentSize : ℕ := 1 <<< 30

/-- `u64::MAX` and `i64::MAX`. -/
def u64Max : ℕ := 2^64-1
def i64Max : ℕ := 2^63-1

/-- Largest segment file the writer can produce for a configured segment size; the sums
saturate. -/
def maxSegmentFileSize (segmentSize : ℕ) : ℕ :=
  min u64Max (min u64Max (segmentSize*4) + (segmentHeaderSize+recordHeaderSize+maxPayload))

def maxJournalSegmentFileSize : ℕ := maxSegmentFileSize maxJournalSegmentSize

theorem maxSegmentFileSize_lt (segmentSize : ℕ) : maxSegmentFileSize segmentSize < 2^64 := by
  simp only [maxSegmentFileSize,u64Max]
  omega

structure JournalRecord where
  sequence : ℕ
  unitIndex : ℕ
  payload : Bytes
  deriving DecidableEq

inductive ScanOutcome where
  | Clean
  | TornTail (pos : ℕ)
  | Corrupt (pos : ℕ) (reason : String)
  deriving DecidableEq

/-- A parsed record header: the payload follows it. -/
structure RecordHeader where
  sequence : ℕ
  unit : ℕ
  payloadLen : ℕ
  payloadCrc : ℕ
  deriving DecidableEq

namespace RecordHeader

variable [Crc32]

def encode (h : RecordHeader) : Bytes :=
  finishWithCrc (recordMagic ++ (leBytes 8 h.sequence ++ (leBytes 8 h.unit ++
    (leBytes 4 h.payloadLen ++ leBytes 4 h.payloadCrc))))

def reader : Reader RecordHeader := do
  let _magic ← Reader.take 4
  let sequence ← Reader.u64
  let unit ← Reader.u64
  let payloadLen ← Reader.u32
  let payloadCrc ← Reader.u32
  return ⟨sequence,unit,payloadLen,payloadCrc⟩

def decode (bytes : Bytes) : Option RecordHeader :=
  if bytes.length ≠ recordHeaderSize ∨ bytes.take 4 ≠ recordMagic then none
  else (stripVerifyCrc bytes "journal record header").toOption.bind fun payload =>
    (reader.decode payload).toOption

def Fits (h : RecordHeader) : Prop :=
  h.sequence < 2^64 ∧ h.unit < 2^64 ∧ h.payloadLen < 2^32 ∧ h.payloadCrc < 2^32

instance (h : RecordHeader) : Decidable h.Fits := inferInstanceAs (Decidable (_ ∧ _))

@[simp] theorem length_encode (h : RecordHeader) : h.encode.length = recordHeaderSize := by
  simp [encode,recordHeaderSize,recordMagic,ascii]

omit [Crc32] in
theorem reader_ok {payload : Bytes} {h : RecordHeader} : reader.decode payload = .ok h ↔
    (∃ rest magic, magic.length = 4 ∧ payload = magic ++ (leBytes 8 h.sequence ++ (leBytes 8 h.unit ++
      (leBytes 4 h.payloadLen ++ (leBytes 4 h.payloadCrc ++ rest))))) ∧ h.Fits := by
  obtain ⟨sequence,unit,payloadLen,payloadCrc⟩ := h
  simp [reader,Fits]

theorem decode_eq_some_iff {bytes : Bytes} {h : RecordHeader} :
    decode bytes = some h ↔ h.Fits ∧ bytes = h.encode := by
  have hmagic : recordMagic.length = 4 := by decide
  have hdecode : decode bytes = some h ↔ bytes.length = recordHeaderSize ∧ bytes.take 4 = recordMagic ∧
      ∃ payload, bytes = finishWithCrc payload ∧ reader.decode payload = .ok h := by
    unfold decode
    split_ifs with hn
    · simp only [false_iff]
      tauto
    · simp_all [Option.bind_eq_some_iff,toOption_eq_some,stripVerifyCrc_ok_iff]
  simp only [hdecode,reader_ok]
  constructor
  · rintro ⟨hl,hm,_,rfl,⟨rest,magic,hlen,rfl⟩,hfits⟩
    -- 32 bytes hold the fields and nothing after them
    obtain rfl : rest = [] := by
      simp only [length_finishWithCrc,List.length_append,length_leBytes,hlen,recordHeaderSize] at hl
      exact List.length_eq_zero_iff.mp (by omega)
    obtain rfl : magic = recordMagic := by simpa [finishWithCrc,← hlen] using hm
    exact ⟨hfits,by rw [List.append_nil]; rfl⟩
  · rintro ⟨hfits,rfl⟩
    exact ⟨length_encode _,by simp [encode,finishWithCrc,hmagic],_,rfl,⟨[],_,hmagic,by rw [List.append_nil]⟩,hfits⟩

theorem decode_encode {h : RecordHeader} (hf : h.Fits) : decode h.encode = some h :=
  decode_eq_some_iff.mpr ⟨hf,rfl⟩

end RecordHeader

section Record

variable [Crc32]

def JournalRecord.header (r : JournalRecord) : RecordHeader :=
  ⟨r.sequence,r.unitIndex,r.payload.length,(Crc32.hash r.payload).toNat⟩

def encodeRecord (r : JournalRecord) : Bytes := r.header.encode ++ r.payload

@[simp] theorem length_encodeRecord (r : JournalRecord) :
    (encodeRecord r).length = recordHeaderSize+r.payload.length := by simp [encodeRecord]

end Record

structure SegmentHeader where
  segmentIndex : ℕ
  volumeUuid : BitVec 128
  baseSequence : ℕ
  deriving DecidableEq

namespace SegmentHeader

variable [Crc32]

def encode (h : SegmentHeader) : Bytes :=
  finishWithCrc (segmentMagic ++ (leBytes 4 segmentVersion ++ (leBytes 8 h.segmentIndex ++
    (leBytes 16 h.volumeUuid.toNat ++ leBytes 8 h.baseSequence))))

def reader : Reader SegmentHeader := do
  let _magic ← Reader.take 8
  let version ← Reader.u32
  Reader.ensure (version = segmentVersion) (.Unsupported s!"journal segment version {version}")
  let segmentIndex ← Reader.u64
  let volumeUuid ← Reader.uuid
  let baseSequence ← Reader.u64
  return ⟨segmentIndex,volumeUuid,baseSequence⟩

def decode (data : Bytes) : Except FormatError SegmentHeader :=
  if data.length < segmentHeaderSize then
    .error (.Truncated s!"segment header: {data.length} < {segmentHeaderSize}")
  else
    let data := data.take segmentHeaderSize
    if data.take 8 ≠ segmentMagic then .error (.BadMagic "journal segment")
    else do reader.decode (← stripVerifyCrc data "journal segment header")

@[simp] theorem length_encode (h : SegmentHeader) : h.encode.length = segmentHeaderSize := by
  simp [encode,segmentHeaderSize,segmentMagic,ascii]

omit [Crc32] in
theorem reader_ok {payload : Bytes} {h : SegmentHeader} : reader.decode payload = .ok h ↔
    (∃ rest magic, magic.length = 8 ∧ payload = magic ++ (leBytes 4 segmentVersion ++
      (leBytes 8 h.segmentIndex ++ (leBytes 16 h.volumeUuid.toNat ++ (leBytes 8 h.baseSequence ++ rest))))) ∧
    h.segmentIndex < 2^64 ∧ h.baseSequence < 2^64 := by
  have hv : segmentVersion < 4294967296 := by decide
  obtain ⟨segmentIndex,volumeUuid,baseSequence⟩ := h
  simp [reader,hv]

theorem decode_ok {bytes : Bytes} {h : SegmentHeader} (hl : bytes.length = segmentHeaderSize) :
    decode bytes = .ok h ↔ (h.segmentIndex < 2^64 ∧ h.baseSequence < 2^64) ∧ bytes = h.encode := by
  have hmagic : segmentMagic.length = 8 := by decide
  unfold decode
  simp only [framed_ok hl,reader_ok]
  constructor
  · rintro ⟨_,rfl,hm,⟨rest,magic,hlen,rfl⟩,hfits⟩
    obtain rfl : rest = [] := by
      simp only [length_finishWithCrc,List.length_append,length_leBytes,hlen,segmentHeaderSize] at hl
      exact List.length_eq_zero_iff.mp (by omega)
    obtain rfl : magic = segmentMagic := by simpa [finishWithCrc,← hlen] using hm
    exact ⟨hfits,by rw [List.append_nil]; rfl⟩
  · rintro ⟨hfits,rfl⟩
    exact ⟨_,rfl,by simp [encode,finishWithCrc,hmagic],⟨[],_,hmagic,by rw [List.append_nil]⟩,hfits⟩

end SegmentHeader

/-- The writer's record of the synced prefix of one segment, itself never synced by the
writer: a lower bound. -/
structure DurableMark where
  segmentIndex : ℕ
  durableSize : ℕ
  deriving DecidableEq

namespace DurableMark

variable [Crc32]

def encode (m : DurableMark) : Bytes :=
  finishWithCrc (durableMarkMagic ++ (leBytes 4 durableMarkVersion ++
    (leBytes 8 m.segmentIndex ++ leBytes 8 m.durableSize)))

def reader : Reader DurableMark := do
  let _magic ← Reader.take 8
  let version ← Reader.u32
  Reader.ensure (version = durableMarkVersion) (.Unsupported s!"durable mark version {version}")
  let segmentIndex ← Reader.u64
  let durableSize ← Reader.u64
  return ⟨segmentIndex,durableSize⟩

def decode (data : Bytes) : Except FormatError DurableMark :=
  if data.length < durableMarkSize then
    .error (.Truncated s!"durable mark: {data.length} < {durableMarkSize}")
  else
    let data := data.take durableMarkSize
    if data.take 8 ≠ durableMarkMagic then .error (.BadMagic "durable mark")
    else do reader.decode (← stripVerifyCrc data "durable mark")

theorem decode_encode {m : DurableMark} (hi : m.segmentIndex < 2^64) (hs : m.durableSize < 2^64) :
    decode m.encode = .ok m := by
  have hmagic : durableMarkMagic.length = 8 := by decide
  have hv : durableMarkVersion < 2^32 := by decide
  have hl : m.encode.length = durableMarkSize := by simp [encode,hmagic,durableMarkSize]
  refine (framed_ok hl).mpr ⟨_,rfl,by simp [encode,finishWithCrc,hmagic],?_⟩
  simp only [reader,Reader.decode_ok,Reader.bind_ok,Reader.take_ok,Reader.u32_ok,Reader.u64_ok,Reader.ensure_ok,
    Reader.pure_ok]
  exact ⟨_,_,⟨_,_⟩,⟨hmagic,rfl,rfl⟩,_,⟨_,_⟩,⟨hv,rfl,rfl⟩,(),_,⟨rfl,rfl⟩,_,⟨_,_⟩,⟨hi,rfl,rfl⟩,_,⟨_,[]⟩,
    ⟨hs,(List.append_nil _).symm,rfl⟩,rfl,rfl⟩

end DurableMark
end Maki
