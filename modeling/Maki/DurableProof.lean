import Maki.AbCrash
import Maki.JournalFormat

/-! The acknowledgement horizon (`maki_format::durable_proof`). Every successful advance
stores the same horizon on both sides of an A/B pair; a load refuses pairs that
disagree and versions it does not know. -/
namespace Maki

def durableProofMagic : Bytes := ascii "MAKIJDP1"
def durableProofVersion : ℕ := 1
def durableProofSize : ℕ := 64

/-- A lower bound on the journal sequence that recovery must preserve, with the exact end
of that record. -/
structure DurableProof where
  generation : ℕ
  volumeUuid : BitVec 128
  durableSequence : ℕ
  segmentIndex : ℕ
  durableSize : ℕ
  deriving DecidableEq

namespace DurableProof

def initial (volumeUuid : BitVec 128) : DurableProof := ⟨0,volumeUuid,0,0,0⟩

def validate (p : DurableProof) : Except FormatError Unit :=
  if p.durableSequence = 0 then
    if p.segmentIndex ≠ 0 ∨ p.durableSize ≠ 0 then
      .error (.Invalid "empty durable proof has a segment location")
    else .ok ()
  else if p.durableSequence = u64Max ∨ p.segmentIndex = u64Max ∨
      p.durableSize < segmentHeaderSize+recordHeaderSize ∨ p.durableSize > i64Max then
    .error (.Invalid "durable proof horizon is outside supported bounds")
  else .ok ()

def follows (p previous : DurableProof) : Except FormatError Unit :=
  if p.volumeUuid ≠ previous.volumeUuid then .error (.Invalid "durable proof volume UUID changed")
  else if p.durableSequence < previous.durableSequence then
    .error (.Invalid "durable proof sequence regressed")
  else if p.durableSequence = previous.durableSequence then
    if p.segmentIndex ≠ previous.segmentIndex ∨ p.durableSize ≠ previous.durableSize then
      .error (.Invalid "unchanged durable sequence has a different record end")
    else .ok ()
  else if p.segmentIndex < previous.segmentIndex ∨
      (p.segmentIndex = previous.segmentIndex ∧ p.durableSize ≤ previous.durableSize) then
    .error (.Invalid "advancing durable sequence regressed its segment location")
  else .ok ()

/-- What an accepted `follows` says: the same volume, and the same horizon or a later one
at a later location. -/
def Follows (p q : DurableProof) : Prop :=
  p.volumeUuid = q.volumeUuid ∧
    ((p.durableSequence = q.durableSequence ∧ p.segmentIndex = q.segmentIndex ∧
        p.durableSize = q.durableSize) ∨
      (q.durableSequence < p.durableSequence ∧ (q.segmentIndex < p.segmentIndex ∨
        (q.segmentIndex = p.segmentIndex ∧ q.durableSize < p.durableSize))))

theorem follows_iff {p q : DurableProof} : p.follows q = .ok () ↔ p.Follows q := by
  unfold follows Follows
  split_ifs with h₁ h₂ h₃ h₄ h₅ <;> simp only [false_iff,true_iff,not_and] <;> grind

theorem Follows.refl (p : DurableProof) : p.Follows p := ⟨rfl,.inl ⟨rfl,rfl,rfl⟩⟩

theorem Follows.trans {p q r : DurableProof} (hpq : p.Follows q) (hqr : q.Follows r) :
    p.Follows r := by
  unfold Follows at *
  refine ⟨hpq.1.trans hqr.1,?_⟩
  omega

theorem Follows.sequence_le {p q : DurableProof} (h : p.Follows q) :
    q.durableSequence ≤ p.durableSequence := by
  unfold Follows at h
  omega

variable [Crc32]

def encode (p : DurableProof) : Bytes :=
  finishWithCrc (durableProofMagic ++ (leBytes 4 durableProofVersion ++ (leBytes 8 p.generation ++
    (leBytes 16 p.volumeUuid.toNat ++ (leBytes 8 p.durableSequence ++
      (leBytes 8 p.segmentIndex ++ leBytes 8 p.durableSize))))))

def reader : Reader DurableProof := do
  let magic ← Reader.take 8
  Reader.ensure (magic = durableProofMagic) (.BadMagic "durable proof")
  let version ← Reader.u32
  Reader.ensure (version = durableProofVersion) (.Unsupported s!"durable proof version {version}")
  let generation ← Reader.u64
  let volumeUuid ← Reader.uuid
  let durableSequence ← Reader.u64
  let segmentIndex ← Reader.u64
  let durableSize ← Reader.u64
  return { generation, volumeUuid, durableSequence, segmentIndex, durableSize }

def decode (data : Bytes) : Except FormatError DurableProof :=
  if data.length < durableProofSize then .error (.Truncated "durable proof")
  else if data.length ≠ durableProofSize then .error (.Invalid "durable proof has trailing bytes")
  else do
    let payload ← stripVerifyCrc data "durable proof"
    let proof ← reader.decode payload
    proof.validate
    return proof

instance : AbRecord DurableProof where
  maxEncodedLen := durableProofSize
  generation p := p.generation
  setGeneration g p := { p with generation := g }
  encode := encode
  decode := decode

/-- All fields are `u64`s and the horizon is a valid one. -/
structure Fits (p : DurableProof) : Prop where
  generation : p.generation < 2^64
  sequence : p.durableSequence < 2^64
  segment : p.segmentIndex < 2^64
  size : p.durableSize < 2^64
  valid : p.validate = .ok ()

theorem length_encode (p : DurableProof) : p.encode.length = durableProofSize := by
  simp [encode,durableProofMagic,ascii,durableProofSize]

theorem encode_ne_nil (p : DurableProof) : p.encode ≠ [] := by
  intro h
  have hl := length_encode p
  rw [h] at hl
  simp [durableProofSize] at hl

omit [Crc32] in
theorem reader_ok {payload : Bytes} {p : DurableProof} : reader.decode payload = .ok p ↔
    (∃ rest, payload = durableProofMagic ++ (leBytes 4 durableProofVersion ++ (leBytes 8 p.generation ++
      (leBytes 16 p.volumeUuid.toNat ++ (leBytes 8 p.durableSequence ++ (leBytes 8 p.segmentIndex ++
        (leBytes 8 p.durableSize ++ rest))))))) ∧
    p.generation < 2^64 ∧ p.durableSequence < 2^64 ∧ p.segmentIndex < 2^64 ∧ p.durableSize < 2^64 := by
  have hm : durableProofMagic.length = 8 := by decide
  have hv : durableProofVersion < 4294967296 := by decide
  obtain ⟨generation,volumeUuid,durableSequence,segmentIndex,durableSize⟩ := p
  simp [reader,hm,hv]

theorem decode_ok {bytes : Bytes} {p : DurableProof} : decode bytes = .ok p ↔ p.Fits ∧ bytes = p.encode := by
  have hm : durableProofMagic.length = 8 := by decide
  have hdecode : decode bytes = .ok p ↔ bytes.length = durableProofSize ∧
      ∃ payload, bytes = finishWithCrc payload ∧ reader.decode payload = .ok p ∧ p.validate = .ok () := by
    unfold decode
    split_ifs with hs hl
    · simp only [false_iff]
      omega
    · simp [hl]
    · simp only [not_not.mp hl,bind_ok_iff,stripVerifyCrc_ok_iff,true_and]
      refine exists_congr fun payload => and_congr_right fun _ => ?_
      constructor
      · rintro ⟨q,hq,⟨⟩,hvalid,⟨⟩⟩
        exact ⟨hq,hvalid⟩
      · rintro ⟨hq,hvalid⟩
        exact ⟨p,hq,(),hvalid,rfl⟩
  simp only [hdecode,reader_ok]
  constructor
  · rintro ⟨hl,_,rfl,⟨⟨rest,rfl⟩,hg,hs,hi,hz⟩,hvalid⟩
    obtain rfl : rest = [] := by
      simp only [length_finishWithCrc,List.length_append,length_leBytes,hm,durableProofSize] at hl
      exact List.length_eq_zero_iff.mp (by omega)
    exact ⟨⟨hg,hs,hi,hz,hvalid⟩,by rw [List.append_nil]; rfl⟩
  · rintro ⟨h,rfl⟩
    exact ⟨length_encode p,_,rfl,⟨⟨[],by rw [List.append_nil]⟩,h.generation,h.sequence,h.segment,h.size⟩,h.valid⟩

theorem decode_encode {p : DurableProof} (h : p.Fits) : decode p.encode = .ok p := decode_ok.mpr ⟨h,rfl⟩

def pair : AbStore := { a := .durableProof .a, b := .durableProof .b }

theorem laws : pair.Laws Fits where
  distinct := by decide
  parent := rfl
  decode_encode _ h := decode_encode h
  raw_encode _ h := RawGeneration.decode_finish (by decide) (by decide) h.generation
  nonempty p _ := encode_ne_nil p
  bounded p _ := Nat.le_of_eq (length_encode p)
  fits_set _ _ h hg := ⟨hg,h.sequence,h.segment,h.size,h.valid⟩
  generation_set _ _ := rfl

end DurableProof
end Maki
