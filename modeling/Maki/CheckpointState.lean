import Maki.AbCrash

/-! The checkpoint state record (`maki_format::checkpoint`), an A/B pair under
`checkpoint/`, and that it keeps the contract of A/B records. -/
namespace Maki

def checkpointMagic : Bytes := ascii "MAKICKP1"
def checkpointVersion : ℕ := 1

structure CheckpointState where
  generation : ℕ := 0
  /-- All journal records with a sequence up to this one have been applied to slots. -/
  checkpointSequence : ℕ := 0
  deriving DecidableEq

namespace CheckpointState

variable [Crc32]

def encode (r : CheckpointState) : Bytes :=
  finishWithCrc (checkpointMagic ++ (leBytes 4 checkpointVersion ++
    (leBytes 8 r.generation ++ leBytes 8 r.checkpointSequence)))

def reader : Reader CheckpointState := do
  let magic ← Reader.take 8
  Reader.ensure (magic = checkpointMagic) (.BadMagic "checkpoint state")
  let version ← Reader.u32
  Reader.ensure (version = checkpointVersion) (.Unsupported s!"checkpoint state version {version}")
  let generation ← Reader.u64
  let checkpointSequence ← Reader.u64
  let left ← Reader.remaining
  Reader.ensure (left = 0)
    (.Invalid "checkpoint state: unexpected trailing bytes after a fixed-length v1 record")
  return { generation, checkpointSequence }

def decode (data : Bytes) : Except FormatError CheckpointState := do
  let payload ← stripVerifyCrc data "checkpoint state"
  reader.decode payload

instance : AbRecord CheckpointState where
  maxEncodedLen := 32
  generation r := r.generation
  setGeneration g r := { r with generation := g }
  encode := encode
  decode := decode

def store : AbStore := { a := .checkpointState .a, b := .checkpointState .b }

def Fits (r : CheckpointState) : Prop := r.generation < 2^64 ∧ r.checkpointSequence < 2^64

instance (r : CheckpointState) : Decidable r.Fits :=
  inferInstanceAs (Decidable (r.generation < 2^64 ∧ r.checkpointSequence < 2^64))

theorem decode_ok {bytes : Bytes} {r : CheckpointState} : decode bytes = .ok r ↔ r.Fits ∧ bytes = r.encode := by
  have hm : checkpointMagic.length = 8 := by decide
  have hv : checkpointVersion < 4294967296 := by decide
  obtain ⟨generation,checkpointSequence⟩ := r
  simp [decode,reader,encode,Fits,bind_ok_iff,stripVerifyCrc_ok_iff,hm,hv,and_comm]

theorem length_encode (r : CheckpointState) : r.encode.length = 32 := by
  simp [encode,checkpointMagic,ascii]

theorem encode_ne_nil (r : CheckpointState) : r.encode ≠ [] := by
  intro h
  have hl := length_encode r
  rw [h] at hl
  simp at hl

theorem laws : store.Laws Fits where
  distinct := by decide
  parent := rfl
  decode_encode _ h := decode_ok.mpr ⟨h,rfl⟩
  raw_encode _ h := RawGeneration.decode_finish (by decide) (by decide) h.1
  nonempty r _ := encode_ne_nil r
  bounded r _ := Nat.le_of_eq (length_encode r)
  fits_set _ _ h hg := ⟨hg,h.2⟩
  generation_set _ _ := rfl

end CheckpointState
end Maki
