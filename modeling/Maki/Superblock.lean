import Maki.Geometry
import Maki.CoreError
import Maki.AbCrash

/-! The volume superblock and its envelope version (`maki_format::superblock`): the codec, and
the loader that refuses mixed versions and conflicting copies. -/
namespace Maki

def superblockSize : ℕ := 4096
def superblockMagic : Bytes := ascii "MAKISB01"
def superblockVersion : ℕ := 1
def superblockVersionV2 : ℕ := 2
/-- The envelope with per-shard discard metadata. -/
def superblockVersionV3 : ℕ := 3
def cryptoFormatVersion : ℕ := 1
def maxStr : ℕ := 128

def Reader.string (max : ℕ) : Reader String := do
  let len := leNat (← Reader.take 2)
  Reader.ensure (len ≤ max) (.Invalid s!"string length {len} exceeds max {max}")
  let bytes ← Reader.take len
  match String.fromUTF8? ⟨bytes.toArray⟩ with
  | some s => return s
  | none => throw (.Invalid "string is not UTF-8")

def stringBytes (s : String) : Bytes := leBytes 2 s.utf8ByteSize ++ s.toUTF8.data.toList

theorem Reader.string_append {s : String} {max pos : ℕ} {rest : Bytes} (h : s.utf8ByteSize ≤ max)
    (hmax : max < 2^16) :
    Reader.string max ⟨pos,stringBytes s ++ rest⟩ = .ok (s,⟨pos+2+s.utf8ByteSize,rest⟩) := by
  have hlen : leNat (leBytes 2 s.utf8ByteSize) = s.utf8ByteSize :=
    leNat_leBytes_of_lt (lt_of_le_of_lt h hmax)
  have hutf : String.fromUTF8? ⟨s.toUTF8.data.toList.toArray⟩ = some s := dif_pos s.isValidUTF8
  simp only [Reader.string,Reader.bind_ok,Reader.take_ok,Reader.ensure_ok]
  refine ⟨leBytes 2 s.utf8ByteSize,⟨_,s.toUTF8.data.toList ++ rest⟩,⟨by simp,by simp [stringBytes],rfl⟩,(),_,
    ⟨by rwa [hlen],rfl⟩,s.toUTF8.data.toList,⟨_,_⟩,⟨by rw [hlen]; rfl,rfl,rfl⟩,?_⟩
  rw [hutf,hlen]
  rfl

def padTo (n : ℕ) (bytes : Bytes) : Bytes := bytes ++ List.replicate (n-bytes.length) 0

structure Superblock where
  generation : ℕ
  volumeUuid : BitVec 128
  providerType : String
  cryptoCompatibilityId : String
  keyIdentity : String
  geometry : Geometry
  formatVersion : ℕ
  createdUnix : ℕ
  deriving DecidableEq

/-- The superblock with the envelope version that selects its recovery policy. -/
structure VolumeSuperblock where
  superblock : Superblock
  metadataVersion : ℕ
  deriving DecidableEq

def supportedVersion (version : ℕ) : Prop :=
  version = superblockVersion ∨ version = superblockVersionV2 ∨ version = superblockVersionV3

instance (version : ℕ) : Decidable (supportedVersion version) := inferInstanceAs (Decidable (_ ∨ _))

namespace Superblock

/-- Everything after the magic and in front of the padding. -/
def reader : Reader Superblock := do
  let _magic ← Reader.take 8
  let version ← Reader.u32
  Reader.ensure (supportedVersion version) (.Unsupported s!"superblock version {version}")
  let generation ← Reader.u64
  let volumeUuid ← Reader.uuid
  let deviceBlockSize ← Reader.u32
  let cryptoUnitSize ← Reader.u32
  let slotAlignment ← Reader.u32
  let maxCiphertextSize ← Reader.u32
  let slotHeaderSize ← Reader.u32
  let slotSize ← Reader.u64
  let maxVirtualSize ← Reader.u64
  let shardLogicalSize ← Reader.u64
  let formatVersion ← Reader.u32
  let createdUnix ← Reader.u64
  let flags ← Reader.u64
  Reader.ensure (formatVersion = cryptoFormatVersion)
    (.Unsupported s!"crypto format version {formatVersion} (this binary supports {cryptoFormatVersion})")
  -- no flag is supported
  Reader.ensure (flags = 0) (.Unsupported ("superblock flags 0x" ++ hexText flags))
  let providerType ← Reader.string maxStr
  let cryptoCompatibilityId ← Reader.string maxStr
  let keyIdentity ← Reader.string maxStr
  let geometry ← (Geometry.compute deviceBlockSize cryptoUnitSize slotAlignment maxCiphertextSize
    maxVirtualSize shardLogicalSize : Except FormatError Geometry)
  Reader.ensure (geometry.slotSize = slotSize ∧ geometry.slotHeaderSize = slotHeaderSize)
    (.Invalid s!"stored slot geometry ({slotHeaderSize}, {slotSize}) does not match computed ({geometry.slotHeaderSize}, {geometry.slotSize})")
  return ⟨generation,volumeUuid,providerType,cryptoCompatibilityId,keyIdentity,geometry,
    formatVersion,createdUnix⟩

def fieldBytes (s : Superblock) : Bytes :=
  leBytes 16 s.volumeUuid.toNat ++ (leBytes 4 s.geometry.deviceBlockSize ++
    (leBytes 4 s.geometry.cryptoUnitSize ++ (leBytes 4 s.geometry.slotAlignment ++
    (leBytes 4 s.geometry.maxCiphertextSize ++ (leBytes 4 s.geometry.slotHeaderSize ++
    (leBytes 8 s.geometry.slotSize ++ (leBytes 8 s.geometry.maxVirtualSize ++
    (leBytes 8 s.geometry.shardLogicalSize ++ (leBytes 4 s.formatVersion ++
    (leBytes 8 s.createdUnix ++ (leBytes 8 0 ++ (stringBytes s.providerType ++
    (stringBytes s.cryptoCompatibilityId ++ stringBytes s.keyIdentity)))))))))))))

def encodeMetadataVersion [Crc32] (s : Superblock) (metadataVersion : ℕ) : Bytes :=
  finishWithCrc (padTo (superblockSize-4) (superblockMagic ++ (leBytes 4 metadataVersion ++
    (leBytes 8 s.generation ++ s.fieldBytes))))

def decode [Crc32] (data : Bytes) : Except FormatError Superblock :=
  if data.length < superblockSize then
    .error (.Truncated s!"superblock: {data.length} < {superblockSize}")
  else
    let data := data.take superblockSize
    if data.take 8 ≠ superblockMagic then .error (.BadMagic "superblock")
    else do reader.decode (← stripVerifyCrc data "superblock")

/-- The numbers and texts have a place in the format, and the geometry is that of its parameters. -/
structure Fits (s : Superblock) : Prop where
  generation : s.generation < 2^64
  created : s.createdUnix < 2^64
  version : s.formatVersion = cryptoFormatVersion
  narrow : s.geometry.deviceBlockSize < 2^32 ∧ s.geometry.cryptoUnitSize < 2^32 ∧
    s.geometry.slotAlignment < 2^32 ∧ s.geometry.maxCiphertextSize < 2^32 ∧ s.geometry.slotHeaderSize < 2^32
  wide : s.geometry.slotSize < 2^64 ∧ s.geometry.maxVirtualSize < 2^64 ∧ s.geometry.shardLogicalSize < 2^64
  computed : Geometry.compute s.geometry.deviceBlockSize s.geometry.cryptoUnitSize s.geometry.slotAlignment
    s.geometry.maxCiphertextSize s.geometry.maxVirtualSize s.geometry.shardLogicalSize = .ok s.geometry
  texts : s.providerType.utf8ByteSize ≤ maxStr ∧ s.cryptoCompatibilityId.utf8ByteSize ≤ maxStr ∧
    s.keyIdentity.utf8ByteSize ≤ maxStr

theorem decode_encode [Crc32] {s : Superblock} {version : ℕ} (h : s.Fits) (hv : supportedVersion version) :
    decode (s.encodeMetadataVersion version) = .ok s := by
  have hm : superblockMagic.length = 8 := by decide
  have hmax : maxStr < 2^16 := by decide
  have hver : version < 2^32 := by
    rcases hv with rfl | rfl | rfl <;> decide
  have hf : s.formatVersion < 2^32 := by
    rw [h.version]
    decide
  have h0 : 0 < 2^64 := by decide
  obtain ⟨hd,hc,ha,hx,hh⟩ := h.narrow
  obtain ⟨hz,hs,hl⟩ := h.wide
  obtain ⟨hp,hi,hk⟩ := h.texts
  have hlen : (s.encodeMetadataVersion version).length = superblockSize := by
    simp only [encodeMetadataVersion,length_finishWithCrc,padTo,List.length_append,List.length_replicate,
      fieldBytes,stringBytes,length_leBytes,hm,superblockSize]
    have hbytes : ∀ t : String, t.toUTF8.data.toList.length = t.utf8ByteSize := fun _ => rfl
    simp only [hbytes,maxStr] at *
    omega
  refine (framed_ok hlen).mpr ⟨_,rfl,by simp [encodeMetadataVersion,finishWithCrc,padTo,hm],?_⟩
  simp only [reader,Reader.decode_ok,Reader.bind_ok,Reader.take_ok,Reader.u32_ok,Reader.u64_ok,Reader.uuid_ok,
    Reader.ensure_ok,Reader.lift_ok,Reader.pure_ok]
  -- the fields at their offsets; the padding stays unread
  exact ⟨_,_,⟨8,_⟩,⟨hm,by simp only [padTo,fieldBytes,List.append_assoc]; rfl,rfl⟩,_,⟨12,_⟩,⟨hver,rfl,rfl⟩,(),_,
    ⟨hv,rfl⟩,_,⟨20,_⟩,⟨h.generation,rfl,rfl⟩,_,⟨36,_⟩,⟨rfl,rfl⟩,_,⟨40,_⟩,⟨hd,rfl,rfl⟩,_,⟨44,_⟩,⟨hc,rfl,rfl⟩,
    _,⟨48,_⟩,⟨ha,rfl,rfl⟩,_,⟨52,_⟩,⟨hx,rfl,rfl⟩,_,⟨56,_⟩,⟨hh,rfl,rfl⟩,_,⟨64,_⟩,⟨hz,rfl,rfl⟩,_,⟨72,_⟩,⟨hs,rfl,rfl⟩,
    _,⟨80,_⟩,⟨hl,rfl,rfl⟩,_,⟨84,_⟩,⟨hf,rfl,rfl⟩,_,⟨92,_⟩,⟨h.created,rfl,rfl⟩,_,⟨100,_⟩,⟨h0,rfl,rfl⟩,(),_,
    ⟨h.version,rfl⟩,(),_,⟨rfl,rfl⟩,_,_,Reader.string_append hp hmax,_,_,Reader.string_append hi hmax,_,_,
    Reader.string_append hk hmax,_,_,⟨h.computed,rfl⟩,(),_,⟨⟨rfl,rfl⟩,rfl⟩,rfl,rfl⟩

end Superblock

namespace VolumeSuperblock

variable {μ : Type} [Crc32]

def decode (data : Bytes) : Except FormatError VolumeSuperblock := do
  let superblock ← Superblock.decode data
  return ⟨superblock,leNat ((data.drop 8).take 4)⟩

/-- Callers choose a supported envelope. -/
def encode (r : VolumeSuperblock) : Bytes := r.superblock.encodeMetadataVersion r.metadataVersion

instance : AbRecord VolumeSuperblock where
  maxEncodedLen := superblockSize
  generation r := r.superblock.generation
  setGeneration g r := { r with superblock := { r.superblock with generation := g } }
  encode := encode
  decode := decode

def store : AbStore := { a := .superblock .a, b := .superblock .b }

/-- A copy of another length: only a recognizable later version refuses. -/
def judgeHeader (header : Bytes) : Except FormatError (Option (VolumeSuperblock × Bytes)) :=
  let version := leNat ((header.drop 8).take 4)
  if header.take 8 = superblockMagic ∧ ¬ supportedVersion version then
    .error (.Unsupported s!"superblock version {version}")
  else .ok none

def judge (bytes : Bytes) : Except FormatError (Option (VolumeSuperblock × Bytes)) :=
  match decode bytes with
  | .ok record => .ok (some (record,bytes))
  | .error (.Unsupported what) => .error (.Unsupported what)
  | .error _ => .ok none

def readVolumeCopy (path : Path) : Io μ FormatError (Option (VolumeSuperblock × Bytes)) := do
  match ← formatIo (Io.optional .NotFound (Io.openFile path false)) with
  | none => return none
  | some file =>
    let length ← formatIo (Io.len file)
    if length ≠ superblockSize then
      if length ≥ 12 then
        match ← formatIo (Io.optional .UnexpectedEof (Io.readAt file 0 12)) with
        | none => return none
        | some header => Prog.ofExcept (judgeHeader header)
      else return none
    else
      match ← formatIo (Io.optional .UnexpectedEof (Io.readAt file 0 superblockSize)) with
      | none => return none
      | some bytes => Prog.ofExcept (judge bytes)

def copyAt (d : Disk) (path : Path) : Except FormatError (Option (VolumeSuperblock × Bytes)) :=
  sizedAt superblockSize judgeHeader judge d path

theorem readVolumeCopy_checks (path : Path) :
    Io.Checks (readVolumeCopy path : Io μ FormatError _) fun d => copyAt d path :=
  Io.Checks.congr (p := readVolumeCopy path) (checks_sized path) fun _ => rfl

/-- Refuse supported-version mixtures and same-generation conflicts. -/
def select : Option (VolumeSuperblock × Bytes) → Option (VolumeSuperblock × Bytes) →
    Except FormatError VolumeSuperblock
  | some (a,aBytes), some (b,bBytes) =>
    if a.metadataVersion ≠ b.metadataVersion then
      .error (.Invalid
        "mixed superblock metadata versions; refusing an interrupted format change")
    else if a.superblock.generation = b.superblock.generation ∧ aBytes ≠ bBytes then
      .error (.Invalid "conflicting superblocks at the same generation")
    else if a.superblock.generation ≥ b.superblock.generation then .ok a else .ok b
  | some (record,_), none => .ok record
  | none, some (record,_) => .ok record
  | none, none => .error (.Invalid "no valid superblock")

end VolumeSuperblock

def loadVolumeSuperblock {μ : Type} [Crc32] : Io μ FormatError VolumeSuperblock := do
  let a ← VolumeSuperblock.readVolumeCopy (.superblock .a)
  let b ← VolumeSuperblock.readVolumeCopy (.superblock .b)
  Prog.ofExcept (VolumeSuperblock.select a b)

def superblockAt [Crc32] (d : Disk) : Except FormatError VolumeSuperblock :=
  (VolumeSuperblock.copyAt d (.superblock .a)).bind fun a =>
    (VolumeSuperblock.copyAt d (.superblock .b)).bind fun b => VolumeSuperblock.select a b

section Load

variable {μ : Type} [Crc32]

theorem loadVolumeSuperblock_checks : Io.Checks (loadVolumeSuperblock : Io μ FormatError _) superblockAt :=
  (VolumeSuperblock.readVolumeCopy_checks _).bind fun _ =>
    (VolumeSuperblock.readVolumeCopy_checks _).bind fun _ => .ofExcept _

theorem loadVolumeSuperblock_still : Io.Still (loadVolumeSuperblock : Io μ FormatError _) :=
  .ofChecks loadVolumeSuperblock_checks

theorem Superblock.computed_of_decode {data : Bytes} {s : Superblock}
    (h : Superblock.decode data = .ok s) : s.geometry.Computed := by
  unfold Superblock.decode at h
  split at h
  · cases h
  simp only at h
  split at h
  · cases h
  obtain ⟨payload,-,h⟩ := bind_eq_ok h
  obtain ⟨t,ht⟩ := Reader.decode_ok.mp h
  unfold Superblock.reader at ht
  -- the fields in front of the geometry
  iterate 21 obtain ⟨_,_,_,ht⟩ := Reader.bind_ok.mp ht
  obtain ⟨geometry,_,hgeometry,ht⟩ := Reader.bind_ok.mp ht
  obtain ⟨_,_,_,ht⟩ := Reader.bind_ok.mp ht
  cases ht
  exact (Geometry.compute_spec (Reader.lift_ok.mp hgeometry).1).1

variable {d : Disk} {r : VolumeSuperblock}

theorem VolumeSuperblock.copyAt_some {path : Path} {bs : Bytes} :
    copyAt d path = .ok (some (r,bs)) ↔
      d.image path = some bs ∧ bs.length = superblockSize ∧ decode bs = .ok r := by
  have hjudge : ∀ bytes, judge bytes = .ok (some (r,bs)) ↔ bytes = bs ∧ decode bytes = .ok r := by
    intro bytes
    unfold judge
    cases hd : decode bytes with
    | ok record => simp [and_comm]
    | error e => cases e <;> simp
  have hheader : ∀ bytes, judgeHeader bytes ≠ .ok (some (r,bs)) := by
    intro bytes
    simp only [judgeHeader]
    split <;> simp
  simp only [copyAt,sizedAt_some hheader,hjudge]
  constructor
  · rintro ⟨bytes,himage,hlen,rfl,hdecode⟩
    exact ⟨himage,hlen,hdecode⟩
  · rintro ⟨himage,hlen,hdecode⟩
    exact ⟨bs,himage,hlen,rfl,hdecode⟩

/-- A copy beside the one that was chosen. -/
def VolumeSuperblock.Older (r : VolumeSuperblock) (bs : Bytes) (q : VolumeSuperblock × Bytes) : Prop :=
  q.1.metadataVersion = r.metadataVersion ∧ q.1.superblock.generation ≤ r.superblock.generation ∧
    (q.1.superblock.generation = r.superblock.generation → q.2 = bs)

omit [Crc32] in
theorem VolumeSuperblock.select_ok {held : Side → Option (VolumeSuperblock × Bytes)}
    (h : select (held .a) (held .b) = .ok r) :
    ∃ bs, Chosen held (r,bs) (r.Older bs) := by
  have htwo : ∀ a b r, select (some a) (some b) = .ok r →
      a.1 = r ∧ a.1.Older a.2 b ∨ b.1 = r ∧ b.1.Older b.2 a := by
    rintro ⟨a,as⟩ ⟨b,bs⟩ r hr
    simp only [select] at hr
    split_ifs at hr with hv hg hn
    · exact .inl ⟨Except.ok.inj hr,(not_not.mp hv).symm,hn,
        fun he => (not_not.mp (not_and.mp hg he.symm)).symm⟩
    · exact .inr ⟨Except.ok.inj hr,not_not.mp hv,Nat.le_of_not_le hn,fun he => absurd he.symm.le hn⟩
  obtain ⟨⟨_,bs⟩,rfl,hv⟩ := Chosen.ofSelect (fun _ => ⟨rfl,Nat.le_refl _,fun _ => rfl⟩) (by simp [select])
    (fun _ => ⟨rfl,rfl⟩) htwo h
  exact ⟨bs,hv⟩

theorem superblockAt_ok (h : superblockAt d = .ok r) :
    ∃ held, (∀ x, VolumeSuperblock.copyAt d (.superblock x) = .ok (held x)) ∧
      ∃ bs, Chosen held (r,bs) (r.Older bs) := by
  obtain ⟨held,hheld,hs⟩ := both_sides (fun x => VolumeSuperblock.copyAt d (.superblock x)) h
  exact ⟨held,hheld,VolumeSuperblock.select_ok hs⟩

theorem superblockAt_computed (h : superblockAt d = .ok r) :
    r.superblock.geometry.Computed := by
  obtain ⟨held,hheld,bs,⟨x,hx⟩,-⟩ := superblockAt_ok h
  obtain ⟨-,-,hdecode⟩ := VolumeSuperblock.copyAt_some.mp (hx ▸ hheld x)
  obtain ⟨s,hs,⟨⟩⟩ := bind_ok_iff.mp hdecode
  exact Superblock.computed_of_decode hs

end Load

end Maki
