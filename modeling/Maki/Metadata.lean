import Maki.Superblock
import Maki.SlotFormat
import Maki.CheckpointState
import Maki.ProofRun
import Maki.VolumeSession

/-! The metadata records as a whole: each decoder inverts its encoder, the A/B records have one
encoding for each value, and a load of the two records that fail closed (the superblock and the
durable proof) never falls back behind what a copy says. -/
namespace Maki

section Loads

variable [Crc32]

/-- Decoders invert encoders, and the records of the A/B stores have one encoding. -/
theorem metadata_codecs_inverse :
    (∀ s : Superblock, s.Fits → ∀ version, supportedVersion version →
      Superblock.decode (s.encodeMetadataVersion version) = .ok s) ∧
    (∀ (m : AllocationMap) bytes, AllocationMap.decode bytes = .ok m ↔
      (m.generation < 2^64 ∧ m.units ≤ maxUnits) ∧ bytes = m.encode) ∧
    (∀ (c : ShardCatalog) bytes, ShardCatalog.decode bytes = .ok c ↔ c.Fits ∧ bytes = c.encode) ∧
    (∀ (r : CheckpointState) bytes, CheckpointState.decode bytes = .ok r ↔ r.Fits ∧ bytes = r.encode) ∧
    (∀ (p : DurableProof) bytes, DurableProof.decode bytes = .ok p ↔ p.Fits ∧ bytes = p.encode) ∧
    (∀ h : SegmentHeader, h.segmentIndex < 2^64 → h.baseSequence < 2^64 →
      SegmentHeader.decode h.encode = .ok h) ∧
    (∀ m : DurableMark, m.segmentIndex < 2^64 → m.durableSize < 2^64 →
      DurableMark.decode m.encode = .ok m) ∧
    ∀ h : SlotHeader, h.Fits → SlotHeader.decode h.encode = .ok h :=
  ⟨fun _ h _ hv => Superblock.decode_encode h hv,fun _ _ => AllocationMap.decode_ok,
    fun _ _ => ShardCatalog.decode_ok,fun _ _ => CheckpointState.decode_ok,fun _ _ => DurableProof.decode_ok,
    fun h hi hb => (SegmentHeader.decode_ok (SegmentHeader.length_encode h)).mpr ⟨⟨hi,hb⟩,rfl⟩,
    fun _ hi hs => DurableMark.decode_encode hi hs,fun _ h => SlotHeader.decode_encode h⟩

/-- An image that says it is a record of a format: it has the magic and room for a version, and its
checksum holds where it has the size of this version. -/
structure Genuine (magic : Bytes) (size : ℕ) (bs : Bytes) : Prop where
  magic : bs.take 8 = magic
  length : 12 ≤ bs.length
  crc : bs.length = size → ∃ payload, bs = finishWithCrc payload

def envelopeVersion (bs : Bytes) : ℕ := leNat ((bs.drop 8).take 4)

/-- What this version of the format can read: the envelope and, in an image of its size, the crypto
format version and the flags. -/
structure SupportedSuperblock (bs : Bytes) : Prop where
  envelope : supportedVersion (envelopeVersion bs)
  crypto : bs.length = superblockSize → leNat ((bs.drop 80).take 4) = cryptoFormatVersion
  flags : bs.length = superblockSize → leNat ((bs.drop 92).take 8) = 0

namespace Reader

/-! Reads at a position of a buffer that is long enough. -/

variable {p : Bytes} {pos n : ℕ}

omit [Crc32]

theorem take_at (h : pos+n ≤ p.length) :
    take n ⟨pos,p.drop pos⟩ = .ok ((p.drop pos).take n,⟨pos+n,p.drop (pos+n)⟩) := by
  rw [take,if_neg (by simp only [List.length_drop]; omega),List.drop_drop]

theorem nat_at (h : pos+n ≤ p.length) : (do return leNat (← take n) : Reader ℕ) ⟨pos,p.drop pos⟩ =
    .ok (leNat ((p.drop pos).take n),⟨pos+n,p.drop (pos+n)⟩) := by
  simp only [bind,StateT.bind,Except.bind,take_at h]
  rfl

theorem u32_at (h : pos+4 ≤ p.length) :
    u32 ⟨pos,p.drop pos⟩ = .ok (leNat ((p.drop pos).take 4),⟨pos+4,p.drop (pos+4)⟩) := nat_at h

theorem u64_at (h : pos+8 ≤ p.length) :
    u64 ⟨pos,p.drop pos⟩ = .ok (leNat ((p.drop pos).take 8),⟨pos+8,p.drop (pos+8)⟩) := nat_at h

theorem uuid_at (h : pos+16 ≤ p.length) :
    uuid ⟨pos,p.drop pos⟩ =
      .ok (BitVec.ofNat 128 (leNat ((p.drop pos).take 16)),⟨pos+16,p.drop (pos+16)⟩) := by
  simp only [uuid,bind,StateT.bind,Except.bind,take_at h]
  rfl

/-- The reader does not find that the record is of another version. -/
def Passes {α : Type} (r : Reader α) (s : ReaderState) : Prop := ∀ what, r s ≠ .error (.Unsupported what)

variable {α β : Type} {r : Reader α} {f : α → Reader β} {s s' : ReaderState}

theorem Passes.bind (h : (r >>= f).Passes s) {a : α} (hr : r s = .ok (a,s')) : (f a).Passes s' := by
  intro what hw
  apply h what
  simp only [Bind.bind,StateT.bind,Except.bind,hr,hw]

theorem Passes.ensure {c : Prop} [Decidable c] {m : String} {f : Unit → Reader β}
    (h : (Reader.ensure c (.Unsupported m) >>= f).Passes s) : c ∧ (f ()).Passes s := by
  by_cases hc : c
  · exact ⟨hc,h.bind (ensure_ok.mpr ⟨hc,rfl⟩)⟩
  · refine absurd ?_ (h m)
    simp only [Reader.ensure,if_neg hc]
    rfl

theorem passes_of_decode {buf : Bytes} (h : ∀ what, r.decode buf ≠ .error (.Unsupported what)) :
    r.Passes ⟨0,buf.drop 0⟩ := by
  intro what hw
  apply h what
  simp only [decode,StateT.run,Bind.bind,Except.bind,show r ⟨0,buf⟩ = _ from hw]

end Reader

omit [Crc32] in
/-- The decoder reaches the three fields that can say a superblock is of another version. -/
theorem Superblock.supported_of_reader {p : Bytes} (hp : 100 ≤ p.length)
    (h : ∀ what, Superblock.reader.decode p ≠ .error (.Unsupported what)) :
    supportedVersion (envelopeVersion p) ∧ leNat ((p.drop 80).take 4) = cryptoFormatVersion ∧
      leNat ((p.drop 92).take 8) = 0 := by
  have h := (Reader.passes_of_decode h).bind (Reader.take_at (by omega))
  obtain ⟨hv,h⟩ := (h.bind (Reader.u32_at (by omega))).ensure
  -- the generation and the identity
  have h := (h.bind (Reader.u64_at (by omega))).bind (Reader.uuid_at (by omega))
  -- the geometry
  have h := (h.bind (Reader.u32_at (by omega))).bind (Reader.u32_at (by omega))
  have h := (h.bind (Reader.u32_at (by omega))).bind (Reader.u32_at (by omega))
  have h := (h.bind (Reader.u32_at (by omega))).bind (Reader.u64_at (by omega))
  have h := (h.bind (Reader.u64_at (by omega))).bind (Reader.u64_at (by omega))
  have h := (h.bind (Reader.u32_at (by omega))).bind (Reader.u64_at (by omega))
  obtain ⟨hf,h⟩ := (h.bind (Reader.u64_at (by omega))).ensure
  exact ⟨hv,hf,h.ensure.1⟩

omit [Crc32] in
theorem DurableProof.supported_of_reader {p : Bytes} (hp : 12 ≤ p.length) (hm : p.take 8 = durableProofMagic)
    (h : ∀ what, DurableProof.reader.decode p ≠ .error (.Unsupported what)) :
    envelopeVersion p = durableProofVersion := by
  have h := (Reader.passes_of_decode h).bind (Reader.take_at (by omega))
  have h := h.bind (a := ()) (Reader.ensure_ok.mpr ⟨hm,rfl⟩)
  exact (h.bind (Reader.u32_at (by omega))).ensure.1

namespace Genuine

variable {magic bs : Bytes} {size : ℕ}

/-- The fields of an image of the size are those of its payload. -/
theorem payload (h : Genuine magic size bs) (hs : bs.length = size) : ∃ p, bs = finishWithCrc p ∧
    p.length+4 = size ∧ ∀ pos n, pos+n ≤ p.length → (bs.drop pos).take n = (p.drop pos).take n := by
  obtain ⟨p,rfl⟩ := h.crc hs
  refine ⟨p,rfl,by rw [← hs,length_finishWithCrc],fun pos n hn => ?_⟩
  rw [finishWithCrc,List.drop_append_of_le_length (by omega),
    List.take_append_of_le_length (by rw [List.length_drop]; omega)]

theorem header (h : Genuine magic size bs) : (bs.take 12).take 8 = magic := by
  simpa [List.take_take] using h.magic

end Genuine

omit [Crc32] in
theorem envelopeVersion_take (bs : Bytes) : envelopeVersion (bs.take 12) = envelopeVersion bs := by
  simp [envelopeVersion,List.drop_take,List.take_take]

variable {d : Disk} {path : Path} {bs : Bytes}

/-- A copy that a load does not refuse is of this version, if it is a superblock at all. -/
theorem VolumeSuperblock.supported (h : Genuine superblockMagic superblockSize bs)
    (hi : d.image path = some bs) {r : Option (VolumeSuperblock × Bytes)} (hr : copyAt d path = .ok r) :
    SupportedSuperblock bs := by
  simp only [copyAt,sizedAt,hi,sizedOf] at hr
  by_cases hl : bs.length = superblockSize
  · obtain ⟨p,heq,hp,hfields⟩ := h.payload hl
    have hp : p.length = 4092 := by
      simp only [superblockSize] at hp
      omega
    obtain ⟨hv,hf,hz⟩ := Superblock.supported_of_reader (p := p) (by omega) fun what hw => by
      have hdecode : Superblock.decode bs = .error (.Unsupported what) := by
        simp only [Superblock.decode,hl,Nat.lt_irrefl,if_false,List.take_of_length_le hl.le,h.magic,ne_eq,
          not_true_eq_false]
        simp only [heq,stripVerifyCrc_finish,bind,Except.bind,hw]
      simp [hl,judge,decode,hdecode,bind,Except.bind] at hr
    rw [envelopeVersion,← hfields 8 4 (by omega)] at hv
    rw [← hfields 80 4 (by omega)] at hf
    rw [← hfields 92 8 (by omega)] at hz
    exact ⟨hv,fun _ => hf,fun _ => hz⟩
  · refine ⟨?_,fun he => absurd he hl,fun he => absurd he hl⟩
    by_contra hv
    rw [← envelopeVersion_take,envelopeVersion] at hv
    simp [hl,h.length,judgeHeader,h.header,hv] at hr

theorem DurableProofStore.supported {u : BitVec 128} (h : Genuine durableProofMagic durableProofSize bs)
    (hi : d.image path = some bs) {r : Option DurableProof} (hr : copyAt u d path = .ok r) :
    envelopeVersion bs = durableProofVersion := by
  simp only [copyAt,hi,copyOf] at hr
  by_cases hl : bs.length = durableProofSize
  · obtain ⟨p,heq,hp,hfields⟩ := h.payload hl
    have hp : p.length = 60 := by
      simp only [durableProofSize] at hp
      omega
    have hm : p.take 8 = durableProofMagic := (hfields 0 8 (by omega)).symm.trans h.magic
    rw [envelopeVersion,hfields 8 4 (by omega)]
    refine DurableProof.supported_of_reader (by omega) hm fun what hw => ?_
    have hdecode : DurableProof.decode bs = .error (.Unsupported what) := by
      simp only [DurableProof.decode,hl,Nat.lt_irrefl,if_false,ne_eq,not_true_eq_false]
      simp only [heq,stripVerifyCrc_finish,bind,Except.bind,hw]
    simp [hl,judge,hdecode] at hr
  · by_contra hv
    rw [← envelopeVersion_take,envelopeVersion] at hv
    simp [hl,h.length,judgeHeader,h.header,hv] at hr

/-- A copy of the size that decodes as unsupported is refused. -/
theorem VolumeSuperblock.not_unsupported (hi : d.image path = some bs) (hl : bs.length = superblockSize)
    {r : Option (VolumeSuperblock × Bytes)} (hr : copyAt d path = .ok r) (what : String) :
    decode bs ≠ .error (.Unsupported what) := by
  intro hdecode
  simp [copyAt,sizedAt,hi,sizedOf,hl,judge,hdecode] at hr

theorem DurableProofStore.not_unsupported {u : BitVec 128} (hi : d.image path = some bs)
    (hl : bs.length = durableProofSize) {r : Option DurableProof} (hr : copyAt u d path = .ok r)
    (what : String) : DurableProof.decode bs ≠ .error (.Unsupported what) := by
  intro hdecode
  simp [copyAt,hi,copyOf,hl,judge,hdecode] at hr

omit [Crc32] in
theorem DurableProofStore.select_ok {held : Side → Option DurableProof} {p : DurableProof}
    (h : select (held .a) (held .b) = .ok p) :
    Chosen held p fun q => p.Follows q ∧ (q.generation = p.generation → q = p) := by
  have htwo : ∀ a b r, select (some a) (some b) = .ok r →
      a = r ∧ a.Follows b ∧ (b.generation = a.generation → b = a) ∨
        b = r ∧ b.Follows a ∧ (a.generation = b.generation → a = b) := by
    intro a b r hr
    simp only [select] at hr
    split_ifs at hr with hg hn
    · obtain ⟨_,hf,hr⟩ := bind_ok_iff.mp hr
      exact .inr ⟨Except.ok.inj hr,DurableProof.follows_iff.mp hf,fun he => not_not.mp (not_and.mp hg he)⟩
    · obtain ⟨_,hf,hr⟩ := bind_ok_iff.mp hr
      exact .inl ⟨Except.ok.inj hr,DurableProof.follows_iff.mp hf,fun he => absurd he.symm.le hn⟩
  obtain ⟨_,rfl,hp⟩ := Chosen.ofSelect (fun q => ⟨.refl q,fun _ => rfl⟩) (by simp [select])
    (fun _ => ⟨rfl,rfl⟩) htwo h
  exact hp

/-- A copy of this volume that decodes counts; one of another volume is refused. -/
theorem DurableProofStore.held_of_decode {u : BitVec 128} {q : DurableProof} {o : Option DurableProof}
    (hi : d.image path = some bs) (hq : DurableProof.decode bs = .ok q) (h : copyAt u d path = .ok o) :
    q.volumeUuid = u ∧ o = some q := by
  obtain ⟨hf,rfl⟩ := DurableProof.decode_ok.mp hq
  rw [copyAt_of_image hi] at h
  by_cases hu : q.volumeUuid = u
  · rw [copyOf_encode hf hu] at h
    exact ⟨hu,(Except.ok.inj h).symm⟩
  · rw [copyOf_foreign hf hu] at h
    cases h

/-- Loads speak for both copies, whatever these hold: none says of itself that it is of another
version, and what is returned is the latest of what decodes. -/
theorem loads_never_downgrade {μ : Type} (s : μ × Disk) :
    Prog.Returns (· = s) loadVolumeSuperblock (fun r _ =>
      (∀ x bs, s.2.image (.superblock x) = some bs →
        (Genuine superblockMagic superblockSize bs → SupportedSuperblock bs) ∧
        (bs.length = superblockSize → ∀ what, VolumeSuperblock.decode bs ≠ .error (.Unsupported what))) ∧
      ∃ x bs, s.2.image (.superblock x) = some bs ∧ VolumeSuperblock.decode bs = .ok r ∧
        ∀ y q qs, s.2.image (.superblock y) = some qs → qs.length = superblockSize →
          VolumeSuperblock.decode qs = .ok q → r.Older bs (q,qs)) ∧
    ∀ u, Prog.Returns (· = s) (DurableProofStore.load u) fun p _ =>
      (∀ x bs, s.2.image (.durableProof x) = some bs →
        (Genuine durableProofMagic durableProofSize bs → envelopeVersion bs = durableProofVersion) ∧
        (bs.length = durableProofSize → ∀ what, DurableProof.decode bs ≠ .error (.Unsupported what))) ∧
      (∃ x bs, s.2.image (.durableProof x) = some bs ∧ DurableProof.decode bs = .ok p) ∧
      ∀ x q bs, s.2.image (.durableProof x) = some bs → DurableProof.decode bs = .ok q →
        q.volumeUuid = u ∧ p.Follows q ∧ (q.generation = p.generation → q = p) := by
  refine ⟨(loadVolumeSuperblock_checks.triple s).weaken (fun r _ h => ?_) (fun _ _ _ => trivial) fun _ _ => trivial,
    fun u => ((DurableProofStore.load_checks u).triple s).weaken (fun p _ h => ?_) (fun _ _ _ => trivial)
      fun _ _ => trivial⟩
  · obtain ⟨held,hheld,bs,⟨x,hx⟩,hall⟩ := superblockAt_ok h.2
    obtain ⟨hi,-,hdecode⟩ := VolumeSuperblock.copyAt_some.mp (hx ▸ hheld x)
    refine ⟨fun y qs hq => ⟨fun hg => VolumeSuperblock.supported hg hq (hheld y),
      fun hl => VolumeSuperblock.not_unsupported hq hl (hheld y)⟩,x,bs,hi,hdecode,fun y q qs hq hl hd => ?_⟩
    have hc := VolumeSuperblock.copyAt_some.mpr ⟨hq,hl,hd⟩
    exact hall y _ (Except.ok.inj ((hheld y).symm.trans hc))
  · obtain ⟨held,hheld,hs⟩ := both_sides (fun x => DurableProofStore.copyAt u s.2 (.durableProof x)) h.2
    obtain ⟨⟨x,hx⟩,hall⟩ := DurableProofStore.select_ok hs
    refine ⟨fun y qs hq => ⟨fun hg => DurableProofStore.supported hg hq (hheld y),
      fun hl => DurableProofStore.not_unsupported hq hl (hheld y)⟩,⟨x,?_⟩,fun y q qs hq hd => ?_⟩
    · have hheader : ∀ bs, DurableProofStore.judgeHeader bs ≠ .ok (some p) := fun bs => by
        simp only [DurableProofStore.judgeHeader]
        split <;> simp
      have hcopy : sizedAt durableProofSize DurableProofStore.judgeHeader (DurableProofStore.judge u) s.2
          (.durableProof x) = .ok (some p) := hx ▸ hheld x
      obtain ⟨bs,hi,-,hj⟩ := (sizedAt_some hheader).mp hcopy
      refine ⟨bs,hi,?_⟩
      unfold DurableProofStore.judge at hj
      grind
    · obtain ⟨hu,hy⟩ := DurableProofStore.held_of_decode hq hd (hheld y)
      exact ⟨hu,hall y q hy⟩

end Loads

attribute [local instance] Volume.instCrc32

/-- Copies of two volumes of different size. -/
def sampleCopy (i : ℕ) : VolumeSuperblock :=
  ⟨{ Volume.sampleVolume with
    generation := i, volumeUuid := BitVec.ofNat 128 i
    geometry := ⟨512,512,512,512,64,1024,2048*i,1024⟩ },1⟩

def sampleCopies : Disk :=
  (Disk.relink { inodes := fun i => Inode.fromContent (sampleCopy i).encode } (.superblock .a) (some 1)).relink
    (.superblock .b) (some 2)

/-- Nothing compares what copies of different generations say about the volume. -/
theorem load_mixes_volumes :
    (loadVolumeSuperblock [] ((),sampleCopies)).1 = .ok (sampleCopy 2) ∧
      (∃ bs, sampleCopies.image (.superblock .a) = some bs ∧ VolumeSuperblock.decode bs = .ok (sampleCopy 1)) ∧
      (sampleCopy 1).superblock.volumeUuid ≠ (sampleCopy 2).superblock.volumeUuid ∧
      (sampleCopy 1).superblock.geometry ≠ (sampleCopy 2).superblock.geometry :=
  ⟨by decide +kernel,⟨_,rfl,by decide +kernel⟩,by decide,by decide⟩

end Maki
