import Mathlib
import Maki.AbStore
import Maki.Geometry

/-! The records of the slot store: allocation and discard maps (`maki_format::allocation`),
the shard catalog (`catalog`) and slot headers (`slot`). -/
namespace Maki

def allocationMagic : Bytes := ascii "MAKIALC1"
def allocationVersion : ℕ := 1
def maxUnits : ℕ := 1 <<< 32

structure AllocationMap where
  generation : ℕ := 0
  units : ℕ
  bits : Bytes
  size : bits.length = (units+7)/8
  deriving DecidableEq

namespace AllocationMap

def new (units : ℕ) : AllocationMap where
  units := units
  bits := List.replicate ((units+7)/8) 0
  size := List.length_replicate

def get (m : AllocationMap) (unit : ℕ) : Bool := (m.bits.getD (unit/8) 0).toBitVec.getLsbD (unit % 8)

def setBit (byte : UInt8) (i : ℕ) (allocated : Bool) : UInt8 :=
  let mask : UInt8 := ⟨BitVec.twoPow 8 i⟩
  if allocated then byte ||| mask else byte &&& ~~~mask

def set (m : AllocationMap) (unit : ℕ) (allocated : Bool) : AllocationMap :=
  { m with
    bits := m.bits.set (unit/8) (setBit (m.bits.getD (unit/8) 0) (unit % 8) allocated)
    size := by rw [List.length_set,m.size] }

def setCount (m : AllocationMap) : ℕ :=
  (m.bits.map fun byte => (List.range 8).countP fun i => byte.toBitVec.getLsbD i).sum

def encodedLen (units : ℕ) : ℕ := allocationFixedBytes+(units+7)/8

section Bits

variable {m : AllocationMap} {u v : ℕ}

@[simp] theorem units_set (b : Bool) : (m.set u b).units = m.units := rfl
@[simp] theorem generation_set (b : Bool) : (m.set u b).generation = m.generation := rfl

theorem getLsbD_setBit {byte : UInt8} {i j : ℕ} (hi : i < 8) (b : Bool) :
    (setBit byte i b).toBitVec.getLsbD j = if j = i then b else byte.toBitVec.getLsbD j := by
  by_cases hj : j < 8
  · by_cases hij : j = i
    · subst hij
      cases b <;> simp [setBit,hj]
    · cases b <;> simp [setBit,hj,hij]
  · have hij : j ≠ i := by omega
    simp [hij,BitVec.getLsbD_of_ge _ j (Nat.not_lt.mp hj)]

theorem get_set (hu : u < m.units) (b : Bool) :
    (m.set u b).get v = if v = u then b else m.get v := by
  have hlen : u/8 < m.bits.length := by
    have := m.size
    omega
  have hmod : u % 8 < 8 := Nat.mod_lt _ (by decide)
  unfold get set
  by_cases hd : v/8 = u/8
  · rw [hd]
    simp only [List.getD_eq_getElem?_getD,List.getElem?_set_self hlen,Option.getD_some]
    rw [getLsbD_setBit hmod]
    by_cases hv : v % 8 = u % 8
    · rw [if_pos hv,if_pos (by omega)]
    · rw [if_neg hv,if_neg (by omega)]
  · have hne : u/8 ≠ v/8 := fun h => hd h.symm
    have hvu : v ≠ u := by omega
    simp only [List.getD_eq_getElem?_getD,List.getElem?_set_ne hne,if_neg hvu]

theorem get_new (units : ℕ) : (new units).get u = false := by
  unfold get new
  rw [List.getD_eq_getElem?_getD]
  by_cases h : u/8 < (units+7)/8 <;> simp [h]

end Bits

variable [Crc32]

def encode (m : AllocationMap) : Bytes :=
  finishWithCrc (allocationMagic ++ (leBytes 4 allocationVersion ++ (leBytes 8 m.generation ++
    (leBytes 8 m.units ++ m.bits))))

def reader : Reader AllocationMap := do
  let magic ← Reader.take 8
  Reader.ensure (magic = allocationMagic) (.BadMagic "allocation map")
  let version ← Reader.u32
  Reader.ensure (version = allocationVersion) (.Unsupported s!"allocation map version {version}")
  let generation ← Reader.u64
  let units ← Reader.u64
  Reader.ensure (units ≤ maxUnits) (.Invalid s!"allocation units {units}")
  let bits ← Reader.takeSized ((units+7)/8)
  let left ← Reader.remaining
  Reader.ensure (left = 0) (.Invalid "trailing bytes after allocation bitmap")
  return ⟨generation,units,bits.1,bits.2⟩

def decode (data : Bytes) : Except FormatError AllocationMap := do
  let payload ← stripVerifyCrc data "allocation map"
  reader.decode payload

theorem decode_ok {bytes : Bytes} {m : AllocationMap} :
    decode bytes = .ok m ↔ (m.generation < 2^64 ∧ m.units ≤ maxUnits) ∧ bytes = m.encode := by
  have hm : allocationMagic.length = 8 := by decide
  have hv : allocationVersion < 4294967296 := by decide
  obtain ⟨generation,units,bits,hs⟩ := m
  have hu : units ≤ maxUnits → units < 18446744073709551616 := fun h => lt_of_le_of_lt h (by decide)
  simp [decode,reader,encode,bind_ok_iff,stripVerifyCrc_ok_iff,hm,hv,hs]
  tauto

instance : AbRecord AllocationMap where
  generation m := m.generation
  setGeneration g m := { m with generation := g }
  encode := encode
  decode := decode

end AllocationMap

def catalogMagic : Bytes := ascii "MAKICAT1"
def catalogVersion : ℕ := 1

structure ShardCatalog where
  generation : ℕ := 0
  shards : List ℕ := []
  ascending : shards.Pairwise (· < ·) := by simp
  deriving DecidableEq

namespace ShardCatalog

theorem ascending_nil : ([] : List ℕ).Pairwise (· < ·) := .nil

def contains (c : ShardCatalog) (shard : ℕ) : Bool := shard ∈ c.shards

theorem pairwise_insert {shards : List ℕ} (h : shards.Pairwise (· < ·)) (shard : ℕ) :
    (shards.filter (· < shard) ++ shard::shards.filter (shard < ·)).Pairwise (· < ·) := by
  rw [List.pairwise_append,List.pairwise_cons]
  refine ⟨h.filter _,⟨?_,h.filter _⟩,?_⟩
  · intro s hs
    simpa using (List.mem_filter.mp hs).2
  · intro a ha b hb
    have hlt : a < shard := by simpa using (List.mem_filter.mp ha).2
    rcases List.mem_cons.mp hb with rfl | hb
    · exact hlt
    · have hgt : shard < b := by simpa using (List.mem_filter.mp hb).2
      exact Nat.lt_trans hlt hgt

def insert (c : ShardCatalog) (shard : ℕ) : ShardCatalog where
  generation := c.generation
  shards := c.shards.filter (· < shard) ++ shard::c.shards.filter (shard < ·)
  ascending := pairwise_insert c.ascending shard

def maxEncodedLen (shards : ℕ) : ℕ := catalogFixedBytes+min (shards*8) u64Max

theorem pairwise_push {shards : List ℕ} {shard : ℕ} (h : shards.Pairwise (· < ·))
    (hl : ∀ p ∈ shards.getLast?, p < shard) : (shards ++ [shard]).Pairwise (· < ·) := by
  rw [List.pairwise_append]
  refine ⟨h,List.pairwise_singleton _ _,fun a ha b hb => ?_⟩
  rw [List.mem_singleton.mp hb]
  induction shards using List.reverseRecOn with
  | nil => cases ha
  | append_singleton shards p _ =>
    have hp : p < shard := hl p (by simp)
    rcases List.mem_append.mp ha with ha | ha
    · exact Nat.lt_trans ((List.pairwise_append.mp h).2.2 a ha p (by simp)) hp
    · rwa [List.mem_singleton.mp ha]

variable [Crc32]

def encode (c : ShardCatalog) : Bytes :=
  finishWithCrc (catalogMagic ++ (leBytes 4 catalogVersion ++ (leBytes 8 c.generation ++
    (leBytes 4 c.shards.length ++ c.shards.flatMap (leBytes 8)))))

def readShards : ℕ → (shards : List ℕ) → shards.Pairwise (· < ·) →
    Reader { shards : List ℕ // shards.Pairwise (· < ·) }
  | 0, shards, h => return ⟨shards,h⟩
  | count+1, shards, h => do
    let s ← Reader.u64
    if hs : ∀ p ∈ shards.getLast?, p < s then readShards count (shards ++ [s]) (pairwise_push h hs)
    else throw (.Invalid "catalog entries not strictly ascending")

def reader : Reader ShardCatalog := do
  let magic ← Reader.take 8
  Reader.ensure (magic = catalogMagic) (.BadMagic "shard catalog")
  let version ← Reader.u32
  Reader.ensure (version = catalogVersion) (.Unsupported s!"shard catalog version {version}")
  let generation ← Reader.u64
  let count ← Reader.u32
  Reader.ensure (count ≤ maxShards) (.Invalid s!"shard count {count}")
  let shards ← readShards count [] .nil
  let left ← Reader.remaining
  Reader.ensure (left = 0) (.Invalid "trailing bytes after catalog")
  return ⟨generation,shards.1,shards.2⟩

def decode (data : Bytes) : Except FormatError ShardCatalog := do
  let payload ← stripVerifyCrc data "shard catalog"
  reader.decode payload

omit [Crc32] in
theorem readShards_ok {count : ℕ} {shards : List ℕ} {h : shards.Pairwise (· < ·)} {s t : ReaderState}
    {all : { shards : List ℕ // shards.Pairwise (· < ·) }} :
    readShards count shards h s = .ok (all,t) ↔ ∃ more, all.1 = shards ++ more ∧ more.length = count ∧
      (∀ x ∈ more, x < 2^64) ∧ s.rest = more.flatMap (leBytes 8) ++ t.rest ∧ t.pos = s.pos+8*count := by
  induction count generalizing shards s with
  | zero =>
    simp only [readShards,Reader.pure_ok]
    constructor
    · rintro ⟨rfl,rfl⟩
      exact ⟨[],(List.append_nil _).symm,rfl,by simp,rfl,rfl⟩
    · rintro ⟨more,hall,hlen,-,hrest,hpos⟩
      obtain rfl := List.length_eq_zero_iff.mp hlen
      cases s
      cases t
      simp_all [Subtype.ext_iff]
  | succ count ih =>
    simp only [readShards,Reader.bind_ok,Reader.u64_ok]
    constructor
    · rintro ⟨x,s',⟨hx,hs',hp'⟩,hread⟩
      split at hread
      · obtain ⟨more,hall,hlen,hlt,hrest,hpos⟩ := ih.mp hread
        exact ⟨x::more,by simp [hall],by simp [hlen],by simpa using ⟨hx,hlt⟩,by simp [hs',hrest],by omega⟩
      · cases hread
    · rintro ⟨_ | ⟨x,more⟩,hall,hlen,hlt,hrest,hpos⟩
      · cases hlen
      · have hlast : ∀ p ∈ shards.getLast?, p < x := by
          intro p hp
          have hord := all.2
          rw [hall,List.pairwise_append] at hord
          exact hord.2.2 p (List.mem_of_getLast? hp) x List.mem_cons_self
        refine ⟨x,⟨s.pos+8,more.flatMap (leBytes 8) ++ t.rest⟩,⟨hlt x (by simp),by simpa using hrest,rfl⟩,?_⟩
        rw [dif_pos hlast]
        exact ih.mpr ⟨more,by simp [hall],by simpa using hlen,fun y hy => hlt y (by simp [hy]),rfl,by simp; omega⟩

def Fits (c : ShardCatalog) : Prop :=
  c.generation < 2^64 ∧ c.shards.length ≤ maxShards ∧ ∀ x ∈ c.shards, x < 2^64

theorem decode_ok {bytes : Bytes} {c : ShardCatalog} : decode bytes = .ok c ↔ c.Fits ∧ bytes = c.encode := by
  have hm : catalogMagic.length = 8 := by decide
  have hv : catalogVersion < 4294967296 := by decide
  obtain ⟨generation,shards,hs⟩ := c
  have hc : shards.length ≤ maxShards → shards.length < 4294967296 := fun h => lt_of_le_of_lt h (by decide)
  simp [decode,reader,encode,Fits,bind_ok_iff,stripVerifyCrc_ok_iff,hm,hv,readShards_ok]
  tauto

instance : AbRecord ShardCatalog where
  generation c := c.generation
  setGeneration g c := { c with generation := g }
  encode := encode
  decode := decode

end ShardCatalog

def slotMagic : Bytes := ascii "MAKISLT1"

structure SlotHeader where
  unitIndex : ℕ
  writeSequence : ℕ
  ciphertextLen : ℕ
  flags : ℕ
  ciphertextCrc : ℕ
  deriving DecidableEq

namespace SlotHeader

variable [Crc32]

def encode (h : SlotHeader) : Bytes :=
  finishWithCrc (slotMagic ++ (leBytes 8 h.unitIndex ++ (leBytes 8 h.writeSequence ++
    (leBytes 4 h.ciphertextLen ++ (leBytes 4 h.flags ++ (leBytes 4 h.ciphertextCrc ++
      List.replicate 24 0))))))

def reader : Reader SlotHeader := do
  let _magic ← Reader.take 8
  let unitIndex ← Reader.u64
  let writeSequence ← Reader.u64
  let ciphertextLen ← Reader.u32
  let flags ← Reader.u32
  let ciphertextCrc ← Reader.u32
  return ⟨unitIndex,writeSequence,ciphertextLen,flags,ciphertextCrc⟩

def decode (data : Bytes) : Except FormatError SlotHeader :=
  if data.length < slotHeaderSize then
    .error (.Truncated s!"slot header: {data.length} < {slotHeaderSize}")
  else
    let data := data.take slotHeaderSize
    if data.take 8 ≠ slotMagic then .error (.BadMagic "slot header")
    else do
      let payload ← stripVerifyCrc data "slot header"
      reader.decode payload

structure Fits (h : SlotHeader) : Prop where
  unit : h.unitIndex < 2^64
  sequence : h.writeSequence < 2^64
  length : h.ciphertextLen < 2^32
  flags : h.flags < 2^32
  crc : h.ciphertextCrc < 2^32

@[simp] theorem length_encode (h : SlotHeader) : h.encode.length = slotHeaderSize := by
  simp [encode,slotMagic,ascii,slotHeaderSize]

theorem decode_encode {h : SlotHeader} (hf : h.Fits) : decode h.encode = .ok h := by
  have hm : slotMagic.length = 8 := by decide
  refine (framed_ok (length_encode h)).mpr ⟨_,rfl,by simp [encode,finishWithCrc,hm],?_⟩
  simp only [reader,Reader.decode_ok,Reader.bind_ok,Reader.take_ok,Reader.u32_ok,Reader.u64_ok,Reader.pure_ok]
  exact ⟨_,_,⟨_,_⟩,⟨hm,rfl,rfl⟩,_,⟨_,_⟩,⟨hf.unit,rfl,rfl⟩,_,⟨_,_⟩,⟨hf.sequence,rfl,rfl⟩,_,⟨_,_⟩,
    ⟨hf.length,rfl,rfl⟩,_,⟨_,_⟩,⟨hf.flags,rfl,rfl⟩,_,⟨_,_⟩,⟨hf.crc,rfl,rfl⟩,rfl,rfl⟩

end SlotHeader
end Maki
