import Maki.JournalFormat

/-! Device geometry and slot sizes (`maki_format::geometry`). All arithmetic is checked. -/
namespace Maki

def checkedMul (a b : ℕ) : Option ℕ := if a*b < 2^64 then some (a*b) else none

def slotHeaderSize : ℕ := 64
def u32Max : ℕ := 2^32-1

/-- `catalog::MAX_SHARDS` and the fixed bytes of the two A/B metadata encodings. -/
def maxShards : ℕ := 1 <<< 24
def catalogFixedBytes : ℕ := 8+4+8+4+4
def allocationFixedBytes : ℕ := 8+4+8+8+4

structure Geometry where
  deviceBlockSize : ℕ
  cryptoUnitSize : ℕ
  slotAlignment : ℕ
  maxCiphertextSize : ℕ
  slotHeaderSize : ℕ
  slotSize : ℕ
  maxVirtualSize : ℕ
  shardLogicalSize : ℕ
  deriving DecidableEq

structure CapacityPlan where
  numUnits : ℕ
  numShards : ℕ
  fullSlotSpanBytes : ℕ
  allocationMapAbBytes : ℕ
  catalogAbBytes : ℕ
  deriving DecidableEq

def isPow2 (v : ℕ) : Bool := v != 0 && (v &&& (v-1)) == 0

def orOverflow (what : String) : Option ℕ → Except FormatError ℕ
  | some n => .ok n
  | none => .error (.Overflow what)

def alignUp (v align : ℕ) : Except FormatError ℕ := do
  let sum ← orOverflow "align_up" (checkedAdd v (align-1))
  return sum &&& (u64Max-(align-1))

def require (c : Prop) [Decidable c] (e : FormatError) : Except FormatError Unit :=
  if c then .ok () else .error e

namespace Geometry

def numUnits (g : Geometry) : ℕ := g.maxVirtualSize/g.cryptoUnitSize
def unitsPerShard (g : Geometry) : ℕ := g.shardLogicalSize/g.cryptoUnitSize

def numShards (g : Geometry) : ℕ := (g.numUnits+g.unitsPerShard-1)/g.unitsPerShard

def capacityPlan (g : Geometry) : Except FormatError CapacityPlan := do
  require (g.numShards ≤ maxShards)
    (.Invalid s!"num_shards {g.numShards} exceeds the shard catalog limit {maxShards}")
  let shardSlotBytes ← orOverflow "shard physical size" (checkedMul g.unitsPerShard g.slotSize)
  let fullSlotSpanBytes ← orOverflow "full slot span" (checkedMul g.numShards shardSlotBytes)
  let allocationCopyBytes ← orOverflow "allocation map size"
    (checkedAdd allocationFixedBytes ((g.unitsPerShard+7)/8))
  let allocationMapAbBytes ← orOverflow "allocation map A/B bytes"
    ((checkedMul g.numShards 2).bind fun copies => checkedMul copies allocationCopyBytes)
  let catalogCopyBytes ← orOverflow "shard catalog size"
    ((checkedMul g.numShards 8).bind fun entries => checkedAdd entries catalogFixedBytes)
  let catalogAbBytes ← orOverflow "shard catalog A/B bytes" (checkedMul catalogCopyBytes 2)
  return ⟨g.numUnits,g.numShards,fullSlotSpanBytes,allocationMapAbBytes,catalogAbBytes⟩

def compute (deviceBlockSize cryptoUnitSize slotAlignment maxCiphertextSize maxVirtualSize
    shardLogicalSize : ℕ) : Except FormatError Geometry := do
  require (isPow2 deviceBlockSize ∧ 512 ≤ deviceBlockSize ∧ deviceBlockSize ≤ 65536)
    (.Invalid s!"device_block_size {deviceBlockSize} must be a power of two in [512, 65536]")
  require (cryptoUnitSize ≠ 0 ∧ deviceBlockSize ≤ cryptoUnitSize ∧
      cryptoUnitSize % deviceBlockSize = 0)
    (.Invalid s!"crypto_unit_size {cryptoUnitSize} must be a positive multiple of device_block_size {deviceBlockSize}")
  require (isPow2 slotAlignment ∧ 512 ≤ slotAlignment)
    (.Invalid s!"slot_alignment {slotAlignment} must be a power of two >= 512")
  require (cryptoUnitSize ≤ maxCiphertextSize)
    (.Invalid s!"max_ciphertext_size {maxCiphertextSize} < crypto_unit_size {cryptoUnitSize}")
  -- the scanner refuses longer records, so such a volume would become unattachable
  require (maxCiphertextSize ≤ maxPayload)
    (.Invalid s!"max_ciphertext_size {maxCiphertextSize} exceeds the journal record bound {maxPayload} (crypto_unit_size too large)")
  require (maxVirtualSize ≠ 0 ∧ maxVirtualSize % cryptoUnitSize = 0)
    (.Invalid s!"max_virtual_size {maxVirtualSize} must be a positive multiple of crypto_unit_size")
  require (maxVirtualSize ≤ i64Max)
    (.Invalid s!"max_virtual_size {maxVirtualSize} exceeds the signed NBD export size limit")
  require (shardLogicalSize ≠ 0 ∧ shardLogicalSize % cryptoUnitSize = 0)
    (.Invalid s!"shard_logical_size {shardLogicalSize} must be a positive multiple of crypto_unit_size")
  let slotSize ← alignUp (Maki.slotHeaderSize+maxCiphertextSize) slotAlignment
  let geometry : Geometry := ⟨deviceBlockSize,cryptoUnitSize,slotAlignment,maxCiphertextSize,
    Maki.slotHeaderSize,slotSize,maxVirtualSize,shardLogicalSize⟩
  let _ ← orOverflow "shard physical size" (checkedMul geometry.unitsPerShard slotSize)
  require (geometry.unitsPerShard ≤ u32Max)
    (.Invalid s!"units_per_shard {geometry.unitsPerShard} exceeds the allocation map limit {u32Max} (shard_logical_size too large for crypto_unit_size {cryptoUnitSize})")
  let _ ← geometry.capacityPlan
  return geometry

def shardOfUnit (g : Geometry) (unit : ℕ) : ℕ × ℕ := (unit/g.unitsPerShard,unit % g.unitsPerShard)

def slotOffset (g : Geometry) (indexInShard : ℕ) : ℕ := indexInShard*g.slotSize

end Geometry

theorem require_bind {α : Type} {c : Prop} [Decidable c] {e : FormatError}
    {f : Unit → Except FormatError α} {x : α} (h : (require c e >>= f) = .ok x) :
    c ∧ f () = .ok x := by
  unfold require at h
  split at h
  · rename_i hc
    exact ⟨hc,h⟩
  · cases h

theorem orOverflow_bind {α : Type} {what : String} {o : Option ℕ} {f : ℕ → Except FormatError α}
    {x : α} (h : (orOverflow what o >>= f) = .ok x) : ∃ n, o = some n ∧ f n = .ok x := by
  cases o with
  | none => cases h
  | some n => exact ⟨n,rfl,h⟩

theorem exists_pow_of_isPow2 {v : ℕ} (h : isPow2 v = true) : ∃ k, v = 2^k := by
  simp only [isPow2,Bool.and_eq_true,bne_iff_ne,beq_iff_eq] at h
  exact (Nat.and_sub_one_eq_zero_iff_isPowerOfTwo h.1).mp h.2

theorem and_mask {x k : ℕ} (hx : x < 2^64) (hk : k ≤ 64) :
    x &&& (u64Max-(2^k-1)) = x/2^k*2^k := by
  have hmask : u64Max-(2^k-1) = (2^(64-k)-1)*2^k := by
    have hpow : 2^(64-k)*2^k = 2^64 := by rw [← Nat.pow_add,Nat.sub_add_cancel hk]
    have hpos := Nat.two_pow_pos k
    rw [Nat.sub_mul,hpow,u64Max]
    omega
  apply Nat.eq_of_testBit_eq
  intro i
  rw [hmask,Nat.testBit_and,Nat.testBit_mul_two_pow,Nat.testBit_two_pow_sub_one,
    Nat.testBit_mul_two_pow,Nat.testBit_div_two_pow]
  by_cases hi : k ≤ i
  · by_cases h64 : i < 64
    · have hlt : i-k < 64-k := by omega
      simp [hi,hlt,Nat.sub_add_cancel hi]
    · have hbit : x.testBit i = false :=
        Nat.testBit_lt_two_pow (Nat.lt_of_lt_of_le hx (Nat.pow_le_pow_right (by decide) (by omega)))
      simp [hbit,hi,Nat.sub_add_cancel hi]
  · simp [hi]

theorem le_of_alignUp {v k n : ℕ} (h : alignUp v (2^k) = .ok n) : v ≤ n := by
  unfold alignUp at h
  obtain ⟨sum,hsum,h⟩ := orOverflow_bind h
  obtain rfl : sum &&& (u64Max-(2^k-1)) = n := Except.ok.inj h
  unfold checkedAdd at hsum
  split at hsum
  · rename_i hlt
    obtain rfl := Option.some.inj hsum
    have hpos := Nat.two_pow_pos k
    have hk : k ≤ 64 := by
      by_contra hk
      have hpow : 2^65 ≤ 2^k := Nat.pow_le_pow_right (by decide) (by omega)
      omega
    rw [and_mask hlt hk]
    have hdiv := Nat.div_add_mod (v+(2^k-1)) (2^k)
    have hmod := Nat.mod_lt (v+(2^k-1)) hpos
    rw [Nat.mul_comm] at hdiv
    omega
  · cases hsum

namespace Geometry

structure Computed (g : Geometry) : Prop where
  block : 512 ≤ g.deviceBlockSize
  unit : 0 < g.cryptoUnitSize
  blocks : g.cryptoUnitSize % g.deviceBlockSize = 0
  virtual : g.maxVirtualSize % g.cryptoUnitSize = 0
  size : g.maxVirtualSize ≤ i64Max
  shard : 0 < g.shardLogicalSize ∧ g.shardLogicalSize % g.cryptoUnitSize = 0
  ciphertext : g.cryptoUnitSize ≤ g.maxCiphertextSize ∧ g.maxCiphertextSize ≤ maxPayload
  slot : 64+g.maxCiphertextSize ≤ g.slotSize
  units : g.unitsPerShard ≤ u32Max

theorem lt_of_checkedMul {a b n : ℕ} (h : checkedMul a b = some n) : a*b < 2^64 := by
  unfold checkedMul at h
  split at h
  · assumption
  · cases h

theorem compute_spec {deviceBlockSize cryptoUnitSize slotAlignment maxCiphertextSize
    maxVirtualSize shardLogicalSize : ℕ} {g : Geometry}
    (h : compute deviceBlockSize cryptoUnitSize slotAlignment maxCiphertextSize maxVirtualSize
      shardLogicalSize = .ok g) :
    g.Computed ∧ g.unitsPerShard*g.slotSize < 2^64 ∧
      g = ⟨deviceBlockSize,cryptoUnitSize,slotAlignment,maxCiphertextSize,Maki.slotHeaderSize,g.slotSize,
        maxVirtualSize,shardLogicalSize⟩ := by
  unfold compute at h
  obtain ⟨hblock,h⟩ := require_bind h
  obtain ⟨hunit,h⟩ := require_bind h
  obtain ⟨halign,h⟩ := require_bind h
  obtain ⟨hct,h⟩ := require_bind h
  obtain ⟨hmax,h⟩ := require_bind h
  obtain ⟨hvirtual,h⟩ := require_bind h
  obtain ⟨hsize,h⟩ := require_bind h
  obtain ⟨hshard,h⟩ := require_bind h
  obtain ⟨k,rfl⟩ := exists_pow_of_isPow2 halign.1
  obtain ⟨slotSize,hslot,h⟩ := bind_eq_ok h
  obtain ⟨_,hspan,h⟩ := orOverflow_bind h
  obtain ⟨hunits,h⟩ := require_bind h
  obtain ⟨plan,-,h⟩ := bind_eq_ok h
  obtain rfl := Except.ok.inj h
  exact ⟨⟨hblock.2.1,Nat.pos_of_ne_zero hunit.1,hunit.2.2,hvirtual.2,hsize,
    ⟨Nat.pos_of_ne_zero hshard.1,hshard.2⟩,⟨hct,hmax⟩,le_of_alignUp hslot,hunits⟩,
    lt_of_checkedMul hspan,rfl⟩

end Geometry
end Maki
