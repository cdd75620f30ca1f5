import Maki.SlotReads
import Maki.Frame

/-! The slots of a volume as cells: two bits and the bytes of the slot, one cell a unit. A shard
that does not exist yet shows blank cells, so creating it changes none. What a slot reads as is
a function of its cell as long as every data file has its physical size. -/
namespace Maki

structure Cell where
  discarded : Bool := false
  allocated : Bool := false
  bytes : Bytes
  deriving DecidableEq

namespace Cell

def blank (g : Geometry) : Cell := { bytes := List.replicate g.slotSize 0 }

section Reading

/-- A header within the geometry's bound, as `SlotStore.boundedHeader` checks it. -/
def bounded (g : Geometry) (unit : ℕ) : Option SlotHeader → Except CoreError (Option SlotHeader)
  | none => .ok none
  | some header =>
    if header.ciphertextLen > g.maxCiphertextSize then
      .error (.Corrupt s!"unit {unit}: ciphertext_len {header.ciphertextLen} exceeds max")
    else .ok (some header)

theorem boundedHeader_eq (s : SlotStore) (unit : ℕ) :
    s.boundedHeader unit = bounded s.geometry unit := by
  funext header
  cases header <;> rfl

variable [Crc32]

def header (g : Geometry) (unit : ℕ) (c : Cell) : Except CoreError (Option SlotHeader) :=
  if c.discarded then .ok none
  else if c.allocated then
    (SlotStore.allocatedHeader unit (c.bytes.take 64)).bind fun header =>
      bounded g unit (some header)
  else (SlotStore.probedHeader unit (probeOf unit (c.bytes.take 64))).bind (bounded g unit)

def read (g : Geometry) (unit : ℕ) (c : Cell) : Except CoreError SlotRead :=
  (c.header g unit).bind fun header =>
    match header with
    | none => .ok .Zero
    | some header =>
      SlotStore.verifiedPayload unit header ((c.bytes.drop 64).take header.ciphertextLen)

end Reading

def write [Crc32] (unit writeSequence : ℕ) (ciphertext : Bytes) (c : Cell) : Cell :=
  let headed := Splice.splice 0 (SlotStore.slotHeaderOf unit writeSequence ciphertext).encode c.bytes
  { c with bytes := Splice.splice 64 ciphertext headed }

end Cell

structure Geometry.Sane (g : Geometry) : Prop where
  units : 0 < g.unitsPerShard
  slot : 64+g.maxCiphertextSize ≤ g.slotSize
  ciphertext : g.maxCiphertextSize ≤ maxPayload
  device : g.numUnits < 2^64

namespace Geometry

variable {g : Geometry}

theorem Computed.sane (h : g.Computed) : g.Sane where
  units := by
    obtain ⟨hpos,hdvd⟩ := h.shard
    exact Nat.div_pos (Nat.le_of_dvd hpos (Nat.dvd_of_mod_eq_zero hdvd)) h.unit
  slot := h.slot
  ciphertext := h.ciphertext.2
  device := by
    have hle : g.numUnits ≤ g.maxVirtualSize := Nat.div_le_self _ _
    have hmax := h.size
    simp only [i64Max] at hmax
    omega

theorem Sane.inShard (h : g.Sane) (unit : ℕ) : (g.shardOfUnit unit).2 < g.unitsPerShard :=
  Nat.mod_lt _ h.units

theorem Sane.slot_le (h : g.Sane) (unit : ℕ) :
    g.slotOffset (g.shardOfUnit unit).2+g.slotSize ≤ g.physical := by
  have hlt := h.inShard unit
  have hmul : ((g.shardOfUnit unit).2+1)*g.slotSize ≤ g.unitsPerShard*g.slotSize :=
    Nat.mul_le_mul_right _ hlt
  rw [slotOffset,physical]
  rwa [Nat.succ_mul] at hmul

theorem shardOfUnit_inj {u v : ℕ} (h : g.shardOfUnit u = g.shardOfUnit v) : u = v := by
  have h₁ : u/g.unitsPerShard = v/g.unitsPerShard := (Prod.mk.inj h).1
  have h₂ : u % g.unitsPerShard = v % g.unitsPerShard := (Prod.mk.inj h).2
  rw [← Nat.div_add_mod u g.unitsPerShard,← Nat.div_add_mod v g.unitsPerShard,h₁,h₂]

theorem slots_apart {i j : ℕ} (h : i ≠ j) :
    g.slotOffset i+g.slotSize ≤ g.slotOffset j ∨ g.slotOffset j+g.slotSize ≤ g.slotOffset i := by
  simp only [slotOffset]
  rcases Nat.lt_or_gt_of_ne h with hlt | hlt
  · left
    have hmul : (i+1)*g.slotSize ≤ j*g.slotSize := Nat.mul_le_mul_right _ hlt
    rwa [Nat.succ_mul] at hmul
  · right
    have hmul : (j+1)*g.slotSize ≤ i*g.slotSize := Nat.mul_le_mul_right _ hlt
    rwa [Nat.succ_mul] at hmul

theorem Sane.shard_lt (h : g.Sane) {unit : ℕ} (hu : unit < g.numUnits) :
    (g.shardOfUnit unit).1 < g.numShards := by
  have hpos := h.units
  rw [shardOfUnit,numShards,Nat.div_lt_iff_lt_mul hpos]
  have hmod := Nat.mod_lt (g.numUnits+g.unitsPerShard-1) hpos
  have hdiv := Nat.div_add_mod (g.numUnits+g.unitsPerShard-1) g.unitsPerShard
  rw [Nat.mul_comm] at hdiv
  omega

/-- A computed geometry is that of its parameters. Its units cover the device, and each has a slot of
its own, large enough and inside its shard; no number overflows. -/
theorem slots_of_compute {deviceBlockSize cryptoUnitSize slotAlignment maxCiphertextSize
    maxVirtualSize shardLogicalSize : ℕ} {g : Geometry}
    (h : compute deviceBlockSize cryptoUnitSize slotAlignment maxCiphertextSize maxVirtualSize
      shardLogicalSize = .ok g) :
    g = ⟨deviceBlockSize,cryptoUnitSize,slotAlignment,maxCiphertextSize,Maki.slotHeaderSize,g.slotSize,
      maxVirtualSize,shardLogicalSize⟩ ∧
    (∀ unit < g.numUnits, (g.shardOfUnit unit).1 < g.numShards ∧ (g.shardOfUnit unit).2 < g.unitsPerShard ∧
      g.slotOffset (g.shardOfUnit unit).2+g.slotSize ≤ g.unitsPerShard*g.slotSize) ∧
    g.unitsPerShard*g.slotSize < 2^64 ∧
    (∀ u v, g.shardOfUnit u = g.shardOfUnit v → u = v) ∧
    (∀ i j, i ≠ j → g.slotOffset i+g.slotSize ≤ g.slotOffset j ∨ g.slotOffset j+g.slotSize ≤ g.slotOffset i) ∧
    g.slotHeaderSize+g.maxCiphertextSize ≤ g.slotSize ∧ g.numUnits*g.cryptoUnitSize = g.maxVirtualSize := by
  obtain ⟨hg,hspan,hfields⟩ := compute_spec h
  refine ⟨hfields,fun unit hu => ⟨hg.sane.shard_lt hu,hg.sane.inShard unit,hg.sane.slot_le unit⟩,hspan,
    fun _ _ => shardOfUnit_inj,fun _ _ => slots_apart,?_,?_⟩
  · rw [congrArg slotHeaderSize hfields]
    exact hg.slot
  · exact Nat.div_mul_cancel (Nat.dvd_of_mod_eq_zero hg.virtual)

theorem slots_of_compute_two : ∃ g, compute 512 512 512 528 1024 512 = .ok g ∧ g.numShards = 2 ∧
    g.unitsPerShard*g.slotSize < 2^64 := by
  have h : compute 512 512 512 528 1024 512 = .ok ⟨512,512,512,528,64,1024,1024,512⟩ := by decide +kernel
  exact ⟨_,h,by decide,(slots_of_compute h).2.2.1⟩

end Geometry

namespace Cell

variable [Crc32] {g : Geometry} {unit sequence : ℕ} {ciphertext : Bytes} {c : Cell}

theorem bytes_write (hl : c.bytes.length = g.slotSize) (hg : g.Sane) (unit sequence : ℕ)
    (ciphertext : Bytes) :
    (c.write unit sequence ciphertext).bytes.take 64 =
      (SlotStore.slotHeaderOf unit sequence ciphertext).encode ∧
    ((c.write unit sequence ciphertext).bytes.drop 64).take ciphertext.length = ciphertext := by
  have hslot := hg.slot
  have hhead : (SlotStore.slotHeaderOf unit sequence ciphertext).encode.length = 64 :=
    SlotHeader.length_encode _
  refine ⟨?_,Splice.window_splice_self 64 ciphertext _⟩
  have hself := Splice.window_splice_self 0 (SlotStore.slotHeaderOf unit sequence ciphertext).encode
    c.bytes
  rw [hhead] at hself
  have hin : 0+64 ≤ (Splice.splice 0 (SlotStore.slotHeaderOf unit sequence ciphertext).encode
      c.bytes).length := by
    rw [Splice.length_splice,hl]
    omega
  exact (Splice.window_splice_apart hin (.inl (Nat.le_refl (0+64)))).trans hself

theorem read_write (hl : c.bytes.length = g.slotSize) (hg : g.Sane)
    (hc : ciphertext.length ≤ g.maxCiphertextSize) (hu : unit < 2^64) (hs : sequence < 2^64) :
    Cell.read g unit { c.write unit sequence ciphertext with discarded := false, allocated := true } =
      .ok (.Ciphertext sequence ciphertext) := by
  obtain ⟨hhead,hbody⟩ := bytes_write hl hg unit sequence ciphertext
  have hmax := hg.ciphertext
  have hfits : (SlotStore.slotHeaderOf unit sequence ciphertext).Fits := by
    refine ⟨hu,hs,?_,Nat.two_pow_pos 32,UInt32.toNat_lt _⟩
    simp only [SlotStore.slotHeaderOf,maxPayload] at hmax ⊢
    omega
  have hheader : Cell.header g unit
      { c.write unit sequence ciphertext with discarded := false, allocated := true } =
      .ok (some (SlotStore.slotHeaderOf unit sequence ciphertext)) := by
    simp only [header,Bool.false_eq_true,if_false,if_true,hhead,SlotStore.allocatedHeader,
      SlotHeader.decode_encode hfits,Except.bind,bounded]
    simp only [SlotStore.slotHeaderOf,ne_eq,not_true_eq_false,if_false,if_neg (Nat.not_lt.mpr hc)]
  have hlen : (SlotStore.slotHeaderOf unit sequence ciphertext).ciphertextLen = ciphertext.length := rfl
  simp only [read,hheader,Except.bind,hlen,hbody,SlotStore.verifiedPayload]
  simp [SlotStore.slotHeaderOf]

end Cell

namespace Shard

def cell (g : Geometry) (shard : Shard) (file : Bytes) (inShard : ℕ) : Cell where
  discarded := shard.discarded inShard
  allocated := shard.alloc.get inShard
  bytes := Splice.window (g.slotOffset inShard) g.slotSize file

variable {file : Bytes} {unit : ℕ}

theorem rangeIn_window {start n offset m : ℕ} (hl : start+n ≤ file.length)
    (hm : offset+m ≤ n) : rangeIn file (start+offset) m =
      .ok (((Splice.window start n file).drop offset).take m) := by
  rw [rangeIn,if_pos (by omega)]
  simp only [Splice.window,List.drop_take,List.drop_drop,List.take_take]
  rw [show min m (n-offset) = m by omega]

variable [Crc32]

theorem header_eq {s : SlotStore} {shard : Shard} {inShard : ℕ}
    (hslot : 64 ≤ s.geometry.slotSize)
    (hl : s.geometry.slotOffset inShard+s.geometry.slotSize ≤ file.length) :
    shard.header s file unit inShard =
      (shard.cell s.geometry file inShard).header s.geometry unit := by
  have hbytes : headerBytes s.geometry file unit inShard =
      .ok ((Splice.window (s.geometry.slotOffset inShard) s.geometry.slotSize file).take 64) := by
    rw [headerBytes,← Nat.add_zero (s.geometry.slotOffset inShard),
      rangeIn_window hl (by omega : 0+64 ≤ s.geometry.slotSize)]
    rfl
  have hprobe : probe s.geometry shard file unit inShard =
      .ok (probeOf unit ((Splice.window (s.geometry.slotOffset inShard) s.geometry.slotSize file).take 64)) := by
    rw [probe,if_neg (by omega),hbytes]
    rfl
  simp only [header,Cell.header,cell,hbytes,hprobe,Except.bind,Cell.boundedHeader_eq]
  rfl

omit [Crc32] in
theorem bounded_ok {g : Geometry} {h : Option SlotHeader} {header : SlotHeader}
    (hb : Cell.bounded g unit h = .ok (some header)) :
    header.ciphertextLen ≤ g.maxCiphertextSize := by
  cases h with
  | none => cases hb
  | some h =>
    simp only [Cell.bounded] at hb
    split at hb
    · cases hb
    · cases hb
      omega

theorem cell_header_bounded {g : Geometry} {c : Cell} {header : SlotHeader}
    (h : c.header g unit = .ok (some header)) : header.ciphertextLen ≤ g.maxCiphertextSize := by
  have hbind : ∀ {α : Type} {x : Except CoreError α} {f : α → Except CoreError (Option SlotHeader)},
      x.bind f = .ok (some header) → ∃ a, f a = .ok (some header) := by
    intro α x f hx
    cases x with
    | error e => cases hx
    | ok a => exact ⟨a,hx⟩
  unfold Cell.header at h
  split at h
  · cases h
  split at h
  · obtain ⟨a,ha⟩ := hbind h
    exact bounded_ok ha
  · obtain ⟨a,ha⟩ := hbind h
    exact bounded_ok ha

theorem read_eq {s : SlotStore} {shard : Shard} {inShard : ℕ}
    (hslot : 64+s.geometry.maxCiphertextSize ≤ s.geometry.slotSize)
    (hl : s.geometry.slotOffset inShard+s.geometry.slotSize ≤ file.length) :
    shard.read s file unit inShard =
      (shard.cell s.geometry file inShard).read s.geometry unit := by
  rw [read,Cell.read,header_eq (by omega) hl]
  cases hh : (shard.cell s.geometry file inShard).header s.geometry unit with
  | error e => rfl
  | ok header =>
    cases header with
    | none => rfl
    | some header =>
      have hb := cell_header_bounded hh
      simp only [Except.bind,payload]
      rw [rangeIn_window hl (by omega : 64+header.ciphertextLen ≤ s.geometry.slotSize)]
      rfl

end Shard

namespace SlotStore

def cell (s : SlotStore) (d : Disk) (unit : ℕ) : Cell :=
  match s.shards[(s.geometry.shardOfUnit unit).1]? with
  | none => .blank s.geometry
  | some shard => shard.cell s.geometry (d.inodes shard.data).image (s.geometry.shardOfUnit unit).2

/-- A shard of the store and its files. -/
structure ShardFits (g : Geometry) (discardEnabled : Bool) (d : Disk) (index : ℕ) (shard : Shard) :
    Prop where
  units : shard.alloc.units = g.unitsPerShard
  allocAb : shard.allocAb = allocStore g index
  data : d.volatile (.shardData index) = some shard.data
  size : g.physical ≤ (d.inodes shard.data).image.length
  discard : discardEnabled = true → shard.discard.isSome
  discardSize : ∀ map ∈ shard.discard, map.units = g.unitsPerShard
  discardAb : ∀ ab ∈ shard.discardAb, ab = discardStore g index

/-- A store and the disk it works on: every data file has its physical size, and the file of
a shard that does not exist yet is missing or holds zeros. -/
structure Fit (g : Geometry) (discardEnabled : Bool) (t : SlotStore × Disk) : Prop where
  sane : g.Sane
  geometry : t.1.geometry = g
  enabled : t.1.discardEnabled = discardEnabled
  catalogAb : t.1.catalogAb = catalogStore g
  wf : t.2.Wf
  shards : ∀ index (shard : Shard), t.1.shards[index]? = some shard →
    ShardFits g discardEnabled t.2 index shard
  fresh : ∀ index i, index < g.numShards → t.1.shards[index]? = none →
    t.2.volatile (.shardData index) = some i → ∀ k, Splice.at_ (t.2.inodes i).image k = 0

variable [Crc32]

theorem blank_header (g g' : Geometry) (unit : ℕ) :
    (Cell.blank g).header g' unit = .ok none := by
  have hprobe : probeOf unit ((List.replicate g.slotSize (0 : UInt8)).take 64) = .Unwritten := by
    rw [probeOf,if_pos]
    simp [List.take_replicate]
  simp only [Cell.header,Cell.blank,Bool.false_eq_true,if_false,hprobe,probedHeader,Except.bind,
    Cell.bounded]

theorem Fit.slotAt_eq {g : Geometry} {e : Bool} {s : SlotStore} {d : Disk} (h : Fit g e (s,d))
    (unit : ℕ) : s.slotAt d unit = (s.cell d unit).read g unit := by
  obtain rfl : s.geometry = g := h.geometry
  unfold slotAt cell
  cases hs : s.shards[(s.geometry.shardOfUnit unit).1]? with
  | none => simp only [Cell.read,blank_header,Except.bind]
  | some shard =>
    exact Shard.read_eq h.sane.slot
      (Nat.le_trans (h.sane.slot_le unit) (h.shards _ shard hs).size)

theorem Fit.headerAt_eq {g : Geometry} {e : Bool} {s : SlotStore} {d : Disk} (h : Fit g e (s,d))
    (unit : ℕ) : s.headerAt d unit = (s.cell d unit).header g unit := by
  obtain rfl : s.geometry = g := h.geometry
  unfold headerAt cell
  cases hs : s.shards[(s.geometry.shardOfUnit unit).1]? with
  | none => exact (blank_header _ _ _).symm
  | some shard =>
    have hslot := h.sane.slot
    exact Shard.header_eq (by omega)
      (Nat.le_trans (h.sane.slot_le unit) (h.shards _ shard hs).size)

end SlotStore
end Maki
