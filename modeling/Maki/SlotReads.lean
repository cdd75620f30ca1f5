import Maki.SlotStore

/-! What a slot reads as: a function of the shard's maps and the bytes of its data file. -/
namespace Maki

def rangeIn (file : Bytes) (offset n : ℕ) : Except ErrorKind Bytes :=
  if offset+n ≤ file.length then .ok ((file.drop offset).take n) else .error .UnexpectedEof

theorem Io.Checks.rangeIn {μ : Type} (file : InodeId) (offset n : ℕ) :
    Io.Checks (Io.readAt file offset n : Io μ ErrorKind _) fun d =>
      Maki.rangeIn (d.inodes file).image offset n := .readAt file offset n

namespace Shard

variable [Crc32]

def headerBytes (g : Geometry) (file : Bytes) (unit inShard : ℕ) : Except CoreError Bytes :=
  (rangeIn file (g.slotOffset inShard) 64).mapError (slotReadError unit "slot")

def probe (g : Geometry) (shard : Shard) (file : Bytes) (unit inShard : ℕ) : Except CoreError Probe :=
  if g.slotOffset inShard+64 > file.length then
    .ok (if shard.short = some .Unproven then .Unwritten else .Damaged)
  else (headerBytes g file unit inShard).bind fun bytes => .ok (probeOf unit bytes)

def header (s : SlotStore) (shard : Shard) (file : Bytes) (unit inShard : ℕ) :
    Except CoreError (Option SlotHeader) :=
  if shard.discarded inShard then .ok none
  else if shard.alloc.get inShard then
    (headerBytes s.geometry file unit inShard).bind fun bytes =>
      (SlotStore.allocatedHeader unit bytes).bind fun header => s.boundedHeader unit (some header)
  else
    (probe s.geometry shard file unit inShard).bind fun probe =>
      (SlotStore.probedHeader unit probe).bind fun header => s.boundedHeader unit header

def payload (g : Geometry) (file : Bytes) (unit inShard : ℕ) (header : SlotHeader) :
    Except CoreError SlotRead :=
  ((rangeIn file (g.slotOffset inShard+64) header.ciphertextLen).mapError
    (slotReadError unit "ciphertext")).bind (SlotStore.verifiedPayload unit header)

def read (s : SlotStore) (shard : Shard) (file : Bytes) (unit inShard : ℕ) :
    Except CoreError SlotRead :=
  (shard.header s file unit inShard).bind fun header =>
    match header with
    | none => .ok .Zero
    | some header => payload s.geometry file unit inShard header

end Shard

namespace SlotStore

variable {μ : Type} [Crc32] (s : SlotStore)

def headerAt (d : Disk) (unit : ℕ) : Except CoreError (Option SlotHeader) :=
  match s.shards[(s.geometry.shardOfUnit unit).1]? with
  | none => .ok none
  | some shard => shard.header s (d.inodes shard.data).image unit (s.geometry.shardOfUnit unit).2

def slotAt (d : Disk) (unit : ℕ) : Except CoreError SlotRead :=
  match s.shards[(s.geometry.shardOfUnit unit).1]? with
  | none => .ok .Zero
  | some shard => shard.read s (d.inodes shard.data).image unit (s.geometry.shardOfUnit unit).2

omit [Crc32] in
theorem len_checks (file : InodeId) : Io.Checks (coreIo (Io.len file) : Io μ CoreError _)
    fun d => .ok (d.inodes file).image.length := (Io.Checks.ofReads (.len file)).mapErr _

theorem probeHeader_checks (g : Geometry) (shard : Shard) (unit inShard len : ℕ) :
    Io.Checks (probeHeader g shard unit inShard len : Io μ CoreError _) fun d =>
      if g.slotOffset inShard+64 > len then
        .ok (if shard.short = some .Unproven then .Unwritten else .Damaged)
      else (Shard.headerBytes g (d.inodes shard.data).image unit inShard).bind fun bytes =>
        .ok (probeOf unit bytes) := by
  unfold probeHeader
  by_cases hl : g.slotOffset inShard+64 > len
  · simp only [if_pos hl]
    exact .ofReads (.pure _)
  · simp only [if_neg hl]
    exact ((Io.Checks.rangeIn _ _ _).mapErr _).bind fun _ => .ofReads (.pure _)

theorem slotHeader_checks (unit : ℕ) :
    Io.Checks (s.slotHeader unit : Io μ CoreError _) fun d => s.headerAt d unit := by
  unfold slotHeader headerAt
  cases hs : s.shards[(s.geometry.shardOfUnit unit).1]? with
  | none =>
    simp only [hs]
    exact .ofReads (.pure _)
  | some shard =>
    simp only [hs,Shard.header]
    by_cases hd : shard.discarded (s.geometry.shardOfUnit unit).2
    · simp only [if_pos hd]
      exact .ofReads (.pure _)
    · simp only [if_neg hd]
      by_cases ha : shard.alloc.get (s.geometry.shardOfUnit unit).2
      · simp only [if_pos ha]
        exact ((Io.Checks.rangeIn _ _ _).mapErr _).bind fun bytes =>
          (Io.Checks.ofExcept _).bind fun _ => .ofExcept _
      · simp only [if_neg ha]
        exact (len_checks _).bind fun len => (probeHeader_checks _ _ _ _ len).bind fun _ =>
          (Io.Checks.ofExcept _).bind fun _ => .ofExcept _

theorem slotSequence_checks (unit : ℕ) :
    Io.Checks (s.slotSequence unit : Io μ CoreError _) fun d =>
      (s.headerAt d unit).bind fun header => .ok (header.map (·.writeSequence)) :=
  (s.slotHeader_checks unit).bind fun _ => .ofReads (.pure _)

theorem readSlot_checks (unit : ℕ) :
    Io.Checks (s.readSlot unit : Io μ CoreError _) fun d => s.slotAt d unit := by
  have hrest : ∀ header : Option SlotHeader, Io.Checks
      (match header with
        | none => (Prog.pure .Zero : Io μ CoreError SlotRead)
        | some header =>
          match s.shards[(s.geometry.shardOfUnit unit).1]? with
          | none => Prog.throw (.Panic "slot_header found the shard")
          | some shard =>
            Prog.bind (Prog.mapErr (slotReadError unit "ciphertext") (Io.readAt shard.data
              (s.geometry.slotOffset (s.geometry.shardOfUnit unit).2+64) header.ciphertextLen))
              fun data => Prog.ofExcept (verifiedPayload unit header data))
      fun d =>
        match header with
        | none => .ok .Zero
        | some header =>
          match s.shards[(s.geometry.shardOfUnit unit).1]? with
          | none => .error (.Panic "slot_header found the shard")
          | some shard => Shard.payload s.geometry (d.inodes shard.data).image unit
              (s.geometry.shardOfUnit unit).2 header := by
    intro header
    cases header with
    | none => exact .ofReads (.pure _)
    | some header =>
      cases s.shards[(s.geometry.shardOfUnit unit).1]? with
      | none => exact .ofExcept (.error _)
      | some shard => exact ((Io.Checks.rangeIn _ _ _).mapErr _).bind fun _ => .ofExcept _
  apply ((s.slotHeader_checks unit).bind hrest).congr
  intro d
  unfold headerAt slotAt
  cases s.shards[(s.geometry.shardOfUnit unit).1]? with
  | none => rfl
  | some shard => rfl

end SlotStore
end Maki
