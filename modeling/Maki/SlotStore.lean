import Mathlib
import Maki.CoreError
import Maki.SlotFormat
import Maki.Superblock

/-! The slot store (`maki_core::store`): shard data files, allocation and discard maps, the
shard catalog. A `HashMap` is walked in an order the program does not choose; the order
is a parameter here. -/
namespace Maki

/-- The order in which a `HashMap` with these keys is walked. -/
class HashOrder where
  order : List ℕ → List ℕ
  perm : ∀ keys, (order keys).Perm keys

inductive SlotRead where
  | Zero
  | Ciphertext (writeSequence : ℕ) (data : Bytes)
  deriving DecidableEq

/-- Why a data file's physical size is not proven durable. -/
inductive ShortFile where
  | Unproven
  | Truncated
  deriving DecidableEq

structure Shard where
  alloc : AllocationMap
  allocAb : AbStore
  data : InodeId
  dirtyAlloc : Bool
  mapStored : Bool
  short : Option ShortFile
  discard : Option AllocationMap
  discardAb : Option AbStore
  dirtyDiscard : Bool

namespace Shard

def discarded (s : Shard) (inShard : ℕ) : Bool := s.discard.any (·.get inShard)

end Shard

structure SlotStore where
  geometry : Geometry
  catalog : ShardCatalog
  catalogAb : AbStore
  catalogDirty : Bool
  shards : Std.TreeMap ℕ Shard
  repairedUnits : List ℕ
  damagedUnits : List ℕ
  discardEnabled : Bool
  reclaimCursor : Option (ℕ × ℕ)
  reclaimStalled : Bool
  reservationFailures : ℕ

/-- The A/B stores of one shard's maps: a longer copy than the geometry implies is invalid. -/
def allocStore (g : Geometry) (shard : ℕ) : AbStore where
  a := .shardAlloc shard .a
  b := .shardAlloc shard .b
  maxLen := some (AllocationMap.encodedLen g.unitsPerShard)

def discardStore (g : Geometry) (shard : ℕ) : AbStore where
  a := .shardDiscard shard .a
  b := .shardDiscard shard .b
  maxLen := some (AllocationMap.encodedLen g.unitsPerShard)

def catalogStore (g : Geometry) : AbStore where
  a := .shardCatalog .a
  b := .shardCatalog .b
  maxLen := some (ShardCatalog.maxEncodedLen g.numShards)

def Geometry.physical (g : Geometry) : ℕ := g.unitsPerShard*g.slotSize

/-- What the slot of a unit whose allocation bit is clear holds. -/
inductive Probe where
  | Unwritten
  | Header (header : SlotHeader)
  | Damaged
  deriving DecidableEq

/-- A short slot is damage; other read failures say nothing about the bytes stored. -/
def slotReadError (unit : ℕ) (part : String) : ErrorKind → CoreError
  | .UnexpectedEof => .Corrupt s!"unit {unit}: {part} read failed: {ErrorKind.UnexpectedEof.text}"
  | kind => .Io kind

section Probes

variable {μ : Type} [Crc32]

def probeOf (unit : ℕ) (headerBytes : Bytes) : Probe :=
  if headerBytes.all (· = 0) then .Unwritten
  else
    match SlotHeader.decode headerBytes with
    | .ok header =>
      if header.unitIndex = unit ∧ header.writeSequence > 0 then .Header header else .Damaged
    | .error _ => .Damaged

def probeHeader (g : Geometry) (shard : Shard) (unit inShard fileLen : ℕ) : Io μ CoreError Probe :=
  let offset := g.slotOffset inShard
  if offset+64 > fileLen then
    Prog.pure (if shard.short = some .Unproven then .Unwritten else .Damaged)
  else
    Prog.bind (Prog.mapErr (slotReadError unit "slot") (Io.readAt shard.data offset 64))
      fun headerBytes => Prog.pure (probeOf unit headerBytes)

/-- The units among `slots` whose bit is clear but whose slot holds a header for them. -/
def probeSlots (g : Geometry) (shard : Shard) (shardIdx fileLen : ℕ) :
    List ℕ → Io μ CoreError (List ℕ)
  | [] => return []
  | inShard::rest =>
    if shard.discarded inShard || shard.alloc.get inShard then
      probeSlots g shard shardIdx fileLen rest
    else do
      let unit := shardIdx*g.unitsPerShard+inShard
      let probe ← probeHeader g shard unit inShard fileLen
      let found ← probeSlots g shard shardIdx fileLen rest
      match probe with
      | .Header _ => return unit::found
      | _ => return found

def probeShard (g : Geometry) (shard : Shard) (shardIdx : ℕ) : Io μ CoreError (List ℕ) := do
  let len ← coreIo (Io.len shard.data)
  probeSlots g shard shardIdx len (List.range shard.alloc.units)

end Probes

namespace SlotStore

section Open

variable {μ : Type} [Crc32]

/-- The allocation map of a shard, whether it is new in memory, and that a loaded copy may
be cached only. -/
def loadAlloc (g : Geometry) (adopted : List ℕ) (shardIdx : ℕ) :
    Io μ CoreError (AllocationMap × Bool) := do
  match ← coreFormat ((allocStore g shardIdx).load AllocationMap) with
  | some alloc => return (alloc,false)
  | none =>
    if shardIdx ∈ adopted then return (AllocationMap.new g.unitsPerShard,true)
    else Prog.throw (.Corrupt s!"shard {shardIdx}: no valid allocation map copy")

def openData (shardIdx : ℕ) : Io μ CoreError InodeId := do
  match ← coreIo (Io.optional .NotFound (Io.openFile (.shardData shardIdx) false)) with
  | some file => return file
  | none =>
    Prog.throw (.Corrupt
      s!"shard {shardIdx}: data file missing: data/{shardDataName shardIdx}")

/-- The cleared slots of a truncated file that start beyond its end. -/
def beyondEnd (g : Geometry) (alloc : AllocationMap) (shardIdx len : ℕ) : List ℕ :=
  (List.range (min alloc.units (g.numUnits-shardIdx*g.unitsPerShard))).filter fun inShard =>
    !alloc.get inShard && g.slotOffset inShard+64 > len

/-- A shard as opened from its map and data file: an uncataloged one without a slot was
never finished; the slots a truncation removed are marked allocated. -/
def judgeFile (g : Geometry) (adopted : List ℕ) (shardIdx : ℕ) (alloc : AllocationMap)
    (dirtyAlloc : Bool) (data : InodeId) (len : ℕ) : Shard × List ℕ :=
  let shard : Shard :=
    { alloc, allocAb := allocStore g shardIdx, data, dirtyAlloc, mapStored := false, short := none
      discard := none, discardAb := none, dirtyDiscard := false }
  if shardIdx ∈ adopted ∧ alloc.setCount = 0 then ({ shard with short := some .Unproven },[])
  else if len ≥ g.physical then (shard,[])
  else
    let marked := beyondEnd g alloc shardIdx len
    ({ shard with
        alloc := marked.foldl (fun m inShard => m.set inShard true) alloc
        dirtyAlloc := dirtyAlloc || !marked.isEmpty
        short := some .Truncated },
      marked.map (shardIdx*g.unitsPerShard+·))

/-- The discard map of a shard; both copies are rewritten before journal reclamation. -/
def loadDiscard (g : Geometry) (shardIdx : ℕ) (shard : Shard) : Io μ CoreError Shard := do
  let _ ← coreFormat ((discardStore g shardIdx).sideGenerations AllocationMap)
  match ← coreFormat ((discardStore g shardIdx).load AllocationMap) with
  | none => Prog.throw (.Corrupt s!"shard {shardIdx}: no valid discard map copy")
  | some discard =>
    if discard.units ≠ g.unitsPerShard then
      Prog.throw (.Corrupt s!"shard {shardIdx}: discard map size mismatch")
    else
      return { shard with
        discard := some discard, discardAb := some (discardStore g shardIdx), dirtyDiscard := true }

/-- With one copy invalid the loaded one may be behind the slots: repair it from headers. -/
def repairAlloc (g : Geometry) (shardIdx : ℕ) (shard : Shard) : Io μ CoreError (Shard × List ℕ) := do
  let found ← probeShard g shard shardIdx
  if found.isEmpty then return (shard,[])
  else
    return ({ shard with
      alloc := found.foldl (fun m unit => m.set (g.shardOfUnit unit).2 true) shard.alloc
      dirtyAlloc := true },found)

def loadShard (g : Geometry) (adopted : List ℕ) (discardEnabled : Bool) (shardIdx : ℕ) :
    Io μ CoreError (Shard × List ℕ × List ℕ) :=
  if shardIdx ≥ g.numShards then
    Prog.throw (.Corrupt s!"catalog shard {shardIdx} out of range")
  else do
    let (sideA,sideB) ← coreFormat ((allocStore g shardIdx).sideGenerations AllocationMap)
    let (alloc,dirtyAlloc) ← loadAlloc g adopted shardIdx
    if alloc.units ≠ g.unitsPerShard then
      Prog.throw (.Corrupt s!"shard {shardIdx}: allocation map size mismatch")
    else
      let data ← openData shardIdx
      let len ← coreIo (Io.len data)
      let (shard,damaged) := judgeFile g adopted shardIdx alloc dirtyAlloc data len
      let shard ← if discardEnabled then loadDiscard g shardIdx shard else Prog.pure shard
      let (shard,repaired) ← if sideA.isNone || sideB.isNone then repairAlloc g shardIdx shard
        else Prog.pure (shard,[])
      return (shard,repaired,damaged)

def loadShards (g : Geometry) (adopted : List ℕ) (discardEnabled : Bool) :
    List ℕ → Io μ CoreError (List (ℕ × Shard) × List ℕ × List ℕ)
  | [] => return ([],[],[])
  | shardIdx::rest => do
    let (shard,repaired,damaged) ← loadShard g adopted discardEnabled shardIdx
    let (shards,repairedUnits,damagedUnits) ← loadShards g adopted discardEnabled rest
    return ((shardIdx,shard)::shards,repaired ++ repairedUnits,damaged ++ damagedUnits)

def orphans (g : Geometry) (catalog : ShardCatalog) (listed : List Path) : List ℕ :=
  ((listed.filterMap parseShardData).filter fun shard =>
    !catalog.contains shard && shard < g.numShards).insertionSort (· ≤ ·)

/-- `SlotStore::open`: load the catalog, adopt unlisted data files and validate every shard's
allocation metadata. -/
def openStore (g : Geometry) : Io μ CoreError SlotStore := do
  let envelope ← coreFormat loadVolumeSuperblock
  let discardEnabled : Bool := envelope.metadataVersion = superblockVersionV3
  match ← coreFormat ((catalogStore g).load ShardCatalog) with
  | none => Prog.throw (.Corrupt "no valid shard catalog")
  | some catalog =>
    let listed ← coreIo (Io.list .data)
    let adopted := orphans g catalog listed
    let catalog := adopted.foldl ShardCatalog.insert catalog
    let (shards,repairedUnits,damagedUnits) ← loadShards g adopted discardEnabled catalog.shards
    return {
      geometry := g, catalog, catalogAb := catalogStore g, catalogDirty := !adopted.isEmpty
      shards := shards.foldl (fun m s => m.insert s.1 s.2) ∅
      repairedUnits, damagedUnits, discardEnabled
      reclaimCursor := none, reclaimStalled := false, reservationFailures := 0 }

end Open

section State

variable (s : SlotStore)

def hasPendingRepairs : Bool :=
  s.catalogDirty || s.shards.values.any fun shard =>
    shard.dirtyAlloc || !shard.mapStored || shard.dirtyDiscard

def modifyShard (shardIdx : ℕ) (f : Shard → Shard) : SlotStore :=
  { s with shards := s.shards.modify shardIdx f }

def hasDiscards (shardIdx : ℕ) : Bool :=
  s.shards[shardIdx]?.any fun shard => shard.discard.any (·.setCount > 0)

def scheduleReclamation : SlotStore :=
  { s with reclaimCursor := (s.catalog.shards.find? s.hasDiscards).map (·,0) }

def validateUnit (unit : ℕ) : Except CoreError Unit :=
  if unit ≥ s.geometry.numUnits then
    .error (.Corrupt s!"unit {unit} beyond the device ({s.geometry.numUnits} units)")
  else .ok ()

def shardsWhere [HashOrder] (c : Shard → Bool) : List ℕ :=
  (HashOrder.order s.shards.keys).filter fun shardIdx => s.shards[shardIdx]?.any c

end State

section Calls

variable [Crc32]

def update {ε : Type} (f : SlotStore → SlotStore) : Io SlotStore ε Unit :=
  Prog.modify fun t => (f t.1,t.2)

def withShard {α : Type} (shardIdx : ℕ) (f : Shard → Io SlotStore CoreError α) :
    Io SlotStore CoreError α := do
  let (s,_) ← Prog.get
  match s.shards[shardIdx]? with
  | some shard => f shard
  | none => Prog.throw (.Panic "called `Option::unwrap()` on a `None` value")

/-- Store a shard's allocation map; its generation in memory moves even when this fails. -/
def storeAlloc (shardIdx : ℕ) : Io SlotStore CoreError Unit :=
  withShard shardIdx fun shard =>
    coreFormat (Prog.zoom (fun t => (shard.alloc,t.2))
      (fun t r => (t.1.modifyShard shardIdx fun shard => { shard with alloc := r.1 },r.2))
      (shard.allocAb.store AllocationMap))

def storeDiscard (shardIdx : ℕ) : Io SlotStore CoreError Unit :=
  withShard shardIdx fun shard =>
    match shard.discardAb, shard.discard with
    | some ab, some map => do
      coreIo (Io.fp "discard.store")
      coreFormat (Prog.zoom (fun t => (map,t.2))
        (fun t r => (t.1.modifyShard shardIdx fun shard => { shard with discard := some r.1 },r.2))
        (ab.store AllocationMap))
    | none, _ => Prog.throw (.Corrupt s!"shard {shardIdx}: discard map store unavailable")
    | some _, none => Prog.throw (.Panic "called `Option::unwrap()` on a `None` value")

/-- Make a data file's physical size durable; the damage marks of a truncated one first. -/
def proveDataFile (shardIdx : ℕ) : Io SlotStore CoreError Unit :=
  withShard shardIdx fun shard =>
    match shard.short with
    | none => Prog.pure ()
    | some short => do
      let (s,_) ← Prog.get
      Prog.when (short = .Truncated) do
        coreIo (Io.fp "store.damage_marks_store")
        storeAlloc shardIdx
        coreIo (Io.syncDir .data)
      coreIo (Io.fp "store.data_size_sync")
      coreIo (Io.setLen shard.data s.geometry.physical)
      coreIo (Io.syncData shard.data)
      update (·.modifyShard shardIdx fun shard => { shard with short := none })

variable [HashOrder]

def commitAdoptedMap (shardIdx : ℕ) : Io SlotStore CoreError Unit := do
  proveDataFile shardIdx
  coreIo (Io.fp "store.adopted_alloc_store")
  storeAlloc shardIdx
  storeAlloc shardIdx

def mapsStored (shards : List ℕ) (s : SlotStore) : SlotStore :=
  shards.foldl (fun s shardIdx => s.modifyShard shardIdx fun shard =>
    { shard with mapStored := true, dirtyAlloc := false }) s

def commitAdoptedMaps : Io SlotStore CoreError Unit := do
  let (s,_) ← Prog.get
  let pending := s.shardsWhere (!·.mapStored)
  if pending.isEmpty then return ()
  else
    Prog.forEach pending commitAdoptedMap
    coreIo (Io.syncDir .data)
    update (mapsStored pending)

/-- One dirty map; both copies when neither is proven. -/
def persistAllocation (shardIdx : ℕ) : Io SlotStore CoreError Unit := do
  coreIo (Io.fp "checkpoint.alloc_store")
  storeAlloc shardIdx
  withShard shardIdx fun shard => Prog.when (!shard.mapStored) (storeAlloc shardIdx)

def persistDirtyMaps : Io SlotStore CoreError Unit := do
  let (s,_) ← Prog.get
  let dirty := s.shardsWhere fun shard => shard.dirtyAlloc || !shard.mapStored
  if dirty.isEmpty then return ()
  else
    Prog.forEach dirty persistAllocation
    coreIo (Io.fp "checkpoint.alloc_dirsync")
    coreIo (Io.syncDir .data)
    update (mapsStored dirty)

/-- Commit the catalog with its adopted shards, whose file sizes are proven first. -/
def persistCatalog : Io SlotStore CoreError Unit := do
  let (s,_) ← Prog.get
  if s.catalogDirty then
    Prog.forEach (s.shardsWhere (·.short.isSome)) proveDataFile
    coreIo (Io.fp "store.catalog_store")
    coreFormat (Prog.zoom (fun t => (t.1.catalog,t.2)) (fun t r => ({ t.1 with catalog := r.1 },r.2))
      (s.catalogAb.store ShardCatalog))
    coreIo (Io.syncDir .root)
    update fun s => { s with catalogDirty := false }
  else return ()

/-- Persist all dirty allocation maps and make new dirents durable; only then clear the
dirty flags, and only then commit adopted shards. -/
def persistAllocations : Io SlotStore CoreError Unit := do
  persistDirtyMaps
  persistCatalog

def persistDiscard (shardIdx : ℕ) : Io SlotStore CoreError Unit := do
  storeDiscard shardIdx
  storeDiscard shardIdx

def persistDiscards : Io SlotStore CoreError Unit := do
  let (s,_) ← Prog.get
  let dirty := s.shardsWhere (·.dirtyDiscard)
  if dirty.isEmpty then return ()
  else
    Prog.forEach dirty persistDiscard
    coreIo (Io.fp "discard.dirsync")
    coreIo (Io.syncDir .data)
    update fun s => dirty.foldl (fun s shardIdx => s.modifyShard shardIdx fun shard =>
      { shard with dirtyDiscard := false }) s

def storeEmptyMap (ab : AbStore) (units : ℕ) : Io SlotStore CoreError AllocationMap := do
  let (_,map) ← coreFormat (Io.withLocal (AllocationMap.new units) do
    ab.store AllocationMap
    ab.store AllocationMap)
  return map

/-- The discard maps of a new shard, durable before its data file exists. -/
def createDiscard (shardIdx : ℕ) : Io SlotStore CoreError (Option AllocationMap × Option AbStore) := do
  let (s,_) ← Prog.get
  if s.discardEnabled then
    let ab := discardStore s.geometry shardIdx
    let map ← storeEmptyMap ab s.geometry.unitsPerShard
    coreIo (Io.fp "store.shard_dirsync")
    coreIo (Io.syncDir .data)
    return (some map,some ab)
  else return (none,none)

/-- Data file, maps and dirents, then the catalog: no earlier step can be missing. -/
def createShard (shardIdx : ℕ) : Io SlotStore CoreError Unit := do
  let (discard,discardAb) ← createDiscard shardIdx
  let (s,_) ← Prog.get
  coreIo (Io.fp "store.shard_create")
  let data ← coreIo (Io.openFile (.shardData shardIdx) true)
  coreIo (Io.setLen data s.geometry.physical)
  coreIo (Io.syncData data)
  let allocAb := allocStore s.geometry shardIdx
  let alloc ← storeEmptyMap allocAb s.geometry.unitsPerShard
  commitAdoptedMaps
  persistDiscards
  coreIo (Io.fp "store.shard_dirsync")
  coreIo (Io.syncDir .data)
  coreIo (Io.fp "store.catalog_store")
  let (s,_) ← Prog.get
  let (_,catalog) ← coreFormat (Io.withLocal (s.catalog.insert shardIdx)
    (s.catalogAb.store ShardCatalog))
  coreIo (Io.syncDir .root)
  update fun s => { s with
    catalog
    shards := s.shards.insert shardIdx
      { alloc, allocAb, data, dirtyAlloc := false, mapStored := true, short := none, discard
        discardAb, dirtyDiscard := false } }

def ensureShard (shardIdx : ℕ) : Io SlotStore CoreError Unit := do
  let (s,_) ← Prog.get
  match s.shards[shardIdx]? with
  | some shard =>
    if !shard.mapStored || s.catalogDirty then do
      commitAdoptedMaps
      persistAllocations
    else return ()
  | none => createShard shardIdx

def reserveError : CoreError → CoreError
  | .Format (.Io kind) => .Io kind
  | error => error

/-- Make the complete slot range available before its journal record can be accepted. -/
def reserveSlot (unit : ℕ) : Io SlotStore CoreError Unit := do
  let (s,_) ← Prog.get
  Prog.ofExcept (s.validateUnit unit)
  let (shardIdx,inShard) := s.geometry.shardOfUnit unit
  Prog.mapErr reserveError do
    ensureShard shardIdx
    proveDataFile shardIdx
  withShard shardIdx fun shard => do
    coreIo (Io.allocateRange shard.data (s.geometry.slotOffset inShard) s.geometry.slotSize)
    Prog.onError (coreIo (Io.syncAll shard.data)) fun t =>
      ({ t.1 with reservationFailures := min (t.1.reservationFailures+1) u64Max },t.2)

def slotHeaderOf (unit writeSequence : ℕ) (ciphertext : Bytes) : SlotHeader where
  unitIndex := unit
  writeSequence := writeSequence
  ciphertextLen := ciphertext.length
  flags := 0
  ciphertextCrc := (Crc32.hash ciphertext).toNat

def writeSlotAt {μ : Type} (data : InodeId) (offset unit writeSequence : ℕ) (ciphertext : Bytes) :
    Io μ CoreError Unit := do
  coreIo (Io.writeAt data offset (slotHeaderOf unit writeSequence ciphertext).encode)
  coreIo (Io.writeAt data (offset+64) ciphertext)

def exceedsMax {α : Type} (g : Geometry) (ciphertext : Bytes) : Except CoreError α :=
  .error (.Corrupt s!"ciphertext {ciphertext.length} exceeds max {g.maxCiphertextSize}")

def writeSlot (unit writeSequence : ℕ) (ciphertext : Bytes) : Io SlotStore CoreError Unit := do
  let (s,_) ← Prog.get
  Prog.ofExcept (s.validateUnit unit)
  if ciphertext.length > s.geometry.maxCiphertextSize then
    Prog.ofExcept (exceedsMax s.geometry ciphertext)
  else
    let (shardIdx,inShard) := s.geometry.shardOfUnit unit
    ensureShard shardIdx
    proveDataFile shardIdx
    withShard shardIdx fun shard =>
      writeSlotAt shard.data (s.geometry.slotOffset inShard) unit writeSequence ciphertext

def markAllocated (unit : ℕ) : Io SlotStore CoreError Unit := do
  let (s,_) ← Prog.get
  Prog.ofExcept (s.validateUnit unit)
  let (shardIdx,inShard) := s.geometry.shardOfUnit unit
  ensureShard shardIdx
  withShard shardIdx fun shard =>
    Prog.when (!shard.alloc.get inShard) (update (·.modifyShard shardIdx fun shard =>
      { shard with alloc := shard.alloc.set inShard true, dirtyAlloc := true }))

def syncShardData (shardIdx : ℕ) : Io SlotStore CoreError Unit := do
  let (s,_) ← Prog.get
  match s.shards[shardIdx]? with
  | some shard => coreIo (Io.syncData shard.data)
  | none => return ()

end Calls

section Discard

def setDiscarded (unit : ℕ) (discarded : Bool) : Io SlotStore CoreError Unit := do
  let (s,_) ← Prog.get
  if !s.discardEnabled then Prog.throw (.Invalid "discard is not enabled for this volume")
  else
    let (shardIdx,inShard) := s.geometry.shardOfUnit unit
    match s.shards[shardIdx]? with
    | none => Prog.throw (.Corrupt s!"discard unit {unit} has no existing shard")
    | some shard =>
      match shard.discard with
      | none => Prog.throw (.Corrupt s!"shard {shardIdx}: discard map unavailable")
      | some map =>
        if map.get inShard = discarded then return ()
        else update (·.modifyShard shardIdx fun shard =>
          { shard with discard := some (map.set inShard discarded), dirtyDiscard := true })

def earlier (cursor : ℕ × ℕ) : Option (ℕ × ℕ) → ℕ × ℕ
  | none => cursor
  | some old => if old.1 < cursor.1 ∨ old.1 = cursor.1 ∧ old.2 ≤ cursor.2 then old else cursor

/-- Queue an unwritten slot's reservation through the durable discard path. -/
def reclaimUnwritten (unit : ℕ) : Io SlotStore CoreError Unit := do
  let (s,_) ← Prog.get
  let cursor := s.geometry.shardOfUnit unit
  if s.shards.contains cursor.1 then
    setDiscarded unit true
    update fun s => { s with reclaimCursor := some (earlier cursor s.reclaimCursor) }
  else return ()

/-- The maximal runs of consecutive slots of a sorted list: first slot and count. -/
def slotRuns : List ℕ → List (ℕ × ℕ)
  | [] => []
  | slot::rest =>
    match slotRuns rest with
    | (first,count)::runs =>
      if first = slot+1 then (slot,count+1)::runs else (slot,1)::(first,count)::runs
    | [] => [(slot,1)]

def punchRun {μ : Type} (g : Geometry) (data : InodeId) (run : ℕ × ℕ) : Io μ CoreError Bool :=
  match checkedMul g.slotSize run.2 with
  | none => Prog.throw (.Corrupt "discard punch range length overflow")
  | some len => do
    coreIo (Io.fp "discard.punch")
    let punched ← coreIo (Io.optional .Unsupported (Io.punchHole data (g.slotOffset run.1) len))
    return punched.isSome

def punchRuns {μ : Type} (g : Geometry) (data : InodeId) : List (ℕ × ℕ) → Io μ CoreError Bool
  | [] => return false
  | run::rest => do
    let punched ← punchRun g data run
    let others ← punchRuns g data rest
    return punched || others

def punchShard (shardIdx : ℕ) (slots : List ℕ) : Io SlotStore CoreError Unit := do
  let (s,_) ← Prog.get
  match s.shards[shardIdx]? with
  | none => Prog.throw (.Corrupt s!"discard shard {shardIdx} does not exist")
  | some shard =>
    let punched ← punchRuns s.geometry shard.data (slotRuns (slots.insertionSort (· ≤ ·)).dedup)
    Prog.when punched (coreIo (Io.syncData shard.data))

def byShard (g : Geometry) (units : List ℕ) : Std.TreeMap ℕ (List ℕ) :=
  units.foldl (fun m unit =>
    m.alter (g.shardOfUnit unit).1 fun slots => some (slots.getD [] ++ [(g.shardOfUnit unit).2])) ∅

def punchSlots (units : List ℕ) : Io SlotStore CoreError Unit := do
  let (s,_) ← Prog.get
  Prog.forEach (byShard s.geometry units).toList fun group => punchShard group.1 group.2

def reclamationWindow : ℕ := 4096

def nextCursor (s : SlotStore) (shardIdx stop units : ℕ) : Option (ℕ × ℕ) :=
  if stop < units then some (shardIdx,stop)
  else (s.catalog.shards.find? fun next => next > shardIdx && s.hasDiscards next).map (·,0)

def punchableUnits (g : Geometry) (canPunch : ℕ → Bool) (map : AllocationMap)
    (shardIdx start stop : ℕ) : List ℕ :=
  (((List.range' start (stop-start)).filter map.get).map (shardIdx*g.unitsPerShard+·)).filter canPunch

/-- Retry one window of the reclamation scan; the cursor moves only after the punch and its
sync. -/
def retryReclamation (canPunch : ℕ → Bool) : Io SlotStore CoreError Unit := do
  let (s,_) ← Prog.get
  match s.reclaimCursor with
  | none => return ()
  | some (shardIdx,start) =>
    match s.shards[shardIdx]? with
    | none => Prog.throw (.Panic "no entry found for key")
    | some shard =>
      if shard.dirtyDiscard then
        update fun s => { s with reclaimStalled := true }
        Prog.throw (.Durability "reclamation requires durable discard metadata")
      else
        match shard.discard with
        | none => Prog.throw (.Panic "reclaim cursor requires v3 map")
        | some map =>
          let stop := min (min (start+reclamationWindow) u64Max) map.units
          Prog.onError (punchSlots (punchableUnits s.geometry canPunch map shardIdx start stop))
            fun t => ({ t.1 with reclaimStalled := true },t.2)
          update fun s => { s with
            reclaimStalled := false, reclaimCursor := nextCursor s shardIdx stop map.units }

end Discard

section Reads

variable {μ : Type} [Crc32] (s : SlotStore)

def allocatedHeader (unit : ℕ) (headerBytes : Bytes) : Except CoreError SlotHeader :=
  match SlotHeader.decode headerBytes with
  | .error e => .error (.Corrupt s!"unit {unit}: allocated but slot header invalid: {e.text}")
  | .ok header =>
    if header.unitIndex ≠ unit then
      .error (.Corrupt s!"unit {unit}: slot header claims unit {header.unitIndex}")
    else .ok header

/-- What a probe of a slot whose bit is clear means for a read. -/
def probedHeader (unit : ℕ) : Probe → Except CoreError (Option SlotHeader)
  | .Unwritten => .ok none
  | .Damaged => .error (.Corrupt (s!"unit {unit}: unlisted slot holds a damaged header " ++
      "(written, then damaged along with its allocation copy)"))
  | .Header header => .ok (some header)

def boundedHeader (unit : ℕ) : Option SlotHeader → Except CoreError (Option SlotHeader)
  | none => .ok none
  | some header =>
    if header.ciphertextLen > s.geometry.maxCiphertextSize then
      .error (.Corrupt s!"unit {unit}: ciphertext_len {header.ciphertextLen} exceeds max")
    else .ok (some header)

def slotHeader (unit : ℕ) : Io μ CoreError (Option SlotHeader) := do
  let (shardIdx,inShard) := s.geometry.shardOfUnit unit
  match s.shards[shardIdx]? with
  | none => return none
  | some shard =>
    if shard.discarded inShard then return none
    else if shard.alloc.get inShard then
      let headerBytes ← Prog.mapErr (slotReadError unit "slot")
        (Io.readAt shard.data (s.geometry.slotOffset inShard) 64)
      let header ← Prog.ofExcept (allocatedHeader unit headerBytes)
      Prog.ofExcept (s.boundedHeader unit (some header))
    else
      let len ← coreIo (Io.len shard.data)
      let probe ← probeHeader s.geometry shard unit inShard len
      let header ← Prog.ofExcept (probedHeader unit probe)
      Prog.ofExcept (s.boundedHeader unit header)

def slotSequence (unit : ℕ) : Io μ CoreError (Option ℕ) := do
  let header ← s.slotHeader unit
  return header.map (·.writeSequence)

def verifiedPayload (unit : ℕ) (header : SlotHeader) (data : Bytes) : Except CoreError SlotRead :=
  if (Crc32.hash data).toNat = header.ciphertextCrc then .ok (.Ciphertext header.writeSequence data)
  else .error (.Corrupt s!"unit {unit}: ciphertext CRC mismatch")

def readSlot (unit : ℕ) : Io μ CoreError SlotRead := do
  match ← s.slotHeader unit with
  | none => return .Zero
  | some header =>
    let (shardIdx,inShard) := s.geometry.shardOfUnit unit
    match s.shards[shardIdx]? with
    | none => Prog.throw (.Panic "slot_header found the shard")
    | some shard =>
      let data ← Prog.mapErr (slotReadError unit "ciphertext")
        (Io.readAt shard.data (s.geometry.slotOffset inShard+64) header.ciphertextLen)
      Prog.ofExcept (verifiedPayload unit header data)

def shardsOfUnits (units : List ℕ) : List ℕ := (byShard s.geometry units).keys

end Reads

end SlotStore

structure CheckpointSlotTarget where
  unit : ℕ
  offset : ℕ
  data : InodeId
  deriving DecidableEq

/-- Positional-I/O targets of already reserved units, captured for one checkpoint. -/
structure CheckpointSlotPlan where
  targets : List CheckpointSlotTarget
  shards : List InodeId
  maxCiphertextSize : ℕ
  preparedReservationFailures : ℕ
  deriving DecidableEq

namespace SlotStore

variable [Crc32]

def checkpointSlotTarget (unit : ℕ) : Io SlotStore CoreError CheckpointSlotTarget := do
  let (s,_) ← Prog.get
  let (shardIdx,inShard) := s.geometry.shardOfUnit unit
  if s.shards.contains shardIdx then
    proveDataFile shardIdx
    withShard shardIdx fun shard =>
      Prog.pure { unit, offset := s.geometry.slotOffset inShard, data := shard.data }
  else Prog.throw (.Corrupt s!"checkpoint unit {unit} has no reserved shard {shardIdx}")

def checkpointSlotTargets : List ℕ → Io SlotStore CoreError (List CheckpointSlotTarget)
  | [] => return []
  | unit::units => do
    let target ← checkpointSlotTarget unit
    let targets ← checkpointSlotTargets units
    return target::targets

def checkpointSlotPlan (units : List ℕ) : Io SlotStore CoreError CheckpointSlotPlan := do
  let targets ← checkpointSlotTargets units
  let (s,_) ← Prog.get
  return {
    targets
    shards := (s.shardsOfUnits units).filterMap fun shardIdx => s.shards[shardIdx]?.map (·.data)
    maxCiphertextSize := s.geometry.maxCiphertextSize
    preparedReservationFailures := s.reservationFailures }

end SlotStore

namespace CheckpointSlotPlan

variable {μ : Type} (plan : CheckpointSlotPlan)

/-- The counter is shared with the store, which may have moved it since. -/
def validateReservationBarriers (reservationFailures : ℕ) : Except CoreError Unit :=
  if reservationFailures = u64Max ∨ reservationFailures ≠ plan.preparedReservationFailures then
    .error (.Durability
      "reservation sync failed during checkpoint; retain journal and rewrite slots")
  else .ok ()

def write [Crc32] (index writeSequence : ℕ) (ciphertext : Bytes) : Io μ CoreError Unit :=
  if ciphertext.length > plan.maxCiphertextSize then
    Prog.throw (.Corrupt s!"ciphertext {ciphertext.length} exceeds max {plan.maxCiphertextSize}")
  else
    match plan.targets[index]? with
    | none => Prog.throw (.Corrupt "checkpoint slot plan does not match its snapshot")
    | some target => SlotStore.writeSlotAt target.data target.offset target.unit writeSequence ciphertext

def syncShards : Io μ CoreError Unit :=
  Prog.forEach plan.shards fun shard => do
    coreIo (Io.fp "checkpoint.shard_sync")
    coreIo (Io.syncData shard)

end CheckpointSlotPlan
end Maki
