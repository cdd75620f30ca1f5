import Maki.Superblock
import Maki.SlotStore
import Maki.CheckpointState
import Maki.ProofStore

/-! Volume initialization (`maki_format::init`). The superblock is the commit point and is
published last; everything recovery requires is durable before it. The volume lock is not
modelled. -/
namespace Maki

def Side.text : Side → String
  | .a => "a"
  | .b => "b"

def Dir.text : Dir → String
  | .root => ""
  | .data => "data"
  | .journal => "journal"
  | .checkpoint => "checkpoint"

def Path.fileName : Path → String
  | .volumeLock => "volume.lock"
  | .superblock side => "superblock." ++ side.text
  | .shardCatalog side => "shard-catalog." ++ side.text
  | .keyCanary side => "canary." ++ side.text
  | .shardData shard => shardDataName shard
  | .shardAlloc shard side => "shard-" ++ paddedHex 8 shard ++ ".alloc." ++ side.text
  | .shardDiscard shard side => "shard-" ++ paddedHex 8 shard ++ ".discard." ++ side.text
  | .journalSegment index => segmentName index
  | .journalDurableMark => "durable-mark"
  | .durableProof side => "durable-proof." ++ side.text
  | .checkpointState side => "state." ++ side.text
  | .other _ name => name

section

variable {μ : Type}

def refuseSuperblock : Io μ FormatError Unit := do
  let present : FormatError := .AlreadyExists "volume superblock already present"
  if ← formatIo (Io.exists_ (.superblock .a)) then Prog.throw present
  else if ← formatIo (Io.exists_ (.superblock .b)) then Prog.throw present
  else return ()

/-- Any file left in a layout directory belongs to an earlier volume. -/
def refuseOccupied (dir : Dir) : Io μ FormatError Unit := do
  match ← formatIo (Io.optional .NotFound (Io.list dir)) with
  | none => return ()
  | some entries =>
    match ((entries.map Path.fileName).mergeSort fun a b => a ≤ b).head? with
    | none => return ()
    | some entry => Prog.throw (.AlreadyExists
        s!"backing root is not empty: {dir.text}/{entry} belongs to an earlier volume; use an empty root")

def layoutDirs : List Dir := [.data,.journal,.checkpoint]

/-- The lock file, whose durability the exclusion API does not promise. -/
def persistLockFile : Io μ FormatError Unit := do
  let file ← formatIo (Io.openFile .volumeLock true)
  formatIo (Io.syncData file)

/-- The journal writer's durable mark: empty means no information yet. -/
def createMark : Io μ FormatError Unit := do
  let mark ← formatIo (Io.openFile .journalDurableMark true)
  formatIo (Io.setLen mark 0)
  formatIo (Io.syncData mark)

variable [Crc32]

def newCatalogStore : AbStore := { a := .shardCatalog .a, b := .shardCatalog .b }

/-- An empty shard catalog; its second side is written on the first update. -/
def createCatalog : Io μ FormatError Unit := do
  let _ ← Io.withLocal (⟨0,[],ShardCatalog.ascending_nil⟩ : ShardCatalog) (newCatalogStore.store ShardCatalog)
  return ()

def createCheckpointState : Io μ FormatError Unit := do
  let _ ← Io.withLocal ({} : CheckpointState) do
    CheckpointState.store.store CheckpointState
    CheckpointState.store.store CheckpointState
  return ()

def createEvidence (volumeUuid : BitVec 128) : Io μ FormatError Unit := do
  refuseSuperblock
  Prog.forEach layoutDirs refuseOccupied
  Prog.forEach layoutDirs fun dir => formatIo (Io.createDirAll dir)
  persistLockFile
  let _ ← DurableProofStore.initializeNew volumeUuid
  createCatalog
  createCheckpointState
  createMark
  Prog.forEach (layoutDirs ++ [.root]) fun dir => formatIo (Io.syncDir dir)

/-- Both copies of the superblock, the commit point. -/
def commitSuperblock (envelope : VolumeSuperblock) : Io μ FormatError VolumeSuperblock := do
  let (_,envelope) ← Io.withLocal envelope do
    VolumeSuperblock.store.store VolumeSuperblock
    VolumeSuperblock.store.store VolumeSuperblock
  formatIo (Io.syncDir .root)
  return envelope

def createVolumeWithMetadataVersion (superblock : Superblock) (metadataVersion : ℕ) :
    Io μ FormatError Superblock := do
  createEvidence superblock.volumeUuid
  let envelope ← commitSuperblock ⟨{ superblock with generation := 0 },metadataVersion⟩
  return envelope.superblock

def createVolume (superblock : Superblock) : Io μ FormatError Superblock :=
  createVolumeWithMetadataVersion superblock superblockVersionV2

def createVolumeWithDiscard (superblock : Superblock) : Io μ FormatError Superblock :=
  createVolumeWithMetadataVersion superblock superblockVersionV3

end
end Maki
