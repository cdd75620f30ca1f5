import Mathlib

/-! The names of a volume's files (`maki_format::layout`, `durable_proof`, `checkpoint`).
Every name of the layout is a constructor and its directory a function of it; any
other directory entry is `other`. -/
namespace Maki

inductive Side where
  | a | b
  deriving DecidableEq

def Side.other : Side → Side
  | .a => .b
  | .b => .a

@[simp] theorem Side.other_other (x : Side) : x.other.other = x := by cases x <;> rfl

inductive Dir where
  | root | data | journal | checkpoint
  deriving DecidableEq

inductive Path where
  | volumeLock
  | superblock (side : Side)
  | shardCatalog (side : Side)
  | keyCanary (side : Side)
  | shardData (shard : Nat)
  | shardAlloc (shard : Nat) (side : Side)
  | shardDiscard (shard : Nat) (side : Side)
  | journalSegment (index : Nat)
  | journalDurableMark
  | durableProof (side : Side)
  | checkpointState (side : Side)
  | other (dir : Dir) (name : String)
  deriving DecidableEq

def Path.parent : Path → Dir
  | .volumeLock | .superblock _ | .shardCatalog _ | .keyCanary _ => .root
  | .shardData _ | .shardAlloc _ _ | .shardDiscard _ _ => .data
  | .journalSegment _ | .journalDurableMark | .durableProof _ => .journal
  | .checkpointState _ => .checkpoint
  | .other dir _ => dir

/-- Lower-case hexadecimal digits, as `{n:x}` prints them. -/
def hexText (n : Nat) : String := String.ofList (Nat.toDigits 16 n)

/-- The characters beyond ASCII that `{:?}` escapes: the tables of the standard library. -/
class DebugTable where
  escapes : Char → Bool

def debugChar [DebugTable] (c : Char) : String :=
  match c.toNat with
  | 0 => "\\0"
  | 9 => "\\t"
  | 10 => "\\n"
  | 13 => "\\r"
  | 34 => "\\\""
  | 92 => "\\\\"
  | n =>
    if n < 0x20 || n = 0x7f || (0x80 ≤ n && DebugTable.escapes c) then "\\u\x7b" ++ hexText n ++ "\x7d"
    else String.singleton c

def debugText [DebugTable] (s : String) : String :=
  "\"" ++ String.join (s.toList.map debugChar) ++ "\""

/-- The digits padded with zeros to a width, as `{n:016x}` and `{n:08x}` print them. -/
def paddedHex (width n : Nat) : String :=
  String.ofList (List.replicate (width-(Nat.toDigits 16 n).length) '0') ++ hexText n

/-- The file names `layout::journal_segment` and `shard_data` give inside their directories. -/
def segmentName (index : Nat) : String := "seg-" ++ paddedHex 16 index
def shardDataName (shard : Nat) : String := "shard-" ++ paddedHex 8 shard ++ ".dat"

def parseJournalSegment : Path → Option Nat
  | .journalSegment index => if index < 2^64 then some index else none
  | _ => none

def parseShardData : Path → Option Nat
  | .shardData shard => if shard < 2^64 then some shard else none
  | _ => none

end Maki
