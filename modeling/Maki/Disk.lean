import Mathlib
import Maki.Layout
import Maki.Splice

/-! The crash model of the backing (`maki_test_support::crash_backing`). A file is
an inode with durable content, dirty operations and the image the page cache shows;
a directory entry has a durable and a volatile inode. A crash settles every pending
namespace change and every dirty operation on its own. Inodes no name reaches are kept
here: nothing can open them, so collecting them changes nothing. -/
namespace Maki

abbrev Bytes := List UInt8
abbrev InodeId := ℕ

inductive Pend where
  | Write (offset : ℕ) (data : Bytes)
  | SetLen (len : ℕ)
  deriving DecidableEq

def Pend.apply : Pend → Bytes → Bytes
  | .Write offset src, data => Splice.splice offset src data
  | .SetLen len, data => Splice.resize len data

def applyAll (ps : List Pend) (data : Bytes) : Bytes := ps.foldl (fun data p => p.apply data) data

structure Inode where
  durable : Bytes := []
  pending : List Pend := []
  image : Bytes := []
  deriving DecidableEq

namespace Inode

def fromContent (content : Bytes) : Inode := ⟨content,[],content⟩

def durableAfterSync (n : Inode) : Bytes := applyAll n.pending n.durable

def push (p : Pend) (n : Inode) : Inode :=
  { n with pending := n.pending ++ [p], image := p.apply n.image }

def sync (n : Inode) : Inode := { n with durable := n.durableAfterSync, pending := [] }

/-- A failed sync marks the dirty operations clean without persisting them. -/
def dropDirty (n : Inode) : Inode := { n with pending := [] }

end Inode

structure Name where
  durable : Option InodeId := none
  volatile : Option InodeId := none
  change : ℕ := 0
  deriving DecidableEq

def Name.pending (n : Name) : Bool := n.durable != n.volatile

/-- `entries` lists the paths `names` was ever changed at, each once, for directory listings. -/
structure Disk where
  inodes : InodeId → Inode := fun _ => {}
  names : Path → Name := fun _ => {}
  entries : List Path := []
  nextInode : InodeId := 0
  nextChange : ℕ := 0
  nodup : entries.Nodup := by exact List.nodup_nil

namespace Disk

def volatile (d : Disk) (path : Path) : Option InodeId := (d.names path).volatile

/-- Point `path` at `inode` in the volatile namespace as a change of its own. -/
def relink (d : Disk) (path : Path) (inode : Option InodeId) : Disk :=
  { d with
    nextChange := d.nextChange+1
    names := Function.update d.names path
      { d.names path with volatile := inode, change := d.nextChange+1 }
    entries := if path ∈ d.entries then d.entries else path::d.entries
    nodup := by
      by_cases h : path ∈ d.entries
      · simpa only [if_pos h] using d.nodup
      · simpa only [if_neg h] using List.nodup_cons.mpr ⟨h,d.nodup⟩ }

def create (d : Disk) (path : Path) : Disk :=
  { d.relink path (some (d.nextInode+1)) with
    inodes := Function.update d.inodes (d.nextInode+1) {}
    nextInode := d.nextInode+1 }

/-- Move what `source` shows to `target`, as one change of both names. -/
def rename (d : Disk) (source target : Path) : Disk :=
  { (d.relink target (d.volatile source)).relink source none with
    nextChange := d.nextChange+1
    names := Function.update
      (Function.update d.names target
        { d.names target with volatile := d.volatile source, change := d.nextChange+1 })
      source { d.names source with volatile := none, change := d.nextChange+1 } }

def mapInode (d : Disk) (i : InodeId) (f : Inode → Inode) : Disk :=
  { d with inodes := Function.update d.inodes i (f (d.inodes i)) }

def push (d : Disk) (i : InodeId) (p : Pend) : Disk := d.mapInode i (Inode.push p)

def syncDir (d : Disk) (dir : Dir) : Disk :=
  { d with names := fun path =>
      if path.parent = dir then { d.names path with durable := (d.names path).volatile }
      else d.names path }

def list (d : Disk) (dir : Dir) : List Path :=
  d.entries.filter fun path => path.parent = dir && (d.volatile path).isSome

def image (d : Disk) (path : Path) : Option Bytes :=
  (d.volatile path).map fun i => (d.inodes i).image

end Disk

/-- Cut points inside a write of `len` bytes at `offset`: both ends and every
multiple of the sector size, aligned to the file. -/
def cuts (offset gran len : ℕ) : List ℕ :=
  0 :: (List.range len).filter (fun k => 0 < k && (offset+k) % gran = 0) ++ [len]

/-- What a crash does to one dirty operation. The sector of a torn write counts
from the write's first; an index past its last sector wraps. -/
inductive Fate where
  | lost | kept
  | tornHead (sector : ℕ)
  | tornHole (sector : ℕ)
  deriving DecidableEq

/-- Only the sectors before `sector` reached the disk. -/
def applyTornHead (gran sector offset : ℕ) (src data : Bytes) : Bytes :=
  let cs := cuts offset gran src.length
  (Pend.Write offset (src.take (cs.getD (sector % (cs.length-1)) 0))).apply data

/-- Every sector but `sector` reached the disk; the file still grew to cover it. -/
def applyTornHole (gran sector offset : ℕ) (src data : Bytes) : Bytes :=
  let cs := cuts offset gran src.length
  let hole := sector % (cs.length-1)
  let start := cs.getD hole 0
  let stop := cs.getD (hole+1) 0
  let data := (Pend.Write offset (src.take start)).apply data
  if stop < src.length then (Pend.Write (offset+stop) (src.drop stop)).apply data
  else if data.length < offset+src.length then Splice.resize (offset+src.length) data
  else data

def Fate.settle (tearing : Option ℕ) : Fate → Pend → Bytes → Bytes
  | .lost, _, data => data
  | .kept, p, data => p.apply data
  | .tornHead sector, p, data =>
    match tearing, p with
    | some gran, .Write offset src =>
      if src = [] then data else applyTornHead gran sector offset src data
    | _, p => p.apply data
  | .tornHole sector, p, data =>
    match tearing, p with
    | some gran, .Write offset src =>
      if src = [] then data else applyTornHole gran sector offset src data
    | _, p => p.apply data

/-- Keep each dirty operation independently; `fate i` decides the `i`-th one. -/
def surviving (tearing : Option ℕ) (fate : ℕ → Fate) : List Pend → Bytes → Bytes
  | [], data => data
  | p::ps, data => surviving tearing (fun i => fate (i+1)) ps ((fate 0).settle tearing p data)

structure CrashChoice where
  keep : ℕ → Bool
  fate : InodeId → ℕ → Fate

def Name.settle (keep : ℕ → Bool) (n : Name) : Name :=
  if n.pending then
    let target := if keep n.change then n.volatile else n.durable
    { n with durable := target, volatile := target }
  else n

/-- A crash settles every pending change; afterwards everything that survived is durable. -/
def Disk.crash (tearing : Option ℕ) (c : CrashChoice) (d : Disk) : Disk :=
  { d with
    names := fun path => (d.names path).settle c.keep
    inodes := fun i =>
      Inode.fromContent (surviving tearing (c.fate i) (d.inodes i).pending (d.inodes i).durable) }

end Maki
