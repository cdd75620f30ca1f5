import Maki.Disk
import Std.Data.TreeMap

/-! The versioned plaintext cache (`maki_cache`): one version of a unit at most, bounded in bytes, the
oldest entry dropped first, entries expiring when they are looked up. What an entry holds is what
was put for its unit and sequence. -/
namespace Maki

structure CacheEntry where
  writeSequence : ℕ
  data : Bytes
  insertedAt : ℕ
  /-- Recency stamp, also the key in `recency`. -/
  lastUsed : ℕ

structure VersionedLruCache where
  map : Std.TreeMap ℕ CacheEntry := ∅
  /-- Tick to unit, oldest first. -/
  recency : Std.TreeMap ℕ ℕ := ∅
  bytes : ℕ := 0
  maxBytes : ℕ
  tick : ℕ := 0
  ttl : ℕ

namespace VersionedLruCache

def remove (unit : ℕ) (c : VersionedLruCache) : VersionedLruCache :=
  match c.map[unit]? with
  | none => c
  | some entry =>
    { c with
      map := c.map.erase unit
      recency := c.recency.erase entry.lastUsed
      bytes := c.bytes-entry.data.length }

def touch (unit : ℕ) (c : VersionedLruCache) : VersionedLruCache :=
  let tick := c.tick+1
  match c.map[unit]? with
  | none => { c with tick := tick }
  | some entry =>
    { c with
      tick := tick
      map := c.map.insert unit { entry with lastUsed := tick }
      recency := (c.recency.erase entry.lastUsed).insert tick unit }

/-- Drop the oldest entries until `need` bytes fit. Every round takes one entry out of the index. -/
def makeRoomFrom (need : ℕ) : ℕ → VersionedLruCache → VersionedLruCache
  | 0, c => c
  | rounds+1, c =>
    if c.bytes+need > c.maxBytes then
      match c.recency.minEntry? with
      | none => c
      | some (_,unit) => makeRoomFrom need rounds (c.remove unit)
    else c

def makeRoom (need : ℕ) (c : VersionedLruCache) : VersionedLruCache :=
  makeRoomFrom need c.recency.size c

def clear (c : VersionedLruCache) : VersionedLruCache := { c with map := ∅, recency := ∅, bytes := 0 }

/-- A newer cached version is kept; empty and oversized entries are not cached. -/
def put (now unit writeSequence : ℕ) (data : Bytes) (c : VersionedLruCache) : VersionedLruCache :=
  if c.map[unit]?.any (·.writeSequence > writeSequence) then c
  else
    let c := c.remove unit
    if data.length = 0 ∨ data.length > c.maxBytes ∨ c.maxBytes = 0 then c
    else
      let c := c.makeRoom data.length
      let tick := c.tick+1
      { c with
        tick := tick
        map := c.map.insert unit ⟨writeSequence,data,now,tick⟩
        recency := c.recency.insert tick unit
        bytes := c.bytes+data.length }

/-- The plaintext of this version. An older or expired entry is dropped; a newer one stays. -/
def get (now unit writeSequence : ℕ) (c : VersionedLruCache) : Option Bytes × VersionedLruCache :=
  match c.map[unit]? with
  | none => (none,c)
  | some entry =>
    if entry.writeSequence = writeSequence ∧ now-entry.insertedAt < c.ttl then
      (some entry.data,c.touch unit)
    else if entry.writeSequence > writeSequence ∧ now-entry.insertedAt < c.ttl then (none,c)
    else (none,c.remove unit)

def invalidate (unit : ℕ) (c : VersionedLruCache) : VersionedLruCache := c.remove unit

def reconfigure (maxBytes : ℕ) (ttl : Option ℕ) (c : VersionedLruCache) : VersionedLruCache :=
  let c := { c with ttl := ttl.getD c.ttl, maxBytes := maxBytes }
  if maxBytes = 0 then c.clear else c.makeRoom 0

def Holds (c : VersionedLruCache) (unit sequence : ℕ) (data : Bytes) : Prop :=
  ∃ entry : CacheEntry, c.map[unit]? = some entry ∧ entry.writeSequence = sequence ∧ entry.data = data

section Contents

variable {c : VersionedLruCache} {unit unit' sequence sequence' now need : ℕ} {data data' : Bytes}

theorem Holds.remove (h : (c.remove unit').Holds unit sequence data) : c.Holds unit sequence data := by
  obtain ⟨entry,he,hs,hd⟩ := h
  unfold VersionedLruCache.remove at he
  split at he
  · exact ⟨entry,he,hs,hd⟩
  · simp only [Std.TreeMap.getElem?_erase] at he
    split at he
    · cases he
    · exact ⟨entry,he,hs,hd⟩

theorem Holds.touch (h : (c.touch unit').Holds unit sequence data) : c.Holds unit sequence data := by
  obtain ⟨entry,he,hs,hd⟩ := h
  unfold VersionedLruCache.touch at he
  simp only at he
  split at he
  · exact ⟨entry,he,hs,hd⟩
  · rename_i old hold
    simp only [Std.TreeMap.getElem?_insert] at he
    split at he
    · rename_i hc
      rw [Nat.compare_eq_eq] at hc
      subst hc
      cases he
      exact ⟨old,hold,hs,hd⟩
    · exact ⟨entry,he,hs,hd⟩

theorem Holds.makeRoomFrom {rounds : ℕ}
    (h : (VersionedLruCache.makeRoomFrom need rounds c).Holds unit sequence data) :
    c.Holds unit sequence data := by
  induction rounds generalizing c with
  | zero => exact h
  | succ rounds ih =>
    unfold VersionedLruCache.makeRoomFrom at h
    split at h
    · split at h
      · exact h
      · exact (ih h).remove
    · exact h

theorem Holds.makeRoom (h : (c.makeRoom need).Holds unit sequence data) : c.Holds unit sequence data :=
  Holds.makeRoomFrom h

/-- After a put the cache has what it had, and at most the new version beside it. -/
theorem Holds.put (h : (c.put now unit' sequence' data').Holds unit sequence data) :
    c.Holds unit sequence data ∨ unit = unit' ∧ sequence = sequence' ∧ data = data' := by
  unfold VersionedLruCache.put at h
  split at h
  · exact .inl h
  simp only at h
  split at h
  · exact .inl h.remove
  obtain ⟨entry,he,hs,hd⟩ := h
  simp only [Std.TreeMap.getElem?_insert] at he
  split at he
  · rename_i hc
    rw [Nat.compare_eq_eq] at hc
    cases he
    exact .inr ⟨hc.symm,hs.symm,hd.symm⟩
  · exact .inl (Holds.remove (Holds.makeRoom ⟨entry,he,hs,hd⟩))

theorem holds_of_get (h : (c.get now unit sequence).1 = some data) : c.Holds unit sequence data := by
  unfold get at h
  split at h
  · cases h
  · rename_i entry he
    split at h
    · rename_i hhit
      cases h
      exact ⟨entry,he,hhit.1,rfl⟩
    · split at h <;> cases h

theorem Holds.get (h : (c.get now unit' sequence').2.Holds unit sequence data) : c.Holds unit sequence data := by
  unfold VersionedLruCache.get at h
  split at h
  · exact h
  · split at h
    · exact h.touch
    · split at h
      · exact h
      · exact h.remove

theorem Holds.reconfigure {maxBytes : ℕ} {ttl : Option ℕ}
    (h : (c.reconfigure maxBytes ttl).Holds unit sequence data) : c.Holds unit sequence data := by
  unfold VersionedLruCache.reconfigure at h
  simp only at h
  split at h
  · obtain ⟨entry,he,-⟩ := h
    simp [clear] at he
  · exact h.makeRoom

end Contents

end VersionedLruCache
end Maki
