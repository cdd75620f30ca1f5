import Maki.Io

/-! Which files a crash cannot change. A file is settled at some bytes when its name and
its content are durable and every dirty operation it still has only rewrites bytes
that are there. No crash and no failing rewrite of the same bytes unsettles it, and no
operation on another inode touches it. -/
namespace Maki

/-- The operation leaves `bs` as it is, whole or torn: it sets the length `bs` has or
rewrites a first part of it. -/
def Pend.Harmless (bs : Bytes) (p : Pend) : Prop :=
  p = .SetLen bs.length ∨ ∃ n, p = .Write 0 (bs.take n)

theorem splice_part_self {bs : Bytes} {n k : ℕ} (hk : k ≤ (bs.take n).length) :
    Splice.splice k ((bs.take n).drop k) bs = bs := by
  simp only [List.length_take] at hk
  apply Splice.splice_eq_self
  · simp only [List.length_drop,List.length_take]
    omega
  · intro i hi
    simp only [List.length_drop,List.length_take] at hi
    have hn : k+i < n := by omega
    simp [Splice.at_,List.getD_eq_getElem?_getD,hn]

theorem applyTornHead_self (gran sector n : ℕ) (bs : Bytes) :
    applyTornHead gran sector 0 (bs.take n) bs = bs := by
  simp only [applyTornHead,Pend.apply,List.take_take]
  exact Splice.splice_take_self _ bs

theorem applyTornHole_self (gran sector n : ℕ) (bs : Bytes) :
    applyTornHole gran sector 0 (bs.take n) bs = bs := by
  simp only [applyTornHole,Pend.apply,List.take_take,Splice.splice_take_self,Nat.zero_add]
  split
  · rename_i h
    exact splice_part_self (by omega)
  · rw [if_neg (by simp only [List.length_take]; omega)]

namespace Pend.Harmless

variable {bs : Bytes} {p : Pend}

theorem apply_eq (h : p.Harmless bs) : p.apply bs = bs := by
  rcases h with rfl | ⟨n,rfl⟩
  · exact Splice.resize_self bs
  · exact Splice.splice_take_self n bs

theorem settle_eq (h : p.Harmless bs) (tearing : Option ℕ) (f : Fate) :
    f.settle tearing p bs = bs := by
  have ha := h.apply_eq
  -- only a write can be torn, and only when tearing is on
  rcases h with rfl | ⟨n,rfl⟩ <;> cases f <;> cases tearing <;>
    simp only [Fate.settle,ha,applyTornHead_self,applyTornHole_self,ite_self]

end Pend.Harmless

theorem surviving_harmless {bs : Bytes} {ps : List Pend} (h : ∀ p ∈ ps, p.Harmless bs)
    (tearing : Option ℕ) (fate : ℕ → Fate) : surviving tearing fate ps bs = bs := by
  induction ps generalizing fate with
  | nil => rfl
  | cons p ps ih =>
    rw [surviving,(h p (by simp)).settle_eq]
    exact ih (fun q hq => h q (by simp [hq])) _

/-- Durable and visible content are `bs` and no dirty operation can change it. -/
structure Inode.Holds (bs : Bytes) (n : Inode) : Prop where
  durable : n.durable = bs
  image : n.image = bs
  pending : ∀ p ∈ n.pending, p.Harmless bs

namespace Inode

variable {bs : Bytes} {n : Inode}

theorem Holds.push (h : n.Holds bs) {p : Pend} (hp : p.Harmless bs) : (n.push p).Holds bs where
  durable := h.durable
  image := by rw [Inode.push,h.image,hp.apply_eq]
  pending := forall_mem_concat h.pending hp

theorem Holds.dropDirty (h : n.Holds bs) : n.dropDirty.Holds bs where
  durable := h.durable
  image := h.image
  pending := by simp [Inode.dropDirty]

theorem Holds.crash (h : n.Holds bs) (tearing : Option ℕ) (fate : ℕ → Fate) :
    (fromContent (surviving tearing fate n.pending n.durable)).Holds bs := by
  rw [h.durable,surviving_harmless h.pending]
  exact ⟨rfl,rfl,by simp [fromContent]⟩

/-- Setting the length and writing from the start leaves nothing of what was there, so
the following sync makes exactly `bs` durable, whatever was dirty before. -/
theorem rewrite_sync (n : Inode) (bs : Bytes) :
    ((n.push (.SetLen bs.length)).push (.Write 0 bs)).sync.Holds bs where
  durable := by
    simp [Inode.sync,Inode.push,durableAfterSync,applyAll,Pend.apply]
  image := by simp [Inode.sync,Inode.push,Pend.apply]
  pending := by simp [Inode.sync]

/-- What an inode can be while its content is being replaced by `bs`, before the sync. -/
inductive Rewriting (bs : Bytes) (n : Inode) : Inode → Prop
  | start : Rewriting bs n n
  | resized : Rewriting bs n (n.push (.SetLen bs.length))
  | part (k : ℕ) : Rewriting bs n ((n.push (.SetLen bs.length)).push (.Write 0 (bs.take k)))
  | failed : Rewriting bs n ((n.push (.SetLen bs.length)).push (.Write 0 bs)).dropDirty

theorem Rewriting.durable_eq {n' : Inode} (h : Rewriting bs n n') : n'.durable = n.durable := by
  cases h <;> rfl

theorem Rewriting.image_eq {n' : Inode} (h : Rewriting bs n n') (hn : n.image = bs) :
    n'.image = bs := by
  cases h with
  | start => exact hn
  | resized => simp [Inode.push,Pend.apply,hn]
  | part k => simp [Inode.push,Pend.apply,hn,Splice.splice_take_self]
  | failed => simp [Inode.push,Inode.dropDirty,Pend.apply]

theorem harmless_setLen (bs : Bytes) : (Pend.SetLen bs.length).Harmless bs := .inl rfl
theorem harmless_write (bs : Bytes) : (Pend.Write 0 bs).Harmless bs :=
  .inr ⟨bs.length,by rw [List.take_length]⟩

/-- Rewriting the bytes a file holds never loses them, wherever it stops. -/
theorem Rewriting.holds {n' : Inode} (h : Rewriting bs n n') (hn : n.Holds bs) : n'.Holds bs := by
  have hs := hn.push (harmless_setLen bs)
  cases h with
  | start => exact hn
  | resized => exact hs
  | part k => exact hs.push (.inr ⟨k,rfl⟩)
  | failed => exact (hs.push (harmless_write bs)).dropDirty

/-- Every dirty operation keeps a file of `k` bytes at that length, whole or torn. -/
def KeepsLength (k : ℕ) (p : Pend) : Prop :=
  p = .SetLen k ∨ ∃ data, p = .Write 0 data ∧ data.length ≤ k

theorem KeepsLength.settle_length {k : ℕ} {p : Pend} {data : Bytes} (h : KeepsLength k p)
    (hd : data.length = k) (tearing : Option ℕ) (f : Fate) :
    (f.settle tearing p data).length = k := by
  have hap : (p.apply data).length = k := by
    rcases h with rfl | ⟨src,rfl,hs⟩
    · simp [Pend.apply]
    · simp only [Pend.apply,Splice.length_splice]
      omega
  rcases h with rfl | ⟨src,rfl,hs⟩
  · cases f <;> cases tearing <;> simpa only [Fate.settle] using by assumption
  · have hhead : ∀ gran sector, (applyTornHead gran sector 0 src data).length = k := by
      intro gran sector
      simp only [applyTornHead,Pend.apply,Splice.length_splice,List.length_take]
      omega
    have hpart : ∀ j, (Splice.splice 0 (src.take j) data).length = k := by
      intro j
      simp only [Splice.length_splice,List.length_take]
      omega
    have hhole : ∀ gran sector, (applyTornHole gran sector 0 src data).length = k := by
      intro gran sector
      simp only [applyTornHole,Pend.apply]
      split
      · simp only [Splice.length_splice,List.length_take,List.length_drop]
        omega
      · -- the file already covers the write, so the hole does not extend it
        simp only [hpart,show ¬ k < 0+src.length by omega,if_false]
    cases f <;> cases tearing <;> simp only [Fate.settle] <;> first | assumption | skip
    · split
      · exact hd
      · exact hhead _ _
    · split
      · exact hd
      · exact hhole _ _

/-- A file that has `k` bytes, durable and visible, and keeps that length. -/
structure Sized (k : ℕ) (n : Inode) : Prop where
  durable : n.durable.length = k
  image : n.image.length = k
  pending : ∀ p ∈ n.pending, KeepsLength k p

namespace Sized

variable {k : ℕ}

theorem ofHolds (h : n.Holds bs) : n.Sized bs.length where
  durable := by rw [h.durable]
  image := by rw [h.image]
  pending p hp := by
    rcases h.pending p hp with rfl | ⟨j,rfl⟩
    · exact .inl rfl
    · exact .inr ⟨_,rfl,List.length_take_le' _ _⟩

theorem push (h : n.Sized k) {p : Pend} (hp : KeepsLength k p) : (n.push p).Sized k where
  durable := h.durable
  image := hp.settle_length h.image none .kept
  pending := forall_mem_concat h.pending hp

theorem dropDirty (h : n.Sized k) : n.dropDirty.Sized k := ⟨h.durable,h.image,by simp [Inode.dropDirty]⟩

theorem rewriting (h : n.Sized bs.length) {n' : Inode} (hr : Rewriting bs n n') :
    n'.Sized bs.length := by
  have hs := h.push (.inl rfl : KeepsLength bs.length (.SetLen bs.length))
  cases hr with
  | start => exact h
  | resized => exact hs
  | part j => exact hs.push (.inr ⟨_,rfl,List.length_take_le' _ _⟩)
  | failed => exact (hs.push (.inr ⟨_,rfl,Nat.le_refl _⟩)).dropDirty

theorem surviving_length {ps : List Pend} {data : Bytes} (hp : ∀ p ∈ ps, KeepsLength k p)
    (hd : data.length = k) (tearing : Option ℕ) (fate : ℕ → Fate) :
    (surviving tearing fate ps data).length = k := by
  induction ps generalizing data fate with
  | nil => exact hd
  | cons p ps ih =>
    exact ih (fun q hq => hp q (by simp [hq])) ((hp p (by simp)).settle_length hd tearing _) _

theorem crash (h : n.Sized k) (tearing : Option ℕ) (fate : ℕ → Fate) :
    (fromContent (surviving tearing fate n.pending n.durable)).Sized k := by
  have hl := surviving_length h.pending h.durable tearing fate
  exact ⟨hl,hl,by simp [fromContent]⟩

end Sized

end Inode

namespace Disk

variable {d : Disk} {p q : Path} {i : InodeId} {bs : Bytes}

/-- The name shows the inode, durably or not yet. -/
def Linked (d : Disk) (p : Path) (i : InodeId) : Prop :=
  (d.names p).durable = some i ∨ (d.names p).volatile = some i

/-- No inode has two names, and every new one is fresh. -/
structure Wf (d : Disk) : Prop where
  unique : ∀ p q i, d.Linked p i → d.Linked q i → p = q
  fresh : ∀ p i, d.Linked p i → i ≤ d.nextInode

def Stored (d : Disk) (p : Path) (bs : Bytes) : Prop :=
  ∃ i, d.Linked p i ∧ (d.inodes i).durable = bs

def Settled (d : Disk) (p : Path) (bs : Bytes) : Prop :=
  ∃ i, (d.names p).durable = some i ∧ d.volatile p = some i ∧ (d.inodes i).Holds bs

@[simp] theorem names_mapInode (f : Inode → Inode) : (d.mapInode i f).names = d.names := rfl
@[simp] theorem nextInode_mapInode (f : Inode → Inode) :
    (d.mapInode i f).nextInode = d.nextInode := rfl
@[simp] theorem volatile_mapInode (f : Inode → Inode) :
    (d.mapInode i f).volatile p = d.volatile p := rfl
@[simp] theorem linked_mapInode (f : Inode → Inode) (j : InodeId) :
    (d.mapInode i f).Linked p j ↔ d.Linked p j := Iff.rfl

@[simp] theorem inodes_mapInode_self (f : Inode → Inode) :
    (d.mapInode i f).inodes i = f (d.inodes i) := by simp [mapInode]

theorem inodes_mapInode_of_ne {j : InodeId} (h : j ≠ i) (f : Inode → Inode) :
    (d.mapInode i f).inodes j = d.inodes j := by simp [mapInode,h]

theorem mapInode_const_self : d.mapInode i (fun _ => d.inodes i) = d := by simp [mapInode]

/-- The state reached when replacing the content of inode `i` by `bs` has begun. -/
def Begun (d : Disk) (i : InodeId) (bs : Bytes) (d' : Disk) : Prop :=
  ∃ n', Inode.Rewriting bs (d.inodes i) n' ∧ d' = d.mapInode i fun _ => n'

theorem begun_start (d : Disk) (i : InodeId) (bs : Bytes) : d.Begun i bs d :=
  ⟨_,.start,mapInode_const_self.symm⟩

@[simp] theorem volatile_syncDir (dir : Dir) : (d.syncDir dir).volatile p = d.volatile p := by
  simp only [volatile,syncDir]
  split <;> rfl

@[simp] theorem image_syncDir (dir : Dir) : (d.syncDir dir).image p = d.image p := by
  rw [image,volatile_syncDir]
  rfl

theorem volatile_create (d : Disk) (p : Path) : (d.create p).volatile p = some (d.nextInode+1) := by
  simp [volatile,create,relink]

theorem inodes_create (d : Disk) (p : Path) : (d.create p).inodes (d.nextInode+1) = {} := by
  simp [create]

theorem inodes_of_create (h : (d.create p).volatile p = some i) : (d.create p).inodes i = {} := by
  rw [← Option.some.inj ((volatile_create d p).symm.trans h),inodes_create]

theorem volatile_relink_of_ne {o : Option InodeId} (h : p ≠ q) :
    (d.relink q o).volatile p = d.volatile p := by
  simp only [volatile,relink,Function.update_of_ne h]

theorem volatile_create_of_ne (h : p ≠ q) : (d.create q).volatile p = d.volatile p :=
  volatile_relink_of_ne h

theorem inodes_create_of_ne (h : i ≠ d.nextInode+1) : (d.create q).inodes i = d.inodes i := by
  simp only [create,Function.update_of_ne h]

namespace Wf

theorem mapInode (h : d.Wf) (f : Inode → Inode) : (d.mapInode i f).Wf := ⟨h.unique,h.fresh⟩

theorem not_linked_next (h : d.Wf) (p : Path) : ¬ d.Linked p (d.nextInode+1) :=
  fun hp => Nat.not_succ_le_self _ (h.fresh p _ hp)

/-- The inodes a name shows after `syncDir` or a crash are among those it showed before. -/
theorem of_linked {d' : Disk} (h : d.Wf) (hl : ∀ p i, d'.Linked p i → d.Linked p i)
    (hn : d'.nextInode = d.nextInode) : d'.Wf where
  unique p q i hp hq := h.unique p q i (hl p i hp) (hl q i hq)
  fresh p i hp := hn ▸ h.fresh p i (hl p i hp)

end Wf

theorem linked_of_syncDir {dir : Dir} (h : (d.syncDir dir).Linked p i) : d.Linked p i := by
  simp only [Linked,syncDir] at h ⊢
  split at h
  · exact .inr (h.elim id id)
  · exact h

theorem linked_of_crash {tearing : Option ℕ} {c : CrashChoice}
    (h : (d.crash tearing c).Linked p i) : d.Linked p i := by
  simp only [Linked,crash,Name.settle] at h ⊢
  split at h
  · cases hk : c.keep (d.names p).change <;> simp only [hk] at h <;> tauto
  · exact h

theorem linked_crash_iff {tearing : Option ℕ} {c : CrashChoice} :
    (d.crash tearing c).Linked p i ↔ (d.crash tearing c).volatile p = some i := by
  simp only [Linked,volatile,crash,Name.settle]
  split
  · simp
  · rename_i hp
    have hdv : (d.names p).durable = (d.names p).volatile := by simpa [Name.pending] using hp
    rw [hdv,or_self]

theorem linked_create (h : (d.create p).Linked q i) :
    d.Linked q i ∨ (q = p ∧ i = d.nextInode+1) := by
  by_cases hq : q = p
  · subst hq
    simp only [Linked,create,relink,Function.update_self,Option.some.injEq] at h
    rcases h with h | h
    · exact .inl (.inl h)
    · exact .inr ⟨rfl,h.symm⟩
  · simp only [Linked,create,relink,Function.update_of_ne hq] at h
    exact .inl h

namespace Wf

theorem syncDir (h : d.Wf) (dir : Dir) : (d.syncDir dir).Wf :=
  h.of_linked (fun _ _ => linked_of_syncDir) rfl

theorem crash (h : d.Wf) (tearing : Option ℕ) (c : CrashChoice) : (d.crash tearing c).Wf :=
  h.of_linked (fun _ _ => linked_of_crash) rfl

theorem create (h : d.Wf) (p : Path) : (d.create p).Wf where
  unique q r i hq hr := by
    rcases linked_create hq with hq | ⟨hqp,hi⟩ <;> rcases linked_create hr with hr | ⟨hrp,hi'⟩
    · exact h.unique q r i hq hr
    · exact absurd (hi' ▸ hq) (h.not_linked_next q)
    · exact absurd (hi ▸ hr) (h.not_linked_next r)
    · exact hqp.trans hrp.symm
  fresh q i hq := by
    show i ≤ d.nextInode+1
    rcases linked_create hq with hq | ⟨-,rfl⟩
    · exact Nat.le_succ_of_le (h.fresh q i hq)
    · exact Nat.le_refl _

end Wf

namespace Settled

theorem image_eq (h : d.Settled p bs) : d.image p = some bs := by
  obtain ⟨i,-,hv,hi⟩ := h
  simp [image,hv,hi.image]

theorem of_syncDir (hv : d.volatile p = some i) (hi : (d.inodes i).Holds bs) :
    (d.syncDir p.parent).Settled p bs := by
  have hn : ((d.syncDir p.parent).names p).durable = some i := by
    simpa [Disk.syncDir,volatile] using hv
  exact ⟨i,hn,by rwa [volatile_syncDir],hi⟩

variable (h : d.Settled p bs)

include h

/-- Operations on the file's own inode that keep it holding `bs` keep it settled. -/
theorem mapInode_self (hv : d.volatile p = some i) {f : Inode → Inode}
    (hf : (d.inodes i).Holds bs → (f (d.inodes i)).Holds bs) : (d.mapInode i f).Settled p bs := by
  obtain ⟨j,hd,hj,hh⟩ := h
  obtain rfl : j = i := Option.some.inj (hj.symm.trans hv)
  exact ⟨j,hd,hj,by simpa using hf hh⟩

/-- Frame: what happens to the inode of another name does not unsettle this one. -/
theorem mapInode_of_ne (hw : d.Wf) (hpq : p ≠ q) (hq : d.Linked q i)
    (f : Inode → Inode) : (d.mapInode i f).Settled p bs := by
  obtain ⟨j,hd,hj,hh⟩ := h
  have hne : j ≠ i := by
    rintro rfl
    exact hpq (hw.unique p q j (.inl hd) hq)
  exact ⟨j,hd,hj,by rwa [inodes_mapInode_of_ne hne]⟩

theorem create_of_ne (hw : d.Wf) (hpq : p ≠ q) : (d.create q).Settled p bs := by
  obtain ⟨j,hd,hj,hh⟩ := h
  have hne : j ≠ d.nextInode+1 := by
    rintro rfl
    exact hw.not_linked_next p (.inl hd)
  refine ⟨j,?_,?_,?_⟩
  · simpa [create,relink,hpq] using hd
  · simpa [volatile,create,relink,hpq] using hj
  · simpa [create,hne] using hh

theorem syncDir (dir : Dir) : (d.syncDir dir).Settled p bs := by
  obtain ⟨j,hd,hj,hh⟩ := h
  simp only [volatile] at hj
  refine ⟨j,?_,?_,hh⟩ <;> simp only [volatile,Disk.syncDir] <;> split <;> assumption

theorem crash (tearing : Option ℕ) (c : CrashChoice) :
    (d.crash tearing c).Settled p bs := by
  obtain ⟨j,hd,hj,hh⟩ := h
  simp only [volatile] at hj
  have hn : (d.names p).settle c.keep = d.names p := by
    simp [Name.settle,Name.pending,hd,hj]
  exact ⟨j,by simp [Disk.crash,hn,hd],by simp [volatile,Disk.crash,hn,hj],hh.crash tearing _⟩

end Settled
end Disk
end Maki
