import Maki.AbRun

/-! Frames. Operations on some names leave the files of every other name alone, and the
stores of an A/B pair are operations on its two names. -/
namespace Maki
namespace Disk

variable {d d' d'' : Disk} {p q : Path} {i : InodeId} {P : Path → Prop}

theorem linked_of_relink_none (h : (d.relink q none).Linked p i) : d.Linked p i := by
  by_cases hp : p = q
  · subst hp
    simp only [Linked,relink,Function.update_self,reduceCtorEq,or_false] at h
    exact .inl h
  · simpa only [Linked,relink,Function.update_of_ne hp] using h

theorem Wf.relink_none (h : d.Wf) (q : Path) : (d.relink q none).Wf :=
  h.of_linked (fun _ _ => linked_of_relink_none) rfl

/-- `d'` comes from `d` by directory syncs and operations on names of `P`. -/
structure Apart (P : Path → Prop) (d d' : Disk) : Prop where
  start : d.Wf
  wf : d'.Wf
  next : d.nextInode ≤ d'.nextInode
  volatile : ∀ p, ¬ P p → d'.volatile p = d.volatile p
  links : ∀ p i, d'.Linked p i → d.Linked p i ∨ d.nextInode < i
  inode : ∀ p i, ¬ P p → d.Linked p i → d'.inodes i = d.inodes i

namespace Apart

theorem refl (h : d.Wf) : Apart P d d where
  start := h
  wf := h
  next := Nat.le_refl _
  volatile _ _ := rfl
  links _ _ hl := .inl hl
  inode _ _ _ _ := rfl

variable (h : Apart P d d')

include h

/-- No inode of an outer name has come under a name of `P`. -/
theorem ne_of_linked {j : InodeId} (hp : ¬ P p) (hq : P q) (hi : d.Linked p i)
    (hj : d'.Linked q j) : i ≠ j := by
  rintro rfl
  rcases h.links q i hj with hl | hl
  · exact hp (h.start.unique p q i hi hl ▸ hq)
  · exact Nat.not_lt.mpr (h.start.fresh p i hi) hl

theorem mapInode {j : InodeId} (hq : P q) (hj : d'.Linked q j)
    (f : Inode → Inode) : Apart P d (d'.mapInode j f) where
  start := h.start
  wf := h.wf.mapInode f
  next := h.next
  volatile := h.volatile
  links := h.links
  inode p i hp hi := by
    rw [inodes_mapInode_of_ne (h.ne_of_linked hp hq hi hj),h.inode p i hp hi]

theorem create (hq : P q) : Apart P d (d'.create q) where
  start := h.start
  wf := h.wf.create q
  next := Nat.le_succ_of_le h.next
  volatile p hp := by
    have hne : p ≠ q := fun he => hp (he ▸ hq)
    rw [volatile_create_of_ne hne,h.volatile p hp]
  links p i hl := by
    rcases linked_create hl with hl | ⟨-,rfl⟩
    · exact h.links p i hl
    · exact .inr (Nat.lt_succ_of_le h.next)
  inode p i hp hi := by
    have hne : i ≠ d'.nextInode+1 :=
      Nat.ne_of_lt (Nat.lt_succ_of_le (Nat.le_trans (h.start.fresh p i hi) h.next))
    rw [inodes_create_of_ne hne,h.inode p i hp hi]

theorem remove (hq : P q) : Apart P d (d'.relink q none) where
  start := h.start
  wf := h.wf.relink_none q
  next := h.next
  volatile p hp := by
    have hne : p ≠ q := fun he => hp (he ▸ hq)
    rw [volatile_relink_of_ne hne,h.volatile p hp]
  links p i hl := h.links p i (linked_of_relink_none hl)
  inode := h.inode

theorem syncDir (dir : Dir) : Apart P d (d'.syncDir dir) where
  start := h.start
  wf := h.wf.syncDir dir
  next := h.next
  volatile p hp := by rw [volatile_syncDir,h.volatile p hp]
  links p i hl := h.links p i (linked_of_syncDir hl)
  inode := h.inode

end Apart
end Disk

namespace AbStore

variable {T : Type} [AbRecord T] {s : AbStore}

theorem rewritable_apart {P : Path → Prop} {d₀ : Disk} (hP : ∀ x, P (s.path x))
    (henc : ∀ r : T, AbRecord.encode r ≠ []) :
    s.Rewritable T (fun bs => bs ≠ []) (Disk.Apart P d₀) where
  nonempty _ h := h
  encode := henc
  copy d p c hc := by
    simp only [copyAt,Option.bind_eq_some_iff,Option.map_eq_some_iff] at hc
    obtain ⟨bs,hbs,r,-,rfl⟩ := hc
    simp only [bytesAt,Option.filter_eq_some_iff] at hbs
    rintro rfl
    simp at hbs
  create d x h _ := h.create (hP x)
  begun d x i bs d' h hv _ hb := by
    obtain ⟨n',-,rfl⟩ := hb
    exact h.mapInode (hP x) (.inr hv) _
  held d x i bs n' h hv _ _ := h.mapInode (hP x) (.inr hv) _
  syncDir d dir h := h.syncDir dir

end AbStore
end Maki
