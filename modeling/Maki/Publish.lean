import Maki.Settled

/-! Replacing a file by renaming a synced temporary over it. A failed directory sync leaves the new
content visible but volatile, and a crash may then leave both names on one inode, so the next
replacement can write the very file it replaces. What such a file can show is the bytes
being written with some of them zero or missing. -/
namespace Maki

open Prog hiding pure bind throw get modify

/-- `bs` cut short, with some of its bytes zero. -/
structure Patchy (bs x : Bytes) : Prop where
  length : x.length ≤ bs.length
  bytes : ∀ k, Splice.at_ x k = Splice.at_ bs k ∨ Splice.at_ x k = 0

namespace Patchy

variable {bs x : Bytes}

protected theorem refl (bs : Bytes) : Patchy bs bs := ⟨Nat.le_refl _,fun _ => .inl rfl⟩

variable (h : Patchy bs x)

include h

theorem resize {n : ℕ} (hn : n ≤ bs.length) : Patchy bs (Splice.resize n x) where
  length := by simpa using hn
  bytes k := by
    rw [Splice.at_resize]
    split
    · exact h.bytes k
    · exact .inr rfl

theorem splice {offset : ℕ} {src : Bytes} (hlen : offset+src.length ≤ bs.length)
    (hsrc : ∀ k, k < src.length → Splice.at_ src k = Splice.at_ bs (offset+k)) :
    Patchy bs (Splice.splice offset src x) where
  length := by
    have hx := h.length
    simp only [Splice.length_splice]
    omega
  bytes k := by
    rw [Splice.at_splice]
    split
    · rename_i hk
      rw [hsrc _ (by omega),show offset+(k-offset) = k by omega]
      exact .inl rfl
    · exact h.bytes k

theorem splice_take (n : ℕ) : Patchy bs (Splice.splice 0 (bs.take n) x) := by
  apply h.splice
  · rw [Nat.zero_add]
    exact List.length_take_le' _ _
  · intro k hk
    simp only [List.length_take] at hk
    simp [Splice.at_,List.getD_eq_getElem?_getD,show k < n by omega]

theorem splice_drop {n stop : ℕ} (hs : stop < (bs.take n).length) :
    Patchy bs (Splice.splice stop ((bs.take n).drop stop) x) := by
  simp only [List.length_take] at hs
  apply h.splice
  · simp only [List.length_drop,List.length_take]
    omega
  · intro k hk
    simp only [List.length_drop,List.length_take] at hk
    simp [Splice.at_,List.getD_eq_getElem?_getD,show stop+k < n by omega]

theorem applyTornHead (gran sector n : ℕ) :
    Patchy bs (Maki.applyTornHead gran sector 0 (bs.take n) x) := by
  simp only [Maki.applyTornHead,Pend.apply,List.take_take]
  exact h.splice_take _

theorem applyTornHole (gran sector n : ℕ) :
    Patchy bs (Maki.applyTornHole gran sector 0 (bs.take n) x) := by
  simp only [Maki.applyTornHole,Pend.apply,List.take_take,Nat.zero_add]
  split
  · rename_i hs
    exact (h.splice_take _).splice_drop hs
  · split
    · exact (h.splice_take _).resize (List.length_take_le' _ _)
    · exact h.splice_take _

/-- Damage brings no new bytes but zeros. -/
theorem not_mem {b : UInt8} (hb : b ∉ bs) (h0 : b ≠ 0) :
    b ∉ x := by
  intro hx
  obtain ⟨k,hk,rfl⟩ := List.getElem_of_mem hx
  have hat : Splice.at_ x k = x[k] := by simp [Splice.at_,List.getD_eq_getElem?_getD,hk]
  rcases h.bytes k with he | he
  · rw [hat] at he
    by_cases hl : k < bs.length
    · have hbs : Splice.at_ bs k = bs[k] := by simp [Splice.at_,List.getD_eq_getElem?_getD,hl]
      exact hb (he.trans hbs ▸ List.getElem_mem hl)
    · exact absurd hk (by have := h.length; omega)
  · exact h0 (hat ▸ he)

end Patchy

/-- The operations that fill an emptied file with `bs`. -/
inductive Pend.Refills (bs : Bytes) : Pend → Prop
  | clear : Refills bs (.SetLen 0)
  | fill (n : ℕ) : Refills bs (.Write 0 (bs.take n))
  | size : Refills bs (.SetLen bs.length)

namespace Pend.Refills

variable {bs x : Bytes} {p : Pend}

theorem write (bs : Bytes) : Refills bs (.Write 0 bs) := by
  have h : Refills bs (.Write 0 (bs.take bs.length)) := .fill bs.length
  rwa [List.take_length] at h

theorem settle (hp : p.Refills bs) (h : Patchy bs x) (tearing : Option ℕ) (f : Fate) :
    Patchy bs (f.settle tearing p x) := by
  have hap : Patchy bs (p.apply x) := by
    cases hp with
    | clear => exact h.resize (Nat.zero_le _)
    | fill n => exact h.splice_take n
    | size => exact h.resize (Nat.le_refl _)
  -- only a write can be torn, and only when tearing is on
  cases f with
  | lost => exact h
  | kept => exact hap
  | tornHead sector =>
    cases hp with
    | fill n =>
      cases tearing with
      | none => exact hap
      | some gran =>
        simp only [Fate.settle]
        split
        · exact h
        · exact h.applyTornHead gran sector n
    | _ => cases tearing <;> exact hap
  | tornHole sector =>
    cases hp with
    | fill n =>
      cases tearing with
      | none => exact hap
      | some gran =>
        simp only [Fate.settle]
        split
        · exact h
        · exact h.applyTornHole gran sector n
    | _ => cases tearing <;> exact hap

theorem surviving {ps : List Pend} (hps : ∀ p ∈ ps, p.Refills bs) (h : Patchy bs x)
    (tearing : Option ℕ) (fate : ℕ → Fate) : Patchy bs (Maki.surviving tearing fate ps x) := by
  induction ps generalizing x fate with
  | nil => exact h
  | cons p ps ih =>
    exact ih (fun q hq => hps q (by simp [hq])) ((hps p (by simp)).settle h tearing (fate 0)) _

end Pend.Refills

/-- Whatever a crash leaves of the file is a patchy copy of `bs`. -/
structure Inode.Patched (bs : Bytes) (n : Inode) : Prop where
  durable : Patchy bs n.durable
  image : Patchy bs n.image
  pending : ∀ p ∈ n.pending, p.Refills bs

namespace Inode

variable {bs : Bytes} {n n' : Inode}

namespace Patched

theorem ofContent (bs : Bytes) : (fromContent bs).Patched bs :=
  ⟨.refl bs,.refl bs,by simp [fromContent]⟩

theorem push (h : n.Patched bs) {p : Pend} (hp : p.Refills bs) : (n.push p).Patched bs where
  durable := h.durable
  image := hp.settle h.image none .kept
  pending := forall_mem_concat h.pending hp

theorem dropDirty (h : n.Patched bs) : n.dropDirty.Patched bs :=
  ⟨h.durable,h.image,by simp [Inode.dropDirty]⟩

theorem crash (h : n.Patched bs) (tearing : Option ℕ) (fate : ℕ → Fate) :
    (fromContent (surviving tearing fate n.pending n.durable)).Patched bs := by
  have hs := Pend.Refills.surviving h.pending h.durable tearing fate
  exact ⟨hs,hs,by simp [fromContent]⟩

end Patched

/-- What an inode can be while it is filled with `bs`, its sync included. -/
inductive Refilling (bs : Bytes) (n : Inode) : Inode → Prop
  | start : Refilling bs n n
  | cleared : Refilling bs n (n.push (.SetLen 0))
  | part (k : ℕ) : Refilling bs n ((n.push (.SetLen 0)).push (.Write 0 (bs.take k)))
  | filled : Refilling bs n (((n.push (.SetLen 0)).push (.Write 0 bs)).push (.SetLen bs.length))
  | failed : Refilling bs n
      (((n.push (.SetLen 0)).push (.Write 0 bs)).push (.SetLen bs.length)).dropDirty
  | synced : Refilling bs n (fromContent bs)

/-- The sync makes exactly `bs` durable, whatever was dirty before. -/
theorem refill_sync (n : Inode) (bs : Bytes) :
    (((n.push (.SetLen 0)).push (.Write 0 bs)).push (.SetLen bs.length)).sync = fromContent bs := by
  have hfill : ∀ x : Bytes, Splice.resize bs.length (Splice.splice 0 bs (Splice.resize 0 x)) = bs := by
    intro x
    have hlen : (Splice.splice 0 bs (Splice.resize 0 x)).length = bs.length := by simp
    apply Splice.ext_at (by simp)
    intro k hk
    rw [Splice.at_resize,if_pos (by simpa using hk),Splice.at_splice,
      if_pos (by simpa using hk),Nat.sub_zero]
  simp [Inode.sync,Inode.push,durableAfterSync,applyAll,Pend.apply,hfill,fromContent]

theorem Refilling.patched (h : Refilling bs n n') (hn : n.Patched bs) : n'.Patched bs := by
  have hc := hn.push .clear
  have hw := hc.push (.write bs)
  cases h with
  | start => exact hn
  | cleared => exact hc
  | part k => exact hc.push (.fill k)
  | filled => exact hw.push .size
  | failed => exact (hw.push .size).dropDirty
  | synced => exact .ofContent bs

end Inode

namespace Disk

variable {d : Disk} {p source target : Path} {i : InodeId}

/-- No name shows an inode that is yet to be made. -/
def Fresh (d : Disk) : Prop := ∀ p i, d.Linked p i → i ≤ d.nextInode

theorem Fresh.not_linked_next (h : d.Fresh) (p : Path) : ¬ d.Linked p (d.nextInode+1) :=
  fun hp => Nat.not_succ_le_self _ (h p _ hp)

theorem Fresh.mapInode (h : d.Fresh) (i : InodeId) (f : Inode → Inode) : (d.mapInode i f).Fresh := h

theorem Fresh.create (h : d.Fresh) (p : Path) : (d.create p).Fresh := by
  intro q i hq
  show i ≤ d.nextInode+1
  rcases linked_create hq with hq | ⟨-,rfl⟩
  · exact Nat.le_succ_of_le (h q i hq)
  · exact Nat.le_refl _

theorem Fresh.syncDir (h : d.Fresh) (dir : Dir) : (d.syncDir dir).Fresh :=
  fun q i hq => h q i (linked_of_syncDir hq)

theorem Fresh.crash (h : d.Fresh) (tearing : Option ℕ) (c : CrashChoice) : (d.crash tearing c).Fresh :=
  fun q i hq => h q i (linked_of_crash hq)

@[simp] theorem inodes_rename : (d.rename source target).inodes = d.inodes := rfl
@[simp] theorem nextInode_rename : (d.rename source target).nextInode = d.nextInode := rfl

theorem volatile_rename_source : (d.rename source target).volatile source = none := by
  simp [volatile,rename]

theorem volatile_rename_target (h : source ≠ target) :
    (d.rename source target).volatile target = d.volatile source := by
  simp [volatile,rename,Ne.symm h]

@[simp] theorem durable_rename : ((d.rename source target).names p).durable = (d.names p).durable := by
  by_cases hs : p = source
  · subst hs
    simp [rename]
  · by_cases ht : p = target
    · subst ht
      simp [rename,hs]
    · simp [rename,hs,ht]

theorem linked_rename (h : (d.rename source target).Linked p i) :
    d.Linked p i ∨ d.volatile source = some i := by
  rcases h with h | h
  · exact .inl (.inl (by simpa using h))
  · by_cases hs : p = source
    · subst hs
      exact absurd h (by simp [rename])
    · by_cases ht : p = target
      · subst ht
        exact .inr (by simpa [rename,hs] using h)
      · exact .inl (.inr (by simpa [rename,hs,ht] using h))

theorem Fresh.rename (h : d.Fresh) : (d.rename source target).Fresh := by
  intro q i hq
  rcases linked_rename hq with hq | hq
  · exact h q i hq
  · exact h source i (.inr hq)

theorem durable_create : ((d.create p).names target).durable = (d.names target).durable := by
  by_cases h : target = p
  · subst h
    simp [create,relink]
  · simp [create,relink,h]

end Disk

/-- The file that is replaced, and the temporary beside it. -/
structure Replaced where
  file : Path
  temp : Path
  ne : temp ≠ file := by decide
  beside : temp.parent = file.parent := by rfl

namespace Replaced

variable {μ : Type} (r : Replaced)

def publish (bytes : Bytes) : Io μ ErrorKind Unit := do
  let file ← Io.openFile r.temp true
  Io.setLen file 0
  Io.writeAt file 0 bytes
  Io.setLen file bytes.length
  Io.syncData file
  Io.rename r.temp r.file
  Io.syncDir r.file.parent

def read {ε ρ : Type} (io : ErrorKind → ε) (fits : ℕ → Bool) (misfit : ε)
    (decode : Bytes → Except ε ρ) : Io μ ε ρ := do
  let file ← Prog.mapErr io (Io.openFile r.file false)
  let n ← Prog.mapErr io (Io.len file)
  if fits n then do
    let bytes ← Prog.mapErr io (Io.readAt file 0 n)
    Prog.ofExcept (decode bytes)
  else Prog.throw misfit

inductive Opened (d : Disk) : InodeId → Disk → Prop
  | found {t : InodeId} (h : d.volatile r.temp = some t) : Opened d t d
  | made (h : d.volatile r.temp = none) : Opened d (d.nextInode+1) (d.create r.temp)

/-- The disk while `bs` is published, up to the directory sync. -/
inductive Publishing (bs : Bytes) (d : Disk) : Disk → Prop
  | start : Publishing bs d d
  | filling {d₁ : Disk} {t : InodeId} {n : Inode} (ho : r.Opened d t d₁)
      (hn : Inode.Refilling bs (d₁.inodes t) n) : Publishing bs d (d₁.mapInode t fun _ => n)
  | renamed {d₁ : Disk} {t : InodeId} (ho : r.Opened d t d₁) :
      Publishing bs d ((d₁.mapInode t fun _ => Inode.fromContent bs).rename r.temp r.file)

/-- The file durably holds exactly `bs`, and no temporary is left. -/
structure Published (bs : Bytes) (d : Disk) : Prop where
  fresh : d.Fresh
  temp : d.volatile r.temp = none
  file : ∃ i, (d.names r.file).durable = some i ∧ d.volatile r.file = some i ∧
    d.inodes i = Inode.fromContent bs

/-- Whatever a crash leaves, the file is a patchy copy of bytes in `C`; the temporary shares an
inode with it only where there is nothing else the file could show. -/
structure Guarded (C : Bytes → Prop) (d : Disk) : Prop where
  fresh : d.Fresh
  durable : ∃ i, (d.names r.file).durable = some i
  volatile : ∃ i, d.volatile r.file = some i
  patched : ∀ i, d.Linked r.file i → ∃ bs, C bs ∧ (d.inodes i).Patched bs
  apart : ∀ t, d.volatile r.temp = some t → d.Linked r.file t → ∀ i, d.Linked r.file i → i = t

variable {r} {bs : Bytes} {C : Bytes → Prop} {d d' : Disk}

theorem Opened.volatile {t : InodeId} (h : r.Opened d t d') : d'.volatile r.temp = some t := by
  cases h with
  | found h => exact h
  | made h => exact Disk.volatile_create d r.temp

theorem Opened.fresh {t : InodeId} (h : r.Opened d t d') (hd : d.Fresh) : d'.Fresh := by
  cases h with
  | found h => exact hd
  | made h => exact hd.create r.temp

theorem Publishing.fresh (h : r.Publishing bs d d') (hd : d.Fresh) : d'.Fresh := by
  cases h with
  | start => exact hd
  | filling ho hn => exact (ho.fresh hd).mapInode _ _
  | renamed ho => exact ((ho.fresh hd).mapInode _ _).rename

theorem Published.guarded (h : r.Published bs d) (hC : C bs) : r.Guarded C d where
  fresh := h.fresh
  durable := h.file.imp fun _ hi => hi.1
  volatile := h.file.imp fun _ hi => hi.2.1
  patched j hj := by
    obtain ⟨i,hd,hv,hi⟩ := h.file
    obtain rfl : i = j := by
      rcases hj with hj | hj
      · exact Option.some.inj (hd.symm.trans hj)
      · exact Option.some.inj (hv.symm.trans hj)
    exact ⟨bs,hC,hi ▸ .ofContent bs⟩
  apart t ht := by simp [h.temp] at ht

namespace Guarded

variable (h : r.Guarded C d)

include h

theorem image :
    ∃ i x, d.volatile r.file = some i ∧ C x ∧ (d.inodes i).Patched x := by
  obtain ⟨i,hi⟩ := h.volatile
  obtain ⟨x,hx,hp⟩ := h.patched i (.inr hi)
  exact ⟨i,x,hi,hx,hp⟩

theorem crash (tearing : Option ℕ) (c : CrashChoice) :
    r.Guarded C (d.crash tearing c) where
  fresh := h.fresh.crash tearing c
  durable := by
    obtain ⟨i,hi⟩ := h.durable
    obtain ⟨j,hj⟩ := h.volatile
    simp only [Disk.crash,Name.settle]
    split
    · cases c.keep (d.names r.file).change
      · exact ⟨i,hi⟩
      · exact ⟨j,hj⟩
    · exact ⟨i,hi⟩
  volatile := by
    obtain ⟨i,hi⟩ := h.durable
    obtain ⟨j,hj⟩ := h.volatile
    simp only [Disk.volatile,Disk.crash,Name.settle]
    split
    · cases c.keep (d.names r.file).change
      · exact ⟨i,hi⟩
      · exact ⟨j,hj⟩
    · exact ⟨j,hj⟩
  patched i hi := by
    obtain ⟨x,hx,hp⟩ := h.patched i (Disk.linked_of_crash hi)
    exact ⟨x,hx,hp.crash tearing (c.fate i)⟩
  -- after the crash the file shows one inode
  apart t _ ht i hi :=
    Option.some.inj ((Disk.linked_crash_iff.mp hi).symm.trans (Disk.linked_crash_iff.mp ht))

/-- Opening the temporary makes an inode of its own or finds one that is guarded. -/
theorem opened {t : InodeId} (ho : r.Opened d t d') :
    r.Guarded C d' ∧ (∀ i, d'.Linked r.file i → d.Linked r.file i ∧ d'.inodes i = d.inodes i) ∧
      (d'.Linked r.file t → d.volatile r.temp = some t) := by
  cases ho with
  | found ht => exact ⟨h,fun i hi => ⟨hi,rfl⟩,fun _ => ht⟩
  | made ht =>
    have hlink : ∀ i, (d.create r.temp).Linked r.file i → d.Linked r.file i := by
      intro i hi
      rcases Disk.linked_create hi with hi | ⟨he,-⟩
      · exact hi
      · exact absurd he.symm r.ne
    have hold : ∀ i, (d.create r.temp).Linked r.file i →
        d.Linked r.file i ∧ (d.create r.temp).inodes i = d.inodes i := by
      intro i hi
      refine ⟨hlink i hi,Disk.inodes_create_of_ne ?_⟩
      rintro rfl
      exact h.fresh.not_linked_next _ (hlink _ hi)
    have hnew : ¬ (d.create r.temp).Linked r.file (d.nextInode+1) :=
      fun hi => h.fresh.not_linked_next _ (hlink _ hi)
    refine ⟨⟨h.fresh.create r.temp,?_,?_,?_,?_⟩,hold,fun hi => absurd hi hnew⟩
    · simpa only [Disk.durable_create] using h.durable
    · simpa only [Disk.volatile_create_of_ne r.ne.symm] using h.volatile
    · intro i hi
      rw [(hold i hi).2]
      exact h.patched i (hlink i hi)
    · intro t ht hl
      rw [Disk.volatile_create] at ht
      cases ht
      exact absurd hl hnew

/-- Filling the temporary keeps the file guarded; where both share an inode, the bytes must be
those that are there. -/
theorem filling {t : InodeId} {n : Inode} (hbs : C bs)
    (ht : d.volatile r.temp = some t) (hn : Inode.Refilling bs (d.inodes t) n)
    (hsame : d.Linked r.file t → (d.inodes t).Patched bs) :
    r.Guarded C (d.mapInode t fun _ => n) where
  fresh := h.fresh
  durable := h.durable
  volatile := h.volatile
  patched i hi := by
    by_cases hit : i = t
    · subst hit
      exact ⟨bs,hbs,by simpa using hn.patched (hsame hi)⟩
    · rw [Disk.inodes_mapInode_of_ne hit]
      exact h.patched i hi
  apart := h.apart

theorem publishing (hp : r.Publishing bs d d') (hbs : C bs)
    (hsame : ∀ t, d.volatile r.temp = some t → d.Linked r.file t → (d.inodes t).Patched bs) :
    r.Guarded C d' := by
  have hfill : ∀ {d₁ t n}, r.Opened d t d₁ → Inode.Refilling bs (d₁.inodes t) n →
      r.Guarded C (d₁.mapInode t fun _ => n) := by
    intro d₁ t n ho hn
    obtain ⟨hg,hold,hshared⟩ := h.opened ho
    refine hg.filling hbs ho.volatile hn fun hl => ?_
    rw [(hold t hl).2]
    exact hsame t (hshared hl) (hold t hl).1
  cases hp with
  | start => exact h
  | filling ho hn => exact hfill ho hn
  | @renamed d₁ t ho =>
    have hg := hfill ho .synced
    have hv := ho.volatile
    refine ⟨hg.fresh.rename,?_,⟨t,?_⟩,?_,?_⟩
    · simpa only [Disk.durable_rename] using hg.durable
    · rw [Disk.volatile_rename_target r.ne]
      exact hv
    · intro i hi
      rcases Disk.linked_rename hi with hi | hi
      · exact hg.patched i hi
      · obtain rfl : t = i := Option.some.inj (hv.symm.trans hi)
        exact ⟨bs,hbs,by simpa using Inode.Patched.ofContent bs⟩
    · intro j hj
      rw [Disk.volatile_rename_source] at hj
      cases hj

end Guarded

/-- The file durably holds `bs` once the directory is synced. -/
theorem Opened.published {t : InodeId} (ho : r.Opened d t d') (hd : d.Fresh) :
    r.Published bs
      (((d'.mapInode t fun _ => Inode.fromContent bs).rename r.temp r.file).syncDir r.file.parent) where
  fresh := ((ho.fresh hd).mapInode _ _).rename.syncDir _
  temp := by rw [Disk.volatile_syncDir,Disk.volatile_rename_source]
  file := by
    have hv : ((d'.mapInode t fun _ => Inode.fromContent bs).rename r.temp r.file).volatile r.file =
        some t := (Disk.volatile_rename_target r.ne).trans ho.volatile
    refine ⟨t,?_,?_,?_⟩
    · simpa [Disk.syncDir,Disk.volatile] using hv
    · rwa [Disk.volatile_syncDir]
    · simp [Disk.syncDir]

variable {m : μ}

/-- Publishing returns with the bytes durable under the file's name. A failure or a loss of power
may come anywhere before that. -/
theorem publish_triple (hbs : bs ≠ []) (hd : d.Fresh) :
    Ends (· = (m,d)) (r.publish bs)
      (fun _ s => s.1 = m ∧ r.Published bs s.2)
      (fun s => s.1 = m ∧ r.Publishing bs d s.2) := by
  unfold publish
  have hopen : Ends (· = (m,d)) (Io.openFile r.temp true)
      (fun t s => ∃ d₁, r.Opened d t d₁ ∧ s = (m,d₁))
      (fun s => s.1 = m ∧ r.Publishing bs d s.2) := by
    apply Io.openFile_triple
    · rintro _ _ t ⟨⟩ ht
      exact ⟨d,.found ht,rfl⟩
    · rintro _ _ ⟨⟩ ht -
      exact ⟨_,.made ht,rfl⟩
    · rintro _ _ - - hc
      cases hc
    · rintro _ rfl
      exact ⟨rfl,.start⟩
    · rintro _ rfl
      exact ⟨rfl,.start⟩
  refine .bind hopen fun t => Triple.ofEach ?_
  rintro _ ⟨d₁,ho,rfl⟩
  -- the inode of the temporary after each step
  let n := d₁.inodes t
  let at_ (n' : Inode) : Disk := d₁.mapInode t fun _ => n'
  let cleared := n.push (.SetLen 0)
  let filled := cleared.push (.Write 0 bs)
  have hat : at_ n = d₁ := Disk.mapInode_const_self
  have hpush : ∀ n' p, (at_ n').push t p = at_ (n'.push p) := by
    intro n' p
    simp [at_,Disk.push,Disk.mapInode]
  have hstop : ∀ {n'}, Inode.Refilling bs n n' → ∀ s, s = (m,at_ n') →
      s.1 = m ∧ r.Publishing bs d s.2 := by
    rintro n' hn _ rfl
    exact ⟨rfl,.filling ho hn⟩
  have hclear : Ends (· = (m,d₁)) (Io.setLen t 0) (fun _ s => s = (m,at_ cleared))
      (fun s => s.1 = m ∧ r.Publishing bs d s.2) := by
    apply Io.setLen_triple
    · rintro _ _ ⟨⟩
      rw [← hat,hpush]
    · exact fun s hs => hstop .start s (by rw [hs,hat])
    · exact fun s hs => hstop .start s (by rw [hs,hat])
  have hwrite : Ends (· = (m,at_ cleared)) (Io.writeAt t 0 bs)
      (fun _ s => s = (m,at_ filled))
      (fun s => s.1 = m ∧ r.Publishing bs d s.2) := by
    apply Io.writeAt_triple
    · rintro _ _ ⟨⟩
      rw [Io.written,if_neg hbs,hpush]
    · rintro _ _ k ⟨⟩
      rw [Io.written]
      split
      · exact hstop .cleared _ rfl
      · rw [hpush]
        exact hstop (.part k) _ rfl
    · exact hstop .cleared
  have hfilled : Inode.Refilling bs n filled := by
    have hpart : Inode.Refilling bs n (cleared.push (.Write 0 (bs.take bs.length))) := .part bs.length
    rwa [List.take_length] at hpart
  have hsize : Ends (· = (m,at_ filled)) (Io.setLen t bs.length)
      (fun _ s => s = (m,at_ (filled.push (.SetLen bs.length))))
      (fun s => s.1 = m ∧ r.Publishing bs d s.2) := by
    apply Io.setLen_triple
    · rintro _ _ ⟨⟩
      rw [hpush]
    · exact hstop hfilled
    · exact hstop hfilled
  have hsync : Ends (fun s => s = (m,at_ (filled.push (.SetLen bs.length)))) (Io.syncData t)
      (fun _ s => s = (m,at_ (.fromContent bs)))
      (fun s => s.1 = m ∧ r.Publishing bs d s.2) := by
    apply Io.syncData_triple
    · rintro _ _ ⟨⟩
      rw [← Inode.refill_sync n bs]
      simp [at_,Disk.mapInode,filled,cleared]
    · rintro _ _ ⟨⟩
      refine hstop .failed _ ?_
      simp [at_,Disk.mapInode,filled,cleared]
    · exact hstop .filled
  have hrename : Ends (fun s => s = (m,at_ (.fromContent bs))) (Io.rename r.temp r.file)
      (fun _ s => s = (m,(at_ (.fromContent bs)).rename r.temp r.file))
      (fun s => s.1 = m ∧ r.Publishing bs d s.2) := by
    apply Io.rename_triple r.ne
    · rintro _ _ i ⟨⟩ -
      rfl
    · rintro _ _ ⟨⟩ -
      exact hstop .synced _ rfl
    · exact hstop .synced
    · exact hstop .synced
  have hdir : Ends (fun s => s = (m,(at_ (.fromContent bs)).rename r.temp r.file))
      (Io.syncDir r.file.parent) (fun _ s => s.1 = m ∧ r.Published bs s.2)
      (fun s => s.1 = m ∧ r.Publishing bs d s.2) := by
    apply Io.syncDir_triple
    · rintro _ _ ⟨⟩
      exact ⟨rfl,ho.published hd⟩
    · rintro _ rfl
      exact ⟨rfl,.renamed ho⟩
    · rintro _ rfl
      exact ⟨rfl,.renamed ho⟩
  exact .bind hclear fun _ => .bind hwrite fun _ =>
    Triple.bind hsize fun _ => .bind hsync fun _ =>
      Triple.bind hrename fun _ => hdir

/-- Reading changes nothing and gives what the visible content decodes to. -/
theorem read_triple {ε ρ : Type} {io : ErrorKind → ε} {fits : ℕ → Bool} {misfit : ε}
    {decode : Bytes → Except ε ρ} :
    Ends (· = (m,d)) (r.read io fits misfit decode)
      (fun a s => s = (m,d) ∧ ∃ x, d.image r.file = some x ∧ decode x = .ok a)
      (· = (m,d)) := by
  unfold read
  have hopen : Ends (· = (m,d)) (Prog.mapErr io (Io.openFile r.file false))
      (fun i s => s = (m,d) ∧ d.volatile r.file = some i)
      (· = (m,d)) := by
    apply Triple.mapErr
    apply Io.openFile_triple
    · rintro _ _ i ⟨⟩ hi
      exact ⟨rfl,hi⟩
    · rintro _ _ - - hc
      cases hc
    · exact fun _ _ h _ _ => h
    · exact fun _ h => h
    · exact fun _ h => h
  refine .bind hopen fun i => Triple.ofEach ?_
  rintro _ ⟨rfl,hi⟩
  apply Io.Reads.bind_triple ((Io.Reads.len i).mapErr io)
  · exact fun _ => rfl
  · rfl
  · split
    · apply Io.Checks.bind_triple ((Io.Checks.readAt i 0 _).mapErr io)
      · exact fun _ => rfl
      · rfl
      · intro bytes hb
        simp only [Nat.zero_add,Nat.le_refl,if_true,List.drop_zero,List.take_length,Except.mapError] at hb
        cases hb
        apply Triple.ofExcept
        · exact fun a _ ha hs => ⟨hs,_,by simp [Disk.image,hi],ha⟩
        · exact fun _ _ _ hs => hs
    · exact .throw fun _ hs => hs

end Replaced

namespace Io

variable {μ : Type}

theorem Reads.exists_ (p : Path) :
    Reads (Io.exists_ p : Io μ ErrorKind _) fun d => (d.volatile p).isSome where
  triple s := hooked_triple (fun _ _ h => by subst h; exact ⟨rfl,rfl⟩) (fun _ _ _ h => h)
    (fun _ h => h)
  quiet _ := rfl

/-! The calls that keep every name at an inode that exists. -/

theorem openFile_fresh (p : Path) (create : Bool) :
    Keeps (fun s => s.2.Fresh) (Io.openFile p create : Io μ ErrorKind _) :=
  openFile_triple (fun _ _ _ hd _ => hd) (fun _ _ hd _ _ => hd.create p) (fun _ _ hd _ _ => hd)
    (fun _ hd => hd) (fun _ hd => hd)

theorem setLen_fresh (i : InodeId) (n : ℕ) :
    Keeps (fun s => s.2.Fresh) (Io.setLen i n : Io μ ErrorKind _) :=
  setLen_triple (fun _ _ hd => hd.mapInode _ _) (fun _ hd => hd) (fun _ hd => hd)

theorem syncData_fresh (i : InodeId) :
    Keeps (fun s => s.2.Fresh) (Io.syncData i : Io μ ErrorKind _) :=
  syncData_triple (fun _ _ hd => hd.mapInode _ _) (fun _ _ hd => hd.mapInode _ _) (fun _ hd => hd)

theorem syncDir_fresh (dir : Dir) :
    Keeps (fun s => s.2.Fresh) (Io.syncDir dir : Io μ ErrorKind _) :=
  syncDir_triple (fun _ _ hd => hd.syncDir dir) (fun _ hd => hd) (fun _ hd => hd)

end Io
end Maki
