import Maki.StoreCells
import Maki.JournalCounters

/-! The journal and the data files. No call of the journal writer touches a data file: its handles
are those of its own segments and mark, and what it creates, removes and publishes has other
names. -/
namespace Maki

open Prog hiding pure bind throw get modify
namespace SlotStore

section Beside

variable {d d' d'' : Disk} {i : InodeId}

theorem Beside.refl (h : d.Wf) : Beside d d := ⟨h,Nat.le_refl _,fun _ => rfl,fun _ _ _ => rfl⟩

theorem Beside.trans (h : Beside d d') (h' : Beside d' d'') : Beside d d'' where
  wf := h'.wf
  next := Nat.le_trans h.next h'.next
  volatile index := (h'.volatile index).trans (h.volatile index)
  inode index i hi := (h'.inode index i ((h.volatile index).trans hi)).trans (h.inode index i hi)

theorem Beside.mapInode (hd : d.Wf) (hi : Aside d i) (F : Inode → Inode) :
    Beside d (d.mapInode i F) where
  wf := hd.mapInode F
  next := Nat.le_refl _
  volatile _ := rfl
  inode index j hj := by
    refine Disk.inodes_mapInode_of_ne ?_ F
    rintro rfl
    exact hi.2 index hj

theorem Aside.ofMeta {p : Path} (hd : d.Wf) (hp : p.IsMeta) (hi : d.volatile p = some i) :
    Aside d i :=
  ⟨hd.fresh p i (.inr hi),fun index hj => hp index (hd.unique p _ i (.inr hi) (.inr hj))⟩

end Beside
end SlotStore

namespace JournalWriter
open SlotStore (Beside Aside)

/-- The disk differs from `d₀` beside the data files only, and the writer's files and those of
`files` are no data files. -/
structure Held (d₀ : Disk) (files : List InodeId) (t : JournalWriter × Disk) : Prop where
  beside : Beside d₀ t.2
  own : ∀ i, t.1.Handle i → Aside t.2 i
  local_ : ∀ i ∈ files, Aside t.2 i

section Calls

variable {d₀ d d' : Disk} {files : List InodeId} {w w' : JournalWriter} {a : ActiveSegment} {i : InodeId}

section Kept

variable (h : Held d₀ files (w,d))

include h

theorem Held.move (hb : Beside d d') : Held d₀ files (w,d') :=
  ⟨h.beside.trans hb,fun j hj => (h.own j hj).beside hb,fun j hj => (h.local_ j hj).beside hb⟩

theorem Held.mapInode (hi : i ∈ files) (F : Inode → Inode) :
    Held d₀ files (w,d.mapInode i F) :=
  h.move (.mapInode h.beside.wf (h.local_ i hi) F)

/-- The writer's memory changes; its files stay, or are among the local ones. -/
theorem Held.remember (hw : ∀ i, w'.Handle i → w.Handle i ∨ i ∈ files) :
    Held d₀ files (w',d) := by
  refine ⟨h.beside,fun i hi => ?_,h.local_⟩
  rcases hw i hi with hi | hi
  · exact h.own i hi
  · exact h.local_ i hi

theorem Held.add (hi : Aside d i) : Held d₀ (i::files) (w,d) :=
  ⟨h.beside,h.own,List.forall_mem_cons.mpr ⟨hi,h.local_⟩⟩

end Kept

theorem Held.drop {t : JournalWriter × Disk} (h : Held d₀ (i::files) t) : Held d₀ files t :=
  ⟨h.beside,h.own,fun j hj => h.local_ j (List.mem_cons_of_mem _ hj)⟩

theorem Held.mapActive (h : Held d₀ files (w,d)) {f : ActiveSegment → ActiveSegment}
    (ha : w'.active = w.active.map f) (hm : w'.mark = w.mark) (hf : ∀ a, (f a).file = a.file) :
    Held d₀ files (w',d) := by
  refine h.remember fun i hi => .inl ?_
  rcases hi with ⟨b,hb,rfl⟩ | hi
  · obtain ⟨a,ha',rfl⟩ := Option.map_eq_some_iff.mp (ha.symm.trans hb)
    exact .inl ⟨a,ha',(hf a).symm⟩
  · exact .inr (hm.symm.trans hi)

theorem Own.isMeta {p : Path} (h : Own p) : p.IsMeta := by
  rcases h with rfl | ⟨index,rfl⟩ <;> exact fun _ hp => by cases hp

theorem Held.apart (h : Held d₀ files (w,d)) (ha : Disk.Apart Path.IsMeta d d → Disk.Apart Path.IsMeta d d') :
    Held d₀ files (w,d') := h.move (.ofApart Path.not_isMeta (ha (.refl h.beside.wf)))

theorem Held.advance [Crc32] (files : List InodeId) (w : JournalWriter) :
    Keeps (fun t => Held d₀ files (w,t.2)) DurableProofStore.advance := by
  apply Triple.ofEach
  rintro ⟨m,d⟩ h
  have hpath : ∀ x, (DurableProof.pair.path x).IsMeta := by
    rintro (_ | _) index <;> exact fun hp => by cases hp
  have hpair : DurableProof.pair.Rewritable DurableProof (fun bs => bs ≠ [])
      (Disk.Apart Path.IsMeta d) := AbStore.rewritable_apart hpath DurableProof.encode_ne_nil
  exact ((DurableProofStore.advance_keeps hpair).from_state (.refl h.beside.wf)).weaken
    (fun _ _ ht => h.apart fun _ => ht) (fun _ _ ht => h.apart fun _ => ht) fun _ ht => h.apart fun _ => ht

/-- Every call of the writer stays beside the data files. -/
theorem Held.framed : Framed (Held d₀) where
  drop h := h.drop
  hold hi h := h.add (h.own _ hi)
  opened hp hi h := h.add (.ofMeta h.beside.wf hp.isMeta hi)
  inode F hi h := h.mapInode hi F
  create hp h := h.apart (·.create hp.isMeta)
  remove hp h := h.apart (·.remove hp.isMeta)
  syncDir dir h := h.apart (·.syncDir dir)
  advance := Held.advance
  mark hi h := h.remember fun _ hj => hj.elim (fun hj => .inl (.inl hj)) fun hj =>
    .inr (Option.some.inj hj ▸ hi)
  proof _ h := h.remember fun _ hi => .inl hi
  cleanup _ h := h.remember fun _ hi => .inl hi
  failure h := h.mapActive rfl rfl fun _ => rfl
  tail h := h.mapActive rfl rfl fun _ => rfl

theorem Held.noteSynced (files : List InodeId) (w : JournalWriter) (d : Disk) (h : Held d₀ files (w,d)) :
    Held d₀ files (w.noteSynced,d) := h.mapActive rfl rfl fun _ => rfl

theorem append_held [Crc32] [DefaultHasher] (unitIndex : ℕ) (payload : Bytes) :
    Keeps (Held d₀ files) (append unitIndex payload) := by
  apply Triple.ofEach
  rintro ⟨w,d⟩ h
  refine (append_on h Held.framed Held.framed Held.framed (fun _ => h) Held.noteSynced
    (fun _ _ _ hw => hw.remember fun _ hi => .inl ?_) (fun _ _ _ _ _ _ hw => (hw.remember fun _ hi => ?_).drop)
    (T := Held d₀) fun _ _ _ _ _ hw => hw.mapActive rfl rfl fun _ => rfl).weaken
      (fun _ _ ht => ht.2) (fun _ _ ht => ht.elim id (·.elim id id)) fun _ ht => ht.elim (·.elim id (·.elim id id)) id
  · rcases hi with ⟨a,ha,-⟩ | hi
    · cases ha
    · exact .inr hi
  · rcases hi with ⟨a,ha,rfl⟩ | hi
    · cases ha
      exact .inr List.mem_cons_self
    · exact .inl (.inr hi)

theorem sync_held [Crc32] [DefaultHasher] : Keeps (Held d₀ files) sync :=
  sync_on Held.framed Held.noteSynced fun _ _ h => h.remember fun _ hi => .inl hi

theorem deleteCovered_held (c : ℕ) : Keeps (Held d₀ files) (deleteCovered c) :=
  deleteCovered_on Held.framed (fun _ _ _ h => h.remember fun _ hi => .inl hi) c

end Calls
end JournalWriter
end Maki
