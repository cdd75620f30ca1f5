import Maki.WriterInvariant

/-! Runs of the journal writer: every call keeps the invariant however it ends, and a
writer resumed from a journal scan starts with it. -/
namespace Maki

open Prog hiding pure bind throw get modify
namespace JournalWriter

section Calls

variable {w : JournalWriter} {a : ActiveSegment} {d d' : Disk}

def Holding (w : JournalWriter) (t : JournalWriter × Disk) : Prop := t.1 = w ∧ w.Invariant t.2

variable {t : JournalWriter × Disk} {n : ℕ}

theorem Holding.invariant (h : Holding w t) : t.1.Invariant t.2 :=
  h.1.symm ▸ h.2

theorem Invariant.remove (h : w.Invariant d) (index : ℕ)
    (hi : ∀ a ∈ w.active, a.info.index ≠ index) :
    w.Invariant (d.relink (.journalSegment index) none) := by
  have hap : Disk.Apart (· = .journalSegment index) d (d.relink (.journalSegment index) none) :=
    (Disk.Apart.refl h.wf).remove rfl
  refine h.apart hap (by simp) fun a ha he => hi a ha ?_
  simpa using he

theorem Invariant.syncDir (h : w.Invariant d) (dir : Dir) : w.Invariant (d.syncDir dir) :=
  h.apart ((Disk.Apart.refl (P := fun _ => False) h.wf).syncDir dir) id fun _ _ => id

theorem cleanupFailedCreation_triple (h : w.Invariant d) :
    Ends (· = (w,d)) cleanupFailedCreation
      (fun _ t => t.1 = { w with creationCleanup := none } ∧ t.1.Invariant t.2)
      (Holding w) := by
  unfold cleanupFailedCreation
  apply Triple.get_bind
  cases hc : w.creationCleanup with
  | none =>
    simp only [hc]
    apply Triple.pure
    rintro _ rfl
    have hw : w = { w with creationCleanup := none } := by rw [← hc]
    exact ⟨hw,h⟩
  | some index =>
    simp only [hc]
    obtain ⟨ha,-⟩ := h.sound.cleanup index hc
    have hgone := h.remove index (by simp [ha])
    have hremove : Ends (· = (w,d))
        (coreIo (Io.optional .NotFound (Io.remove (.journalSegment index))))
        (fun _ => Holding w) (Holding w) := by
      apply Triple.mapErr
      apply Io.optional_triple
      apply Io.remove_triple
      · rintro _ _ i ⟨⟩ -
        exact ⟨rfl,hgone⟩
      · rintro _ _ ⟨⟩ -
        exact ⟨rfl,h⟩
      · rintro _ rfl
        exact ⟨rfl,h⟩
      · rintro _ rfl
        exact ⟨rfl,h⟩
    refine .bind hremove fun _ => ?_
    have hsync : Keeps (Holding w) (coreIo (Io.syncDir .journal)) :=
      Triple.mapErr (Io.syncDir_triple (fun _ _ ht => ⟨ht.1,ht.2.syncDir _⟩) (fun _ ht => ht)
        fun _ ht => ht)
    refine .bind hsync fun _ => update_triple ?_
    rintro _ d' ⟨rfl,h'⟩
    exact ⟨rfl,h'.remember h'.sound.clearCleanup rfl fun a ha => ⟨a,ha,rfl,rfl,h'.length a ha⟩⟩

abbrev Upheld (t : JournalWriter × Disk) : Prop := t.1.Invariant t.2

theorem cleanupFailedCreation_keeps :
    Keeps Upheld cleanupFailedCreation := Triple.ofEach fun _ h =>
  (cleanupFailedCreation_triple h).weaken (fun _ _ ht => ht.2)
    (fun _ _ ht => ht.invariant) fun _ ht => ht.invariant

def Within (w : JournalWriter) (d : Disk) (path : Path) (t : JournalWriter × Disk) : Prop :=
  t.1 = w ∧ Disk.Apart (· = path) d t.2

def Making (w : JournalWriter) (d : Disk) (path : Path) (file : InodeId) (n : ℕ)
    (t : JournalWriter × Disk) : Prop :=
  t.1 = w ∧ Disk.Apart (· = path) d t.2 ∧ t.2.volatile path = some file ∧
    (t.2.inodes file).image.length = n

theorem Making.mapInode {path : Path} {file : InodeId} {k : ℕ}
    (h : Making w d path file n t) {f : Inode → Inode}
    (hf : (f (t.2.inodes file)).image.length = k) :
    Making w d path file k (t.1,t.2.mapInode file f) :=
  ⟨h.1,h.2.1.mapInode rfl (.inr h.2.2.1) f,h.2.2.1,by simpa using hf⟩

/-- A created segment is a file of one header; a failing creation touches no other file. -/
theorem createSegment_triple [Crc32] (hw : d.Wf) (header : SegmentHeader) :
    Ends (· = (w,d)) (createSegment header)
      (fun file => Making w d (.journalSegment header.segmentIndex) file segmentHeaderSize)
      (Within w d (.journalSegment header.segmentIndex)) := by
  let path : Path := .journalSegment header.segmentIndex
  have hstart : Within w d path (w,d) := ⟨rfl,.refl hw⟩
  apply ((Io.Still.fp _).mapErr _).bind_triple (fun _ => hstart) hstart
  intro _
  have hopen : Ends (· = (w,d)) (coreIo (Io.openFile path true))
      (fun file t => ∃ n, Making w d path file n t) (Within w d path) := by
    apply Triple.mapErr
    apply Io.openFile_triple
    · rintro _ _ i ⟨⟩ hv
      exact ⟨_,rfl,.refl hw,hv,rfl⟩
    · rintro _ _ ⟨⟩ hv -
      exact ⟨_,rfl,(Disk.Apart.refl hw).create rfl,Disk.volatile_create _ _,rfl⟩
    · rintro _ _ ⟨⟩ - hc
      cases hc
    · exact fun _ hs => hs ▸ hstart
    · exact fun _ hs => hs ▸ hstart
  refine .bind hopen fun file => ?_
  have hbad : ∀ {n : ℕ} {t : JournalWriter × Disk}, Making w d path file n t →
      Within w d path t := fun ht => ⟨ht.1,ht.2.1⟩
  have hcut : Ends (fun t => ∃ n, Making w d path file n t) (coreIo (Io.setLen file 0))
      (fun _ => Making w d path file 0) (Within w d path) := by
    apply Triple.mapErr
    apply Io.setLen_triple
    · rintro m d' ⟨n,ht⟩
      exact ht.mapInode (by simp [Inode.push,Pend.apply])
    · rintro _ ⟨n,ht⟩
      exact hbad ht
    · rintro _ ⟨n,ht⟩
      exact hbad ht
  have hgrow : Ends (Making w d path file 0)
      (coreIo (Io.allocateRange file 0 segmentHeaderSize))
      (fun _ => Making w d path file segmentHeaderSize)
      (Within w d path) := by
    apply Triple.mapErr
    apply Io.allocateRange_triple
    · rintro m d' ht -
      exact ht.mapInode (by simp [Inode.push,Pend.apply])
    · rintro m d' ht hle
      have hlen := ht.2.2.2
      simp only [segmentHeaderSize] at hle hlen
      omega
    · exact fun _ _ ht => hbad ht
    · exact fun _ ht => hbad ht
  have hwritten : ∀ {t : JournalWriter × Disk} (data : Bytes), data.length ≤ segmentHeaderSize →
      Making w d path file segmentHeaderSize t →
      Making w d path file segmentHeaderSize (t.1,Io.written file 0 data t.2) := by
    intro t data hd ht
    unfold Io.written
    split
    · exact ht
    · refine ht.mapInode ?_
      have hlen := ht.2.2.2
      rw [length_push_write (by omega),hlen]
  have hheader := SegmentHeader.length_encode header
  have hwrite : Ends (Making w d path file segmentHeaderSize)
      (coreIo (Io.writeAt file 0 header.encode)) (fun _ => Making w d path file segmentHeaderSize)
      (Within w d path) := by
    apply Triple.mapErr
    apply Io.writeAt_triple
    · exact fun m d' ht => hwritten header.encode (Nat.le_of_eq hheader) ht
    · exact fun m d' n ht => hbad (hwritten (header.encode.take n)
        (by rw [List.length_take]; omega) ht)
    · exact fun _ ht => hbad ht
  have hpoint : ∀ name, Ends (Making w d path file segmentHeaderSize) (coreIo (Io.fp name))
      (fun _ => Making w d path file segmentHeaderSize)
      (Within w d path) := fun name =>
    Triple.weaken ((Io.Still.fp name).mapErr _).keeps (fun _ _ ht => ht)
      (fun _ _ ht => hbad ht) fun _ ht => hbad ht
  have hsync : Ends (Making w d path file segmentHeaderSize) (coreIo (Io.syncData file))
      (fun _ => Making w d path file segmentHeaderSize)
      (Within w d path) := by
    apply Triple.mapErr
    apply Io.syncData_triple
    · exact fun m d' ht => ht.mapInode ht.2.2.2
    · exact fun m d' ht => hbad (ht.mapInode (f := Inode.dropDirty) ht.2.2.2)
    · exact fun _ ht => hbad ht
  have hdir : Ends (Making w d path file segmentHeaderSize) (coreIo (Io.syncDir .journal))
      (fun _ => Making w d path file segmentHeaderSize)
      (Within w d path) := by
    apply Triple.mapErr
    apply Io.syncDir_triple
    · exact fun m d' ht => ⟨ht.1,ht.2.1.syncDir _,by rw [Disk.volatile_syncDir]; exact ht.2.2.1,
        ht.2.2.2⟩
    · exact fun _ ht => hbad ht
    · exact fun _ ht => hbad ht
  refine .bind hcut fun _ => .bind hgrow fun _ =>
    Triple.bind hwrite fun _ => .bind (hpoint _) fun _ =>
    Triple.bind hsync fun _ => .bind (hpoint _) fun _ =>
    Triple.bind hdir fun _ => .pure fun _ ht => ht

theorem sealActive_triple [Crc32] [DefaultHasher] (h : w.Invariant d) :
    Ends (· = (w,d)) sealActive (fun _ t => Reached w t ∧ t.1.active = none)
      (Reached w) := by
  refine .bind (syncActive_triple h) fun _ => update_triple ?_
  rintro w' d' ⟨⟨h',hsteady⟩,hd⟩
  refine ⟨⟨h'.remember (h'.sound.retire hd) rfl ?_,hsteady⟩,rfl⟩
  rintro a ⟨⟩

/-- A new active segment behind a sealed journal, or a creation to be cleaned up. -/
theorem startSegment_triple [Crc32] (h : w.Invariant d) (ha : w.active = none)
    (hc : w.creationCleanup = none) :
    Ends (· = (w,d)) (startSegment w.nextSegmentIndex (w.nextSegmentIndex+1))
      (fun _ t => t.1.Invariant t.2 ∧ t.1.nextSequence = w.nextSequence)
      Upheld := by
  let path : Path := .journalSegment w.nextSegmentIndex
  have hwithin : ∀ {t : JournalWriter × Disk}, Within w d path t → Holding w t := fun ht =>
    ⟨ht.1,h.apart ht.2 (by simp [path]) (by simp [ha])⟩
  unfold startSegment
  apply Triple.get_bind
  have hcreate : Ends (· = (w,d))
      (Prog.attempt (createSegment ⟨w.nextSegmentIndex,w.volumeUuid,w.nextSequence⟩) : Io JournalWriter CoreError _)
      (fun r t => Within w d path t ∧
        ∀ file, r = .ok file → Making w d path file segmentHeaderSize t)
      Upheld := by
    apply Triple.attempt
    refine (createSegment_triple h.wf _).weaken ?_ ?_
      (fun _ ht => (hwithin ht).invariant)
    · intro file t ht
      exact ⟨⟨ht.1,ht.2.1⟩,by rintro _ ⟨⟩; exact ht⟩
    · exact fun e t ht => ⟨ht,by simp⟩
  refine .bind hcreate fun r => ?_
  cases r with
  | ok file =>
    have hstart : Ends (fun t : JournalWriter × Disk => Within w d path t ∧
          ∀ f, (.ok file : Except CoreError InodeId) = .ok f → Making w d path f segmentHeaderSize t)
        (update fun w' => { w' with
          nextSegmentIndex := w.nextSegmentIndex+1
          active := some (freshSegment w.nextSegmentIndex w'.nextSequence file) } : Io JournalWriter CoreError _)
        (fun _ t => t.1.Invariant t.2 ∧ t.1.nextSequence = w.nextSequence)
        Upheld := by
      apply update_triple
      rintro w' d' ⟨ht,hm⟩
      obtain ⟨-,-,hv,hlen⟩ := hm file rfl
      have hh := hwithin ht
      obtain rfl : w' = w := ht.1
      refine ⟨⟨h.sound.start ha hc file,hh.2.wf,hh.2.mark,?_,?_⟩,rfl⟩
      · rintro _ ⟨⟩
        exact hv
      · rintro _ ⟨⟩ -
        exact hlen
    refine .bind hstart fun _ => ?_
    exact .weaken (writeMark_keeps (Q := fun w' => w'.nextSequence = w.nextSequence)
      (fun _ _ hq => hq) _) (fun _ _ ht => ht) (fun _ _ ht => ht.1) fun _ ht => ht.1
  | error e =>
    have hfail : Ends (fun t : JournalWriter × Disk => Within w d path t ∧
          ∀ f, (.error e : Except CoreError InodeId) = .ok f →
            Making w d path f segmentHeaderSize t)
        (update fun w' => { w' with creationCleanup := some w.nextSegmentIndex } : Io JournalWriter CoreError _)
        (fun _ => Upheld) Upheld := by
      apply update_triple
      rintro w' d' ⟨ht,-⟩
      obtain ⟨rfl,hh⟩ := hwithin ht
      exact hh.remember (hh.sound.failCreation ha) rfl fun a ha => ⟨a,ha,rfl,rfl,hh.length a ha⟩
    refine .bind hfail fun _ => ?_
    exact .bind cleanupFailedCreation_keeps.attempt fun _ =>
      Triple.throw fun _ ht => ht

theorem roll_triple [Crc32] [DefaultHasher] (h : w.Invariant d) :
    Ends (· = (w,d)) roll
      (fun _ t => t.1.Invariant t.2 ∧ t.1.nextSequence = w.nextSequence)
      Upheld := by
  unfold roll
  apply Triple.get_bind
  cases hn : checkedAdd w.nextSegmentIndex 1 with
  | none =>
    simp only [hn]
    exact .throw fun _ ht => ht ▸ h
  | some next =>
    have hnext : next = w.nextSegmentIndex+1 := by
      unfold checkedAdd at hn
      split_ifs at hn
      exact (Option.some.inj hn).symm
    simp only [hn,hnext]
    have hclean := (cleanupFailedCreation_triple h).weaken (fun _ _ ht => ht)
      (fun _ _ ht => ht.invariant) (fun _ ht => ht.invariant)
    refine .bind hclean fun _ => ?_
    have hseal : Ends (fun t : JournalWriter × Disk =>
          t.1 = { w with creationCleanup := none } ∧ t.1.Invariant t.2) sealActive
        (fun _ t => Reached { w with creationCleanup := none } t ∧ t.1.active = none)
        Upheld := by
      apply Triple.ofEach
      rintro ⟨w',d'⟩ ⟨hw,h'⟩
      have hs := sealActive_triple h'
      rw [show w' = { w with creationCleanup := none } from hw] at hs ⊢
      exact hs.weaken (fun _ _ ht => ht) (fun _ _ ht => ht.1) fun _ ht => ht.1
    refine .bind hseal fun _ => Triple.ofEach ?_
    rintro ⟨w',d'⟩ ⟨⟨h',hseq,hindex,hcl⟩,ha⟩
    have hst := startSegment_triple h' ha hcl
    rw [show w'.nextSegmentIndex = w.nextSegmentIndex from hindex,
      show w'.nextSequence = w.nextSequence from hseq] at hst
    exact hst

/-- The active file while a record is written behind the accepted ones. -/
def Writing (w : JournalWriter) (a : ActiveSegment) (n : ℕ) (t : JournalWriter × Disk) : Prop :=
  t.1 = w ∧ w.Invariant t.2 ∧ (t.2.inodes a.file).image.length = n

theorem Writing.mapActive {k : ℕ} (h : Writing w a n t)
    (ha : w.active = some a) (hc : a.needsTailCleanup = true) {f : Inode → Inode}
    (hf : (f (t.2.inodes a.file)).image.length = k) :
    Writing w a k (t.1,t.2.mapInode a.file f) :=
  ⟨h.1,h.2.1.mapActive ha (by simp [hc]),by simpa using hf⟩

theorem Writing.invariant (h : Writing w a n t) :
    t.1.Invariant t.2 := h.1.symm ▸ h.2.1

theorem Trimmed.arm (h : Trimmed w a t) :
    Writing (w.mapActive fun a => { a with needsTailCleanup := true })
      { a with needsTailCleanup := true } a.writeOffset
      (w.mapActive fun a => { a with needsTailCleanup := true },t.2) := by
  obtain ⟨-,hinv,hlen⟩ := h
  refine ⟨rfl,hinv.remember (hinv.sound.flag (fun _ => true) (·.needsRedirty) w.proof
    w.syncFailures) rfl ?_,hlen⟩
  rintro _ hb
  obtain ⟨b,hbw,rfl⟩ := Option.map_eq_some_iff.mp hb
  exact ⟨b,hbw,rfl,rfl,by simp⟩

theorem Writing.accept {bytes : Bytes}
    (h : Writing w a (a.writeOffset+bytes.length) t) (ha : w.active = some a) (hb : bytes ≠ []) :
    Invariant { w.mapActive (·.accept bytes) with
      nextSequence := w.nextSequence+1, appendedSequence := w.nextSequence } t.2 := by
  obtain ⟨-,hinv,hlen⟩ := h
  refine hinv.remember (hinv.sound.accept ha hb) rfl ?_
  rintro _ hb
  obtain ⟨b,hbw,rfl⟩ := Option.map_eq_some_iff.mp hb
  obtain rfl : a = b := Option.some.inj (ha.symm.trans hbw)
  exact ⟨a,ha,rfl,rfl,fun _ => hlen⟩

theorem appendRecord_triple [Crc32] {r : JournalRecord} (h : w.Invariant d)
    (hr : r.sequence = w.nextSequence) :
    Ends (· = (w,d)) (appendRecord r (w.nextSequence+1))
      (fun _ => Upheld) Upheld := by
  unfold appendRecord
  apply Triple.get_bind
  cases ha : w.active with
  | none =>
    simp only [ha]
    exact .throw fun _ ht => ht ▸ h
  | some a =>
    simp only [ha]
    let w' := w.mapActive fun a => { a with needsTailCleanup := true }
    let a' := { a with needsTailCleanup := true }
    have ha' : w'.active = some a' := by simp only [w',mapActive,ha,Option.map_some,a']
    have hlen : 0 < (encodeRecord r).length := by
      rw [length_encodeRecord,recordHeaderSize]
      omega
    have hcut : Ends (· = (w,d)) (Prog.when a.needsTailCleanup (truncateTail a))
        (fun _ => Trimmed w a) Upheld := by
      apply Triple.when
      · exact fun _ => (truncateTail_triple h ha).weaken (fun _ _ ht => ht)
          (fun _ _ ht => ht.1) fun _ ht => ht.1
      · rintro _ hc rfl
        exact ⟨rfl,h,h.length a ha hc⟩
    have harm : Ends (Trimmed w a)
        (update (mapActive fun a => { a with needsTailCleanup := true }) : Io JournalWriter CoreError _)
        (fun _ => Writing w' a' a.writeOffset)
        Upheld := by
      apply update_triple
      intro w'' d' ht
      have harmed := ht.arm
      rwa [show w'' = w from ht.1]
    have hgrow : Ends (Writing w' a' a.writeOffset)
        (coreIo (Io.allocateRange a.file a.writeOffset (encodeRecord r).length))
        (fun _ => Writing w' a' (a.writeOffset+(encodeRecord r).length))
        Upheld := by
      apply Triple.mapErr
      apply Io.allocateRange_triple
      · exact fun m d' ht _ => ht.mapActive ha' rfl (by simp [Inode.push,Pend.apply])
      · intro m d' ht hle
        have hl : (d'.inodes a.file).image.length = a.writeOffset := ht.2.2
        omega
      · exact fun _ _ ht => ht.invariant
      · exact fun _ ht => ht.invariant
    have hpoint : Ends (Writing w' a' (a.writeOffset+(encodeRecord r).length))
        (coreIo (Io.fp "journal.append.write"))
        (fun _ => Writing w' a' (a.writeOffset+(encodeRecord r).length))
        Upheld :=
      Triple.weaken ((Io.Still.fp _).mapErr _).keeps (fun _ _ ht => ht)
        (fun _ _ ht => ht.invariant) fun _ ht => ht.invariant
    have hwritten : ∀ {t : JournalWriter × Disk} (data : Bytes),
        data.length ≤ (encodeRecord r).length →
        Writing w' a' (a.writeOffset+(encodeRecord r).length) t →
        Writing w' a' (a.writeOffset+(encodeRecord r).length)
          (t.1,Io.written a.file a.writeOffset data t.2) := by
      intro t data hd ht
      unfold Io.written
      split
      · exact ht
      · refine ht.mapActive ha' rfl ?_
        have hl := ht.2.2
        rw [length_push_write (by omega),hl]
    have hwrite : Ends (Writing w' a' (a.writeOffset+(encodeRecord r).length))
        (coreIo (Io.writeAt a.file a.writeOffset (encodeRecord r)))
        (fun _ => Writing w' a' (a.writeOffset+(encodeRecord r).length))
        Upheld := by
      apply Triple.mapErr
      apply Io.writeAt_triple
      · exact fun m d' ht => hwritten (encodeRecord r) (Nat.le_refl _) ht
      · exact fun m d' n ht => (hwritten ((encodeRecord r).take n)
          (by rw [List.length_take]; omega) ht).invariant
      · exact fun _ ht => ht.invariant
    have haccept : Ends (Writing w' a' (a.writeOffset+(encodeRecord r).length))
        (update fun w'' => { w''.mapActive (·.accept (encodeRecord r)) with
          nextSequence := w.nextSequence+1, appendedSequence := r.sequence } : Io JournalWriter CoreError _)
        (fun _ => Upheld) Upheld := by
      apply update_triple
      intro w'' d' ht
      have hacc := ht.accept ha' (List.ne_nil_of_length_pos hlen)
      rw [hr,show w'' = w' from ht.1]
      exact hacc
    refine .bind hcut fun _ => .bind harm fun _ =>
      Triple.bind hgrow fun _ => .bind hpoint fun _ =>
      Triple.bind hwrite fun _ => .bind haccept fun _ =>
      Triple.pure fun _ ht => ht

theorem append_keeps [Crc32] [DefaultHasher] (unitIndex : ℕ) (payload : Bytes) :
    Keeps Upheld (append unitIndex payload) := by
  unfold append
  apply Keeps.get_bind
  rintro ⟨w,d⟩ h
  apply Triple.ofExcept_bind (fun x hx => ?_) fun _ _ _ hs => hs ▸ h
  obtain ⟨next,rolls⟩ := x
  have hnext : next = w.nextSequence+1 := by
    unfold checkAppend checkedAdd at hx
    split_ifs at hx
    exact (congrArg Prod.fst (Except.ok.inj hx)).symm
  have hroll : Ends (· = (w,d)) (Prog.when rolls roll)
      (fun _ t => t.1.Invariant t.2 ∧ t.1.nextSequence = w.nextSequence)
      Upheld :=
    Triple.when (fun _ => roll_triple h) fun _ _ ht => ht ▸ ⟨h,rfl⟩
  refine .bind hroll fun _ => Triple.ofEach ?_
  rintro ⟨w',d'⟩ ⟨h',hseq⟩
  have hrec := appendRecord_triple (r := ⟨w'.nextSequence,unitIndex,payload⟩) h' rfl
  rw [show w'.nextSequence = w.nextSequence from hseq,← hnext] at hrec
  exact hrec

theorem sync_keeps [Crc32] [DefaultHasher] : Keeps Upheld sync := by
  refine cleanupFailedCreation_keeps.bind fun _ => ?_
  have hsync : Ends Upheld syncActive
      (fun _ t => t.1.Invariant t.2 ∧ t.1.durableSequence = t.1.appendedSequence)
      Upheld := Triple.ofEach fun t h =>
    (syncActive_triple h).weaken (fun _ _ ht => ⟨ht.1.1,ht.2⟩)
      (fun _ _ ht => ht.1) fun _ ht => ht.1
  have hset : Ends (fun t : JournalWriter × Disk => t.1.Invariant t.2 ∧
        t.1.durableSequence = t.1.appendedSequence)
      (update fun w => { w with durableSequence := w.appendedSequence } : Io JournalWriter CoreError _)
      (fun _ => Upheld) Upheld := by
    apply update_triple
    rintro w d ⟨h,hd⟩
    have hw : { w with durableSequence := w.appendedSequence } = w :=
      congrArg (fun n => { w with durableSequence := n }) hd.symm
    rwa [hw]
  refine Triple.bind hsync fun _ => Triple.bind hset fun _ => Keeps.get_bind ?_
  exact fun s hs => Triple.pure fun _ ht => ht ▸ hs

/-- A deletion drops covered files of sealed segments, up to its first failure. -/
theorem deleteSegments_triple {c : ℕ} (ss : List SegmentInfo) (error : Option CoreError)
    (hss : ∀ s ∈ ss, ∀ a ∈ w.active, a.info.index ≠ s.index) :
    Ends (Holding w) (deleteSegments c ss error)
      (fun r t => Holding w t ∧ Deleted c ss r.1 ∧ (error ≠ none → r.1 = ss))
      (Holding w) := by
  induction ss generalizing error with
  | nil => exact .pure fun _ ht => ⟨ht,.stopped [],fun _ => rfl⟩
  | cons s ss ih =>
    have hrest : ∀ s ∈ ss, ∀ a ∈ w.active, a.info.index ≠ s.index := fun t ht =>
      hss t (by simp [ht])
    unfold deleteSegments
    by_cases hc : s.lastSequence ≤ c ∧ error = none
    · simp only [if_pos hc]
      have hremove : Keeps (Holding w) (removeSegment s) := by
        refine ((Io.Still.fp _).mapErr _).keeps.bind fun _ => Keeps.mapErr ?_ _
        apply Io.remove_triple
        · exact fun m d' _ ht _ => ⟨ht.1,ht.2.remove s.index (hss s (by simp))⟩
        · exact fun _ _ ht _ => ht
        · exact fun _ ht => ht
        · exact fun _ ht => ht
      refine .bind hremove.attempt fun r => ?_
      cases r with
      | ok _ =>
        refine .bind (ih none hrest) fun r => Triple.pure ?_
        rintro t ⟨ht,hd,-⟩
        exact ⟨ht,.drop hc.1 hd,fun he => absurd hc.2 he⟩
      | error e =>
        refine .bind (ih (some e) hrest) fun r => Triple.pure ?_
        rintro t ⟨ht,-,hall⟩
        have hr : r.1 = ss := hall (by simp)
        exact ⟨ht,hr ▸ .stopped _,fun _ => by rw [hr]⟩
    · simp only [if_neg hc]
      refine .bind (ih error hrest) fun r => Triple.pure ?_
      rintro t ⟨ht,hd,hall⟩
      refine ⟨ht,?_,fun he => by rw [hall he]⟩
      by_cases he : error = none
      · exact .keep (Nat.not_le.mp fun hle => hc ⟨hle,he⟩) hd
      · exact hall he ▸ .stopped _

theorem deleteCovered_keeps (c : ℕ) :
    Keeps Upheld (deleteCovered c) := by
  refine cleanupFailedCreation_keeps.bind fun _ => Keeps.get_bind ?_
  rintro ⟨w,d⟩ h
  have hindex : ∀ s ∈ w.sealed, ∀ a ∈ w.active, a.info.index ≠ s.index := by
    intro s hs a ha
    have hb := h.sound.below s hs
    simp only [indexBound,show w.active = some a from ha] at hb
    exact Nat.ne_of_gt hb
  have hdelete := (deleteSegments_triple (c := c) w.sealed none hindex).conseq
    (fun t (ht : t = (w,d)) => (ht ▸ ⟨rfl,h⟩ : Holding w t)) (fun _ _ ht => ht)
    (fun _ _ ht => ht.invariant) fun _ ht => ht.invariant
  refine .bind hdelete fun r => ?_
  have hset : Ends (fun t => Holding w t ∧ Deleted c w.sealed r.1 ∧
        ((none : Option CoreError) ≠ none → r.1 = w.sealed))
      (update fun w => { w with sealed := r.1 } : Io JournalWriter CoreError _) (fun _ => Upheld) Upheld := by
    apply update_triple
    rintro w' d' ⟨ht,hd,-⟩
    obtain ⟨rfl,h'⟩ := ht
    exact h'.remember (h'.sound.delete hd) rfl fun a ha => ⟨a,ha,rfl,rfl,h'.length a ha⟩
  refine .bind hset fun _ => ?_
  obtain ⟨kept,deleted,error⟩ := r
  cases error with
  | none => exact Keeps.pure _
  | some e => exact Keeps.throw e

end Calls

inductive Call where
  | append (unitIndex : ℕ) (payload : Bytes)
  | sync
  | deleteCovered (checkpointSequence : ℕ)

section Runs

variable [Crc32] [DefaultHasher] {μ : Type}

def Call.run : Call → Io JournalWriter CoreError ℕ
  | .append unitIndex payload => JournalWriter.append unitIndex payload
  | .sync => JournalWriter.sync
  | .deleteCovered checkpointSequence => JournalWriter.deleteCovered checkpointSequence

/-- What calls that return, with or without an error, make of a writer and its disk. -/
inductive Run (start : JournalWriter × Disk) : JournalWriter × Disk → Prop
  | start : Run start start
  | call {t t' : JournalWriter × Disk} {fs fs' : List Fault} {o : Outcome CoreError ℕ}
      (h : Run start t) (c : Call) (hrun : c.run fs t = (o,fs',t')) (ho : o ≠ .lost) : Run start t'

theorem Run.result {start t : JournalWriter × Disk} {fs : List Fault} {c : Call} (h : Run start t)
    (ho : (c.run fs t).1 ≠ .lost) : Run start (c.run fs t).2.2 :=
  h.call c (Prog.eq_of_outcome (c.run fs t) rfl) ho

theorem Call.run_keeps (c : Call) : Keeps Upheld c.run := by
  cases c with
  | append unitIndex payload => exact append_keeps unitIndex payload
  | sync => exact sync_keeps
  | deleteCovered c => exact deleteCovered_keeps c

/-- A run keeps what each call that returns keeps. -/
theorem Run.keeps {P : JournalWriter × Disk → Prop} {start t : JournalWriter × Disk}
    (hcall : ∀ c : Call, Runs P c.run) (h : Run start t) (hs : P start) : P t := by
  induction h with
  | start => exact hs
  | @call t t' fs fs' o _ c hrun ho ih =>
    have hc := hcall c fs t ih
    rw [hrun] at hc
    cases o with
    | lost => exact absurd rfl ho
    | ok _ => exact hc
    | err _ => exact hc

theorem Run.invariant {start t : JournalWriter × Disk} (h : Run start t)
    (hs : start.1.Invariant start.2) : t.1.Invariant t.2 :=
  h.keeps (P := Upheld) (fun c => .ofKeeps c.run_keeps) hs

end Runs

section Start

variable {c : ℕ} {ss : List SegmentInfo}

/-- What follows a segment's last record is bridged to it, as the scan sees it. -/
theorem bridge_of_last {s : SegmentInfo} {base : ℕ}
    (h : base = s.lastSequence+1 ∨ (s.lastSequence ≤ c ∧ base ≤ c+1)) : Bridge c s.stop base := by
  simp only [SegmentInfo.lastSequence_eq] at h
  simp only [Bridge,SegmentInfo.stop]
  omega

theorem joined_of_linked (h : Linked c ss) {stop : ℕ}
    (hstop : ∀ s, ss.getLast? = some s → Bridge c s.stop stop) : Joined c ss stop := by
  induction h generalizing stop with
  | nil => trivial
  | first _ => exact ⟨hstop _ rfl,trivial⟩
  | @next ss p s hp hs ih =>
    refine (ih fun q hq => ?_).concat (hstop s (by simp))
    obtain rfl : p = q := by simpa using hq
    exact bridge_of_last hs

theorem lastSequence_le_maxLast {s : SegmentInfo} (h : s ∈ ss) : s.lastSequence ≤ maxLast ss := by
  induction ss using List.reverseRecOn with
  | nil => cases h
  | append_singleton ss t ih =>
    rw [maxLast_concat]
    rcases List.mem_append.mp h with h | h
    · exact Nat.le_trans (ih h) (Nat.le_max_left _ _)
    · rw [List.mem_singleton.mp h]
      exact Nat.le_max_right _ _

/-- A directory lists a name once, so the indexes of its segments strictly increase. -/
theorem segmentIndices_increasing (d : Disk) :
    (segmentIndices (d.list .journal)).Pairwise (· < ·) := by
  have hnodup : (segmentIndices (d.list .journal)).Nodup := by
    have hperm := List.perm_insertionSort (· ≤ ·) ((d.list .journal).filterMap parseJournalSegment)
    refine hperm.nodup_iff.mpr ((d.nodup.filter _).filterMap ?_)
    intro p q i hp hq
    cases p <;> cases q <;> simp [parseJournalSegment] at hp hq
    rw [hp.2,hq.2]
  have hsorted : (segmentIndices (d.list .journal)).Pairwise (· ≤ ·) :=
    List.pairwise_insertionSort (· ≤ ·) _
  exact (hsorted.and hnodup).imp fun h => Nat.lt_of_le_of_ne h.1 h.2

variable [Crc32]

theorem keptAt_index {d : Disk} {index : ℕ} {k : KeptSegment} (h : keptAt d index = some k) :
    k.1.index = index := by
  simp only [keptAt,keptOf,Option.bind_eq_some_iff,Option.map_eq_some_iff] at h
  obtain ⟨bytes,-,header,-,rfl⟩ := h
  rfl

theorem keptSegments_increasing (d : Disk) :
    ((keptSegments d).map fun k => k.1.index).Pairwise (· < ·) := by
  have hmap : (keptSegments d).map (fun k => k.1.index) =
      (segmentIndices (d.list .journal)).filter fun index => (keptAt d index).isSome := by
    unfold keptSegments
    induction segmentIndices (d.list .journal) with
    | nil => rfl
    | cons index rest ih =>
      cases hk : keptAt d index with
      | none => simp [hk,ih]
      | some k => simp [hk,ih,keptAt_index hk]
  rw [hmap]
  exact (segmentIndices_increasing d).filter _

variable [DefaultHasher] {μ : Type} {superblock : Superblock} {segmentSize : ℕ}
  {required : Option DurableProof} {replay : ReplayRecords} {fs fs' : List Fault} {m m' : μ}
  {d d' : Disk} {scan : JournalScan}

theorem sound_of_scan (h : scanJournalWithProof superblock c segmentSize required replay fs (m,d) =
    (.ok scan,fs',m',d')) (volumeUuid : BitVec 128) (size : ℕ) (proof : DurableProof) :
    ((resume volumeUuid size scan.durableSequence scan.nextSegmentIndex scan.segments
      proof).allowCoveredHolesBelow c).Sound := by
  obtain ⟨-,-,hseg,hholds,hlinked,hdur,hindex,-⟩ := scan_eq h
  have hlast := hlinked.replayed.1
  refine ⟨by simp [allowCoveredHolesBelow,resume],Nat.le_refl _,rfl,?_,hindex,?_,?_,?_,fun _ => rfl⟩
  · show (scan.segments.map SegmentInfo.index).Pairwise (· < ·)
    rw [hseg,List.map_map]
    exact keptSegments_increasing d
  · refine joined_of_linked hlinked fun s hs => bridge_of_last ?_
    show scan.durableSequence+1 = _ ∨ _ ∧ scan.durableSequence+1 ≤ c+1
    rw [hs] at hlast
    simp only [Option.map_some,Option.getD_some] at hlast
    omega
  · intro s hs
    have hle := lastSequence_le_maxLast (show s ∈ scan.segments from hs)
    have hmem : s ∈ (keptSegments d).map Prod.fst := hseg ▸ hs
    obtain ⟨k,hk,rfl⟩ := List.mem_map.mp hmem
    refine ⟨by rw [(hholds k hk).size]; omega,fun _ => ?_⟩
    show k.1.lastSequence ≤ scan.durableSequence
    omega
  · simp [allowCoveredHolesBelow,resume]

/-- Every assertion holds after any calls of a writer resumed from a journal scan, whatever
backing call or failpoint failed and however the calls returned. -/
theorem checkInvariants_of_run
    (hscan : scanJournalWithProof superblock c segmentSize required replay fs (m,d) =
      (.ok scan,fs',m',d')) (volumeUuid : BitVec 128) (size : ℕ) (proof : DurableProof)
    {disk : Disk} (hdisk : disk.Wf) {t : JournalWriter × Disk}
    (hrun : Run ((resume volumeUuid size scan.durableSequence scan.nextSegmentIndex scan.segments
      proof).allowCoveredHolesBelow c,disk) t) : t.1.CheckInvariants t.2 := by
  refine (hrun.invariant ?_).check
  exact ⟨sound_of_scan hscan volumeUuid size proof,hdisk,by simp [allowCoveredHolesBelow,resume],
    by simp [allowCoveredHolesBelow,resume],by simp [allowCoveredHolesBelow,resume]⟩

end Start

section Sample

/-! A writer resumed behind one segment: a write that persists five bytes and fails, a good
append, a barrier and a deletion of the covered segment. -/

local instance : Crc32 := Crc32.ieee
local instance : DefaultHasher := ⟨fun bs => UInt64.ofNat (leNat bs)⟩

def sampleProof : DurableProof := ⟨2,7,2,4,115⟩

def sampleFiles : Disk :=
  let files := (((({} : Disk).create (.journalSegment 4)).create (.durableProof .a)).create
    (.durableProof .b)).syncDir .journal
  ((files.mapInode 1 fun _ => .fromContent (sampleSegment.take 115)).mapInode 2
    fun _ => .fromContent { sampleProof with generation := 1 }.encode).mapInode 3
    fun _ => .fromContent sampleProof.encode

theorem sampleFiles_wf : sampleFiles.Wf := by
  have hempty : ({} : Disk).Wf :=
    ⟨fun _ _ _ h => by simp [Disk.Linked] at h,fun _ _ h => by simp [Disk.Linked] at h⟩
  unfold sampleFiles
  exact ((((((hempty.create _).create _).create _).syncDir _).mapInode _).mapInode _).mapInode _

def sampleWriter : JournalWriter × Disk :=
  ((resume 7 4096 sampleScan.durableSequence sampleScan.nextSegmentIndex sampleScan.segments
    sampleProof).allowCoveredHolesBelow 0,sampleFiles)

/-- The faults of the first append: its last call, the write of the record, is cut short. -/
def shortWrite : List Fault := List.replicate 14 .none ++ [.short 5]

def afterShort : JournalWriter × Disk := ((Call.append 3 [1,2]).run shortWrite sampleWriter).2.2
def afterAppend : JournalWriter × Disk := ((Call.append 3 [1,2]).run [] afterShort).2.2
def afterSync : JournalWriter × Disk := (Call.sync.run [] afterAppend).2.2
def afterDelete : JournalWriter × Disk := ((Call.deleteCovered 2).run [] afterSync).2.2

theorem checkInvariants_after_short_write :
    afterDelete.1.sealed = [] ∧ afterDelete.1.CheckInvariants afterDelete.2 := by
  have hok : sampleRun.1 = .ok sampleScan := by decide +kernel
  have hscan : scanJournalWithProof sampleSuperblock 0 4096 (some ⟨1,7,1,4,83⟩) (.All []) []
      ((),sampleDisk) = sampleRun := by
    unfold sampleRun
    rfl
  have hshort : ((Call.append 3 [1,2]).run shortWrite sampleWriter).1 ≠ .lost := by decide +kernel
  have happend : ((Call.append 3 [1,2]).run [] afterShort).1 ≠ .lost := by decide +kernel
  have hsync : (Call.sync.run [] afterAppend).1 ≠ .lost := by decide +kernel
  have hdelete : ((Call.deleteCovered 2).run [] afterSync).1 ≠ .lost := by decide +kernel
  have h₁ : Run sampleWriter afterShort := Run.start.result hshort
  have h₂ : Run sampleWriter afterAppend := h₁.result happend
  have h₃ : Run sampleWriter afterSync := h₂.result hsync
  have hrun : Run sampleWriter afterDelete := h₃.result hdelete
  exact ⟨by decide +kernel,checkInvariants_of_run (hscan.trans (Prog.eq_of_outcome sampleRun hok))
    7 4096 sampleProof sampleFiles_wf hrun⟩

end Sample

end JournalWriter
end Maki
