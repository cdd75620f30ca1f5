import Maki.JournalWriter

/-! The calls of the journal writer, walked once. What the files it holds and its bookkeeping keep is kept
by every call; in particular a failed call never moves the durable boundary except to everything
appended before it, and an append is accepted exactly when it returns its sequence. -/
namespace Maki

open Prog hiding pure bind throw get modify
namespace JournalWriter

def Handle (w : JournalWriter) (i : InodeId) : Prop :=
  (∃ a ∈ w.active, a.file = i) ∨ w.mark = some i

def Own (p : Path) : Prop := p = .journalDurableMark ∨ ∃ index, p = .journalSegment index

/-- A property of the writer and the disk, beside files that are open in a call, that operations on
those files and on the writer's own names keep, and its bookkeeping too. -/
structure Framed (J : List InodeId → JournalWriter × Disk → Prop) : Prop where
  drop : ∀ {i files t}, J (i::files) t → J files t
  hold : ∀ {i files w d}, w.Handle i → J files (w,d) → J (i::files) (w,d)
  opened : ∀ {p i files w d}, Own p → d.volatile p = some i → J files (w,d) → J (i::files) (w,d)
  inode : ∀ {i files w d} F, i ∈ files → J files (w,d) → J files (w,d.mapInode i F)
  create : ∀ {p files w d}, Own p → J files (w,d) → J files (w,d.create p)
  remove : ∀ {p files w d}, Own p → J files (w,d) → J files (w,d.relink p none)
  syncDir : ∀ {files w d} dir, J files (w,d) → J files (w,d.syncDir dir)
  advance : ∀ [Crc32] files w, Keeps (fun t => J files (w,t.2)) DurableProofStore.advance
  mark : ∀ {i files w d}, i ∈ files → J files (w,d) → J files ({ w with mark := some i },d)
  proof : ∀ {files w d} proof, J files (w,d) → J files ({ w with proof := proof },d)
  cleanup : ∀ {files w d} index, J files (w,d) → J files ({ w with creationCleanup := index },d)
  failure : ∀ {files w d}, J files (w,d) → J files (w.noteSyncFailure,d)
  tail : ∀ {files w d}, J files (w,d) →
    J files (w.mapActive fun a => { a with needsTailCleanup := true },d)

/-- A property of the writer's memory that marks, proofs, noted failures and cleanups leave alone. -/
structure Bookkept (Q : JournalWriter → Prop) : Prop where
  mark : ∀ w mark, Q w → Q { w with mark := mark }
  proof : ∀ w proof, Q w → Q { w with proof := proof }
  cleanup : ∀ w index, Q w → Q { w with creationCleanup := index }
  failure : ∀ w, Q w → Q w.noteSyncFailure
  tail : ∀ w, Q w → Q (w.mapActive fun a => { a with needsTailCleanup := true })

theorem Bookkept.framed {Q : JournalWriter → Prop} (h : Bookkept Q) : Framed fun _ t => Q t.1 where
  drop ht := ht
  hold _ ht := ht
  opened _ _ ht := ht
  inode _ _ ht := ht
  create _ ht := ht
  remove _ ht := ht
  syncDir _ ht := ht
  advance _ w := .const (Q w) _
  mark _ ht := h.mark _ _ ht
  proof _ ht := h.proof _ _ ht
  cleanup _ ht := h.cleanup _ _ ht
  failure ht := h.failure _ ht
  tail ht := h.tail _ ht

theorem update_triple {ε : Type} {f : JournalWriter → JournalWriter}
    {pre : JournalWriter × Disk → Prop} {ok : Unit → JournalWriter × Disk → Prop}
    {err : ε → JournalWriter × Disk → Prop} {lost : JournalWriter × Disk → Prop}
    (h : ∀ w d, pre (w,d) → ok () (f w,d)) : Triple pre (update f) ok err lost :=
  Triple.modify fun s hs => h s.1 s.2 hs

section Walk

variable {J J' : List InodeId → JournalWriter × Disk → Prop} {l : List InodeId} {i : InodeId}
  {a : ActiveSegment}

theorem fp_on (name : String) :
    Keeps (J l) (coreIo (Io.fp name) : Io JournalWriter CoreError Unit) :=
  (Io.Still.fp name).keeps.mapErr _

namespace Framed

variable (h : Framed J)

include h

theorem written {w : JournalWriter} {d : Disk} (hi : i ∈ l) (ht : J l (w,d))
    (offset : ℕ) (bytes : Bytes) : J l (w,Io.written i offset bytes d) := by
  unfold Io.written
  split
  · exact ht
  · exact h.inode _ hi ht

theorem setLen (hi : i ∈ l) (n : ℕ) :
    Keeps (J l) (Io.setLen i n : Io JournalWriter ErrorKind Unit) :=
  Io.setLen_triple (fun _ _ ht => h.inode _ hi ht) (fun _ ht => ht) fun _ ht => ht

theorem writeAt (hi : i ∈ l) (offset : ℕ) (bytes : Bytes) :
    Keeps (J l) (Io.writeAt i offset bytes : Io JournalWriter ErrorKind Unit) :=
  Io.writeAt_triple (fun _ _ ht => h.written hi ht _ _) (fun _ _ _ ht => h.written hi ht _ _) fun _ ht => ht

theorem allocateRange (hi : i ∈ l) (offset length : ℕ) :
    Keeps (J l) (Io.allocateRange i offset length : Io JournalWriter ErrorKind Unit) :=
  Io.allocateRange_triple (fun _ _ ht _ => h.inode _ hi ht) (fun _ _ ht _ => ht) (fun _ _ ht => ht)
    fun _ ht => ht

theorem syncData (hi : i ∈ l) :
    Keeps (J l) (Io.syncData i : Io JournalWriter ErrorKind Unit) :=
  Io.syncData_triple (fun _ _ ht => h.inode _ hi ht) (fun _ _ ht => h.inode _ hi ht) fun _ ht => ht

theorem syncs (dir : Dir) :
    Keeps (J l) (Io.syncDir dir : Io JournalWriter ErrorKind Unit) :=
  Io.syncDir_triple (fun _ _ ht => h.syncDir dir ht) (fun _ ht => ht) fun _ ht => ht

theorem removes (index : ℕ) :
    Keeps (J l) (Io.remove (.journalSegment index) : Io JournalWriter ErrorKind Unit) :=
  Io.remove_triple (fun _ _ _ ht _ => h.remove (.inr ⟨index,rfl⟩) ht) (fun _ _ ht _ => ht)
    (fun _ ht => ht) fun _ ht => ht

theorem openFile {path : Path} (hp : Own path) :
    Ends (J l) (Io.openFile path true : Io JournalWriter ErrorKind InodeId)
      (fun i => J (i::l)) (J l) := by
  refine Io.openFile_triple (fun _ _ _ ht hi => h.opened hp hi ht) (fun _ _ ht _ _ => ?_)
    (fun _ _ ht _ _ => ht) (fun _ ht => ht) fun _ ht => ht
  exact h.opened hp (Disk.volatile_create _ _) (h.create hp ht)

/-- A step on an open file, on the way to another property; a call that ends badly leaves the file. -/
theorem within {ε α : Type} {p : Io JournalWriter ε α} (hp : Keeps (J (i::l)) p) :
    Triple (J (i::l)) p (fun _ => J (i::l)) (fun _ => J l) (fun t => J l t ∨ J' l t) :=
  Triple.weaken hp (fun _ _ ht => ht) (fun _ _ ht => h.drop ht) fun _ ht => .inl (h.drop ht)

end Framed

section Pieces

variable (h : Framed J)

include h

theorem openMark_on :
    Triple (J l) openMark (fun _ => J l) (fun _ _ => False) (J l) := by
  apply Triple.ofEach
  rintro ⟨w,d⟩ ht
  unfold openMark
  apply Triple.get_bind
  cases hm : w.mark with
  | some i =>
    simp only [hm]
    exact .pure fun _ hs => hs ▸ ht
  | none =>
    simp only [hm]
    have hopen : Triple (· = (w,d))
        (Prog.attempt (Io.openFile .journalDurableMark true))
        (fun r t => J l t ∧ ∀ i, r = .ok i → J (i::l) t) (fun (_ : CoreError) _ => False)
        (J l) := by
      apply Triple.attempt
      refine (h.openFile (.inl rfl)).conseq (fun _ hs => hs ▸ ht) (fun i t hs => ?_) (fun _ t hs => ?_)
        fun _ hs => hs
      · exact ⟨h.drop hs,by rintro _ ⟨⟩; exact hs⟩
      · exact ⟨hs,by simp⟩
    refine .bind hopen fun r => ?_
    cases r with
    | error e => exact .pure fun _ hs => hs.1
    | ok i => exact update_triple fun _ _ hs => h.drop (h.mark List.mem_cons_self (hs.2 i rfl))

theorem writeMark_on [Crc32] (mark : DurableMark) :
    Triple (J l) (writeMark mark) (fun _ => J l) (fun _ _ => False) (J l) := by
  refine .bind (openMark_on h) fun _ => ?_
  apply Triple.ofEach
  rintro ⟨w,d⟩ ht
  apply Triple.get_bind
  cases hm : w.mark with
  | none =>
    simp only [hm]
    exact .pure fun _ hs => hs ▸ ht
  | some i =>
    simp only [hm]
    have hwrite : Triple (· = (w,d)) (Prog.attempt (Io.writeAt i 0 mark.encode))
        (fun _ => J l) (fun (_ : CoreError) _ => False) (J l) := by
      apply Triple.attempt
      exact ((h.writeAt List.mem_cons_self 0 mark.encode).from_state (h.hold (.inr hm) ht)).weaken
        (fun _ _ hs => h.drop hs) (fun _ _ hs => h.drop hs) fun _ hs => h.drop hs
    exact .bind hwrite fun _ => .pure fun _ hs => hs

theorem cleanupFailedCreation_on : Keeps (J l) cleanupFailedCreation := by
  unfold cleanupFailedCreation
  apply Keeps.get_bind
  rintro ⟨w,d⟩ ht
  cases hc : w.creationCleanup with
  | none =>
    simp only [hc]
    exact .pure fun _ hs => hs ▸ ht
  | some index =>
    simp only [hc]
    have hremove : Keeps (J l)
        (Io.optional .NotFound (Io.remove (.journalSegment index)) : Io JournalWriter ErrorKind _) :=
      Io.optional_triple ((h.removes index).weakenErr fun _ _ hs => by split <;> exact hs)
    refine Keeps.from_state ((hremove.mapErr _).bind fun _ => ((h.syncs _).mapErr _).bind fun _ => ?_) ht
    exact Keeps.modify fun _ hs => h.cleanup _ hs

theorem rewriteRange_on (hi : i ∈ l) (offset len : ℕ) :
    Keeps (J l) (rewriteRange i offset len : Io JournalWriter ErrorKind Bytes) := by
  induction len using Nat.strong_induction_on generalizing offset with
  | _ len ih =>
    unfold rewriteRange
    by_cases hz : len = 0
    · simp only [if_pos hz]
      exact .pure _
    · simp only [if_neg hz]
      refine (Io.Still.ofChecks (Io.Checks.readAt i offset _)).keeps.bind fun chunk => ?_
      refine (h.writeAt hi offset chunk).bind fun _ => (ih _ ?_ _).bind fun _ => .pure _
      simp only [readChunk]
      omega

theorem redirty_on [DefaultHasher] (ha : a.file ∈ l) :
    Keeps (J l) (redirty a) := by
  refine (fp_on _).bind fun _ => ((rewriteRange_on h ha _ _).mapErr _).bind fun bytes => ?_
  split
  · exact .throw _
  · exact .pure _

theorem truncateTail_on (ha : a.file ∈ l) : Keeps (J l) (truncateTail a) :=
  (fp_on _).bind fun _ => (h.setLen ha _).mapErr _

theorem publishProof_on [Crc32] (a : ActiveSegment) :
    Keeps (J l) (publishProof a) := by
  unfold publishProof
  apply Keeps.get_bind
  rintro ⟨w,d⟩ ht
  by_cases hp : w.appendedSequence > w.proof.durableSequence ∧ a.info.recordCount > 0
  · simp only [if_pos hp]
    refine Keeps.after (Triple.onError (Triple.mapErr (Io.withLocal_triple
      (((h.advance l w).from_state ht).weakenErr fun _ _ hs => h.failure hs)))) fun _ => ?_
    exact Keeps.modify fun _ hs => h.proof _ hs
  · simp only [if_neg hp]
    exact .pure fun _ hs => hs ▸ ht

/-- A barrier that fails notes that at most; one that succeeds may have synced. -/
theorem syncActive_on [Crc32] [DefaultHasher] (h' : Framed J')
    (hsynced : ∀ l w d, J l (w,d) → J' l (w.noteSynced,d)) :
    Triple (J l) syncActive (fun _ t => J l t ∨ J' l t) (fun _ => J l)
      (fun t => J l t ∨ J' l t) := by
  apply Triple.ofEach
  rintro ⟨w,d⟩ ht
  unfold syncActive
  apply Triple.get_bind
  have hsame : ∀ t, t = (w,d) → J l t ∨ J' l t := fun _ hs => hs ▸ .inl ht
  cases ha : w.active with
  | none =>
    simp only [ha]
    exact .pure hsame
  | some a =>
    simp only [ha]
    by_cases hc : a.unsynced = false ∧ a.needsTailCleanup = false
    · simp only [if_pos hc]
      exact .pure hsame
    · simp only [if_neg hc]
      have hmem : a.file ∈ a.file::l := List.mem_cons_self
      refine .bind ((h.within (Keeps.when (truncateTail_on h hmem))).strengthen
          fun _ hs => hs ▸ h.hold (.inl ⟨a,ha,rfl⟩) ht) fun _ => ?_
      refine .bind (h.within (Keeps.when (redirty_on h hmem))) fun _ => ?_
      refine .bind (h.within (fp_on _)) fun _ => ?_
      refine .bind (h.within (((h.syncData hmem).mapErr _).onError fun _ hs => h.failure hs)) fun _ => ?_
      refine .bind (h.within (publishProof_on h a)) fun _ => ?_
      have hnote : Triple (J (a.file::l)) (update noteSynced) (fun _ => J' (a.file::l))
          (fun (_ : CoreError) => J l) (fun t => J l t ∨ J' l t) :=
        update_triple fun _ _ hs => hsynced _ _ _ hs
      refine .bind hnote fun _ => ?_
      exact (writeMark_on h' _).weaken (fun _ _ hs => .inr (h'.drop hs))
        (fun _ _ hs => hs.elim) fun _ hs => .inr (h'.drop hs)

/-- The new segment's file is open until it becomes the active one. -/
theorem createSegment_on [Crc32] (header : SegmentHeader) :
    Triple (J l) (createSegment header) (fun i => J (i::l)) (fun _ => J l)
      (fun t => J l t ∨ J' l t) := by
  refine .bind ((fp_on _).weakenLost fun _ hs => .inl hs) fun _ => ?_
  refine .bind (Triple.mapErr ((h.openFile (.inr ⟨_,rfl⟩)).weakenLost fun _ hs => .inl hs)) fun i => ?_
  have hmem : i ∈ i::l := List.mem_cons_self
  refine .bind (h.within ((h.setLen hmem 0).mapErr _)) fun _ => ?_
  refine .bind (h.within ((h.allocateRange hmem 0 _).mapErr _)) fun _ => ?_
  refine .bind (h.within ((h.writeAt hmem 0 _).mapErr _)) fun _ => .bind (h.within (fp_on _)) fun _ => ?_
  refine .bind (h.within ((h.syncData hmem).mapErr _)) fun _ => .bind (h.within (fp_on _)) fun _ => ?_
  exact .bind (h.within ((h.syncs _).mapErr _)) fun _ => .pure fun _ hs => hs

/-- A new segment is there, or its creation is noted as failed. -/
theorem startSegment_on [Crc32] (h' : Framed J') (index nextSegmentIndex : ℕ)
    (hstart : ∀ l w d file, J (file::l) (w,d) → J' l ({ w with
      nextSegmentIndex := nextSegmentIndex
      active := some (freshSegment index w.nextSequence file) },d)) :
    Triple (J l) (startSegment index nextSegmentIndex) (fun _ => J' l)
      (fun _ => J l) (fun t => J l t ∨ J' l t) := by
  apply Triple.ofEach
  rintro ⟨w,d⟩ ht
  unfold startSegment
  apply Triple.get_bind
  have hcreate : Triple (· = (w,d))
      (Prog.attempt (createSegment ⟨index,w.volumeUuid,w.nextSequence⟩))
      (fun r t => J l t ∧ ∀ i, r = .ok i → J (i::l) t) (fun (_ : CoreError) => J l)
      (fun t => J l t ∨ J' l t) := by
    apply Triple.attempt
    refine (createSegment_on h _).conseq (fun _ hs => hs ▸ ht) (fun i t hs => ?_) (fun _ t hs => ?_)
      fun _ hs => hs
    · exact ⟨h.drop hs,by rintro _ ⟨⟩; exact hs⟩
    · exact ⟨hs,by simp⟩
  refine .bind hcreate fun r => ?_
  cases r with
  | ok file =>
    have hset : Triple (J (file::l))
        (update fun w => { w with
          nextSegmentIndex := nextSegmentIndex
          active := some (freshSegment index w.nextSequence file) })
        (fun _ => J' l) (fun (_ : CoreError) => J l) (fun t => J l t ∨ J' l t) :=
      update_triple fun _ _ hs => hstart _ _ _ _ hs
    refine .bind (hset.strengthen fun _ hs => hs.2 file rfl) fun _ => ?_
    exact (writeMark_on h' _).weaken (fun _ _ hs => hs) (fun _ _ hs => hs.elim) fun _ hs => .inr hs
  | error e =>
    have hnote : Keeps (J l) (update fun w => { w with creationCleanup := some index }) :=
      Keeps.modify (ε := CoreError) fun _ hs => h.cleanup _ hs
    refine .bind ((hnote.weakenLost fun _ hs => .inl hs).strengthen fun _ hs => hs.1) fun _ => ?_
    refine .bind ((cleanupFailedCreation_on h).attempt.weakenLost fun _ hs => .inl hs) fun _ => ?_
    exact .throw fun _ hs => hs

theorem appendRecord_on [Crc32] (r : JournalRecord) (nextSequence : ℕ)
    (haccept : ∀ w d, J l (w,d) → J' l ({ w.mapActive (·.accept (encodeRecord r)) with
      nextSequence := nextSequence, appendedSequence := r.sequence },d)) :
    Triple (J l) (appendRecord r nextSequence) (fun n t => n = r.sequence ∧ J' l t)
      (fun _ => J l) (fun t => J l t ∨ J' l t) := by
  apply Triple.ofEach
  rintro ⟨w,d⟩ ht
  unfold appendRecord
  apply Triple.get_bind
  cases ha : w.active with
  | none =>
    simp only [ha]
    exact .throw fun _ hs => hs ▸ ht
  | some a =>
    simp only [ha]
    have hmem : a.file ∈ a.file::l := List.mem_cons_self
    refine .bind ((h.within (Keeps.when (truncateTail_on h hmem))).strengthen
        fun _ hs => hs ▸ h.hold (.inl ⟨a,ha,rfl⟩) ht) fun _ => ?_
    refine .bind (h.within (Keeps.modify fun _ hs => h.tail hs)) fun _ => ?_
    refine .bind (h.within ((h.allocateRange hmem _ _).mapErr _)) fun _ => ?_
    refine .bind (h.within (fp_on _)) fun _ => .bind (h.within ((h.writeAt hmem _ _).mapErr _)) fun _ => ?_
    have hset : Triple (J (a.file::l))
        (update fun w => { w.mapActive (·.accept (encodeRecord r)) with
          nextSequence := nextSequence, appendedSequence := r.sequence })
        (fun _ => J' l) (fun (_ : CoreError) => J l) (fun t => J l t ∨ J' l t) :=
      update_triple fun _ _ hs => haccept _ _ (h.drop hs)
    exact .bind hset fun _ => .pure fun _ hs => ⟨rfl,hs⟩

end Pieces

section Rolls

variable {R S T : List InodeId → JournalWriter × Disk → Prop}

/-- A roll seals the active segment, retires it and starts a new one. -/
theorem roll_on [Crc32] [DefaultHasher] (hJ : Framed J) (hR : Framed R) (hS : Framed S)
    (hsynced : ∀ l w d, J l (w,d) → J l (w.noteSynced,d))
    (hretire : ∀ w d, J l (w,d) → R l (w.retire,d))
    (hstart : ∀ l w d index nextSegmentIndex file, R (file::l) (w,d) → S l ({ w with
      nextSegmentIndex := nextSegmentIndex
      active := some (freshSegment index w.nextSequence file) },d)) :
    Ends (J l) roll (fun _ => S l) (fun t => J l t ∨ R l t ∨ S l t) := by
  apply Triple.ofEach
  rintro ⟨w,d⟩ ht
  unfold roll
  apply Triple.get_bind
  cases hn : checkedAdd w.nextSegmentIndex 1 with
  | none =>
    simp only [hn]
    exact .throw fun _ hs => hs ▸ .inl ht
  | some nextSegmentIndex =>
    simp only [hn]
    have hclean : Ends (· = (w,d)) cleanupFailedCreation (fun _ => J l)
        (fun t => J l t ∨ R l t ∨ S l t) :=
      ((cleanupFailedCreation_on hJ).from_state ht).weaken (fun _ _ hs => hs)
        (fun _ _ hs => .inl hs) fun _ hs => .inl hs
    have hseal : Ends (J l) sealActive (fun _ => R l)
        (fun t => J l t ∨ R l t ∨ S l t) := by
      refine .bind ((syncActive_on hJ hJ hsynced).weaken (fun _ _ hs => hs.elim id id)
        (fun _ _ hs => .inl hs) fun _ hs => .inl (hs.elim id id)) fun _ => ?_
      exact update_triple fun _ _ hs => hretire _ _ hs
    refine .bind hclean fun _ => .bind hseal fun _ => ?_
    exact (startSegment_on hR hS _ _ fun l w d => hstart l w d _ _).weaken (fun _ _ hs => hs)
      (fun _ _ hs => .inr (.inl hs)) fun _ hs => .inr hs

/-- An append rolls first when the record does not fit, and then accepts it. -/
theorem append_on [Crc32] [DefaultHasher] {w : JournalWriter} {d : Disk} (hw : J l (w,d))
    (hJ : Framed J) (hR : Framed R) (hS : Framed S) {unitIndex : ℕ} {payload : Bytes}
    (hstay : w.needsRoll payload.length = false → S l (w,d))
    (hsynced : ∀ l w d, J l (w,d) → J l (w.noteSynced,d))
    (hretire : w.needsRoll payload.length = true → ∀ w d, J l (w,d) → R l (w.retire,d))
    (hstart : ∀ l w d index nextSegmentIndex file, R (file::l) (w,d) → S l ({ w with
      nextSegmentIndex := nextSegmentIndex
      active := some (freshSegment index w.nextSequence file) },d))
    (haccept : ∀ w' d r, r.sequence = w.nextSequence → r.payload = payload → S l (w',d) →
      T l ({ w'.mapActive (·.accept (encodeRecord r)) with
        nextSequence := w.nextSequence+1, appendedSequence := r.sequence },d)) :
    Triple (· = (w,d)) (append unitIndex payload) (fun n t => n = w.nextSequence ∧ T l t)
      (fun _ t => J l t ∨ R l t ∨ S l t) (fun t => (J l t ∨ R l t ∨ S l t) ∨ T l t) := by
  unfold append
  apply Triple.get_bind
  apply Triple.ofExcept_bind
  · rintro ⟨nextSequence,rolls⟩ hcheck
    obtain ⟨rfl,rfl⟩ : nextSequence = w.nextSequence+1 ∧ rolls = w.needsRoll payload.length := by
      unfold checkAppend checkedAdd at hcheck
      split_ifs at hcheck
      exact ⟨(congrArg Prod.fst (Except.ok.inj hcheck)).symm,(congrArg Prod.snd (Except.ok.inj hcheck)).symm⟩
    have hroll : Triple (· = (w,d)) (Prog.when (w.needsRoll payload.length) roll) (fun _ => S l)
        (fun _ t => J l t ∨ R l t ∨ S l t) (fun t => (J l t ∨ R l t ∨ S l t) ∨ T l t) := by
      refine Triple.when (fun hc => ?_) fun _ hc hs => hs ▸ hstay hc
      exact (roll_on hJ hR hS hsynced (hretire hc) hstart).conseq (fun _ hs => hs ▸ hw)
        (fun _ _ hs => hs) (fun _ _ hs => hs) fun _ hs => .inl hs
    refine .bind hroll fun _ => ?_
    exact (appendRecord_on hS ⟨w.nextSequence,unitIndex,payload⟩ _
      fun w' d => haccept w' d _ rfl rfl).weaken (fun _ _ hs => hs)
        (fun _ _ hs => .inr (.inr hs)) fun _ hs => hs.imp (fun hs => .inr (.inr hs)) id
  · rintro _ _ - rfl
    exact .inl hw

end Rolls

theorem sync_on [Crc32] [DefaultHasher] (h : Framed J)
    (hsynced : ∀ l w d, J l (w,d) → J l (w.noteSynced,d))
    (hdurable : ∀ w d, J l (w,d) → J l ({ w with durableSequence := w.appendedSequence },d)) :
    Keeps (J l) sync := by
  refine (cleanupFailedCreation_on h).bind fun _ => ?_
  have hsync : Keeps (J l) syncActive := (syncActive_on h h hsynced).weaken
      (fun _ _ hs => hs.elim id id) (fun _ _ hs => hs) fun _ hs => hs.elim id id
  refine hsync.bind fun _ => Keeps.bind (Keeps.modify fun _ hs => hdurable _ _ hs) fun _ => ?_
  exact .get_bind fun s hs => Triple.pure fun _ ht => ht ▸ hs

theorem deleteSegments_on (h : Framed J) (checkpointSequence : ℕ) (ss : List SegmentInfo)
    (error : Option CoreError) : Keeps (J l) (deleteSegments checkpointSequence ss error) := by
  induction ss generalizing error with
  | nil => exact .pure _
  | cons s rest ih =>
    unfold deleteSegments
    split
    · have hremove : Keeps (J l) (removeSegment s) :=
        (fp_on _).bind fun _ => (h.removes _).mapErr _
      refine hremove.attempt.bind fun r => ?_
      cases r with
      | ok _ => exact (ih none).bind fun _ => .pure _
      | error e => exact (ih (some e)).bind fun _ => .pure _
    · exact (ih error).bind fun _ => .pure _

theorem deleteCovered_on (h : Framed J)
    (hsealed : ∀ w d kept, J l (w,d) → J l ({ w with sealed := kept },d))
    (checkpointSequence : ℕ) :
    Keeps (J l) (deleteCovered checkpointSequence) := by
  refine (cleanupFailedCreation_on h).bind fun _ => Keeps.get_bind ?_
  rintro ⟨w,d⟩ ht
  refine Keeps.from_state ?_ ht
  refine Keeps.bind (deleteSegments_on h _ _ _) ?_
  rintro ⟨kept,deleted,error⟩
  refine .bind (Keeps.modify fun _ hs => hsealed _ _ _ hs) fun _ => ?_
  cases error with
  | none => exact .pure _
  | some e => exact .throw e

end Walk

def At (durable appended next : ℕ) (t : JournalWriter × Disk) : Prop :=
  t.1.durableSequence = durable ∧ t.1.appendedSequence = appended ∧ t.1.nextSequence = next

/-- The durable boundary stayed or covers everything appended. -/
def Moved (durable appended next : ℕ) (t : JournalWriter × Disk) : Prop :=
  At durable appended next t ∨ At appended appended next t

section Counters

variable {durable appended next : ℕ}

/-- Marks, proofs, noted failures and cleanups leave the counters alone. -/
theorem framed_counters (P : ℕ → ℕ → ℕ → Prop) :
    Framed fun _ t => P t.1.durableSequence t.1.appendedSequence t.1.nextSequence :=
  Bookkept.framed (Q := fun w => P w.durableSequence w.appendedSequence w.nextSequence)
    ⟨fun _ _ h => h,fun _ _ h => h,fun _ _ h => h,fun _ h => h,fun _ h => h⟩

theorem At.framed : Framed fun _ => At durable appended next :=
  framed_counters fun d a n => d = durable ∧ a = appended ∧ n = next

theorem Moved.framed : Framed fun _ => Moved durable appended next :=
  framed_counters fun d a n => (d = durable ∧ a = appended ∧ n = next) ∨
    (d = appended ∧ a = appended ∧ n = next)

/-- A barrier that fails leaves the boundary; one that succeeds may move it to the end. -/
theorem syncActive_counters [Crc32] [DefaultHasher] : Triple (At durable appended next) syncActive
    (fun _ => Moved durable appended next) (fun _ => At durable appended next)
    (Moved durable appended next) :=
  syncActive_on (l := []) At.framed At.framed fun _ _ _ h => ⟨h.2.1,h.2.1,h.2.2⟩

/-- An append may roll first, which moves the boundary to what was appended before it. -/
theorem append_counters [Crc32] [DefaultHasher] (unitIndex : ℕ) (payload : Bytes) :
    Answers (At durable appended next) (append unitIndex payload)
      (fun n t => n = next ∧ (At durable next (next+1) t ∨ At appended next (next+1) t))
      (fun _ => Moved durable appended next) := by
  apply Triple.ofEach
  rintro ⟨w,d⟩ hw
  obtain rfl : w.nextSequence = next := hw.2.2
  have hsame : ∀ {w' : JournalWriter} {d' : Disk}, Moved durable appended w.nextSequence (w',d') →
      w'.durableSequence = durable ∨ w'.durableSequence = appended := fun h => h.imp (·.1) (·.1)
  refine (append_on (J := fun _ => Moved durable appended w.nextSequence)
    (R := fun _ => Moved durable appended w.nextSequence)
    (S := fun _ => Moved durable appended w.nextSequence)
    (T := fun _ t => At durable w.nextSequence (w.nextSequence+1) t ∨
      At appended w.nextSequence (w.nextSequence+1) t) (l := []) (.inl hw) Moved.framed Moved.framed
    Moved.framed (fun _ => .inl hw) (fun _ _ _ h => ?_) (fun _ _ _ h => h) (fun _ _ _ _ _ _ h => h)
    fun w' d' r hr _ h => ?_).weaken (fun _ _ h => h) (fun _ _ h => h.elim id (·.elim id id))
      fun _ _ => trivial
  · exact .inr (h.elim (fun h => ⟨h.2.1,h.2.1,h.2.2⟩) fun h => ⟨h.2.1,h.2.1,h.2.2⟩)
  · exact (hsame h).imp (⟨·,hr,rfl⟩) (⟨·,hr,rfl⟩)

/-- The next sequence of an append is one a record can carry. -/
theorem append_limit [Crc32] [DefaultHasher] (unitIndex : ℕ) (payload : Bytes) :
    Runs (fun t => t.1.nextSequence < 2^64) (append unitIndex payload) := by
  apply Triple.ofEach
  rintro ⟨w,d⟩ hw
  by_cases hnext : w.nextSequence+1 < 2^64
  · have hat : At w.durableSequence w.appendedSequence w.nextSequence (w,d) := ⟨rfl,rfl,rfl⟩
    refine (append_counters unitIndex payload).conseq (fun t (ht : t = (w,d)) => by rw [ht]; exact hat)
      ?_ ?_ fun _ ht => ht
    · rintro _ t ⟨-,ht | ht⟩ <;> exact ht.2.2 ▸ hnext
    · rintro _ t (ht | ht) <;> exact ht.2.2 ▸ hw
  · unfold append
    apply Triple.get_bind
    apply Triple.ofExcept_bind
    · rintro _ hcheck
      unfold checkAppend checkedAdd at hcheck
      rw [if_neg hnext] at hcheck
      cases hcheck
    · rintro _ _ - rfl
      exact hw

/-- A barrier makes everything appended durable or changes no counter. -/
theorem sync_counters [Crc32] [DefaultHasher] : Answers (At durable appended next) sync
    (fun n t => n = appended ∧ At appended appended next t) (fun _ => At durable appended next) := by
  have hclean : Runs (At durable appended next) cleanupFailedCreation :=
    Triple.weakenLost (cleanupFailedCreation_on (l := []) At.framed) fun _ _ => trivial
  have hsync : Answers (At durable appended next) syncActive
      (fun _ => Moved durable appended next) (fun _ => At durable appended next) :=
    syncActive_counters.weakenLost fun _ _ => trivial
  have hnote : Answers (Moved durable appended next)
      (update fun w => { w with durableSequence := w.appendedSequence })
      (fun _ => At appended appended next) (fun (_ : CoreError) => At durable appended next) := by
    apply Triple.modify
    rintro t (h | h)
    · exact ⟨h.2.1,h.2.1,h.2.2⟩
    · exact ⟨h.2.1,h.2.1,h.2.2⟩
  refine .bind hclean fun _ => .bind hsync fun _ =>
    Triple.bind hnote fun _ => ?_
  apply Triple.ofEach
  rintro ⟨w,d⟩ hw
  apply Triple.get_bind
  exact .pure fun _ ht => ht ▸ ⟨hw.1,hw⟩

theorem deleteCovered_counters (checkpointSequence : ℕ) :
    Keeps (At durable appended next) (deleteCovered checkpointSequence) :=
  deleteCovered_on (l := []) At.framed (fun _ _ _ h => h) checkpointSequence

end Counters

end JournalWriter
end Maki
