import Maki.Frame
import Maki.JournalReplay
import Maki.JournalCounters

/-! What the journal writer keeps true of itself and of the files it holds open. -/
namespace Maki

open Prog hiding pure bind throw get modify

def SegmentInfo.stop (s : SegmentInfo) : ℕ := s.baseSequence+s.recordCount

/-- A base continues where the records before it stop, or both lie below the covered holes. -/
def Bridge (h stop base : ℕ) : Prop := base = stop ∨ (stop ≤ h+1 ∧ base ≤ h+1)

/-- The base a list of segments continues with, `stop` when it is empty. -/
def headBase : List SegmentInfo → ℕ → ℕ
  | [], stop => stop
  | s::_, _ => s.baseSequence

/-- Every segment is bridged to the next one, and the last one to `stop`. -/
def Joined (h : ℕ) : List SegmentInfo → ℕ → Prop
  | [], _ => True
  | s::ss, stop => Bridge h s.stop (headBase ss stop) ∧ Joined h ss stop

theorem Joined.concat {h stop : ℕ} {s : SegmentInfo} {ss : List SegmentInfo}
    (hs : Joined h ss s.baseSequence) (hb : Bridge h s.stop stop) : Joined h (ss ++ [s]) stop := by
  induction ss with
  | nil => exact ⟨hb,trivial⟩
  | cons t ss ih =>
    refine ⟨?_,ih hs.2⟩
    cases ss <;> exact hs.1

/-- What deleting covered segments can leave: a covered one goes unless the deletion has
stopped, and an uncovered one stays. -/
inductive Deleted (c : ℕ) : List SegmentInfo → List SegmentInfo → Prop
  | stopped (ss : List SegmentInfo) : Deleted c ss ss
  | drop {s : SegmentInfo} {ss ks : List SegmentInfo} (hs : s.lastSequence ≤ c)
      (h : Deleted c ss ks) : Deleted c (s::ss) ks
  | keep {s : SegmentInfo} {ss ks : List SegmentInfo} (hs : c < s.lastSequence)
      (h : Deleted c ss ks) : Deleted c (s::ss) (s::ks)

namespace Deleted

variable {c h stop : ℕ} {ss ks : List SegmentInfo}

theorem sublist (hd : Deleted c ss ks) : ks.Sublist ss := by
  induction hd with
  | stopped ss => exact List.Sublist.refl ss
  | drop _ _ ih => exact ih.cons _
  | keep _ _ ih => exact ih.cons_cons _

/-- A covered segment behind an uncovered one is behind a hole, so everything up to the
next kept segment lies below the covered holes. -/
theorem joined (hd : Deleted c ss ks) (hj : Joined h ss stop) :
    Joined h ks stop ∧ ∀ e, c+1 < e → Bridge h e (headBase ss stop) →
      Bridge h e (headBase ks stop) := by
  induction hd with
  | stopped ss => exact ⟨hj,fun _ _ hb => hb⟩
  | @drop s ss ks hs _ ih =>
    obtain ⟨hnext,hrest⟩ := hj
    obtain ⟨hks,hfollow⟩ := ih hrest
    refine ⟨hks,fun e he hb => hfollow e he ?_⟩
    simp only [Bridge,headBase,SegmentInfo.stop,SegmentInfo.lastSequence_eq] at hb hnext hs ⊢
    omega
  | @keep s ss ks hs _ ih =>
    obtain ⟨hnext,hrest⟩ := hj
    obtain ⟨hks,hfollow⟩ := ih hrest
    refine ⟨⟨hfollow s.stop ?_ hnext,hks⟩,fun _ _ hb => hb⟩
    simp only [SegmentInfo.stop,SegmentInfo.lastSequence_eq] at hs ⊢
    omega

end Deleted

namespace JournalWriter

/-- The lowest index no sealed segment may have. -/
def indexBound (w : JournalWriter) : ℕ :=
  match w.active with
  | some a => a.info.index
  | none => w.nextSegmentIndex

def sealedStop (w : JournalWriter) : ℕ :=
  match w.active with
  | some a => a.info.baseSequence
  | none => w.nextSequence

structure ActiveSound (w : JournalWriter) (a : ActiveSegment) : Prop where
  index : a.info.index < w.nextSegmentIndex
  stop : a.info.stop = w.nextSequence
  size : a.writeOffset = a.info.size
  header : segmentHeaderSize ≤ a.info.size
  synced : a.syncedOffset ≤ a.writeOffset
  unsynced : a.unsynced = true → a.syncedOffset < a.writeOffset
  clean : a.unsynced = false → a.syncedOffset = a.writeOffset ∧
    w.durableSequence = w.appendedSequence

structure Sound (w : JournalWriter) : Prop where
  cleanup : ∀ index ∈ w.creationCleanup, w.active = none ∧ index = w.nextSegmentIndex
  durable : w.durableSequence ≤ w.appendedSequence
  next : w.nextSequence = w.appendedSequence+1
  increasing : (w.sealed.map SegmentInfo.index).Pairwise (· < ·)
  below : ∀ s ∈ w.sealed, s.index < w.indexBound
  joined : Joined w.holesAllowedBelow w.sealed w.sealedStop
  sealed : ∀ s ∈ w.sealed, segmentHeaderSize ≤ s.size ∧
    (0 < s.recordCount → s.lastSequence ≤ w.durableSequence)
  active : ∀ a ∈ w.active, w.ActiveSound a
  idle : w.active = none → w.durableSequence = w.appendedSequence

/-- The writer and the disk: its handles are the files their names show, and the active
file ends at the accepted records unless its tail is known to need a cut. -/
structure Invariant (w : JournalWriter) (d : Disk) : Prop where
  sound : w.Sound
  wf : d.Wf
  mark : ∀ i ∈ w.mark, d.volatile .journalDurableMark = some i
  file : ∀ a ∈ w.active, d.volatile (.journalSegment a.info.index) = some a.file
  length : ∀ a ∈ w.active, a.needsTailCleanup = false →
    (d.inodes a.file).image.length = a.writeOffset

section Memory

variable {w : JournalWriter} {a : ActiveSegment} {d : Disk}

/-- Sealed segments behind others pass the sanitizer's walk. -/
theorem checkSegments_of_joined {rest : List (SegmentInfo × Bool)} {bound stop : ℕ}
    {prevIndex expectedBase : Option ℕ} (ss : List SegmentInfo)
    (hprev : ∀ p ∈ prevIndex, ∀ s ∈ ss, p < s.index)
    (hsorted : (ss.map SegmentInfo.index).Pairwise (· < ·))
    (hbound : ∀ s ∈ ss, s.index < bound) (hnext : bound ≤ w.nextSegmentIndex)
    (hpb : ∀ p ∈ prevIndex, p < bound)
    (hbase : ∀ e ∈ expectedBase, Bridge w.holesAllowedBelow e (headBase ss stop))
    (hj : Joined w.holesAllowedBelow ss stop)
    (hs : ∀ s ∈ ss, segmentHeaderSize ≤ s.size ∧
      (0 < s.recordCount → s.lastSequence ≤ w.durableSequence))
    (hrest : ∀ p e : Option ℕ, (∀ i ∈ p, i < bound) →
      (∀ b ∈ e, Bridge w.holesAllowedBelow b stop) → w.CheckSegments p e rest) :
    w.CheckSegments prevIndex expectedBase (ss.map (·,false) ++ rest) := by
  induction ss generalizing prevIndex expectedBase with
  | nil => exact hrest _ _ hpb hbase
  | cons s ss ih =>
    rw [List.map_cons,List.pairwise_cons] at hsorted
    obtain ⟨hb,hjs⟩ := hj
    have hhead : s.index < bound := hbound s (by simp)
    refine ⟨fun p hp => hprev p hp s (by simp),Nat.lt_of_lt_of_le hhead hnext,
      fun b hbm => hbase b hbm,(hs s (by simp)).1,fun _ => (hs s (by simp)).2,?_⟩
    apply ih
    · rintro p ⟨⟩ t ht
      exact hsorted.1 _ (List.mem_map_of_mem ht)
    · exact hsorted.2
    · exact fun t ht => hbound t (by simp [ht])
    · rintro p ⟨⟩
      exact hhead
    · rintro e ⟨⟩
      exact hb
    · exact hjs
    · exact fun t ht => hs t (by simp [ht])

theorem Invariant.check (h : Invariant w d) : w.CheckInvariants d := by
  have hs := h.sound
  refine ⟨hs.cleanup,hs.durable,hs.next,?_,?_,hs.idle⟩
  · cases ha : w.active with
    | none =>
      have hbound : w.indexBound = w.nextSegmentIndex := by simp only [indexBound,ha]
      refine checkSegments_of_joined w.sealed (by simp) hs.increasing hs.below
        (Nat.le_of_eq hbound) (by simp) (by simp) hs.joined hs.sealed fun _ _ _ _ => trivial
    | some a =>
      have hact := hs.active a ha
      have hbound : w.indexBound = a.info.index := by simp only [indexBound,ha]
      have hstop : w.sealedStop = a.info.baseSequence := by simp only [sealedStop,ha]
      refine checkSegments_of_joined w.sealed (by simp) hs.increasing hs.below
        (by rw [hbound]; exact Nat.le_of_lt hact.index) (by simp) (by simp) hs.joined hs.sealed ?_
      intro p e hp he
      rw [hbound] at hp
      rw [hstop] at he
      exact ⟨hp,hact.index,he,hact.header,by simp,trivial⟩
  · intro a ha
    have hact := hs.active a ha
    exact ⟨hact.stop,hact.size,hact.synced,h.length a ha,hact.unsynced,hact.clean⟩

variable (h : w.Sound)

include h

/-- The active segment keeps its place, and the horizon may rise. -/
theorem Sound.remap {f : ActiveSegment → ActiveSegment} (hinfo : ∀ a, (f a).info = a.info)
    {durable syncFailures : ℕ} {proof : DurableProof} (hrise : w.durableSequence ≤ durable)
    (hd : durable ≤ w.appendedSequence) (hactive : ∀ a ∈ w.active,
      ActiveSound { w.mapActive f with durableSequence := durable, proof := proof, syncFailures := syncFailures }
        (f a)) :
    Sound { w.mapActive f with durableSequence := durable, proof := proof, syncFailures := syncFailures } where
  cleanup i hi := ⟨by simp [mapActive,(h.cleanup i hi).1],(h.cleanup i hi).2⟩
  durable := hd
  next := h.next
  increasing := h.increasing
  below := by
    have hbelow := h.below
    cases ha : w.active <;> simpa only [indexBound,mapActive,ha,Option.map,hinfo] using hbelow
  joined := by
    have hjoined := h.joined
    cases ha : w.active <;> simpa only [sealedStop,mapActive,ha,Option.map,hinfo] using hjoined
  sealed s hs := ⟨(h.sealed s hs).1,fun hc => ((h.sealed s hs).2 hc).trans hrise⟩
  active _ hx := by
    obtain ⟨a,ha,rfl⟩ := Option.map_eq_some_iff.mp hx
    exact hactive a ha
  idle hn := by
    have hw := h.idle (Option.map_eq_none_iff.mp hn)
    exact hd.antisymm (hw ▸ hrise)

/-- Flags of the active segment that no assertion on the memory reads. -/
theorem Sound.flag (cleanup redirty : ActiveSegment → Bool) (proof : DurableProof)
    (syncFailures : ℕ) : Sound { w.mapActive fun a =>
      { a with needsTailCleanup := cleanup a, needsRedirty := redirty a } with
      proof := proof, syncFailures := syncFailures } :=
  h.remap (fun _ => by rfl) (Nat.le_refl _) h.durable fun a ha => { h.active a ha with }

theorem Sound.noteSyncFailure : w.noteSyncFailure.Sound :=
  h.flag (·.needsTailCleanup) (fun _ => true) w.proof (w.syncFailures+1)

theorem Sound.setMark (mark : Option InodeId) : Sound { w with mark := mark } :=
  { h with active := fun a ha => { h.active a ha with } }

theorem Sound.setProof (proof : DurableProof) : Sound { w with proof := proof } :=
  { h with active := fun a ha => { h.active a ha with } }

theorem Sound.clearCleanup : Sound { w with creationCleanup := none } :=
  { h with cleanup := by simp, active := fun a ha => { h.active a ha with } }

theorem Sound.noteSynced : w.noteSynced.Sound :=
  h.remap (fun _ => by rfl) h.durable (Nat.le_refl _) fun a ha =>
    { h.active a ha with
      synced := Nat.le_refl _
      unsynced := by simp [ActiveSegment.synced]
      clean := fun _ => ⟨rfl,rfl⟩ }

/-- Every record is durable, so the active segment may be sealed. -/
theorem Sound.retire (hd : w.durableSequence = w.appendedSequence) :
    w.retire.Sound := by
  cases ha : w.active with
  | none =>
    have hw : w.retire = w := by
      cases w
      simp only at ha
      simp [JournalWriter.retire,ha]
    rwa [hw]
  | some a =>
    have hact := h.active a ha
    have hbelow := h.below
    have hjoined := h.joined
    simp only [indexBound,sealedStop,ha] at hbelow hjoined
    refine ⟨?_,h.durable,h.next,?_,?_,?_,?_,?_,fun _ => hd⟩
    all_goals simp only [JournalWriter.retire,indexBound,sealedStop,ha,Option.map_some,
      Option.toList_some]
    · exact fun i hi => absurd (h.cleanup i hi).1 (by simp [ha])
    · rw [List.map_append,List.pairwise_append]
      refine ⟨h.increasing,by simp,?_⟩
      simpa using hbelow
    · exact forall_mem_concat (fun s hs => Nat.lt_trans (hbelow s hs) hact.index) hact.index
    · exact hjoined.concat (.inl hact.stop.symm)
    · refine forall_mem_concat h.sealed ⟨hact.header,fun _ => ?_⟩
      have hstop := hact.stop
      have hnext := h.next
      simp only [SegmentInfo.stop] at hstop
      rw [SegmentInfo.lastSequence_eq]
      omega
    · simp

theorem Sound.start (ha : w.active = none) (hc : w.creationCleanup = none)
    (file : InodeId) : Sound { w with
      nextSegmentIndex := w.nextSegmentIndex+1
      active := some (freshSegment w.nextSegmentIndex w.nextSequence file) } := by
  have hbelow := h.below
  have hjoined := h.joined
  simp only [indexBound,sealedStop,ha] at hbelow hjoined
  refine ⟨by simp [hc],h.durable,h.next,h.increasing,hbelow,hjoined,h.sealed,?_,by simp⟩
  rintro _ ⟨⟩
  exact ⟨Nat.lt_succ_self _,rfl,rfl,Nat.le_refl _,Nat.le_refl _,by simp [freshSegment],
    fun _ => ⟨rfl,h.idle ha⟩⟩

theorem Sound.failCreation (ha : w.active = none) :
    Sound { w with creationCleanup := some w.nextSegmentIndex } :=
  { h with
    cleanup := by
      rintro _ ⟨⟩
      exact ⟨ha,rfl⟩
    active := fun a ha => { h.active a ha with } }

theorem Sound.accept (ha : w.active = some a) {bytes : Bytes} (hb : bytes ≠ []) :
    Sound { w.mapActive (·.accept bytes) with
      nextSequence := w.nextSequence+1, appendedSequence := w.nextSequence } := by
  have hact := h.active a ha
  have hlen := List.length_pos_of_ne_nil hb
  have hbelow := h.below
  have hjoined := h.joined
  have hle : w.durableSequence ≤ w.nextSequence :=
    h.next ▸ Nat.le_succ_of_le h.durable
  simp only [indexBound,sealedStop,ha] at hbelow hjoined
  refine ⟨?_,hle,rfl,h.increasing,?_,?_,h.sealed,?_,?_⟩
  all_goals simp only [mapActive,indexBound,sealedStop,ha,Option.map_some]
  · exact fun i hi => absurd (h.cleanup i hi).1 (by simp [ha])
  · exact hbelow
  · exact hjoined
  · rintro _ ⟨⟩
    have hstop := hact.stop
    have hsynced := hact.synced
    have hheader := hact.header
    have hsize := hact.size
    simp only [SegmentInfo.stop] at hstop
    refine ⟨hact.index,?_,rfl,?_,?_,fun _ => ?_,by simp [ActiveSegment.accept]⟩
    all_goals simp only [SegmentInfo.stop,ActiveSegment.accept]
    all_goals omega
  · simp

theorem Sound.delete {c : ℕ} {ks : List SegmentInfo} (hd : Deleted c w.sealed ks) :
    Sound { w with sealed := ks } :=
  { h with
    increasing := h.increasing.sublist (hd.sublist.map _)
    below := fun s hs => h.below s (hd.sublist.mem hs)
    joined := (hd.joined h.joined).1
    sealed := fun s hs => h.sealed s (hd.sublist.mem hs)
    active := fun a ha => { h.active a ha with } }

end Memory

section Files

variable {w : JournalWriter} {a : ActiveSegment} {d d' : Disk}

theorem Invariant.apart {P : Path → Prop} (h : w.Invariant d) (hd : Disk.Apart P d d')
    (hm : ¬ P .journalDurableMark) (hs : ∀ a ∈ w.active, ¬ P (.journalSegment a.info.index)) :
    w.Invariant d' where
  sound := h.sound
  wf := hd.wf
  mark i hi := by rw [hd.volatile _ hm,h.mark i hi]
  file a ha := by rw [hd.volatile _ (hs a ha),h.file a ha]
  length a ha hc := by
    rw [hd.inode _ _ (hs a ha) (.inr (h.file a ha)),h.length a ha hc]

theorem Invariant.mapActive (h : w.Invariant d) (ha : w.active = some a) {f : Inode → Inode}
    (hf : a.needsTailCleanup = false → (f (d.inodes a.file)).image.length = a.writeOffset) :
    w.Invariant (d.mapInode a.file f) where
  sound := h.sound
  wf := h.wf.mapInode f
  mark := h.mark
  file := h.file
  length b hb hc := by
    obtain rfl : a = b := Option.some.inj (ha.symm.trans hb)
    rw [Disk.inodes_mapInode_self]
    exact hf hc

theorem Invariant.mapMark (h : w.Invariant d) {i : InodeId}
    (hi : d.volatile .journalDurableMark = some i) (f : Inode → Inode) :
    w.Invariant (d.mapInode i f) where
  sound := h.sound
  wf := h.wf.mapInode f
  mark := h.mark
  file := h.file
  length a ha hc := by
    have hne : a.file ≠ i := by
      rintro rfl
      exact absurd (h.wf.unique _ _ _ (.inr (h.file a ha)) (.inr hi)) (by simp)
    rw [Disk.inodes_mapInode_of_ne hne,h.length a ha hc]

theorem Invariant.remember {w' : JournalWriter} (h : w.Invariant d) (hs : w'.Sound)
    (hm : w'.mark = w.mark) (ha : ∀ b ∈ w'.active, ∃ a ∈ w.active, b.info.index = a.info.index ∧
      b.file = a.file ∧ (b.needsTailCleanup = false →
        (d.inodes a.file).image.length = b.writeOffset)) : w'.Invariant d where
  sound := hs
  wf := h.wf
  mark i hi := h.mark i (hm ▸ hi)
  file b hb := by
    obtain ⟨a,ha,hi,hf,-⟩ := ha b hb
    rw [hi,hf,h.file a ha]
  length b hb hc := by
    obtain ⟨a,-,-,hf,hl⟩ := ha b hb
    rw [hf,hl hc]

end Files

section Calls

variable {w w₀ : JournalWriter} {a : ActiveSegment} {d : Disk}

/-- The mark is written behind the other state: what does not depend on it is kept. -/
theorem writeMark_keeps [Crc32] {Q : JournalWriter → Prop} (hQ : ∀ w mark, Q w → Q { w with mark := mark })
    (mark : DurableMark) :
    Keeps (fun t => t.1.Invariant t.2 ∧ Q t.1) (writeMark mark) := by
  have hopen : Keeps (fun t => t.1.Invariant t.2 ∧ Q t.1) openMark := by
    unfold openMark
    apply Keeps.get_bind
    rintro ⟨w,d⟩ ⟨h,hq⟩
    cases hm : w.mark with
    | some i =>
      simp only [hm]
      exact .pure fun s hs => hs ▸ ⟨h,hq⟩
    | none =>
      simp only [hm]
      have hmarked : ∀ d' i, w.Invariant d' → d'.volatile .journalDurableMark = some i →
          Invariant { w with mark := some i } d' := fun d' i h' hi =>
        { h' with
          sound := h'.sound.setMark _
          mark := by
            rintro _ ⟨⟩
            exact hi }
      have htry : Ends (· = (w,d))
          (Prog.attempt (Io.openFile .journalDurableMark true) : Io JournalWriter CoreError _)
          (fun r t => t.1 = w ∧ w.Invariant t.2 ∧ ∀ i, r = .ok i →
            t.2.volatile .journalDurableMark = some i)
          (fun t => t.1.Invariant t.2 ∧ Q t.1) := by
        apply Triple.attempt
        apply Io.openFile_triple
        · rintro _ _ i ⟨⟩ hv
          exact ⟨rfl,h,by rintro _ ⟨⟩; exact hv⟩
        · rintro _ _ ⟨⟩ hv -
          refine ⟨rfl,?_,by rintro _ ⟨⟩; exact Disk.volatile_create _ _⟩
          have hap : Disk.Apart (· = .journalDurableMark) d (d.create .journalDurableMark) :=
            (Disk.Apart.refl h.wf).create rfl
          exact { h with
            wf := hap.wf
            mark := by simp [hm]
            file := fun a ha => by rw [hap.volatile _ (by simp),h.file a ha]
            length := fun a ha hc => by
              rw [hap.inode _ _ (by simp) (.inr (h.file a ha)),h.length a ha hc] }
        · rintro _ _ ⟨⟩ _ hc
          cases hc
        · rintro _ rfl
          exact ⟨rfl,h,by simp⟩
        · rintro _ rfl
          exact ⟨h,hq⟩
      refine .bind htry fun r => ?_
      cases r with
      | error e =>
        apply Triple.pure
        rintro ⟨_,d'⟩ ⟨rfl,h',-⟩
        exact ⟨h',hq⟩
      | ok i =>
        apply update_triple
        rintro _ d' ⟨rfl,h',hi⟩
        exact ⟨hmarked d' i h' (hi i rfl),hQ _ _ hq⟩
  refine hopen.bind fun _ => Keeps.get_bind ?_
  rintro ⟨w,d⟩ ⟨h,hq⟩
  cases hm : w.mark with
  | none =>
    simp only [hm]
    exact .pure fun s hs => hs ▸ ⟨h,hq⟩
  | some i =>
    simp only [hm]
    have hwritten : ∀ data, w.Invariant (Io.written i 0 data d) := by
      intro data
      unfold Io.written
      split
      · exact h
      · exact h.mapMark (h.mark i hm) _
    refine .bind (Triple.attempt (Io.writeAt_triple ?_ ?_ ?_)) fun _ =>
      Keeps.pure _
    · rintro _ _ ⟨⟩
      exact ⟨hwritten mark.encode,hq⟩
    · rintro _ _ n ⟨⟩
      exact ⟨hwritten (mark.encode.take n),hq⟩
    · rintro _ rfl
      exact ⟨h,hq⟩

/-- What no sync changes. -/
def Steady (w₀ w : JournalWriter) : Prop :=
  w.nextSequence = w₀.nextSequence ∧ w.nextSegmentIndex = w₀.nextSegmentIndex ∧
    w.creationCleanup = w₀.creationCleanup

/-- The invariant with the parts of `w₀` that are still there. -/
def Reached (w₀ : JournalWriter) (t : JournalWriter × Disk) : Prop :=
  t.1.Invariant t.2 ∧ Steady w₀ t.1

/-- Nothing but the active file has changed, and that one ends at the accepted records. -/
def Trimmed (w : JournalWriter) (a : ActiveSegment) (t : JournalWriter × Disk) : Prop :=
  t.1 = w ∧ w.Invariant t.2 ∧ (t.2.inodes a.file).image.length = a.writeOffset

variable {t : JournalWriter × Disk}

theorem Trimmed.reached (h : Trimmed w a t) : Reached w t :=
  h.1.symm ▸ ⟨h.1 ▸ h.2.1,rfl,rfl,rfl⟩

theorem Trimmed.mapActive (h : Trimmed w a t) (ha : w.active = some a)
    {f : Inode → Inode} (hf : (f (t.2.inodes a.file)).image.length =
      (t.2.inodes a.file).image.length) : Trimmed w a (t.1,t.2.mapInode a.file f) :=
  ⟨h.1,h.2.1.mapActive ha fun _ => hf.trans h.2.2,by simpa using hf.trans h.2.2⟩

theorem Invariant.noteSyncFailure (h : w.Invariant d) : w.noteSyncFailure.Invariant d := by
  refine h.remember h.sound.noteSyncFailure rfl ?_
  rintro _ hb
  obtain ⟨a,ha,rfl⟩ := Option.map_eq_some_iff.mp hb
  exact ⟨a,ha,rfl,rfl,h.length a ha⟩

theorem truncateTail_triple (h : w.Invariant d) (ha : w.active = some a) :
    Ends (· = (w,d)) (truncateTail a) (fun _ => Trimmed w a)
      (Reached w) := by
  have hstart : Reached w (w,d) := ⟨h,rfl,rfl,rfl⟩
  apply ((Io.Still.fp _).mapErr _).bind_triple (fun _ => hstart) hstart
  intro _
  apply Triple.mapErr
  apply Io.setLen_triple
  · rintro _ _ ⟨⟩
    have hlen : ((Inode.push (.SetLen a.writeOffset) (d.inodes a.file)).image).length =
        a.writeOffset := by simp [Inode.push,Pend.apply]
    exact ⟨rfl,h.mapActive ha fun _ => hlen,by simpa [Disk.push] using hlen⟩
  · exact fun _ hs => hs ▸ hstart
  · exact fun _ hs => hs ▸ hstart

theorem length_push_write {n : Inode} {offset : ℕ} {data : Bytes}
    (h : offset+data.length ≤ n.image.length) :
    (n.push (.Write offset data)).image.length = n.image.length := by
  simp only [Inode.push,Pend.apply,Splice.length_splice]
  omega

theorem rewriteRange_keeps (ha : w.active = some a) (offset len : ℕ) :
    Keeps (Trimmed w a) (rewriteRange a.file offset len) := by
  induction len using Nat.strong_induction_on generalizing offset with
  | _ len ih =>
    unfold rewriteRange
    by_cases hz : len = 0
    · simp only [if_pos hz]
      exact .pure _
    · simp only [if_neg hz]
      apply Triple.ofEach
      rintro ⟨w',d'⟩ ht
      have hwritten : ∀ data : Bytes, offset+data.length ≤ (d'.inodes a.file).image.length →
          Trimmed w a (w',Io.written a.file offset data d') := by
        intro data hd
        unfold Io.written
        split
        · exact ht
        · exact ht.mapActive ha (length_push_write hd)
      refine (Io.Checks.readAt a.file offset _).bind_triple (fun _ => ht) ht ?_
      intro chunk hchunk
      have hbound : offset+chunk.length ≤ (d'.inodes a.file).image.length := by
        split_ifs at hchunk with hr
        obtain rfl := Except.ok.inj hchunk
        have hr' : offset+min len readChunk ≤ (d'.inodes a.file).image.length := hr
        simp only [List.length_take,List.length_drop]
        omega
      refine .bind (Io.writeAt_triple ?_ ?_ ?_) fun _ =>
        (ih _ ?_ _).bind fun _ => .pure _
      · rintro _ _ ⟨⟩
        exact hwritten chunk hbound
      · rintro _ _ n ⟨⟩
        exact hwritten (chunk.take n) (by rw [List.length_take]; omega)
      · exact fun _ hs => hs ▸ ht
      · simp only [readChunk]
        omega

theorem redirty_keeps [DefaultHasher] (ha : w.active = some a) : Keeps (Trimmed w a) (redirty a) := by
  refine ((Io.Still.fp _).mapErr _).keeps.bind fun _ => ?_
  refine ((rewriteRange_keeps ha _ _).mapErr _).bind fun bytes => ?_
  split
  · exact .throw _
  · exact .pure _

/-- A publication leaves the writer in `w` with another proof, or marks the range dirty. -/
theorem publishProof_triple [Crc32] (ha : w.active = some a) :
    Ends (Trimmed w a) (publishProof a)
      (fun _ t => ∃ proof, t.1 = { w with proof := proof } ∧ Trimmed w a (w,t.2))
      (Reached w) := by
  apply Triple.ofEach
  rintro ⟨w',d⟩ ⟨hw,h,hlen⟩
  obtain rfl : w' = w := hw
  unfold publishProof
  apply Triple.get_bind
  by_cases hp : w'.appendedSequence > w'.proof.durableSequence ∧ a.info.recordCount > 0
  · simp only [if_pos hp]
    let P : Path → Prop := fun p => ∃ x, p = DurableProof.pair.path x
    have hP : ∀ index, ¬ P (.journalSegment index) := by
      rintro index ⟨x,hx⟩
      cases x <;> simp [DurableProof.pair,AbStore.path] at hx
    have hm : ¬ P .journalDurableMark := by
      rintro ⟨x,hx⟩
      cases x <;> simp [DurableProof.pair,AbStore.path] at hx
    have hfile : ∀ d', Disk.Apart P d d' → Trimmed w' a (w',d') := fun d' hd =>
      ⟨rfl,h.apart hd hm fun _ _ => hP _,by
        rw [hd.inode _ _ (hP _) (.inr (h.file a ha)),hlen]⟩
    have hpair : DurableProof.pair.Rewritable DurableProof (fun bs => bs ≠ []) (Disk.Apart P d) :=
      AbStore.rewritable_apart (fun x => ⟨x,rfl⟩) DurableProof.encode_ne_nil
    have hkeep := DurableProofStore.advance_keeps hpair
    have hadvance : Ends (· = (w',d)) (Prog.onError
        (Prog.mapErr advanceError (Io.withLocal { w'.proof with
          durableSequence := w'.appendedSequence, segmentIndex := a.info.index
          durableSize := a.writeOffset } DurableProofStore.advance))
        fun s => (s.1.noteSyncFailure,s.2)) (fun _ => Trimmed w' a)
        (Reached w') := by
      apply Triple.onError
      apply Triple.mapErr
      apply Io.withLocal_triple
      refine (hkeep.from_state (.refl h.wf)).weaken (fun _ _ ht => hfile _ ht) ?_
        (fun _ ht => (hfile _ ht).reached)
      rintro _ t ht
      exact ⟨(hfile _ ht).2.1.noteSyncFailure,rfl,rfl,rfl⟩
    refine .bind hadvance fun r => update_triple ?_
    rintro _ d' ⟨rfl,ht⟩
    exact ⟨_,rfl,rfl,ht⟩
  · simp only [if_neg hp]
    apply Triple.pure
    rintro _ rfl
    exact ⟨w'.proof,rfl,rfl,h,hlen⟩

theorem Trimmed.noteSynced (h : Trimmed w a t) (ha : w.active = some a)
    (proof : DurableProof) : (noteSynced { w with proof := proof }).Invariant t.2 := by
  obtain ⟨-,hinv,hlen⟩ := h
  refine hinv.remember (hinv.sound.setProof proof).noteSynced rfl ?_
  rintro _ hb
  obtain ⟨b,hbw,rfl⟩ := Option.map_eq_some_iff.mp hb
  obtain rfl : a = b := Option.some.inj (ha.symm.trans hbw)
  exact ⟨a,ha,rfl,rfl,fun _ => hlen⟩

/-- A barrier on the active segment makes everything appended durable or fails. -/
theorem syncActive_triple [Crc32] [DefaultHasher] (h : w.Invariant d) :
    Ends (· = (w,d)) syncActive
      (fun _ t => Reached w t ∧ t.1.durableSequence = t.1.appendedSequence)
      (Reached w) := by
  unfold syncActive
  apply Triple.get_bind
  cases ha : w.active with
  | none =>
    simp only [ha]
    exact .pure fun _ ht => ht ▸ ⟨⟨h,rfl,rfl,rfl⟩,h.sound.idle ha⟩
  | some a =>
    simp only [ha]
    by_cases hc : a.unsynced = false ∧ a.needsTailCleanup = false
    · simp only [if_pos hc]
      exact .pure fun _ ht => ht ▸
        ⟨⟨h,rfl,rfl,rfl⟩,((h.sound.active a ha).clean hc.1).2⟩
    · simp only [if_neg hc]
      have hcut : Ends (· = (w,d))
          (Prog.when (a.needsTailCleanup || a.needsRedirty) (truncateTail a))
          (fun _ => Trimmed w a) (Reached w) := by
        apply Triple.when (fun _ => truncateTail_triple h ha)
        rintro _ hf rfl
        simp only [Bool.or_eq_false_iff] at hf
        exact ⟨rfl,h,h.length a ha hf.1⟩
      have hdirty : Keeps (Trimmed w a) (Prog.when a.needsRedirty (redirty a)) :=
        Triple.when (fun _ => redirty_keeps ha) fun _ _ ht => ht
      have hfail : ∀ {α : Type} {p : Io JournalWriter CoreError α},
          Keeps (Trimmed w a) p → Ends (Trimmed w a) p (fun _ => Trimmed w a)
            (Reached w) := fun hp =>
        Triple.weaken hp (fun _ _ ht => ht) (fun _ _ ht => ht.reached)
          fun _ ht => ht.reached
      refine .bind hcut fun _ => .bind (hfail hdirty) fun _ => ?_
      refine .bind (hfail ((Io.Still.fp _).mapErr _).keeps) fun _ => ?_
      have hsync : Ends (Trimmed w a)
          (Prog.onError (coreIo (Io.syncData a.file)) fun s => (s.1.noteSyncFailure,s.2))
          (fun _ => Trimmed w a) (Reached w) := by
        apply Triple.onError
        apply Triple.mapErr
        apply Io.syncData_triple
        · exact fun m d' ht => ht.mapActive ha rfl
        · rintro m d' ht
          obtain ⟨rfl,h',-⟩ := ht.mapActive ha (f := Inode.dropDirty) rfl
          exact ⟨h'.noteSyncFailure,rfl,rfl,rfl⟩
        · exact fun _ ht => ht.reached
      refine .bind hsync fun _ => .bind (publishProof_triple ha) fun _ => ?_
      have hnote : Ends (fun t : JournalWriter × Disk =>
            ∃ proof, t.1 = { w with proof := proof } ∧ Trimmed w a (w,t.2))
          (update noteSynced : Io JournalWriter CoreError _) (fun _ t => t.1.Invariant t.2 ∧ Steady w t.1 ∧
            t.1.durableSequence = t.1.appendedSequence)
          (Reached w) := by
        apply update_triple
        rintro _ d' ⟨proof,rfl,ht⟩
        exact ⟨ht.noteSynced ha proof,⟨rfl,rfl,rfl⟩,rfl⟩
      refine .bind hnote fun _ => ?_
      refine (writeMark_keeps (Q := fun w' => Steady w w' ∧
        w'.durableSequence = w'.appendedSequence) (fun _ _ hq => hq) _).weaken ?_ ?_ ?_
      · exact fun _ _ ht => ⟨⟨ht.1,ht.2.1⟩,ht.2.2⟩
      · exact fun _ _ ht => ⟨ht.1,ht.2.1⟩
      · exact fun _ ht => ⟨ht.1,ht.2.1⟩

end Calls

end JournalWriter
end Maki
