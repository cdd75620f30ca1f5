import Maki.Footprint
import Maki.JournalCounters
import Maki.WriterRun

/-! The footprint a journal writer predicts for a request, against what its appends then add. -/
namespace Maki
namespace JournalWriter

def totalBytes (w : JournalWriter) : ℕ :=
  (w.sealed.map SegmentInfo.size).sum+(w.active.map fun a => a.info.size).getD 0

def slot (w : JournalWriter) : Option (ℕ × ℕ) :=
  w.active.map fun a => (a.writeOffset,a.info.recordCount)

def appendFootprint (w : JournalWriter) (recordLens : List ℕ) : ℕ :=
  (checkedAppendFootprint w.segmentSize w.slot (recordLens.map fun len => (len,1))).getD u64Max

/-- The writer stands where the projection says. -/
def Sized (p : Projection) (segmentSize : ℕ) (w : JournalWriter) : Prop :=
  p = ⟨w.slot,w.totalBytes⟩ ∧ w.segmentSize = segmentSize ∧ ∀ a ∈ w.active, a.writeOffset = a.info.size

section Append

variable {p : Projection} {segmentSize : ℕ} {w : JournalWriter} {d : Disk}

theorem Sized.mapActive (h : Sized p segmentSize w) {f : ActiveSegment → ActiveSegment}
    (hf : ∀ a, (f a).writeOffset = a.writeOffset ∧ (f a).info = a.info) :
    Sized p segmentSize (w.mapActive f) := by
  obtain ⟨rfl,hsize,hoff⟩ := h
  refine ⟨?_,hsize,Option.forall_mem_map.mpr fun a ha => ?_⟩
  · cases ha : w.active <;> simp [slot,totalBytes,JournalWriter.mapActive,ha,hf]
  · rw [(hf a).1,(hf a).2]
    exact hoff a ha

theorem Sized.bookkept : Bookkept (Sized p segmentSize) where
  mark _ _ h := h
  proof _ _ h := h
  cleanup _ _ h := h
  failure _ h := h.mapActive fun _ => ⟨rfl,rfl⟩
  tail _ h := h.mapActive fun _ => ⟨rfl,rfl⟩

theorem Sized.retire (h : Sized p segmentSize w) : Sized ⟨none,p.added⟩ segmentSize w.retire := by
  obtain ⟨rfl,hsize,-⟩ := h
  refine ⟨?_,hsize,by simp [retire]⟩
  cases ha : w.active <;> simp [slot,totalBytes,JournalWriter.retire,ha]

theorem Sized.start {n : ℕ} (h : Sized ⟨none,n⟩ segmentSize w) (index nextSegmentIndex : ℕ)
    (file : InodeId) :
    Sized ⟨some (segmentHeaderSize,0),n+segmentHeaderSize⟩ segmentSize { w with
      nextSegmentIndex := nextSegmentIndex
      active := some (freshSegment index w.nextSequence file) } := by
  obtain ⟨hp,hsize,-⟩ := h
  obtain ⟨hnone,rfl⟩ := Projection.mk.inj hp
  have ha : w.active = none := Option.map_eq_none_iff.mp hnone.symm
  refine ⟨by simp [slot,totalBytes,ha,freshSegment],hsize,?_⟩
  rintro _ ⟨⟩
  rfl

theorem Sized.accept {offset records n : ℕ} (h : Sized ⟨some (offset,records),n⟩ segmentSize w)
    (bytes : Bytes) (nextSequence appendedSequence : ℕ) :
    Sized ⟨some (offset+bytes.length,records+1),n+bytes.length⟩ segmentSize
      { w.mapActive (·.accept bytes) with
        nextSequence := nextSequence, appendedSequence := appendedSequence } := by
  obtain ⟨hp,hsize,hoff⟩ := h
  obtain ⟨hslot,rfl⟩ := Projection.mk.inj hp
  obtain ⟨a,ha,hval⟩ := Option.map_eq_some_iff.mp hslot.symm
  obtain ⟨rfl,rfl⟩ := Prod.mk.inj hval
  have hend := hoff a ha
  refine ⟨?_,hsize,?_⟩
  · simp only [slot,totalBytes,JournalWriter.mapActive,ha,Option.map_some,Option.getD_some,
      ActiveSegment.accept,hend,Nat.add_assoc]
  · rintro _ hb
    obtain ⟨b,-,rfl⟩ := Option.map_eq_some_iff.mp hb
    rfl

theorem Sized.needsRoll (h : Sized p segmentSize w) (n : ℕ) :
    w.needsRoll n = p.rolls segmentSize (recordHeaderSize+n) := by
  obtain ⟨rfl,rfl,-⟩ := h
  unfold JournalWriter.needsRoll Projection.rolls slot
  cases w.active <;> rfl

theorem append_sized [Crc32] [DefaultHasher] (h : Sized p segmentSize w) (unitIndex : ℕ)
    (payload : Bytes) :
    Prog.Returns (· = (w,d)) (append unitIndex payload)
      (fun _ t => Sized (p.place segmentSize (recordHeaderSize+payload.length)) segmentSize t.1) := by
  have hroll := h.needsRoll payload.length
  by_cases hr : p.rolls segmentSize (recordHeaderSize+payload.length) = true
  · rw [Projection.place_of_rolls hr]
    refine (append_on (l := []) h Sized.bookkept.framed Sized.bookkept.framed Sized.bookkept.framed
      (by simp [hroll,hr]) (fun _ _ _ hw => hw.mapActive fun _ => ⟨rfl,rfl⟩) (fun _ _ _ hw => hw.retire)
      (fun _ w _ index next file hw => hw.start index next file)
      (T := fun _ t => Sized _ segmentSize t.1) ?_).weaken (fun _ _ ht => ht.2) (fun _ _ _ => trivial)
        fun _ _ => trivial
    rintro w' _ r - rfl hw
    have hacc := hw.accept (encodeRecord r) (w.nextSequence+1) r.sequence
    rwa [length_encodeRecord,Nat.add_assoc] at hacc
  · rw [Bool.not_eq_true] at hr
    -- the record fits, so there is an active segment
    obtain ⟨offset,records,hs⟩ : ∃ offset records, p.slot = some (offset,records) := by
      cases hs : p.slot with
      | none => simp [Projection.rolls,hs] at hr
      | some slot => exact ⟨slot.1,slot.2,rfl⟩
    have hfits : records = 0 ∨ offset+(recordHeaderSize+payload.length) ≤ segmentSize := by
      simp only [Projection.rolls,hs,gt_iff_lt,Bool.and_eq_false_iff,decide_eq_false_iff_not] at hr
      omega
    rw [Projection.place_of_fits hs hfits]
    have hp : p = ⟨some (offset,records),p.added⟩ := by rw [← hs]
    have hnever : Bookkept fun _ => False := by constructor <;> simp
    refine (append_on (l := []) h Sized.bookkept.framed hnever.framed Sized.bookkept.framed (fun _ => hp ▸ h)
      (fun _ _ _ hw => hw.mapActive fun _ => ⟨rfl,rfl⟩) (by simp [hroll,hr])
      (fun _ _ _ _ _ _ hw => hw.elim) (T := fun _ t => Sized _ segmentSize t.1) ?_).weaken
        (fun _ _ ht => ht.2) (fun _ _ _ => trivial) fun _ _ => trivial
    rintro w' _ r - rfl hw
    have hacc := hw.accept (encodeRecord r) (w.nextSequence+1) r.sequence
    rwa [length_encodeRecord] at hacc

def Bounded (w : JournalWriter) : Prop :=
  w.segmentSize ≤ maxJournalSegmentSize ∧ ∀ a ∈ w.active,
    (a.info.recordCount = 0 → a.writeOffset = segmentHeaderSize) ∧
      a.writeOffset ≤ max w.segmentSize (segmentHeaderSize+(recordHeaderSize+maxPayload))

theorem Bounded.mapActive (h : w.Bounded) {f : ActiveSegment → ActiveSegment}
    (hf : ∀ a, (f a).writeOffset = a.writeOffset ∧ (f a).info = a.info) :
    (w.mapActive f).Bounded := by
  refine ⟨h.1,Option.forall_mem_map.mpr fun a ha => ?_⟩
  rw [(hf a).1,(hf a).2]
  exact h.2 a ha

theorem Bounded.bookkept : Bookkept Bounded where
  mark _ _ h := h
  proof _ _ h := h
  cleanup _ _ h := h
  failure _ h := h.mapActive fun _ => ⟨rfl,rfl⟩
  tail _ h := h.mapActive fun _ => ⟨rfl,rfl⟩

def Roomy (n : ℕ) (w : JournalWriter) : Prop :=
  w.Bounded ∧ ∀ a ∈ w.active, a.info.recordCount = 0 ∨
    a.writeOffset+(recordHeaderSize+n) ≤ w.segmentSize

theorem Roomy.mapActive {n : ℕ} (h : Roomy n w) {f : ActiveSegment → ActiveSegment}
    (hf : ∀ a, (f a).writeOffset = a.writeOffset ∧ (f a).info = a.info) :
    Roomy n (w.mapActive f) := by
  refine ⟨h.1.mapActive hf,Option.forall_mem_map.mpr fun a ha => ?_⟩
  rw [(hf a).1,(hf a).2]
  exact h.2 a ha

theorem Roomy.bookkept (n : ℕ) : Bookkept (Roomy n) where
  mark _ _ h := h
  proof _ _ h := h
  cleanup _ _ h := h
  failure _ h := h.mapActive fun _ => ⟨rfl,rfl⟩
  tail _ h := h.mapActive fun _ => ⟨rfl,rfl⟩

end Append

section Runs

variable [Crc32] [DefaultHasher]

/-- Records of these lengths, appended one by one with success. -/
inductive Appended : JournalWriter × Disk → List ℕ → JournalWriter × Disk → Prop
  | nil (t : JournalWriter × Disk) : Appended t [] t
  | cons {t u v : JournalWriter × Disk} {fs fs' : List Fault} {unitIndex sequence : ℕ}
      {payload : Bytes} {lens : List ℕ}
      (h : append unitIndex payload fs t = (.ok sequence,fs',u)) (hrest : Appended u lens v) :
      Appended t ((recordHeaderSize+payload.length)::lens) v

variable {t : JournalWriter × Disk} {lens : List ℕ} {w : JournalWriter}

theorem Appended.result {v : JournalWriter × Disk} {fs : List Fault} {unitIndex sequence : ℕ}
    {payload : Bytes} (ho : (append unitIndex payload fs t).1 = .ok sequence)
    (h : Appended (append unitIndex payload fs t).2.2 lens v) :
    Appended t ((recordHeaderSize+payload.length)::lens) v :=
  .cons (Prog.eq_of_outcome _ ho) h

theorem Appended.sized {u : JournalWriter × Disk} (h : Appended t lens u)
    {p : Projection} {segmentSize : ℕ} (hs : Sized p segmentSize t.1) :
    Sized (p.placeAll segmentSize lens) segmentSize u.1 := by
  induction h generalizing p with
  | nil => exact hs
  | @cons t u v fs fs' unitIndex sequence payload lens happ _ ih =>
    have hone := append_sized (d := t.2) hs unitIndex payload fs t rfl
    rw [happ] at hone
    exact ih hone

theorem append_bounded {d : Disk} (h : w.Bounded) (unitIndex : ℕ) {payload : Bytes}
    (hp : payload.length ≤ maxPayload) :
    Prog.Leaves (· = (w,d)) (append unitIndex payload) (·.1.Bounded) := by
  refine (append_on (l := []) (T := fun _ t => t.1.Bounded) h Bounded.bookkept.framed Bounded.bookkept.framed
    (Roomy.bookkept payload.length).framed ?_ (fun _ _ _ hw => hw.mapActive fun _ => ⟨rfl,rfl⟩)
    (fun _ _ _ hw => ⟨hw.1,by simp [retire]⟩) ?_ ?_).weaken (fun _ _ ht => ht.2)
      (fun _ _ ht => ht.elim id fun ht => ht.elim id And.left) fun _ _ => trivial
  · intro hstay
    refine ⟨h,fun a ha => ?_⟩
    have ha' : w.active = some a := ha
    simp only [needsRoll,ha',gt_iff_lt,Bool.and_eq_false_iff,decide_eq_false_iff_not] at hstay
    simp only [recordHeaderSize]
    omega
  · intro _ w _ index next file hw
    refine ⟨⟨hw.1,?_⟩,?_⟩
    · rintro _ ⟨⟩
      refine ⟨fun _ => rfl,?_⟩
      simp only [freshSegment]
      omega
    · rintro _ ⟨⟩
      exact .inl rfl
  · rintro w _ r - rfl ⟨hb,hroom⟩
    refine ⟨hb.1,Option.forall_mem_map.mpr fun a ha => ?_⟩
    obtain ⟨hempty,hle⟩ := hb.2 a ha
    have hr := hroom a ha
    refine ⟨by simp [ActiveSegment.accept],?_⟩
    simp only [ActiveSegment.accept,length_encodeRecord]
    rcases hr with hz | hfit
    · rw [hempty hz]
      exact Nat.le_trans (Nat.add_le_add_left (Nat.add_le_add_left hp _) _) (Nat.le_max_right _ _)
    · exact Nat.le_trans hfit (Nat.le_max_left _ _)

def Call.Fits : Call → Prop
  | .append _ payload => payload.length ≤ maxPayload
  | _ => True

/-- Runs whose appends keep to the format's limit. -/
inductive FitRun (start : JournalWriter × Disk) : JournalWriter × Disk → Prop
  | start : FitRun start start
  | call {t t' : JournalWriter × Disk} {fs fs' : List Fault} {o : Outcome CoreError ℕ}
      (h : FitRun start t) (c : Call) (hfit : c.Fits) (hrun : c.run fs t = (o,fs',t'))
      (ho : o ≠ .lost) : FitRun start t'

theorem Call.run_bounded (c : Call) (hfit : c.Fits) :
    Prog.Runs (·.1.Bounded) c.run := by
  cases c with
  | append unitIndex payload => exact Prog.Triple.ofEach fun t ht => append_bounded ht unitIndex hfit
  | sync =>
    exact Prog.Triple.weakenLost (sync_on (l := []) Bounded.bookkept.framed
      (fun _ _ _ hw => hw.mapActive fun _ => ⟨rfl,rfl⟩) fun _ _ hw => hw) fun _ _ => trivial
  | deleteCovered c =>
    exact Prog.Triple.weakenLost (deleteCovered_on (l := []) Bounded.bookkept.framed
      (fun _ _ _ hw => hw) c) fun _ _ => trivial

theorem FitRun.bounded {start : JournalWriter × Disk} (h : FitRun start t) (hs : start.1.Bounded) :
    t.1.Bounded := by
  induction h with
  | start => exact hs
  | @call t t' fs fs' o _ c hfit hrun ho ih =>
    have hc := c.run_bounded hfit fs t ih
    rw [hrun] at hc
    cases o with
    | lost => exact absurd rfl ho
    | ok _ => exact hc
    | err _ => exact hc

theorem Appended.bounded {u : JournalWriter × Disk} (h : Appended t lens u)
    (hlens : ∀ len ∈ lens, len ≤ recordHeaderSize+maxPayload) (hb : t.1.Bounded) : u.1.Bounded := by
  induction h with
  | nil => exact hb
  | @cons t u v fs fs' unitIndex sequence payload lens happ _ ih =>
    have hp : payload.length ≤ maxPayload := Nat.le_of_add_le_add_left (hlens _ (by simp))
    have hone := append_bounded (d := t.2) hb unitIndex hp fs t rfl
    rw [happ] at hone
    exact ih (fun len hl => hlens len (by simp [hl])) hone

end Runs

section Exact

variable [Crc32] [DefaultHasher] {μ : Type} {superblock : Superblock} {c segmentSize : ℕ}
  {required : Option DurableProof} {replay : ReplayRecords} {fs fs' : List Fault} {m m' : μ}
  {d d' : Disk} {scan : JournalScan}

/-- Whatever a writer has been through, the footprint it predicts is what successful appends add to
its journal, headers of new segments included; grouping does not change it. No write offset, record
count or total leaves its range on the way, nor, with the sizes that configurations and the format
allow, the sum that decides about a roll. -/
theorem appendFootprint_exact
    (hscan : scanJournalWithProof superblock c segmentSize required replay fs (m,d) =
      (.ok scan,fs',m',d')) (volumeUuid : BitVec 128) (size : ℕ) (proof : DurableProof)
    {disk : Disk} (hdisk : disk.Wf) {t t' : JournalWriter × Disk}
    (hrun : Run ((resume volumeUuid size scan.durableSequence scan.nextSegmentIndex scan.segments
      proof).allowCoveredHolesBelow c,disk) t) (hsize : t.1.segmentSize < 2^64)
    {lens : List ℕ} {n : ℕ}
    (hn : checkedAppendFootprint t.1.segmentSize t.1.slot (lens.map fun len => (len,1)) = some n)
    (happ : Appended t lens t') :
    t.1.appendFootprint lens = n ∧ t'.1.totalBytes = t.1.totalBytes+n ∧
      (∀ groups, ungroup groups = lens →
        checkedAppendFootprint t.1.segmentSize t.1.slot groups = some n) ∧
      (∀ ls ms u, lens = ls ++ ms → ls ≠ [] → Appended t ls u →
        u.1.totalBytes ≤ t.1.totalBytes+n ∧
          ∀ a ∈ u.1.active, a.writeOffset < 2^64 ∧ a.info.recordCount < 2^64) ∧
      (size ≤ maxJournalSegmentSize →
        FitRun ((resume volumeUuid size scan.durableSequence scan.nextSegmentIndex scan.segments
          proof).allowCoveredHolesBelow c,disk) t →
        (∀ len ∈ lens, len ≤ recordHeaderSize+maxPayload) →
        ∀ ls len ms u, lens = ls ++ len::ms → Appended t ls u →
          ∀ a ∈ u.1.active, a.writeOffset+len < 2^64) := by
  have hinv : t.1.Invariant t.2 := hrun.invariant
    ⟨sound_of_scan hscan volumeUuid size proof,hdisk,by simp [allowCoveredHolesBelow,resume],
      by simp [allowCoveredHolesBelow,resume],by simp [allowCoveredHolesBelow,resume]⟩
  have hsized : Sized ⟨t.1.slot,t.1.totalBytes⟩ t.1.segmentSize t.1 :=
    ⟨rfl,rfl,fun a ha => (hinv.sound.active a ha).size⟩
  obtain ⟨q,hq,hadded⟩ := Option.map_eq_some_iff.mp hn
  obtain ⟨rfl,-,hrange⟩ := Projection.foldlM_single hsize lens hq
  have htotal : ∀ {ls u}, Appended t ls u →
      u.1.slot = (Projection.placeAll t.1.segmentSize ⟨t.1.slot,0⟩ ls).slot ∧
      u.1.totalBytes = t.1.totalBytes+(Projection.placeAll t.1.segmentSize ⟨t.1.slot,0⟩ ls).added := by
    intro ls u hu
    have h := (hu.sized hsized).1
    rw [Projection.placeAll_added] at h
    obtain ⟨h₁,h₂⟩ := Projection.mk.inj h
    exact ⟨h₁.symm,h₂.symm⟩
  refine ⟨by rw [appendFootprint,hn]; rfl,by rw [(htotal happ).2,hadded],?_,?_,?_⟩
  · rintro groups rfl
    rw [← checkedAppendFootprint_ungroup hsize]
    exact hn
  · intro ls ms u hl hne hu
    obtain ⟨hslot,hbytes⟩ := htotal hu
    refine ⟨?_,fun a ha => ?_⟩
    · have hle := Projection.le_placeAll t.1.segmentSize
        (Projection.placeAll t.1.segmentSize ⟨t.1.slot,0⟩ ls) ms
      rw [← Projection.placeAll_append,← hl,hadded] at hle
      omega
    · have hs : (a.writeOffset,a.info.recordCount) ∈
          (Projection.placeAll t.1.segmentSize ⟨t.1.slot,0⟩ ls).slot := by
        rw [← hslot,slot,show u.1.active = some a from ha]
        rfl
      exact (hrange ls ms hl hne).2 _ hs
  · intro hmax hfit hlens ls len ms u hl hu a ha
    have hb : t.1.Bounded := hfit.bounded ⟨by
      simp only [allowCoveredHolesBelow,resume,effectiveSegmentSize,maxJournalSegmentSize,
        segmentHeaderSize] at hmax ⊢
      omega,by simp [allowCoveredHolesBelow,resume]⟩
    have hub := hu.bounded (fun k hk => hlens k (by simp [hl,hk])) hb
    have hlen := hlens len (by simp [hl])
    have hoff := (hub.2 a ha).2
    have hsz := hub.1
    simp only [maxJournalSegmentSize,segmentHeaderSize,recordHeaderSize,maxPayload] at hlen hoff hsz
    omega

end Exact

section Sample

/-! A writer with the smallest segments: the second record no longer fits behind the first. -/

local instance : Crc32 := Crc32.ieee
local instance : DefaultHasher := ⟨fun bs => UInt64.ofNat (leNat bs)⟩

def smallWriter : JournalWriter × Disk :=
  ((resume 7 0 sampleScan.durableSequence sampleScan.nextSegmentIndex sampleScan.segments
    sampleProof).allowCoveredHolesBelow 0,sampleFiles)

def smallFirst : JournalWriter × Disk := (append 3 [1,2] [] smallWriter).2.2
def smallSecond : JournalWriter × Disk := (append 4 [3,4,5,6] [] smallFirst).2.2

theorem appendFootprint_exact_rolls : smallWriter.1.appendFootprint [34,36] = 166 ∧
    smallSecond.1.totalBytes = smallWriter.1.totalBytes+166 := by
  have hok : sampleRun.1 = .ok sampleScan := by decide +kernel
  have hscan : scanJournalWithProof sampleSuperblock 0 4096 (some ⟨1,7,1,4,83⟩) (.All []) []
      ((),sampleDisk) = sampleRun := by
    unfold sampleRun
    rfl
  have hfirst : (append 3 [1,2] [] smallWriter).1 = .ok 3 := by decide +kernel
  have hsecond : (append 4 [3,4,5,6] [] smallFirst).1 = .ok 4 := by decide +kernel
  have happ : Appended smallWriter [34,36] smallSecond :=
    .result hfirst (.result hsecond (.nil _))
  have hexact := appendFootprint_exact (hscan.trans (Prog.eq_of_outcome sampleRun hok)) 7 0 sampleProof
    sampleFiles_wf Run.start (n := 166) (by decide) (by decide) happ
  exact ⟨hexact.1,hexact.2.1⟩

end Sample

end JournalWriter
end Maki
