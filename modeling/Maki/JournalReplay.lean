import Maki.JournalSound

/-! What a successful journal scan guarantees, whatever the journal directory holds: the
records handed to replay close the gap between the checkpoint and the durable sequence, the
required horizon is among them, every kept segment scans clean when it is cut at its
recorded size, and the summary counts the same records. -/
namespace Maki

section Replay

variable {μ : Type} [Crc32] [DefaultHasher]

/-- The bytes are a segment header, consecutive records up to this one, and anything: the
record ends exactly at byte `stop`. -/
def RecordEndsAt (bytes : Bytes) (sequence stop : ℕ) : Prop :=
  ∃ (header : SegmentHeader) (before : List JournalRecord) (r : JournalRecord) (tail : Bytes),
    bytes = header.encode ++ (encodeAll (before ++ [r]) ++ tail) ∧
      Framed header.baseSequence (before ++ [r]) ∧ r.sequence = sequence ∧
      (header.encode ++ encodeAll (before ++ [r])).length = stop

/-- A scan of a file with these bytes ends clean and counts the segment's records, however
much of it is taken to be durable. -/
def ScansClean (superblock : Superblock) (c : ℕ) (s : SegmentInfo) (bytes : Bytes) : Prop :=
  ∀ (d : Disk) (file : InodeId) (durableLen : ℕ) (replay : ReplayRecords),
    (d.inodes file).image = bytes →
      ∃ out after, (SegmentScanner.mk file (bytes.take segmentHeaderSize)
          (bytes.length-segmentHeaderSize) s.baseSequence durableLen none superblock.geometry c
          (segmentName s.index)).scan pushRecord [] (replay,d) = (.ok out,[],after) ∧
        out.outcome = .Clean ∧ out.recordCount = s.recordCount

section Lemmas

variable {superblock : Superblock} {c : ℕ} {d : Disk} {k : KeptSegment}

omit [Crc32] [DefaultHasher] in
theorem pushRecord_takes (file : InodeId) : SegmentScanner.Takes file pushRecord :=
  fun r s => ⟨(s.1.push r,s.2),rfl,rfl⟩

omit [DefaultHasher] in
theorem Holds.cut {bytes : Bytes} (h : Holds superblock d k)
    (hb : d.image (.journalSegment k.1.index) = some bytes) :
    k.1.size ≤ bytes.length ∧ bytes.take k.1.size =
      (SegmentHeader.mk k.1.index superblock.volumeUuid k.1.baseSequence).encode ++ encodeAll k.2 := by
  obtain ⟨tail,himage⟩ := h.image
  obtain rfl := Option.some.inj (hb.symm.trans himage)
  have hlen : k.1.size = ((SegmentHeader.mk k.1.index superblock.volumeUuid k.1.baseSequence).encode ++
      encodeAll k.2).length := by rw [h.size,List.length_append,SegmentHeader.length_encode]
  rw [hlen,← List.append_assoc]
  exact ⟨by simp,List.take_left⟩

theorem Holds.scansClean {bytes : Bytes} (h : Holds superblock d k)
    (hb : d.image (.journalSegment k.1.index) = some bytes) (c : ℕ) :
    ScansClean superblock c k.1 (bytes.take k.1.size) := by
  intro d' file durableLen replay hi
  obtain ⟨-,hcut⟩ := h.cut hb
  set image := bytes.take k.1.size
  set sc := SegmentScanner.mk file (image.take segmentHeaderSize) (image.length-segmentHeaderSize)
    k.1.baseSequence durableLen none superblock.geometry c (segmentName k.1.index)
  have hbl : sc.bodyLen = image.length-segmentHeaderSize := rfl
  have hle : segmentHeaderSize ≤ image.length := by
    rw [hcut,List.length_append,SegmentHeader.length_encode]
    omega
  have hbody : sc.body image = encodeAll k.2 := by
    have hdrop : image.drop segmentHeaderSize = encodeAll k.2 := by
      rw [hcut,← SegmentHeader.length_encode (SegmentHeader.mk k.1.index superblock.volumeUuid
        k.1.baseSequence),List.drop_left]
    rw [SegmentScanner.body,hdrop]
    apply List.take_of_length_le
    rw [← hdrop,List.length_drop]
  obtain ⟨after,out,hrun,hclean,hcount,-⟩ := SegmentScanner.scan_quiet (s := (replay,d'))
    (pushRecord_takes file) (show segmentHeaderSize+sc.bodyLen ≤ image.length by omega)
    rfl hbody h.framed h.allowed hi
  exact ⟨out,after,hrun,hclean,hcount.trans h.count.symm⟩

omit [DefaultHasher] in
theorem Holds.recordEndsAt {sequence stop : ℕ} (h : Holds superblock d k)
    (he : EndsAt k.2 sequence (wrappingSub stop segmentHeaderSize)) :
    ∃ bytes, d.image (.journalSegment k.1.index) = some bytes ∧ RecordEndsAt bytes sequence stop := by
  obtain ⟨tail,himage⟩ := h.image
  obtain ⟨before,r,after,hsplit,hseq,hend⟩ := he
  refine ⟨_,himage,⟨k.1.index,superblock.volumeUuid,k.1.baseSequence⟩,before,r,
    encodeAll after ++ tail,?_,?_,hseq,?_⟩
  · rw [hsplit]
    simp
  · have hf := h.framed
    rw [hsplit,show before ++ r::after = (before ++ [r]) ++ after by simp] at hf
    exact hf.left
  · -- a horizon below the header would wrap past the end of every file
    have hsize := h.size
    have hsmall := h.small
    have hle : (encodeAll (before ++ [r])).length ≤ (encodeAll k.2).length := by
      have hl := congrArg (fun rs => (encodeAll rs).length) hsplit
      simp only [encodeAll_append,encodeAll_cons,encodeAll_nil,List.length_append] at hl ⊢
      simp only [List.length_nil]
      omega
    rw [List.length_append,SegmentHeader.length_encode]
    unfold wrappingSub at hend
    split_ifs at hend <;> omega

omit [DefaultHasher] in
theorem length_above {ks : List KeptSegment} (h : ∀ k ∈ ks, Holds superblock d k) :
    (above c (ks.flatMap Prod.snd)).length = (ks.map fun k => k.1.uncovered c).sum := by
  induction ks with
  | nil => rfl
  | cons k ks ih =>
    have hk : (above c k.2).length = k.1.uncovered c := by
      rw [← length_filter_sequences,← (h k (by simp)).sequences,← above_sequences,List.length_map]
    rw [List.flatMap_cons,above_append,List.length_append,List.map_cons,List.sum_cons,hk,
      ih fun k' hk' => h k' (by simp [hk'])]

omit [DefaultHasher] in
theorem sequences_above {ks : List KeptSegment} (h : ∀ k ∈ ks, Holds superblock d k) :
    (above c (ks.flatMap Prod.snd)).map JournalRecord.sequence =
      (ks.map Prod.fst).flatMap fun s => s.sequences.filter (c < ·) := by
  induction ks with
  | nil => rfl
  | cons k ks ih =>
    rw [List.flatMap_cons,above_append,List.map_append,above_sequences,(h k (by simp)).sequences,
      ih fun k' hk' => h k' (by simp [hk']),List.map_cons,List.flatMap_cons]

end Lemmas

section Soundness

variable {superblock : Superblock} {c segmentSize : ℕ} {proof : Option DurableProof}
  {replay : ReplayRecords} {fs fs' : List Fault} {m m' : μ} {d d' : Disk} {scan : JournalScan}

/-- A successful scan in terms of the disk: the kept segments and the records handed on. -/
theorem scan_eq (h : scanJournalWithProof superblock c segmentSize proof replay fs (m,d) =
    (.ok scan,fs',m',d')) :
    d' = d ∧ m' = m ∧ scan.segments = (keptSegments d).map Prod.fst ∧
      (∀ k ∈ keptSegments d, Holds superblock d k) ∧ Linked c scan.segments ∧
      scan.durableSequence = max c (maxLast scan.segments) ∧
      (∀ s ∈ scan.segments, s.index < scan.nextSegmentIndex) ∧
      (scan.replay,scan.replayUnits) = ((above c ((keptSegments d).flatMap Prod.snd)).foldl
        ReplayRecords.push replay).intoParts ∧
      ∀ p, proof = some p → c < p.durableSequence → ∃ k ∈ keptSegments d,
        k.1.index = p.segmentIndex ∧
          EndsAt k.2 p.durableSequence (wrappingSub p.durableSize segmentHeaderSize) := by
  have hwalked : Prog.Triple (· = (m,d))
    (scanJournalWithProof superblock c segmentSize proof replay) _ _ _ := scan_walked
  have ht := hwalked fs (m,d) rfl
  rw [h] at ht
  obtain ⟨hs,ctx,w,now,rfl,rfl,rfl,hw,hf⟩ := ht
  obtain ⟨hseen,hdur,hseg,hparts,hnext⟩ := ScanContext.finish_ok hf
  cases hs
  refine ⟨rfl,rfl,hseg.trans hw.segments,hw.holds,hseg ▸ hw.linked,by rw [hdur,hw.max,hseg],?_,?_,?_⟩
  · intro s hs
    exact ScanContext.index_lt_of_nextIndex hnext (hseg ▸ hs)
  · rw [hparts,hw.replay]
    rfl
  · intro p hp hlt
    have hreq : ctx.required = some p := by
      simp [ScanContext.required,hp,hlt]
    exact hw.required (hseen (by rw [hreq]; rfl)) p hreq

omit [DefaultHasher] in
theorem replayed_sequences {ks : List KeptSegment} (hh : ∀ k ∈ ks, Holds superblock d k)
    (hl : Linked c (ks.map Prod.fst)) :
    (above c (ks.flatMap Prod.snd)).map JournalRecord.sequence =
      List.range' (c+1) (max c (maxLast (ks.map Prod.fst))-c) := by
  rw [sequences_above hh,hl.replayed.2]

theorem summary_eq {summary : JournalSummary}
    (h : summarizeJournal superblock c segmentSize fs (m,d) = (.ok summary,fs',m',d')) :
    summary.uncoveredRecords = ((keptSegments d).map fun k => k.1.uncovered c).sum := by
  have hrun : Prog.Returns (· = (m,d))
      (summarizeJournal superblock c segmentSize : Io μ RecoveryError _)
      (fun summary _ => summary.uncoveredRecords =
        ((keptSegments d).map fun k => k.1.uncovered c).sum) := by
    have hscan : Prog.Returns (· = (m,d))
        (scanJournalWithReplay superblock c segmentSize (.Units ∅) : Io μ RecoveryError _)
        (fun scan _ => scan.segments = (keptSegments d).map Prod.fst) := by
      apply (loadVolumeSuperblock_still.mapErr _).bind_triple (fun _ => trivial) trivial
      intro envelope
      by_cases hu : envelope.superblock.volumeUuid ≠ superblock.volumeUuid
      · simp only [if_pos hu]
        exact Prog.Triple.throw fun _ _ => trivial
      · simp only [if_neg hu]
        have hproof : Io.Still (loadScanProof envelope superblock.volumeUuid : Io μ _ _) := by
          unfold loadScanProof
          split
          · exact ((Io.Still.ofChecks (DurableProofStore.load_checks _)).mapErr _).bind
              fun proof => .pure (some proof)
          · exact .pure none
        apply hproof.bind_triple (fun _ => trivial) trivial
        rintro proof fs _ rfl
        rcases hr : scanJournalWithProof superblock c segmentSize proof (.Units ∅) fs (m,d) with
          ⟨o,fs',m',d'⟩
        cases o with
        | ok scan => exact (scan_eq hr).2.2.1
        | err e => trivial
        | lost => trivial
    apply Prog.Triple.bind hscan
    intro scan
    refine Prog.Triple.pure fun s hs => ?_
    simp only [hs,List.map_map]
    rfl
  have ht := hrun fs (m,d) rfl
  rwa [h] at ht

/-- Journal scan soundness for arbitrary directory contents. -/
theorem scan_journal_sound (superblock : Superblock) (c segmentSize : ℕ) (proof : Option DurableProof)
    (replay : ReplayRecords) (fs fs' : List Fault) (m m' : μ) (d d' : Disk) (scan : JournalScan)
    (h : scanJournalWithProof superblock c segmentSize proof replay fs (m,d) =
      (.ok scan,fs',m',d')) :
    ∃ handed : List JournalRecord,
      (scan.replay,scan.replayUnits) = (handed.foldl ReplayRecords.push replay).intoParts ∧
      c ≤ scan.durableSequence ∧
      handed.map JournalRecord.sequence = List.range' (c+1) (scan.durableSequence-c) ∧
      (∀ p, proof = some p → c < p.durableSequence →
        p.durableSequence ≤ scan.durableSequence ∧
        ∃ bytes, d.image (.journalSegment p.segmentIndex) = some bytes ∧
          RecordEndsAt bytes p.durableSequence p.durableSize) ∧
      (∀ s ∈ scan.segments, ∃ bytes, d.image (.journalSegment s.index) = some bytes ∧
        s.size ≤ bytes.length ∧ ScansClean superblock c s (bytes.take s.size)) ∧
      ∀ (gs gs' : List Fault) (n n' : μ) (e : Disk) (summary : JournalSummary),
        summarizeJournal superblock c segmentSize gs (n,d) = (.ok summary,gs',n',e) →
          summary.uncoveredRecords = handed.length := by
  obtain ⟨rfl,rfl,hseg,hholds,hlinked,hdur,-,hparts,hreq⟩ := scan_eq h
  have hseq := replayed_sequences hholds (hseg ▸ hlinked)
  rw [← hseg,← hdur] at hseq
  refine ⟨above c ((keptSegments d').flatMap Prod.snd),hparts,by omega,hseq,?_,?_,?_⟩
  · intro p hp hlt
    obtain ⟨k,hk,hindex,hends⟩ := hreq p hp hlt
    refine ⟨?_,hindex ▸ (hholds k hk).recordEndsAt hends⟩
    -- the required record is above the checkpoint, so it is among those handed on
    obtain ⟨before,r,after,hsplit,hr,-⟩ := hends
    have hmem : r ∈ above c ((keptSegments d').flatMap Prod.snd) := by
      rw [above,List.mem_filter,List.mem_flatMap]
      exact ⟨⟨k,hk,by rw [hsplit]; simp⟩,by simpa [hr] using hlt⟩
    have hrange := List.mem_map_of_mem (f := JournalRecord.sequence) hmem
    rw [hseq,List.mem_range'_1,hr] at hrange
    omega
  · intro s hs
    rw [hseg,List.mem_map] at hs
    obtain ⟨k,hk,rfl⟩ := hs
    obtain ⟨tail,himage⟩ := (hholds k hk).image
    exact ⟨_,himage,((hholds k hk).cut himage).1,(hholds k hk).scansClean himage c⟩
  · intro gs gs' n n' e summary hsum
    rw [summary_eq hsum,length_above hholds]

end Soundness
end Replay

section Sample

/-! A segment with two records and a torn tail, scanned with a proof of the first record. -/

local instance : Crc32 := Crc32.ieee
local instance : DefaultHasher := ⟨fun bs => UInt64.ofNat (leNat bs)⟩

def sampleSuperblock : Superblock :=
  ⟨1,7,"","","",⟨512,512,512,512,64,1024,1048576,65536⟩,1,0⟩

def sampleRecords : List JournalRecord := [⟨1,0,[1,2,3]⟩,⟨2,5,[]⟩]

def sampleSegment : Bytes := (SegmentHeader.mk 4 7 1).encode ++ (encodeAll sampleRecords ++ [9,9])

def sampleDisk : Disk where
  inodes i := if i = 1 then Inode.fromContent sampleSegment else {}
  names p := if p = .journalSegment 4 then ⟨some 1,some 1,0⟩ else {}
  entries := [.journalSegment 4]
  nodup := by decide
  nextInode := 1

@[irreducible] def sampleRun : Outcome RecoveryError JournalScan × List Fault × Unit × Disk :=
  scanJournalWithProof sampleSuperblock 0 4096 (some ⟨1,7,1,4,83⟩) (.All []) [] ((),sampleDisk)

def sampleScan : JournalScan where
  durableSequence := 2
  nextSegmentIndex := 5
  segments := [⟨4,1,2,115⟩]
  replay := sampleRecords
  replayUnits := ∅
  repairs := [.Truncate (.journalSegment 4) 115]
  mark := none
  verifiedPrefixes := [⟨.journalSegment 4,115,UInt64.ofNat (leNat (sampleSegment.take 115))⟩]

theorem scan_journal_sound_torn_tail : sampleRun.1 = .ok sampleScan ∧
    sampleScan.replay.map JournalRecord.sequence = [1,2] ∧
    ∃ bytes, sampleDisk.image (.journalSegment 4) = some bytes ∧ RecordEndsAt bytes 1 83 := by
  have hok : sampleRun.1 = .ok sampleScan := by decide +kernel
  have hrun : scanJournalWithProof sampleSuperblock 0 4096 (some ⟨1,7,1,4,83⟩) (.All []) []
      ((),sampleDisk) = sampleRun := by
    unfold sampleRun
    rfl
  obtain ⟨_,-,-,-,hproof,-,-⟩ := scan_journal_sound sampleSuperblock 0 4096
    (some ⟨1,7,1,4,83⟩) (.All []) [] _ () _ sampleDisk _ sampleScan
    (hrun.trans (Prog.eq_of_outcome sampleRun hok))
  exact ⟨hok,by decide,(hproof _ rfl (by decide)).2⟩

end Sample
end Maki
