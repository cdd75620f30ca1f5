import Maki.JournalScan
import Maki.SegmentSound

/-! Soundness of the journal scan for arbitrary directory contents. The kept segments are a
function of the disk; they link the checkpoint to the durable sequence, so the records
handed to replay are exactly those in between. -/
namespace Maki

open Prog hiding pure bind throw get modify

section Linking

variable {c : ℕ}

@[simp] theorem SegmentInfo.lastSequence_eq (s : SegmentInfo) :
    s.lastSequence = s.baseSequence+s.recordCount-1 := by
  unfold lastSequence
  by_cases h : s.recordCount > 0
  · rw [if_pos h]
  · rw [if_neg h,show s.recordCount = 0 by omega,Nat.add_zero]

def SegmentInfo.sequences (s : SegmentInfo) : List ℕ := List.range' s.baseSequence s.recordCount

/-- The first segment bridges the checkpoint and each further one its predecessor, up to
holes the checkpoint covers. -/
inductive Linked (c : ℕ) : List SegmentInfo → Prop
  | nil : Linked c []
  | first {s : SegmentInfo} (h : s.baseSequence ≤ c+1) : Linked c [s]
  | next {ss : List SegmentInfo} {p s : SegmentInfo} (hp : Linked c (ss ++ [p]))
      (hs : s.baseSequence = p.lastSequence+1 ∨ (p.lastSequence ≤ c ∧ s.baseSequence ≤ c+1)) :
      Linked c (ss ++ [p] ++ [s])

theorem filter_range_of_le {b k : ℕ} (h : b+k ≤ c+1) : (List.range' b k).filter (c < ·) = [] := by
  rw [List.filter_eq_nil_iff]
  intro x hx
  rw [List.mem_range'_1] at hx
  simp only [decide_eq_true_eq]
  omega

theorem filter_range_of_lt {b : ℕ} (k : ℕ) (h : c < b) :
    (List.range' b k).filter (c < ·) = List.range' b k := by
  rw [List.filter_eq_self]
  intro x hx
  rw [List.mem_range'_1] at hx
  simp only [decide_eq_true_eq]
  omega

theorem filter_sequences {s : SegmentInfo} (h : s.baseSequence ≤ c+1) :
    s.sequences.filter (c < ·) = List.range' (c+1) (s.lastSequence-c) := by
  simp only [SegmentInfo.sequences,SegmentInfo.lastSequence_eq]
  generalize s.baseSequence = b at h
  generalize s.recordCount = k
  by_cases hk : b+k ≤ c+1
  · rw [show b+k-1-c = 0 by omega,List.range'_zero,filter_range_of_le hk]
  · have hsplit : List.range' b k = List.range' b (c+1-b) ++ List.range' (c+1) (b+k-1-c) := by
      have ha := List.range'_append_1 (s := b) (m := c+1-b) (n := b+k-1-c)
      rw [show b+(c+1-b) = c+1 by omega,show (c+1-b)+(b+k-1-c) = k by omega] at ha
      exact ha.symm
    rw [hsplit,List.filter_append,filter_range_of_le (by omega),filter_range_of_lt _ (Nat.lt_succ_self c),
      List.nil_append]

theorem filter_sequences_of_gt {s : SegmentInfo} (h : c < s.baseSequence) :
    s.sequences.filter (c < ·) = s.sequences :=
  filter_range_of_lt _ h

theorem length_filter_sequences (s : SegmentInfo) :
    (s.sequences.filter (c < ·)).length = s.uncovered c := by
  by_cases h : s.baseSequence ≤ c+1
  · rw [filter_sequences h,List.length_range',SegmentInfo.uncovered,SegmentInfo.lastSequence_eq]
    omega
  · rw [filter_sequences_of_gt (by omega),SegmentInfo.sequences,List.length_range',
      SegmentInfo.uncovered,SegmentInfo.lastSequence_eq]
    omega

def maxLast (ss : List SegmentInfo) : ℕ := (ss.map SegmentInfo.lastSequence).foldl max 0

theorem maxLast_concat (ss : List SegmentInfo) (s : SegmentInfo) :
    maxLast (ss ++ [s]) = max (maxLast ss) s.lastSequence := by simp [maxLast]

/-- Past the checkpoint only the last segment counts, and the records above the checkpoint
run up to its last one. -/
theorem Linked.replayed {ss : List SegmentInfo} (h : Linked c ss) :
    max c (maxLast ss) = max c ((ss.getLast?.map SegmentInfo.lastSequence).getD 0) ∧
      ss.flatMap (fun s => s.sequences.filter (c < ·)) =
        List.range' (c+1) (max c (maxLast ss)-c) := by
  induction h with
  | nil => simp [maxLast]
  | first h =>
    rename_i s
    have hmax : maxLast [s] = s.lastSequence := by simp [maxLast]
    refine ⟨by rw [hmax]; rfl,?_⟩
    rw [hmax,List.flatMap_singleton,filter_sequences h]
    congr 1
    omega
  | next hp hs ih =>
    rename_i ss p s
    obtain ⟨hlast,hseq⟩ := ih
    simp only [List.getLast?_append,List.getLast?_singleton,Option.some_or,Option.map_some,
      Option.getD_some] at hlast ⊢
    rw [List.flatMap_append,hseq,List.flatMap_singleton,maxLast_concat]
    by_cases hc : p.lastSequence ≤ c
    · -- nothing has been replayed yet
      have hb : s.baseSequence ≤ c+1 := by omega
      rw [filter_sequences hb,show max c (maxLast (ss ++ [p]))-c = 0 by omega,List.range'_zero,
        List.nil_append]
      refine ⟨by omega,?_⟩
      congr 1
      omega
    · have hb : s.baseSequence = p.lastSequence+1 := by omega
      have hl : s.lastSequence = p.lastSequence+s.recordCount := by
        rw [SegmentInfo.lastSequence_eq,hb]
        omega
      have hm : max c (maxLast (ss ++ [p])) = p.lastSequence := by omega
      refine ⟨by omega,?_⟩
      rw [filter_sequences_of_gt (by omega),SegmentInfo.sequences,hb,hm,hl]
      have ha := List.range'_append_1 (s := c+1) (m := p.lastSequence-c) (n := s.recordCount)
      rw [show c+1+(p.lastSequence-c) = p.lastSequence+1 by omega] at ha
      rw [ha]
      congr 1
      omega

end Linking

theorem above_sequences (c : ℕ) (rs : List JournalRecord) :
    (above c rs).map JournalRecord.sequence =
      (rs.map JournalRecord.sequence).filter (c < ·) := by
  rw [above,List.filter_map]
  rfl

section Kept

variable [Crc32]

abbrev KeptSegment := SegmentInfo × List JournalRecord

def keptOf (index : ℕ) (bytes : Bytes) : Option KeptSegment :=
  (SegmentHeader.decode (bytes.take segmentHeaderSize)).toOption.map fun header =>
    let rs := recordsOf header.baseSequence (bytes.drop segmentHeaderSize)
    (⟨index,header.baseSequence,rs.length,segmentHeaderSize+(encodeAll rs).length⟩,rs)

def keptAt (d : Disk) (index : ℕ) : Option KeptSegment :=
  (d.image (.journalSegment index)).bind (keptOf index)

def keptSegments (d : Disk) : List KeptSegment :=
  (segmentIndices (d.list .journal)).filterMap (keptAt d)

/-- The file of a kept segment: a header of this volume, the records and a tail. -/
structure Holds (superblock : Superblock) (d : Disk) (k : KeptSegment) : Prop where
  image : ∃ tail, d.image (.journalSegment k.1.index) = some
    ((SegmentHeader.mk k.1.index superblock.volumeUuid k.1.baseSequence).encode ++
      (encodeAll k.2 ++ tail))
  framed : Framed k.1.baseSequence k.2
  count : k.1.recordCount = k.2.length
  size : k.1.size = segmentHeaderSize+(encodeAll k.2).length
  allowed : ∀ r ∈ k.2, superblock.geometry.Allows r
  bound : k.1.baseSequence+k.1.recordCount < 2^64
  small : k.1.size < 2^64

theorem Holds.sequences {superblock : Superblock} {d : Disk} {k : KeptSegment}
    (h : Holds superblock d k) : k.2.map JournalRecord.sequence = k.1.sequences := by
  rw [h.framed.sequences,SegmentInfo.sequences,h.count]

end Kept

namespace ScanContext

variable {ctx : ScanContext}

theorem checkHeader_ok {w : Walk} {index : ℕ} {header : SegmentHeader} {u : Unit}
    (h : ctx.checkHeader w index header = .ok u) :
    header.volumeUuid = ctx.superblock.volumeUuid ∧ header.segmentIndex = index ∧
      (w.prevLastSeq = none → header.baseSequence ≤ ctx.afterCheckpoint) := by
  unfold checkHeader at h
  by_cases h₁ : header.volumeUuid ≠ ctx.superblock.volumeUuid
  · cases (if_pos h₁).symm.trans h
  by_cases h₂ : header.segmentIndex ≠ index
  · cases (if_pos h₂).symm.trans ((if_neg h₁).symm.trans h)
  by_cases h₃ : w.prevLastSeq = none ∧ header.baseSequence > ctx.afterCheckpoint
  · cases (if_pos h₃).symm.trans ((if_neg h₂).symm.trans ((if_neg h₁).symm.trans h))
  exact ⟨not_not.mp h₁,not_not.mp h₂,fun hn => Nat.not_lt.mp fun hgt => h₃ ⟨hn,hgt⟩⟩

theorem follow_ok {w : Walk} {index base recordCount last : ℕ}
    (h : ctx.follow w index base recordCount = .ok last) :
    base+recordCount < 2^64 ∧ last = base+recordCount-1 ∧ ∀ prev, w.prevLastSeq = some prev →
      base = prev+1 ∨ (prev ≤ ctx.checkpointSequence ∧ base ≤ ctx.afterCheckpoint) := by
  unfold follow checkedAdd at h
  by_cases hlt : base+recordCount < 2^64
  · simp only [if_pos hlt] at h
    cases hp : w.prevLastSeq with
    | none =>
      simp only [hp,Except.ok.injEq] at h
      exact ⟨hlt,h.symm,by simp⟩
    | some prev =>
      simp only [hp] at h
      by_cases hc : base ≠ prev+1 ∧
          ¬ (prev ≤ ctx.checkpointSequence ∧ base ≤ ctx.afterCheckpoint)
      · cases (if_pos hc).symm.trans h
      · rw [if_neg hc,Except.ok.injEq] at h
        refine ⟨hlt,h.symm,?_⟩
        rintro _ ⟨rfl⟩
        by_cases hb : base = prev+1
        · exact .inl hb
        · exact .inr (not_not.mp fun hn => hc ⟨hb,hn⟩)
  · simp only [hlt,if_false,reduceCtorEq] at h

theorem checkLength_ok {isLast : Bool} {index len : ℕ} (h : ctx.checkLength isLast index len = .ok true) :
    len ≤ ctx.maxFileSize ∧ segmentHeaderSize ≤ len := by
  unfold checkLength at h
  by_cases h₁ : len > ctx.maxFileSize
  · cases (if_pos h₁).symm.trans h
  rw [if_neg h₁] at h
  split_ifs at h with h₂ h₃ h₄ <;> cases h
  exact ⟨Nat.not_lt.mp h₁,Nat.not_lt.mp h₃⟩

theorem settleTail_ok {isLast : Bool} {index len size : ℕ} {scanned : SegmentBodyScan}
    {repairs : List JournalRepair} (h : settleTail isLast index len scanned = .ok (size,repairs)) :
    (scanned.outcome = .Clean ∧ (size = segmentHeaderSize+scanned.validBodyBytes ∨
      (size = len ∧ (isLast = true → len-segmentHeaderSize ≤ scanned.validBodyBytes)))) ∨
    ∃ start, scanned.outcome = .TornTail start ∧ size = segmentHeaderSize+start := by
  unfold settleTail at h
  cases ho : scanned.outcome with
  | Clean =>
    left
    simp only [ho] at h
    by_cases hc : isLast = true ∧ scanned.validBodyBytes < len-segmentHeaderSize
    · simp only [if_pos hc,Except.ok.injEq,Prod.mk.injEq] at h
      exact ⟨rfl,.inl h.1.symm⟩
    · simp only [if_neg hc,Except.ok.injEq,Prod.mk.injEq] at h
      exact ⟨rfl,.inr ⟨h.1.symm,fun hl => Nat.not_lt.mp fun hlt => hc ⟨hl,hlt⟩⟩⟩
  | TornTail start =>
    right
    simp only [ho] at h
    cases isLast with
    | false => simp at h
    | true =>
      simp only [if_true,Except.ok.injEq,Prod.mk.injEq] at h
      exact ⟨start,rfl,h.1.symm⟩
  | Corrupt start reason => simp [ho] at h

theorem checkLength_false {isLast : Bool} {len : ℕ}
    (h : ctx.checkLength isLast index len = .ok false) : len < segmentHeaderSize := by
  unfold checkLength at h
  by_cases h₁ : len > ctx.maxFileSize
  · cases (if_pos h₁).symm.trans h
  rw [if_neg h₁] at h
  split_ifs at h with h₂ h₃ h₄ <;> first | exact h₃ | cases h

section Walk

variable [Crc32] {d : Disk} {ixs : List ℕ} {w : Walk} {before now : ReplayRecords}

/-- What the walk over the segments `ixs` has established, and what it has handed on. -/
structure Walked (ctx : ScanContext) (d : Disk) (ixs : List ℕ) (w : Walk)
    (before now : ReplayRecords) : Prop where
  segments : w.segments = (ixs.filterMap (keptAt d)).map Prod.fst
  replay : now = (above ctx.checkpointSequence
    ((ixs.filterMap (keptAt d)).flatMap Prod.snd)).foldl ReplayRecords.push before
  holds : ∀ k ∈ ixs.filterMap (keptAt d), Holds ctx.superblock d k
  linked : Linked ctx.checkpointSequence w.segments
  prev : w.prevLastSeq = w.segments.getLast?.map SegmentInfo.lastSequence
  max : w.maxSeq = maxLast w.segments
  required : w.requiredSeen = true → ∀ p, ctx.required = some p →
    ∃ k ∈ ixs.filterMap (keptAt d), k.1.index = p.segmentIndex ∧
      EndsAt k.2 p.durableSequence (wrappingSub p.durableSize segmentHeaderSize)

theorem Walked.start (d : Disk) (before : ReplayRecords) : Walked ctx d [] {} before before where
  segments := rfl
  replay := rfl
  holds := by simp
  linked := Linked.nil
  prev := rfl
  max := rfl
  required h := by cases h

theorem Walked.noteMark (h : Walked ctx d ixs w before now) (isLast : Bool) (index : ℕ) :
    Walked ctx d ixs (ctx.noteMark isLast index w) before now := by
  unfold ScanContext.noteMark
  cases isLast with
  | false => exact h
  | true => exact ⟨h.segments,h.replay,h.holds,h.linked,h.prev,h.max,h.required⟩

variable {index : ℕ} {bytes : Bytes}

theorem Walked.discard (h : Walked ctx d ixs w before now) (hk : keptAt d index = none) :
    Walked ctx d (ixs ++ [index]) (w.discard index) before now := by
  have hsame : (ixs ++ [index]).filterMap (keptAt d) = ixs.filterMap (keptAt d) := by
    simp [hk]
  exact ⟨by rw [hsame]; exact h.segments,by rw [hsame]; exact h.replay,by rw [hsame]; exact h.holds,
    h.linked,h.prev,h.max,by rw [hsame]; exact h.required⟩

theorem Walked.extend (h : Walked ctx d ixs w before now) {last : ℕ} {k : KeptSegment}
    {w' : Walk} (hafter : ctx.afterCheckpoint = ctx.checkpointSequence+1)
    (hk : keptAt d index = some k) (hh : Holds ctx.superblock d k)
    (hfirst : w.prevLastSeq = none → k.1.baseSequence ≤ ctx.afterCheckpoint)
    (hf : ctx.follow w index k.1.baseSequence k.1.recordCount = .ok last)
    (hreq : ∀ p, ctx.requiredAt index = some p → k.1.index = p.segmentIndex ∧
      EndsAt k.2 p.durableSequence (wrappingSub p.durableSize segmentHeaderSize))
    (hs : w'.segments = w.segments ++ [k.1]) (hp : w'.prevLastSeq = some last)
    (hm : w'.maxSeq = Nat.max w.maxSeq last)
    (hseen : w'.requiredSeen = (w.requiredSeen || (ctx.requiredAt index).isSome)) :
    Walked ctx d (ixs ++ [index]) w' before
      ((above ctx.checkpointSequence k.2).foldl ReplayRecords.push now) := by
  obtain ⟨-,hlast,hcont⟩ := follow_ok hf
  have hlast : last = k.1.lastSequence := by rw [hlast,SegmentInfo.lastSequence_eq]
  have hmap : (ixs ++ [index]).filterMap (keptAt d) = ixs.filterMap (keptAt d) ++ [k] := by
    simp [hk]
  refine ⟨?_,?_,?_,?_,?_,?_,?_⟩
  · rw [hs,h.segments,hmap,List.map_append,List.map_singleton]
  · rw [hmap,List.flatMap_append,above_append,List.foldl_append,← h.replay,List.flatMap_singleton]
  · intro k' hk'
    rw [hmap,List.mem_append,List.mem_singleton] at hk'
    rcases hk' with hk' | rfl
    · exact h.holds k' hk'
    · exact hh
  · rw [hs]
    -- link to the last segment kept so far, if there is one
    rcases List.eq_nil_or_concat w.segments with hnil | ⟨ss,p,hcat⟩
    · have hn : w.prevLastSeq = none := by rw [h.prev,hnil]; rfl
      rw [hnil]
      exact Linked.first (hafter ▸ hfirst hn)
    · have hn : w.prevLastSeq = some p.lastSequence := by rw [h.prev,hcat]; simp
      have hl := h.linked
      rw [hcat,List.concat_eq_append] at hl ⊢
      exact Linked.next hl (by have := hcont _ hn; rwa [hafter] at this)
  · rw [hp,hs,hlast]
    simp
  · rw [hm,hs,maxLast_concat,h.max,hlast]
  · intro hsn p hpr
    rw [hseen,Bool.or_eq_true] at hsn
    rcases hsn with hold | hnew
    · obtain ⟨k',hk',hi⟩ := h.required hold p hpr
      exact ⟨k',by rw [hmap]; simp [hk'],hi⟩
    · have hpa : ctx.requiredAt index = some p := by
        unfold ScanContext.requiredAt at hnew ⊢
        rw [hpr] at hnew ⊢
        simpa [Option.isSome_filter] using hnew
      exact ⟨k,by rw [hmap]; simp,hreq p hpa⟩

theorem keptAt_of_error {e : FormatError}
    (himage : d.image (.journalSegment index) = some bytes)
    (hd : SegmentHeader.decode (bytes.take segmentHeaderSize) = .error e) :
    keptAt d index = none := by
  rw [keptAt,himage,Option.bind_some,keptOf,hd]
  rfl

theorem keptAt_of_short
    (himage : d.image (.journalSegment index) = some bytes)
    (hlen : bytes.length < segmentHeaderSize) : keptAt d index = none := by
  apply keptAt_of_error himage
  rw [SegmentHeader.decode,if_pos (by rw [List.length_take]; omega)]

variable [DefaultHasher]

/-- Nothing is claimed of a walk that fails, and a loss of power leaves nothing behind. -/
abbrev walkErr : RecoveryError → ReplayRecords × Disk → Prop := fun _ _ => True
abbrev walkLost : ReplayRecords × Disk → Prop := fun _ => True

omit [Crc32] [DefaultHasher] in
theorem pushRecord_triple (d : Disk) (start : ReplayRecords) (rs : List JournalRecord)
    (r : JournalRecord) :
    Triple (· = (rs.foldl ReplayRecords.push start,d)) (pushRecord r)
      (fun _ s => s = ((rs ++ [r]).foldl ReplayRecords.push start,d)) walkErr walkLost := by
  apply Triple.modify
  rintro _ rfl
  simp

section Body

variable {isLast : Bool} {index size : ℕ} {file : InodeId} {header : SegmentHeader}
  {bytes headerBytes : Bytes} {rs : List JournalRecord} {scanned : SegmentBodyScan}
  {repairs : List JournalRepair}

omit [Crc32] [DefaultHasher] in
theorem scanner_body : (ctx.scanner isLast index file bytes.length headerBytes header).body bytes =
    bytes.drop segmentHeaderSize := List.take_of_length_le (by simp [scanner])

/-- A scan that is settled found all records of the file, and the segment ends behind them. -/
theorem settled_records
    (hr : (ctx.scanner isLast index file bytes.length headerBytes header).Scanned bytes rs scanned)
    (ht : settleTail isLast index bytes.length scanned = .ok (size,repairs))
    (hlen : segmentHeaderSize ≤ bytes.length) :
    recordsOf header.baseSequence (bytes.drop segmentHeaderSize) = rs ∧
      size = segmentHeaderSize+(encodeAll rs).length := by
  have hnc : ¬ scanned.outcome.IsCorrupt := by
    rcases settleTail_ok ht with ⟨ho,-⟩ | ⟨start,ho,-⟩ <;> rw [ho] <;> exact id
  have hend := hr.ended hnc
  have hvl : scanned.validBodyBytes ≤ bytes.length-segmentHeaderSize := by
    have hl := congrArg List.length hr.body
    rw [List.length_append,← hr.valid,scanner_body,List.length_drop] at hl
    omega
  constructor
  · have hrecords := recordsOf_eq hr.framed hr.body hend.rest
    rwa [scanner_body] at hrecords
  · rw [← hr.valid]
    rcases settleTail_ok ht with ⟨ho,hs | ⟨hs,hl⟩⟩ | ⟨start,ho,hs⟩
    · exact hs
    · -- a segment kept whole: its durable prefix is the whole body, or it is the last one
      have hge : bytes.length-segmentHeaderSize ≤ scanned.validBodyBytes := by
        cases isLast with
        | true => exact hl rfl
        | false => exact hend.durable.elim (fun he => Nat.le_of_eq he.symm) id
      omega
    · rw [hs,hend.torn start ho]

theorem kept_of_scanned (hv : d.volatile (.journalSegment index) = some file)
    (hi : (d.inodes file).image = bytes) (hlen : segmentHeaderSize ≤ bytes.length)
    (hb : headerBytes = bytes.take segmentHeaderSize) (hd : SegmentHeader.decode headerBytes = .ok header)
    (huuid : header.volumeUuid = ctx.superblock.volumeUuid) (hindex : header.segmentIndex = index)
    (hr : (ctx.scanner isLast index file bytes.length headerBytes header).Scanned bytes rs scanned)
    (ht : settleTail isLast index bytes.length scanned = .ok (size,repairs))
    (hbound : header.baseSequence+scanned.recordCount < 2^64) (hsmall : bytes.length < 2^64) :
    keptAt d index = some (⟨index,header.baseSequence,scanned.recordCount,size⟩,rs) ∧
      Holds ctx.superblock d (⟨index,header.baseSequence,scanned.recordCount,size⟩,rs) := by
  obtain ⟨hrecords,hsize⟩ := settled_records hr ht hlen
  have himage : d.image (.journalSegment index) = some bytes := by simp [Disk.image,hv,hi]
  constructor
  · rw [keptAt,himage,Option.bind_some,keptOf,← hb,hd]
    simp only [Except.toOption,Option.map_some,hrecords,hr.count,hsize]
  · have hhb := ((SegmentHeader.decode_ok (by rw [hb,List.length_take]; omega)).mp hd).2
    have hheader : SegmentHeader.mk index ctx.superblock.volumeUuid header.baseSequence = header := by
      rw [← huuid,← hindex]
    have hsplit := hr.body
    rw [scanner_body] at hsplit
    refine ⟨⟨(bytes.drop segmentHeaderSize).drop scanned.validBodyBytes,?_⟩,hr.framed,hr.count,hsize,
      hr.allowed,hbound,?_⟩
    · simp only [himage,hheader,← hhb,hb,← hsplit,List.take_append_drop]
    · have hl := congrArg List.length hsplit
      rw [List.length_append,List.length_drop] at hl
      change size < 2^64
      omega

theorem scanBody_triple (h : Walked ctx d ixs w before now)
    (hafter : ctx.afterCheckpoint = ctx.checkpointSequence+1)
    (hv : d.volatile (.journalSegment index) = some file) (hi : (d.inodes file).image = bytes)
    (hlen : segmentHeaderSize ≤ bytes.length) (hsmall : bytes.length < 2^64)
    (hb : headerBytes = bytes.take segmentHeaderSize)
    (hd : SegmentHeader.decode headerBytes = .ok header) :
    Triple (· = (now,d))
      (ctx.scanBody isLast index w file bytes.length headerBytes header)
      (fun w' s => s.2 = d ∧ Walked ctx d (ixs ++ [index]) w' before s.1) walkErr walkLost := by
  refine .ofExcept_bind ?_ (fun _ _ _ _ => trivial)
  intro u hu
  obtain ⟨huuid,hindex,hfirst⟩ := checkHeader_ok hu
  have hscan : Triple (· = (now,d))
      ((ctx.scanner isLast index file bytes.length headerBytes header).scan pushRecord)
      (fun out s => ∃ rs, (ctx.scanner isLast index file bytes.length headerBytes header).Scanned
        bytes rs out ∧ s = ((above ctx.checkpointSequence rs).foldl ReplayRecords.push now,d))
      walkErr walkLost :=
    SegmentScanner.scan_triple (J := fun rs s => s = (rs.foldl ReplayRecords.push now,d))
      (by simp only [scanner]; omega) (fun _ _ hs => by rw [hs]; exact hi) (pushRecord_triple d now)
      (fun _ _ _ _ => trivial) (fun _ _ _ => trivial)
  apply Triple.bind hscan
  intro scanned
  apply Triple.ofEach
  rintro _ ⟨rs,hr,rfl⟩
  refine .ofExcept_bind ?_ (fun _ _ _ _ => trivial)
  rintro ⟨size,repairs⟩ ht
  refine .ofExcept_bind ?_ (fun _ _ _ _ => trivial)
  intro last hf
  obtain ⟨hk,hh⟩ := kept_of_scanned hv hi hlen hb hd huuid hindex hr ht (follow_ok hf).1
    hsmall
  refine .pure ?_
  rintro _ rfl
  refine ⟨rfl,h.extend hafter hk hh hfirst hf ?_ rfl rfl rfl rfl⟩
  intro p hp
  have hsegment : p.segmentIndex = index := by simpa using (Option.filter_eq_some_iff.mp hp).2
  refine ⟨hsegment.symm,hr.boundary _ _ ?_⟩
  rw [scanner,hp]
  rfl

end Body

theorem scanHeader_triple (h : Walked ctx d ixs w before now) {isLast : Bool}
    {file : InodeId} (hafter : ctx.afterCheckpoint = ctx.checkpointSequence+1)
    (hv : d.volatile (.journalSegment index) = some file) (hi : (d.inodes file).image = bytes)
    (hlen : segmentHeaderSize ≤ bytes.length) (hsmall : bytes.length < 2^64) :
    Triple (· = (now,d)) (ctx.scanHeader isLast index w file bytes.length)
      (fun w' s => s.2 = d ∧ Walked ctx d (ixs ++ [index]) w' before s.1) walkErr walkLost := by
  apply (Io.Checks.readAt file 0 segmentHeaderSize).recoveryIo.bind_triple
    (fun _ => trivial) trivial
  intro headerBytes hread
  have hb : headerBytes = bytes.take segmentHeaderSize := by
    rw [hi,if_pos (by omega)] at hread
    exact (Except.ok.inj hread).symm
  cases hd : SegmentHeader.decode headerBytes with
  | ok header => simpa only [hd] using scanBody_triple h hafter hv hi hlen hsmall hb hd
  | error e =>
    have himage : d.image (.journalSegment index) = some bytes := by simp [Disk.image,hv,hi]
    have hk := keptAt_of_error himage (hb ▸ hd)
    simp only [discardZeroed]
    by_cases hc : isLast = true ∧ ctx.markedDurable index = none
    · rw [if_pos hc]
      apply (rangeIsZero_checks file _ _).recoveryIo.bind_triple
        (fun _ => trivial) trivial
      intro zero _
      cases zero with
      | true => exact .pure fun s hs => hs ▸ ⟨rfl,h.discard hk⟩
      | false => exact .throw fun _ _ => trivial
    · rw [if_neg hc]
      exact .throw fun _ _ => trivial

theorem scanFile_triple (h : Walked ctx d ixs w before now) (isLast : Bool) (index : ℕ)
    (hafter : ctx.afterCheckpoint = ctx.checkpointSequence+1) (hmax : ctx.maxFileSize < 2^64) :
    Triple (· = (now,d)) (ctx.scanFile isLast index w)
      (fun w' s => s.2 = d ∧ Walked ctx d (ixs ++ [index]) w' before s.1) walkErr walkLost := by
  have hopen : Triple (· = (now,d))
      (recoveryIo (Io.openFile (.journalSegment index) false))
      (fun file s => s = (now,d) ∧ d.volatile (.journalSegment index) = some file)
      walkErr walkLost := by
    apply Triple.mapErr
    apply Io.openFile_triple
    · rintro m e i ⟨⟩ hv
      exact ⟨rfl,hv⟩
    · rintro m e - - hc
      cases hc
    · exact fun _ _ _ _ _ => trivial
    · exact fun _ _ => trivial
    · exact fun _ _ => trivial
  apply Triple.bind hopen
  intro file
  apply Triple.ofEach
  rintro _ ⟨rfl,hv⟩
  apply (Io.Reads.len file).recoveryIo.bind_triple (fun _ => trivial) trivial
  refine .ofExcept_bind ?_ (fun _ _ _ _ => trivial)
  intro present hp
  cases present with
  | true =>
    obtain ⟨hle,hlen⟩ := checkLength_ok hp
    exact scanHeader_triple (h.noteMark isLast index) hafter hv rfl hlen (Nat.lt_of_le_of_lt hle hmax)
  | false =>
    have himage : d.image (.journalSegment index) = some (d.inodes file).image := by
      simp [Disk.image,hv]
    have hk := keptAt_of_short himage (checkLength_false hp)
    exact .pure fun s hs => hs ▸ ⟨rfl,(h.noteMark isLast index).discard hk⟩

theorem walk_triple (rest : List ℕ) (h : Walked ctx d ixs w before now)
    (hafter : ctx.afterCheckpoint = ctx.checkpointSequence+1) (hmax : ctx.maxFileSize < 2^64) :
    Triple (· = (now,d)) (ctx.walk rest w)
      (fun w' s => s.2 = d ∧ Walked ctx d (ixs ++ rest) w' before s.1) walkErr walkLost := by
  induction rest generalizing ixs w now with
  | nil =>
    refine .pure fun s hs => ?_
    rw [List.append_nil]
    exact hs ▸ ⟨rfl,h⟩
  | cons index rest ih =>
    apply Triple.bind (scanFile_triple h rest.isEmpty index hafter hmax)
    intro w'
    apply Triple.ofEach
    rintro ⟨now',_⟩ ⟨rfl,hw⟩
    have hrest := ih hw
    rwa [List.append_assoc] at hrest

end Walk

theorem finish_ok {w : Walk} {replay : ReplayRecords} {scan : JournalScan}
    (h : ctx.finish w replay = .ok scan) :
    (ctx.required.isSome = true → w.requiredSeen = true) ∧
      scan.durableSequence = max ctx.checkpointSequence w.maxSeq ∧ scan.segments = w.segments ∧
      (scan.replay,scan.replayUnits) = replay.intoParts ∧
      ctx.nextIndex w.segments = .ok scan.nextSegmentIndex := by
  unfold finish at h
  by_cases hc : ctx.required.isSome ∧ w.requiredSeen = false
  · cases (if_pos hc).symm.trans h
  rw [if_neg hc] at h
  obtain ⟨next,hn,h⟩ := bind_eq_ok h
  cases h
  refine ⟨fun hr => ?_,rfl,rfl,rfl,hn⟩
  cases hs : w.requiredSeen with
  | true => rfl
  | false => exact absurd ⟨hr,hs⟩ hc

theorem index_lt_of_nextIndex {ss : List SegmentInfo} {next : ℕ} (h : ctx.nextIndex ss = .ok next)
    {s : SegmentInfo} (hs : s ∈ ss) : s.index < next := by
  have hmem : s.index ∈ ctx.knownIndices ss := by
    simp only [knownIndices,List.mem_append,List.mem_map]
    exact .inl (.inl ⟨s,hs,rfl⟩)
  unfold nextIndex at h
  cases hm : (ctx.knownIndices ss).max? with
  | none =>
    rw [List.max?_eq_none_iff] at hm
    rw [hm] at hmem
    cases hmem
  | some highest =>
    have hle : s.index ≤ highest := (List.max?_le_iff hm).mp (Nat.le_refl _) _ hmem
    simp only [hm,checkedAdd] at h
    by_cases hlt : highest+1 < 2^64
    · simp only [if_pos hlt,Except.ok.injEq] at h
      omega
    · simp only [hlt,if_false,reduceCtorEq] at h

end ScanContext

section Result

variable {μ : Type} [Crc32]

def durableMarkAt (d : Disk) : Option DurableMark :=
  (d.image .journalDurableMark).bind fun bytes =>
    if bytes.length < durableMarkSize then none
    else (DurableMark.decode (bytes.take durableMarkSize)).toOption

theorem loadDurableMark_reads :
    Io.Reads (loadDurableMark : Io μ RecoveryError _) durableMarkAt := by
  let rest (i : InodeId) (n : ℕ) (d : Disk) : Except RecoveryError (Option DurableMark) :=
    if n < durableMarkSize then .ok none
    else .ok ((if 0+durableMarkSize ≤ (d.inodes i).image.length then
      some (((d.inodes i).image.drop 0).take durableMarkSize) else none).bind fun bytes =>
        (DurableMark.decode bytes).toOption)
  let found (bs : Bytes) : Except RecoveryError (Option DurableMark) :=
    .ok (if bs.length < durableMarkSize then none else (DurableMark.decode (bs.take durableMarkSize)).toOption)
  refine (Io.Checks.congr (p := loadDurableMark) (Io.Checks.opened (r := rest) (g := found)
    (fun i n => ?_) fun i d => ?_) fun d => ?_).reads
  · by_cases hn : n < durableMarkSize
    · simpa only [rest,if_pos hn] using .ofReads (.pure none)
    · simpa only [rest,if_neg hn] using
        .ofReads ((Io.Reads.readAt i 0 durableMarkSize).recoveryIo.bind fun _ => .pure _)
  · by_cases hn : (d.inodes i).image.length < durableMarkSize
    · simp only [rest,found,if_pos hn]
    · simp [rest,found,if_neg hn,Nat.not_lt.mp hn]
  · cases hi : d.image .journalDurableMark <;> simp [durableMarkAt,hi,found]

variable [DefaultHasher] {superblock : Superblock} {c segmentSize : ℕ} {proof : Option DurableProof}
  {replay : ReplayRecords} {m : μ} {d : Disk}

/-- A scan reads only, and its result is that of a finished walk over all segments. -/
theorem scan_walked :
    Returns (· = (m,d)) (scanJournalWithProof superblock c segmentSize proof replay)
      (fun scan s => s = (m,d) ∧ ∃ ctx w now, ctx.superblock = superblock ∧
        ctx.checkpointSequence = c ∧ ctx.proof = proof ∧
        ScanContext.Walked ctx d (segmentIndices (d.list .journal)) w replay now ∧
        ctx.finish w now = .ok scan) := by
  unfold scanJournalWithProof checkedAdd
  by_cases hlt : c+1 < 2^64
  · simp only [if_pos hlt]
    apply loadDurableMark_reads.bind_triple (fun _ => trivial) trivial
    apply (Io.Reads.list .journal).recoveryIo.bind_triple (fun _ => trivial) trivial
    set ctx : ScanContext := ⟨superblock,c,c+1,max (maxSegmentFileSize segmentSize)
      maxJournalSegmentFileSize,durableMarkAt d,proof⟩
    have hmax : ctx.maxFileSize < 2^64 :=
      Nat.max_lt.mpr ⟨maxSegmentFileSize_lt _,maxSegmentFileSize_lt _⟩
    have hstart : ScanContext.Walked ctx d [] {} replay replay := ScanContext.Walked.start d replay
    have hwalk := ScanContext.walk_triple (segmentIndices (d.list .journal)) hstart rfl hmax
    have hlocal : Returns (· = (m,d))
        (Io.withLocal replay (ctx.walk (segmentIndices (d.list .journal)) {}))
        (fun r s => s = (m,d) ∧ ScanContext.Walked ctx d (segmentIndices (d.list .journal)) r.1 replay r.2) := by
      apply Io.withLocal_triple
      refine hwalk.weaken ?_ (fun _ _ _ => trivial) (fun _ _ => trivial)
      rintro w ⟨now,_⟩ ⟨rfl,hw⟩
      exact ⟨rfl,hw⟩
    apply Triple.bind hlocal
    rintro ⟨w,now⟩
    refine .ofExcept ?_ (fun _ _ _ _ => trivial)
    rintro scan _ hf ⟨rfl,hw⟩
    exact ⟨rfl,ctx,w,now,rfl,rfl,rfl,hw,hf⟩
  · simp only [hlt,if_false]
    exact .throw _

end Result
end Maki
