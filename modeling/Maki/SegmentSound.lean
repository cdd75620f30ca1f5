import Maki.SegmentScan

/-! What a scan of one segment body establishes. The records accepted so far are a prefix
of the body's bytes, framed, consecutive and allowed by the geometry; unless the body is
corrupt the scan ends where no further record stands. A body of records alone scans clean. -/
namespace Maki

open Prog hiding pure bind throw get modify

def ScanOutcome.IsCorrupt : ScanOutcome → Prop
  | .Corrupt _ _ => True
  | _ => False

def Geometry.Allows (g : Geometry) (r : JournalRecord) : Prop :=
  r.unitIndex < g.numUnits ∧ r.payload.length ≤ g.maxCiphertextSize

def above (c : ℕ) (rs : List JournalRecord) : List JournalRecord :=
  rs.filter fun r => c < r.sequence

theorem above_append (c : ℕ) (rs ts : List JournalRecord) :
    above c (rs ++ ts) = above c rs ++ above c ts := List.filter_append ..

variable [Crc32]

/-- The record with this sequence ends `stop` bytes after the first one starts. -/
def EndsAt (rs : List JournalRecord) (sequence stop : ℕ) : Prop :=
  ∃ before r after, rs = before ++ r::after ∧ r.sequence = sequence ∧
    (encodeAll (before ++ [r])).length = stop

theorem EndsAt.append {rs : List JournalRecord} {sequence stop : ℕ} (h : EndsAt rs sequence stop)
    (ts : List JournalRecord) : EndsAt (rs ++ ts) sequence stop := by
  obtain ⟨before,r,after,rfl,hs,hl⟩ := h
  exact ⟨before,r,after ++ ts,by simp,hs,hl⟩

namespace SegmentScanner

variable (sc : SegmentScanner)

def body (image : Bytes) : Bytes := (image.drop segmentHeaderSize).take sc.bodyLen

omit [Crc32] in
theorem length_body {image : Bytes} (h : segmentHeaderSize+sc.bodyLen ≤ image.length) :
    (sc.body image).length = sc.bodyLen := by
  rw [body,List.length_take,List.length_drop]
  omega

variable {position : ℕ} {h : RecordHeader}

omit [Crc32] in
theorem range_body {image : Bytes} {n : ℕ} (h : position+n ≤ sc.bodyLen) :
    (image.drop (segmentHeaderSize+position)).take n = ((sc.body image).drop position).take n := by
  rw [body,List.drop_take,List.drop_drop,List.take_take,Nat.min_eq_left (by omega)]

/-- The scanner has accepted `rs` and stands behind them. -/
structure Reached (image : Bytes) (rs : List JournalRecord) (st : ScanState) : Prop where
  body : sc.body image = encodeAll rs ++ (sc.body image).drop st.position
  position : st.position = (encodeAll rs).length
  framed : Framed sc.firstSequence rs
  count : st.recordCount = rs.length
  allowed : ∀ r ∈ rs, sc.geometry.Allows r
  hashed : st.hashed = sc.header ++ encodeAll rs
  boundary : st.boundarySeen = true → ∀ sequence stop,
    sc.requiredBoundary = some (sequence,stop) → EndsAt rs sequence stop

/-- The scan ended behind `rs`, at `position`, without finding corruption. -/
structure Ended (image : Bytes) (rs : List JournalRecord) (position : ℕ) (outcome : ScanOutcome) :
    Prop where
  rest : recordAt (sc.firstSequence+rs.length) ((sc.body image).drop position) = none
  clean : outcome = .Clean → ((sc.body image).drop position).all (· == 0)
  torn : ∀ start, outcome = .TornTail start → start = position
  durable : position = sc.bodyLen ∨ sc.durableLen ≤ position

variable {sc} {image : Bytes} {rs : List JournalRecord} {st : ScanState}

theorem Reached.start : sc.Reached image [] ⟨0,0,0,false,sc.header⟩ where
  body := by simp
  position := rfl
  framed := Framed.nil
  count := rfl
  allowed := by simp
  hashed := by simp
  boundary h := by cases h

theorem Reached.readEnd (h : sc.Reached image rs st) (n : ℕ) :
    sc.Reached image rs { st with readEnd := n } :=
  ⟨h.body,h.position,h.framed,h.count,h.allowed,h.hashed,h.boundary⟩

theorem recordAt_of_decode (expected : ℕ) {rem : Bytes}
    (hd : RecordHeader.decode (rem.take recordHeaderSize) = some h) :
    recordAt expected rem =
      if h.payloadLen ≤ maxPayload ∧ h.sequence = expected ∧
          recordHeaderSize+h.payloadLen ≤ rem.length ∧
          (Crc32.hash ((rem.drop recordHeaderSize).take h.payloadLen)).toNat = h.payloadCrc then
        some ⟨h.sequence,h.unit,(rem.drop recordHeaderSize).take h.payloadLen⟩ else none := by
  simp only [recordAt,hd,Option.bind_some]

/-- A record's header and payload stand where the scanner reads them. -/
theorem recordAt_parts {expected : ℕ} {rem : Bytes} {r : JournalRecord}
    (h : recordAt expected rem = some r) :
    rem.take recordHeaderSize = r.header.encode ∧
      (rem.drop recordHeaderSize).take r.header.payloadLen = r.payload := by
  obtain ⟨-,-,hrest⟩ := recordAt_sound h
  refine ⟨?_,?_⟩
  · rw [hrest,encodeRecord,List.append_assoc,List.take_append_of_le_length (by simp),
      List.take_of_length_le (by simp)]
  · rw [hrest,encodeRecord,List.append_assoc,← r.header.length_encode,List.drop_left]
    exact List.take_left

omit [Crc32] in
/-- The framing checks end a scan without corruption only at a truncated record. -/
theorem frame_some {outcome : ScanOutcome}
    (hf : sc.frame st h = .ok (.stop outcome)) (ho : ¬ outcome.IsCorrupt) :
    outcome = .TornTail st.position ∧ sc.durableLen ≤ st.position ∧
      sc.bodyLen-st.position < recordHeaderSize+h.payloadLen := by
  unfold frame checkedAdd at hf
  by_cases h₁ : h.payloadLen > maxPayload
  · rw [if_pos h₁] at hf
    cases hf
    exact absurd trivial ho
  rw [if_neg h₁] at hf
  by_cases hlt : sc.firstSequence+st.recordCount < 2^64
  · simp only [if_pos hlt] at hf
    by_cases h₂ : h.sequence ≠ sc.firstSequence+st.recordCount
    · rw [if_pos h₂] at hf
      cases hf
      exact absurd trivial ho
    rw [if_neg h₂] at hf
    by_cases h₃ : recordHeaderSize+h.payloadLen > sc.bodyLen-st.position
    · rw [dif_pos h₃] at hf
      cases hf
      by_cases hd : sc.inDurable st.position = true
      · simp only [damage,hd,if_true] at ho
        exact absurd trivial ho
      · simp only [inDurable,decide_eq_true_eq,Nat.not_lt] at hd
        exact ⟨by simp [damage,inDurable,Nat.not_lt.mpr hd],hd,h₃⟩
    · simp only [dif_neg h₃,Except.ok.injEq,reduceCtorEq] at hf
  · simp only [if_neg hlt,reduceCtorEq] at hf

omit [Crc32] in
theorem damage_cases (position : ℕ) (reason : String) (h : ¬ (sc.damage position reason).IsCorrupt) :
    sc.damage position reason = .TornTail position ∧ sc.durableLen ≤ position := by
  by_cases hd : sc.inDurable position = true
  · simp only [damage,hd,if_true] at h
    exact absurd trivial h
  · simp only [inDurable,decide_eq_true_eq,Nat.not_lt] at hd
    exact ⟨by simp [damage,inDurable,Nat.not_lt.mpr hd],hd⟩

omit [Crc32] in
theorem check_ok {stop : ℕ} {seen seen' : Bool}
    (hc : sc.check h stop seen = .ok seen') :
    h.unit < sc.geometry.numUnits ∧ h.payloadLen ≤ sc.geometry.maxCiphertextSize ∧
      (seen' = true → seen = true ∨
        ∀ sequence required, sc.requiredBoundary = some (sequence,required) →
          h.sequence = sequence ∧ stop = required) := by
  unfold check at hc
  by_cases h₁ : h.unit ≥ sc.geometry.numUnits
  · cases (if_pos h₁).symm.trans hc
  rw [if_neg h₁] at hc
  by_cases h₂ : h.payloadLen > sc.geometry.maxCiphertextSize
  · cases (if_pos h₂).symm.trans hc
  rw [if_neg h₂] at hc
  refine ⟨Nat.not_le.mp h₁,Nat.not_lt.mp h₂,?_⟩
  cases hb : sc.requiredBoundary with
  | none =>
    simp only [hb,Except.ok.injEq] at hc
    exact fun hs => .inl (hc.trans hs)
  | some b =>
    obtain ⟨sequence,required⟩ := b
    simp only [hb] at hc
    by_cases h₃ : h.sequence = sequence
    · rw [if_pos h₃] at hc
      by_cases h₄ : stop ≠ required
      · cases (if_pos h₄).symm.trans hc
      · intro _
        right
        rintro _ _ ⟨rfl,rfl⟩
        exact ⟨h₃,not_not.mp h₄⟩
    · rw [if_neg h₃,Except.ok.injEq] at hc
      exact fun hs => .inl (hc.trans hs)

theorem Ended.ofTorn (hdur : sc.durableLen ≤ position)
    (hat : recordAt (sc.firstSequence+rs.length) ((sc.body image).drop position) = none) :
    sc.Ended image rs position (.TornTail position) :=
  ⟨hat,by simp,fun _ h => (ScanOutcome.TornTail.inj h).symm,.inr hdur⟩

theorem Ended.ofUndecodable {zero : Bool}
    (hd : RecordHeader.decode (((sc.body image).drop position).take recordHeaderSize) = none)
    (hzero : zero = ((sc.body image).drop position).all (· == 0))
    (ho : ¬ (sc.undecodable position zero).IsCorrupt) :
    sc.Ended image rs position (sc.undecodable position zero) := by
  have hat : recordAt (sc.firstSequence+rs.length) ((sc.body image).drop position) = none := by
    rw [recordAt,hd]
    rfl
  by_cases hdur : sc.inDurable position = true
  · simp only [undecodable,hdur,if_true] at ho
    exact absurd trivial ho
  have hle : sc.durableLen ≤ position := by
    simpa only [inDurable,decide_eq_true_eq,Nat.not_lt] using hdur
  cases zero with
  | true =>
    have hclean : sc.undecodable position true = .Clean := by simp [undecodable,hdur]
    rw [hclean]
    exact ⟨hat,fun _ => hzero.symm,by simp,.inr hle⟩
  | false =>
    have htorn : sc.undecodable position false = .TornTail position := by simp [undecodable,hdur]
    rw [htorn]
    exact Ended.ofTorn hle hat

theorem Reached.length_rest (hr : sc.Reached image rs st)
    (hlen : segmentHeaderSize+sc.bodyLen ≤ image.length) :
    st.position ≤ sc.bodyLen ∧ ((sc.body image).drop st.position).length = sc.bodyLen-st.position := by
  have hbl := sc.length_body hlen
  have hl := congrArg List.length hr.body
  rw [hbl,List.length_append,← hr.position] at hl
  rw [List.length_drop,hbl]
  omega

/-- An accepted record: a decoded header that fits and a payload of the right CRC. -/
theorem Reached.recordAt_some (hr : sc.Reached image rs st)
    (hlen : segmentHeaderSize+sc.bodyLen ≤ image.length)
    (hd : RecordHeader.decode (((sc.body image).drop st.position).take recordHeaderSize) = some h)
    {hfit : recordHeaderSize+h.payloadLen ≤ sc.bodyLen-st.position}
    (hf : sc.frame st h = .ok (.record hfit)) {payload : Bytes}
    (hpay : payload = (((sc.body image).drop st.position).drop recordHeaderSize).take h.payloadLen)
    (hcrc : (Crc32.hash payload).toNat = h.payloadCrc) :
    payload.length = h.payloadLen ∧
      recordAt (sc.firstSequence+rs.length) ((sc.body image).drop st.position) =
        some ⟨h.sequence,h.unit,payload⟩ := by
  obtain ⟨hmax,hseq,-⟩ := (sc.frame_record_iff hfit).mp hf
  have hrem := (hr.length_rest hlen).2
  refine ⟨?_,?_⟩
  · rw [hpay,List.length_take,List.length_drop]
    omega
  · rw [recordAt_of_decode _ hd,← hpay]
    exact if_pos ⟨hmax,by rw [hseq,hr.count],by omega,hcrc⟩

theorem Reached.concat (hr : sc.Reached image rs st) {payload : Bytes}
    {seen : Bool} {bytes : Bytes} (hbytes : bytes = ((sc.body image).drop st.position).take recordHeaderSize)
    (hat : recordAt (sc.firstSequence+rs.length) ((sc.body image).drop st.position) =
      some ⟨h.sequence,h.unit,payload⟩)
    (hpay : payload = (((sc.body image).drop st.position).drop recordHeaderSize).take h.payloadLen)
    (hlen : payload.length = h.payloadLen)
    (hc : sc.check h (st.position+(recordHeaderSize+h.payloadLen)) st.boundarySeen = .ok seen) :
    sc.Reached image (rs ++ [⟨h.sequence,h.unit,payload⟩])
      ⟨st.position+(recordHeaderSize+h.payloadLen),st.recordCount+1,
        st.position+(recordHeaderSize+h.payloadLen),seen,st.hashed ++ (bytes ++ payload)⟩ := by
  obtain ⟨hs,hfit,hrem⟩ := recordAt_sound hat
  obtain ⟨hu,hp,hseen⟩ := check_ok hc
  simp only [hlen] at hrem
  have hrec : bytes ++ payload = encodeRecord ⟨h.sequence,h.unit,payload⟩ := by
    have hsum : bytes ++ payload =
        ((sc.body image).drop st.position).take (recordHeaderSize+h.payloadLen) := by
      rw [hbytes,hpay,List.take_add]
    rw [hsum,hrem,List.take_append_of_le_length (by simp [hlen]),
      List.take_of_length_le (by simp [hlen])]
  have hstop : st.position+(recordHeaderSize+h.payloadLen) =
      (encodeAll (rs ++ [⟨h.sequence,h.unit,payload⟩])).length := by
    simp [hr.position,hlen]
  refine ⟨?_,hstop,hr.framed.concat hfit hs,by simp [hr.count],?_,by simp [hr.hashed,hrec],?_⟩
  · rw [List.drop_drop] at hrem
    simpa using hr.body.trans (congrArg (encodeAll rs ++ ·) hrem)
  · exact forall_mem_concat hr.allowed ⟨hu,hlen ▸ hp⟩
  · intro hst sequence stop hb
    rcases hseen hst with hold | hnew
    · exact (hr.boundary hold sequence stop hb).append _
    · obtain ⟨hq,hstop'⟩ := hnew sequence stop hb
      exact ⟨rs,_,[],rfl,hq,hstop.symm.trans hstop'⟩

omit [Crc32] in
theorem check_of_allows (hnone : sc.requiredBoundary = none)
    (hunit : h.unit < sc.geometry.numUnits) (hsize : h.payloadLen ≤ sc.geometry.maxCiphertextSize)
    (stop : ℕ) (seen : Bool) : sc.check h stop seen = .ok seen := by
  simp only [check,hnone,if_neg (Nat.not_le.mpr hunit),if_neg (Nat.not_lt.mpr hsize)]

/-- The record that stands next, when the geometry allows it and no boundary is required. -/
theorem Reached.concat_record (hr : sc.Reached image rs st) {r : JournalRecord}
    (hnone : sc.requiredBoundary = none)
    (hat : recordAt (sc.firstSequence+rs.length) ((sc.body image).drop st.position) = some r)
    (hall : sc.geometry.Allows r) :
    sc.Reached image (rs ++ [r])
      ⟨st.position+(recordHeaderSize+r.payload.length),st.recordCount+1,
        st.position+(recordHeaderSize+r.payload.length),st.boundarySeen,
        st.hashed ++ encodeRecord r⟩ := by
  obtain ⟨hheader,hpay⟩ := recordAt_parts hat
  exact hr.concat hheader.symm hat hpay.symm rfl (check_of_allows hnone hall.1 hall.2 _ _)

section Loop

variable {μ : Type} {accept : JournalRecord → Io μ RecoveryError Unit}
  {J : List JournalRecord → μ × Disk → Prop} {err : RecoveryError → μ × Disk → Prop}
  {lost : μ × Disk → Prop}

omit [Crc32] in
/-- Handing a record on, or not, keeps track of the records above the checkpoint. -/
theorem offer_triple (sc : SegmentScanner) (haccept : ∀ rs r, Triple (J rs) (accept r) (fun _ => J (rs ++ [r])) err lost)
    (rs : List JournalRecord) (r : JournalRecord) :
    Triple (J (above sc.checkpointSequence rs)) (sc.offer accept r)
      (fun _ => J (above sc.checkpointSequence (rs ++ [r]))) err lost := by
  rw [above_append,offer]
  by_cases hc : r.sequence > sc.checkpointSequence
  · rw [if_pos hc,show above sc.checkpointSequence [r] = [r] by simpa [above] using hc]
    exact haccept _ r
  · rw [if_neg hc,show above sc.checkpointSequence [r] = [] by simpa [above] using hc,
      List.append_nil]
    exact .pure fun _ hs => hs

variable (hlen : segmentHeaderSize+sc.bodyLen ≤ image.length)
  (himage : ∀ rs s, J rs s → (s.2.inodes sc.file).image = image)
  (haccept : ∀ rs r, Triple (J rs) (accept r) (fun _ => J (rs ++ [r])) err lost)
  (herr : ∀ rs e s, J rs s → err e s) (hlost : ∀ rs s, J rs s → lost s)

include hlen himage haccept herr hlost in
/-- The loop's specification, for a consumer `accept` that leaves the scanned file alone. -/
theorem loop_triple (hr : sc.Reached image rs st) :
    Triple (J (above sc.checkpointSequence rs)) (sc.loop accept st)
      (fun r s => ∃ ts, sc.Reached image ts r.2 ∧ J (above sc.checkpointSequence ts) s ∧
        (¬ r.1.IsCorrupt → sc.Ended image ts r.2.position r.1)) err lost := by
  induction hn : sc.bodyLen-st.position using Nat.strong_induction_on generalizing st rs with
  | _ n ih =>
    obtain ⟨hpos,hreml⟩ := hr.length_rest hlen
    rw [loop]
    by_cases hend : st.position = sc.bodyLen
    · rw [if_pos hend]
      refine .pure fun s hs => ⟨rs,hr,hs,fun _ => ?_⟩
      have hnil : (sc.body image).drop st.position = [] :=
        List.eq_nil_of_length_eq_zero (by omega)
      exact ⟨by rw [hnil]; exact recordAt_nil _,fun _ => by simp [hnil],by simp,.inl hend⟩
    rw [if_neg hend]
    apply Triple.ofEach
    intro s hs
    have hi := himage _ s hs
    apply (Io.Checks.readAt (μ := μ) sc.file _ _).recoveryIo.bind_triple
      (fun e => herr _ e s hs) (hlost _ s hs)
    intro bytes hread
    -- shorter than a header only at the end of the body
    have hbytes : bytes = ((sc.body image).drop st.position).take recordHeaderSize := by
      rw [hi,if_pos (by omega)] at hread
      rw [← Except.ok.inj hread,sc.range_body (by omega),
        List.take_eq_take_min (i := recordHeaderSize),hreml,Nat.min_comm]
    cases hd : RecordHeader.decode bytes with
    | none =>
      apply (rangeIsZero_checks (μ := μ) sc.file _ _).recoveryIo.bind_triple
        (fun e => herr _ e s hs) (hlost _ s hs)
      intro zero hread
      have hzero : zero = ((sc.body image).drop st.position).all (· == 0) := by
        rw [hi,rangeOf_of_le (by omega)] at hread
        rw [← Except.ok.inj hread,sc.range_body (by omega),List.take_of_length_le (by omega)]
      refine .pure fun t ht => ⟨rs,hr.readEnd _,ht ▸ hs,fun ho => ?_⟩
      exact Ended.ofUndecodable (hbytes ▸ hd) hzero ho
    | some h =>
      simp only
      split
      · exact .throw fun t ht => ht ▸ herr _ _ s hs
      · rename_i outcome hf
        refine .pure fun t ht => ⟨rs,hr.readEnd _,ht ▸ hs,fun ho => ?_⟩
        obtain ⟨htorn,hdur,hlong⟩ := frame_some hf ho
        have hat := (recordAt_of_decode (sc.firstSequence+rs.length) (hbytes ▸ hd)).trans (if_neg fun hc => by omega)
        exact htorn ▸ Ended.ofTorn hdur hat
      · rename_i hfit hf
        apply (readRange_checks (μ := μ) sc.file _ _).recoveryIo.bind_triple
          (fun e => herr _ e s hs) (hlost _ s hs)
        intro payload hread
        have hpay : payload =
            (((sc.body image).drop st.position).drop recordHeaderSize).take h.payloadLen := by
          rw [hi,rangeOf_of_le (by omega)] at hread
          rw [← Except.ok.inj hread,Nat.add_assoc,sc.range_body (by omega),List.drop_drop]
        by_cases hcrc : (Crc32.hash payload).toNat ≠ h.payloadCrc
        · rw [if_pos hcrc]
          refine .pure fun t ht => ⟨rs,hr.readEnd _,ht ▸ hs,fun ho => ?_⟩
          obtain ⟨htorn,hdur⟩ := damage_cases _ _ ho
          have hat := (recordAt_of_decode (sc.firstSequence+rs.length) (hbytes ▸ hd)).trans (if_neg fun hc => hcrc (by rw [hpay]; exact hc.2.2.2))
          exact htorn ▸ Ended.ofTorn hdur hat
        rw [if_neg hcrc]
        obtain ⟨hpl,hat⟩ := hr.recordAt_some hlen (hbytes ▸ hd) hf hpay (not_not.mp hcrc)
        refine .ofExcept_bind ?_ (fun e t _ ht => ht ▸ herr _ e s hs)
        intro seen hc
        have hreach := hr.concat hbytes hat hpay hpl hc
        have hoffer := (sc.offer_triple haccept rs ⟨h.sequence,h.unit,payload⟩).strengthen
            (fun t (ht : t = s) => (ht ▸ hs : J _ t))
        apply Triple.bind hoffer
        intro _
        refine ih _ ?_ hreach rfl
        simp only [recordHeaderSize] at hfit ⊢
        omega

omit [Crc32] in
include herr hlost in
theorem readRest_triple (sc : SegmentScanner) (outcome : ScanOutcome) (ts : List JournalRecord) (st : ScanState) :
    Triple (J ts) (sc.readRest outcome st) (fun _ => J ts) err lost := by
  have hread : Triple (J ts) (if st.readEnd < sc.bodyLen then
      Prog.bind (recoveryIo (rangeIsZero sc.file (segmentHeaderSize+st.readEnd)
        (segmentHeaderSize+sc.bodyLen))) fun _ => Prog.pure () else Prog.pure ())
      (fun _ => J ts) err lost := by
    by_cases hc : st.readEnd < sc.bodyLen
    · rw [if_pos hc]
      apply Triple.ofEach
      intro s hs
      apply (rangeIsZero_checks (μ := μ) sc.file _ _).recoveryIo.bind_triple
        (fun e => herr _ e s hs) (hlost _ s hs)
      exact fun _ _ => Triple.pure fun t ht => ht ▸ hs
    · rw [if_neg hc]
      exact .pure fun _ hs => hs
  cases outcome with
  | Corrupt => exact .pure fun _ hs => hs
  | Clean => exact hread
  | TornTail => exact hread

/-- What a finished scan says: the records it accepted, and that no further one follows
them unless the body is corrupt. -/
structure Scanned [DefaultHasher] (sc : SegmentScanner) (image : Bytes) (rs : List JournalRecord)
    (out : SegmentBodyScan) : Prop where
  count : out.recordCount = rs.length
  valid : out.validBodyBytes = (encodeAll rs).length
  framed : Framed sc.firstSequence rs
  allowed : ∀ r ∈ rs, sc.geometry.Allows r
  body : sc.body image = encodeAll rs ++ (sc.body image).drop out.validBodyBytes
  fingerprint : out.fingerprint = DefaultHasher.finish (sc.header ++ encodeAll rs)
  boundary : ∀ sequence stop, sc.requiredBoundary = some (sequence,stop) → EndsAt rs sequence stop
  ended : ¬ out.outcome.IsCorrupt → sc.Ended image rs out.validBodyBytes out.outcome

omit [Crc32] in
theorem boundaryFound_ok {st : ScanState} {u : Unit} (h : sc.boundaryFound st = .ok u) :
    sc.requiredBoundary = none ∨ st.boundarySeen = true := by
  unfold boundaryFound at h
  cases hb : sc.requiredBoundary with
  | none => exact .inl rfl
  | some b =>
    by_cases hs : st.boundarySeen = true
    · exact .inr hs
    · simp [hb,hs] at h

include hlen himage haccept herr hlost in
theorem scan_triple [DefaultHasher] :
    Triple (J []) (sc.scan accept)
      (fun out s => ∃ rs, sc.Scanned image rs out ∧ J (above sc.checkpointSequence rs) s) err lost := by
  apply Triple.bind (loop_triple hlen himage haccept herr hlost Reached.start)
  rintro ⟨outcome,st⟩
  apply Triple.ofEach
  rintro s ⟨rs,hr,hs,he⟩
  have hrest := (sc.readRest_triple herr hlost outcome _ st).strengthen
      (fun t (ht : t = s) => (ht ▸ hs : J _ t))
  apply Triple.bind hrest
  intro _
  refine .ofExcept_bind ?_ (fun e t _ ht => herr _ e t ht)
  intro u hu
  refine .pure fun t ht => ⟨rs,?_,ht⟩
  refine ⟨hr.count,hr.position,hr.framed,hr.allowed,hr.body,by rw [hr.hashed],?_,he⟩
  intro sequence stop hb
  rcases boundaryFound_ok hu with hn | hseen
  · rw [hn] at hb
    cases hb
  · exact hr.boundary hseen sequence stop hb

end Loop

section Quiet

variable {μ : Type} {accept : JournalRecord → Io μ RecoveryError Unit}

/-- A consumer that takes every record and leaves the scanned file alone. -/
def Takes (file : InodeId) (accept : JournalRecord → Io μ RecoveryError Unit) : Prop :=
  ∀ r s, ∃ s', accept r [] s = (.ok (),[],s') ∧ (s'.2.inodes file).image = (s.2.inodes file).image

omit [Crc32] in
theorem offer_quiet (ht : Takes sc.file accept) (r : JournalRecord) (s : μ × Disk) :
    ∃ s', sc.offer accept r [] s = (.ok (),[],s') ∧
      (s'.2.inodes sc.file).image = (s.2.inodes sc.file).image := by
  unfold offer
  by_cases hc : r.sequence > sc.checkpointSequence
  · rw [if_pos hc]
    exact ht r s
  · rw [if_neg hc]
    exact ⟨s,rfl,rfl⟩

section Reads

variable {s : μ × Disk} (hlen : segmentHeaderSize+sc.bodyLen ≤ image.length)
  (hi : (s.2.inodes sc.file).image = image)

include hlen hi

omit [Crc32] in
/-- Without faults the header is read whole, or as much of it as there is. -/
theorem readHeader_quiet (hpos : st.position ≤ sc.bodyLen) :
    recoveryIo (Io.readAt sc.file (segmentHeaderSize+st.position)
      (min (sc.bodyLen-st.position) recordHeaderSize)) [] s =
      (.ok (((sc.body image).drop st.position).take recordHeaderSize),[],s) := by
  apply (Io.Checks.readAt (μ := μ) _ _ _).recoveryIo.quiet_of_ok
  rw [hi,if_pos (by omega),sc.range_body (by omega),List.take_eq_take_min (i := recordHeaderSize),
    List.length_drop,sc.length_body hlen,Nat.min_comm]
  rfl

omit [Crc32] in
theorem readPayload_quiet {n : ℕ} (hn : recordHeaderSize+n ≤ sc.bodyLen-st.position) :
    recoveryIo (readRange sc.file (segmentHeaderSize+st.position+recordHeaderSize) n) [] s =
      (.ok ((((sc.body image).drop st.position).drop recordHeaderSize).take n),[],s) := by
  apply (readRange_checks (μ := μ) _ _ _).recoveryIo.quiet_of_ok
  have hpos : 0 < recordHeaderSize := by decide
  rw [hi,rangeOf_of_le (by omega),Nat.add_assoc,sc.range_body (by omega),List.drop_drop]
  rfl

omit [Crc32] in
theorem rangeIsZero_quiet {position : ℕ} (hpos : position ≤ sc.bodyLen) :
    recoveryIo (rangeIsZero sc.file (segmentHeaderSize+position) (segmentHeaderSize+sc.bodyLen)) [] s =
      (.ok (((sc.body image).drop position).all (· == 0)),[],s) := by
  apply (rangeIsZero_checks (μ := μ) _ _ _).recoveryIo.quiet_of_ok
  have hrest : ((sc.body image).drop position).length = sc.bodyLen-position := by
    rw [List.length_drop,sc.length_body hlen]
  rw [hi,rangeOf_of_le (by omega),Nat.add_sub_add_left,sc.range_body (by omega),
    List.take_of_length_le (by omega)]
  rfl

theorem loop_of_ok (accept : JournalRecord → Io μ RecoveryError Unit) {r : JournalRecord}
    (hpos : st.position ≤ sc.bodyLen)
    (hexp : sc.firstSequence+st.recordCount < 2^64) (hnone : sc.requiredBoundary = none)
    (hall : sc.geometry.Allows r)
    (hat : recordAt (sc.firstSequence+st.recordCount) ((sc.body image).drop st.position) = some r) :
    recordHeaderSize+r.payload.length ≤ sc.bodyLen-st.position ∧ sc.loop accept st [] s =
      Prog.bind (sc.offer accept r) (fun _ => sc.loop accept
        ⟨st.position+(recordHeaderSize+r.payload.length),st.recordCount+1,
          st.position+(recordHeaderSize+r.payload.length),st.boundarySeen,
          st.hashed ++ encodeRecord r⟩) [] s := by
  obtain ⟨hseq,hfits,hrest⟩ := recordAt_sound hat
  have hl : recordHeaderSize+r.payload.length ≤ sc.bodyLen-st.position := by
    have h := congrArg List.length hrest
    rw [List.length_append,length_encodeRecord,List.length_drop,sc.length_body hlen] at h
    omega
  obtain ⟨hheader,hpay⟩ := recordAt_parts hat
  have hne : st.position ≠ sc.bodyLen := by
    simp only [recordHeaderSize] at hl
    omega
  have hf : sc.frame st r.header = .ok (.record hl) :=
    (sc.frame_record_iff hl).mpr ⟨hfits.2.2,hseq,hexp⟩
  have hc := check_of_allows (h := r.header) hnone hall.1 hall.2
  have hread : recordHeaderSize+r.header.payloadLen ≤ sc.bodyLen-st.position := hl
  have hcrc : ¬ (Crc32.hash r.payload).toNat ≠ r.header.payloadCrc := not_not.mpr rfl
  refine ⟨hl,?_⟩
  rw [loop,if_neg hne]
  simp only
  rw [Prog.bind_of_ok (readHeader_quiet hlen hi hpos),hheader]
  simp only [RecordHeader.decode_encode hfits.header,hf]
  rw [Prog.bind_of_ok (readPayload_quiet hlen hi hread),hpay,if_neg hcrc,hc,Prog.ofExcept,
    Prog.bind_of_ok (p := Prog.pure _) rfl]
  rfl

end Reads

theorem loop_quiet {ts : List JournalRecord} (ht : Takes sc.file accept)
    (hlen : segmentHeaderSize+sc.bodyLen ≤ image.length) (hnone : sc.requiredBoundary = none)
    (hr : sc.Reached image rs st) (hread : st.readEnd = st.position)
    (hrest : (sc.body image).drop st.position = encodeAll ts) (hts : Framed (sc.firstSequence+rs.length) ts)
    (hall : ∀ r ∈ ts, sc.geometry.Allows r) {s : μ × Disk} (hi : (s.2.inodes sc.file).image = image) :
    ∃ s' st', sc.loop accept st [] s = (.ok (.Clean,st'),[],s') ∧ sc.Reached image (rs ++ ts) st' ∧
      st'.position = sc.bodyLen ∧ st'.readEnd = sc.bodyLen := by
  induction ts generalizing rs st s with
  | nil =>
    obtain ⟨hpos,hreml⟩ := hr.length_rest hlen
    have hend : st.position = sc.bodyLen := by
      rw [hrest,encodeAll_nil,List.length_nil] at hreml
      omega
    refine ⟨s,st,?_,by simpa using hr,hend,hread.trans hend⟩
    rw [loop,if_pos hend]
    rfl
  | cons t ts ih =>
    obtain ⟨hfit,hseq,hts'⟩ := Framed.cons_iff.mp hts
    have hat : recordAt (sc.firstSequence+rs.length) ((sc.body image).drop st.position) = some t := by
      rw [hrest,encodeAll_cons,← hseq]
      exact recordAt_encode hfit _
    have hall' := hall t (by simp)
    obtain ⟨-,hloop⟩ := loop_of_ok hlen hi accept (hr.length_rest hlen).1
      (by rw [hr.count,← hseq]; exact hfit.1) hnone hall' (by rw [hr.count]; exact hat)
    obtain ⟨s',hoffer,hi'⟩ := offer_quiet ht t s
    have hdrop : ((sc.body image).drop st.position).drop (recordHeaderSize+t.payload.length) =
        encodeAll ts := by
      rw [hrest,encodeAll_cons,← length_encodeRecord]
      exact List.drop_left
    obtain ⟨s'',st'',hgo,hr'',hend⟩ := ih (hr.concat_record hnone hat hall') rfl
      (List.drop_drop.symm.trans hdrop) (by simpa [Nat.add_assoc] using hts')
      (fun r hr => hall r (by simp [hr])) (hi'.trans hi)
    refine ⟨s'',st'',?_,by simpa using hr'',hend⟩
    rw [hloop]
    exact (Prog.bind_of_ok hoffer).trans hgo

/-- A segment cut behind its last record scans clean and finds the same records. -/
theorem scan_quiet [DefaultHasher] {ts : List JournalRecord} (ht : Takes sc.file accept)
    (hlen : segmentHeaderSize+sc.bodyLen ≤ image.length) (hnone : sc.requiredBoundary = none)
    (hbody : sc.body image = encodeAll ts) (hts : Framed sc.firstSequence ts)
    (hall : ∀ r ∈ ts, sc.geometry.Allows r) {s : μ × Disk}
    (hi : (s.2.inodes sc.file).image = image) :
    ∃ s' out, sc.scan accept [] s = (.ok out,[],s') ∧ out.outcome = .Clean ∧
      out.recordCount = ts.length ∧ out.validBodyBytes = sc.bodyLen := by
  have hrest : (sc.body image).drop 0 = encodeAll ts := hbody
  obtain ⟨s',st',hloop,hr,hend,hread⟩ := loop_quiet ht hlen hnone Reached.start rfl hrest
    (by simpa using hts) hall hi
  have hquiet : sc.readRest .Clean st' [] s' = (.ok (),[],s') := by
    simp only [readRest,if_neg (Nat.not_lt.mpr (Nat.le_of_eq hread.symm))]
    rfl
  refine ⟨s',⟨st'.recordCount,st'.position,.Clean,DefaultHasher.finish st'.hashed⟩,?_,rfl,
    by simpa using hr.count,hend⟩
  simp only [scan,bind]
  rw [Prog.bind_of_ok hloop]
  simp only
  rw [Prog.bind_of_ok hquiet]
  simp only [boundaryFound,hnone]
  rfl

end Quiet

end SegmentScanner
end Maki
