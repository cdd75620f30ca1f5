import Maki.SegmentSound
import Maki.ReferenceScan

/-! The streaming scanner of a segment file against the scanner of a body in memory. Both stop at
the same position with the same verdict; the streaming one hands on the records above the
checkpoint. -/
namespace Maki
namespace SegmentScanner

section Agree

variable [Crc32] {sc : SegmentScanner} {image : Bytes} {st : ScanState}

section Turn

variable {μ : Type} {s : μ × Disk}

omit [Crc32] in
theorem undecodable_eq (position : ℕ) (rem : Bytes) :
    sc.undecodable position (rem.all (· == 0)) =
      ReferenceScan.undecodable (some sc.durableLen) position rem := by
  unfold undecodable ReferenceScan.undecodable ReferenceScan.damage
  change (if sc.inDurable position = true then _ else _) = if _ then if sc.inDurable position = true
    then _ else _ else if sc.inDurable position = true then _ else _
  cases sc.inDurable position <;> cases rem.all (· == 0) <;> rfl

variable (hlen : segmentHeaderSize+sc.bodyLen ≤ image.length) (hpos : st.position ≤ sc.bodyLen)
  (hi : (s.2.inodes sc.file).image = image) (hexp : sc.firstSequence+st.recordCount < 2^64)

include hlen hpos hi hexp

theorem loop_of_error (accept : JournalRecord → Io μ RecoveryError Unit) {outcome : ScanOutcome}
    (hat : recordAt (sc.firstSequence+st.recordCount) ((sc.body image).drop st.position) = none)
    (hex : ReferenceScan.examine (some sc.durableLen) st.position (sc.firstSequence+st.recordCount)
      ((sc.body image).drop st.position) = .error outcome) :
    ∃ n, sc.loop accept st [] s = (.ok (outcome,{ st with readEnd := n }),[],s) := by
  have hrem : ((sc.body image).drop st.position).length = sc.bodyLen-st.position := by
    rw [List.length_drop,sc.length_body hlen]
  rw [loop]
  by_cases hend : st.position = sc.bodyLen
  · have hnil : (sc.body image).drop st.position = [] := List.eq_nil_of_length_eq_zero (by omega)
    rw [hnil] at hex
    cases hex
    exact ⟨st.readEnd,by rw [if_pos hend]; rfl⟩
  have hne : (sc.body image).drop st.position ≠ [] := by
    rw [← List.length_pos_iff_ne_nil]
    omega
  rw [if_neg hend]
  simp only
  rw [Prog.bind_of_ok (readHeader_quiet hlen hi hpos)]
  rw [ReferenceScan.examine,if_neg hne,parseHeader] at hex
  cases hd : RecordHeader.decode (((sc.body image).drop st.position).take recordHeaderSize) with
  | none =>
    simp only [hd,Except.error.injEq] at hex
    simp only
    rw [Prog.bind_of_ok (rangeIsZero_quiet hlen hi hpos),undecodable_eq,hex]
    exact ⟨_,rfl⟩
  | some h =>
    have hnone := (recordAt_of_decode (sc.firstSequence+st.recordCount) hd).symm.trans hat
    simp only [hd] at hex
    simp only [frame,checkedAdd,if_pos hexp]
    by_cases h₁ : h.payloadLen > maxPayload
    · simp only [if_pos h₁,Except.error.injEq] at hex ⊢
      exact ⟨_,by rw [hex]; rfl⟩
    by_cases h₂ : h.sequence ≠ sc.firstSequence+st.recordCount
    · simp only [if_neg h₁,if_pos h₂,Except.error.injEq] at hex ⊢
      exact ⟨_,by rw [hex]; rfl⟩
    rw [hrem] at hex
    by_cases h₃ : recordHeaderSize+h.payloadLen > sc.bodyLen-st.position
    · simp only [if_neg h₁,if_neg h₂,if_pos h₃,dif_pos h₃,Except.error.injEq] at hex ⊢
      exact ⟨_,by rw [← hex]; rfl⟩
    simp only [if_neg h₁,if_neg h₂,if_neg h₃,dif_neg h₃] at hex ⊢
    rw [Prog.bind_of_ok (readPayload_quiet hlen hi (Nat.not_lt.mp h₃))]
    by_cases h₄ : (Crc32.hash ((((sc.body image).drop st.position).drop recordHeaderSize).take
        h.payloadLen)).toNat ≠ h.payloadCrc
    · rw [if_pos h₄] at hex ⊢
      exact ⟨_,by rw [← Except.error.inj hex]; rfl⟩
    · rw [if_pos ⟨Nat.not_lt.mp h₁,not_not.mp h₂,by omega,not_not.mp h₄⟩] at hnone
      cases hnone

end Turn

def collect (r : JournalRecord) : Io (List JournalRecord) RecoveryError Unit :=
  Prog.modify fun s => (s.1 ++ [r],s.2)

omit [Crc32] in
theorem offer_collect (r : JournalRecord) (got : List JournalRecord) (d : Disk) :
    sc.offer collect r [] (got,d) = (.ok (),[],got ++ above sc.checkpointSequence [r],d) := by
  unfold offer
  by_cases hc : r.sequence > sc.checkpointSequence
  · rw [if_pos hc,show above sc.checkpointSequence [r] = [r] by simpa [above] using hc]
    rfl
  · rw [if_neg hc,show above sc.checkpointSequence [r] = [] by simpa [above] using hc,List.append_nil]
    rfl

theorem loop_agrees (st : ScanState) (hlen : segmentHeaderSize+sc.bodyLen ≤ image.length)
    (hnone : sc.requiredBoundary = none) (hpos : st.position ≤ sc.bodyLen)
    (hexp : sc.firstSequence+st.recordCount < 2^64)
    (hall : ∀ r ∈ recordsOf (sc.firstSequence+st.recordCount) ((sc.body image).drop st.position),
      sc.geometry.Allows r ∧ r.sequence < u64Max)
    {d : Disk} (hi : (d.inodes sc.file).image = image) (got : List JournalRecord) :
    ∃ rs outcome st', ReferenceScan.scanFrom (some sc.durableLen) st.position
        (sc.firstSequence+st.recordCount) ((sc.body image).drop st.position) = (rs,outcome) ∧
      sc.loop collect st [] (got,d) =
        (.ok (outcome,st'),[],got ++ above sc.checkpointSequence rs,d) ∧
      st'.position = st.position+(encodeAll rs).length := by
  induction hn : sc.bodyLen-st.position using Nat.strong_induction_on generalizing st got with
  | _ n ih =>
    cases hat : recordAt (sc.firstSequence+st.recordCount) ((sc.body image).drop st.position) with
    | none =>
      cases hex : ReferenceScan.examine (some sc.durableLen) st.position
          (sc.firstSequence+st.recordCount) ((sc.body image).drop st.position) with
      | ok r =>
        rw [(ReferenceScan.examine_ok_iff.mp hex).1] at hat
        cases hat
      | error outcome =>
        obtain ⟨m,hloop⟩ := loop_of_error (s := (got,d)) hlen hpos hi hexp collect hat hex
        refine ⟨[],outcome,{ st with readEnd := m },ReferenceScan.scanFrom_of_error hex,?_,rfl⟩
        rw [hloop]
        simp [above]
    | some r =>
      rw [recordsOf_of_some hat] at hall
      obtain ⟨hallow,hseq⟩ := hall r (by simp)
      have hr := (recordAt_sound hat).1
      simp only [u64Max] at hseq
      have hex : ReferenceScan.examine (some sc.durableLen) st.position
          (sc.firstSequence+st.recordCount) ((sc.body image).drop st.position) = .ok r :=
        ReferenceScan.examine_ok_iff.mpr ⟨hat,by omega⟩
      obtain ⟨hfit,hloop⟩ := loop_of_ok (s := (got,d)) hlen hi collect hpos hexp hnone hallow hat
      have hdrop : ((sc.body image).drop st.position).drop (recordHeaderSize+r.payload.length) =
          (sc.body image).drop (st.position+(recordHeaderSize+r.payload.length)) := List.drop_drop
      rw [hdrop] at hall
      have hshort : sc.bodyLen-(st.position+(recordHeaderSize+r.payload.length)) < n := by
        simp only [recordHeaderSize] at hfit ⊢
        omega
      obtain ⟨rs,outcome,st',hscan,hrest,hend⟩ := ih _ hshort
        (⟨st.position+(recordHeaderSize+r.payload.length),st.recordCount+1,
          st.position+(recordHeaderSize+r.payload.length),st.boundarySeen,st.hashed ++ encodeRecord r⟩ : ScanState)
        (by simp only; omega) (by simp only; omega) (fun t ht => hall t (List.mem_cons_of_mem _ ht))
        (got ++ above sc.checkpointSequence [r]) rfl
      refine ⟨r::rs,outcome,st',?_,?_,?_⟩
      · rw [ReferenceScan.scanFrom_of_ok hex,hdrop]
        exact congrArg (fun p => (r::p.1,p.2)) hscan
      · rw [hloop,Prog.bind_of_ok (offer_collect r got d),hrest,List.append_assoc,← above_append]
        rfl
      · rw [hend]
        simp only [encodeAll_cons,List.length_append,length_encodeRecord]
        omega

theorem scan_agrees [DefaultHasher] (hlen : segmentHeaderSize+sc.bodyLen ≤ image.length)
    (hnone : sc.requiredBoundary = none) (hfirst : sc.firstSequence < 2^64)
    (hall : ∀ r ∈ recordsOf sc.firstSequence (sc.body image),
      sc.geometry.Allows r ∧ r.sequence < u64Max)
    {d : Disk} (hi : (d.inodes sc.file).image = image) :
    ∃ rs out, scanSegmentBounded (sc.body image) sc.firstSequence (some sc.durableLen) =
        (rs,out.outcome) ∧
      sc.scan collect [] ([],d) = (.ok out,[],above sc.checkpointSequence rs,d) ∧
      out.validBodyBytes = (encodeAll rs).length := by
  obtain ⟨rs,outcome,st,hscan,hloop,hend⟩ := loop_agrees ⟨0,0,0,false,sc.header⟩ hlen hnone
    (Nat.zero_le _) hfirst hall hi []
  have hrest : sc.readRest outcome st [] (above sc.checkpointSequence rs,d) =
      (.ok (),[],above sc.checkpointSequence rs,d) := by
    have hread : (if st.readEnd < sc.bodyLen then Prog.bind (recoveryIo (rangeIsZero sc.file
        (segmentHeaderSize+st.readEnd) (segmentHeaderSize+sc.bodyLen))) fun _ => Prog.pure ()
        else Prog.pure ()) [] (above sc.checkpointSequence rs,d) =
          (.ok (),[],above sc.checkpointSequence rs,d) := by
      by_cases hr : st.readEnd < sc.bodyLen
      · rw [if_pos hr,Prog.bind_of_ok (rangeIsZero_quiet hlen hi (Nat.le_of_lt hr))]
        rfl
      · rw [if_neg hr]
        rfl
    cases outcome with
    | Corrupt => rfl
    | Clean => exact hread
    | TornTail => exact hread
  refine ⟨rs,⟨st.recordCount,st.position,outcome,DefaultHasher.finish st.hashed⟩,hscan,?_,?_⟩
  · simp only [scan,bind]
    rw [Prog.bind_of_ok hloop]
    simp only [List.nil_append]
    rw [Prog.bind_of_ok hrest]
    simp only [boundaryFound,hnone]
    rfl
  · simpa using hend

/-- Reading a segment file in chunks finds what the reference scanner finds in its body: the same
records, the same outcome and the same valid length. -/
theorem scan_eq_scanSegmentBounded [DefaultHasher] (sc : SegmentScanner) {header buf : Bytes} {d : Disk}
    (hheader : header.length = segmentHeaderSize)
    (hi : (d.inodes sc.file).image = header ++ buf) (hlen : sc.bodyLen = buf.length)
    (hnone : sc.requiredBoundary = none) (hcheckpoint : sc.checkpointSequence = 0)
    (hfirst : 0 < sc.firstSequence ∧ sc.firstSequence < 2^64)
    (hall : ∀ r ∈ recordsOf sc.firstSequence buf, sc.geometry.Allows r ∧ r.sequence < u64Max) :
    ∃ rs out, scanSegmentBounded buf sc.firstSequence (some sc.durableLen) = (rs,out.outcome) ∧
      sc.scan collect [] ([],d) = (.ok out,[],rs,d) ∧
      out.validBodyBytes = (encodeAll rs).length := by
  have hbody : sc.body (header ++ buf) = buf := by
    rw [body,← hheader,List.drop_left,hlen,List.take_length]
  have hbound : segmentHeaderSize+sc.bodyLen ≤ (header ++ buf).length := by
    rw [List.length_append]
    omega
  obtain ⟨rs,out,href,hscan,hvalid⟩ := scan_agrees hbound hnone hfirst.2 (by rwa [hbody]) hi
  rw [hbody] at href
  -- no record has sequence 0, so none is taken for covered by the checkpoint
  have habove : above sc.checkpointSequence rs = rs := by
    have hframed := ReferenceScan.scanFrom_framed (some sc.durableLen) 0 sc.firstSequence buf
    change Framed _ (scanSegmentBounded buf sc.firstSequence (some sc.durableLen)).1 at hframed
    rw [href] at hframed
    rw [above,List.filter_eq_self,hcheckpoint]
    exact fun r hr => decide_eq_true (Nat.lt_of_lt_of_le hfirst.1 (hframed.sequence_ge hr))
  exact ⟨rs,out,href,habove ▸ hscan,hvalid⟩

end Agree

section Sample

/-! One record with a torn tail after it, with sequence 1 and with sequence 0. -/

local instance : Crc32 := Crc32.ieee
local instance : DefaultHasher := ⟨fun bs => UInt64.ofNat (leNat bs)⟩

def sampleBody (first : ℕ) : Bytes := encodeRecord ⟨first,3,[1,2]⟩ ++ [9,9]

def sampleScanner (first : ℕ) : SegmentScanner where
  file := 1
  header := (SegmentHeader.mk 4 7 first).encode
  bodyLen := (sampleBody first).length
  firstSequence := first
  durableLen := 34
  requiredBoundary := none
  geometry := ⟨512,512,512,512,64,1024,1048576,65536⟩
  checkpointSequence := 0
  name := "4"

def sampleFile (first : ℕ) : Disk where
  inodes i := if i = 1 then
    Inode.fromContent ((SegmentHeader.mk 4 7 first).encode ++ sampleBody first) else {}

theorem scan_eq_scanSegmentBounded_torn :
    ∃ out, scanSegmentBounded (sampleBody 1) 1 (some 34) = ([⟨1,3,[1,2]⟩],out.outcome) ∧
      (sampleScanner 1).scan collect [] ([],sampleFile 1) =
        (.ok out,[],[⟨1,3,[1,2]⟩],sampleFile 1) ∧ out.validBodyBytes = 34 := by
  have hrecords : recordsOf 1 (sampleBody 1) = [⟨1,3,[1,2]⟩] := by decide +kernel
  have hall : ∀ r ∈ recordsOf (sampleScanner 1).firstSequence (sampleBody 1),
      (sampleScanner 1).geometry.Allows r ∧ r.sequence < u64Max := by
    rw [show (sampleScanner 1).firstSequence = 1 from rfl,hrecords]
    simp [Geometry.Allows,sampleScanner,Geometry.numUnits,u64Max]
  have href : scanSegmentBounded (sampleBody 1) 1 (some 34) = ([⟨1,3,[1,2]⟩],.TornTail 34) := by
    decide +kernel
  obtain ⟨rs,out,h,hscan,hvalid⟩ := scan_eq_scanSegmentBounded
    (sampleScanner 1) (d := sampleFile 1) (SegmentHeader.length_encode _) rfl rfl rfl rfl (by decide) hall
  obtain ⟨rfl,-⟩ := Prod.mk.inj (href.symm.trans h)
  exact ⟨out,h,hscan,hvalid⟩

/-- Sequence 0 is not above checkpoint 0: the streaming scanner reads the record and does not hand
it on. -/
theorem scan_skips_sequence_zero :
    (scanSegmentBounded (sampleBody 0) 0 (some 34)).1 = [⟨0,3,[1,2]⟩] ∧
      ((sampleScanner 0).scan collect [] ([],sampleFile 0)).2.2.1 = [] ∧
      recordsOf 0 (sampleBody 0) = [⟨0,3,[1,2]⟩] ∧
      (sampleScanner 0).geometry.Allows ⟨0,3,[1,2]⟩ := by
  refine ⟨by decide +kernel,by decide +kernel,by decide +kernel,by decide,by decide⟩

end Sample

end SegmentScanner
end Maki
