import Maki.JournalRecords

/-! The scanner of a segment body that is held in memory (`maki_format::journal`). It reads
records from the front of the body up to the first position that holds none. -/
namespace Maki

section Scan

variable [Crc32]

/-- The record header that `bytes` starts with, if it is complete and intact. -/
def parseHeader (bytes : Bytes) : Option RecordHeader :=
  RecordHeader.decode (bytes.take recordHeaderSize)

namespace ReferenceScan

/-- Without a durable length no position is known to be durable. -/
def inDurable (durableLen : Option ℕ) (pos : ℕ) : Bool := durableLen.any (pos < ·)

def damage (durableLen : Option ℕ) (pos : ℕ) (reason : String) : ScanOutcome :=
  if inDurable durableLen pos then .Corrupt pos reason else .TornTail pos

/-- No header could be parsed here; zeros are a preallocated tail. -/
def undecodable (durableLen : Option ℕ) (pos : ℕ) (rem : Bytes) : ScanOutcome :=
  if rem.all (· == 0) then
    if inDurable durableLen pos then .Corrupt pos "zeroed record inside durable prefix" else .Clean
  else damage durableLen pos "record header damaged inside durable prefix"

/-- Whether a damaged payload is corruption. Without a durable length a record after the damaged
one decides. -/
def payloadCorrupt (durableLen : Option ℕ) (pos expected : ℕ) (after : Bytes) : Bool :=
  match durableLen with
  | some _ => inDurable durableLen pos
  | none =>
    match parseHeader after with
    | none => false
    | some h =>
      match checkedAdd expected 1 with
      | some next => h.sequence == next
      | none => true

/-- One turn of the scanner's loop: the record that `rem` starts with, or why the scan ends. -/
def examine (durableLen : Option ℕ) (pos expected : ℕ) (rem : Bytes) :
    Except ScanOutcome JournalRecord :=
  if rem = [] then .error .Clean
  else
    match parseHeader rem with
    | none => .error (undecodable durableLen pos rem)
    | some h =>
      if h.payloadLen > maxPayload then
        .error (.Corrupt pos s!"payload_len {h.payloadLen} exceeds cap")
      else if h.sequence ≠ expected then
        .error (.Corrupt pos s!"sequence {h.sequence} where {expected} expected")
      else if recordHeaderSize+h.payloadLen > rem.length then
        .error (damage durableLen pos "record truncated inside durable prefix")
      else
        let payload := (rem.drop recordHeaderSize).take h.payloadLen
        if (Crc32.hash payload).toNat ≠ h.payloadCrc then
          .error (if payloadCorrupt durableLen pos expected (rem.drop (recordHeaderSize+h.payloadLen)) then
            .Corrupt pos "payload CRC failure in durable body" else .TornTail pos)
        else
          match checkedAdd expected 1 with
          | none => .error (.Corrupt pos "journal sequence has no representable successor")
          | some _ => .ok ⟨h.sequence,h.unit,payload⟩

/-- The scanner takes the records of `recordsOf`, except one whose sequence is the last. -/
theorem examine_ok_iff {durableLen : Option ℕ} {pos expected : ℕ} {rem : Bytes} {r : JournalRecord} :
    examine durableLen pos expected rem = .ok r ↔
      recordAt expected rem = some r ∧ expected+1 < 2^64 := by
  by_cases hnil : rem = []
  · subst hnil
    simp [examine,recordAt_nil]
  unfold examine recordAt
  rw [if_neg hnil]
  change (match parseHeader rem with | none => _ | some h => _) = _ ↔
    (parseHeader rem).bind _ = some r ∧ _
  cases parseHeader rem with
  | none => simp
  | some h =>
    simp only [Option.bind_some]
    by_cases h₁ : h.payloadLen > maxPayload
    · simp [h₁,Nat.not_le.mpr h₁]
    by_cases h₂ : h.sequence ≠ expected
    · simp [h₁,h₂]
    by_cases h₃ : recordHeaderSize+h.payloadLen > rem.length
    · simp [h₁,h₂,h₃,Nat.not_le.mpr h₃]
    by_cases h₄ : (Crc32.hash ((rem.drop recordHeaderSize).take h.payloadLen)).toNat ≠ h.payloadCrc
    · simp [h₁,h₂,h₃,h₄]
    rw [if_neg h₁,if_neg h₂,if_neg h₃,if_neg h₄,if_pos ⟨Nat.not_lt.mp h₁,not_not.mp h₂,
      Nat.not_lt.mp h₃,not_not.mp h₄⟩,checkedAdd]
    by_cases h₅ : expected+1 < 2^64
    · rw [if_pos h₅]
      simp only [Except.ok.injEq,Option.some.injEq,h₅,and_true]
    · rw [if_neg h₅]
      simp only [reduceCtorEq,h₅,and_false]

def scanFrom (durableLen : Option ℕ) (pos expected : ℕ) (rem : Bytes) :
    List JournalRecord × ScanOutcome :=
  match _h : examine durableLen pos expected rem with
  | .error outcome => ([],outcome)
  | .ok r =>
    let n := recordHeaderSize+r.payload.length
    let rest := scanFrom durableLen (pos+n) (expected+1) (rem.drop n)
    (r::rest.1,rest.2)
termination_by rem.length
decreasing_by
  have hl := congrArg List.length (recordAt_sound (examine_ok_iff.mp _h).1).2.2
  simp only [List.length_append,length_encodeRecord,List.length_drop,recordHeaderSize] at hl ⊢
  omega

variable {durableLen : Option ℕ} {pos expected : ℕ} {rem : Bytes}

theorem scanFrom_of_error {outcome : ScanOutcome}
    (h : examine durableLen pos expected rem = .error outcome) :
    scanFrom durableLen pos expected rem = ([],outcome) := by
  rw [scanFrom]
  split <;> simp_all

@[simp] theorem scanFrom_nil : scanFrom durableLen pos expected [] = ([],.Clean) :=
  scanFrom_of_error rfl

theorem scanFrom_of_ok {r : JournalRecord} (h : examine durableLen pos expected rem = .ok r) :
    scanFrom durableLen pos expected rem =
      (r::(scanFrom durableLen (pos+(recordHeaderSize+r.payload.length)) (expected+1)
          (rem.drop (recordHeaderSize+r.payload.length))).1,
        (scanFrom durableLen (pos+(recordHeaderSize+r.payload.length)) (expected+1)
          (rem.drop (recordHeaderSize+r.payload.length))).2) := by
  rw [scanFrom]
  split <;> simp_all

/-- Written records are read back, and the scan goes on behind them. -/
theorem scanFrom_encodeAll {rs : List JournalRecord} (h : Framed expected rs)
    (hmax : expected+rs.length < 2^64) (rest : Bytes) :
    scanFrom durableLen pos expected (encodeAll rs ++ rest) =
      (rs ++ (scanFrom durableLen (pos+(encodeAll rs).length) (expected+rs.length) rest).1,
        (scanFrom durableLen (pos+(encodeAll rs).length) (expected+rs.length) rest).2) := by
  induction rs generalizing expected pos with
  | nil => simp
  | cons r rs ih =>
    obtain ⟨hr,hs,hrs⟩ := Framed.cons_iff.mp h
    rw [List.length_cons] at hmax
    have hat := recordAt_encode hr (encodeAll rs ++ rest)
    rw [hs] at hat
    have hok : examine durableLen pos expected (encodeRecord r ++ (encodeAll rs ++ rest)) = .ok r :=
      examine_ok_iff.mpr ⟨hat,by omega⟩
    have hdrop : (encodeRecord r ++ (encodeAll rs ++ rest)).drop
        (recordHeaderSize+r.payload.length) = encodeAll rs ++ rest := by
      rw [← length_encodeRecord,List.drop_left]
    have hpos : pos+(recordHeaderSize+r.payload.length)+(encodeAll rs).length =
        pos+(encodeAll (r::rs)).length := by
      simp only [encodeAll_cons,List.length_append,length_encodeRecord]
      omega
    have hexp : expected+1+rs.length = expected+(r::rs).length := by
      rw [List.length_cons]
      omega
    rw [encodeAll_cons,List.append_assoc,scanFrom_of_ok hok,hdrop,ih hrs (by omega),
      ← encodeAll_cons,hpos,hexp]
    rfl

/-- What the scanner returns are consecutive records from the expected sequence on. -/
theorem scanFrom_framed (durableLen : Option ℕ) (pos expected : ℕ) (rem : Bytes) :
    Framed expected (scanFrom durableLen pos expected rem).1 := by
  induction hn : rem.length using Nat.strong_induction_on generalizing pos expected rem with
  | _ n ih =>
    cases hex : examine durableLen pos expected rem with
    | error outcome =>
      rw [scanFrom_of_error hex]
      exact Framed.nil
    | ok r =>
      obtain ⟨hs,hfit,hrem⟩ := recordAt_sound (examine_ok_iff.mp hex).1
      have hl := congrArg List.length hrem
      simp only [List.length_append,length_encodeRecord,recordHeaderSize] at hl
      rw [scanFrom_of_ok hex]
      refine Framed.cons_iff.mpr ⟨hfit,hs,ih _ ?_ _ _ _ rfl⟩
      simp only [List.length_drop,recordHeaderSize] at hl ⊢
      omega

/-- A record cut short is a torn tail unless its start is durable. -/
theorem examine_cut {r : JournalRecord} (hr : r.Fits) {j : ℕ} (hj : 0 < j)
    (hcut : j < (encodeRecord r).length) (hdur : inDurable durableLen pos = false) :
    examine durableLen pos r.sequence ((encodeRecord r).take j) = .error (.TornTail pos) := by
  have hlen : ((encodeRecord r).take j).length = j := by
    rw [List.length_take]
    omega
  have hnil : (encodeRecord r).take j ≠ [] := by
    rw [← List.length_pos_iff_ne_nil]
    omega
  rw [examine,if_neg hnil]
  by_cases hheader : j < recordHeaderSize
  · -- part of a header; its first byte is the magic's
    have hnone : parseHeader ((encodeRecord r).take j) = none := by
      rw [parseHeader,RecordHeader.decode,if_pos]
      left
      rw [List.length_take,hlen]
      omega
    have hzero : ((encodeRecord r).take j).all (· == 0) = false := by
      rw [List.all_eq_false]
      refine ⟨77,?_,by decide⟩
      rw [List.mem_take_iff_getElem]
      exact ⟨0,by omega,rfl⟩
    rw [hnone]
    simp [undecodable,damage,hzero,hdur]
  · have hparse : parseHeader ((encodeRecord r).take j) = some r.header := by
      have htake : ((encodeRecord r).take j).take recordHeaderSize = r.header.encode := by
        rw [List.take_take,Nat.min_eq_left (by omega),encodeRecord,
          List.take_append_of_le_length (by simp),List.take_of_length_le (by simp)]
      rw [parseHeader,htake,RecordHeader.decode_encode hr.header]
    have hlong : recordHeaderSize+r.header.payloadLen > ((encodeRecord r).take j).length := by
      rw [hlen]
      exact (length_encodeRecord r) ▸ hcut
    have hmax : ¬ r.header.payloadLen > maxPayload := Nat.not_lt.mpr hr.2.2
    have hseq : ¬ r.header.sequence ≠ r.sequence := not_not.mpr rfl
    rw [hparse]
    simp only [if_neg hmax,if_neg hseq,if_pos hlong,damage,hdur,Bool.false_eq_true,if_false]

end ReferenceScan

def scanSegmentBounded (buf : Bytes) (firstSequence : ℕ) (durableLen : Option ℕ) :
    List JournalRecord × ScanOutcome :=
  ReferenceScan.scanFrom durableLen 0 firstSequence buf

def scanSegment (buf : Bytes) (firstSequence : ℕ) : List JournalRecord × ScanOutcome :=
  scanSegmentBounded buf firstSequence none

/-- The complete records of a cut body, and what is left of the next one. -/
theorem exists_cut (rs : List JournalRecord) (k : ℕ) :
    ∃ ts us j, rs = ts ++ us ∧ (encodeAll ts).length ≤ k ∧
      (∀ u vs, us = u::vs → k < (encodeAll (ts ++ [u])).length) ∧
      ((us = [] ∨ j = 0) ∧ (encodeAll rs).take k = encodeAll ts ∨
        ∃ u vs, us = u::vs ∧ 0 < j ∧ j < (encodeRecord u).length ∧
          (encodeAll rs).take k = encodeAll ts ++ (encodeRecord u).take j) := by
  induction rs generalizing k with
  | nil => exact ⟨[],[],0,rfl,Nat.zero_le _,by simp,.inl ⟨.inl rfl,by simp⟩⟩
  | cons r rs ih =>
    by_cases hr : (encodeRecord r).length ≤ k
    · obtain ⟨ts,us,j,hrs,hle,hmax,hrest⟩ := ih (k-(encodeRecord r).length)
      have htake : (encodeAll (r::rs)).take k =
          encodeRecord r ++ (encodeAll rs).take (k-(encodeRecord r).length) := by
        rw [encodeAll_cons,List.take_append,List.take_of_length_le hr]
      refine ⟨r::ts,us,j,by simp [hrs],?_,?_,?_⟩
      · rw [encodeAll_cons,List.length_append]
        omega
      · intro u vs hus
        have h := hmax u vs hus
        rw [List.cons_append,encodeAll_cons,List.length_append]
        omega
      · rcases hrest with ⟨hj,h⟩ | ⟨u,vs,hus,hj,hcut,h⟩
        · exact .inl ⟨hj,by rw [htake,h,encodeAll_cons]⟩
        · exact .inr ⟨u,vs,hus,hj,hcut,by rw [htake,h,encodeAll_cons,List.append_assoc]⟩
    · have hlt := Nat.not_le.mp hr
      have htake : (encodeAll (r::rs)).take k = (encodeRecord r).take k := by
        rw [encodeAll_cons,List.take_append_of_le_length (Nat.le_of_lt hlt)]
      refine ⟨[],r::rs,k,rfl,Nat.zero_le _,?_,?_⟩
      · rintro u vs ⟨⟩
        simpa using hlt
      · by_cases hk : k = 0
        · exact .inl ⟨.inr hk,by simp [hk]⟩
        · exact .inr ⟨r,rs,rfl,Nat.pos_of_ne_zero hk,hlt,by simpa using htake⟩

/-- Written records are found again in full, and after a cut anywhere all that are complete. The
damage of a cut is never taken for corruption while the durable length is within the complete
records. -/
theorem scanSegmentBounded_recovers {first : ℕ} {rs : List JournalRecord} (hrs : Framed first rs)
    (hmax : first+rs.length < 2^64) :
    (∀ durableLen, scanSegmentBounded (encodeAll rs) first durableLen = (rs,.Clean)) ∧
    ∀ k, ∃ ts us, rs = ts ++ us ∧ (encodeAll ts).length ≤ k ∧
      (∀ u vs, us = u::vs → k < (encodeAll (ts ++ [u])).length) ∧
      ∀ durableLen : Option ℕ, (∀ d ∈ durableLen, d ≤ (encodeAll ts).length) →
        (scanSegmentBounded ((encodeAll rs).take k) first durableLen = (ts,.Clean) ∧
            (encodeAll rs).take k = encodeAll ts) ∨
          scanSegmentBounded ((encodeAll rs).take k) first durableLen =
            (ts,.TornTail (encodeAll ts).length) := by
  have hwhole : ∀ {ts : List JournalRecord}, Framed first ts → first+ts.length < 2^64 →
      ∀ durableLen, scanSegmentBounded (encodeAll ts) first durableLen = (ts,.Clean) := by
    intro ts hts hlt durableLen
    have h : scanSegmentBounded (encodeAll ts ++ []) first durableLen = _ :=
      ReferenceScan.scanFrom_encodeAll hts hlt []
    simpa using h
  refine ⟨hwhole hrs hmax,fun k => ?_⟩
  obtain ⟨ts,us,j,rfl,hle,hnext,hcut⟩ := exists_cut rs k
  refine ⟨ts,us,rfl,hle,hnext,fun durableLen hdur => ?_⟩
  rw [List.length_append] at hmax
  rcases hcut with ⟨-,h⟩ | ⟨u,vs,rfl,hj,hlt,h⟩
  · exact .inl ⟨by rw [h]; exact hwhole hrs.left (by omega) durableLen,h⟩
  · right
    have hd : ReferenceScan.inDurable durableLen (0+(encodeAll ts).length) = false := by
      cases durableLen with
      | none => rfl
      | some d =>
        have hle := hdur d rfl
        simpa [ReferenceScan.inDurable] using hle
    obtain ⟨hu,hseq,-⟩ := Framed.cons_iff.mp hrs.right
    have hexam := ReferenceScan.examine_cut hu hj hlt hd
    rw [hseq] at hexam
    rw [h,scanSegmentBounded,ReferenceScan.scanFrom_encodeAll hrs.left (by omega),
      ReferenceScan.scanFrom_of_error hexam]
    simp

end Scan

section Sample

local instance ReferenceScan.crc : Crc32 := Crc32.ieee

theorem scanSegmentBounded_recovers_two :
    Framed 5 [⟨5,0,[1,2]⟩,⟨6,3,[]⟩] ∧
      scanSegmentBounded (encodeAll [⟨5,0,[1,2]⟩,⟨6,3,[]⟩]) 5 (some 34) =
        ([⟨5,0,[1,2]⟩,⟨6,3,[]⟩],.Clean) :=
  have h : Framed 5 [⟨5,0,[1,2]⟩,⟨6,3,[]⟩] :=
    ⟨by simp [JournalRecord.Fits,maxPayload],rfl⟩
  ⟨h,(scanSegmentBounded_recovers h (by decide)).1 _⟩

end Sample

end Maki
