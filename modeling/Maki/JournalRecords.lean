import Mathlib
import Maki.JournalFormat

/-! The records a segment body starts with: a partial inverse of writing records one after
the other. Reading stops at the first position where no intact record with the next
sequence stands. -/
namespace Maki

def JournalRecord.Fits (r : JournalRecord) : Prop :=
  r.sequence < 2^64 ∧ r.unitIndex < 2^64 ∧ r.payload.length ≤ maxPayload

/-- Records that fit, with consecutive sequences from `first` on. -/
structure Framed (first : ℕ) (rs : List JournalRecord) : Prop where
  fits : ∀ r ∈ rs, r.Fits
  sequences : rs.map JournalRecord.sequence = List.range' first rs.length

namespace Framed

variable {first : ℕ} {r : JournalRecord} {rs ts : List JournalRecord}

theorem nil : Framed first [] := ⟨by simp,rfl⟩

theorem cons_iff : Framed first (r::rs) ↔ r.Fits ∧ r.sequence = first ∧ Framed (first+1) rs := by
  constructor
  · rintro ⟨hf,hs⟩
    simp only [List.map_cons,List.length_cons,List.range'_succ,List.cons.injEq] at hs
    exact ⟨hf r (by simp),hs.1,fun t ht => hf t (by simp [ht]),hs.2⟩
  · rintro ⟨hr,hs,hrs⟩
    refine ⟨by simpa using ⟨hr,hrs.fits⟩,?_⟩
    simp only [List.map_cons,List.length_cons,List.range'_succ,hs,hrs.sequences]

theorem concat (h : Framed first rs) (hr : r.Fits) (hs : r.sequence = first+rs.length) :
    Framed first (rs ++ [r]) where
  fits := forall_mem_concat h.fits hr
  sequences := by
    simp [h.sequences,hs,List.range'_1_concat]

theorem append_iff :
    Framed first (rs ++ ts) ↔ Framed first rs ∧ Framed (first+rs.length) ts := by
  induction rs generalizing first with
  | nil => simp [nil]
  | cons r rs ih => simp [cons_iff,ih,and_assoc,Nat.add_assoc,Nat.add_comm 1]

theorem left (h : Framed first (rs ++ ts)) : Framed first rs :=
  (append_iff.mp h).1

theorem right (h : Framed first (rs ++ ts)) : Framed (first+rs.length) ts :=
  (append_iff.mp h).2

theorem sequence_ge (h : Framed first rs) (hr : r ∈ rs) : first ≤ r.sequence := by
  have hm := List.mem_map_of_mem (f := JournalRecord.sequence) hr
  rw [h.sequences,List.mem_range'_1] at hm
  exact hm.1

end Framed

variable {r : JournalRecord} {expected : ℕ} {body : Bytes}

theorem JournalRecord.Fits.length_lt (h : r.Fits) : r.payload.length < 2^32 :=
  Nat.lt_of_le_of_lt h.2.2 (by decide)

variable [Crc32]

theorem JournalRecord.Fits.header (h : r.Fits) : r.header.Fits :=
  ⟨h.1,h.2.1,h.length_lt,(Crc32.hash r.payload).toNat_lt⟩

def recordAt (expected : ℕ) (rem : Bytes) : Option JournalRecord :=
  (RecordHeader.decode (rem.take recordHeaderSize)).bind fun h =>
    let payload := (rem.drop recordHeaderSize).take h.payloadLen
    if h.payloadLen ≤ maxPayload ∧ h.sequence = expected ∧
        recordHeaderSize+h.payloadLen ≤ rem.length ∧ (Crc32.hash payload).toNat = h.payloadCrc then
      some ⟨h.sequence,h.unit,payload⟩
    else none

theorem recordAt_sound {rem : Bytes}
    (h : recordAt expected rem = some r) :
    r.sequence = expected ∧ r.Fits ∧
      rem = encodeRecord r ++ rem.drop (recordHeaderSize+r.payload.length) := by
  obtain ⟨hd,hdec,hif⟩ := Option.bind_eq_some_iff.mp h
  obtain ⟨hfit,hbytes⟩ := RecordHeader.decode_eq_some_iff.mp hdec
  by_cases hc : hd.payloadLen ≤ maxPayload ∧ hd.sequence = expected ∧
      recordHeaderSize+hd.payloadLen ≤ rem.length ∧
      (Crc32.hash ((rem.drop recordHeaderSize).take hd.payloadLen)).toNat = hd.payloadCrc
  · obtain ⟨hmax,hseq,hlen,hcrc⟩ := hc
    have hr := Option.some.inj ((if_pos ⟨hmax,hseq,hlen,hcrc⟩).symm.trans hif)
    have hpl : ((rem.drop recordHeaderSize).take hd.payloadLen).length = hd.payloadLen := by
      rw [List.length_take,List.length_drop]
      omega
    have hheader : (JournalRecord.mk hd.sequence hd.unit
        ((rem.drop recordHeaderSize).take hd.payloadLen)).header = hd := by
      simp only [JournalRecord.header,hpl,hcrc]
    subst hr
    refine ⟨hseq,⟨hfit.1,hfit.2.1,?_⟩,?_⟩
    · rwa [hpl]
    · simp only [encodeRecord,hheader,← hbytes,hpl,List.append_assoc]
      rw [← List.drop_drop,List.take_append_drop,List.take_append_drop]
  · cases (if_neg hc).symm.trans hif

theorem recordAt_encode (h : r.Fits) (rest : Bytes) :
    recordAt r.sequence (encodeRecord r ++ rest) = some r := by
  have hl : r.header.encode.length = recordHeaderSize := r.header.length_encode
  have htake : (encodeRecord r ++ rest).take recordHeaderSize = r.header.encode := by
    rw [encodeRecord,List.append_assoc,List.take_append_of_le_length (Nat.le_of_eq hl.symm),
      List.take_of_length_le (Nat.le_of_eq hl)]
  have hdrop : (encodeRecord r ++ rest).drop recordHeaderSize = r.payload ++ rest := by
    rw [encodeRecord,List.append_assoc,← hl,List.drop_left]
  have hlen : recordHeaderSize+r.header.payloadLen ≤ (encodeRecord r ++ rest).length := by
    simp [JournalRecord.header]
  rw [recordAt,htake,RecordHeader.decode_encode h.header,Option.bind_some,hdrop]
  have hpay : (r.payload ++ rest).take r.header.payloadLen = r.payload := List.take_left
  simp only [hpay]
  exact if_pos ⟨h.2.2,rfl,hlen,rfl⟩

theorem recordAt_nil (expected : ℕ) : recordAt expected [] = none := rfl

def encodeAll (rs : List JournalRecord) : Bytes := rs.flatMap encodeRecord

@[simp] theorem encodeAll_nil : encodeAll [] = [] := rfl
@[simp] theorem encodeAll_cons (r : JournalRecord) (rs : List JournalRecord) :
    encodeAll (r::rs) = encodeRecord r ++ encodeAll rs := rfl
@[simp] theorem encodeAll_append (rs ts : List JournalRecord) :
    encodeAll (rs ++ ts) = encodeAll rs ++ encodeAll ts := List.flatMap_append

def recordsOf (expected : ℕ) (body : Bytes) : List JournalRecord :=
  match _h : recordAt expected body with
  | none => []
  | some r => r::recordsOf (expected+1) (body.drop (recordHeaderSize+r.payload.length))
termination_by body.length
decreasing_by
  have hl := congrArg List.length (recordAt_sound _h).2.2
  simp only [List.length_append,length_encodeRecord,List.length_drop,recordHeaderSize] at hl ⊢
  omega

theorem recordsOf_of_none (h : recordAt expected body = none) :
    recordsOf expected body = [] := by
  rw [recordsOf]
  split
  · rfl
  · simp_all

theorem recordsOf_of_some
    (h : recordAt expected body = some r) : recordsOf expected body =
      r::recordsOf (expected+1) (body.drop (recordHeaderSize+r.payload.length)) := by
  rw [recordsOf]
  split <;> simp_all

theorem recordsOf_encodeAll {first : ℕ} {rs : List JournalRecord} (h : Framed first rs)
    (rest : Bytes) :
    recordsOf first (encodeAll rs ++ rest) = rs ++ recordsOf (first+rs.length) rest := by
  induction rs generalizing first with
  | nil => simp
  | cons r rs ih =>
    obtain ⟨hr,hs,hrs⟩ := Framed.cons_iff.mp h
    have hat := recordAt_encode hr (encodeAll rs ++ rest)
    have hdrop : (encodeRecord r ++ (encodeAll rs ++ rest)).drop
        (recordHeaderSize+r.payload.length) = encodeAll rs ++ rest := by
      rw [← length_encodeRecord,List.drop_left]
    rw [encodeAll_cons,List.append_assoc,← hs,recordsOf_of_some hat,hdrop,hs,ih hrs,
      List.length_cons,List.cons_append,Nat.add_assoc,Nat.add_comm rs.length]

theorem recordsOf_eq {first : ℕ} {rs : List JournalRecord} {rest : Bytes}
    (h : Framed first rs) (hbody : body = encodeAll rs ++ rest)
    (hrest : recordAt (first+rs.length) rest = none) : recordsOf first body = rs := by
  rw [hbody,recordsOf_encodeAll h,recordsOf_of_none hrest,List.append_nil]

end Maki
