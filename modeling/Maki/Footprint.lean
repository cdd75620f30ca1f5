import Mathlib
import Maki.JournalFormat
import Maki.Geometry

/-! The journal footprint of a request (`maki_format::journal::checked_append_footprint`). Groups of
equally long records are projected onto the active segment and the segments behind it in closed
form; placing the records one after the other gives the same. -/
namespace Maki

/-- The projected active segment, as its write offset and record count, and the bytes added. -/
structure Projection where
  slot : Option (ℕ × ℕ)
  added : ℕ
  deriving DecidableEq

namespace Projection

/-- How many records of this length the projected segment still takes. An empty segment takes one
of any length. -/
def fitting (segmentSize : ℕ) (p : Projection) (recordLen count : ℕ) : ℕ :=
  min (match p.slot with
    | none => 0
    | some (offset,records) =>
      let fit := (segmentSize-offset)/recordLen
      if records = 0 then max fit 1 else fit) count

def fill (p : Projection) (recordLen fitting : ℕ) : Option Projection :=
  if fitting > 0 then do
    let (offset,records) ← p.slot
    let bytes ← checkedMul recordLen fitting
    let added ← checkedAdd p.added bytes
    let offset ← checkedAdd offset bytes
    let records ← checkedAdd records fitting
    return ⟨some (offset,records),added⟩
  else some p

def perSegment (segmentSize recordLen : ℕ) : ℕ := max ((segmentSize-segmentHeaderSize)/recordLen) 1

def divCeil (n d : ℕ) : ℕ := if n%d > 0 then n/d+1 else n/d

def spill (segmentSize : ℕ) (p : Projection) (recordLen remaining : ℕ) : Option Projection :=
  if remaining > 0 then do
    let per := perSegment segmentSize recordLen
    let added ← checkedAdd p.added (← checkedMul recordLen remaining)
    let added ← checkedAdd added (← checkedMul segmentHeaderSize (divCeil remaining per))
    let last := (remaining-1)%per+1
    let offset ← checkedAdd segmentHeaderSize (← checkedMul recordLen last)
    return ⟨some (offset,last),added⟩
  else some p

def group (segmentSize : ℕ) (p : Projection) (g : ℕ × ℕ) : Option Projection :=
  if g.2 = 0 then some p
  else if g.1 = 0 then none
  else
    let fitting := p.fitting segmentSize g.1 g.2
    (p.fill g.1 fitting).bind fun q => q.spill segmentSize g.1 (g.2-fitting)

end Projection

def checkedAppendFootprint (segmentSize : ℕ) (active : Option (ℕ × ℕ))
    (recordGroups : List (ℕ × ℕ)) : Option ℕ :=
  (recordGroups.foldlM (Projection.group segmentSize) ⟨active,0⟩).map Projection.added

theorem checkedAdd_eq_some {a b c : ℕ} : checkedAdd a b = some c ↔ a+b = c ∧ a+b < 2^64 := by
  unfold checkedAdd
  by_cases h : a+b < 2^64
  · rw [if_pos h,Option.some.injEq,and_iff_left h]
  · rw [if_neg h]
    exact ⟨by simp,fun hc => absurd hc.2 h⟩

theorem checkedMul_eq_some {a b c : ℕ} : checkedMul a b = some c ↔ a*b = c ∧ a*b < 2^64 := by
  unfold checkedMul
  by_cases h : a*b < 2^64
  · rw [if_pos h,Option.some.injEq,and_iff_left h]
  · rw [if_neg h]
    exact ⟨by simp,fun hc => absurd hc.2 h⟩

namespace Projection

def rolls (segmentSize : ℕ) (p : Projection) (recordLen : ℕ) : Bool :=
  match p.slot with
  | none => true
  | some (offset,records) => records > 0 && offset+recordLen > segmentSize

def place (segmentSize : ℕ) (p : Projection) (recordLen : ℕ) : Projection :=
  match p.slot with
  | none => ⟨some (segmentHeaderSize+recordLen,1),p.added+(segmentHeaderSize+recordLen)⟩
  | some (offset,records) =>
    if p.rolls segmentSize recordLen then
      ⟨some (segmentHeaderSize+recordLen,1),p.added+(segmentHeaderSize+recordLen)⟩
    else ⟨some (offset+recordLen,records+1),p.added+recordLen⟩

def places (segmentSize : ℕ) (recordLen : ℕ) (n : ℕ) (p : Projection) : Projection :=
  (fun p => p.place segmentSize recordLen)^[n] p

def InRange (p : Projection) : Prop :=
  p.added < 2^64 ∧ ∀ slot ∈ p.slot, slot.1 < 2^64 ∧ slot.2 < 2^64

section Place

variable {segmentSize recordLen : ℕ} {p : Projection}

theorem place_of_rolls (h : p.rolls segmentSize recordLen = true) :
    p.place segmentSize recordLen =
      ⟨some (segmentHeaderSize+recordLen,1),p.added+(segmentHeaderSize+recordLen)⟩ := by
  unfold place
  split
  · rfl
  · rw [if_pos h]

variable {offset records : ℕ} {q : Projection}

theorem place_of_fits (hs : p.slot = some (offset,records))
    (h : records = 0 ∨ offset+recordLen ≤ segmentSize) :
    p.place segmentSize recordLen = ⟨some (offset+recordLen,records+1),p.added+recordLen⟩ := by
  have hno : ¬ p.rolls segmentSize recordLen = true := by
    simp only [rolls,hs,gt_iff_lt,Bool.and_eq_true,decide_eq_true_eq]
    omega
  simp only [place,hs,if_neg hno]

theorem places_succ (n : ℕ) : places segmentSize recordLen (n+1) p =
    (places segmentSize recordLen n p).place segmentSize recordLen :=
  Function.iterate_succ_apply' _ _ _

theorem places_of_fitting {n : ℕ} (hs : p.slot = some (offset,records))
    (hn : n = 0 ∨ records = 0 ∧ n ≤ 1 ∨ offset+n*recordLen ≤ segmentSize) :
    places segmentSize recordLen n p =
      ⟨some (offset+n*recordLen,records+n),p.added+n*recordLen⟩ := by
  induction n with
  | zero => simp [places,← hs]
  | succ n ih =>
    have hmul : (n+1)*recordLen = n*recordLen+recordLen := Nat.succ_mul ..
    rw [places_succ,ih (by omega),place_of_fits rfl (by omega)]
    simp only [Projection.mk.injEq,Option.some.injEq,Prod.mk.injEq]
    omega

/-- From a segment that takes no further record, new segments are filled one after the other:
behind `n+1` records stand `n/per+1` segments, the last of which holds `n%per+1`. -/
theorem places_of_rolls (hlen : 0 < recordLen) (h : p.rolls segmentSize recordLen = true) (n : ℕ) :
    places segmentSize recordLen (n+1) p =
      ⟨some (segmentHeaderSize+recordLen*(n%perSegment segmentSize recordLen+1),
          n%perSegment segmentSize recordLen+1),
        p.added+recordLen*(n+1)+segmentHeaderSize*(n/perSegment segmentSize recordLen+1)⟩ := by
  set per := perSegment segmentSize recordLen with hper
  have hpos : 0 < per := Nat.lt_of_lt_of_le Nat.one_pos (Nat.le_max_right _ _)
  induction n with
  | zero =>
    rw [places_succ,show places segmentSize recordLen 0 p = p from rfl,place_of_rolls h]
    simp only [Nat.zero_mod,Nat.zero_div,Projection.mk.injEq,true_and,Nat.zero_add,Nat.mul_one]
    omega
  | succ n ih =>
    rw [places_succ,ih]
    have hfloor := Nat.div_add_mod (segmentSize-segmentHeaderSize) recordLen
    have hmod := Nat.mod_lt (segmentSize-segmentHeaderSize) hlen
    set floor := (segmentSize-segmentHeaderSize)/recordLen with hf
    have hperf : per = max floor 1 := rfl
    by_cases hlast : n%per+1 < per
    · -- the segment has room, so more than one record fits into it
      have hfit : segmentHeaderSize+recordLen*(n%per+1)+recordLen ≤ segmentSize := by
        have hle : recordLen*(n%per+1+1) ≤ recordLen*floor := Nat.mul_le_mul_left _ (by omega)
        rw [Nat.mul_succ] at hle
        have hone : recordLen*1 ≤ recordLen*(n%per+1) := Nat.mul_le_mul_left _ (by omega)
        omega
      rw [place_of_fits rfl (.inr hfit)]
      have hm : (n+1)%per = n%per+1 := by
        rw [Nat.add_mod,Nat.mod_eq_of_lt (show 1 < per by omega),Nat.mod_eq_of_lt hlast]
      have hd : (n+1)/per = n/per := by
        have h₁ := Nat.div_add_mod n per
        have h₂ := Nat.div_add_mod (n+1) per
        rw [hm] at h₂
        exact Nat.eq_of_mul_eq_mul_left hpos (by omega)
      rw [hm,hd]
      simp only [Projection.mk.injEq,Option.some.injEq,Prod.mk.injEq,and_true]
      exact ⟨by ring,by ring⟩
    · have hroll : rolls segmentSize
          ⟨some (segmentHeaderSize+recordLen*(n%per+1),n%per+1),
            p.added+recordLen*(n+1)+segmentHeaderSize*(n/per+1)⟩ recordLen = true := by
        have hge : recordLen*floor ≤ recordLen*(n%per+1) := Nat.mul_le_mul_left _ (by omega)
        simp only [rolls,gt_iff_lt,Bool.and_eq_true,decide_eq_true_eq]
        omega
      rw [place_of_rolls hroll]
      have hlt := Nat.mod_lt n hpos
      have h₁ := Nat.div_add_mod n per
      have hnext : n+1 = per*(n/per+1) := by
        rw [Nat.mul_succ]
        omega
      have hm : (n+1)%per = 0 := by
        rw [hnext]
        exact Nat.mul_mod_right _ _
      have hd : (n+1)/per = n/per+1 := by
        rw [hnext]
        exact Nat.mul_div_cancel_left _ hpos
      rw [hm,hd]
      simp only [Projection.mk.injEq,true_and,Nat.zero_add,Nat.mul_one]
      ring

theorem places_add (m n : ℕ) : places segmentSize recordLen (m+n) p =
    places segmentSize recordLen n (places segmentSize recordLen m p) := by
  rw [places,Nat.add_comm,Function.iterate_add_apply]
  rfl

/-- As many records as fit are placed into the segment, and the next one starts a new one. -/
theorem fitting_spec (segmentSize : ℕ) (hlen : 0 < recordLen)
    (hs : p.slot = some (offset,records)) (count : ℕ) :
    let f := p.fitting segmentSize recordLen count
    (f = 0 ∨ records = 0 ∧ f ≤ 1 ∨ offset+f*recordLen ≤ segmentSize) ∧
      (f < count → 0 < records+f ∧ segmentSize < offset+f*recordLen+recordLen) := by
  intro f
  have hdiv := Nat.div_add_mod (segmentSize-offset) recordLen
  have hmod := Nat.mod_lt (segmentSize-offset) hlen
  have hf : f = min (if records = 0 then max ((segmentSize-offset)/recordLen) 1
      else (segmentSize-offset)/recordLen) count := by
    simp only [f,fitting,hs]
  set fit := (segmentSize-offset)/recordLen with hfit
  rw [Nat.mul_comm recordLen fit] at hdiv
  refine ⟨?_,?_⟩
  · by_cases hle : f ≤ fit
    · have hmul := Nat.mul_le_mul_right recordLen hle
      by_cases h₀ : f = 0
      · exact .inl h₀
      · have hone := Nat.mul_le_mul_right recordLen (Nat.pos_of_ne_zero h₀)
        omega
    · by_cases hr : records = 0
      · rw [if_pos hr] at hf
        omega
      · rw [if_neg hr] at hf
        omega
  · intro hlt
    have hge : fit ≤ f := by
      by_cases hr : records = 0
      · rw [if_pos hr] at hf
        omega
      · rw [if_neg hr] at hf
        omega
    have hmul := Nat.mul_le_mul_right recordLen hge
    refine ⟨?_,by omega⟩
    by_cases hr : records = 0
    · rw [if_pos hr] at hf
      omega
    · omega

theorem fitting_le (count : ℕ) : p.fitting segmentSize recordLen count ≤ count := Nat.min_le_right _ _

theorem fitting_none (hs : p.slot = none) (count : ℕ) : p.fitting segmentSize recordLen count = 0 := by
  simp [fitting,hs]

theorem rolls_places (hlen : 0 < recordLen) {count : ℕ}
    (h : p.fitting segmentSize recordLen count < count) :
    (places segmentSize recordLen (p.fitting segmentSize recordLen count) p).rolls segmentSize
      recordLen = true := by
  cases hs : p.slot with
  | none =>
    rw [fitting_none hs]
    simp only [places,Function.iterate_zero,id_eq,rolls,hs]
  | some slot =>
    obtain ⟨offset,records⟩ := slot
    obtain ⟨hfit,hfull⟩ := fitting_spec segmentSize hlen hs count
    obtain ⟨hpos,hlong⟩ := hfull h
    rw [places_of_fitting hs hfit]
    simp only [rolls,gt_iff_lt,Bool.and_eq_true,decide_eq_true_eq]
    exact ⟨hpos,hlong⟩

/-- Filling the segment succeeds exactly when no number overflows. -/
theorem fill_eq_some_iff {f : ℕ} (hs : p.slot = some (offset,records))
    (hf : 0 < f) : p.fill recordLen f = some q ↔
      q = ⟨some (offset+f*recordLen,records+f),p.added+f*recordLen⟩ ∧ q.InRange := by
  simp only [fill,if_pos hf,hs,bind,Option.bind_eq_some_iff,checkedMul_eq_some,checkedAdd_eq_some,pure,
    Option.some.injEq,Nat.mul_comm recordLen f]
  constructor
  · rintro ⟨_,rfl,_,⟨rfl,_⟩,_,⟨rfl,hadded⟩,_,⟨rfl,ho⟩,_,⟨rfl,hr⟩,rfl⟩
    exact ⟨rfl,hadded,by rintro _ ⟨⟩; exact ⟨ho,hr⟩⟩
  · rintro ⟨rfl,hadded,hslot⟩
    obtain ⟨ho,hr⟩ := hslot _ rfl
    have hmul : f*recordLen < 2^64 := Nat.lt_of_le_of_lt (Nat.le_add_left _ _) hadded
    exact ⟨_,rfl,_,⟨rfl,hmul⟩,_,⟨rfl,hadded⟩,_,⟨rfl,ho⟩,_,⟨rfl,hr⟩,rfl⟩

theorem divCeil_succ (n : ℕ) {per : ℕ} (h : 0 < per) : divCeil (n+1) per = n/per+1 := by
  have h₁ := Nat.div_add_mod n per
  have hlt := Nat.mod_lt n h
  unfold divCeil
  by_cases hlast : n%per+1 = per
  · have hnext : n+1 = per*(n/per+1) := by
      rw [Nat.mul_succ]
      omega
    rw [if_neg (by rw [hnext,Nat.mul_mod_right]; exact Nat.lt_irrefl 0)]
    conv_lhs => rw [hnext]
    exact Nat.mul_div_cancel_left _ h
  · have hm : (n+1)%per = n%per+1 := by
      conv_lhs => rw [← h₁,Nat.add_assoc,Nat.mul_add_mod]
      exact Nat.mod_eq_of_lt (by omega)
    have hd : (n+1)/per = n/per := by
      have h₂ := Nat.div_add_mod (n+1) per
      rw [hm] at h₂
      exact Nat.eq_of_mul_eq_mul_left h (by omega)
    rw [if_pos (by omega),hd]

/-- A projection onto new segments is in range as soon as the bytes added are. -/
theorem inRange_spill (hsize : segmentSize < 2^64) (hlen : 0 < recordLen) (n : ℕ) {base : ℕ}
    (h : base+recordLen*(n+1)+segmentHeaderSize*(n/perSegment segmentSize recordLen+1) < 2^64) :
    InRange ⟨some (segmentHeaderSize+recordLen*(n%perSegment segmentSize recordLen+1),
        n%perSegment segmentSize recordLen+1),
      base+recordLen*(n+1)+segmentHeaderSize*(n/perSegment segmentSize recordLen+1)⟩ := by
  refine ⟨h,?_⟩
  rintro _ ⟨⟩
  set per := perSegment segmentSize recordLen with hper
  have hpos : 0 < per := Nat.lt_of_lt_of_le Nat.one_pos (Nat.le_max_right _ _)
  have hlt := Nat.mod_lt n hpos
  have hrecords : n%per+1 ≤ recordLen*(n%per+1) := Nat.le_mul_of_pos_left _ hlen
  suffices hoffset : segmentHeaderSize+recordLen*(n%per+1) < 2^64 from ⟨hoffset,by simp only; omega⟩
  by_cases hone : n%per = 0
  · -- one record and its header have been added
    have hrec : recordLen*1 ≤ recordLen*(n+1) := Nat.mul_le_mul_left _ (by omega)
    have hhead : segmentHeaderSize*1 ≤ segmentHeaderSize*(n/per+1) :=
      Nat.mul_le_mul_left _ (Nat.le_add_left _ _)
    rw [hone]
    omega
  · -- more than one record stays within the segment's size
    have hfloor := Nat.div_mul_le_self (segmentSize-segmentHeaderSize) recordLen
    have hperf : per = max ((segmentSize-segmentHeaderSize)/recordLen) 1 := rfl
    have hle : recordLen*(n%per+1) ≤ recordLen*((segmentSize-segmentHeaderSize)/recordLen) :=
      Nat.mul_le_mul_left _ (by omega)
    rw [Nat.mul_comm _ recordLen] at hfloor
    simp only [segmentHeaderSize] at hfloor hle ⊢
    omega

/-- Spilling into new segments succeeds exactly when no number overflows. -/
theorem spill_eq_some_iff (hsize : segmentSize < 2^64) (hlen : 0 < recordLen) (n : ℕ) :
    p.spill segmentSize recordLen (n+1) = some q ↔
      q = ⟨some (segmentHeaderSize+recordLen*(n%perSegment segmentSize recordLen+1),
          n%perSegment segmentSize recordLen+1),
        p.added+recordLen*(n+1)+segmentHeaderSize*(n/perSegment segmentSize recordLen+1)⟩ ∧
      q.InRange := by
  have hpos : 0 < perSegment segmentSize recordLen :=
    Nat.lt_of_lt_of_le Nat.one_pos (Nat.le_max_right _ _)
  simp only [spill,if_pos (Nat.succ_pos n),bind,Option.bind_eq_some_iff,checkedMul_eq_some,
    checkedAdd_eq_some,pure,Option.some.injEq,divCeil_succ n hpos,Nat.add_sub_cancel]
  constructor
  · rintro ⟨_,⟨rfl,_⟩,_,⟨rfl,_⟩,_,⟨rfl,_⟩,_,⟨rfl,hadded⟩,_,⟨rfl,_⟩,_,⟨rfl,_⟩,rfl⟩
    exact ⟨rfl,inRange_spill hsize hlen n hadded⟩
  · rintro ⟨rfl,hadded,hslot⟩
    have ho := (hslot _ rfl).1
    simp only at hadded ho
    exact ⟨_,⟨rfl,by omega⟩,_,⟨rfl,by omega⟩,_,⟨rfl,by omega⟩,_,⟨rfl,hadded⟩,_,⟨rfl,by omega⟩,_,
      ⟨rfl,ho⟩,rfl⟩

/-- A group succeeds exactly when placing its records one by one never overflows, with the same
result. -/
theorem group_eq_some_iff (hsize : segmentSize < 2^64) (hlen : 0 < recordLen) {count : ℕ}
    : p.group segmentSize (recordLen,count) = some q ↔
      q = places segmentSize recordLen count p ∧
        ∀ j < count, (places segmentSize recordLen (j+1) p).InRange := by
  by_cases hcount : count = 0
  · subst hcount
    simp [group,places,eq_comm]
  set f := p.fitting segmentSize recordLen count with hf
  have hle : f ≤ count := fitting_le count
  -- what the fill makes of the projection
  have hfill : ∀ q, p.fill recordLen f = some q ↔ q = places segmentSize recordLen f p ∧
      ∀ j < f, (places segmentSize recordLen (j+1) p).InRange := by
    intro q
    by_cases hz : f = 0
    · simp [hz,fill,places,eq_comm]
    cases hs : p.slot with
    | none => exact absurd (fitting_none hs count) hz
    | some slot =>
      obtain ⟨offset,records⟩ := slot
      have hfit := (fitting_spec segmentSize hlen hs count).1
      rw [← hf] at hfit
      have hplaces : ∀ j ≤ f, places segmentSize recordLen j p =
          ⟨some (offset+j*recordLen,records+j),p.added+j*recordLen⟩ := by
        intro j hj
        have hmul := Nat.mul_le_mul_right recordLen hj
        exact places_of_fitting hs (by omega)
      rw [fill_eq_some_iff hs (Nat.pos_of_ne_zero hz),hplaces f (Nat.le_refl _)]
      refine and_congr_right ?_
      rintro rfl
      constructor
      · rintro ⟨hadded,hslot⟩ j hj
        obtain ⟨ho,hr⟩ := hslot _ rfl
        simp only at hadded ho hr
        have hmul := Nat.mul_le_mul_right recordLen (show j+1 ≤ f from hj)
        rw [hplaces (j+1) hj]
        refine ⟨by simp only; omega,?_⟩
        rintro _ ⟨⟩
        exact ⟨by simp only; omega,by simp only; omega⟩
      · intro hall
        have hlast := hall (f-1) (by omega)
        rwa [Nat.sub_add_cancel (Nat.pos_of_ne_zero hz),hplaces f (Nat.le_refl _)] at hlast
  have hgroup : p.group segmentSize (recordLen,count) =
      (p.fill recordLen f).bind fun q => q.spill segmentSize recordLen (count-f) := by
    simp only [group,if_neg hcount,if_neg (Nat.ne_of_gt hlen),hf]
  rw [hgroup,Option.bind_eq_some_iff]
  by_cases hall : f = count
  · rw [← hall,Nat.sub_self]
    simp only [spill,gt_iff_lt,Nat.lt_irrefl,if_false,Option.some.injEq,exists_eq_right]
    exact hfill q
  · obtain ⟨n,hn⟩ : ∃ n, count-f = n+1 := ⟨count-f-1,by omega⟩
    have hroll := rolls_places hlen (show p.fitting segmentSize recordLen count < count by omega)
    rw [← hf] at hroll
    have hspill : ∀ i, places segmentSize recordLen (f+(i+1)) p = _ := fun i =>
      (places_add f (i+1)).trans (places_of_rolls hlen hroll i)
    have hend : count = f+(n+1) := by omega
    rw [hn,hend]
    constructor
    · rintro ⟨r,hr,hq⟩
      obtain ⟨rfl,hfirst⟩ := (hfill r).mp hr
      obtain ⟨rfl,hrange⟩ := (spill_eq_some_iff hsize hlen n).mp hq
      refine ⟨(hspill n).symm,fun j hj => ?_⟩
      by_cases hjf : j < f
      · exact hfirst j hjf
      · obtain ⟨i,rfl⟩ : ∃ i, j = f+i := ⟨j-f,by omega⟩
        rw [Nat.add_assoc,hspill i]
        apply inRange_spill hsize hlen
        refine Nat.lt_of_le_of_lt ?_ hrange.1
        have h₁ : recordLen*(i+1) ≤ recordLen*(n+1) := Nat.mul_le_mul_left _ (by omega)
        have h₂ : segmentHeaderSize*(i/perSegment segmentSize recordLen+1) ≤
            segmentHeaderSize*(n/perSegment segmentSize recordLen+1) :=
          Nat.mul_le_mul_left _ (Nat.add_le_add_right (Nat.div_le_div_right (by omega)) 1)
        simp only
        omega
    · rintro ⟨rfl,hrange⟩
      refine ⟨_,(hfill _).mpr ⟨rfl,fun j hj => hrange j (by omega)⟩,?_⟩
      rw [hspill n]
      refine (spill_eq_some_iff hsize hlen n).mpr ⟨rfl,?_⟩
      have hlast := hrange (f+n) (by omega)
      rwa [Nat.add_assoc,hspill n] at hlast

end Place

section Runs

variable {segmentSize : ℕ}

def placeAll (segmentSize : ℕ) (p : Projection) (lens : List ℕ) : Projection :=
  lens.foldl (fun p len => p.place segmentSize len) p

theorem placeAll_added (slot : Option (ℕ × ℕ)) (n : ℕ) (lens : List ℕ) :
    placeAll segmentSize ⟨slot,n⟩ lens = ⟨(placeAll segmentSize ⟨slot,0⟩ lens).slot,
      n+(placeAll segmentSize ⟨slot,0⟩ lens).added⟩ := by
  induction lens generalizing slot n with
  | nil => rfl
  | cons len lens ih =>
    obtain ⟨next,k,hplace⟩ : ∃ next k, ∀ n,
        place segmentSize ⟨slot,n⟩ len = ⟨next,n+k⟩ := by
      cases slot with
      | none => exact ⟨_,_,fun _ => rfl⟩
      | some s =>
        by_cases hr : rolls segmentSize ⟨some s,0⟩ len = true
        · exact ⟨_,_,fun n => place_of_rolls hr⟩
        · refine ⟨some (s.1+len,s.2+1),len,fun n => ?_⟩
          have hn : ¬ rolls segmentSize ⟨some s,n⟩ len = true := hr
          simp only [place,if_neg hn]
    simp only [placeAll,List.foldl_cons,hplace] at ih ⊢
    rw [ih,ih next (0+k)]
    simp only [Projection.mk.injEq,true_and]
    omega

theorem placeAll_append (p : Projection) (ls ms : List ℕ) :
    p.placeAll segmentSize (ls ++ ms) = (p.placeAll segmentSize ls).placeAll segmentSize ms :=
  List.foldl_append ..

theorem le_placeAll (segmentSize : ℕ) (p : Projection) (lens : List ℕ) :
    p.added ≤ (p.placeAll segmentSize lens).added := by
  obtain ⟨slot,n⟩ := p
  rw [placeAll_added]
  exact Nat.le_add_right _ _

theorem places_place (len n : ℕ) (p : Projection) :
    places segmentSize len n (p.place segmentSize len) = places segmentSize len (n+1) p :=
  (Function.iterate_succ_apply _ _ _).symm

theorem foldlM_replicate (hsize : segmentSize < 2^64) (len count : ℕ) (p : Projection) :
    (List.replicate count (len,1)).foldlM (group segmentSize) p = p.group segmentSize (len,count) := by
  induction count generalizing p with
  | zero => simp [group]
  | succ n ih =>
    rw [List.replicate_succ,List.foldlM_cons]
    by_cases hlen : len = 0
    · simp [group,hlen]
    have hpos := Nat.pos_of_ne_zero hlen
    apply Option.ext
    intro r
    simp only [bind,Option.bind_eq_some_iff,ih,group_eq_some_iff hsize hpos]
    constructor
    · rintro ⟨q,⟨rfl,hfirst⟩,rfl,hrest⟩
      refine ⟨places_place len n p,fun j hj => ?_⟩
      cases j with
      | zero => exact hfirst 0 Nat.one_pos
      | succ j =>
        have h := hrest j (by omega)
        rwa [show places segmentSize len 1 p = p.place segmentSize len from rfl,places_place] at h
    · rintro ⟨rfl,hall⟩
      refine ⟨p.place segmentSize len,⟨rfl,fun j hj => ?_⟩,(places_place len n p).symm,fun j hj => ?_⟩
      · exact hall j (by omega)
      · rw [places_place]
        exact hall (j+1) (by omega)

/-- Projecting records one by one places them; no number overflows on the way. -/
theorem foldlM_single (hsize : segmentSize < 2^64) (lens : List ℕ) {p q : Projection}
    (h : (lens.map fun len => (len,1)).foldlM (group segmentSize) p = some q) :
    q = p.placeAll segmentSize lens ∧ (∀ len ∈ lens, 0 < len) ∧
      ∀ ls ms, lens = ls ++ ms → ls ≠ [] → (p.placeAll segmentSize ls).InRange := by
  induction lens generalizing p with
  | nil =>
    refine ⟨(Option.some.inj h).symm,by simp,fun ls ms hl hne => ?_⟩
    exact absurd (List.append_eq_nil_iff.mp hl.symm).1 hne
  | cons len lens ih =>
    rw [List.map_cons,List.foldlM_cons] at h
    obtain ⟨r,hr,hrest⟩ := Option.bind_eq_some_iff.mp h
    have hpos : 0 < len := by
      rw [Nat.pos_iff_ne_zero]
      rintro rfl
      simp [group] at hr
    obtain ⟨rfl,hrange⟩ := (group_eq_some_iff hsize hpos).mp hr
    obtain ⟨hq,hlens,hall⟩ := ih hrest
    refine ⟨hq,by simpa [hpos] using hlens,fun ls ms hl hne => ?_⟩
    cases ls with
    | nil => exact absurd rfl hne
    | cons l ls =>
      obtain ⟨rfl,htail⟩ := List.cons.inj hl
      by_cases hls : ls = []
      · subst hls
        exact hrange 0 Nat.one_pos
      · exact hall ls ms htail hls

end Runs

end Projection

def ungroup (groups : List (ℕ × ℕ)) : List ℕ := groups.flatMap fun g => List.replicate g.2 g.1

theorem checkedAppendFootprint_ungroup {segmentSize : ℕ} (hsize : segmentSize < 2^64)
    (active : Option (ℕ × ℕ)) (groups : List (ℕ × ℕ)) :
    checkedAppendFootprint segmentSize active ((ungroup groups).map fun len => (len,1)) =
      checkedAppendFootprint segmentSize active groups := by
  unfold checkedAppendFootprint
  congr 1
  generalize (⟨active,0⟩ : Projection) = p
  induction groups generalizing p with
  | nil => rfl
  | cons g groups ih =>
    rw [ungroup,List.flatMap_cons,List.map_append,List.foldlM_append,List.map_replicate,
      Projection.foldlM_replicate hsize,List.foldlM_cons]
    exact congrArg (Option.bind _) (funext ih)

end Maki
