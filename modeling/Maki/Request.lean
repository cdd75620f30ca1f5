import Maki.CoreError
import Maki.Geometry
import Maki.Splice

/-! The requests that change a device (`maki_core::engine`): their checks, the unit ranges
they lock and the plaintext they build for each unit. What a request is for is stated byte by
byte (`Mutation.byteAt`), and the buffers the engine builds have exactly these bytes. -/
namespace Maki

inductive WriteInput where
  | Borrowed (bytes : Bytes)
  | Zeroes (len : ℕ)
  deriving DecidableEq

namespace WriteInput

def len : WriteInput → ℕ
  | .Borrowed bytes => bytes.length
  | .Zeroes n => n

def byte : WriteInput → ℕ → UInt8
  | .Borrowed bytes, i => Splice.at_ bytes i
  | .Zeroes _, _ => 0

def slice (start n : ℕ) : WriteInput → Bytes
  | .Borrowed bytes => (bytes.drop start).take n
  | .Zeroes _ => List.replicate n 0

theorem length_slice {start n : ℕ} {data : WriteInput} (h : start+n ≤ data.len) :
    (data.slice start n).length = n := by
  cases data with
  | Borrowed bytes =>
    simp only [len] at h
    simp only [slice,List.length_take,List.length_drop]
    omega
  | Zeroes m => exact List.length_replicate

theorem at_slice {start n i : ℕ} {data : WriteInput} (hi : i < n) :
    Splice.at_ (data.slice start n) i = data.byte (start+i) := by
  cases data with
  | Borrowed bytes => simp [slice,byte,Splice.at_,List.getD_eq_getElem?_getD,hi]
  | Zeroes m => simp [slice,byte,Splice.at_,List.getD_eq_getElem?_getD,hi]

end WriteInput

/-- What the engine knows when a request arrives. -/
structure EngineParams where
  geometry : Geometry
  maxRequestBytes : ℕ
  supportsDiscard : Bool
  deriving DecidableEq

inductive Mutation where
  | write (offset : ℕ) (data : WriteInput)
  | trim (offset len : ℕ)
  deriving DecidableEq

namespace EngineParams

variable (e : EngineParams)

def unitSize : ℕ := e.geometry.cryptoUnitSize

def checkExtent (offset len : ℕ) : Except CoreError Unit :=
  if len = 0 ∨ offset % e.geometry.deviceBlockSize ≠ 0 ∨ len % e.geometry.deviceBlockSize ≠ 0 ∨
      (checkedAdd offset len).map (fun stop => decide (stop > e.geometry.maxVirtualSize)) ≠ some false then
    .error (.Invalid s!"bad request range: offset {offset}, len {len}")
  else .ok ()

def checkRange (offset len : ℕ) : Except CoreError Unit :=
  (e.checkExtent offset len).bind fun _ =>
    if len > e.maxRequestBytes then
      .error (.Invalid
        s!"request of {len} bytes exceeds the maximum I/O size {e.maxRequestBytes} (nbd.maximum_io)")
    else .ok ()

theorem len_pos_of_checkRange {e : EngineParams} {offset len : ℕ} (h : e.checkRange offset len = .ok ()) :
    0 < len := by
  apply Nat.pos_of_ne_zero
  rintro rfl
  simp [checkRange,checkExtent,Except.bind] at h

def check : Mutation → Except CoreError Unit
  | .write offset data => e.checkRange offset data.len
  | .trim offset len => (e.checkExtent offset len).bind fun _ =>
      if e.supportsDiscard then .ok ()
      else .error (.Invalid "discard requires a volume created with --discard")

def trimFirst (offset : ℕ) : ℕ := (offset+e.unitSize-1)/e.unitSize
def trimEnd (offset len : ℕ) : ℕ := (offset+len)/e.unitSize

/-- A trim is journaled in chunks of at most the largest request, each as first and last unit. -/
def trimChunks (perChunk stop : ℕ) : ℕ → ℕ → List (ℕ × ℕ)
  | 0, _ => []
  | fuel+1, start =>
    if start < stop then
      let next := min (start+perChunk) stop
      (start,next-1)::trimChunks perChunk stop fuel next
    else []

/-- The unit ranges a request locks, one after the other. -/
def chunks : Mutation → List (ℕ × ℕ)
  | .write offset data => [(offset/e.unitSize,(offset+data.len-1)/e.unitSize)]
  | .trim offset len =>
    let first := e.trimFirst offset
    let stop := e.trimEnd offset len
    trimChunks (max (e.maxRequestBytes/e.unitSize) 1) stop (stop-first) first

theorem trimChunks_mem {perChunk stop fuel start : ℕ} (hp : 0 < perChunk) {c : ℕ × ℕ}
    (hc : c ∈ trimChunks perChunk stop fuel start) : start ≤ c.1 ∧ c.1 ≤ c.2 ∧ c.2 < stop := by
  induction fuel generalizing start with
  | zero => cases hc
  | succ fuel ih =>
    simp only [trimChunks] at hc
    split at hc
    · rename_i hlt
      rcases List.mem_cons.mp hc with rfl | hc
      · simp only
        omega
      · have h := ih hc
        omega
    · cases hc

def full (offset len unit : ℕ) : Bool :=
  offset ≤ unit*e.unitSize && offset+len ≥ unit*e.unitSize+e.unitSize

/-- The plaintext a write builds for a unit: what the unit held if it is covered in part, with
the written bytes over it. -/
def unitBuffer (offset : ℕ) (data : WriteInput) (unit : ℕ) (existing : Option Bytes) : Bytes :=
  let unitStart := unit*e.unitSize
  let zeroed := List.replicate e.unitSize 0
  let buf := if e.full offset data.len unit then zeroed else existing.getD zeroed
  let dstFrom := max offset unitStart-unitStart
  let dstTo := min (offset+data.len) (unitStart+e.unitSize)-unitStart
  Splice.splice dstFrom (data.slice (max offset unitStart-offset) (dstTo-dstFrom)) buf

end EngineParams

namespace Mutation

variable (e : EngineParams)

/-- The byte a request puts at a position of the device, if it changes that position: a write
its own range, a trim the units that lie completely inside its range. -/
def byteAt : Mutation → ℕ → Option UInt8
  | .write offset data, pos =>
    if offset ≤ pos ∧ pos < offset+data.len then some (data.byte (pos-offset)) else none
  | .trim offset len, pos =>
    let unit := pos/e.unitSize
    if offset ≤ unit*e.unitSize ∧ (unit+1)*e.unitSize ≤ offset+len then some 0 else none

def update (m : Mutation) (unit : ℕ) (old : Bytes) : Bytes :=
  old.mapIdx fun k b => (m.byteAt e (unit*e.unitSize+k)).getD b

variable {e}

@[simp] theorem length_update (m : Mutation) (unit : ℕ) (old : Bytes) :
    (m.update e unit old).length = old.length := by
  simp [update]

theorem at_update (m : Mutation) (unit : ℕ) {old : Bytes} {k : ℕ} (hk : k < old.length) :
    Splice.at_ (m.update e unit old) k =
      (m.byteAt e (unit*e.unitSize+k)).getD (Splice.at_ old k) := by
  simp [update,Splice.at_,List.getD_eq_getElem?_getD,hk]

theorem write_meets {offset n unit us : ℕ} (hus : 0 < us) (hn : 0 < n)
    (hfirst : offset/us ≤ unit) (hlast : unit ≤ (offset+n-1)/us) :
    offset < unit*us+us ∧ unit*us < offset+n := by
  have h₁ := Nat.lt_succ_of_le hfirst
  rw [Nat.div_lt_iff_lt_mul hus,Nat.succ_mul] at h₁
  have h₂ := (Nat.le_div_iff_mul_le hus).mp hlast
  omega

/-- The buffer of a unit has the request's bytes where it writes and what the unit held
elsewhere. -/
theorem unitBuffer_eq {offset unit : ℕ} {data : WriteInput} {existing : Option Bytes} {old : Bytes}
    (hus : 0 < e.unitSize) (hlen : 0 < data.len) (hold : old.length = e.unitSize)
    (hfirst : offset/e.unitSize ≤ unit) (hlast : unit ≤ (offset+data.len-1)/e.unitSize)
    (hpart : e.full offset data.len unit = false →
      existing.getD (List.replicate e.unitSize 0) = old) :
    e.unitBuffer offset data unit existing = (Mutation.write offset data).update e unit old := by
  obtain ⟨hmeet₁,hmeet₂⟩ := write_meets hus hlen hfirst hlast
  have hbuf : ∃ buf : Bytes, buf.length = e.unitSize ∧
      (e.full offset data.len unit = false → buf = old) ∧
      e.unitBuffer offset data unit existing =
        Splice.splice (max offset (unit*e.unitSize)-unit*e.unitSize)
          (data.slice (max offset (unit*e.unitSize)-offset)
            (min (offset+data.len) (unit*e.unitSize+e.unitSize)-unit*e.unitSize-
              (max offset (unit*e.unitSize)-unit*e.unitSize))) buf := by
    cases hfull : e.full offset data.len unit with
    | true =>
      refine ⟨List.replicate e.unitSize 0,List.length_replicate,fun h => Bool.noConfusion h,?_⟩
      simp only [EngineParams.unitBuffer,hfull,if_true]
    | false =>
      refine ⟨old,hold,fun _ => rfl,?_⟩
      simp only [EngineParams.unitBuffer,hfull,Bool.false_eq_true,if_false,hpart hfull]
  obtain ⟨buf,hbl,hpart,heq⟩ := hbuf
  have hsl : (data.slice (max offset (unit*e.unitSize)-offset)
      (min (offset+data.len) (unit*e.unitSize+e.unitSize)-unit*e.unitSize-
        (max offset (unit*e.unitSize)-unit*e.unitSize))).length = _ :=
    WriteInput.length_slice (by omega)
  rw [heq]
  apply Splice.ext_at
  · simp only [Splice.length_splice,hsl,hbl,length_update,hold]
    omega
  intro k hk
  simp only [Splice.length_splice,hsl,hbl] at hk
  rw [Splice.at_splice,hsl,at_update _ _ (by omega : k < old.length)]
  by_cases hin : offset ≤ unit*e.unitSize+k ∧ unit*e.unitSize+k < offset+data.len
  · rw [if_pos (by omega),WriteInput.at_slice (by omega)]
    simp only [byteAt,if_pos hin,Option.getD_some]
    congr 1
    omega
  · rw [if_neg (by omega)]
    simp only [byteAt,if_neg hin,Option.getD_none]
    -- An untouched position exists in a partly covered unit only.
    have hfull : e.full offset data.len unit = false := by
      rw [Bool.eq_false_iff]
      intro hfull
      simp only [EngineParams.full,Bool.and_eq_true,decide_eq_true_eq] at hfull
      omega
    rw [hpart hfull]

theorem trim_update {offset n unit : ℕ} {c : ℕ × ℕ} {old : Bytes} (hus : 0 < e.unitSize)
    (hold : old.length = e.unitSize) (hc : c ∈ e.chunks (.trim offset n))
    (hfirst : c.1 ≤ unit) (hlast : unit ≤ c.2) :
    (Mutation.trim offset n).update e unit old = List.replicate e.unitSize 0 := by
  have hr := EngineParams.trimChunks_mem (by omega) hc
  have hin : offset ≤ unit*e.unitSize ∧ (unit+1)*e.unitSize ≤ offset+n := by
    constructor
    · have h : e.trimFirst offset ≤ unit := Nat.le_trans hr.1 hfirst
      have h' := Nat.lt_succ_of_le h
      rw [EngineParams.trimFirst,Nat.div_lt_iff_lt_mul hus,Nat.succ_mul] at h'
      omega
    · have h : unit+1 ≤ e.trimEnd offset n := by omega
      exact (Nat.le_div_iff_mul_le hus).mp h
  apply Splice.ext_at
  · simp [hold]
  intro k hk
  rw [length_update] at hk
  have hunit : (unit*e.unitSize+k)/e.unitSize = unit := by
    rw [Nat.mul_comm,Nat.mul_add_div hus,Nat.div_eq_of_lt (hold ▸ hk),Nat.add_zero]
  rw [at_update _ _ hk]
  simp only [byteAt,hunit,if_pos hin,Option.getD_some]
  simp [Splice.at_,List.getD_eq_getElem?_getD,hold ▸ hk]

end Mutation
end Maki
