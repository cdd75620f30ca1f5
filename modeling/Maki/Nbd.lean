import Maki.Drain
import Maki.EngineDevice

/-! The NBD adapter (`maki_nbdkit::adapter`). A request of any length is split into engine requests of
at most the advertised maximum, run one after the other; a zero request on a volume with discard is
a write, a trim and a write. On the device the split request does what the whole one would, and
the last part's force covers the earlier ones. -/
namespace Maki

namespace Engine.Request

def check (e : EngineParams) : Request → Except CoreError Unit
  | .read offset len => e.checkRange offset len
  | .write offset data _ => e.checkRange offset data.length
  | .writeZeroes offset len _ => e.checkRange offset len
  | .trim offset len _ => e.check (.trim offset len)
  | .flush | .checkpoint => .ok ()

end Engine.Request

open Engine (afterAll Forced Settled Serving Started device zeroed)

namespace Nbd

def EIO : ℕ := 5
def EINVAL : ℕ := 22
def ENOSPC : ℕ := 28
def ESHUTDOWN : ℕ := 108

/-- What an error's message says: the engine's error, or a text. -/
inductive Cause where
  | Engine (error : EngineError)
  | Text (message : String)
  deriving DecidableEq

structure AdapterError where
  errno : ℕ
  message : Cause
  deriving DecidableEq

def mapCoreError (e : EngineError) : AdapterError :=
  let errno := match e with
    | .Core (.Invalid _) => EINVAL
    | .StorageFull _ | .Core (.Io .StorageFull) | .Core (.Format (.Io .StorageFull)) => ENOSPC
    | _ => EIO
  ⟨errno,.Engine e⟩

/-- What the adapter has besides the engine. -/
structure NbdAdapter where
  /-- The smallest I/O size advertised. -/
  minimum : ℕ
  /-- The gate every callback enters. -/
  gate : DrainGate.State := {}
  /-- The engine is still there. -/
  attached : Bool := true

inductive Request where
  | pread (offset len : ℕ)
  | pwrite (offset : ℕ) (data : Bytes) (fua : Bool)
  | flush
  | trim (offset len : ℕ) (fua : Bool)
  | zero (offset len : ℕ) (mayTrim fua : Bool)
  deriving DecidableEq

section Split

variable (e : EngineParams)

def maximum : ℕ := min e.maxRequestBytes (2^32-1)

def divCeil (a b : ℕ) : ℕ := (a+b-1)/b

def preadParts (offset len : ℕ) : List Engine.Request :=
  (List.range (divCeil len (maximum e))).map fun index =>
    .read (offset+index*maximum e) (min (maximum e) (len-index*maximum e))

/-- `data.chunks(maximum).enumerate()`; the last one carries FUA. -/
def pwriteParts (offset : ℕ) (data : Bytes) (fua : Bool) : List Engine.Request :=
  let chunks := divCeil data.length (maximum e)
  (List.range chunks).map fun index =>
    .write (offset+index*maximum e) ((data.drop (index*maximum e)).take (maximum e))
      (fua && index+1 = chunks)

/-- Zeros over `start..stop`, FUA on the last request. Every round goes forward. -/
def writeZeros (stop : ℕ) (fua : Bool) : ℕ → ℕ → List Engine.Request
  | 0, _ => []
  | fuel+1, start =>
    if start < stop then
      let count := min (stop-start) (maximum e)
      let last : Bool := start+count = stop
      .writeZeroes start count (fua && last)::writeZeros stop fua fuel (start+count)
    else []

/-- Whole units are discarded where the caller and the volume allow it. -/
def trimWindow (offset len : ℕ) (mayTrim : Bool) : ℕ × ℕ :=
  if mayTrim && e.supportsDiscard then
    (divCeil offset e.unitSize*e.unitSize,(offset+len)/e.unitSize*e.unitSize)
  else (offset+len,offset+len)

def zeroParts (offset len : ℕ) (mayTrim fua : Bool) : List Engine.Request :=
  let stop := offset+len
  let (trimStart,trimEnd) := trimWindow e offset len mayTrim
  if trimStart ≥ trimEnd then writeZeros e stop fua len offset
  else
    let tailFua : Bool := fua && trimEnd < stop
    writeZeros e trimStart false len offset ++
      .trim trimStart (trimEnd-trimStart) (fua && !tailFua)::writeZeros e stop tailFua len trimEnd

def Request.parts : Request → List Engine.Request
  | .pread offset len => preadParts e offset len
  | .pwrite offset data fua => pwriteParts e offset data fua
  | .flush => [.flush]
  | .trim offset len fua => [.trim offset len fua]
  | .zero offset len mayTrim fua => zeroParts e offset len mayTrim fua

end Split

section Run

/-- Alignment and bounds; a longer request than the maximum is not refused. -/
def validateExtent (a : NbdAdapter) (e : EngineParams) (offset length : ℕ) : Except AdapterError Unit :=
  if length = 0 ∨ length % a.minimum ≠ 0 ∨ offset % a.minimum ≠ 0 ∨
      (checkedAdd offset length).map (fun stop => decide (stop > e.geometry.maxVirtualSize)) ≠ some false then
    .error ⟨EINVAL,.Text "request exceeds NBD size or alignment constraints"⟩
  else .ok ()

def Request.validate (a : NbdAdapter) (e : EngineParams) : Request → Except AdapterError Unit
  | .pread offset len | .trim offset len _ | .zero offset len _ _ => validateExtent a e offset len
  | .pwrite offset data _ => validateExtent a e offset data.length
  | .flush => .ok ()

/-- The gate must be open and the engine attached. -/
def admitCall (a : NbdAdapter) : Except AdapterError Unit :=
  match a.gate.enter with
  | .error message => .error ⟨ESHUTDOWN,.Text message⟩
  | .ok _ => if a.attached then .ok () else .error ⟨ESHUTDOWN,.Text "volume detached"⟩

/-- A callback: the first part that fails ends it. -/
def Request.run [Crc32] [DefaultHasher] [HashOrder] (a : NbdAdapter) (c : EngineInner) (q : Request) :
    Io Engine AdapterError Bytes := do
  Prog.ofExcept (admitCall a)
  Prog.ofExcept (q.validate a c.params)
  let parts ← Prog.mapErr mapCoreError (Prog.traverse (q.parts c.params) (Engine.Request.run c))
  return parts.flatten

end Run

section Effects

variable {e : EngineParams} {dev : ℕ → UInt8}

theorem afterAll_cons (q : Engine.Request) (qs : List Engine.Request) :
    afterAll e dev (q::qs) = afterAll e (q.apply e dev) qs := rfl

theorem afterAll_append (qs rs : List Engine.Request) :
    afterAll e dev (qs ++ rs) = afterAll e (afterAll e dev qs) rs := List.foldl_append

theorem apply_of_write (offset : ℕ) (data : WriteInput) (pos : ℕ) :
    (Mutation.write offset data).apply e dev pos =
      if offset ≤ pos ∧ pos < offset+data.len then data.byte (pos-offset) else dev pos := by
  simp only [Mutation.apply,Mutation.byteAt]
  by_cases h : offset ≤ pos ∧ pos < offset+data.len
  · rw [if_pos h,if_pos h,Option.getD_some]
  · rw [if_neg h,if_neg h,Option.getD_none]

theorem apply_write (offset : ℕ) (data : Bytes) (fua : Bool) (pos : ℕ) :
    (Engine.Request.write offset data fua).apply e dev pos =
      if offset ≤ pos ∧ pos < offset+data.length then Splice.at_ data (pos-offset) else dev pos :=
  apply_of_write offset (.Borrowed data) pos

theorem apply_writeZeroes (offset len : ℕ) (fua : Bool) (pos : ℕ) :
    (Engine.Request.writeZeroes offset len fua).apply e dev pos =
      if offset ≤ pos ∧ pos < offset+len then 0 else dev pos :=
  apply_of_write offset (.Zeroes len) pos

theorem answers_of_reads (dev : ℕ → UInt8) {qs : List Engine.Request} (h : ∀ q ∈ qs, q.mutation = none) :
    Engine.answers e dev qs = qs.map (Engine.Request.answer dev) ∧ afterAll e dev qs = dev := by
  induction qs with
  | nil => exact ⟨rfl,rfl⟩
  | cons q qs ih =>
    have hq : q.apply e dev = dev := by simp only [Engine.Request.apply,h q (by simp)]
    obtain ⟨hanswers,happly⟩ := ih fun x hx => h x (by simp [hx])
    refine ⟨?_,?_⟩
    · rw [Engine.answers,hq,hanswers,List.map_cons]
    · rw [afterAll,List.foldl_cons,hq]
      exact happly

theorem answers_of_mutations {qs : List Engine.Request} (h : ∀ q ∈ qs, ∀ dev, q.answer dev = []) :
    (Engine.answers e dev qs).flatten = [] := by
  induction qs generalizing dev with
  | nil => rfl
  | cons q qs ih =>
    rw [Engine.answers,List.flatten_cons,h q (by simp),ih fun x hx => h x (by simp [hx])]
    rfl

theorem writeZeros_answer {stop fuel start : ℕ} {fua : Bool} {q : Engine.Request}
    (hq : q ∈ writeZeros e stop fua fuel start) (dev : ℕ → UInt8) : q.answer dev = [] := by
  induction fuel generalizing start with
  | zero => cases hq
  | succ fuel ih =>
    rw [writeZeros] at hq
    split at hq
    · rcases List.mem_cons.mp hq with rfl | hq
      · rfl
      · exact ih hq
    · cases hq

theorem zeroParts_answer {offset len : ℕ} {mayTrim fua : Bool} {q : Engine.Request}
    (hq : q ∈ zeroParts e offset len mayTrim fua) (dev : ℕ → UInt8) : q.answer dev = [] := by
  simp only [zeroParts] at hq
  split at hq
  · exact writeZeros_answer hq dev
  · rcases List.mem_append.mp hq with hq | hq
    · exact writeZeros_answer hq dev
    · rcases List.mem_cons.mp hq with rfl | hq
      · rfl
      · exact writeZeros_answer hq dev

theorem range_parts {α : Type} (f : ℕ → α) (len m n : ℕ) :
    ((List.range n).map fun i => (List.range (min m (len-i*m))).map fun k => f (i*m+k)).flatten =
      (List.range (min len (n*m))).map f := by
  induction n with
  | zero => simp
  | succ n ih =>
    rw [List.range_succ,List.map_append,List.flatten_append,ih,Nat.succ_mul]
    simp only [List.map_cons,List.map_nil,List.flatten_cons,List.flatten_nil,List.append_nil]
    by_cases hn : n*m ≤ len
    · rw [Nat.min_eq_right hn,show min len (n*m+m) = n*m+min m (len-n*m) by omega,List.range_add,
        List.map_append,List.map_map]
      rfl
    · rw [show len-n*m = 0 by omega,Nat.min_zero,List.range_zero,List.map_nil,List.append_nil,
        Nat.min_eq_left (by omega),Nat.min_eq_left (by omega)]

theorem divCeil_mul {a b : ℕ} (hb : 0 < b) : a ≤ divCeil a b*b := by
  have h := Nat.div_add_mod (a+b-1) b
  have hlt := Nat.mod_lt (a+b-1) hb
  rw [divCeil,Nat.mul_comm]
  omega

theorem pread_effect (dev : ℕ → UInt8) (hm : 0 < maximum e) (offset len : ℕ) :
    (Engine.answers e dev (preadParts e offset len)).flatten =
        (List.range len).map (fun i => dev (offset+i)) ∧
      afterAll e dev (preadParts e offset len) = dev := by
  have hreads : ∀ q ∈ preadParts e offset len, q.mutation = none := by
    simp only [preadParts,List.mem_map]
    rintro _ ⟨index,-,rfl⟩
    rfl
  obtain ⟨hanswers,happly⟩ := answers_of_reads (e := e) dev hreads
  refine ⟨?_,happly⟩
  rw [hanswers,preadParts,List.map_map]
  have hparts := range_parts (fun i => dev (offset+i)) len (maximum e) (divCeil len (maximum e))
  rw [Nat.min_eq_left (divCeil_mul hm)] at hparts
  rw [← hparts]
  simp only [Function.comp_def,Engine.Request.answer,Nat.add_assoc]

theorem pwrite_prefix (dev : ℕ → UInt8) (offset : ℕ) (data : Bytes) (fua : ℕ → Bool) (n pos : ℕ) :
    afterAll e dev ((List.range n).map fun index => .write (offset+index*maximum e)
        ((data.drop (index*maximum e)).take (maximum e)) (fua index)) pos =
      if offset ≤ pos ∧ pos < offset+min data.length (n*maximum e) then Splice.at_ data (pos-offset)
      else dev pos := by
  induction n with
  | zero =>
    rw [if_neg (by omega)]
    rfl
  | succ n ih =>
    rw [List.range_succ,List.map_append,afterAll_append]
    simp only [List.map_cons,List.map_nil,afterAll_cons]
    rw [afterAll,List.foldl_nil,apply_write,List.length_take,List.length_drop,ih,Nat.succ_mul]
    by_cases hin : offset+n*maximum e ≤ pos ∧
        pos < offset+n*maximum e+min (maximum e) (data.length-n*maximum e)
    · rw [if_pos hin,if_pos (by omega)]
      simp only [Splice.at_,List.getD_eq_getElem?_getD]
      rw [List.getElem?_take,if_pos (by omega),List.getElem?_drop,
        show n*maximum e+(pos-(offset+n*maximum e)) = pos-offset by omega]
    · rw [if_neg hin]
      by_cases hold : offset ≤ pos ∧ pos < offset+min data.length (n*maximum e)
      · rw [if_pos hold,if_pos (by omega)]
      · rw [if_neg hold,if_neg (by omega)]

theorem pwrite_effect (hm : 0 < maximum e) (offset : ℕ) (data : Bytes) (fua : Bool) :
    afterAll e dev (pwriteParts e offset data fua) =
      (Engine.Request.write offset data fua).apply e dev := by
  funext pos
  have hpre := pwrite_prefix (e := e) dev offset data
    (fun index => fua && index+1 = divCeil data.length (maximum e)) (divCeil data.length (maximum e)) pos
  rw [Nat.min_eq_left (divCeil_mul hm)] at hpre
  rw [pwriteParts,hpre,apply_write]

theorem writeZeros_effect (hm : 0 < maximum e) (stop : ℕ) (fua : Bool) {fuel start : ℕ}
    (hfuel : stop-start ≤ fuel) (pos : ℕ) :
    afterAll e dev (writeZeros e stop fua fuel start) pos =
      if start ≤ pos ∧ pos < stop then 0 else dev pos := by
  induction fuel generalizing start dev with
  | zero =>
    rw [if_neg (by omega)]
    rfl
  | succ fuel ih =>
    rw [writeZeros]
    by_cases hlt : start < stop
    · rw [if_pos hlt,afterAll_cons,ih (by omega),apply_writeZeroes]
      by_cases hin : start ≤ pos ∧ pos < start+min (stop-start) (maximum e)
      · rw [if_neg (by omega),if_pos hin,if_pos (by omega)]
      · rw [if_neg hin]
        by_cases hnext : start+min (stop-start) (maximum e) ≤ pos ∧ pos < stop
        · rw [if_pos hnext,if_pos (by omega)]
        · rw [if_neg hnext,if_neg (by omega)]
    · rw [if_neg hlt,if_neg (by omega)]
      rfl

theorem apply_trim_units (hus : 0 < e.unitSize) {first stop : ℕ} (h : first ≤ stop) (fua : Bool) (pos : ℕ) :
    (Engine.Request.trim (first*e.unitSize) (stop*e.unitSize-first*e.unitSize) fua).apply e dev pos =
      if first*e.unitSize ≤ pos ∧ pos < stop*e.unitSize then 0 else dev pos := by
  simp only [Engine.Request.apply,Engine.Request.mutation,Mutation.apply,Mutation.byteAt]
  have hle : first*e.unitSize ≤ stop*e.unitSize := Nat.mul_le_mul_right _ h
  have hcond : (first*e.unitSize ≤ pos/e.unitSize*e.unitSize ∧
      (pos/e.unitSize+1)*e.unitSize ≤ first*e.unitSize+(stop*e.unitSize-first*e.unitSize)) ↔
      first*e.unitSize ≤ pos ∧ pos < stop*e.unitSize := by
    rw [Nat.add_sub_cancel' hle,Nat.mul_le_mul_right_iff hus,Nat.mul_le_mul_right_iff hus,
      Nat.le_div_iff_mul_le hus,Nat.succ_le_iff,Nat.div_lt_iff_lt_mul hus]
  simp only [hcond]
  by_cases hin : first*e.unitSize ≤ pos ∧ pos < stop*e.unitSize
  · rw [if_pos hin,if_pos hin,Option.getD_some]
  · rw [if_neg hin,if_neg hin,Option.getD_none]

theorem divCeil_le {a b k : ℕ} (h : divCeil a b*b < k*b) : divCeil a b ≤ k :=
  Nat.le_of_lt (Nat.lt_of_mul_lt_mul_right h)

theorem zero_effect (hm : 0 < maximum e) (hus : 0 < e.unitSize) (offset len : ℕ) (mayTrim fua : Bool) :
    afterAll e dev (zeroParts e offset len mayTrim fua) =
      (Engine.Request.writeZeroes offset len fua).apply e dev := by
  funext pos
  rw [apply_writeZeroes,zeroParts]
  simp only
  by_cases hw : (trimWindow e offset len mayTrim).1 ≥ (trimWindow e offset len mayTrim).2
  · rw [if_pos hw,writeZeros_effect hm _ _ (by omega)]
  · have hwindow : trimWindow e offset len mayTrim =
        (divCeil offset e.unitSize*e.unitSize,(offset+len)/e.unitSize*e.unitSize) := by
      unfold trimWindow at hw ⊢
      split at hw
      · rename_i hc
        rw [if_pos hc]
      · exact absurd (Nat.le_refl _) hw
    rw [if_neg hw,hwindow]
    rw [hwindow] at hw
    simp only at hw ⊢
    have hstart : offset ≤ divCeil offset e.unitSize*e.unitSize := divCeil_mul hus
    have hstop : (offset+len)/e.unitSize*e.unitSize ≤ offset+len := Nat.div_mul_le_self _ _
    have hunits : divCeil offset e.unitSize ≤ (offset+len)/e.unitSize := divCeil_le (by omega)
    rw [afterAll_append,afterAll_cons,writeZeros_effect hm _ _ (by omega),apply_trim_units hus hunits,
      writeZeros_effect hm _ _ (by omega)]
    split_ifs <;> first | rfl | omega

end Effects

section Checks

variable {e : EngineParams}

theorem checkExtent_ok {offset len : ℕ} (hlen : 0 < len) (ho : e.geometry.deviceBlockSize ∣ offset)
    (hl : e.geometry.deviceBlockSize ∣ len) (hsize : e.geometry.maxVirtualSize < 2^64)
    (hend : offset+len ≤ e.geometry.maxVirtualSize) : e.checkExtent offset len = .ok () := by
  have hadd : checkedAdd offset len = some (offset+len) := if_pos (by omega)
  rw [EngineParams.checkExtent,if_neg]
  simp only [not_or,Decidable.not_not,hadd,Option.map_some,Option.some.injEq,decide_eq_false_iff_not]
  exact ⟨by omega,Nat.mod_eq_zero_of_dvd ho,Nat.mod_eq_zero_of_dvd hl,by omega⟩

theorem checkRange_ok {offset len : ℕ} (hlen : 0 < len) (ho : e.geometry.deviceBlockSize ∣ offset)
    (hl : e.geometry.deviceBlockSize ∣ len) (hsize : e.geometry.maxVirtualSize < 2^64)
    (hend : offset+len ≤ e.geometry.maxVirtualSize) (hmax : len ≤ maximum e) :
    e.checkRange offset len = .ok () := by
  rw [EngineParams.checkRange,checkExtent_ok hlen ho hl hsize hend]
  exact if_neg (by rw [maximum] at hmax; omega)

theorem validateExtent_ok {a : NbdAdapter} {offset len : ℕ} (h : validateExtent a e offset len = .ok ()) :
    0 < len ∧ a.minimum ∣ offset ∧ a.minimum ∣ len ∧ offset+len ≤ e.geometry.maxVirtualSize := by
  unfold validateExtent at h
  split at h
  · cases h
  · rename_i hc
    simp only [not_or,Decidable.not_not] at hc
    obtain ⟨hlen,hl,ho,hend⟩ := hc
    refine ⟨Nat.pos_of_ne_zero hlen,Nat.dvd_of_mod_eq_zero ho,Nat.dvd_of_mod_eq_zero hl,?_⟩
    obtain ⟨stop,hstop,hle⟩ := Option.map_eq_some_iff.mp hend
    unfold checkedAdd at hstop
    split at hstop
    · cases hstop
      simpa using hle
    · cases hstop

structure Fits (e : EngineParams) (offset len : ℕ) : Prop where
  nonempty : 0 < len
  offsetBlocks : e.geometry.deviceBlockSize ∣ offset
  lenBlocks : e.geometry.deviceBlockSize ∣ len
  bound : offset+len ≤ e.geometry.maxVirtualSize

variable {offset len : ℕ}

theorem part_lt {m index : ℕ} (hm : 0 < m) (h : index < divCeil len m) : index*m < len := by
  have hle : (index+1)*m ≤ divCeil len m*m := Nat.mul_le_mul_right _ h
  have hceil : divCeil len m*m ≤ len+m-1 := Nat.div_mul_le_self _ _
  rw [Nat.succ_mul] at hle
  omega

section Parts

variable (hsize : e.geometry.maxVirtualSize < 2^64) (hm : 0 < maximum e)
  (hblock : e.geometry.deviceBlockSize ∣ maximum e)
include hsize hm hblock

theorem part_ok (h : Fits e offset len) {index : ℕ} (hi : index < divCeil len (maximum e)) :
    e.checkRange (offset+index*maximum e) (min (maximum e) (len-index*maximum e)) = .ok () := by
  have hlt := part_lt hm hi
  have hend := h.bound
  have hmul : e.geometry.deviceBlockSize ∣ index*maximum e := Dvd.dvd.mul_left hblock index
  refine checkRange_ok (by omega) (Nat.dvd_add h.offsetBlocks hmul) ?_ hsize (by omega) (by omega)
  rcases Nat.le_total (maximum e) (len-index*maximum e) with hle | hle
  · rwa [Nat.min_eq_left hle]
  · rw [Nat.min_eq_right hle]
    exact Nat.dvd_sub h.lenBlocks hmul

theorem writeZeros_ok {stop : ℕ} (fua : Bool) {fuel start : ℕ} (hs : e.geometry.deviceBlockSize ∣ start)
    (he : e.geometry.deviceBlockSize ∣ stop) (hend : stop ≤ e.geometry.maxVirtualSize)
    {q : Engine.Request} (hq : q ∈ writeZeros e stop fua fuel start) : q.check e = .ok () := by
  induction fuel generalizing start with
  | zero => cases hq
  | succ fuel ih =>
    rw [writeZeros] at hq
    split at hq
    · rename_i hlt
      have hcount : e.geometry.deviceBlockSize ∣ min (stop-start) (maximum e) := by
        rcases Nat.le_total (stop-start) (maximum e) with hle | hle
        · rw [Nat.min_eq_left hle]
          exact Nat.dvd_sub he hs
        · rwa [Nat.min_eq_right hle]
      rcases List.mem_cons.mp hq with rfl | hq
      · exact checkRange_ok (by omega) hs hcount hsize (by omega) (by omega)
      · exact ih (Nat.dvd_add hs hcount) hq
    · cases hq

theorem zeroParts_ok (h : Fits e offset len) (hunit : e.geometry.deviceBlockSize ∣ e.unitSize)
    (mayTrim fua : Bool) {q : Engine.Request} (hq : q ∈ zeroParts e offset len mayTrim fua) :
    q.check e = .ok () := by
  have hend := h.bound
  have hstop : e.geometry.deviceBlockSize ∣ offset+len := Nat.dvd_add h.offsetBlocks h.lenBlocks
  simp only [zeroParts] at hq
  split at hq
  · exact writeZeros_ok hsize hm hblock fua h.offsetBlocks hstop hend hq
  · rename_i hw
    unfold trimWindow at hw hq
    split at hw
    · rename_i hc
      rw [if_pos hc] at hq
      simp only at hq hw
      have hfirst : e.geometry.deviceBlockSize ∣ divCeil offset e.unitSize*e.unitSize :=
        Dvd.dvd.mul_left hunit _
      have hlast : e.geometry.deviceBlockSize ∣ (offset+len)/e.unitSize*e.unitSize :=
        Dvd.dvd.mul_left hunit _
      have hle : (offset+len)/e.unitSize*e.unitSize ≤ offset+len := Nat.div_mul_le_self _ _
      rcases List.mem_append.mp hq with hq | hq
      · exact writeZeros_ok hsize hm hblock false h.offsetBlocks hfirst (by omega) hq
      · rcases List.mem_cons.mp hq with rfl | hq
        · have hdiscard : e.supportsDiscard = true := (Bool.and_eq_true_iff.mp hc).2
          rw [Engine.Request.check,EngineParams.check,checkExtent_ok (by omega) hfirst
            (Nat.dvd_sub hlast hfirst) hsize (by omega),hdiscard]
          rfl
        · exact writeZeros_ok hsize hm hblock _ hlast hstop hend hq
    · exact absurd (Nat.le_refl _) hw

end Parts

end Checks

section Forced

variable {e : EngineParams}

theorem forced_append (qs : List Engine.Request) {rs : List Engine.Request} (h : Forced rs) : Forced (qs ++ rs) := by
  obtain ⟨q,hq,hf⟩ := h
  exact ⟨q,by rw [List.getLast?_append,hq]; rfl,hf⟩

theorem forced_cons {q : Engine.Request} {rs : List Engine.Request} (h : Forced rs) : Forced (q::rs) :=
  forced_append [q] h

theorem forced_pwrite {offset : ℕ} {data : Bytes} (hm : 0 < maximum e) (hlen : 0 < data.length) :
    Forced (pwriteParts e offset data true) := by
  have hpos : 0 < divCeil data.length (maximum e) := by
    have hle := divCeil_mul (a := data.length) hm
    rcases Nat.eq_zero_or_pos (divCeil data.length (maximum e)) with hz | hz
    · rw [hz,Nat.zero_mul] at hle
      omega
    · exact hz
  obtain ⟨n,hn⟩ := Nat.exists_eq_succ_of_ne_zero (Nat.ne_of_gt hpos)
  refine ⟨.write (offset+n*maximum e) ((data.drop (n*maximum e)).take (maximum e))
    (true && n+1 = divCeil data.length (maximum e)),?_,?_⟩
  · simp only [pwriteParts,hn,List.range_succ,List.map_append,List.map_cons,List.map_nil,
      List.getLast?_concat]
    rfl
  · simp [Engine.Request.forced,hn]

theorem forced_writeZeros (hm : 0 < maximum e) {stop fuel start : ℕ} (hlt : start < stop)
    (hfuel : stop-start ≤ fuel) : Forced (writeZeros e stop true fuel start) := by
  induction fuel generalizing start with
  | zero => omega
  | succ fuel ih =>
    rw [writeZeros,if_pos hlt]
    by_cases hlast : start+min (stop-start) (maximum e) = stop
    · have hnil : writeZeros e stop true fuel (start+min (stop-start) (maximum e)) = [] := by
        rw [hlast]
        cases fuel with
        | zero => rfl
        | succ fuel => rw [writeZeros,if_neg (Nat.lt_irrefl _)]
      simp only [hnil]
      exact ⟨_,rfl,by simp [Engine.Request.forced,hlast]⟩
    · exact forced_cons (ih (by omega) (by omega))

theorem forced_zero (hm : 0 < maximum e) (hus : 0 < e.unitSize) {offset len : ℕ} (hlen : 0 < len)
    (mayTrim : Bool) : Forced (zeroParts e offset len mayTrim true) := by
  simp only [zeroParts]
  split
  · exact forced_writeZeros hm (by omega) (by omega)
  · rename_i hw
    have hstart : offset ≤ (trimWindow e offset len mayTrim).1 := by
      unfold trimWindow
      split
      · exact divCeil_mul hus
      · exact Nat.le_add_right _ _
    by_cases htail : (trimWindow e offset len mayTrim).2 < offset+len
    · simp only [htail,decide_true,Bool.and_true]
      exact forced_append _ (forced_cons (forced_writeZeros hm htail (by omega)))
    · have hnil : ∀ fuel fua, writeZeros e (offset+len) fua fuel (trimWindow e offset len mayTrim).2 = [] := by
        intro fuel fua
        cases fuel with
        | zero => rfl
        | succ fuel => rw [writeZeros,if_neg htail]
      simp only [htail,decide_false,Bool.and_false,hnil]
      exact forced_append _ ⟨_,rfl,rfl⟩

end Forced

namespace Request

def whole : Request → Engine.Request
  | .pread offset len => .read offset len
  | .pwrite offset data fua => .write offset data fua
  | .flush => .flush
  | .trim offset len fua => .trim offset len fua
  | .zero offset len _ fua => .writeZeroes offset len fua

/-- A request the adapter accepts; a trim needs a volume with discard. -/
def Valid (a : NbdAdapter) (e : EngineParams) (q : Request) : Prop :=
  q.validate a e = .ok () ∧ ∀ offset len fua, q = .trim offset len fua → e.supportsDiscard = true

section

variable {a : NbdAdapter} {e : EngineParams} {q : Request}

/-- What the parts do to the device, what they return, and that the last one is forced. -/
theorem parts_effect (dev : ℕ → UInt8) (hm : 0 < maximum e) (hus : 0 < e.unitSize) (hv : q.validate a e = .ok ()) :
    afterAll e dev (q.parts e) = q.whole.apply e dev ∧
      (Engine.answers e dev (q.parts e)).flatten = q.whole.answer dev ∧
      (q.whole.forced = true → Forced (q.parts e)) := by
  cases q with
  | pread offset len =>
    obtain ⟨hanswers,happly⟩ := pread_effect dev hm offset len
    exact ⟨happly,hanswers,by simp [whole,Engine.Request.forced]⟩
  | pwrite offset data fua =>
    refine ⟨pwrite_effect hm offset data fua,?_,?_⟩
    · refine answers_of_mutations fun p hp dev => ?_
      obtain ⟨index,-,rfl⟩ := List.mem_map.mp hp
      rfl
    · rintro rfl
      exact forced_pwrite hm (validateExtent_ok hv).1
  | flush => exact ⟨rfl,rfl,fun _ => ⟨_,rfl,rfl⟩⟩
  | trim offset len fua => exact ⟨rfl,rfl,fun hf => ⟨_,rfl,hf⟩⟩
  | zero offset len mayTrim fua =>
    refine ⟨zero_effect hm hus offset len mayTrim fua,?_,?_⟩
    · exact answers_of_mutations fun p hp => zeroParts_answer hp
    · rintro rfl
      exact forced_zero hm hus (validateExtent_ok hv).1 mayTrim

/-- Every part of a valid request passes the engine's own check. -/
theorem parts_ok (hg : e.geometry.Computed) (hm : 0 < maximum e)
    (hblock : e.geometry.deviceBlockSize ∣ maximum e) (hmin : e.geometry.deviceBlockSize ∣ a.minimum)
    (hv : q.Valid a e) : ∀ p ∈ q.parts e, p.check e = .ok () := by
  have hsize : e.geometry.maxVirtualSize < 2^64 := Nat.lt_of_le_of_lt hg.size (by decide)
  have hunit : e.geometry.deviceBlockSize ∣ e.unitSize := Nat.dvd_of_mod_eq_zero hg.blocks
  have hfits : ∀ {offset len : ℕ}, validateExtent a e offset len = .ok () → Fits e offset len := by
    intro offset len h
    obtain ⟨hlen,ho,hl,hend⟩ := validateExtent_ok h
    exact ⟨hlen,hmin.trans ho,hmin.trans hl,hend⟩
  obtain ⟨hvalid,htrim⟩ := hv
  intro p hp
  cases q with
  | pread offset len =>
    obtain ⟨index,hi,rfl⟩ := List.mem_map.mp hp
    exact part_ok hsize hm hblock (hfits hvalid) (List.mem_range.mp hi)
  | pwrite offset data fua =>
    obtain ⟨index,hi,rfl⟩ := List.mem_map.mp hp
    rw [Engine.Request.check,List.length_take,List.length_drop]
    exact part_ok hsize hm hblock (hfits hvalid) (List.mem_range.mp hi)
  | flush =>
    obtain rfl := List.mem_singleton.mp hp
    rfl
  | trim offset len fua =>
    obtain rfl := List.mem_singleton.mp hp
    have h := hfits hvalid
    rw [Engine.Request.check,EngineParams.check,checkExtent_ok h.nonempty h.offsetBlocks h.lenBlocks hsize
      h.bound,htrim offset len fua rfl]
    rfl
  | zero offset len mayTrim fua =>
    exact zeroParts_ok hsize hm hblock (hfits hvalid) hunit mayTrim fua hp

end
end Request

section Served

variable [Crc32] [DefaultHasher] [HashOrder]

/-- The byte at a position of the device: the plaintext of what the unit reads as. -/
def contents (c : EngineInner) (t : Engine × Disk) (pos : ℕ) : UInt8 :=
  Splice.at_ (Engine.plainOf c (pos/c.params.unitSize) (t.1.volume.content t.2 (pos/c.params.unitSize)))
    (pos % c.params.unitSize)

/-- The states of an engine on a new volume that has served requests of adapters, whether they
succeeded or failed. -/
inductive Served (c : EngineInner) : Engine × Disk → Prop
  | start {t : Engine × Disk} (h : Started c t) : Served c t
  | call {t t' : Engine × Disk} {a : NbdAdapter} {q : Request} {fs fs' : List Fault}
      {o : Outcome AdapterError Bytes} (h : Served c t) (hrun : q.run a c fs t = (o,fs',t'))
      (hlive : o ≠ .lost) : Served c t'

variable {c : EngineInner} {t : Engine × Disk}

omit [DefaultHasher] [HashOrder] in
theorem contents_eq {base : ℕ → Except CoreError SlotRead} (h : Serving c base t) :
    contents c t = device c base t.1.accepted := by
  funext pos
  rw [contents,h.backed.content_eq]
  rfl

theorem run_triple {base : ℕ → Except CoreError SlotRead} (hus : 0 < c.params.unitSize) (a : NbdAdapter)
    (q : Request) (dev : ℕ → UInt8) :
    Prog.Answers (fun t => Serving c base t ∧ device c base t.1.accepted = dev) (q.run a c)
      (fun bytes t => q.validate a c.params = .ok () ∧
        (Serving c base t ∧ device c base t.1.accepted = afterAll c.params dev (q.parts c.params)) ∧
        bytes = (Engine.answers c.params dev (q.parts c.params)).flatten ∧
        (Forced (q.parts c.params) → Settled t))
      (fun _ => Serving c base) := by
  unfold Request.run
  refine Prog.Triple.ofExcept_bind (fun _ _ => ?_) fun _ _ _ ht => ht.1
  refine Prog.Triple.ofExcept_bind (fun _ hvalid => ?_) fun _ _ _ ht => ht.1
  have hparts : Prog.Answers (fun t => Serving c base t ∧ device c base t.1.accepted = dev)
      (Prog.mapErr mapCoreError (Prog.traverse (q.parts c.params) (Engine.Request.run c)))
      (fun as t => (Serving c base t ∧
        device c base t.1.accepted = afterAll c.params dev (q.parts c.params)) ∧
        as = Engine.answers c.params dev (q.parts c.params) ∧ (Forced (q.parts c.params) → Settled t))
      (fun _ => Serving c base) :=
    Prog.Triple.mapErr (Engine.runAll_array hus (q.parts c.params) dev)
  refine hparts.bind fun parts => Prog.Triple.pure ?_
  rintro t ⟨ht,rfl,hforced⟩
  exact ⟨hvalid,ht,rfl,hforced⟩

theorem Served.computed (h : Served c t) : c.params.geometry.Computed := by
  induction h with
  | start h => exact h.computed
  | call _ _ _ ih => exact ih

theorem Served.serving (h : Served c t) : Serving c zeroed t := by
  induction h with
  | start h => exact h.stays.1
  | @call t t' a q fs fs' o hs hrun hlive ih =>
    have hrest := run_triple hs.computed.unit a q (device c zeroed t.1.accepted) fs t ⟨ih,rfl⟩
    rw [hrun] at hrest
    cases o with
    | ok bytes => exact hrest.2.1.1
    | err e => exact hrest
    | lost => exact absurd rfl hlive

/-- The adapter splits requests faithfully: every part of a valid request is one the engine admits,
and a request that succeeds returns what the device held in its range, has changed the device as
the whole request would, and if it was forced every accepted record is on stable storage. -/
theorem split_requests_are_exact (ht : Served c t) {a : NbdAdapter} (hm : 0 < maximum c.params)
    (hblock : c.params.geometry.deviceBlockSize ∣ maximum c.params)
    (hmin : c.params.geometry.deviceBlockSize ∣ a.minimum) {q : Request} (hv : q.Valid a c.params) :
    (∀ p ∈ q.parts c.params, p.check c.params = .ok ()) ∧
    ∀ fs bytes fs' t', q.run a c fs t = (.ok bytes,fs',t') →
      bytes = q.whole.answer (contents c t) ∧
      contents c t' = q.whole.apply c.params (contents c t) ∧
      (q.whole.forced = true →
        ∀ r ∈ t'.1.accepted, r.sequence ≤ t'.1.volume.journal.durableSequence) := by
  refine ⟨Request.parts_ok ht.computed hm hblock hmin hv,?_⟩
  intro fs bytes fs' t' hrun
  have hs := ht.serving
  have hrest := run_triple ht.computed.unit a q (contents c t) fs t ⟨hs,(contents_eq hs).symm⟩
  rw [hrun] at hrest
  obtain ⟨-,⟨hs',hdev⟩,hbytes,hforced⟩ := hrest
  obtain ⟨hafter,hanswers,hlast⟩ := Request.parts_effect (contents c t) hm ht.computed.unit hv.1
  refine ⟨hbytes.trans hanswers,?_,fun hf r hr => ?_⟩
  · rw [contents_eq hs',hdev,hafter]
  · have hsettled : t'.1.volume.journal.durableSequence = t'.1.volume.journal.appendedSequence :=
      hforced (hlast hf)
    rw [hsettled]
    exact hs'.backed.sound.bounded r hr

end Served

section Sample

attribute [local instance] Engine.instCrc32 Volume.instDefaultHasher Volume.instHashOrder

/-- The sample engine with a maximum request size of one block. -/
def sampleInner : EngineInner :=
  { Engine.sampleInner with params := ⟨Volume.sampleVolume.geometry,512,true⟩ }

/-- A forced write of three blocks, so of three parts. -/
def sampleRequest : Request := .pwrite 0 (List.replicate 1536 7) true

@[irreducible] def sampleServed : Option (Bytes × List Fault × Engine × Disk) :=
  Engine.sampleOutcome Volume.sampleVolume sampleInner none
    (sampleRequest.run { minimum := 512 } sampleInner) fun t => t.1.accepted.length = 3

set_option maxRecDepth 100000 in
theorem sampleServed_some : sampleServed.isSome = true := by
  decide +kernel

theorem split_write_is_exact : (sampleRequest.parts sampleInner.params).length = 3 ∧
    ∃ t bytes fs t', Served sampleInner t ∧
      sampleRequest.run { minimum := 512 } sampleInner [] t = (.ok bytes,fs,t') ∧
      contents sampleInner t' = sampleRequest.whole.apply sampleInner.params (contents sampleInner t) ∧
      t'.1.accepted.length = 3 ∧
      ∀ r ∈ t'.1.accepted, r.sequence ≤ t'.1.volume.journal.durableSequence := by
  have hsome := sampleServed_some
  unfold sampleServed at hsome
  obtain ⟨v,d,bytes,fs,t',hstarted,hrun,hrecords⟩ := Engine.sampleOutcome_some hsome
  have hserved : Served sampleInner (Engine.attach v none,d) := .start hstarted
  have hvalid : sampleRequest.Valid { minimum := 512 } sampleInner.params :=
    ⟨by decide +kernel,fun _ _ _ h => Request.noConfusion h⟩
  obtain ⟨-,heffect⟩ := split_requests_are_exact hserved (a := { minimum := 512 }) (by decide)
    (by decide) (by decide) hvalid
  obtain ⟨-,hcontents,hdurable⟩ := heffect [] bytes fs t' hrun
  exact ⟨by decide +kernel,_,bytes,fs,t',hserved,hrun,hcontents,of_decide_eq_true hrecords,hdurable rfl⟩

end Sample
end Nbd
end Maki
