import Mathlib
import Maki.LaneLimits
import Maki.VolumeConfig

/-! The batches of the engine and the lanes of the scheduler under an accepted configuration
(`maki_core::engine::batch_chunks`, `maki_crypto::selftest::batch_ranges`, `scheduler`, `random_prefix`). Limits are measured
in logical, expanded and ciphertext bytes; all of them come down to a number of units. -/
namespace Maki

structure PlaintextUnit where
  unitIndex : ℕ
  data : Bytes
  deriving DecidableEq

structure CiphertextUnit where
  unitIndex : ℕ
  data : Bytes
  deriving DecidableEq

instance : Scheduler.UnitIndexed PlaintextUnit := ⟨PlaintextUnit.unitIndex⟩
instance : Scheduler.UnitIndexed CiphertextUnit := ⟨CiphertextUnit.unitIndex⟩

def plaintextBytes (items : List PlaintextUnit) : ℕ := (items.map fun u => u.data.length).sum
def ciphertextBytes (items : List CiphertextUnit) : ℕ := (items.map fun u => u.data.length).sum

section Chunks

/-- The limits of a provider batch; `u64::MAX` bytes if batches are not supported. -/
def CryptoCapabilities.batchLimits (caps : CryptoCapabilities) : ℕ × ℕ :=
  if caps.batch.supported then (max caps.batch.maxItems 1,max caps.batch.maxBytes 1) else (1,2^64-1)

/-- The ranges so far, and where the open one starts with its bytes. -/
structure Chunking where
  chunks : List (ℕ × ℕ) := []
  start : ℕ := 0
  bytes : ℕ := 0

variable (limits : ℕ × ℕ) (sizeOf : ℕ → ℕ)

def Chunking.step (s : Chunking) (i : ℕ) : Chunking :=
  if limits.1 ≤ i-s.start ∨ s.start < i ∧ limits.2 < s.bytes+sizeOf i then
    ⟨s.chunks ++ [(s.start,i)],i,sizeOf i⟩
  else { s with bytes := s.bytes+sizeOf i }

def batchChunks (count : ℕ) : List (ℕ × ℕ) :=
  let s := (List.range count).foldl (Chunking.step limits sizeOf) {}
  if s.start < count then s.chunks ++ [(s.start,count)] else s.chunks

def rangeBytes (a b : ℕ) : ℕ := ((List.range' a (b-a)).map sizeOf).sum

/-- A range that is a batch of its own. -/
structure InLimits (r : ℕ × ℕ) : Prop where
  nonempty : r.1 < r.2
  items : r.2-r.1 ≤ limits.1
  bytes : rangeBytes sizeOf r.1 r.2 ≤ limits.2

/-- Consecutive ranges from `a` to `b`, none of them empty. -/
def Tiles : ℕ → List (ℕ × ℕ) → ℕ → Prop
  | a, [], b => a = b
  | a, r::rs, b => r.1 = a ∧ r.1 < r.2 ∧ Tiles r.2 rs b

/-- A batch of the first `count` items: within the limits, or of one item, and the next item exceeds one. -/
structure Maximal (count : ℕ) (r : ℕ × ℕ) : Prop where
  items : r.2-r.1 ≤ limits.1
  bytes : rangeBytes sizeOf r.1 r.2 ≤ limits.2 ∨ r.2 = r.1+1
  full : r.2 < count → limits.1 ≤ r.2-r.1 ∨ limits.2 < rangeBytes sizeOf r.1 (r.2+1)

/-- The items below `count` in order, in batches that are as large as the limits allow. -/
structure Batches (count : ℕ) (rs : List (ℕ × ℕ)) : Prop where
  tiles : Tiles 0 rs count
  maximal : ∀ r ∈ rs, Maximal limits sizeOf count r

structure Chunking.Upto (s : Chunking) (i : ℕ) : Prop where
  tiles : Tiles 0 s.chunks s.start
  maximal : ∀ r ∈ s.chunks, ∀ count, Maximal limits sizeOf count r
  start : s.start ≤ i ∧ (s.start = i → i = 0)
  items : i-s.start ≤ limits.1
  bytes : s.bytes = rangeBytes sizeOf s.start i
  fits : s.bytes ≤ limits.2 ∨ i = s.start+1

/-- The inner loop of `batch_ranges`: where the range ends, with `left` items behind `stop`. -/
def rangeEnd (start : ℕ) : ℕ → ℕ → ℕ → ℕ
  | 0, stop, _ => stop
  | left+1, stop, bytes =>
    let next := min (bytes+sizeOf stop) u64Max
    if start < stop ∧ (limits.1 < stop-start+1 ∨ limits.2 < next) then stop
    else if limits.1 ≤ stop+1-start then stop+1
    else rangeEnd start left (stop+1) next

/-- The outer loop, which takes at least one item each time. -/
def rangesFrom (count : ℕ) : ℕ → ℕ → List (ℕ × ℕ)
  | 0, _ => []
  | left+1, start =>
    if start < count then
      let stop := rangeEnd limits sizeOf start (count-start) start 0
      (start,stop)::rangesFrom count left stop
    else []

def batchRanges (count : ℕ) : List (ℕ × ℕ) := rangesFrom (max limits.1 1,max limits.2 1) sizeOf count count 0

variable {limits sizeOf}

theorem Tiles.append {a b c : ℕ} {rs : List (ℕ × ℕ)} (h : Tiles a rs b) (hbc : b < c) : Tiles a (rs ++ [(b,c)]) c := by
  induction rs generalizing a with
  | nil => exact ⟨h.symm,hbc,rfl⟩
  | cons r rs ih => exact ⟨h.1,h.2.1,ih h.2.2⟩

theorem Tiles.le {a b : ℕ} {rs : List (ℕ × ℕ)} (h : Tiles a rs b) : a ≤ b ∧ ∀ r ∈ rs, r.1 < r.2 ∧ r.2 ≤ b := by
  induction rs generalizing a with
  | nil => exact ⟨Nat.le_of_eq h,by simp⟩
  | cons r rs ih =>
    obtain ⟨rfl,hlt,h⟩ := h
    obtain ⟨hle,hall⟩ := ih h
    exact ⟨hlt.le.trans hle,List.forall_mem_cons.mpr ⟨⟨hlt,hle⟩,hall⟩⟩

@[simp] theorem rangeBytes_self (a : ℕ) : rangeBytes sizeOf a a = 0 := by simp [rangeBytes]

theorem rangeBytes_succ {a b : ℕ} (h : a ≤ b) : rangeBytes sizeOf a (b+1) = rangeBytes sizeOf a b+sizeOf b := by
  unfold rangeBytes
  rw [Nat.succ_sub h,List.range'_concat,List.map_append,List.sum_append]
  simp only [List.map_cons,List.map_nil,List.sum_singleton,Nat.one_mul,Nat.add_sub_cancel' h]

theorem rangeBytes_add {a b c : ℕ} (hab : a ≤ b) (hbc : b ≤ c) :
    rangeBytes sizeOf a b+rangeBytes sizeOf b c = rangeBytes sizeOf a c := by
  induction c, hbc using Nat.le_induction with
  | base => simp
  | succ c hbc ih => rw [rangeBytes_succ hbc,rangeBytes_succ (hab.trans hbc),← ih,Nat.add_assoc]

theorem Chunking.Upto.step {s : Chunking} {i : ℕ} (h : s.Upto limits sizeOf i) (hone : 1 ≤ limits.1) :
    (s.step limits sizeOf i).Upto limits sizeOf (i+1) := by
  have hstart := h.start
  have hnext : rangeBytes sizeOf s.start (i+1) = _ := rangeBytes_succ hstart.1
  unfold Chunking.step
  split
  · rename_i hover
    -- the open range is not empty: an empty one has room for an item
    have hlt : s.start < i := by omega
    refine ⟨h.tiles.append hlt,forall_mem_concat h.maximal fun count => ?_,⟨Nat.le_succ i,fun he => absurd he (Nat.succ_ne_self i).symm⟩,
      by simpa using hone,?_,.inr rfl⟩
    · exact ⟨h.items,h.bytes ▸ h.fits,fun _ => by rw [hnext,← h.bytes]; omega⟩
    · rw [rangeBytes_succ (Nat.le_refl i),rangeBytes_self,Nat.zero_add]
  · rename_i hover
    refine ⟨h.tiles,h.maximal,⟨hstart.1.trans (Nat.le_succ i),fun he => ?_⟩,?_,by rw [hnext,← h.bytes],?_⟩
    · simp only at he
      omega
    · simp only
      omega
    · simp only
      omega

theorem Chunking.upto_foldl (hone : 1 ≤ limits.1) (count : ℕ) :
    ((List.range count).foldl (Chunking.step limits sizeOf) {}).Upto limits sizeOf count := by
  induction count with
  | zero => exact ⟨rfl,by simp,⟨Nat.le_refl 0,fun _ => rfl⟩,Nat.zero_le _,rfl,.inl (Nat.zero_le _)⟩
  | succ n ih =>
    rw [List.range_succ,List.foldl_append]
    exact ih.step hone

theorem batchChunks_batches (hone : 1 ≤ limits.1) (count : ℕ) :
    Batches limits sizeOf count (batchChunks limits sizeOf count) := by
  have h : Chunking.Upto limits sizeOf _ count := Chunking.upto_foldl hone count
  unfold batchChunks
  simp only
  split
  · rename_i hlt
    refine ⟨h.tiles.append hlt,forall_mem_concat (fun r hr => h.maximal r hr count) ?_⟩
    exact ⟨h.items,h.bytes ▸ h.fits,fun hc => absurd hc (Nat.lt_irrefl count)⟩
  · rename_i hge
    have htiles := h.tiles
    rw [Nat.le_antisymm h.start.1 (Nat.not_lt.mp hge)] at htiles
    exact ⟨htiles,fun r hr => h.maximal r hr count⟩

/-- Every range is within the limits, if every item is. -/
theorem batchChunks_inLimits (hone : 1 ≤ limits.1) {count : ℕ} (hsize : ∀ i < count, sizeOf i ≤ limits.2) :
    ∀ r ∈ batchChunks limits sizeOf count, InLimits limits sizeOf r ∧ r.2 ≤ count := by
  have h : Batches limits sizeOf count _ := batchChunks_batches hone count
  intro r hr
  obtain ⟨hlt,hle⟩ := h.tiles.le.2 r hr
  have hmax := h.maximal r hr
  refine ⟨⟨hlt,hmax.items,hmax.bytes.elim id fun hsingle => ?_⟩,hle⟩
  rw [hsingle,rangeBytes_succ (Nat.le_refl _),rangeBytes_self,Nat.zero_add]
  exact hsize _ (by omega)

/-- The range that `batch_ranges` takes at `start`. -/
theorem rangeEnd_maximal {count start left stop bytes : ℕ} (htotal : rangeBytes sizeOf 0 count ≤ u64Max)
    (hleft : stop+left = count) (hopen : start < stop ∨ 0 < left) (hle : start ≤ stop)
    (hbytes : bytes = rangeBytes sizeOf start stop) (hitems : stop-start < limits.1)
    (hfits : bytes ≤ limits.2 ∨ stop = start+1) :
    start < rangeEnd limits sizeOf start left stop bytes ∧
    rangeEnd limits sizeOf start left stop bytes ≤ count ∧
    Maximal limits sizeOf count (start,rangeEnd limits sizeOf start left stop bytes) := by
  induction left generalizing stop bytes with
  | zero =>
    obtain rfl : stop = count := hleft
    exact ⟨hopen.resolve_right (Nat.lt_irrefl 0),Nat.le_refl _,hitems.le,hbytes ▸ hfits,
      fun hc => absurd hc (Nat.lt_irrefl _)⟩
  | succ left ih =>
    have hnext : min (bytes+sizeOf stop) u64Max = rangeBytes sizeOf start (stop+1) := by
      have hrest : _ = rangeBytes sizeOf 0 (stop+1) := rangeBytes_add (Nat.zero_le start) (by omega)
      have hall : _ = rangeBytes sizeOf 0 count := rangeBytes_add (Nat.zero_le (stop+1)) (by omega)
      rw [hbytes,← rangeBytes_succ hle]
      exact Nat.min_eq_left (by omega)
    unfold rangeEnd
    simp only [hnext]
    split
    · rename_i hstop
      exact ⟨hstop.1,by omega,hitems.le,hbytes ▸ hfits,fun _ => by dsimp only; omega⟩
    · rename_i hgo
      have hfits' : rangeBytes sizeOf start (stop+1) ≤ limits.2 ∨ stop+1 = start+1 := by omega
      split
      · rename_i hfull
        exact ⟨Nat.lt_succ_of_le hle,by omega,by dsimp only; omega,hfits',fun _ => .inl hfull⟩
      · exact ih (by omega) (.inl (Nat.lt_succ_of_le hle)) (Nat.le_succ_of_le hle) rfl (by omega) hfits'

theorem rangesFrom_batches {count left start : ℕ} (hone : 1 ≤ limits.1)
    (htotal : rangeBytes sizeOf 0 count ≤ u64Max) (hle : start ≤ count) (hleft : count ≤ start+left) :
    Tiles start (rangesFrom limits sizeOf count left start) count ∧
    ∀ r ∈ rangesFrom limits sizeOf count left start, Maximal limits sizeOf count r := by
  induction left generalizing start with
  | zero => exact ⟨Nat.le_antisymm hle hleft,by simp [rangesFrom]⟩
  | succ left ih =>
    unfold rangesFrom
    split
    · rename_i hlt
      obtain ⟨hstop,hend,hmax⟩ := @rangeEnd_maximal limits sizeOf count start (count-start) start 0 htotal
        (Nat.add_sub_cancel' hle) (.inr (by omega)) (Nat.le_refl start) (rangeBytes_self start).symm (by omega)
        (.inl (Nat.zero_le _))
      obtain ⟨htiles,hall⟩ := ih hend (by omega)
      exact ⟨⟨rfl,hstop,htiles⟩,List.forall_mem_cons.mpr ⟨hmax,hall⟩⟩
    · exact ⟨by simp only [Tiles]; omega,by simp⟩

/-- Both splitters cut the items into ordered batches that are as large as the limits allow, as long as
the sum of all sizes is a `u64`; the self-test takes a byte limit of zero as one. -/
theorem splitters_partition (limits : ℕ × ℕ) (sizeOf : ℕ → ℕ) (count : ℕ) (hone : 1 ≤ limits.1)
    (htotal : rangeBytes sizeOf 0 count ≤ u64Max) :
    Batches limits sizeOf count (batchChunks limits sizeOf count) ∧
    Batches (limits.1,max limits.2 1) sizeOf count (batchRanges limits sizeOf count) := by
  refine ⟨batchChunks_batches hone count,?_⟩
  have hmax : (max limits.1 1,max limits.2 1) = (limits.1,max limits.2 1) := by rw [Nat.max_eq_left hone]
  rw [batchRanges,hmax]
  have hitems : 1 ≤ (limits.1,max limits.2 1).1 := hone
  obtain ⟨htiles,hall⟩ := rangesFrom_batches hitems htotal (Nat.zero_le count) (Nat.zero_add count).ge
  exact ⟨htiles,hall⟩

theorem splitters_partition_three : Batches (2,5) (fun _ => 3) 3 (batchChunks (2,5) (fun _ => 3) 3) :=
  (splitters_partition (2,5) (fun _ => 3) 3 (by decide) (by decide)).1

/-- With a byte limit of zero the self-test's batch of two items has a byte. -/
theorem batchRanges_exceeds_zero : batchRanges (2,0) id 2 = [(0,2)] ∧ ¬ rangeBytes id 0 2 ≤ 0 := by decide

end Chunks

section Requests

def slice {α : Type} (xs : List α) (r : ℕ × ℕ) : List α := (xs.drop r.1).take (r.2-r.1)

def encryptBatches (caps : CryptoCapabilities) (items : List PlaintextUnit) : List (List PlaintextUnit) :=
  (batchChunks caps.batchLimits (fun i => (items[i]?.map fun u => u.data.length).getD 0)
    items.length).map (slice items)

/-- The batches a request sends to be decrypted, by the plaintext they stand for. -/
def decryptBatches (caps : CryptoCapabilities) (unitSize : ℕ) (cts : List CiphertextUnit) :
    List (List CiphertextUnit) :=
  (batchChunks caps.batchLimits (fun _ => unitSize) cts.length).map (slice cts)

open Scheduler

def encryptRequest (context : CryptoContext) (items : List PlaintextUnit) : LaneRequest PlaintextUnit :=
  ⟨context,items,plaintextBytes items,plaintextBytes items⟩

def decryptRequest (caps : CryptoCapabilities) (unitSize : ℕ) (context : CryptoContext)
    (items : List CiphertextUnit) : Except CryptoError (LaneRequest CiphertextUnit) :=
  if items.isEmpty then .ok ⟨context,[],0,0⟩
  else if ¬ (0 < unitSize ∧ unitSize ∈ caps.supportedPlaintextSizes) then
    .error (.Contract "provider has no compatible plaintext unit size")
  else
    match checkedMul items.length unitSize with
    | none => .error (.NonRetryableRequest "logical batch size overflow")
    | some logicalBytes =>
      if items.any fun u => u.data.length > caps.maxCiphertextSize then
        .error (.NonRetryableRequest "ciphertext exceeds the declared maximum unit size")
      else .ok ⟨context,items,ciphertextBytes items,logicalBytes⟩

def encryptLane (c : VolumeConfig) : Lane := ⟨schedulerConfig c,(schedulerConfig c).maxPendingPlaintextBytes⟩
def decryptLane (c : VolumeConfig) : Lane := ⟨schedulerConfig c,(schedulerConfig c).maxPendingCiphertextBytes⟩

theorem length_slice {α : Type} {xs : List α} {r : ℕ × ℕ} (h : r.2 ≤ xs.length) :
    (slice xs r).length = r.2-r.1 := by
  unfold slice
  rw [List.length_take,List.length_drop]
  omega

theorem take_append_slice {α : Type} (xs : List α) {a b : ℕ} (h : a ≤ b) :
    xs.take a ++ slice xs (a,b) = xs.take b := by
  have hb : b = a+(b-a) := (Nat.add_sub_cancel' h).symm
  rw [slice,hb,List.take_add]
  simp

theorem Tiles.flatten_slices {α : Type} (xs : List α) {a b : ℕ} {rs : List (ℕ × ℕ)} (h : Tiles a rs b) :
    xs.take a ++ (rs.map (slice xs)).flatten = xs.take b := by
  induction rs generalizing a with
  | nil =>
    obtain rfl : a = b := h
    simp
  | cons r rs ih =>
    obtain ⟨rfl,hlt,h⟩ := h
    rw [List.map_cons,List.flatten_cons,← List.append_assoc,take_append_slice xs hlt.le,ih h]

theorem flatten_batchChunks {α : Type} (caps : CryptoCapabilities) (sizeOf : ℕ → ℕ) (xs : List α) :
    ((batchChunks caps.batchLimits sizeOf xs.length).map (slice xs)).flatten = xs := by
  have hone : 1 ≤ caps.batchLimits.1 := by
    unfold CryptoCapabilities.batchLimits
    split
    · exact Nat.le_max_right _ _
    · exact Nat.le_refl 1
  have h : Batches caps.batchLimits sizeOf xs.length _ := batchChunks_batches hone _
  simpa using h.tiles.flatten_slices xs

theorem slice_subset {α : Type} (xs : List α) (r : ℕ × ℕ) : slice xs r ⊆ xs :=
  fun _ hx => List.mem_of_mem_drop (List.mem_of_mem_take hx)

theorem rangeBytes_const (size a b : ℕ) : rangeBytes (fun _ => size) a b = (b-a)*size := by
  unfold rangeBytes
  rw [List.map_const',List.sum_replicate,List.length_range',smul_eq_mul]

theorem plaintextBytes_eq {items : List PlaintextUnit} {n : ℕ} (h : ∀ u ∈ items, u.data.length = n) :
    plaintextBytes items = items.length*n := by
  unfold plaintextBytes
  rw [List.sum_eq_card_nsmul _ n (by simpa using h),List.length_map,smul_eq_mul]

theorem ciphertextBytes_le {items : List CiphertextUnit} {n : ℕ} (h : ∀ u ∈ items, u.data.length ≤ n) :
    ciphertextBytes items ≤ items.length*n := by
  unfold ciphertextBytes
  have hle := List.sum_le_card_nsmul (items.map fun u => u.data.length) n (by simpa using h)
  rwa [List.length_map,smul_eq_mul] at hle

end Requests

section Accepted

open Scheduler

variable {c : VolumeConfig} {caps : CryptoCapabilities}

namespace VolumeConfig

def servedUnits (c : VolumeConfig) : ℕ :=
  min c.effectiveBatchMaxItems (c.crypto.batch.maxBytes/c.expanded)

theorem effectiveBatchMaxItems_cases (c : VolumeConfig) :
    c.effectiveBatchMaxItems = c.crypto.batch.maxItems ∨ c.effectiveBatchMaxItems = 1 := by
  unfold effectiveBatchMaxItems
  split
  · split
    · exact .inr rfl
    · exact .inl rfl
  · exact .inl rfl

namespace Accepted

variable (h : c.Accepted)

include h

theorem expanded_pos : 0 < c.expanded := Nat.add_pos_left h.unit _

theorem div_pos : 0 < c.crypto.batch.maxBytes/c.expanded :=
  Nat.div_pos h.bytes h.expanded_pos

theorem batchUnits_pos : 0 < c.batchUnits := lt_min h.items h.div_pos

theorem effective_pos : 0 < c.effectiveBatchMaxItems := by
  have hitems := h.items
  rcases c.effectiveBatchMaxItems_cases with he | he <;> omega

theorem effective_le : c.effectiveBatchMaxItems ≤ c.crypto.batch.maxItems := by
  have hitems := h.items
  rcases c.effectiveBatchMaxItems_cases with he | he <;> omega

theorem servedUnits_pos : 0 < c.servedUnits := lt_min h.effective_pos h.div_pos

theorem servedUnits_le : c.servedUnits ≤ c.batchUnits :=
  min_le_min h.effective_le (Nat.le_refl _)

/-- The expanded bytes of that many units are within the declared limit. -/
theorem expanded_le {n : ℕ} (hn : n ≤ c.crypto.batch.maxBytes/c.expanded) :
    n*c.expanded ≤ c.crypto.batch.maxBytes := (Nat.le_div_iff_mul_le h.expanded_pos).mp hn

theorem budgets {n bytes : ℕ} (hn : n ≤ c.batchUnits)
    (hb : bytes ≤ n*c.crypto.capabilities.maxCiphertextSize) :
    bytes ≤ c.limits.maxCiphertextBytes ∧ bytes ≤ c.limits.maxCryptoInflightBytes ∧
    bytes ≤ c.limits.maxInflightBytesPerEndpoint := by
  have hle := hb.trans (Nat.mul_le_mul_right _ hn)
  exact ⟨hle.trans h.ciphertext,hle.trans h.inflight,hle.trans h.endpoint⟩

end Accepted

end VolumeConfig

structure Serves (c : VolumeConfig) (caps : CryptoCapabilities) : Prop where
  ciphertext : caps.maxCiphertextSize = c.crypto.capabilities.maxCiphertextSize
  unit : c.volume.cryptoUnitSize ∈ caps.supportedPlaintextSizes
  supported : caps.batch.supported = true
  items : 0 < caps.batch.maxItems
  holds : c.volume.cryptoUnitSize ≤ caps.batch.maxBytes
  /-- A batch within the limits is not more than the units served. -/
  bounds : ∀ n, n ≤ caps.batch.maxItems → n*c.volume.cryptoUnitSize ≤ caps.batch.maxBytes →
    n ≤ c.servedUnits

theorem effectiveCompatibilityId_ne {s : CryptoSection} (hne : s.randomPrefixBytes ≠ 0)
    (h : ¬ CryptoSection.prefixNamespace.toList <+: s.cryptoCompatibilityId.toList) :
    s.effectiveCompatibilityId ≠ s.cryptoCompatibilityId ∧ s.effectiveCompatibilityId ≠ "" := by
  have hid : s.effectiveCompatibilityId.toList = CryptoSection.prefixNamespace.toList ++
      ((toString s.randomPrefixBytes).toList ++ (":".toList ++ s.cryptoCompatibilityId.toList)) := by
    simp only [CryptoSection.effectiveCompatibilityId,if_neg hne,String.toList_append,List.append_assoc]
  refine ⟨fun he => h ?_,fun he => ?_⟩
  · rw [← he,hid]
    exact List.prefix_append _ _
  · rw [he] at hid
    exact absurd hid (by simp [CryptoSection.prefixNamespace])

theorem fatal_bind {α : Type} {p : Prop} [Decidable p] {m : String} {f : Unit → Except CryptoError α}
    (h : ¬ p) : (RandomPrefixProvider.fatal p m >>= f) = f () := by
  rw [RandomPrefixProvider.fatal,if_neg h]
  rfl

/-- A provider that accepts the expanded unit, behind random prefixes. -/
theorem RandomPrefixProvider.new_ok (inner : CryptoCapabilities) {unit prefixBytes : ℕ} {id : String}
    (hunit : 0 < unit) (hid : id ≠ "" ∧ id ≠ inner.cryptoCompatibilityId)
    (hpre : 16 ≤ prefixBytes ∧ prefixBytes ≤ 256 ∧ prefixBytes % 16 = 0)
    (hwire : unit+prefixBytes ≤ u32Max) (hsupported : unit+prefixBytes ∈ inner.supportedPlaintextSizes)
    (hfits : unit+prefixBytes ≤ inner.maxCiphertextSize) (hbatch : inner.batch.supported = true)
    (hitems : 0 < inner.batch.maxItems)
    (hpos : 0 < min (inner.batch.maxBytes/(unit+prefixBytes)) inner.batch.maxItems)
    (hu32 : min (inner.batch.maxBytes/(unit+prefixBytes)) inner.batch.maxItems ≤ u32Max) :
    RandomPrefixProvider.new inner unit prefixBytes id = .ok ⟨id,[unit],inner.maxCiphertextSize,⟨true,
      min (inner.batch.maxBytes/(unit+prefixBytes)) inner.batch.maxItems,
      min (inner.batch.maxBytes/(unit+prefixBytes)) inner.batch.maxItems*unit⟩⟩ := by
  unfold RandomPrefixProvider.new
  simp only [hbatch,if_true]
  rw [fatal_bind (Nat.ne_of_gt hunit),fatal_bind hid.1,fatal_bind (by omega),
    fatal_bind (Nat.not_lt.mpr hwire),fatal_bind (not_not.mpr hsupported),fatal_bind (Nat.not_lt.mpr hfits),
    fatal_bind hid.2,fatal_bind (Nat.ne_of_gt hitems),fatal_bind (Nat.ne_of_gt hpos),
    fatal_bind (Nat.not_lt.mpr hu32)]
  rfl

/-- The declared capabilities pass every check of the prefix, and what it makes of them. -/
theorem serves_of_accepted (h : c.Accepted) : ∃ caps, servedCapabilities c = .ok caps ∧ Serves c caps := by
  unfold servedCapabilities applyRandomPrefix
  by_cases hzero : c.crypto.randomPrefixBytes = 0
  · have hexp : c.expanded = c.volume.cryptoUnitSize := by simp [VolumeConfig.expanded,hzero]
    rw [if_pos hzero]
    refine ⟨_,rfl,rfl,hexp ▸ h.supported,rfl,h.effective_pos,hexp ▸ h.bytes,fun n hi hb => ?_⟩
    refine le_min hi ?_
    rw [Nat.le_div_iff_mul_le h.expanded_pos,hexp]
    exact hb
  · rw [if_neg hzero]
    have hpre := h.randomPrefix.resolve_left hzero
    obtain ⟨hdiffer,hnonempty⟩ := effectiveCompatibilityId_ne hzero h.profile
    have hunits : min (c.crypto.batch.maxBytes/c.expanded) c.effectiveBatchMaxItems = c.servedUnits :=
      min_comm _ _
    have hpos := h.servedUnits_pos
    -- a batch holds its units, and its bytes are within a byte limit
    have hu32 : c.servedUnits ≤ u32Max := by
      have hdiv := Nat.div_le_self c.crypto.batch.maxBytes c.expanded
      have hle : c.servedUnits ≤ c.crypto.batch.maxBytes/c.expanded := min_le_right _ _
      have hbytes := h.pendingBytes
      have hcap := h.pendingCap
      omega
    have hnew := RandomPrefixProvider.new_ok (capabilitiesFromConfig c) h.unit ⟨hnonempty,hdiffer⟩ hpre
      h.expanded h.supported h.fits rfl h.effective_pos (hunits ▸ hpos) (hunits ▸ hu32)
    refine ⟨_,hnew,rfl,List.mem_singleton_self _,rfl,hunits ▸ hpos,?_,fun n hi _ => hunits ▸ hi⟩
    exact Nat.le_mul_of_pos_left _ (hunits ▸ hpos)

/-- What the scheduler makes of an accepted configuration. -/
structure Schedules (c : VolumeConfig) (s : SchedulerConfig) : Prop where
  target : s.targetItems ≤ c.effectiveBatchMaxItems
  pending : s.maxPendingItems = c.limits.maxPendingCryptoItems
  items : c.batchUnits ≤ s.maxItems
  bytes : c.batchUnits*c.volume.cryptoUnitSize ≤ s.maxBytes
  plaintext : c.batchUnits*c.volume.cryptoUnitSize ≤ min s.maxPendingPlaintextBytes (u32Max/2)
  ciphertext : s.maxPendingCiphertextBytes = c.limits.maxCiphertextBytes
  bounds : ∀ n, n ≤ max s.maxItems 1 → n*c.volume.cryptoUnitSize ≤ s.maxBytes → n ≤ c.batchUnits

theorem schedules_of_accepted (h : c.Accepted) : Schedules c (schedulerConfig c) := by
  have hpos := h.batchUnits_pos
  have hdiv : c.batchUnits ≤ c.crypto.batch.maxBytes/c.expanded := min_le_right _ _
  have hcap := h.pendingCap
  unfold schedulerConfig
  by_cases hzero : c.crypto.randomPrefixBytes = 0
  · have hexp : c.expanded = c.volume.cryptoUnitSize := by simp [VolumeConfig.expanded,hzero]
    have hbytes : c.batchUnits*c.volume.cryptoUnitSize ≤ c.crypto.batch.maxBytes :=
      hexp ▸ h.expanded_le hdiv
    have hpending := h.pendingBytes
    simp only [if_pos hzero]
    refine ⟨min_le_right _ _,rfl,min_le_left _ _,hbytes,?_,rfl,fun n hi hb => ?_⟩
    · exact le_min (hbytes.trans hpending) (by omega)
    · refine le_min (hi.trans (max_le (Nat.le_refl _) h.items)) ?_
      rw [Nat.le_div_iff_mul_le h.expanded_pos,hexp]
      exact hb
  · have hunit : c.volume.cryptoUnitSize ≤ c.expanded := Nat.le_add_right _ _
    have hqueue : c.crypto.batch.maxBytes/c.expanded ≤ c.limits.maxPendingCryptoBytes/c.expanded :=
      Nat.div_le_div_right h.pendingBytes
    have hcost : c.limits.maxPendingCryptoBytes/c.expanded*c.volume.cryptoUnitSize ≤
        c.limits.maxPendingCryptoBytes :=
      (Nat.mul_le_mul_left _ hunit).trans (Nat.div_mul_le_self _ _)
    have hplain := Nat.mul_le_mul_right c.volume.cryptoUnitSize (hdiv.trans hqueue)
    simp only [if_neg hzero]
    refine ⟨min_le_right _ _,rfl,Nat.le_refl c.batchUnits,Nat.le_refl _,?_,rfl,fun n hi _ => ?_⟩
    · exact le_min hplain (by omega)
    · exact hi.trans (max_le (Nat.le_refl c.batchUnits) hpos)

theorem admitted {ι : Type} (h : c.Accepted) {maxPendingBytes : ℕ} {r : LaneRequest ι} (hne : r.items ≠ [])
    (hunits : r.items.length ≤ c.batchUnits)
    (hlogical : r.logicalBytes ≤ c.batchUnits*c.volume.cryptoUnitSize)
    (hresident : r.residentBytes ≤ min maxPendingBytes (u32Max/2)) :
    Lane.arrive ⟨schedulerConfig c,maxPendingBytes⟩ r = .ok (some r) := by
  have hs := schedules_of_accepted h
  have hcheck : Lane.checkAdmissible ⟨schedulerConfig c,maxPendingBytes⟩ r.items.length r.logicalBytes
      r.residentBytes = .ok () := by
    unfold Lane.checkAdmissible
    have hitems : c.batchUnits ≤ Lane.maxAdmitItems ⟨schedulerConfig c,maxPendingBytes⟩ := by
      refine le_max_of_le_left (le_min hs.items (le_max_of_le_left ?_))
      rw [hs.pending]
      exact (min_le_left _ _).trans h.pendingItems
    rw [if_neg]
    rintro (hi | hb | hb)
    · exact absurd (hunits.trans hitems) (Nat.not_le.mpr hi)
    · exact absurd (hlogical.trans hs.bytes) (Nat.not_le.mpr hb)
    · exact absurd hresident (Nat.not_le.mpr hb)
  have hrequest := Lane.checkRequest_ok ⟨schedulerConfig c,maxPendingBytes⟩ hne hcheck
  unfold Lane.arrive
  rw [hcheck,if_neg (by simpa using hne)]
  exact (congrArg (fun x => x >>= fun _ => pure (some r)) hrequest :)

theorem batchLimits_of_serves (h : c.Accepted) (hs : Serves c caps) :
    caps.batchLimits = (caps.batch.maxItems,caps.batch.maxBytes) := by
  have hitems := hs.items
  have hbytes := h.unit.trans_le hs.holds
  unfold CryptoCapabilities.batchLimits
  rw [if_pos hs.supported,max_eq_left hitems,max_eq_left hbytes]

theorem slice_served {α : Type} (hs : Serves c caps) {xs : List α} {r : ℕ × ℕ} (hlt : r.1 < r.2)
    (hle : r.2 ≤ xs.length) (hitems : r.2-r.1 ≤ caps.batch.maxItems)
    (hbytes : (r.2-r.1)*c.volume.cryptoUnitSize ≤ caps.batch.maxBytes) :
    slice xs r ≠ [] ∧ (slice xs r).length ≤ c.servedUnits := by
  have hlen := length_slice hle
  refine ⟨fun he => ?_,hlen ▸ hs.bounds _ hitems hbytes⟩
  rw [he] at hlen
  simp only [List.length_nil] at hlen
  omega

theorem encryptBatches_served (h : c.Accepted) (hs : Serves c caps) {items b : List PlaintextUnit}
    (hunits : ∀ u ∈ items, u.data.length = c.volume.cryptoUnitSize) (hb : b ∈ encryptBatches caps items) :
    b ≠ [] ∧ b.length ≤ c.servedUnits ∧ ∀ u ∈ b, u.data.length = c.volume.cryptoUnitSize := by
  unfold encryptBatches at hb
  obtain ⟨r,hr,rfl⟩ := List.mem_map.mp hb
  rw [batchLimits_of_serves h hs] at hr
  have hsize : ∀ i < items.length, (items[i]?.map fun u => u.data.length).getD 0 =
      c.volume.cryptoUnitSize := by
    intro i hi
    rw [List.getElem?_eq_getElem hi]
    exact hunits _ (List.getElem_mem hi)
  obtain ⟨hin,hle⟩ := batchChunks_inLimits (show 1 ≤ (caps.batch.maxItems,caps.batch.maxBytes).1 from hs.items)
    (fun i hi => (hsize i hi).trans_le hs.holds) r hr
  have hbytes : rangeBytes (fun i => (items[i]?.map fun u => u.data.length).getD 0) r.1 r.2 =
      (r.2-r.1)*c.volume.cryptoUnitSize := by
    rw [← rangeBytes_const]
    unfold rangeBytes
    refine congrArg List.sum (List.map_congr_left fun i hi => hsize i ?_)
    have hmem := List.mem_range'_1.mp hi
    omega
  obtain ⟨hne,hlen⟩ := slice_served hs hin.nonempty hle hin.items (hbytes ▸ hin.bytes)
  exact ⟨hne,hlen,fun u hu => hunits u (slice_subset _ _ hu)⟩

theorem decryptBatches_served (h : c.Accepted) (hs : Serves c caps) {cts b : List CiphertextUnit}
    (hb : b ∈ decryptBatches caps c.volume.cryptoUnitSize cts) :
    b ≠ [] ∧ b.length ≤ c.servedUnits ∧ b ⊆ cts := by
  unfold decryptBatches at hb
  obtain ⟨r,hr,rfl⟩ := List.mem_map.mp hb
  rw [batchLimits_of_serves h hs] at hr
  obtain ⟨hin,hle⟩ := batchChunks_inLimits (show 1 ≤ (caps.batch.maxItems,caps.batch.maxBytes).1 from hs.items)
    (fun _ _ => hs.holds) r hr
  have hbytes := hin.bytes
  rw [rangeBytes_const] at hbytes
  obtain ⟨hne,hlen⟩ := slice_served hs hin.nonempty hle hin.items hbytes
  exact ⟨hne,hlen,slice_subset _ _⟩

/-- The engine's requests of a lane, as the lane sees them. -/
def Encrypts (c : VolumeConfig) (caps : CryptoCapabilities) (b : List PlaintextUnit) (logicalBytes : ℕ) :
    Prop :=
  ∃ items, (∀ u ∈ items, u.data.length = c.volume.cryptoUnitSize) ∧ b ∈ encryptBatches caps items ∧
    logicalBytes = plaintextBytes b

def Decrypts (c : VolumeConfig) (caps : CryptoCapabilities) (b : List CiphertextUnit) (logicalBytes : ℕ) :
    Prop :=
  ∃ cts, (∀ u ∈ cts, 1 ≤ u.data.length ∧ u.data.length ≤ c.crypto.capabilities.maxCiphertextSize) ∧
    b ∈ decryptBatches caps c.volume.cryptoUnitSize cts ∧ logicalBytes = b.length*c.volume.cryptoUnitSize

theorem call_units {ι ο : Type} [UnitIndexed ι] (h : c.Accepted) {P : List ι → ℕ → Prop} {L : Lane}
    (hL : L.config = schedulerConfig c)
    (hP : ∀ items logical, P items logical → items.length ≤ c.servedUnits ∧
      logical = items.length*c.volume.cryptoUnitSize)
    {es : List (Event ι ο)} (hes : ∀ e ∈ es, e.Asks P) {k : Call ι}
    (hk : k ∈ ((World.initial L).run L es).calls) :
    k.items.length ≤ c.servedUnits ∧
    ∀ x ∈ k.items, ∃ items logical, P items logical ∧ x ∈ items := by
  have hs := schedules_of_accepted h
  obtain ⟨gs,-,hfit,hitems,hgs,hone⟩ := World.call_groups hes hk
  have hlen : k.items.length = itemsOf gs := by rw [hitems,List.length_flatMap]; rfl
  have hbytes : bytesOf gs = itemsOf gs*c.volume.cryptoUnitSize := by
    unfold bytesOf itemsOf
    rw [← List.sum_map_mul_right]
    exact congrArg List.sum (List.map_congr_left fun g hg => (hP _ _ (hgs g hg).2).2)
  have hbatch : itemsOf gs ≤ c.batchUnits := by
    refine hs.bounds _ (hL ▸ hfit.items) ?_
    rw [← hbytes,← hL]
    exact hfit.bytes
  refine ⟨?_,fun x hx => ?_⟩
  · rw [hlen]
    rcases c.effectiveBatchMaxItems_cases with he | he
    · refine le_min ?_ (hbatch.trans (min_le_right _ _))
      rw [he]
      exact hbatch.trans (min_le_left _ _)
    · -- one item per batch: the target keeps the lane from coalescing
      have htarget : L.config.targetItems ≤ 1 := by
        rw [hL,← he]
        exact hs.target
      obtain ⟨g,rfl⟩ := List.length_eq_one_iff.mp (hone htarget)
      have hg := (hP _ _ (hgs g (List.mem_singleton_self g)).2).1
      simpa [itemsOf] using hg
  · rw [hitems] at hx
    obtain ⟨g,hg,hxg⟩ := List.mem_flatMap.mp hx
    exact ⟨g.items,g.logicalBytes,(hgs g hg).2,hxg⟩

/-- The scheduler never refuses the engine under an accepted configuration. The capabilities that are
declared can be served. Every batch of whole units to encrypt, and of ciphertexts to decrypt, is
admitted by its lane. In every run of a lane with such batches, each provider call is within the
declared items and, with the random prefix of each unit, bytes, and the ciphertext it carries or
returns is within the budgets of the dispatcher and of an endpoint. -/
theorem accepted_config_never_refused (c : VolumeConfig) (hok : c.validate = .ok ()) :
    ∃ caps, servedCapabilities c = .ok caps ∧
    (∀ context items b, (∀ u ∈ items, u.data.length = c.volume.cryptoUnitSize) →
      b ∈ encryptBatches caps items →
      (encryptLane c).arrive (encryptRequest context b) = .ok (some (encryptRequest context b))) ∧
    (∀ context cts b, (∀ u ∈ cts, 1 ≤ u.data.length ∧
        u.data.length ≤ c.crypto.capabilities.maxCiphertextSize) →
      b ∈ decryptBatches caps c.volume.cryptoUnitSize cts →
      ∃ q, decryptRequest caps c.volume.cryptoUnitSize context b = .ok q ∧
        (decryptLane c).arrive q = .ok (some q)) ∧
    (∀ es : List (Event PlaintextUnit CiphertextUnit), (∀ e ∈ es, e.Asks (Encrypts c caps)) →
      ∀ k ∈ ((World.initial (encryptLane c)).run (encryptLane c) es).calls,
        k.items.length ≤ (capabilitiesFromConfig c).batch.maxItems ∧
        (k.items.map fun u => u.data.length+c.crypto.randomPrefixBytes).sum ≤
          (capabilitiesFromConfig c).batch.maxBytes ∧
        ∀ out : List CiphertextUnit, out.length = k.items.length →
          (∀ u ∈ out, u.data.length ≤ c.crypto.capabilities.maxCiphertextSize) →
          ciphertextBytes out ≤ c.limits.maxCryptoInflightBytes ∧
          ciphertextBytes out ≤ c.limits.maxInflightBytesPerEndpoint) ∧
    (∀ es : List (Event CiphertextUnit PlaintextUnit), (∀ e ∈ es, e.Asks (Decrypts c caps)) →
      ∀ k ∈ ((World.initial (decryptLane c)).run (decryptLane c) es).calls,
        k.items.length ≤ (capabilitiesFromConfig c).batch.maxItems ∧
        k.items.length*(c.volume.cryptoUnitSize+c.crypto.randomPrefixBytes) ≤
          (capabilitiesFromConfig c).batch.maxBytes ∧
        ciphertextBytes k.items ≤ c.limits.maxCryptoInflightBytes ∧
        ciphertextBytes k.items ≤ c.limits.maxInflightBytesPerEndpoint) := by
  have h := VolumeConfig.accepted_of_validate hok
  obtain ⟨caps,hcaps,hs⟩ := serves_of_accepted h
  have hsched := schedules_of_accepted h
  have hunits := h.servedUnits_le
  refine ⟨caps,hcaps,?_,?_,?_,?_⟩
  · intro context items b hitems hb
    obtain ⟨hne,hlen,hsize⟩ := encryptBatches_served h hs hitems hb
    have hbytes : plaintextBytes b ≤ c.batchUnits*c.volume.cryptoUnitSize := by
      rw [plaintextBytes_eq hsize]
      exact Nat.mul_le_mul_right _ (hlen.trans hunits)
    exact admitted h hne (hlen.trans hunits) hbytes (hbytes.trans hsched.plaintext)
  · intro context cts b hcts hb
    obtain ⟨hne,hlen,hsub⟩ := decryptBatches_served h hs hb
    have hmax : ∀ u ∈ b, u.data.length ≤ c.crypto.capabilities.maxCiphertextSize :=
      fun u hu => (hcts u (hsub hu)).2
    have hbytes := ciphertextBytes_le hmax
    have hlogical : b.length*c.volume.cryptoUnitSize ≤ c.batchUnits*c.volume.cryptoUnitSize :=
      Nat.mul_le_mul_right _ (hlen.trans hunits)
    have hrequest : decryptRequest caps c.volume.cryptoUnitSize context b =
        .ok ⟨context,b,ciphertextBytes b,b.length*c.volume.cryptoUnitSize⟩ := by
      have hany : ¬ (b.any fun u => u.data.length > caps.maxCiphertextSize) = true := by
        simpa [hs.ciphertext] using hmax
      have hu64 : b.length*c.volume.cryptoUnitSize < 2^64 := by
        have hcap := (hlogical.trans hsched.plaintext).trans (min_le_right _ _)
        unfold u32Max at hcap
        omega
      simp only [decryptRequest,checkedMul,if_pos hu64]
      rw [if_neg (by simpa using hne),if_neg (not_not.mpr ⟨h.unit,hs.unit⟩),if_neg hany]
    refine ⟨_,hrequest,admitted h hne (hlen.trans hunits) hlogical ?_⟩
    rw [hsched.ciphertext]
    have hbudget := (h.budgets (hlen.trans hunits) hbytes).1
    exact le_min hbudget (hbudget.trans h.ciphertextCap)
  · intro es hes k hk
    obtain ⟨hlen,hfrom⟩ := call_units h rfl (fun items logical ⟨all,hall,hb,hl⟩ => by
      obtain ⟨-,hlen,hsize⟩ := encryptBatches_served h hs hall hb
      exact ⟨hlen,hl.trans (plaintextBytes_eq hsize)⟩) hes hk
    refine ⟨hlen.trans (min_le_left _ _),?_,fun out hout hmax => ?_⟩
    · have hsize : ∀ u ∈ k.items, u.data.length+c.crypto.randomPrefixBytes = c.expanded := by
        intro u hu
        obtain ⟨items,logical,⟨all,hall,hb,-⟩,hmem⟩ := hfrom u hu
        rw [(encryptBatches_served h hs hall hb).2.2 u hmem]
        rfl
      rw [List.sum_eq_card_nsmul _ c.expanded (by simpa using hsize),List.length_map,smul_eq_mul]
      exact h.expanded_le (hlen.trans (min_le_right _ _))
    · have hbytes := ciphertextBytes_le hmax
      rw [hout] at hbytes
      exact (h.budgets (hlen.trans hunits) hbytes).2
  · intro es hes k hk
    obtain ⟨hlen,hfrom⟩ := call_units h rfl (fun items logical ⟨all,hall,hb,hl⟩ =>
      ⟨(decryptBatches_served h hs hb).2.1,hl⟩) hes hk
    refine ⟨hlen.trans (min_le_left _ _),h.expanded_le (hlen.trans (min_le_right _ _)),?_⟩
    have hmax : ∀ u ∈ k.items, u.data.length ≤ c.crypto.capabilities.maxCiphertextSize := by
      intro u hu
      obtain ⟨items,logical,⟨all,hall,hb,-⟩,hmem⟩ := hfrom u hu
      exact (hall u ((decryptBatches_served h hs hb).2.2 hmem)).2
    exact (h.budgets (hlen.trans hunits) (ciphertextBytes_le hmax)).2

end Accepted

section Sample

/-- Units of 512 bytes behind prefixes of 16 bytes, in batches of at most two. -/
def sampleConfig : VolumeConfig where
  volume := { maxVirtualSize := 2^20, deviceBlockSize := 512, cryptoUnitSize := 512, shardLogicalSize := 2^20 }
  crypto := {
    provider := .RemoteGrpc, cryptoCompatibilityId := "test", randomPrefixBytes := 16
    capabilities := ⟨[528],600⟩
    batch := { targetItems := 2, targetBytes := 1024, maxItems := 8, maxBytes := 1100 } }

def sampleUnits : List PlaintextUnit :=
  [⟨0,List.replicate 512 0⟩,⟨1,List.replicate 512 0⟩,⟨2,List.replicate 512 0⟩]

theorem accepted_config_never_refused_prefixed : sampleConfig.validate = .ok () ∧
    ∃ caps, servedCapabilities sampleConfig = .ok caps ∧
      (encryptBatches caps sampleUnits).map List.length = [2,1] ∧
      ∀ b ∈ encryptBatches caps sampleUnits, (encryptLane sampleConfig).arrive
        (encryptRequest ⟨0,1,"test"⟩ b) = .ok (some (encryptRequest ⟨0,1,"test"⟩ b)) := by
  have hok : sampleConfig.validate = .ok () := by decide +kernel
  obtain ⟨caps,hcaps,henc,-⟩ := accepted_config_never_refused sampleConfig hok
  refine ⟨hok,caps,hcaps,?_,fun b hb => henc _ sampleUnits b (by decide +kernel) hb⟩
  have hserved : servedCapabilities sampleConfig =
      .ok ⟨"maki-random-prefix-v1:16:test",[512],600,⟨true,2,1024⟩⟩ := by decide +kernel
  cases hserved.symm.trans hcaps
  decide +kernel

end Sample
end Maki
