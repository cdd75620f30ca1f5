import Maki.Checked

/-! Random bytes before every plaintext (`maki_crypto::random_prefix`): a provider for units of one
size over a provider for longer ones. -/
namespace Maki

/-- The inner provider is pinned to the expanded unit. -/
structure RandomPrefixProvider where
  inner : Checked.Provider
  logicalUnitSize : ℕ
  prefixBytes : ℕ
  caps : CryptoCapabilities

namespace RandomPrefixProvider

/-- `RandomPrefixProvider::new`. -/
def wrap (inner : Checked.Provider) (logicalUnitSize prefixBytes : ℕ) (compatibilityId : String) :
    Except CryptoError RandomPrefixProvider :=
  (new inner.caps logicalUnitSize prefixBytes compatibilityId).map
    fun caps => ⟨inner,logicalUnitSize,prefixBytes,caps⟩

variable (w : RandomPrefixProvider)

def wireUnitSize : ℕ := w.logicalUnitSize+w.prefixBytes

def innerContext (context : CryptoContext) : Except CryptoError CryptoContext :=
  if context.cryptoCompatibilityId ≠ w.caps.cryptoCompatibilityId then
    .error (.UnsupportedContext .CompatibilityId)
  else .ok { context with cryptoCompatibilityId := w.inner.caps.cryptoCompatibilityId }

def validateBatch (count bytes : ℕ) : Except CryptoError Unit :=
  if count > w.caps.batch.maxItems ∨ bytes > w.caps.batch.maxBytes then
    .error (.NonRetryableRequest ("batch of " ++ toString count ++ " items and " ++ toString bytes ++
      " plaintext bytes exceeds random-prefix provider limits"))
  else .ok ()

/-- The checks of both directions: the context, the `u64` product and the limits. -/
def checkBatch (kind : String) (context : CryptoContext) (count : ℕ) :
    Except CryptoError CryptoContext :=
  (w.innerContext context).bind fun inner =>
    if count*w.logicalUnitSize > u64Max then
      .error (.NonRetryableRequest (kind ++ " batch size overflows"))
    else (w.validateBatch count (count*w.logicalUnitSize)).map fun _ => inner

/-- The units with their random bytes: `random i j` is byte `j` of unit `i`. -/
def expand (random : ℕ → ℕ → UInt8) (items : List PlaintextUnit) : List PlaintextUnit :=
  items.mapIdx fun i item => ⟨item.unitIndex,(List.range w.prefixBytes).map (random i) ++ item.data⟩

def encryptRequest (random : ℕ → ℕ → UInt8) (context : CryptoContext) (items : List PlaintextUnit) :
    Except CryptoError (CryptoContext × List PlaintextUnit) :=
  (w.checkBatch "plaintext" context items.length).bind fun inner =>
    match items.find? (·.data.length ≠ w.logicalUnitSize) with
    | some item => .error (.NonRetryableRequest ("unit " ++ toString item.unitIndex ++
        " has plaintext size " ++ toString item.data.length ++ ", expected " ++
        toString w.logicalUnitSize))
    | none => .ok (inner,w.expand random items)

def encryptBatch (random : ℕ → ℕ → UInt8) (context : CryptoContext) (items : List PlaintextUnit) :
    Except CryptoError (List CiphertextUnit) :=
  (w.encryptRequest random context items).bind fun q =>
    (Checked.encryptBatch w.inner q.1 q.2).bind fun encrypted =>
      if (q.2.zip encrypted).any (fun p => p.1.data == p.2.data) then
        .error (.ProviderFatal
          "ciphertext equals expanded plaintext: the inner provider is not encrypting")
      else .ok encrypted

def decryptRequest (context : CryptoContext) (items : List CiphertextUnit) :
    Except CryptoError (CryptoContext × List CiphertextUnit) :=
  (w.checkBatch "ciphertext" context items.length).bind fun inner =>
    match items.find? fun item => item.data = [] ∨ item.data.length > w.caps.maxCiphertextSize with
    | some item => .error (.NonRetryableRequest ("unit " ++ toString item.unitIndex ++
        " has invalid ciphertext size " ++ toString item.data.length ++ " (maximum " ++
        toString w.caps.maxCiphertextSize ++ ")"))
    | none => .ok (inner,items)

/-- A unit without its random bytes; its buffer holds one logical unit. -/
def strip (item : PlaintextUnit) : Except CryptoError PlaintextUnit :=
  let payload := item.data.drop w.prefixBytes
  if payload.length > w.logicalUnitSize then
    .error (.ProviderFatal "decrypted plaintext capacity invariant failed")
  else .ok ⟨item.unitIndex,payload⟩

def decryptBatch (context : CryptoContext) (items : List CiphertextUnit) :
    Except CryptoError (List PlaintextUnit) :=
  (w.decryptRequest context items).bind fun q =>
    (Checked.decryptBatch w.inner (some w.wireUnitSize) q.1 q.2).bind fun expanded =>
      expanded.mapM w.strip

end RandomPrefixProvider

namespace Checked

/-- `count` units of `bytes` plaintext bytes are a batch of the provider. -/
structure InBatch (caps : CryptoCapabilities) (count bytes : ℕ) : Prop where
  fits : count ≤ caps.batch.maxItems
  single : caps.batch.supported = false → count ≤ 1
  within : bytes ≤ caps.batch.maxBytes

structure Encryptable (caps : CryptoCapabilities) (items : List PlaintextUnit) : Prop
    extends InBatch caps items.length (plaintextBytes items) where
  sizes : ∀ u ∈ items, u.data.length ∈ caps.supportedPlaintextSizes

/-- A batch of ciphertexts of `size` plaintext bytes each within the declared capabilities. -/
structure Decryptable (caps : CryptoCapabilities) (size : ℕ) (items : List CiphertextUnit) : Prop
    extends InBatch caps items.length (items.length*size) where
  sizes : ∀ u ∈ items, u.data ≠ [] ∧ u.data.length ≤ caps.maxCiphertextSize

/-- A provider that keeps to its capabilities and returns what was encrypted. -/
structure Provider.Honest (p : Provider) : Prop where
  encrypts : ∀ context items, context.cryptoCompatibilityId = p.caps.cryptoCompatibilityId →
    Encryptable p.caps items →
      ∃ out, p.encryptBatch context items = .ok out ∧ List.Forall₂ (Seals p.caps) items out
  decrypts : ∀ context items out, Encryptable p.caps items →
    p.encryptBatch context items = .ok out → p.decryptBatch context out = .ok items

end Checked

namespace RandomPrefixProvider

open Checked

section Built

variable {inner : Checked.Provider} {logicalUnitSize prefixBytes : ℕ} {id : String} {w : RandomPrefixProvider}

theorem of_fatal_bind {α : Type} {p : Prop} [Decidable p] {m : String}
    {f : Unit → Except CryptoError α} {a : α} (h : (fatal p m >>= f) = .ok a) : ¬ p ∧ f () = .ok a := by
  unfold fatal at h
  split at h
  · cases h
  · rename_i hp
    exact ⟨hp,h⟩

/-- The units of a wrapper that was built, and how many of them fill an inner batch. -/
structure Built (w : RandomPrefixProvider) : Prop where
  pos : 0 < w.prefixBytes
  wire : w.wireUnitSize ≤ u32Max
  supported : w.wireUnitSize ∈ w.inner.caps.supportedPlaintextSizes
  sizes : w.caps.supportedPlaintextSizes = [w.logicalUnitSize]
  ciphertext : w.caps.maxCiphertextSize = w.inner.caps.maxCiphertextSize
  batch : w.caps.batch.supported = w.inner.caps.batch.supported
  items : w.caps.batch.maxItems ≤ u32Max ∧
    w.caps.batch.maxItems*w.wireUnitSize ≤ w.inner.caps.batch.maxBytes ∧
    w.caps.batch.maxItems ≤ w.inner.caps.batch.maxItems ∧
    (w.inner.caps.batch.supported = false → w.caps.batch.maxItems ≤ 1)
  bytes : w.caps.batch.maxBytes = w.caps.batch.maxItems*w.logicalUnitSize

theorem built_of_wrap (h : wrap inner logicalUnitSize prefixBytes id = .ok w) :
    w.inner = inner ∧ Built w := by
  unfold wrap at h
  cases hnew : new inner.caps logicalUnitSize prefixBytes id with
  | error e => simp [hnew,Except.map] at h
  | ok caps =>
    rw [hnew] at h
    obtain rfl := Except.ok.inj h
    unfold new at hnew
    obtain ⟨-,h⟩ := of_fatal_bind hnew
    obtain ⟨-,h⟩ := of_fatal_bind h
    obtain ⟨hpre,h⟩ := of_fatal_bind h
    obtain ⟨hwire,h⟩ := of_fatal_bind h
    obtain ⟨hsupported,h⟩ := of_fatal_bind h
    obtain ⟨-,h⟩ := of_fatal_bind h
    obtain ⟨-,h⟩ := of_fatal_bind h
    obtain ⟨hitems,h⟩ := of_fatal_bind h
    obtain ⟨-,h⟩ := of_fatal_bind h
    obtain ⟨hu32,h⟩ := of_fatal_bind h
    obtain rfl := Except.ok.inj h
    have hpos : 0 < prefixBytes := by omega
    refine ⟨rfl,hpos,Nat.not_lt.mp hwire,not_not.mp hsupported,rfl,rfl,rfl,
      ⟨Nat.not_lt.mp hu32,?_,?_,?_⟩,rfl⟩
    · exact (Nat.mul_le_mul_right _ (min_le_left _ _)).trans (Nat.div_mul_le_self _ _)
    · apply (min_le_right _ _).trans
      split
      · exact le_rfl
      · exact Nat.pos_of_ne_zero hitems
    · intro hsingle
      apply (min_le_right _ _).trans
      exact (if_neg (Bool.eq_false_iff.mp hsingle)).le

variable {context ctx : CryptoContext} {items : List PlaintextUnit}

theorem checkBatch_ok {kind : String} {count : ℕ} :
    w.checkBatch kind context count = .ok ctx ↔
      context.cryptoCompatibilityId = w.caps.cryptoCompatibilityId ∧
      count*w.logicalUnitSize ≤ u64Max ∧ count ≤ w.caps.batch.maxItems ∧
      count*w.logicalUnitSize ≤ w.caps.batch.maxBytes ∧
      ctx = { context with cryptoCompatibilityId := w.inner.caps.cryptoCompatibilityId } := by
  unfold checkBatch innerContext
  by_cases hid : context.cryptoCompatibilityId = w.caps.cryptoCompatibilityId
  · simp only [hid,ne_eq,not_true_eq_false,if_false,Except.bind,true_and]
    split
    · rename_i hbytes
      simp [Nat.not_le.mpr hbytes]
    · unfold validateBatch
      split
      · simp only [Except.map,reduceCtorEq,false_iff]
        omega
      · simp only [Except.map,Except.ok.injEq]
        constructor
        · intro he
          exact ⟨by omega,by omega,by omega,he.symm⟩
        · intro he
          exact he.2.2.2.symm
  · simp [hid,Except.bind]

theorem Built.inBatch (h : Built w) {count : ℕ} (hc : count ≤ w.caps.batch.maxItems) :
    InBatch w.inner.caps count (count*w.wireUnitSize) where
  fits := hc.trans h.items.2.2.1
  single hs := hc.trans (h.items.2.2.2 hs)
  within := (Nat.mul_le_mul_right _ hc).trans h.items.2.1

theorem length_expand (random : ℕ → ℕ → UInt8) (items : List PlaintextUnit) :
    (w.expand random items).length = items.length := by simp [expand]

theorem wire_of_mem_expand (random : ℕ → ℕ → UInt8)
    (h : ∀ u ∈ items, u.data.length = w.logicalUnitSize) :
    ∀ u ∈ w.expand random items, u.data.length = w.wireUnitSize := by
  intro u hu
  obtain ⟨i,hi,rfl⟩ := List.mem_mapIdx.mp hu
  have hlen := h _ (List.getElem_mem hi)
  simp only [List.length_append,List.length_map,List.length_range,hlen,wireUnitSize]
  omega

theorem encryptRequest_ok (random : ℕ → ℕ → UInt8)
    {batch : List PlaintextUnit} :
    w.encryptRequest random context items = .ok (ctx,batch) ↔
      w.checkBatch "plaintext" context items.length = .ok ctx ∧
      (∀ u ∈ items, u.data.length = w.logicalUnitSize) ∧ batch = w.expand random items := by
  have hnone : items.find? (·.data.length ≠ w.logicalUnitSize) = none ↔
      ∀ u ∈ items, u.data.length = w.logicalUnitSize := by simp
  unfold encryptRequest
  rw [← hnone]
  cases w.checkBatch "plaintext" context items.length with
  | error e => simp [Except.bind]
  | ok inner =>
    cases items.find? (·.data.length ≠ w.logicalUnitSize) with
    | none => simp [Except.bind,eq_comm]
    | some u => simp [Except.bind]

theorem decryptRequest_ok {items batch : List CiphertextUnit} :
    w.decryptRequest context items = .ok (ctx,batch) ↔
      w.checkBatch "ciphertext" context items.length = .ok ctx ∧
      (∀ u ∈ items, u.data ≠ [] ∧ u.data.length ≤ w.caps.maxCiphertextSize) ∧ batch = items := by
  have hnone : (items.find? fun u => u.data = [] ∨ u.data.length > w.caps.maxCiphertextSize) = none ↔
      ∀ u ∈ items, u.data ≠ [] ∧ u.data.length ≤ w.caps.maxCiphertextSize := by simp
  unfold decryptRequest
  rw [← hnone]
  cases w.checkBatch "ciphertext" context items.length with
  | error e => simp [Except.bind]
  | ok inner =>
    cases items.find? fun u => u.data = [] ∨ u.data.length > w.caps.maxCiphertextSize with
    | none => simp [Except.bind,eq_comm]
    | some u => simp [Except.bind]

theorem strip_expand (random : ℕ → ℕ → UInt8)
    (h : ∀ u ∈ items, u.data.length = w.logicalUnitSize) :
    (w.expand random items).mapM w.strip = .ok items := by
  unfold expand
  induction items generalizing random with
  | nil => rfl
  | cons u items ih =>
    have hu := h u (by simp)
    have hrest := ih (fun i => random (i+1)) fun v hv => h v (by simp [hv])
    have hone : w.strip ⟨u.unitIndex,(List.range w.prefixBytes).map (random 0) ++ u.data⟩ = .ok u := by
      simp [strip,hu]
    rw [List.mapIdx_cons,List.mapM_cons,hone]
    simp only [bind,Except.bind]
    rw [hrest]
    rfl

theorem Built.encryptable (h : Built w) {random : ℕ → ℕ → UInt8}
    {batch : List PlaintextUnit}
    (hq : w.encryptRequest random context items = .ok (ctx,batch)) :
    Encryptable w.inner.caps batch := by
  obtain ⟨hc,hsize,rfl⟩ := (encryptRequest_ok random).mp hq
  have hwire := wire_of_mem_expand random hsize
  refine ⟨?_,fun u hu => hwire u hu ▸ h.supported⟩
  rw [plaintextBytes_eq hwire,length_expand]
  exact h.inBatch (checkBatch_ok.mp hc).2.2.1

/-- The inner provider's ciphertexts of the expanded units are the wrapper's of the units. -/
theorem Built.roundTrip (h : Built w) (hinner : w.inner.Honest) (random : ℕ → ℕ → UInt8)
    (hid : context.cryptoCompatibilityId = w.caps.cryptoCompatibilityId)
    (hin : Encryptable w.caps items) :
    ∃ cts, w.encryptBatch random context items = .ok cts ∧
      w.decryptBatch context cts = .ok items := by
  have hsize : ∀ u ∈ items, u.data.length = w.logicalUnitSize := by
    simpa [h.sizes] using hin.sizes
  have hwire := wire_of_mem_expand random hsize
  have hu64 : items.length*w.logicalUnitSize ≤ u64Max :=
    (Nat.mul_le_mul (hin.fits.trans h.items.1) ((Nat.le_add_right _ _).trans h.wire)).trans (by decide)
  have hcheck : ∀ kind, w.checkBatch kind context items.length =
      .ok { context with cryptoCompatibilityId := w.inner.caps.cryptoCompatibilityId } := by
    intro kind
    refine checkBatch_ok.mpr ⟨hid,hu64,hin.fits,?_,rfl⟩
    rw [h.bytes]
    exact Nat.mul_le_mul_right _ hin.fits
  have hq := (encryptRequest_ok random).mpr ⟨hcheck "plaintext",hsize,rfl⟩
  obtain ⟨cts,hok,hseals⟩ := hinner.encrypts
    { context with cryptoCompatibilityId := w.inner.caps.cryptoCompatibilityId } _ rfl
    (h.encryptable hq)
  have hlen : cts.length = items.length := by rw [← hseals.length_eq,length_expand]
  refine ⟨cts,?_,?_⟩
  · simp only [encryptBatch,hq,Except.bind,Checked.encryptBatch,hok,validateEncryptResult_ok.mpr hseals,
      bind,pure,Except.pure]
    rw [if_neg]
    -- an unchanged unit would be found in its ciphertext
    simp only [List.any_eq_true,beq_iff_eq,not_exists,not_and]
    rintro ⟨u,ct⟩ hmem heq
    have hseal := (List.forall₂_iff_zip.mp hseals).2 hmem
    refine hseal.hidden (fun hnil => ?_) (heq ▸ List.infix_rfl)
    have hu := hwire u (List.of_mem_zip hmem).1
    have hpos := h.pos
    rw [hnil,wireUnitSize,List.length_nil] at hu
    omega
  · have hflip := ((List.forall₂_and_left _ _).mpr ⟨hwire,hseals⟩).flip
    have hsizes : ∀ ct ∈ cts, ct.data ≠ [] ∧ ct.data.length ≤ w.caps.maxCiphertextSize := by
      refine ((List.forall₂_and_left _ _).mp (hflip.imp fun ct u hu => ⟨⟨hu.2.nonempty,?_⟩,hu⟩)).1
      exact h.ciphertext ▸ hu.2.bounded
    have hopens : List.Forall₂ (Opens w.inner.caps) cts (w.expand random items) := by
      refine hflip.imp fun ct u hu => ⟨hu.2.unit.symm,?_⟩
      simp [acceptsPlaintextSize,hu.1,h.wire,h.supported]
    have hpin : pin (some w.wireUnitSize) "volume unit size" (w.expand random items) = .ok () := by
      refine pin_ok.mpr fun size hs u hu => ?_
      rw [hwire u hu,Option.mem_some.mp hs]
    have hd := decryptRequest_ok.mpr ⟨hlen ▸ hcheck "ciphertext",hsizes,rfl⟩
    have hopen := hinner.decrypts _ _ _ (h.encryptable hq) hok
    simp only [decryptBatch,hd,Except.bind,Checked.decryptBatch,hopen,bind,pure,Except.pure,
      validateDecryptResult_ok.mpr hopens,hpin]
    exact strip_expand random hsize

end Built

theorem Built.decryptable {w : RandomPrefixProvider} (h : Built w) {context ctx : CryptoContext}
    {cts batch : List CiphertextUnit} (hq : w.decryptRequest context cts = .ok (ctx,batch)) :
    Decryptable w.inner.caps w.wireUnitSize batch := by
  obtain ⟨hc,hsizes,rfl⟩ := decryptRequest_ok.mp hq
  exact ⟨h.inBatch (checkBatch_ok.mp hc).2.2.1,by simpa only [h.ciphertext] using hsizes⟩

/-- The wrapper keeps the provider contract: a batch within its capabilities comes back as it was,
whatever the random bytes, and the inner provider is asked for nothing beyond its own, so one that
differs elsewhere only makes no difference. -/
theorem random_prefix_keeps_contract {inner : Checked.Provider} (hinner : inner.Honest)
    {logicalUnitSize prefixBytes : ℕ} {id : String} {w : RandomPrefixProvider}
    (hw : wrap inner logicalUnitSize prefixBytes id = .ok w) (random : ℕ → ℕ → UInt8)
    (context : CryptoContext) :
    (∀ items, context.cryptoCompatibilityId = w.caps.cryptoCompatibilityId →
      Encryptable w.caps items →
        ∃ cts, w.encryptBatch random context items = .ok cts ∧
          w.decryptBatch context cts = .ok items) ∧
    (∀ items ctx batch, w.encryptRequest random context items = .ok (ctx,batch) →
      Encryptable inner.caps batch) ∧
    (∀ cts ctx batch, w.decryptRequest context cts = .ok (ctx,batch) →
      Decryptable inner.caps w.wireUnitSize batch) ∧
    ∀ other : Checked.Provider, other.caps = inner.caps →
      ((∀ ctx batch, Encryptable inner.caps batch →
          other.encryptBatch ctx batch = inner.encryptBatch ctx batch) →
        ∀ items, encryptBatch { w with inner := other } random context items =
          w.encryptBatch random context items) ∧
      ((∀ ctx batch, Decryptable inner.caps w.wireUnitSize batch →
          other.decryptBatch ctx batch = inner.decryptBatch ctx batch) →
        ∀ cts, decryptBatch { w with inner := other } context cts = w.decryptBatch context cts) := by
  obtain ⟨rfl,hb⟩ := built_of_wrap hw
  refine ⟨fun items hid hin => hb.roundTrip hinner random hid hin,
    fun items ctx batch hq => hb.encryptable hq,fun cts ctx batch hq => hb.decryptable hq,
    fun other hcaps => ⟨fun hsame items => ?_,fun hsame cts => ?_⟩⟩
  · have hrequest : encryptRequest { w with inner := other } random context items =
        w.encryptRequest random context items := by
      simp only [encryptRequest,checkBatch,innerContext,validateBatch,expand,hcaps]
    simp only [encryptBatch,hrequest]
    cases hq : w.encryptRequest random context items with
    | error e => rfl
    | ok q => simp only [Except.bind,Checked.encryptBatch,hsame q.1 q.2 (hb.encryptable hq),hcaps]
  · have hrequest : decryptRequest { w with inner := other } context cts = w.decryptRequest context cts := by
      simp only [decryptRequest,checkBatch,innerContext,validateBatch,hcaps]
    simp only [decryptBatch,hrequest]
    cases hq : w.decryptRequest context cts with
    | error e => rfl
    | ok q =>
      simp only [Except.bind,Checked.decryptBatch,hsame q.1 q.2 (hb.decryptable hq),hcaps,wireUnitSize]
      rfl

/-- Units of seventeen bytes, each byte moved up by one. -/
def shiftProvider : Checked.Provider where
  caps := ⟨"inner",[17],17,⟨true,2,34⟩⟩
  encryptBatch _ items := .ok (items.map fun u => ⟨u.unitIndex,u.data.map (·+1)⟩)
  decryptBatch _ items := .ok (items.map fun u => ⟨u.unitIndex,u.data.map (·-1)⟩)

theorem shiftProvider_honest : shiftProvider.Honest where
  encrypts context items _ hin := by
    refine ⟨_,rfl,?_⟩
    rw [List.forall₂_map_right_iff,List.forall₂_same]
    intro u hu
    have hlen : u.data.length = 17 := List.mem_singleton.mp (hin.sizes u hu)
    refine ⟨rfl,fun hnil => ?_,by simp [shiftProvider,hlen],fun hne hin => ?_⟩
    · simp [List.map_eq_nil_iff.mp hnil] at hlen
    · have heq := hin.eq_of_length (by simp)
      obtain ⟨b,rest,hdata⟩ := List.exists_cons_of_ne_nil hne
      rw [hdata,List.map_cons,List.cons.injEq] at heq
      simp at heq
  decrypts context items out _ hok := by
    obtain rfl := Except.ok.inj hok
    have hback : ∀ data : Bytes, (data.map (·+1)).map (·-1) = data := fun data => by
      simp [Function.comp_def]
    simp only [shiftProvider,List.map_map,Function.comp_def,hback,List.map_id']

theorem random_prefix_keeps_contract_shifted :
    ∃ w cts, wrap shiftProvider 1 16 "outer" = .ok w ∧
      w.encryptBatch (fun i j => UInt8.ofNat (i+j)) ⟨0,1,"outer"⟩ [⟨5,[9]⟩,⟨7,[8]⟩] = .ok cts ∧
      w.decryptBatch ⟨0,1,"outer"⟩ cts = .ok [⟨5,[9]⟩,⟨7,[8]⟩] := by
  have hw : wrap shiftProvider 1 16 "outer" =
      .ok ⟨shiftProvider,1,16,⟨"outer",[1],17,⟨true,2,2⟩⟩⟩ := by rfl
  obtain ⟨cts,hcts⟩ := (random_prefix_keeps_contract shiftProvider_honest hw
    (fun i j => UInt8.ofNat (i+j)) ⟨0,1,"outer"⟩).1 [⟨5,[9]⟩,⟨7,[8]⟩] rfl
    ⟨⟨by decide,by decide,by decide⟩,by decide⟩
  exact ⟨_,cts,hw,hcts⟩

end RandomPrefixProvider
end Maki
