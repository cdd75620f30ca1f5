import Maki.Lane
import Maki.Superblock

/-! The configuration of a volume (`maki_format::config`), its declared capabilities and what the crypto
scheduler and the random prefix make of them. Of `validate` the checks on sizes, limits and batches
are modelled; the checks on other sections refuse more configurations, never fewer. -/
namespace Maki

inductive ConfigError where
  | Invalid (message : String)
  deriving DecidableEq

inductive ProviderKind where
  | LocalAesGcmSiv | LocalAesXts | RemoteHttp | RemoteWebsocket | RemoteGrpc | Fake
  deriving DecidableEq

structure BodyConfig where
  bodyType : String := "json"
  itemsPath : Option String := none

def BodyConfig.isBatch (b : BodyConfig) : Bool := b.bodyType = "json" && b.itemsPath.isSome

structure HttpOpConfig where
  body : Option BodyConfig := none

structure HttpConfig where
  encrypt : Option HttpOpConfig := none
  decrypt : Option HttpOpConfig := none

structure CapabilitiesSection where
  supportedPlaintextSizes : List ℕ
  maxCiphertextSize : ℕ

structure BatchSection where
  targetItems : ℕ := 64
  targetBytes : ℕ := 256*2^10
  maxItems : ℕ := 128
  maxBytes : ℕ := 2^20
  maxWait : ℕ := 150

structure LimitsSection where
  maxActiveCallbacks : ℕ := 64
  maxPlaintextBytes : ℕ := 128*2^20
  maxCiphertextBytes : ℕ := 160*2^20
  maxPendingCryptoItems : ℕ := 4096
  maxPendingCryptoBytes : ℕ := 128*2^20
  maxCryptoInflightBatches : ℕ := 32
  maxCryptoInflightBytes : ℕ := 32*2^20
  maxInflightPerEndpoint : ℕ := 8
  maxInflightBytesPerEndpoint : ℕ := 8*2^20

structure VolumeSection where
  maxVirtualSize : ℕ
  deviceBlockSize : ℕ := 4096
  cryptoUnitSize : ℕ := 4096
  shardLogicalSize : ℕ := 64*2^30

structure CryptoSection where
  provider : ProviderKind
  cryptoCompatibilityId : String
  randomPrefixBytes : ℕ := 0
  capabilities : CapabilitiesSection
  batch : BatchSection := {}
  http : Option HttpConfig := none

structure VolumeConfig where
  volume : VolumeSection
  crypto : CryptoSection
  limits : LimitsSection := {}
  slotAlignment : ℕ := 512

/-- A check that refuses a configuration. -/
def reject (c : Prop) [Decidable c] (message : String) : Except ConfigError Unit :=
  if c then .error (.Invalid message) else .ok ()

namespace CryptoSection

def prefixNamespace : String := "maki-random-prefix-v1:"

def effectiveCompatibilityId (c : CryptoSection) : String :=
  if c.randomPrefixBytes = 0 then c.cryptoCompatibilityId
  else prefixNamespace ++ toString c.randomPrefixBytes ++ ":" ++ c.cryptoCompatibilityId

end CryptoSection

namespace VolumeConfig

variable (c : VolumeConfig)

/-- A mapping without `items_path` sends one request per unit. -/
def perItem (op : Option HttpOpConfig) : Bool := !(op.bind HttpOpConfig.body).any BodyConfig.isBatch

def effectiveBatchMaxItems : ℕ :=
  match c.crypto.http with
  | some http =>
    if c.crypto.provider = .RemoteHttp ∧ (perItem http.encrypt || perItem http.decrypt) then 1
    else c.crypto.batch.maxItems
  | none => c.crypto.batch.maxItems

def geometry : Except FormatError Geometry :=
  Geometry.compute c.volume.deviceBlockSize c.volume.cryptoUnitSize c.slotAlignment
    c.crypto.capabilities.maxCiphertextSize c.volume.maxVirtualSize c.volume.shardLogicalSize

def providerPlaintextSize : Except ConfigError ℕ :=
  let size := c.volume.cryptoUnitSize+c.crypto.randomPrefixBytes
  if size ≤ u32Max then .ok size
  else .error (.Invalid ("crypto_unit_size " ++ toString c.volume.cryptoUnitSize ++
    " plus random_prefix_bytes " ++ toString c.crypto.randomPrefixBytes ++ " overflows u32"))

def namedLimits : List (String × ℕ) :=
  let l := c.limits
  [("limits.max_active_callbacks",l.maxActiveCallbacks),
    ("limits.max_pending_crypto_items",l.maxPendingCryptoItems),
    ("limits.max_crypto_inflight_batches",l.maxCryptoInflightBatches),
    ("limits.max_inflight_per_endpoint",l.maxInflightPerEndpoint),
    ("limits.max_plaintext_bytes",l.maxPlaintextBytes),
    ("limits.max_ciphertext_bytes",l.maxCiphertextBytes),
    ("limits.max_pending_crypto_bytes",l.maxPendingCryptoBytes),
    ("limits.max_crypto_inflight_bytes",l.maxCryptoInflightBytes),
    ("limits.max_inflight_bytes_per_endpoint",l.maxInflightBytesPerEndpoint)]

def checkLimit (limit : String × ℕ) : Except ConfigError Unit := do
  reject (limit.2 = 0) (limit.1 ++ " must be positive")
  reject ("_bytes".toList <:+: limit.1.toList ∧ limit.2 > u32Max/2)
    (limit.1 ++ " (" ++ toString limit.2 ++ ") exceeds the admission capacity of " ++
      toString (u32Max/2) ++ " bytes")

def checkBudget (batchUnits ciphertextBatch : ℕ) (budget : String × ℕ) : Except ConfigError Unit :=
  reject (budget.2 < ciphertextBatch) (budget.1 ++ " (" ++ toString budget.2 ++
    ") must hold the maximum ciphertext batch (" ++ toString ciphertextBatch ++ " bytes for " ++
    toString batchUnits ++ " units)")

def ciphertextBudgets : List (String × ℕ) :=
  [("limits.max_ciphertext_bytes",c.limits.maxCiphertextBytes),
    ("limits.max_crypto_inflight_bytes",c.limits.maxCryptoInflightBytes),
    ("limits.max_inflight_bytes_per_endpoint",c.limits.maxInflightBytesPerEndpoint)]

def checkBudgets (batchUnits : ℕ) : Except ConfigError Unit :=
  match checkedMul batchUnits c.crypto.capabilities.maxCiphertextSize with
  | none => .error (.Invalid "maximum ciphertext batch size overflows u64")
  | some ciphertextBatch => c.ciphertextBudgets.forM (checkBudget batchUnits ciphertextBatch)

def validateBatch (unit : ℕ) : Except ConfigError Unit := do
  let b := c.crypto.batch
  let l := c.limits
  reject (b.maxItems = 0) "crypto.batch.max_items must be positive"
  reject (b.maxBytes < unit) ("crypto.batch.max_bytes must hold at least one provider plaintext unit (" ++
    toString unit ++ " bytes)")
  reject (b.targetItems = 0 ∨ b.targetItems > b.maxItems)
    "crypto.batch.target_items must be within 1..=max_items"
  reject (b.targetBytes = 0 ∨ b.targetBytes > b.maxBytes)
    "crypto.batch.target_bytes must be within 1..=max_bytes"
  -- a lane admits a request as one whole group
  reject (l.maxPendingCryptoItems < b.maxItems)
    ("limits.max_pending_crypto_items (" ++ toString l.maxPendingCryptoItems ++
      ") must be at least crypto.batch.max_items (" ++ toString b.maxItems ++
      ") so a full batch can be admitted")
  reject (l.maxPendingCryptoBytes < b.maxBytes)
    ("limits.max_pending_crypto_bytes (" ++ toString l.maxPendingCryptoBytes ++
      ") must be at least crypto.batch.max_bytes (" ++ toString b.maxBytes ++
      ") so the encrypt lane can admit a full batch")
  c.checkBudgets (min b.maxItems (b.maxBytes/unit))

def validateSettings : Except ConfigError Unit := do
  c.namedLimits.forM checkLimit
  reject (c.limits.maxCiphertextBytes < c.limits.maxPlaintextBytes)
    "limits.max_ciphertext_bytes must be at least limits.max_plaintext_bytes"
  c.validateBatch (← c.providerPlaintextSize)

def localMinCiphertext (providerPlaintextSize : ℕ) : Except ConfigError ℕ :=
  match c.crypto.provider with
  | .LocalAesGcmSiv =>
    if providerPlaintextSize+28 ≤ u32Max then .ok (providerPlaintextSize+28)
    else .error (.Invalid "provider plaintext size plus local AES-GCM-SIV overhead overflows u32")
  | .LocalAesXts => .ok providerPlaintextSize
  | _ => .ok 0

def validate : Except ConfigError Unit := do
  let n := c.crypto.randomPrefixBytes
  reject (n ≠ 0 ∧ (¬ (16 ≤ n ∧ n ≤ 256) ∨ n % 16 ≠ 0))
    ("crypto.random_prefix_bytes " ++ toString n ++ " must be 0 or a multiple of 16 in 16..=256")
  reject (CryptoSection.prefixNamespace.toList <+: c.crypto.cryptoCompatibilityId.toList)
    "crypto_compatibility_id uses the reserved maki-random-prefix-v1: namespace"
  let size ← c.providerPlaintextSize
  reject (c.crypto.effectiveCompatibilityId.utf8ByteSize > maxStr)
    ("effective crypto_compatibility_id exceeds " ++ toString maxStr ++ " bytes")
  match c.geometry with
  | .error _ => .error (.Invalid "the geometry is not valid")
  | .ok _ => do
    c.validateSettings
    let caps := c.crypto.capabilities
    reject (size ∉ caps.supportedPlaintextSizes)
      ("provider plaintext size " ++ toString size ++ " not in supported_plaintext_sizes")
    reject (caps.maxCiphertextSize < size) ("max_ciphertext_size " ++ toString caps.maxCiphertextSize ++
      " must be at least provider plaintext size " ++ toString size)
    let least ← c.localMinCiphertext size
    reject (caps.maxCiphertextSize < least) ("max_ciphertext_size " ++
      toString caps.maxCiphertextSize ++ " must be at least " ++ toString least ++ " for the provider")

end VolumeConfig

structure BatchCapability where
  supported : Bool
  maxItems : ℕ
  maxBytes : ℕ
  deriving DecidableEq

structure CryptoCapabilities where
  cryptoCompatibilityId : String
  supportedPlaintextSizes : List ℕ
  maxCiphertextSize : ℕ
  batch : BatchCapability
  deriving DecidableEq

def capabilitiesFromConfig (c : VolumeConfig) : CryptoCapabilities where
  cryptoCompatibilityId := c.crypto.cryptoCompatibilityId
  supportedPlaintextSizes := c.crypto.capabilities.supportedPlaintextSizes
  maxCiphertextSize := c.crypto.capabilities.maxCiphertextSize
  batch := ⟨true,c.effectiveBatchMaxItems,c.crypto.batch.maxBytes⟩

namespace RandomPrefixProvider

def fatal (c : Prop) [Decidable c] (message : String) : Except CryptoError Unit :=
  if c then .error (.ProviderFatal message) else .ok ()

def new (inner : CryptoCapabilities) (logicalUnitSize prefixBytes : ℕ) (compatibilityId : String) :
    Except CryptoError CryptoCapabilities := do
  fatal (logicalUnitSize = 0) "logical unit size must be nonzero"
  fatal (compatibilityId = "") "random-prefix compatibility id must not be empty"
  fatal (¬ (16 ≤ prefixBytes ∧ prefixBytes ≤ 256) ∨ prefixBytes % 16 ≠ 0)
    "random prefix size must be a multiple of 16 between 16 and 256 bytes"
  let wireUnitSize := logicalUnitSize+prefixBytes
  fatal (wireUnitSize > u32Max) "logical unit plus random prefix overflows u32"
  fatal (wireUnitSize ∉ inner.supportedPlaintextSizes)
    ("inner provider does not accept expanded plaintext size " ++ toString wireUnitSize)
  fatal (inner.maxCiphertextSize < wireUnitSize)
    "inner maximum ciphertext size is smaller than expanded plaintext size"
  fatal (compatibilityId = inner.cryptoCompatibilityId)
    "random-prefix compatibility id must differ from the inner profile"
  fatal (inner.batch.maxItems = 0) "inner batch item limit must be nonzero"
  let declaredItems := if inner.batch.supported then inner.batch.maxItems else 1
  let maxItems := min (inner.batch.maxBytes/wireUnitSize) declaredItems
  fatal (maxItems = 0) "inner batch limits cannot carry one expanded plaintext unit"
  fatal (maxItems > u32Max) "effective inner batch item limit exceeds u32"
  return {
    cryptoCompatibilityId := compatibilityId
    supportedPlaintextSizes := [logicalUnitSize]
    maxCiphertextSize := inner.maxCiphertextSize
    batch := ⟨inner.batch.supported,maxItems,maxItems*logicalUnitSize⟩ }

end RandomPrefixProvider

def applyRandomPrefix (provider : CryptoCapabilities) (logicalUnitSize prefixBytes : ℕ)
    (compatibilityId : String) : Except CryptoError CryptoCapabilities :=
  if prefixBytes = 0 then .ok provider
  else RandomPrefixProvider.new provider logicalUnitSize prefixBytes compatibilityId

def servedCapabilities (c : VolumeConfig) : Except CryptoError CryptoCapabilities :=
  applyRandomPrefix (capabilitiesFromConfig c) c.volume.cryptoUnitSize c.crypto.randomPrefixBytes
    c.crypto.effectiveCompatibilityId

def schedulerConfig (c : VolumeConfig) : Scheduler.SchedulerConfig :=
  let batch := c.crypto.batch
  let limits := c.limits
  let (maxItems,maxBytes,maxPendingPlaintextBytes) :=
    if c.crypto.randomPrefixBytes = 0 then (batch.maxItems,batch.maxBytes,limits.maxPendingCryptoBytes)
    else
      let logical := c.volume.cryptoUnitSize
      let expanded := logical+c.crypto.randomPrefixBytes
      let items := min batch.maxItems (batch.maxBytes/expanded)
      -- each queued unit reserves its expanded cost
      (items,items*logical,limits.maxPendingCryptoBytes/expanded*logical)
  { targetItems := min (min batch.targetItems maxItems) c.effectiveBatchMaxItems
    targetBytes := min batch.targetBytes maxBytes
    maxItems, maxBytes
    maxWait := batch.maxWait
    maxPendingItems := limits.maxPendingCryptoItems
    maxPendingPlaintextBytes
    maxPendingCiphertextBytes := limits.maxCiphertextBytes
    maxInflightBatches := limits.maxCryptoInflightBatches }

section Accepted

theorem reject_bind {α : Type} {p : Prop} [Decidable p] {m : String} {f : Unit → Except ConfigError α} {x : α}
    (h : (reject p m >>= f) = .ok x) : ¬ p ∧ f () = .ok x := by
  unfold reject at h
  split at h
  · cases h
  · exact ⟨by assumption,h⟩

theorem reject_ok {p : Prop} [Decidable p] {m : String} {u : Unit} (h : reject p m = .ok u) : ¬ p := by
  unfold reject at h
  split at h
  · cases h
  · assumption

theorem forM_ok {α : Type} {f : α → Except ConfigError Unit} {xs : List α} (h : xs.forM f = .ok ()) :
    ∀ x ∈ xs, f x = .ok () := by
  induction xs with
  | nil => simp
  | cons x xs ih =>
    simp only [List.forM_eq_forM,List.forM_cons] at h
    obtain ⟨_,hx,h⟩ := bind_eq_ok h
    exact List.forall_mem_cons.mpr ⟨hx,ih h⟩

namespace VolumeConfig

def expanded (c : VolumeConfig) : ℕ := c.volume.cryptoUnitSize+c.crypto.randomPrefixBytes

def batchUnits (c : VolumeConfig) : ℕ := min c.crypto.batch.maxItems (c.crypto.batch.maxBytes/c.expanded)

structure Accepted (c : VolumeConfig) : Prop where
  unit : 0 < c.volume.cryptoUnitSize
  randomPrefix : c.crypto.randomPrefixBytes = 0 ∨ 16 ≤ c.crypto.randomPrefixBytes ∧
    c.crypto.randomPrefixBytes ≤ 256 ∧ c.crypto.randomPrefixBytes % 16 = 0
  profile : ¬ CryptoSection.prefixNamespace.toList <+: c.crypto.cryptoCompatibilityId.toList
  expanded : c.expanded ≤ u32Max
  items : 0 < c.crypto.batch.maxItems
  bytes : c.expanded ≤ c.crypto.batch.maxBytes
  pendingItems : c.crypto.batch.maxItems ≤ c.limits.maxPendingCryptoItems
  pendingBytes : c.crypto.batch.maxBytes ≤ c.limits.maxPendingCryptoBytes
  pendingCap : c.limits.maxPendingCryptoBytes ≤ u32Max/2
  ciphertextCap : c.limits.maxCiphertextBytes ≤ u32Max/2
  ciphertext : c.batchUnits*c.crypto.capabilities.maxCiphertextSize ≤ c.limits.maxCiphertextBytes
  inflight : c.batchUnits*c.crypto.capabilities.maxCiphertextSize ≤ c.limits.maxCryptoInflightBytes
  endpoint : c.batchUnits*c.crypto.capabilities.maxCiphertextSize ≤ c.limits.maxInflightBytesPerEndpoint
  supported : c.expanded ∈ c.crypto.capabilities.supportedPlaintextSizes
  fits : c.expanded ≤ c.crypto.capabilities.maxCiphertextSize

variable {c : VolumeConfig}

theorem providerPlaintextSize_ok {size : ℕ} (h : c.providerPlaintextSize = .ok size) :
    size = c.expanded ∧ c.expanded ≤ u32Max := by
  unfold providerPlaintextSize at h
  simp only at h
  split at h
  · exact ⟨(Except.ok.inj h).symm,by assumption⟩
  · cases h

theorem unit_pos_of_geometry {g : Geometry} (h : c.geometry = .ok g) : 0 < c.volume.cryptoUnitSize := by
  unfold geometry Geometry.compute at h
  obtain ⟨-,h⟩ := require_bind h
  obtain ⟨hunit,-⟩ := require_bind h
  exact Nat.pos_of_ne_zero hunit.1

theorem checkLimit_bytes {name : String} {value : ℕ} (hname : "_bytes".toList <:+: name.toList)
    (h : checkLimit (name,value) = .ok ()) : value ≤ u32Max/2 := by
  unfold checkLimit at h
  obtain ⟨-,h⟩ := reject_bind h
  have hle := reject_ok h
  simp only [hname,true_and] at hle
  omega

theorem checkBudgets_ok {batchUnits : ℕ} (h : c.checkBudgets batchUnits = .ok ()) :
    ∀ x ∈ c.ciphertextBudgets, batchUnits*c.crypto.capabilities.maxCiphertextSize ≤ x.2 := by
  unfold checkBudgets at h
  split at h
  · cases h
  · rename_i product hp
    intro x hx
    have hle := reject_ok (forM_ok h x hx)
    unfold checkedMul at hp
    split at hp
    · obtain rfl := Option.some.inj hp
      exact Nat.not_lt.mp hle
    · cases hp

theorem validateBatch_ok {unit : ℕ} (h : c.validateBatch unit = .ok ()) :
    0 < c.crypto.batch.maxItems ∧ unit ≤ c.crypto.batch.maxBytes ∧
    c.crypto.batch.maxItems ≤ c.limits.maxPendingCryptoItems ∧
    c.crypto.batch.maxBytes ≤ c.limits.maxPendingCryptoBytes ∧
    c.checkBudgets (min c.crypto.batch.maxItems (c.crypto.batch.maxBytes/unit)) = .ok () := by
  unfold validateBatch at h
  obtain ⟨hitems,h⟩ := reject_bind h
  obtain ⟨hbytes,h⟩ := reject_bind h
  obtain ⟨-,h⟩ := reject_bind h
  obtain ⟨-,h⟩ := reject_bind h
  obtain ⟨hpending,h⟩ := reject_bind h
  obtain ⟨hpendingBytes,h⟩ := reject_bind h
  exact ⟨by omega,by omega,by omega,by omega,h⟩

theorem validateSettings_ok (h : c.validateSettings = .ok ()) :
    (∀ x ∈ c.namedLimits, checkLimit x = .ok ()) ∧ c.expanded ≤ u32Max ∧
    c.validateBatch c.expanded = .ok () := by
  unfold validateSettings at h
  obtain ⟨_,hlimits,h⟩ := bind_eq_ok h
  obtain ⟨-,h⟩ := reject_bind h
  obtain ⟨size,hsize,h⟩ := bind_eq_ok h
  obtain ⟨rfl,hle⟩ := providerPlaintextSize_ok hsize
  exact ⟨forM_ok hlimits,hle,h⟩

theorem accepted_of_validate (h : c.validate = .ok ()) : c.Accepted := by
  unfold validate at h
  obtain ⟨hpre,h⟩ := reject_bind h
  obtain ⟨hprofile,h⟩ := reject_bind h
  obtain ⟨size,hsize,h⟩ := bind_eq_ok h
  obtain ⟨rfl,hexpanded⟩ := providerPlaintextSize_ok hsize
  obtain ⟨-,h⟩ := reject_bind h
  cases hgeometry : c.geometry with
  | error e =>
    simp only [hgeometry] at h
    cases h
  | ok g =>
    simp only [hgeometry] at h
    obtain ⟨_,hsettings,h⟩ := bind_eq_ok h
    obtain ⟨hsupported,h⟩ := reject_bind h
    obtain ⟨hfits,-⟩ := reject_bind h
    obtain ⟨hlimits,-,hbatch⟩ := validateSettings_ok hsettings
    obtain ⟨hitems,hbytes,hpending,hpendingBytes,hbudgets⟩ := validateBatch_ok hbatch
    have hbudget := checkBudgets_ok hbudgets
    refine ⟨?_,?_,hprofile,hexpanded,hitems,hbytes,hpending,hpendingBytes,?_,?_,?_,?_,?_,?_,?_⟩
    · exact unit_pos_of_geometry hgeometry
    · omega
    · exact checkLimit_bytes (show "_bytes".toList <:+: "limits.max_pending_crypto_bytes".toList by decide +kernel)
        (hlimits _ (by simp [namedLimits]))
    · exact checkLimit_bytes (show "_bytes".toList <:+: "limits.max_ciphertext_bytes".toList by decide +kernel)
        (hlimits _ (by simp [namedLimits]))
    · exact hbudget ("limits.max_ciphertext_bytes",c.limits.maxCiphertextBytes)
        (by simp [ciphertextBudgets])
    · exact hbudget ("limits.max_crypto_inflight_bytes",c.limits.maxCryptoInflightBytes)
        (by simp [ciphertextBudgets])
    · exact hbudget ("limits.max_inflight_bytes_per_endpoint",c.limits.maxInflightBytesPerEndpoint)
        (by simp [ciphertextBudgets])
    · exact not_not.mp hsupported
    · exact Nat.not_lt.mp hfits

end VolumeConfig

end Accepted
end Maki
