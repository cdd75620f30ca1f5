import Mathlib
import Maki.Checked
import Maki.Dispatch
import Maki.Layout

/-! The endpoint set as a provider (`maki_crypto::endpoint`): the contract its peers have in common,
and batches that are sent in chunks, whatever the peers answer. -/
namespace Maki
namespace EndpointSet

open Checked Dispatch

/-- A peer's answer to `capabilities`, which its `CheckedProvider` keeps. -/
structure Peer where
  name : String
  caps : Except CryptoError CryptoCapabilities
  retrySafe : Bool
  validated : Bool

def intersect (c other : CryptoCapabilities) : CryptoCapabilities where
  cryptoCompatibilityId := c.cryptoCompatibilityId
  supportedPlaintextSizes := c.supportedPlaintextSizes.filter other.supportedPlaintextSizes.contains
  maxCiphertextSize := max c.maxCiphertextSize other.maxCiphertextSize
  batch := ⟨c.batch.supported && other.batch.supported,min c.batch.maxItems other.batch.maxItems,
    min c.batch.maxBytes other.batch.maxBytes⟩

def contract [DebugTable] (p : Peer) (caps : CryptoCapabilities) : Except CryptoError CryptoCapabilities :=
  if caps.batch.maxItems = 0 ∨ caps.batch.maxBytes = 0 ∨ caps.maxCiphertextSize = 0 ∨
      caps.supportedPlaintextSizes = [] ∨ 0 ∈ caps.supportedPlaintextSizes then
    .error (.ProviderFatal ("endpoint " ++ debugText p.name ++ " advertises an empty crypto contract"))
  else .ok caps

/-- The contract of the peers so far, whether all are retry-safe, and the peers marked as rejected. -/
structure Common where
  caps : CryptoCapabilities
  retrySafe : Bool
  rejected : List String

/-- An error, with the peers that are marked as rejected all the same. -/
abbrev Negotiated (α : Type) := Except (CryptoError × List String) α

def absorb [DebugTable] (common : Common) (p : Peer) : Negotiated Common := do
  let caps ← p.caps.mapError (·,common.rejected)
  if caps.cryptoCompatibilityId ≠ common.caps.cryptoCompatibilityId then
    if p.validated then
      .error (.Contract ("endpoint " ++ debugText p.name ++ " reports compatibility id " ++
        debugText caps.cryptoCompatibilityId ++ ", the set requires " ++
        debugText common.caps.cryptoCompatibilityId),common.rejected)
    else .ok { common with rejected := common.rejected ++ [p.name] }
  else
    let caps ← (contract p caps).mapError (·,common.rejected)
    return { common with
      caps := intersect common.caps caps, retrySafe := common.retrySafe && p.retrySafe }

/-- The common contract with its sizes in order; a set without batches sends single items. -/
def settle (c : CryptoCapabilities) : CryptoCapabilities :=
  { c with
    supportedPlaintextSizes := (c.supportedPlaintextSizes.mergeSort (· ≤ ·)).destutter (· ≠ ·)
    batch := { c.batch with maxItems := if c.batch.supported then c.batch.maxItems else 1 } }

def firstValidated : List Peer → Option (Peer × List Peer)
  | [] => none
  | p::peers =>
    if p.validated then some (p,peers) else (firstValidated peers).map fun x => (x.1,p::x.2)

/-- `none` where no endpoint is validated and `expect` panics. -/
def commonCaps [DebugTable] (peers : List Peer) (plaintextSize : Option ℕ) :
    Option (Negotiated Common) :=
  (firstValidated peers).map fun (p,others) => do
    let caps ← p.caps.mapError (·,[])
    let caps ← (contract p caps).mapError (·,[])
    let common ← others.foldlM absorb ⟨caps,p.retrySafe,[]⟩
    let caps := settle common.caps
    if plaintextSize.any fun size => size ∉ caps.supportedPlaintextSizes ∨ size > caps.batch.maxBytes then
      .error (.NonRetryableRequest "selected plaintext unit exceeds the common endpoint contract",
        common.rejected)
    else return { common with caps := caps }

section Chunks

variable {α β : Type}

/-- Successive chunks of the items; `size` tells how many the next one takes. -/
def split (size : List α → ℕ) : ℕ → List α → List (List α)
  | 0,_ => []
  | fuel+1,items =>
    if items = [] then [] else items.take (size items)::split size fuel (items.drop (size items))

theorem split_spec (size : List α → ℕ) {P : List α → Prop} {Q : α → Prop}
    (hsize : ∀ items, items ≠ [] → (∀ x ∈ items, Q x) → 0 < size items ∧ P (items.take (size items)))
    {fuel : ℕ} {items : List α} (hfuel : items.length ≤ fuel) (hitems : ∀ x ∈ items, Q x) :
    (split size fuel items).flatten = items ∧ ∀ chunk ∈ split size fuel items, chunk ≠ [] ∧ P chunk := by
  induction fuel generalizing items with
  | zero => simp_all [split]
  | succ fuel ih =>
    rw [split]
    split_ifs with hnil
    · simp [hnil]
    · obtain ⟨hpos,hP⟩ := hsize items hnil hitems
      have hlen : (items.drop (size items)).length ≤ fuel := by rw [List.length_drop]; omega
      obtain ⟨hflat,hall⟩ := ih hlen fun y hy => hitems y (List.mem_of_mem_drop hy)
      have hne : items.take (size items) ≠ [] := by simp [hnil,hpos.ne']
      exact ⟨by rw [List.flatten_cons,hflat,List.take_append_drop],
        List.forall_mem_cons.mpr ⟨⟨hne,hP⟩,hall⟩⟩

/-- Each chunk is served in turn, up to one that fails or whose call has not returned; with it, what
was sent for each. -/
def serveAll (serve : ℕ → List α → Option (Except CryptoError (List β)) × List (List α)) :
    ℕ → List (List α) → Option (Except CryptoError (List β)) × List (List (List α))
  | _,[] => (some (.ok []),[])
  | k,chunk::chunks =>
    match serve k chunk with
    | (some (.ok result),sent) =>
      let rest := serveAll serve (k+1) chunks
      (rest.1.map (·.map (result ++ ·)),sent::rest.2)
    | (stopped,sent) => (stopped,[sent])

/-- Each list of calls is for one chunk, which every call of it carries. -/
def Sends (chunks : List (List α)) (sent : List (List (List α))) : Prop :=
  List.Forall₂ (fun chunk calls => calls ≠ [] ∧ ∀ q ∈ calls, q = chunk) chunks sent

theorem serveAll_ok {serve : ℕ → List α → Option (Except CryptoError (List β)) × List (List α)}
    {R : α → β → Prop} (hserve : ∀ k chunk out sent, serve k chunk = (some (.ok out),sent) →
      List.Forall₂ R chunk out ∧ sent ≠ [] ∧ ∀ q ∈ sent, q = chunk) {k : ℕ}
    {chunks : List (List α)} {out : List β} {sent : List (List (List α))}
    (h : serveAll serve k chunks = (some (.ok out),sent)) :
    List.Forall₂ R chunks.flatten out ∧ Sends chunks sent := by
  induction chunks generalizing k out sent with
  | nil =>
    cases h
    exact ⟨.nil,.nil⟩
  | cons chunk chunks ih =>
    rw [serveAll] at h
    split at h
    · rename_i result calls hresult
      obtain ⟨hout,rfl⟩ := Prod.mk.inj h
      obtain ⟨rest,hrest,hmap⟩ := Option.map_eq_some_iff.mp hout
      cases rest with
      | error e => cases hmap
      | ok rest =>
        cases hmap
        obtain ⟨hR,hcalls⟩ := hserve k chunk result calls hresult
        obtain ⟨hrestR,hsends⟩ := ih (Prod.ext hrest rfl)
        exact ⟨List.rel_append hR hrestR,.cons hcalls hsends⟩
    · rename_i hne hstop
      obtain ⟨rfl,-⟩ := Prod.mk.inj h
      exact (hne out rfl).elim

end Chunks

section Contract

def Within (c other : CryptoCapabilities) : Prop :=
  c.batch.maxItems ≤ other.batch.maxItems ∧ c.batch.maxBytes ≤ other.batch.maxBytes

variable {c : CryptoCapabilities} {p : Peer} {common : Common} {peers : List Peer}

theorem Within.trans {a b : CryptoCapabilities} (h : Within a b) (h' : Within b c) : Within a c :=
  ⟨h.1.trans h'.1,h.2.trans h'.2⟩

structure Serves (c : CryptoCapabilities) : Prop where
  items : 0 < c.batch.maxItems
  bytes : 0 < c.batch.maxBytes
  sizes : 0 ∉ c.supportedPlaintextSizes

theorem contract_ok [DebugTable] {caps : CryptoCapabilities} (h : contract p caps = .ok c) :
    caps = c ∧ Serves c := by
  rw [contract] at h
  split at h
  · cases h
  · rename_i hnot
    cases h
    simp only [not_or] at hnot
    exact ⟨rfl,Nat.pos_of_ne_zero hnot.1,Nat.pos_of_ne_zero hnot.2.1,hnot.2.2.2.2⟩

theorem Serves.intersect {other : CryptoCapabilities} (h : Serves c) (h' : Serves other) :
    Serves (intersect c other) :=
  ⟨lt_min h.items h'.items,lt_min h.bytes h'.bytes,fun hmem => h.sizes (List.mem_filter.mp hmem).1⟩

structure Absorbed (common common' : CryptoCapabilities) : Prop where
  serves : Serves common'
  id : common'.cryptoCompatibilityId = common.cryptoCompatibilityId
  within : Within common' common

theorem absorb_ok [DebugTable] {common' : Common} (hserves : Serves common.1)
    (h : absorb common p = .ok common') : Absorbed common.1 common'.1 ∧
      ∀ caps, p.caps = .ok caps → caps.cryptoCompatibilityId = common.1.cryptoCompatibilityId →
        Within common'.1 caps := by
  obtain ⟨caps,hcaps,h⟩ := bind_eq_ok h
  simp only [ok_of_mapError hcaps,Except.ok.injEq,forall_eq']
  split at h
  · rename_i hid
    split at h
    · cases h
    · cases h
      exact ⟨⟨hserves,rfl,le_rfl,le_rfl⟩,fun heq => absurd heq hid⟩
  · obtain ⟨c,hcontract,h⟩ := bind_eq_ok h
    obtain ⟨rfl,hs⟩ := contract_ok (ok_of_mapError hcontract)
    cases h
    exact ⟨⟨hserves.intersect hs,rfl,Nat.min_le_left _ _,Nat.min_le_left _ _⟩,
      fun _ => ⟨Nat.min_le_right _ _,Nat.min_le_right _ _⟩⟩

theorem foldlM_absorb [DebugTable] {common' : Common}
    (hserves : Serves common.1) (h : peers.foldlM absorb common = .ok common') :
    Absorbed common.1 common'.1 ∧ ∀ p ∈ peers, ∀ caps, p.caps = .ok caps →
      caps.cryptoCompatibilityId = common.1.cryptoCompatibilityId → Within common'.1 caps := by
  induction peers generalizing common with
  | nil =>
    cases h
    exact ⟨⟨hserves,rfl,le_rfl,le_rfl⟩,by simp⟩
  | cons p peers ih =>
    rw [List.foldlM_cons] at h
    obtain ⟨next,habsorb,h⟩ := bind_eq_ok h
    obtain ⟨hnext,hp⟩ := absorb_ok hserves habsorb
    obtain ⟨hlast,hpeers⟩ := ih hnext.serves h
    refine ⟨⟨hlast.serves,hlast.id.trans hnext.id,hlast.within.trans hnext.within⟩,?_⟩
    refine List.forall_mem_cons.mpr ⟨fun caps hcaps hid => hlast.within.trans (hp caps hcaps hid),?_⟩
    exact fun q hq caps hcaps hid => hpeers q hq caps hcaps (hid.trans hnext.id.symm)

theorem mem_firstValidated {others : List Peer} {q : Peer}
    (h : firstValidated peers = some (p,others)) (hq : q ∈ peers) : q = p ∨ q ∈ others := by
  induction peers generalizing others with
  | nil => cases h
  | cons r peers ih =>
    rw [firstValidated] at h
    split at h
    · cases h
      exact List.mem_cons.mp hq
    · obtain ⟨x,hx,heq⟩ := Option.map_eq_some_iff.mp h
      cases heq
      rcases List.mem_cons.mp hq with rfl | hq
      · exact .inr (List.mem_cons_self ..)
      · exact (ih hx hq).imp_right (List.mem_cons_of_mem r)

theorem settle_ok (h : Serves c) : Serves (settle c) ∧ Within (settle c) c := by
  refine ⟨⟨?_,h.bytes,fun hmem => ?_⟩,?_,le_rfl⟩
  · simp only [settle]
    split
    · exact h.items
    · exact Nat.one_pos
  · exact h.sizes (List.mem_mergeSort.mp ((List.destutter_sublist _ _).subset hmem))
  · simp only [settle]
    split
    · exact le_rfl
    · exact h.items

/-- The limits of the common contract are within those of every compatible peer. -/
theorem commonCaps_ok [DebugTable] {plaintextSize : Option ℕ}
    (h : commonCaps peers plaintextSize = some (.ok common)) : Serves common.1 ∧
      ∀ p ∈ peers, ∀ caps, p.caps = .ok caps →
        caps.cryptoCompatibilityId = common.1.cryptoCompatibilityId → Within common.1 caps := by
  obtain ⟨⟨p,others⟩,hfirst,h⟩ := Option.map_eq_some_iff.mp h
  obtain ⟨caps,hcaps,h⟩ := bind_eq_ok h
  obtain ⟨c,hcontract,h⟩ := bind_eq_ok h
  obtain ⟨last,hfold,hlast⟩ := bind_eq_ok h
  obtain ⟨rfl,hserves⟩ := contract_ok (ok_of_mapError hcontract)
  obtain ⟨habsorbed,hothers⟩ := foldlM_absorb hserves hfold
  obtain ⟨hs,hwithin⟩ := settle_ok habsorbed.serves
  simp only at hlast
  split at hlast
  · cases hlast
  · cases hlast
    refine ⟨hs,fun q hq c hc hid => ?_⟩
    rcases mem_firstValidated hfirst hq with rfl | hq
    · cases (ok_of_mapError hcaps).symm.trans hc
      exact hwithin.trans habsorbed.within
    · exact hwithin.trans (hothers q hq c hc (hid.trans habsorbed.id))

end Contract
end EndpointSet

structure EndpointSet where
  peers : List EndpointSet.Peer
  plaintextSize : Option ℕ
  retrySafe : Bool
  maxAttempts : Option ℕ
  validationInterval : ℕ
  validator : Bool

namespace EndpointSet

open Checked Dispatch

structure Turn (ρ : Type) where
  endpoints : List Endpoint
  fits : Bool
  events : List (Event ρ)

section Batches

variable (s : EndpointSet) (deadline : Option ℕ)

/-- `call_endpoint` on a peer's answer: the peer's own check, then that of the common contract. -/
def checkWith {ρ : Type} (validate : ρ → CryptoCapabilities → Except CryptoError Unit)
    (common : CryptoCapabilities) (i : ℕ) (out : ρ) : Except CryptoError ρ := do
  let caps ← (s.peers[i]?.map (·.caps)).getD (.error deadlineError)
  validate out caps
  validate out common
  return out

def config {κ ρ : Type} (common : Common) (request : κ)
    (validate : ρ → CryptoCapabilities → Except CryptoError Unit) : Config κ ρ :=
  ⟨request,s.maxAttempts,s.validationInterval,s.validator,deadline,s.retrySafe && common.2,
    s.checkWith validate common.1⟩

def dispatch {κ ρ : Type} (cfg : Config κ ρ) (turn : Turn ρ) : Option (Except CryptoError ρ) × List κ :=
  let w := (start turn.endpoints turn.fits).run cfg turn.events
  (match w.phase with
    | .returned result => some result
    | _ => none,requests w.log)

/-- The inner loop of `encrypt_batch`: the items of the next chunk. -/
def chunkEnd (caps : CryptoCapabilities) : ℕ → ℕ → List PlaintextUnit → ℕ
  | count,bytes,item::items =>
    if count < caps.batch.maxItems ∧ item.data.length ≤ caps.batch.maxBytes-bytes then
      chunkEnd caps (count+1) (bytes+item.data.length) items+1
    else 0
  | _,_,[] => 0

def encryptChunks (caps : CryptoCapabilities) (items : List PlaintextUnit) : List (List PlaintextUnit) :=
  split (chunkEnd caps 0 0) items.length items

def encryptBatch [DebugTable] (turns : ℕ → Turn (List CiphertextUnit)) (items : List PlaintextUnit) :
    Option (Except CryptoError (List CiphertextUnit)) × List (List (List PlaintextUnit)) :=
  match commonCaps s.peers s.plaintextSize with
  | none => (none,[])
  | some (.error e) => (some (.error e.1),[])
  | some (.ok common) =>
    if items.any fun item => !acceptsPlaintextSize common.1 item.data.length ||
        item.data.length > common.1.batch.maxBytes || s.plaintextSize.any (item.data.length ≠ ·) then
      (some (.error (.NonRetryableRequest "plaintext unit exceeds the common endpoint contract")),[])
    else
      serveAll (fun k chunk =>
        dispatch (s.config deadline common chunk (validateEncryptResult chunk)) (turns k)) 0
        (encryptChunks common.1 items)

def logicalSize (caps : CryptoCapabilities) : Option ℕ :=
  s.plaintextSize.or caps.supportedPlaintextSizes.getLast?

def chunkSize (caps : CryptoCapabilities) (logicalSize : ℕ) : ℕ :=
  min (caps.batch.maxBytes/logicalSize) caps.batch.maxItems

def decryptChunks (caps : CryptoCapabilities) (logicalSize : ℕ) (items : List CiphertextUnit) :
    List (List CiphertextUnit) :=
  split (fun _ => chunkSize caps logicalSize) items.length items

def decryptBatch [DebugTable] (turns : ℕ → Turn (List PlaintextUnit)) (items : List CiphertextUnit) :
    Option (Except CryptoError (List PlaintextUnit)) × List (List (List CiphertextUnit)) :=
  match commonCaps s.peers s.plaintextSize with
  | none => (none,[])
  | some (.error e) => (some (.error e.1),[])
  | some (.ok common) =>
    if items.any fun item => item.data.isEmpty || item.data.length > common.1.maxCiphertextSize then
      (some (.error (.NonRetryableRequest "ciphertext unit exceeds the common endpoint contract")),[])
    else
      match s.logicalSize common.1 with
      | none => (some (.error (.NonRetryableRequest "endpoints have no common plaintext unit size")),[])
      | some size =>
        if chunkSize common.1 size = 0 then
          (some (.error (.NonRetryableRequest
            "plaintext unit exceeds the common endpoint batch byte limit")),[])
        else
          serveAll (fun k chunk => dispatch (s.config deadline common chunk fun out caps => do
              validateDecryptResult chunk out caps
              pin s.plaintextSize "selected plaintext unit" out) (turns k)) 0
            (decryptChunks common.1 size items)

end Batches

/-- The chunks are the items in order, each within the limits. -/
structure Partition {α : Type} (caps : CryptoCapabilities) (weight : α → ℕ) (chunks : List (List α))
    (items : List α) : Prop where
  flatten : chunks.flatten = items
  fits : ∀ chunk ∈ chunks, chunk ≠ [] ∧ chunk.length ≤ caps.batch.maxItems ∧
    (chunk.map weight).sum ≤ caps.batch.maxBytes

variable {s : EndpointSet} {deadline : Option ℕ}

/-- What a dispatch returns passed the check of the common contract, and it made a call with its
request and none with another. -/
theorem dispatch_ok {κ ρ : Type} {common : Common} {request : κ} {sent : List κ}
    {validate : ρ → CryptoCapabilities → Except CryptoError Unit} {turn : Turn ρ} {out : ρ}
    (h : dispatch (s.config deadline common request validate) turn = (some (.ok out),sent)) :
    validate out common.1 = .ok () ∧ sent ≠ [] ∧ ∀ q ∈ sent, q = request := by
  have hsound := run_sound (s.config deadline common request validate) turn.endpoints turn.fits turn.events
  have hstage := hsound.stage
  obtain ⟨hphase,rfl⟩ := Prod.mk.inj h
  split at hphase
  · rename_i result hreturned
    cases hphase
    rw [Stage,hreturned] at hstage
    obtain ⟨p,i,answer,hcall,hcheck⟩ := hstage
    obtain ⟨caps,-,h⟩ := bind_eq_ok hcheck
    obtain ⟨-,-,h⟩ := bind_eq_ok h
    obtain ⟨⟨⟩,hvalid,h⟩ := bind_eq_ok h
    cases h
    refine ⟨hvalid,List.ne_nil_of_mem (mem_requests.mpr ⟨p,i,hcall⟩),fun q hq => ?_⟩
    obtain ⟨p,i,hq⟩ := mem_requests.mp hq
    exact (hsound.sent p i q hq).2.2
  · cases hphase

variable {caps : CryptoCapabilities}

theorem chunkEnd_le {count bytes : ℕ} (items : List PlaintextUnit)
    (hcount : count ≤ caps.batch.maxItems) (hbytes : bytes ≤ caps.batch.maxBytes) :
    count+chunkEnd caps count bytes items ≤ caps.batch.maxItems ∧
    bytes+((items.take (chunkEnd caps count bytes items)).map (·.data.length)).sum ≤ caps.batch.maxBytes := by
  induction items generalizing count bytes with
  | nil => simpa [chunkEnd] using ⟨hcount,hbytes⟩
  | cons item items ih =>
    rw [chunkEnd]
    split
    · rename_i hfit
      obtain ⟨hc,hb⟩ := ih (Nat.add_one_le_iff.mpr hfit.1) (Nat.add_le_of_le_sub' hbytes hfit.2)
      simp only [List.take_succ_cons,List.map_cons,List.sum_cons]
      omega
    · simpa using ⟨hcount,hbytes⟩

theorem encryptChunks_partition (hserves : Serves caps)
    {items : List PlaintextUnit} (hitems : ∀ item ∈ items, item.data.length ≤ caps.batch.maxBytes) :
    Partition caps (·.data.length) (encryptChunks caps items) items := by
  obtain ⟨hflat,hall⟩ := split_spec (chunkEnd caps 0 0)
    (P := fun chunk => chunk.length ≤ caps.batch.maxItems ∧
      (chunk.map (·.data.length)).sum ≤ caps.batch.maxBytes) (fun items hne hle => by
      obtain ⟨hcount,hbytes⟩ := chunkEnd_le items hserves.items.le (Nat.zero_le caps.batch.maxBytes)
      refine ⟨?_,by rw [List.length_take]; omega,by omega⟩
      cases items with
      | nil => exact absurd rfl hne
      | cons item items =>
        rw [chunkEnd,if_pos ⟨hserves.items,by simpa using hle item (by simp)⟩]
        exact Nat.succ_pos _) le_rfl hitems
  exact ⟨hflat,hall⟩

theorem decryptChunks_partition {size : ℕ} (hsize : chunkSize caps size ≠ 0)
    (items : List CiphertextUnit) :
    Partition caps (fun _ => size) (decryptChunks caps size items) items := by
  have hbytes : chunkSize caps size*size ≤ caps.batch.maxBytes :=
    (Nat.mul_le_mul_right size (Nat.min_le_left _ _)).trans (Nat.div_mul_le_self _ _)
  obtain ⟨hflat,hall⟩ := split_spec (fun _ : List CiphertextUnit => chunkSize caps size)
    (Q := fun _ => True) (P := fun chunk => chunk.length ≤ caps.batch.maxItems ∧
      (chunk.map fun _ => size).sum ≤ caps.batch.maxBytes) (fun items _ _ => by
      have hlen := List.length_take_le (chunkSize caps size) items
      refine ⟨Nat.pos_of_ne_zero hsize,hlen.trans (Nat.min_le_right _ _),?_⟩
      simpa using (Nat.mul_le_mul_right size hlen).trans hbytes) (le_refl items.length) (by simp)
  exact ⟨hflat,hall⟩

section Served

variable [DebugTable] {s : EndpointSet} {deadline : Option ℕ}

theorem encryptBatch_ok {turns : ℕ → Turn (List CiphertextUnit)} {items : List PlaintextUnit}
    {out : List CiphertextUnit} {sent : List (List (List PlaintextUnit))}
    (h : s.encryptBatch deadline turns items = (some (.ok out),sent)) :
    ∃ common chunks, commonCaps s.peers s.plaintextSize = some (.ok common) ∧
      List.Forall₂ (fun item ct => Seals common.1 item ct ∧ ¬item.data <:+: ct.data) items out ∧
      Partition common.1 (·.data.length) chunks items ∧ Sends chunks sent := by
  rw [encryptBatch] at h
  split at h
  · cases h
  · cases h
  · rename_i common hcommon
    split at h
    · cases h
    · rename_i hany
      obtain ⟨hserves,-⟩ := commonCaps_ok hcommon
      have hitems : ∀ item ∈ items, acceptsPlaintextSize common.1 item.data.length = true ∧
          item.data.length ≤ common.1.batch.maxBytes := by
        intro item hitem
        have hnot := (List.any_eq_false.mp (Bool.eq_false_of_not_eq_true hany)) item hitem
        simp only [Bool.or_eq_true,not_or,Bool.not_eq_true',Bool.not_eq_false,decide_eq_true_eq,
          Nat.not_lt] at hnot
        exact hnot.1
      have hpart := encryptChunks_partition hserves fun item hitem => (hitems item hitem).2
      obtain ⟨hseals,hsends⟩ := serveAll_ok
        (fun k chunk out sent hok => (dispatch_ok hok).imp_left validateEncryptResult_ok.mp) h
      rw [hpart.flatten] at hseals
      have hne : ∀ item ∈ items, item.data ≠ [] := by
        intro item hitem hnil
        have hsize := (hitems item hitem).1
        simp only [acceptsPlaintextSize,hnil,List.length_nil,Bool.and_eq_true,List.contains_iff_mem] at hsize
        exact hserves.sizes hsize.2
      exact ⟨common,_,hcommon,((List.forall₂_and_left _ _).mpr ⟨hne,hseals⟩).imp
        fun item ct hs => ⟨hs.2,hs.2.hidden hs.1⟩,hpart,hsends⟩

theorem decryptBatch_ok {turns : ℕ → Turn (List PlaintextUnit)} {items : List CiphertextUnit}
    {out : List PlaintextUnit} {sent : List (List (List CiphertextUnit))}
    (h : s.decryptBatch deadline turns items = (some (.ok out),sent)) :
    ∃ common size chunks, commonCaps s.peers s.plaintextSize = some (.ok common) ∧
      s.logicalSize common.1 = some size ∧
      List.Forall₂ (fun item pt => Opens common.1 item pt ∧
        ∀ n ∈ s.plaintextSize, pt.data.length = n) items out ∧
      Partition common.1 (fun _ => size) chunks items ∧ Sends chunks sent := by
  rw [decryptBatch] at h
  split at h
  · cases h
  · cases h
  · rename_i common hcommon
    split at h
    · cases h
    · split at h
      · cases h
      · rename_i size hlogical
        split at h
        · cases h
        · rename_i hchunk
          have hpart := decryptChunks_partition hchunk items
          obtain ⟨hopens,hsends⟩ := serveAll_ok (R := fun item pt => Opens common.1 item pt ∧
            ∀ n ∈ s.plaintextSize, pt.data.length = n) (fun k chunk out sent hok => by
            obtain ⟨hchecked,hcalls⟩ := dispatch_ok hok
            obtain ⟨⟨⟩,hvalid,hpin⟩ := bind_eq_ok hchecked
            have hsize : ∀ pt ∈ out, ∀ n ∈ s.plaintextSize, pt.data.length = n :=
              fun pt hpt n hn => pin_ok.mp hpin n hn pt hpt
            exact ⟨((List.forall₂_and_left _ _).mpr
              ⟨hsize,(validateDecryptResult_ok.mp hvalid).flip⟩).flip.imp fun _ _ hs => hs.symm,hcalls⟩) h
          rw [hpart.flatten] at hopens
          exact ⟨common,size,_,hcommon,hlogical,hopens,hpart,hsends⟩

end Served

/-- What an endpoint set returns and sends, whatever its peers answer: the output is checked item by
item, and the calls carry, chunk after chunk, the items in order, within limits that every compatible
peer admits. -/
theorem endpoint_set_output_checked [DebugTable] (s : EndpointSet) (deadline : Option ℕ) :
    (∀ turns items out sent, s.encryptBatch deadline turns items = (some (.ok out),sent) →
      ∃ common chunks, commonCaps s.peers s.plaintextSize = some (.ok common) ∧
        List.Forall₂ (fun item ct => Seals common.1 item ct ∧ ¬item.data <:+: ct.data) items out ∧
        Partition common.1 (·.data.length) chunks items ∧ Sends chunks sent) ∧
    (∀ turns items out sent, s.decryptBatch deadline turns items = (some (.ok out),sent) →
      ∃ common size chunks, commonCaps s.peers s.plaintextSize = some (.ok common) ∧
        s.logicalSize common.1 = some size ∧
        List.Forall₂ (fun item pt => Opens common.1 item pt ∧
          ∀ n ∈ s.plaintextSize, pt.data.length = n) items out ∧
        Partition common.1 (fun _ => size) chunks items ∧ Sends chunks sent) ∧
    ∀ common, commonCaps s.peers s.plaintextSize = some (.ok common) → ∀ p ∈ s.peers, ∀ caps,
      p.caps = .ok caps → caps.cryptoCompatibilityId = common.1.cryptoCompatibilityId →
      common.1.batch.maxItems ≤ caps.batch.maxItems ∧ common.1.batch.maxBytes ≤ caps.batch.maxBytes := by
  exact ⟨fun _ _ _ _ => encryptBatch_ok,fun _ _ _ _ => decryptBatch_ok,fun _ h => (commonCaps_ok h).2⟩

section Sample

@[reducible] def plainTable : DebugTable := ⟨fun _ => false⟩

attribute [local instance] plainTable

def samplePeer : Peer := ⟨"a",.ok ⟨"c",[1],4,⟨true,2,4⟩⟩,true,true⟩

def sampleSet : EndpointSet := ⟨[samplePeer],some 1,true,some 2,0,false⟩

def sampleView : View :=
  ⟨0,fun _ => true,fun _ => some 0,fun _ => 0,fun _ => true,fun _ => true,fun _ => true⟩

/-- The first chunk is sent twice. -/
def sampleTurn {ρ : Type} (first second : ρ) : ℕ → Turn ρ
  | 0 => ⟨[{ validated := true }],true,[.passStart sampleView,.acquire sampleView,
      .reply sampleView (.error (.Retryable "busy")),.acquire sampleView,.passStart sampleView,
      .acquire sampleView,.reply sampleView (.ok first)]⟩
  | _ => ⟨[{ validated := true }],true,
      [.passStart sampleView,.acquire sampleView,.reply sampleView (.ok second)]⟩

def samplePlain : List PlaintextUnit := [⟨0,[7]⟩,⟨1,[7]⟩,⟨2,[8]⟩]

def sampleCipher : List CiphertextUnit := [⟨0,[9,9]⟩,⟨1,[9,9]⟩,⟨2,[9,9]⟩]

def sampleCalls {α : Type} (items : List α) : List (List (List α)) :=
  [[items.take 2,items.take 2],[items.drop 2]]

/-- Three items go out in two chunks. -/
theorem endpoint_set_output_checked_chunks :
    (∃ common chunks, commonCaps sampleSet.peers sampleSet.plaintextSize = some (.ok common) ∧
      Partition common.1 (·.data.length) chunks samplePlain ∧
      Sends chunks (sampleCalls samplePlain)) ∧
    ∃ common size chunks, commonCaps sampleSet.peers sampleSet.plaintextSize = some (.ok common) ∧
      Partition common.1 (fun _ => size) chunks sampleCipher ∧
      Sends chunks (sampleCalls sampleCipher) := by
  obtain ⟨hencrypt,hdecrypt,-⟩ := endpoint_set_output_checked sampleSet none
  obtain ⟨common,chunks,h,-,hpart,hsends⟩ := hencrypt
    (sampleTurn (sampleCipher.take 2) (sampleCipher.drop 2)) samplePlain sampleCipher
    (sampleCalls samplePlain) (by decide +kernel)
  obtain ⟨common',size,chunks',h',-,-,hpart',hsends'⟩ := hdecrypt
    (sampleTurn (samplePlain.take 2) (samplePlain.drop 2)) sampleCipher samplePlain
    (sampleCalls sampleCipher) (by decide +kernel)
  exact ⟨⟨common,chunks,h,hpart,hsends⟩,common',size,chunks',h',hpart',hsends'⟩

end Sample

end EndpointSet
end Maki
