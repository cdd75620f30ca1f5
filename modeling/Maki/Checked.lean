import Maki.BatchLimits
import Maki.Border

/-! The checks on a provider's answers (`maki_crypto::checked`), with the search for an echoed
plaintext: a matcher with a failure table. An index out of range and a loop that never ends are
`none`. -/
namespace Maki
namespace Checked

section Search

variable (needle : Bytes) (equal : UInt8 → UInt8 → Bool)

/-- The inner `loop` of both scans: from `matched` bytes of the needle, the bytes matched after
`byte`. -/
def advance (table : List ℕ) (byte : UInt8) : ℕ → ℕ → Option ℕ
  | 0,_ => none
  | fuel+1,matched =>
    needle[matched]?.bind fun expected =>
      if equal byte expected then some (matched+1)
      else if matched = 0 then some 0
      else table[matched-1]?.bind (advance table byte fuel)

/-- One turn of the preprocessing loop: the entry of `index`. -/
def failureStep (s : List ℕ × ℕ) (index : ℕ) : Option (List ℕ × ℕ) :=
  needle[index]?.bind fun byte =>
    (advance needle equal s.1 byte (s.2+1) s.2).bind fun matched =>
      if index < s.1.length then some (s.1.set index matched,matched) else none

def failureTable : Option (List ℕ) :=
  ((List.range' 1 (needle.length-1)).foldlM (failureStep needle equal)
    (List.replicate needle.length 0,0)).map Prod.fst

def scan (table : List ℕ) : ℕ → Bytes → Option Bool
  | _,[] => some false
  | matched,byte::rest =>
    (advance needle equal table byte (matched+1) matched).bind fun matched =>
      if matched = needle.length then some true else scan table matched rest

end Search

def containsPlaintext (haystack needle : Bytes) (equal : UInt8 → UInt8 → Bool) : Option Bool :=
  if needle.isEmpty then some true
  else if haystack.length < needle.length then some false
  else (failureTable needle equal).bind fun table => scan needle equal table 0 haystack

section Exact

open Border

variable {needle : Bytes} {table : List ℕ}

/-- The entries below `n` are the longest borders of the needle's prefixes. -/
structure Table (needle : Bytes) (n : ℕ) (table : List ℕ) : Prop where
  length : table.length = needle.length
  entry : ∀ i < n, ∃ k, table[i]? = some k ∧ Longest needle (needle.take (i+1)).tail k

theorem advance_longest {s : Bytes} {byte : UInt8} {n fuel matched : ℕ} (ht : Table needle n table)
    (h : Candidate needle s byte matched) (hn : matched ≤ n) (hfuel : matched < fuel) :
    ∃ k, advance needle (· == ·) table byte fuel matched = some k ∧
      Longest needle (s ++ [byte]) k := by
  -- by induction on the fuel: a fall back matches fewer bytes
  induction fuel generalizing matched with
  | zero => omega
  | succ fuel ih =>
    obtain ⟨expected,hget⟩ : ∃ x, needle[matched]? = some x := ⟨_,List.getElem?_eq_getElem h.lt⟩
    simp only [advance,hget,Option.bind_some]
    by_cases hb : byte = expected
    · exact ⟨matched+1,if_pos (beq_iff_eq.mpr hb),h.extend (hb ▸ hget)⟩
    have hc : needle[matched]? ≠ some byte := by
      rw [hget]
      exact fun he => hb (Option.some.inj he).symm
    rw [if_neg (by simpa using hb)]
    by_cases hz : matched = 0
    · subst hz
      exact ⟨0,if_pos rfl,h.stop hc⟩
    rw [if_neg hz]
    obtain ⟨b,hentry,hborder⟩ := ht.entry (matched-1) (by omega)
    rw [Nat.sub_add_cancel (Nat.pos_of_ne_zero hz)] at hborder
    obtain ⟨hnext,hlt⟩ := h.fallBack hc (Nat.pos_of_ne_zero hz) hborder
    rw [hentry,Option.bind_some]
    exact ih hnext (by omega) (by omega)

def Prepared (needle : Bytes) (index : ℕ) (s : List ℕ × ℕ) : Prop :=
  Table needle index s.1 ∧ Longest needle (needle.take index).tail s.2

theorem prepared_one (hne : needle ≠ []) : Prepared needle 1 (List.replicate needle.length 0,0) := by
  have hpos := List.length_pos_of_ne_nil hne
  have htail : (needle.take 1).tail = [] := by
    cases needle <;> rfl
  refine ⟨⟨List.length_replicate,fun i hi => ?_⟩,by rw [htail]; exact Longest.nil⟩
  obtain rfl : i = 0 := by omega
  exact ⟨0,by simp [hpos],by rw [htail]; exact Longest.nil⟩

theorem failureStep_prepared {s : List ℕ × ℕ} {index : ℕ} (h : Prepared needle index s)
    (hpos : 0 < index) (hlt : index < needle.length) :
    ∃ t, failureStep needle (· == ·) s index = some t ∧ Prepared needle (index+1) t := by
  obtain ⟨htable,hlong⟩ := h
  have hle : s.2 ≤ index-1 := by
    have := length_le_of_take_suffix hlong.le hlong.ends
    rwa [List.length_tail,List.length_take,Nat.min_eq_left hlt.le] at this
  obtain ⟨k,hk,hlong'⟩ := advance_longest htable
    (hlong.candidate (c := needle[index]) (by omega)) (by omega) (Nat.lt_succ_self s.2)
  have htail : (needle.take index).tail ++ [needle[index]] = (needle.take (index+1)).tail := by
    rw [List.take_succ_eq_append_getElem hlt,List.tail_append_of_ne_nil]
    simp only [ne_eq,List.take_eq_nil_iff]
    rintro (h0 | hnil)
    · omega
    · simp [hnil] at hlt
  rw [htail] at hlong'
  have hin : index < s.1.length := htable.length.symm ▸ hlt
  refine ⟨(s.1.set index k,k),?_,⟨⟨?_,fun i hi => ?_⟩,hlong'⟩⟩
  · simp only [failureStep,List.getElem?_eq_getElem hlt,Option.bind_some,hk,if_pos hin]
  · rw [List.length_set,htable.length]
  · by_cases he : i = index
    · subst he
      exact ⟨k,by rw [List.getElem?_set_self hin],hlong'⟩
    · obtain ⟨b,hb,hborder⟩ := htable.entry i (by omega)
      exact ⟨b,by rw [List.getElem?_set_ne (Ne.symm he),hb],hborder⟩

theorem failureSteps_prepared {s : List ℕ × ℕ} {index : ℕ} (n : ℕ) (h : Prepared needle index s)
    (hpos : 0 < index) (hle : index+n ≤ needle.length) :
    ∃ t, (List.range' index n).foldlM (failureStep needle (· == ·)) s = some t ∧
      Prepared needle (index+n) t := by
  induction n generalizing index s with
  | zero => exact ⟨s,rfl,h⟩
  | succ n ih =>
    obtain ⟨t,ht,hprep⟩ := failureStep_prepared h hpos (by omega)
    obtain ⟨u,hu,hend⟩ := ih hprep (by omega) (by omega)
    refine ⟨u,?_,by rwa [Nat.add_right_comm] at hend⟩
    rw [List.range'_succ,List.foldlM_cons,ht]
    exact hu

theorem failureTable_complete (hne : needle ≠ []) :
    ∃ table, failureTable needle (· == ·) = some table ∧ Table needle needle.length table := by
  have hpos := List.length_pos_of_ne_nil hne
  obtain ⟨t,ht,hprep⟩ := failureSteps_prepared (needle.length-1) (prepared_one hne) one_pos (by omega)
  refine ⟨t.1,by rw [failureTable,ht]; rfl,?_⟩
  have he : 1+(needle.length-1) = needle.length := by omega
  exact he ▸ hprep.1

theorem scan_exact {s : Bytes} {matched : ℕ} (rest : Bytes) (ht : Table needle needle.length table)
    (h : Longest needle s matched) (hs : ¬ needle <:+: s) :
    scan needle (· == ·) table matched rest = some (decide (needle <:+: s ++ rest)) := by
  induction rest generalizing s matched with
  | nil => simp [scan,hs]
  | cons byte rest ih =>
    have hlt : matched < needle.length := by
      apply lt_of_le_of_ne h.le
      rintro rfl
      exact hs (by simpa using h.ends.isInfix)
    obtain ⟨k,hk,hlong⟩ := advance_longest ht (h.candidate (c := byte) hlt) hlt.le
      (Nat.lt_succ_self matched)
    have hconcat := hlong.infix_concat hs
    rw [List.append_cons]
    simp only [scan,hk,Option.bind_some]
    split
    · rename_i hall
      have hin := (hconcat.mpr hall).trans (List.prefix_append _ rest).isInfix
      rw [decide_eq_true hin]
    · rename_i hpart
      exact ih hlong (mt hconcat.mp hpart)

/-- The search finds exactly the needles that occur in the haystack, and every index it uses is in
range. -/
theorem containsPlaintext_exact (haystack needle : Bytes) :
    containsPlaintext haystack needle (· == ·) = some (decide (needle <:+: haystack)) := by
  unfold containsPlaintext
  split
  · rename_i hnil
    obtain rfl := List.isEmpty_iff.mp hnil
    simp
  rename_i hnil
  have hne : needle ≠ [] := fun he => hnil (List.isEmpty_iff.mpr he)
  split
  · rename_i hshort
    have hno : ¬ needle <:+: haystack := fun h => by
      have := h.length_le
      omega
    simp [hno]
  · obtain ⟨table,htable,hcomplete⟩ := failureTable_complete hne
    rw [htable,Option.bind_some]
    exact scan_exact haystack hcomplete Longest.nil (by simpa using hne)

end Exact

section Answers

variable {α β : Type}

def validateEach (check : ℕ → α → β → Except CryptoError Unit) :
    ℕ → List α → List β → Except CryptoError Unit
  | i,item::items,result::out => do
    check i item result
    validateEach check (i+1) items out
  | _,_,_ => .ok ()

theorem validateEach_ok {check : ℕ → α → β → Except CryptoError Unit} {P : α → β → Prop}
    (hcheck : ∀ i a b, check i a b = .ok () ↔ P a b) {i : ℕ} {items : List α} {out : List β}
    (hlen : out.length = items.length) :
    validateEach check i items out = .ok () ↔ List.Forall₂ P items out := by
  induction items generalizing i out with
  | nil =>
    obtain rfl := List.eq_nil_of_length_eq_zero hlen
    simp [validateEach]
  | cons a items ih =>
    obtain ⟨b,out,rfl⟩ := List.exists_cons_of_length_eq_add_one hlen
    rw [List.forall₂_cons,← hcheck i,← ih (i := i+1) (by simpa using hlen),validateEach]
    cases check i a b with
    | ok u => simp [bind,Except.bind]
    | error e => simp [bind,Except.bind]

def countMessage (operation : String) (results items : ℕ) : String :=
  operation ++ " returned " ++ toString results ++ " results for " ++ toString items ++ " items"

def indexMessage (operation : String) (i result item : ℕ) : String :=
  operation ++ " result " ++ toString i ++ " has unit_index " ++ toString result ++
    " but item has " ++ toString item

/-- The checks on one ciphertext. The search always ends (`containsPlaintext_exact`). -/
def checkCiphertext (caps : CryptoCapabilities) (i : ℕ) (item : PlaintextUnit) (ct : CiphertextUnit) :
    Except CryptoError Unit :=
  if ct.unitIndex ≠ item.unitIndex then
    .error (.Contract (indexMessage "encrypt" i ct.unitIndex item.unitIndex))
  else if ct.data = [] then .error (.Contract ("encrypt result " ++ toString i ++ " is empty"))
  else if ct.data.length > caps.maxCiphertextSize then
    .error (.Contract ("encrypt result " ++ toString i ++ " is " ++ toString ct.data.length ++
      " bytes, exceeding max_ciphertext_size " ++ toString caps.maxCiphertextSize))
  else if item.data ≠ [] ∧ containsPlaintext ct.data item.data (· == ·) = some true then
    .error (.Contract ("encrypt result " ++ toString i ++
      " carries its plaintext: the provider is not encrypting"))
  else .ok ()

def validateEncryptResult (items : List PlaintextUnit) (out : List CiphertextUnit)
    (caps : CryptoCapabilities) : Except CryptoError Unit :=
  if out.length ≠ items.length then
    .error (.Contract (countMessage "encrypt" out.length items.length))
  else validateEach (checkCiphertext caps) 0 items out

def acceptsPlaintextSize (caps : CryptoCapabilities) (plaintextLen : ℕ) : Bool :=
  plaintextLen ≤ u32Max && caps.supportedPlaintextSizes.contains plaintextLen

def checkPlaintext (caps : CryptoCapabilities) (i : ℕ) (item : CiphertextUnit) (pt : PlaintextUnit) :
    Except CryptoError Unit :=
  if pt.unitIndex ≠ item.unitIndex then
    .error (.Contract (indexMessage "decrypt" i pt.unitIndex item.unitIndex))
  else if acceptsPlaintextSize caps pt.data.length = false then
    .error (.Contract ("decrypt result " ++ toString i ++ " has unsupported plaintext size " ++
      toString pt.data.length))
  else .ok ()

def validateDecryptResult (items : List CiphertextUnit) (out : List PlaintextUnit)
    (caps : CryptoCapabilities) : Except CryptoError Unit :=
  if out.length ≠ items.length then
    .error (.Contract (countMessage "decrypt" out.length items.length))
  else validateEach (checkPlaintext caps) 0 items out

/-- A ciphertext a provider may answer with. -/
structure Seals (caps : CryptoCapabilities) (item : PlaintextUnit) (ct : CiphertextUnit) : Prop where
  unit : ct.unitIndex = item.unitIndex
  nonempty : ct.data ≠ []
  bounded : ct.data.length ≤ caps.maxCiphertextSize
  hidden : item.data ≠ [] → ¬ item.data <:+: ct.data

structure Opens (caps : CryptoCapabilities) (item : CiphertextUnit) (pt : PlaintextUnit) : Prop where
  unit : pt.unitIndex = item.unitIndex
  size : acceptsPlaintextSize caps pt.data.length = true

variable {caps : CryptoCapabilities}

theorem checkCiphertext_ok (i : ℕ) (item : PlaintextUnit) (ct : CiphertextUnit) :
    checkCiphertext caps i item ct = .ok () ↔ Seals caps item ct := by
  rw [checkCiphertext,containsPlaintext_exact]
  constructor
  · intro h
    split_ifs at h with hu hn hb hc
    refine ⟨not_not.mp hu,hn,Nat.not_lt.mp hb,fun hne hin => hc ⟨hne,by simpa using hin⟩⟩
  · rintro ⟨hu,hn,hb,hc⟩
    rw [if_neg (not_not.mpr hu),if_neg hn,if_neg (Nat.not_lt.mpr hb),if_neg]
    rintro ⟨hne,hin⟩
    exact hc hne (by simpa using hin)

theorem checkPlaintext_ok (i : ℕ) (item : CiphertextUnit) (pt : PlaintextUnit) :
    checkPlaintext caps i item pt = .ok () ↔ Opens caps item pt := by
  rw [checkPlaintext]
  constructor
  · intro h
    split_ifs at h with hu hs
    exact ⟨not_not.mp hu,by simpa using hs⟩
  · rintro ⟨hu,hs⟩
    rw [if_neg (not_not.mpr hu),if_neg (by simp [hs])]

theorem validateEncryptResult_ok {items : List PlaintextUnit} {out : List CiphertextUnit} :
    validateEncryptResult items out caps = .ok () ↔ List.Forall₂ (Seals caps) items out := by
  rw [validateEncryptResult]
  split
  · rename_i hne
    simp only [reduceCtorEq,false_iff]
    exact fun h => hne h.length_eq.symm
  · rename_i heq
    exact validateEach_ok checkCiphertext_ok (not_not.mp heq)

theorem validateDecryptResult_ok {items : List CiphertextUnit} {out : List PlaintextUnit} :
    validateDecryptResult items out caps = .ok () ↔ List.Forall₂ (Opens caps) items out := by
  rw [validateDecryptResult]
  split
  · rename_i hne
    simp only [reduceCtorEq,false_iff]
    exact fun h => hne h.length_eq.symm
  · rename_i heq
    exact validateEach_ok checkPlaintext_ok (not_not.mp heq)

end Answers

/-- A provider behind the network: its capabilities, and what its calls return. -/
structure Provider where
  caps : CryptoCapabilities
  encryptBatch : CryptoContext → List PlaintextUnit → Except CryptoError (List CiphertextUnit)
  decryptBatch : CryptoContext → List CiphertextUnit → Except CryptoError (List PlaintextUnit)

def encryptBatch (p : Provider) (context : CryptoContext) (items : List PlaintextUnit) :
    Except CryptoError (List CiphertextUnit) := do
  let out ← p.encryptBatch context items
  validateEncryptResult items out p.caps
  return out

def pin (unitSize : Option ℕ) (volume : String) (out : List PlaintextUnit) : Except CryptoError Unit :=
  match unitSize with
  | none => .ok ()
  | some size =>
    match out.find? (·.data.length ≠ size) with
    | none => .ok ()
    | some pt => .error (.Contract ("decrypt of unit " ++ toString pt.unitIndex ++ " returned " ++
        toString pt.data.length ++ " bytes, " ++ volume ++ " is " ++ toString size))

def decryptBatch (p : Provider) (unitSize : Option ℕ) (context : CryptoContext)
    (items : List CiphertextUnit) : Except CryptoError (List PlaintextUnit) := do
  let out ← p.decryptBatch context items
  validateDecryptResult items out p.caps
  pin unitSize "volume unit size" out
  return out

theorem pin_ok {unitSize : Option ℕ} {volume : String} {out : List PlaintextUnit} :
    pin unitSize volume out = .ok () ↔ ∀ size ∈ unitSize, ∀ pt ∈ out, pt.data.length = size := by
  cases unitSize with
  | none => simp [pin]
  | some size =>
    have hnone : out.find? (·.data.length ≠ size) = none ↔ ∀ pt ∈ out, pt.data.length = size := by simp
    simp only [pin,Option.mem_some_iff,forall_eq',← hnone]
    cases out.find? (·.data.length ≠ size) <;> simp

end Checked
end Maki
