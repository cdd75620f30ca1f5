import Mathlib
import Maki.Layout

/-! The file names of segments and shards as texts (`maki_format::layout`). Elsewhere a name is the
`Path` with its index; here each index has one spelling, whatever else the radix parser accepts. -/
namespace Maki.Layout

def hexDigitValue (c : Char) : Option ℕ :=
  if '0' ≤ c ∧ c ≤ '9' then some (c.toNat-48)
  else if 'a' ≤ c ∧ c ≤ 'f' then some (c.toNat-87)
  else if 'A' ≤ c ∧ c ≤ 'F' then some (c.toNat-55)
  else none

/-- One more digit, unless the number leaves `u64`. -/
def pushDigit (n : ℕ) (c : Char) : Option ℕ := do
  let digit ← hexDigitValue c
  if n*16+digit < 2^64 then some (n*16+digit) else none

/-- `u64::from_str_radix(_, 16)`, which takes a plus sign, both cases and any number of zeros. -/
def fromStrRadix : List Char → Option ℕ
  | [] => none
  | ['+'] => none
  | '+'::digits => digits.foldlM pushDigit 0
  | digits => digits.foldlM pushDigit 0

def journalSegment (index : ℕ) : String := "journal/" ++ segmentName index
def shardData (shard : ℕ) : String := "data/" ++ shardDataName shard

/-- The index the digits spell, if `name` is what `layout` makes of it. -/
def spelled (layout : ℕ → String) (name : String) (hex : List Char) : Option ℕ := do
  let index ← fromStrRadix hex
  if layout index = name then some index else none

def parseJournalSegment (name : String) : Option ℕ := do
  let hex ← name.toList.dropPrefix? "seg-".toList
  spelled journalSegment ("journal/" ++ name) hex

def parseShardData (name : String) : Option ℕ := do
  let rest ← name.toList.dropPrefix? "shard-".toList
  let hex ← rest.dropSuffix? ".dat".toList
  spelled shardData ("data/" ++ name) hex

theorem spelled_eq_some {layout : ℕ → String} {name : String} {hex : List Char} {i : ℕ} :
    spelled layout name hex = some i ↔ fromStrRadix hex = some i ∧ layout i = name := by
  simp only [spelled,Option.bind_eq_bind,Option.bind_eq_some_iff,Option.ite_none_right_eq_some,Option.some.injEq]
  constructor
  · rintro ⟨_,hindex,hname,rfl⟩
    exact ⟨hindex,hname⟩
  · rintro ⟨hindex,hname⟩
    exact ⟨i,hindex,hname,rfl⟩

theorem foldlM_toDigits {n : ℕ} (h : n < 2^64) : (Nat.toDigits 16 n).foldlM pushDigit 0 = some n := by
  have hdigit : ∀ d < 16, hexDigitValue d.digitChar = some d := by decide
  induction n using Nat.strong_induction_on with
  | _ n ih =>
    by_cases hn : n < 16
    · simpa [Nat.toDigits_of_lt_base hn,pushDigit,hdigit n hn] using h
    · have hlow : hexDigitValue (n % 16).digitChar = some (n % 16) := hdigit _ (Nat.mod_lt n (by decide))
      have hsum : n/16*16+n % 16 = n := Nat.div_add_mod' n 16
      rw [Nat.toDigits_of_base_le (by decide) (Nat.not_lt.mp hn),List.foldlM_append,
        ih (n/16) (by omega) (by omega)]
      simpa [pushDigit,hlow,hsum] using h

/-- Leading zeros add nothing, and no digit is a sign. -/
theorem fromStrRadix_padded {n : ℕ} (h : n < 2^64) (width : ℕ) :
    fromStrRadix (paddedHex width n).toList = some n := by
  have hzeros : ∀ k, (List.replicate k '0').foldlM pushDigit 0 = some 0 := by
    intro k
    induction k with
    | zero => rfl
    | succ k ih => simpa [List.replicate_succ,pushDigit,show hexDigitValue '0' = some 0 by decide] using ih
  have hfold : (paddedHex width n).toList.foldlM pushDigit 0 = some n := by
    simp [paddedHex,hexText,hzeros,foldlM_toDigits h]
  cases hl : (paddedHex width n).toList with
  | nil =>
    have hnil : Nat.toDigits 16 n = [] := by simp_all [paddedHex,hexText]
    exact absurd hnil Nat.toDigits_ne_nil
  | cons c cs =>
    have hc : c ≠ '+' := by
      rintro rfl
      have hplus : pushDigit 0 '+' = none := by decide
      simp [hl,hplus] at hfold
    rw [fromStrRadix,← hl,hfold]
    · exact List.cons_ne_nil c cs
    · exact fun h => hc (List.cons.inj h).1
    · exact fun _ h => hc (List.cons.inj h).1

theorem append_cancel {a b c : String} (h : a ++ b = a ++ c) : b = c := by
  have hl := congrArg String.toList h
  simp only [String.toList_append,List.append_cancel_left_eq] at hl
  exact String.toList_injective hl

/-- Every index is read back from its name, and a text that is read is the name. -/
theorem names_have_one_spelling :
    (∀ i < 2^64, parseJournalSegment (segmentName i) = some i ∧ parseShardData (shardDataName i) = some i) ∧
    (∀ s i, parseJournalSegment s = some i → s = segmentName i) ∧
    ∀ s i, parseShardData s = some i → s = shardDataName i := by
  simp only [parseJournalSegment,parseShardData,Option.bind_eq_bind,Option.bind_eq_some_iff,spelled_eq_some,
    List.dropPrefix?_eq_some_iff,List.dropSuffix?_eq_some_iff]
  refine ⟨fun i hi => ⟨?_,?_⟩,?_,?_⟩
  · exact ⟨_,⟨_,by rw [segmentName,String.toList_append],beq_self_eq_true _⟩,fromStrRadix_padded hi 16,rfl⟩
  · exact ⟨_,⟨_,by rw [shardDataName,String.append_assoc,String.toList_append],beq_self_eq_true _⟩,_,
      ⟨_,by rw [String.toList_append],beq_self_eq_true _⟩,fromStrRadix_padded hi 8,rfl⟩
  · rintro s i ⟨_,_,_,hname⟩
    exact (append_cancel hname).symm
  · rintro s i ⟨_,_,_,_,_,hname⟩
    exact (append_cancel hname).symm

end Maki.Layout
