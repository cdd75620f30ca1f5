import Mathlib

/-! Prefixes of a word that end a text. A matcher reads the text letter by letter and keeps the
length of the longest one; when it fails to extend a match, it falls back to the longest prefix that
ends the match itself. -/
namespace Maki
namespace Border

variable {α : Type*} {w s : List α} {c : α} {b j k : ℕ}

/-- The longest prefix of `w` that ends `s` has length `k`. -/
structure Longest (w s : List α) (k : ℕ) : Prop where
  le : k ≤ w.length
  ends : w.take k <:+ s
  max : ∀ j ≤ w.length, w.take j <:+ s → j ≤ k

/-- No prefix that ends `s` and goes on with the letter `c` is longer than `k`. -/
structure Candidate (w s : List α) (c : α) (k : ℕ) : Prop where
  lt : k < w.length
  ends : w.take k <:+ s
  max : ∀ j, w[j]? = some c → w.take j <:+ s → j ≤ k

theorem length_le_of_take_suffix (hj : j ≤ w.length) (h : w.take j <:+ s) : j ≤ s.length := by
  have hl := h.length_le
  rwa [List.length_take,Nat.min_eq_left hj] at hl

theorem take_succ_suffix_concat (hj : j < w.length) :
    w.take (j+1) <:+ s ++ [c] ↔ w.take j <:+ s ∧ w[j]? = some c := by
  rw [List.take_succ_eq_append_getElem hj,List.getElem?_eq_getElem hj,Option.some.injEq]
  constructor
  · rintro ⟨t,ht⟩
    rw [← List.append_assoc] at ht
    obtain ⟨hs,hc⟩ := List.append_inj' ht rfl
    exact ⟨⟨t,hs⟩,List.singleton_inj.mp hc⟩
  · rintro ⟨⟨t,rfl⟩,rfl⟩
    exact ⟨t,by rw [List.append_assoc]⟩

theorem Longest.nil : Longest w [] 0 where
  le := Nat.zero_le _
  ends := List.nil_suffix
  max _ hj h := length_le_of_take_suffix hj h

theorem Longest.candidate (h : Longest w s k) (hk : k < w.length) : Candidate w s c k where
  lt := hk
  ends := h.ends
  max j hc hj := h.max j (List.getElem?_eq_some_iff.mp hc).1.le hj

namespace Candidate

theorem extend (h : Candidate w s c k) (hc : w[k]? = some c) : Longest w (s ++ [c]) (k+1) where
  le := h.lt
  ends := (take_succ_suffix_concat h.lt).mpr ⟨h.ends,hc⟩
  max j hj hs := by
    cases j with
    | zero => exact Nat.zero_le _
    | succ j =>
      obtain ⟨hs,hc⟩ := (take_succ_suffix_concat hj).mp hs
      exact Nat.succ_le_succ (h.max j hc hs)

theorem stop (h : Candidate w s c 0) (hc : w[0]? ≠ some c) : Longest w (s ++ [c]) 0 where
  le := Nat.zero_le _
  ends := List.nil_suffix
  max j hj hs := by
    cases j with
    | zero => exact le_rfl
    | succ j =>
      obtain ⟨hs,hj⟩ := (take_succ_suffix_concat hj).mp hs
      have h0 := Nat.le_zero.mp (h.max j hj hs)
      exact absurd (h0 ▸ hj) hc

/-- The longest border of the match is the next candidate. -/
theorem fallBack (h : Candidate w s c k) (hc : w[k]? ≠ some c) (hk : 0 < k)
    (hb : Longest w (w.take k).tail b) : Candidate w s c b ∧ b < k := by
  have hlen : (w.take k).tail.length = k-1 := by
    rw [List.length_tail,List.length_take,Nat.min_eq_left h.lt.le]
  have hlt : b < k := by
    have := length_le_of_take_suffix hb.le hb.ends
    omega
  refine ⟨⟨hlt.trans h.lt,(hb.ends.trans (List.tail_suffix _)).trans h.ends,?_⟩,hlt⟩
  intro j hj hs
  have hjw := (List.getElem?_eq_some_iff.mp hj).1
  have hne : j ≠ k := fun he => hc (he ▸ hj)
  have hle := h.max j hj hs
  apply hb.max j hjw.le
  -- both are suffixes of `s`, and the shorter one misses the first letter of the longer
  apply List.suffix_of_suffix_length_le hs ((List.tail_suffix _).trans h.ends)
  rw [List.length_take,hlen]
  omega

end Candidate

/-- A text that does not contain the word yet contains it after a letter exactly if all of the word
is matched. -/
theorem Longest.infix_concat (h : Longest w (s ++ [c]) k) (hs : ¬ w <:+: s) :
    w <:+: s ++ [c] ↔ k = w.length := by
  rw [List.infix_concat_iff]
  constructor
  · rintro (hw | hw)
    · exact le_antisymm h.le (h.max _ le_rfl (by rwa [List.take_length]))
    · exact absurd hw hs
  · rintro rfl
    have he := h.ends
    rw [List.take_length] at he
    exact .inl he

end Border
end Maki
