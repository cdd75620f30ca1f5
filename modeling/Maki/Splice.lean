import Mathlib

/-! Overwriting part of a finite sequence. A write past the end first extends the
sequence with zeros, a resize truncates or extends it; the lemmas say what every
position holds afterwards, which positions an operation leaves alone, and when an
operation leaves the whole sequence as it was. -/
namespace Maki

theorem forall_mem_concat {β : Type} {P : β → Prop} {xs : List β} {x : β} (h : ∀ y ∈ xs, P y) (hx : P x) :
    ∀ y ∈ xs ++ [x], P y :=
  List.forall_mem_append.mpr ⟨h,List.forall_mem_singleton.mpr hx⟩

theorem forall_mem_set {β : Type} {P : β → Prop} {xs : List β} {i : ℕ} {x : β} (h : ∀ y ∈ xs, P y) (hx : P x) :
    ∀ y ∈ xs.set i x, P y := fun y hy =>
  (List.mem_or_eq_of_mem_set hy).elim (h y) fun he => he ▸ hx

theorem nodup_concat {β : Type} {xs : List β} {x : β} (h : xs.Nodup) (hx : x ∉ xs) : (xs ++ [x]).Nodup :=
  h.append (List.nodup_singleton _) (by simpa using hx)

namespace Splice

variable {α : Type} [Zero α]

def pad (n : ℕ) (xs : List α) : List α := xs ++ List.replicate (n - xs.length) 0

def resize (n : ℕ) (xs : List α) : List α := (pad n xs).take n

def splice (offset : ℕ) (src xs : List α) : List α :=
  (pad offset xs).take offset ++ src ++ xs.drop (offset + src.length)

@[simp] theorem length_pad (n : ℕ) (xs : List α) : (pad n xs).length = max n xs.length := by
  simp only [pad,List.length_append,List.length_replicate]
  omega

@[simp] theorem length_resize (n : ℕ) (xs : List α) : (resize n xs).length = n := by
  simp only [resize,List.length_take,length_pad]
  omega

@[simp] theorem length_splice (offset : ℕ) (src xs : List α) :
    (splice offset src xs).length = max xs.length (offset + src.length) := by
  simp only [splice,List.length_append,List.length_take,length_pad,List.length_drop]
  omega

/-- What position `i` holds: a position past the end reads as zero. -/
def at_ (xs : List α) (i : ℕ) : α := xs.getD i 0

@[simp] theorem at_pad (n : ℕ) (xs : List α) (i : ℕ) : at_ (pad n xs) i = at_ xs i := by
  simp only [at_,pad,List.getD_eq_getElem?_getD,List.getElem?_append]
  split
  · rfl
  · rename_i h
    rw [List.getElem?_eq_none (by omega : xs.length ≤ i),List.getElem?_replicate]
    split <;> rfl

theorem at_resize (n : ℕ) (xs : List α) (i : ℕ) :
    at_ (resize n xs) i = if i < n then at_ xs i else 0 := by
  have h := at_pad n xs i
  simp only [at_,resize,List.getD_eq_getElem?_getD,List.getElem?_take] at h ⊢
  split <;> simp_all

theorem at_splice (offset : ℕ) (src xs : List α) (i : ℕ) :
    at_ (splice offset src xs) i =
      if offset ≤ i ∧ i < offset + src.length then at_ src (i - offset) else at_ xs i := by
  have hp := at_pad offset xs i
  have hl : ((pad offset xs).take offset).length = offset := by
    simp only [List.length_take,length_pad]; omega
  simp only [at_,splice,List.getD_eq_getElem?_getD,List.append_assoc] at hp ⊢
  by_cases h₁ : i < offset
  · rw [List.getElem?_append_left (by omega),List.getElem?_take,if_pos h₁,hp,if_neg (by omega)]
  · rw [List.getElem?_append_right (by omega),hl]
    by_cases h₂ : i < offset + src.length
    · rw [List.getElem?_append_left (by omega),if_pos ⟨by omega,h₂⟩]
    · rw [List.getElem?_append_right (by omega),List.getElem?_drop,if_neg (by omega)]
      congr 2
      omega

variable {xs src : List α} {offset start n : ℕ}

theorem ext_at {ys : List α} (hl : xs.length = ys.length)
    (h : ∀ i < xs.length, at_ xs i = at_ ys i) : xs = ys := by
  apply List.ext_getElem hl
  intro i h₁ h₂
  have hi := h i h₁
  simpa [at_,List.getD_eq_getElem?_getD,List.getElem?_eq_getElem,h₁,h₂] using hi

@[simp] theorem resize_self (xs : List α) : resize xs.length xs = xs := by
  simp [resize,pad]

/-- Resizing to the new length and writing from the start leaves nothing of the old content. -/
@[simp] theorem splice_resize (src xs : List α) : splice 0 src (resize src.length xs) = src := by
  apply ext_at (by simp)
  intro i hi
  simp only [length_splice,length_resize] at hi
  rw [at_splice,if_pos (by omega)]
  simp

theorem splice_eq_self (hl : offset + src.length ≤ xs.length)
    (h : ∀ i < src.length, at_ src i = at_ xs (offset + i)) : splice offset src xs = xs := by
  apply ext_at (by simp; omega)
  intro i _
  rw [at_splice]
  split
  · rename_i hi
    have := h (i - offset) (by omega)
    rwa [show offset + (i - offset) = i by omega] at this
  · rfl

theorem splice_take_self (n : ℕ) (xs : List α) : splice 0 (xs.take n) xs = xs := by
  apply splice_eq_self (by simp only [List.length_take]; omega)
  intro i hi
  simp only [List.length_take,Nat.lt_min] at hi
  simp [at_,List.getD_eq_getElem?_getD,hi.1]

/-! The part of a sequence at a position. -/

def window (start n : ℕ) (xs : List α) : List α := (xs.drop start).take n

omit [Zero α] in
theorem length_window (h : start+n ≤ xs.length) :
    (window start n xs).length = n := by
  simp only [window,List.length_take,List.length_drop]
  omega

theorem at_window (start n : ℕ) (xs : List α) (i : ℕ) :
    at_ (window start n xs) i = if i < n then at_ xs (start+i) else 0 := by
  simp only [at_,window,List.getD_eq_getElem?_getD,List.getElem?_take,List.getElem?_drop]
  split <;> rfl

theorem window_splice_apart (hl : start+n ≤ xs.length)
    (h : start+n ≤ offset ∨ offset+src.length ≤ start) :
    window start n (splice offset src xs) = window start n xs := by
  have hl' : start+n ≤ (splice offset src xs).length := by rw [length_splice]; omega
  apply ext_at (by rw [length_window hl,length_window hl'])
  intro i hi
  rw [length_window hl'] at hi
  rw [at_window,at_window,if_pos hi,if_pos hi,at_splice,if_neg (by omega)]

theorem window_splice_self (offset : ℕ) (src xs : List α) :
    window offset src.length (splice offset src xs) = src := by
  have hl : offset+src.length ≤ (splice offset src xs).length := by
    rw [length_splice]
    exact Nat.le_max_right _ _
  apply ext_at (length_window hl)
  intro i hi
  rw [length_window hl] at hi
  rw [at_window,if_pos hi,at_splice,if_pos ⟨Nat.le_add_right _ _,Nat.add_lt_add_left hi _⟩,
    Nat.add_sub_cancel_left]

theorem window_splice_inside (hl : start+n ≤ xs.length)
    (h : offset+src.length ≤ n) :
    window start n (splice (start+offset) src xs) = splice offset src (window start n xs) := by
  have hl' : start+n ≤ (splice (start+offset) src xs).length := by rw [length_splice]; omega
  apply ext_at (by rw [length_window hl',length_splice,length_window hl]; omega)
  intro i hi
  rw [length_window hl'] at hi
  rw [at_window,if_pos hi,at_splice,at_splice,at_window,if_pos hi]
  by_cases hin : offset ≤ i ∧ i < offset+src.length
  · rw [if_pos hin,if_pos (by omega)]
    congr 1
    omega
  · rw [if_neg hin,if_neg (by omega)]

theorem window_resize {m : ℕ} (hl : start+n ≤ xs.length) (hm : start+n ≤ m) :
    window start n (resize m xs) = window start n xs := by
  have hl' : start+n ≤ (resize m xs).length := by rw [length_resize]; omega
  apply ext_at (by rw [length_window hl,length_window hl'])
  intro i hi
  rw [length_window hl'] at hi
  rw [at_window,at_window,at_resize,if_pos (show start+i < m by omega)]

theorem window_zeros (hl : start+n ≤ xs.length)
    (h : ∀ i, at_ xs i = 0) : window start n xs = List.replicate n 0 := by
  apply ext_at (by rw [length_window hl,List.length_replicate])
  intro i _
  rw [at_window,h]
  simp only [ite_self,at_,List.getD_eq_getElem?_getD,List.getElem?_replicate]
  split <;> rfl

end Splice
end Maki
