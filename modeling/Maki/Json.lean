import Mathlib
import Maki.Codec

/-! Compact JSON as `serde_json` prints it: numbers in decimal, strings with the short escapes,
no blanks. Only what records of numbers, strings and arrays need. -/
namespace Maki
namespace Json

def null : Bytes := ascii "null"

def num (n : ℕ) : Bytes := (Nat.toDigits 10 n).map fun c => UInt8.ofNat c.toNat

def escape (b : UInt8) : Bytes :=
  if b = 34 then [92,34]
  else if b = 92 then [92,92]
  else if b = 8 then [92,98]
  else if b = 9 then [92,116]
  else if b = 10 then [92,110]
  else if b = 12 then [92,102]
  else if b = 13 then [92,114]
  else if b < 32 then ascii "\\u00" ++ (Nat.toDigits 16 (b.toNat/16) ++ Nat.toDigits 16 (b.toNat % 16)).map
    fun c => UInt8.ofNat c.toNat
  else [b]

def str (bs : Bytes) : Bytes := 34::(bs.flatMap escape ++ [34])

def sep : List Bytes → Bytes
  | [] => []
  | [x] => x
  | x::y::xs => x ++ 44::sep (y::xs)

def arr (items : List Bytes) : Bytes := 91::(sep items ++ [93])

def field (name : String) (value : Bytes) : Bytes := str (ascii name) ++ 58::value

def obj (fields : List Bytes) : Bytes := 123::(sep fields ++ [125])

def opt {α : Type} (f : α → Bytes) : Option α → Bytes
  | none => null
  | some a => f a

def bytes (bs : Bytes) : Bytes := arr (bs.map fun b => num b.toNat)

section Length

variable {k n : ℕ}

theorem length_num_le (hk : 0 < k) (h : n < 10^k) : (num n).length ≤ k := by
  rw [num,List.length_map]
  exact Nat.toDigits_length 10 n k hk h

theorem length_num_u64 (h : n < 2^64) : (num n).length ≤ 20 := length_num_le (by decide) (by omega)

theorem length_escape_le (b : UInt8) : (escape b).length ≤ 6 := by
  unfold escape
  split_ifs
  all_goals try (simp only [List.length_cons,List.length_nil]; omega)
  have hlt : b.toNat < 256 := b.toNat_lt
  have hhigh := Nat.toDigits_length 16 (b.toNat/16) 1 (by decide) (by omega)
  have hlow := Nat.toDigits_length 16 (b.toNat % 16) 1 (by decide) (by omega)
  have hpre : (ascii "\\u00").length = 4 := by decide
  rw [List.length_append,hpre,List.length_map,List.length_append]
  omega

theorem length_str_le (bs : Bytes) : (str bs).length ≤ 6*bs.length+2 := by
  have hflat : (bs.flatMap escape).length ≤ 6*bs.length := by
    induction bs with
    | nil => simp
    | cons b bs ih =>
      have hb := length_escape_le b
      simp only [List.flatMap_cons,List.length_append,List.length_cons]
      omega
  simp only [str,List.length_cons,List.length_append,List.length_nil]
  omega

theorem length_sep_le {items : List Bytes} (h : ∀ x ∈ items, x.length ≤ k) :
    (sep items).length ≤ items.length*(k+1) := by
  induction items using sep.induct with
  | case1 => simp [sep]
  | case2 x =>
    have hx := h x (by simp)
    simp only [sep,List.length_cons,List.length_nil]
    omega
  | case3 x y xs ih =>
    have hx := h x (by simp)
    have hrest := ih fun z hz => h z (by simp [List.mem_cons.mp hz])
    simp only [sep,List.length_append,List.length_cons,Nat.succ_mul] at hrest ⊢
    omega

theorem length_bytes_le (bs : Bytes) : (bytes bs).length ≤ 4*bs.length+2 := by
  have hitems : ∀ x ∈ bs.map (fun b => num b.toNat), x.length ≤ 3 := by
    intro x hx
    obtain ⟨b,-,rfl⟩ := List.mem_map.mp hx
    exact length_num_le (by decide) (Nat.lt_of_lt_of_le b.toNat_lt (by decide))
  have hsep := length_sep_le hitems
  simp only [bytes,arr,List.length_cons,List.length_append,List.length_nil,List.length_map] at hsep ⊢
  omega

theorem length_field_le {name : String} {value : Bytes} (hname : (str (ascii name)).length ≤ 28)
    (h : value.length ≤ k) : (field name value).length ≤ k+29 := by
  simp only [field,List.length_append,List.length_cons]
  omega

theorem length_obj_le {fields : List Bytes} (h : ∀ x ∈ fields, x.length ≤ k) :
    (obj fields).length ≤ fields.length*(k+1)+2 := by
  have hsep := length_sep_le h
  simp only [obj,List.length_cons,List.length_append,List.length_nil]
  omega

theorem length_opt_le {α : Type} {f : α → Bytes} {o : Option α} (hk : 4 ≤ k)
    (h : ∀ a, o = some a → (f a).length ≤ k) : (opt f o).length ≤ k := by
  cases o with
  | none => exact hk
  | some a => exact h a rfl

end Length

section Unique

/-! A printed value says which value was printed, and where its text ends. -/

def Digit (b : UInt8) : Prop := 48 ≤ b ∧ b ≤ 57

/-- What follows a value does not go on with a number. -/
def Ends (x : Bytes) : Prop := ∀ b, x.head? = some b → ¬ Digit b

variable {b : UInt8} {x : Bytes} {n : ℕ}

@[simp] theorem ends_cons : Ends (b::x) ↔ ¬ Digit b := by
  simp [Ends]

theorem ends_comma (x : Bytes) : Ends (44::x) := by simp [Digit]
theorem ends_bracket (x : Bytes) : Ends (93::x) := by simp [Digit]
theorem ends_brace (x : Bytes) : Ends (125::x) := by simp [Digit]

/-- Two texts that start with printed values agree only if the values do. -/
def Unique {α : Type} (f : α → Bytes) : Prop :=
  ∀ a b x y, Ends x → Ends y → f a ++ x = f b ++ y → a = b ∧ x = y

/-- A run of digits ends where the digits do. -/
theorem digits_append_inj {xs ys y : Bytes} (hxs : ∀ b ∈ xs, Digit b) (hys : ∀ b ∈ ys, Digit b)
    (hx : Ends x) (hy : Ends y) (h : xs ++ x = ys ++ y) : xs = ys ∧ x = y := by
  induction xs generalizing ys with
  | nil =>
    cases ys with
    | nil => exact ⟨rfl,h⟩
    | cons b ys =>
      rw [List.nil_append,List.cons_append] at h
      exact absurd (hys b (by simp)) (hx b (by rw [h]; rfl))
  | cons a xs ih =>
    cases ys with
    | nil =>
      rw [List.nil_append,List.cons_append] at h
      exact absurd (hxs a (by simp)) (hy a (by rw [← h]; rfl))
    | cons b ys =>
      simp only [List.cons_append,List.cons.injEq] at h
      obtain ⟨rfl,h⟩ := h
      obtain ⟨rfl,hxy⟩ := ih (fun c hc => hxs c (by simp [hc])) (fun c hc => hys c (by simp [hc])) h
      exact ⟨rfl,hxy⟩

theorem toNat_digit {c : Char} (h : c ∈ Nat.toDigits 10 n) : 48 ≤ c.toNat ∧ c.toNat ≤ 57 := by
  have hd := Nat.isDigit_of_mem_toDigits (by decide) (by decide) h
  simpa [Char.isDigit,UInt32.le_iff_toNat_le] using hd

theorem digit_of_mem_num (h : b ∈ num n) : Digit b := by
  obtain ⟨c,hc,rfl⟩ := List.mem_map.mp h
  obtain ⟨hlow,hhigh⟩ := toNat_digit hc
  simp only [Digit,UInt8.le_iff_toNat_le,UInt8.toNat_ofNat']
  rw [Nat.mod_eq_of_lt (by omega)]
  exact ⟨hlow,hhigh⟩

theorem num_inj {m : ℕ} (h : num m = num n) : m = n := by
  have hchars : ∀ k, (num k).map (fun b => Char.ofNat b.toNat) = Nat.toDigits 10 k := by
    intro k
    rw [num,List.map_map]
    refine (List.map_congr_left fun c hc => ?_).trans (List.map_id _)
    obtain ⟨-,hhigh⟩ := toNat_digit hc
    simp only [Function.comp,UInt8.toNat_ofNat',id]
    rw [Nat.mod_eq_of_lt (by omega),Char.ofNat_toNat]
  have hdigits : Nat.toDigits 10 m = Nat.toDigits 10 n := by rw [← hchars m,← hchars n,h]
  have hm := Nat.ofDigitChars_toDigits (b := 10) (n := m) (by decide) (by decide)
  rw [hdigits,Nat.ofDigitChars_toDigits (by decide) (by decide)] at hm
  exact hm.symm

theorem num_unique : Unique num := by
  intro a b x y hx hy h
  obtain ⟨hnum,hxy⟩ := digits_append_inj (fun _ => digit_of_mem_num) (fun _ => digit_of_mem_num) hx hy h
  exact ⟨num_inj hnum,hxy⟩

/-- A byte that is printed as itself. -/
def Plain (b : UInt8) : Prop := 32 ≤ b ∧ b ≠ 34 ∧ b ≠ 92

theorem escape_plain (h : Plain b) : escape b = [b] := by
  obtain ⟨hlow,hquote,hslash⟩ := h
  have hnat : 32 ≤ b.toNat := UInt8.le_iff_toNat_le.mp hlow
  have hne : ∀ c : UInt8, c.toNat < 32 → b ≠ c := by
    rintro c hc rfl
    omega
  have hlt : ¬ b < 32 := by
    rw [UInt8.lt_iff_toNat_lt]
    exact Nat.not_lt.mpr hnat
  simp [escape,hquote,hslash,hne 8 (by decide),hne 9 (by decide),hne 10 (by decide),
    hne 12 (by decide),hne 13 (by decide),hlt]

def escaped : List UInt8 := 34::92::(List.range 32).map UInt8.ofNat

theorem mem_escaped (h : ¬ Plain b) : b ∈ escaped := by
  by_cases hb : b < 32
  · have hlt : b.toNat < 32 := UInt8.lt_iff_toNat_lt.mp hb
    have hmem : UInt8.ofNat b.toNat ∈ (List.range 32).map UInt8.ofNat :=
      List.mem_map_of_mem (List.mem_range.mpr hlt)
    rw [UInt8.ofNat_toNat] at hmem
    simp [escaped,hmem]
  · have hge : 32 ≤ b := UInt8.not_lt.mp hb
    simp only [Plain,hge,true_and,not_and_or,not_not] at h
    rcases h with rfl | rfl <;> simp [escaped]

/-- No escape is the beginning of another one. -/
theorem eq_of_escape_isPrefix (b c : UInt8) (h : escape b <+: escape c) : b = c := by
  have hall : ∀ b ∈ escaped, (escape b).head? = some 92 ∧ 2 ≤ (escape b).length ∧
      ∀ c ∈ escaped, (escape b).isPrefixOf (escape c) = true → b = c := by decide +kernel
  by_cases hb : Plain b <;> by_cases hc : Plain c
  · rw [escape_plain hb,escape_plain hc] at h
    simpa using h
  · obtain ⟨hhead,-⟩ := hall c (mem_escaped hc)
    rw [escape_plain hb] at h
    obtain ⟨x,hx⟩ := h
    rw [← hx] at hhead
    exact absurd (Option.some.inj hhead) hb.2.2
  · have hlen := h.length_le
    rw [escape_plain hc] at hlen
    exact absurd hlen (Nat.not_le.mpr (hall b (mem_escaped hb)).2.1)
  · exact (hall b (mem_escaped hb)).2.2 c (mem_escaped hc) (List.isPrefixOf_iff_prefix.mpr h)

theorem escape_head (b : UInt8) : ∃ c x, escape b = c::x ∧ c ≠ 34 := by
  have hall : ∀ i : Fin 256, (escape (UInt8.ofNat i)).head?.any (· ≠ 34) = true := by decide +kernel
  have hb : UInt8.ofNat b.toNat = b := UInt8.ofNat_toNat
  have h := hall ⟨b.toNat,b.toNat_lt⟩
  simp only [hb] at h
  cases he : escape b with
  | nil => simp [he] at h
  | cons c x => exact ⟨c,x,rfl,by simpa [he] using h⟩

theorem str_unique : Unique str := by
  have hbody : ∀ (as bs x y : Bytes), as.flatMap escape ++ 34::x = bs.flatMap escape ++ 34::y →
      as = bs ∧ x = y := by
    intro as
    induction as with
    | nil =>
      intro bs x y h
      cases bs with
      | nil => exact ⟨rfl,(List.cons.inj h).2⟩
      | cons b bs =>
        obtain ⟨c,z,hz,hc⟩ := escape_head b
        simp only [List.flatMap_nil,List.nil_append,List.flatMap_cons,hz,List.cons_append] at h
        exact absurd (List.cons.inj h).1.symm hc
    | cons a as ih =>
      intro bs x y h
      cases bs with
      | nil =>
        obtain ⟨c,z,hz,hc⟩ := escape_head a
        simp only [List.flatMap_nil,List.nil_append,List.flatMap_cons,hz,List.cons_append] at h
        exact absurd (List.cons.inj h).1 hc
      | cons b bs =>
        simp only [List.flatMap_cons,List.append_assoc] at h
        have hab : a = b := by
          have ha : escape a <+: escape a ++ (as.flatMap escape ++ 34::x) := List.prefix_append _ _
          have hb : escape b <+: escape a ++ (as.flatMap escape ++ 34::x) := h ▸ List.prefix_append _ _
          rcases List.prefix_or_prefix_of_prefix ha hb with hp | hp
          · exact eq_of_escape_isPrefix a b hp
          · exact (eq_of_escape_isPrefix b a hp).symm
        subst hab
        obtain ⟨rfl,hxy⟩ := ih bs x y (List.append_cancel_left h)
        exact ⟨rfl,hxy⟩
  intro a b x y _ _ h
  simp only [str,List.cons_append,List.append_assoc,List.cons.injEq,true_and,List.nil_append] at h
  exact hbody a b x y h

theorem opt_unique {α : Type} {f : α → Bytes} (hf : Unique f) (hn : ∀ a, ∃ b x, f a = b::x ∧ b ≠ 110) :
    Unique (opt f) := by
  intro a b x y hx hy h
  cases a with
  | none =>
    cases b with
    | none => exact ⟨rfl,List.append_cancel_left h⟩
    | some b =>
      obtain ⟨c,z,hz,hc⟩ := hn b
      simp only [opt,hz,null] at h
      exact absurd (List.cons.inj h).1.symm hc
  | some a =>
    cases b with
    | none =>
      obtain ⟨c,z,hz,hc⟩ := hn a
      simp only [opt,hz,null] at h
      exact absurd (List.cons.inj h).1 hc
    | some b =>
      obtain ⟨rfl,hxy⟩ := hf a b x y hx hy h
      exact ⟨rfl,hxy⟩

theorem sep_cons (x : Bytes) (xs : List Bytes) :
    sep (x::xs) = x ++ if xs = [] then [] else 44::sep xs := by
  cases xs <;> simp [sep]

theorem bytes_unique : Unique bytes := by
  have hhead : ∀ n, ∃ b z, num n = b::z ∧ Digit b := by
    intro n
    cases hn : num n with
    | nil => exact absurd hn (by simp [num,Nat.toDigits_ne_nil])
    | cons b z => exact ⟨b,z,rfl,digit_of_mem_num (n := n) (by simp [hn])⟩
  have hitems : ∀ (as bs x y : Bytes),
      sep (as.map fun b => num b.toNat) ++ 93::x = sep (bs.map fun b => num b.toNat) ++ 93::y →
        as = bs ∧ x = y := by
    intro as
    induction as with
    | nil =>
      intro bs x y h
      cases bs with
      | nil => exact ⟨rfl,(List.cons.inj h).2⟩
      | cons b bs =>
        obtain ⟨c,z,hz,hc⟩ := hhead b.toNat
        simp only [List.map_nil,List.map_cons,sep_cons,hz,sep,List.nil_append,List.cons_append] at h
        exact absurd ((List.cons.inj h).1 ▸ hc) (by simp [Digit])
    | cons a as ih =>
      intro bs x y h
      cases bs with
      | nil =>
        obtain ⟨c,z,hz,hc⟩ := hhead a.toNat
        simp only [List.map_nil,List.map_cons,sep_cons,hz,sep,List.nil_append,List.cons_append] at h
        exact absurd ((List.cons.inj h).1 ▸ hc) (by simp [Digit])
      | cons b bs =>
        simp only [List.map_cons,sep_cons,List.append_assoc,List.map_eq_nil_iff] at h
        have hends : ∀ (cs : Bytes) (z : Bytes),
            Ends ((if cs = [] then [] else 44::sep (cs.map fun b => num b.toNat)) ++ 93::z) := by
          intro cs z
          split
          · exact ends_bracket z
          · exact ends_comma _
        obtain ⟨hab,hrest⟩ := num_unique _ _ _ _ (hends as x) (hends bs y) h
        obtain rfl := UInt8.toNat_inj.mp hab
        by_cases has : as = [] <;> by_cases hbs : bs = []
        · simp only [if_pos has,if_pos hbs,List.nil_append,List.cons.injEq,true_and] at hrest
          exact ⟨by rw [has,hbs],hrest⟩
        · simp [if_pos has,if_neg hbs] at hrest
        · simp [if_neg has,if_pos hbs] at hrest
        · simp only [if_neg has,if_neg hbs,List.cons_append,List.cons.injEq,true_and] at hrest
          obtain ⟨rfl,hxy⟩ := ih bs x y hrest
          exact ⟨rfl,hxy⟩
  intro a b x y _ _ h
  simp only [bytes,arr,List.cons_append,List.append_assoc,List.cons.injEq,true_and] at h
  exact hitems a b x y h

def Framed (v w : Bytes) : Prop := ∀ x y, Ends x → Ends y → v ++ x = w ++ y → v = w ∧ x = y

theorem Unique.framed {α : Type} {f : α → Bytes} (hf : Unique f) (a b : α) : Framed (f a) (f b) := by
  intro x y hx hy h
  obtain ⟨rfl,hxy⟩ := hf a b x y hx hy h
  exact ⟨rfl,hxy⟩

theorem Unique.injective {α : Type} {f : α → Bytes} (hf : Unique f) {a b : α} (h : f a = f b) : a = b :=
  (hf a b [] [] (fun _ hb => by cases hb) (fun _ hb => by cases hb) (by rw [h])).1

/-- Objects with the same names agree field by field. -/
theorem obj_append_inj (fields : List (String × Bytes × Bytes)) (hf : ∀ f ∈ fields, Framed f.2.1 f.2.2)
    {y : Bytes} (h : obj (fields.map fun f => field f.1 f.2.1) ++ x =
      obj (fields.map fun f => field f.1 f.2.2) ++ y) : (∀ f ∈ fields, f.2.1 = f.2.2) ∧ x = y := by
  simp only [obj,List.cons_append,List.append_assoc,List.cons.injEq,true_and,List.nil_append] at h
  induction fields with
  | nil => exact ⟨by simp,(List.cons.inj h).2⟩
  | cons f fields ih =>
    simp only [List.map_cons,sep_cons,field,List.append_assoc,List.cons_append,List.map_eq_nil_iff] at h
    have hvalue := (List.cons.inj (List.append_cancel_left h)).2
    have hends : ∀ (g : String × Bytes × Bytes → Bytes) (z : Bytes),
        Ends ((if fields = [] then [] else 44::sep (fields.map g)) ++ 125::z) := by
      intro g z
      split
      · exact ends_brace z
      · exact ends_comma _
    obtain ⟨hv,hrest⟩ := hf f (by simp) _ _ (hends _ x) (hends _ y) hvalue
    by_cases hn : fields = []
    · subst hn
      exact ⟨by simpa using hv,(List.cons.inj hrest).2⟩
    · simp only [if_neg hn,List.cons_append] at hrest
      obtain ⟨hall,hxy⟩ := ih (fun g hg => hf g (by simp [hg])) (List.cons.inj hrest).2
      exact ⟨List.forall_mem_cons.mpr ⟨hv,hall⟩,hxy⟩

end Unique

end Json
end Maki
