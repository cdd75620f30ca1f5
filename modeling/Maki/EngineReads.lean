import Maki.EngineRun

/-! An engine as an array of bytes, and its reads: the bytes of the units a lookup found, cut to the
range that was asked for. -/
namespace Maki
namespace Engine

section Windows

variable {unitSize offset len : ℕ} {dev : ℕ → UInt8}

theorem window_eq {unit : ℕ} {buf : Option Bytes}
    (hsize : (buf.getD (List.replicate unitSize 0)).length = unitSize)
    (hbuf : ∀ k < unitSize, Splice.at_ (buf.getD (List.replicate unitSize 0)) k = dev (unit*unitSize+k)) :
    window unitSize offset len unit buf =
      (List.range' (max offset (unit*unitSize))
        (min (offset+len) (unit*unitSize+unitSize)-max offset (unit*unitSize))).map dev := by
  unfold window
  generalize buf.getD (List.replicate unitSize 0) = bytes at hsize hbuf
  apply Splice.ext_at
  · simp only [List.length_take,List.length_drop,List.length_map,List.length_range',hsize]
    omega
  intro k hk
  simp only [List.length_take,List.length_drop,hsize] at hk
  have hk' : max offset (unit*unitSize)-unit*unitSize+k < unitSize := by omega
  have hb := hbuf _ hk'
  simp only [Splice.at_,List.getD_eq_getElem?_getD] at hb ⊢
  rw [List.getElem?_take,if_pos (by omega),List.getElem?_drop,hb,List.getElem?_map,
    List.getElem?_range' (by omega)]
  simp only [Option.map_some,Option.getD_some]
  congr 1
  omega

variable (hus : 0 < unitSize) (hlen : 0 < len) {bufs : ℕ → Option Bytes}
  (h : ∀ unit ∈ unitRange unitSize offset len,
    ((bufs unit).getD (List.replicate unitSize 0)).length = unitSize ∧
    ∀ k < unitSize, Splice.at_ ((bufs unit).getD (List.replicate unitSize 0)) k = dev (unit*unitSize+k))

include hus hlen h

theorem windows_upto {n : ℕ} (hn : n ≤ (offset+len-1)/unitSize-offset/unitSize+1) :
    ((List.range' (offset/unitSize) n).map fun unit =>
        window unitSize offset len unit (bufs unit)).flatten =
      (List.range' offset (min (offset+len) ((offset/unitSize+n)*unitSize)-offset)).map dev := by
  have hfirst : offset/unitSize*unitSize ≤ offset := Nat.div_mul_le_self _ _
  induction n with
  | zero =>
    have hz : min (offset+len) ((offset/unitSize+0)*unitSize)-offset = 0 := by
      rw [Nat.add_zero]
      omega
    rw [hz]
    rfl
  | succ n ih =>
    have hunit : offset/unitSize+n ≤ (offset+len-1)/unitSize := by
      have hle : offset/unitSize ≤ (offset+len-1)/unitSize := Nat.div_le_div_right (by omega)
      omega
    -- The unit begins inside the range, and the range does not begin behind it.
    have hbegin : (offset/unitSize+n)*unitSize ≤ offset+len-1 :=
      (Nat.le_div_iff_mul_le hus).mp hunit
    have hbehind : offset < (offset/unitSize+n+1)*unitSize := by
      have hlt := Nat.lt_succ_of_le (Nat.le_add_right (offset/unitSize) n)
      rwa [Nat.div_lt_iff_lt_mul hus] at hlt
    obtain ⟨hsize,hbuf⟩ := h (offset/unitSize+n) (by
      simp only [unitRange,List.mem_range'_1]
      omega)
    have hmul : (offset/unitSize+n+1)*unitSize = (offset/unitSize+n)*unitSize+unitSize := Nat.succ_mul _ _
    rw [List.range'_concat,List.map_append,List.flatten_append,ih (by omega)]
    simp only [List.map_cons,List.map_nil,List.flatten_cons,List.flatten_nil,List.append_nil,Nat.one_mul]
    rw [window_eq hsize hbuf,← List.map_append,← Nat.add_assoc,hmul]
    congr 1
    have hstart : max offset ((offset/unitSize+n)*unitSize) =
        offset+1*(min (offset+len) ((offset/unitSize+n)*unitSize)-offset) := by omega
    rw [hstart,List.range'_append]
    congr 1
    omega

theorem flatten_windows :
    ((unitRange unitSize offset len).map fun unit =>
        window unitSize offset len unit (bufs unit)).flatten =
      (List.range len).map fun i => dev (offset+i) := by
  have hle : offset/unitSize ≤ (offset+len-1)/unitSize := Nat.div_le_div_right (by omega)
  have hend : offset+len ≤ (offset/unitSize+((offset+len-1)/unitSize-offset/unitSize+1))*unitSize := by
    have hlt := Nat.lt_succ_self ((offset+len-1)/unitSize)
    rw [Nat.div_lt_iff_lt_mul hus] at hlt
    have hsum : offset/unitSize+((offset+len-1)/unitSize-offset/unitSize+1) =
        ((offset+len-1)/unitSize).succ := by omega
    rw [hsum]
    omega
  have hwin := windows_upto hus hlen h (Nat.le_refl _)
  rw [unitRange,hwin,Nat.min_eq_left hend,Nat.add_sub_cancel_left,List.range'_eq_map_range,List.map_map]
  rfl

end Windows

section Device

variable (c : EngineInner) (base : ℕ → Except CoreError SlotRead) (accepted : List JournalRecord)

def device (pos : ℕ) : UInt8 :=
  Splice.at_ (plainOf c (pos/c.params.unitSize) (expected c base accepted (pos/c.params.unitSize)))
    (pos % c.params.unitSize)

variable {c base accepted}

theorem at_plain (hus : 0 < c.params.unitSize) {unit k : ℕ} (hk : k < c.params.unitSize) :
    Splice.at_ (plainOf c unit (expected c base accepted unit)) k =
      device c base accepted (unit*c.params.unitSize+k) := by
  have hdiv : (unit*c.params.unitSize+k)/c.params.unitSize = unit := by
    rw [Nat.mul_comm,Nat.mul_add_div hus,Nat.div_eq_of_lt hk,Nat.add_zero]
  have hmod : (unit*c.params.unitSize+k) % c.params.unitSize = k := by
    rw [Nat.mul_comm,Nat.mul_add_mod,Nat.mod_eq_of_lt hk]
  rw [device,hdiv,hmod]

theorem Known.eq {unit : ℕ} {data : Bytes} (h : Known c base accepted unit data) :
    data = plainOf c unit (expected c base accepted unit) := by
  obtain ⟨-,sequence,ciphertext,he,hd⟩ := h
  rw [he,plainOf,hd]

/-- A buffer taken from one of two places, zeros if neither has one. -/
theorem known_or {unit : ℕ} {a b : Option Bytes} (ha : ∀ data, a = some data → Known c base accepted unit data)
    (hb : ∀ data, b = some data → Known c base accepted unit data)
    (hn : a = none → b = none → expected c base accepted unit = .ok .Zero) :
    (a.or b).getD (List.replicate c.params.unitSize 0) = plainOf c unit (expected c base accepted unit) ∧
    (plainOf c unit (expected c base accepted unit)).length = c.params.unitSize := by
  have hfrom : ∀ data, Known c base accepted unit data →
      data = plainOf c unit (expected c base accepted unit) ∧
      (plainOf c unit (expected c base accepted unit)).length = c.params.unitSize := by
    intro data hd
    have heq := hd.eq
    exact ⟨heq,heq ▸ hd.1⟩
  cases a with
  | some data => exact hfrom data (ha data rfl)
  | none =>
    cases b with
    | some data => exact hfrom data (hb data rfl)
    | none =>
      rw [hn rfl rfl]
      exact ⟨rfl,List.length_replicate⟩

end Device

section Found

variable {c : EngineInner} {base : ℕ → Except CoreError SlotRead} {accepted : List JournalRecord}
  {units : List ℕ} {looked : List Found} {m : Std.TreeMap ℕ Bytes}

theorem mem_of_lookup {α β : Type} [BEq α] [LawfulBEq α] {xs : List (α × β)} {a : α} {b : β}
    (h : xs.lookup a = some b) : (a,b) ∈ xs := by
  obtain ⟨front,back,rfl,-⟩ := List.lookup_eq_some_iff.mp h
  simp

theorem lookup_of_mem (h : List.Forall₂ (Tells c base accepted) units looked) {unit : ℕ} (hu : unit ∈ units) :
    ∃ found, (units.zip looked).lookup unit = some found := by
  induction h with
  | nil => cases hu
  | @cons a b as bs _ _ ih =>
    rw [List.zip_cons_cons,List.lookup_cons]
    cases hc : unit == a with
    | true => exact ⟨b,rfl⟩
    | false =>
      refine ih ((List.mem_cons.mp hu).resolve_left fun he => ?_)
      simp [he] at hc

theorem mem_sealedUnits {found : List (ℕ × Found)} {ct : CiphertextUnit} :
    ct ∈ sealedUnits found ↔ ∃ sequence, (ct.unitIndex,.sealed sequence ct.data) ∈ found := by
  simp only [sealedUnits,List.mem_filterMap]
  constructor
  · rintro ⟨⟨unit,f⟩,hf,hct⟩
    cases f with
    | «sealed» sequence ciphertext =>
      obtain rfl := Option.some.inj hct
      exact ⟨sequence,hf⟩
    | zero => cases hct
    | cached data => cases hct
  · rintro ⟨sequence,hf⟩
    exact ⟨_,hf,rfl⟩

/-- What lookups and decryptions give for the units that were looked up. -/
structure Gathered (c : EngineInner) (base : ℕ → Except CoreError SlotRead) (accepted : List JournalRecord)
    (units : List ℕ) (found : List (ℕ × Found)) (m : Std.TreeMap ℕ Bytes) : Prop where
  tells : ∀ unit f, found.lookup unit = some f → Tells c base accepted unit f
  decrypted : ∀ unit data, m[unit]? = some data → Known c base accepted unit data
  cached : ∀ unit data, cachedUnit found unit = some data → Known c base accepted unit data
  zero : ∀ unit ∈ units, m[unit]? = none → cachedUnit found unit = none →
    expected c base accepted unit = .ok .Zero

theorem gathered (h : List.Forall₂ (Tells c base accepted) units looked)
    (hm : ∀ unit data, m[unit]? = some data → data.length = c.params.unitSize ∧
      ∃ ciphertext, ⟨unit,ciphertext⟩ ∈ sealedUnits (units.zip looked) ∧
        data = c.provider.plaintextOf unit ciphertext)
    (hall : ∀ ct ∈ sealedUnits (units.zip looked), m[ct.unitIndex]?.isSome = true) :
    Gathered c base accepted units (units.zip looked) m := by
  have htells : ∀ unit f, (units.zip looked).lookup unit = some f → Tells c base accepted unit f :=
    fun unit f hf => List.forall₂_zip h (mem_of_lookup hf)
  refine ⟨htells,fun unit data hd => ?_,fun unit data hd => ?_,fun unit hu hnone hcached => ?_⟩
  · obtain ⟨hl,ciphertext,hin,rfl⟩ := hm unit data hd
    obtain ⟨sequence,hf⟩ := mem_sealedUnits.mp hin
    exact ⟨hl,sequence,ciphertext,List.forall₂_zip h hf,rfl⟩
  · obtain ⟨f,hf,hc⟩ := Option.bind_eq_some_iff.mp hd
    have ht := htells unit f hf
    cases f with
    | cached x =>
      obtain rfl : x = data := Option.some.inj hc
      exact ht
    | zero => cases hc
    | «sealed» sequence ciphertext => cases hc
  · obtain ⟨f,hf⟩ := lookup_of_mem h hu
    have ht := htells unit f hf
    cases f with
    | zero => exact ht
    | cached x => simp [cachedUnit,hf,Found.cached?] at hcached
    | «sealed» sequence ciphertext =>
      have hin : CiphertextUnit.mk unit ciphertext ∈ sealedUnits (units.zip looked) :=
        mem_sealedUnits.mpr ⟨sequence,mem_of_lookup hf⟩
      have hs := hall _ hin
      simp [hnone] at hs

end Found

section Read

variable [Crc32] [DefaultHasher] [HashOrder] {c : EngineInner} {base : ℕ → Except CoreError SlotRead}
  {accepted : List JournalRecord}

omit [DefaultHasher] [HashOrder] in
theorem Serving.expected_le {t : Engine × Disk} (h : Serving c base t) {unit sequence : ℕ}
    {ciphertext : Bytes} (he : expected c base t.1.accepted unit = .ok (.Ciphertext sequence ciphertext)) :
    sequence ≤ t.1.volume.journal.appendedSequence := by
  cases hl : lastOf t.1.accepted unit with
  | some r =>
    have htells : Tells c base t.1.accepted unit (.sealed sequence ciphertext) := he
    rw [← htells.last r hl]
    exact h.backed.sound.bounded r (lastOf_mem hl).1
  | none =>
    simp only [expected,Volume.kept,hl] at he
    exact h.older unit sequence ciphertext he

omit [DefaultHasher] in
theorem cachePut_stays {units : List ℕ} {found : List (ℕ × Found)} {m : Std.TreeMap ℕ Bytes}
    (hg : Gathered c base accepted units found m) :
    Prog.Runs (Stays c base accepted) (cachePut c found m) := by
  refine .forEach fun unit _ => ask_stays.bind fun n => ?_
  split
  · rename_i sequence data hseq hdata
    apply Prog.Runs.modify
    rintro ⟨s,d⟩ ⟨hs,rfl⟩
    refine ⟨⟨hs.backed,hs.older,?_⟩,rfl⟩
    intro cache' hc unit' sequence' data' hh
    obtain ⟨cache,hold,rfl⟩ := Option.map_eq_some_iff.mp hc
    rcases hh.put with hh | ⟨rfl,rfl,rfl⟩
    · exact hs.cached cache hold unit' sequence' data' hh
    · obtain ⟨f,hf,hsf⟩ := Option.bind_eq_some_iff.mp hseq
      have htells := hg.tells _ f hf
      cases f with
      | zero => cases hsf
      | cached x => cases hsf
      | «sealed» sequence ciphertext =>
        obtain rfl := Option.some.inj hsf
        have hknown := hg.decrypted _ _ hdata
        have hgen : Genuine c base s.accepted unit' sequence data' := by
          refine ⟨hknown.1,.inr ⟨ciphertext,htells,?_⟩⟩
          have heq := hknown.eq
          rw [show expected c base s.accepted unit' = .ok (.Ciphertext sequence ciphertext) from htells,
            plainOf] at heq
          exact heq
        exact ⟨hs.expected_le htells,hgen⟩
  · exact .pure ()

theorem readSecretInner_stays (hus : 0 < c.params.unitSize) (offset len : ℕ) :
    Prog.Answers (Stays c base accepted) (readSecretInner c offset len)
      (fun data t => Stays c base accepted t ∧
        data = (List.range len).map fun i => device c base accepted (offset+i))
      (fun _ => Stays c base accepted) := by
  unfold readSecretInner
  refine Prog.Triple.ofExcept_bind (fun _ hcheck => ?_) fun _ _ _ ht => ht
  have hlen := EngineParams.len_pos_of_checkRange (ok_of_mapError hcheck)
  refine Prog.Triple.bind checkFreshness_stays fun _ => Prog.Triple.bind pause_stays fun _ => ?_
  refine Prog.Triple.bind (Prog.Triple.traverse fun unit _ => lookup_stays unit) fun looked => ?_
  rintro fs t ⟨ht,htells⟩
  refine (Prog.Triple.bind (decryptUnits_stays _) fun m => ?_) fs t ht
  rintro fs t ⟨ht,hm,hall⟩
  have hg := gathered htells hm hall
  refine (Prog.Triple.bind pause_stays fun _ => Prog.Triple.bind (cachePut_stays hg) fun _ =>
    Prog.Triple.pure fun _ ht => ⟨ht,?_⟩) fs t ht
  apply flatten_windows hus hlen
  intro unit hu
  obtain ⟨heq,hsize⟩ := known_or (hg.decrypted unit) (hg.cached unit) (hg.zero unit hu)
  rw [heq]
  exact ⟨hsize,fun k hk => at_plain hus hk⟩

end Read
end Engine
end Maki
