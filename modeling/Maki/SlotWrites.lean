import Mathlib
import Maki.StoreCells

/-! The calls of the slot store that change cells. A slot write changes the bytes of one cell,
marking and discarding change one bit of it, and punching changes bytes of discarded cells, which
no read looks at. -/
namespace Maki

open Prog hiding pure bind throw get modify

namespace SlotStore

def changed (f : ℕ → Cell → Prop) (unit : ℕ) (F : Cell → Cell) : ℕ → Cell → Prop :=
  Function.update f unit fun c => ∃ c₀, f unit c₀ ∧ c = F c₀

/-- Cells of which one may hold any bytes. -/
def forget (f : ℕ → Cell → Prop) (unit : ℕ) : ℕ → Cell → Prop :=
  Function.update f unit fun c => ∃ c₀, f unit c₀ ∧ c.discarded = c₀.discarded ∧ c.allocated = c₀.allocated

/-- Nothing depends on the bytes of discarded cells. -/
def Blind (f : ℕ → Cell → Prop) : Prop :=
  ∀ unit c bytes, c.discarded = true → f unit c → f unit { c with bytes }

section State

variable {g : Geometry} {e : Bool} {o : Handles} {f f' : ℕ → Cell → Prop} {s : SlotStore} {d : Disk}
  {unit : ℕ}

theorem changed_self {F : Cell → Cell} {c : Cell} (h : f unit c) : changed f unit F unit (F c) := by
  rw [changed,Function.update_self]
  exact ⟨c,h,rfl⟩

theorem changed_of_ne {F : Cell → Cell} {v : ℕ} (hv : v ≠ unit) : changed f unit F v = f v :=
  Function.update_of_ne hv _ _

theorem forget_of_changed {F : Cell → Cell}
    (hF : ∀ c, (F c).discarded = c.discarded ∧ (F c).allocated = c.allocated) (v : ℕ) (c : Cell)
    (h : changed f unit F v c) : forget f unit v c := by
  by_cases hv : v = unit
  · subst hv
    rw [changed,Function.update_self] at h
    obtain ⟨c₀,hc₀,rfl⟩ := h
    rw [forget,Function.update_self]
    exact ⟨c₀,hc₀,hF c₀⟩
  · rw [forget,Function.update_of_ne hv]
    rwa [changed_of_ne hv] at h

theorem forget_of (v : ℕ) (c : Cell) (h : f v c) : forget f unit v c := by
  by_cases hv : v = unit
  · subst hv
    rw [forget,Function.update_self]
    exact ⟨c,h,rfl,rfl⟩
  · rwa [forget,Function.update_of_ne hv]

theorem changed_changed {F G : Cell → Cell} (v : ℕ) (c : Cell)
    (h : changed (changed f unit F) unit G v c) : changed f unit (fun c => G (F c)) v c := by
  by_cases hv : v = unit
  · subst hv
    simp only [changed,Function.update_self] at h ⊢
    obtain ⟨_,⟨c₀,hc₀,rfl⟩,rfl⟩ := h
    exact ⟨c₀,hc₀,rfl⟩
  · simpa only [changed_of_ne hv] using h

theorem Shows.mono {t : SlotStore × Disk} (h : Shows g e o f t)
    (hf : ∀ unit c, f unit c → f' unit c) : Shows g e o f' t :=
  ⟨h.fit,fun unit => hf unit _ (h.cells unit),h.opened,h.names,h.aside⟩

theorem Shows.renames {n : ℕ → InodeId → Prop} {t : SlotStore × Disk} (h : Shows g e o f t)
    (hn : ∀ index i, n index i → Names index i t.1) : Shows g e ⟨o.opening,n,o.foreign⟩ f t :=
  ⟨h.fit,h.cells,h.opened,hn,h.aside⟩

/-- A change that leaves the cell as it is. -/
theorem Shows.unchanged {F : Cell → Cell} (h : Shows g e o f (s,d)) (hF : F (s.cell d unit) = s.cell d unit) :
    Shows g e o (changed f unit F) (s,d) := by
  refine ⟨h.fit,fun v => ?_,h.opened,h.names,h.aside⟩
  by_cases hv : v = unit
  · subst hv
    have hcell := changed_self (F := F) (h.cells v)
    rwa [hF] at hcell
  · rw [changed_of_ne hv]
    exact h.cells v

theorem Fit.length_cell (h : Fit g e (s,d)) (unit : ℕ) : (s.cell d unit).bytes.length = g.slotSize := by
  obtain rfl : s.geometry = g := h.geometry
  unfold cell
  cases hs : s.shards[(s.geometry.shardOfUnit unit).1]? with
  | none => exact List.length_replicate
  | some shard =>
    exact Splice.length_window (Nat.le_trans (h.sane.slot_le unit) (h.shards _ shard hs).size)

theorem cell_of_shard {shard : Shard} (hs : s.shards[(s.geometry.shardOfUnit unit).1]? = some shard) :
    s.cell d unit = shard.cell s.geometry (d.inodes shard.data).image (s.geometry.shardOfUnit unit).2 := by
  simp only [cell,hs]

/-- Bytes written inside a slot change the cell of its unit. -/
theorem Shows.writeBytes (h : Shows g e o f (s,d)) {shard : Shard} (offset : ℕ) (bytes : Bytes)
    (hs : s.shards[(g.shardOfUnit unit).1]? = some shard) (hin : offset+bytes.length ≤ g.slotSize) :
    Shows g e o (changed f unit fun c => { c with bytes := Splice.splice offset bytes c.bytes })
      (s,Io.written shard.data (g.slotOffset (g.shardOfUnit unit).2+offset) bytes d) := by
  have hlen := h.fit.length_cell unit
  by_cases hnil : bytes = []
  · subst hnil
    simp only [Io.written,if_true]
    have hself : Splice.splice offset [] (s.cell d unit).bytes = (s.cell d unit).bytes := by
      simp only [List.length_nil,Nat.add_zero] at hin
      refine Splice.splice_eq_self ?_ ?_
      · simp only [List.length_nil]
        omega
      · intro i hi
        simp at hi
    exact h.unchanged (by rw [hself])
  · simp only [Io.written,if_neg hnil]
    have hsize := (h.fit.shards _ shard hs).size
    refine h.file hs (F := Inode.push (.Write _ bytes)) ?_ (fun v hv => ?_) fun v hv c hc => ?_
    · simp only [Inode.push,Pend.apply,Splice.length_splice]
      exact Nat.le_trans hsize (Nat.le_max_left _ _)
    · have hle := Nat.le_trans (h.fit.sane.slot_le v) hsize
      have hcell := h.cells v
      obtain rfl : s.geometry = g := h.fit.geometry
      simp only [cell_of_shard (hv ▸ hs)] at hcell
      by_cases hvu : v = unit
      · subst hvu
        have hchanged := changed_self (F := fun c => { c with bytes := Splice.splice offset bytes c.bytes })
          hcell
        simpa only [Shard.cell,Inode.push,Pend.apply,Splice.window_splice_inside hle hin] using hchanged
      · have hslot : (s.geometry.shardOfUnit v).2 ≠ (s.geometry.shardOfUnit unit).2 := fun heq =>
          hvu (Geometry.shardOfUnit_inj (Prod.ext hv heq))
        rw [changed_of_ne hvu]
        simp only [Shard.cell,Inode.push,Pend.apply] at hcell ⊢
        rw [Splice.window_splice_apart hle ?_]
        · exact hcell
        · rcases Geometry.slots_apart (g := s.geometry) hslot with hap | hap
          · left
            omega
          · right
            omega
    · have hne : v ≠ unit := fun heq => hv (heq ▸ rfl)
      rwa [changed_of_ne hne]

theorem Shows.modifyBits (h : Shows g e o f (s,d)) {index : ℕ} {F : Shard → Shard} {shard : Shard}
    (hs : s.shards[index]? = some shard) (hF : (F shard).Kin shard)
    (hcells : ∀ v, (g.shardOfUnit v).1 = index →
      f v (shard.cell g (d.inodes shard.data).image (g.shardOfUnit v).2) →
      f' v ((F shard).cell g (d.inodes shard.data).image (g.shardOfUnit v).2))
    (hrest : ∀ v, (g.shardOfUnit v).1 ≠ index → ∀ c, f v c → f' v c) :
    Shows g e o f' (s.modifyShard index F,d) := by
  have hget := getElem?_modifyShard s index F
  refine ⟨⟨h.fit.sane,h.fit.geometry,h.fit.enabled,h.fit.catalogAb,h.fit.wf,?_,?_⟩,?_,?_,?_,h.aside⟩
  · intro i sh hi
    simp only [hget] at hi
    split at hi
    · rename_i heq
      subst heq
      obtain rfl : F shard = sh := by simpa [hs] using hi
      exact (h.fit.shards i shard hs).kin hF
    · exact h.fit.shards i sh hi
  · intro i j hn hi
    simp only [hget] at hi
    split at hi
    · exact h.fit.fresh i j hn (Option.map_eq_none_iff.mp hi)
    · exact h.fit.fresh i j hn hi
  · intro v
    have hcell := h.cells v
    obtain rfl : s.geometry = g := h.fit.geometry
    have hgeo : (s.modifyShard index F).geometry = s.geometry := rfl
    by_cases hv : (s.geometry.shardOfUnit v).1 = index
    · rw [cell_of_shard (hv ▸ hs)] at hcell
      simp only [cell,hgeo,hget,if_pos hv,hv ▸ hs,Option.map_some,hF.data]
      exact hcells v hv hcell
    · have hsame : (s.modifyShard index F).cell d v = s.cell d v := by
        simp only [cell,hgeo,hget,if_neg hv]
      rw [hsame]
      exact hrest v hv _ hcell
  · intro p hp
    obtain ⟨hnone,hrest'⟩ := h.opened p hp
    refine ⟨?_,hrest'⟩
    simp only [hget,hnone,Option.map_none,ite_self]
  · intro i x hi
    obtain ⟨sh,hsh,hx⟩ := h.names i x hi
    rw [Names,hget,hsh]
    by_cases heq : i = index
    · subst heq
      obtain rfl := Option.some.inj (hs.symm.trans hsh)
      exact ⟨F shard,by rw [if_pos rfl,Option.map_some],hF.data.trans hx⟩
    · exact ⟨sh,if_neg heq,hx⟩

end State

section Calls

variable [Crc32] {g : Geometry} {e : Bool} {o : Handles} {n : ℕ → InodeId → Prop}
  {x : Foreign}
  {f : ℕ → Cell → Prop} {s : SlotStore} {d : Disk} {unit : ℕ}

/-- Header and payload of a slot, written by a program whose state holds the store. A failed write
may leave anything in this cell. -/
theorem writeSlotAt_triple {μ : Type} {π : μ → SlotStore} {m : μ} (hs : Shows g e o f (π m,d))
    {shard : Shard} (sequence : ℕ) {ciphertext : Bytes}
    (hshard : (π m).shards[(g.shardOfUnit unit).1]? = some shard)
    (hlen : ciphertext.length ≤ g.maxCiphertextSize) :
    Ends (· = (m,d))
      (writeSlotAt shard.data (g.slotOffset (g.shardOfUnit unit).2) unit sequence ciphertext)
      (fun _ t => t.1 = m ∧ Shows g e o (changed f unit (Cell.write unit sequence ciphertext)) (π m,t.2))
      (fun t => t.1 = m ∧ Shows g e o (forget f unit) (π m,t.2)) := by
  have hslot := hs.fit.sane.slot
  have hforget : Shows g e o (forget f unit) (π m,d) := hs.mono forget_of
  -- The header first: whole or a part of it.
  have hhead : ∀ k, Shows g e o (changed f unit fun c => { c with
      bytes := Splice.splice 0 ((slotHeaderOf unit sequence ciphertext).encode.take k) c.bytes })
      (π m,Io.written shard.data (g.slotOffset (g.shardOfUnit unit).2)
        ((slotHeaderOf unit sequence ciphertext).encode.take k) d) := by
    intro k
    refine hs.writeBytes 0 _ hshard ?_
    simp only [List.length_take,SlotHeader.length_encode,slotHeaderSize]
    omega
  have hheader : Ends (· = (m,d))
      (coreIo (Io.writeAt shard.data (g.slotOffset (g.shardOfUnit unit).2)
        (slotHeaderOf unit sequence ciphertext).encode) : Io μ CoreError Unit)
      (fun _ t => t.1 = m ∧ Shows g e o (changed f unit fun c => { c with
        bytes := Splice.splice 0 (slotHeaderOf unit sequence ciphertext).encode c.bytes }) (π m,t.2))
      (fun t => t.1 = m ∧ Shows g e o (forget f unit) (π m,t.2)) := by
    apply Triple.mapErr
    refine Io.writeAt_triple ?_ ?_ fun _ ht => ht ▸ ⟨rfl,hforget⟩
    · rintro _ _ ⟨⟩
      refine ⟨rfl,?_⟩
      have hall := hhead (slotHeaderOf unit sequence ciphertext).encode.length
      rwa [List.take_length] at hall
    · rintro _ _ k ⟨⟩
      exact ⟨rfl,(hhead k).mono (forget_of_changed fun _ => ⟨rfl,rfl⟩)⟩
  refine .bind hheader fun _ => ?_
  apply Triple.mapErr
  refine Io.writeAt_triple ?_ ?_ ?_
  · rintro m' d' ⟨rfl,ht⟩
    have hpayload := ht.writeBytes 64 ciphertext hshard (by omega)
    exact ⟨rfl,hpayload.mono changed_changed⟩
  · rintro m' d' k ⟨rfl,ht⟩
    have hin : 64+(ciphertext.take k).length ≤ g.slotSize := by
      simp only [List.length_take]
      omega
    have hpart := (ht.writeBytes 64 _ hshard hin).mono changed_changed
    exact ⟨rfl,hpart.mono (forget_of_changed fun _ => ⟨rfl,rfl⟩)⟩
  · rintro ⟨m',d'⟩ ⟨rfl,ht⟩
    exact ⟨rfl,ht.mono (forget_of_changed fun _ => ⟨rfl,rfl⟩)⟩

variable [HashOrder]

omit [Crc32] [HashOrder] in
theorem Shows.setCell (h : Shows g e o f (s,d)) {shard : Shard}
    (hs : s.shards[(g.shardOfUnit unit).1]? = some shard) {F : Shard → Shard} {G : Cell → Cell}
    (hF : (F shard).Kin shard)
    (hself : ∀ file, (F shard).cell g file (g.shardOfUnit unit).2 = G (shard.cell g file (g.shardOfUnit unit).2))
    (hother : ∀ file k, k ≠ (g.shardOfUnit unit).2 → (F shard).cell g file k = shard.cell g file k) :
    Shows g e o (changed f unit G) (s.modifyShard (g.shardOfUnit unit).1 F,d) := by
  refine h.modifyBits hs hF (fun v hv hc => ?_) fun v hv c hc => ?_
  · by_cases hvu : v = unit
    · subst hvu
      rw [hself]
      exact changed_self hc
    · have hslot : (g.shardOfUnit v).2 ≠ (g.shardOfUnit unit).2 := fun heq =>
        hvu (Geometry.shardOfUnit_inj (Prod.ext hv heq))
      rwa [changed_of_ne hvu,hother _ _ hslot]
  · have hvu : v ≠ unit := fun heq => hv (heq ▸ rfl)
    rwa [changed_of_ne hvu]

theorem markAllocated_triple :
    Ends (Shows g e ⟨none,n,x⟩ f) (markAllocated unit)
      (fun _ => Shows g e ⟨none,n,x⟩ (changed f unit fun c => { c with allocated := true }))
      (Shows g e ⟨none,n,x⟩ f) := by
  apply Triple.ofEach
  rintro ⟨s,d⟩ hs
  obtain rfl : s.geometry = g := hs.fit.geometry
  unfold markAllocated
  apply Triple.get_bind
  refine .ofExcept_bind (fun _ hvalid => ?_) fun _ _ _ ht => ht ▸ hs
  refine .bind (Triple.strengthen (ensureShard_shows (hs.fit.shard_lt hvalid))
      (fun _ ht => ht ▸ hs)) fun _ => ?_
  refine withShard_triple (fun s' d' shard hs' hshard => ?_) fun _ _ _ hs' _ => hs'
  replace hshard : s'.shards[(s.geometry.shardOfUnit unit).1]? = some shard := hshard
  have hin : unit % s.geometry.unitsPerShard < shard.alloc.units := by
    rw [(hs'.fit.shards _ shard hshard).units]
    exact hs'.fit.sane.inShard unit
  refine .when (fun hclear => ?_) fun t hset ht => ?_
  · refine .modify fun t ht => ?_
    subst ht
    refine hs'.setCell hshard ⟨rfl,rfl,rfl,rfl,rfl⟩ (fun file => ?_) fun file k hk => ?_
    · simp only [Shard.cell,Geometry.shardOfUnit,AllocationMap.get_set hin,if_true,Shard.discarded]
    · simp only [Geometry.shardOfUnit] at hk
      simp only [Shard.cell,AllocationMap.get_set hin,if_neg hk,Shard.discarded]
  · -- The bit was set already.
    subst ht
    have hgeo : s'.geometry = s.geometry := hs'.fit.geometry
    have hbit : (s'.cell d' unit).allocated = true := by
      simp only [cell,hgeo,hshard,Shard.cell]
      simpa only [Geometry.shardOfUnit,Bool.not_eq_eq_eq_not,Bool.not_false] using hset
    exact hs'.unchanged (by rw [← hbit])

omit [Crc32] [HashOrder] in
theorem setDiscarded_triple (b : Bool) :
    Ends (Shows g e o f) (setDiscarded unit b)
      (fun _ t => Shows g e o (changed f unit fun c => { c with discarded := b }) t ∧ e = true)
      (Shows g e o f) := by
  apply Triple.ofEach
  rintro ⟨s,d⟩ hs
  obtain rfl : s.geometry = g := hs.fit.geometry
  unfold setDiscarded
  apply Triple.get_bind
  simp only
  by_cases hen : s.discardEnabled
  · have he : e = true := hs.fit.enabled ▸ hen
    simp only [hen,Bool.not_true,Bool.false_eq_true,if_false]
    cases hshard : s.shards[(s.geometry.shardOfUnit unit).1]? with
    | none => exact .throw fun _ ht => ht ▸ hs
    | some shard =>
      have hfit := hs.fit.shards _ shard hshard
      obtain ⟨map,hmap⟩ := Option.isSome_iff_exists.mp (hfit.discard he)
      have hunits := hfit.discardSize map hmap
      have hin : (s.geometry.shardOfUnit unit).2 < map.units := hunits ▸ hs.fit.sane.inShard unit
      simp only [hmap]
      by_cases hget : map.get (s.geometry.shardOfUnit unit).2 = b
      · simp only [if_pos hget]
        refine .pure fun t ht => ⟨?_,he⟩
        subst ht
        have hbit : (s.cell d unit).discarded = b := by
          simp only [cell,hshard,Shard.cell,Shard.discarded,hmap,Option.any_some,hget]
        exact hs.unchanged (by rw [← hbit])
      · simp only [if_neg hget]
        refine .modify fun t ht => ⟨?_,he⟩
        subst ht
        refine hs.setCell hshard ⟨rfl,rfl,rfl,?_,rfl⟩ (fun file => ?_) fun file k hk => ?_
        · simp only [hmap,Option.map_some,AllocationMap.units_set]
        · simp only [Shard.cell,Shard.discarded,Option.any_some,AllocationMap.get_set hin,if_true]
        · simp only [Shard.cell,Shard.discarded,Option.any_some,AllocationMap.get_set hin,if_neg hk,hmap]
  · simp only [hen,Bool.not_false,if_true]
    exact .throw fun _ ht => ht ▸ hs

omit [Crc32] [HashOrder] in
/-- Queueing an unwritten slot changes nothing that survives a discard of it. -/
theorem reclaimUnwritten_shows (hclosed : e = true → ∀ c, f unit c → f unit { c with discarded := true }) :
    Keeps (Shows g e o f) (reclaimUnwritten unit) := by
  unfold reclaimUnwritten
  apply Keeps.get_bind
  rintro ⟨s,d⟩ hs
  refine Keeps.from_state ?_ hs
  simp only
  by_cases hc : s.shards.contains (s.geometry.shardOfUnit unit).1
  · simp only [if_pos hc]
    refine Keeps.bind ?_ fun _ => update_shows fun _ _ hs' => hs'.congr rfl rfl rfl rfl
    refine (setDiscarded_triple true).weakenOk (fun _ t ht => ht.1.mono fun v c hv => ?_)
    have he := ht.2
    by_cases hvu : v = unit
    · subst hvu
      rw [changed,Function.update_self] at hv
      obtain ⟨c₀,hc₀,rfl⟩ := hv
      exact hclosed he c₀ hc₀
    · rwa [changed_of_ne hvu] at hv
  · simp only [if_neg hc]
    exact .pure ()

end Calls

section Punching

variable {g : Geometry} {e : Bool} {o : Handles} {f : ℕ → Cell → Prop} {s : SlotStore} {d : Disk}
  {index : ℕ}

/-- Cells of which some are known to be discarded. -/
def struck (f : ℕ → Cell → Prop) (units : List ℕ) (unit : ℕ) (c : Cell) : Prop :=
  f unit c ∧ (unit ∈ units → c.discarded = true)

variable {slots units : List ℕ}

theorem mem_of_slotRuns {run : ℕ × ℕ} (h : run ∈ slotRuns slots) {j : ℕ}
    (hlo : run.1 ≤ j) (hhi : j < run.1+run.2) : j ∈ slots := by
  induction slots generalizing run with
  | nil => cases h
  | cons slot rest ih =>
    simp only [slotRuns] at h
    cases hr : slotRuns rest with
    | nil =>
      simp only [hr,List.mem_singleton] at h
      subst h
      have hj : j = slot := by
        simp only at hlo hhi
        omega
      simp [hj]
    | cons first runs =>
      obtain ⟨a,count⟩ := first
      have hfirst : (a,count) ∈ slotRuns rest := hr ▸ List.mem_cons_self
      have hruns : ∀ x ∈ runs, x ∈ slotRuns rest := fun x hx => hr ▸ List.mem_cons_of_mem _ hx
      simp only [hr] at h
      split at h
      · rename_i heq
        rcases List.mem_cons.mp h with rfl | h
        · by_cases hj : j = slot
          · simp [hj]
          · simp only at hlo hhi
            exact List.mem_cons_of_mem _ (ih hfirst (by simp only; omega) (by simp only; omega))
        · exact List.mem_cons_of_mem _ (ih (hruns run h) hlo hhi)
      · rcases List.mem_cons.mp h with rfl | h
        · have hj : j = slot := by
            simp only at hlo hhi
            omega
          simp [hj]
        · rcases List.mem_cons.mp h with rfl | h
          · exact List.mem_cons_of_mem _ (ih hfirst hlo hhi)
          · exact List.mem_cons_of_mem _ (ih (hruns run h) hlo hhi)

theorem mem_byShard
    (h : (byShard g units)[index]? = some slots) {j : ℕ} (hj : j ∈ slots) :
    ∃ unit ∈ units, g.shardOfUnit unit = (index,j) := by
  -- Folded from the left: the groups so far come from the start map or from units seen.
  have hfold : ∀ (rest : List ℕ) (m : Std.TreeMap ℕ (List ℕ)) (slots : List ℕ),
      (rest.foldl (fun m unit => m.alter (g.shardOfUnit unit).1 fun slots =>
        some (slots.getD [] ++ [(g.shardOfUnit unit).2])) m)[index]? = some slots → j ∈ slots →
      (∃ unit ∈ rest, g.shardOfUnit unit = (index,j)) ∨ ∃ old, m[index]? = some old ∧ j ∈ old := by
    intro rest
    induction rest with
    | nil => exact fun m slots hm hj => .inr ⟨slots,hm,hj⟩
    | cons unit rest ih =>
      intro m slots hm hj
      rcases ih _ slots hm hj with ⟨u,hu,hshard⟩ | ⟨old,hold,hjo⟩
      · exact .inl ⟨u,List.mem_cons_of_mem _ hu,hshard⟩
      · rw [Std.TreeMap.getElem?_alter] at hold
        split at hold
        · rename_i heq
          rw [Nat.compare_eq_eq] at heq
          cases hold
          rcases List.mem_append.mp hjo with hjo | hjo
          · cases hm' : m[(g.shardOfUnit unit).1]? with
            | none => simp [hm'] at hjo
            | some old =>
              simp only [hm',Option.getD_some] at hjo
              exact .inr ⟨old,heq ▸ hm',hjo⟩
          · rw [List.mem_singleton] at hjo
            exact .inl ⟨unit,List.mem_cons_self,Prod.ext heq hjo.symm⟩
        · exact .inr ⟨old,hold,hjo⟩
  rcases hfold units ∅ slots h hj with hu | ⟨old,hold,-⟩
  · exact hu
  · simp at hold

theorem Shows.punch (hblind : Blind f) (h : Shows g e o (struck f units) (s,d))
    {shard : Shard} (hs : s.shards[index]? = some shard) {first count k : ℕ}
    (hrun : ∀ j, first ≤ j → j < first+count → ∃ unit ∈ units, g.shardOfUnit unit = (index,j))
    (hk : k ≤ g.slotSize*count) :
    Shows g e o (struck f units)
      (s,d.push shard.data (.Write (g.slotOffset first) (List.replicate k 0))) := by
  have hsize := (h.fit.shards index shard hs).size
  refine h.file hs (F := Inode.push (.Write _ (List.replicate k 0))) ?_ (fun v hv => ?_) fun _ _ _ hc => hc
  · simp only [Inode.push,Pend.apply,Splice.length_splice]
    exact Nat.le_trans hsize (Nat.le_max_left _ _)
  · have hle := Nat.le_trans (h.fit.sane.slot_le v) hsize
    have hcell := h.cells v
    obtain rfl : s.geometry = g := h.fit.geometry
    simp only [cell_of_shard (hv ▸ hs)] at hcell
    by_cases hin : first ≤ (s.geometry.shardOfUnit v).2 ∧ (s.geometry.shardOfUnit v).2 < first+count
    · -- A slot of the run: its unit is discarded.
      obtain ⟨u,hu,hshard⟩ := hrun _ hin.1 hin.2
      obtain rfl : u = v := Geometry.shardOfUnit_inj (hshard.trans (Prod.ext hv.symm rfl))
      obtain ⟨hf,hd⟩ := hcell
      exact ⟨hblind u _ _ (hd hu) hf,fun _ => hd hu⟩
    · simp only [Shard.cell,Inode.push,Pend.apply] at hcell ⊢
      rw [Splice.window_splice_apart hle ?_]
      · exact hcell
      · simp only [List.length_replicate,Geometry.slotOffset]
        rcases Nat.lt_or_ge (s.geometry.shardOfUnit v).2 first with hlt | hge
        · left
          have hmul : ((s.geometry.shardOfUnit v).2+1)*s.geometry.slotSize ≤ first*s.geometry.slotSize :=
            Nat.mul_le_mul_right _ hlt
          rwa [Nat.succ_mul] at hmul
        · right
          have hmul : (first+count)*s.geometry.slotSize ≤
              (s.geometry.shardOfUnit v).2*s.geometry.slotSize :=
            Nat.mul_le_mul_right _ (by omega)
          rw [Nat.add_mul,Nat.mul_comm count] at hmul
          omega

theorem Shows.strike (h : Shows g e o f (s,d))
    (hd : ∀ unit ∈ units, (s.cell d unit).discarded = true) : Shows g e o (struck f units) (s,d) :=
  ⟨h.fit,fun unit => ⟨h.cells unit,hd unit⟩,h.opened,h.names,h.aside⟩

theorem punchRun_shows (hblind : Blind f) {i : InodeId} {run : ℕ × ℕ}
    (hrun : ∀ j, run.1 ≤ j → j < run.1+run.2 → ∃ unit ∈ units, g.shardOfUnit unit = (index,j)) :
    Keeps (fun t => Shows g e o (struck f units) t ∧ Names index i t.1)
      (punchRun g i run : Io SlotStore CoreError Bool) := by
  unfold punchRun checkedMul
  by_cases hmul : g.slotSize*run.2 < 2^64
  · simp only [if_pos hmul]
    refine ((Io.Still.fp _).mapErr _).keeps.bind fun _ => ?_
    refine .bind (Keeps.mapErr (Io.optional_triple ?_) _) fun _ => .pure _
    refine Io.punchHole_triple ?_ (fun _ ht => ht) (fun x t ht => ?_) fun _ ht => ht
    · rintro s d k ⟨hs,shard,hshard,rfl⟩ hk
      exact ⟨hs.punch hblind hshard hrun hk,shard,hshard,rfl⟩
    · split
      · exact ht
      · exact ht
  · simp only [if_neg hmul]
    exact .throw _

theorem punchRuns_shows (hblind : Blind f) {i : InodeId} {runs : List (ℕ × ℕ)}
    (hruns : ∀ run ∈ runs, ∀ j, run.1 ≤ j → j < run.1+run.2 →
      ∃ unit ∈ units, g.shardOfUnit unit = (index,j)) :
    Keeps (fun t => Shows g e o (struck f units) t ∧ Names index i t.1)
      (punchRuns g i runs : Io SlotStore CoreError Bool) := by
  induction runs with
  | nil => exact .pure _
  | cons run runs ih =>
    exact (punchRun_shows hblind (hruns run List.mem_cons_self)).bind fun _ =>
      (ih fun r hr => hruns r (List.mem_cons_of_mem _ hr)).bind fun _ => .pure _

theorem punchShard_shows (hblind : Blind f)
    (hslots : ∀ j ∈ slots, ∃ unit ∈ units, g.shardOfUnit unit = (index,j)) :
    Keeps (Shows g e o (struck f units)) (punchShard index slots) := by
  unfold punchShard
  apply Keeps.get_bind
  rintro ⟨s,d⟩ hs
  obtain rfl : s.geometry = g := hs.fit.geometry
  simp only
  cases hshard : s.shards[index]? with
  | none => exact .throw fun _ ht => ht ▸ hs
  | some shard =>
    have hruns : ∀ run ∈ slotRuns (slots.insertionSort (· ≤ ·)).dedup, ∀ j, run.1 ≤ j →
        j < run.1+run.2 → ∃ unit ∈ units, s.geometry.shardOfUnit unit = (index,j) := by
      intro run hrun j hlo hhi
      have hj := mem_of_slotRuns hrun hlo hhi
      rw [List.mem_dedup,List.mem_insertionSort] at hj
      exact hslots j hj
    refine .bind ((punchRuns_shows hblind hruns).conseq (fun _ ht => ?_) (fun _ _ ht => ht.1)
      (fun _ _ ht => ht.1) fun _ ht => ht.1) fun _ => Keeps.when (syncData_shows shard.data)
    subst ht
    exact ⟨hs,shard,hshard,rfl⟩

theorem punchSlots_shows (hblind : Blind f) :
    Keeps (Shows g e o (struck f units)) (punchSlots units) := by
  unfold punchSlots
  apply Keeps.get_bind
  rintro ⟨s,d⟩ hs
  obtain rfl : s.geometry = g := hs.fit.geometry
  refine Keeps.from_state (Keeps.forEach fun group hgroup => ?_) hs
  have hget := Std.TreeMap.mem_toList_iff_getElem?_eq_some.mp hgroup
  exact punchShard_shows hblind fun j hj => mem_byShard hget hj

theorem shardOfUnit_at (hg : g.Sane) (index : ℕ) {inShard : ℕ} (h : inShard < g.unitsPerShard) :
    g.shardOfUnit (index*g.unitsPerShard+inShard) = (index,inShard) := by
  have hpos := hg.units
  simp only [Geometry.shardOfUnit]
  rw [Nat.mul_comm,Nat.mul_add_div hpos,Nat.div_eq_of_lt h,Nat.add_zero,Nat.mul_add_mod,
    Nat.mod_eq_of_lt h]

theorem discarded_punchable (h : Fit g e (s,d)) {shard : Shard} (hs : s.shards[index]? = some shard)
    {map : AllocationMap} (hmap : shard.discard = some map) (hunits : map.units = g.unitsPerShard)
    (canPunch : ℕ → Bool) (start stop : ℕ) (hstop : stop ≤ map.units) :
    ∀ unit ∈ punchableUnits s.geometry canPunch map index start stop,
      (s.cell d unit).discarded = true := by
  obtain rfl : s.geometry = g := h.geometry
  intro unit hunit
  simp only [punchableUnits,List.mem_filter,List.mem_map,List.mem_range'_1] at hunit
  obtain ⟨⟨inShard,⟨hrange,hget⟩,rfl⟩,-⟩ := hunit
  have hin : inShard < s.geometry.unitsPerShard := by omega
  have hat := shardOfUnit_at h.sane index hin
  simp only [cell,hat,hs,Shard.cell,Shard.discarded,hmap,Option.any_some,hget]

/-- One window of the reclamation scan: only slots whose discard bit is set are punched. -/
theorem retryReclamation_shows (hblind : Blind f) (canPunch : ℕ → Bool) :
    Keeps (Shows g e o f) (retryReclamation canPunch) := by
  unfold retryReclamation
  apply Keeps.get_bind
  rintro ⟨s,d⟩ hs
  obtain rfl : s.geometry = g := hs.fit.geometry
  simp only
  cases hcursor : s.reclaimCursor with
  | none => exact Triple.pure fun _ ht => ht ▸ hs
  | some cursor =>
    obtain ⟨shardIdx,start⟩ := cursor
    simp only
    cases hshard : s.shards[shardIdx]? with
    | none => exact Triple.throw fun _ ht => ht ▸ hs
    | some shard =>
      simp only
      by_cases hdirty : shard.dirtyDiscard
      · simp only [if_pos hdirty]
        refine Keeps.from_state (Keeps.bind ?_ fun _ => .throw _) hs
        exact update_shows fun _ _ hs' => hs'.congr rfl rfl rfl rfl
      · simp only [if_neg hdirty]
        cases hmap : shard.discard with
        | none => exact Triple.throw fun _ ht => ht ▸ hs
        | some map =>
          simp only
          have hunits := (hs.fit.shards shardIdx shard hshard).discardSize map hmap
          have hstruck := hs.strike (discarded_punchable hs.fit hshard hmap hunits canPunch start
            (min (min (start+reclamationWindow) u64Max) map.units) (Nat.min_le_right _ _))
          have hweak : ∀ {t : SlotStore × Disk} {units : List ℕ},
              Shows s.geometry e o (struck f units) t → Shows s.geometry e o f t :=
            fun ht => ht.mono fun _ _ hc => hc.1
          refine Keeps.after ?_ fun _ => ?_
          · refine Triple.conseq (Keeps.onError (punchSlots_shows hblind) ?_)
              (fun _ ht => ht ▸ hstruck) (fun _ _ ht => hweak ht) (fun _ _ ht => hweak ht)
              fun _ ht => hweak ht
            exact fun _ ht => ht.congr rfl rfl rfl rfl
          · exact update_shows fun _ _ hs' => hs'.congr rfl rfl rfl rfl

end Punching

/-- A target is the slot of its unit, in the file of its shard. -/
def AimsAt (g : Geometry) (s : SlotStore) (target : CheckpointSlotTarget) : Prop :=
  target.offset = g.slotOffset (g.shardOfUnit target.unit).2 ∧
    Names (g.shardOfUnit target.unit).1 target.data s

def planned (g : Geometry) (targets : List CheckpointSlotTarget) (index : ℕ) (i : InodeId) : Prop :=
  ∃ target ∈ targets, (g.shardOfUnit target.unit).1 = index ∧ target.data = i

section Plans

variable [Crc32] {g : Geometry} {e : Bool} {n : ℕ → InodeId → Prop} {x : Foreign}
  {f : ℕ → Cell → Prop}

theorem checkpointSlotTarget_triple (unit : ℕ) :
    Ends (Shows g e ⟨none,n,x⟩ f) (checkpointSlotTarget unit)
      (fun target t => Shows g e ⟨none,n,x⟩ f t ∧ target.unit = unit ∧ AimsAt g t.1 target)
      (Shows g e ⟨none,n,x⟩ f) := by
  apply Triple.ofEach
  rintro ⟨s,d⟩ hs
  obtain rfl : s.geometry = g := hs.fit.geometry
  unfold checkpointSlotTarget
  apply Triple.get_bind
  simp only
  by_cases hc : s.shards.contains (s.geometry.shardOfUnit unit).1
  · simp only [if_pos hc]
    refine .bind (proveDataFile_shows.from_state hs) fun _ => ?_
    refine withShard_triple (fun s' d' shard hs' hshard => ?_) fun _ _ _ hs' _ => hs'
    exact .pure fun t ht => by
      subst ht
      exact ⟨hs',rfl,rfl,shard,hshard,rfl⟩
  · simp only [if_neg hc]
    exact .throw fun _ ht => ht ▸ hs

theorem checkpointSlotTargets_triple (units : List ℕ) :
    Ends (Shows g e ⟨none,n,x⟩ f) (checkpointSlotTargets units)
      (fun targets t => Shows g e ⟨none,n,x⟩ f t ∧ targets.map (·.unit) = units ∧
        ∀ target ∈ targets, AimsAt g t.1 target)
      (Shows g e ⟨none,n,x⟩ f) := by
  induction units generalizing n with
  | nil => exact .pure fun _ hs => ⟨hs,rfl,by simp⟩
  | cons unit units ih =>
    -- The handle of a target found is one more to be kept.
    refine .bind (checkpointSlotTarget_triple unit) fun target => ?_
    apply Triple.ofEach
    rintro t ⟨hs,hunit,hoff,hname⟩
    have hs' : Shows g e ⟨none,fun index i => n index i ∨ planned g [target] index i,x⟩ f t := by
      refine hs.renames fun index i hi => ?_
      rcases hi with hi | ⟨_,hmem,rfl,rfl⟩
      · exact hs.names index i hi
      · rw [List.mem_singleton] at hmem
        exact hmem ▸ hname
    have hback : ∀ {t : SlotStore × Disk},
        Shows g e ⟨none,fun index i => n index i ∨ planned g [target] index i,x⟩ f t →
        Shows g e ⟨none,n,x⟩ f t := fun ht => ht.renames fun index i hi => ht.names index i (.inl hi)
    refine .bind ((ih (n := fun index i => n index i ∨ planned g [target] index i)).conseq
      (fun _ ht => ht ▸ hs') (fun _ _ ht => ht) (fun _ _ ht => hback ht) fun _ ht => hback ht) fun targets => ?_
    refine .pure fun t' ht => ?_
    obtain ⟨ht,hunits,haims⟩ := ht
    refine ⟨hback ht,by rw [List.map_cons,hunit,hunits],List.forall_mem_cons.mpr ⟨?_,haims⟩⟩
    exact ⟨hoff,ht.names _ _ (.inr ⟨_,List.mem_singleton.mpr rfl,rfl,rfl⟩)⟩

theorem checkpointSlotPlan_triple (units : List ℕ) :
    Ends (Shows g e ⟨none,n,x⟩ f) (checkpointSlotPlan units)
      (fun plan t => Shows g e ⟨none,n,x⟩ f t ∧ plan.targets.map (·.unit) = units ∧
        plan.maxCiphertextSize = g.maxCiphertextSize ∧ ∀ target ∈ plan.targets, AimsAt g t.1 target)
      (Shows g e ⟨none,n,x⟩ f) := by
  unfold checkpointSlotPlan
  refine .bind (checkpointSlotTargets_triple units) fun targets => ?_
  apply Triple.ofEach
  rintro ⟨s,d⟩ ⟨hs,hunits,haims⟩
  apply Triple.get_bind
  refine .pure fun t ht => ?_
  subst ht
  exact ⟨hs,hunits,by rw [hs.fit.geometry],haims⟩

end Plans
end SlotStore
end Maki
