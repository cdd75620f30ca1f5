import Maki.SlotCells
import Maki.AbRun

/-! What the calls of the slot store do to the cells of the volume. The maps, the catalog and
the syncs change none; a slot write changes the bytes of its own cell, marking and discarding
change one bit, and punching changes bytes of discarded cells only. A call that fails has
changed no cell but the one it was writing. -/
namespace Maki

open Prog hiding pure bind throw get modify

/-- Every name but those of data files. -/
def Path.IsMeta (p : Path) : Prop := ∀ i, p ≠ .shardData i

theorem Path.not_isMeta (i : ℕ) : ¬ (Path.shardData i).IsMeta := fun h => h i rfl

/-- Every name but those of data files and journal segments. -/
def Path.IsMap (p : Path) : Prop := p.IsMeta ∧ ∀ i, p ≠ .journalSegment i

theorem Path.not_isMap (i : ℕ) : ¬ (Path.shardData i).IsMap := fun h => h.1 i rfl

/-- Two shards of the same files and sizes. -/
structure Shard.Kin (a b : Shard) : Prop where
  units : a.alloc.units = b.alloc.units
  allocAb : a.allocAb = b.allocAb
  data : a.data = b.data
  discardUnits : a.discard.map AllocationMap.units = b.discard.map AllocationMap.units
  discardAb : a.discardAb = b.discardAb

/-- Two shards that differ in flags and generations only. -/
structure Shard.Alike (a b : Shard) : Prop where
  units : a.alloc.units = b.alloc.units
  bits : ∀ k, a.alloc.get k = b.alloc.get k
  allocAb : a.allocAb = b.allocAb
  data : a.data = b.data
  discarded : ∀ k, a.discarded k = b.discarded k
  discardUnits : a.discard.map AllocationMap.units = b.discard.map AllocationMap.units
  discardAb : a.discardAb = b.discardAb

theorem Shard.Alike.refl (a : Shard) : a.Alike a :=
  ⟨rfl,fun _ => rfl,rfl,rfl,fun _ => rfl,rfl,rfl⟩

theorem Shard.Alike.kin {a b : Shard} (h : a.Alike b) : a.Kin b := { h with }

theorem Shard.Alike.cell_eq {a b : Shard} (h : a.Alike b) (g : Geometry) (file : Bytes) (k : ℕ) :
    a.cell g file k = b.cell g file k := by
  simp only [Shard.cell,h.bits,h.discarded]

namespace SlotStore

def Names (index : ℕ) (i : InodeId) (s : SlotStore) : Prop :=
  ∃ shard : Shard, s.shards[index]? = some shard ∧ shard.data = i

/-- A file that is no data file. -/
def Aside (d : Disk) (i : InodeId) : Prop :=
  i ≤ d.nextInode ∧ ∀ index, d.volatile (.shardData index) ≠ some i

/-- Nothing that a slot store can see has changed. -/
structure Beside (d d' : Disk) : Prop where
  wf : d'.Wf
  next : d.nextInode ≤ d'.nextInode
  volatile : ∀ index, d'.volatile (.shardData index) = d.volatile (.shardData index)
  inode : ∀ index i, d.volatile (.shardData index) = some i → d'.inodes i = d.inodes i

/-- What a store leaves alone: files of other handles, and journal segments with their bytes. -/
structure Foreign where
  handles : InodeId → Prop
  segments : ℕ → Bytes → Prop

/-- Nothing but these handles. -/
def Foreign.only (handles : InodeId → Prop) : Foreign := ⟨handles,fun _ _ => False⟩

structure Beyond (x : Foreign) (d : Disk) : Prop where
  aside : ∀ i, x.handles i → Aside d i
  segments : ∀ index bytes, x.segments index bytes → d.image (.journalSegment index) = some bytes

/-- The file handles that matter: the data file that is being created, those in use, and those
of files other than data files. -/
structure Handles where
  opening : Option (ℕ × InodeId)
  known : ℕ → InodeId → Prop
  foreign : Foreign

/-- The cells of a store satisfy `f`, and the handles are still those of its shards. -/
structure Shows (g : Geometry) (e : Bool) (o : Handles) (f : ℕ → Cell → Prop)
    (t : SlotStore × Disk) : Prop where
  fit : Fit g e t
  cells : ∀ unit, f unit (t.1.cell t.2 unit)
  opened : ∀ p ∈ o.opening, t.1.shards[p.1]? = none ∧ t.2.volatile (.shardData p.1) = some p.2 ∧
    g.physical ≤ (t.2.inodes p.2).image.length
  names : ∀ index i, o.known index i → Names index i t.1
  aside : Beyond o.foreign t.2

section State

variable {g : Geometry} {e : Bool} {o : Handles} {n : ℕ → InodeId → Prop}
  {x : Foreign} {f : ℕ → Cell → Prop}
  {s s' : SlotStore} {d d' : Disk}

variable {index : ℕ} {shard : Shard} {i : InodeId}

theorem ShardFits.kin {shard' : Shard} (h : ShardFits g e d index shard) (hk : shard'.Kin shard) :
    ShardFits g e d index shard' := by
  refine ⟨hk.units.trans h.units,hk.allocAb.trans h.allocAb,by rw [hk.data,h.data],
    by rw [hk.data]; exact h.size,fun hen => ?_,fun map hm => ?_,fun ab hab => h.discardAb ab (hk.discardAb ▸ hab)⟩
  · have hsome := congrArg Option.isSome hk.discardUnits
    simp only [Option.isSome_map] at hsome
    exact hsome ▸ h.discard hen
  · have hunits := hk.discardUnits
    rw [hm,Option.map_some] at hunits
    obtain ⟨old,hold,hu⟩ := Option.map_eq_some_iff.mp hunits.symm
    rw [← hu]
    exact h.discardSize old hold

theorem Beside.ofApart {P : Path → Prop} (hP : ∀ i, ¬ P (.shardData i)) (h : Disk.Apart P d d') :
    Beside d d' where
  wf := h.wf
  next := h.next
  volatile index := h.volatile _ (hP index)
  inode index i hi := h.inode _ i (hP index) (.inr hi)

theorem Aside.beside (hi : Aside d i) (h : Beside d d') : Aside d' i := by
  refine ⟨Nat.le_trans hi.1 h.next,fun index => ?_⟩
  rw [h.volatile index]
  exact hi.2 index

theorem Beyond.apart (h : Beyond x d) (ha : Disk.Apart Path.IsMap d d') : Beyond x d' where
  aside i hi := (h.aside i hi).beside (.ofApart Path.not_isMap ha)
  segments index bytes hs := by
    have hp : ¬ (Path.journalSegment index).IsMap := fun hp => hp.2 index rfl
    obtain ⟨i,hi,rfl⟩ := Option.map_eq_some_iff.mp (h.segments index bytes hs)
    rw [Disk.image,ha.volatile _ hp,hi,Option.map_some,ha.inode _ i hp (.inr hi)]

theorem Beyond.file (h : Beyond x d) (hd : d.Wf)
    (hi : d.volatile (.shardData index) = some i) (F : Inode → Inode) : Beyond x (d.mapInode i F) where
  aside := h.aside
  segments k bytes hs := by
    obtain ⟨j,hj,rfl⟩ := Option.map_eq_some_iff.mp (h.segments k bytes hs)
    have hne : j ≠ i := by
      rintro rfl
      cases hd.unique _ _ j (.inr hj) (.inr hi)
    rw [Disk.image,Disk.volatile_mapInode,hj,Option.map_some,Disk.inodes_mapInode_of_ne hne]

section Kept

variable (h : Shows g e o f (s,d))

include h

/-- The data files of the shards show what they did. -/
theorem Shows.carry {o' : Handles} (hwf : d'.Wf)
    (hdata : ∀ index (shard : Shard), s.shards[index]? = some shard →
      d'.volatile (.shardData index) = some shard.data ∧
      (d'.inodes shard.data).image = (d.inodes shard.data).image)
    (hfresh : ∀ index i, index < g.numShards → s.shards[index]? = none →
      d'.volatile (.shardData index) = some i → ∀ k, Splice.at_ (d'.inodes i).image k = 0)
    (hopened : ∀ p ∈ o'.opening, s.shards[p.1]? = none ∧ d'.volatile (.shardData p.1) = some p.2 ∧
      g.physical ≤ (d'.inodes p.2).image.length)
    (hnames : o'.known = o.known) (haside : Beyond o'.foreign d') : Shows g e o' f (s,d') where
  fit := { h.fit with
    wf := hwf
    shards := fun index shard hs =>
      have hfit := h.fit.shards index shard hs
      { hfit with data := (hdata index shard hs).1, size := (hdata index shard hs).2 ▸ hfit.size }
    fresh := hfresh }
  cells unit := by
    have hcell := h.cells unit
    simp only [cell] at hcell ⊢
    cases hs : s.shards[(s.geometry.shardOfUnit unit).1]? with
    | none => simpa only [hs] using hcell
    | some shard =>
      simp only [hs] at hcell
      simpa only [(hdata _ shard hs).2] using hcell
  opened := hopened
  names := hnames ▸ h.names
  aside := haside

theorem Shows.beside (hb : Beside d d') {x : Foreign} (hx : Beyond x d') :
    Shows g e ⟨o.opening,o.known,x⟩ f (s,d') := by
  refine h.carry hb.wf (fun index shard hs => ?_) (fun index i hn hs hi => ?_) (fun p hp => ?_) rfl hx
  · have hd := (h.fit.shards index shard hs).data
    exact ⟨(hb.volatile index).trans hd,by rw [hb.inode index _ hd]⟩
  · rw [hb.volatile] at hi
    rw [hb.inode index i hi]
    exact h.fit.fresh index i hn hs hi
  · obtain ⟨hnone,hv,hl⟩ := h.opened p hp
    exact ⟨hnone,(hb.volatile p.1).trans hv,by simpa only [hb.inode _ _ hv] using hl⟩

theorem Shows.apart (ha : Disk.Apart Path.IsMap d d') : Shows g e o f (s,d') :=
  h.beside (.ofApart Path.not_isMap ha) (h.aside.apart ha)

theorem Shows.remap (hg : s'.geometry = s.geometry)
    (he : s'.discardEnabled = s.discardEnabled) (hc : s'.catalogAb = s.catalogAb)
    {F : ℕ → Shard → Shard} (hs : ∀ i, s'.shards[i]? = (s.shards[i]?).map (F i))
    (hF : ∀ i shard, s.shards[i]? = some shard → (F i shard).Alike shard) :
    Shows g e o f (s',d) where
  fit := {
    sane := h.fit.sane
    geometry := hg.trans h.fit.geometry
    enabled := he.trans h.fit.enabled
    catalogAb := hc.trans h.fit.catalogAb
    wf := h.fit.wf
    shards := by
      intro index shard hshard
      simp only [hs] at hshard
      obtain ⟨old,hold,rfl⟩ := Option.map_eq_some_iff.mp hshard
      exact (h.fit.shards index old hold).kin (hF index old hold).kin
    fresh := by
      intro index i hn hnone
      simp only [hs,Option.map_eq_none_iff] at hnone
      exact h.fit.fresh index i hn hnone }
  cells unit := by
    have hcell : s'.cell d unit = s.cell d unit := by
      unfold cell
      simp only [hg,hs]
      cases hold : s.shards[(s.geometry.shardOfUnit unit).1]? with
      | none => rfl
      | some shard =>
        have hlike := hF _ shard hold
        simp only [Option.map_some,hlike.data,hlike.cell_eq]
    simp only [hcell]
    exact h.cells unit
  opened p hp := by
    obtain ⟨hnone,hrest⟩ := h.opened p hp
    exact ⟨by simp only [hs,hnone,Option.map_none],hrest⟩
  names index i hi := by
    obtain ⟨shard,hshard,hdata⟩ := h.names index i hi
    exact ⟨F index shard,by simp only [hs,hshard,Option.map_some],(hF index shard hshard).data.trans hdata⟩
  aside := h.aside

end Kept

theorem getElem?_modifyShard (s : SlotStore) (index : ℕ) (F : Shard → Shard) (i : ℕ) :
    (s.modifyShard index F).shards[i]? = if i = index then (s.shards[i]?).map F else s.shards[i]? := by
  simp only [modifyShard,Std.TreeMap.getElem?_modify]
  by_cases hi : i = index
  · subst hi
    simp
  · have hc : compare index i ≠ .eq := fun h => hi (Nat.compare_eq_eq.mp h).symm
    simp [hi,hc]

theorem Shows.modifyShard (h : Shows g e o f (s,d)) {F : Shard → Shard}
    (hF : ∀ shard, s.shards[index]? = some shard → (F shard).Alike shard) :
    Shows g e o f (s.modifyShard index F,d) := by
  refine h.remap (F := fun i shard => if i = index then F shard else shard)
    rfl rfl rfl (fun i => ?_) fun i shard hs => ?_
  · rw [getElem?_modifyShard]
    by_cases hi : i = index
    · simp only [if_pos hi]
    · simp only [if_neg hi,Option.map_id']
  · by_cases hi : i = index
    · subst hi
      simpa only [if_true] using hF shard hs
    · simpa only [if_neg hi] using Shard.Alike.refl shard

theorem Fit.data_ne (h : Fit g e (s,d)) {q : Path} {j : InodeId}
    (hs : s.shards[index]? = some shard) (hq : d.volatile q = some j) (hne : q ≠ .shardData index) :
    j ≠ shard.data := by
  rintro rfl
  exact hne (h.wf.unique q _ _ (.inr hq) (.inr (h.shards index shard hs).data))

theorem Fit.shard_lt (h : Fit g e (s,d)) {unit : ℕ} {u : Unit} (hv : s.validateUnit unit = .ok u) :
    (s.geometry.shardOfUnit unit).1 < g.numShards := by
  obtain rfl : s.geometry = g := h.geometry
  unfold validateUnit at hv
  split at hv
  · cases hv
  · rename_i hlt
    exact h.sane.shard_lt (Nat.not_le.mp hlt)

theorem Shows.file {f' : ℕ → Cell → Prop} (h : Shows g e o f (s,d))
    (hs : s.shards[index]? = some shard) {F : Inode → Inode}
    (hsize : g.physical ≤ (F (d.inodes shard.data)).image.length)
    (hcells : ∀ unit, (g.shardOfUnit unit).1 = index →
      f' unit (shard.cell g (F (d.inodes shard.data)).image (g.shardOfUnit unit).2))
    (hrest : ∀ unit, (g.shardOfUnit unit).1 ≠ index → ∀ c, f unit c → f' unit c) :
    Shows g e o f' (s,d.mapInode shard.data F) := by
  obtain rfl : s.geometry = g := h.fit.geometry
  have hother : ∀ i (sh : Shard), s.shards[i]? = some sh → i ≠ index →
      (d.mapInode shard.data F).inodes sh.data = d.inodes sh.data := fun i sh hi hne =>
    Disk.inodes_mapInode_of_ne
      (h.fit.data_ne hs (h.fit.shards i sh hi).data fun hp => hne (Path.shardData.inj hp)) F
  refine ⟨{ h.fit with wf := h.fit.wf.mapInode F, shards := ?_, fresh := ?_ },?_,?_,h.names,
    h.aside.file h.fit.wf (h.fit.shards index shard hs).data F⟩
  · intro i sh hi
    have hfit := h.fit.shards i sh hi
    refine { hfit with size := ?_ }
    by_cases hne : i = index
    · subst hne
      obtain rfl : shard = sh := Option.some.inj (hs.symm.trans hi)
      simpa only [Disk.inodes_mapInode_self] using hsize
    · simp only [hother i sh hi hne]
      exact hfit.size
  · intro i j hn hi hj
    have hne : i ≠ index := by
      rintro rfl
      rw [hs] at hi
      cases hi
    have hv : d.volatile (.shardData i) = some j := hj
    simp only [Disk.inodes_mapInode_of_ne (h.fit.data_ne hs hv fun hp => hne (Path.shardData.inj hp))]
    exact h.fit.fresh i j hn hi hj
  · intro unit
    by_cases hu : (s.geometry.shardOfUnit unit).1 = index
    · simp only [cell,hu,hs,Disk.inodes_mapInode_self]
      exact hcells unit hu
    · apply hrest unit hu
      have hcell := h.cells unit
      simp only [cell] at hcell ⊢
      cases hi : s.shards[(s.geometry.shardOfUnit unit).1]? with
      | none => simpa only [hi] using hcell
      | some sh =>
        simp only [hi] at hcell
        simpa only [hother _ sh hi hu] using hcell
  · intro p hp
    obtain ⟨hnone,hv,hl⟩ := h.opened p hp
    refine ⟨hnone,hv,?_⟩
    have hne : p.1 ≠ index := by
      rintro rfl
      rw [hs] at hnone
      cases hnone
    simpa only [Disk.inodes_mapInode_of_ne
      (h.fit.data_ne hs hv fun hp => hne (Path.shardData.inj hp))] using hl

/-- A data file is brought to a size that holds all slots. -/
theorem Shows.setLen (h : Shows g e o f (s,d)) {n : ℕ}
    (hs : s.shards[index]? = some shard) (hn : g.physical ≤ n) :
    Shows g e o f (s,d.push shard.data (.SetLen n)) := by
  have hsize := (h.fit.shards index shard hs).size
  refine h.file hs (F := Inode.push (.SetLen n)) ?_ (fun unit hu => ?_) fun _ _ _ hc => hc
  · simpa only [Inode.push,Pend.apply,Splice.length_resize] using hn
  · have hle := h.fit.sane.slot_le unit
    have hcell := h.cells unit
    obtain rfl : s.geometry = g := h.fit.geometry
    simp only [cell,hu,hs] at hcell
    simp only [Shard.cell,Inode.push,Pend.apply] at hcell ⊢
    rw [Splice.window_resize (Nat.le_trans hle hsize) (Nat.le_trans hle hn)]
    exact hcell

theorem Shows.congr (h : Shows g e o f (s,d)) (hg : s'.geometry = s.geometry)
    (he : s'.discardEnabled = s.discardEnabled) (hc : s'.catalogAb = s.catalogAb)
    (hs : s'.shards = s.shards) : Shows g e o f (s',d) :=
  h.remap (F := fun _ shard => shard) hg he hc (fun i => by rw [hs,Option.map_id'])
    fun _ shard _ => Shard.Alike.refl shard

theorem Shows.modifyShards {F : Shard → Shard} (hF : ∀ shard : Shard, (F shard).Alike shard)
    (indices : List ℕ) (h : Shows g e o f (s,d)) :
    Shows g e o f (indices.foldl (fun s index => s.modifyShard index F) s,d) := by
  induction indices generalizing s with
  | nil => exact h
  | cons index indices ih => exact ih (h.modifyShard fun shard _ => hF shard)

theorem Shows.closed (h : Shows g e o f (s,d)) : Shows g e ⟨none,o.known,o.foreign⟩ f (s,d) where
  fit := h.fit
  cells := h.cells
  opened := by rintro _ ⟨⟩
  names := h.names
  aside := h.aside

theorem Shows.createFile (h : Shows g e ⟨none,n,x⟩ f (s,d)) (hs : s.shards[index]? = none)
    (hv : d.volatile (.shardData index) = none) :
    Shows g e ⟨none,n,x⟩ f (s,d.create (.shardData index)) := by
  have hold : ∀ p i, d.volatile p = some i → p ≠ .shardData index ∧
      (d.create (.shardData index)).volatile p = some i ∧
      (d.create (.shardData index)).inodes i = d.inodes i := by
    intro p i hp
    have hne : p ≠ .shardData index := by
      rintro rfl
      rw [hv] at hp
      cases hp
    refine ⟨hne,by rw [Disk.volatile_create_of_ne hne,hp],Disk.inodes_create_of_ne ?_⟩
    exact Nat.ne_of_lt (Nat.lt_succ_of_le (h.fit.wf.fresh p i (.inr hp)))
  refine h.carry (h.fit.wf.create _) (fun i shard hi => ?_) (fun i j hn hi hj k => ?_) (by rintro _ ⟨⟩) rfl
    ⟨fun j hj => ?_,fun k bytes hk => ?_⟩
  · obtain ⟨-,hvol,hino⟩ := hold _ _ (h.fit.shards i shard hi).data
    exact ⟨hvol,by rw [hino]⟩
  · by_cases hne : i = index
    · subst hne
      rw [Disk.volatile_create] at hj
      cases hj
      simp [Disk.create,Splice.at_]
    · have hp : Path.shardData i ≠ .shardData index := fun hp => hne (Path.shardData.inj hp)
      rw [Disk.volatile_create_of_ne hp] at hj
      simp only [(hold _ _ hj).2.2]
      exact h.fit.fresh i j hn hi hj k
  · obtain ⟨hle,hne⟩ := h.aside.aside j hj
    refine ⟨Nat.le_succ_of_le hle,fun k => ?_⟩
    by_cases hk : k = index
    · subst hk
      simp only [Disk.volatile_create]
      exact fun he => Nat.not_succ_le_self _ (Nat.le_trans (Nat.le_of_eq (Option.some.inj he)) hle)
    · have hp : Path.shardData k ≠ .shardData index := fun hp => hk (Path.shardData.inj hp)
      simp only [Disk.volatile_create_of_ne hp]
      exact hne k
  · obtain ⟨j,hj,rfl⟩ := Option.map_eq_some_iff.mp (h.aside.segments k bytes hk)
    obtain ⟨-,hvol,hino⟩ := hold _ _ hj
    rw [Disk.image,hvol,Option.map_some,hino]

theorem Shows.sizeFile (h : Shows g e ⟨none,n,x⟩ f (s,d))
    (hs : s.shards[index]? = none) (hv : d.volatile (.shardData index) = some i) :
    Shows g e ⟨some (index,i),n,x⟩ f (s,d.push i (.SetLen g.physical)) := by
  have hother : ∀ p j, d.volatile p = some j → p ≠ .shardData index →
      (d.push i (.SetLen g.physical)).inodes j = d.inodes j := by
    intro p j hp hne
    refine Disk.inodes_mapInode_of_ne ?_ _
    rintro rfl
    exact hne (h.fit.wf.unique p _ _ (.inr hp) (.inr hv))
  have hne : ∀ j (shard : Shard), s.shards[j]? = some shard → Path.shardData j ≠ .shardData index := by
    intro j shard hj hp
    rw [Path.shardData.inj hp,hs] at hj
    cases hj
  refine h.carry (h.fit.wf.mapInode _) (fun j shard hj => ?_) (fun j x hn hj hx k => ?_) (fun p hp => ?_) rfl
    (h.aside.file h.fit.wf hv _)
  · have hd := (h.fit.shards j shard hj).data
    exact ⟨hd,by rw [hother _ _ hd (hne j shard hj)]⟩
  · have hx : d.volatile (.shardData j) = some x := hx
    by_cases hji : j = index
    · subst hji
      obtain rfl : i = x := Option.some.inj (hv.symm.trans hx)
      simp only [Disk.push,Disk.inodes_mapInode_self,Inode.push,Pend.apply,Splice.at_resize]
      split
      · exact h.fit.fresh j i hn hj hv k
      · rfl
    · have hp : Path.shardData j ≠ .shardData index := fun hp => hji (Path.shardData.inj hp)
      simp only [hother _ _ hx hp]
      exact h.fit.fresh j x hn hj hx k
  · cases hp
    refine ⟨hs,hv,?_⟩
    simp [Disk.push,Inode.push,Pend.apply]

/-- A new shard shows blank cells, as its units did without it. -/
theorem Shows.insertShard (h : Shows g e ⟨some (index,i),n,x⟩ f (s,d))
    (hindex : index < g.numShards)
    {catalog : ShardCatalog} (hunits : shard.alloc.units = g.unitsPerShard)
    (hbits : ∀ k, shard.alloc.get k = false) (hab : shard.allocAb = allocStore g index)
    (hdata : shard.data = i) (hdiscarded : ∀ k, shard.discarded k = false)
    (hdiscard : e = true → shard.discard.isSome)
    (hdsize : ∀ map ∈ shard.discard, map.units = g.unitsPerShard)
    (hdab : ∀ ab ∈ shard.discardAb, ab = discardStore g index) :
    Shows g e ⟨none,n,x⟩ f ({ s with catalog, shards := s.shards.insert index shard },d) := by
  obtain ⟨hnone,hv,hl⟩ := h.opened _ rfl
  have hget : ∀ j : ℕ, (s.shards.insert index shard)[j]? =
      if j = index then some shard else s.shards[j]? := by
    intro j
    simp only [Std.TreeMap.getElem?_insert,Nat.compare_eq_eq,@eq_comm _ index j]
  refine ⟨⟨h.fit.sane,h.fit.geometry,h.fit.enabled,h.fit.catalogAb,h.fit.wf,?_,?_⟩,?_,by rintro _ ⟨⟩,?_,
    h.aside⟩
  · intro j sh hj
    simp only [hget] at hj
    split at hj
    · rename_i heq
      subst heq
      cases hj
      exact ⟨hunits,hab,by rw [hdata]; exact hv,by rw [hdata]; exact hl,hdiscard,hdsize,hdab⟩
    · exact h.fit.shards j sh hj
  · intro j x hn hj
    simp only [hget] at hj
    split at hj
    · cases hj
    · exact h.fit.fresh j x hn hj
  · intro unit
    have hcell := h.cells unit
    obtain rfl : s.geometry = g := h.fit.geometry
    simp only [cell,hget] at hcell ⊢
    by_cases heq : (s.geometry.shardOfUnit unit).1 = index
    · -- The file holds zeros, and no bit is set.
      simp only [heq,hnone,if_true] at hcell ⊢
      have hle := Nat.le_trans (h.fit.sane.slot_le unit) hl
      have hblank : shard.cell s.geometry (d.inodes shard.data).image (s.geometry.shardOfUnit unit).2 =
          .blank s.geometry := by
        rw [Shard.cell,Cell.blank,hbits,hdiscarded,hdata,
          Splice.window_zeros hle fun k => h.fit.fresh index i hindex hnone hv k]
      rw [hblank]
      exact hcell
    · simpa only [if_neg heq] using hcell
  · intro j x hj
    obtain ⟨sh,hsh,hx⟩ := h.names j x hj
    have hne : j ≠ index := by
      rintro rfl
      rw [hnone] at hsh
      cases hsh
    exact ⟨sh,by simp only [hget,if_neg hne,hsh],hx⟩

theorem Shows.sameImage (h : Shows g e o f (s,d)) (i : InodeId) {F : Inode → Inode}
    (hF : ∀ n, (F n).image = n.image) : Shows g e o f (s,d.mapInode i F) := by
  have himage : ∀ j, ((d.mapInode i F).inodes j).image = (d.inodes j).image := by
    intro j
    by_cases hj : j = i
    · subst hj
      rw [Disk.inodes_mapInode_self,hF]
    · rw [Disk.inodes_mapInode_of_ne hj]
  refine h.carry (h.fit.wf.mapInode F) (fun index shard hs => ⟨(h.fit.shards index shard hs).data,himage _⟩)
    (fun index j hn hs hj k => ?_) (fun p hp => ?_) rfl ⟨h.aside.aside,fun k bytes hk => ?_⟩
  · simp only [himage]
    exact h.fit.fresh index j hn hs hj k
  · obtain ⟨hnone,hv,hl⟩ := h.opened p hp
    exact ⟨hnone,hv,by simpa only [himage] using hl⟩
  · obtain ⟨j,hj,rfl⟩ := Option.map_eq_some_iff.mp (h.aside.segments k bytes hk)
    rw [Disk.image,Disk.volatile_mapInode,hj,Option.map_some,himage]

end State

section Calls

variable {g : Geometry} {e : Bool} {o : Handles} {n : ℕ → InodeId → Prop}
  {x : Foreign} {f : ℕ → Cell → Prop}
  {index : ℕ}

theorem withShard_triple {α : Type} {F : Shard → Io SlotStore CoreError α}
    {pre : SlotStore × Disk → Prop} {ok : α → SlotStore × Disk → Prop}
    {err : CoreError → SlotStore × Disk → Prop} {lost : SlotStore × Disk → Prop}
    (h : ∀ s d (shard : Shard), pre (s,d) → s.shards[index]? = some shard →
      Triple (· = (s,d)) (F shard) ok err lost)
    (habsent : ∀ x s d, pre (s,d) → s.shards[index]? = none → err x (s,d)) :
    Triple pre (withShard index F) ok err lost := by
  apply Triple.ofEach
  rintro ⟨s,d⟩ hs
  unfold withShard
  apply Triple.get_bind
  simp only
  cases hshard : s.shards[index]? with
  | none => exact .throw fun _ ht => ht ▸ habsent _ s d hs hshard
  | some shard => exact h s d shard hs hshard

theorem withShard_shows {α : Type} {F : Shard → Io SlotStore CoreError α}
    (h : ∀ s d (shard : Shard), Shows g e o f (s,d) → s.shards[index]? = some shard →
      Ends (· = (s,d)) (F shard) (fun _ => Shows g e o f)
        (Shows g e o f)) : Keeps (Shows g e o f) (withShard index F) :=
  withShard_triple h fun _ _ _ hs _ => hs

theorem update_shows {ε : Type} {F : SlotStore → SlotStore}
    (h : ∀ s d, Shows g e o f (s,d) → Shows g e o f (F s,d)) :
    Keeps (Shows g e o f) (update F : Io SlotStore ε Unit) :=
  Keeps.modify fun t ht => h t.1 t.2 ht

theorem fp_shows (name : String) :
    Keeps (Shows g e o f) (coreIo (Io.fp name) : Io SlotStore CoreError Unit) :=
  (Io.Still.fp name).keeps.mapErr _

theorem syncDir_shows (dir : Dir) :
    Keeps (Shows g e o f) (coreIo (Io.syncDir dir) : Io SlotStore CoreError Unit) := by
  apply Keeps.mapErr
  refine Io.syncDir_triple (fun s d hs => ?_) (fun _ hs => hs) fun _ hs => hs
  exact hs.apart ((Disk.Apart.refl hs.fit.wf).syncDir dir)

theorem syncData_shows (i : InodeId) :
    Keeps (Shows g e o f) (coreIo (Io.syncData i) : Io SlotStore CoreError Unit) := by
  apply Keeps.mapErr
  refine Io.syncData_triple (fun s d hs => hs.sameImage i fun _ => rfl)
    (fun s d hs => hs.sameImage i fun _ => rfl) fun _ hs => hs

variable {ab : AbStore} {d : Disk} {s : SlotStore} {i : InodeId}

theorem Names.modifyShard (h : Names index i s) {j : ℕ}
    {F : Shard → Shard} (hF : ∀ shard : Shard, (F shard).data = shard.data) :
    Names index i (s.modifyShard j F) := by
  obtain ⟨shard,hs,hi⟩ := h
  rw [Names,getElem?_modifyShard,hs]
  by_cases hj : index = j
  · rw [if_pos hj]
    exact ⟨F shard,rfl,(hF shard).trans hi⟩
  · rw [if_neg hj]
    exact ⟨shard,rfl,hi⟩

theorem sizeFile_shows {n : ℕ} (hn : g.physical ≤ n) :
    Ends (fun t => Shows g e o f t ∧ Names index i t.1)
      (coreIo (Io.setLen i n) : Io SlotStore CoreError Unit) (fun _ => Shows g e o f)
      (Shows g e o f) := by
  apply Triple.mapErr
  refine Io.setLen_triple ?_ (fun _ hs => hs.1) fun _ hs => hs.1
  rintro s d ⟨hs,shard,hshard,rfl⟩
  exact hs.setLen hshard hn

theorem mapsStored_shows (indices : List ℕ) :
    Keeps (Shows g e o f) (update (mapsStored indices) : Io SlotStore CoreError Unit) := by
  refine update_shows fun s d hs => ?_
  unfold mapsStored
  refine Shows.modifyShards ?_ indices hs
  exact fun shard => ⟨rfl,fun _ => rfl,rfl,rfl,fun _ => rfl,rfl,rfl⟩

theorem openFile_shows :
    Ends (fun t => Shows g e ⟨none,n,x⟩ f t ∧ t.1.shards[index]? = none)
      (coreIo (Io.openFile (.shardData index) true) : Io SlotStore CoreError InodeId)
      (fun i t => Shows g e ⟨none,n,x⟩ f t ∧ t.1.shards[index]? = none ∧
        t.2.volatile (.shardData index) = some i) (Shows g e ⟨none,n,x⟩ f) := by
  apply Triple.mapErr
  refine Io.openFile_triple ?_ ?_ ?_ (fun _ ht => ht.1) fun _ ht => ht.1
  · exact fun s d i ht hv => ⟨ht.1,ht.2,hv⟩
  · exact fun s d ht hv _ => ⟨ht.1.createFile ht.2 hv,ht.2,Disk.volatile_create _ _⟩
  · exact fun s d _ _ hc => by cases hc

theorem sizeNew_shows :
    Ends (fun t => Shows g e ⟨none,n,x⟩ f t ∧ t.1.shards[index]? = none ∧
        t.2.volatile (.shardData index) = some i)
      (coreIo (Io.setLen i g.physical) : Io SlotStore CoreError Unit)
      (fun _ => Shows g e ⟨some (index,i),n,x⟩ f) (Shows g e ⟨none,n,x⟩ f) := by
  apply Triple.mapErr
  refine Io.setLen_triple ?_ (fun _ ht => ht.1) fun _ ht => ht.1
  exact fun s d ht => ht.1.sizeFile ht.2.1 ht.2.2

/-- A failed call leaves an unfinished shard behind, which no unit shows. -/
theorem closing {α ε : Type} {p : Io SlotStore ε α} (h : Keeps (Shows g e o f) p) :
    Ends (Shows g e o f) p (fun _ => Shows g e o f)
      (Shows g e ⟨none,o.known,o.foreign⟩ f) :=
  Triple.weaken h (fun _ _ ht => ht) (fun _ _ ht => ht.closed) fun _ ht => ht.closed

theorem allocateRange_shows {shard : Shard} (hs : Shows g e o f (s,d))
    (hshard : s.shards[index]? = some shard) (offset length : ℕ) :
    Ends (· = (s,d))
      (coreIo (Io.allocateRange shard.data offset length) : Io SlotStore CoreError Unit)
      (fun _ => Shows g e o f) (Shows g e o f) := by
  apply Triple.mapErr
  refine Io.allocateRange_triple ?_ ?_ (fun _ _ ht => ht ▸ hs) fun _ ht => ht ▸ hs
  · rintro _ _ ⟨⟩ hgrow
    exact hs.setLen hshard
      (Nat.le_trans (hs.fit.shards index shard hshard).size (Nat.le_of_lt hgrow))
  · rintro _ _ ⟨⟩ _
    exact hs

variable [Crc32]

theorem AllocationMap.encode_ne_nil (m : AllocationMap) : AbRecord.encode m ≠ [] := by
  intro h
  have hl := congrArg List.length h
  simp [AbRecord.encode,AllocationMap.encode,allocationMagic] at hl

theorem ShardCatalog.encode_ne_nil (c : ShardCatalog) : AbRecord.encode c ≠ [] := by
  intro h
  have hl := congrArg List.length h
  simp [AbRecord.encode,ShardCatalog.encode,catalogMagic] at hl

/-- A map is stored: other files change, and of the map its generation. -/
theorem storeMap_triple (hab : ∀ x, (ab.path x).IsMap) (hd : d.Wf)
    (map : AllocationMap) :
    Ends (· = (map,d)) (ab.store AllocationMap)
      (fun _ t => Disk.Apart Path.IsMap d t.2 ∧ t.1.units = map.units ∧ ∀ k, t.1.get k = map.get k)
      (fun t => Disk.Apart Path.IsMap d t.2 ∧ t.1.units = map.units ∧ ∀ k, t.1.get k = map.get k) := by
  have hdisk := (AbStore.rewritable_apart (T := AllocationMap) hab
    AllocationMap.encode_ne_nil).store_keeps (m := map) (Disk.Apart.refl hd)
  have hmap := AbStore.store_keeps_record (T := AllocationMap)
    (Q := fun r => r.units = map.units ∧ ∀ k, r.get k = map.get k) (fun _ _ hr => hr) ab
  refine (hdisk.and hmap).strengthen (fun t ht => ⟨ht,?_⟩)
  subst ht
  exact ⟨rfl,fun _ => rfl⟩

theorem storeAlloc_shows : Keeps (Shows g e o f) (storeAlloc index) := by
  unfold storeAlloc
  refine withShard_shows fun s d shard hs hshard => Triple.mapErr (Triple.zoom ?_)
  rintro _ rfl
  have hab : ∀ x, (shard.allocAb.path x).IsMap := by
    rw [(hs.fit.shards index shard hshard).allocAb]
    rintro (_ | _) <;> exact ⟨fun _ hp => (by cases hp),fun _ hp => by cases hp⟩
  have hdone : ∀ r : AllocationMap × Disk, (Disk.Apart Path.IsMap d r.2 ∧
      r.1.units = shard.alloc.units ∧ ∀ k, r.1.get k = shard.alloc.get k) →
      Shows g e o f (s.modifyShard index fun shard => { shard with alloc := r.1 },r.2) := by
    rintro r ⟨ha,hunits,hbits⟩
    refine (hs.apart ha).modifyShard fun sh hsh => ?_
    obtain rfl : shard = sh := Option.some.inj (hshard.symm.trans hsh)
    exact { Shard.Alike.refl shard with units := hunits, bits := hbits }
  exact (storeMap_triple hab hs.fit.wf shard.alloc).weaken (fun _ r => hdone r)
    (fun _ r => hdone r) hdone

theorem storeDiscard_shows : Keeps (Shows g e o f) (storeDiscard index) := by
  unfold storeDiscard
  refine withShard_shows fun s d shard hs hshard => ?_
  cases hab : shard.discardAb with
  | none => exact .throw fun _ ht => ht ▸ hs
  | some ab =>
    cases hmap : shard.discard with
    | none => exact .throw fun _ ht => ht ▸ hs
    | some map =>
      have hpath : ∀ x, (ab.path x).IsMap := by
        rw [(hs.fit.shards index shard hshard).discardAb ab hab]
        rintro (_ | _) <;> exact ⟨fun _ hp => (by cases hp),fun _ hp => by cases hp⟩
      refine ((Io.Still.fp _).mapErr _).bind_triple (fun _ => hs) hs fun _ => Triple.mapErr (Triple.zoom ?_)
      rintro _ rfl
      have hdone : ∀ r : AllocationMap × Disk, (Disk.Apart Path.IsMap d r.2 ∧
          r.1.units = map.units ∧ ∀ k, r.1.get k = map.get k) →
          Shows g e o f (s.modifyShard index fun shard => { shard with discard := some r.1 },r.2) := by
        rintro r ⟨ha,hunits,hbits⟩
        refine (hs.apart ha).modifyShard fun sh hsh => ?_
        obtain rfl : shard = sh := Option.some.inj (hshard.symm.trans hsh)
        refine { Shard.Alike.refl shard with discarded := fun k => ?_, discardUnits := ?_ }
        · simp only [Shard.discarded,hmap,Option.any_some,hbits]
        · simp only [hmap,Option.map_some,hunits]
      exact (storeMap_triple hpath hs.fit.wf map).weaken (fun _ r => hdone r)
        (fun _ r => hdone r) hdone

theorem storeAlloc_names (j : ℕ) :
    Keeps (fun t => Names index i t.1) (storeAlloc j) := by
  unfold storeAlloc
  refine withShard_triple (fun s d shard hs hshard => ?_) fun _ _ _ hs _ => hs
  refine .mapErr (Triple.zoom ?_)
  rintro _ rfl
  have hdone : ∀ r : AllocationMap × Disk,
      Names index i (s.modifyShard j fun shard => { shard with alloc := r.1 }) := fun r =>
    hs.modifyShard fun _ => rfl
  exact (Triple.any _ _).weaken (fun _ r _ => hdone r) (fun _ r _ => hdone r)
    fun r _ => hdone r

theorem proveDataFile_shows : Keeps (Shows g e o f) (proveDataFile index) := by
  unfold proveDataFile
  refine withShard_shows fun s d shard hs hshard => ?_
  cases hshort : shard.short with
  | none => exact .pure fun _ ht => ht ▸ hs
  | some short =>
    -- The marks of a truncated file are stored first; the shard keeps its file.
    have hsync : Io.Silent (coreIo (Io.syncDir .data) : Io SlotStore CoreError Unit) :=
      (Io.Silent.hooked _ _).mapErr _
    have hnames : Keeps (fun t => Names index shard.data t.1)
        (Prog.when (short = .Truncated) do
          coreIo (Io.fp "store.damage_marks_store")
          storeAlloc index
          coreIo (Io.syncDir .data)) :=
      Keeps.when (((Io.Still.fp _).mapErr _).keeps.bind fun _ => (storeAlloc_names index).bind fun _ => hsync _)
    have hmarks : Keeps (Shows g e o f)
        (Prog.when (short = .Truncated) do
          coreIo (Io.fp "store.damage_marks_store")
          storeAlloc index
          coreIo (Io.syncDir .data)) :=
      Keeps.when ((fp_shows _).bind fun _ => storeAlloc_shows.bind fun _ => syncDir_shows _)
    apply Triple.get_bind
    simp only
    have hstart : Ends (· = (s,d)) _ (fun _ t => Shows g e o f t ∧ Names index shard.data t.1)
        (Shows g e o f) :=
      (hmarks.and hnames).conseq (fun t ht => ht ▸ ⟨hs,shard,hshard,rfl⟩) (fun _ _ ht => ht)
        (fun _ _ ht => ht.1) fun _ ht => ht.1
    have hpoint : Ends (fun t => Shows g e o f t ∧ Names index shard.data t.1)
        (coreIo (Io.fp "store.data_size_sync") : Io SlotStore CoreError Unit)
        (fun _ t => Shows g e o f t ∧ Names index shard.data t.1)
        (Shows g e o f) :=
      (((Io.Still.fp _).mapErr _).keeps (J :=
        fun t => Shows g e o f t ∧ Names index shard.data t.1)).weaken (fun _ _ ht => ht)
          (fun _ _ ht => ht.1) fun _ ht => ht.1
    refine .bind hstart fun _ => .bind hpoint fun _ => ?_
    refine .bind (sizeFile_shows (by rw [hs.fit.geometry])) fun _ => ?_
    refine .bind (syncData_shows shard.data) fun _ => ?_
    exact update_shows fun s' d' hs' => hs'.modifyShard fun sh _ => { Shard.Alike.refl sh with }

theorem commitAdoptedMap_shows : Keeps (Shows g e o f) (commitAdoptedMap index) :=
  proveDataFile_shows.bind fun _ => (fp_shows _).bind fun _ => storeAlloc_shows.bind fun _ =>
    storeAlloc_shows

theorem persistAllocation_shows : Keeps (Shows g e o f) (persistAllocation index) :=
  (fp_shows _).bind fun _ => storeAlloc_shows.bind fun _ =>
    withShard_shows fun _ _ _ hs _ => Keeps.from_state (.when storeAlloc_shows) hs

theorem storeCatalog_triple (hab : ab = catalogStore g) (hd : d.Wf)
    (catalog : ShardCatalog) :
    Ends (· = (catalog,d)) (ab.store ShardCatalog)
      (fun _ t => Disk.Apart Path.IsMap d t.2)
      (fun t => Disk.Apart Path.IsMap d t.2) := by
  have hpath : ∀ x, (ab.path x).IsMap := by
    rw [hab]
    rintro (_ | _) <;> exact ⟨fun _ hp => (by cases hp),fun _ hp => by cases hp⟩
  exact (AbStore.rewritable_apart hpath ShardCatalog.encode_ne_nil).store_keeps (Disk.Apart.refl hd)

/-- Both copies of an empty map: other files change, and the map has no bit set. -/
theorem storeEmptyMap_triple (hab : ∀ x, (ab.path x).IsMap) {units : ℕ} :
    Ends (Shows g e o f) (storeEmptyMap ab units)
      (fun map t => Shows g e o f t ∧ map.units = units ∧ ∀ k, map.get k = false)
      (Shows g e o f) := by
  apply Triple.ofEach
  rintro ⟨s,d⟩ hs
  unfold storeEmptyMap
  -- Between the two stores: the map in memory and a disk that differs in other files.
  let mid : AllocationMap × Disk → Prop := fun r =>
    Disk.Apart Path.IsMap d r.2 ∧ r.1.units = units ∧ ∀ k, r.1.get k = false
  have hstore : Keeps mid (ab.store AllocationMap) := by
    have hdisk := fun t (ht : mid t) =>
      (AbStore.rewritable_apart (T := AllocationMap) hab
        AllocationMap.encode_ne_nil).store_keeps (m := t.1) (d := t.2) ht.1
    have hmap := AbStore.store_keeps_record (T := AllocationMap)
      (Q := fun r => r.units = units ∧ ∀ k, r.get k = false) (fun _ _ hr => hr) ab
    refine .ofEach fun t ht => ?_
    exact ((hdisk t ht).and hmap).strengthen (fun _ hr => ⟨hr,hr ▸ ht.2⟩)
  have hlocal : Ends (· = (s,d))
      (coreFormat (Io.withLocal (AllocationMap.new units) do
        ab.store AllocationMap
        ab.store AllocationMap) : Io SlotStore CoreError _)
      (fun r t => Shows g e o f t ∧ r.2.units = units ∧ ∀ k, r.2.get k = false)
      (Shows g e o f) := by
    refine .mapErr (Io.withLocal_triple ?_)
    refine (hstore.bind fun _ => hstore).conseq (fun t ht => ?_) (fun _ r hr => ⟨hs.apart hr.1,hr.2⟩)
      (fun _ r hr => hs.apart hr.1) fun r hr => hs.apart hr.1
    subst ht
    exact ⟨Disk.Apart.refl hs.fit.wf,rfl,fun _ => AllocationMap.get_new units⟩
  refine .bind hlocal fun r => ?_
  exact .pure fun _ ht => ht

/-- The discard map of a new shard: none, or one without a bit set. -/
def NewDiscard (g : Geometry) (e : Bool) (index : ℕ) (r : Option AllocationMap × Option AbStore) : Prop :=
  (∀ map ∈ r.1, map.units = g.unitsPerShard ∧ ∀ k, map.get k = false) ∧
    (e = true → r.1.isSome) ∧ ∀ ab ∈ r.2, ab = discardStore g index

theorem createDiscard_triple :
    Ends (Shows g e o f) (createDiscard index)
      (fun r t => Shows g e o f t ∧ NewDiscard g e index r) (Shows g e o f) := by
  apply Triple.ofEach
  rintro ⟨s,d⟩ hs
  unfold createDiscard
  apply Triple.get_bind
  simp only
  obtain rfl : s.geometry = g := hs.fit.geometry
  obtain rfl : s.discardEnabled = e := hs.fit.enabled
  by_cases hen : s.discardEnabled
  · simp only [if_pos hen]
    have hpath : ∀ x, ((discardStore s.geometry index).path x).IsMap := by
      rintro (_ | _) <;> exact ⟨fun _ hp => (by cases hp),fun _ hp => by cases hp⟩
    refine .bind ((storeEmptyMap_triple hpath).strengthen (fun _ ht => ht ▸ hs)) fun map => ?_
    refine .bind (fp_shows _).fact fun _ => ?_
    refine .bind (syncDir_shows _).fact fun _ => ?_
    refine .pure fun t ht => ⟨ht.1,?_,fun _ => rfl,?_⟩
    · rintro _ ⟨⟩
      exact ht.2
    · rintro _ ⟨⟩
      rfl
  · simp only [if_neg hen]
    refine .pure fun t ht => ⟨ht ▸ hs,?_,fun h => absurd h hen,?_⟩
    · rintro _ ⟨⟩
    · rintro _ ⟨⟩

theorem createDiscard_silent : Io.Silent (createDiscard index) := by
  intro Q
  unfold createDiscard
  apply Keeps.get_bind
  rintro ⟨s,d⟩ hs
  refine Keeps.from_state ?_ hs
  simp only
  by_cases hen : s.discardEnabled
  · simp only [if_pos hen]
    have hmap : ∀ ab units, Io.Silent (storeEmptyMap ab units) := fun ab units =>
      ((Io.Silent.withLocal _ _).mapErr _).bind fun _ => .pure _
    exact ((hmap _ _).bind fun _ => ((Io.Silent.ofStill (Io.Still.fp _)).mapErr _).bind fun _ =>
      ((Io.Silent.hooked _ _).mapErr _).bind fun _ => .pure _) Q
  · simp only [if_neg hen]
    exact .pure _

/-- The catalog with a new shard is stored before the shard is known. -/
theorem storeNewCatalog_shows (hs : Shows g e o f (s,d)) :
    Ends (· = (s,d))
      (coreFormat (Io.withLocal (s.catalog.insert index) (s.catalogAb.store ShardCatalog)) :
        Io SlotStore CoreError _) (fun _ => Shows g e o f) (Shows g e o f) := by
  refine .mapErr (Io.withLocal_triple ?_)
  exact (storeCatalog_triple hs.fit.catalogAb hs.fit.wf _).weaken (fun _ r ha => hs.apart ha)
      (fun _ r ha => hs.apart ha) fun r ha => hs.apart ha

variable [HashOrder]

theorem commitAdoptedMaps_shows : Keeps (Shows g e o f) commitAdoptedMaps := by
  unfold commitAdoptedMaps
  apply Keeps.get_bind
  rintro ⟨s,d⟩ hs
  refine Keeps.from_state ?_ hs
  simp only
  by_cases hnone : (s.shardsWhere (!·.mapStored)).isEmpty
  · simp only [if_pos hnone]
    exact .pure ()
  · simp only [if_neg hnone]
    exact (Keeps.forEach fun _ _ => commitAdoptedMap_shows).bind fun _ =>
      (syncDir_shows _).bind fun _ => mapsStored_shows _

theorem persistDirtyMaps_shows : Keeps (Shows g e o f) persistDirtyMaps := by
  unfold persistDirtyMaps
  apply Keeps.get_bind
  rintro ⟨s,d⟩ hs
  refine Keeps.from_state ?_ hs
  simp only
  by_cases hnone : (s.shardsWhere fun shard => shard.dirtyAlloc || !shard.mapStored).isEmpty
  · simp only [if_pos hnone]
    exact .pure ()
  · simp only [if_neg hnone]
    exact (Keeps.forEach fun _ _ => persistAllocation_shows).bind fun _ =>
      (fp_shows _).bind fun _ => (syncDir_shows _).bind fun _ => mapsStored_shows _

theorem persistCatalog_shows : Keeps (Shows g e o f) persistCatalog := by
  unfold persistCatalog
  apply Keeps.get_bind
  rintro ⟨s,d⟩ hs
  refine Keeps.from_state ?_ hs
  simp only
  by_cases hdirty : s.catalogDirty
  · simp only [if_pos hdirty]
    refine (Keeps.forEach fun _ _ => proveDataFile_shows).bind fun _ => (fp_shows _).bind fun _ => ?_
    refine Keeps.bind ?_ fun _ => (syncDir_shows _).bind fun _ =>
      update_shows fun _ _ hs' => hs'.congr rfl rfl rfl rfl
    refine Keeps.mapErr (Keeps.zoom ?_) _
    rintro ⟨s',d'⟩ hs'
    have hdone : ∀ r : ShardCatalog × Disk, Disk.Apart Path.IsMap d' r.2 →
        Shows g e o f ({ s' with catalog := r.1 },r.2) := fun r ha =>
      (hs'.apart ha).congr rfl rfl rfl rfl
    exact (storeCatalog_triple hs.fit.catalogAb hs'.fit.wf s'.catalog).weaken (fun _ r => hdone r)
        (fun _ r => hdone r) hdone
  · simp only [if_neg hdirty]
    exact .pure ()

theorem persistAllocations_shows : Keeps (Shows g e o f) persistAllocations :=
  persistDirtyMaps_shows.bind fun _ => persistCatalog_shows

theorem persistDiscards_shows : Keeps (Shows g e o f) persistDiscards := by
  unfold persistDiscards
  apply Keeps.get_bind
  rintro ⟨s,d⟩ hs
  refine Keeps.from_state ?_ hs
  simp only
  by_cases hnone : (s.shardsWhere (·.dirtyDiscard)).isEmpty
  · simp only [if_pos hnone]
    exact .pure ()
  · simp only [if_neg hnone]
    have hone : ∀ j, Keeps (Shows g e o f) (persistDiscard j) := fun _ =>
      storeDiscard_shows.bind fun _ => storeDiscard_shows
    refine (Keeps.forEach fun j _ => hone j).bind fun _ => (fp_shows _).bind fun _ =>
      (syncDir_shows _).bind fun _ => update_shows fun _ _ hs' => ?_
    refine Shows.modifyShards ?_ _ hs'
    exact fun shard => ⟨rfl,fun _ => rfl,rfl,rfl,fun _ => rfl,rfl,rfl⟩

theorem createShard_triple (hindex : index < g.numShards) :
    Ends (fun t => Shows g e ⟨none,n,x⟩ f t ∧ t.1.shards[index]? = none) (createShard index)
      (fun _ => Shows g e ⟨none,n,x⟩ f) (Shows g e ⟨none,n,x⟩ f) := by
  unfold createShard
  have hdiscard : Ends (fun t => Shows g e ⟨none,n,x⟩ f t ∧ t.1.shards[index]? = none)
      (createDiscard index)
      (fun r t => (Shows g e ⟨none,n,x⟩ f t ∧ t.1.shards[index]? = none) ∧ NewDiscard g e index r)
      (Shows g e ⟨none,n,x⟩ f) :=
    (createDiscard_triple.and (createDiscard_silent fun s => s.shards[index]? = none)).weaken
      (fun _ _ ht => ⟨⟨ht.1.1,ht.2⟩,ht.1.2⟩) (fun _ _ ht => ht.1) fun _ ht => ht.1
  refine .bind hdiscard fun r => ?_
  obtain ⟨discard,discardAb⟩ := r
  apply Triple.ofEach
  rintro ⟨s,d⟩ ⟨⟨hs,hnone⟩,hnew⟩
  apply Triple.get_bind
  obtain rfl : s.geometry = g := hs.fit.geometry
  refine ((Io.Still.fp _).mapErr _).bind_triple (fun _ => hs) hs fun _ => ?_
  refine .bind (openFile_shows.strengthen (fun _ ht => ht ▸ ⟨hs,hnone⟩)) fun data => ?_
  refine .bind sizeNew_shows fun _ => ?_
  refine .bind (closing (syncData_shows data)) fun _ => ?_
  have hpath : ∀ x, ((allocStore s.geometry index).path x).IsMap := by
    rintro (_ | _) <;> exact ⟨fun _ hp => (by cases hp),fun _ hp => by cases hp⟩
  refine .bind ((storeEmptyMap_triple hpath).weaken (fun _ _ ht => ht)
    (fun _ _ ht => ht.closed) fun _ ht => ht.closed) fun alloc => ?_
  refine .bind (closing commitAdoptedMaps_shows).fact fun _ => ?_
  refine .bind (closing persistDiscards_shows).fact fun _ => ?_
  refine .bind (closing (fp_shows _)).fact fun _ => ?_
  refine .bind (closing (syncDir_shows _)).fact fun _ => ?_
  refine .bind (closing (fp_shows _)).fact fun _ => ?_
  apply Triple.ofEach
  rintro ⟨s',d'⟩ ⟨hs',hunits,hbits⟩
  apply Triple.get_bind
  refine .bind ((storeNewCatalog_shows hs').weaken (fun _ _ ht => ht)
    (fun _ _ ht => ht.closed) fun _ ht => ht.closed) fun r => ?_
  refine .bind (closing (syncDir_shows _)) fun _ => ?_
  obtain ⟨hmap,hsome,hab⟩ := hnew
  refine .modify fun t ht => ht.insertShard hindex hunits hbits rfl rfl ?_ hsome
    (fun map hm => (hmap map hm).1) hab
  intro k
  cases discard with
  | none => rfl
  | some map => exact (hmap map rfl).2 k

theorem ensureShard_shows (hindex : index < g.numShards) : Keeps (Shows g e ⟨none,n,x⟩ f) (ensureShard index) := by
  unfold ensureShard
  apply Keeps.get_bind
  rintro ⟨s,d⟩ hs
  simp only
  cases hshard : s.shards[index]? with
  | some shard =>
    refine Keeps.from_state ?_ hs
    simp only
    by_cases hdirty : !shard.mapStored || s.catalogDirty
    · simp only [if_pos hdirty]
      exact commitAdoptedMaps_shows.bind fun _ => persistAllocations_shows
    · simp only [if_neg hdirty]
      exact .pure ()
  | none =>
    exact (createShard_triple hindex).strengthen (fun _ ht => ht ▸ ⟨hs,hshard⟩)

theorem reserveSlot_shows (unit : ℕ) : Keeps (Shows g e ⟨none,n,x⟩ f) (reserveSlot unit) := by
  unfold reserveSlot
  apply Keeps.get_bind
  rintro ⟨s,d⟩ hs
  refine Keeps.from_state ?_ hs
  simp only
  refine Triple.ofExcept_bind (fun _ hvalid => ?_) fun _ _ _ ht => ht
  have hindex := hs.fit.shard_lt hvalid
  refine Keeps.bind (Keeps.mapErr ((ensureShard_shows hindex).bind fun _ =>
    proveDataFile_shows) _) fun _ => ?_
  refine withShard_shows fun s' d' shard hs' hshard => ?_
  refine Triple.bind (allocateRange_shows hs' hshard _ _) fun _ => ?_
  exact Keeps.onError (syncData_shows shard.data) fun _ ht => ht.congr rfl rfl rfl rfl

end Calls
end SlotStore
end Maki
