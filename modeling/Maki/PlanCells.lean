import Maki.VolumeCells

/-! What a checkpoint does to the slots. Its plan aims at the slots of the units it writes;
executing it lays their versions down, and finishing it sets the bits that make them count. A
plan that fails on the way leaves every other slot as it was. -/
namespace Maki

open Prog hiding pure bind throw get modify

namespace Cell

/-- A slot that reads as this version once it is allocated and not discarded. -/
def Holds [Crc32] (g : Geometry) (unit : ℕ) (version : OverlayVersion) (c : Cell) : Prop :=
  Cell.read g unit { c with discarded := false, allocated := true } =
    .ok (.Ciphertext version.sequence version.ciphertext)

/-- Without discard metadata no slot is discarded. -/
def Honest (e : Bool) (c : Cell) : Prop := e = false → c.discarded = false

theorem read_of_discarded [Crc32] {g : Geometry} {unit : ℕ} {c : Cell} (h : c.discarded = true) :
    c.read g unit = .ok .Zero := by
  simp only [read,header,h,if_true,Except.bind]

end Cell

def OverlayVersion.stored (e : Bool) (version : OverlayVersion) : SlotRead :=
  if e && version.ciphertext.isEmpty then .Zero else .Ciphertext version.sequence version.ciphertext

namespace PreparedCheckpoint

def Writes (p : PreparedCheckpoint) (unit : ℕ) : Prop := ∃ version, (unit,version) ∈ p.written

def Touches (p : PreparedCheckpoint) (unit : ℕ) : Prop := ∃ version, (unit,version) ∈ p.items

/-- A plan that can be executed on the files `n`. -/
structure Ready (g : Geometry) (e : Bool) (n : ℕ → InodeId → Prop) (p : PreparedCheckpoint) : Prop where
  allow : p.allowDiscard = e
  bound : p.slots.maxCiphertextSize = g.maxCiphertextSize
  targets : p.slots.targets.map (·.unit) = p.written.map (·.1)
  aims : ∀ target ∈ p.slots.targets, target.offset = g.slotOffset (g.shardOfUnit target.unit).2 ∧
    n (g.shardOfUnit target.unit).1 target.data
  distinct : (p.items.map (·.1)).Nodup
  fits : ∀ i ∈ p.items, i.1 < 2^64 ∧ i.2.sequence < 2^64

structure Planned (g : Geometry) (e : Bool) (v : Volume) (p : PreparedCheckpoint) : Prop where
  base : p.baseCheckpoint = v.checkpointSequence
  horizon : p.horizon = max v.journal.durableSequence v.checkpointSequence
  items : p.items = if v.journal.durableSequence ≤ v.checkpointSequence then []
    else v.overlay.collectDurable v.journal.durableSequence
  allow : p.allowDiscard = e
  bound : p.slots.maxCiphertextSize = g.maxCiphertextSize
  targets : p.slots.targets.map (·.unit) = p.written.map (·.1)
  aims : ∀ target ∈ p.slots.targets, target.offset = g.slotOffset (g.shardOfUnit target.unit).2

variable {g : Geometry} {e : Bool} {n : ℕ → InodeId → Prop} {p : PreparedCheckpoint} {unit : ℕ}
  {version version' : OverlayVersion}

theorem mem_items (h : (unit,version) ∈ p.written) : (unit,version) ∈ p.items :=
  (List.mem_filter.mp h).1

theorem Ready.unique (hp : Ready g e n p) (h : (unit,version) ∈ p.items)
    (h' : (unit,version') ∈ p.items) : version = version' := by
  have heq := List.inj_on_of_nodup_map hp.distinct h h' rfl
  exact (Prod.mk.inj heq).2

theorem Ready.discard (hp : Ready g e n p) (h : (unit,version) ∈ p.items)
    (hn : (unit,version) ∉ p.written) : e = true ∧ version.ciphertext.isEmpty = true := by
  have hkeep : (p.allowDiscard && version.ciphertext.isEmpty) = true := by
    by_contra hc
    rw [Bool.not_eq_true] at hc
    exact hn (List.mem_filter.mpr ⟨h,by simp only [hc,Bool.not_false]⟩)
  rw [hp.allow,Bool.and_eq_true] at hkeep
  exact hkeep

/-- The slots while a plan is executed: those it writes may hold any bytes. -/
def torn (e : Bool) (f : ℕ → Cell → Prop) (p : PreparedCheckpoint) (unit : ℕ) (c : Cell) : Prop :=
  c.Honest e ∧ (¬ p.Writes unit → f unit c)

def laid [Crc32] (g : Geometry) (e : Bool) (f : ℕ → Cell → Prop) (p : PreparedCheckpoint)
    (unit : ℕ) (c : Cell) : Prop :=
  torn e f p unit c ∧ ∀ version, (unit,version) ∈ p.written → c.Holds g unit version

def bare (e : Bool) (f : ℕ → Cell → Prop) (p : PreparedCheckpoint) (unit : ℕ) (c : Cell) : Prop :=
  c.Honest e ∧ (¬ p.Touches unit → f unit c)

def filed [Crc32] (g : Geometry) (e : Bool) (f : ℕ → Cell → Prop) (p : PreparedCheckpoint)
    (unit : ℕ) (c : Cell) : Prop :=
  bare e f p unit c ∧ ∀ version, (unit,version) ∈ p.items →
    c.read g unit = .ok (version.stored e) ∧
      ((e && version.ciphertext.isEmpty) = true → c.discarded = true)

end PreparedCheckpoint

namespace Volume
open PreparedCheckpoint

section Prepare

variable [Crc32] {g : Geometry} {e : Bool} {n : ℕ → InodeId → Prop} {f : ℕ → Cell → Prop} {v₀ : Volume}

/-- Drawing up a plan changes no slot; from then on the handles of its targets are in use. -/
theorem prepareCheckpoint_rests :
    Answers (Rests g e n f v₀) prepareCheckpoint
      (fun p t => Rests g e (SlotStore.planned g p.slots.targets) f v₀ t ∧ Planned g e t.1 p)
      (fun _ => Rests g e n f v₀) := by
  unfold prepareCheckpoint
  refine .bind promote_rests fun _ => Triple.ofEach ?_
  rintro ⟨v,d⟩ hv
  apply Triple.get_bind
  simp only
  have hplan : ∀ units, Answers (· = (v,d)) (onStore (SlotStore.checkpointSlotPlan units))
      (fun plan t => Rests g e n f v₀ t ∧ (∃ s, t.1 = { v with store := s }) ∧
        plan.targets.map (·.unit) = units ∧ plan.maxCiphertextSize = g.maxCiphertextSize ∧
        ∀ target ∈ plan.targets, SlotStore.AimsAt g t.1.store target)
      (fun _ => Rests g e n f v₀) := by
    intro units
    apply Triple.zoom
    rintro _ rfl
    exact (SlotStore.checkpointSlotPlan_triple units).conseq (fun _ hs => hs ▸ hv.stands)
      (fun _ s hs => ⟨hv.store hs.1,⟨s.1,rfl⟩,hs.2⟩) (fun _ _ hs => hv.store hs) fun _ _ => trivial
  refine .bind (hplan _) fun plan => Triple.pure ?_
  rintro ⟨_,d'⟩ ⟨ht,⟨s,rfl⟩,hunits,hbound,haims⟩
  have hen : v.supportsDiscard = e := hv.stands.fit.enabled
  refine ⟨{ ht with stands := ht.stands.renames ?_ },rfl,rfl,rfl,hen,hbound,?_,fun target hm => (haims target hm).1⟩
  · rintro _ _ ⟨target,hm,rfl,rfl⟩
    exact (haims target hm).2
  · simp only [hunits,written,Bool.not_and]

end Prepare

section Execute

variable [Crc32] {g : Geometry} {e : Bool} {n : ℕ → InodeId → Prop} {f : ℕ → Cell → Prop}
  {p : PreparedCheckpoint} {v : Volume}

/-- The slots while the items of `rest` are still to be written. -/
def laying (g : Geometry) (e : Bool) (f : ℕ → Cell → Prop) (p : PreparedCheckpoint)
    (rest : List ((ℕ × OverlayVersion) × ℕ)) (unit : ℕ) (c : Cell) : Prop :=
  torn e f p unit c ∧ ∀ version, (unit,version) ∈ p.written →
    (∃ i, ((unit,version),i) ∈ rest) ∨ c.Holds g unit version

theorem writeItem_triple (hp : Ready g e n p) {unit : ℕ} {version : OverlayVersion} {i : ℕ}
    {rest : List ((ℕ × OverlayVersion) × ℕ)} (hi : p.written[i]? = some (unit,version)) :
    Ends (fun t => t.1 = v ∧ Stands g e n (laying g e f p (((unit,version),i)::rest)) t)
      (p.slots.write i version.sequence version.ciphertext)
      (fun _ t => t.1 = v ∧ Stands g e n (laying g e f p rest) t)
      (fun t => t.1 = v ∧ Stands g e n (torn e f p) t) := by
  apply Triple.ofEach
  rintro ⟨_,d⟩ ⟨rfl,hs⟩
  rename_i v
  have hmem : (unit,version) ∈ p.written := List.mem_of_getElem? hi
  have hfail : Stands g e n (torn e f p) (v,d) := hs.mono fun _ _ hc => hc.1
  unfold CheckpointSlotPlan.write
  by_cases hlen : version.ciphertext.length > p.slots.maxCiphertextSize
  · simp only [if_pos hlen]
    exact .throw fun _ ht => ht ▸ ⟨rfl,hfail⟩
  simp only [if_neg hlen]
  cases htarget : p.slots.targets[i]? with
  | none => exact .throw fun _ ht => ht ▸ ⟨rfl,hfail⟩
  | some target =>
    simp only
    have hunit : target.unit = unit := by
      have hmap := congrArg (fun l : List ℕ => l[i]?) hp.targets
      simp only [List.getElem?_map,htarget,hi,Option.map_some] at hmap
      exact Option.some.inj hmap
    obtain ⟨hoff,hknown⟩ := hp.aims target (List.mem_of_getElem? htarget)
    obtain ⟨shard,hshard,hdata⟩ := hs.names _ _ hknown
    rw [hunit] at hoff hshard
    rw [hoff,hunit,← hdata]
    have hbound : version.ciphertext.length ≤ g.maxCiphertextSize := by
      rw [← hp.bound]
      exact Nat.not_lt.mp hlen
    obtain ⟨hu,hq⟩ := hp.fits _ (mem_items hmem)
    -- Every cell fills its slot, also the one about to be written.
    have hs' : SlotStore.Shows g e ⟨none,n,.only v.journal.Handle⟩ (fun u c =>
        laying g e f p (((unit,version),i)::rest) u c ∧ c.bytes.length = g.slotSize) (v.store,d) :=
      ⟨hs.fit,fun u => ⟨hs.cells u,hs.fit.length_cell u⟩,hs.opened,hs.names,hs.aside⟩
    have hwrite := SlotStore.writeSlotAt_triple (π := Volume.store) (m := v) hs' version.sequence hshard hbound
    have htorn : ∀ t : Volume × Disk, t.1 = v → SlotStore.Shows g e ⟨none,n,.only v.journal.Handle⟩
        (SlotStore.forget (fun u c => laying g e f p (((unit,version),i)::rest) u c ∧
          c.bytes.length = g.slotSize) unit) (v.store,t.2) → Stands g e n (torn e f p) t := by
      rintro ⟨_,d'⟩ rfl ht
      refine ht.mono fun u c hc => ?_
      by_cases hu : u = unit
      · subst hu
        rw [SlotStore.forget,Function.update_self] at hc
        obtain ⟨c₀,hc₀,hbit,-⟩ := hc
        refine ⟨fun he => ?_,fun hn => absurd ⟨version,hmem⟩ hn⟩
        rw [hbit]
        exact hc₀.1.1.1 he
      · rw [SlotStore.forget,Function.update_of_ne hu] at hc
        exact hc.1.1
    refine hwrite.weaken (fun _ t ht => ⟨ht.1,?_⟩)
      (fun _ t ht => ⟨ht.1,htorn t ht.1 ht.2⟩) fun t ht => ⟨ht.1,htorn t ht.1 ht.2⟩
    obtain ⟨rfl,ht⟩ := ht
    refine ht.mono fun u c hc => ?_
    by_cases hu' : u = unit
    · subst hu'
      rw [SlotStore.changed,Function.update_self] at hc
      obtain ⟨c₀,⟨hc₀,hl⟩,rfl⟩ := hc
      refine ⟨⟨fun he => hc₀.1.1 he,fun hn => absurd ⟨version,hmem⟩ hn⟩,fun version' hv' => .inr ?_⟩
      obtain rfl := hp.unique (mem_items hmem) (mem_items hv')
      exact Cell.read_write hl ht.fit.sane hbound hu hq
    · rw [SlotStore.changed_of_ne hu'] at hc
      refine ⟨hc.1.1,fun version' hv' => ?_⟩
      rcases hc.1.2 version' hv' with ⟨j,hj⟩ | hj
      · rcases List.mem_cons.mp hj with hj | hj
        · exact absurd (Prod.mk.inj (Prod.mk.inj hj).1).1 hu'
        · exact .inl ⟨j,hj⟩
      · exact .inr hj

/-- Executing a plan lays its versions down; the volume itself is not touched. -/
theorem execute_stands (hp : Ready g e n p) (hhonest : ∀ u c, f u c → c.Honest e) :
    Ends (fun t => t.1 = v ∧ Stands g e n f t) (execute p)
      (fun c t => c = ⟨p⟩ ∧ t.1 = v ∧ Stands g e n (laid g e f p) t)
      (fun t => t.1 = v ∧ Stands g e n (torn e f p) t) := by
  have hloop : ∀ items : List ((ℕ × OverlayVersion) × ℕ),
      (∀ x ∈ items, p.written[x.2]? = some x.1) →
      Ends (fun t => t.1 = v ∧ Stands g e n (laying g e f p items) t)
        (Prog.forEach items fun x => do
          coreIo (Io.fp "checkpoint.slot_write")
          p.slots.write x.2 x.1.2.sequence x.1.2.ciphertext)
        (fun _ t => t.1 = v ∧ Stands g e n (laying g e f p []) t)
        (fun t => t.1 = v ∧ Stands g e n (torn e f p) t) := by
    intro items
    induction items with
    | nil => exact fun _ => .pure fun _ ht => ht
    | cons x rest ih =>
      intro hx
      obtain ⟨⟨unit,version⟩,i⟩ := x
      have hfp : Ends (fun t => t.1 = v ∧ Stands g e n (laying g e f p (((unit,version),i)::rest)) t)
          (coreIo (Io.fp "checkpoint.slot_write"))
          (fun _ t => t.1 = v ∧ Stands g e n (laying g e f p (((unit,version),i)::rest)) t)
          (fun t => t.1 = v ∧ Stands g e n (torn e f p) t) :=
        Triple.weaken ((Io.Still.fp _).keeps.mapErr _) (fun _ _ ht => ht)
          (fun _ _ ht => ⟨ht.1,ht.2.mono fun _ _ hc => hc.1⟩) fun _ ht => ⟨ht.1,ht.2.mono fun _ _ hc => hc.1⟩
      refine .bind (Triple.bind hfp fun _ => ?_) fun _ =>
        ih fun y hy => hx y (List.mem_cons_of_mem _ hy)
      exact writeItem_triple hp (hx _ List.mem_cons_self)
  have hstart : ∀ t : Volume × Disk, t.1 = v ∧ Stands g e n f t →
      t.1 = v ∧ Stands g e n (laying g e f p p.written.zipIdx) t := by
    rintro t ⟨hv,ht⟩
    refine ⟨hv,ht.mono fun u c hc => ⟨⟨hhonest u c hc,fun _ => hc⟩,fun version hm => .inl ?_⟩⟩
    obtain ⟨i,hi⟩ := List.getElem?_of_mem hm
    exact ⟨i,List.mem_zipIdx_iff_getElem?.mpr hi⟩
  have hend : ∀ t : Volume × Disk, t.1 = v ∧ Stands g e n (laying g e f p []) t →
      t.1 = v ∧ Stands g e n (laid g e f p) t := by
    rintro t ⟨hv,ht⟩
    refine ⟨hv,ht.mono fun u c hc => ⟨hc.1,fun version hm => ?_⟩⟩
    rcases hc.2 version hm with ⟨i,hi⟩ | hh
    · cases hi
    · exact hh
  unfold execute
  refine .bind ((hloop p.written.zipIdx fun x hx =>
    List.mem_zipIdx_iff_getElem?.mp hx).conseq hstart (fun _ t ht => hend t ht)
    (fun _ _ ht => ht) fun _ ht => ht) fun _ => ?_
  have hweak : ∀ t : Volume × Disk, t.1 = v ∧ Stands g e n (laid g e f p) t →
      t.1 = v ∧ Stands g e n (torn e f p) t := fun t ht => ⟨ht.1,ht.2.mono fun _ _ hc => hc.1⟩
  have hsync : Keeps (fun t => t.1 = v ∧ Stands g e n (laid g e f p) t)
      (p.slots.syncShards : Io Volume CoreError Unit) := by
    refine Keeps.forEach fun i _ => ((Io.Still.fp _).keeps.mapErr _).bind fun _ => ?_
    apply Keeps.mapErr
    exact Io.syncData_triple (fun _ _ ht => ⟨ht.1,ht.2.sameImage i fun _ => rfl⟩)
      (fun _ _ ht => ⟨ht.1,ht.2.sameImage i fun _ => rfl⟩) fun _ ht => ht
  refine .bind (Triple.weaken hsync (fun _ _ ht => ht)
    (fun _ t ht => hweak t ht) fun t ht => hweak t ht) fun _ => ?_
  apply Triple.ofEach
  rintro t ht
  apply Triple.get_bind
  refine .ofExcept_bind (fun _ _ => ?_) fun _ _ _ hs => hs ▸ hweak t ht
  exact .pure fun _ hs => hs ▸ ⟨rfl,ht⟩

end Execute

section Finish

variable {g : Geometry} {e : Bool} {n : ℕ → InodeId → Prop} {f F F' F'' : ℕ → Cell → Prop}
  {p : PreparedCheckpoint} {v₀ : Volume} {unit : ℕ}

/-- The volume `v₀` with its store in another state. -/
def On (g : Geometry) (e : Bool) (n : ℕ → InodeId → Prop) (v₀ : Volume) (F : ℕ → Cell → Prop)
    (t : Volume × Disk) : Prop := (∃ s, t.1 = { v₀ with store := s }) ∧ Stands g e n F t

theorem On.mono {t : Volume × Disk} (h : On g e n v₀ F t) (hF : ∀ u c, F u c → F' u c) :
    On g e n v₀ F' t := ⟨h.1,h.2.mono hF⟩

theorem onStore_on {α ε : Type} {q : Io SlotStore ε α}
    (h : Answers (SlotStore.Shows g e ⟨none,n,.only v₀.journal.Handle⟩ F) q
      (fun _ => SlotStore.Shows g e ⟨none,n,.only v₀.journal.Handle⟩ F')
      (fun _ => SlotStore.Shows g e ⟨none,n,.only v₀.journal.Handle⟩ F'')) :
    Answers (On g e n v₀ F) (onStore q) (fun _ => On g e n v₀ F') (fun _ => On g e n v₀ F'') := by
  apply Triple.zoom
  rintro ⟨_,d⟩ ⟨⟨s,rfl⟩,hs⟩
  exact h.conseq (fun _ ht => ht ▸ hs) (fun _ t ht => ⟨⟨t.1,rfl⟩,ht⟩) (fun _ t ht => ⟨⟨t.1,rfl⟩,ht⟩)
    fun _ ht => ht

/-- A call of the store that keeps the slots; its failure may be reported with less. -/
theorem onStore_keeps_on {α ε : Type} {q : Io SlotStore ε α}
    (h : ∀ x, Keeps (SlotStore.Shows g e ⟨none,n,x⟩ F) q) (hF : ∀ u c, F u c → F' u c) :
    Answers (On g e n v₀ F) (onStore q) (fun _ => On g e n v₀ F) (fun _ => On g e n v₀ F') :=
  onStore_on ((h _).weaken (fun _ _ ht => ht) (fun _ _ ht => ht.mono hF) fun _ _ => trivial)

/-- A volume whose checkpoint stands at `h`. -/
structure Closed (g : Geometry) (e : Bool) (n : ℕ → InodeId → Prop) (F : ℕ → Cell → Prop) (h : ℕ)
    (o : Overlay) (b : Superblock) (t : Volume × Disk) : Prop where
  stands : Stands g e n F t
  checkpoint : t.1.checkpointSequence = h
  overlay : t.1.overlay = o
  superblock : t.1.superblock = b

variable {h : ℕ} {o : Overlay} {b : Superblock}

theorem Closed.mono {t : Volume × Disk} (ht : Closed g e n F h o b t) (hF : ∀ u c, F u c → F' u c) :
    Closed g e n F' h o b t := ⟨ht.stands.mono hF,ht.checkpoint,ht.overlay,ht.superblock⟩

theorem closed_onStore {α ε : Type} {q : Io SlotStore ε α}
    (hq : ∀ x, Keeps (SlotStore.Shows g e ⟨none,n,x⟩ F) q) :
    Runs (Closed g e n F h o b) (onStore q) := by
  apply Triple.zoom
  rintro ⟨v,d⟩ hv
  have hdone : ∀ s : SlotStore × Disk, SlotStore.Shows g e ⟨none,n,.only v.journal.Handle⟩ F s →
      Closed g e n F h o b ({ v with store := s.1 },s.2) := fun s hs =>
    ⟨hs,hv.checkpoint,hv.overlay,hv.superblock⟩
  exact ((hq (.only v.journal.Handle)).from_state hv.stands).weaken (fun _ s hs => hdone s hs)
    (fun _ s hs => hdone s hs) fun _ _ => trivial

theorem closed_deleteCovered (k : ℕ) :
    Runs (Closed g e n F h o b) (onJournal (JournalWriter.deleteCovered k)) := by
  apply Triple.zoom
  rintro ⟨v,d⟩ hv
  have hstart : JournalWriter.Held d [] (v.journal,d) :=
    ⟨.refl hv.stands.fit.wf,fun i hi => hv.stands.aside.aside i hi,by simp⟩
  have hdone : ∀ s : JournalWriter × Disk, JournalWriter.Held d [] s →
      Closed g e n F h o b ({ v with journal := s.1 },s.2) := by
    intro s hs
    exact ⟨hv.stands.beside hs.beside ⟨hs.own,fun _ _ hk => hk.elim⟩,hv.checkpoint,hv.overlay,
      hv.superblock⟩
  exact ((JournalWriter.deleteCovered_held k).from_state hstart).weaken (fun _ s hs => hdone s hs)
      (fun _ s hs => hdone s hs) fun _ _ => trivial

theorem closed_syncDir (dir : Dir) :
    Keeps (Closed g e n F h o b) (coreIo (Io.syncDir dir) : Io Volume CoreError Unit) := by
  apply Keeps.mapErr
  exact Io.syncDir_triple (fun _ _ ht => ⟨ht.stands.apart ((Disk.Apart.refl ht.stands.fit.wf).syncDir dir),
    ht.checkpoint,ht.overlay,ht.superblock⟩) (fun _ ht => ht) fun _ ht => ht

theorem closed_syncJournalDir : Runs (Closed g e n F h o b) syncJournalDir :=
  .ofKeeps (((Io.Still.fp _).keeps.mapErr _).bind fun _ => closed_syncDir _)

theorem runs_deferred {α : Type} {q : Io Volume CoreError α} {J : Volume × Disk → Prop}
    (hq : Runs J q) : Runs J (deferred q) := by
  unfold deferred
  refine hq.attempt.bind fun r => ?_
  split
  · exact .throw _
  · exact .pure _

theorem closed_reclaimWindow (hblind : SlotStore.Blind F) :
    Runs (Closed g e n F h o b) reclaimWindow := by
  unfold reclaimWindow
  apply Runs.get_bind
  rintro ⟨v,d⟩ hv
  exact ((runs_deferred (closed_onStore fun _ => SlotStore.retryReclamation_shows hblind _)).bind
    fun _ => .pure ()).from_state hv

theorem mem_rest {x y : ℕ × OverlayVersion} {rest : List (ℕ × OverlayVersion)} (hne : x.1 ≠ y.1)
    (h : x ∈ y::rest) : x ∈ rest :=
  List.mem_of_ne_of_mem (fun heq => hne (congrArg Prod.fst heq)) h

variable [Crc32]

/-- The slots while the units of `rest` are still to be marked. -/
def marking (g : Geometry) (e : Bool) (f : ℕ → Cell → Prop) (p : PreparedCheckpoint)
    (rest : List (ℕ × OverlayVersion)) (unit : ℕ) (c : Cell) : Prop :=
  bare e f p unit c ∧ ∀ version, (unit,version) ∈ p.written → c.Holds g unit version ∧
    ((unit,version) ∈ rest ∨ c.allocated = true)

/-- The slots while the discard bits of `rest` are still to be set. -/
def striking (g : Geometry) (e : Bool) (f : ℕ → Cell → Prop) (p : PreparedCheckpoint)
    (rest : List (ℕ × OverlayVersion)) (unit : ℕ) (c : Cell) : Prop :=
  marking g e f p [] unit c ∧ ∀ version, (unit,version) ∈ p.items →
    (unit,version) ∈ rest ∨ c.discarded = version.ciphertext.isEmpty

omit [Crc32] in
theorem bare_of_torn {u : ℕ} {c : Cell} (h : torn e f p u c) : bare e f p u c :=
  ⟨h.1,fun hn => h.2 fun ht => hn (ht.imp fun _ hm => mem_items hm)⟩

theorem markItem_triple [HashOrder] {x : ℕ × OverlayVersion}
    {rest : List (ℕ × OverlayVersion)} (hx : x ∈ p.written) :
    Answers (On g e n v₀ (marking g e f p (x::rest))) (onStore (SlotStore.markAllocated x.1))
      (fun _ => On g e n v₀ (marking g e f p rest)) (fun _ => On g e n v₀ (bare e f p)) := by
  obtain ⟨unit,version⟩ := x
  refine onStore_on (SlotStore.markAllocated_triple.weaken (fun _ _ ht => ht.mono ?_)
    (fun _ _ ht => ht.mono fun _ _ hc => hc.1) fun _ _ => trivial)
  intro u c hc
  by_cases hu : u = unit
  · subst hu
    rw [SlotStore.changed,Function.update_self] at hc
    obtain ⟨c₀,hc₀,rfl⟩ := hc
    exact ⟨⟨hc₀.1.1,fun hn => absurd ⟨version,mem_items hx⟩ hn⟩,
      fun version' hv' => ⟨(hc₀.2 version' hv').1,.inr rfl⟩⟩
  · rw [SlotStore.changed_of_ne hu] at hc
    exact ⟨hc.1,fun version' hv' => ⟨(hc.2 version' hv').1,(hc.2 version' hv').2.imp_left (mem_rest hu)⟩⟩

theorem strikeItem_triple (hp : Ready g e n p) {x : ℕ × OverlayVersion}
    {rest : List (ℕ × OverlayVersion)} (hx : x ∈ p.items) :
    Answers (On g e n v₀ (striking g e f p (x::rest)))
      (onStore (SlotStore.setDiscarded x.1 x.2.ciphertext.isEmpty))
      (fun _ => On g e n v₀ (striking g e f p rest)) (fun _ => On g e n v₀ (bare e f p)) := by
  obtain ⟨unit,version⟩ := x
  refine onStore_on ((SlotStore.setDiscarded_triple _).weaken
      (fun _ _ ht => ht.1.mono fun u c hc => ?_) (fun _ _ ht => ht.mono fun _ _ hc => hc.1.1)
        fun _ _ => trivial)
  have he := ht.2
  by_cases hu : u = unit
  · subst hu
    rw [SlotStore.changed,Function.update_self] at hc
    obtain ⟨c₀,hc₀,rfl⟩ := hc
    refine ⟨⟨⟨fun hf => absurd (hf.symm.trans he) Bool.false_ne_true,
      fun hn => absurd ⟨version,hx⟩ hn⟩,hc₀.1.2⟩,fun version' hv' => .inr ?_⟩
    rw [hp.unique hv' hx]
  · rw [SlotStore.changed_of_ne hu] at hc
    exact ⟨hc.1,fun version' hv' => (hc.2 version' hv').imp_left (mem_rest hu)⟩

omit [Crc32] in
theorem forEach_on {β : Type} {q : β → Io Volume CoreError Unit} {I : List β → ℕ → Cell → Prop}
    (xs : List β) (h : ∀ x rest, x ∈ xs → Answers (On g e n v₀ (I (x::rest))) (q x)
      (fun _ => On g e n v₀ (I rest)) (fun _ => On g e n v₀ F')) :
    Answers (On g e n v₀ (I xs)) (Prog.forEach xs q) (fun _ => On g e n v₀ (I []))
      (fun _ => On g e n v₀ F') := by
  induction xs with
  | nil => exact .pure fun _ ht => ht
  | cons x xs ih =>
    exact .bind (h x xs List.mem_cons_self) fun _ =>
      ih fun y rest hy => h y rest (List.mem_cons_of_mem _ hy)

theorem Cell.Holds.read {version : OverlayVersion} {c : Cell} (h : c.Holds g unit version)
    (ha : c.allocated = true) (hd : c.discarded = false) :
    c.read g unit = .ok (.Ciphertext version.sequence version.ciphertext) := by
  have heq : { c with discarded := false, allocated := true } = c := by rw [← ha,← hd]
  rw [Cell.Holds,heq] at h
  exact h

theorem filed_of_marking (hp : Ready g e n p) (he : e = false) {c : Cell}
    (h : marking g e f p [] unit c) : filed g e f p unit c := by
  refine ⟨h.1,fun version hm => ?_⟩
  have hw : (unit,version) ∈ p.written := by
    by_contra hn
    exact absurd ((hp.discard hm hn).1.symm.trans he) (by simp)
  obtain ⟨hholds,ha⟩ := h.2 version hw
  have hread := Cell.Holds.read hholds (ha.resolve_left (by simp)) (h.1.1 he)
  refine ⟨?_,by simp [he]⟩
  rw [hread,OverlayVersion.stored,he]
  rfl

theorem filed_of_striking (hp : Ready g e n p) {c : Cell} (h : striking g e f p [] unit c) :
    filed g e f p unit c := by
  refine ⟨h.1.1,fun version hm => ?_⟩
  have hbit : c.discarded = version.ciphertext.isEmpty := (h.2 version hm).resolve_left (by simp)
  by_cases hempty : (e && version.ciphertext.isEmpty) = true
  · have hd : c.discarded = true := hbit.trans (Bool.and_eq_true_iff.mp hempty).2
    refine ⟨?_,fun _ => hd⟩
    rw [OverlayVersion.stored,if_pos hempty,Cell.read_of_discarded hd]
  · have hw : (unit,version) ∈ p.written := by
      by_contra hn
      obtain ⟨he,hv⟩ := hp.discard hm hn
      exact hempty (by rw [he,hv]; rfl)
    refine ⟨?_,fun hc => absurd hc hempty⟩
    obtain ⟨hholds,ha⟩ := h.1.2 version hw
    rw [OverlayVersion.stored,if_neg hempty]
    refine Cell.Holds.read hholds (ha.resolve_left (by simp)) ?_
    cases hd : c.discarded with
    | false => rfl
    | true =>
      -- A v2 volume discards nothing, and a v3 version with a payload is no discard.
      cases he : e with
      | false => exact absurd (hd.symm.trans (h.1.1.1 he)) (by simp)
      | true =>
        rw [he,Bool.true_and,← hbit,hd] at hempty
        exact absurd rfl hempty

theorem finishMaps_triple [HashOrder] (hp : Ready g e n p) :
    Answers (On g e n v₀ (laid g e f p)) (finishMaps p) (fun _ => On g e n v₀ (filed g e f p))
      (fun _ => On g e n v₀ (bare e f p)) := by
  unfold finishMaps
  have hmark : Answers (On g e n v₀ (laid g e f p))
      (Prog.forEach p.written fun i => onStore (SlotStore.markAllocated i.1))
      (fun _ => On g e n v₀ (marking g e f p [])) (fun _ => On g e n v₀ (bare e f p)) := by
    refine (forEach_on (I := marking g e f p) p.written fun x rest hx => markItem_triple hx).strengthen
        (fun _ ht => ht.mono fun u c hc => ?_)
    exact ⟨bare_of_torn hc.1,fun version hm => ⟨hc.2 version hm,.inl hm⟩⟩
  refine .bind hmark fun _ => Triple.when (fun hallow => ?_) fun t hallow ht => ?_
  · refine .bind ((forEach_on (I := striking g e f p) p.items fun x rest hx =>
      strikeItem_triple hp hx).conseq (fun _ ht => ht.mono fun u c hc => ⟨hc,fun version hm => .inl hm⟩)
      (fun _ _ ht => ht.mono fun _ _ hc => filed_of_striking hp hc) (fun _ _ ht => ht) fun _ ht => ht)
      fun _ => ?_
    exact onStore_keeps_on (fun _ => SlotStore.persistDiscards_shows) fun _ _ hc => hc.1
  · exact ht.mono fun _ _ hc => filed_of_marking hp (hp.allow ▸ hallow) hc

/-- The punched bytes of a finished plan's discards do not matter. -/
theorem blind_filed (hf : SlotStore.Blind f) : SlotStore.Blind (filed g e f p) := by
  rintro u c bytes hd ⟨⟨hhonest,hrest⟩,hitems⟩
  refine ⟨⟨hhonest,fun hn => hf u c bytes hd (hrest hn)⟩,fun version hm => ?_⟩
  obtain ⟨hread,hbit⟩ := hitems version hm
  refine ⟨?_,hbit⟩
  rw [← hread,Cell.read_of_discarded hd]
  exact Cell.read_of_discarded hd

omit [Crc32] in
theorem mem_punchable {v : Volume} (h : unit ∈ v.punchable p) :
    p.allowDiscard = true ∧ ∃ version, (unit,version) ∈ p.items ∧ version.ciphertext.isEmpty = true := by
  unfold punchable at h
  split at h
  · rename_i hallow
    obtain ⟨⟨u,version⟩,hi,rfl⟩ := List.mem_map.mp h
    obtain ⟨hmem,hkeep⟩ := List.mem_filter.mp hi
    exact ⟨hallow,version,hmem,(Bool.and_eq_true_iff.mp hkeep).1⟩
  · cases h

theorem struck_filed (hp : Ready g e n p) (v : Volume) (u : ℕ) (c : Cell) (h : filed g e f p u c) :
    SlotStore.struck (filed g e f p) (v.punchable p) u c := by
  refine ⟨h,fun hu => ?_⟩
  obtain ⟨hallow,version,hm,hempty⟩ := mem_punchable hu
  refine (h.2 version hm).2 ?_
  rw [← hp.allow,hallow,hempty]
  rfl

theorem closed_punchRetired (hp : Ready g e n p) (hblind : SlotStore.Blind f) (v : Volume) :
    Runs (Closed g e n (filed g e f p) h o b) (punchRetired (v.punchable p)) := by
  unfold punchRetired
  split
  · exact .pure _
  have hpunch : Runs (Closed g e n (filed g e f p) h o b)
      (deferred (onStore (SlotStore.punchSlots (v.punchable p)))) := by
    have hstruck : Runs (Closed g e n (SlotStore.struck (filed g e f p) (v.punchable p)) h o b)
        (deferred (onStore (SlotStore.punchSlots (v.punchable p)))) :=
      runs_deferred (closed_onStore fun _ => SlotStore.punchSlots_shows (blind_filed hblind))
    exact hstruck.conseq (fun _ ht => ht.mono (struck_filed hp v)) (fun _ _ ht => ht.mono fun _ _ hc => hc.1)
      (fun _ _ ht => ht.mono fun _ _ hc => hc.1) fun _ ht => ht
  refine hpunch.bind fun r => ?_
  cases r with
  | ok _ => exact .pure _
  | error _ =>
    refine Runs.bind (Runs.modify fun t ht => ?_) fun _ => .pure _
    exact ⟨ht.stands.congr rfl rfl rfl rfl,ht.checkpoint,ht.overlay,ht.superblock⟩

theorem storeState_triple_on {h : ℕ} :
    Answers (On g e n v₀ F) (storeState h)
      (fun _ => Closed g e n F h v₀.overlay v₀.superblock) (fun _ => On g e n v₀ F) := by
  have hpath : ∀ x, (CheckpointState.store.path x).IsMap := by
    rintro (_ | _) <;> exact ⟨fun _ hp => (by cases hp),fun _ hp => by cases hp⟩
  refine (storeState_of hpath fun v d d' hv ha => ⟨hv.1,hv.2.apart (ha hv.2.fit.wf)⟩).weakenOk ?_
  rintro _ _ ⟨_,d',state,⟨⟨s,rfl⟩,hs⟩,hstate,rfl⟩
  exact ⟨hs,hstate,rfl,rfl⟩

theorem finishIdle_triple_on [HashOrder] (hblind : SlotStore.Blind F) (base : ℕ)
    (hbase : v₀.checkpointSequence = base) :
    Leaves (On g e n v₀ F) (finishIdle base)
      (Closed g e n F base (v₀.overlay.retire base) v₀.superblock) := by
  unfold finishIdle
  refine Runs.after (Triple.modify ?_) fun _ => Runs.get_bind ?_
  · rintro ⟨_,d⟩ ⟨⟨s,rfl⟩,hs⟩
    exact ⟨hs,hbase,rfl,rfl⟩
  · rintro ⟨v,d⟩ hv
    refine Runs.from_state ?_ hv
    refine (Runs.when ((closed_onStore fun _ => SlotStore.persistDiscards_shows).bind fun _ =>
      closed_onStore fun _ => SlotStore.persistAllocations_shows)).bind fun _ => ?_
    exact (closed_deleteCovered base).bind fun deleted => (Runs.when closed_syncJournalDir).bind
      fun _ => (closed_reclaimWindow hblind).bind fun _ => .pure base

/-- What finishing a plan leaves: an attempt that failed early, or a checkpoint at the plan's
horizon, with the covered versions still in the overlay or retired. -/
def Ended (g : Geometry) (e : Bool) (n : ℕ → InodeId → Prop) (f : ℕ → Cell → Prop)
    (p : PreparedCheckpoint) (v₀ : Volume) (t : Volume × Disk) : Prop :=
  On g e n v₀ (bare e f p) t ∨ p.baseCheckpoint < p.horizon ∧
    ∃ o, (o = v₀.overlay ∨ o = v₀.overlay.retire p.horizon) ∧
    Closed g e n (filed g e f p) p.horizon o v₀.superblock t

theorem finishPlan_triple_on [HashOrder] (hp : Ready g e n p) (hblind : SlotStore.Blind f)
    (hnew : p.baseCheckpoint < p.horizon) :
    Leaves (On g e n v₀ (laid g e f p)) (finishPlan p) (Ended g e n f p v₀) := by
  unfold finishPlan
  refine .bind ((finishMaps_triple hp).weakenErr (fun _ _ ht => .inl ht))
      fun _ => Triple.ofEach ?_
  rintro ⟨v,d⟩ hv
  apply Triple.get_bind
  have hpersist : Answers (On g e n v₀ (filed g e f p)) (onStore SlotStore.persistAllocations)
      (fun _ => On g e n v₀ (filed g e f p)) (fun _ => Ended g e n f p v₀) :=
    (onStore_keeps_on (fun _ => SlotStore.persistAllocations_shows) fun _ _ hc => hc.1).weakenErr
      (fun _ _ ht => .inl ht)
  refine .bind (hpersist.strengthen (fun _ ht => ht ▸ hv)) fun _ => ?_
  refine .bind (storeState_triple_on.weakenErr (fun _ _ ht => .inl (ht.mono
      fun _ _ hc => hc.1))) fun _ => ?_
  -- From here on the checkpoint counts.
  have hkept : ∀ {α : Type} {q : Io Volume CoreError α} {o : Overlay},
      (o = v₀.overlay ∨ o = v₀.overlay.retire p.horizon) →
      Runs (Closed g e n (filed g e f p) p.horizon o v₀.superblock) q →
      Answers (Closed g e n (filed g e f p) p.horizon o v₀.superblock) q
        (fun _ => Closed g e n (filed g e f p) p.horizon o v₀.superblock)
        (fun _ => Ended g e n f p v₀) := fun ho hq =>
    hq.weakenErr (fun _ _ ht => .inr ⟨hnew,_,ho,ht⟩)
  refine .bind (hkept (.inl rfl) (closed_punchRetired hp hblind v)) fun failed => ?_
  refine .bind (hkept (.inl rfl) (closed_deleteCovered _)) fun _ => ?_
  refine .bind (hkept (.inl rfl) closed_syncJournalDir) fun _ => ?_
  have hretire : Answers (Closed g e n (filed g e f p) p.horizon v₀.overlay v₀.superblock)
      (update fun v => { v with overlay := v.overlay.retire p.horizon } : Io Volume CoreError Unit)
      (fun _ => Closed g e n (filed g e f p) p.horizon (v₀.overlay.retire p.horizon) v₀.superblock)
      (fun _ => Ended g e n f p v₀) := by
    refine .modify fun t ht => ⟨ht.stands,ht.checkpoint,?_,ht.superblock⟩
    simp only [ht.overlay]
  refine .bind hretire fun _ => ?_
  exact ((Runs.when (closed_reclaimWindow (blind_filed hblind))).bind fun _ =>
    .pure p.horizon).weaken (fun _ _ ht => .inr ⟨hnew,_,.inr rfl,ht⟩)
    (fun _ _ ht => .inr ⟨hnew,_,.inr rfl,ht⟩) fun _ ht => ht

theorem finishCheckpoint_triple_on [HashOrder] (hp : Ready g e n p) (hblind : SlotStore.Blind f)
    (hidle : p.horizon ≤ p.baseCheckpoint → p.items = []) :
    Leaves (On g e n v₀ (laid g e f p)) (finishCheckpoint ⟨p⟩)
      (fun t => Ended g e n f p v₀ t ∨ p.horizon ≤ p.baseCheckpoint ∧
        Closed g e n f p.baseCheckpoint (v₀.overlay.retire p.baseCheckpoint) v₀.superblock t) := by
  unfold finishCheckpoint
  refine .ofEach ?_
  rintro ⟨_,d⟩ ⟨⟨s,rfl⟩,hs⟩
  have hstart : On g e n v₀ (laid g e f p) ({ v₀ with store := s },d) := ⟨⟨s,rfl⟩,hs⟩
  have hfail : Ended g e n f p v₀ ({ v₀ with store := s },d) :=
    .inl (hstart.mono fun _ _ hc => bare_of_torn hc.1)
  apply Triple.get_bind
  apply Triple.ofExcept_bind
  · intro _ _
    simp only
    split
    · exact .throw fun _ ht => ht ▸ .inl hfail
    rename_i hbase
    rw [not_not] at hbase
    split
    · -- An idle plan has laid nothing down.
      rename_i hle
      have hlaid : ∀ u c, laid g e f p u c → f u c := fun u c hc => hc.1.2 (by
        rintro ⟨version,hm⟩
        have hi := mem_items hm
        rw [hidle hle] at hi
        cases hi)
      refine (finishIdle_triple_on hblind p.baseCheckpoint hbase).conseq (fun _ ht => ?_)
        (fun _ _ ht => .inr ⟨hle,ht⟩) (fun _ _ ht => .inr ⟨hle,ht⟩) fun _ ht => ht
      rw [ht]
      exact hstart.mono hlaid
    · rename_i hnew
      refine (finishPlan_triple_on hp hblind (Nat.not_le.mp hnew)).conseq (fun _ ht => ?_) (fun _ _ ht => .inl ht)
        (fun _ _ ht => .inl ht) fun _ ht => ht
      rw [ht]
      exact hstart
  · rintro _ _ - rfl
    exact .inl hfail

end Finish

end Volume
end Maki
