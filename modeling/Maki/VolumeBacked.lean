import Maki.PlanCells
import Maki.VolumeSession

/-! What the slots hold while a volume is in use. Every unit has an expected content, that of its
newest accepted record; a slot differs from it only while the overlay has the unit's newest version.
Requests and one checkpoint at a time keep this, however their calls end. -/
namespace Maki

def lastOf (accepted : List JournalRecord) (unit : ℕ) : Option JournalRecord :=
  (accepted.filter (·.unitIndex = unit)).getLast?

section LastOf

variable {accepted rest : List JournalRecord} {unit : ℕ} {r : JournalRecord}

theorem lastOf_append_of_not (h : ∀ t ∈ rest, t.unitIndex ≠ unit) :
    lastOf (accepted ++ rest) unit = lastOf accepted unit := by
  have hnil : rest.filter (·.unitIndex = unit) = [] := by
    rw [List.filter_eq_nil_iff]
    simpa using h
  rw [lastOf,List.filter_append,hnil,List.append_nil,lastOf]

theorem Newest.lastOf (h : accepted.Pairwise (·.sequence < ·.sequence))
    (hr : Newest accepted (·.unitIndex = unit) r) : lastOf accepted unit = some r := by
  have hmem : r ∈ accepted.filter (·.unitIndex = unit) :=
    List.mem_filter.mpr ⟨hr.mem,by simpa using hr.holds⟩
  obtain ⟨t,ht⟩ : ∃ t, Maki.lastOf accepted unit = some t := by
    exact ⟨_,List.getLast?_eq_getLast_of_ne_nil (List.ne_nil_of_mem hmem)⟩
  rw [ht]
  obtain ⟨front,hfront⟩ := List.getLast?_eq_some_iff.mp ht
  have hlast : t ∈ accepted ∧ t.unitIndex = unit := by
    have hin : t ∈ accepted.filter (·.unitIndex = unit) := by rw [hfront]; simp
    simpa using List.mem_filter.mp hin
  have hle := hr.newest t hlast.1 hlast.2
  rw [hfront] at hmem
  rcases List.mem_append.mp hmem with hin | hin
  · -- An earlier record of the unit is older.
    have hsorted := h.filter (p := (·.unitIndex = unit))
    rw [hfront] at hsorted
    have hlt := (List.pairwise_append.mp hsorted).2.2 r hin t (by simp)
    exact absurd hle (Nat.not_le.mpr hlt)
  · rw [List.mem_singleton.mp hin]

theorem lastOf_mem (h : lastOf accepted unit = some r) : r ∈ accepted ∧ r.unitIndex = unit := by
  have hin := List.mem_of_getLast? h
  simpa using List.mem_filter.mp hin

end LastOf

namespace Volume
open PreparedCheckpoint

/-- What a unit should read as: its newest accepted record, or else what its slot held at first. -/
def kept (e : Bool) (base : ℕ → Except CoreError SlotRead) (accepted : List JournalRecord) (unit : ℕ) :
    Except CoreError SlotRead :=
  match lastOf accepted unit with
  | some r => .ok (r.version.stored e)
  | none => base unit

/-- The overlay has the newest version of a unit and keeps it until a checkpoint has filed it. An
idle checkpoint drops every version that is not newer than the last one. -/
def Covered (idle : Prop) (v : Volume) (unit : ℕ) : Prop :=
  ∃ entry, v.overlay.units[unit]? = some entry ∧ (v.checkpointSequence < entry.latest.sequence ∨
    ¬ idle ∧ v.checkpointSequence < v.journal.durableSequence)

/-- A slot reads as expected, or its unit is covered. -/
def core [Crc32] (g : Geometry) (e : Bool) (expected : ℕ → Except CoreError SlotRead) (S : ℕ → Prop)
    (unit : ℕ) (c : Cell) : Prop :=
  c.Honest e ∧ (c.read g unit = expected unit ∨ S unit)

/-- The checkpoint under way; the engine lets one run at a time. -/
inductive Plan where
  | none
  | prepared (p : PreparedCheckpoint)
  | executed (p : PreparedCheckpoint)

namespace Plan

def Idle : Plan → Prop
  | .none => False
  | .prepared p | .executed p => p.horizon ≤ p.baseCheckpoint

def names (g : Geometry) : Plan → ℕ → InodeId → Prop
  | .none => fun _ _ => False
  | .prepared p | .executed p => SlotStore.planned g p.slots.targets

def cells [Crc32] (g : Geometry) (e : Bool) (f : ℕ → Cell → Prop) : Plan → ℕ → Cell → Prop
  | .none | .prepared _ => f
  | .executed p => laid g e f p

end Plan

/-- A plan that is under way on a volume: it has the newest version of every unit up to its horizon,
and its units stay in the overlay. -/
structure Pending (g : Geometry) (e : Bool) (v : Volume) (p : PreparedCheckpoint) : Prop where
  ready : Ready g e (SlotStore.planned g p.slots.targets) p
  base : p.baseCheckpoint = v.checkpointSequence
  idle : p.horizon ≤ p.baseCheckpoint → p.items = []
  durable : p.horizon ≤ v.journal.durableSequence
  entered : ∀ unit version, (unit,version) ∈ p.items → ∃ entry, v.overlay.units[unit]? = some entry
  newest : p.baseCheckpoint < p.horizon → ∀ (unit : ℕ) (entry : UnitOverlay),
    v.overlay.units[unit]? = some entry → entry.latest.sequence ≤ p.horizon → (unit,entry.latest) ∈ p.items

/-- What a volume in use keeps, for the records accepted since its slots read as `base`. -/
structure Backed [Crc32] (g : Geometry) (e : Bool) (base : ℕ → Except CoreError SlotRead)
    (accepted : List JournalRecord) (plan : Plan) (t : Volume × Disk) : Prop where
  sound : t.1.Sound accepted
  retained : ∀ (unit : ℕ) (entry : UnitOverlay), t.1.overlay.units[unit]? = some entry →
    entry.latest.sequence ≤ t.1.checkpointSequence → entry.durable = some entry.latest
  geometry : t.1.superblock.geometry = g
  limit : t.1.journal.nextSequence < 2^64
  inside : ∀ (unit : ℕ) (entry : UnitOverlay), t.1.overlay.units[unit]? = some entry → unit < g.numUnits
  pending : ∀ p, plan = .prepared p ∨ plan = .executed p → Pending g e t.1 p
  stands : Stands g e (plan.names g)
    (plan.cells g e (core g e (kept e base accepted) (Covered plan.Idle t.1))) t

section Cells

variable [Crc32] {g : Geometry} {e : Bool} {expected : ℕ → Except CoreError SlotRead} {S : ℕ → Prop}
  {f : ℕ → Cell → Prop} {p : PreparedCheckpoint}

theorem core_honest (u : ℕ) (c : Cell) (h : core g e expected S u c) : c.Honest e := h.1

theorem blind_core : SlotStore.Blind (core g e expected S) := by
  rintro u c bytes hd ⟨hhonest,hread⟩
  refine ⟨hhonest,hread.imp_left fun h => ?_⟩
  rw [← h,Cell.read_of_discarded hd]
  exact Cell.read_of_discarded hd

theorem reclaimable_core : Reclaimable g e (core g e expected S) := by
  rintro he u c ⟨-,hread⟩ hheader
  refine ⟨fun hf => absurd (hf.symm.trans he) Bool.false_ne_true,hread.imp_left fun h => ?_⟩
  rw [← h,Cell.read_of_discarded rfl]
  simp only [Cell.read,hheader,Except.bind]

theorem reclaimable_laid (hf : Reclaimable g e f) : Reclaimable g e (laid g e f p) := by
  rintro he u c ⟨⟨-,hrest⟩,hholds⟩ hheader
  exact ⟨⟨fun hc => absurd (hc.symm.trans he) Bool.false_ne_true,fun hn => hf he u c (hrest hn) hheader⟩,
    hholds⟩

theorem reclaimable_cells (plan : Plan) (hf : Reclaimable g e f) : Reclaimable g e (plan.cells g e f) := by
  cases plan with
  | none => exact hf
  | prepared p => exact hf
  | executed p => exact reclaimable_laid hf

theorem laid_mono {f' : ℕ → Cell → Prop} (hf : ∀ u c, f u c → f' u c) (u : ℕ) (c : Cell)
    (h : laid g e f p u c) : laid g e f' p u c := ⟨⟨h.1.1,fun hn => hf u c (h.1.2 hn)⟩,h.2⟩

theorem cells_mono {f' : ℕ → Cell → Prop} (plan : Plan) (hf : ∀ u c, f u c → f' u c) (u : ℕ) (c : Cell)
    (h : plan.cells g e f u c) : plan.cells g e f' u c := by
  cases plan with
  | none => exact hf u c h
  | prepared p => exact hf u c h
  | executed p => exact laid_mono hf u c h

end Cells

section Requests

variable [Crc32] {g : Geometry} {e : Bool} {base : ℕ → Except CoreError SlotRead}
  {accepted added : List JournalRecord} {plan : Plan} {v : Volume} {d : Disk} {t : Volume × Disk}

omit [Crc32] in
/-- A plan under way stays one while requests are served. -/
theorem Pending.grow {v v' : Volume} {p : PreparedCheckpoint} (h : Pending g e v p)
    (hstate : v'.ckState = v.ckState) (hgrows : v.overlay.Grows v.journal.appendedSequence v'.overlay)
    (hle : v.journal.durableSequence ≤ v.journal.appendedSequence)
    (hdur : v.journal.durableSequence ≤ v'.journal.durableSequence) : Pending g e v' p where
  ready := h.ready
  base := by rw [h.base,checkpointSequence,checkpointSequence,hstate]
  idle := h.idle
  durable := Nat.le_trans h.durable hdur
  entered unit version hm := by
    obtain ⟨entry,he⟩ := h.entered unit version hm
    exact hgrows.kept unit entry he
  newest hlt unit entry he hseq := by
    have hk := Nat.le_trans hseq (Nat.le_trans h.durable hle)
    obtain ⟨old,hold,hlatest,-⟩ := hgrows.old unit entry he hk
    rw [← hlatest]
    exact h.newest hlt unit old hold (hlatest ▸ hseq)

theorem Backed.grow (h : Backed g e base accepted plan (v,d))
    (hrests : Rests g e (plan.names g)
      (plan.cells g e (core g e (kept e base accepted) (Covered plan.Idle v))) v t)
    (hsound : t.1.Sound (accepted ++ added))
    (hdur : v.journal.durableSequence ≤ t.1.journal.durableSequence)
    (hadded : ∀ r ∈ added, v.journal.appendedSequence < r.sequence) :
    Backed g e base (accepted ++ added) plan t := by
  have hck : t.1.checkpointSequence = v.checkpointSequence := by
    rw [checkpointSequence,checkpointSequence,hrests.state]
  have hbelow : v.checkpointSequence ≤ v.journal.appendedSequence :=
    Nat.le_trans h.sound.checkpoint h.sound.durable
  refine ⟨hsound,fun unit entry he hseq => ?_,by rw [hrests.superblock,h.geometry],hrests.limit,
    hrests.inside,fun p hp => (h.pending p hp).grow hrests.state hrests.grows h.sound.durable hdur,
    hrests.stands.mono (cells_mono plan fun u c hc => ⟨hc.1,?_⟩)⟩
  · rw [hck] at hseq
    obtain ⟨old,hold,hlatest,hkeep⟩ := hrests.grows.old unit entry he (Nat.le_trans hseq hbelow)
    exact hkeep (h.retained unit old hold (hlatest ▸ hseq))
  by_cases hnew : ∃ r ∈ added, r.unitIndex = u
  · -- The unit has a record above the checkpoint now.
    obtain ⟨r,hr,rfl⟩ := hnew
    have hmem : r ∈ accepted ++ added := List.mem_append_right _ hr
    have hlt := Nat.lt_of_le_of_lt hbelow (hadded r hr)
    obtain ⟨entry,he⟩ := hsound.tracks.present r hmem (hck ▸ hlt)
    obtain ⟨newest,hnewest,hlatest⟩ := hsound.tracks.latest _ entry he
    refine .inr ⟨entry,he,.inl ?_⟩
    rw [hck,hlatest]
    exact Nat.lt_of_lt_of_le hlt (hnewest.newest r hmem rfl)
  · have hsame : kept e base (accepted ++ added) u = kept e base accepted u := by
      rw [kept,lastOf_append_of_not fun r hr hu => hnew ⟨r,hr,hu⟩,kept]
    rw [hsame]
    refine hc.2.imp_right ?_
    rintro ⟨old,hold,hcov⟩
    obtain ⟨entry,he⟩ := hrests.grows.kept u old hold
    refine ⟨entry,he,?_⟩
    rw [hck]
    rcases Nat.lt_or_ge v.journal.appendedSequence entry.latest.sequence with hlt | hge
    · exact .inl (Nat.lt_of_le_of_lt hbelow hlt)
    · obtain ⟨old',hold',hlatest,-⟩ := hrests.grows.old u entry he hge
      obtain rfl : old = old' := Option.some.inj (hold.symm.trans hold')
      rw [← hlatest]
      exact hcov.imp_right fun hc => ⟨hc.1,Nat.lt_of_lt_of_le hc.2 hdur⟩

def Request.unit? : Request → Option ℕ
  | .write unit _ _ | .discard unit _ => some unit
  | .flush | .reclaim _ => none

omit [Crc32] in
theorem Request.mem_accepted {q : Request} {before after : Volume} {r : JournalRecord}
    (hr : r ∈ q.accepted before after) :
    before.journal.appendedSequence < r.sequence ∧ q.unit? = some r.unitIndex := by
  have hrecord : ∀ {unit : ℕ} {payload : Bytes}, r ∈ acceptedBy before after unit payload →
      before.journal.appendedSequence < r.sequence ∧ some unit = some r.unitIndex := by
    intro unit payload hr
    unfold acceptedBy at hr
    split at hr
    · rename_i hlt
      rw [List.mem_singleton.mp hr]
      exact ⟨hlt,rfl⟩
    · cases hr
  cases q with
  | write unit ciphertext fua => exact hrecord hr
  | discard unit fua => exact hrecord hr
  | flush => cases hr
  | reclaim unit => cases hr

theorem Backed.rests (h : Backed g e base accepted plan (v,d)) :
    Rests g e (plan.names g) (plan.cells g e (core g e (kept e base accepted) (Covered plan.Idle v))) v
      (v,d) where
  stands := h.stands
  state := rfl
  superblock := rfl
  grows := .refl _ _
  next := by
    have hnext : v.journal.nextSequence = v.journal.appendedSequence+1 := h.sound.next
    exact hnext ▸ Nat.lt_succ_self _
  limit := h.limit
  inside := h.inside

variable [DefaultHasher] [HashOrder]

theorem Request.run_rests {f : ℕ → Cell → Prop} {n : ℕ → InodeId → Prop} (hf : Reclaimable g e f)
    (hg : v.superblock.geometry = g) (q : Request) : Prog.Runs (Rests g e n f v) q.run := by
  cases q with
  | write unit ciphertext fua => exact (writeCt_rests unit ciphertext fua).bind fun _ => .pure ()
  | discard unit fua => exact (discardCt_rests hf hg unit fua).bind fun _ => .pure ()
  | flush => exact flush_rests
  | reclaim unit => exact (reclaimUnwritten_rests hf unit).bind fun _ => .pure ()

theorem Backed.request (h : Backed g e base accepted plan (v,d)) (q : Request) :
    Prog.Leaves (· = (v,d)) q.run
      (fun t => Backed g e base (accepted ++ q.accepted v t.1) plan t) := by
  have hcore : Reclaimable g e (core g e (kept e base accepted) (Covered plan.Idle v)) :=
    reclaimable_core
  have hruns := (Request.run_rests (n := plan.names g) (reclaimable_cells plan hcore) h.geometry
    q).from_state h.rests
  refine (hruns.and (Request.run_triple h.sound q)).conseq (fun t ht => ⟨ht,ht⟩) ?_ ?_ fun _ _ => trivial
  · rintro _ t ⟨hr,hs,hd⟩
    exact h.grow hr hs hd fun _ hr => (Request.mem_accepted hr).1
  · rintro _ t ⟨hr,hs,hd⟩
    exact h.grow hr hs hd fun _ hr => (Request.mem_accepted hr).1

end Requests

section Checkpoints

variable [Crc32] {g : Geometry} {e : Bool} {base : ℕ → Except CoreError SlotRead}
  {accepted : List JournalRecord} {plan : Plan} {v : Volume} {d : Disk} {t : Volume × Disk}
  {p : PreparedCheckpoint}

theorem Backed.kept_latest (h : Backed g e base accepted plan t) {unit : ℕ} {entry : UnitOverlay}
    (he : t.1.overlay.units[unit]? = some entry) :
    kept e base accepted unit = .ok (entry.latest.stored e) := by
  obtain ⟨r,hr,hlatest⟩ := h.sound.tracks.latest unit entry he
  rw [kept,hr.lastOf h.sound.tracks.ascending,hlatest]

/-- Every version up to the durable boundary that reads show is also the durable one. -/
theorem Backed.durable_latest (h : Backed g e base accepted plan t) {unit : ℕ} {entry : UnitOverlay}
    (he : t.1.overlay.units[unit]? = some entry)
    (hseq : entry.latest.sequence ≤ t.1.journal.durableSequence) :
    entry.durable = some entry.latest := by
  rcases Nat.lt_or_ge t.1.checkpointSequence entry.latest.sequence with hlt | hge
  · obtain ⟨r,hr,hlatest⟩ := h.sound.tracks.latest unit entry he
    rw [hlatest] at hseq hlt
    have hnewest : Newest accepted (fun x => x.unitIndex = unit ∧
        x.sequence ≤ t.1.journal.durableSequence) r :=
      ⟨hr.mem,⟨hr.holds,hseq⟩,fun x hx hp => hr.newest x hx hp.1⟩
    obtain ⟨entry',he',hdur⟩ := h.sound.tracks.promoted unit r hnewest hlt
    obtain rfl : entry = entry' := Option.some.inj (he.symm.trans he')
    rw [hdur,hlatest]
  · exact h.retained unit entry he hge

/-- A plan drawn from a volume is one it can carry out. -/
theorem Backed.pending_of_planned (h : Backed g e base accepted .none t) (hsane : g.Sane)
    (hp : Planned g e t.1 p) : Pending g e t.1 p := by
  have hck := h.sound.checkpoint
  have hlim : t.1.journal.durableSequence < 2^64 := by
    have hd := h.sound.durable
    have hn := h.sound.next
    have hl := h.limit
    omega
  have hitem : ∀ unit version, (unit,version) ∈ p.items → ∃ entry,
      t.1.overlay.units[unit]? = some entry ∧ entry.durable = some version ∧
        version.sequence ≤ t.1.journal.durableSequence := by
    intro unit version hm
    rw [hp.items] at hm
    split at hm
    · cases hm
    · exact Overlay.mem_collectDurable.mp hm
  have hhorizon : p.horizon = t.1.journal.durableSequence := by
    rw [hp.horizon]
    exact Nat.max_eq_left hck
  refine ⟨⟨hp.allow,hp.bound,hp.targets,fun target hm => ⟨hp.aims target hm,target,hm,rfl,rfl⟩,?_,?_⟩,
    hp.base,fun hle => ?_,Nat.le_of_eq hhorizon,fun unit version hm => ?_,fun hlt unit entry he hseq => ?_⟩
  · rw [hp.items]
    split
    · exact List.nodup_nil
    · exact Overlay.nodup_collectDurable _ _
  · rintro ⟨unit,version⟩ hm
    obtain ⟨entry,he,-,hseq⟩ := hitem unit version hm
    exact ⟨Nat.lt_trans (h.inside unit entry he) hsane.device,Nat.lt_of_le_of_lt hseq hlim⟩
  · rw [hp.items,if_pos]
    rwa [hhorizon,hp.base] at hle
  · obtain ⟨entry,he,-⟩ := hitem unit version hm
    exact ⟨entry,he⟩
  · rw [hhorizon,hp.base] at hlt
    rw [hhorizon] at hseq
    rw [hp.items,if_neg (Nat.not_le.mpr hlt)]
    exact Overlay.mem_collectDurable.mpr ⟨entry,he,h.durable_latest he hseq,hseq⟩

theorem Backed.prepare (h : Backed g e base accepted .none (v,d)) :
    Prog.Answers (· = (v,d)) prepareCheckpoint
      (fun p => Backed g e base accepted (.prepared p)) (fun _ => Backed g e base accepted .none) := by
  have hgoing : Going v.journal.durableSequence v.journal.appendedSequence accepted (v,d) :=
    After.start h.sound
  have hgrow : ∀ {t n}, Rests g e n (core g e (kept e base accepted) (Covered False v)) v t →
      Going v.journal.durableSequence v.journal.appendedSequence accepted t →
      Backed g e base accepted .none t := by
    intro t n hr hg
    have hnone : Rests g e (Plan.none.names g)
        (core g e (kept e base accepted) (Covered False v)) v t :=
      { hr with stands := hr.stands.renames fun _ _ hf => hf.elim }
    have hsound : t.1.Sound (accepted ++ []) := (List.append_nil accepted).symm ▸ hg.1
    have hb := h.grow hnone hsound hg.2.1 (by simp)
    rwa [List.append_nil] at hb
  refine (prepareCheckpoint_rests.and prepareCheckpoint_triple).conseq
    (fun _ ht => ⟨ht ▸ h.rests,ht ▸ hgoing⟩) ?_ ?_ fun _ _ => trivial
  · rintro p t ⟨⟨hr,hplanned⟩,hg,-⟩
    have hb := hgrow hr hg
    have hpending := hb.pending_of_planned hr.stands.fit.sane hplanned
    refine ⟨hb.sound,hb.retained,hb.geometry,hb.limit,hb.inside,?_,?_⟩
    · rintro _ (⟨⟨⟩⟩ | ⟨⟨⟩⟩)
      exact hpending
    have hcells := hb.stands
    refine ⟨hr.stands.fit,fun u => ?_,hr.stands.opened,hr.stands.names,hr.stands.aside⟩
    obtain ⟨hhonest,hread⟩ := hcells.cells u
    refine ⟨hhonest,hread.imp_right ?_⟩
    rintro ⟨entry,he,hcov⟩
    refine ⟨entry,he,hcov.imp_right fun h => ⟨?_,h.2⟩⟩
    have hlt := h.2
    -- A plan with a durable record behind the checkpoint is not idle.
    have hh : p.horizon = t.1.journal.durableSequence := by
      rw [hplanned.horizon]
      exact Nat.max_eq_left hb.sound.checkpoint
    simp only [Plan.Idle,hh,hplanned.base]
    exact Nat.not_le.mpr hlt
  · rintro _ t ⟨hr,hg⟩
    exact hgrow hr hg

omit [Crc32] in
theorem Pending.covered (h : Pending g e v p) {unit : ℕ} (hu : p.Touches unit) : Covered False v unit := by
  obtain ⟨version,hm⟩ := hu
  obtain ⟨entry,he⟩ := h.entered unit version hm
  refine ⟨entry,he,.inr ⟨not_false,?_⟩⟩
  rcases Nat.lt_or_ge p.baseCheckpoint p.horizon with hlt | hge
  · rw [← h.base]
    exact Nat.lt_of_lt_of_le hlt h.durable
  · rw [h.idle hge] at hm
    cases hm

omit [Crc32] in
theorem Covered.loosen {idle : Prop} {unit : ℕ} (h : Covered idle v unit) : Covered False v unit := by
  obtain ⟨entry,he,hcov⟩ := h
  exact ⟨entry,he,hcov.imp_right fun hc => ⟨not_false,hc.2⟩⟩

theorem Backed.drop (h : Backed g e base accepted plan (v,d)) (hpending : Pending g e v p)
    (hon : On g e (SlotStore.planned g p.slots.targets) v
      (bare e (core g e (kept e base accepted) (Covered (Plan.prepared p).Idle v)) p) t) :
    Backed g e base accepted .none t := by
  obtain ⟨w,d'⟩ := t
  obtain ⟨⟨s,rfl⟩,hs⟩ := hon
  have hcells : Stands g e (Plan.none.names g) (core g e (kept e base accepted) (Covered False v))
      ({ v with store := s },d') := by
    refine (hs.mono fun u c hc => ⟨hc.1,?_⟩).renames fun _ _ hf => hf.elim
    by_cases hu : p.Touches u
    · exact .inr (hpending.covered hu)
    · exact (hc.2 hu).2.imp_right Covered.loosen
  exact ⟨h.sound.store s,h.retained,h.geometry,h.limit,h.inside,by simp,hcells⟩

theorem Backed.execute (h : Backed g e base accepted (.prepared p) (v,d)) :
    Prog.Answers (· = (v,d)) (Volume.execute p)
      (fun c t => c = ⟨p⟩ ∧ Backed g e base accepted (.executed p) t)
      (fun _ => Backed g e base accepted .none) := by
  have hpending := h.pending p (.inl rfl)
  refine (execute_stands (v := v) (f := core g e (kept e base accepted) (Covered (Plan.prepared p).Idle v))
    hpending.ready core_honest).conseq (fun t ht => ?_) ?_ ?_ fun _ _ => trivial
  · rw [ht]
    exact ⟨rfl,h.stands⟩
  · rintro c ⟨_,d'⟩ ⟨rfl,rfl,hs⟩
    refine ⟨rfl,h.sound,h.retained,h.geometry,h.limit,h.inside,?_,hs⟩
    rintro _ (⟨⟨⟩⟩ | ⟨⟨⟩⟩)
    exact hpending
  · rintro _ ⟨_,d'⟩ ⟨rfl,hs⟩
    exact h.drop hpending ⟨⟨_,rfl⟩,hs.mono fun _ _ hc => bare_of_torn hc⟩

/-- A checkpoint at `h` whose slots are as expected wherever no newer version is left. -/
theorem Backed.close {b : Superblock} {o : Overlay} {h : ℕ} {F : ℕ → Cell → Prop}
    {n : ℕ → InodeId → Prop} (hv : Backed g e base accepted plan (v,d))
    (ht : Closed g e n F h o b t) (hb : b = v.superblock)
    (ho : o = v.overlay ∨ o = v.overlay.retire h)
    (hgoing : Going v.journal.durableSequence v.journal.appendedSequence accepted t)
    (hh : h ≤ v.journal.durableSequence)
    (hF : ∀ u c, F u c → c.Honest e ∧ (c.read g u = kept e base accepted u ∨
      ∃ entry, v.overlay.units[u]? = some entry ∧ h < entry.latest.sequence)) :
    Backed g e base accepted .none t where
  sound := hgoing.1
  retained unit entry he hseq := by
    rw [ht.overlay] at he
    rw [ht.checkpoint] at hseq
    rcases ho with rfl | rfl
    · exact hv.durable_latest he (Nat.le_trans hseq hh)
    · exact absurd hseq (Nat.not_le.mpr (Overlay.units_retired he).1)
  geometry := by rw [ht.superblock,hb,hv.geometry]
  limit := by
    rw [hgoing.1.next,hgoing.2.2,← hv.sound.next]
    exact hv.limit
  inside unit entry he := by
    rw [ht.overlay] at he
    rcases ho with rfl | rfl
    · exact hv.inside unit entry he
    · obtain ⟨-,old,hold,-⟩ := Overlay.units_retired he
      exact hv.inside unit old hold
  pending _ hp := by simp at hp
  stands := by
    refine (ht.stands.mono fun u c hc => ?_).renames fun _ _ hf => hf.elim
    obtain ⟨hhonest,hread⟩ := hF u c hc
    refine ⟨hhonest,hread.imp_right ?_⟩
    rintro ⟨entry,he,hlt⟩
    rw [Covered,ht.overlay,ht.checkpoint]
    rcases ho with rfl | rfl
    · exact ⟨entry,he,.inl hlt⟩
    · obtain ⟨entry',he',hlatest⟩ := Overlay.retire_keeps he hlt
      exact ⟨entry',he',.inl (hlatest ▸ hlt)⟩

/-- The slots of a finished plan are as expected, except for units written after its horizon. -/
theorem Backed.filed_kept (h : Backed g e base accepted plan (v,d)) (hp : Pending g e v p)
    (hlt : p.baseCheckpoint < p.horizon) {S : ℕ → Prop} (hS : ∀ u, S u → Covered False v u) (u : ℕ) (c : Cell)
    (hc : filed g e (core g e (kept e base accepted) S) p u c) :
    c.Honest e ∧ (c.read g u = kept e base accepted u ∨
      ∃ entry, v.overlay.units[u]? = some entry ∧ p.horizon < entry.latest.sequence) := by
  refine ⟨hc.1.1,?_⟩
  cases he : v.overlay.units[u]? with
  | none =>
    have hno : ¬ p.Touches u := by
      rintro ⟨version,hm⟩
      obtain ⟨entry,he'⟩ := hp.entered u version hm
      simp [he] at he'
    rcases (hc.1.2 hno).2 with hread | hcov
    · exact .inl hread
    · obtain ⟨entry,he',-⟩ := hS u hcov
      simp [he] at he'
  | some entry =>
    rcases Nat.lt_or_ge p.horizon entry.latest.sequence with hgt | hle
    · exact .inr ⟨entry,rfl,hgt⟩
    · left
      rw [(hc.2 entry.latest (hp.newest hlt u entry he hle)).1,h.kept_latest he]

theorem Backed.finish [HashOrder] (h : Backed g e base accepted (.executed p) (v,d)) :
    Prog.Leaves (· = (v,d)) (finishCheckpoint ⟨p⟩) (Backed g e base accepted .none) := by
  have hpending := h.pending p (.inr rfl)
  have hgoing : Going v.journal.durableSequence v.journal.appendedSequence accepted (v,d) :=
    After.start h.sound
  have hdone : ∀ t : Volume × Disk, (Ended g e (SlotStore.planned g p.slots.targets)
        (core g e (kept e base accepted) (Covered (Plan.executed p).Idle v)) p v t ∨
        p.horizon ≤ p.baseCheckpoint ∧ Closed g e (SlotStore.planned g p.slots.targets)
          (core g e (kept e base accepted) (Covered (Plan.executed p).Idle v)) p.baseCheckpoint
          (v.overlay.retire p.baseCheckpoint) v.superblock t) →
      Going v.journal.durableSequence v.journal.appendedSequence accepted t →
      Backed g e base accepted .none t := by
    rintro t ((hon | ⟨hlt,o,ho,hclosed⟩) | ⟨hle,hclosed⟩) hg
    · exact h.drop hpending hon
    · exact h.close hclosed rfl ho hg hpending.durable
        fun u c hc => h.filed_kept hpending hlt (fun _ => Covered.loosen) u c hc
    · refine h.close hclosed rfl (.inr rfl) hg (hpending.base ▸ h.sound.checkpoint) fun u c hc => ⟨hc.1,?_⟩
      refine hc.2.imp_right ?_
      rintro ⟨entry,he,hcov⟩
      refine ⟨entry,he,?_⟩
      rw [hpending.base]
      exact hcov.resolve_right fun hno => hno.1 hle
  refine ((finishCheckpoint_triple_on hpending.ready blind_core hpending.idle).and
    (finishCheckpoint_triple hgoing hpending.durable)).conseq
    (fun t ht => ⟨?_,ht⟩) (fun _ t ht => hdone t ht.1 ht.2) (fun _ t ht => hdone t ht.1 ht.2) fun _ _ => trivial
  rw [ht]
  exact ⟨⟨_,rfl⟩,h.stands⟩

end Checkpoints

end Volume
end Maki
