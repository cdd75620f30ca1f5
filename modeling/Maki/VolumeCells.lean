import Maki.SlotWrites
import Maki.JournalFrame
import Maki.VolumeRun

/-! What the calls of a volume do to its slots. Requests change no slot, except that a unit without
a version may be marked discarded; a checkpoint plan writes the slots it aims at, and finishing
it sets their bits. -/
namespace Maki

open Prog hiding pure bind throw get modify

namespace Overlay

/-- What requests make of an overlay with versions up to `k`: no entry goes, and an entry that shows
such a version still is what it was. -/
structure Grows (k : ℕ) (o o' : Overlay) : Prop where
  kept : ∀ (u : ℕ) (e : UnitOverlay), o.units[u]? = some e → ∃ e', o'.units[u]? = some e'
  old : ∀ (u : ℕ) (e' : UnitOverlay), o'.units[u]? = some e' → e'.latest.sequence ≤ k →
    ∃ e, o.units[u]? = some e ∧ e.latest = e'.latest ∧
      (e.durable = some e.latest → e'.durable = some e'.latest)

section Grows

variable {k : ℕ} {o o' o'' : Overlay}

theorem Grows.refl (k : ℕ) (o : Overlay) : Grows k o o :=
  ⟨fun _ e he => ⟨e,he⟩,fun _ e he _ => ⟨e,he,rfl,id⟩⟩

theorem Grows.trans (h : Grows k o o') (h' : Grows k o' o'') : Grows k o o'' where
  kept u e he := by
    obtain ⟨e',he'⟩ := h.kept u e he
    exact h'.kept u e' he'
  old u e'' he'' hk := by
    obtain ⟨e',he',hl',hd'⟩ := h'.old u e'' he'' hk
    obtain ⟨e,he,hl,hd⟩ := h.old u e' he' (hl' ▸ hk)
    exact ⟨e,he,hl.trans hl',fun hdur => hd' (hd hdur)⟩

theorem Grows.publish (h : Grows k o o') (unit : ℕ) {sequence : ℕ} (ciphertext : Bytes)
    (hk : k < sequence) : Grows k o (o'.publish unit sequence ciphertext) := by
  refine h.trans ⟨fun u e he => ?_,fun u e he hle => ?_⟩
  · rw [units_publish]
    split
    · exact ⟨_,rfl⟩
    · exact ⟨e,he⟩
  · rw [units_publish] at he
    split at he
    · cases he
      exact absurd hle (Nat.not_le.mpr hk)
    · exact ⟨e,he,rfl,id⟩

theorem Grows.promote (h : Grows k o o') (durable : ℕ) : Grows k o (o'.promote durable) := by
  refine h.trans ⟨fun u e he => ?_,fun u e he hle => ?_⟩
  · rw [units_promote,he]
    exact ⟨_,rfl⟩
  · rw [units_promote] at he
    obtain ⟨x,hx,rfl⟩ := Option.map_eq_some_iff.mp he
    refine ⟨x,hx,?_,?_⟩
    all_goals
      unfold promotedEntry
      split_ifs <;> simp

end Grows

end Overlay

namespace Volume

/-- The slots of a volume satisfy `f`, and the handles in use are those of its shards. -/
def Stands (g : Geometry) (e : Bool) (n : ℕ → InodeId → Prop) (f : ℕ → Cell → Prop)
    (t : Volume × Disk) : Prop :=
  SlotStore.Shows g e ⟨none,n,.only t.1.journal.Handle⟩ f (t.1.store,t.2)

/-- A volume that has served requests since it was `v₀`, none of which concerned its slots. -/
structure Rests (g : Geometry) (e : Bool) (n : ℕ → InodeId → Prop) (f : ℕ → Cell → Prop)
    (v₀ : Volume) (t : Volume × Disk) : Prop where
  stands : Stands g e n f t
  state : t.1.ckState = v₀.ckState
  superblock : t.1.superblock = v₀.superblock
  grows : v₀.overlay.Grows v₀.journal.appendedSequence t.1.overlay
  next : v₀.journal.appendedSequence < t.1.journal.nextSequence
  limit : t.1.journal.nextSequence < 2^64
  inside : ∀ (u : ℕ) (entry : UnitOverlay), t.1.overlay.units[u]? = some entry → u < g.numUnits

/-- Marking a unit without a version as discarded is allowed. -/
def Reclaimable [Crc32] (g : Geometry) (e : Bool) (f : ℕ → Cell → Prop) : Prop :=
  e = true → ∀ unit c, f unit c → c.header g unit = .ok none → f unit { c with discarded := true }

section Requests

variable {g : Geometry} {e : Bool} {n : ℕ → InodeId → Prop} {f : ℕ → Cell → Prop} {v₀ : Volume}

theorem Rests.store {v : Volume} {d : Disk} (hv : Rests g e n f v₀ (v,d)) {s : SlotStore × Disk}
    (hs : SlotStore.Shows g e ⟨none,n,.only v.journal.Handle⟩ f s) :
    Rests g e n f v₀ ({ v with store := s.1 },s.2) := { hv with stands := hs }

theorem onStore_rests {α ε : Type} {p : Io SlotStore ε α}
    (h : ∀ x, Keeps (SlotStore.Shows g e ⟨none,n,x⟩ f) p) :
    Runs (Rests g e n f v₀) (onStore p) := by
  apply Triple.zoom
  rintro ⟨v,d⟩ hv
  exact ((h (.only v.journal.Handle)).from_state hv.stands).weaken (fun _ _ hs => hv.store hs)
    (fun _ _ hs => hv.store hs) fun _ _ => trivial

/-- A call of the journal that hands out no sequence twice. -/
theorem onJournal_rests {α ε : Type} {p : Io JournalWriter ε α} {Q : ℕ → α → Prop}
    (hheld : ∀ d₀, Keeps (JournalWriter.Held d₀ []) p)
    (hnext : ∀ k, Answers (fun t => k < t.1.nextSequence ∧ t.1.nextSequence < 2^64) p
      (fun a t => (k < t.1.nextSequence ∧ t.1.nextSequence < 2^64) ∧ Q k a)
      (fun _ t => k < t.1.nextSequence ∧ t.1.nextSequence < 2^64)) :
    Answers (Rests g e n f v₀) (onJournal p)
      (fun a t => Rests g e n f v₀ t ∧ Q v₀.journal.appendedSequence a)
      (fun _ => Rests g e n f v₀) := by
  apply Triple.zoom
  rintro ⟨v,d⟩ hv
  have hstart : JournalWriter.Held d [] (v.journal,d) :=
    ⟨.refl hv.stands.fit.wf,fun i hi => hv.stands.aside.aside i hi,by simp⟩
  have hdone : ∀ s : JournalWriter × Disk, JournalWriter.Held d [] s →
      v₀.journal.appendedSequence < s.1.nextSequence ∧ s.1.nextSequence < 2^64 →
      Rests g e n f v₀ ({ v with journal := s.1 },s.2) := by
    intro s hs hn
    exact ⟨hv.stands.beside hs.beside ⟨hs.own,fun _ _ hk => hk.elim⟩,hv.state,hv.superblock,
      hv.grows,hn.1,hn.2,hv.inside⟩
  refine (((hheld d).from_state hstart).and (hnext v₀.journal.appendedSequence)).conseq
    (fun s hs => ⟨hs,hs ▸ ⟨hv.next,hv.limit⟩⟩) (fun a s hs => ⟨hdone s hs.1 hs.2.1,hs.2.2⟩)
    (fun _ s hs => hdone s hs.1 hs.2) fun _ _ => trivial

theorem update_rests {ε : Type} {F : Volume → Volume} (hj : ∀ v, (F v).journal = v.journal)
    (hs : ∀ v, (F v).store = v.store) (hc : ∀ v, (F v).ckState = v.ckState)
    (hb : ∀ v, (F v).superblock = v.superblock)
    (hi : ∀ v, (∀ (u : ℕ) (entry : UnitOverlay), v.overlay.units[u]? = some entry → u < g.numUnits) →
      ∀ (u : ℕ) (entry : UnitOverlay), (F v).overlay.units[u]? = some entry → u < g.numUnits)
    (ho : ∀ v, v₀.overlay.Grows v₀.journal.appendedSequence v.overlay →
      v₀.overlay.Grows v₀.journal.appendedSequence (F v).overlay) :
    Runs (Rests g e n f v₀) (update F : Io Volume ε Unit) := by
  apply Runs.modify
  rintro ⟨v,d⟩ hv
  refine ⟨?_,(hc v).trans hv.state,(hb v).trans hv.superblock,ho v hv.grows,?_,?_,hi v hv.inside⟩
  · simp only [Stands,hj,hs]
    exact hv.stands
  · simp only [hj]
    exact hv.next
  · simp only [hj]
    exact hv.limit

theorem inside_promote {o : Overlay} (durable : ℕ)
    (h : ∀ (u : ℕ) (entry : UnitOverlay), o.units[u]? = some entry → u < g.numUnits) (u : ℕ)
    (entry : UnitOverlay) (hu : (o.promote durable).units[u]? = some entry) : u < g.numUnits := by
  rw [Overlay.units_promote] at hu
  obtain ⟨old,hold,-⟩ := Option.map_eq_some_iff.mp hu
  exact h u old hold

theorem promote_rests {ε : Type} : Runs (Rests g e n f v₀) (update promote : Io Volume ε Unit) :=
  update_rests (fun _ => rfl) (fun _ => rfl) (fun _ => rfl) (fun _ => rfl)
    (fun _ => inside_promote _) fun _ h => h.promote _

section Journal

variable [Crc32] [DefaultHasher]

theorem append_rests (unit : ℕ) (payload : Bytes) :
    Answers (Rests g e n f v₀) (onJournal (JournalWriter.append unit payload))
      (fun q t => Rests g e n f v₀ t ∧ v₀.journal.appendedSequence < q)
      (fun _ => Rests g e n f v₀) := by
  refine onJournal_rests (Q := fun k q => k < q) (fun _ => JournalWriter.append_held unit payload) fun k => ?_
  apply Triple.ofEach
  rintro t ht
  have hat : JournalWriter.At t.1.durableSequence t.1.appendedSequence t.1.nextSequence t :=
    ⟨rfl,rfl,rfl⟩
  refine ((JournalWriter.append_counters unit payload).and (JournalWriter.append_limit unit payload)).conseq
    (fun s (hs : s = t) => by rw [hs]; exact ⟨hat,ht.2⟩) ?_ ?_ fun _ _ => trivial
  · rintro q s ⟨⟨rfl,hs⟩,hlimit⟩
    have hn : s.1.nextSequence = t.1.nextSequence+1 := by
      rcases hs with hs | hs <;> exact hs.2.2
    exact ⟨⟨hn ▸ Nat.lt_succ_of_lt ht.1,hlimit⟩,ht.1⟩
  · rintro _ s ⟨hs,hlimit⟩
    have hn : s.1.nextSequence = t.1.nextSequence := by
      rcases hs with hs | hs <;> exact hs.2.2
    exact ⟨hn ▸ ht.1,hlimit⟩

theorem sync_rests : Runs (Rests g e n f v₀) (onJournal JournalWriter.sync) := by
  have hnext : ∀ k, Answers (fun t : JournalWriter × Disk => k < t.1.nextSequence ∧
      t.1.nextSequence < 2^64) JournalWriter.sync
      (fun _ t => (k < t.1.nextSequence ∧ t.1.nextSequence < 2^64) ∧ True)
      (fun _ t => k < t.1.nextSequence ∧ t.1.nextSequence < 2^64) := by
    intro k
    apply Triple.ofEach
    rintro t ht
    have hat : JournalWriter.At t.1.durableSequence t.1.appendedSequence t.1.nextSequence t :=
      ⟨rfl,rfl,rfl⟩
    exact JournalWriter.sync_counters.conseq (fun s (hs : s = t) => by rw [hs]; exact hat)
      (fun _ s hs => ⟨hs.2.2.2 ▸ ht,trivial⟩) (fun _ s hs => hs.2.2 ▸ ht) fun _ hs => hs
  exact (onJournal_rests (Q := fun _ _ => True) (fun _ => JournalWriter.sync_held) hnext).weakenOk
    (fun _ _ ht => ht.1)

theorem journalRecord_rests {unit : ℕ} (hu : unit < g.numUnits) (payload : Bytes) :
    Runs (Rests g e n f v₀) (journalRecord unit payload) := by
  unfold journalRecord
  have happend : Answers (Rests g e n f v₀)
      (Prog.attempt (onJournal (JournalWriter.append unit payload)))
      (fun r t => Rests g e n f v₀ t ∧ ∀ q, r = .ok q → v₀.journal.appendedSequence < q)
      (fun (_ : CoreError) => Rests g e n f v₀) :=
    Triple.attempt ((append_rests unit payload).weaken
      (fun q t ht => ⟨ht.1,by rintro _ ⟨⟩; exact ht.2⟩) (fun _ t ht => ⟨ht,by simp⟩) fun _ ht => ht)
  refine Triple.bind happend fun r => ?_
  have hpromote : Runs (Rests g e n f v₀) (update promote : Io Volume CoreError Unit) :=
    promote_rests
  refine Triple.bind (hpromote.fact (Q := ∀ q, r = .ok q → v₀.journal.appendedSequence < q))
    fun _ => ?_
  cases r with
  | error x => exact Triple.throw fun _ ht => ht.1
  | ok q =>
    rintro fs t ⟨ht,hq⟩
    have hpublish : Runs (Rests g e n f v₀) (update (publish unit q payload) : Io Volume CoreError Unit) :=
      update_rests (fun _ => rfl) (fun _ => rfl) (fun _ => rfl) (fun _ => rfl)
        (fun _ h u entry he => by
          simp only [publish,Overlay.units_publish] at he
          split at he
          · rename_i heq
            exact heq ▸ hu
          · exact h u entry he)
        fun _ h => h.publish unit payload (hq q rfl)
    exact (hpublish.bind fun _ => promote_rests.bind fun _ => .pure q) fs t ht

theorem forceUnitAccess_rests (what : String) (sequence : ℕ) :
    Runs (Rests g e n f v₀) (forceUnitAccess what sequence) :=
  sync_rests.attempt.bind fun _ => promote_rests.bind fun _ => .bind (.ofExcept _) fun _ => .ofExcept _

theorem barrier_rests : Runs (Rests g e n f v₀) barrier :=
  sync_rests.bind fun durable => .bind
    (update_rests (fun _ => rfl) (fun _ => rfl) (fun _ => rfl) (fun _ => rfl)
      (fun _ => inside_promote durable) fun _ h => h.promote durable) fun _ => .pure _

theorem flush_rests : Runs (Rests g e n f v₀) flush := barrier_rests.bind fun _ => .pure _

theorem repeatDiscard_rests (sequence : ℕ) (fua : Bool) :
    Runs (Rests g e n f v₀) (repeatDiscard sequence fua) :=
  (Runs.when (barrier_rests.bind fun _ => .ofExcept _)).bind fun _ => .pure _

theorem discardRecord_rests {unit : ℕ} (hu : unit < g.numUnits) (fua : Bool) :
    Runs (Rests g e n f v₀) (discardRecord unit fua) := by
  unfold discardRecord
  apply Runs.get_bind
  rintro ⟨v,d⟩ hv
  refine Runs.from_state ?_ hv
  simp only
  split
  · exact .throw _
  · exact (journalRecord_rests hu []).bind fun _ => (forceUnitAccess_rests _ _).when.bind fun _ => .pure _

omit [DefaultHasher] in
theorem reserveSlot_rests [HashOrder] (unit : ℕ) :
    Answers (Rests g e n f v₀) (onStore (SlotStore.reserveSlot unit))
      (fun _ t => Rests g e n f v₀ t ∧ unit < g.numUnits) (fun _ => Rests g e n f v₀) := by
  apply Triple.zoom
  rintro ⟨v,d⟩ hv
  by_cases hu : unit < g.numUnits
  · exact ((SlotStore.reserveSlot_shows unit).from_state hv.stands).weaken
      (fun _ _ hs => ⟨hv.store hs,hu⟩) (fun _ _ hs => hv.store hs) fun _ _ => trivial
  · unfold SlotStore.reserveSlot
    apply Triple.get_bind
    apply Triple.ofExcept_bind
    · intro _ hvalid
      have hgeo : v.store.geometry = g := hv.stands.fit.geometry
      rw [SlotStore.validateUnit,hgeo,if_pos (Nat.not_lt.mp hu)] at hvalid
      cases hvalid
    · rintro _ _ - rfl
      exact hv

theorem writeCt_rests [HashOrder] (unit : ℕ) (ciphertext : Bytes) (fua : Bool) :
    Runs (Rests g e n f v₀) (writeCt unit ciphertext fua) := by
  unfold writeCt
  apply Runs.get_bind
  rintro ⟨v,d⟩ hv
  refine Runs.from_state (.bind (.ofExcept _) fun _ => ?_) hv
  split
  · exact .ofExcept _
  · refine Triple.bind (reserveSlot_rests unit) fun _ => ?_
    rintro fs t ⟨ht,hu⟩
    exact ((journalRecord_rests hu ciphertext).bind fun _ =>
      (forceUnitAccess_rests _ _).when.bind fun _ => .pure _) fs t ht

omit [DefaultHasher] in
theorem reclaimUnwritten_rests (hf : Reclaimable g e f) (unit : ℕ) :
    Runs (Rests g e n f v₀) (reclaimUnwritten unit) := by
  unfold reclaimUnwritten
  apply Runs.get_bind
  rintro ⟨v,d⟩ hv
  simp only
  cases v.overlay.get unit with
  | some version => exact .pure fun _ ht => ht ▸ hv
  | none =>
    have hread : Answers (· = (v,d)) (Prog.attempt (v.store.slotSequence unit))
        (fun r t => t = (v,d) ∧ (r = .ok none → v.store.headerAt d unit = .ok none))
        (fun (_ : CoreError) => Rests g e n f v₀) := by
      apply Triple.attempt
      refine ((v.store.slotSequence_checks unit).triple (v,d)).weaken ?_ ?_
        fun _ _ => trivial
      · rintro a _ ⟨rfl,ha⟩
        refine ⟨rfl,?_⟩
        rintro ⟨⟩
        cases hh : v.store.headerAt d unit with
        | error x => simp [hh,Except.bind] at ha
        | ok header =>
          cases header with
          | none => rfl
          | some header => simp [hh,Except.bind] at ha
      · rintro x _ rfl
        exact ⟨rfl,by simp⟩
    refine .bind hread fun r => ?_
    have hskip : ∀ b : Bool, Leaves (fun t => t = (v,d) ∧ (r = .ok none →
        v.store.headerAt d unit = .ok none)) (Prog.pure b : Io Volume CoreError Bool)
        (Rests g e n f v₀) := fun b =>
      Triple.pure fun _ ht => ht.1 ▸ hv
    rcases r with _ | _ | _
    · exact hskip false
    rotate_left
    · exact hskip false
    · rintro fs t ⟨rfl,hheader⟩
      have hnone : (v.store.cell d unit).header g unit = .ok none := by
        rw [← hv.stands.fit.headerAt_eq unit]
        exact hheader rfl
      -- The discarded cell has no version either, so both facts go on together.
      let f' : ℕ → Cell → Prop := fun u c => f u c ∧ (u = unit → c.header g unit = .ok none)
      have hv' : Rests g e n f' v₀ (v,d) :=
        { hv with stands := ⟨hv.stands.fit,fun u => ⟨hv.stands.cells u,fun hu => hu ▸ hnone⟩,
            hv.stands.opened,hv.stands.names,hv.stands.aside⟩ }
      have hcall : Runs (Rests g e n f' v₀) (onStore (SlotStore.reclaimUnwritten unit)) := by
        refine onStore_rests fun _ => SlotStore.reclaimUnwritten_shows fun he c hc => ?_
        exact ⟨hf he unit c hc.1 (hc.2 rfl),fun _ => by simp [Cell.header]⟩
      have hweak : ∀ t, Rests g e n f' v₀ t → Rests g e n f v₀ t := fun t ht =>
        { ht with stands := ht.stands.mono fun _ _ hc => hc.1 }
      exact Triple.bind ((hcall.from_state hv').weaken (fun _ t ht => hweak t ht)
        (fun _ t ht => hweak t ht) fun _ ht => ht) (fun _ => Runs.pure true) fs _ rfl

theorem discardCt_rests (hf : Reclaimable g e f) (hg : v₀.superblock.geometry = g) (unit : ℕ)
    (fua : Bool) :
    Runs (Rests g e n f v₀) (discardCt unit fua) := by
  unfold discardCt
  apply Runs.get_bind
  rintro ⟨v,d⟩ hv
  refine Runs.from_state ?_ hv
  simp only
  split
  · exact .throw _
  split
  · exact .throw _
  rename_i hunit
  have hu : unit < g.numUnits := by
    rw [← hg,← hv.superblock]
    exact Nat.not_le.mp hunit
  cases v.overlay.get unit with
  | some version =>
    simp only
    split
    · exact repeatDiscard_rests _ _
    · exact discardRecord_rests hu _
  | none =>
    refine (reclaimUnwritten_rests hf unit).bind fun zero => ?_
    cases zero with
    | true =>
      simp only [if_true]
      apply Runs.get_bind
      exact fun _ ht => (Runs.pure _).from_state ht
    | false => exact discardRecord_rests hu _

end Journal
end Requests
end Volume
end Maki
