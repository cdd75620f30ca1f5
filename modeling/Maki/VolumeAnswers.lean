import Maki.Drain
import Maki.VolumeBacked

/-! What the calls of a volume in use answer: reads return the expected content of their unit, an
accepted call adds its record, and a unit that is reported unwritten reads as zeros. -/
namespace Maki

open Prog hiding pure bind throw get modify

def SlotRead.ofAnswer : Option (ℕ × Bytes) → SlotRead
  | none => .Zero
  | some (sequence,ciphertext) => .Ciphertext sequence ciphertext

section LastOf

variable {accepted : List JournalRecord} {unit : ℕ} {r : JournalRecord}

theorem lastOf_append_self {payload : Bytes} {sequence : ℕ} :
    lastOf (accepted ++ [⟨sequence,unit,payload⟩]) unit = some ⟨sequence,unit,payload⟩ := by
  simp [lastOf]

theorem le_lastOf (h : accepted.Pairwise (·.sequence < ·.sequence)) {t : JournalRecord} (ht : t ∈ accepted)
    (hu : t.unitIndex = unit) : ∃ r, lastOf accepted unit = some r ∧ t.sequence ≤ r.sequence := by
  obtain ⟨r,hr⟩ := Newest.exists_of_mem (P := fun x => x.unitIndex = unit) ⟨t,ht,hu⟩
  exact ⟨r,hr.lastOf h,hr.newest t ht hu⟩

end LastOf

namespace Volume

def content [Crc32] (v : Volume) (d : Disk) (unit : ℕ) : Except CoreError SlotRead :=
  match v.overlay.get unit with
  | some version => .ok (version.stored v.supportsDiscard)
  | none => v.store.slotAt d unit

section Answers

variable [Crc32] {g : Geometry} {e : Bool} {base : ℕ → Except CoreError SlotRead}
  {accepted : List JournalRecord} {plan : Plan} {v : Volume} {d : Disk}

variable (h : Backed g e base accepted plan (v,d))

include h

theorem Backed.supportsDiscard_eq : v.supportsDiscard = e :=
  h.stands.fit.enabled

/-- A unit without a version in memory has its content in its slot. -/
theorem Backed.uncovered {unit : ℕ}
    (hnone : v.overlay.units[unit]? = none) : (v.store.cell d unit).read g unit = kept e base accepted unit := by
  have hout : ∀ idle, ¬ Covered idle v unit := by
    rintro idle ⟨entry,he,-⟩
    simp [hnone] at he
  have hcell := h.stands.cells unit
  cases plan with
  | none => exact hcell.2.resolve_right (hout _)
  | prepared p => exact hcell.2.resolve_right (hout _)
  | executed p =>
    have hno : ¬ p.Writes unit := by
      rintro ⟨version,hm⟩
      obtain ⟨entry,he⟩ := (h.pending p (.inr rfl)).entered unit version (PreparedCheckpoint.mem_items hm)
      simp [hnone] at he
    exact (hcell.1.2 hno).2.resolve_right (hout _)

theorem Backed.content_eq (unit : ℕ) :
    v.content d unit = kept e base accepted unit := by
  unfold content Overlay.get
  cases hu : v.overlay.units[unit]? with
  | none =>
    simp only [Option.map_none]
    rw [h.stands.fit.slotAt_eq unit]
    exact h.uncovered hu
  | some entry =>
    simp only [Option.map_some]
    rw [h.supportsDiscard_eq,h.kept_latest hu]

theorem Backed.readCt_kept (unit : ℕ) :
    Answers (· = (v,d)) (readCt unit)
      (fun r t => t = (v,d) ∧ kept e base accepted unit = .ok (.ofAnswer r))
      (fun _ t => t = (v,d)) := by
  rw [← h.content_eq unit,content]
  unfold readCt
  apply Triple.get_bind
  simp only
  cases v.overlay.get unit with
  | some version =>
    simp only [OverlayVersion.stored]
    by_cases hempty : v.supportsDiscard && version.ciphertext.isEmpty
    · simp only [hempty,if_true]
      exact .pure fun _ ht => ⟨ht,rfl⟩
    · simp only [hempty,Bool.false_eq_true,if_false]
      exact .pure fun _ ht => ⟨ht,rfl⟩
  | none =>
    simp only
    refine .bind (((v.store.readSlot_checks unit).triple (v,d)).weakenLost
        fun _ _ => trivial) fun r => ?_
    cases r with
    | Zero => exact .pure fun _ ht => ht
    | Ciphertext sequence data => exact .pure fun _ ht => ht

theorem Backed.sequence_kept {unit : ℕ}
    (hnone : v.overlay.units[unit]? = none) {r : Option ℕ}
    (hr : ((v.store.headerAt d unit).bind fun header => .ok (header.map SlotHeader.writeSequence)) = .ok r) :
    (r = none → kept e base accepted unit = .ok .Zero) ∧
    ∀ sequence, r = some sequence → ∀ x, lastOf accepted unit = some x → x.sequence = sequence := by
  have hread := h.uncovered hnone
  obtain ⟨header,hh,hr⟩ := bind_ok_iff.mp hr
  obtain rfl := Except.ok.inj hr
  rw [h.stands.fit.headerAt_eq unit] at hh
  simp only [Cell.read,hh,Except.bind] at hread
  refine ⟨fun hn => ?_,fun sequence hs x hx => ?_⟩
  · obtain rfl := Option.map_eq_none_iff.mp hn
    exact hread.symm
  · obtain ⟨y,rfl,rfl⟩ := Option.map_eq_some_iff.mp hs
    -- A slot with a header never reads as zeros.
    simp only [kept,hx,SlotStore.verifiedPayload,OverlayVersion.stored,JournalRecord.version] at hread
    split at hread
    · by_cases hempty : (e && x.payload.isEmpty) = true
      · simp [hempty] at hread
      · simp only [hempty,Bool.false_eq_true,if_false,Except.ok.injEq,SlotRead.Ciphertext.injEq] at hread
        exact hread.1.symm
    · cases hread

/-- The current sequence of a unit: none if it reads as zeros, and else that of its last record. -/
theorem Backed.currentSequence_kept (unit : ℕ) :
    Answers (· = (v,d)) (currentSequence unit)
      (fun r t => t = (v,d) ∧ (r = none → kept e base accepted unit = .ok .Zero) ∧
        ∀ sequence, r = some sequence → ∀ x, lastOf accepted unit = some x → x.sequence = sequence)
      (fun _ t => t = (v,d)) := by
  unfold currentSequence
  apply Triple.get_bind
  simp only [Overlay.get]
  cases hu : v.overlay.units[unit]? with
  | some entry =>
    obtain ⟨r,hr,hlatest⟩ := h.sound.tracks.latest unit entry hu
    have hlast := hr.lastOf h.sound.tracks.ascending
    have hkept := h.kept_latest hu
    simp only [Option.map_some]
    rw [h.supportsDiscard_eq]
    split
    · rename_i hempty
      refine .pure fun _ ht => ⟨ht,fun _ => ?_,by simp⟩
      rw [hkept,OverlayVersion.stored,if_pos hempty]
    · refine .pure fun _ ht => ⟨ht,by simp,?_⟩
      rintro _ ⟨⟩ x hx
      obtain rfl := Option.some.inj (hlast.symm.trans hx)
      rw [hlatest]
      rfl
  | none =>
    simp only [Option.map_none]
    refine ((v.store.slotSequence_checks unit).triple (v,d)).weaken ?_
      (fun _ _ ht => ht) fun _ _ => trivial
    exact fun _ _ ht => ⟨ht.1,h.sequence_kept hu ht.2⟩

/-- Where a unit has content, both calls succeed unless the disk fails. -/
theorem Backed.readCt_quiet {unit : ℕ} {x : SlotRead} (hx : kept e base accepted unit = .ok x) :
    ∃ r, readCt unit [] (v,d) = (.ok r,[],v,d) := by
  have hcontent := (h.content_eq unit).trans hx
  unfold content at hcontent
  simp only [readCt,bind,Prog.bind,Prog.get]
  cases hv : v.overlay.get unit with
  | some version =>
    simp only
    split <;> exact ⟨_,rfl⟩
  | none =>
    rw [hv] at hcontent
    have hread := (v.store.readSlot_checks unit).quiet_of_ok (s := (v,d)) hcontent
    simp only [Prog.bind,hread]
    cases x <;> exact ⟨_,rfl⟩

theorem Backed.currentSequence_quiet {unit : ℕ} {x : SlotRead} (hx : kept e base accepted unit = .ok x) :
    ∃ sequence, currentSequence unit [] (v,d) = (.ok sequence,[],v,d) := by
  simp only [currentSequence,bind,Prog.bind,Prog.get]
  cases hv : v.overlay.get unit with
  | some version =>
    simp only
    split <;> exact ⟨_,rfl⟩
  | none =>
    have hread := (h.uncovered (by simpa [Overlay.get] using hv)).trans hx
    obtain ⟨header,hheader,-⟩ := bind_ok_iff.mp hread
    rw [← h.stands.fit.headerAt_eq unit] at hheader
    exact ⟨_,(v.store.slotSequence_checks unit).quiet_of_ok (s := (v,d)) (by rw [hheader]; rfl)⟩

end Answers

section Accepting

variable [Crc32] {g : Geometry} {e : Bool}
  {base : ℕ → Except CoreError SlotRead} {accepted : List JournalRecord} {plan : Plan} {v : Volume}
  {d : Disk}

theorem Backed.reclaimUnwritten_zero (h : Backed g true base accepted plan (v,d)) (unit : ℕ) :
    Returns (· = (v,d)) (reclaimUnwritten unit)
      (fun zero _ => zero = true → kept true base accepted unit = .ok .Zero) := by
  unfold reclaimUnwritten
  apply Triple.get_bind
  simp only [Overlay.get]
  cases hu : v.overlay.units[unit]? with
  | some entry =>
    refine .pure fun _ _ hempty => ?_
    rw [h.kept_latest hu,OverlayVersion.stored,Bool.true_and,if_pos hempty]
  | none =>
    have hread : Returns (· = (v,d)) (Prog.attempt (v.store.slotSequence unit) : Io Volume CoreError _)
        (fun r _ => r = .ok none → kept true base accepted unit = .ok .Zero) := by
      apply Triple.attempt
      refine ((v.store.slotSequence_checks unit).triple (v,d)).weaken ?_ ?_
        fun _ _ => trivial
      · rintro a _ ⟨-,ha⟩ ⟨⟩
        exact (h.sequence_kept hu ha).1 rfl
      · rintro x _ - hx
        cases hx
    simp only [Option.map_none]
    refine .bind hread fun r => ?_
    rcases r with _ | _ | _
    · exact .pure fun _ _ hf => Bool.noConfusion hf
    rotate_left
    · exact .pure fun _ _ hf => Bool.noConfusion hf
    · rintro fs t ht
      exact (Triple.bind (.any (fun _ => True) _) fun _ => .pure fun _ _ _ => ht rfl) fs t trivial

theorem Backed.reclaim (h : Backed g true base accepted plan (v,d)) (unit : ℕ) :
    Answers (· = (v,d)) (reclaimUnwritten unit)
      (fun zero t => (Backed g true base accepted plan t ∧
        t.1.journal.appendedSequence = v.journal.appendedSequence) ∧
        (zero = true → kept true base accepted unit = .ok .Zero))
      (fun _ t => Backed g true base accepted plan t ∧
        t.1.journal.appendedSequence = v.journal.appendedSequence) := by
  have hcore : Reclaimable g true (core g true (kept true base accepted) (Covered plan.Idle v)) :=
    reclaimable_core
  have hrests := (reclaimUnwritten_rests (reclaimable_cells plan hcore) unit).from_state h.rests
  have hgoing : Keeps (After v accepted) (reclaimUnwritten unit) := reclaimUnwritten_keeps unit
  have hdone : ∀ t : Volume × Disk, Rests g true (plan.names g)
      (plan.cells g true (core g true (kept true base accepted) (Covered plan.Idle v))) v t →
      After v accepted t → Backed g true base accepted plan t ∧
        t.1.journal.appendedSequence = v.journal.appendedSequence := by
    intro t hr ha
    have hsound : t.1.Sound (accepted ++ []) := (List.append_nil accepted).symm ▸ ha.1
    have hb := h.grow hr hsound ha.2.1 (by simp)
    rw [List.append_nil] at hb
    exact ⟨hb,ha.2.2⟩
  refine ((hrests.and (hgoing.from_state (After.start h.sound))).and
    (h.reclaimUnwritten_zero unit)).conseq (fun _ ht => ⟨⟨ht,ht⟩,ht⟩) ?_ ?_ fun _ _ => trivial
  · rintro zero t ⟨⟨hr,ha⟩,hz⟩
    exact ⟨hdone t hr ha,hz⟩
  · rintro _ t ⟨⟨hr,ha⟩,-⟩
    exact hdone t hr ha

theorem Backed.prepare_appended (h : Backed g e base accepted .none (v,d)) :
    Answers (· = (v,d)) prepareCheckpoint
      (fun p t => Backed g e base accepted (.prepared p) t ∧
        t.1.journal.appendedSequence = v.journal.appendedSequence)
      (fun _ t => Backed g e base accepted .none t ∧
        t.1.journal.appendedSequence = v.journal.appendedSequence) := by
  have hgoing : Answers (After v accepted) prepareCheckpoint
      (fun p t => After v accepted t ∧ p.horizon ≤ t.1.journal.durableSequence)
      (fun _ => After v accepted) := prepareCheckpoint_triple
  have hstart : After v accepted (v,d) := After.start h.sound
  refine (h.prepare.and hgoing).conseq (fun _ ht => ⟨ht,ht ▸ hstart⟩) ?_ ?_ fun _ _ => trivial
  · rintro p t ⟨hb,hg,-⟩
    exact ⟨hb,hg.2.2⟩
  · rintro _ t ⟨hb,hg⟩
    exact ⟨hb,hg.2.2⟩

theorem Backed.execute_appended {p : PreparedCheckpoint} (h : Backed g e base accepted (.prepared p) (v,d)) :
    Answers (· = (v,d)) (Volume.execute p)
      (fun c t => (c = ⟨p⟩ ∧ Backed g e base accepted (.executed p) t) ∧
        t.1.journal.appendedSequence = v.journal.appendedSequence)
      (fun _ t => Backed g e base accepted .none t ∧
        t.1.journal.appendedSequence = v.journal.appendedSequence) := by
  have hsame : Keeps (fun t => t.1 = v) (Volume.execute p) := execute_keeps (K := fun w => w = v) p
  refine (h.execute.and hsame).conseq (fun _ ht => ⟨ht,ht ▸ rfl⟩) ?_ ?_ fun _ _ => trivial
  · rintro c t ⟨hb,hv⟩
    exact ⟨hb,by rw [hv]⟩
  · rintro _ t ⟨hb,hv⟩
    exact ⟨hb,by rw [hv]⟩

variable [DefaultHasher]

theorem journalRecord_appends {w : Volume} (hw : w.Sound accepted) {k : ℕ}
    (hk : k ≤ w.journal.appendedSequence) (unit : ℕ) (payload : Bytes) (what : String) :
    Returns (· = (w,d)) (do
        let sequence ← journalRecord unit payload
        Prog.when false (forceUnitAccess what sequence)
        return sequence)
      (fun _ t => k < t.1.journal.appendedSequence) := by
  refine .bind ((journalRecord_triple hw unit payload).weakenErr (fun _ _ _ => trivial)) fun n => ?_
  have hstay : ∀ t : Volume × Disk, (n = w.journal.appendedSequence+1 ∧ t.1.journal.appendedSequence = n ∧
      w.journal.durableSequence ≤ t.1.journal.durableSequence ∧
      t.1.Sound (accepted ++ [⟨n,unit,payload⟩])) → k < t.1.journal.appendedSequence := by
    rintro t ⟨hn,ha,-⟩
    rw [ha,hn]
    exact Nat.lt_succ_of_le hk
  exact .bind (Triple.when (fun hf => Bool.noConfusion hf) fun t _ ht => hstay t ht)
    fun _ => .pure fun _ ht => ht

/-- A discard that succeeds has a record, unless its unit was zero already. -/
theorem Backed.discardCt_zero (h : Backed g true base accepted plan (v,d)) (unit : ℕ) :
    Returns (· = (v,d)) (discardCt unit false)
      (fun _ t => v.journal.appendedSequence < t.1.journal.appendedSequence ∨
        kept true base accepted unit = .ok .Zero) := by
  have hrecord : Returns (After v accepted) (discardRecord unit false)
      (fun _ t => v.journal.appendedSequence < t.1.journal.appendedSequence ∨
        kept true base accepted unit = .ok .Zero) := by
    apply Triple.ofEach
    rintro ⟨w,d⟩ hw
    unfold discardRecord
    apply Triple.get_bind
    simp only
    split
    · exact .throw fun _ _ => trivial
    · exact (journalRecord_appends hw.1 (Nat.le_of_eq hw.2.2.symm) unit [] _).weakenOk (fun _ _ ht => .inl ht)
  have hstart : After v accepted (v,d) := After.start h.sound
  unfold discardCt
  apply Triple.get_bind
  simp only [Overlay.get]
  split
  · exact .throw fun _ _ => trivial
  split
  · exact .throw fun _ _ => trivial
  cases hu : v.overlay.units[unit]? with
  | some entry =>
    simp only [Option.map_some]
    split
    · rename_i hempty
      have hzero : kept true base accepted unit = .ok .Zero := by
        rw [h.kept_latest hu,OverlayVersion.stored,Bool.true_and,if_pos hempty]
      exact (Triple.any _ _).conseq (fun _ _ => trivial) (fun _ _ _ => .inr hzero)
        (fun _ _ _ => trivial) fun _ _ => trivial
    · exact hrecord.strengthen (fun _ ht => ht ▸ hstart)
  | none =>
    have hgoing : Keeps (After v accepted) (reclaimUnwritten unit) := reclaimUnwritten_keeps unit
    have hreclaim : Returns (· = (v,d)) (reclaimUnwritten unit)
        (fun zero t => After v accepted t ∧ (zero = true → kept true base accepted unit = .ok .Zero)) :=
      ((hgoing.from_state hstart).and (h.reclaimUnwritten_zero unit)).conseq
        (fun _ ht => ⟨ht,ht⟩) (fun _ _ ht => ht) (fun _ _ _ => trivial) fun _ _ => trivial
    simp only [Option.map_none]
    refine .bind hreclaim fun zero => ?_
    cases zero with
    | true =>
      simp only [if_true]
      apply Triple.ofEach
      rintro t ⟨-,hz⟩
      have hzero := hz trivial
      exact .get_bind (Triple.pure fun _ _ => .inr hzero)
    | false =>
      exact hrecord.strengthen (fun _ ht => ht.1)

variable [HashOrder]

theorem Backed.rests_run (h : Backed g e base accepted plan (v,d)) (q : Request) :
    Leaves (· = (v,d)) q.run
      (Rests g e (plan.names g)
        (plan.cells g e (core g e (kept e base accepted) (Covered plan.Idle v))) v) :=
  (Request.run_rests (reclaimable_cells plan reclaimable_core) h.geometry q).from_state h.rests

/-- A request, however it ends; no sequence is handed out twice. -/
theorem Backed.serve (h : Backed g e base accepted plan (v,d)) (q : Request) :
    Leaves (· = (v,d)) q.run
      (fun t => Backed g e base (accepted ++ q.accepted v t.1) plan t ∧
        v.journal.appendedSequence ≤ t.1.journal.appendedSequence) := by
  have hnext : ∀ t : Volume × Disk, Backed g e base (accepted ++ q.accepted v t.1) plan t →
      v.journal.appendedSequence < t.1.journal.nextSequence →
      v.journal.appendedSequence ≤ t.1.journal.appendedSequence := by
    intro t ht hlt
    rw [ht.sound.next] at hlt
    exact Nat.le_of_lt_succ hlt
  refine ((h.request q).and (h.rests_run q)).conseq (fun _ ht => ⟨ht,ht⟩) ?_ ?_ fun _ _ => trivial
  · rintro _ t ⟨hb,hr⟩
    exact ⟨hb,hnext t hb hr.next⟩
  · rintro _ t ⟨hb,hr⟩
    exact ⟨hb,hnext t hb hr.next⟩

theorem writeCt_appends (h : v.Sound accepted) (unit : ℕ) (ciphertext : Bytes) :
    Returns (· = (v,d)) (writeCt unit ciphertext false)
      (fun _ t => v.journal.appendedSequence < t.1.journal.appendedSequence) := by
  unfold writeCt
  apply Triple.get_bind
  refine .ofExcept_bind (fun _ _ => ?_) fun _ _ _ _ => trivial
  split
  · refine .ofExcept (fun a _ ha _ => ?_) fun _ _ _ _ => trivial
    simp [SlotStore.exceedsMax] at ha
  · refine .bind (((going_onStore (SlotStore.reserveSlot unit)).from_state
      (After.start h)).weaken (fun _ _ ht => ht) (fun _ _ _ => trivial)
      fun _ _ => trivial) fun _ => ?_
    apply Triple.ofEach
    rintro ⟨w,d⟩ hw
    exact journalRecord_appends hw.1 (Nat.le_of_eq hw.2.2.symm) unit ciphertext _

omit [DefaultHasher] in
theorem Backed.finish_appended {p : PreparedCheckpoint} (h : Backed g e base accepted (.executed p) (v,d)) :
    Leaves (· = (v,d)) (finishCheckpoint ⟨p⟩)
      (fun t => Backed g e base accepted .none t ∧
        t.1.journal.appendedSequence = v.journal.appendedSequence) := by
  have hgoing : Going v.journal.durableSequence v.journal.appendedSequence accepted (v,d) :=
    After.start h.sound
  have hdurable : (CompletedCheckpoint.mk p).prepared.horizon ≤ v.journal.durableSequence :=
    (h.pending p (.inr rfl)).durable
  refine (h.finish.and (finishCheckpoint_triple hgoing hdurable)).conseq
    (fun _ ht => ⟨ht,ht⟩) ?_ ?_ fun _ _ => trivial
  · rintro _ t ⟨hb,hg⟩
    exact ⟨hb,hg.2.2⟩
  · rintro _ t ⟨hb,hg⟩
    exact ⟨hb,hg.2.2⟩

end Accepting
end Volume
end Maki
