import Maki.Volume
import Maki.SlotReads
import Maki.JournalCounters
import Maki.JournalReplay
import Maki.Frame

/-! What a volume's calls keep, however they end: its journal's counters, the overlay that tracks the
accepted records, and the plans that checkpoint them. -/
namespace Maki

open Prog hiding pure bind throw get modify
namespace Volume

/-- What holds of a volume between calls, for the records accepted in its session. -/
structure Sound (v : Volume) (accepted : List JournalRecord) : Prop where
  durable : v.journal.durableSequence ≤ v.journal.appendedSequence
  next : v.journal.nextSequence = v.journal.appendedSequence+1
  bounded : ∀ r ∈ accepted, r.sequence ≤ v.journal.appendedSequence
  checkpoint : v.checkpointSequence ≤ v.journal.durableSequence
  tracks : v.overlay.Tracks accepted v.checkpointSequence v.journal.durableSequence

def acceptedBy (before after : Volume) (unit : ℕ) (payload : Bytes) : List JournalRecord :=
  if before.journal.appendedSequence < after.journal.appendedSequence then
    [⟨after.journal.appendedSequence,unit,payload⟩]
  else []

/-- A sound volume whose durable boundary is `durable` or later. -/
def Going (durable appended : ℕ) (accepted : List JournalRecord) (t : Volume × Disk) : Prop :=
  t.1.Sound accepted ∧ durable ≤ t.1.journal.durableSequence ∧
    t.1.journal.appendedSequence = appended

/-- A sound volume whose journal went on from `v` without accepting a record. -/
def After (v : Volume) (accepted : List JournalRecord) : Volume × Disk → Prop :=
  Going v.journal.durableSequence v.journal.appendedSequence accepted

/-- A sound volume that has journaled at most the one record of a call on `v`. -/
def Journaled (v : Volume) (accepted : List JournalRecord) (unit : ℕ) (payload : Bytes)
    (t : Volume × Disk) : Prop :=
  t.1.Sound (accepted ++ acceptedBy v t.1 unit payload) ∧
    v.journal.durableSequence ≤ t.1.journal.durableSequence

section Components

variable {v : Volume} {d : Disk} {accepted : List JournalRecord}

theorem onStore_keeps {α ε : Type} {K : Volume → Prop} (hK : ∀ v s, K v → K { v with store := s })
    (p : Io SlotStore ε α) : Keeps (fun t => K t.1) (onStore p) := by
  apply Keeps.zoom
  rintro ⟨v,d⟩ hv fs s -
  rcases p fs s with ⟨o,fs',s'⟩
  cases o <;> exact hK v _ hv

theorem onJournal_triple {α ε : Type} {p : Io JournalWriter ε α}
    {pre : JournalWriter × Disk → Prop} {ok : α → JournalWriter × Disk → Prop}
    {err : ε → JournalWriter × Disk → Prop} {lost : JournalWriter × Disk → Prop}
    (h : Triple pre p ok err lost) (hv : pre (v.journal,d)) :
    Answers (· = (v,d)) (onJournal p)
      (fun a t => ∃ j, t.1 = { v with journal := j } ∧ ok a (j,t.2))
      (fun e t => ∃ j, t.1 = { v with journal := j } ∧ err e (j,t.2)) := by
  apply Triple.zoom
  rintro _ rfl
  refine h.conseq (fun _ hs => hs ▸ hv) ?_ ?_ fun _ _ => trivial
  · exact fun a s hs => ⟨s.1,rfl,hs⟩
  · exact fun e s hs => ⟨s.1,rfl,hs⟩

section Kept

variable (h : v.Sound accepted)

include h

theorem Sound.store (s : SlotStore) : Sound { v with store := s } accepted :=
  { h with }

theorem Sound.at : JournalWriter.At v.journal.durableSequence
    v.journal.appendedSequence (v.journal.appendedSequence+1) (v.journal,d) := ⟨rfl,rfl,h.next⟩

/-- Promoting behind a journal call that accepted no record. -/
theorem Sound.promote {j : JournalWriter}
    (hj : JournalWriter.Moved v.journal.durableSequence v.journal.appendedSequence
      (v.journal.appendedSequence+1) (j,d)) :
    (Volume.promote { v with journal := j }).Sound accepted ∧
      v.journal.durableSequence ≤ j.durableSequence ∧
      j.appendedSequence = v.journal.appendedSequence := by
  have happ : j.appendedSequence = v.journal.appendedSequence := by
    rcases hj with hj | hj <;> exact hj.2.1
  have hnext : j.nextSequence = v.journal.appendedSequence+1 := by
    rcases hj with hj | hj <;> exact hj.2.2
  have hmoved : v.journal.durableSequence ≤ j.durableSequence ∧
      j.durableSequence ≤ v.journal.appendedSequence ∧
      (j.durableSequence = v.journal.durableSequence ∨
        ∀ r ∈ accepted, r.sequence ≤ j.durableSequence) := by
    rcases hj with hj | hj
    · have hd : j.durableSequence = v.journal.durableSequence := hj.1
      exact ⟨Nat.le_of_eq hd.symm,hd ▸ h.durable,.inl hd⟩
    · have hd : j.durableSequence = v.journal.appendedSequence := hj.1
      exact ⟨hd ▸ h.durable,Nat.le_of_eq hd,.inr fun r hr => hd ▸ h.bounded r hr⟩
  obtain ⟨hle,hup,hcover⟩ := hmoved
  refine ⟨⟨by simpa only [Volume.promote,happ] using hup,by simpa only [Volume.promote,happ] using hnext,?_,?_,?_⟩,hle,happ⟩
  · intro r hr
    simpa only [Volume.promote,happ] using h.bounded r hr
  · exact Nat.le_trans h.checkpoint hle
  · exact h.tracks.promote hle hcover

/-- Publishing an accepted record, whose sequence follows everything appended before it. -/
theorem Sound.publish {r : JournalRecord} {n : ℕ}
    (hr : r.sequence = v.journal.appendedSequence+1) (hn : n = r.sequence+1) :
    Sound { v with
      journal := { v.journal with appendedSequence := r.sequence, nextSequence := n }
      overlay := v.overlay.publish r.unitIndex r.sequence r.payload } (accepted ++ [r]) where
  durable := by
    have hd := h.durable
    simp only
    omega
  next := hn
  bounded := by
    refine forall_mem_concat (fun t ht => ?_) (Nat.le_refl _)
    have hb := h.bounded t ht
    simp only
    omega
  checkpoint := h.checkpoint
  tracks := by
    refine h.tracks.publish ?_ fun t ht => ?_
    · have hd := h.durable
      omega
    · have hb := h.bounded t ht
      omega

theorem Sound.promote_self : v.promote.Sound accepted :=
  { h with tracks := h.tracks.promote_same }

end Kept

/-- What an append leaves of the volume: an accepted record has the next sequence, and only
the durable boundary may have moved besides. -/
def Appended (v : Volume) : Except CoreError ℕ → Volume × Disk → Prop
  | .ok n, t => ∃ j, t.1 = { v with journal :=
      { j with appendedSequence := n, nextSequence := n+1 } } ∧
      n = v.journal.appendedSequence+1 ∧ JournalWriter.Moved v.journal.durableSequence
        v.journal.appendedSequence (v.journal.appendedSequence+1) (j,t.2)
  | .error _, t => ∃ j, t.1 = { v with journal := j } ∧ JournalWriter.Moved
      v.journal.durableSequence v.journal.appendedSequence (v.journal.appendedSequence+1) (j,t.2)

theorem append_triple [Crc32] [DefaultHasher] (h : v.Sound accepted) (unit : ℕ) (payload : Bytes) :
    Answers (· = (v,d)) (Prog.attempt (onJournal (JournalWriter.append unit payload)))
      (Appended v) (fun (_ : CoreError) _ => False) := by
  apply Triple.attempt
  refine (onJournal_triple (JournalWriter.append_counters unit payload) h.at).weakenOk ?_
  rintro n ⟨_,d'⟩ ⟨j,rfl,rfl,hj⟩
  have ha : j.appendedSequence = v.journal.appendedSequence+1 := by
    rcases hj with hj | hj <;> exact hj.2.1
  have hn : j.nextSequence = j.appendedSequence+1 := by
    rcases hj with hj | hj <;> exact hj.2.2.trans (congrArg (·+1) hj.2.1.symm)
  refine ⟨{ j with
    appendedSequence := v.journal.appendedSequence
    nextSequence := v.journal.appendedSequence+1 },by simp only [← ha,← hn],rfl,?_⟩
  rcases hj with hj | hj
  · exact .inl ⟨hj.1,rfl,rfl⟩
  · exact .inr ⟨hj.1,rfl,rfl⟩

/-- A journaled record is published behind the promoted boundary, and a rejected one leaves
the session as it was. -/
theorem journalRecord_triple [Crc32] [DefaultHasher] (h : v.Sound accepted) (unit : ℕ) (payload : Bytes) :
    Answers (· = (v,d)) (journalRecord unit payload)
      (fun n t => n = v.journal.appendedSequence+1 ∧ t.1.journal.appendedSequence = n ∧
        v.journal.durableSequence ≤ t.1.journal.durableSequence ∧
        t.1.Sound (accepted ++ [⟨n,unit,payload⟩]))
      (fun _ => After v accepted) := by
  unfold journalRecord
  have happend := (append_triple (d := d) h unit payload).weakenErr
      (fun _ t (ht : False) => (ht.elim : After v accepted t))
  refine .bind happend fun r => ?_
  cases r with
  | error e =>
    have hpromote : Answers (Appended v (.error e)) (update promote)
        (fun _ => After v accepted) (fun (_ : CoreError) => After v accepted) := by
      apply Triple.modify
      rintro ⟨_,d'⟩ ⟨j,rfl,hj⟩
      exact h.promote hj
    exact .bind hpromote fun _ => .throw fun _ ht => ht
  | ok n =>
    have hstep : ∀ t, Appended v (.ok n) t →
        n = v.journal.appendedSequence+1 ∧ t.1.journal.appendedSequence = n ∧
        v.journal.durableSequence ≤ t.1.journal.durableSequence ∧
        ((publish unit n payload t.1.promote).promote).Sound (accepted ++ [⟨n,unit,payload⟩]) := by
      rintro ⟨_,d'⟩ ⟨j,rfl,rfl,hj⟩
      obtain ⟨hs,hle,happ⟩ := h.promote hj
      refine ⟨rfl,rfl,hle,Sound.promote_self ?_⟩
      exact hs.publish (r := ⟨_,unit,payload⟩) (by simp only [Volume.promote,happ]) rfl
    intro fs t ht
    obtain ⟨hn,ha,hle,hs⟩ := hstep t ht
    exact ⟨hn,ha,hle,hs⟩

theorem After.start (h : v.Sound accepted) : After v accepted (v,d) := ⟨h,Nat.le_refl _,rfl⟩

theorem After.journaled {t : Volume × Disk} (h : After v accepted t) (unit : ℕ) (payload : Bytes) :
    Journaled v accepted unit payload t := by
  have hnone : acceptedBy v t.1 unit payload = [] := if_neg (by rw [h.2.2]; omega)
  exact ⟨by rw [hnone,List.append_nil]; exact h.1,h.2.1⟩

theorem going_onStore {α ε : Type} {durable appended : ℕ} (p : Io SlotStore ε α) :
    Keeps (Going durable appended accepted) (onStore p) :=
  onStore_keeps (K := fun v => v.Sound accepted ∧ durable ≤ v.journal.durableSequence ∧
    v.journal.appendedSequence = appended) (fun _ s h => ⟨h.1.store s,h.2⟩) p

theorem Sound.journal (h : v.Sound accepted) {j : JournalWriter}
    (hj : JournalWriter.At v.journal.durableSequence v.journal.appendedSequence
      (v.journal.appendedSequence+1) (j,d)) : Sound { v with journal := j } accepted := by
  obtain ⟨hd,ha,hn⟩ := hj
  simp only at hd ha hn
  exact ⟨by simpa only [hd,ha] using h.durable,by simp only [hn,ha],by simpa only [ha] using h.bounded,
    Nat.le_trans h.checkpoint (Nat.le_of_eq hd.symm),hd ▸ h.tracks⟩

variable {durable appended : ℕ}

def Synced (v : Volume) : Except CoreError ℕ → Volume × Disk → Prop
  | .ok n, t => ∃ j, t.1 = { v with journal := j } ∧ n = j.durableSequence ∧
      JournalWriter.Moved v.journal.durableSequence v.journal.appendedSequence
        (v.journal.appendedSequence+1) (j,t.2)
  | .error _, t => ∃ j, t.1 = { v with journal := j } ∧
      JournalWriter.At v.journal.durableSequence v.journal.appendedSequence
        (v.journal.appendedSequence+1) (j,t.2)

theorem sync_triple [Crc32] [DefaultHasher] (h : v.Sound accepted) :
    Answers (· = (v,d)) (onJournal JournalWriter.sync)
      (fun n => Synced v (.ok n)) (fun e => Synced v (.error e)) := by
  refine (onJournal_triple JournalWriter.sync_counters h.at).weakenOk ?_
  rintro n ⟨_,d'⟩ ⟨j,rfl,rfl,hj⟩
  exact ⟨j,rfl,hj.1.symm,.inr hj⟩

theorem Synced.moved {r : Except CoreError ℕ} {t : Volume × Disk} (h : Synced v r t) :
    ∃ j, t.1 = { v with journal := j } ∧ JournalWriter.Moved v.journal.durableSequence
      v.journal.appendedSequence (v.journal.appendedSequence+1) (j,t.2) := by
  cases r with
  | ok n =>
    obtain ⟨j,hj,-,hm⟩ := h
    exact ⟨j,hj,hm⟩
  | error e =>
    obtain ⟨j,hj,hm⟩ := h
    exact ⟨j,hj,.inl hm⟩

theorem Synced.promote {r : Except CoreError ℕ} {t : Volume × Disk} (hr : Synced v r t)
    (h : Going durable appended accepted (v,d)) :
    Going durable appended accepted (t.1.promote,t.2) := by
  obtain ⟨_,d'⟩ := t
  obtain ⟨j,rfl,hj⟩ := hr.moved
  obtain ⟨hs,hle,ha⟩ := h.1.promote hj
  exact ⟨hs,Nat.le_trans h.2.1 hle,ha.trans h.2.2⟩

theorem forceUnitAccess_triple [Crc32] [DefaultHasher] (what : String) (sequence : ℕ) :
    Runs (Going durable appended accepted) (forceUnitAccess what sequence) := by
  apply Triple.ofEach
  rintro ⟨v,d⟩ h
  have hsync : Answers (· = (v,d)) (Prog.attempt (onJournal JournalWriter.sync))
      (Synced v) (fun (_ : CoreError) => Going durable appended accepted) :=
    Triple.attempt (sync_triple h.1)
  refine .bind hsync fun r => ?_
  have hpromote : Answers (Synced v r) (update promote)
      (fun _ => Going durable appended accepted)
      (fun (_ : CoreError) => Going durable appended accepted) :=
    Triple.modify fun _ hr => hr.promote h
  refine .bind hpromote fun _ => Triple.ofExcept_bind (fun n _ => ?_) fun _ _ _ ht => ht
  exact .ofExcept (fun _ _ _ ht => ht) fun _ _ _ ht => ht

/-- A barrier whose failure leaves the boundary where it was. -/
theorem barrier_triple [Crc32] [DefaultHasher] : Runs (Going durable appended accepted)
    barrier := by
  apply Triple.ofEach
  rintro ⟨v,d⟩ h
  have hsync : Answers (· = (v,d)) (onJournal JournalWriter.sync)
      (fun n => Synced v (.ok n)) (fun _ => Going durable appended accepted) := by
    refine (sync_triple h.1).weakenErr ?_
    rintro e ⟨_,d'⟩ ⟨j,rfl,hj⟩
    exact ⟨h.1.journal hj,by rw [hj.1]; exact h.2.1,hj.2.1.trans h.2.2⟩
  refine .bind hsync fun n => ?_
  have hpromote : Answers (Synced v (.ok n))
      (update fun v => { v with overlay := v.overlay.promote n })
      (fun _ => Going durable appended accepted)
      (fun (_ : CoreError) => Going durable appended accepted) := by
    apply Triple.modify
    rintro ⟨_,d'⟩ hr
    obtain ⟨j,rfl,rfl,-⟩ := id hr
    exact hr.promote h
  exact .bind hpromote fun _ => .pure fun _ ht => ht

theorem journaled_triple [Crc32] [DefaultHasher] (unit : ℕ) (payload : Bytes)
    (fua : Bool) (what : String) :
    Leaves (After v accepted) (do
        let sequence ← journalRecord unit payload
        Prog.when fua (forceUnitAccess what sequence)
        return sequence)
      (Journaled v accepted unit payload) := by
  apply Triple.ofEach
  rintro ⟨w,d⟩ hw
  have hfound : ∀ n (t : Volume × Disk), n = w.journal.appendedSequence+1 →
      Going v.journal.durableSequence n (accepted ++ [⟨n,unit,payload⟩]) t →
      Journaled v accepted unit payload t := by
    rintro n t hn ⟨hs,hd,ha⟩
    have hone : acceptedBy v t.1 unit payload = [⟨n,unit,payload⟩] := by
      have hlt : v.journal.appendedSequence < t.1.journal.appendedSequence := by
        rw [ha,hn,hw.2.2]
        exact Nat.lt_succ_self _
      rw [acceptedBy,if_pos hlt,ha]
    exact ⟨by rw [hone]; exact hs,hd⟩
  have hrec : Answers (· = (w,d)) (journalRecord unit payload)
      (fun n t => n = w.journal.appendedSequence+1 ∧
        Going v.journal.durableSequence n (accepted ++ [⟨n,unit,payload⟩]) t)
      (fun _ => Journaled v accepted unit payload) := by
    refine (journalRecord_triple hw.1 unit payload).weaken ?_ ?_ fun _ ht => ht
    · rintro n t ⟨hn,ha,hle,hs⟩
      exact ⟨hn,hs,Nat.le_trans hw.2.1 hle,ha⟩
    · rintro _ t ⟨hs,hd,ha⟩
      exact After.journaled ⟨hs,Nat.le_trans hw.2.1 hd,ha.trans hw.2.2⟩ unit payload
  refine .bind hrec fun n => ?_
  have hfua : Leaves (fun t => n = w.journal.appendedSequence+1 ∧
        Going v.journal.durableSequence n (accepted ++ [⟨n,unit,payload⟩]) t)
      (Prog.when fua (forceUnitAccess what n)) (Journaled v accepted unit payload) := by
    apply Triple.when
    · rintro - fs t ⟨hn,ht⟩
      exact ((forceUnitAccess_triple what n).weaken (fun _ s hs => hfound n s hn hs)
        (fun _ s hs => hfound n s hn hs) fun _ hs => hs) fs t ht
    · exact fun t _ ht => hfound n t ht.1 ht.2
  exact .bind hfua fun _ => .pure fun _ ht => ht

theorem writeCt_triple [Crc32] [DefaultHasher] [HashOrder] (h : v.Sound accepted) (unit : ℕ)
    (ciphertext : Bytes) (fua : Bool) :
    Leaves (· = (v,d)) (writeCt unit ciphertext fua)
      (Journaled v accepted unit ciphertext) := by
  have hstart : Journaled v accepted unit ciphertext (v,d) := (After.start h).journaled unit ciphertext
  unfold writeCt
  apply Triple.get_bind
  refine .ofExcept_bind (fun _ _ => ?_) fun _ _ _ ht => ht ▸ hstart
  by_cases hlong : ciphertext.length > v.superblock.geometry.maxCiphertextSize
  · simp only [if_pos hlong]
    exact .ofExcept (fun _ _ _ ht => ht ▸ hstart) fun _ _ _ ht => ht ▸ hstart
  · simp only [if_neg hlong]
    have hreserve : Answers (· = (v,d)) (onStore (SlotStore.reserveSlot unit))
        (fun _ => After v accepted) (fun _ => Journaled v accepted unit ciphertext) :=
      ((going_onStore _).from_state (After.start h)).weaken (fun _ _ ht => ht)
        (fun _ _ ht => After.journaled ht unit ciphertext) fun _ _ => trivial
    exact .bind hreserve fun _ => journaled_triple unit ciphertext fua "FUA"

theorem discardRecord_triple [Crc32] [DefaultHasher] (unit : ℕ) (fua : Bool) :
    Leaves (After v accepted) (discardRecord unit fua)
      (Journaled v accepted unit []) := by
  apply Triple.ofEach
  rintro ⟨w,d⟩ hw
  unfold discardRecord
  apply Triple.get_bind
  by_cases hend : w.journal.nextSequence = u64Max
  · simp only [if_pos hend]
    exact .throw fun _ ht => ht ▸ After.journaled hw unit []
  · simp only [if_neg hend]
    exact (journaled_triple unit [] fua "discard FUA").strengthen (fun _ ht => ht ▸ hw)

theorem reclaimUnwritten_keeps [Crc32] (unit : ℕ) :
    Keeps (Going durable appended accepted) (reclaimUnwritten unit) := by
  unfold reclaimUnwritten
  apply Keeps.get_bind
  rintro ⟨w,d⟩ hw
  refine Keeps.from_state ?_ hw
  simp only
  cases w.overlay.get unit with
  | some version => exact .pure _
  | none =>
    have hread : Keeps (Going durable appended accepted)
        (Prog.attempt (w.store.slotSequence unit) : Io Volume CoreError _) :=
      (Io.Still.ofChecks (w.store.slotSequence_checks unit)).keeps.attempt
    refine hread.bind fun r => ?_
    have hqueue : Keeps (Going durable appended accepted)
        (Prog.bind (onStore (SlotStore.reclaimUnwritten unit)) fun _ => Prog.pure true) :=
      (going_onStore _).bind fun _ => .pure _
    rcases r with _ | _ | _
    · exact .pure _
    · exact hqueue
    · exact .pure _

theorem discardCt_triple [Crc32] [DefaultHasher] (h : v.Sound accepted) (unit : ℕ) (fua : Bool) :
    Leaves (· = (v,d)) (discardCt unit fua) (Journaled v accepted unit []) := by
  have hstart : After v accepted (v,d) := After.start h
  have hdone : ∀ {t}, After v accepted t → Journaled v accepted unit [] t := fun ht =>
    After.journaled ht unit []
  have hrecord : Leaves (· = (v,d)) (discardRecord unit fua)
      (Journaled v accepted unit []) :=
    (discardRecord_triple unit fua).strengthen (fun _ ht => ht ▸ hstart)
  unfold discardCt
  apply Triple.get_bind
  simp only
  split
  · exact .throw fun _ ht => ht ▸ hdone hstart
  split
  · exact .throw fun _ ht => ht ▸ hdone hstart
  cases v.overlay.get unit with
  | some version =>
    simp only
    split
    · -- The unit is a discard already: only its barrier is left.
      have hfua : Leaves (· = (v,d)) (repeatDiscard version.sequence fua)
          (After v accepted) := by
        refine .bind (Triple.when (fun _ => ?_) fun _ _ ht => ht ▸ hstart) fun _ =>
          Triple.pure fun _ ht => ht
        refine .bind (barrier_triple.strengthen (fun _ ht => ht ▸ hstart)) fun _ => ?_
        exact .ofExcept (fun _ _ _ ht => ht) fun _ _ _ ht => ht
      exact hfua.weaken (fun _ _ ht => hdone ht) (fun _ _ ht => hdone ht) fun _ ht => ht
    · exact hrecord
  | none =>
    simp only
    have hreclaim : Answers (· = (v,d)) (reclaimUnwritten unit)
        (fun _ => After v accepted) (fun _ => Journaled v accepted unit []) :=
      ((reclaimUnwritten_keeps unit).from_state hstart).weaken (fun _ _ ht => ht)
        (fun _ _ ht => hdone ht) fun _ _ => trivial
    refine .bind hreclaim fun zero => ?_
    cases zero with
    | true =>
      apply Triple.ofEach
      rintro ⟨w,d'⟩ hw
      simp only [if_true]
      exact .get_bind (Triple.pure fun _ ht => ht ▸ hdone hw)
    | false => exact discardRecord_triple unit fua

theorem prepareCheckpoint_triple [Crc32] : Answers (Going durable appended accepted)
    prepareCheckpoint
    (fun p t => Going durable appended accepted t ∧ p.horizon ≤ t.1.journal.durableSequence)
    (fun _ => Going durable appended accepted) := by
  unfold prepareCheckpoint
  have hpromote : Answers (Going durable appended accepted) (update promote)
      (fun _ => Going durable appended accepted)
      (fun (_ : CoreError) => Going durable appended accepted) :=
    Triple.modify fun _ ht => ⟨ht.1.promote_self,ht.2⟩
  refine .bind hpromote fun _ => ?_
  apply Triple.ofEach
  rintro ⟨v,d⟩ hv
  apply Triple.get_bind
  simp only
  have hplan : Answers (· = (v,d)) (onStore (SlotStore.checkpointSlotPlan
        (((if v.journal.durableSequence ≤ v.checkpointSequence then []
          else v.overlay.collectDurable v.journal.durableSequence).filter fun i =>
            !v.supportsDiscard || !i.2.ciphertext.isEmpty).map (·.1))))
      (fun _ t => Going durable appended accepted t ∧
        t.1.journal.durableSequence = v.journal.durableSequence)
      (fun _ => Going durable appended accepted) := by
    have hkeep := onStore_keeps (K := fun w => (w.Sound accepted ∧
        durable ≤ w.journal.durableSequence ∧ w.journal.appendedSequence = appended) ∧
        w.journal.durableSequence = v.journal.durableSequence)
      (fun _ s h => ⟨⟨h.1.1.store s,h.1.2⟩,h.2⟩) (SlotStore.checkpointSlotPlan
        (((if v.journal.durableSequence ≤ v.checkpointSequence then []
          else v.overlay.collectDurable v.journal.durableSequence).filter fun i =>
            !v.supportsDiscard || !i.2.ciphertext.isEmpty).map (·.1)))
    exact (hkeep.from_state ⟨hv,rfl⟩).weaken (fun _ _ ht => ht)
      (fun _ _ ht => ht.1) fun _ _ => trivial
  refine .bind hplan fun slots => Triple.pure ?_
  rintro t ⟨ht,hd⟩
  refine ⟨ht,?_⟩
  rw [hd]
  exact Nat.max_le.mpr ⟨Nat.le_refl _,hv.1.checkpoint⟩

theorem execute_keeps [Crc32] {K : Volume → Prop} (p : PreparedCheckpoint) :
    Keeps (fun t => K t.1) (execute p) := by
  have hwrite : ∀ index sequence ciphertext, Io.Silent
      (p.slots.write index sequence ciphertext : Io Volume CoreError Unit) := by
    intro index sequence ciphertext
    unfold CheckpointSlotPlan.write
    split
    · exact .throw _
    · cases p.slots.targets[index]? with
      | none => exact .throw _
      | some target =>
        exact ((Io.Silent.hooked _ _).mapErr _).bind fun _ => (Io.Silent.hooked _ _).mapErr _
  have hslots : Io.Silent (Prog.forEach p.written.zipIdx fun x => do
      coreIo (Io.fp "checkpoint.slot_write")
      p.slots.write x.2 x.1.2.sequence x.1.2.ciphertext : Io Volume CoreError Unit) :=
    .forEach fun _ _ => ((Io.Silent.hooked _ _).mapErr _).bind fun _ => hwrite _ _ _
  have hsync : Io.Silent (p.slots.syncShards : Io Volume CoreError Unit) :=
    .forEach fun _ _ => ((Io.Silent.hooked _ _).mapErr _).bind fun _ => (Io.Silent.hooked _ _).mapErr _
  refine (hslots K).bind fun _ => (hsync K).bind fun _ => Keeps.get_bind ?_
  rintro ⟨v,d⟩ hv
  exact ((Keeps.ofExcept _).bind fun _ => .pure _).from_state hv

/-- A sound volume at checkpoint `c` with a plan up to `horizon`, which is durable. -/
def Due (durable appended : ℕ) (accepted : List JournalRecord) (c horizon : ℕ) (t : Volume × Disk) :
    Prop :=
  Going durable appended accepted t ∧ t.1.checkpointSequence = c ∧
    horizon ≤ t.1.journal.durableSequence

variable {c horizon : ℕ}

theorem due_onStore {α ε : Type} (p : Io SlotStore ε α) :
    Keeps (Due durable appended accepted c horizon) (onStore p) :=
  onStore_keeps (K := fun v => (v.Sound accepted ∧ durable ≤ v.journal.durableSequence ∧
    v.journal.appendedSequence = appended) ∧ v.checkpointSequence = c ∧
    horizon ≤ v.journal.durableSequence) (fun _ s h => ⟨⟨h.1.1.store s,h.1.2⟩,h.2⟩) p

theorem due_silent {α ε : Type} {p : Io Volume ε α} (h : Io.Silent p) :
    Keeps (Due durable appended accepted c horizon) p :=
  h fun v => (v.Sound accepted ∧ durable ≤ v.journal.durableSequence ∧
    v.journal.appendedSequence = appended) ∧ v.checkpointSequence = c ∧
    horizon ≤ v.journal.durableSequence

theorem due_deleteCovered (k : ℕ) :
    Keeps (Due durable appended accepted c horizon) (onJournal (JournalWriter.deleteCovered k)) := by
  apply Keeps.zoom
  rintro ⟨v,d⟩ ⟨hv,hc,hh⟩
  have hkeep : ∀ s : JournalWriter × Disk,
      JournalWriter.At v.journal.durableSequence v.journal.appendedSequence
        (v.journal.appendedSequence+1) s →
      Due durable appended accepted c horizon ({ v with journal := s.1 },s.2) := by
    rintro ⟨j,d'⟩ hj
    refine ⟨⟨hv.1.journal hj,?_,hj.2.1.trans hv.2.2⟩,hc,?_⟩
    · exact Nat.le_trans hv.2.1 (Nat.le_of_eq hj.1.symm)
    · exact Nat.le_trans hh (Nat.le_of_eq hj.1.symm)
  exact (JournalWriter.deleteCovered_counters k).conseq (fun s hs => hs ▸ hv.1.at)
    (fun _ s hs => hkeep s hs) (fun _ s hs => hkeep s hs) hkeep

theorem due_deferred {α : Type} {p : Io Volume CoreError α} {J : Volume × Disk → Prop}
    (h : Keeps J p) : Keeps J (deferred p) := by
  refine h.attempt.bind fun r => ?_
  cases r with
  | ok a => exact .pure _
  | error e => cases e <;> first | exact .pure _ | exact .throw _

theorem due_reclaimWindow : Keeps (Due durable appended accepted c horizon) reclaimWindow := by
  unfold reclaimWindow
  apply Keeps.get_bind
  rintro ⟨v,d⟩ hv
  exact ((due_deferred (due_onStore _)).bind fun _ => .pure _).from_state hv

theorem due_retire : Keeps (Due durable appended accepted c horizon)
    (update fun v => { v with overlay := v.overlay.retire c } : Io Volume CoreError Unit) := by
  apply Keeps.modify
  rintro ⟨v,d⟩ ⟨hv,hc,hh⟩
  refine ⟨⟨{ hv.1 with tracks := ?_ },hv.2⟩,hc,hh⟩
  obtain rfl : v.checkpointSequence = c := hc
  exact hv.1.tracks.retire hv.1.checkpoint

theorem due_syncJournalDir :
    Keeps (Due durable appended accepted c horizon) syncJournalDir :=
  due_silent (((Io.Silent.hooked _ _).mapErr _).bind fun _ => (Io.Silent.hooked _ _).mapErr _)

theorem finishIdle_keeps [Crc32] [HashOrder] :
    Keeps (Due durable appended accepted c horizon) (finishIdle c) := by
  unfold finishIdle
  refine due_retire.bind fun _ => Keeps.get_bind ?_
  rintro ⟨v,d⟩ hv
  refine Keeps.from_state ?_ hv
  refine ((due_onStore _).bind fun _ => due_onStore _).when.bind fun _ => ?_
  refine (due_deleteCovered _).bind fun deleted => ?_
  exact due_syncJournalDir.when.bind fun _ => due_reclaimWindow.bind fun _ => .pure _

/-- The checkpoint state is stored beside everything else, and changes in memory only after that. -/
theorem storeState_of [Crc32] {J : Volume × Disk → Prop} {P : Path → Prop} {h : ℕ}
    (hP : ∀ x, P (CheckpointState.store.path x))
    (hJ : ∀ v d d', J (v,d) → (d.Wf → Disk.Apart P d d') → J (v,d')) :
    Answers J (storeState h)
      (fun _ t => ∃ v d state, J (v,d) ∧ state.checkpointSequence = h ∧ t = ({ v with ckState := state },d))
      (fun _ => J) := by
  have hfp : Runs J (coreIo (Io.fp "checkpoint.state_store") : Io Volume CoreError Unit) :=
    .ofKeeps ((Io.Still.fp _).keeps.mapErr _)
  unfold storeState
  refine .bind hfp fun _ => Triple.ofEach ?_
  rintro ⟨v,d⟩ hv
  apply Triple.get_bind
  have hstore : Answers (· = (v,d)) (coreFormat (Io.withLocal
        { v.ckState with checkpointSequence := h } (CheckpointState.store.store CheckpointState)))
      (fun r t => J t ∧ r.2.checkpointSequence = h) (fun _ => J) := by
    apply Triple.mapErr
    apply Io.withLocal_triple
    have hrecord := AbStore.store_keeps_record CheckpointState
      (Q := fun r => r.checkpointSequence = h) (fun _ _ hr => hr) CheckpointState.store
    by_cases hwf : d.Wf
    · have hdisk := (AbStore.rewritable_apart (T := CheckpointState) hP
        CheckpointState.encode_ne_nil).store_keeps (m := { v.ckState with checkpointSequence := h })
        (Disk.Apart.refl hwf)
      have hkeep : ∀ d', Disk.Apart P d d' → J (v,d') := fun d' ha => hJ v d d' hv fun _ => ha
      exact (hdisk.and hrecord).conseq (fun t ht => ⟨ht,by rw [ht]⟩) (fun _ t ht => ⟨hkeep _ ht.1,ht.2⟩)
        (fun _ t ht => hkeep _ ht.1) fun _ _ => trivial
    · have hkeep : ∀ d', J (v,d') := fun d' => hJ v d d' hv fun hd => absurd hd hwf
      exact hrecord.conseq (fun _ ht => ht ▸ rfl) (fun _ _ ht => ⟨hkeep _,ht⟩) (fun _ _ _ => hkeep _)
        fun _ _ => trivial
  have hdir : Runs J (coreIo (Io.syncDir .checkpoint) : Io Volume CoreError Unit) := by
    apply Runs.ofKeeps
    apply Keeps.mapErr
    exact Io.syncDir_triple (fun v d ht => hJ v d _ ht fun hwf => (Disk.Apart.refl hwf).syncDir _)
      (fun _ ht => ht) fun _ ht => ht
  refine .bind hstore ?_
  rintro ⟨_,state⟩
  refine .bind hdir.fact fun _ => .modify ?_
  rintro ⟨w,d'⟩ ⟨hw,hs⟩
  exact ⟨w,d',state,hw,hs,rfl⟩

/-- The checkpoint state moves to the horizon after its durable store, or not at all. -/
theorem storeState_triple [Crc32] (hc : c ≤ horizon) :
    Answers (Due durable appended accepted c horizon) (storeState horizon)
      (fun _ => Due durable appended accepted horizon horizon)
      (fun _ => Due durable appended accepted c horizon) := by
  refine (storeState_of (P := fun _ => True) (fun _ => trivial) fun _ _ _ hv _ => hv).weakenOk ?_
  rintro _ _ ⟨w,d',state,⟨⟨hw,hd,ha⟩,hck,hh⟩,hs,rfl⟩
  have hle : w.checkpointSequence ≤ horizon := hck ▸ hc
  refine ⟨⟨{ hw with
    checkpoint := Nat.le_trans (Nat.le_of_eq hs) hh
    tracks := ?_ },hd,ha⟩,hs,hh⟩
  have htracks := hw.tracks.raise hle
  rwa [← hs] at htracks

theorem finishMaps_keeps [Crc32] [HashOrder] (p : PreparedCheckpoint) :
    Keeps (Due durable appended accepted c horizon) (finishMaps p) :=
  (Keeps.forEach fun _ _ => due_onStore _).bind fun _ =>
    ((Keeps.forEach fun _ _ => due_onStore _).bind fun _ => due_onStore _).when

theorem punchRetired_keeps (punchable : List ℕ) :
    Keeps (Due durable appended accepted c horizon) (punchRetired punchable) := by
  unfold punchRetired
  split
  · exact .pure _
  · refine (due_deferred (due_onStore _)).bind fun r => ?_
    cases r with
    | ok _ => exact .pure _
    | error _ =>
      refine (Keeps.modify fun t ht => ?_).bind fun _ => .pure _
      exact ⟨⟨ht.1.1.store _,ht.1.2⟩,ht.2⟩

/-- A plan's horizon is durable, so what it retires is checkpointed. -/
theorem finishPlan_triple [Crc32] [HashOrder] (p : PreparedCheckpoint) (hc : c ≤ p.horizon) :
    Leaves (Due durable appended accepted c p.horizon) (finishPlan p)
      (Going durable appended accepted) := by
  have hbefore : ∀ {α : Type} {q : Io Volume CoreError α},
      Keeps (Due durable appended accepted c p.horizon) q →
      Answers (Due durable appended accepted c p.horizon) q
        (fun _ => Due durable appended accepted c p.horizon)
        (fun _ => Going durable appended accepted) := fun hq =>
    Triple.weaken hq (fun _ _ h => h) (fun _ _ h => h.1) fun _ _ => trivial
  unfold finishPlan
  refine .bind (hbefore (finishMaps_keeps p)) fun _ => ?_
  apply Triple.ofEach
  rintro ⟨v,d⟩ hv
  apply Triple.get_bind
  simp only
  refine .bind ((hbefore (due_onStore _)).strengthen (fun _ h => h ▸ hv)) fun _ => ?_
  refine .bind ((storeState_triple hc).weakenErr (fun _ _ h => h.1)) fun _ => ?_
  have hafter : Keeps (Due durable appended accepted p.horizon p.horizon) (do
      let failed ← punchRetired (v.punchable p)
      let _ ← onJournal (JournalWriter.deleteCovered p.horizon)
      syncJournalDir
      update fun v => { v with overlay := v.overlay.retire p.horizon }
      Prog.when (!failed) reclaimWindow
      return p.horizon) :=
    (punchRetired_keeps _).bind fun failed => (due_deleteCovered _).bind fun _ =>
      due_syncJournalDir.bind fun _ => due_retire.bind fun _ => due_reclaimWindow.when.bind fun _ =>
        .pure _
  exact hafter.weaken (fun _ _ h => h.1) (fun _ _ h => h.1) fun _ _ => trivial

theorem finishCheckpoint_triple [Crc32] [HashOrder] {completed : CompletedCheckpoint}
    (h : Going durable appended accepted (v,d))
    (hp : completed.prepared.horizon ≤ v.journal.durableSequence) :
    Leaves (· = (v,d)) (finishCheckpoint completed)
      (Going durable appended accepted) := by
  unfold finishCheckpoint
  apply Triple.get_bind
  refine .ofExcept_bind (fun _ _ => ?_) fun _ _ _ ht => ht ▸ h
  by_cases hstale : v.checkpointSequence ≠ completed.prepared.baseCheckpoint
  · simp only [if_pos hstale]
    exact .throw fun _ ht => ht ▸ h
  · simp only [if_neg hstale]
    have hbase : v.checkpointSequence = completed.prepared.baseCheckpoint := not_not.mp hstale
    have hdue : Due durable appended accepted completed.prepared.baseCheckpoint
      completed.prepared.horizon (v,d) := ⟨h,hbase,hp⟩
    by_cases hidle : completed.prepared.horizon ≤ completed.prepared.baseCheckpoint
    · simp only [if_pos hidle]
      exact (finishIdle_keeps.from_state hdue).weaken (fun _ _ ht => ht.1)
        (fun _ _ ht => ht.1) fun _ _ => trivial
    · simp only [if_neg hidle]
      exact (finishPlan_triple _ (Nat.le_of_lt (Nat.not_le.mp hidle))).strengthen (fun _ ht => ht ▸ hdue)

end Components

end Volume
end Maki
