import Mathlib
import Maki.VolumeRun
import Maki.Creation

/-! Sessions of a recovered volume: requests, checkpoint plans prepared, executed and finished
between them, each call ending as the environment decides. No durable record leaves the overlay
before it is checkpointed, and reads return every unit's newest accepted record. -/
namespace Maki

open Prog hiding pure bind throw get modify
namespace Volume

/-- A request of a session, and the unit and payload it journals if it is accepted. -/
inductive Request where
  | write (unit : ℕ) (ciphertext : Bytes) (fua : Bool)
  | discard (unit : ℕ) (fua : Bool)
  | flush
  | reclaim (unit : ℕ)

namespace Request

def run [Crc32] [DefaultHasher] [HashOrder] : Request → Io Volume CoreError Unit
  | .write unit ciphertext fua => do
    let _ ← writeCt unit ciphertext fua
    return ()
  | .discard unit fua => do
    let _ ← discardCt unit fua
    return ()
  | .flush => Volume.flush
  | .reclaim unit => do
    let _ ← reclaimUnwritten unit
    return ()

def accepted (before after : Volume) : Request → List JournalRecord
  | .write unit ciphertext _ => acceptedBy before after unit ciphertext
  | .discard unit _ => acceptedBy before after unit []
  | .flush | .reclaim _ => []

end Request

/-- A volume in use: the checkpoint plans that are under way and the records it accepted. -/
structure Session where
  volume : Volume
  disk : Disk
  prepared : List PreparedCheckpoint := []
  completed : List CompletedCheckpoint := []
  accepted : List JournalRecord := []

/-- One call of a session. A call that fails keeps whatever it did before it failed. -/
inductive Session.Step [Crc32] [DefaultHasher] [HashOrder] : Session → Session → Prop
  | request {s : Session} {q : Request} {fs fs' : List Fault} {o : Outcome CoreError Unit}
      {v : Volume} {d : Disk} (hrun : q.run fs (s.volume,s.disk) = (o,fs',v,d)) (hlive : o ≠ .lost) :
      Step s { s with volume := v, disk := d, accepted := s.accepted ++ q.accepted s.volume v }
  | prepare {s : Session} {fs fs' : List Fault} {p : PreparedCheckpoint} {v : Volume} {d : Disk}
      (hrun : prepareCheckpoint fs (s.volume,s.disk) = (.ok p,fs',v,d)) :
      Step s { s with volume := v, disk := d, prepared := p::s.prepared }
  | prepareFailed {s : Session} {fs fs' : List Fault} {e : CoreError} {v : Volume} {d : Disk}
      (hrun : prepareCheckpoint fs (s.volume,s.disk) = (.err e,fs',v,d)) :
      Step s { s with volume := v, disk := d }
  | execute {s : Session} {fs fs' : List Fault} {p : PreparedCheckpoint} {c : CompletedCheckpoint}
      {v : Volume} {d : Disk} (hp : p ∈ s.prepared)
      (hrun : Volume.execute p fs (s.volume,s.disk) = (.ok c,fs',v,d)) :
      Step s { s with volume := v, disk := d, completed := c::s.completed }
  | executeFailed {s : Session} {fs fs' : List Fault} {p : PreparedCheckpoint} {e : CoreError}
      {v : Volume} {d : Disk} (hp : p ∈ s.prepared)
      (hrun : Volume.execute p fs (s.volume,s.disk) = (.err e,fs',v,d)) :
      Step s { s with volume := v, disk := d }
  | finish {s : Session} {fs fs' : List Fault} {c : CompletedCheckpoint} {o : Outcome CoreError ℕ}
      {v : Volume} {d : Disk} (hc : c ∈ s.completed)
      (hrun : finishCheckpoint c fs (s.volume,s.disk) = (o,fs',v,d)) (hlive : o ≠ .lost) :
      Step s { s with volume := v, disk := d }

/-- What a read of a unit returns for its newest record: a v3 discard reads as zeros. -/
def value (v : Volume) (r : JournalRecord) : Option (ℕ × Bytes) :=
  if v.supportsDiscard && r.payload.isEmpty then none else some (r.sequence,r.payload)

section Start

variable [Crc32] [DefaultHasher] [HashOrder] {μ : Type}

omit [HashOrder] in
theorem scan_discards (superblock : Superblock) (c segmentSize : ℕ) (proof : Option DurableProof) :
    Returns (fun _ => True)
      (scanJournalWithProof superblock c segmentSize proof .Discard : Io μ RecoveryError _)
      (fun scan _ => scan.replay = [] ∧ c ≤ scan.durableSequence) := by
  rintro fs ⟨m,d⟩ -
  rcases hr : scanJournalWithProof superblock c segmentSize proof .Discard fs (m,d) with
    ⟨o,fs',m',d'⟩
  cases o with
  | err e => trivial
  | lost => trivial
  | ok scan =>
    obtain ⟨-,-,-,-,-,hdur,-,hparts,-⟩ := scan_eq hr
    have hpush : ∀ rs : List JournalRecord, rs.foldl ReplayRecords.push .Discard = .Discard := by
      intro rs
      induction rs with
      | nil => rfl
      | cons r rs ih => exact ih
    rw [hpush] at hparts
    exact ⟨(Prod.mk.inj hparts).1,hdur ▸ Nat.le_max_left _ _⟩

omit [DefaultHasher] [HashOrder] in
theorem storeCheckpointState_sequence (state : CheckpointState) :
    Returns (fun _ => True) (storeCheckpointState state : Io μ RecoveryError _)
      (fun r _ => r.checkpointSequence = state.checkpointSequence) := by
  have hstore : Returns (fun _ => True) (recoveryFormat (Io.withLocal state
        (CheckpointState.store.store CheckpointState)) : Io μ RecoveryError _)
      (fun r _ => r.2.checkpointSequence = state.checkpointSequence) := by
    apply Triple.mapErr
    apply Triple.ofEach
    rintro ⟨m,d⟩ -
    apply Io.withLocal_triple
    have hkeep := AbStore.store_keeps_record (T := CheckpointState)
      (Q := fun r => r.checkpointSequence = state.checkpointSequence) (fun _ _ h => h)
      CheckpointState.store
    exact hkeep.conseq (fun _ hs => by rw [hs]) (fun _ _ hs => hs) (fun _ _ _ => trivial)
      fun _ _ => trivial
  refine .bind hstore fun r => ?_
  have hsync : Returns (fun _ : μ × Disk => r.2.checkpointSequence = state.checkpointSequence)
      (recoveryIo (Io.syncDir .checkpoint) : Io μ RecoveryError _)
      (fun _ _ => r.2.checkpointSequence = state.checkpointSequence) :=
    Triple.mapErr (Io.syncDir_triple (fun _ _ h => h) (fun _ _ => trivial) fun _ _ => trivial)
  exact .bind hsync fun _ => .pure fun _ h => h

theorem settleReplay_sequence {limit : ℕ} {superblock : Superblock} {state : CheckpointState}
    {scan : JournalScan} (h : state.checkpointSequence ≤ scan.durableSequence) :
    Returns (fun _ => True) (settleReplay limit true superblock state scan)
      (fun r _ => r.1.checkpointSequence = scan.durableSequence) := by
  have hreplayed : Returns (fun _ => True)
      (checkpointValidatedReplay limit superblock state scan)
      (fun r _ => r.checkpointSequence = scan.durableSequence) := by
    refine .bind (.any _ _) fun envelope => Triple.bind (.any _ _) fun t =>
      Triple.bind (.any _ _) fun b => Triple.bind (.any _ _) fun _ => ?_
    refine .bind (storeCheckpointState_sequence _) fun r => ?_
    rintro fs s hr
    refine (Triple.bind (.any (fun _ => True) _) fun _ => .bind (.any _ _) fun _ =>
      Triple.pure fun _ _ => hr) fs s trivial
  have hrest : ∀ r : CheckpointState × List SegmentInfo,
      Returns (fun _ => r.1.checkpointSequence = scan.durableSequence) (do
          recoveryCore SlotStore.persistDiscards
          return r)
        (fun r _ => r.1.checkpointSequence = scan.durableSequence) := by
    rintro r fs s hr
    exact (Triple.bind (.any (fun _ => True) _) fun _ => .pure fun _ _ => hr) fs s trivial
  unfold settleReplay
  by_cases hlt : scan.durableSequence > state.checkpointSequence
  · simp only [hlt,and_self,if_true]
    exact .bind hreplayed fun r => hrest (r,[])
  · simp only [hlt,and_false,if_false]
    exact (hrest (state,scan.segments)).strengthen (fun _ _ => Nat.le_antisymm h (Nat.not_lt.mp hlt))

/-- Bounded recovery hands on no record, and its checkpoint stands at the durable boundary. -/
theorem recoverBounded_sequence (segmentSize : ℕ) :
    Returns (fun _ => True) (recoverBounded segmentSize : Io μ RecoveryError _)
      (fun r _ => r.replay = [] ∧ r.checkpointState.checkpointSequence = r.durableSequence) := by
  unfold recoverBounded recoverWithReplay
  refine .bind (.any _ _) fun envelope => ?_
  split
  · exact .throw _
  refine .bind (.any _ _) fun proof => Triple.bind (.any _ _) fun store =>
    Triple.bind (.any _ _) fun state => ?_
  refine .bind (scan_discards _ _ _ _) fun scan => ?_
  rintro fs s ⟨hreplay,hle⟩
  have hsettle : Returns (fun _ : μ × Disk => True) (Io.withLocal store
      (settleReplay replayBatchBytes true envelope.superblock state scan))
      (fun r _ => r.1.1.checkpointSequence = scan.durableSequence) := by
    apply Triple.ofEach
    rintro ⟨m,d⟩ -
    exact Io.withLocal_triple ((settleReplay_sequence hle).conseq (fun _ _ => trivial)
      fun _ _ h => h)
  exact (Triple.bind (.any (fun _ => True) _) fun _ => .bind hsettle fun _ =>
    Triple.pure fun _ hr => ⟨hreplay,hr⟩) fs s trivial

theorem recover_sound (segmentSize : ℕ) :
    Returns (fun _ => True) (recover segmentSize : Io μ RecoveryError Volume)
      (fun v _ => v.Sound []) := by
  refine .bind (recoverBounded_sequence _) fun r => Triple.pure ?_
  rintro _ ⟨hreplay,hck⟩
  refine ⟨Nat.le_refl _,rfl,by simp,Nat.le_of_eq hck,?_⟩
  have htracks := Overlay.tracks_promote_new r.durableSequence
  rw [hreplay]
  simp only [List.foldl_nil,checkpointSequence,hck]
  exact htracks

end Start

section Sessions

variable [Crc32] [DefaultHasher] [HashOrder]

/-- What holds in every state of a session: a plan under way ends at a durable boundary. -/
structure Session.Sound (s : Session) : Prop where
  volume : s.volume.Sound s.accepted
  prepared : ∀ p ∈ s.prepared, p.horizon ≤ s.volume.journal.durableSequence
  completed : ∀ c ∈ s.completed, c.prepared.horizon ≤ s.volume.journal.durableSequence

variable {v : Volume} {d : Disk} {s s' : Session}

theorem Request.run_triple {accepted : List JournalRecord}
    (h : v.Sound accepted) (q : Request) :
    Leaves (· = (v,d)) q.run
      (fun t => t.1.Sound (accepted ++ q.accepted v t.1) ∧
        v.journal.durableSequence ≤ t.1.journal.durableSequence) := by
  have hquiet : ∀ t, After v accepted t → t.1.Sound (accepted ++ []) ∧
      v.journal.durableSequence ≤ t.1.journal.durableSequence := fun t ht =>
    ⟨by rw [List.append_nil]; exact ht.1,ht.2.1⟩
  cases q with
  | write unit ciphertext fua =>
    exact .bind (writeCt_triple h unit ciphertext fua) fun _ => .pure fun _ ht => ht
  | discard unit fua =>
    exact .bind (discardCt_triple h unit fua) fun _ => .pure fun _ ht => ht
  | flush =>
    have hbarrier : Runs (After v accepted) Volume.flush :=
      Triple.bind barrier_triple fun _ => .pure fun _ ht => ht
    exact hbarrier.conseq (fun t (ht : t = (v,d)) => ht ▸ After.start h) (fun _ t ht => hquiet t ht)
      (fun _ t ht => hquiet t ht) fun _ ht => ht
  | reclaim unit =>
    have hcall : Keeps (After v accepted) (reclaimUnwritten unit) := reclaimUnwritten_keeps unit
    have hkeep := hcall.bind fun _ => Keeps.pure ()
    refine (hkeep.from_state (After.start h (d := d))).weaken ?_ ?_ fun _ _ => trivial
    · exact fun _ t ht => hquiet t ht
    · exact fun _ t ht => hquiet t ht

omit [DefaultHasher] [HashOrder] in
theorem execute_result {p : PreparedCheckpoint} {c : CompletedCheckpoint} {fs fs' : List Fault}
    {s t : Volume × Disk} (h : Volume.execute p fs s = (.ok c,fs',t)) : c = ⟨p⟩ := by
  have hresult : Returns (fun _ => True) (Volume.execute p) (fun c _ => c = ⟨p⟩) :=
    Triple.bind (.any _ _) fun _ => .bind (.any _ _) fun _ =>
      Triple.bind (.any _ _) fun _ => .bind (.any _ _) fun _ =>
        Triple.pure fun _ _ => rfl
  have ht := hresult fs s trivial
  rwa [h] at ht

omit [Crc32] [DefaultHasher] [HashOrder] in
/-- A call that accepts no record and keeps the session's plans. -/
theorem Session.Sound.advance (h : s.Sound) {appended : ℕ}
    (hv : Going s.volume.journal.durableSequence appended s.accepted (v,d)) :
    Session.Sound { s with volume := v, disk := d } where
  volume := hv.1
  prepared p hp := Nat.le_trans (h.prepared p hp) hv.2.1
  completed c hc := Nat.le_trans (h.completed c hc) hv.2.1

/-- A step keeps the session sound and never takes the durable boundary back. -/
theorem Session.Step.advances (hs : Session.Step s s') (h : s.Sound) :
    s'.Sound ∧ s.volume.journal.durableSequence ≤ s'.volume.journal.durableSequence := by
  have hgoing : Going s.volume.journal.durableSequence s.volume.journal.appendedSequence s.accepted
    (s.volume,s.disk) := After.start h.volume
  have hexecute : ∀ p, Keeps (fun t => t.1 = s.volume) (Volume.execute p) :=
    execute_keeps (K := fun v => v = s.volume)
  cases hs with
  | @request q fs fs' o v d hrun hlive =>
    have ht := Request.run_triple (d := s.disk) h.volume q fs _ rfl
    rw [hrun] at ht
    have hgo : v.Sound (s.accepted ++ q.accepted s.volume v) ∧
        s.volume.journal.durableSequence ≤ v.journal.durableSequence := by
      cases o with
      | ok _ => exact ht
      | err _ => exact ht
      | lost => exact absurd rfl hlive
    exact ⟨⟨hgo.1,fun p hp => Nat.le_trans (h.prepared p hp) hgo.2,
      fun c hc => Nat.le_trans (h.completed c hc) hgo.2⟩,hgo.2⟩
  | @prepare fs fs' p v d hrun =>
    have ht := prepareCheckpoint_triple fs _ hgoing
    rw [hrun] at ht
    have hs := h.advance ht.1
    exact ⟨⟨hs.volume,List.forall_mem_cons.mpr ⟨ht.2,hs.prepared⟩,hs.completed⟩,ht.1.2.1⟩
  | @prepareFailed fs fs' e v d hrun =>
    have ht := prepareCheckpoint_triple fs _ hgoing
    rw [hrun] at ht
    exact ⟨h.advance ht,ht.2.1⟩
  | @execute fs fs' p c v d hp hrun =>
    have ht := hexecute p fs (s.volume,s.disk) rfl
    rw [hrun] at ht
    obtain rfl : v = s.volume := ht
    obtain rfl : c = ⟨p⟩ := execute_result hrun
    exact ⟨⟨h.volume,h.prepared,List.forall_mem_cons.mpr ⟨h.prepared p hp,h.completed⟩⟩,Nat.le_refl _⟩
  | @executeFailed fs fs' p e v d hp hrun =>
    have ht := hexecute p fs (s.volume,s.disk) rfl
    rw [hrun] at ht
    obtain rfl : v = s.volume := ht
    exact ⟨⟨h.volume,h.prepared,h.completed⟩,Nat.le_refl _⟩
  | @finish fs fs' c o v d hc hrun hlive =>
    have ht := finishCheckpoint_triple hgoing (h.completed c hc) fs _ rfl
    rw [hrun] at ht
    cases o with
    | ok _ => exact ⟨h.advance ht,ht.2.1⟩
    | err _ => exact ⟨h.advance ht,ht.2.1⟩
    | lost => exact absurd rfl hlive

theorem Session.Step.sound (hs : Session.Step s s') (h : s.Sound) : s'.Sound :=
  (hs.advances h).1

theorem Session.sound_of_run (hr : Relation.ReflTransGen Session.Step s s')
    (h : s.Sound) : s'.Sound := by
  induction hr with
  | refl => exact h
  | tail _ hstep ih => exact hstep.sound ih

omit [DefaultHasher] [HashOrder] in
theorem readCt_of_get {unit : ℕ} {r : JournalRecord}
    (h : v.overlay.get unit = some r.version) (fs : List Fault) :
    readCt unit fs (v,d) = (.ok (v.value r),fs,v,d) := by
  simp only [readCt,bind,Prog.bind,Prog.get,h,JournalRecord.version,value]
  split <;> rfl

/-- In every state a session reaches, a unit with an accepted record between the checkpoint
and the durable boundary has the newest such record as its durable version, and its reads
return its newest accepted record, whatever the environment does. -/
theorem durable_records_kept {μ : Type} (segmentSize : ℕ) {fs fs' : List Fault} {m m' : μ}
    {d d' : Disk} {v : Volume} (hstart : recover segmentSize fs (m,d) = (.ok v,fs',m',d'))
    {s : Session} (hrun : Relation.ReflTransGen Session.Step { volume := v, disk := d' } s)
    (unit : ℕ) (hacc : ∃ t ∈ s.accepted, t.unitIndex = unit ∧
      s.volume.checkpointSequence < t.sequence ∧ t.sequence ≤ s.volume.journal.durableSequence) :
    (∃ r e, Newest s.accepted (fun t => t.unitIndex = unit ∧
        s.volume.checkpointSequence < t.sequence ∧
        t.sequence ≤ s.volume.journal.durableSequence) r ∧
      s.volume.overlay.units[unit]? = some e ∧ e.durable = some r.version) ∧
    ∃ r, Newest s.accepted (fun t => t.unitIndex = unit) r ∧
      ∀ fs, readCt unit fs (s.volume,s.disk) = (.ok (s.volume.value r),fs,s.volume,s.disk) := by
  have hfresh := recover_sound segmentSize fs (m,d) trivial
  rw [hstart] at hfresh
  have hsound := Session.sound_of_run hrun ⟨hfresh,by simp,by simp⟩
  have htracks := hsound.volume.tracks
  constructor
  · obtain ⟨r,hr⟩ := Newest.exists_of_mem hacc
    -- above the checkpoint the newest record in range is the newest one up to the boundary
    have hup : Newest s.accepted (fun t => t.unitIndex = unit ∧
        t.sequence ≤ s.volume.journal.durableSequence) r := by
      refine ⟨hr.mem,⟨hr.holds.1,hr.holds.2.2⟩,fun t ht hp => ?_⟩
      by_cases hc : s.volume.checkpointSequence < t.sequence
      · exact hr.newest t ht ⟨hp.1,hc,hp.2⟩
      · exact Nat.le_trans (Nat.not_lt.mp hc) (Nat.le_of_lt hr.holds.2.1)
    obtain ⟨e,he,hd⟩ := htracks.promoted unit r hup hr.holds.2.1
    exact ⟨r,e,hr,he,hd⟩
  · obtain ⟨t,ht,rfl,hc,-⟩ := hacc
    obtain ⟨e,he⟩ := htracks.present t ht hc
    obtain ⟨r,hr,hlatest⟩ := htracks.latest _ e he
    refine ⟨r,hr,readCt_of_get ?_⟩
    rw [Overlay.get,he,Option.map_some,hlatest]

end Sessions

section Sample

-- any checksum will do here; the byte sum is quick to evaluate
local instance : Crc32 := ⟨fun bs => bs.foldl (fun c b => c+b.toUInt32) 0⟩
local instance : DefaultHasher := ⟨fun bs => UInt64.ofNat (leNat bs)⟩
local instance : HashOrder := ⟨id,fun _ => .refl _⟩

def succeeded {ε α σ : Type} : Outcome ε α × List Fault × σ → Option (α × List Fault × σ)
  | (.ok a,fs,s) => some (a,fs,s)
  | _ => none

theorem succeeded_eq_some {ε α σ : Type} {r : Outcome ε α × List Fault × σ} {a : α} {fs : List Fault}
    {s : σ} : succeeded r = some (a,fs,s) ↔ r = (.ok a,fs,s) := by
  rcases r with ⟨o,fs',s'⟩
  cases o <;> simp [succeeded]

/-- A small volume with discard metadata. -/
def sampleVolume : Superblock :=
  ⟨0,7,"local","test","key",⟨512,512,512,512,64,1024,2048,1024⟩,1,5⟩

@[irreducible] def sampleCreated : Outcome FormatError Superblock × List Fault × Unit × Disk :=
  createVolumeWithDiscard sampleVolume [] ((),{})

@[irreducible] def sampleRecovered : Outcome RecoveryError Volume × List Fault × Unit × Disk :=
  recover 4096 [] sampleCreated.2.2

/-- A write forced to the journal, on the recovered volume. -/
@[irreducible] def sampleWritten : Option Session :=
  match sampleRecovered with
  | (.ok v,_,_,d) =>
    match (Request.write 1 [1,2,3] true).run [] (v,d) with
    | (.ok _,_,v',d') => some { volume := v', disk := d', accepted := acceptedBy v v' 1 [1,2,3] }
    | _ => none
  | _ => none

set_option maxRecDepth 100000 in
theorem sampleWritten_counters : sampleWritten.any (fun s => s.accepted = [⟨1,1,[1,2,3]⟩] ∧
    s.volume.checkpointSequence = 0 ∧ s.volume.journal.durableSequence = 1) = true := by
  decide +kernel

theorem sampleWritten_run {s : Session} (h : sampleWritten = some s) :
    ∃ v fs d, recover 4096 [] sampleCreated.2.2 = (.ok v,fs,(),d) ∧
      Relation.ReflTransGen Session.Step { volume := v, disk := d } s := by
  unfold sampleWritten at h
  rcases hr : sampleRecovered with ⟨o,fs,m,d⟩
  simp only [hr] at h
  cases o with
  | err e => simp at h
  | lost => simp at h
  | ok v =>
    rcases hw : (Request.write 1 [1,2,3] true).run [] (v,d) with ⟨o',fs',v',d'⟩
    simp only [hw] at h
    cases o' with
    | err e => simp at h
    | lost => simp at h
    | ok a =>
      obtain rfl := Option.some.inj h
      refine ⟨v,fs,d,?_,.single (.request (s := ⟨v,d,[],[],[]⟩) hw (by simp))⟩
      rw [← hr,sampleRecovered]

theorem durable_records_kept_after_write : ∃ s, sampleWritten = some s ∧
    (∃ r e, Newest s.accepted (fun t => t.unitIndex = 1 ∧
        s.volume.checkpointSequence < t.sequence ∧
        t.sequence ≤ s.volume.journal.durableSequence) r ∧
      s.volume.overlay.units[1]? = some e ∧ e.durable = some r.version) ∧
    ∃ r, Newest s.accepted (fun t => t.unitIndex = 1) r ∧
      ∀ fs, readCt 1 fs (s.volume,s.disk) = (.ok (s.volume.value r),fs,s.volume,s.disk) := by
  have hcounters := sampleWritten_counters
  cases hs : sampleWritten with
  | none => simp [hs] at hcounters
  | some s =>
    simp only [hs,Option.any_some,decide_eq_true_eq] at hcounters
    obtain ⟨hacc,hck,hdur⟩ := hcounters
    obtain ⟨v,fs,d,hstart,hrun⟩ := sampleWritten_run hs
    refine ⟨s,rfl,durable_records_kept 4096 hstart hrun 1 ⟨⟨1,1,[1,2,3]⟩,?_⟩⟩
    simp [hacc,hck,hdur]

end Sample

end Volume
end Maki
