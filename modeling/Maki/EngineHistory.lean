import Maki.Nbd

/-! Whatever an engine, the users of its volume and its checkpoint worker have done, and whatever of
it has failed: a unit reads as its newest accepted record, no move changes a byte that it is not
about, and a request that fails leaves each unit as it was or as the request would have it. -/
namespace Maki
namespace Engine

open Prog hiding pure bind throw get modify
open Nbd (contents contents_eq)

/-- What happens to an engine: a request, a request to its volume alone, or a step of its worker. -/
inductive Move where
  | call (q : Request)
  | serve (q : Volume.Request)
  | act (m : Background)

namespace Move

def Writes (e : EngineParams) : Move → ℕ → Prop
  | .call q, pos => ∃ m ∈ q.mutation, (m.byteAt e pos).isSome
  | .serve q, pos => q.unit? = some (pos/e.unitSize)
  | .act _, _ => False

variable [Crc32] [DefaultHasher] [HashOrder]

def attempted (c : EngineInner) : Move → Io Engine EngineError Unit
  | .call q => do
    let _ ← q.run c
    return ()
  | .serve q => Engine.serve q
  | .act m => Engine.act m

def run (c : EngineInner) (m : Move) : Io Engine EngineError Unit := do
  let _ ← Prog.attempt (δ := EngineError) (m.attempted c)
  return ()

end Move

theorem Request.apply_of_not {e : EngineParams} {q : Request} {dev : ℕ → UInt8} {pos : ℕ}
    (h : ¬ (Move.call q).Writes e pos) : q.apply e dev pos = dev pos := by
  unfold Request.apply
  cases hm : q.mutation with
  | none => rfl
  | some m =>
    have hnone : m.byteAt e pos = none := by simpa [Move.Writes,hm] using h
    simp only [Mutation.apply,hnone,Option.getD_none]

theorem device_of_added {c : EngineInner} {base : ℕ → Except CoreError SlotRead}
    {accepted added : List JournalRecord} {pos : ℕ}
    (h : ∀ r ∈ added, r.unitIndex ≠ pos/c.params.unitSize) :
    device c base (accepted ++ added) pos = device c base accepted pos := by
  simp only [device,expected,Volume.kept,lastOf_append_of_not h]

theorem ofAnswer_injective {a b : Option (ℕ × Bytes)} (h : SlotRead.ofAnswer a = .ofAnswer b) : a = b := by
  rcases a with _ | ⟨s,x⟩ <;> rcases b with _ | ⟨s',x'⟩ <;> cases h <;> rfl

theorem kept_zeroed (v : Volume) (accepted : List JournalRecord) (unit : ℕ) :
    Volume.kept v.supportsDiscard zeroed accepted unit =
      .ok (.ofAnswer ((lastOf accepted unit).bind v.value)) := by
  unfold Volume.kept
  cases lastOf accepted unit with
  | none => rfl
  | some r =>
    by_cases he : (v.supportsDiscard && r.payload.isEmpty) = true <;>
      simp [Volume.value,OverlayVersion.stored,JournalRecord.version,he,SlotRead.ofAnswer]

section Reached

variable [Crc32] [DefaultHasher] [HashOrder]

/-- The states of an engine on a new volume, after any moves. -/
def Reached (c : EngineInner) (t : Engine × Disk) : Prop :=
  ∃ start ms fs fs', Started c start ∧ Prog.forEach ms (Move.run c) fs start = (.ok (),fs',t)

variable {c : EngineInner} {t t' : Engine × Disk} {base : ℕ → Except CoreError SlotRead}
  {s : Engine} {d : Disk}

/-- One move, however it ends. -/
theorem Move.run_frame (hus : 0 < c.params.unitSize) (hs : Serving c base (s,d)) (m : Move) :
    Leaves (· = (s,d)) (m.run c) (fun t => Serving c base t ∧ ∀ pos, ¬ m.Writes c.params pos →
      device c base t.1.accepted pos = device c base s.accepted pos) := by
  refine .bind (Triple.attempt ?_) fun _ => .pure fun _ ht => ht
  cases m with
  | call q =>
    refine Triple.bind ((run_array hus q).conseq (fun _ ht => ⟨ht ▸ hs,congrArg (device c base ·.1.accepted) ht⟩)
      ?_ ?_ fun _ ht => ht) fun _ => .pure fun _ ht => ht
    · rintro _ t ⟨⟨ht,hdev⟩,-⟩
      exact ⟨ht,fun pos hpos => by rw [hdev,Request.apply_of_not hpos]⟩
    · rintro _ t ⟨ht,hunits⟩
      refine ⟨ht,fun pos hpos => ?_⟩
      rcases hunits (pos/c.params.unitSize) with ho | hn
      · exact ho pos rfl
      · rw [hn pos rfl,Request.apply_of_not hpos]
  | serve q =>
    refine (serve_serving hs q).weaken ?_ ?_ fun _ ht => ht
    all_goals
      rintro _ t ⟨ht,-,ha⟩
      refine ⟨ht,fun pos hpos => ?_⟩
      rw [ha]
      exact device_of_added fun r hr hu => hpos ((Volume.Request.mem_accepted hr).2.trans (congrArg some hu))
  | act b =>
    refine ((act_stays b).from_state ⟨hs,rfl⟩).weaken ?_ ?_ fun _ ht => ht
    all_goals
      rintro _ t ⟨ht,ha⟩
      exact ⟨ht,fun pos _ => by rw [ha]⟩

theorem Reached.serving (h : Reached c t) : 0 < c.params.unitSize ∧ Serving c zeroed t := by
  obtain ⟨start,ms,fs,fs',hstart,hrun⟩ := h
  have hus := hstart.computed.unit
  have hall : Runs (Serving c zeroed) (Prog.forEach ms (Move.run c)) := .forEach fun m _ =>
    Triple.ofEach fun _ hs => (m.run_frame hus hs).weaken (fun _ _ ht => ht.1) (fun _ _ ht => ht.1) fun _ ht => ht
  exact ⟨hus,Returns.result (.ofTriple hall) hstart.stays.1 hrun⟩

/-- A move changes no byte but those it is about, whether it fails or not. -/
theorem move_changes_only_its_bytes (h : Reached c t) {m : Move} {fs fs' : List Fault}
    (hrun : m.run c fs t = (.ok (),fs',t')) {pos : ℕ} (hpos : ¬ m.Writes c.params pos) :
    contents c t' pos = contents c t pos := by
  obtain ⟨hus,hs⟩ := h.serving
  obtain ⟨ht,hsame⟩ := Returns.result (.ofTriple (m.run_frame hus hs)) rfl hrun
  rw [contents_eq hs,contents_eq ht]
  exact hsame pos hpos

/-- A request that fails tears no unit. -/
theorem failed_request_by_units (h : Reached c t) {q : Request} {fs fs' : List Fault} {e : EngineError}
    (hrun : q.run c fs t = (.err e,fs',t')) :
    ByUnits c.params.unitSize (contents c t) (q.apply c.params (contents c t)) (contents c t') := by
  obtain ⟨hus,hs⟩ := h.serving
  have hfailed := run_array hus q fs t ⟨hs,rfl⟩
  rw [hrun] at hfailed
  rw [contents_eq hs,contents_eq hfailed.1]
  exact hfailed.2

/-- A read returns the newest record accepted for its unit, and the sequence that the cache is asked
for is that record's. Both calls succeed where the disk does not fail. -/
theorem reads_newest_record (h : Reached c t) (unit : ℕ) :
    (∀ fs fs' r u, Volume.readCt unit fs (t.1.volume,t.2) = (.ok r,fs',u) →
      r = (lastOf t.1.accepted unit).bind t.1.volume.value) ∧
    (∀ fs fs' sequence u, Volume.currentSequence unit fs (t.1.volume,t.2) = (.ok sequence,fs',u) →
      ∀ x ∈ (lastOf t.1.accepted unit).bind t.1.volume.value, sequence = some x.1) ∧
    (∃ r, Volume.readCt unit [] (t.1.volume,t.2) = (.ok r,[],t.1.volume,t.2)) ∧
    ∃ sequence, Volume.currentSequence unit [] (t.1.volume,t.2) = (.ok sequence,[],t.1.volume,t.2) := by
  have hb := h.serving.2.backed
  have hkept := kept_zeroed t.1.volume t.1.accepted unit
  rw [hb.supportsDiscard_eq] at hkept
  refine ⟨fun fs fs' r u hread => ?_,fun fs fs' sequence u hseq x hx => ?_,hb.readCt_quiet hkept,
    hb.currentSequence_quiet hkept⟩
  · obtain ⟨-,hanswer⟩ := Returns.result (.ofTriple (hb.readCt_kept unit)) rfl hread
    exact ofAnswer_injective (Except.ok.inj (hanswer.symm.trans hkept))
  · obtain ⟨-,hnone,hsome⟩ := Returns.result (.ofTriple (hb.currentSequence_kept unit)) rfl hseq
    obtain ⟨y,hlast,hy⟩ := Option.bind_eq_some_iff.mp hx
    cases sequence with
    | none =>
      rw [hnone rfl,hx] at hkept
      cases hkept
    | some sequence =>
      unfold Volume.value at hy
      split at hy
      · cases hy
      · cases hy
        rw [hsome sequence rfl y hlast]

/-- A cached plaintext of the version that a unit has now is the plaintext of its ciphertext. -/
theorem cached_plaintext_current (h : Reached c t) {cache : VersionedLruCache} (hc : cache ∈ t.1.cache)
    {unit sequence : ℕ} {data ciphertext : Bytes} (hh : cache.Holds unit sequence data)
    (hread : t.1.volume.content t.2 unit = .ok (.Ciphertext sequence ciphertext)) :
    data = c.provider.plaintextOf unit ciphertext := by
  have hs := h.serving.2
  rw [hs.backed.content_eq] at hread
  have htells : Tells c zeroed t.1.accepted unit (.sealed sequence ciphertext) := hread
  obtain ⟨-,hgenuine⟩ := hs.cached cache hc unit sequence data hh
  obtain ⟨-,sequence',ciphertext',he,rfl⟩ := hgenuine.known hs.backed.sound.tracks.ascending htells.last
  cases he.symm.trans hread
  rfl

end Reached
section Sample

attribute [local instance] instCrc32 Volume.instDefaultHasher Volume.instHashOrder

/-- Two units are written, the second again beside the engine, and the first is read. -/
def sampleMoves : List Move :=
  [.call (.write 0 (List.replicate 1024 7) true),.serve (.write 1 [1,2,3] false),.act .prepare,
    .call (.read 0 512)]

def sampleWrite : Request := .write 0 (List.replicate 1024 9) false

/-- The disk fails when the journal has taken one of two records. -/
def sampleFaults : List Fault := List.replicate 8 .none ++ [.fail]

def Sampled (t : Engine × Disk) : Prop :=
  ((Move.serve (.discard 1 true)).run sampleInner [] t).1 = .ok () ∧
  (sampleWrite.run sampleInner sampleFaults t).1 = .err (.Core (.Io .Other)) ∧
  (Volume.readCt 1 [] (t.1.volume,t.2)).1 = .ok (some (3,[1,2,3])) ∧
  (Volume.currentSequence 1 [] (t.1.volume,t.2)).1 = .ok (some 3) ∧
  t.1.volume.content t.2 0 = .ok (.Ciphertext 1 (List.replicate 512 7)) ∧
  ((t.1.cache.bind (·.map[0]?)).map fun entry => (entry.writeSequence,entry.data)) =
    some (1,List.replicate 512 7)

instance (t : Engine × Disk) : Decidable (Sampled t) := by
  unfold Sampled
  infer_instance

@[irreducible] def sampleReached : Option (Unit × List Fault × Engine × Disk) :=
  sampleOutcome Volume.sampleVolume sampleInner (some (2048,10)) (Prog.forEach sampleMoves (Move.run sampleInner))
    fun t => Sampled t

set_option maxRecDepth 100000 in
theorem sampleReached_some : sampleReached.isSome = true := by
  decide +kernel

theorem exists_sampled : ∃ t, Reached sampleInner t ∧ Sampled t := by
  have hsome := sampleReached_some
  unfold sampleReached at hsome
  obtain ⟨v,d,_,fs,t,hstarted,hrun,hsampled⟩ := sampleOutcome_some hsome
  exact ⟨t,⟨_,_,_,_,hstarted,hrun⟩,of_decide_eq_true hsampled⟩

theorem other_unit_unchanged : ∃ t t' fs, Reached sampleInner t ∧
    (Move.serve (.discard 1 true)).run sampleInner [] t = (.ok (),fs,t') ∧
    contents sampleInner t' 0 = contents sampleInner t 0 := by
  obtain ⟨t,h,hmove,-⟩ := exists_sampled
  have hrun := eq_of_outcome _ hmove
  exact ⟨t,_,_,h,hrun,move_changes_only_its_bytes h hrun (by simp [Move.Writes,Volume.Request.unit?])⟩

theorem failed_write_by_units : ∃ t e t' fs, Reached sampleInner t ∧
    sampleWrite.run sampleInner sampleFaults t = (.err e,fs,t') ∧
    ByUnits 512 (contents sampleInner t) (sampleWrite.apply sampleInner.params (contents sampleInner t))
      (contents sampleInner t') := by
  obtain ⟨t,h,-,hfail,-⟩ := exists_sampled
  have hrun := eq_of_outcome _ hfail
  exact ⟨t,_,_,_,h,hrun,failed_request_by_units h hrun⟩

theorem reads_newest_record_sample : ∃ t r sequence, Reached sampleInner t ∧
    (Volume.readCt 1 [] (t.1.volume,t.2)).1 = .ok (some r) ∧
    (Volume.currentSequence 1 [] (t.1.volume,t.2)).1 = .ok sequence ∧
    (lastOf t.1.accepted 1).bind t.1.volume.value = some r ∧ sequence = some r.1 := by
  obtain ⟨t,h,-,-,hread,hseq,-⟩ := exists_sampled
  obtain ⟨hr,hs,-⟩ := reads_newest_record h 1
  have hnewest := hr _ _ _ _ (eq_of_outcome _ hread)
  exact ⟨t,_,_,h,hread,hseq,hnewest.symm,hs _ _ _ _ (eq_of_outcome _ hseq) _ hnewest.symm⟩

theorem cached_plaintext_current_sample : ∃ t, Reached sampleInner t ∧ ∃ cache ∈ t.1.cache, ∃ data,
    cache.Holds 0 1 data ∧ data = sampleInner.provider.plaintextOf 0 (List.replicate 512 7) := by
  obtain ⟨t,h,-,-,-,-,hread,hcached⟩ := exists_sampled
  obtain ⟨entry,hentry,hpair⟩ := Option.map_eq_some_iff.mp hcached
  obtain ⟨cache,hc,hmap⟩ := Option.bind_eq_some_iff.mp hentry
  have hh : cache.Holds 0 1 entry.data := ⟨entry,hmap,congrArg Prod.fst hpair,rfl⟩
  exact ⟨t,h,cache,hc,_,hh,cached_plaintext_current h hc hh hread⟩

end Sample
end Engine
end Maki
