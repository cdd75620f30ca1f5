import Maki.UnitLocks

/-! No update is lost between concurrent writers: in every schedule a unit's plaintext is its
initial one with the bytes of all requests published for it, in the order of their journal
sequences. A request that has read a unit holds the unit's lock until it has published, so what
it read is still the newest plaintext when its record is accepted. -/
namespace Maki
namespace Writers

section Values

variable (P : Provider) (e : EngineParams) (s : Writers)

def plaintext (unit : ℕ) : Bytes :=
  match s.current unit with
  | none => List.replicate e.unitSize 0
  | some version => P.decrypt unit version.2

/-- The plaintext a record stands for: a tombstone reads as zeros. -/
def opened (unit : ℕ) (payload : Bytes) : Bytes :=
  if payload = [] then List.replicate e.unitSize 0 else P.decrypt unit payload

def publishedFor (unit : ℕ) : List Published := s.log.filter (·.unit = unit)

/-- What a request has read is current, and what it is about to publish is the current plaintext
with its own bytes over it. -/
def Ready (k : Task) : Prop :=
  match k.phase with
  | .encrypting existing => ∀ offset data, k.request = .write offset data → ∀ unit ∈ k.units,
      e.full offset data.len unit = false →
      (existing unit).getD (List.replicate e.unitSize 0) = s.plaintext P e unit
  | .publishing cts => (cts.map (·.1)).Nodup ∧ ∀ ct ∈ cts, ct.1 ∈ k.units ∧
      opened P e ct.1 ct.2 = k.request.update e ct.1 (s.plaintext P e ct.1)
  | _ => True

structure Kept (s₀ s : Writers) : Prop where
  locked : s.Locked
  checked : s.Checked e
  sizes : ∀ unit, (s.plaintext P e unit).length = e.unitSize
  ready : ∀ (t : ℕ) (k : Task), s.tasks[t]? = some k → s.Ready P e k
  ascending : s.log.Pairwise fun a b => a.sequence < b.sequence
  below : ∀ r ∈ s.log, r.sequence < s.nextSequence
  value : ∀ unit, s.plaintext P e unit =
    (s.publishedFor unit).foldl (fun old r => r.request.update e unit old) (s₀.plaintext P e unit)

end Values

section Invariant

variable {P : Provider} {e : EngineParams} {s s' s₀ : Writers} {t : TaskId}

variable {unit : ℕ} {k : Task}

theorem plaintext_congr (h : s'.current unit = s.current unit) :
    s'.plaintext P e unit = s.plaintext P e unit := by
  simp only [plaintext,h]

/-- Readiness depends on the units of the request only. -/
theorem Ready.congr (h : s.Ready P e k)
    (hc : ∀ unit ∈ k.units, s'.current unit = s.current unit) : s'.Ready P e k := by
  unfold Ready at h ⊢
  split
  · rename_i existing hp
    simp only [hp] at h
    intro offset data hr unit hu hf
    rw [plaintext_congr (hc unit hu)]
    exact h offset data hr unit hu hf
  · rename_i cts hp
    simp only [hp] at h
    refine ⟨h.1,fun ct hct => ?_⟩
    obtain ⟨hu,hopen⟩ := h.2 ct hct
    rw [plaintext_congr (hc _ hu)]
    exact ⟨hu,hopen⟩
  · trivial

theorem Locked.held (h : s.Locked) (hk : s.tasks[t]? = some k)
    (hp : (∃ existing, k.phase = .encrypting existing) ∨ ∃ cts, k.phase = .publishing cts)
    (hu : unit ∈ k.units) : ∃ m, (unit,m) ∈ k.guards := by
  have hs := (h.shape t k hk).1
  have hunits : k.guards.map (·.1) = k.units := by
    rcases hp with ⟨_,hp⟩ | ⟨_,hp⟩ <;> simpa only [Task.Shape,hp] using hs
  rw [← hunits,List.mem_map] at hu
  obtain ⟨p,hp,rfl⟩ := hu
  exact ⟨p.2,hp⟩

theorem Kept.retask (h : Kept P e s₀ s) (hl : s'.Locked) (hc : s'.Checked e)
    (hcur : s'.current = s.current) (hlog : s'.log = s.log) (hnext : s'.nextSequence = s.nextSequence)
    (hready : ∀ (t : ℕ) (k : Task), s'.tasks[t]? = some k → s.Ready P e k) : Kept P e s₀ s' where
  locked := hl
  checked := hc
  sizes unit := by
    rw [plaintext_congr (congrFun hcur unit)]
    exact h.sizes unit
  ready t k hk := (hready t k hk).congr fun unit _ => congrFun hcur unit
  ascending := hlog ▸ h.ascending
  below := by
    rw [hlog,hnext]
    exact h.below
  value unit := by
    rw [plaintext_congr (congrFun hcur unit),publishedFor,hlog]
    exact h.value unit

theorem ready_setTask (h : ∀ (t : ℕ) (k : Task), s.tasks[t]? = some k → s.Ready P e k)
    (hk : s.Ready P e k) :
    ∀ (t' : ℕ) (k' : Task), (s.setTask t k).tasks[t']? = some k' → s.Ready P e k' := by
  intro t' k' hk'
  simp only [setTask,getElem?_insert] at hk'
  split at hk'
  · cases hk'
    exact hk
  · exact h t' k' hk'

theorem mem_units : unit ∈ k.units ↔ k.first ≤ unit ∧ unit ≤ k.last := by
  rw [Task.units,List.mem_range'_1]
  omega

/-- The tombstones of a trim are zeros over what its units hold. -/
theorem Kept.ready_locked (h : Kept P e s₀ s) (hus : 0 < e.unitSize) (hk : k.Checked e) :
    s.Ready P e { k with phase := k.locked } := by
  unfold Task.locked
  cases hr : k.request with
  | write offset data => trivial
  | trim offset len =>
    refine ⟨?_,fun ct hct => ?_⟩
    · simp only [List.map_map,Function.comp_def,List.map_id']
      exact List.nodup_range' 1
    · obtain ⟨unit,hu,rfl⟩ := List.mem_map.mp hct
      obtain ⟨hfirst,hlast⟩ := mem_units.mp hu
      have hrange := hk.2.1
      rw [hr] at hrange
      refine ⟨hu,?_⟩
      simp only [opened,if_true]
      exact (Mutation.trim_update hus (h.sizes unit) hrange hfirst hlast).symm

/-- The ciphertexts of a write are its buffers, which lie over what its units hold. -/
theorem Kept.ready_encrypt (h : Kept P e s₀ s) (hus : 0 < e.unitSize)
    {offset : ℕ} {data : WriteInput} {existing : ℕ → Option Bytes} {nonce : ℕ → ℕ}
    (hc : k.Checked e) (hready : s.Ready P e k) (hp : k.phase = .encrypting existing)
    (hr : k.request = .write offset data)
    (hne : ∀ unit ∈ k.units, sealedUnit P e offset data existing nonce unit ≠ []) :
    s.Ready P e { k with
      phase := .publishing (k.units.map fun unit =>
        (unit,sealedUnit P e offset data existing nonce unit)) } := by
  simp only [Ready,hp] at hready
  refine ⟨?_,fun ct hct => ?_⟩
  · simp only [List.map_map,Function.comp_def,List.map_id']
    exact List.nodup_range' 1
  · obtain ⟨unit,hu,rfl⟩ := List.mem_map.mp hct
    refine ⟨hu,?_⟩
    obtain ⟨hok,hrange,-⟩ := hc
    rw [hr] at hok hrange
    have hlen := EngineParams.len_pos_of_checkRange hok
    obtain ⟨hfirst,hlast⟩ := mem_units.mp hu
    rw [EngineParams.chunks,List.mem_singleton,Prod.mk.injEq] at hrange
    simp only [opened,hr]
    rw [if_neg (hne unit hu),sealedUnit,P.decrypt_encrypt]
    exact Mutation.unitBuffer_eq hus hlen (h.sizes unit) (hrange.1 ▸ hfirst) (hrange.2 ▸ hlast)
      (hready offset data hr unit hu)

theorem plaintext_publish (s : Writers) (unit sequence : ℕ) (ct : Bytes) {l q ts n log} (u : ℕ) :
    plaintext P e ⟨l,q,ts,Function.update s.current unit (if ct = [] then none else some (sequence,ct)),n,log⟩ u =
      if u = unit then opened P e unit ct else s.plaintext P e u := by
  by_cases hu : u = unit
  · subst hu
    by_cases hct : ct = []
    · simp [plaintext,opened,hct]
    · simp [plaintext,opened,hct]
  · simp only [plaintext,Function.update_of_ne hu,if_neg hu]

theorem Kept.publish (h : Kept P e s₀ s) {ct : Bytes} {rest : List (ℕ × Bytes)}
    {sequence : ℕ} (hk : s.tasks[t]? = some k) (hp : k.phase = .publishing ((unit,ct)::rest))
    (hseq : s.nextSequence ≤ sequence)
    (hl : LocksOk s.unitLocks s.queue (s.setTask t { k with phase := .publishing rest }).tasks)
    (hc : ∀ (t' : ℕ) (k' : Task),
      (s.setTask t { k with phase := .publishing rest }).tasks[t']? = some k' → k'.Checked e) :
    Kept P e s₀ { s.setTask t { k with phase := .publishing rest } with
      current := Function.update s.current unit (if ct = [] then none else some (sequence,ct))
      nextSequence := sequence+1
      log := s.log ++ [⟨sequence,unit,ct,k.request⟩] } := by
  have hready := h.ready t k hk
  simp only [Ready,hp,List.map_cons,List.nodup_cons] at hready
  obtain ⟨⟨hnot,hnodup⟩,hcts⟩ := hready
  obtain ⟨hunit,hopen⟩ := hcts (unit,ct) List.mem_cons_self
  have hsame : ∀ u, u ≠ unit → Function.update s.current unit
      (if ct = [] then none else some (sequence,ct)) u = s.current u := fun u hu =>
    Function.update_of_ne hu _ _
  refine ⟨hl,hc,?_,?_,?_,?_,?_⟩
  · intro u
    rw [plaintext_publish]
    split
    · rw [hopen,Mutation.length_update]
      exact h.sizes unit
    · exact h.sizes u
  · intro t' k' hk'
    simp only [setTask,getElem?_insert] at hk'
    split at hk'
    · -- The request itself: its other units are untouched.
      cases hk'
      refine ⟨hnodup,fun ct' hct' => ?_⟩
      obtain ⟨hu,hopen'⟩ := hcts ct' (List.mem_cons_of_mem _ hct')
      have hne : ct'.1 ≠ unit := fun heq => hnot (List.mem_map.mpr ⟨ct',hct',heq⟩)
      refine ⟨hu,?_⟩
      rw [plaintext_publish,if_neg hne]
      exact hopen'
    · -- Another request that has read or sealed the unit would hold its lock too.
      rename_i hother
      have hapart : (∃ existing, k'.phase = .encrypting existing) ∨ (∃ cts, k'.phase = .publishing cts) →
          ∀ u ∈ k'.units, u ≠ unit := by
        rintro hphase u hu rfl
        obtain ⟨m,hm⟩ := h.locked.held hk (.inr ⟨_,hp⟩) hunit
        obtain ⟨m',hm'⟩ := h.locked.held hk' hphase hu
        exact hother (LocksOk.owner_unique h.locked hk' hk hm' hm)
      have hold := h.ready t' k' hk'
      cases hph : k'.phase with
      | encrypting existing =>
        exact hold.congr fun u hu => hsame u (hapart (.inl ⟨_,hph⟩) u hu)
      | publishing cts =>
        exact hold.congr fun u hu => hsame u (hapart (.inr ⟨_,hph⟩) u hu)
      | _ => simp only [Ready,hph]
  · rw [List.pairwise_append]
    refine ⟨h.ascending,List.pairwise_singleton _ _,fun a ha b hb => ?_⟩
    rw [List.mem_singleton.mp hb]
    exact Nat.lt_of_lt_of_le (h.below a ha) hseq
  · exact forall_mem_concat (fun r hr => Nat.lt_succ_of_le (Nat.le_trans (Nat.le_of_lt (h.below r hr)) hseq))
      (Nat.lt_succ_self _)
  · intro u
    rw [plaintext_publish]
    simp only [publishedFor,List.filter_append,List.foldl_append]
    by_cases hu : u = unit
    · subst hu
      rw [if_pos rfl,hopen,h.value u]
      simp [publishedFor]
    · have hu' : ¬ unit = u := fun heq => hu heq.symm
      rw [if_neg hu,h.value u]
      simp [publishedFor,hu']

theorem Kept.moved (h : Kept P e s₀ s) (hus : 0 < e.unitSize) (hm : Moved P e s s') :
    Kept P e s₀ s' := by
  have hl := h.locked.moved h.checked hm
  have hc := h.checked.moved hm
  cases hm with
  | publish hk hp hseq => exact h.publish hk hp hseq hl hc
  | start | enter | fail | giveUp | finish | next =>
    refine h.retask hl hc rfl rfl rfl ?_
    exact ready_setTask h.ready trivial
  | enqueue hk hp hn => exact h.retask hl hc rfl rfl rfl h.ready
  | @acquire t k unit m hk hp hhead =>
    refine h.retask hl hc rfl rfl rfl (ready_setTask h.ready ?_)
    by_cases hlast : unit < k.last
    · simp only [if_pos hlast]
      trivial
    · simp only [if_neg hlast]
      exact h.ready_locked hus (h.checked _ _ hk)
  | read hk hp hr =>
    refine h.retask hl hc rfl rfl rfl (ready_setTask h.ready ?_)
    intro offset' data' hr' unit hu hf
    obtain ⟨rfl,rfl⟩ := Mutation.write.inj (hr.symm.trans hr')
    simp only [oldUnits,hf,Bool.false_eq_true,if_false,plaintext]
    cases s.current unit <;> rfl
  | encrypt hk hp hr hne =>
    refine h.retask hl hc rfl rfl rfl (ready_setTask h.ready ?_)
    exact h.ready_encrypt hus (h.checked _ _ hk) (h.ready _ _ hk) hp hr hne
  | skip hk hp =>
    refine h.retask hl hc rfl rfl rfl (ready_setTask h.ready ?_)
    have hready := h.ready _ _ hk
    simp only [Ready,hp,List.map_cons,List.nodup_cons] at hready
    exact ⟨hready.1.2,fun ct hct => hready.2 ct (List.mem_cons_of_mem _ hct)⟩
  | @release t k p rest hk hp hg =>
    refine h.retask hl hc rfl rfl rfl (ready_setTask h.ready ?_)
    simp only [Ready,hp]
  | leave hk hp hg =>
    refine h.retask hl hc rfl rfl rfl fun t' k' hk' => ?_
    simp only [Std.TreeMap.getElem?_erase] at hk'
    split at hk'
    · cases hk'
    · exact h.ready t' k' hk'

/-- An engine that has just started: no request yet, and every unit holds one unit's worth of
plaintext. -/
structure Started (P : Provider) (e : EngineParams) (s : Writers) : Prop where
  locks : s.unitLocks = {}
  queue : s.queue = fun _ => []
  tasks : s.tasks = ∅
  log : s.log = []
  sizes : ∀ unit, (s.plaintext P e unit).length = e.unitSize

theorem Started.kept (h : s.Started P e) : Kept P e s s where
  locked := by
    unfold Locked
    rw [h.locks,h.queue,h.tasks]
    refine ⟨?_,?_,?_,?_,?_,?_,?_⟩ <;> simp
  checked t k hk := by
    rw [h.tasks] at hk
    simp at hk
  sizes := h.sizes
  ready t k hk := by
    rw [h.tasks] at hk
    simp at hk
  ascending := by
    rw [h.log]
    exact List.Pairwise.nil
  below := by simp [h.log]
  value unit := by simp [publishedFor,h.log]

theorem Kept.run {events : List Event} (h : Kept P e s₀ s) (hus : 0 < e.unitSize)
    (hr : Writers.run P e s events = some s') : Kept P e s₀ s' := by
  induction events generalizing s with
  | nil =>
    cases hr
    exact h
  | cons ev events ih =>
    simp only [Writers.run,List.foldlM_cons,Option.bind_eq_bind,Option.bind_eq_some_iff] at hr
    obtain ⟨mid,hstep,hrest⟩ := hr
    exact ih (h.moved hus (moved_of_step hstep)) hrest

/-- Whatever the schedule: a unit's lock has at most one holder, no request waits for itself,
and every unit shows all updates published for it, in the order of their journal sequences. -/
theorem no_update_lost {events : List Event} (hus : 0 < e.unitSize) (h₀ : s₀.Started P e)
    (hr : Writers.run P e s₀ events = some s) :
    (∀ unit t t', s.Holds t unit → s.Holds t' unit → t = t') ∧
    (∀ t, ¬ Relation.TransGen s.WaitsFor t t) ∧
    (s.log.Pairwise fun a b => a.sequence < b.sequence) ∧
    ∀ unit, s.plaintext P e unit = (s.publishedFor unit).foldl
      (fun old r => r.request.update e unit old) (s₀.plaintext P e unit) := by
  have h := h₀.kept.run hus hr
  refine ⟨?_,h.locked.acyclic,h.ascending,h.value⟩
  rintro unit t t' ⟨k,m,hk,hg⟩ ⟨k',m',hk',hg'⟩
  exact LocksOk.owner_unique h.locked hk hk' hg hg'

end Invariant

section Sample

def sampleProvider : Provider where
  encrypt nonce _ plaintext := plaintext ++ [UInt8.ofNat nonce]
  decrypt _ ciphertext := ciphertext.dropLast
  decrypt_encrypt _ _ plaintext := by simp

def sampleEngine : EngineParams where
  geometry := {
    deviceBlockSize := 1, cryptoUnitSize := 4, slotAlignment := 512, maxCiphertextSize := 8
    slotHeaderSize := 64, slotSize := 512, maxVirtualSize := 16, shardLogicalSize := 16 }
  maxRequestBytes := 16
  supportsDiscard := true

def sampleWriters : Writers := { current := fun _ => none, nextSequence := 1 }

/-- Two writers of one unit, the second one queued behind the first. -/
def sampleSchedule : List Event :=
  [.start 1 (.write 0 (.Borrowed [7,7])),.start 2 (.write 2 (.Borrowed [9,9])),.enter 1 [],.enter 2 [],
    .enqueue 1,.enqueue 2,.acquire 1,.read 1,.encrypt 1 fun _ => 0,.publish 1 1,.finish 1,.release 1,
    .acquire 2,.read 2,.encrypt 2 fun _ => 0,.publish 2 2,.finish 2,.release 2,.next 1,.next 2]

theorem sampleWriters_started : sampleWriters.Started sampleProvider sampleEngine where
  locks := rfl
  queue := rfl
  tasks := rfl
  log := rfl
  sizes _ := by simp [plaintext,sampleWriters]

theorem sampleSchedule_result :
    (Writers.run sampleProvider sampleEngine sampleWriters sampleSchedule).map
      (fun s => (s.log.map (·.sequence),s.plaintext sampleProvider sampleEngine 0)) =
        some ([1,2],[7,7,9,9]) := by
  decide +kernel

theorem no_update_lost_two_writers : ∃ s,
    Writers.run sampleProvider sampleEngine sampleWriters sampleSchedule = some s ∧
    s.log.map (·.sequence) = [1,2] ∧ s.plaintext sampleProvider sampleEngine 0 = [7,7,9,9] ∧
    (∀ unit t t', s.Holds t unit → s.Holds t' unit → t = t') ∧
    (∀ t, ¬ Relation.TransGen s.WaitsFor t t) ∧
    (s.log.Pairwise fun a b => a.sequence < b.sequence) ∧
    ∀ unit, s.plaintext sampleProvider sampleEngine unit = (s.publishedFor unit).foldl
      (fun old r => r.request.update sampleEngine unit old)
      (sampleWriters.plaintext sampleProvider sampleEngine unit) := by
  obtain ⟨s,hs,hresult⟩ := Option.map_eq_some_iff.mp sampleSchedule_result
  obtain ⟨hlog,hplain⟩ := Prod.mk.inj hresult
  exact ⟨s,hs,hlog,hplain,no_update_lost (by decide) sampleWriters_started hs⟩

end Sample
end Writers
end Maki
