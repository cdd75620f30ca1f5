import Maki.VolumeSession

/-! Admission and drain of a served volume (`maki_nbdkit::drain`). Callbacks enter through the gate
while it is open; a drain closes it for good, waits until no callback is active, then flushes and
checkpoints. Drain calls are serialised by a mutex, so at most one is past it; it may be cancelled
anywhere. The volume is used by callbacks and in the background at the same time. -/
namespace Maki

open Prog hiding pure bind throw get modify

open Volume

namespace DrainGate

inductive Phase where
  | Running
  | Draining
  | Failed (error : String)
  | Drained (sequence : ℕ)
  deriving DecidableEq

structure State where
  phase : Phase := .Running
  active : ℕ := 0
  deriving DecidableEq

namespace State

def enter (s : State) : Except String State :=
  match s.phase with
  | .Running => .ok { s with active := s.active+1 }
  | _ => .error "volume admission is closed for drain"

/-- A drain that finds the volume drained returns at once; any other closes the gate. -/
def close (s : State) : Except ℕ State :=
  match s.phase with
  | .Drained sequence => .error sequence
  | _ => .ok { s with phase := .Draining }

def settle (s : State) (result : Except String ℕ) : State :=
  { s with phase := match result with
    | .ok sequence => .Drained sequence
    | .error error => .Failed error }

end State

/-- A registered wait for idleness. One that took a stored permit is ready and not in the queue of
waits that are notified. -/
inductive Notified where
  | pending
  | notified
  | taken
  deriving DecidableEq

/-- Where the drain that holds the mutex is. -/
inductive Stage where
  | locked
  | closed
  | registered (wait : Notified)
  | waiting (wait : Notified)
  /-- No callback was active; the flush runs. -/
  | flushing
  | flushed
  | prepared (p : PreparedCheckpoint)
  | executed (c : CompletedCheckpoint)

namespace Stage

def Acting : Stage → Prop
  | .flushing | .flushed | .prepared _ | .executed _ => True
  | _ => False

/-- A dropped wait passes a notification on; the permit that another one took is gone. -/
def passesOn : Stage → Bool
  | .registered .notified | .waiting .notified => true
  | _ => false

end Stage

/-- A served volume. `acked` has the sequences of the records that callbacks acknowledged and
`returned` what drains returned with success. -/
structure World where
  gate : State := {}
  permit : Bool := false
  current : Option Stage := none
  callbacks : List Bool := []
  session : Session
  acked : List ℕ := []
  returned : List ℕ := []

namespace World

/-- `notify_one`: the registered wait is woken, or the next one will be. -/
def notifyOne (w : World) : World :=
  match w.current with
  | some (.registered .pending) => { w with current := some (.registered .notified) }
  | some (.waiting .pending) => { w with current := some (.waiting .notified) }
  | _ => { w with permit := true }

def leave (w : World) (i : ℕ) : World :=
  let left := { w with
    gate := { w.gate with active := w.gate.active-1 }, callbacks := w.callbacks.set i false }
  if w.gate.active-1 = 0 then left.notifyOne else left

/-- The active count is inspected behind the registration. -/
def check (w : World) (wait : Notified) : World :=
  if w.gate.active = 0 then
    { w with current := some .flushing, permit := w.permit || (Stage.registered wait).passesOn }
  else { w with current := some (.waiting wait) }

def settle (w : World) (result : Except String ℕ) : World :=
  { w with
    gate := w.gate.settle result, current := none
    returned := w.returned ++ result.toOption.toList }

end World

section Steps

variable [Crc32] [DefaultHasher] [HashOrder]

inductive Step : World → World → Prop
  | enter {w : World} {g : State} (h : w.gate.enter = .ok g) :
      Step w { w with gate := g, callbacks := w.callbacks ++ [true] }
  /-- An active callback uses the volume; it acknowledges what succeeds. -/
  | request {w : World} {i : ℕ} {q : Request} {fs fs' : List Fault} {o : Outcome CoreError Unit}
      {v : Volume} {d : Disk} (hi : w.callbacks[i]? = some true)
      (hrun : q.run fs (w.session.volume,w.session.disk) = (o,fs',v,d)) (hlive : o ≠ .lost) :
      Step w { w with
        session := { w.session with
          volume := v, disk := d
          accepted := w.session.accepted ++ q.accepted w.session.volume v }
        acked := if o = .ok () then
          w.acked ++ (q.accepted w.session.volume v).map JournalRecord.sequence else w.acked }
  | leave {w : World} {i : ℕ} (hi : w.callbacks[i]? = some true) : Step w (w.leave i)
  /-- The checkpoint worker, owners of cancelled calls and administration. -/
  | background {w : World} {s : Session} (hs : Session.Step w.session s) :
      Step w { w with session := s }
  /-- A drain call gets the mutex. -/
  | lock {w : World} (h : w.current = none) : Step w { w with current := some .locked }
  | drained {w : World} {n : ℕ} (h : w.current = some .locked) (hn : w.gate.close = .error n) :
      Step w { w with current := none, returned := w.returned ++ [n] }
  | close {w : World} {g : State} (h : w.current = some .locked) (hg : w.gate.close = .ok g) :
      Step w { w with current := some .closed, gate := g }
  | register {w : World} (h : w.current = some .closed) :
      Step w { w with
        current := some (.registered (if w.permit then .taken else .pending)), permit := false }
  | check {w : World} {wait : Notified} (h : w.current = some (.registered wait)) :
      Step w (w.check wait)
  | wake {w : World} {wait : Notified} (h : w.current = some (.waiting wait)) (hw : wait ≠ .pending) :
      Step w { w with current := some .closed }
  | flush {w : World} {fs fs' : List Fault} {v : Volume} {d : Disk} (h : w.current = some .flushing)
      (hrun : Volume.flush fs (w.session.volume,w.session.disk) = (.ok (),fs',v,d)) :
      Step w { w with
        current := some .flushed, session := { w.session with volume := v, disk := d } }
  | prepare {w : World} {fs fs' : List Fault} {p : PreparedCheckpoint} {v : Volume} {d : Disk}
      (h : w.current = some .flushed)
      (hrun : prepareCheckpoint fs (w.session.volume,w.session.disk) = (.ok p,fs',v,d)) :
      Step w { w with
        current := some (.prepared p)
        session := { w.session with volume := v, disk := d, prepared := p::w.session.prepared } }
  | execute {w : World} {fs fs' : List Fault} {p : PreparedCheckpoint} {c : CompletedCheckpoint}
      {v : Volume} {d : Disk} (h : w.current = some (.prepared p))
      (hrun : Volume.execute p fs (w.session.volume,w.session.disk) = (.ok c,fs',v,d)) :
      Step w { w with
        current := some (.executed c)
        session := { w.session with volume := v, disk := d, completed := c::w.session.completed } }
  | finish {w : World} {fs fs' : List Fault} {c : CompletedCheckpoint} {n : ℕ} {v : Volume} {d : Disk}
      (h : w.current = some (.executed c))
      (hrun : finishCheckpoint c fs (w.session.volume,w.session.disk) = (.ok n,fs',v,d)) :
      Step w (World.settle { w with session := { w.session with volume := v, disk := d } } (.ok n))
  /-- The flush or a part of the checkpoint fails, with whatever it did. -/
  | fail {w : World} {st : Stage} {s : Session} {e : String} (h : w.current = some st)
      (ha : st.Acting) (hs : w.session = s ∨ Session.Step w.session s) :
      Step w (World.settle { w with session := s } (.error e))
  /-- The drain's future is dropped; a wait that was notified passes that on. -/
  | cancel {w : World} {st : Stage} (h : w.current = some st) :
      Step w { w with current := none, permit := w.permit || st.passesOn }

end Steps

section Results

variable [Crc32] [DefaultHasher] [HashOrder] {v : Volume} {d : Disk} {accepted : List JournalRecord}

omit [HashOrder] in
/-- A successful flush moves the durable boundary to everything appended. -/
theorem flush_durable (h : v.Sound accepted) :
    Returns (· = (v,d)) Volume.flush
      (fun _ t => t.1.journal.durableSequence = v.journal.appendedSequence) := by
  have hsync : Returns (· = (v,d)) (onJournal JournalWriter.sync)
      (fun _ t => t.1.journal.durableSequence = v.journal.appendedSequence) := by
    refine (onJournal_triple JournalWriter.sync_counters h.at).weaken ?_
      (fun _ _ _ => trivial) fun _ ht => ht
    rintro n ⟨_,d'⟩ ⟨j,rfl,-,hj⟩
    exact hj.1
  have hbarrier : Returns (· = (v,d)) barrier
      (fun _ t => t.1.journal.durableSequence = v.journal.appendedSequence) := by
    refine .bind hsync fun n => ?_
    have hpromote : Returns
        (fun t : Volume × Disk => t.1.journal.durableSequence = v.journal.appendedSequence)
        (update fun v => { v with overlay := v.overlay.promote n } : Io Volume CoreError Unit)
        (fun _ t => t.1.journal.durableSequence = v.journal.appendedSequence) := Triple.modify fun _ ht => ht
    exact .bind hpromote fun _ => .pure fun _ ht => ht
  exact .bind hbarrier fun _ => .pure fun _ ht => ht

omit [DefaultHasher] [HashOrder] in
/-- A plan reaches up to the durable boundary it was prepared at. -/
theorem prepareCheckpoint_horizon :
    Returns (· = (v,d)) prepareCheckpoint
      (fun p _ => v.journal.durableSequence ≤ p.horizon) := by
  unfold prepareCheckpoint
  have hpromote : Returns (· = (v,d)) (update promote : Io Volume CoreError Unit)
      (fun _ t => t.1.journal.durableSequence = v.journal.durableSequence) :=
    Triple.modify fun t ht => by rw [ht]; rfl
  refine .bind hpromote fun _ => Triple.ofEach ?_
  rintro ⟨v',d'⟩ hv'
  apply Triple.get_bind
  refine .bind (.any _ _) fun slots => Triple.pure fun t _ => ?_
  exact hv' ▸ Nat.le_max_left _ _

omit [DefaultHasher] in
/-- A finished plan's result is at least its horizon. -/
theorem finishCheckpoint_result (c : CompletedCheckpoint) :
    Returns (fun _ => True) (finishCheckpoint c) (fun n _ => c.prepared.horizon ≤ n) := by
  have hidle : ∀ base, c.prepared.horizon ≤ base → Returns (fun _ => True) (finishIdle base)
      (fun n _ => c.prepared.horizon ≤ n) := fun base hle =>
    Triple.bind (.any _ _) fun _ => .bind (.any _ _) fun _ =>
      Triple.bind (.any _ _) fun _ => .bind (.any _ _) fun _ =>
        Triple.pure fun _ _ => hle
  have hplan : Returns (fun _ => True) (finishPlan c.prepared)
      (fun n _ => c.prepared.horizon ≤ n) :=
    Triple.bind (.any _ _) fun _ => .bind (.any _ _) fun _ =>
      Triple.bind (.any _ _) fun _ => .bind (.any _ _) fun _ =>
        Triple.bind (.any _ _) fun _ => .bind (.any _ _) fun _ =>
          Triple.bind (.any _ _) fun _ => .bind (.any _ _) fun _ =>
            Triple.bind (.any _ _) fun _ => .pure fun _ _ => Nat.le_refl _
  unfold finishCheckpoint
  refine .bind (.any _ _) fun s => Triple.bind (.any _ _) fun _ => ?_
  split
  · exact .throw fun _ _ => trivial
  split
  · exact hidle _ (by assumption)
  · exact hplan

end Results

section Invariant

def Stage.Holds (w : World) : Stage → Prop
  | .locked => True
  | .closed | .registered _ => w.gate.phase ≠ .Running
  | .waiting wait => w.gate.phase ≠ .Running ∧ (w.gate.active = 0 → wait ≠ .pending)
  | .flushing => w.gate.phase ≠ .Running ∧ w.gate.active = 0
  | .flushed => w.gate.phase ≠ .Running ∧ w.gate.active = 0 ∧
      ∀ n ∈ w.acked, n ≤ w.session.volume.journal.durableSequence
  | .prepared p => w.gate.phase ≠ .Running ∧ w.gate.active = 0 ∧ p ∈ w.session.prepared ∧
      ∀ n ∈ w.acked, n ≤ p.horizon
  | .executed c => w.gate.phase ≠ .Running ∧ w.gate.active = 0 ∧ c ∈ w.session.completed ∧
      ∀ n ∈ w.acked, n ≤ c.prepared.horizon

structure World.Sound (w : World) : Prop where
  session : w.session.Sound
  acked : ∀ n ∈ w.acked, ∃ r ∈ w.session.accepted, r.sequence = n
  count : w.gate.active = w.callbacks.count true
  current : ∀ st ∈ w.current, st.Holds w
  drained : ∀ n, w.gate.phase = .Drained n →
    w.gate.active = 0 ∧ (∀ m ∈ w.acked, m ≤ n) ∧ ∀ st ∈ w.current, st = .locked
  returned : ∀ n ∈ w.returned, w.gate.phase = .Drained n

variable {w w' : World}

theorem Stage.Holds.closed {st : Stage} (h : st.Holds w) (hst : st ≠ .locked) :
    w.gate.phase ≠ .Running := by
  cases st with
  | locked => exact absurd rfl hst
  | closed | registered => exact h
  | waiting | flushing | flushed | prepared | executed => exact h.1

theorem Stage.Holds.quiet {st : Stage} (h : st.Holds w) (hst : st.Acting) : w.gate.active = 0 := by
  cases st with
  | locked | closed | registered | waiting => exact hst.elim
  | flushing => exact h.2
  | flushed | prepared | executed => exact h.2.1

theorem World.Sound.onSession (h : w.Sound) {s : Session} (hs : s.Sound)
    (hd : w.session.volume.journal.durableSequence ≤ s.volume.journal.durableSequence)
    (hg : w.session.accepted ⊆ s.accepted ∧ w.session.prepared ⊆ s.prepared ∧
      w.session.completed ⊆ s.completed) : World.Sound { w with session := s } where
  session := hs
  acked n hn := by
    obtain ⟨r,hr,hrn⟩ := h.acked n hn
    exact ⟨r,hg.1 hr,hrn⟩
  count := h.count
  current st hst := by
    have hold := h.current st hst
    cases st with
    | locked | closed | registered | waiting | flushing => exact hold
    | flushed => exact ⟨hold.1,hold.2.1,fun n hn => Nat.le_trans (hold.2.2 n hn) hd⟩
    | prepared p => exact ⟨hold.1,hold.2.1,hg.2.1 hold.2.2.1,hold.2.2.2⟩
    | executed c => exact ⟨hold.1,hold.2.1,hg.2.2 hold.2.2.1,hold.2.2.2⟩
  drained := h.drained
  returned := h.returned

/-- A live callback keeps the gate from being idle. -/
theorem World.Sound.active_pos (h : w.Sound) {i : ℕ} (hi : w.callbacks[i]? = some true) :
    0 < w.gate.active := by
  rw [h.count]
  exact List.count_pos_iff.mpr (List.mem_of_getElem? hi)

theorem World.Sound.not_acting (h : w.Sound) {i : ℕ} (hi : w.callbacks[i]? = some true) :
    ∀ st ∈ w.current, ¬ st.Acting := fun st hst ha => by
  have hpos := h.active_pos hi
  have hzero := (h.current st hst).quiet ha
  omega

theorem World.Sound.not_drained (h : w.Sound) {st : Stage} (hst : w.current = some st)
    (hne : st ≠ .locked) (n : ℕ) : w.gate.phase ≠ .Drained n := fun hn =>
  hne ((h.drained n hn).2.2 st hst)

theorem World.Sound.enter (h : w.Sound) {g : State} (hg : w.gate.enter = .ok g) :
    World.Sound { w with gate := g, callbacks := w.callbacks ++ [true] } := by
  have hrun : w.gate.phase = .Running ∧ g = { w.gate with active := w.gate.active+1 } := by
    unfold State.enter at hg
    split at hg
    · exact ⟨by assumption,(Except.ok.inj hg).symm⟩
    · cases hg
  obtain ⟨hphase,rfl⟩ := hrun
  refine ⟨h.session,h.acked,?_,?_,?_,h.returned⟩
  · simp only [List.count_append,h.count,List.count_singleton_self]
  · intro st hst
    have hold := h.current st hst
    by_cases hl : st = .locked
    · subst hl
      trivial
    · exact absurd hphase (hold.closed hl)
  · intro n hn
    cases hphase.symm.trans hn

@[simp] theorem gate_notifyOne (w : World) : w.notifyOne.gate = w.gate := by
  unfold World.notifyOne
  split <;> rfl

theorem notifyOne_cases (w : World) :
    (w.current = some (.registered .pending) ∧
      w.notifyOne = { w with current := some (.registered .notified) }) ∨
    (w.current = some (.waiting .pending) ∧
      w.notifyOne = { w with current := some (.waiting .notified) }) ∨
    (w.current ≠ some (.waiting .pending) ∧ w.notifyOne = { w with permit := true }) := by
  unfold World.notifyOne
  split
  · exact .inl ⟨by assumption,rfl⟩
  · exact .inr (.inl ⟨by assumption,rfl⟩)
  · exact .inr (.inr ⟨by assumption,rfl⟩)

section Kept

variable (h : w.Sound)

include h

theorem World.Sound.leave {i : ℕ} (hi : w.callbacks[i]? = some true) :
    (w.leave i).Sound := by
  have hpos := h.active_pos hi
  have hcount : w.gate.active-1 = (w.callbacks.set i false).count true := by
    obtain ⟨hlt,hget⟩ := List.getElem?_eq_some_iff.mp hi
    rw [h.count,List.count_set hlt]
    simp [hget]
  have hdrained : ∀ n, w.gate.phase ≠ .Drained n := fun n hn => by
    have hzero := (h.drained n hn).1
    omega
  -- a drain that waits is told when the last callback leaves
  have hset : ∀ (current : Option Stage) (permit : Bool),
      (∀ st ∈ current, st.Holds { w with gate := { w.gate with active := w.gate.active-1 } }) →
      World.Sound { w with
        gate := { w.gate with active := w.gate.active-1 }
        callbacks := w.callbacks.set i false, current := current, permit := permit } := by
    intro current permit hc
    refine ⟨h.session,h.acked,hcount,?_,fun n hn => absurd hn (hdrained n),h.returned⟩
    intro st hst
    have hold := hc st hst
    cases st with
    | locked | closed | registered | waiting | flushing | flushed | prepared | executed => exact hold
  have hkeep : ∀ st ∈ w.current, (w.gate.active-1 = 0 → st ≠ .waiting .pending) →
      st.Holds { w with gate := { w.gate with active := w.gate.active-1 } } := by
    intro st hst hwait
    have hold := h.current st hst
    have hact := h.not_acting hi st hst
    cases st with
    | locked | closed | registered => exact hold
    | waiting wait => exact ⟨hold.1,fun hz hp => hwait hz (congrArg Stage.waiting hp)⟩
    | flushing | flushed | prepared | executed => exact absurd trivial hact
  unfold World.leave
  split
  · rename_i hz
    obtain ⟨hc,he⟩ | ⟨hc,he⟩ | ⟨hc,he⟩ := notifyOne_cases { w with
      gate := { w.gate with active := w.gate.active-1 }, callbacks := w.callbacks.set i false }
    · simp only [he]
      refine hset _ _ ?_
      rintro _ ⟨⟩
      exact (h.current _ hc :)
    · simp only [he]
      refine hset _ _ ?_
      rintro _ ⟨⟩
      exact ⟨(h.current _ hc).1,fun _ => Notified.noConfusion⟩
    · simp only [he]
      exact hset _ _ fun st hst => hkeep st hst fun _ hw => hc (hw ▸ hst)
  · rename_i hz
    exact hset _ _ fun st hst => hkeep st hst fun he => absurd he hz

theorem World.Sound.toStage (st : Stage) (hold : st.Holds w) (permit : Bool)
    (hfree : st = .locked ∨ ∀ n, w.gate.phase ≠ .Drained n) :
    World.Sound { w with current := some st, permit := permit } := by
  refine ⟨h.session,h.acked,h.count,?_,?_,h.returned⟩
  · rintro _ ⟨⟩
    cases st with
    | locked | closed | registered | waiting | flushing | flushed | prepared | executed => exact hold
  · intro n hn
    rcases hfree with rfl | hfree
    · refine ⟨(h.drained n hn).1,(h.drained n hn).2.1,?_⟩
      rintro _ ⟨⟩
      rfl
    · exact absurd hn (hfree n)

theorem World.Sound.unlock (permit : Bool) :
    World.Sound { w with current := none, permit := permit } :=
  ⟨h.session,h.acked,h.count,by simp,
    fun n hn => ⟨(h.drained n hn).1,(h.drained n hn).2.1,by simp⟩,h.returned⟩

theorem World.Sound.close {g : State} (hg : w.gate.close = .ok g) :
    World.Sound { w with current := some .closed, gate := g } := by
  have hclose : (∀ n, w.gate.phase ≠ .Drained n) ∧ g = { w.gate with phase := .Draining } := by
    unfold State.close at hg
    split at hg
    · cases hg
    · rename_i hne
      exact ⟨hne,(Except.ok.inj hg).symm⟩
  obtain ⟨hne,rfl⟩ := hclose
  refine ⟨h.session,h.acked,h.count,?_,fun _ hn => Phase.noConfusion hn,
    fun n hn => absurd (h.returned n hn) (hne n)⟩
  rintro _ ⟨⟩
  exact Phase.noConfusion

theorem World.Sound.check {wait : Notified} (hc : w.current = some (.registered wait)) :
    (w.check wait).Sound := by
  have hne := h.not_drained hc (by simp)
  have hclosed := (h.current _ hc).closed (by simp)
  unfold World.check
  split
  · rename_i hz
    exact h.toStage .flushing ⟨hclosed,hz⟩ _ (.inr hne)
  · rename_i hz
    exact h.toStage (.waiting wait) ⟨hclosed,fun he => absurd he hz⟩ _ (.inr hne)

theorem World.Sound.settle {st : Stage} (hc : w.current = some st) (ha : st.Acting)
    {result : Except String ℕ} (hr : ∀ n, result = .ok n → ∀ m ∈ w.acked, m ≤ n) :
    (w.settle result).Sound := by
  have hne : st ≠ .locked := by
    rintro rfl
    exact ha
  have hempty : w.returned = [] := List.eq_nil_iff_forall_not_mem.mpr fun n hn =>
    h.not_drained hc hne n (h.returned n hn)
  have hzero := (h.current _ hc).quiet ha
  cases result with
  | error e =>
    refine ⟨h.session,h.acked,h.count,by simp [World.settle],fun _ hn => Phase.noConfusion hn,?_⟩
    simp [World.settle,hempty,Except.toOption]
  | ok sequence =>
    refine ⟨h.session,h.acked,h.count,by simp [World.settle],?_,?_⟩
    · rintro n ⟨⟩
      exact ⟨hzero,hr _ rfl,by simp [World.settle]⟩
    · intro n hn
      simp only [World.settle,hempty,Except.toOption,Option.toList_some,List.nil_append,
        List.mem_singleton] at hn
      rw [hn]
      rfl

end Kept

theorem phase_leave (w : World) (i : ℕ) : (w.leave i).gate.phase = w.gate.phase := by
  unfold World.leave
  split
  · rw [gate_notifyOne]
  · rfl

end Invariant

section Safety

variable [Crc32] [DefaultHasher] [HashOrder] {w w' : World}

theorem grows_of_step {s s' : Session} (h : Session.Step s s') :
    s.accepted ⊆ s'.accepted ∧ s.prepared ⊆ s'.prepared ∧ s.completed ⊆ s'.completed := by
  cases h with
  | request => exact ⟨List.subset_append_left _ _,fun _ h => h,fun _ h => h⟩
  | prepare => exact ⟨fun _ h => h,List.subset_cons_self _ _,fun _ h => h⟩
  | execute => exact ⟨fun _ h => h,fun _ h => h,List.subset_cons_self _ _⟩
  | prepareFailed | executeFailed | finish => exact ⟨fun _ h => h,fun _ h => h,fun _ h => h⟩

theorem World.Sound.onStep (h : w.Sound) {s : Session} (hs : Session.Step w.session s) :
    World.Sound { w with session := s } := by
  obtain ⟨hsound,hd⟩ := hs.advances h.session
  exact h.onSession hsound hd (grows_of_step hs)

variable {fs fs' : List Fault} {v : Volume} {d : Disk}

theorem World.Sound.request (h : w.Sound) {i : ℕ} (hi : w.callbacks[i]? = some true) {q : Request}
    {o : Outcome CoreError Unit}
    (hrun : q.run fs (w.session.volume,w.session.disk) = (o,fs',v,d)) (hlive : o ≠ .lost) :
    World.Sound { w with
      session := { w.session with
        volume := v, disk := d
        accepted := w.session.accepted ++ q.accepted w.session.volume v }
      acked := if o = .ok () then
        w.acked ++ (q.accepted w.session.volume v).map JournalRecord.sequence else w.acked } := by
  have hstep := h.onStep (Session.Step.request hrun hlive)
  refine ⟨hstep.session,?_,h.count,?_,?_,h.returned⟩
  · intro n hn
    split at hn
    · rcases List.mem_append.mp hn with hn | hn
      · exact hstep.acked n hn
      · obtain ⟨r,hr,rfl⟩ := List.mem_map.mp hn
        exact ⟨r,List.mem_append_right _ hr,rfl⟩
    · exact hstep.acked n hn
  · intro st hst
    have hold := h.current st hst
    have hact := h.not_acting hi st hst
    cases st with
    | locked | closed | registered | waiting => exact hold
    | flushing | flushed | prepared | executed => exact absurd trivial hact
  · intro n hn
    have hpos := h.active_pos hi
    have hzero := (h.drained n hn).1
    omega

/-- The drain's own flush makes everything acknowledged durable. -/
theorem World.Sound.flush (h : w.Sound)
    (hc : w.current = some .flushing)
    (hrun : Volume.flush fs (w.session.volume,w.session.disk) = (.ok (),fs',v,d)) :
    World.Sound { w with
      current := some .flushed, session := { w.session with volume := v, disk := d } } := by
  have hstep : Session.Step w.session
      { w.session with volume := v, disk := d, accepted := w.session.accepted ++ [] } :=
    Session.Step.request (q := .flush) hrun (by simp)
  rw [List.append_nil] at hstep
  have hdurable : v.journal.durableSequence = w.session.volume.journal.appendedSequence := by
    have ht := flush_durable h.session.volume fs (w.session.volume,w.session.disk) rfl
    rw [hrun] at ht
    exact ht
  have hold := h.current _ hc
  refine (h.onStep hstep).toStage .flushed ⟨hold.1,hold.2,fun n hn => ?_⟩ _
    (.inr (h.not_drained hc (by simp)))
  obtain ⟨r,hr,rfl⟩ := h.acked n hn
  exact hdurable ▸ h.session.volume.bounded r hr

theorem World.Sound.prepare (h : w.Sound) {p : PreparedCheckpoint}
    (hc : w.current = some .flushed)
    (hrun : prepareCheckpoint fs (w.session.volume,w.session.disk) = (.ok p,fs',v,d)) :
    World.Sound { w with
      current := some (.prepared p)
      session := { w.session with volume := v, disk := d, prepared := p::w.session.prepared } } := by
  have hhorizon : w.session.volume.journal.durableSequence ≤ p.horizon := by
    have ht := prepareCheckpoint_horizon fs (w.session.volume,w.session.disk) rfl
    rw [hrun] at ht
    exact ht
  have hold := h.current _ hc
  exact (h.onStep (.prepare hrun)).toStage (.prepared p) ⟨hold.1,hold.2.1,List.mem_cons_self,
    fun n hn => Nat.le_trans (hold.2.2 n hn) hhorizon⟩ _ (.inr (h.not_drained hc (by simp)))

theorem World.Sound.execute (h : w.Sound) {p : PreparedCheckpoint}
    {c : CompletedCheckpoint} (hc : w.current = some (.prepared p))
    (hrun : Volume.execute p fs (w.session.volume,w.session.disk) = (.ok c,fs',v,d)) :
    World.Sound { w with
      current := some (.executed c)
      session := { w.session with volume := v, disk := d, completed := c::w.session.completed } } := by
  have hold := h.current _ hc
  have hplan : c.prepared = p := by rw [execute_result hrun]
  exact (h.onStep (.execute hold.2.2.1 hrun)).toStage (.executed c)
    ⟨hold.1,hold.2.1,List.mem_cons_self,hplan ▸ hold.2.2.2⟩ _ (.inr (h.not_drained hc (by simp)))

theorem World.Sound.finish (h : w.Sound) {c : CompletedCheckpoint} {n : ℕ}
    (hc : w.current = some (.executed c))
    (hrun : finishCheckpoint c fs (w.session.volume,w.session.disk) = (.ok n,fs',v,d)) :
    (World.settle { w with session := { w.session with volume := v, disk := d } } (.ok n)).Sound := by
  have hold := h.current _ hc
  have hresult : c.prepared.horizon ≤ n := by
    have ht := finishCheckpoint_result c fs (w.session.volume,w.session.disk) trivial
    rw [hrun] at ht
    exact ht
  refine (h.onStep (.finish hold.2.2.1 hrun (by simp))).settle hc trivial ?_
  rintro _ ⟨⟩ m hm
  exact Nat.le_trans (hold.2.2.2 m hm) hresult

theorem Step.sound (hs : Step w w') (h : w.Sound) : w'.Sound := by
  cases hs with
  | enter hg => exact h.enter hg
  | request hi hrun hlive => exact h.request hi hrun hlive
  | leave hi => exact h.leave hi
  | background hs => exact h.onStep hs
  | lock hc => exact h.toStage .locked trivial _ (.inl rfl)
  | @drained n hc hn =>
    have hphase : w.gate.phase = .Drained n := by
      unfold State.close at hn
      split at hn
      · rename_i hp
        rw [hp,Except.error.inj hn]
      · cases hn
    have hfree := h.unlock w.permit
    exact ⟨hfree.session,hfree.acked,hfree.count,hfree.current,hfree.drained,
      forall_mem_concat h.returned hphase⟩
  | close hc hg => exact h.close hg
  | register hc =>
    exact h.toStage (.registered _) ((h.current _ hc).closed (by simp)) _ (.inr (h.not_drained hc (by simp)))
  | check hc => exact h.check hc
  | wake hc =>
    exact h.toStage .closed (h.current _ hc).1 _ (.inr (h.not_drained hc (by simp)))
  | flush hc hrun => exact h.flush hc hrun
  | prepare hc hrun => exact h.prepare hc hrun
  | execute hc hrun => exact h.execute hc hrun
  | finish hc hrun => exact h.finish hc hrun
  | @fail st s e hc ha hs =>
    have hsound : World.Sound { w with session := s } := by
      rcases hs with rfl | hs
      · exact h
      · exact h.onStep hs
    exact hsound.settle hc ha (by simp)
  | cancel hc => exact h.unlock _

theorem sound_of_run (hr : Relation.ReflTransGen Step w w') (h : w.Sound) : w'.Sound := by
  induction hr with
  | refl => exact h
  | tail _ hstep ih => exact hstep.sound ih

theorem Step.closed (hs : Step w w') (h : w.gate.phase ≠ .Running) : w'.gate.phase ≠ .Running := by
  cases hs with
  | enter hg =>
    unfold State.enter at hg
    split at hg
    · exact absurd (by assumption) h
    · cases hg
  | leave => exact phase_leave w _ ▸ h
  | close hc hg =>
    unfold State.close at hg
    split at hg
    · cases hg
    · rw [← Except.ok.inj hg]
      exact Phase.noConfusion
  | check =>
    unfold World.check
    split <;> exact h
  | finish | fail => exact Phase.noConfusion
  | request | background | lock | drained | register | wake | flush | prepare | execute | cancel =>
    exact h

end Safety

section Sample

attribute [local instance] Volume.instCrc32 Volume.instDefaultHasher Volume.instHashOrder

@[irreducible] def sampleServed : Option World := do
  let (v,_,_,d) ← succeeded sampleRecovered
  let (_,_,v',d') ← succeeded ((Request.write 1 [1,2,3] false).run [] (v,d))
  let records := acceptedBy v v' 1 [1,2,3]
  return {
    permit := true, callbacks := [false], acked := records.map JournalRecord.sequence
    session := { volume := v', disk := d', accepted := records } }

end Sample

end DrainGate
end Maki
