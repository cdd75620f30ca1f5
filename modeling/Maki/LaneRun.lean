import Mathlib
import Maki.LaneTask

/-! Runs of one lane, with its callers, its loop and all tasks side by side, in any order. Permits are
conserved: what the tasks hold and what is free is always the number of slots, and a task never
has more calls in flight than it holds permits. -/
namespace Maki
namespace Scheduler

section Permits

variable {ι ο : Type} {closed : ℕ → Bool} {r : Retries ι} {t : Task ι} {n call : ℕ}

theorem swapRemove_perm {α : Type} {xs : List α} {i : ℕ} {x : α} (h : xs[i]? = some x) :
    (x::swapRemove xs i).Perm xs := by
  obtain ⟨hi,hx⟩ := List.getElem?_eq_some_iff.mp h
  induction xs using List.reverseRecOn with
  | nil => cases hi
  | append_singleton ys y =>
    unfold swapRemove
    rw [List.getLast?_concat]
    simp only
    rcases Nat.lt_or_ge i ys.length with hlt | hge
    · have hget : ys[i] = x := by rwa [List.getElem_append_left hlt] at hx
      rw [List.set_append_left _ _ hlt,List.dropLast_concat]
      calc (x::ys.set i y).Perm (x::y::ys.eraseIdx i) := (List.set_perm_cons_eraseIdx hlt y).cons x
        List.Perm _ (y::x::ys.eraseIdx i) := List.Perm.swap _ _ _
        List.Perm _ (y::ys) := (hget ▸ List.getElem_cons_eraseIdx_perm hlt).cons y
        List.Perm _ (ys ++ [y]) := (List.perm_append_singleton y ys).symm
    · obtain rfl : i = ys.length := by
        simp only [List.length_append,List.length_singleton] at hi
        omega
      have hy : y = x := by simpa using hx
      rw [List.set_append_right _ _ (Nat.le_refl _),Nat.sub_self,List.set_cons_zero,List.dropLast_concat,hy]
      exact (List.perm_append_singleton x ys).symm

/-- At most one retry runs on the slot of the batch, which is kept as long as one does or `ps` are to
be started. -/
structure Retries.Lending (r : Retries ι) (ps : List (RetryGroup ι)) : Prop where
  lent : r.active.countP Retry.original = if r.originalAvailable then 0 else 1
  extra : ∀ x ∈ r.active, x.extraSlot = !x.original
  slot : r.originalAvailable = false ∨ ps ≠ [] → r.originalSlot = true

def Retries.held (r : Retries ι) : ℕ :=
  (if r.originalSlot then 1 else 0)+r.active.countP Retry.extraSlot

theorem Retries.Lending.inflight_le {ps : List (RetryGroup ι)} (h : r.Lending ps) :
    (r.active.countP fun x => x.call.isSome) ≤ r.held := by
  have hsplit : r.active.countP Retry.extraSlot+r.active.countP Retry.original = r.active.length := by
    rw [Nat.add_comm,List.length_eq_countP_add_countP Retry.original]
    congr 1
    refine List.countP_congr fun x hx => ?_
    simp [h.extra x hx]
  have hle : (r.active.countP fun x => x.call.isSome) ≤ r.active.length := List.countP_le_length
  have hlent := h.lent
  unfold Retries.held
  by_cases ha : r.originalAvailable = true
  · rw [if_pos ha] at hlent
    omega
  · rw [if_neg ha] at hlent
    rw [if_pos (h.slot (.inl (by simpa using ha)))]
    omega

theorem Retries.Lending.fill {ps : List (RetryGroup ι)} (h : r.Lending ps) (n : ℕ) :
    (r.fill ps n).1.Lending (r.fill ps n).1.pending ∧
    (r.fill ps n).2+(r.fill ps n).1.held = n+r.held ∧
    (r.fill ps n).1.originalSlot = r.originalSlot := by
  induction ps generalizing r n with
  | nil => exact ⟨⟨h.lent,h.extra,h.slot⟩,rfl,rfl⟩
  | cons g rest ih =>
    have hslot : r.originalSlot = true := h.slot (.inr (List.cons_ne_nil _ _))
    unfold Retries.fill
    by_cases ha : r.originalAvailable = true
    · rw [if_pos ha]
      have hlent : r.active.countP Retry.original = 0 := by rw [h.lent,if_pos ha]
      have hnext : Retries.Lending { r with
          originalAvailable := false, active := r.active ++ [⟨g,false,true,none⟩] } rest := by
        refine ⟨?_,forall_mem_concat h.extra rfl,fun _ => hslot⟩
        simp [List.countP_append,hlent]
      obtain ⟨hl,hb,hs⟩ := ih hnext n
      refine ⟨hl,?_,hs⟩
      rw [hb]
      simp [Retries.held,List.countP_append]
    · rw [if_neg ha]
      cases n with
      | zero => exact ⟨⟨h.lent,h.extra,h.slot⟩,rfl,rfl⟩
      | succ n =>
        have hnext : Retries.Lending { r with active := r.active ++ [⟨g,true,false,none⟩] } rest := by
          refine ⟨?_,forall_mem_concat h.extra rfl,fun _ => hslot⟩
          simpa [List.countP_append] using h.lent
        obtain ⟨hl,hb,hs⟩ := ih hnext n
        refine ⟨hl,?_,hs⟩
        simp only
        rw [hb]
        simp only [Retries.held,List.countP_append,List.countP_singleton,if_true]
        omega

theorem Retries.Lending.loopHead (h : r.Lending r.pending) (n : ℕ) :
    (r.loopHead closed n).1.Lending (r.loopHead closed n).1.pending ∧
    (r.loopHead closed n).2+(r.loopHead closed n).1.held = n+r.held ∧
    ((r.loopHead closed n).1.originalSlot = true → r.originalSlot = true) := by
  have hlive : r.Lending (r.pending.filter fun g => !closed g.reply) := by
    refine ⟨h.lent,h.extra,fun hor => h.slot (hor.imp id ?_)⟩
    intro hne heq
    exact hne (by rw [heq]; rfl)
  obtain ⟨hl,hb,hs⟩ := hlive.fill n
  unfold Retries.loopHead
  generalize r.fill (r.pending.filter fun g => !closed g.reply) n = filled at hl hb hs
  obtain ⟨r',n'⟩ := filled
  simp only at hl hb hs ⊢
  unfold Retries.dropSlot
  split
  · rename_i hd
    obtain ⟨ha,hp,hslot⟩ := hd
    refine ⟨⟨hl.lent,hl.extra,?_⟩,?_,fun h => (by cases h)⟩
    · simp [ha,hp]
    · rw [← hb]
      simp only [Retries.held,hslot]
      simp
      omega
  · exact ⟨hl,hb,fun h => hs ▸ h⟩

/-- The permits of a task: its slot is given back once, and retries share it as they may. -/
structure Task.Fair (t : Task ι) : Prop where
  once : t.freed+(if t.ownsSlot then 1 else 0) = 1
  lending : ∀ call r, t.state = .retrying call r → r.Lending r.pending

theorem Task.Fair.inflight_le (h : t.Fair) : t.inflight ≤ t.held := by
  unfold Task.inflight Task.held
  cases hs : t.state with
  | retrying call r => exact (h.lending call r hs).inflight_le
  | _ => simp

theorem Task.ofGroups_fair (context : CryptoContext) (gs : List (Group ι)) :
    (Task.ofGroups context gs).Fair := ⟨rfl,fun _ _ h => (by cases h)⟩

/-- The permits a move takes and gives back are those the task has more or less of. -/
structure TaskStep.Balanced (t : Task ι) (n : ℕ) (s : TaskStep ι ο) : Prop where
  fair : s.task.Fair
  permits : s.permits+s.task.held = n+t.held

theorem TaskStep.Balanced.stay (h : t.Fair) : TaskStep.Balanced t n ({ task := t, permits := n } : TaskStep ι ο) :=
  ⟨h,rfl⟩

theorem Task.finish_fair (h : t.freed = 0) : t.finish.Fair :=
  ⟨by simp [Task.finish,Task.ownsSlot,h],fun _ _ hs => (by cases hs)⟩

theorem Task.resume_fair (hfreed : t.freed+(if r.originalSlot then 1 else 0) = 1)
    (h : r.Lending r.pending) :
    (t.resume closed call r n).1.Fair ∧
    (t.resume closed call r n).2+(t.resume closed call r n).1.held = n+r.held := by
  have hhead : (r.loopHead closed n).1.Lending _ ∧ _ := h.loopHead n
  obtain ⟨hl,hb,hs⟩ := hhead
  unfold Task.resume
  generalize r.loopHead closed n = next at hl hb hs
  obtain ⟨r',n'⟩ := next
  simp only at hl hb hs ⊢
  have hfreed' : t.freed+(if r.originalSlot = true ∧ ¬ r'.originalSlot = true then 1 else 0)+
      (if r'.originalSlot then 1 else 0) = 1 := by
    cases hr' : r'.originalSlot
    · cases hr : r.originalSlot <;> simp_all
    · have hr := hs hr'
      simp_all
  split
  · rename_i he
    simp only [Bool.and_eq_true,List.isEmpty_iff] at he
    refine ⟨⟨hfreed',fun _ _ h => (by cases h)⟩,?_⟩
    · rw [← hb]
      simp [Task.held,Retries.held,he.1]
  · refine ⟨⟨hfreed',fun call' r'' hst => ?_⟩,hb⟩
    cases hst
    exact hl

theorem Task.complete_fair {i : ℕ} {x : Retry ι} (hfreed : t.freed+(if r.originalSlot then 1 else 0) = 1)
    (h : r.Lending r.pending) (hx : r.active[i]? = some x) :
    (t.complete closed call r n i x).1.Fair ∧
    (t.complete closed call r n i x).2+(t.complete closed call r n i x).1.held = n+r.held := by
  have hperm := swapRemove_perm hx
  have hextra := h.extra x (List.mem_of_getElem? hx)
  have hcount : ∀ p : Retry ι → Bool,
      (swapRemove r.active i).countP p+(if p x then 1 else 0) = r.active.countP p := by
    intro p
    rw [← hperm.countP_eq p,List.countP_cons]
  have hlent := hcount Retry.original
  have hheld := hcount Retry.extraSlot
  have hnext : Retries.Lending { r with
      active := swapRemove r.active i, originalAvailable := r.originalAvailable || x.original } r.pending := by
    refine ⟨?_,fun y hy => h.extra y (hperm.subset (List.mem_cons_of_mem _ hy)),?_⟩
    · have hl := h.lent
      cases ha : r.originalAvailable <;> cases ho : x.original <;> simp_all
    · intro hor
      refine h.slot (hor.imp ?_ id)
      intro hf
      simp only [Bool.or_eq_false_iff] at hf
      exact hf.1
  have hres : (t.complete closed call r n i x).1.Fair ∧ _ := Task.resume_fair hfreed hnext
  refine ⟨hres.1,hres.2.trans ?_⟩
  simp only [Retries.held]
  omega

theorem Task.stepCalling_balanced (ht : t.Fair) (hs : t.state = .calling call) (result : Verdict ο) :
    (t.stepCalling call n result).Balanced t n := by
  have hheld : t.held = 1 := by simp [Task.held,hs]
  have howns : t.ownsSlot = true := by simp [Task.ownsSlot,hs]
  have hfreed : t.freed = 0 := by simpa [howns] using ht.once
  unfold Task.stepCalling
  split
  · split
    · refine ⟨⟨by simp [Task.ownsSlot,hfreed],fun _ _ h => (by cases h)⟩,?_⟩
      simp [Task.held,hs]
    · exact ⟨Task.finish_fair hfreed,by rw [hheld]; rfl⟩
  · exact ⟨Task.finish_fair hfreed,by rw [hheld]; rfl⟩

theorem Task.stepAsking_balanced {e : CryptoError} (ht : t.Fair) (hs : t.state = .asking call e)
    (retrySafe : Except CryptoError Bool) :
    TaskStep.Balanced t n
      { (t.stepAsking closed call e n retrySafe : TaskStep ι ο) with asked := [(call,retrySafe)] } := by
  have hheld : t.held = 1 := by simp [Task.held,hs]
  have howns : t.ownsSlot = true := by simp [Task.ownsSlot,hs]
  have hfreed : t.freed = 0 := by simpa [howns] using ht.once
  unfold Task.stepAsking
  split
  · -- the slot of the batch is handed to the retries
    have hstart : Retries.Lending { pending := Task.split t.allItems (t.lengths.zip t.replies) }
        (Task.split t.allItems (t.lengths.zip t.replies)) :=
      ⟨rfl,fun x hx => (by cases hx),fun _ => rfl⟩
    obtain ⟨hf,hb⟩ := Task.resume_fair (t := t) (n := n) (by simp [hfreed]) hstart
    exact ⟨hf,by rw [hheld]; exact hb⟩
  · exact ⟨Task.finish_fair hfreed,by rw [hheld]; rfl⟩

theorem Task.stepRetry_balanced {next i : ℕ} {x : Retry ι} (ht : t.Fair) (hs : t.state = .retrying call r)
    (hx : r.active[i]? = some x) (m : TaskMove ο) :
    (t.stepRetry closed call r n next i x m).Balanced t n := by
  have hheld : t.held = r.held := by simp [Task.held,Retries.held,hs]
  have hl := ht.lending call r hs
  have hfreed : t.freed+(if r.originalSlot then 1 else 0) = 1 := by
    simpa [Task.ownsSlot,hs] using ht.once
  have hdone : (t.complete closed call r n i x).1.Fair ∧ _ := Task.complete_fair hfreed hl hx
  unfold Task.stepRetry
  split
  · split
    · exact .stay ht
    · split
      · exact ⟨hdone.1,hheld ▸ hdone.2⟩
      · -- the call starts; no permit changes hands
        have hcount : ∀ p : Retry ι → Bool, p { x with call := some next } = p x →
            (r.active.set i { x with call := some next }).countP p = r.active.countP p := by
          intro p hp
          obtain ⟨hi,hget⟩ := List.getElem?_eq_some_iff.mp hx
          rw [List.countP_set hi,hget,hp]
          split
          · rename_i hpx
            have : 0 < r.active.countP p := List.countP_pos_iff.mpr ⟨x,List.mem_of_getElem? hx,hpx⟩
            omega
          · omega
        refine ⟨⟨hfreed,?_⟩,?_⟩
        · intro call' r' hst
          cases hst
          refine ⟨?_,forall_mem_set hl.extra (hl.extra x (List.mem_of_getElem? hx)),hl.slot⟩
          rw [hcount _ rfl]
          exact hl.lent
        · simp only [hheld]
          simp only [Task.held,Retries.held]
          rw [hcount _ rfl]
  · split
    · exact .stay ht
    · exact ⟨hdone.1,hheld ▸ hdone.2⟩
  · split
    · exact ⟨hdone.1,hheld ▸ hdone.2⟩
    · exact .stay ht
  · exact .stay ht

theorem Task.stepRetrying_balanced {next : ℕ} (ht : t.Fair) (hs : t.state = .retrying call r)
    (m : TaskMove ο) : (t.stepRetrying closed call r n next m).Balanced t n := by
  have hheld : t.held = r.held := by simp [Task.held,Retries.held,hs]
  have hl := ht.lending call r hs
  have hfreed : t.freed+(if r.originalSlot then 1 else 0) = 1 := by
    simpa [Task.ownsSlot,hs] using ht.once
  unfold Task.stepRetrying
  split
  · split
    · have hres : (t.resume closed call r n).1.Fair ∧ _ := Task.resume_fair hfreed hl
      exact ⟨hres.1,hheld ▸ hres.2⟩
    · exact .stay ht
  · split
    · rename_i g rest n hp
      have hslot : r.originalSlot = true := hl.slot (.inr (by rw [hp]; exact List.cons_ne_nil _ _))
      have hnext : Retries.Lending { r with pending := rest, active := r.active ++ [⟨g,true,false,none⟩] }
          rest := by
        refine ⟨?_,forall_mem_concat hl.extra rfl,fun _ => hslot⟩
        simpa [List.countP_append] using hl.lent
      have hres : (t.resume closed call
          { r with pending := rest, active := r.active ++ [⟨g,true,false,none⟩] } n).1.Fair ∧ _ :=
        Task.resume_fair hfreed hnext
      refine ⟨hres.1,hres.2.trans ?_⟩
      simp only [hheld,Retries.held,List.countP_append,List.countP_singleton,if_true]
      omega
    · exact .stay ht
  iterate 3
    · split
      · rename_i x hx
        exact Task.stepRetry_balanced ht hs hx _
      · exact .stay ht
  · exact .stay ht

theorem Task.step_balanced {next : ℕ} (ht : t.Fair) (m : TaskMove ο) :
    (t.step closed n next m).Balanced t n := by
  unfold Task.step
  split
  · refine ⟨⟨?_,fun _ _ h => (by cases h)⟩,rfl⟩
    have honce := ht.once
    simpa [Task.ownsSlot] using honce
  · rename_i hs
    have hfreed : t.freed = 0 := by simpa [Task.ownsSlot,hs] using ht.once
    split
    · exact ⟨Task.finish_fair hfreed,by simp [Task.finish,Task.held,hs]⟩
    · refine ⟨⟨by simp [Task.ownsSlot,hfreed],fun _ _ h => (by cases h)⟩,?_⟩
      simp [Task.held,hs]
  · rename_i hs
    exact Task.stepCalling_balanced ht hs _
  · rename_i hs
    have hfreed : t.freed = 0 := by simpa [Task.ownsSlot,hs] using ht.once
    split
    · exact ⟨Task.finish_fair hfreed,by simp [Task.finish,Task.held,hs]⟩
    · exact .stay ht
  · rename_i hs
    exact Task.stepAsking_balanced ht hs _
  · exact Task.stepRetrying_balanced ht (by assumption) _
  · exact .stay ht

end Permits

/-- How far a caller has got before its group is in the channel. -/
inductive Stage where
  | items
  | bytes
  /-- Admitted; its queue time has started. -/
  | sending (enqueuedAt : ℕ)

structure Waiter (ι : Type) where
  request : LaneRequest ι
  stage : Stage

def Waiter.heldItems {ι : Type} (x : Waiter ι) : ℕ :=
  match x.stage with
  | .items => 0
  | _ => x.request.items.length

def Waiter.heldBytes {ι : Type} (x : Waiter ι) : ℕ :=
  match x.stage with
  | .sending _ => x.request.residentBytes
  | _ => 0

/-- A lane and all its callers and tasks. `submitted` has every group that entered the channel, `calls`
every provider call, `results` what they returned, `asked` whether the provider said of a failed
call that it may be repeated, and `answers` what callers got. -/
structure World (ι ο : Type) where
  now : ℕ := 0
  senders : Bool := true
  admission : DualSemaphore
  waiters : List (Waiter ι) := []
  submitted : List (Group ι) := []
  closed : List ℕ := []
  lane : RunLane ι := {}
  permits : ℕ
  tasks : List (Task ι) := []
  calls : List (Call ι) := []
  results : List (ℕ × Verdict ο) := []
  asked : List (ℕ × Except CryptoError Bool) := []
  answers : List (ℕ × Verdict ο) := []

inductive Event (ι ο : Type) where
  | arrive (r : LaneRequest ι)
  | acquireItems (i : ℕ)
  | acquireBytes (i : ℕ)
  | send (i : ℕ)
  /-- A waiting caller gives up. -/
  | leave (i : ℕ)
  /-- A submitted caller gives up. -/
  | cancel (reply : ℕ)
  | lane (m : LaneMove)
  | abortLane
  | task (t : ℕ) (m : TaskMove ο)
  /-- The scheduler is dropped. -/
  | closeSenders
  | tick (n : ℕ)

namespace World

variable {ι ο : Type} (L : Lane) (w : World ι ο)

def initial : World ι ο := { admission := L.admission, permits := L.slots }

def isClosed (reply : ℕ) : Bool := w.closed.contains reply

def leave (i : ℕ) (x : Waiter ι) : World ι ο :=
  { w with
    admission := w.admission.release x.heldItems x.heldBytes
    waiters := w.waiters.eraseIdx i }

def arrive (r : LaneRequest ι) : World ι ο :=
  match L.arrive r with
  | .ok (some r) => { w with waiters := w.waiters ++ [⟨r,.items⟩] }
  | _ => w

def acquireItems (i : ℕ) (x : Waiter ι) : World ι ο :=
  match x.stage,w.admission.takeItems x.request.items.length with
  | .items,some a => { w with admission := a, waiters := w.waiters.set i ⟨x.request,.bytes⟩ }
  | _,_ => w

def acquireBytes (i : ℕ) (x : Waiter ι) : World ι ο :=
  match x.stage,w.admission.takeBytes x.request.residentBytes with
  | .bytes,some a => { w with admission := a, waiters := w.waiters.set i ⟨x.request,.sending w.now⟩ }
  | _,_ => w

/-- `submit`: the group enters the channel, if the lane is still there. -/
def send (i : ℕ) (x : Waiter ι) : World ι ο :=
  match x.stage,w.lane.phase with
  | .sending _,.stopped => w.leave i x
  | .sending enqueuedAt,_ =>
    if w.lane.channel.length < L.pendingItems then
      let g : Group ι := ⟨w.submitted.length,x.request.context,x.request.items,x.request.logicalBytes,
        enqueuedAt,x.request.residentBytes⟩
      { w with
        waiters := w.waiters.eraseIdx i
        submitted := w.submitted ++ [g]
        lane := { w.lane with channel := w.lane.channel ++ [g] } }
    else w
  | _,_ => w

/-- Groups that leave the lane give their admission back. -/
def dispatch (s : LaneStep ι) : World ι ο :=
  let gone := s.dispatched ++ s.dropped
  let w' := { w with lane := s.lane, admission := w.admission.release (itemsOf gone) (chargeOf gone) }
  match s.dispatched with
  | [] => w'
  | g::rest => { w' with permits := w.permits-1, tasks := w.tasks ++ [Task.ofGroups g.context (g::rest)] }

def abortLane : World ι ο :=
  { w with
    lane := { w.lane with phase := .stopped, queued := [], channel := [] }
    admission := w.admission.release (itemsOf w.lane.all) (chargeOf w.lane.all) }

def moveTask (i : ℕ) (s : TaskStep ι ο) : World ι ο :=
  { w with
    tasks := w.tasks.set i s.task
    permits := s.permits
    calls := w.calls ++ s.calls
    results := w.results ++ s.results
    asked := w.asked ++ s.asked
    answers := w.answers ++ s.answers.filter fun a => !w.isClosed a.1 }

variable [UnitIndexed ι]

def moveLane (m : LaneMove) : World ι ο :=
  if m = .slot ∧ w.permits = 0 then w
  else w.dispatch (w.lane.step L.config w.isClosed w.now w.senders m)

def step : Event ι ο → World ι ο
  | .arrive r => if w.senders then w.arrive L r else w
  | .acquireItems i =>
    match w.waiters[i]? with
    | some x => w.acquireItems i x
    | none => w
  | .acquireBytes i =>
    match w.waiters[i]? with
    | some x => w.acquireBytes i x
    | none => w
  | .send i =>
    match w.waiters[i]? with
    | some x => w.send L i x
    | none => w
  | .leave i =>
    match w.waiters[i]? with
    | some x => w.leave i x
    | none => w
  | .cancel reply => { w with closed := reply::w.closed }
  | .lane m => w.moveLane L m
  | .abortLane => w.abortLane
  | .task i m =>
    match w.tasks[i]? with
    | some t => w.moveTask i (t.step w.isClosed w.permits w.calls.length m)
    | none => w
  | .closeSenders => if w.waiters.isEmpty then { w with senders := false } else w
  | .tick n => { w with now := w.now+n }

def run (es : List (Event ι ο)) : World ι ο := es.foldl (fun w e => w.step L e) w

end World

section Balance

variable {ι ο : Type} [UnitIndexed ι] {L : Lane} {w w' : World ι ο} {e : Event ι ο}

inductive World.Moved (L : Lane) (w : World ι ο) : Event ι ο → World ι ο → Prop where
  | stay {e : Event ι ο} : Moved L w e w
  | aside {e : Event ι ο} {closed : List ℕ} {senders : Bool} {now : ℕ} (hc : w.closed ⊆ closed) :
    Moved L w e { w with closed := closed, senders := senders, now := now }
  | arrive {r : LaneRequest ι} (hr : L.arrive r = .ok (some r)) :
    Moved L w (.arrive r) { w with waiters := w.waiters ++ [⟨r,.items⟩] }
  /-- A waiting caller takes what its stage still lacks. -/
  | acquire {e : Event ι ο} {i : ℕ} {x y : Waiter ι} {a : DualSemaphore} (hx : w.waiters[i]? = some x)
    (hr : y.request = x.request) (hi : a.items+y.heldItems = w.admission.items+x.heldItems)
    (hb : a.bytes+y.heldBytes = w.admission.bytes+x.heldBytes)
    (hmi : a.maxItems = w.admission.maxItems) (hmb : a.maxBytes = w.admission.maxBytes) :
    Moved L w e { w with admission := a, waiters := w.waiters.set i y }
  | leave {e : Event ι ο} {i : ℕ} {x : Waiter ι} (hx : w.waiters[i]? = some x) : Moved L w e (w.leave i x)
  | send {e : Event ι ο} {i n : ℕ} {x : Waiter ι} {g : Group ι} (hx : w.waiters[i]? = some x)
    (hs : x.stage = .sending n) (hp : w.lane.phase ≠ .stopped)
    (hg : g = ⟨w.submitted.length,x.request.context,x.request.items,x.request.logicalBytes,n,
      x.request.residentBytes⟩) :
    Moved L w e { w with
      waiters := w.waiters.eraseIdx i, submitted := w.submitted ++ [g]
      lane := { w.lane with channel := w.lane.channel ++ [g] } }
  | lane {m : LaneMove} (hm : ¬ (m = .slot ∧ w.permits = 0)) :
    Moved L w (.lane m) (w.dispatch (w.lane.step L.config w.isClosed w.now w.senders m))
  | abortLane : Moved L w .abortLane w.abortLane
  | task {i : ℕ} {m : TaskMove ο} {t : Task ι} (ht : w.tasks[i]? = some t) :
    Moved L w (.task i m) (w.moveTask i (t.step w.isClosed w.permits w.calls.length m))

theorem World.step_moved (L : Lane) (w : World ι ο) (e : Event ι ο) : w.Moved L e (w.step L e) := by
  cases e with
  | arrive r =>
    simp only [World.step,World.arrive]
    split
    · split
      · rename_i r' hr
        obtain rfl := (L.arrive_some hr).1
        exact .arrive hr
      · exact .stay
    · exact .stay
  | acquireItems i =>
    simp only [World.step,World.acquireItems,DualSemaphore.takeItems]
    split
    · split
      · rename_i hx _ _ _ hs ha
        split at ha
        · cases ha
          refine .acquire hx rfl ?_ ?_ rfl rfl
          · simp only [Waiter.heldItems,hs]
            omega
          · simp only [Waiter.heldBytes,hs]
        · cases ha
      · exact .stay
    · exact .stay
  | acquireBytes i =>
    simp only [World.step,World.acquireBytes,DualSemaphore.takeBytes]
    split
    · split
      · rename_i hx _ _ _ hs ha
        split at ha
        · cases ha
          refine .acquire hx rfl ?_ ?_ rfl rfl
          · simp only [Waiter.heldItems,hs]
          · simp only [Waiter.heldBytes,hs]
            omega
        · cases ha
      · exact .stay
    · exact .stay
  | send i =>
    simp only [World.step,World.send]
    split
    · rename_i x hx
      split
      · exact .leave hx
      · rename_i hs hp
        split
        · exact .send hx hs hp rfl
        · exact .stay
      · exact .stay
    · exact .stay
  | leave i =>
    simp only [World.step]
    split
    · exact .leave (by assumption)
    · exact .stay
  | cancel reply => exact .aside (List.subset_cons_self _ _)
  | lane m =>
    simp only [World.step,World.moveLane]
    split
    · exact .stay
    · exact .lane (by assumption)
  | abortLane => exact .abortLane
  | task i m =>
    simp only [World.step]
    split
    · exact .task (by assumption)
    · exact .stay
  | closeSenders =>
    simp only [World.step]
    split
    · exact .aside (List.Subset.refl _)
    · exact .stay
  | tick n => exact .aside (List.Subset.refl _)

omit [UnitIndexed ι] in
theorem itemsOf_append (xs ys : List (Group ι)) : itemsOf (xs ++ ys) = itemsOf xs+itemsOf ys := by
  simp [itemsOf]

omit [UnitIndexed ι] in
theorem chargeOf_append (xs ys : List (Group ι)) : chargeOf (xs ++ ys) = chargeOf xs+chargeOf ys := by
  simp [chargeOf]

theorem sum_map_set {α : Type} (f : α → ℕ) {xs : List α} {i : ℕ} {x : α} (h : xs[i]? = some x) (y : α) :
    ((xs.set i y).map f).sum+f x = (xs.map f).sum+f y := by
  obtain ⟨hi,rfl⟩ := List.getElem?_eq_some_iff.mp h
  have hset := ((List.set_perm_cons_eraseIdx hi y).map f).sum_eq
  have hold := ((List.getElem_cons_eraseIdx_perm hi).map f).sum_eq
  simp only [List.map_cons,List.sum_cons] at hset hold
  omega

theorem sum_map_eraseIdx {α : Type} (f : α → ℕ) {xs : List α} {i : ℕ} {x : α} (h : xs[i]? = some x) :
    ((xs.eraseIdx i).map f).sum+f x = (xs.map f).sum := by
  obtain ⟨hi,rfl⟩ := List.getElem?_eq_some_iff.mp h
  have hold := ((List.getElem_cons_eraseIdx_perm hi).map f).sum_eq
  simp only [List.map_cons,List.sum_cons] at hold
  omega

/-- Permits and admission are conserved, and everything admitted is small enough for a batch. -/
structure World.Balanced (L : Lane) (w : World ι ο) : Prop where
  tasks : ∀ t ∈ w.tasks, t.Fair
  permits : w.permits+(w.tasks.map Task.held).sum = L.slots
  items : w.admission.items+(w.waiters.map Waiter.heldItems).sum+itemsOf w.lane.all = L.pendingItems
  bytes : w.admission.bytes+(w.waiters.map Waiter.heldBytes).sum+chargeOf w.lane.all = L.admission.maxBytes
  maxItems : w.admission.maxItems = L.admission.maxItems
  maxBytes : w.admission.maxBytes = L.admission.maxBytes
  lane : w.lane.Wf L.config
  small : ∀ g ∈ w.lane.all, g.Small L.config
  waiters : ∀ x ∈ w.waiters, x.request.items.length ≤ L.maxAdmitItems ∧
    x.request.logicalBytes ≤ L.config.maxBytes

namespace World.Balanced

theorem initial (L : Lane) : (World.initial L : World ι ο).Balanced L where
  tasks t ht := by cases ht
  permits := rfl
  items := rfl
  bytes := rfl
  maxItems := rfl
  maxBytes := rfl
  lane := trivial
  small g hg := by cases hg
  waiters x hx := by cases hx

variable {i : ℕ} {x : Waiter ι}

variable (h : w.Balanced L)

include h

theorem leave (hx : w.waiters[i]? = some x) :
    (w.leave i x).Balanced L where
  tasks := h.tasks
  permits := h.permits
  items := by
    have hi := h.items
    have he := sum_map_eraseIdx Waiter.heldItems hx
    simp only [World.leave,DualSemaphore.release]
    omega
  bytes := by
    have hb := h.bytes
    have he := sum_map_eraseIdx Waiter.heldBytes hx
    simp only [World.leave,DualSemaphore.release]
    omega
  maxItems := h.maxItems
  maxBytes := h.maxBytes
  lane := h.lane
  small := h.small
  waiters y hy := h.waiters y (List.mem_of_mem_eraseIdx hy)

theorem arrive {r : LaneRequest ι} (hr : L.arrive r = .ok (some r)) :
    World.Balanced L { w with waiters := w.waiters ++ [⟨r,.items⟩] } := by
  refine ⟨h.tasks,h.permits,?_,?_,h.maxItems,h.maxBytes,h.lane,h.small,
    forall_mem_concat h.waiters (L.arrive_some hr).2.2⟩
  · simpa [Waiter.heldItems] using h.items
  · simpa [Waiter.heldBytes] using h.bytes

theorem acquire {y : Waiter ι} {a : DualSemaphore}
    (hx : w.waiters[i]? = some x) (hr : y.request = x.request)
    (hi : a.items+y.heldItems = w.admission.items+x.heldItems)
    (hb : a.bytes+y.heldBytes = w.admission.bytes+x.heldBytes)
    (hmi : a.maxItems = w.admission.maxItems) (hmb : a.maxBytes = w.admission.maxBytes) :
    World.Balanced L { w with admission := a, waiters := w.waiters.set i y } where
  tasks := h.tasks
  permits := h.permits
  items := by
    have hw := h.items
    have hs := sum_map_set Waiter.heldItems hx y
    simp only
    omega
  bytes := by
    have hw := h.bytes
    have hs := sum_map_set Waiter.heldBytes hx y
    simp only
    omega
  maxItems := hmi.trans h.maxItems
  maxBytes := hmb.trans h.maxBytes
  lane := h.lane
  small := h.small
  waiters := forall_mem_set h.waiters (hr ▸ h.waiters x (List.mem_of_getElem? hx))

theorem send {n : ℕ} {g : Group ι} (hx : w.waiters[i]? = some x) (hs : x.stage = .sending n)
    (hg : g = ⟨w.submitted.length,x.request.context,x.request.items,x.request.logicalBytes,n,
      x.request.residentBytes⟩) :
    World.Balanced L { w with
      waiters := w.waiters.eraseIdx i, submitted := w.submitted ++ [g]
      lane := { w.lane with channel := w.lane.channel ++ [g] } } := by
  have hall : ({ w.lane with channel := w.lane.channel ++ [g] } : RunLane ι).all = w.lane.all ++ [g] := by
    simp [RunLane.all]
  have hitems := sum_map_eraseIdx Waiter.heldItems hx
  have hbytes := sum_map_eraseIdx Waiter.heldBytes hx
  have hxi : x.heldItems = g.items.length := by simp only [Waiter.heldItems,hs,hg]
  have hxb : x.heldBytes = g.bytes := by simp only [Waiter.heldBytes,hs,hg]
  refine ⟨h.tasks,h.permits,?_,?_,h.maxItems,h.maxBytes,h.lane,hall ▸ forall_mem_concat h.small ?_,
    fun y hy => h.waiters y (List.mem_of_mem_eraseIdx hy)⟩
  · have hi := h.items
    simp only [hall,itemsOf_append]
    simp only [itemsOf,List.map_cons,List.map_nil,List.sum_singleton] at hi ⊢
    omega
  · have hb := h.bytes
    simp only [hall,chargeOf_append]
    simp only [chargeOf,List.map_cons,List.map_nil,List.sum_singleton] at hb ⊢
    omega
  · rw [hg]
    obtain ⟨hi,hb⟩ := h.waiters x (List.mem_of_getElem? hx)
    exact ⟨hi.trans (max_le_max (min_le_left _ _) (Nat.le_refl 1)),hb⟩

/-- Groups leave the loop with their admission; a dispatched batch takes a permit. -/
theorem dispatch {closed : ℕ → Bool} {s : LaneStep ι}
    (hs : s.Follows L.config closed w.lane) (hp : s.dispatched ≠ [] → 0 < w.permits) :
    (w.dispatch s).Balanced L := by
  have hitems : itemsOf (s.dispatched ++ s.dropped)+itemsOf s.lane.all = itemsOf w.lane.all := by
    rw [← itemsOf_append,List.append_assoc]
    exact (hs.perm.map _).sum_eq
  have hbytes : chargeOf (s.dispatched ++ s.dropped)+chargeOf s.lane.all = chargeOf w.lane.all := by
    rw [← chargeOf_append,List.append_assoc]
    exact (hs.perm.map _).sum_eq
  have hbase : World.Balanced L { w with
      lane := s.lane
      admission := w.admission.release (itemsOf (s.dispatched ++ s.dropped))
        (chargeOf (s.dispatched ++ s.dropped)) } := by
    refine ⟨h.tasks,h.permits,?_,?_,h.maxItems,h.maxBytes,hs.wf,?_,h.waiters⟩
    · have hi := h.items
      simp only [DualSemaphore.release]
      omega
    · have hb := h.bytes
      simp only [DualSemaphore.release]
      omega
    · exact fun g hg => h.small g (hs.order.subset (List.mem_append_right _ hg))
  unfold World.dispatch
  split
  · exact hbase
  · rename_i g rest hd
    refine ⟨forall_mem_concat h.tasks (Task.ofGroups_fair _ _),?_,hbase.items,hbase.bytes,h.maxItems,h.maxBytes,
      hs.wf,hbase.small,h.waiters⟩
    · have hpos := hp (by rw [hd]; exact List.cons_ne_nil _ _)
      have hw := h.permits
      simp only [List.map_append,List.sum_append,List.map_cons,List.map_nil,List.sum_singleton]
      show w.permits-1+((w.tasks.map Task.held).sum+1) = L.slots
      omega

theorem abortLane : w.abortLane.Balanced L where
  tasks := h.tasks
  permits := h.permits
  items := by
    have hi := h.items
    simp only [World.abortLane,DualSemaphore.release,RunLane.all,Phase.groups] at hi ⊢
    simp only [List.append_nil,itemsOf,List.map_nil,List.sum_nil] at hi ⊢
    omega
  bytes := by
    have hb := h.bytes
    simp only [World.abortLane,DualSemaphore.release,RunLane.all,Phase.groups] at hb ⊢
    simp only [List.append_nil,chargeOf,List.map_nil,List.sum_nil] at hb ⊢
    omega
  maxItems := h.maxItems
  maxBytes := h.maxBytes
  lane := trivial
  small g hg := by simp [World.abortLane,RunLane.all,Phase.groups] at hg
  waiters := h.waiters

theorem moveTask {t : Task ι} {s : TaskStep ι ο} (ht : w.tasks[i]? = some t)
    (hs : s.Balanced t w.permits) : (w.moveTask i s).Balanced L where
  tasks := forall_mem_set h.tasks hs.fair
  permits := by
    have hp := h.permits
    have hset := sum_map_set Task.held ht s.task
    have hstep := hs.permits
    simp only [World.moveTask]
    omega
  items := h.items
  bytes := h.bytes
  maxItems := h.maxItems
  maxBytes := h.maxBytes
  lane := h.lane
  small := h.small
  waiters := h.waiters

theorem moved (hm : w.Moved L e w') : w'.Balanced L := by
  cases hm with
  | stay => exact h
  | aside => exact { h with }
  | arrive hr => exact h.arrive hr
  | acquire hx hr hi hb hmi hmb => exact h.acquire hx hr hi hb hmi hmb
  | leave hx => exact h.leave hx
  | send hx hs hp hg => exact h.send hx hs hg
  | lane hm =>
    refine h.dispatch (RunLane.step_follows h.lane h.small _) fun hd => ?_
    -- only a move with a slot dispatches
    by_contra hzero
    exact hd (RunLane.dispatched_nil fun hslot => hm ⟨hslot,by omega⟩)
  | abortLane => exact h.abortLane
  | task ht => exact h.moveTask ht (Task.step_balanced (h.tasks _ (List.mem_of_getElem? ht)) _)

theorem step (e : Event ι ο) : (w.step L e).Balanced L := h.moved (w.step_moved L e)

theorem run (es : List (Event ι ο)) : (w.run L es).Balanced L := by
  induction es generalizing w with
  | nil => exact h
  | cons e es ih => exact ih (h.step e)

end World.Balanced

/-- Permits of a lane. In every run the provider calls in flight are at most the slots, the permits
the tasks hold and those left are all there are, a batch gives its slot back once, also through
retries, cancellations and aborts, and when every batch has ended all permits are back. The same
holds for the admission of waiting and queued callers. -/
theorem inflight_bounded (L : Lane) (es : List (Event ι ο)) (w : World ι ο)
    (hw : w = (World.initial L).run L es) :
    (w.tasks.map Task.inflight).sum ≤ max 1 L.config.maxInflightBatches ∧
    w.permits+(w.tasks.map Task.held).sum = max 1 L.config.maxInflightBatches ∧
    ((∀ t ∈ w.tasks, t.state = .done) → w.permits = max 1 L.config.maxInflightBatches) ∧
    (∀ t ∈ w.tasks, t.inflight ≤ t.held ∧ t.freed = if t.ownsSlot then 0 else 1) ∧
    w.admission.items+(w.waiters.map Waiter.heldItems).sum+itemsOf w.lane.all = L.pendingItems ∧
    w.admission.bytes+(w.waiters.map Waiter.heldBytes).sum+chargeOf w.lane.all = L.admission.maxBytes ∧
    (w.waiters = [] → w.lane.all = [] → w.admission = L.admission) := by
  have h : w.Balanced L := hw ▸ (World.Balanced.initial L).run es
  have hslots : L.slots = max 1 L.config.maxInflightBatches := max_comm _ _
  have hle : ∀ t ∈ w.tasks, t.inflight ≤ t.held := fun t ht => (h.tasks t ht).inflight_le
  rw [← hslots]
  refine ⟨?_,h.permits,?_,?_,h.items,h.bytes,?_⟩
  · have hsum : (w.tasks.map Task.inflight).sum ≤ (w.tasks.map Task.held).sum := List.sum_le_sum hle
    have hp := h.permits
    omega
  · intro hdone
    have hzero : (w.tasks.map Task.held).sum = 0 := by
      rw [List.sum_eq_zero_iff]
      intro x hx
      obtain ⟨t,ht,rfl⟩ := List.mem_map.mp hx
      simp only [Task.held,hdone t ht]
    have hp := h.permits
    omega
  · intro t ht
    have honce := (h.tasks t ht).once
    refine ⟨hle t ht,?_⟩
    split at honce
    · rename_i ho
      rw [if_pos ho]
      omega
    · rename_i ho
      rw [if_neg ho]
      omega
  · intro hwait hlane
    have hi := h.items
    have hb := h.bytes
    rw [hwait,hlane] at hi hb
    have hmi := h.maxItems
    have hmb := h.maxBytes
    cases ha : w.admission
    rw [ha] at hi hb hmi hmb
    simp only [itemsOf,chargeOf,List.map_nil,List.sum_nil,Nat.add_zero] at hi hb
    simp only at hmi hmb
    rw [hi,hb,hmi,hmb]
    rfl

end Balance
end Scheduler
end Maki
