import Maki.LaneOrder

/-! What the sizes of the requests say about the calls of a lane. Whatever holds of every request
that arrives holds of every group in a call, and a lane with a target of one item coalesces
nothing. -/
namespace Maki
namespace Scheduler

section Admitted

variable {ι ο : Type} {L : Lane} {P : List ι → ℕ → Prop} {w w' : World ι ο} {e : Event ι ο}

/-- Everything that waits or was submitted has items, and satisfies what its request did. -/
structure World.Admits (P : List ι → ℕ → Prop) (w : World ι ο) : Prop where
  waiters : ∀ x ∈ w.waiters, x.request.items ≠ [] ∧ P x.request.items x.request.logicalBytes
  submitted : ∀ g ∈ w.submitted, g.items ≠ [] ∧ P g.items g.logicalBytes

def Event.Asks (P : List ι → ℕ → Prop) : Event ι ο → Prop
  | .arrive r => P r.items r.logicalBytes
  | _ => True

namespace World.Admits

theorem initial : (World.initial L : World ι ο).Admits P := ⟨by simp [World.initial],by simp [World.initial]⟩

variable [UnitIndexed ι]

theorem moved (h : w.Admits P) (he : e.Asks P) (hm : w.Moved L e w') : w'.Admits P := by
  cases hm with
  | stay => exact h
  | aside | abortLane | task => exact { h with }
  | lane =>
    unfold World.dispatch
    split <;> exact { h with }
  | arrive hr =>
    exact ⟨forall_mem_concat h.waiters ⟨(L.arrive_some hr).2.1,he⟩,h.submitted⟩
  | acquire hx hr =>
    exact ⟨forall_mem_set h.waiters (hr ▸ h.waiters _ (List.mem_of_getElem? hx)),h.submitted⟩
  | leave => exact ⟨fun y hy => h.waiters y (List.mem_of_mem_eraseIdx hy),h.submitted⟩
  | send hx hs hp hg =>
    refine ⟨fun y hy => h.waiters y (List.mem_of_mem_eraseIdx hy),forall_mem_concat h.submitted ?_⟩
    rw [hg]
    exact h.waiters _ (List.mem_of_getElem? hx)

theorem step (h : w.Admits P) {e : Event ι ο} (he : e.Asks P) : (w.step L e).Admits P :=
  h.moved he (w.step_moved L e)

theorem run (h : w.Admits P) {es : List (Event ι ο)} (hes : ∀ e ∈ es, e.Asks P) : (w.run L es).Admits P := by
  induction es generalizing w with
  | nil => exact h
  | cons e es ih =>
    exact ih (h.step (hes e List.mem_cons_self)) fun e' he' => hes e' (List.mem_cons_of_mem _ he')

end World.Admits

end Admitted

section Alone

variable {ι ο : Type} {L : Lane} {w w' : World ι ο} {e : Event ι ο} {closed : ℕ → Bool}

/-- At most one group, which already meets the target. -/
def Phase.Alone : Phase ι → Prop
  | .gathering b => b.groups.length ≤ 1 ∧ 1 ≤ b.items
  | .listening _ => False
  | .waiting gs => gs.length ≤ 1
  | .idle | .stopped => True

theorem RunLane.start_alone [UnitIndexed ι] {config : SchedulerConfig} (l : RunLane ι) {g : Group ι}
    (hg : g.items ≠ []) : (l.start config closed g).lane.phase.Alone := by
  unfold RunLane.start
  split
  · trivial
  · exact ⟨Nat.le_refl 1,List.length_pos_iff.mpr hg⟩

theorem RunLane.liveWaiting_alone {gs : List (Group ι)} (h : gs.length ≤ 1) :
    (RunLane.liveWaiting closed gs).Alone := by
  unfold RunLane.liveWaiting
  split
  · trivial
  · exact (List.length_filter_le _ _).trans h

theorem RunLane.step_alone [UnitIndexed ι] {config : SchedulerConfig} {now : ℕ} {senders : Bool}
    {l : RunLane ι} (htarget : config.targetItems ≤ 1) (h : l.phase.Alone)
    (hne : ∀ g ∈ l.all, g.items ≠ []) (m : LaneMove) :
    (l.step config closed now senders m).lane.phase.Alone ∧
    (l.step config closed now senders m).dispatched.length ≤ 1 := by
  have hnone : m ≠ .slot → (l.step config closed now senders m).dispatched.length ≤ 1 := fun hm => by
    rw [RunLane.dispatched_nil hm]
    exact Nat.zero_le 1
  obtain ⟨phase,queued,rc,channel⟩ := l
  cases m with
  | next =>
    refine ⟨?_,hnone (by simp)⟩
    cases phase with
    | idle =>
      cases queued with
      | cons g rest => exact RunLane.start_alone _ (hne g List.mem_cons_self)
      | nil =>
        cases channel with
        | cons g rest => exact RunLane.start_alone _ (hne g List.mem_cons_self)
        | nil => cases senders <;> trivial
    | gathering b =>
      -- the target is met, so the batch is closed at once
      have hstop : ¬ (b.items < config.targetItems ∧ b.bytes < config.targetBytes ∧ now < b.deadline) := by
        have hone := h.2
        omega
      simp only [RunLane.step,RunLane.next]
      rw [if_neg hstop]
      exact h.1
    | listening b => exact h
    | waiting gs => exact h
    | stopped => exact h
  | closed =>
    refine ⟨?_,hnone (by simp)⟩
    cases phase with
    | listening b => exact h.elim
    | waiting gs =>
      simp only [RunLane.step,RunLane.closedMove]
      split
      · exact RunLane.liveWaiting_alone h
      · exact h
    | idle | gathering | stopped => exact h
  | receive =>
    refine ⟨?_,hnone (by simp)⟩
    cases phase with
    | listening b => exact h.elim
    | waiting gs =>
      simp only [RunLane.step,RunLane.receive]
      split
      · exact h
      · split
        · split
          · exact h
          · exact h
        · split
          · exact h
          · exact h
    | idle | gathering | stopped => exact h
  | elapsed =>
    refine ⟨?_,hnone (by simp)⟩
    cases phase with
    | listening b => exact h.elim
    | idle | gathering | waiting | stopped => exact h
  | slot =>
    cases phase with
    | waiting gs => exact ⟨trivial,(List.length_filter_le _ _).trans h⟩
    | idle | gathering | listening | stopped => exact ⟨h,Nat.zero_le 1⟩

/-- No call has more than one group. -/
structure World.Alone (w : World ι ο) : Prop where
  lane : w.lane.phase.Alone
  tasks : ∀ t ∈ w.tasks, t.replies.length ≤ 1
  calls : ∀ k ∈ w.calls, k.replies.length ≤ 1

namespace World.Alone

theorem initial : (World.initial L : World ι ο).Alone :=
  ⟨trivial,by simp [World.initial],by simp [World.initial]⟩

theorem dispatch (h : w.Alone) {s : LaneStep ι} (hl : s.lane.phase.Alone) (hd : s.dispatched.length ≤ 1) :
    (w.dispatch s).Alone := by
  unfold World.dispatch
  split
  · exact ⟨hl,h.tasks,h.calls⟩
  · rename_i g rest hs
    refine ⟨hl,forall_mem_concat h.tasks ?_,h.calls⟩
    simpa [Task.ofGroups,hs] using hd

variable [UnitIndexed ι]

theorem moveTask (h : w.Alone) {i : ℕ} {t : Task ι} {s : TaskStep ι ο} {gs : List (Group ι)}
    (ht : w.tasks[i]? = some t) (hc : t.Carries L.config w.submitted gs) (hs : s.Fits L.config w.log gs) :
    (w.moveTask i s).Alone := by
  have hone : gs.length ≤ 1 := by
    have hlen := h.tasks t (List.mem_of_getElem? ht)
    rwa [hc.replies,List.length_map] at hlen
  refine ⟨h.lane,forall_mem_set h.tasks ?_,List.forall_mem_append.mpr ⟨h.calls,fun k hk => ?_⟩⟩
  · rwa [hs.carries.replies,List.length_map]
  · obtain ⟨⟨hs',hsub,-,rfl⟩,-⟩ := hs.calls k hk
    simpa using hsub.length_le.trans hone

theorem moved (htarget : L.config.targetItems ≤ 1) (h : w.Alone) (ho : w.Ordered L)
    (hne : ∀ g ∈ w.lane.all, g.items ≠ []) (hm : w.Moved L e w') : w'.Alone := by
  cases hm with
  | stay => exact h
  | aside | arrive | acquire | leave | send => exact { h with }
  | lane =>
    obtain ⟨hl,hd⟩ := RunLane.step_alone htarget h.lane hne _
    exact h.dispatch hl hd
  | abortLane => exact { h with lane := trivial }
  | @task i m t ht =>
    obtain ⟨gs,-,hc,hf⟩ := ho.task_fits ht m
    exact h.moveTask ht hc hf

end World.Alone

end Alone

section Calls

variable {ι ο : Type} [UnitIndexed ι] {L : Lane} {P : List ι → ℕ → Prop}

theorem World.run_alone (htarget : L.config.targetItems ≤ 1) {w : World ι ο} (hb : w.Balanced L)
    (ho : w.Ordered L) (ha : w.Admits P) (h : w.Alone) {es : List (Event ι ο)} (hes : ∀ e ∈ es, e.Asks P) :
    (w.run L es).Alone := by
  induction es generalizing w with
  | nil => exact h
  | cons e es ih =>
    have hne : ∀ g ∈ w.lane.all, g.items ≠ [] := fun g hg => by
      obtain ⟨sent,-,hsub⟩ := ho.order
      exact (ha.submitted g (hsub.subset (List.mem_append_right _ hg))).1
    exact ih (hb.step e) (ho.step hb e) (ha.step (hes e List.mem_cons_self)) (h.moved htarget ho hne (w.step_moved L e))
      fun e' he' => hes e' (List.mem_cons_of_mem _ he')

/-- The groups of a provider call: they fit a batch, satisfy what their requests did, and there is
only one of them if the target is one item. -/
theorem World.call_groups {es : List (Event ι ο)} (hes : ∀ e ∈ es, e.Asks P) {k : Call ι}
    (hk : k ∈ ((World.initial L).run L es).calls) : ∃ gs, gs ≠ [] ∧ Fit L.config gs ∧
      k.items = gs.flatMap Group.items ∧ (∀ g ∈ gs, g.items ≠ [] ∧ P g.items g.logicalBytes) ∧
      (L.config.targetItems ≤ 1 → gs.length = 1) := by
  have hb : (World.initial L : World ι ο).Balanced L := World.Balanced.initial L
  have ho : (World.initial L : World ι ο).Ordered L := World.Ordered.initial L
  have ha : (World.initial L : World ι ο).Admits P := World.Admits.initial
  obtain ⟨gs,hsub,hne,hfit,hk',-⟩ := (ho.run hb es).calls k hk
  refine ⟨gs,hne,hfit,congrArg Call.items hk',fun g hg => (ha.run hes).submitted g (hsub.subset hg),
    fun htarget => ?_⟩
  have hone := (World.run_alone htarget hb ho ha World.Alone.initial hes).calls k hk
  have hreplies : k.replies = gs.map Group.reply := congrArg Call.replies hk'
  rw [hreplies,List.length_map] at hone
  have hpos := List.length_pos_iff.mpr hne
  omega

end Calls
end Scheduler
end Maki
