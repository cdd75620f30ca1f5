import Mathlib
import Maki.WebSocket

/-! What every run of a WebSocket provider keeps: answers belong to the id and the generation they were
asked on, a swept generation stays empty, owners are counted, and frames are sent once. -/
namespace Maki
namespace WebSocket

variable {ν : Type} {w w' : World ν}

section Owners

theorem countP_set_add {α : Type} {p : α → Bool} {xs : List α} {i : ℕ} {x : α} (h : xs[i]? = some x) (y : α) :
    (xs.set i y).countP p+(if p x then 1 else 0) = xs.countP p+(if p y then 1 else 0) := by
  obtain ⟨hi,rfl⟩ := List.getElem?_eq_some_iff.mp h
  have hset := (List.set_perm_cons_eraseIdx hi y).countP_eq p
  have hold := (List.getElem_cons_eraseIdx_perm hi).countP_eq p
  rw [List.countP_cons] at hset hold
  omega

/-- The owners of every connection are its live requests, and a closed connection without any was
retired. -/
structure World.Owned (w : World ν) : Prop where
  active : ∀ g, (w.conn g).active = w.attempts.countP fun a => a.stage.liveOn g
  closed : ∀ g, (w.conn g).accepting = false → (w.conn g).active = 0 →
    ∃ r ∈ w.retirements, r.generation = g
  reason : ∀ r ∈ w.retirements, r.sendFailed = true ∨ r.active = 0

namespace World.Owned

theorem initial (retrySafe : Bool) : (World.initial retrySafe : World ν).Owned :=
  ⟨fun _ => rfl,fun _ h => Bool.noConfusion h,by simp [World.initial]⟩

theorem frame (h : w.Owned) (hconn : ∀ g, (w'.conn g).accepting = (w.conn g).accepting ∧
      (w'.conn g).active = (w.conn g).active)
    (hatt : ∀ g, (w'.attempts.countP fun a => a.stage.liveOn g) =
      w.attempts.countP fun a => a.stage.liveOn g)
    (hret : w'.retirements = w.retirements) : w'.Owned where
  active g := by rw [(hconn g).2,hatt g,h.active g]
  closed g hacc hact := by
    rw [hret]
    exact h.closed g ((hconn g).1 ▸ hacc) ((hconn g).2 ▸ hact)
  reason := hret ▸ h.reason

/-- One connection changes in what the owners do not look at. -/
theorem update {g : ℕ} {c : Connection} (ha : c.accepting = (w.conn g).accepting)
    (hb : c.active = (w.conn g).active) (g' : ℕ) :
    (Function.update w.conn g c g').accepting = (w.conn g').accepting ∧
    (Function.update w.conn g c g').active = (w.conn g').active := by
  by_cases hg : g' = g
  · subst hg
    rw [Function.update_self]
    exact ⟨ha,hb⟩
  · rw [Function.update_of_ne hg]
    exact ⟨rfl,rfl⟩

theorem setConn (h : w.Owned) {g : ℕ} {c : Connection} (ha : c.accepting = (w.conn g).accepting)
    (hb : c.active = (w.conn g).active) : (w.setConn g c).Owned :=
  h.frame (update ha hb) (fun _ => rfl) rfl

theorem failPending (h : w.Owned) (g : ℕ) (e : CryptoError) : (w.failPending g e).Owned :=
  h.frame (update rfl rfl) (fun _ => rfl) rfl

/-- The stage of an attempt changes; it stays on its generation, or off all. -/
theorem attempts (h : w.Owned) {i : ℕ} {a a' : Attempt ν} {st : Stage} (hi : w.attempts[i]? = some a)
    (hst : a.stage = st) (hlive : ∀ g, a'.stage.liveOn g = st.liveOn g) (hatt : w'.attempts = w.attempts.set i a')
    (hconn : w'.conn = w.conn) (hret : w'.retirements = w.retirements) : w'.Owned := by
  refine h.frame (fun g => by rw [hconn]; exact ⟨rfl,rfl⟩) (fun g => ?_) hret
  have hcount := countP_set_add (p := fun a : Attempt ν => a.stage.liveOn g) hi a'
  rw [hatt]
  simp only [hst,hlive g] at hcount
  omega

end World.Owned

theorem World.onAttempt_of (w : World ν) {P : World ν → Prop} (h : P w) (i : ℕ)
    (f : Attempt ν → World ν) (hf : ∀ a, w.attempts[i]? = some a → P (f a)) : P (w.onAttempt i f) := by
  unfold World.onAttempt
  split
  · exact hf _ (by assumption)
  · exact h

theorem World.attempts_stopAccepting (w : World ν) (g : ℕ) : (w.stopAccepting g).attempts = w.attempts := by
  simp only [World.stopAccepting]
  split <;> rfl

/-- The owners are counted, and all connections but one are retired where they should be. -/
structure World.OwnedBut (g : ℕ) (w : World ν) : Prop where
  active : ∀ g, (w.conn g).active = w.attempts.countP fun a => a.stage.liveOn g
  closed : ∀ g', g' ≠ g → (w.conn g').accepting = false → (w.conn g').active = 0 →
    ∃ r ∈ w.retirements, r.generation = g'
  reason : ∀ r ∈ w.retirements, r.sendFailed = true ∨ r.active = 0

theorem World.OwnedBut.retire {g : ℕ} (h : w.OwnedBut g) {failed : Bool}
    (hok : failed = true ∨ (w.conn g).active = 0) : (w.retire g failed).Owned where
  active g' := by
    rw [show (w.retire g failed).attempts = w.attempts from rfl,← h.active g']
    simp only [World.retire,Function.update_apply]
    split
    · rename_i hg
      rw [hg]
    · rfl
  closed g' hacc hact := by
    simp only [World.retire,Function.update_apply] at hacc hact
    by_cases hg : g' = g
    · exact ⟨⟨g,(w.conn g).active,failed⟩,List.mem_append_right _ (List.mem_singleton_self _),hg.symm⟩
    · simp only [if_neg hg] at hacc hact
      obtain ⟨r,hr,hrg⟩ := h.closed g' hg hacc hact
      exact ⟨r,List.mem_append_left _ hr,hrg⟩
  reason := forall_mem_concat h.reason hok

theorem World.OwnedBut.retireIf {g : ℕ} (h : w.OwnedBut g) {p : Prop} [Decidable p]
    (hp : p ↔ (w.conn g).accepting = false ∧ (w.conn g).active = 0) :
    (if p then w.retire g false else w).Owned := by
  split
  · rename_i hyes
    exact h.retire (.inr (hp.mp hyes).2)
  · rename_i hno
    refine ⟨h.active,fun g' hacc hact => ?_,h.reason⟩
    by_cases hg : g' = g
    · subst hg
      exact absurd (hp.mpr ⟨hacc,hact⟩) hno
    · exact h.closed g' hg hacc hact

namespace World.Owned

theorem stopAccepting (h : w.Owned) (g : ℕ) : (w.stopAccepting g).Owned := by
  have hbut : World.OwnedBut g (w.setConn g { w.conn g with accepting := false }) := by
    refine ⟨fun g' => ?_,fun g' hg hacc hact => ?_,h.reason⟩
    · rw [show (w.setConn g _).attempts = w.attempts from rfl,← h.active g']
      simp only [World.setConn,Function.update_apply]
      split
      · rename_i hg
        rw [hg]
      · rfl
    · simp only [World.setConn,Function.update_of_ne hg] at hacc hact
      exact h.closed g' hacc hact
  exact hbut.retireIf (by simp [World.setConn])

variable {i : ℕ} {a : Attempt ν}

variable (h : w.Owned)

include h

section Attempt

variable (hi : w.attempts[i]? = some a)

include hi

theorem live_set (a' : Attempt ν) (g : ℕ) :
    ((w.attempts.set i a').countP fun a => a.stage.liveOn g)+(if a.stage.liveOn g then 1 else 0) =
      (w.conn g).active+(if a'.stage.liveOn g then 1 else 0) := by
  rw [h.active g]
  exact countP_set_add (p := fun a : Attempt ν => a.stage.liveOn g) hi a'

theorem finish :
    (w.finish i a).Owned := by
  unfold World.finish
  split
  · rename_i g completed hst
    have hbut : World.OwnedBut g ((w.move i { a with stage := .done }).setConn g { w.conn g with
        active := (w.conn g).active-1, accepting := (w.conn g).accepting && completed }) := by
      refine ⟨fun g' => ?_,fun g' hg hacc hact => ?_,h.reason⟩
      · have hset := h.live_set hi { a with stage := .done } g'
        rw [show (Stage.done).liveOn g' = false from rfl,hst,
          show (Stage.dropping g completed).liveOn g' = decide (g = g') from rfl] at hset
        simp only [World.setConn,World.move,Function.update_apply]
        by_cases hg : g' = g
        · subst hg
          simp only [decide_true,if_true,Bool.false_eq_true,if_false] at hset ⊢
          omega
        · simp only [decide_eq_true_eq,Ne.symm hg,Bool.false_eq_true,if_false] at hset
          rw [if_neg hg]
          omega
      · simp only [World.setConn,World.move,Function.update_of_ne hg] at hacc hact
        exact h.closed g' hacc hact
    exact hbut.retireIf (by simp [World.setConn,World.move])
  · exact h

theorem register :
    (w.register i a).Owned := by
  unfold World.register
  split
  · rename_i connecting g hst hslot
    simp only
    split
    · refine ⟨fun g' => ?_,fun g' hacc hact => ?_,h.reason⟩
      · have hset := h.live_set hi { a with stage := .registered g } g'
        rw [show (Stage.registered g).liveOn g' = decide (g = g') from rfl,hst,
          show (Stage.chosen connecting).liveOn g' = false from rfl] at hset
        simp only [Function.update_apply]
        by_cases hg : g' = g
        · subst hg
          simp only [decide_true,if_true,Bool.false_eq_true,if_false] at hset ⊢
          omega
        · simp only [decide_eq_true_eq,Ne.symm hg,Bool.false_eq_true,if_false] at hset
          rw [if_neg hg]
          omega
      · simp only [Function.update_apply] at hacc hact
        by_cases hg : g' = g
        · simp only [if_pos hg] at hact
          omega
        · simp only [if_neg hg] at hacc hact
          exact h.closed g' hacc hact
    · have hnone : World.Owned { w with slot := none } := h.frame (fun _ => ⟨rfl,rfl⟩) (fun _ => rfl) rfl
      have hatt := World.attempts_stopAccepting { w with slot := none } g
      split
      all_goals
        exact (hnone.stopAccepting g).attempts (by rw [hatt]; exact hi) hst (fun _ => rfl) rfl rfl rfl
  · exact h

theorem send :
    (w.send i a).Owned := by
  unfold World.send
  split
  · rename_i g hst
    simp only
    split
    · have hqueue : World.Owned (w.setConn g { w.conn g with queue := (w.conn g).queue ++ [a.id] }) :=
        h.setConn rfl rfl
      exact hqueue.attempts hi hst (fun _ => rfl) rfl rfl rfl
    · have hretire : World.Owned { w.retire g true with slot := none } :=
        (World.OwnedBut.retire { h with closed := fun g' _ => h.closed g' } (.inl rfl)).frame
          (fun _ => ⟨rfl,rfl⟩) (fun _ => rfl) rfl
      have hatt := World.attempts_stopAccepting { w.retire g true with slot := none } g
      exact (hretire.stopAccepting g).attempts (by rw [hatt]; exact hi) hst (fun _ => rfl) rfl rfl rfl
  · exact h

theorem abandon (outcome : Option (Except CryptoError ν)) : (w.abandon i a outcome).Owned := by
  unfold World.abandon
  split
  · rename_i hst
    exact h.attempts hi hst (fun _ => rfl) rfl rfl rfl
  · rename_i hst
    split
    · exact h.attempts hi hst (fun _ => rfl) rfl rfl rfl
    · exact h
  · rename_i hst
    exact h.attempts hi hst (fun _ => rfl) rfl rfl rfl
  · rename_i hst
    exact h.attempts hi hst (fun _ => rfl) rfl rfl rfl
  · exact h

end Attempt

theorem attempt (i : ℕ) (c : Call) (encoded : Except CryptoError Unit) :
    (w.attempt i c encoded).Owned := by
  unfold World.attempt
  simp only
  split
  · exact h.frame (fun _ => ⟨rfl,rfl⟩) (fun _ => by simp [Stage.liveOn]) rfl
  · exact h.frame (fun _ => ⟨rfl,rfl⟩) (fun _ => by simp [Stage.liveOn]) rfl

theorem endTask (g : ℕ) (e : CryptoError) : (w.endTask g e).Owned := by
  unfold World.endTask
  split
  · split
    · exact (h.failPending g e).setConn rfl rfl
    · split
      · exact h.setConn rfl rfl
      · exact h
  · exact h

variable [ResponseValue ν]

theorem step (e : Event ν) : (w.step e).Owned := by
  have hsame : ∀ {w' : World ν}, w'.conn = w.conn → w'.attempts = w.attempts →
      w'.retirements = w.retirements → w'.Owned := fun hc ha hr =>
    h.frame (fun _ => by rw [hc]; exact ⟨rfl,rfl⟩) (fun _ => by rw [ha]) hr
  have hon := w.onAttempt_of (P := World.Owned) h
  cases e with
  | call => exact hsame rfl rfl rfl
  | attempt c encoded =>
    simp only [World.step]
    split
    · split
      · exact h.attempt _ _ _
      · exact h
    · exact h
  | refuse i e =>
    refine hon i _ fun a hi => ?_
    split
    · rename_i hst
      exact h.attempts hi hst (fun _ => rfl) rfl rfl rfl
    · exact h
  | lock i =>
    refine hon i _ fun a hi => ?_
    unfold World.lock
    split
    · rename_i hst _
      exact h.attempts hi hst (fun _ => rfl) rfl rfl rfl
    · exact h
  | connect i result =>
    refine hon i _ fun a hi => ?_
    unfold World.connect
    split
    iterate 3
      · rename_i hst _
        exact h.attempts hi hst (fun _ => rfl) rfl rfl rfl
    · exact h
  | register i => exact hon i _ fun a hi => h.register hi
  | send i => exact hon i _ fun a hi => h.send hi
  | receive i =>
    refine hon i _ fun a hi => ?_
    unfold World.receive
    split
    · rename_i hst _
      exact h.attempts hi hst (fun _ => rfl) rfl rfl rfl
    · exact h
  | timeout i => exact hon i _ fun a hi => h.abandon hi _
  | cancel i => exact hon i _ fun a hi => h.abandon hi _
  | finish i => exact hon i _ fun a hi => h.finish hi
  | start g =>
    simp only [World.step]
    split
    · exact h.setConn rfl rfl
    · exact h
  | frame g message =>
    simp only [World.step,World.frame]
    split
    · split
      · exact h
      · exact h.endTask _ _
      · split
        · exact hsame rfl rfl rfl
        · exact hsame rfl rfl rfl
    · exact h
  | write g =>
    simp only [World.step,World.write]
    split
    · split
      · have hqueue : ∀ rest, (w.setConn g { w.conn g with queue := rest }).Owned :=
          fun _ => h.setConn rfl rfl
        split
        · exact (hqueue _).frame (fun _ => ⟨rfl,rfl⟩) (fun _ => rfl) rfl
        · exact hqueue _
      · exact h
    · exact h
  | endTask g e => exact h.endTask g e
  | sweep k =>
    simp only [World.step,World.sweep]
    split
    · exact (h.failPending _ (.Retryable "connection lost: retired")).frame (fun _ => ⟨rfl,rfl⟩) (fun _ => rfl) rfl
    · exact h
  | abort k =>
    simp only [World.step,World.abort]
    split
    · exact h.setConn rfl rfl
    · exact h

theorem run (es : List (Event ν)) : (w.run es).Owned := by
  induction es generalizing w with
  | nil => exact h
  | cons e es ih => exact ih (h.step e)

end World.Owned

end Owners

section Tracks

def Stage.unregistered : Stage → Bool
  | .waiting | .holding | .chosen _ => true
  | _ => false

namespace World.Sound

variable {g : ℕ}

/-- What the invariants do not look at. -/
structure Quiet (w w' : World ν) : Prop where
  retrySafe : w'.retrySafe = w.retrySafe
  dead : w'.dead = w.dead
  pending : w'.pending = w.pending
  replies : w'.replies = w.replies
  frames : w'.frames = w.frames
  attempts : w'.attempts = w.attempts
  calls : w'.calls = w.calls
  registered : w'.registered = w.registered
  arrived : w'.arrived = w.arrived
  wire : w'.wire = w.wire
  jobs : ∀ j ∈ w'.jobs, j.2 = true → j ∈ w.jobs
  swept : ∀ g, (w'.conn g).swept = (w.conn g).swept
  gone : ∀ g, (w'.conn g).aborted = (w.conn g).aborted ∧ (w'.conn g).ended = (w.conn g).ended

theorem Quiet.trans {w'' : World ν} (h : Quiet w w') (h' : Quiet w' w'') : Quiet w w'' where
  retrySafe := h'.retrySafe.trans h.retrySafe
  dead := h'.dead.trans h.dead
  pending := h'.pending.trans h.pending
  replies := h'.replies.trans h.replies
  frames := h'.frames.trans h.frames
  attempts := h'.attempts.trans h.attempts
  calls := h'.calls.trans h.calls
  registered := h'.registered.trans h.registered
  arrived := h'.arrived.trans h.arrived
  wire := h'.wire.trans h.wire
  jobs j hj hj2 := h.jobs j (h'.jobs j hj hj2) hj2
  swept g := (h'.swept g).trans (h.swept g)
  gone g := ⟨(h'.gone g).1.trans (h.gone g).1,(h'.gone g).2.trans (h.gone g).2⟩

/-- A connection changes in its owners, its queue or its start. -/
theorem quiet_setConn (w : World ν) {c : Connection} (hs : c.swept = (w.conn g).swept)
    (ha : c.aborted = (w.conn g).aborted) (he : c.ended = (w.conn g).ended) : Quiet w (w.setConn g c) := by
  refine ⟨rfl,rfl,rfl,rfl,rfl,rfl,rfl,rfl,rfl,rfl,fun j hj _ => hj,fun g' => ?_,fun g' => ?_⟩
  · simp only [World.setConn,Function.update_apply]
    split
    · rename_i hg
      rw [hg,hs]
    · rfl
  · simp only [World.setConn,Function.update_apply]
    split
    · rename_i hg
      rw [hg]
      exact ⟨ha,he⟩
    · exact ⟨rfl,rfl⟩

theorem quiet_retire (w : World ν) (g : ℕ) (failed : Bool) : Quiet w (w.retire g failed) := by
  have hconn := quiet_setConn w (g := g) (c := { w.conn g with accepting := false }) rfl rfl rfl
  exact ⟨rfl,rfl,rfl,rfl,rfl,rfl,rfl,rfl,rfl,rfl,forall_mem_concat (fun j hj _ => hj) (fun hc => by cases hc),
    hconn.swept,hconn.gone⟩

theorem quiet_stopAccepting (w : World ν) (g : ℕ) : Quiet w (w.stopAccepting g) := by
  have hconn := quiet_setConn w (g := g) (c := { w.conn g with accepting := false }) rfl rfl rfl
  unfold World.stopAccepting
  simp only
  split
  · exact hconn.trans (quiet_retire _ g false)
  · exact hconn

theorem quiet_finishRequest (w : World ν) (g : ℕ) (completed : Bool) :
    Quiet w (w.finishRequest g completed) := by
  have hconn := quiet_setConn w (g := g) (c := { w.conn g with
    active := (w.conn g).active-1, accepting := (w.conn g).accepting && completed }) rfl rfl rfl
  unfold World.finishRequest
  simp only
  split
  · exact hconn.trans (quiet_retire _ g false)
  · exact hconn

/-- The mutex, the slot and the counter of generations. -/
theorem quiet_cached (w : World ν) (generation : ℕ) (slot guard : Option ℕ) :
    Quiet w { w with generation := generation, slot := slot, guard := guard } :=
  ⟨rfl,rfl,rfl,rfl,rfl,rfl,rfl,rfl,rfl,rfl,fun _ hj _ => hj,fun _ => rfl,fun _ => ⟨rfl,rfl⟩⟩

end World.Sound

variable [ResponseValue ν]

/-- Ids are registered and answered once, and an answer is a response for its id that arrived on the
generation of its registration. -/
structure World.Answers (w : World ν) : Prop where
  ids : ∀ (i : ℕ) (a : Attempt ν), w.attempts[i]? = some a → a.id = i+1
  carried : ∀ x ∈ w.pending, x ∈ w.registered ∧ x.1 ∉ w.replies.map Prod.fst
  once : (w.pending.map Prod.fst).Nodup
  logged : (w.registered.map Prod.fst).Nodup
  fresh : ∀ a ∈ w.attempts, a.stage.unregistered = true → a.id ∉ w.registered.map Prod.fst
  known : ∀ id ∈ w.registered.map Prod.fst, id ≤ w.attempts.length
  answered : (w.replies.map Prod.fst).Nodup
  asked : ∀ id ∈ w.replies.map Prod.fst, id ∈ w.registered.map Prod.fst
  right : ∀ id v, (id,.ok v) ∈ w.replies → ResponseValue.id v = some id ∧
    ∃ g, (id,g) ∈ w.registered ∧ (g,v) ∈ w.arrived
  outcome : ∀ a ∈ w.attempts, ∀ v, a.outcome = some (.ok v) → (a.id,.ok v) ∈ w.replies

/-- A generation whose pending requests were failed is dead and has none, and stays so from `past` on. -/
structure World.Swept (w past : World ν) : Prop where
  empty : ∀ g, (w.conn g).swept = true → g ≤ w.dead ∧ ∀ x ∈ w.pending, x.2 ≠ g
  jobs : ∀ j ∈ w.jobs, j.2 = true → (w.conn j.1).swept = true
  gone : ∀ g, (w.conn g).aborted = true ∨ (w.conn g).ended = true → (w.conn g).swept = true
  safe : w.retrySafe = past.retrySafe
  kept : ∀ g, (past.conn g).swept = true → (w.conn g).swept = true

/-- A frame is on the wire at most once, and a call has few attempts, each with its own id. -/
structure World.Sent (w : World ν) : Prop where
  frames : ∀ id ∈ w.frames, id ≤ w.attempts.length
  wired : (w.wire.map Prod.snd).Nodup
  wire : ∀ x ∈ w.wire, x.2 ≤ w.attempts.length ∧ x.2 ∉ w.frames
  calls : ∀ c ∈ w.calls, c.ids.Nodup ∧ c.ids.length ≤ w.limit ∧ ∀ id ∈ c.ids, id ≤ w.attempts.length

structure World.Sound (w past : World ν) : Prop where
  answers : w.Answers
  swept : w.Swept past
  sent : w.Sent

namespace World.Sound

theorem initial (retrySafe : Bool) : (World.initial retrySafe : World ν).Sound (World.initial retrySafe) := by
  refine ⟨⟨?_,?_,?_,?_,?_,?_,?_,?_,?_,?_⟩,⟨?_,?_,?_,?_,?_⟩,⟨?_,?_,?_,?_⟩⟩ <;> simp [World.initial]

variable {past : World ν}

theorem restart (h : w.Sound past) : w.Sound w :=
  { h with swept := { h.swept with safe := rfl, kept := fun _ hg => hg } }

theorem quiet (h : w.Sound past) (hq : Quiet w w') : w'.Sound past := by
  cases w'
  obtain ⟨rfl,rfl,rfl,rfl,rfl,rfl,rfl,rfl,rfl,rfl,hjobs,hswept,hgone⟩ := hq
  obtain ⟨ha,hs,ht⟩ := h
  refine ⟨{ ha with },⟨fun g hg => hs.empty g (hswept g ▸ hg),fun j hj hj2 => ?_,fun g hg => ?_,hs.safe,
    fun g hg => (hswept g).trans (hs.kept g hg)⟩,{ ht with }⟩
  · exact (hswept j.1).trans (hs.jobs j (hjobs j hj hj2) hj2)
  · rw [(hgone g).1,(hgone g).2] at hg
    exact (hswept g).trans (hs.gone g hg)

variable {i g : ℕ} {a : Attempt ν} {outcome : Option (Except CryptoError ν)}

theorem read_deliver {m : Message ν} {id : ℕ} {value : ν} {frame : Except CryptoError ν}
    (h : m.read = .deliver id value frame) :
    ResponseValue.id value = some id ∧ ∀ v, frame = .ok v → v = value := by
  unfold Message.read at h
  split at h
  · cases h
  · cases h
  · cases h
  · cases h
  · cases h
  · split at h
    · cases h
    · rename_i hid
      simp only at h
      split at h
      · cases h
        exact ⟨hid,fun v hv => by cases hv⟩
      · cases h
        exact ⟨hid,fun v hv => (Except.ok.inj hv).symm⟩

variable (h : w.Sound past)

include h

/-- An attempt goes on, possibly out of the map and without its frame. -/
theorem restage (hi : w.attempts[i]? = some a) (a' : Attempt ν)
    (hid : a'.id = a.id) (hst : a'.stage.unregistered = true → a.stage.unregistered = true)
    (hout : ∀ v, a'.outcome = some (.ok v) → (a.id,.ok v) ∈ w.replies)
    {pending : List (ℕ × ℕ)} (hp : pending.Sublist w.pending)
    {frames : List ℕ} (hf : frames.Sublist w.frames) :
    World.Sound { w with pending := pending, frames := frames, attempts := w.attempts.set i a' } past := by
  obtain ⟨ha,hs,ht⟩ := h
  have hlen : (w.attempts.set i a').length = w.attempts.length := List.length_set
  have hmem : ∀ b ∈ w.attempts.set i a', b ∈ w.attempts ∨ b = a' := fun b hb =>
    List.mem_or_eq_of_mem_set hb
  have hai := List.mem_of_getElem? hi
  refine ⟨⟨fun j b hb => ?_,fun x hx => ha.carried x (hp.subset hx),ha.once.sublist (hp.map _),ha.logged,
      fun b hb hun => ?_,fun id hid => hlen ▸ ha.known id hid,ha.answered,ha.asked,ha.right,
      fun b hb v hv => ?_⟩,
    ⟨fun g hg => ⟨(hs.empty g hg).1,fun x hx => (hs.empty g hg).2 x (hp.subset hx)⟩,hs.jobs,hs.gone,hs.safe,hs.kept⟩,
    ⟨fun id hid => hlen ▸ ht.frames id (hf.subset hid),ht.wired,fun x hx => ?_,fun c hc => ?_⟩⟩
  · rw [List.getElem?_set] at hb
    split at hb
    · rename_i hij
      split at hb
      · cases hb
        rw [hid,ha.ids i a hi,hij]
      · cases hb
    · exact ha.ids j b hb
  · rcases hmem b hb with hb | rfl
    · exact ha.fresh b hb hun
    · rw [hid]
      exact ha.fresh a hai (hst hun)
  · rcases hmem b hb with hb | rfl
    · exact ha.outcome b hb v hv
    · rw [hid]
      exact hout v hv
  · exact ⟨hlen ▸ (ht.wire x hx).1,fun hx' => (ht.wire x hx).2 (hf.subset hx')⟩
  · obtain ⟨hn,hl,hle⟩ := ht.calls c hc
    exact ⟨hn,hl,fun id hid => hlen ▸ hle id hid⟩

theorem failPending (g : ℕ) (e : CryptoError) : (w.failPending g e).Sound past := by
  obtain ⟨ha,hs,ht⟩ := h
  have hids : ((w.pending.filter fun x => x.2 = g).map fun x => (x.1,(Except.error e : Except CryptoError ν))).map
      Prod.fst = (w.pending.filter fun x => x.2 = g).map Prod.fst := by
    rw [List.map_map]
    rfl
  have hnew : ∀ id ∈ (w.pending.filter fun x => x.2 = g).map Prod.fst, ∃ x ∈ w.pending, x.1 = id ∧ x.2 = g := by
    intro id hid
    obtain ⟨x,hx,rfl⟩ := List.mem_map.mp hid
    obtain ⟨hx,hg⟩ := List.mem_filter.mp hx
    exact ⟨x,hx,rfl,by simpa using hg⟩
  have hmore : ∀ g', (w.conn g').swept = true → ((w.failPending g e).conn g').swept = true := by
    intro g' hg'
    simp only [World.failPending,Function.update_apply]
    split
    · rfl
    · exact hg'
  refine ⟨⟨ha.ids,fun x hx => ?_,ha.once.sublist (List.filter_sublist.map _),ha.logged,ha.fresh,ha.known,
      ?_,fun id hid => ?_,fun id v hv => ?_,fun a hmem v hv => List.mem_append_left _ (ha.outcome a hmem v hv)⟩,
    ⟨fun g' hg' => ?_,fun j hj hj2 => hmore j.1 (hs.jobs j hj hj2),fun g' hg' => ?_,hs.safe,
      fun g' hg' => hmore g' (hs.kept g' hg')⟩,{ ht with }⟩
  · obtain ⟨hx,hne⟩ := List.mem_filter.mp hx
    refine ⟨(ha.carried x hx).1,fun hmem => ?_⟩
    simp only [World.failPending,List.map_append] at hmem
    rcases List.mem_append.mp hmem with hmem | hmem
    · exact (ha.carried x hx).2 hmem
    · rw [hids] at hmem
      obtain ⟨y,hy,hyid,hyg⟩ := hnew _ hmem
      obtain rfl := List.inj_on_of_nodup_map ha.once hy hx hyid
      simp [hyg] at hne
  · simp only [World.failPending,List.map_append]
    rw [hids]
    refine List.Nodup.append ha.answered (ha.once.sublist (List.filter_sublist.map _)) fun id hid hid' => ?_
    obtain ⟨y,hy,rfl,-⟩ := hnew id hid'
    exact (ha.carried y hy).2 hid
  · simp only [World.failPending,List.map_append] at hid
    rcases List.mem_append.mp hid with hid | hid
    · exact ha.asked id hid
    · rw [hids] at hid
      obtain ⟨y,hy,rfl,-⟩ := hnew id hid
      exact List.mem_map_of_mem (ha.carried y hy).1
  · rcases List.mem_append.mp hv with hv | hv
    · exact ha.right id v hv
    · obtain ⟨x,-,hx⟩ := List.mem_map.mp hv
      cases hx
  · simp only [World.failPending,Function.update_apply] at hg' ⊢
    by_cases hg : g' = g
    · subst hg
      refine ⟨Nat.le_max_right _ _,fun x hx => ?_⟩
      simpa using (List.mem_filter.mp hx).2
    · rw [if_neg hg] at hg'
      obtain ⟨hd,hx⟩ := hs.empty g' hg'
      exact ⟨hd.trans (Nat.le_max_left _ _),fun x hx' => hx x (List.mem_filter.mp hx').1⟩
  · simp only [World.failPending,Function.update_apply] at hg' ⊢
    split
    · rfl
    · rename_i hg
      rw [if_neg hg] at hg'
      exact hs.gone g' hg'

theorem setGone {c : Connection} (hs : c.swept = true)
    (hw : (w.conn g).swept = true) : (w.setConn g c).Sound past := by
  obtain ⟨ha,hsw,ht⟩ := h
  have hsame : ∀ g', (Function.update w.conn g c g').swept = (w.conn g').swept := by
    intro g'
    rw [Function.update_apply]
    split
    · rename_i hg
      rw [hg,hs,hw]
    · rfl
  refine ⟨{ ha with },⟨fun g' hg' => ?_,fun j hj hj2 => ?_,fun g' hg' => ?_,hsw.safe,
    fun g' hg' => (hsame g').trans (hsw.kept g' hg')⟩,{ ht with }⟩
  · exact hsw.empty g' (hsame g' ▸ hg')
  · exact (hsame j.1).trans (hsw.jobs j hj hj2)
  · refine (hsame g').trans ?_
    by_cases hg : g' = g
    · rw [hg]
      exact hw
    · simp only [World.setConn,Function.update_of_ne hg] at hg'
      exact hsw.gone g' hg'

theorem endTask (g : ℕ) (e : CryptoError) : (w.endTask g e).Sound past := by
  unfold World.endTask
  split
  · split
    · have hswept : ((w.failPending g e).conn g).swept = true := by simp [World.failPending]
      exact (h.failPending g e).setGone hswept hswept
    · split
      · rename_i haborted
        have hswept := h.swept.gone g (.inl haborted)
        exact h.setGone hswept hswept
      · exact h
  · exact h

/-- An id enters the pending map of a generation that is not dead. -/
theorem enroll (hi : w.attempts[i]? = some a)
    (hun : a.stage.unregistered = true) (hdead : w.dead < g) :
    World.Sound { w with
      pending := w.pending ++ [(a.id,g)], registered := w.registered ++ [(a.id,g)]
      attempts := w.attempts.set i { a with stage := .registered g } } past := by
  have hai := List.mem_of_getElem? hi
  have hnew := h.answers.fresh a hai hun
  have hrep : a.id ∉ w.replies.map Prod.fst := fun hmem => hnew (h.answers.asked _ hmem)
  have hpend : a.id ∉ w.pending.map Prod.fst := fun hmem => by
    obtain ⟨x,hx,he⟩ := List.mem_map.mp hmem
    exact hnew (he ▸ List.mem_map_of_mem (h.answers.carried x hx).1)
  have hle : a.id ≤ w.attempts.length := by
    rw [h.answers.ids i a hi]
    exact (List.getElem?_eq_some_iff.mp hi).1
  -- the attempt moves on first, then its id is logged
  obtain ⟨ha,hs,ht⟩ := h.restage hi { a with stage := .registered g } rfl
    (fun hc => by cases hc) (fun v hv => h.answers.outcome a hai v hv) (List.Sublist.refl _)
    (List.Sublist.refl _)
  refine ⟨⟨ha.ids,forall_mem_concat (fun x hx => ?_) ?_,?_,?_,fun b hb hbun hmem => ?_,?_,ha.answered,
      fun id hid => ?_,fun id v hv => ?_,ha.outcome⟩,⟨fun g' hg' => ?_,hs.jobs,hs.gone,hs.safe,hs.kept⟩,{ ht with }⟩
  · exact ⟨List.mem_append_left _ (ha.carried x hx).1,(ha.carried x hx).2⟩
  · exact ⟨List.mem_append_right _ (List.mem_singleton_self _),hrep⟩
  · rw [List.map_append]
    exact nodup_concat ha.once hpend
  · rw [List.map_append]
    exact nodup_concat ha.logged hnew
  · rw [List.map_append] at hmem
    rcases List.mem_append.mp hmem with hmem | hmem
    · exact ha.fresh b hb hbun hmem
    · -- the only attempt with this id has registered
      obtain ⟨j,hj⟩ := List.mem_iff_getElem?.mp hb
      have hidj := ha.ids j b hj
      have hidi := h.answers.ids i a hi
      have hij : j = i := by
        have := List.mem_singleton.mp hmem
        omega
      subst hij
      rw [List.getElem?_set_self (List.getElem?_eq_some_iff.mp hi).1] at hj
      cases hj
      cases hbun
  · rw [List.map_append]
    exact forall_mem_concat ha.known (by simpa using hle)
  · exact List.map_append ▸ List.mem_append_left _ (ha.asked id hid)
  · obtain ⟨hv1,g',hg',hv2⟩ := ha.right id v hv
    exact ⟨hv1,g',List.mem_append_left _ hg',hv2⟩
  · -- a swept generation is dead, and this one is not
    obtain ⟨hd,hx⟩ := hs.empty g' hg'
    refine ⟨hd,forall_mem_concat hx ?_⟩
    simp only at hd ⊢
    omega

theorem cached (generation : ℕ) (slot guard : Option ℕ) :
    World.Sound { w with generation := generation, slot := slot, guard := guard } past :=
  h.quiet (quiet_cached w generation slot guard)

section Attempt

variable (hi : w.attempts[i]? = some a)

include hi

theorem move {st : Stage}
    (hst : st.unregistered = true → a.stage.unregistered = true) :
    (w.move i { a with stage := st }).Sound past :=
  h.restage hi { a with stage := st } rfl hst
    (fun v hv => h.answers.outcome a (List.mem_of_getElem? hi) v hv) (List.Sublist.refl _)
    (List.Sublist.refl _)

theorem close (hout : ∀ v, outcome ≠ some (.ok v)) :
    (w.close i a outcome).Sound past :=
  h.restage hi { a with stage := .done, outcome := outcome } rfl (fun hc => by cases hc)
    (fun v hv => absurd hv (hout v)) (List.Sublist.refl _) List.filter_sublist

theorem dropRequest {completed : Bool}
    (hout : ∀ v, outcome = some (.ok v) → (a.id,.ok v) ∈ w.replies) :
    (w.dropRequest i a g completed outcome).Sound past :=
  h.restage hi { a with stage := .dropping g completed, outcome := outcome } rfl
    (fun hc => by cases hc) hout List.filter_sublist List.filter_sublist

theorem register :
    (w.register i a).Sound past := by
  unfold World.register
  split
  · rename_i connecting g hst hslot
    have hun : a.stage.unregistered = true := by rw [hst]; rfl
    simp only
    split
    · rename_i hyes
      exact (h.enroll hi hun hyes.2).quiet (quiet_setConn _ rfl rfl rfl)
    · have hq : Quiet w ({ w with slot := none }.stopAccepting g) :=
        (quiet_cached w w.generation none w.guard).trans (quiet_stopAccepting _ g)
      have hi' := hq.attempts.symm ▸ hi
      split
      · exact ((h.quiet hq).close hi' (by simp)).cached _ _ none
      · exact (h.quiet hq).move hi' fun _ => hun
  · exact h

theorem send :
    (w.send i a).Sound past := by
  unfold World.send
  split
  · rename_i g hst
    simp only
    split
    · have hq := quiet_setConn w (g := g)
        (c := { w.conn g with queue := (w.conn g).queue ++ [a.id] }) rfl rfl rfl
      have hmove : World.Sound (World.move (w.setConn g { w.conn g with
          queue := (w.conn g).queue ++ [a.id] }) i { a with stage := .awaiting g }) past :=
        (h.quiet hq).move hi fun hc => by cases hc
      exact hmove.cached _ _ none
    · have hq : Quiet w (World.stopAccepting { w.retire g true with slot := none } g) :=
        (quiet_retire w g true).trans
          ((quiet_cached _ w.generation none w.guard).trans (quiet_stopAccepting _ g))
      have hi' := hq.attempts.symm ▸ hi
      exact ((h.quiet hq).dropRequest hi' (by simp)).cached _ _ none
  · exact h

theorem receive :
    (w.receive i a).Sound past := by
  unfold World.receive
  split
  · rename_i g r hst hr
    refine h.dropRequest hi fun v hv => ?_
    cases hv
    obtain ⟨l,l',hsplit,-⟩ := List.lookup_eq_some_iff.mp hr
    rw [hsplit]
    simp
  · exact h

theorem abandon (hout : ∀ v, outcome ≠ some (.ok v)) :
    (w.abandon i a outcome).Sound past := by
  have hdrop : ∀ g, (w.dropRequest i a g false outcome).Sound past := fun g =>
    h.dropRequest hi fun v hv => absurd hv (hout v)
  unfold World.abandon
  split
  · exact h.close hi hout
  · split
    · exact (h.close hi hout).cached _ _ none
    · exact h
  · exact (hdrop _).cached _ _ none
  · exact hdrop _
  · exact h

end Attempt

/-- A response on a generation answers an id that is pending there. -/
theorem deliver {id : ℕ} {value : ν} {frame : Except CryptoError ν}
    (hp : (id,g) ∈ w.pending) (hid : ResponseValue.id value = some id)
    (hframe : ∀ v, frame = .ok v → v = value) :
    World.Sound { w with
      arrived := w.arrived ++ [(g,value)]
      pending := w.pending.filter fun x => x.1 ≠ id, replies := w.replies ++ [(id,frame)] } past := by
  obtain ⟨ha,hs,ht⟩ := h
  obtain ⟨hreg,hnew⟩ := ha.carried _ hp
  refine ⟨⟨ha.ids,fun x hx => ?_,ha.once.sublist (List.filter_sublist.map _),ha.logged,ha.fresh,ha.known,
      ?_,?_,fun id' v hv => ?_,fun a hmem v hv => List.mem_append_left _ (ha.outcome a hmem v hv)⟩,
    ⟨fun g' hg' => ⟨(hs.empty g' hg').1,fun x hx => (hs.empty g' hg').2 x (List.mem_filter.mp hx).1⟩,
      hs.jobs,hs.gone,hs.safe,hs.kept⟩,{ ht with }⟩
  · obtain ⟨hx,hne⟩ := List.mem_filter.mp hx
    refine ⟨(ha.carried x hx).1,fun hmem => ?_⟩
    rw [List.map_append] at hmem
    rcases List.mem_append.mp hmem with hmem | hmem
    · exact (ha.carried x hx).2 hmem
    · simp [List.mem_singleton.mp hmem] at hne
  · rw [List.map_append]
    exact nodup_concat ha.answered hnew
  · rw [List.map_append]
    exact forall_mem_concat ha.asked (List.mem_map_of_mem hreg)
  · rcases List.mem_append.mp hv with hv | hv
    · obtain ⟨hv1,g',hg',hv2⟩ := ha.right id' v hv
      exact ⟨hv1,g',hg',List.mem_append_left _ hv2⟩
    · have hpair := List.mem_singleton.mp hv
      have hid' : id' = id := congrArg Prod.fst hpair
      have hv' : v = value := hframe v (congrArg Prod.snd hpair).symm
      subst hid' hv'
      exact ⟨hid,g,hreg,List.mem_append_right _ (List.mem_singleton_self _)⟩

theorem arrive (x : ℕ × ν) : World.Sound { w with arrived := w.arrived ++ [x] } past := by
  obtain ⟨ha,hs,ht⟩ := h
  refine ⟨{ ha with right := fun id v hv => ?_ },{ hs with },{ ht with }⟩
  obtain ⟨hv1,g,hg,hv2⟩ := ha.right id v hv
  exact ⟨hv1,g,hg,List.mem_append_left _ hv2⟩

theorem frame (g : ℕ) (m : Message ν) : (w.frame g m).Sound past := by
  unfold World.frame
  split
  · split
    · exact h
    · exact h.endTask _ _
    · rename_i id value frame hread
      obtain ⟨hid,hframe⟩ := read_deliver hread
      simp only
      split
      · rename_i hp
        exact h.deliver hp hid hframe
      · exact h.arrive _
  · exact h

/-- The writer takes a frame that was not revoked, once. -/
theorem write (g : ℕ) : (w.write g).Sound past := by
  unfold World.write
  split
  · rename_i id rest hqueue
    split
    · have hq := h.quiet (quiet_setConn w (g := g) (c := { w.conn g with queue := rest }) rfl rfl rfl)
      simp only
      split
      · rename_i hid
        obtain ⟨ha,hs,ht⟩ := hq
        refine ⟨{ ha with },{ hs with },⟨fun x hx => ht.frames x (List.mem_filter.mp hx).1,?_,
          forall_mem_concat (fun x hx => ?_) ?_,ht.calls⟩⟩
        · rw [List.map_append]
          refine nodup_concat ht.wired fun hx => ?_
          obtain ⟨y,hy,hyid⟩ := List.mem_map.mp hx
          exact (ht.wire y hy).2 (hyid ▸ hid)
        · exact ⟨(ht.wire x hx).1,fun hf => (ht.wire x hx).2 (List.mem_filter.mp hf).1⟩
        · exact ⟨ht.frames id hid,fun hf => by simpa using (List.mem_filter.mp hf).2⟩
      · exact hq
    · exact h
  · exact h

theorem begin {c c' : Call} (hc : w.calls[i]? = some c)
    (hlimit : c.ids.length < w.limit) (hids : c'.ids = c.ids ++ [w.attempts.length+1]) {st : Stage}
    (hout : ∀ v, outcome ≠ some (.ok v))
    {frames : List ℕ} (hf : ∀ id ∈ frames, id ∈ w.frames ∨ id = w.attempts.length+1) :
    World.Sound { w with
      attempts := w.attempts ++ [⟨w.attempts.length+1,st,outcome⟩], frames := frames
      calls := w.calls.set i c' } past := by
  obtain ⟨ha,hs,ht⟩ := h
  have hlen : (w.attempts ++ [(⟨w.attempts.length+1,st,outcome⟩ : Attempt ν)]).length = w.attempts.length+1 := by
    simp
  refine ⟨⟨fun j b hb => ?_,ha.carried,ha.once,ha.logged,forall_mem_concat ha.fresh fun _ hmem => ?_,
      fun id hid => ?_,ha.answered,ha.asked,ha.right,
      forall_mem_concat ha.outcome fun v hv => absurd hv (hout v)⟩,⟨hs.empty,hs.jobs,hs.gone,hs.safe,hs.kept⟩,
    ⟨fun id hid => ?_,ht.wired,fun x hx => ⟨?_,fun hmem => ?_⟩,fun d hd => ?_⟩⟩
  · rw [List.getElem?_append] at hb
    split at hb
    · exact ha.ids j b hb
    · rename_i hj
      obtain ⟨hlt,rfl⟩ := List.getElem?_eq_some_iff.mp hb
      simp only [List.length_singleton] at hlt
      simp only [List.getElem_singleton]
      omega
  · exact absurd (ha.known _ hmem) (by simp)
  · rw [hlen]
    exact (ha.known id hid).trans (Nat.le_succ _)
  · rw [hlen]
    rcases hf id hid with hid | rfl
    · exact (ht.frames id hid).trans (Nat.le_succ _)
    · exact Nat.le_refl _
  · rw [hlen]
    exact (ht.wire x hx).1.trans (Nat.le_succ _)
  · rcases hf _ hmem with hmem | heq
    · exact (ht.wire x hx).2 hmem
    · have := (ht.wire x hx).1
      omega
  · rw [hlen]
    rcases List.mem_or_eq_of_mem_set hd with hd | rfl
    · obtain ⟨hn,hl,hle⟩ := ht.calls d hd
      exact ⟨hn,hl,fun id hid => (hle id hid).trans (Nat.le_succ _)⟩
    · obtain ⟨hn,-,hle⟩ := ht.calls c (List.mem_of_getElem? hc)
      rw [hids]
      refine ⟨nodup_concat hn fun hid => absurd (hle _ hid) (by simp),?_,
        forall_mem_concat (fun id hid => (hle id hid).trans (Nat.le_succ _)) (Nat.le_refl _)⟩
      rw [List.length_append]
      exact hlimit

theorem attempt {c : Call} (hc : w.calls[i]? = some c) (hready : w.ready c = true)
    (encoded : Except CryptoError Unit) : (w.attempt i c encoded).Sound past := by
  have hlimit : c.ids.length < w.limit := by
    simp only [World.ready,Bool.and_eq_true,decide_eq_true_eq] at hready
    exact hready.1.2
  unfold World.attempt
  simp only
  split
  · exact h.begin hc hlimit rfl (by simp) fun id hid => by simpa using hid
  · exact h.begin hc hlimit rfl (by simp) fun id hid => .inl hid

theorem sweep (k : ℕ) : (w.sweep k).Sound past := by
  unfold World.sweep
  split
  · rename_i g hk
    obtain ⟨ha,hs,ht⟩ := h.failPending g (.Retryable "connection lost: retired")
    exact ⟨{ ha with },{ hs with jobs := forall_mem_set hs.jobs fun _ => by simp [World.failPending] },{ ht with }⟩
  · exact h

theorem step (e : Event ν) : (w.step e).Sound past := by
  have hon := w.onAttempt_of (P := (·.Sound past)) h
  cases e with
  | call =>
    obtain ⟨ha,hs,ht⟩ := h
    exact ⟨{ ha with },{ hs with },
      { ht with calls := forall_mem_concat ht.calls ⟨List.nodup_nil,Nat.zero_le _,by simp⟩ }⟩
  | attempt c encoded =>
    simp only [World.step]
    split
    · rename_i hc
      split
      · rename_i hready
        exact h.attempt hc hready encoded
      · exact h
    · exact h
  | refuse i e =>
    refine hon i _ fun a hi => ?_
    split
    · exact h.close hi (by simp)
    · exact h
  | lock i =>
    refine hon i _ fun a hi => ?_
    unfold World.lock
    split
    · rename_i hst _
      exact (h.move hi fun _ => by rw [hst]; rfl).cached _ _ (some i)
    · exact h
  | connect i result =>
    refine hon i _ fun a hi => ?_
    unfold World.connect
    split
    · rename_i hst _
      exact h.move hi fun _ => by rw [hst]; rfl
    · rename_i hst _
      exact (h.move hi fun _ => by rw [hst]; rfl).cached _ _ _
    · exact (h.close hi (by simp)).cached _ _ none
    · exact h
  | register i => exact hon i _ fun a hi => h.register hi
  | send i => exact hon i _ fun a hi => h.send hi
  | receive i => exact hon i _ fun a hi => h.receive hi
  | timeout i => exact hon i _ fun a hi => h.abandon hi (by simp)
  | cancel i => exact hon i _ fun a hi => h.abandon hi (by simp)
  | finish i =>
    refine hon i _ fun a hi => ?_
    unfold World.finish
    split
    · exact (h.move hi fun hc => by cases hc).quiet (quiet_finishRequest _ _ _)
    · exact h
  | start g =>
    simp only [World.step]
    split
    · exact h.quiet (quiet_setConn w rfl rfl rfl)
    · exact h
  | frame g message => exact h.frame g message
  | write g => exact h.write g
  | endTask g e => exact h.endTask g e
  | sweep k => exact h.sweep k
  | abort k =>
    simp only [World.step,World.abort]
    split
    · rename_i g hk
      have hswept := h.swept.jobs _ (List.mem_of_getElem? hk) rfl
      exact h.setGone hswept hswept
    · exact h

theorem run (es : List (Event ν)) : (w.run es).Sound past := by
  induction es generalizing w with
  | nil => exact h
  | cons e es ih => exact ih (h.step e)

end World.Sound

end Tracks

section Correlation

variable [ResponseValue ν]

/-- The requests pending on `g`, and no others, are answered with the failure. -/
def World.Fails (w w' : World ν) (g : ℕ) (failure : CryptoError) : Prop :=
  w'.pending = w.pending.filter (fun x => x.2 ≠ g) ∧
    w'.replies = w.replies ++ (w.pending.filter fun x => x.2 = g).map fun x => (x.1,.error failure)

theorem World.Sound.endTask_fails {past : World ν} (h : w.Sound past) {g : ℕ} (hrun : w.running g = true)
    (hend : (w.conn g).started = true ∨ (w.conn g).aborted = true) (failure : CryptoError) :
    w.Fails (w.endTask g failure) g failure := by
  unfold World.endTask
  rw [if_pos hrun]
  split
  · exact ⟨rfl,rfl⟩
  · rename_i hstarted
    have haborted := hend.resolve_left hstarted
    rw [if_pos haborted]
    -- the sweep before the abort has left nothing to fail
    have hnone := (h.swept.empty g (h.swept.gone g (.inl haborted))).2
    refine ⟨?_,?_⟩
    · exact (List.filter_eq_self.mpr fun x hx => by simpa using hnone x hx).symm
    · have hnil : w.pending.filter (fun x => x.2 = g) = [] :=
        List.filter_eq_nil_iff.mpr fun x hx => by simpa using hnone x hx
      rw [hnil,List.map_nil,List.append_nil]
      rfl

omit [ResponseValue ν] in
theorem World.sweep_fails {k g : ℕ} (hk : w.jobs[k]? = some (g,false)) :
    w.Fails (w.sweep k) g (.Retryable "connection lost: retired") := by
  unfold World.sweep
  rw [hk]
  exact ⟨rfl,rfl⟩

structure World.Correlated (retrySafe : Bool) (w : World ν) : Prop where
  /-- A caller gets a value with its own id, from the generation on which it registered. -/
  own : ∀ a ∈ w.attempts, ∀ v, a.outcome = some (.ok v) →
    ResponseValue.id v = some a.id ∧ ∃ g, (a.id,g) ∈ w.registered ∧ (g,v) ∈ w.arrived
  /-- An id is registered once and answered once. -/
  registered : (w.registered.map Prod.fst).Nodup
  answered : (w.replies.map Prod.fst).Nodup
  /-- The end of a generation fails what is pending on it. -/
  ends : ∀ g failure, w.running g = true → (w.conn g).started = true ∨ (w.conn g).aborted = true →
    w.Fails (w.endTask g failure) g failure
  sweeps : ∀ k g, w.jobs[k]? = some (g,false) →
    w.Fails (w.sweep k) g (.Retryable "connection lost: retired")
  /-- Nothing is pending on a generation from its end on. -/
  ended : ∀ g, (w.conn g).ended = true → ∀ es : List (Event ν), ∀ x ∈ (w.run es).pending, x.2 ≠ g
  /-- The owners are counted. -/
  active : ∀ g, (w.conn g).active = w.attempts.countP fun a => a.stage.liveOn g
  dropping : ∀ a ∈ w.attempts, ∀ g completed, a.stage = .dropping g completed → 0 < (w.conn g).active
  /-- A closed connection without owners is retired, and one with owners only if a send failed. -/
  retired : ∀ g, (w.conn g).accepting = false → (w.conn g).active = 0 →
    ∃ r ∈ w.retirements, r.generation = g
  early : ∀ r ∈ w.retirements, r.active = 0 ∨ r.sendFailed = true
  /-- A logical request is sent once, or twice under two ids. -/
  attempts : ∀ c ∈ w.calls, c.ids.Nodup ∧ c.ids.length ≤ if retrySafe then 2 else 1
  wire : ∀ c ∈ w.calls, (w.wire.filter fun x => x.2 ∈ c.ids).length ≤ if retrySafe then 2 else 1
  wired : (w.wire.map Prod.snd).Nodup

theorem responses_correlated (retrySafe : Bool) (es : List (Event ν)) :
    ((World.initial retrySafe).run es).Correlated retrySafe := by
  have hs : ((World.initial retrySafe).run es).Sound (World.initial retrySafe) :=
    (World.Sound.initial retrySafe).run es
  have ho : ((World.initial retrySafe).run es).Owned := (World.Owned.initial retrySafe).run es
  have hlimit : ((World.initial retrySafe).run es).limit = if retrySafe then 2 else 1 := by
    rw [World.limit,hs.swept.safe]
    rfl
  generalize (World.initial retrySafe).run es = w at hs ho hlimit
  refine ⟨fun a ha v hv => hs.answers.right _ v (hs.answers.outcome a ha v hv),hs.answers.logged,
    hs.answers.answered,fun g failure hrun hend => hs.endTask_fails hrun hend failure,
    fun k g hk => World.sweep_fails hk,fun g hg es' => ?_,ho.active,fun a ha g completed hst => ?_,
    fun g hacc hact => ho.closed g hacc hact,fun r hr => (ho.reason r hr).symm,
    fun c hc => ?_,fun c hc => ?_,hs.sent.wired⟩
  · have hnow := (hs.restart.run es').swept
    exact (hnow.empty g (hnow.kept g (hs.swept.gone g (.inr hg)))).2
  · rw [ho.active]
    exact List.countP_pos_iff.mpr ⟨a,ha,by simp [hst,Stage.liveOn]⟩
  · obtain ⟨hn,hl,-⟩ := hs.sent.calls c hc
    exact ⟨hn,hlimit ▸ hl⟩
  · obtain ⟨hn,hl,-⟩ := hs.sent.calls c hc
    -- the ids on the wire differ, so there are no more frames than ids
    have hsub : ((w.wire.filter fun x => x.2 ∈ c.ids).map Prod.snd) ⊆ c.ids := by
      intro id hid
      obtain ⟨x,hx,rfl⟩ := List.mem_map.mp hid
      simpa using (List.mem_filter.mp hx).2
    have hnd : ((w.wire.filter fun x => x.2 ∈ c.ids).map Prod.snd).Nodup :=
      hs.sent.wired.sublist (List.filter_sublist.map _)
    calc (w.wire.filter fun x => x.2 ∈ c.ids).length
        = ((w.wire.filter fun x => x.2 ∈ c.ids).map Prod.snd).length := List.length_map _ |>.symm
      _ ≤ c.ids.length := (List.subperm_of_subset hnd hsub).length_le
      _ ≤ _ := hlimit ▸ hl

end Correlation

section Sample

local instance sampleResponse : ResponseValue ℕ := ⟨some,fun _ => none,fun _ => true⟩

/-- Two requests on one connection: the first is dropped, then the peer closes. -/
def sampleClosed : World ℕ :=
  (World.initial false).run [.call,.call,.attempt 0 (.ok ()),.attempt 1 (.ok ()),.lock 0,
    .connect 0 (.ok ()),.register 0,.start 1,.send 0,.lock 1,.connect 1 (.ok ()),.register 1,.cancel 0,
    .finish 0,.frame 1 .close]

/-- A connection that stopped accepting is retired by its owner's failed send. -/
theorem retired_by_owner : (sampleClosed.conn 1).accepting = false ∧ (sampleClosed.conn 1).active = 1 ∧
    sampleClosed.retirements = [] ∧ ((sampleClosed.step (.send 1)).conn 1).active = 1 ∧
    (sampleClosed.step (.send 1)).retirements = [⟨1,1,true⟩] := by
  decide +kernel

end Sample

end WebSocket
end Maki
