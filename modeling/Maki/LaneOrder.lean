import Mathlib
import Maki.LaneRun

/-! Batch lanes never mix callers. What leaves the lane and what is still in it is, in this order, a
selection of what was submitted, so groups go out whole and in order; and a group that is sent
again was part of one failed call that its provider allows to repeat. -/
namespace Maki
namespace Scheduler

section Deliver

variable {ι ο : Type}

/-- A delivered result is the slice at the positions of one group. -/
theorem splitOut_slice {out : List ο} {gs : List (Group ι)} {i : ℕ} {v : Verdict ο}
    (h : (i,v) ∈ splitOut out ((gs.map fun g => g.items.length).zip (gs.map Group.reply))) :
    ∃ before g after, gs = before ++ g::after ∧ g.reply = i ∧
      v = .ok ((out.drop (itemsOf before)).take g.items.length) := by
  induction gs generalizing out with
  | nil => cases h
  | cons g rest ih =>
    simp only [List.map_cons,List.zip_cons_cons,splitOut,List.mem_cons,Prod.mk.injEq] at h
    rcases h with ⟨rfl,rfl⟩ | h
    · exact ⟨[],g,rest,rfl,rfl,rfl⟩
    · obtain ⟨before,g',after,rfl,hi,hv⟩ := ih h
      refine ⟨g::before,g',after,rfl,hi,?_⟩
      rw [hv,List.drop_drop]
      simp [itemsOf]

theorem deliver_ok (gs : List (Group ι)) {result : Verdict ο} {items i : ℕ} {part : List ο}
    (h : (i,.ok part) ∈ deliver result items (gs.map fun g => g.items.length) (gs.map Group.reply)) :
    ∃ out before g after, result = .ok out ∧ out.length = items ∧ gs = before ++ g::after ∧
      g.reply = i ∧ part = (out.drop (itemsOf before)).take g.items.length := by
  unfold deliver at h
  cases result with
  | error e => simp at h
  | ok out =>
    simp only at h
    split at h
    · rename_i hlen
      obtain ⟨before,g,after,hgs,hi,hv⟩ := splitOut_slice h
      exact ⟨out,before,g,after,rfl,hlen,hgs,hi,Except.ok.inj hv⟩
    · simp at h

theorem split_eq (gs : List (Group ι)) :
    Task.split (gs.flatMap Group.items) ((gs.map fun g => g.items.length).zip (gs.map Group.reply)) =
      gs.map fun g => ⟨g.items,g.reply⟩ := by
  induction gs with
  | nil => rfl
  | cons g rest ih =>
    simp only [List.flatMap_cons,List.map_cons,List.zip_cons_cons,Task.split,List.take_left,
      List.drop_left,ih]

end Deliver

section Retries

variable {ι : Type} {closed : ℕ → Bool} {r : Retries ι} {P : RetryGroup ι → Prop}
  {Q : RetryGroup ι → ℕ → Prop}

def Retries.replies (r : Retries ι) (ps : List (RetryGroup ι)) : List ℕ :=
  ps.map RetryGroup.reply ++ r.active.map fun x => x.group.reply

/-- All groups of the retries are different; `P` holds for those not sent, `Q` for those that are. -/
structure Retries.Holds (P : RetryGroup ι → Prop) (Q : RetryGroup ι → ℕ → Prop) (r : Retries ι)
    (ps : List (RetryGroup ι)) : Prop where
  pending : ∀ p ∈ ps, P p
  idle : ∀ x ∈ r.active, x.call = none → P x.group
  sent : ∀ x ∈ r.active, ∀ c, x.call = some c → Q x.group c
  nodup : (r.replies ps).Nodup

variable {r' : Retries ι} {x : Retry ι} {ps : List (RetryGroup ι)}

theorem Retries.Holds.start {g : RetryGroup ι} {rest : List (RetryGroup ι)} (h : r.Holds P Q (g::rest))
    (hx : x.group = g) (hcall : x.call = none)
    (hr : r'.active = r.active ++ [x]) : r'.Holds P Q rest where
  pending p hp := h.pending p (List.mem_cons_of_mem _ hp)
  idle := by
    rw [hr]
    exact forall_mem_concat h.idle fun _ => hx ▸ h.pending g List.mem_cons_self
  sent := by
    rw [hr]
    exact forall_mem_concat h.sent fun c hc => by cases hcall.symm.trans hc
  nodup := by
    have hn := h.nodup
    simp only [Retries.replies,List.map_cons,List.cons_append] at hn
    simp only [Retries.replies,hr,List.map_append,List.map_cons,List.map_nil,hx,← List.append_assoc]
    exact (List.perm_append_singleton _ _).nodup_iff.mpr hn

theorem Retries.Holds.sublist {qs : List (RetryGroup ι)} (h : r.Holds P Q ps) (hs : qs.Sublist ps) :
    r.Holds P Q qs where
  pending p hp := h.pending p (hs.subset hp)
  idle := h.idle
  sent := h.sent
  nodup := h.nodup.sublist ((hs.map _).append (List.Sublist.refl _))

theorem Retries.Holds.active (h : r.Holds P Q ps)
    (hr : r'.active = r.active) : r'.Holds P Q ps where
  pending := h.pending
  idle := hr ▸ h.idle
  sent := hr ▸ h.sent
  nodup := by
    have hn := h.nodup
    unfold Retries.replies at hn ⊢
    rwa [hr]

theorem Retries.Holds.fill (h : r.Holds P Q ps) (n : ℕ) :
    (r.fill ps n).1.Holds P Q (r.fill ps n).1.pending := by
  induction ps generalizing r n with
  | nil => exact h.active rfl
  | cons g rest ih =>
    unfold Retries.fill
    split
    · exact ih (h.start rfl rfl rfl) n
    · split
      · exact h.active rfl
      · exact ih (h.start rfl rfl rfl) _

theorem Retries.Holds.loopHead (h : r.Holds P Q r.pending) (n : ℕ) :
    (r.loopHead closed n).1.Holds P Q (r.loopHead closed n).1.pending := by
  have hlive := (h.sublist (List.filter_sublist (p := fun g => !closed g.reply))).fill n
  unfold Retries.loopHead
  generalize r.fill (r.pending.filter fun g => !closed g.reply) n = filled at hlive
  obtain ⟨r',n'⟩ := filled
  simp only at hlive ⊢
  unfold Retries.dropSlot
  split
  · exact hlive.active rfl
  · exact hlive

theorem Retries.Holds.remove (h : r.Holds P Q ps) {i : ℕ}
    (hx : r.active[i]? = some x) (hr : r'.active = swapRemove r.active i) :
    r'.Holds P Q ps := by
  have hperm := swapRemove_perm hx
  have hsub : ∀ y ∈ r'.active, y ∈ r.active := by
    rw [hr]
    exact fun y hy => hperm.subset (List.mem_cons_of_mem _ hy)
  refine ⟨h.pending,fun y hy => h.idle y (hsub y hy),fun y hy => h.sent y (hsub y hy),?_⟩
  have hn := ((hperm.map fun x : Retry ι => x.group.reply).append_left
    (ps.map RetryGroup.reply)).nodup_iff.mpr h.nodup
  refine hn.sublist ?_
  rw [Retries.replies,hr]
  exact (List.sublist_cons_self _ _).append_left _

theorem Retries.Holds.imp {P' : RetryGroup ι → Prop} {Q' : RetryGroup ι → ℕ → Prop}
    (h : r.Holds P Q ps) (hP : ∀ p, P p → P' p) (hQ : ∀ p c, Q p c → Q' p c) :
    r.Holds P' Q' ps :=
  ⟨fun p hp => hP p (h.pending p hp),fun x hx hc => hP _ (h.idle x hx hc),
    fun x hx c hc => hQ _ c (h.sent x hx c hc),h.nodup⟩

/-- A retry is polled for the first time and sends its group. -/
theorem Retries.Holds.poll {P' : RetryGroup ι → Prop} {Q' : RetryGroup ι → ℕ → Prop}
    (h : r.Holds P Q ps) {i next : ℕ}
    (hx : r.active[i]? = some x) (hnew : Q' x.group next)
    (hP : ∀ p, P p → p.reply ≠ x.group.reply → P' p) (hQ : ∀ p c, Q p c → Q' p c)
    (hr : r'.active = r.active.set i { x with call := some next }) :
    r'.Holds P' Q' ps := by
  obtain ⟨hi,hget⟩ := List.getElem?_eq_some_iff.mp hx
  have hreplies : r'.active.map (fun y => y.group.reply) = r.active.map fun y => y.group.reply := by
    rw [hr,List.map_set]
    refine List.ext_getElem? fun j => ?_
    rw [List.getElem?_set]
    split
    · rename_i hij
      subst hij
      simp [hi,hget]
    · rfl
  have hne : ∀ p ∈ ps, p.reply ≠ x.group.reply := by
    intro p hp heq
    have hd := (List.nodup_append.mp h.nodup).2.2
    exact hd _ (List.mem_map_of_mem hp) _ (List.mem_map_of_mem (List.mem_of_getElem? hx)) heq
  have hactive : ∀ y ∈ r'.active, y = { x with call := some next } ∨
      y ∈ r.active ∧ (y.call = none → y.group.reply ≠ x.group.reply) := by
    intro y hy
    rw [hr] at hy
    obtain ⟨j,hj⟩ := List.mem_iff_getElem?.mp hy
    by_cases hij : i = j
    · subst hij
      rw [List.getElem?_set_self hi] at hj
      exact .inl (Option.some.inj hj).symm
    · rw [List.getElem?_set_ne hij] at hj
      refine .inr ⟨List.mem_of_getElem? hj,fun _ heq => hij ?_⟩
      refine (List.getElem?_inj (by simpa using hi) (List.nodup_append.mp h.nodup).2.1).mp ?_
      rw [List.getElem?_map,List.getElem?_map,hx,hj,Option.map_some,Option.map_some,heq]
  refine ⟨fun p hp => hP p (h.pending p hp) (hne p hp),?_,?_,?_⟩
  · intro y hy hc
    rcases hactive y hy with rfl | ⟨hy,hne⟩
    · cases hc
    · exact hP _ (h.idle y hy hc) (hne hc)
  · intro y hy c hc
    rcases hactive y hy with rfl | ⟨hy,-⟩
    · cases hc
      exact hnew
    · exact hQ _ c (h.sent y hy c hc)
  · have hn := h.nodup
    unfold Retries.replies at hn ⊢
    rwa [hreplies]

end Retries

section Tasks

variable {ι ο : Type} [UnitIndexed ι] {config : SchedulerConfig} {closed : ℕ → Bool} {t : Task ι}
  {gs : List (Group ι)}

/-- What was submitted, and the history of the provider calls. -/
structure Log (ι ο : Type) where
  submitted : List (Group ι)
  calls : List (Call ι)
  results : List (ℕ × Verdict ο)
  asked : List (ℕ × Except CryptoError Bool)

structure Log.Extends (l l' : Log ι ο) (new : List (Call ι)) : Prop where
  submitted : l.submitted <+: l'.submitted
  calls : l'.calls = l.calls ++ new
  results : l.results ⊆ l'.results
  asked : l.asked ⊆ l'.asked

structure Task.Carries (config : SchedulerConfig) (submitted : List (Group ι)) (t : Task ι)
    (gs : List (Group ι)) : Prop where
  sub : gs.Sublist submitted
  fit : Fit config gs
  context : ∀ g ∈ gs, g.context = t.context
  replies : t.replies = gs.map Group.reply
  lengths : t.lengths = gs.map fun g => g.items.length
  allItems : t.allItems = gs.flatMap Group.items
  items : t.items = itemsOf gs

omit [UnitIndexed ι]

def Group.retry (g : Group ι) : RetryGroup ι := ⟨g.items,g.reply⟩

/-- No call but `c` has carried the group of caller `i`. -/
def Log.Only (l : Log ι ο) (c i : ℕ) : Prop := ∀ c' k, l.calls[c']? = some k → i ∈ k.replies → c' = c

/-- The batch failed as a whole for what one of its requests may be the reason for. -/
structure Log.Failed (l : Log ι ο) (replies : List ℕ) (c : ℕ) (e : CryptoError) : Prop where
  result : (c,.error e) ∈ l.results
  errorClass : e.errorClass = .NonRetryableRequest
  coalesced : 1 < replies.length

/-- What the state of a task says about the calls made so far. -/
def Log.Fits (l : Log ι ο) (t : Task ι) (gs : List (Group ι)) : TaskState ι → Prop
  | .spawned => ∀ i ∈ t.replies, ∀ k ∈ l.calls, i ∉ k.replies
  | .calling c => l.calls[c]? = some ⟨t.context,t.allItems,t.replies⟩ ∧ ∀ i ∈ t.replies, l.Only c i
  | .asking c e => l.calls[c]? = some ⟨t.context,t.allItems,t.replies⟩ ∧
      (∀ i ∈ t.replies, l.Only c i) ∧ l.Failed t.replies c e
  | .retrying c r => l.calls[c]? = some ⟨t.context,t.allItems,t.replies⟩ ∧
      (∃ e, l.Failed t.replies c e) ∧ (c,.ok true) ∈ l.asked ∧
      r.Holds (fun p => p ∈ gs.map Group.retry ∧ l.Only c p.reply)
        (fun p c' => p ∈ gs.map Group.retry ∧ l.calls[c']? = some ⟨t.context,p.items,[p.reply]⟩) r.pending
  | .done => True

variable {l l' : Log ι ο} {new : List (Call ι)}

variable {c i n : ℕ} {r : Retries ι}

theorem Log.Extends.call (h : l.Extends l' new) {k : Call ι} (hc : l.calls[c]? = some k) :
    l'.calls[c]? = some k := by
  rw [h.calls,List.getElem?_append_left (List.getElem?_eq_some_iff.mp hc).1]
  exact hc

theorem Log.Only.extend (h : l.Extends l' new) (hi : l.Only c i) (hnew : ∀ k ∈ new, i ∉ k.replies) :
    l'.Only c i := by
  intro c' k hc' hk
  rw [h.calls] at hc'
  rcases Nat.lt_or_ge c' l.calls.length with hlt | hge
  · rw [List.getElem?_append_left hlt] at hc'
    exact hi c' k hc' hk
  · rw [List.getElem?_append_right hge] at hc'
    exact absurd hk (hnew k (List.mem_of_getElem? hc'))

theorem Log.Failed.extend (h : l.Extends l' new) {e : CryptoError} {replies : List ℕ}
    (hf : l.Failed replies c e) : l'.Failed replies c e := ⟨h.results hf.result,hf.errorClass,hf.coalesced⟩

/-- Calls of other callers do not matter to a task. -/
theorem Log.Fits.extend (h : l.Extends l' new) {s : TaskState ι} (hreplies : t.replies = gs.map Group.reply)
    (hnew : ∀ k ∈ new, ∀ i ∈ t.replies, i ∉ k.replies) (hs : l.Fits t gs s) : l'.Fits t gs s := by
  cases s with
  | spawned =>
    intro i hi
    rw [h.calls]
    exact List.forall_mem_append.mpr ⟨hs i hi,fun k hk => hnew k hk i hi⟩
  | calling c => exact ⟨h.call hs.1,fun i hi => (hs.2 i hi).extend h fun k hk => hnew k hk i hi⟩
  | asking c e =>
    exact ⟨h.call hs.1,fun i hi => (hs.2.1 i hi).extend h fun k hk => hnew k hk i hi,hs.2.2.extend h⟩
  | retrying c r =>
    obtain ⟨hc,⟨e,he⟩,hcons,hr⟩ := hs
    refine ⟨h.call hc,⟨e,he.extend h⟩,h.asked hcons,hr.imp ?_ ?_⟩
    · rintro p ⟨hp,honly⟩
      refine ⟨hp,honly.extend h fun k hk => hnew k hk _ ?_⟩
      obtain ⟨g,hg,rfl⟩ := List.mem_map.mp hp
      rw [hreplies]
      exact List.mem_map_of_mem hg
    · exact fun p c' hp => ⟨hp.1,h.call hp.2⟩
  | done => trivial

/-- An answer is the slice of one provider result at the positions of the caller's group. -/
def Log.Slice (l : Log ι ο) (i : ℕ) (part : List ο) : Prop :=
  ∃ c before g after out, (before ++ g::after).Sublist l.submitted ∧ g.reply = i ∧
    l.calls[c]? = some ⟨g.context,(before ++ g::after).flatMap Group.items,
      (before ++ g::after).map Group.reply⟩ ∧
    (c,.ok out) ∈ l.results ∧ out.length = itemsOf (before ++ g::after) ∧
    part = (out.drop (itemsOf before)).take g.items.length

theorem Log.Slice.extend (h : l.Extends l' new) {part : List ο} (hs : l.Slice i part) :
    l'.Slice i part := by
  obtain ⟨c,before,g,after,out,hsub,hi,hc,hout,hlen,hpart⟩ := hs
  exact ⟨c,before,g,after,out,hsub.trans h.submitted.sublist,hi,h.call hc,h.results hout,hlen,hpart⟩

def Log.after (l : Log ι ο) (s : TaskStep ι ο) : Log ι ο :=
  ⟨l.submitted,l.calls ++ s.calls,l.results ++ s.results,l.asked ++ s.asked⟩

theorem Log.extends_after (l : Log ι ο) (s : TaskStep ι ο) : l.Extends (l.after s) s.calls :=
  ⟨List.prefix_refl _,rfl,List.subset_append_left _ _,List.subset_append_left _ _⟩

/-- A group may be sent: for the first time, or alone after its batch has failed and the provider
may be asked again. -/
def Log.Sendable (l : Log ι ο) (k : Call ι) (i : ℕ) : Prop :=
  (∀ k' ∈ l.calls, i ∉ k'.replies) ∨
    ∃ c k' e, l.calls[c]? = some k' ∧ 1 < k'.replies.length ∧ (c,.error e) ∈ l.results ∧
      e.errorClass = .NonRetryableRequest ∧ (c,.ok true) ∈ l.asked ∧ l.Only c i ∧ k.replies = [i]

variable [UnitIndexed ι]

structure TaskStep.Fits (config : SchedulerConfig) (l : Log ι ο) (gs : List (Group ι)) (s : TaskStep ι ο) :
    Prop where
  carries : s.task.Carries config l.submitted gs
  state : (l.after s).Fits s.task gs s.task.state
  single : s.calls.length ≤ 1
  calls : ∀ k ∈ s.calls, (∃ hs, hs.Sublist gs ∧ hs ≠ [] ∧
    k = ⟨s.task.context,hs.flatMap Group.items,hs.map Group.reply⟩) ∧ ∀ i ∈ k.replies, l.Sendable k i
  answers : ∀ i part, (i,.ok part) ∈ s.answers → (l.after s).Slice i part

/-- A move that makes no call and sends no answer. -/
theorem TaskStep.Fits.quiet {s : TaskStep ι ο} (hcarries : s.task.Carries config l.submitted gs)
    (hstate : (l.after s).Fits s.task gs s.task.state) (hcalls : s.calls = []) (hanswers : s.answers = []) :
    s.Fits config l gs :=
  ⟨hcarries,hstate,by simp [hcalls],by simp [hcalls],by simp [hanswers]⟩

theorem TaskStep.Fits.stay (ht : t.Carries config l.submitted gs) (hs : l.Fits t gs t.state) :
    TaskStep.Fits config l gs ({ task := t, permits := n } : TaskStep ι ο) :=
  .quiet ht (hs.extend (l.extends_after _) ht.replies (by simp)) rfl rfl

omit [UnitIndexed ι] in
theorem Task.resume_fits (h : l.Fits t gs (.retrying c r)) :
    l.Fits (t.resume closed c r n).1 gs (t.resume closed c r n).1.state := by
  obtain ⟨hc,he,hcons,hr⟩ := h
  unfold Task.resume
  simp only
  split
  · trivial
  · exact ⟨hc,he,hcons,hr.loopHead n⟩

theorem Task.resume_carries {submitted : List (Group ι)}
    (h : t.Carries config submitted gs) : (t.resume closed c r n).1.Carries config submitted gs := by
  unfold Task.resume
  simp only
  split
  · exact ⟨h.sub,h.fit,h.context,h.replies,h.lengths,h.allItems,h.items⟩
  · exact ⟨h.sub,h.fit,h.context,h.replies,h.lengths,h.allItems,h.items⟩

theorem Task.finish_carries {submitted : List (Group ι)} (h : t.Carries config submitted gs) :
    t.finish.Carries config submitted gs :=
  ⟨h.sub,h.fit,h.context,h.replies,h.lengths,h.allItems,h.items⟩

omit [UnitIndexed ι] in
theorem Task.complete_fits {x : Retry ι} (h : l.Fits t gs (.retrying c r))
    (hx : r.active[i]? = some x) :
    l.Fits (t.complete closed c r n i x).1 gs (t.complete closed c r n i x).1.state := by
  obtain ⟨hc,he,hcons,hr⟩ := h
  exact Task.resume_fits ⟨hc,he,hcons,hr.remove hx rfl⟩

variable (ht : t.Carries config l.submitted gs)

include ht

/-- The batch was answered: its callers get their slices. -/
theorem TaskStep.Fits.delivered {result : Verdict ο}
    (hc : l.calls[c]? = some ⟨t.context,t.allItems,t.replies⟩) {results : List (ℕ × Verdict ο)}
    {asked : List (ℕ × Except CryptoError Bool)} (hresult : (c,result) ∈ l.results ++ results) :
    TaskStep.Fits config l gs
      { task := t.finish, permits := n, results, asked
        answers := deliver result t.items t.lengths t.replies } := by
  refine ⟨Task.finish_carries ht,trivial,by simp,by simp,fun i part hpart => ?_⟩
  rw [ht.lengths,ht.replies] at hpart
  obtain ⟨out,before,g,after,rfl,hlen,hgs,hi,hp⟩ := deliver_ok _ hpart
  refine ⟨c,before,g,after,out,hgs ▸ ht.sub,hi,?_,hresult,?_,hp⟩
  · have hcontext := ht.context g (by rw [hgs]; simp)
    rw [← hgs,hcontext,← ht.allItems,← ht.replies]
    exact (l.extends_after _).call hc
  · rw [hlen,ht.items,hgs]

theorem Task.stepCalling_fits (hs : l.Fits t gs (.calling c)) (result : Verdict ο) :
    (t.stepCalling c n result).Fits config l gs := by
  obtain ⟨hc,honly⟩ := hs
  unfold Task.stepCalling
  split
  · rename_i e
    split
    · rename_i hclass
      refine .quiet ⟨ht.sub,ht.fit,ht.context,ht.replies,ht.lengths,ht.allItems,ht.items⟩ ?_ rfl rfl
      exact ⟨(l.extends_after _).call hc,
        fun i hi => (honly i hi).extend (l.extends_after _) (by simp),
        ⟨List.mem_append_right _ (List.mem_singleton_self _),hclass.2,hclass.1⟩⟩
    · exact .delivered ht hc (List.mem_append_right _ (List.mem_singleton_self _))
  · exact .delivered ht hc (List.mem_append_right _ (List.mem_singleton_self _))

theorem Task.stepAsking_fits {e : CryptoError} (hnodup : t.replies.Nodup) (hs : l.Fits t gs (.asking c e))
    (retrySafe : Except CryptoError Bool) :
    TaskStep.Fits config l gs
      { t.stepAsking closed c e n retrySafe with asked := [(c,retrySafe)] } := by
  obtain ⟨hc,honly,hfailed⟩ := hs
  unfold Task.stepAsking
  split
  · refine .quiet (Task.resume_carries ht) ?_ rfl rfl
    refine Task.resume_fits ⟨(l.extends_after _).call hc,⟨e,hfailed.extend (l.extends_after _)⟩,
      List.mem_append_right _ (List.mem_singleton_self _),?_⟩
    rw [ht.allItems,ht.lengths,ht.replies,split_eq]
    have hmap : gs.map (fun g => (⟨g.items,g.reply⟩ : RetryGroup ι)) = gs.map Group.retry := rfl
    rw [hmap]
    refine ⟨fun p hp => ⟨hp,?_⟩,fun x hx => (by cases hx),fun x hx => (by cases hx),?_⟩
    · obtain ⟨g,hg,rfl⟩ := List.mem_map.mp hp
      refine (honly g.reply ?_).extend (l.extends_after _) (by simp)
      rw [ht.replies]
      exact List.mem_map_of_mem hg
    · have hreplies : (gs.map Group.retry).map RetryGroup.reply = t.replies := by
        rw [ht.replies,List.map_map]
        rfl
      simpa only [Retries.replies,hreplies,List.map_nil,List.append_nil] using hnodup
  · exact .delivered ht hc (List.mem_append_left _ hfailed.result)

theorem Task.stepRetry_fits {x : Retry ι} (hstate : t.state = .retrying c r)
    (hs : l.Fits t gs (.retrying c r)) (hx : r.active[i]? = some x)
    (m : TaskMove ο) : (t.stepRetry closed c r n l.calls.length i x m).Fits config l gs := by
  have hmem := List.mem_of_getElem? hx
  have hstay : TaskStep.Fits config l gs ({ task := t, permits := n } : TaskStep ι ο) :=
    .stay ht (hstate ▸ hs)
  have hdone : ∀ s : TaskStep ι ο, s.calls = [] → (l.after s).Fits (t.complete closed c r n i x).1 gs
      (t.complete closed c r n i x).1.state := fun s hcalls =>
    Task.complete_fits (hs.extend (l.extends_after s) ht.replies (by simp [hcalls])) hx
  obtain ⟨hc,⟨e,he⟩,hcons,hr⟩ := hs
  unfold Task.stepRetry
  split
  · split
    · exact hstay
    · rename_i hcall
      have hnone : x.call = none := by simpa using hcall
      split
      · exact .quiet (Task.resume_carries ht) (hdone _ rfl) rfl rfl
      · -- the group is sent for the second time, alone
        obtain ⟨hgroup,honly⟩ := hr.idle x hmem hnone
        obtain ⟨g,hg,hgx⟩ := List.mem_map.mp hgroup
        refine ⟨⟨ht.sub,ht.fit,ht.context,ht.replies,ht.lengths,ht.allItems,ht.items⟩,?_,by simp,?_,by simp⟩
        · refine ⟨(l.extends_after _).call hc,⟨e,he.extend (l.extends_after _)⟩,
            (l.extends_after _).asked hcons,?_⟩
          refine hr.poll hx ⟨hgroup,?_⟩ ?_ (fun p c' hp => ⟨hp.1,(l.extends_after _).call hp.2⟩) rfl
          · exact List.getElem?_concat_length
          · rintro p ⟨hp,hponly⟩ hne
            exact ⟨hp,hponly.extend (l.extends_after _) (by simpa using hne)⟩
        · intro k hk
          obtain rfl := List.mem_singleton.mp hk
          refine ⟨⟨[g],List.singleton_sublist.mpr hg,List.cons_ne_nil _ _,?_⟩,?_⟩
          · rw [← hgx]
            simp [Group.retry]
          · intro j hj
            obtain rfl := List.mem_singleton.mp hj
            exact .inr ⟨c,_,e,hc,he.coalesced,he.result,he.errorClass,hcons,honly,rfl⟩
  · split
    · exact hstay
    · rename_i result c' hcall
      obtain ⟨hgroup,hsent⟩ := hr.sent x hmem c' hcall
      obtain ⟨g,hg,hgx⟩ := List.mem_map.mp hgroup
      refine ⟨Task.resume_carries ht,hdone _ rfl,by simp,by simp,fun j part hpart => ?_⟩
      rw [← hgx] at hpart hsent
      obtain ⟨out,before,g',after,rfl,hlen,hgs,hj,hp⟩ := deliver_ok [g] hpart
      have hcontext := ht.context g hg
      refine ⟨c',[],g,[],out,(List.singleton_sublist.mpr hg).trans ht.sub,?_,?_,
        List.mem_append_right _ (List.mem_singleton_self _),?_,?_⟩
      all_goals
        obtain ⟨rfl,rfl,rfl⟩ : before = [] ∧ g' = g ∧ after = [] := by
          cases before with
          | nil => simpa [eq_comm] using hgs
          | cons y ys => simp at hgs
      · exact hj
      · rw [hcontext]
        refine (l.extends_after _).call ?_
        simpa [Group.retry] using hsent
      · simpa [itemsOf,Group.retry] using hlen
      · exact hp
  · split
    · exact .quiet (Task.resume_carries ht) (hdone _ rfl) rfl rfl
    · exact hstay
  · exact hstay

theorem Task.stepRetrying_fits (hstate : t.state = .retrying c r) (hs : l.Fits t gs (.retrying c r))
    (m : TaskMove ο) :
    (t.stepRetrying closed c r n l.calls.length m).Fits config l gs := by
  have hstay : TaskStep.Fits config l gs ({ task := t, permits := n } : TaskStep ι ο) :=
    .stay ht (hstate ▸ hs)
  have hquiet : ∀ s : TaskStep ι ο, s.calls = [] → (l.after s).Fits t gs (.retrying c r) := fun s hcalls =>
    hs.extend (l.extends_after s) ht.replies (by simp [hcalls])
  unfold Task.stepRetrying
  split
  · split
    · exact .quiet (Task.resume_carries ht) (Task.resume_fits (hquiet _ rfl)) rfl rfl
    · exact hstay
  · split
    · rename_i g rest n hp
      refine .quiet (Task.resume_carries ht) (Task.resume_fits ?_) rfl rfl
      obtain ⟨hc,he,hcons,hr⟩ := hquiet { task := t, permits := n } rfl
      rw [hp] at hr
      exact ⟨hc,he,hcons,hr.start rfl rfl rfl⟩
    · exact hstay
  iterate 3
    · split
      · rename_i x hx
        exact Task.stepRetry_fits ht hstate hs hx _
      · exact hstay
  · exact hstay

theorem Task.step_fits (hne : gs ≠ [])
    (hnodup : t.replies.Nodup) (hs : l.Fits t gs t.state) (m : TaskMove ο) :
    (t.step closed n l.calls.length m).Fits config l gs := by
  have hcarries : ∀ s f, Task.Carries config l.submitted { t with state := s, freed := f } gs := fun _ _ =>
    ⟨ht.sub,ht.fit,ht.context,ht.replies,ht.lengths,ht.allItems,ht.items⟩
  unfold Task.step
  split
  · exact .quiet (hcarries _ _) trivial rfl rfl
  · rename_i hstate
    rw [hstate] at hs
    split
    · exact .quiet (hcarries _ _) trivial rfl rfl
    · -- the first send
      refine ⟨hcarries _ _,⟨List.getElem?_concat_length,?_⟩,by simp,?_,by simp⟩
      · intro i hi c' k hc' hk
        have hc'' : (l.calls ++ [(⟨t.context,t.allItems,t.replies⟩ : Call ι)])[c']? = some k := hc'
        rcases Nat.lt_or_ge c' l.calls.length with hlt | hge
        · rw [List.getElem?_append_left hlt] at hc''
          exact absurd hk (hs i hi k (List.mem_of_getElem? hc''))
        · have hlt := (List.getElem?_eq_some_iff.mp hc'').1
          simp only [List.length_append,List.length_singleton] at hlt
          omega
      · intro k hk
        obtain rfl := List.mem_singleton.mp hk
        refine ⟨⟨gs,List.Sublist.refl _,hne,?_⟩,fun i hi => .inl (hs i hi)⟩
        rw [← ht.allItems,← ht.replies]
  · rename_i hstate
    rw [hstate] at hs
    exact Task.stepCalling_fits ht hs _
  · rename_i hstate
    split
    · exact .quiet (hcarries _ _) trivial rfl rfl
    · exact .stay ht hs
  · rename_i hstate
    rw [hstate] at hs
    exact Task.stepAsking_fits ht hnodup hs _
  · rename_i c r _ hstate
    exact Task.stepRetrying_fits ht hstate (hstate ▸ hs) _
  · exact .stay ht hs

end Tasks

section Worlds

variable {ι ο : Type} {L : Lane} {w w' : World ι ο} {e : Event ι ο}

def World.log (w : World ι ο) : Log ι ο := ⟨w.submitted,w.calls,w.results,w.asked⟩

def World.dispatched (w : World ι ο) : List ℕ := w.tasks.flatMap Task.replies

variable [UnitIndexed ι]

/-- What holds between the groups, the tasks and the calls of a lane. -/
structure World.Ordered (L : Lane) (w : World ι ο) : Prop where
  ids : ∀ (i : ℕ) (g : Group ι), w.submitted[i]? = some g → g.reply = i
  order : ∃ sent, sent.map Group.reply = w.dispatched ∧ (sent ++ w.lane.all).Sublist w.submitted
  kept : ∀ i, i < w.submitted.length → i ∈ w.dispatched ∨ i ∈ w.lane.all.map Group.reply ∨ i ∈ w.closed ∨
    w.lane.phase = .stopped ∧ ∀ j ∈ w.dispatched, j < i
  tasks : ∀ t ∈ w.tasks, ∃ gs, gs ≠ [] ∧ t.Carries L.config w.submitted gs ∧ w.log.Fits t gs t.state
  calls : ∀ k ∈ w.calls, ∃ gs, gs.Sublist w.submitted ∧ gs ≠ [] ∧ Fit L.config gs ∧
    k = ⟨k.context,gs.flatMap Group.items,gs.map Group.reply⟩ ∧ ∀ g ∈ gs, g.context = k.context
  sent : ∀ k ∈ w.calls, ∀ i ∈ k.replies, i ∈ w.dispatched
  again : ∀ (c c' : ℕ) (k k' : Call ι) (i : ℕ), c < c' → w.calls[c]? = some k → w.calls[c']? = some k' →
    i ∈ k.replies → i ∈ k'.replies → 1 < k.replies.length ∧ (c,.ok true) ∈ w.asked ∧ k'.replies = [i] ∧
      ∃ e, (c,.error e) ∈ w.results ∧ e.errorClass = .NonRetryableRequest
  answers : ∀ i part, (i,.ok part) ∈ w.answers → w.log.Slice i part

namespace World.Ordered

theorem initial (L : Lane) : (World.initial L : World ι ο).Ordered L where
  ids i g h := by simp [World.initial] at h
  order := ⟨[],rfl,List.Sublist.refl _⟩
  kept i h := by cases h
  tasks t ht := by cases ht
  calls k hk := by cases hk
  sent k hk := by cases hk
  again c c' k k' i _ h := by simp [World.initial] at h
  answers i part h := by cases h

variable (h : w.Ordered L)

include h

theorem submitted_pairwise : (w.submitted.map Group.reply).Pairwise (· < ·) := by
  rw [List.pairwise_iff_getElem]
  intro i j hi hj hij
  rw [List.length_map] at hi hj
  rw [List.getElem_map,List.getElem_map,h.ids i _ (List.getElem?_eq_getElem hi),
    h.ids j _ (List.getElem?_eq_getElem hj)]
  exact hij

theorem pairwise : (w.dispatched ++ w.lane.all.map Group.reply).Pairwise (· < ·) := by
  obtain ⟨sent,hsent,hsub⟩ := h.order
  rw [← hsent,← List.map_append]
  exact h.submitted_pairwise.sublist (hsub.map _)

theorem dispatched_nodup : w.dispatched.Nodup :=
  (List.pairwise_append.mp h.pairwise).1.imp Nat.ne_of_lt

/-- Groups go out in the order of submission, and none is passed over but for a caller who left. -/
theorem fifo {i j : ℕ} (hj : j ∈ w.dispatched) (hij : i < j) :
    i ∈ w.dispatched ∨ i ∈ w.closed := by
  obtain ⟨sent,hsent,hsub⟩ := h.order
  have hlt : j < w.submitted.length := by
    rw [← hsent] at hj
    obtain ⟨g,hg,rfl⟩ := List.mem_map.mp hj
    obtain ⟨n,hn⟩ := List.mem_iff_getElem?.mp (hsub.subset (List.mem_append_left _ hg))
    rw [h.ids n g hn]
    exact (List.getElem?_eq_some_iff.mp hn).1
  rcases h.kept i (hij.trans hlt) with hi | hi | hi | ⟨-,hi⟩
  · exact .inl hi
  · exact absurd ((List.pairwise_append.mp h.pairwise).2.2 j hj i hi) (by omega)
  · exact .inr hi
  · exact absurd (hi j hj) (by omega)

theorem frame (hsub : w'.submitted = w.submitted) (hlane : w'.lane = w.lane)
    (htasks : w'.tasks = w.tasks) (hcalls : w'.calls = w.calls) (hresults : w'.results = w.results)
    (hasked : w'.asked = w.asked) (hanswers : w'.answers = w.answers)
    (hclosed : w.closed ⊆ w'.closed) : w'.Ordered L := by
  have hlog : w'.log = w.log := by simp only [World.log,hsub,hcalls,hresults,hasked]
  have hdisp : w'.dispatched = w.dispatched := by simp only [World.dispatched,htasks]
  refine ⟨hsub ▸ h.ids,?_,?_,?_,?_,?_,?_,?_⟩
  · rw [hdisp,hlane,hsub]
    exact h.order
  · intro i hi
    rw [hsub] at hi
    rw [hdisp,hlane]
    exact (h.kept i hi).imp id (Or.imp id (Or.imp (fun hc => hclosed hc) id))
  · rw [htasks,hsub,hlog]
    exact h.tasks
  · rw [hcalls,hsub]
    exact h.calls
  · rw [hcalls,hdisp]
    exact h.sent
  · rw [hcalls,hasked,hresults]
    exact h.again
  · rw [hanswers,hlog]
    exact h.answers

theorem send {i : ℕ} {g : Group ι} (hphase : w.lane.phase ≠ .stopped)
    (hreply : g.reply = w.submitted.length) :
    World.Ordered L { w with
      waiters := w.waiters.eraseIdx i, submitted := w.submitted ++ [g]
      lane := { w.lane with channel := w.lane.channel ++ [g] } } := by
  have hall : ({ w.lane with channel := w.lane.channel ++ [g] } : RunLane ι).all = w.lane.all ++ [g] := by
    simp [RunLane.all]
  have hx : w.log.Extends (World.log { w with
      waiters := w.waiters.eraseIdx i, submitted := w.submitted ++ [g]
      lane := { w.lane with channel := w.lane.channel ++ [g] } }) [] :=
    ⟨List.prefix_append _ _,(List.append_nil _).symm,List.Subset.refl _,List.Subset.refl _⟩
  refine ⟨?_,?_,?_,?_,?_,h.sent,h.again,fun j part hp => (h.answers j part hp).extend hx⟩
  · intro j g' hj
    rcases Nat.lt_or_ge j w.submitted.length with hlt | hge
    · rw [List.getElem?_append_left hlt] at hj
      exact h.ids j g' hj
    · have hlt := (List.getElem?_eq_some_iff.mp hj).1
      simp only [List.length_append,List.length_singleton] at hlt
      obtain rfl : j = w.submitted.length := by omega
      rw [List.getElem?_concat_length] at hj
      rw [← Option.some.inj hj,hreply]
  · obtain ⟨sent,hsent,hsub⟩ := h.order
    refine ⟨sent,hsent,?_⟩
    rw [hall,← List.append_assoc]
    exact hsub.append (List.Sublist.refl _)
  · intro j hj
    simp only [List.length_append,List.length_singleton] at hj
    rw [hall,List.map_append]
    rcases Nat.lt_or_ge j w.submitted.length with hlt | hge
    · rcases h.kept j hlt with hk | hk | hk | ⟨hk,-⟩
      · exact .inl hk
      · exact .inr (.inl (List.mem_append_left _ hk))
      · exact .inr (.inr (.inl hk))
      · exact absurd hk hphase
    · obtain rfl : j = w.submitted.length := by omega
      refine .inr (.inl (List.mem_append_right _ ?_))
      simp [hreply]
  · intro t ht
    obtain ⟨gs,hne,hc,hf⟩ := h.tasks t ht
    exact ⟨gs,hne,⟨hc.sub.trans (List.sublist_append_left _ _),hc.fit,hc.context,hc.replies,hc.lengths,
      hc.allItems,hc.items⟩,hf.extend hx hc.replies (by simp)⟩
  · intro k hk
    obtain ⟨gs,hsub,hrest⟩ := h.calls k hk
    exact ⟨gs,hsub.trans (List.sublist_append_left _ _),hrest⟩

theorem dispatch {s : LaneStep ι} (hs : s.Follows L.config w.isClosed w.lane)
    (hstop : w.lane.phase = .stopped → s = { lane := w.lane }) : (w.dispatch s).Ordered L := by
  obtain ⟨sent,hsent,hsub⟩ := h.order
  have horder : (sent ++ (s.dispatched ++ s.lane.all)).Sublist w.submitted :=
    (hs.order.append_left sent).trans hsub
  have hkept : ∀ i, i < w.submitted.length →
      i ∈ w.dispatched ++ s.dispatched.map Group.reply ∨ i ∈ s.lane.all.map Group.reply ∨ i ∈ w.closed ∨
        s.lane.phase = .stopped ∧ ∀ j ∈ w.dispatched ++ s.dispatched.map Group.reply, j < i := by
    intro i hi
    rcases h.kept i hi with hk | hk | hk | ⟨hp,hk⟩
    · exact .inl (List.mem_append_left _ hk)
    · obtain ⟨g,hg,rfl⟩ := List.mem_map.mp hk
      rcases List.mem_append.mp (hs.perm.symm.subset hg) with hg | hg
      · exact .inl (List.mem_append_right _ (List.mem_map_of_mem hg))
      · rcases List.mem_append.mp hg with hg | hg
        · exact .inr (.inr (.inl (by simpa [World.isClosed] using hs.dropped g hg)))
        · exact .inr (.inl (List.mem_map_of_mem hg))
    · exact .inr (.inr (.inl hk))
    · rw [hstop hp]
      refine .inr (.inr (.inr ⟨hp,?_⟩))
      simpa using hk
  unfold World.dispatch
  split
  · rename_i hnil
    rw [hnil] at horder hkept
    simp only [List.map_nil,List.append_nil,List.nil_append] at horder hkept
    exact ⟨h.ids,⟨sent,hsent,horder⟩,hkept,h.tasks,h.calls,h.sent,h.again,h.answers⟩
  · rename_i g rest hd
    have hdisp : (w.tasks ++ [Task.ofGroups g.context (g::rest)]).flatMap Task.replies =
        w.dispatched ++ s.dispatched.map Group.reply := by
      rw [List.flatMap_append,hd]
      simp [World.dispatched,Task.ofGroups]
    have hsub' : s.dispatched.Sublist w.submitted :=
      ((List.sublist_append_left _ _).trans (List.sublist_append_right _ _)).trans horder
    refine ⟨h.ids,⟨sent ++ s.dispatched,?_,?_⟩,?_,?_,h.calls,?_,h.again,h.answers⟩
    · simp only [World.dispatched,hdisp]
      rw [List.map_append,hsent]
      rfl
    · rw [List.append_assoc]
      exact horder
    · intro i hi
      simp only [World.dispatched,hdisp]
      exact hkept i hi
    · refine forall_mem_concat h.tasks ?_
      · rw [← hd]
        refine ⟨s.dispatched,by rw [hd]; exact List.cons_ne_nil _ _,
          ⟨hsub',hs.fit,fun x hx => ?_,rfl,rfl,rfl,rfl⟩,?_⟩
        · exact hs.fit.context x hx g (by rw [hd]; exact List.mem_cons_self)
        · -- no earlier call carried a group that was still in the lane
          intro i hi k hk hmem
          have hlt := (List.pairwise_append.mp h.pairwise).2.2 i (h.sent k hk i hmem)
          obtain ⟨x,hx,rfl⟩ := List.mem_map.mp hi
          exact absurd (hlt x.reply (List.mem_map_of_mem
            (hs.order.subset (List.mem_append_left _ hx)))) (Nat.lt_irrefl _)
    · intro k hk i hi
      simp only [World.dispatched,hdisp]
      exact List.mem_append_left _ (h.sent k hk i hi)

theorem abortLane : w.abortLane.Ordered L := by
  obtain ⟨sent,hsent,hsub⟩ := h.order
  refine ⟨h.ids,⟨sent,hsent,?_⟩,?_,h.tasks,h.calls,h.sent,h.again,h.answers⟩
  · have hnil : w.abortLane.lane.all = [] := rfl
    rw [hnil,List.append_nil]
    exact (List.sublist_append_left _ _).trans hsub
  · intro i hi
    rcases h.kept i hi with hk | hk | hk | ⟨-,hk⟩
    · exact .inl hk
    · exact .inr (.inr (.inr ⟨rfl,fun j hj => (List.pairwise_append.mp h.pairwise).2.2 j hj i hk⟩))
    · exact .inr (.inr (.inl hk))
    · exact .inr (.inr (.inr ⟨rfl,hk⟩))

theorem disjoint {i j : ℕ} {t t' : Task ι} (hi : w.tasks[i]? = some t)
    (hj : w.tasks[j]? = some t') (hij : i ≠ j) : ∀ x ∈ t.replies, x ∉ t'.replies := by
  have hp := (List.nodup_flatMap.mp h.dispatched_nodup).2
  rw [List.pairwise_iff_getElem] at hp
  obtain ⟨hi',rfl⟩ := List.getElem?_eq_some_iff.mp hi
  obtain ⟨hj',rfl⟩ := List.getElem?_eq_some_iff.mp hj
  intro x hx hx'
  rcases Nat.lt_or_gt_of_ne hij with hlt | hlt
  · exact hp i j hi' hj' hlt hx hx'
  · exact hp j i hj' hi' hlt hx' hx

theorem moveTask {i : ℕ} {t : Task ι} {s : TaskStep ι ο} (ht : w.tasks[i]? = some t)
    {gs : List (Group ι)} (hne : gs ≠ []) (hc : t.Carries L.config w.submitted gs)
    (hs : s.Fits L.config w.log gs) : (w.moveTask i s).Ordered L := by
  have hreplies : s.task.replies = t.replies := hs.carries.replies.trans hc.replies.symm
  have hdisp : (w.moveTask i s).dispatched = w.dispatched := by
    obtain ⟨hi,hget⟩ := List.getElem?_eq_some_iff.mp ht
    simp only [World.dispatched,World.moveTask,List.flatMap_def,List.map_set]
    congr 1
    refine List.ext_getElem? fun j => ?_
    rw [List.getElem?_set]
    split
    · rename_i hij
      subst hij
      simp [hi,hget,hreplies]
    · rfl
  have hext : w.log.Extends (w.log.after s) s.calls := w.log.extends_after s
  have hlog : (w.moveTask i s).log = w.log.after s := rfl
  have hcallreplies : ∀ k ∈ s.calls, ∀ x ∈ k.replies, x ∈ t.replies := by
    intro k hk x hx
    obtain ⟨⟨hs',hsub,-,rfl⟩,-⟩ := hs.calls k hk
    rw [hc.replies]
    exact (hsub.map _).subset hx
  refine ⟨h.ids,hdisp ▸ h.order,hdisp ▸ h.kept,?_,?_,?_,?_,?_⟩
  · intro t' ht'
    obtain ⟨j,hj⟩ := List.mem_iff_getElem?.mp ht'
    simp only [World.moveTask] at hj
    by_cases hij : i = j
    · subst hij
      rw [List.getElem?_set_self (List.getElem?_eq_some_iff.mp ht).1] at hj
      cases hj
      exact ⟨gs,hne,hs.carries,hs.state⟩
    · rw [List.getElem?_set_ne hij] at hj
      obtain ⟨gs',hne',hc',hf'⟩ := h.tasks t' (List.mem_of_getElem? hj)
      refine ⟨gs',hne',hc',hf'.extend hext hc'.replies fun k hk x hx hmem => ?_⟩
      exact h.disjoint ht hj hij x (hcallreplies k hk x hmem) hx
  · refine List.forall_mem_append.mpr ⟨h.calls,fun k hk => ?_⟩
    obtain ⟨⟨hs',hsub,hne',rfl⟩,-⟩ := hs.calls k hk
    exact ⟨hs',hsub.trans hc.sub,hne',hc.fit.sublist hsub,rfl,
      fun g hg => hs.carries.context g (hsub.subset hg)⟩
  · rw [hdisp]
    refine List.forall_mem_append.mpr ⟨h.sent,fun k hk x hx => ?_⟩
    exact List.mem_flatMap.mpr ⟨t,List.mem_of_getElem? ht,hcallreplies k hk x hx⟩
  · intro c c' k k' x hlt hk hk' hx hx'
    have hk₁ : (w.calls ++ s.calls)[c]? = some k := hk
    have hk₂ : (w.calls ++ s.calls)[c']? = some k' := hk'
    rcases Nat.lt_or_ge c' w.calls.length with hc' | hc'
    · rw [List.getElem?_append_left (hlt.trans hc')] at hk₁
      rw [List.getElem?_append_left hc'] at hk₂
      obtain ⟨hone,hcons,hrep,e,he,hclass⟩ := h.again c c' k k' x hlt hk₁ hk₂ hx hx'
      exact ⟨hone,List.mem_append_left _ hcons,hrep,e,List.mem_append_left _ he,hclass⟩
    · rw [List.getElem?_append_right hc'] at hk₂
      have hlt' := (List.getElem?_eq_some_iff.mp hk₂).1
      have hsingle := hs.single
      rw [List.getElem?_append_left (by omega)] at hk₁
      -- the new call carries the group alone, after its failed batch
      rcases (hs.calls k' (List.mem_of_getElem? hk₂)).2 x hx' with hno | ⟨c₀,k₀,e,hc₀,hone,he,hclass,hcons,honly,hrep⟩
      · exact absurd hx (hno k (List.mem_of_getElem? hk₁))
      · obtain rfl := honly c k hk₁ hx
        cases hc₀.symm.trans hk₁
        exact ⟨hone,List.mem_append_left _ hcons,hrep,e,List.mem_append_left _ he,hclass⟩
  · intro x part hp
    rw [hlog]
    rcases List.mem_append.mp hp with hp | hp
    · exact (h.answers x part hp).extend hext
    · exact hs.answers x part (List.mem_filter.mp hp).1

theorem task_fits {i : ℕ} {t : Task ι} (ht : w.tasks[i]? = some t) (m : TaskMove ο) :
    ∃ gs, gs ≠ [] ∧ t.Carries L.config w.submitted gs ∧
      (t.step w.isClosed w.permits w.calls.length m).Fits L.config w.log gs := by
  have hmem := List.mem_of_getElem? ht
  obtain ⟨gs,hne,hc,hf⟩ := h.tasks t hmem
  exact ⟨gs,hne,hc,Task.step_fits hc hne ((List.nodup_flatMap.mp h.dispatched_nodup).1 t hmem) hf m⟩

theorem moved (hb : w.Balanced L) (hm : w.Moved L e w') : w'.Ordered L := by
  cases hm with
  | stay => exact h
  | aside hc => exact h.frame rfl rfl rfl rfl rfl rfl rfl hc
  | arrive | acquire | leave => exact h.frame rfl rfl rfl rfl rfl rfl rfl (List.Subset.refl _)
  | send hx hs hp hg => exact h.send hp (by rw [hg])
  | @lane m hm =>
    refine h.dispatch (RunLane.step_follows hb.lane hb.small m) fun hp => ?_
    cases m <;> simp only [RunLane.step,RunLane.next,RunLane.closedMove,RunLane.receive,RunLane.elapsed,
      RunLane.slot,hp]
  | abortLane => exact h.abortLane
  | @task i m t ht =>
    obtain ⟨gs,hne,hc,hf⟩ := h.task_fits ht m
    exact h.moveTask ht hne hc hf

theorem step (hb : w.Balanced L) (e : Event ι ο) : (w.step L e).Ordered L :=
  h.moved hb (w.step_moved L e)

theorem run (hb : w.Balanced L) (es : List (Event ι ο)) : (w.run L es).Ordered L := by
  induction es generalizing w with
  | nil => exact h
  | cons e es ih => exact ih (h.step hb e) (hb.step e)

end World.Ordered

def World.sends (w : World ι ο) (i : ℕ) : List ℕ :=
  (List.range w.calls.length).filter fun c => (w.calls[c]?).any fun k => k.replies.contains i

omit [UnitIndexed ι] in
theorem World.mem_sends {i c : ℕ} : c ∈ w.sends i ↔ ∃ k, w.calls[c]? = some k ∧ i ∈ k.replies := by
  simp only [World.sends,List.mem_filter,List.mem_range,Option.any_eq_true,List.contains_iff_mem]
  refine ⟨fun h => h.2,?_⟩
  rintro ⟨k,hk,hi⟩
  exact ⟨(List.getElem?_eq_some_iff.mp hk).1,k,hk,hi⟩

omit [UnitIndexed ι] in
/-- What is logged of a provider's capabilities is what it answered. -/
theorem Task.asked_step {closed : ℕ → Bool} {t : Task ι} {n next : ℕ} {m : TaskMove ο}
    {x : ℕ × Except CryptoError Bool} (hx : x ∈ (t.step closed n next m).asked) :
    m = .capabilities x.2 := by
  have hretrying : ∀ c r, (t.stepRetrying closed c r n next m).asked = [] := by
    intro c r
    unfold Task.stepRetrying Task.stepRetry
    grind
  unfold Task.step at hx
  split at hx
  · cases hx
  · split at hx <;> cases hx
  · unfold Task.stepCalling at hx
    grind
  · split at hx <;> cases hx
  · rw [List.mem_singleton.mp hx]
  · rw [hretrying] at hx
    cases hx
  · cases hx

theorem World.asked_step {x : ℕ × Except CryptoError Bool} (hx : x ∈ (w.step L e).asked) :
    x ∈ w.asked ∨ ∃ i, e = .task i (.capabilities x.2) := by
  have hmoved := w.step_moved L e
  generalize w.step L e = w' at hx hmoved
  cases hmoved with
  | stay | aside | arrive | acquire | leave | send | abortLane => exact .inl hx
  | lane =>
    unfold World.dispatch at hx
    split at hx <;> exact .inl hx
  | task ht => exact (List.mem_append.mp hx).imp_right fun hx => ⟨_,by rw [Task.asked_step hx]⟩

theorem World.asked_run {x : ℕ × Except CryptoError Bool} (es : List (Event ι ο))
    (hx : x ∈ (w.run L es).asked) : x ∈ w.asked ∨ ∃ i, .task i (.capabilities x.2) ∈ es := by
  induction es generalizing w with
  | nil => exact .inl hx
  | cons e es ih =>
    rcases ih hx with hx | ⟨i,hi⟩
    · refine (World.asked_step hx).imp_right fun h => h.imp fun i hi => ?_
      rw [hi]
      exact List.mem_cons_self
    · exact .inr ⟨i,List.mem_cons_of_mem _ hi⟩

/-- A group is sent once, or a second time after its coalesced call failed. -/
theorem World.Ordered.sends (h : w.Ordered L) (i : ℕ) :
    w.sends i = [] ∨ (∃ c, w.sends i = [c]) ∨
    ∃ c c' k e, w.sends i = [c,c'] ∧ w.calls[c]? = some k ∧ 1 < k.replies.length ∧
      (c,.error e) ∈ w.results ∧ e.errorClass = .NonRetryableRequest ∧ (c,.ok true) ∈ w.asked := by
  have hsorted : (w.sends i).Pairwise (· < ·) := List.pairwise_lt_range.filter _
  have hagain : ∀ c c', c ∈ w.sends i → c' ∈ w.sends i → c < c' → ∃ k k' e, w.calls[c]? = some k ∧
      w.calls[c']? = some k' ∧ 1 < k.replies.length ∧ k'.replies = [i] ∧ (c,.error e) ∈ w.results ∧
      e.errorClass = .NonRetryableRequest ∧ (c,.ok true) ∈ w.asked := by
    intro c c' hc hc' hlt
    obtain ⟨k,hk,hi⟩ := World.mem_sends.mp hc
    obtain ⟨k',hk',hi'⟩ := World.mem_sends.mp hc'
    obtain ⟨hone,hcons,hrep,e,he,hclass⟩ := h.again c c' k k' i hlt hk hk' hi hi'
    exact ⟨k,k',e,hk,hk',hone,hrep,he,hclass,hcons⟩
  rcases hs : w.sends i with _ | ⟨c,_ | ⟨c',_ | ⟨c'',rest⟩⟩⟩
  · exact .inl rfl
  · exact .inr (.inl ⟨c,rfl⟩)
  · rw [hs] at hsorted hagain
    obtain ⟨k,k',e,hk,-,hone,-,he,hclass,hcons⟩ := hagain c c' (by simp) (by simp) (by simpa using hsorted)
    exact .inr (.inr ⟨c,c',k,e,rfl,hk,hone,he,hclass,hcons⟩)
  · -- a third call would follow a second one that carried the group alone
    rw [hs] at hsorted hagain
    simp only [List.pairwise_cons,List.mem_cons,forall_eq_or_imp] at hsorted
    obtain ⟨k,k',e,hk,hk',hone,hrep,-⟩ := hagain c c' (by simp) (by simp) hsorted.1.1
    obtain ⟨k₂,k₃,e',hk₂,hk₃,hone₂,-⟩ := hagain c' c'' (by simp) (by simp) hsorted.2.1.1
    cases hk'.symm.trans hk₂
    rw [hrep] at hone₂
    exact absurd hone₂ (by simp)

/-- Batch lanes never mix callers. In every run a provider call carries whole groups in the order of
submission, of one context and without a common unit, within the limits of a batch. Groups leave in
order, and none is passed over unless its caller left. An answer is the slice of one provider
result at the group's own positions. A group is sent at most once, or twice if its first call was a
coalesced one that failed with a request error and the provider, asked about it, said that it is
retry-safe. -/
theorem lanes_never_mix (L : Lane) (hmax : 1 ≤ L.config.maxItems) (es : List (Event ι ο)) (w : World ι ο)
    (hw : w = (World.initial L).run L es) :
    (∀ (i : ℕ) (g : Group ι), w.submitted[i]? = some g → g.reply = i) ∧
    (∀ k ∈ w.calls, ∃ gs, gs.Sublist w.submitted ∧ gs ≠ [] ∧ k.items = gs.flatMap Group.items ∧
      k.replies = gs.map Group.reply ∧ (∀ g ∈ gs, g.context = k.context) ∧
      (gs.Pairwise fun g g' => ∀ u ∈ g.units, u ∉ g'.units) ∧
      k.items.length ≤ L.config.maxItems ∧ bytesOf gs ≤ L.config.maxBytes) ∧
    (w.dispatched.Pairwise (· < ·) ∧
      ∀ j ∈ w.dispatched, ∀ i, i < j → i ∈ w.dispatched ∨ i ∈ w.closed) ∧
    (∀ i part, (i,.ok part) ∈ w.answers → w.log.Slice i part) ∧
    (∀ i, w.sends i = [] ∨ (∃ c, w.sends i = [c]) ∨
      ∃ c c' k e, w.sends i = [c,c'] ∧ w.calls[c]? = some k ∧ 1 < k.replies.length ∧
        (c,.error e) ∈ w.results ∧ e.errorClass = .NonRetryableRequest ∧ (c,.ok true) ∈ w.asked) ∧
    ∀ x ∈ w.asked, ∃ i, .task i (.capabilities x.2) ∈ es := by
  have h : w.Ordered L := hw ▸ (World.Ordered.initial L).run (World.Balanced.initial L) es
  refine ⟨h.ids,?_,⟨(List.pairwise_append.mp h.pairwise).1,fun j hj i hij => h.fifo hj hij⟩,h.answers,h.sends,?_⟩
  · intro k hk
    obtain ⟨gs,hsub,hne,hfit,hk',hcontext⟩ := h.calls k hk
    have hitems : k.items = gs.flatMap Group.items := congrArg Call.items hk'
    refine ⟨gs,hsub,hne,hitems,congrArg Call.replies hk',hcontext,hfit.units,?_,hfit.bytes⟩
    rw [hitems,List.length_flatMap]
    exact hfit.items.trans (max_le (Nat.le_refl _) hmax)
  · intro x hx
    rw [hw] at hx
    exact (World.asked_run es hx).resolve_left (by simp [World.initial])

end Worlds

section Sample

/-! Two callers share a batch that fails its integrity check; each is sent again alone. -/

local instance : UnitIndexed ℕ := ⟨id⟩

def sampleLane : Lane := ⟨{ maxInflightBatches := 1 },1000⟩

def sampleRequest (unit : ℕ) : LaneRequest ℕ := ⟨⟨0,1,""⟩,[unit],10,10⟩

/-- A caller is admitted and its group enters the channel. -/
def sampleSubmit (unit : ℕ) : List (Event ℕ ℕ) :=
  [.arrive (sampleRequest unit),.acquireItems 0,.acquireBytes 0,.send 0]

/-- Both groups go out in one call, which fails. -/
def sampleFailed : List (Event ℕ ℕ) :=
  sampleSubmit 3 ++ sampleSubmit 4 ++
    [.lane .next,.lane .next,.lane .receive,.lane .next,.tick 150,.lane .elapsed,.lane .slot,
      .task 0 .poll,.task 0 (.answer (.error (.Integrity "tag")))]

def sampleRetried : List (Event ℕ ℕ) :=
  sampleFailed ++
    [.task 0 (.capabilities (.ok true)),.task 0 (.pollRetry 0),.task 0 (.answerRetry 0 (.ok [30])),
      .task 0 (.pollRetry 0),.task 0 (.answerRetry 0 (.error (.Integrity "tag")))]

set_option maxRecDepth 100000 in
theorem lanes_never_mix_retried : 1 ≤ sampleLane.config.maxItems ∧
    ((World.initial sampleLane).run sampleLane sampleRetried).sends 0 = [0,1] ∧
    ((World.initial sampleLane).run sampleLane sampleRetried).log.Slice 0 [30] := by
  have h := lanes_never_mix sampleLane (by decide) sampleRetried _ rfl
  refine ⟨by decide,by decide +kernel,h.2.2.2.1 0 [30] ?_⟩
  have hanswers : ((World.initial sampleLane).run sampleLane sampleRetried).answers =
      [(0,.ok [30]),(1,.error (.Integrity "tag"))] := by decide +kernel
  rw [hanswers]
  exact List.mem_cons_self

/-- While the provider is asked whether the failed batch may be repeated, no call is in flight and the
batch still has its permit. -/
theorem permit_held_without_call :
    (((World.initial sampleLane).run sampleLane sampleFailed).tasks.map Task.inflight).sum = 0 ∧
    ((World.initial sampleLane).run sampleLane sampleFailed).permits = 0 ∧
    max 1 sampleLane.config.maxInflightBatches = 1 := by
  decide +kernel

theorem inflight_bounded_retried :
    ((World.initial sampleLane).run sampleLane sampleRetried).calls.length = 3 ∧
    ((World.initial sampleLane).run sampleLane sampleRetried).permits+
      (((World.initial sampleLane).run sampleLane sampleRetried).tasks.map Task.held).sum = 1 :=
  ⟨by decide +kernel,(inflight_bounded sampleLane sampleRetried _ rfl).2.1⟩

end Sample
end Scheduler
end Maki
