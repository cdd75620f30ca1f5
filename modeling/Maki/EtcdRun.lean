import Maki.Etcd

/-! Requests over etcd count once. The values of the key are the states of one history of the authority,
and every read, transaction and answer belongs to one of them. States do not recur, so a
transaction can only run at the very state its sender read. -/
namespace Maki

open RemoteWitness

section Conflicts

/-! The checks of stored states never report a failed comparison. -/

variable {α β : Type}

def NoConflict (x : Except WitnessError α) : Prop := ∀ m, x ≠ .error (.WouldBlock m)

theorem NoConflict.ok (a : α) : NoConflict (.ok a : Except WitnessError α) := fun _ h => by cases h

theorem NoConflict.bind {x : Except WitnessError α} {f : α → Except WitnessError β} (hx : NoConflict x)
    (hf : ∀ a, NoConflict (f a)) : NoConflict (x >>= f) := by
  cases x with
  | ok a => exact hf a
  | error e => exact fun m h => hx m (congrArg Except.error (Except.error.inj h))

theorem NoConflict.refuse {c : Prop} [Decidable c] {e : WitnessError} (he : ∀ m, e ≠ .WouldBlock m) :
    NoConflict (RemoteWitness.refuse c e) := by
  unfold RemoteWitness.refuse
  split
  · exact fun m h => he m (Except.error.inj h)
  · exact .ok ()

theorem NoConflict.invalid (message : String) :
    NoConflict (.error (.InvalidData message) : Except WitnessError α) := fun _ h => by cases h

theorem namespaceFence_noConflict (value : Bytes) : NoConflict (namespaceFence value) :=
  .bind (.refuse (by simp)) fun _ => .bind (.refuse (by simp)) fun _ =>
    .bind (.refuse (by simp)) fun _ => .ok _

theorem Descriptor.validate_noConflict (x : Descriptor) : NoConflict x.validate :=
  .bind (.refuse (by simp)) fun _ => .bind (namespaceFence_noConflict _) fun _ => .ok _

theorem RemoteWitness.Record.validate_noConflict (r : Record) : NoConflict r.validate := by
  have hinside : ∀ x message, NoConflict (r.checkInside x (.InvalidData message)) := fun x message =>
    .bind (.refuse (by simp)) fun _ => .bind (namespaceFence_noConflict _) fun _ => .refuse (by simp)
  have hcurrent : NoConflict r.checkCurrent := by
    unfold Record.checkCurrent
    split
    · exact .bind (Descriptor.validate_noConflict _) fun _ => .bind (hinside _ _) fun _ => .refuse (by simp)
    · exact .refuse (by simp)
  have hsource : ∀ x m m', NoConflict (r.checkSource x (.InvalidData m) (.InvalidData m')) := by
    intro x m m'
    refine .bind (Descriptor.validate_noConflict _) fun _ => ?_
    split
    · exact .invalid _
    · exact .bind (.refuse (by simp)) fun _ => .bind (namespaceFence_noConflict _) fun _ =>
        .bind (.refuse (by simp)) fun _ => .ok _
  have hrestore : NoConflict r.checkRestore := by
    unfold Record.checkRestore
    split
    · split
      · exact .bind (hsource _ _ _) fun _ => .ok _
      · exact .invalid _
    · exact .refuse (by simp)
  refine .bind (.refuse (by simp)) fun _ => ?_
  split
  · exact .refuse (by simp)
  · exact .bind (.refuse (by simp)) fun _ => .bind hcurrent fun _ => hrestore

theorem RemoteWitness.Stored.validate_noConflict (s : Stored) : NoConflict s.validate :=
  .bind (.refuse (by simp)) fun _ => s.record.validate_noConflict

variable [Sha256]

theorem encode_noConflict (s : Stored) : NoConflict (RemoteWitness.encode s) :=
  .bind s.validate_noConflict fun _ => .bind (.refuse (by simp)) fun _ => .ok _

theorem decode_noConflict [StoredReader] (bs : Bytes) : NoConflict (RemoteWitness.decode bs) := by
  refine .bind (.refuse (by simp)) fun _ => .bind (.refuse (by simp)) fun _ => ?_
  unfold decodeBody
  split
  · exact .invalid _
  · exact .bind (Stored.validate_noConflict _) fun _ => .bind (.refuse (by simp)) fun _ => .ok _

end Conflicts

namespace CanonicalState

theorem Changed.repeated [Sha256] {s s' : CanonicalState} {role : Role} {q : Request}
    (h : Changed s role q s') : Repeated s' role q := by
  obtain ⟨r,-,hr⟩ := h.moves
  exact ⟨by rw [hr],h.hash⟩

theorem Repeated.apply_eq [Sha256] {s : CanonicalState} {role : Role} {q : Request}
    (h : Repeated s role q) (hq : q.action ≠ .Inspect) (hop : q.operationId ≠ nil16) :
    s.apply role q = .ok s := by
  obtain ⟨hash,hhash,hlast⟩ := h.hash
  unfold apply
  simp only [if_neg hq,refuse,if_neg hop,hhash,if_pos h.last,if_pos hlast,bind,Except.bind,pure,
    Except.pure]

end CanonicalState

namespace Etcd

section Decisions

variable [Sha256] [StoredReader] {o : Options} {role : Role} {q : Request} {k : Key}
  {s next : CanonicalState} {cur : Snapshot} {bytes : Bytes}

theorem snapshot_noConflict (k : Key) : NoConflict (snapshot o k) :=
  .bind (.refuse (by simp)) fun _ => .bind (.refuse (by simp)) fun _ =>
    .bind (decode_noConflict _) fun _ => .bind (.refuse (by simp)) fun _ => .ok _

variable (hs : s.encode = .ok k.value)

include hs

theorem snapshot_ok (h : snapshot o k = .ok cur) :
    cur = ⟨s,k.value,k.revision⟩ := by
  unfold snapshot at h
  obtain ⟨-,h⟩ := refuse_bind h
  obtain ⟨-,h⟩ := refuse_bind h
  obtain ⟨stored,hd,h⟩ := bind_eq_ok h
  obtain ⟨-,h⟩ := refuse_bind h
  cases h
  rw [encode_injective (encode_of_decode hd) hs]

theorem candidate_ok (h : candidate o role q k = .ok (cur,next,bytes)) :
    cur = ⟨s,k.value,k.revision⟩ ∧ s.apply role q = .ok next ∧ next.encode = .ok bytes := by
  unfold candidate at h
  obtain ⟨cur',hcur,h⟩ := bind_eq_ok h
  obtain ⟨next',hnext,h⟩ := bind_eq_ok h
  obtain ⟨bytes',hbytes,h⟩ := bind_eq_ok h
  cases h
  obtain rfl := snapshot_ok hs hcur
  exact ⟨rfl,hnext,hbytes⟩

/-- A failed comparison comes from the request itself. -/
theorem candidate_conflict {m : String} (h : candidate o role q k = .error (.WouldBlock m))
    : s.apply role q = .error (.WouldBlock m) := by
  unfold candidate at h
  cases hcur : snapshot o k with
  | error e =>
    rw [hcur] at h
    exact absurd hcur (Except.error.inj h ▸ snapshot_noConflict k m)
  | ok cur =>
    obtain rfl := snapshot_ok hs hcur
    simp only [hcur,bind,Except.bind] at h
    cases ha : s.apply role q with
    | error e =>
      rw [ha] at h
      exact congrArg Except.error (Except.error.inj h)
    | ok next =>
      simp only [ha] at h
      cases he : next.encode with
      | error e =>
        rw [he] at h
        exact absurd he (Except.error.inj h ▸ encode_noConflict next.stored m)
      | ok bytes =>
        rw [he] at h
        cases h

theorem candidate_same (h : candidate o role q k = .ok (cur,next,cur.bytes)) :
    next.record = s.record ∧ (q.action = .Inspect ∨ s.Repeated role q) := by
  obtain ⟨rfl,happly,hbytes⟩ := candidate_ok hs h
  have hnext : next.stored = s.stored := encode_injective hbytes hs
  rcases CanonicalState.apply_cases happly with ⟨rfl,hr⟩ | hchanged
  · exact ⟨rfl,hr⟩
  · have hne := hchanged.measure_lt
    rw [CanonicalState.record,CanonicalState.record,hnext] at hne
    exact absurd hne (lt_irrefl _)

theorem decideRead_ok {r : Record} (h : decideRead o role q k = .answer (.ok r)) :
    r = s.record ∧ (q.action = .Inspect ∨ s.Repeated role q) := by
  unfold decideRead at h
  split at h
  · cases h
  · rename_i hc
    split at h
    · rename_i hsame
      cases h
      exact candidate_same hs (hsame ▸ hc)
    · cases h

theorem decideRead_conflict {m : String}
    (h : decideRead o role q k = .answer (.error (.refused (.WouldBlock m)))) :
    s.apply role q = .error (.WouldBlock m) := by
  unfold decideRead at h
  cases hc : candidate o role q k with
  | error e =>
    simp only [hc,Next.answer.injEq,Except.error.injEq,Failure.refused.injEq] at h
    exact candidate_conflict hs (h ▸ hc)
  | ok x =>
    simp only [hc] at h
    split at h <;> cases h

theorem decideRead_post {t : Txn} (h : decideRead o role q k = .post t next) :
    t.revision = k.revision ∧ t.value = k.value ∧ s.apply role q = .ok next ∧ next ≠ s ∧
      next.encode = .ok t.put := by
  unfold decideRead at h
  cases hc : candidate o role q k with
  | error e => simp [hc] at h
  | ok x =>
    obtain ⟨cur,next',bytes⟩ := x
    simp only [hc] at h
    obtain ⟨rfl,happly,hbytes⟩ := candidate_ok hs hc
    by_cases hsame : bytes = k.value
    · rw [if_pos hsame] at h
      cases h
    · rw [if_neg hsame] at h
      cases h
      refine ⟨rfl,rfl,happly,?_,hbytes⟩
      rintro rfl
      exact hsame (Except.ok.inj (hbytes.symm.trans hs))

theorem decideTxn_failed_ok {r : Record} (h : decideTxn o role q next (.failed k) = .ok r) :
    r = s.record ∧ (q.action = .Inspect ∨ s.Repeated role q) := by
  simp only [decideTxn] at h
  split at h
  · cases h
  · rename_i hc
    split at h
    · rename_i hsame
      cases h
      exact candidate_same hs (hsame ▸ hc)
    · cases h

theorem decideTxn_failed_conflict {m : String} {next' : CanonicalState}
    (h : decideTxn o role q next' (.failed k) = .error (.refused (.WouldBlock m))) :
    s.apply role q ≠ .ok s := by
  unfold decideTxn at h
  cases hc : candidate o role q k with
  | error e =>
    simp only [hc,Except.error.injEq,Failure.refused.injEq] at h
    rw [candidate_conflict hs (h ▸ hc)]
    exact fun he => by cases he
  | ok x =>
    obtain ⟨cur,next,bytes⟩ := x
    simp only [hc] at h
    obtain ⟨rfl,happly,hbytes⟩ := candidate_ok hs hc
    by_cases hsame : bytes = k.value
    · rw [if_pos hsame] at h
      cases h
    · intro he
      cases happly.symm.trans he
      exact hsame (Except.ok.inj (hbytes.symm.trans hs))

end Decisions

section Worlds

variable [Sha256] {s₀ : CanonicalState} {w w' : World}

def World.state (s₀ : CanonicalState) (w : World) (i : ℕ) : CanonicalState := s₀.run (w.applied.take i)

def World.At (w : World) (i : ℕ) (k : Key) : Prop := i ≤ w.applied.length ∧ w.log[i]? = some k

/-- A transaction was made for one value of the key. If it ran, it ran there and changed the state to
what its sender computed, or it met a later value. -/
structure World.Made (s₀ : CanonicalState) (w : World) (t : Sent) (i : ℕ) (k : Key) : Prop where
  start : t.start ≤ i
  key : w.At i k
  revision : t.txn.revision = k.revision
  value : t.txn.value = k.value
  apply : (w.state s₀ i).apply t.owner.1 t.owner.2 = .ok t.next
  ne : t.next ≠ w.state s₀ i
  put : t.next.encode = .ok t.txn.put
  succeeded : t.response = some .succeeded → w.applied[i]? = some t.owner
  failed : ∀ k', t.response = some (.failed k') → ∃ j, i < j ∧ w.At j k'

/-- A conflict was answered where the request did not apply, or after its state had gone. -/
def World.Refused (s₀ : CanonicalState) (w : World) (c : Call) : Prop :=
  ∃ j, c.start ≤ j ∧ j ≤ w.applied.length ∧
    ((∃ m, (w.state s₀ j).apply c.role c.request = .error (.WouldBlock m)) ∨
      (w.state s₀ j).apply c.role c.request ≠ .ok (w.state s₀ j) ∧
        ∃ i next, c.start ≤ i ∧ i < j ∧ (w.state s₀ i).apply c.role c.request = .ok next ∧
          next ≠ w.state s₀ i)

def World.Fits (s₀ : CanonicalState) (w : World) (c : Call) : Prop :=
  match c.progress with
  | .loading _ => True
  | .loaded _ k => ∃ i, c.start ≤ i ∧ w.At i k
  | .posted _ t next => ∃ s, w.txns[t]? = some s ∧ s.owner = (c.role,c.request) ∧
      s.start = c.start ∧ s.next = next
  | .done (.ok r) => c.request.action = .Inspect ∨
      ∃ i, i ≤ w.applied.length ∧ r = (w.state s₀ i).record ∧ (w.state s₀ i).Repeated c.role c.request
  | .done (.error (.refused (.WouldBlock _))) => w.Refused s₀ c
  | .done (.error _) => True

structure World.Sound (s₀ : CanonicalState) (w : World) : Prop where
  length : w.log.length = w.applied.length+1
  current : w.At w.applied.length w.key
  value : ∀ i k, w.At i k → (w.state s₀ i).encode = .ok k.value
  revision : ∀ i j k k', i < j → w.At i k → w.At j k' → k.revision < k'.revision
  applied : ∀ i x, w.applied[i]? = some x →
    (w.state s₀ i).apply x.1 x.2 = .ok (w.state s₀ (i+1)) ∧ w.state s₀ (i+1) ≠ w.state s₀ i
  txns : ∀ t ∈ w.txns, ∃ i k, w.Made s₀ t i k
  starts : ∀ c ∈ w.calls, c.start ≤ w.applied.length
  calls : ∀ c ∈ w.calls, w.Fits s₀ c

/-- The key has moved on from `w` to `w'`, and the same transactions are still there. -/
structure World.Later (w w' : World) : Prop where
  applied : w.applied <+: w'.applied
  log : w.log <+: w'.log
  txns : ∀ (t : ℕ) (s : Sent), w.txns[t]? = some s → ∃ s' : Sent, w'.txns[t]? = some s' ∧
    s'.owner = s.owner ∧ s'.start = s.start ∧ s'.next = s.next

namespace World.Later

variable {i j : ℕ} {k : Key}

theorem state (h : w.Later w') (hi : i ≤ w.applied.length) : w'.state s₀ i = w.state s₀ i := by
  obtain ⟨rest,hrest⟩ := h.applied
  rw [World.state,World.state,← hrest,List.take_append_of_le_length hi]

omit [Sha256] in
theorem length_le (h : w.Later w') : w.applied.length ≤ w'.applied.length := h.applied.length_le

omit [Sha256] in
theorem version (h : w.Later w') (hk : w.At i k) : w'.At i k := by
  obtain ⟨rest,hrest⟩ := h.log
  refine ⟨hk.1.trans h.length_le,?_⟩
  rw [← hrest]
  exact List.getElem?_append_left (List.getElem?_eq_some_iff.mp hk.2).1 ▸ hk.2

theorem made (h : w.Later w') {t : Sent} (hm : w.Made s₀ t i k) : w'.Made s₀ t i k where
  start := hm.start
  key := h.version hm.key
  revision := hm.revision
  value := hm.value
  apply := by rw [h.state hm.key.1]; exact hm.apply
  ne := by rw [h.state hm.key.1]; exact hm.ne
  put := hm.put
  succeeded hr := by
    obtain ⟨rest,hrest⟩ := h.applied
    have hi := hm.succeeded hr
    rw [← hrest,List.getElem?_append_left (List.getElem?_eq_some_iff.mp hi).1]
    exact hi
  failed k' hr := by
    obtain ⟨j,hj,hk⟩ := hm.failed k' hr
    exact ⟨j,hj,h.version hk⟩

theorem owned (h : w.Later w') (hw : ∀ t ∈ w.txns, ∃ i k, w.Made s₀ t i k) :
    ∀ t ∈ w.txns, ∃ i k, w'.Made s₀ t i k := by
  intro t ht
  obtain ⟨i,k,hm⟩ := hw t ht
  exact ⟨i,k,h.made hm⟩

theorem refused (h : w.Later w') {c : Call} (hr : w.Refused s₀ c) : w'.Refused s₀ c := by
  obtain ⟨j,hs,hj,hr⟩ := hr
  refine ⟨j,hs,hj.trans h.length_le,?_⟩
  rw [h.state hj]
  refine hr.imp id ?_
  rintro ⟨hne,i,next,hsi,hij,ha,hn⟩
  refine ⟨hne,i,next,hsi,hij,?_⟩
  rw [h.state (by omega)]
  exact ⟨ha,hn⟩

theorem fits (h : w.Later w') {c : Call} (hf : w.Fits s₀ c) : w'.Fits s₀ c := by
  unfold World.Fits at hf ⊢
  split
  · trivial
  · rename_i hp
    simp only [hp] at hf
    obtain ⟨i,hs,hk⟩ := hf
    exact ⟨i,hs,h.version hk⟩
  · rename_i hp
    simp only [hp] at hf
    obtain ⟨s,hs,ho,hst,hn⟩ := hf
    obtain ⟨s',hs',ho',hst',hn'⟩ := h.txns _ s hs
    exact ⟨s',hs',ho'.trans ho,hst'.trans hst,hn'.trans hn⟩
  · rename_i hp
    simp only [hp] at hf
    refine hf.imp id ?_
    rintro ⟨i,hi,hr,hrep⟩
    refine ⟨i,hi.trans h.length_le,?_⟩
    rw [h.state hi]
    exact ⟨hr,hrep⟩
  · rename_i hp
    simp only [hp] at hf
    exact h.refused hf
  · trivial

end World.Later

theorem World.Made.changed {t : Sent} {i : ℕ} {k : Key} (hm : w.Made s₀ t i k) :
    CanonicalState.Changed (w.state s₀ i) t.owner.1 t.owner.2 t.next :=
  CanonicalState.changed_of_ne hm.apply hm.ne

namespace World.Sound

theorem move (h : w.Sound s₀) {c : ℕ} {p : Progress}
    (hp : ∀ call, w.calls[c]? = some call → w.Fits s₀ { call with progress := p }) :
    (w.move c p).Sound s₀ := by
  have hmem : ∀ call ∈ (w.move c p).calls, call ∈ w.calls ∨
      ∃ old, w.calls[c]? = some old ∧ call = { old with progress := p } := by
    intro call hcall
    obtain ⟨j,hj⟩ := List.mem_iff_getElem?.mp hcall
    simp only [World.move,List.getElem?_modify] at hj
    by_cases hcj : c = j
    · subst hcj
      cases ho : w.calls[c]? with
      | none => simp [ho] at hj
      | some old =>
        simp only [ho,if_true] at hj
        exact .inr ⟨old,rfl,(Option.some.inj hj).symm⟩
    · simp only [if_neg hcj,id_map'] at hj
      exact .inl (List.mem_of_getElem? hj)
  have hl : w.Later (w.move c p) :=
    ⟨List.prefix_refl _,List.prefix_refl _,fun _ s hs => ⟨s,hs,rfl,rfl,rfl⟩⟩
  refine ⟨h.length,h.current,h.value,h.revision,h.applied,hl.owned h.txns,?_,?_⟩
  · intro call hcall
    rcases hmem call hcall with hold | ⟨old,hold,rfl⟩
    · exact h.starts call hold
    · exact h.starts old (List.mem_of_getElem? hold)
  · intro call hcall
    rcases hmem call hcall with hold | ⟨old,hold,rfl⟩
    · exact hl.fits (h.calls call hold)
    · exact hl.fits (hp old hold)

/-- The key, its history and all transactions with it are as `w` has them, or later. -/
theorem later (h : w.Sound s₀) (hl : w.Later w') (hcalls : w'.calls = w.calls)
    (hlength : w'.log.length = w'.applied.length+1) (hcurrent : w'.At w'.applied.length w'.key)
    (hvalue : ∀ i k, w'.At i k → (w'.state s₀ i).encode = .ok k.value)
    (hrevision : ∀ i j k k', i < j → w'.At i k → w'.At j k' → k.revision < k'.revision)
    (happlied : ∀ i x, w'.applied[i]? = some x →
      (w'.state s₀ i).apply x.1 x.2 = .ok (w'.state s₀ (i+1)) ∧ w'.state s₀ (i+1) ≠ w'.state s₀ i)
    (htxns : ∀ t ∈ w'.txns, ∃ i k, w'.Made s₀ t i k) : w'.Sound s₀ :=
  ⟨hlength,hcurrent,hvalue,hrevision,happlied,htxns,
    fun c hc => (h.starts c (hcalls ▸ hc)).trans hl.length_le,
    fun c hc => hl.fits (h.calls c (hcalls ▸ hc))⟩

variable {i j : ℕ} {k : Key}

section Served

variable (h : w.Sound s₀)

include h

theorem sent {t : Sent} (ht : w.Made s₀ t i k) :
    World.Sound s₀ { w with txns := w.txns ++ [t] } := by
  have hl : w.Later { w with txns := w.txns ++ [t] } := by
    refine ⟨List.prefix_refl _,List.prefix_refl _,fun j s hs => ⟨s,?_,rfl,rfl,rfl⟩⟩
    exact List.getElem?_append_left (List.getElem?_eq_some_iff.mp hs).1 ▸ hs
  exact h.later hl rfl h.length h.current h.value h.revision h.applied
    (forall_mem_concat (hl.owned h.txns) ⟨i,k,hl.made ht⟩)

/-- Two values of the key with one revision are one. -/
theorem eq_of_revision {k' : Key} (hi : w.At i k) (hj : w.At j k')
    (hr : k.revision = k'.revision) : i = j := by
  rcases Nat.lt_trichotomy i j with hlt | heq | hlt
  · exact absurd hr (Nat.ne_of_lt (h.revision i j k k' hlt hi hj))
  · exact heq
  · exact absurd hr.symm (Nat.ne_of_lt (h.revision j i k' k hlt hj hi))

theorem succeed {t gap : ℕ} {s : Sent} (hm : w.Made s₀ s w.applied.length k)
    (hkept : ∀ (j : ℕ) (x : Sent), w.txns[j]? = some x →
      ∃ x' : Sent, (w.txns.set t { s with response := some .succeeded })[j]? = some x' ∧
        x'.owner = x.owner ∧ x'.start = x.start ∧ x'.next = x.next) :
    World.Sound s₀ { w with
      key := ⟨s.txn.put,w.key.revision+gap+1⟩
      txns := w.txns.set t { s with response := some .succeeded }
      log := w.log ++ [⟨s.txn.put,w.key.revision+gap+1⟩]
      applied := w.applied ++ [s.owner] } := by
  generalize hw' : (World.mk _ _ _ _ _) = w'
  have hkey : w'.key = ⟨s.txn.put,w.key.revision+gap+1⟩ := by rw [← hw']
  have hcalls : w'.calls = w.calls := by rw [← hw']
  have htxns : w'.txns = w.txns.set t { s with response := some .succeeded } := by rw [← hw']
  have hlog : w'.log = w.log ++ [w'.key] := by rw [← hw']
  have happ : w'.applied = w.applied ++ [s.owner] := by rw [← hw']
  have hlen : w'.applied.length = w.applied.length+1 := by rw [happ]; simp
  have hl : w.Later w' :=
    ⟨happ ▸ List.prefix_append _ _,hlog ▸ List.prefix_append _ _,htxns ▸ hkept⟩
  have hstate : w.state s₀ w.applied.length = s₀.run w.applied := by
    rw [World.state,List.take_length]
  have hnext : w'.state s₀ (w.applied.length+1) = s.next := by
    rw [World.state,← hlen,List.take_length,happ,CanonicalState.run_append,← hstate]
    simp [CanonicalState.step,hm.apply]
  have hat : ∀ i k, w'.At i k → w.At i k ∨ i = w.applied.length+1 ∧ k = w'.key := by
    intro i k hk
    have hi : i ≤ w.applied.length+1 := hlen ▸ hk.1
    have hlogk := hk.2
    rw [hlog] at hlogk
    rcases Nat.lt_or_ge i (w.applied.length+1) with hlt | hge
    · rw [List.getElem?_append_left (by rw [h.length]; exact hlt)] at hlogk
      exact .inl ⟨Nat.le_of_lt_succ hlt,hlogk⟩
    · obtain rfl := Nat.le_antisymm hi hge
      rw [List.getElem?_append_right (by rw [h.length]),h.length,Nat.sub_self] at hlogk
      exact .inr ⟨rfl,(Option.some.inj hlogk).symm⟩
  have hcurrent : w'.At w'.applied.length w'.key := by
    refine ⟨Nat.le_refl _,?_⟩
    rw [hlen,hlog,List.getElem?_append_right (by rw [h.length]),h.length,Nat.sub_self]
    rfl
  refine h.later hl hcalls (by rw [hlog,hlen]; simp [h.length]) hcurrent ?_ ?_ ?_ ?_
  · intro i k hk
    rcases hat i k hk with hk | ⟨rfl,rfl⟩
    · rw [hl.state hk.1]
      exact h.value i k hk
    · rw [hnext,hkey]
      exact hm.put
  · intro i j k k' hij hi hj
    rcases hat j k' hj with hj | ⟨rfl,rfl⟩
    · rcases hat i k hi with hi | ⟨rfl,-⟩
      · exact h.revision i j k k' hij hi hj
      · exact absurd hj.1 (by omega)
    · rcases hat i k hi with hi | ⟨rfl,-⟩
      · have hle : k.revision ≤ w.key.revision := by
          rcases Nat.lt_or_ge i w.applied.length with hlt | hge
          · exact (h.revision i _ k _ hlt hi h.current).le
          · obtain rfl := Nat.le_antisymm hi.1 hge
            exact (congrArg Key.revision (Option.some.inj (hi.2.symm.trans h.current.2))).le
        rw [hkey]
        exact Nat.lt_of_le_of_lt hle (by simp only; omega)
      · exact absurd hij (Nat.lt_irrefl _)
  · intro i x hx
    rw [happ] at hx
    rcases Nat.lt_or_ge i w.applied.length with hlt | hge
    · rw [List.getElem?_append_left hlt] at hx
      rw [hl.state (Nat.le_of_lt hlt),hl.state hlt]
      exact h.applied i x hx
    · rw [List.getElem?_append_right hge] at hx
      have hi : i = w.applied.length := by
        have := (List.getElem?_eq_some_iff.mp hx).1
        simp only [List.length_singleton] at this
        omega
      subst hi
      simp only [Nat.sub_self,List.getElem?_cons_zero,Option.some.injEq] at hx
      subst hx
      rw [hnext,hl.state (Nat.le_refl _)]
      exact ⟨hm.apply,hm.ne⟩
  · rw [htxns]
    refine forall_mem_set (hl.owned h.txns)
      ⟨_,k,{ hl.made hm with succeeded := fun _ => ?_, failed := fun k' hr => ?_ }⟩
    · rw [happ]
      simp
    · cases hr

theorem execute {t gap : ℕ} {s : Sent} (ht : w.txns[t]? = some s) :
    (w.execute t gap s).Sound s₀ := by
  obtain ⟨i,k,hm⟩ := h.txns s (List.mem_of_getElem? ht)
  have hlt : t < w.txns.length := (List.getElem?_eq_some_iff.mp ht).1
  have hkept : ∀ r (j : ℕ) (x : Sent), w.txns[j]? = some x →
      ∃ x' : Sent, (w.txns.set t { s with response := some r })[j]? = some x' ∧
        x'.owner = x.owner ∧ x'.start = x.start ∧ x'.next = x.next := by
    intro r j x hx
    by_cases hj : t = j
    · subst hj
      cases ht.symm.trans hx
      exact ⟨{ s with response := some r },List.getElem?_set_self hlt,rfl,rfl,rfl⟩
    · exact ⟨x,by rw [List.getElem?_set_ne hj,hx],rfl,rfl,rfl⟩
  unfold World.execute
  by_cases hk : s.txn.holds w.key = true
  · rw [if_pos hk]
    simp only [Txn.holds,Bool.and_eq_true,decide_eq_true_eq] at hk
    -- the revision is that of the last value, so the sender read the state there is
    obtain rfl : i = w.applied.length :=
      h.eq_of_revision hm.key h.current (hm.revision.symm.trans hk.1.symm)
    exact h.succeed hm (hkept _)
  · rw [if_neg hk]
    have hl : w.Later { w with txns := w.txns.set t { s with response := some (.failed w.key) } } :=
      ⟨List.prefix_refl _,List.prefix_refl _,hkept _⟩
    refine h.later hl rfl h.length h.current h.value h.revision h.applied (forall_mem_set (hl.owned h.txns) ?_)
    · -- the comparison failed, so the key has moved on
      refine ⟨i,k,{ hl.made hm with succeeded := fun hr => ?_, failed := fun k' hr => ?_ }⟩
      · cases hr
      · cases hr
        refine ⟨w.applied.length,?_,hl.version h.current⟩
        rcases Nat.lt_or_ge i w.applied.length with hi | hi
        · exact hi
        · have hlast : i = w.applied.length := Nat.le_antisymm hm.key.1 hi
          have hkey : k = w.key := Option.some.inj (hm.key.2.symm.trans (hlast ▸ h.current.2))
          simp [Txn.holds,hm.revision,hm.value,hkey] at hk

theorem done_of_read [StoredReader] {o : Options} (call : Call)
    {r : Except Failure Record} (hs : call.start ≤ i) (hk : w.At i k)
    (hr : decideRead o call.role call.request k = .answer r) :
    w.Fits s₀ { call with progress := .done r } := by
  have hv := h.value i k hk
  unfold World.Fits
  simp only
  split
  · trivial
  all_goals rename_i hp; cases hp
  · obtain ⟨rfl,ha | hrep⟩ := decideRead_ok hv hr
    · exact .inl ha
    · exact .inr ⟨i,hk.1,rfl,hrep⟩
  · exact ⟨i,hs,hk.1,.inl ⟨_,decideRead_conflict hv hr⟩⟩
  · trivial

theorem done_of_txn [StoredReader] {o : Options} (call : Call) {t : Sent} {r : Response}
    (ht : t ∈ w.txns) (howner : t.owner = (call.role,call.request)) (hstart : t.start = call.start)
    (hr : t.response = some r) :
    w.Fits s₀ { call with progress := .done (decideTxn o call.role call.request t.next r) } := by
  obtain ⟨i,k,hm⟩ := h.txns t ht
  have hchanged := hm.changed
  have happly := hm.apply
  have hbegan := hm.start
  rw [howner] at hchanged happly
  rw [hstart] at hbegan
  cases r with
  | succeeded =>
    have hi := hm.succeeded hr
    have hlt := (List.getElem?_eq_some_iff.mp hi).1
    obtain ⟨hnext,-⟩ := h.applied i _ hi
    have hstate : w.state s₀ (i+1) = t.next := Except.ok.inj (hnext.symm.trans hm.apply)
    refine .inr ⟨i+1,hlt,?_,?_⟩
    · rw [hstate]
    · rw [hstate]
      exact hchanged.repeated
  | failed k' =>
    obtain ⟨j,hij,hk'⟩ := hm.failed k' hr
    have hv := h.value j k' hk'
    unfold World.Fits
    simp only
    split
    · trivial
    · rename_i hp
      cases hp
    · rename_i hp
      cases hp
    · rename_i rec hp
      obtain ⟨rfl,ha | hrep⟩ := decideTxn_failed_ok hv (Progress.done.inj hp)
      · exact .inl ha
      · exact .inr ⟨j,hk'.1,rfl,hrep⟩
    · rename_i hp
      have hconflict := decideTxn_failed_conflict hv (Progress.done.inj hp)
      exact ⟨j,hbegan.trans hij.le,hk'.1,.inr ⟨hconflict,i,t.next,hbegan,hij,happly,hm.ne⟩⟩
    · trivial

end Served

variable [StoredReader] {o : Options}

theorem advance (h : w.Sound s₀) {c : ℕ} {call : Call} (hc : w.calls[c]? = some call) (m : Move) :
    (w.advance o c call m).Sound s₀ := by
  have hmem := List.mem_of_getElem? hc
  have hfits := h.calls call hmem
  have hstarts := h.starts call hmem
  have hmove : ∀ p, w.Fits s₀ { call with progress := p } → (w.move c p).Sound s₀ := by
    intro p hp
    refine h.move fun call' hc' => ?_
    cases hc.symm.trans hc'
    exact hp
  obtain ⟨role,q,start,p⟩ := call
  cases m with
  | range =>
    cases p with
    | loading n => exact hmove _ ⟨_,hstarts,h.current⟩
    | _ => exact h
  | rangeLost =>
    cases p with
    | loaded n k => exact hmove _ trivial
    | _ => exact h
  | rangeReply =>
    cases p with
    | loaded n k =>
      obtain ⟨i,hs,hk⟩ := hfits
      show (w.rangeReply o c ⟨role,q,start,.loaded n k⟩ n k).Sound s₀
      unfold World.rangeReply
      cases hd : decideRead o role q k with
      | answer r => exact hmove _ (h.done_of_read ⟨role,q,start,.loaded n k⟩ hs hk hd)
      | post txn next =>
        obtain ⟨hrev,hval,happly,hne,hput⟩ := decideRead_post (h.value i k hk) hd
        have hmade : w.Made s₀ ⟨txn,(role,q),start,next,none⟩ i k :=
          ⟨hs,hk,hrev,hval,happly,hne,hput,fun hr => (by cases hr),fun _ hr => (by cases hr)⟩
        refine (h.sent hmade).move fun call' hc' => ?_
        cases hc.symm.trans hc'
        exact ⟨_,List.getElem?_concat_length,rfl,rfl,rfl⟩
    | _ => exact h
  | txnReply =>
    cases p with
    | posted n t next =>
      obtain ⟨s,hs,howner,hstart,rfl⟩ := hfits
      unfold World.advance
      cases hr : s.response with
      | none => simpa only [hs,Option.bind_some,hr] using h
      | some r =>
        simp only [hs,Option.bind_some,hr]
        exact hmove _ (h.done_of_txn ⟨role,q,start,.posted n t s.next⟩
          (List.mem_of_getElem? hs) howner hstart hr)
    | _ => exact h
  | rpcFail e =>
    show (w.rpcFail o c e p).Sound s₀
    unfold World.rpcFail
    split
    · exact h
    · split
      · exact hmove _ trivial
      · exact hmove _ trivial
    · exact hmove _ trivial
  | expire =>
    cases p with
    | done r => exact h
    | _ => exact hmove _ trivial

theorem step (h : w.Sound s₀) (e : Event) : (w.step o e).Sound s₀ := by
  cases e with
  | invoke role q =>
    have hl : w.Later (w.step o (.invoke role q)) :=
      ⟨List.prefix_refl _,List.prefix_refl _,fun _ s hs => ⟨s,hs,rfl,rfl,rfl⟩⟩
    exact ⟨h.length,h.current,h.value,h.revision,h.applied,hl.owned h.txns,
      forall_mem_concat h.starts (Nat.le_refl _),forall_mem_concat (fun c hc => hl.fits (h.calls c hc)) trivial⟩
  | move c m =>
    cases hc : w.calls[c]? with
    | none => simpa only [World.step,hc] using h
    | some call => simpa only [World.step,hc] using h.advance hc m
  | execute t gap =>
    cases ht : w.txns[t]? with
    | none => simpa only [World.step,ht] using h
    | some s =>
      simp only [World.step,ht]
      split
      · exact h
      · exact h.execute ht

theorem run (h : w.Sound s₀) (es : List Event) : (w.run o es).Sound s₀ := by
  induction es generalizing w with
  | nil => exact h
  | cons e es ih => exact ih (h.step e)

omit [StoredReader]

theorem initial (hk : s₀.encode = .ok k.value) : (World.initial k).Sound s₀ where
  length := rfl
  current := ⟨Nat.le_refl _,rfl⟩
  value i k' h := by
    obtain ⟨hi,hl⟩ := h
    obtain rfl : i = 0 := Nat.le_zero.mp hi
    cases hl
    exact hk
  revision i j k' k'' hij hi hj := by
    have hj0 : j ≤ 0 := hj.1
    omega
  applied i x hx := by simp [World.initial] at hx
  txns t ht := by cases ht
  starts c hc := by cases hc
  calls c hc := by cases hc

theorem measure_lt (h : w.Sound s₀) (hij : i < j) (hj : j ≤ w.applied.length) :
    (w.state s₀ i).record.measure < (w.state s₀ j).record.measure := by
  induction j with
  | zero => omega
  | succ j ih =>
    obtain ⟨x,hx⟩ : ∃ x, w.applied[j]? = some x := ⟨_,List.getElem?_eq_getElem (by omega)⟩
    obtain ⟨happly,hne⟩ := h.applied j x hx
    have hstep := (CanonicalState.changed_of_ne happly hne).measure_lt
    rcases Nat.lt_or_ge i j with hlt | hge
    · exact (ih hlt (by omega)).trans hstep
    · obtain rfl : i = j := by omega
      exact hstep

theorem eq_of_record (h : w.Sound s₀) (hi : i ≤ w.applied.length) (hj : j ≤ w.applied.length)
    (hr : (w.state s₀ i).record = (w.state s₀ j).record) : i = j := by
  rcases Nat.lt_trichotomy i j with hlt | heq | hlt
  · exact absurd (congrArg Record.measure hr) (ne_of_lt (h.measure_lt hlt hj))
  · exact heq
  · exact absurd (congrArg Record.measure hr).symm (ne_of_lt (h.measure_lt hlt hi))

theorem changes_eq (h : w.Sound s₀) {n : ℕ} (hn : n ≤ w.applied.length) :
    s₀.changes (w.applied.take n) = w.applied.take n := by
  induction n with
  | zero => rfl
  | succ n ih =>
    obtain ⟨x,hx⟩ : ∃ x, w.applied[n]? = some x := ⟨_,List.getElem?_eq_getElem (by omega)⟩
    obtain ⟨happly,hne⟩ := h.applied n x hx
    rw [List.take_add_one,hx,Option.toList_some,CanonicalState.changes_concat,ih (by omega)]
    have hstep : (s₀.run (w.applied.take n)).step x = w.state s₀ (n+1) := by
      unfold CanonicalState.step
      rw [show s₀.run (w.applied.take n) = w.state s₀ n from rfl,happly]
    have hne' : w.state s₀ (n+1) ≠ s₀.run (w.applied.take n) := hne
    rw [hstep,if_neg hne']

end World.Sound

def World.Known (s₀ : CanonicalState) (w : World) (c : Call) : Prop :=
  ∃ i, i ≤ c.start ∧ c.request.expected = some (w.state s₀ i).record

def Call.Conflicted (c : Call) : Prop := ∃ m, c.progress = .done (.error (.refused (.WouldBlock m)))

namespace World.Sound

variable {c : Call}

theorem refused (h : w.Sound s₀) (hc : c ∈ w.calls) (hr : c.Conflicted) : w.Refused s₀ c := by
  obtain ⟨m,hm⟩ := hr
  have hf := h.calls c hc
  unfold World.Fits at hf
  rwa [hm] at hf

theorem applied_at (h : w.Sound s₀) {n i : ℕ} (hn : w.applied[n]? = some (c.role,c.request))
    (hi : i ≤ w.applied.length) (hx : c.request.expected = some (w.state s₀ i).record) : i = n := by
  obtain ⟨happly,hne⟩ := h.applied n _ hn
  have hexpected := (CanonicalState.changed_of_ne happly hne).expected
  exact h.eq_of_record hi (List.getElem?_eq_some_iff.mp hn).1.le (Option.some.inj (hx.symm.trans hexpected))

/-- No conflict is answered to the request that was applied last. -/
theorem last_not_refused (h : w.Sound s₀) (hc : c ∈ w.calls) (hr : c.Conflicted) (hk : w.Known s₀ c) :
    w.applied.getLast? ≠ some (c.role,c.request) := by
  intro hlast
  have hn : w.applied[w.applied.length-1]? = some (c.role,c.request) := by
    rwa [← List.getLast?_eq_getElem?]
  have hlt := (List.getElem?_eq_some_iff.mp hn).1
  obtain ⟨i,hi,hx⟩ := hk
  obtain rfl := h.applied_at hn (hi.trans (h.starts c hc)) hx
  obtain ⟨happly,hne⟩ := h.applied _ _ hn
  have hchanged := CanonicalState.changed_of_ne happly hne
  have hagain := hchanged.repeated.apply_eq hchanged.action hchanged.operation
  rw [Nat.sub_add_cancel (by omega)] at happly hagain
  obtain ⟨j,hs,hj,⟨m,hm⟩ | ⟨hno,i,next,hsi,hij,-⟩⟩ := h.refused hc hr
  · rcases Nat.lt_or_ge j w.applied.length with hlt' | hge
    · obtain rfl : j = w.applied.length-1 := by omega
      rw [hm] at happly
      cases happly
    · obtain rfl := Nat.le_antisymm hj hge
      rw [hm] at hagain
      cases hagain
  · obtain rfl : j = w.applied.length := by omega
    exact hno hagain

/-- A request that met a conflict before it was applied is not applied later. -/
theorem not_applied_later (h : w.Sound s₀) (h' : w'.Sound s₀) (hl : w.applied <+: w'.applied)
    (hc : c ∈ w.calls) (hr : c.Conflicted) (hk : w.Known s₀ c) (hno : (c.role,c.request) ∉ w.applied) :
    (c.role,c.request) ∉ w'.applied := by
  intro hmem
  obtain ⟨n,hn⟩ := List.mem_iff_getElem?.mp hmem
  have hstate : ∀ i ≤ w.applied.length, w'.state s₀ i = w.state s₀ i := by
    intro i hi
    obtain ⟨rest,hrest⟩ := hl
    rw [World.state,World.state,← hrest,List.take_append_of_le_length hi]
  have hle : w.applied.length ≤ n := by
    by_contra hlt
    obtain ⟨rest,hrest⟩ := hl
    rw [← hrest,List.getElem?_append_left (by omega)] at hn
    exact hno (List.mem_of_getElem? hn)
  obtain ⟨i,hi,hx⟩ := hk
  have hstart := hi.trans (h.starts c hc)
  rw [← hstate i hstart] at hx
  obtain rfl := h'.applied_at hn (hstart.trans hl.length_le) hx
  obtain ⟨happly,-⟩ := h'.applied _ _ hn
  obtain ⟨j,hs,hj,⟨m,hm⟩ | ⟨-,i',next,hsi,hij,-⟩⟩ := h.refused hc hr
  · obtain rfl : j = i := by omega
    rw [← hstate j hj,happly] at hm
    cases hm
  · omega

end World.Sound

/-- The record that the one application of the request made. -/
def World.Produced (s₀ : CanonicalState) (w : World) (role : Role) (q : Request) (r : Record) : Prop :=
  ∃ before after, w.applied = before ++ (role,q)::after ∧ r = (s₀.run (before ++ [(role,q)])).record

/-- No applied request has the digest of another one that was asked for. -/
def World.Distinct (w : World) : Prop :=
  ∀ x ∈ w.applied, ∀ c ∈ w.calls, digest requestDomain (requestText x.1 x.2) =
    digest requestDomain (requestText c.role c.request) → x = (c.role,c.request)

namespace World.Sound

variable {c : Call}

theorem produced (h : w.Sound s₀) {identity : Bytes16} (h₀ : CanonicalState.initial identity = .ok s₀)
    (hd : w.Distinct) (hc : c ∈ w.calls) (hq : c.request.action ≠ .Inspect) {r : Record}
    (hr : c.progress = .done (.ok r)) : w.Produced s₀ c.role c.request r := by
  have hf := h.calls c hc
  unfold World.Fits at hf
  rw [hr] at hf
  obtain ⟨i,hi,rfl,hrep⟩ := hf.resolve_left hq
  obtain ⟨hlast,-⟩ := (CanonicalState.traced h₀ (w.applied.take i)).lastChange_eq
    (fun x hx => hd x (List.mem_of_mem_take hx) c hc) hrep
  rw [CanonicalState.lastChange,h.changes_eq hi] at hlast
  obtain ⟨before,hbefore⟩ := List.getLast?_eq_some_iff.mp hlast
  refine ⟨before,w.applied.drop i,?_,?_⟩
  · rw [← List.singleton_append,← List.append_assoc,← hbefore,List.take_append_drop]
  · rw [World.state,hbefore]

end World.Sound

variable [StoredReader] {o : Options}

theorem World.applied_step (e : Event) : w.applied <+: (w.step o e).applied := by
  cases e with
  | invoke role q => exact List.prefix_refl _
  | move c m =>
    simp only [World.step]
    split
    · rename_i call _
      have hreply : ∀ n k, (w.rangeReply o c call n k).applied = w.applied := by
        intro n k
        unfold World.rangeReply
        split <;> rfl
      have hfail : ∀ e p, (w.rpcFail o c e p).applied = w.applied := by
        intro e p
        unfold World.rpcFail
        split
        · rfl
        · split <;> rfl
        · rfl
      suffices heq : (w.advance o c call m).applied = w.applied from heq ▸ List.prefix_refl _
      unfold World.advance
      split
      · split <;> rfl
      · split <;> rfl
      · split
        · exact hreply _ _
        · rfl
      · split
        · split <;> rfl
        · rfl
      · exact hfail _ _
      · split <;> rfl
    · exact List.prefix_refl _
  | execute t gap =>
    simp only [World.step]
    split
    · split
      · exact List.prefix_refl _
      · unfold World.execute
        split
        · exact List.prefix_append _ _
        · exact List.prefix_refl _
    · exact List.prefix_refl _

theorem World.applied_run (es : List Event) : w.applied <+: (w.run o es).applied := by
  induction es generalizing w with
  | nil => exact List.prefix_refl _
  | cons e es ih => exact (World.applied_step e).trans ih

/-- Operations over etcd count once. In every run the key has the state that the applied requests make
of the first one, each by a change, and no request is among them twice. What `handle` answers to a
request that is no inspection is the record its one application made, also through a client that
tries several frontends. A request made of a record the key had meets no conflict while it is the
last one applied, and after a conflict that found it not applied it is never applied. -/
theorem operations_count_once (o : Options) (identity : Bytes16) (s₀ : CanonicalState)
    (h₀ : CanonicalState.initial identity = .ok s₀) (k₀ : Key) (hk : s₀.encode = .ok k₀.value)
    (es : List Event) (w : World) (hw : w = (World.initial k₀).run o es) (hd : w.Distinct) :
    (s₀.run w.applied).encode = .ok w.key.value ∧ s₀.changes w.applied = w.applied ∧
    (w.applied.map Prod.snd).Nodup ∧
    (∀ c ∈ w.calls, c.request.action ≠ .Inspect → ∀ r, c.progress = .done (.ok r) →
      w.Produced s₀ c.role c.request r) ∧
    (∀ role q answers r, q.action ≠ .Inspect →
      (∀ x, some (.ok x) ∈ answers →
        ∃ c ∈ w.calls, c.role = role ∧ c.request = q ∧ c.progress = .done (.ok x)) →
      failover identity q answers = .ok r → w.Produced s₀ role q r) ∧
    (∀ c ∈ w.calls, c.Conflicted → w.Known s₀ c →
      w.applied.getLast? ≠ some (c.role,c.request) ∧
      ((c.role,c.request) ∉ w.applied → ∀ later, (c.role,c.request) ∉ (w.run o later).applied)) := by
  have h : w.Sound s₀ := hw ▸ (World.Sound.initial hk).run es
  have hchanges : s₀.changes w.applied = w.applied := by
    simpa only [List.take_length] using h.changes_eq (Nat.le_refl w.applied.length)
  refine ⟨?_,hchanges,?_,fun c hc hq r hr => h.produced h₀ hd hc hq hr,?_,?_⟩
  · have hvalue := h.value _ _ h.current
    rwa [World.state,List.take_length] at hvalue
  · rw [← hchanges]
    exact CanonicalState.nodup_changes
  · intro role q answers r hq hanswers hr
    obtain ⟨c,hc,rfl,rfl,hdone⟩ := hanswers _ (failover_ok hr)
    exact h.produced h₀ hd hc hq hdone
  · intro c hc hr hknown
    exact ⟨h.last_not_refused hc hr hknown,
      fun hno later => h.not_applied_later (h.run later) (World.applied_run later) hc hr hknown hno⟩

end Worlds

section Sample

/-! A volume is claimed and released; the release is asked for before the claim has run. -/

open CanonicalState

local instance : Sha256 := ⟨fun bs => Vector.replicate 32 (bs.foldl (fun n b => 3*n+b) 1)⟩

local instance : StoredReader :=
  ⟨fun body => [sampleStart.stored,sampleClaimed.stored].find? fun s => storedJson s = body⟩

def sampleOptions : Options := ⟨sampleIdentity,1⟩
def sampleRelease : Role × Request := sampleAsk 5 sampleClaimed .Release

def sampleKey : Key :=
  match sampleStart.encode with
  | .ok bs => ⟨bs,1⟩
  | .error _ => ⟨[],1⟩

/-- The claim runs and is answered, and a second frontend answers it again. -/
def sampleClaiming : List Event :=
  [.invoke sampleClaim.1 sampleClaim.2,.invoke sampleClaim.1 sampleClaim.2,.move 0 .range,
    .move 0 .rangeReply,.execute 0 0,.move 1 .range,.move 0 .txnReply,.move 1 .rangeReply]

set_option maxRecDepth 100000 in
theorem operations_count_once_claimed : sampleStart.encode = .ok sampleKey.value ∧
    ((World.initial sampleKey).run sampleOptions sampleClaiming).applied = [sampleClaim] ∧
    ∃ c ∈ ((World.initial sampleKey).run sampleOptions sampleClaiming).calls,
      c.progress = .done (.ok sampleClaimed.record) ∧
      World.Produced sampleStart ((World.initial sampleKey).run sampleOptions sampleClaiming)
        c.role c.request sampleClaimed.record := by
  have hk : sampleStart.encode = .ok sampleKey.value := by decide +kernel
  have happlied : ((World.initial sampleKey).run sampleOptions sampleClaiming).applied = [sampleClaim] := by
    decide +kernel
  have hcalls : ((World.initial sampleKey).run sampleOptions sampleClaiming).calls =
      List.replicate 2 ⟨sampleClaim.1,sampleClaim.2,0,.done (.ok sampleClaimed.record)⟩ := by
    decide +kernel
  have hd : World.Distinct ((World.initial sampleKey).run sampleOptions sampleClaiming) := by
    intro x hx c hc _
    rw [happlied,List.mem_singleton] at hx
    rw [hcalls] at hc
    rw [List.eq_of_mem_replicate hc,hx]
  have h := operations_count_once sampleOptions sampleIdentity sampleStart rfl sampleKey hk sampleClaiming
    _ rfl hd
  have hmem : (⟨sampleClaim.1,sampleClaim.2,0,.done (.ok sampleClaimed.record)⟩ : Call) ∈
      ((World.initial sampleKey).run sampleOptions sampleClaiming).calls := by
    rw [hcalls]
    exact List.mem_cons_self
  exact ⟨hk,happlied,_,hmem,rfl,h.2.2.2.1 _ hmem (by decide) _ rfl⟩

/-- The release is asked for twice. The first frontend reads the key before the claim runs, the
second one after it. -/
def sampleEarly : World :=
  (World.initial sampleKey).run sampleOptions
    [.invoke sampleClaim.1 sampleClaim.2,.invoke sampleRelease.1 sampleRelease.2,
      .invoke sampleRelease.1 sampleRelease.2,.move 1 .range,.move 0 .range,.move 0 .rangeReply,
      .execute 0 0,.move 2 .range,.move 2 .rangeReply]

def sampleRefused : Call := ⟨sampleRelease.1,sampleRelease.2,0,.done (.error (.refused conflict))⟩

set_option maxRecDepth 100000 in
/-- A conflict found before the request's record was there does not settle the request. The first
frontend answers it, then the second one's transaction applies the request; or the transaction
runs first, and the conflict is answered to the last request applied. -/
theorem early_conflict_applied_later :
    sampleRefused ∈ (sampleEarly.run sampleOptions [.move 1 .rangeReply]).calls ∧
    sampleRelease ∉ (sampleEarly.run sampleOptions [.move 1 .rangeReply]).applied ∧
    (sampleEarly.run sampleOptions [.move 1 .rangeReply,.execute 1 0]).applied.getLast? =
      some sampleRelease ∧
    (sampleEarly.run sampleOptions [.execute 1 0]).applied.getLast? = some sampleRelease ∧
    sampleRefused ∉ (sampleEarly.run sampleOptions [.execute 1 0]).calls ∧
    sampleRefused ∈ (sampleEarly.run sampleOptions [.execute 1 0,.move 1 .rangeReply]).calls := by
  decide +kernel

end Sample
end Etcd
end Maki
