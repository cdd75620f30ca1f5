import Mathlib
import Maki.RemoteWitness

/-! Histories of the remote authority. Every accepted request that changes the record moves a
measure up, so records do not recur and a request counts at most once; and each change comes from
the capability of the session it belongs to. -/
namespace Maki
namespace RemoteWitness

section Inversion

variable {β : Type} {c : Prop} [Decidable c] {e : WitnessError}

theorem refuse_ok {u : Unit} (h : refuse c e = .ok u) : ¬ c := by
  unfold refuse at h
  split at h
  · cases h
  · assumption

theorem refuse_bind {f : Unit → Except WitnessError β} {b : β} (h : (refuse c e >>= f) = .ok b) :
    ¬ c ∧ f () = .ok b := by
  obtain ⟨⟨⟩,hc,hf⟩ := bind_eq_ok h
  exact ⟨refuse_ok hc,hf⟩

theorem increment_ok {value maximum n : ℕ} (h : increment value maximum = .ok n) :
    n = value+1 ∧ n ≤ maximum := by
  unfold increment at h
  split at h
  · cases h
    exact ⟨rfl,by assumption⟩
  · cases h

end Inversion

namespace Record

def generation (r : Record) : ℕ := (r.current.map fun x => x.anchor.generation).getD 0

def epoch (r : Record) : ℕ := (r.current.map fun x => x.epoch).getD 0

end Record

/-- The order in which a session goes through its phases. -/
def Phase.rank : Phase → ℕ
  | .Claimed | .RestoreClaimed => 0
  | .Active => 1
  | .Released => 2

def Record.measure (r : Record) : ℕ ×ₗ ℕ ×ₗ ℕ := toLex (r.fence,toLex (r.phase.rank,r.generation))

/-- Every way in which a request can change the record, apart from the operation it remembers. -/
inductive Moves (role : Role) (op : Bytes16) (r : Record) : Action → Record → Prop where
  | claim (hphase : r.phase = .Released) (hfence : r.fence+1 ≤ u64Max) :
      Moves role op r .Claim
        { r with restoreSource := none, phase := .Claimed, fence := r.fence+1, session := op }
  | takeover (hrole : role = .Admin) (hfence : r.fence+1 ≤ u64Max) :
      Moves role op r .Takeover
        { r with restoreSource := none, phase := .Claimed, fence := r.fence+1, session := op }
  | recover (hrole : role = .Admin) (hnone : r.current = none) (hfence : r.fence+1 ≤ u64Max) :
      Moves role op r .RecoverEnrollment
        { r with restoreSource := none, phase := .Claimed, fence := r.fence+1, session := op }
  | restore (source : Descriptor) (hrole : role = .Admin) (hfence : r.fence+1 ≤ u64Max) :
      Moves role op r (.ClaimRestore source)
        { r with restoreSource := some source, phase := .RestoreClaimed, fence := r.fence+1, session := op }
  | activate (x : Descriptor) (hphase : r.phase = .Claimed) (hns : x.ns = namespaceName r.fence r.session)
      (hkeep : x.anchor.generation = r.generation ∧ x.epoch = r.epoch) :
      Moves role op r (.Activate x) { r with current := some x, restoreSource := none, phase := .Active }
  | activateRestored (x : Descriptor) (hphase : r.phase = .RestoreClaimed) (hrole : role = .Admin)
      (hns : x.ns = namespaceName r.fence r.session)
      (hstep : x.anchor.generation = r.generation+1 ∧ x.epoch = r.epoch+1) :
      Moves role op r (.Activate x) { r with current := some x, restoreSource := none, phase := .Active }
  | advance (anchor : Anchor) (current : Descriptor) (hphase : r.phase = .Active)
      (hcurrent : r.current = some current) (hstep : anchor.generation = current.anchor.generation+1) :
      Moves role op r (.Advance anchor) { r with current := some { current with anchor } }
  | release (hphase : r.phase ≠ .Released) (hrole : r.phase = .RestoreClaimed → role = .Admin) :
      Moves role op r .Release { r with phase := .Released, restoreSource := none }

section Moves

variable {role : Role} {r r' : Record} {q : Request} {x : Descriptor} {anchor : Anchor}

theorem install_moves (h : install r role q = .ok r') (hq : q.action.installsSession = true) :
    Moves role q.operationId r q.action r' := by
  unfold install at h
  obtain ⟨hclaim,h⟩ := refuse_bind h
  obtain ⟨hrole,h⟩ := refuse_bind h
  obtain ⟨-,h⟩ := refuse_bind h
  obtain ⟨hrecover,h⟩ := refuse_bind h
  obtain ⟨next,hnext,h⟩ := bind_eq_ok h
  obtain ⟨fence,hfence,h⟩ := bind_eq_ok h
  cases h
  obtain ⟨rfl,hmax⟩ := increment_ok hfence
  have hadmin : q.action ≠ .Claim → role = .Admin := fun hne => by
    by_contra hr
    exact hrole ⟨hne,hr⟩
  cases ha : q.action with
  | Claim =>
    simp only [ha,claimed] at hnext hclaim
    cases hnext
    exact .claim (by simpa using hclaim) hmax
  | Takeover =>
    simp only [ha,claimed] at hnext
    cases hnext
    exact .takeover (hadmin (by simp [ha])) hmax
  | RecoverEnrollment =>
    simp only [ha,claimed] at hnext hrecover
    cases hnext
    refine .recover (hadmin (by simp [ha])) ?_ hmax
    by_contra hc
    exact hrecover ⟨trivial,.inl (Option.isSome_iff_ne_none.mpr hc)⟩
  | ClaimRestore source =>
    simp only [ha,claimed] at hnext
    obtain ⟨current,-,hnext⟩ := bind_eq_ok hnext
    obtain ⟨_,-,hnext⟩ := bind_eq_ok hnext
    obtain ⟨_,-,hnext⟩ := bind_eq_ok hnext
    cases hnext
    exact .restore source (hadmin (by simp [ha])) hmax
  | Inspect => simp [ha,Action.installsSession] at hq
  | Activate x => simp [ha,Action.installsSession] at hq
  | Advance anchor => simp [ha,Action.installsSession] at hq
  | Release => simp [ha,Action.installsSession] at hq

theorem activate_moves {op : Bytes16} (h : activate r role x = .ok r') :
    Moves role op r (.Activate x) r' := by
  unfold activate at h
  obtain ⟨_,-,h⟩ := bind_eq_ok h
  obtain ⟨hplace,h⟩ := refuse_bind h
  obtain ⟨_,hcheck,h⟩ := bind_eq_ok h
  cases h
  have hns : x.ns = namespaceName r.fence r.session := by
    by_contra hc
    exact hplace (.inr hc)
  unfold checkActivation at hcheck
  cases hphase : r.phase with
  | Released => simp only [hphase,reduceCtorEq] at hcheck
  | Active => simp only [hphase,reduceCtorEq] at hcheck
  | Claimed =>
    simp only [hphase] at hcheck
    refine .activate x hphase hns ?_
    cases hcurrent : r.current with
    | none =>
      simp only [hcurrent] at hcheck
      have hzero := refuse_ok hcheck
      simp only [Record.generation,Record.epoch,hcurrent,Option.map_none,Option.getD_none]
      omega
    | some current =>
      simp only [hcurrent] at hcheck
      have hsame := refuse_ok hcheck
      rw [not_or,not_not,not_not] at hsame
      simp only [Record.generation,Record.epoch,hcurrent,Option.map_some,Option.getD_some,hsame,and_self]
  | RestoreClaimed =>
    simp only [hphase] at hcheck
    obtain ⟨hrole,hcheck⟩ := refuse_bind hcheck
    cases hcurrent : r.current with
    | none => simp only [hcurrent,reduceCtorEq] at hcheck
    | some current =>
      simp only [hcurrent] at hcheck
      obtain ⟨generation,hgen,hcheck⟩ := bind_eq_ok hcheck
      obtain ⟨hx,hcheck⟩ := refuse_bind hcheck
      obtain ⟨epoch,hepoch,hcheck⟩ := bind_eq_ok hcheck
      have hy := refuse_ok hcheck
      refine .activateRestored x hphase (not_not.mp hrole) hns ?_
      simp only [Record.generation,Record.epoch,hcurrent,Option.map_some,Option.getD_some]
      exact ⟨(not_not.mp hx).trans (increment_ok hgen).1,(not_not.mp hy).trans (increment_ok hepoch).1⟩

theorem advance_moves {op : Bytes16} (h : advance r anchor = .ok r') :
    Moves role op r (.Advance anchor) r' := by
  unfold advance at h
  obtain ⟨hphase,h⟩ := refuse_bind h
  cases hcurrent : r.current with
  | none => simp only [hcurrent,reduceCtorEq] at h
  | some current =>
    simp only [hcurrent] at h
    obtain ⟨-,h⟩ := refuse_bind h
    obtain ⟨generation,hgen,h⟩ := bind_eq_ok h
    obtain ⟨hx,h⟩ := refuse_bind h
    cases h
    exact .advance anchor current (not_not.mp hphase) hcurrent
      ((not_not.mp hx).trans (increment_ok hgen).1)

theorem release_moves {op : Bytes16} (h : release r role = .ok r') : Moves role op r .Release r' := by
  unfold release at h
  obtain ⟨hphase,h⟩ := refuse_bind h
  obtain ⟨hrole,h⟩ := refuse_bind h
  cases h
  refine .release hphase fun hp => ?_
  by_contra hr
  exact hrole ⟨hp,hr⟩

theorem transition_moves (h : transition r role q = .ok r') :
    Moves role q.operationId r q.action r' := by
  unfold transition at h
  cases ha : q.action with
  | Inspect => simp only [ha,reduceCtorEq] at h
  | Claim => exact ha ▸ install_moves (by simpa only [ha] using h) (by rw [ha]; rfl)
  | Takeover => exact ha ▸ install_moves (by simpa only [ha] using h) (by rw [ha]; rfl)
  | RecoverEnrollment => exact ha ▸ install_moves (by simpa only [ha] using h) (by rw [ha]; rfl)
  | ClaimRestore source => exact ha ▸ install_moves (by simpa only [ha] using h) (by rw [ha]; rfl)
  | Activate x => exact activate_moves (by simpa only [ha] using h)
  | Advance anchor => exact advance_moves (by simpa only [ha] using h)
  | Release => exact release_moves (by simpa only [ha] using h)

def Action.advances (a : Action) (phase : Phase) : Bool :=
  match a with
  | .Advance _ => true
  | .Activate _ => phase = .RestoreClaimed
  | _ => false

def Action.restores (a : Action) (phase : Phase) : Bool :=
  match a with
  | .Activate _ => phase = .RestoreClaimed
  | _ => false

variable {op : Bytes16} {a : Action}

section Moves

variable (h : Moves role op r a r')

include h

theorem Moves.counters :
    r'.generation = r.generation+(a.advances r.phase).toNat ∧
      r'.epoch = r.epoch+(a.restores r.phase).toNat ∧
      r'.fence = r.fence+a.installsSession.toNat := by
  cases h with
  | claim => exact ⟨rfl,rfl,rfl⟩
  | takeover => exact ⟨rfl,rfl,rfl⟩
  | recover => exact ⟨rfl,rfl,rfl⟩
  | restore => exact ⟨rfl,rfl,rfl⟩
  | activate x hphase _ hkeep =>
    simp only [Action.advances,Action.restores,hphase]
    exact ⟨hkeep.1,hkeep.2,rfl⟩
  | activateRestored x hphase _ _ hstep =>
    simp only [Action.advances,Action.restores,hphase]
    exact ⟨hstep.1,hstep.2,rfl⟩
  | advance anchor current _ hcurrent hstep =>
    simp only [Record.generation,Record.epoch,hcurrent,Option.map_some,Option.getD_some]
    exact ⟨hstep,rfl,rfl⟩
  | release => exact ⟨rfl,rfl,rfl⟩

theorem Moves.measure_lt : r.measure < r'.measure := by
  have hup : ∀ {p p' : Record}, p'.fence = p.fence+1 → p.measure < p'.measure := by
    intro p p' hf
    exact Prod.Lex.toLex_lt_toLex.mpr (.inl (by simp [hf]))
  have hrank : ∀ {p p' : Record}, p'.fence = p.fence → p.phase.rank < p'.phase.rank →
      p.measure < p'.measure := by
    intro p p' hf hr
    exact Prod.Lex.toLex_lt_toLex.mpr (.inr ⟨hf.symm,Prod.Lex.toLex_lt_toLex.mpr (.inl hr)⟩)
  cases h with
  | claim => exact hup rfl
  | takeover => exact hup rfl
  | recover => exact hup rfl
  | restore => exact hup rfl
  | activate x hphase => exact hrank rfl (by simp [hphase,Phase.rank])
  | activateRestored x hphase => exact hrank rfl (by simp [hphase,Phase.rank])
  | advance anchor current hphase hcurrent hstep =>
    refine Prod.Lex.toLex_lt_toLex.mpr (.inr ⟨rfl,Prod.Lex.toLex_lt_toLex.mpr (.inr ⟨rfl,?_⟩)⟩)
    simp only [Record.generation,hcurrent,Option.map_some,Option.getD_some]
    omega
  | release hphase =>
    refine hrank rfl ?_
    cases hp : r.phase <;> simp_all [Phase.rank]

/-- Only a new session has another fence, and it stays representable. -/
theorem Moves.fence_le (hr : r.fence ≤ u64Max) : r'.fence ≤ u64Max := by
  cases h with
  | claim _ hf => exact hf
  | takeover _ hf => exact hf
  | recover _ _ hf => exact hf
  | restore _ _ hf => exact hf
  | activate => exact hr
  | activateRestored => exact hr
  | advance => exact hr
  | release => exact hr

/-- Only a new session leaves the initial record. -/
theorem Moves.fence_ne_zero (hr : r.fence = 0 → r.phase = .Released) :
    r'.fence ≠ 0 := by
  cases h with
  | claim => exact Nat.succ_ne_zero _
  | takeover => exact Nat.succ_ne_zero _
  | recover => exact Nat.succ_ne_zero _
  | restore => exact Nat.succ_ne_zero _
  | activate x hp => exact fun hz => absurd (hp.symm.trans (hr hz)) (by simp)
  | activateRestored x hp => exact fun hz => absurd (hp.symm.trans (hr hz)) (by simp)
  | advance _ _ hp => exact fun hz => absurd (hp.symm.trans (hr hz)) (by simp)
  | release hp => exact fun hz => hp (hr hz)

end Moves

end Moves

theorem mismatch_eq_zero {a b : Bytes32} (h : mismatch a b = 0) : a = b := by
  have hfold : ∀ (ps : List (UInt8 × UInt8)) (start : UInt8),
      ps.foldl (fun difference p => difference ||| (p.1 ^^^ p.2)) start = 0 →
        start = 0 ∧ ∀ p ∈ ps, p.1 = p.2 := by
    intro ps
    induction ps with
    | nil => exact fun start hs => ⟨hs,by simp⟩
    | cons p ps ih =>
      intro start hs
      obtain ⟨hstart,hrest⟩ := ih _ hs
      obtain ⟨hzero,hxor⟩ := UInt8.or_eq_zero_iff.mp hstart
      exact ⟨hzero,List.forall_mem_cons.mpr ⟨UInt8.xor_eq_zero_iff.mp hxor,hrest⟩⟩
  have hall := (hfold _ 0 h).2
  apply Vector.toList_inj.mp
  have hlen : a.toList.length = b.toList.length := by simp
  apply List.ext_getElem hlen
  intro i h₁ h₂
  have hzip : (a.toList[i],b.toList[i]) ∈ a.toList.zip b.toList := by
    have hi : i < (a.toList.zip b.toList).length := by simpa using h₁
    have hget : (a.toList.zip b.toList)[i] = (a.toList[i],b.toList[i]) := List.getElem_zip
    exact hget ▸ List.getElem_mem hi
  exact hall _ hzip

end RemoteWitness

namespace CanonicalState
open RemoteWitness

section Apply

variable [Sha256] {s s' : CanonicalState} {role : Role} {q : Request}

structure Changed (s : CanonicalState) (role : Role) (q : Request) (s' : CanonicalState) : Prop where
  action : q.action ≠ .Inspect
  operation : q.operationId ≠ nil16
  fresh : q.operationId ≠ s.record.lastOperation
  expected : q.expected = some s.record
  hash : ∃ h, requestHash role q = .ok h ∧ s'.stored.lastRequestHash = some h
  authorization : ∃ a h, q.authorization = some a ∧ authorizationHash a = .ok h ∧
    s'.stored.sessionAuthorizationHash = some h ∧
    (q.action.installsSession = false → s.stored.sessionAuthorizationHash = some h)
  moves : ∃ r, Moves role q.operationId s.record q.action r ∧
    s'.record = { r with lastOperation := q.operationId }
  valid : s'.record.validate = .ok ()
  format : s'.stored.format = 2

structure Repeated (s : CanonicalState) (role : Role) (q : Request) : Prop where
  last : q.operationId = s.record.lastOperation
  hash : ∃ h, requestHash role q = .ok h ∧ s.stored.lastRequestHash = some h

theorem change_ok {h : Bytes32} (hh : requestHash role q = .ok h) (hq : q.action ≠ .Inspect)
    (hop : q.operationId ≠ nil16) (hfresh : q.operationId ≠ s.record.lastOperation)
    (hs : s.change role q h = .ok s') : Changed s role q s' := by
  unfold change at hs
  obtain ⟨hexpected,hs⟩ := refuse_bind hs
  cases ha : q.authorization with
  | none => simp only [ha,reduceCtorEq] at hs
  | some a =>
    simp only [ha] at hs
    obtain ⟨authorization,hauth,hs⟩ := bind_eq_ok hs
    obtain ⟨_,hcheck,hs⟩ := bind_eq_ok hs
    obtain ⟨next,hnext,hs⟩ := bind_eq_ok hs
    obtain ⟨_,hvalid,hs⟩ := bind_eq_ok hs
    cases hs
    have hkept : q.action.installsSession = false →
        s.stored.sessionAuthorizationHash = some authorization := by
      intro hinst
      simp only [checkAuthorization,hinst,Bool.false_eq_true,if_false] at hcheck
      cases hold : s.stored.sessionAuthorizationHash with
      | none => simp only [hold,reduceCtorEq] at hcheck
      | some expected =>
        simp only [hold] at hcheck
        rw [mismatch_eq_zero (not_not.mp (refuse_ok hcheck))]
    refine ⟨hq,hop,hfresh,not_not.mp hexpected,⟨h,hh,rfl⟩,⟨a,authorization,ha,hauth,?_,hkept⟩,
      ⟨next,transition_moves hnext,rfl⟩,hvalid,rfl⟩
    by_cases hinst : q.action.installsSession = true
    · simp only [if_pos hinst]
    · simp only [if_neg hinst]
      exact hkept (by simpa using hinst)

theorem apply_cases (h : s.apply role q = .ok s') :
    (s' = s ∧ (q.action = .Inspect ∨ Repeated s role q)) ∨ Changed s role q s' := by
  unfold apply at h
  by_cases hq : q.action = .Inspect
  · rw [if_pos hq] at h
    unfold inspect at h
    obtain ⟨-,h⟩ := refuse_bind h
    obtain ⟨-,h⟩ := refuse_bind h
    cases h
    exact .inl ⟨rfl,.inl hq⟩
  rw [if_neg hq] at h
  obtain ⟨hop,h⟩ := refuse_bind h
  obtain ⟨hash,hhash,h⟩ := bind_eq_ok h
  by_cases hlast : q.operationId = s.record.lastOperation
  · rw [if_pos hlast] at h
    by_cases hsame : s.stored.lastRequestHash = some hash
    · rw [if_pos hsame] at h
      cases h
      exact .inl ⟨rfl,.inr ⟨hlast,hash,hhash,hsame⟩⟩
    · rw [if_neg hsame] at h
      cases h
  · rw [if_neg hlast] at h
    exact .inr (change_ok hhash hq hop hlast h)

theorem Changed.measure_lt (h : Changed s role q s') : s.record.measure < s'.record.measure := by
  obtain ⟨r,hmoves,hr⟩ := h.moves
  have hsame : s'.record.measure = r.measure := by rw [hr]; rfl
  rw [hsame]
  exact hmoves.measure_lt

theorem changed_of_ne (h : s.apply role q = .ok s') (hne : s' ≠ s) : Changed s role q s' :=
  (apply_cases h).resolve_left fun hs => hne hs.1

end Apply

section Run

variable [Sha256]

/-- One request: a rejected one leaves the state as it was. -/
def step (s : CanonicalState) (x : Role × Request) : CanonicalState :=
  match s.apply x.1 x.2 with
  | .ok s' => s'
  | .error _ => s

def run (s : CanonicalState) (xs : List (Role × Request)) : CanonicalState := xs.foldl step s

def changes : CanonicalState → List (Role × Request) → List (Role × Request)
  | _, [] => []
  | s, x::xs => if s.step x = s then changes s xs else x::changes (s.step x) xs

variable {s : CanonicalState} {x : Role × Request} {xs ys : List (Role × Request)}

@[simp] theorem run_nil : s.run [] = s := rfl
@[simp] theorem run_cons : s.run (x::xs) = (s.step x).run xs := rfl
theorem run_append : s.run (xs ++ ys) = (s.run xs).run ys := List.foldl_append

theorem step_cases : s.step x = s ∨ Changed s x.1 x.2 (s.step x) := by
  unfold step
  cases h : s.apply x.1 x.2 with
  | error e => exact .inl rfl
  | ok s' =>
    by_cases hne : s' = s
    · exact .inl hne
    · exact .inr (changed_of_ne h hne)

theorem changed_of_step_ne (h : s.step x ≠ s) : Changed s x.1 x.2 (s.step x) := step_cases.resolve_left h

/-- What holds at first and survives every change holds in every state of a run. -/
theorem run_induction {P : CanonicalState → Prop} (h₀ : P s)
    (hstep : ∀ s role q s', P s → Changed s role q s' → P s') : P (s.run xs) := by
  induction xs generalizing s with
  | nil => exact h₀
  | cons x xs ih =>
    refine ih ?_
    rcases step_cases (s := s) (x := x) with h | h
    · exact h.symm ▸ h₀
    · exact hstep s x.1 x.2 _ h₀ h

theorem measure_run_le : s.record.measure ≤ (s.run xs).record.measure :=
  run_induction (P := fun s' => s.record.measure ≤ s'.record.measure) (le_refl _)
    fun _ _ _ _ hle h => hle.trans h.measure_lt.le

theorem run_eq_of_measure_le (h : (s.run xs).record.measure ≤ s.record.measure) : s.run xs = s := by
  induction xs generalizing s with
  | nil => rfl
  | cons x xs ih =>
    rcases step_cases (s := s) (x := x) with hs | hs
    · rw [run_cons,hs] at h ⊢
      exact ih h
    · have hle : (s.step x).record.measure ≤ s.record.measure := measure_run_le.trans h
      exact absurd hs.measure_lt (not_lt.mpr hle)

theorem expected_of_mem_changes (h : x ∈ changes s xs) :
    ∃ r, x.2.expected = some r ∧ s.record.measure ≤ r.measure := by
  induction xs generalizing s with
  | nil => cases h
  | cons y ys ih =>
    unfold changes at h
    by_cases hy : s.step y = s
    · rw [if_pos hy] at h
      exact ih h
    · rw [if_neg hy] at h
      have hchanged := changed_of_step_ne hy
      rcases List.mem_cons.mp h with rfl | h
      · exact ⟨s.record,hchanged.expected,le_refl _⟩
      · obtain ⟨r,hr,hle⟩ := ih h
        exact ⟨r,hr,hchanged.measure_lt.le.trans hle⟩

theorem nodup_changes : ((changes s xs).map Prod.snd).Nodup := by
  induction xs generalizing s with
  | nil => exact List.nodup_nil
  | cons x xs ih =>
    unfold changes
    by_cases hx : s.step x = s
    · rw [if_pos hx]
      exact ih
    · rw [if_neg hx,List.map_cons,List.nodup_cons]
      refine ⟨fun hmem => ?_,ih⟩
      have hchanged := changed_of_step_ne hx
      obtain ⟨y,hy,heq⟩ := List.mem_map.mp hmem
      obtain ⟨r,hr,hle⟩ := expected_of_mem_changes hy
      rw [heq,hchanged.expected] at hr
      cases hr
      exact absurd hchanged.measure_lt (not_lt.mpr hle)

end Run
end CanonicalState

namespace RemoteWitness

section Size

variable {x : Descriptor} {r : Record} {s : Stored}

theorem validate_descriptor (h : x.validate = .ok ()) :
    x.anchor.generation ≤ maxGeneration ∧ x.epoch ≤ maxGeneration ∧ x.ns.length = 56 := by
  unfold Descriptor.validate at h
  obtain ⟨hcounters,h⟩ := refuse_bind h
  obtain ⟨fence,hfence,-⟩ := bind_eq_ok h
  unfold namespaceFence at hfence
  obtain ⟨hname,-⟩ := refuse_bind hfence
  rw [not_or,not_or] at hcounters
  rw [not_or,not_not] at hname
  omega

theorem length_anchorJson_le {x : Anchor} (h : x.generation ≤ maxGeneration) :
    (anchorJson x).length ≤ 482 := by
  have hid := Json.length_bytes_le x.identity.toList
  have hroot := Json.length_bytes_le x.root.toList
  have hgen := Json.length_num_u64 (n := x.generation) (by simp only [maxGeneration,i64Max] at h; omega)
  simp only [Vector.length_toList] at hid hroot
  refine (Json.length_obj_le (k := 159) ?_).trans (by simp)
  simp only [List.mem_cons,List.not_mem_nil,or_false]
  rintro _ (rfl | rfl | rfl) <;> exact Json.length_field_le (by decide) (by omega)

theorem length_descriptorJson_le (h : x.validate = .ok ()) : (descriptorJson x).length ≤ 1538 := by
  obtain ⟨hgen,hepoch,hns⟩ := validate_descriptor h
  have hanchor := length_anchorJson_le hgen
  have hnum := Json.length_num_u64 (n := x.epoch) (by simp only [maxGeneration,i64Max] at hepoch; omega)
  have hstr := Json.length_str_le x.ns
  refine (Json.length_obj_le (k := 511) ?_).trans (by simp)
  simp only [List.mem_cons,List.not_mem_nil,or_false]
  rintro _ (rfl | rfl | rfl) <;> exact Json.length_field_le (by decide) (by omega)

theorem validate_record (h : r.validate = .ok ()) :
    (∀ x, r.current = some x → x.validate = .ok ()) ∧
      ∀ x, r.restoreSource = some x → x.validate = .ok () := by
  unfold Record.validate at h
  obtain ⟨-,h⟩ := refuse_bind h
  by_cases hf : r.fence = 0
  · rw [if_pos hf] at h
    have hinit := refuse_ok h
    simp only [not_or,Bool.not_eq_true,Option.isSome_eq_false_iff,Option.isNone_iff_eq_none] at hinit
    simp [hinit]
  rw [if_neg hf] at h
  obtain ⟨-,h⟩ := refuse_bind h
  obtain ⟨_,hcurrent,hrestore⟩ := bind_eq_ok h
  constructor
  · intro x hx
    simp only [Record.checkCurrent,hx] at hcurrent
    obtain ⟨_,hvalid,-⟩ := bind_eq_ok hcurrent
    exact hvalid
  · intro x hx
    simp only [Record.checkRestore,hx] at hrestore
    split at hrestore
    · obtain ⟨_,hsource,-⟩ := bind_eq_ok hrestore
      unfold Record.checkSource at hsource
      obtain ⟨_,hvalid,-⟩ := bind_eq_ok hsource
      exact hvalid
    · cases hrestore

theorem length_recordJson_le (h : r.validate = .ok ()) (hf : r.fence ≤ u64Max) :
    (recordJson r).length ≤ 10978 := by
  have hopt : ∀ {o : Option Descriptor}, (∀ x, o = some x → x.validate = .ok ()) →
      (Json.opt descriptorJson o).length ≤ 1538 := fun ho =>
    Json.length_opt_le (by decide) fun x hx => length_descriptorJson_le (ho x hx)
  have hcurrent := hopt (validate_record h).1
  have hsource := hopt (validate_record h).2
  have hid := Json.length_bytes_le r.identity.toList
  have hsession := Json.length_bytes_le r.session.toList
  have hlast := Json.length_bytes_le r.lastOperation.toList
  have hfence := Json.length_num_u64 (n := r.fence) (by simp only [u64Max] at hf; omega)
  have hphase : (phaseJson r.phase).length ≤ 20 := by cases r.phase <;> decide
  simp only [Vector.length_toList] at hid hsession hlast
  refine (Json.length_obj_le (k := 1567) ?_).trans (by simp)
  simp only [List.mem_cons,List.not_mem_nil,or_false]
  rintro _ (rfl | rfl | rfl | rfl | rfl | rfl | rfl) <;> exact Json.length_field_le (by decide) (by omega)

theorem length_storedJson_le (h : s.validate = .ok ()) (hf : s.record.fence ≤ u64Max) :
    (storedJson s).length+44 ≤ maxBytes := by
  unfold Stored.validate at h
  obtain ⟨hformat,hrecord⟩ := refuse_bind h
  rw [not_or,not_not] at hformat
  have hrec := length_recordJson_le hrecord hf
  have hnum := Json.length_num_u64 (n := s.format) (by rw [hformat.1]; decide)
  have hhash : ∀ o : Option Bytes32, (Json.opt (fun h => Json.bytes h.toList) o).length ≤ 130 := by
    refine fun o => Json.length_opt_le (by decide) fun a _ => ?_
    have ha := Json.length_bytes_le a.toList
    simpa only [Vector.length_toList] using ha
  have hobj : (storedJson s).length ≤ 4*(11007+1)+2 := by
    refine (Json.length_obj_le (k := 11007) ?_).trans (by simp)
    simp only [List.mem_cons,List.not_mem_nil,or_false]
    rintro _ (rfl | rfl | rfl | rfl)
    · exact Json.length_field_le (by decide) (by omega)
    · exact Json.length_field_le (by decide) (by omega)
    · exact Json.length_field_le (by decide) (Nat.le_trans (hhash _) (by decide))
    · exact Json.length_field_le (by decide) (Nat.le_trans (hhash _) (by decide))
  have hmax : maxBytes = 65536 := rfl
  omega

theorem encode_ok [Sha256] (h : s.validate = .ok ()) (hf : s.record.fence ≤ u64Max) :
    ∃ bytes, encode s = .ok bytes := by
  have hsize : ¬ (storedJson s).length+44 > maxBytes := Nat.not_lt.mpr (length_storedJson_le h hf)
  simp only [encode,h,refuse,if_neg hsize,bind,Except.bind,pure,Except.pure]
  exact ⟨_,rfl⟩

theorem phase_of_fence_zero (h : r.validate = .ok ()) (hf : r.fence = 0) : r.phase = .Released := by
  unfold Record.validate at h
  obtain ⟨-,h⟩ := refuse_bind h
  rw [if_pos hf] at h
  have hinit := refuse_ok h
  simp only [not_or,not_not] at hinit
  exact hinit.2.2.1

end Size
end RemoteWitness

namespace CanonicalState
open RemoteWitness

section Histories

variable [Sha256] {s s' : CanonicalState} {role : Role} {q : Request}

structure Sound (s : CanonicalState) : Prop where
  valid : s.stored.validate = .ok ()
  fence : s.record.fence ≤ u64Max

omit [Sha256] in
theorem Sound.record_valid (h : s.Sound) : s.record.validate = .ok () := by
  have hv := h.valid
  unfold Stored.validate at hv
  exact (refuse_bind hv).2

omit [Sha256] in
theorem initial_sound {identity : Bytes16} (h : initial identity = .ok s) : s.Sound := by
  unfold initial at h
  obtain ⟨hid,h⟩ := refuse_bind h
  cases h
  refine ⟨?_,Nat.zero_le _⟩
  simp [Stored.validate,Record.validate,refuse,hid,bind,Except.bind]

theorem Changed.sound (h : Changed s role q s') (hs : s.Sound) : s'.Sound := by
  obtain ⟨r,hmoves,hr⟩ := h.moves
  obtain ⟨hash,-,hhash⟩ := h.hash
  obtain ⟨a,auth,-,-,hauth,-⟩ := h.authorization
  have hphase : s.record.fence = 0 → s.record.phase = .Released := phase_of_fence_zero hs.record_valid
  have hfence : s'.record.fence = r.fence := by rw [hr]
  have hpos : s'.record.fence ≠ 0 := hfence ▸ hmoves.fence_ne_zero hphase
  refine ⟨?_,hfence ▸ hmoves.fence_le hs.fence⟩
  have hv : s'.stored.record.validate = .ok () := h.valid
  have hpos' : s'.stored.record.fence ≠ 0 := hpos
  simp [Stored.validate,refuse,h.format,hhash,hauth,hpos',hv,bind,Except.bind]

theorem run_sound {identity : Bytes16} {s₀ : CanonicalState} (h : initial identity = .ok s₀)
    (history : List (Role × Request)) : (s₀.run history).Sound :=
  run_induction (initial_sound h) fun _ _ _ _ hs hc => hc.sound hs

/-- The authority never goes back. In every state of every history a change moves the measure of
the record up; a record that comes back was never left, and no request changes the state twice.
The generation, the epoch and the fence are changed by their own requests only, by one; and every
state is valid and can be stored. -/
theorem authority_never_goes_back (identity : Bytes16) (s₀ : CanonicalState)
    (h₀ : initial identity = .ok s₀) (history : List (Role × Request)) :
    (∀ role q s', (s₀.run history).apply role q = .ok s' → s' ≠ s₀.run history →
      (s₀.run history).record.measure < s'.record.measure ∧
      s'.record.generation = (s₀.run history).record.generation+
        (q.action.advances (s₀.run history).record.phase).toNat ∧
      s'.record.epoch = (s₀.run history).record.epoch+
        (q.action.restores (s₀.run history).record.phase).toNat ∧
      s'.record.fence = (s₀.run history).record.fence+q.action.installsSession.toNat) ∧
    (∀ later before, before <+: later →
      ((s₀.run history).run later).record = (s₀.run history).record →
        (s₀.run history).run before = s₀.run history) ∧
    ((s₀.changes history).map Prod.snd).Nodup ∧
    (s₀.run history).stored.validate = .ok () ∧ ∃ bytes, (s₀.run history).encode = .ok bytes := by
  have hsound := run_sound h₀ history
  refine ⟨fun role q s' happly hne => ?_,?_,nodup_changes,hsound.valid,
    encode_ok hsound.valid hsound.fence⟩
  · have hc := changed_of_ne happly hne
    obtain ⟨r,hmoves,hr⟩ := hc.moves
    obtain ⟨hgen,hepoch,hfence⟩ := hmoves.counters
    rw [hr]
    exact ⟨hr ▸ hc.measure_lt,hgen,hepoch,hfence⟩
  · rintro later before ⟨rest,rfl⟩ hrec
    rw [run_append] at hrec
    have hle : ((s₀.run history).run before).record.measure ≤
        (((s₀.run history).run before).run rest).record.measure := measure_run_le
    rw [hrec] at hle
    exact run_eq_of_measure_le hle

end Histories

section Sessions

variable [Sha256] {s s' s₀ : CanonicalState} {role : Role} {q : Request} {x y : Role × Request}
  {xs history : List (Role × Request)}

def lastChange (s : CanonicalState) (xs : List (Role × Request)) : Option (Role × Request) :=
  (s.changes xs).getLast?

def lastInstall (s : CanonicalState) (xs : List (Role × Request)) : Option (Role × Request) :=
  ((s.changes xs).filter fun x => x.2.action.installsSession).getLast?

theorem changes_concat : s.changes (xs ++ [x]) =
    s.changes xs ++ if (s.run xs).step x = s.run xs then [] else [x] := by
  induction xs generalizing s with
  | nil => by_cases hx : s.step x = s <;> simp [changes,hx]
  | cons y ys ih =>
    rw [List.cons_append,changes,changes]
    by_cases hy : s.step y = s
    · rw [if_pos hy,if_pos hy,ih,run_cons,hy]
    · rw [if_neg hy,if_neg hy,ih,run_cons,List.cons_append]

theorem changes_subset : s.changes xs ⊆ xs := by
  induction xs generalizing s with
  | nil => exact List.Subset.refl _
  | cons x xs ih =>
    unfold changes
    by_cases hx : s.step x = s
    · rw [if_pos hx]
      exact fun y hy => List.mem_cons_of_mem _ (ih hy)
    · rw [if_neg hx]
      exact List.cons_subset_cons _ ih

/-- What the stored digests say about the history. -/
structure Traced (s₀ : CanonicalState) (history : List (Role × Request)) : Prop where
  request : ∀ h, (s₀.run history).stored.lastRequestHash = some h →
    ∃ x r, s₀.lastChange history = some x ∧ requestHash x.1 x.2 = .ok h ∧
      Changed r x.1 x.2 (s₀.run history)
  session : ∀ h, (s₀.run history).stored.sessionAuthorizationHash = some h →
    ∃ x a, s₀.lastInstall history = some x ∧ x.2.authorization = some a ∧ authorizationHash a = .ok h

theorem Traced.concat (h : Traced s₀ history) : Traced s₀ (history ++ [x]) := by
  have hrun : s₀.run (history ++ [x]) = (s₀.run history).step x := run_append
  by_cases hx : (s₀.run history).step x = s₀.run history
  · have hsame : s₀.changes (history ++ [x]) = s₀.changes history := by
      rw [changes_concat,if_pos hx,List.append_nil]
    refine ⟨?_,?_⟩
    · rw [lastChange,hsame,hrun,hx]
      exact h.request
    · rw [lastInstall,hsame,hrun,hx]
      exact h.session
  have hc := changed_of_step_ne hx
  have hnew : s₀.changes (history ++ [x]) = s₀.changes history ++ [x] := by
    rw [changes_concat,if_neg hx]
  obtain ⟨digest,hdigest,hlast⟩ := hc.hash
  obtain ⟨a,auth,ha,hauth,hstored,hkept⟩ := hc.authorization
  refine ⟨fun d hd => ?_,fun d hd => ?_⟩
  · rw [hrun,hlast] at hd
    cases hd
    refine ⟨x,s₀.run history,?_,hdigest,hrun ▸ hc⟩
    rw [lastChange,hnew,List.getLast?_concat]
  · rw [hrun,hstored] at hd
    cases hd
    rw [lastInstall,hnew,List.filter_append]
    by_cases hinst : x.2.action.installsSession = true
    · refine ⟨x,a,?_,ha,hauth⟩
      simp [hinst]
    · obtain ⟨y,b,hy,hb,hh⟩ := h.session _ (hkept (by simpa using hinst))
      refine ⟨y,b,?_,hb,hh⟩
      simpa [hinst,lastInstall] using hy

theorem traced {identity : Bytes16} (h : initial identity = .ok s₀) (history : List (Role × Request)) :
    Traced s₀ history := by
  induction history using List.reverseRecOn with
  | nil =>
    unfold initial at h
    cases (refuse_bind h).2
    exact ⟨fun _ hd => (by cases hd),fun _ hd => (by cases hd)⟩
  | append_singleton history x ih => exact ih.concat

/-- No request of the history has this one's digest, and no capability the digest of its own,
unless they are the same. -/
structure Distinguished (history : List (Role × Request)) (role : Role) (q : Request) : Prop where
  request : ∀ x ∈ history, digest requestDomain (requestText x.1 x.2) =
    digest requestDomain (requestText role q) → x = (role,q)
  authorization : ∀ x ∈ history, ∀ a b, x.2.authorization = some a → q.authorization = some b →
    digest authorizationDomain a.toList = digest authorizationDomain b.toList → a = b

theorem digest_of_requestHash {h : Bytes32} (hh : requestHash role q = .ok h) :
    h = digest requestDomain (requestText role q) := by
  unfold requestHash at hh
  split at hh
  · cases hh
  · cases hh
    rfl

theorem digest_of_authorizationHash {a h : Bytes32} (hh : authorizationHash a = .ok h) :
    h = digest authorizationDomain a.toList := by
  unfold authorizationHash at hh
  cases (refuse_bind hh).2
  rfl

theorem mem_of_lastChange (h : s.lastChange xs = some x) : x ∈ xs :=
  changes_subset (List.mem_of_getLast? h)

theorem mem_of_lastInstall (h : s.lastInstall xs = some x) : x ∈ xs :=
  changes_subset (List.mem_filter.mp (List.mem_of_getLast? h)).1

theorem Traced.lastChange_eq (h : Traced s₀ history)
    (hd : ∀ x ∈ history, digest requestDomain (requestText x.1 x.2) =
      digest requestDomain (requestText role q) → x = (role,q))
    (hr : Repeated (s₀.run history) role q) : s₀.lastChange history = some (role,q) ∧
      ∃ r, Changed r role q (s₀.run history) := by
  obtain ⟨hash,hhash,hlast⟩ := hr.hash
  obtain ⟨x,r,hx,hxhash,hchanged⟩ := h.request hash hlast
  have heq := hd x (mem_of_lastChange hx)
    ((digest_of_requestHash hxhash).symm.trans (digest_of_requestHash hhash))
  subst heq
  exact ⟨hx,r,hchanged⟩

/-- What a writer asks for is never an administrator's move. -/
theorem Changed.writer (h : Changed s .Writer q s') : q.action ≠ .Takeover ∧
    q.action ≠ .RecoverEnrollment ∧ (∀ source, q.action ≠ .ClaimRestore source) ∧
    (s.record.phase = .RestoreClaimed → (∀ x, q.action ≠ .Activate x) ∧ q.action ≠ .Release) := by
  obtain ⟨r,hmoves,-⟩ := h.moves
  generalize q.action = a at hmoves
  cases hmoves with
  | claim => simp
  | takeover hrole => cases hrole
  | recover hrole => cases hrole
  | restore _ hrole => cases hrole
  | activate x hphase => simp [hphase]
  | activateRestored x _ hrole => cases hrole
  | advance => simp
  | release _ hrole => exact ⟨by simp,by simp,by simp,fun hp => absurd (hrole hp) (by simp)⟩

/-- Sessions are exclusive: a session's requests change the state only with the capability its
installation presented, a writer never makes an administrator's move, and an operation that is
accepted under the last identifier is the last request again, under the same role. -/
theorem session_exclusive (identity : Bytes16) (s₀ : CanonicalState)
    (h₀ : initial identity = .ok s₀) (history : List (Role × Request)) (role : Role) (q : Request)
    (s' : CanonicalState) (hd : Distinguished history role q)
    (h : (s₀.run history).apply role q = .ok s') :
    (s' ≠ s₀.run history → q.action.installsSession = false →
      ∃ x a, s₀.lastInstall history = some x ∧ x.2.authorization = some a ∧ q.authorization = some a) ∧
    (role = .Writer → q.action ≠ .Takeover ∧ q.action ≠ .RecoverEnrollment ∧
      (∀ source, q.action ≠ .ClaimRestore source) ∧
      (s' ≠ s₀.run history → (s₀.run history).record.phase = .RestoreClaimed →
        (∀ x, q.action ≠ .Activate x) ∧ q.action ≠ .Release)) ∧
    (q.action ≠ .Inspect → q.operationId = (s₀.run history).record.lastOperation →
      s₀.lastChange history = some (role,q) ∧ s' = s₀.run history) := by
  have ht := traced h₀ history
  rcases apply_cases h with ⟨rfl,hsame⟩ | hc
  · -- Nothing changes: an inspection or a repetition.
    refine ⟨fun hne => absurd rfl hne,?_,fun hq _ => ⟨?_,rfl⟩⟩
    · rintro rfl
      rcases hsame with hi | hr
      · simp [hi]
      · obtain ⟨-,r,hr⟩ := ht.lastChange_eq hd.request hr
        exact ⟨hr.writer.1,hr.writer.2.1,hr.writer.2.2.1,fun hne => absurd rfl hne⟩
    · exact (ht.lastChange_eq hd.request (hsame.resolve_left hq)).1
  · refine ⟨fun _ hinst => ?_,?_,fun _ hlast => absurd hlast hc.fresh⟩
    · obtain ⟨a,auth,ha,hauth,-,hkept⟩ := hc.authorization
      obtain ⟨x,b,hx,hb,hbauth⟩ := ht.session auth (hkept hinst)
      have heq := hd.authorization x (mem_of_lastInstall hx) b a hb ha
        ((digest_of_authorizationHash hbauth).symm.trans (digest_of_authorizationHash hauth))
      exact ⟨x,b,hx,hb,heq ▸ ha⟩
    · rintro rfl
      exact ⟨hc.writer.1,hc.writer.2.1,hc.writer.2.2.1,fun _ => hc.writer.2.2.2⟩

end Sessions

section Sample

/-! A volume is claimed, activated and advanced once by one writer. -/

local instance : Sha256 := ⟨fun bs => Vector.replicate 32 (bs.foldl (fun n b => 3*n+b) 1)⟩

def sampleIdentity : Bytes16 := Vector.replicate 16 1
def sampleKey : Bytes32 := Vector.replicate 32 7

def sampleStart : CanonicalState := ⟨2,⟨sampleIdentity,none,0,nil16,.Released,none,nil16⟩,none,none⟩

def sampleAsk (op : UInt8) (s : CanonicalState) (action : Action) : Role × Request :=
  (.Writer,⟨Vector.replicate 16 op,some s.record,action,some sampleKey⟩)

def sampleDescriptor : Descriptor :=
  ⟨⟨sampleIdentity,0,nil32⟩,0,namespaceName 1 (Vector.replicate 16 2)⟩

def sampleClaim : Role × Request := sampleAsk 2 sampleStart .Claim
def sampleClaimed : CanonicalState := sampleStart.step sampleClaim
def sampleActivate : Role × Request := sampleAsk 3 sampleClaimed (.Activate sampleDescriptor)
def sampleActive : CanonicalState := sampleClaimed.step sampleActivate
def sampleAdvance : Role × Request := sampleAsk 4 sampleActive (.Advance ⟨sampleIdentity,1,nil32⟩)
def sampleAdvanced : CanonicalState := sampleActive.step sampleAdvance

theorem authority_never_goes_back_activated :
    initial sampleIdentity = .ok sampleStart ∧
    (sampleStart.run [sampleClaim,sampleActivate]).record.phase = .Active ∧
    ((sampleStart.changes [sampleClaim,sampleActivate]).map Prod.snd).Nodup ∧
    (sampleStart.run [sampleClaim,sampleActivate]).stored.validate = .ok () := by
  have h := authority_never_goes_back sampleIdentity sampleStart rfl [sampleClaim,sampleActivate]
  exact ⟨rfl,by decide +kernel,h.2.2.1,h.2.2.2.1⟩

set_option maxRecDepth 100000 in
theorem session_exclusive_advance :
    sampleAdvanced ≠ sampleActive ∧
    ∃ x a, sampleStart.lastInstall [sampleClaim,sampleActivate] = some x ∧
      x.2.authorization = some a ∧ sampleAdvance.2.authorization = some a := by
  have happly : (sampleStart.run [sampleClaim,sampleActivate]).apply .Writer sampleAdvance.2 =
      .ok sampleAdvanced := by decide +kernel
  have hne : sampleAdvanced ≠ sampleActive := by decide +kernel
  have hd : Distinguished [sampleClaim,sampleActivate] .Writer sampleAdvance.2 := by
    refine ⟨by decide +kernel,?_⟩
    rintro x hx a b ha hb -
    have hall : ∀ y ∈ [sampleClaim,sampleActivate], y.2.authorization = some sampleKey := by
      decide +kernel
    rw [hall x hx] at ha
    cases ha
    cases hb
    rfl
  exact ⟨hne,(session_exclusive sampleIdentity sampleStart rfl [sampleClaim,sampleActivate] .Writer
    sampleAdvance.2 sampleAdvanced hd happly).1 hne rfl⟩

/-- An inspection that carries the last operation's identifier. -/
def sampleInspect : Request := ⟨sampleClaim.2.operationId,none,.Inspect,none⟩

/-- Inspections are answered before identifiers are compared. -/
theorem inspection_reuses_operation :
    (sampleStart.run [sampleClaim]).record.lastOperation = sampleInspect.operationId ∧
    (sampleStart.run [sampleClaim]).apply .Admin sampleInspect = .ok (sampleStart.run [sampleClaim]) ∧
    sampleStart.lastChange [sampleClaim] = some sampleClaim ∧ sampleClaim ≠ (.Admin,sampleInspect) := by
  decide +kernel

end Sample
end CanonicalState
end Maki
