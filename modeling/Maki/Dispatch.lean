import Mathlib
import Maki.Lane

/-! Dispatch of one request over an endpoint set (`maki_crypto::endpoint`). The clock, the breakers,
the permits, the retry budgets and the peers' answers are read from outside at every step; the
validation flags also change through background tasks and the passes of other requests. -/
namespace Maki
namespace Dispatch

structure Endpoint where
  validated : Bool
  rejected : Bool := false
  validating : Bool := false
  lastValidationAttempt : Option ℕ := none

def approves : Option (Except CryptoError Unit) → Bool
  | some (.ok _) => true
  | _ => false

/-- The end of a validation task; `none` if it was aborted. -/
def Endpoint.conclude (e : Endpoint) (result : Option (Except CryptoError Unit)) : Endpoint :=
  match result with
  | some (.ok ()) => { e with validated := true, validating := false }
  | some (.error error) =>
    { e with rejected := e.rejected || error.errorClass = .ProviderFatal, validating := false }
  | none => { e with validating := false }

/-- What one step reads. The reads of one breaker need not agree: other workers use it too. -/
structure View where
  now : ℕ
  wouldAllow : ℕ → Bool
  nextAdmissionTime : ℕ → Option ℕ
  inflight : ℕ → ℕ
  /-- Both `try_acquire` calls. -/
  capacity : ℕ → Bool
  acquire : ℕ → Bool
  allowRetry : ℕ → Bool

/-- `check` is what `call_endpoint` does with a peer's answer. -/
structure Config (κ ρ : Type) where
  request : κ
  maxAttempts : Option ℕ
  validationInterval : ℕ
  validator : Bool
  deadline : Option ℕ
  retrySafe : Bool
  check : ℕ → ρ → Except CryptoError ρ

inductive Phase (ρ : Type) where
  | passing
  | admitting
  | calling (endpoint : ℕ)
  | returned (result : Except CryptoError ρ)

/-- What happened to the request: an attempt counts as sent when its call is made, and a reply is
logged as `call_endpoint` returns it. -/
inductive Entry (κ ρ : Type) where
  | validation (endpoint : ℕ) (ok : Bool)
  | sent (pass endpoint : ℕ) (request : κ)
  | replied (endpoint : ℕ) (result : Except CryptoError ρ)

/-- The locals of `dispatch`, the endpoints' flags, and the log with the newest entry first. -/
structure World (κ ρ : Type) where
  endpoints : List Endpoint
  callsMade : ℕ := 0
  pass : ℕ := 0
  lastError : Option CryptoError := none
  tried : List ℕ := []
  contractFailed : List ℕ := []
  excluded : List ℕ := []
  phase : Phase ρ
  log : List (Entry κ ρ) := []

inductive Event (ρ : Type) where
  | passStart (v : View)
  | acquire (v : View)
  | deadline
  | reply (v : View) (answer : Except CryptoError ρ)
  /-- Another request's `promote_quarantined`. -/
  | promote (v : View)
  | validation (endpoint : ℕ) (result : Option (Except CryptoError Unit))

def deadlineError : CryptoError := .Retryable "operation deadline exceeded"

variable {κ ρ : Type}

namespace World

variable (w : World κ ρ) (cfg : Config κ ρ) (v : View)

def validated (i : ℕ) : Bool := w.endpoints[i]?.any (·.validated)

def fail (e : CryptoError) : World κ ρ := { w with phase := .returned (.error e) }

def giveUp (e : CryptoError) : World κ ρ := w.fail (w.lastError.getD e)

def candidates : List ℕ :=
  (List.range w.endpoints.length).filter fun i => w.validated i && v.wouldAllow i

def promoteQuarantined : World κ ρ :=
  if cfg.validator ∧ w.candidates v ≠ [] then
    { w with endpoints := w.endpoints.mapIdx fun i e =>
        if !e.validated && !e.rejected && !e.validating && v.wouldAllow i &&
            e.lastValidationAttempt.all (cfg.validationInterval ≤ v.now-·) then
          { e with lastValidationAttempt := some v.now, validating := true }
        else e }
  else w

def concludeValidation (i : ℕ) (result : Option (Except CryptoError Unit)) : World κ ρ :=
  if w.endpoints[i]?.any (·.validating) then
    { w with endpoints := w.endpoints.modify i (·.conclude result),
             log := .validation i (approves result)::w.log }
  else w

def openPass : World κ ρ :=
  if cfg.maxAttempts.any (· ≤ w.pass) then w.giveUp (.Retryable "attempts exhausted")
  else if cfg.deadline.any (· ≤ v.now) then w.giveUp deadlineError
  else
    let w := w.promoteQuarantined cfg v
    if w.candidates v ≠ [] ∧ ∀ i ∈ w.candidates v, i ∈ w.contractFailed then
      w.giveUp (.Contract "every admissible endpoint broke the contract")
    else { w with excluded := w.contractFailed, phase := .admitting }

def closePass : World κ ρ :=
  if cfg.maxAttempts.any (· ≤ w.pass+1) then w.giveUp (.Retryable "attempts exhausted")
  else { w with pass := w.pass+1, phase := .passing }

/-- The probe of endpoint `i` is held. -/
def send (i : ℕ) : World κ ρ :=
  let w := { w with excluded := w.excluded ++ [i] }
  if 0 < w.callsMade ∧ cfg.retrySafe = false then w.giveUp (.Retryable "provider is not retry-safe")
  else if 0 < w.callsMade ∧ i ∈ w.tried ∧ v.allowRetry i = false then w
  else { w with tried := if i ∈ w.tried then w.tried else w.tried ++ [i], callsMade := w.callsMade+1,
                phase := .calling i, log := .sent w.pass i cfg.request::w.log }

def eligible : List ℕ :=
  (List.range w.endpoints.length).filter fun i => w.validated i && i ∉ w.excluded

def ready : List ℕ :=
  (w.eligible.filter fun i => (v.nextAdmissionTime i).any (· ≤ v.now)).mergeSort
    fun i j => v.inflight i ≤ v.inflight j

/-- One turn of `admit_endpoint`, and what `dispatch` does with the endpoint it gives. -/
def admitEndpoint : World κ ρ :=
  if w.ready v = [] ∧ (0 < w.callsMade ∨ w.eligible = []) then w.closePass cfg
  else
    match (w.ready v).find? fun i => v.capacity i && v.wouldAllow i with
    | some i => if v.acquire i then w.send cfg v i else w
    | none => w

def conclude (i : ℕ) : Except CryptoError ρ → World κ ρ
  | .ok response => { w with phase := .returned (.ok response) }
  | .error e =>
    if e = deadlineError then w.fail e
    else
      match e.errorClass, e with
      | .ProviderFatal, .Contract _ =>
        let w := { w with contractFailed := w.contractFailed ++ [i] }
        if cfg.retrySafe = true ∧ ∃ j ∈ w.candidates v, j ∉ w.tried then
          { w with lastError := some e, phase := .admitting }
        else w.fail e
      | .NonRetryableRequest, _ | .ProviderFatal, _ => w.fail e
      | _, _ =>
        if cfg.deadline.any (· ≤ v.now) ∨ cfg.retrySafe = false then w.fail e
        else { w with lastError := some e, phase := .admitting }

def step (e : Event ρ) : World κ ρ :=
  match w.phase, e with
  | .passing, .passStart v => w.openPass cfg v
  | .admitting, .acquire v => w.admitEndpoint cfg v
  | .admitting, .deadline => if cfg.deadline.isSome then w.fail deadlineError else w
  | .calling i, .reply v answer =>
    let result := answer.bind (cfg.check i)
    World.conclude { w with log := .replied i result::w.log } cfg v i result
  | _, .promote v => w.promoteQuarantined cfg v
  | _, .validation i result => w.concludeValidation i result
  | _, _ => w

def run (events : List (Event ρ)) : World κ ρ := events.foldl (fun w e => w.step cfg e) w

end World

def sends (log : List (Entry κ ρ)) : List (ℕ × ℕ) := log.filterMap fun
  | .sent pass i _ => some (pass,i)
  | _ => none

def requests (log : List (Entry κ ρ)) : List κ := log.filterMap fun
  | .sent _ _ request => some request
  | _ => none

/-- `dispatch` is called; a request larger than the capacity is refused. -/
def start (endpoints : List Endpoint) (fits : Bool) : World κ ρ where
  endpoints := endpoints
  phase := if fits then .passing else
    .returned (.error (.NonRetryableRequest "request exceeds global or endpoint admission capacity"))

/-- The endpoint was validated before the set was built, or by its validator since. -/
def Proven (endpoints : List Endpoint) (log : List (Entry κ ρ)) (i : ℕ) : Prop :=
  endpoints[i]?.any (·.validated) ∨ .validation i true ∈ log

/-- What holds of the log when the request is sent to endpoint `i`. -/
structure Sendable (cfg : Config κ ρ) (endpoints : List Endpoint) (log : List (Entry κ ρ)) (pass i : ℕ) :
    Prop where
  known : i < endpoints.length
  proven : Proven endpoints log i
  unbroken : ∀ m, .replied i (.error (.Contract m)) ∉ log
  fresh : ∀ q, .sent pass i q ∉ log
  attempts : ∀ max ∈ cfg.maxAttempts, pass < max
  once : cfg.retrySafe = false → ∀ p j q, .sent p j q ∉ log

def History (cfg : Config κ ρ) (endpoints : List Endpoint) (log : List (Entry κ ρ)) : Prop :=
  ∀ pass i q older, .sent pass i q::older <:+ log → Sendable cfg endpoints older pass i

def Passing (cfg : Config κ ρ) (w : World κ ρ) : Prop :=
  (∀ i q, .sent w.pass i q ∈ w.log → i ∈ w.excluded) ∧ (∀ i ∈ w.contractFailed, i ∈ w.excluded) ∧
    ∀ max ∈ cfg.maxAttempts, w.pass < max

def Stage (cfg : Config κ ρ) (w : World κ ρ) : Prop :=
  match w.phase with
  | .passing => ∀ p i q, .sent p i q ∈ w.log → p < w.pass
  | .admitting => Passing cfg w
  | .calling i => Passing cfg w ∧ i ∈ w.excluded ∧ ∃ p, .sent p i cfg.request ∈ w.log
  | .returned (.ok response) => ∃ p i answer,
      .sent p i cfg.request ∈ w.log ∧ cfg.check i answer = .ok response
  | .returned (.error _) => True

structure Sound (cfg : Config κ ρ) (endpoints : List Endpoint) (w : World κ ρ) : Prop where
  history : History cfg endpoints w.log
  sent : ∀ p i q, .sent p i q ∈ w.log → p ≤ w.pass ∧ 0 < w.callsMade ∧ q = cfg.request
  broke : ∀ i m, .replied i (.error (.Contract m)) ∈ w.log → i ∈ w.contractFailed
  length : w.endpoints.length = endpoints.length
  flags : ∀ i, w.validated i → Proven endpoints w.log i
  stage : Stage cfg w

section Steps

variable {cfg : Config κ ρ} {endpoints : List Endpoint} {w : World κ ρ} {v : View}

theorem History.cons {log : List (Entry κ ρ)} (h : History cfg endpoints log) {e : Entry κ ρ}
    (he : ∀ pass i q, e = .sent pass i q → Sendable cfg endpoints log pass i) :
    History cfg endpoints (e::log) := by
  intro pass i q older hsuffix
  rcases List.suffix_cons_iff.mp hsuffix with heq | hsuffix
  · cases heq
    exact he pass i q rfl
  · exact h pass i q older hsuffix

theorem Proven.cons {log : List (Entry κ ρ)} {i : ℕ} (h : Proven endpoints log i) (e : Entry κ ρ) :
    Proven endpoints (e::log) i := h.imp_right (List.mem_cons_of_mem e)

theorem start_sound (fits : Bool) : Sound cfg endpoints (start endpoints fits) where
  history pass i q older h := by simp [start] at h
  sent := by simp [start]
  broke := by simp [start]
  length := rfl
  flags i h := .inl h
  stage := by cases fits <;> simp [Stage,start]

theorem Sound.fail (h : Sound cfg endpoints w) (e : CryptoError) : Sound cfg endpoints (w.fail e) :=
  { h with stage := trivial }

theorem Sound.promote (h : Sound cfg endpoints w) :
    Sound cfg endpoints (w.promoteQuarantined cfg v) := by
  rw [World.promoteQuarantined]
  split
  · refine { h with length := by simpa using h.length, flags := fun i hi => h.flags i ?_, stage := h.stage }
    simp only [World.validated,List.getElem?_mapIdx] at hi ⊢
    cases he : w.endpoints[i]? with
    | none => simp [he] at hi
    | some e =>
      simp only [he,Option.map_some,Option.any_some] at hi ⊢
      split at hi <;> exact hi
  · exact h

theorem promote_fields : (w.promoteQuarantined cfg v).phase = w.phase ∧
    (w.promoteQuarantined cfg v).pass = w.pass := by
  rw [World.promoteQuarantined]
  split <;> exact ⟨rfl,rfl⟩

theorem validated_conclude (e : Endpoint) (result : Option (Except CryptoError Unit)) :
    (e.conclude result).validated = (e.validated || approves result) := by
  rcases result with _ | _ | _ <;> simp [Endpoint.conclude,approves]

section Steps

variable (h : Sound cfg endpoints w)

include h

theorem Sound.validation (i : ℕ)
    (result : Option (Except CryptoError Unit)) : Sound cfg endpoints (w.concludeValidation i result) := by
  rw [World.concludeValidation]
  split
  · refine ⟨h.history.cons (by simp),by simpa using h.sent,by simpa using h.broke,
      by simpa using h.length,fun j hj => ?_,by simpa [Stage,Passing] using h.stage⟩
    simp only [World.validated,List.getElem?_modify] at hj
    cases he : w.endpoints[j]? with
    | none => simp [he] at hj
    | some e =>
      have hold (hv : e.validated = true) : Proven endpoints w.log j := h.flags j (by simpa [World.validated,he])
      by_cases hij : i = j
      · subst hij
        have hor : e.validated = true ∨ approves result = true := by
          simpa [he,validated_conclude] using hj
        rcases hor with hv | hok
        · exact (hold hv).cons _
        · exact .inr (by simp [hok])
      · exact (hold (by simpa [he,hij] using hj)).cons _
  · exact h

theorem Sound.openPass (hphase : w.phase = .passing) :
    Sound cfg endpoints (w.openPass cfg v) := by
  have hp : Sound cfg endpoints (w.promoteQuarantined cfg v) := h.promote
  have hstage := hp.stage
  rw [Stage,promote_fields.1,hphase] at hstage
  simp only [World.openPass]
  split_ifs with hmax
  · exact h.fail _
  · exact h.fail _
  · exact hp.fail _
  · refine { hp with stage := ⟨fun i q hi => ?_,fun i hi => hi,fun max hin => ?_⟩ }
    · exact absurd (hstage _ i q hi) (lt_irrefl _)
    · rw [Option.mem_def] at hin
      simpa [hin,promote_fields.2] using hmax

theorem Sound.closePass : Sound cfg endpoints (w.closePass cfg) := by
  rw [World.closePass]
  split
  · exact h.fail _
  · exact { h with
      sent := fun p i q hi => ⟨(h.sent p i q hi).1.trans (Nat.le_succ _),(h.sent p i q hi).2⟩
      stage := fun p i q hi => Nat.lt_succ_of_le (h.sent p i q hi).1 }

theorem Sound.send (hp : Passing cfg w) {i : ℕ} (hi : i ∈ w.eligible)
    (hphase : w.phase = .admitting) : Sound cfg endpoints (w.send cfg v i) := by
  obtain ⟨hsent,hfailed,hattempts⟩ := hp
  obtain ⟨hlt,hvalid,hnot⟩ : i < w.endpoints.length ∧ w.validated i ∧ i ∉ w.excluded := by
    simpa [World.eligible] using hi
  have hfailed' : ∀ j ∈ w.contractFailed, j ∈ w.excluded ++ [i] := fun j hj =>
    List.mem_append_left _ (hfailed j hj)
  simp only [World.send]
  split
  · exact { h with stage := trivial }
  rename_i hsafe
  split
  · refine { h with stage := ?_ }
    simp only [Stage,hphase]
    exact ⟨fun j q hj => List.mem_append_left _ (hsent j q hj),hfailed',hattempts⟩
  · refine ⟨h.history.cons ?_,fun p j q hj => ?_,by simpa using h.broke,h.length,
      fun j hj => (h.flags j hj).cons _,⟨fun j q hj => ?_,hfailed',hattempts⟩,by simp,
      w.pass,List.mem_cons_self⟩
    · rintro p j q ⟨⟩
      exact ⟨h.length ▸ hlt,h.flags i hvalid,fun m hb => hnot (hfailed i (h.broke i m hb)),
        fun q hs => hnot (hsent i q hs),hattempts,fun hr p j q hj => hsafe ⟨(h.sent p j q hj).2.1,hr⟩⟩
    · rcases List.mem_cons.mp hj with heq | hj
      · cases heq
        exact ⟨le_rfl,Nat.succ_pos _,rfl⟩
      · exact ⟨(h.sent p j q hj).1,Nat.succ_pos _,(h.sent p j q hj).2.2⟩
    · rcases List.mem_cons.mp hj with heq | hj
      · cases heq
        simp
      · exact List.mem_append_left _ (hsent j q hj)

theorem Sound.admitEndpoint (hphase : w.phase = .admitting) :
    Sound cfg endpoints (w.admitEndpoint cfg v) := by
  have hp : Passing cfg w := by simpa only [Stage,hphase] using h.stage
  rw [World.admitEndpoint]
  split
  · exact h.closePass
  · split
    · rename_i i hi
      split
      · refine h.send hp ?_ hphase
        have hmem := List.mem_of_find?_eq_some hi
        rw [World.ready,List.mem_mergeSort] at hmem
        exact (List.mem_filter.mp hmem).1
      · exact h
    · exact h

/-- A reply is logged; one that breaks the contract is remembered. -/
theorem Sound.replied {i : ℕ} {result : Except CryptoError ρ} {failed : List ℕ}
    {lastError : Option CryptoError} {phase : Phase ρ} (hfailed : w.contractFailed ⊆ failed)
    (hresult : ∀ m, result = .error (.Contract m) → i ∈ failed)
    (hstage : Stage cfg { w with
      log := .replied i result::w.log, contractFailed := failed, lastError := lastError, phase := phase }) :
    Sound cfg endpoints { w with
      log := .replied i result::w.log, contractFailed := failed, lastError := lastError
      phase := phase } := by
  refine ⟨h.history.cons (by simp),by simpa using h.sent,fun j m hj => ?_,h.length,
    fun j hj => (h.flags j hj).cons _,hstage⟩
  rcases List.mem_cons.mp hj with heq | hj
  · cases heq
    exact hresult m rfl
  · exact hfailed (h.broke j m hj)

theorem Sound.conclude {i : ℕ} (hphase : w.phase = .calling i) {answer : Except CryptoError ρ} :
    Sound cfg endpoints (World.conclude
      { w with log := .replied i (answer.bind (cfg.check i))::w.log } cfg v i
      (answer.bind (cfg.check i))) := by
  obtain ⟨hp,hi,p,hcall⟩ : Passing cfg w ∧ i ∈ w.excluded ∧ ∃ p, .sent p i cfg.request ∈ w.log := by
    simpa only [Stage,hphase] using h.stage
  cases hanswer : answer.bind (cfg.check i) with
  | ok response =>
    refine h.replied (List.Subset.refl _) (by simp) ?_
    cases answer with
    | ok raw => exact ⟨p,i,raw,List.mem_cons_of_mem _ hcall,hanswer⟩
    | error e => cases hanswer
  | error e =>
    by_cases hc : ∃ m, e = .Contract m
    · obtain ⟨m,rfl⟩ := hc
      have hfailed : ∀ j ∈ w.contractFailed ++ [i], j ∈ w.excluded := forall_mem_concat hp.2.1 hi
      simp only [World.conclude,CryptoError.errorClass]
      rw [if_neg (by simp [deadlineError])]
      split
      · exact h.replied (List.subset_append_left _ _) (by simp) ⟨by simpa using hp.1,hfailed,hp.2.2⟩
      · exact h.replied (List.subset_append_left _ _) (by simp) trivial
    · have hother : ∀ {phase lastError},
          Stage cfg { w with log := .replied i (.error e)::w.log, lastError := lastError, phase := phase } →
          Sound cfg endpoints { w with
            log := .replied i (.error e)::w.log, lastError := lastError, phase := phase } :=
        h.replied (List.Subset.refl _) fun m hm => absurd ⟨m,Except.error.inj hm⟩ hc
      simp only [World.conclude]
      split
      · exact hother trivial
      · split
        · exact absurd ⟨_,rfl⟩ hc
        · exact hother trivial
        · exact hother trivial
        · split
          · exact hother trivial
          · exact hother ⟨by simpa using hp.1,hp.2.1,hp.2.2⟩

theorem Sound.step (e : Event ρ) : Sound cfg endpoints (w.step cfg e) := by
  unfold World.step
  split
  · exact h.openPass ‹_›
  · exact h.admitEndpoint ‹_›
  · split
    · exact h.fail _
    · exact h
  · exact h.conclude ‹_›
  · exact h.promote
  · exact h.validation _ _
  · exact h

end Steps

theorem run_sound (cfg : Config κ ρ) (endpoints : List Endpoint) (fits : Bool) (events : List (Event ρ)) :
    Sound cfg endpoints ((start endpoints fits).run cfg events) := by
  induction events using List.reverseRecOn with
  | nil => exact start_sound fits
  | append_singleton events e ih =>
    rw [World.run,List.foldl_append]
    exact ih.step e

end Steps

section Calls

variable {cfg : Config κ ρ} {endpoints : List Endpoint} {log : List (Entry κ ρ)}

theorem mem_sends {pass i : ℕ} : (pass,i) ∈ sends log ↔ ∃ q, .sent pass i q ∈ log := by
  constructor
  · intro h
    obtain ⟨e,he,heq⟩ := List.mem_filterMap.mp h
    cases e <;> cases heq
    exact ⟨_,he⟩
  · rintro ⟨q,hq⟩
    exact List.mem_filterMap.mpr ⟨_,hq,rfl⟩

theorem mem_requests {q : κ} : q ∈ requests log ↔ ∃ pass i, .sent pass i q ∈ log := by
  constructor
  · intro h
    obtain ⟨e,he,heq⟩ := List.mem_filterMap.mp h
    cases e <;> cases heq
    exact ⟨_,_,he⟩
  · rintro ⟨pass,i,hq⟩
    exact List.mem_filterMap.mpr ⟨_,hq,rfl⟩

theorem History.nodup_sends (h : History cfg endpoints log) :
    (sends log).Nodup ∧ (cfg.retrySafe = false → (sends log).length ≤ 1) := by
  induction log with
  | nil => simp [sends]
  | cons e log ih =>
    obtain ⟨hnodup,honce⟩ := ih fun p i q older hs => h p i q older (hs.trans (List.suffix_cons e log))
    cases e with
    | validation i ok => exact ⟨hnodup,honce⟩
    | replied i result => exact ⟨hnodup,honce⟩
    | sent pass i q =>
      have hs := h pass i q log List.suffix_rfl
      refine ⟨List.nodup_cons.mpr ⟨fun hmem => (mem_sends.mp hmem).elim hs.fresh,hnodup⟩,fun hr => ?_⟩
      have hnil : sends log = [] := List.eq_nil_iff_forall_not_mem.mpr fun x hx =>
        (mem_sends.mp hx).elim (hs.once hr x.1 x.2)
      exact Nat.succ_le_succ (congrArg List.length hnil).le

theorem History.length_sends_le (h : History cfg endpoints log) {max : ℕ}
    (hmax : cfg.maxAttempts = some max) : (sends log).length ≤ max*endpoints.length := by
  have hsub : (sends log).toFinset ⊆ Finset.range max ×ˢ Finset.range endpoints.length := by
    intro x hx
    obtain ⟨q,hq⟩ := mem_sends.mp (List.mem_toFinset.mp hx)
    obtain ⟨newer,older,hlog⟩ := List.append_of_mem hq
    have hs := h x.1 x.2 q older ⟨newer,hlog.symm⟩
    simpa using ⟨hs.attempts max hmax,hs.known⟩
  calc (sends log).length = (sends log).toFinset.card := (List.toFinset_card_of_nodup h.nodup_sends.1).symm
    _ ≤ max*endpoints.length := by simpa using Finset.card_le_card hsub

/-- The calls of one dispatch, over every run: at most one if the provider is not retry-safe, none
to an endpoint whose reply broke the contract before, at most one for each pass and endpoint, at most
`max_attempts` for each endpoint, and each to an endpoint that was validated before the call. -/
theorem dispatch_never_resends (cfg : Config κ ρ) (endpoints : List Endpoint) (fits : Bool)
    (events : List (Event ρ)) :
    let log := ((start endpoints fits).run cfg events).log
    (cfg.retrySafe = false → (sends log).length ≤ 1) ∧
    (∀ pass i q older, .sent pass i q::older <:+ log →
      (∀ m, .replied i (.error (.Contract m)) ∉ older) ∧ Proven endpoints older i) ∧
    (sends log).Nodup ∧
    ∀ max, cfg.maxAttempts = some max → (sends log).length ≤ max*endpoints.length := by
  have h := (run_sound cfg endpoints fits events).history
  exact ⟨h.nodup_sends.2,fun pass i q older hs => ⟨(h pass i q older hs).unbroken,(h pass i q older hs).proven⟩,
    h.nodup_sends.1,fun max hmax => h.length_sends_le hmax⟩

end Calls
end Dispatch
end Maki
