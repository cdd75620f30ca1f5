import Mathlib

/-! The circuit breaker of an endpoint (`maki_crypto::breaker`). Permits outlive the state they were
issued in: each remembers the generation of its admission, and every change of state starts a new
one. -/
namespace Maki

/-- Nanoseconds of `Duration::MAX`. -/
def durationMax : ℕ := (2^64-1)*10^9+999999999

abbrev Duration := {n : ℕ // n ≤ durationMax}

namespace Duration

def zero : Duration := ⟨0,Nat.zero_le _⟩
def saturatingAdd (a b : Duration) : Duration := ⟨min (a.1+b.1) durationMax,Nat.min_le_right _ _⟩
def saturatingMul (a : Duration) (n : ℕ) : Duration := ⟨min (a.1*n) durationMax,Nat.min_le_right _ _⟩

theorem le_saturatingMul (a : Duration) {n : ℕ} (hn : 0 < n) : a ≤ a.saturatingMul n := by
  have hmul : a.1 ≤ a.1*n := Nat.le_mul_of_pos_right _ hn
  exact Subtype.mk_le_mk.mpr (le_min hmul a.2)

end Duration

inductive CircuitState where
  | Closed
  | Open
  | HalfOpen
  deriving DecidableEq

structure BreakerConfig where
  failureThreshold : ℕ
  openInitial : Duration
  openMax : Duration
  halfOpenMaxRequests : ℕ
  successThreshold : ℕ

/-- The verdict an admission reports when its operation completes. -/
inductive Verdict where
  | Success
  | Failure
  | EndpointFatal
  deriving DecidableEq

/-- `Inner`, behind the lock. -/
structure CircuitBreaker where
  state : CircuitState
  consecutiveFailures : ℕ
  openUntil : Duration
  openDuration : Duration
  generation : ℕ
  halfOpenInflight : ℕ
  halfOpenSuccesses : ℕ
  deriving DecidableEq

namespace CircuitBreaker

variable (config : BreakerConfig)

def new : CircuitBreaker where
  state := .Closed
  consecutiveFailures := 0
  openUntil := Duration.zero
  openDuration := config.openInitial
  generation := 0
  halfOpenInflight := 0
  halfOpenSuccesses := 0

def nextAdmissionTime (b : CircuitBreaker) : Option Duration :=
  match b.state with
  | .Closed => some Duration.zero
  | .Open => some b.openUntil
  | .HalfOpen =>
    if b.halfOpenInflight < config.halfOpenMaxRequests then some Duration.zero else none

/-- `admit`: whether the request may go on, and the breaker after it. -/
def admission (b : CircuitBreaker) (now : Duration) : Bool × CircuitBreaker :=
  match b.state with
  | .Closed => (true,b)
  | .Open =>
    if b.openUntil ≤ now then
      (true,{ b with
        state := .HalfOpen
        generation := b.generation+1
        halfOpenInflight := 1
        halfOpenSuccesses := 0 })
    else (false,b)
  | .HalfOpen =>
    if b.halfOpenInflight < config.halfOpenMaxRequests then
      (true,{ b with halfOpenInflight := b.halfOpenInflight+1 })
    else (false,b)

/-- The outcome of an admission of the current generation; the probe's slot is free again. -/
def conclude (b : CircuitBreaker) (outcome : Option Verdict) (now : Duration) : CircuitBreaker :=
  match b.state,outcome with
  | .Closed,some .Success => { b with consecutiveFailures := 0 }
  | .HalfOpen,some .Success =>
    let b := { b with halfOpenSuccesses := b.halfOpenSuccesses+1 }
    if config.successThreshold ≤ b.halfOpenSuccesses then
      { b with
        state := .Closed
        generation := b.generation+1
        consecutiveFailures := 0
        openDuration := config.openInitial }
    else b
  | .Closed,some failure =>
    let b := { b with consecutiveFailures := b.consecutiveFailures+1 }
    if failure = .EndpointFatal ∨ config.failureThreshold ≤ b.consecutiveFailures then
      { b with
        state := .Open
        generation := b.generation+1
        openUntil := now.saturatingAdd b.openDuration }
    else b
  | .HalfOpen,some _ =>
    let openDuration := min (b.openDuration.saturatingMul 2) config.openMax
    { b with
      openDuration
      state := .Open
      generation := b.generation+1
      openUntil := now.saturatingAdd openDuration
      halfOpenInflight := 0 }
  | _,none | .Open,_ => b

def finish (b : CircuitBreaker) (generation : Option ℕ) (outcome : Option Verdict) (now : Duration) :
    CircuitBreaker :=
  if generation.any (· != b.generation) then b
  else
    let b := if b.state = .HalfOpen then { b with halfOpenInflight := b.halfOpenInflight-1 } else b
    b.conclude config outcome now

end CircuitBreaker

namespace Breaker

open CircuitBreaker

/-- A breaker with the generations of the permits that have not finished. -/
structure World where
  breaker : CircuitBreaker
  live : List ℕ

/-- A caller asks for a permit, or a permit finishes with its outcome, or is dropped without one; the
clock reads `now`. -/
inductive Event where
  | acquire (now : Duration)
  | finish (generation : ℕ) (outcome : Option Verdict) (now : Duration)

variable (config : BreakerConfig)

def World.new : World := ⟨.new config,[]⟩

def step (w : World) : Event → World
  | .acquire now =>
    match w.breaker.admission config now with
    | (true,b) => ⟨b,b.generation::w.live⟩
    | (false,b) => ⟨b,w.live⟩
  | .finish g outcome now =>
    if g ∈ w.live then ⟨w.breaker.finish config (some g) outcome now,w.live.erase g⟩ else w

def run (w : World) (events : List Event) : World := events.foldl (step config) w

/-- Probes are counted, and a permit is never ahead of the breaker. -/
structure Counted (w : World) : Prop where
  issued : ∀ g ∈ w.live, g ≤ w.breaker.generation
  probes : w.breaker.state = .HalfOpen →
    w.breaker.halfOpenInflight = w.live.count w.breaker.generation ∧
    w.breaker.halfOpenInflight ≤ config.halfOpenMaxRequests
  opens : config.openInitial ≤ w.breaker.openDuration ∧ w.breaker.openDuration ≤ config.openMax

variable {config}

theorem counted_new (hopen : config.openInitial ≤ config.openMax) :
    Counted config (World.new config) where
  issued g hg := by simp [World.new] at hg
  probes h := by simp [World.new,CircuitBreaker.new] at h
  opens := ⟨le_rfl,hopen⟩

variable {b : CircuitBreaker} {live : List ℕ} {w : World}

theorem finish_older {g : ℕ} (outcome : Option Verdict) (now : Duration)
    (hg : g ≠ b.generation) : b.finish config (some g) outcome now = b := by
  simp [CircuitBreaker.finish,hg]

theorem count_eq_zero_of_issued {n : ℕ} (h : ∀ g ∈ live, g ≤ n) :
    live.count (n+1) = 0 := by
  rw [List.count_eq_zero]
  intro hmem
  have := h _ hmem
  omega

theorem counted_acquire (hmax : 1 ≤ config.halfOpenMaxRequests) (h : Counted config w)
    (now : Duration) : Counted config (step config w (.acquire now)) := by
  obtain ⟨b,live⟩ := w
  obtain ⟨hissued,hprobes,hopens⟩ := h
  dsimp only at hissued hprobes hopens
  cases hs : b.state with
  | Closed =>
    simp only [step,admission,hs]
    refine ⟨?_,fun hc => absurd (hs.symm.trans hc) (by simp),hopens⟩
    simpa using hissued
  | Open =>
    simp only [step,admission,hs]
    split
    · -- the first probe of a new generation
      rename_i heq
      split at heq
      · cases heq
        have hnone := count_eq_zero_of_issued hissued
        refine ⟨?_,fun _ => ⟨?_,hmax⟩,hopens⟩
        · simpa using fun g hg => Nat.le_succ_of_le (hissued g hg)
        · simp [hnone]
      · cases heq
    · rename_i heq
      split at heq
      · cases heq
      · cases heq
        exact ⟨hissued,hprobes,hopens⟩
  | HalfOpen =>
    obtain ⟨hcount,hle⟩ := hprobes hs
    simp only [step,admission,hs]
    split
    · rename_i heq
      split at heq
      · rename_i hlt
        cases heq
        refine ⟨by simpa using hissued,fun _ => ⟨?_,hlt⟩,hopens⟩
        simp [hcount]
      · cases heq
    · rename_i heq
      split at heq
      · cases heq
      · cases heq
        exact ⟨hissued,hprobes,hopens⟩

theorem counted_older {g : ℕ} (h : Counted config ⟨b,live⟩)
    (hg : g ≠ b.generation) : Counted config ⟨b,live.erase g⟩ where
  issued k hk := h.issued k (List.mem_of_mem_erase hk)
  probes hs := by
    rw [List.count_erase_of_ne hg.symm]
    exact h.probes hs
  opens := h.opens

theorem counted_conclude (h : Counted config ⟨b,live⟩)
    (hopen : config.openInitial ≤ config.openMax) (outcome : Option Verdict) (now : Duration) :
    Counted config ⟨b.conclude config outcome now,live⟩ := by
  obtain ⟨hissued,hprobes,hopens⟩ := h
  have hnext : ∀ g ∈ live, g ≤ b.generation+1 := fun g hg => Nat.le_succ_of_le (hissued g hg)
  unfold CircuitBreaker.conclude
  split
  · exact ⟨hissued,hprobes,hopens⟩
  · dsimp only
    split
    · exact ⟨hnext,by simp,le_rfl,hopen⟩
    · exact ⟨hissued,hprobes,hopens⟩
  · dsimp only
    split
    · exact ⟨hnext,by simp,hopens⟩
    · exact ⟨hissued,hprobes,hopens⟩
  · refine ⟨hnext,by simp,le_min ?_ hopen,min_le_right _ _⟩
    exact hopens.1.trans (Duration.le_saturatingMul _ Nat.two_pos)
  all_goals exact ⟨hissued,hprobes,hopens⟩

theorem counted_finish (hopen : config.openInitial ≤ config.openMax)
    (h : Counted config w) (g : ℕ) (outcome : Option Verdict) (now : Duration) :
    Counted config (step config w (.finish g outcome now)) := by
  obtain ⟨b,live⟩ := w
  simp only [step]
  split
  · rename_i hlive
    by_cases hg : g = b.generation
    · subst hg
      have hpass : (some b.generation).any (· != b.generation) = false := by simp
      simp only [CircuitBreaker.finish,hpass,Bool.false_eq_true,if_false]
      apply counted_conclude _ hopen
      split
      · -- the probe leaves the window with its permit
        rename_i hs
        obtain ⟨hcount,hle⟩ := h.probes hs
        refine ⟨fun k hk => h.issued k (List.mem_of_mem_erase hk),fun _ => ⟨?_,?_⟩,h.opens⟩
        · rw [List.count_erase_self,← hcount]
        · exact (Nat.sub_le _ _).trans hle
      · rename_i hs
        exact ⟨fun k hk => h.issued k (List.mem_of_mem_erase hk),fun hc => absurd hc hs,h.opens⟩
    · rw [finish_older outcome now hg]
      exact counted_older h hg
  · exact h

theorem counted_run (hmax : 1 ≤ config.halfOpenMaxRequests)
    (hopen : config.openInitial ≤ config.openMax) (h : Counted config w)
    (events : List Event) : Counted config (run config w events) := by
  induction events generalizing w with
  | nil => exact h
  | cons e events ih =>
    apply ih
    cases e with
    | acquire now => exact counted_acquire hmax h now
    | finish g outcome now => exact counted_finish hopen h g outcome now

/-- With no permit out, the breaker names a time from which it admits. -/
theorem admits_from_ready (hmax : 1 ≤ config.halfOpenMaxRequests)
    (h : Counted config ⟨b,[]⟩) :
    ∃ ready, b.nextAdmissionTime config = some ready ∧
      ∀ now, ready ≤ now → (b.admission config now).1 = true := by
  cases hs : b.state with
  | Closed => exact ⟨Duration.zero,by simp [nextAdmissionTime,hs],fun _ _ => by simp [admission,hs]⟩
  | Open =>
    refine ⟨b.openUntil,by simp [nextAdmissionTime,hs],fun now hnow => ?_⟩
    simp [admission,hs,hnow]
  | HalfOpen =>
    have hnone : b.halfOpenInflight = 0 := (h.probes hs).1
    have hfree : b.halfOpenInflight < config.halfOpenMaxRequests := by omega
    refine ⟨Duration.zero,by simp [nextAdmissionTime,hs,hfree],fun _ _ => ?_⟩
    simp [admission,hs,hfree]

/-- The breaker counts its probes and never wedges: in the half-open window the probes in flight are
the live permits of the window, a permit of an older generation changes nothing, the open interval
keeps to its bounds, and without a live permit a request is admitted from the announced time on. -/
theorem probes_counted_never_wedged (config : BreakerConfig) (hmax : 1 ≤ config.halfOpenMaxRequests)
    (hopen : config.openInitial ≤ config.openMax) (events : List Event) :
    let w := run config (World.new config) events
    (w.breaker.state = .HalfOpen →
      w.breaker.halfOpenInflight = w.live.count w.breaker.generation ∧
      w.breaker.halfOpenInflight ≤ config.halfOpenMaxRequests) ∧
    (∀ g ∈ w.live, g ≤ w.breaker.generation) ∧
    (∀ g < w.breaker.generation, ∀ outcome now,
      w.breaker.finish config (some g) outcome now = w.breaker) ∧
    (config.openInitial ≤ w.breaker.openDuration ∧ w.breaker.openDuration ≤ config.openMax) ∧
    (w.live = [] → ∃ ready, w.breaker.nextAdmissionTime config = some ready ∧
      ∀ now, ready ≤ now → (w.breaker.admission config now).1 = true) := by
  intro w
  have h := counted_run hmax hopen (counted_new hopen) events
  refine ⟨h.probes,h.issued,fun g hg outcome now => finish_older outcome now hg.ne,h.opens,?_⟩
  intro hlive
  have hw : w = ⟨w.breaker,[]⟩ := by rw [← hlive]
  exact admits_from_ready hmax (hw ▸ h)

def sampleConfig : BreakerConfig :=
  ⟨1,⟨1,by decide⟩,⟨4,by decide⟩,2,2⟩

/-- Two failures of one closed window, of which the second is stale, and a probe. -/
theorem probes_counted_after_stale_failure :
    let now : Duration := ⟨5,by decide⟩
    let w := run sampleConfig (World.new sampleConfig)
      [.acquire Duration.zero,.acquire Duration.zero,.finish 0 (some .Failure) Duration.zero,
        .acquire now,.finish 0 (some .Failure) now]
    w.live = [2] ∧ w.breaker.state = .HalfOpen ∧ w.breaker.halfOpenInflight = w.live.count 2 := by
  refine ⟨by decide,by decide,?_⟩
  exact ((probes_counted_never_wedged sampleConfig (by decide) (by decide) _).1 (by decide)).1

end Breaker
end Maki
