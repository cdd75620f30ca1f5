import Mathlib
import Maki.Request

/-! Writers of a volume running side by side (`maki_core::engine`: `UnitLocks::lock_range`,
`write_admitted`, `trim_units`, `publish_ciphertexts`). A request takes the locks of its units
in ascending order, reads what it covers in part, encrypts, publishes and drops its guards, one
step at a time between the steps of others. The lock table is swept of entries only it refers
to. The invariant ties every mutex a request refers to to the table's entry of its unit, so a
unit has one lock, whatever was swept. -/
namespace Maki

abbrev TaskId := ℕ
abbrev MutexId := ℕ

/-- A provider of ciphertexts; an encryption may use a nonce. -/
structure Provider where
  encrypt : ℕ → ℕ → Bytes → Bytes
  decrypt : ℕ → Bytes → Bytes
  decrypt_encrypt : ∀ nonce unit plaintext, decrypt unit (encrypt nonce unit plaintext) = plaintext

/-- The table of unit locks. Every new mutex gets a name of its own. -/
structure UnitLocks where
  locks : Std.TreeMap ℕ MutexId := ∅
  sweepThreshold : ℕ := 8192
  next : MutexId := 0

namespace UnitLocks

/-- Drop idle entries once the table has doubled. `shared` is what
`Arc::strong_count(m) > 1` says of an entry. -/
def sweep (shared : MutexId → Bool) (l : UnitLocks) : UnitLocks :=
  if l.locks.size > l.sweepThreshold then
    let kept := l.locks.filter fun _ m => shared m
    { l with locks := kept, sweepThreshold := max (min (kept.size*2) u64Max) 8192 }
  else l

/-- `map.entry(unit).or_insert_with(..).clone()`. -/
def entry (unit : ℕ) (l : UnitLocks) : MutexId × UnitLocks :=
  match l.locks[unit]? with
  | some m => (m,l)
  | none => (l.next,{ l with locks := l.locks.insert unit l.next, next := l.next+1 })

end UnitLocks

inductive Phase where
  /-- Before the table's entry of a unit is looked up. -/
  | entering (unit : ℕ)
  /-- At `mutex.lock_owned().await`. -/
  | locking (unit : ℕ) (mutex : MutexId)
  | reading
  | encrypting (existing : ℕ → Option Bytes)
  | publishing (cts : List (ℕ × Bytes))
  | releasing

/-- A request on one of its unit ranges; `todo` are the ranges left after it. -/
structure Task where
  request : Mutation
  first : ℕ
  last : ℕ
  todo : List (ℕ × ℕ)
  phase : Phase
  guards : List (ℕ × MutexId)

namespace Task

def units (k : Task) : List ℕ := List.range' k.first (k.last+1-k.first)

def arcs (k : Task) : List MutexId :=
  k.guards.map (·.2) ++
    match k.phase with
    | .locking _ m => [m]
    | _ => []

/-- What follows the last lock: a trim has nothing to read. -/
def locked (k : Task) : Phase :=
  match k.request with
  | .write _ _ => .reading
  | .trim _ _ => .publishing (k.units.map (·,[]))

end Task

/-- A journal record and the request it came from. -/
structure Published where
  sequence : ℕ
  unit : ℕ
  payload : Bytes
  request : Mutation
  deriving DecidableEq

/-- The writers, their locks, and what `read_ct` finds for each unit. A mutex is fair: its
queue holds the owner and behind it the waiting requests. -/
structure Writers where
  unitLocks : UnitLocks := {}
  queue : MutexId → List TaskId := fun _ => []
  tasks : Std.TreeMap ℕ Task := ∅
  current : ℕ → Option (ℕ × Bytes)
  nextSequence : ℕ
  log : List Published := []

namespace Writers

section Steps

variable (P : Provider) (e : EngineParams) (s : Writers)

/-- The table's own reference and those of the requests. -/
def strongCount (m : MutexId) : ℕ := 1+(s.tasks.toList.flatMap (·.2.arcs)).count m

def setTask (t : TaskId) (k : Task) : Writers := { s with tasks := s.tasks.insert t k }

def start (t : TaskId) (r : Mutation) : Option Writers :=
  match s.tasks[t]?, e.check r, e.chunks r with
  | none, .ok _, (first,last)::todo =>
    some (s.setTask t { request := r, first, last, todo, phase := .entering first, guards := [] })
  | _, _, _ => none

/-- The table after its sweep. Guards may be dropped while the table is walked, so entries that
turn idle, `late`, may survive. -/
def swept (late : List MutexId) : UnitLocks :=
  s.unitLocks.sweep fun m => decide (s.strongCount m > 1) || late.contains m

def enter (t : TaskId) (late : List MutexId) : Option Writers :=
  s.tasks[t]?.bind fun k =>
    match k.phase with
    | .entering unit =>
      let r := (s.swept late).entry unit
      some { s.setTask t { k with phase := .locking unit r.1 } with unitLocks := r.2 }
    | _ => none

def enqueue (t : TaskId) : Option Writers :=
  s.tasks[t]?.bind fun k =>
    match k.phase with
    | .locking _ m =>
      if t ∈ s.queue m then none
      else some { s with queue := Function.update s.queue m (s.queue m ++ [t]) }
    | _ => none

def acquire (t : TaskId) : Option Writers :=
  s.tasks[t]?.bind fun k =>
    match k.phase with
    | .locking unit m =>
      if (s.queue m).head? = some t then
        some (s.setTask t { k with
          guards := k.guards ++ [(unit,m)]
          phase := if unit < k.last then .entering (unit+1) else k.locked })
      else none
    | _ => none

def oldUnits (offset : ℕ) (data : WriteInput) (unit : ℕ) : Option Bytes :=
  if e.full offset data.len unit then none
  else (s.current unit).map fun version => P.decrypt unit version.2

/-- Old plaintexts of the partly covered units, under one shared lock of the volume. -/
def read (t : TaskId) : Option Writers :=
  s.tasks[t]?.bind fun k =>
    match k.phase, k.request with
    | .reading, .write offset data =>
      let existing := s.oldUnits P e offset data
      if k.units.all fun unit => (existing unit).all (·.length = e.unitSize) then
        some (s.setTask t { k with phase := .encrypting existing })
      else none
    | _, _ => none

def sealedUnit (offset : ℕ) (data : WriteInput) (existing : ℕ → Option Bytes) (nonce : ℕ → ℕ)
    (unit : ℕ) : Bytes :=
  P.encrypt (nonce unit) unit (e.unitBuffer offset data unit (existing unit))

def encrypt (t : TaskId) (nonce : ℕ → ℕ) : Option Writers :=
  s.tasks[t]?.bind fun k =>
    match k.phase, k.request with
    | .encrypting existing, .write offset data =>
      let cts := k.units.map fun unit => (unit,sealedUnit P e offset data existing nonce unit)
      -- A ciphertext the volume cannot hold never reaches the journal.
      if cts.any fun ct => ct.2.isEmpty || ct.2.length > e.geometry.maxCiphertextSize then none
      else some (s.setTask t { k with phase := .publishing cts })
    | _, _ => none

/-- The journal accepts the next record, under a sequence above all earlier ones. -/
def publish (t : TaskId) (sequence : ℕ) : Option Writers :=
  s.tasks[t]?.bind fun k =>
    match k.phase with
    | .publishing ((unit,ct)::rest) =>
      if s.nextSequence ≤ sequence then
        some { s.setTask t { k with phase := .publishing rest } with
          current := Function.update s.current unit (if ct = [] then none else some (sequence,ct))
          nextSequence := sequence+1
          log := s.log ++ [⟨sequence,unit,ct,k.request⟩] }
      else none
    | _ => none

/-- A trim journals nothing for a unit that reads as zeros already. -/
def skip (t : TaskId) : Option Writers :=
  s.tasks[t]?.bind fun k =>
    match k.phase with
    | .publishing ((unit,[])::rest) =>
      if s.current unit = none then some (s.setTask t { k with phase := .publishing rest }) else none
    | _ => none

def finish (t : TaskId) : Option Writers :=
  s.tasks[t]?.bind fun k =>
    match k.phase with
    | .publishing [] => some (s.setTask t { k with phase := .releasing })
    | _ => none

/-- A request ends early: an error, or its caller gave it up. Its guards are dropped. -/
def fail (t : TaskId) : Option Writers :=
  s.tasks[t]?.bind fun k =>
    let dropped := s.setTask t { k with phase := .releasing, todo := [] }
    match k.phase with
    | .releasing => none
    | .locking _ m => some { dropped with queue := Function.update s.queue m ((s.queue m).erase t) }
    | _ => some dropped

def release (t : TaskId) : Option Writers :=
  s.tasks[t]?.bind fun k =>
    match k.phase, k.guards with
    | .releasing, (_,m)::rest =>
      some { s.setTask t { k with guards := rest } with
        queue := Function.update s.queue m ((s.queue m).erase t) }
    | _, _ => none

/-- On to the next range, or the request is over. -/
def next (t : TaskId) : Option Writers :=
  s.tasks[t]?.bind fun k =>
    match k.phase, k.guards, k.todo with
    | .releasing, [], (first,last)::todo =>
      some (s.setTask t { k with first, last, todo, phase := .entering first })
    | .releasing, [], [] => some { s with tasks := s.tasks.erase t }
    | _, _, _ => none

end Steps

inductive Event where
  | start (t : TaskId) (r : Mutation)
  | enter (t : TaskId) (late : List MutexId)
  | enqueue (t : TaskId)
  | acquire (t : TaskId)
  | read (t : TaskId)
  | encrypt (t : TaskId) (nonce : ℕ → ℕ)
  | publish (t : TaskId) (sequence : ℕ)
  | skip (t : TaskId)
  | finish (t : TaskId)
  | fail (t : TaskId)
  | release (t : TaskId)
  | next (t : TaskId)

def step (P : Provider) (e : EngineParams) (s : Writers) : Event → Option Writers
  | .start t r => s.start e t r
  | .enter t late => s.enter t late
  | .enqueue t => s.enqueue t
  | .acquire t => s.acquire t
  | .read t => s.read P e t
  | .encrypt t nonce => s.encrypt P e t nonce
  | .publish t sequence => s.publish t sequence
  | .skip t => s.skip t
  | .finish t => s.finish t
  | .fail t => s.fail t
  | .release t => s.release t
  | .next t => s.next t

/-- A schedule: the events of any number of requests in any order. -/
def run (P : Provider) (e : EngineParams) (s : Writers) (events : List Event) : Option Writers :=
  events.foldlM (step P e) s

end Writers

/-- A request refers to the mutex of a unit, as its owner or waiting for it. -/
def Task.Ref (k : Task) (unit : ℕ) (m : MutexId) : Prop :=
  (unit,m) ∈ k.guards ∨ k.phase = .locking unit m

/-- The guards of a request against its place: ascending from the first unit, all of them from
the last lock on. -/
def Task.Shape (k : Task) : Prop :=
  match k.phase with
  | .entering unit => k.first ≤ unit ∧ unit ≤ k.last ∧ k.guards.map (·.1) = List.range' k.first (unit-k.first)
  | .locking unit _ => k.first ≤ unit ∧ unit ≤ k.last ∧ k.guards.map (·.1) = List.range' k.first (unit-k.first)
  | .releasing => True
  | _ => k.guards.map (·.1) = k.units

/-- A request was accepted and works on ranges of its own. -/
def Task.Checked (e : EngineParams) (k : Task) : Prop :=
  e.check k.request = .ok () ∧ (k.first,k.last) ∈ e.chunks k.request ∧
    ∀ c ∈ k.todo, c ∈ e.chunks k.request

theorem Task.mem_arcs {k : Task} {unit : ℕ} {m : MutexId} (h : k.Ref unit m) : m ∈ k.arcs := by
  rcases h with h | h
  · exact List.mem_append_left _ (List.mem_map.mpr ⟨(unit,m),h,rfl⟩)
  · exact List.mem_append_right _ (by simp [h])

namespace Writers

structure LocksOk (l : UnitLocks) (queue : MutexId → List TaskId) (tasks : Std.TreeMap ℕ Task) :
    Prop where
  named : ∀ (u : ℕ) m, l.locks[u]? = some m → m < l.next
  inj : ∀ (u v : ℕ) m, l.locks[u]? = some m → l.locks[v]? = some m → u = v
  entries : ∀ (t : ℕ) (k : Task) (u : ℕ) m, tasks[t]? = some k → k.Ref u m → l.locks[u]? = some m
  owner : ∀ (t : ℕ) (k : Task) u m, tasks[t]? = some k → (u,m) ∈ k.guards → (queue m).head? = some t
  queued : ∀ (t : ℕ) m, t ∈ queue m → ∃ (k : Task) (u : ℕ), tasks[t]? = some k ∧ k.Ref u m
  nodup : ∀ m, (queue m).Nodup
  shape : ∀ (t : ℕ) (k : Task), tasks[t]? = some k → k.Shape ∧ (k.guards.map (·.1)).Nodup

theorem getElem?_insert (tasks : Std.TreeMap ℕ Task) (t : TaskId) (k : Task) (t' : TaskId) :
    (tasks.insert t k)[t']? = if t' = t then some k else tasks[t']? := by
  simp only [Std.TreeMap.getElem?_insert,Nat.compare_eq_eq,@eq_comm _ t t']

namespace LocksOk

variable {l : UnitLocks} {queue : MutexId → List TaskId} {tasks tasks' : Std.TreeMap ℕ Task}
  {t : TaskId}

theorem head?_erase {q : List TaskId} {t' : TaskId} (hq : q.head? = some t') (hne : t' ≠ t) :
    (q.erase t).head? = some t' := by
  cases q with
  | nil => cases hq
  | cons a q =>
    obtain rfl : a = t' := Option.some.inj hq
    rw [List.erase_cons_tail (by simpa using hne)]
    rfl

variable (h : LocksOk l queue tasks)

include h

/-- A request moves on, or comes or goes, and refers to no fewer mutexes than before. -/
theorem retask {o : Option Task}
    (htasks : ∀ t' : ℕ, tasks'[t']? = if t' = t then o else tasks[t']?)
    (howner : ∀ k ∈ o, ∀ p ∈ k.guards, (queue p.2).head? = some t)
    (hentries : ∀ k ∈ o, ∀ u m, k.Ref u m → l.locks[u]? = some m)
    (hkept : ∀ k₀, tasks[t]? = some k₀ → ∀ u m, k₀.Ref u m → ∃ k ∈ o, k.Ref u m)
    (hshape : ∀ k ∈ o, k.Shape ∧ (k.guards.map (·.1)).Nodup) : LocksOk l queue tasks' where
  named := h.named
  inj := h.inj
  entries t' k u m hk hr := by
    rw [htasks] at hk
    split at hk
    · exact hentries k hk u m hr
    · exact h.entries t' k u m hk hr
  owner t' k u m hk hg := by
    rw [htasks] at hk
    split at hk
    · rename_i heq
      exact heq ▸ howner k hk (u,m) hg
    · exact h.owner t' k u m hk hg
  queued t' m hm := by
    obtain ⟨k₀,u,hk₀,hr₀⟩ := h.queued t' m hm
    by_cases heq : t' = t
    · subst heq
      obtain ⟨k,hk,hr⟩ := hkept k₀ hk₀ u m hr₀
      exact ⟨k,u,by rw [htasks,if_pos rfl]; exact hk,hr⟩
    · exact ⟨k₀,u,by rw [htasks,if_neg heq]; exact hk₀,hr₀⟩
  nodup := h.nodup
  shape t' k hk := by
    rw [htasks] at hk
    split at hk
    · exact hshape k hk
    · exact h.shape t' k hk

variable {k : Task} {unit : ℕ} {m : MutexId}

/-- A request whose guards stay and that waits for no mutex before or after. -/
theorem advance {k' : Task} (hk : tasks[t]? = some k)
    (hguards : k'.guards = k.guards) (hbefore : ∀ u m, k.phase ≠ .locking u m)
    (hafter : ∀ u m, k'.phase ≠ .locking u m) (hshape : k'.Shape) :
    LocksOk l queue (tasks.insert t k') := by
  refine h.retask (o := some k') (getElem?_insert tasks t k') ?_ ?_ ?_ ?_
  · rintro _ ⟨⟩ p hp
    exact h.owner t k p.1 p.2 hk (hguards ▸ hp)
  · rintro _ ⟨⟩ u m (hr | hr)
    · exact h.entries t k u m hk (.inl (hguards ▸ hr))
    · exact absurd hr (hafter u m)
  · rintro k₀ hk₀ u m hr
    obtain rfl : k = k₀ := Option.some.inj (hk.symm.trans hk₀)
    rcases hr with hr | hr
    · exact ⟨k',rfl,.inl (hguards ▸ hr)⟩
    · exact absurd hr (hbefore u m)
  · rintro _ ⟨⟩
    exact ⟨hshape,hguards ▸ (h.shape t k hk).2⟩

theorem start (ht : tasks[t]? = none) (hg : k.guards = [])
    (hp : ∀ u m, k.phase ≠ .locking u m) (hshape : k.Shape) :
    LocksOk l queue (tasks.insert t k) := by
  refine h.retask (o := some k) (getElem?_insert tasks t k) ?_ ?_ ?_ ?_
  · rintro _ ⟨⟩ p hp
    simp [hg] at hp
  · rintro _ ⟨⟩ u m (hr | hr)
    · simp [hg] at hr
    · exact absurd hr (hp u m)
  · intro k₀ hk₀
    rw [ht] at hk₀
    cases hk₀
  · rintro _ ⟨⟩
    exact ⟨hshape,by simp [hg]⟩

theorem leave (hk : tasks[t]? = some k) (hg : k.guards = [])
    (hp : ∀ u m, k.phase ≠ .locking u m) : LocksOk l queue (tasks.erase t) := by
  refine h.retask (t := t) (o := none) (fun t' => ?_) ?_ ?_ ?_ ?_
  · simp only [Std.TreeMap.getElem?_erase,Nat.compare_eq_eq,@eq_comm _ t t']
  · rintro _ ⟨⟩
  · rintro _ ⟨⟩
  · rintro k₀ hk₀ u m (hr | hr)
    · obtain rfl : k = k₀ := Option.some.inj (hk.symm.trans hk₀)
      simp [hg] at hr
    · obtain rfl : k = k₀ := Option.some.inj (hk.symm.trans hk₀)
      exact absurd hr (hp u m)
  · rintro _ ⟨⟩

theorem sweep {shared : MutexId → Bool}
    (hshared : ∀ (t' : ℕ) (k : Task) u m, tasks[t']? = some k → k.Ref u m → shared m = true) :
    LocksOk (l.sweep shared) queue tasks := by
  unfold UnitLocks.sweep
  split
  · have hkept : ∀ (u : ℕ) m, (l.locks.filter fun _ m => shared m)[u]? = some m ↔
        l.locks[u]? = some m ∧ shared m = true := by
      intro u m
      rw [Std.TreeMap.getElem?_filter',Option.filter_eq_some_iff]
    exact {
      named := fun u m hm => h.named u m ((hkept u m).mp hm).1
      inj := fun u v m hu hv => h.inj u v m ((hkept u m).mp hu).1 ((hkept v m).mp hv).1
      entries := fun t' k u m hk hr =>
        (hkept u m).mpr ⟨h.entries t' k u m hk hr,hshared t' k u m hk hr⟩
      owner := h.owner
      queued := h.queued
      nodup := h.nodup
      shape := h.shape }
  · exact h

/-- A table that has grown by a new mutex at a free entry. -/
theorem grow (hfree : l.locks[unit]? = none) :
    LocksOk { l with locks := l.locks.insert unit l.next, next := l.next+1 } queue tasks := by
  have hget : ∀ u : ℕ, (l.locks.insert unit l.next)[u]? =
      if u = unit then some l.next else l.locks[u]? := by
    intro u
    simp only [Std.TreeMap.getElem?_insert,Nat.compare_eq_eq,@eq_comm _ unit u]
  refine ⟨?_,?_,?_,h.owner,h.queued,h.nodup,h.shape⟩
  · intro u m hm
    simp only [hget] at hm
    split at hm
    · cases hm
      exact Nat.lt_succ_self _
    · exact Nat.lt_succ_of_lt (h.named u m hm)
  · intro u v m hu hv
    simp only [hget] at hu hv
    split at hu <;> split at hv
    · simp_all
    · cases hu
      exact absurd (h.named v _ hv) (Nat.lt_irrefl _)
    · cases hv
      exact absurd (h.named u _ hu) (Nat.lt_irrefl _)
    · exact h.inj u v m hu hv
  · intro t' k u m hk hr
    have hold := h.entries t' k u m hk hr
    simp only [hget]
    rw [if_neg]
    · exact hold
    · rintro rfl
      rw [hfree] at hold
      cases hold

section Task

variable (hk : tasks[t]? = some k)

include hk

/-- A request turns to the mutex the table has for its next unit. -/
theorem await (hp : k.phase = .entering unit) (hm : l.locks[unit]? = some m) :
    LocksOk l queue (tasks.insert t { k with phase := .locking unit m }) := by
  refine h.retask (o := some { k with phase := .locking unit m }) (getElem?_insert tasks t _) ?_ ?_ ?_ ?_
  · rintro _ ⟨⟩ p hp
    exact h.owner t k p.1 p.2 hk hp
  · rintro _ ⟨⟩ u m' (hr | hr)
    · exact h.entries t k u m' hk (.inl hr)
    · simp only [Phase.locking.injEq] at hr
      rw [← hr.1,← hr.2]
      exact hm
  · rintro k₀ hk₀ u m' hr
    obtain rfl : k = k₀ := Option.some.inj (hk.symm.trans hk₀)
    rcases hr with hr | hr
    · exact ⟨_,rfl,.inl hr⟩
    · rw [hp] at hr
      cases hr
  · rintro _ ⟨⟩
    have hs := h.shape t k hk
    refine ⟨?_,hs.2⟩
    simpa only [Task.Shape,hp] using hs.1

theorem entry (hp : k.phase = .entering unit) :
    LocksOk (l.entry unit).2 queue (tasks.insert t { k with phase := .locking unit (l.entry unit).1 }) := by
  unfold UnitLocks.entry
  cases hm : l.locks[unit]? with
  | some m => exact h.await hk hp hm
  | none =>
    refine (h.grow hm).await hk hp ?_
    simp only [Std.TreeMap.getElem?_insert,Nat.compare_eq_eq,if_true]

theorem enqueue {u : ℕ}
    (hr : k.Ref u m) (hn : t ∉ queue m) :
    LocksOk l (Function.update queue m (queue m ++ [t])) tasks where
  named := h.named
  inj := h.inj
  entries := h.entries
  owner t' k' u' m' hk' hg := by
    have ho := h.owner t' k' u' m' hk' hg
    by_cases hm : m' = m
    · subst hm
      rw [Function.update_self,List.head?_append,ho,Option.some_or]
    · rw [Function.update_of_ne hm,ho]
  queued t' m' hmem := by
    by_cases hm : m' = m
    · subst hm
      rw [Function.update_self,List.mem_append,List.mem_singleton] at hmem
      rcases hmem with hmem | rfl
      · exact h.queued t' m' hmem
      · exact ⟨k,u,hk,hr⟩
    · rw [Function.update_of_ne hm] at hmem
      exact h.queued t' m' hmem
  nodup m' := by
    by_cases hm : m' = m
    · subst hm
      rw [Function.update_self]
      exact List.Nodup.append (h.nodup m') (List.nodup_singleton t) (by simpa using hn)
    · rw [Function.update_of_ne hm]
      exact h.nodup m'
  shape := h.shape

theorem not_held (hp : k.phase = .locking unit m) :
    ∀ p ∈ k.guards, p.1 < unit ∧ p.2 ≠ m := by
  intro p hpg
  have hs := (h.shape t k hk).1
  simp only [Task.Shape,hp] at hs
  have hmem : p.1 ∈ k.guards.map (·.1) := List.mem_map.mpr ⟨p,hpg,rfl⟩
  rw [hs.2.2,List.mem_range'_1] at hmem
  refine ⟨by omega,?_⟩
  rintro rfl
  have h₁ := h.entries t k p.1 p.2 hk (.inl hpg)
  have h₂ := h.entries t k unit p.2 hk (.inr hp)
  have heq := h.inj p.1 unit p.2 h₁ h₂
  omega

theorem acquire (hp : k.phase = .locking unit m)
    (hhead : (queue m).head? = some t) :
    LocksOk l queue (tasks.insert t { k with
      guards := k.guards ++ [(unit,m)]
      phase := if unit < k.last then .entering (unit+1) else k.locked }) := by
  have hs := (h.shape t k hk).1
  simp only [Task.Shape,hp] at hs
  have hunits : (k.guards ++ [(unit,m)]).map (·.1) = List.range' k.first (unit+1-k.first) := by
    rw [List.map_append,hs.2.2,show unit+1-k.first = (unit-k.first)+1 by omega,List.range'_concat]
    simp only [List.map_cons,List.map_nil]
    rw [show k.first+1*(unit-k.first) = unit by omega]
  have hphase : ∀ u m', (if unit < k.last then Phase.entering (unit+1) else k.locked) ≠ .locking u m' := by
    intro u m'
    split
    · exact fun hc => by cases hc
    · unfold Task.locked
      cases k.request <;> exact fun hc => by cases hc
  refine h.retask (o := some _) (getElem?_insert tasks t _) ?_ ?_ ?_ ?_
  · rintro _ ⟨⟩
    exact forall_mem_concat (fun p hpg => h.owner t k p.1 p.2 hk hpg) hhead
  · rintro _ ⟨⟩ u m' (hr | hr)
    · rcases List.mem_append.mp hr with hr | hr
      · exact h.entries t k u m' hk (.inl hr)
      · rw [List.mem_singleton,Prod.mk.injEq] at hr
        exact h.entries t k u m' hk (.inr (by rw [hr.1,hr.2,hp]))
    · exact absurd hr (hphase u m')
  · rintro k₀ hk₀ u m' hr
    obtain rfl : k = k₀ := Option.some.inj (hk.symm.trans hk₀)
    refine ⟨_,rfl,.inl ?_⟩
    rcases hr with hr | hr
    · exact List.mem_append_left _ hr
    · rw [hp,Phase.locking.injEq] at hr
      exact List.mem_append_right _ (by simp [hr])
  · rintro _ ⟨⟩
    refine ⟨?_,by rw [hunits]; exact List.nodup_range' 1⟩
    by_cases hlast : unit < k.last
    · simp only [Task.Shape,if_pos hlast]
      exact ⟨by omega,by omega,hunits⟩
    · obtain rfl : unit = k.last := by omega
      simp only [Task.Shape,if_neg (Nat.lt_irrefl _),Task.locked]
      cases k.request <;> exact hunits

/-- A request lets go of one mutex, which it owned or waited for. -/
theorem unqueue {k' : Task} (hrefs : ∀ u m', k'.Ref u m' ↔ k.Ref u m' ∧ m' ≠ m)
    (hguards : ∀ p ∈ k'.guards, p ∈ k.guards)
    (hshape : k'.Shape ∧ (k'.guards.map (·.1)).Nodup) :
    LocksOk l (Function.update queue m ((queue m).erase t)) (tasks.insert t k') where
  named := h.named
  inj := h.inj
  entries t' k₁ u m' hk₁ hr := by
    rw [getElem?_insert] at hk₁
    split at hk₁
    · cases hk₁
      exact h.entries t k u m' hk ((hrefs u m').mp hr).1
    · exact h.entries t' k₁ u m' hk₁ hr
  owner t' k₁ u m' hk₁ hg := by
    rw [getElem?_insert] at hk₁
    split at hk₁
    · rename_i heq
      cases hk₁
      rw [Function.update_of_ne ((hrefs u m').mp (.inl hg)).2,heq]
      exact h.owner t k u m' hk (hguards _ hg)
    · rename_i hne
      have ho := h.owner t' k₁ u m' hk₁ hg
      by_cases hm : m' = m
      · subst hm
        rw [Function.update_self]
        exact head?_erase ho hne
      · rw [Function.update_of_ne hm,ho]
  queued t' m' hmem := by
    have hold : t' ∈ queue m' ∧ (t' = t → m' ≠ m) := by
      by_cases hm : m' = m
      · subst hm
        rw [Function.update_self,(h.nodup m').mem_erase_iff] at hmem
        exact ⟨hmem.2,fun heq => absurd heq hmem.1⟩
      · rw [Function.update_of_ne hm] at hmem
        exact ⟨hmem,fun _ => hm⟩
    obtain ⟨k₀,u,hk₀,hr⟩ := h.queued t' m' hold.1
    by_cases heq : t' = t
    · subst heq
      obtain rfl : k = k₀ := Option.some.inj (hk.symm.trans hk₀)
      exact ⟨k',u,by rw [getElem?_insert,if_pos rfl],(hrefs u m').mpr ⟨hr,hold.2 rfl⟩⟩
    · exact ⟨k₀,u,by rw [getElem?_insert,if_neg heq]; exact hk₀,hr⟩
  nodup m' := by
    by_cases hm : m' = m
    · subst hm
      rw [Function.update_self]
      exact (h.nodup m').erase t
    · rw [Function.update_of_ne hm]
      exact h.nodup m'
  shape t' k₁ hk₁ := by
    rw [getElem?_insert] at hk₁
    split at hk₁
    · cases hk₁
      exact hshape
    · exact h.shape t' k₁ hk₁

theorem giveUp (hp : k.phase = .locking unit m) :
    LocksOk l (Function.update queue m ((queue m).erase t))
      (tasks.insert t { k with phase := .releasing, todo := [] }) := by
  refine h.unqueue hk (fun u m' => ⟨?_,?_⟩) (fun _ hg => hg) ⟨trivial,(h.shape t k hk).2⟩
  · rintro (hr | hr)
    · exact ⟨.inl hr,(h.not_held hk hp _ hr).2⟩
    · cases hr
  · rintro ⟨hr | hr,hm⟩
    · exact .inl hr
    · rw [hp,Phase.locking.injEq] at hr
      exact absurd hr.2.symm hm

theorem release {p : ℕ × MutexId} {rest : List (ℕ × MutexId)}
    (hp : k.phase = .releasing) (hg : k.guards = p::rest) :
    LocksOk l (Function.update queue p.2 ((queue p.2).erase t))
      (tasks.insert t { k with guards := rest }) := by
  have hnodup := (h.shape t k hk).2
  rw [hg,List.map_cons,List.nodup_cons] at hnodup
  refine h.unqueue hk (fun u m' => ⟨?_,?_⟩) (fun _ hr => hg ▸ List.mem_cons_of_mem _ hr) ⟨?_,hnodup.2⟩
  · rintro (hr | hr)
    · have hr : (u,m') ∈ rest := hr
      refine ⟨.inl (hg ▸ List.mem_cons_of_mem _ hr),?_⟩
      rintro rfl
      -- One mutex would be the entry of two units.
      have h₁ := h.entries t k u p.2 hk (.inl (hg ▸ List.mem_cons_of_mem _ hr))
      have h₂ := h.entries t k p.1 p.2 hk (.inl (hg ▸ List.mem_cons_self))
      have heq := h.inj u p.1 p.2 h₁ h₂
      exact hnodup.1 (List.mem_map.mpr ⟨_,hr,heq⟩)
    · have hr : k.phase = .locking u m' := hr
      rw [hp] at hr
      cases hr
  · rintro ⟨hr | hr,hm⟩
    · rw [hg,List.mem_cons] at hr
      rcases hr with hr | hr
      · exact absurd (congrArg Prod.snd hr) hm
      · exact .inl hr
    · rw [hp] at hr
      cases hr
  · simp only [Task.Shape,hp]

end Task

theorem owner_unique {t₁ t₂ : TaskId} {k₁ k₂ : Task} {u m₁ m₂ : ℕ}
    (h₁ : tasks[t₁]? = some k₁) (h₂ : tasks[t₂]? = some k₂) (hg₁ : (u,m₁) ∈ k₁.guards)
    (hg₂ : (u,m₂) ∈ k₂.guards) : t₁ = t₂ := by
  -- Both guards are of the mutex the table has for the unit.
  have hm₁ := h.entries t₁ k₁ u m₁ h₁ (.inl hg₁)
  have hm₂ := h.entries t₂ k₂ u m₂ h₂ (.inl hg₂)
  obtain rfl : m₁ = m₂ := Option.some.inj (hm₁.symm.trans hm₂)
  have ho₁ := h.owner t₁ k₁ u m₁ h₁ hg₁
  have ho₂ := h.owner t₂ k₂ u m₁ h₂ hg₂
  exact Option.some.inj (ho₁.symm.trans ho₂)

end LocksOk

section Invariant

variable {P : Provider} {e : EngineParams} {s s' : Writers} {t : TaskId}

def Locked (s : Writers) : Prop := LocksOk s.unitLocks s.queue s.tasks

theorem strongCount_of_ref {k : Task} {u : ℕ} {m : MutexId} (hk : s.tasks[t]? = some k)
    (hr : k.Ref u m) : s.strongCount m > 1 := by
  have hmem : m ∈ s.tasks.toList.flatMap (·.2.arcs) :=
    List.mem_flatMap.mpr ⟨(t,k),Std.TreeMap.mem_toList_iff_getElem?_eq_some.mpr hk,Task.mem_arcs hr⟩
  have hpos := List.count_pos_iff.mpr hmem
  unfold strongCount
  omega

theorem chunk_le {r : Mutation} (hc : e.check r = .ok ()) {c : ℕ × ℕ}
    (hmem : c ∈ e.chunks r) : c.1 ≤ c.2 := by
  cases r with
  | write offset data =>
    rw [List.mem_singleton.mp hmem]
    have hlen := EngineParams.len_pos_of_checkRange hc
    exact Nat.div_le_div_right (by omega)
  | trim offset len => exact (EngineParams.trimChunks_mem (by omega) hmem).2.1

/-- Every request was accepted and works on ranges of its own. -/
def Checked (e : EngineParams) (s : Writers) : Prop :=
  ∀ (t : ℕ) (k : Task), s.tasks[t]? = some k → k.Checked e

/-- What an event did, one case an event. -/
inductive Moved (P : Provider) (e : EngineParams) (s : Writers) : Writers → Prop where
  | start {t : TaskId} {r : Mutation} {first last : ℕ} {todo : List (ℕ × ℕ)} : s.tasks[t]? = none → e.check r = .ok () →
      e.chunks r = (first,last)::todo →
      Moved P e s (s.setTask t { request := r, first, last, todo, phase := .entering first, guards := [] })
  | enter {t : TaskId} {late : List MutexId} {k : Task} {unit : ℕ} : s.tasks[t]? = some k → k.phase = .entering unit →
      Moved P e s { s.setTask t { k with phase := .locking unit ((s.swept late).entry unit).1 } with
        unitLocks := ((s.swept late).entry unit).2 }
  | enqueue {t : TaskId} {k : Task} {unit : ℕ} {m : MutexId} : s.tasks[t]? = some k → k.phase = .locking unit m → t ∉ s.queue m →
      Moved P e s { s with queue := Function.update s.queue m (s.queue m ++ [t]) }
  | acquire {t : TaskId} {k : Task} {unit : ℕ} {m : MutexId} : s.tasks[t]? = some k → k.phase = .locking unit m →
      (s.queue m).head? = some t →
      Moved P e s (s.setTask t { k with
        guards := k.guards ++ [(unit,m)]
        phase := if unit < k.last then .entering (unit+1) else k.locked })
  | read {t : TaskId} {k : Task} {offset : ℕ} {data : WriteInput} : s.tasks[t]? = some k → k.phase = .reading →
      k.request = .write offset data →
      Moved P e s (s.setTask t { k with phase := .encrypting (s.oldUnits P e offset data) })
  | encrypt {t : TaskId} {k : Task} {offset : ℕ} {data : WriteInput} {existing : ℕ → Option Bytes}
      {nonce : ℕ → ℕ} : s.tasks[t]? = some k →
      k.phase = .encrypting existing → k.request = .write offset data →
      (∀ unit ∈ k.units, sealedUnit P e offset data existing nonce unit ≠ []) →
      Moved P e s (s.setTask t { k with
        phase := .publishing (k.units.map fun unit =>
          (unit,sealedUnit P e offset data existing nonce unit)) })
  | publish {t : TaskId} {k : Task} {unit : ℕ} {ct : Bytes} {rest : List (ℕ × Bytes)} {sequence : ℕ} : s.tasks[t]? = some k →
      k.phase = .publishing ((unit,ct)::rest) → s.nextSequence ≤ sequence →
      Moved P e s { s.setTask t { k with phase := .publishing rest } with
        current := Function.update s.current unit (if ct = [] then none else some (sequence,ct))
        nextSequence := sequence+1
        log := s.log ++ [⟨sequence,unit,ct,k.request⟩] }
  | skip {t : TaskId} {k : Task} {unit : ℕ} {rest : List (ℕ × Bytes)} : s.tasks[t]? = some k →
      k.phase = .publishing ((unit,[])::rest) →
      Moved P e s (s.setTask t { k with phase := .publishing rest })
  | finish {t : TaskId} {k : Task} : s.tasks[t]? = some k → k.phase = .publishing [] →
      Moved P e s (s.setTask t { k with phase := .releasing })
  | fail {t : TaskId} {k : Task} : s.tasks[t]? = some k → (∀ u m, k.phase ≠ .locking u m) →
      Moved P e s (s.setTask t { k with phase := .releasing, todo := [] })
  | giveUp {t : TaskId} {k : Task} {unit : ℕ} {m : MutexId} : s.tasks[t]? = some k → k.phase = .locking unit m →
      Moved P e s { s.setTask t { k with phase := .releasing, todo := [] } with
        queue := Function.update s.queue m ((s.queue m).erase t) }
  | release {t : TaskId} {k : Task} {p : ℕ × MutexId} {rest : List (ℕ × MutexId)} : s.tasks[t]? = some k → k.phase = .releasing →
      k.guards = p::rest →
      Moved P e s { s.setTask t { k with guards := rest } with
        queue := Function.update s.queue p.2 ((s.queue p.2).erase t) }
  | next {t : TaskId} {k : Task} {first last : ℕ} {todo : List (ℕ × ℕ)} : s.tasks[t]? = some k → k.phase = .releasing →
      k.guards = [] → k.todo = (first,last)::todo →
      Moved P e s (s.setTask t { k with first, last, todo, phase := .entering first })
  | leave {t : TaskId} {k : Task} : s.tasks[t]? = some k → k.phase = .releasing → k.guards = [] →
      Moved P e s { s with tasks := s.tasks.erase t }

theorem moved_of_step {ev : Event} (h : step P e s ev = some s') : Moved P e s s' := by
  cases ev with
  | start t r =>
    simp only [step,start] at h
    split at h
    · rename_i ht hc hch
      cases h
      exact .start ht hc hch
    · cases h
  | enter t late =>
    simp only [step,enter,Option.bind_eq_some_iff] at h
    obtain ⟨k,hk,h⟩ := h
    split at h
    · rename_i hp
      cases h
      exact .enter hk hp
    · cases h
  | enqueue t =>
    simp only [step,enqueue,Option.bind_eq_some_iff] at h
    obtain ⟨k,hk,h⟩ := h
    split at h
    · rename_i hp
      split at h
      · cases h
      · rename_i hn
        cases h
        exact .enqueue hk hp hn
    · cases h
  | acquire t =>
    simp only [step,acquire,Option.bind_eq_some_iff] at h
    obtain ⟨k,hk,h⟩ := h
    split at h
    · rename_i hp
      split at h
      · rename_i hhead
        cases h
        exact .acquire hk hp hhead
      · cases h
    · cases h
  | read t =>
    simp only [step,read,Option.bind_eq_some_iff] at h
    obtain ⟨k,hk,h⟩ := h
    split at h
    · rename_i hp hr
      split at h
      · cases h
        exact .read hk hp hr
      · cases h
    · cases h
  | encrypt t nonce =>
    simp only [step,encrypt,Option.bind_eq_some_iff] at h
    obtain ⟨k,hk,h⟩ := h
    split at h
    · rename_i hp hr
      split at h
      · cases h
      · rename_i hany
        cases h
        refine .encrypt hk hp hr fun unit hu hnil => hany ?_
        rw [List.any_map,List.any_eq_true]
        exact ⟨unit,hu,by simp [hnil]⟩
    · cases h
  | publish t sequence =>
    simp only [step,publish,Option.bind_eq_some_iff] at h
    obtain ⟨k,hk,h⟩ := h
    split at h
    · rename_i hp
      split at h
      · rename_i hseq
        cases h
        exact .publish hk hp hseq
      · cases h
    · cases h
  | skip t =>
    simp only [step,skip,Option.bind_eq_some_iff] at h
    obtain ⟨k,hk,h⟩ := h
    split at h
    · rename_i hp
      split at h
      · cases h
        exact .skip hk hp
      · cases h
    · cases h
  | finish t =>
    simp only [step,finish,Option.bind_eq_some_iff] at h
    obtain ⟨k,hk,h⟩ := h
    split at h
    · rename_i hp
      cases h
      exact .finish hk hp
    · cases h
  | fail t =>
    simp only [step,fail,Option.bind_eq_some_iff] at h
    obtain ⟨k,hk,h⟩ := h
    split at h
    · cases h
    · rename_i hp
      cases h
      exact .giveUp hk hp
    · rename_i hp
      cases h
      exact .fail hk hp
  | release t =>
    simp only [step,release,Option.bind_eq_some_iff] at h
    obtain ⟨k,hk,h⟩ := h
    split at h
    · rename_i hp hg
      cases h
      exact .release hk hp hg
    · cases h
  | next t =>
    simp only [step,next,Option.bind_eq_some_iff] at h
    obtain ⟨k,hk,h⟩ := h
    split at h
    · rename_i hp hg ht
      cases h
      exact .next hk hp hg ht
    · rename_i hp hg ht
      cases h
      exact .leave hk hp hg
    · cases h

theorem Checked.setTask (h : s.Checked e) {k : Task} (hk : k.Checked e) :
    ∀ (t' : ℕ) (k' : Task), (s.setTask t k).tasks[t']? = some k' → k'.Checked e := by
  intro t' k' hk'
  simp only [Writers.setTask,getElem?_insert] at hk'
  split at hk'
  · cases hk'
    exact hk
  · exact h t' k' hk'

theorem Checked.moved (h : s.Checked e) (hm : Moved P e s s') : s'.Checked e := by
  cases hm with
  | start ht hc hch =>
    apply h.setTask
    refine ⟨hc,?_,fun c hmem => ?_⟩
    · simp only [hch,List.mem_cons_self]
    · rw [hch]
      exact List.mem_cons_of_mem _ hmem
  | enqueue hk hp hn => exact h
  | leave hk hp hg =>
    intro t' k' hk'
    simp only [Std.TreeMap.getElem?_erase] at hk'
    split at hk'
    · cases hk'
    · exact h t' k' hk'
  | next hk hp hg htodo =>
    obtain ⟨hc,-,hall⟩ := h _ _ hk
    rw [htodo] at hall
    apply h.setTask
    exact ⟨hc,hall _ List.mem_cons_self,fun c hmem => hall c (List.mem_cons_of_mem _ hmem)⟩
  | fail hk | giveUp hk =>
    obtain ⟨hc,hrange,-⟩ := h _ _ hk
    apply h.setTask
    exact ⟨hc,hrange,fun c hmem => by cases hmem⟩
  | enter hk | acquire hk | read hk | encrypt hk | publish hk | skip hk | finish hk | release hk =>
    obtain ⟨hc,hrange,hall⟩ := h _ _ hk
    apply h.setTask
    exact ⟨hc,hrange,hall⟩

/-- A phase change under the locks: the guards and their shape stay. -/
theorem Locked.advance (h : s.Locked) {k k' : Task} (hk : s.tasks[t]? = some k)
    (hguards : k'.guards = k.guards) (hbefore : ∀ u m, k.phase ≠ .locking u m)
    (hafter : ∀ u m, k'.phase ≠ .locking u m) (hshape : k.Shape → k'.Shape) :
    LocksOk s.unitLocks s.queue (s.setTask t k').tasks :=
  LocksOk.advance h hk hguards hbefore hafter (hshape (h.shape t k hk).1)

theorem Locked.moved (h : s.Locked) (hc : s.Checked e) (hm : Moved P e s s') : s'.Locked := by
  cases hm with
  | @start t r first last todo ht hok hch =>
    have hle : first ≤ last := chunk_le hok (c := (first,last)) (hch ▸ List.mem_cons_self)
    refine LocksOk.start h ht rfl (fun u m hp => by cases hp) ?_
    simp only [Task.Shape,List.map_nil,Nat.sub_self,List.range'_zero]
    exact ⟨Nat.le_refl _,hle,trivial⟩
  | enter hk hp =>
    refine LocksOk.entry (LocksOk.sweep h fun t' k' u m hk' hr => ?_) hk hp
    simp only [Bool.or_eq_true,decide_eq_true_eq]
    exact .inl (strongCount_of_ref hk' hr)
  | enqueue hk hp hn => exact LocksOk.enqueue h hk (.inr hp) hn
  | acquire hk hp hhead => exact LocksOk.acquire h hk hp hhead
  | read hk hp | encrypt hk hp | publish hk hp | skip hk hp =>
    refine h.advance hk rfl (by simp [hp]) (by simp) fun hs => ?_
    simpa only [Task.Shape,Task.units,hp] using hs
  | finish hk hp => exact h.advance hk rfl (by simp [hp]) (by simp) fun _ => trivial
  | fail hk hp => exact h.advance hk rfl hp (by simp) fun _ => trivial
  | giveUp hk hp => exact LocksOk.giveUp h hk hp
  | release hk hp hg => exact LocksOk.release h hk hp hg
  | @next t k first last todo hk hp hg htodo =>
    obtain ⟨hok,-,hall⟩ := hc _ _ hk
    have hle : first ≤ last := chunk_le hok (c := (first,last)) (hall _ (htodo ▸ List.mem_cons_self))
    refine h.advance hk rfl (by simp [hp]) (by simp) fun _ => ?_
    simp only [Task.Shape,hg,List.map_nil,Nat.sub_self,List.range'_zero]
    exact ⟨Nat.le_refl _,hle,trivial⟩
  | leave hk hp hg => exact LocksOk.leave h hk hg (by simp [hp])

def Holds (s : Writers) (t : TaskId) (unit : ℕ) : Prop :=
  ∃ k m, s.tasks[t]? = some k ∧ (unit,m) ∈ k.guards

/-- A request waits for another one: the owner of the mutex it needs, or one queued before it. -/
def WaitsFor (s : Writers) (t t' : TaskId) : Prop :=
  ∃ k unit m before behind, s.tasks[t]? = some k ∧ k.phase = .locking unit m ∧
    s.queue m = before ++ t::behind ∧ t' ∈ before

/-- A waiting request by the unit it needs, and within a queue from its end. -/
def rank (s : Writers) (t : TaskId) : ℕ ×ₗ ℕ :=
  match s.tasks[t]? with
  | some k =>
    match k.phase with
    | .locking unit m => toLex (unit,(s.queue m).length-(s.queue m).idxOf t)
    | _ => toLex (0,0)
  | none => toLex (0,0)

theorem rank_of_locking {k : Task} {unit : ℕ} {m : MutexId} (hk : s.tasks[t]? = some k)
    (hp : k.phase = .locking unit m) :
    s.rank t = toLex (unit,(s.queue m).length-(s.queue m).idxOf t) := by
  simp only [rank,hk,hp]

/-- Between two waiting requests a wait goes up: to a higher unit, or forward in a queue. -/
theorem Locked.rank_lt (h : s.Locked) {t' : TaskId} (hw : s.WaitsFor t t') {k' : Task} {unit' : ℕ}
    {m' : MutexId} (hk' : s.tasks[t']? = some k') (hp' : k'.phase = .locking unit' m') :
    s.rank t < s.rank t' := by
  obtain ⟨k,unit,m,before,behind,hk,hp,hq,hmem⟩ := hw
  rw [rank_of_locking hk hp,rank_of_locking hk' hp',Prod.Lex.toLex_lt_toLex]
  have hentry := h.entries t k unit m hk (.inr hp)
  obtain ⟨k₀,u,hk₀,hr⟩ := h.queued t' m (hq ▸ List.mem_append_left _ hmem)
  obtain rfl : k' = k₀ := Option.some.inj (hk'.symm.trans hk₀)
  obtain rfl := h.inj u unit m (h.entries t' k' u m hk' hr) hentry
  rcases hr with hg | hl
  · -- The owner needs a unit above all it holds.
    exact .inl (h.not_held hk' hp' _ hg).1
  · rw [hp',Phase.locking.injEq] at hl
    obtain ⟨rfl,rfl⟩ := hl
    have hnodup := h.nodup m'
    rw [hq] at hnodup
    have hne : t ∉ before := fun ht => (List.nodup_append.mp hnodup).2.2 t ht t List.mem_cons_self rfl
    have hi : (s.queue m').idxOf t = before.length := by
      rw [hq,List.idxOf_append_of_notMem hne,List.idxOf_cons_self,Nat.add_zero]
    have hi' : (s.queue m').idxOf t' < before.length := by
      rw [hq,List.idxOf_append_of_mem hmem]
      exact List.idxOf_lt_length_iff.mpr hmem
    have hlen : (s.queue m').length = before.length+(behind.length+1) := by
      rw [hq,List.length_append,List.length_cons]
    exact .inr ⟨rfl,by simp only; omega⟩

/-- No request waits for itself through others. -/
theorem Locked.acyclic (h : s.Locked) (t : TaskId) : ¬ Relation.TransGen s.WaitsFor t t := by
  have hup : ∀ {a b}, Relation.TransGen s.WaitsFor a b →
      ∀ k unit m, s.tasks[b]? = some k → k.phase = .locking unit m → s.rank a < s.rank b := by
    intro a b hab
    induction hab with
    | single hw => exact fun k unit m hk hp => h.rank_lt hw hk hp
    | tail hab hw ih =>
      intro k unit m hk hp
      obtain ⟨kb,ub,mb,before,behind,hkb,hpb,hrest⟩ := hw
      exact (ih kb ub mb hkb hpb).trans (h.rank_lt ⟨kb,ub,mb,before,behind,hkb,hpb,hrest⟩ hk hp)
  intro hcycle
  -- The last wait of a cycle starts where the cycle does: the request itself waits.
  have hwaits : ∃ k unit m, s.tasks[t]? = some k ∧ k.phase = .locking unit m := by
    obtain ⟨b,hw,-⟩ := Relation.TransGen.head'_iff.mp hcycle
    obtain ⟨k,unit,m,-,-,hk,hp,-⟩ := hw
    exact ⟨k,unit,m,hk,hp⟩
  obtain ⟨k,unit,m,hk,hp⟩ := hwaits
  exact lt_irrefl _ (hup hcycle k unit m hk hp)

end Invariant
end Writers
end Maki
