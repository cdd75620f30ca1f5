import Maki.Lane

/-! A dispatched batch of a lane (`maki_crypto::scheduler`: the task of `run_lane`, `run_retries`,
`deliver`). A task owns one slot. A coalesced batch that fails for one of its requests is sent again
group by group: one retry borrows the slot of the batch, the others take slots of their own. -/
namespace Maki

def CryptoError.duplicate : CryptoError → CryptoError
  | .Retryable m => .Retryable m
  | .Throttled m => .Throttled m
  | .NonRetryableRequest m => .NonRetryableRequest m
  | .EndpointFatal m => .EndpointFatal m
  | .ProviderFatal m => .ProviderFatal m
  | .UnsupportedContext field => .UnsupportedContext field
  | .Integrity m => .Integrity m
  | .Contract m => .Contract m

namespace Scheduler

abbrev Verdict (ο : Type) := Except CryptoError (List ο)

section Deliver

variable {ο : Type}

def splitOut (out : List ο) : List (ℕ × ℕ) → List (ℕ × Verdict ο)
  | [] => []
  | (len,reply)::rest => (reply,.ok (out.take len))::splitOut (out.drop len) rest

def deliver (result : Verdict ο) (items : ℕ) (lengths replies : List ℕ) : List (ℕ × Verdict ο) :=
  match result with
  | .ok out =>
    if out.length = items then splitOut out (lengths.zip replies)
    else replies.map fun reply => (reply,.error (.Contract ("provider returned " ++ toString out.length ++
      " results for " ++ toString items ++ " items")))
  | .error e => replies.map fun reply => (reply,.error e.duplicate)

end Deliver

structure RetryGroup (ι : Type) where
  items : List ι
  reply : ℕ

/-- One retry: the slot it runs on, and its provider call once it was polled. -/
structure Retry (ι : Type) where
  group : RetryGroup ι
  extraSlot : Bool
  original : Bool
  call : Option ℕ

structure Retries (ι : Type) where
  pending : List (RetryGroup ι)
  active : List (Retry ι) := []
  originalSlot : Bool := true
  originalAvailable : Bool := true

def swapRemove {α : Type} (xs : List α) (i : ℕ) : List α :=
  match xs.getLast? with
  | none => []
  | some x => (xs.set i x).dropLast

namespace Retries

variable {ι : Type} (closed : ℕ → Bool)

/-- Start groups on the slot of the batch and on free ones, as long as there are any. -/
def fill (r : Retries ι) : List (RetryGroup ι) → ℕ → Retries ι × ℕ
  | [],permits => ({ r with pending := [] },permits)
  | g::rest,permits =>
    if r.originalAvailable then
      fill { r with originalAvailable := false, active := r.active ++ [⟨g,false,true,none⟩] } rest permits
    else
      match permits with
      | 0 => ({ r with pending := g::rest },0)
      | n+1 => fill { r with active := r.active ++ [⟨g,true,false,none⟩] } rest n

/-- Give the slot of the batch back when nothing can need it any more. -/
def dropSlot (r : Retries ι) (permits : ℕ) : Retries ι × ℕ :=
  if r.originalAvailable ∧ r.pending = [] ∧ r.originalSlot then ({ r with originalSlot := false },permits+1)
  else (r,permits)

def loopHead (r : Retries ι) (permits : ℕ) : Retries ι × ℕ :=
  let filled := r.fill (r.pending.filter fun g => !closed g.reply) permits
  filled.1.dropSlot filled.2

end Retries

structure Call (ι : Type) where
  context : CryptoContext
  items : List ι
  replies : List ℕ

/-- Where a dispatched batch is. Calls are named by their place in the order of all calls. -/
inductive TaskState (ι : Type) where
  | spawned
  | calling (call : ℕ)
  /-- The call failed and the provider is asked whether it may be repeated. -/
  | asking (call : ℕ) (error : CryptoError)
  | retrying (call : ℕ) (r : Retries ι)
  | done

/-- A dispatched batch; `freed` counts how often its slot was given back. -/
structure Task (ι : Type) where
  context : CryptoContext
  items : ℕ
  lengths : List ℕ
  replies : List ℕ
  allItems : List ι
  state : TaskState ι := .spawned
  freed : ℕ := 0

def Task.ofGroups {ι : Type} (context : CryptoContext) (gs : List (Group ι)) : Task ι where
  context := context
  items := itemsOf gs
  lengths := gs.map fun g => g.items.length
  replies := gs.map Group.reply
  allItems := gs.flatMap Group.items

inductive TaskMove (ο : Type) where
  | poll
  | answer (result : Verdict ο)
  /-- All callers have gone. -/
  | abandon
  /-- `capabilities` returned, with its `retry_safe`. -/
  | capabilities (retrySafe : Except CryptoError Bool)
  /-- A caller whose retry has not started has gone. -/
  | callerClosed
  | pollRetry (i : ℕ)
  | answerRetry (i : ℕ) (result : Verdict ο)
  | abandonRetry (i : ℕ)
  /-- A waiting retry acquired a slot. -/
  | acquire
  | abort

/-- A move of a task: the permits left, the calls it made and what they returned, what the provider
said of repeating a failed call, and the answers it sent. -/
structure TaskStep (ι ο : Type) where
  task : Task ι
  permits : ℕ
  calls : List (Call ι) := []
  results : List (ℕ × Verdict ο) := []
  asked : List (ℕ × Except CryptoError Bool) := []
  answers : List (ℕ × Verdict ο) := []

namespace Task

variable {ι ο : Type} (closed : ℕ → Bool)

def finish (t : Task ι) : Task ι := { t with state := .done, freed := t.freed+1 }

/-- The retries go through the head of their loop, which may be their end. -/
def resume (t : Task ι) (call : ℕ) (r : Retries ι) (permits : ℕ) : Task ι × ℕ :=
  let next := r.loopHead closed permits
  let freed := t.freed+(if r.originalSlot ∧ ¬ next.1.originalSlot then 1 else 0)
  if next.1.active.isEmpty && next.1.pending.isEmpty then
    let last := if next.1.originalSlot then 1 else 0
    ({ t with state := .done, freed := freed+last },next.2+last)
  else ({ t with state := .retrying call next.1, freed := freed },next.2)

/-- A retry has ended: its own slot is free, or the slot of the batch can be lent again. -/
def complete (t : Task ι) (call : ℕ) (r : Retries ι) (permits : ℕ) (i : ℕ) (x : Retry ι) : Task ι × ℕ :=
  t.resume closed call
    { r with
      active := swapRemove r.active i
      originalAvailable := r.originalAvailable || x.original }
    (permits+(if x.extraSlot then 1 else 0))

def split : List ι → List (ℕ × ℕ) → List (RetryGroup ι)
  | _,[] => []
  | items,(len,reply)::rest => ⟨items.take len,reply⟩::split (items.drop len) rest

def held (t : Task ι) : ℕ :=
  match t.state with
  | .done => 0
  | .retrying _ r => (if r.originalSlot then 1 else 0)+r.active.countP Retry.extraSlot
  | _ => 1

def ownsSlot (t : Task ι) : Bool :=
  match t.state with
  | .done => false
  | .retrying _ r => r.originalSlot
  | _ => true

def inflight (t : Task ι) : ℕ :=
  match t.state with
  | .calling _ => 1
  | .retrying _ r => r.active.countP fun x => x.call.isSome
  | _ => 0

def stepCalling (t : Task ι) (call permits : ℕ) (result : Verdict ο) : TaskStep ι ο :=
  match result with
  | .error e =>
    if t.replies.length > 1 ∧ e.errorClass = .NonRetryableRequest then
      { task := { t with state := .asking call e }, permits, results := [(call,result)] }
    else
      { task := t.finish, permits := permits+1, results := [(call,result)]
        answers := deliver result t.items t.lengths t.replies }
  | .ok _ =>
    { task := t.finish, permits := permits+1, results := [(call,result)]
      answers := deliver result t.items t.lengths t.replies }

def stepAsking (t : Task ι) (call : ℕ) (e : CryptoError) (permits : ℕ) (retrySafe : Except CryptoError Bool) :
    TaskStep ι ο :=
  match retrySafe with
  | .ok true =>
    let next := t.resume closed call { pending := split t.allItems (t.lengths.zip t.replies) } permits
    { task := next.1, permits := next.2 }
  | _ =>
    { task := t.finish, permits := permits+1
      answers := deliver (.error e) t.items t.lengths t.replies }

def stepRetry (t : Task ι) (call : ℕ) (r : Retries ι) (permits next : ℕ) (i : ℕ) (x : Retry ι) :
    TaskMove ο → TaskStep ι ο
  | .pollRetry _ =>
    if x.call.isSome then { task := t, permits }
    else if closed x.group.reply then
      let done := t.complete closed call r permits i x
      { task := done.1, permits := done.2 }
    else
      { task := { t with
          state := .retrying call { r with active := r.active.set i { x with call := some next } } }
        permits
        calls := [⟨t.context,x.group.items,[x.group.reply]⟩] }
  | .answerRetry _ result =>
    match x.call with
    | none => { task := t, permits }
    | some c =>
      let done := t.complete closed call r permits i x
      { task := done.1, permits := done.2, results := [(c,result)]
        answers := deliver result x.group.items.length [x.group.items.length] [x.group.reply] }
  | .abandonRetry _ =>
    if x.call.isSome && closed x.group.reply then
      let done := t.complete closed call r permits i x
      { task := done.1, permits := done.2 }
    else { task := t, permits }
  | _ => { task := t, permits }

def stepRetrying (t : Task ι) (call : ℕ) (r : Retries ι) (permits next : ℕ) : TaskMove ο → TaskStep ι ο
  | .callerClosed =>
    if r.pending.any fun g => closed g.reply then
      let done := t.resume closed call r permits
      { task := done.1, permits := done.2 }
    else { task := t, permits }
  | .acquire =>
    match r.pending,permits with
    | g::rest,n+1 =>
      let done := t.resume closed call
        { r with pending := rest, active := r.active ++ [⟨g,true,false,none⟩] } n
      { task := done.1, permits := done.2 }
    | _,_ => { task := t, permits }
  | .pollRetry i =>
    match r.active[i]? with
    | some x => t.stepRetry closed call r permits next i x (.pollRetry i)
    | none => { task := t, permits }
  | .answerRetry i result =>
    match r.active[i]? with
    | some x => t.stepRetry closed call r permits next i x (.answerRetry i result)
    | none => { task := t, permits }
  | .abandonRetry i =>
    match r.active[i]? with
    | some x => t.stepRetry closed call r permits next i x (.abandonRetry i)
    | none => { task := t, permits }
  | _ => { task := t, permits }

/-- A move of a task, with the permits that are free and the number of the next call. -/
def step (t : Task ι) (permits next : ℕ) (m : TaskMove ο) : TaskStep ι ο :=
  match m,t.state with
  | .abort,_ =>
    { task := { t with state := .done, freed := t.freed+(if t.ownsSlot then 1 else 0) }
      permits := permits+t.held }
  | .poll,.spawned =>
    if t.replies.all closed then { task := t.finish, permits := permits+1 }
    else
      { task := { t with state := .calling next }, permits
        calls := [⟨t.context,t.allItems,t.replies⟩] }
  | .answer result,.calling call => t.stepCalling call permits result
  | .abandon,.calling _ =>
    if t.replies.all closed then { task := t.finish, permits := permits+1 } else { task := t, permits }
  | .capabilities retrySafe,.asking call e =>
    { t.stepAsking closed call e permits retrySafe with asked := [(call,retrySafe)] }
  | m,.retrying call r => t.stepRetrying closed call r permits next m
  | _,_ => { task := t, permits }

end Task
end Scheduler
end Maki
