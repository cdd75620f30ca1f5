import Mathlib
import Maki.Lane

/-! Requests over one WebSocket provider (`maki_crypto_websocket`). Attempts share a connection behind a
mutex, register under an id in the pending map and wait for the answer; the task of a connection
reads frames and answers ids of its own generation. Every step is one critical section: a
retirement that was decided sweeps and aborts later, a request that is dropped tells its owners
later, and anything may happen in between. -/
namespace Maki

def CryptoError.isRetryable (e : CryptoError) : Bool :=
  e.errorClass = .Retryable || e.errorClass = .Throttled

namespace WebSocket

/-- What the reader asks of a parsed response. -/
class ResponseValue (ν : Type) where
  id : ν → Option ℕ
  errorClass : ν → Option String
  validProbeEnvelope : ν → Bool

inductive Message (ν : Type) where
  /-- A text frame, with its value if it is one. -/
  | text (parsed : Option ν)
  | binary
  | ping
  | pong
  | close

/-- What the reader does with a frame. -/
inductive Reading (ν : Type) where
  | skip
  | deliver (id : ℕ) (value : ν) (frame : Except CryptoError ν)
  | stop (failure : CryptoError)

def lost : CryptoError := .Retryable "connection lost: closed"
def requestTimeout : CryptoError := .Retryable "websocket request timeout"

def violation (what : String) : CryptoError :=
  .Contract ("websocket peer sent " ++ what ++ "; responses are JSON text frames with a numeric id")

def Message.read {ν : Type} [ResponseValue ν] : Message ν → Reading ν
  | .ping | .pong => .skip
  | .close => .stop lost
  | .binary => .stop (violation "a non-text frame")
  | .text none => .stop (violation "a text frame that is not a JSON response")
  | .text (some value) =>
    match ResponseValue.id value with
    | none => .stop (violation "a response without a numeric id")
    | some id =>
      let probe := ResponseValue.errorClass value = some "integrity" ∨
        ResponseValue.errorClass value = some "unsupported-context"
      if probe ∧ ¬ ResponseValue.validProbeEnvelope value then
        .deliver id value
          (.error (.Contract "remote crypto provider returned an invalid probe error envelope"))
      else .deliver id value (.ok value)

/-- Where one run of `request_once` is. From `registered` on it has a `PendingRequest`, which in
`dropping` is out of the map and has not told the owners yet. -/
inductive Stage where
  | waiting
  /-- The mutex is held. -/
  | holding
  | chosen (connecting : Bool)
  | registered (generation : ℕ)
  | awaiting (generation : ℕ)
  | dropping (generation : ℕ) (completed : Bool)
  | done
  deriving DecidableEq

/-- The request has a `PendingRequest` on this generation. -/
def Stage.liveOn (g : ℕ) : Stage → Bool
  | .registered g' | .awaiting g' | .dropping g' _ => g' = g
  | _ => false

structure Attempt (ν : Type) where
  id : ℕ
  stage : Stage
  outcome : Option (Except CryptoError ν) := none

structure Call where
  ids : List ℕ := []
  closed : Bool := false

/-- A connection: its owners, its send queue, and how far its task is. `swept` is set when its pending
requests were failed. -/
structure Connection where
  accepting : Bool := true
  active : ℕ := 0
  queue : List ℕ := []
  started : Bool := false
  swept : Bool := false
  aborted : Bool := false
  ended : Bool := false

/-- A call of `retire`: the owners at that time, and whether a failed send made it. -/
structure Retirement where
  generation : ℕ
  active : ℕ
  sendFailed : Bool
  deriving DecidableEq

/-- A provider with all its requests and connections. `frames` has the ids whose frame was not taken
yet and `replies` all answers sent to callers; `registered`, `arrived`, `wire` and `retirements`
are logs. -/
structure World (ν : Type) where
  retrySafe : Bool
  generation : ℕ := 0
  dead : ℕ := 0
  slot : Option ℕ := none
  guard : Option ℕ := none
  conn : ℕ → Connection := fun _ => {}
  pending : List (ℕ × ℕ) := []
  replies : List (ℕ × Except CryptoError ν) := []
  frames : List ℕ := []
  attempts : List (Attempt ν) := []
  calls : List Call := []
  jobs : List (ℕ × Bool) := []
  registered : List (ℕ × ℕ) := []
  arrived : List (ℕ × ν) := []
  wire : List (ℕ × ℕ) := []
  retirements : List Retirement := []

inductive Event (ν : Type) where
  | call
  /-- An id is taken and the frame encoded. -/
  | attempt (call : ℕ) (encoded : Except CryptoError Unit)
  /-- The frame cannot be made a message. -/
  | refuse (attempt : ℕ) (error : CryptoError)
  | lock (attempt : ℕ)
  | connect (attempt : ℕ) (result : Except CryptoError Unit)
  | register (attempt : ℕ)
  | send (attempt : ℕ)
  | receive (attempt : ℕ)
  | timeout (attempt : ℕ)
  /-- The caller drops the request. -/
  | cancel (attempt : ℕ)
  /-- A dropped request tells the owners. -/
  | finish (attempt : ℕ)
  /-- The task of a connection is polled first. -/
  | start (generation : ℕ)
  | frame (generation : ℕ) (message : Message ν)
  | write (generation : ℕ)
  /-- The task ends; one that never ran was aborted before. -/
  | endTask (generation : ℕ) (failure : CryptoError)
  | sweep (job : ℕ)
  | abort (job : ℕ)

namespace World

variable {ν : Type} (w : World ν)

def initial (retrySafe : Bool) : World ν := { retrySafe := retrySafe }

def limit : ℕ := if w.retrySafe then 2 else 1

def setConn (g : ℕ) (c : Connection) : World ν := { w with conn := Function.update w.conn g c }

def move (i : ℕ) (a : Attempt ν) : World ν := { w with attempts := w.attempts.set i a }

def failPending (g : ℕ) (failure : CryptoError) : World ν :=
  { w with
    dead := max w.dead g
    conn := Function.update w.conn g { w.conn g with swept := true }
    pending := w.pending.filter fun x => x.2 ≠ g
    replies := w.replies ++ (w.pending.filter fun x => x.2 = g).map fun x => (x.1,.error failure) }

/-- `retire` is called: it closes the connection now, and sweeps and aborts later. -/
def retire (g : ℕ) (sendFailed : Bool) : World ν :=
  { w with
    conn := Function.update w.conn g { w.conn g with accepting := false }
    retirements := w.retirements ++ [⟨g,(w.conn g).active,sendFailed⟩]
    jobs := w.jobs ++ [(g,false)] }

def stopAccepting (g : ℕ) : World ν :=
  let w' := w.setConn g { w.conn g with accepting := false }
  if (w.conn g).active = 0 then w'.retire g false else w'

/-- `finish_request`: a request that did not complete closes its connection for new ones. -/
def finishRequest (g : ℕ) (completed : Bool) : World ν :=
  let c := { w.conn g with
    active := (w.conn g).active-1, accepting := (w.conn g).accepting && completed }
  let w' := w.setConn g c
  if c.accepting = false ∧ c.active = 0 then w'.retire g false else w'

/-- A `PendingRequest` is dropped, up to `finish_request`. -/
def dropRequest (i : ℕ) (a : Attempt ν) (g : ℕ) (completed : Bool)
    (outcome : Option (Except CryptoError ν)) : World ν :=
  { w with
    pending := w.pending.filter fun x => x.1 ≠ a.id
    frames := w.frames.filter fun id => id ≠ a.id
    attempts := w.attempts.set i { a with stage := .dropping g completed, outcome := outcome } }

def close (i : ℕ) (a : Attempt ν) (outcome : Option (Except CryptoError ν)) : World ν :=
  { w with
    frames := w.frames.filter fun id => id ≠ a.id
    attempts := w.attempts.set i { a with stage := .done, outcome := outcome } }

def unlock : World ν := { w with guard := none }

/-- The loop over the attempts goes on after an error that may be retried. -/
def ready (c : Call) : Bool :=
  !c.closed && c.ids.length < w.limit &&
    match c.ids.getLast? with
    | none => true
    | some id =>
      match w.attempts[id-1]? with
      | some ⟨_,.done,some (.error e)⟩ => e.isRetryable
      | _ => false

def attempt (i : ℕ) (c : Call) (encoded : Except CryptoError Unit) : World ν :=
  let id := w.attempts.length+1
  match encoded with
  | .ok _ =>
    { w with
      attempts := w.attempts ++ [⟨id,.waiting,none⟩]
      frames := w.frames ++ [id]
      calls := w.calls.set i { c with ids := c.ids ++ [id] } }
  | .error e =>
    { w with
      attempts := w.attempts ++ [⟨id,.done,some (.error e)⟩]
      calls := w.calls.set i { ids := c.ids ++ [id], closed := true } }

def lock (i : ℕ) (a : Attempt ν) : World ν :=
  match a.stage,w.guard with
  | .waiting,none => { w.move i { a with stage := .holding } with guard := some i }
  | _,_ => w

/-- The connection of the slot is taken, or a new one is made. -/
def connect (i : ℕ) (a : Attempt ν) (result : Except CryptoError Unit) : World ν :=
  match a.stage,w.slot,result with
  | .holding,some _,_ => w.move i { a with stage := .chosen false }
  | .holding,none,.ok _ =>
    { w.move i { a with stage := .chosen true } with
      generation := w.generation+1, slot := some (w.generation+1) }
  | .holding,none,.error e => (w.close i a (some (.error e))).unlock
  | _,_,_ => w

def register (i : ℕ) (a : Attempt ν) : World ν :=
  match a.stage,w.slot with
  | .chosen connecting,some g =>
    let c := w.conn g
    if c.accepting ∧ w.dead < g then
      { w with
        conn := Function.update w.conn g { c with active := c.active+1 }
        pending := w.pending ++ [(a.id,g)]
        registered := w.registered ++ [(a.id,g)]
        attempts := w.attempts.set i { a with stage := .registered g } }
    else
      let w' := { w with slot := none }.stopAccepting g
      if connecting then
        (w'.close i a (some (.error
          (.Retryable "websocket connection closed before request registration")))).unlock
      else w'.move i { a with stage := .holding }
  | _,_ => w

/-- The frame is put in the queue; it fails if the writer is gone, or in time if the queue is full. -/
def send (i : ℕ) (a : Attempt ν) : World ν :=
  match a.stage with
  | .registered g =>
    let c := w.conn g
    if ¬ c.ended ∧ c.queue.length < 64 then
      ({ w with
        conn := Function.update w.conn g { c with queue := c.queue ++ [a.id] }
        attempts := w.attempts.set i { a with stage := .awaiting g } }).unlock
    else
      let w' := { w.retire g true with slot := none }.stopAccepting g
      (w'.dropRequest i a g false (some (.error (.Retryable "websocket send failed")))).unlock
  | _ => w

def receive (i : ℕ) (a : Attempt ν) : World ν :=
  match a.stage,w.replies.lookup a.id with
  | .awaiting g,some r => w.dropRequest i a g r.isOk (some r)
  | _,_ => w

def abandon (i : ℕ) (a : Attempt ν) (outcome : Option (Except CryptoError ν)) : World ν :=
  match a.stage with
  | .waiting => w.close i a outcome
  | .holding => if w.slot.isNone then (w.close i a outcome).unlock else w
  | .registered g => (w.dropRequest i a g false outcome).unlock
  | .awaiting g => w.dropRequest i a g false outcome
  | _ => w

def finish (i : ℕ) (a : Attempt ν) : World ν :=
  match a.stage with
  | .dropping g completed => (w.move i { a with stage := .done }).finishRequest g completed
  | _ => w

def running (g : ℕ) : Bool := 0 < g && g ≤ w.generation && !(w.conn g).ended

def endTask (g : ℕ) (failure : CryptoError) : World ν :=
  if w.running g then
    if (w.conn g).started then
      let w' := w.failPending g failure
      w'.setConn g { w'.conn g with ended := true }
    else if (w.conn g).aborted then w.setConn g { w.conn g with ended := true }
    else w
  else w

variable [ResponseValue ν]

def frame (g : ℕ) (message : Message ν) : World ν :=
  if w.running g && (w.conn g).started then
    match message.read with
    | .skip => w
    | .stop failure => w.endTask g failure
    | .deliver id value frame =>
      let w' := { w with arrived := w.arrived ++ [(g,value)] }
      if (id,g) ∈ w.pending then
        { w' with
          pending := w.pending.filter fun x => x.1 ≠ id, replies := w.replies ++ [(id,frame)] }
      else w'
  else w

def write (g : ℕ) : World ν :=
  match (w.conn g).queue with
  | id::rest =>
    if w.running g && (w.conn g).started then
      let w' := w.setConn g { w.conn g with queue := rest }
      if id ∈ w.frames then
        { w' with frames := w.frames.filter fun x => x ≠ id, wire := w.wire ++ [(g,id)] }
      else w'
    else w
  | [] => w

/-- A retirement fails what is pending, then aborts the task. -/
def sweep (k : ℕ) : World ν :=
  match w.jobs[k]? with
  | some (g,false) =>
    { w.failPending g (.Retryable "connection lost: retired") with jobs := w.jobs.set k (g,true) }
  | _ => w

def abort (k : ℕ) : World ν :=
  match w.jobs[k]? with
  | some (g,true) => w.setConn g { w.conn g with aborted := true }
  | _ => w

def onAttempt (i : ℕ) (f : Attempt ν → World ν) : World ν :=
  match w.attempts[i]? with
  | some a => f a
  | none => w

def step : Event ν → World ν
  | .call => { w with calls := w.calls ++ [{}] }
  | .attempt c encoded =>
    match w.calls[c]? with
    | some call => if w.ready call then w.attempt c call encoded else w
    | none => w
  | .refuse i e =>
    w.onAttempt i fun a => if a.stage = .waiting then w.close i a (some (.error e)) else w
  | .lock i => w.onAttempt i (w.lock i)
  | .connect i result => w.onAttempt i fun a => w.connect i a result
  | .register i => w.onAttempt i (w.register i)
  | .send i => w.onAttempt i (w.send i)
  | .receive i => w.onAttempt i (w.receive i)
  | .timeout i => w.onAttempt i fun a => w.abandon i a (some (.error requestTimeout))
  | .cancel i => w.onAttempt i fun a => w.abandon i a none
  | .finish i => w.onAttempt i (w.finish i)
  | .start g => if w.running g then w.setConn g { w.conn g with started := true } else w
  | .frame g message => w.frame g message
  | .write g => w.write g
  | .endTask g failure => w.endTask g failure
  | .sweep k => w.sweep k
  | .abort k => w.abort k

def run (es : List (Event ν)) : World ν := es.foldl (fun w e => w.step e) w

end World
end WebSocket
end Maki
