import Maki.RemoteCodec

/-! The authority on an etcd key (`maki_witness::etcd`, `failover`). Frontends read the key, apply the
request and send a compare-and-put; a transaction may run late or never, and its answer may be
lost. The transport below the two calls is left out: a call of a frontend runs at some moment
between its start and its answer. -/
namespace Maki

open RemoteWitness

namespace Etcd

structure Key where
  value : Bytes
  revision : ℕ
  deriving DecidableEq

inductive RpcError where
  | TimedOut (message : String)
  | ConnectionAborted (message : String)
  | InvalidInput (message : String)
  | InvalidData (message : String)
  | PermissionDenied (message : String)
  | Other (message : String)
  deriving DecidableEq

def RpcError.retryable : RpcError → Bool
  | .InvalidInput _ | .InvalidData _ | .PermissionDenied _ => false
  | _ => true

inductive Failure where
  | rpc (e : RpcError)
  | refused (e : WitnessError)
  deriving DecidableEq

structure Snapshot where
  state : CanonicalState
  bytes : Bytes
  revision : ℕ
  deriving DecidableEq

/-- Put a value if the key is still at this revision and value. -/
structure Txn where
  revision : ℕ
  value : Bytes
  put : Bytes
  deriving DecidableEq

/-- A failed comparison returns the key it found. -/
inductive Response where
  | succeeded
  | failed (observed : Key)
  deriving DecidableEq

def Txn.holds (t : Txn) (k : Key) : Bool := k.revision = t.revision && k.value = t.value

structure Options where
  identity : Bytes16
  endpoints : ℕ

def Options.attempts (o : Options) : ℕ := o.endpoints*2+2

section Handle

variable [Sha256] [StoredReader] (o : Options) (role : Role) (q : Request)

def snapshot (k : Key) : Except WitnessError Snapshot := do
  refuse (k.value.length > maxBytes) (.InvalidData "invalid or oversized etcd witness encoding")
  refuse (k.revision = 0 ∨ k.revision > i64Max)
    (.InvalidData "invalid etcd authority modification revision")
  let stored ← RemoteWitness.decode k.value
  refuse (stored.record.identity ≠ o.identity)
    (.InvalidData "etcd value differs from pinned storage identity")
  return ⟨⟨stored⟩,k.value,k.revision⟩

def candidate (k : Key) : Except WitnessError (Snapshot × CanonicalState × Bytes) := do
  let current ← snapshot o k
  let next ← current.state.apply role q
  let bytes ← next.encode
  return (current,next,bytes)

inductive Next where
  | answer (result : Except Failure Record)
  | post (txn : Txn) (next : CanonicalState)

/-- After the read: nothing to change, or a transaction to send. -/
def decideRead (k : Key) : Next :=
  match candidate o role q k with
  | .error e => .answer (.error (.refused e))
  | .ok (current,next,bytes) =>
    if bytes = current.bytes then .answer (.ok next.record)
    else .post ⟨current.revision,current.bytes,bytes⟩ next

/-- After the transaction: a failed comparison may have met the request's own effect. -/
def decideTxn (next : CanonicalState) : Response → Except Failure Record
  | .succeeded => .ok next.record
  | .failed k =>
    match candidate o role q k with
    | .error e => .error (.refused e)
    | .ok (observed,replay,bytes) =>
      if bytes = observed.bytes then .ok replay.record
      else .error (.refused (.WouldBlock "etcd witness predecessor comparison failed"))

end Handle

inductive Progress where
  | loading (attempt : ℕ)
  | loaded (attempt : ℕ) (reply : Key)
  | posted (attempt : ℕ) (txn : ℕ) (next : CanonicalState)
  | done (result : Except Failure Record)
  deriving DecidableEq

/-- One run of `handle`; `start` counts the changes of the key before it. -/
structure Call where
  role : Role
  request : Request
  start : ℕ
  progress : Progress
  deriving DecidableEq

/-- A transaction with its sender, and its answer once it has run. -/
structure Sent where
  txn : Txn
  owner : Role × Request
  start : ℕ
  next : CanonicalState
  response : Option Response

/-- The key, all runs of `handle` and all transactions. `log` has every value of the key and
`applied` the requests whose transactions changed it. -/
structure World where
  key : Key
  calls : List Call := []
  txns : List Sent := []
  log : List Key
  applied : List (Role × Request) := []

def World.initial (k : Key) : World := { key := k, log := [k] }

inductive Move where
  /-- The read runs at the store. -/
  | range
  /-- The answer is lost; the frontend asks another endpoint. -/
  | rangeLost
  | rangeReply
  | txnReply
  /-- The call to the store fails, whether or not it has run or will. -/
  | rpcFail (e : RpcError)
  | expire

inductive Event where
  | invoke (role : Role) (q : Request)
  | move (call : ℕ) (m : Move)
  /-- A transaction runs at the store, whose revision may have grown on other keys. -/
  | execute (txn : ℕ) (gap : ℕ)

section Step

variable [Sha256] [StoredReader] (o : Options)

def World.move (w : World) (c : ℕ) (p : Progress) : World :=
  { w with calls := w.calls.modify c fun call => { call with progress := p } }

def World.execute (w : World) (t : ℕ) (gap : ℕ) (s : Sent) : World :=
  if s.txn.holds w.key then
    { w with
      key := ⟨s.txn.put,w.key.revision+gap+1⟩
      txns := w.txns.set t { s with response := some .succeeded }
      log := w.log ++ [⟨s.txn.put,w.key.revision+gap+1⟩]
      applied := w.applied ++ [s.owner] }
  else { w with txns := w.txns.set t { s with response := some (.failed w.key) } }

def World.rangeReply (w : World) (c : ℕ) (call : Call) (attempt : ℕ) (k : Key) : World :=
  match decideRead o call.role call.request k with
  | .answer r => w.move c (.done r)
  | .post txn next =>
    World.move { w with txns := w.txns ++ [⟨txn,(call.role,call.request),call.start,next,none⟩] } c
      (.posted attempt w.txns.length next)

/-- An uncertain transaction is followed by a new read, as long as attempts are left. -/
def World.rpcFail (w : World) (c : ℕ) (e : RpcError) : Progress → World
  | .done _ => w
  | .posted attempt _ _ =>
    if e.retryable && attempt+1 < o.attempts then w.move c (.loading (attempt+1))
    else w.move c (.done (.error (.rpc e)))
  | _ => w.move c (.done (.error (.rpc e)))

def World.advance (w : World) (c : ℕ) (call : Call) : Move → World
  | .range =>
    match call.progress with
    | .loading n => w.move c (.loaded n w.key)
    | _ => w
  | .rangeLost =>
    match call.progress with
    | .loaded n _ => w.move c (.loading n)
    | _ => w
  | .rangeReply =>
    match call.progress with
    | .loaded n k => w.rangeReply o c call n k
    | _ => w
  | .txnReply =>
    match call.progress with
    | .posted _ t next =>
      match (w.txns[t]?).bind Sent.response with
      | some r => w.move c (.done (decideTxn o call.role call.request next r))
      | none => w
    | _ => w
  | .rpcFail e => w.rpcFail o c e call.progress
  | .expire =>
    match call.progress with
    | .done _ => w
    | _ => w.move c (.done (.error (.rpc (.TimedOut "etcd operation deadline expired"))))

def World.step (w : World) : Event → World
  | .invoke role q => { w with calls := w.calls ++ [⟨role,q,w.applied.length,.loading 0⟩] }
  | .move c m =>
    match w.calls[c]? with
    | some call => w.advance o c call m
    | none => w
  | .execute t gap =>
    match w.txns[t]? with
    | some s => if s.response.isSome then w else w.execute t gap s
    | none => w

def World.run (w : World) (es : List Event) : World := es.foldl (World.step o) w

end Step

section Failover

def Failure.final : Failure → Bool
  | .rpc e => !e.retryable
  | .refused (.InvalidInput _) | .refused (.InvalidData _) | .refused (.PermissionDenied _)
  | .refused (.WouldBlock _) => true
  | .refused _ => false

/-- The answers of the frontends in the order they are tried; `none` where the client's deadline
expires first. -/
def tryEach (identity : Bytes16) (last : Failure) : List (Option (Except Failure Record)) →
    Except Failure Record
  | [] => .error last
  | none::_ => .error (.rpc (.TimedOut "witness deadline expired"))
  | some (.ok record)::_ =>
    match record.validate with
    | .error e => .error (.refused e)
    | .ok _ =>
      if record.identity ≠ identity then
        .error (.refused (.InvalidData "response differs from pinned witness identity"))
      else .ok record
  | some (.error e)::rest => if e.final then .error e else tryEach identity e rest

def failover (identity : Bytes16) (q : Request) (answers : List (Option (Except Failure Record))) :
    Except Failure Record :=
  if q.expected.any (·.identity ≠ identity) then
    .error (.refused (.InvalidData "request differs from pinned witness identity"))
  else tryEach identity (.rpc (.TimedOut "witness endpoints unavailable")) answers

theorem tryEach_ok {identity : Bytes16} {last : Failure} {r : Record}
    {answers : List (Option (Except Failure Record))} (h : tryEach identity last answers = .ok r) :
    some (.ok r) ∈ answers := by
  induction answers generalizing last with
  | nil => cases h
  | cons a rest ih =>
    cases a with
    | none => cases h
    | some x =>
      cases x with
      | ok record =>
        simp only [tryEach] at h
        split at h
        · cases h
        · split at h
          · cases h
          · cases h
            simp
      | error e =>
        simp only [tryEach] at h
        split at h
        · cases h
        · exact List.mem_cons_of_mem _ (ih h)

theorem failover_ok {identity : Bytes16} {q : Request} {answers : List (Option (Except Failure Record))}
    {r : Record} (h : failover identity q answers = .ok r) : some (.ok r) ∈ answers := by
  unfold failover at h
  split at h
  · cases h
  · exact tryEach_ok h

end Failover
end Etcd
end Maki
