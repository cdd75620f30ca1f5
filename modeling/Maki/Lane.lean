import Mathlib
import Maki.Geometry

/-! Admission and aggregation of one scheduler lane (`maki_crypto::scheduler`, `flow`). Callers are
admitted by count and bytes, wait in one channel and are gathered into batches of whole groups.
The loop is cut at its awaits: a move is what happens between two of them. -/
namespace Maki

inductive ErrorClass where
  | Retryable | Throttled | NonRetryableRequest | EndpointFatal | ProviderFatal
  deriving DecidableEq

inductive ContextField where
  | FormatVersion | CompatibilityId
  deriving DecidableEq

inductive CryptoError where
  | Retryable (message : String)
  | Throttled (message : String)
  | NonRetryableRequest (message : String)
  | EndpointFatal (message : String)
  | ProviderFatal (message : String)
  | UnsupportedContext (field : ContextField)
  | Integrity (message : String)
  | Contract (message : String)
  deriving DecidableEq

def CryptoError.errorClass : CryptoError → ErrorClass
  | .Retryable _ => .Retryable
  | .Throttled _ => .Throttled
  | .NonRetryableRequest _ | .Integrity _ => .NonRetryableRequest
  | .EndpointFatal _ => .EndpointFatal
  | .ProviderFatal _ | .UnsupportedContext _ | .Contract _ => .ProviderFatal

structure CryptoContext where
  volumeUuid : BitVec 128
  formatVersion : ℕ
  cryptoCompatibilityId : String
  deriving DecidableEq

namespace Scheduler

/-- A batch item addressed by its crypto unit. -/
class UnitIndexed (ι : Type) where
  unitIndex : ι → ℕ

structure SchedulerConfig where
  targetItems : ℕ := 64
  targetBytes : ℕ := 256*2^10
  maxItems : ℕ := 128
  maxBytes : ℕ := 2^20
  maxWait : ℕ := 150
  maxPendingItems : ℕ := 4096
  maxPendingPlaintextBytes : ℕ := 128*2^20
  maxPendingCiphertextBytes : ℕ := 160*2^20
  maxInflightBatches : ℕ := 8

/-- A semaphore over items and bytes: what is available, and the capacity. -/
structure DualSemaphore where
  items : ℕ
  bytes : ℕ
  maxItems : ℕ
  maxBytes : ℕ
  deriving DecidableEq

namespace DualSemaphore

def new (maxItems maxBytes : ℕ) : DualSemaphore :=
  let capped := min maxBytes (u32Max/2)
  ⟨maxItems,capped,maxItems,capped⟩

def checkRequest (d : DualSemaphore) (items bytes : ℕ) : Except CryptoError Unit :=
  if items = 0 ∨ items > d.maxItems ∨ bytes > d.maxBytes then
    .error (.NonRetryableRequest ("admission request of " ++ toString items ++ " item(s) / " ++
      toString bytes ++ " byte(s) exceeds capacity of " ++ toString d.maxItems ++ " item(s) / " ++
      toString d.maxBytes ++ " byte(s), or has no items"))
  else .ok ()

def takeItems (d : DualSemaphore) (n : ℕ) : Option DualSemaphore :=
  if n ≤ d.items then some { d with items := d.items-n } else none

def takeBytes (d : DualSemaphore) (n : ℕ) : Option DualSemaphore :=
  if n ≤ d.bytes then some { d with bytes := d.bytes-n } else none

def release (d : DualSemaphore) (items bytes : ℕ) : DualSemaphore :=
  { d with items := d.items+items, bytes := d.bytes+bytes }

end DualSemaphore

/-- A request of one caller, with its resident and its logical size. -/
structure LaneRequest (ι : Type) where
  context : CryptoContext
  items : List ι
  residentBytes : ℕ
  logicalBytes : ℕ

/-- What a lane is spawned with; `maxPendingBytes` is the bound of its own direction. -/
structure Lane where
  config : SchedulerConfig
  maxPendingBytes : ℕ

namespace Lane

variable {ι : Type} (L : Lane)

def pendingItems : ℕ := max L.config.maxPendingItems 1
def slots : ℕ := max L.config.maxInflightBatches 1
def maxAdmitItems : ℕ := max (min L.config.maxItems L.pendingItems) 1
def admission : DualSemaphore := .new L.pendingItems L.maxPendingBytes

def checkAdmissible (items logicalBytes residentBytes : ℕ) : Except CryptoError Unit :=
  if items > L.maxAdmitItems ∨ logicalBytes > L.config.maxBytes ∨ residentBytes > L.admission.maxBytes then
    .error (.NonRetryableRequest ("request of " ++ toString items ++ " item(s) / " ++
      toString logicalBytes ++ " logical byte(s) / " ++ toString residentBytes ++
      " resident byte(s) exceeds the scheduler maximum of " ++ toString L.maxAdmitItems ++
      " item(s) / " ++ toString L.config.maxBytes ++ " logical byte(s) / " ++
      toString L.admission.maxBytes ++ " resident byte(s)"))
  else .ok ()

def arrive (r : LaneRequest ι) : Except CryptoError (Option (LaneRequest ι)) := do
  L.checkAdmissible r.items.length r.logicalBytes r.residentBytes
  if r.items.isEmpty then return none
  L.admission.checkRequest r.items.length r.residentBytes
  return some r

theorem checkRequest_ok {r : LaneRequest ι} (hr : r.items ≠ [])
    (h : L.checkAdmissible r.items.length r.logicalBytes r.residentBytes = .ok ()) :
    L.admission.checkRequest r.items.length r.residentBytes = .ok () := by
  unfold checkAdmissible at h
  split at h
  · cases h
  · rename_i hno
    have hpos : r.items.length ≠ 0 := by simpa using hr
    have hmax : L.admission.maxItems = L.pendingItems := rfl
    have hone : 1 ≤ L.pendingItems := Nat.le_max_right _ _
    unfold DualSemaphore.checkRequest
    rw [if_neg]
    rw [hmax]
    simp only [maxAdmitItems] at hno
    omega

theorem arrive_some {r r' : LaneRequest ι} (h : L.arrive r = .ok (some r')) :
    r' = r ∧ r.items ≠ [] ∧ r.items.length ≤ L.maxAdmitItems ∧ r.logicalBytes ≤ L.config.maxBytes := by
  unfold arrive at h
  obtain ⟨_,hc,h⟩ := bind_eq_ok h
  have hle : r.items.length ≤ L.maxAdmitItems ∧ r.logicalBytes ≤ L.config.maxBytes := by
    unfold checkAdmissible at hc
    split at hc
    · cases hc
    · omega
  by_cases he : r.items.isEmpty = true
  · rw [if_pos he] at h
    cases h
  · have hne : r.items ≠ [] := by simpa using he
    rw [if_neg he] at h
    obtain ⟨_,-,h⟩ := bind_eq_ok h
    cases h
    exact ⟨rfl,hne,hle.1,hle.2⟩

end Lane

/-- A submitted request. `reply` is its caller, by the order of submission, and `bytes` what its
admission took. -/
structure Group (ι : Type) where
  reply : ℕ
  context : CryptoContext
  items : List ι
  logicalBytes : ℕ
  enqueuedAt : ℕ
  bytes : ℕ

section Groups

variable {ι : Type} [UnitIndexed ι]

def Group.units (g : Group ι) : List ℕ := g.items.map UnitIndexed.unitIndex
def unitsOf (gs : List (Group ι)) : List ℕ := gs.flatMap Group.units

omit [UnitIndexed ι]

def itemsOf (gs : List (Group ι)) : ℕ := (gs.map fun g => g.items.length).sum
def bytesOf (gs : List (Group ι)) : ℕ := (gs.map Group.logicalBytes).sum
def chargeOf (gs : List (Group ι)) : ℕ := (gs.map Group.bytes).sum

end Groups

structure Batch (ι : Type) where
  groups : List (Group ι)
  deadline : ℕ
  items : ℕ
  bytes : ℕ
  units : List ℕ

namespace Batch

variable {ι : Type} [UnitIndexed ι] (config : SchedulerConfig)

def first (g : Group ι) : Batch ι :=
  ⟨[g],g.enqueuedAt+config.maxWait,g.items.length,g.logicalBytes,unitsOf [g]⟩

def fits (b : Batch ι) (g : Group ι) : Bool :=
  b.items+g.items.length ≤ config.maxItems && b.bytes+g.logicalBytes ≤ config.maxBytes &&
    b.groups.head?.map Group.context = some g.context &&
    g.items.all fun item => !b.units.contains (UnitIndexed.unitIndex item)

def push (b : Batch ι) (g : Group ι) : Batch ι :=
  ⟨b.groups ++ [g],min b.deadline (g.enqueuedAt+config.maxWait),b.items+g.items.length,
    b.bytes+g.logicalBytes,b.units ++ g.units⟩

/-- What is left of a batch when callers have gone. -/
def ofLive (gs : List (Group ι)) : Batch ι :=
  ⟨gs,((gs.map Group.enqueuedAt).min?.getD 0)+config.maxWait,itemsOf gs,bytesOf gs,unitsOf gs⟩

end Batch

/-- Where the loop is: before the first group, at the head of the gathering loop, in its select,
waiting for a slot, or gone. -/
inductive Phase (ι : Type) where
  | idle
  | gathering (b : Batch ι)
  | listening (b : Batch ι)
  | waiting (groups : List (Group ι))
  | stopped

def Phase.groups {ι : Type} : Phase ι → List (Group ι)
  | .gathering b | .listening b => b.groups
  | .waiting gs => gs
  | _ => []

/-- The state of `run_lane`, with the channel it receives from. -/
structure RunLane (ι : Type) where
  phase : Phase ι := .idle
  queued : List (Group ι) := []
  receiverClosed : Bool := false
  channel : List (Group ι) := []

def RunLane.all {ι : Type} (l : RunLane ι) : List (Group ι) := l.phase.groups ++ (l.queued ++ l.channel)

inductive LaneMove where
  /-- The loop goes on without waiting. -/
  | next
  /-- A caller in the batch or the queue has gone. -/
  | closed
  | receive
  /-- The batch has waited long enough. -/
  | elapsed
  /-- A slot was acquired. -/
  | slot
  deriving DecidableEq

/-- A move of the loop: the groups it dropped and the batch it dispatched. -/
structure LaneStep (ι : Type) where
  lane : RunLane ι
  dropped : List (Group ι) := []
  dispatched : List (Group ι) := []

namespace RunLane

variable {ι : Type} [UnitIndexed ι] (config : SchedulerConfig) (closed : ℕ → Bool) (now : ℕ)
  (senders : Bool) (l : RunLane ι)

def start (g : Group ι) : LaneStep ι :=
  if closed g.reply then { lane := { l with phase := .idle }, dropped := [g] }
  else { lane := { l with phase := .gathering (.first config g) } }

def consider (b : Batch ι) (g : Group ι) : LaneStep ι :=
  if closed g.reply then { lane := { l with phase := .gathering b }, dropped := [g] }
  else if b.fits config g then { lane := { l with phase := .gathering (b.push config g) } }
  else { lane := { l with phase := .waiting b.groups, queued := g::l.queued } }

def next : LaneStep ι :=
  match l.phase with
  | .idle =>
    match l.queued with
    | g::rest => { l with queued := rest }.start config closed g
    | [] =>
      match l.channel with
      | g::rest => { l with channel := rest }.start config closed g
      | [] => if senders then { lane := l } else { lane := { l with phase := .stopped } }
  | .gathering b =>
    if b.items < config.targetItems ∧ b.bytes < config.targetBytes ∧ now < b.deadline then
      match l.queued with
      | g::rest => { l with queued := rest }.consider config closed b g
      | [] => { lane := { l with phase := .listening b } }
    else { lane := { l with phase := .waiting b.groups } }
  | _ => { lane := l }

/-- The live callers of a waiting batch; an empty one is given up. -/
def liveWaiting (gs : List (Group ι)) : Phase ι :=
  match gs.filter fun g => !closed g.reply with
  | [] => .idle
  | kept => .waiting kept

def closedMove : LaneStep ι :=
  match l.phase with
  | .listening b =>
    if b.groups.any fun g => closed g.reply then
      { lane := { l with
          phase := match b.groups.filter fun g => !closed g.reply with
            | [] => .idle
            | kept => .gathering (.ofLive config kept) }
        dropped := b.groups.filter fun g => closed g.reply }
    else { lane := l }
  | .waiting gs =>
    if (gs ++ l.queued).any fun g => closed g.reply then
      { lane := { l with
          phase := liveWaiting closed gs
          queued := l.queued.filter fun g => !closed g.reply }
        dropped := (gs ++ l.queued).filter fun g => closed g.reply }
    else { lane := l }
  | _ => { lane := l }

def receive : LaneStep ι :=
  match l.phase with
  | .listening b =>
    match l.channel with
    | g::rest => { l with channel := rest }.consider config closed b g
    | [] => if senders then { lane := l } else { lane := { l with phase := .waiting b.groups } }
  | .waiting _ =>
    if l.receiverClosed then { lane := l }
    else
      match l.channel with
      | g::rest =>
        if closed g.reply then { lane := { l with channel := rest }, dropped := [g] }
        else { lane := { l with channel := rest, queued := l.queued ++ [g] } }
      | [] => if senders then { lane := l } else { lane := { l with receiverClosed := true } }
  | _ => { lane := l }

def elapsed : LaneStep ι :=
  match l.phase with
  | .listening b =>
    if b.deadline ≤ now then { lane := { l with phase := .waiting b.groups } } else { lane := l }
  | _ => { lane := l }

/-- The slot is there: the live groups go, the loop starts over. Without any, the slot is dropped. -/
def slot : LaneStep ι :=
  match l.phase with
  | .waiting gs =>
    { lane := { l with phase := .idle }
      dropped := gs.filter fun g => closed g.reply
      dispatched := gs.filter fun g => !closed g.reply }
  | _ => { lane := l }

def step : LaneMove → LaneStep ι
  | .next => l.next config closed now senders
  | .closed => l.closedMove config closed
  | .receive => l.receive config closed senders
  | .elapsed => l.elapsed now
  | .slot => l.slot closed

end RunLane

section Order

variable {ι : Type} [UnitIndexed ι] {config : SchedulerConfig} {closed : ℕ → Bool} {now : ℕ}
  {senders : Bool} {l : RunLane ι} {gs : List (Group ι)} {g : Group ι} {b : Batch ι}

/-- Groups that may go to the provider in one call. A lane admits one item even if its maximum
is zero. -/
structure Fit (config : SchedulerConfig) (gs : List (Group ι)) : Prop where
  context : ∀ g ∈ gs, ∀ g' ∈ gs, g.context = g'.context
  units : gs.Pairwise fun g g' => ∀ u ∈ g.units, u ∉ g'.units
  items : itemsOf gs ≤ max config.maxItems 1
  bytes : bytesOf gs ≤ config.maxBytes

structure Group.Small (config : SchedulerConfig) (g : Group ι) : Prop where
  items : g.items.length ≤ max config.maxItems 1
  bytes : g.logicalBytes ≤ config.maxBytes

theorem Fit.nil (config : SchedulerConfig) : Fit config ([] : List (Group ι)) :=
  ⟨by simp,List.Pairwise.nil,Nat.zero_le _,Nat.zero_le _⟩

theorem Fit.sublist {gs' : List (Group ι)} (h : Fit config gs) (hs : gs'.Sublist gs) : Fit config gs' where
  context g hg g' hg' := h.context g (hs.subset hg) g' (hs.subset hg')
  units := h.units.sublist hs
  items := ((hs.map _).sum_le_sum fun _ _ => Nat.zero_le _).trans h.items
  bytes := ((hs.map _).sum_le_sum fun _ _ => Nat.zero_le _).trans h.bytes

theorem Fit.singleton (h : g.Small config) : Fit config [g] where
  context := by simp
  units := List.pairwise_singleton _ _
  items := by
    have hi := h.items
    simpa only [itemsOf,List.map_cons,List.map_nil,List.sum_singleton] using hi
  bytes := by simpa [bytesOf] using h.bytes

/-- The running totals of a batch belong to its groups, which fit. -/
structure Batch.Wf (config : SchedulerConfig) (b : Batch ι) : Prop where
  fit : Fit config b.groups
  items : b.items = itemsOf b.groups
  bytes : b.bytes = bytesOf b.groups
  units : b.units = unitsOf b.groups

theorem Batch.first_wf (h : g.Small config) : (Batch.first config g).Wf config :=
  ⟨Fit.singleton h,by simp [first,itemsOf],by simp [first,bytesOf],rfl⟩

theorem Batch.ofLive_wf (h : Fit config gs) : (Batch.ofLive config gs).Wf config := ⟨h,rfl,rfl,rfl⟩

theorem Batch.push_wf (h : b.Wf config) (hf : b.fits config g = true) : (b.push config g).Wf config := by
  simp only [fits,Bool.and_eq_true,decide_eq_true_eq,List.all_eq_true,Bool.not_eq_true',
    List.contains_eq_mem,decide_eq_false_iff_not] at hf
  obtain ⟨⟨⟨hitems,hbytes⟩,hcontext⟩,hunits⟩ := hf
  rw [h.items] at hitems
  rw [h.bytes] at hbytes
  rw [h.units] at hunits
  have hsame : ∀ x ∈ b.groups, x.context = g.context := by
    intro x hx
    cases hg : b.groups with
    | nil =>
      rw [hg] at hx
      cases hx
    | cons y ys =>
      rw [hg] at hcontext
      exact (h.fit.context x hx y (hg ▸ List.mem_cons_self)).trans (Option.some.inj hcontext)
  refine ⟨⟨?_,?_,?_,?_⟩,?_,?_,?_⟩
  · intro x hx y hy
    have hall : ∀ z ∈ (b.push config g).groups, z.context = g.context := forall_mem_concat hsame rfl
    rw [hall x hx,hall y hy]
  · refine List.pairwise_append.mpr ⟨h.fit.units,List.pairwise_singleton _ _,?_⟩
    intro x hx y hy u hu hmem
    rw [List.mem_singleton.mp hy] at hmem
    obtain ⟨item,hitem,rfl⟩ := List.mem_map.mp hmem
    exact hunits item hitem (List.mem_flatMap.mpr ⟨x,hx,hu⟩)
  · have hsum : itemsOf (b.push config g).groups = itemsOf b.groups+g.items.length := by
      simp [push,itemsOf]
    rw [hsum]
    exact hitems.trans (le_max_left _ _)
  · simpa [push,bytesOf] using hbytes
  · simp [push,itemsOf,h.items]
  · simp [push,bytesOf,h.bytes]
  · simp [push,unitsOf,h.units]

/-- The batch in the making fits, and the loop only listens with an empty queue. -/
def RunLane.Wf (config : SchedulerConfig) (l : RunLane ι) : Prop :=
  match l.phase with
  | .gathering b => b.Wf config
  | .listening b => b.Wf config ∧ l.queued = []
  | .waiting gs => Fit config gs
  | _ => True

/-- All a move can do: groups leave in order, those that are dropped have lost their caller, and
what is dispatched may go in one call. -/
structure LaneStep.Follows (config : SchedulerConfig) (closed : ℕ → Bool) (l : RunLane ι)
    (s : LaneStep ι) : Prop where
  order : (s.dispatched ++ s.lane.all).Sublist l.all
  perm : (s.dispatched ++ (s.dropped ++ s.lane.all)).Perm l.all
  dropped : ∀ g ∈ s.dropped, closed g.reply = true
  live : ∀ g ∈ s.dispatched, closed g.reply = false
  fit : Fit config s.dispatched
  wf : s.lane.Wf config

theorem LaneStep.Follows.stay {l' : RunLane ι} (hall : l'.all = l.all) (hwf : l'.Wf config) :
    LaneStep.Follows config closed l { lane := l' } :=
  ⟨by simp [hall],by simp [hall],by simp,by simp,Fit.nil config,hwf⟩

namespace RunLane

theorem start_follows {l' : RunLane ι} (hall : l.all = g::l'.all) (hphase : l'.phase.groups = [])
    (hg : g.Small config) : (l'.start config closed g).Follows config closed l := by
  have hidle : ({ l' with phase := .idle } : RunLane ι).all = l'.all := by
    unfold all
    rw [hphase]
    rfl
  unfold start
  split
  · rename_i hc
    refine ⟨?_,?_,by simpa using hc,by simp,Fit.nil config,trivial⟩
    · simp [hall,hidle]
    · simp [hall,hidle]
  · refine .stay ?_ (Batch.first_wf hg)
    rw [hall,← hidle]
    rfl

theorem consider_follows {l' : RunLane ι} (hb : b.Wf config)
    (hall : l.all = b.groups ++ g::(l'.queued ++ l'.channel)) :
    (l'.consider config closed b g).Follows config closed l := by
  unfold consider
  split
  · rename_i hc
    refine ⟨?_,?_,by simpa using hc,by simp,Fit.nil config,hb⟩
    · rw [hall]
      exact (List.sublist_cons_self g (l'.queued ++ l'.channel)).append_left b.groups
    · rw [hall]
      show (g::(b.groups ++ (l'.queued ++ l'.channel))).Perm _
      exact List.perm_middle.symm
  · split
    · rename_i hf
      refine .stay ?_ (Batch.push_wf hb hf)
      rw [hall]
      exact (List.append_assoc _ _ _).trans rfl
    · refine .stay ?_ hb.fit
      rw [hall]
      rfl

theorem next_follows (h : l.Wf config) (hs : ∀ g ∈ l.all, g.Small config) :
    (l.next config closed now senders).Follows config closed l := by
  obtain ⟨phase,queued,rc,channel⟩ := l
  cases phase with
  | idle =>
    cases queued with
    | cons g rest => exact start_follows rfl rfl (hs g List.mem_cons_self)
    | nil =>
      cases channel with
      | cons g rest => exact start_follows rfl rfl (hs g List.mem_cons_self)
      | nil =>
        cases senders
        · exact .stay rfl trivial
        · exact .stay rfl trivial
  | gathering b =>
    simp only [next]
    split
    · cases queued with
      | cons g rest => exact consider_follows h rfl
      | nil => exact .stay rfl ⟨h,rfl⟩
    · exact .stay rfl h.fit
  | listening b => exact .stay rfl h
  | waiting gs => exact .stay rfl h
  | stopped => exact .stay rfl h

omit [UnitIndexed ι] in
theorem liveWaiting_groups (gs : List (Group ι)) :
    (liveWaiting closed gs).groups = gs.filter fun g => !closed g.reply := by
  unfold liveWaiting
  split
  · rename_i h
    exact h.symm
  · rfl

theorem closedMove_follows (h : l.Wf config) : (l.closedMove config closed).Follows config closed l := by
  obtain ⟨phase,queued,rc,channel⟩ := l
  have hsplit : ∀ xs : List (Group ι), ((xs.filter fun g => closed g.reply) ++
      xs.filter fun g => !closed g.reply).Perm xs := fun xs => List.filter_append_perm _ _
  cases phase with
  | listening b =>
    simp only [closedMove]
    split
    · generalize hk : (b.groups.filter fun g => !closed g.reply) = kept
      have hfit : Fit config kept := hk ▸ h.1.fit.sublist List.filter_sublist
      have hgroups : (match kept with
          | [] => Phase.idle
          | kept => .gathering (.ofLive config kept)).groups = kept := by
        cases kept <;> rfl
      refine ⟨?_,?_,by simp,by simp,Fit.nil config,?_⟩
      · simp only [List.nil_append,all,hgroups]
        exact (hk ▸ List.filter_sublist).append (List.Sublist.refl _)
      · simp only [List.nil_append,all,hgroups,← List.append_assoc]
        refine List.Perm.append_right _ (List.Perm.append_right _ ?_)
        exact hk ▸ hsplit b.groups
      · cases kept with
        | nil => trivial
        | cons g rest => exact Batch.ofLive_wf hfit
    · exact .stay rfl h
  | waiting gs =>
    simp only [closedMove]
    split
    · refine ⟨?_,?_,fun g hg => by simpa using (List.mem_filter.mp hg).2,by simp,Fit.nil config,?_⟩
      · simp only [List.nil_append,all,liveWaiting_groups]
        exact List.filter_sublist.append (List.filter_sublist.append (List.Sublist.refl _))
      · simp only [List.nil_append,all,liveWaiting_groups,← List.append_assoc,← List.filter_append]
        refine List.Perm.append_right _ ?_
        exact hsplit (gs ++ queued)
      · unfold liveWaiting Wf
        split
        · rename_i hp
          split at hp <;> cases hp
        · rename_i hp
          split at hp <;> cases hp
        · rename_i gs' hp
          split at hp
          · cases hp
          · cases hp
            exact h.sublist List.filter_sublist
        · trivial
    · exact .stay rfl h
  | idle => exact .stay rfl h
  | gathering b => exact .stay rfl h
  | stopped => exact .stay rfl h

theorem receive_follows (h : l.Wf config) : (l.receive config closed senders).Follows config closed l := by
  obtain ⟨phase,queued,rc,channel⟩ := l
  cases phase with
  | listening b =>
    obtain ⟨hb,hq⟩ := h
    cases channel with
    | cons g rest =>
      refine consider_follows hb ?_
      simp only at hq
      simp [all,Phase.groups,hq]
    | nil =>
      cases senders
      · exact .stay rfl hb.fit
      · exact .stay rfl ⟨hb,hq⟩
  | waiting gs =>
    cases rc with
    | true => exact .stay rfl h
    | false =>
      cases channel with
      | nil =>
        cases senders
        · exact .stay rfl h
        · exact .stay rfl h
      | cons g rest =>
        simp only [receive]
        rw [if_neg (by simp)]
        split
        · rename_i hc
          refine ⟨?_,?_,by simpa using hc,by simp,Fit.nil config,h⟩
          · simp [all,Phase.groups]
          · simp only [List.nil_append,List.singleton_append,all,Phase.groups,← List.append_assoc]
            exact List.perm_middle.symm
        · refine .stay ?_ h
          simp [all]
  | idle => exact .stay rfl h
  | gathering b => exact .stay rfl h
  | stopped => exact .stay rfl h

theorem elapsed_follows (h : l.Wf config) : (l.elapsed now).Follows config closed l := by
  obtain ⟨phase,queued,rc,channel⟩ := l
  cases phase with
  | listening b =>
    simp only [elapsed]
    split
    · exact .stay rfl h.1.fit
    · exact .stay rfl h
  | idle => exact .stay rfl h
  | gathering b => exact .stay rfl h
  | waiting gs => exact .stay rfl h
  | stopped => exact .stay rfl h

theorem slot_follows (h : l.Wf config) : (l.slot closed).Follows config closed l := by
  obtain ⟨phase,queued,rc,channel⟩ := l
  cases phase with
  | waiting gs =>
    refine ⟨?_,?_,by simp [slot],by simp [slot],h.sublist List.filter_sublist,trivial⟩
    · simp only [slot,all,Phase.groups,List.nil_append]
      exact List.filter_sublist.append (List.Sublist.refl _)
    · simp only [slot,all,Phase.groups,List.nil_append,← List.append_assoc]
      refine List.Perm.append_right _ (List.Perm.append_right _ ?_)
      exact List.perm_append_comm.trans (List.filter_append_perm _ _)
  | idle => exact .stay rfl h
  | gathering b => exact .stay rfl h
  | listening b => exact .stay rfl h
  | stopped => exact .stay rfl h

theorem dispatched_nil {m : LaneMove} (hm : m ≠ .slot) :
    (l.step config closed now senders m).dispatched = [] := by
  have hstart : ∀ (l : RunLane ι) g, (l.start config closed g).dispatched = [] := by
    intro l g
    unfold start
    split <;> rfl
  have hconsider : ∀ (l : RunLane ι) b g, (l.consider config closed b g).dispatched = [] := by
    intro l b g
    unfold consider
    split
    · rfl
    · split <;> rfl
  obtain ⟨phase,queued,rc,channel⟩ := l
  cases m with
  | next =>
    cases phase with
    | idle =>
      cases queued with
      | cons g rest => exact hstart _ _
      | nil =>
        cases channel with
        | cons g rest => exact hstart _ _
        | nil => cases senders <;> rfl
    | gathering b =>
      simp only [step,next]
      split
      · cases queued with
        | cons g rest => exact hconsider _ _ _
        | nil => rfl
      · rfl
    | _ => rfl
  | closed =>
    simp only [step,closedMove]
    split
    · split <;> rfl
    · split <;> rfl
    · rfl
  | receive =>
    cases phase with
    | listening b =>
      cases channel with
      | cons g rest => exact hconsider _ _ _
      | nil => cases senders <;> rfl
    | waiting gs =>
      simp only [step,receive]
      split
      · rfl
      · split
        · split <;> rfl
        · split <;> rfl
    | _ => rfl
  | elapsed =>
    simp only [step,elapsed]
    split
    · split <;> rfl
    · rfl
  | slot => exact absurd rfl hm

theorem step_follows (h : l.Wf config) (hs : ∀ g ∈ l.all, g.Small config) (m : LaneMove) :
    (l.step config closed now senders m).Follows config closed l := by
  cases m with
  | next => exact next_follows h hs
  | closed => exact closedMove_follows h
  | receive => exact receive_follows h
  | elapsed => exact elapsed_follows h
  | slot => exact slot_follows h

end RunLane
end Order
end Scheduler
end Maki
