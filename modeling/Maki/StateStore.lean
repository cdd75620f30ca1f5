import Maki.FileWitness
import Maki.RemoteCodec

/-! The remote authority in a file (`maki_backing::remote_witness::StateStore`), and what both witnesses
that publish by renaming guarantee: they never step back. -/
namespace Maki

open Prog hiding pure bind throw get modify

open RemoteWitness

structure StateStore where
  stored : Stored
  poisoned : Bool
  deriving DecidableEq

namespace StateStore

def files : Replaced where
  file := .other .root "remote.state"
  temp := .other .root "remote.next"

variable {μ : Type} [Sha256] [StoredReader]

def read : Io μ WitnessError Stored :=
  files.read .Io (fun n => 44 ≤ n && n ≤ maxBytes) (.InvalidData "invalid remote witness length")
    RemoteWitness.decode

def publish (stored : Stored) : Io μ WitnessError Unit := do
  let bytes ← Prog.ofExcept (RemoteWitness.encode stored)
  Prog.mapErr .Io (files.publish bytes)

/-- The synced empty sentinel makes an interrupted enrollment invalid. -/
def enroll (identity : Bytes16) : Io μ WitnessError StateStore := do
  let initial ← Prog.ofExcept (CanonicalState.initial identity)
  let placeholder ← Prog.mapErr .Io (Io.openFile files.file true)
  Prog.mapErr .Io (Io.setLen placeholder 0)
  Prog.mapErr .Io (Io.syncData placeholder)
  Prog.mapErr .Io (Io.syncDir .root)
  publish initial.stored
  return ⟨initial.stored,false⟩

def createBacking (identity : Bytes16) : Io μ WitnessError StateStore := do
  Prog.ofExcept (refuse (identity = nil16) (.InvalidInput "nil remote witness identity"))
  if ← Prog.mapErr .Io (Io.exists_ files.file) then
    Prog.throw (.AlreadyExists "remote witness already enrolled")
  else enroll identity

def openBacking : Io μ WitnessError StateStore := do
  let stored ← read
  publish stored
  return ⟨stored,false⟩

def poison (s : StateStore × Disk) : StateStore × Disk := ({ s.1 with poisoned := true },s.2)

def compare : Io StateStore WitnessError Unit := do
  let current ← read
  let s ← Prog.get
  Prog.ofExcept (refuse (current ≠ s.1.stored) (.InvalidData "remote witness changed while locked"))

/-- Make a new state durable before it counts. -/
def replace (stored : Stored) : Io StateStore WitnessError Record := do
  Prog.onError (publish stored) poison
  Prog.modify fun s => ({ s.1 with stored },s.2)
  return stored.record

def serve (stored : Stored) (role : Role) (q : Request) : Io StateStore WitnessError Record := do
  Prog.onError compare poison
  let candidate ← Prog.ofExcept (CanonicalState.apply ⟨stored⟩ role q)
  if candidate.stored = stored then Prog.pure stored.record else replace candidate.stored

def handle (role : Role) (q : Request) : Io StateStore WitnessError Record := do
  let s ← Prog.get
  if s.1.poisoned then
    Prog.throw (.Other "remote witness state uncertain; reopen required")
  else serve s.1.stored role q

inductive Start where
  | create (identity : Bytes16)
  | reopen

def candidate (w : StateStore) (x : Role × Request) : Option Stored :=
  if w.poisoned then none
  else
    match CanonicalState.apply ⟨w.stored⟩ x.1 x.2 with
    | .error _ => none
    | .ok c => if c.stored = w.stored then none else some c.stored

/-- A request is due the state that the authority's rules give, and its record. -/
def due (w : StateStore) (x : Role × Request) : Option (Record × Stored) :=
  (CanonicalState.apply ⟨w.stored⟩ x.1 x.2).toOption.map fun c => (c.record,c.stored)

def keeper : Keeper StateStore Stored (Role × Request) Start WitnessError Record where
  files := files
  record := stored
  poisoned := poisoned
  encode s := (RemoteWitness.encode s).toOption
  decode := RemoteWitness.decode
  start
    | .create identity => createBacking identity
    | .reopen => openBacking
  call x := handle x.1 x.2
  candidate := candidate
  due := due

section Laws

variable {m : μ} {w : StateStore} {d : Disk}

theorem read_triple :
    Ends (· = (m,d)) read
      (fun a s => s = (m,d) ∧ ∃ x, d.image files.file = some x ∧ RemoteWitness.decode x = .ok a)
      (· = (m,d)) := Replaced.read_triple

omit [StoredReader] in
theorem encode_ne_nil {stored : Stored} {bs : Bytes} (h : RemoteWitness.encode stored = .ok bs) :
    bs ≠ [] := by
  unfold RemoteWitness.encode at h
  obtain ⟨-,-,h⟩ := bind_eq_ok h
  obtain ⟨-,-,h⟩ := bind_eq_ok h
  cases h
  simp [magic,ascii]

theorem publish_publishes (stored : Stored) :
    keeper.Publishes stored (publish stored : Io μ WitnessError Unit) := by
  intro m d hd
  apply Triple.ofExcept_bind
  · intro bs hb
    have hsome : keeper.encode stored = some bs := by simp [keeper,hb,Except.toOption]
    apply Triple.mapErr
    apply (Replaced.publish_triple (encode_ne_nil hb) hd).conseq
    · exact fun _ hs => hs
    · exact fun _ s hs => ⟨hs.1,_,hsome,hs.2⟩
    · exact fun _ s hs => ⟨hs.1,.inr ⟨_,hsome,hs.2⟩⟩
    · exact fun s hs => ⟨hs.1,.inr ⟨_,hsome,hs.2⟩⟩
  · rintro _ _ - rfl
    exact ⟨rfl,.inl rfl⟩

theorem compare_triple :
    Triple (· = (w,d)) (Prog.onError compare poison) (fun _ s => s = (w,d))
      (fun _ s => s.1.poisoned = true ∧ s.2 = d) (· = (w,d)) := by
  have hcompare : Ends (· = (w,d)) compare (fun _ s => s = (w,d)) (· = (w,d)) :=
    Triple.bind (read_triple.weakenOk fun _ _ hs => hs.1) fun current => Triple.get_bind
      (Triple.ofExcept (fun _ _ _ hs => hs) (fun _ _ _ hs => hs))
  apply Triple.onError
  apply hcompare.conseq
  · exact fun _ hs => hs
  · exact fun _ _ hs => hs
  · rintro _ _ rfl
    exact ⟨rfl,rfl⟩
  · exact fun _ hs => hs

/-- Serving a request either leaves handle and disk alone, or publishes the candidate. -/
theorem serve_triple (x : Role × Request) (hw : w.poisoned = false) (hk : keeper.Kept w.stored d) :
    Triple (· = (w,d)) (serve w.stored x.1 x.2)
      (fun r s => s.1.poisoned = false ∧ keeper.Kept s.1.stored s.2 ∧ w.due x = some (r,s.1.stored) ∧
        (s.1.stored = w.stored ∨ w.candidate x = some s.1.stored))
      (fun _ s => s = (w,d) ∧ w.candidate x = none ∨
        s.1.poisoned = true ∧ keeper.Tried w x d s.2)
      (fun s => keeper.Tried w x d s.2) := by
  have hd : d.Fresh := hk.fresh
  refine .bind (compare_triple.weaken (fun _ _ hs => hs) (fun _ _ hs => .inr ⟨hs.1,.inl hs.2⟩)
    fun _ hs => .inl (congrArg Prod.snd hs)) fun _ => Triple.ofExcept_bind (fun c hc => ?_) ?_
  · have hdue : w.due x = some (c.stored.record,c.stored) := by simp [due,hc,Except.toOption,CanonicalState.record]
    rw [hdue]
    by_cases hsame : c.stored = w.stored
    · rw [if_pos hsame]
      apply Triple.pure
      rintro _ rfl
      exact ⟨hw,hk,by rw [hsame],.inl rfl⟩
    · have hcand : w.candidate x = some c.stored := by simp [candidate,hw,hc,hsame]
      rw [if_neg hsame,hcand]
      have hpublish := (publish_publishes c.stored).guarded (f := poison) (w := w) (k := x) hd hcand
        (fun _ => ⟨rfl,rfl⟩) fun s => s = (w,d) ∧ some c.stored = none
      refine .bind hpublish fun _ => .bind (.modify ?_) fun _ => Triple.pure fun _ hs => hs
      rintro ⟨w',d'⟩ ⟨rfl,hk'⟩
      exact ⟨hw,hk',rfl,.inr rfl⟩
  · rintro e _ he rfl
    exact .inl ⟨rfl,by simp [candidate,hw,he]⟩

theorem enroll_fresh (identity : Bytes16) :
    Keeps (fun s => s.2.Fresh) (enroll identity : Io μ WitnessError _) :=
  .bind (.ofExcept _) fun initial => .bind ((Io.openFile_fresh _ _).mapErr _) fun placeholder =>
    .bind ((Io.setLen_fresh placeholder 0).mapErr _) fun _ =>
      .bind ((Io.syncData_fresh placeholder).mapErr _) fun _ =>
        .bind ((Io.syncDir_fresh .root).mapErr _) fun _ =>
          .bind (publish_publishes initial.stored).fresh fun _ => .pure _

theorem enroll_kept (identity : Bytes16) :
    Returns (fun s => s.2.Fresh) (enroll identity : Io μ WitnessError _)
      fun w s => w.poisoned = false ∧ keeper.Kept w.stored s.2 := by
  refine (Returns.ofTriple (Keeps.ofExcept _)).bind fun initial => ?_
  refine (Returns.ofTriple ((Io.openFile_fresh _ _).mapErr _)).bind fun placeholder => ?_
  refine (Returns.ofTriple ((Io.setLen_fresh placeholder 0).mapErr _)).bind fun _ => ?_
  refine (Returns.ofTriple ((Io.syncData_fresh placeholder).mapErr _)).bind fun _ => ?_
  refine (Returns.ofTriple ((Io.syncDir_fresh .root).mapErr _)).bind fun _ => ?_
  refine (publish_publishes initial.stored).kept.bind fun _ => .pure fun s hs => ⟨rfl,hs⟩

end Laws

/-- The authority publishes before it acknowledges, and its records rise. -/
theorem lawful : keeper.Lawful fun s : Stored => s.record.measure where
  start_triple x d hd := by
    cases x with
    | create identity =>
      apply Triple.ofExcept_bind
      · intro _ _
        exact Keeper.enroll_triple (K := keeper) hd (enroll_fresh _) (enroll_kept _)
      · rintro _ _ - rfl
        exact ⟨hd,fun _ h _ => h⟩
    | reopen =>
      exact Keeper.reopen_triple (K := keeper) (fun _ => read_triple) publish_publishes
        (fun _ => ⟨rfl,rfl⟩) hd
  call_triple x w d hw hk := by
    rintro fs _ rfl
    have hserve : keeper.call x fs (w,d) = serve w.stored x.1 x.2 fs (w,d) := by
      simp [keeper,handle,bind,Prog.bind,Prog.get,show w.poisoned = false from hw]
    rw [hserve]
    exact serve_triple x hw hk fs (w,d) rfl
  call_poisoned x w hw := by
    refine ⟨.Other "remote witness state uncertain; reopen required",fun fs d => ?_⟩
    simp [keeper,handle,bind,Prog.bind,Prog.get,Prog.throw,show w.poisoned = true from hw]
  candidate_poisoned x w hw := by simp [keeper,candidate,show w.poisoned = true from hw]
  candidate_lt x w s hs := by
    simp only [keeper,candidate] at hs
    split at hs
    · cases hs
    · split at hs
      · cases hs
      · rename_i c hc
        split at hs
        · cases hs
        · rename_i hne
          cases hs
          have hch := CanonicalState.changed_of_ne hc fun he => hne (by rw [he])
          exact hch.measure_lt

end StateStore

/-- The file witness and the file authority never step back, over any two stretches of starts,
requests, failures and crashes. The digests of the records that occur are assumed to tell a
damaged copy from the record. -/
theorem witnesses_never_step_back [Sha256] [StoredReader] (tearing : Option ℕ) {d : Disk} (hd : d.Fresh)
    (before after : List (Keeper.Event FileWitness.Call FileWitness.Start))
    (before' after' : List (Keeper.Event (Role × Request) StateStore.Start))
    (hsha : ∀ r ∈ (FileWitness.keeper.run tearing
      (FileWitness.keeper.run tearing { disk := d } before) after).history, FileWitness.keeper.Sturdy r)
    (hsha' : ∀ r ∈ (StateStore.keeper.run tearing
      (StateStore.keeper.run tearing { disk := d } before') after').history, StateStore.keeper.Sturdy r) :
    FileWitness.keeper.Forward Anchor.generation .reopen
      (FileWitness.keeper.run tearing { disk := d } before)
      (FileWitness.keeper.run tearing (FileWitness.keeper.run tearing { disk := d } before) after) ∧
    StateStore.keeper.Forward (fun s => s.record.measure) .reopen
      (StateStore.keeper.run tearing { disk := d } before')
      (StateStore.keeper.run tearing (StateStore.keeper.run tearing { disk := d } before') after') :=
  ⟨FileWitness.lawful.forward tearing .reopen hd before after hsha,
    StateStore.lawful.forward tearing .reopen hd before' after' hsha'⟩

section Sample

/-! Both witnesses are enrolled and acknowledge one step. The publication of the next one fails at its
last sync, and power is lost. -/

def sampleAnchor (generation : ℕ) : Anchor :=
  ⟨Vector.replicate 16 1,generation,Vector.replicate 32 (UInt8.ofNat generation)⟩

def sampleRecord (fence : ℕ) (phase : Phase) (operation : UInt8) : Record :=
  ⟨Vector.replicate 16 1,none,fence,Vector.replicate 16 (UInt8.ofNat fence),phase,none,
    Vector.replicate 16 operation⟩

/-- An authority of fence zero is fresh; later ones carry the digests of a request and a session. -/
def sampleState (fence : ℕ) (phase : Phase) (operation : UInt8) : Stored :=
  let hash := if fence = 0 then none else some (Vector.replicate 32 206)
  ⟨2,sampleRecord fence phase operation,hash,hash⟩

def sampleStates : List Stored := [sampleState 0 .Released 0,sampleState 1 .Claimed 1,sampleState 1 .Released 2]

def sampleHead (s : Stored) : Bytes := magic ++ (leBytes 4 (storedJson s).length ++ storedJson s)

def sampleMessages : List Bytes :=
  ((List.range 3).map fun i => FileWitness.domain ++ FileWitness.body (sampleAnchor i)) ++
    sampleStates.map fun s => stateDomain ++ sampleHead s

/-- The byte that a digest consists of: one for each sample, one for all other messages. -/
def mark (i : ℕ) : UInt8 := UInt8.ofNat (200+i)

def markOf (bs : Bytes) : UInt8 := mark (sampleMessages.findIdx (· = bs))

@[reducible] def markingHash : Sha256 := ⟨fun bs => Vector.replicate 32 (markOf bs)⟩

@[reducible] def sampleReader : StoredReader := ⟨fun body => sampleStates.find? fun s => storedJson s = body⟩

attribute [local instance] markingHash sampleReader

/-- A damaged copy without the marks of other messages has only its own digest. -/
theorem eq_of_mark {k : ℕ} {bs x m m' : Bytes} (hm : ∀ j < 7, j ≠ k → mark j ∉ bs) (hx : Patchy bs x)
    (hk : sampleMessages[k]? = some m) (h : markOf m' ∈ x) : m' = m ∧ markOf m' = mark k := by
  have hlt : sampleMessages.findIdx (· = m') < 7 := Nat.lt_succ_of_le List.findIdx_le_length
  have hpos : ∀ j < 7, mark j ≠ 0 := by decide
  have hidx : sampleMessages.findIdx (· = m') = k := by
    by_contra hne
    exact hx.not_mem (hm _ hlt hne) (hpos _ hlt) h
  obtain ⟨hlen,hget⟩ := List.getElem?_eq_some_iff.mp hk
  subst hidx
  have hfound := List.findIdx_getElem (p := fun bs => decide (bs = m')) (w := hlen)
  rw [hget] at hfound
  exact ⟨(of_decide_eq_true hfound).symm,rfl⟩

theorem anchor_sturdy {k : ℕ} {a : Anchor}
    (hk : sampleMessages[k]? = some (FileWitness.domain ++ FileWitness.body a))
    (hm : ∀ j < 7, j ≠ k → mark j ∉ FileWitness.encode a)
    (hdecode : FileWitness.decode (FileWitness.encode a) = .ok a) : FileWitness.keeper.Sturdy a := by
  rintro _ ⟨⟩ x r hx hr
  have hsum : x.drop 72 = (FileWitness.checksum (x.take 72)).toList := by
    obtain ⟨-,h⟩ := refuse_bind hr
    exact not_not.mp (refuse_bind h).1
  have hin : markOf (FileWitness.domain ++ x.take 72) ∈ x := by
    apply List.mem_of_mem_drop (i := 72)
    rw [hsum]
    simp [FileWitness.checksum,Sha256.hash]
  have hbody := List.append_cancel_left (eq_of_mark hm hx hk hin).1
  have hx : x = FileWitness.encode a := by
    rw [← List.take_append_drop 72 x,hsum,hbody]
    rfl
  rw [hx] at hr
  exact Except.ok.inj (hr.symm.trans hdecode)

theorem state_sturdy {k : ℕ} {s : Stored} (hk : sampleMessages[k]? = some (stateDomain ++ sampleHead s))
    (hencode : RemoteWitness.encode s = .ok (sampleHead s ++ List.replicate 32 (mark k)))
    (hm : ∀ j < 7, j ≠ k → mark j ∉ sampleHead s ++ List.replicate 32 (mark k))
    (hdecode : RemoteWitness.decode (sampleHead s ++ List.replicate 32 (mark k)) = .ok s) :
    StateStore.keeper.Sturdy s := by
  intro bs hbs x r hx hr
  have hbytes : bs = sampleHead s ++ List.replicate 32 (mark k) := by
    have he : StateStore.keeper.encode s = some (sampleHead s ++ List.replicate 32 (mark k)) := by
      simp only [StateStore.keeper,hencode,Except.toOption]
    exact Option.some.inj (hbs.symm.trans he)
  subst hbytes
  have hsum : (digest stateDomain (x.take (x.length-32))).toList = x.drop (x.length-32) := by
    obtain ⟨-,h⟩ := refuse_bind hr
    obtain ⟨h,-⟩ := refuse_bind h
    exact not_not.mp (not_or.mp h).2
  have hin : markOf (stateDomain ++ x.take (x.length-32)) ∈ x := by
    apply List.mem_of_mem_drop (i := x.length-32)
    rw [← hsum]
    simp [digest,Sha256.hash]
  obtain ⟨hmessage,hmark⟩ := eq_of_mark hm hx hk hin
  have hdigest : (digest stateDomain (x.take (x.length-32))).toList = List.replicate 32 (mark k) := by
    rw [← hmark]
    exact Vector.toList_replicate
  have hx : x = sampleHead s ++ List.replicate 32 (mark k) := by
    have hsplit := List.take_append_drop (x.length-32) x
    rw [← hsum,hdigest,List.append_cancel_left hmessage] at hsplit
    exact hsplit.symm
  rw [hx] at hr
  exact Except.ok.inj (hr.symm.trans hdecode)

def keepAll : CrashChoice := ⟨fun _ => true,fun _ _ => .kept⟩

def lastSyncFails : List Fault := List.replicate 9 .none ++ [.fail]

def anchorEvents : List (Keeper.Event FileWitness.Call FileWitness.Start) :=
  [.start (.create (sampleAnchor 0).identity (sampleAnchor 0).root) [] keepAll,
    .call (.advance (sampleAnchor 1).root) [] keepAll,
    .call (.advance (sampleAnchor 2).root) lastSyncFails keepAll]

def sampleRequest (operation : UInt8) (expected : Record) (action : Action) : Request :=
  ⟨Vector.replicate 16 operation,some expected,action,some (Vector.replicate 32 7)⟩

def stateEvents : List (Keeper.Event (Role × Request) StateStore.Start) :=
  [.start (.create (sampleAnchor 0).identity) [] keepAll,
    .call (.Writer,sampleRequest 1 (sampleRecord 0 .Released 0) .Claim) [] keepAll,
    .call (.Writer,sampleRequest 2 (sampleRecord 1 .Claimed 1) .Release) lastSyncFails keepAll]

def reopening {κ σ : Type} (reopen : σ) : List (Keeper.Event κ σ) := [.crash keepAll,.start reopen [] keepAll]

set_option maxRecDepth 100000 in
theorem anchor_run :
    let w := FileWitness.keeper.run none { disk := {} } anchorEvents
    let w' := FileWitness.keeper.run none w (reopening .reopen)
    w.acked = some (sampleAnchor 1) ∧ w'.acked = some (sampleAnchor 2) ∧
      w'.history = [sampleAnchor 0,sampleAnchor 1,sampleAnchor 2,sampleAnchor 2] := by decide +kernel

set_option maxRecDepth 100000 in
theorem state_run :
    let w := StateStore.keeper.run none { disk := {} } stateEvents
    let w' := StateStore.keeper.run none w (reopening .reopen)
    w.acked = some (sampleState 1 .Claimed 1) ∧ w'.acked = some (sampleState 1 .Released 2) ∧
      w'.history = sampleStates ++ [sampleState 1 .Released 2] := by decide +kernel

set_option maxRecDepth 100000 in
/-- The reopened witness has the record that was tried last and never acknowledged. -/
theorem witnesses_never_step_back_after_failure :
    (FileWitness.keeper.run none { disk := {} } anchorEvents).acked = some (sampleAnchor 1) ∧
    (FileWitness.keeper.run none (FileWitness.keeper.run none { disk := {} } anchorEvents)
      (reopening .reopen)).acked = some (sampleAnchor 2) ∧
    (StateStore.keeper.run none { disk := {} } stateEvents).acked = some (sampleState 1 .Claimed 1) ∧
    (StateStore.keeper.run none (StateStore.keeper.run none { disk := {} } stateEvents)
      (reopening .reopen)).acked = some (sampleState 1 .Released 2) ∧
    FileWitness.keeper.Forward Anchor.generation .reopen
      (FileWitness.keeper.run none { disk := {} } anchorEvents)
      (FileWitness.keeper.run none (FileWitness.keeper.run none { disk := {} } anchorEvents)
        (reopening .reopen)) ∧
    StateStore.keeper.Forward (fun s => s.record.measure) .reopen
      (StateStore.keeper.run none { disk := {} } stateEvents)
      (StateStore.keeper.run none (StateStore.keeper.run none { disk := {} } stateEvents)
        (reopening .reopen)) := by
  obtain ⟨ha,ha',hh⟩ := anchor_run
  obtain ⟨hs,hs',hh'⟩ := state_run
  refine ⟨ha,ha',hs,hs',
    witnesses_never_step_back none ?_ anchorEvents (reopening .reopen) stateEvents (reopening .reopen) ?_ ?_⟩
  · rintro p i (h | h) <;> cases h
  · rw [hh]
    simp only [List.forall_mem_cons,List.not_mem_nil,false_implies,implies_true,and_true,and_self]
    exact ⟨anchor_sturdy (k := 0) rfl (by decide +kernel) (by decide +kernel),
      anchor_sturdy (k := 1) rfl (by decide +kernel) (by decide +kernel),
      anchor_sturdy (k := 2) rfl (by decide +kernel) (by decide +kernel)⟩
  · rw [hh']
    simp only [sampleStates,List.cons_append,List.nil_append,List.forall_mem_cons,List.not_mem_nil,
      false_implies,implies_true,and_true,and_self]
    exact ⟨state_sturdy (k := 3) rfl (by decide +kernel) (by decide +kernel) (by decide +kernel),
      state_sturdy (k := 4) rfl (by decide +kernel) (by decide +kernel) (by decide +kernel),
      state_sturdy (k := 5) rfl (by decide +kernel) (by decide +kernel) (by decide +kernel)⟩

end Sample
end Maki
