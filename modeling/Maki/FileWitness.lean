import Maki.PublishRun
import Maki.RemoteWitness

/-! The local file witness (`maki_backing::witness`): the newest anchor of a volume in a directory of
its own. -/
namespace Maki

open Prog hiding pure bind throw get modify

open RemoteWitness (refuse)

structure FileWitness where
  anchor : Anchor
  poisoned : Bool
  deriving DecidableEq

namespace FileWitness

def magic : Bytes := ascii "MAKIWIT1"
def version : ℕ := 1
def domain : Bytes := ascii "maki-file-witness-anchor-v1" ++ [0]
def bodyLen : ℕ := 72
def encodedLen : ℕ := bodyLen+32
def maxGeneration : ℕ := i64Max
def files : Replaced where
  file := .other .root "anchor"
  temp := .other .root "anchor.next"

section Codec

variable [Sha256]

def checksum (body : Bytes) : Bytes32 := Sha256.hash (domain ++ body)

def body (a : Anchor) : Bytes :=
  magic ++ (leBytes 2 version ++ (List.replicate 6 0 ++
    (a.identity.toList ++ (leBytes 8 a.generation ++ a.root.toList))))

def encode (a : Anchor) : Bytes := body a ++ (checksum (body a)).toList

def field (bytes : Bytes) (offset n : ℕ) : Vector UInt8 n :=
  Vector.ofFn fun i => Splice.at_ bytes (offset+i)

def decode (bytes : Bytes) : Except WitnessError Anchor := do
  refuse (bytes.take 8 ≠ magic ∨ (bytes.drop 8).take 2 ≠ leBytes 2 version ∨
      (bytes.drop 10).take 6 ≠ List.replicate 6 0)
    (.InvalidData "unsupported witness anchor format")
  refuse (bytes.drop bodyLen ≠ (checksum (bytes.take bodyLen)).toList)
    (.InvalidData "witness anchor checksum mismatch")
  let identity := field bytes 16 16
  refuse (identity = nil16) (.InvalidData "witness identity must not be nil")
  let generation := leNat ((bytes.drop 32).take 8)
  refuse (generation > maxGeneration) (.InvalidData "witness generation exceeds supported range")
  return ⟨identity,generation,field bytes 40 32⟩

end Codec

variable {μ : Type} [Sha256]

def readAnchor : Io μ WitnessError Anchor :=
  files.read .Io (· = encodedLen) (.InvalidData "invalid witness anchor length") decode

def publishAnchor (anchor : Anchor) : Io μ WitnessError Unit :=
  Prog.mapErr .Io (files.publish (encode anchor))

/-- An empty target makes an interrupted enrollment invalid. -/
def enroll (anchor : Anchor) : Io μ WitnessError FileWitness := do
  let target ← Prog.mapErr .Io (Io.openFile files.file true)
  Prog.mapErr .Io (Io.setLen target 0)
  Prog.mapErr .Io (Io.syncData target)
  publishAnchor anchor
  return ⟨anchor,false⟩

def create (identity : Bytes16) (root : Bytes32) : Io μ WitnessError FileWitness := do
  Prog.ofExcept (refuse (identity = nil16) (.InvalidInput "witness identity must not be nil"))
  if ← Prog.mapErr .Io (Io.exists_ files.file) then
    Prog.throw (.AlreadyExists "witness anchor already exists")
  else enroll ⟨identity,0,root⟩

/-- What is read is published again before it is returned: it may be visible only. -/
def openBacking : Io μ WitnessError FileWitness := do
  let anchor ← readAnchor
  publishAnchor anchor
  return ⟨anchor,false⟩

def poison (s : FileWitness × Disk) : FileWitness × Disk := ({ s.1 with poisoned := true },s.2)

def ensureUsable : Io FileWitness WitnessError Unit := do
  let s ← Prog.get
  if s.1.poisoned then
    Prog.throw (.Other "witness state is uncertain; reopen it before continuing")
  else Prog.pure ()

def compare : Io FileWitness WitnessError Unit := do
  let current ← readAnchor
  let s ← Prog.get
  Prog.ofExcept (refuse (current ≠ s.1.anchor) (.InvalidData "witness anchor changed while locked"))

def verifyCurrent : Io FileWitness WitnessError Unit := do
  ensureUsable
  Prog.onError compare poison

def next (w : FileWitness) (root : Bytes32) : Except WitnessError Anchor :=
  if w.anchor.generation+1 ≤ maxGeneration then
    .ok ⟨w.anchor.identity,w.anchor.generation+1,root⟩
  else .error (.InvalidInput "witness generation exhausted")

def advance (root : Bytes32) : Io FileWitness WitnessError Unit := do
  ensureUsable
  verifyCurrent
  let s ← Prog.get
  let next ← Prog.ofExcept (s.1.next root)
  Prog.onError (publishAnchor next) poison
  Prog.modify fun s => ({ s.1 with anchor := next },s.2)

inductive Start where
  | create (identity : Bytes16) (root : Bytes32)
  | reopen

inductive Call where
  | verifyCurrent
  | advance (root : Bytes32)

def candidate (w : FileWitness) : Call → Option Anchor
  | .verifyCurrent => none
  | .advance root => if w.poisoned then none else (w.next root).toOption

/-- An advance is due the next anchor of the volume with the new root. -/
def due (w : FileWitness) : Call → Option (Unit × Anchor)
  | .verifyCurrent => some ((),w.anchor)
  | .advance root => some ((),⟨w.anchor.identity,w.anchor.generation+1,root⟩)

def keeper : Keeper FileWitness Anchor Call Start WitnessError Unit where
  files := files
  record := anchor
  poisoned := poisoned
  encode a := some (encode a)
  decode := decode
  start
    | .create identity root => create identity root
    | .reopen => openBacking
  call
    | .verifyCurrent => verifyCurrent
    | .advance root => advance root
  candidate := candidate
  due := due

section Laws

variable {m : μ} {w : FileWitness} {d : Disk}

theorem encode_ne_nil (a : Anchor) : encode a ≠ [] := by
  apply List.ne_nil_of_length_pos
  simp [encode,body]

theorem publishAnchor_publishes (a : Anchor) :
    keeper.Publishes a (publishAnchor a : Io μ WitnessError Unit) := by
  intro m d hd
  apply Triple.mapErr
  apply (Replaced.publish_triple (encode_ne_nil a) hd).conseq
  · exact fun _ hs => hs
  · exact fun _ s hs => ⟨hs.1,_,rfl,hs.2⟩
  · exact fun _ s hs => ⟨hs.1,.inr ⟨_,rfl,hs.2⟩⟩
  · exact fun s hs => ⟨hs.1,.inr ⟨_,rfl,hs.2⟩⟩

omit [Sha256] in
theorem ensureUsable_triple (hw : w.poisoned = false) {err : WitnessError → FileWitness × Disk → Prop}
    {lost : FileWitness × Disk → Prop} :
    Triple (· = (w,d)) ensureUsable (fun _ s => s = (w,d)) err lost := by
  unfold ensureUsable
  apply Triple.get_bind
  simp only [hw,Bool.false_eq_true,if_false]
  exact .pure fun _ hs => hs

theorem readAnchor_triple :
    Ends (· = (m,d)) readAnchor
      (fun a s => s = (m,d) ∧ ∃ x, d.image files.file = some x ∧ decode x = .ok a)
      (· = (m,d)) := Replaced.read_triple

theorem compare_triple :
    Ends (· = (w,d)) compare (fun _ s => s = (w,d))
      (· = (w,d)) := by
  have hread := (readAnchor_triple (m := w) (d := d)).weakenOk (fun _ _ hs => hs.1)
  refine .bind hread fun current => Triple.get_bind ?_
  exact .ofExcept (fun _ _ _ hs => hs) (fun _ _ _ hs => hs)

/-- A usable handle finds its anchor on disk or is poisoned. -/
theorem verifyCurrent_triple (hw : w.poisoned = false) :
    Triple (· = (w,d)) verifyCurrent (fun _ s => s = (w,d))
      (fun _ s => s.1.poisoned = true ∧ s.2 = d) (· = (w,d)) := by
  refine .bind (ensureUsable_triple hw) fun _ => ?_
  apply Triple.onError
  apply compare_triple.conseq
  · exact fun _ hs => hs
  · exact fun _ _ hs => hs
  · rintro _ _ rfl
    exact ⟨rfl,rfl⟩
  · exact fun _ hs => hs

theorem advance_triple (root : Bytes32) (hw : w.poisoned = false) (hd : d.Fresh) :
    Triple (· = (w,d)) (advance root)
      (fun _ s => s.1.poisoned = false ∧ keeper.Kept s.1.anchor s.2 ∧
        w.due (.advance root) = some ((),s.1.anchor) ∧ w.candidate (.advance root) = some s.1.anchor)
      (fun _ s => s = (w,d) ∧ w.candidate (.advance root) = none ∨
        s.1.poisoned = true ∧ keeper.Tried w (.advance root) d s.2)
      (fun s => keeper.Tried w (.advance root) d s.2) := by
  have hcand : w.candidate (.advance root) = (w.next root).toOption := by simp [candidate,hw]
  rw [hcand]
  refine .bind (ensureUsable_triple hw) fun _ => .bind ((verifyCurrent_triple hw).weaken (fun _ _ hs => hs)
    (fun _ _ hs => .inr ⟨hs.1,.inl hs.2⟩) fun _ hs => .inl (congrArg Prod.snd hs)) fun _ =>
      Triple.get_bind (Triple.ofExcept_bind ?_ ?_)
  · intro a ha
    have hsome : (w.next root).toOption = some a := by rw [ha]; rfl
    have hdue : w.due (.advance root) = some ((),a) := by
      unfold next at ha
      split at ha
      · rw [← Except.ok.inj ha]
        rfl
      · cases ha
    have hpublish := (publishAnchor_publishes a).guarded (f := poison) (w := w) (k := Call.advance root) hd
      (hcand.trans hsome) (fun _ => ⟨rfl,rfl⟩) fun s => s = (w,d) ∧ (w.next root).toOption = none
    refine .bind hpublish fun _ => .modify ?_
    rintro ⟨w',d'⟩ ⟨rfl,hk⟩
    exact ⟨hw,hk,hdue,hsome⟩
  · rintro e s he hs
    exact .inl ⟨hs,by rw [he]; rfl⟩

theorem enroll_fresh (a : Anchor) :
    Keeps (fun s => s.2.Fresh) (enroll a : Io μ WitnessError _) :=
  .bind ((Io.openFile_fresh _ _).mapErr _) fun target =>
    .bind ((Io.setLen_fresh target 0).mapErr _) fun _ =>
      .bind ((Io.syncData_fresh target).mapErr _) fun _ =>
        .bind (publishAnchor_publishes a).fresh fun _ => .pure _

theorem enroll_kept (a : Anchor) :
    Returns (fun s => s.2.Fresh) (enroll a : Io μ WitnessError _)
      fun w s => w.poisoned = false ∧ keeper.Kept w.anchor s.2 := by
  refine (Returns.ofTriple ((Io.openFile_fresh _ _).mapErr _)).bind fun target => ?_
  refine (Returns.ofTriple ((Io.setLen_fresh target 0).mapErr _)).bind fun _ => ?_
  refine (Returns.ofTriple ((Io.syncData_fresh target).mapErr _)).bind fun _ => ?_
  refine (publishAnchor_publishes a).kept.bind fun _ => .pure fun s hs => ⟨rfl,hs⟩

end Laws

/-- The witness publishes before it acknowledges, and its generations rise. -/
theorem lawful : keeper.Lawful Anchor.generation where
  start_triple x d hd := by
    cases x with
    | create identity root =>
      apply Triple.ofExcept_bind
      · intro _ _
        exact Keeper.enroll_triple (K := keeper) hd (enroll_fresh _) (enroll_kept _)
      · rintro _ _ - rfl
        exact ⟨hd,fun _ h _ => h⟩
    | reopen =>
      exact Keeper.reopen_triple (K := keeper) (fun _ => readAnchor_triple) publishAnchor_publishes
        (fun _ => ⟨rfl,rfl⟩) hd
  call_triple k w d hw hk := by
    have hd : d.Fresh := hk.fresh
    cases k with
    | verifyCurrent =>
      apply (verifyCurrent_triple hw).conseq
      · exact fun _ hs => hs
      · rintro _ _ rfl
        exact ⟨hw,hk,rfl,.inl rfl⟩
      · exact fun _ s hs => .inr ⟨hs.1,.inl hs.2⟩
      · rintro _ rfl
        exact .inl rfl
    | advance root =>
      apply (advance_triple root hw hd).conseq
      · exact fun _ hs => hs
      · exact fun _ s hs => ⟨hs.1,hs.2.1,hs.2.2.1,.inr hs.2.2.2⟩
      · exact fun _ _ hs => hs
      · exact fun _ hs => hs
  call_poisoned k w hw := by
    refine ⟨.Other "witness state is uncertain; reopen it before continuing",fun fs d => ?_⟩
    cases k <;> simp [keeper,verifyCurrent,advance,ensureUsable,bind,Prog.bind,Prog.get,Prog.throw,
      show w.poisoned = true from hw]
  candidate_poisoned k w hw := by
    cases k with
    | verifyCurrent => rfl
    | advance root => simp [keeper,candidate,show w.poisoned = true from hw]
  candidate_lt k w a ha := by
    cases k with
    | verifyCurrent => cases ha
    | advance root =>
      simp only [keeper,candidate,next] at ha
      split at ha
      · cases ha
      · split at ha
        · cases ha
          exact Nat.lt_succ_self _
        · cases ha

end FileWitness
end Maki
