import Maki.DurableProof
import Maki.AbRun

/-! Access to the acknowledgement horizon (`maki_format::durable_proof::DurableProofStore`):
its loader, which fails closed, its initialization and its advance. -/
namespace Maki

open Prog hiding pure bind throw get modify
namespace DurableProofStore

open DurableProof

variable {μ : Type} [Crc32]

/-- A copy of another length: a later version of the format may have changed it. -/
def judgeHeader (header : Bytes) : Except FormatError (Option DurableProof) :=
  let version := leNat ((header.drop 8).take 4)
  if header.take 8 = durableProofMagic ∧ version ≠ durableProofVersion then
    .error (.Unsupported s!"durable proof version {version}")
  else .ok none

/-- A copy of the right length. -/
def judge (volumeUuid : BitVec 128) (bytes : Bytes) : Except FormatError (Option DurableProof) :=
  match DurableProof.decode bytes with
  | .ok proof =>
    if proof.volumeUuid = volumeUuid then .ok (some proof)
    else .error (.Invalid "durable proof belongs to a different volume")
  | .error (.Unsupported what) => .error (.Unsupported what)
  | .error _ => .ok none

/-- Bounded prevalidation of one side: a future format must not be overwritten using an
older valid side. -/
def readCopy (path : Path) (volumeUuid : BitVec 128) : Io μ FormatError (Option DurableProof) := do
  match ← formatIo (Io.optional .NotFound (Io.openFile path false)) with
  | none => return none
  | some file =>
    let len ← formatIo (Io.len file)
    if len ≠ durableProofSize then
      if len ≥ 12 then
        match ← formatIo (Io.optional .UnexpectedEof (Io.readAt file 0 12)) with
        | none => return none
        | some header => Prog.ofExcept (judgeHeader header)
      else return none
    else
      match ← formatIo (Io.optional .UnexpectedEof (Io.readAt file 0 durableProofSize)) with
      | none => return none
      | some bytes => Prog.ofExcept (judge volumeUuid bytes)

def copyOf (volumeUuid : BitVec 128) (bs : Bytes) : Except FormatError (Option DurableProof) :=
  if bs.length ≠ durableProofSize then
    if bs.length ≥ 12 then judgeHeader (bs.take 12) else .ok none
  else judge volumeUuid bs

def copyAt (volumeUuid : BitVec 128) (d : Disk) (path : Path) :
    Except FormatError (Option DurableProof) :=
  match d.image path with
  | none => .ok none
  | some bs => copyOf volumeUuid bs

theorem readCopy_checks (path : Path) (volumeUuid : BitVec 128) :
    Io.Checks (readCopy path volumeUuid : Io μ FormatError _) fun d => copyAt volumeUuid d path :=
  Io.Checks.congr (p := readCopy path volumeUuid) (checks_sized path) fun _ => rfl

def select : Option DurableProof → Option DurableProof → Except FormatError DurableProof
  | some a, some b =>
    if a.generation = b.generation ∧ a ≠ b then
      .error (.Invalid "durable proof copies disagree at the same generation")
    else if a.generation ≤ b.generation then do
      b.follows a
      return b
    else do
      a.follows b
      return a
  | some proof, none => .ok proof
  | none, some proof => .ok proof
  | none, none => .error (.Invalid "required durable proof has no valid copy")

def load (volumeUuid : BitVec 128) : Io μ FormatError DurableProof := do
  let a ← readCopy pair.a volumeUuid
  let b ← readCopy pair.b volumeUuid
  Prog.ofExcept (select a b)

def loadAt (volumeUuid : BitVec 128) (d : Disk) : Except FormatError DurableProof := do
  let a ← copyAt volumeUuid d pair.a
  let b ← copyAt volumeUuid d pair.b
  select a b

theorem load_checks (volumeUuid : BitVec 128) :
    Io.Checks (load volumeUuid : Io μ FormatError _) (loadAt volumeUuid) :=
  (readCopy_checks pair.a volumeUuid).bind fun _ =>
    (readCopy_checks pair.b volumeUuid).bind fun _ => .ofExcept _

def requireAbsent (volumeUuid : BitVec 128) (path : Path) : Io μ FormatError Unit := do
  let _ ← readCopy path volumeUuid
  if ← formatIo (Io.exists_ path) then
    Prog.throw (.AlreadyExists "durable proof already exists; initialization cannot reset history")
  else return ()

def initializeNew (volumeUuid : BitVec 128) : Io μ FormatError DurableProof := do
  requireAbsent volumeUuid pair.a
  requireAbsent volumeUuid pair.b
  formatIo (Io.createDirAll .journal)
  let (_,proof) ← Io.withLocal (DurableProof.initial volumeUuid) do
    pair.storeAndSync DurableProof
    pair.storeAndSync DurableProof
    formatIo (Io.syncDir .root)
  return proof

def advanceChecks : Io DurableProof FormatError Unit := do
  let (proof,_) ← Prog.get
  Prog.ofExcept proof.validate
  let current ← load proof.volumeUuid
  Prog.ofExcept (proof.follows current)
  if proof.generation > current.generation then
    Prog.throw (.Invalid "candidate proof generation is ahead of stored metadata")
  else
    match checkedAdd current.generation 2 with
    | none => Prog.throw (.Overflow "durable proof generation exhausted")
    | some _ => return ()

/-- The first store of the candidate, its directory sync and the load after it. -/
def advanceFirst : Io DurableProof FormatError Unit := do
  pair.storeAndSync DurableProof
  let (candidate,_) ← Prog.get
  let _ ← load candidate.volumeUuid
  return ()

/-- An advance on its local candidate: the two stores make both copies attest it. -/
def advanceCandidate : Io DurableProof FormatError Unit := do
  advanceChecks
  advanceFirst
  pair.storeAndSync DurableProof

/-- Publish this candidate to both copies before returning success; the caller's value is
unchanged on error. -/
def advance : Io DurableProof FormatError Unit := do
  let (proof,_) ← Prog.get
  let (_,candidate) ← Io.withLocal proof advanceCandidate
  Prog.modify fun m => (candidate,m.2)

section Keep

variable {Good : Bytes → Prop} {J : Disk → Prop} (hJ : pair.Rewritable DurableProof Good J)

theorem advanceChecks_keeps : Keeps (fun t => J t.2) advanceChecks := by
  unfold advanceChecks
  apply Keeps.get_bind
  rintro ⟨m,d⟩ hd
  refine Keeps.from_state (Keeps.bind (.ofExcept _) fun _ => ?_) hd
  refine Keeps.bind (Io.Still.ofChecks (load_checks _)).keeps fun current => ?_
  refine .bind (.ofExcept _) fun _ => ?_
  by_cases hg : m.generation > current.generation
  · simp only [if_pos hg]
    exact .throw _
  · simp only [if_neg hg]
    cases checkedAdd current.generation 2 with
    | none => exact .throw _
    | some _ => exact .pure _

include hJ

theorem advance_keeps : Keeps (fun t => J t.2) advance := by
  have hstore : Keeps (fun t => J t.2) (pair.storeAndSync DurableProof) :=
    Triple.ofEach fun _ hd => hJ.storeAndSync_keeps hd
  have hfirst : Keeps (fun t => J t.2) advanceFirst := by
    refine .bind hstore fun _ => Keeps.get_bind fun s hs => ?_
    exact Keeps.from_state
      (Keeps.bind (Io.Still.ofChecks (load_checks _)).keeps fun _ => .pure _) hs
  have hall : Keeps (fun t => J t.2) advanceCandidate :=
    advanceChecks_keeps.bind fun _ => hfirst.bind fun _ => hstore
  unfold advance
  apply Keeps.get_bind
  rintro ⟨m,d⟩ hd
  refine .bind (Io.withLocal_triple ?_) fun _ => Keeps.modify fun _ ht => ht
  exact hall.from_state hd

end Keep

end DurableProofStore
end Maki
