import Maki.EngineWrites
import Maki.VolumeStart

/-! An engine on a new volume is an array of bytes, all zero at first: whatever requests it has
served, a read returns what the array says. -/
namespace Maki
namespace Engine

/-- An engine that starts to serve a recovered volume, with a cache of this size and lifetime. -/
def attach (v : Volume) (cache : Option (ℕ × ℕ)) : Engine where
  volume := v
  cache := cache.map fun setting => { maxBytes := setting.1, ttl := setting.2 }

namespace Request

def mutation : Request → Option Mutation
  | .write offset data _ => some (.write offset (.Borrowed data))
  | .writeZeroes offset len _ => some (.write offset (.Zeroes len))
  | .trim offset len _ => some (.trim offset len)
  | .read _ _ | .flush | .checkpoint => none

def apply (e : EngineParams) (q : Request) (dev : ℕ → UInt8) : ℕ → UInt8 :=
  match q.mutation with
  | some m => m.apply e dev
  | none => dev

def forced : Request → Bool
  | .write _ _ fua | .writeZeroes _ _ fua | .trim _ _ fua => fua
  | .flush => true
  | .read _ _ | .checkpoint => false

def answer (dev : ℕ → UInt8) : Request → Bytes
  | .read offset len => (List.range len).map fun i => dev (offset+i)
  | _ => []

end Request

def answers (e : EngineParams) : (ℕ → UInt8) → List Request → List Bytes
  | _, [] => []
  | dev, q::qs => q.answer dev::answers e (q.apply e dev) qs

def afterAll (e : EngineParams) (dev : ℕ → UInt8) (qs : List Request) : ℕ → UInt8 :=
  qs.foldl (fun dev q => q.apply e dev) dev

def Forced (qs : List Request) : Prop := ∃ q ∈ qs.getLast?, q.forced = true

def zeroed (_ : ℕ) : Except CoreError SlotRead := .ok .Zero

section Start

variable [Crc32] [DefaultHasher] [HashOrder]

/-- An engine on a volume that has just been created in an empty root. -/
inductive Started (c : EngineInner) : Engine × Disk → Prop
  | intro {root created d : Disk} {superblock stored : Superblock} {metadataVersion segmentSize : ℕ}
      {fs fs' gs gs' : List Fault} {v : Volume} {cache : Option (ℕ × ℕ)} (hwf : root.Wf)
      (hempty : ∀ p : Path, p.parent ∈ layoutDirs → root.volatile p = none)
      (hcreate : createVolumeWithMetadataVersion superblock metadataVersion fs ((),root) =
        (.ok stored,fs',(),created))
      (hrecover : Volume.recover segmentSize gs ((),created) = (.ok v,gs',(),d))
      (hgeometry : c.params.geometry = v.superblock.geometry)
      (hdiscard : c.params.supportsDiscard = v.supportsDiscard) : Started c (attach v cache,d)

variable {c : EngineInner} {t : Engine × Disk}

theorem Started.stays (h : Started c t) : Stays c zeroed [] t := by
  obtain ⟨hwf,hempty,hcreate,hrecover,hgeometry,hdiscard⟩ := h
  have hcreated := (createVolume_spares _ _).result (Disk.Unused.ofEmpty hwf hempty) hcreate
  obtain ⟨-,hbacked⟩ := (Volume.recover_unused _).result hcreated hrecover
  rw [← hgeometry,← hdiscard] at hbacked
  refine ⟨⟨hbacked,by simp [zeroed],?_⟩,rfl⟩
  intro cache hcache unit sequence data hh
  obtain ⟨setting,-,rfl⟩ := Option.map_eq_some_iff.mp hcache
  obtain ⟨entry,he,-⟩ := hh
  cases he

theorem Started.computed (h : Started c t) : c.params.geometry.Computed := by
  obtain ⟨hwf,hempty,hcreate,hrecover,hgeometry,-⟩ := h
  have hcreated := (createVolume_spares _ _).result (Disk.Unused.ofEmpty hwf hempty) hcreate
  rw [hgeometry]
  exact ((Volume.recover_unused _).result hcreated hrecover).1

omit [Crc32] [DefaultHasher] [HashOrder] in
theorem device_zeroed : device c zeroed [] = fun _ => 0 := by
  funext pos
  have hlast : lastOf [] (pos/c.params.unitSize) = none := rfl
  simp only [device,expected,Volume.kept,hlast,zeroed,plainOf,Splice.at_,List.getD_eq_getElem?_getD,
    List.getElem?_replicate]
  split <;> rfl

def Settled (t : Engine × Disk) : Prop :=
  t.1.volume.journal.durableSequence = t.1.volume.journal.appendedSequence

theorem run_array (hus : 0 < c.params.unitSize) {base : ℕ → Except CoreError SlotRead}
    {dev : ℕ → UInt8} (q : Request) :
    Prog.Answers (fun t => Serving c base t ∧ device c base t.1.accepted = dev) (q.run c)
      (fun a t => (Serving c base t ∧ device c base t.1.accepted = q.apply c.params dev) ∧
        a = q.answer dev ∧ (q.forced = true → Settled t))
      (fun _ => Halted c base dev (q.apply c.params dev)) := by
  apply Prog.Triple.ofEach
  rintro ⟨s,d⟩ ⟨hs,rfl⟩
  have hpre : ∀ t, t = (s,d) → Stays c base s.accepted t := fun t ht => ht ▸ ⟨hs,rfl⟩
  have hchanged : ∀ {p : Io Engine EngineError Unit} {dev' : ℕ → UInt8} {fua : Bool},
      Rewrites c base s.accepted p dev' fua →
      Prog.Answers (· = (s,d)) (Prog.bind p fun _ => Prog.pure ([] : Bytes))
        (fun a t => (Serving c base t ∧ device c base t.1.accepted = dev') ∧ a = [] ∧
          (fua = true → Settled t))
        (fun _ => Halted c base (device c base s.accepted) dev') := fun hp =>
    (hp.strengthen hpre).bind fun _ =>
      Prog.Triple.pure fun _ h => ⟨⟨h.1,h.2.1⟩,rfl,h.2.2⟩
  cases q with
  | read offset len =>
    refine (readSecretInner_stays hus offset len).conseq hpre ?_ (fun _ _ h => h.halted) fun _ h => h
    rintro data t ⟨⟨ht,ha⟩,hdata⟩
    exact ⟨⟨ht,by rw [ha]; rfl⟩,hdata,by simp [Request.forced]⟩
  | write offset data fua => exact hchanged (writeInner_changed hus offset data fua)
  | writeZeroes offset len fua => exact hchanged (writeZeroes_changed hus offset len fua)
  | trim offset len fua => exact hchanged (trimInner_changed hus offset len fua)
  | flush => exact hchanged flushInner_changed
  | checkpoint =>
    refine (checkpoint_stays.conseq hpre (fun _ _ h => h) (fun _ _ h => h.halted) fun _ h => h).bind fun _ =>
      Prog.Triple.pure ?_
    rintro t ⟨ht,ha⟩
    exact ⟨⟨ht,by rw [ha]; rfl⟩,rfl,by simp [Request.forced]⟩

/-- One request after another; the force of the last one covers them all. -/
theorem runAll_array (hus : 0 < c.params.unitSize) {base : ℕ → Except CoreError SlotRead}
    (qs : List Request) (dev : ℕ → UInt8) :
    Prog.Answers (fun t => Serving c base t ∧ device c base t.1.accepted = dev)
      (Prog.traverse qs (Request.run c))
      (fun as t => (Serving c base t ∧ device c base t.1.accepted = afterAll c.params dev qs) ∧
        as = answers c.params dev qs ∧ (Forced qs → Settled t))
      (fun _ => Serving c base) := by
  induction qs generalizing dev with
  | nil => exact Prog.Triple.pure fun _ h => ⟨h,rfl,by simp [Forced]⟩
  | cons q qs ih =>
    refine ((run_array hus q).weakenErr fun _ _ h => h.1).bind fun a => ?_
    rintro fs t ⟨ht,rfl,hforced⟩
    cases qs with
    | nil =>
      have hlast : Forced [q] → Settled t := by
        rintro ⟨x,hx,hf⟩
        cases hx
        exact hforced hf
      exact And.intro ht (And.intro rfl hlast)
    | cons r rs =>
      refine ((ih _).bind fun as => Prog.Triple.pure ?_) fs t ht
      rintro t' ⟨ht',rfl,hlast⟩
      refine ⟨ht',rfl,?_⟩
      rintro ⟨x,hx,hf⟩
      exact hlast ⟨x,by rwa [List.getLast?_cons_cons] at hx,hf⟩

/-- An engine on a new volume is a flat array of bytes: as long as no request fails, reads return
the bytes of an array of zeros that the requests before them have changed. -/
theorem new_volume_is_array (h : Started c t) {qs : List Request} {as : List Bytes}
    {fs fs' : List Fault} {t' : Engine × Disk}
    (hrun : Prog.traverse qs (Request.run c) fs t = (.ok as,fs',t')) :
    as = answers c.params (fun _ => 0) qs := by
  obtain ⟨hs,ha⟩ := h.stays
  have hrest := runAll_array h.computed.unit qs (fun _ => 0) fs t ⟨hs,by rw [ha]; exact device_zeroed⟩
  rw [hrun] at hrest
  exact hrest.2.1

end Start

section Sample

-- a checksum that is quick to evaluate
local instance : Crc32 := ⟨fun _ => 0⟩
attribute [local instance] Volume.instDefaultHasher Volume.instHashOrder

def plainProvider : CryptoProvider where
  plaintextOf _ data := data
  encryptBatch _ items := .ok (items.map fun item => ⟨item.unitIndex,item.data⟩)
  decryptBatch _ cts := .ok (cts.map fun ct => ⟨ct.unitIndex,ct.data⟩)
  encrypt_ok := by
    rintro n items _ ⟨⟩
    rw [List.map_map]
    exact List.map_id _
  decrypt_ok := by
    rintro n cts _ ⟨⟩
    rfl

/-- An engine on the sample volume, whose worker makes a checkpoint after the first lookup. -/
def sampleInner : EngineInner where
  params := ⟨Volume.sampleVolume.geometry,1024,true⟩
  provider := plainProvider
  caps := ⟨"test",[512],512,⟨true,1,512⟩⟩
  cacheVerifyOnHit := true
  maxOverlayBytes := 1 <<< 20
  maxOverlayEntries := 100
  policy := ⟨1 <<< 20,1 <<< 20,0,0⟩
  clock := id
  backingFreeBytes := fun _ => none
  background := fun n => if n = 3 then [.prepare,.execute,.finish] else []

@[irreducible] def sampleStart (volume : Superblock) : Option (Volume × Disk) := do
  let (_,_,_,d) ← Volume.succeeded (createVolumeWithDiscard volume [] ((),{}))
  let (v,_,_,d) ← Volume.succeeded (Volume.recover 4096 [] ((),d))
  return (v,d)

/-- What a program returns on a new volume, if it returns and leaves a state as asked. -/
def sampleOutcome {ε α : Type} (volume : Superblock) (c : EngineInner) (cache : Option (ℕ × ℕ))
    (p : Io Engine ε α) (asked : Engine × Disk → Bool) : Option (α × List Fault × Engine × Disk) := do
  let (v,d) ← sampleStart volume
  if c.params.geometry = v.superblock.geometry ∧ c.params.supportsDiscard = v.supportsDiscard then
    (Volume.succeeded (p [] (attach v cache,d))).filter fun r => asked r.2.2
  else none

theorem sampleOutcome_some {ε α : Type} {volume : Superblock} {c : EngineInner} {cache : Option (ℕ × ℕ)}
    {p : Io Engine ε α} {asked : Engine × Disk → Bool}
    (h : (sampleOutcome volume c cache p asked).isSome = true) :
    ∃ v d a fs t, Started c (attach v cache,d) ∧ p [] (attach v cache,d) = (.ok a,fs,t) ∧
      asked t = true := by
  obtain ⟨⟨a,fs,t⟩,h⟩ := Option.isSome_iff_exists.mp h
  unfold sampleOutcome sampleStart at h
  simp only [Option.bind_eq_bind,Option.bind_eq_some_iff,Prod.exists,Volume.succeeded_eq_some] at h
  obtain ⟨v,d,⟨_,_,_,_,hcreate,_,_,_,_,hrecover,hstart⟩,h⟩ := h
  cases hstart
  split at h
  · rename_i hparams
    obtain ⟨hrun,hasked⟩ := Option.filter_eq_some_iff.mp h
    exact ⟨v,d,a,fs,t,.intro Disk.wf_empty (fun _ _ => rfl) hcreate hrecover hparams.1 hparams.2,
      Volume.succeeded_eq_some.mp hrun,hasked⟩
  · cases h

def coarseVolume : Superblock :=
  { Volume.sampleVolume with geometry := ⟨512,1024,512,1024,64,1536,4096,2048⟩ }

def coarseInner : EngineInner :=
  { sampleInner with
    params := ⟨coarseVolume.geometry,2048,true⟩
    caps := ⟨"test",[1024],1024,⟨true,1,1024⟩⟩ }

/-- A half of each of two units is written, then the other half of the first; the second is trimmed. -/
def sampleRequests : List Request :=
  [.write 512 (List.replicate 1024 7) false,.write 0 (List.replicate 512 9) true,.trim 1024 1024 true,
    .checkpoint,.read 0 2048]

@[irreducible] def sampleAnswers : Option (List Bytes × List Fault × Engine × Disk) :=
  sampleOutcome coarseVolume coarseInner (some (2048,10))
    (Prog.traverse sampleRequests (Request.run coarseInner)) fun _ => true

set_option maxRecDepth 100000 in
theorem sampleAnswers_some : sampleAnswers.isSome = true := by
  decide +kernel

theorem new_volume_is_array_sample : ∃ v d as fs t,
    Started coarseInner (attach v (some (2048,10)),d) ∧
    Prog.traverse sampleRequests (Request.run coarseInner) [] (attach v (some (2048,10)),d) = (.ok as,fs,t) ∧
    as = answers coarseInner.params (fun _ => 0) sampleRequests := by
  have hsome := sampleAnswers_some
  unfold sampleAnswers at hsome
  obtain ⟨v,d,as,fs,t,hstarted,hrun,-⟩ := sampleOutcome_some hsome
  exact ⟨v,d,as,fs,t,hstarted,hrun,new_volume_is_array hstarted hrun⟩

end Sample
end Engine
end Maki
