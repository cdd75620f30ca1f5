import Maki.VolumeAnswers
import Maki.Publish
import Maki.ProofRun

/-! A new volume. Creation leaves no slot and no journal record behind, and a checkpoint state that
has applied none. Recovery of such a disk finds no shard, scans nothing, and the volume it returns
reads as zeros. -/
namespace Maki

open Prog hiding pure bind throw get modify

/-- Every name but those of data files, journal segments and the checkpoint state. -/
def Path.IsFixed (p : Path) : Prop := p.IsMap ∧ ∀ x, p ≠ .checkpointState x

/-- The bytes of a checkpoint state that has applied no record, if they are one at all. -/
def CheckpointState.Initial [Crc32] (bs : Bytes) : Prop :=
  ∀ r, CheckpointState.decode bs = .ok r → r.checkpointSequence = 0

structure Disk.Unused [Crc32] (d : Disk) : Prop where
  wf : d.Wf
  data : ∀ shard, d.volatile (.shardData shard) = none
  journal : ∀ index, d.volatile (.journalSegment index) = none
  state : ∀ x bs, d.image (.checkpointState x) = some bs → CheckpointState.Initial bs

namespace Disk

theorem wf_empty : ({} : Disk).Wf :=
  ⟨fun _ _ _ h => by simp [Linked] at h,fun _ _ h => by simp [Linked] at h⟩

variable [Crc32] {d d' : Disk}

/-- The directories of the layout are empty. -/
theorem Unused.ofEmpty (hd : d.Wf) (h : ∀ p : Path, p.parent ∈ layoutDirs → d.volatile p = none) :
    d.Unused where
  wf := hd
  data shard := h _ (by simp [Path.parent,layoutDirs])
  journal index := h _ (by simp [Path.parent,layoutDirs])
  state x bs hbs := by
    rw [image,h (.checkpointState x) (by cases x <;> decide)] at hbs
    cases hbs

theorem Unused.apart (h : d.Unused) (ha : Apart Path.IsFixed d d') : d'.Unused where
  wf := ha.wf
  data shard := by rw [ha.volatile _ fun hp => hp.1.1 shard rfl,h.data]
  journal index := by rw [ha.volatile _ fun hp => hp.1.2 index rfl,h.journal]
  state x bs hbs := by
    have hp : ¬ (Path.checkpointState x).IsFixed := fun hp => hp.2 x rfl
    obtain ⟨i,hi,rfl⟩ := Option.map_eq_some_iff.mp hbs
    rw [ha.volatile _ hp] at hi
    refine h.state x _ ?_
    rw [image,hi,ha.inode _ i hp (.inr hi)]
    rfl

theorem Unused.held (h : d.Unused) {x : Side} {i : InodeId} {bs : Bytes} {n : Inode}
    (hi : d.volatile (.checkpointState x) = some i) (hbs : CheckpointState.Initial bs)
    (hn : n.Holds bs) : (d.mapInode i fun _ => n).Unused where
  wf := h.wf.mapInode _
  data := h.data
  journal := h.journal
  state y bs' hbs' := by
    by_cases hy : y = x
    · subst hy
      obtain rfl : n.image = bs' := by
        simpa [image,hi] using hbs'
      rwa [hn.image]
    · refine h.state y bs' ?_
      obtain ⟨j,hj,rfl⟩ := Option.map_eq_some_iff.mp hbs'
      have hne : j ≠ i := by
        rintro rfl
        exact hy (Path.checkpointState.inj (h.wf.unique _ _ j (.inr hj) (.inr hi)))
      rw [inodes_mapInode_of_ne hne]
      exact Option.map_eq_some_iff.mpr ⟨j,hj,rfl⟩

theorem Unused.created (h : d.Unused) (x : Side) : (d.create (.checkpointState x)).Unused where
  wf := h.wf.create _
  data shard := by rw [volatile_create_of_ne (by simp),h.data]
  journal index := by rw [volatile_create_of_ne (by simp),h.journal]
  state y bs hbs := by
    by_cases hy : y = x
    · subst hy
      rw [image,volatile_create,Option.map_some,inodes_create] at hbs
      cases hbs
      intro r hr
      cases hr
    · have hne : Path.checkpointState y ≠ .checkpointState x := fun hp => hy (Path.checkpointState.inj hp)
      refine h.state y bs ?_
      obtain ⟨j,hj,rfl⟩ := Option.map_eq_some_iff.mp hbs
      rw [volatile_create_of_ne hne] at hj
      have hj' : j ≠ d.nextInode+1 :=
        Nat.ne_of_lt (Nat.lt_succ_of_le (h.wf.fresh _ j (.inr hj)))
      rw [inodes_create_of_ne hj']
      exact Option.map_eq_some_iff.mpr ⟨j,hj,rfl⟩

theorem Unused.syncDir (h : d.Unused) (dir : Dir) : (d.syncDir dir).Unused :=
  h.apart ((Apart.refl h.wf).syncDir dir)

end Disk

section Creation

variable [Crc32] {μ τ ε α : Type}

/-- A program that leaves an unused disk unused when it returns. -/
abbrev Spares (p : Io μ ε α) : Prop := Returns (fun t => t.2.Unused) p fun _ t => t.2.Unused

namespace Spares

theorem still {p : Io μ ε α} (h : Io.Still p) : Spares p := .ofTriple h.keeps

theorem pure (a : α) : Spares (Prog.pure a : Io μ ε α) := Triple.pure fun _ h => h

theorem bind {β : Type} {p : Io μ ε α} {f : α → Io μ ε β} (hp : Spares p) (hf : ∀ a, Spares (f a)) :
    Spares (Prog.bind p f) := Returns.bind hp hf

theorem mapErr {δ : Type} {p : Io μ ε α} (h : Spares p) (g : ε → δ) : Spares (Prog.mapErr g p) :=
  Triple.mapErr h

theorem forEach {β : Type} {f : β → Io μ ε Unit} (xs : List β) (h : ∀ x, Spares (f x)) :
    Spares (Prog.forEach xs f) := Returns.forEach fun x _ => h x

theorem withLocal {p : Io τ ε α} (h : Spares p) (t : τ) : Spares (Io.withLocal t p : Io μ ε _) := by
  apply Triple.ofEach
  rintro ⟨m,d⟩ hd
  apply Io.withLocal_triple
  exact h.conseq (fun _ ht => ht ▸ hd) fun _ _ ht => ht

theorem syncDir (dir : Dir) : Spares (Io.syncDir dir : Io μ ErrorKind Unit) :=
  Io.syncDir_triple (fun _ _ h => h.syncDir dir) (fun _ _ => trivial) fun _ _ => trivial

theorem createDirAll (dir : Dir) : Spares (Io.createDirAll dir : Io μ ErrorKind Unit) :=
  Io.hooked_triple (fun _ _ h => h) (fun _ _ _ _ => trivial) fun _ _ => trivial

variable {T : Type} [AbRecord T] {s : AbStore}

theorem store (hpath : ∀ x, (s.path x).IsFixed) (henc : ∀ r : T, AbRecord.encode r ≠ []) :
    Spares (s.store T) := by
  apply Triple.ofEach
  rintro ⟨m,d⟩ hd
  exact ((AbStore.rewritable_apart hpath henc).store_keeps (Disk.Apart.refl hd.wf)).weaken
      (fun _ _ ht => hd.apart ht) (fun _ _ _ => trivial) fun _ _ => trivial

theorem storeAndSync (hpath : ∀ x, (s.path x).IsFixed) (henc : ∀ r : T, AbRecord.encode r ≠ []) :
    Spares (s.storeAndSync T) := (store hpath henc).bind fun _ => (syncDir _).mapErr _

end Spares

def Opened (p : Path) (i : InodeId) (t : μ × Disk) : Prop := t.2.Unused ∧ t.2.volatile p = some i

variable {p : Path} {i : InodeId}

theorem Opened.map {m m' : μ} {d : Disk} (h : Opened p i (m,d)) (hp : p.IsFixed) (F : Inode → Inode) :
    Opened p i (m',d.mapInode i F) :=
  ⟨h.1.apart ((Disk.Apart.refl h.1.wf).mapInode hp (.inr h.2) F),h.2⟩

theorem openFile_opened (hp : p.IsFixed) :
    Returns (fun t => t.2.Unused) (Io.openFile p true : Io μ ErrorKind InodeId)
      fun i t => Opened p i t := by
  apply Io.openFile_triple
  · exact fun m d i hd hi => ⟨hd,hi⟩
  · exact fun m d hd hv _ =>
      ⟨hd.apart ((Disk.Apart.refl hd.wf).create hp),Disk.volatile_create _ _⟩
  · exact fun _ _ _ _ _ => trivial
  · exact fun _ _ => trivial
  · exact fun _ _ => trivial

theorem setLen_opened (hp : p.IsFixed) (n : ℕ) :
    Returns (Opened p i) (Io.setLen i n : Io μ ErrorKind Unit) fun _ => Opened p i :=
  Io.setLen_triple (fun _ _ h => h.map hp _) (fun _ _ => trivial) fun _ _ => trivial

theorem syncData_opened (hp : p.IsFixed) :
    Returns (Opened p i) (Io.syncData i : Io μ ErrorKind Unit) fun _ => Opened p i :=
  Io.syncData_triple (fun _ _ h => h.map hp _) (fun _ _ _ => trivial) fun _ _ => trivial

theorem refuseSuperblock_spares : Spares (refuseSuperblock : Io μ FormatError Unit) := by
  have hexists : ∀ q, Io.Still (formatIo (Io.exists_ q) : Io μ FormatError Bool) := fun q =>
    (Io.Still.ofReads (Io.Reads.exists_ q)).mapErr _
  refine (Spares.still (hexists _)).bind fun found => ?_
  cases found with
  | true => exact Returns.throw _
  | false =>
    refine (Spares.still (hexists _)).bind fun found => ?_
    cases found with
    | true => exact Returns.throw _
    | false => exact .pure ()

theorem refuseOccupied_spares (dir : Dir) : Spares (refuseOccupied dir : Io μ FormatError Unit) := by
  have hlist : Spares (formatIo (Io.optional .NotFound (Io.list dir)) : Io μ FormatError _) := by
    apply Spares.mapErr
    apply Io.optional_triple
    exact Io.hooked_triple (fun _ _ h => h) (fun _ _ _ _ => trivial) fun _ _ => trivial
  refine hlist.bind fun found => ?_
  cases found with
  | none => exact .pure ()
  | some entries =>
    simp only
    split
    · exact .pure ()
    · exact Returns.throw _

theorem persistLockFile_spares : Spares (persistLockFile : Io μ FormatError Unit) := by
  have hp : Path.volumeLock.IsFixed := by simp [Path.IsFixed,Path.IsMap,Path.IsMeta]
  refine Returns.bind (Triple.mapErr (openFile_opened hp)) fun i => ?_
  exact .mapErr ((syncData_opened hp).conseq (fun _ h => h) fun _ _ h => h.1)

theorem createMark_spares : Spares (createMark : Io μ FormatError Unit) := by
  have hp : Path.journalDurableMark.IsFixed := by simp [Path.IsFixed,Path.IsMap,Path.IsMeta]
  refine Returns.bind (Triple.mapErr (openFile_opened hp)) fun i => ?_
  refine Returns.bind (Triple.mapErr (setLen_opened hp 0)) fun _ => ?_
  exact .mapErr ((syncData_opened hp).conseq (fun _ h => h) fun _ _ h => h.1)

theorem requireAbsent_spares (u : BitVec 128) (p : Path) :
    Spares (DurableProofStore.requireAbsent u p : Io μ FormatError Unit) := by
  apply Triple.ofEach
  rintro ⟨m,d⟩ hd
  exact (Returns.ofTriple (DurableProofStore.requireAbsent_reads p)).conseq (fun _ ht => ht)
    fun _ _ ht => ht ▸ hd

theorem initializeNew_spares (u : BitVec 128) :
    Spares (DurableProofStore.initializeNew u : Io μ FormatError _) := by
  have hpath : ∀ x, (DurableProof.pair.path x).IsFixed := by
    rintro (_ | _) <;> simp [Path.IsFixed,Path.IsMap,Path.IsMeta,DurableProof.pair,AbStore.path]
  have hstore : Spares (DurableProof.pair.storeAndSync DurableProof) :=
    .storeAndSync hpath DurableProof.encode_ne_nil
  refine (requireAbsent_spares u _).bind fun _ => (requireAbsent_spares u _).bind fun _ => ?_
  refine ((Spares.createDirAll _).mapErr _).bind fun _ => ?_
  exact ((hstore.bind fun _ => hstore.bind fun _ => (Spares.syncDir _).mapErr _).withLocal _).bind
    fun _ => .pure _

theorem createCatalog_spares : Spares (createCatalog : Io μ FormatError Unit) := by
  have hpath : ∀ x, (newCatalogStore.path x).IsFixed := by
    rintro (_ | _) <;> simp [Path.IsFixed,Path.IsMap,Path.IsMeta,newCatalogStore,AbStore.path]
  exact ((Spares.store hpath SlotStore.ShardCatalog.encode_ne_nil).withLocal _).bind fun _ => .pure _

theorem VolumeSuperblock.encode_ne_nil (r : VolumeSuperblock) : AbRecord.encode r ≠ [] := by
  intro h
  have hl := congrArg List.length h
  simp [AbRecord.encode,VolumeSuperblock.encode,Superblock.encodeMetadataVersion] at hl

theorem commitSuperblock_spares (envelope : VolumeSuperblock) :
    Spares (commitSuperblock envelope : Io μ FormatError _) := by
  have hpath : ∀ x, (VolumeSuperblock.store.path x).IsFixed := by
    rintro (_ | _) <;> simp [Path.IsFixed,Path.IsMap,Path.IsMeta,VolumeSuperblock.store,AbStore.path]
  have hstore : Spares (VolumeSuperblock.store.store VolumeSuperblock) :=
    .store hpath VolumeSuperblock.encode_ne_nil
  exact ((hstore.bind fun _ => hstore).withLocal _).bind fun _ =>
    ((Spares.syncDir _).mapErr _).bind fun _ => .pure _

section State

variable {d : Disk} {x : Side}

omit [Crc32] in
theorem image_of_copyAt {T : Type} [AbRecord T] {s : AbStore} {q : Path} {c : T × Bytes}
    (h : s.copyAt T d q = some c) : d.image q = some c.2 ∧ AbRecord.decode c.2 = .ok c.1 ∧ c.2 ≠ [] := by
  simp only [AbStore.copyAt,AbStore.bytesAt,Option.bind_eq_some_iff,Option.filter_eq_some_iff,
    Option.map_eq_some_iff] at h
  obtain ⟨bs,⟨himage,hlen⟩,r,hr,rfl⟩ := h
  refine ⟨himage,?_,?_⟩
  · cases hd : AbRecord.decode (T := T) bs with
    | ok r' =>
      rw [hd] at hr
      cases hr
      rfl
    | error e =>
      rw [hd] at hr
      cases hr
  · rintro rfl
    simp at hlen

omit [Crc32] in
theorem copyAt_of_loadAt {T : Type} [AbRecord T] {s : AbStore} {r : T} (h : s.loadAt T d = some r) :
    ∃ x bs, s.copyAt T d (s.path x) = some (r,bs) := by
  unfold AbStore.loadAt at h
  cases ha : s.copyAt T d s.a with
  | none =>
    cases hb : s.copyAt T d s.b with
    | none =>
      rw [ha,hb] at h
      cases h
    | some cb =>
      rw [ha,hb] at h
      cases h
      exact ⟨.b,cb.2,hb⟩
  | some ca =>
    cases hb : s.copyAt T d s.b with
    | none =>
      rw [ha,hb] at h
      cases h
      exact ⟨.a,ca.2,ha⟩
    | some cb =>
      simp only [ha,hb,Option.map_some,AbStore.newest] at h
      split at h
      · cases h
        exact ⟨.a,ca.2,ha⟩
      · cases h
        exact ⟨.b,cb.2,hb⟩

/-- A store of a checkpoint state that has applied no record. -/
theorem storeState_unused :
    Returns (fun t => t.2.Unused ∧ t.1.checkpointSequence = 0)
      (CheckpointState.store.store CheckpointState)
      fun _ t => t.2.Unused ∧ t.1.checkpointSequence = 0 := by
  apply Triple.ofEach
  rintro ⟨m,d⟩ ⟨hd,hm⟩
  apply AbStore.store_triple_of_reads (fun _ => trivial) trivial
  have hpath : ∀ x, CheckpointState.store.path x = .checkpointState x := by rintro (_ | _) <;> rfl
  generalize AbStore.targetAt CheckpointState CheckpointState.store d = x
  have hpreserve : Returns (· = (m,d))
      (AbStore.preserveCopy CheckpointState (CheckpointState.store.path x.other)
        (CheckpointState.store.copyAt CheckpointState d (CheckpointState.store.path x.other)))
      fun _ t => t.2.Unused ∧ t.1 = m := by
    rw [hpath]
    cases hc : CheckpointState.store.copyAt CheckpointState d (.checkpointState x.other) with
    | none => exact .pure fun _ ht => ht ▸ ⟨hd,rfl⟩
    | some copy =>
      obtain ⟨himage,-,hne⟩ := image_of_copyAt hc
      obtain ⟨i,hi,-⟩ := Option.map_eq_some_iff.mp himage
      refine (Returns.ofTriple (AbStore.preserve_triple (J := fun _ => True) hi hne
        (fun _ _ => trivial) fun _ _ => trivial)).weakenOk ?_
      rintro _ _ ⟨n,hn,rfl⟩
      exact ⟨(hd.held hi (hd.state _ _ himage) hn).syncDir _,rfl⟩
  refine hpreserve.bind fun _ => Triple.ofEach ?_
  rintro ⟨m',d'⟩ ⟨hd',hm'⟩
  obtain rfl : m' = m := hm'
  apply AbStore.publish_triple_of fun _ => trivial
  intro hgen
  have hinitial : ∀ g, g < 2^64 →
      CheckpointState.Initial (AbRecord.encode (AbRecord.setGeneration g m')) := by
    intro g hg r hr
    have hfits : (AbRecord.setGeneration g m' : CheckpointState).Fits :=
      ⟨hg,Nat.lt_of_le_of_lt (Nat.le_of_eq hm) (by decide)⟩
    rw [show AbRecord.encode (AbRecord.setGeneration g m') = (AbRecord.setGeneration g m').encode from rfl,
      CheckpointState.decode_ok.mpr ⟨hfits,rfl⟩] at hr
    cases hr
    exact hm
  refine (Returns.ofTriple (AbStore.overwrite_triple (J := fun _ => True)
    (CheckpointState.encode_ne_nil _) trivial (fun _ _ _ _ => trivial) fun _ _ _ => trivial)).weakenOk ?_
  rw [hpath]
  rintro _ ⟨_,_⟩ ⟨rfl,n,hn,⟨i,hi,rfl⟩ | ⟨-,rfl⟩⟩
  · exact ⟨hd'.held hi (hinitial _ hgen) hn,hm⟩
  · exact ⟨(hd'.created x).held (Disk.volatile_create _ _) (hinitial _ hgen) hn,hm⟩

theorem createCheckpointState_spares : Spares (createCheckpointState : Io μ FormatError Unit) := by
  have hlocal : Spares (Io.withLocal ({} : CheckpointState) (do
      CheckpointState.store.store CheckpointState
      CheckpointState.store.store CheckpointState) : Io μ FormatError _) := by
    apply Triple.ofEach
    rintro ⟨m,d⟩ hd
    apply Io.withLocal_triple
    exact (storeState_unused.bind fun _ => storeState_unused).conseq
      (fun _ ht => ht ▸ ⟨hd,rfl⟩) fun _ _ ht => ht.1
  exact hlocal.bind fun _ => .pure _

end State

theorem createVolume_spares (superblock : Superblock) (metadataVersion : ℕ) :
    Spares (createVolumeWithMetadataVersion superblock metadataVersion : Io μ FormatError _) := by
  have hevidence : Spares (createEvidence superblock.volumeUuid : Io μ FormatError Unit) :=
    refuseSuperblock_spares.bind fun _ => (Spares.forEach _ refuseOccupied_spares).bind fun _ =>
      (Spares.forEach _ fun _ => (Spares.createDirAll _).mapErr _).bind fun _ =>
      persistLockFile_spares.bind fun _ => (initializeNew_spares _).bind fun _ =>
      createCatalog_spares.bind fun _ => createCheckpointState_spares.bind fun _ =>
      createMark_spares.bind fun _ => .forEach _ fun _ => (Spares.syncDir _).mapErr _
  exact hevidence.bind fun _ => (commitSuperblock_spares _).bind fun _ => .pure _

end Creation

section Recovery

variable {μ : Type} {d : Disk}

theorem finish_start {ctx : ScanContext} {replay : ReplayRecords} {scan : JournalScan}
    (h : ctx.finish {} replay = .ok scan) :
    scan.durableSequence = ctx.checkpointSequence ∧ scan.segments = [] ∧ scan.repairs = [] ∧
      scan.verifiedPrefixes = [] := by
  unfold ScanContext.finish at h
  split at h
  · cases h
  obtain ⟨next,-,h⟩ := bind_eq_ok h
  cases h
  exact ⟨Nat.max_zero _,rfl,rfl,rfl⟩

def Bare (t : μ × Disk) : Prop := t.2.Wf ∧ ∀ shard, t.2.volatile (.shardData shard) = none

theorem Bare.apart {m : μ} {d' : Disk} (h : Bare (m,d)) (ha : Disk.Apart Path.IsMap d d') :
    Bare (m,d') :=
  ⟨ha.wf,fun shard => by rw [ha.volatile _ (Path.not_isMap shard)]; exact h.2 shard⟩

theorem bare_withLocal {T ε α : Type} {p : Io T ε α}
    (h : ∀ d₀ : Disk, d₀.Wf → Keeps (fun t => Disk.Apart Path.IsMap d₀ t.2) p) (x : T) :
    Keeps Bare (Io.withLocal x p : Io μ ε _) := by
  apply Triple.ofEach
  rintro ⟨m,d⟩ hd
  apply Io.withLocal_triple
  exact (h d hd.1).conseq (fun _ ht => ht ▸ Disk.Apart.refl hd.1) (fun _ _ ht => hd.apart ht)
    (fun _ _ ht => hd.apart ht) fun _ ht => hd.apart ht

theorem SlotStore.shows_blank {g : Geometry} {s : SlotStore} {m : μ} (hg : g.Sane)
    (hs : s.geometry = g ∧ s.catalogAb = catalogStore g ∧ s.shards = ∅) (hd : Bare (m,d)) :
    Shows g s.discardEnabled ⟨none,fun _ _ => False,.only fun _ => False⟩ (fun _ c => c = .blank g)
      (s,d) := by
  obtain ⟨hgeometry,hcatalog,hshards⟩ := hs
  have hnone : ∀ index : ℕ, s.shards[index]? = none := fun index => by
    rw [hshards,Std.TreeMap.getElem?_emptyc]
  refine ⟨⟨hg,hgeometry,rfl,hcatalog,hd.1,?_,?_⟩,?_,by simp,by simp,⟨by simp [Foreign.only],by simp [Foreign.only]⟩⟩
  · intro index shard hshard
    rw [hnone] at hshard
    cases hshard
  · intro index i _ _ hi
    rw [hd.2] at hi
    cases hi
  · intro unit
    simp only [cell,hnone,hgeometry]

variable [Crc32]

theorem loadCheckpointState_unused (h : d.Unused) :
    Io.Finds d (fun r => r.checkpointSequence = 0) (loadCheckpointState : Io μ RecoveryError _) := by
  have hload := (Io.Finds.ofReads (μ := μ) (d := d)
    (CheckpointState.store.load_reads CheckpointState)).mapErr RecoveryError.Format
  refine hload.bind fun found hfound => ?_
  cases found with
  | none => exact .throw _
  | some state =>
    refine .pure ?_
    obtain ⟨x,bs,hx⟩ := copyAt_of_loadAt hfound.symm
    rw [show CheckpointState.store.path x = .checkpointState x by cases x <;> rfl] at hx
    obtain ⟨himage,hdecode,-⟩ := image_of_copyAt hx
    exact h.state x bs himage state hdecode

namespace SlotStore

theorem openData_absent (h : d.Unused) (shard : ℕ) :
    Io.Finds d (fun _ => False) (openData shard : Io μ CoreError _) := by
  have hopen := (Io.Finds.ofReads (μ := μ) (d := d) (Io.Reads.openFile (.shardData shard))).mapErr CoreError.Io
  refine hopen.bind fun found hfound => ?_
  rw [h.data shard] at hfound
  subst hfound
  exact .throw _

theorem loadShard_absent (h : d.Unused) (g : Geometry) (adopted : List ℕ) (e : Bool) (shard : ℕ) :
    Io.Finds d (fun _ => False) (loadShard g adopted e shard : Io μ CoreError _) := by
  unfold loadShard
  split
  · exact .throw _
  have hsides : Io.Finds d (fun _ => True) (coreFormat ((allocStore g shard).sideGenerations AllocationMap) :
      Io μ CoreError _) :=
    (Io.Finds.ofStill ((Io.Still.ofReads ((allocStore g shard).readSide_reads AllocationMap _)).bind
      fun _ => (Io.Still.ofReads ((allocStore g shard).readSide_reads AllocationMap _)).bind
        fun _ => .pure _)).mapErr _
  have halloc : Io.Finds d (fun _ => True) (loadAlloc g adopted shard : Io μ CoreError _) := by
    have hload := (Io.Finds.ofReads (μ := μ) (d := d)
      ((allocStore g shard).load_reads AllocationMap)).mapErr CoreError.Format
    refine hload.bind fun found _ => ?_
    cases found with
    | some alloc => exact .pure trivial
    | none =>
      simp only
      split
      · exact .pure trivial
      · exact .throw _
  refine hsides.bind fun sides _ => halloc.bind fun alloc _ => ?_
  simp only
  split
  · exact .throw _
  · exact (openData_absent h shard).bind fun _ hf => hf.elim

theorem loadShards_absent (h : d.Unused) (g : Geometry) (adopted : List ℕ) (e : Bool) (shards : List ℕ) :
    Io.Finds d (fun r => r.1 = []) (loadShards g adopted e shards : Io μ CoreError _) := by
  cases shards with
  | nil => exact .pure rfl
  | cons shard rest => exact (loadShard_absent h g adopted e shard).bind fun _ hf => hf.elim

theorem openStore_unused (h : d.Unused) (g : Geometry) :
    Io.Finds d (fun s => s.geometry = g ∧ s.catalogAb = catalogStore g ∧ s.shards = ∅)
      (openStore g : Io μ CoreError _) := by
  have hload := (Io.Finds.ofReads (μ := μ) (d := d) ((catalogStore g).load_reads ShardCatalog)).mapErr
    CoreError.Format
  refine ((Io.Finds.ofStill loadVolumeSuperblock_still).mapErr _).bind fun envelope _ =>
    hload.bind fun found _ => ?_
  cases found with
  | none => exact .throw _
  | some catalog =>
    refine ((Io.Finds.ofReads (Io.Reads.list .data)).mapErr _).bind fun listed _ => ?_
    refine (loadShards_absent h g _ _ _).bind fun r hr => .pure ⟨rfl,rfl,?_⟩
    simp only [hr,List.foldl_nil]

end SlotStore

theorem bare_storeCheckpointState (state : CheckpointState) :
    Keeps Bare (storeCheckpointState state : Io μ RecoveryError _) := by
  have hpath : ∀ x, (CheckpointState.store.path x).IsMap := by
    rintro (_ | _) <;> simp [Path.IsMap,Path.IsMeta,CheckpointState.store,AbStore.path]
  have hstore : ∀ d₀ : Disk, d₀.Wf → Keeps (fun t => Disk.Apart Path.IsMap d₀ t.2)
      (CheckpointState.store.store CheckpointState) := fun d₀ _ =>
    Triple.ofEach fun _ hd =>
      (AbStore.rewritable_apart hpath CheckpointState.encode_ne_nil).store_keeps hd
  refine .bind ((bare_withLocal hstore state).mapErr _) fun r => ?_
  refine .bind (Keeps.mapErr ?_ _) fun _ => .pure _
  exact Io.syncDir_triple (fun _ _ hd => hd.apart ((Disk.Apart.refl hd.1).syncDir _)) (fun _ h => h)
    fun _ h => h

variable [DefaultHasher]

theorem scan_unused (h : d.Unused) (superblock : Superblock) (c segmentSize : ℕ)
    (proof : Option DurableProof) (replay : ReplayRecords) :
    Io.Finds d (fun scan => scan.durableSequence = c ∧ scan.segments = [] ∧ scan.repairs = [] ∧
        scan.verifiedPrefixes = [])
      (scanJournalWithProof superblock c segmentSize proof replay : Io μ RecoveryError _) := by
  unfold scanJournalWithProof
  split
  · exact .throw _
  refine (Io.Finds.ofReads loadDurableMark_reads).bind fun mark _ => ?_
  refine ((Io.Finds.ofReads (Io.Reads.list .journal)).mapErr _).bind fun listed hlisted => ?_
  have hnone : segmentIndices listed = [] := by
    have hparse : listed.filterMap parseJournalSegment = [] := by
      rw [List.filterMap_eq_nil_iff]
      intro p hp
      cases p with
      | journalSegment index =>
        rw [hlisted,Disk.list,List.mem_filter,h.journal] at hp
        simp at hp
      | _ => rfl
    simp only [segmentIndices,hparse,List.insertionSort_nil]
  simp only [hnone]
  have hwalk : ∀ ctx : ScanContext, Io.Finds d (fun r => r.1 = {})
      (Io.withLocal replay (ctx.walk [] {}) : Io μ RecoveryError _) := fun ctx m =>
    Io.withLocal_triple (Triple.pure fun _ ht => ht ▸ ⟨rfl,rfl⟩)
  refine (hwalk _).bind fun r hr => ?_
  refine (Io.Finds.ofChecks (Io.Checks.ofExcept _)).mono fun scan hscan => ?_
  rw [hr] at hscan
  exact finish_start hscan

theorem bare_adoptScan {scan : JournalScan} (hs : scan.segments = []) (hr : scan.repairs = [])
    (hp : scan.verifiedPrefixes = []) (proof : DurableProof) (state : CheckpointState) :
    Keeps Bare (adoptScan proof state scan : Io μ RecoveryError _) := by
  have hpath : ∀ x, (DurableProof.pair.path x).IsMap := by
    rintro (_ | _) <;> simp [Path.IsMap,Path.IsMeta,DurableProof.pair,AbStore.path]
  have hadvance : ∀ d₀ : Disk, d₀.Wf → Keeps (fun t => Disk.Apart Path.IsMap d₀ t.2)
      DurableProofStore.advance := fun d₀ _ =>
    DurableProofStore.advance_keeps (AbStore.rewritable_apart hpath DurableProof.encode_ne_nil)
  unfold adoptScan
  rw [hs,hr,hp]
  refine .bind (bare_storeCheckpointState state) fun _ => ?_
  refine .bind (.pure ()) fun _ => Keeps.bind (.pure ()) fun _ => ?_
  refine .bind (.pure ()) fun _ => Keeps.bind (.ofExcept _) fun proof' => ?_
  exact .bind ((bare_withLocal hadvance proof').mapErr _) fun _ => .pure _

variable [HashOrder]

/-- With nothing to replay the discard copies are restabilized and nothing else. -/
theorem settleReplay_shows {g : Geometry} {e : Bool} {o : SlotStore.Handles} {f : ℕ → Cell → Prop}
    {limit : ℕ} {superblock : Superblock} {state : CheckpointState} {scan : JournalScan}
    (hs : scan.durableSequence = state.checkpointSequence) :
    Returns (SlotStore.Shows g e o f) (settleReplay limit true superblock state scan)
      fun _ => SlotStore.Shows g e o f := by
  unfold settleReplay
  rw [if_neg (by omega)]
  have hsettled : Returns (SlotStore.Shows g e o f)
      (Prog.pure (state,scan.segments) : Io SlotStore RecoveryError _) fun _ => SlotStore.Shows g e o f :=
    Triple.pure fun _ h => h
  refine hsettled.bind fun settled => ?_
  exact Returns.bind (.ofTriple (SlotStore.persistDiscards_shows.mapErr _)) fun _ =>
    Triple.pure fun _ h => h

/-- What recovery makes of an unused disk. -/
structure Began (r : Recovered) (d : Disk) : Prop where
  computed : r.superblock.geometry.Computed
  durable : r.durableSequence = 0
  shows : SlotStore.Shows r.superblock.geometry r.store.discardEnabled
    ⟨none,fun _ _ => False,.only fun _ => False⟩ (fun _ c => c = .blank r.superblock.geometry) (r.store,d)

theorem recoverBounded_unused (segmentSize : ℕ) :
    Returns (fun t => t.2.Unused) (recoverBounded segmentSize : Io μ RecoveryError _)
      fun r t => Began r t.2 := by
  apply Triple.ofEach
  rintro ⟨m,d⟩ hd
  unfold recoverBounded recoverWithReplay
  refine (loadVolumeSuperblock_checks.mapErr _).bind_returns fun envelope henvelope => ?_
  split
  · exact Returns.throw _
  have hgeometry : envelope.superblock.geometry.Computed := by
    cases hat : superblockAt d with
    | error e =>
      rw [hat] at henvelope
      cases henvelope
    | ok found =>
      rw [hat] at henvelope
      cases henvelope
      exact superblockAt_computed hat
  refine ((Io.Still.ofChecks (DurableProofStore.load_checks _)).mapErr _).bind_returns fun proof => ?_
  refine (((SlotStore.openStore_unused hd _).mapErr _) m).bind fun store => ?_
  refine .ofEach ?_
  rintro _ ⟨rfl,hstore⟩
  refine (loadCheckpointState_unused hd m).bind fun state => Triple.ofEach ?_
  rintro _ ⟨rfl,hstate⟩
  refine (scan_unused hd _ _ _ _ _ m).bind fun scan => Triple.ofEach ?_
  rintro _ ⟨rfl,hdurable,hsegments,hrepairs,hprefixes⟩
  refine Returns.bind (.ofTriple
      ((bare_adoptScan hsegments hrepairs hprefixes proof state).strengthen
        (fun _ ht => ht ▸ ⟨hd.wf,hd.data⟩))) fun proof' => ?_
  apply Triple.ofEach
  rintro ⟨m',d'⟩ hbare
  have hshows := SlotStore.shows_blank hgeometry.sane hstore hbare
  have hsettle : Returns (· = (m',d')) (Io.withLocal store
      (settleReplay replayBatchBytes true envelope.superblock state scan))
      fun r t => SlotStore.Shows envelope.superblock.geometry store.discardEnabled
        ⟨none,fun _ _ => False,.only fun _ => False⟩
        (fun _ c => c = .blank envelope.superblock.geometry) (r.2,t.2) :=
    Io.withLocal_triple ((settleReplay_shows hdurable).conseq (fun _ ht => ht ▸ hshows) fun _ _ h => h)
  refine hsettle.bind fun r => Triple.pure fun t ht => ⟨hgeometry,hdurable.trans hstate,?_⟩
  have henabled : r.2.discardEnabled = store.discardEnabled := ht.fit.enabled
  rw [← henabled] at ht
  exact ht

namespace Volume

/-- A volume that has begun: nothing is journaled, kept in memory or filed. -/
structure Blank (v : Volume) (d : Disk) : Prop where
  computed : v.superblock.geometry.Computed
  next : v.journal.nextSequence = 1
  overlay : ∀ unit : ℕ, v.overlay.units[unit]? = none
  handles : ∀ i, ¬ v.journal.Handle i
  shows : SlotStore.Shows v.superblock.geometry v.supportsDiscard
    ⟨none,fun _ _ => False,.only fun _ => False⟩ (fun _ c => c = .blank v.superblock.geometry) (v.store,d)

theorem recover_blank (segmentSize : ℕ) :
    Returns (fun t => t.2.Unused) (recover segmentSize : Io μ RecoveryError Volume)
      fun v t => v.Blank t.2 := by
  have hrecover : Returns (fun t => t.2.Unused)
      (recoverBounded (effectiveSegmentSize segmentSize) : Io μ RecoveryError _)
      fun r t => r.replay = [] ∧ Began r t.2 :=
    ((recoverBounded_sequence _).and (recoverBounded_unused _)).conseq (fun _ h => ⟨trivial,h⟩)
      (fun _ _ h => ⟨h.1.1,h.2⟩) (fun _ _ _ => trivial) fun _ _ => trivial
  refine hrecover.bind fun r => Triple.pure ?_
  rintro ⟨m,d⟩ ⟨hreplay,hbegan⟩
  have hshows := hbegan.shows
  refine ⟨hbegan.computed,?_,?_,?_,?_⟩
  · simp only [JournalWriter.allowCoveredHolesBelow,JournalWriter.resume,hbegan.durable]
  · intro unit
    rw [hreplay,List.foldl_nil,Overlay.units_promote]
    rfl
  · rintro i (⟨a,ha,-⟩ | hi)
    · cases ha
    · cases hi
  · exact ⟨⟨hshows.fit.sane,hshows.fit.geometry,rfl,hshows.fit.catalogAb,hshows.fit.wf,
      hshows.fit.shards,hshows.fit.fresh⟩,hshows.cells,by simp,by simp,hshows.aside⟩

/-- A volume recovered from an unused disk reads as zeros. -/
theorem recover_unused (segmentSize : ℕ) :
    Returns (fun t => t.2.Unused) (recover segmentSize : Io μ RecoveryError Volume)
      fun v t => v.superblock.geometry.Computed ∧
        Backed v.superblock.geometry v.supportsDiscard (fun _ => .ok .Zero) [] .none (v,t.2) := by
  refine ((recover_sound segmentSize).and (recover_blank segmentSize)).conseq (fun _ h => ⟨trivial,h⟩) ?_
    (fun _ _ _ => trivial) fun _ _ => trivial
  rintro v ⟨m,d⟩ ⟨hsound,hblank⟩
  refine ⟨hblank.computed,hsound,?_,rfl,?_,?_,?_,?_⟩
  · intro unit entry he
    rw [hblank.overlay] at he
    cases he
  · rw [hblank.next]
    decide
  · intro unit entry he
    rw [hblank.overlay] at he
    cases he
  · rintro p (hp | hp) <;> cases hp
  · have hread : ∀ unit, (Cell.blank v.superblock.geometry).read v.superblock.geometry unit = .ok .Zero := by
      intro unit
      simp only [Cell.read,SlotStore.blank_header,Except.bind]
    refine SlotStore.Shows.mono (f := fun _ c => c = .blank v.superblock.geometry) ?_ ?_
    · exact ⟨hblank.shows.fit,hblank.shows.cells,by simp,by simp [Plan.names],
        ⟨fun i hi => (hblank.handles i hi).elim,by simp [SlotStore.Foreign.only]⟩⟩
    · rintro unit _ rfl
      exact ⟨fun _ => rfl,.inl (hread unit)⟩

end Volume

end Recovery
end Maki
