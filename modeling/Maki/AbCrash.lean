import Maki.AbStore
import Maki.Settled

/-! Why an A/B pair survives every crash. At any moment one side, the anchor, is settled
at a valid record, and whatever complete record the other side may show after a crash
is either older than the anchor or one that may replace it. A store moves the anchor to
the newest visible copy before it touches the other side. -/
namespace Maki

open Prog hiding pure bind throw get modify
namespace AbStore

open AbRecord

section Calls

variable {μ : Type} {m : μ} {d : Disk}

theorem rewrite_triple {i : InodeId} {bs : Bytes} (hbs : bs ≠ []) :
    Ends (· = (m,d)) (rewrite i bs)
      (fun _ t => ∃ n', n'.Holds bs ∧ t = (m,d.mapInode i fun _ => n'))
      (fun t => ∃ d', d.Begun i bs d' ∧ t = (m,d')) := by
  let n := d.inodes i
  let resized := d.push i (.SetLen bs.length)
  let filled := resized.push i (.Write 0 bs)
  have hresized : d.Begun i bs resized := ⟨_,.resized,rfl⟩
  have hpart : ∀ k, d.Begun i bs (Io.written i 0 (bs.take k) resized) := by
    intro k
    unfold Io.written
    split
    · exact hresized
    · refine ⟨_,.part k,?_⟩
      simp [resized,Disk.push,Disk.mapInode]
  have hfilled : Io.written i 0 bs resized = filled := if_neg hbs
  have hlen : Ends (· = (m,d)) (formatIo (Io.setLen i bs.length))
      (fun _ t => t = (m,resized))
      (fun t => ∃ d', d.Begun i bs d' ∧ t = (m,d')) := by
    apply Triple.mapErr
    apply Io.setLen_triple
    · rintro _ _ ⟨⟩
      rfl
    · exact fun t ht => ⟨d,Disk.begun_start d i bs,ht⟩
    · exact fun t ht => ⟨d,Disk.begun_start d i bs,ht⟩
  have hwrite : Ends (· = (m,resized)) (formatIo (Io.writeAt i 0 bs))
      (fun _ t => t = (m,filled))
      (fun t => ∃ d', d.Begun i bs d' ∧ t = (m,d')) := by
    apply Triple.mapErr
    apply Io.writeAt_triple
    · rintro _ _ ⟨⟩
      rw [hfilled]
    · rintro _ _ k ⟨⟩
      exact ⟨_,hpart k,rfl⟩
    · exact fun t ht => ⟨resized,hresized,ht⟩
  have hsync : Ends (· = (m,filled)) (formatIo (Io.syncData i))
      (fun _ t => ∃ n', n'.Holds bs ∧ t = (m,d.mapInode i fun _ => n'))
      (fun t => ∃ d', d.Begun i bs d' ∧ t = (m,d')) := by
    apply Triple.mapErr
    apply Io.syncData_triple
    · rintro _ _ ⟨⟩
      refine ⟨_,Inode.rewrite_sync n bs,?_⟩
      simp [filled,resized,Disk.push,Disk.mapInode,n]
    · rintro _ _ ⟨⟩
      refine ⟨_,⟨_,.failed,?_⟩,rfl⟩
      simp [filled,resized,Disk.push,Disk.mapInode]
    · intro t ht
      have hfull := hpart bs.length
      rw [List.take_length,hfilled] at hfull
      exact ⟨filled,hfull,ht⟩
  exact .bind hlen fun _ => .bind hwrite fun _ => hsync

/-- Preserving a file rewrites what it shows; a failure leaves a begun rewrite, or a
finished one whose directory entry is not synced. -/
theorem preserve_triple {p : Path} {i : InodeId} {bs : Bytes} (hv : d.volatile p = some i)
    (hbs : bs ≠ []) {J : Disk → Prop} (hbegun : ∀ d', d.Begun i bs d' → J d')
    (hdone : ∀ n', n'.Holds bs → J (d.mapInode i fun _ => n')) :
    Ends (· = (m,d)) (preserve p bs)
      (fun _ t => ∃ n', n'.Holds bs ∧ t = (m,(d.mapInode i fun _ => n').syncDir p.parent))
      (fun t => t.1 = m ∧ J t.2) := by
  have hstart : J d := hbegun d (Disk.begun_start d i bs)
  have hopen : Ends (· = (m,d)) (formatIo (Io.openFile p false))
      (fun j t => j = i ∧ t = (m,d)) (fun t => t.1 = m ∧ J t.2) := by
    apply Triple.mapErr
    apply Io.openFile_triple
    · rintro _ _ j ⟨⟩ hj
      exact ⟨Option.some.inj (hj.symm.trans hv),rfl⟩
    · rintro _ _ ⟨⟩ - hc
      cases hc
    · rintro _ _ ⟨⟩ hn -
      simp [hv] at hn
    · rintro _ rfl
      exact ⟨rfl,hstart⟩
    · rintro _ rfl
      exact ⟨rfl,hstart⟩
  have hrewrite := (rewrite_triple (m := m) (d := d) (i := i) hbs).weaken (fun _ _ ht => ht)
    (fun (_ : FormatError) t ⟨d',hd,ht⟩ => (by subst ht; exact ⟨rfl,hbegun d' hd⟩ : t.1 = m ∧ J t.2))
    (fun t ⟨d',hd,ht⟩ => (by subst ht; exact ⟨rfl,hbegun d' hd⟩ : t.1 = m ∧ J t.2))
  refine Triple.bind hopen ?_
  intro j fs t ht
  obtain ⟨rfl,rfl⟩ := ht
  refine Triple.bind hrewrite (fun _ => ?_) fs (m,d) rfl
  apply Triple.mapErr
  apply Io.syncDir_triple
  · rintro _ _ ⟨n',hn,⟨⟩⟩
    exact ⟨n',hn,rfl⟩
  · rintro _ ⟨n',hn,rfl⟩
    exact ⟨rfl,hdone n' hn⟩
  · rintro _ ⟨n',hn,rfl⟩
    exact ⟨rfl,hdone n' hn⟩

theorem overwrite_triple {p : Path} {bs : Bytes} (hbs : bs ≠ []) {J : Disk → Prop} (hstart : J d)
    (hfound : ∀ i d', d.volatile p = some i → d.Begun i bs d' → J d')
    (hmade : ∀ d', d.volatile p = none → (d.create p).Begun (d.nextInode+1) bs d' → J d') :
    Ends (· = (m,d)) (overwrite p bs)
      (fun _ t => t.1 = m ∧ ∃ n', n'.Holds bs ∧
        ((∃ i, d.volatile p = some i ∧ t.2 = d.mapInode i fun _ => n') ∨
          (d.volatile p = none ∧ t.2 = (d.create p).mapInode (d.nextInode+1) fun _ => n')))
      (fun t => t.1 = m ∧ J t.2) := by
  have hopen : Ends (· = (m,d)) (formatIo (Io.openFile p true))
      (fun i t => (d.volatile p = some i ∧ t = (m,d)) ∨
        (d.volatile p = none ∧ i = d.nextInode+1 ∧ t = (m,d.create p)))
      (fun t => t.1 = m ∧ J t.2) := by
    apply Triple.mapErr
    apply Io.openFile_triple
    · rintro _ _ i ⟨⟩ hi
      exact .inl ⟨hi,rfl⟩
    · rintro _ _ ⟨⟩ hv -
      exact .inr ⟨hv,rfl,rfl⟩
    · rintro _ _ ⟨⟩ - hc
      cases hc
    · rintro _ rfl
      exact ⟨rfl,hstart⟩
    · rintro _ rfl
      exact ⟨rfl,hstart⟩
  refine .bind hopen ?_
  rintro i fs t (⟨hi,rfl⟩ | ⟨hv,rfl,rfl⟩)
  · refine (rewrite_triple hbs).weaken ?_ ?_ ?_ fs (m,d) rfl
    · rintro _ _ ⟨n',hn,rfl⟩
      exact ⟨rfl,n',hn,.inl ⟨i,hi,rfl⟩⟩
    · rintro _ _ ⟨d',hd,rfl⟩
      exact ⟨rfl,hfound i d' hi hd⟩
    · rintro _ ⟨d',hd,rfl⟩
      exact ⟨rfl,hfound i d' hi hd⟩
  · refine (rewrite_triple hbs).weaken ?_ ?_ ?_ fs (m,d.create p) rfl
    · rintro _ _ ⟨n',hn,rfl⟩
      exact ⟨rfl,n',hn,.inr ⟨hv,rfl⟩⟩
    · rintro _ _ ⟨d',hd,rfl⟩
      exact ⟨rfl,hmade d' hv hd⟩
    · rintro _ ⟨d',hd,rfl⟩
      exact ⟨rfl,hmade d' hv hd⟩

end Calls

variable {T : Type} [AbRecord T] [Crc32]

/-- The contract of a record type on a pair of paths, for the records that fit it. -/
structure Laws (s : AbStore) (fits : T → Prop) : Prop where
  distinct : s.a ≠ s.b
  parent : s.a.parent = s.b.parent
  decode_encode : ∀ r, fits r → decode (encode r) = .ok r
  raw_encode : ∀ r, fits r → RawGeneration.decode (encode r) = .ok (generation r)
  nonempty : ∀ r, fits r → encode r ≠ []
  bounded : ∀ r, fits r → (encode r).length ≤ s.bound T
  fits_set : ∀ r g, fits r → g < 2^64 → fits (setGeneration g r)
  generation_set : ∀ (r : T) g, generation (setGeneration g r) = g

/-- No reader of the pair takes these bytes for a record. -/
def Rejects (T : Type) [AbRecord T] (s : AbStore) (bs : Bytes) : Prop :=
  bs.length = 0 ∨ bs.length > s.bound T ∨
    ((decode bs : Except FormatError T).toOption = none ∧ (RawGeneration.decode bs).toOption = none)

/-- Bytes that are no record, or a complete record satisfying `P`. -/
def Fine (s : AbStore) (fits P : T → Prop) (bs : Bytes) : Prop :=
  s.Rejects T bs ∨ ∃ r, fits r ∧ bs = encode r ∧ P r

variable {s : AbStore} {fits P Q : T → Prop} {d : Disk} {x : Side}

theorem Fine.mono {bs : Bytes} (h : s.Fine fits P bs) (hpq : ∀ r, P r → Q r) :
    s.Fine fits Q bs := by
  rcases h with h | ⟨r,hf,hb,hr⟩
  · exact .inl h
  · exact .inr ⟨r,hf,hb,hpq r hr⟩

namespace Laws

variable (L : s.Laws fits)
include L

theorem path_ne (x : Side) : s.path x ≠ s.path x.other := by
  cases x
  · exact L.distinct
  · exact L.distinct.symm

theorem parent_path (x : Side) : (s.path x).parent = s.a.parent := by
  cases x
  · rfl
  · exact L.parent.symm

theorem encode_inj {r r' : T} (hr : fits r) (hr' : fits r') (h : encode r = encode r') : r = r' := by
  have hd := L.decode_encode r hr
  rw [h,L.decode_encode r' hr'] at hd
  exact (Except.ok.inj hd).symm

theorem not_rejects {r : T} (hr : fits r) : ¬ s.Rejects T (encode r) := by
  rintro (h | h | ⟨h,-⟩)
  · exact L.nonempty r hr (List.length_eq_zero_iff.mp h)
  · exact absurd (L.bounded r hr) (Nat.not_le.mpr h)
  · simp [L.decode_encode r hr,Except.toOption] at h

theorem bytesAt_encode {r : T} {p : Path} (hr : fits r) (h : d.image p = some (encode r)) :
    bytesAt d p (s.bound T) = some (encode r) := by
  have hn := L.nonempty r hr
  have hb := L.bounded r hr
  simp [bytesAt,h,Option.filter_eq_some_iff,hn,hb]

theorem copyAt_encode {r : T} {p : Path} (hr : fits r) (h : d.image p = some (encode r)) :
    s.copyAt T d p = some (r,encode r) := by
  simp [copyAt,L.bytesAt_encode hr h,L.decode_encode r hr,Except.toOption]

theorem rawAt_encode {r : T} {p : Path} (hr : fits r) (h : d.image p = some (encode r)) :
    rawAt d p (s.bound T) = some (generation r) := by
  simp [rawAt,L.bytesAt_encode hr h,L.raw_encode r hr,Except.toOption]

end Laws

theorem copyAt_rejects {p : Path} {bs : Bytes} (h : d.image p = some bs) (hr : s.Rejects T bs) :
    s.copyAt T d p = none := by
  rcases hr with hr | hr | ⟨hr,-⟩
  · simp [copyAt,bytesAt,h,List.length_eq_zero_iff.mp hr]
  · simp [copyAt,bytesAt,h,Option.filter,Nat.not_le.mpr hr]
  · cases hb : bytesAt d p (s.bound T) with
    | none => simp [copyAt,hb]
    | some bs' =>
      have hbs : bs' = bs := by
        simp only [bytesAt,h,Option.filter_eq_some_iff] at hb
        exact (Option.some.inj hb.1).symm
      simp [copyAt,hb,hbs,hr]

/-- What a reader finds on a side whose bytes are fine: nothing, or a complete record. -/
theorem Laws.copyAt_cases (L : s.Laws fits) {p : Path}
    (h : ∀ bs, d.image p = some bs → s.Fine fits P bs) :
    s.copyAt T d p = none ∨
      ∃ r, fits r ∧ P r ∧ d.image p = some (encode r) ∧ s.copyAt T d p = some (r,encode r) := by
  cases hi : d.image p with
  | none => exact .inl (copyAt_absent hi)
  | some bs =>
    rcases h bs hi with hr | ⟨r,hf,rfl,hr⟩
    · exact .inl (copyAt_rejects hi hr)
    · exact .inr ⟨r,hf,hr,rfl,L.copyAt_encode hf hi⟩

/-- The record `r'` may stand beside the anchor `r`: it is older, or it is newer and good. -/
def Beside (P : T → Prop) (R : T → T → Prop) (r r' : T) : Prop :=
  (generation r' < generation r ∧ R r r') ∨ (generation r < generation r' ∧ R r' r ∧ P r')

/-- Side `x` is settled at the good record `r`. `K` are the complete images that the
other side may show; `R` relates every newer record to the older one beside it. -/
structure Anchored (s : AbStore) (fits P : T → Prop) (R : T → T → Prop)
    (K : Side → Bytes → Prop) (d : Disk) (x : Side) (r : T) : Prop where
  wf : d.Wf
  fit : fits r
  good : P r
  settled : d.Settled (s.path x) (encode r)
  known : ∀ bs, K x.other bs → s.Fine fits (Beside P R r) bs
  /-- The other side's name was never pointed elsewhere. -/
  name : ∀ i, d.Linked (s.path x.other) i → d.volatile (s.path x.other) = some i
  durable : ∀ i, d.volatile (s.path x.other) = some i →
    s.Fine fits (Beside P R r) (d.inodes i).durable
  /-- A durable record newer than the anchor is also the visible one. -/
  latest : ∀ i r', d.volatile (s.path x.other) = some i → fits r' →
    (d.inodes i).durable = encode r' → generation r < generation r' →
    (d.inodes i).image = encode r'

/-- Before the first store completes: only side `a` was ever written. -/
structure Unanchored (s : AbStore) (fits P : T → Prop) (K : Side → Bytes → Prop)
    (d : Disk) : Prop where
  wf : d.Wf
  absent : ∀ i, ¬ d.Linked s.b i
  known : ∀ bs, K .a bs → s.Fine fits P bs
  name : ∀ i, d.Linked s.a i → d.volatile s.a = some i
  durable : ∀ i, d.volatile s.a = some i → s.Fine fits P (d.inodes i).durable

def shown (s : AbStore) (d : Disk) (x : Side) (bs : Bytes) : Prop := d.image (s.path x) = some bs

theorem fine_nil : s.Fine fits P [] := .inl (.inl rfl)

namespace Anchored

variable {R : T → T → Prop} {K : Side → Bytes → Prop} {r : T} {i : InodeId} {n' : Inode}
variable (h : s.Anchored fits P R K d x r)
include h

theorem rebase {K' : Side → Bytes → Prop}
    (hk : ∀ bs, K' x.other bs → s.Fine fits (Beside P R r) bs) :
    s.Anchored fits P R K' d x r := { h with known := hk }

theorem volatile_ne (L : s.Laws fits) {j : InodeId} (hi : d.volatile (s.path x) = some i)
    (hj : d.volatile (s.path x.other) = some j) : j ≠ i := by
  rintro rfl
  exact L.path_ne x (h.wf.unique _ _ j (.inr hi) (.inr hj))

theorem mapAnchor (L : s.Laws fits) (hi : d.volatile (s.path x) = some i)
    (hn : (d.inodes i).Holds (encode r) → n'.Holds (encode r)) :
    s.Anchored fits P R K (d.mapInode i fun _ => n') x r where
  wf := h.wf.mapInode _
  fit := h.fit
  good := h.good
  settled := h.settled.mapInode_self hi hn
  known := h.known
  name := h.name
  durable j hj := by
    rw [Disk.inodes_mapInode_of_ne (h.volatile_ne L hi hj)]
    exact h.durable j hj
  latest j r' hj := by
    rw [Disk.inodes_mapInode_of_ne (h.volatile_ne L hi hj)]
    exact h.latest j r' hj

theorem mapOther (L : s.Laws fits) (hi : d.volatile (s.path x.other) = some i)
    (hd : s.Fine fits (Beside P R r) n'.durable)
    (hl : ∀ r', fits r' → n'.durable = encode r' → generation r < generation r' →
      n'.image = encode r') :
    s.Anchored fits P R K (d.mapInode i fun _ => n') x r where
  wf := h.wf.mapInode _
  fit := h.fit
  good := h.good
  settled := h.settled.mapInode_of_ne h.wf (L.path_ne x) (.inr hi) _
  known := h.known
  name := h.name
  durable j hj := by
    obtain rfl : j = i := Option.some.inj (hj.symm.trans hi)
    simpa using hd
  latest j r' hj := by
    obtain rfl : j = i := Option.some.inj (hj.symm.trans hi)
    simpa using hl r'

theorem syncDir (dir : Dir) : s.Anchored fits P R K (d.syncDir dir) x r where
  wf := h.wf.syncDir dir
  fit := h.fit
  good := h.good
  settled := h.settled.syncDir dir
  known := h.known
  name i hi := by
    rw [Disk.volatile_syncDir]
    exact h.name i (Disk.linked_of_syncDir hi)
  durable i hi := h.durable i (by rwa [Disk.volatile_syncDir] at hi)
  latest i r' hi := h.latest i r' (by rwa [Disk.volatile_syncDir] at hi)

theorem createOther (L : s.Laws fits) (hv : d.volatile (s.path x.other) = none) :
    s.Anchored fits P R K (d.create (s.path x.other)) x r where
  wf := h.wf.create _
  fit := h.fit
  good := h.good
  settled := h.settled.create_of_ne h.wf (L.path_ne x)
  known := h.known
  name i hi := by
    rcases Disk.linked_create hi with hi | ⟨-,rfl⟩
    · exact absurd (h.name i hi) (by simp [hv])
    · exact Disk.volatile_create _ _
  durable i hi := by
    rw [Disk.inodes_of_create hi]
    exact fine_nil
  latest i r' hi hr' hd := by
    rw [Disk.inodes_of_create hi] at hd
    exact absurd hd.symm (L.nonempty r' hr')

/-- The anchor moves to a newer record that has become settled beside it. -/
theorem move (L : s.Laws fits) {r' : T} {K' : Side → Bytes → Prop}
    (hs : d.Settled (s.path x.other) (encode r'))
    (hf : fits r') (hp : Q r') (hg : generation r < generation r') (hr : R r' r)
    (hk : ∀ bs, K' x bs → s.Fine fits (Beside Q R r') bs) :
    s.Anchored fits Q R K' d x.other r' where
  wf := h.wf
  fit := hf
  good := hp
  settled := hs
  known := by simpa using hk
  name i hi := by
    obtain ⟨j,hd,hv,-⟩ := h.settled
    rw [Side.other_other] at hi ⊢
    rcases hi with hi | hi
    · rwa [← hi,hd]
    · exact hi
  durable i hi := by
    rw [Side.other_other] at hi
    obtain ⟨j,-,hv,hh⟩ := h.settled
    obtain rfl := Option.some.inj (hi.symm.trans hv)
    exact .inr ⟨r,h.fit,hh.durable,.inl ⟨hg,hr⟩⟩
  latest i r'' hi hf'' hd hg'' := by
    rw [Side.other_other] at hi
    obtain ⟨j,-,hv,hh⟩ := h.settled
    obtain rfl := Option.some.inj (hi.symm.trans hv)
    obtain rfl := L.encode_inj h.fit hf'' (hh.durable.symm.trans hd)
    omega

end Anchored

/-- CRC-32 rejects torn images: from `d` to `d'` every image a side comes to show is what
was on stable storage, one of the complete images `K`, or bytes no reader accepts. -/
def Intact (T : Type) [AbRecord T] (s : AbStore) (K : Side → Bytes → Prop) (d d' : Disk) : Prop :=
  ∀ x bs, d'.image (s.path x) = some bs → d.Stored (s.path x) bs ∨ K x bs ∨ s.Rejects T bs

namespace Anchored

variable {R : T → T → Prop} {K : Side → Bytes → Prop} {r : T}
variable (h : s.Anchored fits P R K d x r)
include h

theorem fine_of_intact {d' : Disk} (hi : s.Intact T K d d') {bs : Bytes}
    (hb : s.shown d' x.other bs) : s.Fine fits (Beside P R r) bs := by
  rcases hi _ bs hb with ⟨i,hl,rfl⟩ | hk | hr
  · exact h.durable i (h.name i hl)
  · exact h.known bs hk
  · exact .inl hr

/-- The next call starts from the images that are visible now. -/
theorem visible (hi : s.Intact T K d d) : s.Anchored fits P R (s.shown d) d x r :=
  h.rebase fun _ hb => h.fine_of_intact hi hb

theorem crash {tearing : Option ℕ} {c : CrashChoice} (hi : s.Intact T K d (d.crash tearing c)) :
    s.Anchored fits P R (s.shown (d.crash tearing c)) (d.crash tearing c) x r where
  wf := h.wf.crash tearing c
  fit := h.fit
  good := h.good
  settled := h.settled.crash tearing c
  known _ hb := h.fine_of_intact hi hb
  name _ hl := Disk.linked_crash_iff.mp hl
  durable i hv := by
    apply h.fine_of_intact hi
    simp [shown,Disk.image,hv]
    rfl
  latest _ _ _ _ hd _ := hd

end Anchored

namespace Unanchored

variable {R : T → T → Prop} {K : Side → Bytes → Prop} {i : InodeId} {n' : Inode}
variable (h : s.Unanchored fits P K d)
include h

theorem mapInode (hi : d.volatile s.a = some i) (hd : s.Fine fits P n'.durable) :
    s.Unanchored fits P K (d.mapInode i fun _ => n') where
  wf := h.wf.mapInode _
  absent := h.absent
  known := h.known
  name := h.name
  durable j hj := by
    obtain rfl : j = i := Option.some.inj (hj.symm.trans hi)
    simpa using hd

theorem syncDir (dir : Dir) : s.Unanchored fits P K (d.syncDir dir) where
  wf := h.wf.syncDir dir
  absent i hi := h.absent i (Disk.linked_of_syncDir hi)
  known := h.known
  name i hi := by
    rw [Disk.volatile_syncDir]
    exact h.name i (Disk.linked_of_syncDir hi)
  durable i hi := h.durable i (by rwa [Disk.volatile_syncDir] at hi)

theorem create (L : s.Laws fits) (hv : d.volatile s.a = none) :
    s.Unanchored fits P K (d.create s.a) where
  wf := h.wf.create _
  absent i hi := by
    rcases Disk.linked_create hi with hi | ⟨hab,-⟩
    · exact h.absent i hi
    · exact L.distinct hab.symm
  known := h.known
  name i hi := by
    rcases Disk.linked_create hi with hi | ⟨-,rfl⟩
    · exact absurd (h.name i hi) (by simp [hv])
    · exact Disk.volatile_create _ _
  durable i hi := by
    rw [Disk.inodes_of_create hi]
    exact fine_nil

/-- Once side `a` is settled at a good record it is the anchor. -/
theorem anchor {r : T} {K' : Side → Bytes → Prop} (hs : d.Settled s.a (encode r)) (hf : fits r)
    (hp : Q r) (hk : ∀ bs, K' .b bs → s.Fine fits (Beside Q R r) bs) :
    s.Anchored fits Q R K' d .a r where
  wf := h.wf
  fit := hf
  good := hp
  settled := hs
  known := hk
  name i hi := absurd hi (h.absent i)
  durable i hi := absurd (.inr hi) (h.absent i)
  latest i _ hi := absurd (.inr hi) (h.absent i)

theorem image_b : d.image s.b = none := by
  cases hv : d.volatile s.b with
  | none => simp [Disk.image,hv]
  | some i => exact absurd (.inr hv) (h.absent i)

theorem fine_of_intact {d' : Disk} (hi : s.Intact T K d d') {bs : Bytes}
    (hb : s.shown d' .a bs) : s.Fine fits P bs := by
  rcases hi _ bs hb with ⟨i,hl,rfl⟩ | hk | hr
  · exact h.durable i (h.name i hl)
  · exact h.known bs hk
  · exact .inl hr

theorem visible (hi : s.Intact T K d d) : s.Unanchored fits P (s.shown d) d :=
  { h with known := fun _ hb => h.fine_of_intact hi hb }

theorem crash {tearing : Option ℕ} {c : CrashChoice} (hi : s.Intact T K d (d.crash tearing c)) :
    s.Unanchored fits P (s.shown (d.crash tearing c)) (d.crash tearing c) where
  wf := h.wf.crash tearing c
  absent i hl := h.absent i (Disk.linked_of_crash hl)
  known _ hb := h.fine_of_intact hi hb
  name _ hl := Disk.linked_crash_iff.mp hl
  durable i hv := by
    apply h.fine_of_intact hi
    simp [shown,Disk.image,hv,path]
    rfl

end Unanchored

/-- Side `y` shows `v`, the newest record to be seen. -/
structure Newest (s : AbStore) (fits : T → Prop) (d : Disk) (y : Side) (v : T) : Prop where
  fit : fits v
  image : d.image (s.path y) = some (encode v)
  other : ∀ c, s.copyAt T d (s.path y.other) = some c → generation c.1 < generation v

/-- The generation a store of `m` gives it. -/
def stamp (s : AbStore) (d : Disk) (m : T) : ℕ :=
  max (max ((rawAt d s.a (s.bound T)).getD 0) ((rawAt d s.b (s.bound T)).getD 0)) (generation m) + 1

def stamped (s : AbStore) (d : Disk) (m : T) : T := setGeneration (s.stamp d m) m

/-- The complete images of one store: those visible when it starts and the one it writes. -/
def images (s : AbStore) (d : Disk) (m : T) (x : Side) (bs : Bytes) : Prop :=
  s.shown d x bs ∨ (s.stamp d m < 2^64 ∧ bs = encode (s.stamped d m))

/-- The side `store` chooses, on the copies it reads. -/
def targetAt (T : Type) [AbRecord T] (s : AbStore) (d : Disk) : Side :=
  targetFor ((s.copyAt T d s.a).map fun c => generation c.1)
    ((s.copyAt T d s.b).map fun c => generation c.1)

namespace Newest

variable {y : Side} {v : T} (L : s.Laws fits) (h : s.Newest fits d y v)
include L h

theorem copyAt_eq : s.copyAt T d (s.path y) = some (v,encode v) := L.copyAt_encode h.fit h.image

theorem loadAt_eq : s.loadAt T d = some v := by
  cases ho : s.copyAt T d (s.path y.other) with
  | none => exact loadAt_of_other_none (h.copyAt_eq L) ho
  | some c => exact loadAt_of_lt (h.copyAt_eq L) ho (h.other c ho)

/-- The store never overwrites the newest copy. -/
theorem targetAt_eq : s.targetAt T d = y.other := by
  have hy := h.copyAt_eq L
  have ho := h.other
  cases y with
  | a =>
    simp only [path,Side.other] at hy ho
    cases hb : s.copyAt T d s.b with
    | none => simp [targetAt,targetFor,hy,hb,Side.other]
    | some c =>
      have hc := ho c hb
      simp [targetAt,targetFor,hy,hb,Side.other,Nat.not_le.mpr hc]
  | b =>
    simp only [path,Side.other] at hy ho
    cases ha : s.copyAt T d s.a with
    | none => simp [targetAt,targetFor,ha,Side.other]
    | some c =>
      have hc := ho c ha
      simp [targetAt,targetFor,hy,ha,Side.other,Nat.le_of_lt hc]

theorem lt_stamp (m : T) : generation v < s.stamp d m := by
  have hr := L.rawAt_encode h.fit h.image
  cases y <;> simp only [path] at hr <;> simp only [stamp,hr,Option.getD_some] <;> omega

end Newest

/-- Whichever side shows it, the newest record of an anchored pair is good, and it is the
anchor or follows it. -/
theorem Anchored.newest {R : T → T → Prop} {r : T} (L : s.Laws fits)
    (h : s.Anchored fits P R (s.shown d) d x r) :
    s.Newest fits d x r ∨
      ∃ v, s.Newest fits d x.other v ∧ P v ∧ generation r < generation v ∧ R v r := by
  have hx := h.settled.image_eq
  rcases L.copyAt_cases h.known with ho | ⟨v,hf,hb,hi,ho⟩
  · exact .inl ⟨h.fit,hx,fun c hc => by simp [ho] at hc⟩
  · rcases hb with ⟨hlt,-⟩ | ⟨hlt,hR,hp⟩
    · refine .inl ⟨h.fit,hx,fun c hc => ?_⟩
      obtain rfl := Option.some.inj (ho.symm.trans hc)
      exact hlt
    · refine .inr ⟨v,⟨hf,hi,fun c hc => ?_⟩,hp,hlt,hR⟩
      rw [Side.other_other,L.copyAt_encode h.fit hx] at hc
      obtain rfl := Option.some.inj hc
      exact hlt

theorem Anchored.loadAt_good {R : T → T → Prop} {r : T} (L : s.Laws fits)
    (h : s.Anchored fits P R (s.shown d) d x r) : ∃ v, s.loadAt T d = some v ∧ fits v ∧ P v := by
  rcases h.newest L with hn | ⟨v,hn,hp,-,-⟩
  · exact ⟨r,hn.loadAt_eq L,h.fit,h.good⟩
  · exact ⟨v,hn.loadAt_eq L,hn.fit,hp⟩

/-- An anchored pair whose other side holds nothing newer on stable storage: it may be
overwritten. -/
structure Guarded (s : AbStore) (fits P : T → Prop) (R : T → T → Prop)
    (K : Side → Bytes → Prop) (d : Disk) (x : Side) (r : T) : Prop
    extends s.Anchored fits P R K d x r where
  older : ∀ i, d.volatile (s.path x.other) = some i →
    s.Fine fits (fun r' => generation r' < generation r ∧ R r r') (d.inodes i).durable

section Guarded

variable {R : T → T → Prop} {K : Side → Bytes → Prop} {r : T}

/-- The anchor's copy being the newest visible one, nothing newer is durable either. -/
theorem Anchored.guarded (L : s.Laws fits) (h : s.Anchored fits P R K d x r)
    (hn : s.Newest fits d x r) : s.Guarded fits P R K d x r where
  toAnchored := h
  older i hi := by
    rcases h.durable i hi with hr | ⟨r',hf,hd,hold | ⟨hnew,-,-⟩⟩
    · exact .inl hr
    · exact .inr ⟨r',hf,hd,hold⟩
    · have himg : d.image (s.path x.other) = some (encode r') := by
        simp [Disk.image,hi,h.latest i r' hi hf hd hnew]
      have hlt := hn.other _ (L.copyAt_encode hf himg)
      exact absurd hnew (by simpa using Nat.le_of_lt hlt)

theorem Guarded.begun (L : s.Laws fits) (h : s.Guarded fits P R K d x r) {i : InodeId} {bs : Bytes}
    {d' : Disk} (hi : d.volatile (s.path x.other) = some i) (hd : d.Begun i bs d') :
    s.Anchored fits P R K d' x r := by
  obtain ⟨n',hn,rfl⟩ := hd
  have hold := h.older i hi
  rw [← hn.durable_eq] at hold
  apply h.mapOther L hi (hold.mono fun _ hr => .inl hr)
  intro r' hf hd hlt
  rcases hold with hr | ⟨r'',hf'',hd'',hlt'',-⟩
  · exact absurd (hd ▸ hr) (L.not_rejects hf)
  · obtain rfl := L.encode_inj hf hf'' (hd.symm.trans hd'')
    omega

theorem Guarded.create (L : s.Laws fits) (h : s.Guarded fits P R K d x r)
    (hv : d.volatile (s.path x.other) = none) :
    s.Guarded fits P R K (d.create (s.path x.other)) x r where
  toAnchored := h.createOther L hv
  older i hi := by
    rw [Disk.inodes_of_create hi]
    exact fine_nil

theorem Guarded.mapAnchor (L : s.Laws fits) (h : s.Guarded fits P R K d x r) {i : InodeId}
    {n' : Inode} (hi : d.volatile (s.path x) = some i)
    (hn : (d.inodes i).Holds (encode r) → n'.Holds (encode r)) :
    s.Guarded fits P R K (d.mapInode i fun _ => n') x r where
  toAnchored := h.toAnchored.mapAnchor L hi hn
  older j hj := by
    rw [Disk.inodes_mapInode_of_ne (h.volatile_ne L hi hj)]
    exact h.older j hj

theorem Guarded.syncDir (h : s.Guarded fits P R K d x r) (dir : Dir) :
    s.Guarded fits P R K (d.syncDir dir) x r where
  toAnchored := h.toAnchored.syncDir dir
  older i hi := h.older i (by rwa [Disk.volatile_syncDir] at hi)

/-- When the anchor moves, the record it leaves behind is older. -/
theorem Anchored.move_guarded (L : s.Laws fits) (h : s.Anchored fits P R K d x r) {r' : T}
    (hs : d.Settled (s.path x.other) (encode r')) (hf : fits r') (hp : P r')
    (hg : generation r < generation r') (hr : R r' r)
    (hk : ∀ bs, K x bs → s.Fine fits (Beside P R r') bs) :
    s.Guarded fits P R K d x.other r' where
  toAnchored := h.move L hs hf hp hg hr hk
  older i hi := by
    rw [Side.other_other] at hi
    obtain ⟨j,-,hv,hh⟩ := h.settled
    obtain rfl := Option.some.inj (hi.symm.trans hv)
    exact .inr ⟨r,h.fit,hh.durable,hg,hr⟩

theorem Anchored.overwritten (L : s.Laws fits) (h : s.Anchored fits P R K d x r) {i : InodeId}
    {n' : Inode} {rn : T} (hi : d.volatile (s.path x.other) = some i) (hf : fits rn)
    (hb : Beside P R r rn) (hn : n'.Holds (encode rn)) :
    s.Anchored fits P R K (d.mapInode i fun _ => n') x r := by
  apply h.mapOther L hi (.inr ⟨rn,hf,hn.durable,hb⟩)
  intro r' _ hd _
  rw [hn.image,← hn.durable,hd]

/-- The new record is in place; only its directory entry may still be volatile. -/
def Placed (s : AbStore) (d : Disk) (x : Side) (r : T) : Prop :=
  ∃ i, d.volatile (s.path x) = some i ∧ (d.inodes i).Holds (encode r)

theorem Guarded.overwrite_triple {μ : Type} {m : μ} {rn : T} (L : s.Laws fits)
    (h : s.Guarded fits P R K d x r) (hf : fits rn) (hb : Beside P R r rn) :
    Ends (· = (m,d)) (overwrite (s.path x.other) (encode rn))
      (fun _ t => t.1 = m ∧ s.Anchored fits P R K t.2 x r ∧ s.Placed t.2 x.other rn)
      (fun t => t.1 = m ∧ s.Anchored fits P R K t.2 x r) := by
  have hcall := AbStore.overwrite_triple (m := m) (L.nonempty rn hf) h.toAnchored
    (fun i d' hi hd => h.begun L hi hd)
    (fun d' hv hd => (h.create L hv).begun L (Disk.volatile_create _ _) hd)
  refine hcall.weakenOk ?_
  rintro _ t ⟨hm,n',hn,⟨i,hi,ht⟩ | ⟨hv,ht⟩⟩
  · exact ⟨hm,ht ▸ h.overwritten L hi hf hb hn,i,by simp [ht,hi],by simpa [ht] using hn⟩
  · refine ⟨hm,ht ▸ (h.create L hv).overwritten L (Disk.volatile_create _ _) hf hb hn,
      d.nextInode+1,?_,?_⟩
    · rw [ht,Disk.volatile_mapInode,Disk.volatile_create]
    · simpa [ht] using hn

section Preserve

variable {μ : Type} {m : μ}

omit [Crc32] in
theorem Newest.volatile {v : T} (hn : s.Newest fits d x v) :
    ∃ i, d.volatile (s.path x) = some i ∧ (d.inodes i).image = encode v := by
  have hi := hn.image
  cases hv : d.volatile (s.path x) with
  | none => simp [Disk.image,hv] at hi
  | some i => exact ⟨i,rfl,by simpa [Disk.image,hv] using hi⟩

theorem Anchored.preserve_anchor (L : s.Laws fits) (h : s.Anchored fits P R K d x r)
    (hn : s.Newest fits d x r) :
    Ends (· = (m,d)) (preserve (s.path x) (encode r))
      (fun _ t => t.1 = m ∧ s.Guarded fits P R K t.2 x r)
      (fun t => t.1 = m ∧ s.Anchored fits P R K t.2 x r) := by
  obtain ⟨i,hi,-⟩ := hn.volatile
  have hcall := preserve_triple (m := m) (J := fun d' => s.Anchored fits P R K d' x r) hi
    (L.nonempty r h.fit)
    (by
      rintro _ ⟨n',hb,rfl⟩
      exact h.mapAnchor L hi hb.holds)
    (fun n' hh => h.mapAnchor L hi fun _ => hh)
  refine hcall.weakenOk ?_
  rintro _ _ ⟨n',hh,rfl⟩
  exact ⟨rfl,((h.guarded L hn).mapAnchor L hi fun _ => hh).syncDir _⟩

/-- Preserving the newer record beside the anchor, which then becomes the anchor. -/
theorem Anchored.preserve_other {v : T} (L : s.Laws fits) (h : s.Anchored fits P R K d x r)
    (hn : s.Newest fits d x.other v) (hp : P v) (hg : generation r < generation v) (hr : R v r)
    (hk : ∀ bs, K x bs → s.Fine fits (Beside P R v) bs) :
    Ends (· = (m,d)) (preserve (s.path x.other) (encode v))
      (fun _ t => t.1 = m ∧ s.Guarded fits P R K t.2 x.other v)
      (fun t => t.1 = m ∧ s.Anchored fits P R K t.2 x r) := by
  obtain ⟨i,hi,himg⟩ := hn.volatile
  have hbeside : Beside P R r v := .inr ⟨hg,hr,hp⟩
  have hcall := preserve_triple (m := m) (J := fun d' => s.Anchored fits P R K d' x r) hi
    (L.nonempty v hn.fit)
    (by
      rintro _ ⟨n',hb,rfl⟩
      apply h.mapOther L hi (hb.durable_eq ▸ h.durable i hi)
      intro r' hf hd hlt
      rw [hb.image_eq himg,← himg]
      exact h.latest i r' hi hf (hb.durable_eq ▸ hd) hlt)
    (fun n' hh => h.overwritten L hi hn.fit hbeside hh)
  refine hcall.weakenOk ?_
  rintro _ _ ⟨n',hh,rfl⟩
  have hdone := (h.overwritten L hi hn.fit hbeside hh).syncDir (s.path x.other).parent
  have hset : ((d.mapInode i fun _ => n').syncDir (s.path x.other).parent).Settled
      (s.path x.other) (encode v) := .of_syncDir (by simpa using hi) (by simpa using hh)
  exact ⟨rfl,hdone.move_guarded L hset hn.fit hp hg hr hk⟩

theorem Unanchored.preserve_a {v : T} (L : s.Laws fits) (h : s.Unanchored fits P K d)
    (hn : s.Newest fits d .a v) (hp : P v) (hk : ∀ bs, K .b bs → s.Fine fits (Beside P R v) bs) :
    Ends (· = (m,d)) (preserve s.a (encode v))
      (fun _ t => t.1 = m ∧ s.Guarded fits P R K t.2 .a v)
      (fun t => t.1 = m ∧ s.Unanchored fits P K t.2) := by
  obtain ⟨i,hi,-⟩ := hn.volatile
  have hsynced : ∀ n' : Inode, n'.Holds (encode v) →
      s.Unanchored fits P K (d.mapInode i fun _ => n') := fun n' hh =>
    h.mapInode hi (.inr ⟨v,hn.fit,hh.durable,hp⟩)
  have hcall := preserve_triple (m := m) (J := fun d' => s.Unanchored fits P K d') hi
    (L.nonempty v hn.fit)
    (by
      rintro _ ⟨n',hb,rfl⟩
      exact h.mapInode hi (hb.durable_eq ▸ h.durable i hi))
    hsynced
  refine hcall.weakenOk ?_
  rintro _ _ ⟨n',hh,rfl⟩
  have hdone := (hsynced n' hh).syncDir s.a.parent
  have hset : ((d.mapInode i fun _ => n').syncDir s.a.parent).Settled s.a (encode v) :=
    .of_syncDir hi (by simpa using hh)
  refine ⟨rfl,hdone.anchor hset hn.fit hp hk,?_⟩
  exact fun j hj => absurd (.inr hj) (hdone.absent j)

end Preserve

end Guarded

end AbStore
end Maki
