import Maki.ProofStore

/-! Runs of the acknowledgement horizon. Any proofs may be advanced, any call may fail and
power may be lost anywhere: the loader still succeeds and returns a horizon no lower
than the last acknowledged one, and right after an acknowledgement either copy alone
is enough. -/
namespace Maki

open Prog hiding pure bind throw get modify
namespace DurableProofStore

open DurableProof

section Horizon

variable {μ : Type} [Crc32] {d : Disk} {x : Side} {u : BitVec 128} {n : ℕ}

def Sized (d : Disk) : Prop :=
  ∀ x, ∃ i, (d.names (pair.path x)).durable = some i ∧ d.volatile (pair.path x) = some i ∧
    (d.inodes i).Sized durableProofSize

variable {bs : Bytes} {p v : DurableProof}

theorem length_of_decode (h : DurableProof.decode bs = .ok p) :
    bs.length = durableProofSize := by
  unfold DurableProof.decode at h
  split_ifs at h with h₁ h₂
  exact not_not.mp h₂

omit [Crc32] in
theorem Sized.mapInode (h : Sized d) {i : InodeId} {n' : Inode}
    (hn : (d.inodes i).Sized durableProofSize → n'.Sized durableProofSize) :
    Sized (d.mapInode i fun _ => n') := by
  intro x
  obtain ⟨j,hd,hv,hs⟩ := h x
  refine ⟨j,hd,hv,?_⟩
  by_cases hj : j = i
  · subst hj
    simpa using hn hs
  · rwa [Disk.inodes_mapInode_of_ne hj]

omit [Crc32] in
theorem Sized.crash (h : Sized d) (tearing : Option ℕ) (c : CrashChoice) :
    Sized (d.crash tearing c) := by
  intro x
  obtain ⟨i,hd,hv,hs⟩ := h x
  simp only [Disk.volatile] at hv
  have hn : (d.names (pair.path x)).settle c.keep = d.names (pair.path x) := by
    simp [Name.settle,Name.pending,hd,hv]
  exact ⟨i,by simp [Disk.crash,hn,hd],by simp [Disk.volatile,Disk.crash,hn,hv],hs.crash tearing _⟩

theorem rewritable : pair.Rewritable DurableProof (fun bs => bs.length = durableProofSize) Sized where
  nonempty bs h := by
    rintro rfl
    simp [durableProofSize] at h
  encode := length_encode
  copy d p c hc := by
    simp only [AbStore.copyAt,Option.bind_eq_some_iff,Option.map_eq_some_iff] at hc
    obtain ⟨bs,-,r,hr,rfl⟩ := hc
    cases hdec : DurableProof.decode bs with
    | error e => simp [AbRecord.decode,hdec,Except.toOption] at hr
    | ok q => exact length_of_decode hdec
  create d x h hv := by
    obtain ⟨i,-,hi,-⟩ := h x
    simp [hi] at hv
  begun d x i bs d' h _ hbs hb := by
    obtain ⟨n',hn,rfl⟩ := hb
    exact h.mapInode fun hs => hbs ▸ (hbs ▸ hs : (d.inodes i).Sized bs.length).rewriting hn
  held d x i bs n' h _ hbs hn := h.mapInode fun _ => hbs ▸ .ofHolds hn
  syncDir d dir h x := by
    obtain ⟨i,hd,hv,hs⟩ := h x
    refine ⟨i,?_,by rwa [Disk.volatile_syncDir],hs⟩
    simp only [Disk.volatile] at hv
    simp only [Disk.syncDir]
    split <;> assumption

/-- Bytes of the right size that are no A/B record fail their checksum, so they are an
invalid copy and never an unsupported one. -/
theorem judge_of_raw (hlen : bs.length = durableProofSize)
    (hraw : (RawGeneration.decode bs).toOption = none) : judge u bs = .ok none := by
  have hcrc := RawGeneration.decode_none (by simp [hlen,durableProofSize]) hraw "durable proof"
  have hdec : DurableProof.decode bs = .error (.BadChecksum "durable proof") := by
    simp only [DurableProof.decode,hlen,Nat.lt_irrefl,if_false,ne_eq,not_true_eq_false,hcrc]
    rfl
  simp only [judge,hdec]

def Good (u : BitVec 128) (n : ℕ) (p : DurableProof) : Prop :=
  p.volumeUuid = u ∧ n ≤ p.durableSequence

structure Ready (u : BitVec 128) (n : ℕ) (d : Disk) : Prop where
  anchored : ∃ x r, pair.Anchored Fits (Good u n) Follows (pair.shown d) d x r
  sized : Sized d

theorem copyOf_encode (h : p.Fits) (hu : p.volumeUuid = u) :
    copyOf u p.encode = .ok (some p) := by
  have hlen := length_encode p
  simp only [copyOf,hlen,ne_eq,not_true_eq_false,if_false,judge,decode_encode h,hu,if_true]

theorem copyOf_foreign (h : p.Fits) (hu : p.volumeUuid ≠ u) :
    copyOf u p.encode = .error (.Invalid "durable proof belongs to a different volume") := by
  have hlen := length_encode p
  simp only [copyOf,hlen,ne_eq,not_true_eq_false,if_false,judge,decode_encode h,hu]

theorem copyOf_rejects (hlen : bs.length = durableProofSize)
    (h : pair.Rejects DurableProof bs) : copyOf u bs = .ok none := by
  have hraw : (RawGeneration.decode bs).toOption = none := by
    rcases h with h | h | h
    · simp [hlen,durableProofSize] at h
    · exact absurd h (by simp [hlen,AbStore.bound,pair,AbRecord.maxEncodedLen])
    · exact h.2
  simp only [copyOf,hlen,ne_eq,not_true_eq_false,if_false,judge_of_raw hlen hraw]

theorem copyAt_of_image {p : Path} (h : d.image p = some bs) :
    copyAt u d p = copyOf u bs := by simp only [copyAt,h]

omit [Crc32] in
theorem Sized.image_length (h : Sized d) {x : Side}
    (hb : d.image (pair.path x) = some bs) : bs.length = durableProofSize := by
  obtain ⟨i,-,hv,hs⟩ := h x
  simp only [Disk.image,hv,Option.map_some,Option.some.injEq] at hb
  exact hb ▸ hs.image

omit [Crc32] in
/-- Selection does not depend on which side holds which copy, once the generations differ. -/
theorem select_of_lt {older newer : DurableProof} (hg : older.generation < newer.generation)
    (hf : newer.Follows older) :
    select (some older) (some newer) = .ok newer ∧ select (some newer) (some older) = .ok newer := by
  have hok := follows_iff.mpr hf
  constructor
  · simp only [select,Nat.ne_of_lt hg,false_and,if_false,Nat.le_of_lt hg,if_true,hok]
    rfl
  · simp only [select,(Nat.ne_of_lt hg).symm,false_and,if_false,Nat.not_le.mpr hg,hok]
    rfl

theorem loadAt_of_other_none (hx : copyAt u d (pair.path x) = .ok (some v))
    (ho : copyAt u d (pair.path x.other) = .ok none) : loadAt u d = .ok v := by
  cases x <;> simp_all [loadAt,AbStore.path,Side.other,bind,Except.bind,select]

theorem loadAt_of_lt {v' : DurableProof} (hx : copyAt u d (pair.path x) = .ok (some v))
    (ho : copyAt u d (pair.path x.other) = .ok (some v')) (hg : v'.generation < v.generation)
    (hf : v.Follows v') : loadAt u d = .ok v := by
  have hs := select_of_lt hg hf
  cases x with
  | a =>
    simp only [AbStore.path,Side.other] at hx ho
    simpa [loadAt,bind,Except.bind,hx,ho] using hs.2
  | b =>
    simp only [AbStore.path,Side.other] at hx ho
    simpa [loadAt,bind,Except.bind,hx,ho] using hs.1

/-- The loader agrees with the pair's own choice and refuses nothing. -/
theorem Ready.loadAt_eq (h : Ready u n d) :
    ∃ v, loadAt u d = .ok v ∧ pair.loadAt DurableProof d = some v ∧ Good u n v ∧ v.Fits := by
  obtain ⟨x,r,ha⟩ := h.anchored
  have hx : copyAt u d (pair.path x) = .ok (some r) := by
    rw [copyAt_of_image ha.settled.image_eq]
    exact copyOf_encode ha.fit ha.good.1
  have hab := laws.copyAt_encode ha.fit ha.settled.image_eq
  cases ho : d.image (pair.path x.other) with
  | none =>
    have hc : copyAt u d (pair.path x.other) = .ok none := by simp only [copyAt,ho]
    exact ⟨r,loadAt_of_other_none hx hc,AbStore.loadAt_of_other_none hab (AbStore.copyAt_absent ho),
      ha.good,ha.fit⟩
  | some bs =>
    have hlen := h.sized.image_length ho
    rcases ha.known bs ho with hr | ⟨r',hf',rfl,hb⟩
    · have hc : copyAt u d (pair.path x.other) = .ok none := by
        rw [copyAt_of_image ho,copyOf_rejects hlen hr]
      exact ⟨r,loadAt_of_other_none hx hc,
        AbStore.loadAt_of_other_none hab (AbStore.copyAt_rejects ho hr),ha.good,ha.fit⟩
    · have hab' := laws.copyAt_encode hf' ho
      have hu' : r'.volumeUuid = u := by
        rcases hb with ⟨-,hR⟩ | ⟨-,hR,-⟩
        · exact hR.1.symm.trans ha.good.1
        · exact hR.1.trans ha.good.1
      have hc : copyAt u d (pair.path x.other) = .ok (some r') := by
        rw [copyAt_of_image ho]
        exact copyOf_encode hf' hu'
      rcases hb with ⟨hlt,hR⟩ | ⟨hlt,hR,hp⟩
      · exact ⟨r,loadAt_of_lt hx hc hlt hR,AbStore.loadAt_of_lt hab hab' hlt,ha.good,ha.fit⟩
      · have hx' : copyAt u d (pair.path x.other.other) = .ok (some r) := by simpa using hx
        have habx : pair.copyAt DurableProof d (pair.path x.other.other) = some (r,AbRecord.encode r) := by
          simpa using hab
        exact ⟨r',loadAt_of_lt hc hx' hlt hR,AbStore.loadAt_of_lt hab' habx hlt,hp,hf'⟩

theorem Ready.uuid_of_load (h : Ready u n d) {w : BitVec 128}
    (hl : loadAt w d = .ok v) : w = u := by
  obtain ⟨x,r,ha⟩ := h.anchored
  by_contra hne
  have hx : copyAt w d (pair.path x) =
      .error (.Invalid "durable proof belongs to a different volume") := by
    rw [copyAt_of_image ha.settled.image_eq]
    exact copyOf_foreign ha.fit (fun hr => hne (hr.symm.trans ha.good.1))
  cases x with
  | a =>
    simp only [AbStore.path] at hx
    simp [loadAt,bind,Except.bind,hx] at hl
  | b =>
    simp only [AbStore.path] at hx
    cases hca : copyAt w d pair.a <;> simp [loadAt,bind,Except.bind,hx,hca] at hl

structure Words (p : DurableProof) : Prop where
  generation : p.generation < 2^64
  sequence : p.durableSequence < 2^64
  segment : p.segmentIndex < 2^64
  size : p.durableSize < 2^64

/-- What the checks of an advance establish about the candidate. -/
structure Accepted (u : BitVec 128) (n : ℕ) (d : Disk) (m : DurableProof) : Prop where
  fits : m.Fits
  current : ∃ v, pair.loadAt DurableProof d = some v ∧ m.Follows v ∧ Good u n v

section Advance

variable {m : DurableProof}

theorem Accepted.good (h : Accepted u n d m) : Good u n m := by
  obtain ⟨v,-,hf,hg⟩ := h.current
  exact ⟨hf.1.trans hg.1,Nat.le_trans hg.2 hf.sequence_le⟩

theorem Ready.checks_triple (h : Ready u n d) (hw : Words m) :
    Ends (· = (m,d)) advanceChecks (fun _ t => t = (m,d) ∧ Accepted u n d m)
      (· = (m,d)) := by
  unfold advanceChecks
  refine .get_bind ?_
  refine (Io.Checks.ofExcept m.validate).bind_triple (fun _ => rfl) rfl ?_
  intro _ hvalid
  refine (load_checks m.volumeUuid).bind_triple (fun _ => rfl) rfl ?_
  intro v hv
  refine (Io.Checks.ofExcept (m.follows v)).bind_triple (fun _ => rfl) rfl ?_
  intro _ hfol
  have hacc : Accepted u n d m := by
    obtain rfl := h.uuid_of_load hv
    obtain ⟨v',hl,hab,hg,-⟩ := h.loadAt_eq
    obtain rfl := Except.ok.inj (hl.symm.trans hv)
    exact ⟨⟨hw.generation,hw.sequence,hw.segment,hw.size,hvalid⟩,v',hab,follows_iff.mp hfol,hg⟩
  by_cases hgen : m.generation > v.generation
  · simp only [if_pos hgen]
    exact .throw fun _ ht => ht
  · simp only [if_neg hgen]
    cases checkedAdd v.generation 2 with
    | none => exact .throw fun _ ht => ht
    | some _ => exact .pure fun _ ht => ⟨ht,hacc⟩

theorem Ready.store_triple (h : Ready u n d) (hacc : Accepted u n d m) :
    Ends (· = (m,d)) (pair.storeAndSync DurableProof)
      (fun _ t => (t.1 = pair.stamped d m ∧ t.1.Fits ∧
        pair.Safe Fits (Good u n) Follows (pair.images d m) true t.2 ∧
        pair.Complete Fits Follows d t.2 t.1) ∧ Sized t.2)
      (fun t => pair.Safe Fits (Good u n) Follows (pair.images d m) true t.2 ∧ Sized t.2) := by
  have hR : ∀ v, pair.loadAt DurableProof d = some v → (pair.stamped d m).Follows v := by
    intro v hv
    obtain ⟨v',hv',hf,-⟩ := hacc.current
    obtain rfl := Option.some.inj (hv'.symm.trans hv)
    exact hf
  have hsafe : pair.Safe Fits (Good u n) Follows (pair.shown d) true d := .inr h.anchored
  exact ((hsafe.storeAndSync_triple laws hacc.fits hacc.good hR fun _ _ _ => Follows.trans).and
    (rewritable.storeAndSync_keeps h.sized)).strengthen (fun _ ht => ⟨ht,ht⟩)

theorem ready_of_complete {d₀ : Disk} {p : DurableProof}
    (h : pair.Complete Fits Follows d₀ d p) (hs : Sized d) (hu : p.volumeUuid = u) :
    Ready u p.durableSequence d ∧ pair.loadAt DurableProof d = some p := by
  obtain ⟨x,hx,-⟩ := h
  refine ⟨⟨⟨x,p,hx _ ⟨hu,Nat.le_refl _⟩⟩,hs⟩,?_⟩
  obtain ⟨v,hv,-,rfl⟩ := (hx (fun q => q = p) rfl).loadAt_good laws
  exact hv

theorem Ready.first_triple (h : Ready u n d) (hacc : Accepted u n d m) :
    Ends (· = (m,d)) advanceFirst
      (fun _ t => t.1 = pair.stamped d m ∧ Ready u m.durableSequence t.2 ∧
        Accepted u m.durableSequence t.2 t.1)
      (fun t => pair.Safe Fits (Good u n) Follows (pair.images d m) true t.2 ∧ Sized t.2) := by
  refine Triple.bind (h.store_triple hacc) ?_
  rintro _ fs ⟨m₁,d₁⟩ ⟨⟨rfl,hfit,hsafe,hcomp⟩,hsized⟩
  have hu : (pair.stamped d m).volumeUuid = u := hacc.good.1
  obtain ⟨hready,hload⟩ := ready_of_complete hcomp hsized hu
  have hacc₁ : Accepted u m.durableSequence d₁ (pair.stamped d m) :=
    ⟨hfit,_,hload,.refl _,hu,Nat.le_refl _⟩
  refine Triple.get_bind ?_ fs _ rfl
  refine (load_checks _).bind_triple (fun _ => ⟨hsafe,hsized⟩) ⟨hsafe,hsized⟩ ?_
  intro _ _
  exact Triple.pure fun _ ht => ht ▸ ⟨rfl,hready,hacc₁⟩

/-- The complete images of the store an advance was in: none but the visible ones while it
checks, then those of its first and of its second store. -/
def inFlight (fs : List Fault) (m : DurableProof) (d : Disk) : Side → Bytes → Prop :=
  match advanceChecks fs (m,d) with
  | (.ok _,fs₁,m₁,d₁) =>
    match advanceFirst fs₁ (m₁,d₁) with
    | (.ok _,_,m₂,d₂) => pair.images d₂ m₂
    | _ => pair.images d₁ m₁
  | _ => pair.shown d

/-- Both copies are durable and attest a horizon of at least `n`. -/
structure Mirrored (u : BitVec 128) (n : ℕ) (d : Disk) : Prop extends Ready u n d where
  copies : ∀ x, ∃ r : DurableProof, r.Fits ∧ Good u n r ∧ d.Settled (pair.path x) r.encode

/-- How an interrupted advance leaves the pair. -/
def Interrupted (u : BitVec 128) (n : ℕ) (K : Side → Bytes → Prop) (d : Disk) : Prop :=
  pair.Safe Fits (Good u n) Follows K true d ∧ Sized d

theorem mirrored_of_complete {d₀ : Disk} {p q : DurableProof}
    (h : pair.Complete Fits Follows d₀ d p) (hp : p.Fits) (hq : q.Fits)
    (hload : pair.loadAt DurableProof d₀ = some q) (hgp : Good u n p) (hgq : Good u n q) :
    Mirrored u n d := by
  obtain ⟨x,hx,hother⟩ := h
  have hxp := hx _ hgp
  have hcopies : ∀ y, ∃ r : DurableProof, r.Fits ∧ Good u n r ∧ d.Settled (pair.path y) r.encode := by
    intro y
    by_cases hy : y = x
    · subst hy
      exact ⟨p,hp,hgp,hxp.settled⟩
    · have hyo : y = x.other := by cases x <;> cases y <;> first | rfl | exact absurd rfl hy
      exact ⟨q,hq,hgq,hyo ▸ hother q hload⟩
  have hsized : Sized d := by
    intro y
    obtain ⟨r,-,-,i,hd,hv,hh⟩ := hcopies y
    exact ⟨i,hd,hv,length_encode r ▸ .ofHolds hh⟩
  exact ⟨⟨⟨x,p,hxp⟩,hsized⟩,hcopies⟩

/-- One advance, from a ready pair and whatever the environment decides. -/
theorem Ready.advanceCandidate_spec (h : Ready u n d) (hw : Words m) (fs : List Fault) :
    match advanceCandidate fs (m,d) with
    | (.ok _,_,_,d') => Mirrored u m.durableSequence d' ∧ n ≤ m.durableSequence
    | (.err _,_,_,d') => Interrupted u n (inFlight fs m d) d'
    | (.lost,_,_,d') => Interrupted u n (inFlight fs m d) d' := by
  have hstart : Interrupted u n (pair.shown d) d := ⟨.inr h.anchored,h.sized⟩
  have hchecks := h.checks_triple hw fs _ rfl
  simp only [advanceCandidate,inFlight,bind,Prog.bind]
  rcases hc : advanceChecks fs (m,d) with ⟨o,fs₁,m₁,d₁⟩
  rw [hc] at hchecks
  cases o with
  | err e => cases hchecks; exact hstart
  | lost => cases hchecks; exact hstart
  | ok _ =>
    obtain ⟨⟨⟩,hacc⟩ := hchecks
    have hfirst := h.first_triple hacc fs₁ _ rfl
    rcases hf : advanceFirst fs₁ (m,d) with ⟨o,fs₂,m₂,d₂⟩
    rw [hf] at hfirst
    cases o with
    | err e =>
      simp only [hf]
      exact hfirst
    | lost =>
      simp only [hf]
      exact hfirst
    | ok _ =>
      obtain ⟨hm,hready,hacc₂⟩ := hfirst
      have hle : n ≤ m.durableSequence := hacc.good.2
      have hsecond := hready.store_triple hacc₂ fs₂ _ rfl
      have hweak : ∀ {K d'}, pair.Safe Fits (Good u m.durableSequence) Follows K true d' ∧ Sized d' →
          Interrupted u n K d' := fun ht =>
        ⟨ht.1.mono fun _ hg => ⟨hg.1,Nat.le_trans hle hg.2⟩,ht.2⟩
      simp only [hf]
      rcases hs : pair.storeAndSync DurableProof fs₂ (m₂,d₂) with ⟨o,fs₃,m₃,d₃⟩
      rw [hs] at hsecond
      cases o with
      | err e => exact hweak hsecond
      | lost => exact hweak hsecond
      | ok _ =>
        obtain ⟨⟨hm₃,hfit,-,hcomp⟩,-⟩ := hsecond
        -- the copy the second store preserved is the newest one before it
        obtain ⟨v,-,hv,hgv,hfv⟩ := hready.loadAt_eq
        have hgood : Good u m.durableSequence m₃ := by
          rw [show m₃ = pair.stamped d₂ m₂ from hm₃]
          exact hacc₂.good
        exact ⟨mirrored_of_complete hcomp hfit hfv hv hgood hgv,hle⟩

theorem advance_eq (fs : List Fault) :
    advance fs (m,d) =
      match advanceCandidate fs (m,d) with
      | (.ok _,fs',m',d') => (.ok (),fs',m',d')
      | (.err e,fs',_,d') => (.err e,fs',m,d')
      | (.lost,fs',_,d') => (.lost,fs',m,d') := by
  simp only [advance,bind,Prog.bind,Prog.get,Io.withLocal,Prog.modify]
  rcases advanceCandidate fs (m,d) with ⟨o,fs',m',d'⟩
  cases o <;> rfl

theorem Ready.advance_spec (h : Ready u n d) (hw : Words m) (fs : List Fault) :
    match advance fs (m,d) with
    | (.ok _,_,_,d') => Mirrored u m.durableSequence d' ∧ n ≤ m.durableSequence
    | (.err _,_,_,d') => Interrupted u n (inFlight fs m d) d'
    | (.lost,_,_,d') => Interrupted u n (inFlight fs m d) d' := by
  have hc := h.advanceCandidate_spec hw fs
  rw [advance_eq]
  rcases hr : advanceCandidate fs (m,d) with ⟨o,fs',m',d'⟩
  rw [hr] at hc
  cases o <;> exact hc

end Advance

section Initialize

variable {z : μ}

theorem requireAbsent_reads (path : Path) :
    Returns (· = (z,d)) (requireAbsent u path) (fun _ t => t = (z,d)) := by
  refine (readCopy_checks path u).bind_triple (fun _ => trivial) trivial fun _ _ => ?_
  have hex : Returns (· = (z,d)) (formatIo (Io.exists_ path)) (fun _ t => t = (z,d)) :=
    Triple.mapErr (Io.hooked_triple (fun _ _ ht => ht) (fun _ _ _ _ => trivial) fun _ _ => trivial)
  refine .bind hex fun b => ?_
  cases b with
  | false => exact .pure fun _ ht => ht
  | true => exact .throw fun _ _ => trivial

omit [Crc32] in
theorem initial_fits (u : BitVec 128) : (DurableProof.initial u).Fits :=
  ⟨by simp [DurableProof.initial],by simp [DurableProof.initial],by simp [DurableProof.initial],
    by simp [DurableProof.initial],by simp [DurableProof.initial,validate]⟩

theorem Mirrored.syncDir (h : Mirrored u n d) (dir : Dir) : Mirrored u n (d.syncDir dir) where
  anchored := by
    obtain ⟨x,r,ha⟩ := h.anchored
    refine ⟨x,r,(ha.syncDir dir).rebase fun bs hb => ha.known bs ?_⟩
    simpa [AbStore.shown] using hb
  sized := rewritable.syncDir d dir h.sized
  copies x := by
    obtain ⟨r,hf,hg,hs⟩ := h.copies x
    exact ⟨r,hf,hg,hs.syncDir dir⟩

theorem initializeNew_triple (hwf : d.Wf) (hab : ∀ x i, ¬ d.Linked (pair.path x) i) :
    Returns (· = (z,d)) (initializeNew u) (fun _ t => Mirrored u 0 t.2) := by
  have hun : pair.Unanchored Fits (Good u 0) (pair.shown d) d := by
    refine ⟨hwf,hab .b,?_,fun i hi => absurd hi (hab .a i),fun i hi => absurd (.inr hi) (hab .a i)⟩
    intro bs hb
    obtain ⟨i,hi,-⟩ := Option.map_eq_some_iff.mp hb
    exact absurd (.inr hi) (hab .a i)
  have hnone : ∀ x, d.image (pair.path x) = none := by
    intro x
    cases hv : d.volatile (pair.path x) with
    | none => simp [Disk.image,hv]
    | some i => exact absurd (.inr hv) (hab x i)
  have hload : pair.loadAt DurableProof d = none := by
    have ha := AbStore.copyAt_absent (T := DurableProof) (s := pair) (hnone .a)
    have hb := AbStore.copyAt_absent (T := DurableProof) (s := pair) (hnone .b)
    simp only [AbStore.path] at ha hb
    simp [AbStore.loadAt,ha,hb,AbStore.newest]
  have hsafe : pair.Safe Fits (Good u 0) Follows (pair.shown d) false d := .inl ⟨rfl,hun⟩
  have hfirst := hsafe.storeAndSync_triple laws (initial_fits u)
    (⟨rfl,Nat.zero_le _⟩ : Good u 0 (pair.stamped d (DurableProof.initial u)))
    (fun v hv => by simp [hload] at hv) fun _ _ _ => Follows.trans
  have hboth : Returns (· = (DurableProof.initial u,d))
      (Prog.bind (pair.storeAndSync DurableProof) fun _ =>
        Prog.bind (pair.storeAndSync DurableProof) fun _ => formatIo (Io.syncDir .root))
      (fun _ t => Mirrored u 0 t.2) := by
    refine .bind (hfirst.weaken (fun _ _ ht => ht)
      (fun _ _ _ => trivial) fun _ _ => trivial) ?_
    rintro _ fs ⟨m₁,d₁⟩ ⟨hm₁,hfit₁,-,x,hx,-⟩
    have hgood₁ : Good u 0 m₁ := by
      rw [show m₁ = pair.stamped d (DurableProof.initial u) from hm₁]
      exact ⟨rfl,Nat.zero_le _⟩
    obtain ⟨v,hload₁,-,rfl⟩ := (hx (fun q => q = m₁) rfl).loadAt_good laws
    have hsafe₁ : pair.Safe Fits (Good u 0) Follows (pair.shown d₁) true d₁ := .inr ⟨x,v,hx _ hgood₁⟩
    have hsecond := hsafe₁.storeAndSync_triple laws hfit₁
      (hgood₁ : Good u 0 (pair.stamped d₁ v)) (fun w hw => by
        obtain rfl := Option.some.inj (hload₁.symm.trans hw)
        exact Follows.refl v) fun _ _ _ => Follows.trans
    have hmirrored : Returns (· = (v,d₁)) (pair.storeAndSync DurableProof)
        (fun _ t => Mirrored u 0 t.2) := by
      refine hsecond.weaken ?_ (fun _ _ _ => trivial) fun _ _ => trivial
      rintro _ ⟨m₂,d₂⟩ ⟨hm₂,hfit₂,-,hcomp⟩
      refine mirrored_of_complete hcomp hfit₂ hfit₁ hload₁ ?_ hgood₁
      rw [show m₂ = pair.stamped d₁ v from hm₂]
      exact hgood₁
    refine Triple.bind hmirrored (fun _ => ?_) fs _ rfl
    exact Triple.mapErr (Io.syncDir_triple (fun _ _ ht => ht.syncDir _) (fun _ _ => trivial)
      fun _ _ => trivial)
  have hdir : Returns (· = (z,d)) (formatIo (Io.createDirAll .journal))
      (fun _ t => t = (z,d)) :=
    Triple.mapErr (Io.hooked_triple (fun _ _ ht => ht) (fun _ _ _ _ => trivial) fun _ _ => trivial)
  have hlocal : Returns (· = (z,d)) (Io.withLocal (DurableProof.initial u)
      (Prog.bind (pair.storeAndSync DurableProof) fun _ =>
        Prog.bind (pair.storeAndSync DurableProof) fun _ => formatIo (Io.syncDir .root)))
      (fun _ t => Mirrored u 0 t.2) := Io.withLocal_triple hboth
  exact .bind (requireAbsent_reads pair.a) fun _ =>
    Triple.bind (requireAbsent_reads pair.b) fun _ => .bind hdir fun _ =>
      Triple.bind hlocal fun _ => .pure fun _ ht => ht

end Initialize

/-- The bytes do not decode, and not because their version is unsupported. -/
def Damaged (u : BitVec 128) (bs : Bytes) : Prop :=
  (DurableProof.decode bs).toOption = none ∧ ∀ what, copyOf u bs ≠ .error (.Unsupported what)

theorem Damaged.copyOf_eq (h : Damaged u bs) : copyOf u bs = .ok none := by
  obtain ⟨hdec,huns⟩ := h
  unfold copyOf at huns ⊢
  by_cases hlen : bs.length ≠ durableProofSize
  · rw [if_pos hlen] at huns ⊢
    by_cases hl : bs.length ≥ 12
    · rw [if_pos hl] at huns ⊢
      by_cases hv : (bs.take 12).take 8 = durableProofMagic ∧
          leNat (((bs.take 12).drop 8).take 4) ≠ durableProofVersion
      · exact absurd (if_pos hv) (huns _)
      · exact if_neg hv
    · exact if_neg hl
  · rw [if_neg hlen] at huns ⊢
    unfold judge at huns ⊢
    cases hd : DurableProof.decode bs with
    | ok p => simp [hd,Except.toOption] at hdec
    | error e =>
      cases e with
      | Unsupported what => exact absurd (by simp only [hd]) (huns what)
      | _ => rfl

theorem Mirrored.load_without {d' : Disk} (h : Mirrored u n d)
    (hkept : d'.image (pair.path x.other) = d.image (pair.path x.other))
    (hlost : ∀ bs, d'.image (pair.path x) = some bs → Damaged u bs) :
    ∃ p, loadAt u d' = .ok p ∧ n ≤ p.durableSequence := by
  obtain ⟨r,hf,hg,hs⟩ := h.copies x.other
  have hx : copyAt u d' (pair.path x.other) = .ok (some r) := by
    rw [copyAt_of_image (hkept.trans hs.image_eq)]
    exact copyOf_encode hf hg.1
  have ho : copyAt u d' (pair.path x.other.other) = .ok none := by
    rw [Side.other_other]
    cases hi : d'.image (pair.path x) with
    | none => simp only [copyAt,hi]
    | some bs => rw [copyAt_of_image hi,(hlost bs hi).copyOf_eq]
  exact ⟨r,loadAt_of_other_none hx ho,hg.2⟩

theorem Interrupted.visible {K : Side → Bytes → Prop} (h : Interrupted u n K d)
    (hi : pair.Intact DurableProof K d d) : Ready u n d := by
  rcases h.1.visible hi with ⟨hd,-⟩ | ha
  · cases hd
  · exact ⟨ha,h.2⟩

theorem Interrupted.crash {K : Side → Bytes → Prop} {tearing : Option ℕ} {c : CrashChoice}
    (h : Interrupted u n K d) (hi : pair.Intact DurableProof K d (d.crash tearing c)) :
    Ready u n (d.crash tearing c) := by
  rcases h.1.crash hi with ⟨hd,-⟩ | ha
  · cases hd
  · exact ⟨ha,h.2.crash tearing c⟩

/-- The disk and the sequence of the last acknowledged advance. -/
structure History where
  disk : Disk
  acked : ℕ := 0

/-- One event of a volume's horizon. A failing call and a crash come with the assumption
that CRC-32 rejects torn images of the store that was in flight. -/
inductive Step (tearing : Option ℕ) : History → History → Prop
  | advanced {h : History} {m m' : DurableProof} {fs rest : List Fault} {d' : Disk} (hw : Words m)
      (hrun : advance fs (m,h.disk) = (.ok (),rest,m',d')) :
      Step tearing h ⟨d',m.durableSequence⟩
  | failed {h : History} {m m' : DurableProof} {fs rest : List Fault} {d' : Disk} {e : FormatError}
      (hw : Words m) (hrun : advance fs (m,h.disk) = (.err e,rest,m',d'))
      (hcrc : pair.Intact DurableProof (inFlight fs m h.disk) d' d') : Step tearing h ⟨d',h.acked⟩
  | cut {h : History} {m m' : DurableProof} {fs rest : List Fault} {d' : Disk} {c : CrashChoice}
      (hw : Words m) (hrun : advance fs (m,h.disk) = (.lost,rest,m',d'))
      (hcrc : pair.Intact DurableProof (inFlight fs m h.disk) d' (d'.crash tearing c)) :
      Step tearing h ⟨d'.crash tearing c,h.acked⟩
  | crashed {h : History} {c : CrashChoice}
      (hcrc : pair.Intact DurableProof (pair.shown h.disk) h.disk (h.disk.crash tearing c)) :
      Step tearing h ⟨h.disk.crash tearing c,h.acked⟩

/-- Every run of a volume's horizon, from its initialization in a new namespace. -/
inductive Run (u : BitVec 128) (tearing : Option ℕ) : History → Prop
  | start {d d' : Disk} {fs rest : List Fault} {p : DurableProof} (hwf : d.Wf)
      (hab : ∀ x i, ¬ d.Linked (pair.path x) i)
      (hrun : initializeNew u fs ((),d) = (.ok p,rest,(),d')) : Run u tearing ⟨d',0⟩
  | step {h h' : History} : Run u tearing h → Step tearing h h' → Run u tearing h'

section Run

variable {tearing : Option ℕ} {h h' : History}

theorem step_ready (hs : Step tearing h h') (hr : Ready u h.acked h.disk) :
    Ready u h'.acked h'.disk := by
  cases hs with
  | @advanced m m' fs rest d' hw hrun =>
    have ha := hr.advance_spec hw fs
    rw [hrun] at ha
    exact ha.1.toReady
  | @failed m m' fs rest d' e hw hrun hcrc =>
    have ha := hr.advance_spec hw fs
    rw [hrun] at ha
    exact ha.visible hcrc
  | @cut m m' fs rest d' c hw hrun hcrc =>
    have ha := hr.advance_spec hw fs
    rw [hrun] at ha
    exact ha.crash hcrc
  | crashed hcrc =>
    have hi : Interrupted u h.acked (pair.shown h.disk) h.disk := ⟨.inr hr.anchored,hr.sized⟩
    exact hi.crash hcrc

theorem run_ready (hr : Run u tearing h) : Ready u h.acked h.disk := by
  induction hr with
  | @start d d' fs rest p hwf hab hrun =>
    have hi := initializeNew_triple (u := u) (z := ()) hwf hab fs _ rfl
    rw [hrun] at hi
    exact hi.toReady
  | step _ hs ih => exact step_ready hs ih

/-- After any run the loader succeeds at or above the last acknowledged horizon, and right
after an advance that returned it does so with either copy deleted or damaged. -/
theorem horizon_survives {z : μ} (hr : Run u tearing h) :
    (∃ p, load u [] (z,h.disk) = (.ok p,[],z,h.disk) ∧ h.acked ≤ p.durableSequence) ∧
      ∀ fs m rest m' d', Words m → advance fs (m,h.disk) = (.ok (),rest,m',d') →
        ∀ x d'', d''.image (pair.path x.other) = d'.image (pair.path x.other) →
          (∀ bs, d''.image (pair.path x) = some bs → Damaged u bs) →
          ∃ p, load u [] (z,d'') = (.ok p,[],z,d'') ∧ m.durableSequence ≤ p.durableSequence := by
  have hready := run_ready hr
  constructor
  · obtain ⟨v,hv,-,hg,-⟩ := hready.loadAt_eq
    exact ⟨v,by rw [(load_checks u).quiet,hv],hg.2⟩
  · intro fs m rest m' d' hw hrun x d'' hkept hlost
    have ha := hready.advance_spec hw fs
    rw [hrun] at ha
    obtain ⟨p,hp,hle⟩ := ha.1.load_without hkept hlost
    exact ⟨p,by rw [(load_checks u).quiet,hp],hle⟩

end Run

end Horizon

section Torn

/-! A volume's horizon is initialized and advanced; power is lost before the sync of the
next advance's first store and the crash tears its write. -/

local instance : Crc32 := Crc32.ieee

@[irreducible] def created : Outcome FormatError DurableProof × List Fault × Unit × Disk :=
  initializeNew 7 [] ((),{})

@[irreducible] def firstAdvance : Outcome FormatError Unit × List Fault × DurableProof × Disk :=
  advance [] (⟨2,7,1,1,100⟩,created.2.2.2)

def cutFaults : List Fault := List.replicate 26 .none ++ [.crash]

@[irreducible] def cutAdvance : Outcome FormatError Unit × List Fault × DurableProof × Disk :=
  advance cutFaults (⟨4,7,2,1,200⟩,firstAdvance.2.2.2)

def tornChoice : CrashChoice := { keep := fun _ => true, fate := fun _ _ => .tornHead 1 }

theorem cutAdvance_intact :
    pair.Intact DurableProof (inFlight cutFaults ⟨4,7,2,1,200⟩ firstAdvance.2.2.2)
      cutAdvance.2.2.2 (cutAdvance.2.2.2.crash (some 17) tornChoice) := by
  intro x bs hb
  cases x with
  | a =>
    have hrej : ∀ bs ∈ (cutAdvance.2.2.2.crash (some 17) tornChoice).image (pair.path .a),
        (DurableProof.decode bs).toOption = none ∧ (RawGeneration.decode bs).toOption = none := by
      decide +kernel
    exact .inr (.inr (.inr (.inr (hrej bs hb))))
  | b =>
    have hname : (cutAdvance.2.2.2.names (pair.path .b)).durable = some 2 := by decide +kernel
    have hdur : some (cutAdvance.2.2.2.inodes 2).durable =
        (cutAdvance.2.2.2.crash (some 17) tornChoice).image (pair.path .b) := by decide +kernel
    exact .inl ⟨2,.inl hname,Option.some.inj (hdur.trans hb)⟩

theorem firstAdvance_run : Run 7 (some 17) ⟨firstAdvance.2.2.2,1⟩ := by
  have hcreated : created.1 = .ok ⟨2,7,0,0,0⟩ := by decide +kernel
  have hfirst : firstAdvance.1 = .ok () := by decide +kernel
  have hinit : created = initializeNew 7 [] ((),{}) := by unfold created; rfl
  have hadv : firstAdvance = advance [] (⟨2,7,1,1,100⟩,created.2.2.2) := by unfold firstAdvance; rfl
  have hstart : Run 7 (some 17) ⟨created.2.2.2,0⟩ :=
    .start ⟨fun _ _ _ h => by simp [Disk.Linked] at h,fun _ _ h => by simp [Disk.Linked] at h⟩
      (fun _ _ h => by simp [Disk.Linked] at h) (hinit.symm.trans (Prog.eq_of_outcome created hcreated))
  have hw : Words ⟨2,7,1,1,100⟩ := ⟨by decide,by decide,by decide,by decide⟩
  exact hstart.step (.advanced hw
    (hadv.symm.trans (Prog.eq_of_outcome firstAdvance hfirst)))

theorem cutAdvance_run : Run 7 (some 17) ⟨cutAdvance.2.2.2.crash (some 17) tornChoice,1⟩ := by
  have hcut : cutAdvance.1 = .lost := by decide +kernel
  have hadv : cutAdvance = advance cutFaults (⟨4,7,2,1,200⟩,firstAdvance.2.2.2) := by
    unfold cutAdvance; rfl
  have hw : Words ⟨4,7,2,1,200⟩ := ⟨by decide,by decide,by decide,by decide⟩
  exact firstAdvance_run.step (.cut hw
    (hadv.symm.trans (Prog.eq_of_outcome cutAdvance hcut)) cutAdvance_intact)

theorem horizon_survives_torn_advance :
    ∃ p, load 7 [] ((),cutAdvance.2.2.2.crash (some 17) tornChoice) =
      (.ok p,[],(),cutAdvance.2.2.2.crash (some 17) tornChoice) ∧ 1 ≤ p.durableSequence :=
  (horizon_survives cutAdvance_run).1

end Torn

end DurableProofStore
end Maki
