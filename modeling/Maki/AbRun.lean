import Maki.CheckpointState

/-! Runs of an A/B pair. A client stores records and syncs the directory after each
store; any call may fail and power may be lost at any of them. Once one store has
completed, a load returns the record of the last completed store or of a later one. -/
namespace Maki

open Prog hiding pure bind throw get modify
namespace AbStore

open AbRecord

section Pair

variable {T : Type} [AbRecord T] [Crc32]
variable {s : AbStore} {fits P Q : T → Prop} {d : Disk} {x : Side}

section Store

variable {R : T → T → Prop} {r m : T}

/-- The record is the anchor, whatever else was good before, and the record that was the
newest in `d₀` is settled beside it. -/
def Complete (s : AbStore) (fits : T → Prop) (R : T → T → Prop) (d₀ d : Disk) (r : T) : Prop :=
  ∃ x, (∀ Q : T → Prop, Q r → s.Anchored fits Q R (s.shown d) d x r) ∧
    ∀ v, s.loadAt T d₀ = some v → d.Settled (s.path x.other) (encode v)

/-- A store that returned is complete once the directory is synced. -/
def Finished (s : AbStore) (fits : T → Prop) (R : T → T → Prop) (d₀ d : Disk) (r : T) : Prop :=
  s.Complete fits R d₀ (d.syncDir s.a.parent) r

omit [Crc32] in
theorem publish_eq (s : AbStore) (target : Side) (n : ℕ) (d : Disk) (fs : List Fault) :
    s.publish T target n fs (m,d) =
      let next := max n (generation m) + 1
      if next < 2^64 then
        overwrite (s.path target) (encode (setGeneration next m)) fs (setGeneration next m,d)
      else (.err (.Invalid
        "A/B record generation space exhausted (near u64::MAX); refusing to store"),fs,m,d) := by
  by_cases hs : max n (generation m) + 1 < 2^64
  · have hc : checkedAdd (max n (generation m)) 1 = some (max n (generation m) + 1) := if_pos hs
    simp only [publish,bind,Prog.bind,Prog.get,hc,Prog.modify,if_pos hs]
  · have hc : checkedAdd (max n (generation m)) 1 = none := if_neg hs
    simp only [publish,bind,Prog.bind,Prog.get,hc,Prog.throw,if_neg hs]

omit [Crc32] in
/-- Publishing either finds the generations exhausted or overwrites the target. -/
theorem publish_triple_of {target : Side} {n : ℕ} {ok : Unit → T × Disk → Prop}
    {err : FormatError → T × Disk → Prop} {lost : T × Disk → Prop} (hfull : ∀ e, err e (m,d))
    (hover : max n (generation m) + 1 < 2^64 →
      Triple (fun t => t = (setGeneration (max n (generation m) + 1) m,d))
        (overwrite (s.path target) (encode (setGeneration (max n (generation m) + 1) m))) ok err lost) :
    Triple (· = (m,d)) (s.publish T target n) ok err lost := by
  rintro fs _ rfl
  rw [publish_eq]
  by_cases hs : max n (generation m) + 1 < 2^64
  · exact (if_pos hs).symm ▸ hover hs fs _ rfl
  · exact (if_neg hs).symm ▸ hfull _

variable {K : Side → Bytes → Prop} {d₀ : Disk} {done : Bool}

theorem Anchored.finished {rn : T} (L : s.Laws fits)
    (h : s.Anchored fits P R K d x r) (hload : s.loadAt T d₀ = some r) (hf : fits rn)
    (hg : generation r < generation rn) (hr : R rn r) (hpl : s.Placed d x.other rn) :
    s.Finished fits R d₀ d rn := by
  obtain ⟨i,hi,hh⟩ := hpl
  have hs : (d.syncDir s.a.parent).Settled (s.path x.other) (encode rn) := by
    rw [← L.parent_path x.other]
    exact .of_syncDir hi hh
  have hbehind := h.settled.syncDir s.a.parent
  refine ⟨x.other,fun Q hq => (h.syncDir s.a.parent).move L hs hf hq hg hr ?_,?_⟩
  · intro bs hbs
    obtain rfl := Option.some.inj (hbehind.image_eq.symm.trans hbs)
    exact .inr ⟨r,h.fit,rfl,.inl ⟨hg,hr⟩⟩
  · intro v hv
    obtain rfl := Option.some.inj (hload.symm.trans hv)
    rwa [Side.other_other]

theorem Guarded.publish_triple (L : s.Laws fits)
    (h : s.Guarded fits P R K d x r) (hload : s.loadAt T d₀ = some r) (hf : fits m)
    (hg : generation r < s.stamp d₀ m) (hp : P (s.stamped d₀ m)) (hR : R (s.stamped d₀ m) r) :
    Ends (· = (m,d))
      (s.publish T x.other
        (max ((rawAt d₀ s.a (s.bound T)).getD 0) ((rawAt d₀ s.b (s.bound T)).getD 0)))
      (fun _ t => t.1 = s.stamped d₀ m ∧ fits t.1 ∧ s.Anchored fits P R K t.2 x r ∧
        s.Finished fits R d₀ t.2 t.1)
      (fun t => s.Anchored fits P R K t.2 x r) := by
  apply publish_triple_of (fun _ => h.toAnchored)
  intro hs
  have hgen : generation (s.stamped d₀ m) = s.stamp d₀ m := L.generation_set m _
  have hfit : fits (s.stamped d₀ m) := L.fits_set m _ hf hs
  have hlt : generation r < generation (s.stamped d₀ m) := hgen ▸ hg
  refine (h.overwrite_triple L hfit (.inr ⟨hlt,hR,hp⟩)).weaken ?_
    (fun _ _ ht => ht.2) (fun _ ht => ht.2)
  rintro _ t ⟨hm,ha,hpl⟩
  exact ⟨hm,hm ▸ hfit,ha,hm ▸ ha.finished L hload hfit hlt hR hpl⟩

/-- After its reads a store preserves the side beside its target and publishes. -/
theorem store_triple_of_reads {ok : Unit → T × Disk → Prop} {err : FormatError → T × Disk → Prop}
    {lost : T × Disk → Prop} (herr : ∀ e, err e (m,d)) (hlost : lost (m,d))
    (h : Triple (· = (m,d))
      (Prog.bind (preserveCopy T (s.path (s.targetAt T d).other)
          (s.copyAt T d (s.path (s.targetAt T d).other)))
        fun _ => s.publish T (s.targetAt T d)
          (max ((rawAt d s.a (s.bound T)).getD 0) ((rawAt d s.b (s.bound T)).getD 0)))
      ok err lost) : Triple (· = (m,d)) (s.store T) ok err lost := by
  have hpreserved : (if s.targetAt T d = .a then s.copyAt T d s.b else s.copyAt T d s.a) =
      s.copyAt T d (s.path (s.targetAt T d).other) := by
    cases s.targetAt T d <;> rfl
  refine (s.generations_reads T).bind_triple herr hlost ?_
  refine (s.readCopy_reads T s.a).bind_triple herr hlost ?_
  refine (s.readCopy_reads T s.b).bind_triple herr hlost ?_
  rw [← hpreserved] at h
  exact h

/-- A store on an anchored pair: the pair stays anchored however the call ends, and a
store that returns leaves the record in place. -/
theorem Anchored.store_triple (L : s.Laws fits) (h : s.Anchored fits P R (s.shown d) d x r)
    (hf : fits m) (hp : P (s.stamped d m)) (hR : ∀ v, s.loadAt T d = some v → R (s.stamped d m) v)
    (htrans : ∀ a b c, R a b → R b c → R a c) :
    Ends (· = (m,d)) (s.store T)
      (fun _ t => t.1 = s.stamped d m ∧ fits t.1 ∧
        (∃ y v, s.Anchored fits P R (s.images d m) t.2 y v) ∧ s.Finished fits R d t.2 t.1)
      (fun t => ∃ y v, s.Anchored fits P R (s.images d m) t.2 y v) := by
  -- the record about to be written is newer than everything that is visible
  have hnew : ∀ v, generation v < s.stamp d m → R (s.stamped d m) v →
      Beside P R v (s.stamped d m) := fun v hg hr =>
    .inr ⟨(L.generation_set m _).symm ▸ hg,hr,hp⟩
  have himages : ∀ (z : Side) (v : T), generation v < s.stamp d m → R (s.stamped d m) v →
      (∀ bs, s.shown d z bs → s.Fine fits (Beside P R v) bs) →
      ∀ bs, s.images d m z bs → s.Fine fits (Beside P R v) bs := by
    rintro z v hg hr hz bs (hb | ⟨hs,rfl⟩)
    · exact hz bs hb
    · exact .inr ⟨_,L.fits_set m _ hf hs,rfl,hnew v hg hr⟩
  rcases h.newest L with hn | ⟨v,hn,hpv,hg,hr⟩
  · have hlt := hn.lt_stamp L m
    have hRn := hR r (hn.loadAt_eq L)
    have h' := h.rebase (himages x.other r hlt hRn h.known)
    apply store_triple_of_reads (fun _ => ⟨x,r,h'⟩) ⟨x,r,h'⟩
    rw [hn.targetAt_eq L,Side.other_other,hn.copyAt_eq L]
    refine .bind ((h'.preserve_anchor L hn).weaken (fun _ _ ht => ht)
      (fun _ _ ht => ⟨x,r,ht.2⟩) (fun _ ht => ⟨x,r,ht.2⟩)) ?_
    rintro _ fs ⟨_,d'⟩ ⟨rfl,hgd⟩
    exact (hgd.publish_triple L (hn.loadAt_eq L) hf hlt hp hRn).weaken
        (fun _ _ ht => ⟨ht.1,ht.2.1,⟨x,r,ht.2.2.1⟩,ht.2.2.2⟩) (fun _ _ ht => ⟨x,r,ht⟩)
      (fun _ ht => ⟨x,r,ht⟩) fs _ rfl
  · have hlt := hn.lt_stamp L m
    have hRn := hR v (hn.loadAt_eq L)
    have hRr := htrans _ _ _ hRn hr
    have h' := h.rebase (himages x.other r (by omega) hRr h.known)
    have hbehind : ∀ bs, s.shown d x bs → s.Fine fits (Beside P R v) bs := by
      intro bs hb
      obtain rfl := Option.some.inj (h.settled.image_eq.symm.trans hb)
      exact .inr ⟨r,h.fit,rfl,.inl ⟨hg,hr⟩⟩
    apply store_triple_of_reads (fun _ => ⟨x,r,h'⟩) ⟨x,r,h'⟩
    rw [hn.targetAt_eq L,Side.other_other,hn.copyAt_eq L]
    refine .bind ((h'.preserve_other L hn hpv hg hr (himages x v hlt hRn hbehind)).weaken
        (fun _ _ ht => ht) (fun _ _ ht => ⟨x,r,ht.2⟩) (fun _ ht => ⟨x,r,ht.2⟩)) ?_
    rintro _ fs ⟨_,d'⟩ ⟨rfl,hgd⟩
    exact (hgd.publish_triple L (hn.loadAt_eq L) hf hlt hp hRn).weaken
        (fun _ _ ht => ⟨ht.1,ht.2.1,⟨x.other,v,ht.2.2.1⟩,ht.2.2.2⟩)
      (fun _ _ ht => ⟨x.other,v,ht⟩) (fun _ ht => ⟨x.other,v,ht⟩) fs _ rfl

theorem Unanchored.finished {rn : T}
    (h : s.Unanchored fits P K d) (hload : s.loadAt T d₀ = none) (hf : fits rn)
    (hpl : s.Placed d .a rn) : s.Finished fits R d₀ d rn := by
  obtain ⟨i,hi,hh⟩ := hpl
  have hsync := h.syncDir s.a.parent
  refine ⟨.a,fun Q hq => hsync.anchor (.of_syncDir hi hh) hf hq ?_,?_⟩
  · intro bs hbs
    simp only [shown,path,hsync.image_b,reduceCtorEq] at hbs
  · intro v hv
    simp only [hload,reduceCtorEq] at hv

/-- Writing side `a` when nothing is on side `b`. -/
theorem Unanchored.publish_triple (L : s.Laws fits)
    (h : s.Unanchored fits P K d) (hload : s.loadAt T d₀ = none) (hf : fits m)
    (hp : P (s.stamped d₀ m)) :
    Ends (· = (m,d))
      (s.publish T .a
        (max ((rawAt d₀ s.a (s.bound T)).getD 0) ((rawAt d₀ s.b (s.bound T)).getD 0)))
      (fun _ t => t.1 = s.stamped d₀ m ∧ fits t.1 ∧ s.Unanchored fits P K t.2 ∧
        s.Finished fits R d₀ t.2 t.1)
      (fun t => s.Unanchored fits P K t.2) := by
  apply publish_triple_of (fun _ => h)
  intro hs
  have hfit : fits (s.stamped d₀ m) := L.fits_set m _ hf hs
  have hbegun : ∀ {d : Disk} {i : InodeId} (d' : Disk), s.Unanchored fits P K d →
      d.volatile s.a = some i → d.Begun i (encode (s.stamped d₀ m)) d' →
      s.Unanchored fits P K d' := by
    rintro d i _ hu hi ⟨n',hn,rfl⟩
    exact hu.mapInode hi (hn.durable_eq ▸ hu.durable i hi)
  have hplaced : ∀ {d : Disk} {i : InodeId} {n' : Inode}, s.Unanchored fits P K d →
      d.volatile s.a = some i → n'.Holds (encode (s.stamped d₀ m)) →
      s.Unanchored fits P K (d.mapInode i fun _ => n') ∧
        s.Placed (d.mapInode i fun _ => n') .a (s.stamped d₀ m) := fun hu hi hh =>
    ⟨hu.mapInode hi (.inr ⟨_,hfit,hh.durable,hp⟩),_,hi,by simpa using hh⟩
  have hcall := AbStore.overwrite_triple (m := s.stamped d₀ m) (p := s.a) (L.nonempty _ hfit)
    (J := fun d' => s.Unanchored fits P K d') h (fun i d' hi hd => hbegun d' h hi hd)
    (fun d' hv hd => hbegun d' (h.create L hv) (Disk.volatile_create _ _) hd)
  refine hcall.weaken ?_ (fun _ _ ht => ht.2) (fun _ ht => ht.2)
  rintro _ t ⟨hm,n',hh,hcase⟩
  obtain ⟨hu,hpl⟩ : s.Unanchored fits P K t.2 ∧ s.Placed t.2 .a (s.stamped d₀ m) := by
    rcases hcase with ⟨i,hi,ht⟩ | ⟨hv,ht⟩
    · exact ht ▸ hplaced h hi hh
    · exact ht ▸ hplaced (h.create L hv) (Disk.volatile_create _ _) hh
  exact ⟨hm,hm ▸ hfit,hu,hm ▸ hu.finished hload hfit hpl⟩

/-- The pair between two calls: anchored, or not yet when no store has completed. -/
def Safe (s : AbStore) (fits P : T → Prop) (R : T → T → Prop) (K : Side → Bytes → Prop)
    (done : Bool) (d : Disk) : Prop :=
  (done = false ∧ s.Unanchored fits P K d) ∨ ∃ x r, s.Anchored fits P R K d x r

theorem Unanchored.store_triple (L : s.Laws fits) (h : s.Unanchored fits P (s.shown d) d)
    (hf : fits m) (hp : P (s.stamped d m)) (hR : ∀ v, s.loadAt T d = some v → R (s.stamped d m) v) :
    Ends (· = (m,d)) (s.store T)
      (fun _ t => t.1 = s.stamped d m ∧ fits t.1 ∧ s.Safe fits P R (s.images d m) false t.2 ∧
        s.Finished fits R d t.2 t.1)
      (fun t => s.Safe fits P R (s.images d m) false t.2) := by
  have h' : s.Unanchored fits P (s.images d m) d := { h with
    known := by
      rintro bs (hb | ⟨hs,rfl⟩)
      · exact h.known bs hb
      · exact .inr ⟨_,L.fits_set m _ hf hs,rfl,hp⟩ }
  have hb : s.copyAt T d s.b = none := copyAt_absent h.image_b
  apply store_triple_of_reads (fun _ => .inl ⟨rfl,h'⟩) (.inl ⟨rfl,h'⟩)
  rcases L.copyAt_cases h.known with ha | ⟨v,hfv,hpv,himg,ha⟩
  · -- nothing to preserve: side `a` is the target
    have ha' : s.copyAt T d s.a = none := ha
    have ht : s.targetAt T d = .a := by simp [targetAt,ha',targetFor]
    have hload : s.loadAt T d = none := by simp [loadAt,ha',hb,newest]
    rw [ht]
    simp only [Side.other,path,hb,preserveCopy]
    exact (h'.publish_triple L hload hf hp).weaken (fun _ _ ht => ⟨ht.1,ht.2.1,.inl
        ⟨rfl,ht.2.2.1⟩,ht.2.2.2⟩) (fun _ _ ht => .inl ⟨rfl,ht⟩)
      (fun _ ht => .inl ⟨rfl,ht⟩)
  · have hn : s.Newest fits d .a v := ⟨hfv,himg,fun c hc => by simp [path,Side.other,hb] at hc⟩
    have hlt := hn.lt_stamp L m
    have hRn := hR v (hn.loadAt_eq L)
    have hk : ∀ bs, s.images d m .b bs → s.Fine fits (Beside P R v) bs := by
      rintro bs (hbs | ⟨hs,rfl⟩)
      · simp only [shown,path,h.image_b,reduceCtorEq] at hbs
      · exact .inr ⟨_,L.fits_set m _ hf hs,rfl,
          .inr ⟨(L.generation_set m _).symm ▸ hlt,hRn,hp⟩⟩
    rw [hn.targetAt_eq L,Side.other_other,hn.copyAt_eq L]
    refine .bind ((h'.preserve_a L hn hpv hk).weaken (fun _ _ ht => ht)
      (fun _ _ ht => .inl ⟨rfl,ht.2⟩) (fun _ ht => .inl ⟨rfl,ht.2⟩)) ?_
    rintro _ fs ⟨_,d'⟩ ⟨rfl,hgd⟩
    exact (hgd.publish_triple L (hn.loadAt_eq L) hf hlt hp hRn).weaken
        (fun _ _ ht => ⟨ht.1,ht.2.1,.inr ⟨.a,v,ht.2.2.1⟩,ht.2.2.2⟩) (fun _ _ ht => .inr ⟨.a,v,ht⟩)
      (fun _ ht => .inr ⟨.a,v,ht⟩) fs _ rfl

theorem Safe.store_triple (L : s.Laws fits)
    (h : s.Safe fits P R (s.shown d) done d) (hf : fits m) (hp : P (s.stamped d m))
    (hR : ∀ v, s.loadAt T d = some v → R (s.stamped d m) v)
    (htrans : ∀ a b c, R a b → R b c → R a c) :
    Ends (· = (m,d)) (s.store T)
      (fun _ t => t.1 = s.stamped d m ∧ fits t.1 ∧ s.Safe fits P R (s.images d m) done t.2 ∧
        s.Finished fits R d t.2 t.1)
      (fun t => s.Safe fits P R (s.images d m) done t.2) := by
  rcases h with ⟨rfl,h⟩ | ⟨x,r,h⟩
  · exact h.store_triple L hf hp hR
  · exact (h.store_triple L hf hp hR htrans).weaken (fun _ _ ht =>
      ⟨ht.1,ht.2.1,.inr ht.2.2.1,ht.2.2.2⟩) (fun _ _ ht => .inr ht)
      (fun _ ht => .inr ht)

theorem Safe.syncDir (h : s.Safe fits P R K done d)
    (dir : Dir) : s.Safe fits P R K done (d.syncDir dir) := by
  rcases h with ⟨hd,h⟩ | ⟨x,r,h⟩
  · exact .inl ⟨hd,h.syncDir dir⟩
  · exact .inr ⟨x,r,h.syncDir dir⟩

/-- A store and the directory sync its caller owes it. -/
def storeAndSync (T : Type) [AbRecord T] (s : AbStore) : Io T FormatError Unit := do
  s.store T
  formatIo (Io.syncDir s.a.parent)

/-- The record a completed call stored is the anchor; a call that fails or is cut short
leaves the pair safe. -/
theorem Safe.storeAndSync_triple (L : s.Laws fits)
    (h : s.Safe fits P R (s.shown d) done d) (hf : fits m) (hp : P (s.stamped d m))
    (hR : ∀ v, s.loadAt T d = some v → R (s.stamped d m) v)
    (htrans : ∀ a b c, R a b → R b c → R a c) :
    Ends (· = (m,d)) (s.storeAndSync T)
      (fun _ t => t.1 = s.stamped d m ∧ fits t.1 ∧ s.Safe fits P R (s.images d m) done t.2 ∧
        s.Complete fits R d t.2 t.1)
      (fun t => s.Safe fits P R (s.images d m) done t.2) := by
  refine .bind (h.store_triple L hf hp hR htrans) fun _ => ?_
  apply Triple.mapErr
  apply Io.syncDir_triple
  · exact fun m' d' ht => ⟨ht.1,ht.2.1,ht.2.2.1.syncDir _,ht.2.2.2⟩
  · exact fun _ ht => ht.2.2.1
  · exact fun _ ht => ht.2.2.1

/-- A property of the disk that rewriting the pair's files with images of a kind keeps. -/
structure Rewritable (T : Type) [AbRecord T] (s : AbStore) (Good : Bytes → Prop)
    (J : Disk → Prop) : Prop where
  nonempty : ∀ bs, Good bs → bs ≠ []
  encode : ∀ r : T, Good (encode r)
  copy : ∀ d p c, s.copyAt T d p = some c → Good c.2
  create : ∀ d x, J d → d.volatile (s.path x) = none → J (d.create (s.path x))
  begun : ∀ d x i bs d', J d → d.volatile (s.path x) = some i → Good bs → d.Begun i bs d' → J d'
  held : ∀ d x i bs n', J d → d.volatile (s.path x) = some i → Good bs → n'.Holds bs →
    J (d.mapInode i fun _ => n')
  syncDir : ∀ d dir, J d → J (d.syncDir dir)

section Keep

variable {Good : Bytes → Prop} {J : Disk → Prop} (hJ : s.Rewritable T Good J)
include hJ

omit [Crc32] in
theorem Rewritable.overwrite_keeps {m : T} {bs : Bytes} (hd : J d) (hbs : Good bs) :
    Ends (· = (m,d)) (overwrite (s.path x) bs) (fun _ t => J t.2)
      (fun t => J t.2) := by
  have hcall := AbStore.overwrite_triple (m := m) (p := s.path x) (J := J) (hJ.nonempty bs hbs) hd
    (fun i d' hi hb => hJ.begun d x i bs d' hd hi hbs hb)
    (fun d' hv hb => hJ.begun _ x _ bs d' (hJ.create d x hd hv) (Disk.volatile_create _ _) hbs hb)
  refine hcall.weaken ?_ (fun _ _ ht => ht.2) (fun _ ht => ht.2)
  rintro _ t ⟨-,n',hn,⟨i,hi,ht⟩ | ⟨hv,ht⟩⟩
  · exact ht ▸ hJ.held d x i bs n' hd hi hbs hn
  · exact ht ▸ hJ.held _ x _ bs n' (hJ.create d x hd hv) (Disk.volatile_create _ _) hbs hn

omit [Crc32] in
theorem Rewritable.preserve_keeps {m : T} {c : T × Bytes} (hd : J d)
    (hc : s.copyAt T d (s.path x) = some c) :
    Ends (· = (m,d)) (preserve (s.path x) c.2) (fun _ t => J t.2)
      (fun t => J t.2) := by
  have hbs := hJ.copy d _ c hc
  cases hv : d.volatile (s.path x) with
  | none =>
    rw [copyAt_absent (by simp [Disk.image,hv])] at hc
    cases hc
  | some i =>
    refine (preserve_triple (J := J) hv (hJ.nonempty _ hbs)
      (fun d' hb => hJ.begun d x i _ d' hd hv hbs hb)
      (fun n' hn => hJ.held d x i _ n' hd hv hbs hn)).weaken ?_
      (fun _ _ ht => ht.2) (fun _ ht => ht.2)
    rintro _ _ ⟨n',hn,rfl⟩
    exact hJ.syncDir _ _ (hJ.held d x i _ n' hd hv hbs hn)

theorem Rewritable.store_keeps {m : T} (hd : J d) :
    Ends (· = (m,d)) (s.store T) (fun _ t => J t.2)
      (fun t => J t.2) := by
  apply store_triple_of_reads (fun _ => hd) hd
  have hpre : Ends (· = (m,d)) (preserveCopy T (s.path (s.targetAt T d).other)
      (s.copyAt T d (s.path (s.targetAt T d).other))) (fun _ t => J t.2)
      (fun t => J t.2) := by
    cases hc : s.copyAt T d (s.path (s.targetAt T d).other) with
    | none => exact .pure fun _ ht => ht ▸ hd
    | some c => exact hJ.preserve_keeps hd hc
  refine .bind hpre fun _ => ?_
  rintro fs ⟨m',d'⟩ hd'
  exact publish_triple_of (fun _ => hd')
    (fun _ => hJ.overwrite_keeps hd' (hJ.encode _)) fs _ rfl

theorem Rewritable.storeAndSync_keeps {m : T} (hd : J d) :
    Ends (· = (m,d)) (s.storeAndSync T) (fun _ t => J t.2)
      (fun t => J t.2) := by
  refine .bind (hJ.store_keeps hd) fun _ => ?_
  apply Triple.mapErr
  exact Io.syncDir_triple (fun _ _ ht => hJ.syncDir _ _ ht) (fun _ ht => ht) (fun _ ht => ht)

end Keep

theorem Safe.mono (h : s.Safe fits P R K done d)
    (hpq : ∀ r, P r → Q r) : s.Safe fits Q R K done d := by
  have hbeside : ∀ {r r' : T}, Beside P R r r' → Beside Q R r r' := fun hb =>
    hb.imp id fun h => ⟨h.1,h.2.1,hpq _ h.2.2⟩
  rcases h with ⟨hd,h⟩ | ⟨x,r,h⟩
  · exact .inl ⟨hd,{ h with
      known := fun bs hb => (h.known bs hb).mono hpq
      durable := fun i hi => (h.durable i hi).mono hpq }⟩
  · exact .inr ⟨x,r,{ h with
      good := hpq r h.good
      known := fun bs hb => (h.known bs hb).mono fun _ => hbeside
      durable := fun i hi => (h.durable i hi).mono fun _ => hbeside }⟩

theorem Safe.visible (h : s.Safe fits P R K done d)
    (hi : s.Intact T K d d) : s.Safe fits P R (s.shown d) done d := by
  rcases h with ⟨hd,h⟩ | ⟨x,r,h⟩
  · exact .inl ⟨hd,h.visible hi⟩
  · exact .inr ⟨x,r,h.visible hi⟩

theorem Safe.crash (h : s.Safe fits P R K done d)
    {tearing : Option ℕ} {c : CrashChoice} (hi : s.Intact T K d (d.crash tearing c)) :
    s.Safe fits P R (s.shown (d.crash tearing c)) done (d.crash tearing c) := by
  rcases h with ⟨hd,h⟩ | ⟨x,r,h⟩
  · exact .inl ⟨hd,h.crash hi⟩
  · exact .inr ⟨x,r,h.crash hi⟩

end Store

/-- A pair and what its client did: the disk, whether a store has completed, and the
records passed to the last completed store and to every call since. -/
structure History (T : Type) where
  disk : Disk
  done : Bool := false
  records : List T := []

/-- One event. A failing call and a crash come with the assumption on CRC-32; a crash in
the middle of a call happens where the call lost power. -/
inductive Step (s : AbStore) (fits : T → Prop) (tearing : Option ℕ) :
    History T → History T → Prop
  | stored {h : History T} {m m' : T} {fs rest : List Fault} {d' : Disk} (hf : fits m)
      (hrun : s.storeAndSync T fs (m,h.disk) = (.ok (),rest,m',d')) :
      Step s fits tearing h ⟨d',true,[m]⟩
  | failed {h : History T} {m m' : T} {fs rest : List Fault} {d' : Disk} {e : FormatError}
      (hf : fits m) (hrun : s.storeAndSync T fs (m,h.disk) = (.err e,rest,m',d'))
      (hcrc : s.Intact T (s.images h.disk m) d' d') :
      Step s fits tearing h ⟨d',h.done,m::h.records⟩
  | cut {h : History T} {m m' : T} {fs rest : List Fault} {d' : Disk} {c : CrashChoice}
      (hf : fits m) (hrun : s.storeAndSync T fs (m,h.disk) = (.lost,rest,m',d'))
      (hcrc : s.Intact T (s.images h.disk m) d' (d'.crash tearing c)) :
      Step s fits tearing h ⟨d'.crash tearing c,h.done,m::h.records⟩
  | crashed {h : History T} {c : CrashChoice}
      (hcrc : s.Intact T (s.shown h.disk) h.disk (h.disk.crash tearing c)) :
      Step s fits tearing h ⟨h.disk.crash tearing c,h.done,h.records⟩

inductive Run (s : AbStore) (fits : T → Prop) (tearing : Option ℕ) : History T → Prop
  | start {d : Disk} (hw : d.Wf) (hab : ∀ x i, ¬ d.Linked (s.path x) i) : Run s fits tearing ⟨d,false,[]⟩
  | step {h h' : History T} : Run s fits tearing h → Step s fits tearing h h' → Run s fits tearing h'

/-- A record of the history, whatever generation its store gave it. -/
def History.Holds (h : History T) (v : T) : Prop := ∃ m ∈ h.records, ∃ g, v = setGeneration g m

section Run

variable {tearing : Option ℕ} {h h' : History T}

def History.Ok (s : AbStore) (fits : T → Prop) (h : History T) : Prop :=
  s.Safe fits h.Holds (fun _ _ => True) (s.shown h.disk) h.done h.disk

theorem History.Ok.call_triple (L : s.Laws fits) (hok : h.Ok s fits) {m : T} (hf : fits m) :
    Ends (· = (m,h.disk)) (s.storeAndSync T)
      (fun _ t => (∃ g, t.1 = setGeneration g m) ∧
        s.Complete fits (fun _ _ => True) h.disk t.2 t.1)
      (fun t => s.Safe fits { h with records := m::h.records }.Holds (fun _ _ => True)
        (s.images h.disk m) h.done t.2) := by
  have hmore := Safe.mono (Q := { h with records := m::h.records }.Holds) hok
    fun v ⟨m',hm,hg⟩ => ⟨m',List.mem_cons_of_mem _ hm,hg⟩
  exact (hmore.storeAndSync_triple L hf ⟨m,by simp,_,rfl⟩ (fun _ _ => trivial)
    (fun _ _ _ _ _ => trivial)).weakenOk (fun _ _ ht => ⟨⟨_,ht.1⟩,ht.2.2.2⟩)

theorem step_ok (L : s.Laws fits) (hs : Step s fits tearing h h') (hok : h.Ok s fits) :
    h'.Ok s fits := by
  cases hs with
  | @stored m m' fs rest d' hf hrun =>
    have ht := hok.call_triple L hf fs _ rfl
    rw [hrun] at ht
    obtain ⟨hg,x,hx,-⟩ := ht
    exact .inr ⟨x,m',hx _ ⟨m,by simp,hg⟩⟩
  | @failed m m' fs rest d' e hf hrun hcrc =>
    have ht := hok.call_triple L hf fs _ rfl
    rw [hrun] at ht
    exact ht.visible hcrc
  | @cut m m' fs rest d' c hf hrun hcrc =>
    have ht := hok.call_triple L hf fs _ rfl
    rw [hrun] at ht
    exact ht.crash hcrc
  | crashed hcrc => exact Safe.crash hok hcrc

theorem run_ok (L : s.Laws fits) (hr : Run s fits tearing h) : h.Ok s fits := by
  induction hr with
  | start hw hab =>
    refine .inl ⟨rfl,hw,hab .b,?_,fun i hi => absurd hi (hab .a i),fun i hi =>
      absurd (.inr hi) (hab .a i)⟩
    intro bs hb
    obtain ⟨i,hi,-⟩ := Option.map_eq_some_iff.mp hb
    exact absurd (.inr hi) (hab .a i)
  | step _ hs ih => exact step_ok L hs ih

/-- Once a store and its directory sync have completed, a load returns the record of the
last such store or one passed to a later call, whatever failed and crashed meanwhile. -/
theorem load_after_run {μ : Type} (L : s.Laws fits) (hr : Run s fits tearing h)
    (hdone : h.done = true) (m : μ) :
    ∃ v, s.load T [] (m,h.disk) = (.ok (some v),[],m,h.disk) ∧ h.Holds v := by
  rcases run_ok L hr with ⟨hd,-⟩ | ⟨x,r,ha⟩
  · exact absurd (hd.symm.trans hdone) (by decide)
  · obtain ⟨v,hv,-,hp⟩ := ha.loadAt_good L
    exact ⟨v,by rw [(s.load_reads T).quiet,hv],hp⟩

end Run

end Pair

section Torn

/-! A checkpoint state is stored; power is lost before the sync of the next store and the
crash tears its write after seventeen bytes. -/

local instance : Crc32 := Crc32.ieee

def firstStore : Outcome FormatError Unit × List Fault × CheckpointState × Disk :=
  CheckpointState.store.storeAndSync CheckpointState [] (⟨0,5⟩,{})

def secondStore : Outcome FormatError Unit × List Fault × CheckpointState × Disk :=
  CheckpointState.store.storeAndSync CheckpointState (List.replicate 16 .none ++ [.crash])
    (⟨0,9⟩,firstStore.2.2.2)

def tornChoice : CrashChoice := { keep := fun _ => true, fate := fun _ _ => .tornHead 1 }

def tornHistory : History CheckpointState :=
  ⟨secondStore.2.2.2.crash (some 17) tornChoice,true,[⟨0,9⟩,⟨0,5⟩]⟩

theorem tornHistory_intact :
    CheckpointState.store.Intact CheckpointState
      (CheckpointState.store.images firstStore.2.2.2 (⟨0,9⟩ : CheckpointState))
      secondStore.2.2.2 tornHistory.disk := by
  intro x bs hb
  cases x with
  | a =>
    have hst : secondStore.2.2.2.names (.checkpointState .a) = ⟨some 1,some 1,1⟩ := by
      decide +kernel
    have hda : some (secondStore.2.2.2.inodes 1).durable =
        tornHistory.disk.image (.checkpointState .a) := by decide +kernel
    exact .inl ⟨1,.inl (by simp [CheckpointState.store,path,hst]),Option.some.inj (hda.trans hb)⟩
  | b =>
    -- seventeen bytes of the record and zeros up to its length
    have hrej : ∀ bs ∈ tornHistory.disk.image (.checkpointState .b),
        (CheckpointState.decode bs).toOption = none ∧ (RawGeneration.decode bs).toOption = none := by
      decide +kernel
    exact .inr (.inr (.inr (.inr (hrej bs hb))))

theorem tornHistory_run :
    Run CheckpointState.store CheckpointState.Fits (some 17) tornHistory := by
  have hstart : Run CheckpointState.store CheckpointState.Fits (some 17) ⟨{},false,[]⟩ :=
    .start ⟨fun _ _ _ h => by simp [Disk.Linked] at h,fun _ _ h => by simp [Disk.Linked] at h⟩
      fun _ _ h => by simp [Disk.Linked] at h
  have hfirst : firstStore.1 = .ok () := by decide +kernel
  have hsecond : secondStore.1 = .lost := by decide +kernel
  have hrun₁ : CheckpointState.store.storeAndSync CheckpointState [] (⟨0,5⟩,{}) =
      (.ok (),firstStore.2.1,firstStore.2.2.1,firstStore.2.2.2) := Prog.eq_of_outcome firstStore hfirst
  have hrun₂ : CheckpointState.store.storeAndSync CheckpointState (List.replicate 16 .none ++ [.crash])
      (⟨0,9⟩,firstStore.2.2.2) =
      (.lost,secondStore.2.1,secondStore.2.2.1,secondStore.2.2.2) := Prog.eq_of_outcome secondStore hsecond
  exact (hstart.step (.stored (by decide) hrun₁)).step (.cut (by decide) hrun₂ tornHistory_intact)

theorem load_after_torn_store :
    ∃ v, CheckpointState.store.load CheckpointState [] ((),tornHistory.disk) =
      (.ok (some v),[],(),tornHistory.disk) ∧ tornHistory.Holds v :=
  load_after_run CheckpointState.laws tornHistory_run rfl ()

end Torn

end AbStore
end Maki
