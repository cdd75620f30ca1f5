import Mathlib
import Maki.Publish

/-! Components that keep one record in a file they replace. A handle serves requests until one of its
publications fails; then it is poisoned and only a reopen, which publishes what it reads before
it returns, tells which record counts. Over any run of requests, failures, crashes and reopens,
a reopen gives the record last acknowledged or one that was tried after it. -/
namespace Maki

open Prog hiding pure bind throw get modify

/-- A component with handles `η` and records `ρ`. It is started in the ways `σ` and serves the
requests `κ`; `candidate` is the record a request would publish, and `due` what a request must answer
and the record it must leave, should it return. -/
structure Keeper (η ρ κ σ ε α : Type) where
  files : Replaced
  record : η → ρ
  poisoned : η → Bool
  encode : ρ → Option Bytes
  decode : Bytes → Except ε ρ
  start : σ → Io Unit ε η
  call : κ → Io η ε α
  candidate : η → κ → Option ρ
  due : η → κ → Option (α × ρ)

namespace Keeper

variable {η ρ κ σ ε α : Type}

/-- The component over time: the disk, the open handle, the record of the last start or request that
returned, the records of the requests that failed since, and all of these so far. -/
structure Host (η ρ : Type) where
  disk : Disk
  handle : Option η := none
  acked : Option ρ := none
  failed : List ρ := []
  history : List ρ := []

/-- What happens to the component. Every request and start comes with the environment's decisions
and with what a crash would leave, should power be lost inside it. -/
inductive Event (κ σ : Type) where
  | start (x : σ) (fs : List Fault) (c : CrashChoice)
  | call (k : κ) (fs : List Fault) (c : CrashChoice)
  | close
  | crash (c : CrashChoice)

variable (K : Keeper η ρ κ σ ε α) (tearing : Option ℕ)

def starting (s : Host η ρ) (x : σ) (fs : List Fault) (c : CrashChoice) : Host η ρ :=
  match K.start x fs ((),s.disk) with
  | (.ok h,_,_,d) => ⟨d,some h,some (K.record h),[],s.history ++ [K.record h]⟩
  | (.err _,_,_,d) => { s with disk := d }
  | (.lost,_,_,d) => { s with disk := d.crash tearing c }

def calling (s : Host η ρ) (h : η) (k : κ) (fs : List Fault) (c : CrashChoice) : Host η ρ :=
  let tried := (K.candidate h k).toList
  match K.call k fs (h,s.disk) with
  | (.ok _,_,h',d) => ⟨d,some h',some (K.record h'),[],s.history ++ [K.record h']⟩
  | (.err _,_,h',d) => ⟨d,some h',s.acked,s.failed ++ tried,s.history ++ tried⟩
  | (.lost,_,_,d) => ⟨d.crash tearing c,none,s.acked,s.failed ++ tried,s.history ++ tried⟩

/-- The lock admits one handle; a start while it is held fails. -/
def step (s : Host η ρ) : Event κ σ → Host η ρ
  | .start x fs c => if s.handle.isSome then s else K.starting tearing s x fs c
  | .call k fs c =>
    match s.handle with
    | none => s
    | some h => K.calling tearing s h k fs c
  | .close => { s with handle := none }
  | .crash c => { s with disk := s.disk.crash tearing c, handle := none }

def run (s : Host η ρ) (es : List (Event κ σ)) : Host η ρ := es.foldl (K.step tearing) s

/-- No damaged copy of the record's bytes decodes to another record. -/
def Sturdy (r : ρ) : Prop :=
  ∀ bs, K.encode r = some bs → ∀ x r', Patchy bs x → K.decode x = .ok r' → r' = r

/-- The file is a patchy copy of one of these records, whatever a crash leaves. -/
def Holding (rs : List ρ) (d : Disk) : Prop :=
  K.files.Guarded (fun bs => ∃ r ∈ rs, K.encode r = some bs) d

def Kept (r : ρ) (d : Disk) : Prop := ∃ bs, K.encode r = some bs ∧ K.files.Published bs d

def Began (r : ρ) (d d' : Disk) : Prop :=
  d' = d ∨ ∃ bs, K.encode r = some bs ∧ K.files.Publishing bs d d'

def Tried (h : η) (k : κ) (d d' : Disk) : Prop :=
  d' = d ∨ ∃ r, K.candidate h k = some r ∧ K.Began r d d'

/-- The program publishes the record: it leaves memory alone, and the record is durable when it
returns. -/
def Publishes {μ : Type} (r : ρ) (p : Io μ ε Unit) : Prop :=
  ∀ m d, d.Fresh → Ends (· = (m,d)) p (fun _ s => s.1 = m ∧ K.Kept r s.2)
    (fun s => s.1 = m ∧ K.Began r d s.2)

abbrev Spared (d : Disk) (s : Unit × Disk) : Prop :=
  s.2.Fresh ∧ ∀ rs, K.Holding rs d → (∀ r ∈ rs, K.Sturdy r) → K.Holding rs s.2

/-- What is asked of a component. Records are ranked by age. -/
structure Lawful {ω : Type} [Preorder ω] (rank : ρ → ω) : Prop where
  start_triple : ∀ x d, d.Fresh → Ends (fun s => s = ((),d)) (K.start x)
    (fun h s => K.poisoned h = false ∧ K.Kept (K.record h) s.2 ∧
      ∀ rs, K.Holding rs d → (∀ r ∈ rs, K.Sturdy r) → K.record h ∈ rs)
    (fun s => s.2.Fresh ∧ ∀ rs, K.Holding rs d → (∀ r ∈ rs, K.Sturdy r) → K.Holding rs s.2)
  call_triple : ∀ k h d, K.poisoned h = false → K.Kept (K.record h) d →
    Triple (· = (h,d)) (K.call k)
      (fun a s => K.poisoned s.1 = false ∧ K.Kept (K.record s.1) s.2 ∧
        K.due h k = some (a,K.record s.1) ∧
        (K.record s.1 = K.record h ∨ K.candidate h k = some (K.record s.1)))
      (fun _ s => s = (h,d) ∧ K.candidate h k = none ∨ K.poisoned s.1 = true ∧ K.Tried h k d s.2)
      (fun s => K.Tried h k d s.2)
  call_poisoned : ∀ k h, K.poisoned h = true → ∃ e, ∀ fs d, K.call k fs (h,d) = (.err e,fs,h,d)
  candidate_poisoned : ∀ k h, K.poisoned h = true → K.candidate h k = none
  candidate_lt : ∀ k h r, K.candidate h k = some r → rank (K.record h) < rank r

structure Sound {ω : Type} [Preorder ω] (rank : ρ → ω) (s : Host η ρ) : Prop where
  fresh : s.disk.Fresh
  holding : ∀ a, s.acked = some a → K.Holding (a::s.failed) s.disk
  newer : ∀ a, s.acked = some a → ∀ r ∈ s.failed, rank a < rank r
  recorded : ∀ a, s.acked = some a → ∀ r ∈ a::s.failed, r ∈ s.history
  live : ∀ h, s.handle = some h → K.poisoned h = false →
    s.acked = some (K.record h) ∧ s.failed = [] ∧ K.Kept (K.record h) s.disk

section Runs

variable {K} {tearing} {ω : Type} [Preorder ω] {rank : ρ → ω} {s : Host η ρ}

variable {x : σ} {fs : List Fault} {h : η} {k : κ} {r a : ρ} {rs : List ρ} {d d' : Disk}

theorem step_start (h : s.handle = none) {c : CrashChoice} :
    K.step tearing s (.start x fs c) = K.starting tearing s x fs c := by
  simp only [step,h,Option.isSome_none,Bool.false_eq_true,if_false]

theorem step_call (hh : s.handle = some h) {c : CrashChoice} :
    K.step tearing s (.call k fs c) = K.calling tearing s h k fs c := by simp only [step,hh]

theorem Kept.fresh (h : K.Kept r d) : d.Fresh := by
  obtain ⟨bs,-,hp⟩ := h
  exact hp.fresh

theorem Kept.holding (h : K.Kept r d) (hr : r ∈ rs) :
    K.Holding rs d := by
  obtain ⟨bs,hb,hp⟩ := h
  exact hp.guarded ⟨r,hr,hb⟩

/-- A failed request leaves its own record or the one before it. -/
theorem Kept.tried (hk : K.Kept (K.record h) d) (ht : K.Tried h k d d') :
    K.Holding (K.record h::(K.candidate h k).toList) d' ∧ d'.Fresh := by
  have hg : K.Holding (K.record h::(K.candidate h k).toList) d := hk.holding (by simp)
  obtain ⟨bs₀,-,hpub⟩ := hk
  rcases ht with rfl | ⟨r,hr,rfl | ⟨bs,hb,hp⟩⟩
  · exact ⟨hg,hpub.fresh⟩
  · exact ⟨hg,hpub.fresh⟩
  · refine ⟨hg.publishing hp ⟨r,by simp [hr],hb⟩ fun t ht => ?_,hp.fresh hpub.fresh⟩
    simp [hpub.temp] at ht

/-- What the file decodes to is one of the records, and the bytes of that one are what a temporary
that shares the file's inode is made of. -/
theorem Holding.decoded {x : Bytes} (h : K.Holding rs d)
    (hst : ∀ r ∈ rs, K.Sturdy r) (hx : d.image K.files.file = some x) (hr : K.decode x = .ok r) :
    r ∈ rs ∧ ∀ bs, K.encode r = some bs → ∀ t, d.volatile K.files.temp = some t →
      d.Linked K.files.file t → (d.inodes t).Patched bs := by
  obtain ⟨i,bs₀,hi,⟨r₀,hmem,hb₀⟩,hp⟩ := h.image
  have hxi : (d.inodes i).image = x := by simpa [Disk.image,hi] using hx
  obtain rfl : r = r₀ := hst r₀ hmem bs₀ hb₀ x r (hxi ▸ hp.image) hr
  refine ⟨hmem,fun bs hb t ht hl => ?_⟩
  cases hb₀.symm.trans hb
  exact h.apart t ht hl i (.inr hi) ▸ hp

theorem Holding.began (h : K.Holding rs d) (hr : r ∈ rs)
    (hsame : ∀ bs, K.encode r = some bs → ∀ t, d.volatile K.files.temp = some t →
      d.Linked K.files.file t → (d.inodes t).Patched bs) (hb : K.Began r d d') : K.Holding rs d' := by
  rcases hb with rfl | ⟨bs,hb,hp⟩
  · exact h
  · exact Replaced.Guarded.publishing h hp ⟨r,hr,hb⟩ (hsame bs hb)

theorem Began.fresh (h : K.Began r d d') (hd : d.Fresh) : d'.Fresh := by
  rcases h with rfl | ⟨bs,-,hp⟩
  · exact hd
  · exact hp.fresh hd

theorem Publishes.fresh {μ : Type} {p : Io μ ε Unit} (h : K.Publishes r p) :
    Keeps (fun s => s.2.Fresh) p := by
  apply Triple.ofEach
  rintro ⟨m,d⟩ hd
  apply (h m d hd).conseq
  · exact fun _ hs => hs
  · rintro _ s ⟨-,bs,-,hp⟩
    exact hp.fresh
  · exact fun _ s hs => hs.2.fresh hd
  · exact fun s hs => hs.2.fresh hd

theorem Publishes.kept {μ : Type} {p : Io μ ε Unit} (h : K.Publishes r p) :
    Returns (fun s => s.2.Fresh) p fun _ s => K.Kept r s.2 := by
  apply Triple.ofEach
  rintro ⟨m,d⟩ hd
  exact (Returns.ofTriple (h m d hd)).conseq (fun _ hs => hs) fun _ _ hs => hs.2

/-- A request whose publication fails poisons its handle. -/
theorem Publishes.guarded {w : η} {k : κ} {p : Io η ε Unit} {f : η × Disk → η × Disk}
    (h : K.Publishes r p) (hd : d.Fresh) (hc : K.candidate w k = some r)
    (hp : ∀ s, K.poisoned (f s).1 = true ∧ (f s).2 = s.2) (Q : η × Disk → Prop) :
    Triple (· = (w,d)) (Prog.onError p f) (fun _ s => s.1 = w ∧ K.Kept r s.2)
      (fun _ s => Q s ∨ K.poisoned s.1 = true ∧ K.Tried w k d s.2) fun s => K.Tried w k d s.2 := by
  apply Triple.onError
  refine (h w d hd).weaken (fun _ _ hs => hs) (fun _ s hs => .inr ⟨(hp s).1,?_⟩)
    fun s hs => .inr ⟨r,hc,hs.2⟩
  rw [(hp s).2]
  exact .inr ⟨r,hc,hs.2⟩

theorem reopen_triple {reading : Io Unit ε ρ} {publishing : ρ → Io Unit ε Unit} {make : ρ → η}
    (hread : ∀ d, Ends (fun s => s = ((),d)) reading
      (fun r s => s = ((),d) ∧ ∃ x, d.image K.files.file = some x ∧ K.decode x = .ok r)
      (fun s => s = ((),d)))
    (hpublish : ∀ r, K.Publishes r (publishing r))
    (hmake : ∀ r, K.record (make r) = r ∧ K.poisoned (make r) = false) (hd : d.Fresh) :
    Ends (fun s => s = ((),d))
      (Prog.bind reading fun r => Prog.bind (publishing r) fun _ => Prog.pure (make r))
      (fun h s => K.poisoned h = false ∧ K.Kept (K.record h) s.2 ∧
        ∀ rs, K.Holding rs d → (∀ r ∈ rs, K.Sturdy r) → K.record h ∈ rs) (K.Spared d) := by
  have hsame : ∀ s, s = ((),d) → K.Spared d s := by
    rintro _ rfl
    exact ⟨hd,fun _ h _ => h⟩
  refine .bind ((hread d).weaken (fun _ _ hs => hs) (fun _ => hsame) hsame) fun r => Triple.ofEach ?_
  rintro _ ⟨rfl,x,hx,hr⟩
  have hbegan : ∀ s : Unit × Disk, K.Began r d s.2 → K.Spared d s := by
    intro s hb
    refine ⟨hb.fresh hd,fun rs hh hst => ?_⟩
    obtain ⟨hmem,hsame⟩ := hh.decoded hst hx hr
    exact hh.began hmem hsame hb
  have hpub := (hpublish r () d hd).weaken (fun _ _ hs => hs.2)
    (fun (_ : ε) s hs => hbegan s hs.2) (fun s hs => hbegan s hs.2)
  refine .bind hpub fun _ => .pure fun s hs => ?_
  obtain ⟨hrec,hlive⟩ := hmake r
  rw [hrec]
  exact ⟨hlive,hs,fun rs hh hst => (hh.decoded hst hx hr).1⟩

/-- An enrollment is refused where the file exists. Elsewhere there is no record to lose. -/
theorem enroll_triple {io : ErrorKind → ε} {present : ε} {enroll : Io Unit ε η}
    (hd : d.Fresh) (hp : Keeps (fun s => s.2.Fresh) enroll)
    (hok : Returns (fun s => s.2.Fresh) enroll
      fun h s => K.poisoned h = false ∧ K.Kept (K.record h) s.2) :
    Ends (fun s => s = ((),d))
      (Prog.bind (Prog.mapErr io (Io.exists_ K.files.file)) fun found =>
        if found then Prog.throw present else enroll)
      (fun h s => K.poisoned h = false ∧ K.Kept (K.record h) s.2 ∧
        ∀ rs, K.Holding rs d → (∀ r ∈ rs, K.Sturdy r) → K.record h ∈ rs) (K.Spared d) := by
  apply Io.Reads.bind_triple ((Io.Reads.exists_ K.files.file).mapErr io)
  · exact fun _ => ⟨hd,fun _ h _ => h⟩
  · exact ⟨hd,fun _ h _ => h⟩
  · cases hv : d.volatile K.files.file with
    | some i =>
      simp only [Option.isSome_some,if_true]
      exact .throw (by rintro _ rfl; exact ⟨hd,fun _ h _ => h⟩)
    | none =>
      simp only [Option.isSome_none,Bool.false_eq_true,if_false]
      have hno : ∀ rs, ¬ K.Holding rs d := by
        intro rs h
        obtain ⟨i,hi⟩ := h.volatile
        simp [hv] at hi
      have hboth := hp.and hok
      apply hboth.conseq
      · rintro _ rfl
        exact ⟨hd,hd⟩
      · exact fun h s hs => ⟨hs.2.1,hs.2.2,fun rs hr => absurd hr (hno rs)⟩
      · exact fun _ s hs => ⟨hs.1,fun rs hr => absurd hr (hno rs)⟩
      · exact fun s hs => ⟨hs.1,fun rs hr => absurd hr (hno rs)⟩

theorem Sound.sturdy (hs : K.Sound rank s) (hst : ∀ r ∈ s.history, K.Sturdy r)
    (ha : s.acked = some a) : ∀ r ∈ a::s.failed, K.Sturdy r :=
  fun r hr => hst r (hs.recorded a ha r hr)

theorem Sound.moved (hs : K.Sound rank s) (hd : d.Fresh)
    (hh : ∀ a, s.acked = some a → K.Holding (a::s.failed) d) :
    K.Sound rank { s with disk := d, handle := none } where
  fresh := hd
  holding := hh
  newer := hs.newer
  recorded := hs.recorded
  live _ hh := by cases hh

theorem Sound.returned {hist : List ρ} (hk : K.Kept (K.record h) d) :
    K.Sound rank ⟨d,some h,some (K.record h),[],hist ++ [K.record h]⟩ where
  fresh := hk.fresh
  holding a ha := by
    cases ha
    exact hk.holding (by simp)
  newer _ _ r hr := by cases hr
  recorded a ha := by
    cases ha
    simp
  live h' hh _ := by
    cases hh
    exact ⟨rfl,rfl,hk⟩

variable (hK : K.Lawful rank)
include hK

theorem Sound.starting (hs : K.Sound rank s) (hn : s.handle = none)
    (hst : ∀ r ∈ s.history, K.Sturdy r) (x : σ) (fs : List Fault) (c : CrashChoice) :
    K.Sound rank (K.starting tearing s x fs c) := by
  have ht := hK.start_triple x s.disk hs.fresh fs ((),s.disk) rfl
  have hsame : ∀ d, { s with disk := d } = { s with disk := d, handle := none } := by
    intro d
    rw [← hn]
  unfold Keeper.starting
  rcases hr : K.start x fs ((),s.disk) with ⟨o,fs',u,d⟩
  rw [hr] at ht
  cases o with
  | ok h => exact .returned ht.2.1
  | err e =>
    simp only [hsame]
    exact hs.moved ht.1 fun a ha => ht.2 _ (hs.holding a ha) (hs.sturdy hst ha)
  | lost =>
    simp only [hsame]
    exact hs.moved (ht.1.crash tearing c)
      fun a ha => (ht.2 _ (hs.holding a ha) (hs.sturdy hst ha)).crash tearing c

theorem Sound.tried (hs : K.Sound rank s) (hh : s.handle = some h)
    (hl : K.poisoned h = false) (ht : K.Tried h k s.disk d) (o : Option η)
    (ho : ∀ h', o = some h' → K.poisoned h' = true) :
    K.Sound rank ⟨d,o,s.acked,s.failed ++ (K.candidate h k).toList,
      s.history ++ (K.candidate h k).toList⟩ := by
  obtain ⟨hack,hfail,hkept⟩ := hs.live h hh hl
  obtain ⟨hhold,hfresh⟩ := hkept.tried ht
  have hrec := hs.recorded _ hack
  refine ⟨hfresh,?_,?_,?_,?_⟩
  · intro a ha
    cases hack.symm.trans ha
    simpa [hfail] using hhold
  · intro a ha r hr
    cases hack.symm.trans ha
    exact hK.candidate_lt k h r (by simpa [hfail] using hr)
  · intro a ha r hr
    cases hack.symm.trans ha
    simp only [hfail,List.nil_append,List.mem_cons] at hr
    rcases hr with rfl | hr
    · exact List.mem_append_left _ (hrec _ (by simp))
    · exact List.mem_append_right _ hr
  · intro h' hh' hl'
    rw [ho h' hh'] at hl'
    cases hl'

theorem Sound.calling (hs : K.Sound rank s) (hh : s.handle = some h) (k : κ)
    (fs : List Fault) (c : CrashChoice) : K.Sound rank (K.calling tearing s h k fs c) := by
  cases hp : K.poisoned h with
  | true =>
    -- a poisoned handle refuses and changes nothing
    obtain ⟨e,he⟩ := hK.call_poisoned k h hp
    simp only [Keeper.calling,he,hK.candidate_poisoned k h hp,Option.toList_none,List.append_nil]
    rw [← hh]
    exact hs
  | false =>
    obtain ⟨hack,hfail,hkept⟩ := hs.live h hh hp
    have ht := hK.call_triple k h s.disk hp hkept fs (h,s.disk) rfl
    unfold Keeper.calling
    rcases hr : K.call k fs (h,s.disk) with ⟨o,fs',h',d⟩
    rw [hr] at ht
    cases o with
    | ok a => exact .returned ht.2.1
    | err e =>
      rcases ht with ⟨he,hc⟩ | ⟨hp',ht⟩
      · cases he
        simp only [hc,Option.toList_none,List.append_nil]
        rw [← hh]
        exact hs
      · exact hs.tried hK hh hp ht _ fun h'' he => by
          cases he
          exact hp'
    | lost =>
      have htried := hs.tried hK hh hp ht none fun _ he => by cases he
      exact htried.moved (htried.fresh.crash tearing c)
        fun a ha => (htried.holding a ha).crash tearing c

theorem Sound.step (hs : K.Sound rank s) (hst : ∀ r ∈ s.history, K.Sturdy r) (e : Event κ σ) :
    K.Sound rank (K.step tearing s e) := by
  cases e with
  | start x fs c =>
    cases hh : s.handle with
    | none => exact step_start hh ▸ hs.starting hK hh hst x fs c
    | some h => simpa only [Keeper.step,hh,Option.isSome_some,if_true] using hs
  | call k fs c =>
    cases hh : s.handle with
    | none => simpa only [Keeper.step,hh] using hs
    | some h => exact step_call hh ▸ hs.calling hK hh k fs c
  | close => exact hs.moved hs.fresh hs.holding
  | crash c =>
    exact hs.moved (hs.fresh.crash tearing c) fun a ha => (hs.holding a ha).crash tearing c

omit hK [Preorder ω] in
theorem history_step (e : Event κ σ) : ∀ r ∈ s.history, r ∈ (K.step tearing s e).history := by
  intro r hr
  cases e with
  | start x fs c =>
    cases hh : s.handle with
    | none =>
      rw [step_start hh,Keeper.starting]
      rcases K.start x fs ((),s.disk) with ⟨o,fs',u,d⟩
      cases o <;> simp [hr]
    | some h => simpa only [Keeper.step,hh,Option.isSome_some,if_true] using hr
  | call k fs c =>
    cases hh : s.handle with
    | none => simpa only [Keeper.step,hh] using hr
    | some h =>
      rw [step_call hh,Keeper.calling]
      rcases K.call k fs (h,s.disk) with ⟨o,fs',h',d⟩
      cases o <;> simp [hr]
  | close => exact hr
  | crash c => exact hr

omit hK [Preorder ω] in
theorem history_run (es : List (Event κ σ)) : ∀ r ∈ s.history, r ∈ (K.run tearing s es).history := by
  induction es generalizing s with
  | nil => exact fun r hr => hr
  | cons e es ih => exact fun r hr => ih r (history_step e r hr)

/-- A start that returns gives the acknowledged record or one tried after it. -/
theorem Sound.started (hs : K.Sound rank s) (hst : ∀ r ∈ s.history, K.Sturdy r)
    {fs' : List Fault} {s' : Unit × Disk} (hr : K.start x fs ((),s.disk) = (.ok h,fs',s'))
    (ha : s.acked = some a) : K.record h ∈ a::s.failed := by
  have ht := hK.start_triple x s.disk hs.fresh fs ((),s.disk) rfl
  rw [hr] at ht
  exact ht.2.2 _ (hs.holding a ha) (hs.sturdy hst ha)

theorem Sound.started_le (hs : K.Sound rank s) (hst : ∀ r ∈ s.history, K.Sturdy r)
    {fs' : List Fault} {s' : Unit × Disk} (hr : K.start x fs ((),s.disk) = (.ok h,fs',s'))
    (ha : s.acked = some a) : rank a ≤ rank (K.record h) := by
  rcases List.mem_cons.mp (hs.started hK hst hr ha) with he | hf
  · exact he ▸ le_refl _
  · exact (hs.newer a ha _ hf).le

/-- The acknowledged record only ever makes way for one that is not older. -/
theorem Sound.acked_step (hs : K.Sound rank s) (hst : ∀ r ∈ s.history, K.Sturdy r) (e : Event κ σ)
    (ha : s.acked = some a) :
    ∃ a', (K.step tearing s e).acked = some a' ∧ rank a ≤ rank a' := by
  cases e with
  | start x fs c =>
    cases hh : s.handle with
    | none =>
      rw [step_start hh,Keeper.starting]
      rcases hr : K.start x fs ((),s.disk) with ⟨o,fs',u,d⟩
      cases o with
      | ok h => exact ⟨_,rfl,hs.started_le hK hst hr ha⟩
      | err e => exact ⟨a,ha,le_refl _⟩
      | lost => exact ⟨a,ha,le_refl _⟩
    | some h => exact ⟨a,by simpa only [Keeper.step,hh,Option.isSome_some,if_true] using ha,le_refl _⟩
  | call k fs c =>
    cases hh : s.handle with
    | none => exact ⟨a,by simpa only [Keeper.step,hh] using ha,le_refl _⟩
    | some h =>
      rw [step_call hh,Keeper.calling]
      rcases hr : K.call k fs (h,s.disk) with ⟨o,fs',h',d⟩
      cases o with
      | ok b =>
        cases hp : K.poisoned h with
        | true =>
          obtain ⟨e,he⟩ := hK.call_poisoned k h hp
          rw [he] at hr
          cases hr
        | false =>
          obtain ⟨hack,-,hkept⟩ := hs.live h hh hp
          have ht := hK.call_triple k h s.disk hp hkept fs (h,s.disk) rfl
          rw [hr] at ht
          cases hack.symm.trans ha
          refine ⟨_,rfl,?_⟩
          rcases ht.2.2.2 with he | hc
          · exact he ▸ le_refl _
          · exact (hK.candidate_lt k h _ hc).le
      | err e => exact ⟨a,ha,le_refl _⟩
      | lost => exact ⟨a,ha,le_refl _⟩
  | close => exact ⟨a,ha,le_refl _⟩
  | crash c => exact ⟨a,ha,le_refl _⟩

theorem Sound.run (hs : K.Sound rank s) (es : List (Event κ σ))
    (hst : ∀ r ∈ (K.run tearing s es).history, K.Sturdy r) :
    K.Sound rank (K.run tearing s es) ∧
      ∀ a, s.acked = some a → ∃ a', (K.run tearing s es).acked = some a' ∧ rank a ≤ rank a' := by
  induction es generalizing s with
  | nil => exact ⟨hs,fun a ha => ⟨a,ha,le_refl _⟩⟩
  | cons e es ih =>
    have hst₀ : ∀ r ∈ s.history, K.Sturdy r :=
      fun r hr => hst r (history_run es r (history_step e r hr))
    obtain ⟨hsound,hack⟩ := ih (hs.step hK hst₀ e) hst
    refine ⟨hsound,fun a ha => ?_⟩
    have hstep : ∃ a', (K.step tearing s e).acked = some a' ∧ rank a ≤ rank a' :=
      hs.acked_step hK hst₀ e ha
    obtain ⟨a₁,ha₁,hle₁⟩ := hstep
    obtain ⟨a₂,ha₂,hle₂⟩ := hack a₁ ha₁
    exact ⟨a₂,ha₂,hle₁.trans hle₂⟩

omit hK in
theorem Sound.initial (hd : d.Fresh) : K.Sound rank { disk := d } where
  fresh := hd
  holding _ ha := by cases ha
  newer _ ha := by cases ha
  recorded _ ha := by cases ha
  live _ hh := by cases hh

end Runs

/-- The component never steps back between `s` and the later `s'`. -/
structure Forward {ω : Type} [Preorder ω] (rank : ρ → ω) (reopen : σ) (s s' : Host η ρ) : Prop where
  /-- A reopen gives the record of the last call that returned or of a later one that failed. -/
  reopened : ∀ fs fs' h t a, K.start reopen fs ((),s.disk) = (.ok h,fs',t) → s.acked = some a →
    K.record h = a ∨ K.record h ∈ s.failed
  /-- No later reopen gives an older one. -/
  lasting : ∀ fs fs' h t a, K.start reopen fs ((),s'.disk) = (.ok h,fs',t) → s.acked = some a →
    rank a ≤ rank (K.record h)
  /-- A request that returns gives what it is due, and the record it is due is durable. -/
  answered : ∀ h k fs fs' a h' d, s.handle = some h → K.call k fs (h,s.disk) = (.ok a,fs',h',d) →
    K.due h k = some (a,K.record h') ∧ K.Kept (K.record h') d
  /-- A request that fails after its checks, so one whose publication fails, poisons the handle. -/
  poisoned : ∀ h k fs fs' e h' d, s.handle = some h → K.call k fs (h,s.disk) = (.err e,fs',h',d) →
    h' = h ∧ d = s.disk ∧ K.candidate h k = none ∨ K.poisoned h' = true
  /-- A poisoned handle refuses every request and changes nothing. -/
  refused : ∀ h k, K.poisoned h = true → ∃ e, ∀ fs d, K.call k fs (h,d) = (.err e,fs,h,d)

variable {K} in
/-- Every run of a lawful component goes forward. -/
theorem Lawful.forward {ω : Type} [Preorder ω] {rank : ρ → ω} (hK : K.Lawful rank) (reopen : σ)
    {d : Disk} (hd : d.Fresh) (before after : List (Event κ σ))
    (hst : ∀ r ∈ (K.run tearing (K.run tearing { disk := d } before) after).history, K.Sturdy r) :
    K.Forward rank reopen (K.run tearing { disk := d } before)
      (K.run tearing (K.run tearing { disk := d } before) after) := by
  have hst₀ := fun r hr => hst r (history_run after r hr)
  obtain ⟨hs,-⟩ := (Sound.initial hd).run hK before hst₀
  obtain ⟨hs',hlater⟩ := hs.run hK after hst
  refine ⟨?_,?_,?_,?_,fun h k => hK.call_poisoned k h⟩
  · intro fs fs' h t a hr ha
    exact List.mem_cons.mp (hs.started hK hst₀ hr ha)
  · intro fs fs' h t a hr ha
    obtain ⟨a',ha',hle⟩ := hlater a ha
    exact hle.trans (hs'.started_le hK hst hr ha')
  · intro h k fs fs' a h' d' hh hr
    cases hp : K.poisoned h with
    | true =>
      obtain ⟨e,he⟩ := hK.call_poisoned k h hp
      rw [he] at hr
      cases hr
    | false =>
      have ht := hK.call_triple k h _ hp (hs.live h hh hp).2.2 fs _ rfl
      rw [hr] at ht
      exact ⟨ht.2.2.1,ht.2.1⟩
  · intro h k fs fs' e h' d' hh hr
    cases hp : K.poisoned h with
    | true =>
      obtain ⟨e',he⟩ := hK.call_poisoned k h hp
      rw [he] at hr
      cases hr
      exact .inr hp
    | false =>
      have ht := hK.call_triple k h _ hp (hs.live h hh hp).2.2 fs _ rfl
      rw [hr] at ht
      rcases ht with ⟨he,hc⟩ | ⟨hp',-⟩
      · cases he
        exact .inl ⟨rfl,rfl,hc⟩
      · exact .inr hp'

end Keeper
end Maki
