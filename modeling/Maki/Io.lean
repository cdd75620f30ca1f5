import Maki.Prog
import Maki.Disk

/-! The calls of the backing (`maki_backing::Backing`, `BackingFile`) on the crash
model, with fault injection. Every call takes one decision: it may succeed, fail,
persist a short write and fail, or never run because power is lost before it. An
injected failure is a hard I/O error; only the model itself reports an absent name
or a read past the end. -/
namespace Maki

open Prog hiding pure bind throw get modify

inductive ErrorKind where
  | NotFound | UnexpectedEof | InvalidInput | Unsupported | WouldBlock | StorageFull
  | Other
  deriving DecidableEq

def ErrorKind.text : ErrorKind → String
  | .NotFound => "entity not found"
  | .UnexpectedEof => "unexpected end of file"
  | .InvalidInput => "invalid input parameter"
  | .Unsupported => "unsupported"
  | .WouldBlock => "operation would block"
  | .StorageFull => "no storage space"
  | .Other => "other error"

def checkedAdd (a b : ℕ) : Option ℕ := if a+b < 2^64 then some (a+b) else none

inductive Fault where
  | none
  | fail
  /-- A write persists its first `n` bytes and then fails. -/
  | short (n : ℕ)
  | crash
  deriving DecidableEq

instance : Inhabited Fault := ⟨.none⟩

/-- Programs over memory `μ` and the disk. -/
abbrev Io (μ ε α : Type) := Prog Fault (μ × Disk) ε α

namespace Io

variable {μ α : Type}

/-- A call that does `run` when it succeeds and `failed` when it fails. -/
def hooked (failed : Fault → Disk → Disk) (run : Disk → Except ErrorKind α × Disk) :
    Io μ ErrorKind α :=
  Prog.call fun f s =>
    match f with
    | .none =>
      match run s.2 with
      | (.ok a,d) => (.ok a,s.1,d)
      | (.error e,d) => (.err e,s.1,d)
    | .crash => (.lost,s)
    | f => (.err .Other,s.1,failed f s.2)

/-- A named failpoint: a fallible step without an effect of its own. -/
def fp (_name : String) : Io μ ErrorKind Unit := hooked (fun _ d => d) fun d => (.ok (),d)

def openFile (path : Path) (create : Bool) : Io μ ErrorKind InodeId :=
  hooked (fun _ d => d) fun d =>
    match d.volatile path with
    | some i => (.ok i,d)
    | none => if create then (.ok (d.nextInode+1),d.create path) else (.error .NotFound,d)

def exists_ (path : Path) : Io μ ErrorKind Bool :=
  hooked (fun _ d => d) fun d => (.ok (d.volatile path).isSome,d)

def remove (path : Path) : Io μ ErrorKind Unit :=
  hooked (fun _ d => d) fun d =>
    match d.volatile path with
    | none => (.error .NotFound,d)
    | some _ => (.ok (),d.relink path none)

/-- Replaces `target` if it exists. -/
def rename (source target : Path) : Io μ ErrorKind Unit :=
  hooked (fun _ d => d) fun d =>
    match d.volatile source with
    | none => (.error .NotFound,d)
    | some _ => (.ok (),if source = target then d else d.rename source target)

def list (dir : Dir) : Io μ ErrorKind (List Path) :=
  hooked (fun _ d => d) fun d => (.ok (d.list dir),d)

def syncDir (dir : Dir) : Io μ ErrorKind Unit :=
  hooked (fun _ d => d) fun d => (.ok (),d.syncDir dir)

/-- Directories are not part of the model; creating them is a call that may fail. -/
def createDirAll (_dir : Dir) : Io μ ErrorKind Unit := hooked (fun _ d => d) fun d => (.ok (),d)

def readAt (file : InodeId) (offset len : ℕ) : Io μ ErrorKind Bytes :=
  hooked (fun _ d => d) fun d =>
    let data := (d.inodes file).image
    if offset+len > data.length then (.error .UnexpectedEof,d)
    else (.ok ((data.drop offset).take len),d)

def len (file : InodeId) : Io μ ErrorKind ℕ :=
  hooked (fun _ d => d) fun d => (.ok (d.inodes file).image.length,d)

/-- `match call { Ok(v) => Some(v), Err(e) if e.kind() == kind => None, Err(e) => return Err(e) }`. -/
def optional (kind : ErrorKind) (p : Io μ ErrorKind α) : Io μ ErrorKind (Option α) := fun fs s =>
  match p fs s with
  | (.ok a,fs',s') => (.ok (some a),fs',s')
  | (.err e,fs',s') => if e = kind then (.ok none,fs',s') else (.err e,fs',s')
  | (.lost,fs',s') => (.lost,fs',s')

/-- An empty write leaves no dirty operation behind. -/
def written (file : InodeId) (offset : ℕ) (data : Bytes) (d : Disk) : Disk :=
  if data = [] then d else d.push file (.Write offset data)

def writeAt (file : InodeId) (offset : ℕ) (data : Bytes) : Io μ ErrorKind Unit :=
  hooked
    (fun f d => match f with
      | .short n => written file offset (data.take n) d
      | _ => d)
    fun d => (.ok (),written file offset data d)

def setLen (file : InodeId) (len : ℕ) : Io μ ErrorKind Unit :=
  hooked (fun _ d => d) fun d => (.ok (),d.push file (.SetLen len))

/-- Reserve storage: this backing models it by extending the file. -/
def allocateRange (file : InodeId) (offset length : ℕ) : Io μ ErrorKind Unit :=
  match checkedAdd offset length with
  | none => Prog.throw .InvalidInput
  | some stop => do
    let n ← len file
    if n < stop then setLen file stop else pure ()

/-- Zeros over a range, clipped to the file's length. -/
def punchHole (file : InodeId) (offset length : ℕ) : Io μ ErrorKind Unit :=
  hooked (fun _ d => d) fun d =>
    match checkedAdd offset length with
    | none => (.error .InvalidInput,d)
    | some stop =>
      let stop := min stop (d.inodes file).image.length
      if offset ≥ stop then (.ok (),d)
      else (.ok (),d.push file (.Write offset (List.replicate (stop-offset) 0)))

def syncData (file : InodeId) : Io μ ErrorKind Unit :=
  hooked (fun _ d => d.mapInode file Inode.dropDirty) fun d => (.ok (),d.mapInode file Inode.sync)

/-- In this backing data and allocation metadata are synced together. -/
def syncAll (file : InodeId) : Io μ ErrorKind Unit := syncData file

section Quiet

/-! The calls when no fault is injected. -/

variable {m : μ} {d : Disk}

theorem openFile_quiet {path : Path} {create : Bool} {i : InodeId} (h : d.volatile path = some i) :
    openFile path create [] (m,d) = (.ok i,[],m,d) := by
  simp [openFile,hooked,Prog.call,default,h]

theorem openFile_quiet_absent {path : Path} (h : d.volatile path = none) :
    openFile path false [] (m,d) = (.err .NotFound,[],m,d) := by
  simp [openFile,hooked,Prog.call,default,h]

theorem readAt_quiet {file : InodeId} {offset n : ℕ}
    (h : offset+n ≤ (d.inodes file).image.length) :
    readAt file offset n [] (m,d) = (.ok (((d.inodes file).image.drop offset).take n),[],m,d) := by
  simp [readAt,hooked,Prog.call,default,Nat.not_lt.mpr h]

theorem readAt_quiet_past {file : InodeId} {offset n : ℕ}
    (h : (d.inodes file).image.length < offset+n) :
    readAt file offset n [] (m,d) = (.err .UnexpectedEof,[],m,d) := by
  simp [readAt,hooked,Prog.call,default,h]

end Quiet

section Rules

variable {pre : μ × Disk → Prop} {err : ErrorKind → μ × Disk → Prop} {lost : μ × Disk → Prop}

theorem hooked_triple {ok : α → μ × Disk → Prop} {failed : Fault → Disk → Disk}
    {run : Disk → Except ErrorKind α × Disk}
    (hrun : ∀ m d, pre (m,d) →
      match run d with
      | (.ok a,d') => ok a (m,d')
      | (.error e,d') => err e (m,d'))
    (hfail : ∀ m d f, pre (m,d) → err .Other (m,failed f d))
    (hlost : ∀ s, pre s → lost s) : Triple pre (hooked failed run) ok err lost := by
  apply Triple.call
  rintro f ⟨m,d⟩ hs
  cases f with
  | none =>
    have h := hrun m d hs
    rcases hr : run d with ⟨r,d'⟩
    rw [hr] at h
    cases r <;> simpa [hr] using h
  | fail => exact hfail m d .fail hs
  | short n => exact hfail m d (.short n) hs
  | crash => exact hlost (m,d) hs

theorem optional_triple {kind : ErrorKind} {p : Io μ ErrorKind α} {ok : Option α → μ × Disk → Prop}
    (h : Triple pre p (fun a => ok (some a))
      (fun e s => if e = kind then ok none s else err e s) lost) :
    Triple pre (optional kind p) ok err lost := by
  intro fs s hs
  have hp := h fs s hs
  simp only [optional]
  rcases hr : p fs s with ⟨o,fs',s'⟩
  rw [hr] at hp
  cases o with
  | ok a => exact hp
  | err e =>
    by_cases he : e = kind
    · simpa [he] using hp
    · simpa [he] using hp
  | lost => exact hp

variable {file : InodeId} {ok : Unit → μ × Disk → Prop}

theorem len_triple {ok : ℕ → μ × Disk → Prop}
    (hok : ∀ m d, pre (m,d) → ok (d.inodes file).image.length (m,d))
    (herr : ∀ s, pre s → err .Other s) (hlost : ∀ s, pre s → lost s) :
    Triple pre (len file) ok err lost :=
  hooked_triple hok (fun m d _ hs => herr (m,d) hs) hlost

theorem readAt_triple {offset n : ℕ} {ok : Bytes → μ × Disk → Prop}
    (hok : ∀ m d, pre (m,d) → offset+n ≤ (d.inodes file).image.length →
      ok (((d.inodes file).image.drop offset).take n) (m,d))
    (heof : ∀ m d, pre (m,d) → (d.inodes file).image.length < offset+n → err .UnexpectedEof (m,d))
    (herr : ∀ s, pre s → err .Other s) (hlost : ∀ s, pre s → lost s) :
    Triple pre (readAt file offset n) ok err lost := by
  apply hooked_triple _ (fun m d _ hs => herr (m,d) hs) hlost
  intro m d hs
  by_cases hn : offset+n > (d.inodes file).image.length
  · simpa [hn] using heof m d hs hn
  · simpa [hn] using hok m d hs (by omega)

theorem setLen_triple {n : ℕ}
    (hok : ∀ m d, pre (m,d) → ok () (m,d.push file (.SetLen n)))
    (herr : ∀ s, pre s → err .Other s) (hlost : ∀ s, pre s → lost s) :
    Triple pre (setLen file n) ok err lost :=
  hooked_triple hok (fun m d _ hs => herr (m,d) hs) hlost

/-- A failing write may have persisted any first part of its data. -/
theorem writeAt_triple {offset : ℕ} {data : Bytes}
    (hok : ∀ m d, pre (m,d) → ok () (m,written file offset data d))
    (herr : ∀ m d n, pre (m,d) → err .Other (m,written file offset (data.take n) d))
    (hlost : ∀ s, pre s → lost s) : Triple pre (writeAt file offset data) ok err lost := by
  apply hooked_triple hok _ hlost
  intro m d f hs
  cases f with
  | short n => exact herr m d n hs
  | _ => simpa [written] using herr m d 0 hs

theorem syncData_triple
    (hok : ∀ m d, pre (m,d) → ok () (m,d.mapInode file Inode.sync))
    (herr : ∀ m d, pre (m,d) → err .Other (m,d.mapInode file Inode.dropDirty))
    (hlost : ∀ s, pre s → lost s) : Triple pre (syncData file) ok err lost :=
  hooked_triple hok (fun m d _ hs => herr m d hs) hlost

theorem syncDir_triple {dir : Dir}
    (hok : ∀ m d, pre (m,d) → ok () (m,d.syncDir dir))
    (herr : ∀ s, pre s → err .Other s) (hlost : ∀ s, pre s → lost s) :
    Triple pre (syncDir dir) ok err lost :=
  hooked_triple hok (fun m d _ hs => herr (m,d) hs) hlost

theorem openFile_triple {path : Path} {create : Bool} {ok : InodeId → μ × Disk → Prop}
    (hfound : ∀ m d i, pre (m,d) → d.volatile path = some i → ok i (m,d))
    (hmade : ∀ m d, pre (m,d) → d.volatile path = none → create = true →
      ok (d.nextInode+1) (m,d.create path))
    (habsent : ∀ m d, pre (m,d) → d.volatile path = none → create = false → err .NotFound (m,d))
    (herr : ∀ s, pre s → err .Other s) (hlost : ∀ s, pre s → lost s) :
    Triple pre (openFile path create) ok err lost := by
  apply hooked_triple _ (fun m d _ hs => herr (m,d) hs) hlost
  intro m d hs
  cases hv : d.volatile path with
  | some i => exact hfound m d i hs hv
  | none =>
    cases create with
    | true => exact hmade m d hs hv rfl
    | false => exact habsent m d hs hv rfl

theorem remove_triple {path : Path}
    (hok : ∀ m d i, pre (m,d) → d.volatile path = some i → ok () (m,d.relink path none))
    (habsent : ∀ m d, pre (m,d) → d.volatile path = none → err .NotFound (m,d))
    (herr : ∀ s, pre s → err .Other s) (hlost : ∀ s, pre s → lost s) :
    Triple pre (remove path) ok err lost := by
  apply hooked_triple _ (fun m d _ hs => herr (m,d) hs) hlost
  intro m d hs
  cases hv : d.volatile path with
  | some i => exact hok m d i hs hv
  | none => exact habsent m d hs hv

theorem rename_triple {source target : Path} (hne : source ≠ target)
    (hok : ∀ m d i, pre (m,d) → d.volatile source = some i → ok () (m,d.rename source target))
    (habsent : ∀ m d, pre (m,d) → d.volatile source = none → err .NotFound (m,d))
    (herr : ∀ s, pre s → err .Other s) (hlost : ∀ s, pre s → lost s) :
    Triple pre (rename source target) ok err lost := by
  apply hooked_triple _ (fun m d _ hs => herr (m,d) hs) hlost
  intro m d hs
  cases hv : d.volatile source with
  | some i => simpa only [if_neg hne] using hok m d i hs hv
  | none => exact habsent m d hs hv

end Rules

/-- The program only reads: it leaves the state alone however it ends, a value it returns
is `get` of the disk, and without a fault it does return. -/
structure Reads {ε : Type} (p : Io μ ε α) (get : Disk → α) : Prop where
  triple : ∀ s, Ends (fun s' => s' = s) p (fun a s' => s' = s ∧ a = get s.2)
    (fun s' => s' = s)
  quiet : ∀ s, p [] s = (.ok (get s.2),[],s)

namespace Reads

variable {β ε : Type}

theorem pure (a : α) : Reads (Prog.pure a : Io μ ε α) (fun _ => a) where
  triple _ := Triple.pure fun _ h => ⟨h,rfl⟩
  quiet _ := rfl

variable {p : Io μ ε α} {get : Disk → α}

theorem bind {f : α → Io μ ε β} {next : α → Disk → β}
    (hp : Reads p get) (hf : ∀ a, Reads (f a) (next a)) :
    Reads (Prog.bind p f) (fun d => next (get d) d) where
  triple s := by
    apply Triple.bind (hp.triple s)
    intro a fs s' hs
    obtain ⟨rfl,rfl⟩ := hs
    exact (hf _).triple s' fs s' rfl
  quiet s := by simp only [Prog.bind,hp.quiet,(hf _).quiet]

theorem mapErr {δ : Type} (h : Reads p get) (g : ε → δ) :
    Reads (Prog.mapErr g p) get where
  triple s := Triple.mapErr (h.triple s)
  quiet s := Prog.mapErr_of_ok (h.quiet s)

theorem bind_triple {f : α → Io μ ε β} {s : μ × Disk}
    {ok : β → μ × Disk → Prop} {err : ε → μ × Disk → Prop} {lost : μ × Disk → Prop}
    (hp : Reads p get) (herr : ∀ e, err e s) (hlost : lost s)
    (hf : Triple (fun s' => s' = s) (f (get s.2)) ok err lost) :
    Triple (fun s' => s' = s) (Prog.bind p f) ok err lost := by
  apply Triple.bind ((hp.triple s).weaken (fun _ _ h => h) (fun e _ h => h ▸ herr e) fun _ h => h ▸ hlost)
  rintro a fs s' ⟨rfl,rfl⟩
  exact hf fs s' rfl

theorem len (file : InodeId) :
    Reads (Io.len file : Io μ ErrorKind ℕ) fun d => (d.inodes file).image.length where
  triple s := Io.len_triple (fun _ _ h => by subst h; exact ⟨rfl,rfl⟩) (fun _ h => h) (fun _ h => h)
  quiet _ := rfl

theorem list (dir : Dir) : Reads (Io.list dir : Io μ ErrorKind _) fun d => d.list dir where
  triple s := Io.hooked_triple (fun _ _ h => by subst h; exact ⟨rfl,rfl⟩) (fun _ _ _ h => h)
    (fun _ h => h)
  quiet _ := rfl

/-- Opening a file that may be missing. An injected failure is never `NotFound`. -/
theorem openFile (path : Path) :
    Reads (optional .NotFound (Io.openFile path false) : Io μ ErrorKind _) fun d => d.volatile path where
  triple s := by
    apply optional_triple
    apply openFile_triple
    · rintro m d i rfl hv
      exact ⟨rfl,hv.symm⟩
    · rintro m d rfl - hc
      cases hc
    · rintro m d rfl hv -
      exact ⟨rfl,hv.symm⟩
    · exact fun _ h => h
    · exact fun _ h => h
  quiet := by
    rintro ⟨m,d⟩
    cases hv : d.volatile path with
    | none => simp only [optional,openFile_quiet_absent hv,if_true]
    | some i => simp only [optional,openFile_quiet hv]

/-- Reading a range that may be past the end. -/
theorem readAt (file : InodeId) (offset n : ℕ) :
    Reads (optional .UnexpectedEof (Io.readAt file offset n) : Io μ ErrorKind _) fun d =>
      if offset+n ≤ (d.inodes file).image.length then
        some (((d.inodes file).image.drop offset).take n) else none where
  triple s := by
    apply optional_triple
    apply readAt_triple
    · rintro m d rfl hn
      exact ⟨rfl,(if_pos hn).symm⟩
    · rintro m d rfl hn
      exact ⟨rfl,(if_neg (Nat.not_le.mpr hn)).symm⟩
    · exact fun _ h => h
    · exact fun _ h => h
  quiet := by
    rintro ⟨m,d⟩
    by_cases hn : offset+n ≤ (d.inodes file).image.length
    · simp only [optional,readAt_quiet hn,if_pos hn]
    · simp only [optional,readAt_quiet_past (Nat.not_le.mp hn),if_neg hn,if_true]

end Reads

variable {lost : μ × Disk → Prop}

theorem allocateRange_triple {pre : μ × Disk → Prop} {err : ErrorKind → μ × Disk → Prop}
    {file : InodeId} {offset length : ℕ} {ok : Unit → μ × Disk → Prop}
    (hgrow : ∀ m d, pre (m,d) → (d.inodes file).image.length < offset+length →
      ok () (m,d.push file (.SetLen (offset+length))))
    (hkeep : ∀ m d, pre (m,d) → offset+length ≤ (d.inodes file).image.length → ok () (m,d))
    (herr : ∀ e s, pre s → err e s) (hlost : ∀ s, pre s → lost s) :
    Triple pre (allocateRange file offset length) ok err lost := by
  unfold allocateRange checkedAdd
  by_cases hs : offset+length < 2^64
  · simp only [if_pos hs]
    apply Triple.ofEach
    rintro ⟨m,d⟩ hpre
    apply (Reads.len file).bind_triple (fun e => herr e _ hpre) (hlost _ hpre)
    by_cases hn : (d.inodes file).image.length < offset+length
    · rw [if_pos hn]
      apply setLen_triple
      · rintro _ _ ⟨⟩
        exact hgrow m d hpre hn
      · exact fun s hs => herr _ s (hs ▸ hpre)
      · exact fun s hs => hlost s (hs ▸ hpre)
    · rw [if_neg hn]
      exact .pure fun s hs => hs ▸ hkeep m d hpre (Nat.not_lt.mp hn)
  · simp only [if_neg hs]
    exact .throw fun s hp => herr _ s hp

theorem punchHole_triple {pre : μ × Disk → Prop} {err : ErrorKind → μ × Disk → Prop}
    {file : InodeId} {offset length : ℕ} {ok : Unit → μ × Disk → Prop}
    (hzero : ∀ m d k, pre (m,d) → k ≤ length →
      ok () (m,d.push file (.Write offset (List.replicate k 0))))
    (hkeep : ∀ s, pre s → ok () s) (herr : ∀ e s, pre s → err e s) (hlost : ∀ s, pre s → lost s) :
    Triple pre (punchHole file offset length) ok err lost := by
  refine hooked_triple (fun m d hs => ?_) (fun m d _ hs => herr _ _ hs) hlost
  unfold checkedAdd
  by_cases hsum : offset+length < 2^64
  · simp only [if_pos hsum]
    by_cases hstop : offset ≥ min (offset+length) (d.inodes file).image.length
    · simp only [if_pos hstop]
      exact hkeep _ hs
    · simp only [if_neg hstop]
      exact hzero m d _ hs (by omega)
  · simp only [if_neg hsum]
    exact herr _ _ hs

/-- A reading program that judges what it read: like `Reads`, but without a fault it ends
as `get` of the disk says, with a value or an error. -/
structure Checks {ε : Type} (p : Io μ ε α) (get : Disk → Except ε α) : Prop where
  triple : ∀ s, Ends (fun s' => s' = s) p (fun a s' => s' = s ∧ get s.2 = .ok a)
    (fun s' => s' = s)
  quiet : ∀ s, p [] s =
    match get s.2 with
    | .ok a => (.ok a,[],s)
    | .error e => (.err e,[],s)

namespace Checks

variable {β ε : Type}

variable {p : Io μ ε α} {f : α → Io μ ε β} {get : Disk → Except ε α} {s : μ × Disk}

theorem ofReads {get : Disk → α} (h : Reads p get) :
    Checks p fun d => .ok (get d) where
  triple s := (h.triple s).weakenOk (fun _ _ hs => ⟨hs.1,congrArg _ hs.2.symm⟩)
  quiet := h.quiet

theorem ofExcept (x : Except ε α) : Checks (Prog.ofExcept x : Io μ ε α) fun _ => x where
  triple _ := Triple.ofExcept (fun _ _ hx hs => ⟨hs,hx⟩) (fun _ _ _ hs => hs)
  quiet _ := by cases x <;> rfl

theorem bind
    {next : α → Disk → Except ε β} (hp : Checks p get) (hf : ∀ a, Checks (f a) (next a)) :
    Checks (Prog.bind p f) (fun d => (get d).bind fun a => next a d) where
  triple s := by
    apply Triple.bind (hp.triple s)
    rintro a fs s' ⟨rfl,ha⟩
    refine ((hf a).triple s').weakenOk ?_ fs s' rfl
    rintro b _ ⟨rfl,hb⟩
    exact ⟨rfl,by simp only [ha,Except.bind,hb]⟩
  quiet s := by
    simp only [Prog.bind,hp.quiet]
    cases hg : get s.2 with
    | error e => rfl
    | ok a => simp only [(hf a).quiet,Except.bind]

theorem congr {get' : Disk → Except ε α} (h : Checks p get)
    (heq : ∀ d, get d = get' d) : Checks p get' := (funext heq : get = get') ▸ h

theorem quiet_of_ok (h : Checks p get) {a : α}
    (ha : get s.2 = .ok a) : p [] s = (.ok a,[],s) := by rw [h.quiet,ha]

theorem mapErr {δ : Type} (h : Checks p get) (g : ε → δ) :
    Checks (Prog.mapErr g p) fun d => (get d).mapError g where
  triple s := by
    apply Triple.mapErr
    refine (h.triple s).weakenOk ?_
    rintro a s' ⟨rfl,ha⟩
    exact ⟨rfl,by rw [ha]; rfl⟩
  quiet s := by
    simp only [Prog.mapErr,h.quiet]
    cases get s.2 <;> rfl

theorem readAt (file : InodeId) (offset n : ℕ) :
    Checks (Io.readAt file offset n : Io μ ErrorKind _) fun d =>
      if offset+n ≤ (d.inodes file).image.length then
        .ok (((d.inodes file).image.drop offset).take n) else .error .UnexpectedEof where
  triple s := by
    apply readAt_triple
    · rintro m d rfl hn
      exact ⟨rfl,if_pos hn⟩
    · exact fun _ _ h _ => h
    · exact fun _ h => h
    · exact fun _ h => h
  quiet := by
    rintro ⟨m,d⟩
    by_cases hn : offset+n ≤ (d.inodes file).image.length
    · simp only [readAt_quiet hn,if_pos hn]
    · simp only [readAt_quiet_past (Nat.not_le.mp hn),if_neg hn]

theorem bind_triple
    {ok : β → μ × Disk → Prop} {err : ε → μ × Disk → Prop} {lost : μ × Disk → Prop}
    (hp : Checks p get) (herr : ∀ e, err e s) (hlost : lost s)
    (hf : ∀ a, get s.2 = .ok a → Triple (fun s' => s' = s) (f a) ok err lost) :
    Triple (fun s' => s' = s) (Prog.bind p f) ok err lost := by
  apply Triple.bind ((hp.triple s).weaken (fun _ _ h => h) (fun e _ h => h ▸ herr e) fun _ h => h ▸ hlost)
  rintro a fs s' ⟨rfl,ha⟩
  exact hf a ha fs s' rfl

theorem bind_returns
    {ok : β → μ × Disk → Prop} (hp : Checks p get)
    (hf : ∀ a, get s.2 = .ok a → Returns (fun s' => s' = s) (f a) ok) :
    Returns (fun s' => s' = s) (Prog.bind p f) ok :=
  hp.bind_triple (fun _ => trivial) trivial hf

/-- A file that is opened, if it is there, and measured. -/
theorem opened {w : ErrorKind → ε} {path : Path} {a : α} {f : InodeId → ℕ → Io μ ε α}
    {r : InodeId → ℕ → Disk → Except ε α} {g : Bytes → Except ε α} (hf : ∀ i n, Checks (f i n) (r i n))
    (hg : ∀ i d, r i (d.inodes i).image.length d = g (d.inodes i).image) :
    Checks (Prog.bind (Prog.mapErr w (optional .NotFound (Io.openFile path false))) fun file =>
        match file with
        | none => Prog.pure a
        | some i => Prog.bind (Prog.mapErr w (Io.len i)) (f i))
      fun d => match d.image path with
        | none => .ok a
        | some bs => g bs := by
  let found (file : Option InodeId) (d : Disk) : Except ε α :=
    match file with
    | none => .ok a
    | some i => g (d.inodes i).image
  refine ((ofReads ((Reads.openFile path).mapErr w)).bind fun file => (?_ : Checks _ (found file))).congr
    fun d => ?_
  · cases file with
    | none => exact .ofReads (.pure a)
    | some i => exact ((ofReads ((Reads.len i).mapErr w)).bind (hf i)).congr fun d => hg i d
  · cases hv : d.volatile path <;> simp [Except.bind,Disk.image,hv,found]

theorem reads {get : Disk → α} (h : Checks p fun d => .ok (get d)) : Reads p get where
  triple s := (h.triple s).weakenOk fun _ _ hs => ⟨hs.1,(Except.ok.inj hs.2).symm⟩
  quiet := h.quiet

end Checks

/-- The program changes nothing, whatever it reads and however it ends. -/
def Still {ε : Type} (p : Io μ ε α) : Prop :=
  ∀ s, Ends (fun s' => s' = s) p (fun _ s' => s' = s) (fun s' => s' = s)

namespace Still

variable {β ε δ : Type}

variable {p : Io μ ε α} {f : α → Io μ ε β}

theorem ofReads {get : Disk → α} (h : Reads p get) : Still p := fun s =>
  (h.triple s).weakenOk (fun _ _ hs => hs.1)

theorem ofChecks {get : Disk → Except ε α} (h : Checks p get) : Still p := fun s =>
  (h.triple s).weakenOk (fun _ _ hs => hs.1)

theorem pure (a : α) : Still (Prog.pure a : Io μ ε α) := fun _ => .pure fun _ hs => hs

theorem mapErr (h : Still p) (g : ε → δ) : Still (Prog.mapErr g p) := fun s =>
  Triple.mapErr (h s)

theorem bind (hp : Still p) (hf : ∀ a, Still (f a)) :
    Still (Prog.bind p f) := fun s => Triple.bind (hp s) fun a => hf a s

theorem bind_triple {s : μ × Disk} {ok : β → μ × Disk → Prop}
    {err : ε → μ × Disk → Prop} {lost : μ × Disk → Prop} (hp : Still p) (herr : ∀ e, err e s)
    (hlost : lost s) (hf : ∀ a, Triple (fun s' => s' = s) (f a) ok err lost) :
    Triple (fun s' => s' = s) (Prog.bind p f) ok err lost :=
  Triple.bind ((hp s).weaken (fun _ _ hs => hs) (fun e _ hs => hs ▸ herr e)
    (fun _ hs => hs ▸ hlost)) hf

theorem bind_returns {s : μ × Disk} {ok : β → μ × Disk → Prop}
    (hp : Still p) (hf : ∀ a, Returns (fun s' => s' = s) (f a) ok) :
    Returns (fun s' => s' = s) (Prog.bind p f) ok :=
  hp.bind_triple (fun _ => trivial) trivial hf

theorem keeps {J : μ × Disk → Prop} (h : Still p) : Keeps J p :=
  Triple.ofEach fun s hs => (h s).weaken (fun _ _ ht => ht ▸ hs)
    (fun _ _ ht => ht ▸ hs) (fun _ ht => ht ▸ hs)

theorem fp (name : String) : Still (Io.fp name : Io μ ErrorKind Unit) := fun _ =>
  Io.hooked_triple (fun _ _ hs => hs) (fun _ _ _ hs => hs) fun _ hs => hs

end Still

/-- On the disk `d` the program changes nothing, and a value it returns satisfies `P`. -/
def Finds {ε : Type} (d : Disk) (P : α → Prop) (p : Io μ ε α) : Prop :=
  ∀ m, Returns (· = (m,d)) p fun a s => s = (m,d) ∧ P a

namespace Finds

variable {β ε δ : Type} {d : Disk} {P Q : α → Prop}

theorem pure {a : α} (h : P a) : Finds d P (Prog.pure a : Io μ ε α) := fun _ =>
  Triple.pure fun _ hs => ⟨hs,h⟩

theorem throw (e : ε) : Finds d P (Prog.throw e : Io μ ε α) := fun _ => .throw e

variable {p : Io μ ε α}

theorem ofReads {get : Disk → α} (h : Reads p get) : Finds d (· = get d) p := fun m =>
  .ofTriple (h.triple (m,d))

theorem ofChecks {get : Disk → Except ε α} (h : Checks p get) :
    Finds d (get d = .ok ·) p := fun m => .ofTriple (h.triple (m,d))

theorem ofStill (h : Still p) : Finds d (fun _ => True) p := fun m =>
  (Returns.ofTriple (h (m,d))).conseq (fun _ hs => hs) fun _ _ hs => ⟨hs,trivial⟩

theorem mono (h : Finds d P p) (hP : ∀ a, P a → Q a) : Finds d Q p := fun m =>
  (h m).conseq (fun _ hs => hs) fun a _ hs => ⟨hs.1,hP a hs.2⟩

theorem mapErr (h : Finds d P p) (g : ε → δ) : Finds d P (Prog.mapErr g p) := fun m =>
  Triple.mapErr (h m)

theorem bind {R : β → Prop} {f : α → Io μ ε β} (hp : Finds d P p)
    (hf : ∀ a, P a → Finds d R (f a)) : Finds d R (Prog.bind p f) := fun m =>
  (hp m).bind fun a fs s hs => by
    obtain ⟨rfl,ha⟩ := hs
    exact hf a ha m fs _ rfl

end Finds

/-- The program reads and changes the disk only: what holds of the object in memory is kept. -/
def Silent {ε : Type} (p : Io μ ε α) : Prop := ∀ Q : μ → Prop, Keeps (fun t => Q t.1) p

namespace Silent

variable {β ε δ : Type}

theorem hooked (failed : Fault → Disk → Disk) (run : Disk → Except ErrorKind α × Disk) :
    Silent (Io.hooked failed run : Io μ ErrorKind α) := by
  intro Q
  apply Triple.call
  rintro f ⟨m,d⟩ hm
  cases f with
  | none =>
    simp only
    rcases hr : run d with ⟨_ | _,_⟩ <;> exact hm
  | fail => exact hm
  | short n => exact hm
  | crash => exact hm

theorem pure (a : α) : Silent (Prog.pure a : Io μ ε α) := fun _ => .pure a

theorem throw (e : ε) : Silent (Prog.throw e : Io μ ε α) := fun _ => .throw e

variable {p : Io μ ε α}

theorem bind {f : α → Io μ ε β} (hp : Silent p) (hf : ∀ a, Silent (f a)) :
    Silent (Prog.bind p f) := fun Q => (hp Q).bind fun a => hf a Q

theorem ofStill (h : Still p) : Silent p := fun _ => h.keeps

theorem mapErr (h : Silent p) (g : ε → δ) : Silent (Prog.mapErr g p) := fun Q =>
  (h Q).mapErr g

theorem forEach {f : β → Io μ ε Unit} {xs : List β} (h : ∀ x ∈ xs, Silent (f x)) :
    Silent (Prog.forEach xs f) := fun Q => .forEach fun x hx => h x hx Q

end Silent

/-- Run a program on a local variable; its last value is returned with the result. -/
def withLocal {τ ε : Type} (t : τ) (p : Io τ ε α) : Io μ ε (α × τ) := fun fs s =>
  match p fs (t,s.2) with
  | (.ok a,fs',t',d) => (.ok (a,t'),fs',s.1,d)
  | (.err e,fs',_,d) => (.err e,fs',s.1,d)
  | (.lost,fs',_,d) => (.lost,fs',s.1,d)

theorem withLocal_triple {τ ε : Type} {t : τ} {p : Io τ ε α} {m : μ} {d : Disk}
    {ok : α × τ → μ × Disk → Prop} {err : ε → μ × Disk → Prop}
    (h : Triple (· = (t,d)) p (fun a s => ok (a,s.1) (m,s.2)) (fun e s => err e (m,s.2))
      (fun s => lost (m,s.2))) :
    Triple (· = (m,d)) (withLocal t p) ok err lost := by
  rintro fs _ rfl
  have hp := h fs (t,d) rfl
  simp only [withLocal]
  rcases hr : p fs (t,d) with ⟨o,fs',t',d'⟩
  rw [hr] at hp
  cases o <;> exact hp

theorem Silent.withLocal {τ ε : Type} (t : τ) (p : Io τ ε α) :
    Silent (Io.withLocal t p : Io μ ε (α × τ)) := by
  intro Q fs s hs
  simp only [Io.withLocal]
  rcases hr : p fs (t,s.2) with ⟨o,fs',t',d'⟩
  cases o <;> exact hs

end Io
end Maki
