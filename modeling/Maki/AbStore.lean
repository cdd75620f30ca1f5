import Maki.Codec

/-! A/B dual-copy metadata (`maki_format::ab`). A record carries a generation and is
CRC-protected; `store` makes the valid side it will preserve durable before it
overwrites the stale side, `load` selects the valid copy with the highest generation. -/
namespace Maki

class AbRecord (T : Type) where
  /-- The largest a valid encoding of this record can be. -/
  maxEncodedLen : ℕ := 1 <<< 30
  generation : T → ℕ
  setGeneration : ℕ → T → T
  encode : T → Bytes
  decode : Bytes → Except FormatError T

structure AbStore where
  a : Path
  b : Path
  maxLen : Option ℕ := none

/-- The generation of any A/B record: `magic[8] version[4] generation[8] ...` and a CRC. -/
def RawGeneration.reader : Reader ℕ := do
  let _magic ← Reader.take 8
  let _version ← Reader.u32
  Reader.u64

def RawGeneration.decode [Crc32] (data : Bytes) : Except FormatError ℕ := do
  let payload ← stripVerifyCrc data "ab record"
  RawGeneration.reader.decode payload

/-- Whatever follows the generation, a record of this shape ranks by it. -/
theorem RawGeneration.decode_finish [Crc32] {magic rest : Bytes} {version g : ℕ}
    (hm : magic.length = 8) (hv : version < 2^32) (hg : g < 2^64) :
    RawGeneration.decode (finishWithCrc (magic ++ (leBytes 4 version ++ (leBytes 8 g ++ rest)))) =
      .ok g := by
  simp only [RawGeneration.decode,bind_ok_iff,stripVerifyCrc_ok_iff,RawGeneration.reader,Reader.decode_ok,
    Reader.bind_ok,Reader.take_ok,Reader.u32_ok,Reader.u64_ok]
  exact ⟨_,rfl,⟨_,_⟩,_,⟨_,_⟩,⟨hm,rfl,rfl⟩,_,⟨_,_⟩,⟨hv,rfl,rfl⟩,hg,rfl,rfl⟩

/-- Only a failing checksum hides the generation of a record that is long enough. -/
theorem RawGeneration.decode_none [Crc32] {bs : Bytes} (hl : 24 ≤ bs.length)
    (h : (RawGeneration.decode bs).toOption = none) (what : String) :
    stripVerifyCrc bs what = .error (.BadChecksum what) := by
  cases hs : stripVerifyCrc bs "ab record" with
  | error e => exact stripVerifyCrc_bad hs (by omega) what
  | ok payload =>
    obtain rfl := finishWithCrc_of_ok hs
    rw [length_finishWithCrc] at hl
    obtain ⟨magic,rest,rfl,hm⟩ : ∃ magic rest, payload = magic ++ rest ∧ magic.length = 8 :=
      ⟨_,_,(List.take_append_drop 8 payload).symm,List.length_take_of_le (by omega)⟩
    rw [List.length_append,hm] at hl
    obtain ⟨version,rest,hv,rfl⟩ := exists_leBytes (show 4 ≤ rest.length by omega)
    rw [List.length_append,length_leBytes] at hl
    obtain ⟨g,rest,hg,rfl⟩ := exists_leBytes (show 8 ≤ rest.length by omega)
    rw [RawGeneration.decode_finish hm hv hg] at h
    cases h

/-- `?` on an I/O result inside a format operation. -/
def formatIo {μ α : Type} (p : Io μ ErrorKind α) : Io μ FormatError α := Prog.mapErr .Io p

theorem Io.Reads.formatIo {μ α : Type} {p : Io μ ErrorKind α} {get : Disk → α} (h : Io.Reads p get) :
    Io.Reads (Maki.formatIo p) get := h.mapErr _

section Sized

/-! Copies that have one length: a file of another length is judged by its first bytes. -/

variable {μ β : Type} (size : ℕ) (header whole : Bytes → Except FormatError (Option β))

def sizedOf (bs : Bytes) : Except FormatError (Option β) :=
  if bs.length ≠ size then if bs.length ≥ 12 then header (bs.take 12) else .ok none
  else whole bs

def sizedAt (d : Disk) (path : Path) : Except FormatError (Option β) :=
  match d.image path with
  | none => .ok none
  | some bs => sizedOf size header whole bs

variable {size header whole}

/-- What a copy that counts holds. -/
theorem sizedAt_some {d : Disk} {path : Path} {v : β} (hh : ∀ bs, header bs ≠ .ok (some v)) :
    sizedAt size header whole d path = .ok (some v) ↔
      ∃ bs, d.image path = some bs ∧ bs.length = size ∧ whole bs = .ok (some v) := by
  unfold sizedAt sizedOf
  cases d.image path with
  | none => simp
  | some bs =>
    simp only [Option.some.injEq,exists_eq_left']
    split_ifs with hl
    · simp [hh,hl]
    · simp [hl]
    · simp [not_not.mp hl]

/-- A load judges both sides and chooses between what they hold. -/
theorem both_sides {γ : Type} (copy : Side → Except FormatError (Option β))
    {select : Option β → Option β → Except FormatError γ} {r : γ}
    (h : ((copy .a).bind fun a => (copy .b).bind fun b => select a b) = .ok r) :
    ∃ held : Side → Option β, (∀ x, copy x = .ok (held x)) ∧ select (held .a) (held .b) = .ok r := by
  obtain ⟨a,ha,h⟩ := bind_ok_iff.mp h
  obtain ⟨b,hb,h⟩ := bind_ok_iff.mp h
  refine ⟨fun x => if x = .a then a else b,fun x => ?_,by simpa using h⟩
  cases x with
  | a => exact ha
  | b => exact hb

/-- One of the sides holds `r`, and all that is held is as `P` says. -/
structure Chosen (held : Side → Option β) (r : β) (P : β → Prop) : Prop where
  one : ∃ x, held x = some r
  all : ∀ x q, held x = some q → P q

theorem Chosen.of {held : Side → Option β} {r : β} {P : β → Prop} (x : Side) (hx : held x = some r) (hr : P r)
    (ho : ∀ q, held x.other = some q → P q) : Chosen held r P := by
  refine ⟨⟨x,hx⟩,fun y q hq => ?_⟩
  obtain rfl | rfl : y = x ∨ y = x.other := by cases x <;> cases y <;> simp [Side.other]
  · obtain rfl : q = r := by simpa [hq] using hx
    exact hr
  · exact ho q hq

/-- A choice takes the one record that is held, or of two the one that `P` puts before the other. -/
theorem Chosen.ofSelect {γ : Type} {select : Option β → Option β → Except FormatError γ} {out : β → γ}
    {P : β → β → Prop} (hself : ∀ v, P v v) (hnone : ∀ r, select none none ≠ .ok r)
    (hone : ∀ v, select (some v) none = .ok (out v) ∧ select none (some v) = .ok (out v))
    (htwo : ∀ a b r, select (some a) (some b) = .ok r → out a = r ∧ P a b ∨ out b = r ∧ P b a)
    {held : Side → Option β} {r : γ} (h : select (held .a) (held .b) = .ok r) :
    ∃ v, out v = r ∧ Chosen held v (P v) := by
  cases ha : held .a with
  | none =>
    cases hb : held .b with
    | none =>
      rw [ha,hb] at h
      exact absurd h (hnone r)
    | some b =>
      rw [ha,hb,(hone b).2] at h
      exact ⟨b,Except.ok.inj h,.of .b hb (hself b) (by simp [Side.other,ha])⟩
  | some a =>
    cases hb : held .b with
    | none =>
      rw [ha,hb,(hone a).1] at h
      exact ⟨a,Except.ok.inj h,.of .a ha (hself a) (by simp [Side.other,hb])⟩
    | some b =>
      rw [ha,hb] at h
      rcases htwo a b r h with ⟨hr,hp⟩ | ⟨hr,hp⟩
      · exact ⟨a,hr,.of .a ha (hself a) (by simpa [Side.other,hb] using hp)⟩
      · exact ⟨b,hr,.of .b hb (hself b) (by simpa [Side.other,ha] using hp)⟩

theorem checks_range {file : InodeId} {n : ℕ} (f : Bytes → Except FormatError (Option β)) :
    Io.Checks (μ := μ) (Prog.bind (formatIo (Io.optional .UnexpectedEof (Io.readAt file 0 n)))
        fun r => match r with
          | none => Prog.pure none
          | some bytes => Prog.ofExcept (f bytes))
      fun d => if n ≤ (d.inodes file).image.length then f ((d.inodes file).image.take n)
        else .ok none := by
  have hrest : ∀ r : Option Bytes, Io.Checks (μ := μ) (match r with
        | none => Prog.pure none
        | some bytes => Prog.ofExcept (f bytes))
      fun _ => match r with
        | none => .ok none
        | some bytes => f bytes := by
    intro r
    cases r with
    | none => exact .ofReads (.pure none)
    | some bytes => exact .ofExcept (f bytes)
  apply ((Io.Checks.ofReads (Io.Reads.readAt file 0 n).formatIo).bind hrest).congr
  intro d
  by_cases hn : n ≤ (d.inodes file).image.length <;> simp [Except.bind,hn]

theorem checks_sized (path : Path) :
    Io.Checks (μ := μ) (Prog.bind (formatIo (Io.optional .NotFound (Io.openFile path false)))
        fun file => match file with
          | none => Prog.pure none
          | some i => Prog.bind (formatIo (Io.len i)) fun n =>
            if n ≠ size then
              if n ≥ 12 then Prog.bind (formatIo (Io.optional .UnexpectedEof (Io.readAt i 0 12)))
                fun r => match r with
                  | none => Prog.pure none
                  | some bytes => Prog.ofExcept (header bytes)
              else Prog.pure none
            else Prog.bind (formatIo (Io.optional .UnexpectedEof (Io.readAt i 0 size)))
              fun r => match r with
                | none => Prog.pure none
                | some bytes => Prog.ofExcept (whole bytes))
      fun d => sizedAt size header whole d path := by
  let judged (i : InodeId) (n : ℕ) (d : Disk) : Except FormatError (Option β) :=
    let image := (d.inodes i).image
    if n ≠ size then
      if n ≥ 12 then if 12 ≤ image.length then header (image.take 12) else .ok none
      else .ok none
    else if size ≤ image.length then whole (image.take size) else .ok none
  refine Io.Checks.opened (r := judged) (g := sizedOf size header whole) (fun i n => ?_) fun i d => ?_
  · by_cases hn : n ≠ size
    · by_cases hm : n ≥ 12
      · simpa only [judged,if_pos hn,if_pos hm] using checks_range header
      · simpa only [judged,if_pos hn,if_neg hm] using .ofReads (.pure none)
    · simpa only [judged,if_neg hn] using checks_range whole
  · simp only [sizedOf,judged]
    by_cases hn : (d.inodes i).image.length ≠ size
    · by_cases hm : (d.inodes i).image.length ≥ 12
      · simp only [if_pos hn,if_pos hm]
      · simp only [if_pos hn,if_neg hm]
    · have hlen := not_not.mp hn
      have htake : (d.inodes i).image.take size = (d.inodes i).image :=
        List.take_of_length_le (Nat.le_of_eq hlen)
      simp only [if_neg hn,if_pos (Nat.le_of_eq hlen.symm),htake]

end Sized

namespace AbStore

open AbRecord

variable {μ : Type} (T : Type) [AbRecord T]

def path (s : AbStore) : Side → Path
  | .a => s.a
  | .b => s.b

def bound (s : AbStore) : ℕ :=
  match s.maxLen with
  | none => maxEncodedLen T
  | some max => min max (maxEncodedLen T)

/-- The bytes of one side, unless it is absent, empty, over-long or shrank meanwhile. -/
def readBounded (path : Path) (maxLen : ℕ) : Io μ FormatError (Option Bytes) := do
  match ← formatIo (Io.optional .NotFound (Io.openFile path false)) with
  | none => return none
  | some file =>
    let len ← formatIo (Io.len file)
    if len = 0 ∨ len > maxLen then return none
    else formatIo (Io.optional .UnexpectedEof (Io.readAt file 0 len))

/-- One side and its exact validated bytes; `none` for an absent or invalid copy. -/
def readCopy (s : AbStore) (path : Path) : Io μ FormatError (Option (T × Bytes)) := do
  let buf ← readBounded path (s.bound T)
  return buf.bind fun bytes => (decode bytes).toOption.map fun record => (record,bytes)

def readSide (s : AbStore) (path : Path) : Io μ FormatError (Option T) := do
  return (← s.readCopy T path).map Prod.fst

def newest : Option T → Option T → Option T
  | some a, some b => some (if generation a ≥ generation b then a else b)
  | some a, none => some a
  | none, some b => some b
  | none, none => none

/-- Best valid copy, if any. An error only for hard I/O failures. -/
def load (s : AbStore) : Io μ FormatError (Option T) := do
  let a ← s.readSide T s.a
  let b ← s.readSide T s.b
  return newest T a b

/-- What `readBounded` finds: the visible bytes, when their number is in bounds. -/
def bytesAt (d : Disk) (path : Path) (maxLen : ℕ) : Option Bytes :=
  (d.image path).filter fun bytes => ¬ (bytes.length = 0 ∨ bytes.length > maxLen)

variable {d : Disk} {path : Path}

theorem bytesAt_of_volatile_none (h : d.volatile path = none) (n : ℕ) :
    bytesAt d path n = none := by simp [bytesAt,Disk.image,h]

theorem bytesAt_of_volatile {i : InodeId} (h : d.volatile path = some i)
    (n : ℕ) : bytesAt d path n =
      if (d.inodes i).image.length = 0 ∨ (d.inodes i).image.length > n then none
      else some (d.inodes i).image := by
  by_cases hb : (d.inodes i).image.length = 0 ∨ (d.inodes i).image.length > n
  · rw [if_pos hb]
    simpa [bytesAt,Disk.image,h,Option.filter_eq_none_iff,or_iff_not_imp_left] using hb
  · rw [if_neg hb]
    simpa [bytesAt,Disk.image,h,Option.filter_eq_some_iff] using hb

theorem readBounded_reads (path : Path) (maxLen : ℕ) :
    Io.Reads (readBounded path maxLen : Io μ FormatError _) fun d => bytesAt d path maxLen := by
  let rest (i : InodeId) (n : ℕ) (d : Disk) : Except FormatError (Option Bytes) :=
    if n = 0 ∨ n > maxLen then .ok none
    else .ok (if 0+n ≤ (d.inodes i).image.length then some (((d.inodes i).image.drop 0).take n) else none)
  let found (bs : Bytes) : Except FormatError (Option Bytes) :=
    .ok (if bs.length = 0 ∨ bs.length > maxLen then none else some bs)
  refine (Io.Checks.congr (p := readBounded path maxLen) (Io.Checks.opened (r := rest) (g := found)
    (fun i n => ?_) fun i d => ?_) fun d => ?_).reads
  · by_cases hn : n = 0 ∨ n > maxLen
    · simpa only [rest,if_pos hn] using .ofReads (.pure none)
    · simpa only [rest,if_neg hn] using .ofReads (Io.Reads.readAt i 0 n).formatIo
  · by_cases hn : (d.inodes i).image.length = 0 ∨ (d.inodes i).image.length > maxLen
    · simp only [rest,found,if_pos hn]
    · simp only [rest,found,if_neg hn]
      simp
  · cases hv : d.volatile path with
    | none => simp [bytesAt_of_volatile_none hv,Disk.image,hv]
    | some i => simp [bytesAt_of_volatile hv,Disk.image,hv,found]

def copyAt (s : AbStore) (d : Disk) (path : Path) : Option (T × Bytes) :=
  (bytesAt d path (s.bound T)).bind fun bytes =>
    (decode bytes).toOption.map fun record => (record,bytes)

variable {T} in
theorem copyAt_absent {s : AbStore} (h : d.image path = none) :
    s.copyAt T d path = none := by simp [copyAt,bytesAt,h]

theorem readCopy_reads (s : AbStore) (path : Path) :
    Io.Reads (s.readCopy T path : Io μ FormatError _) fun d => s.copyAt T d path :=
  (readBounded_reads path _).bind fun _ => .pure _

theorem readSide_reads (s : AbStore) (path : Path) :
    Io.Reads (s.readSide T path : Io μ FormatError _) fun d => (s.copyAt T d path).map Prod.fst :=
  (s.readCopy_reads T path).bind fun _ => .pure _

def loadAt (s : AbStore) (d : Disk) : Option T :=
  newest T ((s.copyAt T d s.a).map Prod.fst) ((s.copyAt T d s.b).map Prod.fst)

theorem load_reads (s : AbStore) :
    Io.Reads (s.load T : Io μ FormatError _) (s.loadAt T) :=
  (s.readSide_reads T s.a).bind fun _ => (s.readSide_reads T s.b).bind fun _ => .pure _

section Load

variable {T} {s : AbStore} {d : Disk} {x : Side}

theorem loadAt_of_other_none {r : T} {bs : Bytes} (hx : s.copyAt T d (s.path x) = some (r,bs))
    (ho : s.copyAt T d (s.path x.other) = none) : s.loadAt T d = some r := by
  cases x <;> simp_all [loadAt,path,Side.other,newest]

theorem loadAt_of_lt {r r' : T} {bs bs' : Bytes} (hx : s.copyAt T d (s.path x) = some (r,bs))
    (ho : s.copyAt T d (s.path x.other) = some (r',bs')) (hlt : generation r' < generation r) :
    s.loadAt T d = some r := by
  cases x <;> simp_all [loadAt,path,Side.other,newest]
  omega

end Load

variable [Crc32]

def rawAt (d : Disk) (path : Path) (maxLen : ℕ) : Option ℕ :=
  (bytesAt d path maxLen).bind fun bytes => (RawGeneration.decode bytes).toOption

def rawGeneration (path : Path) (maxLen : ℕ) : Io μ FormatError (Option ℕ) := do
  let buf ← readBounded path maxLen
  return buf.bind fun bytes => (RawGeneration.decode bytes).toOption

theorem rawGeneration_reads (path : Path) (maxLen : ℕ) :
    Io.Reads (rawGeneration path maxLen : Io μ FormatError _) fun d => rawAt d path maxLen :=
  (readBounded_reads path maxLen).bind fun _ => .pure _

def generations (s : AbStore) : Io μ FormatError (Option ℕ × Option ℕ) := do
  let ga ← rawGeneration s.a (s.bound T)
  let gb ← rawGeneration s.b (s.bound T)
  return (ga,gb)

theorem generations_reads (s : AbStore) :
    Io.Reads (s.generations T : Io μ FormatError _) fun d =>
      (rawAt d s.a (s.bound T),rawAt d s.b (s.bound T)) :=
  (rawGeneration_reads s.a _).bind fun _ => (rawGeneration_reads s.b _).bind fun _ => .pure _

/-- The side a store overwrites: one without a valid record first, then the older one. -/
def targetFor : Option ℕ → Option ℕ → Side
  | none, _ => .a
  | _, none => .b
  | some ga, some gb => if ga ≤ gb then .a else .b

def sideGenerations (s : AbStore) : Io μ FormatError (Option ℕ × Option ℕ) := do
  let a ← s.readSide T s.a
  let b ← s.readSide T s.b
  return (a.map generation,b.map generation)

def nextTargetPath (s : AbStore) : Io μ FormatError Path := do
  let (ga,gb) ← s.sideGenerations T
  return s.path (targetFor ga gb)

def rewrite (file : InodeId) (bytes : Bytes) : Io μ FormatError Unit := do
  formatIo (Io.setLen file bytes.length)
  formatIo (Io.writeAt file 0 bytes)
  formatIo (Io.syncData file)

/-- Redirty the exact validated image of the preserved side and its exact length, and
make its data and its directory entry durable. -/
def preserve (path : Path) (bytes : Bytes) : Io μ FormatError Unit := do
  let file ← formatIo (Io.openFile path false)
  rewrite file bytes
  formatIo (Io.syncDir path.parent)

def preserveCopy (path : Path) : Option (T × Bytes) → Io μ FormatError Unit
  | some (_,bytes) => preserve path bytes
  | none => pure ()

/-- Write a record's image over the target and sync it; its directory entry is left to
the caller. -/
def overwrite (path : Path) (bytes : Bytes) : Io μ FormatError Unit := do
  let file ← formatIo (Io.openFile path true)
  rewrite file bytes

/-- Bump the generation of the record in memory past `maxExisting` and overwrite the target. -/
def publish (s : AbStore) (target : Side) (maxExisting : ℕ) : Io T FormatError Unit := do
  let (record,_) ← Prog.get
  match checkedAdd (max maxExisting (generation record)) 1 with
  | none =>
    Prog.throw (.Invalid
      "A/B record generation space exhausted (near u64::MAX); refusing to store")
  | some next =>
    Prog.modify fun m => (setGeneration next m.1,m.2)
    overwrite (s.path target) (encode (setGeneration next record))

/-- Store the record in memory: preserve the other valid copy, then publish the record,
newer than both sides, over the target. -/
def store (s : AbStore) : Io T FormatError Unit := do
  let (ga,gb) ← s.generations T
  let maxExisting := max (ga.getD 0) (gb.getD 0)
  let a ← s.readCopy T s.a
  let b ← s.readCopy T s.b
  let target := targetFor (a.map fun c => generation c.1) (b.map fun c => generation c.1)
  let preserved := if target = .a then b else a
  preserveCopy T (s.path target.other) preserved
  s.publish T target maxExisting

omit [Crc32] in
theorem rewrite_silent (file : InodeId) (bytes : Bytes) :
    Io.Silent (rewrite file bytes : Io μ FormatError Unit) :=
  ((Io.Silent.hooked _ _).mapErr _).bind fun _ => ((Io.Silent.hooked _ _).mapErr _).bind fun _ =>
    (Io.Silent.hooked _ _).mapErr _

/-- A store changes nothing of the record in memory but its generation. -/
theorem store_keeps_record {Q : T → Prop} (hQ : ∀ g r, Q r → Q (setGeneration g r)) (s : AbStore) :
    Prog.Keeps (fun t => Q t.1) (s.store T) := by
  have hpreserve : ∀ path (c : Option (T × Bytes)),
      Io.Silent (preserveCopy T path c : Io T FormatError Unit) := by
    rintro path (_ | ⟨r,bytes⟩)
    · exact .pure _
    · exact ((Io.Silent.hooked _ _).mapErr _).bind fun _ => (rewrite_silent _ _).bind fun _ =>
        (Io.Silent.hooked _ _).mapErr _
  have hpublish : ∀ target maxExisting,
      Prog.Keeps (fun t => Q t.1) (s.publish T target maxExisting) := by
    intro target maxExisting
    unfold publish
    apply Prog.Keeps.get_bind
    rintro ⟨r,d⟩ hr
    refine Prog.Keeps.from_state ?_ hr
    simp only
    cases checkedAdd (max maxExisting (generation r)) 1 with
    | none => exact .throw _
    | some next =>
      refine (Prog.Keeps.modify fun t ht => hQ next t.1 ht).bind fun _ => ?_
      exact (((Io.Silent.hooked _ _).mapErr _).bind fun _ => rewrite_silent _ _) Q
  unfold store
  refine (Io.Still.ofReads (s.generations_reads T)).keeps.bind ?_
  rintro ⟨ga,gb⟩
  refine (Io.Still.ofReads (s.readCopy_reads T s.a)).keeps.bind fun a => ?_
  refine (Io.Still.ofReads (s.readCopy_reads T s.b)).keeps.bind fun b => ?_
  exact (hpreserve _ _ Q).bind fun _ => hpublish _ _

end AbStore
end Maki
