import Maki.Io

/-! Little-endian byte codec (`maki_format::codec`, `error`). A reader is the rest of
its buffer and the position reached in it. The CRC-32 implementation is a dependency
of the program and a parameter here. -/
namespace Maki

class Crc32 where
  hash : Bytes → UInt32

namespace Crc32

/-- One bit of the reflected polynomial division. -/
def bit (c : UInt32) : UInt32 := if c &&& 1 = 1 then (c >>> 1) ^^^ 0xEDB88320 else c >>> 1

def byte (c : UInt32) (b : UInt8) : UInt32 :=
  bit (bit (bit (bit (bit (bit (bit (bit (c ^^^ b.toUInt32))))))))

/-- The checksum the dependency computes, for closed instances. -/
@[reducible] def ieee : Crc32 := ⟨fun bs => bs.foldl byte 0xFFFFFFFF ^^^ 0xFFFFFFFF⟩

end Crc32

def ascii (s : String) : Bytes := s.toList.map fun c => UInt8.ofNat c.toNat

-- the check value of CRC-32/ISO-HDLC
example : (Crc32.ieee.hash (ascii "123456789")) = 0xCBF43926 := by decide +kernel

inductive FormatError where
  | Truncated (what : String)
  | BadMagic (what : String)
  | BadChecksum (what : String)
  | Unsupported (what : String)
  | Invalid (what : String)
  | Overflow (what : String)
  | AlreadyExists (what : String)
  | Io (kind : ErrorKind)
  deriving DecidableEq

theorem ok_of_mapError {ε δ α : Type} {x : Except ε α} {f : ε → δ} {a : α} (h : x.mapError f = .ok a) :
    x = .ok a := by
  cases x with
  | error e => cases h
  | ok b => exact congrArg Except.ok (Except.ok.inj h)

theorem bind_ok_iff {ε α β : Type} {x : Except ε α} {f : α → Except ε β} {b : β} :
    (x >>= f) = .ok b ↔ ∃ a, x = .ok a ∧ f a = .ok b := by
  cases x <;> simp [bind,Except.bind]

theorem bind_eq_ok {ε α β : Type} {x : Except ε α} {f : α → Except ε β} {b : β}
    (h : (x >>= f) = .ok b) : ∃ a, x = .ok a ∧ f a = .ok b := bind_ok_iff.mp h

theorem toOption_eq_some {ε α : Type} {x : Except ε α} {a : α} : x.toOption = some a ↔ x = .ok a := by
  cases x <;> simp [Except.toOption]

def leBytes : ℕ → ℕ → Bytes
  | 0, _ => []
  | k+1, n => UInt8.ofNat n :: leBytes k (n/256)

def leNat : Bytes → ℕ
  | [] => 0
  | b::bs => b.toNat + 256*leNat bs

@[simp] theorem length_leBytes (k n : ℕ) : (leBytes k n).length = k := by
  induction k generalizing n with
  | zero => rfl
  | succ k ih => simp [leBytes,ih]

theorem leNat_leBytes (k n : ℕ) : leNat (leBytes k n) = n % 256^k := by
  induction k generalizing n with
  | zero => simp [leBytes,leNat,Nat.mod_one]
  | succ k ih =>
    simp only [leBytes,leNat,ih,UInt8.toNat_ofNat']
    rw [show 256^(k+1) = 256*256^k from Nat.pow_succ',Nat.mod_mul]

theorem leNat_lt (bs : Bytes) : leNat bs < 256^bs.length := by
  induction bs with
  | nil => simp [leNat]
  | cons b bs ih =>
    have hb : b.toNat < 256 := b.toNat_lt
    simp only [leNat,List.length_cons,Nat.pow_succ]
    omega

theorem leNat_leBytes_of_lt {k n : ℕ} (h : n < 256^k) : leNat (leBytes k n) = n := by
  rw [leNat_leBytes,Nat.mod_eq_of_lt h]

theorem leBytes_leNat (bs : Bytes) : leBytes bs.length (leNat bs) = bs := by
  induction bs with
  | nil => rfl
  | cons b bs ih =>
    have hb : b.toNat < 256 := b.toNat_lt
    have hdiv : (b.toNat+256*leNat bs)/256 = leNat bs := by omega
    have hlow : UInt8.ofNat (b.toNat+256*leNat bs) = b := by
      apply UInt8.toNat_inj.mp
      rw [UInt8.toNat_ofNat']
      omega
    simp only [leNat,List.length_cons,leBytes,hdiv,hlow,ih]

theorem exists_leBytes {k : ℕ} {bs : Bytes} (h : k ≤ bs.length) :
    ∃ v rest, v < 256^k ∧ bs = leBytes k v ++ rest := by
  have hlen : (bs.take k).length = k := List.length_take_of_le h
  have hlt := leNat_lt (bs.take k)
  have hb := leBytes_leNat (bs.take k)
  rw [hlen] at hlt hb
  exact ⟨leNat (bs.take k),bs.drop k,hlt,by rw [hb,List.take_append_drop]⟩

/-- A reader: the position reached and the bytes that remain. -/
structure ReaderState where
  pos : ℕ
  rest : Bytes

abbrev Reader (α : Type) := StateT ReaderState (Except FormatError) α

namespace Reader

def remaining : Reader ℕ := do return (← get).rest.length

def take (n : ℕ) : Reader Bytes := fun s =>
  if s.rest.length < n then
    .error (.Truncated s!"need {n} bytes at offset {s.pos}, have {s.rest.length}")
  else .ok (s.rest.take n,⟨s.pos+n,s.rest.drop n⟩)

def takeSized (n : ℕ) : Reader { bs : Bytes // bs.length = n } := fun s =>
  if h : s.rest.length < n then
    .error (.Truncated s!"need {n} bytes at offset {s.pos}, have {s.rest.length}")
  else .ok (⟨s.rest.take n,List.length_take_of_le (Nat.not_lt.mp h)⟩,⟨s.pos+n,s.rest.drop n⟩)

def u32 : Reader ℕ := do return leNat (← take 4)
def u64 : Reader ℕ := do return leNat (← take 8)
def uuid : Reader (BitVec 128) := do return BitVec.ofNat 128 (leNat (← take 16))

def ensure (c : Prop) [Decidable c] (e : FormatError) : Reader Unit :=
  if c then pure () else throw e

def decode {α : Type} (r : Reader α) (buf : Bytes) : Except FormatError α := do
  return (← r.run ⟨0,buf⟩).1

end Reader

namespace Reader

/-! What a successful read says about the buffer it read from, and which buffers are read. With these
`simp` turns a decoder that succeeds into the bytes it was given. -/

variable {α β : Type} {s t : ReaderState} {n v : ℕ}

@[simp] theorem bind_ok {r : Reader α} {f : α → Reader β} {b : β} :
    (r >>= f) s = .ok (b,t) ↔ ∃ a s', r s = .ok (a,s') ∧ f a s' = .ok (b,t) := by
  simp only [bind,StateT.bind,Except.bind]
  cases r s with
  | error e => simp
  | ok x => simp [Prod.ext_iff]

@[simp] theorem pure_ok {a b : α} : (pure a : Reader α) s = .ok (b,t) ↔ a = b ∧ s = t := by
  simp [pure,StateT.pure,Except.pure]

@[simp] theorem map_ok {r : Reader α} {f : α → β} {b : β} :
    (f <$> r) s = .ok (b,t) ↔ ∃ a, r s = .ok (a,t) ∧ f a = b := by
  simp only [map_eq_pure_bind,bind_ok,pure_ok]
  simp

@[simp] theorem ensure_ok {c : Prop} [Decidable c] {e : FormatError} {u : Unit} :
    ensure c e s = .ok (u,t) ↔ c ∧ s = t := by
  by_cases hc : c <;> simp [ensure,hc,throw,throwThe,MonadExceptOf.throw,StateT.lift,bind,Except.bind]

@[simp] theorem lift_ok {x : Except FormatError α} {a : α} :
    (liftM x : Reader α) s = .ok (a,t) ↔ x = .ok a ∧ s = t := by
  cases x <;> simp [liftM,monadLift,MonadLift.monadLift,StateT.lift,bind,Except.bind,pure,Except.pure]

@[simp] theorem remaining_ok : remaining s = .ok (n,t) ↔ s.rest.length = n ∧ s = t := by
  simp [remaining,get,getThe,MonadStateOf.get,StateT.get,bind,StateT.bind,Except.bind,pure,StateT.pure,
    Except.pure]

@[simp] theorem take_ok {xs : Bytes} :
    take n s = .ok (xs,t) ↔ xs.length = n ∧ s.rest = xs ++ t.rest ∧ t.pos = s.pos+n := by
  unfold take
  constructor
  · intro h
    split at h
    · cases h
    · rename_i hl
      cases h
      exact ⟨List.length_take_of_le (Nat.not_lt.mp hl),(List.take_append_drop n _).symm,rfl⟩
  · rintro ⟨rfl,hs,ht⟩
    simp [hs,← ht]

@[simp] theorem takeSized_ok {xs : { bs : Bytes // bs.length = n }} :
    takeSized n s = .ok (xs,t) ↔ s.rest = xs.1 ++ t.rest ∧ t.pos = s.pos+n := by
  have h : takeSized n s = .ok (xs,t) ↔ take n s = .ok (xs.1,t) := by
    unfold takeSized take
    split <;> simp [Subtype.ext_iff]
  rw [h,take_ok,and_iff_right xs.2]

theorem nat_ok : (do return leNat (← take n) : Reader ℕ) s = .ok (v,t) ↔
    v < 256^n ∧ s.rest = leBytes n v ++ t.rest ∧ t.pos = s.pos+n := by
  simp only [bind_ok,take_ok,pure_ok]
  constructor
  · rintro ⟨xs,_,⟨rfl,hs,ht⟩,rfl,rfl⟩
    exact ⟨leNat_lt xs,by rw [leBytes_leNat,hs],ht⟩
  · rintro ⟨hv,hs,ht⟩
    exact ⟨_,_,⟨length_leBytes n v,hs,ht⟩,leNat_leBytes_of_lt hv,rfl⟩

@[simp] theorem u32_ok : u32 s = .ok (v,t) ↔ v < 2^32 ∧ s.rest = leBytes 4 v ++ t.rest ∧ t.pos = s.pos+4 :=
  nat_ok

@[simp] theorem u64_ok : u64 s = .ok (v,t) ↔ v < 2^64 ∧ s.rest = leBytes 8 v ++ t.rest ∧ t.pos = s.pos+8 :=
  nat_ok

@[simp] theorem uuid_ok {v : BitVec 128} :
    uuid s = .ok (v,t) ↔ s.rest = leBytes 16 v.toNat ++ t.rest ∧ t.pos = s.pos+16 := by
  have hnat : uuid s = .ok (v,t) ↔ (do return leNat (← take 16) : Reader ℕ) s = .ok (v.toNat,t) := by
    simp only [uuid,bind_ok,take_ok,pure_ok]
    refine exists_congr fun xs => exists_congr fun t' => and_congr_right fun h => and_congr_left fun _ => ?_
    have hlt := leNat_lt xs
    rw [h.1] at hlt
    rw [BitVec.toNat_eq,BitVec.toNat_ofNat,Nat.mod_eq_of_lt (show leNat xs < 2^128 from hlt)]
  rw [hnat,nat_ok]
  exact and_iff_right v.isLt

@[simp] theorem decode_ok {r : Reader α} {buf : Bytes} {a : α} :
    r.decode buf = .ok a ↔ ∃ t, r ⟨0,buf⟩ = .ok (a,t) := by
  simp only [decode,StateT.run,bind,Except.bind,pure,Except.pure]
  cases r ⟨0,buf⟩ with
  | error e => simp
  | ok x => simp [Prod.ext_iff]

@[simp] theorem exists_state {p : ReaderState → Prop} : (∃ t, p t) ↔ ∃ pos rest, p ⟨pos,rest⟩ := by
  refine ⟨?_,?_⟩
  · rintro ⟨⟨pos,rest⟩,h⟩
    exact ⟨pos,rest,h⟩
  · rintro ⟨pos,rest,h⟩
    exact ⟨_,h⟩

end Reader

def finishWithCrc [Crc32] (buf : Bytes) : Bytes := buf ++ leBytes 4 (Crc32.hash buf).toNat

/-- Verify a trailing crc32; the covered payload. -/
def stripVerifyCrc [Crc32] (buf : Bytes) (what : String) : Except FormatError Bytes :=
  if buf.length < 4 then throw (.Truncated s!"{what}: no room for crc")
  else
    let payload := buf.take (buf.length-4)
    if (Crc32.hash payload).toNat ≠ leNat (buf.drop (buf.length-4)) then throw (.BadChecksum what)
    else return payload

@[simp] theorem length_finishWithCrc [Crc32] (buf : Bytes) :
    (finishWithCrc buf).length = buf.length+4 := by simp [finishWithCrc]

@[simp] theorem stripVerifyCrc_finish [Crc32] (buf : Bytes) (what : String) :
    stripVerifyCrc (finishWithCrc buf) what = .ok buf := by
  have hc : leNat (leBytes 4 (Crc32.hash buf).toNat) = (Crc32.hash buf).toNat :=
    leNat_leBytes_of_lt (Crc32.hash buf).toNat_lt
  simp [stripVerifyCrc,finishWithCrc,hc,pure,Except.pure]

theorem stripVerifyCrc_ok [Crc32] {buf payload : Bytes} {what : String}
    (h : stripVerifyCrc buf what = .ok payload) : 4 ≤ buf.length ∧ payload = buf.take (buf.length-4) ∧
    (Crc32.hash payload).toNat = leNat (buf.drop (buf.length-4)) := by
  unfold stripVerifyCrc at h
  by_cases hl : buf.length < 4
  · cases (if_pos hl).symm.trans h
  rw [if_neg hl] at h
  by_cases hc : (Crc32.hash (buf.take (buf.length-4))).toNat ≠ leNat (buf.drop (buf.length-4))
  · cases (if_pos hc).symm.trans h
  · obtain rfl := Except.ok.inj ((if_neg hc).symm.trans h)
    exact ⟨Nat.not_lt.mp hl,rfl,not_not.mp hc⟩

theorem finishWithCrc_of_ok [Crc32] {buf payload : Bytes} {what : String}
    (h : stripVerifyCrc buf what = .ok payload) : buf = finishWithCrc payload := by
  obtain ⟨hl,hp,hc⟩ := stripVerifyCrc_ok h
  have hlen : (buf.drop (buf.length-4)).length = 4 := by
    rw [List.length_drop]
    omega
  have hcrc : leBytes 4 (Crc32.hash payload).toNat = buf.drop (buf.length-4) := by
    have hb := leBytes_leNat (buf.drop (buf.length-4))
    rw [hlen] at hb
    rw [hc,hb]
  rw [finishWithCrc,hcrc,hp,List.take_append_drop]

theorem stripVerifyCrc_ok_iff [Crc32] {buf payload : Bytes} {what : String} :
    stripVerifyCrc buf what = .ok payload ↔ buf = finishWithCrc payload :=
  ⟨finishWithCrc_of_ok,fun h => h ▸ stripVerifyCrc_finish _ _⟩

/-- A record of one length whose magic is looked at first. -/
theorem framed_ok [Crc32] {α : Type} {r : Reader α} {size : ℕ} {magic bytes : Bytes} {what : String}
    {short bad : FormatError} {a : α} (hl : bytes.length = size) :
    (if bytes.length < size then .error short
      else
        let data := bytes.take size
        if data.take 8 ≠ magic then .error bad
        else do r.decode (← stripVerifyCrc data what)) = .ok a ↔
      ∃ payload, bytes = finishWithCrc payload ∧ bytes.take 8 = magic ∧ r.decode payload = .ok a := by
  have htake : bytes.take size = bytes := List.take_of_length_le (Nat.le_of_eq hl)
  simp only [hl,Nat.lt_irrefl,if_false,htake]
  by_cases hm : bytes.take 8 = magic
  · simp only [hm,ne_eq,not_true_eq_false,if_false,bind_ok_iff,stripVerifyCrc_ok_iff,true_and]
  · simp [hm]

/-- A checksum that fails under one name fails under every name. -/
theorem stripVerifyCrc_bad [Crc32] {buf : Bytes} {what : String} {e : FormatError}
    (h : stripVerifyCrc buf what = .error e) (hl : 4 ≤ buf.length) (what' : String) :
    stripVerifyCrc buf what' = .error (.BadChecksum what') := by
  unfold stripVerifyCrc at h ⊢
  rw [if_neg (Nat.not_lt.mpr hl)] at h ⊢
  by_cases hc : (Crc32.hash (buf.take (buf.length-4))).toNat ≠ leNat (buf.drop (buf.length-4))
  · exact if_pos hc
  · cases (if_neg hc).symm.trans h

end Maki
