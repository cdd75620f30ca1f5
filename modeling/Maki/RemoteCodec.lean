import Maki.RemoteHistory

/-! The stored state as bytes. The texts of two states differ, so what decodes is the one state
whose encoding the bytes are. The JSON parser is a dependency and a parameter. -/
namespace Maki

/-- `serde_json::from_slice` at the stored state. -/
class StoredReader where
  fromSlice : Bytes → Option RemoteWitness.Stored

namespace RemoteWitness

variable [Sha256] [StoredReader]

def decodeBody (body : Bytes) : Except WitnessError Stored :=
  match StoredReader.fromSlice body with
  | none => .error (.InvalidData "invalid remote witness record")
  | some stored => do
    stored.validate
    refuse (storedJson stored ≠ body) (.InvalidData "noncanonical remote witness record")
    return stored

def decode (bytes : Bytes) : Except WitnessError Stored := do
  refuse (bytes.length < 44 ∨ bytes.length > maxBytes ∨ bytes.take 8 ≠ magic)
    (.InvalidData "invalid remote witness envelope")
  let len := leNat ((bytes.drop 8).take 4)
  refuse (len ≠ bytes.length-44 ∨
      (digest stateDomain (bytes.take (bytes.length-32))).toList ≠ bytes.drop (bytes.length-32))
    (.InvalidData "remote witness length or checksum mismatch")
  decodeBody ((bytes.drop 12).take len)

end RemoteWitness

namespace RemoteWitness

section Texts

open Json

theorem unique_vector (n : ℕ) : Unique fun v : Vector UInt8 n => Json.bytes v.toList := by
  intro a b x y hx hy h
  obtain ⟨hab,hxy⟩ := bytes_unique _ _ x y hx hy h
  exact ⟨Vector.toList_inj.mp hab,hxy⟩

theorem unique_anchor : Unique anchorJson := by
  intro a b x y _ _ h
  obtain ⟨hfields,hxy⟩ := obj_append_inj
    [("identity",Json.bytes a.identity.toList,Json.bytes b.identity.toList),
      ("generation",num a.generation,num b.generation),
      ("root",Json.bytes a.root.toList,Json.bytes b.root.toList)]
    (by simp [(unique_vector _).framed a.identity b.identity,num_unique.framed a.generation b.generation,
      (unique_vector _).framed a.root b.root]) h
  simp only [List.mem_cons,List.not_mem_nil,or_false,forall_eq_or_imp,forall_eq] at hfields
  obtain ⟨hid,hgen,hroot⟩ := hfields
  refine ⟨?_,hxy⟩
  cases a
  cases b
  simp only [Anchor.mk.injEq]
  exact ⟨(unique_vector _).injective hid,num_unique.injective hgen,(unique_vector _).injective hroot⟩

theorem unique_descriptor : Unique descriptorJson := by
  intro a b x y _ _ h
  obtain ⟨hfields,hxy⟩ := obj_append_inj
    [("anchor",anchorJson a.anchor,anchorJson b.anchor),("epoch",num a.epoch,num b.epoch),
      ("namespace",str a.ns,str b.ns)]
    (by simp [unique_anchor.framed a.anchor b.anchor,num_unique.framed a.epoch b.epoch,
      str_unique.framed a.ns b.ns]) h
  simp only [List.mem_cons,List.not_mem_nil,or_false,forall_eq_or_imp,forall_eq] at hfields
  obtain ⟨hanchor,hepoch,hns⟩ := hfields
  refine ⟨?_,hxy⟩
  cases a
  cases b
  simp only [Descriptor.mk.injEq]
  exact ⟨unique_anchor.injective hanchor,num_unique.injective hepoch,str_unique.injective hns⟩

theorem unique_phase : Unique phaseJson := by
  intro a b x y hx hy h
  cases a <;> cases b <;>
    (obtain ⟨hab,hxy⟩ := str_unique _ _ x y hx hy h
     first
     | exact ⟨rfl,hxy⟩
     | exact absurd hab (by decide))

/-- An object or an array does not begin like `null`. -/
theorem unique_opt_descriptor : Unique (opt descriptorJson) :=
  opt_unique unique_descriptor fun _ => ⟨_,_,rfl,by decide⟩

theorem unique_opt_vector (n : ℕ) : Unique (opt fun v : Vector UInt8 n => Json.bytes v.toList) :=
  opt_unique (unique_vector n) fun _ => ⟨_,_,rfl,by decide⟩

theorem unique_record : Unique recordJson := by
  intro a b x y _ _ h
  obtain ⟨hfields,hxy⟩ := obj_append_inj
    [("identity",Json.bytes a.identity.toList,Json.bytes b.identity.toList),
      ("current",opt descriptorJson a.current,opt descriptorJson b.current),
      ("fence",num a.fence,num b.fence),
      ("session",Json.bytes a.session.toList,Json.bytes b.session.toList),
      ("phase",phaseJson a.phase,phaseJson b.phase),
      ("restore_source",opt descriptorJson a.restoreSource,opt descriptorJson b.restoreSource),
      ("last_operation",Json.bytes a.lastOperation.toList,Json.bytes b.lastOperation.toList)]
    (by simp [(unique_vector _).framed a.identity b.identity,
      unique_opt_descriptor.framed a.current b.current,num_unique.framed a.fence b.fence,
      (unique_vector _).framed a.session b.session,unique_phase.framed a.phase b.phase,
      unique_opt_descriptor.framed a.restoreSource b.restoreSource,
      (unique_vector _).framed a.lastOperation b.lastOperation]) h
  simp only [List.mem_cons,List.not_mem_nil,or_false,forall_eq_or_imp,forall_eq] at hfields
  obtain ⟨hid,hcurrent,hfence,hsession,hphase,hsource,hlast⟩ := hfields
  refine ⟨?_,hxy⟩
  cases a
  cases b
  simp only [Record.mk.injEq]
  exact ⟨(unique_vector _).injective hid,unique_opt_descriptor.injective hcurrent,
    num_unique.injective hfence,(unique_vector _).injective hsession,unique_phase.injective hphase,
    unique_opt_descriptor.injective hsource,(unique_vector _).injective hlast⟩

theorem storedJson_injective {a b : Stored} (h : storedJson a = storedJson b) : a = b := by
  obtain ⟨hfields,-⟩ := obj_append_inj (x := []) (y := [])
    [("format",num a.format,num b.format),("record",recordJson a.record,recordJson b.record),
      ("last_request_hash",opt (fun v => Json.bytes v.toList) a.lastRequestHash,
        opt (fun v => Json.bytes v.toList) b.lastRequestHash),
      ("session_authorization_hash",opt (fun v => Json.bytes v.toList) a.sessionAuthorizationHash,
        opt (fun v => Json.bytes v.toList) b.sessionAuthorizationHash)]
    (by simp [num_unique.framed a.format b.format,unique_record.framed a.record b.record,
      (unique_opt_vector _).framed a.lastRequestHash b.lastRequestHash,
      (unique_opt_vector _).framed a.sessionAuthorizationHash b.sessionAuthorizationHash])
    (by rw [List.append_nil,List.append_nil]; exact h)
  simp only [List.mem_cons,List.not_mem_nil,or_false,forall_eq_or_imp,forall_eq] at hfields
  obtain ⟨hformat,hrecord,hrequest,hauth⟩ := hfields
  cases a
  cases b
  simp only [Stored.mk.injEq]
  exact ⟨num_unique.injective hformat,unique_record.injective hrecord,
    (unique_opt_vector _).injective hrequest,(unique_opt_vector _).injective hauth⟩

end Texts

section Encoding

variable [Sha256] {s s' : Stored} {bs : Bytes}

theorem encode_eq (h : encode s = .ok bs) :
    s.validate = .ok () ∧ (storedJson s).length+44 ≤ maxBytes ∧
      bs = magic ++ (leBytes 4 (storedJson s).length ++ storedJson s) ++
        (digest stateDomain (magic ++ (leBytes 4 (storedJson s).length ++ storedJson s))).toList := by
  unfold encode at h
  obtain ⟨⟨⟩,hv,h⟩ := bind_eq_ok h
  obtain ⟨hsize,h⟩ := refuse_bind h
  cases h
  exact ⟨hv,Nat.not_lt.mp hsize,rfl⟩

theorem encode_injective (h : encode s = .ok bs) (h' : encode s' = .ok bs) : s = s' := by
  obtain ⟨-,-,hbs⟩ := encode_eq h
  obtain ⟨-,-,hbs'⟩ := encode_eq h'
  have heq := hbs.symm.trans hbs'
  simp only [List.append_assoc] at heq
  have hlen : (storedJson s).length = (storedJson s').length := by
    have := congrArg List.length heq
    simp only [List.length_append,length_leBytes,Vector.length_toList] at this
    omega
  rw [hlen] at heq
  have hbody := List.append_cancel_left (List.append_cancel_left heq)
  exact storedJson_injective (List.append_inj hbody hlen).1

variable [StoredReader]

theorem encode_of_decode (h : decode bs = .ok s) : encode s = .ok bs := by
  unfold decode at h
  obtain ⟨henv,h⟩ := refuse_bind h
  obtain ⟨hsum,h⟩ := refuse_bind h
  simp only [not_or,not_lt,not_not] at henv hsum
  obtain ⟨hmin,hmax,hmagic⟩ := henv
  obtain ⟨hlen,hdigest⟩ := hsum
  unfold decodeBody at h
  cases hr : StoredReader.fromSlice ((bs.drop 12).take (leNat ((bs.drop 8).take 4))) with
  | none => simp only [hr,reduceCtorEq] at h
  | some stored =>
    simp only [hr] at h
    obtain ⟨⟨⟩,hv,h⟩ := bind_eq_ok h
    obtain ⟨hcanon,h⟩ := refuse_bind h
    cases h
    have hbody := not_not.mp hcanon
    have hbodylen : (storedJson s).length = bs.length-44 := by
      rw [hbody,hlen,List.length_take,List.length_drop]
      omega
    have hfield : leBytes 4 (storedJson s).length = (bs.drop 8).take 4 := by
      have hfour : ((bs.drop 8).take 4).length = 4 := by
        rw [List.length_take,List.length_drop]
        omega
      have hle := leBytes_leNat ((bs.drop 8).take 4)
      rwa [hfour,hlen,← hbodylen] at hle
    -- the three parts before the digest are the first bytes
    have hhead : magic ++ (leBytes 4 (storedJson s).length ++ storedJson s) = bs.take (bs.length-32) := by
      rw [hfield,hbody,← hmagic,hlen,show bs.length-32 = 8+(4+(bs.length-44)) by omega,
        List.take_add,List.take_add,List.drop_drop]
    have hsize : ¬ (storedJson s).length+44 > maxBytes := by
      rw [hbodylen]
      omega
    simp only [encode,hv,refuse,if_neg hsize,bind,Except.bind,pure,Except.pure]
    rw [hhead,hdigest,List.take_append_drop]

end Encoding
end RemoteWitness
end Maki
