import Maki.Codec

/-! The framing of a gRPC response (`maki_crypto_grpc`: `ResponseFraming`, `BoundedResponseBody`).
Data frames cut the stream anywhere; the body keeps what it needs of the part it has seen. -/
namespace Maki
namespace Grpc

structure ResponseFraming where
  header : Bytes := []
  remaining : ℕ := 0
  limit : ℕ
  /-- Messages received completely. -/
  messages : ℕ := 0
  short : header.length < 5

theorem length_nil_lt : ([] : Bytes).length < 5 := by decide

def beNat (bytes : Bytes) : ℕ := leNat bytes.reverse

namespace ResponseFraming

def new (limit : ℕ) : ResponseFraming := { limit, short := length_nil_lt }

def insideMessage (f : ResponseFraming) : Prop := f.header ≠ [] ∨ 0 < f.remaining

instance (f : ResponseFraming) : Decidable f.insideMessage := inferInstanceAs (Decidable (_ ∨ _))

def accept (f : ResponseFraming) (header : Bytes) : Except String ResponseFraming :=
  if header.head? ≠ some 0 then .error "grpc response has an unsupported compression flag"
  else if beNat header.tail > f.limit then .error "grpc response exceeds the message-size limit"
  else .ok { f with
    header := [], remaining := beNat header.tail, short := length_nil_lt
    messages := if beNat header.tail = 0 then f.messages+1 else f.messages }

/-- What the message still lacks is taken from the bytes. -/
def consume (f : ResponseFraming) (n : ℕ) : ResponseFraming :=
  { f with remaining := f.remaining-n, messages := if f.remaining-n = 0 then f.messages+1 else f.messages }

def observe (f : ResponseFraming) (bytes : Bytes) : Except String ResponseFraming :=
  if hb : bytes = [] then .ok f
  else if hr : 0 < f.remaining then
    observe (f.consume (min f.remaining bytes.length)) (bytes.drop (min f.remaining bytes.length))
  else if 0 < f.messages then .error "grpc unary response contains more than one message"
  else if h : 5-f.header.length ≤ bytes.length then
    match f.accept (f.header ++ bytes.take (5-f.header.length)) with
    | .ok f' => observe f' (bytes.drop (5-f.header.length))
    | .error e => .error e
  else .ok { f with header := f.header ++ bytes, short := by rw [List.length_append]; omega }
termination_by bytes.length
decreasing_by
  all_goals
    have := List.length_pos_iff.mpr hb
    have := f.short
    rw [List.length_drop]
    omega

end ResponseFraming

inductive Polled where
  | data (bytes : Bytes)
  | trailers (status : Option Bytes)
  | other
  | failed
  | finished

/-- Pass a frame on, or report a broken receive contract. -/
def pollFrame (f : ResponseFraming) : Polled → Except String ResponseFraming
  | .data bytes => f.observe bytes
  | .trailers status =>
    if f.insideMessage then .error "grpc response ended inside a message"
    else if f.messages = 0 ∧ status = some (ascii "0") then
      .error "grpc response reported success without a message"
    else .ok f
  | .finished => if f.insideMessage then .error "grpc response ended inside a message" else .ok f
  | .other | .failed => .ok f

/-- A response whose data frames carry `chunks`. -/
def receive (limit : ℕ) (chunks : List Bytes) (last : Polled) : Except String ResponseFraming :=
  (chunks.map Polled.data ++ [last]).foldlM pollFrame (.new limit)

/-- Exactly one message frame: the flag 0, a length within the limit, and as many bytes. -/
def OneMessage (limit : ℕ) (bytes : Bytes) : Prop :=
  ∃ length message, bytes = 0::length ++ message ∧ length.length = 4 ∧ beNat length ≤ limit ∧
    message.length = beNat length

namespace ResponseFraming

variable {f f' : ResponseFraming} {limit : ℕ} {seen bytes : Bytes}

/-- What the framing knows after the bytes of `seen`: a part of the prefix, a part of the message, or
the whole message. -/
inductive Knows (limit : ℕ) : Bytes → ResponseFraming → Prop
  | header {seen : Bytes} (h : seen.length < 5) : Knows limit seen ⟨seen,0,limit,0,h⟩
  | message {length part : Bytes} {n : ℕ} (hl : length.length = 4) (hle : beNat length ≤ limit)
      (hn : part.length+n = beNat length) (hpos : 0 < n) :
      Knows limit (0::length ++ part) ⟨[],n,limit,0,length_nil_lt⟩
  | whole {seen : Bytes} (h : OneMessage limit seen) : Knows limit seen ⟨[],0,limit,1,length_nil_lt⟩

def Spoiled (limit : ℕ) (bytes : Bytes) : Prop := ∀ more, ¬ OneMessage limit (bytes ++ more)

def Judged (limit : ℕ) (bytes : Bytes) : Except String ResponseFraming → Prop
  | .ok f => Knows limit bytes f
  | .error _ => Spoiled limit bytes

theorem eq_nil_of_oneMessage {more : Bytes} (h : OneMessage limit seen) (hm : OneMessage limit (seen ++ more)) :
    more = [] := by
  obtain ⟨length,message,rfl,hl,-,hlen⟩ := h
  obtain ⟨length',message',heq,hl',-,hlen'⟩ := hm
  simp only [List.cons_append,List.append_assoc,List.cons.injEq,true_and] at heq
  obtain ⟨rfl,rfl⟩ := List.append_inj heq (hl.trans hl'.symm)
  rw [List.length_append,hlen] at hlen'
  exact List.length_eq_zero_iff.mp (by omega)

theorem judged_accept (hlen : seen.length = 5) (hlimit : f.limit = limit) (hm : f.messages = 0) :
    Judged limit seen (f.accept seen) := by
  obtain ⟨flag,length,rfl⟩ := List.exists_cons_of_length_eq_add_one hlen
  have hl : length.length = 4 := by simpa using hlen
  subst hlimit
  have hhead : ∀ more, OneMessage f.limit (flag::length ++ more) → flag = 0 ∧ beNat length ≤ f.limit := by
    rintro more ⟨length',message,heq,hl',hle,-⟩
    simp only [List.cons_append,List.cons.injEq] at heq
    obtain ⟨rfl,-⟩ := List.append_inj heq.2 (hl.trans hl'.symm)
    exact ⟨heq.1,hle⟩
  simp only [accept,List.head?_cons,List.tail_cons,ne_eq,Option.some.injEq,hm]
  split_ifs with hflag hle hz
  · exact fun more h => absurd (hhead more h).2 (Nat.not_le.mpr hle)
  · rw [hflag,hz]
    exact .whole ⟨length,[],by simp,hl,Nat.not_lt.mp hle,by simp [hz]⟩
  · rw [hflag]
    have h : Knows f.limit (0::length ++ []) _ :=
      .message hl (Nat.not_lt.mp hle) (Nat.zero_add _) (Nat.pos_of_ne_zero hz)
    rwa [List.append_nil] at h
  · exact fun more h => hflag (hhead more h).1

theorem knows_consume {length part : Bytes} {n k : ℕ} (hl : length.length = 4) (hle : beNat length ≤ limit)
    (hn : part.length+n = beNat length) (hk : bytes.length = k) (hkn : k ≤ n) :
    Knows limit (0::length ++ (part ++ bytes)) (consume ⟨[],n,limit,0,length_nil_lt⟩ k) := by
  simp only [consume]
  split_ifs with hz
  · rw [hz]
    exact .whole ⟨length,_,rfl,hl,hle,by rw [List.length_append]; omega⟩
  · exact .message hl hle (by rw [List.length_append]; omega) (Nat.pos_of_ne_zero hz)

section Known

variable (hf : Knows limit seen f)

include hf

theorem Knows.observe : Judged limit (seen ++ bytes) (f.observe bytes) := by
  induction hn : bytes.length using Nat.strong_induction_on generalizing f seen bytes with
  | _ n ih =>
    subst hn
    rw [ResponseFraming.observe]
    by_cases hb : bytes = []
    · rw [dif_pos hb,hb,List.append_nil]
      exact hf
    have hpos := List.length_pos_iff.mpr hb
    rw [dif_neg hb]
    have hstep : ∀ {k : ℕ} {f' : ResponseFraming}, 0 < k → Knows limit (seen ++ bytes.take k) f' →
        Judged limit (seen ++ bytes) (f'.observe (bytes.drop k)) := by
      intro k f' hk hf'
      have hlt : (bytes.drop k).length < bytes.length := by
        rw [List.length_drop]
        omega
      have h := ih _ hlt hf' rfl
      rwa [List.append_assoc,List.take_append_drop] at h
    cases hf with
    | header hs =>
      rw [dif_neg (Nat.lt_irrefl 0),if_neg (Nat.lt_irrefl 0)]
      by_cases hle : 5-seen.length ≤ bytes.length
      · rw [dif_pos hle]
        have hlen : (seen ++ bytes.take (5-seen.length)).length = 5 := by
          rw [List.length_append,List.length_take]
          omega
        have hopen := judged_accept (f := ⟨seen,0,limit,0,hs⟩) hlen rfl rfl
        cases hacc : accept ⟨seen,0,limit,0,hs⟩ (seen ++ bytes.take (5-seen.length)) with
        | ok f' =>
          rw [hacc] at hopen
          exact hstep (Nat.sub_pos_of_lt hs) hopen
        | error e =>
          rw [hacc] at hopen
          intro more h
          refine hopen (bytes.drop (5-seen.length) ++ more) ?_
          rwa [← List.append_assoc,List.append_assoc seen,List.take_append_drop]
      · rw [dif_neg hle]
        exact .header _
    | message hl hle hn hr =>
      rw [dif_pos hr]
      refine hstep (Nat.lt_min.mpr ⟨hr,hpos⟩) ?_
      rw [List.append_assoc]
      exact knows_consume hl hle hn (by rw [List.length_take]; omega) (Nat.min_le_left _ _)
    | whole hone =>
      rw [dif_neg (Nat.lt_irrefl 0),if_pos Nat.one_pos]
      intro more h
      rw [List.append_assoc] at h
      exact hb (List.append_eq_nil_iff.mp (eq_nil_of_oneMessage hone h)).1

theorem Knows.foldlM (chunks : List Bytes) :
    Judged limit (seen ++ chunks.flatten) ((chunks.map Polled.data).foldlM pollFrame f) := by
  induction chunks generalizing f seen with
  | nil => simpa [pure,Except.pure,Judged] using hf
  | cons bytes chunks ih =>
    have h : Judged limit (seen ++ bytes) (f.observe bytes) := hf.observe
    rw [List.map_cons,List.foldlM_cons,List.flatten_cons,← List.append_assoc,pollFrame]
    cases hobs : f.observe bytes with
    | ok f' =>
      rw [hobs] at h
      exact ih h
    | error e =>
      rw [hobs] at h
      exact fun more hm => h (chunks.flatten ++ more) (by rwa [← List.append_assoc])

theorem Knows.not_oneMessage_iff : ¬ OneMessage limit seen ↔ f.messages = 0 := by
  cases hf with
  | header hs =>
    refine iff_of_true ?_ rfl
    rintro ⟨length,message,rfl,hl,-⟩
    simp only [List.length_append,List.length_cons] at hs
    omega
  | message hl hle hn hpos =>
    refine iff_of_true ?_ rfl
    rintro ⟨length',message,heq,hl',-,hlen⟩
    simp only [List.cons_append,List.cons.injEq,true_and] at heq
    obtain ⟨rfl,rfl⟩ := List.append_inj heq (hl.trans hl'.symm)
    omega
  | whole hone => exact iff_of_false (not_not_intro hone) Nat.one_ne_zero

theorem Knows.insideMessage_iff :
    f.insideMessage ↔ seen ≠ [] ∧ f.messages = 0 := by
  cases hf with
  | header hs => simp [insideMessage]
  | message hl hle hn hpos => simp [insideMessage,hpos]
  | whole hone => simp [insideMessage]

end Known

end ResponseFraming

open ResponseFraming

/-- However the stream is cut, the response reaches its success trailer when it is one message, and
otherwise breaks the receive contract before or at its end. -/
theorem receive_ok_iff_oneMessage (limit : ℕ) (chunks : List Bytes) :
    ((∃ f, receive limit chunks (.trailers (some (ascii "0"))) = .ok f) ↔ OneMessage limit chunks.flatten) ∧
      (¬ OneMessage limit chunks.flatten →
        (∃ e, receive limit chunks (.trailers (some (ascii "0"))) = .error e) ∧
        (chunks.flatten ≠ [] → ∃ e, receive limit chunks .finished = .error e)) := by
  have hrun : Judged limit chunks.flatten ((chunks.map Polled.data).foldlM pollFrame (.new limit)) :=
    Knows.foldlM (.header length_nil_lt) chunks
  simp only [receive,List.foldlM_append,List.foldlM_cons,List.foldlM_nil]
  cases hfold : (chunks.map Polled.data).foldlM pollFrame (.new limit) with
  | error e =>
    rw [hfold] at hrun
    have hnone : ¬ OneMessage limit chunks.flatten := by simpa using hrun []
    simp [bind,Except.bind,hnone]
  | ok f =>
    rw [hfold] at hrun
    have hknows : Knows limit chunks.flatten f := hrun
    have hinside := hknows.insideMessage_iff
    by_cases hone : OneMessage limit chunks.flatten
    · have hm : f.messages ≠ 0 := fun h => hknows.not_oneMessage_iff.mpr h hone
      simp [bind,Except.bind,pure,Except.pure,pollFrame,hinside,hm,hone]
    · have hm := hknows.not_oneMessage_iff.mp hone
      by_cases hempty : chunks.flatten = []
      · rw [hempty] at hone hinside ⊢
        simp [bind,Except.bind,pollFrame,hinside,hm,hone]
      · simp [bind,Except.bind,pollFrame,hinside,hm,hone,hempty]

end Grpc
end Maki
