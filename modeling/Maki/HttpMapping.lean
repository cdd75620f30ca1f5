import Maki.Lane

/-! The JSON mapping of the HTTP provider (`maki_crypto_http`): a request's fields written under
their pointers, and the lookup of a pointer in a parsed document. `serde_json` writes a tree and
reads the same tree back, so one type of values serves both sides. -/
namespace Maki
namespace HttpMapping

abbrev Text := List Char

def decodePointerToken : Text → Text
  | '~' :: '1' :: rest => '/' :: decodePointerToken rest
  | '~' :: '0' :: rest => '~' :: decodePointerToken rest
  | ch::rest => ch::decodePointerToken rest
  | [] => []

def pointerTokens : Text → Option (List Text)
  | '/'::rest => some ((rest.splitOn '/').map decodePointerToken)
  | _ => none

inductive PayloadEncoding where
  | Base64 | Base64Url | HexLower | HexUpper

inductive FieldSource where
  | Payload (encoding : PayloadEncoding)
  | UnitIndex | VolumeId | CompatibilityId | FormatVersion | BatchIndex

/-- A JSON value; an object is the lookup function of its map. -/
inductive Value where
  | Object (fields : Text → Option Value)
  | Array (items : List Value)
  | Number (n : ℕ)
  | String (text : Text)

/-- The texts of the `base64` and `uuid` crates. -/
class Display where
  standard : Bytes → Text
  urlSafeNoPad : Bytes → Text
  uuid : BitVec 128 → Text

def hexDisplay (upper : Bool) (bytes : Bytes) : Text :=
  bytes.flatMap fun byte => [byte.toNat/16,byte.toNat % 16].map fun digit =>
    if upper then (Nat.digitChar digit).toUpper else Nat.digitChar digit

section Request

variable [Display] [DebugTable]

/-- `Scalar::from_source` and its serialisation. -/
def scalar (context : CryptoContext) (unitIndex batchIndex : ℕ) (payload : Bytes) :
    FieldSource → Value
  | .Payload .Base64 => .String (Display.standard payload)
  | .Payload .Base64Url => .String (Display.urlSafeNoPad payload)
  | .Payload .HexLower => .String (hexDisplay false payload)
  | .Payload .HexUpper => .String (hexDisplay true payload)
  | .UnitIndex => .Number unitIndex
  | .VolumeId => .String (Display.uuid context.volumeUuid)
  | .CompatibilityId => .String context.cryptoCompatibilityId.toList
  | .FormatVersion => .Number context.formatVersion
  | .BatchIndex => .Number batchIndex

def object : Value := .Object fun _ => none

/-- What the descent of `set` continues with: anything but an object is replaced. -/
def fieldsOf : Value → Text → Option Value
  | .Object fields => fields
  | _ => fun _ => none

def insertAt : List Text → Value → Value → Value
  | [], value, _ => value
  | key::rest, value, current =>
    .Object (Function.update (fieldsOf current) key
      (some (insertAt rest value ((fieldsOf current key).getD object))))

def set (pointer : Text) (value current : Value) : Except CryptoError Value :=
  match pointerTokens pointer with
  | some tokens => .ok (insertAt tokens value current)
  | none => .error (.ProviderFatal
      ("JSON pointer " ++ debugText (String.ofList pointer) ++ " must start with '/'"))

def setFields (value : FieldSource → Value) (fields : List (Text × FieldSource)) (root : Value) :
    Except CryptoError Value :=
  fields.foldlM (fun doc field => set field.1 (value field.2) doc) root

def encodeSingle (fields : List (Text × FieldSource)) (context : CryptoContext)
    (unitIndex batchIndex : ℕ) (payload : Bytes) : Except CryptoError Value :=
  setFields (scalar context unitIndex batchIndex payload) fields object

/-- The array is inserted last. -/
def encodeBatch (fields : List (Text × FieldSource)) (itemsPath : Text)
    (itemFields : List (Text × FieldSource)) (context : CryptoContext) (items : List (ℕ × Bytes)) :
    Except CryptoError Value := do
  let root ← setFields (scalar context 0 0 []) fields object
  let array ← items.zipIdx.mapM fun item =>
    setFields (scalar context item.1.1 item.2 item.1.2) itemFields object
  set itemsPath (.Array array) root

end Request

/-- `str::parse::<usize>` of a token without a sign. -/
def parseUsize (token : Text) : Option ℕ :=
  if token ≠ [] ∧ token.all Char.isDigit then
    let n := token.foldl (fun n digit => 10*n+(digit.toNat - '0'.toNat)) 0
    if n < 2^64 then some n else none
  else none

def descend : Value → Text → Option Value
  | .Object values, token => values token
  | .Array values, token =>
    if token.head? = some '+' ∨ (token.head? = some '0' ∧ token.length ≠ 1) then none
    else (parseUsize token).bind fun index => values[index]?
  | _, _ => none

def lookup (value : Value) (tokens : List Text) : Option Value := tokens.foldlM descend value

def Value.pointer (value : Value) (pointer : Text) : Option Value :=
  if pointer = [] then some value else (pointerTokens pointer).bind (lookup value)

section Lookup

variable {t v : Value} {p q r : List Text} {key : Text}

@[simp] theorem lookup_nil : lookup t [] = some t := rfl

@[simp] theorem lookup_cons : lookup t (key::p) = (descend t key).bind fun c => lookup c p := rfl

@[simp] theorem descend_object {fields : Text → Option Value} :
    descend (.Object fields) key = fields key := rfl

theorem lookup_append : lookup t (p ++ q) = (lookup t p).bind fun c => lookup c q :=
  List.foldlM_append

def Apart (p q : List Text) : Prop := ¬p <+: q ∧ ¬q <+: p

theorem lookup_insertAt_self : lookup (insertAt p v t) p = some v := by
  induction p generalizing t with
  | nil => rfl
  | cons key p ih => simp [insertAt,ih]

theorem lookup_insertAt_above : ∃ fields, lookup (insertAt (q ++ key::r) v t) q =
    some (.Object fields) := by
  induction q generalizing t with
  | nil => exact ⟨_,rfl⟩
  | cons k q ih =>
    obtain ⟨fields,h⟩ := ih (t := (fieldsOf t k).getD object)
    exact ⟨fields,by simpa [insertAt] using h⟩

/-- No array is met on any path. -/
def Plain (t : Value) : Prop := ∀ path items, lookup t path ≠ some (.Array items)

theorem plain_object : Plain object := by
  intro path items
  cases path <;> simp [object]

theorem Plain.descend_eq (h : Plain t) : descend t key = fieldsOf t key := by
  cases t with
  | Array items => exact absurd rfl (h [] items)
  | Object fields => rfl
  | Number n => rfl
  | String text => rfl

theorem Plain.child (h : Plain t) : Plain ((fieldsOf t key).getD object) := by
  cases hf : fieldsOf t key with
  | none => exact plain_object
  | some c =>
    intro path items hpath
    exact h (key::path) items (by simpa [h.descend_eq,hf] using hpath)

/-- Insertion is seen on the paths it is part of only. -/
theorem lookup_insertAt_apart (h : Plain t) (hpq : Apart p q) :
    lookup (insertAt p v t) q = lookup t q := by
  induction p generalizing t q with
  | nil => exact absurd List.nil_prefix hpq.1
  | cons k p ih =>
    cases q with
    | nil => exact absurd List.nil_prefix hpq.2
    | cons key q =>
      simp only [insertAt,lookup_cons,descend_object,h.descend_eq]
      by_cases hk : key = k
      · subst hk
        have hrest : Apart p q := by simpa [Apart] using hpq
        rw [Function.update_self,Option.bind_some,ih h.child hrest]
        -- a path apart from another has a first token, which the new object does not hold
        cases hf : fieldsOf t key with
        | some c => rfl
        | none =>
          cases q with
          | nil => exact absurd List.nil_prefix hrest.2
          | cons key q => rfl
      · rw [Function.update_of_ne hk]

def Value.isScalar : Value → Bool
  | .Number _ | .String _ => true
  | _ => false

theorem lookup_scalar (h : v.isScalar) (hr : lookup v r = some t) : r = [] := by
  cases r with
  | nil => rfl
  | cons key r => cases v <;> simp_all [descend,Value.isScalar]

/-- The entries of the document: each is found, and there is no other leaf. -/
structure Written (entries : List (List Text × Value)) (doc : Value) : Prop where
  found : ∀ e ∈ entries, lookup doc e.1 = some e.2
  leaves : ∀ path leaf, lookup doc path = some leaf → leaf.isScalar → (path,leaf) ∈ entries
  plain : Plain doc

theorem Written.nil : Written [] object where
  found := by simp
  leaves path leaf h hleaf := by
    cases path with
    | nil => cases h; cases hleaf
    | cons key p => simp [object] at h
  plain := plain_object

/-- What a path finds after an insertion apart from it, on it, above it or below it. -/
theorem lookup_insertAt_cases {x : Value} (hplain : Plain t) (hv : lookup (insertAt p v t) q = some x) :
    lookup t q = some x ∨ (∃ fields, x = .Object fields) ∨ ∃ r, q = p ++ r ∧ lookup v r = some x := by
  by_cases hpq : p <+: q
  · obtain ⟨r,rfl⟩ := hpq
    rw [lookup_append,lookup_insertAt_self] at hv
    exact .inr (.inr ⟨r,rfl,hv⟩)
  · by_cases hqp : q <+: p
    · obtain ⟨r,rfl⟩ := hqp
      cases r with
      | nil => simp at hpq
      | cons key r =>
        obtain ⟨fields,h⟩ : ∃ fields, lookup (insertAt (q ++ key::r) v t) q = some (.Object fields) :=
          lookup_insertAt_above
        exact .inr (.inl ⟨fields,Option.some.inj (hv.symm.trans h)⟩)
    · rw [lookup_insertAt_apart hplain ⟨hpq,hqp⟩] at hv
      exact .inl hv

theorem Written.insert {entries : List (List Text × Value)} (h : Written entries t)
    (hv : v.isScalar) (hp : ∀ e ∈ entries, Apart p e.1) :
    Written (entries ++ [(p,v)]) (insertAt p v t) where
  found := forall_mem_concat
    (fun e he => by rw [lookup_insertAt_apart h.plain (hp e he),h.found e he]) lookup_insertAt_self
  leaves path leaf hleaf hscalar := by
    rcases lookup_insertAt_cases h.plain hleaf with hold | ⟨fields,rfl⟩ | ⟨r,rfl,hr⟩
    · exact List.mem_append_left _ (h.leaves path leaf hold hscalar)
    · cases hscalar
    · cases lookup_scalar hv hr
      simp_all
  plain path items hpath := by
    rcases lookup_insertAt_cases h.plain hpath with hold | ⟨fields,hx⟩ | ⟨r,rfl,hr⟩
    · exact h.plain path items hold
    · cases hx
    · cases lookup_scalar hv hr
      cases hr
      cases hv

end Lookup

section Agree

def tokensOf (pointer : Text) : List Text := (pointerTokens pointer).getD []

def Unrelated (p q : Text) : Prop := Apart (tokensOf p) (tokensOf q)

instance : DecidableRel Unrelated := fun _ _ => inferInstanceAs (Decidable (_ ∧ _))

/-- Every pointer starts with a slash, which `set` asks, and no decoded pointer continues
another. -/
structure WellFormed (pointers : List Text) : Prop where
  slash : ∀ p ∈ pointers, (pointerTokens p).isSome
  apart : pointers.Pairwise Unrelated

theorem eq_tokensOf {p : Text} (h : (pointerTokens p).isSome) : pointerTokens p = some (tokensOf p) := by
  obtain ⟨tokens,htokens⟩ := Option.isSome_iff_exists.mp h
  simp [tokensOf,htokens]

theorem set_ok [DebugTable] {p : Text} {v t : Value} (h : (pointerTokens p).isSome) :
    set p v t = .ok (insertAt (tokensOf p) v t) := by
  simp [set,eq_tokensOf h]

theorem pointer_eq {p : Text} {t : Value} (h : (pointerTokens p).isSome) :
    t.pointer p = lookup t (tokensOf p) := by
  cases p with
  | nil => cases h
  | cons c p => simp [Value.pointer,eq_tokensOf h]

theorem Apart.symm {p q : List Text} (h : Apart p q) : Apart q p := ⟨h.2,h.1⟩

variable {fields : List (Text × FieldSource)} {value : FieldSource → Value} {t : Value}

def entriesOf (value : FieldSource → Value) (fields : List (Text × FieldSource)) :
    List (List Text × Value) :=
  fields.map fun field => (tokensOf field.1,value field.2)

theorem setFields_written [DebugTable] {entries : List (List Text × Value)} (hvalue : ∀ s, (value s).isScalar)
    (hfields : WellFormed (fields.map Prod.fst))
    (hentries : ∀ e ∈ entries, ∀ field ∈ fields, Apart (tokensOf field.1) e.1)
    (h : Written entries t) :
    ∃ doc, setFields value fields t = .ok doc ∧ Written (entries ++ entriesOf value fields) doc := by
  induction fields generalizing entries t with
  | nil => exact ⟨t,rfl,by simpa [entriesOf] using h⟩
  | cons field fields ih =>
    obtain ⟨hhead,htail⟩ := List.pairwise_cons.mp hfields.apart
    have hwritten := h.insert (hvalue field.2) fun e he => hentries e he field (by simp)
    obtain ⟨doc,hdoc,hmore⟩ := ih ⟨fun p hp => hfields.slash p (by simp_all),htail⟩
      (forall_mem_concat (fun e he f hf => hentries e he f (List.mem_cons_of_mem _ hf))
        fun f hf => (hhead f.1 (List.mem_map_of_mem hf)).symm) hwritten
    refine ⟨doc,?_,by simpa [entriesOf] using hmore⟩
    rw [setFields,List.foldlM_cons,set_ok (hfields.slash field.1 (by simp))]
    exact hdoc

theorem isScalar_scalar [Display] (context : CryptoContext) (unitIndex batchIndex : ℕ)
    (payload : Bytes) (s : FieldSource) : (scalar context unitIndex batchIndex payload s).isScalar := by
  cases s with
  | Payload encoding => cases encoding <;> rfl
  | _ => rfl

/-- The document holds each field's value under its pointer, and no other leaf. -/
structure Maps (value : FieldSource → Value) (fields : List (Text × FieldSource)) (doc : Value) :
    Prop where
  found : ∀ field ∈ fields, doc.pointer field.1 = some (value field.2)
  leaves : ∀ path leaf, lookup doc path = some leaf → leaf.isScalar →
    ∃ field ∈ fields, pointerTokens field.1 = some path ∧ leaf = value field.2

theorem Written.mem_fields {path : List Text} {leaf : Value}
    (hfields : WellFormed (fields.map Prod.fst)) (h : (path,leaf) ∈ entriesOf value fields) :
    ∃ field ∈ fields, pointerTokens field.1 = some path ∧ leaf = value field.2 := by
  obtain ⟨field,hmem,heq⟩ := List.mem_map.mp h
  cases heq
  exact ⟨field,hmem,eq_tokensOf (hfields.slash _ (List.mem_map_of_mem hmem)),rfl⟩

theorem Written.maps (hfields : WellFormed (fields.map Prod.fst))
    (h : Written (entriesOf value fields) t) : Maps value fields t where
  found field hmem := by
    rw [pointer_eq (hfields.slash _ (List.mem_map_of_mem hmem))]
    exact h.found _ (List.mem_map_of_mem hmem)
  leaves path leaf hleaf hscalar := Written.mem_fields hfields (h.leaves path leaf hleaf hscalar)

theorem setFields_object [DebugTable] (hvalue : ∀ s, (value s).isScalar) (hfields : WellFormed (fields.map Prod.fst)) :
    ∃ doc, setFields value fields object = .ok doc ∧ Written (entriesOf value fields) doc := by
  simpa using setFields_written hvalue hfields (by simp) Written.nil

theorem mapM_elements {ι : Type} (items : List ι) {f : ι → Except CryptoError Value}
    {P : ι → Value → Prop} (h : ∀ item ∈ items, ∃ element, f item = .ok element ∧ P item element) :
    ∃ elements, items.mapM f = .ok elements ∧ List.Forall₂ P items elements := by
  induction items with
  | nil => exact ⟨[],rfl,.nil⟩
  | cons item items ih =>
    obtain ⟨element,helement,hp⟩ := h item (by simp)
    obtain ⟨elements,hmap,hforall⟩ := ih fun i hi => h i (List.mem_cons_of_mem _ hi)
    exact ⟨element::elements,by simp [List.mapM_cons,helement,hmap,bind,Except.bind,pure,Except.pure],
      .cons hp hforall⟩

/-- A request's document read back: every pointer finds its field's value and nothing else is
written; the array of a batch has one such document for each item, in order. -/
theorem request_lookup_agree [Display] [DebugTable] (context : CryptoContext)
    {fields : List (Text × FieldSource)}
    (hfields : WellFormed (fields.map Prod.fst)) :
    (∀ unitIndex batchIndex payload, ∃ doc,
      encodeSingle fields context unitIndex batchIndex payload = .ok doc ∧
      Maps (scalar context unitIndex batchIndex payload) fields doc) ∧
    ∀ itemsPath itemFields (items : List (ℕ × Bytes)),
      WellFormed (itemsPath::fields.map Prod.fst) → WellFormed (itemFields.map Prod.fst) →
      ∃ doc elements, encodeBatch fields itemsPath itemFields context items = .ok doc ∧
        (∀ field ∈ fields, doc.pointer field.1 = some (scalar context 0 0 [] field.2)) ∧
        doc.pointer itemsPath = some (.Array elements) ∧
        (∀ path leaf, lookup doc path = some leaf → leaf.isScalar →
          (∃ field ∈ fields, pointerTokens field.1 = some path ∧
            leaf = scalar context 0 0 [] field.2) ∨ tokensOf itemsPath <+: path) ∧
        List.Forall₂ (fun item element =>
          Maps (scalar context item.1.1 item.2 item.1.2) itemFields element) items.zipIdx elements := by
  constructor
  · intro unitIndex batchIndex payload
    obtain ⟨doc,hdoc,h⟩ := setFields_object (isScalar_scalar context unitIndex batchIndex payload) hfields
    exact ⟨doc,hdoc,h.maps hfields⟩
  · intro itemsPath itemFields items hpath hitem
    obtain ⟨root,hroot,h⟩ := setFields_object (isScalar_scalar context 0 0 []) hfields
    obtain ⟨elements,helements,hforall⟩ := mapM_elements items.zipIdx
      (f := fun item => setFields (scalar context item.1.1 item.2 item.1.2) itemFields object)
      (P := fun item element => Maps (scalar context item.1.1 item.2 item.1.2) itemFields element)
      fun item _ => by
        obtain ⟨element,hok,hwritten⟩ :=
          setFields_object (isScalar_scalar context item.1.1 item.2 item.1.2) hitem
        exact ⟨element,hok,hwritten.maps hitem⟩
    have hslash := hpath.slash itemsPath (by simp)
    have hapart : ∀ field ∈ fields, Apart (tokensOf itemsPath) (tokensOf field.1) := fun field hmem =>
      (List.pairwise_cons.mp hpath.apart).1 field.1 (List.mem_map_of_mem hmem)
    refine ⟨insertAt (tokensOf itemsPath) (.Array elements) root,elements,?_,?_,?_,?_,hforall⟩
    · simp only [encodeBatch,hroot,helements,bind,Except.bind,set_ok hslash]
    · intro field hmem
      rw [pointer_eq (hfields.slash _ (List.mem_map_of_mem hmem)),
        lookup_insertAt_apart h.plain (hapart field hmem)]
      exact h.found _ (List.mem_map_of_mem hmem)
    · rw [pointer_eq hslash,lookup_insertAt_self]
    · intro path leaf hleaf hscalar
      rcases lookup_insertAt_cases h.plain hleaf with hold | ⟨below,rfl⟩ | ⟨r,rfl,-⟩
      · exact .inl (Written.mem_fields hfields (h.leaves path leaf hold hscalar))
      · cases hscalar
      · exact .inr (List.prefix_append _ _)

@[reducible] def noDisplay : Display := ⟨fun _ => [],fun _ => [],fun _ => []⟩

@[reducible] def noEscapes : DebugTable := ⟨fun _ => false⟩

/-- An escaped slash, a numeric and an empty token. -/
theorem request_lookup_agree_escaped :
    let fields := [("/a~1b".toList,FieldSource.Payload .HexLower),("/0/".toList,.UnitIndex)]
    let context : CryptoContext := ⟨0,1,"c"⟩
    WellFormed (fields.map Prod.fst) ∧
      ∃ doc, @encodeSingle noDisplay noEscapes fields context 7 0 [255] = .ok doc ∧
        Maps (@scalar noDisplay context 7 0 [255]) fields doc := by
  intro fields context
  have h : WellFormed (fields.map Prod.fst) :=
    ⟨by decide,by decide⟩
  exact ⟨h,(@request_lookup_agree noDisplay noEscapes context fields h).1 7 0 [255]⟩

end Agree

end HttpMapping
end Maki
