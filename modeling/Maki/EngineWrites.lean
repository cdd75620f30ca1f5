import Maki.EngineReads

/-! What an engine's requests do to its bytes. A published request has the records of all its units
and of no other; a write puts its bytes at its range and keeps the rest of the units it touches, a
trim zeroes the units inside its range. -/
namespace Maki

open Prog hiding pure bind throw get modify

def Mutation.apply (e : EngineParams) (m : Mutation) (dev : ℕ → UInt8) (pos : ℕ) : UInt8 :=
  (m.byteAt e pos).getD (dev pos)

namespace Engine

section Published

variable (c : EngineInner) (base : ℕ → Except CoreError SlotRead)

/-- A unit has this ciphertext; an empty one stands for zeros. -/
def Carries (accepted : List JournalRecord) (ct : CiphertextUnit) : Prop :=
  if ct.data = [] then expected c base accepted ct.unitIndex = .ok .Zero
  else ∃ sequence, expected c base accepted ct.unitIndex = .ok (.Ciphertext sequence ct.data)

/-- The records of a request, between two states of the engine. -/
structure Published (before after : List JournalRecord) (cts : List CiphertextUnit) : Prop where
  others : ∀ unit, unit ∉ cts.map CiphertextUnit.unitIndex →
    expected c base after unit = expected c base before unit
  carried : ∀ ct ∈ cts, Carries c base after ct

/-- The units are zero, the others unchanged. -/
structure Cleared (before after : List JournalRecord) (units : ℕ → Prop) : Prop where
  others : ∀ unit, ¬ units unit → expected c base after unit = expected c base before unit
  zero : ∀ unit, units unit → expected c base after unit = .ok .Zero

variable {c base} {before mid after : List JournalRecord}

theorem Published.refl (accepted : List JournalRecord) : Published c base accepted accepted [] :=
  ⟨fun _ _ => rfl,by simp⟩

theorem Published.cons {ct : CiphertextUnit} {cts : List CiphertextUnit}
    (h : Published c base before mid [ct]) (h' : Published c base mid after cts)
    (hnew : ct.unitIndex ∉ cts.map CiphertextUnit.unitIndex) : Published c base before after (ct::cts) where
  others unit hu := by
    rw [List.map_cons,List.mem_cons,not_or] at hu
    rw [h'.others unit hu.2,h.others unit (by simpa using hu.1)]
  carried x hx := by
    rcases List.mem_cons.mp hx with rfl | hx
    · have hc := h.carried x (by simp)
      rw [Carries] at hc ⊢
      rw [h'.others _ hnew]
      exact hc
    · exact h'.carried x hx

/-- Units that were zero already may be left out. -/
theorem Published.widen {needed cts : List CiphertextUnit} (h : Published c base before after needed)
    (hsub : needed ⊆ cts) (hempty : ∀ ct ∈ cts, ct.data = [])
    (hzero : ∀ ct ∈ cts, ct.unitIndex ∉ needed.map CiphertextUnit.unitIndex →
      expected c base before ct.unitIndex = .ok .Zero) : Published c base before after cts where
  others unit hu := h.others unit fun hn => hu (List.map_subset _ hsub hn)
  carried ct hct := by
    rw [Carries,if_pos (hempty ct hct)]
    by_cases hin : ct.unitIndex ∈ needed.map CiphertextUnit.unitIndex
    · obtain ⟨x,hx,hu⟩ := List.mem_map.mp hin
      have hc := h.carried x hx
      rw [Carries,if_pos (hempty x (hsub hx)),hu] at hc
      exact hc
    · rw [h.others _ hin]
      exact hzero ct hct hin

theorem Cleared.trans {p q : ℕ → Prop} (h : Cleared c base before mid p) (h' : Cleared c base mid after q) :
    Cleared c base before after fun unit => p unit ∨ q unit where
  others unit hu := by rw [h'.others unit fun hq => hu (.inr hq),h.others unit fun hp => hu (.inl hp)]
  zero unit hu := by
    by_cases hq : q unit
    · exact h'.zero unit hq
    · rw [h'.others unit hq]
      exact h.zero unit (hu.resolve_right hq)

theorem Published.cleared {cts : List CiphertextUnit} (h : Published c base before after cts)
    (hempty : ∀ ct ∈ cts, ct.data = []) :
    Cleared c base before after fun unit => unit ∈ cts.map CiphertextUnit.unitIndex where
  others := h.others
  zero unit hu := by
    obtain ⟨ct,hct,rfl⟩ := List.mem_map.mp hu
    have hc := h.carried ct hct
    rwa [Carries,if_pos (hempty ct hct)] at hc

theorem Published.record {unit sequence : ℕ} {payload : Bytes}
    (h : payload = [] → c.params.supportsDiscard = true) :
    Published c base before (before ++ [⟨sequence,unit,payload⟩]) [⟨unit,payload⟩] where
  others u hu := by
    simp only [expected,Volume.kept]
    rw [lastOf_append_of_not]
    intro r hr he
    rw [List.mem_singleton.mp hr] at he
    exact hu (by simp [← he])
  carried ct hct := by
    rw [List.mem_singleton.mp hct,Carries]
    simp only [expected,Volume.kept,lastOf_append_self,OverlayVersion.stored,JournalRecord.version]
    split
    · rename_i hp
      simp [hp,h hp]
    · rename_i hp
      simp [hp]

theorem recordOf_accepted (ct : CiphertextUnit) (v v' : Volume) :
    (recordOf ct).accepted v v' = Volume.acceptedBy v v' ct.unitIndex ct.data := by
  unfold recordOf
  split
  · rename_i hempty
    rw [List.isEmpty_iff.mp hempty]
    rfl
  · rfl

end Published

section Journal

variable [Crc32] {c : EngineInner} {base : ℕ → Except CoreError SlotRead}
  {accepted : List JournalRecord} {s : Engine} {d : Disk}

def Torn (c : EngineInner) (base : ℕ → Except CoreError SlotRead) (before : List JournalRecord)
    (cts : List CiphertextUnit) (t : Engine × Disk) : Prop :=
  Serving c base t ∧ ∃ done ⊆ cts, Published c base before t.1.accepted done

theorem Stays.torn {t : Engine × Disk} (h : Stays c base accepted t) {cts : List CiphertextUnit} :
    Torn c base accepted cts t :=
  ⟨h.1,[],by simp,by rw [h.2]; exact .refl _⟩

theorem Torn.mono {t : Engine × Disk} {cts cts' : List CiphertextUnit} (h : Torn c base accepted cts t)
    (hsub : cts ⊆ cts') : Torn c base accepted cts' t :=
  ⟨h.1,h.2.imp fun _ hd => ⟨List.Subset.trans hd.1 hsub,hd.2⟩⟩

theorem mapCache_serving {ε : Type} {before : List JournalRecord}
    {f : VersionedLruCache → VersionedLruCache}
    (hf : ∀ cache unit sequence data, (f cache).Holds unit sequence data → cache.Holds unit sequence data) :
    Answers (fun t => Serving c base t ∧ Published c base before t.1.accepted cts)
      (mapCache f : Io Engine ε Unit)
      (fun _ t => Serving c base t ∧ Published c base before t.1.accepted cts)
      (fun _ => Torn c base before cts) := by
  apply Triple.ofEach
  rintro ⟨s,d⟩ ⟨hs,hp⟩
  refine ((mapCache_stays hf).from_state ⟨⟨hs,rfl⟩,rfl⟩).weaken ?_ ?_ fun _ ht => ht
  · rintro _ t ⟨⟨ht,ha⟩,-⟩
    exact ⟨ht,by rw [ha]; exact hp⟩
  · rintro _ t ⟨⟨ht,ha⟩,-⟩
    exact ⟨ht,cts,List.Subset.refl _,by rw [ha]; exact hp⟩

theorem neededTombstones_stays (hdiscard : c.params.supportsDiscard = true) {cts : List CiphertextUnit}
    (hempty : ∀ ct ∈ cts, ct.data = []) :
    Answers (Stays c base accepted) (neededTombstones cts)
      (fun needed t => Stays c base accepted t ∧ needed.Sublist cts ∧
        ∀ ct ∈ cts, ct.unitIndex ∉ needed.map CiphertextUnit.unitIndex →
          expected c base accepted ct.unitIndex = .ok .Zero)
      (fun _ => Stays c base accepted) := by
  induction cts with
  | nil => exact .pure fun _ ht => ⟨ht,.slnil,by simp⟩
  | cons ct cts ih =>
    have hcall : Answers (Stays c base accepted) (onVolume (Volume.reclaimUnwritten ct.unitIndex))
        (fun zero t => Stays c base accepted t ∧
          (zero = true → expected c base accepted ct.unitIndex = .ok .Zero))
        (fun _ => Stays c base accepted) := by
      apply Triple.ofEach
      rintro ⟨s,d⟩ ⟨hs,rfl⟩
      have hb := hs.backed
      rw [hdiscard] at hb
      have hdone : ∀ r : Volume × Disk, (Volume.Backed c.params.geometry true base s.accepted s.plan r ∧
          r.1.journal.appendedSequence = s.volume.journal.appendedSequence) →
          Stays c base s.accepted ({ s with volume := r.1 },r.2) := fun r hr => by
        rw [← hdiscard] at hr
        exact ⟨hs.move hr.1 (Nat.le_of_eq hr.2.symm),rfl⟩
      refine onVolume_triple ((hb.reclaim ct.unitIndex).weaken ?_ ?_ fun _ _ => trivial)
      · rintro zero r ⟨hr,hz⟩
        rw [expected,hdiscard]
        exact ⟨hdone r hr,hz⟩
      · exact fun _ r hr => hdone r hr
    refine .bind hcall fun zero => ?_
    rintro fs t ⟨ht,hzero⟩
    refine (Triple.bind (ih fun x hx => hempty x (List.mem_cons_of_mem _ hx)) fun needed =>
      Triple.pure ?_) fs t ht
    rintro t' ⟨ht',hsub,hrest⟩
    refine ⟨ht',?_⟩
    cases zero with
    | true =>
      simp only [if_true]
      exact ⟨hsub.cons _,List.forall_mem_cons.mpr ⟨fun _ => hzero rfl,hrest⟩⟩
    | false =>
      have hct : CiphertextUnit.mk ct.unitIndex [] = ct := by rw [← hempty ct (by simp)]
      simp only [Bool.false_eq_true,if_false,List.map_cons,hct]
      refine ⟨hsub.cons_cons _,List.forall_mem_cons.mpr ⟨fun hn => absurd List.mem_cons_self hn,fun x hx hn => ?_⟩⟩
      exact hrest x hx fun hm => hn (List.mem_cons_of_mem _ hm)

/-- The ciphertexts of one request: all writes, or all tombstones. -/
def Uniform (c : EngineInner) (cts : List CiphertextUnit) : Prop :=
  (∀ ct ∈ cts, ct.data ≠ []) ∨ c.params.supportsDiscard = true ∧ ∀ ct ∈ cts, ct.data = []

variable [DefaultHasher] [HashOrder]

theorem syncJournal_stays :
    Answers (Stays c base accepted) syncJournal
      (fun _ t => Stays c base accepted t ∧
        t.1.volume.journal.durableSequence = t.1.volume.journal.appendedSequence)
      (fun _ => Stays c base accepted) :=
  Triple.ofEach fun s hs => (syncJournal_triple s.1.plan).conseq
    (fun _ ht => ⟨ht ▸ hs,congrArg (·.1.plan) ht⟩) (fun _ _ ht => ⟨ht.1.1,ht.2⟩) (fun _ _ ht => ht.1)
    fun _ ht => ht

theorem serve_record (h : Serving c base (s,d)) {ct : CiphertextUnit}
    (hct : ct.data = [] → c.params.supportsDiscard = true) :
    Answers (· = (s,d)) (serve (recordOf ct))
      (fun _ t => Serving c base t ∧ Published c base s.accepted t.1.accepted [ct])
      (fun _ => Torn c base s.accepted [ct]) := by
  have hgrows : Returns (· = (s,d)) (serve (recordOf ct))
      (fun _ t => s.volume.journal.appendedSequence < t.1.volume.journal.appendedSequence ∨
        ct.data = [] ∧ expected c base s.accepted ct.unitIndex = .ok .Zero) := by
    apply Triple.mapErr
    apply Triple.zoom
    rintro _ rfl
    unfold recordOf
    split
    · rename_i hempty
      have hnil : ct.data = [] := List.isEmpty_iff.mp hempty
      have hb := h.backed
      rw [hct hnil] at hb
      refine .bind (hb.discardCt_zero ct.unitIndex) fun _ => .pure fun _ ht => ht.imp_right fun hz => ?_
      rw [expected,hct hnil]
      exact ⟨hnil,hz⟩
    · exact .bind (Volume.writeCt_appends h.backed.sound ct.unitIndex ct.data) fun _ =>
        Triple.pure fun _ ht => .inl ht
  refine ((serve_serving h _).and hgrows).conseq (fun _ ht => ⟨ht,ht⟩) ?_ ?_ fun _ _ => trivial
  · rintro _ t ⟨⟨ht,-,ha⟩,hlt⟩
    refine ⟨ht,?_⟩
    rw [ha,recordOf_accepted,Volume.acceptedBy]
    split
    · exact .record hct
    · -- Without a record the unit was zero, and it still is.
      rename_i hno
      obtain ⟨hnil,hzero⟩ := hlt.resolve_left hno
      rw [List.append_nil]
      refine ⟨fun _ _ => rfl,fun x hx => ?_⟩
      rw [List.mem_singleton.mp hx,Carries,if_pos hnil]
      exact hzero
  · rintro _ t ⟨⟨ht,-,ha⟩,-⟩
    refine ⟨ht,?_⟩
    rw [ha,recordOf_accepted,Volume.acceptedBy]
    split
    · exact ⟨[ct],by simp,.record hct⟩
    · rw [List.append_nil]
      exact ⟨[],by simp,.refl _⟩

variable {cts : List CiphertextUnit}

theorem journalUnit_published {ct : CiphertextUnit}
    (hct : ct.data = [] → c.params.supportsDiscard = true) :
    Answers (Stays c base accepted) (journalUnit c ct)
      (fun _ t => Serving c base t ∧ Published c base accepted t.1.accepted [ct])
      (fun _ => Torn c base accepted [ct]) := by
  unfold journalUnit
  apply Triple.ofEach
  rintro ⟨s,d⟩ hs
  apply Triple.get_bind
  have hsync : Answers (· = (s,d)) (Prog.when
      (saturatingAdd s.volume.journal.pendingBytes (recordLen ct) > c.policy.maxPendingBytes) syncJournal)
      (fun _ => Stays c base accepted) (fun _ => Torn c base accepted [ct]) :=
    Triple.when
      (fun _ => syncJournal_stays.conseq (fun _ ht => ht ▸ hs) (fun _ _ ht => ht.1)
        (fun _ _ ht => ht.torn) fun _ ht => ht)
      fun _ _ ht => ht ▸ hs
  refine .bind hsync fun _ => ?_
  have hserve : Answers (Stays c base accepted) (serve (recordOf ct))
      (fun _ t => Serving c base t ∧ Published c base accepted t.1.accepted [ct])
      (fun _ => Torn c base accepted [ct]) := by
    apply Triple.ofEach
    rintro ⟨s',d'⟩ ⟨hs',rfl⟩
    exact serve_record hs' hct
  exact .bind hserve fun _ => mapCache_serving fun _ _ _ _ hh => hh.remove

theorem journalUnits_published (hnodup : (cts.map CiphertextUnit.unitIndex).Nodup)
    (hcts : ∀ ct ∈ cts, ct.data = [] → c.params.supportsDiscard = true) :
    Answers (Stays c base accepted) (Prog.forEach cts (journalUnit c))
      (fun _ t => Serving c base t ∧ Published c base accepted t.1.accepted cts)
      (fun _ => Torn c base accepted cts) := by
  induction cts generalizing accepted with
  | nil =>
    refine .pure fun t ht => ⟨ht.1,?_⟩
    rw [ht.2]
    exact .refl _
  | cons ct cts ih =>
    obtain ⟨hnew,hrest⟩ := List.nodup_cons.mp hnodup
    refine .bind ((journalUnit_published (hcts ct (by simp))).weakenErr
      fun _ _ ht => ht.mono (by simp)) fun _ => ?_
    apply Triple.ofEach
    rintro ⟨s,d⟩ ⟨hs,hp⟩
    have hst : Stays c base s.accepted (s,d) := ⟨hs,rfl⟩
    have hunits : Answers (Stays c base s.accepted) (Prog.forEach cts (journalUnit c))
        (fun _ t => Serving c base t ∧ Published c base s.accepted t.1.accepted cts)
        (fun _ => Torn c base s.accepted cts) :=
      ih hrest fun x hx => hcts x (List.mem_cons_of_mem _ hx)
    refine hunits.conseq (fun _ ht => ht ▸ hst) (fun _ t ht => ⟨ht.1,hp.cons ht.2 hnew⟩) ?_ fun _ ht => ht
    rintro _ t ⟨ht,done,hsub,hdone⟩
    exact ⟨ht,ct::done,List.cons_subset_cons _ hsub,hp.cons hdone fun hn => hnew (List.map_subset _ hsub hn)⟩

theorem admitJournal_stays (cts : List CiphertextUnit) (reclaimed lastRound : Bool) :
    Runs (Stays c base accepted) (admitJournal c cts reclaimed lastRound) := by
  have hsync : Runs (Stays c base accepted) (do
      syncJournal
      return false) := by
    have hs : Runs (Stays c base accepted) syncJournal :=
      syncJournal_stays.weakenOk (fun _ _ ht => ht.1)
    exact hs.bind fun _ => .pure false
  unfold admitJournal
  refine ask_stays.bind fun n => Runs.get_bind ?_
  rintro ⟨s,d⟩ hs
  refine Runs.from_state ((Runs.ofExcept _).bind fun _ => ?_) hs
  split
  · split
    · exact .throw _
    · exact hsync
  split
  · split
    · exact .throw _
    · exact hsync
  · exact .pure true

def Done (c : EngineInner) (base : ℕ → Except CoreError SlotRead) (before : List JournalRecord)
    (cts : List CiphertextUnit) (fua : Bool) (t : Engine × Disk) : Prop :=
  Serving c base t ∧ Published c base before t.1.accepted cts ∧
    (fua = true → t.1.volume.journal.durableSequence = t.1.volume.journal.appendedSequence)

theorem sync_done {before : List JournalRecord} (fua : Bool) :
    Answers (fun t => Serving c base t ∧ Published c base before t.1.accepted cts)
      (Prog.when fua syncJournal) (fun _ => Done c base before cts fua) (fun _ => Torn c base before cts) := by
  apply Triple.when
  · rintro rfl
    apply Triple.ofEach
    rintro ⟨s,d⟩ ⟨hs,hp⟩
    have hst : Stays c base s.accepted (s,d) := ⟨hs,rfl⟩
    refine syncJournal_stays.conseq (fun _ ht => ht ▸ hst) ?_ ?_ fun _ ht => ht
    · rintro _ t ⟨⟨ht,ha⟩,hd⟩
      exact ⟨ht,by rw [ha]; exact hp,fun _ => hd⟩
    · rintro _ t ⟨ht,ha⟩
      exact ⟨ht,cts,List.Subset.refl _,by rw [ha]; exact hp⟩
  · rintro t rfl ⟨ht,hp⟩
    exact ⟨ht,hp,by simp⟩

theorem appendRecords_done (hnodup : (cts.map CiphertextUnit.unitIndex).Nodup)
    (hcts : ∀ ct ∈ cts, ct.data = [] → c.params.supportsDiscard = true) (fua : Bool) :
    Answers (Stays c base accepted) (appendRecords c cts fua)
      (fun written t => written = true ∧ Done c base accepted cts fua t) (fun _ => Torn c base accepted cts) :=
  Triple.bind (journalUnits_published hnodup hcts) fun _ => .bind (sync_done fua) fun _ =>
    Triple.pure fun _ ht => ⟨rfl,ht⟩

omit [DefaultHasher] [HashOrder] in
theorem neededRecords_stays (huniform : Uniform c cts) :
    Answers (Stays c base accepted) (neededRecords cts)
      (fun needed t => Stays c base accepted t ∧ needed.Sublist cts ∧
        (∀ ct ∈ needed, ct.data = [] → c.params.supportsDiscard = true) ∧
        ∀ after, Published c base accepted after needed → Published c base accepted after cts)
      (fun _ => Stays c base accepted) := by
  unfold neededRecords
  cases cts with
  | nil => exact .pure fun _ ht => ⟨ht,.refl _,by simp,fun _ hp => hp⟩
  | cons ct rest =>
    rcases huniform with hne | ⟨hdiscard,hall⟩
    · have hhead : ct.data.isEmpty = false := by simpa using hne ct (by simp)
      simp only [List.head?_cons,Option.any_some,hhead,Bool.false_eq_true,if_false]
      exact .pure fun _ ht => ⟨ht,.refl _,fun x hx he => absurd he (hne x hx),fun _ hp => hp⟩
    · have hhead : ct.data.isEmpty = true := by simpa using hall ct (by simp)
      simp only [List.head?_cons,Option.any_some,hhead,if_true]
      refine (neededTombstones_stays hdiscard hall).weakenOk ?_
      rintro needed t ⟨ht,hsub,hzero⟩
      exact ⟨ht,hsub,fun _ _ _ => hdiscard,fun after hp => hp.widen hsub.subset hall hzero⟩

theorem journalRequest_done (hnodup : (cts.map CiphertextUnit.unitIndex).Nodup)
    (huniform : Uniform c cts) (fua reclaimed lastRound : Bool) :
    Answers (Stays c base accepted) (journalRequest c cts fua reclaimed lastRound)
      (fun written t => if written then Done c base accepted cts fua t else Stays c base accepted t)
      (fun _ => Torn c base accepted cts) := by
  unfold journalRequest
  refine .bind ((neededRecords_stays huniform).weakenErr (fun _ _ ht => ht.torn)) fun needed => ?_
  rintro fs t ⟨ht,hsub,hneeded,hwiden⟩
  have hadmit : Answers (Stays c base accepted) (admitRecords c needed reclaimed lastRound)
      (fun _ => Stays c base accepted) (fun _ => Torn c base accepted cts) := by
    unfold admitRecords
    split
    · exact .pure fun _ ht => ht
    · exact (admitJournal_stays needed reclaimed lastRound).weakenErr (fun _ _ ht => ht.torn)
  refine (Triple.bind hadmit fun admitted => ?_) fs t ht
  cases admitted with
  | false => exact .pure fun _ ht => ht
  | true =>
    simp only [if_true]
    refine (appendRecords_done ((hsub.map _).nodup hnodup) hneeded fua).weaken ?_
      (fun _ _ ht => ht.mono hsub.subset) fun _ ht => ht
    rintro _ t ⟨rfl,hs,hp,hd⟩
    exact ⟨hs,hwiden _ hp,hd⟩

/-- Every round that does not write leaves the units as they were. -/
theorem publishRounds_done (hnodup : (cts.map CiphertextUnit.unitIndex).Nodup)
    (huniform : Uniform c cts) (fua reclaimed : Bool) (left : ℕ) :
    Answers (Stays c base accepted) (publishRounds c cts fua reclaimed left)
      (fun _ => Done c base accepted cts fua) (fun _ => Torn c base accepted cts) := by
  have hweak : ∀ {α : Type} {p : Io Engine EngineError α}, Runs (Stays c base accepted) p →
      Answers (Stays c base accepted) p (fun _ => Stays c base accepted)
        (fun _ => Torn c base accepted cts) := fun hp =>
    hp.weakenErr (fun _ _ ht => ht.torn)
  induction left generalizing reclaimed with
  | zero => exact .throw fun _ ht => ht.torn
  | succ left ih =>
    unfold publishRounds
    refine .bind (hweak pause_stays) fun _ => ?_
    refine .bind (journalRequest_done hnodup huniform fua reclaimed _) fun written => ?_
    cases written with
    | true => exact .pure fun _ ht => ht
    | false => exact .bind (hweak checkpoint_stays) fun _ => ih true

end Journal

section Bytes

variable {c : EngineInner} {base : ℕ → Except CoreError SlotRead} {before after : List JournalRecord}

theorem nodup_unitRange (unitSize offset len : ℕ) : (unitRange unitSize offset len).Nodup :=
  List.nodup_range'

theorem mem_unitRange {unitSize offset len unit : ℕ} :
    unit ∈ unitRange unitSize offset len ↔
      offset/unitSize ≤ unit ∧ unit ≤ offset/unitSize+((offset+len-1)/unitSize-offset/unitSize) := by
  simp only [unitRange,List.mem_range'_1]
  omega

/-- The ciphertexts of a write: each unit's plaintext is what the write makes of its old one. -/
structure Sealed (c : EngineInner) (base : ℕ → Except CoreError SlotRead) (before : List JournalRecord)
    (offset : ℕ) (data : WriteInput) (cts : List CiphertextUnit) : Prop where
  units : cts.map CiphertextUnit.unitIndex = unitRange c.params.unitSize offset data.len
  plain : ∀ ct ∈ cts, ∃ old : Bytes, old.length = c.params.unitSize ∧
    (c.params.full offset data.len ct.unitIndex = false →
      old = plainOf c ct.unitIndex (expected c base before ct.unitIndex)) ∧
    c.provider.plaintextOf ct.unitIndex ct.data =
      (Mutation.write offset data).update c.params ct.unitIndex old

/-- A position without a new byte lies in a unit that is covered in part, if the write touches it. -/
theorem not_full_of_byteAt {offset pos : ℕ} {data : WriteInput} (hus : 0 < c.params.unitSize)
    (h : (Mutation.write offset data).byteAt c.params pos = none) :
    c.params.full offset data.len (pos/c.params.unitSize) = false := by
  rw [Bool.eq_false_iff]
  intro hfull
  simp only [EngineParams.full,Bool.and_eq_true,decide_eq_true_eq] at hfull
  simp only [Mutation.byteAt,ite_eq_right_iff,reduceCtorEq,imp_false,not_and,Nat.not_lt] at h
  have hpos := Nat.div_add_mod pos c.params.unitSize
  have hmod := Nat.mod_lt pos hus
  rw [Nat.mul_comm] at hpos
  omega

/-- Each unit has its old bytes, or all the bytes meant for it. -/
def ByUnits (unitSize : ℕ) (old new now : ℕ → UInt8) : Prop :=
  ∀ unit, (∀ pos, pos/unitSize = unit → now pos = old pos) ∨ ∀ pos, pos/unitSize = unit → now pos = new pos

section Write

variable {offset : ℕ} {data : WriteInput} {cts : List CiphertextUnit}

section Sealed

variable (h : Sealed c base before offset data cts) (hus : 0 < c.params.unitSize)

include h hus

theorem Sealed.carried_eq {ct : CiphertextUnit} (hct : ct ∈ cts) (hne : ct.data ≠ [])
    (hc : Carries c base after ct) {pos : ℕ} (hu : pos/c.params.unitSize = ct.unitIndex) :
    device c base after pos = (Mutation.write offset data).apply c.params (device c base before) pos := by
  have hmod := Nat.mod_lt pos hus
  have hpos : pos/c.params.unitSize*c.params.unitSize+pos % c.params.unitSize = pos := by
    rw [Nat.mul_comm]
    exact Nat.div_add_mod _ _
  obtain ⟨old,hold,hpart,hplain⟩ := h.plain ct hct
  rw [Carries,if_neg hne,← hu] at hc
  obtain ⟨sequence,he⟩ := hc
  rw [← hu] at hplain hpart
  rw [device,he,plainOf,hplain,Mutation.at_update _ _ (by omega),hpos,Mutation.apply]
  cases hb : (Mutation.write offset data).byteAt c.params pos with
  | some b => rfl
  | none =>
    rw [hpart (not_full_of_byteAt hus hb)]
    rfl

/-- A published write has exactly the effect of the write on the bytes. -/
theorem Sealed.device_eq (hlen : 0 < data.len) (hne : ∀ ct ∈ cts, ct.data ≠ [])
    (hp : Published c base before after cts) :
    device c base after = (Mutation.write offset data).apply c.params (device c base before) := by
  funext pos
  by_cases hin : pos/c.params.unitSize ∈ cts.map CiphertextUnit.unitIndex
  · obtain ⟨ct,hct,hu⟩ := List.mem_map.mp hin
    exact h.carried_eq hus hct (hne ct hct) (hp.carried ct hct) hu.symm
  · have hnone : (Mutation.write offset data).byteAt c.params pos = none := by
      rw [h.units,mem_unitRange] at hin
      simp only [Mutation.byteAt,ite_eq_right_iff,reduceCtorEq,imp_false,not_and,Nat.not_lt]
      intro hle
      have hfirst : offset/c.params.unitSize ≤ pos/c.params.unitSize := Nat.div_le_div_right hle
      by_contra hlt
      have hlast : pos/c.params.unitSize ≤ (offset+data.len-1)/c.params.unitSize :=
        Nat.div_le_div_right (by omega)
      omega
    rw [Mutation.apply,hnone,device,hp.others _ hin]
    rfl

theorem Sealed.byUnits (hne : ∀ ct ∈ cts, ct.data ≠ []) {done : List CiphertextUnit}
    (hsub : done ⊆ cts) (hp : Published c base before after done) :
    ByUnits c.params.unitSize (device c base before)
      ((Mutation.write offset data).apply c.params (device c base before)) (device c base after) := by
  intro unit
  by_cases hin : unit ∈ done.map CiphertextUnit.unitIndex
  · obtain ⟨ct,hct,rfl⟩ := List.mem_map.mp hin
    exact .inr fun pos hu => h.carried_eq hus (hsub hct) (hne ct (hsub hct)) (hp.carried ct hct) hu
  · exact .inl fun pos hu => by rw [device,hu,hp.others unit hin,← hu]; rfl

end Sealed

end Write

theorem trim_units {offset n unit : ℕ} (hus : 0 < c.params.unitSize) :
    (c.params.trimFirst offset ≤ unit ∧ unit < c.params.trimEnd offset n) ↔
      offset ≤ unit*c.params.unitSize ∧ (unit+1)*c.params.unitSize ≤ offset+n := by
  have hfirst : c.params.trimFirst offset ≤ unit ↔ offset ≤ unit*c.params.unitSize := by
    rw [← Nat.lt_succ_iff,EngineParams.trimFirst,Nat.div_lt_iff_lt_mul hus,Nat.succ_mul]
    omega
  have hend : unit < c.params.trimEnd offset n ↔ (unit+1)*c.params.unitSize ≤ offset+n :=
    Nat.le_div_iff_mul_le hus
  rw [hfirst,hend]

section Trim

variable {offset n : ℕ} (hus : 0 < c.params.unitSize)

include hus in
theorem device_of_zero {pos : ℕ}
    (hin : c.params.trimFirst offset ≤ pos/c.params.unitSize ∧ pos/c.params.unitSize < c.params.trimEnd offset n)
    (hz : expected c base after (pos/c.params.unitSize) = .ok .Zero) :
    device c base after pos = (Mutation.trim offset n).apply c.params (device c base before) pos := by
  have hmod := Nat.mod_lt pos hus
  rw [Mutation.apply,Mutation.byteAt,if_pos ((trim_units hus).mp hin),device,hz]
  simp [plainOf,Splice.at_,List.getD_eq_getElem?_getD,hmod]

include hus in
/-- Cleared units have exactly the effect of the trim on the bytes. -/
theorem Cleared.device_eq (h : Cleared c base before after fun unit =>
      c.params.trimFirst offset ≤ unit ∧ unit < c.params.trimEnd offset n) :
    device c base after = (Mutation.trim offset n).apply c.params (device c base before) := by
  funext pos
  by_cases hin : c.params.trimFirst offset ≤ pos/c.params.unitSize ∧
      pos/c.params.unitSize < c.params.trimEnd offset n
  · exact device_of_zero hus hin (h.zero _ hin)
  · rw [Mutation.apply,Mutation.byteAt,if_neg (mt (trim_units hus).mpr hin),device,h.others _ hin]
    rfl

include hus in
theorem Cleared.byUnits {done : ℕ → Prop} (h : Cleared c base before after done)
    (hdone : ∀ unit, done unit → c.params.trimFirst offset ≤ unit ∧ unit < c.params.trimEnd offset n) :
    ByUnits c.params.unitSize (device c base before)
      ((Mutation.trim offset n).apply c.params (device c base before)) (device c base after) := by
  intro unit
  by_cases hin : done unit
  · exact .inr fun pos hu => device_of_zero hus (hu ▸ hdone unit hin) (hu ▸ h.zero unit hin)
  · exact .inl fun pos hu => by rw [device,hu,h.others unit hin,← hu]; rfl

end Trim

end Bytes

section Requests

variable {c : EngineInner} {base : ℕ → Except CoreError SlotRead} {accepted : List JournalRecord}

theorem items_updated {offset : ℕ} {data : WriteInput} {found : List (ℕ × Found)} {m : Std.TreeMap ℕ Bytes}
    (hus : 0 < c.params.unitSize) (hlen : 0 < data.len)
    (hg : Gathered c base accepted ((unitRange c.params.unitSize offset data.len).filter fun unit =>
      !c.params.full offset data.len unit) found m) {unit : ℕ}
    (hu : unit ∈ unitRange c.params.unitSize offset data.len) :
    ∃ old : Bytes, old.length = c.params.unitSize ∧
      (c.params.full offset data.len unit = false →
        old = plainOf c unit (expected c base accepted unit)) ∧
      c.params.unitBuffer offset data unit ((cachedUnit found unit).or m[unit]?) =
        (Mutation.write offset data).update c.params unit old := by
  rw [mem_unitRange] at hu
  have hle : offset/c.params.unitSize ≤ (offset+data.len-1)/c.params.unitSize :=
    Nat.div_le_div_right (by omega)
  have hbuf : ∀ old : Bytes, old.length = c.params.unitSize →
      (c.params.full offset data.len unit = false →
        ((cachedUnit found unit).or m[unit]?).getD (List.replicate c.params.unitSize 0) = old) →
      c.params.unitBuffer offset data unit ((cachedUnit found unit).or m[unit]?) =
        (Mutation.write offset data).update c.params unit old := fun old hold hpart =>
    Mutation.unitBuffer_eq hus hlen hold hu.1 (by omega) hpart
  cases hfull : c.params.full offset data.len unit with
  | true =>
    rw [hfull] at hbuf
    exact ⟨List.replicate c.params.unitSize 0,List.length_replicate,by simp,
      hbuf _ List.length_replicate (by simp)⟩
  | false =>
    have hin : unit ∈ (unitRange c.params.unitSize offset data.len).filter fun unit =>
        !c.params.full offset data.len unit := by
      rw [List.mem_filter,mem_unitRange]
      exact ⟨hu,by simp [hfull]⟩
    obtain ⟨heq,hsize⟩ := known_or (hg.cached unit) (hg.decrypted unit) fun hc hm => hg.zero unit hin hm hc
    exact ⟨_,hsize,fun _ => rfl,hbuf _ hsize fun _ => heq⟩

/-- The chunks of a trim cover its units, and the last one ends with the last unit. -/
theorem trimChunks_cover {perChunk stop fuel start : ℕ} (hper : 0 < perChunk) (hfuel : stop-start ≤ fuel) :
    (∀ unit, (∃ chunk ∈ EngineParams.trimChunks perChunk stop fuel start,
      chunk.1 ≤ unit ∧ unit ≤ chunk.2) ↔ start ≤ unit ∧ unit < stop) ∧
    (start < stop → ∃ chunk, (EngineParams.trimChunks perChunk stop fuel start).getLast? = some chunk ∧
      chunk.2+1 = stop) := by
  induction fuel generalizing start with
  | zero =>
    refine ⟨fun unit => ⟨fun h => ?_,fun h => ?_⟩,fun h => ?_⟩
    · simp [EngineParams.trimChunks] at h
    · omega
    · omega
  | succ fuel ih =>
    simp only [EngineParams.trimChunks]
    by_cases hlt : start < stop
    · simp only [if_pos hlt]
      have hleft : stop-min (start+perChunk) stop ≤ fuel := by omega
      obtain ⟨hcover,hlast⟩ := ih hleft
      refine ⟨fun unit => ?_,fun _ => ?_⟩
      · simp only [List.exists_mem_cons_iff,hcover unit]
        omega
      · by_cases hmore : min (start+perChunk) stop < stop
        · obtain ⟨chunk,hchunk,hend⟩ := hlast hmore
          refine ⟨chunk,?_,hend⟩
          rw [List.getLast?_cons,hchunk]
          rfl
        · have hnil : EngineParams.trimChunks perChunk stop fuel (min (start+perChunk) stop) = [] := by
            cases fuel with
            | zero => rfl
            | succ fuel => simp only [EngineParams.trimChunks,if_neg hmore]
          refine ⟨(start,min (start+perChunk) stop-1),by rw [hnil]; rfl,?_⟩
          omega
    · simp only [if_neg hlt]
      exact ⟨fun unit => ⟨fun h => by simp at h,fun h => by omega⟩,fun h => absurd h hlt⟩

variable [Crc32]

/-- What a request that changes bytes leaves: the change, and with `fua` nothing that is not
durable. -/
def Changed (c : EngineInner) (base : ℕ → Except CoreError SlotRead) (dev : ℕ → UInt8) (fua : Bool)
    (t : Engine × Disk) : Prop :=
  Serving c base t ∧ device c base t.1.accepted = dev ∧
    (fua = true → t.1.volume.journal.durableSequence = t.1.volume.journal.appendedSequence)

def Halted (c : EngineInner) (base : ℕ → Except CoreError SlotRead) (old new : ℕ → UInt8)
    (t : Engine × Disk) : Prop :=
  Serving c base t ∧ ByUnits c.params.unitSize old new (device c base t.1.accepted)

/-- A request makes the bytes `new`, or fails on the way there. -/
abbrev Rewrites (c : EngineInner) (base : ℕ → Except CoreError SlotRead) (accepted : List JournalRecord)
    (p : Io Engine EngineError Unit) (new : ℕ → UInt8) (fua : Bool) : Prop :=
  Answers (Stays c base accepted) p (fun _ => Changed c base new fua)
    (fun _ => Halted c base (device c base accepted) new)

theorem Stays.halted {t : Engine × Disk} (h : Stays c base accepted t) {new : ℕ → UInt8} :
    Halted c base (device c base accepted) new t :=
  ⟨h.1,fun _ => .inl fun _ _ => by rw [h.2]⟩

theorem halts {α : Type} {p : Io Engine EngineError α} {ok : α → Engine × Disk → Prop} {new : ℕ → UInt8}
    (h : Answers (Stays c base accepted) p ok (fun _ => Stays c base accepted)) :
    Answers (Stays c base accepted) p ok (fun _ => Halted c base (device c base accepted) new) :=
  h.weakenErr fun _ _ ht => ht.halted

def Trimmed (c : EngineInner) (base : ℕ → Except CoreError SlotRead) (before : List JournalRecord)
    (units : ℕ → Prop) (fua : Bool) (t : Engine × Disk) : Prop :=
  Serving c base t ∧ Cleared c base before t.1.accepted units ∧
    (fua = true → t.1.volume.journal.durableSequence = t.1.volume.journal.appendedSequence)

def Clearing (c : EngineInner) (base : ℕ → Except CoreError SlotRead) (before : List JournalRecord)
    (units : ℕ → Prop) (t : Engine × Disk) : Prop :=
  Serving c base t ∧ ∃ done : ℕ → Prop, (∀ unit, done unit → units unit) ∧
    Cleared c base before t.1.accepted done

theorem Stays.clearing {t : Engine × Disk} (h : Stays c base accepted t) {units : ℕ → Prop} :
    Clearing c base accepted units t :=
  ⟨h.1,fun _ => False,fun _ hu => hu.elim,by rw [h.2]; exact ⟨fun _ _ => rfl,fun _ hu => hu.elim⟩⟩

variable [DefaultHasher] [HashOrder]

theorem writeAdmitted_changed (hus : 0 < c.params.unitSize) {offset : ℕ} {data : WriteInput}
    (hlen : 0 < data.len) (fua : Bool) :
    Rewrites c base accepted (writeAdmitted c offset data fua)
      ((Mutation.write offset data).apply c.params (device c base accepted)) fua := by
  unfold writeAdmitted
  refine .bind (halts checkFreshness_stays) fun _ => .bind (halts pause_stays) fun _ => ?_
  refine .bind (halts (Triple.traverse fun unit _ => lookup_stays unit)) fun looked => ?_
  rintro fs t ⟨ht,htells⟩
  refine (Triple.bind (halts (decryptUnits_stays _)) fun m => ?_) fs t ht
  rintro fs t ⟨ht,hm,hall⟩
  have hg := gathered htells hm hall
  refine (Triple.bind (halts (runBatches_stays c.provider.encrypt_ok _)) fun results => ?_) fs t ht
  rintro fs t ⟨ht,hresults⟩
  have hitems := flatten_answers hresults.flip
  rw [encryptBatches,flatten_batchChunks] at hitems
  refine (Triple.ofExcept_bind (fun _ hcheck => ?_) fun _ _ _ ht => ht.halted) fs t ht
  have hne : ∀ ct ∈ results.flatten, ct.data ≠ [] := by
    intro ct hct hnil
    unfold checkCiphertexts at hcheck
    simp only at hcheck
    split at hcheck
    · cases hcheck
    · rename_i hfind
      have hgood := List.find?_eq_none.mp hfind ct hct
      simp [hnil] at hgood
  have hsealed : Sealed c base accepted offset data results.flatten := by
    constructor
    · have hunits := congrArg (List.map PlaintextUnit.unitIndex) hitems
      simpa only [List.map_map,Function.comp_def,List.map_id'] using hunits
    · intro ct hct
      have hin : PlaintextUnit.mk ct.unitIndex (c.provider.plaintextOf ct.unitIndex ct.data) ∈
          (unitRange c.params.unitSize offset data.len).map fun unit => PlaintextUnit.mk unit
            (c.params.unitBuffer offset data unit ((cachedUnit _ unit).or m[unit]?)) :=
        hitems ▸ List.mem_map_of_mem hct
      obtain ⟨unit,hu,heq⟩ := List.mem_map.mp hin
      obtain ⟨rfl,hplain⟩ := PlaintextUnit.mk.inj heq
      rw [← hplain]
      exact items_updated hus hlen hg hu
  have hnodup : (results.flatten.map CiphertextUnit.unitIndex).Nodup := by
    rw [hsealed.units]
    exact nodup_unitRange _ _ _
  refine (publishRounds_done hnodup (.inl hne) fua false _).weaken ?_
    (fun _ _ ht => ⟨ht.1,ht.2.elim fun _ hd => hsealed.byUnits hus hne hd.1 hd.2⟩) fun _ ht => ht
  rintro _ t ⟨ht,hp,hd⟩
  exact ⟨ht,hsealed.device_eq hus hlen hne hp,hd⟩

theorem writeInner_changed (hus : 0 < c.params.unitSize) (offset : ℕ) (data : Bytes) (fua : Bool) :
    Rewrites c base accepted (writeInner c offset data fua)
      ((Mutation.write offset (.Borrowed data)).apply c.params (device c base accepted)) fua := by
  refine .ofExcept_bind (fun _ hcheck => ?_) fun _ _ _ ht => ht.halted
  exact writeAdmitted_changed hus (EngineParams.len_pos_of_checkRange (ok_of_mapError hcheck)) fua

theorem writeZeroes_changed (hus : 0 < c.params.unitSize) (offset len : ℕ) (fua : Bool) :
    Rewrites c base accepted (Engine.writeZeroes c offset len fua)
      ((Mutation.write offset (.Zeroes len)).apply c.params (device c base accepted)) fua := by
  refine .ofExcept_bind (fun _ hcheck => ?_) fun _ _ _ ht => ht.halted
  exact writeAdmitted_changed hus (EngineParams.len_pos_of_checkRange (ok_of_mapError hcheck)) fua

theorem trimUnits_trimmed (hdiscard : c.params.supportsDiscard = true) (first last : ℕ) (fua : Bool) :
    Answers (Stays c base accepted) (trimUnits c first last fua)
      (fun _ => Trimmed c base accepted (fun unit => first ≤ unit ∧ unit ≤ last) fua)
      (fun _ => Clearing c base accepted fun unit => first ≤ unit ∧ unit ≤ last) := by
  let cts : List CiphertextUnit := (List.range' first (last+1-first)).map fun unit => ⟨unit,[]⟩
  have hunits : cts.map CiphertextUnit.unitIndex = List.range' first (last+1-first) := by
    simp only [cts,List.map_map,Function.comp_def,List.map_id']
  have hempty : ∀ ct ∈ cts, ct.data = [] := by
    intro ct hct
    obtain ⟨unit,-,rfl⟩ := List.mem_map.mp hct
    rfl
  have hnodup : (cts.map CiphertextUnit.unitIndex).Nodup := hunits ▸ List.nodup_range'
  have hmem : ∀ unit, unit ∈ List.range' first (last+1-first) ↔ first ≤ unit ∧ unit ≤ last := by
    intro unit
    rw [List.mem_range'_1]
    omega
  refine .bind (checkFreshness_stays.weakenErr fun _ _ ht => ht.clearing) fun _ => ?_
  refine (publishRounds_done hnodup (.inr ⟨hdiscard,hempty⟩) fua false _).weaken ?_ ?_ fun _ ht => ht
  · rintro _ t ⟨ht,hp,hd⟩
    have hc := hp.cleared hempty
    rw [hunits] at hc
    exact ⟨ht,⟨fun unit hu => hc.others unit fun h => hu ((hmem unit).mp h),
      fun unit hu => hc.zero unit ((hmem unit).mpr hu)⟩,hd⟩
  · rintro _ t ⟨ht,done,hsub,hp⟩
    refine ⟨ht,_,fun unit hu => (hmem unit).mp ?_,hp.cleared fun ct hct => hempty ct (hsub hct)⟩
    rw [← hunits]
    exact List.map_subset _ hsub hu

theorem trimChunks_trimmed (hdiscard : c.params.supportsDiscard = true) (force : ℕ × ℕ → Bool)
    (chunks : List (ℕ × ℕ)) :
    Answers (Stays c base accepted)
      (Prog.forEach chunks fun chunk => trimUnits c chunk.1 chunk.2 (force chunk))
      (fun _ => Trimmed c base accepted (fun unit => ∃ chunk ∈ chunks, chunk.1 ≤ unit ∧ unit ≤ chunk.2)
        (chunks.getLast?.any force))
      (fun _ => Clearing c base accepted fun unit => ∃ chunk ∈ chunks, chunk.1 ≤ unit ∧ unit ≤ chunk.2) := by
  induction chunks generalizing accepted with
  | nil =>
    refine .pure fun t ht => ⟨ht.1,?_,by simp⟩
    rw [ht.2]
    exact ⟨fun _ _ => rfl,fun _ hu => by simp at hu⟩
  | cons chunk chunks ih =>
    refine .bind ((trimUnits_trimmed hdiscard chunk.1 chunk.2 (force chunk)).weakenErr
      fun _ _ ht => ⟨ht.1,ht.2.imp fun _ hd => ⟨fun unit hu => ⟨chunk,by simp,hd.1 unit hu⟩,hd.2⟩⟩) fun _ => ?_
    apply Triple.ofEach
    rintro ⟨s,d⟩ ⟨hs,hc,hd⟩
    have hst : Stays c base s.accepted (s,d) := ⟨hs,rfl⟩
    cases chunks with
    | nil =>
      refine .pure ?_
      rintro _ rfl
      exact ⟨hs,⟨fun unit hu => hc.others unit fun h => hu ⟨chunk,by simp,h⟩,
        fun unit hu => hc.zero unit (by simpa using hu)⟩,hd⟩
    | cons next rest =>
      have hrest : Answers (Stays c base s.accepted)
          (Prog.forEach (next::rest) fun chunk => trimUnits c chunk.1 chunk.2 (force chunk))
          (fun _ => Trimmed c base s.accepted
            (fun unit => ∃ chunk ∈ next::rest, chunk.1 ≤ unit ∧ unit ≤ chunk.2)
            ((next::rest).getLast?.any force))
          (fun _ => Clearing c base s.accepted
            fun unit => ∃ chunk ∈ next::rest, chunk.1 ≤ unit ∧ unit ≤ chunk.2) := ih
      refine hrest.conseq (fun _ ht => ht ▸ hst) ?_ ?_ fun _ ht => ht
      · rintro _ t ⟨ht,hc',hd'⟩
        have hboth := hc.trans hc'
        exact ⟨ht,⟨fun unit hu => hboth.others unit fun h => hu ((List.exists_mem_cons_iff ..).mpr h),
          fun unit hu => hboth.zero unit ((List.exists_mem_cons_iff ..).mp hu)⟩,hd'⟩
      · rintro _ t ⟨ht,done,hsub,hc'⟩
        exact ⟨ht,_,fun unit hu => (List.exists_mem_cons_iff ..).mpr (hu.imp_right (hsub unit)),hc.trans hc'⟩

theorem flushInner_changed :
    Rewrites c base accepted (flushInner c) (device c base accepted) true := by
  refine .bind (halts checkFreshness_stays) fun _ => .bind (halts pause_stays) fun _ => ?_
  refine (halts syncJournal_stays).weakenOk ?_
  rintro _ t ⟨⟨ht,ha⟩,hd⟩
  exact ⟨ht,by rw [ha],fun _ => hd⟩

theorem trimInner_changed (hus : 0 < c.params.unitSize) (offset len : ℕ) (fua : Bool) :
    Rewrites c base accepted (trimInner c offset len fua)
      ((Mutation.trim offset len).apply c.params (device c base accepted)) fua := by
  unfold trimInner
  refine .ofExcept_bind (fun _ hcheck => ?_) fun _ _ _ ht => ht.halted
  have hdiscard : c.params.supportsDiscard = true := by
    cases hd : c.params.supportsDiscard with
    | true => rfl
    | false =>
      simp only [EngineParams.check,hd,Bool.false_eq_true,if_false] at hcheck
      cases hx : c.params.checkExtent offset len with
      | error e => simp [hx,Except.bind,Except.mapError] at hcheck
      | ok u => simp [hx,Except.bind,Except.mapError] at hcheck
  simp only
  by_cases hnone : c.params.trimFirst offset ≥ c.params.trimEnd offset len
  · -- No unit lies inside the range.
    have hsame : (Mutation.trim offset len).apply c.params (device c base accepted) =
        device c base accepted := by
      have hnothing : Cleared c base accepted accepted fun unit =>
          c.params.trimFirst offset ≤ unit ∧ unit < c.params.trimEnd offset len :=
        ⟨fun _ _ => rfl,fun unit hu => by omega⟩
      exact (hnothing.device_eq hus).symm
    rw [if_pos hnone,hsame]
    cases fua with
    | true => exact flushInner_changed
    | false =>
      exact (halts checkFreshness_stays).weakenOk fun _ t ht => ⟨ht.1,by rw [ht.2],by simp⟩
  · rw [if_neg hnone]
    have hper : 0 < max (c.params.maxRequestBytes/c.params.unitSize) 1 := by omega
    obtain ⟨hcover,hlast⟩ := trimChunks_cover hper
      (Nat.le_refl (c.params.trimEnd offset len-c.params.trimFirst offset))
    obtain ⟨chunk,hchunk,hend⟩ := hlast (by omega)
    refine (trimChunks_trimmed hdiscard (fun chunk => fua && chunk.2+1 = c.params.trimEnd offset len)
      (c.params.chunks (.trim offset len))).weaken ?_ (fun _ t ht => ⟨ht.1,ht.2.elim fun _ hd =>
        hd.2.byUnits hus fun unit hu => (hcover unit).mp (hd.1 unit hu)⟩) fun _ ht => ht
    rintro _ t ⟨ht,hc,hd⟩
    refine ⟨ht,Cleared.device_eq hus ⟨fun unit hu => hc.others unit fun h => hu ((hcover unit).mp h),
      fun unit hu => hc.zero unit ((hcover unit).mpr hu)⟩,fun hf => hd ?_⟩
    rw [EngineParams.chunks,hchunk]
    simp [hf,hend]

end Requests
end Engine
end Maki
