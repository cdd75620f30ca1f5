import Maki.Engine
import Maki.VolumeAnswers

/-! What an engine keeps while it serves: the volume below it stands as its accepted records say, and
the cache has no plaintext but that of a version of its unit. Whatever the worker does between the
steps of a request changes neither, and what a lookup finds is the unit's current version. -/
namespace Maki

open Prog hiding pure bind throw get modify
namespace Engine

section Invariant

variable [Crc32] (c : EngineInner) (base : ℕ → Except CoreError SlotRead)

def expected (accepted : List JournalRecord) (unit : ℕ) : Except CoreError SlotRead :=
  Volume.kept c.params.supportsDiscard base accepted unit

def plainOf (unit : ℕ) : Except CoreError SlotRead → Bytes
  | .ok (.Ciphertext _ ciphertext) => c.provider.plaintextOf unit ciphertext
  | _ => List.replicate c.params.unitSize 0

/-- `data` is the plaintext of the version of a unit with this sequence: the current one, unless
the unit has a newer one. -/
structure Genuine (accepted : List JournalRecord) (unit sequence : ℕ) (data : Bytes) : Prop where
  size : data.length = c.params.unitSize
  version : (∃ r ∈ accepted, r.unitIndex = unit ∧ sequence < r.sequence) ∨
    ∃ ciphertext, expected c base accepted unit = .ok (.Ciphertext sequence ciphertext) ∧
      data = c.provider.plaintextOf unit ciphertext

/-- What holds whenever the volume is free. -/
structure Serving (t : Engine × Disk) : Prop where
  backed : Volume.Backed c.params.geometry c.params.supportsDiscard base t.1.accepted t.1.plan
    (t.1.volume,t.2)
  older : ∀ unit sequence ciphertext, base unit = .ok (.Ciphertext sequence ciphertext) →
    sequence ≤ t.1.volume.journal.appendedSequence
  cached : ∀ cache ∈ t.1.cache, ∀ unit sequence data, cache.Holds unit sequence data →
    sequence ≤ t.1.volume.journal.appendedSequence ∧ Genuine c base t.1.accepted unit sequence data

def Stays (accepted : List JournalRecord) (t : Engine × Disk) : Prop :=
  Serving c base t ∧ t.1.accepted = accepted

end Invariant

section Moves

variable {c : EngineInner} {base : ℕ → Except CoreError SlotRead}
  {accepted added : List JournalRecord} {s : Engine} {d d' : Disk} {v : Volume}

theorem Genuine.grow {unit sequence k : ℕ} {data : Bytes} (h : Genuine c base accepted unit sequence data)
    (hk : sequence ≤ k) (hnew : ∀ r ∈ added, k < r.sequence) :
    Genuine c base (accepted ++ added) unit sequence data := by
  refine ⟨h.size,?_⟩
  by_cases hunit : ∃ r ∈ added, r.unitIndex = unit
  · obtain ⟨r,hr,hu⟩ := hunit
    exact .inl ⟨r,List.mem_append_right _ hr,hu,Nat.lt_of_le_of_lt hk (hnew r hr)⟩
  · have hsame : expected c base (accepted ++ added) unit = expected c base accepted unit := by
      simp only [expected,Volume.kept]
      rw [lastOf_append_of_not fun r hr hu => hunit ⟨r,hr,hu⟩]
    rw [hsame]
    exact h.version.imp_left (by
      rintro ⟨r,hr,h⟩
      exact ⟨r,List.mem_append_left _ hr,h⟩)

theorem ask_keeps {ε : Type} {J : Engine × Disk → Prop}
    (hJ : ∀ (s : Engine) d n, J (s,d) → J ({ s with calls := n },d)) :
    Keeps J (ask : Io Engine ε ℕ) := by
  unfold ask
  apply Keeps.get_bind
  rintro ⟨s,d⟩ hs
  refine .bind (Triple.modify ?_) fun _ => Keeps.pure _
  rintro _ rfl
  exact hJ s d _ hs

theorem onVolume_triple {α : Type} {p : Io Volume CoreError α} {ok : α → Engine × Disk → Prop}
    {err : EngineError → Engine × Disk → Prop}
    (h : Answers (· = (s.volume,d)) p (fun a r => ok a ({ s with volume := r.1 },r.2))
      (fun e r => err (.Core e) ({ s with volume := r.1 },r.2))) :
    Answers (· = (s,d)) (onVolume p) ok err := by
  apply Triple.mapErr
  apply Triple.zoom
  rintro _ rfl
  exact h

variable [Crc32]

section Kept

variable (h : Serving c base (s,d))

include h

theorem Serving.grow {plan : Volume.Plan}
    (hb : Volume.Backed c.params.geometry c.params.supportsDiscard base (s.accepted ++ added) plan (v,d'))
    (hk : s.volume.journal.appendedSequence ≤ v.journal.appendedSequence)
    (hnew : ∀ r ∈ added, s.volume.journal.appendedSequence < r.sequence) :
    Serving c base ({ s with volume := v, accepted := s.accepted ++ added, plan := plan },d') where
  backed := hb
  older unit sequence ciphertext hu := Nat.le_trans (h.older unit sequence ciphertext hu) hk
  cached cache hc unit sequence data hh := by
    obtain ⟨hle,hg⟩ := h.cached cache hc unit sequence data hh
    exact ⟨Nat.le_trans hle hk,hg.grow hle hnew⟩

theorem Serving.move {plan : Volume.Plan}
    (hb : Volume.Backed c.params.geometry c.params.supportsDiscard base s.accepted plan (v,d'))
    (hk : s.volume.journal.appendedSequence ≤ v.journal.appendedSequence) :
    Serving c base ({ s with volume := v, plan := plan },d') := by
  rw [← List.append_nil s.accepted] at hb
  simpa only [List.append_nil] using h.grow hb hk (by simp)

theorem Serving.recache {o : Option VersionedLruCache}
    (ho : ∀ cache' ∈ o, ∀ unit sequence data, cache'.Holds unit sequence data →
      ∃ cache ∈ s.cache, cache.Holds unit sequence data) : Serving c base ({ s with cache := o },d) where
  backed := h.backed
  older := h.older
  cached cache' hc unit sequence data hh := by
    obtain ⟨cache,hc',hold⟩ := ho cache' hc unit sequence data hh
    exact h.cached cache hc' unit sequence data hold

theorem Serving.asked (n : ℕ) : Serving c base ({ s with calls := n },d) :=
  ⟨h.backed,h.older,h.cached⟩

end Kept

theorem ask_stays {ε : Type} : Runs (Stays c base accepted) (ask : Io Engine ε ℕ) :=
  .ofKeeps (ask_keeps fun _ _ n h => ⟨h.1.asked n,h.2⟩)

theorem checkFreshness_stays : Runs (Stays c base accepted) checkFreshness :=
  .ofKeeps ((Io.Still.fp _).keeps.mapErr _)

end Moves

section Background

variable [Crc32] {c : EngineInner} {base : ℕ → Except CoreError SlotRead}
  {accepted : List JournalRecord} {s : Engine} {d : Disk}

theorem mapCache_stays {ε : Type} {P : Volume.Plan} {f : VersionedLruCache → VersionedLruCache}
    (hf : ∀ cache unit sequence data, (f cache).Holds unit sequence data → cache.Holds unit sequence data) :
    Runs (fun t => Stays c base accepted t ∧ t.1.plan = P) (mapCache f : Io Engine ε Unit) := by
  apply Runs.modify
  rintro ⟨s,d⟩ ⟨⟨hs,ha⟩,hp⟩
  refine ⟨⟨hs.recache ?_,ha⟩,hp⟩
  intro cache' hc unit sequence data hh
  obtain ⟨cache,hc',rfl⟩ := Option.map_eq_some_iff.mp hc
  exact ⟨cache,hc',hf cache unit sequence data hh⟩

def planned (P : Volume.Plan) (t : Engine × Disk) : Engine × Disk := ({ t.1 with plan := P },t.2)

theorem prepare_stays (h : Stays c base accepted (s,d)) (hp : s.plan = .none) :
    Answers (· = (s,d)) (onVolume Volume.prepareCheckpoint)
      (fun p t => Stays c base accepted (planned (.prepared p) t))
      (fun _ => Stays c base accepted) := by
  obtain ⟨hs,rfl⟩ := h
  have hb := hs.backed
  rw [hp] at hb
  refine onVolume_triple (hb.prepare_appended.weaken ?_ ?_ fun _ _ => trivial)
  · rintro p r ⟨hr,hk⟩
    exact ⟨hs.move hr (Nat.le_of_eq hk.symm),rfl⟩
  · rintro _ r ⟨hr,hk⟩
    refine ⟨?_,rfl⟩
    have hm := hs.move hr (Nat.le_of_eq hk.symm)
    rwa [← hp] at hm

theorem execute_stays {p : PreparedCheckpoint} (h : Stays c base accepted (s,d)) (hp : s.plan = .prepared p) :
    Answers (· = (s,d)) (onVolume (Volume.execute p))
      (fun completed t => completed = ⟨p⟩ ∧ Stays c base accepted (planned (.executed p) t))
      (fun _ t => Stays c base accepted (planned .none t)) := by
  obtain ⟨hs,rfl⟩ := h
  have hb := hs.backed
  rw [hp] at hb
  refine onVolume_triple (hb.execute_appended.weaken ?_ ?_ fun _ _ => trivial)
  · rintro completed r ⟨⟨hc,hr⟩,hk⟩
    exact ⟨hc,hs.move hr (Nat.le_of_eq hk.symm),rfl⟩
  · rintro _ r ⟨hr,hk⟩
    exact ⟨hs.move hr (Nat.le_of_eq hk.symm),rfl⟩

theorem setPlan_stays {ε : Type} {P : Volume.Plan} :
    Answers (fun t => Stays c base accepted (planned P t)) (setPlan P : Io Engine ε Unit)
      (fun _ t => Stays c base accepted t ∧ t.1.plan = P) (fun _ => Stays c base accepted) :=
  Triple.modify fun _ ht => ⟨ht,rfl⟩

variable [DefaultHasher] [HashOrder]

theorem serve_serving (h : Serving c base (s,d)) (q : Volume.Request) :
    Leaves (· = (s,d)) (serve q)
      (fun t => Serving c base t ∧ t.1.plan = s.plan ∧
        t.1.accepted = s.accepted ++ q.accepted s.volume t.1.volume) := by
  have hdone : ∀ r : Volume × Disk, (Volume.Backed c.params.geometry c.params.supportsDiscard base
        (s.accepted ++ q.accepted s.volume r.1) s.plan r ∧
        s.volume.journal.appendedSequence ≤ r.1.journal.appendedSequence) →
      Serving c base ({ s with
        volume := r.1, accepted := s.accepted ++ q.accepted s.volume r.1 },r.2) := fun r hr =>
    h.grow hr.1 hr.2 fun _ hr => (Volume.Request.mem_accepted hr).1
  apply Triple.mapErr
  apply Triple.zoom
  rintro _ rfl
  refine (h.backed.serve q).weaken ?_ ?_ fun _ _ => trivial
  · exact fun _ r hr => ⟨hdone r hr,rfl,rfl⟩
  · exact fun _ r hr => ⟨hdone r hr,rfl,rfl⟩

/-- A barrier: nothing is accepted, and everything accepted is durable if it succeeds. -/
theorem syncJournal_triple (P : Volume.Plan) :
    Answers (fun t => Stays c base accepted t ∧ t.1.plan = P) syncJournal
      (fun _ t => (Stays c base accepted t ∧ t.1.plan = P) ∧
        t.1.volume.journal.durableSequence = t.1.volume.journal.appendedSequence)
      (fun _ t => Stays c base accepted t ∧ t.1.plan = P) := by
  apply Triple.ofEach
  rintro ⟨s,d⟩ ⟨⟨hs,rfl⟩,rfl⟩
  have hdurable : Returns (· = (s,d)) syncJournal
      (fun _ t => t.1.volume.journal.durableSequence = t.1.volume.journal.appendedSequence) := by
    have hgoing : Runs (Volume.After s.volume s.accepted) Volume.flush :=
      Triple.bind Volume.barrier_triple fun _ => .pure fun _ ht => ht
    apply Triple.mapErr
    apply Triple.zoom
    rintro _ rfl
    refine ((DrainGate.flush_durable hs.backed.sound).and hgoing).conseq
      (fun r hr => ⟨hr,hr ▸ Volume.After.start hs.backed.sound⟩) ?_ (fun _ _ _ => trivial) fun _ _ => trivial
    rintro _ r ⟨hd,ha⟩
    exact hd.trans ha.2.2.symm
  refine ((serve_serving hs .flush).and hdurable).conseq (fun _ ht => ⟨ht,ht⟩) ?_ ?_ fun _ _ => trivial
  · rintro _ t ⟨⟨ht,hp,ha⟩,hd⟩
    exact ⟨⟨⟨ht,by rw [ha]; exact List.append_nil _⟩,hp⟩,hd⟩
  · rintro _ t ⟨⟨ht,hp,ha⟩,-⟩
    exact ⟨⟨ht,by rw [ha]; exact List.append_nil _⟩,hp⟩

/-- Moves that do not wait for the gate leave the checkpoint under way alone. -/
theorem act_ungated {m : Background} (hm : m.ungated = true) (P : Volume.Plan) :
    Runs (fun t => Stays c base accepted t ∧ t.1.plan = P) (act m) := by
  cases m with
  | sync =>
    have hsync : Runs (fun t => Stays c base accepted t ∧ t.1.plan = P) syncJournal :=
      (syncJournal_triple P).weakenOk (fun _ _ ht => ht.1)
    exact hsync.attempt.bind fun _ => .pure ()
  | configureCache maxBytes ttl => exact mapCache_stays fun _ _ _ _ hh => hh.reconfigure
  | prepare => cases hm
  | execute => cases hm
  | finish => cases hm

theorem pauseGated_stays (P : Volume.Plan) :
    Runs (fun t => Stays c base accepted t ∧ t.1.plan = P) (pauseGated c) := by
  have hask : Runs (fun t => Stays c base accepted t ∧ t.1.plan = P)
      (ask : Io Engine EngineError ℕ) :=
    .ofKeeps (ask_keeps fun _ _ n h => ⟨⟨h.1.1.asked n,h.1.2⟩,h.2⟩)
  unfold pauseGated
  refine hask.bind fun n => Runs.forEach fun m hm => ?_
  exact act_ungated (List.mem_filter.mp hm).2 P

omit [DefaultHasher] in
theorem finish_stays {p : PreparedCheckpoint} (h : Stays c base accepted (s,d)) (hp : s.plan = .executed p) :
    Leaves (· = (s,d)) (onVolume (Volume.finishCheckpoint ⟨p⟩))
      (fun t => Stays c base accepted (planned .none t)) := by
  obtain ⟨hs,rfl⟩ := h
  have hb := hs.backed
  rw [hp] at hb
  refine onVolume_triple (hb.finish_appended.weaken ?_ ?_ fun _ _ => trivial)
  · rintro _ r ⟨hr,hk⟩
    exact ⟨hs.move hr (Nat.le_of_eq hk.symm),rfl⟩
  · rintro _ r ⟨hr,hk⟩
    exact ⟨hs.move hr (Nat.le_of_eq hk.symm),rfl⟩

/-- What the worker or the control socket does changes no unit. -/
theorem act_stays (m : Background) : Runs (Stays c base accepted) (act m) := by
  have hset : ∀ P : Volume.Plan, Leaves (fun t => Stays c base accepted (planned P t))
      (setPlan P : Io Engine EngineError Unit) (Stays c base accepted) := fun P =>
    setPlan_stays.weakenOk (fun _ _ ht => ht.1)
  have hungated : m.ungated = true → Runs (Stays c base accepted) (act m) := by
    intro hm
    apply Triple.ofEach
    rintro ⟨s,d⟩ hs
    exact ((act_ungated hm s.plan).from_state ⟨hs,rfl⟩).weaken (fun _ _ ht => ht.1)
      (fun _ _ ht => ht.1) fun _ ht => ht
  cases m with
  | sync => exact hungated rfl
  | configureCache maxBytes ttl => exact hungated rfl
  | prepare =>
    unfold act
    apply Runs.get_bind
    rintro ⟨s,d⟩ hs
    simp only
    split
    · rename_i hp
      have hcall : Answers (· = (s,d)) (Prog.attempt (onVolume Volume.prepareCheckpoint))
          (fun r t => r.casesOn (motive := fun _ => Prop) (fun _ => Stays c base accepted t)
            fun p => Stays c base accepted (planned (.prepared p) t))
          (fun (_ : EngineError) => Stays c base accepted) :=
        Triple.attempt (prepare_stays hs hp)
      refine .bind hcall fun r => ?_
      cases r with
      | ok p => exact hset _
      | error e => exact .pure fun _ ht => ht
    · exact (Runs.pure ()).from_state hs
  | execute =>
    unfold act
    apply Runs.get_bind
    rintro ⟨s,d⟩ hs
    simp only
    split
    · rename_i p hp
      have hcall : Answers (· = (s,d)) (Prog.attempt (onVolume (Volume.execute p)))
          (fun r t => r.casesOn (motive := fun _ => Prop) (fun _ => Stays c base accepted (planned .none t))
            fun _ => Stays c base accepted (planned (.executed p) t))
          (fun (_ : EngineError) => Stays c base accepted) :=
        Triple.attempt ((execute_stays hs hp).weakenOk (fun _ _ ht => ht.2))
      refine .bind hcall fun r => ?_
      cases r with
      | ok p => exact hset _
      | error e => exact hset _
    · exact (Runs.pure ()).from_state hs
  | finish =>
    unfold act
    apply Runs.get_bind
    rintro ⟨s,d⟩ hs
    simp only
    split
    · rename_i p hp
      have hcall : Answers (· = (s,d))
          (Prog.attempt (onVolume (Volume.finishCheckpoint ⟨p⟩)))
          (fun _ t => Stays c base accepted (planned .none t))
          (fun (_ : EngineError) => Stays c base accepted) :=
        Triple.attempt (finish_stays hs hp)
      exact .bind hcall fun _ => hset _
    · exact (Runs.pure ()).from_state hs

theorem pause_stays : Runs (Stays c base accepted) (pause c) :=
  ask_stays.bind fun _ => .forEach fun m _ => act_stays m

theorem checkpoint_stays : Runs (Stays c base accepted) (checkpoint c) := by
  unfold checkpoint
  refine pause_stays.bind fun _ => (act_stays .execute).bind fun _ => (act_stays .finish).bind fun _ => ?_
  apply Runs.get_bind
  rintro ⟨s,d⟩ hs
  simp only
  split
  · rename_i hp
    have hgated : ∀ P, Answers (fun t => Stays c base accepted t ∧ t.1.plan = P) (pauseGated c)
        (fun _ t => Stays c base accepted t ∧ t.1.plan = P) (fun _ => Stays c base accepted) := fun P =>
      (pauseGated_stays P).weakenErr (fun _ _ ht => ht.1)
    refine .bind ((hgated .none).strengthen (fun _ ht => ht ▸ ⟨hs,hp⟩)) fun _ => ?_
    refine .bind (Triple.ofEach fun s hs => prepare_stays hs.1 hs.2) fun p => ?_
    refine .bind setPlan_stays fun _ => .bind (hgated _) fun _ => ?_
    refine .bind (Triple.onError (Triple.ofEach fun s hs => execute_stays hs.1 hs.2))
      fun completed => ?_
    apply Triple.ofEach
    rintro ⟨s',d'⟩ ⟨rfl,hs'⟩
    refine .bind (setPlan_stays.strengthen (fun _ ht => ht ▸ hs'))
        fun _ => .bind (hgated _) fun _ => ?_
    refine .bind (Triple.onError (Triple.ofEach fun s hs => finish_stays hs.1 hs.2))
      fun sequence => ?_
    exact .bind setPlan_stays fun _ => .pure fun _ ht => ht.1
  · exact .throw fun _ ht => ht ▸ hs

end Background

section Reading

variable (c : EngineInner) (base : ℕ → Except CoreError SlotRead) (accepted : List JournalRecord)

def Known (unit : ℕ) (data : Bytes) : Prop :=
  data.length = c.params.unitSize ∧ ∃ sequence ciphertext,
    expected c base accepted unit = .ok (.Ciphertext sequence ciphertext) ∧
      data = c.provider.plaintextOf unit ciphertext

def Tells (unit : ℕ) : Found → Prop
  | .zero => expected c base accepted unit = .ok .Zero
  | .cached data => Known c base accepted unit data
  | .sealed sequence ciphertext => expected c base accepted unit = .ok (.Ciphertext sequence ciphertext)

variable {c base accepted}

theorem Genuine.known {unit sequence : ℕ} {data : Bytes}
    (h : Genuine c base accepted unit sequence data)
    (hsorted : accepted.Pairwise (·.sequence < ·.sequence))
    (hlast : ∀ r, lastOf accepted unit = some r → r.sequence = sequence) :
    Known c base accepted unit data := by
  refine ⟨h.size,?_⟩
  rcases h.version with ⟨r,hr,hu,hlt⟩ | ⟨ciphertext,he,hd⟩
  · obtain ⟨last,hl,hle⟩ := le_lastOf hsorted hr hu
    have hsame := hlast last hl
    omega
  · exact ⟨sequence,ciphertext,he,hd⟩

theorem Tells.last {unit sequence : ℕ} {ciphertext : Bytes}
    (h : Tells c base accepted unit (.sealed sequence ciphertext)) (r : JournalRecord)
    (hr : lastOf accepted unit = some r) : r.sequence = sequence := by
  simp only [Tells,expected,Volume.kept,hr,OverlayVersion.stored,JournalRecord.version] at h
  by_cases hempty : (c.params.supportsDiscard && r.payload.isEmpty) = true
  · simp [hempty] at h
  · simp only [hempty,Bool.false_eq_true,if_false,Except.ok.injEq,SlotRead.Ciphertext.injEq] at h
    exact h.1

theorem flatten_answers {α β : Type} {f : α → β} {batches : List (List α)} {results : List (List β)}
    (h : List.Forall₂ (fun xs ys => xs.map f = ys) batches results) :
    batches.flatten.map f = results.flatten := by
  induction h with
  | nil => rfl
  | cons hx _ ih => rw [List.flatten_cons,List.flatten_cons,List.map_append,hx,ih]

theorem collect_ok {unitSize : ℕ} {pts : List PlaintextUnit} {m m' : Std.TreeMap ℕ Bytes}
    (h : collect unitSize m pts = .ok m') :
    (∀ unit data, m'[unit]? = some data → m[unit]? = some data ∨
      data.length = unitSize ∧ ⟨unit,data⟩ ∈ pts) ∧
    (∀ unit, (m[unit]?.isSome ∨ unit ∈ pts.map PlaintextUnit.unitIndex) → m'[unit]?.isSome = true) := by
  induction pts generalizing m with
  | nil =>
    obtain rfl : m = m' := Except.ok.inj h
    exact ⟨fun _ _ hm => .inl hm,fun _ hm => hm.resolve_right (by simp)⟩
  | cons pt rest ih =>
    simp only [collect] at h
    split at h
    · cases h
    rename_i hsize
    obtain ⟨hfrom,hto⟩ := ih h
    have hget : ∀ unit, (m.insert pt.unitIndex pt.data)[unit]? =
        if pt.unitIndex = unit then some pt.data else m[unit]? := by
      intro unit
      rw [Std.TreeMap.getElem?_insert]
      simp only [Nat.compare_eq_eq]
    refine ⟨fun unit data hm => ?_,fun unit hm => hto unit ?_⟩
    · rcases hfrom unit data hm with hin | ⟨hl,hin⟩
      · rw [hget] at hin
        split at hin
        · rename_i hu
          obtain rfl : pt.data = data := Option.some.inj hin
          subst hu
          exact .inr ⟨not_not.mp hsize,List.mem_cons_self⟩
        · exact .inl hin
      · exact .inr ⟨hl,List.mem_cons_of_mem _ hin⟩
    · rw [hget]
      split
      · exact .inl rfl
      · rename_i hu
        refine hm.imp_right fun hin => ?_
        rw [List.map_cons,List.mem_cons] at hin
        exact hin.resolve_left fun he => hu he.symm

variable [Crc32]

theorem cacheGet_stays {unit sequence : ℕ}
    (hlast : ∀ r, lastOf accepted unit = some r → r.sequence = sequence) :
    Answers (Stays c base accepted) (cacheGet c unit sequence)
      (fun hit t => Stays c base accepted t ∧ ∀ data, hit = some data → Known c base accepted unit data)
      (fun _ => Stays c base accepted) := by
  unfold cacheGet
  refine .bind ask_stays fun n => ?_
  apply Triple.ofEach
  rintro ⟨s,d⟩ ⟨hs,rfl⟩
  apply Triple.get_bind
  cases hc : s.cache with
  | none =>
    simp only [hc]
    exact .pure fun _ ht => ht ▸ ⟨⟨hs,rfl⟩,by simp⟩
  | some cache =>
    simp only [hc]
    have hold : cache ∈ s.cache := hc
    refine .bind (Triple.modify ?_) fun _ => .pure fun _ ht => ht
    rintro _ rfl
    refine ⟨⟨hs.recache ?_,rfl⟩,?_⟩
    · rintro _ ⟨⟩ unit' sequence' data hh
      exact ⟨cache,hold,hh.get⟩
    · intro data hhit
      have hholds := VersionedLruCache.holds_of_get hhit
      exact (hs.cached cache hold unit sequence data hholds).2.known hs.backed.sound.tracks.ascending hlast

theorem fetch_stays (unit : ℕ) :
    Answers (Stays c base accepted) (fetch unit)
      (fun found t => Stays c base accepted t ∧ Tells c base accepted unit found)
      (fun _ => Stays c base accepted) := by
  unfold fetch
  apply Triple.ofEach
  rintro ⟨s,d⟩ ⟨hs,rfl⟩
  have hcall : Answers (· = (s,d)) (onVolume (Volume.readCt unit))
      (fun r t => t = (s,d) ∧ expected c base s.accepted unit = .ok (.ofAnswer r))
      (fun _ => Stays c base s.accepted) := by
    refine onVolume_triple ((hs.backed.readCt_kept unit).weaken ?_ ?_ fun _ _ => trivial)
    · rintro r _ ⟨rfl,hk⟩
      exact ⟨rfl,hk⟩
    · rintro _ _ rfl
      exact ⟨hs,rfl⟩
  refine .bind hcall fun r => ?_
  cases r
  all_goals
    apply Triple.pure
    rintro _ ⟨rfl,hk⟩
    exact ⟨⟨hs,rfl⟩,hk⟩

theorem lookup_stays (unit : ℕ) :
    Answers (Stays c base accepted) (lookup c unit)
      (fun found t => Stays c base accepted t ∧ Tells c base accepted unit found)
      (fun _ => Stays c base accepted) := by
  unfold lookup
  apply Triple.ofEach
  rintro ⟨s,d⟩ ⟨hs,rfl⟩
  apply Triple.get_bind
  simp only
  split
  · have hcall : Answers (· = (s,d)) (onVolume (Volume.currentSequence unit))
        (fun r t => Stays c base s.accepted t ∧
          (r = none → expected c base s.accepted unit = .ok .Zero) ∧
          ∀ sequence, r = some sequence → ∀ x, lastOf s.accepted unit = some x → x.sequence = sequence)
        (fun _ => Stays c base s.accepted) := by
      refine onVolume_triple ((hs.backed.currentSequence_kept unit).weaken ?_ ?_
        fun _ _ => trivial)
      · rintro r _ ⟨rfl,hk⟩
        exact ⟨⟨hs,rfl⟩,hk⟩
      · rintro _ _ rfl
        exact ⟨hs,rfl⟩
    refine .bind hcall fun r => ?_
    cases r with
    | none => exact .pure fun _ ht => ⟨ht.1,ht.2.1 rfl⟩
    | some sequence =>
      rintro fs t ⟨ht,-,hlast⟩
      refine (Triple.bind (cacheGet_stays (hlast sequence rfl)) fun hit => ?_) fs t ht
      cases hit with
      | some data => exact .pure fun _ ht => ⟨ht.1,ht.2 data rfl⟩
      | none =>
        exact (fetch_stays unit).strengthen (fun _ ht => ht.1)
  · refine .bind ((fetch_stays unit).strengthen (fun _ ht => ht ▸ ⟨hs,rfl⟩)) fun found => ?_
    cases found with
    | zero => exact .pure fun _ ht => ht
    | cached data => exact .pure fun _ ht => ht
    | «sealed» sequence ciphertext =>
      rintro fs t ⟨ht,htells⟩
      refine (Triple.bind (cacheGet_stays htells.last) fun hit => ?_) fs t ht
      cases hit with
      | some data => exact .pure fun _ ht => ⟨ht.1,ht.2 data rfl⟩
      | none => exact .pure fun _ ht => ⟨ht.1,htells⟩

variable [DefaultHasher] [HashOrder]

theorem runBatches_stays {α β : Type} {call : ℕ → List α → Except CryptoError (List β)}
    {R : List α → List β → Prop} (h : ∀ n xs ys, call n xs = .ok ys → R xs ys) (batches : List (List α)) :
    Answers (Stays c base accepted) (runBatches c call batches)
      (fun results t => Stays c base accepted t ∧ List.Forall₂ R batches results)
      (fun _ => Stays c base accepted) := by
  refine .traverse fun batch _ => ?_
  refine .bind pause_stays fun _ => .bind ask_stays fun n => ?_
  refine .ofExcept (fun ys t hys ht => ⟨ht,?_⟩) fun _ _ _ ht => ht
  cases hc : call n batch with
  | error e => simp [hc,Except.mapError] at hys
  | ok zs =>
    simp only [hc,Except.mapError,Except.ok.injEq] at hys
    exact hys ▸ h n batch zs hc

theorem decryptUnits_stays (cts : List CiphertextUnit) :
    Answers (Stays c base accepted) (decryptUnits c cts)
      (fun m t => Stays c base accepted t ∧
        (∀ unit data, m[unit]? = some data → data.length = c.params.unitSize ∧
          ∃ ciphertext, ⟨unit,ciphertext⟩ ∈ cts ∧ data = c.provider.plaintextOf unit ciphertext) ∧
        ∀ ct ∈ cts, m[ct.unitIndex]?.isSome = true)
      (fun _ => Stays c base accepted) := by
  unfold decryptUnits
  split
  · rename_i hempty
    obtain rfl : cts = [] := List.isEmpty_iff.mp hempty
    exact .pure fun _ ht => ⟨ht,by simp,by simp⟩
  · refine .bind (runBatches_stays c.provider.decrypt_ok _) fun results => ?_
    refine .ofExcept (fun m t hm ht => ⟨ht.1,?_⟩) fun _ _ _ ht => ht.1
    have hall := flatten_answers ht.2
    rw [decryptBatches,flatten_batchChunks] at hall
    obtain ⟨hfrom,hto⟩ := collect_ok hm
    rw [← hall] at hfrom hto
    refine ⟨fun unit data hd => ?_,fun ct hct => hto ct.unitIndex (.inr ?_)⟩
    · rcases hfrom unit data hd with hn | ⟨hl,hin⟩
      · simp at hn
      · obtain ⟨ct,hct,heq⟩ := List.mem_map.mp hin
        obtain ⟨rfl,rfl⟩ := PlaintextUnit.mk.inj heq
        exact ⟨hl,ct.data,hct,rfl⟩
    · simp only [List.map_map,List.mem_map]
      exact ⟨ct,hct,rfl⟩

end Reading
end Engine
end Maki
