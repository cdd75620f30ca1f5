import Mathlib
import Maki.JournalFormat
import Std.Data.TreeMap

/-! The ciphertext overlay (`maki_core::overlay`): per unit the latest version, which serves
reads, and the latest durable one, which a checkpoint may apply. -/
namespace Maki

structure OverlayVersion where
  sequence : ℕ := 0
  ciphertext : Bytes := []
  deriving DecidableEq

structure UnitOverlay where
  latest : OverlayVersion := {}
  durable : Option OverlayVersion := none
  deriving DecidableEq

structure Overlay where
  units : Std.TreeMap ℕ UnitOverlay := ∅
  /-- Sequence to unit, promoted once the journal reports the sequence durable. -/
  pendingPromotion : Std.TreeMap ℕ ℕ := ∅
  bytes : ℕ := 0
  latestBytes : ℕ := 0
  durableBoundary : ℕ := 0

namespace Overlay

def publish (o : Overlay) (unit sequence : ℕ) (ciphertext : Bytes) : Overlay :=
  let entry := o.units[unit]?.getD {}
  let replaced := if entry.latest.sequence ≠ 0 then entry.latest.ciphertext.length else 0
  { o with
    bytes := o.bytes+ciphertext.length-replaced
    latestBytes := o.latestBytes+ciphertext.length-replaced
    units := o.units.insert unit { entry with latest := ⟨sequence,ciphertext⟩ }
    pendingPromotion := o.pendingPromotion.insert sequence unit }

def get (o : Overlay) (unit : ℕ) : Option OverlayVersion := o.units[unit]?.map (·.latest)

/-- Whether a sequence taken from the queue promotes the entry of its unit: a superseded
version's data is gone. -/
def Promotes (sequence : ℕ) (entry : UnitOverlay) : Prop :=
  entry.latest.sequence = sequence ∧ ∀ d ∈ entry.durable, d.sequence < sequence

instance (sequence : ℕ) (entry : UnitOverlay) : Decidable (Promotes sequence entry) :=
  inferInstanceAs (Decidable (_ ∧ _))

def promoteOne (o : Overlay) (sequence unit : ℕ) : Overlay :=
  let o := { o with pendingPromotion := o.pendingPromotion.erase sequence }
  match o.units[unit]? with
  | none => o
  | some entry =>
    if Promotes sequence entry then
      { o with
        bytes := o.bytes-(entry.durable.map (·.ciphertext.length)).getD 0+entry.latest.ciphertext.length
        units := o.units.insert unit { entry with durable := some entry.latest } }
    else o

def promoteQueue (durableSequence : ℕ) (o : Overlay) : List (ℕ × ℕ) → Overlay
  | [] => o
  | (sequence,unit)::rest =>
    if sequence > durableSequence then o
    else promoteQueue durableSequence (o.promoteOne sequence unit) rest

def promote (o : Overlay) (durableSequence : ℕ) : Overlay :=
  promoteQueue durableSequence
    { o with durableBoundary := max o.durableBoundary durableSequence } o.pendingPromotion.toList

def collectDurable (o : Overlay) (durableSequence : ℕ) : List (ℕ × OverlayVersion) :=
  o.units.toList.filterMap fun (unit,entry) =>
    (entry.durable.filter (·.sequence ≤ durableSequence)).map (unit,·)

def retireEntry (checkpointSequence : ℕ) (entry : UnitOverlay) : Option UnitOverlay :=
  if entry.latest.sequence ≤ checkpointSequence then none
  else some { entry with durable := entry.durable.filter (·.sequence > checkpointSequence) }

/-- The bytes a checkpoint frees of an entry: its durable version and its latest one. -/
def freedBytes (checkpointSequence : ℕ) (entry : UnitOverlay) : ℕ × ℕ :=
  (((entry.durable.filter (·.sequence ≤ checkpointSequence)).map (·.ciphertext.length)).getD 0,
    if entry.latest.sequence ≤ checkpointSequence then entry.latest.ciphertext.length else 0)

def retire (o : Overlay) (checkpointSequence : ℕ) : Overlay :=
  let freed := o.units.toList.map fun (_,entry) => freedBytes checkpointSequence entry
  { o with
    bytes := freed.foldl (fun n f => n-f.1-f.2) o.bytes
    latestBytes := freed.foldl (fun n f => n-f.2) o.latestBytes
    units := o.units.filterMap fun _ => retireEntry checkpointSequence
    pendingPromotion := o.pendingPromotion.filter fun sequence _ => sequence > checkpointSequence }

section Lookup

variable {o : Overlay}

theorem units_publish (unit sequence : ℕ) (ciphertext : Bytes) (u : ℕ) :
    (o.publish unit sequence ciphertext).units[u]? = if unit = u then
      some { o.units[unit]?.getD {} with latest := ⟨sequence,ciphertext⟩ } else o.units[u]? := by
  simp only [publish,Std.TreeMap.getElem?_insert,Nat.compare_eq_eq]

theorem pending_publish (unit sequence : ℕ) (ciphertext : Bytes) (q : ℕ) :
    (o.publish unit sequence ciphertext).pendingPromotion[q]? =
      if sequence = q then some unit else o.pendingPromotion[q]? := by
  simp only [publish,Std.TreeMap.getElem?_insert,Nat.compare_eq_eq]

theorem pending_promoteOne (sequence unit q : ℕ) :
    (o.promoteOne sequence unit).pendingPromotion[q]? =
      if sequence = q then none else o.pendingPromotion[q]? := by
  have herase : (o.pendingPromotion.erase sequence)[q]? =
      if sequence = q then none else o.pendingPromotion[q]? := by
    simp only [Std.TreeMap.getElem?_erase,Nat.compare_eq_eq]
  unfold promoteOne
  cases ho : o.units[unit]? with
  | none => simpa only [ho] using herase
  | some entry =>
    simp only [ho]
    split
    · exact herase
    · exact herase

def promotedEntry (sequence : ℕ) (entry : UnitOverlay) : UnitOverlay :=
  if Promotes sequence entry then { entry with durable := some entry.latest } else entry

theorem units_promoteOne (sequence unit u : ℕ) :
    (o.promoteOne sequence unit).units[u]? =
      if unit = u then o.units[u]?.map (promotedEntry sequence) else o.units[u]? := by
  unfold promoteOne
  cases ho : o.units[unit]? with
  | none =>
    simp only [ho]
    by_cases hu : unit = u
    · subst hu
      simp [ho]
    · simp [hu]
  | some entry =>
    simp only [ho]
    by_cases hp : Promotes sequence entry
    · simp only [if_pos hp,Std.TreeMap.getElem?_insert,Nat.compare_eq_eq]
      by_cases hu : unit = u
      · subst hu
        simp [ho,promotedEntry,hp]
      · simp [hu]
    · simp only [if_neg hp]
      by_cases hu : unit = u
      · subst hu
        simp [ho,promotedEntry,hp]
      · simp [hu]

theorem pending_promoteQueue (d : ℕ) (queue : List (ℕ × ℕ)) (hq : queue.Pairwise (·.1 < ·.1))
    (o : Overlay) (q : ℕ) : (promoteQueue d o queue).pendingPromotion[q]? =
      if q ≤ d ∧ q ∈ queue.map Prod.fst then none else o.pendingPromotion[q]? := by
  induction queue generalizing o with
  | nil => simp [promoteQueue]
  | cons e rest ih =>
    obtain ⟨sequence,unit⟩ := e
    rw [List.pairwise_cons] at hq
    unfold promoteQueue
    by_cases hd : sequence > d
    · rw [if_pos hd,if_neg]
      rintro ⟨hle,hm⟩
      simp only [List.map_cons,List.mem_cons,List.mem_map] at hm
      rcases hm with rfl | ⟨t,ht,rfl⟩
      · omega
      · have hlt := hq.1 t ht
        simp only at hlt
        omega
    · rw [if_neg hd,ih hq.2,pending_promoteOne]
      by_cases hs : sequence = q
      · subst hs
        have hle : sequence ≤ d := by omega
        simp [hle]
      · have hs' : ¬ q = sequence := fun h => hs h.symm
        simp only [hs,if_false,List.map_cons,List.mem_cons,hs',false_or]

/-- A queued sequence up to the boundary promotes its unit's entry if that is still its
latest version. -/
theorem units_promoteQueue (d : ℕ) (queue : List (ℕ × ℕ)) (hq : queue.Pairwise (·.1 < ·.1))
    (o : Overlay) (u : ℕ) : (promoteQueue d o queue).units[u]? =
      o.units[u]?.map fun e => if e.latest.sequence ≤ d ∧ (e.latest.sequence,u) ∈ queue then
        promotedEntry e.latest.sequence e else e := by
  induction queue generalizing o with
  | nil => simp [promoteQueue]
  | cons e rest ih =>
    obtain ⟨sequence,unit⟩ := e
    rw [List.pairwise_cons] at hq
    unfold promoteQueue
    by_cases hd : sequence > d
    · rw [if_pos hd]
      have hnone : ∀ x : UnitOverlay, ¬ (x.latest.sequence ≤ d ∧
          (x.latest.sequence,u) ∈ (sequence,unit)::rest) := by
        rintro x ⟨hle,hm⟩
        rcases List.mem_cons.mp hm with h | h
        · cases h
          omega
        · have hlt := hq.1 _ h
          simp only at hlt
          omega
      simp only [hnone,if_false,Option.map_id']
    · rw [if_neg hd,ih hq.2,units_promoteOne]
      have hfresh : ∀ v, (sequence,v) ∉ rest := fun v hm => by simpa using hq.1 _ hm
      by_cases hu : unit = u
      · subst hu
        rw [if_pos rfl,Option.map_map]
        congr 1
        funext x
        by_cases hx : x.latest.sequence = sequence
        · have hle : sequence ≤ d := by omega
          have hlatest : (promotedEntry sequence x).latest = x.latest := by
            unfold promotedEntry
            split <;> rfl
          simp [hx,hle,hlatest,hfresh]
        · have hkeep : promotedEntry sequence x = x := if_neg fun h => hx h.1
          simp [hx,hkeep]
      · rw [if_neg hu]
        have hu' : ¬ u = unit := fun h => hu h.symm
        simp [hu']

theorem queue_increasing (o : Overlay) : o.pendingPromotion.toList.Pairwise (·.1 < ·.1) :=
  Std.TreeMap.ordered_keys_toList.imp fun h => Nat.compare_eq_lt.mp h

theorem mem_queue (sequence unit : ℕ) : (sequence,unit) ∈ o.pendingPromotion.toList ↔
    o.pendingPromotion[sequence]? = some unit := Std.TreeMap.mem_toList_iff_getElem?_eq_some

theorem pending_promote (d q : ℕ) : (o.promote d).pendingPromotion[q]? =
    if q ≤ d then none else o.pendingPromotion[q]? := by
  unfold promote
  rw [pending_promoteQueue d _ o.queue_increasing]
  by_cases hq : q ≤ d
  · rw [if_pos hq]
    split
    · rfl
    · rename_i hm
      cases ho : o.pendingPromotion[q]? with
      | none => rfl
      | some unit =>
        exact absurd ⟨hq,List.mem_map.mpr ⟨(q,unit),(mem_queue q unit).mpr ho,rfl⟩⟩ hm
  · rw [if_neg hq,if_neg fun h => hq h.1]

theorem units_promote (d u : ℕ) : (o.promote d).units[u]? =
    o.units[u]?.map fun e =>
      if e.latest.sequence ≤ d ∧ o.pendingPromotion[e.latest.sequence]? = some u then
        promotedEntry e.latest.sequence e else e := by
  unfold promote
  rw [units_promoteQueue d _ o.queue_increasing]
  simp only [mem_queue]

theorem units_retire (checkpointSequence u : ℕ) : (o.retire checkpointSequence).units[u]? =
    o.units[u]?.bind (retireEntry checkpointSequence) := by
  simp [retire,Std.TreeMap.getElem?_filterMap]

theorem pending_retire (checkpointSequence q : ℕ) :
    (o.retire checkpointSequence).pendingPromotion[q]? =
      if q > checkpointSequence then o.pendingPromotion[q]? else none := by
  apply Option.ext
  intro unit
  by_cases hq : q > checkpointSequence <;> simp [retire,Std.TreeMap.getElem?_filter,hq]

section Retired

variable {c unit : ℕ} {entry : UnitOverlay}

theorem exists_of_retire (h : (o.retire c).units[unit]? = some entry) :
    ∃ old, o.units[unit]? = some old ∧ c < old.latest.sequence ∧
      entry = { old with durable := old.durable.filter (·.sequence > c) } := by
  rw [units_retire] at h
  obtain ⟨x,hx,hk⟩ := Option.bind_eq_some_iff.mp h
  unfold retireEntry at hk
  split_ifs at hk with hle
  exact ⟨x,hx,Nat.not_le.mp hle,(Option.some.inj hk).symm⟩

theorem units_retired (h : (o.retire c).units[unit]? = some entry) :
    c < entry.latest.sequence ∧ ∃ old, o.units[unit]? = some old ∧ old.latest = entry.latest := by
  obtain ⟨x,hx,hlt,rfl⟩ := exists_of_retire h
  exact ⟨hlt,x,hx,rfl⟩

theorem retire_of_lt (h : o.units[unit]? = some entry) (hlt : c < entry.latest.sequence) :
    (o.retire c).units[unit]? = some { entry with durable := entry.durable.filter (·.sequence > c) } := by
  rw [units_retire,h,Option.bind_some,retireEntry,if_neg (Nat.not_le.mpr hlt)]

theorem retire_keeps (h : o.units[unit]? = some entry) (hlt : c < entry.latest.sequence) :
    ∃ entry', (o.retire c).units[unit]? = some entry' ∧ entry'.latest = entry.latest :=
  ⟨_,retire_of_lt h hlt,rfl⟩

end Retired

theorem mem_collectDurable {k unit : ℕ} {version : OverlayVersion} :
    (unit,version) ∈ o.collectDurable k ↔ ∃ entry, o.units[unit]? = some entry ∧
      entry.durable = some version ∧ version.sequence ≤ k := by
  simp only [collectDurable,List.mem_filterMap,Prod.exists,Option.map_eq_some_iff,
    Option.filter_eq_some_iff,decide_eq_true_eq,Std.TreeMap.mem_toList_iff_getElem?_eq_some]
  constructor
  · rintro ⟨u,entry,he,w,⟨hd,hle⟩,heq⟩
    obtain ⟨rfl,rfl⟩ := Prod.mk.inj heq
    exact ⟨entry,he,hd,hle⟩
  · rintro ⟨entry,he,hd,hle⟩
    exact ⟨unit,entry,he,version,⟨hd,hle⟩,rfl⟩

theorem nodup_collectDurable (o : Overlay) (k : ℕ) : ((o.collectDurable k).map (·.1)).Nodup := by
  have hkeys : o.units.toList.Pairwise (·.1 ≠ ·.1) := by
    refine (Std.TreeMap.distinct_keys_toList (t := o.units)).imp fun h heq => h ?_
    rw [heq]
    exact Nat.compare_eq_eq.mpr rfl
  rw [List.Nodup,List.pairwise_map,collectDurable]
  refine List.Pairwise.filterMap _ (fun a a' hne b hb b' hb' => ?_) hkeys
  obtain ⟨_,-,rfl⟩ := Option.map_eq_some_iff.mp hb
  obtain ⟨_,-,rfl⟩ := Option.map_eq_some_iff.mp hb'
  exact hne

end Lookup

end Overlay

def JournalRecord.version (r : JournalRecord) : OverlayVersion := ⟨r.sequence,r.payload⟩

structure Newest (accepted : List JournalRecord) (P : JournalRecord → Prop) (r : JournalRecord) :
    Prop where
  mem : r ∈ accepted
  holds : P r
  newest : ∀ t ∈ accepted, P t → t.sequence ≤ r.sequence

variable {accepted : List JournalRecord} {P : JournalRecord → Prop} {r t : JournalRecord}

theorem Newest.append_of_not
    (ht : ¬ P t) :
    Newest (accepted ++ [t]) P r ↔ Newest accepted P r := by
  constructor
  · intro h
    have hr : r ≠ t := fun he => ht (he ▸ h.holds)
    exact ⟨(List.mem_append.mp h.mem).resolve_right (by simpa using hr),h.holds,
      fun x hx => h.newest x (List.mem_append_left _ hx)⟩
  · intro h
    exact ⟨List.mem_append_left _ h.mem,h.holds,forall_mem_concat h.newest fun hp => absurd hp ht⟩

theorem Newest.last
    (hr : P r) (h : ∀ t ∈ accepted, t.sequence ≤ r.sequence) : Newest (accepted ++ [r]) P r where
  mem := by simp
  holds := hr
  newest := forall_mem_concat (fun t ht _ => h t ht) fun _ => Nat.le_refl _

theorem Newest.exists_of_mem
    (h : ∃ t ∈ accepted, P t) : ∃ r, Newest accepted P r := by
  have hfinite : {t | t ∈ accepted ∧ P t}.Finite := accepted.finite_toSet.subset fun _ ht => ht.1
  obtain ⟨r,hr,hmax⟩ := Set.exists_max_image _ JournalRecord.sequence hfinite h
  exact ⟨r,hr.1,hr.2,fun t ht hp => hmax t ⟨ht,hp⟩⟩

theorem eq_of_sequence
    (h : accepted.Pairwise (·.sequence < ·.sequence)) (hr : r ∈ accepted) (ht : t ∈ accepted)
    (he : r.sequence = t.sequence) : r = t := by
  have hinj : ∀ a ∈ accepted, ∀ b ∈ accepted, a.sequence = b.sequence → a = b :=
    List.inj_on_of_nodup_map (List.Pairwise.map _ (fun _ _ hlt => Nat.ne_of_lt hlt) h)
  exact hinj r hr t ht he

theorem Newest.unique
    (h : accepted.Pairwise (·.sequence < ·.sequence))
    (hr : Newest accepted P r) (ht : Newest accepted P t) : r = t :=
  eq_of_sequence h hr.mem ht.mem
    (Nat.le_antisymm (ht.newest r hr.mem hr.holds) (hr.newest t ht.mem ht.holds))

namespace Overlay

/-- What the overlay holds of the accepted records: reads see every unit's newest record
unless the checkpoint has it, and the newest record up to the promoted boundary is kept
as its durable version. -/
structure Tracks (o : Overlay) (accepted : List JournalRecord) (checkpoint durable : ℕ) : Prop where
  ascending : accepted.Pairwise (·.sequence < ·.sequence)
  latest : ∀ u (e : UnitOverlay), o.units[u]? = some e →
    ∃ r, Newest accepted (·.unitIndex = u) r ∧ e.latest = r.version
  present : ∀ r ∈ accepted, checkpoint < r.sequence → ∃ e, o.units[r.unitIndex]? = some e
  bounded : ∀ (u : ℕ) (e : UnitOverlay), o.units[u]? = some e → ∀ v ∈ e.durable, v.sequence ≤ durable
  promoted : ∀ u r, Newest accepted (fun t => t.unitIndex = u ∧ t.sequence ≤ durable) r →
    checkpoint < r.sequence → ∃ e, o.units[u]? = some e ∧ e.durable = some r.version
  pending : ∀ q u, o.pendingPromotion[q]? = some u ↔
    durable < q ∧ ∃ r ∈ accepted, r.sequence = q ∧ r.unitIndex = u

section Tracks

variable {o : Overlay} {accepted : List JournalRecord} {checkpoint durable : ℕ}

section Kept

variable (h : o.Tracks accepted checkpoint durable)

include h

/-- A checkpoint that moves on asks for less. -/
theorem Tracks.raise {c : ℕ} (hc : checkpoint ≤ c) :
    o.Tracks accepted c durable :=
  { h with
    present := fun r hr hs => h.present r hr (Nat.lt_of_le_of_lt hc hs)
    promoted := fun u r hr hs => h.promoted u r hr (Nat.lt_of_le_of_lt hc hs) }

theorem Tracks.promote_all {d : ℕ} (hd : durable ≤ d)
    (hall : ∀ r ∈ accepted, r.sequence ≤ d) : (o.promote d).Tracks accepted checkpoint d where
  ascending := h.ascending
  latest u e he := by
    rw [units_promote] at he
    obtain ⟨x,hx,rfl⟩ := Option.map_eq_some_iff.mp he
    obtain ⟨r,hr,hl⟩ := h.latest u x hx
    refine ⟨r,hr,?_⟩
    unfold promotedEntry
    split_ifs <;> exact hl
  present r hr hs := by
    obtain ⟨e,he⟩ := h.present r hr hs
    exact ⟨_,by rw [units_promote,he]; rfl⟩
  bounded u e he v hv := by
    rw [units_promote] at he
    obtain ⟨x,hx,rfl⟩ := Option.map_eq_some_iff.mp he
    obtain ⟨r,hr,hl⟩ := h.latest u x hx
    have hold : ∀ w ∈ x.durable, w.sequence ≤ d := fun w hw =>
      Nat.le_trans (h.bounded u x hx w hw) hd
    unfold promotedEntry at hv
    split_ifs at hv
    · obtain rfl := Option.some.inj hv
      rw [hl]
      exact hall r hr.mem
    · exact hold v hv
    · exact hold v hv
  promoted u r hr hs := by
    have hr' : Newest accepted (·.unitIndex = u) r :=
      ⟨hr.mem,hr.holds.1,fun t ht hu => hr.newest t ht ⟨hu,hall t ht⟩⟩
    obtain ⟨x,hx⟩ := h.present r hr.mem hs
    rw [hr.holds.1] at hx
    obtain ⟨t,ht,hl⟩ := h.latest u x hx
    obtain rfl := ht.unique h.ascending hr'
    refine ⟨_,by rw [units_promote,hx]; rfl,?_⟩
    beta_reduce
    by_cases hp : t.sequence ≤ durable
    · -- Already promoted, so its sequence is no longer queued.
      obtain ⟨y,hy,hd'⟩ := h.promoted u t ⟨hr.mem,⟨hr.holds.1,hp⟩,
        fun z hz hzu => hr'.newest z hz hzu.1⟩ hs
      obtain rfl := Option.some.inj (hx.symm.trans hy)
      rw [if_neg]
      · exact hd'
      · rintro ⟨-,hq⟩
        rw [hl,h.pending] at hq
        exact absurd hq.1 (Nat.not_lt.mpr hp)
    · have hq : o.pendingPromotion[x.latest.sequence]? = some u := by
        rw [hl,h.pending]
        exact ⟨Nat.lt_of_not_le hp,t,hr.mem,rfl,hr.holds.1⟩
      have hlow : Promotes x.latest.sequence x := by
        refine ⟨rfl,fun v hv => ?_⟩
        have hb := h.bounded u x hx v hv
        rw [hl]
        exact Nat.lt_of_le_of_lt hb (Nat.lt_of_not_le hp)
      rw [if_pos ⟨by rw [hl]; exact hall t hr.mem,hq⟩,promotedEntry,if_pos hlow,hl]
  pending q u := by
    rw [pending_promote]
    split
    · rename_i hq
      simp only [reduceCtorEq,false_iff]
      rintro ⟨hlt,-⟩
      omega
    · rename_i hq
      rw [h.pending]
      constructor
      · rintro ⟨-,hr⟩
        exact ⟨by omega,hr⟩
      · rintro ⟨-,hr⟩
        exact ⟨by omega,hr⟩

theorem Tracks.promote_same :
    (o.promote durable).Tracks accepted checkpoint durable := by
  have hqueue : ∀ q u, o.pendingPromotion[q]? = some u → ¬ q ≤ durable := fun q u hq =>
    Nat.not_le.mpr ((h.pending q u).mp hq).1
  have hunits : ∀ u : ℕ, (o.promote durable).units[u]? = o.units[u]? := by
    intro u
    rw [units_promote]
    cases hu : o.units[u]? with
    | none => rfl
    | some e =>
      have hnot : ¬ (e.latest.sequence ≤ durable ∧
          o.pendingPromotion[e.latest.sequence]? = some u) := fun hc => hqueue _ _ hc.2 hc.1
      simp only [Option.map_some,if_neg hnot]
  have hpending : ∀ q : ℕ, (o.promote durable).pendingPromotion[q]? = o.pendingPromotion[q]? := by
    intro q
    rw [pending_promote]
    split
    · rename_i hle
      cases hq : o.pendingPromotion[q]? with
      | none => rfl
      | some u => exact absurd hle (hqueue q u hq)
    · rfl
  exact ⟨h.ascending,by simpa only [hunits] using h.latest,by simpa only [hunits] using h.present,
    by simpa only [hunits] using h.bounded,by simpa only [hunits] using h.promoted,
    by simpa only [hpending] using h.pending⟩

/-- Promote after a journal call: the boundary stayed, or it covers everything accepted. -/
theorem Tracks.promote {d : ℕ} (hd : durable ≤ d)
    (hall : d = durable ∨ ∀ r ∈ accepted, r.sequence ≤ d) :
    (o.promote d).Tracks accepted checkpoint d := by
  rcases hall with rfl | hall
  · exact h.promote_same
  · exact h.promote_all hd hall

/-- Publishing a record behind the boundary: no durable version is touched. -/
theorem Tracks.publish {r : JournalRecord}
    (hr : durable < r.sequence) (hlast : ∀ t ∈ accepted, t.sequence < r.sequence) :
    (o.publish r.unitIndex r.sequence r.payload).Tracks (accepted ++ [r]) checkpoint durable where
  ascending := by
    rw [List.pairwise_append]
    exact ⟨h.ascending,by simp,fun a ha b hb => by
      rw [List.mem_singleton.mp hb]
      exact hlast a ha⟩
  latest u e he := by
    rw [units_publish] at he
    by_cases hu : r.unitIndex = u
    · rw [if_pos hu] at he
      obtain rfl := Option.some.inj he
      exact ⟨r,Newest.last hu fun t ht => Nat.le_of_lt (hlast t ht),rfl⟩
    · rw [if_neg hu] at he
      obtain ⟨t,ht,hl⟩ := h.latest u e he
      exact ⟨t,(Newest.append_of_not hu).mpr ht,hl⟩
  present t ht hs := by
    rw [units_publish]
    by_cases hu : r.unitIndex = t.unitIndex
    · exact ⟨_,if_pos hu⟩
    · rw [if_neg hu]
      rcases List.mem_append.mp ht with ht | ht
      · exact h.present t ht hs
      · rw [List.mem_singleton.mp ht] at hu
        exact absurd rfl hu
  bounded u e he v hv := by
    rw [units_publish] at he
    by_cases hu : r.unitIndex = u
    · subst hu
      rw [if_pos rfl] at he
      obtain rfl := Option.some.inj he
      cases ho : o.units[r.unitIndex]? with
      | none => simp [ho] at hv
      | some x => exact h.bounded _ x ho v (by simpa [ho] using hv)
    · rw [if_neg hu] at he
      exact h.bounded u e he v hv
  promoted u t ht hs := by
    rw [Newest.append_of_not fun hc => absurd hc.2 (Nat.not_le.mpr hr)] at ht
    obtain ⟨e,he,hd⟩ := h.promoted u t ht hs
    rw [units_publish]
    by_cases hu : r.unitIndex = u
    · subst hu
      exact ⟨_,if_pos rfl,by simpa [he] using hd⟩
    · exact ⟨e,by rw [if_neg hu,he],hd⟩
  pending q u := by
    rw [pending_publish]
    by_cases hq : r.sequence = q
    · subst hq
      rw [if_pos rfl]
      constructor
      · rintro ⟨⟩
        exact ⟨hr,r,by simp,rfl,rfl⟩
      · rintro ⟨-,t,ht,hts,rfl⟩
        rcases List.mem_append.mp ht with ht | ht
        · exact absurd (hlast t ht) (by omega)
        · rw [List.mem_singleton.mp ht]
    · rw [if_neg hq,h.pending]
      constructor
      · rintro ⟨hlt,t,ht,hts⟩
        exact ⟨hlt,t,List.mem_append_left _ ht,hts⟩
      · rintro ⟨hlt,t,ht,hts,htu⟩
        rcases List.mem_append.mp ht with ht | ht
        · exact ⟨hlt,t,ht,hts,htu⟩
        · rw [List.mem_singleton.mp ht] at hts
          exact absurd hts hq

theorem Tracks.lt_latest {u c : ℕ} {e : UnitOverlay}
    {r : JournalRecord} (he : o.units[u]? = some e) (hr : r ∈ accepted) (hu : r.unitIndex = u)
    (hs : c < r.sequence) : c < e.latest.sequence := by
  obtain ⟨t,ht,hl⟩ := h.latest u e he
  rw [hl]
  exact Nat.lt_of_lt_of_le hs (ht.newest r hr hu)

/-- Retiring up to the checkpoint removes nothing above it. -/
theorem Tracks.retire (hc : checkpoint ≤ durable) :
    (o.retire checkpoint).Tracks accepted checkpoint durable where
  ascending := h.ascending
  latest u e he := by
    obtain ⟨x,hx,-,rfl⟩ := exists_of_retire he
    exact h.latest u x hx
  present r hr hs := by
    obtain ⟨e,he⟩ := h.present r hr hs
    exact ⟨_,retire_of_lt he (h.lt_latest he hr rfl hs)⟩
  bounded u e he v hv := by
    obtain ⟨x,hx,-,rfl⟩ := exists_of_retire he
    exact h.bounded u x hx v (Option.filter_eq_some_iff.mp hv).1
  promoted u r hr hs := by
    obtain ⟨e,he,hd⟩ := h.promoted u r hr hs
    refine ⟨_,retire_of_lt he (h.lt_latest he hr.mem hr.holds.1 hs),?_⟩
    exact Option.filter_eq_some_iff.mpr ⟨hd,decide_eq_true hs⟩
  pending q u := by
    rw [pending_retire]
    by_cases hq : q > checkpoint
    · rw [if_pos hq,h.pending]
    · rw [if_neg hq]
      simp only [reduceCtorEq,false_iff]
      rintro ⟨hlt,-⟩
      omega

end Kept

theorem tracks_promote_new (durable : ℕ) : (promote {} durable).Tracks [] durable durable := by
  have hnew : Tracks {} [] durable durable := by
    refine ⟨.nil,?_,by simp,?_,?_,?_⟩
    · intro u e he
      simp at he
    · intro u e he
      simp at he
    · intro u r hr
      exact absurd hr.mem (by simp)
    · simp
  exact hnew.promote_same

end Tracks

end Overlay
end Maki
