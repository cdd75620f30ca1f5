import Maki.MapSum
import Maki.Overlay

/-! The accounting of the overlay (`maki_core::overlay::check_invariants`) over any sequence of
publications, promotions and retirements. -/
namespace Maki
namespace Overlay

open MapSum

def charge (e : UnitOverlay) : ℕ :=
  e.latest.ciphertext.length+(e.durable.map (·.ciphertext.length)).getD 0

structure CheckUnit (durableBoundary : ℕ) (e : UnitOverlay) : Prop where
  latest : e.latest.sequence ≠ 0
  durable : ∀ d ∈ e.durable, d.sequence ≤ e.latest.sequence ∧ d.sequence ≤ durableBoundary ∧
    (d.sequence = e.latest.sequence → d.ciphertext = e.latest.ciphertext)
  promoted : e.latest.sequence ≤ durableBoundary →
    ∃ d ∈ e.durable, d.sequence = e.latest.sequence

structure CheckInvariants (o : Overlay) : Prop where
  units : ∀ (u : ℕ) (e : UnitOverlay), o.units[u]? = some e → CheckUnit o.durableBoundary e
  bytes : o.bytes = total (fun _ e => charge e) o.units
  latestBytes : o.latestBytes = total (fun _ e => e.latest.ciphertext.length) o.units
  pending : ∀ q u : ℕ, o.pendingPromotion[q]? = some u → o.durableBoundary < q ∧
    ∃ e : UnitOverlay, o.units[u]? = some e ∧ q ≤ e.latest.sequence

inductive Call where
  | publish (unit sequence : ℕ) (ciphertext : Bytes)
  | promote (durableSequence : ℕ)
  | retire (checkpointSequence : ℕ)

def Call.run (o : Overlay) : Call → Overlay
  | .publish unit sequence ciphertext => o.publish unit sequence ciphertext
  | .promote durableSequence => o.promote durableSequence
  | .retire checkpointSequence => o.retire checkpointSequence

/-- The calls the journal makes: `last` is the newest published sequence. -/
def Call.Allowed (o : Overlay) (last : ℕ) : Call → Prop
  | .publish _ sequence _ => last < sequence ∧ o.durableBoundary < sequence
  | .promote durableSequence => o.durableBoundary ≤ durableSequence
  | .retire checkpointSequence => checkpointSequence ≤ o.durableBoundary

def Call.newest (last : ℕ) : Call → ℕ
  | .publish _ sequence _ => sequence
  | _ => last

/-- The overlays of all sequences of allowed calls, with the newest published sequence. -/
inductive Reached : Overlay → ℕ → Prop
  | new : Reached {} 0
  | call {o : Overlay} {last : ℕ} (c : Call) : Reached o last → c.Allowed o last →
    Reached (c.run o) (c.newest last)

/-- The subtractions of a queue, as (from, what): an entry gives up its old durable version. -/
def promoteSubtractions (durableSequence : ℕ) (o : Overlay) : List (ℕ × ℕ) → List (ℕ × ℕ)
  | [] => []
  | (sequence,unit)::rest =>
    if sequence > durableSequence then []
    else
      (o.bytes,((o.units[unit]?.bind (·.durable)).map (·.ciphertext.length)).getD 0)::
        promoteSubtractions durableSequence (o.promoteOne sequence unit) rest

def retireSubtractions (bytes latestBytes : ℕ) : List (ℕ × ℕ) → List (ℕ × ℕ)
  | [] => []
  | f::rest =>
    (bytes,f.1)::(bytes-f.1,f.2)::(latestBytes,f.2)::
      retireSubtractions (bytes-f.1-f.2) (latestBytes-f.2) rest

def Call.subtractions (o : Overlay) : Call → List (ℕ × ℕ)
  | .publish unit _ ciphertext =>
    let entry := o.units[unit]?.getD {}
    let replaced := if entry.latest.sequence ≠ 0 then entry.latest.ciphertext.length else 0
    [(o.bytes+ciphertext.length,replaced),(o.latestBytes+ciphertext.length,replaced)]
  | .promote durableSequence =>
    promoteSubtractions durableSequence
      { o with durableBoundary := max o.durableBoundary durableSequence } o.pendingPromotion.toList
  | .retire checkpointSequence =>
    retireSubtractions o.bytes o.latestBytes
      (o.units.toList.map fun p => freedBytes checkpointSequence p.2)

/-- What holds between calls beside the assertions: a latest version above the boundary is queued. -/
structure Exact (o : Overlay) (last : ℕ) : Prop extends CheckInvariants o where
  queued : ∀ (u : ℕ) (e : UnitOverlay), o.units[u]? = some e → o.durableBoundary < e.latest.sequence →
    o.pendingPromotion[e.latest.sequence]? = some u
  issued : ∀ (u : ℕ) (e : UnitOverlay), o.units[u]? = some e → e.latest.sequence ≤ last

variable {o : Overlay} {last : ℕ}

theorem exact_new : Exact {} 0 where
  units u e he := by simp at he
  bytes := rfl
  latestBytes := rfl
  pending q u hq := by simp at hq
  queued u e he := by simp at he
  issued u e he := by simp at he

section Publish

theorem latest_le_charge (e : UnitOverlay) : e.latest.ciphertext.length ≤ charge e :=
  Nat.le_add_right _ _

theorem CheckInvariants.published (h : CheckInvariants o) (unit sequence : ℕ) (ciphertext : Bytes) :
    (o.publish unit sequence ciphertext).bytes =
      total (fun _ e => charge e) (o.publish unit sequence ciphertext).units ∧
    (o.publish unit sequence ciphertext).latestBytes =
      total (fun _ e => e.latest.ciphertext.length) (o.publish unit sequence ciphertext).units ∧
    ∀ p ∈ (Call.publish unit sequence ciphertext).subtractions o, p.2 ≤ p.1 := by
  have hb := h.bytes
  have hl := h.latestBytes
  cases hu : o.units[unit]? with
  | none =>
    simp [publish,Call.subtractions,hu,total_insert_of_none hu,hb,hl,charge,Nat.add_comm]
  | some e =>
    have hne := (h.units unit e hu).latest
    have hcharge := le_total (f := fun _ e => charge e) hu
    have hlatest := le_total (f := fun _ e => e.latest.ciphertext.length) hu
    have hle := latest_le_charge e
    have hbytes := total_insert_of_some (f := fun _ e => charge e)
      (v := { e with latest := ⟨sequence,ciphertext⟩ }) hu
    have hlen := total_insert_of_some (f := fun _ e => e.latest.ciphertext.length)
      (v := { e with latest := ⟨sequence,ciphertext⟩ }) hu
    simp only [charge] at hb hle hbytes hcharge
    dsimp only at hlen hlatest
    simp only [publish,Call.subtractions,hu,Option.getD_some,ne_eq,hne,not_false_eq_true,if_true,
      List.mem_cons,List.not_mem_nil,or_false,forall_eq_or_imp,forall_eq,charge]
    omega

theorem Exact.publish (h : Exact o last) {unit sequence : ℕ} (ciphertext : Bytes)
    (hlast : last < sequence) (hboundary : o.durableBoundary < sequence) :
    Exact (o.publish unit sequence ciphertext) sequence := by
  obtain ⟨hb,hl,-⟩ := h.published unit sequence ciphertext
  refine ⟨⟨fun u e he => ?_,hb,hl,fun q u hq => ?_⟩,fun u e he hlt => ?_,fun u e he => ?_⟩
  · rw [units_publish] at he
    split at he
    · cases he
      refine ⟨Nat.ne_of_gt (by dsimp only; omega),fun d hd => ?_,fun hle => absurd hboundary (Nat.not_lt.mpr hle)⟩
      cases hu : o.units[unit]? with
      | none => simp [hu] at hd
      | some x =>
        have hx := ((h.units unit x hu).durable d (by simpa [hu] using hd)).2.1
        have hlt : d.sequence < sequence := Nat.lt_of_le_of_lt hx hboundary
        exact ⟨hlt.le,hx,fun heq => absurd heq hlt.ne⟩
    · exact h.units u e he
  · rw [pending_publish] at hq
    rw [units_publish]
    split at hq
    · rename_i hseq
      cases hq
      exact ⟨hseq ▸ hboundary,_,if_pos rfl,hseq.ge⟩
    · obtain ⟨hlt,e,he,hle⟩ := h.pending q u hq
      refine ⟨hlt,?_⟩
      split
      · have := h.issued u e he
        exact ⟨_,rfl,by dsimp only; omega⟩
      · exact ⟨e,he,hle⟩
  · rw [units_publish] at he
    rw [pending_publish]
    split at he
    · rename_i hu
      cases he
      rw [if_pos rfl,hu]
    · have := h.issued u e he
      rw [if_neg (by omega)]
      exact h.queued u e he hlt
  · rw [units_publish] at he
    split at he
    · cases he
      exact le_rfl
    · exact (h.issued u e he).trans hlast.le

end Publish

section Promote

def Counted (o : Overlay) : Prop :=
  o.bytes = total (fun _ e => charge e) o.units ∧
    o.latestBytes = total (fun _ e => e.latest.ciphertext.length) o.units

theorem durable_le_charge (e : UnitOverlay) :
    (e.durable.map (·.ciphertext.length)).getD 0 ≤ charge e := Nat.le_add_left _ _

theorem Counted.promoteOne (h : Counted o) (sequence unit : ℕ) : Counted (o.promoteOne sequence unit) := by
  obtain ⟨hb,hl⟩ := h
  unfold Overlay.promoteOne
  cases hu : o.units[unit]? with
  | none =>
    simp only [hu]
    exact ⟨hb,hl⟩
  | some e =>
    simp only [hu]
    split
    · have hle := le_total (f := fun _ e => charge e) hu
      have hd := durable_le_charge e
      have hbytes := total_insert_of_some (f := fun _ e => charge e)
        (v := { e with durable := some e.latest }) hu
      have hlen := total_insert_of_some (f := fun _ e => e.latest.ciphertext.length)
        (v := { e with durable := some e.latest }) hu
      simp only [charge,Option.map_some,Option.getD_some] at hb hd hle hbytes
      dsimp only at hlen
      constructor
      · simp only [charge]
        omega
      · dsimp only
        omega
    · exact ⟨hb,hl⟩

theorem Counted.promoteQueue (h : Counted o) (d : ℕ) (queue : List (ℕ × ℕ)) :
    Counted (promoteQueue d o queue) ∧ ∀ p ∈ promoteSubtractions d o queue, p.2 ≤ p.1 := by
  induction queue generalizing o with
  | nil => exact ⟨h,by simp [promoteSubtractions]⟩
  | cons q rest ih =>
    unfold Overlay.promoteQueue promoteSubtractions
    split
    · exact ⟨h,by simp⟩
    · obtain ⟨hc,hs⟩ := ih (h.promoteOne q.1 q.2)
      refine ⟨hc,?_⟩
      rintro p (_ | ⟨_,hp⟩)
      · cases hu : o.units[q.2]? with
        | none => simp
        | some e =>
          rw [h.1]
          exact (durable_le_charge e).trans (le_total (f := fun _ e => charge e) hu)
      · exact hs p hp

theorem durableBoundary_promoteOne (sequence unit : ℕ) :
    (o.promoteOne sequence unit).durableBoundary = o.durableBoundary := by
  unfold promoteOne
  dsimp only
  split
  · rfl
  · split <;> rfl

theorem durableBoundary_promoteQueue (d : ℕ) (queue : List (ℕ × ℕ)) :
    (promoteQueue d o queue).durableBoundary = o.durableBoundary := by
  induction queue generalizing o with
  | nil => rfl
  | cons q rest ih =>
    unfold promoteQueue
    split
    · rfl
    · rw [ih,durableBoundary_promoteOne]

theorem Exact.promoted {d u : ℕ} (h : Exact o last) (hd : o.durableBoundary ≤ d) {e' : UnitOverlay}
    (he : (o.promote d).units[u]? = some e') :
    ∃ e, o.units[u]? = some e ∧ e'.latest = e.latest ∧ CheckUnit d e' := by
  rw [units_promote] at he
  obtain ⟨e,hu,rfl⟩ := Option.map_eq_some_iff.mp he
  obtain ⟨hlatest,hdurable,hpromoted⟩ := h.units u e hu
  refine ⟨e,hu,?_⟩
  split
  · rename_i hqueue
    -- queued, so above the old boundary and above the durable version
    have hlt := (h.pending _ u hqueue.2).1
    have hp : Promotes e.latest.sequence e :=
      ⟨rfl,fun x hx => Nat.lt_of_le_of_lt (hdurable x hx).2.1 hlt⟩
    rw [promotedEntry,if_pos hp]
    refine ⟨rfl,hlatest,?_,fun _ => ⟨e.latest,rfl,rfl⟩⟩
    rintro x ⟨⟩
    exact ⟨le_rfl,hqueue.1,fun _ => rfl⟩
  · rename_i hqueue
    refine ⟨rfl,hlatest,fun x hx => ?_,fun hle => ?_⟩
    · obtain ⟨h₁,h₂,h₃⟩ := hdurable x hx
      exact ⟨h₁,h₂.trans hd,h₃⟩
    · apply hpromoted
      by_contra hlt
      exact hqueue ⟨hle,h.queued u e hu (Nat.lt_of_not_le hlt)⟩

theorem Exact.promote (h : Exact o last) {d : ℕ} (hd : o.durableBoundary ≤ d) :
    Exact (o.promote d) last := by
  have hboundary : (o.promote d).durableBoundary = d := by
    rw [Overlay.promote,durableBoundary_promoteQueue]
    exact max_eq_right hd
  have hcounted : Counted (o.promote d) :=
    (Counted.promoteQueue (o := { o with durableBoundary := max o.durableBoundary d })
      ⟨h.bytes,h.latestBytes⟩ d _).1
  refine ⟨⟨fun u e he => ?_,hcounted.1,hcounted.2,fun q u hq => ?_⟩,fun u e he hlt => ?_,fun u e he => ?_⟩
  · rw [hboundary]
    obtain ⟨-,-,-,hc⟩ := h.promoted hd he
    exact hc
  · rw [hboundary]
    rw [pending_promote] at hq
    split at hq
    · cases hq
    · rename_i hlt
      obtain ⟨-,e,he,hle⟩ := h.pending q u hq
      refine ⟨Nat.lt_of_not_le hlt,_,by rw [units_promote,he]; rfl,?_⟩
      beta_reduce
      unfold promotedEntry
      split_ifs <;> exact hle
  · rw [hboundary] at hlt
    obtain ⟨x,hx,heq,-⟩ := h.promoted hd he
    rw [heq] at hlt ⊢
    rw [pending_promote,if_neg (Nat.not_le.mpr hlt)]
    exact h.queued u x hx (Nat.lt_of_le_of_lt hd hlt)
  · obtain ⟨x,hx,heq,-⟩ := h.promoted hd he
    rw [heq]
    exact h.issued u x hx

end Promote

section Retire

theorem retireSubtractions_exact (freed : List (ℕ × ℕ)) (bytes latestBytes : ℕ)
    (hb : (freed.map fun f => f.1+f.2).sum ≤ bytes) (hl : (freed.map (·.2)).sum ≤ latestBytes) :
    freed.foldl (fun n f => n-f.1-f.2) bytes = bytes-(freed.map fun f => f.1+f.2).sum ∧
    freed.foldl (fun n f => n-f.2) latestBytes = latestBytes-(freed.map (·.2)).sum ∧
    ∀ p ∈ retireSubtractions bytes latestBytes freed, p.2 ≤ p.1 := by
  induction freed generalizing bytes latestBytes with
  | nil => simp [retireSubtractions]
  | cons f rest ih =>
    simp only [List.map_cons,List.sum_cons] at hb hl ⊢
    obtain ⟨h₁,h₂,h₃⟩ := ih (bytes-f.1-f.2) (latestBytes-f.2) (by omega) (by omega)
    refine ⟨by rw [List.foldl_cons,h₁]; omega,by rw [List.foldl_cons,h₂]; omega,?_⟩
    simp only [retireSubtractions,List.mem_cons]
    rintro p (rfl | rfl | rfl | hp)
    · dsimp only
      omega
    · dsimp only
      omega
    · dsimp only
      omega
    · exact h₃ p hp

/-- What a checkpoint frees of an entry and what it leaves make up the entry. -/
theorem CheckUnit.charge_split {b c : ℕ} {e : UnitOverlay} (h : CheckUnit b e) :
    charge e = (freedBytes c e).1+(freedBytes c e).2+((retireEntry c e).map charge).getD 0 := by
  unfold freedBytes retireEntry
  cases hd : e.durable with
  | none =>
    split <;> simp [charge,hd]
  | some d =>
    have hle := (h.durable d hd).1
    by_cases hc : e.latest.sequence ≤ c
    · have hdc : d.sequence ≤ c := hle.trans hc
      simp [charge,hd,hc,hdc,Option.filter]
      omega
    · by_cases hdc : d.sequence ≤ c
      · simp [charge,hd,hc,hdc,Option.filter,Nat.not_lt.mpr hdc]
        omega
      · simp [charge,hd,hc,hdc,Option.filter,Nat.lt_of_not_le hdc]

theorem latest_split (c : ℕ) (e : UnitOverlay) : e.latest.ciphertext.length =
    (freedBytes c e).2+((retireEntry c e).map (·.latest.ciphertext.length)).getD 0 := by
  unfold freedBytes retireEntry
  split <;> simp

theorem CheckInvariants.retired (h : CheckInvariants o) (c : ℕ) :
    Counted (o.retire c) ∧ ∀ p ∈ (Call.retire c).subtractions o, p.2 ≤ p.1 := by
  have hbytes := total_filterMap (m := o.units) (f := fun _ e => charge e)
    (g := fun _ e => (freedBytes c e).1+(freedBytes c e).2) (r := fun _ => retireEntry c)
    fun u e he => (h.units u e he).charge_split
  have hlatest := total_filterMap (m := o.units) (f := fun _ e => e.latest.ciphertext.length)
    (g := fun _ e => (freedBytes c e).2) (r := fun _ => retireEntry c) fun u e _ => latest_split c e
  have hb := h.bytes
  have hl := h.latestBytes
  have hfreed : ∀ g : ℕ × ℕ → ℕ,
      ((o.units.toList.map fun p => freedBytes c p.2).map g).sum =
        total (fun _ e => g (freedBytes c e)) o.units := by
    intro g
    rw [List.map_map]
    rfl
  obtain ⟨h₁,h₂,h₃⟩ := retireSubtractions_exact (o.units.toList.map fun p => freedBytes c p.2)
    o.bytes o.latestBytes (by rw [hfreed]; omega)
    (by rw [hfreed]; omega)
  rw [hfreed] at h₁ h₂
  refine ⟨⟨?_,?_⟩,h₃⟩
  · rw [Overlay.retire]
    dsimp only
    rw [h₁]
    omega
  · rw [Overlay.retire]
    dsimp only
    rw [h₂]
    omega

theorem Exact.retire (h : Exact o last) {c : ℕ} (hc : c ≤ o.durableBoundary) :
    Exact (o.retire c) last := by
  obtain ⟨hb,hl⟩ := (h.retired c).1
  have hboundary : (o.retire c).durableBoundary = o.durableBoundary := rfl
  refine ⟨⟨fun u e he => ?_,hb,hl,fun q u hq => ?_⟩,fun u e he hlt => ?_,fun u e he => ?_⟩
  · obtain ⟨x,hx,hle,rfl⟩ := exists_of_retire he
    obtain ⟨hlatest,hdurable,hpromoted⟩ := h.units u x hx
    refine ⟨hlatest,fun d hd => hdurable d (Option.filter_eq_some_iff.mp hd).1,fun hp => ?_⟩
    obtain ⟨d,hd,heq⟩ := hpromoted hp
    refine ⟨d,Option.filter_eq_some_iff.mpr ⟨hd,?_⟩,heq⟩
    simpa [heq] using hle
  · rw [pending_retire] at hq
    split at hq
    · obtain ⟨hlt,e,he,hle⟩ := h.pending q u hq
      obtain ⟨e',he',heq⟩ := retire_keeps he (hc.trans_lt (hlt.trans_le hle))
      exact ⟨hlt,e',he',heq ▸ hle⟩
    · cases hq
  · obtain ⟨hlate,x,hx,heq⟩ := units_retired he
    rw [pending_retire,if_pos hlate,← heq]
    exact h.queued u x hx (heq ▸ hlt)
  · obtain ⟨-,x,hx,heq⟩ := units_retired he
    exact heq ▸ h.issued u x hx

end Retire

theorem Exact.call (h : Exact o last) {c : Call} (hc : c.Allowed o last) :
    Exact (c.run o) (c.newest last) := by
  cases c with
  | publish unit sequence ciphertext => exact h.publish ciphertext hc.1 hc.2
  | promote d => exact h.promote hc
  | retire c => exact h.retire hc

theorem Reached.exact (h : Reached o last) : Exact o last := by
  induction h with
  | new => exact exact_new
  | call c _ hc ih => exact ih.call hc

/-- After every sequence of calls all assertions of `check_invariants` hold, and no subtraction of
the next call saturates. -/
theorem accounting_exact (h : Reached o last) :
    CheckInvariants o ∧ ∀ c : Call, c.Allowed o last → ∀ p ∈ c.subtractions o, p.2 ≤ p.1 := by
  have hexact := h.exact
  refine ⟨hexact.toCheckInvariants,fun c hc => ?_⟩
  cases c with
  | publish unit sequence ciphertext => exact (hexact.published unit sequence ciphertext).2.2
  | promote d =>
    exact (Counted.promoteQueue (o := { o with durableBoundary := max o.durableBoundary d })
      ⟨hexact.bytes,hexact.latestBytes⟩ d _).2
  | retire c => exact (hexact.retired c).2

theorem accounting_exact_overwritten :
    let o := (((Overlay.publish {} 7 1 [1,2]).promote 1).publish 7 2 [3]).retire 1
    o.bytes = 1 ∧ CheckInvariants o := by
  have h₁ := Reached.new.call (.publish 7 1 [1,2]) ⟨by decide,by decide⟩
  have h₂ := h₁.call (.promote 1) (Nat.zero_le _)
  have h₃ := h₂.call (.publish 7 2 [3]) ⟨by decide,by decide +kernel⟩
  have h₄ := h₃.call (.retire 1) (show 1 ≤ _ by decide +kernel)
  exact ⟨by decide +kernel,(accounting_exact h₄).1⟩

end Overlay
end Maki
