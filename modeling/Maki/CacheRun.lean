import Maki.Cache
import Maki.MapSum

/-! Sequences of calls on the plaintext cache: entries, recency index and byte counter agree after
each, and room is made at the cost of the entries used least recently. `uses` is the history of the
units stored or hit. -/
namespace Maki
namespace VersionedLruCache

open MapSum

inductive Call where
  | put (now unit writeSequence : ℕ) (data : Bytes)
  | get (now unit writeSequence : ℕ)
  | invalidate (unit : ℕ)
  | clear
  | reconfigure (maxBytes : ℕ) (ttl : Option ℕ)
  deriving DecidableEq

namespace Call

def run (c : VersionedLruCache) : Call → VersionedLruCache
  | .put now unit writeSequence data => c.put now unit writeSequence data
  | .get now unit writeSequence => (c.get now unit writeSequence).2
  | .invalidate unit => c.invalidate unit
  | .clear => c.clear
  | .reconfigure maxBytes ttl => c.reconfigure maxBytes ttl

def unit? : Call → Option ℕ
  | .put _ unit _ _ | .get _ unit _ | .invalidate unit => some unit
  | .clear | .reconfigure _ _ => none

def need : Call → ℕ
  | .put _ _ _ data => data.length
  | _ => 0

def uses (c : VersionedLruCache) : Call → List ℕ
  | .put _ unit writeSequence data =>
    if c.map[unit]?.any (·.writeSequence > writeSequence) then []
    else if data.length = 0 ∨ data.length > c.maxBytes ∨ c.maxBytes = 0 then [] else [unit]
  | .get now unit writeSequence => if (c.get now unit writeSequence).1.isSome then [unit] else []
  | _ => []

end Call

def evictions (need : ℕ) : ℕ → VersionedLruCache → List (VersionedLruCache × ℕ)
  | 0, _ => []
  | rounds+1, c =>
    if c.bytes+need > c.maxBytes then
      match c.recency.minEntry? with
      | none => []
      | some (_,unit) => (c,unit)::evictions need rounds (c.remove unit)
    else []

/-- The removals a call may make. Only they subtract from a counter. -/
def Call.removals (c : VersionedLruCache) : Call → List (VersionedLruCache × ℕ)
  | .put _ unit _ data =>
    (c,unit)::evictions data.length (c.remove unit).recency.size (c.remove unit)
  | .get _ unit _ | .invalidate unit => [(c,unit)]
  | .clear => []
  | .reconfigure maxBytes ttl =>
    evictions 0 c.recency.size { c with ttl := ttl.getD c.ttl, maxBytes := maxBytes }

/-- The entries, the index and the counter agree, and the stamp of an entry is its last use. -/
structure Indexed (c : VersionedLruCache) (uses : List ℕ) : Prop where
  index : ∀ t u, c.recency[t]? = some u ↔ ∃ e : CacheEntry, c.map[u]? = some e ∧ e.lastUsed = t
  counted : c.bytes = total (fun _ e => e.data.length) c.map
  ticks : uses.length = c.tick
  used : ∀ (u : ℕ) (e : CacheEntry), c.map[u]? = some e →
    0 < e.lastUsed ∧ uses[e.lastUsed-1]? = some u ∧ ∀ i, e.lastUsed ≤ i → uses[i]? ≠ some u
  filled : ∀ (u : ℕ) (e : CacheEntry), c.map[u]? = some e → 0 < e.data.length

section Entries

variable {c d : VersionedLruCache} {uses : List ℕ} {unit need : ℕ} {e : CacheEntry}

theorem Indexed.congr (h : Indexed c uses) (hmap : ∀ u : ℕ, d.map[u]? = c.map[u]?)
    (hrecency : ∀ t : ℕ, d.recency[t]? = c.recency[t]?) (hbytes : d.bytes = c.bytes)
    (htick : d.tick = c.tick) : Indexed d uses where
  index t u := by simpa only [hmap,hrecency] using h.index t u
  counted := by rw [hbytes,h.counted,total_ext hmap]
  ticks := htick ▸ h.ticks
  used u e he := h.used u e (hmap u ▸ he)
  filled u e he := h.filled u e (hmap u ▸ he)

theorem map_remove (c : VersionedLruCache) (unit u : ℕ) :
    (c.remove unit).map[u]? = if unit = u then none else c.map[u]? := by
  unfold remove
  split
  · rename_i hnone
    split
    · rename_i heq
      rw [← heq,hnone]
    · rfl
  · simp only [Std.TreeMap.getElem?_erase,Nat.compare_eq_eq]

@[simp] theorem maxBytes_remove (c : VersionedLruCache) (unit : ℕ) :
    (c.remove unit).maxBytes = c.maxBytes := by
  unfold remove
  split <;> rfl

theorem Indexed.le_bytes (h : Indexed c uses) (he : c.map[unit]? = some e) :
    e.data.length ≤ c.bytes := by
  rw [h.counted]
  exact le_total (f := fun _ e => e.data.length) he

theorem Indexed.remove (h : Indexed c uses) (unit : ℕ) : Indexed (c.remove unit) uses := by
  cases he : c.map[unit]? with
  | none =>
    have hsame : c.remove unit = c := by simp [VersionedLruCache.remove,he]
    rwa [hsame]
  | some e =>
    have hsub : ∀ (u : ℕ) (f : CacheEntry), (c.remove unit).map[u]? = some f → c.map[u]? = some f := by
      intro u f hf
      rw [map_remove] at hf
      split at hf
      · cases hf
      · exact hf
    have hrecency : ∀ t, (c.remove unit).recency[t]? =
        if e.lastUsed = t then none else c.recency[t]? := by
      intro t
      simp only [VersionedLruCache.remove,he,Std.TreeMap.getElem?_erase,Nat.compare_eq_eq]
    refine ⟨fun t u => ?_,?_,?_,fun u f hf => h.used u f (hsub u f hf),
      fun u f hf => h.filled u f (hsub u f hf)⟩
    · rw [hrecency]
      constructor
      · intro ht
        split at ht
        · cases ht
        rename_i hne
        obtain ⟨f,hf,hft⟩ := (h.index t u).mp ht
        refine ⟨f,?_,hft⟩
        rw [map_remove,if_neg,hf]
        rintro rfl
        rw [he] at hf
        cases hf
        exact hne hft
      · rintro ⟨f,hf,hft⟩
        have hf' := hsub u f hf
        rw [if_neg,(h.index t u).mpr ⟨f,hf',hft⟩]
        intro heq
        -- one stamp belongs to one unit
        have hu := ((h.index t u).mpr ⟨f,hf',hft⟩).symm.trans
          ((h.index t unit).mpr ⟨e,he,heq⟩)
        cases hu
        rw [map_remove,if_pos rfl] at hf
        cases hf
    · have herase := total_erase (f := fun _ e => e.data.length) he
      have hc := h.counted
      simp only [VersionedLruCache.remove,he]
      omega
    · simpa [VersionedLruCache.remove,he] using h.ticks

def store (c : VersionedLruCache) (unit writeSequence : ℕ) (data : Bytes) (now : ℕ) :
    VersionedLruCache :=
  { c with
    tick := c.tick+1
    map := c.map.insert unit ⟨writeSequence,data,now,c.tick+1⟩
    recency := c.recency.insert (c.tick+1) unit
    bytes := c.bytes+data.length }

theorem Indexed.store (h : Indexed c uses) (hnone : c.map[unit]? = none) {data : Bytes}
    (hdata : 0 < data.length) (writeSequence now : ℕ) :
    Indexed (c.store unit writeSequence data now) (uses ++ [unit]) := by
  have hmap : ∀ u, (c.store unit writeSequence data now).map[u]? =
      if unit = u then some ⟨writeSequence,data,now,c.tick+1⟩ else c.map[u]? := by
    intro u
    simp only [VersionedLruCache.store,Std.TreeMap.getElem?_insert,Nat.compare_eq_eq]
  have hold : ∀ (u : ℕ) (e : CacheEntry), c.map[u]? = some e → e.lastUsed < c.tick+1 := by
    intro u e he
    obtain ⟨hpos,hget,-⟩ := h.used u e he
    have hlt := (List.getElem?_eq_some_iff.mp hget).1
    have ht := h.ticks
    omega
  refine ⟨fun t u => ?_,?_,by simp [VersionedLruCache.store,h.ticks],fun u e he => ?_,
    fun u e he => ?_⟩
  · simp only [VersionedLruCache.store,Std.TreeMap.getElem?_insert,Nat.compare_eq_eq]
    split
    · rename_i heq
      constructor
      · rintro ⟨⟩
        exact ⟨_,if_pos rfl,heq⟩
      · rintro ⟨e,he,het⟩
        split at he
        · rename_i hu
          rw [hu]
        · have := hold u e he
          omega
    · rename_i hne
      rw [h.index]
      constructor
      · rintro ⟨e,he,het⟩
        refine ⟨e,?_,het⟩
        rw [if_neg,he]
        rintro rfl
        rw [hnone] at he
        cases he
      · rintro ⟨e,he,het⟩
        split at he
        · cases he
          exact absurd het hne
        · exact ⟨e,he,het⟩
  · simp only [VersionedLruCache.store]
    rw [total_insert_of_none hnone,h.counted,Nat.add_comm]
  · rw [hmap] at he
    split at he
    · rename_i hu
      subst hu
      cases he
      refine ⟨Nat.succ_pos _,by simp [← h.ticks],fun i hi => ?_⟩
      have hi : c.tick+1 ≤ i := hi
      rw [List.getElem?_eq_none (by simp [h.ticks]; omega)]
      simp
    · rename_i hne
      obtain ⟨hpos,hget,hlast⟩ := h.used u e he
      have hlt := (List.getElem?_eq_some_iff.mp hget).1
      refine ⟨hpos,by rw [List.getElem?_append_left hlt,hget],fun i hi => ?_⟩
      by_cases hil : i < uses.length
      · rw [List.getElem?_append_left hil]
        exact hlast i hi
      · rw [List.getElem?_append_right (by omega)]
        intro hsome
        have hmem := List.mem_of_getElem? hsome
        exact hne (List.mem_singleton.mp hmem).symm
  · rw [hmap] at he
    split at he
    · cases he
      exact hdata
    · exact h.filled u e he

theorem Indexed.touch (h : Indexed c uses) (he : c.map[unit]? = some e) :
    Indexed (c.touch unit) (uses ++ [unit]) := by
  have hnone : (c.remove unit).map[unit]? = none := by rw [map_remove,if_pos rfl]
  apply ((h.remove unit).store hnone (h.filled unit e he) e.writeSequence e.insertedAt).congr
  · intro u
    simp only [VersionedLruCache.touch,VersionedLruCache.store,VersionedLruCache.remove,he,
      Std.TreeMap.getElem?_insert,Std.TreeMap.getElem?_erase]
    split <;> rfl
  · intro t
    simp [VersionedLruCache.touch,VersionedLruCache.store,VersionedLruCache.remove,he]
  · have hle := h.le_bytes he
    simp only [VersionedLruCache.touch,VersionedLruCache.store,VersionedLruCache.remove,he]
    omega
  · simp [VersionedLruCache.touch,VersionedLruCache.store,VersionedLruCache.remove,he]

def since (stamp : ℕ) (_ : ℕ) (e : CacheEntry) : ℕ := if stamp ≤ e.lastUsed then e.data.length else 0

/-- `d` is `c` without its oldest entries, each of which had to go for `need` bytes to fit. -/
structure Shed (need : ℕ) (c d : VersionedLruCache) : Prop where
  kept : ∀ (u : ℕ) (e : CacheEntry), d.map[u]? = some e → c.map[u]? = some e
  oldest : ∀ (u : ℕ) (e : CacheEntry) (v : ℕ) (f : CacheEntry), c.map[u]? = some e →
    d.map[u]? = none → d.map[v]? = some f → e.lastUsed < f.lastUsed
  needed : ∀ (u : ℕ) (e : CacheEntry), c.map[u]? = some e → d.map[u]? = none →
    c.maxBytes < need+total (since e.lastUsed) c.map
  limit : d.maxBytes = c.maxBytes

theorem Shed.refl (need : ℕ) (c : VersionedLruCache) : Shed need c c where
  kept _ _ he := he
  oldest _ _ _ _ he hnone := absurd (he.symm.trans hnone) (by simp)
  needed _ _ he hnone := absurd (he.symm.trans hnone) (by simp)
  limit := rfl

section Room

variable (h : Indexed c uses)

include h

theorem Indexed.first {t : ℕ} (hmin : c.recency.minEntry? = some (t,unit)) :
    ∃ e : CacheEntry, c.map[unit]? = some e ∧ e.lastUsed = t ∧
      ∀ (v : ℕ) (f : CacheEntry), c.map[v]? = some f → v ≠ unit → e.lastUsed < f.lastUsed := by
  obtain ⟨hget,hleast⟩ := minEntry?_least hmin
  obtain ⟨e,he,rfl⟩ := (h.index t unit).mp hget
  refine ⟨e,he,rfl,fun v f hf hne => ?_⟩
  have hv := (h.index f.lastUsed v).mpr ⟨f,hf,rfl⟩
  have hle : e.lastUsed ≤ f.lastUsed := Nat.isLE_compare.mp (hleast _ _ hv)
  apply lt_of_le_of_ne hle
  intro heq
  rw [← heq,hget] at hv
  exact hne (Option.some.inj hv).symm

theorem Indexed.shed_cons (hover : c.bytes+need > c.maxBytes) {t : ℕ}
    (hmin : c.recency.minEntry? = some (t,unit)) (hs : Shed need (c.remove unit) d) :
    Shed need c d := by
  obtain ⟨e,he,-,hfirst⟩ := h.first hmin
  have hkept : ∀ (v : ℕ) (f : CacheEntry), d.map[v]? = some f → v ≠ unit ∧ c.map[v]? = some f := by
    intro v f hf
    have hf' := hs.kept v f hf
    rw [map_remove] at hf'
    split at hf'
    · cases hf'
    · rename_i hne
      exact ⟨fun heq => hne heq.symm,hf'⟩
  refine ⟨fun v f hf => (hkept v f hf).2,fun u f v g hf hnone hg => ?_,fun u f hf hnone => ?_,
    by rw [hs.limit,maxBytes_remove]⟩
  · by_cases hu : unit = u
    · subst hu
      rw [he] at hf
      cases hf
      exact hfirst v g (hkept v g hg).2 (hkept v g hg).1
    · exact hs.oldest u f v g (by rw [map_remove,if_neg hu,hf]) hnone hg
  · have hall := total_erase (f := since f.lastUsed) he
    by_cases hu : unit = u
    · subst hu
      rw [he] at hf
      cases hf
      -- everything in the cache was used after the first entry
      have htotal : total (since e.lastUsed) c.map = c.bytes := by
        rw [h.counted]
        apply total_congr
        intro v g hg
        apply if_pos
        by_cases hv : v = unit
        · subst hv
          rw [he] at hg
          cases hg
          exact le_rfl
        · exact (hfirst v g hg hv).le
      omega
    · have hlt := hfirst u f hf fun heq => hu heq.symm
      have hzero : since f.lastUsed unit e = 0 := if_neg (by omega)
      have hrest := hs.needed u f (by rw [map_remove,if_neg hu,hf]) hnone
      rw [maxBytes_remove] at hrest
      have hmap : (c.remove unit).map = c.map.erase unit := by simp [VersionedLruCache.remove,he]
      rw [hmap] at hrest
      omega

theorem Indexed.bytes_eq_zero (hnone : ∀ t : ℕ, c.recency[t]? = none) :
    c.bytes = 0 := by
  rw [h.counted]
  apply total_eq_zero
  intro u
  cases hu : c.map[u]? with
  | none => rfl
  | some e =>
    have ht := (h.index e.lastUsed u).mpr ⟨e,hu,rfl⟩
    rw [hnone] at ht
    cases ht

theorem Indexed.makeRoomFrom {rounds : ℕ} (hrounds : c.recency.size ≤ rounds)
    (need : ℕ) : Indexed (makeRoomFrom need rounds c) uses ∧
      Shed need c (VersionedLruCache.makeRoomFrom need rounds c) ∧
      (need ≤ c.maxBytes →
        (VersionedLruCache.makeRoomFrom need rounds c).bytes+need ≤ c.maxBytes) ∧
      ∀ p ∈ evictions need rounds c, Indexed p.1 uses := by
  -- an empty index means an empty cache, so the rounds suffice
  have hstop : (∀ t : ℕ, c.recency[t]? = none) → need ≤ c.maxBytes → c.bytes+need ≤ c.maxBytes := by
    intro hnone hneed
    have := h.bytes_eq_zero hnone
    omega
  induction rounds generalizing c with
  | zero =>
    have hempty : c.recency.isEmpty = true := by
      rw [Std.TreeMap.isEmpty_eq_size_eq_zero]
      simpa using hrounds
    have hnone : ∀ t : ℕ, c.recency[t]? = none := fun t => by
      simp [Std.TreeMap.getElem?_of_isEmpty hempty]
    exact ⟨h,Shed.refl need c,hstop hnone,by simp [evictions]⟩
  | succ rounds ih =>
    unfold VersionedLruCache.makeRoomFrom evictions
    by_cases hover : c.bytes+need > c.maxBytes
    · rw [if_pos hover,if_pos hover]
      cases hmin : c.recency.minEntry? with
      | none =>
        have hlist : c.recency.toList = [] := by
          rwa [minEntry?_eq_head?,List.head?_eq_none_iff] at hmin
        have hnone : ∀ t : ℕ, c.recency[t]? = none := by
          intro t
          cases ht : c.recency[t]? with
          | none => rfl
          | some u =>
            have hmem := Std.TreeMap.mem_toList_iff_getElem?_eq_some.mpr ht
            simp [hlist] at hmem
        exact ⟨h,Shed.refl need c,hstop hnone,by simp⟩
      | some p =>
        obtain ⟨t,unit⟩ := p
        obtain ⟨e,he,hstamp,-⟩ := h.first hmin
        have hr := h.remove unit
        have hmem : c.recency.contains t = true := by
          rw [Std.TreeMap.contains_eq_isSome_getElem?,(minEntry?_least hmin).1]
          rfl
        have hsize : (c.remove unit).recency.size ≤ rounds := by
          simp only [VersionedLruCache.remove,he,hstamp,Std.TreeMap.size_erase,if_pos hmem]
          omega
        obtain ⟨hindexed,hshed,hfits,hevictions⟩ := ih hr hsize fun hnone hneed => by
          have := hr.bytes_eq_zero hnone
          omega
        rw [maxBytes_remove] at hfits
        refine ⟨hindexed,h.shed_cons hover hmin hshed,hfits,?_⟩
        rintro q (_ | ⟨_,hq⟩)
        · exact h
        · exact hevictions q hq
    · rw [if_neg hover,if_neg hover]
      exact ⟨h,Shed.refl need c,fun _ => by omega,by simp⟩

theorem Indexed.makeRoom (need : ℕ) : Indexed (c.makeRoom need) uses ∧
    Shed need c (c.makeRoom need) ∧
    (need ≤ c.maxBytes → (c.makeRoom need).bytes+need ≤ c.maxBytes) ∧
    ∀ p ∈ evictions need c.recency.size c, Indexed p.1 uses :=
  h.makeRoomFrom le_rfl need

end Room

theorem total_remove_le (g : ℕ → CacheEntry → ℕ) (c : VersionedLruCache) (unit : ℕ) :
    total g (c.remove unit).map ≤ total g c.map := by
  unfold VersionedLruCache.remove
  split
  · exact le_rfl
  · rename_i e he
    rw [total_erase he]
    exact Nat.le_add_left _ _

end Entries

section Calls

variable {c d : VersionedLruCache} {uses : List ℕ} {call : Call}

/-- What a call does to the entries of other units: the ones it drops were used least recently, and
without them gone the others would not fit. -/
structure Evicts (call : Call) (c d : VersionedLruCache) : Prop where
  kept : ∀ (u : ℕ) (e : CacheEntry), call.unit? ≠ some u → d.map[u]? = some e → c.map[u]? = some e
  oldest : ∀ (u : ℕ) (e : CacheEntry) (v : ℕ) (f : CacheEntry), call.unit? ≠ some u →
    call.unit? ≠ some v → c.map[u]? = some e → d.map[u]? = none → d.map[v]? = some f →
    e.lastUsed < f.lastUsed
  needed : ∀ (u : ℕ) (e : CacheEntry), call.unit? ≠ some u → c.map[u]? = some e →
    d.map[u]? = none → d.maxBytes < call.need+
      total (fun v f => if call.unit? = some v then 0 else since e.lastUsed v f) c.map

theorem Evicts.ofOthers (h : ∀ u : ℕ, call.unit? ≠ some u → d.map[u]? = c.map[u]?) :
    Evicts call c d where
  kept u e hu he := (h u hu).symm.trans he
  oldest u e v f hu _ he hnone := by
    rw [h u hu,he] at hnone
    cases hnone
  needed u e hu he hnone := by
    rw [h u hu,he] at hnone
    cases hnone

/-- Room is made in `c'`, which is `c` up to the unit of the call. -/
theorem Shed.evicts {c' d' : VersionedLruCache} (hs : Shed call.need c' d')
    (hc : ∀ u : ℕ, call.unit? ≠ some u → c'.map[u]? = c.map[u]?)
    (hown : ∀ u : ℕ, call.unit? = some u → c'.map[u]? = none)
    (htotal : ∀ g, total g c'.map ≤ total g c.map)
    (hd : ∀ u : ℕ, call.unit? ≠ some u → d.map[u]? = d'.map[u]?) (hmax : d.maxBytes = d'.maxBytes) :
    Evicts call c d where
  kept u e hu he := (hc u hu).symm.trans (hs.kept u e ((hd u hu).symm.trans he))
  oldest u e v f hu hv he hnone hf := hs.oldest u e v f ((hc u hu).trans he)
    ((hd u hu).symm.trans hnone) ((hd v hv).symm.trans hf)
  needed u e hu he hnone := by
    have hneed := hs.needed u e ((hc u hu).trans he) ((hd u hu).symm.trans hnone)
    have hown : total (since e.lastUsed) c'.map ≤
        total (fun v f => if call.unit? = some v then 0 else since e.lastUsed v f) c'.map := by
      apply total_mono
      intro v f hf
      rw [if_neg]
      intro hv
      rw [hown v hv] at hf
      cases hf
    have hle := hown.trans (htotal _)
    rw [hmax,hs.limit]
    omega

def step (w : VersionedLruCache × List ℕ) (call : Call) : VersionedLruCache × List ℕ :=
  (call.run w.1,w.2 ++ call.uses w.1)

def Kept (w : VersionedLruCache × List ℕ) : Prop := Indexed w.1 w.2 ∧ w.1.bytes ≤ w.1.maxBytes

section Calls

variable (h : Kept (c,uses))

include h

theorem Kept.ofRemove (unit : ℕ) : Kept (c.remove unit,uses) := by
  refine ⟨h.1.remove unit,?_⟩
  rw [(h.1.remove unit).counted,maxBytes_remove]
  apply (total_remove_le _ c unit).trans
  rw [← h.1.counted]
  exact h.2

theorem Kept.put (now unit writeSequence : ℕ) (data : Bytes) :
    Kept (step (c,uses) (.put now unit writeSequence data)) ∧
      Evicts (.put now unit writeSequence data) c (c.put now unit writeSequence data) := by
  have hothers : ∀ u : ℕ, some unit ≠ some u → (c.remove unit).map[u]? = c.map[u]? := by
    intro u hu
    rw [map_remove,if_neg fun heq => hu (congrArg some heq)]
  simp only [step,Call.run,Call.uses,VersionedLruCache.put,maxBytes_remove]
  split
  · exact ⟨by simpa using h,Evicts.ofOthers fun _ _ => rfl⟩
  split
  · exact ⟨by simpa using h.ofRemove unit,Evicts.ofOthers hothers⟩
  rename_i hdata
  have hpos : 0 < data.length := by omega
  have hindexed : Indexed c uses := h.1
  obtain ⟨hroom,hshed,hfits,-⟩ := (hindexed.remove unit).makeRoom data.length
  have hown : (c.remove unit).map[unit]? = none := by rw [map_remove,if_pos rfl]
  have hnone : ((c.remove unit).makeRoom data.length).map[unit]? = none := by
    cases hu : ((c.remove unit).makeRoom data.length).map[unit]? with
    | none => rfl
    | some e =>
      have := hshed.kept unit e hu
      rw [hown] at this
      cases this
  refine ⟨⟨hroom.store hnone hpos writeSequence now,?_⟩,?_⟩
  · have hlimit := hshed.limit
    rw [maxBytes_remove] at hfits hlimit
    have := hfits (by omega)
    dsimp only
    omega
  · have hneed : Shed (Call.put now unit writeSequence data).need _ _ := hshed
    apply hneed.evicts hothers
    · rintro u ⟨⟩
      exact hown
    · exact fun g => total_remove_le g c unit
    · intro u hu
      simp only [Std.TreeMap.getElem?_insert,Nat.compare_eq_eq]
      rw [if_neg fun heq => hu (congrArg some heq)]
    · rfl

theorem Kept.get (now unit writeSequence : ℕ) :
    Kept (step (c,uses) (.get now unit writeSequence)) ∧
      Evicts (.get now unit writeSequence) c (c.get now unit writeSequence).2 := by
  simp only [step,Call.run,Call.uses,VersionedLruCache.get]
  split
  · exact ⟨by simpa using h,Evicts.ofOthers fun _ _ => rfl⟩
  rename_i e he
  split
  · refine ⟨⟨h.1.touch he,?_⟩,Evicts.ofOthers fun u hu => ?_⟩
    · simpa [VersionedLruCache.touch,he] using h.2
    · have hne : ¬ unit = u := fun heq => hu (congrArg some heq)
      simp [VersionedLruCache.touch,he,Std.TreeMap.getElem?_insert,hne]
  split
  · exact ⟨by simpa using h,Evicts.ofOthers fun _ _ => rfl⟩
  · refine ⟨by simpa using h.ofRemove unit,Evicts.ofOthers fun u hu => ?_⟩
    rw [map_remove,if_neg fun heq => hu (congrArg some heq)]

theorem Kept.cleared : Kept (c.clear,uses) := by
  refine ⟨⟨fun t u => ?_,by simp [VersionedLruCache.clear,MapSum.total_empty],h.1.ticks,?_,?_⟩,Nat.zero_le _⟩
  · simp [VersionedLruCache.clear]
  all_goals
    intro u e he
    simp [VersionedLruCache.clear] at he

theorem Kept.reconfigure (maxBytes : ℕ) (ttl : Option ℕ) :
    Kept (step (c,uses) (.reconfigure maxBytes ttl)) ∧
      Evicts (.reconfigure maxBytes ttl) c (c.reconfigure maxBytes ttl) := by
  simp only [step,Call.run,Call.uses,VersionedLruCache.reconfigure,List.append_nil]
  have hset : Indexed { c with ttl := ttl.getD c.ttl, maxBytes := maxBytes } uses :=
    h.1.congr (fun _ => rfl) (fun _ => rfl) rfl rfl
  split
  · rename_i hzero
    subst hzero
    refine ⟨⟨h.cleared.1.congr (fun _ => rfl) (fun _ => rfl) rfl rfl,Nat.zero_le _⟩,?_⟩
    refine ⟨fun u e _ he => ?_,fun u e v f _ _ _ _ hf => ?_,fun u e hu he _ => ?_⟩
    · simp [VersionedLruCache.clear] at he
    · simp [VersionedLruCache.clear] at hf
    · -- no entry is empty
      have hle := le_total (f := fun v f =>
        if (Call.reconfigure 0 ttl).unit? = some v then 0 else since e.lastUsed v f) he
      have hpos := h.1.filled u e he
      rw [if_neg hu,since,if_pos le_rfl] at hle
      simp only [VersionedLruCache.clear]
      omega
  · obtain ⟨hroom,hshed,hfits,-⟩ := hset.makeRoom 0
    refine ⟨⟨hroom,?_⟩,?_⟩
    · have hlimit := hshed.limit
      have := hfits (Nat.zero_le _)
      dsimp only at *
      omega
    · exact Shed.evicts hshed (fun _ _ => rfl) (by simp [Call.unit?]) (fun _ => le_rfl) (fun _ _ => rfl) rfl

theorem Kept.afterCall (call : Call) :
    Kept (step (c,uses) call) ∧ (call ≠ .clear → Evicts call c (call.run c)) := by
  cases call with
  | put now unit writeSequence data =>
    obtain ⟨hk,he⟩ := h.put now unit writeSequence data
    exact ⟨hk,fun _ => he⟩
  | get now unit writeSequence =>
    obtain ⟨hk,he⟩ := h.get now unit writeSequence
    exact ⟨hk,fun _ => he⟩
  | invalidate unit =>
    refine ⟨by simpa [step,Call.run,Call.uses,VersionedLruCache.invalidate] using h.ofRemove unit,
      fun _ => Evicts.ofOthers ?_⟩
    intro u hu
    simp only [Call.run,VersionedLruCache.invalidate]
    rw [map_remove,if_neg fun heq => hu (congrArg some heq)]
  | clear => exact ⟨by simpa [step,Call.run,Call.uses] using h.cleared,fun hne => absurd rfl hne⟩
  | reconfigure maxBytes ttl =>
    obtain ⟨hk,he⟩ := h.reconfigure maxBytes ttl
    exact ⟨hk,fun _ => he⟩

end Calls

theorem kept_run {w : VersionedLruCache × List ℕ} (h : Kept w) (calls : List Call) :
    Kept (calls.foldl step w) := by
  induction calls generalizing w with
  | nil => exact h
  | cons call calls ih => exact ih (Kept.afterCall h call).1

/-- No removal takes more from the counter than it holds. -/
theorem Indexed.removals (h : Indexed c uses) (call : Call) :
    ∀ p ∈ call.removals c, Indexed p.1 uses := by
  cases call with
  | put now unit writeSequence data =>
    rintro p (_ | ⟨_,hp⟩)
    · exact h
    · exact ((h.remove unit).makeRoom data.length).2.2.2 p hp
  | get now unit writeSequence => simpa [Call.removals] using h
  | invalidate unit => simpa [Call.removals] using h
  | clear => simp [Call.removals]
  | reconfigure maxBytes ttl =>
    have hset : Indexed { c with ttl := ttl.getD c.ttl, maxBytes := maxBytes } uses :=
      h.congr (fun _ => rfl) (fun _ => rfl) rfl rfl
    exact (hset.makeRoom 0).2.2.2

/-- After any calls the counter is the bytes of the entries and within the limit, the index lists
each entry once, under its last use, and the next call drops the entries used least recently, only
as many as it needs, and takes no more from the counter than it holds. -/
theorem cache_stays_exact (maxBytes ttl : ℕ) (calls : List Call) :
    let w := calls.foldl step ({ maxBytes := maxBytes, ttl := ttl },[])
    (w.1.bytes = total (fun _ e => e.data.length) w.1.map ∧ w.1.bytes ≤ w.1.maxBytes) ∧
    (∀ t u, w.1.recency[t]? = some u ↔ ∃ e : CacheEntry, w.1.map[u]? = some e ∧ e.lastUsed = t) ∧
    (∀ (u : ℕ) (e : CacheEntry), w.1.map[u]? = some e →
      0 < e.lastUsed ∧ w.2[e.lastUsed-1]? = some u ∧ ∀ i, e.lastUsed ≤ i → w.2[i]? ≠ some u) ∧
    ∀ call : Call, (call ≠ .clear → Evicts call w.1 (call.run w.1)) ∧
      ∀ p ∈ call.removals w.1, ∀ e : CacheEntry, p.1.map[p.2]? = some e →
        e.data.length ≤ p.1.bytes := by
  have hnew : Kept ({ maxBytes := maxBytes, ttl := ttl },[]) := by
    refine ⟨⟨fun t u => by simp,rfl,rfl,?_,?_⟩,Nat.zero_le _⟩
    all_goals
      intro u e he
      simp at he
  intro w
  have h : Kept w := kept_run hnew calls
  refine ⟨⟨h.1.counted,h.2⟩,h.1.index,h.1.used,fun call => ⟨(Kept.afterCall h call).2,?_⟩⟩
  intro p hp e he
  exact (h.1.removals call p hp).le_bytes he

end Calls

end VersionedLruCache
end Maki
