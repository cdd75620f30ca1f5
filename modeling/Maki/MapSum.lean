import Mathlib
import Std.Data.TreeMap

/-! Sums over the entries of an ordered map, and its first entry. -/
namespace Maki
namespace MapSum

variable {α β γ : Type} {cmp : α → α → Ordering} {f g : α → β → ℕ} {m : Std.TreeMap α β cmp} {k : α}
  {v w : β}

def total (f : α → β → ℕ) (m : Std.TreeMap α β cmp) : ℕ := (m.toList.map fun p => f p.1 p.2).sum

theorem total_empty : total f (∅ : Std.TreeMap α β cmp) = 0 := rfl

section Lawful

variable [Std.TransCmp cmp] [Std.LawfulEqCmp cmp]

theorem total_insert_of_none (h : m[k]? = none) : total f (m.insert k v) = f k v+total f m := by
  classical
  have hperm := Std.TreeMap.toList_insert_perm (t := m) (k := k) (v := v)
  have hfilter : m.toList.filter (fun p => decide ¬ (k == p.1) = true) = m.toList := by
    rw [List.filter_eq_self]
    intro p hp
    have hget := Std.TreeMap.mem_toList_iff_getElem?_eq_some.mp hp
    have hne : k ≠ p.1 := by
      rintro rfl
      rw [h] at hget
      cases hget
    simpa using hne
  rw [hfilter] at hperm
  rw [total,(hperm.map _).sum_eq,List.map_cons,List.sum_cons,total]

theorem total_ext {m' : Std.TreeMap α β cmp} (h : ∀ j : α, m[j]? = m'[j]?) : total f m = total f m' := by
  rw [total,(Std.TreeMap.Equiv.of_forall_constGet?_eq h).toList_eq,total]

theorem total_erase (h : m[k]? = some v) : total f m = f k v+total f (m.erase k) := by
  have hnone : (m.erase k)[k]? = none := by simp
  rw [← total_insert_of_none hnone]
  apply total_ext
  intro j
  simp only [Std.TreeMap.getElem?_insert,Std.TreeMap.getElem?_erase]
  split
  · rename_i hkj
    rw [← Std.LawfulEqCmp.eq_of_compare hkj,h]
  · rfl

theorem total_insert_of_some (h : m[k]? = some w) :
    total f (m.insert k v)+f k w = total f m+f k v := by
  have hnone : (m.erase k)[k]? = none := by simp
  have hinsert : total f (m.insert k v) = total f ((m.erase k).insert k v) := by
    apply total_ext
    intro j
    simp only [Std.TreeMap.getElem?_insert,Std.TreeMap.getElem?_erase]
    split <;> rfl
  have herase := total_erase (f := f) h
  rw [hinsert,total_insert_of_none hnone]
  omega

theorem le_total (h : m[k]? = some v) : f k v ≤ total f m := by
  rw [total_erase h]
  exact Nat.le_add_right _ _

theorem total_mono (h : ∀ k v, m[k]? = some v → f k v ≤ g k v) : total f m ≤ total g m := by
  apply List.sum_le_sum
  intro p hp
  exact h p.1 p.2 (Std.TreeMap.mem_toList_iff_getElem?_eq_some.mp hp)

theorem total_congr (h : ∀ k v, m[k]? = some v → f k v = g k v) : total f m = total g m :=
  le_antisymm (total_mono fun k v hv => (h k v hv).le) (total_mono fun k v hv => (h k v hv).ge)

/-- A map cut down entry by entry: each entry splits into what is taken and what is left. -/
theorem total_filterMap {r : α → β → Option β}
    (h : ∀ k v, m[k]? = some v → f k v = g k v+((r k v).map (f k)).getD 0) :
    total f m = total g m+total f (m.filterMap r) := by
  have hlist : ∀ p ∈ m.toList, f p.1 p.2 = g p.1 p.2+((r p.1 p.2).map (f p.1)).getD 0 := fun p hp =>
    h p.1 p.2 (Std.TreeMap.mem_toList_iff_getElem?_eq_some.mp hp)
  simp only [total,Std.TreeMap.toList_filterMap]
  generalize m.toList = entries at hlist
  induction entries with
  | nil => rfl
  | cons p rest ih =>
    have hp := hlist p (by simp)
    have hrest := ih fun q hq => hlist q (by simp [hq])
    simp only [List.map_cons,List.sum_cons,List.filterMap_cons]
    cases hr : r p.1 p.2 with
    | none =>
      simp only [hr,Option.map_none,Option.getD_none] at hp ⊢
      omega
    | some w =>
      simp only [hr,Option.map_some,Option.getD_some,List.map_cons,List.sum_cons] at hp ⊢
      omega

theorem total_eq_zero (h : ∀ j : α, m[j]? = none) : total f m = 0 := by
  have he : total f m = total f ∅ := total_ext fun j => by simp [h j]
  exact he

end Lawful

theorem minEntry?_eq_head? (m : Std.TreeMap α β cmp) : m.minEntry? = m.toList.head? := by
  change Std.DTreeMap.Internal.Impl.Const.minEntry? m.inner.inner =
    (Std.DTreeMap.Internal.Impl.Const.toList m.inner.inner).head?
  rw [Std.DTreeMap.Internal.Impl.Const.toList_eq_toListModel_map]
  induction m.inner.inner using Std.DTreeMap.Internal.Impl.Const.minEntry?.induct_unfolding <;> simp_all

theorem minEntry?_least [Std.TransCmp cmp] [Std.LawfulEqCmp cmp] (h : m.minEntry? = some (k,v)) :
    m[k]? = some v ∧ ∀ j w, m[j]? = some w → (cmp k j).isLE := by
  rw [minEntry?_eq_head?,List.head?_eq_some_iff] at h
  obtain ⟨rest,hlist⟩ := h
  refine ⟨Std.TreeMap.mem_toList_iff_getElem?_eq_some.mp (by simp [hlist]),fun j w hj => ?_⟩
  have hmem := Std.TreeMap.mem_toList_iff_getElem?_eq_some.mpr hj
  have hsorted := Std.TreeMap.ordered_keys_toList (t := m)
  rw [hlist] at hmem hsorted
  rcases List.mem_cons.mp hmem with heq | hrest
  · cases heq
    have heq : cmp k k = .eq := Std.ReflCmp.compare_self
    rw [heq]
    rfl
  · rw [(List.pairwise_cons.mp hsorted).1 _ hrest]
    rfl

end MapSum
end Maki
