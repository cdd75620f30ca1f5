import Mathlib

/-! Locked memory of secret buffers (`maki_crypto::secret`). `mlock` and `munlock` do not nest, so
every page, named by its first address, has a count of the `PageLock`s over it. -/
namespace Maki.Pages

structure PageLock where
  start : ℕ
  last : ℕ
  pageSize : ℕ

def PageLock.pages (l : PageLock) : List ℕ :=
  (List.range ((l.last-l.start)/l.pageSize+1)).map fun k => l.start+k*l.pageSize

/-- The reference counts, each page as often as it has owners, and the pages the kernel holds locked. -/
structure Machine where
  references : Multiset ℕ := 0
  locked : ℕ → Bool := fun _ => false

namespace Machine

def mlock (start len : ℕ) (m : Machine) : Machine :=
  { m with locked := fun page => m.locked page || (start ≤ page && page < start+len) }

def munlock (start len : ℕ) (m : Machine) : Machine :=
  { m with locked := fun page => m.locked page && !(start ≤ page && page < start+len) }

def register (m : Machine) (page : ℕ) : Machine :=
  { m with references := page ::ₘ m.references }

/-- One page of a drop; `none` where the entry is missing and `expect` panics. -/
def release (pageSize : ℕ) (m : Machine) (page : ℕ) : Option Machine :=
  let m' : Machine := { m with references := m.references.erase page }
  if page ∉ m.references then none
  else if m'.references.count page = 0 then some (m'.munlock page pageSize)
  else some m'

end Machine

/-- `lock_pages`, where `ok` says whether `mlock` succeeds. The length it locks is a `usize`. -/
def lockPages (pageSize address length : ℕ) (ok : Bool) (m : Machine) : Option PageLock × Machine :=
  if length = 0 ∨ pageSize = 0 ∨ 2^64 ≤ address+(length-1) then (none,m)
  else
    let start := address/pageSize*pageSize
    let last := (address+(length-1))/pageSize*pageSize
    let lock : PageLock := ⟨start,last,pageSize⟩
    if ok then (some lock,lock.pages.foldl Machine.register (m.mlock start ((last-start+pageSize) % 2^64)))
    else (none,m)

def PageLock.drop (l : PageLock) (m : Machine) : Option Machine := l.pages.foldlM (Machine.release l.pageSize) m

structure Held where
  address : ℕ
  length : ℕ
  lock : PageLock

def Held.Touches (h : Held) (page : ℕ) : Prop := page < h.address+h.length ∧ h.address < page+h.lock.pageSize

instance (h : Held) (page : ℕ) : Decidable (h.Touches page) := inferInstanceAs (Decidable (_ ∧ _))

structure World where
  machine : Machine := {}
  live : List Held := []

inductive Event where
  | lock (address length : ℕ) (ok : Bool)
  | drop (i : ℕ)

def World.step (pageSize : ℕ) (w : World) : Event → Option World
  | .lock address length ok =>
    match lockPages pageSize address length ok w.machine with
    | (none,m) => some { w with machine := m }
    | (some lock,m) => some ⟨m,⟨address,length,lock⟩::w.live⟩
  | .drop i =>
    match w.live[i]? with
    | none => some w
    | some h => (h.lock.drop w.machine).map fun m => ⟨m,w.live.eraseIdx i⟩

def World.run (pageSize : ℕ) : List Event → Option World := List.foldlM (World.step pageSize) {}

/-- The length that is locked is a `usize`: the range does not go from the first page to the last one. -/
def Event.Fits (pageSize : ℕ) : Event → Prop
  | .lock address length _ =>
    (address+(length-1))/pageSize*pageSize-address/pageSize*pageSize+pageSize < 2^64
  | .drop _ => True

variable {P page a b : ℕ}

section Pages

theorem mem_pages (hP : 0 < P) (hab : a ≤ b) :
    page ∈ (PageLock.mk (a/P*P) (b/P*P) P).pages ↔ ∃ k, a/P ≤ k ∧ k ≤ b/P ∧ k*P = page := by
  have hle : a/P ≤ b/P := Nat.div_le_div_right hab
  simp only [PageLock.pages,← Nat.sub_mul,Nat.mul_div_cancel _ hP,← Nat.add_mul,List.mem_map,List.mem_range]
  constructor
  · rintro ⟨k,hk,rfl⟩
    exact ⟨a/P+k,by omega,by omega,rfl⟩
  · rintro ⟨k,hak,hkb,rfl⟩
    exact ⟨k-a/P,by omega,by rw [Nat.add_sub_cancel' hak]⟩

theorem nodup_pages (hP : 0 < P) (s l : ℕ) : (PageLock.mk s l P).pages.Nodup := by
  refine List.Nodup.map ?_ List.nodup_range
  intro i j hij
  simpa [hP.ne'] using hij

theorem between_iff (hP : 0 < P) (i j k : ℕ) : i*P ≤ k*P ∧ k*P < j*P+P ↔ i ≤ k ∧ k ≤ j := by
  rw [← Nat.succ_mul,Nat.mul_le_mul_right_iff hP,Nat.mul_lt_mul_right hP,Nat.lt_succ_iff]

structure Held.Valid (P : ℕ) (h : Held) : Prop where
  nonempty : 0 < h.length
  lock : h.lock = ⟨h.address/P*P,(h.address+(h.length-1))/P*P,P⟩

theorem Held.Valid.mem_pages {h : Held} (hv : h.Valid P) (hP : 0 < P) :
    page ∈ h.lock.pages ↔ P ∣ page ∧ h.Touches page := by
  have hn := hv.nonempty
  have htouch : ∀ k, h.address/P ≤ k ∧ k ≤ (h.address+(h.length-1))/P ↔ h.Touches (k*P) := by
    intro k
    simp only [Held.Touches,hv.lock]
    rw [Nat.le_div_iff_mul_le hP,← Nat.lt_succ_iff,Nat.div_lt_iff_lt_mul hP,Nat.succ_mul]
    omega
  rw [hv.lock,Pages.mem_pages hP (Nat.le_add_right _ _)]
  constructor
  · rintro ⟨k,hak,hkb,rfl⟩
    exact ⟨Nat.dvd_mul_left P k,(htouch k).mp ⟨hak,hkb⟩⟩
  · rintro ⟨⟨k,rfl⟩,ht⟩
    rw [Nat.mul_comm] at ht
    exact ⟨k,((htouch k).mpr ht).1,((htouch k).mpr ht).2,Nat.mul_comm k P⟩

end Pages

section Counts

variable {m : Machine} {pages : List ℕ}

def Machine.Tight (P : ℕ) (m : Machine) : Prop := ∀ q, P ∣ q → (m.locked q ↔ q ∈ m.references)

theorem register_all :
    pages.foldl Machine.register m = { m with references := (pages : Multiset ℕ)+m.references } := by
  induction pages generalizing m with
  | nil => simp
  | cons page pages ih =>
    rw [List.foldl_cons,ih,Machine.register,Multiset.add_cons,← Multiset.cons_coe,Multiset.cons_add]

/-- A page of a drop: one owner less, and unlocked with the last one. -/
theorem release_one (hP : 0 < P) (hpage : P ∣ page) {r : Multiset ℕ} (hr : m.references = page ::ₘ r)
    (ht : m.Tight P) : ∃ m', m.release P page = some m' ∧ m'.references = r ∧ m'.Tight P := by
  have hmem : ∀ q, P ∣ q → (m.locked q ↔ q = page ∨ q ∈ r) := fun q hq => by
    rw [ht q hq,hr,Multiset.mem_cons]
  have hthere : ¬ page ∉ page ::ₘ r := not_not.mpr (Multiset.mem_cons_self page r)
  simp only [Machine.release,hr,Multiset.erase_cons_head,if_neg hthere]
  by_cases hlast : r.count page = 0
  · rw [if_pos hlast]
    refine ⟨_,rfl,rfl,fun q hq => ?_⟩
    have hsame : page ≤ q ∧ q < page+P ↔ q = page := by
      obtain ⟨i,rfl⟩ := hpage
      obtain ⟨k,rfl⟩ := hq
      rw [Nat.mul_comm P i,Nat.mul_comm P k,between_iff hP,Nat.mul_left_inj hP.ne']
      omega
    simp only [Machine.munlock,Bool.and_eq_true,Bool.not_eq_true',← Bool.not_eq_true,decide_eq_true_eq,hsame,
      hmem q hq]
    have hne : q ∈ r → q ≠ page := fun hqr h => Multiset.count_eq_zero.mp hlast (h ▸ hqr)
    tauto
  · rw [if_neg hlast]
    refine ⟨_,rfl,rfl,fun q hq => (hmem q hq).trans (or_iff_right_of_imp ?_)⟩
    rintro rfl
    exact Multiset.count_pos.mp (Nat.pos_of_ne_zero hlast)

theorem release_all (hP : 0 < P) (hp : ∀ q ∈ pages, P ∣ q) {r : Multiset ℕ} (hr : m.references = pages+r)
    (ht : m.Tight P) : ∃ m', pages.foldlM (Machine.release P) m = some m' ∧ m'.references = r ∧ m'.Tight P := by
  induction pages generalizing m with
  | nil => exact ⟨m,rfl,by simpa using hr,ht⟩
  | cons page pages ih =>
    rw [← Multiset.cons_coe,Multiset.cons_add] at hr
    obtain ⟨m₁,hm₁,hr₁,ht₁⟩ := release_one hP (hp page List.mem_cons_self) hr ht
    obtain ⟨m',hm',h'⟩ := ih (fun q hq => hp q (List.mem_cons_of_mem _ hq)) hr₁ ht₁
    exact ⟨m',by simp [List.foldlM_cons,hm₁,hm'],h'⟩

/-- What `lock_pages` does: nothing, or one more owner for each page of the lock, all of them locked. -/
theorem lockPages_cases (hP : 0 < P) {address length : ℕ} {ok : Bool}
    (hfits : (Event.lock address length ok).Fits P) (ht : m.Tight P) :
    lockPages P address length ok m = (none,m) ∨ ∃ lock m', lockPages P address length ok m = (some lock,m') ∧
      (Held.mk address length lock).Valid P ∧ m'.references = lock.pages+m.references ∧ m'.Tight P := by
  unfold lockPages
  by_cases hno : length = 0 ∨ P = 0 ∨ 2^64 ≤ address+(length-1)
  · exact .inl (if_pos hno)
  cases ok with
  | false => exact .inl (if_neg hno)
  | true =>
    simp only [if_neg hno,if_true,Nat.mod_eq_of_lt hfits,register_all]
    refine .inr ⟨_,_,rfl,⟨Nat.pos_of_ne_zero fun h0 => hno (.inl h0),rfl⟩,rfl,?_⟩
    intro q hq
    have hle : address/P*P ≤ (address+(length-1))/P*P :=
      Nat.mul_le_mul_right P (Nat.div_le_div_right (Nat.le_add_right _ _))
    have hmem : q ∈ (PageLock.mk (address/P*P) ((address+(length-1))/P*P) P).pages ↔
        address/P*P ≤ q ∧ q < (address+(length-1))/P*P+P := by
      obtain ⟨k,rfl⟩ := hq
      rw [mem_pages hP (Nat.le_add_right _ _),Nat.mul_comm P k,between_iff hP]
      simp [hP.ne']
    rw [Multiset.mem_add,Multiset.mem_coe,hmem]
    simp only [Machine.mlock,Bool.or_eq_true,Bool.and_eq_true,decide_eq_true_eq,ht q hq,or_comm,
      show address/P*P+((address+(length-1))/P*P-address/P*P+P) = (address+(length-1))/P*P+P by omega]

end Counts

section Run

variable {w : World}

structure World.Inv (P : ℕ) (w : World) : Prop where
  held : ∀ h ∈ w.live, h.Valid P
  counts : w.machine.references = w.live.flatMap fun h => h.lock.pages
  tight : w.machine.Tight P

theorem World.Inv.lock (h : w.Inv P) (hP : 0 < P) {address length : ℕ} {ok : Bool}
    (hfits : (Event.lock address length ok).Fits P) :
    ∃ w', w.step P (.lock address length ok) = some w' ∧ w'.Inv P := by
  rcases lockPages_cases hP hfits h.tight with hno | ⟨lock,m,hm,hvalid,hrefs,htight⟩
  · exact ⟨w,by simp only [World.step,hno],h⟩
  · refine ⟨⟨m,⟨address,length,lock⟩::w.live⟩,by simp only [World.step,hm],⟨?_,?_,htight⟩⟩
    · exact List.forall_mem_cons.mpr ⟨hvalid,h.held⟩
    · rw [hrefs,h.counts,List.flatMap_cons,Multiset.coe_add]

theorem World.Inv.drop (h : w.Inv P) (hP : 0 < P) (i : ℕ) :
    ∃ w', w.step P (.drop i) = some w' ∧ w'.Inv P ∧ w'.live = w.live.eraseIdx i := by
  simp only [World.step]
  cases hi : w.live[i]? with
  | none => exact ⟨w,rfl,h,(List.eraseIdx_of_length_le (List.getElem?_eq_none_iff.mp hi)).symm⟩
  | some x =>
    obtain ⟨hlt,hx⟩ := List.getElem?_eq_some_iff.mp hi
    have hvalid := h.held x (List.mem_of_getElem? hi)
    have hrefs : w.machine.references =
        x.lock.pages+((w.live.eraseIdx i).flatMap fun h => h.lock.pages : List ℕ) := by
      rw [h.counts,Multiset.coe_add,Multiset.coe_eq_coe,← hx]
      exact ((List.getElem_cons_eraseIdx_perm hlt).flatMap_right _).symm
    obtain ⟨m,hm,hrefs',htight⟩ := release_all hP (fun page hp => ((hvalid.mem_pages hP).mp hp).1) hrefs h.tight
    exact ⟨⟨m,w.live.eraseIdx i⟩,by simp [PageLock.drop,show x.lock.pageSize = P by rw [hvalid.lock],hm],
      ⟨fun y hy => h.held y (List.mem_of_mem_eraseIdx hy),hrefs',htight⟩,rfl⟩

theorem World.inv_run (hP : 0 < P) {events : List Event} (hfits : ∀ e ∈ events, e.Fits P) :
    ∃ w, World.run P events = some w ∧ w.Inv P := by
  suffices hrun : ∀ w : World, w.Inv P → ∃ w', events.foldlM (World.step P) w = some w' ∧ w'.Inv P from
    hrun {} ⟨by simp,rfl,by simp [Machine.Tight]⟩
  induction events with
  | nil => exact fun w h => ⟨w,rfl,h⟩
  | cons e events ih =>
    intro w h
    have hstep : ∃ w', w.step P e = some w' ∧ w'.Inv P := by
      cases e with
      | lock address length ok => exact h.lock hP (hfits _ List.mem_cons_self)
      | drop i =>
        obtain ⟨w',hw',hinv,-⟩ := h.drop hP i
        exact ⟨w',hw',hinv⟩
    obtain ⟨w₁,hw₁,h₁⟩ := hstep
    obtain ⟨w',hw',h'⟩ := ih (fun e he => hfits e (List.mem_cons_of_mem _ he)) w₁ h₁
    exact ⟨w',by simp [List.foldlM_cons,hw₁,hw'],h'⟩

theorem count_flatMap_pages (hP : 0 < P) (hpage : P ∣ page) {live : List Held} (hv : ∀ h ∈ live, h.Valid P) :
    (live.flatMap fun h => h.lock.pages).count page = live.countP fun h => h.Touches page := by
  induction live with
  | nil => rfl
  | cons x live ih =>
    obtain ⟨hx,hv⟩ := List.forall_mem_cons.mp hv
    have hnodup : x.lock.pages.Nodup := hx.lock ▸ nodup_pages hP _ _
    rw [List.flatMap_cons,List.count_append,ih hv,List.countP_cons,hnodup.count,Nat.add_comm]
    simp [hx.mem_pages hP,hpage]

theorem World.Inv.locked_iff (h : w.Inv P) (hP : 0 < P) (hpage : P ∣ page) :
    w.machine.locked page ↔ ∃ h ∈ w.live, h.Touches page := by
  rw [h.tight page hpage,h.counts,Multiset.mem_coe,List.mem_flatMap]
  refine exists_congr fun x => and_congr_right fun hx => ?_
  rw [(h.held x hx).mem_pages hP,and_iff_right hpage]

/-- No run of locks and drops fails, the counts are the numbers of live locks over a page, and a page is
locked from its first lock to the drop of its last one. -/
theorem page_locks_counted (pageSize : ℕ) (hP : 0 < pageSize) (events : List Event)
    (hfits : ∀ e ∈ events, e.Fits pageSize) :
    ∃ w, World.run pageSize events = some w ∧
      (∀ page, pageSize ∣ page →
        w.machine.references.count page = (w.live.countP fun h => h.Touches page) ∧
        (w.machine.locked page ↔ ∃ h ∈ w.live, h.Touches page)) ∧
      ∀ i, ∃ w', w.step pageSize (.drop i) = some w' ∧ w'.live = w.live.eraseIdx i ∧ ∀ page, pageSize ∣ page →
        (w.machine.locked page ∧ ¬ w'.machine.locked page ↔
          (∃ h ∈ w.live, h.Touches page) ∧ ∀ h ∈ w'.live, ¬ h.Touches page) := by
  obtain ⟨w,hrun,h⟩ := World.inv_run hP hfits
  refine ⟨w,hrun,fun page hpage => ⟨?_,h.locked_iff hP hpage⟩,fun i => ?_⟩
  · rw [h.counts,Multiset.coe_count,count_flatMap_pages hP hpage h.held]
  · obtain ⟨w',hw',h',hlive⟩ := h.drop hP i
    refine ⟨w',hw',hlive,fun page hpage => ?_⟩
    rw [h.locked_iff hP hpage,h'.locked_iff hP hpage]
    simp only [not_exists,not_and]

/-- Two locks that share a page, and the drop of the older one. -/
theorem page_locks_counted_overlap : ∃ w, World.run 8 [.lock 3 10 true,.lock 12 2 true,.drop 1] = some w ∧
    w.machine.references.count 8 = w.live.countP fun h => h.Touches 8 := by
  obtain ⟨w,hrun,hcounts,-⟩ := page_locks_counted 8 (by decide) [.lock 3 10 true,.lock 12 2 true,.drop 1]
    (by simp [Event.Fits])
  exact ⟨w,hrun,(hcounts 8 (Nat.dvd_refl 8)).1⟩

/-- A range over all addresses wraps the length to zero, which locks no page. -/
theorem whole_range_locks_nothing : ∃ w, World.run (2^62) [.lock 0 (2^64-1) true] = some w ∧
    w.machine.references.count 0 = 1 ∧ w.machine.locked 0 = false ∧ ∃ h ∈ w.live, h.Touches 0 :=
  ⟨_,rfl,by decide,by decide,_,List.mem_cons_self,by decide⟩

end Run

end Maki.Pages
