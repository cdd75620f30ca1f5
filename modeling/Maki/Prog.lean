import Mathlib

/-! Programs that consult their environment. A program runs against a list of
decisions, one for each call it makes, and ends with a value, with an error or
because power was lost; the state reached so far is kept in every case. The
triples below carry one condition for each way of ending, so that what must hold
when the machine stops anywhere inside a program is part of its specification. -/
namespace Maki

/-- How a program ends. `lost` is the end of the machine, not an error value. -/
inductive Outcome (ε α : Type) where
  | ok (value : α)
  | err (error : ε)
  | lost
  deriving DecidableEq

/-- A program over decisions `φ` and state `σ`, with errors `ε` and results `α`. -/
def Prog (φ σ ε α : Type) : Type := List φ → σ → Outcome ε α × List φ × σ

namespace Prog

variable {φ σ τ ε δ α β : Type}

def pure (a : α) : Prog φ σ ε α := fun fs s => (.ok a,fs,s)

def bind (p : Prog φ σ ε α) (f : α → Prog φ σ ε β) : Prog φ σ ε β := fun fs s =>
  match p fs s with
  | (.ok a,fs',s') => f a fs' s'
  | (.err e,fs',s') => (.err e,fs',s')
  | (.lost,fs',s') => (.lost,fs',s')

instance : Monad (Prog φ σ ε) where
  pure := pure
  bind := bind

def throw (e : ε) : Prog φ σ ε α := fun fs s => (.err e,fs,s)

def get : Prog φ σ ε σ := fun fs s => (.ok s,fs,s)

def modify (f : σ → σ) : Prog φ σ ε Unit := fun fs s => (.ok (),fs,f s)

/-- One call: it takes the next decision, or the default one when none is left. -/
def call [Inhabited φ] (f : φ → σ → Outcome ε α × σ) : Prog φ σ ε α := fun fs s =>
  let r := f (fs.headD default) s
  (r.1,fs.tail,r.2)

/-- Turn an error into a value; a lost machine stays lost. -/
def attempt (p : Prog φ σ ε α) : Prog φ σ δ (Except ε α) := fun fs s =>
  match p fs s with
  | (.ok a,fs',s') => (.ok (.ok a),fs',s')
  | (.err e,fs',s') => (.ok (.error e),fs',s')
  | (.lost,fs',s') => (.lost,fs',s')

def mapErr (g : ε → δ) (p : Prog φ σ ε α) : Prog φ σ δ α := fun fs s =>
  match p fs s with
  | (.ok a,fs',s') => (.ok a,fs',s')
  | (.err e,fs',s') => (.err (g e),fs',s')
  | (.lost,fs',s') => (.lost,fs',s')

/-- Change the state when the program fails, and fail all the same. -/
def onError (p : Prog φ σ ε α) (f : σ → σ) : Prog φ σ ε α := fun fs s =>
  match p fs s with
  | (.ok a,fs',s') => (.ok a,fs',s')
  | (.err e,fs',s') => (.err e,fs',f s')
  | (.lost,fs',s') => (.lost,fs',s')

def ofExcept : Except ε α → Prog φ σ ε α
  | .ok a => pure a
  | .error e => throw e

/-- Run a program of a component on the state that holds the component. -/
def zoom (view : τ → σ) (update : τ → σ → τ) (p : Prog φ σ ε α) : Prog φ τ ε α := fun fs t =>
  match p fs (view t) with
  | (o,fs',s') => (o,fs',update t s')

def when (c : Bool) (p : Prog φ σ ε Unit) : Prog φ σ ε Unit := if c then p else pure ()

def forEach : List β → (β → Prog φ σ ε Unit) → Prog φ σ ε Unit
  | [], _ => pure ()
  | x::xs, f => bind (f x) fun _ => forEach xs f

def traverse : List β → (β → Prog φ σ ε α) → Prog φ σ ε (List α)
  | [], _ => pure []
  | x::xs, f => bind (f x) fun a => bind (traverse xs f) fun as => pure (a::as)

variable {p : Prog φ σ ε α} {f : α → Prog φ σ ε β} {s : σ} {a : α} {ok : α → σ → Prop}

theorem bind_of_ok {fs fs' : List φ} {s' : σ}
    (h : p fs s = (.ok a,fs',s')) : bind p f fs s = f a fs' s' := by simp only [bind,h]

theorem mapErr_of_ok {g : ε → δ} {fs fs' : List φ} {s' : σ}
    (h : p fs s = (.ok a,fs',s')) : mapErr g p fs s = (.ok a,fs',s') := by simp only [mapErr,h]

theorem eq_of_outcome {γ ω : Type} (p : α × β × γ × ω) (h : p.1 = a) :
    p = (a,p.2.1,p.2.2.1,p.2.2.2) := by
  subst h
  rfl

/-- From every state satisfying `pre`, and whatever the environment decides, the
program ends in a state satisfying the condition for its way of ending. -/
def Triple (pre : σ → Prop) (p : Prog φ σ ε α) (ok : α → σ → Prop)
    (err : ε → σ → Prop) (lost : σ → Prop) : Prop :=
  ∀ fs s, pre s →
    match p fs s with
    | (.ok a,_,s') => ok a s'
    | (.err e,_,s') => err e s'
    | (.lost,_,s') => lost s'

/-- A triple with one condition for the two bad ends. -/
abbrev Ends (pre : σ → Prop) (p : Prog φ σ ε α) (ok : α → σ → Prop) (bad : σ → Prop) : Prop :=
  Triple pre p ok (fun _ => bad) bad

/-- A triple that asks nothing of a lost machine. -/
abbrev Answers (pre : σ → Prop) (p : Prog φ σ ε α) (ok : α → σ → Prop) (err : ε → σ → Prop) : Prop :=
  Triple pre p ok err fun _ => True

/-- A call that leaves `post` however it answers. -/
abbrev Leaves (pre : σ → Prop) (p : Prog φ σ ε α) (post : σ → Prop) : Prop :=
  Answers pre p (fun _ => post) fun _ => post

variable {pre : σ → Prop} {err : ε → σ → Prop} {lost : σ → Prop}

theorem Triple.conseq {pre' : σ → Prop} {ok' : α → σ → Prop} {err' : ε → σ → Prop}
    {lost' : σ → Prop} (h : Triple pre' p ok' err' lost')
    (hpre : ∀ s, pre s → pre' s) (hok : ∀ a s, ok' a s → ok a s)
    (herr : ∀ e s, err' e s → err e s) (hlost : ∀ s, lost' s → lost s) :
    Triple pre p ok err lost := by
  intro fs s hs
  have hp := h fs s (hpre s hs)
  rcases hr : p fs s with ⟨o,fs',s'⟩
  rw [hr] at hp
  cases o with
  | ok a => exact hok a s' hp
  | err e => exact herr e s' hp
  | lost => exact hlost s' hp

section Weaken

variable {ok ok' : α → σ → Prop} {err' : ε → σ → Prop} {lost' : σ → Prop} {p : Prog φ σ ε α}

variable (h : Triple pre p ok err lost)

include h

theorem Triple.weaken (hok : ∀ a s, ok a s → ok' a s)
    (herr : ∀ e s, err e s → err' e s) (hlost : ∀ s, lost s → lost' s) : Triple pre p ok' err' lost' :=
  h.conseq (fun _ hs => hs) hok herr hlost

theorem Triple.weakenOk (hok : ∀ a s, ok a s → ok' a s) :
    Triple pre p ok' err lost := h.weaken hok (fun _ _ hs => hs) fun _ hs => hs

theorem Triple.weakenErr (herr : ∀ e s, err e s → err' e s) :
    Triple pre p ok err' lost := h.weaken (fun _ _ hs => hs) herr fun _ hs => hs

theorem Triple.weakenLost (hlost : ∀ s, lost s → lost' s) :
    Triple pre p ok err lost' := h.weaken (fun _ _ hs => hs) (fun _ _ hs => hs) hlost

theorem Triple.strengthen {pre' : σ → Prop} (hpre : ∀ s, pre' s → pre s) : Triple pre' p ok err lost :=
  h.conseq hpre (fun _ _ hs => hs) (fun _ _ hs => hs) fun _ hs => hs

end Weaken

/-- A triple may be proved from one starting state at a time. -/
theorem Triple.ofEach
    (h : ∀ s, pre s → Triple (· = s) p ok err lost) : Triple pre p ok err lost :=
  fun fs s hs => h s hs fs s rfl

theorem Triple.any (pre : σ → Prop) (p : Prog φ σ ε α) :
    Triple pre p (fun _ _ => True) (fun _ _ => True) fun _ => True := by
  intro fs s _
  rcases p fs s with ⟨o,fs',s'⟩
  cases o <;> trivial

theorem Triple.and {pre₁ pre₂ : σ → Prop} {ok₁ ok₂ : α → σ → Prop} {err₁ err₂ : ε → σ → Prop}
    {lost₁ lost₂ : σ → Prop} (h₁ : Triple pre₁ p ok₁ err₁ lost₁)
    (h₂ : Triple pre₂ p ok₂ err₂ lost₂) :
    Triple (fun s => pre₁ s ∧ pre₂ s) p (fun a s => ok₁ a s ∧ ok₂ a s)
      (fun e s => err₁ e s ∧ err₂ e s) (fun s => lost₁ s ∧ lost₂ s) := by
  intro fs s hs
  have hp₁ := h₁ fs s hs.1
  have hp₂ := h₂ fs s hs.2
  rcases hr : p fs s with ⟨o,fs',s'⟩
  rw [hr] at hp₁ hp₂
  cases o <;> exact ⟨hp₁,hp₂⟩

/-- A fact that is not about the state stays beside a specification. -/
theorem Triple.fact {Q : Prop} (h : Triple pre p ok err lost) :
    Triple (fun s => pre s ∧ Q) p (fun a s => ok a s ∧ Q) err lost := by
  intro fs s hs
  have hp := h fs s hs.1
  rcases hr : p fs s with ⟨o,fs',s'⟩
  rw [hr] at hp
  cases o with
  | ok a => exact ⟨hp,hs.2⟩
  | err e => exact hp
  | lost => exact hp

theorem Triple.pure (h : ∀ s, pre s → ok a s) :
    Triple pre (Prog.pure a : Prog φ σ ε α) ok err lost := fun _ s hs => h s hs

theorem Triple.throw {e : ε} (h : ∀ s, pre s → err e s) :
    Triple pre (Prog.throw e : Prog φ σ ε α) ok err lost := fun _ s hs => h s hs

theorem Triple.bind {mid : α → σ → Prop} {ok : β → σ → Prop}
    (hp : Triple pre p mid err lost)
    (hf : ∀ a, Triple (mid a) (f a) ok err lost) : Triple pre (Prog.bind p f) ok err lost := by
  intro fs s hs
  have h := hp fs s hs
  unfold Prog.bind
  rcases hr : p fs s with ⟨o,fs',s'⟩
  rw [hr] at h
  cases o with
  | ok a => exact hf a fs' s' h
  | err e => exact h
  | lost => exact h

theorem Triple.get_bind {ok : β → σ → Prop} {f : σ → Prog φ σ ε β}
    (h : Triple (· = s) (f s) ok err lost) :
    Triple (· = s) (Prog.bind Prog.get f) ok err lost := by
  rintro fs _ rfl
  exact h fs _ rfl

theorem Triple.modify {ok : Unit → σ → Prop} {f : σ → σ} (h : ∀ s, pre s → ok () (f s)) :
    Triple pre (Prog.modify f : Prog φ σ ε Unit) ok err lost := fun _ s hs => h s hs

/-- The rule every call of the environment instantiates: one case a decision. -/
theorem Triple.call [Inhabited φ] {f : φ → σ → Outcome ε α × σ}
    (h : ∀ d s, pre s →
      match f d s with
      | (.ok a,s') => ok a s'
      | (.err e,s') => err e s'
      | (.lost,s') => lost s') : Triple pre (Prog.call f) ok err lost := by
  intro fs s hs
  have hd := h (fs.headD default) s hs
  simp only [Prog.call]
  rcases hr : f (fs.headD default) s with ⟨o,s'⟩
  rw [hr] at hd
  cases o <;> exact hd

theorem Triple.attempt {ok : Except ε α → σ → Prop} {err' : δ → σ → Prop}
    (h : Triple pre p (fun a => ok (.ok a)) (fun e => ok (.error e)) lost) :
    Triple pre (Prog.attempt p) ok err' lost := by
  intro fs s hs
  have hp := h fs s hs
  simp only [Prog.attempt]
  rcases hr : p fs s with ⟨o,fs',s'⟩
  rw [hr] at hp
  cases o <;> exact hp

theorem Triple.mapErr {g : ε → δ} {err' : δ → σ → Prop}
    (h : Triple pre p ok (fun e => err' (g e)) lost) :
    Triple pre (Prog.mapErr g p) ok err' lost := by
  intro fs s hs
  have hp := h fs s hs
  simp only [Prog.mapErr]
  rcases hr : p fs s with ⟨o,fs',s'⟩
  rw [hr] at hp
  cases o <;> exact hp

theorem Triple.onError {f : σ → σ}
    (h : Triple pre p ok (fun e s => err e (f s)) lost) :
    Triple pre (Prog.onError p f) ok err lost := by
  intro fs s hs
  have hp := h fs s hs
  simp only [Prog.onError]
  rcases hr : p fs s with ⟨o,fs',s'⟩
  rw [hr] at hp
  cases o <;> exact hp

theorem Triple.ofExcept {x : Except ε α}
    (hok : ∀ a s, x = .ok a → pre s → ok a s) (herr : ∀ e s, x = .error e → pre s → err e s) :
    Triple pre (Prog.ofExcept x : Prog φ σ ε α) ok err lost := by
  intro _ s hs
  cases x with
  | ok a => exact hok a s rfl hs
  | error e => exact herr e s rfl hs

theorem Triple.ofExcept_bind {ok : β → σ → Prop} {x : Except ε α}
    (hok : ∀ a, x = .ok a → Triple pre (f a) ok err lost)
    (herr : ∀ e s, x = .error e → pre s → err e s) :
    Triple pre (Prog.bind (Prog.ofExcept x) f) ok err lost := by
  intro fs s hs
  cases x with
  | ok a => exact hok a rfl fs s hs
  | error e => exact herr e s rfl hs

/-- A component's program keeps its own specification inside the larger state. -/
theorem Triple.zoom {view : τ → σ} {update : τ → σ → τ} {pre : τ → Prop} {ok : α → τ → Prop}
    {err : ε → τ → Prop} {lost : τ → Prop}
    (h : ∀ t, pre t → Triple (· = view t) p (fun a s => ok a (update t s))
      (fun e s => err e (update t s)) (fun s => lost (update t s))) :
    Triple pre (Prog.zoom view update p) ok err lost := by
  intro fs t ht
  have hp := h t ht fs (view t) rfl
  simp only [Prog.zoom]
  rcases hr : p fs (view t) with ⟨o,fs',s'⟩
  rw [hr] at hp
  cases o <;> exact hp

/-- What every step says of its own result holds of all results. -/
theorem Triple.traverse {J : σ → Prop} {R : β → α → Prop} {f : β → Prog φ σ ε α} {xs : List β}
    (h : ∀ x ∈ xs, Triple J (f x) (fun a s => J s ∧ R x a) err lost) :
    Triple J (Prog.traverse xs f) (fun as s => J s ∧ List.Forall₂ R xs as) err lost := by
  induction xs with
  | nil => exact Triple.pure fun _ hs => ⟨hs,.nil⟩
  | cons x xs ih =>
    refine Triple.bind (h x (by simp)) fun a => ?_
    rintro fs s ⟨hs,ha⟩
    refine Triple.bind (ih fun y hy => h y (by simp [hy])) (fun as => ?_) fs s hs
    exact Triple.pure fun _ hr => ⟨hr.1,.cons ha hr.2⟩

theorem Triple.when {ok : Unit → σ → Prop} {c : Bool} {p : Prog φ σ ε Unit}
    (hrun : c = true → Triple pre p ok err lost) (hskip : ∀ s, c = false → pre s → ok () s) :
    Triple pre (Prog.when c p) ok err lost := by
  cases c with
  | true => exact hrun rfl
  | false => exact Triple.pure fun s hs => hskip s rfl hs

/-- The program keeps `J`, however it ends. -/
def Keeps (J : σ → Prop) (p : Prog φ σ ε α) : Prop := Triple J p (fun _ => J) (fun _ => J) J

namespace Keeps

variable {J : σ → Prop}

theorem pure (a : α) : Keeps J (Prog.pure a : Prog φ σ ε α) := Triple.pure fun _ hs => hs

theorem throw (e : ε) : Keeps J (Prog.throw e : Prog φ σ ε α) := Triple.throw fun _ hs => hs

theorem const (c : Prop) (p : Prog φ σ ε α) : Keeps (fun _ => c) p := by
  intro fs s hc
  rcases p fs s with ⟨o,fs',s'⟩
  cases o <;> exact hc

variable {p : Prog φ σ ε α}

theorem bind {f : α → Prog φ σ ε β} (hp : Keeps J p) (hf : ∀ a, Keeps J (f a)) :
    Keeps J (Prog.bind p f) := Triple.bind hp hf

theorem after {f : α → Prog φ σ ε β}
    (hp : Ends pre p (fun _ => J) J) (hf : ∀ a, Keeps J (f a)) :
    Ends pre (Prog.bind p f) (fun _ => J) J := Triple.bind hp hf

theorem get_bind {f : σ → Prog φ σ ε β}
    (h : ∀ s, J s → Triple (· = s) (f s) (fun _ => J) (fun _ => J) J) :
    Keeps J (Prog.bind Prog.get f) := Triple.ofEach fun s hs => Triple.get_bind (h s hs)

theorem from_state {s : σ} (h : Keeps J p) (hs : J s) :
    Triple (· = s) p (fun _ => J) (fun _ => J) J :=
  Triple.strengthen h (fun _ ht => ht ▸ hs)

theorem modify {f : σ → σ} (h : ∀ s, J s → J (f s)) : Keeps J (Prog.modify f : Prog φ σ ε Unit) :=
  Triple.modify h

theorem ofExcept (x : Except ε α) : Keeps J (Prog.ofExcept x : Prog φ σ ε α) :=
  Triple.ofExcept (fun _ _ _ hs => hs) fun _ _ _ hs => hs

theorem when {c : Bool} {p : Prog φ σ ε Unit} (h : Keeps J p) : Keeps J (Prog.when c p) :=
  Triple.when (fun _ => h) fun _ _ hs => hs

theorem forEach {f : β → Prog φ σ ε Unit} {xs : List β} (h : ∀ x ∈ xs, Keeps J (f x)) :
    Keeps J (Prog.forEach xs f) := by
  induction xs with
  | nil => exact .pure ()
  | cons x xs ih => exact (h x (by simp)).bind fun _ => ih fun y hy => h y (by simp [hy])

theorem zoom {K : τ → Prop} {view : τ → σ} {update : τ → σ → τ}
    (h : ∀ t, K t → Triple (· = view t) p (fun _ s => K (update t s))
      (fun _ s => K (update t s)) fun s => K (update t s)) : Keeps K (Prog.zoom view update p) :=
  Triple.zoom h

theorem attempt (h : Keeps J p) :
    Keeps J (Prog.attempt p : Prog φ σ δ (Except ε α)) := Triple.attempt h

theorem mapErr (h : Keeps J p) (g : ε → δ) : Keeps J (Prog.mapErr g p) :=
  Triple.mapErr h

theorem onError {f : σ → σ} (h : Keeps J p) (hf : ∀ s, J s → J (f s)) :
    Keeps J (Prog.onError p f) :=
  Triple.onError (Triple.weakenErr h (fun _ s hs => hf s hs))

end Keeps

/-- The program keeps `J` as long as it runs: nothing is asked of a state that is lost. -/
def Runs (J : σ → Prop) (p : Prog φ σ ε α) : Prop :=
  Triple J p (fun _ => J) (fun _ => J) fun _ => True

namespace Runs

variable {J : σ → Prop}

variable {p : Prog φ σ ε α}

theorem ofKeeps (h : Keeps J p) : Runs J p :=
  Triple.weakenLost h fun _ _ => trivial

theorem pure (a : α) : Runs J (Prog.pure a : Prog φ σ ε α) := ofKeeps (.pure a)

theorem throw (e : ε) : Runs J (Prog.throw e : Prog φ σ ε α) := ofKeeps (.throw e)

theorem ofExcept (x : Except ε α) : Runs J (Prog.ofExcept x : Prog φ σ ε α) := ofKeeps (.ofExcept x)

theorem modify {f : σ → σ} (h : ∀ s, J s → J (f s)) : Runs J (Prog.modify f : Prog φ σ ε Unit) :=
  Triple.modify h

theorem bind {f : α → Prog φ σ ε β} (hp : Runs J p) (hf : ∀ a, Runs J (f a)) :
    Runs J (Prog.bind p f) := Triple.bind hp hf

theorem after {f : α → Prog φ σ ε β}
    (hp : Leaves pre p J) (hf : ∀ a, Runs J (f a)) : Leaves pre (Prog.bind p f) J := Triple.bind hp hf

theorem get_bind {f : σ → Prog φ σ ε β}
    (h : ∀ s, J s → Leaves (· = s) (f s) J) :
    Runs J (Prog.bind Prog.get f) := Triple.ofEach fun s hs => Triple.get_bind (h s hs)

theorem from_state {s : σ} (h : Runs J p) (hs : J s) : Leaves (· = s) p J :=
  Triple.strengthen h (fun _ ht => ht ▸ hs)

theorem when {c : Bool} {p : Prog φ σ ε Unit} (h : Runs J p) : Runs J (Prog.when c p) :=
  Triple.when (fun _ => h) fun _ _ hs => hs

theorem forEach {f : β → Prog φ σ ε Unit} {xs : List β} (h : ∀ x ∈ xs, Runs J (f x)) :
    Runs J (Prog.forEach xs f) := by
  induction xs with
  | nil => exact .pure ()
  | cons x xs ih => exact (h x (by simp)).bind fun _ => ih fun y hy => h y (by simp [hy])

theorem attempt (h : Runs J p) :
    Runs J (Prog.attempt p : Prog φ σ δ (Except ε α)) := Triple.attempt h

end Runs

/-- What holds when the program returns a value; an error or a lost machine may leave anything. -/
abbrev Returns (pre : σ → Prop) (p : Prog φ σ ε α) (ok : α → σ → Prop) : Prop :=
  Triple pre p ok (fun _ _ => True) fun _ => True

namespace Returns

variable {ok : α → σ → Prop}

variable {p : Prog φ σ ε α}

theorem ofTriple (h : Triple pre p ok err lost) : Returns pre p ok :=
  h.weaken (fun _ _ hs => hs) (fun _ _ _ => trivial) fun _ _ => trivial

theorem conseq {pre' : σ → Prop} {ok' : α → σ → Prop} (h : Returns pre' p ok')
    (hpre : ∀ s, pre s → pre' s) (hok : ∀ a s, ok' a s → ok a s) : Returns pre p ok :=
  Triple.conseq h hpre hok (fun _ _ hs => hs) fun _ hs => hs

theorem throw (e : ε) : Returns pre (Prog.throw e : Prog φ σ ε α) ok := Triple.throw fun _ _ => trivial

theorem bind {mid : α → σ → Prop} {ok : β → σ → Prop} {f : α → Prog φ σ ε β}
    (hp : Returns pre p mid) (hf : ∀ a, Returns (mid a) (f a) ok) : Returns pre (Prog.bind p f) ok :=
  Triple.bind hp hf

theorem forEach {J : σ → Prop} {f : β → Prog φ σ ε Unit} {xs : List β}
    (h : ∀ x ∈ xs, Returns J (f x) fun _ => J) : Returns J (Prog.forEach xs f) fun _ => J := by
  induction xs with
  | nil => exact Triple.pure fun _ hs => hs
  | cons x xs ih => exact (h x (by simp)).bind fun _ => ih fun y hy => h y (by simp [hy])

theorem result (h : Returns pre p ok) {fs fs' : List φ} {s s' : σ} {a : α}
    (hs : pre s) (hr : p fs s = (.ok a,fs',s')) : ok a s' := by
  have hp := h fs s hs
  rwa [hr] at hp

end Returns

end Prog
end Maki
