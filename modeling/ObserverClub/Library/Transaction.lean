import Mathlib.Data.Option.Basic

/-!
Work on a store inside transactions: a write opens one, and it stays open until a commit, also where the
write or what comes after it fails.
-/

namespace Library

theorem bind_eq_ok {ε α β : Type} {x : Except ε α} {f : α → Except ε β} {b : β} :
    (x >>= f) = .ok b ↔ ∃ a, x = .ok a ∧ f a = .ok b := by
  cases x with
  | error e =>
    constructor
    · intro h
      cases h
    · rintro ⟨a, h, -⟩
      cases h
  | ok a =>
    constructor
    · intro h
      exact ⟨a, rfl, h⟩
    · rintro ⟨a', h, hf⟩
      cases h
      exact hf

theorem guarded_eq_some {ε α : Type} {p : Prop} [Decidable p] {x : Except ε (Option α)} {a : α} :
    (if p then pure none else x) = .ok (some a) ↔ ¬p ∧ x = .ok (some a) := by
  split
  next h =>
    constructor
    · intro hx
      cases hx
    · rintro ⟨hp, -⟩
      exact absurd h hp
  next h => simp [h]

structure Session (σ : Type) where
  committed : σ
  pending : Option σ
  deriving DecidableEq

namespace Session

variable {σ : Type}

def view (s : Session σ) : σ := s.pending.getD s.committed

/-- No transaction is open. -/
def Idle (s : Session σ) : Prop := s.pending = none

def opened (s : Session σ) (v : σ) : Session σ := ⟨s.committed, some v⟩

@[simp] theorem view_opened (s : Session σ) (v : σ) : (s.opened v).view = v := rfl

@[simp] theorem view_closed (v : σ) : (Session.mk v none).view = v := rfl

theorem not_idle_opened (s : Session σ) (v : σ) : ¬(s.opened v).Idle := by simp [Idle, opened]

theorem view_of_idle {s : Session σ} (h : s.Idle) : s.view = s.committed := by
  rw [Idle] at h
  rw [view, h, Option.getD_none]

end Session

/-- A computation on a session; where it fails, the session stays as it has become. -/
def Txn (ε σ α : Type) : Type := Session σ → Except ε α × Session σ

namespace Txn

variable {ε σ α β : Type}

instance : Monad (Txn ε σ) where
  pure x := fun s => (.ok x, s)
  bind x f := fun s =>
    match x s with
    | (.ok a, t) => f a t
    | (.error e, t) => (.error e, t)

def lift (x : Except ε α) : Txn ε σ α := fun s => (x, s)

def read : Txn ε σ σ := fun s => (.ok s.view, s)

/-- A statement that can fail, on a value it cannot take or on a constraint. -/
def attempt (f : σ → Except ε (α × σ)) : Txn ε σ α := fun s =>
  match f s.view with
  | .ok (a, v) => (.ok a, s.opened v)
  | .error e => (.error e, s.opened s.view)

def write (f : σ → σ) : Txn ε σ Unit := fun s => (.ok (), s.opened (f s.view))

def commit : Txn ε σ Unit := fun s => (.ok (), ⟨s.view, none⟩)

/-- `try`, with nothing for the errors that satisfy the test. -/
def trying (test : ε → Bool) (x : Txn ε σ α) : Txn ε σ (Option α) := fun s =>
  match x s with
  | (.ok a, t) => (.ok (some a), t)
  | (.error e, t) => if test e then (.ok none, t) else (.error e, t)

@[simp] theorem pure_run (x : α) (s : Session σ) : (pure x : Txn ε σ α) s = (.ok x, s) := rfl

theorem bind_run (x : Txn ε σ α) (f : α → Txn ε σ β) (s : Session σ) :
    (x >>= f) s = match x s with
      | (.ok a, t) => f a t
      | (.error e, t) => (.error e, t) := rfl

theorem bind_ok {x : Txn ε σ α} {f : α → Txn ε σ β} {s t : Session σ} {a : α} (h : x s = (.ok a, t)) :
    (x >>= f) s = f a t := by rw [bind_run, h]

theorem bind_error {x : Txn ε σ α} {f : α → Txn ε σ β} {s t : Session σ} {e : ε} (h : x s = (.error e, t)) :
    (x >>= f) s = (.error e, t) := by rw [bind_run, h]

@[simp] theorem read_bind (f : σ → Txn ε σ β) (s : Session σ) : (read >>= f) s = f s.view s := rfl

@[simp] theorem write_bind (g : σ → σ) (f : Unit → Txn ε σ β) (s : Session σ) :
    (write g >>= f) s = f () (s.opened (g s.view)) := rfl

@[simp] theorem commit_bind (f : Unit → Txn ε σ β) (s : Session σ) : (commit >>= f) s = f () ⟨s.view, none⟩ := rfl

@[simp] theorem write_run (g : σ → σ) (s : Session σ) :
    (write g : Txn ε σ Unit) s = (.ok (), s.opened (g s.view)) := rfl

theorem lift_bind (x : Except ε α) (f : α → Txn ε σ β) (s : Session σ) :
    (lift x >>= f) s = match x with
      | .ok a => f a s
      | .error e => (.error e, s) := by cases x <;> rfl

theorem attempt_ok {g : σ → Except ε (α × σ)} {s : Session σ} {a : α} {v : σ} (h : g s.view = .ok (a, v)) :
    attempt g s = (.ok a, s.opened v) := by rw [attempt, h]

theorem attempt_error {g : σ → Except ε (α × σ)} {s : Session σ} {e : ε} (h : g s.view = .error e) :
    attempt g s = (.error e, s.opened s.view) := by rw [attempt, h]

theorem bind_eq_ok {x : Txn ε σ α} {f : α → Txn ε σ β} {s u : Session σ} {b : β} :
    (x >>= f) s = (.ok b, u) ↔ ∃ a t, x s = (.ok a, t) ∧ f a t = (.ok b, u) := by
  rw [bind_run]
  constructor
  · intro h
    split at h
    next a t hx => exact ⟨a, t, hx, h⟩
    next => simp at h
  · rintro ⟨a, t, hx, h⟩
    rw [hx]
    exact h

theorem lift_eq_ok {x : Except ε α} {s t : Session σ} {a : α} : lift x s = (.ok a, t) ↔ x = .ok a ∧ t = s := by
  simp [lift, eq_comm]

theorem read_eq_ok {s t : Session σ} {v : σ} : (read : Txn ε σ σ) s = (.ok v, t) ↔ v = s.view ∧ t = s := by
  simp [read, eq_comm]

theorem pure_eq_ok {s t : Session σ} {a b : α} : (pure a : Txn ε σ α) s = (.ok b, t) ↔ b = a ∧ t = s := by
  simp [eq_comm]

theorem attempt_eq_ok {g : σ → Except ε (α × σ)} {s t : Session σ} {a : α} :
    attempt g s = (.ok a, t) ↔ ∃ v, g s.view = .ok (a, v) ∧ t = s.opened v := by
  rw [attempt]
  constructor
  · intro h
    split at h
    next b v hg =>
      cases h
      exact ⟨v, hg, rfl⟩
    next => simp at h
  · rintro ⟨v, hg, rfl⟩
    rw [hg]

theorem write_eq_ok {g : σ → σ} {s t : Session σ} {a : Unit} :
    (write g : Txn ε σ Unit) s = (.ok a, t) ↔ t = s.opened (g s.view) := by
  simp [eq_comm]

/-- What holds of what is committed and of what a reader sees goes on holding of both, whatever comes back. -/
def Keeps (I : σ → Prop) (x : Txn ε σ α) : Prop :=
  ∀ s : Session σ, I s.committed → I s.view → I (x s).2.committed ∧ I (x s).2.view

namespace Keeps

variable {I : σ → Prop}

theorem pure (a : α) : Keeps I (pure a : Txn ε σ α) := fun _ hc hv => ⟨hc, hv⟩

theorem lift (x : Except ε α) : Keeps I (lift x : Txn ε σ α) := fun _ hc hv => ⟨hc, hv⟩

theorem write {g : σ → σ} (hg : ∀ v, I v → I (g v)) : Keeps I (write g : Txn ε σ Unit) := fun _ hc hv => ⟨hc, hg _ hv⟩

theorem commit : Keeps I (commit : Txn ε σ Unit) := fun _ _ hv => ⟨hv, hv⟩

theorem attempt {g : σ → Except ε (α × σ)} (hg : ∀ v a w, I v → g v = .ok (a, w) → I w) : Keeps I (attempt g) := by
  intro s hc hv
  rw [Txn.attempt]
  split
  next a w h => exact ⟨hc, hg _ a w hv h⟩
  next => exact ⟨hc, hv⟩

theorem bind {x : Txn ε σ α} {f : α → Txn ε σ β} (hx : Keeps I x) (hf : ∀ a, Keeps I (f a)) : Keeps I (x >>= f) := by
  intro s hc hv
  obtain ⟨hc', hv'⟩ := hx s hc hv
  rw [bind_run]
  split
  next a t h =>
    rw [h] at hc' hv'
    exact hf a t hc' hv'
  next e t h =>
    rw [h] at hc' hv'
    exact ⟨hc', hv'⟩

theorem read_bind {f : σ → Txn ε σ β} (hf : ∀ v, Keeps I (f v)) : Keeps I (read >>= f) := fun s => hf s.view s

theorem ite {p : Prop} [Decidable p] {x y : Txn ε σ α} (hx : Keeps I x) (hy : Keeps I y) : Keeps I (if p then x else y) := by
  split
  · exact hx
  · exact hy

end Keeps

def Stays (x : Txn ε σ α) : Prop := ∀ c v, ∃ w, (x ⟨c, some v⟩).2 = ⟨c, some w⟩

namespace Stays

theorem pure (a : α) : Stays (pure a : Txn ε σ α) := fun _ v => ⟨v, rfl⟩

theorem lift (x : Except ε α) : Stays (lift x : Txn ε σ α) := fun _ v => ⟨v, rfl⟩

theorem read : Stays (read : Txn ε σ σ) := fun _ v => ⟨v, rfl⟩

theorem write (g : σ → σ) : Stays (write g : Txn ε σ Unit) := fun _ v => ⟨g v, rfl⟩

theorem attempt (g : σ → Except ε (α × σ)) : Stays (attempt g) := by
  intro c v
  rw [Txn.attempt]
  split
  next w _ => exact ⟨w, rfl⟩
  next => exact ⟨v, rfl⟩

theorem bind {x : Txn ε σ α} {f : α → Txn ε σ β} (hx : Stays x) (hf : ∀ a, Stays (f a)) : Stays (x >>= f) := by
  intro c v
  obtain ⟨w, hw⟩ := hx c v
  rw [bind_run]
  split
  next a t h =>
    rw [h] at hw
    cases hw
    exact hf a c w
  next e t h =>
    rw [h] at hw
    exact ⟨w, hw⟩

theorem ite {p : Prop} [Decidable p] {x y : Txn ε σ α} (hx : Stays x) (hy : Stays y) : Stays (if p then x else y) := by
  split
  · exact hx
  · exact hy

end Stays

/-- Inside an open transaction, what fails has changed nothing. -/
def Unspoilt (x : Txn ε σ α) : Prop := ∀ c v e u, x ⟨c, some v⟩ = (.error e, u) → u = ⟨c, some v⟩

namespace Unspoilt

theorem of_ok {x : Txn ε σ α} (h : ∀ s, ∃ a, (x s).1 = .ok a) : Unspoilt x := by
  intro c v e u hx
  obtain ⟨a, ha⟩ := h ⟨c, some v⟩
  rw [hx] at ha
  cases ha

theorem attempt (g : σ → Except ε (α × σ)) : Unspoilt (attempt g) := by
  intro c v e u h
  rw [Txn.attempt] at h
  split at h
  next => cases h
  next =>
    cases h
    rfl

theorem lift_bind {x : Except ε α} {f : α → Txn ε σ β} (h : ∀ a, x = .ok a → Unspoilt (f a)) : Unspoilt (lift x >>= f) := by
  intro c v e u hx
  rw [Txn.lift_bind] at hx
  cases x with
  | error _ =>
    cases hx
    rfl
  | ok a => exact h a rfl c v e u hx

theorem attempt_bind {g : σ → Except ε (α × σ)} {f : α → Txn ε σ β}
    (h : ∀ v a w, g v = .ok (a, w) → ∀ c, ∃ b, (f a ⟨c, some w⟩).1 = .ok b) : Unspoilt (Txn.attempt g >>= f) := by
  intro c v e u hx
  rw [bind_run] at hx
  cases hg : g v with
  | error _ =>
    rw [attempt_error (s := ⟨c, some v⟩) hg] at hx
    cases hx
    rfl
  | ok p =>
    obtain ⟨a, w⟩ := p
    rw [attempt_ok (s := ⟨c, some v⟩) hg] at hx
    obtain ⟨b, hb⟩ := h v a w hg c
    have hok : (f a (Session.opened ⟨c, some v⟩ w)).1 = .ok b := hb
    rw [show f a (Session.opened ⟨c, some v⟩ w) = (.error e, u) from hx] at hok
    cases hok

theorem ite {p : Prop} [Decidable p] {x y : Txn ε σ α} (hx : Unspoilt x) (hy : Unspoilt y) :
    Unspoilt (if p then x else y) := by
  split
  · exact hx
  · exact hy

end Unspoilt

end Txn

end Library
