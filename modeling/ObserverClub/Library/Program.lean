import ObserverClub.Library.Runs

/-!
Calls that share a state. A call is a program of atomic actions, each continued by its answer; a system
of calls takes the next action of any of them, in any order.
-/

namespace Library

/-- `R a` is what action `a` answers. -/
inductive Program {A : Type} (R : A → Type) (α : Type) where
  | done (x : α)
  | act (a : A) (next : R a → Program R α)

namespace Program

variable {A : Type} {R : A → Type} {α β σ ρ : Type}

def bind : Program R α → (α → Program R β) → Program R β
  | done x, f => f x
  | act a next, f => act a (fun r => (next r).bind f)

instance : Monad (Program R) where
  pure := done
  bind := bind

def result : Program R α → Option α
  | done x => some x
  | act _ _ => none

/-- A call on its own: `readings` holds what its actions read of the world, in turn. -/
def alone (exec : (a : A) → ρ → σ → R a × σ) : Program R α → (ℕ → ρ) → σ → α × σ
  | done x, _, s => (x, s)
  | act a next, readings, s =>
    (next (exec a (readings 0) s).1).alone exec (fun n => readings (n + 1)) (exec a (readings 0) s).2

end Program

/-- The shared state, and every call made so far, as far as it has got. -/
structure Threads {A : Type} (σ : Type) (R : A → Type) (α : Type) where
  shared : σ
  calls : List (Program R α)

namespace Threads

variable {A : Type} {R : A → Type} {α σ ρ κ : Type}

inductive Event (κ ρ : Type) where
  | start (c : κ)
  | advance (i : ℕ) (reading : ρ)

def step (body : κ → Program R α) (exec : (a : A) → ρ → σ → R a × σ) (t : Threads σ R α) :
    Event κ ρ → Threads σ R α
  | .start c => { t with calls := t.calls ++ [body c] }
  | .advance i reading =>
    match t.calls[i]? with
    | some (.act a next) =>
      ⟨(exec a reading t.shared).2, t.calls.set i (next (exec a reading t.shared).1)⟩
    | _ => t

theorem step_cases (body : κ → Program R α) (exec : (a : A) → ρ → σ → R a × σ) (t : Threads σ R α)
    (e : Event κ ρ) :
    (∃ c, e = .start c ∧ step body exec t e = ⟨t.shared, t.calls ++ [body c]⟩) ∨
    (∃ i reading a next, e = .advance i reading ∧ t.calls[i]? = some (.act a next) ∧
      step body exec t e =
        ⟨(exec a reading t.shared).2, t.calls.set i (next (exec a reading t.shared).1)⟩) ∨
    step body exec t e = t := by
  cases e with
  | start c => exact .inl ⟨c, rfl, rfl⟩
  | advance i reading =>
    cases h : t.calls[i]? with
    | none => exact .inr (.inr (by simp [step, h]))
    | some p =>
      cases p with
      | done x => exact .inr (.inr (by simp [step, h]))
      | act a next => exact .inr (.inl ⟨i, reading, a, next, rfl, h, by simp [step, h]⟩)

end Threads

end Library
