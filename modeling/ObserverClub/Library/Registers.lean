import Mathlib.Data.List.Induction
import Mathlib.Logic.Function.Basic
import ObserverClub.Library.Runs

/-!
Registers written by messages that carry a hash. The last write to a key counts; a store that takes each
hash only once keeps the last of the first occurrences.
-/

namespace Library.Registers

structure Write (η κ ν : Type) where
  hash : η
  key : κ
  value : Option ν

variable {η κ ν : Type} [DecidableEq κ]

def write (r : κ → Option ν) (w : Write η κ ν) : κ → Option ν := Function.update r w.key w.value

def replay (ws : List (Write η κ ν)) : κ → Option ν := run write (fun _ => none) ws

def latest (ws : List (Write η κ ν)) (k : κ) : Option ν := (ws.filter (fun w => w.key = k)).getLast?.bind Write.value

theorem latest_append (ws : List (Write η κ ν)) (w : Write η κ ν) :
    latest (ws ++ [w]) = write (latest ws) w := by
  funext k
  by_cases h : w.key = k
  · subst h
    simp [latest, write]
  · simp [latest, write, h, Function.update_of_ne (Ne.symm h)]

theorem replay_eq_latest (ws : List (Write η κ ν)) : replay ws = latest ws := by
  induction ws using List.reverseRecOn with
  | nil => rfl
  | append_singleton ws w ih =>
    rw [latest_append, ← ih]
    exact run_append _ _ _

section Firsts

variable [DecidableEq η]

def firsts : List η → List (Write η κ ν) → List (Write η κ ν)
  | _, [] => []
  | seen, w :: ws => if w.hash ∈ seen then firsts seen ws else w :: firsts (w.hash :: seen) ws

structure Store (η κ ν : Type) where
  seen : List η
  registers : κ → Option ν

def Store.take (s : Store η κ ν) (w : Write η κ ν) : Store η κ ν :=
  if w.hash ∈ s.seen then s else ⟨w.hash :: s.seen, write s.registers w⟩

theorem registers_run_take (s : Store η κ ν) (ws : List (Write η κ ν)) :
    (run Store.take s ws).registers = run write s.registers (firsts s.seen ws) := by
  induction ws generalizing s with
  | nil => rfl
  | cons w ws ih =>
    rw [run_cons, ih, Store.take, firsts]
    split <;> rfl

theorem registers_eq_latest (ws : List (Write η κ ν)) :
    (run Store.take ⟨[], fun _ => none⟩ ws).registers = latest (firsts [] ws) := by
  rw [registers_run_take, ← replay_eq_latest]
  rfl

end Firsts

end Library.Registers
