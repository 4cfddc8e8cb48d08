import Mathlib.Data.Int.Basic
import Mathlib.Logic.Function.Basic
import ObserverClub.Library.Text

/-!
The limiter of `internal/limit`: a sliding window for each publisher, and the payload hashes seen.
-/

namespace ObserverClub

open Library

/-- Nanoseconds since the zero time. -/
abbrev Time := ℤ

def second : Time := 1000000000

def minute : Time := 60 * second

namespace Limit

structure Limiter where
  window : Time
  window_pos : 0 < window
  max : ℤ
  max_pos : 0 < max
  hits : Text → List Time
  hashes : List (Text × Time)
  hashCap : ℕ

def new (maxPerWindow : ℤ) (window : Time) : Limiter where
  window := if window ≤ 0 then minute else window
  window_pos := by split <;> simp_all [minute, second]
  max := if maxPerWindow ≤ 0 then 60 else maxPerWindow
  max_pos := by split <;> simp_all
  hits := fun _ => []
  hashes := []
  hashCap := 20000

variable (now : Time) (l : Limiter)

def Seen (payloadHash : Text) : Prop := ∃ p ∈ l.hashes, p.1 = payloadHash

instance (payloadHash : Text) : Decidable (Seen l payloadHash) :=
  inferInstanceAs (Decidable (∃ p ∈ l.hashes, p.1 = payloadHash))

def roomFor : List (Text × Time) :=
  if l.hashes.length < l.hashCap then l.hashes
  else
    let recent := l.hashes.filter (fun p => ¬p.2 < now - l.window)
    if recent.length < l.hashCap then recent else []

def duplicate (payloadHash : Text) : Bool × Limiter :=
  if payloadHash = [] then (false, l)
  else if Seen l payloadHash then (true, l)
  else (false, { l with hashes := (payloadHash, now) :: roomFor now l })

def kept (publisher : Text) : List Time := (l.hits publisher).filter (fun t => now - l.window < t)

def allow (publisher : Text) : Bool × Limiter :=
  if publisher = [] then (false, l)
  else if l.max ≤ (kept now l publisher).length then
    (false, { l with hits := Function.update l.hits publisher (kept now l publisher) })
  else (true, { l with hits := Function.update l.hits publisher (kept now l publisher ++ [now]) })

theorem duplicate_cases (payloadHash : Text) :
    (payloadHash = [] ∧ duplicate now l payloadHash = (false, l)) ∨
    (Seen l payloadHash ∧ duplicate now l payloadHash = (true, l)) ∨
    (¬Seen l payloadHash ∧ duplicate now l payloadHash =
      (false, { l with hashes := (payloadHash, now) :: roomFor now l })) := by
  unfold duplicate
  by_cases h : payloadHash = []
  · exact .inl ⟨h, if_pos h⟩
  · rw [if_neg h]
    by_cases hs : Seen l payloadHash
    · exact .inr (.inl ⟨hs, if_pos hs⟩)
    · exact .inr (.inr ⟨hs, if_neg hs⟩)

variable {now l}

theorem mem_roomFor {p : Text × Time} (h : p ∈ roomFor now l) : p ∈ l.hashes := by
  unfold roomFor at h
  split_ifs at h
  · exact h
  · simp only at h
    split_ifs at h
    · exact List.mem_of_mem_filter h
    · simp at h

theorem seen_duplicate {h payloadHash : Text} (hs : Seen (duplicate now l payloadHash).2 h) :
    Seen l h ∨ h = payloadHash ∧ (duplicate now l payloadHash).1 = false := by
  rcases duplicate_cases now l payloadHash with ⟨-, hd⟩ | ⟨-, hd⟩ | ⟨-, hd⟩
  · rw [hd] at hs
    exact .inl hs
  · rw [hd] at hs
    exact .inl hs
  · rw [hd] at hs ⊢
    obtain ⟨p, hp, rfl⟩ := hs
    rcases List.mem_cons.mp hp with rfl | hp
    · exact .inr ⟨rfl, rfl⟩
    · exact .inl ⟨p, mem_roomFor hp, rfl⟩

theorem seen_of_duplicate {payloadHash : Text} (h : (duplicate now l payloadHash).1 = true) :
    Seen l payloadHash := by
  rcases duplicate_cases now l payloadHash with ⟨-, hd⟩ | ⟨hs, -⟩ | ⟨-, hd⟩
  · simp [hd] at h
  · exact hs
  · simp [hd] at h

@[simp] theorem allow_hashes (publisher : Text) : (allow now l publisher).2.hashes = l.hashes := by
  unfold allow
  split_ifs <;> rfl

end Limit

end ObserverClub
