import Mathlib.Data.List.Induction
import ObserverClub.Library.Table

/-!
A table drawn by a list of strokes, each of which puts a row or deletes one: what it holds of a key is what
the last stroke at that key left.
-/

namespace Library.Table

inductive Stroke (α κ : Type) where
  | put (row : α)
  | delete (k : κ)

namespace Stroke

variable {α κ : Type} (key : α → κ)

def target : Stroke α κ → κ
  | .put r => key r
  | .delete k => k

def left : Stroke α κ → Option α
  | .put r => some r
  | .delete _ => none

def on [DecidableEq κ] (t : List α) : Stroke α κ → List α
  | .put r => Table.put key r t
  | .delete k => Table.delete key k t

def map {β : Type} (f : α → β) : Stroke α κ → Stroke β κ
  | .put r => .put (f r)
  | .delete k => .delete k

end Stroke

variable {α κ : Type} [DecidableEq κ] {key : α → κ}

theorem row?_on (k : κ) (s : Stroke α κ) (t : List α) :
    row? key k (s.on key t) = if k = s.target key then s.left else row? key k t := by
  cases s with
  | put r => exact row?_put k r t
  | delete j => exact row?_delete k j t

variable (key) in
def drawn (t : List α) (strokes : List (Stroke α κ)) : List α := strokes.foldl (fun t s => s.on key t) t

theorem drawn_snoc (t : List α) (strokes : List (Stroke α κ)) (s : Stroke α κ) :
    drawn key t (strokes ++ [s]) = s.on key (drawn key t strokes) := by
  rw [drawn, List.foldl_append]
  rfl

theorem Keyed.on {t : List α} (h : Keyed key t) (s : Stroke α κ) : Keyed key (s.on key t) := by
  cases s with
  | put r => exact h.put r
  | delete k => exact h.delete k

theorem row?_drawn_of_forall_ne {k : κ} {strokes : List (Stroke α κ)} (h : ∀ s ∈ strokes, s.target key ≠ k) :
    row? key k (drawn key [] strokes) = none := by
  induction strokes using List.reverseRecOn with
  | nil => rfl
  | append_singleton strokes s ih =>
    rw [List.forall_mem_append, List.forall_mem_singleton] at h
    rw [drawn_snoc, row?_on, if_neg (Ne.symm h.2)]
    exact ih h.1

theorem row?_drawn_eq_some {k : κ} {r : α} {strokes : List (Stroke α κ)} :
    row? key k (drawn key [] strokes) = some r ↔ ∃ before later, strokes = before ++ .put r :: later ∧ key r = k ∧
      ∀ s ∈ later, s.target key ≠ k := by
  induction strokes using List.reverseRecOn with
  | nil =>
    apply iff_of_false
    · exact Option.some_ne_none _ ∘ Eq.symm
    · rintro ⟨before, later, h, -⟩
      exact List.append_ne_nil_of_right_ne_nil before (List.cons_ne_nil _ later) h.symm
  | append_singleton strokes s ih =>
    rw [drawn_snoc, row?_on]
    split_ifs with hk
    · constructor
      · intro h
        cases s with
        | put q =>
          obtain rfl := Option.some.inj h
          exact ⟨strokes, [], rfl, hk.symm, fun _ hs => absurd hs List.not_mem_nil⟩
        | delete j => cases h
      · rintro ⟨before, later, h, -, hlater⟩
        obtain rfl | ⟨rest, last, rfl⟩ := List.eq_nil_or_concat later
        · obtain ⟨-, hs⟩ := List.append_inj' h rfl
          rw [List.singleton_inj.mp hs]
          rfl
        · rw [List.concat_eq_append] at h hlater
          rw [← List.cons_append, ← List.append_assoc] at h
          obtain ⟨-, hs⟩ := List.append_inj' h rfl
          rw [List.singleton_inj.mp hs] at hk
          exact absurd hk.symm (hlater last (List.mem_append_right _ List.mem_cons_self))
    · rw [ih]
      constructor
      · rintro ⟨before, later, rfl, hr, hlater⟩
        refine ⟨before, later ++ [s], by rw [List.append_assoc, List.cons_append], hr, ?_⟩
        rw [List.forall_mem_append, List.forall_mem_singleton]
        exact ⟨hlater, Ne.symm hk⟩
      · rintro ⟨before, later, h, hr, hlater⟩
        obtain rfl | ⟨rest, last, rfl⟩ := List.eq_nil_or_concat later
        · obtain ⟨-, hs⟩ := List.append_inj' h rfl
          rw [List.singleton_inj.mp hs] at hk
          exact absurd hr.symm hk
        · rw [List.concat_eq_append] at hlater
          rw [List.concat_eq_append, ← List.cons_append, ← List.append_assoc] at h
          obtain ⟨rfl, -⟩ := List.append_inj' h rfl
          exact ⟨before, rest, rfl, hr, fun s hs => hlater s (List.mem_append_left _ hs)⟩

theorem row?_drawn_filter {k : κ} {r : α} {strokes : List (Stroke α κ)} {p : Stroke α κ → Bool} (hp : p (.put r) = true)
    (h : row? key k (drawn key [] strokes) = some r) : row? key k (drawn key [] (strokes.filter p)) = some r := by
  obtain ⟨before, later, rfl, hr, hlater⟩ := row?_drawn_eq_some.mp h
  rw [row?_drawn_eq_some, List.filter_append, List.filter_cons_of_pos hp]
  exact ⟨before.filter p, later.filter p, rfl, hr, fun s hs => hlater s (List.mem_of_mem_filter hs)⟩

theorem row?_drawn_standing {strokes : List (Stroke α κ)} {p : Stroke α κ → Bool}
    (hp : ∀ s ∈ strokes, p s = true ↔ ∃ r, s = .put r ∧ row? key (key r) (drawn key [] strokes) = some r) (k : κ) :
    row? key k (drawn key [] (strokes.filter p)) = row? key k (drawn key [] strokes) := by
  cases h : row? key k (drawn key [] strokes) with
  | some r =>
    obtain ⟨before, later, he, rfl, -⟩ := row?_drawn_eq_some.mp h
    apply row?_drawn_filter _ h
    apply (hp (.put r) _).mpr ⟨r, rfl, h⟩
    rw [he]
    exact List.mem_append_right _ List.mem_cons_self
  | none =>
    apply row?_drawn_of_forall_ne
    intro s hs hk
    obtain ⟨hs, hstands⟩ := List.mem_filter.mp hs
    obtain ⟨r, rfl, hr⟩ := (hp s hs).mp hstands
    rw [show key r = k from hk, h] at hr
    cases hr

theorem drawn_filter (key : α → κ) (p : κ → Bool) (t : List α) (strokes : List (Stroke α κ)) :
    (drawn key t strokes).filter (fun r => p (key r)) =
      drawn key (t.filter fun r => p (key r)) (strokes.filter fun s => p (s.target key)) := by
  induction strokes using List.reverseRecOn with
  | nil => rfl
  | append_singleton strokes s ih =>
    rw [drawn_snoc, List.filter_append]
    cases hp : p (s.target key) with
    | true =>
      rw [List.filter_singleton, hp, cond_true, drawn_snoc, ← ih]
      cases s with
      | put r => exact filter_put hp
      | delete k => exact filter_delete k _
    | false =>
      rw [List.filter_singleton, hp, cond_false, List.append_nil, ← ih]
      have hdropped : ∀ r ∈ drawn key t strokes, key r = s.target key → p (key r) = false := by
        intro r _ hk
        rw [hk]
        exact hp
      cases s with
      | put r => exact filter_put_of_dropped hp hdropped
      | delete k => exact filter_delete_of_dropped hdropped

theorem row?_filter_key (p : κ → Bool) (k : κ) (t : List α) :
    row? key k (t.filter fun r => p (key r)) = if p k = true then row? key k t else none := by
  split_ifs with hp
  · cases h : row? key k t with
    | some r =>
      obtain ⟨-, rfl⟩ := row?_some h
      exact row?_filter h hp
    | none =>
      rw [row?_eq_none] at h ⊢
      exact fun r hr => h r (List.mem_of_mem_filter hr)
  · rw [row?_eq_none]
    rintro r hr rfl
    exact hp (List.mem_filter.mp hr).2

section Maps

variable {β : Type} {key' : β → κ} {f : α → β}

theorem drawn_map (h : ∀ r, key' (f r) = key r) (t : List α) (strokes : List (Stroke α κ)) :
    (drawn key t strokes).map f = drawn key' (t.map f) (strokes.map (Stroke.map f)) := by
  induction strokes using List.reverseRecOn with
  | nil => rfl
  | append_singleton strokes s ih =>
    rw [drawn_snoc, List.map_append, List.map_singleton, drawn_snoc, ← ih]
    cases s with
    | put r => exact map_put h r _
    | delete k => exact map_delete h k _

theorem row?_map (h : ∀ r, key' (f r) = key r) (k : κ) (t : List α) : row? key' k (t.map f) = (row? key k t).map f := by
  rw [row?, row?, List.find?_map]
  congr 2
  funext r
  rw [Function.comp_apply, h]

end Maps

end Library.Table
