import Mathlib.Data.List.Basic

namespace Library

section Runs

variable {σ ε : Type} (step : σ → ε → σ)

def run (s : σ) (events : List ε) : σ := events.foldl step s

/-- Each event of the run meets the condition in the state it finds. -/
def Along (P : σ → ε → Prop) : σ → List ε → Prop
  | _, [] => True
  | s, e :: events => P s e ∧ Along P (step s e) events

instance Along.decidable (P : σ → ε → Prop) [∀ s e, Decidable (P s e)] (s : σ) (events : List ε) :
    Decidable (Along step P s events) :=
  match events with
  | [] => inferInstanceAs (Decidable True)
  | e :: events =>
    have := Along.decidable P (step s e) events
    inferInstanceAs (Decidable (P s e ∧ Along step P (step s e) events))

variable {step}

@[simp] theorem run_nil (s : σ) : run step s [] = s := rfl

@[simp] theorem run_cons (s : σ) (e : ε) (events : List ε) :
    run step s (e :: events) = run step (step s e) events := rfl

theorem run_append (s : σ) (es fs : List ε) : run step s (es ++ fs) = run step (run step s es) fs :=
  List.foldl_append

theorem along_append {P : σ → ε → Prop} {s : σ} {es fs : List ε} :
    Along step P s (es ++ fs) ↔ Along step P s es ∧ Along step P (run step s es) fs := by
  induction es generalizing s with
  | nil => simp [Along]
  | cons e es ih => simp only [List.cons_append, Along, ih, run_cons, and_assoc]

theorem along_mono {P Q : σ → ε → Prop} (h : ∀ s e, P s e → Q s e) {s : σ} {es : List ε}
    (hp : Along step P s es) : Along step Q s es := by
  induction es generalizing s with
  | nil => trivial
  | cons e es ih => exact ⟨h s e hp.1, ih hp.2⟩

theorem along_of_forall {P : σ → ε → Prop} {s : σ} {es : List ε} (h : ∀ e ∈ es, ∀ s, P s e) : Along step P s es := by
  induction es generalizing s with
  | nil => trivial
  | cons e es ih =>
    rw [List.forall_mem_cons] at h
    exact ⟨h.1 s, ih h.2⟩

theorem along_seen {P : σ → ε → Prop} {s : σ} {es : List ε} (h : Along step P s es) :
    Along step (fun t e => P t e ∧ ∃ seen, seen <+: es ∧ run step s seen = t) s es := by
  induction es generalizing s with
  | nil => trivial
  | cons e es ih =>
    refine ⟨⟨h.1, [], List.nil_prefix, rfl⟩, along_mono ?_ (ih h.2)⟩
    rintro t f ⟨hp, seen, hseen, ht⟩
    exact ⟨hp, e :: seen, List.cons_prefix_cons.mpr ⟨rfl, hseen⟩, ht⟩

theorem run_invariant {I : σ → Prop} {P : σ → ε → Prop} (hstep : ∀ s e, I s → P s e → I (step s e))
    {s : σ} {events : List ε} (hs : I s) (hp : Along step P s events) : I (run step s events) := by
  induction events generalizing s with
  | nil => exact hs
  | cons e events ih => exact ih (hstep s e hs hp.1) hp.2

theorem run_invariant_of_step {I : σ → Prop} (hstep : ∀ s e, I s → I (step s e)) {s : σ} (hs : I s)
    (events : List ε) : I (run step s events) := by
  induction events generalizing s with
  | nil => exact hs
  | cons e events ih => exact ih (hstep s e hs)

theorem always_iff_along {I : σ → Prop} {P : σ → ε → Prop} (hstep : ∀ s e, I s → (I (step s e) ↔ P s e)) {s : σ}
    (hs : I s) {events : List ε} : (∀ seen, seen <+: events → I (run step s seen)) ↔ Along step P s events := by
  induction events generalizing s with
  | nil =>
    apply iff_of_true
    · intro seen hseen
      rw [List.prefix_nil.mp hseen]
      exact hs
    · trivial
  | cons e events ih =>
    constructor
    · intro h
      have hnext : I (step s e) := h [e] ⟨events, rfl⟩
      exact ⟨(hstep s e hs).mp hnext, (ih hnext).mp fun seen hseen => h (e :: seen) (List.cons_prefix_cons.mpr ⟨rfl, hseen⟩)⟩
    · rintro ⟨hp, h⟩ seen hseen
      cases seen with
      | nil => exact hs
      | cons e' seen =>
        obtain ⟨rfl, hrest⟩ := List.cons_prefix_cons.mp hseen
        exact (ih ((hstep s e' hs).mpr hp)).mpr h seen hrest

theorem last_iff_along {I J : σ → Prop} {P : σ → ε → Prop} (hkept : ∀ s e, J s → J (step s e))
    (hstep : ∀ s e, J s → I s → (I (step s e) ↔ P s e)) (hback : ∀ s e, J s → I (step s e) → I s) {s : σ} (hj : J s)
    (hs : I s) {events : List ε} : I (run step s events) ↔ Along step P s events := by
  have hfirst (s : σ) (events : List ε) (hj : J s) (h : I (run step s events)) : I s := by
    induction events generalizing s with
    | nil => exact h
    | cons e events ih => exact hback s e hj (ih _ (hkept s e hj) h)
  induction events generalizing s with
  | nil => exact iff_of_true hs trivial
  | cons e events ih =>
    constructor
    · intro h
      have hnext : I (step s e) := hfirst _ events (hkept s e hj) h
      exact ⟨(hstep s e hj hs).mp hnext, (ih (hkept s e hj) hnext).mp h⟩
    · rintro ⟨hp, h⟩
      exact (ih (hkept s e hj) ((hstep s e hj hs).mpr hp)).mpr h

theorem split_snoc {α : Type} {xs before after : List α} {x y : α} (h : xs ++ [y] = before ++ x :: after) :
    (after = [] ∧ before = xs ∧ x = y) ∨ ∃ rest, after = rest ++ [y] ∧ xs = before ++ x :: rest := by
  obtain rfl | ⟨rest, last, rfl⟩ := List.eq_nil_or_concat after
  · obtain ⟨hfront, hlast⟩ := List.append_inj' h rfl
    cases hlast
    exact Or.inl ⟨rfl, hfront.symm, rfl⟩
  · rw [List.concat_eq_append, ← List.cons_append, ← List.append_assoc] at h
    obtain ⟨hfront, hlast⟩ := List.append_inj' h rfl
    cases hlast
    exact Or.inr ⟨rest, List.concat_eq_append, hfront⟩

theorem run_simulates {τ δ : Type} {step' : τ → δ → τ} {R : σ → τ → Prop} {Q : ε → Prop} (f : ε → δ)
    (hstep : ∀ s t e, R s t → Q e → R (step s e) (step' t (f e))) {s : σ} {t : τ} {events : List ε} (h : R s t)
    (hq : ∀ e ∈ events, Q e) : R (run step s events) (run step' t (events.map f)) := by
  induction events generalizing s t with
  | nil => exact h
  | cons e events ih =>
    rw [List.forall_mem_cons] at hq
    exact ih (hstep s t e h hq.1) hq.2

end Runs

end Library
