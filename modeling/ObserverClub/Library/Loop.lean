import Mathlib.Data.List.Basic

namespace Library.Loop

variable {σ τ ρ κ : Type}

/-- The result of a loop left within the given number of rounds. -/
def iterate (step : σ → σ ⊕ ρ) : ℕ → σ → Option ρ
  | 0, _ => none
  | fuel + 1, s =>
    match step s with
    | .inl s => iterate step fuel s
    | .inr r => some r

section

variable {step : σ → σ ⊕ ρ}

theorem iterate_inl {fuel : ℕ} {s s' : σ} (h : step s = .inl s') : iterate step (fuel + 1) s = iterate step fuel s' := by
  simp only [iterate, h]

theorem iterate_inr {fuel : ℕ} {s : σ} {r : ρ} (h : step s = .inr r) : iterate step (fuel + 1) s = some r := by
  simp only [iterate, h]

theorem iterate_mono {fuel more : ℕ} {s : σ} {r : ρ} (hf : fuel ≤ more) (h : iterate step fuel s = some r) :
    iterate step more s = some r := by
  induction fuel generalizing more s with
  | zero => simp [iterate] at h
  | succ fuel ih =>
    obtain ⟨more, rfl⟩ : ∃ m, more = m + 1 := ⟨more - 1, by omega⟩
    cases hs : step s with
    | inl s' =>
      rw [iterate_inl hs] at h ⊢
      exact ih (by omega) h
    | inr r' =>
      rw [iterate_inr hs] at h ⊢
      exact h

theorem iterate_unique {fuel more : ℕ} {s : σ} {r q : ρ} (h : iterate step fuel s = some r)
    (h' : iterate step more s = some q) : r = q := by
  have h₁ := iterate_mono (Nat.le_max_left fuel more) h
  have h₂ := iterate_mono (Nat.le_max_right fuel more) h'
  exact Option.some.inj (h₁.symm.trans h₂)

/-- What every round keeps and the last one turns into `Q` holds of the result. -/
theorem iterate_invariant {I : σ → Prop} {Q : ρ → Prop} (hgo : ∀ s s', I s → step s = .inl s' → I s')
    (hleave : ∀ s r, I s → step s = .inr r → Q r) {fuel : ℕ} {s : σ} {r : ρ} (hs : I s)
    (h : iterate step fuel s = some r) : Q r := by
  induction fuel generalizing s with
  | zero => simp [iterate] at h
  | succ fuel ih =>
    cases ht : step s with
    | inl s' =>
      rw [iterate_inl ht] at h
      exact ih (hgo s s' hs ht) h
    | inr r' =>
      rw [iterate_inr ht, Option.some.injEq] at h
      exact h ▸ hleave s r' hs ht

theorem iterate_ends {I : σ → Prop} (variant : σ → ℕ) (hgo : ∀ s s', I s → step s = .inl s' → I s')
    (hfall : ∀ s s', I s → step s = .inl s' → variant s' < variant s) {fuel : ℕ} {s : σ} (hs : I s)
    (hf : variant s < fuel) : ∃ r, iterate step fuel s = some r := by
  induction fuel generalizing s with
  | zero => omega
  | succ fuel ih =>
    cases ht : step s with
    | inl s' =>
      rw [iterate_inl ht]
      have hlt := hfall s s' hs ht
      exact ih (hgo s s' hs ht) (by omega)
    | inr r => exact ⟨r, iterate_inr ht⟩

end

theorem iterate_agree {step : σ → σ ⊕ ρ} {step' : τ → τ ⊕ κ} {R : σ → τ → Prop} {S : ρ → κ → Prop}
    (h : ∀ s t, R s t → (∃ s' t', step s = .inl s' ∧ step' t = .inl t' ∧ R s' t') ∨
      (∃ r q, step s = .inr r ∧ step' t = .inr q ∧ S r q) ∨
      (∃ r, step s = .inr r ∧ ∀ q, S r q) ∨ ∃ q, step' t = .inr q ∧ ∀ r, S r q)
    {fuel more : ℕ} {s : σ} {t : τ} {r : ρ} {q : κ} (hst : R s t) (hs : iterate step fuel s = some r)
    (ht : iterate step' more t = some q) : S r q := by
  induction fuel generalizing more s t with
  | zero => simp [iterate] at hs
  | succ fuel ih =>
    cases more with
    | zero => simp [iterate] at ht
    | succ more =>
      obtain ⟨s', t', hs', ht', hst'⟩ | ⟨r', q', hs', ht', hrq⟩ | ⟨r', hs', hr⟩ | ⟨q', ht', hq⟩ := h s t hst
      · rw [iterate_inl hs'] at hs
        rw [iterate_inl ht'] at ht
        exact ih hst' hs ht
      · rw [iterate_inr hs', Option.some.injEq] at hs
        rw [iterate_inr ht', Option.some.injEq] at ht
        exact hs ▸ ht ▸ hrq
      · rw [iterate_inr hs', Option.some.injEq] at hs
        exact hs ▸ hr q
      · rw [iterate_inr ht', Option.some.injEq] at ht
        exact ht ▸ hq r

end Library.Loop
