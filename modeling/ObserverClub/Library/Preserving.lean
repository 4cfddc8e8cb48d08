import Mathlib.Tactic.SplitIfs

namespace Library

section Preserving

variable {σ α β : Type} {I : σ → Prop}

def Preserves (I : σ → Prop) (m : StateM σ α) : Prop := ∀ s, I s → I (m.run s).2

theorem preserves_pure (x : α) : Preserves I (pure x : StateM σ α) := fun _ h => h

theorem preserves_bind {m : StateM σ α} {f : α → StateM σ β} (hm : Preserves I m) (hf : ∀ a, Preserves I (f a)) :
    Preserves I (m >>= f) := fun s h => hf _ _ (hm s h)

theorem preserves_map {m : StateM σ α} {g : α → β} (hm : Preserves I m) : Preserves I (m >>= fun a => pure (g a)) :=
  preserves_bind hm fun _ => preserves_pure _

theorem preserves_get {f : σ → StateM σ β} (h : ∀ s, I s → I ((f s).run s).2) : Preserves I (get >>= f) := h

theorem preserves_modify {f : σ → σ} (h : ∀ s, I s → I (f s)) : Preserves I (modify f : StateM σ Unit) := h

theorem preserves_ite {p : Prop} [Decidable p] {m n : StateM σ α} (hm : p → Preserves I m) (hn : ¬p → Preserves I n) :
    Preserves I (if p then m else n) := by
  split_ifs with h
  · exact hm h
  · exact hn h

end Preserving

end Library
