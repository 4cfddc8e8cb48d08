import ObserverClub.Library.JsonContents

namespace Library.Json

mutual

def Tree.nesting : Tree → ℕ
  | .null => 0
  | .bool _ => 0
  | .num _ => 0
  | .const _ => 0
  | .str _ => 0
  | .arr xs => treesNesting xs + 1
  | .obj ms => membersNesting ms + 1

def treesNesting : List Tree → ℕ
  | [] => 0
  | x :: xs => max x.nesting (treesNesting xs)

def membersNesting : List (List StrUnit × Tree) → ℕ
  | [] => 0
  | (_, v) :: ms => max v.nesting (membersNesting ms)

end

def allowed (d : Dialect) : Contents := ⟨fun lit => d.numberOk lit = true, d.constants = true, fun _ => True⟩

/-- The tree is within the limits of a dialect. -/
def Tree.Fits (d : Dialect) (t : Tree) : Prop := t.nesting ≤ d.maxDepth ∧ t.Has (allowed d)

mutual

def Tree.decHas (c : Contents) [DecidablePred c.num] [Decidable c.const] [DecidablePred c.unit] :
    (t : Tree) → Decidable (t.Has c)
  | .null => inferInstanceAs (Decidable True)
  | .bool _ => inferInstanceAs (Decidable True)
  | .num lit => inferInstanceAs (Decidable (c.num lit))
  | .const _ => inferInstanceAs (Decidable c.const)
  | .str us => inferInstanceAs (Decidable (∀ u ∈ us, c.unit u))
  | .arr xs => treesDecHas c xs
  | .obj ms => membersDecHas c ms

def treesDecHas (c : Contents) [DecidablePred c.num] [Decidable c.const] [DecidablePred c.unit] :
    (xs : List Tree) → Decidable (treesHave c xs)
  | [] => inferInstanceAs (Decidable True)
  | x :: xs =>
    have := Tree.decHas c x
    have := treesDecHas c xs
    inferInstanceAs (Decidable (x.Has c ∧ treesHave c xs))

def membersDecHas (c : Contents) [DecidablePred c.num] [Decidable c.const] [DecidablePred c.unit] :
    (ms : List (List StrUnit × Tree)) → Decidable (membersHave c ms)
  | [] => inferInstanceAs (Decidable True)
  | (k, v) :: ms =>
    have := Tree.decHas c v
    have := membersDecHas c ms
    inferInstanceAs (Decidable ((∀ u ∈ k, c.unit u) ∧ v.Has c ∧ membersHave c ms))

end

instance (d : Dialect) (t : Tree) : Decidable (t.Fits d) :=
  have : DecidablePred (allowed d).num := fun lit => inferInstanceAs (Decidable (d.numberOk lit = true))
  have : Decidable (allowed d).const := inferInstanceAs (Decidable (d.constants = true))
  have : DecidablePred (allowed d).unit := fun _ => inferInstanceAs (Decidable True)
  have := Tree.decHas (allowed d) t
  inferInstanceAs (Decidable (t.nesting ≤ d.maxDepth ∧ t.Has (allowed d)))

theorem readScalar_nesting {d : Dialect} {c : ℕ} {s r : Text} {v : Tree} (h : readScalar d c s = .ok (v, r)) :
    v.nesting = 0 := by
  unfold readScalar at h
  split at h
  · rename_i w v' hk
    split at h
    · obtain ⟨rfl, -⟩ : v' = v ∧ _ := by simpa using h
      unfold keywordAt at hk
      split_ifs at hk <;> simp only [Option.some.injEq, Prod.mk.injEq] at hk <;> obtain ⟨-, rfl⟩ := hk <;> rfl
    · simp at h
  · split at h
    · split_ifs at h
      obtain ⟨rfl, -⟩ : Tree.num _ = v ∧ _ := by simpa using h
      rfl
    · simp at h

theorem read_nesting (d : Dialect) (f : ℕ) :
    (∀ {k s v r}, readValue d f k s = .ok (v, r) → v.nesting ≤ k) ∧
    (∀ {k s ms r}, readMembers d f k s = .ok (ms, r) → membersNesting ms ≤ k) ∧
    (∀ {k s vs r}, readElems d f k s = .ok (vs, r) → treesNesting vs ≤ k) := by
  induction f with
  | zero => simp [readValue, readMembers, readElems]
  | succ f ih =>
    obtain ⟨ihv, ihm, ihe⟩ := ih
    refine ⟨?_, ?_, ?_⟩
    · intro k s v r h
      rw [readValue_ok] at h
      rcases h with ⟨t, us, -, -, rfl⟩ | ⟨t, j, -, rfl, h⟩ | ⟨t, j, -, rfl, h⟩ | ⟨c, t, -, -, -, -, h⟩
      · exact Nat.zero_le _
      · rcases h with ⟨-, rfl⟩ | ⟨c, w, ms, -, -, hm, rfl⟩
        · exact Nat.succ_le_succ (Nat.zero_le _)
        · exact Nat.succ_le_succ (ihm hm)
      · rcases h with ⟨-, rfl⟩ | ⟨c, w, xs, -, -, he, rfl⟩
        · exact Nat.succ_le_succ (Nat.zero_le _)
        · exact Nat.succ_le_succ (ihe he)
      · rw [readScalar_nesting h]
        exact Nat.zero_le _
    · intro k s ms r h
      rw [readMembers_ok] at h
      obtain ⟨t, key, s₁, s₂, v, s₃, -, -, -, hv, ⟨-, rfl⟩ | ⟨s₄, ms', -, hm, rfl⟩⟩ := h
      · exact max_le (ihv hv) (Nat.zero_le _)
      · exact max_le (ihv hv) (ihm hm)
    · intro k s vs r h
      rw [readElems_ok] at h
      obtain ⟨v, s₁, hv, ⟨-, rfl⟩ | ⟨s₂, xs', -, he, rfl⟩⟩ := h
      · exact max_le (ihv hv) (Nat.zero_le _)
      · exact max_le (ihv hv) (ihe he)

theorem readFirst_fits {d : Dialect} {s r : Text} {v : Tree} (h : readFirst d s = .ok (v, r)) : v.Fits d := by
  have hv : v.Has (readFrom (fun _ => True) d) := (readFirst_from h (fun _ _ => trivial)).2
  constructor
  · exact (read_nesting d _).1 h
  · refine has_mono ?_ ?_ ?_ v hv
    · exact fun lit hn => hn.2
    · exact fun hc => hc
    · exact fun u _ => trivial

theorem readScalar_within {d d' : Dialect} {c : ℕ} {s r : Text} {v : Tree} (h : readScalar d c s = .ok (v, r))
    (hv : v.Has (allowed d')) : readScalar d' c s = .ok (v, r) := by
  unfold readScalar at h
  split at h
  · rename_i w v' hk
    have hk' : v'.Has (allowed d') → keywordAt d' c s = some (w, v') := by
      unfold keywordAt at hk ⊢
      split_ifs at hk <;> simp only [Option.some.injEq, Prod.mk.injEq] at hk <;> obtain ⟨rfl, rfl⟩ := hk <;>
        simp_all [Tree.Has, allowed]
    split at h
    · rename_i r' hw
      simp only [Except.ok.injEq, Prod.mk.injEq] at h
      obtain ⟨rfl, rfl⟩ := h
      simp [readScalar, hk' hv, hw]
    · simp at h
  · split at h
    · rename_i lit r' hn
      split_ifs at h
      simp only [Except.ok.injEq, Prod.mk.injEq] at h
      obtain ⟨rfl, rfl⟩ := h
      have hk' : keywordAt d' c s = none := by simpa using keywordAt_number hn []
      have ho : d'.numberOk lit = true := hv
      simp [readScalar, hk', hn, ho]
    · simp at h

theorem read_within (d d' : Dialect) (f : ℕ) :
    (∀ {k k' s v r}, readValue d f k s = .ok (v, r) → v.nesting ≤ k' → v.Has (allowed d') →
      readValue d' f k' s = .ok (v, r)) ∧
    (∀ {k k' s ms r}, readMembers d f k s = .ok (ms, r) → membersNesting ms ≤ k' → membersHave (allowed d') ms →
      readMembers d' f k' s = .ok (ms, r)) ∧
    (∀ {k k' s vs r}, readElems d f k s = .ok (vs, r) → treesNesting vs ≤ k' → treesHave (allowed d') vs →
      readElems d' f k' s = .ok (vs, r)) := by
  induction f with
  | zero => simp [readValue, readMembers, readElems]
  | succ f ih =>
    obtain ⟨ihv, ihm, ihe⟩ := ih
    refine ⟨?_, ?_, ?_⟩
    · intro k k' s v r h hk hv
      rw [readValue_ok] at h ⊢
      rcases h with ⟨t, us, rfl, hs, rfl⟩ | ⟨t, j, rfl, rfl, h⟩ | ⟨t, j, rfl, rfl, h⟩ | ⟨c, t, rfl, h₁, h₂, h₃, h⟩
      · exact .inl ⟨t, us, rfl, hs, rfl⟩
      · rcases h with ⟨hw, rfl⟩ | ⟨c, w, ms, hw, hc, hm, rfl⟩ <;> simp only [Tree.nesting] at hk <;>
          obtain ⟨j', rfl⟩ : ∃ g, k' = g + 1 := ⟨k' - 1, by omega⟩
        · exact .inr (.inl ⟨t, j', rfl, rfl, .inl ⟨hw, rfl⟩⟩)
        · exact .inr (.inl ⟨t, j', rfl, rfl, .inr ⟨c, w, ms, hw, hc, ihm hm (by omega) hv, rfl⟩⟩)
      · rcases h with ⟨hw, rfl⟩ | ⟨c, w, xs, hw, hc, he, rfl⟩ <;> simp only [Tree.nesting] at hk <;>
          obtain ⟨j', rfl⟩ : ∃ g, k' = g + 1 := ⟨k' - 1, by omega⟩
        · exact .inr (.inr (.inl ⟨t, j', rfl, rfl, .inl ⟨hw, rfl⟩⟩))
        · exact .inr (.inr (.inl ⟨t, j', rfl, rfl, .inr ⟨c, w, xs, hw, hc, ihe he (by omega) hv, rfl⟩⟩))
      · exact .inr (.inr (.inr ⟨c, t, rfl, h₁, h₂, h₃, readScalar_within h hv⟩))
    · intro k k' s ms r h hk hv
      rw [readMembers_ok] at h ⊢
      obtain ⟨t, key, s₁, s₂, v, s₃, rfl, hs, hc, hval, ⟨hr, rfl⟩ | ⟨s₄, ms', hr, hm, rfl⟩⟩ := h
      · exact ⟨t, key, s₁, s₂, v, s₃, rfl, hs, hc, ihv hval ((Nat.max_le.mp hk).1) hv.2.1, .inl ⟨hr, rfl⟩⟩
      · exact ⟨t, key, s₁, s₂, v, s₃, rfl, hs, hc, ihv hval ((Nat.max_le.mp hk).1) hv.2.1,
          .inr ⟨s₄, ms', hr, ihm hm ((Nat.max_le.mp hk).2) hv.2.2, rfl⟩⟩
    · intro k k' s vs r h hk hv
      rw [readElems_ok] at h ⊢
      obtain ⟨v, s₁, hval, ⟨hr, rfl⟩ | ⟨s₂, xs', hr, he, rfl⟩⟩ := h
      · exact ⟨v, s₁, ihv hval ((Nat.max_le.mp hk).1) hv.1, .inl ⟨hr, rfl⟩⟩
      · exact ⟨v, s₁, ihv hval ((Nat.max_le.mp hk).1) hv.1,
          .inr ⟨s₂, xs', hr, ihe he ((Nat.max_le.mp hk).2) hv.2, rfl⟩⟩

theorem readFirst_within {d d' : Dialect} {s r : Text} {v : Tree} (h : readFirst d s = .ok (v, r))
    (hv : v.Fits d') : readFirst d' s = .ok (v, r) := (read_within d d' _).1 h hv.1 hv.2

end Library.Json
