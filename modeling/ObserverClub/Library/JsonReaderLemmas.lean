import ObserverClub.Library.JsonScalars

namespace Library.Json

section Inversion

variable {d : Dialect} {f k : ℕ} {s r : Text}

theorem readValue_nil (d : Dialect) (f k : ℕ) (p : Tree × Text) : readValue d f k [] ≠ .ok p := by
  cases f <;> simp [readValue]

theorem readMembers_nil (d : Dialect) (f k : ℕ) (p : List (List StrUnit × Tree) × Text) :
    readMembers d f k [] ≠ .ok p := by
  cases f <;> simp [readMembers]

theorem readElems_nil (d : Dialect) (f k : ℕ) (p : List Tree × Text) : readElems d f k [] ≠ .ok p := by
  cases f with
  | zero => simp [readElems]
  | succ f =>
    cases h : readValue d f k [] with
    | ok q => exact absurd h (readValue_nil d f k q)
    | error e => simp [readElems, h]

theorem readValue_ok {v : Tree} :
    readValue d (f + 1) k s = .ok (v, r) ↔
      (∃ t us, s = 34 :: t ∧ readString t = some (us, r) ∧ v = .str us) ∨
      (∃ t j, s = 123 :: t ∧ k = j + 1 ∧ ((skipWs t = 125 :: r ∧ v = .obj []) ∨
        (∃ c w ms, skipWs t = c :: w ∧ c ≠ 125 ∧ readMembers d f j (c :: w) = .ok (ms, r) ∧ v = .obj ms))) ∨
      (∃ t j, s = 91 :: t ∧ k = j + 1 ∧ ((skipWs t = 93 :: r ∧ v = .arr []) ∨
        (∃ c w xs, skipWs t = c :: w ∧ c ≠ 93 ∧ readElems d f j (c :: w) = .ok (xs, r) ∧ v = .arr xs))) ∨
      (∃ c t, s = c :: t ∧ c ≠ 34 ∧ c ≠ 123 ∧ c ≠ 91 ∧ readScalar d c t = .ok (v, r)) := by
  cases s with
  | nil => simp [readValue]
  | cons c t =>
    by_cases h₁ : c = 34
    · subst h₁
      cases hs : readString t with
      | none => simp [readValue, hs]
      | some p => simp [readValue, hs, Prod.ext_iff]; grind
    · by_cases h₂ : c = 123
      · subst h₂
        cases k with
        | zero => simp [readValue]
        | succ j =>
          cases hw : skipWs t with
          | nil => simp [readValue, hw]
          | cons b w =>
            by_cases hb : b = 125
            · subst hb
              simp [readValue, hw]
              grind
            · cases hm : readMembers d f j (b :: w) with
              | error e => simp [readValue, hw, hb, hm]
              | ok p => simp [readValue, hw, hb, hm, Prod.ext_iff]; grind
      · by_cases h₃ : c = 91
        · subst h₃
          cases k with
          | zero => simp [readValue]
          | succ j =>
            cases hw : skipWs t with
            | nil => simp [readValue, hw]
            | cons b w =>
              by_cases hb : b = 93
              · subst hb
                simp [readValue, hw]
                grind
              · cases hm : readElems d f j (b :: w) with
                | error e => simp [readValue, hw, hb, hm]
                | ok p => simp [readValue, hw, hb, hm, Prod.ext_iff]; grind
        · simp [readValue, h₁, h₂, h₃]

theorem readMembers_ok {ms : List (List StrUnit × Tree)} :
    readMembers d (f + 1) k s = .ok (ms, r) ↔
      ∃ t key s₁ s₂ v s₃, s = 34 :: t ∧ readString t = some (key, s₁) ∧ skipWs s₁ = 58 :: s₂ ∧
        readValue d f k (skipWs s₂) = .ok (v, s₃) ∧
        ((skipWs s₃ = 125 :: r ∧ ms = [(key, v)]) ∨
          ∃ s₄ ms', skipWs s₃ = 44 :: s₄ ∧ readMembers d f k (skipWs s₄) = .ok (ms', r) ∧
            ms = (key, v) :: ms') := by
  constructor
  · intro h
    simp only [readMembers] at h
    repeat' split at h
    all_goals simp only [reduceCtorEq, Except.ok.injEq, Prod.mk.injEq] at h
    · obtain ⟨rfl, rfl⟩ := h
      exact ⟨_, _, _, _, _, _, rfl, by assumption, by assumption, by assumption, .inl ⟨by assumption, rfl⟩⟩
    · obtain ⟨rfl, rfl⟩ := h
      exact ⟨_, _, _, _, _, _, rfl, by assumption, by assumption, by assumption,
        .inr ⟨_, _, by assumption, by assumption, rfl⟩⟩
  · rintro ⟨t, key, s₁, s₂, v, s₃, rfl, hs, hc, hv, ⟨hr, rfl⟩ | ⟨s₄, ms', hr, hm, rfl⟩⟩
    · simp [readMembers, hs, hc, hv, hr]
    · simp [readMembers, hs, hc, hv, hr, hm]

theorem readElems_ok {xs : List Tree} :
    readElems d (f + 1) k s = .ok (xs, r) ↔
      ∃ v s₁, readValue d f k s = .ok (v, s₁) ∧
        ((skipWs s₁ = 93 :: r ∧ xs = [v]) ∨
          ∃ s₂ xs', skipWs s₁ = 44 :: s₂ ∧ readElems d f k (skipWs s₂) = .ok (xs', r) ∧ xs = v :: xs') := by
  constructor
  · intro h
    simp only [readElems] at h
    repeat' split at h
    all_goals simp only [reduceCtorEq, Except.ok.injEq, Prod.mk.injEq] at h
    · obtain ⟨rfl, rfl⟩ := h
      exact ⟨_, _, by assumption, .inl ⟨by assumption, rfl⟩⟩
    · obtain ⟨rfl, rfl⟩ := h
      exact ⟨_, _, by assumption, .inr ⟨_, _, by assumption, by assumption, rfl⟩⟩
  · rintro ⟨v, s₁, hv, ⟨hr, rfl⟩ | ⟨s₂, xs', hr, hm, rfl⟩⟩
    · simp [readElems, hv, hr]
    · simp [readElems, hv, hr, hm]

end Inversion

theorem read_mono {d d' : Dialect} (hd : d.Le d') (f : ℕ) :
    (∀ {k f' k' s v r} (x), f ≤ f' → k ≤ k' → (x = [] ∨ r ≠ [] ∨ v.isNum = false) →
      readValue d f k s = .ok (v, r) → readValue d' f' k' (s ++ x) = .ok (v, r ++ x)) ∧
    (∀ {k f' k' s ms r} (x), f ≤ f' → k ≤ k' →
      readMembers d f k s = .ok (ms, r) → readMembers d' f' k' (s ++ x) = .ok (ms, r ++ x)) ∧
    (∀ {k f' k' s vs r} (x), f ≤ f' → k ≤ k' →
      readElems d f k s = .ok (vs, r) → readElems d' f' k' (s ++ x) = .ok (vs, r ++ x)) := by
  induction f with
  | zero => simp [readValue, readMembers, readElems]
  | succ f ih =>
    obtain ⟨ihv, ihm, ihe⟩ := ih
    have hws : ∀ {s t : Text} (x : Text), skipWs s = t → t ≠ [] → skipWs (s ++ x) = t ++ x :=
      fun x he hn => by rw [skipWs_append x (he ▸ hn), he]
    have inner : ∀ {k f' k' s c w v} {t : Text} (x : Text), f ≤ f' → k ≤ k' → skipWs t = c :: w →
        readValue d f k s = .ok (v, t) → readValue d' f' k' (s ++ x) = .ok (v, t ++ x) := by
      intro k f' k' s c w v t x hf hk ht hv
      refine ihv x hf hk (.inr (.inl ?_)) hv
      rintro rfl
      simp [skipWs] at ht
    refine ⟨?_, ?_, ?_⟩
    · intro k f' k' s v r x hf hk hx h
      obtain ⟨f', rfl⟩ : ∃ g, f' = g + 1 := ⟨f' - 1, by omega⟩
      rw [readValue_ok] at h ⊢
      rcases h with ⟨t, us, rfl, hs, rfl⟩ | ⟨t, j, rfl, rfl, h⟩ | ⟨t, j, rfl, rfl, h⟩ |
        ⟨c, t, rfl, h₁, h₂, h₃, h⟩
      · exact .inl ⟨t ++ x, us, rfl, readString_append x hs, rfl⟩
      · obtain ⟨j', rfl⟩ : ∃ g, k' = g + 1 := ⟨k' - 1, by omega⟩
        refine .inr (.inl ⟨t ++ x, j', rfl, rfl, ?_⟩)
        rcases h with ⟨hw, rfl⟩ | ⟨c, w, ms, hw, hc, hm, rfl⟩
        · exact .inl ⟨hws x hw (by simp), rfl⟩
        · exact .inr ⟨c, w ++ x, ms, hws x hw (by simp), hc, ihm x (by omega) (by omega) hm, rfl⟩
      · obtain ⟨j', rfl⟩ : ∃ g, k' = g + 1 := ⟨k' - 1, by omega⟩
        refine .inr (.inr (.inl ⟨t ++ x, j', rfl, rfl, ?_⟩))
        rcases h with ⟨hw, rfl⟩ | ⟨c, w, xs, hw, hc, he, rfl⟩
        · exact .inl ⟨hws x hw (by simp), rfl⟩
        · exact .inr ⟨c, w ++ x, xs, hws x hw (by simp), hc, ihe x (by omega) (by omega) he, rfl⟩
      · exact .inr (.inr (.inr ⟨c, t ++ x, rfl, h₁, h₂, h₃, readScalar_mono hd h hx⟩))
    · intro k f' k' s ms r x hf hk h
      obtain ⟨f', rfl⟩ : ∃ g, f' = g + 1 := ⟨f' - 1, by omega⟩
      rw [readMembers_ok] at h ⊢
      obtain ⟨t, key, s₁, s₂, v, s₃, rfl, hs, hc, hv, h⟩ := h
      have hn₂ : skipWs s₂ ≠ [] := fun he => readValue_nil _ _ _ _ (he ▸ hv)
      refine ⟨t ++ x, key, s₁ ++ x, s₂ ++ x, v, s₃ ++ x, rfl, readString_append x hs,
        hws x hc (by simp), ?_, ?_⟩
      · rw [skipWs_append x hn₂]
        rcases h with ⟨hr, -⟩ | ⟨s₄, ms', hr, -, -⟩ <;> exact inner x (by omega) hk hr hv
      · rcases h with ⟨hr, rfl⟩ | ⟨s₄, ms', hr, hm, rfl⟩
        · exact .inl ⟨hws x hr (by simp), rfl⟩
        · have hn₄ : skipWs s₄ ≠ [] := fun he => readMembers_nil _ _ _ _ (he ▸ hm)
          refine .inr ⟨s₄ ++ x, ms', hws x hr (by simp), ?_, rfl⟩
          rw [skipWs_append x hn₄]
          exact ihm x (by omega) hk hm
    · intro k f' k' s vs r x hf hk h
      obtain ⟨f', rfl⟩ : ∃ g, f' = g + 1 := ⟨f' - 1, by omega⟩
      rw [readElems_ok] at h ⊢
      obtain ⟨v, s₁, hv, h⟩ := h
      refine ⟨v, s₁ ++ x, ?_, ?_⟩
      · rcases h with ⟨hr, -⟩ | ⟨s₂, xs', hr, -, -⟩ <;> exact inner x (by omega) hk hr hv
      · rcases h with ⟨hr, rfl⟩ | ⟨s₂, xs', hr, he, rfl⟩
        · exact .inl ⟨hws x hr (by simp), rfl⟩
        · have hn : skipWs s₂ ≠ [] := fun h => readElems_nil _ _ _ _ (h ▸ he)
          refine .inr ⟨s₂ ++ x, xs', hws x hr (by simp), ?_, rfl⟩
          rw [skipWs_append x hn]
          exact ihe x (by omega) hk he

theorem readValue_unique {d₁ d₂ : Dialect} {f₁ f₂ k₁ k₂ : ℕ} {s x r₁ r₂ : Text} {v₁ v₂ : Tree}
    (h₁ : readValue d₁ f₁ k₁ s = .ok (v₁, r₁)) (h₂ : readValue d₂ f₂ k₂ (s ++ x) = .ok (v₂, r₂))
    (hx : x = [] ∨ r₁ ≠ [] ∨ v₁.isNum = false) : v₁ = v₂ ∧ r₁ ++ x = r₂ := by
  let d : Dialect := ⟨max d₁.maxDepth d₂.maxDepth, true, fun _ => true⟩
  have hd₁ : d₁.Le d := ⟨le_max_left _ _, fun _ => rfl, fun _ _ => rfl⟩
  have hd₂ : d₂.Le d := ⟨le_max_right _ _, fun _ => rfl, fun _ _ => rfl⟩
  have e₁ := (read_mono hd₁ _).1 x (le_max_left f₁ f₂) (le_max_left k₁ k₂) hx h₁
  have e₂ := (read_mono hd₂ _).1 [] (le_max_right f₁ f₂) (le_max_right k₁ k₂) (.inl rfl) h₂
  rw [List.append_nil, e₁] at e₂
  simpa using e₂

theorem readFirst_unique {d₁ d₂ : Dialect} {s x r₁ r₂ : Text} {v₁ v₂ : Tree}
    (h₁ : readFirst d₁ s = .ok (v₁, r₁)) (h₂ : readFirst d₂ (s ++ x) = .ok (v₂, r₂))
    (hx : x = [] ∨ r₁ ≠ [] ∨ v₁.isNum = false) : v₁ = v₂ ∧ r₁ ++ x = r₂ := by
  have hs : skipWs s ≠ [] := fun he => readValue_nil _ _ _ _ (by rw [← he]; exact h₁)
  unfold readFirst at h₂
  rw [skipWs_append x hs] at h₂
  exact readValue_unique h₁ h₂ hx

end Library.Json
