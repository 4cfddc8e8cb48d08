import ObserverClub.Library.JsonReader

namespace Library.Json

theorem skipWs_append {s : Text} (x : Text) (h : skipWs s ≠ []) : skipWs (s ++ x) = skipWs s ++ x := by
  unfold skipWs at *
  rw [List.dropWhile_append, if_neg (by simpa using h)]

theorem readString_append {s r : Text} {us : List StrUnit} (x : Text) (h : readString s = some (us, r)) :
    readString (s ++ x) = some (us, r ++ x) := by
  fun_induction readString s generalizing us with
  | case1 | case4 | case6 | case7 | case9 => simp at h
  | case2 s =>
    simp only [Option.some.injEq, Prod.mk.injEq] at h
    obtain ⟨rfl, rfl⟩ := h
    simp [readString]
  | case3 a b c d s u us' r' hr hu ih =>
    simp only [Option.some.injEq, Prod.mk.injEq] at h
    obtain ⟨rfl, rfl⟩ := h
    simp [readString, hu, ih hr]
  | case5 e s he c us' r' hr hc ih =>
    simp only [Option.some.injEq, Prod.mk.injEq] at h
    obtain ⟨rfl, rfl⟩ := h
    have he : e ≠ 117 := by
      rintro rfl
      simp [simpleEscape] at hc
    simp [readString, hc, ih hr, he]
  | case8 c s h34 _ _ hc us' r' hr ih =>
    simp only [Option.some.injEq, Prod.mk.injEq] at h
    obtain ⟨rfl, rfl⟩ := h
    simp only [not_or] at hc
    simp [readString, hc, ih hr]

section Numbers

theorem span_append {s : Text} (x : Text) (h : x = [] ∨ s.dropWhile isDigit ≠ []) :
    (s ++ x).takeWhile isDigit = s.takeWhile isDigit ∧
      (s ++ x).dropWhile isDigit = s.dropWhile isDigit ++ x := by
  rcases h with rfl | h
  · simp
  · rw [List.takeWhile_append, List.dropWhile_append]
    have hl : (s.takeWhile isDigit).length ≠ s.length := by
      intro he
      have hs := congrArg List.length (List.takeWhile_append_dropWhile (p := isDigit) (l := s))
      simp only [List.length_append] at hs
      exact h (List.length_eq_zero_iff.mp (by omega))
    rw [if_neg hl, if_neg (by simpa using h)]
    exact ⟨rfl, rfl⟩

theorem readInt_append {s i r : Text} (x : Text) (h : readInt s = some (i, r)) (hr : x = [] ∨ r ≠ []) :
    readInt (s ++ x) = some (i, r ++ x) := by
  cases s with
  | nil => simp [readInt] at h
  | cons c s =>
    simp only [readInt, List.cons_append] at h ⊢
    split_ifs at h ⊢ <;> simp only [Option.some.injEq, Prod.mk.injEq] at h <;> obtain ⟨rfl, rfl⟩ := h
    · rfl
    · obtain ⟨h₁, h₂⟩ := span_append x hr
      rw [h₁, h₂]

theorem readDigits_append {s i r : Text} (x : Text) (h : readDigits s = some (i, r))
    (hr : x = [] ∨ r ≠ []) : readDigits (s ++ x) = some (i, r ++ x) := by
  unfold readDigits at h ⊢
  split_ifs at h with hd
  simp only [Option.some.injEq, Prod.mk.injEq] at h
  obtain ⟨rfl, rfl⟩ := h
  obtain ⟨h₁, h₂⟩ := span_append x hr
  rw [h₁, h₂, if_neg hd]

theorem readFrac_append {s i r : Text} (x : Text) (h : readFrac s = some (i, r)) (hr : x = [] ∨ r ≠ []) :
    readFrac (s ++ x) = some (i, r ++ x) := by
  unfold readFrac at h
  split at h
  · rename_i s
    simp only [Option.map_eq_some_iff, Prod.exists, Prod.mk.injEq] at h
    obtain ⟨d, r', hd, rfl, rfl⟩ := h
    simp [readFrac, readDigits_append x hd hr]
  · rename_i hn
    simp only [Option.some.injEq, Prod.mk.injEq] at h
    obtain ⟨rfl, rfl⟩ := h
    rcases hr with rfl | hr
    · simp only [List.append_nil, readFrac]
    · cases s with
      | nil => exact absurd rfl hr
      | cons c s =>
        have hc : c ≠ 46 := fun he => hn s (by rw [he])
        simp [readFrac, hc]

theorem readExp_append {s i r : Text} (x : Text) (h : readExp s = some (i, r)) (hr : x = [] ∨ r ≠ []) :
    readExp (s ++ x) = some (i, r ++ x) := by
  cases s with
  | nil =>
    simp only [readExp, Option.some.injEq, Prod.mk.injEq] at h
    obtain ⟨rfl, rfl⟩ := h
    obtain rfl : x = [] := by simpa using hr
    rfl
  | cons e s =>
    simp only [readExp, List.cons_append] at h ⊢
    split_ifs at h ⊢ with he
    · cases s with
      | nil => simp at h
      | cons g t =>
        simp only [List.cons_append] at h ⊢
        split_ifs at h ⊢
        all_goals
          simp only [Option.map_eq_some_iff, Prod.exists, Prod.mk.injEq] at h
          obtain ⟨d, r', hd, rfl, rfl⟩ := h
          have := readDigits_append x hd hr
          simp_all
    · simp only [Option.some.injEq, Prod.mk.injEq] at h
      obtain ⟨rfl, rfl⟩ := h
      simp

theorem readExp_ne_nil {s i r : Text} (h : readExp s = some (i, r)) (hr : r ≠ []) : s ≠ [] := by
  rintro rfl
  simp only [readExp, Option.some.injEq, Prod.mk.injEq] at h
  exact hr h.2.symm

theorem readFrac_ne_nil {s i r : Text} (h : readFrac s = some (i, r)) (hr : r ≠ []) : s ≠ [] := by
  rintro rfl
  simp only [readFrac, Option.some.injEq, Prod.mk.injEq] at h
  exact hr h.2.symm

theorem readNumber_append {s lit r : Text} (x : Text) (h : readNumber s = some (lit, r))
    (hr : x = [] ∨ r ≠ []) : readNumber (s ++ x) = some (lit, r ++ x) := by
  have hsign : s ≠ [] → readSign (s ++ x) = ((readSign s).1, (readSign s).2 ++ x) := by
    intro hs
    obtain ⟨c, t, rfl⟩ := List.exists_cons_of_ne_nil hs
    by_cases hc : c = 45
    · subst hc
      rfl
    · simp [readSign, hc]
  have hs : s ≠ [] := by
    rintro rfl
    simp [readNumber, readSign, readInt] at h
  unfold readNumber at h ⊢
  rw [hsign hs]
  cases hi : readInt (readSign s).2 with
  | none => simp [hi] at h
  | some p =>
    obtain ⟨i, s₁⟩ := p
    cases hf : readFrac s₁ with
    | none => simp [hi, hf] at h
    | some p =>
      obtain ⟨f, s₂⟩ := p
      cases he : readExp s₂ with
      | none => simp [hi, hf, he] at h
      | some p =>
        obtain ⟨e, s₃⟩ := p
        simp only [hi, hf, he, Option.some.injEq, Prod.mk.injEq] at h
        obtain ⟨rfl, rfl⟩ := h
        have h₂ : x = [] ∨ s₂ ≠ [] := hr.imp_right (readExp_ne_nil he)
        have h₁ : x = [] ∨ s₁ ≠ [] := h₂.imp_right (readFrac_ne_nil hf)
        simp [readInt_append x hi h₁, readFrac_append x hf h₂, readExp_append x he hr]

theorem readNumber_head {c : ℕ} {s lit r : Text} (h : readNumber (c :: s) = some (lit, r)) :
    isDigit c ∨ (c = 45 ∧ ∃ d t, s = d :: t ∧ isDigit d) := by
  by_cases hc : c = 45
  · subst hc
    cases s with
    | nil => simp [readNumber, readSign, readInt] at h
    | cons d t =>
      refine .inr ⟨rfl, d, t, rfl, ?_⟩
      by_contra hd
      have h0 : d ≠ 48 := by rintro rfl; simp [isDigit] at hd
      simp [readNumber, readSign, readInt, h0, hd] at h
  · refine .inl ?_
    by_contra hd
    have h0 : c ≠ 48 := by rintro rfl; simp [isDigit] at hd
    simp [readNumber, readSign, readInt, hc, h0, hd] at h

theorem readSign_split (s : Text) : (readSign s).1 ++ (readSign s).2 = s := by
  unfold readSign
  split <;> rfl

theorem readInt_split {s i r : Text} (h : readInt s = some (i, r)) : i ++ r = s ∧ i ≠ [] := by
  unfold readInt at h
  split at h
  · simp at h
  · split_ifs at h <;> simp only [Option.some.injEq, Prod.mk.injEq] at h <;> obtain ⟨rfl, rfl⟩ := h <;>
      simp_all

theorem readDigits_split {s i r : Text} (h : readDigits s = some (i, r)) : i ++ r = s := by
  unfold readDigits at h
  split_ifs at h
  simp only [Option.some.injEq, Prod.mk.injEq] at h
  obtain ⟨rfl, rfl⟩ := h
  exact List.takeWhile_append_dropWhile

theorem readFrac_split {s i r : Text} (h : readFrac s = some (i, r)) : i ++ r = s := by
  unfold readFrac at h
  split at h
  · simp only [Option.map_eq_some_iff, Prod.exists, Prod.mk.injEq] at h
    obtain ⟨d, r', hd, rfl, rfl⟩ := h
    rw [List.cons_append, readDigits_split hd]
  · simp only [Option.some.injEq, Prod.mk.injEq] at h
    obtain ⟨rfl, rfl⟩ := h
    rfl

theorem readExp_split {s i r : Text} (h : readExp s = some (i, r)) : i ++ r = s := by
  unfold readExp at h
  split at h
  · simp_all
  · split_ifs at h
    · split at h
      · simp at h
      · split_ifs at h
        all_goals
          simp only [Option.map_eq_some_iff, Prod.exists, Prod.mk.injEq] at h
          obtain ⟨d, r', hd, rfl, rfl⟩ := h
          simp only [List.cons_append, readDigits_split hd]
    · simp only [Option.some.injEq, Prod.mk.injEq] at h
      obtain ⟨rfl, rfl⟩ := h
      rfl

theorem readNumber_split {s lit r : Text} (h : readNumber s = some (lit, r)) : lit ++ r = s ∧ lit ≠ [] := by
  unfold readNumber at h
  split at h
  · simp at h
  · rename_i i s₁ hi
    split at h
    · simp at h
    · rename_i f s₂ hf
      split at h
      · simp at h
      · rename_i e s₃ he
        simp only [Option.some.injEq, Prod.mk.injEq] at h
        obtain ⟨rfl, rfl⟩ := h
        obtain ⟨h₁, hne⟩ := readInt_split hi
        refine ⟨?_, by simp [hne]⟩
        rw [List.append_assoc, readExp_split he, List.append_assoc, readFrac_split hf, List.append_assoc, h₁,
          readSign_split]

def isNumberChar (c : ℕ) : Bool := isDigit c || c == 43 || c == 45 || c == 46 || c == 69 || c == 101

theorem isNumberChar_of_digit {c : ℕ} (h : isDigit c = true) : isNumberChar c = true := by simp [isNumberChar, h]

theorem readInt_chars {s i r : Text} (h : readInt s = some (i, r)) : ∀ c ∈ i, isNumberChar c = true := by
  unfold readInt at h
  split at h
  · simp at h
  · split_ifs at h with h0 hd <;> simp only [Option.some.injEq, Prod.mk.injEq] at h <;> obtain ⟨rfl, -⟩ := h
    · simp [isNumberChar, isDigit]
    · intro c hc
      rcases List.mem_cons.mp hc with rfl | hc
      · exact isNumberChar_of_digit hd
      · exact isNumberChar_of_digit (List.mem_takeWhile_imp hc)

theorem readDigits_chars {s i r : Text} (h : readDigits s = some (i, r)) : ∀ c ∈ i, isNumberChar c = true := by
  unfold readDigits at h
  split_ifs at h
  simp only [Option.some.injEq, Prod.mk.injEq] at h
  obtain ⟨rfl, -⟩ := h
  exact fun c hc => isNumberChar_of_digit (List.mem_takeWhile_imp hc)

theorem readFrac_chars {s i r : Text} (h : readFrac s = some (i, r)) : ∀ c ∈ i, isNumberChar c = true := by
  unfold readFrac at h
  split at h
  · simp only [Option.map_eq_some_iff, Prod.exists, Prod.mk.injEq] at h
    obtain ⟨d, r', hd, rfl, rfl⟩ := h
    rw [List.forall_mem_cons]
    exact ⟨rfl, readDigits_chars hd⟩
  · simp only [Option.some.injEq, Prod.mk.injEq] at h
    simp [← h.1]

theorem readExp_chars {s i r : Text} (h : readExp s = some (i, r)) : ∀ c ∈ i, isNumberChar c = true := by
  unfold readExp at h
  split at h
  · simp_all
  · split_ifs at h with he
    · have hmark : isNumberChar ‹ℕ› = true := by rcases he with rfl | rfl <;> rfl
      split at h
      · simp at h
      · split_ifs at h with hg
        all_goals
          simp only [Option.map_eq_some_iff, Prod.exists, Prod.mk.injEq] at h
          obtain ⟨d, r', hd, rfl, rfl⟩ := h
        · have hsign : isNumberChar ‹ℕ› = true := by rcases hg with rfl | rfl <;> rfl
          rw [List.forall_mem_cons, List.forall_mem_cons]
          exact ⟨hmark, hsign, readDigits_chars hd⟩
        · rw [List.forall_mem_cons]
          exact ⟨hmark, readDigits_chars hd⟩
    · simp only [Option.some.injEq, Prod.mk.injEq] at h
      simp [← h.1]

theorem readNumber_chars {s lit r : Text} (h : readNumber s = some (lit, r)) : ∀ c ∈ lit, isNumberChar c = true := by
  have hsign : ∀ c ∈ (readSign s).1, isNumberChar c = true := by
    unfold readSign
    split <;> simp [isNumberChar]
  unfold readNumber at h
  split at h
  · simp at h
  · rename_i i s₁ hi
    split at h
    · simp at h
    · rename_i f s₂ hf
      split at h
      · simp at h
      · rename_i e s₃ he
        simp only [Option.some.injEq, Prod.mk.injEq] at h
        obtain ⟨rfl, rfl⟩ := h
        simp only [List.forall_mem_append]
        exact ⟨⟨⟨hsign, readInt_chars hi⟩, readFrac_chars hf⟩, readExp_chars he⟩

end Numbers

theorem stripPrefix_eq {w s r : Text} (h : stripPrefix w s = some r) : s = w ++ r := by
  induction w generalizing s with
  | nil => simpa [stripPrefix] using h
  | cons c w ih =>
    cases s with
    | nil => simp [stripPrefix] at h
    | cons d s =>
      simp only [stripPrefix] at h
      split_ifs at h with hc
      rw [ih h, hc]
      rfl

theorem stripPrefix_append (w r : Text) : stripPrefix w (w ++ r) = some r := by
  induction w with
  | nil => rfl
  | cons c w ih => simp [stripPrefix, ih]

/-- Every text and nesting that `d` accepts is accepted by `d'`. -/
structure Dialect.Le (d d' : Dialect) : Prop where
  depth : d.maxDepth ≤ d'.maxDepth
  constants : d.constants = true → d'.constants = true
  number : ∀ lit, d.numberOk lit = true → d'.numberOk lit = true

def Tree.isNum : Tree → Bool
  | .num _ => true
  | _ => false

theorem keywordAt_mono {d d' : Dialect} (hd : d.Le d') {c : ℕ} {s : Text} {p : Text × Tree} (x : Text)
    (h : keywordAt d c s = some p) : keywordAt d' c (s ++ x) = some p := by
  unfold keywordAt at h ⊢
  split_ifs at h ⊢ with h₁ h₂ h₃ h₄ h₅ h₆ h₇ h₈ h₉ <;> try exact h
  all_goals grind [Dialect.Le]

theorem keywordAt_number {d : Dialect} {c : ℕ} {s lit r : Text} (hn : readNumber (c :: s) = some (lit, r))
    (x : Text) : keywordAt d c (s ++ x) = none := by
  rcases readNumber_head hn with hc | ⟨rfl, y, t, rfl, hy⟩
  · simp only [isDigit, Bool.and_eq_true, decide_eq_true_eq] at hc
    unfold keywordAt
    split_ifs <;> first | omega | rfl
  · simp only [isDigit, Bool.and_eq_true, decide_eq_true_eq] at hy
    simp [keywordAt]
    omega

theorem readScalar_mono {d d' : Dialect} (hd : d.Le d') {c : ℕ} {s r x : Text} {v : Tree}
    (h : readScalar d c s = .ok (v, r)) (hr : x = [] ∨ r ≠ [] ∨ v.isNum = false) :
    readScalar d' c (s ++ x) = .ok (v, r ++ x) := by
  unfold readScalar at h
  split at h
  · rename_i w v' hk
    split at h
    · rename_i r' hs
      simp only [Except.ok.injEq, Prod.mk.injEq] at h
      obtain ⟨rfl, rfl⟩ := h
      have he : c :: (s ++ x) = w ++ (r' ++ x) := by
        rw [← List.cons_append, stripPrefix_eq hs, List.append_assoc]
      simp [readScalar, keywordAt_mono hd x hk, he, stripPrefix_append]
    · simp at h
  · rename_i hk
    split at h
    · rename_i lit r' hn
      split_ifs at h with ho
      simp only [Except.ok.injEq, Prod.mk.injEq] at h
      obtain ⟨rfl, rfl⟩ := h
      have hk' : keywordAt d' c (s ++ x) = none := keywordAt_number hn x
      have hn' := readNumber_append x hn (by simpa [Tree.isNum] using hr)
      rw [List.cons_append] at hn'
      simp [readScalar, hk', hn', hd.number _ ho]
    · simp at h

end Library.Json
