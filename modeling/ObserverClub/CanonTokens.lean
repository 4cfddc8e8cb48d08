import ObserverClub.CanonStrings

namespace ObserverClub.Canon

open Library Json

def pythonChar (c : ℕ) : Bytes := Utf8.encode (Python.quoteChar c)

def sameKey (t : Text) : Bool := t.all (fun c => c ∉ html && c ≠ 0x2028 && c ≠ 0x2029)

/-- No line separators, and no text that spells one of the escapes that are undone. -/
def sameString (t : Text) : Bool :=
  t.all (fun c => c ≠ 0x2028 && c ≠ 0x2029) && html.all (fun x => !decide (hexEscape x <:+: t))

section Tokens

theorem encode_ascii {t : Text} (h : ∀ c ∈ t, c < 128) : Utf8.encode t = Go.asciiBytes t := by
  induction t with
  | nil => rfl
  | cons c t ih =>
    rw [Utf8.encode_cons, Utf8.encodeRune_ascii (h c (by simp)), ih (fun x hx => h x (by simp [hx]))]
    rfl

theorem pythonChar_eq (c : ℕ) :
    (c ∉ html ∧ c ≠ 0x2028 ∧ c ≠ 0x2029 ∧ pythonChar c = Go.quoteChar c) ∨
      ((c ∈ html ∨ c = 0x2028 ∨ c = 0x2029) ∧ pythonChar c = Utf8.encodeRune c ∧ c ≠ 92 ∧
        Go.quoteChar c = Go.asciiBytes (hexEscape c)) := by
  have small : c < 32 → c ∉ html ∧ c ≠ 0x2028 ∧ c ≠ 0x2029 := by
    intro hc
    simp only [html, List.mem_cons, List.not_mem_nil, or_false]
    omega
  rcases basicEscape_cases c with ⟨e, h, h117, h92, hlt⟩ | ⟨h, hc⟩ | ⟨h, h32, h34, h92⟩
  · refine .inl ⟨?_, ?_, ?_, ?_⟩
    · rintro hm
      simp only [html, List.mem_cons, List.not_mem_nil, or_false] at hm
      rcases hm with rfl | rfl | rfl <;> simp [basicEscape] at h
    · rintro rfl
      simp [basicEscape] at h
    · rintro rfl
      simp [basicEscape] at h
    · rw [pythonChar, Python.quoteChar, Go.quoteChar, h, Option.getD_some]
      exact encode_ascii (by simp [hlt])
  · obtain ⟨h₁, h₂, h₃⟩ := small hc
    refine .inl ⟨h₁, h₂, h₃, ?_⟩
    rw [pythonChar, Python.quoteChar, Go.quoteChar, h, Option.getD_some]
    refine encode_ascii ?_
    have digit : ∀ n, hexDigit (n % 16) < 128 := by
      intro n
      unfold hexDigit
      split_ifs <;> omega
    simp [hexEscape, digit]
  · by_cases hc : c ∈ html ∨ c = 0x2028 ∨ c = 0x2029
    · refine .inr ⟨hc, ?_, h92, ?_⟩
      · simp [pythonChar, Python.quoteChar, h]
      · rw [Go.quoteChar, h]
        simp only [html, List.mem_cons, List.not_mem_nil, or_false] at hc
        exact if_pos (by omega)
    · simp only [not_or] at hc
      refine .inl ⟨hc.1, hc.2.1, hc.2.2, ?_⟩
      have hnot : ¬(c = 38 ∨ c = 60 ∨ c = 62 ∨ c = 0x2028 ∨ c = 0x2029) := by
        simp only [html, List.mem_cons, List.not_mem_nil, or_false] at hc
        omega
      simp only [Go.quoteChar, h, if_neg hnot]
      simp [pythonChar, Python.quoteChar, h]

theorem encodeRune_backslash {c : ℕ} (hc : c ≠ 92) (s t : Bytes) : Utf8.encodeRune c ++ s ≠ 92 :: t := by
  intro h
  have hne : Utf8.encodeRune c ≠ [] := by
    rcases encodeRune_head c with ⟨-, he⟩ | ⟨-, hne, -⟩
    · simp [he]
    · exact hne
  obtain ⟨b, r, hb⟩ := List.exists_cons_of_ne_nil hne
  rw [hb, List.cons_append, List.cons.injEq] at h
  exact encodeRune_ne_backslash hc b (by simp [hb]) h.1

theorem sameKey_cons (c : ℕ) (t : Text) :
    sameKey (c :: t) = true ↔ (c ∉ html ∧ c ≠ 0x2028 ∧ c ≠ 0x2029) ∧ sameKey t = true := by
  simp [sameKey, and_assoc]

theorem keyBody_eq_iff (t : Text) :
    t.flatMap Go.quoteChar = t.flatMap pythonChar ↔ sameKey t = true := by
  induction t with
  | nil => simp [sameKey]
  | cons c t ih =>
    rw [sameKey_cons, List.flatMap_cons, List.flatMap_cons]
    rcases pythonChar_eq c with ⟨h₁, h₂, h₃, he⟩ | ⟨hc, hp, h92, hg⟩
    · rw [he, List.append_cancel_left_eq, ih]
      exact ⟨fun h => ⟨⟨h₁, h₂, h₃⟩, h⟩, fun h => h.2⟩
    · constructor
      · intro h
        rw [hp, hg] at h
        exact absurd h.symm (encodeRune_backslash h92 _ _)
      · rintro ⟨⟨h₁, h₂, h₃⟩, -⟩
        exact absurd hc (by simp [h₁, h₂, h₃])

theorem infix_cons_iff {x c : ℕ} {t : Text} :
    hexEscape x <:+: c :: t ↔ (c = 92 ∧ (afterBackslash x).isPrefixOf t = true) ∨ hexEscape x <:+: t := by
  rw [List.infix_cons_iff, escape_eq, List.cons_prefix_cons, List.isPrefixOf_iff_prefix]
  exact or_congr_left ⟨fun h => ⟨h.1.symm, h.2⟩, fun h => ⟨h.1.symm, h.2⟩⟩

theorem sameString_cons (c : ℕ) (t : Text) :
    sameString (c :: t) = true ↔
      (c ≠ 0x2028 ∧ c ≠ 0x2029 ∧ (c = 92 → literalEscape html t = none)) ∧ sameString t = true := by
  have hlit : literalEscape html t = none ↔ ∀ x ∈ html, (afterBackslash x).isPrefixOf t = false := by
    rw [literalEscape, List.find?_eq_none]
    simp only [Bool.not_eq_true]
  rw [hlit]
  simp only [sameString, Bool.and_eq_true, List.all_eq_true, List.mem_cons, forall_eq_or_imp, decide_eq_true_eq,
    Bool.not_eq_true', decide_eq_false_iff_not, infix_cons_iff, not_or, not_and, Bool.not_eq_true]
  constructor
  · rintro ⟨⟨h₁, h₂⟩, h₃⟩
    exact ⟨⟨h₁.1, h₁.2, fun hc x hx => (h₃ x hx).1 hc⟩, h₂, fun x hx => (h₃ x hx).2⟩
  · rintro ⟨⟨h₁, h₂, h₃⟩, h₄, h₅⟩
    exact ⟨⟨⟨h₁, h₂⟩, h₄⟩, fun x hx => ⟨fun hc => h₃ hc x hx, h₅ x hx⟩⟩

def undone : List ℕ := [62, 60, 38]

theorem literalEscape_undone (t : Text) : literalEscape undone t = none ↔ literalEscape html t = none := by
  have hmem : ∀ x, x ∈ undone ↔ x ∈ html := by
    intro x
    simp only [undone, html, List.mem_cons, List.not_mem_nil, or_false]
    omega
  simp only [literalEscape, List.find?_eq_none, hmem]

theorem stringBody_eq_iff (t : Text) : written undone 0 t = t.flatMap pythonChar ↔ sameString t = true := by
  have hmem : ∀ x, x ∈ undone ↔ x ∈ html := by
    intro x
    simp only [undone, html, List.mem_cons, List.not_mem_nil, or_false]
    omega
  induction t with
  | nil => simp [written, sameString, hexEscape, html]
  | cons c t ih =>
    rw [sameString_cons, List.flatMap_cons]
    by_cases hc : c = 92
    · subst hc
      have hpy : pythonChar 92 = [92, 92] := by decide
      cases hl : literalEscape undone t with
      | some x =>
        have hx : x ∈ html := (hmem x).mp (List.mem_of_find?_eq_some hl)
        have hne : literalEscape html t ≠ none := fun h => by
          rw [← literalEscape_undone, hl] at h
          simp at h
        simp only [written, if_true, hl, hpy, List.cons_append, List.nil_append, List.cons.injEq, true_and]
        exact ⟨fun h => absurd h.1 (html_byte hx).1, fun h => absurd (h.1.2.2 trivial) hne⟩
      | none =>
        simp only [written, if_true, hl, hpy, List.cons_append, List.nil_append, List.cons.injEq, true_and, ih]
        exact ⟨fun h => ⟨⟨by decide, by decide, fun _ => (literalEscape_undone t).mp hl⟩, h⟩, fun h => h.2⟩
    · simp only [written, if_neg hc, hmem]
      rcases pythonChar_eq c with ⟨h₁, h₂, h₃, he⟩ | ⟨hk, hp, -, hg⟩
      · simp only [if_neg h₁, he, List.append_cancel_left_eq, ih]
        exact ⟨fun h => ⟨⟨h₂, h₃, fun h => absurd h hc⟩, h⟩, fun h => h.2⟩
      · by_cases hh : c ∈ html
        · have hlt : c < 128 := by
            simp only [html, List.mem_cons, List.not_mem_nil, or_false] at hh
            omega
          simp only [if_pos hh, hp, Utf8.encodeRune_ascii hlt, List.append_cancel_left_eq, ih]
          exact ⟨fun h => ⟨⟨by omega, by omega, fun h => absurd h hc⟩, h⟩, fun h => h.2⟩
        · rw [if_neg hh, hg, hp]
          constructor
          · intro h
            exact absurd h.symm (encodeRune_backslash hc _ _)
          · rintro ⟨⟨h₁, h₂, -⟩, -⟩
            exact absurd hk (by simp [hh, h₁, h₂])

end Tokens

section Undoing

theorem written_none (t : Text) : written [] 0 t = t.flatMap Go.quoteChar := by
  induction t with
  | nil => rfl
  | cons c t ih =>
    by_cases hc : c = 92
    · subst hc
      simp only [written, if_true, literalEscape, List.find?_nil, ih, List.flatMap_cons]
      rfl
    · simp [written, hc, ih]

theorem replaceAll_written (done : List ℕ) (x : ℕ) (hd : ∀ y ∈ done, y ∈ html) (hx : x ∈ html) (hnew : x ∉ done)
    (t : Text) :
    Go.replaceAll (34 :: written done 0 t ++ [34]) (Go.asciiBytes (hexEscape x)) [.ofNat x] =
      34 :: written (x :: done) 0 t ++ [34] := by
  rw [Go.replaceAll, List.cons_append, replaceFrom_other (p := 92) rfl (by decide), replace_written hd hx hnew]
  rfl

theorem writeString_eq (t : Text) : writeString t = 34 :: written undone 0 t ++ [34] := by
  have h₁ := replaceAll_written [] 38 (by simp) (by decide) (by simp) t
  have h₂ := replaceAll_written [38] 60 (by decide) (by decide) (by decide) t
  have h₃ := replaceAll_written [60, 38] 62 (by decide) (by decide) (by decide) t
  rw [written_none] at h₁
  have e₁ : Go.asciiBytes (hexEscape 38) = ascii "\\u0026" := by decide
  have e₂ : Go.asciiBytes (hexEscape 60) = ascii "\\u003c" := by decide
  have e₃ : Go.asciiBytes (hexEscape 62) = ascii "\\u003e" := by decide
  have b₁ : [UInt8.ofNat 38] = ascii "&" := by decide
  have b₂ : [UInt8.ofNat 60] = ascii "<" := by decide
  have b₃ : [UInt8.ofNat 62] = ascii ">" := by decide
  rw [e₁, b₁] at h₁
  rw [e₂, b₂] at h₂
  rw [e₃, b₃] at h₃
  simp only [writeString, Go.quote]
  rw [h₁, h₂, h₃]
  rfl

end Undoing

end ObserverClub.Canon
