import ObserverClub.CanonTokens
import ObserverClub.Decoding
import ObserverClub.Library.JsonAgreement
import ObserverClub.PythonNumbers

namespace ObserverClub.Canon

open Library Json

section Closing

theorem asciiBytes_closed {t : Text} (h : ∀ c ∈ t, c < 128 ∧ c ≠ 34 ∧ c ≠ 92) : Closed (Go.asciiBytes t) := by
  refine .of_plain fun b hb => ?_
  simp only [Go.asciiBytes, List.mem_map] at hb
  obtain ⟨c, hc, rfl⟩ := hb
  obtain ⟨h₁, h₂, h₃⟩ := h c hc
  exact ⟨fun he => h₂ ((ofNat_inj (b := 34) (by omega) (by decide)).mp he),
    fun he => h₃ ((ofNat_inj (b := 92) (by omega) (by decide)).mp he)⟩

theorem hexEscape_closed (c : ℕ) : Closed (Go.asciiBytes (hexEscape c)) := by
  refine Closed.escape _ (asciiBytes_closed (t := (afterBackslash c).drop 1) ?_)
  have digit : ∀ n, hexDigit (n % 16) < 128 ∧ hexDigit (n % 16) ≠ 34 ∧ hexDigit (n % 16) ≠ 92 := by
    intro n
    unfold hexDigit
    split_ifs <;> omega
  simp [afterBackslash, hexEscape, digit]

theorem encodeRune_closed {c : ℕ} (h₁ : c ≠ 34) (h₂ : c ≠ 92) : Closed (Utf8.encodeRune c) := by
  refine .of_plain fun b hb => ⟨?_, encodeRune_ne_backslash h₂ b hb⟩
  rintro rfl
  rcases encodeRune_head c with ⟨hc, he⟩ | ⟨-, -, hall⟩
  · rw [he, List.mem_singleton] at hb
    exact h₁ ((ofNat_inj (a := 34) (by decide) (by omega)).mp hb).symm
  · exact absurd (hall 34 hb) (by decide)

theorem quoteChar_closed (c : ℕ) : Closed (Go.quoteChar c) := by
  rcases quoteChar_cases c with ⟨e, h, -⟩ | ⟨h, -⟩ | ⟨h, -, h34, h92, -⟩ <;> rw [h]
  · exact .escape _ .nil
  · exact hexEscape_closed c
  · exact encodeRune_closed h34 h92

theorem pythonChar_closed (c : ℕ) : Closed (pythonChar c) := by
  rcases pythonChar_eq c with ⟨-, -, -, h⟩ | ⟨hc, h, h92, -⟩ <;> rw [h]
  · exact quoteChar_closed c
  · refine encodeRune_closed ?_ h92
    simp only [html, List.mem_cons, List.not_mem_nil, or_false] at hc
    omega

theorem written_closed (k : ℕ) (t : Text) : Closed (written undone k t) := by
  induction t generalizing k with
  | nil => cases k <;> exact .nil
  | cons c t ih =>
    cases k with
    | succ k => exact ih k
    | zero =>
      simp only [written]
      split_ifs with h92 hin
      · cases literalEscape undone t with
        | some x => exact .escape _ (ih 5)
        | none => exact .escape _ (ih 0)
      · refine Closed.append ?_ (ih 0)
        simp only [undone, List.mem_cons, List.not_mem_nil, or_false] at hin
        rcases hin with rfl | rfl | rfl <;> exact .plain _ (by decide) (by decide) .nil
      · exact (quoteChar_closed c).append (ih 0)

theorem string_agree (t : Text) :
    Agree (writeString t) (34 :: t.flatMap pythonChar ++ [34]) (sameString t = true) := by
  rw [writeString_eq]
  exact agree_quoted (written_closed 0 t) (.flatMap t fun c _ => pythonChar_closed c) (stringBody_eq_iff t)

theorem key_agree (t : Text) :
    Agree (Go.quote t) (34 :: t.flatMap pythonChar ++ [34]) (sameKey t = true) :=
  agree_quoted (.flatMap t fun c _ => quoteChar_closed c) (.flatMap t fun c _ => pythonChar_closed c)
    (keyBody_eq_iff t)

end Closing

section Values

def pythonWriter : Json.Writer Python.Num UInt8 where
  symbol := UInt8.ofNat
  num n := Utf8.encode (Python.numText n)
  str t := 34 :: t.flatMap pythonChar ++ [34]
  key t := 34 :: t.flatMap pythonChar ++ [34]
  arrange := sortKeys (· < ·)

theorem encode_quote (t : Text) : Utf8.encode (Python.quote t) = 34 :: t.flatMap pythonChar ++ [34] := by
  have h : Utf8.encode (t.flatMap Python.quoteChar) = t.flatMap pythonChar := by
    induction t with
    | nil => rfl
    | cons c t ih => rw [List.flatMap_cons, Utf8.encode_append, ih]; rfl
  rw [Python.quote, Utf8.encode_append, Utf8.encode_cons, h]
  rfl

theorem encode_writer : Writer.Encodes Utf8.encode (Python.writer true) pythonWriter where
  nil := rfl
  append := Utf8.encode_append
  symbol c hc := by simp [Python.writer, pythonWriter, Utf8.encodeRune_ascii hc]
  num _ := rfl
  str := encode_quote
  key := encode_quote
  arrange ms :=
    sortKeys_map (· < ·) (· < ·) (fun m : Text × Text => (m.1, Utf8.encode m.2)) (fun _ => rfl) ms
      (fun _ _ _ _ => Iff.rfl)

theorem keyLt_iff {s t : Text} (hs : Utf8.valid s = true) (ht : Utf8.valid t = true) : Go.keyLt s t ↔ s < t := by
  have bound : ∀ {u : Text}, Utf8.valid u = true → ∀ c ∈ u, c < 0x110000 := by
    intro u hu c hc
    have := of_decide_eq_true (List.all_eq_true.mp hu c hc)
    unfold Utf8.IsScalar at this
    omega
  refine ⟨fun h => ?_, Utf8.encode_lt (bound ht)⟩
  by_contra hn
  rcases lt_or_eq_of_le (not_lt.mp hn) with hlt | rfl
  · exact absurd h (List.lt_asymm (Utf8.encode_lt (bound hs) hlt))
  · exact absurd h (List.lt_irrefl _)

/-- A literal that Python writes back as it stood. -/
def kept (lit : Text) : Bool :=
  Python.numText (Python.numberOf lit) = lit && (Python.numberOf lit).short && lit.all (! Python.isSurrogate ·)

def plainValue : Test Text := ⟨kept, Utf8.valid, Utf8.valid⟩

/-- The strings and keys that both canonical forms write alike. -/
def same : Test Text := ⟨fun _ => true, sameString, sameKey⟩

theorem comparable :
    Writer.Comparable writer pythonWriter Python.numberOf plainValue same Go.keyLt (· < ·) where
  symbol _ := rfl
  num lit h := by
    have h' : Python.numText (Python.numberOf lit) = lit := by
      simp only [plainValue, kept, Bool.and_eq_true, decide_eq_true_eq] at h
      exact h.1.1
    simpa only [writer, pythonWriter, h', same] using Agree.refl (Utf8.encode lit)
  str t _ := string_agree t
  key t _ := key_agree t
  arrange := rfl
  arrange' := rfl
  order _ _ hs ht := keyLt_iff hs ht

theorem render_eq_iff {v : Go.Value} (h : v.all plainValue = true) :
    writer.render v = Utf8.encode ((Python.writer true).render (pythonView v)) ↔ v.all same = true := by
  rw [encode_writer.render]
  exact (Writer.render_agree comparable v h).eq_iff

end Values

end ObserverClub.Canon
