import Mathlib.Data.List.Infix
import ObserverClub.Canon

/-!
One string in the two canonical forms. The daemon undoes HTML escapes by replacing text in the encoded
bytes; `written` says character by character what is left, after the escapes in `done` were undone.
-/

namespace ObserverClub.Canon

open Library Json

def html : List ℕ := [38, 60, 62]

/-- The escape of `x` without its backslash. -/
def afterBackslash (x : ℕ) : Text := (hexEscape x).drop 1

def literalEscape (done : List ℕ) (s : Text) : Option ℕ := done.find? (fun x => (afterBackslash x).isPrefixOf s)

def written (done : List ℕ) : ℕ → Text → Bytes
  | _, [] => []
  | k + 1, _ :: s => written done k s
  | 0, c :: s =>
    if c = 92 then
      match literalEscape done s with
      | some x => 92 :: .ofNat x :: written done 5 s
      | none => 92 :: 92 :: written done 0 s
    else (if c ∈ done then [.ofNat c] else Go.quoteChar c) ++ written done 0 s

section Blocks

theorem quoteChar_cases (c : ℕ) :
    (∃ e, Go.quoteChar c = [92, UInt8.ofNat e] ∧ e ≠ 117 ∧ (e = 92 → c = 92) ∧ e < 128) ∨
      (Go.quoteChar c = Go.asciiBytes (hexEscape c) ∧ (c < 32 ∨ c ∈ html ∨ c = 0x2028 ∨ c = 0x2029)) ∨
      (Go.quoteChar c = Utf8.encodeRune c ∧ 32 ≤ c ∧ c ≠ 34 ∧ c ≠ 92 ∧ c ∉ html ∧ c ≠ 0x2028 ∧ c ≠ 0x2029) := by
  rcases basicEscape_cases c with ⟨e, h, he⟩ | ⟨h, hc⟩ | ⟨h, hc⟩
  · exact .inl ⟨e, by rw [Go.quoteChar, h]; rfl, he⟩
  · exact .inr (.inl ⟨by rw [Go.quoteChar, h], .inl hc⟩)
  · simp only [Go.quoteChar, h, html, List.mem_cons, List.not_mem_nil, or_false]
    split_ifs with hh
    · exact .inr (.inl ⟨rfl, by omega⟩)
    · exact .inr (.inr ⟨rfl, by omega⟩)

theorem encodeRune_head (c : ℕ) :
    (c < 128 ∧ Utf8.encodeRune c = [UInt8.ofNat c]) ∨
      (128 ≤ c ∧ Utf8.encodeRune c ≠ [] ∧ ∀ b ∈ Utf8.encodeRune c, 128 ≤ b.toNat) := by
  unfold Utf8.encodeRune
  split_ifs with h₁ h₂ h₃
  · exact .inl ⟨h₁, rfl⟩
  all_goals
    refine .inr ⟨by omega, by simp, ?_⟩
    simp only [List.mem_cons, List.not_mem_nil, or_false, forall_eq_or_imp, forall_eq, UInt8.toNat_ofNat']
    omega

theorem ofNat_inj {a b : ℕ} (ha : a < 256) (hb : b < 256) : UInt8.ofNat a = UInt8.ofNat b ↔ a = b := by
  rw [← UInt8.toNat_inj, Utf8.toNat_ofNat_of_lt ha, Utf8.toNat_ofNat_of_lt hb]

theorem encodeRune_ne_backslash {c : ℕ} (h : c ≠ 92) : ∀ b ∈ Utf8.encodeRune c, b ≠ 92 := by
  intro b hb he
  subst he
  rcases encodeRune_head c with ⟨hc, he⟩ | ⟨-, -, hall⟩
  · rw [he, List.mem_singleton] at hb
    exact h ((ofNat_inj (a := 92) (by decide) (by omega)).mp hb).symm
  · exact absurd (hall 92 hb) (by decide)

end Blocks

section Replacing

variable {pat rep : Bytes}

theorem replaceFrom_skip (n : ℕ) (a s : Bytes) (h : a.length = n) :
    Go.replaceFrom pat rep n (a ++ s) = Go.replaceFrom pat rep 0 s := by
  induction a generalizing n with
  | nil =>
    obtain rfl : n = 0 := by simpa using h.symm
    rfl
  | cons b a ih =>
    obtain ⟨m, rfl⟩ : ∃ m, n = m + 1 := ⟨a.length, by simpa using h.symm⟩
    simpa [Go.replaceFrom] using ih m (by simpa using h)

theorem replaceFrom_plain {p : UInt8} (hp : pat.head? = some p) (a s : Bytes) (ha : ∀ b ∈ a, b ≠ p) :
    Go.replaceFrom pat rep 0 (a ++ s) = a ++ Go.replaceFrom pat rep 0 s := by
  induction a with
  | nil => rfl
  | cons b a ih =>
    have hb : pat.isPrefixOf (b :: (a ++ s)) = false := by
      cases pat with
      | nil => simp at hp
      | cons q pat =>
        obtain rfl : q = p := by simpa using hp
        simp [List.isPrefixOf, Ne.symm (ha b (by simp))]
    simp [Go.replaceFrom, hb, ih (fun x hx => ha x (by simp [hx]))]

theorem replaceFrom_other {p b : UInt8} (hp : pat.head? = some p) (hb : b ≠ p) (s : Bytes) :
    Go.replaceFrom pat rep 0 (b :: s) = b :: Go.replaceFrom pat rep 0 s :=
  replaceFrom_plain hp [b] s (by simpa using hb)

theorem replaceFrom_miss {b : UInt8} {s : Bytes} (h : pat.isPrefixOf (b :: s) = false) :
    Go.replaceFrom pat rep 0 (b :: s) = b :: Go.replaceFrom pat rep 0 s := by simp [Go.replaceFrom, h]

theorem replaceFrom_hit {b : UInt8} {t s : Bytes} :
    Go.replaceFrom (b :: t) rep 0 (b :: t ++ s) = rep ++ Go.replaceFrom (b :: t) rep 0 s := by
  have h : (b :: t).isPrefixOf (b :: (t ++ s)) = true := by simp
  rw [List.cons_append, Go.replaceFrom, if_pos h]
  congr 1
  exact replaceFrom_skip _ _ _ (by simp)

end Replacing

section Passes

def Plain (c : ℕ) : Prop := 35 ≤ c ∧ c < 128 ∧ c ≠ 92 ∧ c ∉ html

theorem Plain.quoteChar {c : ℕ} (h : Plain c) : Go.quoteChar c = [UInt8.ofNat c] := by
  obtain ⟨h₁, h₂, h₃, h₄⟩ := h
  simp only [html, List.mem_cons, List.not_mem_nil, or_false, not_or] at h₄
  have he : basicEscape c = none := by
    unfold basicEscape
    split_ifs <;> first | omega | rfl
  rw [Go.quoteChar, he]
  simp only
  rw [if_neg (by omega), Utf8.encodeRune_ascii h₂]

theorem afterBackslash_plain {x c : ℕ} (hx : x ∈ html) (hc : c ∈ afterBackslash x) : Plain c := by
  simp only [html, List.mem_cons, List.not_mem_nil, or_false] at hx
  unfold Plain
  rcases hx with rfl | rfl | rfl <;> revert c <;> decide

theorem written_starts {done : List ℕ} (hd : ∀ x ∈ done, x ∈ html) (p s : Text) (hp : ∀ c ∈ p, Plain c)
    (h : (Go.asciiBytes p).isPrefixOf (written done 0 s ++ [34]) = true) : p.isPrefixOf s = true := by
  induction p generalizing s with
  | nil => rfl
  | cons a p ih =>
    obtain ⟨h₁, h₂, h₃, h₄⟩ := hp a (by simp)
    have differ : ∀ {n : ℕ}, n < 128 → (UInt8.ofNat a = UInt8.ofNat n ↔ a = n) := fun hn => ofNat_inj (by omega) (by omega)
    have off34 : UInt8.ofNat a ≠ 34 := fun he => absurd ((differ (n := 34) (by omega)).mp he) (by omega)
    have off92 : UInt8.ofNat a ≠ 92 := fun he => absurd ((differ (n := 92) (by omega)).mp he) h₃
    cases s with
    | nil => simp [Go.asciiBytes, written, List.isPrefixOf, off34] at h
    | cons c s =>
      by_cases hc : c = 92
      · simp only [written, if_pos hc] at h
        split at h <;> simp [Go.asciiBytes, List.isPrefixOf, off92] at h
      · simp only [written, if_neg hc] at h
        have hblock : (if c ∈ done then [UInt8.ofNat c] else Go.quoteChar c) = [UInt8.ofNat a] ∧ c = a := by
          split_ifs at h ⊢ with hin
          · have hlt : c < 128 := by
              have := hd c hin
              simp only [html, List.mem_cons, List.not_mem_nil, or_false] at this
              omega
            simp only [Go.asciiBytes, List.map_cons, List.cons_append, List.nil_append, List.isPrefixOf,
              Bool.and_eq_true, beq_iff_eq] at h
            obtain rfl := (differ hlt).mp h.1
            exact absurd (hd a hin) h₄
          · rcases quoteChar_cases c with ⟨e, hq, -⟩ | ⟨hq, -⟩ | ⟨hq, -⟩
            · simp [hq, Go.asciiBytes, List.isPrefixOf, off92] at h
            · simp only [hq, Go.asciiBytes, hexEscape, List.map_cons, List.cons_append, List.isPrefixOf,
                Bool.and_eq_true, beq_iff_eq] at h
              exact absurd h.1 off92
            · rcases encodeRune_head c with ⟨hlt, he⟩ | ⟨-, hne, hall⟩
              · simp only [hq, he, Go.asciiBytes, List.map_cons, List.cons_append, List.nil_append,
                  List.isPrefixOf, Bool.and_eq_true, beq_iff_eq] at h
                obtain rfl := (differ hlt).mp h.1
                exact ⟨by rw [hq, he], rfl⟩
              · obtain ⟨b, t, hb⟩ := List.exists_cons_of_ne_nil hne
                simp only [hq, hb, Go.asciiBytes, List.map_cons, List.cons_append, List.isPrefixOf,
                  Bool.and_eq_true, beq_iff_eq] at h
                have := hall b (by simp [hb])
                rw [← h.1, Utf8.toNat_ofNat_of_lt (by omega)] at this
                omega
        obtain ⟨hb, rfl⟩ := hblock
        rw [hb] at h
        simp only [Go.asciiBytes, List.map_cons, List.cons_append, List.nil_append, List.isPrefixOf,
          Bool.and_eq_true, beq_self_eq_true, true_and] at h
        simp [List.isPrefixOf, ih s (fun x hx => hp x (by simp [hx])) h]

theorem hexEscape_inj {c x : ℕ} (hc : c < 0x10000) (hx : x < 0x10000) (h : hexEscape c = hexEscape x) : c = x := by
  have digit : ∀ {a b : ℕ}, a < 16 → b < 16 → hexDigit a = hexDigit b → a = b := by
    intro a b ha hb he
    unfold hexDigit at he
    split_ifs at he <;> omega
  simp only [hexEscape, List.cons.injEq, and_true, true_and] at h
  obtain ⟨h₁, h₂, h₃, h₄⟩ := h
  have := digit (by omega) (by omega) h₁
  have := digit (by omega) (by omega) h₂
  have := digit (by omega) (by omega) h₃
  have := digit (by omega) (by omega) h₄
  omega

theorem asciiBytes_inj {a b : Text} (ha : ∀ c ∈ a, c < 256) (hb : ∀ c ∈ b, c < 256)
    (h : Go.asciiBytes a = Go.asciiBytes b) : a = b := by
  induction a generalizing b with
  | nil => cases b <;> simp_all [Go.asciiBytes]
  | cons c a ih =>
    cases b with
    | nil => simp [Go.asciiBytes] at h
    | cons d b =>
      simp only [Go.asciiBytes, List.map_cons, List.cons.injEq] at h
      rw [(ofNat_inj (ha c (by simp)) (hb d (by simp))).mp h.1,
        ih (fun x hx => ha x (by simp [hx])) (fun x hx => hb x (by simp [hx])) h.2]

theorem hexEscape_lt (c : ℕ) : ∀ d ∈ hexEscape c, d < 256 := by
  have digit : ∀ n, hexDigit (n % 16) < 256 := by
    intro n
    unfold hexDigit
    split_ifs <;> omega
  simp [hexEscape, digit]

theorem escape_differs {c x : ℕ} (hx : x ∈ html) (hc : c < 32 ∨ c ∈ html ∨ c = 0x2028 ∨ c = 0x2029) (hne : c ≠ x)
    (s : Bytes) : (Go.asciiBytes (hexEscape x)).isPrefixOf (Go.asciiBytes (hexEscape c) ++ s) = false := by
  have bound : ∀ y ∈ html, y < 0x10000 := by decide
  rw [Bool.eq_false_iff, ne_eq, List.isPrefixOf_iff_prefix]
  intro hp
  have hlen : (Go.asciiBytes (hexEscape x)).length = (Go.asciiBytes (hexEscape c)).length := by
    simp [Go.asciiBytes, hexEscape]
  obtain ⟨t, ht⟩ := hp
  have he := List.append_inj_left ht hlen
  exact hne (hexEscape_inj (by rcases hc with hc | hc | hc | hc <;> first | omega | exact bound c hc) (bound x hx)
    (asciiBytes_inj (hexEscape_lt x) (hexEscape_lt c) he).symm)

theorem escape_eq (x : ℕ) : hexEscape x = 92 :: afterBackslash x := rfl

theorem afterBackslash_length (x : ℕ) : (afterBackslash x).length = 5 := rfl

theorem written_plain {done : List ℕ} (hd : ∀ x ∈ done, x ∈ html) (p s : Text) (hp : ∀ c ∈ p, Plain c) :
    written done 0 (p ++ s) = Go.asciiBytes p ++ written done 0 s := by
  induction p with
  | nil => rfl
  | cons c p ih =>
    have hc := hp c (by simp)
    have hnot : c ∉ done := fun hin => hc.2.2.2 (hd c hin)
    simp [written, hc.2.2.1, hnot, hc.quoteChar, Go.asciiBytes, ih (fun x hx => hp x (by simp [hx]))]

theorem written_skip (done : List ℕ) (p s : Text) : written done p.length (p ++ s) = written done 0 s := by
  induction p with
  | nil => rfl
  | cons c p ih => simpa [written] using ih

theorem html_byte {x : ℕ} (hx : x ∈ html) : UInt8.ofNat x ≠ 92 ∧ UInt8.ofNat x ≠ 117 := by
  simp only [html, List.mem_cons, List.not_mem_nil, or_false] at hx
  rcases hx with rfl | rfl | rfl <;> decide

theorem quoteChar_html {x : ℕ} (hx : x ∈ html) : Go.quoteChar x = Go.asciiBytes (hexEscape x) := by
  simp only [html, List.mem_cons, List.not_mem_nil, or_false] at hx
  rcases hx with rfl | rfl | rfl <;> rfl

/-- A backslash before anything but a `u` begins no escape. -/
theorem escape_miss (x : ℕ) {b : UInt8} (hb : b ≠ 117) (s : Bytes) :
    (Go.asciiBytes (hexEscape x)).isPrefixOf (92 :: b :: s) = false := by
  have : ((117 : UInt8) == b) = false := by simpa using Ne.symm hb
  simp [hexEscape, Go.asciiBytes, List.isPrefixOf, this]

theorem afterBackslash_unique {x y : ℕ} (hx : x ∈ html) (hy : y ∈ html) {s : Text}
    (h₁ : (afterBackslash x).isPrefixOf s = true) (h₂ : (afterBackslash y).isPrefixOf s = true) : x = y := by
  have bound : ∀ y ∈ html, y < 0x10000 := by decide
  rw [List.isPrefixOf_iff_prefix] at h₁ h₂
  obtain ⟨t, rfl⟩ := h₁
  obtain ⟨u, hu⟩ := h₂
  have he := List.append_inj_left hu rfl
  exact (hexEscape_inj (bound y hy) (bound x hx) (by rw [escape_eq, escape_eq, he])).symm

theorem replace_written {done : List ℕ} {x : ℕ} (hd : ∀ y ∈ done, y ∈ html) (hx : x ∈ html) (hnew : x ∉ done)
    (k : ℕ) (s : Text) :
    Go.replaceFrom (Go.asciiBytes (hexEscape x)) [.ofNat x] 0 (written done k s ++ [34]) =
      written (x :: done) k s ++ [34] := by
  have hp : (Go.asciiBytes (hexEscape x)).head? = some 92 := rfl
  have hcons : Go.asciiBytes (hexEscape x) = 92 :: Go.asciiBytes (afterBackslash x) := rfl
  have hplain : ∀ c ∈ afterBackslash x, Plain c := fun c => afterBackslash_plain hx
  induction s generalizing k with
  | nil => cases k <;> exact replaceFrom_plain hp [34] [] (by simp)
  | cons c s ih =>
    cases k with
    | succ k => exact ih k
    | zero =>
      by_cases hc : c = 92
      · subst hc
        cases hl : literalEscape done s with
        | some y =>
          have hy : y ∈ html := hd y (List.mem_of_find?_eq_some hl)
          have hl' : literalEscape (x :: done) s = some y := by
            have hm : (afterBackslash x).isPrefixOf s = false := by
              rw [Bool.eq_false_iff]
              intro hm
              have hm' : (afterBackslash y).isPrefixOf s = true :=
                List.find?_some (p := fun x => (afterBackslash x).isPrefixOf s) hl
              exact hnew (afterBackslash_unique hx hy hm hm' ▸ List.mem_of_find?_eq_some hl)
            rwa [literalEscape, List.find?_cons, hm]
          have hy' := html_byte hy
          simp only [written, if_true, hl, hl', List.cons_append]
          rw [replaceFrom_miss (escape_miss x hy'.2 _), replaceFrom_other hp hy'.1, ih 5]
        | none =>
          by_cases hm : (afterBackslash x).isPrefixOf s = true
          · obtain ⟨t, rfl⟩ := List.isPrefixOf_iff_prefix.mp hm
            have hl' : literalEscape (x :: done) (afterBackslash x ++ t) = some x := by
              simp [literalEscape]
            have h5 := ih 5
            rw [← afterBackslash_length x, written_skip, written_skip] at h5
            have hskip := written_skip (x :: done) (afterBackslash x) t
            rw [afterBackslash_length] at hskip
            simp only [written, if_true, hl, hl', written_plain hd _ t hplain, List.cons_append, hskip]
            rw [replaceFrom_miss (escape_miss x (by decide) _), List.append_assoc, hcons, ← List.cons_append,
              replaceFrom_hit, ← hcons, h5]
            rfl
          · have hl' : literalEscape (x :: done) s = none := by
              simpa [literalEscape, List.find?_cons, hm] using hl
            simp only [written, if_true, hl, hl', List.cons_append]
            have hmiss : (Go.asciiBytes (hexEscape x)).isPrefixOf (92 :: (written done 0 s ++ [34])) = false := by
              rw [hcons, Bool.eq_false_iff, List.isPrefixOf, beq_self_eq_true, Bool.true_and]
              exact fun h => hm (written_starts hd _ s hplain h)
            rw [replaceFrom_miss (escape_miss x (by decide) _), replaceFrom_miss hmiss, ih 0]
      · simp only [written, if_neg hc, List.append_assoc]
        by_cases hcx : c = x
        · subst hcx
          rw [if_neg hnew, if_pos List.mem_cons_self, quoteChar_html hx, hcons, replaceFrom_hit, ← hcons, ih 0]
        · by_cases hin : c ∈ done
          · rw [if_pos hin, if_pos (List.mem_cons_of_mem _ hin),
              replaceFrom_plain hp _ _ (by simpa using (html_byte (hd c hin)).1), ih 0]
          · have hin' : c ∉ x :: done := by simpa using ⟨hcx, hin⟩
            rw [if_neg hin, if_neg hin']
            rcases quoteChar_cases c with ⟨e, hq, h117, h92, hlt⟩ | ⟨hq, hkind⟩ | ⟨hq, -, -, h92, -⟩
            · have he : UInt8.ofNat e ≠ 92 := fun h => hc (h92 ((ofNat_inj (b := 92) (by omega) (by decide)).mp h))
              have he' : UInt8.ofNat e ≠ 117 := fun h => h117 ((ofNat_inj (b := 117) (by omega) (by decide)).mp h)
              simp only [hq, List.cons_append, List.nil_append]
              rw [replaceFrom_miss (escape_miss x he' _), replaceFrom_other hp he, ih 0]
            · have hmiss := escape_differs hx hkind hcx (written done 0 s ++ [34])
              have hrest : ∀ b ∈ Go.asciiBytes (afterBackslash c), b ≠ 92 := by
                have digit : ∀ n, UInt8.ofNat (hexDigit (n % 16)) ≠ 92 := by
                  intro n h
                  have := (ofNat_inj (a := hexDigit (n % 16)) (b := 92) (by unfold hexDigit; split_ifs <;> omega)
                    (by decide)).mp h
                  unfold hexDigit at this
                  split_ifs at this <;> omega
                simp [Go.asciiBytes, afterBackslash, hexEscape, digit]
              have hcons' : Go.asciiBytes (hexEscape c) = 92 :: Go.asciiBytes (afterBackslash c) := rfl
              rw [hq]
              rw [hcons', List.cons_append] at hmiss ⊢
              rw [replaceFrom_miss hmiss, replaceFrom_plain hp _ _ hrest, ih 0, List.cons_append]
            · rw [hq, replaceFrom_plain hp _ _ (encodeRune_ne_backslash h92), ih 0]

end Passes

end ObserverClub.Canon
