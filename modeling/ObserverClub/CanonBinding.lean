import ObserverClub.CanonAgreement
import ObserverClub.Library.JsonInjective

namespace ObserverClub.Canon

open Library Json

section Blocks

/-- What a character comes to in a string value where it spells no escape. -/
def block (c : ℕ) : Bytes := if c ∈ undone then [UInt8.ofNat c] else Go.quoteChar c

theorem mem_undone {x : ℕ} : x ∈ undone ↔ x ∈ html := by
  simp only [undone, html, List.mem_cons, List.not_mem_nil, or_false]
  omega

theorem html_lt {x : ℕ} (hx : x ∈ html) : x < 128 := by
  simp only [html, List.mem_cons, List.not_mem_nil, or_false] at hx
  omega

theorem simpleEscape_of_basicEscape {c e : ℕ} (h : basicEscape c = some [92, e]) : simpleEscape e = some c := by
  unfold basicEscape at h
  split_ifs at h <;> simp only [hexEscape, Option.some.injEq, List.cons.injEq, reduceCtorEq, true_and, and_true,
    and_false] at h <;> subst_vars <;> rfl

theorem quoteChar_short {c e : ℕ} (h : Go.quoteChar c = [92, UInt8.ofNat e]) (he : e < 128) :
    simpleEscape e = some c := by
  rcases basicEscape_cases c with ⟨e', hb, -, -, hlt⟩ | ⟨hb, -⟩ | ⟨hb, -, -, h92⟩
  · simp only [Go.quoteChar, hb, Go.asciiBytes, List.map_cons, List.map_nil, List.cons.injEq, and_true] at h
    rw [← (ofNat_inj (by omega) (by omega)).mp h.2]
    exact simpleEscape_of_basicEscape hb
  · simp [Go.quoteChar, hb, Go.asciiBytes, hexEscape] at h
  · simp only [Go.quoteChar, hb] at h
    split_ifs at h
    · simp [Go.asciiBytes, hexEscape] at h
    · exact absurd (h ▸ List.mem_cons_self) (fun hm => encodeRune_ne_backslash h92 92 hm rfl)

theorem encodeRune_unique {c c' : ℕ} (hc : c < 0x110000) (hc' : c' < 0x110000) {r r' : Bytes}
    (h : Utf8.encodeRune c ++ r = Utf8.encodeRune c' ++ r') : c = c' ∧ r = r' := by
  rcases lt_trichotomy c c' with hlt | rfl | hlt
  · have := Utf8.encodeRune_lt hlt hc' r r'
    rw [h] at this
    exact absurd this (List.lt_irrefl _)
  · exact ⟨rfl, List.append_cancel_left h⟩
  · have := Utf8.encodeRune_lt hlt hc r' r
    rw [h] at this
    exact absurd this (List.lt_irrefl _)

theorem hexEscape_unique {c c' : ℕ} (hc : c < 0x10000) (hc' : c' < 0x10000) {r r' : Bytes}
    (h : Go.asciiBytes (hexEscape c) ++ r = Go.asciiBytes (hexEscape c') ++ r') : c = c' ∧ r = r' := by
  have hlen : (Go.asciiBytes (hexEscape c)).length = (Go.asciiBytes (hexEscape c')).length := by
    simp [Go.asciiBytes, hexEscape]
  obtain ⟨h₁, h₂⟩ := List.append_inj h hlen
  exact ⟨hexEscape_inj hc hc' (asciiBytes_inj (hexEscape_lt c) (hexEscape_lt c') h₁), h₂⟩

theorem quoteChar_unique {c c' : ℕ} (hc : c < 0x110000) (hc' : c' < 0x110000) {r r' : Bytes}
    (h : Go.quoteChar c ++ r = Go.quoteChar c' ++ r') : c = c' ∧ r = r' := by
  have small : ∀ {d : ℕ}, d < 32 ∨ d ∈ html ∨ d = 0x2028 ∨ d = 0x2029 → d < 0x10000 := by
    intro d hd
    simp only [html, List.mem_cons, List.not_mem_nil, or_false] at hd
    omega
  have escape : ∀ d, ∃ s, Go.asciiBytes (hexEscape d) = 92 :: 117 :: s := fun d => ⟨_, rfl⟩
  rcases quoteChar_cases c with ⟨e, hq, h117, -, hlt⟩ | ⟨hq, hk⟩ | ⟨hq, -, -, h92, -⟩ <;>
    rcases quoteChar_cases c' with ⟨e', hq', h117', -, hlt'⟩ | ⟨hq', hk'⟩ | ⟨hq', -, -, h92', -⟩
  · rw [hq, hq'] at h
    simp only [List.cons_append, List.nil_append, List.cons.injEq, true_and] at h
    obtain rfl : e = e' := (ofNat_inj (by omega) (by omega)).mp h.1
    exact ⟨Option.some.inj ((quoteChar_short hq hlt).symm.trans (quoteChar_short hq' hlt')), h.2⟩
  · obtain ⟨s, hs⟩ := escape c'
    rw [hq, hq', hs] at h
    simp only [List.cons_append, List.nil_append, List.cons.injEq, true_and] at h
    exact absurd ((ofNat_inj (b := 117) (by omega) (by decide)).mp h.1) h117
  · rw [hq, hq'] at h
    exact absurd h.symm (encodeRune_backslash h92' _ _)
  · obtain ⟨s, hs⟩ := escape c
    rw [hq, hq', hs] at h
    simp only [List.cons_append, List.nil_append, List.cons.injEq, true_and] at h
    exact absurd ((ofNat_inj (b := 117) (by omega) (by decide)).mp h.1.symm) h117'
  · rw [hq, hq'] at h
    exact hexEscape_unique (small hk) (small hk') h
  · obtain ⟨s, hs⟩ := escape c
    rw [hq, hq', hs] at h
    exact absurd h.symm (encodeRune_backslash h92' _ _)
  · rw [hq, hq'] at h
    exact absurd h (encodeRune_backslash h92 _ _)
  · obtain ⟨s, hs⟩ := escape c'
    rw [hq, hq', hs] at h
    exact absurd h (encodeRune_backslash h92 _ _)
  · rw [hq, hq'] at h
    exact encodeRune_unique hc hc' h

theorem quoteChar_bare {c x : ℕ} (hc : c < 0x110000) (hx : x ∈ html) {r r' : Bytes} :
    Go.quoteChar c ++ r ≠ UInt8.ofNat x :: r' := by
  intro h
  have hx128 := html_lt hx
  have h92 := (html_byte hx).1
  rcases quoteChar_cases c with ⟨e, hq, -⟩ | ⟨hq, -⟩ | ⟨hq, -, -, -, hnot, -⟩
  · rw [hq, List.cons_append, List.cons.injEq] at h
    exact h92 h.1.symm
  · rw [hq, escape_eq, Go.asciiBytes, List.map_cons, List.cons_append, List.cons.injEq] at h
    exact h92 h.1.symm
  · rw [hq, ← List.singleton_append, ← Utf8.encodeRune_ascii hx128] at h
    exact hnot ((encodeRune_unique hc (by omega) h).1 ▸ hx)

theorem quoteChar_ne_nil (c : ℕ) : Go.quoteChar c ≠ [] := by
  rcases quoteChar_cases c with ⟨e, hq, -⟩ | ⟨hq, -⟩ | ⟨hq, -⟩ <;> rw [hq]
  · simp
  · simp [Go.asciiBytes, hexEscape]
  · rcases encodeRune_head c with ⟨-, he⟩ | ⟨-, hne, -⟩
    · simp [he]
    · exact hne

theorem block_ne_nil (c : ℕ) : block c ≠ [] := by
  unfold block
  split_ifs
  · simp
  · exact quoteChar_ne_nil c

theorem block_unique {c c' : ℕ} (hc : c < 0x110000) (hc' : c' < 0x110000) {r r' : Bytes}
    (h : block c ++ r = block c' ++ r') : c = c' ∧ r = r' := by
  unfold block at h
  split_ifs at h with hu hu' hu'
  · rw [← Utf8.encodeRune_ascii (html_lt (mem_undone.mp hu)), ← Utf8.encodeRune_ascii (html_lt (mem_undone.mp hu'))] at h
    exact encodeRune_unique hc hc' h
  · exact absurd h.symm (quoteChar_bare hc' (mem_undone.mp hu))
  · exact absurd h (quoteChar_bare hc (mem_undone.mp hu'))
  · exact quoteChar_unique hc hc' h

theorem block_literal {c x : ℕ} (hx : x ∈ html) {r r' : Bytes} :
    block c ++ r ≠ 92 :: UInt8.ofNat x :: r' := by
  intro h
  have hx128 := html_lt hx
  unfold block at h
  split_ifs at h with hu
  · rw [List.cons_append, List.cons.injEq] at h
    exact (html_byte (mem_undone.mp hu)).1 h.1
  · rcases quoteChar_cases c with ⟨e, hq, -, -, hlt⟩ | ⟨hq, -⟩ | ⟨hq, -, -, h92, -⟩
    · have hs := quoteChar_short hq hlt
      simp only [hq, List.cons_append, List.nil_append, List.cons.injEq, true_and] at h
      obtain rfl : e = x := (ofNat_inj (by omega) (by omega)).mp h.1
      simp only [html, List.mem_cons, List.not_mem_nil, or_false] at hx
      rcases hx with rfl | rfl | rfl <;> simp [simpleEscape] at hs
    · rw [hq] at h
      simp only [Go.asciiBytes, hexEscape, List.map_cons, List.cons_append, List.cons.injEq] at h
      exact (html_byte hx).2 h.2.1.symm
    · rw [hq] at h
      exact encodeRune_backslash h92 _ _ h

end Blocks

section Strings

theorem written_cons (c : ℕ) (s : Text) :
    (∃ x ∈ html, ∃ t, c = 92 ∧ s = afterBackslash x ++ t ∧
      written undone 0 (c :: s) = 92 :: UInt8.ofNat x :: written undone 0 t) ∨
    written undone 0 (c :: s) = block c ++ written undone 0 s := by
  by_cases hc : c = 92
  · subst hc
    cases hl : literalEscape undone s with
    | none =>
      right
      simp only [written, if_true, hl]
      rfl
    | some x =>
      left
      have hx : x ∈ html := mem_undone.mp (List.mem_of_find?_eq_some hl)
      have hpre : (afterBackslash x).isPrefixOf s = true :=
        List.find?_some (p := fun x => (afterBackslash x).isPrefixOf s) hl
      obtain ⟨t, rfl⟩ := List.isPrefixOf_iff_prefix.mp hpre
      refine ⟨x, hx, t, rfl, rfl, ?_⟩
      have hskip := written_skip undone (afterBackslash x) t
      rw [afterBackslash_length] at hskip
      simp only [written, if_true, hl, hskip]
  · right
    simp only [written, if_neg hc, block]

theorem written_ne_nil (c : ℕ) (s : Text) : written undone 0 (c :: s) ≠ [] := by
  intro h
  rcases written_cons c s with ⟨x, -, t, -, -, hw⟩ | hw <;> rw [hw] at h
  · simp at h
  · exact block_ne_nil c (List.append_eq_nil_iff.mp h).1

theorem written_inj {s s' : Text} (hs : ∀ c ∈ s, c < 0x110000) (hs' : ∀ c ∈ s', c < 0x110000)
    (h : written undone 0 s = written undone 0 s') : s = s' := by
  induction hn : s.length using Nat.strong_induction_on generalizing s s' with
  | _ n ih =>
    cases s with
    | nil =>
      cases s' with
      | nil => rfl
      | cons c' s' => exact absurd h.symm (written_ne_nil c' s')
    | cons c s =>
      cases s' with
      | nil => exact absurd h (written_ne_nil c s)
      | cons c' s' =>
        rw [List.forall_mem_cons] at hs hs'
        rcases written_cons c s with ⟨x, hx, t, rfl, rfl, hw⟩ | hw <;>
          rcases written_cons c' s' with ⟨x', hx', t', rfl, rfl, hw'⟩ | hw' <;> rw [hw, hw'] at h
        · simp only [List.cons.injEq, true_and] at h
          obtain rfl : x = x' := (ofNat_inj (by have := html_lt hx; omega) (by have := html_lt hx'; omega)).mp h.1
          rw [ih t.length (by simp at hn; omega) (fun d hd => hs.2 d (by simp [hd])) (fun d hd => hs'.2 d (by simp [hd]))
            h.2 rfl]
        · exact absurd h.symm (block_literal hx)
        · exact absurd h (block_literal hx')
        · obtain ⟨rfl, hrest⟩ := block_unique hs.1 hs'.1 h
          rw [ih s.length (by simp at hn; omega) hs.2 hs'.2 hrest rfl]

theorem keyBody_inj {s s' : Text} (hs : ∀ c ∈ s, c < 0x110000) (hs' : ∀ c ∈ s', c < 0x110000)
    (h : s.flatMap Go.quoteChar = s'.flatMap Go.quoteChar) : s = s' := by
  induction s generalizing s' with
  | nil =>
    cases s' with
    | nil => rfl
    | cons c' s' => exact absurd (List.append_eq_nil_iff.mp h.symm).1 (quoteChar_ne_nil c')
  | cons c s ih =>
    cases s' with
    | nil => exact absurd (List.append_eq_nil_iff.mp h).1 (quoteChar_ne_nil c)
    | cons c' s' =>
      rw [List.forall_mem_cons] at hs hs'
      rw [List.flatMap_cons, List.flatMap_cons] at h
      obtain ⟨rfl, hrest⟩ := quoteChar_unique hs.1 hs'.1 h
      rw [ih hs.2 hs'.2 hrest]

end Strings

section Values

/-- A number is a literal; strings and keys are valid Unicode. -/
def decoded : Test Text := ⟨fun lit => !lit.isEmpty && lit.all isNumberChar, Utf8.valid, Utf8.valid⟩

theorem decodeJSON_decoded {data : Bytes} {g : Go.Value} (h : decodeJSON data = some g) : g.all decoded = true := by
  have hu := decodeJSON_unicode h
  unfold decodeJSON at h
  split at h
  · rename_i tree r hr
    obtain rfl := Option.some.inj h
    have hfrom := (readFirst_from (Q := fun _ => True) hr (fun _ _ => trivial)).2
    have hnum : (ofTree Go.reading tree).all ⟨decoded.num, fun _ => true, fun _ => true⟩ = true := by
      refine ofTree_all ?_ (fun h => by simp [readFrom, Go.dialect] at h) (fun _ _ => ⟨rfl, rfl⟩) tree hfrom
      rintro lit ⟨⟨s, r, hlit⟩, -⟩
      have hne := (readNumber_split hlit).2
      have hall := readNumber_chars hlit
      simpa [decoded, Go.reading] using ⟨hne, hall⟩
    have he : Entails ⟨decoded.num, fun _ => true, fun _ => true⟩ (unicode Text) decoded :=
      ⟨fun _ h _ => h, fun _ _ h => h, fun _ _ h => h⟩
    exact he.all _ hnum hu
  · simp at h

theorem isNumberChar_lt {c : ℕ} (h : isNumberChar c = true) : c < 128 := by
  simp only [isNumberChar, isDigit, Bool.or_eq_true, Bool.and_eq_true, decide_eq_true_eq, beq_iff_eq] at h
  omega

theorem valid_lt {t : Text} (h : Utf8.valid t = true) : ∀ c ∈ t, c < 0x110000 := by
  intro c hc
  have := of_decide_eq_true (List.all_eq_true.mp h c hc)
  unfold Utf8.IsScalar at this
  omega

theorem decoded_num {lit : Text} (h : decoded.num lit = true) :
    lit ≠ [] ∧ (∀ c ∈ lit, isNumberChar c = true) ∧ Utf8.encode lit = Go.asciiBytes lit := by
  simp only [decoded, Bool.and_eq_true, Bool.not_eq_true', List.isEmpty_eq_false_iff, List.all_eq_true] at h
  exact ⟨h.1, h.2, encode_ascii fun c hc => isNumberChar_lt (h.2 c hc)⟩

theorem writer_readable : Writer.Readable (fun b : UInt8 => isNumberChar b.toNat = true) decoded writer where
  symbol c hc d hd h := (ofNat_inj (by omega) (by omega)).mp h
  mark := by decide
  num lit h := by
    obtain ⟨hne, hall, he⟩ := decoded_num h
    simp only [writer, he]
    refine ⟨by simpa [Go.asciiBytes] using hne, fun b hb => ?_⟩
    obtain ⟨c, hc, rfl⟩ := List.mem_map.mp hb
    rw [Utf8.toNat_ofNat_of_lt (by have := isNumberChar_lt (hall c hc); omega)]
    exact hall c hc
  num_inj lit lit' h h' he := by
    obtain ⟨-, hall, hlit⟩ := decoded_num h
    obtain ⟨-, hall', hlit'⟩ := decoded_num h'
    have small : ∀ {t : Text}, (∀ c ∈ t, isNumberChar c = true) → ∀ c ∈ t, c < 256 := by
      intro t ht c hc
      have := isNumberChar_lt (ht c hc)
      omega
    exact asciiBytes_inj (small hall) (small hall') (by simpa only [writer, hlit, hlit'] using he)
  str t := by
    simp only [writer, writeString_eq]
    rfl
  key t := rfl
  str_inj t t' r r' ht ht' h := by
    simp only [writer, writeString_eq, List.cons_append, List.append_assoc, List.cons.injEq, true_and,
      List.nil_append] at h
    obtain ⟨hbody, hrest⟩ := ((written_closed 0 t).unique (written_closed 0 t') r r').mp h
    exact ⟨written_inj (valid_lt ht) (valid_lt ht') hbody, hrest⟩
  key_inj t t' r r' ht ht' h := by
    simp only [writer, Go.quote, List.cons_append, List.append_assoc, List.cons.injEq, true_and,
      List.nil_append] at h
    have closed : ∀ u : Text, Closed (u.flatMap Go.quoteChar) := fun u => .flatMap u fun c _ => quoteChar_closed c
    obtain ⟨hbody, hrest⟩ := ((closed t).unique (closed t') r r').mp h
    exact ⟨keyBody_inj (valid_lt ht) (valid_lt ht') hbody, hrest⟩

theorem marshal_eq_iff {v v' : Go.Value} (hv : v.all decoded = true) (hv' : v'.all decoded = true) :
    marshal v = marshal v' ↔ inOrder Go.keyLt (stripSig v) = inOrder Go.keyLt (stripSig v') :=
  Writer.render_eq_iff_inOrder writer_readable rfl (all_without _ _ _ hv) (all_without _ _ _ hv')

end Values

/-- Equal canonical bytes sign one content: without the keys `sig`, the decoded values are equal up to the
order of members. -/
theorem marshal_binds {data data' : Bytes} {v v' : Go.Value} (hv : decodeJSON data = some v)
    (hv' : decodeJSON data' = some v') (h : marshal v = marshal v') :
    inOrder Go.keyLt (stripSig v) = inOrder Go.keyLt (stripSig v') :=
  (marshal_eq_iff (decodeJSON_decoded hv) (decodeJSON_decoded hv')).mp h

section Sample

def signedText : Bytes := ascii "\x7b\"kind\":\"alias\",\"alias\":\"a < b\",\"v\":1.0,\"sig\":\"00\"\x7d"

def reorderedText : Bytes := ascii "\x7b\"v\": 1.0, \"sig\": \"11\", \"alias\": \"a \\u003c b\", \"kind\": \"alias\"\x7d"

theorem marshal_binds_reordered : ∃ v v', decodeJSON signedText = some v ∧ decodeJSON reorderedText = some v' ∧
    marshal v = marshal v' ∧ inOrder Go.keyLt (stripSig v) = inOrder Go.keyLt (stripSig v') := by
  have h : (decodeJSON signedText).any (fun v => (decodeJSON reorderedText).any
      (fun v' => decide (marshal v = marshal v'))) = true := by
    decide +kernel
  obtain ⟨v, hv, h⟩ := some_of_any h
  obtain ⟨v', hv', h⟩ := some_of_any h
  have h := of_decide_eq_true h
  exact ⟨v, v', hv, hv', h, marshal_binds hv hv' h⟩

end Sample

end ObserverClub.Canon
