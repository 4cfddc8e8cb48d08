import ObserverClub.Forgotten
import ObserverClub.PythonFloats
import ObserverClub.Reexport

namespace ObserverClub

open Library Json

namespace Python

section Numbers

theorem isFloat_append {a b : Text} (h : isFloat a = true ∨ isFloat b = true) : isFloat (a ++ b) = true := by
  unfold isFloat at h ⊢
  rw [List.any_append, Bool.or_eq_true]
  exact h

theorem isFloat_layout (m : ℕ) (e : ℤ) : isFloat (Binary64.layout m e) = true := by
  have mark (t : Text) : isFloat (46 :: t) = true := rfl
  unfold Binary64.layout
  dsimp only
  split_ifs
  · exact isFloat_append (Or.inl (isFloat_append (Or.inl rfl)))
  · exact isFloat_append (Or.inr rfl)
  · exact isFloat_append (Or.inl (isFloat_append (Or.inr (mark []))))
  all_goals
    rw [List.append_assoc]
    exact isFloat_append (Or.inr (isFloat_append (Or.inl rfl)))

theorem isFloat_repr {q : ℚ} : isFloat (Binary64.repr (.fin q)) = true := by
  rw [Binary64.repr]
  split_ifs
  · rfl
  · exact isFloat_append (Or.inr (isFloat_layout _ _))
  · exact isFloat_layout _ _

def reread (n : Num) : Num := if isFinite n then numberOf (numText n) else constantOf (numText n)

theorem ofTree_tokenOf (n : Num) : ofTree reading (tokenOf n) = .num (reread n) := by
  unfold tokenOf reread
  split_ifs
  · rfl
  · rfl

theorem reread_int {i : ℤ} (h : (decimal i.natAbs).length ≤ maxStrDigits) : reread (.int i) = .int i := by
  have hnumber : numberOf (decimalInt i) = .int i := by
    rw [numberOf, isFloat_decimalInt, intOfText_decimalInt h]
    rfl
  exact hnumber

theorem reread_float {x : Binary64} (h : Rounded x) : reread (.float x) = .float x := by
  have hread := floatOfText_repr h
  have hnumber (hf : isFloat x.repr = true) : numberOf x.repr = .float x := by
    rw [numberOf, if_pos hf, hread]
    rfl
  cases x with
  | fin q => exact hnumber isFloat_repr
  | negZero => exact hnumber rfl
  | inf neg => cases neg <;> decide
  | nan => decide

theorem scaled_nonneg (i f : Text) (e : ℤ) : 0 ≤ scaled i f e := by
  unfold scaled
  rw [Binary64.power_zpow]
  exact mul_nonneg (Nat.cast_nonneg _) (zpow_nonneg (by norm_num) _)

theorem rounded_round {neg : Bool} {a : ℚ} (ha : 0 ≤ a) : Rounded (Binary64.round neg a) := by
  intro q hq
  obtain ⟨h, -⟩ | ⟨h, -⟩ := Binary64.representable_of_round ha hq
  · exact Or.inl h
  · exact Or.inr h

theorem floatOfText_rounded (t : Text) : Rounded ((floatOfText t).toOption.getD .nan) := by
  unfold floatOfText
  dsimp only
  split_ifs
  · rintro q ⟨⟩
  · rintro q ⟨⟩
  · split
    · exact rounded_round (scaled_nonneg _ _ _)
    · rintro q ⟨⟩

theorem reread_numberOf {py : Interpreter} {s lit r : Text} (h : readNumber s = some (lit, r))
    (hok : (dialect py).numberOk lit = true) : reread (numberOf lit) = numberOf lit ∧ (numberOf lit).short = true := by
  cases hf : isFloat lit with
  | true =>
    rw [numberOf, if_pos hf]
    exact ⟨reread_float (floatOfText_rounded lit), rfl⟩
  | false =>
    by_cases hz : lit = txt "-0"
    · subst hz
      decide
    · have hp : plainInteger lit = true := by simp [plainInteger, hf, hz]
      obtain ⟨n, rfl⟩ := literal_decimal h hp
      have hlen : (decimal n.natAbs).length ≤ maxStrDigits := by
        simpa [dialect, isFloat_decimalInt, filter_decimalInt] using hok
      have hn : numberOf (decimalInt n) = .int n := by
        rw [numberOf, isFloat_decimalInt, intOfText_decimalInt hlen]
        rfl
      rw [hn]
      exact ⟨reread_int hlen, decide_eq_true hlen⟩

theorem reread_constantOf (name : Text) : reread (constantOf name) = constantOf name := by
  unfold constantOf
  split_ifs
  · decide
  · cases decide (name = txt "-Infinity") <;> decide

end Numbers

section Values

def rereadable : Test Num :=
  ⟨fun n => n.short && decide (reread n = n), fun _ => true, fun _ => true⟩

/-- What `json.loads` can give. -/
structure Parsed (py : Interpreter) (v : Value) : Prop where
  numbers : v.all rereadable = true
  distinct : v.Distinct
  shallow : v.depth ≤ py.loadsDepth

variable {py : Interpreter}

theorem loads_parsed {t : Text} {v : Value} (h : loads py t = .ok v) : Parsed py v := by
  obtain ⟨tree, r, hr, -, rfl⟩ := loads_ok h
  have hfrom := (readFirst_from (Q := fun _ => True) hr (fun _ _ => trivial)).2
  refine ⟨?_, ofTree_distinct _ _, (depth_ofTree_le _ _).trans (readFirst_fits hr).1⟩
  refine ofTree_all ?_ ?_ (fun _ _ => ⟨rfl, rfl⟩) tree hfrom
  · rintro lit ⟨⟨s, r, hlit⟩, hok⟩
    obtain ⟨hreread, hshort⟩ := reread_numberOf hlit hok
    exact Bool.and_eq_true_iff.mpr ⟨hshort, decide_eq_true hreread⟩
  · intro _ name
    refine Bool.and_eq_true_iff.mpr ⟨?_, decide_eq_true (reread_constantOf name)⟩
    show (constantOf name).short = true
    unfold constantOf
    split_ifs
    · rfl
    · rfl

theorem numberOk_numText {n : Num} (h : n.short = true) (hf : isFinite n = true) :
    (dialect py).numberOk (numText n) = true := by
  cases n with
  | int i =>
    have hlen : (decimal i.natAbs).length ≤ maxStrDigits := of_decide_eq_true h
    simpa [dialect, numText, isFloat_decimalInt, filter_decimalInt] using hlen
  | float x =>
    have hfloat : isFloat (numText (.float x)) = true := by
      cases x with
      | fin q => exact isFloat_repr
      | negZero => rfl
      | inf neg => cases hf
      | nan => cases hf
    simp [dialect, hfloat]

def taken (py : Interpreter) : Test Num :=
  ⟨fun n => !isFinite n || (dialect py).numberOk (numText n), fun _ => true, fun _ => true⟩

theorem tokenOf_reflects : Reflects tokenOf (allowed (dialect py)) (taken py) where
  num n := by
    unfold tokenOf taken
    cases hf : isFinite n with
    | true => simp [Tree.Has, allowed, hf]
    | false => simp [Tree.Has, allowed, dialect, hf]
  str t := by simp [allowed, taken]
  key t := by simp [allowed, taken]

theorem Parsed.fits {v : Value} (h : Parsed py v) : (treeOf tokenOf v).Fits (dialect py) := by
  have hnesting (n : Num) : (tokenOf n).nesting = 0 := by
    unfold tokenOf
    split_ifs
    · rfl
    · rfl
  have he : Entails rereadable rereadable (taken py) := by
    refine ⟨?_, fun _ _ _ => rfl, fun _ _ _ => rfl⟩
    intro n hn _
    have hshort := (Bool.and_eq_true_iff.mp hn).1
    show (!isFinite n || (dialect py).numberOk (numText n)) = true
    cases hf : isFinite n with
    | true => exact numberOk_numText hshort hf
    | false => rfl
  refine ⟨?_, (has_treeOf tokenOf_reflects v).mpr (he.all v h.numbers h.numbers)⟩
  rw [nesting_treeOf hnesting]
  exact h.shallow

theorem Parsed.loads_render {v : Value} (h : Parsed py v) : loads py ((writer false).render v) = .ok v := by
  have hread := readFirst_within (readFirst_render v) h.fits
  have htree : ofTree reading (treeOf tokenOf v) = v.map reread := ofTree_treeOf rfl ofTree_tokenOf v h.distinct
  have he : Entails rereadable rereadable ⟨fun n => decide (reread n = n), fun _ => true, fun _ => true⟩ :=
    ⟨fun _ hn _ => (Bool.and_eq_true_iff.mp hn).2, fun _ _ _ => rfl, fun _ _ _ => rfl⟩
  have hsame : v.map reread = v := (map_eq_self_iff reread v).mpr (he.all v h.numbers h.numbers)
  rw [loads, readText, hread]
  show Except.ok (ofTree reading (treeOf tokenOf v)) = _
  rw [htree, hsame]

theorem Parsed.short {v : Value} (h : Parsed py v) : v.all ⟨Num.short, fun _ => true, fun _ => true⟩ = true := by
  have he : Entails rereadable rereadable ⟨Num.short, fun _ => true, fun _ => true⟩ :=
    ⟨fun _ hn _ => (Bool.and_eq_true_iff.mp hn).1, fun _ _ _ => rfl, fun _ _ _ => rfl⟩
  exact he.all v h.numbers h.numbers

theorem Parsed.dumps_eq {v : Value} (h : Parsed py v) (sorted : Bool) :
    dumps py sorted v = if py.dumpsDepth < v.depth then .error .recursionError else .ok ((writer sorted).render v) := by
  rw [dumps, if_pos h.short]

end Values

end Python

namespace Protocol

open Python

variable {py : Interpreter}

section Wire

end Wire

section Canonical

theorem textLt_orders : Orders (fun _ => True) (fun s t : Text => s < t) where
  asymm a b := List.lt_asymm
  trans a b c hab hbc := by
    rw [List.not_lt] at hab hbc ⊢
    exact List.le_trans hab hbc
  apart a b _ _ hab hba := by
    rw [List.not_lt] at hab hba
    exact List.le_antisymm hba hab

theorem signedForm_signedForm {v : Python.Value} (hv : v.Distinct) :
    Store.signedForm (Store.signedForm v) = Store.signedForm v := by
  have hd := distinct_without (txt "sig") v hv
  have h := inOrder_without textLt_orders (q := ⟨fun _ => true, fun _ => true, fun _ => true⟩) (fun _ _ => trivial)
    (txt "sig") _ hd (all_true _)
  rw [Store.signedForm, Store.signedForm, h, without_without]

theorem signedForm_parsed {v : Python.Value} (h : Parsed py v) : Parsed py (Store.signedForm v) where
  numbers := (all_inOrder _ _ _).mpr (all_without _ _ _ h.numbers)
  distinct := distinct_inOrder _ _ (distinct_without _ _ h.distinct)
  shallow := by
    rw [Store.signedForm, depth_inOrder]
    exact (depth_without_le _ _).trans h.shallow

theorem canonicalDumps_eq {v : Python.Value} (h : Parsed py v) : canonicalDumps py v =
    if py.stripDepth < (Store.signedForm v).depth ∨ py.dumpsDepth < (Store.signedForm v).depth then .error .recursionError
    else .ok ((writer false).render (Store.signedForm v)) := by
  have hw : Parsed py (v.without (txt "sig")) :=
    ⟨all_without _ _ _ h.numbers, distinct_without _ _ h.distinct, (depth_without_le _ _).trans h.shallow⟩
  have hdepth : (Store.signedForm v).depth = (v.without (txt "sig")).depth := depth_inOrder _ _
  have hrender : (writer true).render (v.without (txt "sig")) = (writer false).render (Store.signedForm v) := by
    rw [Writer.render_inOrder rfl]
    rfl
  rw [canonicalDumps, stripSig, hdepth]
  by_cases hs : py.stripDepth < (v.without (txt "sig")).depth
  · rw [if_pos hs, if_pos (Or.inl hs)]
    rfl
  · rw [if_neg hs]
    show dumps py true (v.without (txt "sig")) = _
    rw [hw.dumps_eq, hrender]
    by_cases hd : py.dumpsDepth < (v.without (txt "sig")).depth
    · rw [if_pos hd, if_pos (Or.inr hd)]
    · rw [if_neg hd, if_neg (not_or.mpr ⟨hs, hd⟩)]

theorem canonicalDumps_reads {s t : Text} {v : Python.Value} (h : loads py s = .ok v) (ht : canonicalDumps py v = .ok t) :
    loads py t = .ok (Store.signedForm v) ∧ canonicalDumps py (Store.signedForm v) = .ok t ∧
      ∀ s' w, loads py s' = .ok w → (canonicalDumps py w = .ok t ↔ Store.signedForm w = Store.signedForm v) := by
  have hp := loads_parsed h
  have hread := (signedForm_parsed hp).loads_render
  have hdumps := canonicalDumps_eq hp
  rw [ht] at hdumps
  split_ifs at hdumps with hdepth
  obtain rfl := Except.ok.inj hdumps
  have same {w : Python.Value} (hw : Parsed py w) : canonicalDumps py w = .ok ((writer false).render (Store.signedForm v)) ↔
      Store.signedForm w = Store.signedForm v := by
    constructor
    · intro hc
      rw [canonicalDumps_eq hw] at hc
      split_ifs at hc
      have htext := (signedForm_parsed hw).loads_render
      rw [Except.ok.inj hc, hread] at htext
      exact (Except.ok.inj htext).symm
    · intro he
      rw [canonicalDumps_eq hw, he, if_neg hdepth]
  exact ⟨hread, (same (signedForm_parsed hp)).mpr (signedForm_signedForm hp.distinct),
    fun s' w hw => same (loads_parsed hw)⟩

end Canonical

section Lines

open Store (bounded render_valid unicode_of_bounded render_ne_newline loads_bounded)

theorem encodeUtf8_render {v : Python.Value} {line : Bytes} (hv : v.all bounded = true)
    (h : encodeUtf8 ((writer false).render v) = .ok line) :
    v.all (unicode _) = true ∧ line = Utf8.encode ((writer false).render v) := by
  rw [encodeUtf8] at h
  split_ifs at h with hclean
  refine ⟨unicode_of_bounded hv ?_, (Except.ok.inj h).symm⟩
  simpa only [List.any_eq_true, not_exists, not_and, Bool.not_eq_true] using hclean

theorem encodeUtf8_of_unicode {v : Python.Value} (hv : v.all (unicode _) = true) :
    encodeUtf8 ((writer false).render v) = .ok (Utf8.encode ((writer false).render v)) := by
  rw [encodeUtf8, if_neg]
  intro hany
  obtain ⟨c, hc, hs⟩ := List.any_eq_true.mp hany
  have hscalar := of_decide_eq_true (List.all_eq_true.mp (render_valid hv) c hc)
  unfold Utf8.IsScalar at hscalar
  simp only [isSurrogate, Bool.and_eq_true, decide_eq_true_eq] at hs
  omega

theorem loadsBytes_encode {v : Python.Value} (hp : Parsed py v) (hv : v.all (unicode _) = true) :
    loadsBytes py (Utf8.encode ((writer false).render v)) = .ok v := by
  rw [loadsBytes, Utf8.decode_encode (render_valid hv)]
  exact hp.loads_render

theorem newline_encode {v : Python.Value} (hv : v.all (unicode _) = true) :
    10 ∉ Utf8.encode ((writer false).render v) := by
  intro hmem
  have hbounded : ∀ c ∈ (writer false).render v, c < 0x110000 := by
    intro c hc
    have hscalar := of_decide_eq_true (List.all_eq_true.mp (render_valid hv) c hc)
    unfold Utf8.IsScalar at hscalar
    omega
  exact render_ne_newline v _ (Utf8.mem_encode hmem hbounded (by decide)) rfl

/-- A value that was received can be sent on as one line, which is received as the same value, unless it is
nested too deeply or a string of it has a lone surrogate. -/
theorem wire_round_trip {data : Bytes} {v : Python.Value} (h : loadsBytes py data = .ok v) :
    (∀ line, (wireDumps py v >>= encodeUtf8) = .ok line → loadsBytes py line = .ok v ∧ 10 ∉ line) ∧
      ((∃ line, (wireDumps py v >>= encodeUtf8) = .ok line) ↔ v.depth ≤ py.dumpsDepth ∧ v.all (unicode _) = true) := by
  obtain ⟨t, -, hl⟩ := loadsBytes_ok h
  have hp := loads_parsed hl
  have hdumps : wireDumps py v = _ := hp.dumps_eq false
  rw [hdumps]
  by_cases hd : py.dumpsDepth < v.depth
  · rw [if_pos hd]
    refine ⟨fun line hline => (by cases hline), ?_, fun hv => absurd hd (not_lt.mpr hv.1)⟩
    rintro ⟨line, hline⟩
    cases hline
  · rw [if_neg hd]
    refine ⟨fun line hline => ?_, ?_, fun hv => ⟨_, encodeUtf8_of_unicode hv.2⟩⟩
    · obtain ⟨hv, rfl⟩ := encodeUtf8_render (loads_bounded h) hline
      exact ⟨loadsBytes_encode hp hv, newline_encode hv⟩
    · rintro ⟨line, hline⟩
      exact ⟨not_lt.mp hd, (encodeUtf8_render (loads_bounded h) hline).1⟩

open Canon (plainText samplePython)

theorem wire_round_trip_plainText : ∃ v, loadsBytes samplePython plainText = .ok v ∧
    (∀ line, (wireDumps samplePython v >>= encodeUtf8) = .ok line → loadsBytes samplePython line = .ok v ∧ 10 ∉ line) ∧
      ((∃ line, (wireDumps samplePython v >>= encodeUtf8) = .ok line) ↔
        v.depth ≤ samplePython.dumpsDepth ∧ v.all (unicode _) = true) := by
  have h : (loadsBytes samplePython plainText).toOption.any (fun _ => true) = true := by decide +kernel
  obtain ⟨v, hv, -⟩ := ok_of_any h
  exact ⟨v, hv, wire_round_trip hv⟩

theorem signedForm_bounded {v : Python.Value} (hv : v.all bounded = true) : (Store.signedForm v).all bounded = true :=
  (all_inOrder _ _ _).mpr (all_without _ _ _ hv)

/-- The bytes that are signed and hashed are read as the signed members in order, and values that were received
have the same ones exactly when they agree on those. -/
theorem canonical_round_trip {data b : Bytes} {v : Python.Value} (h : loadsBytes py data = .ok v)
    (hb : canonicalBytes py v = .ok b) : loadsBytes py b = .ok (Store.signedForm v) ∧
      canonicalBytes py (Store.signedForm v) = .ok b ∧ ∀ data' w, loadsBytes py data' = .ok w →
        (canonicalBytes py w = .ok b ↔ Store.signedForm w = Store.signedForm v) := by
  obtain ⟨s, -, hl⟩ := loadsBytes_ok h
  have hp := loads_parsed hl
  have ⟨t, ht, hline⟩ := bind_eq_ok.mp hb
  obtain ⟨-, hsame, hall⟩ := canonicalDumps_reads hl ht
  have hrender := canonicalDumps_eq hp
  rw [ht] at hrender
  split_ifs at hrender with hdepth
  rw [Except.ok.inj hrender] at hline
  obtain ⟨hv, rfl⟩ := encodeUtf8_render (signedForm_bounded (loads_bounded h)) hline
  have hbytes {w : Python.Value} (hw : canonicalDumps py w = .ok t) :
      canonicalBytes py w = .ok (Utf8.encode ((writer false).render (Store.signedForm v))) := by
    rw [canonicalBytes, hw, Except.ok.inj hrender]
    exact hline
  refine ⟨loadsBytes_encode (signedForm_parsed hp) hv, hbytes hsame, fun data' w hw => ?_⟩
  obtain ⟨s', -, hl'⟩ := loadsBytes_ok hw
  constructor
  · intro hc
    obtain ⟨t', ht', hline'⟩ := bind_eq_ok.mp hc
    have hrender' := canonicalDumps_eq (loads_parsed hl')
    rw [ht'] at hrender'
    split_ifs at hrender'
    rw [Except.ok.inj hrender'] at hline'
    obtain ⟨hv', heq⟩ := encodeUtf8_render (signedForm_bounded (loads_bounded hw)) hline'
    have hread := loadsBytes_encode (signedForm_parsed (loads_parsed hl')) hv'
    rw [← heq, loadsBytes_encode (signedForm_parsed hp) hv] at hread
    exact (Except.ok.inj hread).symm
  · intro he
    exact hbytes ((hall s' w hl').mpr he)

theorem canonical_round_trip_plainText : ∃ v b, loadsBytes samplePython plainText = .ok v ∧
    canonicalBytes samplePython v = .ok b ∧ loadsBytes samplePython b = .ok (Store.signedForm v) := by
  have h : (loadsBytes samplePython plainText).toOption.any (fun v =>
      (canonicalBytes samplePython v).toOption.any fun _ => true) = true := by decide +kernel
  obtain ⟨v, hv, h⟩ := ok_of_any h
  obtain ⟨b, hb, -⟩ := ok_of_any h
  exact ⟨v, b, hv, hb, (canonical_round_trip hv hb).1⟩

end Lines

end Protocol

end ObserverClub
