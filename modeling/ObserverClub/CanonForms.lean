import ObserverClub.CanonAgreement

/-!
The canonical bytes of clubd and of the observer for one JSON text.
-/

namespace ObserverClub.Canon

open Library Json

section Forms

/-- Numbers without fraction, exponent or negative zero. -/
def plainIntegers : Test Text := ⟨Python.plainInteger, fun _ => true, fun _ => true⟩

theorem kept_of_read {py : Python.Interpreter} {s lit r : Text} (h : readNumber s = some (lit, r))
    (hok : (Python.dialect py).numberOk lit = true) (hp : Python.plainInteger lit = true) : kept lit = true := by
  obtain ⟨h₁, h₂⟩ := Python.numText_numberOf h hok hp
  obtain ⟨n, rfl⟩ := Python.literal_decimal h hp
  simp only [kept, h₁, h₂, decide_true, Bool.and_true, Bool.true_and, List.all_eq_true, Python.isSurrogate]
  intro c hc
  rcases mem_decimalInt hc with rfl | hd
  · decide
  · simp only [isDigit, Bool.and_eq_true, decide_eq_true_eq] at hd
    simp
    omega

theorem decoded_plain {py : Python.Interpreter} {data : Bytes} {g : Go.Value} {p : Python.Value}
    (hg : decodeJSON data = some g) (hp : Python.loadsBytes py data = .ok p)
    (hn : g.all plainIntegers = true) : g.all plainValue = true := by
  have hu := decodeJSON_unicode hg
  obtain ⟨t, tree, r, hr, hr', rfl, -⟩ := decode_both hg hp
  have hgo := (readFirst_from (Q := fun _ => True) hr (fun _ _ => trivial)).2
  have hpy := (readFirst_from (Q := fun _ => True) hr' (fun _ _ => trivial)).2
  have hboth := has_and tree hgo hpy
  have hkept : (ofTree Go.reading tree).all
      ⟨fun lit => !Python.plainInteger lit || kept lit, fun _ => true, fun _ => true⟩ = true := by
    refine ofTree_all ?_ (fun h => by simp [readFrom, Go.dialect] at h) (fun _ _ => ⟨rfl, rfl⟩) tree hboth
    rintro lit ⟨-, ⟨s, r, hlit⟩, hok⟩
    cases hpl : Python.plainInteger lit with
    | false => simp [Go.reading, hpl]
    | true => simpa [Go.reading, hpl] using kept_of_read hlit hok hpl
  have hint : Entails plainIntegers ⟨fun lit => !Python.plainInteger lit || kept lit, fun _ => true, fun _ => true⟩
      ⟨kept, fun _ => true, fun _ => true⟩ :=
    ⟨fun lit h₁ h₂ => by simpa [show Python.plainInteger lit = true from h₁] using h₂, fun _ _ _ => rfl, fun _ _ _ => rfl⟩
  have hstr : Entails ⟨kept, fun _ => true, fun _ => true⟩ (unicode Text) plainValue :=
    ⟨fun _ h _ => h, fun _ _ h => h, fun _ _ h => h⟩
  exact hstr.all _ (hint.all _ hn hkept) hu

theorem quote_within {t : Text} (h : Utf8.valid t = true) : ∀ c ∈ Python.quote t, Python.isSurrogate c = false := by
  intro c hc
  simp only [Python.quote, List.cons_append, List.mem_cons, List.mem_append, List.mem_flatMap, List.not_mem_nil,
    or_false] at hc
  rcases hc with rfl | ⟨d, hd, hc⟩ | rfl
  · decide
  · have hd' := of_decide_eq_true (List.all_eq_true.mp h d hd)
    have digit : ∀ n, hexDigit (n % 16) < 128 := by
      intro n
      unfold hexDigit
      split_ifs <;> omega
    have hlt : c < 128 ∨ c = d := by
      unfold Python.quoteChar at hc
      rcases basicEscape_cases d with ⟨e, he, -, -, hlt⟩ | ⟨he, -⟩ | ⟨he, -⟩ <;>
        simp only [he, Option.getD_some, Option.getD_none, hexEscape, List.mem_cons, List.not_mem_nil, or_false] at hc
      · omega
      · left
        rcases hc with rfl | rfl | rfl | rfl | rfl | rfl <;> first | exact digit _ | decide
      · exact .inr hc
    simp only [Python.isSurrogate, Bool.and_eq_false_iff, decide_eq_false_iff_not]
    unfold Utf8.IsScalar at hd'
    rcases hlt with hlt | rfl <;> omega
  · decide

theorem render_within {v : Go.Value} (h : v.all plainValue = true) :
    ∀ c ∈ (Python.writer true).render (pythonView v), Python.isSurrogate c = false := by
  let p : Test Python.Num := ⟨fun n => (Python.numText n).all (! Python.isSurrogate ·), Utf8.valid, Utf8.valid⟩
  have hw : Writer.Within (fun c => Python.isSurrogate c = false) (Python.writer true) p := by
    refine ⟨fun c hc => ?_, fun n hn b hb => ?_, fun t ht => quote_within ht, fun t ht => quote_within ht,
      fun ms m hm => mem_sortKeys.mp hm⟩
    · simp only [Python.writer, id, Python.isSurrogate, Bool.and_eq_false_iff, decide_eq_false_iff_not]
      omega
    · simpa using List.all_eq_true.mp hn b hb
  refine hw.render _ ?_
  rw [pythonView, all_map]
  have he : Entails plainValue plainValue
      ⟨fun lit => (Python.numText (Python.numberOf lit)).all (! Python.isSurrogate ·), Utf8.valid, Utf8.valid⟩ := by
    refine ⟨fun lit hl _ => ?_, fun _ h _ => h, fun _ h _ => h⟩
    simp only [plainValue, kept, Bool.and_eq_true, decide_eq_true_eq] at hl
    simpa only [hl.1.1] using hl.2
  exact he.all v h h

theorem pythonView_short {v : Go.Value} (h : v.all plainValue = true) :
    (pythonView v).all ⟨Python.Num.short, fun _ => true, fun _ => true⟩ = true := by
  have he : Entails plainValue plainValue ⟨fun lit => (Python.numberOf lit).short, fun _ => true, fun _ => true⟩ := by
    refine ⟨fun lit hl _ => ?_, fun _ _ _ => rfl, fun _ _ _ => rfl⟩
    simp only [plainValue, kept, Bool.and_eq_true] at hl
    exact hl.1.2
  rw [pythonView, all_map]
  exact he.all v h h

theorem canonicalBytes_eq {py : Python.Interpreter} {g : Go.Value} (h : (stripSig g).all plainValue = true) :
    Protocol.canonicalBytes py (pythonView g) =
      if py.stripDepth < (pythonView (stripSig g)).depth ∨ py.dumpsDepth < (pythonView (stripSig g)).depth then
        .error .recursionError
      else .ok (Utf8.encode ((Python.writer true).render (pythonView (stripSig g)))) := by
  have hsig : (pythonView g).without (txt "sig") = pythonView (stripSig g) := (map_without _ _ g).symm
  have hclean : ((Python.writer true).render (pythonView (stripSig g))).any Python.isSurrogate = false :=
    List.any_eq_false.mpr fun c hc => by simp [render_within h c hc]
  simp only [Protocol.canonicalBytes, Protocol.canonicalDumps, Protocol.stripSig, hsig, Python.dumps, bind, Except.bind]
  by_cases h₁ : py.stripDepth < (pythonView (stripSig g)).depth
  · simp [h₁]
  · by_cases h₂ : py.dumpsDepth < (pythonView (stripSig g)).depth
    · simp [h₁, h₂]
    · simp [h₁, h₂, pythonView_short h, Python.encodeUtf8, hclean]

end Forms

/-- The observer's signed and hashed bytes are the daemon's exactly when the value, without `sig`, is not
nested deeper than Python's recursion goes, no key holds `<`, `>`, `&` or a line separator, and no string
value holds a line separator or spells one of the three HTML escapes. -/
theorem canonical_eq_iff {py : Python.Interpreter} {data : Bytes} {g : Go.Value} {p : Python.Value}
    (hg : decodeJSON data = some g) (hp : Python.loadsBytes py data = .ok p)
    (hu : p.all (unicode _) = true) (hn : g.all plainIntegers = true) :
    Protocol.canonicalBytes py p = .ok (marshal g) ↔
      (p.without (txt "sig")).depth ≤ py.stripDepth ∧ (p.without (txt "sig")).depth ≤ py.dumpsDepth ∧
        (stripSig g).all same = true := by
  have hplain : (stripSig g).all plainValue = true := all_without _ _ _ (decoded_plain hg hp hn)
  obtain rfl := loads_agree hg hp hu
  have hsig : (pythonView g).without (txt "sig") = pythonView (stripSig g) := (map_without _ _ g).symm
  rw [canonicalBytes_eq hplain, hsig, ← render_eq_iff hplain, marshal]
  split_ifs with hd
  · simp only [false_iff, not_and]
    omega
  · simp only [Except.ok.injEq]
    rw [eq_comm]
    constructor
    · exact fun h => ⟨by omega, by omega, h⟩
    · exact fun h => h.2.2

section Sample

def samplePython : Python.Interpreter := ⟨60, 60, 60, 60, fun c => 32 ≤ c && c < 127⟩

def plainText : Bytes := ascii "\x7b\"kind\":\"alias\",\"alias\":\"a & b\",\"v\":1,\"sig\":\"00\"\x7d"

theorem canonical_eq_iff_plainText : ∃ g p, decodeJSON plainText = some g ∧
    Python.loadsBytes samplePython plainText = .ok p ∧
    (Protocol.canonicalBytes samplePython p = .ok (marshal g) ↔
      (p.without (txt "sig")).depth ≤ samplePython.stripDepth ∧
        (p.without (txt "sig")).depth ≤ samplePython.dumpsDepth ∧ (stripSig g).all same = true) := by
  have h : (decodeJSON plainText).any (fun g => (Python.loadsBytes samplePython plainText).toOption.any
      (fun p => p.all (unicode _) && g.all plainIntegers)) = true := by
    decide +kernel
  obtain ⟨g, hg, h⟩ := some_of_any h
  obtain ⟨p, hp, h⟩ := ok_of_any h
  rw [Bool.and_eq_true] at h
  exact ⟨g, p, hg, hp, canonical_eq_iff hg hp h.1 h.2⟩

def htmlKey : Bytes := ascii "\x7b\"a<b\":1\x7d"

theorem canonical_ne_htmlKey : ∃ g p, decodeJSON htmlKey = some g ∧
    Python.loadsBytes samplePython htmlKey = .ok p ∧ p.all (unicode _) = true ∧ g.all plainIntegers = true ∧
    Protocol.canonicalBytes samplePython p ≠ .ok (marshal g) := by
  have h : (decodeJSON htmlKey).any (fun g => (Python.loadsBytes samplePython htmlKey).toOption.any
      (fun p => p.all (unicode _) && g.all plainIntegers &&
        decide (Protocol.canonicalBytes samplePython p ≠ .ok (marshal g)))) = true := by
    decide +kernel
  obtain ⟨g, hg, h⟩ := some_of_any h
  obtain ⟨p, hp, h⟩ := ok_of_any h
  simp only [Bool.and_eq_true, decide_eq_true_eq] at h
  exact ⟨g, p, hg, hp, h.1.1, h.1.2, h.2⟩

end Sample

end ObserverClub.Canon
