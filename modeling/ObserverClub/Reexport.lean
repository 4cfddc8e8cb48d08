import ObserverClub.CanonBinding
import ObserverClub.ClubdKeys
import ObserverClub.PythonText
import ObserverClub.Snapshot
import ObserverClub.Transactions

namespace ObserverClub.Store

open Library Json Python Sqlite Catalog

section Written

def reprinted (lit : Text) : Text := numText (numberOf lit)

theorem numText_ascii (n : Python.Num) : ∀ c ∈ numText n, c < 128 := by
  cases hn : isFinite n with
  | true =>
    intro c hc
    have hread := readNumber_numText hn (r := []) (by simp [NumberEnds])
    exact Canon.isNumberChar_lt (readNumber_chars hread c hc)
  | false =>
    cases n with
    | int i => cases hn
    | float x =>
      cases x with
      | fin q => cases hn
      | negZero => cases hn
      | inf neg => cases neg <;> decide
      | nan => decide

theorem quoteChar_scalar {c : ℕ} (hc : Utf8.IsScalar c) : ∀ d ∈ Python.quoteChar c, Utf8.IsScalar d := by
  have digit : ∀ n, hexDigit (n % 16) < 128 := fun n => (hexDigit_spec (by omega)).2
  intro d hd
  rw [Python.quoteChar] at hd
  rcases basicEscape_cases c with ⟨e, he, -, -, hlt⟩ | ⟨he, -⟩ | ⟨he, -⟩ <;>
    simp only [he, Option.getD_some, Option.getD_none, hexEscape, List.mem_cons, List.not_mem_nil, or_false] at hd
  · exact .inl (by omega)
  · refine .inl ?_
    rcases hd with rfl | rfl | rfl | rfl | rfl | rfl <;> first | omega | exact (digit _).trans (by omega)
  · rw [hd]
    exact hc

theorem quote_valid {t : Text} (h : Utf8.valid t = true) : ∀ c ∈ Python.quote t, Utf8.IsScalar c := by
  intro c hc
  simp only [Python.quote, List.cons_append, List.mem_cons, List.mem_append, List.mem_flatMap, List.not_mem_nil,
    or_false] at hc
  rcases hc with rfl | ⟨d, hd, hc⟩ | rfl
  · decide
  · exact quoteChar_scalar (of_decide_eq_true (List.all_eq_true.mp h d hd)) c hc
  · decide

theorem render_valid {v : Value} (h : v.all (unicode _) = true) : Utf8.valid ((writer false).render v) = true := by
  have hw : Writer.Within Utf8.IsScalar (writer false) (unicode Python.Num) := by
    refine ⟨fun c hc => .inl ?_, fun n _ b hb => .inl ?_, fun t ht => quote_valid ht, fun t ht => quote_valid ht,
      fun ms m hm => hm⟩
    · simp only [writer, id]
      omega
    · have := numText_ascii n b hb
      omega
  rw [Utf8.valid, List.all_eq_true]
  exact fun c hc => decide_eq_true (hw.render v h c hc)

theorem strings_of_render {v : Value} (h : ∀ c ∈ (writer false).render v, isSurrogate c = false) :
    v.all ⟨fun _ => true, fun t => t.all (! isSurrogate ·), fun t => t.all (! isSurrogate ·)⟩ = true := by
  have shown : ∀ t : Text, (∀ b ∈ Python.quote t, isSurrogate b = false) → t.all (! isSurrogate ·) = true := by
    intro t ht
    rw [List.all_eq_true]
    intro c hc
    cases hs : isSurrogate c with
    | false => rfl
    | true =>
      have hmem : c ∈ Python.quote t := by
        have hq : Python.quoteChar c = [c] := by
          simp only [isSurrogate, Bool.and_eq_true, decide_eq_true_eq] at hs
          rw [Python.quoteChar]
          rcases basicEscape_cases c with ⟨e, he, -⟩ | ⟨-, hlt⟩ | ⟨he, -⟩
          · unfold basicEscape at he
            split_ifs at he
            all_goals omega
          · omega
          · rw [he]
            rfl
        simp only [Python.quote, List.cons_append, List.mem_cons, List.mem_append, List.mem_flatMap]
        exact .inr (.inl ⟨c, hc, by simp [hq]⟩)
      cases (ht c hmem).symm.trans hs
  have hs : Shows (fun c => isSurrogate c = false) (writer false)
      ⟨fun _ => true, fun t => t.all (! isSurrogate ·), fun t => t.all (! isSurrogate ·)⟩ :=
    ⟨fun _ _ => rfl, shown, shown, fun _ _ hm => hm⟩
  exact hs.all v h

theorem unescape_bounded {us : List StrUnit} (h : ∀ u ∈ us, UnitFrom Utf8.IsScalar u) :
    ∀ c ∈ unescape id us, c < 0x110000 := by
  have char : ∀ {c : ℕ}, UnitFrom Utf8.IsScalar (.char c) → c < 0x110000 := by
    rintro c (hc | hc)
    · unfold Utf8.IsScalar at hc
      omega
    · omega
  have esc : ∀ {u : ℕ}, UnitFrom Utf8.IsScalar (.esc u) → u < 0x110000 := by
    intro u hu
    unfold UnitFrom at hu
    omega
  fun_induction unescape id us with
  | case1 => simp
  | case2 c us ih =>
    simp only [List.mem_cons, forall_eq_or_imp] at h ⊢
    exact ⟨char h.1, ih h.2⟩
  | case3 hi lo us hp ih =>
    simp only [List.mem_cons, forall_eq_or_imp] at h ⊢
    exact ⟨by omega, ih h.2.2⟩
  | case4 hi lo us hp ih =>
    simp only [id, ite_self, List.mem_cons, forall_eq_or_imp] at h ⊢
    exact ⟨esc h.1, ih (by simpa using h.2)⟩
  | case5 hi us hne ih =>
    simp only [id, ite_self, List.mem_cons, forall_eq_or_imp] at h ⊢
    exact ⟨esc h.1, ih h.2⟩

def bounded : Test Python.Num := ⟨fun _ => true, fun t => t.all (· < 0x110000), fun t => t.all (· < 0x110000)⟩

theorem loads_bounded {py : Interpreter} {data : Bytes} {p : Value} (hp : loadsBytes py data = .ok p) :
    p.all bounded = true := by
  obtain ⟨t, ht, hl⟩ := loadsBytes_ok hp
  obtain ⟨tree, r, hr, -, rfl⟩ := loads_ok hl
  have hscalar := Utf8.decodeLossy_scalar data
  rw [Utf8.decodeLossy_of_decode ht] at hscalar
  have hfrom := (readFirst_from hr hscalar).2
  have hunits : ∀ us : List StrUnit, (∀ u ∈ us, UnitFrom Utf8.IsScalar u) →
      (Python.reading.str us).all (· < 0x110000) = true := by
    intro us hus
    rw [List.all_eq_true]
    exact fun c hc => decide_eq_true (unescape_bounded hus c hc)
  exact ofTree_all (fun _ _ => rfl) (fun _ _ => rfl) (fun us hus => ⟨hunits us hus, hunits us hus⟩) tree hfrom

theorem unicode_of_bounded {p : Value} (hbound : p.all bounded = true)
    (h : ∀ c ∈ (writer false).render p, isSurrogate c = false) : p.all (unicode _) = true := by
  have he : Entails ⟨fun _ => true, fun t => t.all (! isSurrogate ·), fun t => t.all (! isSurrogate ·)⟩
      bounded (unicode Python.Num) := by
    have both : ∀ t : Text, t.all (! isSurrogate ·) = true → t.all (· < 0x110000) = true → Utf8.valid t = true := by
      intro t h₁ h₂
      rw [Utf8.valid, List.all_eq_true]
      intro c hc
      have hs := List.all_eq_true.mp h₁ c hc
      have hb := of_decide_eq_true (List.all_eq_true.mp h₂ c hc)
      simp only [isSurrogate, Bool.not_eq_true', Bool.and_eq_false_iff, decide_eq_false_iff_not] at hs
      unfold Utf8.IsScalar
      exact decide_eq_true (by omega)
    exact ⟨fun _ _ _ => rfl, both, both⟩
  exact he.all _ (strings_of_render h) hbound

theorem loads_unicode {py : Interpreter} {data : Bytes} {p : Value} (hp : loadsBytes py data = .ok p)
    (h : ∀ c ∈ (writer false).render p, isSurrogate c = false) : p.all (unicode _) = true :=
  unicode_of_bounded (loads_bounded hp) h

end Written

section Received

theorem decodeJSON_render {v : Value} (hu : v.all (unicode _) = true) (hd : v.Distinct)
    (hn : v.depth ≤ Go.maxNestingDepth) :
    Canon.decodeJSON (Utf8.encode ((writer false).render v)) =
      if v.all ⟨isFinite, fun _ => true, fun _ => true⟩ then some (v.map numText) else none := by
  have htext := Utf8.decodeLossy_of_decode (Utf8.decode_encode (render_valid hu))
  have hread := readFirst_render v
  have htoken : ∀ n, (tokenOf n).nesting = 0 := by
    intro n
    rw [tokenOf]
    split <;> rfl
  have hreflects : Reflects tokenOf (allowed Go.dialect) ⟨isFinite, fun _ => true, fun _ => true⟩ := by
    refine ⟨fun n => ?_, fun _ => ⟨fun _ => rfl, fun _ _ _ => trivial⟩, fun _ => ⟨fun _ => rfl, fun _ _ _ => trivial⟩⟩
    rw [tokenOf]
    cases hn : isFinite n with
    | true => exact ⟨fun _ => hn, fun _ => rfl⟩
    | false =>
      constructor
      · intro h
        cases (show false = true from h)
      · intro h
        cases hn.symm.trans h
  rw [Canon.decodeJSON, htext]
  split_ifs with hfin
  · have hfits : (treeOf tokenOf v).Fits Go.dialect := by
      refine ⟨?_, (has_treeOf hreflects v).mpr hfin⟩
      rw [nesting_treeOf htoken]
      exact hn
    rw [readFirst_within hread hfits]
    simp only [Option.some.injEq]
    refine ofTree_treeOf rfl (fun n => ?_) v hd
    rw [tokenOf]
    split <;> rfl
  · cases hgo : readFirst Go.dialect ((writer false).render v) with
    | error e => rfl
    | ok q =>
      obtain ⟨tree, r⟩ := q
      obtain ⟨rfl, -⟩ := readFirst_unique hread (x := []) (by rw [List.append_nil]; exact hgo) (.inl rfl)
      exact absurd ((has_treeOf hreflects v).mp (readFirst_fits hgo).2) hfin

theorem stringOf_map (f : Text → Text) (g : Go.Value) (key : String) : Go.stringOf (g.map f) key = Go.stringOf g key := by
  rw [Go.stringOf, Go.stringOf, Go.item, Go.item, get_map]
  cases g.get (txt key) with
  | none => rfl
  | some v => cases v <;> rfl

/-- Numbers outside the keys `sig` that Python prints back as they stood. -/
def faithful : Test Text := ⟨fun lit => reprinted lit = lit, fun _ => true, fun _ => true⟩

/-- Numbers that do not overflow. -/
def finite : Test Text := ⟨fun lit => isFinite (numberOf lit), fun _ => true, fun _ => true⟩

theorem marshal_map_iff {g : Go.Value} (f : Text → Text) (hg : g.all Canon.decoded = true)
    (hf : (g.map f).all Canon.decoded = true) :
    Canon.marshal (g.map f) = Canon.marshal g ↔
      (Canon.stripSig g).all ⟨fun lit => f lit = lit, fun _ => true, fun _ => true⟩ = true := by
  have hsig : Canon.stripSig (g.map f) = (Canon.stripSig g).map f := (map_without f _ g).symm
  rw [Canon.marshal_eq_iff hf hg, hsig, inOrder_map, map_eq_self_iff, all_inOrder]

/-- The line is decoded to a value with the canonical bytes of the one that was signed, and every daemon that
finds the signature of the one good finds that of the other good. -/
def StillSigned (g : Go.Value) (line : Text) : Prop :=
  ∃ g', Canon.decodeJSON (Utf8.encode line) = some g' ∧ Canon.marshal g' = Canon.marshal g ∧
    ∀ node, Clubd.Signed node g → Clubd.Signed node g'

theorem stillSigned_iff {py : Interpreter} {data : Bytes} {g : Go.Value} {p : Value} {body : Text}
    (hg : Canon.decodeJSON data = some g) (hp : loadsBytes py data = .ok p)
    (hb : Protocol.wireDumps py p = .ok body) (hs : Binds (.str body)) :
    StillSigned g body ↔ (Canon.stripSig g).all faithful = true ∧ g.all finite = true := by
  obtain rfl : (writer false).render p = body := by
    rw [Protocol.wireDumps, dumps] at hb
    split_ifs at hb
    exact Except.ok.inj hb
  have hu := loads_unicode hp hs
  obtain rfl := loads_agree hg hp hu
  obtain ⟨t, tree, r, hr, -, hgt, -⟩ := decode_both hg hp
  have hdistinct : (pythonView g).Distinct := by
    rw [hgt]
    exact distinct_map _ _ (ofTree_distinct _ tree)
  have hdepth : (pythonView g).depth ≤ Go.maxNestingDepth := by
    rw [pythonView, depth_map, hgt]
    exact (depth_ofTree_le _ tree).trans (readFirst_fits hr).1
  have hmap : (pythonView g).map numText = g.map reprinted := map_map _ _ g
  have hfinite : (pythonView g).all ⟨isFinite, fun _ => true, fun _ => true⟩ = g.all finite := all_map _ _ g
  have hline := decodeJSON_render hu hdistinct hdepth
  rw [hmap, hfinite] at hline
  constructor
  · rintro ⟨g', hg', hm, -⟩
    rw [hline] at hg'
    split_ifs at hg' with hfin
    obtain rfl := Option.some.inj hg'
    rw [if_pos hfin] at hline
    exact ⟨(marshal_map_iff _ (Canon.decodeJSON_decoded hg) (Canon.decodeJSON_decoded hline)).mp hm, hfin⟩
  · rintro ⟨hf, hfin⟩
    rw [if_pos hfin] at hline
    have hm := (marshal_map_iff _ (Canon.decodeJSON_decoded hg) (Canon.decodeJSON_decoded hline)).mpr hf
    refine ⟨_, hline, hm, ?_⟩
    rintro node ⟨sig, pid, pk, hsig, hpid, hpk, hver⟩
    refine ⟨sig, pid, pk, ?_, ?_, hpk, ?_⟩
    · rw [stringOf_map]
      exact hsig
    · rw [stringOf_map]
      exact hpid
    · rw [hm]
      exact hver

end Received

section Claim

variable (o : Observer)

theorem body_of_ingested {w : Surroundings} {obj : Value} {c : Tables} {r : Message}
    (hr : r ∈ (ingestMessage o w obj ⟨c, none⟩).2.committed.messages) (hnew : r ∉ c.messages) :
    Protocol.wireDumps o.py obj = .ok r.body ∧ Binds (.str r.body) := by
  have hcases := ingestMessage_cases o w obj ⟨c, none⟩
  generalize ingestMessage o w obj ⟨c, none⟩ = out at hcases hr
  cases hcases with
  | refused refusal failure => exact absurd hr hnew
  | rejected accepted rejection failure => exact absurd hr hnew
  | broken accepted recorded breakage => exact absurd hr hnew
  | done accepted recorded effect =>
    rw [effect.messages, withMessage] at hr
    obtain hr | hr := List.mem_append.mp hr
    · exact absurd hr hnew
    · rw [List.mem_singleton.mp hr]
      exact ⟨accepted.body, recorded.body⟩

/-- A line that the daemon has verified and the observer has stored is served with a signature that still
holds, exactly when Python prints every number outside the keys `sig` as it stood and no number
overflows. -/
theorem stored_stillSigned_iff (node : Clubd.Node) {data : Bytes} {g : Go.Value} {p : Value} {w : Surroundings}
    {c : Tables} {r : Message} (hv : Clubd.verify node data = .ok g) (hp : loadsBytes o.py data = .ok p)
    (hr : r ∈ (ingestMessage o w p ⟨c, none⟩).2.committed.messages) (hnew : r ∉ c.messages) :
    StillSigned g r.body ↔ (Canon.stripSig g).all faithful = true ∧ g.all finite = true := by
  obtain ⟨hb, hs⟩ := body_of_ingested o hr hnew
  have hg : Canon.decodeJSON data = some g := by
    have hd := (Clubd.verify_ok hv).1
    rw [Clubd.decodeObject] at hd
    split at hd
    next => cases hd
    next ms h =>
      rw [h, ← Except.ok.inj hd]
    next => cases hd
  exact stillSigned_iff hg hp hb hs

end Claim

section Sample

open Clubd (keyNode keyBytes base58Name sampleSum)

def timedClassify (indexedAt : String) : Go.Value :=
  .obj [(txt "cid", .str (txt "f0155000100")), (txt "indexed_at", .num (txt indexedAt)),
    (txt "kind", .str (txt "classify")), (txt "publisher", .str (txt base58Name)), (txt "v", .num (txt "1"))]

def signedLine (m : Go.Value) : Bytes :=
  Go.jsonMarshal (Go.setItem m "sig" (.str (hexText (sampleSum 64 (keyBytes ++ Canon.marshal m)))))

def storedRow (data : Bytes) (test : Go.Value → Message → Bool) : Bool :=
  (Clubd.verify keyNode data).toOption.any fun g => (loadsBytes sampleObserver.py data).toOption.any fun p =>
    (ingestMessage sampleObserver sampleSurroundings p ⟨empty, none⟩).2.committed.messages.any (test g)

theorem storedRow_iff {data : Bytes} {test : Go.Value → Message → Bool} : storedRow data test = true ↔
    ∃ g p r, Clubd.verify keyNode data = .ok g ∧ loadsBytes sampleObserver.py data = .ok p ∧
      r ∈ (ingestMessage sampleObserver sampleSurroundings p ⟨empty, none⟩).2.committed.messages ∧ test g r = true := by
  constructor
  · intro h
    obtain ⟨g, hg, h⟩ := ok_of_any h
    obtain ⟨p, hp, h⟩ := ok_of_any h
    obtain ⟨r, hr, h⟩ := List.any_eq_true.mp h
    exact ⟨g, p, r, hg, hp, hr, h⟩
  · rintro ⟨g, p, r, hg, hp, hr, h⟩
    rw [storedRow, hg, hp]
    exact List.any_eq_true.mpr ⟨r, hr, h⟩

theorem stored_stillSigned_iff_timed : ∃ g p r, Clubd.verify keyNode (signedLine (timedClassify "1755648000.5")) = .ok g ∧
    loadsBytes sampleObserver.py (signedLine (timedClassify "1755648000.5")) = .ok p ∧
    r ∈ (ingestMessage sampleObserver sampleSurroundings p ⟨empty, none⟩).2.committed.messages ∧
    (StillSigned g r.body ↔ (Canon.stripSig g).all faithful = true ∧ g.all finite = true) := by
  have h : storedRow (signedLine (timedClassify "1755648000.5")) (fun _ _ => true) = true := by decide +kernel
  obtain ⟨g, p, r, hg, hp, hr, -⟩ := storedRow_iff.mp h
  exact ⟨g, p, r, hg, hp, hr, stored_stillSigned_iff sampleObserver keyNode hg hp hr (by simp [empty])⟩

theorem not_stillSigned : ∃ g p r, Clubd.verify keyNode (signedLine (timedClassify "1755648000.50")) = .ok g ∧
    loadsBytes sampleObserver.py (signedLine (timedClassify "1755648000.50")) = .ok p ∧
    r ∈ (ingestMessage sampleObserver sampleSurroundings p ⟨empty, none⟩).2.committed.messages ∧
    r ∈ snapshotRows 1 (ingestMessage sampleObserver sampleSurroundings p ⟨empty, none⟩).2.committed ∧
    ¬StillSigned g r.body := by
  have h : storedRow (signedLine (timedClassify "1755648000.50")) (fun g r => (loadsBytes sampleObserver.py
      (signedLine (timedClassify "1755648000.50"))).toOption.any (fun p => decide (r ∈ snapshotRows 1
        (ingestMessage sampleObserver sampleSurroundings p ⟨empty, none⟩).2.committed)) &&
      (Canon.decodeJSON (Utf8.encode r.body)).all (fun g' => decide (Canon.marshal g' ≠ Canon.marshal g))) = true := by
    decide +kernel
  obtain ⟨g, p, r, hg, hp, hr, h⟩ := storedRow_iff.mp h
  rw [Bool.and_eq_true] at h
  obtain ⟨p', hp', hrow⟩ := ok_of_any h.1
  obtain rfl : p' = p := by simpa using hp'.symm.trans hp
  refine ⟨g, p', r, hg, hp', hr, of_decide_eq_true hrow, ?_⟩
  rintro ⟨g', hg', hm, -⟩
  have hne := h.2
  rw [hg'] at hne
  exact of_decide_eq_true hne hm

end Sample

end ObserverClub.Store
