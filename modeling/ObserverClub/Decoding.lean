import ObserverClub.Canon
import ObserverClub.Library.JsonContents

namespace ObserverClub

open Library Json

section Strings

/-- Strings and keys are valid Unicode. -/
def unicode (ν : Type) : Test ν := ⟨fun _ => true, Utf8.valid, Utf8.valid⟩

theorem unescape_agree {lone : ℕ → ℕ} {us : List StrUnit} (h : Utf8.valid (unescape id us) = true) :
    unescape lone us = unescape id us := by
  simp only [Utf8.valid, List.all_eq_true, decide_eq_true_eq] at h
  fun_induction unescape lone us with
  | case1 => rfl
  | case2 c us ih =>
    simp only [unescape, List.mem_cons, forall_eq_or_imp] at h
    rw [unescape, ih h.2]
  | case3 hi lo us hp ih =>
    simp only [unescape, hp, and_self, if_true, List.mem_cons, forall_eq_or_imp] at h
    simp [unescape, hp, ih h.2]
  | case4 hi lo us hp ih =>
    simp only [unescape, if_neg hp, id, ite_self, List.mem_cons, forall_eq_or_imp] at h
    rw [unescape, if_neg hp, ih h.2, if_neg]
    · simp
    · have := h.1
      unfold Utf8.IsScalar at this
      omega
  | case5 hi us hne ih =>
    rw [unescape.eq_4 _ _ _ hne] at h ⊢
    simp only [id, ite_self, List.mem_cons, forall_eq_or_imp] at h
    rw [ih h.2, if_neg]
    · simp
    · have := h.1
      unfold Utf8.IsScalar at this
      omega

theorem unescape_valid {us : List StrUnit} (h : ∀ u ∈ us, UnitFrom Utf8.IsScalar u) :
    Utf8.valid (unescape (fun _ => 0xFFFD) us) = true := by
  have char : ∀ {c : ℕ}, UnitFrom Utf8.IsScalar (.char c) → Utf8.IsScalar c := by
    rintro c (hc | hc)
    · exact hc
    · exact .inl (by omega)
  have esc : ∀ {u : ℕ}, UnitFrom Utf8.IsScalar (.esc u) →
      Utf8.IsScalar (if 0xD800 ≤ u ∧ u < 0xE000 then 0xFFFD else u) := by
    intro u hu
    unfold UnitFrom at hu
    unfold Utf8.IsScalar
    split_ifs <;> omega
  simp only [Utf8.valid, List.all_eq_true, decide_eq_true_eq]
  fun_induction unescape (fun _ => 0xFFFD) us with
  | case1 => simp
  | case2 c us ih =>
    simp only [List.mem_cons, forall_eq_or_imp] at h ⊢
    exact ⟨char h.1, ih h.2⟩
  | case3 hi lo us hp ih =>
    simp only [List.mem_cons, forall_eq_or_imp] at h ⊢
    refine ⟨?_, ih h.2.2⟩
    unfold Utf8.IsScalar
    omega
  | case4 hi lo us hp ih =>
    simp only [List.mem_cons, forall_eq_or_imp] at h ⊢
    exact ⟨esc h.1, ih (by simpa using h.2)⟩
  | case5 hi us hne ih =>
    simp only [List.mem_cons, forall_eq_or_imp] at h ⊢
    exact ⟨esc h.1, ih h.2⟩

end Strings

section Trees

def noConst : Contents := ⟨fun _ => True, False, fun _ => True⟩

theorem dictOf_agree {ms : List (Text × Json Python.Num)} {js : List (Text × Go.Value)}
    {k k' : Text} {v : Json Python.Num} {w : Go.Value}
    (hk : Utf8.valid k = true → k = k') (hv : v.all (unicode _) = true → v = w.map Python.numberOf)
    (ih : allMembers (unicode _) (dictOf ms) = true → dictOf ms = mapMembers Python.numberOf (dictOf js))
    (h : allMembers (unicode _) (dictOf ((k, v) :: ms)) = true) :
    dictOf ((k, v) :: ms) = mapMembers Python.numberOf (dictOf ((k', w) :: js)) := by
  rw [allMembers_iff] at h
  have hkey : k = k' := by
    obtain ⟨q, hq, hqk⟩ := dictOf_key (List.mem_cons_self : (k, v) ∈ (k, v) :: ms)
    have hq' : Utf8.valid q.1 = true := (h q hq).1
    rw [hqk] at hq'
    exact hk hq'
  subst hkey
  simp only [dictOf] at h ⊢
  cases hl : lookup k (dictOf ms) with
  | none =>
    simp only [hl, List.mem_cons, forall_eq_or_imp] at h
    have hd := ih ((allMembers_iff _ _).mpr h.2)
    rw [hd, mapMembers_eq, lookup_map, Option.map_eq_none_iff] at hl
    simp [hl, mapMembers, hv h.1.2, hd]
  | some u =>
    simp only [hl, List.mem_cons, List.mem_filter, decide_eq_true_eq, forall_eq_or_imp] at h
    have hall : allMembers (unicode _) (dictOf ms) = true := by
      rw [allMembers_iff]
      intro p hp
      by_cases hpk : p.1 = k
      · have hpu : p = (k, u) := by
          have := List.inj_on_of_nodup_map (dictOf_nodup ms) hp (lookup_mem hl) (by simpa using hpk)
          exact this
        rw [hpu]
        exact h.1
      · exact h.2 p ⟨hp, hpk⟩
    have hd := ih hall
    rw [hd, mapMembers_eq, lookup_map, Option.map_eq_some_iff] at hl
    obtain ⟨u', hu', rfl⟩ := hl
    simp [hu', hd, mapMembers_eq, List.filter_map, Function.comp_def]

mutual

theorem ofTree_agree (t : Tree) (ht : t.Has noConst) (h : (ofTree Python.reading t).all (unicode _) = true) :
    ofTree Python.reading t = (ofTree Go.reading t).map Python.numberOf := by
  cases t with
  | null => rfl
  | bool b => rfl
  | num lit => rfl
  | const name => exact ht.elim
  | str us =>
    have : unescape id us = unescape (fun _ => 0xFFFD) us := (unescape_agree h).symm
    simpa [ofTree, map, Python.reading, Go.reading] using this
  | arr xs => simp [ofTree, map, ofTrees_agree xs ht (by simpa [ofTree, all] using h)]
  | obj ms => simp [ofTree, map, ofMembers_agree ms ht (by simpa [ofTree, all] using h)]

theorem ofTrees_agree (xs : List Tree) (ht : treesHave noConst xs)
    (h : allList (unicode _) (ofTrees Python.reading xs) = true) :
    ofTrees Python.reading xs = mapList Python.numberOf (ofTrees Go.reading xs) := by
  cases xs with
  | nil => rfl
  | cons x xs =>
    simp only [ofTrees, allList, Bool.and_eq_true] at h
    simp [ofTrees, mapList, ofTree_agree x ht.1 h.1, ofTrees_agree xs ht.2 h.2]

theorem ofMembers_agree (ms : List (List StrUnit × Tree)) (ht : membersHave noConst ms)
    (h : allMembers (unicode _) (dictOf (ofMembers Python.reading ms)) = true) :
    dictOf (ofMembers Python.reading ms) = mapMembers Python.numberOf (dictOf (ofMembers Go.reading ms)) := by
  cases ms with
  | nil => rfl
  | cons m ms =>
    obtain ⟨k, v⟩ := m
    simp only [ofMembers] at h ⊢
    exact dictOf_agree (fun hk => (unescape_agree hk).symm) (ofTree_agree v ht.2.1) (ofMembers_agree ms ht.2.2) h

end

end Trees

theorem decodeJSON_unicode {data : Bytes} {g : Go.Value} (h : Canon.decodeJSON data = some g) :
    g.all (unicode _) = true := by
  unfold Canon.decodeJSON at h
  split at h
  · rename_i tree r hr
    obtain rfl := Option.some.inj h
    have hfrom := (readFirst_from hr (Utf8.decodeLossy_scalar data)).2
    exact ofTree_all (fun _ _ => rfl) (by simp [readFrom, Go.dialect])
      (fun us hus => ⟨unescape_valid hus, unescape_valid hus⟩) tree hfrom
  · simp at h

/-- The observer's view of a decoded value. -/
def pythonView (g : Go.Value) : Python.Value := g.map Python.numberOf

theorem loads_ok {py : Python.Interpreter} {t : Text} {v : Python.Value} (h : Python.loads py t = .ok v) :
    ∃ tree r, readFirst (Python.dialect py) t = .ok (tree, r) ∧ skipWs r = [] ∧
      v = ofTree Python.reading tree := by
  unfold Python.loads readText at h
  cases hr : readFirst (Python.dialect py) t with
  | error e => cases e <;> simp [hr] at h
  | ok p =>
    obtain ⟨tree, r⟩ := p
    simp only [hr] at h
    split_ifs at h with hw
    exact ⟨tree, r, rfl, hw, (Except.ok.inj h).symm⟩

theorem loadsBytes_ok {py : Python.Interpreter} {s : Bytes} {v : Python.Value}
    (h : Python.loadsBytes py s = .ok v) : ∃ t, Utf8.decode s = some t ∧ Python.loads py t = .ok v := by
  unfold Python.loadsBytes at h
  split at h
  · exact ⟨_, by assumption, h⟩
  · simp at h

theorem decode_both {py : Python.Interpreter} {data : Bytes} {g : Go.Value} {p : Python.Value}
    (hg : Canon.decodeJSON data = some g) (hp : Python.loadsBytes py data = .ok p) :
    ∃ t tree r, readFirst Go.dialect t = .ok (tree, r) ∧ readFirst (Python.dialect py) t = .ok (tree, r) ∧
      g = ofTree Go.reading tree ∧ p = ofTree Python.reading tree := by
  obtain ⟨t, ht, hl⟩ := loadsBytes_ok hp
  obtain ⟨tree, r, hr, -, rfl⟩ := loads_ok hl
  unfold Canon.decodeJSON at hg
  rw [Utf8.decodeLossy_of_decode ht] at hg
  cases hr' : readFirst Go.dialect t with
  | error e => simp [hr'] at hg
  | ok q =>
    obtain ⟨tree', r'⟩ := q
    simp only [hr', Option.some.injEq] at hg
    obtain ⟨rfl, rfl⟩ := readFirst_unique hr' (x := []) (by simpa using hr) (.inl rfl)
    exact ⟨t, tree', _, hr', by simpa using hr, hg.symm, rfl⟩

theorem loads_agree {py : Python.Interpreter} {data : Bytes} {g : Go.Value} {p : Python.Value}
    (hg : Canon.decodeJSON data = some g) (hp : Python.loadsBytes py data = .ok p)
    (hu : p.all (unicode _) = true) : p = pythonView g := by
  obtain ⟨t, tree, r, hr, -, rfl, rfl⟩ := decode_both hg hp
  have hfrom := (readFirst_from (Q := fun _ => True) hr (fun _ _ => trivial)).2
  exact ofTree_agree tree (has_mono (fun _ _ => trivial) (by simp [readFrom, Go.dialect]) (fun _ _ => trivial) tree hfrom) hu

end ObserverClub
