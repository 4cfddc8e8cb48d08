import ObserverClub.PythonNumbers
import ObserverClub.Transactions

/-!
`club.py`: the field names of a loaded profile, and when a name comes back as itself.
-/

namespace ObserverClub.Club

open Library Python Catalog

section Load

variable (o : Observer)

/-- `_read_lines` -/
def readLines (lines : List Text) : List Text :=
  (lines.map (trim isSpace)).filter fun line => line ≠ [] && line.head? ≠ some 35

/-- The fields and the aliases that `load` takes from `fields.txt` and `club.toml`; nothing without slugs. -/
def load (lines : List Text) (aliases : List (Text × Text)) : Option Observer :=
  let fields := readLines lines
  if fields = [] then none
  else some { o with
    fields := if txt "other" ∈ fields then fields else fields ++ [txt "other"]
    fieldAliases := (aliases.map fun a => (o.lower (trim isSpace a.1), o.lower (trim isSpace a.2))).reverse }

end Load

/-- `str.lower`: characters that are their own lower case stay, and it gives no others. -/
structure LowerCase (lower : Text → Text) where
  small : ℕ → Bool
  ascii : ∀ c < 128, ¬(65 ≤ c ∧ c ≤ 90) → small c = true
  lower_small : ∀ t, ∀ c ∈ lower t, small c = true
  small_lower : ∀ t, (∀ c ∈ t, small c = true) → lower t = t

section Names

variable (o : Observer)

def hyphened (t : Text) : Text := t.map fun c => if c = 95 then 45 else c

def collapsed (key : Text) : Text := key.map fun c => if c = 32 then 45 else c

def keyOf (text : Text) : Text := joined [32] (split (hyphened (o.lower (trim isSpace text))))

def slugOf (key : Text) : Option Text :=
  if key ∈ o.fields then some key else if collapsed key ∈ o.fields then some (collapsed key) else none

def aliasOf (key : Text) : Option Text :=
  ((o.fieldAliases.lookup key).filter (· ≠ [])).or ((o.fieldAliases.lookup (collapsed key)).filter (· ≠ []))

/-- An alias of the value leads to a slug, and the slug's own key leads there too. -/
def LeadsToSlug (value : Value) : Prop :=
  ∀ text, truthy value = true → str o.py value = .ok text → slugOf o (keyOf o text) = none →
    ∀ target, aliasOf o (keyOf o text) = some target → target ∈ o.fields ∧
      (keyOf o target = target ∨ slugOf o (keyOf o target) = none ∧ aliasOf o (keyOf o target) = some target)

def nameOf (text : Text) : Text := ((slugOf o (keyOf o text)).or (aliasOf o (keyOf o text))).getD (txt "other")

theorem normalizeField_falsy {value : Value} (h : truthy value = false) : normalizeField o value = .ok (txt "other") := by
  rw [normalizeField, h]
  rfl

theorem normalizeField_truthy {value : Value} (h : truthy value = true) :
    normalizeField o value = (str o.py value).map (nameOf o) := by
  rw [normalizeField, if_neg (by simp [h])]
  cases str o.py value with
  | error e => rfl
  | ok text =>
    rw [Except.map, nameOf, slugOf, aliasOf, keyOf, hyphened]
    change (if _ then Except.ok _ else if _ then Except.ok _ else _) = _
    rw [← collapsed]
    generalize joined [32] (split ((o.lower (trim isSpace text)).map fun c => if c = 95 then 45 else c)) = key
    split_ifs
    · rfl
    · rfl
    · generalize o.fieldAliases.lookup (collapsed key) = second
      rcases o.fieldAliases.lookup key with _ | _ | ⟨d, u⟩
      · rcases second with _ | _ | ⟨d, u⟩ <;> rfl
      · rcases second with _ | _ | ⟨d, u⟩ <;> rfl
      · rfl

end Names

section Words

def Words (ws : List Text) : Prop := ∀ w ∈ ws, w ≠ [] ∧ ∀ c ∈ w, isSpace c = false

theorem words_wordsFrom {w t : Text} (hw : ∀ c ∈ w, isSpace c = false) : Words (wordsFrom w t) := by
  induction t generalizing w with
  | nil =>
    rw [wordsFrom]
    split_ifs with hnil
    · intro v hv
      cases hv
    · intro v hv
      rw [List.mem_singleton.mp hv]
      exact ⟨hnil, hw⟩
  | cons c t ih =>
    have hempty : Words (wordsFrom [] t) := ih fun c hc => by cases hc
    rw [wordsFrom]
    split_ifs with hc hnil
    · exact hempty
    · exact List.forall_mem_cons.mpr ⟨⟨hnil, hw⟩, hempty⟩
    · apply ih
      intro d hd
      obtain hd | hd := List.mem_append.mp hd
      · exact hw d hd
      · rw [List.mem_singleton.mp hd]
        exact Bool.eq_false_iff.mpr hc

theorem words_split (t : Text) : Words (split t) := words_wordsFrom fun c hc => by cases hc

theorem mem_wordsFrom {w t : Text} {c : ℕ} {v : Text} (hv : v ∈ wordsFrom w t) (hc : c ∈ v) : c ∈ w ∨ c ∈ t := by
  induction t generalizing w with
  | nil =>
    rw [wordsFrom] at hv
    split_ifs at hv with hnil
    · cases hv
    · rw [List.mem_singleton.mp hv] at hc
      exact .inl hc
  | cons d t ih =>
    rw [wordsFrom] at hv
    split_ifs at hv with hd hnil
    · obtain h | h := ih hv
      · cases h
      · exact .inr (List.mem_cons_of_mem d h)
    · obtain rfl | hv := List.mem_cons.mp hv
      · exact .inl hc
      · obtain h | h := ih hv
        · cases h
        · exact .inr (List.mem_cons_of_mem d h)
    · obtain h | h := ih hv
      · obtain h | h := List.mem_append.mp h
        · exact .inl h
        · rw [List.mem_singleton.mp h]
          exact .inr List.mem_cons_self
      · exact .inr (List.mem_cons_of_mem d h)

theorem joined_cons (w v : Text) (ws : List Text) : joined [32] (w :: v :: ws) = w ++ (32 :: joined [32] (v :: ws)) :=
  List.append_assoc w [32] _

theorem mem_joined {ws : List Text} {c : ℕ} (h : c ∈ joined [32] ws) : c = 32 ∨ ∃ w ∈ ws, c ∈ w := by
  induction ws with
  | nil => cases h
  | cons w ws ih =>
    cases ws with
    | nil => exact .inr ⟨w, List.mem_cons_self, h⟩
    | cons v ws =>
      rw [joined_cons] at h
      obtain h | h := List.mem_append.mp h
      · exact .inr ⟨w, List.mem_cons_self, h⟩
      · obtain h | h := List.mem_cons.mp h
        · exact .inl h
        · obtain h | ⟨u, hu, hc⟩ := ih h
          · exact .inl h
          · exact .inr ⟨u, List.mem_cons_of_mem w hu, hc⟩

theorem wordsFrom_append {w v t : Text} (hv : ∀ c ∈ v, isSpace c = false) : wordsFrom w (v ++ t) = wordsFrom (w ++ v) t := by
  induction v generalizing w with
  | nil => rw [List.nil_append, List.append_nil]
  | cons c v ih =>
    obtain ⟨hc, hv⟩ := List.forall_mem_cons.mp hv
    rw [List.cons_append, wordsFrom, hc, if_neg Bool.false_ne_true, ih hv, List.append_assoc]
    rfl

theorem split_joined {ws : List Text} (h : Words ws) : split (joined [32] ws) = ws := by
  rw [split]
  induction ws with
  | nil => rfl
  | cons w ws ih =>
    obtain ⟨⟨hne, hw⟩, hws⟩ := List.forall_mem_cons.mp h
    cases ws with
    | nil =>
      have happend := @wordsFrom_append [] w [] hw
      rw [List.append_nil, List.nil_append, wordsFrom, if_neg hne] at happend
      exact happend
    | cons v ws =>
      rw [joined_cons, wordsFrom_append hw, List.nil_append, wordsFrom, if_pos (by decide), if_neg hne, ih hws]

theorem trim_ends {p : ℕ → Bool} {t : Text} (hhead : ∀ c ∈ t.head?, p c = false) (hlast : ∀ c ∈ t.getLast?, p c = false) :
    trim p t = t := by
  have drop : ∀ u : Text, (∀ c ∈ u.head?, p c = false) → u.dropWhile p = u := by
    intro u hu
    cases u with
    | nil => rfl
    | cons c u => simp [hu c rfl]
  rw [trim, drop t hhead, drop t.reverse (by rwa [List.head?_reverse]), List.reverse_reverse]

theorem joined_getLast {ws : List Text} (h : Words ws) : ∀ c ∈ (joined [32] ws).getLast?, isSpace c = false := by
  induction ws with
  | nil =>
    intro c hc
    cases hc
  | cons w ws ih =>
    obtain ⟨⟨hne, hw⟩, hws⟩ := List.forall_mem_cons.mp h
    cases ws with
    | nil =>
      intro c hc
      exact hw c (List.mem_of_mem_getLast? hc)
    | cons v ws =>
      have hrest : joined [32] (v :: ws) ≠ [] := by
        obtain ⟨hv, -⟩ := (List.forall_mem_cons.mp hws).1
        cases ws with
        | nil => exact hv
        | cons u us =>
          rw [joined_cons]
          exact List.append_ne_nil_of_left_ne_nil hv _
      intro c hc
      rw [joined_cons, List.append_cons, List.getLast?_append_of_ne_nil _ hrest] at hc
      exact ih hws c hc

theorem joined_head {ws : List Text} (h : Words ws) : ∀ c ∈ (joined [32] ws).head?, isSpace c = false := by
  cases ws with
  | nil =>
    intro c hc
    cases hc
  | cons w ws =>
    obtain ⟨⟨hne, hw⟩, -⟩ := List.forall_mem_cons.mp h
    obtain ⟨d, w, rfl⟩ := List.exists_cons_of_ne_nil hne
    intro c hc
    have hd : c = d := by
      cases ws with
      | nil => exact (Option.some.inj hc).symm
      | cons v ws =>
        rw [joined_cons] at hc
        exact (Option.some.inj hc).symm
    rw [hd]
    exact hw d List.mem_cons_self

theorem trim_joined {ws : List Text} (h : Words ws) : trim isSpace (joined [32] ws) = joined [32] ws :=
  trim_ends (joined_head h) (joined_getLast h)

end Words

section Keys

variable {o : Observer}

theorem hyphened_eq {t : Text} (h : 95 ∉ t) : hyphened t = t := by
  rw [hyphened]
  conv_rhs => rw [← List.map_id t]
  apply List.map_congr_left
  intro c hc
  rw [id, if_neg]
  rintro rfl
  exact h hc

theorem keyOf_words (lower : LowerCase o.lower) {ws : List Text} (h : Words ws)
    (hsmall : ∀ c ∈ joined [32] ws, lower.small c = true) (hline : 95 ∉ joined [32] ws) :
    keyOf o (joined [32] ws) = joined [32] ws := by
  rw [keyOf, trim_joined h, lower.small_lower _ hsmall, hyphened_eq hline, split_joined h]

theorem mem_keyOf (lower : LowerCase o.lower) {text : Text} {c : ℕ} (h : c ∈ keyOf o text) :
    lower.small c = true ∧ c ≠ 95 ∧ (c ≠ 32 → isSpace c = false) := by
  obtain rfl | ⟨w, hw, hc⟩ := mem_joined h
  · exact ⟨lower.ascii 32 (by decide) (by decide), by decide, fun hne => absurd rfl hne⟩
  · have hspace := (words_split _ w hw).2 c hc
    obtain hnil | hmem := mem_wordsFrom hw hc
    · cases hnil
    · rw [hyphened, List.mem_map] at hmem
      obtain ⟨d, hd, rfl⟩ := hmem
      split_ifs at hspace ⊢ with hline
      · exact ⟨lower.ascii 45 (by decide) (by decide), by decide, fun _ => hspace⟩
      · exact ⟨lower.lower_small _ d hd, hline, fun _ => hspace⟩

theorem keyOf_keyOf (lower : LowerCase o.lower) (text : Text) : keyOf o (keyOf o text) = keyOf o text :=
  keyOf_words lower (words_split _) (fun _ hc => (mem_keyOf lower hc).1) fun hc => (mem_keyOf lower hc).2.1 rfl

theorem mem_collapsed_keyOf (lower : LowerCase o.lower) {text : Text} {c : ℕ} (h : c ∈ collapsed (keyOf o text)) :
    lower.small c = true ∧ c ≠ 95 ∧ isSpace c = false := by
  rw [collapsed, List.mem_map] at h
  obtain ⟨d, hd, rfl⟩ := h
  obtain ⟨hsmall, hline, hspace⟩ := mem_keyOf lower hd
  split_ifs with hblank
  · exact ⟨lower.ascii 45 (by decide) (by decide), by decide, by decide⟩
  · exact ⟨hsmall, hline, hspace hblank⟩

theorem keyOf_collapsed (lower : LowerCase o.lower) (text : Text) :
    keyOf o (collapsed (keyOf o text)) = collapsed (keyOf o text) := by
  have hall := fun c => @mem_collapsed_keyOf o lower text c
  generalize collapsed (keyOf o text) = t at hall
  by_cases hnil : t = []
  · subst hnil
    have hwords : Words [] := fun w hw => absurd hw List.not_mem_nil
    exact keyOf_words lower hwords (fun c hc => absurd hc List.not_mem_nil) List.not_mem_nil
  · have hwords : Words [t] := by
      intro w hw
      rw [List.mem_singleton.mp hw]
      exact ⟨hnil, fun c hc => (hall c hc).2.2⟩
    exact keyOf_words lower hwords (fun c hc => (hall c hc).1) fun hc => (hall _ hc).2.1 rfl

theorem slugOf_mem {key slug : Text} (h : slugOf o key = some slug) : slug ∈ o.fields := by
  rw [slugOf] at h
  split_ifs at h with hkey hcollapsed
  · rwa [← Option.some.inj h]
  · rwa [← Option.some.inj h]

theorem keyOf_slugOf (lower : LowerCase o.lower) {text slug : Text} (h : slugOf o (keyOf o text) = some slug) :
    keyOf o slug = slug := by
  rw [slugOf] at h
  split_ifs at h with hkey hcollapsed
  · rw [← Option.some.inj h]
    exact keyOf_keyOf lower text
  · rw [← Option.some.inj h]
    exact keyOf_collapsed lower text

theorem aliasOf_ne_nil {key target : Text} (h : aliasOf o key = some target) : target ≠ [] := by
  rw [aliasOf, Option.or_eq_some_iff] at h
  obtain h | ⟨-, h⟩ := h
  · exact of_decide_eq_true (Option.filter_eq_some_iff.mp h).2
  · exact of_decide_eq_true (Option.filter_eq_some_iff.mp h).2

theorem normalizeField_str {t : Text} (h : t ≠ []) : normalizeField o (.str t) = .ok (nameOf o t) :=
  normalizeField_truthy o (decide_eq_true h)

theorem nameOf_fixed {slug : Text} (hmem : slug ∈ o.fields) (hkey : keyOf o slug = slug) : nameOf o slug = slug := by
  rw [nameOf, hkey, slugOf, if_pos hmem]
  rfl

theorem load_fields {lines : List Text} {aliases : List (Text × Text)} {o' : Observer} (h : load o lines aliases = some o') :
    txt "other" ∈ o'.fields ∧ [] ∉ o'.fields := by
  have hother : txt "other" ≠ [] := by decide
  have hlines : [] ∉ readLines lines := by
    intro hnil
    exact absurd (List.of_mem_filter hnil) (by decide)
  unfold load at h
  dsimp only at h
  split_ifs at h with hnone hmem
  · rw [← Option.some.inj h]
    exact ⟨hmem, hlines⟩
  · rw [← Option.some.inj h]
    refine ⟨List.mem_append_right _ (List.mem_singleton.mpr rfl), ?_⟩
    intro hnil
    obtain hnil | hnil := List.mem_append.mp hnil
    · exact hlines hnil
    · exact hother (List.mem_singleton.mp hnil).symm

theorem keyOf_other (lower : LowerCase o.lower) : keyOf o (txt "other") = txt "other" := by
  have hletters : ∀ c ∈ txt "other", c < 128 ∧ ¬(65 ≤ c ∧ c ≤ 90) ∧ isSpace c = false ∧ c ≠ 95 := by decide +kernel
  have hne : txt "other" ≠ [] := by decide
  generalize txt "other" = other at hletters hne
  have hwords : Words [other] := by
    intro w hw
    rw [List.mem_singleton.mp hw]
    exact ⟨hne, fun c hc => (hletters c hc).2.2.1⟩
  apply keyOf_words lower hwords
  · intro c hc
    exact lower.ascii c (hletters c hc).1 (hletters c hc).2.1
  · intro hc
    exact (hletters _ hc).2.2.2 rfl

theorem nameOf_eq_self (lower : LowerCase o.lower) {target : Text} (hmem : target ∈ o.fields) :
    nameOf o target = target ↔
      keyOf o target = target ∨ slugOf o (keyOf o target) = none ∧ aliasOf o (keyOf o target) = some target := by
  constructor
  · intro h
    rw [nameOf] at h
    cases hslug : slugOf o (keyOf o target) with
    | some slug =>
      rw [hslug] at h
      obtain rfl : slug = target := h
      exact .inl (keyOf_slugOf lower hslug)
    | none =>
      cases halias : aliasOf o (keyOf o target) with
      | some t =>
        rw [hslug, halias] at h
        obtain rfl : t = target := h
        exact .inr ⟨rfl, rfl⟩
      | none =>
        rw [hslug, halias] at h
        have hother : txt "other" = target := h
        rw [← hother]
        exact .inl (keyOf_other lower)
  · rintro (hkey | ⟨hslug, halias⟩)
    · exact nameOf_fixed hmem hkey
    · rw [nameOf, hslug, halias]
      rfl

/-- The name of a value is in the vocabulary and stays what it is, for every profile that loads, exactly if the
value meets no alias that leads astray. -/
theorem normalizeField_stays_iff (lines : List Text) (aliases : List (Text × Text)) {o' : Observer}
    (hload : load o lines aliases = some o') (lower : LowerCase o'.lower) (value : Value) :
    (∀ name, normalizeField o' value = .ok name → name ∈ o'.fields ∧ normalizeField o' (.str name) = .ok name) ↔
      LeadsToSlug o' value := by
  obtain ⟨hother, hnil⟩ := load_fields hload
  have hstays {name : Text} (hmem : name ∈ o'.fields) (hkey : keyOf o' name = name) :
      normalizeField o' (.str name) = .ok name := by
    have hne : name ≠ [] := by
      rintro rfl
      exact hnil hmem
    rw [normalizeField_str hne, nameOf_fixed hmem hkey]
  cases htruthy : truthy value with
  | false =>
    rw [normalizeField_falsy o' htruthy]
    constructor
    · intro _ text htrue
      rw [htruthy] at htrue
      cases htrue
    · intro _ name hname
      obtain rfl := Except.ok.inj hname
      exact ⟨hother, hstays hother (keyOf_other lower)⟩
  | true =>
    rw [normalizeField_truthy o' htruthy]
    cases htext : str o'.py value with
    | error e =>
      constructor
      · intro _ text _ hstr
        rw [htext] at hstr
        cases hstr
      · intro _ name hname
        cases hname
    | ok text =>
      have hleads : LeadsToSlug o' value ↔ (slugOf o' (keyOf o' text) = none →
          ∀ target, aliasOf o' (keyOf o' text) = some target → target ∈ o'.fields ∧
            (keyOf o' target = target ∨ slugOf o' (keyOf o' target) = none ∧ aliasOf o' (keyOf o' target) = some target)) := by
        rw [LeadsToSlug, htruthy, htext]
        simp
      have hname : ∀ name, (Except.ok text).map (nameOf o') = (.ok name : Except Error Text) ↔ nameOf o' text = name := by
        intro name
        exact ⟨Except.ok.inj, congrArg Except.ok⟩
      simp only [hname, forall_eq', hleads]
      cases hslug : slugOf o' (keyOf o' text) with
      | some slug =>
        have hself : nameOf o' text = slug := by
          rw [nameOf, hslug]
          rfl
        rw [hself]
        constructor
        · intro _ h
          cases h
        · intro _
          exact ⟨slugOf_mem hslug, hstays (slugOf_mem hslug) (keyOf_slugOf lower hslug)⟩
      | none =>
        cases halias : aliasOf o' (keyOf o' text) with
        | none =>
          have hself : nameOf o' text = txt "other" := by
            rw [nameOf, hslug, halias]
            rfl
          rw [hself]
          constructor
          · intro _ _ target h
            cases h
          · intro _
            exact ⟨hother, hstays hother (keyOf_other lower)⟩
        | some target =>
          have hself : nameOf o' text = target := by
            rw [nameOf, hslug, halias]
            rfl
          have hagain : normalizeField o' (.str target) = .ok target ↔ nameOf o' target = target := by
            rw [normalizeField_str (aliasOf_ne_nil halias)]
            exact ⟨Except.ok.inj, congrArg Except.ok⟩
          rw [hself, hagain]
          constructor
          · rintro ⟨hmem, hfixed⟩ - t ht
            rw [← Option.some.inj ht]
            exact ⟨hmem, (nameOf_eq_self lower hmem).mp hfixed⟩
          · intro h
            obtain ⟨hmem, hback⟩ := h rfl target rfl
            exact ⟨hmem, (nameOf_eq_self lower hmem).mpr hback⟩

end Keys

section Sample

def asciiLower : LowerCase Store.sampleObserver.lower where
  small c := !(65 ≤ c && c ≤ 90)
  ascii := by
    intro c _ hc
    simp only [Bool.not_eq_true', Bool.and_eq_false_iff, decide_eq_false_iff_not]
    omega
  lower_small := by
    intro t c hc
    obtain ⟨d, -, rfl⟩ := List.mem_map.mp hc
    unfold lowerAscii
    simp only [Bool.not_eq_true', Bool.and_eq_false_iff, decide_eq_false_iff_not]
    split_ifs <;> omega
  small_lower := by
    intro t h
    change t.map lowerAscii = t
    conv_rhs => rw [← List.map_id t]
    apply List.map_congr_left
    intro c hc
    have hsmall := h c hc
    simp only [Bool.not_eq_true', Bool.and_eq_false_iff, decide_eq_false_iff_not] at hsmall
    rw [lowerAscii, if_neg (by omega), id]

theorem load_lower {o o' : Observer} {lines : List Text} {aliases : List (Text × Text)} (h : load o lines aliases = some o') :
    o'.lower = o.lower := by
  unfold load at h
  dsimp only at h
  split_ifs at h <;> rw [← Option.some.inj h]

theorem gadget_stays : ∃ o', load Store.sampleObserver [txt "widget"] [(txt "gadget", txt "widget")] = some o' ∧
    ((∀ name, normalizeField o' (.str (txt "Gadget")) = .ok name →
        name ∈ o'.fields ∧ normalizeField o' (.str name) = .ok name) ↔ LeadsToSlug o' (.str (txt "Gadget"))) := by
  have hloads : (load Store.sampleObserver [txt "widget"] [(txt "gadget", txt "widget")]).isSome = true := by decide +kernel
  obtain ⟨o', ho'⟩ := Option.isSome_iff_exists.mp hloads
  exact ⟨o', ho', normalizeField_stays_iff _ _ ho' ((load_lower ho').symm ▸ asciiLower) _⟩

theorem alias_leaves_vocabulary : ¬ ∀ lines aliases o', load Store.sampleObserver lines aliases = some o' →
    ∀ value name, normalizeField o' value = .ok name → name ∈ o'.fields ∧ normalizeField o' (.str name) = .ok name := by
  intro hall
  have hrun : (load Store.sampleObserver [txt "widget"] [(txt "gadget", txt "tool")]).map
      (fun o' => (o'.fields, (normalizeField o' (.str (txt "gadget"))).toOption)) =
        some ([txt "widget", txt "other"], some (txt "tool")) := by
    decide +kernel
  rw [Option.map_eq_some_iff] at hrun
  obtain ⟨o', ho', hfields⟩ := hrun
  obtain ⟨hfields, hname⟩ := Prod.mk.inj hfields
  cases hresult : normalizeField o' (.str (txt "gadget")) with
  | error e =>
    rw [hresult] at hname
    cases hname
  | ok name =>
    rw [hresult] at hname
    obtain ⟨hmem, -⟩ := hall _ _ o' ho' _ name hresult
    have htool : name = txt "tool" := Option.some.inj hname
    have hnot : txt "tool" ∉ [txt "widget", txt "other"] := by decide +kernel
    rw [hfields, htool] at hmem
    exact hnot hmem

end Sample

end ObserverClub.Club
