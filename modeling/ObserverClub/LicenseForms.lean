import ObserverClub.Licenses

/-!
Which license names are recognized again: those of the license URLs and of Creative Commons written out are not,
for the short form takes no dash after `CC`.
-/

namespace ObserverClub.Extract

open Library Python Regex

section Settled

variable {chars : Alphabet} {c : ℕ} {t value : Text}

def plain : Alphabet := ⟨fun _ => false, fun c => [c], id⟩

theorem isWordChar_settled (chars : Alphabet) (h : isSettled c = true) : isWordChar chars c = isWordChar plain c := by
  rw [isWordChar, isWordChar, if_pos h, if_pos h]

theorem upper_settled (chars : Alphabet) (h : ∀ c ∈ t, isSettled c = true) : upper chars t = t.map upperSettled := by
  rw [upper, List.map_eq_flatMap]
  apply List.flatMap_congr
  intro c hc
  rw [upperChar, if_pos (h c hc)]

theorem groupOf_settled {r : Regex ℕ} (hr : ∀ c ∈ r.alphabet, isSettled c = true) {found : Place ℕ}
    (h : find chars r value = some found) (i : ℕ) : ∀ c ∈ groupOf found i, isSettled c = true := by
  obtain ⟨before, s, -, hs⟩ := search_spells h
  intro c hc
  rw [groupOf, List.getD_eq_getElem?_getD] at hc
  cases hg : found.groups[i]? with
  | none =>
    rw [hg] at hc
    cases hc
  | some g =>
    rw [hg] at hc
    exact hr c (hs.mem_alphabet (hs.mem_of_mem_group (List.mem_of_getElem? hg) hc))

theorem patterns_letters :
    ((∀ c ∈ ccUrlRe.alphabet, isSettled c = true) ∧ (∀ c ∈ ccRe.alphabet, isSettled c = true) ∧
      ∀ c ∈ spdxRe.alphabet, isSettled c = true) ∧
      ccUrlRe.needs [58] = true ∧ creativeCommonsRe.needs blanks = true ∧ allRightsRe.needs blanks = true ∧
        ccRe.needs [89, 121] = true := by
  decide +kernel

theorem subRuns_subset {p : ℕ → Bool} {sub : ℕ} {inside : Bool} (h : c ∈ subRuns p sub inside t) : c = sub ∨ c ∈ t := by
  induction t generalizing inside with
  | nil => cases h
  | cons d t ih =>
    have hrest {inside : Bool} (h : c ∈ subRuns p sub inside t) : c = sub ∨ c ∈ d :: t :=
      (ih h).imp id (List.mem_cons_of_mem d)
    rw [subRuns] at h
    split_ifs at h
    · exact hrest h
    · exact (List.mem_cons.mp h).elim .inl hrest
    · exact (List.mem_cons.mp h).elim (fun h => .inr (h ▸ List.mem_cons_self)) hrest

theorem licenseIn_settled (chars : Alphabet) (h : ∀ c ∈ value, isSettled c = true)
    (hnamed : find plain creativeCommonsRe value = none) : licenseIn chars value = licenseIn plain value := by
  have hfind (r : Regex ℕ) : find chars r value = find plain r value := by
    apply search_congr
    intro c hc
    exact isWordChar_settled chars (h c hc)
  have hupper {t : Text} (ht : ∀ c ∈ t, isSettled c = true) : upper chars t = upper plain t := by
    rw [upper_settled chars ht, upper_settled plain ht]
  unfold licenseIn namedCreativeCommons
  rw [hfind ccUrlRe, hfind creativeCommonsRe, hfind ccRe, hfind spdxRe, hfind allRightsRe, hnamed]
  cases hurl : find plain ccUrlRe value with
  | some found =>
    dsimp only
    rw [hupper (groupOf_settled patterns_letters.1.1 hurl 0)]
  | none =>
    cases hcc : find plain ccRe value with
    | some found =>
      dsimp only [Option.bind_none]
      rw [hupper (groupOf_settled patterns_letters.1.2.1 hcc 0)]
    | none =>
      cases hspdx : find plain spdxRe value with
      | some found =>
        dsimp only [Option.bind_none]
        rw [hupper]
        intro c hc
        obtain rfl | hc := subRuns_subset hc
        · rfl
        · exact groupOf_settled patterns_letters.1.2.2 hspdx 0 c hc
      | none => rfl

end Settled

section Forms

variable {chars : Alphabet} {p : ℕ → Bool} {sub : ℕ} {inside : Bool} {s t : Text} {g : List Text}

/-- A character of a match as it stands in the name. -/
def mark (p : ℕ → Bool) (c : ℕ) : Text := [if p c then 45 else upperSettled c]

def isDash (c : ℕ) : Bool := c ∈ 45 :: blanks

def isBlankChar (c : ℕ) : Bool := c ∈ blanks

def Apart : List Bool → Bool
  | true :: true :: _ => false
  | _ :: bs => Apart bs
  | [] => true

theorem apart_tail {b : Bool} {bs : List Bool} (h : Apart (b :: bs) = true) : Apart bs = true := by
  cases b with
  | false => exact h
  | true =>
    cases bs with
    | nil => rfl
    | cons b' bs =>
      cases b' with
      | false => exact h
      | true => cases h

theorem subRuns_apart (u : ℕ → ℕ) (h : Apart (inside :: t.map fun c => p (u c)) = true) :
    subRuns p sub inside (t.map u) = t.map fun c => if p (u c) then sub else u c := by
  induction t generalizing inside with
  | nil => rfl
  | cons c t ih =>
    have htail := apart_tail h
    rw [List.map_cons, List.map_cons, subRuns]
    cases hp : p (u c) with
    | false =>
      rw [List.map_cons, hp] at htail
      rw [if_neg Bool.false_ne_true, if_neg Bool.false_ne_true, ih htail]
    | true =>
      rw [List.map_cons, hp] at h htail
      cases inside with
      | true => cases h
      | false => rw [if_pos rfl, if_neg Bool.false_ne_true, if_pos rfl, ih htail]

theorem subRuns_append_of_not (h : ∀ c ∈ s, p c = false) : subRuns p sub false (s ++ t) = s ++ subRuns p sub false t := by
  induction s with
  | nil => rfl
  | cons c s ih =>
    obtain ⟨hc, hs⟩ := List.forall_mem_cons.mp h
    rw [List.cons_append, subRuns, hc, if_neg Bool.false_ne_true, ih hs]
    rfl

theorem subRuns_run (hs : s ≠ []) (h : ∀ c ∈ s, p c = true) : subRuns p sub false (s ++ t) = sub :: subRuns p sub true t := by
  have hinside (s : Text) (h : ∀ c ∈ s, p c = true) : subRuns p sub true (s ++ t) = subRuns p sub true t := by
    induction s with
    | nil => rfl
    | cons c s ih =>
      obtain ⟨hc, hs⟩ := List.forall_mem_cons.mp h
      rw [List.cons_append, subRuns, hc, if_pos rfl, if_pos rfl, ih hs]
  cases s with
  | nil => exact absurd rfl hs
  | cons c s =>
    obtain ⟨hc, hs⟩ := List.forall_mem_cons.mp h
    rw [List.cons_append, subRuns, hc, if_pos rfl, if_neg Bool.false_ne_true, hinside s hs]

def ccForms : List Text := ccTerms.images (mark isDash)

def joinedForms : List Text := ccForms.map (txt "CC" ++ ·)

def dashedForms : List Text := ccForms.map (txt "CC-" ++ ·)

def spdxForms : List Text := (spdxNames.images (mark isBlankChar)).map spdxName

theorem ccTerms_plain : ccTerms.starless = true ∧ ccTerms.groupless = true := by
  simp [ccTerms, dash, version, starless, groupless]

theorem ccUrlTerms_plain : ccUrlTerms.starless = true ∧ ccUrlTerms.groupless = true := by
  simp [ccUrlTerms, starless, groupless]

theorem ccUrlVersion_plain : ccUrlVersion.starless = true ∧ ccUrlVersion.groupless = true := by
  simp [ccUrlVersion, version, starless, groupless]

theorem spdxNames_plain : spdxNames.starless = true ∧ spdxNames.groupless = true := by
  simp [spdxNames, vee, orLater, dash, starless, groupless]

theorem spells_edges {r : Regex ℕ} (hr : r.groupless = true) (h : Spells (seqs [.edge, .group r, .edge]) s g) :
    ∃ t, g = [t] ∧ Spells r t [] := by
  obtain ⟨s₁, s₂, g₁, g₂, -, rfl, hedge, h⟩ := spells_seq h
  obtain ⟨s₃, s₄, g₃, g₄, -, rfl, hgroup, hedge'⟩ := spells_seq h
  obtain ⟨rfl, hspells⟩ := spells_group hgroup hr
  rw [hedge.groups_eq_nil rfl, hedge'.groups_eq_nil rfl]
  exact ⟨s₃, rfl, hspells⟩

theorem spells_ccUrl (h : Spells ccUrlRe s g) :
    ∃ terms version, g = [terms, version] ∧ Spells ccUrlTerms terms [] ∧ Spells ccUrlVersion version [] := by
  obtain ⟨s₁, s₂, g₁, g₂, -, rfl, hhead, h⟩ := spells_seq h
  obtain ⟨s₃, s₄, g₃, g₄, -, rfl, hterms, h⟩ := spells_seq h
  obtain ⟨s₅, s₆, g₅, g₆, -, rfl, hslash, h⟩ := spells_seq h
  obtain ⟨s₇, s₈, g₇, g₈, -, rfl, hversion, hend⟩ := spells_seq h
  obtain ⟨rfl, hspells⟩ := spells_group hterms ccUrlTerms_plain.2
  obtain ⟨rfl, hspells'⟩ := spells_group hversion ccUrlVersion_plain.2
  have hhead := hhead.groups_eq_nil (by simp [groupless])
  have hslash := hslash.groups_eq_nil (groupless_lit "/")
  have hend := hend.groups_eq_nil (by simp [groupless])
  rw [hhead, hslash, hend]
  exact ⟨s₃, s₇, rfl, hspells, hspells'⟩

/-- `CC`, blanks, and the terms. -/
theorem spells_cc (h : Spells ccRe s g) :
    ∃ cc between terms, g = [cc ++ (between ++ terms)] ∧ Spells (lit "CC") cc [] ∧ (∀ c ∈ between, c ∈ blanks) ∧
      Spells ccTerms terms [] := by
  obtain ⟨t, rfl, hgroup⟩ := spells_edges (by simp [groupless, ccTerms_plain.2]) h
  obtain ⟨cc, t, g₁, g₂, rfl, -, hcc, hrest⟩ := spells_seq hgroup
  obtain ⟨between, terms, g₃, g₄, rfl, -, hbetween, hterms⟩ := spells_seq hrest
  rw [hcc.groups_eq_nil (groupless_lit "CC")] at hcc
  rw [hterms.groups_eq_nil ccTerms_plain.2] at hterms
  cases hbetween with
  | many hbetween => exact ⟨cc, between, terms, rfl, hcc, hbetween, hterms⟩

theorem flatMap_mark (p : ℕ → Bool) (t : Text) : t.flatMap (mark p) = t.map fun c => if p c then 45 else upperSettled c := by
  rw [List.map_eq_flatMap]
  rfl

theorem names_letters :
    ((∀ bs ∈ ccTerms.images (fun c => [isDash (upperSettled c)]), Apart (true :: bs) = true) ∧
      (∀ bs ∈ ccTerms.images (fun c => [isBlankChar c]), bs.head? = some false) ∧
        ∀ c ∈ ccTerms.alphabet, isDash (upperSettled c) = isDash c) ∧
      ((∀ t ∈ (lit "CC").images ([·]), t.map upperSettled = txt "CC" ∧ t.length = 2) ∧
        (∀ c ∈ txt "CC", isDash c = false) ∧ (∀ c ∈ blanks, isDash (upperSettled c) = true) ∧
          txt "CC-" = txt "CC" ++ [45]) ∧
        ∀ bs ∈ spdxNames.images (fun c => [isBlankChar c]), Apart (false :: bs) = true := by
  decide +kernel

/-- What the short form is called: the blanks after `CC` leave a dash. -/
theorem cc_name {cc between terms : Text} (hcc : Spells (lit "CC") cc []) (hbetween : ∀ c ∈ between, c ∈ blanks)
    (hterms : Spells ccTerms terms []) :
    ∃ form ∈ ccForms, subRuns isDash 45 false ((cc ++ (between ++ terms)).map upperSettled) =
      txt "CC" ++ (if between = [] then form else 45 :: form) := by
  have hname (inside : Bool) :
      subRuns isDash 45 inside (terms.map upperSettled) = terms.flatMap (mark isDash) := by
    have hapart := names_letters.1.1 _ (hterms.mem_images ccTerms_plain.1 fun c => [isDash (upperSettled c)])
    rw [← List.map_eq_flatMap] at hapart
    rw [subRuns_apart upperSettled, flatMap_mark]
    · apply List.map_congr_left
      intro c hc
      rw [names_letters.1.2.2 c (hterms.mem_alphabet hc)]
    · cases inside with
      | true => exact hapart
      | false =>
        have htail := apart_tail hapart
        exact htail
  have hupper := (names_letters.2.1.1 _ (hcc.mem_images (starless_lit "CC") ([·]))).1
  rw [List.flatMap_singleton'] at hupper
  refine ⟨_, hterms.mem_images ccTerms_plain.1 (mark isDash), ?_⟩
  rw [List.map_append, List.map_append, hupper, subRuns_append_of_not names_letters.2.1.2.1]
  by_cases hnil : between = []
  · rw [if_pos hnil, hnil]
    exact congrArg _ (hname false)
  · rw [if_neg hnil, subRuns_run, hname true]
    · rwa [Ne, List.map_eq_nil_iff]
    · intro c hc
      obtain ⟨b, hb, rfl⟩ := List.mem_map.mp hc
      exact names_letters.2.1.2.2.1 b (hbetween b hb)

theorem spdx_name (h : Spells spdxNames t []) :
    spdxName ((subRuns isBlankChar 45 false t).map upperSettled) ∈ spdxForms := by
  have hapart := names_letters.2.2 _ (h.mem_images spdxNames_plain.1 fun c => [isBlankChar c])
  rw [← List.map_eq_flatMap] at hapart
  have hsub : subRuns isBlankChar 45 false (t.map id) = t.map fun c => if isBlankChar c then 45 else c :=
    subRuns_apart id hapart
  rw [List.map_id] at hsub
  have hmark : t.map (upperSettled ∘ fun c => if isBlankChar c then 45 else c) = t.flatMap (mark isBlankChar) := by
    rw [flatMap_mark]
    apply List.map_congr_left
    intro c _
    rw [Function.comp_apply, apply_ite upperSettled]
    rfl
  rw [hsub, List.map_map, hmark]
  exact List.mem_map_of_mem (h.mem_images spdxNames_plain.1 (mark isBlankChar))

end Forms

section Checked

def Compact (t : Text) : Bool :=
  t ≠ [] && t.all fun c => isSettled c && !isSpace c && !isBlankChar c && c ≠ 58

/-- The names with nothing after `CC` are found again whole, those with a dash are not found, the SPDX names are. -/
theorem forms_checked :
    ((∀ t ∈ joinedForms, Compact t = true ∧ (find plain ccRe t).map (fun found => groupOf found 0) = some t ∧
      subRuns isDash 45 false (upper plain t) = t) ∧
        ∀ t ∈ dashedForms, Compact t = true ∧ (find plain ccRe t).isNone = true ∧ 89 ∈ t) ∧
      (∀ t ∈ spdxForms, (Compact t = true ∧ ∀ c ∈ t, c ∉ [89, 121]) ∧
        (find plain spdxRe t).map (fun found => spdxName (upper plain (subRuns isBlankChar 45 false (groupOf found 0)))) =
          some t) ∧
        (∀ terms ∈ ccUrlTerms.images (mark fun _ => false), ∀ version ∈ ccUrlVersion.images ([·]),
          txt "CC-" ++ terms ++ txt "-" ++ version ∈ dashedForms) ∧
          ∀ t ∈ [txt "CC-BY-NC-ND", txt "CC-BY-NC-SA", txt "CC-BY-NC", txt "CC-BY-ND", txt "CC-BY-SA", txt "CC-BY"],
            t ∈ dashedForms := by
  decide +kernel

end Checked

section Names

variable {chars : Alphabet} {value name : Text} {found : Place ℕ}

theorem url_form (h : find chars ccUrlRe value = some found) :
    txt "CC-" ++ upper chars (groupOf found 0) ++ txt "-" ++ groupOf found 1 ∈ dashedForms := by
  have hsettled := groupOf_settled patterns_letters.1.1 h 0
  obtain ⟨before, s, -, hs⟩ := search_spells h
  obtain ⟨terms, version, hgroups, hterms, hversion⟩ := spells_ccUrl hs
  have hfst : groupOf found 0 = terms := by rw [groupOf, hgroups]; rfl
  have hsnd : groupOf found 1 = version := by rw [groupOf, hgroups]; rfl
  have hdashed := forms_checked.2.2.1 _ (hterms.mem_images ccUrlTerms_plain.1 (mark fun _ => false)) _
    (hversion.mem_images ccUrlVersion_plain.1 ([·]))
  rw [flatMap_mark, List.flatMap_singleton'] at hdashed
  rw [upper_settled chars hsettled, hfst, hsnd]
  exact hdashed

theorem named_form {terms : Text} (h : named terms = some name) : name ∈ dashedForms := by
  apply forms_checked.2.2.2
  unfold named at h
  dsimp only at h
  split_ifs at h <;> cases h <;> simp

/-- The short form, as it is found: nothing, or blanks, between `CC` and `BY`. -/
def blankAfterCc (found : Place ℕ) : Bool := ((groupOf found 0).drop 2).head?.any isBlankChar

theorem cc_form (h : find chars ccRe value = some found) :
    ∃ form ∈ ccForms, subRuns isDash 45 false (upper chars (groupOf found 0)) =
      txt "CC" ++ (if blankAfterCc found then 45 :: form else form) := by
  have hsettled := groupOf_settled patterns_letters.1.2.1 h 0
  obtain ⟨before, s, -, hs⟩ := search_spells h
  obtain ⟨cc, between, terms, hgroups, hcc, hbetween, hterms⟩ := spells_cc hs
  have hfst : groupOf found 0 = cc ++ (between ++ terms) := by rw [groupOf, hgroups]; rfl
  obtain ⟨form, hform, hname⟩ := cc_name hcc hbetween hterms
  refine ⟨form, hform, ?_⟩
  have hlength := (names_letters.2.1.1 _ (hcc.mem_images (starless_lit "CC") ([·]))).2
  rw [List.flatMap_singleton'] at hlength
  have hblank : blankAfterCc found = !between.isEmpty := by
    rw [blankAfterCc, hfst, List.drop_left' hlength]
    cases between with
    | nil =>
      have hhead := names_letters.1.2.1 _ (hterms.mem_images ccTerms_plain.1 fun c => [isBlankChar c])
      rw [← List.map_eq_flatMap, List.head?_map] at hhead
      obtain ⟨c, hc, hfalse⟩ := Option.map_eq_some_iff.mp hhead
      rw [List.nil_append, hc]
      exact hfalse
    | cons b between => exact decide_eq_true (hbetween b List.mem_cons_self)
  rw [upper_settled chars hsettled, hfst, hname, hblank]
  cases between <;> rfl

theorem spdx_form (h : find chars spdxRe value = some found) :
    spdxName (upper chars (subRuns isBlankChar 45 false (groupOf found 0))) ∈ spdxForms := by
  have hsettled := groupOf_settled patterns_letters.1.2.2 h 0
  obtain ⟨before, s, -, hs⟩ := search_spells h
  obtain ⟨t, hgroups, ht⟩ := spells_edges spdxNames_plain.2 hs
  have hfst : groupOf found 0 = t := by rw [groupOf, hgroups]; rfl
  rw [upper_settled chars, hfst]
  · exact spdx_name ht
  · intro c hc
    obtain rfl | hc := subRuns_subset hc
    · rfl
    · exact hsettled c hc

end Names

section Recognized

variable (chars : Alphabet) (tools : Tools)

/-- The node's tools, with the license patterns of this module. -/
def patterns : Tools := { tools with licenseIn := licenseIn chars }

theorem normalizeLicense_patterns {t : Text} (h : t ≠ []) :
    normalizeLicense (patterns chars tools) t = licenseIn chars (joined [32] (split t)) := if_neg h

theorem compact_chars {t : Text} (h : Compact t = true) {c : ℕ} (hc : c ∈ t) :
    isSettled c = true ∧ isSpace c = false ∧ c ∉ blanks ∧ c ≠ 58 := by
  have hall := List.all_eq_true.mp ((Bool.and_eq_true _ _).mp h).2 c hc
  simp only [Bool.and_eq_true, Bool.not_eq_true', decide_eq_true_eq, isBlankChar, decide_eq_false_iff_not] at hall
  exact ⟨hall.1.1.1, hall.1.1.2, hall.1.2, hall.2⟩

theorem wordsFrom_of_not_space {w t : Text} (hw : w ≠ []) (h : ∀ c ∈ t, isSpace c = false) : wordsFrom w t = [w ++ t] := by
  induction t generalizing w with
  | nil => rw [wordsFrom, if_neg hw, List.append_nil]
  | cons c t ih =>
    obtain ⟨hc, ht⟩ := List.forall_mem_cons.mp h
    rw [wordsFrom, hc, if_neg Bool.false_ne_true, ih (List.append_ne_nil_of_right_ne_nil _ (List.cons_ne_nil _ _)) ht,
      List.append_assoc]
    rfl

theorem joined_compact {t : Text} (h : Compact t = true) : joined [32] (split t) = t := by
  cases t with
  | nil => cases h
  | cons c t =>
    have hc := (compact_chars h List.mem_cons_self).2.1
    have ht (d : ℕ) (hd : d ∈ t) : isSpace d = false := (compact_chars h (List.mem_cons_of_mem c hd)).2.1
    rw [split, wordsFrom, hc, if_neg Bool.false_ne_true, List.nil_append, wordsFrom_of_not_space (List.cons_ne_nil _ _) ht]
    rfl

theorem normalizeLicense_compact {t : Text} (h : Compact t = true) :
    normalizeLicense (patterns chars tools) t = licenseIn plain t := by
  have hne := of_decide_eq_true ((Bool.and_eq_true _ _).mp h).1
  rw [normalizeLicense_patterns chars tools hne, joined_compact h]
  exact licenseIn_settled chars (fun c hc => (compact_chars h hc).1)
    (search_eq_none patterns_letters.2.2.1 fun c hc => (compact_chars h hc).2.2.1)

theorem licenseIn_compact {t : Text} (h : Compact t = true) :
    licenseIn plain t =
      match find plain ccRe t with
      | some found => some (subRuns isDash 45 false (upper plain (groupOf found 0)))
      | none => (find plain spdxRe t).map fun found =>
          spdxName (upper plain (subRuns isBlankChar 45 false (groupOf found 0))) := by
  have hurl : find plain ccUrlRe t = none := by
    apply search_eq_none patterns_letters.2.1
    intro c hc
    rw [List.mem_singleton]
    exact (compact_chars h hc).2.2.2
  have hblank (c : ℕ) (hc : c ∈ t) : c ∉ blanks := (compact_chars h hc).2.2.1
  have hnamed : find plain creativeCommonsRe t = none := search_eq_none patterns_letters.2.2.1 hblank
  have hrights : find plain allRightsRe t = none := search_eq_none patterns_letters.2.2.2.1 hblank
  rw [licenseIn, namedCreativeCommons, hurl, hnamed, hrights]
  dsimp only [Option.bind_none]
  cases find plain ccRe t with
  | some found => rfl
  | none =>
    cases find plain spdxRe t with
    | some found => rfl
    | none => rfl

theorem kept_of_joined {t : Text} (h : t ∈ joinedForms) : normalizeLicense (patterns chars tools) t = some t := by
  obtain ⟨hcompact, hfind, hsub⟩ := forms_checked.1.1 t h
  obtain ⟨found, hfound, hgroup⟩ := Option.map_eq_some_iff.mp hfind
  rw [normalizeLicense_compact chars tools hcompact, licenseIn_compact hcompact, hfound]
  dsimp only
  rw [hgroup, hsub]

theorem kept_of_spdx {t : Text} (h : t ∈ spdxForms) : normalizeLicense (patterns chars tools) t = some t := by
  obtain ⟨⟨hcompact, hy⟩, hfound⟩ := forms_checked.2.1 t h
  have hcc : find plain ccRe t = none := search_eq_none patterns_letters.2.2.2.2 hy
  rw [normalizeLicense_compact chars tools hcompact, licenseIn_compact hcompact, hcc]
  exact hfound

theorem allRights_found : joined [32] (split (txt "All rights reserved")) = txt "All rights reserved" ∧
    txt "All rights reserved" ≠ [] ∧ (∀ c ∈ txt "All rights reserved", isSettled c = true) ∧
    (find plain creativeCommonsRe (txt "All rights reserved")).isNone = true ∧
    licenseIn plain (txt "All rights reserved") = some (txt "All rights reserved") := by
  decide +kernel

theorem kept_allRights :
    normalizeLicense (patterns chars tools) (txt "All rights reserved") = some (txt "All rights reserved") := by
  obtain ⟨hjoined, hne, hsettled, hnamed, hplain⟩ := allRights_found
  have hsame := licenseIn_settled chars hsettled (Option.isNone_iff_eq_none.mp hnamed)
  rw [normalizeLicense_patterns chars tools hne, hjoined, hsame, hplain]

theorem lost_of_dashed {t : Text} (h : t ∈ dashedForms) : normalizeLicense (patterns chars tools) t ≠ some t := by
  obtain ⟨hcompact, hcc, hy⟩ := forms_checked.1.2 t h
  rw [normalizeLicense_compact chars tools hcompact, licenseIn_compact hcompact, Option.isNone_iff_eq_none.mp hcc]
  intro hname
  obtain ⟨found, hfound, rfl⟩ := Option.map_eq_some_iff.mp hname
  exact (forms_checked.2.1 _ (spdx_form hfound)).1.2 89 hy List.mem_cons_self

/-- Neither a license URL nor Creative Commons written out, and where the short form is found no blank after `CC`. -/
def Recognizable (chars : Alphabet) (value : Text) : Prop :=
  find chars ccUrlRe value = none ∧ namedCreativeCommons chars value = none ∧
    ∀ found ∈ find chars ccRe value, blankAfterCc found = false

theorem licenseIn_kept {value name : Text} (h : Recognizable chars value) (hname : licenseIn chars value = some name) :
    normalizeLicense (patterns chars tools) name = some name := by
  obtain ⟨hurl, hnamed, hcc⟩ := h
  unfold licenseIn at hname
  rw [hurl, hnamed] at hname
  dsimp only at hname
  cases hfind : find chars ccRe value with
  | some found =>
    rw [hfind] at hname
    obtain ⟨form, hform, hsub⟩ := cc_form hfind
    have hblank : ¬blankAfterCc found = true := by
      rw [hcc found hfind]
      exact Bool.false_ne_true
    rw [if_neg hblank] at hsub
    have heq : name = txt "CC" ++ form := (Option.some.inj hname).symm.trans hsub
    rw [heq]
    exact kept_of_joined chars tools (List.mem_map_of_mem hform)
  | none =>
    rw [hfind] at hname
    dsimp only at hname
    cases hspdx : find chars spdxRe value with
    | some found =>
      rw [hspdx] at hname
      rw [← Option.some.inj hname]
      exact kept_of_spdx chars tools (spdx_form hspdx)
    | none =>
      rw [hspdx] at hname
      dsimp only at hname
      split_ifs at hname
      rw [← Option.some.inj hname]
      exact kept_allRights chars tools

theorem licenseIn_lost {value : Text} (h : ¬Recognizable chars value) :
    ∃ name ∈ dashedForms, licenseIn chars value = some name := by
  cases hurl : find chars ccUrlRe value with
  | some found =>
    refine ⟨_, url_form hurl, ?_⟩
    rw [licenseIn, hurl]
  | none =>
    cases hnamed : namedCreativeCommons chars value with
    | some name =>
      obtain ⟨found, -, hname⟩ := Option.bind_eq_some_iff.mp hnamed
      refine ⟨name, named_form hname, ?_⟩
      rw [licenseIn, hurl, hnamed]
    | none =>
      cases hcc : find chars ccRe value with
      | none =>
        refine absurd ⟨hurl, hnamed, fun found hfound => ?_⟩ h
        rw [hcc] at hfound
        cases hfound
      | some found =>
        obtain ⟨form, hform, hsub⟩ := cc_form hcc
        have hblank : blankAfterCc found = true := by
          by_contra hblank
          refine h ⟨hurl, hnamed, fun found' hfound => ?_⟩
          rw [hcc] at hfound
          rw [← Option.some.inj hfound]
          exact Bool.eq_false_of_not_eq_true hblank
        have hdash : txt "CC" ++ 45 :: form = txt "CC-" ++ form := by
          rw [names_letters.2.1.2.2.2, List.append_assoc]
          rfl
        rw [if_pos hblank, hdash] at hsub
        refine ⟨txt "CC-" ++ form, List.mem_map_of_mem hform, ?_⟩
        rw [licenseIn, hurl, hnamed, hcc]
        exact congrArg some hsub

/-- A license name is recognized again, as itself, exactly where it does not come from a URL, from Creative Commons
written out, or from a short form with a blank after `CC`. -/
theorem license_fixed_iff (s : Text) :
    (∀ name, normalizeLicense (patterns chars tools) s = some name →
      normalizeLicense (patterns chars tools) name = some name) ↔ Recognizable chars (joined [32] (split s)) := by
  by_cases hs : s = []
  · have hfind {r : Regex ℕ} {cs : List ℕ} (hr : r.needs cs = true) : find chars r [] = none := search_eq_none hr nofun
    subst hs
    refine iff_of_true (fun name hname => absurd hname.symm (Option.some_ne_none name)) ⟨?_, ?_, ?_⟩
    · exact hfind patterns_letters.2.1
    · exact congrArg (Option.bind · _) (hfind patterns_letters.2.2.1)
    · have hnone := hfind patterns_letters.2.2.2.2
      intro found hfound
      exact absurd (hnone.symm.trans hfound) (Option.some_ne_none found).symm
  · have hvalue := normalizeLicense_patterns chars tools hs
    constructor
    · intro h
      by_contra hlost
      obtain ⟨name, hname, heq⟩ := licenseIn_lost chars hlost
      exact lost_of_dashed chars tools hname (h name (hvalue.trans heq))
    · intro h name hname
      exact licenseIn_kept chars tools h (hvalue.symm.trans hname)

theorem cc_by_lost :
    normalizeLicense (patterns plain ⟨fun _ => [], fun _ => (none, none), fun _ => ([], none, none), fun _ => none⟩)
        (txt "CC BY 4.0") = some (txt "CC-BY-4.0") ∧
      normalizeLicense (patterns plain ⟨fun _ => [], fun _ => (none, none), fun _ => ([], none, none), fun _ => none⟩)
        (txt "CC-BY-4.0") = none := by
  decide +kernel

end Recognized

end ObserverClub.Extract
