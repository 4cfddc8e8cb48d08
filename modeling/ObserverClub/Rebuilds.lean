import ObserverClub.Forgotten

/-!
Search rows are rebuilt without fail: what a row of `classifies` holds can be bound again.
-/

namespace ObserverClub.Store

open Library Json Python Sqlite Catalog

section Storing

variable (o : Observer)

/-- What SQLite makes of numbers is text it takes back, and so are the words of the club's profile. -/
structure Storable : Prop where
  realText : ∀ x, Binds (.str (o.realText x))
  numericText : ∀ t, Binds (.str t) → Binds (o.numericText t).value
  fields : ∀ f ∈ o.fields, Binds (.str f)
  fieldAliases : ∀ p ∈ o.fieldAliases, Binds (.str p.2)

variable {o}

theorem binds_decimalInt (i : ℤ) : Binds (.str (decimalInt i)) := by
  intro c hc
  have hlt := (decimalInt_ascii hc).1
  simp only [isSurrogate, Bool.and_eq_false_iff, decide_eq_false_iff_not]
  omega

theorem binds_value {v : Value} {c : Cell} (h : bindValue v = .ok c) : Binds c.value := by
  cases v with
  | null =>
    cases h
    trivial
  | bool b =>
    cases h
    cases b
    · exact (by decide : -2 ^ 63 ≤ (0 : ℤ) ∧ (0 : ℤ) < 2 ^ 63)
    · exact (by decide : -2 ^ 63 ≤ (1 : ℤ) ∧ (1 : ℤ) < 2 ^ 63)
  | num n =>
    cases n with
    | int i =>
      rw [bindValue] at h
      split_ifs at h with hi
      cases h
      exact hi
    | float x =>
      cases x <;> cases h <;> trivial
  | str s =>
    have hbinds := (bindValue_isOk (.str s)).mp ⟨c, h⟩
    rw [bindValue] at h
    split_ifs at h
    cases h
    exact hbinds
  | arr xs => cases h
  | obj ms => cases h

theorem binds_column (h : Storable o) {v : Value} {u : Option Text} (hv : bindText o v = .ok u) :
    Binds ((u.map Json.str).getD .null) := by
  rw [bindText] at hv
  obtain ⟨c, hc, rfl⟩ := map_eq_ok.mp hv
  cases c with
  | null => trivial
  | int i => exact binds_decimalInt i
  | real x => exact h.realText x
  | text t => exact binds_value hc

theorem binds_size (h : Storable o) {v : Value} {c : Cell} (hv : bindValue v = .ok c) : Binds (c.asInteger o).value := by
  have hbinds := binds_value hv
  cases c with
  | null => trivial
  | int i => exact hbinds
  | real x =>
    cases x with
    | fin q =>
      rw [Cell.asInteger]
      split_ifs with hq
      · obtain ⟨hden, hlo, hhi⟩ := hq
        have hnum : q = q.num := ((Rat.den_eq_one_iff q).mp hden).symm
        rw [hnum] at hlo hhi
        exact ⟨by exact_mod_cast hlo, by exact_mod_cast hhi⟩
      · trivial
    | negZero => exact (by decide : -2 ^ 63 ≤ (0 : ℤ) ∧ (0 : ℤ) < 2 ^ 63)
    | inf neg => trivial
    | nan => trivial
  | text t => exact h.numericText t hbinds

theorem binds_field (h : Storable o) {v : Value} {f : Text} (hf : normalizeField o v = .ok f) : Binds (.str f) := by
  have other : Binds (.str (txt "other")) := by
    intro c hc
    revert c
    decide
  have named {k : Text} {c : ℕ} {s : Text} (hk : o.fieldAliases.lookup k = some (c :: s)) : Binds (.str (c :: s)) := by
    obtain ⟨before, later, he, -⟩ := List.lookup_eq_some_iff.mp hk
    apply h.fieldAliases (k, c :: s)
    rw [he]
    exact List.mem_append_right _ List.mem_cons_self
  unfold normalizeField at hf
  split_ifs at hf with hv
  · obtain rfl := Except.ok.inj hf
    exact other
  · obtain ⟨text, -, hf⟩ := bind_eq_ok.mp hf
    dsimp only at hf
    split_ifs at hf with hkey hcollapsed
    · obtain rfl := Except.ok.inj hf
      exact h.fields _ hkey
    · obtain rfl := Except.ok.inj hf
      exact h.fields _ hcollapsed
    · split at hf
      next hk =>
        obtain rfl := Except.ok.inj hf
        exact named hk
      next hk _ =>
        obtain rfl := Except.ok.inj hf
        exact named hk
      next =>
        obtain rfl := Except.ok.inj hf
        exact other

def Rebindable (c : Classify) : Prop := ∀ key ∈ columns, Binds (item c.dict key)

theorem rebindable_of_describe (h : Storable o) {v : Value} {now : ℚ} {c : Classify}
    (hd : describe o v now = .ok c.description) : Rebindable c := by
  simp only [describe, bindDescription, bind_eq_ok] at hd
  obtain ⟨_, _, _, _, m, hm, size, hsize, filename, hfilename, _, _, topic, htopic, keywords, hkeywords, license, hlicense,
    hash, hhash, hc⟩ := hd
  have hcolumns := Except.ok.inj hc
  have hitems : ∀ d : Description, d = c.description → item c.dict "mime_type" = (d.mimeType.map Json.str).getD .null ∧
      item c.dict "size" = d.size.value ∧ item c.dict "filename" = (d.filename.map Json.str).getD .null ∧
      item c.dict "topic" = (d.topic.map Json.str).getD .null ∧
      item c.dict "keywords" = (d.keywords.map Json.str).getD .null ∧
      item c.dict "license" = (d.license.map Json.str).getD .null ∧
      item c.dict "text_sha256" = (d.textSha256.map Json.str).getD .null := by
    rintro d rfl
    exact ⟨rfl, rfl, rfl, rfl, rfl, rfl, rfl⟩
  obtain ⟨h₁, h₂, h₃, h₄, h₅, h₆, h₇⟩ := hitems _ hcolumns
  simp only [Rebindable, columns, List.forall_mem_cons, List.not_mem_nil, false_implies, implies_true, and_true]
  rw [h₁, h₂, h₃, h₄, h₅, h₆, h₇]
  exact ⟨binds_column h hm, binds_size h hsize, binds_column h hfilename, binds_column h htopic, binds_column h hkeywords,
    binds_column h hlicense, binds_column h hhash⟩

theorem rebindable_of_deedOf (h : Storable o) {w : Surroundings} {kind : Text} {v : Value} {d : Description} {c : Option Text}
    (hd : deedOf o w kind v = .ok (.classify d c)) (e : Event) : Rebindable (e.classified d c w) := by
  suffices hdescribe : describe o v w.receivedAt = .ok d from rebindable_of_describe h hdescribe
  unfold deedOf at hd
  split_ifs at hd
  · obtain ⟨d', hd', hrest⟩ := bind_eq_ok.mp hd
    obtain ⟨c', -, hdeed⟩ := bind_eq_ok.mp hrest
    cases hdeed
    exact hd'
  · simp only [bind_eq_ok] at hd
    obtain ⟨name, -, _, -, hd⟩ := hd
    cases hd
  · simp only [bind_eq_ok] at hd
    obtain ⟨mimeType, -, reason, -, hd⟩ := hd
    cases hd
  · obtain ⟨x, -, hd⟩ := map_eq_ok.mp hd
    cases hd
  · cases hd

theorem normalizeField_column (x : Option Text) : ∃ f, normalizeField o ((x.map Json.str).getD .null) = .ok f := by
  cases x with
  | none => exact ⟨_, rfl⟩
  | some t =>
    have hstr : str o.py (.str t) = .ok t := rfl
    show ∃ f, normalizeField o (.str t) = .ok f
    unfold normalizeField
    rw [hstr]
    simp only [bind, Except.bind]
    split_ifs
    · exact ⟨_, rfl⟩
    · exact ⟨_, rfl⟩
    · exact ⟨_, rfl⟩
    · split <;> exact ⟨_, rfl⟩

theorem describe_returns (h : Storable o) {c : Classify} (hc : Rebindable c) (now : ℚ) : ∃ d, describe o c.dict now = .ok d := by
  obtain ⟨field, hfield⟩ := normalizeField_column (o := o) c.description.field
  have hitem : normalizeField o (item c.dict "field") = .ok field := hfield
  obtain ⟨x, hx⟩ : ∃ x, timeOr (item c.dict "indexed_at") now = .ok x := by
    show ∃ x, timeOr (((c.description.indexedAt.map Num.float).map Json.num).getD .null) now = .ok x
    unfold timeOr
    cases c.description.indexedAt with
    | none => exact ⟨_, rfl⟩
    | some y =>
      split_ifs
      · exact ⟨y, rfl⟩
      · exact ⟨_, rfl⟩
  obtain ⟨d, hd⟩ := (bindDescription_isOk o c.dict field x).mpr ⟨binds_field h hitem, hc⟩
  refine ⟨d, ?_⟩
  rw [describe, hitem, hx]
  exact hd

end Storing

section Blacklisting

variable {o : Observer} {s : Conn}

theorem mem_of_earliest {cs : List Classify} {c : Classify} (h : earliest cs = some c) : c ∈ cs := by
  induction cs generalizing c with
  | nil => cases h
  | cons d cs ih =>
    rw [earliest] at h
    split at h
    · obtain rfl := Option.some.inj h
      exact List.mem_cons_self
    next e he =>
      split_ifs at h
      · obtain rfl := Option.some.inj h
        exact List.mem_cons_of_mem _ (ih he)
      · obtain rfl := Option.some.inj h
        exact List.mem_cons_self

theorem blacklist_cases (h : Storable o) (hs : ∀ c ∈ s.view.classifies, Rebindable c) (me publisher : Text) (now : ℚ) :
    (step o s (.blacklist me publisher now)).view = s.view ∨
      RebuiltAll o (touchedCids (trim isSpace publisher) s.view)
        (dropPublisher (trim isSpace publisher) (noteBlacklisted (trim isSpace publisher) now s.view))
        (step o s (.blacklist me publisher now)).view := by
  have hstep : (step o s (.blacklist me publisher now)).view = (blacklist o me publisher now s).2.view :=
    congrArg Session.view (discard_snd _ _)
  rw [hstep]
  unfold blacklist
  split_ifs
  · exact Or.inl rfl
  · exact Or.inl rfl
  · rw [Txn.lift_bind]
    cases bindText o (.str (trim isSpace publisher)) with
    | error e => exact Or.inl rfl
    | ok name =>
      right
      dsimp only
      rw [Txn.read_bind, Txn.write_bind, Txn.write_bind, Session.view_opened]
      obtain ⟨u, hu⟩ : ∃ u, rebuildDocs o (touchedCids (trim isSpace publisher) s.view)
          (s.opened (dropPublisher (trim isSpace publisher) (noteBlacklisted (trim isSpace publisher) now s.view))) =
          (.ok (), u) := by
        apply rebuildDocs_returns
        intro cid _ c hc
        apply describe_returns h
        apply hs
        rw [Session.view_opened] at hc
        have hmem := mem_of_earliest hc
        exact List.mem_of_mem_filter (List.mem_of_mem_filter hmem)
      have hrebuilt := rebuildDocs_rebuilt hu
      rw [Session.view_opened] at hrebuilt
      exact (congrArg (fun r : Except Python.Error Bool × Conn => RebuiltAll o _ _ r.2.view) (Txn.bind_ok hu)).mpr hrebuilt

theorem unblacklist_cases (o : Observer) (s : Conn) (publisher : Text) :
    ∃ listed, (step o s (.unblacklist publisher)).view = { s.view with blacklisted := listed } := by
  have hstep : (step o s (.unblacklist publisher)).view = (unblacklist o publisher s).2.view :=
    congrArg Session.view (discard_snd _ _)
  rw [hstep]
  unfold unblacklist
  split_ifs
  · exact ⟨s.view.blacklisted, rfl⟩
  · cases bindText o (.str (trim isSpace publisher)) with
    | error e =>
      refine ⟨s.view.blacklisted, ?_⟩
      exact congrArg (fun r : Except Python.Error Bool × Conn => r.2.view) (Txn.bind_error (Txn.attempt_error (e := e) rfl))
    | ok name =>
      refine ⟨Table.delete Blacklisted.publisher (trim isSpace publisher) s.view.blacklisted, ?_⟩
      exact congrArg (fun r : Except Python.Error Bool × Conn => r.2.view)
        (Txn.bind_ok (Txn.attempt_eq_ok.mpr ⟨_, rfl, rfl⟩))

end Blacklisting

end ObserverClub.Store
