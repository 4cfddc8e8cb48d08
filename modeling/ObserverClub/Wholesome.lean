import ObserverClub.Crashes

/-!
Which messages `ingest_message` gets through without an exception: those it turns away, knows, or can store.
-/

namespace ObserverClub.Ingest

open Library Python Sqlite Catalog Store

section Messages

def payloads (t : Tables) : List Text := t.messages.map Message.payloadHash

variable (o : Observer) (blacklisted : List Blacklisted)

def TurnedAway (t : Tables) (obj : Value) : Prop :=
  (∃ ms, obj = .obj ms) ∧
  (memberOf kinds (item obj "kind") = .ok false ∨ memberOf kinds (item obj "kind") = .ok true ∧
  (otherClub o obj = .ok true ∨ otherClub o obj = .ok false ∧
  (truthy (item obj "publisher") = false ∨
  isBlacklisted o t (item obj "publisher") = .ok true ∨ isBlacklisted o t (item obj "publisher") = .ok false ∧
  (textOf (item obj "kind") ≠ txt "alias" ∧ (truthy (either (item obj "cid") (.str [])) = false ∨
    Cid.valid o.upper (either (item obj "cid") (.str [])) = false) ∨
  otherReason (textOf (item obj "kind")) obj = .ok true))))

/-- A message that is passed over, refused as recorded already, or taken in, where the payloads `seen` are recorded. -/
def Wholesome (seen : List Text) (w : Surroundings) (obj : Value) : Prop :=
  TurnedAway o (shutOut blacklisted) obj ∨
    ∃ m, Acceptable o (shutOut blacklisted) obj m ∧ Binds m.cid ∧ Binds m.publisher ∧ Binds (.str m.body) ∧
      (bindText o m.cid = .ok none ∨ bindText o m.publisher = .ok none ∨ m.payloadHash ∈ seen ∨ Digestible o w m.kind obj)

variable {o blacklisted} {w : Surroundings} {obj : Value} {s : Conn} {m : Accepted} {now : ℚ}

theorem guarded_eq_none {p : Prop} [Decidable p] {x : Except Error (Option Accepted)} :
    (if p then pure none else x) = .ok none ↔ p ∨ ¬p ∧ x = .ok none := by
  split_ifs with h
  · simp [h, Pure.pure, Except.pure]
  · simp [h]

theorem accept_eq_none {t : Tables} : accept o t obj = .ok none ↔ TurnedAway o t obj := by
  unfold accept TurnedAway
  split
  next ms =>
    simp only [bind_eq_ok, guarded_eq_none, Bool.exists_bool]
    have hrest (m : Accepted) : (pure (some m) : Except Error (Option Accepted)) ≠ .ok none := by
      intro h
      cases h
    simp only [hrest, and_false, exists_false, or_false, Bool.not_eq_true', Bool.false_eq_true,
      not_true_eq_false, not_false_eq_true, true_and, false_or, and_true, false_and, Bool.not_true, Bool.not_false,
      show (∃ ms', Json.obj ms = Json.obj ms') from ⟨ms, rfl⟩]
    tauto
  next hobj =>
    constructor
    · intro h
      cases h
    · rintro ⟨⟨ms, rfl⟩, -⟩
      exact absurd rfl (hobj ms)

theorem bindText_error {v : Value} {e : Error} (h : bindText o v = .error e) : e ≠ .integrityError ∧ ¬Binds v := by
  have hbinds : ¬Binds v := by
    intro hb
    obtain ⟨t, ht⟩ := (bindText_isOk o v).mpr hb
    cases ht.symm.trans h
  refine ⟨?_, hbinds⟩
  rintro rfl
  unfold bindText at h
  cases hv : bindValue v with
  | ok c =>
    rw [hv] at h
    cases h
  | error e =>
    rw [hv] at h
    obtain rfl : e = .integrityError := Except.error.inj h
    unfold bindValue at hv
    split at hv
    all_goals first | cases hv | (split_ifs at hv; cases hv)

/-- The row is not taken, and no exception is raised about it. -/
def Known (o : Observer) (seen : List Text) (m : Accepted) : Prop :=
  Binds m.cid ∧ Binds m.publisher ∧ Binds (.str m.body) ∧
    (bindText o m.cid = .ok none ∨ bindText o m.publisher = .ok none ∨ m.payloadHash ∈ seen)

theorem insertMessage_known (h : Known o (payloads s.view) m) :
    insertMessage o m now s = (.error .integrityError, s.opened s.view) := by
  obtain ⟨hc, hp, hb, h⟩ := h
  obtain ⟨cid, hcid⟩ := (bindText_isOk o _).mpr hc
  obtain ⟨publisher, hpub⟩ := (bindText_isOk o _).mpr hp
  have hbody := (bindText_str o (u := some m.body)).mpr ⟨hb, rfl⟩
  apply Txn.attempt_error
  rw [hcid, hpub, hbody]
  cases cid with
  | none => rfl
  | some cid =>
    cases publisher with
    | none => rfl
    | some publisher =>
      obtain h | h | h := h
      · cases hcid.symm.trans h
      · cases hpub.symm.trans h
      · have hfound : (Table.row? Message.payloadHash m.payloadHash s.view.messages).isSome = true := by
          rw [Option.isSome_iff_ne_none, Ne, Table.row?_eq_none]
          intro hnone
          obtain ⟨r, hr, he⟩ := List.mem_map.mp h
          exact hnone r hr he
        exact if_pos hfound

theorem insertMessage_unbound (h : ¬(Binds m.cid ∧ Binds m.publisher ∧ Binds (.str m.body))) :
    ∃ e, e ≠ .integrityError ∧ insertMessage o m now s = (.error e, s.opened s.view) := by
  cases hcid : bindText o m.cid with
  | error e =>
    refine ⟨e, (bindText_error hcid).1, Txn.attempt_error ?_⟩
    rw [hcid]
    rfl
  | ok cid =>
    cases hpub : bindText o m.publisher with
    | error e =>
      refine ⟨e, (bindText_error hpub).1, Txn.attempt_error ?_⟩
      rw [hcid, hpub]
      rfl
    | ok publisher =>
      cases hbody : bindText o (.str m.body) with
      | error e =>
        refine ⟨e, (bindText_error hbody).1, Txn.attempt_error ?_⟩
        rw [hcid, hpub, hbody]
        rfl
      | ok body =>
        exact absurd ⟨(bindText_isOk o _).mp ⟨_, hcid⟩, (bindText_isOk o _).mp ⟨_, hpub⟩, (bindText_isOk o _).mp ⟨_, hbody⟩⟩ h

theorem insertMessage_trichotomy (o : Observer) (s : Conn) (m : Accepted) : (∃ cid publisher, Recordable o s.view m cid publisher) ∨
    Known o (payloads s.view) m ∨ ¬(Binds m.cid ∧ Binds m.publisher ∧ Binds (.str m.body)) := by
  by_cases hbound : Binds m.cid ∧ Binds m.publisher ∧ Binds (.str m.body)
  swap
  · exact .inr (.inr hbound)
  obtain ⟨hc, hp, hb⟩ := hbound
  obtain ⟨cid, hcid⟩ := (bindText_isOk o _).mpr hc
  obtain ⟨publisher, hpub⟩ := (bindText_isOk o _).mpr hp
  cases cid with
  | none => exact .inr (.inl ⟨hc, hp, hb, .inl hcid⟩)
  | some cid =>
    cases publisher with
    | none => exact .inr (.inl ⟨hc, hp, hb, .inr (.inl hpub)⟩)
    | some publisher =>
      by_cases hold : m.payloadHash ∈ payloads s.view
      · exact .inr (.inl ⟨hc, hp, hb, .inr (.inr hold)⟩)
      · refine .inl ⟨cid, publisher, hcid, hpub, hb, fun r hr he => hold ?_⟩
        exact List.mem_map.mpr ⟨r, hr, he⟩

theorem not_known_of_recordable {cid publisher : Text} (h : Recordable o s.view m cid publisher) :
    ¬(bindText o m.cid = .ok none ∨ bindText o m.publisher = .ok none ∨
      m.payloadHash ∈ payloads s.view) := by
  rintro (hc | hp | hold)
  · cases h.cid.symm.trans hc
  · cases h.publisher.symm.trans hp
  · obtain ⟨r, hr, he⟩ := List.mem_map.mp hold
    exact h.new r hr he

section Accepting

/-- What is left of `ingest_message` once the checks have passed. -/
def record (o : Observer) (w : Surroundings) (m : Accepted) (obj : Value) : Db Bool := do
  match ← Txn.trying (· = .integrityError) (insertMessage o m w.receivedAt) with
  | none => return false
  | some (cid, publisher) =>
    effect o w m cid publisher obj
    Txn.commit
    if asksReview m obj then Txn.lift w.review
    return true

variable (hb : s.view.blacklisted = blacklisted) (ha : accept o (shutOut blacklisted) obj = .ok (some m))

include hb ha

theorem ingestMessage_of_accept : ingestMessage o w obj s = record o w m obj s := by
  have haccept : accept o s.view obj = .ok (some m) := (accept_congr o hb obj).trans ha
  rw [ingestMessage, Txn.read_bind, Txn.lift_bind, haccept]
  rfl

theorem ingestMessage_of_known (h : Known o (payloads s.view) m) : (ingestMessage o w obj s).1 = .ok false := by
  have hinsert : Txn.trying (· = .integrityError) (insertMessage o m w.receivedAt) s = (.ok none, s.opened s.view) := by
    rw [Txn.trying, insertMessage_known h]
    rfl
  rw [ingestMessage_of_accept hb ha, record, Txn.bind_ok hinsert]
  rfl

theorem ingestMessage_of_unbound (h : ¬(Binds m.cid ∧ Binds m.publisher ∧ Binds (.str m.body))) :
    ∃ e, (ingestMessage o w obj s).1 = .error e := by
  obtain ⟨e, he, hinsert⟩ : ∃ e, e ≠ .integrityError ∧ insertMessage o m w.receivedAt s = (.error e, s.opened s.view) :=
    insertMessage_unbound h
  have htrying : Txn.trying (· = .integrityError) (insertMessage o m w.receivedAt) s = (.error e, s.opened s.view) := by
    rw [Txn.trying, hinsert]
    exact if_neg (by simpa using he)
  refine ⟨e, ?_⟩
  rw [ingestMessage_of_accept hb ha, record, Txn.bind_error htrying]

theorem ingestMessage_of_recordable {cid publisher : Text} (hr : Recordable o s.view m cid publisher) (hw : w.review = .ok ()) :
    (∃ b, (ingestMessage o w obj s).1 = .ok b) ↔ Digestible o w m.kind obj := by
  have hk := ((accept_eq_some o).mp ha).known
  have hinsert : Txn.trying (· = .integrityError) (insertMessage o m w.receivedAt) s =
      (.ok (some (cid, publisher)), s.opened (withMessage (m.row cid publisher w.receivedAt) s.view)) := by
    rw [Txn.trying, (insertMessage_eq_ok o).mpr ⟨hr, rfl⟩]
  rw [ingestMessage_of_accept hb ha, record, Txn.bind_ok hinsert]
  dsimp only
  constructor
  · rintro ⟨b, hret⟩
    cases heffect : effect o w m cid publisher obj (s.opened (withMessage (m.row cid publisher w.receivedAt) s.view)) with
    | mk r u =>
      cases r with
      | error e =>
        rw [Txn.bind_error heffect] at hret
        cases hret
      | ok x =>
        obtain ⟨t, ht, -⟩ := (effect_eq_ok o hk).mp heffect
        exact (digestible_iff o hk).mpr ⟨t, ht⟩
  · intro h
    obtain ⟨t, ht⟩ := (digestible_iff o hk).mp h
    have heffect : effect o w m cid publisher obj (s.opened (withMessage (m.row cid publisher w.receivedAt) s.view)) =
        (.ok (), ⟨s.committed, some t⟩) := (effect_eq_ok o hk).mpr ⟨t, ht, rfl⟩
    refine ⟨true, ?_⟩
    rw [Txn.bind_ok heffect, Txn.commit_bind]
    split
    · rw [Txn.lift_bind, hw]
      rfl
    · rfl

end Accepting

theorem wholesome_of_accept (ha : accept o (shutOut blacklisted) obj = .ok (some m)) {seen : List Text} :
    Wholesome o blacklisted seen w obj ↔ Binds m.cid ∧ Binds m.publisher ∧ Binds (.str m.body) ∧
      (bindText o m.cid = .ok none ∨ bindText o m.publisher = .ok none ∨ m.payloadHash ∈ seen ∨ Digestible o w m.kind obj) := by
  rw [Wholesome, ← accept_eq_none, ha]
  constructor
  · rintro (h | ⟨m', hm', h⟩)
    · cases h
    · have he := ha.symm.trans ((accept_eq_some o).mpr hm')
      cases he
      exact h
  · exact fun h => .inr ⟨m, (accept_eq_some o).mp ha, h⟩

theorem ingestMessage_returns_iff (hb : s.view.blacklisted = blacklisted) (hw : w.review = .ok ()) :
    (∃ b, (ingestMessage o w obj s).1 = .ok b) ↔ Wholesome o blacklisted (payloads s.view) w obj := by
  have haccept : accept o s.view obj = accept o (shutOut blacklisted) obj := accept_congr o hb obj
  cases ha : accept o (shutOut blacklisted) obj with
  | error e =>
    have hrun : (ingestMessage o w obj s).1 = .error e := by
      rw [ingestMessage, Txn.read_bind, Txn.lift_bind, haccept, ha]
    rw [hrun, Wholesome, ← accept_eq_none, ha]
    constructor
    · rintro ⟨b, hb⟩
      cases hb
    · rintro (h | ⟨m, hm, -⟩)
      · cases h
      · cases ha.symm.trans ((accept_eq_some o).mpr hm)
  | ok a =>
    cases a with
    | none =>
      have hrun : (ingestMessage o w obj s).1 = .ok false := by
        rw [ingestMessage, Txn.read_bind, Txn.lift_bind, haccept, ha]
        rfl
      exact iff_of_true ⟨false, hrun⟩ (.inl ((accept_eq_none).mp ha))
    | some m =>
      rw [wholesome_of_accept ha]
      obtain ⟨cid, publisher, hr⟩ | hknown | hunbound := insertMessage_trichotomy o s m
      · have hnot := not_known_of_recordable hr
        rw [not_or, not_or] at hnot
        rw [ingestMessage_of_recordable hb ha hr hw, or_iff_right hnot.1, or_iff_right hnot.2.1, or_iff_right hnot.2.2]
        have hbinds : Binds m.cid ∧ Binds m.publisher ∧ Binds (.str m.body) :=
          ⟨(bindText_isOk o _).mp ⟨_, hr.cid⟩, (bindText_isOk o _).mp ⟨_, hr.publisher⟩, hr.body⟩
        exact ⟨fun h => ⟨hbinds.1, hbinds.2.1, hbinds.2.2, h⟩, fun h => h.2.2.2⟩
      · exact iff_of_true ⟨false, ingestMessage_of_known hb ha hknown⟩ ⟨hknown.1, hknown.2.1, hknown.2.2.1,
          hknown.2.2.2.imp id (Or.imp id Or.inl)⟩
      · obtain ⟨e, he⟩ := ingestMessage_of_unbound (w := w) hb ha hunbound
        rw [he]
        constructor
        · rintro ⟨b, hb⟩
          cases hb
        · rintro ⟨hc, hp, hbody, -⟩
          exact absurd ⟨hc, hp, hbody⟩ hunbound

end Messages

end ObserverClub.Ingest
