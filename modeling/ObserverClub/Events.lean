import ObserverClub.LatestWins

namespace ObserverClub.Store

open Library Python Sqlite Catalog

inductive Deed where
  | classify (d : Description) (classifier : Option Text)
  | rename (name : Text)
  | skip (mimeType reason : Option Text)
  | claim (untilTime : Binary64)
  | report (reason : Text)
  deriving DecidableEq

structure Event where
  kind : Text
  payloadHash : Text
  cid : Text
  publisher : Text
  body : Text
  deed : Deed
  deriving DecidableEq

namespace Event

def message (e : Event) (w : Surroundings) : Message :=
  ⟨e.payloadHash, e.kind, e.cid, e.publisher, e.body, w.receivedAt⟩

def classified (e : Event) (d : Description) (classifier : Option Text) (w : Surroundings) : Classify :=
  ⟨e.payloadHash, e.cid, e.publisher, d, classifier, w.receivedAt⟩

def effect (e : Event) (w : Surroundings) (t : Tables) : Tables :=
  match e.deed with
  | .classify d c => withDoc e.cid e.publisher d w.receivedAt (dropClaims e.cid (withClassify (e.classified d c w) t))
  | .rename name => withAlias e.publisher e.payloadHash name w.receivedAt t
  | .skip mimeType reason => dropClaims e.cid (withSkip ⟨e.cid, e.publisher, mimeType, reason, w.receivedAt⟩ t)
  | .claim x => withClaim e.cid e.publisher x w.now w.now' t
  | .report reason => withReport e.cid e.publisher reason w.receivedAt t

/-- An event counts once. -/
def take (e : Event) (w : Surroundings) (t : Tables) : Tables :=
  if e.payloadHash ∈ t.messages.map Message.payloadHash then t else e.effect w (withMessage (e.message w) t)

theorem effect_frame {e : Event} {w : Surroundings} {t : Tables} :
    (e.effect w t).messages = t.messages ∧ (e.effect w t).blacklisted = t.blacklisted := by
  unfold effect
  cases e.deed with
  | classify d c =>
    obtain ⟨fts, settings, hd⟩ := withDoc_eq e.cid e.publisher d w.receivedAt
      (dropClaims e.cid (withClassify (e.classified d c w) t))
    dsimp only
    rw [hd]
    exact ⟨rfl, rfl⟩
  | rename name =>
    dsimp only [withAlias]
    split_ifs <;> exact ⟨rfl, rfl⟩
  | skip mimeType reason => exact ⟨rfl, rfl⟩
  | claim x =>
    dsimp only [withClaim]
    split_ifs <;> exact ⟨rfl, rfl⟩
  | report reason =>
    dsimp only [withReport]
    split_ifs <;> exact ⟨rfl, rfl⟩

end Event

section Reading

variable (o : Observer)

def deedOf (w : Surroundings) (kind : Text) (obj : Value) : Except Error Deed :=
  if kind = txt "classify" then do
    let d ← describe o obj w.receivedAt
    let c ← classifierText o obj >>= fun t => bindText o (.str t)
    return .classify d c
  else if kind = txt "alias" then do
    let name ← aliasName o obj
    let _ ← bindText o (.str (name.take 32))
    return .rename name
  else if kind = txt "skip" then do
    let mimeType ← bindText o (item obj "mime_type")
    let reason ← bindText o (item obj "reason")
    return .skip mimeType reason
  else if kind = txt "claim" then (float (either (item obj "until") (.num (.int 0)))).map .claim
  else .ok (.report (textOf (item obj "reason")))

def read (t : Tables) (w : Surroundings) (obj : Value) : Except Error (Option Event) := do
  let some m ← accept o t obj | return none
  let cid ← required (← bindText o m.cid)
  let publisher ← required (← bindText o m.publisher)
  let body ← required (← bindText o (.str m.body))
  return some ⟨m.kind, m.payloadHash, cid, publisher, body, ← deedOf o w m.kind obj⟩

theorem read_eq_some {t : Tables} {w : Surroundings} {obj : Value} {e : Event} :
    read o t w obj = .ok (some e) ↔ ∃ m, Acceptable o t obj m ∧ bindText o m.cid = .ok (some e.cid) ∧
      bindText o m.publisher = .ok (some e.publisher) ∧ Binds (.str m.body) ∧ deedOf o w m.kind obj = .ok e.deed ∧
      e.kind = m.kind ∧ e.payloadHash = m.payloadHash ∧ e.body = m.body := by
  simp only [read, bind_eq_ok, ← accept_eq_some]
  constructor
  · rintro ⟨a, ha, h⟩
    cases a with
    | none => cases h
    | some m =>
      simp only [bind_eq_ok, required_eq_ok] at h
      obtain ⟨_, hc, cid, rfl, _, hp, publisher, rfl, _, hb, body, rfl, deed, hd, h⟩ := h
      cases h
      obtain ⟨hs, he⟩ := (bindText_str o).mp hb
      cases he
      exact ⟨m, ha, hc, hp, hs, hd, rfl, rfl, rfl⟩
  · rintro ⟨m, ha, hc, hp, hs, hd, hk, hh, hb⟩
    refine ⟨some m, ha, ?_⟩
    simp only [bind_eq_ok, required_eq_ok]
    refine ⟨_, hc, _, rfl, _, hp, _, rfl, _, (bindText_str o).mpr ⟨hs, rfl⟩, _, rfl, _, hd, ?_⟩
    rw [← hk, ← hh, ← hb]
    rfl

theorem map_eq_ok {ε α β : Type} {x : Except ε α} {f : α → β} {b : β} :
    x.map f = .ok b ↔ ∃ a, x = .ok a ∧ f a = b := by
  cases x <;> simp [Except.map]

/-- What is read is what the statements of `ingest_message` do. -/
theorem effect_iff_deedOf {w : Surroundings} {m : Accepted} {cid publisher : Text} {obj : Value} {v t : Tables}
    (hk : m.kind ∈ kinds) : Effect o w m cid publisher obj v t ↔ ∃ deed, deedOf o w m.kind obj = .ok deed ∧
      t = Event.effect ⟨m.kind, m.payloadHash, cid, publisher, m.body, deed⟩ w v := by
  constructor
  · intro h
    unfold deedOf
    cases h with
    | @classified d c kind hd hc =>
      rw [kind, if_pos rfl, hd]
      refine ⟨.classify d c, ?_, rfl⟩
      rw [bind_eq_ok]
      refine ⟨d, rfl, ?_⟩
      rw [bind_eq_ok]
      exact ⟨c, hc, rfl⟩
    | @aliased name kind hn hs =>
      rw [kind, if_neg (by decide), if_pos rfl, hn]
      refine ⟨.rename name, ?_, rfl⟩
      rw [bind_eq_ok]
      refine ⟨name, rfl, ?_⟩
      rw [bind_eq_ok]
      exact ⟨_, (bindText_str o).mpr ⟨hs, rfl⟩, rfl⟩
    | @skipped mimeType reason kind hm hr =>
      rw [kind, if_neg (by decide), if_neg (by decide), if_pos rfl, hm, hr]
      exact ⟨.skip mimeType reason, rfl, rfl⟩
    | @claimed x kind hx =>
      rw [kind, if_neg (by decide), if_neg (by decide), if_neg (by decide), if_pos rfl, hx]
      exact ⟨.claim x, rfl, rfl⟩
    | reported kind =>
      rw [kind, if_neg (by decide), if_neg (by decide), if_neg (by decide), if_neg (by decide)]
      exact ⟨.report _, rfl, rfl⟩
  · rintro ⟨deed, h, rfl⟩
    unfold deedOf at h
    rcases kinds_cases hk with kind | kind | kind | kind | kind
    · rw [kind, if_neg (by decide), if_neg (by decide), if_neg (by decide), if_pos rfl, map_eq_ok] at h
      obtain ⟨x, hx, rfl⟩ := h
      exact .claimed kind hx
    · rw [kind, if_neg (by decide), if_neg (by decide), if_pos rfl] at h
      simp only [bind_eq_ok] at h
      obtain ⟨mimeType, hm, reason, hr, h⟩ := h
      cases h
      exact .skipped kind hm hr
    · rw [kind, if_pos rfl] at h
      obtain ⟨d, hd, hrest⟩ := bind_eq_ok.mp h
      obtain ⟨c, hc, hdeed⟩ := bind_eq_ok.mp hrest
      cases hdeed
      exact .classified kind hd hc
    · rw [kind, if_neg (by decide), if_pos rfl] at h
      simp only [bind_eq_ok] at h
      obtain ⟨name, hn, _, hb, h⟩ := h
      cases h
      exact .aliased kind hn ((bindText_str o).mp hb).1
    · rw [kind, if_neg (by decide), if_neg (by decide), if_neg (by decide), if_neg (by decide)] at h
      cases h
      exact .reported kind

end Reading

section Ingesting

variable (o : Observer)

/-- What a reading does to the tables; nothing where it fails or there is no event. -/
def taken (r : Except Error (Option Event)) (w : Surroundings) (t : Tables) : Tables :=
  match r with
  | .ok (some e) => e.take w t
  | _ => t

theorem taken_eq (r : Except Error (Option Event)) (w : Surroundings) (t : Tables) :
    taken r w t = ((r.toOption.bind id).map fun e => e.take w t).getD t := by
  cases r with
  | error _ => rfl
  | ok r => cases r <;> rfl

theorem unrecorded_iff {t : Tables} {m : Accepted} {cid publisher : Text} (hc : bindText o m.cid = .ok (some cid))
    (hp : bindText o m.publisher = .ok (some publisher)) (hb : Binds (.str m.body)) :
    (∀ cid publisher, ¬Recordable o t m cid publisher) ↔ m.payloadHash ∈ t.messages.map Message.payloadHash := by
  constructor
  · intro h
    by_contra hnew
    apply h cid publisher ⟨hc, hp, hb, _⟩
    intro r hr he
    exact hnew (List.mem_map.mpr ⟨r, hr, he⟩)
  · rintro h cid publisher ⟨-, -, -, hnew⟩
    obtain ⟨r, hr, he⟩ := List.mem_map.mp h
    exact hnew r hr he

theorem ingestMessage_of_read {w : Surroundings} {obj : Value} {s : Conn} {e : Event}
    (h : read o s.view w obj = .ok (some e)) : (ingestMessage o w obj s).2.view = e.take w s.view := by
  obtain ⟨m, ha, hc, hp, hb, hd, hkind, hhash, hbody⟩ := (read_eq_some o).mp h
  have hunique : ∀ {m'}, Acceptable o s.view obj m' → m' = m := by
    intro m' hm'
    simpa using ((accept_eq_some o).mpr hm').symm.trans ((accept_eq_some o).mpr ha)
  have heffect : ∀ v t, Effect o w m e.cid e.publisher obj v t ↔ t = e.effect w v := by
    intro v t
    rw [effect_iff_deedOf o ha.known, ← hkind, ← hhash, ← hbody, hkind, hd]
    constructor
    · rintro ⟨deed, hdeed, rfl⟩
      cases hdeed
      rfl
    · rintro rfl
      exact ⟨e.deed, rfl, rfl⟩
  have hcases := ingestMessage_cases o w obj s
  generalize ingestMessage o w obj s = out at hcases ⊢
  cases hcases with
  | refused refusal _ => exact absurd ha (refusal m)
  | rejected accepted rejection _ =>
    obtain rfl := hunique accepted
    have hold := (unrecorded_iff o hc hp hb).mp rejection
    rw [← hhash] at hold
    rw [Event.take, if_pos hold]
    rfl
  | @broken m' cid publisher _ _ accepted recorded breakage =>
    obtain rfl := hunique accepted
    obtain rfl : cid = e.cid := by simpa using recorded.cid.symm.trans hc
    obtain rfl : publisher = e.publisher := by simpa using recorded.publisher.symm.trans hp
    exact absurd ((heffect _ _).mpr rfl) (breakage _)
  | @done m' cid publisher t accepted recorded effect =>
    obtain rfl := hunique accepted
    obtain rfl : cid = e.cid := by simpa using recorded.cid.symm.trans hc
    obtain rfl : publisher = e.publisher := by simpa using recorded.publisher.symm.trans hp
    have hnew : e.payloadHash ∉ s.view.messages.map Message.payloadHash := by
      intro hold
      rw [hhash] at hold
      exact (unrecorded_iff o hc hp hb).mpr hold _ _ recorded
    have hrow : m'.row e.cid e.publisher w.receivedAt = e.message w := by
      rw [Accepted.row, Event.message, hhash, hkind, hbody]
    rw [Event.take, if_neg hnew, ← hrow]
    exact (heffect _ _).mp effect

theorem ingestMessage_view {w : Surroundings} {obj : Value} {s : Conn} {b : Bool}
    (hr : (ingestMessage o w obj s).1 = .ok b) :
    (ingestMessage o w obj s).2.view = taken (read o s.view w obj) w s.view := by
  by_cases hread : ∃ e, read o s.view w obj = .ok (some e)
  · obtain ⟨e, he⟩ := hread
    rw [ingestMessage_of_read o he, he]
    rfl
  · have htaken : taken (read o s.view w obj) w s.view = s.view := by
      unfold taken
      split
      next e he => exact absurd ⟨e, he⟩ hread
      next => rfl
    rw [htaken]
    have hcases := ingestMessage_cases o w obj s
    generalize ingestMessage o w obj s = out at hcases hr ⊢
    cases hcases with
    | refused _ _ => rfl
    | rejected _ _ _ => rfl
    | broken _ _ _ => cases hr
    | @done m cid publisher t accepted recorded effect =>
      obtain ⟨deed, hd, -⟩ := (effect_iff_deedOf o accepted.known).mp effect
      apply absurd _ hread
      refine ⟨⟨m.kind, m.payloadHash, cid, publisher, m.body, deed⟩, (read_eq_some o).mpr ?_⟩
      exact ⟨m, accepted, recorded.cid, recorded.publisher, recorded.body, hd, rfl, rfl, rfl⟩

theorem insertMessage_again {m : Accepted} {now : ℚ} {s : Conn} {cid publisher : Text}
    (hc : bindText o m.cid = .ok (some cid)) (hp : bindText o m.publisher = .ok (some publisher)) (hb : Binds (.str m.body))
    (hold : m.payloadHash ∈ s.view.messages.map Message.payloadHash) :
    insertMessage o m now s = (.error .integrityError, s.opened s.view) := by
  have hbody := (bindText_str o (u := some m.body)).mpr ⟨hb, rfl⟩
  have hfound : (Table.row? Message.payloadHash m.payloadHash s.view.messages).isSome = true := by
    rw [Option.isSome_iff_ne_none, Ne, Table.row?_eq_none]
    intro hnone
    obtain ⟨r, hr, he⟩ := List.mem_map.mp hold
    exact hnone r hr he
  apply Txn.attempt_error
  rw [hc, hp, hbody]
  exact if_pos hfound

theorem ingestMessage_returns {w : Surroundings} {obj : Value} {s : Conn} {e : Event}
    (h : read o s.view w obj = .ok (some e)) (hw : w.review = .ok ()) : ∃ b, (ingestMessage o w obj s).1 = .ok b := by
  obtain ⟨m, ha, hc, hp, hb, hd, -, -, -⟩ := (read_eq_some o).mp h
  by_cases hold : m.payloadHash ∈ s.view.messages.map Message.payloadHash
  · refine ⟨false, ?_⟩
    have htrying : Txn.trying (· = .integrityError) (insertMessage o m w.receivedAt) s = (.ok none, s.opened s.view) := by
      rw [Txn.trying, insertMessage_again o hc hp hb hold]
      rfl
    rw [ingestMessage, Txn.read_bind, Txn.lift_bind, (accept_eq_some o).mpr ha]
    dsimp only
    rw [Txn.bind_ok htrying]
    rfl
  · have hcases := ingestMessage_cases o w obj s
    have hunique : ∀ {m'}, Acceptable o s.view obj m' → m' = m := by
      intro m' hm'
      simpa using ((accept_eq_some o).mpr hm').symm.trans ((accept_eq_some o).mpr ha)
    generalize ingestMessage o w obj s = out at hcases ⊢
    cases hcases with
    | refused refusal _ => exact absurd ha (refusal m)
    | rejected accepted rejection _ =>
      obtain rfl := hunique accepted
      exact absurd ((unrecorded_iff o hc hp hb).mp rejection) hold
    | broken accepted _ breakage =>
      obtain rfl := hunique accepted
      exact absurd ((effect_iff_deedOf o ha.known).mpr ⟨e.deed, hd, rfl⟩) (breakage _)
    | @done m' _ _ _ _ _ _ =>
      refine ⟨true, ?_⟩
      dsimp only
      rw [reviewed]
      split
      · rw [hw]
        rfl
      · rfl

end Ingesting

end ObserverClub.Store
