import ObserverClub.StoreSteps

/-!
What one call of `ingest_message` can do to the connection.
-/

namespace ObserverClub.Store

open Library Python Sqlite Catalog

variable (o : Observer)

/-- A row of `messages` that the table takes. -/
structure Recordable (t : Tables) (m : Accepted) (cid publisher : Text) : Prop where
  cid : bindText o m.cid = .ok (some cid)
  publisher : bindText o m.publisher = .ok (some publisher)
  body : Binds (.str m.body)
  new : ∀ r ∈ t.messages, r.payloadHash ≠ m.payloadHash

def Accepted.row (m : Accepted) (cid publisher : Text) (now : ℚ) : Message :=
  ⟨m.payloadHash, m.kind, cid, publisher, m.body, now⟩

theorem required_eq_ok {x : Option Text} {t : Text} : required x = .ok t ↔ x = some t := by
  cases x <;> simp [required]

theorem insertMessage_eq_ok {m : Accepted} {now : ℚ} {s u : Conn} {cid publisher : Text} :
    insertMessage o m now s = (.ok (cid, publisher), u) ↔
      Recordable o s.view m cid publisher ∧ u = s.opened (withMessage (m.row cid publisher now) s.view) := by
  simp only [insertMessage, Txn.attempt_eq_ok, bind_eq_ok, required_eq_ok, bindText_str]
  constructor
  · rintro ⟨v, ⟨_, hc, _, hp, _, ⟨hb, rfl⟩, _, rfl, _, rfl, body, hbody, h⟩, rfl⟩
    cases hbody
    split at h
    next => cases h
    next hn =>
      cases h
      refine ⟨⟨hc, hp, hb, ?_⟩, rfl⟩
      rw [Option.not_isSome_iff_eq_none, Table.row?_eq_none] at hn
      exact hn
  · rintro ⟨h, rfl⟩
    refine ⟨_, ⟨_, h.cid, _, h.publisher, _, ⟨h.body, rfl⟩, _, rfl, _, rfl, _, rfl, ?_⟩, rfl⟩
    rw [if_neg]
    · rfl
    · rw [Option.not_isSome_iff_eq_none, Table.row?_eq_none]
      exact h.new

theorem insertMessage_error {m : Accepted} {now : ℚ} {s u : Conn} {e : Error}
    (h : insertMessage o m now s = (.error e, u)) : u = s.opened s.view := by
  rw [insertMessage, Txn.attempt] at h
  split at h
  next => cases h
  next =>
    cases h
    rfl

/-- What an accepted message makes of the tables besides its row of `messages`. -/
inductive Effect (w : Surroundings) (m : Accepted) (cid publisher : Text) (obj : Value) (t : Tables) : Tables → Prop
  | classified {d c} (kind : m.kind = txt "classify") (columns : describe o obj w.receivedAt = .ok d)
      (classifier : (classifierText o obj >>= fun t => bindText o (.str t)) = .ok c) :
      Effect w m cid publisher obj t (withDoc cid publisher d w.receivedAt (dropClaims cid
        (withClassify ⟨m.payloadHash, cid, publisher, d, c, w.receivedAt⟩ t)))
  | aliased {name} (kind : m.kind = txt "alias") (named : aliasName o obj = .ok name)
      (stored : Binds (.str (name.take 32))) :
      Effect w m cid publisher obj t (withAlias publisher m.payloadHash name w.receivedAt t)
  | skipped {mimeType reason} (kind : m.kind = txt "skip") (typed : bindText o (item obj "mime_type") = .ok mimeType)
      (given : bindText o (item obj "reason") = .ok reason) :
      Effect w m cid publisher obj t
        (dropClaims cid (withSkip ⟨cid, publisher, mimeType, reason, w.receivedAt⟩ t))
  | claimed {x} (kind : m.kind = txt "claim") (time : float (either (item obj "until") (.num (.int 0))) = .ok x) :
      Effect w m cid publisher obj t (withClaim cid publisher x w.now w.now' t)
  | reported (kind : m.kind = txt "report") :
      Effect w m cid publisher obj t (withReport cid publisher (textOf (item obj "reason")) w.receivedAt t)

namespace Effect

variable {o} {w : Surroundings} {m : Accepted} {cid publisher : Text} {obj : Value} {v t : Tables}

theorem of_classify (h : Effect o w m cid publisher obj v t) (hk : m.kind = txt "classify") :
    ∃ d c, describe o obj w.receivedAt = .ok d ∧ (classifierText o obj >>= fun t => bindText o (.str t)) = .ok c ∧
      t = withDoc cid publisher d w.receivedAt (dropClaims cid
        (withClassify ⟨m.payloadHash, cid, publisher, d, c, w.receivedAt⟩ v)) := by
  cases h with
  | classified _ hd hc => exact ⟨_, _, hd, hc, rfl⟩
  | _ kind => exact absurd (kind.symm.trans hk) (by decide)

theorem of_alias (h : Effect o w m cid publisher obj v t) (hk : m.kind = txt "alias") :
    ∃ name, aliasName o obj = .ok name ∧ Binds (.str (name.take 32)) ∧
      t = withAlias publisher m.payloadHash name w.receivedAt v := by
  cases h with
  | aliased _ hn hs => exact ⟨_, hn, hs, rfl⟩
  | _ kind => exact absurd (kind.symm.trans hk) (by decide)

theorem of_skip (h : Effect o w m cid publisher obj v t) (hk : m.kind = txt "skip") :
    ∃ mimeType reason, bindText o (item obj "mime_type") = .ok mimeType ∧
      bindText o (item obj "reason") = .ok reason ∧
      t = dropClaims cid (withSkip ⟨cid, publisher, mimeType, reason, w.receivedAt⟩ v) := by
  cases h with
  | skipped _ hm hr => exact ⟨_, _, hm, hr, rfl⟩
  | _ kind => exact absurd (kind.symm.trans hk) (by decide)

theorem of_claim (h : Effect o w m cid publisher obj v t) (hk : m.kind = txt "claim") :
    ∃ x, float (either (item obj "until") (.num (.int 0))) = .ok x ∧
      t = withClaim cid publisher x w.now w.now' v := by
  cases h with
  | claimed _ hx => exact ⟨_, hx, rfl⟩
  | _ kind => exact absurd (kind.symm.trans hk) (by decide)

theorem of_report (h : Effect o w m cid publisher obj v t) (hk : m.kind = txt "report") :
    t = withReport cid publisher (textOf (item obj "reason")) w.receivedAt v := by
  cases h with
  | reported _ => rfl
  | _ kind => exact absurd (kind.symm.trans hk) (by decide)

end Effect

theorem kinds_cases {k : Text} (h : k ∈ kinds) :
    k = txt "claim" ∨ k = txt "skip" ∨ k = txt "classify" ∨ k = txt "alias" ∨ k = txt "report" := by
  simpa [kinds] using h

theorem effect_eq_ok {w : Surroundings} {m : Accepted} {cid publisher : Text} {obj : Value} {c v : Tables} {u : Conn}
    (hk : m.kind ∈ kinds) :
    effect o w m cid publisher obj ⟨c, some v⟩ = (.ok (), u) ↔
      ∃ t, Effect o w m cid publisher obj v t ∧ u = ⟨c, some t⟩ := by
  constructor
  · intro h
    rw [effect] at h
    split at h
    next kind =>
      obtain ⟨d, cl, hd, hc, rfl⟩ := (insertClassify_eq_ok o).mp h
      exact ⟨_, .classified kind hd hc, rfl⟩
    split at h
    next kind =>
      obtain ⟨name, hn, hs, rfl⟩ := (upsertAlias_eq_ok o).mp h
      exact ⟨_, .aliased kind hn hs, rfl⟩
    split at h
    next kind =>
      obtain ⟨mt, r, hm, hr, rfl⟩ := (insertSkip_eq_ok o).mp h
      exact ⟨_, .skipped kind hm hr, rfl⟩
    split at h
    next kind =>
      obtain ⟨x, hx, rfl⟩ := insertClaim_eq_ok.mp h
      exact ⟨_, .claimed kind hx, rfl⟩
    next =>
      rw [insertReport_run] at h
      cases h
      refine ⟨_, .reported ?_, rfl⟩
      have := kinds_cases hk
      tauto
  · rintro ⟨t, h, rfl⟩
    rw [effect]
    cases h with
    | classified kind hd hc =>
      rw [if_pos kind]
      exact (insertClassify_eq_ok o).mpr ⟨_, _, hd, hc, rfl⟩
    | aliased kind hn hs =>
      rw [kind, if_neg (by decide), if_pos rfl]
      exact (upsertAlias_eq_ok o).mpr ⟨_, hn, hs, rfl⟩
    | skipped kind hm hr =>
      rw [kind, if_neg (by decide), if_neg (by decide), if_pos rfl]
      exact (insertSkip_eq_ok o).mpr ⟨_, _, hm, hr, rfl⟩
    | claimed kind hx =>
      rw [kind, if_neg (by decide), if_neg (by decide), if_neg (by decide), if_pos rfl]
      exact insertClaim_eq_ok.mpr ⟨_, hx, rfl⟩
    | reported kind =>
      rw [kind, if_neg (by decide), if_neg (by decide), if_neg (by decide), if_neg (by decide)]
      exact insertReport_run

theorem upsertDoc_stays (cid publisher : Text) (obj : Value) (now : ℚ) : (upsertDoc o cid publisher obj now).Stays := by
  apply Txn.Stays.bind (.lift _)
  intro field
  apply Txn.Stays.bind (.lift _)
  intro x
  apply Txn.Stays.bind .read
  intro t
  apply Txn.Stays.bind (.attempt _)
  intro _
  exact .ite (.bind (.write _) fun _ => .write _) (.pure _)

theorem insertClassify_stays (hash cid publisher : Text) (obj : Value) (now : ℚ) :
    (insertClassify o hash cid publisher obj now).Stays := by
  apply Txn.Stays.bind (.lift _)
  intro field
  apply Txn.Stays.bind (.lift _)
  intro classifierS
  apply Txn.Stays.bind (.lift _)
  intro x
  apply Txn.Stays.bind (.attempt _)
  intro _
  apply Txn.Stays.bind (.write _)
  intro _
  exact upsertDoc_stays o cid publisher obj now

theorem effect_stays (w : Surroundings) (m : Accepted) (cid publisher : Text) (obj : Value) :
    (effect o w m cid publisher obj).Stays := by
  apply Txn.Stays.ite (insertClassify_stays o _ _ _ _ _)
  apply Txn.Stays.ite
  · apply Txn.Stays.bind (.lift _)
    intro name
    exact .ite (.write _) (.attempt _)
  apply Txn.Stays.ite
  · exact .bind (.attempt _) fun _ => .write _
  apply Txn.Stays.ite
  · apply Txn.Stays.bind (.lift _)
    intro x
    refine .ite (.bind .read fun t => ?_) (.pure _)
    exact .ite (.write _) (.pure _)
  · exact .ite (.write _) (.write _)

def reviewed (w : Surroundings) (m : Accepted) (obj : Value) : Except Error Bool :=
  if asksReview m obj then w.review.map fun _ => true else .ok true

inductive Ingested (w : Surroundings) (obj : Value) (s : Conn) : Except Error Bool × Conn → Prop
  | refused {r} (refusal : ∀ m, ¬Acceptable o s.view obj m) (failure : r ≠ .ok true) : Ingested w obj s (r, s)
  | rejected {m r} (accepted : Acceptable o s.view obj m)
      (rejection : ∀ cid publisher, ¬Recordable o s.view m cid publisher) (failure : r ≠ .ok true) :
      Ingested w obj s (r, s.opened s.view)
  | broken {m cid publisher e v} (accepted : Acceptable o s.view obj m)
      (recorded : Recordable o s.view m cid publisher)
      (breakage : ∀ t, ¬Effect o w m cid publisher obj (withMessage (m.row cid publisher w.receivedAt) s.view) t) :
      Ingested w obj s (.error e, s.opened v)
  | done {m cid publisher t} (accepted : Acceptable o s.view obj m)
      (recorded : Recordable o s.view m cid publisher)
      (effect : Effect o w m cid publisher obj (withMessage (m.row cid publisher w.receivedAt) s.view) t) :
      Ingested w obj s (reviewed w m obj, ⟨t, none⟩)

theorem trying_insertMessage (m : Accepted) (now : ℚ) (s : Conn) :
    (∃ cid publisher, Recordable o s.view m cid publisher ∧
      Txn.trying (· = .integrityError) (insertMessage o m now) s =
        (.ok (some (cid, publisher)), s.opened (withMessage (m.row cid publisher now) s.view))) ∨
    (∀ cid publisher, ¬Recordable o s.view m cid publisher) ∧ ∃ r,
      (r = .ok none ∨ ∃ e, r = .error e) ∧
      Txn.trying (· = .integrityError) (insertMessage o m now) s = (r, s.opened s.view) := by
  rw [Txn.trying]
  split
  next a t h =>
    obtain ⟨hr, rfl⟩ := (insertMessage_eq_ok o).mp h
    exact .inl ⟨_, _, hr, rfl⟩
  next e t h =>
    refine .inr ⟨?_, ?_⟩
    · intro cid publisher hr
      cases h.symm.trans ((insertMessage_eq_ok o).mpr ⟨hr, rfl⟩)
    · rw [insertMessage_error o h]
      split
      · exact ⟨_, .inl rfl, rfl⟩
      · exact ⟨_, .inr ⟨e, rfl⟩, rfl⟩

theorem ingestMessage_cases (w : Surroundings) (obj : Value) (s : Conn) :
    Ingested o w obj s (ingestMessage o w obj s) := by
  rw [ingestMessage, Txn.read_bind, Txn.lift_bind]
  cases ha : accept o s.view obj with
  | error e =>
    refine .refused (fun m hm => ?_) (by simp)
    cases ha.symm.trans ((accept_eq_some o).mpr hm)
  | ok a =>
    cases a with
    | none =>
      refine .refused (fun m hm => ?_) (by simp)
      cases ha.symm.trans ((accept_eq_some o).mpr hm)
    | some m =>
      have hm := (accept_eq_some o).mp ha
      obtain ⟨cid, publisher, hr, hi⟩ | ⟨hr, r, hres, hi⟩ := trying_insertMessage o m w.receivedAt s
      · simp only [Txn.bind_ok hi]
        rw [Txn.bind_run]
        split
        next u he =>
          obtain ⟨t, ht, rfl⟩ := (effect_eq_ok o hm.known).mp he
          have h := Ingested.done hm hr ht
          rw [reviewed] at h
          rw [Txn.commit_bind]
          split at h
          next hk =>
            rw [if_pos hk, Txn.lift_bind]
            cases hw : w.review with
            | error e =>
              rw [hw] at h
              exact h
            | ok _ =>
              rw [hw] at h
              exact h
          next hk =>
            rw [if_neg hk]
            exact h
        next e u he =>
          obtain ⟨v, hv⟩ := effect_stays o w m cid publisher obj s.committed
            (withMessage (m.row cid publisher w.receivedAt) s.view)
          have hu : u = s.opened v := by
            rw [Session.opened] at he
            rw [he] at hv
            exact hv
          rw [hu]
          refine .broken hm hr ?_
          intro t ht
          cases he.symm.trans ((effect_eq_ok o hm.known).mpr ⟨t, ht, rfl⟩)
      · obtain rfl | ⟨e, rfl⟩ := hres
        · simp only [Txn.bind_ok hi]
          exact .rejected hm hr (by simp)
        · simp only [Txn.bind_error hi]
          exact .rejected hm hr (by simp)

end ObserverClub.Store
