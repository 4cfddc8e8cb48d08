import ObserverClub.CanonForms
import ObserverClub.IngestSteps

/-!
A call of `ingest_message` seen as a transaction.
-/

namespace ObserverClub.Store

open Library Python Sqlite Catalog

section Digestible

variable (o : Observer)

structure Describable (obj : Value) (now : ℚ) : Prop where
  field : ∃ f, normalizeField o (item obj "field") = .ok f ∧ Binds (.str f)
  time : ∃ x, timeOr (item obj "indexed_at") now = .ok x
  columns : ∀ key ∈ columns, Binds (item obj key)
  classifier : ∃ t, classifierText o obj = .ok t ∧ Binds (.str t)

theorem describable_iff {obj : Value} {now : ℚ} : Describable o obj now ↔
    (∃ d, describe o obj now = .ok d) ∧
      ∃ c, (classifierText o obj >>= fun t => bindText o (.str t)) = .ok c := by
  simp only [describe, bind_eq_ok, bindText_str]
  constructor
  · rintro ⟨⟨f, hf, hs⟩, ⟨x, hx⟩, hc, t, ht, hb⟩
    obtain ⟨d, hd⟩ := (bindDescription_isOk o obj f x).mpr ⟨hs, hc⟩
    exact ⟨⟨d, f, hf, x, hx, hd⟩, _, t, ht, hb, rfl⟩
  · rintro ⟨⟨d, f, hf, x, hx, hd⟩, c, t, ht, hb, -⟩
    obtain ⟨hs, hc⟩ := (bindDescription_isOk o obj f x).mp ⟨d, hd⟩
    exact ⟨⟨f, hf, hs⟩, ⟨x, hx⟩, hc, t, ht, hb⟩

structure Digestible (w : Surroundings) (kind : Text) (obj : Value) : Prop where
  classified : kind = txt "classify" → Describable o obj w.receivedAt
  aliased : kind = txt "alias" → ∃ name, aliasName o obj = .ok name ∧ Binds (.str (name.take 32))
  skipped : kind = txt "skip" → Binds (item obj "mime_type") ∧ Binds (item obj "reason")
  claimed : kind = txt "claim" → ∃ x, float (either (item obj "until") (.num (.int 0))) = .ok x

theorem digestible_iff {w : Surroundings} {m : Accepted} {cid publisher : Text} {obj : Value} {v : Tables}
    (hk : m.kind ∈ kinds) :
    Digestible o w m.kind obj ↔ ∃ t, Effect o w m cid publisher obj v t := by
  constructor
  · intro h
    rcases kinds_cases hk with hk | hk | hk | hk | hk
    · obtain ⟨x, hx⟩ := h.claimed hk
      exact ⟨_, .claimed hk hx⟩
    · obtain ⟨hm, hr⟩ := h.skipped hk
      obtain ⟨_, hm⟩ := (bindText_isOk o _).mpr hm
      obtain ⟨_, hr⟩ := (bindText_isOk o _).mpr hr
      exact ⟨_, .skipped hk hm hr⟩
    · obtain ⟨⟨d, hd⟩, c, hc⟩ := (describable_iff o).mp (h.classified hk)
      exact ⟨_, .classified hk hd hc⟩
    · obtain ⟨name, hn, hs⟩ := h.aliased hk
      exact ⟨_, .aliased hk hn hs⟩
    · exact ⟨_, .reported hk⟩
  · rintro ⟨t, h⟩
    constructor
    · intro hk
      obtain ⟨d, c, hd, hc, -⟩ := h.of_classify hk
      exact (describable_iff o).mpr ⟨⟨d, hd⟩, c, hc⟩
    · intro hk
      obtain ⟨name, hn, hs, -⟩ := h.of_alias hk
      exact ⟨name, hn, hs⟩
    · intro hk
      obtain ⟨mt, r, hm, hr, -⟩ := h.of_skip hk
      exact ⟨(bindText_isOk o _).mp ⟨_, hm⟩, (bindText_isOk o _).mp ⟨_, hr⟩⟩
    · intro hk
      obtain ⟨x, hx, -⟩ := h.of_claim hk
      exact ⟨x, hx⟩

end Digestible

section Recorded

variable (o : Observer)

/-- A payload's row of `messages`, and what its kind is for, in the tables that a call has left. -/
structure Recorded (w : Surroundings) (obj : Value) (old new : Tables) (hash cid publisher : Text) : Prop where
  hashed : payloadHash o obj = .ok hash
  identified : bindText o (either (item obj "cid") (.str [])) = .ok (some cid)
  published : bindText o (item obj "publisher") = .ok (some publisher)
  row : ∃ r ∈ new.messages, r.payloadHash = hash ∧ item obj "kind" = .str r.kind ∧ r.cid = cid ∧
    r.publisher = publisher ∧ r.receivedAt = w.receivedAt
  vote : item obj "kind" = .str (txt "classify") → ∃ c ∈ new.classifies, c.payloadHash = hash ∧
    (c ∈ old.classifies ∨ c.cid = cid ∧ c.publisher = publisher ∧ describe o obj w.receivedAt = .ok c.description)
  doc : item obj "kind" = .str (txt "classify") → ∃ d ∈ new.docs, d.cid = cid ∧
    (d ∈ old.docs ∨ d.publisher = publisher ∧ describe o obj w.receivedAt = .ok d.description)
  aliased : item obj "kind" = .str (txt "alias") → ∃ name, aliasName o obj = .ok name ∧
    Table.row? Alias.publisher publisher new.aliases =
      if name = [] then none else some ⟨publisher, name.take 32, hash, w.receivedAt⟩
  skipped : item obj "kind" = .str (txt "skip") → ∃ s, Table.row? Skip.cid cid new.skips = some s ∧
    s.publisher = publisher ∧ bindText o (item obj "reason") = .ok s.reason
  claimed : item obj "kind" = .str (txt "claim") → ∃ x, float (either (item obj "until") (.num (.int 0))) = .ok x ∧
    (after x w.now = true → ⟨publisher, cid, x⟩ ∈ new.claims ∨ otherLease cid publisher w.now' new = true)
  reported : item obj "kind" = .str (txt "report") → Table.row? Report.key (cid, publisher) new.reports =
    if textOf (item obj "reason") = txt "clear" then none
    else some ⟨cid, publisher, textOf (item obj "reason"), w.receivedAt⟩

theorem Effect.messages {w : Surroundings} {m : Accepted} {cid publisher : Text} {obj : Value} {v t : Tables}
    (h : Effect o w m cid publisher obj v t) : t.messages = v.messages := by
  cases h with
  | classified _ _ _ =>
    obtain ⟨fts, settings, he⟩ := withDoc_eq cid publisher _ w.receivedAt (dropClaims cid (withClassify _ v))
    rw [he]
    rfl
  | aliased _ _ _ =>
    rw [withAlias]
    split <;> rfl
  | skipped _ _ _ => rfl
  | claimed _ _ =>
    rw [withClaim]
    split <;> rfl
  | reported _ =>
    rw [withReport]
    split <;> rfl

theorem mem_withDoc (cid publisher : Text) (d : Description) (now : ℚ) (t : Tables) :
    ∃ r ∈ (withDoc cid publisher d now t).docs, r.cid = cid ∧
      (r ∈ t.docs ∨ r.publisher = publisher ∧ r.description = d) := by
  obtain ⟨fts, settings, he⟩ := withDoc_eq cid publisher d now t
  rw [he]
  by_cases h : ∃ r ∈ t.docs, r.cid = cid
  · obtain ⟨r, hr, hc⟩ := h
    refine ⟨r, ?_, hc, .inl hr⟩
    rw [Table.putNew_of_mem hr hc]
    exact hr
  · refine ⟨⟨nextRowid t.docs, cid, publisher, d, now⟩, ?_, rfl, .inr ⟨rfl, rfl⟩⟩
    rw [Table.putNew_of_forall_ne (by simpa using h)]
    simp

theorem recorded_of_effect {w : Surroundings} {m : Accepted} {cid publisher : Text} {obj : Value} {old new : Tables}
    (hm : Acceptable o old obj m) (hr : Recordable o old m cid publisher)
    (he : Effect o w m cid publisher obj (withMessage (m.row cid publisher w.receivedAt) old) new) :
    Recorded o w obj old new m.payloadHash cid publisher := by
  have hk : ∀ {k : Text}, item obj "kind" = .str k → m.kind = k := by
    intro k h
    simpa using hm.kind.symm.trans h
  constructor
  · exact hm.hash
  · rw [← hm.cid]
    exact hr.cid
  · rw [← hm.publisher]
    exact hr.publisher
  · refine ⟨m.row cid publisher w.receivedAt, ?_, rfl, hm.kind, rfl, rfl, rfl⟩
    rw [he.messages]
    simp [withMessage]
  · intro h
    obtain ⟨d, c, hd, -, rfl⟩ := he.of_classify (hk h)
    obtain ⟨fts, settings, hdoc⟩ := withDoc_eq cid publisher d w.receivedAt (dropClaims cid (withClassify
      ⟨m.payloadHash, cid, publisher, d, c, w.receivedAt⟩ (withMessage (m.row cid publisher w.receivedAt) old)))
    rw [hdoc]
    by_cases hold : ∃ r ∈ old.classifies, r.payloadHash = m.payloadHash
    · obtain ⟨r, hr, hh⟩ := hold
      refine ⟨r, ?_, hh, .inl hr⟩
      change r ∈ Table.putNew Classify.payloadHash _ old.classifies
      rw [Table.putNew_of_mem hr hh]
      exact hr
    · refine ⟨⟨m.payloadHash, cid, publisher, d, c, w.receivedAt⟩, ?_, rfl, .inr ⟨rfl, rfl, hd⟩⟩
      change _ ∈ Table.putNew Classify.payloadHash _ old.classifies
      rw [Table.putNew_of_forall_ne (by simpa using hold)]
      simp
  · intro h
    obtain ⟨d, c, hd, -, rfl⟩ := he.of_classify (hk h)
    obtain ⟨r, hr, hc, hfrom⟩ := mem_withDoc cid publisher d w.receivedAt (dropClaims cid (withClassify
      ⟨m.payloadHash, cid, publisher, d, c, w.receivedAt⟩ (withMessage (m.row cid publisher w.receivedAt) old)))
    refine ⟨r, hr, hc, ?_⟩
    obtain hfrom | ⟨hp, hdes⟩ := hfrom
    · exact .inl hfrom
    · exact .inr ⟨hp, by rw [hdes, hd]⟩
  · intro h
    obtain ⟨name, hn, -, rfl⟩ := he.of_alias (hk h)
    refine ⟨name, hn, ?_⟩
    rw [withAlias]
    split
    next => simp [Table.row?_delete]
    next => simp [Table.row?_put]
  · intro h
    obtain ⟨mt, r, -, hrs, rfl⟩ := he.of_skip (hk h)
    refine ⟨⟨cid, publisher, mt, r, w.receivedAt⟩, ?_, rfl, hrs⟩
    exact (Table.row?_put _ _ _).trans (if_pos rfl)
  · intro h
    obtain ⟨x, hx, rfl⟩ := he.of_claim (hk h)
    refine ⟨x, hx, ?_⟩
    intro ha
    rw [withClaim, ha]
    cases hl : otherLease cid publisher w.now' (withMessage (m.row cid publisher w.receivedAt) old) with
    | false => exact .inl (Table.mem_put.mpr (.inr rfl))
    | true => exact .inr hl
  · intro h
    rw [he.of_report (hk h), withReport]
    split
    next => simp [Table.row?_delete]
    next => simp [Table.row?_put, Report.key]

end Recorded

section Claim

variable (o : Observer)

/-- The catalog is left as it was, or with the message recorded, and nothing is left open. -/
def Transactional (w : Surroundings) (obj : Value) (c : Tables) : Prop :=
  (ingestMessage o w obj ⟨c, none⟩).2.Idle ∧
    ((ingestMessage o w obj ⟨c, none⟩).1 = .ok true ∧
        (∃ hash cid publisher, Recorded o w obj c (ingestMessage o w obj ⟨c, none⟩).2.committed hash cid publisher) ∨
      (ingestMessage o w obj ⟨c, none⟩).1 ≠ .ok true ∧ (ingestMessage o w obj ⟨c, none⟩).2.committed = c)

/-- Whatever the checks let pass is new, fits its columns, and asks for no review that fails. -/
def Clean (w : Surroundings) (obj : Value) (c : Tables) : Prop :=
  ∀ m, Acceptable o c obj m → (∃ cid publisher, Recordable o c m cid publisher) ∧ Digestible o w m.kind obj ∧
    (asksReview m obj = true → w.review = .ok ())

theorem transactional_iff_clean (w : Surroundings) (obj : Value) (c : Tables) :
    Transactional o w obj c ↔ Clean o w obj c := by
  have hcases := ingestMessage_cases o w obj ⟨c, none⟩
  have hunique : ∀ {m m'}, Acceptable o c obj m → Acceptable o c obj m' → m = m' := by
    intro m m' h h'
    simpa using ((accept_eq_some o).mpr h).symm.trans ((accept_eq_some o).mpr h')
  rw [Transactional]
  generalize ingestMessage o w obj ⟨c, none⟩ = out at hcases
  cases hcases with
  | refused refusal failure =>
    constructor
    · intro _ m hm
      exact absurd hm (refusal m)
    · intro _
      exact ⟨rfl, .inr ⟨failure, rfl⟩⟩
  | rejected accepted rejection failure =>
    constructor
    · rintro ⟨hidle, -⟩
      exact absurd hidle (Session.not_idle_opened _ _)
    · intro h
      obtain ⟨⟨cid, publisher, hr⟩, -⟩ := h _ accepted
      exact absurd hr (rejection cid publisher)
  | broken accepted recorded breakage =>
    constructor
    · rintro ⟨hidle, -⟩
      exact absurd hidle (Session.not_idle_opened _ _)
    · intro h
      obtain ⟨-, hd, -⟩ := h _ accepted
      obtain ⟨t, ht⟩ := (digestible_iff o accepted.known).mp hd
      exact absurd ht (breakage t)
  | @done m cid publisher t accepted recorded effect =>
    constructor
    · rintro ⟨-, ⟨hok, -⟩ | ⟨-, hsame⟩⟩ m' hm'
      · obtain rfl := hunique accepted hm'
        refine ⟨⟨cid, publisher, recorded⟩, (digestible_iff o accepted.known).mpr ⟨t, effect⟩, ?_⟩
        intro ha
        rw [reviewed, if_pos ha] at hok
        cases hrev : w.review with
        | error e =>
          rw [hrev] at hok
          cases hok
        | ok _ => rfl
      · have := congrArg (fun t => t.messages.length) hsame
        simp [effect.messages, withMessage] at this
    · intro h
      obtain ⟨-, -, hrev⟩ := h _ accepted
      refine ⟨rfl, .inl ⟨?_, _, _, _, recorded_of_effect o accepted recorded effect⟩⟩
      rw [reviewed]
      split
      next ha =>
        rw [hrev ha]
        rfl
      next => rfl

end Claim

section Sample

def sampleObserver : Observer where
  py := Canon.samplePython
  lower := fun t => t.map lowerAscii
  upper := fun t => t.map fun c => if 97 ≤ c ∧ c ≤ 122 then c - 32 else c
  sha256 := fun s => List.replicate 32 (s.foldl (fun a b => 31 * a + b) 7)
  realText := fun x => x.repr
  numericText := .text
  clubID := txt "academic"
  fields := [txt "physics", txt "other"]
  fieldAliases := []
  skipTtlSeconds := 21600

def sampleSurroundings : Surroundings := ⟨1000, 1000, 1000, .ok ()⟩

def classifyObject (indexedAt : Value) : Value :=
  .obj [(txt "kind", .str (txt "classify")), (txt "cid", .str (txt "f0155000100")),
    (txt "publisher", .str (txt "12D3KooWPeer")), (txt "indexed_at", indexedAt)]

/-- A classify whose time is no number raises with its row of `messages` pending, and a classify that is
sent twice is refused the second time with a transaction open. -/
theorem not_transactional : ¬Transactional sampleObserver sampleSurroundings (classifyObject (.str (txt "soon"))) empty ∧
    ¬Transactional sampleObserver sampleSurroundings (classifyObject (.num (.int 5)))
      (ingestMessage sampleObserver sampleSurroundings (classifyObject (.num (.int 5))) ⟨empty, none⟩).2.committed := by
  constructor
  · intro h
    have hp : (ingestMessage sampleObserver sampleSurroundings (classifyObject (.str (txt "soon")))
        ⟨empty, none⟩).2.pending.any (fun t => t.messages.length = 1 && t.classifies = []) = true := by decide +kernel
    rw [h.1] at hp
    cases hp
  · intro h
    have hp : (ingestMessage sampleObserver sampleSurroundings (classifyObject (.num (.int 5)))
        ⟨(ingestMessage sampleObserver sampleSurroundings (classifyObject (.num (.int 5))) ⟨empty, none⟩).2.committed,
          none⟩).2.pending.isSome = true := by decide +kernel
    rw [h.1] at hp
    cases hp

end Sample

end ObserverClub.Store
