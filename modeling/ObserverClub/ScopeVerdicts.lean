import Mathlib.Data.Finset.Dedup
import Mathlib.Data.Finset.Order
import ObserverClub.CatalogRuns
import ObserverClub.Events
import ObserverClub.FirstSeen
import ObserverClub.Snapshot

namespace ObserverClub.Store

open Library Python Sqlite Catalog

section Failing

variable (o : Observer)

theorem insertClassify_unspoilt (hash cid publisher : Text) (obj : Value) (now : ℚ) :
    (insertClassify o hash cid publisher obj now).Unspoilt := by
  apply Txn.Unspoilt.lift_bind
  intro field hf
  apply Txn.Unspoilt.lift_bind
  intro classifier _
  apply Txn.Unspoilt.lift_bind
  intro x hx
  apply Txn.Unspoilt.attempt_bind
  intro v _ w hg c
  obtain ⟨d, hd, -⟩ := bind_eq_ok.mp hg
  have hdescribe : describe o obj now = .ok d := by
    rw [describe, hf, hx]
    exact hd
  refine ⟨(), ?_⟩
  rw [Txn.write_bind]
  exact congrArg Prod.fst ((upsertDoc_eq_ok o).mpr ⟨d, hdescribe, rfl⟩)

theorem effect_unspoilt (w : Surroundings) (m : Accepted) (cid publisher : Text) (obj : Value) :
    (effect o w m cid publisher obj).Unspoilt := by
  apply Txn.Unspoilt.ite (insertClassify_unspoilt o _ _ _ _ _)
  apply Txn.Unspoilt.ite
  · apply Txn.Unspoilt.lift_bind
    intro name _
    exact .ite (.of_ok fun _ => ⟨(), rfl⟩) (.attempt _)
  apply Txn.Unspoilt.ite
  · apply Txn.Unspoilt.attempt_bind
    intro v _ w _ c
    exact ⟨(), rfl⟩
  apply Txn.Unspoilt.ite
  · apply Txn.Unspoilt.lift_bind
    intro x _
    apply Txn.Unspoilt.of_ok
    intro s
    split_ifs
    · rw [Txn.read_bind]
      split_ifs <;> exact ⟨(), rfl⟩
    · exact ⟨(), rfl⟩
  · exact .ite (.of_ok fun _ => ⟨(), rfl⟩) (.of_ok fun _ => ⟨(), rfl⟩)

/-- A message that cannot be read leaves its row of `messages` at most. -/
theorem ingestMessage_unread {w : Surroundings} {obj : Value} {s : Conn}
    (h : ∀ e, read o s.view w obj ≠ .ok (some e)) :
    (ingestMessage o w obj s).2.view = s.view ∨ ∃ m cid publisher, Acceptable o s.view obj m ∧
      (ingestMessage o w obj s).2.view = withMessage (m.row cid publisher w.receivedAt) s.view := by
  rw [ingestMessage, Txn.read_bind, Txn.lift_bind]
  cases ha : accept o s.view obj with
  | error e => exact .inl rfl
  | ok a =>
    cases a with
    | none => exact .inl rfl
    | some m =>
      have hm := (accept_eq_some o).mp ha
      obtain ⟨cid, publisher, hr, hi⟩ | ⟨hr, r, hres, hi⟩ := trying_insertMessage o m w.receivedAt s
      · simp only [Txn.bind_ok hi]
        rw [Txn.bind_run]
        split
        next u he =>
          obtain ⟨t, ht, -⟩ := (effect_eq_ok o hm.known).mp he
          obtain ⟨deed, hd, -⟩ := (effect_iff_deedOf o hm.known).mp ht
          apply absurd _ (h ⟨m.kind, m.payloadHash, cid, publisher, m.body, deed⟩)
          exact (read_eq_some o).mpr ⟨m, hm, hr.cid, hr.publisher, hr.body, hd, rfl, rfl, rfl⟩
        next e u he =>
          obtain rfl := effect_unspoilt o w m cid publisher obj _ _ _ _ he
          exact .inr ⟨m, cid, publisher, hm, rfl⟩
      · obtain rfl | ⟨e, rfl⟩ := hres
        · simp only [Txn.bind_ok hi]
          exact .inl rfl
        · simp only [Txn.bind_error hi]
          exact .inl rfl

end Failing

section Verdicts

variable (o : Observer)

/-- The CID and the reason of the skip that a call takes in. -/
def skipTaken (s : Conn) : Call → Option (Text × Option Text)
  | .ingest w obj =>
    match read o s.view w obj with
    | .ok (some e) =>
      if e.payloadHash ∈ s.view.messages.map Message.payloadHash then none
      else
        match e.deed with
        | .skip _ reason => some (e.cid, reason)
        | _ => none
    | _ => none
  | _ => none

/-- The calls that neither shut a publisher out nor purge. -/
def Call.plain : Call → Bool
  | .ingest _ _ => true
  | .expire _ _ => true
  | _ => false

/-- The readings of the clock in a call. -/
def Call.readings : Call → List ℚ
  | .ingest w _ => [w.receivedAt, w.now, w.now']
  | .expire now now' => [now, now']
  | _ => []

/-- The call takes in a skip for the CID that can expire, and no classify stands before it. -/
def Overrules (cid : Text) (s : Conn) (c : Call) : Prop :=
  0 < o.skipTtlSeconds ∧ (preferredClassify s.view cid).isNone = true ∧
    (skipTaken o s c).any (fun p => p.1 = cid && decide (orEmpty p.2 ∉ persistSkipReasons)) = true

instance (cid : Text) (s : Conn) (c : Call) : Decidable (Overrules o cid s c) :=
  inferInstanceAs (Decidable (_ ∧ _ ∧ _))

def Standing (cid : Text) (t : Tables) : Prop :=
  (preferredClassify t cid).isSome = true ∨
    ∃ row, Table.row? Skip.cid cid t.skips = some row ∧
      (o.skipTtlSeconds ≤ 0 ∨ orEmpty row.reason ∈ persistSkipReasons)

variable {o} {cid : Text} {s : Conn} {t : Tables}

theorem overrules_iff {c : Call} : Overrules o cid s c ↔ 0 < o.skipTtlSeconds ∧ (preferredClassify s.view cid).isNone = true ∧
    ∃ reason, skipTaken o s c = some (cid, reason) ∧ orEmpty reason ∉ persistSkipReasons := by
  unfold Overrules
  cases skipTaken o s c with
  | none => simp
  | some p =>
    obtain ⟨cid', reason⟩ := p
    rw [Option.any_some, Bool.and_eq_true, decide_eq_true_eq, decide_eq_true_eq]
    constructor
    · rintro ⟨httl, hnone, rfl, hreason⟩
      exact ⟨httl, hnone, reason, rfl, hreason⟩
    · rintro ⟨httl, hnone, _, h, hreason⟩
      cases h
      exact ⟨httl, hnone, rfl, hreason⟩

theorem lookup_of_standing (h : Standing o cid t) (me : Text) (now now' : ℚ) : lookupCid o me now now' t cid ≠ none := by
  unfold lookupCid
  obtain h | ⟨row, hrow, hlive⟩ := h
  · obtain ⟨p, hp⟩ := Option.isSome_iff_exists.mp h
    rw [hp]
    exact Option.some_ne_none _
  · split
    · exact Option.some_ne_none _
    · split
      · exact Option.some_ne_none _
      · have : skipIsLive o now' row = true := by
          unfold skipIsLive
          simp only [Bool.or_eq_true, decide_eq_true_eq]
          tauto
        rw [hrow, Option.filter_some, if_pos this]
        exact Option.some_ne_none _

theorem expire_view (o : Observer) (now now' : ℚ) (s : Conn) :
    (step o s (.expire now now')).view = expired o now now' s.view := by
  have hstep : (step o s (.expire now now')).view = (expireClaims o now now' s).2.view := rfl
  rw [hstep, expireClaims, expired, Txn.write_bind]
  split_ifs <;> rfl

theorem discard_snd {α : Type} (x : Db α) (s : Conn) : (discard x s).2 = (x s).2 := by
  unfold discard
  rw [Txn.bind_run]
  split
  next h => rw [h, Txn.pure_run]
  next h => rw [h]

/-- An ingested message is taken in as its event, or leaves its row of `messages` at most. -/
theorem ingest_cases (w : Surroundings) (obj : Value) :
    (∃ e, read o s.view w obj = .ok (some e) ∧ e.payloadHash ∉ s.view.messages.map Message.payloadHash ∧
      (step o s (.ingest w obj)).view = e.effect w (withMessage (e.message w) s.view)) ∨
    skipTaken o s (.ingest w obj) = none ∧ ((step o s (.ingest w obj)).view = s.view ∨
      ∃ m cid publisher, Acceptable o s.view obj m ∧
        (step o s (.ingest w obj)).view = withMessage (m.row cid publisher w.receivedAt) s.view) := by
  have hstep : (step o s (.ingest w obj)).view = (ingestMessage o w obj s).2.view :=
    congrArg Session.view (discard_snd _ _)
  rw [hstep]
  by_cases hread : ∃ e, read o s.view w obj = .ok (some e)
  · obtain ⟨e, he⟩ := hread
    rw [ingestMessage_of_read o he, Event.take]
    split_ifs with hold
    · right
      constructor
      · simp only [skipTaken, he]
        exact if_pos hold
      · exact .inl rfl
    · exact .inl ⟨e, he, hold, rfl⟩
  · right
    constructor
    · simp only [skipTaken]
      split
      next e he => exact absurd ⟨e, he⟩ hread
      next => rfl
    · exact ingestMessage_unread o fun e he => hread ⟨e, he⟩

theorem skipTaken_of_read {w : Surroundings} {obj : Value} {e : Event} (he : read o s.view w obj = .ok (some e))
    (hnew : e.payloadHash ∉ s.view.messages.map Message.payloadHash) :
    (∃ mimeType reason, e.deed = .skip mimeType reason ∧ skipTaken o s (.ingest w obj) = some (e.cid, reason)) ∨
      (∀ mimeType reason, e.deed ≠ .skip mimeType reason) ∧ skipTaken o s (.ingest w obj) = none := by
  simp only [skipTaken, he, if_neg hnew]
  cases hd : e.deed with
  | skip mimeType reason => exact .inl ⟨mimeType, reason, rfl, rfl⟩
  | _ => exact .inr ⟨fun _ _ => nofun, rfl⟩

theorem preferred_isSome : (preferredClassify t cid).isSome = true ↔
    (∃ d ∈ t.docs, d.cid = cid) ∨ ∃ c ∈ t.classifies, c.cid = cid := by
  unfold preferredClassify
  cases hd : Table.row? Doc.cid cid t.docs with
  | some d => exact iff_of_true rfl (.inl ⟨d, Table.row?_some hd⟩)
  | none =>
    have hnone : ¬∃ d ∈ t.docs, d.cid = cid := by
      rintro ⟨d, hmem, hcid⟩
      exact Table.row?_eq_none.mp hd d hmem hcid
    rw [or_iff_right hnone, Option.isSome_map, Option.isSome_iff_ne_none, Ne, earliest_eq_none, classifiesOf]
    simp

theorem preferred_effect (e : Event) (w : Surroundings) (h : (preferredClassify t cid).isSome = true) :
    (preferredClassify (e.effect w t) cid).isSome = true := by
  rw [preferred_isSome] at h ⊢
  unfold Event.effect
  cases e.deed with
  | classify d classifier =>
    obtain ⟨fts, settings, hdoc⟩ := withDoc_eq e.cid e.publisher d w.receivedAt
      (dropClaims e.cid (withClassify (e.classified d classifier w) t))
    dsimp only
    rw [hdoc]
    exact h.imp (fun ⟨r, hr, hc⟩ => ⟨r, Table.mem_putNew_of_mem hr, hc⟩)
      (fun ⟨r, hr, hc⟩ => ⟨r, Table.mem_putNew_of_mem hr, hc⟩)
  | rename name =>
    dsimp only [withAlias]
    split_ifs <;> exact h
  | skip mimeType reason => exact h
  | claim x =>
    dsimp only [withClaim]
    split_ifs <;> exact h
  | report reason =>
    dsimp only [withReport]
    split_ifs <;> exact h

theorem skips_effect {e : Event} (w : Surroundings) (h : ∀ mimeType reason, e.deed ≠ .skip mimeType reason) :
    (e.effect w t).skips = t.skips := by
  unfold Event.effect
  cases hd : e.deed with
  | classify d classifier =>
    obtain ⟨fts, settings, hdoc⟩ := withDoc_eq e.cid e.publisher d w.receivedAt
      (dropClaims e.cid (withClassify (e.classified d classifier w) t))
    dsimp only
    rw [hdoc]
    rfl
  | rename name =>
    dsimp only [withAlias]
    split_ifs <;> rfl
  | skip mimeType reason => exact absurd hd (h mimeType reason)
  | claim x =>
    dsimp only [withClaim]
    split_ifs <;> rfl
  | report reason =>
    dsimp only [withReport]
    split_ifs <;> rfl

theorem preferred_step {c : Call} (hc : c.plain = true) (h : (preferredClassify s.view cid).isSome = true) :
    (preferredClassify (step o s c).view cid).isSome = true := by
  cases c with
  | ingest w obj =>
    obtain ⟨e, -, -, hview⟩ | ⟨-, hview | ⟨m, cid', publisher, -, hview⟩⟩ := ingest_cases (o := o) (s := s) w obj
    · rw [hview]
      exact preferred_effect e w h
    · rw [hview]
      exact h
    · rw [hview]
      exact h
  | expire now now' =>
    rw [show (step o s (.expire now now')).view = expired o now now' s.view from expire_view o now now' s]
    exact h
  | _ => cases hc

theorem step_of_skipTaken {c : Call} {reason : Option Text} (h : skipTaken o s c = some (cid, reason)) :
    (preferredClassify (step o s c).view cid) = preferredClassify s.view cid ∧
      (∀ r ∈ (step o s c).view.claims, r.cid ≠ cid) ∧
      ∃ row, Table.row? Skip.cid cid (step o s c).view.skips = some row ∧ row.reason = reason := by
  cases c with
  | ingest w obj =>
    obtain ⟨e, he, hnew, hview⟩ | ⟨hnone, -⟩ := ingest_cases (o := o) (s := s) w obj
    · obtain ⟨mimeType, reason', hdeed, hskip⟩ | ⟨-, hskip⟩ := skipTaken_of_read he hnew
      · cases hskip.symm.trans h
        rw [hview, Event.effect, hdeed]
        refine ⟨rfl, ?_, _, (Table.row?_put _ _ _).trans (if_pos rfl), rfl⟩
        intro r hr
        simpa using (List.mem_filter.mp hr).2
      · cases hskip.symm.trans h
    · cases hnone.symm.trans h
  | _ => cases h

theorem row?_step {c : Call} (hc : c.plain = true) (h : ∀ reason, skipTaken o s c ≠ some (cid, reason)) {row : Skip}
    (hrow : Table.row? Skip.cid cid s.view.skips = some row)
    (hkept : o.skipTtlSeconds ≤ 0 ∨ orEmpty row.reason ∈ persistSkipReasons) :
    Table.row? Skip.cid cid (step o s c).view.skips = some row := by
  cases c with
  | ingest w obj =>
    obtain ⟨e, he, hnew, hview⟩ | ⟨-, hview | ⟨m, cid', publisher, -, hview⟩⟩ := ingest_cases (o := o) (s := s) w obj
    · obtain ⟨mimeType, reason, hdeed, hskip⟩ | ⟨hdeed, -⟩ := skipTaken_of_read he hnew
      · have hne : cid ≠ e.cid := by
          rintro rfl
          exact h reason hskip
        rw [hview, Event.effect, hdeed]
        exact (Table.row?_put _ _ _).trans ((if_neg hne).trans hrow)
      · rw [hview, skips_effect w hdeed]
        exact hrow
    · rw [hview]
      exact hrow
    · rw [hview]
      exact hrow
  | expire now now' =>
    rw [expire_view, expired]
    dsimp only
    split_ifs with httl
    · have hpersist := hkept.resolve_left (by omega)
      exact Table.row?_filter hrow (by simp [hpersist])
    · exact hrow
  | _ => cases hc

theorem standing_step_iff {c : Call} (hc : c.plain = true) (h : Standing o cid s.view) :
    Standing o cid (step o s c).view ↔ ¬Overrules o cid s c := by
  rw [overrules_iff]
  by_cases htaken : ∃ reason, skipTaken o s c = some (cid, reason)
  · obtain ⟨reason, htaken⟩ := htaken
    obtain ⟨hsame, -, row, hrow, hreason⟩ := step_of_skipTaken htaken
    rw [Standing, hsame, hrow]
    constructor
    · rintro (hsome | ⟨_, hrow', hkept⟩) ⟨httl, hnone, _, htaken', hlapses⟩
      · rw [Option.isNone_iff_eq_none.mp hnone] at hsome
        cases hsome
      · cases hrow'
        cases htaken.symm.trans htaken'
        rw [hreason] at hkept
        exact hkept.elim (fun hle => absurd httl (by omega)) hlapses
    · intro hnot
      by_cases hsome : (preferredClassify s.view cid).isSome = true
      · exact .inl hsome
      · right
        refine ⟨row, rfl, ?_⟩
        rw [hreason]
        by_contra hkept
        rw [not_or] at hkept
        exact hnot ⟨by omega, by simpa using hsome, reason, htaken, hkept.2⟩
  · rw [not_exists] at htaken
    apply iff_of_true
    · obtain hsome | ⟨row, hrow, hkept⟩ := h
      · exact .inl (preferred_step hc hsome)
      · exact .inr ⟨row, row?_step hc htaken hrow hkept, hkept⟩
    · rintro ⟨-, -, reason, hskip, -⟩
      exact htaken reason hskip

theorem lookup_of_overrules {c : Call} (h : Overrules o cid s c) :
    ∃ expiry : ℚ, ∀ me now now', expiry ≤ now' → lookupCid o me now now' (step o s c).view cid = none := by
  obtain ⟨httl, hnone, reason, htaken, hlapses⟩ := overrules_iff.mp h
  obtain ⟨hsame, hclaims, row, hrow, hreason⟩ := step_of_skipTaken htaken
  refine ⟨row.receivedAt + o.skipTtlSeconds, ?_⟩
  intro me now now' hlate
  have hfind : foreignClaim me now (step o s c).view cid = none := by
    rw [foreignClaim_eq_none]
    intro r hr
    rw [isForeign, decide_eq_false (hclaims r hr)]
    rfl
  have hdead : skipIsLive o now' row = false := by
    unfold skipIsLive
    rw [hreason]
    simp only [Bool.or_eq_false_iff, decide_eq_false_iff_not]
    exact ⟨⟨hlapses, by omega⟩, not_lt.mpr hlate⟩
  unfold lookupCid
  rw [hsame, Option.isNone_iff_eq_none.mp hnone, hfind, hrow, Option.filter_some, hdead]
  rfl

theorem standing_of_verdict {c : Call} {reason : Text} (hreason : reason ∈ scopeReasons)
    (h : skipTaken o s c = some (cid, some reason)) : Standing o cid (step o s c).view := by
  obtain ⟨-, -, row, hrow, hr⟩ := step_of_skipTaken h
  refine .inr ⟨row, hrow, .inr ?_⟩
  rw [hr]
  have hscope : ∀ r ∈ scopeReasons, orEmpty (some r) ∈ persistSkipReasons := by decide
  exact hscope reason hreason

theorem exists_late (times : List ℚ) (expiry : ℚ) : ∃ now, (∀ x ∈ times, x ≤ now) ∧ expiry ≤ now := by
  obtain ⟨now, hnow⟩ := (expiry :: times).toFinset.exists_le
  exact ⟨now, fun x hx => hnow x (by simp [hx]), hnow expiry (by simp)⟩

/-- The CID is looked up as settled at every time past those given and those of the calls. -/
def Found (o : Observer) (cid : Text) (s : Conn) (times : List ℚ) (calls : List Call) : Prop :=
  ∀ me now now', (∀ x ∈ times ++ calls.flatMap Call.readings, x ≤ now) → now ≤ now' →
    lookupCid o me now now' (run (step o) s calls).view cid ≠ none

theorem not_overrules_of_found {c : Call} {times : List ℚ} (h : Found o cid s times [c]) : ¬Overrules o cid s c := by
  intro hover
  obtain ⟨expiry, hgone⟩ := lookup_of_overrules hover
  obtain ⟨now, htimes, hexpiry⟩ := exists_late (times ++ [c].flatMap Call.readings) expiry
  exact h [] now now htimes le_rfl (hgone [] now now hexpiry)

theorem found_iff_along {calls : List Call} (hplain : ∀ c ∈ calls, c.plain = true) (times : List ℚ)
    (h : Standing o cid s.view) :
    (∀ seen, seen <+: calls → Found o cid s times seen) ↔ Along (step o) (fun s c => ¬Overrules o cid s c) s calls := by
  induction calls generalizing s times with
  | nil =>
    apply iff_of_true
    · intro seen hseen me now now' _ _
      rw [List.prefix_nil.mp hseen]
      exact lookup_of_standing h me now now'
    · trivial
  | cons c calls ih =>
    rw [List.forall_mem_cons] at hplain
    constructor
    · intro hfound
      have hnot := not_overrules_of_found (hfound [c] ⟨calls, rfl⟩)
      refine ⟨hnot, (ih hplain.2 (times ++ c.readings) ((standing_step_iff hplain.1 h).mpr hnot)).mp ?_⟩
      intro seen hseen me now now' htimes hnow
      apply hfound (c :: seen) (List.cons_prefix_cons.mpr ⟨rfl, hseen⟩) me now now' _ hnow
      rw [List.flatMap_cons, ← List.append_assoc]
      exact htimes
    · rintro ⟨hnot, halong⟩ seen hseen me now now' htimes hnow
      cases seen with
      | nil => exact lookup_of_standing h me now now'
      | cons c' seen =>
        obtain ⟨rfl, hrest⟩ := List.cons_prefix_cons.mp hseen
        have hnext := (ih hplain.2 (times ++ c'.readings) ((standing_step_iff hplain.1 h).mpr hnot)).mpr halong
        apply hnext seen hrest me now now' _ hnow
        rw [List.flatMap_cons, ← List.append_assoc] at htimes
        exact htimes

end Verdicts

section Persistence

/-- Once a call has taken a verdict in, the CID is looked up as settled at every later time, however the calls go on,
exactly when none of them takes in a skip that can expire while no classify stands before it. -/
theorem verdict_persists_iff (o : Observer) (s : Conn) (c : Call) (cid reason : Text) (hreason : reason ∈ scopeReasons)
    (hverdict : skipTaken o s c = some (cid, some reason)) (calls : List Call) (hplain : ∀ c ∈ calls, c.plain = true) :
    (∀ seen, seen <+: calls → Found o cid (step o s c) c.readings seen) ↔
      Along (step o) (fun s c => ¬Overrules o cid s c) (step o s c) calls :=
  found_iff_along hplain c.readings (standing_of_verdict hreason hverdict)

def pageSkip (publisher reason : String) : Value :=
  .obj [(txt "cid", .str (txt "f0155000100")), (txt "kind", .str (txt "skip")), (txt "publisher", .str (txt publisher)),
    (txt "reason", .str (txt reason)), (txt "sig", .str (txt "aa"))]

def skipAt (now : ℚ) (publisher reason : String) : Call := .ingest ⟨now, now, now, .ok ()⟩ (pageSkip publisher reason)

def pageVerdict : Call := skipAt 1000 "12D3KooWPeer" "out_of_scope"

theorem pageVerdict_taken : skipTaken sampleObserver fresh pageVerdict = some (txt "f0155000100", some (txt "out_of_scope")) := by
  decide +kernel

theorem verdict_persists_folder :
    Found sampleObserver (txt "f0155000100") (step sampleObserver fresh pageVerdict) pageVerdict.readings
      [skipAt 2000 "12D3KooWOther" "directory", .expire 90000 90000] :=
  (verdict_persists_iff sampleObserver fresh pageVerdict (txt "f0155000100") (txt "out_of_scope") (by decide)
    pageVerdict_taken [skipAt 2000 "12D3KooWOther" "directory", .expire 90000 90000] (by decide)).mpr (by decide +kernel)
    _ (List.prefix_refl _)

theorem verdict_lost : skipTaken sampleObserver fresh pageVerdict = some (txt "f0155000100", some (txt "out_of_scope")) ∧
    lookupCid sampleObserver [] 90000 90000 (run (step sampleObserver) (step sampleObserver fresh pageVerdict)
      [skipAt 2000 "12D3KooWOther" "unprocessable", .expire 30000 30000]).view (txt "f0155000100") = none :=
  ⟨pageVerdict_taken, by decide +kernel⟩

end Persistence

end ObserverClub.Store
