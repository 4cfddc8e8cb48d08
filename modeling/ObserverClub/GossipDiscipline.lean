import ObserverClub.FetchBounds
import ObserverClub.Reading
import ObserverClub.Sniffing

/-!
What one call of `process_one` may tell the club, whatever it is answered.
-/

namespace ObserverClub.Indexer

open Library Python Library.Program Fetch Extract

namespace Action

def gossips : Action → Bool
  | .publishSkip _ _ _ => true
  | .publishClassify _ _ => true
  | _ => false

def judges : Action → Bool
  | .classify _ _ _ _ => true
  | _ => false

def consults : Action → Bool
  | .fetchCid _ _ _ => true
  | .prior _ _ _ => true
  | .publishClaim _ => true
  | a => a.judges || a.gossips

def leases : Action → Bool
  | .clock => true
  | .leaseUntil => true
  | .setLease _ => true
  | .acquireSlot => true
  | .releaseSlot => true
  | _ => false

end Action

/-- What was answered so far, how often the club was told a verdict, and whether the last call but for the lease
asked for a claim. -/
structure Seen where
  fetched : List (Except Error FetchResult)
  priors : List (Except Error (Option Text))
  verdicts : List (Except Error (Option Meta))
  gossip : ℕ
  pending : Bool

def Seen.note (s : Seen) : Event Answer → Seen
  | ⟨.fetchCid _ _ _, r⟩ => { s with fetched := s.fetched ++ [r], pending := false }
  | ⟨.prior _ _ _, r⟩ => { s with priors := s.priors ++ [r], pending := false }
  | ⟨.classify _ _ _ _, r⟩ => { s with verdicts := s.verdicts ++ [r], pending := false }
  | ⟨.publishClaim _, _⟩ => { s with pending := true }
  | ⟨a, _⟩ => { s with gossip := s.gossip + a.gossips.toNat, pending := s.pending && a.leases }

def seen (events : List (Event Answer)) : Seen := events.foldl Seen.note ⟨[], [], [], 0, false⟩

theorem seen_append (pre seg : List (Event Answer)) : seen (pre ++ seg) = seg.foldl Seen.note (seen pre) :=
  List.foldl_append

theorem note_quiet {s : Seen} (e : Event Answer) (hp : s.pending = false) (h : e.1.consults = false) : s.note e = s := by
  obtain ⟨a, r⟩ := e
  obtain ⟨fetched, priors, verdicts, gossip, pending⟩ := s
  subst hp
  cases a <;> first | rfl | cases h

theorem foldl_note_quiet {s : Seen} {seg : List (Event Answer)} (hp : s.pending = false)
    (h : ∀ e ∈ seg, e.1.consults = false) : seg.foldl Seen.note s = s := by
  induction seg with
  | nil => rfl
  | cons e seg ih =>
    rw [List.foldl_cons, note_quiet e hp (h e List.mem_cons_self)]
    exact ih fun e he => h e (List.mem_cons_of_mem _ he)

section Quiet

variable {α β : Type}

def Quiet (x : Proc α) : Prop := Only (fun a => a.consults = false) x.run

theorem quiet_pure (x : α) : Quiet (pure x) := trivial

theorem quiet_call {a : Action} (h : a.consults = false) : Quiet (call a) := only_call h

theorem quiet_bind {x : Proc α} {f : α → Proc β} (hx : Quiet x) (hf : ∀ a, Quiet (f a)) : Quiet (x >>= f) :=
  only_bind hx hf

theorem Reading.quiet {x : Proc α} (hx : Reading x) : Quiet x := by
  refine Only.mono hx fun a ha => ?_
  cases a <;> first | rfl | cases ha

theorem quiet_last {a : Action} (x : α) (h : a.consults = false) : Quiet (call a >>= fun _ => pure x) :=
  quiet_bind (quiet_call h) fun _ => quiet_pure _

theorem quiet_afterHit (cid : Text) (rerun : Bool) (hit : Store.Hit) : Quiet (afterHit cid rerun hit) := by
  cases hit with
  | skip s =>
    simp only [afterHit]
    split_ifs
    · apply quiet_pure
    · exact quiet_bind (quiet_call rfl) fun _ => quiet_last _ rfl
  | classify row =>
    simp only [afterHit]
    split_ifs
    · apply quiet_pure
    · exact quiet_last _ rfl
  | claim claim =>
    apply quiet_bind (plain_foreignLiveClaim claim).reading.quiet
    intro foreign
    split_ifs
    · exact quiet_last _ rfl
    · apply quiet_pure

theorem quiet_hook (w : Worker) (cid : Text) : Quiet (hook w cid) := by
  apply quiet_bind (reading_lookupCid w cid).quiet
  intro hit
  cases hit with
  | none => apply quiet_pure
  | some hit => exact quiet_bind (plain_mustClassify cid).reading.quiet fun rerun => quiet_afterHit cid rerun hit

theorem quiet_retryLater (row : Row) (s : Sample) (error : Text) : Quiet (retryLater row s error) := quiet_last _ rfl

theorem quiet_claimCleared : Quiet claimCleared := quiet_call rfl

theorem quiet_noteFetch (row : Row) (r : FetchResult) : Quiet (noteFetch row r) := by
  unfold noteFetch
  split_ifs
  · exact quiet_bind (quiet_call rfl) fun _ => quiet_call rfl
  · exact quiet_call rfl

theorem quiet_directoryStage (row : Row) (r : FetchResult) : Quiet (directoryStage row r) := by
  unfold directoryStage
  split_ifs
  · exact quiet_bind (quiet_call rfl) fun _ => quiet_bind (quiet_call rfl) fun _ => quiet_last _ rfl
  · exact quiet_bind (quiet_pure _) fun _ => quiet_bind (quiet_call rfl) fun _ => quiet_last _ rfl

theorem quiet_failedStage (w : Worker) (row : Row) (r : FetchResult) : Quiet (failedStage w row r) := by
  unfold failedStage
  split_ifs <;> exact quiet_last _ rfl

theorem quiet_unusableStage (row : Row) (s : Sample) : Quiet (unusableStage row s) := by
  unfold unusableStage
  split_ifs <;> exact quiet_last _ rfl

end Quiet

section Guards

variable {w : Worker} {row : Row}

structure Readable (w : Worker) (r : FetchResult) (doc : Document) : Prop where
  plain : r.mimeType ≠ some (txt "inode/directory")
  whole : needsRest w r = .ok false
  extracted : extractDocument w.observer.py w.chars w.tools r.data r.mimeType r.filename = .ok doc
  processable : Extract.processable doc.mime = true
  usable : usableText doc.text doc.mime = true

def Sampled (w : Worker) (s : Seen) : Prop := ∃ r doc, s.fetched = [.ok r] ∧ Readable w r doc

def Disagreement (s : Seen) : Prop := .ok (some likely) ∈ s.priors ∧ ∃ m : Meta, .ok (some m) ∈ s.verdicts ∧ m.fits = false

/-- `must_classify` has just said no; the clock is read for the record. -/
def Declined (cid : Text) (pre : List (Event Answer)) : Prop :=
  ∃ before seg now, pre = before ++ seg ++ [⟨.clock, now⟩] ∧ Completes (mustClassify cid).run seg (.ok false)

/-- The catalog has no document with the same text, or `must_classify` has said yes. -/
def Ruled (cid : Text) (pre : List (Event Answer)) : Prop :=
  ∃ before seg rest, pre = before ++ seg ++ rest ∧
    ((∃ fp, Completes (classifyByTextHash fp).run seg (.ok none)) ∨ Completes (mustClassify cid).run seg (.ok true))

def Examined (w : Worker) (cid : Text) (pre : List (Event Answer)) : Prop :=
  Sampled w (seen pre) ∧ Ruled cid pre ∧ (seen pre).verdicts = [] ∧
    ∃ prior, (seen pre).priors = [.ok prior] ∧ prior ≠ some unlikely

structure Permitted (w : Worker) (row : Row) (pre : List (Event Answer)) (a : Action) : Prop where
  first : a.consults = true → (seen pre).gossip = 0
  next : (seen pre).pending = true → a.leases = true ∨ a.judges = true
  earned : a.gossips = true → Sampled w (seen pre) ∧ ¬Disagreement (seen pre)
  reason : ∀ cid mime reason, a = .publishSkip cid mime reason → reason = scopeSkipReason
  reuse : ∀ cid payload, a = .publishClassify cid payload → payload.classifier.kind = reuseKind → Declined row.cid pre
  claim : ∀ cid, a = .publishClaim cid → Examined w row.cid pre

variable {pre : List (Event Answer)}

theorem permitted_quiet {a : Action} (hp : (seen pre).pending = false) (ha : a.consults = false) :
    Permitted w row pre a where
  first h := absurd (ha.symm.trans h) (by decide)
  next h := absurd (hp.symm.trans h) (by decide)
  earned h := by cases a <;> cases h <;> cases ha
  reason _ _ _ h := by
    subst h
    cases ha
  reuse _ _ h := by
    subst h
    cases ha
  claim _ h := by
    subst h
    cases ha

theorem permitted_leases {a : Action} (ha : a.leases = true) : Permitted w row pre a where
  first h := by cases a <;> cases ha <;> cases h
  next _ := Or.inl ha
  earned h := by cases a <;> cases ha <;> cases h
  reason _ _ _ h := by
    subst h
    cases ha
  reuse _ _ h := by
    subst h
    cases ha
  claim _ h := by
    subst h
    cases ha

theorem permitted_asks {a : Action} (h : (seen pre).gossip = 0) (hp : (seen pre).pending = true → a.judges = true)
    (hg : a.gossips = false) (hc : ∀ cid, a ≠ .publishClaim cid) : Permitted w row pre a where
  first _ := h
  next h := Or.inr (hp h)
  earned h := absurd (hg.symm.trans h) (by decide)
  reason _ _ _ h := by
    subst h
    cases hg
  reuse _ _ h := by
    subst h
    cases hg
  claim cid h := absurd h (hc cid)

section Rules

variable {α β : Type}

theorem guarded_quiet {x : Proc α} (hp : (seen pre).pending = false) (hx : Quiet x) :
    Guarded (Permitted w row) pre x.run := by
  apply Only.guarded hx
  intro seg a hseg ha
  apply permitted_quiet _ ha
  rw [seen_append, foldl_note_quiet hp hseg]
  exact hp

theorem guarded_after {x : Proc α} {f : α → Proc β} (hp : (seen pre).pending = false) (hx : Quiet x)
    (hf : ∀ seg a, seen (pre ++ seg) = seen pre → Completes x.run seg (.ok a) →
      Guarded (Permitted w row) (pre ++ seg) (f a).run) : Guarded (Permitted w row) pre (x >>= f).run := by
  apply guarded_bind (guarded_quiet hp hx)
  intro seg a hc
  apply hf seg a _ hc
  rw [seen_append, foldl_note_quiet hp (hx.completes hc)]

theorem guarded_gossip {a : Action} {f : Reply a → Proc β} (ha : Permitted w row pre a) (hg : a.gossips = true)
    (hf : ∀ r, Quiet (f r)) : Guarded (Permitted w row) pre (call a >>= f).run := by
  apply guarded_call ha
  intro r
  apply guarded_quiet _ (hf r)
  rw [seen_append]
  cases a <;> cases hg <;> exact Bool.and_false _

theorem guarded_leases {x : Proc α} (hx : Only (fun a => a.leases = true) x.run) :
    Guarded (Permitted w row) pre x.run := hx.guarded fun _ _ _ ha => permitted_leases ha

end Rules

structure Ready (w : Worker) (pre : List (Event Answer)) : Prop where
  sampled : Sampled w (seen pre)
  agreed : ¬Disagreement (seen pre)
  gossip : (seen pre).gossip = 0
  pending : (seen pre).pending = false

theorem Ready.skip (h : Ready w pre) (cid mime : Text) :
    Permitted w row pre (.publishSkip cid mime scopeSkipReason) where
  first _ := h.gossip
  next hp := absurd (h.pending.symm.trans hp) (by decide)
  earned _ := ⟨h.sampled, h.agreed⟩
  reason _ _ _ h := by
    cases h
    rfl
  reuse _ _ h := by cases h
  claim _ h := by cases h

theorem Ready.classify (h : Ready w pre) (cid : Text) {payload : Payload}
    (hreuse : payload.classifier.kind = reuseKind → Declined row.cid pre) :
    Permitted w row pre (.publishClassify cid payload) where
  first _ := h.gossip
  next hp := absurd (h.pending.symm.trans hp) (by decide)
  earned _ := ⟨h.sampled, h.agreed⟩
  reason _ _ _ h := by cases h
  reuse _ _ h := by
    cases h
    exact hreuse
  claim _ h := by cases h

theorem Ready.of_seen {pre' : List (Event Answer)} (h : Ready w pre) (hs : seen pre' = seen pre) : Ready w pre' where
  sampled := hs ▸ h.sampled
  agreed := hs ▸ h.agreed
  gossip := hs ▸ h.gossip
  pending := hs ▸ h.pending

theorem guarded_skipOutOfScope (s : Sample) {cleared : Proc Unit} (h : Ready w pre) (hc : Quiet cleared) :
    Guarded (Permitted w row) pre (skipOutOfScope row s cleared).run := by
  apply guarded_gossip (h.skip _ _) rfl
  intro ok
  split_ifs
  · exact quiet_bind (quiet_call rfl) fun _ => quiet_bind hc fun _ => quiet_pure _
  · apply quiet_retryLater

theorem publishClassify_cases (cid : Text) (payload : Payload) :
    (∃ field, publishClassify w cid payload = call (.publishClassify cid { payload with field := field })) ∨
      ∃ e, publishClassify w cid payload = Task.of (.error e) := by
  unfold publishClassify
  cases payload.field.filter (· ≠ []) with
  | none => exact Or.inl ⟨payload.field, rfl⟩
  | some field =>
    cases hn : Catalog.normalizeField w.observer (.str field) with
    | error e =>
      refine Or.inr ⟨e, ?_⟩
      simp only [hn]
      rfl
    | ok field =>
      refine Or.inl ⟨some field, ?_⟩
      simp only [hn]
      rfl

theorem guarded_publishClassify {β : Type} (cid : Text) {payload : Payload} {f : Bool → Proc β} (h : Ready w pre)
    (hreuse : payload.classifier.kind = reuseKind → Declined row.cid pre) (hf : ∀ ok, Quiet (f ok)) :
    Guarded (Permitted w row) pre (publishClassify w cid payload >>= f).run := by
  obtain ⟨field, hpub⟩ | ⟨e, hpub⟩ := publishClassify_cases (w := w) cid payload
  · rw [hpub]
    exact guarded_gossip (h.classify cid hreuse) rfl hf
  · rw [hpub]
    exact guarded_of_bind fun a ha => by cases ha

theorem guarded_reuse (s : Sample) (fp : Text) (found : Store.Preferred) (h : Ready w pre)
    (hd : ∀ now, Declined row.cid (pre ++ [⟨.clock, now⟩])) :
    Guarded (Permitted w row) pre (reuse w row s fp found).run := by
  apply guarded_call (permitted_quiet h.pending rfl)
  intro now
  apply guarded_publishClassify row.cid (h.of_seen _) fun _ => hd (.ok now)
  · intro ok
    split_ifs
    · exact quiet_last _ rfl
    · apply quiet_retryLater
  · rw [seen_append]
    exact note_quiet ⟨.clock, .ok now⟩ h.pending rfl

theorem llm_ne_reuse : txt "llm" ≠ reuseKind := by decide

theorem guarded_publishVerdict (s : Sample) (fp : Text) (m : Meta) (h : Ready w pre) :
    Guarded (Permitted w row) pre (publishVerdict w row s fp m).run := by
  apply guarded_call (permitted_quiet h.pending rfl)
  intro now
  apply guarded_publishClassify row.cid (h.of_seen _) fun hkind => absurd hkind llm_ne_reuse
  · intro ok
    split_ifs
    · exact quiet_bind (quiet_call rfl) fun _ => quiet_bind quiet_claimCleared fun _ => quiet_pure _
    · apply quiet_retryLater
  · rw [seen_append]
    exact note_quiet ⟨.clock, .ok now⟩ h.pending rfl

theorem guarded_verdict (s : Sample) (fp : Text) {r : FetchResult} {doc : Document} {prior : Option Text} (m : Meta)
    (hr : Readable w r doc) (hs : seen pre = ⟨[.ok r], [.ok prior], [.ok (some m)], 0, false⟩) :
    Guarded (Permitted w row) pre (verdict w row s fp prior m).run := by
  have hp : (seen pre).pending = false := by rw [hs]
  have hready (ha : ¬(m.fits = false ∧ prior = some likely)) : Ready w pre := by
    refine ⟨?_, ?_, ?_, hp⟩ <;> rw [hs]
    · exact ⟨r, doc, rfl, hr⟩
    · rintro ⟨hprior, m', hm', hfit⟩
      have hl := List.mem_singleton.mp hprior
      have hm := List.mem_singleton.mp hm'
      cases hl
      cases hm
      exact ha ⟨hfit, rfl⟩
  unfold verdict
  split_ifs with hd hout
  · exact guarded_quiet hp (quiet_bind (quiet_call rfl) fun _ => quiet_bind (quiet_call rfl) fun _ =>
      quiet_bind quiet_claimCleared fun _ => quiet_pure _)
  · apply guarded_skipOutOfScope s (hready _) quiet_claimCleared
    rintro ⟨hfit, hlikely⟩
    exact hd ⟨hout, hlikely⟩
  · apply guarded_publishVerdict s fp m (hready _)
    rintro ⟨hfit, -⟩
    rw [hfit] at hout
    exact hout rfl

theorem guarded_judge (s : Sample) (fp : Text) {r : FetchResult} {doc : Document} {prior : Option Text} {b : Bool}
    (hr : Readable w r doc) (hs : seen pre = ⟨[.ok r], [.ok prior], [], 0, b⟩) :
    Guarded (Permitted w row) pre (judge w row s fp prior).run := by
  have hasks : Permitted w row pre (.classify s.text s.mime s.filename row.codec) :=
    permitted_asks (by rw [hs]) (fun _ => rfl) rfl nofun
  apply guarded_call hasks
  intro answer
  have hs' : seen (pre ++ [⟨.classify s.text s.mime s.filename row.codec, .ok answer⟩]) =
      ⟨[.ok r], [.ok prior], [.ok answer], 0, false⟩ := by
    rw [seen_append, hs]
    rfl
  cases answer with
  | none => exact guarded_quiet (by rw [hs']) (quiet_retryLater row s _)
  | some m => exact guarded_verdict s fp m hr hs'

theorem only_tryClaim (cid : Text) :
    Only (fun a => a.leases = true ∨ a = .publishClaim cid) (tryClaim w cid).run := by
  refine only_bind (only_call (Or.inl rfl)) fun now => ?_
  refine only_bind (only_call (Or.inl rfl)) fun lease => ?_
  split_ifs
  · trivial
  · refine only_bind (only_call (Or.inl rfl)) fun free => ?_
    split_ifs
    · trivial
    · refine only_bind (only_call (Or.inr rfl)) fun ok => ?_
      refine only_bind (only_call (Or.inl rfl)) fun now => ?_
      split_ifs
      · exact only_bind (only_call (Or.inl rfl)) fun _ => trivial
      · exact only_bind (only_call (Or.inl rfl)) fun _ => only_bind (only_call (Or.inl rfl)) fun _ => trivial

theorem foldl_note_claiming (cid : Text) (s : Seen) (seg : List (Event Answer))
    (h : ∀ e ∈ seg, e.1.leases = true ∨ e.1 = .publishClaim cid) : ∃ b, seg.foldl Seen.note s = { s with pending := b } := by
  induction seg generalizing s with
  | nil => exact ⟨s.pending, rfl⟩
  | cons e seg ih =>
    obtain ⟨b, hb⟩ : ∃ b, s.note e = { s with pending := b } := by
      obtain ⟨a, r⟩ := e
      obtain ha | ha := h ⟨a, r⟩ List.mem_cons_self
      · cases a <;> cases ha <;> exact ⟨_, rfl⟩
      · cases a <;> cases ha
        exact ⟨true, rfl⟩
    obtain ⟨b', hb'⟩ := ih (s.note e) fun e he => h e (List.mem_cons_of_mem _ he)
    refine ⟨b', ?_⟩
    rw [List.foldl_cons, hb', hb]

theorem Ruled.append {cid : Text} (h : Ruled cid pre) (more : List (Event Answer)) : Ruled cid (pre ++ more) := by
  obtain ⟨before, seg, rest, rfl, hc⟩ := h
  exact ⟨before, seg, rest ++ more, by simp only [List.append_assoc], hc⟩

theorem Examined.append {cid : Text} (h : Examined w cid pre) {seg : List (Event Answer)} (hs : seen (pre ++ seg) = seen pre) :
    Examined w cid (pre ++ seg) := by
  unfold Examined
  rw [hs]
  exact ⟨h.1, h.2.1.append seg, h.2.2⟩

theorem permitted_publishClaim (cid : Text) (hp : (seen pre).pending = false) (hg : (seen pre).gossip = 0)
    (he : Examined w row.cid pre) : Permitted w row pre (.publishClaim cid) where
  first _ := hg
  next h := absurd (hp.symm.trans h) (by decide)
  earned h := by cases h
  reason _ _ _ h := by cases h
  reuse _ _ h := by cases h
  claim _ _ := he

theorem guarded_tryClaim (hp : (seen pre).pending = false) (hg : (seen pre).gossip = 0) (he : Examined w row.cid pre) :
    Guarded (Permitted w row) pre (tryClaim w row.cid).run := by
  apply guarded_after hp (quiet_call rfl)
  intro seg now hs _
  rw [← hs] at hp hg
  replace he := he.append hs
  apply guarded_after hp (quiet_call rfl)
  intro seg lease hs _
  rw [← hs] at hp hg
  replace he := he.append hs
  split_ifs
  · trivial
  · apply guarded_after hp (quiet_call rfl)
    intro seg free hs _
    rw [← hs] at hp hg
    replace he := he.append hs
    split_ifs
    · trivial
    · apply guarded_call (permitted_publishClaim row.cid hp hg he)
      intro ok
      apply guarded_leases
      refine only_bind (only_call rfl) fun now => ?_
      split_ifs
      · exact only_bind (only_call rfl) fun _ => trivial
      · exact only_bind (only_call rfl) fun _ => only_bind (only_call rfl) fun _ => trivial

theorem examined {cid : Text} {r : FetchResult} {doc : Document} {prior : Option Text} (hr : Readable w r doc)
    (hs : seen pre = ⟨[.ok r], [.ok prior], [], 0, false⟩) (hun : prior ≠ some unlikely) (hruled : Ruled cid pre) :
    Examined w cid pre := by
  refine ⟨?_, hruled, ?_, ?_⟩ <;> rw [hs]
  · exact ⟨r, doc, rfl, hr⟩
  · exact ⟨prior, rfl, hun⟩

theorem guarded_consult (s : Sample) (fp : Text) {r : FetchResult} {doc : Document} (hr : Readable w r doc)
    (hs : seen pre = ⟨[.ok r], [], [], 0, false⟩) (hruled : Ruled row.cid pre) :
    Guarded (Permitted w row) pre (consult w row s fp).run := by
  have hasks : Permitted w row pre (.prior s.text s.mime s.filename) :=
    permitted_asks (by rw [hs]) (by simp only [hs]; exact nofun) rfl nofun
  apply guarded_call hasks
  intro prior
  have hs' : seen (pre ++ [⟨.prior s.text s.mime s.filename, .ok prior⟩]) = ⟨[.ok r], [.ok prior], [], 0, false⟩ := by
    rw [seen_append, hs]
    rfl
  replace hruled := hruled.append [⟨.prior s.text s.mime s.filename, .ok prior⟩]
  split_ifs with hun
  · apply guarded_skipOutOfScope s _ (quiet_pure _)
    refine ⟨?_, ?_, ?_, ?_⟩ <;> rw [hs']
    · exact ⟨r, doc, rfl, hr⟩
    · rintro ⟨-, m, hm, -⟩
      cases hm
  · apply guarded_after (by rw [hs']) (quiet_call rfl)
    intro seg up hup _
    rw [← hup] at hs'
    replace hruled := hruled.append seg
    split_ifs
    · exact guarded_quiet (by rw [hs']) (quiet_retryLater row s _)
    · apply guarded_bind (guarded_tryClaim (by rw [hs']) (by rw [hs']) (examined hr hs' hun hruled))
      intro seg claimed hc
      obtain ⟨b, hb⟩ := foldl_note_claiming row.cid (seen _) seg ((only_tryClaim row.cid).completes hc)
      rw [← seen_append, hs'] at hb
      apply guarded_ensuring (guarded_judge s fp hr hb)
      intro seg r _
      cases claimed with
      | true => exact ⟨permitted_leases rfl, fun _ => trivial⟩
      | false => trivial

theorem guarded_usableStage (s : Sample) {r : FetchResult} {doc : Document} (hr : Readable w r doc)
    (hs : seen pre = ⟨[.ok r], [], [], 0, false⟩) : Guarded (Permitted w row) pre (usableStage w row s).run := by
  apply guarded_of_bind
  intro fp _
  apply guarded_after (by rw [hs]) (plain_classifyByTextHash fp).reading.quiet
  intro seg found hfound hc
  rw [hfound.symm] at hs
  cases found with
  | none => exact guarded_consult s fp hr hs ⟨pre, seg, [], by rw [List.append_nil], Or.inl ⟨fp, hc⟩⟩
  | some found =>
    apply guarded_after (by rw [hs]) (plain_mustClassify row.cid).reading.quiet
    intro seg' again hagain hc'
    rw [← hagain] at hs
    cases again with
    | true => exact guarded_consult s fp hr hs ⟨pre ++ seg, seg', [], by rw [List.append_nil], Or.inr hc'⟩
    | false =>
      apply guarded_reuse s fp found
      · refine ⟨?_, ?_, ?_, ?_⟩ <;> rw [hs]
        · exact ⟨r, doc, rfl, hr⟩
        · rintro ⟨hprior, -⟩
          cases hprior
      · exact fun now => ⟨pre ++ seg, seg', now, rfl, hc'⟩

theorem guarded_sampleStage {r : FetchResult} (hplain : r.mimeType ≠ some (txt "inode/directory"))
    (hs : seen pre = ⟨[.ok r], [], [], 0, false⟩) : Guarded (Permitted w row) pre (sampleStage w row r).run := by
  have hp : (seen pre).pending = false := by rw [hs]
  apply guarded_of_bind
  intro part hpart
  cases part with
  | true => exact guarded_quiet hp (quiet_bind (quiet_call rfl) fun _ => quiet_last _ rfl)
  | false =>
    apply guarded_of_bind
    intro doc hdoc
    split_ifs with hun
    · exact guarded_quiet hp (quiet_unusableStage row _)
    · simp only [Bool.not_eq_true', not_or, Bool.not_eq_false] at hun
      exact guarded_usableStage _ ⟨hplain, hpart, hdoc, hun.1, hun.2⟩ hs

theorem guarded_fetchStage (hs : seen pre = ⟨[], [], [], 0, false⟩) :
    Guarded (Permitted w row) pre (fetchStage w row).run := by
  apply guarded_after (by rw [hs]) (quiet_call rfl)
  intro seg _ hbump _
  rw [← hbump] at hs
  have hasks : Permitted w row (pre ++ seg) (.fetchCid row.cid row.codec row.attempts) :=
    permitted_asks (by rw [hs]) (by simp only [hs]; exact nofun) rfl nofun
  apply guarded_call hasks
  intro r
  have hs' : seen (pre ++ seg ++ [⟨.fetchCid row.cid row.codec row.attempts, .ok r⟩]) = ⟨[.ok r], [], [], 0, false⟩ := by
    rw [seen_append, hs]
    rfl
  apply guarded_after (by rw [hs']) (quiet_noteFetch row r)
  intro seg _ hnote _
  rw [← hnote] at hs'
  split_ifs with hdir hfail
  · exact guarded_quiet (by rw [hs']) (quiet_directoryStage row r)
  · exact guarded_quiet (by rw [hs']) (quiet_failedStage w row r)
  · apply guarded_sampleStage _ hs'
    intro hmime
    simp only [Bool.not_eq_true', Bool.not_eq_false] at hfail
    exact hdir ⟨hfail, Or.inr hmime⟩

theorem guarded_processOne : Guarded (Permitted w row) [] (processOne w row).run := by
  unfold processOne
  split_ifs
  · exact guarded_quiet rfl (quiet_last _ rfl)
  · apply guarded_after rfl (quiet_hook w row.cid)
    intro seg ended hs _
    cases ended with
    | some ended => trivial
    | none => exact guarded_fetchStage hs

end Guards

section Discipline

variable {w : Worker} {row : Row} {events : List (Event Answer)}

def Worker.host (w : Worker) : Host := ⟨w.observer.py, w.chars, w.observer.sha256⟩

/-- What was fetched is what `fetch_cid` can return, on some network under some configuration. -/
def Fetched (w : Worker) (events : List (Event Answer)) : Prop :=
  ∀ r, .ok r ∈ (seen events).fetched →
    ∃ cfg net fuel cid codec attempt, Fetch.fetchCid cfg w.host net fuel cid codec attempt = some (.ok r)

def SniffsPdf (w : Worker) (r : FetchResult) (window : Bytes) : Prop :=
  sniffMime w.observer.py w.chars window r.mimeType r.filename = .ok pdf

def Silent (events : List (Event Answer)) : Prop := ∀ e ∈ events, e.1.gossips = false

def JudgesNext : List (Event Answer) → Prop
  | [] => True
  | e :: events => e.1.judges = true ∨ (e.1.leases = true ∧ JudgesNext events)

structure Disciplined (w : Worker) (row : Row) (events : List (Event Answer)) : Prop where
  once : events.countP (fun e => e.1.gossips) ≤ 1
  whole : ∀ r, .ok r ∈ (seen events).fetched → r.truncated = true →
    SniffsPdf w r r.data ∨ SniffsPdf w r (r.data.take sniffWindow) → Silent events
  legible : ∀ r doc, .ok r ∈ (seen events).fetched →
    extractDocument w.observer.py w.chars w.tools r.data r.mimeType r.filename = .ok doc →
      Extract.processable doc.mime = false ∨ usableText doc.text doc.mime = false → Silent events
  agreed : Disagreement (seen events) → Silent events
  reason : ∀ cid mime reason r, ⟨.publishSkip cid mime reason, r⟩ ∈ events → reason = scopeSkipReason
  reuse : ∀ mid cid payload r post, events = mid ++ ⟨.publishClassify cid payload, r⟩ :: post →
    payload.classifier.kind = reuseKind → Declined row.cid mid
  claim : ∀ mid cid r post, events = mid ++ ⟨.publishClaim cid, r⟩ :: post → Examined w row.cid mid ∧ JudgesNext post

theorem fetchCid_mimeType {cfg : Settings} {host : Host} {net : Network} {fuel : ℕ} {cid : Text} {codec : Option Text}
    {attempt : ℕ} {r : FetchResult} (h : Fetch.fetchCid cfg host net fuel cid codec attempt = some (.ok r)) :
    r.mimeType = none ∨ r.mimeType = some (txt "inode/directory") := by
  unfold Fetch.fetchCid at h
  cases hb : getBlockEx cfg host (net 0) cid attempt with
  | error err =>
    simp only [hb, Option.some.injEq, Except.ok.injEq] at h
    exact Or.inl (h ▸ rfl)
  | ok block =>
    simp only [hb] at h
    split_ifs at h with hraw
    · simp only [Option.some.injEq, Except.ok.injEq] at h
      exact Or.inl (h ▸ rfl)
    · cases hp : UnixFs.parseDagPb block with
      | none =>
        simp only [hp, Option.some.injEq, Except.ok.injEq] at h
        exact Or.inl (h ▸ rfl)
      | some node =>
        simp only [hp] at h
        split_ifs at h with hdir
        · simp only [Option.some.injEq, Except.ok.injEq] at h
          exact Or.inr (h ▸ rfl)
        · obtain ⟨a, -, ha⟩ := Option.map_eq_some_iff.mp h
          cases hout : a.outcome with
          | error e =>
            rw [hout] at ha
            cases ha
          | ok file =>
            rw [hout] at ha
            exact Or.inl ((Except.ok.inj ha) ▸ rfl)

theorem sniffsPdf_take {r : FetchResult} (hm : r.mimeType = none) (h : SniffsPdf w r r.data) :
    SniffsPdf w r (r.data.take sniffWindow) := by
  unfold SniffsPdf at h ⊢
  rw [hm] at h ⊢
  obtain ⟨hf, hmagic⟩ := sniffMime_pdf h
  exact sniffMime_of_magic hf (List.prefix_take_iff.mpr ⟨hmagic, by decide⟩)

theorem Readable.not_pdf {r : FetchResult} {doc : Document} (h : Readable w r doc)
    (hm : r.mimeType = none ∨ r.mimeType = some (txt "inode/directory")) (ht : r.truncated = true) :
    ¬(SniffsPdf w r r.data ∨ SniffsPdf w r (r.data.take sniffWindow)) := by
  intro hpdf
  have hwindow : SniffsPdf w r (r.data.take sniffWindow) := by
    obtain hpdf | hpdf := hpdf
    · exact sniffsPdf_take (hm.resolve_right h.plain) hpdf
    · exact hpdf
  have hwhole := h.whole
  unfold needsRest at hwhole
  rw [if_pos ht, hwindow] at hwhole
  cases hwhole

theorem foldl_note_gossip (s : Seen) (seg : List (Event Answer)) :
    (seg.foldl Seen.note s).gossip = s.gossip + seg.countP (fun e => e.1.gossips) := by
  induction seg generalizing s with
  | nil => rfl
  | cons e seg ih =>
    have hnote : (s.note e).gossip = s.gossip + e.1.gossips.toNat := by
      obtain ⟨a, r⟩ := e
      cases a <;> rfl
    rw [List.foldl_cons, ih, hnote, List.countP_cons]
    cases e.1.gossips <;> simp only [Bool.toNat_true, Bool.toNat_false, if_true, Bool.false_eq_true, if_false] <;> omega

theorem seen_gossip (events : List (Event Answer)) : (seen events).gossip = events.countP (fun e => e.1.gossips) := by
  rw [seen, foldl_note_gossip, Nat.zero_add]

theorem consults_of_gossips {a : Action} (h : a.gossips = true) : a.consults = true := by
  cases a <;> cases h <;> rfl

theorem gossip_alone (h : Trace (processOne w row).run events) {mid post : List (Event Answer)} {e : Event Answer}
    (he : e.1.gossips = true) (hsplit : events = mid ++ e :: post) :
    Silent mid ∧ (∀ x ∈ post, x.1.consults = false) ∧ Sampled w (seen mid) ∧ ¬Disagreement (seen mid) := by
  obtain ⟨a, r⟩ := e
  subst hsplit
  have hperm := guarded_processOne.trace h
  rw [List.nil_append] at hperm
  have hzero := hperm.first (consults_of_gossips he)
  rw [seen_gossip, List.countP_eq_zero] at hzero
  refine ⟨fun x hx => Bool.eq_false_iff.mpr (hzero x hx), fun x hx => ?_, hperm.earned he⟩
  obtain ⟨post₁, post₂, rfl⟩ := List.append_of_mem hx
  rw [← List.cons_append, ← List.append_assoc] at h
  have hlater := guarded_processOne.trace h
  rw [List.nil_append] at hlater
  by_contra hc
  have hnone := hlater.first (Bool.not_eq_false _ |>.mp hc)
  rw [seen_gossip, List.countP_eq_zero] at hnone
  exact hnone ⟨a, r⟩ (List.mem_append_right _ List.mem_cons_self) he

theorem seen_of_gossip (h : Trace (processOne w row).run events) {mid post : List (Event Answer)} {e : Event Answer}
    (he : e.1.gossips = true) (hsplit : events = mid ++ e :: post) :
    seen events = { seen mid with gossip := (seen mid).gossip + 1, pending := false } := by
  obtain ⟨-, hpost, -⟩ := gossip_alone h he hsplit
  obtain ⟨a, r⟩ := e
  have hnote : (seen mid).note ⟨a, r⟩ = { seen mid with gossip := (seen mid).gossip + 1, pending := false } := by
    cases a <;> cases he <;> simp only [Seen.note, Action.gossips, Action.leases, Bool.toNat_true, Bool.and_false]
  rw [hsplit, seen_append, List.foldl_cons, hnote, foldl_note_quiet rfl hpost]

theorem silent_of (h : Trace (processOne w row).run events)
    (hno : ∀ s : Seen, s.fetched = (seen events).fetched → s.priors = (seen events).priors →
      s.verdicts = (seen events).verdicts → Sampled w s → Disagreement s) : Silent events := by
  intro e hmem
  by_contra hg
  have he := (Bool.not_eq_false _).mp hg
  obtain ⟨mid, post, hsplit⟩ := List.append_of_mem hmem
  obtain ⟨-, -, hsampled, hagreed⟩ := gossip_alone h he hsplit
  have hseen := seen_of_gossip h he hsplit
  exact hagreed (hno (seen mid) (by rw [hseen]) (by rw [hseen]) (by rw [hseen]) hsampled)

theorem judgesNext_of_pending {pre : List (Event Answer)} (h : Trace (processOne w row).run events)
    {post : List (Event Answer)} (hsplit : events = pre ++ post) (hp : (seen pre).pending = true) : JudgesNext post := by
  induction post generalizing pre with
  | nil => trivial
  | cons e post ih =>
    obtain ⟨a, r⟩ := e
    have hperm := guarded_processOne.trace (hsplit ▸ h)
    rw [List.nil_append] at hperm
    obtain hlease | hjudge := hperm.next hp
    · have hlonger : events = (pre ++ [⟨a, r⟩]) ++ post := by
        rw [hsplit, List.append_assoc]
        rfl
      refine Or.inr ⟨hlease, ih hlonger ?_⟩
      rw [seen_append, List.foldl_cons, List.foldl_nil]
      cases a <;> cases hlease <;> simp only [Seen.note, hp, Action.leases, Bool.and_true]
    · exact Or.inl hjudge

theorem processOne_disciplined (w : Worker) (row : Row) (events : List (Event Answer))
    (h : Trace (processOne w row).run events) (hfetch : Fetched w events) : Disciplined w row events where
  once := by
    by_cases hsome : ∃ e ∈ events, e.1.gossips = true
    · obtain ⟨e, hmem, he⟩ := hsome
      obtain ⟨mid, post, hsplit⟩ := List.append_of_mem hmem
      obtain ⟨hmid, -⟩ := gossip_alone h he hsplit
      have hseen := seen_of_gossip h he hsplit
      rw [← seen_gossip, hseen, seen_gossip, List.countP_eq_zero.mpr fun x hx => by rw [hmid x hx]; exact nofun]
    · rw [List.countP_eq_zero.mpr fun e hmem he => hsome ⟨e, hmem, he⟩]
      exact Nat.zero_le 1
  whole r hr ht hpdf := by
    apply silent_of h
    rintro s hf - - ⟨r', doc, hr', hread⟩
    rw [← hf, hr'] at hr
    cases List.mem_singleton.mp hr
    obtain ⟨cfg, net, fuel, cid, codec, attempt, hret⟩ := hfetch r (by rw [← hf, hr']; exact List.mem_singleton_self _)
    exact absurd hpdf (hread.not_pdf (fetchCid_mimeType hret) ht)
  legible r doc hr hdoc hbad := by
    apply silent_of h
    rintro s hf - - ⟨r', doc', hr', hread⟩
    rw [← hf, hr'] at hr
    cases List.mem_singleton.mp hr
    cases hdoc.symm.trans hread.extracted
    obtain hbad | hbad := hbad
    · exact absurd (hbad.symm.trans hread.processable) (by decide)
    · exact absurd (hbad.symm.trans hread.usable) (by decide)
  agreed hd := by
    apply silent_of h
    rintro s - hprior hverdict -
    unfold Disagreement at hd ⊢
    rwa [hprior, hverdict]
  reason cid mime reason r hmem := by
    obtain ⟨mid, post, rfl⟩ := List.append_of_mem hmem
    exact (guarded_processOne.trace h).reason cid mime reason rfl
  reuse mid cid payload r post hsplit hkind := by
    subst hsplit
    have hperm := guarded_processOne.trace h
    rw [List.nil_append] at hperm
    exact hperm.reuse cid payload rfl hkind
  claim mid cid r post hsplit := by
    have hperm := guarded_processOne.trace (hsplit ▸ h)
    rw [List.nil_append] at hperm
    have hlonger : events = (mid ++ [⟨.publishClaim cid, r⟩]) ++ post := by
      rw [hsplit, List.append_assoc]
      rfl
    refine ⟨hperm.claim cid rfl, judgesNext_of_pending h hlonger ?_⟩
    rw [seen_append]
    rfl

def page : Bytes := ascii "<html>The Higgs boson</html>"

def pageCid : Text := txt "bafkreie4n4gltq5kcq7dmjxgge5ramunmo24favqeym6cbauiez4krkyqa"

def pageText : Text := txt "The Higgs boson"

def pageHost : Host :=
  sampleHost [(page, 0x9c6f0cb9c3aa143e3626e6313b10328d63b5c282b02619e104144133c5455880),
    (ascii "The Higgs boson", 0xc69bd0678ef7bce14d369b0f56d6e89002206af0365e8895146bdc34cf7e8cce)]

def pageObserver : Observer where
  py := pageHost.py
  lower := asciiChars.lower
  upper := asciiChars.upper
  sha256 := pageHost.sha256
  realText x := x.repr
  numericText := .text
  clubID := txt "academic"
  fields := [txt "physics", txt "other"]
  fieldAliases := []
  skipTtlSeconds := 21600

def pageWorker : Worker where
  observer := pageObserver
  digit := isDigit
  tools := ⟨fun _ => pageText, fun _ => (none, none), fun _ => ([], (none, none)), fun _ => none⟩
  promptVer := txt "1"

def pageAnswers : (a : Action) → Answer a
  | .fetchCid cid codec attempt =>
    (Fetch.fetchCid {} pageHost (fun _ => ⟨.timeout, fun _ => .reply 200 page⟩) 0 cid codec attempt).getD (.error .valueError)
  | .classify _ _ _ _ => .ok (some ⟨some true, none, txt "physics", txt "bosons", txt "higgs", none, txt "llama"⟩)
  | .available => .ok true
  | .acquireSlot => .ok true
  | .publishClaim _ => .ok true
  | .publishSkip _ _ _ => .ok true
  | .publishClassify _ _ => .ok true
  | .clock => .ok 1000
  | .leaseUntil => .ok 0
  | .peerID => .ok (some (txt "12D3KooWPeer"))
  | .docOf _ => .ok none
  | .firstClassifyOf _ => .ok none
  | .claimOf _ _ _ => .ok none
  | .skipOf _ => .ok none
  | .localClassified _ _ => .ok false
  | .needsReview _ => .ok false
  | .independentPublishers _ => .ok []
  | .docByHash _ => .ok none
  | .classifyByHash _ => .ok none
  | .enqueueDocChildren _ _ => .ok 0
  | .peekHamtPdfs _ _ => .ok []
  | .prior _ _ _ => .ok none
  | .forgetCid _ => .ok ()
  | .mark _ _ _ => .ok ()
  | .bumpAttempts _ _ => .ok ()
  | .noteFetch _ _ => .ok ()
  | .dropDirectory _ => .ok ()
  | .rememberBinary _ _ => .ok ()
  | .setLease _ => .ok ()
  | .releaseSlot => .ok ()

def pageEvents : List (Event Answer) := play pageAnswers (processOne pageWorker ⟨pageCid, some (txt "raw"), 0⟩).run

theorem foldl_note_fetched (s : Seen) (seg : List (Event Answer)) (r : Except Error FetchResult)
    (h : r ∈ (seg.foldl Seen.note s).fetched) :
    r ∈ s.fetched ∨ ∃ cid codec attempt, ⟨.fetchCid cid codec attempt, r⟩ ∈ seg := by
  induction seg generalizing s with
  | nil => exact Or.inl h
  | cons e seg ih =>
    obtain h | ⟨cid, codec, attempt, h⟩ := ih _ h
    · obtain ⟨a, q⟩ := e
      cases a with
      | fetchCid cid codec attempt =>
        obtain h | h := List.mem_append.mp h
        · exact Or.inl h
        · rw [List.mem_singleton.mp h]
          exact Or.inr ⟨cid, codec, attempt, List.mem_cons_self⟩
      | _ => exact Or.inl h
    · exact Or.inr ⟨cid, codec, attempt, List.mem_cons_of_mem _ h⟩

theorem pageEvents_fetched : Fetched pageWorker pageEvents := by
  intro r hr
  obtain hr | ⟨cid, codec, attempt, hr⟩ := foldl_note_fetched _ _ _ hr
  · cases hr
  · have hans := of_mem_play pageAnswers _ _ hr
    simp only [pageAnswers, Sigma.mk.injEq, heq_eq_eq, true_and] at hans
    cases hf : Fetch.fetchCid {} pageHost (fun _ => ⟨.timeout, fun _ => .reply 200 page⟩) 0 cid codec attempt with
    | none =>
      rw [hf] at hans
      cases hans
    | some q =>
      rw [hf, Option.getD_some] at hans
      exact ⟨{}, _, 0, cid, codec, attempt, hf.trans (congrArg some hans.symm)⟩

theorem processOne_disciplined_page :
    Disciplined pageWorker ⟨pageCid, some (txt "raw"), 0⟩ pageEvents ∧
      pageEvents.countP (fun e => e.1.gossips) = 1 :=
  ⟨processOne_disciplined pageWorker _ pageEvents (trace_play _ _) pageEvents_fetched, by decide +kernel⟩

end Discipline

end ObserverClub.Indexer
