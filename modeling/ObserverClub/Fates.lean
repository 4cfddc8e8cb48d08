import ObserverClub.Settling

namespace ObserverClub.Indexer

open Library Python Library.Program Catalog Store Fetch Extract

def Action.queues : Action → Bool
  | .forgetCid _ => true
  | .mark _ _ _ => true
  | .bumpAttempts _ _ => true
  | .noteFetch _ _ => true
  | .enqueueDocChildren _ _ => true
  | .dropDirectory _ => true
  | .rememberBinary _ _ => true
  | _ => false

def Action.writes : Action → Bool
  | .enqueueDocChildren _ _ => false
  | a => a.queues

def Action.early : Action → Bool
  | .bumpAttempts _ _ => true
  | .noteFetch _ _ => true
  | .fetchCid _ _ _ => true
  | a => a.reads

def Action.bumps : Action → Bool
  | .bumpAttempts _ _ => true
  | _ => false

def attemptsAfter (row : Row) (events : List (Event Answer)) : ℕ :=
  if events.any (fun e => e.1.bumps) then row.attempts + 1 else row.attempts

def SawClassify (cid : Text) (events : List (Event Answer)) : Prop :=
  ∃ p, (⟨.docOf cid, .ok (some p)⟩ : Event Answer) ∈ events ∨ ⟨.firstClassifyOf cid, .ok (some p)⟩ ∈ events

def PublishedClassify (cid : Text) (events : List (Event Answer)) : Prop :=
  ∃ payload, (⟨.publishClassify cid payload, .ok true⟩ : Event Answer) ∈ events

def SawScopeSkip (cid : Text) (events : List (Event Answer)) : Prop :=
  ∃ s : Skip, s.reason = some scopeSkipReason ∧ (⟨.skipOf cid, .ok (some s)⟩ : Event Answer) ∈ events

def PublishedScopeSkip (cid : Text) (events : List (Event Answer)) : Prop :=
  ∃ mime, (⟨.publishSkip cid mime scopeSkipReason, .ok true⟩ : Event Answer) ∈ events

def FetchFailed (events : List (Event Answer)) : Prop :=
  ∃ cid codec n r, (⟨.fetchCid cid codec n, .ok r⟩ : Event Answer) ∈ events ∧ r.ok = false

inductive Fitting (w : Worker) (row : Row) (events : List (Event Answer)) (columns : Columns) : Status → Prop
  | restored (h : columns.attempts = some row.attempts) : Fitting w row events columns .discovered
  | left (h : columns.attempts = none) (early : ∀ e ∈ events, e.1.early = true)
      (room : attemptsAfter row events ≤ max row.attempts (max w.maxRetries w.maxTimeoutRetries))
      (kept : attemptsAfter row events = row.attempts ∨ FetchFailed events) :
      Fitting w row events columns .discovered
  | indexed (h : SawClassify row.cid events ∨ PublishedClassify row.cid events) : Fitting w row events columns .indexed
  | skipped {error : Option Text} (h : columns.error = some error)
      (reason : error = some scopeSkipReason → SawScopeSkip row.cid events ∨ PublishedScopeSkip row.cid events) :
      Fitting w row events columns .skipped

def Proper (w : Worker) (row : Row) (events : List (Event Answer)) : Action → Prop
  | .mark cid status columns => cid = row.cid ∧ Fitting w row events columns status
  | .bumpAttempts cid attempts => cid = row.cid ∧ attempts = row.attempts + 1
  | a => ∀ c, a.settles = some c → c = row.cid

def Closed (events : List (Event Answer)) : Prop :=
  ∃ before a r after, events = before ++ ⟨a, .ok r⟩ :: after ∧ a.settles.isSome = true ∧ ∀ e ∈ after, e.1.leases = true

def Ended {α : Type} (events : List (Event Answer)) (r : Except Error α) : Prop := ∀ x, r = .ok x → Closed events

theorem Closed.append {events : List (Event Answer)} (h : Closed events) {e : Event Answer} (he : e.1.leases = true) :
    Closed (events ++ [e]) := by
  obtain ⟨before, a, r, after, rfl, ha, hafter⟩ := h
  refine ⟨before, a, r, after ++ [e], by rw [List.append_assoc]; rfl, ha, ?_⟩
  intro e' he'
  obtain he' | he' := List.mem_append.mp he'
  · exact hafter e' he'
  · rw [List.mem_singleton.mp he']
    exact he

theorem closed_settled (events : List (Event Answer)) {a : Action} (r : Reply a) (ha : a.settles.isSome = true) :
    Closed (events ++ [⟨a, .ok r⟩]) := ⟨events, a, r, [], rfl, ha, fun _ h => absurd h List.not_mem_nil⟩

section Rules

variable {w : Worker} {row : Row} {α β : Type}

def Over (w : Worker) (row : Row) (x : Proc α) : Prop := ∀ pre, Closed pre → Ensures (Proper w row) Ended pre x.run

def Leads (w : Worker) (row : Row) (x : Proc α) : Prop := ∀ pre, Ensures (Proper w row) Ended pre x.run

/-- No statement of it gives the row a status or counts an attempt. -/
def Action.idle (a : Action) : Bool := a.settles.isNone && !a.bumps

theorem proper_of_idle {a : Action} (h : a.idle = true) (pre : List (Event Answer)) : Proper w row pre a := by
  cases a <;> cases h <;> exact nofun

theorem over_pure (x : α) : Over w row (pure x) := fun _ h _ _ => h

theorem over_leases {a : Action} {f : Reply a → Proc β} (ha : a.leases = true) (hf : ∀ r, Over w row (f r)) :
    Over w row (call a >>= f) := by
  intro pre h
  have hidle : a.idle = true := by cases a <;> first | rfl | cases ha
  refine ⟨proper_of_idle hidle pre, fun r => ?_⟩
  cases r with
  | ok r => exact hf r _ (h.append ha)
  | error e => exact nofun

theorem leads_of_bind {x : Except Error α} {f : α → Proc β} (hf : ∀ a, Leads w row (f a)) :
    Leads w row (Task.of x >>= f) := by
  intro pre
  cases x with
  | ok a => exact hf a pre
  | error e => exact nofun

theorem leads_bind {x : Proc α} {f : α → Proc β} (hx : Only (fun a => a.idle = true) x.run)
    (hf : ∀ a, Leads w row (f a)) : Leads w row (x >>= f) := by
  intro pre
  apply Ensures.bind
  apply hx.ensures (I := fun _ => True) trivial
  · exact fun pre a _ ha => proper_of_idle ha pre
  · exact fun _ _ _ _ _ => trivial
  · intro pre r _
    cases r with
    | ok a => exact hf a pre
    | error e => exact nofun

theorem leads_call {a : Action} {f : Reply a → Proc β} (ha : a.idle = true) (hf : ∀ r, Leads w row (f r)) :
    Leads w row (call a >>= f) := leads_bind (only_call ha) hf

theorem ensures_settles {pre : List (Event Answer)} {a : Action} {f : Reply a → Proc β} (ha : a.settles.isSome = true)
    (hp : Proper w row pre a) (hf : ∀ r, Over w row (f r)) : Ensures (Proper w row) Ended pre (call a >>= f).run := by
  refine ⟨hp, fun r => ?_⟩
  cases r with
  | ok r => exact hf r _ (closed_settled pre r ha)
  | error e => exact nofun

theorem leads_settles {a : Action} {f : Reply a → Proc β} (ha : a.settles.isSome = true) (hp : ∀ pre, Proper w row pre a)
    (hf : ∀ r, Over w row (f r)) : Leads w row (call a >>= f) := fun pre => ensures_settles ha (hp pre) hf

theorem leads_ensuring {x : Proc α} (claimed : Bool) (h : Leads w row x) :
    Leads w row (x.ensuring (releaseClaim claimed)) := by
  intro pre
  apply Ensures.bind
  refine Ensures.mono (h pre) fun pre r hr => ?_
  cases claimed with
  | false => exact hr
  | true => exact ⟨nofun, fun q x hx => (hr x hx).append rfl⟩

end Rules

section Stages

variable {w : Worker} {row : Row}

theorem Plain.idle {α : Type} {x : Proc α} (h : Plain x) : Only (fun a => a.idle = true) x.run := by
  refine Only.mono h fun a ha => ?_
  cases a <;> first | rfl | cases ha

theorem over_claimCleared : Over w row (claimCleared >>= fun _ => pure true) := over_leases rfl fun _ => over_pure true

theorem leads_retryLater (s : Sample) (error : Text) : Leads w row (retryLater row s error) :=
  leads_settles rfl (fun _ => ⟨rfl, .restored rfl⟩) fun _ => over_pure false

theorem leads_answered {a b : Action} {f : Reply b → Proc Bool} {g : Reply a → Proc Bool} {r : Reply a} (ha : a.idle = true)
    (hb : b.settles.isSome = true) (hp : ∀ pre, (⟨a, .ok r⟩ : Event Answer) ∈ pre → Proper w row pre b)
    (hf : ∀ r, Over w row (f r)) (hg : g r = (call b >>= f)) (hrest : ∀ r', r' ≠ r → Leads w row (g r')) :
    Leads w row (call a >>= g) := by
  intro pre
  refine ⟨proper_of_idle ha pre, fun x => ?_⟩
  cases x with
  | error e => exact nofun
  | ok r' =>
    by_cases hr : r' = r
    · subst hr
      change Ensures (Proper w row) Ended _ (g r').run
      rw [hg]
      exact ensures_settles hb (hp _ (List.mem_append_right _ (List.mem_singleton_self _))) hf
    · exact hrest r' hr _

theorem leads_skipOutOfScope (s : Sample) {cleared : Proc Unit} (hc : Over w row (cleared >>= fun _ => pure true)) :
    Leads w row (skipOutOfScope row s cleared) := by
  apply leads_answered (b := .mark row.cid .skipped (s.columns (some scopeSkipReason))) (r := true) rfl rfl
  · intro pre hpre
    exact ⟨rfl, .skipped rfl fun _ => Or.inr ⟨_, hpre⟩⟩
  · exact fun _ => hc
  · rfl
  · intro ok hok
    rw [Bool.eq_false_iff.mpr hok]
    exact leads_retryLater s publishFailed

theorem leads_published (s : Sample) (payload : Payload) {f : Unit → Proc Bool} (hf : ∀ u, Over w row (f u)) :
    Leads w row (publishClassify w row.cid payload >>= fun ok =>
      if ok then call (.mark row.cid .indexed (s.columns none)) >>= f else retryLater row s publishFailed) := by
  obtain ⟨field, h⟩ | ⟨e, h⟩ := publishClassify_cases (w := w) row.cid payload
  · rw [h]
    apply leads_answered (b := .mark row.cid .indexed (s.columns none)) (r := true) rfl rfl
    · intro pre hpre
      exact ⟨rfl, .indexed (Or.inr ⟨_, hpre⟩)⟩
    · exact hf
    · rfl
    · intro ok hok
      rw [Bool.eq_false_iff.mpr hok]
      exact leads_retryLater s publishFailed
  · rw [h]
    intro pre
    change Ended pre (Except.error e : Except Error Bool)
    exact nofun

theorem leads_reuse (s : Sample) (fp : Text) (found : Store.Preferred) : Leads w row (reuse w row s fp found) :=
  leads_call rfl fun _ => leads_published s _ fun _ => over_pure true

theorem leads_publishVerdict (s : Sample) (fp : Text) (m : Meta) : Leads w row (publishVerdict w row s fp m) :=
  leads_call rfl fun _ => leads_published s _ fun _ => over_claimCleared

theorem leads_verdict (s : Sample) (fp : Text) (prior : Option Text) (m : Meta) : Leads w row (verdict w row s fp prior m) := by
  unfold verdict
  split_ifs
  · apply leads_call rfl
    intro now
    apply leads_settles rfl
    · exact fun pre => ⟨rfl, .skipped rfl fun h => absurd h (by decide)⟩
    · exact fun _ => over_claimCleared
  · exact leads_skipOutOfScope s over_claimCleared
  · apply leads_publishVerdict

theorem leads_judge (s : Sample) (fp : Text) (prior : Option Text) : Leads w row (judge w row s fp prior) := by
  apply leads_call rfl
  intro answer
  cases answer with
  | none => apply leads_retryLater
  | some m => apply leads_verdict

theorem leads_consult (s : Sample) (fp : Text) : Leads w row (consult w row s fp) := by
  apply leads_call rfl
  intro prior
  split_ifs
  · exact leads_skipOutOfScope s (over_pure true)
  · apply leads_call rfl
    intro up
    split_ifs
    · apply leads_retryLater
    · apply leads_bind
      · refine Only.mono (only_tryClaim row.cid) fun a ha => ?_
        obtain ha | rfl := ha
        · cases a <;> first | rfl | cases ha
        · rfl
      · exact fun claimed => leads_ensuring claimed (leads_judge s fp prior)

theorem leads_usableStage (s : Sample) : Leads w row (usableStage w row s) := by
  apply leads_of_bind
  intro fp
  apply leads_bind (plain_classifyByTextHash fp).idle
  intro found
  cases found with
  | none => apply leads_consult
  | some found =>
    apply leads_bind (plain_mustClassify row.cid).idle
    intro again
    split_ifs
    · apply leads_consult
    · apply leads_reuse

theorem leads_unusableStage (s : Sample) : Leads w row (unusableStage row s) := by
  unfold unusableStage
  split_ifs
  · exact leads_settles rfl (fun pre c hc => (Option.some.inj hc).symm) fun _ => over_pure true
  · apply leads_settles rfl
    · exact fun pre => ⟨rfl, .skipped rfl fun h => absurd h (by decide)⟩
    · exact fun _ => over_pure true

theorem leads_sampleStage (r : FetchResult) : Leads w row (sampleStage w row r) := by
  apply leads_of_bind
  intro part
  split_ifs
  · apply leads_call rfl
    intro now
    apply leads_settles rfl
    · exact fun pre => ⟨rfl, .skipped rfl fun h => absurd h (by decide)⟩
    · exact fun _ => over_pure true
  · apply leads_of_bind
    intro doc
    split_ifs
    · apply leads_unusableStage
    · apply leads_usableStage

theorem leads_directoryStage (r : FetchResult) : Leads w row (directoryStage row r) := by
  have hdrop : Leads w row (call (.dropDirectory row.cid) >>= fun _ => pure true) :=
    leads_settles rfl (fun pre c hc => (Option.some.inj hc).symm) fun _ => over_pure true
  unfold directoryStage
  split_ifs
  · exact leads_call rfl fun _ => leads_call rfl fun _ => hdrop
  · exact leads_bind trivial fun _ => leads_call rfl fun _ => hdrop

end Stages

section Early

variable {w : Worker} {row : Row} {pre : List (Event Answer)} {α : Type}

def Early (events : List (Event Answer)) : Prop := ∀ e ∈ events, e.1.early = true

theorem Early.append {seg : List (Event Answer)} (h : Early pre) (hseg : Early seg) : Early (pre ++ seg) := by
  intro e he
  exact (List.mem_append.mp he).elim (h e) (hseg e)

theorem attemptsAfter_le (events : List (Event Answer)) : attemptsAfter row events ≤ row.attempts + 1 := by
  unfold attemptsAfter
  split_ifs <;> omega

theorem ensures_failedStage (h : Early pre) (hfailed : FetchFailed pre) (r : FetchResult) :
    Ensures (Proper w row) Ended pre (failedStage w row r).run := by
  unfold failedStage
  split_ifs with hgive
  · exact ensures_settles rfl (fun c hc => (Option.some.inj hc).symm) (fun _ => over_pure false)
  · apply ensures_settles rfl _ fun _ => over_pure false
    refine ⟨rfl, .left rfl h ?_ (Or.inr hfailed)⟩
    have hafter := @attemptsAfter_le row pre
    unfold givesUp at hgive
    split_ifs at hgive
    · exact absurd rfl hgive
    · rw [decide_eq_true_eq] at hgive
      omega
    · rw [decide_eq_true_eq] at hgive
      omega

theorem ensures_noteFetch (h : Early pre) (r : FetchResult) {f : Unit → Proc Bool}
    (hf : ∀ seg u, Early (pre ++ seg) → Ensures (Proper w row) Ended (pre ++ seg) (f u).run) :
    Ensures (Proper w row) Ended pre (noteFetch row r >>= f).run := by
  apply Ensures.bind
  have honly : Only (fun a => a.early = true ∧ a.idle = true) (noteFetch row r).run := by
    unfold noteFetch
    split_ifs
    · exact only_bind (only_call ⟨rfl, rfl⟩) fun _ => only_call ⟨rfl, rfl⟩
    · exact only_call ⟨rfl, rfl⟩
  apply honly.ensures (I := fun all => ∃ seg, all = pre ++ seg ∧ Early (pre ++ seg))
    ⟨[], by rw [List.append_nil], by rwa [List.append_nil]⟩
  · exact fun all a _ ha => proper_of_idle ha.2 all
  · rintro _ a r ⟨seg, rfl, h⟩ ha
    rw [List.append_assoc]
    refine ⟨_, rfl, ?_⟩
    rw [← List.append_assoc]
    apply h.append
    intro e he
    rw [List.mem_singleton.mp he]
    exact ha.1
  · rintro _ r ⟨seg, rfl, h⟩
    cases r with
    | ok u => exact hf seg u h
    | error e => exact nofun

theorem ensures_fetchStage (h : Early pre) : Ensures (Proper w row) Ended pre (fetchStage w row).run := by
  have hcall : ∀ {a : Action} (r : Answer a), a.early = true → ∀ {pre : List (Event Answer)}, Early pre →
    Early (pre ++ [⟨a, r⟩]) := by
    intro a r ha pre h
    apply h.append
    intro e he
    rw [List.mem_singleton.mp he]
    exact ha
  refine ⟨⟨rfl, rfl⟩, fun r => ?_⟩
  cases r with
  | error e => exact nofun
  | ok u =>
    have hbump := hcall (a := .bumpAttempts row.cid (row.attempts + 1)) (.ok u) rfl h
    refine ⟨nofun, fun r => ?_⟩
    cases r with
    | error e => exact nofun
    | ok result =>
      have hfetch := hcall (a := .fetchCid row.cid row.codec row.attempts) (.ok result) rfl hbump
      apply ensures_noteFetch hfetch result
      intro seg u hpre
      split_ifs with hdirectory hfailed
      · exact leads_directoryStage result _
      · apply ensures_failedStage hpre _ result
        refine ⟨_, _, _, result, List.mem_append_left _ (List.mem_append_right _ (List.mem_singleton_self _)), ?_⟩
        exact (Bool.not_eq_true' _).mp hfailed
      · exact leads_sampleStage result _

theorem early_of_reads {events : List (Event Answer)} (h : ∀ e ∈ events, e.1.reads = true) : Early events := by
  intro e he
  have hreads := h e he
  obtain ⟨a, r⟩ := e
  cases a <;> first | rfl | cases hreads

theorem preferred_saw {cid : Text} {p : Preferred} {seg : List (Event Answer)}
    (h : Completes (preferred cid).run seg (.ok (some p))) : SawClassify cid seg := by
  obtain ⟨doc, rest, rfl, hrest⟩ := completes_call h
  cases doc with
  | some d => exact ⟨d, Or.inl List.mem_cons_self⟩
  | none =>
    change Completes (call (.firstClassifyOf cid)).run rest (.ok (some p)) at hrest
    cases hrest with
    | act r h =>
      cases r with
      | error e => cases (completes_done h).2
      | ok first =>
        obtain ⟨rfl, hr⟩ := completes_done h
        cases hr
        exact ⟨p, Or.inr (List.mem_cons_of_mem _ List.mem_cons_self)⟩

theorem SawClassify.mono {cid : Text} {seg more : List (Event Answer)} (h : SawClassify cid seg)
    (hsub : ∀ e ∈ seg, e ∈ more) : SawClassify cid more :=
  h.imp fun _ hp => hp.imp (hsub _) (hsub _)

theorem lookupCid_saw {cid : Text} {hit : Hit} {seg : List (Event Answer)}
    (h : Completes (lookupCid w cid).run seg (.ok (some hit))) :
    (∀ p, hit = .classify p → SawClassify cid seg) ∧
      ∀ s, hit = .skip s → (⟨.skipOf cid, .ok (some s)⟩ : Event Answer) ∈ seg := by
  obtain ⟨s₁, s₂, found, rfl, h₁, h₂⟩ := completes_task h
  cases found with
  | some p =>
    obtain ⟨rfl, hr⟩ := completes_done h₂
    cases hr
    refine ⟨fun _ _ => ?_, nofun⟩
    exact (preferred_saw h₁).mono fun e he => List.mem_append_left _ he
  | none =>
    obtain ⟨me, r₁, rfl, h₃⟩ := completes_call h₂
    obtain ⟨now, r₂, rfl, h₄⟩ := completes_call h₃
    obtain ⟨claim, r₃, rfl, h₅⟩ := completes_call h₄
    cases claim with
    | some claim =>
      obtain ⟨rfl, hr⟩ := completes_done h₅
      cases hr
      constructor
      · intro p hp
        cases hp
      · intro s hs
        cases hs
    | none =>
      obtain ⟨skip, r₄, rfl, h₆⟩ := completes_call h₅
      cases skip with
      | none => cases (completes_done h₆).2
      | some skip =>
        obtain ⟨s₅, s₆, live, rfl, -, h₇⟩ := completes_task h₆
        have hr := (completes_done h₇).2
        cases live
        · cases hr
        · cases hr
          constructor
          · intro p hp
            cases hp
          · intro s hs
            cases hs
            simp

theorem proper_of_reads {a : Action} (h : a.reads = true) (pre : List (Event Answer)) : Proper w row pre a := by
  apply proper_of_idle
  cases a <;> first | rfl | cases h

theorem guarded_reading {α : Type} {x : Proc α} (h : Reading x) : Guarded (Proper w row) pre x.run :=
  Only.guarded h fun _ _ _ ha => proper_of_reads ha _

theorem ensures_reading {α : Type} {x : Proc α} {f : α → Proc Bool} (hx : Reading x) (h : Early pre)
    (hf : ∀ seg a, Completes x.run seg (.ok a) → Early (pre ++ seg) → Ensures (Proper w row) Ended (pre ++ seg) (f a).run) :
    Ensures (Proper w row) Ended pre (x >>= f).run := by
  apply Ensures.bind_of_completes (guarded_reading hx)
  intro seg r hc
  cases r with
  | ok a => exact hf seg a hc (h.append (early_of_reads (Only.completes hx hc)))
  | error e => exact nofun

theorem attemptsAfter_reads {events : List (Event Answer)} (h : ∀ e ∈ events, e.1.reads = true) :
    attemptsAfter row events = row.attempts := by
  unfold attemptsAfter
  rw [if_neg]
  rw [List.any_eq_true]
  rintro ⟨e, he, hbump⟩
  have hreads := h e he
  obtain ⟨a, r⟩ := e
  cases a <;> cases hbump
  cases hreads

theorem ensures_call {a : Action} {f : Reply a → Proc Bool} (ha : Proper w row pre a)
    (hf : ∀ r, Ensures (Proper w row) Ended (pre ++ [⟨a, .ok r⟩]) (f r).run) :
    Ensures (Proper w row) Ended pre (call a >>= f).run := by
  refine ⟨ha, fun r => ?_⟩
  cases r with
  | ok r => exact hf r
  | error e => exact nofun

theorem ensures_afterHit (hreads : ∀ e ∈ pre, e.1.reads = true) (rerun : Bool) (hit : Hit)
    (hclassify : ∀ p, hit = .classify p → SawClassify row.cid pre)
    (hskip : ∀ s, hit = .skip s → (⟨.skipOf row.cid, .ok (some s)⟩ : Event Answer) ∈ pre) {k : Option Bool → Proc Bool}
    (hnone : ∀ seg, Early (pre ++ seg) → Ensures (Proper w row) Ended (pre ++ seg) (k none).run)
    (hsome : ∀ ended, k (some ended) = pure ended) :
    Ensures (Proper w row) Ended pre (afterHit row.cid rerun hit >>= k).run := by
  have hover (b : Bool) : Over w row (pure (some b) >>= k) := by
    rw [show (pure (some b) >>= k : Proc Bool) = k (some b) from rfl, hsome]
    exact over_pure b
  have hgo : Ensures (Proper w row) Ended pre (k none).run := by
    have h := hnone []
    rw [List.append_nil] at h
    exact h (early_of_reads hreads)
  cases hit with
  | skip s =>
    simp only [afterHit]
    split_ifs
    · exact hgo
    · rw [task_assoc]
      apply ensures_call (proper_of_reads rfl pre)
      intro now
      rw [task_assoc]
      apply ensures_settles rfl _ fun _ => hover true
      refine ⟨rfl, .skipped rfl fun hreason => Or.inl ⟨s, ?_, List.mem_append_left _ (hskip s rfl)⟩⟩
      split_ifs at hreason with hempty
      · exact absurd hreason (by decide)
      · cases hs : s.reason with
        | none =>
          rw [hs] at hempty
          exact absurd rfl hempty
        | some r =>
          rw [hs] at hreason
          exact hreason
  | classify p =>
    simp only [afterHit]
    split_ifs
    · exact hgo
    · rw [task_assoc]
      apply ensures_settles rfl _ fun _ => hover true
      exact ⟨rfl, .indexed (Or.inl (hclassify p rfl))⟩
  | claim claim =>
    simp only [afterHit]
    rw [task_assoc]
    apply ensures_reading (plain_foreignLiveClaim claim).reading (early_of_reads hreads)
    intro seg foreign hc hearly
    have hall : ∀ e ∈ pre ++ seg, e.1.reads = true := by
      intro e he
      exact (List.mem_append.mp he).elim (hreads e) ((plain_foreignLiveClaim claim).reading.completes hc e)
    split_ifs
    · rw [task_assoc]
      apply ensures_settles rfl _ fun _ => hover false
      have hkept := @attemptsAfter_reads row _ hall
      exact ⟨rfl, .left rfl hearly (hkept.trans_le (le_max_left _ _)) (Or.inl hkept)⟩
    · exact hnone seg hearly

theorem ensures_processOne : Ensures (Proper w row) Ended [] (processOne w row).run := by
  unfold processOne
  split_ifs
  · exact ensures_settles rfl (fun c hc => (Option.some.inj hc).symm) fun _ => over_pure true
  · unfold hook
    rw [task_assoc]
    apply ensures_reading (reading_lookupCid w row.cid) fun _ h => absurd h List.not_mem_nil
    intro seg hit hc hearly
    rw [List.nil_append] at hearly ⊢
    cases hit with
    | none => exact ensures_fetchStage hearly
    | some hit =>
      obtain ⟨hclassify, hskip⟩ := lookupCid_saw hc
      have hseg := (reading_lookupCid w row.cid).completes hc
      rw [task_assoc]
      apply ensures_reading (plain_mustClassify row.cid).reading hearly
      intro seg' rerun hc' hearly'
      have hseg' := (plain_mustClassify row.cid).reading.completes hc'
      apply ensures_afterHit
      · intro e he
        exact (List.mem_append.mp he).elim (hseg e) (hseg' e)
      · exact fun p hp => (hclassify p hp).mono fun e he => List.mem_append_left _ he
      · exact fun s hs => List.mem_append_left _ (hskip s hs)
      · exact fun _ => ensures_fetchStage
      · exact fun _ => rfl

def Written (events : List (Event Answer)) : Prop := ∀ e ∈ events, e.1.writes = true → ∃ r, e.2 = .ok r

theorem ensures_attend : Ensures (Proper w row) (fun pre _ => Written pre → Closed pre) [] (attend w row) := by
  apply Ensures.bind
  refine Ensures.mono ensures_processOne fun pre r hr => ?_
  cases r with
  | ok b => exact fun _ => hr b rfl
  | error e =>
    refine ⟨⟨rfl, .restored rfl⟩, fun r hwritten => ?_⟩
    obtain ⟨u, hu⟩ := hwritten _ (List.mem_append_right _ (List.mem_singleton_self _)) rfl
    have hr' : r = .ok u := hu
    rw [hr']
    exact closed_settled pre u rfl

theorem attend_proper (w : Worker) (row : Row) : Guarded (Proper w row) [] (attend w row) := ensures_attend.guarded

theorem attend_closes {events : List (Event Answer)} (h : Completes (attend w row) events ()) (hwritten : Written events) :
    ∃ before a r after, events = before ++ ⟨a, .ok r⟩ :: after ∧ Proper w row before a ∧ a.settles.isSome = true ∧
      ∀ e ∈ after, e.1.leases = true := by
  obtain ⟨hpost, hall⟩ := ensures_attend.completes h
  obtain ⟨before, a, r, after, hsplit, ha, hafter⟩ := hpost hwritten
  exact ⟨before, a, r, after, hsplit, hall before a (.ok r) after hsplit, ha, hafter⟩

end Early

end ObserverClub.Indexer
