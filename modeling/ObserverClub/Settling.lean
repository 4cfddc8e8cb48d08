import ObserverClub.Office

namespace ObserverClub.Indexer

open Library Python Library.Program Fetch Extract

def misled (e : Event Answer) : Bool :=
  e.1.leases && match e.2 with
    | .ok _ => false
    | .error _ => true

def Open (events : List (Event Answer)) : Prop := events.any misled = true ∨ settled events = false

/-- What the worker may do with the row of `cid`. -/
def Orders (cid : Text) (pre : List (Event Answer)) (a : Action) : Prop := ∀ c, a.settles = some c → c = cid ∧ Open pre

def Closing {α : Type} (events : List (Event Answer)) (r : Except Error α) : Prop := ∀ e, r = .error e → Open events

theorem Open.append {pre : List (Event Answer)} (h : Open pre) {e : Event Answer} (he : settling e = false) :
    Open (pre ++ [e]) := by
  obtain h | h := h
  · refine Or.inl ?_
    rw [List.any_append, h, Bool.true_or]
  · refine Or.inr ?_
    rw [settled, List.any_append, ← settled, h, List.any_cons, he]
    rfl

theorem Open.of_misled {pre : List (Event Answer)} {e : Event Answer} (he : misled e = true) : Open (pre ++ [e]) := by
  refine Or.inl ?_
  rw [List.any_append, List.any_cons, he, Bool.true_or, Bool.or_true]

theorem settling_of_none {a : Action} {r : Answer a} (h : a.settles = none) : settling ⟨a, r⟩ = false := by
  rw [settling, h]
  rfl

section Rules

variable {cid : Text} {α β : Type}

def Calm (x : Proc α) : Prop := Only (fun a => a.settles = none) x.run

def Tail (cid : Text) (x : Proc α) : Prop := ∀ pre, Ensures (Orders cid) Closing pre x.run

def Orderly (cid : Text) (x : Proc α) : Prop := ∀ pre, Open pre → Ensures (Orders cid) Closing pre x.run

theorem calm_pure (x : α) : Calm (pure x) := trivial

theorem calm_call {a : Action} (h : a.settles = none) : Calm (call a) := only_call h

theorem calm_bind {x : Proc α} {f : α → Proc β} (hx : Calm x) (hf : ∀ a, Calm (f a)) : Calm (x >>= f) := only_bind hx hf

theorem tail_pure (x : α) : Tail cid (pure x) := fun _ _ h => by cases h

theorem tail_leases {a : Action} {f : Reply a → Proc β} (ha : a.leases = true) (hf : ∀ r, Tail cid (f r)) :
    Tail cid (call a >>= f) := by
  intro pre
  refine ⟨fun c hc => ?_, fun r => ?_⟩
  · cases a <;> cases ha <;> cases hc
  · cases r with
    | ok r => exact hf r _
    | error e =>
      refine fun _ _ => Open.of_misled ?_
      rw [misled, ha]
      rfl

theorem orderly_of_bind {x : Except Error α} {f : α → Proc β} (hf : ∀ a, Orderly cid (f a)) :
    Orderly cid (Task.of x >>= f) := by
  intro pre h
  cases x with
  | ok a => exact hf a pre h
  | error e => exact fun _ _ => h

theorem orderly_bind {x : Proc α} {f : α → Proc β} (hx : Calm x) (hf : ∀ a, Orderly cid (f a)) :
    Orderly cid (x >>= f) := by
  intro pre h
  apply Ensures.bind
  apply hx.ensures h
  · intro pre a _ ha c hc
    rw [ha] at hc
    cases hc
  · exact fun pre a r h ha => h.append (settling_of_none ha)
  · intro pre r h
    cases r with
    | ok a => exact hf a pre h
    | error e => exact fun _ _ => h

theorem orderly_settles {a : Action} {f : Reply a → Proc β} (ha : a.settles = some cid) (hf : ∀ r, Tail cid (f r)) :
    Orderly cid (call a >>= f) := by
  intro pre h
  refine ⟨fun c hc => ⟨Option.some.inj (hc.symm.trans ha), h⟩, fun r => ?_⟩
  cases r with
  | ok r => exact hf r _
  | error e =>
    refine fun _ _ => h.append ?_
    rw [settling, Bool.and_false]

theorem orderly_gives_up {a : Action} {x : β} (ha : a.settles = some cid) : Orderly cid (call a >>= fun _ => pure x) :=
  orderly_settles ha fun _ => tail_pure x

theorem Reading.calm {x : Proc α} (h : Reading x) : Calm x := by
  refine Only.mono h fun a ha => ?_
  cases a <;> first | rfl | cases ha

theorem orderly_ensuring {x : Proc α} (claimed : Bool) (h : Orderly cid x) :
    Orderly cid (x.ensuring (releaseClaim claimed)) := by
  intro pre hpre
  apply Ensures.bind
  refine Ensures.mono (h pre hpre) fun pre r hr => ?_
  cases claimed with
  | false => exact hr
  | true =>
    refine ⟨fun c hc => ?_, fun q e he => (hr e he).append (settling_of_none rfl)⟩
    cases hc

end Rules

section Stages

variable {w : Worker} {row : Row}

theorem tail_claimCleared : Tail row.cid (claimCleared >>= fun _ => pure true) :=
  tail_leases rfl fun _ => tail_pure true

theorem orderly_retryLater (s : Sample) (error : Text) : Orderly row.cid (retryLater row s error) := orderly_gives_up rfl

theorem orderly_skipOutOfScope (s : Sample) {cleared : Proc Unit} (hc : Tail row.cid (cleared >>= fun _ => pure true)) :
    Orderly row.cid (skipOutOfScope row s cleared) := by
  apply orderly_bind (calm_call rfl)
  intro ok
  split_ifs
  · exact orderly_settles rfl fun _ => hc
  · apply orderly_retryLater

theorem calm_publishClassify (payload : Payload) : Calm (publishClassify w row.cid payload) := by
  obtain ⟨field, h⟩ | ⟨e, h⟩ := publishClassify_cases (w := w) row.cid payload
  · rw [h]
    exact calm_call rfl
  · rw [h]
    trivial

theorem orderly_reuse (s : Sample) (fp : Text) (found : Store.Preferred) : Orderly row.cid (reuse w row s fp found) := by
  apply orderly_bind (calm_call rfl)
  intro now
  apply orderly_bind (calm_publishClassify _)
  intro ok
  split_ifs
  · exact orderly_gives_up rfl
  · apply orderly_retryLater

theorem orderly_publishVerdict (s : Sample) (fp : Text) (m : Meta) : Orderly row.cid (publishVerdict w row s fp m) := by
  apply orderly_bind (calm_call rfl)
  intro now
  apply orderly_bind (calm_publishClassify _)
  intro ok
  split_ifs
  · exact orderly_settles rfl fun _ => tail_claimCleared
  · apply orderly_retryLater

theorem orderly_verdict (s : Sample) (fp : Text) (prior : Option Text) (m : Meta) :
    Orderly row.cid (verdict w row s fp prior m) := by
  unfold verdict
  split_ifs
  · exact orderly_bind (calm_call rfl) fun _ => orderly_settles rfl fun _ => tail_claimCleared
  · exact orderly_skipOutOfScope s tail_claimCleared
  · apply orderly_publishVerdict

theorem orderly_judge (s : Sample) (fp : Text) (prior : Option Text) : Orderly row.cid (judge w row s fp prior) := by
  apply orderly_bind (calm_call rfl)
  intro answer
  cases answer with
  | none => apply orderly_retryLater
  | some m => apply orderly_verdict

theorem calm_tryClaim (cid : Text) : Calm (tryClaim w cid) := by
  refine Only.mono (only_tryClaim cid) fun a ha => ?_
  obtain ha | rfl := ha
  · cases a <;> first | rfl | cases ha
  · rfl

theorem orderly_consult (s : Sample) (fp : Text) : Orderly row.cid (consult w row s fp) := by
  apply orderly_bind (calm_call rfl)
  intro prior
  split_ifs
  · exact orderly_skipOutOfScope s (tail_pure true)
  · apply orderly_bind (calm_call rfl)
    intro up
    split_ifs
    · apply orderly_retryLater
    · exact orderly_bind (calm_tryClaim row.cid) fun claimed => orderly_ensuring claimed (orderly_judge s fp prior)

theorem orderly_usableStage (s : Sample) : Orderly row.cid (usableStage w row s) := by
  apply orderly_of_bind
  intro fp
  apply orderly_bind (plain_classifyByTextHash fp).reading.calm
  intro found
  cases found with
  | none => apply orderly_consult
  | some found =>
    apply orderly_bind (plain_mustClassify row.cid).reading.calm
    intro again
    split_ifs
    · apply orderly_consult
    · apply orderly_reuse

theorem orderly_unusableStage (s : Sample) : Orderly row.cid (unusableStage row s) := by
  unfold unusableStage
  split_ifs <;> exact orderly_gives_up rfl

theorem orderly_sampleStage (r : FetchResult) : Orderly row.cid (sampleStage w row r) := by
  apply orderly_of_bind
  intro part
  split_ifs
  · exact orderly_bind (calm_call rfl) fun _ => orderly_gives_up rfl
  · apply orderly_of_bind
    intro doc
    split_ifs
    · apply orderly_unusableStage
    · apply orderly_usableStage

theorem orderly_failedStage (r : FetchResult) : Orderly row.cid (failedStage w row r) := by
  unfold failedStage
  split_ifs <;> exact orderly_gives_up rfl

theorem orderly_directoryStage (r : FetchResult) : Orderly row.cid (directoryStage row r) := by
  unfold directoryStage
  split_ifs
  · exact orderly_bind (calm_call rfl) fun _ => orderly_bind (calm_call rfl) fun _ => orderly_gives_up rfl
  · exact orderly_bind (calm_pure _) fun _ => orderly_bind (calm_call rfl) fun _ => orderly_gives_up rfl

theorem calm_noteFetch (r : FetchResult) : Calm (noteFetch row r) := by
  unfold noteFetch
  split_ifs
  · exact calm_bind (calm_call rfl) fun _ => calm_call rfl
  · exact calm_call rfl

theorem orderly_fetchStage : Orderly row.cid (fetchStage w row) := by
  apply orderly_bind (calm_call rfl)
  intro u
  apply orderly_bind (calm_call rfl)
  intro r
  apply orderly_bind (calm_noteFetch r)
  intro u
  split_ifs
  · apply orderly_directoryStage
  · apply orderly_failedStage
  · apply orderly_sampleStage

theorem orderly_afterHit (rerun : Bool) (hit : Store.Hit) {k : Option Bool → Proc Bool} (hnone : Orderly row.cid (k none))
    (hsome : ∀ ended, k (some ended) = pure ended) : Orderly row.cid (afterHit row.cid rerun hit >>= k) := by
  cases hit with
  | skip s =>
    simp only [afterHit]
    split_ifs
    · exact hnone
    · rw [task_assoc]
      apply orderly_bind (calm_call rfl)
      intro now
      rw [task_assoc]
      apply orderly_settles rfl
      intro u
      rw [show (pure (some true) >>= k : Proc Bool) = k (some true) from rfl, hsome]
      exact tail_pure true
  | classify c =>
    simp only [afterHit]
    split_ifs
    · exact hnone
    · rw [task_assoc]
      apply orderly_settles rfl
      intro u
      rw [show (pure (some true) >>= k : Proc Bool) = k (some true) from rfl, hsome]
      exact tail_pure true
  | claim claim =>
    simp only [afterHit]
    rw [task_assoc]
    apply orderly_bind (plain_foreignLiveClaim claim).reading.calm
    intro foreign
    split_ifs
    · rw [task_assoc]
      apply orderly_settles rfl
      intro u
      rw [show (pure (some false) >>= k : Proc Bool) = k (some false) from rfl, hsome]
      exact tail_pure false
    · exact hnone

theorem orderly_processOne : Orderly row.cid (processOne w row) := by
  unfold processOne
  split_ifs
  · exact orderly_gives_up rfl
  · unfold hook
    rw [task_assoc]
    apply orderly_bind (reading_lookupCid w row.cid).calm
    intro hit
    cases hit with
    | none => exact orderly_fetchStage
    | some hit =>
      rw [task_assoc]
      apply orderly_bind (plain_mustClassify row.cid).reading.calm
      intro rerun
      exact orderly_afterHit rerun hit orderly_fetchStage fun _ => rfl

theorem attend_orders (w : Worker) (row : Row) : Guarded (Orders row.cid) [] (attend w row) := by
  have hdone : Ensures (Orders row.cid) (fun _ _ => True) [] (attend w row) := by
    apply Ensures.bind
    refine Ensures.mono (orderly_processOne [] (Or.inr rfl)) fun pre r hr => ?_
    cases r with
    | ok b => trivial
    | error e => exact ⟨fun c hc => ⟨(Option.some.inj hc).symm, hr e rfl⟩, fun _ => trivial⟩
  exact hdone.guarded

end Stages

end ObserverClub.Indexer
