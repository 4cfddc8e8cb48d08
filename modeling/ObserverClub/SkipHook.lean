import ObserverClub.Parking

namespace ObserverClub.Indexer

open Library Library.Program Python Catalog Store

section Spool

variable (w : Worker)

def trusts (cid : Text) : Option Hit → Proc Bool
  | none => pure false
  | some (.claim _) => pure false
  | some (.classify _) => do
    let again ← mustClassify cid
    return !again
  | some (.skip s) =>
    if pdfDeservesRetry s then pure false
    else do
      let again ← mustClassify cid
      return !again

def settleLookup (cid : Text) : Except Error (Option Hit) → Program Answer (Except Error Bool)
  | .ok hit => (trusts cid hit).run
  | .error .sqliteError => .done (.ok false)
  | .error .integrityError => .done (.ok false)
  | .error e => .done (.error e)

/-- `store.already_catalogued` -/
def alreadyCatalogued (cid : Text) : Proc Bool := ExceptT.mk ((lookupCid w cid).run.bind (settleLookup cid))

end Spool

def Action.ends (cid : Text) : Action → Bool
  | .mark c .indexed _ => c = cid
  | .mark c .skipped _ => c = cid
  | _ => false

def Action.fetches : Action → Bool
  | .fetchCid _ _ _ => true
  | _ => false

/-- The row was marked indexed or skipped, and nothing was fetched. -/
def StopsUnfetched (cid : Text) (events : List (Event Answer)) : Prop :=
  (∃ e ∈ events, e.1.ends cid = true) ∧ ∀ e ∈ events, e.1.fetches = false

section Plays

variable {w : Worker} {row : Row} {cid : Text} {answers : (a : Action) → Answer a}

theorem ends_of_reads {a : Action} (h : a.reads = true) : a.ends cid = false := by
  cases a <;> first | rfl | cases h

theorem fetches_of_reads {a : Action} (h : a.reads = true) : a.fetches = false := by
  cases a <;> first | rfl | cases h

theorem stopsUnfetched_reads {events more : List (Event Answer)} (h : ∀ e ∈ events, e.1.reads = true) :
    StopsUnfetched cid (events ++ more) ↔ StopsUnfetched cid more := by
  constructor
  · rintro ⟨⟨e, he, hend⟩, hall⟩
    obtain he | he := List.mem_append.mp he
    · rw [ends_of_reads (h e he)] at hend
      cases hend
    · exact ⟨⟨e, he, hend⟩, fun e he => hall e (List.mem_append_right _ he)⟩
  · rintro ⟨⟨e, he, hend⟩, hall⟩
    refine ⟨⟨e, List.mem_append_right _ he, hend⟩, fun e he => ?_⟩
    exact (List.mem_append.mp he).elim (fun he => fetches_of_reads (h e he)) (hall e)

theorem not_stopsUnfetched_reads {events : List (Event Answer)} (h : ∀ e ∈ events, e.1.reads = true) :
    ¬StopsUnfetched cid events := by
  rw [← List.append_nil events, stopsUnfetched_reads h]
  rintro ⟨⟨e, he, -⟩, -⟩
  cases he

theorem play_ok {α β : Type} {x : Proc α} {f : α → Proc β} {a : α} (h : outcome answers x.run = .ok a) :
    play answers (x >>= f).run = play answers x.run ++ play answers (f a).run := by
  apply (play_bind answers x.run _).trans
  rw [h]
  rfl

theorem play_error {α β : Type} {x : Proc α} {f : α → Proc β} {e : Error} (h : outcome answers x.run = .error e) :
    play answers (x >>= f).run = play answers x.run := by
  apply (play_bind answers x.run _).trans
  rw [h]
  exact List.append_nil _

theorem outcome_error {α β : Type} {x : Proc α} {f : α → Proc β} {e : Error} (h : outcome answers x.run = .error e) :
    outcome answers (x >>= f).run = .error e := by
  apply (outcome_bind answers x.run _).trans
  rw [h]
  rfl

theorem play_reads {α : Type} {x : Proc α} (answers : (a : Action) → Answer a) (h : Reading x) :
    ∀ e ∈ play answers x.run, e.1.reads = true :=
  h.completes (completes_play answers x.run)

theorem play_call_ok {α : Type} {a : Action} {f : Reply a → Proc α} {r : Reply a} (h : answers a = .ok r) :
    play answers (call a >>= f).run = ⟨a, answers a⟩ :: play answers (f r).run :=
  play_ok (x := call a) h

theorem play_call_error {α : Type} {a : Action} {f : Reply a → Proc α} {e : Error} (h : answers a = .error e) :
    play answers (call a >>= f).run = [⟨a, answers a⟩] := play_error (x := call a) h

theorem not_stopsUnfetched_fetchStage : ¬StopsUnfetched cid (play answers (fetchStage w row).run) := by
  rintro ⟨⟨e, he, hend⟩, hall⟩
  cases hb : answers (.bumpAttempts row.cid (row.attempts + 1)) with
  | error err =>
    rw [fetchStage, play_call_error hb, List.mem_singleton] at he
    rw [he] at hend
    cases hend
  | ok u =>
    cases hf : answers (.fetchCid row.cid row.codec row.attempts) with
    | error err =>
      rw [fetchStage, play_call_ok hb, play_call_error hf] at hall
      cases hall _ (List.mem_cons_of_mem _ List.mem_cons_self)
    | ok r =>
      rw [fetchStage, play_call_ok hb, play_call_ok hf] at hall
      cases hall _ (List.mem_cons_of_mem _ List.mem_cons_self)

/-- What the lookup and `must_classify` make of a row at the hook. -/
def Stopped (answers : (a : Action) → Answer a) (w : Worker) (cid : Text) : Prop :=
  outcome answers (mustClassify cid).run = .ok false ∧
    ((∃ p, outcome answers (lookupCid w cid).run = .ok (some (.classify p))) ∨
      ∃ s, outcome answers (lookupCid w cid).run = .ok (some (.skip s)) ∧ pdfDeservesRetry s = false)

theorem outcome_not_again {again : Except Error Bool} (h : outcome answers (mustClassify cid).run = again) :
    outcome answers (mustClassify cid >>= fun again => pure !again : Proc Bool).run = .ok true ↔ again = .ok false := by
  cases again with
  | error e =>
    rw [outcome_error h]
    exact iff_of_false nofun nofun
  | ok b =>
    rw [outcome_task h]
    cases b
    · exact iff_of_true rfl rfl
    · exact iff_of_false nofun nofun

theorem alreadyCatalogued_iff : outcome answers (alreadyCatalogued w cid).run = .ok true ↔ Stopped answers w cid := by
  have hrun : outcome answers (alreadyCatalogued w cid).run =
      outcome answers (settleLookup cid (outcome answers (lookupCid w cid).run)) := outcome_bind answers _ _
  rw [hrun]
  unfold Stopped
  cases hlookup : outcome answers (lookupCid w cid).run with
  | error e =>
    apply iff_of_false
    · cases e <;> exact nofun
    · rintro ⟨-, ⟨p, h⟩ | ⟨s, h, -⟩⟩ <;> cases h
  | ok hit =>
    cases hit with
    | none =>
      apply iff_of_false
      · exact nofun
      · rintro ⟨-, ⟨p, h⟩ | ⟨s, h, -⟩⟩ <;> cases h
    | some hit =>
      cases hit with
      | classify p =>
        apply (outcome_not_again rfl).trans
        exact ⟨fun h => ⟨h, Or.inl ⟨p, rfl⟩⟩, fun h => h.1⟩
      | claim claim =>
        apply iff_of_false
        · exact nofun
        · rintro ⟨-, ⟨p, h⟩ | ⟨s, h, -⟩⟩ <;> cases h
      | skip skip =>
        by_cases hpdf : pdfDeservesRetry skip = true
        · have hfalse : outcome answers (trusts cid (some (.skip skip))).run = .ok false := by
            rw [trusts, if_pos hpdf]
            rfl
          apply iff_of_false
          · rw [settleLookup, hfalse]
            exact nofun
          · rintro ⟨-, ⟨p, h⟩ | ⟨s, h, hs⟩⟩
            · cases h
            · cases h
              exact absurd hpdf (by rw [hs]; exact Bool.false_ne_true)
        · rw [settleLookup, trusts, if_neg hpdf]
          apply (outcome_not_again rfl).trans
          exact ⟨fun h => ⟨h, Or.inr ⟨skip, rfl, Bool.eq_false_iff.mpr hpdf⟩⟩, fun h => h.1⟩

def afterHook (w : Worker) (row : Row) : Option Bool → Proc Bool
  | some ended => pure ended
  | none => fetchStage w row

theorem processOne_valid (hvalid : Cid.valid w.observer.upper (.str row.cid) = true) :
    processOne w row = hook w row.cid >>= afterHook w row := by
  have hif : ¬(!Cid.valid w.observer.upper (.str row.cid)) = true := by
    rw [hvalid]
    exact Bool.false_ne_true
  rw [processOne, if_neg hif]
  apply congrArg
  funext ended
  cases ended <;> rfl

theorem play_call_pure {α : Type} {a : Action} {f : Reply a → Proc α} {x : α} (hf : ∀ r, f r = pure x) :
    play answers (call a >>= f).run = [⟨a, answers a⟩] := by
  cases h : answers a with
  | error e => exact (play_call_error h).trans (by rw [h])
  | ok r => rw [play_call_ok h, hf, h]; rfl

theorem stopsUnfetched_mark {a : Action} {f : Reply a → Proc Bool} {b : Bool} (ha : a.ends cid = true)
    (hf : ∀ r, f r = pure b) : StopsUnfetched cid (play answers (call a >>= f).run) := by
  rw [play_call_pure hf]
  refine ⟨⟨_, List.mem_singleton_self _, ha⟩, fun e he => ?_⟩
  rw [List.mem_singleton.mp he]
  cases a <;> first | rfl | cases ha

theorem stopsUnfetched_afterHit {now : ℚ} (hclock : answers .clock = .ok now) (again : Bool) (hit : Hit) :
    StopsUnfetched row.cid (play answers (afterHit row.cid again hit >>= afterHook w row).run) ↔
      again = false ∧ ((∃ p, hit = .classify p) ∨ ∃ s, hit = .skip s ∧ pdfDeservesRetry s = false) := by
  cases hit with
  | skip s =>
    by_cases hgo : again = true ∨ pdfDeservesRetry s = true
    · rw [afterHit, if_pos hgo]
      apply iff_of_false not_stopsUnfetched_fetchStage
      rintro ⟨rfl, ⟨p, h⟩ | ⟨s', h, hs⟩⟩
      · cases h
      · cases h
        rw [hs] at hgo
        exact hgo.elim Bool.false_ne_true Bool.false_ne_true
    · rw [afterHit, if_neg hgo, task_assoc, play_call_ok hclock, ← List.singleton_append, task_assoc]
      rw [not_or, Bool.not_eq_true, Bool.not_eq_true] at hgo
      refine iff_of_true ?_ ⟨hgo.1, Or.inr ⟨s, rfl, hgo.2⟩⟩
      apply (stopsUnfetched_reads _).mpr
      · exact stopsUnfetched_mark (decide_eq_true rfl) fun _ => rfl
      · intro e he
        rw [List.mem_singleton.mp he]
        rfl
  | classify p =>
    cases again with
    | true =>
      apply iff_of_false not_stopsUnfetched_fetchStage
      exact fun h => Bool.false_ne_true h.1.symm
    | false =>
      refine iff_of_true ?_ ⟨rfl, Or.inl ⟨p, rfl⟩⟩
      rw [afterHit, if_neg Bool.false_ne_true, task_assoc]
      exact stopsUnfetched_mark (decide_eq_true rfl) fun _ => rfl
  | claim claim =>
    have hreads := play_reads answers (plain_foreignLiveClaim claim).reading
    apply iff_of_false _ (by rintro ⟨-, ⟨p, h⟩ | ⟨s, h, -⟩⟩ <;> cases h)
    rw [afterHit, task_assoc]
    cases hforeign : outcome answers (foreignLiveClaim claim).run with
    | error e =>
      rw [play_error hforeign]
      exact not_stopsUnfetched_reads hreads
    | ok foreign =>
      rw [play_ok hforeign, stopsUnfetched_reads hreads]
      cases foreign with
      | true =>
        rw [if_pos rfl, task_assoc, play_call_pure (x := false)]
        · rintro ⟨⟨e, he, hend⟩, -⟩
          rw [List.mem_singleton.mp he] at hend
          cases hend
        · exact fun _ => rfl
      | false => exact not_stopsUnfetched_fetchStage

theorem stopsUnfetched_processOne (hvalid : Cid.valid w.observer.upper (.str row.cid) = true) {now : ℚ}
    (hclock : answers .clock = .ok now) :
    StopsUnfetched row.cid (play answers (processOne w row).run) ↔ Stopped answers w row.cid := by
  rw [processOne_valid hvalid, hook, task_assoc]
  have hreads := play_reads answers (reading_lookupCid w row.cid)
  unfold Stopped
  cases hlookup : outcome answers (lookupCid w row.cid).run with
  | error e =>
    rw [play_error hlookup]
    apply iff_of_false (not_stopsUnfetched_reads hreads)
    rintro ⟨-, ⟨p, h⟩ | ⟨s, h, -⟩⟩ <;> cases h
  | ok hit =>
    rw [play_ok hlookup, stopsUnfetched_reads hreads]
    cases hit with
    | none =>
      apply iff_of_false not_stopsUnfetched_fetchStage
      rintro ⟨-, ⟨p, h⟩ | ⟨s, h, -⟩⟩ <;> cases h
    | some hit =>
      have hmust := play_reads answers (plain_mustClassify row.cid).reading
      dsimp only
      rw [task_assoc]
      cases hagain : outcome answers (mustClassify row.cid).run with
      | error e =>
        rw [play_error hagain]
        exact iff_of_false (not_stopsUnfetched_reads hmust) fun h => by cases h.1
      | ok again =>
        rw [play_ok hagain, stopsUnfetched_reads hmust, stopsUnfetched_afterHit hclock, Except.ok.injEq]
        simp only [Except.ok.injEq, Option.some.injEq]

end Plays

end ObserverClub.Indexer

namespace ObserverClub.Office

open Library Library.Program Python Indexer Catalog Store

variable {w : Worker} {cfg : Work.Config} {world : World} {t : Catalog.Tables}

/-- At spool ingest a CID counts as catalogued exactly where the worker would stop on it, on a classify or on a skip. -/
theorem catalogued_iff_stops (w : Worker) (cfg : Work.Config) (world : World) (t : Catalog.Tables) (row : Row)
    (hvalid : Cid.valid w.observer.upper (.str row.cid) = true) :
    outcome (answersOf w cfg world t) (alreadyCatalogued w row.cid).run = .ok true ↔
      StopsUnfetched row.cid (play (answersOf w cfg world t) (processOne w row).run) := by
  have hclock : answersOf w cfg world t .clock = .ok (world.external .clock) := rfl
  rw [alreadyCatalogued_iff, stopsUnfetched_processOne hvalid hclock]

theorem skippedPage_stops :
    outcome (answersOf reviewedWorker {} calm skippedPage) (alreadyCatalogued reviewedWorker pageCid).run = .ok true ∧
      StopsUnfetched pageCid (play (answersOf reviewedWorker {} calm skippedPage) (processOne reviewedWorker pageRow).run) :=
  have hcatalogued : outcome (answersOf reviewedWorker {} calm skippedPage) (alreadyCatalogued reviewedWorker pageCid).run =
      .ok true := by decide +kernel
  ⟨hcatalogued, (catalogued_iff_stops reviewedWorker {} calm skippedPage pageRow (by decide +kernel)).mp hcatalogued⟩

end ObserverClub.Office
