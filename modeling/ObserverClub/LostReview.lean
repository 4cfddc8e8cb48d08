import ObserverClub.Exclusive

namespace ObserverClub.Office

open Library Library.Program Python Indexer Catalog Store

variable {w : Worker} {cfg : Work.Config}

/-- The CID waits for a second opinion. -/
def Requested (t : Work.Tables) (cid : Text) : Prop :=
  ∃ r, Table.row? Work.Queued.cid cid t.cids = some r ∧ r.status = .discovered ∧ r.source = Work.report

/-- The catalog once the message is taken in. -/
def ingested (o : Observer) (surroundings : Surroundings) (obj : Value) (t : Catalog.Tables) : Catalog.Tables :=
  (ingestMessage o surroundings obj ⟨t, none⟩).2.view

/-- The ingest thread: the message, then the review it leads to. -/
def reviewThread (o : Observer) (surroundings : Surroundings) (obj : Value) (t : Catalog.Tables) (cid : Text)
    (me : Option Text) (now : ℚ) : List Turn :=
  [.gossip (ingested o surroundings obj t), .review cid me now]

/-- A turn of any other than worker `i`. -/
def others (i : ℕ) : Turn → Bool
  | .act j _ => j ≠ i
  | _ => true

/-- What worker `i` has done with its row so far. -/
def record (s : Office) (i : ℕ) : List (Event Answer) := ((s.jobs i).map Job.events).getD []

/-- All that was done is a run of the skip-hook that ends the call. -/
def Stops (w : Worker) (cid : Text) (events : List (Event Answer)) : Prop :=
  ∃ b, Completes (hook w cid).run events (.ok (some b))

def Finished (s : Office) (i : ℕ) : Prop := ∃ job, s.jobs i = some job ∧ job.rest.result.isSome = true

/-- A review is asked for when the worker is through with its row. -/
def AfterWorker (i : ℕ) (s : Office) : Turn → Prop
  | .review _ _ _ => Finished s i
  | _ => True

section Rows

variable {t : Work.Tables} {cid : Text}

theorem row?_update {f : Work.Queued → Work.Queued} (hf : ∀ r, (f r).cid = r.cid) :
    Table.row? Work.Queued.cid cid ((Work.update (fun r => r.cid = cid) f).run t).2.cids =
      (Table.row? Work.Queued.cid cid t.cids).map f := by
  change (t.cids.map fun r => if decide (r.cid = cid) = true then f r else r).find? (fun r => r.cid = cid) =
    (t.cids.find? fun r => r.cid = cid).map f
  have hkey : ((fun r : Work.Queued => decide (r.cid = cid)) ∘ fun r => if decide (r.cid = cid) = true then f r else r) =
      fun r => decide (r.cid = cid) := by
    funext r
    rw [Function.comp_apply]
    split_ifs
    · rw [hf]
    · rfl
  rw [List.find?_map, hkey]
  cases hrow : t.cids.find? fun r => r.cid = cid with
  | none => rfl
  | some r => rw [Option.map_some, Option.map_some, if_pos (List.find?_some hrow)]

theorem requested_enqueueReview (upper : Text → Text) (now : ℚ) (hvalid : Cid.valid upper (.str cid) = true) :
    Requested ((Work.enqueueReview cfg upper false cid now).run t).2 cid := by
  have hrow := @row?_update t cid (Work.reviewed (now - cfg.minAgeSeconds - 1) now) fun _ => rfl
  unfold Work.enqueueReview
  rw [hvalid]
  have hif : ¬((!true) = true ∨ false = true) := by decide
  rw [if_neg hif, StateT.run_bind]
  cases hu : (Work.update (fun r => r.cid = cid) (Work.reviewed (now - cfg.minAgeSeconds - 1) now)).run t with
  | mk n t' =>
    rw [hu] at hrow
    have hn : n = t.cids.countP fun r => r.cid = cid := (congrArg Prod.fst hu).symm
    change Requested ((if n = 0 then _ else _ : Work.Op Bool).run t').2 cid
    cases hr : Table.row? Work.Queued.cid cid t.cids with
    | none =>
      have hzero : n = 0 := by
        rw [hn, List.countP_eq_zero]
        exact fun r hmem hrc => Table.row?_eq_none.mp hr r hmem (of_decide_eq_true hrc)
      rw [hr] at hrow
      rw [if_pos hzero]
      refine ⟨Work.asked cfg upper cid Work.report none now, ?_, rfl, rfl⟩
      change Table.row? Work.Queued.cid cid (t'.cids ++ [_]) = _
      rw [Table.row?_append, hrow, Option.map_none, Option.none_or]
      exact List.find?_cons_of_pos (decide_eq_true rfl)
    | some r =>
      obtain ⟨hmem, hrc⟩ := Table.row?_some hr
      have hpos : n ≠ 0 := by
        rw [hn]
        exact fun hzero => List.countP_eq_zero.mp hzero r hmem (decide_eq_true hrc)
      rw [hr] at hrow
      rw [if_neg hpos]
      exact ⟨_, hrow, rfl, rfl⟩

theorem requested_mark {status : Status} {columns : Columns} (h : Requested t cid) :
    Requested ((Work.mark cid status columns).run t).2 cid ↔ status = .discovered := by
  obtain ⟨r, hr, -, hsource⟩ := h
  have hrow : Table.row? Work.Queued.cid cid ((Work.mark cid status columns).run t).2.cids =
      some (Work.Columns.write columns status r) := by
    have hupdate := @row?_update t cid (Work.Columns.write columns status) fun _ => rfl
    rw [hr] at hupdate
    exact hupdate
  constructor
  · rintro ⟨q, hq, hstatus, -⟩
    cases hrow.symm.trans hq
    exact hstatus
  · intro hstatus
    exact ⟨_, hrow, hstatus, hsource⟩

end Rows

section Schedules

variable {s : Office} {i : ℕ}

def noted (t : Work.Tables) : Event Answer → Work.Tables
  | ⟨.mark cid status columns, .ok _⟩ => ((Work.mark cid status columns).run t).2
  | _ => t

theorem noted_of_reads (t : Work.Tables) (e : Event Answer) (h : e.1.reads = true) : noted t e = t := by
  obtain ⟨a, r⟩ := e
  cases a <;> first | rfl | cases h

theorem foldl_noted_reads (t : Work.Tables) (events : List (Event Answer)) (h : ∀ e ∈ events, e.1.reads = true) :
    events.foldl noted t = t := by
  induction events with
  | nil => rfl
  | cons e events ih =>
    rw [List.forall_mem_cons] at h
    rw [List.foldl_cons, noted_of_reads t e h.1]
    exact ih h.2

def hooked (a : Action) : Bool :=
  a.reads || match a with
    | .mark _ _ _ => true
    | _ => false

theorem serve_noted {world : World} {a : Action} (h : hooked a = true) :
    (serve w cfg world s a).2.queue = noted s.queue ⟨a, (serve w cfg world s a).1⟩ := by
  obtain ⟨op, hop, hserve⟩ | ⟨hserve, herr⟩ := serve_cases w cfg world s a
  · rw [hserve]
    cases a <;> cases h <;> cases hop
    rfl
  · rw [hserve]
    cases a <;> cases h <;> first | rfl | skip
    obtain ⟨e, he⟩ := herr rfl
    rw [he]
    rfl

theorem serve_catalog {world : World} {a : Action} : (serve w cfg world s a).2.catalog = s.catalog := by
  obtain ⟨op, -, hserve⟩ | ⟨hserve, -⟩ := serve_cases w cfg world s a <;> rw [hserve]

/-- While only worker `i` is at work, its record grows, and that is all that happens to the queue. -/
theorem acts_run (turns : List Turn) (hturns : ∀ turn ∈ turns, others i turn = false) {job : Job}
    (hjob : s.jobs i = some job) :
    ∃ more rest, (run (step w cfg) s turns).jobs i = some ⟨job.row, job.events ++ more, rest⟩ ∧
      (run (step w cfg) s turns).catalog = s.catalog ∧ (more = [] → rest = job.rest) ∧
      (job.rest.result.isSome = true → more = []) ∧
      ((∀ e ∈ more, hooked e.1 = true) → (run (step w cfg) s turns).queue = more.foldl noted s.queue) := by
  induction turns generalizing s job with
  | nil => exact ⟨[], job.rest, by rw [List.append_nil]; exact hjob, rfl, fun _ => rfl, fun _ => rfl, fun _ => rfl⟩
  | cons turn turns ih =>
    rw [List.forall_mem_cons] at hturns
    cases turn with
    | act j world =>
      have hj : j = i := not_not.mp (of_decide_eq_false hturns.1)
      subst hj
      obtain ⟨row, events, rest⟩ := job
      cases rest with
      | done u =>
        have hstep : step w cfg s (.act j world) = s := by
          rw [step, act, hjob]
        rw [run_cons, hstep]
        exact ih hturns.2 hjob
      | act a next =>
        have hstep : step w cfg s (.act j world) =
            ⟨(serve w cfg world s a).2.catalog, (serve w cfg world s a).2.queue, Function.update s.jobs j
              (some ⟨row, events ++ [⟨a, (serve w cfg world s a).1⟩], next (serve w cfg world s a).1⟩)⟩ := by
          rw [step, act, hjob]
        have hj : (step w cfg s (.act j world)).jobs j =
            some ⟨row, events ++ [⟨a, (serve w cfg world s a).1⟩], next (serve w cfg world s a).1⟩ := by
          rw [hstep]
          exact Function.update_self ..
        obtain ⟨more, rest, hmore, hcat, -, -, hqueue⟩ := ih hturns.2 hj
        rw [hstep] at hcat hqueue
        refine ⟨⟨a, (serve w cfg world s a).1⟩ :: more, rest, ?_, ?_, fun h => absurd h (List.cons_ne_nil _ _),
          fun h => absurd h Bool.false_ne_true, fun hall => ?_⟩
        · rw [run_cons, hmore, List.append_assoc]
          rfl
        · rw [run_cons, hstep]
          exact hcat.trans serve_catalog
        · rw [List.forall_mem_cons] at hall
          rw [run_cons, hstep, hqueue hall.2, List.foldl_cons, ← serve_noted hall.1]
    | take j now => cases hturns.1
    | review c me now => cases hturns.1
    | sight sighting now => cases hturns.1
    | prune now now' => cases hturns.1
    | expire now => cases hturns.1
    | gossip catalog => cases hturns.1

theorem hooked_of_marks {cid : Text} {status : Status} {events reads : List (Event Answer)}
    (hm : Marks cid status events reads) (hreads : ∀ e ∈ reads, e.1.reads = true) : ∀ e ∈ events, hooked e.1 = true := by
  obtain ⟨columns, rfl⟩ := hm
  intro e he
  obtain he | he := List.mem_append.mp he
  · exact Bool.or_eq_true_iff.mpr (Or.inl (hreads e he))
  · rw [List.mem_singleton.mp he]
    rfl

theorem foundClaim_marks {cid : Text} {status : Status} {events reads : List (Event Answer)}
    (hm : Marks cid status events reads) : FoundClaim events ↔ FoundClaim reads := by
  obtain ⟨columns, rfl⟩ := hm
  rw [foundClaim_append, or_iff_left]
  rintro ⟨cid, now, me, claim, hmem⟩
  cases List.mem_singleton.mp hmem

theorem foldl_noted_suffix {cid : Text} {status : Status} {events reads before more : List (Event Answer)}
    (hm : Marks cid status events reads) (hreads : ∀ e ∈ reads, e.1.reads = true) (hsplit : events = before ++ more)
    (hmore : more ≠ []) : ∃ columns, ∀ t, more.foldl noted t = ((Work.mark cid status columns).run t).2 := by
  obtain ⟨columns, rfl⟩ := hm
  obtain ⟨rest, last, rfl⟩ := List.eq_nil_or_concat more |>.resolve_left hmore
  rw [List.concat_eq_append, ← List.append_assoc] at hsplit
  obtain ⟨hfront, hlast⟩ := List.append_inj' hsplit rfl
  refine ⟨columns, fun t => ?_⟩
  have hrest : ∀ e ∈ rest, e.1.reads = true := fun e he => hreads e (by rw [hfront]; exact List.mem_append_right _ he)
  rw [List.concat_eq_append, List.foldl_append, foldl_noted_reads t rest hrest, ← hlast]
  rfl

theorem along_acts {turns : List Turn} (hturns : ∀ turn ∈ turns, others i turn = false) (s : Office) :
    Along (step w cfg) (AfterWorker i) s turns := by
  apply along_of_forall
  intro turn hturn s
  cases turn with
  | review c me now => cases hturns _ hturn
  | _ => trivial

/-- A review survives the worker that the skip-hook stops, on what it read before, exactly if it is asked for
when the worker is through, or what the worker came upon is another node's claim. -/
theorem review_survives_iff (w : Worker) (cfg : Work.Config) (s : Office) (i : ℕ) (row : Row)
    (hjob : s.jobs i = some (Job.start w row)) (hvalid : Cid.valid w.observer.upper (.str row.cid) = true)
    (surroundings : Surroundings) (obj : Value) (me : Option Text) (now : ℚ)
    (hmine : localClassified me (ingested w.observer surroundings obj s.catalog) row.cid = false) (schedule : List Turn)
    (hthreads : schedule.filter (others i) = reviewThread w.observer surroundings obj s.catalog row.cid me now)
    (hdone : Finished (run (step w cfg) s schedule) i) (hstop : Stops w row.cid (record (run (step w cfg) s schedule) i)) :
    Requested (run (step w cfg) s schedule).queue row.cid ↔
      Along (step w cfg) (AfterWorker i) s schedule ∨ FoundClaim (record (run (step w cfg) s schedule) i) := by
  obtain ⟨b, hstop⟩ := hstop
  obtain ⟨reads, status, hmarks, hreads, hstatus⟩ := hook_stops hstop
  rw [foundClaim_marks hmarks, ← hstatus]
  obtain ⟨acts₁, rest₁, rfl, hacts₁, -, hfilter₁⟩ := List.filter_eq_cons_iff.mp hthreads
  obtain ⟨acts₂, acts₃, rfl, hacts₂, -, hfilter₂⟩ := List.filter_eq_cons_iff.mp hfilter₁
  simp only [Bool.not_eq_true] at hacts₁ hacts₂
  have hacts₃ (turn : Turn) (hturn : turn ∈ acts₃) : others i turn = false :=
    Bool.eq_false_iff.mpr (List.filter_eq_nil_iff.mp hfilter₂ turn hturn)
  -- The worker up to the message, from there to the review, and after it.
  obtain ⟨more₁, rest₁, hjob₁, -, -, -, -⟩ := acts_run (w := w) acts₁ hacts₁ hjob
  have hjob₁' : (step w cfg (run (step w cfg) s acts₁)
      (.gossip (ingested w.observer surroundings obj s.catalog))).jobs i = some ⟨row, [] ++ more₁, rest₁⟩ := hjob₁
  obtain ⟨more₂, rest₂, hjob₂, hcat₂, -, -, -⟩ := acts_run acts₂ hacts₂ hjob₁'
  generalize hs₃ : run (step w cfg) (step w cfg (run (step w cfg) s acts₁)
    (.gossip (ingested w.observer surroundings obj s.catalog))) acts₂ = s₃ at hjob₂ hcat₂
  have hjob₂' : (step w cfg s₃ (.review row.cid me now)).jobs i = some ⟨row, [] ++ more₁ ++ more₂, rest₂⟩ := hjob₂
  obtain ⟨more₃, rest₃, hjob₃, -, hkeep₃, hover₃, hqueue₃⟩ := acts_run acts₃ hacts₃ hjob₂'
  rw [run_append, run_cons, run_append, hs₃, run_cons] at hdone hmarks ⊢
  have hevents : record (run (step w cfg) (step w cfg s₃ (.review row.cid me now)) acts₃) i =
      [] ++ more₁ ++ more₂ ++ more₃ := by
    rw [record, hjob₃]
    rfl
  rw [hevents] at hmarks
  have hreview : Requested (step w cfg s₃ (.review row.cid me now)).queue row.cid := by
    rw [step, hcat₂]
    change Requested ((Work.enqueueReview cfg w.observer.upper
      (localClassified me (ingested w.observer surroundings obj s.catalog) row.cid) row.cid now).run s₃.queue).2 row.cid
    rw [hmine]
    exact requested_enqueueReview w.observer.upper now hvalid
  have halong : Along (step w cfg) (AfterWorker i) s (acts₁ ++ .gossip (ingested w.observer surroundings obj s.catalog) ::
      (acts₂ ++ .review row.cid me now :: acts₃)) ↔ Finished s₃ i := by
    rw [along_append, Along, along_append, hs₃, Along]
    exact ⟨fun h => h.2.2.2.1, fun h => ⟨along_acts hacts₁ _, trivial, along_acts hacts₂ _, h, along_acts hacts₃ _⟩⟩
  rw [halong]
  have hhooked := hooked_of_marks hmarks hreads
  rw [hqueue₃ fun e he => hhooked e (List.mem_append_right _ he)]
  by_cases hnone : more₃ = []
  · subst hnone
    obtain ⟨job, hj, hres⟩ := hdone
    cases hjob₃.symm.trans hj
    rw [hkeep₃ rfl] at hres
    exact iff_of_true hreview (Or.inl ⟨_, hjob₂, hres⟩)
  · have hnot : ¬Finished s₃ i := by
      rintro ⟨job, hj, hres⟩
      cases hjob₂.symm.trans hj
      exact hnone (hover₃ hres)
    obtain ⟨columns, hlast⟩ := foldl_noted_suffix hmarks hreads rfl hnone
    rw [hlast, requested_mark hreview, or_iff_right hnot]

end Schedules

section Ends

variable {s : Office} {i : ℕ} {row : Row} {events : List (Event Answer)}

/-- A turn that hands worker `i` no new row. -/
def keepsRow (i : ℕ) : Turn → Bool
  | .take j _ => j ≠ i
  | _ => true

theorem completes_step {turn : Turn} (hturn : keepsRow i turn = true) {job : Job} (hjob : s.jobs i = some job) :
    ∃ job', (step w cfg s turn).jobs i = some job' ∧ ∃ more, job'.events = job.events ++ more ∧
      ∀ seg, Completes job'.rest seg () → Completes job.rest (more ++ seg) () := by
  have hstay : ∃ more, job.events = job.events ++ more ∧
      ∀ seg, Completes job.rest seg () → Completes job.rest (more ++ seg) () :=
    ⟨[], (List.append_nil _).symm, fun _ h => h⟩
  cases turn with
  | take j now =>
    have hj : i ≠ j := fun h => of_decide_eq_true hturn h.symm
    rw [step]
    split_ifs
    · exact ⟨job, (Function.update_of_ne hj _ _).trans hjob, hstay⟩
    · exact ⟨job, hjob, hstay⟩
  | act j world =>
    by_cases hj : i = j
    · subst hj
      obtain ⟨row, events, rest⟩ := job
      rw [step, act, hjob]
      cases rest with
      | done u => exact ⟨_, hjob, hstay⟩
      | act a next =>
        refine ⟨_, Function.update_self .., [⟨a, (serve w cfg world s a).1⟩], rfl, fun seg h => ?_⟩
        exact .act _ h
    · refine ⟨job, ?_, hstay⟩
      rw [step, act]
      split
      · exact (Function.update_of_ne hj _ _).trans hjob
      · exact hjob
  | review c me now => exact ⟨job, hjob, hstay⟩
  | sight sighting now => exact ⟨job, hjob, hstay⟩
  | prune now now' => exact ⟨job, hjob, hstay⟩
  | expire now => exact ⟨job, hjob, hstay⟩
  | gossip catalog => exact ⟨job, hjob, hstay⟩

theorem completes_run (turns : List Turn) (hturns : ∀ turn ∈ turns, keepsRow i turn = true) {job : Job}
    (hjob : s.jobs i = some job) :
    ∃ job', (run (step w cfg) s turns).jobs i = some job' ∧ ∃ more, job'.events = job.events ++ more ∧
      ∀ seg, Completes job'.rest seg () → Completes job.rest (more ++ seg) () := by
  induction turns generalizing s job with
  | nil => exact ⟨job, hjob, [], (List.append_nil _).symm, fun _ h => h⟩
  | cons turn turns ih =>
    rw [List.forall_mem_cons] at hturns
    obtain ⟨job₁, hjob₁, more₁, hevents₁, hrest₁⟩ := completes_step (w := w) hturns.1 hjob
    obtain ⟨job₂, hjob₂, more₂, hevents₂, hrest₂⟩ := ih hturns.2 hjob₁
    refine ⟨job₂, hjob₂, more₁ ++ more₂, ?_, fun seg h => ?_⟩
    · rw [hevents₂, hevents₁, List.append_assoc]
    · rw [List.append_assoc]
      exact hrest₁ _ (hrest₂ _ h)

theorem completes_of_finished {turns : List Turn} (hturns : ∀ turn ∈ turns, keepsRow i turn = true)
    (hjob : s.jobs i = some (Job.start w row)) (h : Finished (run (step w cfg) s turns) i) :
    Completes (attend w row) (record (run (step w cfg) s turns) i) () := by
  obtain ⟨job, hj, hdone⟩ := h
  obtain ⟨job', hjob', more, hevents, hrest⟩ := completes_run (w := w) turns hturns hjob
  cases hj.symm.trans hjob'
  have hall : record (run (step w cfg) s turns) i = more := by
    rw [record, hj]
    exact hevents
  rw [hall, ← List.append_nil more]
  apply hrest
  cases hr : job.rest with
  | done u => exact .done u
  | act a next =>
    rw [hr] at hdone
    cases hdone

def goesOn : Action → Bool
  | .bumpAttempts _ _ => true
  | .mark _ _ columns => columns.attempts.isSome
  | _ => false

theorem stops_of_completes (hvalid : Cid.valid w.observer.upper (.str row.cid) = true)
    (h : Completes (attend w row) events ()) (hno : events.all (fun e => !goesOn e.1) = true) :
    Stops w row.cid events := by
  rw [List.all_eq_true] at hno
  obtain ⟨s₁, s₂, r, rfl, h₁, h₂⟩ := completes_bind h
  cases r with
  | error e =>
    -- The row goes back with its attempts.
    cases h₂ with
    | act r h₃ =>
      have hback := hno _ (List.mem_append_right _ List.mem_cons_self)
      cases hback
  | ok b =>
    obtain ⟨rfl, -⟩ := completes_done h₂
    rw [List.append_nil] at hno ⊢
    rw [processOne, hvalid] at h₁
    obtain ⟨s₃, s₄, ended, rfl, h₃, h₄⟩ := completes_task h₁
    cases ended with
    | some ended =>
      obtain ⟨rfl, -⟩ := completes_done h₄
      rw [List.append_nil]
      exact ⟨ended, h₃⟩
    | none =>
      obtain ⟨u, r₁, rfl, -⟩ := completes_call h₄
      have hfetch := hno _ (List.mem_append_right _ List.mem_cons_self)
      cases hfetch

end Ends

section Samples

def reporter : Text := txt "12D3KooWReporter"

/-- `{"kind": "report", "reason": "wrong", ...}` -/
def wrong : Value :=
  .obj [(txt "kind", .str (txt "report")), (txt "cid", .str pageCid), (txt "publisher", .str reporter),
    (txt "reason", .str (txt "wrong"))]

def skippedPage : Catalog.Tables :=
  { Catalog.empty with
    skips := [⟨pageCid, txt "12D3KooWOther", some (txt "text/html"), some scopeSkipReason, 900⟩] }

def reviewedWorker : Worker :=
  { pageWorker with
    observer := { pageObserver with
      sha256 := (Fetch.sampleHost [((Protocol.canonicalBytes pageObserver.py wrong).toOption.getD [],
        0x4d9485dc79ba5f60102b98cce920eb50b0d6a6898209c2b3741b7817ce4d5be0)]).sha256 } }

def externalReply : (a : Action) → Reply a
  | .peerID => some (txt "12D3KooWPeer")
  | .clock => 1000
  | .leaseUntil => (0 : ℚ)
  | .claimOf _ _ _ => none
  | .docOf _ => none
  | .firstClassifyOf _ => none
  | .skipOf _ => none
  | .localClassified _ _ => false
  | .needsReview _ => false
  | .independentPublishers _ => []
  | .docByHash _ => none
  | .classifyByHash _ => none
  | .enqueueDocChildren _ _ => (0 : ℕ)
  | .fetchCid _ _ _ => { codec := txt "raw" }
  | .peekHamtPdfs _ _ => []
  | .prior _ _ _ => none
  | .available => true
  | .classify _ _ _ _ => none
  | .acquireSlot => true
  | .publishClaim _ => true
  | .publishSkip _ _ _ => true
  | .publishClassify _ _ => true
  | .forgetCid _ => ()
  | .mark _ _ _ => ()
  | .bumpAttempts _ _ => ()
  | .noteFetch _ _ => ()
  | .dropDirectory _ => ()
  | .rememberBinary _ _ => ()
  | .setLease _ => ()
  | .releaseSlot => ()

def calm : World := ⟨none, 1000, fun _ => false, externalReply⟩

def pageRow : Row := ⟨pageCid, some (txt "raw"), 0⟩

def handed : Office where
  catalog := skippedPage
  queue := { Work.empty with
    cids := [{ cid := pageCid, codec := txt "raw", firstSeen := 900, lastSeen := 990, peerCount := 2, wantCount := 2,
               status := .processing }] }
  jobs := Function.update (fun _ => none) 0 (some (Job.start reviewedWorker pageRow))

theorem handed_jobs : handed.jobs 0 = some (Job.start reviewedWorker pageRow) := rfl

def reported : Surroundings := ⟨1000, 1000, 1000, .ok ()⟩

def reviewTurns : List Turn :=
  reviewThread reviewedWorker.observer reported wrong skippedPage pageCid (some (txt "12D3KooWPeer")) 1000

def worked (n : ℕ) : List Turn := List.replicate n (.act 0 calm)

def lostTurns : List Turn := worked 10 ++ reviewTurns ++ worked 4

def keptTurns : List Turn := worked 14 ++ reviewTurns

theorem not_requested_of_any {t : Work.Tables} {cid : Text}
    (h : (Table.row? Work.Queued.cid cid t.cids).any (fun r => r.discovered) = false) : ¬Requested t cid := by
  rintro ⟨r, hr, hstatus, -⟩
  rw [hr, Option.any_some] at h
  cases h.symm.trans (decide_eq_true hstatus)

theorem finished_of_any {s : Office} {i : ℕ} (h : (s.jobs i).any (fun job => job.rest.result.isSome) = true) :
    Finished s i := some_of_any h

theorem stops_of_turns {turns : List Turn} (hturns : ∀ turn ∈ turns, keepsRow 0 turn = true)
    (hdone : Finished (run (step reviewedWorker {}) handed turns) 0)
    (hno : (record (run (step reviewedWorker {}) handed turns) 0).all (fun e => !goesOn e.1) = true) :
    Stops reviewedWorker pageCid (record (run (step reviewedWorker {}) handed turns) 0) :=
  stops_of_completes (by decide +kernel)
    (completes_of_finished hturns handed_jobs hdone) hno

theorem keepsRow_turns {turns : List Turn} (h : turns.all (keepsRow 0) = true) :
    ∀ turn ∈ turns, keepsRow 0 turn = true := List.all_eq_true.mp h

theorem review_lost :
    lostTurns.filter (others 0) = reviewTurns ∧
      (ingested reviewedWorker.observer reported wrong skippedPage).reports.any (fun r => r.cid = pageCid) = true ∧
      localClassified (some (txt "12D3KooWPeer")) (ingested reviewedWorker.observer reported wrong skippedPage) pageCid =
        false ∧
      Finished (run (step reviewedWorker {}) handed lostTurns) 0 ∧
      Stops reviewedWorker pageCid (record (run (step reviewedWorker {}) handed lostTurns) 0) ∧
      ¬Requested (run (step reviewedWorker {}) handed lostTurns).queue pageCid :=
  have hdone : Finished (run (step reviewedWorker {}) handed lostTurns) 0 := finished_of_any (by decide +kernel)
  ⟨rfl, by decide +kernel, by decide +kernel, hdone,
    stops_of_turns (keepsRow_turns (by decide +kernel)) hdone (by decide +kernel),
    not_requested_of_any (by decide +kernel)⟩

theorem review_survives_kept :
    Along (step reviewedWorker {}) (AfterWorker 0) handed keptTurns ∧
      Requested (run (step reviewedWorker {}) handed keptTurns).queue pageCid :=
  have hdone : Finished (run (step reviewedWorker {}) handed keptTurns) 0 := finished_of_any (by decide +kernel)
  have hworked : ∀ turn ∈ worked 14, others 0 turn = false := fun turn h => by
    rw [List.eq_of_mem_replicate h]
    rfl
  have halong : Along (step reviewedWorker {}) (AfterWorker 0) handed keptTurns :=
    along_append.mpr ⟨along_acts hworked handed, trivial, finished_of_any (by decide +kernel), trivial⟩
  ⟨halong, (review_survives_iff reviewedWorker {} handed 0 pageRow handed_jobs (by decide +kernel)
    reported wrong (some (txt "12D3KooWPeer")) 1000 (by decide +kernel) keptTurns rfl hdone
    (stops_of_turns (keepsRow_turns (by decide +kernel)) hdone (by decide +kernel))).mpr (Or.inl halong)⟩

end Samples

end ObserverClub.Office
