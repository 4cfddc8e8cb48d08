import ObserverClub.Batches
import ObserverClub.Fates
import ObserverClub.LostReview

namespace ObserverClub

open Library Library.Program Python Indexer Catalog Store

namespace Work

variable {cfg : Config} {now : ℚ} {t : Tables}

theorem attempts_of_ready {m : ℤ} {r : Queued} (h : ready cfg m now r = true) : r.attempts < cfg.attemptCap := by
  unfold ready at h
  simp only [Bool.and_eq_true, decide_eq_true_eq] at h
  exact h.1.2

theorem rowOf_attempts {s : Option Turns.Side} {r : Queued} (h : rowOf cfg now t s = some r) : r.attempts < cfg.attemptCap := by
  cases s with
  | none =>
    obtain ⟨-, hready, -⟩ := pick_some h
    exact attempts_of_ready hready
  | some side =>
    cases side with
    | left =>
      obtain ⟨-, hready, -⟩ | ⟨-, -, -, hready, -⟩ := pdfRow_some h
      · exact attempts_of_ready hready
      · exact attempts_of_ready hready
    | right =>
      obtain ⟨-, hready, -⟩ := pick_some h
      exact attempts_of_ready hready

theorem takeBatch_row : ((takeBatch cfg now 1).run t = ([], t)) ∨
    ∃ r ∈ t.cids, r.attempts < cfg.attemptCap ∧
      (takeBatch cfg now 1).run t = ([⟨r.cid, some r.codec, r.attempts⟩], processed t r.cid) := by
  obtain ⟨hrun, -⟩ | ⟨s, r, -, hrow, hrun, -⟩ := @nextRow_cases cfg now t 0 0 0 0
  · left
    unfold takeBatch takeRounds
    rw [StateT.run_bind, StateT.run_bind, hrun]
    rfl
  · right
    refine ⟨r, (rowOf_mem hrow).1, rowOf_attempts hrow, ?_⟩
    have hprocess : processed t r.cid = ((process r.cid).run t).2 := (congrArg Prod.snd (run_process r.cid)).symm
    unfold takeBatch takeRounds
    rw [StateT.run_bind, StateT.run_bind, hrun, hprocess]
    cases laneOfSide s with
    | none => rfl
    | some lane => cases lane <;> rfl

theorem row?_updateWhere {cid : Text} {p : Queued → Bool} {f : Queued → Queued} (hf : ∀ r, (f r).cid = r.cid) :
    Table.row? Queued.cid cid ((update p f).run t).2.cids =
      (Table.row? Queued.cid cid t.cids).map fun r => if p r then f r else r := by
  change (t.cids.map fun r => if p r then f r else r).find? (fun r => r.cid = cid) =
    (t.cids.find? fun r => r.cid = cid).map fun r => if p r then f r else r
  have hkey : ((fun r : Queued => decide (r.cid = cid)) ∘ fun r => if p r then f r else r) =
      fun r => decide (r.cid = cid) := by
    funext r
    rw [Function.comp_apply]
    split_ifs
    · rw [hf]
    · rfl
  rw [List.find?_map, hkey]

theorem row?_forgetCid (cid : Text) : Table.row? Queued.cid cid ((forgetCid cid).run t).2.cids = none :=
  (Table.row?_delete cid cid t.cids).trans (if_pos rfl)

end Work

namespace Office

variable {w : Worker} {cfg : Work.Config} {row : Row} {events : List (Event Answer)}

structure Tracked (row : Row) (events : List (Event Answer)) (r : Option Work.Queued) : Prop where
  early : Early events → ∃ q, r = some q ∧ q.attempts = attemptsAfter row events
  settled : ∀ before a x after, events = before ++ ⟨a, .ok x⟩ :: after → a.settles.isSome = true →
    (∀ e ∈ after, e.1.leases = true) → ∀ q, r = some q → ∃ cid status columns, a = .mark cid status columns ∧
      q.status = status ∧ (∀ error, columns.error = some error → q.error = error) ∧
      (∀ n, columns.attempts = some n → q.attempts = n) ∧
      (columns.attempts = none → Early before → q.attempts = attemptsAfter row before)

theorem tracked_start {q : Work.Queued} (h : q.attempts = row.attempts) : Tracked row [] (some q) where
  early _ := ⟨q, rfl, h⟩
  settled before a x after hsplit := by cases before <;> cases hsplit

theorem early_append {e : Event Answer} : Early (events ++ [e]) ↔ Early events ∧ e.1.early = true := by
  unfold Early
  simp only [List.mem_append, List.mem_singleton, or_imp, forall_and, forall_eq]

theorem attemptsAfter_append {e : Event Answer} (he : e.1.bumps = false) :
    attemptsAfter row (events ++ [e]) = attemptsAfter row events := by
  unfold attemptsAfter
  rw [List.any_append, List.any_cons, he, List.any_nil, Bool.or_self, Bool.or_false]

theorem settled_of_snoc {r : Option Work.Queued} (h : Tracked row events r) {e : Event Answer} (he : e.1.settles = none)
    {r' : Option Work.Queued} (hr : e.1.leases = true → r' = r) :
    ∀ before a x after, events ++ [e] = before ++ ⟨a, .ok x⟩ :: after → a.settles.isSome = true →
      (∀ e ∈ after, e.1.leases = true) → ∀ q, r' = some q → ∃ cid status columns, a = .mark cid status columns ∧
        q.status = status ∧ (∀ error, columns.error = some error → q.error = error) ∧
        (∀ n, columns.attempts = some n → q.attempts = n) ∧
        (columns.attempts = none → Early before → q.attempts = attemptsAfter row before) := by
  intro before a x after hsplit ha hafter q hq
  obtain ⟨-, -, heq⟩ | ⟨rest, rfl, hevents⟩ := split_snoc hsplit
  · rw [← heq] at he
    rw [he] at ha
    cases ha
  · rw [hr (hafter e (List.mem_append_right _ (List.mem_singleton_self _)))] at hq
    exact h.settled before a x rest hevents ha (fun e' he' => hafter e' (List.mem_append_left _ he')) q hq

theorem Tracked.other {r : Option Work.Queued} (h : Tracked row events r) {e : Event Answer} (he : e.1.settles = none)
    (hbump : e.1.bumps = false) : Tracked row (events ++ [e]) r where
  early hearly := by
    obtain ⟨q, hq, hattempts⟩ := h.early (early_append.mp hearly).1
    exact ⟨q, hq, hattempts.trans (attemptsAfter_append hbump).symm⟩
  settled := settled_of_snoc h he fun _ => rfl

theorem Tracked.note {r r' : Option Work.Queued} (h : Tracked row events r) {e : Event Answer} (he : e.1.settles = none)
    (hq : e.1.leases = false) (hr : e.1.early = true → ∀ q, r = some q → q.attempts = attemptsAfter row events →
      ∃ q', r' = some q' ∧ q'.attempts = attemptsAfter row (events ++ [e])) : Tracked row (events ++ [e]) r' where
  early hearly := by
    obtain ⟨hevents, hae⟩ := early_append.mp hearly
    obtain ⟨q, hq, hattempts⟩ := h.early hevents
    exact hr hae q hq hattempts
  settled := settled_of_snoc h he fun hl => by rw [hq] at hl; cases hl

theorem tracked_gone {e : Event Answer} (he : e.1.early = false) (events : List (Event Answer)) :
    Tracked row (events ++ [e]) none where
  early hearly := by
    rw [(early_append.mp hearly).2] at he
    cases he
  settled _ _ _ _ _ _ _ q hq := absurd hq.symm (Option.some_ne_none q)

theorem marked {r : Option Work.Queued} (h : Tracked row events r) {status : Status} {columns : Columns} {q : Work.Queued}
    (hq : r.map (Work.Columns.write columns status) = some q) :
    q.status = status ∧ (∀ error, columns.error = some error → q.error = error) ∧
      (∀ n, columns.attempts = some n → q.attempts = n) ∧
      (columns.attempts = none → Early events → q.attempts = attemptsAfter row events) := by
  obtain ⟨q₀, hq₀, rfl⟩ := Option.map_eq_some_iff.mp hq
  refine ⟨rfl, ?_, ?_, ?_⟩
  · intro error herror
    simp only [Work.Columns.write, herror, Option.getD_some]
  · intro n hn
    simp only [Work.Columns.write, hn, Option.getD_some]
  · intro hnone hearly
    obtain ⟨q₁, hq₁, hattempts⟩ := h.early hearly
    cases hq₀.symm.trans hq₁
    simp only [Work.Columns.write, hnone, Option.getD_none, hattempts]

theorem Tracked.mark {r : Option Work.Queued} (h : Tracked row events r) (status : Status) (columns : Columns) (x : Unit) :
    Tracked row (events ++ [⟨.mark row.cid status columns, .ok x⟩]) (r.map (Work.Columns.write columns status)) where
  early hearly := absurd (early_append.mp hearly).2 Bool.false_ne_true
  settled before a y after hsplit ha hafter := by
    obtain ⟨-, rfl, heq⟩ | ⟨rest, rfl, -⟩ := split_snoc hsplit
    · have haction := congrArg Sigma.fst heq
      intro q hq
      exact ⟨row.cid, status, columns, haction, marked h hq⟩
    · have hnot := hafter _ (List.mem_append_right _ (List.mem_singleton_self _))
      exact absurd hnot Bool.false_ne_true

section Serving

variable {w : Worker} {cfg : Work.Config} {world : World} {s : Office} {a : Action}

theorem queueing_isSome (w : Worker) (cfg : Work.Config) (world : World) (a : Action) :
    (queueing w cfg world a).isSome = a.queues := by
  cases a <;> rfl

theorem serve_of_writes (w : Worker) (cfg : Work.Config) (s : Office) (ha : a.writes = true) (hraises : world.raises = none) :
    ∃ op, queueing w cfg world a = some op ∧
      serve w cfg world s a = (.ok (op.run s.queue).1, { s with queue := (op.run s.queue).2 }) := by
  have hl : ¬a.leases = true := by cases a <;> first | exact Bool.false_ne_true | cases ha
  have hq : a.queues = true := by cases a <;> first | rfl | cases ha
  obtain ⟨op, hop⟩ := Option.isSome_iff_exists.mp ((queueing_isSome w cfg world a).trans hq)
  refine ⟨op, hop, ?_⟩
  rw [serve, if_neg hl, hraises, hop]

theorem tracked_serve (h : Tracked row events (Table.row? Work.Queued.cid row.cid s.queue.cids))
    (hp : Proper w row events a) (hraises : a.writes = true → world.raises = none) :
    Tracked row (events ++ [⟨a, (serve w cfg world s a).1⟩])
      (Table.row? Work.Queued.cid row.cid (serve w cfg world s a).2.queue.cids) := by
  by_cases hw : a.writes = true
  · obtain ⟨op, hop, hserve⟩ := serve_of_writes w cfg s hw (hraises hw)
    rw [hserve]
    cases a with
    | forgetCid cid =>
      cases hop
      obtain rfl := hp cid rfl
      change Tracked row _ (Table.row? Work.Queued.cid row.cid ((Work.forgetCid row.cid).run s.queue).2.cids)
      rw [Work.row?_forgetCid]
      exact tracked_gone rfl events
    | mark cid status columns =>
      cases hop
      obtain ⟨rfl, -⟩ := hp
      have hrow := @row?_update s.queue row.cid (Work.Columns.write columns status) fun _ => rfl
      change Tracked row _ (Table.row? Work.Queued.cid row.cid
        ((Work.update (fun r => r.cid = row.cid) (Work.Columns.write columns status)).run s.queue).2.cids)
      rw [hrow]
      exact h.mark status columns _
    | bumpAttempts cid attempts =>
      cases hop
      obtain ⟨rfl, rfl⟩ := hp
      have hrow := @row?_update s.queue row.cid (fun r => { r with attempts := row.attempts + 1 }) fun _ => rfl
      apply h.note rfl rfl
      intro _ q hq _
      rw [hq] at hrow
      refine ⟨_, hrow, ?_⟩
      rw [attemptsAfter, List.any_append, List.any_cons, Action.bumps, Bool.true_or, Bool.or_true, if_pos rfl]
    | noteFetch cid retrieved =>
      cases hop
      have hrow := @Work.row?_updateWhere s.queue row.cid (fun r => r.cid = cid)
        (fun r => { r with lastChecked := some world.now, lastRetrieved := retrieved.or r.lastRetrieved }) fun _ => rfl
      apply h.note rfl rfl
      intro _ q hq hattempts
      rw [hq] at hrow
      refine ⟨_, hrow, ?_⟩
      rw [attemptsAfter_append rfl, ← hattempts]
      dsimp only
      split_ifs <;> rfl
    | dropDirectory cid =>
      cases hop
      obtain rfl := hp cid rfl
      change Tracked row _ (Table.row? Work.Queued.cid row.cid ((Work.forgetCid row.cid).run _).2.cids)
      rw [Work.row?_forgetCid]
      exact tracked_gone rfl events
    | rememberBinary cid mime =>
      cases hop
      obtain rfl := hp cid rfl
      change Tracked row _ (Table.row? Work.Queued.cid row.cid ((Work.forgetCid row.cid).run _).2.cids)
      rw [Work.row?_forgetCid]
      exact tracked_gone rfl events
    | _ => cases hw
  · by_cases hq : a.queues = true
    · -- The links of a directory.
      cases a with
      | enqueueDocChildren links skipCid =>
        apply h.note rfl rfl
        intro hearly
        cases hearly
      | _ => first | exact absurd rfl hw | cases hq
    · have hsame : (serve w cfg world s a).2 = s := by
        obtain ⟨op, hop, -⟩ | ⟨hserve, -⟩ := serve_cases w cfg world s a
        · have hnone := queueing_isSome w cfg world a
          rw [hop] at hnone
          exact absurd hnone.symm hq
        · exact hserve
      rw [hsame]
      apply h.other
      · cases a <;> first | rfl | exact absurd rfl hq
      · cases a <;> first | rfl | exact absurd rfl hq

end Serving

section Runs

variable {i : ℕ} {s : Office} {turns : List Turn}

/-- What worker `i` is about to do is to write to the queue. -/
def writesNext (s : Office) (i : ℕ) : Bool :=
  (s.jobs i).any fun job =>
    match job.rest with
    | .act a _ => a.writes
    | .done _ => false

def raised : Turn → Option Error
  | .act _ world => world.raises
  | _ => none

/-- Worker `i` keeps its row and can write to the queue, and the other threads leave the row as it is. -/
def Undisturbed (w : Worker) (cfg : Work.Config) (i : ℕ) (cid : Text) (s : Office) (turn : Turn) : Prop :=
  keepsRow i turn = true ∧ (others i turn = false → writesNext s i = true → (raised turn).isNone = true) ∧
    (others i turn = true →
      Table.row? Work.Queued.cid cid (step w cfg s turn).queue.cids = Table.row? Work.Queued.cid cid s.queue.cids)

instance (cid : Text) (turn : Turn) : Decidable (Undisturbed w cfg i cid s turn) :=
  inferInstanceAs (Decidable (_ ∧ _ ∧ _))

def HeldClassify (cid : Text) (t : Catalog.Tables) : Prop := (∃ d ∈ t.docs, d.cid = cid) ∨ ∃ c ∈ t.classifies, c.cid = cid

def HeldScopeSkip (cid : Text) (t : Catalog.Tables) : Prop := ∃ k ∈ t.skips, k.cid = cid ∧ k.reason = some scopeSkipReason

theorem serve_query {world : World} {a : Action} {x : Reply a} {y : Answer a} (hl : a.leases = false) (hq : a.queues = false)
    (hy : query w.observer.py s.catalog a = some y) (h : (serve w cfg world s a).1 = .ok x) : y = .ok x := by
  have hnone : queueing w cfg world a = none := by
    rw [← Option.not_isSome_iff_eq_none, queueing_isSome w cfg world a, hq]
    exact Bool.false_ne_true
  rw [serve, if_neg (by rw [hl]; exact Bool.false_ne_true)] at h
  cases hr : world.raises with
  | some e =>
    rw [hr] at h
    cases h
  | none =>
    rw [hr, hnone] at h
    dsimp only at h
    rw [hy] at h
    exact h

theorem heldClassify_of_serve {world : World} {cid : Text} {p : Preferred}
    (h : (serve w cfg world s (.docOf cid)).1 = .ok (some p) ∨ (serve w cfg world s (.firstClassifyOf cid)).1 = .ok (some p)) :
    HeldClassify cid s.catalog := by
  obtain h | h := h
  · have hrow := Except.ok.inj (serve_query rfl rfl rfl h)
    obtain ⟨d, hd, -⟩ := Option.map_eq_some_iff.mp hrow
    exact Or.inl ⟨d, Table.row?_some hd⟩
  · have hrow := Except.ok.inj (serve_query rfl rfl rfl h)
    obtain ⟨c, hc, -⟩ := Option.map_eq_some_iff.mp hrow
    have hne : classifiesOf cid s.catalog ≠ [] := fun hnil => by rw [hnil] at hc; cases hc
    obtain ⟨c', hc'⟩ := List.exists_mem_of_ne_nil _ hne
    exact Or.inr ⟨c', List.mem_of_mem_filter hc', of_decide_eq_true (List.mem_filter.mp hc').2⟩

theorem heldScopeSkip_of_serve {world : World} {cid : Text} {k : Skip} (hk : k.reason = some scopeSkipReason)
    (h : (serve w cfg world s (.skipOf cid)).1 = .ok (some k)) : HeldScopeSkip cid s.catalog := by
  have hrow := Except.ok.inj (serve_query rfl rfl rfl h)
  obtain ⟨hmem, hcid⟩ := Table.row?_some hrow
  exact ⟨k, hmem, hcid, hk⟩

theorem serve_of_event {world : World} {a b : Action} {y : Answer b}
    (h : (⟨b, y⟩ : Event Answer) = ⟨a, (serve w cfg world s a).1⟩) : (serve w cfg world s b).1 = y := by
  obtain ⟨rfl, hy⟩ := Sigma.mk.inj_iff.mp h
  exact (eq_of_heq hy).symm

structure Underway (w : Worker) (row : Row) (C K : Prop) (s : Office) (job : Job) : Prop where
  same : job.row = row
  proper : Guarded (Proper w row) job.events job.rest
  written : Written job.events
  tracked : Tracked row job.events (Table.row? Work.Queued.cid row.cid s.queue.cids)
  classify : SawClassify row.cid job.events → C
  skip : SawScopeSkip row.cid job.events → K

theorem Underway.act (cfg : Work.Config) {C K : Prop} {job : Job} {world : World} {a : Action}
    {next : Answer a → Program Answer Unit}
    (h : Underway w row C K s job) (hrest : job.rest = .act a next) (hraises : a.writes = true → world.raises = none)
    (hC : HeldClassify row.cid s.catalog → C) (hK : HeldScopeSkip row.cid s.catalog → K) :
    Underway w row C K (serve w cfg world s a).2
      ⟨job.row, job.events ++ [⟨a, (serve w cfg world s a).1⟩], next (serve w cfg world s a).1⟩ where
  same := h.same
  proper := by
    have hproper := h.proper
    rw [hrest] at hproper
    exact hproper.2 _
  written := by
    intro e he hw
    obtain he | he := List.mem_append.mp he
    · exact h.written e he hw
    · rw [List.mem_singleton.mp he] at hw ⊢
      obtain ⟨op, -, hserve⟩ := serve_of_writes w cfg s hw (hraises hw)
      rw [hserve]
      exact ⟨_, rfl⟩
  tracked := by
    have hproper := h.proper
    rw [hrest] at hproper
    exact tracked_serve h.tracked hproper.1 hraises
  classify := by
    rintro ⟨p, hp⟩
    simp only [List.mem_append, List.mem_singleton] at hp
    obtain (hp | hp) | (hp | hp) := hp
    · exact h.classify ⟨p, Or.inl hp⟩
    · exact hC (heldClassify_of_serve (Or.inl (serve_of_event hp)))
    · exact h.classify ⟨p, Or.inr hp⟩
    · exact hC (heldClassify_of_serve (Or.inr (serve_of_event hp)))
  skip := by
    rintro ⟨k, hk, hp⟩
    obtain hp | hp := List.mem_append.mp hp
    · exact h.skip ⟨k, hk, hp⟩
    · exact hK (heldScopeSkip_of_serve hk (serve_of_event (List.mem_singleton.mp hp)))

theorem underway_step {C K : Prop} {turn : Turn} (h : ∃ job, s.jobs i = some job ∧ Underway w row C K s job)
    (hturn : Undisturbed w cfg i row.cid s turn) (hC : HeldClassify row.cid s.catalog → C)
    (hK : HeldScopeSkip row.cid s.catalog → K) :
    ∃ job, (step w cfg s turn).jobs i = some job ∧ Underway w row C K (step w cfg s turn) job := by
  obtain ⟨job, hjob, hunder⟩ := h
  obtain ⟨hkeeps, hwritable, halone⟩ := hturn
  have hstay {s' : Office} (hj : s'.jobs i = some job)
      (hrow : Table.row? Work.Queued.cid row.cid s'.queue.cids = Table.row? Work.Queued.cid row.cid s.queue.cids) :
      ∃ job, s'.jobs i = some job ∧ Underway w row C K s' job := by
    refine ⟨job, hj, hunder.same, hunder.proper, hunder.written, ?_, hunder.classify, hunder.skip⟩
    rw [hrow]
    exact hunder.tracked
  cases turn with
  | take j now =>
    apply hstay _ (halone rfl)
    have hj : i ≠ j := fun h => of_decide_eq_true hkeeps h.symm
    rw [step]
    split_ifs
    · exact (Function.update_of_ne hj _ _).trans hjob
    · exact hjob
  | act j world =>
    by_cases hj : i = j
    · subst hj
      obtain ⟨row', events, rest⟩ := job
      cases rest with
      | done u =>
        have hsame : step w cfg s (.act i world) = s := by rw [step, act, hjob]
        rw [hsame]
        exact ⟨_, hjob, hunder⟩
      | act a next =>
        have hraises : a.writes = true → world.raises = none := by
          intro ha
          apply Option.isNone_iff_eq_none.mp
          apply hwritable (decide_eq_false fun h => h rfl)
          rw [writesNext, hjob]
          exact ha
        have hnext := hunder.act cfg rfl hraises hC hK
        rw [step, act, hjob]
        exact ⟨_, Function.update_self .., hnext.same, hnext.proper, hnext.written, hnext.tracked, hnext.classify, hnext.skip⟩
    · apply hstay _ (halone (decide_eq_true fun h => hj h.symm))
      rw [step, act]
      split
      · exact (Function.update_of_ne hj _ _).trans hjob
      · exact hjob
  | review c me now => exact hstay hjob (halone rfl)
  | sight sighting now => exact hstay hjob (halone rfl)
  | prune now now' => exact hstay hjob (halone rfl)
  | expire now => exact hstay hjob (halone rfl)
  | gossip catalog => exact hstay hjob (halone rfl)

/-- A worker goes by the limits on attempts that the queue goes by. -/
def limited (cfg : Work.Config) (w : Worker) : Worker :=
  { w with maxRetries := cfg.maxRetries, maxTimeoutRetries := cfg.maxTimeoutRetries }

def failing : Event Answer → Bool
  | ⟨.available, .ok up⟩ => !up
  | ⟨.available, .error _⟩ => true
  | ⟨.classify _ _ _ _, .ok answer⟩ => answer.isNone
  | ⟨.classify _ _ _ _, .error _⟩ => true
  | ⟨.publishSkip _ _ _, .ok ok⟩ => !ok
  | ⟨.publishSkip _ _ _, .error _⟩ => true
  | ⟨.publishClassify _ _, .ok ok⟩ => !ok
  | ⟨.publishClassify _ _, .error _⟩ => true
  | _ => false

theorem later_of_failing {e : Event Answer} (h : failing e = true) :
    e.1.early = false ∧ e.1.leases = false ∧ e.1.settles = none := by
  obtain ⟨a, r⟩ := e
  cases a <;> first | exact ⟨rfl, rfl, rfl⟩ | cases h

/-- What has become of a row that had `attempts` when it was taken. -/
inductive Returned (cfg : Work.Config) (row : Row) (done : List (Event Answer)) (C K : Prop) (q : Work.Queued) : Prop
  | waits (h : q.status = .discovered) (cap : q.attempts < cfg.attemptCap)
      (kept : q.attempts = row.attempts ∨ FetchFailed done)
      (spared : ∀ e ∈ done, failing e = true → q.attempts = row.attempts)
  | indexed (h : q.status = .indexed) (reason : C ∨ PublishedClassify row.cid done)
  | skipped (h : q.status = .skipped)
      (reason : q.error = some scopeSkipReason → K ∨ PublishedScopeSkip row.cid done)

theorem returned {C K : Prop} {job : Job} {q : Work.Queued} (h : Underway (limited cfg w) row C K s job)
    (hdone : Completes (attend (limited cfg w) row) job.events ()) (hcap : row.attempts < cfg.attemptCap)
    (hq : Table.row? Work.Queued.cid row.cid s.queue.cids = some q) : Returned cfg row job.events C K q := by
  obtain ⟨before, a, x, after, hsplit, hproper, hsettles, hafter⟩ := attend_closes hdone h.written
  obtain ⟨cid, status, columns, rfl, hstatus, herror, hattempts, hleft⟩ :=
    h.tracked.settled before a x after hsplit hsettles hafter q hq
  have hbefore : ∀ e ∈ before, e ∈ job.events := by
    intro e he
    rw [hsplit]
    exact List.mem_append_left _ he
  obtain ⟨-, hfitting⟩ := hproper
  have hclassify : SawClassify row.cid before → C := fun hsaw => h.classify (hsaw.mono hbefore)
  cases hfitting with
  | restored hcolumns =>
    have hback := hattempts row.attempts hcolumns
    exact .waits hstatus (hback.trans_lt hcap) (Or.inl hback) fun _ _ _ => hback
  | left hcolumns hearly hroom hkept =>
    have hafter' := hleft hcolumns hearly
    refine .waits hstatus ?_ ?_ ?_
    · have hroom' : attemptsAfter row before ≤ max row.attempts (max cfg.maxRetries cfg.maxTimeoutRetries) := hroom
      rw [hafter', Work.Config.attemptCap]
      rw [Work.Config.attemptCap] at hcap
      omega
    · rw [hafter']
      apply hkept.imp_right
      rintro ⟨cid', codec, n, r, hfetch, hr⟩
      exact ⟨cid', codec, n, r, hbefore _ hfetch, hr⟩
    · intro e he hfailing
      obtain ⟨hnot, hlease, hnone⟩ := later_of_failing hfailing
      rw [hsplit] at he
      obtain he | he := List.mem_append.mp he
      · rw [hearly e he] at hnot
        cases hnot
      · obtain rfl | he := List.mem_cons.mp he
        · cases hnone
        · rw [hafter e he] at hlease
          cases hlease
  | indexed hreason =>
    refine .indexed hstatus (hreason.imp hclassify ?_)
    rintro ⟨payload, hp⟩
    exact ⟨payload, hbefore _ hp⟩
  | skipped hcolumns hreason =>
    refine .skipped hstatus fun hscope => ?_
    refine (hreason ((herror _ hcolumns).symm.trans hscope)).imp ?_ ?_
    · rintro ⟨k, hk, hsaw⟩
      exact h.skip ⟨k, hk, hbefore _ hsaw⟩
    · rintro ⟨mime, hp⟩
      exact ⟨mime, hbefore _ hp⟩

theorem take_jobs (w : Worker) (cfg : Work.Config) (i : ℕ) (now : ℚ) (s : Office) :
    (take w cfg i now s).jobs i = ((Work.takeBatch cfg now 1).run s.queue).1.head?.map (Job.start w) := by
  rw [take]
  exact Function.update_self ..

/-- A row that worker `i` has just been handed. -/
theorem underway_take (C K : Prop) {now : ℚ} (hkey : Table.Keyed Work.Queued.cid s.queue.cids)
    (hjob : (take w cfg i now s).jobs i = some (Job.start w row)) :
    row.attempts < cfg.attemptCap ∧ Underway w row C K (take w cfg i now s) (Job.start w row) := by
  have hstart := take_jobs w cfg i now s
  obtain htake | ⟨r, hr, hcap, htake⟩ := @Work.takeBatch_row cfg now s.queue
  · rw [hstart, htake] at hjob
    cases hjob
  · rw [hstart, htake] at hjob
    have hrow : (⟨r.cid, some r.codec, r.attempts⟩ : Row) = row := congrArg Job.row (Option.some.inj hjob)
    subst hrow
    refine ⟨hcap, rfl, attend_proper w _, ?_, ?_, ?_, ?_⟩
    · exact fun e he => absurd he List.not_mem_nil
    · have hqueue : (take w cfg i now s).queue = Work.processed s.queue r.cid := by rw [take, htake]
      have hprocess : Work.processed s.queue r.cid = ((Work.process r.cid).run s.queue).2 :=
        (congrArg Prod.snd (Work.run_process r.cid)).symm
      have hfound : Table.row? Work.Queued.cid r.cid s.queue.cids = some r := hkey.row?_of_mem hr
      have hupdate := @row?_update s.queue r.cid (fun r => { r with status := .processing }) fun _ => rfl
      rw [hfound] at hupdate
      rw [hqueue, hprocess]
      change Tracked _ [] (Table.row? Work.Queued.cid r.cid ((Work.process r.cid).run s.queue).2.cids)
      rw [show Table.row? Work.Queued.cid r.cid ((Work.process r.cid).run s.queue).2.cids = _ from hupdate]
      exact tracked_start rfl
    · rintro ⟨p, hp | hp⟩
      · cases hp
      · cases hp
    · rintro ⟨k, -, hp⟩
      cases hp

/-- The catalog had it at some point of the run. -/
def Sometime (w : Worker) (cfg : Work.Config) (s : Office) (turns : List Turn) (P : Catalog.Tables → Prop) : Prop :=
  ∃ seen, seen <+: turns ∧ P (run (step w cfg) s seen).catalog

theorem underway_run {C K : Prop} (h : ∃ job, s.jobs i = some job ∧ Underway w row C K s job)
    (halong : Along (step w cfg) (Undisturbed w cfg i row.cid) s turns)
    (hC : Sometime w cfg s turns (HeldClassify row.cid) → C) (hK : Sometime w cfg s turns (HeldScopeSkip row.cid) → K) :
    ∃ job, (run (step w cfg) s turns).jobs i = some job ∧ Underway w row C K (run (step w cfg) s turns) job := by
  apply run_invariant (I := fun s => ∃ job, s.jobs i = some job ∧ Underway w row C K s job) _ h (along_seen halong)
  rintro t turn h ⟨hturn, seen, hseen, rfl⟩
  exact underway_step h hturn (fun hc => hC ⟨seen, hseen, hc⟩) fun hk => hK ⟨seen, hseen, hk⟩

theorem keepsRow_of_along (halong : Along (step w cfg) (Undisturbed w cfg i row.cid) s turns) :
    ∀ turn ∈ turns, keepsRow i turn = true := by
  induction turns generalizing s with
  | nil => exact fun turn h => absurd h List.not_mem_nil
  | cons turn turns ih =>
    rw [List.forall_mem_cons]
    exact ⟨halong.1.1, ih halong.2⟩

/-- A row that a worker was handed, where no other thread touches it and the queue can be written: once the worker is
through with it, the row is out of the queue, or waits with attempts left, or is indexed or skipped, with good reason. -/
theorem row_returned (w : Worker) (cfg : Work.Config) (i : ℕ) (now : ℚ) (before s : Office) (row : Row) (turns : List Turn)
    (hkey : Table.Keyed Work.Queued.cid before.queue.cids) (htake : s = take (limited cfg w) cfg i now before)
    (hjob : s.jobs i = some (Job.start (limited cfg w) row))
    (halong : Along (step (limited cfg w) cfg) (Undisturbed (limited cfg w) cfg i row.cid) s turns)
    (hdone : Finished (run (step (limited cfg w) cfg) s turns) i) :
    ∀ q, Table.row? Work.Queued.cid row.cid (run (step (limited cfg w) cfg) s turns).queue.cids = some q →
      Returned cfg row (record (run (step (limited cfg w) cfg) s turns) i)
        (Sometime (limited cfg w) cfg s turns (HeldClassify row.cid))
        (Sometime (limited cfg w) cfg s turns (HeldScopeSkip row.cid)) q := by
  subst htake
  intro q hq
  obtain ⟨hcap, hunder⟩ := underway_take (Sometime (limited cfg w) cfg _ turns (HeldClassify row.cid))
    (Sometime (limited cfg w) cfg _ turns (HeldScopeSkip row.cid)) hkey hjob
  have hcompletes := completes_of_finished (keepsRow_of_along halong) hjob hdone
  obtain ⟨job, hj, hend⟩ := underway_run ⟨_, hjob, hunder⟩ halong id id
  have hrecord : record (run (step (limited cfg w) cfg) (take (limited cfg w) cfg i now before) turns) i = job.events := by
    rw [record, hj]
    rfl
  rw [hrecord] at hcompletes ⊢
  exact returned hend hcompletes hcap hq

end Runs

section Samples

def pageWaits : Office where
  catalog := skippedPage
  queue := { Work.empty with
    cids := [{ cid := pageCid, codec := txt "raw", firstSeen := 900, lastSeen := 990, peerCount := 2, wantCount := 2 }] }
  jobs _ := none

def pageTaken : Office := take (limited {} reviewedWorker) {} 0 1000 pageWaits

theorem pageTaken_jobs : pageTaken.jobs 0 = some (Job.start (limited {} reviewedWorker) pageRow) := by
  have hrows : ((Work.takeRounds {} 1000 1 0 0).run pageWaits.queue).1 = pageWaits.queue.cids := by decide +kernel
  rw [pageTaken, take_jobs, Work.takeBatch_run, hrows]
  rfl

theorem page_returned :
    Finished (run (step (limited {} reviewedWorker) {}) pageTaken (worked 14)) 0 ∧
      ∀ q, Table.row? Work.Queued.cid pageCid (run (step (limited {} reviewedWorker) {}) pageTaken (worked 14)).queue.cids =
          some q →
        Returned {} pageRow (record (run (step (limited {} reviewedWorker) {}) pageTaken (worked 14)) 0)
          (Sometime (limited {} reviewedWorker) {} pageTaken (worked 14) (HeldClassify pageCid))
          (Sometime (limited {} reviewedWorker) {} pageTaken (worked 14) (HeldScopeSkip pageCid)) q :=
  have hdone : Finished (run (step (limited {} reviewedWorker) {}) pageTaken (worked 14)) 0 :=
    finished_of_any (by decide +kernel)
  ⟨hdone, row_returned reviewedWorker {} 0 1000 pageWaits pageTaken pageRow (worked 14)
    (by rw [Table.Keyed]; decide +kernel) rfl pageTaken_jobs (by decide +kernel) hdone⟩

end Samples

end Office

end ObserverClub
