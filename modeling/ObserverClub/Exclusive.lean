import ObserverClub.QueueFlight
import ObserverClub.Settling

namespace ObserverClub.Office

open Library Library.Program Python Indexer

variable {w : Worker} {cfg : Work.Config}

/-- No review is asked for of a row that a worker is on, and pruning spares such rows. -/
def Careful (cfg : Work.Config) (s : Office) : Turn → Prop
  | .review cid _ _ => ∀ r ∈ s.queue.cids, r.cid = cid → r.processing = false
  | .prune now _ => Work.SparesWorkers cfg now s.queue
  | _ => True

instance Careful.decidable (s : Office) : (turn : Turn) → Decidable (Careful cfg s turn)
  | .review cid _ _ => inferInstanceAs (Decidable (∀ r ∈ s.queue.cids, r.cid = cid → r.processing = false))
  | .prune now _ => inferInstanceAs (Decidable ((∀ r ∈ s.queue.cids, r.processing = true →
      Work.stale (now - cfg.maxAgeSeconds) r = false) ∧
        ∀ r ∈ ((Work.beforeCap cfg now >>= fun _ => Work.beyondCap cfg).run s.queue).1, r.processing = false))
  | .take _ _ => inferInstanceAs (Decidable True)
  | .act _ _ => inferInstanceAs (Decidable True)
  | .sight _ _ => inferInstanceAs (Decidable True)
  | .expire _ => inferInstanceAs (Decidable True)
  | .gossip _ => inferInstanceAs (Decidable True)

structure Apart (s : Office) : Prop where
  orders : ∀ i job, s.jobs i = some job → Guarded (Orders job.row.cid) job.events job.rest
  sound : ∀ i job, s.jobs i = some job → job.events.any misled = false
  flight : ∀ i cid, s.Holds i cid → Work.InFlight s.queue cid
  alone : ∀ i j cid, s.Holds i cid → s.Holds j cid → i = j

theorem apart_opening (catalog : Catalog.Tables) : Apart (opening catalog) where
  orders _ _ h := by cases h
  sound _ _ h := by cases h
  flight _ _ h := by
    obtain ⟨_, h, -⟩ := h
    cases h
  alone _ _ _ h := by
    obtain ⟨_, h, -⟩ := h
    cases h

theorem Apart.of_queue {s : Office} (h : Apart s) {queue : Work.Tables}
    (hq : ∀ cid, Work.InFlight s.queue cid → Work.InFlight queue cid) : Apart { s with queue := queue } where
  orders := h.orders
  sound := h.sound
  flight i cid hi := hq cid (h.flight i cid hi)
  alone := h.alone

theorem settled_append (events : List (Event Answer)) (e : Event Answer) :
    settled (events ++ [e]) = (settled events || settling e) := by
  rw [settled, List.any_append, List.any_cons, List.any_nil, Bool.or_false]
  rfl

/-- Worker `i` goes on to `job`, and the queue has changed with it. -/
theorem Apart.update {s : Office} (h : Apart s) (i : ℕ) {job : Option Job} {queue : Work.Tables}
    (horders : ∀ j, job = some j → Guarded (Orders j.row.cid) j.events j.rest)
    (hsound : ∀ j, job = some j → j.events.any misled = false)
    (hothers : ∀ j cid, j ≠ i → s.Holds j cid → Work.InFlight queue cid)
    (hown : ∀ j, job = some j → settled j.events = false →
      Work.InFlight queue j.row.cid ∧ ∀ k, k ≠ i → ¬s.Holds k j.row.cid) :
    Apart { s with queue := queue, jobs := Function.update s.jobs i job } := by
  have hcases (k : ℕ) (j : Job) (hk : Function.update s.jobs i job k = some j) :
      (k = i ∧ job = some j) ∨ (k ≠ i ∧ s.jobs k = some j) := by
    by_cases hki : k = i
    · subst hki
      rw [Function.update_self] at hk
      exact Or.inl ⟨rfl, hk⟩
    · rw [Function.update_of_ne hki] at hk
      exact Or.inr ⟨hki, hk⟩
  refine ⟨fun k j hk => ?_, fun k j hk => ?_, fun k cid hk => ?_, fun k l cid hk hl => ?_⟩
  · obtain ⟨-, hj⟩ | ⟨-, hj⟩ := hcases k j hk
    · exact horders j hj
    · exact h.orders k j hj
  · obtain ⟨-, hj⟩ | ⟨-, hj⟩ := hcases k j hk
    · exact hsound j hj
    · exact h.sound k j hj
  · obtain ⟨j, hj, rfl, hset⟩ := hk
    obtain ⟨-, hj⟩ | ⟨hne, hj⟩ := hcases k j hj
    · exact (hown j hj hset).1
    · exact hothers k _ hne ⟨j, hj, rfl, hset⟩
  · obtain ⟨j, hj, hjc, hset⟩ := hk
    obtain ⟨j', hj', hjc', hset'⟩ := hl
    obtain ⟨hki, hj⟩ | ⟨hki, hj⟩ := hcases k j hj
    · obtain ⟨hli, -⟩ | ⟨hli, hj'⟩ := hcases l j' hj'
      · exact hki.trans hli.symm
      · exact absurd ⟨j', hj', hjc'.trans hjc.symm, hset'⟩ ((hown j hj hset).2 l hli)
    · obtain ⟨hli, hj'⟩ | ⟨hli, hj'⟩ := hcases l j' hj'
      · exact absurd ⟨j, hj, hjc.trans hjc'.symm, hset⟩ ((hown j' hj' hset').2 k hki)
      · exact h.alone k l cid ⟨j, hj, hjc, hset⟩ ⟨j', hj', hjc', hset'⟩

theorem apart_take {s : Office} {i : ℕ} (now : ℚ) (h : Apart s) : Apart (take w cfg i now s) := by
  unfold take
  obtain htake | ⟨r, hr, hd, htake⟩ := Work.takeBatch_one (t := s.queue)
  · rw [htake]
    exact h.update i nofun nofun (fun j cid _ hj => h.flight j cid hj) nofun
  · rw [htake]
    apply h.update i
    · rintro j ⟨⟩
      exact attend_orders w _
    · rintro j ⟨⟩
      rfl
    · exact fun j cid _ hj => Work.keeps_process r.cid (h.flight j cid hj)
    · rintro j ⟨⟩ -
      exact ⟨Work.inFlight_process hr, fun k _ hk => (h.flight k _ hk).ne_of_idle hr (Work.discovered_idle hd) rfl⟩

section Serving

variable {world : World} {s : Office} {a : Action}

theorem serve_cases (w : Worker) (cfg : Work.Config) (world : World) (s : Office) (a : Action) :
    (∃ op, queueing w cfg world a = some op ∧ serve w cfg world s a =
        (.ok (op.run s.queue).1, { s with queue := (op.run s.queue).2 })) ∨
      ((serve w cfg world s a).2 = s ∧
        ((queueing w cfg world a).isSome = true → ∃ e, (serve w cfg world s a).1 = .error e)) := by
  unfold serve
  by_cases hl : a.leases = true
  · rw [if_pos hl]
    refine Or.inr ⟨rfl, fun hq => ?_⟩
    cases a <;> cases hl <;> cases hq
  · rw [if_neg hl]
    cases world.raises with
    | some e => exact Or.inr ⟨rfl, fun _ => ⟨e, rfl⟩⟩
    | none =>
      dsimp only
      cases hq : queueing w cfg world a with
      | some op => exact Or.inl ⟨op, rfl, rfl⟩
      | none => exact Or.inr ⟨rfl, fun hq' => by cases hq'⟩

theorem queueing_keeps {op : Work.Op (Reply a)} (h : queueing w cfg world a = some op) {cid : Text} {t : Work.Tables}
    (hc : ∀ c, a.settles = some c → c ≠ cid) : Work.Keeps cid t op := by
  cases a <;> cases h
  · exact Work.keeps_forgetCid (hc _ rfl)
  · exact Work.keeps_mark _ _ (hc _ rfl)
  · apply Work.keeps_bumpAttempts
  · apply Work.keeps_noteFetch
  · apply Work.keeps_enqueueDocChildren
  · exact Work.keeps_dropDirectory _ (hc _ rfl)
  · exact Work.keeps_rememberBinary _ _ (hc _ rfl)

theorem not_misled : misled ⟨a, (serve w cfg world s a).1⟩ = false := by
  unfold misled serve
  by_cases hl : a.leases = true
  · rw [if_pos hl]
    exact Bool.and_false _
  · rw [Bool.eq_false_iff.mpr hl, Bool.false_and]

theorem serve_inFlight {cid : Text} (h : Work.InFlight s.queue cid)
    (hc : a.settles = some cid → settling ⟨a, (serve w cfg world s a).1⟩ = false) :
    Work.InFlight (serve w cfg world s a).2.queue cid := by
  obtain ⟨op, hop, hserve⟩ | ⟨hserve, -⟩ := serve_cases w cfg world s a
  · rw [hserve] at hc ⊢
    apply queueing_keeps hop _ h
    rintro c hset rfl
    have hnot := hc hset
    rw [settling, hset] at hnot
    cases hnot
  · rw [hserve]
    exact h

end Serving

theorem apart_act {s : Office} (i : ℕ) (world : World) (h : Apart s) : Apart (act w cfg i world s) := by
  unfold act
  cases hjob : s.jobs i with
  | none => exact h
  | some job =>
    obtain ⟨row, events, rest⟩ := job
    cases rest with
    | done u => exact h
    | act a next =>
      dsimp only
      have horders := h.orders i _ hjob
      have hsound := h.sound i _ hjob
      have hjobs : (serve w cfg world s a).2 = { s with queue := (serve w cfg world s a).2.queue } := by
        obtain ⟨op, -, hserve⟩ | ⟨hserve, -⟩ := serve_cases w cfg world s a <;> rw [hserve]
      rw [hjobs]
      apply h.update i
      · rintro j ⟨⟩
        exact horders.2 _
      · rintro j ⟨⟩
        rw [List.any_append, hsound, List.any_cons, not_misled]
        rfl
      · intro j cid hne hj
        apply serve_inFlight (h.flight j cid hj)
        intro hset
        obtain ⟨rfl, hopen⟩ := horders.1 cid hset
        have hheld : s.Holds i row.cid := ⟨_, hjob, rfl, hopen.resolve_left (by rw [hsound]; exact Bool.false_ne_true)⟩
        exact absurd (h.alone j i _ hj hheld) hne
      · rintro j ⟨⟩ hset
        rw [settled_append, Bool.or_eq_false_iff] at hset
        have hheld : s.Holds i row.cid := ⟨_, hjob, rfl, hset.1⟩
        exact ⟨serve_inFlight (h.flight i _ hheld) fun _ => hset.2, fun k hne hk => hne (h.alone k i _ hk hheld)⟩

theorem apart_step (s : Office) (turn : Turn) (h : Apart s) (hc : Careful cfg s turn) : Apart (step w cfg s turn) := by
  cases turn with
  | take i now =>
    rw [step]
    split_ifs
    · exact apart_take now h
    · exact h
  | act i world => exact apart_act i world h
  | review cid me now => exact h.of_queue fun c => Work.keeps_enqueueReview _ _ now hc
  | sight sighting now => exact h.of_queue fun c => Work.keeps_record _ sighting now
  | prune now now' => exact h.of_queue fun c => Work.keeps_prune now' hc
  | expire now => exact h.of_queue fun c => Work.keeps_expireLocalSkips now
  | gossip catalog => exact ⟨h.orders, h.sound, h.flight, h.alone⟩

/-- In every run from an empty queue in which no review is asked for of a row that a worker is on and pruning
takes no such row out, each CID is held by one worker at most. -/
theorem held_once (w : Worker) (cfg : Work.Config) (catalog : Catalog.Tables) (turns : List Turn)
    (hc : Along (step w cfg) (Careful cfg) (opening catalog) turns) (i j : ℕ) (cid : Text)
    (hi : (run (step w cfg) (opening catalog) turns).Holds i cid)
    (hj : (run (step w cfg) (opening catalog) turns).Holds j cid) : i = j :=
  (run_invariant apart_step (apart_opening catalog) hc).alone i j cid hi hj

section Samples

theorem holds_of_any {s : Office} {i : ℕ} {cid : Text}
    (h : (s.jobs i).any (fun job => job.row.cid = cid && !settled job.events) = true) : s.Holds i cid := by
  obtain ⟨job, hjob, hcid⟩ := some_of_any h
  rw [Bool.and_eq_true, decide_eq_true_eq, Bool.not_eq_true'] at hcid
  exact ⟨job, hjob, hcid⟩

def reviewedTwice : List Turn :=
  [.review pageCid none 1000, .take 0 1000, .review pageCid none 1001, .take 1 1001]

theorem held_twice :
    (run (step pageWorker {}) (opening Catalog.empty) reviewedTwice).Holds 0 pageCid ∧
      (run (step pageWorker {}) (opening Catalog.empty) reviewedTwice).Holds 1 pageCid :=
  ⟨holds_of_any (by decide +kernel), holds_of_any (by decide +kernel)⟩

def reviewedOnce : List Turn :=
  [.review pageCid none 1000, .take 0 1000, .prune 1001 1001, .take 1 1001]

theorem held_once_reviewed :
    Along (step pageWorker {}) (Careful {}) (opening Catalog.empty) reviewedOnce ∧
      ∀ j, (run (step pageWorker {}) (opening Catalog.empty) reviewedOnce).Holds j pageCid → 0 = j :=
  have hc : Along (step pageWorker {}) (Careful {}) (opening Catalog.empty) reviewedOnce := by decide +kernel
  ⟨hc, fun j hj => held_once pageWorker {} Catalog.empty reviewedOnce hc 0 j pageCid (holds_of_any (by decide +kernel)) hj⟩

end Samples

end ObserverClub.Office
