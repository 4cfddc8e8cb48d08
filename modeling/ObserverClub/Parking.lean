import ObserverClub.LostReview
import ObserverClub.Library.Selection

namespace ObserverClub.Indexer

open Library Library.Program Python Catalog Store

section Outcome

variable {w : Worker} {cid : Text} {answers : (a : Action) → Answer a} {me : Option Text} {now : ℚ} {claim : Claim}

theorem outcome_lookupCid (hdoc : answers (.docOf cid) = .ok none) (hfirst : answers (.firstClassifyOf cid) = .ok none)
    (hme : answers .peerID = .ok me) (hclock : answers .clock = .ok now)
    (hclaim : answers (.claimOf cid now (orEmpty me)) = .ok (some claim)) :
    outcome answers (lookupCid w cid).run = .ok (some (.claim claim)) := by
  have hpreferred : outcome answers (preferred cid).run = .ok none := (outcome_call hdoc).trans hfirst
  apply (outcome_task hpreferred).trans
  apply (outcome_call hme).trans
  apply (outcome_call hclock).trans
  exact outcome_call hclaim

theorem outcome_localClassified (hme : answers .peerID = .ok me)
    (hlocal : ∃ b, answers (.localClassified cid (orEmpty me)) = .ok b) :
    ∃ b, outcome answers (localClassified cid).run = .ok b := by
  obtain ⟨b, hb⟩ := hlocal
  have hrun : outcome answers (localClassified cid).run =
      outcome answers (if orEmpty me = [] then pure false else call (.localClassified cid (orEmpty me)) : Proc Bool).run :=
    outcome_call hme
  rw [hrun]
  split_ifs
  · exact ⟨false, rfl⟩
  · exact ⟨b, hb⟩

theorem outcome_mustClassify (hme : answers .peerID = .ok me)
    (hlocal : ∃ b, answers (.localClassified cid (orEmpty me)) = .ok b)
    (hreview : ∃ b, answers (.needsReview cid) = .ok b) (hpubs : ∃ pubs, answers (.independentPublishers cid) = .ok pubs) :
    ∃ b, outcome answers (mustClassify cid).run = .ok b := by
  obtain ⟨mine, hmine⟩ := outcome_localClassified hme hlocal
  obtain ⟨review, hreview⟩ := hreview
  obtain ⟨pubs, hpubs⟩ := hpubs
  rw [mustClassify, outcome_task hmine]
  cases mine with
  | true => exact ⟨false, rfl⟩
  | false =>
    have hrun : outcome answers (if false = true then pure false else do
          let review ← call (.needsReview cid)
          if review then pure true else shouldSecondClassify cid : Proc Bool).run =
        outcome answers (if review = true then pure true else shouldSecondClassify cid : Proc Bool).run :=
      outcome_call hreview
    rw [hrun]
    cases review with
    | true => exact ⟨true, rfl⟩
    | false =>
      have hsecond : outcome answers (shouldSecondClassify cid).run = .ok (decide (pubs.length = 1)) := by
        rw [shouldSecondClassify, outcome_task hmine]
        exact outcome_call hpubs
      exact ⟨_, hsecond⟩

theorem outcome_foreignLiveClaim (hme : answers .peerID = .ok me) (hclock : answers .clock = .ok now)
    (hlive : after claim.untilTime now = true) (hother : claim.publisher ≠ orEmpty me) :
    outcome answers (foreignLiveClaim claim).run = .ok true := by
  apply (outcome_call hclock).trans
  rw [hlive]
  apply (outcome_call hme).trans
  rw [decide_eq_true (Or.inr hother)]
  rfl

theorem outcome_hook (hdoc : answers (.docOf cid) = .ok none) (hfirst : answers (.firstClassifyOf cid) = .ok none)
    (hme : answers .peerID = .ok me) (hclock : answers .clock = .ok now)
    (hclaim : answers (.claimOf cid now (orEmpty me)) = .ok (some claim))
    (hlive : after claim.untilTime now = true) (hother : claim.publisher ≠ orEmpty me)
    (hlocal : ∃ b, answers (.localClassified cid (orEmpty me)) = .ok b)
    (hreview : ∃ b, answers (.needsReview cid) = .ok b) (hpubs : ∃ pubs, answers (.independentPublishers cid) = .ok pubs)
    (hmark : answers (.mark cid .discovered {}) = .ok ()) :
    outcome answers (hook w cid).run = .ok (some false) := by
  obtain ⟨rerun, hrerun⟩ := outcome_mustClassify hme hlocal hreview hpubs
  apply (outcome_task (outcome_lookupCid hdoc hfirst hme hclock hclaim)).trans
  apply (outcome_task hrerun).trans
  apply (outcome_task (outcome_foreignLiveClaim hme hclock hlive hother)).trans
  exact outcome_call hmark

theorem hook_puts_back {events : List (Event Answer)} (h : Completes (hook w cid).run events (.ok (some false))) :
    ∃ reads, events = reads ++ [⟨.mark cid .discovered {}, .ok ()⟩] ∧ (∀ e ∈ reads, e.1.reads = true) ∧
      FoundClaim reads := by
  obtain ⟨s₁, s₂, hit, rfl, h₁, h₂⟩ := completes_task h
  have hclaim := lookupCid_claim h₁
  have hs₁ := (reading_lookupCid w cid).completes h₁
  cases hit with
  | none => cases (completes_done h₂).2
  | some hit =>
    obtain ⟨s₃, s₄, rerun, rfl, h₃, h₄⟩ := completes_task h₂
    have hs₃ := (plain_mustClassify cid).completes h₃
    cases hit with
    | skip skip =>
      simp only [afterHit] at h₄
      split_ifs at h₄
      · cases (completes_done h₄).2
      · obtain ⟨now, r₁, rfl, h₅⟩ := completes_call h₄
        obtain ⟨u, r₂, rfl, h₆⟩ := completes_call h₅
        cases (completes_done h₆).2
    | classify row =>
      simp only [afterHit] at h₄
      split_ifs at h₄
      · cases (completes_done h₄).2
      · obtain ⟨u, r₁, rfl, h₅⟩ := completes_call h₄
        cases (completes_done h₅).2
    | claim claim =>
      obtain ⟨s₅, s₆, foreign, rfl, h₅, h₆⟩ := completes_task h₄
      cases foreign with
      | false => cases (completes_done h₆).2
      | true =>
        obtain ⟨u, r₁, rfl, h₇⟩ := completes_call h₆
        obtain ⟨rfl, -⟩ := completes_done h₇
        have hs₅ := (plain_foreignLiveClaim claim).completes h₅
        refine ⟨s₁ ++ (s₃ ++ s₅), by simp only [List.append_assoc], fun e he => ?_, ?_⟩
        · obtain he | he := List.mem_append.mp he
          · exact hs₁ e he
          · obtain he | he := List.mem_append.mp he
            · exact Action.reads_of_plain (hs₃ e he)
            · exact Action.reads_of_plain (hs₅ e he)
        · exact foundClaim_append.mpr (Or.inl (hclaim.mp ⟨claim, rfl⟩))

end Outcome

end ObserverClub.Indexer

namespace ObserverClub.Work

open Library Indexer

theorem mark_process {t : Tables} {r : Queued} (hkey : Table.Keyed Queued.cid t.cids) (hr : r ∈ t.cids)
    (hd : r.discovered = true) : ((mark r.cid .discovered {}).run ((process r.cid).run t).2).2 = t := by
  have hcids : ((mark r.cid .discovered {}).run ((process r.cid).run t).2).2.cids = t.cids := by
    change (t.cids.map _).map _ = _
    rw [List.map_map]
    apply (List.map_congr_left _).trans (List.map_id _)
    intro q hq
    rw [Function.comp_apply]
    by_cases hc : q.cid = r.cid
    · have hsame := hkey.eq_of_key hq hr hc
      subst hsame
      have hstatus : q.status = .discovered := of_decide_eq_true hd
      simp only [decide_true, ↓reduceIte]
      unfold Columns.write
      rw [← hstatus]
      rfl
    · simp only [hc, decide_false, Bool.false_eq_true, ↓reduceIte, id]
  exact congrArg (fun cids => ({ t with cids := cids } : Tables)) hcids

end ObserverClub.Work

namespace ObserverClub.Office

open Library Library.Program Python Indexer Catalog Store

variable {w : Worker} {cfg : Work.Config}

section Acting

variable {s : Office} {i : ℕ} {world : World}

/-- What the calls of the skip-hook answer, whatever is in the queue. -/
def answersOf (w : Worker) (cfg : Work.Config) (world : World) (t : Catalog.Tables) (a : Action) : Answer a :=
  (serve w cfg world ⟨t, Work.empty, fun _ => none⟩ a).1

theorem serve_answer {a : Action} (h : hooked a = true) (s : Office) :
    (serve w cfg world s a).1 = answersOf w cfg world s.catalog a := by
  unfold answersOf serve
  cases world.raises <;> cases a <;> first | rfl | cases h

theorem acts_play {p : Program Answer Unit} {row : Row} {events : List (Event Answer)}
    (hjob : s.jobs i = some ⟨row, events, p⟩)
    (hp : ∀ e ∈ play (answersOf w cfg world s.catalog) p, hooked e.1 = true) :
    (run (step w cfg) s (List.replicate (play (answersOf w cfg world s.catalog) p).length (.act i world))).jobs i =
        some ⟨row, events ++ play (answersOf w cfg world s.catalog) p, .done ()⟩ ∧
      (run (step w cfg) s (List.replicate (play (answersOf w cfg world s.catalog) p).length (.act i world))).queue =
        (play (answersOf w cfg world s.catalog) p).foldl noted s.queue := by
  induction p generalizing s events with
  | done u =>
    refine ⟨?_, rfl⟩
    rw [play, List.append_nil]
    exact hjob
  | act a next ih =>
    rw [play] at hp
    obtain ⟨ha, hrest⟩ := List.forall_mem_cons.mp hp
    have hstep : step w cfg s (.act i world) =
        ⟨(serve w cfg world s a).2.catalog, (serve w cfg world s a).2.queue, Function.update s.jobs i
          (some ⟨row, events ++ [⟨a, (serve w cfg world s a).1⟩], next (serve w cfg world s a).1⟩)⟩ := by
      rw [step, act, hjob]
    have hcat : (step w cfg s (.act i world)).catalog = s.catalog := by
      rw [hstep]
      exact serve_catalog
    have hj : (step w cfg s (.act i world)).jobs i =
        some ⟨row, events ++ [⟨a, answersOf w cfg world s.catalog a⟩], next (answersOf w cfg world s.catalog a)⟩ := by
      rw [hstep, ← serve_answer ha]
      exact Function.update_self ..
    have hq : (step w cfg s (.act i world)).queue = noted s.queue ⟨a, answersOf w cfg world s.catalog a⟩ := by
      rw [hstep, ← serve_answer ha]
      exact serve_noted ha
    have hnext := ih _ hj
    rw [hcat, hq] at hnext
    obtain ⟨hjobs, hqueue⟩ := hnext hrest
    rw [List.append_assoc] at hjobs
    exact ⟨hjobs, hqueue⟩

def Between (cid : Text) (lo hi : ℚ) : Turn → Prop
  | .take _ now => lo ≤ now ∧ now ≤ hi
  | .act _ world => (lo ≤ world.now ∧ world.now ≤ hi) ∧ lo ≤ world.external .clock ∧ world.external .clock ≤ hi
  | .review c _ now => c ≠ cid ∧ lo ≤ now ∧ now ≤ hi
  | .sight _ now => lo ≤ now ∧ now ≤ hi
  | .prune now now' => (lo ≤ now ∧ now ≤ hi) ∧ lo ≤ now' ∧ now' ≤ hi
  | .expire now => lo ≤ now ∧ now ≤ hi
  | .gossip _ => False

/-- Worker `i` has put the CID back because of a claim. -/
def PutBack (s : Office) (i : ℕ) (cid : Text) : Prop :=
  ∃ job reads, s.jobs i = some job ∧ job.rest.result.isSome = true ∧
    job.events = reads ++ [⟨.mark cid .discovered {}, .ok ()⟩] ∧ FoundClaim reads

/-- Once a worker that takes the CID has put it back, no batch hands it out before the claim ends, as long as
nothing is taken in about it. -/
def Parks (w : Worker) (cfg : Work.Config) (s : Office) (i : ℕ) (cid : Text) (now : ℚ) (claim : Claim) : Prop :=
  ∀ turns later limit, (∀ turn ∈ turns, Between cid now later turn) → after claim.untilTime later = true →
    PutBack (run (step w cfg) s (.take i now :: turns)) i cid →
    ∀ row ∈ ((Work.takeBatch cfg later limit).run (run (step w cfg) s (.take i now :: turns)).queue).1, row.cid ≠ cid

/-- Nobody has classified the CID. -/
def Unclassified (t : Catalog.Tables) (cid : Text) : Prop :=
  (∀ d ∈ t.docs, d.cid ≠ cid) ∧ ∀ c ∈ t.classifies, c.cid ≠ cid

/-- Another publisher than this node holds the CID. -/
def Claimed (t : Catalog.Tables) (me : Text) (cid : Text) (now : ℚ) (claim : Claim) : Prop :=
  claim ∈ t.claims ∧ claim.cid = cid ∧ claim.publisher ≠ me ∧ after claim.untilTime now = true

/-- No call raises, and the clock does not move. -/
def Still (me : Option Text) (now : ℚ) (world : World) : Prop :=
  world.raises = none ∧ world.now = now ∧ world.external .clock = now ∧ world.external .peerID = me

end Acting

section Taken

variable {s : Office} {i : ℕ} {world : World} {row : Row} {me : Option Text} {now : ℚ} {claim : Claim}
  {t : Catalog.Tables} {cid : Text}

theorem classifiesOf_unclassified (h : Unclassified t cid) : classifiesOf cid t = [] := by
  apply List.filter_eq_nil_iff.mpr
  intro c hc hcid
  exact h.2 c hc (of_decide_eq_true hcid)

theorem outcome_hook_claimed (hstill : Still me now world) (hfree : Unclassified t cid)
    (hclaim : Claimed t (orEmpty me) cid now claim) :
    outcome (answersOf w cfg world t) (hook w cid).run = .ok (some false) := by
  obtain ⟨hraises, -, hclock, hme⟩ := hstill
  obtain ⟨hmem, hcid, hother, hlive⟩ := hclaim
  have hanswer (a : Action) (ha : a.leases = false) (hq : queueing w cfg world a = none) :
      answersOf w cfg world t a = (query w.observer.py t a).getD (.ok (world.external a)) := by
    unfold answersOf serve
    rw [ha, hraises, hq]
    rfl
  have hsome : foreignClaim (orEmpty me) now t cid ≠ none := by
    intro hnone
    have hforeign := foreignClaim_eq_none.mp hnone claim hmem
    rw [isForeign, decide_eq_true hcid, hlive, decide_eq_true hother] at hforeign
    cases hforeign
  obtain ⟨found, hfound⟩ := Option.ne_none_iff_exists'.mp hsome
  have hkind := (foreignClaim_some hfound).2
  rw [isForeign, Bool.and_eq_true, Bool.and_eq_true, decide_eq_true_eq] at hkind
  have hdocs : Table.row? Doc.cid cid t.docs = none := Table.row?_eq_none.mpr hfree.1
  have hclock' : answersOf w cfg world t .clock = .ok now := by
    unfold answersOf serve
    rw [← hclock]
    rfl
  have hpeer : answersOf w cfg world t .peerID = .ok me := by
    rw [hanswer _ rfl rfl, ← hme]
    rfl
  have hlease : answersOf w cfg world t (.claimOf cid now (orEmpty me)) = .ok (some found) := by
    rw [hanswer _ rfl rfl, query, hfound]
    rfl
  refine outcome_hook ?_ ?_ hpeer hclock' hlease ?_ ?_ ?_ ?_ ?_ ?_
  · rw [hanswer _ rfl rfl, query, hdocs]
    rfl
  · rw [hanswer _ rfl rfl, query, classifiesOf_unclassified hfree]
    rfl
  · exact hkind.1.2
  · exact of_decide_eq_true hkind.2
  · exact ⟨_, hanswer _ rfl rfl⟩
  · exact ⟨_, hanswer _ rfl rfl⟩
  · refine ⟨[], ?_⟩
    rw [hanswer _ rfl rfl, query, Labels.independentPublishers, Labels.votes, classifiesOf_unclassified hfree]
    rfl
  · unfold answersOf serve
    rw [hraises]
    rfl

theorem play_attend {answers : (a : Action) → Answer a} (hvalid : Cid.valid w.observer.upper (.str row.cid) = true)
    (h : outcome answers (hook w row.cid).run = .ok (some false)) :
    play answers (attend w row) = play answers (hook w row.cid).run := by
  have hprocess : play answers (processOne w row).run = play answers (hook w row.cid).run ∧
      outcome answers (processOne w row).run = .ok false := by
    rw [processOne, hvalid]
    constructor
    · apply (play_bind answers (hook w row.cid).run _).trans
      rw [h]
      exact List.append_nil _
    · apply (outcome_bind answers (hook w row.cid).run _).trans
      rw [h]
      rfl
  unfold attend
  rw [play_bind, hprocess.1, hprocess.2]
  exact List.append_nil _

theorem taken_again (hkey : Table.Keyed Work.Queued.cid s.queue.cids) (hidle : (s.jobs i).all Job.finished = true)
    (htaken : ((Work.takeBatch cfg now 1).run s.queue).1 = [row])
    (hvalid : Cid.valid w.observer.upper (.str row.cid) = true) (hfree : Unclassified s.catalog row.cid)
    (hclaim : Claimed s.catalog (orEmpty me) row.cid now claim) (hstill : Still me now world) :
    ∃ n, PutBack (run (step w cfg) s (.take i now :: List.replicate n (.act i world))) i row.cid ∧
      ((Work.takeBatch cfg now 1).run (run (step w cfg) s (.take i now :: List.replicate n (.act i world))).queue).1 =
        [row] := by
  obtain hnone | ⟨r, hr, hd, htake⟩ := Work.takeBatch_one (t := s.queue)
  · rw [hnone] at htaken
    cases htaken
  rw [htake] at htaken
  obtain rfl := List.singleton_injective htaken
  -- The row is in the hands of the worker.
  have hstep : step w cfg s (.take i now) = ⟨s.catalog, ((Work.process r.cid).run s.queue).2,
      Function.update s.jobs i (some (Job.start w ⟨r.cid, some r.codec, r.attempts⟩))⟩ := by
    rw [step, if_pos hidle, take, htake]
    rfl
  have hjob : (step w cfg s (.take i now)).jobs i = some (Job.start w ⟨r.cid, some r.codec, r.attempts⟩) := by
    rw [hstep]
    exact Function.update_self ..
  have hcat : (step w cfg s (.take i now)).catalog = s.catalog := by rw [hstep]
  have hhook := @outcome_hook_claimed w cfg _ _ _ _ _ _ hstill hfree hclaim
  have hcompletes := completes_play (answersOf w cfg world s.catalog) (hook w r.cid).run
  rw [hhook] at hcompletes
  obtain ⟨reads, hevents, hreads, hfound⟩ := hook_puts_back hcompletes
  have hplay := (play_attend hvalid hhook).trans hevents
  have hall : ∀ e ∈ play (answersOf w cfg world (step w cfg s (.take i now)).catalog)
      (attend w ⟨r.cid, some r.codec, r.attempts⟩), hooked e.1 = true := by
    rw [hcat, hplay]
    exact hooked_of_marks ⟨{}, rfl⟩ hreads
  obtain ⟨hjobs, hqueue⟩ := acts_play hjob hall
  rw [hcat, hplay] at hjobs hqueue
  refine ⟨_, ⟨_, reads, hjobs, rfl, rfl, hfound⟩, ?_⟩
  -- The queue is what it was before the row was taken.
  have hsame : (reads ++ [⟨.mark r.cid .discovered {}, .ok ()⟩] : List (Event Answer)).foldl noted
      (step w cfg s (.take i now)).queue = s.queue := by
    rw [List.foldl_append, foldl_noted_reads _ _ hreads, hstep]
    exact Work.mark_process hkey hr hd
  rw [run_cons, hqueue, hsame, htake]

/-- No claimed CID that a worker comes by stays parked. -/
theorem not_parks (w : Worker) (cfg : Work.Config) (s : Office) (i : ℕ) (row : Row) (world : World) (me : Option Text)
    (now : ℚ) (claim : Claim) (hkey : Table.Keyed Work.Queued.cid s.queue.cids)
    (hidle : (s.jobs i).all Job.finished = true) (htaken : ((Work.takeBatch cfg now 1).run s.queue).1 = [row])
    (hvalid : Cid.valid w.observer.upper (.str row.cid) = true) (hfree : Unclassified s.catalog row.cid)
    (hclaim : Claimed s.catalog (orEmpty me) row.cid now claim) (hstill : Still me now world) :
    ¬Parks w cfg s i row.cid now claim := by
  obtain ⟨n, hput, hagain⟩ := taken_again hkey hidle htaken hvalid hfree hclaim hstill
  intro hparks
  refine hparks _ now 1 ?_ hclaim.2.2.2 hput row (by rw [hagain]; exact List.mem_singleton_self row) rfl
  intro turn hturn
  obtain ⟨-, hnow, hclock, -⟩ := hstill
  rw [List.eq_of_mem_replicate hturn, Between, hnow, hclock]
  exact ⟨⟨le_refl _, le_refl _⟩, le_refl _, le_refl _⟩

end Taken

section Samples

def otherClaim : Claim := ⟨txt "12D3KooWOther", pageCid, .fin 1120⟩

def claimedPage : Office where
  catalog := { Catalog.empty with claims := [otherClaim] }
  queue := { Work.empty with
    cids := [{ cid := pageCid, codec := txt "raw", firstSeen := 900, lastSeen := 990, peerCount := 2, wantCount := 2 }] }
  jobs _ := none

theorem row_of_columns {rows : List Row} {row : Row}
    (h : rows.map (fun r => (r.cid, r.codec, r.attempts)) = [(row.cid, row.codec, row.attempts)]) : rows = [row] := by
  apply List.map_injective_iff.mpr _ h
  rintro ⟨cid, codec, attempts⟩ ⟨cid', codec', attempts'⟩ he
  cases he
  rfl

theorem claimedPage_taken : ((Work.takeBatch {} 1000 1).run claimedPage.queue).1 = [pageRow] :=
  row_of_columns (by decide +kernel)

theorem claimedPage_keyed : Table.Keyed Work.Queued.cid claimedPage.queue.cids := by
  unfold Table.Keyed
  decide +kernel

theorem claimedPage_claimed : Claimed claimedPage.catalog (txt "12D3KooWPeer") pageCid 1000 otherClaim :=
  ⟨List.mem_singleton_self _, rfl, by decide +kernel, by decide +kernel⟩

theorem claimedPage_free : Unclassified claimedPage.catalog pageCid :=
  ⟨fun _ h => absurd h List.not_mem_nil, fun _ h => absurd h List.not_mem_nil⟩

theorem claimed_taken_again :
    ∃ n, PutBack (run (step pageWorker {}) claimedPage (.take 0 1000 :: List.replicate n (.act 0 calm))) 0 pageCid ∧
      ((Work.takeBatch {} 1000 1).run
        (run (step pageWorker {}) claimedPage (.take 0 1000 :: List.replicate n (.act 0 calm))).queue).1 = [pageRow] :=
  @taken_again _ _ _ _ _ _ (some (txt "12D3KooWPeer")) _ _ claimedPage_keyed rfl claimedPage_taken
    (by decide +kernel) claimedPage_free claimedPage_claimed ⟨rfl, rfl, rfl, rfl⟩

theorem not_parks_page : ¬Parks pageWorker {} claimedPage 0 pageCid 1000 otherClaim :=
  not_parks pageWorker {} claimedPage 0 pageRow calm (some (txt "12D3KooWPeer")) 1000 otherClaim claimedPage_keyed rfl
    claimedPage_taken (by decide +kernel) claimedPage_free claimedPage_claimed ⟨rfl, rfl, rfl, rfl⟩

end Samples

end ObserverClub.Office
