import ObserverClub.Indexer

/-!
The parts of `process_one` that only read the catalog, and how the skip-hook ends.
-/

namespace ObserverClub.Indexer

open Library Python Library.Program Catalog Store

namespace Action

/-- Reads that do not look for a claim. -/
def plain : Action → Bool
  | .docOf _ => true
  | .firstClassifyOf _ => true
  | .peerID => true
  | .clock => true
  | .skipOf _ => true
  | .localClassified _ _ => true
  | .needsReview _ => true
  | .independentPublishers _ => true
  | .docByHash _ => true
  | .classifyByHash _ => true
  | _ => false

def reads : Action → Bool
  | .claimOf _ _ _ => true
  | a => a.plain

theorem reads_of_plain {a : Action} (h : a.plain = true) : a.reads = true := by
  cases a <;> first | rfl | cases h

end Action

section Only

variable {α β : Type}

def Plain (x : Proc α) : Prop := Only (fun a => a.plain = true) x.run

def Reading (x : Proc α) : Prop := Only (fun a => a.reads = true) x.run

theorem Plain.reading {x : Proc α} (h : Plain x) : Reading x := Only.mono h fun _ => Action.reads_of_plain

theorem plain_pure (x : α) : Plain (pure x) := trivial

theorem plain_call {a : Action} (h : a.plain = true) : Plain (call a) := only_call h

theorem plain_bind {x : Proc α} {f : α → Proc β} (hx : Plain x) (hf : ∀ a, Plain (f a)) : Plain (x >>= f) :=
  only_bind hx hf

theorem reading_call {a : Action} (h : a.reads = true) : Reading (call a) := only_call h

theorem reading_bind {x : Proc α} {f : α → Proc β} (hx : Reading x) (hf : ∀ a, Reading (f a)) : Reading (x >>= f) :=
  only_bind hx hf

theorem plain_preferred (cid : Text) : Plain (preferred cid) := by
  apply plain_bind (plain_call rfl)
  intro r
  cases r with
  | some row => apply plain_pure
  | none => exact plain_call rfl

theorem plain_skipIsLive (w : Worker) (s : Skip) : Plain (skipIsLive w s) := by
  unfold skipIsLive
  split_ifs
  · apply plain_pure
  · exact plain_bind (plain_call rfl) fun _ => plain_pure _

theorem plain_skipOf (w : Worker) (cid : Text) :
    Plain (do
      match ← call (.skipOf cid) with
      | none => return none
      | some s =>
        let live ← skipIsLive w s
        return if live then some (Hit.skip s) else none) := by
  apply plain_bind (plain_call rfl)
  intro skip
  cases skip with
  | none => apply plain_pure
  | some skip => exact plain_bind (plain_skipIsLive w skip) fun _ => plain_pure _

theorem reading_lookupCid (w : Worker) (cid : Text) : Reading (lookupCid w cid) := by
  apply reading_bind (plain_preferred cid).reading
  intro row
  cases row with
  | some row => exact (plain_pure _).reading
  | none =>
    apply reading_bind (reading_call rfl)
    intro me
    apply reading_bind (reading_call rfl)
    intro now
    apply reading_bind (reading_call rfl)
    intro claim
    cases claim with
    | some claim => exact (plain_pure _).reading
    | none => exact (plain_skipOf w cid).reading

theorem plain_localClassified (cid : Text) : Plain (localClassified cid) := by
  apply plain_bind (plain_call rfl)
  intro me
  split_ifs
  · apply plain_pure
  · exact plain_call rfl

theorem plain_shouldSecondClassify (cid : Text) : Plain (shouldSecondClassify cid) := by
  apply plain_bind (plain_localClassified cid)
  intro mine
  split_ifs
  · apply plain_pure
  · exact plain_bind (plain_call rfl) fun _ => plain_pure _

theorem plain_mustClassify (cid : Text) : Plain (mustClassify cid) := by
  apply plain_bind (plain_localClassified cid)
  intro mine
  split_ifs
  · apply plain_pure
  · apply plain_bind (plain_call rfl)
    intro review
    split_ifs
    · apply plain_pure
    · apply plain_shouldSecondClassify

theorem plain_foreignLiveClaim (claim : Claim) : Plain (foreignLiveClaim claim) := by
  apply plain_bind (plain_call rfl)
  intro now
  split_ifs
  · exact plain_bind (plain_call rfl) fun _ => plain_pure _
  · apply plain_pure

theorem plain_classifyByTextHash (fp : Text) : Plain (classifyByTextHash fp) := by
  apply plain_bind (plain_call rfl)
  intro doc
  cases doc with
  | some doc => apply plain_pure
  | none => exact plain_call rfl

end Only

section Stops

variable {w : Worker} {cid : Text} {events : List (Event Answer)}

/-- The lookup came upon a live claim. -/
def FoundClaim (events : List (Event Answer)) : Prop :=
  ∃ (cid : Text) (now : ℚ) (me : Text) (claim : Claim), (⟨.claimOf cid now me, .ok (some claim)⟩ : Event Answer) ∈ events

theorem not_foundClaim (h : ∀ e ∈ events, e.1.plain = true) : ¬FoundClaim events := by
  rintro ⟨cid, now, me, claim, hmem⟩
  cases h _ hmem

theorem foundClaim_append {more : List (Event Answer)} :
    FoundClaim (events ++ more) ↔ FoundClaim events ∨ FoundClaim more := by
  constructor
  · rintro ⟨cid, now, me, claim, hmem⟩
    obtain hmem | hmem := List.mem_append.mp hmem
    · exact Or.inl ⟨cid, now, me, claim, hmem⟩
    · exact Or.inr ⟨cid, now, me, claim, hmem⟩
  · rintro (⟨cid, now, me, claim, hmem⟩ | ⟨cid, now, me, claim, hmem⟩)
    · exact ⟨cid, now, me, claim, List.mem_append_left _ hmem⟩
    · exact ⟨cid, now, me, claim, List.mem_append_right _ hmem⟩

theorem foundClaim_cons_plain {e : Event Answer} (he : e.1.plain = true) : FoundClaim (e :: events) ↔ FoundClaim events := by
  rw [← List.singleton_append, foundClaim_append, or_iff_right]
  apply not_foundClaim
  intro e' hmem
  rw [List.mem_singleton.mp hmem]
  exact he

theorem foundClaim_nil : ¬FoundClaim [] := not_foundClaim fun _ h => absurd h List.not_mem_nil

theorem lookupCid_claim {hit : Option Hit} (h : Completes (lookupCid w cid).run events (.ok hit)) :
    (∃ claim, hit = some (.claim claim)) ↔ FoundClaim events := by
  obtain ⟨s₁, s₂, row, rfl, h₁, h₂⟩ := completes_task h
  rw [foundClaim_append, or_iff_right (not_foundClaim ((plain_preferred cid).completes h₁))]
  cases row with
  | some row =>
    obtain ⟨rfl, hr⟩ := completes_done h₂
    cases hr
    exact iff_of_false (fun ⟨_, hc⟩ => by cases hc) foundClaim_nil
  | none =>
    obtain ⟨me, r₁, rfl, h₃⟩ := completes_call h₂
    obtain ⟨now, r₂, rfl, h₄⟩ := completes_call h₃
    obtain ⟨claim, r₃, rfl, h₅⟩ := completes_call h₄
    rw [foundClaim_cons_plain rfl, foundClaim_cons_plain rfl]
    cases claim with
    | some claim =>
      obtain ⟨rfl, hr⟩ := completes_done h₅
      cases hr
      exact iff_of_true ⟨claim, rfl⟩ ⟨cid, now, orEmpty me, claim, List.mem_singleton_self _⟩
    | none =>
      apply iff_of_false
      · rintro ⟨claim, rfl⟩
        obtain ⟨skip, r₄, rfl, h₆⟩ := completes_call h₅
        cases skip with
        | none => cases (completes_done h₆).2
        | some skip =>
          obtain ⟨s₅, s₆, live, rfl, -, h₇⟩ := completes_task h₆
          have hr := (completes_done h₇).2
          cases live <;> cases hr
      · rintro ⟨cid', now', me', claim, hmem⟩
        obtain hmem | hmem := List.mem_cons.mp hmem
        · cases hmem
        · cases (plain_skipOf w cid).completes h₅ _ hmem

def Marks (cid : Text) (status : Status) (events reads : List (Event Answer)) : Prop :=
  ∃ columns, events = reads ++ [⟨.mark cid status columns, .ok ()⟩]

theorem afterHit_stops {rerun : Bool} {hit : Hit} {b : Bool}
    (h : Completes (afterHit cid rerun hit).run events (.ok (some b))) :
    ∃ reads status, Marks cid status events reads ∧ (∀ e ∈ reads, e.1.plain = true) ∧
      (status = .discovered ↔ ∃ claim, hit = .claim claim) := by
  cases hit with
  | skip s =>
    simp only [afterHit] at h
    split_ifs at h
    · cases (completes_done h).2
    · obtain ⟨now, r₁, rfl, h₁⟩ := completes_call h
      obtain ⟨u, r₂, rfl, h₂⟩ := completes_call h₁
      obtain ⟨rfl, -⟩ := completes_done h₂
      refine ⟨[⟨.clock, .ok now⟩], .skipped, ⟨_, rfl⟩, fun e he => ?_, iff_of_false nofun nofun⟩
      rw [List.mem_singleton.mp he]
      rfl
  | classify row =>
    simp only [afterHit] at h
    split_ifs at h
    · cases (completes_done h).2
    · obtain ⟨u, r₁, rfl, h₁⟩ := completes_call h
      obtain ⟨rfl, -⟩ := completes_done h₁
      exact ⟨[], .indexed, ⟨_, rfl⟩, fun e he => absurd he List.not_mem_nil, iff_of_false nofun nofun⟩
  | claim claim =>
    obtain ⟨s₁, s₂, foreign, rfl, h₁, h₂⟩ := completes_task h
    cases foreign with
    | false => cases (completes_done h₂).2
    | true =>
      obtain ⟨u, r₁, rfl, h₃⟩ := completes_call h₂
      obtain ⟨rfl, -⟩ := completes_done h₃
      exact ⟨s₁, .discovered, ⟨_, rfl⟩, (plain_foreignLiveClaim claim).completes h₁, iff_of_true rfl ⟨claim, rfl⟩⟩

theorem hook_stops {b : Bool} (h : Completes (hook w cid).run events (.ok (some b))) :
    ∃ reads status, Marks cid status events reads ∧ (∀ e ∈ reads, e.1.reads = true) ∧
      (status = .discovered ↔ FoundClaim reads) := by
  obtain ⟨s₁, s₂, hit, rfl, h₁, h₂⟩ := completes_task h
  have hclaim := lookupCid_claim h₁
  have hs₁ := (reading_lookupCid w cid).completes h₁
  cases hit with
  | none => cases (completes_done h₂).2
  | some hit =>
    obtain ⟨s₃, s₄, rerun, rfl, h₃, h₄⟩ := completes_task h₂
    have hs₃ := (plain_mustClassify cid).completes h₃
    obtain ⟨reads, status, ⟨columns, rfl⟩, hreads, hstatus⟩ := afterHit_stops h₄
    refine ⟨s₁ ++ (s₃ ++ reads), status, ⟨columns, by simp only [List.append_assoc]⟩, fun e he => ?_, ?_⟩
    · obtain he | he := List.mem_append.mp he
      · exact hs₁ e he
      · obtain he | he := List.mem_append.mp he
        · exact Action.reads_of_plain (hs₃ e he)
        · exact Action.reads_of_plain (hreads e he)
    · rw [hstatus, foundClaim_append, foundClaim_append, or_iff_left, ← hclaim]
      · simp only [Option.some.injEq]
      · rintro (hf | hf)
        · exact not_foundClaim hs₃ hf
        · exact not_foundClaim hreads hf

end Stops

end ObserverClub.Indexer
