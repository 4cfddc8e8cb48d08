import ObserverClub.ClaimSteps
import ObserverClub.Library.Runs

namespace ObserverClub.Claims

open Library

/-- A call of `Allow`, which reads the clock twice, or of `Clear`. -/
inductive Call where
  | allow (publisher cid : Text) (untilTime now now' : Time)
  | clear (publisher cid : Text)

def step (t : ClaimTracker) : Call → ClaimTracker
  | .allow publisher cid untilTime now now' => (allow now now' t publisher cid untilTime).2
  | .clear publisher cid => clear t publisher cid

def Call.readings : Call → List Time
  | .allow _ _ _ now now' => [now, now']
  | .clear _ _ => []

/-- The clock has left the zero time behind and never goes back. -/
structure Clocked (calls : List Call) : Prop where
  ordered : (calls.flatMap Call.readings).Pairwise (· ≤ ·)
  past : ∀ r ∈ calls.flatMap Call.readings, 0 < r

def Allowed (t : ClaimTracker) (publisher cid : Text) (untilTime : Time) : Call → Prop
  | .allow p c u now now' => p = publisher ∧ c = cid ∧ u = untilTime ∧ (allow now now' t p c u).1 = true
  | .clear _ _ => False

def Clears (publisher cid : Text) : Call → Prop
  | .allow _ _ _ _ _ => False
  | .clear p c => p = publisher ∧ (c = cid ∨ c = [])

/-- A claim on the CID was answered true, which lasts past `time`, and since then it was not cleared, nor followed by one
on the same CID that does not last as long. -/
def Outstanding (calls : List Call) (publisher cid : Text) (time : Time) : Prop :=
  ∃ before c after untilTime, calls = before ++ c :: after ∧ Allowed (run step new before) publisher cid untilTime c ∧
    time < untilTime ∧ (∀ d ∈ after, ¬Clears publisher cid d) ∧
    ∀ mid d rest u, after = mid ++ d :: rest → Allowed (run step new (before ++ c :: mid)) publisher cid u d → time < u

section Steps

variable {publisher cid : Text}

theorem step_cases (t : ClaimTracker) (d : Call) (hp : publisher ≠ []) :
    (∃ c u now now', d = .allow publisher c u now now' ∧ c ≠ [] ∧ Allowed t publisher c u d ∧ Free now now' t publisher c u ∧
      (step t d).live publisher = some ⟨c, u⟩) ∨
    (∃ cur, t.live publisher = some cur ∧ Clears publisher cur.cid d ∧ (step t d).live publisher = none) ∨
    ((step t d).live publisher = t.live publisher ∧ (∀ c u, c ≠ [] → ¬Allowed t publisher c u d) ∧
      ∀ cur, t.live publisher = some cur → ¬Clears publisher cur.cid d) := by
  cases d with
  | allow p c u now now' =>
    obtain ⟨hnamed, h⟩ | ⟨⟨-, hc⟩, hfree, h⟩ | ⟨-, -, h⟩ := allow_cases now now' t p c u
    · refine Or.inr (Or.inr ⟨?_, ?_, fun _ _ => id⟩)
      · rw [step, h]
      · rintro c' u' hc' ⟨rfl, rfl, -⟩
        exact hnamed.elim hp hc'
    · by_cases hpub : p = publisher
      · subst hpub
        refine Or.inl ⟨c, u, now, now', rfl, hc, ⟨rfl, rfl, rfl, by rw [h]⟩, hfree, ?_⟩
        rw [step, h, live_take, if_pos rfl]
      · refine Or.inr (Or.inr ⟨?_, ?_, fun _ _ => id⟩)
        · rw [step, h, live_take, if_neg fun he => hpub he.symm]
        · exact fun c' u' _ ha => hpub ha.1
    · refine Or.inr (Or.inr ⟨?_, ?_, fun _ _ => id⟩)
      · rw [step, h]
      · rintro c' u' - ⟨-, -, -, ha⟩
        rw [h] at ha
        cases ha
  | clear p c =>
    obtain ⟨⟨-, cur, hcur, hcid⟩, h⟩ | ⟨hother, h⟩ := clear_cases t p c
    · by_cases hpub : p = publisher
      · subst hpub
        refine Or.inr (Or.inl ⟨cur, hcur, ⟨rfl, ?_⟩, ?_⟩)
        · exact hcid.elim Or.inr fun he => Or.inl he.symm
        · rw [step, h, live_release, if_pos rfl]
      · refine Or.inr (Or.inr ⟨?_, fun _ _ _ => id, fun _ _ hclears => hpub hclears.1⟩)
        rw [step, h, live_release, if_neg fun he => hpub he.symm]
    · refine Or.inr (Or.inr ⟨by rw [step, h], fun _ _ _ => id, ?_⟩)
      rintro cur hcur ⟨rfl, hcid⟩
      obtain ⟨hc, hne⟩ := hother hp cur hcur
      exact hcid.elim (fun he => hne he.symm) hc

end Steps

section Histories

variable {publisher cid : Text} {time : Time} {calls : List Call}

theorem live_of_outstanding (hp : publisher ≠ []) (hc : cid ≠ []) (hclock : ∀ r ∈ calls.flatMap Call.readings, r ≤ time)
    (h : Outstanding calls publisher cid time) :
    ∃ u, (run step new calls).live publisher = some ⟨cid, u⟩ ∧ time < u := by
  obtain ⟨before, c, after, u, rfl, hallowed, hlasts, hkept, hrenewed⟩ := h
  induction after using List.reverseRecOn with
  | nil =>
    refine ⟨u, ?_, hlasts⟩
    rw [run_append, run_cons, run_nil]
    obtain ⟨c', u', now, now', rfl, -, -, -, hlive⟩ | ⟨cur, -, hclears, -⟩ | ⟨-, hnone, -⟩ :=
      step_cases (run step new before) c hp
    · obtain ⟨-, rfl, rfl, -⟩ := hallowed
      exact hlive
    · cases c with
      | allow _ _ _ _ _ => cases hclears
      | clear _ _ => cases hallowed
    · exact absurd hallowed (hnone cid u hc)
  | append_singleton after d ih =>
    have hreadings : ∀ r ∈ (before ++ c :: after).flatMap Call.readings, r ≤ time := by
      intro r hr
      apply hclock
      rw [← List.cons_append, ← List.append_assoc, List.flatMap_append]
      exact List.mem_append_left _ hr
    obtain ⟨u₀, hlive, hu₀⟩ := ih hreadings (fun e he => hkept e (List.mem_append_left _ he)) fun mid e rest v hsplit =>
      hrenewed mid e (rest ++ [d]) v (by rw [hsplit, List.append_assoc]; rfl)
    have hd := hrenewed after d []
    have hrun : run step new (before ++ c :: (after ++ [d])) = step (run step new (before ++ c :: after)) d := by
      rw [← List.cons_append, ← List.append_assoc, run_append]
      rfl
    rw [hrun]
    obtain ⟨c', u', now, now', rfl, -, hallowed', hfree, hlive'⟩ | ⟨cur, hcur, hclears, -⟩ | ⟨hsame, -, -⟩ :=
      step_cases (run step new (before ++ c :: after)) d hp
    · obtain hpast | rfl := hfree.alone _ hlive
      · have hnow : now' ≤ time := by
          apply hclock
          simp [Call.readings]
        exact absurd (hpast.trans hnow) (not_le.mpr hu₀)
      · exact ⟨u', hlive', hd u' rfl hallowed'⟩
    · cases hlive.symm.trans hcur
      exact absurd hclears (hkept d (List.mem_append_right _ (List.mem_singleton_self d)))
    · exact ⟨u₀, hsame.trans hlive, hu₀⟩

theorem Outstanding.snoc (h : Outstanding calls publisher cid time) {d : Call} (hkept : ¬Clears publisher cid d)
    (hrenewed : ∀ u, Allowed (run step new calls) publisher cid u d → time < u) :
    Outstanding (calls ++ [d]) publisher cid time := by
  obtain ⟨before, c, after, u, rfl, hallowed, hlasts, hall, hlater⟩ := h
  refine ⟨before, c, after ++ [d], u, by rw [List.append_assoc]; rfl, hallowed, hlasts, ?_, ?_⟩
  · intro e he
    obtain he | he := List.mem_append.mp he
    · exact hall e he
    · rw [List.mem_singleton.mp he]
      exact hkept
  · intro mid e rest v hsplit ha
    obtain ⟨-, rfl, rfl⟩ | ⟨rest', -, rfl⟩ := split_snoc hsplit
    · exact hrenewed v ha
    · exact hlater mid e rest' v rfl ha

theorem outstanding_of_live (hp : publisher ≠ []) {u : Time} (h : (run step new calls).live publisher = some ⟨cid, u⟩)
    (hu : time < u) : cid ≠ [] ∧ Outstanding calls publisher cid time := by
  induction calls using List.reverseRecOn with
  | nil => cases h
  | append_singleton calls d ih =>
    rw [run_append, run_cons, run_nil] at h
    obtain ⟨c, u', now, now', rfl, hc, hallowed, -, hlive⟩ | ⟨cur, -, -, hlive⟩ | ⟨hsame, hnone, hkept⟩ :=
      step_cases (run step new calls) d hp
    · cases hlive.symm.trans h
      refine ⟨hc, calls, _, [], u, rfl, hallowed, hu, fun e he => absurd he List.not_mem_nil, ?_⟩
      intro mid e rest v hsplit
      cases mid <;> cases hsplit
    · cases hlive.symm.trans h
    · rw [hsame] at h
      obtain ⟨hc, hout⟩ := ih h
      exact ⟨hc, hout.snoc (hkept _ h) fun v hv => absurd hv (hnone cid v hc)⟩

/-- A claim that is answered true is not over yet, and no other of the publisher's is outstanding; one that is not over yet
is refused only where another is. -/
theorem one_claim_live (calls : List Call) (hclock : Clocked calls) (before after : List Call) (publisher cid : Text)
    (untilTime now now' : Time) (hcalls : calls = before ++ .allow publisher cid untilTime now now' :: after)
    (hp : publisher ≠ []) (hc : cid ≠ []) :
    ((allow now now' (run step new before) publisher cid untilTime).1 = true →
      now < untilTime ∧ ∀ other, other ≠ [] → other ≠ cid → ¬Outstanding before publisher other now') ∧
    ((allow now now' (run step new before) publisher cid untilTime).1 = false → now < untilTime →
      ∃ other, other ≠ [] ∧ other ≠ cid ∧ Outstanding before publisher other now') := by
  subst hcalls
  obtain ⟨hordered, hpast⟩ := hclock
  rw [List.flatMap_append, List.flatMap_cons] at hordered hpast
  obtain ⟨-, -, hthen⟩ := List.pairwise_append.mp hordered
  have hreadings : ∀ r ∈ before.flatMap Call.readings, r ≤ now' := fun r hr => hthen r hr now' (by simp [Call.readings])
  have hnow : 0 < now := hpast now (by simp [Call.readings])
  obtain ⟨hnamed, -⟩ | ⟨-, hfree, h⟩ | ⟨-, hbusy, h⟩ := allow_cases now now' (run step new before) publisher cid untilTime
  · exact absurd hnamed (not_or.mpr ⟨hp, hc⟩)
  · rw [h]
    refine ⟨fun _ => ⟨hfree.later, fun other hother hne hout => ?_⟩, nofun⟩
    obtain ⟨u, hlive, hu⟩ := live_of_outstanding hp hother hreadings hout
    exact (hfree.alone _ hlive).elim (not_le.mpr hu) hne
  · rw [h]
    refine ⟨nofun, fun _ hlater => ?_⟩
    have hset : untilTime ≠ 0 := (hnow.trans hlater).ne'
    cases hlive : (run step new before).live publisher with
    | none => exact absurd ⟨hset, hlater, fun cur hcur => by rw [hlive] at hcur; cases hcur⟩ hbusy
    | some cur =>
      have hlasts : now' < cur.untilTime ∧ cur.cid ≠ cid := by
        by_contra hnot
        refine hbusy ⟨hset, hlater, ?_⟩
        intro cur' hcur
        cases hlive.symm.trans hcur
        rw [not_and_or, not_lt, not_not] at hnot
        exact hnot
      obtain ⟨hother, hout⟩ := outstanding_of_live hp hlive hlasts.1
      exact ⟨cur.cid, hother, hlasts.2, hout⟩

theorem nameless_claim :
    Outstanding [.allow (txt "p") [] 9 1 1] (txt "p") [] 2 ∧
      (allow 2 2 (run step new [.allow (txt "p") [] 9 1 1]) (txt "p") (txt "a") 9).1 = true := by
  refine ⟨⟨[], _, [], 9, rfl, ⟨rfl, rfl, rfl, rfl⟩, by decide, fun e he => absurd he List.not_mem_nil, ?_⟩, by decide +kernel⟩
  intro mid e rest v hsplit
  cases mid <;> cases hsplit

def handedOver : List Call :=
  [.allow (txt "p") (txt "a") 9 1 1, .allow (txt "p") (txt "b") 9 2 2, .clear (txt "p") (txt "a"),
    .allow (txt "p") (txt "b") 9 3 4]

theorem handedOver_live : (3 : Time) < 9 ∧ ∀ other, other ≠ [] → other ≠ txt "b" →
    ¬Outstanding [.allow (txt "p") (txt "a") 9 1 1, .allow (txt "p") (txt "b") 9 2 2, .clear (txt "p") (txt "a")] (txt "p")
      other 4 :=
  (one_claim_live handedOver ⟨by decide +kernel, by decide +kernel⟩ _ [] (txt "p") (txt "b") 9 3 4 rfl (by decide)
    (by decide)).1 (by decide +kernel)

end Histories

end ObserverClub.Claims
