import ObserverClub.Clubd

/-!
What the claim policy of clubd does with a message, stated once: whom it lets pass, and the slot it takes
or frees.
-/

namespace ObserverClub

open Library

namespace Claims

variable (now now' : Time) (t : ClaimTracker) (publisher cid : Text) (untilTime : Time)

structure Free : Prop where
  set : untilTime ≠ 0
  later : now < untilTime
  alone : ∀ cur, t.live publisher = some cur → cur.untilTime ≤ now' ∨ cur.cid = cid

def take : ClaimTracker := ⟨Function.update t.live publisher (some ⟨cid, untilTime⟩)⟩

def release : ClaimTracker := ⟨Function.update t.live publisher none⟩

theorem allow_cases :
    (publisher = [] ∨ cid = []) ∧ allow now now' t publisher cid untilTime = (true, t) ∨
    (publisher ≠ [] ∧ cid ≠ []) ∧ Free now now' t publisher cid untilTime ∧
      allow now now' t publisher cid untilTime = (true, take t publisher cid untilTime) ∨
    (publisher ≠ [] ∧ cid ≠ []) ∧ ¬Free now now' t publisher cid untilTime ∧
      allow now now' t publisher cid untilTime = (false, t) := by
  unfold allow
  by_cases hnamed : publisher = [] ∨ cid = []
  · rw [if_pos hnamed]
    exact .inl ⟨hnamed, rfl⟩
  apply Or.inr
  rw [if_neg hnamed]
  have hparts := not_or.mp hnamed
  by_cases htime : untilTime = 0 ∨ ¬now < untilTime
  · rw [if_pos htime]
    refine .inr ⟨hparts, fun h => ?_, rfl⟩
    rcases htime with hzero | hpast
    · exact h.set hzero
    · exact hpast h.later
  rw [if_neg htime]
  obtain ⟨hset, hlater⟩ := not_or.mp htime
  rw [not_not] at hlater
  dsimp only
  cases hlive : t.live publisher with
  | none =>
    refine .inl ⟨hparts, ⟨hset, hlater, ?_⟩, rfl⟩
    rw [hlive]
    exact nofun
  | some cur =>
    dsimp only
    by_cases hother : now' < cur.untilTime ∧ cur.cid ≠ cid
    · rw [if_pos hother]
      refine .inr ⟨hparts, fun h => ?_, rfl⟩
      rcases h.alone cur hlive with hle | heq
      · exact absurd hother.1 (not_lt.mpr hle)
      · exact hother.2 heq
    · rw [if_neg hother]
      refine .inl ⟨hparts, ⟨hset, hlater, ?_⟩, rfl⟩
      rw [hlive]
      rintro _ ⟨⟩
      rw [not_and_or, not_lt, not_not] at hother
      exact hother

theorem clear_cases :
    (publisher ≠ [] ∧ ∃ cur, t.live publisher = some cur ∧ (cid = [] ∨ cur.cid = cid)) ∧
      clear t publisher cid = release t publisher ∨
    (publisher ≠ [] → ∀ cur, t.live publisher = some cur → cid ≠ [] ∧ cur.cid ≠ cid) ∧ clear t publisher cid = t := by
  unfold clear
  by_cases hp : publisher = []
  · rw [if_pos hp]
    exact .inr ⟨fun hne => absurd hp hne, rfl⟩
  rw [if_neg hp]
  cases hlive : t.live publisher with
  | none => exact .inr ⟨fun _ => nofun, rfl⟩
  | some cur =>
    dsimp only
    by_cases hfree : cid = [] ∨ cur.cid = cid
    · rw [if_pos hfree]
      exact .inl ⟨⟨hp, cur, rfl, hfree⟩, rfl⟩
    · rw [if_neg hfree]
      refine .inr ⟨?_, rfl⟩
      rintro _ _ ⟨⟩
      exact not_or.mp hfree

variable {t publisher cid untilTime}

@[simp] theorem live_take (p : Text) : (take t publisher cid untilTime).live p =
    if p = publisher then some ⟨cid, untilTime⟩ else t.live p := Function.update_apply _ _ _ _

@[simp] theorem live_release (p : Text) : (release t publisher).live p = if p = publisher then none else t.live p :=
  Function.update_apply _ _ _ _

theorem take_eq_self : take t publisher cid untilTime = t ↔ t.live publisher = some ⟨cid, untilTime⟩ := by
  constructor
  · intro h
    have hlive := @live_take t publisher cid untilTime publisher
    rw [h, if_pos rfl] at hlive
    exact hlive
  · intro h
    cases t
    rw [take]
    congr 1
    rw [← h]
    exact Function.update_eq_self _ _

theorem release_eq_self : release t publisher = t ↔ t.live publisher = none := by
  constructor
  · intro h
    have hlive := @live_release t publisher publisher
    rw [h, if_pos rfl] at hlive
    exact hlive
  · intro h
    cases t
    rw [release]
    congr 1
    rw [← h]
    exact Function.update_eq_self _ _

end Claims

namespace Clubd

variable (now now' : Time) (claims : Claims.ClaimTracker) (m : Go.Value)

abbrev pubOf : Text := Go.stringOf m "publisher"

abbrev cidOf : Text := Go.stringOf m "cid"

abbrev kindOf : Text := Go.sprint (Go.item m "kind")

def Admits : Prop := kindOf m = txt "claim" → pubOf m ≠ [] → cidOf m ≠ [] →
  Claims.Free now now' claims (pubOf m) (cidOf m) (Claims.untilOf m)

/-- The claim policy has no slot to take and none to free: the claim is the one that is held, and what is
classified or skipped is not what is claimed. -/
structure Idle : Prop where
  claim : kindOf m = txt "claim" → pubOf m ≠ [] → cidOf m ≠ [] →
    claims.live (pubOf m) = some ⟨cidOf m, Claims.untilOf m⟩
  done : kindOf m = txt "classify" ∨ kindOf m = txt "skip" → pubOf m ≠ [] →
    ∀ cur, claims.live (pubOf m) = some cur → cidOf m ≠ [] ∧ cur.cid ≠ cidOf m

variable {now now' claims m}

theorem applyClaimPolicy_refused (h : ¬Admits now now' claims m) :
    applyClaimPolicy now now' claims m = (false, claims) := by
  have hk : kindOf m = txt "claim" := by
    by_contra hk
    exact h fun he => absurd he hk
  rw [applyClaimPolicy, if_pos hk]
  rcases Claims.allow_cases now now' claims (pubOf m) (cidOf m) (Claims.untilOf m) with
    ⟨hnamed, -⟩ | ⟨-, hfree, -⟩ | ⟨-, -, he⟩
  · exact absurd (fun _ hp hc => absurd hnamed (not_or.mpr ⟨hp, hc⟩)) h
  · exact absurd (fun _ _ _ => hfree) h
  · exact he

theorem applyClaimPolicy_admitted (h : Admits now now' claims m) : (applyClaimPolicy now now' claims m).1 = true ∧
    ((applyClaimPolicy now now' claims m).2 = claims ↔ Idle claims m) := by
  unfold applyClaimPolicy
  dsimp only
  by_cases hk : kindOf m = txt "claim"
  · rw [if_pos hk]
    have hdone : ¬(kindOf m = txt "classify" ∨ kindOf m = txt "skip") := by
      rw [hk]
      decide
    rcases Claims.allow_cases now now' claims (pubOf m) (cidOf m) (Claims.untilOf m) with
      ⟨hnamed, he⟩ | ⟨⟨hp, hc⟩, -, he⟩ | ⟨⟨hp, hc⟩, hbusy, -⟩
    · rw [he]
      refine ⟨rfl, iff_of_true rfl ⟨fun _ hp hc => absurd hnamed (not_or.mpr ⟨hp, hc⟩), fun hd => absurd hd hdone⟩⟩
    · rw [he, Claims.take_eq_self]
      exact ⟨rfl, fun hl => ⟨fun _ _ _ => hl, fun hd => absurd hd hdone⟩, fun hi => hi.claim hk hp hc⟩
    · exact absurd (h hk hp hc) hbusy
  · rw [if_neg hk]
    by_cases hdone : kindOf m = txt "classify" ∨ kindOf m = txt "skip"
    · rw [if_pos hdone]
      refine ⟨rfl, ?_⟩
      rcases Claims.clear_cases claims (pubOf m) (cidOf m) with ⟨⟨hp, cur, hlive, hcid⟩, he⟩ | ⟨hother, he⟩
      · rw [he, Claims.release_eq_self]
        apply iff_of_false
        · rw [hlive]
          exact nofun
        · intro hi
          obtain ⟨hne, hcur⟩ := hi.done hdone hp cur hlive
          tauto
      · rw [he]
        exact iff_of_true rfl ⟨fun hc => absurd hc hk, fun _ => hother⟩
    · rw [if_neg hdone]
      exact ⟨rfl, iff_of_true rfl ⟨fun hc => absurd hc hk, fun hd => absurd hd hdone⟩⟩

end Clubd

end ObserverClub
