import ObserverClub.Work
import Mathlib.Data.List.Forall2

namespace ObserverClub.Work

open Library Python Indexer

section Due

variable (cfg : Config) (now : ℚ) (r : Queued)

def overdue : Bool :=
  0 < cfg.skipTtlSeconds && r.status = .skipped && r.lastChecked.getD r.lastSeen < now - cfg.skipTtlSeconds

def pdfRetry : Bool :=
  overdue cfg now r && r.mimeType = some (txt "application/pdf") &&
    r.error.getD [] ∈ [txt "out_of_scope", txt "not_academic", txt "not_academic_document"]

def skipExpired : Bool :=
  overdue cfg now r && r.error.getD [] ∈ [txt "unprocessable", txt "llm_disagreed", txt "incomplete"] &&
    !Extract.binaryMime ((r.mimeType.getD []).map lowerAscii)

def due : Bool := pdfRetry cfg now r || skipExpired cfg now r

def requeued (error : Text) : Queued := { r with status := .discovered, attempts := 0, error := some error }

def retried : Queued :=
  if pdfRetry cfg now r then requeued r (txt "pdf_retry")
  else if skipExpired cfg now r then requeued r (txt "skip_expired")
  else r

end Due

section Retried

variable {cfg : Config} {now : ℚ} {r : Queued}

theorem skipped_of_due (h : due cfg now r = true) : r.status = .skipped := by
  unfold due pdfRetry skipExpired overdue at h
  simp only [Bool.or_eq_true, Bool.and_eq_true, decide_eq_true_eq] at h
  obtain h | h := h <;> exact h.1.1.1.2

theorem not_skipExpired_requeued (error : Text) : skipExpired cfg now (requeued r error) = false := by
  unfold skipExpired overdue requeued
  rw [Bool.and_eq_false_iff, Bool.and_eq_false_iff, Bool.and_eq_false_iff, Bool.and_eq_false_iff]
  exact Or.inl (Or.inl (Or.inl (Or.inr rfl)))

theorem retried_of_due (h : due cfg now r = true) : ∃ error, retried cfg now r = requeued r error := by
  unfold retried
  split_ifs with hpdf hskip
  · exact ⟨_, rfl⟩
  · exact ⟨_, rfl⟩
  · obtain h | h := Bool.or_eq_true_iff.mp h
    · exact absurd h hpdf
    · exact absurd h hskip

theorem retried_of_not_due (h : due cfg now r = false) : retried cfg now r = r := by
  obtain ⟨hpdf, hskip⟩ := Bool.or_eq_false_iff.mp h
  rw [retried, hpdf, hskip]
  rfl

theorem not_overdue (httl : cfg.skipTtlSeconds ≤ 0) : overdue cfg now r = false := by
  rw [overdue, decide_eq_false (not_lt.mpr httl)]
  rfl

theorem expireLocalSkips_cids (t : Tables) :
    ((expireLocalSkips cfg now).run t).2.cids = t.cids.map (retried cfg now) := by
  unfold expireLocalSkips
  split_ifs with httl
  · have hnone (r : Queued) : retried cfg now r = id r := by
      apply retried_of_not_due
      rw [due, pdfRetry, skipExpired, not_overdue httl]
      rfl
    rw [funext hnone, List.map_id]
    rfl
  · have hold (r : Queued) : overdue cfg now r =
        (decide (r.status = .skipped) && decide (r.lastChecked.getD r.lastSeen < now - cfg.skipTtlSeconds)) := by
      rw [overdue, decide_eq_true (not_le.mp httl), Bool.true_and]
    have hretried : retried cfg now = (fun r => if skipExpired cfg now r then requeued r (txt "skip_expired") else r) ∘
        fun r => if pdfRetry cfg now r then requeued r (txt "pdf_retry") else r := by
      funext r
      unfold retried
      rw [Function.comp_apply]
      split_ifs with hpdf hexp
      · rw [not_skipExpired_requeued] at hexp
        cases hexp
      all_goals rfl
    rw [hretried, ← List.map_map]
    simp only [skipExpired, pdfRetry, hold]
    rfl

theorem inLane (r : Queued) :
    r.source = report ∨ r.namedLane = true ∨ r.probe = true ∨ r.htmlLane = true := by
  unfold Queued.namedLane Queued.probe Queued.htmlLane Queued.pdfLane
  cases hpdf : r.pdfName with
  | true => exact Or.inr (Or.inl (Bool.or_true _))
  | false =>
    cases hkeep : r.keepSrc with
    | true => exact Or.inr (Or.inl rfl)
    | false =>
      cases hpb : r.dagPb with
      | true => exact Or.inr (Or.inr (Or.inl rfl))
      | false =>
        have hnamed : decide (r.source = named) = false := (Bool.or_eq_false_iff.mp hkeep).2
        rw [hnamed]
        exact Or.inr (Or.inr (Or.inr rfl))

/-- What `take_batch` asks of a row, whatever number of peers it insists on and whichever lane it looks in. -/
def Takeable (cfg : Config) (now : ℚ) (r : Queued) : Prop :=
  (∃ minPeers, ready cfg minPeers now r = true) ∧
    (r.source = report ∨ r.namedLane = true ∨ r.probe = true ∨ r.htmlLane = true)

/-- The row has been around for a while, was seen lately or is one that is kept, and is of a codec that is taken. -/
def Timely (cfg : Config) (now : ℚ) (r : Queued) : Prop :=
  r.firstSeen ≤ now - cfg.minAgeSeconds ∧ (now - cfg.maxAgeSeconds ≤ r.lastSeen ∨ r.keepSrc = true) ∧
    r.codec ∉ [txt "libp2p-key", txt "json", txt "dag-json"]

instance : Decidable (Timely cfg now r) := inferInstanceAs (Decidable (_ ∧ _ ∧ _))

theorem takeable_requeued (error : Text) : Takeable cfg now (requeued r error) ↔ Timely cfg now r := by
  have hcap : 0 < cfg.attemptCap := Nat.succ_pos _
  have hlane := inLane (requeued r error)
  unfold Takeable ready Timely
  simp only [hlane, and_true, Bool.and_eq_true, Bool.or_eq_true, Bool.not_eq_true', decide_eq_true_eq,
    List.contains_eq_mem, decide_eq_false_iff_not]
  constructor
  · rintro ⟨minPeers, ⟨⟨⟨-, hfirst⟩, hlast⟩, -⟩, hcodec⟩
    exact ⟨hfirst, hlast, hcodec⟩
  · rintro ⟨hfirst, hlast, hcodec⟩
    exact ⟨r.peerCount, ⟨⟨⟨⟨rfl, le_refl _⟩, hfirst⟩, hlast⟩, hcap⟩, hcodec⟩

theorem not_stale_requeued (error : Text) (h : Timely cfg now r) :
    stale (now - cfg.maxAgeSeconds) (requeued r error) = false := by
  rw [Bool.eq_false_iff]
  intro hstale
  unfold stale at hstale
  rw [Bool.and_eq_true, Bool.and_eq_true, Bool.not_eq_true', decide_eq_true_eq] at hstale
  obtain hlast | hkeep := h.2.1
  · exact absurd hstale.2 (not_lt.mpr hlast)
  · exact Bool.false_ne_true (hstale.1.2.symm.trans hkeep)

/-- A row that goes back can be taken, and is not pruned for its age. -/
def Retried (cfg : Config) (now : ℚ) (r q : Queued) : Prop :=
  r.status = .skipped → q.discovered = true → Takeable cfg now q ∧ stale (now - cfg.maxAgeSeconds) q = false

theorem retried_iff_timely : Retried cfg now r (retried cfg now r) ↔ (due cfg now r = true → Timely cfg now r) := by
  unfold Retried
  cases hd : due cfg now r with
  | true =>
    obtain ⟨error, he⟩ := retried_of_due hd
    rw [he]
    constructor
    · intro h _
      exact (takeable_requeued error).mp (h (skipped_of_due hd) rfl).1
    · intro h _ _
      exact ⟨(takeable_requeued error).mpr (h rfl), not_stale_requeued error (h rfl)⟩
  | false =>
    rw [retried_of_not_due hd]
    apply iff_of_true
    · intro hs hdisc
      cases hs.symm.trans (of_decide_eq_true hdisc)
    · exact nofun

/-- Every skip that goes back is taken in time exactly if the rows that are due were all seen lately, first seen
a while ago, and of a codec that is taken. -/
theorem expired_retried_iff (cfg : Config) (now : ℚ) (t : Tables) :
    List.Forall₂ (Retried cfg now) t.cids ((expireLocalSkips cfg now).run t).2.cids ↔
      ∀ r ∈ t.cids, due cfg now r = true → Timely cfg now r := by
  rw [expireLocalSkips_cids, List.forall₂_map_right_iff, List.forall₂_same]
  exact forall₂_congr fun r _ => retried_iff_timely

end Retried

section Samples

def incompletePdf (lastSeen : ℚ) : Queued where
  cid := txt "bafybeic2r2um7wstx4c6viqnsw4lscitoc3wluj7yo43qwjkmrdllav3tq"
  codec := txt "dag-pb"
  firstSeen := 0
  lastSeen := lastSeen
  peerCount := 1
  wantCount := 1
  status := .skipped
  mimeType := some (txt "application/pdf")
  lastChecked := some 0
  error := some (txt "incomplete")

theorem expired_not_retried :
    ¬List.Forall₂ (Retried {} 86400) [incompletePdf 0]
      ((expireLocalSkips {} 86400).run { empty with cids := [incompletePdf 0] }).2.cids := by
  intro h
  have hfirst : Retried {} 86400 (incompletePdf 0) (retried {} 86400 (incompletePdf 0)) := by
    rw [expireLocalSkips_cids] at h
    exact (List.forall₂_cons.mp h).1
  have htimely := retried_iff_timely.mp hfirst (by decide +kernel)
  revert htimely
  decide +kernel

end Samples

end ObserverClub.Work
