import ObserverClub.KeptRows

namespace ObserverClub.Work

open Library Python Indexer

section Caps

variable {cfg : Config} {now now' : ℚ} {rows : List Queued} {t : Tables} {r : Queued}

/-- No more live rows than the cap, unless all are kept for their source. -/
def WithinCap (cfg : Config) (rows : List Queued) : Prop :=
  rows.countP Queued.live ≤ cfg.maxQueue ∨ ∀ r ∈ rows, r.live = true → r.keepSrc = true

/-- No more sniffed folders than their cap, unless workers are on all of them. -/
def WithinFolders (cfg : Config) (rows : List Queued) : Prop :=
  cfg.maxDirQueue ≠ 0 →
    probeSize rows ≤ cfg.maxDirQueue ∨ ∀ r ∈ rows, r.live = true → r.probe = true → r.processing = true

theorem within_inCap (h : Table.Keyed Queued.cid rows) : WithinCap cfg (inCap cfg rows) := by
  have hsub : (overflow cfg rows).Subperm rows := Table.first_subperm
  have hcount := h.countP_without hsub Queued.live
  unfold overflow at hcount
  rw [Table.countP_first fun r hr => (Bool.and_eq_true_iff.mp hr).1] at hcount
  by_cases hn : rows.countP (fun r => r.live && !r.keepSrc) ≤ rows.countP Queued.live - cfg.maxQueue
  · -- All that the cap may take out is out.
    right
    intro r hr hlive
    obtain ⟨hmem, hout⟩ := (h.mem_without fun _ hs => (Table.mem_first hs).1).mp hr
    by_contra hkeep
    rw [Bool.not_eq_true] at hkeep
    refine hout (Table.first_of_le hn hmem ?_)
    rw [hlive, hkeep]
    rfl
  · left
    unfold inCap overflow without
    omega

theorem within_of_sublist {rows' : List Queued} (hs : rows'.Sublist rows) (h : WithinCap cfg rows) : WithinCap cfg rows' := by
  obtain h | h := h
  · exact Or.inl (hs.countP_le.trans h)
  · exact Or.inr fun r hr => h r (hs.subset hr)

theorem within_inFolders (h : Table.Keyed Queued.cid rows) : WithinFolders cfg (inFolders cfg rows) := by
  intro hd
  unfold inFolders
  rw [if_neg hd]
  have hsub : (probeOverflow rows (probeSize rows - cfg.maxDirQueue)).Subperm rows := Table.first_subperm
  have hcount := h.countP_without hsub fun r => r.live && r.probe
  unfold probeOverflow longestUnseen at hcount
  rw [Table.countP_first] at hcount
  · by_cases hn : rows.countP (fun r => r.discovered && r.probe) ≤ probeSize rows - cfg.maxDirQueue
    · right
      intro r hr hlive hprobe
      obtain ⟨hmem, hout⟩ := (h.mem_without fun _ hs => (Table.mem_first hs).1).mp hr
      by_contra hproc
      rw [Queued.live, Bool.or_eq_true, or_iff_left hproc] at hlive
      refine hout (Table.first_of_le hn hmem ?_)
      rw [hlive, hprobe]
      rfl
    · left
      unfold probeSize probeOverflow longestUnseen without at *
      omega
  · intro r hr
    rw [Bool.and_eq_true] at hr ⊢
    exact ⟨Bool.or_eq_true_iff.mpr (Or.inl hr.1), hr.2⟩

theorem left_withinCap (h : Table.Keyed Queued.cid rows) : WithinCap cfg (leftByCaps cfg now rows) :=
  within_of_sublist inFolders_sublist (within_inCap ((keyed_timely h).sublist (inLanes_sublist.map _)))

theorem left_withinFolders (h : Table.Keyed Queued.cid rows) : WithinFolders cfg (leftByCaps cfg now rows) :=
  within_inFolders ((keyed_timely h).sublist ((Table.without_sublist.trans inLanes_sublist).map _))

def comesBack (cfg : Config) (now : ℚ) (r : Queued) : Bool := due cfg now r && !lonelyRaw cfg (retried cfg now r)

def retries (cfg : Config) (now : ℚ) (rows : List Queued) : List Queued := rows.filter (comesBack cfg now)

theorem not_comesBack_of_live (h : r.live = true) : comesBack cfg now r = false := by
  rw [Bool.eq_false_iff]
  intro hback
  have hskipped := skipped_of_due (Bool.and_eq_true_iff.mp hback).1
  unfold Queued.live Queued.discovered Queued.processing at h
  rw [hskipped] at h
  cases h

theorem not_due_of_live (h : r.live = true) : due cfg now r = false := by
  rw [Bool.eq_false_iff]
  intro hdue
  have hskipped := skipped_of_due hdue
  unfold Queued.live Queued.discovered Queued.processing at h
  rw [hskipped] at h
  cases h

theorem live_of_discovered (h : r.discovered = true) : r.live = true := Bool.or_eq_true_iff.mpr (Or.inl h)

theorem retries_left (h : Table.Keyed Queued.cid rows) :
    retries cfg now' (leftByCaps cfg now rows) = retries cfg now' rows := by
  have hsub {order : Queued → Queued → Prop} [DecidableRel order] {p : Queued → Bool} {n : ℕ} {rows : List Queued} :
      Table.first order p n rows ⊆ rows := fun _ hs => (Table.mem_first hs).1
  have hprobes {n : ℕ} {rows : List Queued} : ∀ r ∈ probeOverflow rows n, comesBack cfg now' r = false := fun r hr =>
    not_comesBack_of_live (live_of_discovered (Bool.and_eq_true_iff.mp (Table.mem_first hr).2).1)
  have hkey₁ := @keyed_timely cfg now _ h
  have h₁ : retries cfg now' (timely cfg now rows) = retries cfg now' rows := by
    unfold retries timely
    rw [List.filter_filter]
    apply List.filter_congr
    intro r _
    cases hb : comesBack cfg now' r with
    | false => rfl
    | true =>
      have hdead : r.live = false := by
        rw [Bool.eq_false_iff]
        intro hlive
        rw [not_comesBack_of_live hlive] at hb
        cases hb
      have hdisc : r.discovered = false := (Bool.or_eq_false_iff.mp hdead).1
      unfold namedNonPdf lonelyRaw stale
      rw [hdead, hdisc]
      simp only [Bool.and_false, Bool.false_and, Bool.not_false, Bool.and_self]
  have h₂ : retries cfg now' (withoutHtml cfg (timely cfg now rows)) = retries cfg now' rows :=
    (hkey₁.filter_without hsub fun r hr =>
      not_comesBack_of_live (live_of_discovered (Bool.and_eq_true_iff.mp (Table.mem_first hr).2).1)).trans h₁
  have h₃ : retries cfg now' (inLanes cfg (timely cfg now rows)) = retries cfg now' rows :=
    (hkey₁.without.filter_without hsub hprobes).trans h₂
  have h₄ : retries cfg now' (inCap cfg (inLanes cfg (timely cfg now rows))) = retries cfg now' rows :=
    (hkey₁.without.without.filter_without hsub fun r hr =>
      not_comesBack_of_live (Bool.and_eq_true_iff.mp (Table.mem_first hr).2).1).trans h₃
  unfold leftByCaps inFolders
  split_ifs
  · exact h₄
  · exact (hkey₁.without.without.without.filter_without hsub hprobes).trans h₄

theorem not_lonely_left (hr : r ∈ leftByCaps cfg now rows) : lonelyRaw cfg r = false := by
  have h := (List.mem_filter.mp (leftByCaps_sublist_timely.subset hr)).2
  rw [Bool.and_eq_true, Bool.and_eq_true, Bool.not_eq_true', Bool.not_eq_true'] at h
  exact h.1.2

theorem live_pruned (hr : r ∈ leftByCaps cfg now rows) :
    ((retried cfg now' r).live && !lonelyRaw cfg (retried cfg now' r)) = (r.live || comesBack cfg now' r) := by
  cases hd : due cfg now' r with
  | true =>
    obtain ⟨error, he⟩ := retried_of_due hd
    have hdead : r.live = false := by
      rw [Bool.eq_false_iff]
      intro hlive
      rw [not_due_of_live hlive] at hd
      cases hd
    rw [comesBack, hd, hdead, he]
    rfl
  | false =>
    rw [comesBack, hd, retried_of_not_due hd, not_lonely_left hr, Bool.false_and, Bool.not_false, Bool.and_true,
      Bool.or_false]

theorem countP_or {a b : Queued → Bool} (hd : ∀ r ∈ rows, a r = true → b r = false) :
    (rows.countP fun r => a r || b r) = rows.countP a + rows.countP b := by
  induction rows with
  | nil => rfl
  | cons r rows ih =>
    rw [List.forall_mem_cons] at hd
    rw [List.countP_cons, List.countP_cons, List.countP_cons, ih hd.2]
    cases ha : a r with
    | true =>
      rw [hd.1 ha]
      simp only [Bool.or_false, ↓reduceIte, Bool.false_eq_true]
      omega
    | false =>
      simp only [Bool.false_or, Bool.false_eq_true, ↓reduceIte]
      omega

theorem countP_pruned (h : Table.Keyed Queued.cid rows) {kind : Queued → Bool}
    (hkind : ∀ r, kind (retried cfg now' r) = kind r) :
    ((((leftByCaps cfg now rows).map (retried cfg now')).filter fun r => !lonelyRaw cfg r).countP
        fun r => r.live && kind r) =
      ((leftByCaps cfg now rows).countP fun r => r.live && kind r) + (retries cfg now' rows).countP kind := by
  have hsplit : ∀ r ∈ leftByCaps cfg now rows,
      (((retried cfg now' r).live && kind (retried cfg now' r)) && !lonelyRaw cfg (retried cfg now' r)) =
        ((r.live && kind r) || (comesBack cfg now' r && kind r)) := by
    intro r hr
    rw [← Bool.and_or_distrib_right, ← live_pruned hr, hkind, Bool.and_right_comm]
  rw [List.countP_filter, List.countP_map, ← @retries_left cfg now now' rows h, retries, List.countP_filter]
  simp only [Function.comp_def]
  rw [List.countP_congr fun r hr => by rw [hsplit r hr], countP_or]
  · simp only [Bool.and_comm]
  · intro r _ hr
    rw [not_comesBack_of_live (Bool.and_eq_true_iff.mp hr).1]
    rfl

theorem mem_pruned {q : Queued} (hr : r ∈ leftByCaps cfg now rows) (hq : q = retried cfg now' r) (hlive : q.live = true) :
    q ∈ ((leftByCaps cfg now rows).map (retried cfg now')).filter (fun r => !lonelyRaw cfg r) ↔
      r.live = true ∨ comesBack cfg now' r = true := by
  have h := @live_pruned cfg now now' rows r hr
  rw [← hq, hlive, Bool.true_and] at h
  rw [List.mem_filter, h, Bool.or_eq_true, and_iff_right]
  rw [hq]
  exact List.mem_map_of_mem hr

theorem forall_pruned (h : Table.Keyed Queued.cid rows) {P : Queued → Prop}
    (hP : ∀ r, r.live = true → (P (retried cfg now' r) ↔ P r)) :
    (∀ q ∈ ((leftByCaps cfg now rows).map (retried cfg now')).filter (fun r => !lonelyRaw cfg r), q.live = true → P q) ↔
      (∀ r ∈ leftByCaps cfg now rows, r.live = true → P r) ∧ ∀ r ∈ retries cfg now' rows, P (retried cfg now' r) := by
  constructor
  · intro hall
    constructor
    · intro r hr hlive
      have hsame : r = retried cfg now' r := (retried_of_not_due (not_due_of_live hlive)).symm
      exact hall r ((mem_pruned hr hsame hlive).mpr (Or.inl hlive)) hlive
    · intro r hr
      rw [← @retries_left cfg now now' rows h] at hr
      obtain ⟨hleft, hback⟩ := List.mem_filter.mp hr
      have hlive : (retried cfg now' r).live = true := by
        obtain ⟨error, he⟩ := retried_of_due (Bool.and_eq_true_iff.mp hback).1
        rw [he]
        rfl
      exact hall _ ((mem_pruned hleft rfl hlive).mpr (Or.inr hback)) hlive
  · rintro ⟨hleft, hretries⟩ q hq hlive
    obtain ⟨r, hr, rfl⟩ := List.mem_map.mp (List.mem_filter.mp hq).1
    obtain hl | hb := (mem_pruned hr rfl hlive).mp hq
    · exact (hP r hl).mpr (hleft r hr hl)
    · apply hretries
      rw [← @retries_left cfg now now' rows h]
      exact List.mem_filter.mpr ⟨hr, hb⟩

theorem retried_probe : (retried cfg now r).probe = r.probe := by
  unfold retried requeued
  split_ifs <;> rfl

/-- The skips that go back, if any, fit in beside what the caps left. -/
def Fits (cfg : Config) (now now' : ℚ) (rows : List Queued) : Prop :=
  (retries cfg now' rows = [] ∨
    (leftByCaps cfg now rows).countP Queued.live + (retries cfg now' rows).length ≤ cfg.maxQueue ∨
    ((∀ r ∈ leftByCaps cfg now rows, r.live = true → r.keepSrc = true) ∧
      ∀ r ∈ retries cfg now' rows, r.keepSrc = true)) ∧
  (cfg.maxDirQueue ≠ 0 → (∀ r ∈ retries cfg now' rows, r.probe = false) ∨
    probeSize (leftByCaps cfg now rows) + (retries cfg now' rows).countP Queued.probe ≤ cfg.maxDirQueue)

instance : Decidable (Fits cfg now now' rows) := inferInstanceAs (Decidable ((_ ∨ _ ∨ (_ ∧ _)) ∧ (_ → _ ∨ _)))

theorem withinCap_pruned (h : Table.Keyed Queued.cid t.cids) :
    WithinCap cfg ((prune cfg now now').run t).2.cids ↔ retries cfg now' t.cids = [] ∨
      (leftByCaps cfg now t.cids).countP Queued.live + (retries cfg now' t.cids).length ≤ cfg.maxQueue ∨
      ((∀ r ∈ leftByCaps cfg now t.cids, r.live = true → r.keepSrc = true) ∧
        ∀ r ∈ retries cfg now' t.cids, r.keepSrc = true) := by
  have hcount := @countP_pruned cfg now now' _ h (fun _ => true) fun _ => rfl
  simp only [Bool.and_true, List.countP_true] at hcount
  unfold WithinCap
  rw [prune_cids h, hcount, forall_pruned h fun r _ => by rw [retried_keepSrc]]
  simp only [retried_keepSrc]
  constructor
  · exact Or.inr
  · rintro (hnone | hsome)
    · rw [hnone]
      exact (left_withinCap h).imp id fun hall => ⟨hall, fun r hr => absurd hr List.not_mem_nil⟩
    · exact hsome

theorem withinFolders_pruned (h : Table.Keyed Queued.cid t.cids) :
    WithinFolders cfg ((prune cfg now now').run t).2.cids ↔ (cfg.maxDirQueue ≠ 0 →
      (∀ r ∈ retries cfg now' t.cids, r.probe = false) ∨
        probeSize (leftByCaps cfg now t.cids) + (retries cfg now' t.cids).countP Queued.probe ≤ cfg.maxDirQueue) := by
  have hcount := @countP_pruned cfg now now' _ h Queued.probe fun _ => retried_probe
  unfold WithinFolders
  apply forall_congr'
  intro hd
  have hidle : ∀ r ∈ retries cfg now' t.cids, (retried cfg now' r).processing = false := by
    intro r hr
    obtain ⟨error, he⟩ := retried_of_due (Bool.and_eq_true_iff.mp (List.mem_filter.mp hr).2).1
    rw [he]
    rfl
  rw [prune_cids h, forall_pruned h fun r hr => by rw [retried_of_not_due (not_due_of_live hr)], probeSize, hcount]
  simp only [retried_probe]
  constructor
  · rintro (hle | ⟨-, hnone⟩)
    · exact Or.inr hle
    · left
      intro r hr
      rw [Bool.eq_false_iff]
      intro hprobe
      exact Bool.false_ne_true ((hidle r hr).symm.trans (hnone r hr hprobe))
  · rintro (hnone | hle)
    · have hzero : (retries cfg now' t.cids).countP Queued.probe = 0 := by
        rw [List.countP_eq_zero]
        exact fun r hr hprobe => Bool.false_ne_true ((hnone r hr).symm.trans hprobe)
      rw [hzero]
      refine (left_withinFolders h hd).imp id fun hall => ⟨hall, fun r hr hprobe => ?_⟩
      exact absurd ((hnone r hr).symm.trans hprobe) Bool.false_ne_true
    · exact Or.inl hle

/-- After pruning the queue is within its caps exactly if the expired skips fit in. -/
theorem prune_within_iff (cfg : Config) (now now' : ℚ) (t : Tables) (hkey : Table.Keyed Queued.cid t.cids) :
    (WithinCap cfg ((prune cfg now now').run t).2.cids ∧ WithinFolders cfg ((prune cfg now now').run t).2.cids) ↔
      Fits cfg now now' t.cids := by
  unfold Fits
  rw [withinCap_pruned hkey, withinFolders_pruned hkey]

end Caps

section Samples

def leafAndSkip : Tables :=
  { empty with
    cids := [{ reviewedLeaf (txt "bafkreihdwdcefgh4dqkjv67uzcmw7ojee6xedzdetojuzjevtenxquvyku") with
        lastSeen := 86390, peerCount := 2, source := sniff }, incompletePdf 0] }

theorem prune_exceeds : ¬WithinCap { maxQueue := 1 } ((prune { maxQueue := 1 } 86400 86400).run leafAndSkip).2.cids := by
  unfold WithinCap
  decide +kernel

theorem prune_within :
    WithinCap { maxQueue := 2 } ((prune { maxQueue := 2 } 86400 86400).run leafAndSkip).2.cids ∧
      WithinFolders { maxQueue := 2 } ((prune { maxQueue := 2 } 86400 86400).run leafAndSkip).2.cids :=
  (prune_within_iff { maxQueue := 2 } 86400 86400 leafAndSkip (by unfold Table.Keyed; decide +kernel)).mpr
    (by decide +kernel)

end Samples

end ObserverClub.Work
