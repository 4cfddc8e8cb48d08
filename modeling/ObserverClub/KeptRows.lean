import ObserverClub.Pruning

namespace ObserverClub.Work

open Library Python Indexer

section Kept

variable {cfg : Config} {now now' : ℚ} {rows : List Queued} {t : Tables} {r : Queued}

def mustStay (r : Queued) : Bool := r.source = report || (r.source = named && endsPdf r)

theorem keepSrc_of_mustStay (h : mustStay r = true) : r.keepSrc = true := by
  unfold mustStay at h
  unfold Queued.keepSrc
  rw [Bool.or_eq_true, Bool.and_eq_true] at h
  rw [Bool.or_eq_true]
  exact h.imp_right And.left

theorem namedNonPdf_of_mustStay (h : mustStay r = true) : namedNonPdf r = hiddenPdf r := by
  unfold mustStay at h
  unfold namedNonPdf hiddenPdf
  rw [Bool.or_eq_true, Bool.and_eq_true, decide_eq_true_eq] at h
  obtain h | h := h
  · rw [h, decide_eq_false (by decide)]
    rfl
  · rw [h.2, Bool.and_true]

theorem not_lonelyRaw (h : r.keepSrc = true) : lonelyRaw cfg r = false := by
  unfold lonelyRaw
  rw [h]
  simp only [Bool.not_true, Bool.and_false, Bool.false_and]

theorem not_stale {cutoff : ℚ} (h : r.keepSrc = true) : stale cutoff r = false := by
  unfold stale
  rw [h]
  simp only [Bool.not_true, Bool.and_false, Bool.false_and]

theorem not_probe (h : r.keepSrc = true) : r.probe = false := by
  unfold Queued.probe
  rw [h]
  simp only [Bool.not_true, Bool.and_false, Bool.false_and]

theorem retried_keepSrc : (retried cfg now r).keepSrc = r.keepSrc := by
  unfold retried requeued
  split_ifs <;> rfl

theorem mem_timely_iff (hr : r ∈ rows) (h : mustStay r = true) : r ∈ timely cfg now rows ↔ hiddenPdf r = false := by
  have hkeep := keepSrc_of_mustStay h
  unfold timely
  rw [List.mem_filter, namedNonPdf_of_mustStay h, not_lonelyRaw hkeep, not_stale hkeep, Bool.not_false, Bool.and_true,
    Bool.and_true, Bool.not_eq_true']
  exact and_iff_right hr

theorem not_mem_probeOverflow {n : ℕ} (h : r.keepSrc = true) : r ∉ probeOverflow rows n := by
  intro hmem
  have hp := (Table.mem_first hmem).2
  rw [Bool.and_eq_true, not_probe h] at hp
  exact Bool.false_ne_true hp.2

theorem not_mem_overflow (h : r.keepSrc = true) : r ∉ overflow cfg rows := by
  intro hmem
  have hp := (Table.mem_first hmem).2
  rw [Bool.and_eq_true, h] at hp
  exact Bool.false_ne_true hp.2

theorem mem_leftByCaps (hkey : Table.Keyed Queued.cid rows) (hr : r ∈ timely cfg now rows) (hkeep : r.keepSrc = true)
    (hhtml : r ∉ htmlOverflow cfg (timely cfg now rows)) : r ∈ leftByCaps cfg now rows := by
  have hsub {order : Queued → Queued → Prop} [DecidableRel order] {p : Queued → Bool} {n : ℕ} {rows : List Queued} :
      Table.first order p n rows ⊆ rows := fun _ hs => (Table.mem_first hs).1
  have hkey₁ := @keyed_timely cfg now _ hkey
  have h₁ : r ∈ withoutHtml cfg (timely cfg now rows) := (hkey₁.mem_without hsub).mpr ⟨hr, hhtml⟩
  have h₂ : r ∈ inLanes cfg (timely cfg now rows) :=
    (hkey₁.without.mem_without hsub).mpr ⟨h₁, not_mem_probeOverflow hkeep⟩
  have h₃ : r ∈ inCap cfg (inLanes cfg (timely cfg now rows)) :=
    (hkey₁.without.without.mem_without hsub).mpr ⟨h₂, not_mem_overflow hkeep⟩
  unfold leftByCaps inFolders
  split_ifs
  · exact h₃
  · exact (hkey₁.without.without.without.mem_without hsub).mpr ⟨h₃, not_mem_probeOverflow hkeep⟩

theorem stays_iff (hkey : Table.Keyed Queued.cid t.cids) (hr : r ∈ t.cids) (h : mustStay r = true) :
    (∃ q ∈ ((prune cfg now now').run t).2.cids, q.cid = r.cid) ↔
      hiddenPdf r = false ∧ r ∉ htmlOverflow cfg (timely cfg now t.cids) := by
  rw [prune_cids hkey, ← @mem_timely_iff cfg now t.cids r hr h]
  constructor
  · rintro ⟨q, hq, hqr⟩
    obtain ⟨q, hleft, rfl⟩ := List.mem_map.mp (List.mem_filter.mp hq).1
    rw [retried_cid] at hqr
    have hsame := hkey.eq_of_key (leftByCaps_sublist.subset hleft) hr hqr
    subst hsame
    have hin : q ∈ withoutHtml cfg (timely cfg now t.cids) :=
      Table.without_sublist.subset (Table.without_sublist.subset (inFolders_sublist.subset hleft))
    exact ((keyed_timely hkey).mem_without fun _ hs => (Table.mem_first hs).1).mp hin
  · rintro ⟨htimely, hhtml⟩
    have hkeep := keepSrc_of_mustStay h
    refine ⟨retried cfg now' r, List.mem_filter.mpr ⟨?_, ?_⟩, retried_cid r⟩
    · exact List.mem_map_of_mem (mem_leftByCaps hkey htimely hkeep hhtml)
    · rw [not_lonelyRaw (retried_keepSrc.trans hkeep)]
      rfl

theorem not_mem_htmlOverflow (h : r.source = named) : r ∉ htmlOverflow cfg rows := by
  intro hmem
  have hp := (Table.mem_first hmem).2
  rw [Bool.and_eq_true, Queued.htmlLane, Queued.pdfLane, decide_eq_true h, Bool.or_true, Bool.true_or] at hp
  exact Bool.false_ne_true hp.2

/-- Pruning keeps what is to be kept exactly if no named PDF is hidden from SQL, and what the HTML lane holds beyond its
share has no row in it that somebody asked for. -/
theorem prune_keeps_iff (cfg : Config) (now now' : ℚ) (t : Tables) (hkey : Table.Keyed Queued.cid t.cids) :
    (∀ r ∈ t.cids, mustStay r = true → ∃ q ∈ ((prune cfg now now').run t).2.cids, q.cid = r.cid) ↔
      (∀ r ∈ t.cids, hiddenPdf r = false) ∧ ∀ r ∈ htmlOverflow cfg (timely cfg now t.cids), r.source ≠ report := by
  constructor
  · intro hall
    refine ⟨fun r hr => ?_, fun r hmem hsource => ?_⟩
    · by_contra hhidden
      have hpdf : (r.source = named ∧ r.discovered = true) ∧ endsPdf r = true := by
        rw [Bool.not_eq_false, hiddenPdf, Bool.and_eq_true, Bool.and_eq_true, Bool.and_eq_true, decide_eq_true_eq] at hhidden
        exact hhidden.1
      have hstay : mustStay r = true :=
        Bool.or_eq_true_iff.mpr (Or.inr (Bool.and_eq_true_iff.mpr ⟨decide_eq_true hpdf.1.1, hpdf.2⟩))
      exact hhidden ((stays_iff hkey hr hstay).mp (hall r hr hstay)).1
    · have hr : r ∈ t.cids := List.filter_sublist.subset (Table.mem_first hmem).1
      have hstay : mustStay r = true := Bool.or_eq_true_iff.mpr (Or.inl (decide_eq_true hsource))
      exact ((stays_iff hkey hr hstay).mp (hall r hr hstay)).2 hmem
  · rintro ⟨hshown, hnone⟩ r hr hstay
    rw [stays_iff hkey hr hstay]
    refine ⟨hshown r hr, ?_⟩
    obtain hsource | hpdf := Bool.or_eq_true_iff.mp hstay
    · exact fun hmem => hnone r hmem (of_decide_eq_true hsource)
    · exact not_mem_htmlOverflow (of_decide_eq_true (Bool.and_eq_true_iff.mp hpdf).1)

end Kept

section Samples

def reviewedLeaf (cid : Text) : Queued where
  cid := cid
  codec := txt "raw"
  firstSeen := 100
  lastSeen := 990
  peerCount := 1
  wantCount := 1
  source := report

def reviewedLeaves : Tables :=
  { empty with
    cids := [reviewedLeaf (txt "bafkreihdwdcefgh4dqkjv67uzcmw7ojee6xedzdetojuzjevtenxquvyku"),
      reviewedLeaf (txt "bafkreie4n4gltq5kcq7dmjxgge5ramunmo24favqeym6cbauiez4krkyqa")] }

theorem prune_drops_report :
    ¬∀ r ∈ reviewedLeaves.cids, mustStay r = true →
      ∃ q ∈ ((prune { maxQueue := 1 } 1000 1000).run reviewedLeaves).2.cids, q.cid = r.cid := by
  decide +kernel

theorem prune_keeps_reports : (∃ r ∈ reviewedLeaves.cids, mustStay r = true) ∧
    ∀ r ∈ reviewedLeaves.cids, mustStay r = true →
      ∃ q ∈ ((prune { maxQueue := 2 } 1000 1000).run reviewedLeaves).2.cids, q.cid = r.cid :=
  ⟨by decide +kernel, (prune_keeps_iff { maxQueue := 2 } 1000 1000 reviewedLeaves (by unfold Table.Keyed; decide +kernel)).mpr
    (by decide +kernel)⟩

end Samples

end ObserverClub.Work
