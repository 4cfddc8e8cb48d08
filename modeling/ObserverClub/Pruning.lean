import ObserverClub.Library.Selection
import ObserverClub.Retries

/-!
What `prune` makes of the rows of the queue.
-/

namespace ObserverClub.Work

open Library Python Indexer

section Rows

variable (cfg : Config) (now : ℚ) (rows : List Queued)

/-- The rows less those of the selection. -/
def without (sel rows : List Queued) : List Queued := Table.without Queued.cid sel rows

def longestUnseen (p : Queued → Bool) (n : ℕ) : List Queued := Table.first Queued.seenBefore p n rows

def namedNonPdf (r : Queued) : Bool := r.source = named && r.discovered && !r.pdfName

def endsPdf (r : Queued) : Bool := (txt ".pdf").isSuffixOf ((r.filename.getD []).map lowerAscii)

/-- The named PDF that SQL does not see to be one, for the NUL in its name. -/
def hiddenPdf (r : Queued) : Bool := r.source = named && r.discovered && endsPdf r && !r.pdfName

def lonelyRaw (r : Queued) : Bool :=
  1 < cfg.preferMinPeerCount && (r.discovered && !r.keepSrc && !r.dagPb && !r.pdfName && r.peerCount < cfg.preferMinPeerCount)

/-- The rows that come to the caps. -/
def timely : List Queued :=
  rows.filter fun r => !namedNonPdf r && !lonelyRaw cfg r && !stale (now - cfg.maxAgeSeconds) r

def pdfSize : ℕ := rows.countP fun r => r.live && r.pdfLane

def htmlSize : ℕ := rows.countP fun r => r.live && r.htmlLane

def probeSize : ℕ := rows.countP fun r => r.live && r.probe

def extraHtml : ℤ := htmlSize rows - (cfg.maxQueue - min (pdfSize rows) cfg.laneCap)

/-- What the HTML lane holds beyond its share. -/
def htmlOverflow : List Queued := longestUnseen rows (fun r => r.discovered && r.htmlLane) (extraHtml cfg rows).toNat

def extraPdf : ℤ :=
  let html : ℤ := htmlSize rows - max (extraHtml cfg rows) 0
  pdfSize rows - (cfg.maxQueue - min html cfg.laneCap)

def withoutHtml : List Queued := without (htmlOverflow cfg rows) rows

def probeOverflow (n : ℕ) : List Queued := longestUnseen rows (fun r => r.discovered && r.probe) n

def inLanes : List Queued :=
  without (probeOverflow (withoutHtml cfg rows) (extraPdf cfg rows).toNat) (withoutHtml cfg rows)

def overflow : List Queued :=
  Table.first Queued.capBefore (fun r => r.live && !r.keepSrc) (rows.countP Queued.live - cfg.maxQueue) rows

def inCap : List Queued := without (overflow cfg rows) rows

def inFolders : List Queued :=
  if cfg.maxDirQueue = 0 then rows else without (probeOverflow rows (probeSize rows - cfg.maxDirQueue)) rows

def leftByCaps : List Queued := inFolders cfg (inCap cfg (inLanes cfg (timely cfg now rows)))

end Rows

section Steps

variable {cfg : Config} {t : Tables}

theorem forgetAll_cids (sel : List Queued) : ((forgetAll sel).run t).2.cids = without sel t.cids := by
  induction sel generalizing t with
  | nil => exact Table.without_nil.symm
  | cons r sel ih =>
    have hrest := ih (t := ((forgetCid r.cid).run t).2)
    exact hrest.trans (Table.without_cons r).symm

theorem dropNamedNonPdf_cids (h : Table.Keyed Queued.cid t.cids) :
    (dropNamedNonPdf.run t).2.cids = t.cids.filter fun r => !namedNonPdf r :=
  (forgetAll_cids (t.cids.filter namedNonPdf)).trans (h.without_filter _)

theorem dropLonelyRaw_cids (h : Table.Keyed Queued.cid t.cids) :
    ((dropLonelyRaw cfg).run t).2.cids = t.cids.filter fun r => !lonelyRaw cfg r := by
  rw [← h.without_filter]
  unfold dropLonelyRaw
  split_ifs with hp
  · have hnone : t.cids.filter (lonelyRaw cfg) = [] := by
      apply List.filter_eq_nil_iff.mpr
      intro r _ hl
      rw [lonelyRaw, decide_eq_false (not_lt.mpr hp), Bool.false_and] at hl
      cases hl
    rw [hnone, Table.without_nil]
    rfl
  · unfold lonelyRaw
    simp only [decide_eq_true (not_le.mp hp), Bool.true_and]
    apply List.filter_congr
    intro r _
    exact decide_eq_decide.mpr Iff.rfl

theorem dropStale_cids (h : Table.Keyed Queued.cid t.cids) (cutoff : ℚ) :
    ((dropStale cutoff).run t).2.cids = t.cids.filter fun r => !stale cutoff r :=
  (forgetAll_cids (t.cids.filter (stale cutoff))).trans (h.without_filter _)

theorem dropLanes_cids : ((dropLanes cfg).run t).2.cids = inLanes cfg t.cids := by
  have hhtml : ((forgetAll (htmlOverflow cfg t.cids)).run t).2.cids = withoutHtml cfg t.cids := forgetAll_cids _
  rw [inLanes, ← hhtml]
  exact forgetAll_cids (t := ((forgetAll (htmlOverflow cfg t.cids)).run t).2) _

theorem dropBeyondCap_cids : ((dropBeyondCap cfg).run t).2.cids = inCap cfg t.cids := forgetAll_cids _

theorem dropProbes_cids : ((dropProbes cfg).run t).2.cids = inFolders cfg t.cids := by
  have hrun : (dropProbes cfg).run t =
      (if cfg.maxDirQueue = 0 then pure 0
        else forgetAll (probeOverflow t.cids (probeSize t.cids - cfg.maxDirQueue)) : Op ℕ).run t := rfl
  rw [hrun, inFolders]
  split_ifs
  · rfl
  · exact forgetAll_cids _

variable {now now' : ℚ} {rows : List Queued}

theorem keyed_timely (h : Table.Keyed Queued.cid rows) : Table.Keyed Queued.cid (timely cfg now rows) :=
  h.sublist (List.filter_sublist.map _)

theorem inFolders_sublist : (inFolders cfg rows).Sublist rows := by
  unfold inFolders
  split_ifs
  · exact List.Sublist.refl _
  · exact Table.without_sublist

theorem inLanes_sublist : (inLanes cfg rows).Sublist rows := Table.without_sublist.trans Table.without_sublist

theorem leftByCaps_sublist_timely : (leftByCaps cfg now rows).Sublist (timely cfg now rows) :=
  inFolders_sublist.trans (Table.without_sublist.trans inLanes_sublist)

theorem leftByCaps_sublist : (leftByCaps cfg now rows).Sublist rows :=
  leftByCaps_sublist_timely.trans List.filter_sublist

theorem retried_cid (r : Queued) : (retried cfg now r).cid = r.cid := by
  unfold retried requeued
  split_ifs <;> rfl

theorem keyed_retried (h : Table.Keyed Queued.cid rows) : Table.Keyed Queued.cid (rows.map (retried cfg now)) := by
  rw [Table.Keyed, List.map_map, show Queued.cid ∘ retried cfg now = Queued.cid from funext retried_cid]
  exact h

theorem prune_cids (h : Table.Keyed Queued.cid t.cids) :
    ((prune cfg now now').run t).2.cids =
      ((leftByCaps cfg now t.cids).map (retried cfg now')).filter fun r => !lonelyRaw cfg r := by
  have h₁ := dropNamedNonPdf_cids h
  generalize ht₁ : (dropNamedNonPdf.run t).2 = t₁ at h₁
  have hk₁ : Table.Keyed Queued.cid t₁.cids := by
    rw [h₁]
    exact h.sublist (List.filter_sublist.map _)
  have h₂ := @dropLonelyRaw_cids cfg _ hk₁
  generalize ht₂ : ((dropLonelyRaw cfg).run t₁).2 = t₂ at h₂
  have hk₂ : Table.Keyed Queued.cid t₂.cids := by
    rw [h₂]
    exact hk₁.sublist (List.filter_sublist.map _)
  have h₃ := dropStale_cids hk₂ (now - cfg.maxAgeSeconds)
  generalize ht₃ : ((dropStale (now - cfg.maxAgeSeconds)).run t₂).2 = t₃ at h₃
  have htimely : t₃.cids = timely cfg now t.cids := by
    rw [h₃, h₂, h₁, List.filter_filter, List.filter_filter, timely]
    apply List.filter_congr
    intro r _
    rw [Bool.and_comm (!stale _ _), Bool.and_assoc, Bool.and_comm (!stale _ _), ← Bool.and_assoc,
      Bool.and_comm (!lonelyRaw _ _)]
  have h₄ : ((dropLanes cfg).run t₃).2.cids = inLanes cfg (timely cfg now t.cids) := by rw [dropLanes_cids, htimely]
  generalize ht₄ : ((dropLanes cfg).run t₃).2 = t₄ at h₄
  have h₅ : ((dropBeyondCap cfg).run t₄).2.cids = inCap cfg (inLanes cfg (timely cfg now t.cids)) := by
    rw [dropBeyondCap_cids, h₄]
  generalize ht₅ : ((dropBeyondCap cfg).run t₄).2 = t₅ at h₅
  have h₆ : ((dropProbes cfg).run t₅).2.cids = leftByCaps cfg now t.cids := by rw [dropProbes_cids, h₅, leftByCaps]
  generalize ht₆ : ((dropProbes cfg).run t₅).2 = t₆ at h₆
  have h₇ : ((expireLocalSkips cfg now').run t₆).2.cids = (leftByCaps cfg now t.cids).map (retried cfg now') := by
    rw [expireLocalSkips_cids, h₆]
  have hk₇ : Table.Keyed Queued.cid ((expireLocalSkips cfg now').run t₆).2.cids := by
    rw [h₇]
    exact keyed_retried (h.sublist (leftByCaps_sublist.map _))
  have hrun : ((prune cfg now now').run t).2 =
      ((dropLonelyRaw cfg).run ((expireLocalSkips cfg now').run t₆).2).2 := by
    rw [← ht₆, ← ht₅, ← ht₄, ← ht₃, ← ht₂, ← ht₁]
    rfl
  rw [hrun, dropLonelyRaw_cids hk₇, h₇]

end Steps

end ObserverClub.Work
