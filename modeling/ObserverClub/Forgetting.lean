import ObserverClub.EventTables
import ObserverClub.Library.JsonOrder

namespace ObserverClub.Store

open Library Json Python Sqlite Catalog

section Rebuilding

variable {o : Observer} {t t' : Tables} {cid : Text}

/-- The search row that `_rebuild_doc` gives a CID. -/
def rebuiltRow (o : Observer) (cid : Text) (t : Tables) : Option Preferred :=
  (earliest (classifiesOf cid t)).bind fun c =>
    (describe o c.dict c.receivedAt).toOption.map fun d => ⟨cid, c.publisher, d, c.receivedAt⟩

theorem rebuiltRow_congr (h : t'.classifies = t.classifies) : rebuiltRow o cid t' = rebuiltRow o cid t := by
  rw [rebuiltRow, classifiesOf, h, rebuiltRow, classifiesOf]

theorem Rebuilt.rows (h : Rebuilt o cid t t') :
    t'.skips = t.skips ∧ t'.reports = t.reports ∧ t'.aliases = t.aliases := by
  obtain ⟨fts, settings, hdrop⟩ := dropDoc_eq cid t
  cases h with
  | gone _ =>
    rw [hdrop]
    exact ⟨rfl, rfl, rfl⟩
  | again _ _ =>
    obtain ⟨fts', settings', hd⟩ := withDoc_eq cid _ _ _ (dropDoc cid t)
    rw [hd, hdrop]
    exact ⟨rfl, rfl, rfl⟩

theorem Rebuilt.row (h : Rebuilt o cid t t') (cid' : Text) : (Table.row? Doc.cid cid' t'.docs).map preferredOf =
    if cid' = cid then rebuiltRow o cid t else (Table.row? Doc.cid cid' t.docs).map preferredOf := by
  cases h with
  | gone none =>
    rw [row?_dropDoc]
    split_ifs
    · rw [rebuiltRow, none]
      rfl
    · rfl
  | @again c d first columns =>
    rw [row?_withDoc, row?_dropDoc]
    split_ifs with hc hc'
    · rw [rebuiltRow, first, Option.bind_some, columns]
      rfl
    · exact absurd hc.symm hc'
    · exact absurd ‹cid = cid'›.symm hc
    · rw [Option.or_none]

theorem RebuiltAll.rows {cids : List Text} (h : RebuiltAll o cids t t') :
    t'.skips = t.skips ∧ t'.reports = t.reports ∧ t'.aliases = t.aliases := by
  induction h with
  | nil t => exact ⟨rfl, rfl, rfl⟩
  | cons first _ ih =>
    obtain ⟨hs, hr, ha⟩ := first.rows
    exact ⟨ih.1.trans hs, ih.2.1.trans hr, ih.2.2.trans ha⟩

theorem RebuiltAll.row {cids : List Text} (h : RebuiltAll o cids t t') (cid' : Text) :
    (Table.row? Doc.cid cid' t'.docs).map preferredOf =
      if cid' ∈ cids then rebuiltRow o cid' t else (Table.row? Doc.cid cid' t.docs).map preferredOf := by
  induction h with
  | nil t => rw [if_neg List.not_mem_nil]
  | @cons cid cids _ _ _ first _ ih =>
    rw [ih, rebuiltRow_congr first.frame.1, first.row]
    by_cases hc : cid' = cid
    · subst hc
      rw [if_pos rfl, if_pos List.mem_cons_self, ite_self]
    · have hmem : cid' ∈ cid :: cids ↔ cid' ∈ cids := by rw [List.mem_cons, or_iff_right hc]
      simp only [hmem, if_neg hc]

theorem rebuildDoc_returns {s : Conn}
    (h : ∀ c, earliest (classifiesOf cid s.view) = some c → ∃ d, describe o c.dict c.receivedAt = .ok d) :
    ∃ u, rebuildDoc o cid s = (.ok (), u) := by
  rw [rebuildDoc, Txn.write_bind, Txn.read_bind, Session.view_opened, classifiesOf_dropDoc]
  cases he : earliest (classifiesOf cid s.view) with
  | none => exact ⟨_, rfl⟩
  | some c =>
    obtain ⟨d, hd⟩ := h c he
    exact ⟨_, (upsertDoc_eq_ok o).mpr ⟨d, hd, rfl⟩⟩

theorem rebuildDocs_returns {cids : List Text} {s : Conn}
    (h : ∀ cid ∈ cids, ∀ c, earliest (classifiesOf cid s.view) = some c → ∃ d, describe o c.dict c.receivedAt = .ok d) :
    ∃ u, rebuildDocs o cids s = (.ok (), u) := by
  induction cids generalizing s with
  | nil => exact ⟨s, rfl⟩
  | cons cid cids ih =>
    rw [List.forall_mem_cons] at h
    obtain ⟨u, hu⟩ := rebuildDoc_returns h.1
    have hclassifies : u.view.classifies = s.view.classifies := (rebuildDoc_rebuilt hu).frame.1
    obtain ⟨v, hv⟩ := ih (s := u) (by
      intro cid' hcid' c hc
      rw [classifiesOf, hclassifies] at hc
      exact h.2 cid' hcid' c hc)
    exact ⟨v, Txn.bind_eq_ok.mpr ⟨(), u, hu, hv⟩⟩

end Rebuilding

section Parting

def besides {α : Type} (p : Text) (publisher : α → Text) (rows : List α) : List α := rows.filter fun r => publisher r ≠ p

variable {p : Text} {e : Event} {w : Surroundings}

theorem besides_inClassifies (h : e.publisher = p) (rows : List Classify) :
    besides p Classify.publisher (e.inClassifies w rows) = besides p Classify.publisher rows := by
  unfold Event.inClassifies
  cases e.deed with
  | classify d c =>
    dsimp only
    unfold Table.putNew
    split_ifs
    · rfl
    · have hrow : [e.classified d c w].filter (fun r => decide (r.publisher ≠ p)) = [] := by
        apply List.filter_eq_nil_iff.mpr
        intro r hr
        rw [List.mem_singleton.mp hr, decide_eq_true_eq, not_not]
        exact h
      rw [besides, List.filter_append, hrow, List.append_nil, besides]
  | _ => rfl

theorem besides_classifyRows (h : e.publisher ≠ p) :
    besides p Classify.publisher (e.classifyRows w) = e.classifyRows w := by
  apply List.filter_eq_self.mpr
  unfold Event.classifyRows
  cases e.deed with
  | classify d c =>
    intro r hr
    rw [List.mem_singleton.mp hr]
    exact decide_eq_true h
  | _ => exact fun r hr => absurd hr List.not_mem_nil

theorem besides_inReports_own (h : e.publisher = p) (rows : List Report) :
    besides p Report.publisher (e.inReports w rows) = besides p Report.publisher rows := by
  have hown : ∀ r ∈ rows, Report.key r = (e.cid, e.publisher) → decide (r.publisher ≠ p) = false := by
    intro r _ hk
    rw [decide_eq_false_iff_not, not_not, ← h]
    exact congrArg Prod.snd hk
  unfold Event.inReports
  cases e.deed with
  | report reason =>
    dsimp only
    split_ifs
    · exact Table.filter_delete_of_dropped hown
    · exact Table.filter_put_of_dropped (decide_eq_false (not_not.mpr h)) hown
  | _ => rfl

theorem besides_inReports (h : e.publisher ≠ p) (rows : List Report) :
    besides p Report.publisher (e.inReports w rows) = e.inReports w (besides p Report.publisher rows) := by
  unfold Event.inReports
  cases e.deed with
  | report reason =>
    dsimp only
    split_ifs
    · exact Table.filter_delete _ _
    · exact Table.filter_put (decide_eq_true h)
  | _ => rfl

theorem besides_inAliases_own (h : e.publisher = p) (rows : List Alias) :
    besides p Alias.publisher (e.inAliases w rows) = besides p Alias.publisher rows := by
  have hown : ∀ r ∈ rows, Alias.publisher r = e.publisher → decide (r.publisher ≠ p) = false := by
    intro r _ hk
    rw [decide_eq_false_iff_not, not_not, ← h]
    exact hk
  unfold Event.inAliases
  cases e.deed with
  | rename name =>
    dsimp only
    split_ifs
    · exact Table.filter_delete_of_dropped hown
    · exact Table.filter_put_of_dropped (decide_eq_false (not_not.mpr h)) hown
  | _ => rfl

theorem besides_inAliases (h : e.publisher ≠ p) (rows : List Alias) :
    besides p Alias.publisher (e.inAliases w rows) = e.inAliases w (besides p Alias.publisher rows) := by
  unfold Event.inAliases
  cases e.deed with
  | rename name =>
    dsimp only
    split_ifs
    · exact Table.filter_delete _ _
    · exact Table.filter_put (decide_eq_true h)
  | _ => rfl

structure SkipsLogged (t : Tables) : Prop where
  keyed : Table.Keyed Skip.cid t.skips
  logged : ∀ s ∈ t.skips, ∃ m ∈ t.messages, m.kind = txt "skip" ∧ m.cid = s.cid ∧ m.publisher = s.publisher
  standing : ∀ m ∈ t.messages, m.kind = txt "skip" → ∃ s ∈ t.skips, s.cid = m.cid

theorem SkipsLogged.take {t : Tables} (h : SkipsLogged t) (he : e.Proper) : SkipsLogged (e.take w t) := by
  by_cases hnew : e.payloadHash ∈ t.messages.map Message.payloadHash
  · rw [Event.take_old hnew]
    exact h
  have hentered := Event.take_entered (w := w) hnew
  have hskips := hentered.skips
  unfold Event.inSkips at hskips
  have hkind := he.kind
  cases hdeed : e.deed with
  | skip mimeType reason =>
    rw [hdeed] at hskips hkind
    dsimp only at hskips
    refine ⟨?_, ?_, ?_⟩
    · rw [hskips]
      exact h.keyed.put _
    · rw [hskips, hentered.messages]
      intro s hs
      obtain ⟨hs, -⟩ | rfl := Table.mem_put.mp hs
      · obtain ⟨m, hm, hrest⟩ := h.logged s hs
        exact ⟨m, List.mem_append_left _ hm, hrest⟩
      · exact ⟨e.message w, List.mem_append_right _ List.mem_cons_self, hkind, rfl, rfl⟩
    · rw [hskips, hentered.messages]
      intro m hm hk
      have hput : ∃ s ∈ Table.put Skip.cid ⟨e.cid, e.publisher, mimeType, reason, w.receivedAt⟩ t.skips, s.cid = e.cid :=
        ⟨_, Table.mem_put.mpr (.inr rfl), rfl⟩
      obtain hm | hm := List.mem_append.mp hm
      · by_cases hcid : m.cid = e.cid
        · rw [hcid]
          exact hput
        · obtain ⟨s, hs, hsc⟩ := h.standing m hm hk
          exact ⟨s, Table.mem_put.mpr (.inl ⟨hs, fun hc => hcid (hsc.symm.trans hc)⟩), hsc⟩
      · rw [List.mem_singleton.mp hm]
        exact hput
  | _ =>
    rw [hdeed] at hskips hkind
    dsimp only at hskips
    refine ⟨?_, ?_, ?_⟩
    · rw [hskips]
      exact h.keyed
    · rw [hskips, hentered.messages]
      intro s hs
      obtain ⟨m, hm, hrest⟩ := h.logged s hs
      exact ⟨m, List.mem_append_left _ hm, hrest⟩
    · rw [hskips, hentered.messages]
      intro m hm hk
      obtain hm | hm := List.mem_append.mp hm
      · exact h.standing m hm hk
      · rw [List.mem_singleton.mp hm] at hk
        exact absurd (hkind.symm.trans hk) (by
          simp only [Deed.kind]
          decide)

structure Parted (p : Text) (all : List (Event × Surroundings)) (t t' : Tables) : Prop where
  sourced : ∀ m ∈ t.messages, ∃ q ∈ all, q.1.payloadHash = m.payloadHash ∧ q.1.publisher = m.publisher
  recorded : ∀ c ∈ t.classifies, ∃ m ∈ t.messages, m.payloadHash = c.payloadHash
  recorded' : ∀ c ∈ t'.classifies, ∃ m ∈ t'.messages, m.payloadHash = c.payloadHash
  messages : t'.messages = besides p Message.publisher t.messages
  classifies : t'.classifies = besides p Classify.publisher t.classifies
  reports : t'.reports = besides p Report.publisher t.reports
  aliases : t'.aliases = besides p Alias.publisher t.aliases
  kept : ∀ s ∈ t.skips, s.publisher ≠ p → s ∈ t'.skips
  hidden : ∀ s ∈ t'.skips, s ∈ t.skips ∨ ∃ r ∈ t.skips, r.cid = s.cid ∧ r.publisher = p

theorem recorded_entered {t t' : Tables} (hnew : e.payloadHash ∉ t.messages.map Message.payloadHash)
    (h : e.Entered w t t') (hr : ∀ c ∈ t.classifies, ∃ m ∈ t.messages, m.payloadHash = c.payloadHash) :
    ∀ c ∈ t'.classifies, ∃ m ∈ t'.messages, m.payloadHash = c.payloadHash := by
  rw [h.classifies, inClassifies_new hr hnew, h.messages]
  intro c hc
  obtain hc | hc := List.mem_append.mp hc
  · obtain ⟨m, hm, hhash⟩ := hr c hc
    exact ⟨m, List.mem_append_left _ hm, hhash⟩
  · refine ⟨e.message w, List.mem_append_right _ List.mem_cons_self, ?_⟩
    unfold Event.classifyRows at hc
    cases hd : e.deed with
    | classify d x =>
      rw [hd] at hc
      rw [List.mem_singleton.mp hc]
      rfl
    | _ =>
      rw [hd] at hc
      cases hc

theorem mem_inSkips {rows : List Skip} {s : Skip} (h : s ∈ e.inSkips w rows) :
    s ∈ rows ∨ s.cid = e.cid ∧ s.publisher = e.publisher := by
  unfold Event.inSkips at h
  cases hd : e.deed with
  | skip mimeType reason =>
    rw [hd] at h
    obtain ⟨hs, -⟩ | rfl := Table.mem_put.mp h
    · exact .inl hs
    · exact .inr ⟨rfl, rfl⟩
  | _ =>
    rw [hd] at h
    exact .inl h

variable {all : List (Event × Surroundings)} {t t' : Tables}

theorem Parted.sourced_entered (h : Parted p all t t') {u : Tables} (he : e.Entered w t u) (hq : (e, w) ∈ all) :
    ∀ m ∈ u.messages, ∃ q ∈ all, q.1.payloadHash = m.payloadHash ∧ q.1.publisher = m.publisher := by
  rw [he.messages]
  intro m hm
  obtain hm | hm := List.mem_append.mp hm
  · exact h.sourced m hm
  · rw [List.mem_singleton.mp hm]
    exact ⟨(e, w), hq, rfl, rfl⟩

theorem Parted.own (h : Parted p all t t') (hq : (e, w) ∈ all) (hp : e.publisher = p) : Parted p all (e.take w t) t' := by
  by_cases hnew : e.payloadHash ∈ t.messages.map Message.payloadHash
  · rw [Event.take_old hnew]
    exact h
  have he := Event.take_entered (w := w) hnew
  have hmessage : besides p Message.publisher [e.message w] = [] := by
    apply List.filter_eq_nil_iff.mpr
    intro m hm
    rw [List.mem_singleton.mp hm, decide_eq_true_eq, not_not]
    exact hp
  refine ⟨h.sourced_entered he hq, recorded_entered hnew he h.recorded, h.recorded', ?_, ?_, ?_, ?_, ?_, ?_⟩
  · rw [he.messages, besides, List.filter_append]
    rw [besides] at hmessage
    rw [hmessage, List.append_nil]
    exact h.messages
  · rw [he.classifies, besides_inClassifies hp]
    exact h.classifies
  · rw [he.reports, besides_inReports_own hp]
    exact h.reports
  · rw [he.aliases, besides_inAliases_own hp]
    exact h.aliases
  · rw [he.skips]
    intro s hs hne
    obtain hs | ⟨-, hs⟩ := mem_inSkips hs
    · exact h.kept s hs hne
    · exact absurd (hs.trans hp) hne
  · rw [he.skips]
    intro s hs
    unfold Event.inSkips
    cases hd : e.deed with
    | skip mimeType reason =>
      dsimp only
      by_cases hc : s.cid = e.cid
      · exact .inr ⟨_, Table.mem_put.mpr (.inr rfl), hc.symm, hp⟩
      · obtain hs | ⟨r, hr, hrc, hrp⟩ := h.hidden s hs
        · exact .inl (Table.mem_put.mpr (.inl ⟨hs, hc⟩))
        · exact .inr ⟨r, Table.mem_put.mpr (.inl ⟨hr, fun hre => hc (hrc.symm.trans hre)⟩), hrc, hrp⟩
    | _ => exact h.hidden s hs

theorem Parted.new_iff (h : Parted p all t t') (hone : ∀ q ∈ all, ∀ q' ∈ all, q.1.payloadHash = q'.1.payloadHash →
    q.1.publisher = q'.1.publisher) (hq : (e, w) ∈ all) (hp : e.publisher ≠ p) :
    e.payloadHash ∈ t'.messages.map Message.payloadHash ↔ e.payloadHash ∈ t.messages.map Message.payloadHash := by
  rw [h.messages]
  constructor
  · intro hm
    obtain ⟨m, hm, hhash⟩ := List.mem_map.mp hm
    exact List.mem_map.mpr ⟨m, List.mem_of_mem_filter hm, hhash⟩
  · intro hm
    obtain ⟨m, hm, hhash⟩ := List.mem_map.mp hm
    obtain ⟨q, hmem, hqh, hqp⟩ := h.sourced m hm
    refine List.mem_map.mpr ⟨m, List.mem_filter.mpr ⟨hm, decide_eq_true ?_⟩, hhash⟩
    rw [← hqp, hone q hmem (e, w) hq (hqh.trans hhash)]
    exact hp

theorem Parted.other (h : Parted p all t t') (hone : ∀ q ∈ all, ∀ q' ∈ all, q.1.payloadHash = q'.1.payloadHash →
    q.1.publisher = q'.1.publisher) (hq : (e, w) ∈ all) (hp : e.publisher ≠ p) :
    Parted p all (e.take w t) (e.take w t') := by
  have hiff := h.new_iff hone hq hp
  by_cases hnew : e.payloadHash ∈ t.messages.map Message.payloadHash
  · rw [Event.take_old hnew, Event.take_old (hiff.mpr hnew)]
    exact h
  have hnew' := mt hiff.mp hnew
  have he := Event.take_entered (w := w) hnew
  have he' := Event.take_entered (w := w) hnew'
  have hmessage : besides p Message.publisher [e.message w] = [e.message w] := by
    apply List.filter_eq_self.mpr
    intro m hm
    rw [List.mem_singleton.mp hm]
    exact decide_eq_true hp
  refine ⟨h.sourced_entered he hq, recorded_entered hnew he h.recorded, recorded_entered hnew' he' h.recorded', ?_, ?_,
    ?_, ?_, ?_, ?_⟩
  · rw [he.messages, he'.messages, besides, List.filter_append, h.messages]
    rw [besides] at hmessage
    rw [hmessage, besides]
  · have hrows := besides_classifyRows (w := w) hp
    rw [besides] at hrows
    rw [he.classifies, he'.classifies, inClassifies_new h.recorded hnew, inClassifies_new h.recorded' hnew', besides,
      List.filter_append, hrows, h.classifies, besides]
  · rw [he.reports, he'.reports, besides_inReports hp, h.reports]
  · rw [he.aliases, he'.aliases, besides_inAliases hp, h.aliases]
  · rw [he.skips, he'.skips]
    unfold Event.inSkips
    cases hd : e.deed with
    | skip mimeType reason =>
      intro s hs hne
      obtain ⟨hs, hc⟩ | hs := Table.mem_put.mp hs
      · exact Table.mem_put.mpr (.inl ⟨h.kept s hs hne, hc⟩)
      · exact Table.mem_put.mpr (.inr hs)
    | _ => exact h.kept
  · rw [he.skips, he'.skips]
    unfold Event.inSkips
    cases hd : e.deed with
    | skip mimeType reason =>
      intro s hs
      obtain ⟨hs, hc⟩ | hs := Table.mem_put.mp hs
      · obtain hs | ⟨r, hr, hrc, hrp⟩ := h.hidden s hs
        · exact .inl (Table.mem_put.mpr (.inl ⟨hs, hc⟩))
        · refine .inr ⟨r, Table.mem_put.mpr (.inl ⟨hr, ?_⟩), hrc, hrp⟩
          rw [hrc]
          exact hc
      · exact .inl (Table.mem_put.mpr (.inr hs))
    | _ => exact h.hidden

theorem Parted.takeAll (hone : ∀ q ∈ all, ∀ q' ∈ all, q.1.payloadHash = q'.1.payloadHash →
    q.1.publisher = q'.1.publisher) {events : List (Event × Surroundings)} (hall : ∀ q ∈ events, q ∈ all)
    (h : Parted p all t t') :
    Parted p all (takeAll t events) (takeAll t' (events.filter fun q => q.1.publisher ≠ p)) := by
  induction events generalizing t t' with
  | nil => exact h
  | cons q events ih =>
    rw [List.forall_mem_cons] at hall
    by_cases hp : q.1.publisher = p
    · rw [List.filter_cons_of_neg (by simpa using hp)]
      exact ih hall.2 (h.own hall.1 hp)
    · rw [List.filter_cons_of_pos (by simpa using hp)]
      exact ih hall.2 (h.other hone hall.1 hp)

end Parting

end ObserverClub.Store
