import ObserverClub.SearchIndex
import Mathlib.Data.List.Dedup
import Mathlib.Data.Option.Defs

namespace ObserverClub.Store

open Library Python Sqlite Catalog

/-- The classify of the CID that was ingested first, of those still in the table. -/
def firstOf (cid : Text) (t : Tables) : Option Classify := t.classifies.find? (fun c => c.cid = cid)

structure Carries (d : Doc) (c : Classify) : Prop where
  publisher : d.publisher = c.publisher
  mimeType : d.description.mimeType = c.description.mimeType
  topic : d.description.topic = c.description.topic
  keywords : d.description.keywords = c.description.keywords
  textSha256 : d.description.textSha256 = c.description.textSha256

def preferredOf (d : Doc) : Preferred := ⟨d.cid, d.publisher, d.description, d.receivedAt⟩

def Matches (cid : Text) (t : Tables) : Prop := Option.Rel Carries (Table.row? Doc.cid cid t.docs) (firstOf cid t)

structure Chronicled (t : Tables) : Prop where
  first : ∀ cid, Matches cid t
  sorted : t.classifies.Pairwise fun c d => c.receivedAt ≤ d.receivedAt
  named : ∀ c ∈ t.classifies, c.cid ≠ []
  sourced : ∀ c ∈ t.classifies, ∃ m ∈ t.messages, m.payloadHash = c.payloadHash ∧ m.kind = txt "classify" ∧
    m.cid = c.cid ∧ m.publisher = c.publisher

section Earliest

theorem earliest_of_sorted {cs : List Classify} (h : cs.Pairwise fun c d => c.receivedAt ≤ d.receivedAt) :
    earliest cs = cs.head? := by
  induction cs with
  | nil => rfl
  | cons c cs ih =>
    obtain ⟨hc, hcs⟩ := List.pairwise_cons.mp h
    rw [earliest, ih hcs, List.head?_cons]
    cases cs with
    | nil => rfl
    | cons d cs =>
      rw [List.head?_cons]
      exact if_neg (not_lt.mpr (hc d List.mem_cons_self))

theorem head?_classifiesOf (cid : Text) (t : Tables) : (classifiesOf cid t).head? = firstOf cid t :=
  List.head?_filter

end Earliest

section Rebuilding

variable {o : Observer} {t t' : Tables} {cid : Text}

theorem item_dict (c : Classify) :
    item c.dict "mime_type" = (c.description.mimeType.map Json.str).getD .null ∧
      item c.dict "topic" = (c.description.topic.map Json.str).getD .null ∧
      item c.dict "keywords" = (c.description.keywords.map Json.str).getD .null ∧
      item c.dict "text_sha256" = (c.description.textSha256.map Json.str).getD .null := by
  refine ⟨?_, ?_, ?_, ?_⟩ <;> rfl

theorem bindText_column {x y : Option Text} (h : bindText o ((x.map Json.str).getD .null) = .ok y) : y = x := by
  cases x with
  | none =>
    cases h
    rfl
  | some t => exact ((bindText_str o).mp h).2

theorem describe_columns {obj : Value} {now : ℚ} {d : Description} (h : describe o obj now = .ok d) :
    bindText o (item obj "mime_type") = .ok d.mimeType ∧ bindText o (item obj "topic") = .ok d.topic ∧
      bindText o (item obj "keywords") = .ok d.keywords ∧ bindText o (item obj "text_sha256") = .ok d.textSha256 := by
  simp only [describe, bindDescription, bind_eq_ok] at h
  obtain ⟨_, _, _, _, m, hm, _, _, _, _, _, _, topic, htopic, keywords, hkeywords, _, _, hash, hhash, hd⟩ := h
  cases hd
  exact ⟨hm, htopic, hkeywords, hhash⟩

theorem describe_dict {c : Classify} {now : ℚ} {d : Description} (h : describe o c.dict now = .ok d) :
    d.mimeType = c.description.mimeType ∧ d.topic = c.description.topic ∧ d.keywords = c.description.keywords ∧
      d.textSha256 = c.description.textSha256 := by
  obtain ⟨hm, htopic, hkeywords, hhash⟩ := describe_columns h
  obtain ⟨im, itopic, ikeywords, ihash⟩ := item_dict c
  rw [im] at hm
  rw [itopic] at htopic
  rw [ikeywords] at hkeywords
  rw [ihash] at hhash
  exact ⟨bindText_column hm, bindText_column htopic, bindText_column hkeywords, bindText_column hhash⟩

theorem row?_withDoc (cid' publisher : Text) (d : Description) (now : ℚ) (t : Tables) :
    Table.row? Doc.cid cid' (withDoc cid publisher d now t).docs = (Table.row? Doc.cid cid' t.docs).or
      (if cid = cid' then some ⟨nextRowid t.docs, cid, publisher, d, now⟩ else none) := by
  obtain ⟨fts, settings, hd⟩ := withDoc_eq cid publisher d now t
  rw [hd]
  cases hrow : Table.row? Doc.cid cid t.docs with
  | some e =>
    obtain ⟨he, hc⟩ := Table.row?_some hrow
    dsimp only
    rw [Table.putNew_of_mem he hc]
    by_cases heq : cid = cid'
    · subst heq
      rw [hrow, Option.some_or]
    · rw [if_neg heq, Option.or_none]
  | none =>
    dsimp only
    rw [Table.putNew_of_forall_ne (Table.row?_eq_none.mp hrow), Table.row?_append]
    congr 1
    by_cases heq : cid = cid'
    · rw [if_pos heq]
      exact List.find?_cons_of_pos (decide_eq_true heq)
    · rw [if_neg heq]
      exact List.find?_cons_of_neg (by simpa using heq)

theorem row?_dropDoc (cid' : Text) (t : Tables) :
    Table.row? Doc.cid cid' (dropDoc cid t).docs = if cid' = cid then none else Table.row? Doc.cid cid' t.docs := by
  obtain ⟨fts, settings, h⟩ := dropDoc_eq cid t
  rw [h]
  exact Table.row?_delete cid' cid t.docs

theorem Rebuilt.frame (h : Rebuilt o cid t t') : t'.classifies = t.classifies ∧ t'.messages = t.messages := by
  obtain ⟨fts, settings, hdrop⟩ := dropDoc_eq cid t
  cases h with
  | gone _ =>
    rw [hdrop]
    exact ⟨rfl, rfl⟩
  | again _ _ =>
    obtain ⟨fts', settings', hd⟩ := withDoc_eq cid _ _ _ (dropDoc cid t)
    rw [hd, hdrop]
    exact ⟨rfl, rfl⟩

theorem earliest_firstOf (h : t.classifies.Pairwise fun c d => c.receivedAt ≤ d.receivedAt) (cid : Text) :
    earliest (classifiesOf cid t) = firstOf cid t := by
  rw [← head?_classifiesOf]
  exact earliest_of_sorted (h.filter _)

theorem Rebuilt.matches (h : Rebuilt o cid t t') (hsorted : t.classifies.Pairwise fun c d => c.receivedAt ≤ d.receivedAt)
    {cid' : Text} (hc : cid' = cid ∨ Matches cid' t) : Matches cid' t' := by
  have hfirst : firstOf cid' t' = firstOf cid' t := by rw [firstOf, h.frame.1, firstOf]
  rw [Matches, hfirst]
  have hearliest := earliest_firstOf hsorted cid
  cases h with
  | gone none =>
    rw [row?_dropDoc]
    by_cases heq : cid' = cid
    · rw [none] at hearliest
      rw [if_pos heq, heq, ← hearliest]
      exact .none
    · rw [if_neg heq]
      exact hc.resolve_left heq
  | @again c d first columns =>
    rw [row?_withDoc, row?_dropDoc]
    by_cases heq : cid' = cid
    · obtain ⟨hm, htopic, hkeywords, hhash⟩ := describe_dict columns
      rw [if_pos heq, Option.none_or, if_pos heq.symm, heq, ← hearliest, first]
      exact .some ⟨rfl, hm, htopic, hkeywords, hhash⟩
    · rw [if_neg heq, if_neg (Ne.symm heq), Option.or_none]
      exact hc.resolve_left heq

theorem RebuiltAll.frame {cids : List Text} (h : RebuiltAll o cids t t') :
    t'.classifies = t.classifies ∧ t'.messages = t.messages := by
  induction h with
  | nil t => exact ⟨rfl, rfl⟩
  | cons first _ ih => exact ⟨ih.1.trans first.frame.1, ih.2.trans first.frame.2⟩

theorem RebuiltAll.matches {cids : List Text} (h : RebuiltAll o cids t t')
    (hsorted : t.classifies.Pairwise fun c d => c.receivedAt ≤ d.receivedAt) {cid' : Text}
    (hc : cid' ∈ cids ∨ Matches cid' t) : Matches cid' t' := by
  induction h with
  | nil t => exact hc.resolve_left List.not_mem_nil
  | @cons cid cids _ _ _ first _ ih =>
    rw [List.mem_cons, or_assoc] at hc
    apply ih
    · rw [first.frame.1]
      exact hsorted
    · by_cases hin : cid' ∈ cids
      · exact .inl hin
      · apply Or.inr
        apply first.matches hsorted
        tauto

theorem purgeCid_frame (cid : Text) (t : Tables) : (purgeCid cid t).docs = Table.delete Doc.cid cid t.docs ∧
    (purgeCid cid t).classifies = t.classifies.filter (fun r => r.cid ≠ cid) ∧
    (purgeCid cid t).messages = t.messages.filter (fun m => ¬(m.cid = cid ∧ m.kind ≠ txt "alias")) := by
  unfold purgeCid
  dsimp only
  split_ifs
  · exact ⟨rfl, rfl, rfl⟩
  · rw [addStat_eq]
    exact ⟨rfl, rfl, rfl⟩

end Rebuilding

namespace Chronicled

variable {o : Observer} {t t' : Tables}

theorem congr (h : Chronicled t) (hclassifies : t'.classifies = t.classifies) (hdocs : t'.docs = t.docs)
    (hmessages : ∀ m ∈ t.messages, m.kind = txt "classify" → m ∈ t'.messages) : Chronicled t' := by
  constructor
  · intro cid
    have hm := h.first cid
    rw [Matches, firstOf] at hm ⊢
    rw [hclassifies, hdocs]
    exact hm
  · rw [hclassifies]
    exact h.sorted
  · rw [hclassifies]
    exact h.named
  · rw [hclassifies]
    intro c hc
    obtain ⟨m, hm, hhash, hkind, hrest⟩ := h.sourced c hc
    exact ⟨m, hmessages m hm hkind, hhash, hkind, hrest⟩

theorem classified (h : Chronicled t) {m : Message} {c : Classify} (hnew : ∀ r ∈ t.messages, r.payloadHash ≠ m.payloadHash)
    (hm : m.payloadHash = c.payloadHash ∧ m.kind = txt "classify" ∧ m.cid = c.cid ∧ m.publisher = c.publisher)
    (hnamed : c.cid ≠ []) (hlast : ∀ d ∈ t.classifies, d.receivedAt ≤ c.receivedAt) :
    Chronicled (withDoc c.cid c.publisher c.description c.receivedAt (dropClaims c.cid
      (withClassify c (withMessage m t)))) := by
  have hclassifies : Table.putNew Classify.payloadHash c t.classifies = t.classifies ++ [c] := by
    apply Table.putNew_of_forall_ne
    intro d hd he
    obtain ⟨r, hr, hhash, -⟩ := h.sourced d hd
    exact hnew r hr (hhash.trans (he.trans hm.1.symm))
  obtain ⟨fts, settings, hdoc⟩ := withDoc_eq c.cid c.publisher c.description c.receivedAt (dropClaims c.cid
    (withClassify c (withMessage m t)))
  have hframe : ∀ u, u = withDoc c.cid c.publisher c.description c.receivedAt (dropClaims c.cid
      (withClassify c (withMessage m t))) → u.classifies = t.classifies ++ [c] ∧ u.messages = t.messages ++ [m] := by
    rintro u rfl
    rw [hdoc]
    exact ⟨hclassifies, rfl⟩
  obtain ⟨hc, hmessages⟩ := hframe _ rfl
  constructor
  · intro cid
    have hmatch := h.first cid
    rw [Matches, row?_withDoc, firstOf, hc, List.find?_append]
    rw [Matches, firstOf] at hmatch
    rw [show (dropClaims c.cid (withClassify c (withMessage m t))).docs = t.docs from rfl]
    generalize Table.row? Doc.cid cid t.docs = row at hmatch ⊢
    generalize t.classifies.find? (fun d => d.cid = cid) = first at hmatch ⊢
    cases hmatch with
    | some hcarries =>
      rw [Option.some_or, Option.some_or]
      exact .some hcarries
    | none =>
      rw [Option.none_or, Option.none_or]
      by_cases heq : c.cid = cid
      · have hfind : List.find? (fun c => decide (c.cid = cid)) [c] = some c :=
          List.find?_cons_of_pos (decide_eq_true heq)
        rw [if_pos heq, hfind]
        exact .some ⟨rfl, rfl, rfl, rfl, rfl⟩
      · rw [if_neg heq, List.find?_cons_of_neg (by simpa using heq)]
        exact .none
  · rw [hc, List.pairwise_append]
    refine ⟨h.sorted, List.pairwise_singleton _ c, ?_⟩
    intro d hd e he
    rw [List.mem_singleton.mp he]
    exact hlast d hd
  · rw [hc]
    intro d hd
    rcases List.mem_append.mp hd with hd | hd
    · exact h.named d hd
    · rw [List.mem_singleton.mp hd]
      exact hnamed
  · rw [hc, hmessages]
    intro d hd
    rcases List.mem_append.mp hd with hd | hd
    · obtain ⟨r, hr, hrest⟩ := h.sourced d hd
      exact ⟨r, List.mem_append_left _ hr, hrest⟩
    · rw [List.mem_singleton.mp hd]
      exact ⟨m, List.mem_append_right _ List.mem_cons_self, hm⟩

theorem blacklisted (h : Chronicled t) {publisher : Text} {now : ℚ}
    (hr : RebuiltAll o (touchedCids publisher t) (dropPublisher publisher (noteBlacklisted publisher now t)) t') :
    Chronicled t' := by
  have hsorted := h.sorted.filter fun r : Classify => decide (r.publisher ≠ publisher)
  constructor
  · intro cid
    apply hr.matches hsorted
    by_cases htouched : ∃ c ∈ t.classifies, c.publisher = publisher ∧ c.cid = cid
    · obtain ⟨c, hc, hp, rfl⟩ := htouched
      apply Or.inl
      rw [touchedCids, List.mem_dedup, List.mem_filter, List.mem_append]
      refine ⟨.inl ?_, decide_eq_true (h.named c hc)⟩
      exact List.mem_map_of_mem (List.mem_filter.mpr ⟨hc, decide_eq_true hp⟩)
    · apply Or.inr
      have hkept : firstOf cid (dropPublisher publisher (noteBlacklisted publisher now t)) = firstOf cid t := by
        rw [← head?_classifiesOf, ← head?_classifiesOf, classifiesOf, classifiesOf]
        congr 1
        rw [dropPublisher, List.filter_filter]
        apply List.filter_congr
        intro c hc
        by_cases hcid : c.cid = cid
        · have hp : c.publisher ≠ publisher := fun hp => htouched ⟨c, hc, hp, hcid⟩
          rw [decide_eq_true hp, Bool.and_true]
        · rw [decide_eq_false hcid, Bool.false_and]
      rw [Matches, hkept]
      exact h.first cid
  · rw [hr.frame.1]
    exact hsorted
  · rw [hr.frame.1]
    intro c hc
    exact h.named c (List.mem_of_mem_filter hc)
  · rw [hr.frame.1, hr.frame.2]
    intro c hc
    obtain ⟨hmem, hp⟩ := List.mem_filter.mp hc
    obtain ⟨m, hm, hhash, hkind, hcid, hpublisher⟩ := h.sourced c hmem
    refine ⟨m, List.mem_filter.mpr ⟨hm, ?_⟩, hhash, hkind, hcid, hpublisher⟩
    rw [hpublisher]
    exact hp

theorem purgeCid (h : Chronicled t) (cid : Text) : Chronicled (purgeCid cid t) := by
  obtain ⟨hdocs, hclassifies, hmessages⟩ := purgeCid_frame cid t
  constructor
  · intro cid'
    rw [Matches, hdocs, Table.row?_delete, ← head?_classifiesOf, classifiesOf, hclassifies, List.filter_filter]
    by_cases heq : cid' = cid
    · rw [if_pos heq]
      have hnone : t.classifies.filter (fun c => decide (c.cid = cid') && decide (c.cid ≠ cid)) = [] := by
        rw [List.filter_eq_nil_iff]
        intro c _ hc
        rw [Bool.and_eq_true, decide_eq_true_eq, decide_eq_true_eq] at hc
        exact hc.2 (hc.1.trans heq)
      rw [hnone]
      exact .none
    · rw [if_neg heq]
      have hkept : t.classifies.filter (fun c => decide (c.cid = cid') && decide (c.cid ≠ cid)) = classifiesOf cid' t := by
        apply List.filter_congr
        intro c _
        by_cases hcid : c.cid = cid'
        · rw [decide_eq_true (show c.cid ≠ cid from hcid ▸ heq), Bool.and_true]
        · rw [decide_eq_false hcid, Bool.false_and]
      rw [hkept, head?_classifiesOf]
      exact h.first cid'
  · rw [hclassifies]
    exact h.sorted.filter _
  · rw [hclassifies]
    intro c hc
    exact h.named c (List.mem_of_mem_filter hc)
  · rw [hclassifies, hmessages]
    intro c hc
    obtain ⟨hmem, hne⟩ := List.mem_filter.mp hc
    obtain ⟨m, hm, hhash, hkind, hcid, hpublisher⟩ := h.sourced c hmem
    refine ⟨m, List.mem_filter.mpr ⟨hm, ?_⟩, hhash, hkind, hcid, hpublisher⟩
    apply decide_eq_true
    rintro ⟨he, -⟩
    exact of_decide_eq_true hne (hcid.symm.trans he)

theorem purged (h : Chronicled t) (cids : List Text) : Chronicled (cids.foldl (fun t cid => Store.purgeCid cid t) t) := by
  induction cids generalizing t with
  | nil => exact h
  | cons cid cids ih => exact ih (h.purgeCid cid)

theorem named_of_valid {obj : Value} {m : Accepted} {cid publisher : Text} (ha : Acceptable o t obj m)
    (hr : Recordable o t m cid publisher) (hk : m.kind ≠ txt "alias") : cid ≠ [] := by
  obtain ⟨htruthy, hvalid⟩ := ha.valid hk
  cases hcid : m.cid with
  | str s =>
    have hbind := hr.cid
    rw [hcid] at hbind htruthy
    obtain ⟨-, he⟩ := (bindText_str o).mp hbind
    cases he
    rintro rfl
    cases htruthy
  | _ =>
    rw [hcid] at hvalid
    cases hvalid

theorem changed (h : Chronicled t) {c : Call} (hc : Changed o c t t')
    (hlast : ∀ now ∈ c.received, ∀ d ∈ t.classifies, d.receivedAt ≤ now) : Chronicled t' := by
  cases hc with
  | unchanged _ _ => exact h
  | @ingested w obj m cid publisher _ _ ha hr he =>
    cases he with
    | @classified d c kind columns classifier =>
      exact h.classified (m := m.row cid publisher w.receivedAt)
        (c := ⟨m.payloadHash, cid, publisher, d, c, w.receivedAt⟩) hr.new ⟨rfl, kind, rfl, rfl⟩
        (named_of_valid ha hr (by rw [kind]; decide)) (hlast _ rfl)
    | aliased _ _ _ =>
      have hmessages : ∀ r ∈ t.messages, r.kind = txt "classify" → r ∈ t.messages ++ [m.row cid publisher w.receivedAt] :=
        fun r hr _ => List.mem_append_left _ hr
      rw [withAlias]
      split <;> exact h.congr rfl rfl hmessages
    | skipped _ _ _ => exact h.congr rfl rfl fun r hr _ => List.mem_append_left _ hr
    | claimed _ _ =>
      rw [withClaim]
      split <;> exact h.congr rfl rfl fun r hr _ => List.mem_append_left _ hr
    | reported _ =>
      rw [withReport]
      split <;> exact h.congr rfl rfl fun r hr _ => List.mem_append_left _ hr
  | blacklisted _ _ hr => exact h.blacklisted hr
  | unblacklisted _ _ => exact h.congr rfl rfl fun _ hm _ => hm
  | expired _ _ _ => exact h.congr rfl rfl fun _ hm _ => hm
  | purgedSkips _ =>
    refine h.congr rfl rfl fun m hm hkind => List.mem_filter.mpr ⟨hm, decide_eq_true ?_⟩
    rintro ⟨hskip, -⟩
    exact absurd (hkind.symm.trans hskip) (by decide)
  | purgedCids _ => exact h.purged _
  | counted _ => exact h.congr rfl rfl fun _ hm _ => hm

end Chronicled

section Runs

variable {o : Observer}

theorem mem_purged {cids : List Text} {t : Tables} {d : Classify}
    (hd : d ∈ (cids.foldl (fun t cid => purgeCid cid t) t).classifies) : d ∈ t.classifies := by
  induction cids generalizing t with
  | nil => exact hd
  | cons cid cids ih =>
    have hstep := ih hd
    rw [(purgeCid_frame cid t).2.1] at hstep
    exact List.mem_of_mem_filter hstep

theorem received_of_changed {c : Call} {t t' : Tables} (h : Changed o c t t') {d : Classify} (hd : d ∈ t'.classifies) :
    d ∈ t.classifies ∨ c.received = some d.receivedAt := by
  cases h with
  | unchanged _ _ => exact .inl hd
  | @ingested w obj m cid publisher _ _ ha hr he =>
    cases he with
    | classified _ _ _ =>
      obtain ⟨fts, settings, hdoc⟩ := withDoc_eq cid publisher _ w.receivedAt (dropClaims cid (withClassify _ _))
      rw [hdoc] at hd
      have hput := Table.mem_putNew hd
      rcases hput with hd | rfl
      · exact .inl hd
      · exact .inr rfl
    | aliased _ _ _ =>
      rw [withAlias] at hd
      split at hd <;> exact .inl hd
    | skipped _ _ _ => exact .inl hd
    | claimed _ _ =>
      rw [withClaim] at hd
      split at hd <;> exact .inl hd
    | reported _ =>
      rw [withReport] at hd
      split at hd <;> exact .inl hd
  | blacklisted _ _ hr =>
    rw [hr.frame.1] at hd
    exact .inl (List.mem_of_mem_filter hd)
  | unblacklisted _ _ => exact .inl hd
  | expired _ _ _ => exact .inl hd
  | purgedSkips _ => exact .inl hd
  | purgedCids _ => exact .inl (mem_purged hd)
  | counted _ => exact .inl hd

theorem chronicled_after {calls : List Call} {s : Conn} (hs : Chronicled s.view)
    (hlast : ∀ d ∈ s.view.classifies, ∀ now ∈ calls.filterMap Call.received, d.receivedAt ≤ now)
    (hsorted : (calls.filterMap Call.received).Pairwise (· ≤ ·)) (h : Along (step o) (Returns o) s calls) :
    Chronicled (run (step o) s calls).view := by
  induction calls generalizing s with
  | nil => exact hs
  | cons c calls ih =>
    obtain ⟨hreturns, hrest⟩ := h
    have hchanged := changed_step hreturns
    have hmem : ∀ now, c.received = some now → now ∈ (c :: calls).filterMap Call.received := by
      intro now hnow
      exact List.mem_filterMap.mpr ⟨c, List.mem_cons_self, hnow⟩
    apply ih _ _ _ hrest
    · apply hs.changed hchanged
      intro now hnow d hd
      exact hlast d hd now (hmem now hnow)
    · intro d hd now hnow
      rcases received_of_changed hchanged hd with hold | hnew
      · apply hlast d hold
        obtain ⟨c', hc', he⟩ := List.mem_filterMap.mp hnow
        exact List.mem_filterMap.mpr ⟨c', List.mem_cons_of_mem _ hc', he⟩
      · rw [List.filterMap_cons_some hnew] at hsorted
        exact (List.pairwise_cons.mp hsorted).1 now hnow
    · exact List.Pairwise.sublist ((List.sublist_cons_self c calls).filterMap _) hsorted

/-- What the search rows say about the classifies, and the lookup of a CID with them. -/
structure FirstSeen (o : Observer) (t : Tables) : Prop where
  cids : ∀ cid, (∃ d ∈ t.docs, d.cid = cid) ↔ ∃ c ∈ t.classifies, c.cid = cid
  carries : ∀ d ∈ t.docs, ∃ c, firstOf d.cid t = some c ∧ Carries d c
  found : ∀ d ∈ t.docs, ∀ me now now', lookupCid o me now now' t d.cid = some (.classify (preferredOf d))
  otherwise : ∀ cid, (∀ c ∈ t.classifies, c.cid ≠ cid) → ∀ me now now' row,
    lookupCid o me now now' t cid ≠ some (.classify row)

theorem firstSeen_of_chronicled {t : Tables} (hkeyed : Table.Keyed Doc.cid t.docs) (h : Chronicled t) :
    FirstSeen o t := by
  have hrow : ∀ d ∈ t.docs, Table.row? Doc.cid d.cid t.docs = some d := fun d hd => hkeyed.row?_of_mem hd
  have hcarries : ∀ d ∈ t.docs, ∃ c, firstOf d.cid t = some c ∧ Carries d c := by
    intro d hd
    have hmatch := h.first d.cid
    rw [Matches, hrow d hd] at hmatch
    generalize firstOf d.cid t = first at hmatch ⊢
    cases hmatch with
    | some hc => exact ⟨_, rfl, hc⟩
  have hnone : ∀ cid, (∀ c ∈ t.classifies, c.cid ≠ cid) → firstOf cid t = none := by
    intro cid hfree
    rw [firstOf, List.find?_eq_none]
    intro c hc
    rw [decide_eq_true_eq]
    exact hfree c hc
  constructor
  · intro cid
    constructor
    · rintro ⟨d, hd, rfl⟩
      obtain ⟨c, hc, -⟩ := hcarries d hd
      rw [firstOf] at hc
      have hcid := List.find?_some hc
      exact ⟨c, List.mem_of_find?_eq_some hc, of_decide_eq_true hcid⟩
    · rintro ⟨c, hc, rfl⟩
      have hmatch := h.first c.cid
      rw [Matches] at hmatch
      cases hd : Table.row? Doc.cid c.cid t.docs with
      | some d => exact ⟨d, Table.row?_some hd⟩
      | none =>
        rw [hd] at hmatch
        generalize hf : firstOf c.cid t = first at hmatch
        cases hmatch
        exact absurd (decide_eq_true rfl) (List.find?_eq_none.mp hf c hc)
  · exact hcarries
  · intro d hd me now now'
    rw [lookupCid, preferredClassify, hrow d hd]
    rfl
  · intro cid hfree me now now' row hlookup
    have hmatch := h.first cid
    rw [Matches, hnone cid hfree] at hmatch
    have hdoc : Table.row? Doc.cid cid t.docs = none := by
      generalize Table.row? Doc.cid cid t.docs = found at hmatch ⊢
      cases hmatch
      rfl
    have hempty : classifiesOf cid t = [] := by
      rw [classifiesOf, List.filter_eq_nil_iff]
      intro c hc
      rw [decide_eq_true_eq]
      exact hfree c hc
    have hnothing : preferredClassify t cid = none := by
      rw [preferredClassify, hdoc, hempty]
      rfl
    rw [lookupCid, hnothing] at hlookup
    dsimp only at hlookup
    split at hlookup
    · cases hlookup
    · obtain ⟨s, -, hs⟩ := Option.map_eq_some_iff.mp hlookup
      cases hs

theorem chronicled_fresh : Chronicled fresh.view :=
  ⟨fun _ => .none, .nil, fun _ hc => absurd hc List.not_mem_nil, fun _ hc => absurd hc List.not_mem_nil⟩

theorem first_seen (o : Observer) (calls : List Call) (hsorted : (calls.filterMap Call.received).Pairwise (· ≤ ·))
    (h : Along (step o) (Returns o) fresh calls) : FirstSeen o (run (step o) fresh calls).view := by
  apply firstSeen_of_chronicled
  · exact (holds_after (fun _ _ _ hc hs => hs.changed hc) inSync_fresh h).cids
  · apply chronicled_after chronicled_fresh _ hsorted h
    exact fun _ hd => absurd hd List.not_mem_nil

theorem first_seen_votes : FirstSeen sampleObserver (run (step sampleObserver) fresh votesThenBlacklist).view :=
  first_seen sampleObserver votesThenBlacklist (by decide +kernel) (by decide +kernel)

end Runs

end ObserverClub.Store
