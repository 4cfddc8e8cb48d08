import ObserverClub.Work

namespace ObserverClub.Work

open Library Python Indexer

def InFlight (t : Tables) (cid : Text) : Prop :=
  (∃ r ∈ t.cids, r.cid = cid) ∧ ∀ r ∈ t.cids, r.cid = cid → r.status = .processing

/-- The operation leaves the row of `cid` with its worker. -/
def Keeps {α : Type} (cid : Text) (t : Tables) (m : Op α) : Prop := InFlight t cid → InFlight (m.run t).2 cid

section Rules

variable {α β : Type} {cid : Text} {t : Tables}

theorem InFlight.of_cids {t' : Tables} (h : InFlight t cid) (he : t'.cids = t.cids) : InFlight t' cid := by
  unfold InFlight
  rw [he]
  exact h

theorem keeps_pure (x : α) : Keeps cid t (pure x : Op α) := id

theorem keeps_bind {m : Op α} {f : α → Op β} (hm : Keeps cid t m) (hf : Keeps cid (m.run t).2 (f (m.run t).1)) :
    Keeps cid t (m >>= f) := fun h => hf (hm h)

theorem keeps_last {m : Op α} {g : α → β} (hm : Keeps cid t m) : Keeps cid t (m >>= fun a => pure (g a)) := hm

theorem keeps_get {f : Tables → Op β} (h : Keeps cid t (f t)) : Keeps cid t (get >>= f) := h

theorem keeps_countRows {p : Queued → Bool} {f : ℕ → Op β} (h : ∀ n, Keeps cid t (f n)) :
    Keeps cid t (countRows p >>= f) := h _

theorem keeps_selectRows {p : Queued → Bool} {f : List Queued → Op β}
    (h : ∀ rows, (∀ r ∈ rows, r ∈ t.cids ∧ p r = true) → Keeps cid t (f rows)) : Keeps cid t (selectRows p >>= f) :=
  h (t.cids.filter p) fun _ hr => List.mem_filter.mp hr

theorem keeps_oldest {p : Queued → Bool} {n : ℕ} {f : List Queued → Op β}
    (h : ∀ rows, (∀ r ∈ rows, r ∈ t.cids ∧ p r = true) → Keeps cid t (f rows)) : Keeps cid t (oldest p n >>= f) := by
  apply h
  intro r hr
  exact List.mem_filter.mp ((List.mem_insertionSort _).mp (List.mem_of_mem_take hr))

theorem keeps_modify {f : Tables → Tables} (h : ∀ t, (f t).cids = t.cids) : Keeps cid t (modify f : Op Unit) :=
  fun hf => hf.of_cids (h t)

theorem keeps_update {p : Queued → Bool} {f : Queued → Queued} (hcid : ∀ r, (f r).cid = r.cid)
    (hstatus : ∀ r, p r = true → r.cid = cid → r.status = .processing → (f r).status = .processing) :
    Keeps cid t (update p f) := by
  rintro ⟨⟨r, hr, hrc⟩, hall⟩
  have hif (q : Queued) : (if p q then f q else q).cid = q.cid := by
    split_ifs
    · exact hcid q
    · rfl
  refine ⟨⟨if p r then f r else r, List.mem_map_of_mem hr, (hif r).trans hrc⟩, fun q hq hqc => ?_⟩
  obtain ⟨r', hr', rfl⟩ := List.mem_map.mp hq
  rw [hif r'] at hqc
  have hproc := hall r' hr' hqc
  split_ifs with hp
  · exact hstatus r' hp hqc hproc
  · exact hproc

theorem keeps_insertRow {r : Queued} (h : r.cid ≠ cid) : Keeps cid t (insertRow r) := by
  rintro ⟨⟨q, hq, hqc⟩, hall⟩
  refine ⟨⟨q, List.mem_append_left _ hq, hqc⟩, fun q' hq' hqc' => ?_⟩
  obtain hq' | hq' := List.mem_append.mp hq'
  · exact hall q' hq' hqc'
  · rw [List.mem_singleton.mp hq'] at hqc'
    exact absurd hqc' h

theorem keeps_forgetCid {c : Text} (h : c ≠ cid) : Keeps cid t (forgetCid c) := by
  rintro ⟨⟨r, hr, hrc⟩, hall⟩
  refine ⟨⟨r, List.mem_filter.mpr ⟨hr, ?_⟩, hrc⟩, fun q hq hqc => hall q (List.mem_filter.mp hq).1 hqc⟩
  rw [hrc, decide_eq_true_eq]
  exact h.symm

theorem keeps_forgetAll {rows : List Queued} (h : ∀ r ∈ rows, r.cid ≠ cid) : Keeps cid t (forgetAll rows) := by
  induction rows generalizing t with
  | nil => exact keeps_pure 0
  | cons r rows ih =>
    rw [List.forall_mem_cons] at h
    exact keeps_bind (keeps_forgetCid h.1) (keeps_last (ih h.2))

theorem InFlight.ne_of_idle (h : InFlight t cid) {r : Queued} (hr : r ∈ t.cids) (hidle : r.status ≠ .processing) :
    r.cid ≠ cid := fun hrc => hidle (h.2 r hr hrc)

theorem keeps_forget_idle {rows : List Queued} (h : ∀ r ∈ rows, r ∈ t.cids ∧ r.status ≠ .processing) :
    Keeps cid t (forgetAll rows) := fun hf => keeps_forgetAll (fun r hr => hf.ne_of_idle (h r hr).1 (h r hr).2) hf

theorem discovered_idle {r : Queued} (h : r.discovered = true) : r.status ≠ .processing := by
  rw [of_decide_eq_true h]
  decide

end Rules

section Operations

variable {cfg : Config} {cid : Text} {t : Tables}

theorem keeps_dropNamedNonPdf : Keeps cid t dropNamedNonPdf := by
  apply keeps_selectRows
  intro rows hrows
  apply keeps_forget_idle
  intro r hr
  obtain ⟨hmem, hp⟩ := hrows r hr
  simp only [Bool.and_eq_true] at hp
  exact ⟨hmem, discovered_idle hp.1.2⟩

theorem keeps_dropLonelyRaw : Keeps cid t (dropLonelyRaw cfg) := by
  unfold dropLonelyRaw
  split_ifs
  · apply keeps_pure
  · apply keeps_selectRows
    intro rows hrows hf
    obtain ⟨⟨q, hq, hqc⟩, hall⟩ := hf
    refine ⟨⟨q, List.mem_filter.mpr ⟨hq, ?_⟩, hqc⟩, fun q' hq' hqc' => hall q' (List.mem_filter.mp hq').1 hqc'⟩
    rw [decide_eq_true_eq]
    intro hmem
    obtain ⟨r, hr, hrc⟩ := List.mem_map.mp hmem
    obtain ⟨hrmem, hp⟩ := hrows r hr
    simp only [Bool.and_eq_true] at hp
    exact InFlight.ne_of_idle ⟨⟨q, hq, hqc⟩, hall⟩ hrmem (discovered_idle hp.1.1.1.1) (hrc.trans hqc)

theorem keeps_dropLanes : Keeps cid t (dropLanes cfg) := by
  apply keeps_countRows
  intro pdf
  apply keeps_countRows
  intro html
  apply keeps_oldest
  intro rows hrows
  apply keeps_bind
  · apply keeps_forget_idle
    intro r hr
    obtain ⟨hmem, hp⟩ := hrows r hr
    rw [Bool.and_eq_true] at hp
    exact ⟨hmem, discovered_idle hp.1⟩
  · apply keeps_oldest
    intro rows' hrows'
    refine keeps_last (keeps_forget_idle ?_)
    intro r hr
    obtain ⟨hmem, hp⟩ := hrows' r hr
    rw [Bool.and_eq_true] at hp
    exact ⟨hmem, discovered_idle hp.1⟩

theorem keeps_evictDirProbes (n : ℕ) : Keeps cid t (evictDirProbes n) := by
  apply keeps_oldest
  intro rows hrows
  apply keeps_forget_idle
  intro r hr
  obtain ⟨hmem, hp⟩ := hrows r hr
  rw [Bool.and_eq_true] at hp
  exact ⟨hmem, discovered_idle hp.1⟩

theorem keeps_dropProbes : Keeps cid t (dropProbes cfg) := by
  apply keeps_countRows
  intro probes
  apply keeps_oldest
  intro rows hrows
  split_ifs
  · apply keeps_pure
  · apply keeps_forget_idle
    intro r hr
    obtain ⟨hmem, hp⟩ := hrows r hr
    rw [Bool.and_eq_true] at hp
    exact ⟨hmem, discovered_idle hp.1⟩

theorem keeps_expireLocalSkips (now : ℚ) : Keeps cid t (expireLocalSkips cfg now) := by
  unfold expireLocalSkips
  split_ifs
  · apply keeps_pure
  · apply keeps_bind
    · refine keeps_update (fun _ => rfl) fun r hp _ hr => ?_
      simp only [Bool.and_eq_true, decide_eq_true_eq] at hp
      rw [hp.1.1.1] at hr
      cases hr
    · refine keeps_last (keeps_update (fun _ => rfl) fun r hp _ hr => ?_)
      simp only [Bool.and_eq_true, decide_eq_true_eq] at hp
      rw [hp.1.1.1] at hr
      cases hr

theorem keeps_dropStale {cutoff : ℚ} (h : ∀ r ∈ t.cids, r.processing = true → stale cutoff r = false) :
    Keeps cid t (dropStale cutoff) := by
  apply keeps_selectRows
  intro rows hrows
  apply keeps_forget_idle
  intro r hr
  obtain ⟨hmem, hp⟩ := hrows r hr
  refine ⟨hmem, fun hproc => ?_⟩
  rw [h r hmem (decide_eq_true hproc)] at hp
  cases hp

theorem keeps_dropBeyondCap (h : ∀ r ∈ ((beyondCap cfg).run t).1, r.processing = false) :
    Keeps cid t (dropBeyondCap cfg) := by
  apply keeps_forget_idle (t := t)
  intro r hr
  have hmem := List.mem_filter.mp ((List.mem_insertionSort _).mp (List.mem_of_mem_take hr))
  refine ⟨hmem.1, fun hproc => ?_⟩
  cases (h r hr).symm.trans (decide_eq_true hproc)

theorem forgetAll_subset (rows : List Queued) : ((forgetAll rows).run t).2.cids ⊆ t.cids := by
  induction rows generalizing t with
  | nil => exact List.Subset.refl _
  | cons r rows ih => exact fun q hq => (List.mem_filter.mp (ih hq)).1

theorem dropLonelyRaw_subset : ((dropLonelyRaw cfg).run t).2.cids ⊆ t.cids := by
  unfold dropLonelyRaw
  split_ifs
  · exact List.Subset.refl _
  · exact fun q hq => (List.mem_filter.mp hq).1

/-- What `prune` has done when it comes to the cap on all live rows. -/
def beforeCap (cfg : Config) (now : ℚ) : Op Unit := do
  let _ ← dropNamedNonPdf
  let _ ← dropLonelyRaw cfg
  let _ ← dropStale (now - cfg.maxAgeSeconds)
  let _ ← dropLanes cfg

/-- Pruning takes no row out that a worker is on: none of these is stale, and none is beyond the cap. -/
def SparesWorkers (cfg : Config) (now : ℚ) (t : Tables) : Prop :=
  (∀ r ∈ t.cids, r.processing = true → stale (now - cfg.maxAgeSeconds) r = false) ∧
    ∀ r ∈ ((beforeCap cfg now >>= fun _ => beyondCap cfg).run t).1, r.processing = false

theorem keeps_prune {now : ℚ} (now' : ℚ) (h : SparesWorkers cfg now t) : Keeps cid t (prune cfg now now') := by
  obtain ⟨hstale, hcap⟩ := h
  apply keeps_bind keeps_dropNamedNonPdf
  apply keeps_bind keeps_dropLonelyRaw
  apply keeps_bind (keeps_dropStale fun r hr => hstale r (forgetAll_subset _ (dropLonelyRaw_subset hr)))
  apply keeps_bind keeps_dropLanes
  apply keeps_bind (keeps_dropBeyondCap hcap)
  apply keeps_bind keeps_dropProbes
  apply keeps_bind (keeps_expireLocalSkips now')
  exact keeps_last keeps_dropLonelyRaw

theorem keeps_update_other {c : Text} {f : Queued → Queued} (hcid : ∀ r, (f r).cid = r.cid) (h : c ≠ cid) :
    Keeps cid t (update (fun r => r.cid = c) f) := by
  refine keeps_update hcid fun r hr hrc _ => ?_
  rw [decide_eq_true_eq] at hr
  exact absurd (hr.symm.trans hrc) h

theorem keeps_mark {c : Text} (status : Status) (columns : Columns) (h : c ≠ cid) :
    Keeps cid t (mark c status columns) := by
  refine keeps_last (keeps_update_other (fun _ => rfl) h)

theorem keeps_bumpAttempts (c : Text) (attempts : ℕ) : Keeps cid t (bumpAttempts c attempts) :=
  keeps_last (keeps_update (fun _ => rfl) fun _ _ _ hr => hr)

theorem keeps_noteFetch (c : Text) (retrieved : Option ℚ) (now : ℚ) : Keeps cid t (noteFetch c retrieved now) :=
  keeps_last (keeps_update (fun _ => rfl) fun _ _ _ hr => hr)

theorem keeps_rememberBinary {c : Text} (mime : Text) (now : ℚ) (h : c ≠ cid) : Keeps cid t (rememberBinary c mime now) :=
  keeps_bind (keeps_modify fun _ => rfl) (keeps_forgetCid h)

theorem keeps_dropDirectory {c : Text} (now : ℚ) (h : c ≠ cid) : Keeps cid t (dropDirectory c now) :=
  keeps_get (keeps_bind (keeps_modify fun _ => rfl) (keeps_forgetCid h))

theorem keeps_enqueueReview (upper : Text → Text) (mine : Bool) {c : Text} (now : ℚ)
    (h : ∀ r ∈ t.cids, r.cid = c → r.processing = false) : Keeps cid t (enqueueReview cfg upper mine c now) := by
  intro hf
  have hne : c ≠ cid := by
    rintro rfl
    obtain ⟨⟨r, hr, hrc⟩, hall⟩ := hf
    cases (h r hr hrc).symm.trans (decide_eq_true (hall r hr hrc))
  revert hf
  change Keeps cid t (enqueueReview cfg upper mine c now)
  unfold enqueueReview
  split_ifs
  · apply keeps_pure
  · refine keeps_bind (keeps_update_other (fun _ => rfl) hne) ?_
    dsimp only
    split_ifs
    · exact keeps_bind (keeps_insertRow hne) (keeps_pure _)
    · apply keeps_pure

theorem keeps_pdfCanAdmit {β : Type} {f : Bool → Op β} (h : ∀ b, Keeps cid t (f b)) : Keeps cid t (pdfCanAdmit cfg >>= f) :=
  h _

theorem InFlight.row_isSome (h : InFlight t cid) : (Table.row? Queued.cid cid t.cids).isSome = true := by
  obtain ⟨⟨r, hr, hrc⟩, -⟩ := h
  cases hq : Table.row? Queued.cid cid t.cids with
  | none => exact absurd hrc (Table.row?_eq_none.mp hq r hr)
  | some q => rfl

theorem keeps_enqueueChildren (chars : Unicode) (catalogued : Text → Bool) (skipCid : Text) (now : ℚ) (namedCount : ℕ)
    (picked : List (Text × Text)) :
    Keeps cid t (enqueueChildren cfg chars catalogued skipCid now namedCount picked) := by
  induction picked generalizing t namedCount with
  | nil => apply keeps_pure
  | cons p picked ih =>
    obtain ⟨filename, c⟩ := p
    rw [enqueueChildren]
    split_ifs with hcap
    · apply keeps_pure
    · apply keeps_get
      split_ifs with hskip hrow
      · apply ih
      · exact keeps_bind (keeps_update (fun _ => rfl) fun _ _ _ hr => hr) (ih _)
      · intro hf
        have hne : c ≠ cid := by
          rintro rfl
          exact hrow hf.row_isSome
        revert hf
        apply keeps_pdfCanAdmit
        intro room
        have hinsert (t : Tables) : Keeps cid t (do
            insertRow (asked cfg chars.upper c named (some filename) now)
            let n ← enqueueChildren cfg chars catalogued skipCid now (namedCount + 1) picked
            return n + 1) := keeps_bind (keeps_insertRow hne) (keeps_last (ih _))
        split_ifs with hroom
        · exact hinsert t
        · apply keeps_bind (keeps_evictDirProbes 1)
          dsimp only
          split_ifs
          · apply keeps_pure
          · apply hinsert

theorem keeps_enqueueDocChildren (chars : Unicode) (catalogued : Text → Bool) (links : List UnixFs.Link) (skipCid : Text)
    (now : ℚ) : Keeps cid t (enqueueDocChildren cfg chars catalogued links skipCid now) := by
  unfold enqueueDocChildren
  dsimp only
  split_ifs
  · apply keeps_pure
  · apply keeps_bind keeps_dropNamedNonPdf
    apply keeps_countRows
    intro n
    apply keeps_enqueueChildren

theorem keeps_notePeer (c peer : Text) : Keeps cid t (notePeer c peer) := keeps_modify fun _ => rfl

theorem keeps_peersOf {β : Type} {c : Text} {f : ℕ → Op β} (h : ∀ n, Keeps cid t (f n)) : Keeps cid t (peersOf c >>= f) :=
  h _

theorem keeps_admits {β : Type} {codec : Text} {peers : ℕ} {f : Bool → Op β} (h : ∀ b, Keeps cid t (f b)) :
    Keeps cid t (admits cfg codec peers >>= f) := by
  unfold admits
  split_ifs <;> exact h _

theorem keeps_recordPeer (s : Sighting) (codec : Text) (now : ℚ) : Keeps cid t (recordPeer cfg s codec now) := by
  apply keeps_bind (keeps_notePeer s.cid s.peer)
  apply keeps_peersOf
  intro peers hf
  have hcount : s.cid = cid → (((notePeer s.cid s.peer).run t).2.cids.countP fun r => r.cid = s.cid) ≠ 0 := by
    rintro rfl hzero
    obtain ⟨⟨r, hr, hrc⟩, -⟩ := hf
    exact List.countP_eq_zero.mp hzero r hr (decide_eq_true hrc)
  revert hf
  refine keeps_bind (keeps_update (fun _ => rfl) fun _ _ _ hr => hr) ?_
  split_ifs with hn
  · apply keeps_pure
  · apply keeps_admits
    intro room
    split_ifs
    · apply keeps_pure
    · exact keeps_bind (keeps_insertRow fun hc => hcount hc (not_not.mp hn)) (keeps_pure _)

theorem keeps_record (upper : Text → Text) (s : Sighting) (now : ℚ) : Keeps cid t (record cfg upper s now) := by
  unfold record
  dsimp only
  apply keeps_get
  split_ifs
  · apply keeps_pure
  · refine keeps_bind (keeps_modify fun _ => rfl) ?_
    cases t.evicted.lookup s.cid with
    | none => apply keeps_recordPeer
    | some ev =>
      apply keeps_peersOf
      intro peers
      split_ifs
      · exact keeps_bind (keeps_notePeer s.cid s.peer) (keeps_pure _)
      · refine keeps_bind (keeps_modify fun _ => rfl) ?_
        apply keeps_recordPeer

end Operations

section Taking

variable {cfg : Config} {now : ℚ} {t : Tables}

def Finds (t : Tables) (m : Op (Option Queued)) : Prop :=
  (m.run t).2 = t ∧ ∀ r, (m.run t).1 = some r → r ∈ t.cids ∧ r.discovered = true

theorem finds_pickOne {p : Queued → Bool} {minPeers : ℤ} : Finds t (pickOne cfg p minPeers now) := by
  refine ⟨rfl, fun r h => ?_⟩
  have hmem := (List.mem_insertionSort _).mp (List.mem_of_mem_head? h)
  obtain ⟨hr, hp⟩ := List.mem_filter.mp hmem
  simp only [ready, Bool.and_eq_true] at hp
  exact ⟨hr, hp.1.1.1.1.1.1⟩

theorem finds_none : Finds t (pure none) := by
  refine ⟨rfl, fun r h => ?_⟩
  cases h

theorem Finds.run {m : Op (Option Queued)} (h : Finds t m) :
    ∃ o, m.run t = (o, t) ∧ ∀ r, o = some r → r ∈ t.cids ∧ r.discovered = true := ⟨(m.run t).1, Prod.ext rfl h.1, h.2⟩

theorem finds_nextPdf : Finds t (nextPdf cfg now) := by
  obtain ⟨o, ho, hr⟩ := Finds.run (t := t) (finds_pickOne : Finds t (pickOne cfg Queued.namedLane cfg.minPeerCount now))
  unfold Finds nextPdf
  rw [StateT.run_bind, ho]
  cases o with
  | some r => exact ⟨rfl, hr⟩
  | none =>
    have hprobe : Finds t (if (t.cids.countP fun r => r.processing && r.probe) < cfg.dirProbes then
        pickOne cfg Queued.probe cfg.minPeerCount now else pure none) := by
      split_ifs
      · apply finds_pickOne
      · apply finds_none
    exact hprobe

theorem choose_mem {pdfBusy htmlBusy : ℕ} {pdf html : Option Queued} {p : Queued × Lane}
    (h : choose cfg pdfBusy htmlBusy pdf html = some p) : pdf = some p.1 ∨ html = some p.1 := by
  cases pdf with
  | none =>
    obtain ⟨r, hr, rfl⟩ := Option.map_eq_some_iff.mp h
    exact Or.inr hr
  | some q =>
    cases html with
    | none =>
      cases h
      exact Or.inl rfl
    | some r =>
      unfold choose at h
      split_ifs at h <;> cases h
      · exact Or.inl rfl
      · exact Or.inr rfl
      · exact Or.inl rfl

theorem nextRow_spec (a b : ℕ) :
    ((nextRow cfg now a b).run t).2 = t ∧
      ∀ r lane, ((nextRow cfg now a b).run t).1 = some (r, lane) → r ∈ t.cids ∧ r.discovered = true := by
  obtain ⟨o, ho, hr⟩ := Finds.run (t := t)
    (finds_pickOne : Finds t (pickOne cfg (fun r => r.source = report) cfg.minPeerCount now))
  unfold nextRow
  rw [StateT.run_bind, ho]
  cases o with
  | some r =>
    refine ⟨rfl, fun q lane hq => ?_⟩
    cases hq
    exact hr _ rfl
  | none =>
    obtain ⟨pdf, hpdf, hp⟩ := Finds.run (t := t) (finds_nextPdf : Finds t (nextPdf cfg now))
    obtain ⟨html, hhtml, hh⟩ := Finds.run (t := t) (finds_pickOne : Finds t (pickOne cfg Queued.htmlLane cfg.prefer now))
    have hrest (x y : ℕ) : (do
        let pdf ← nextPdf cfg now
        let html ← pickOne cfg Queued.htmlLane cfg.prefer now
        return (choose cfg x y pdf html).map fun p => (p.1, some p.2) : Op (Option (Queued × Option Lane))).run t =
          ((choose cfg x y pdf html).map fun p => (p.1, some p.2), t) := by
      rw [StateT.run_bind, hpdf]
      exact congrArg (fun q : Option Queued × Tables => ((choose cfg x y pdf q.1).map fun p => (p.1, some p.2), q.2)) hhtml
    refine ⟨congrArg Prod.snd (hrest _ _), fun r lane hq => ?_⟩
    have hq' := (congrArg Prod.fst (hrest _ _)).symm.trans hq
    obtain ⟨p, hchoose, hpair⟩ := Option.map_eq_some_iff.mp hq'
    cases hpair
    obtain h | h := choose_mem hchoose
    · exact hp _ h
    · exact hh _ h

theorem keeps_process {cid : Text} (c : Text) : Keeps cid t (process c) :=
  keeps_last (keeps_update (fun _ => rfl) fun _ _ _ _ => rfl)

theorem inFlight_process {r : Queued} (h : r ∈ t.cids) : InFlight ((process r.cid).run t).2 r.cid := by
  have hrow (q : Queued) : (if decide (q.cid = r.cid) = true then { q with status := .processing } else q).cid = q.cid := by
    split_ifs <;> rfl
  refine ⟨⟨_, List.mem_map_of_mem h, hrow r⟩, fun q hq hqc => ?_⟩
  obtain ⟨q, -, rfl⟩ := List.mem_map.mp hq
  rw [hrow q] at hqc
  rw [if_pos (decide_eq_true hqc)]

theorem takeBatch_one :
    ((takeBatch cfg now 1).run t = ([], t)) ∨
      ∃ r ∈ t.cids, r.discovered = true ∧
        (takeBatch cfg now 1).run t = ([⟨r.cid, some r.codec, r.attempts⟩], ((process r.cid).run t).2) := by
  obtain ⟨hsame, hpick⟩ := nextRow_spec (t := t) 0 0
  cases hn : (nextRow cfg now 0 0).run t with
  | mk o t' =>
    rw [hn] at hsame hpick
    dsimp only at hsame hpick
    subst hsame
    unfold takeBatch takeRounds
    rw [StateT.run_bind, StateT.run_bind, hn]
    cases o with
    | none => exact Or.inl rfl
    | some p =>
      obtain ⟨r, lane⟩ := p
      obtain ⟨hr, hd⟩ := hpick r lane rfl
      refine Or.inr ⟨r, hr, hd, ?_⟩
      cases lane with
      | none => rfl
      | some lane => cases lane <;> rfl

end Taking

end ObserverClub.Work
