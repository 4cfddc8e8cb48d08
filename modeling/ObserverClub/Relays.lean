import ObserverClub.CatchUp

namespace ObserverClub.Store

open Library Json Python Sqlite Catalog
open Library.Table (Stroke drawn)

section Content

variable (o : Observer)

/-- A row of `messages` taken for the message that its body holds. -/
def entryOf (m : Message) : Entry :=
  ⟨(⟨m.receivedAt, m.receivedAt, m.receivedAt, .ok ()⟩, (loads o.py m.body).toOption.getD .null), m⟩

/-- Each row holds a message whose hash, kind, CID and publisher it names, and the other tables are what these
messages make of them one after another. -/
structure FromLog (t : Tables) : Prop where
  verified : ∀ m ∈ t.messages, ∃ v a, loads o.py m.body = .ok v ∧ Acceptable o empty v a ∧
    bindText o a.cid = .ok (some m.cid) ∧ bindText o a.publisher = .ok (some m.publisher) ∧
    m.kind = a.kind ∧ m.payloadHash = a.payloadHash ∧ m.body = a.body
  hashes : (t.messages.map Message.payloadHash).Nodup
  classifies : t.classifies = t.messages.filterMap fun m => (entryOf o m).classifyRow o
  docs : ∀ cid, Matches cid t
  skips : ∀ s ∈ t.skips,
    Table.row? Skip.cid s.cid (drawn Skip.cid [] (t.messages.filterMap fun m => (entryOf o m).skipStroke o)) = some s
  reports : t.reports = drawn Report.key [] (t.messages.filterMap fun m => (entryOf o m).reportStroke o)
  aliases : t.aliases = drawn Alias.publisher [] (t.messages.filterMap fun m => (entryOf o m).aliasStroke o)

variable {o} {log : List Entry} {t : Tables} {x : Entry}

theorem eventIn_congr {w w' : Surroundings} (h : w'.receivedAt = w.receivedAt) (v : Value) :
    eventIn o (w', v) = eventIn o (w, v) := by
  have hdeed (kind : Text) : deedOf o w' kind v = deedOf o w kind v := by
    unfold deedOf
    rw [h]
  have hread : read o empty w' v = read o empty w v := by
    unfold read
    simp only [hdeed]
  cases he : eventIn o (w, v) with
  | some e =>
    rw [eventIn_eq_some]
    exact hread.trans (eventIn_eq_some.mp he)
  | none =>
    cases he' : eventIn o (w', v) with
    | none => rfl
    | some e =>
      have hevent := eventIn_eq_some.mp he'
      rw [hread] at hevent
      rw [eventIn_eq_some.mpr hevent] at he
      cases he

theorem Entry.Genuine.loads_body (h : x.Genuine o) : loads o.py x.row.body = .ok x.sent.2 := by
  have htaking := taking_body h x.sent.1
  unfold taking at htaking
  cases hl : loads o.py x.row.body with
  | error e =>
    rw [hl] at htaking
    cases htaking
  | ok v =>
    rw [hl] at htaking
    cases htaking
    rfl

theorem Entry.Genuine.event_entry (h : x.Genuine o) : (entryOf o x.row).event o = x.event o := by
  obtain ⟨a, cid, publisher, -, -, hrow⟩ := h.recorded
  have htime : x.row.receivedAt = x.sent.1.receivedAt := congrArg Message.receivedAt hrow
  unfold Entry.event entryOf
  rw [h.loads_body]
  exact eventIn_congr htime x.sent.2

theorem Event.rows_congr (e : Event) {w w' : Surroundings} (h : w'.receivedAt = w.receivedAt) :
    e.classifyRow w' = e.classifyRow w ∧ e.skipStroke w' = e.skipStroke w ∧ e.reportStroke w' = e.reportStroke w ∧
      e.aliasStroke w' = e.aliasStroke w := by
  unfold Event.classifyRow Event.skipStroke Event.reportStroke Event.aliasStroke Event.classified
  rw [h]
  exact ⟨rfl, rfl, rfl, rfl⟩

theorem Entry.Genuine.rows_entry (h : x.Genuine o) : (entryOf o x.row).classifyRow o = x.classifyRow o ∧
    (entryOf o x.row).skipStroke o = x.skipStroke o ∧ (entryOf o x.row).reportStroke o = x.reportStroke o ∧
      (entryOf o x.row).aliasStroke o = x.aliasStroke o := by
  obtain ⟨a, cid, publisher, -, -, hrow⟩ := h.recorded
  have htime : (entryOf o x.row).sent.1.receivedAt = x.sent.1.receivedAt := congrArg Message.receivedAt hrow
  unfold Entry.classifyRow Entry.skipStroke Entry.reportStroke Entry.aliasStroke
  rw [h.event_entry]
  cases x.event o with
  | none => exact ⟨rfl, rfl, rfl, rfl⟩
  | some e => exact e.rows_congr htime

theorem Told.filterMap_entry {β : Type} {f : Entry → Option β} (h : Told o log t)
    (hf : ∀ x ∈ log, f (entryOf o x.row) = f x) : (t.messages.filterMap fun m => f (entryOf o m)) = log.filterMap f := by
  rw [h.messages, List.filterMap_map]
  exact List.filterMap_congr hf

theorem Told.fromLog (h : Told o log t) : FromLog o t where
  verified := by
    rw [h.messages]
    intro m hm
    obtain ⟨x, hx, rfl⟩ := List.mem_map.mp hm
    have hgenuine := h.genuine x hx
    obtain ⟨a, cid, publisher, ha, hr, hrow⟩ := hgenuine.recorded
    refine ⟨x.sent.2, a, hgenuine.loads_body, ha, ?_⟩
    rw [hrow]
    exact ⟨hr.cid, hr.publisher, rfl, rfl, rfl⟩
  hashes := by
    rw [h.messages, List.map_map]
    exact h.hashes
  classifies := by
    rw [h.filterMap_entry (f := Entry.classifyRow o) fun x hx => (h.genuine x hx).rows_entry.1]
    exact h.classifies
  docs := h.docs
  skips := by
    rw [h.filterMap_entry (f := Entry.skipStroke o) fun x hx => (h.genuine x hx).rows_entry.2.1]
    exact h.skips
  reports := by
    rw [h.filterMap_entry (f := Entry.reportStroke o) fun x hx => (h.genuine x hx).rows_entry.2.2.1]
    exact h.reports
  aliases := by
    rw [h.filterMap_entry (f := Entry.aliasStroke o) fun x hx => (h.genuine x hx).rows_entry.2.2.2]
    exact h.aliases

/-- Whatever messages come in, whoever is shut out or let in again, and whatever expires: the tables follow from the
log, and each row of it proves itself. -/
theorem fromLog_run (o : Observer) (hs : Storable o) {calls : List Call} (hheard : ∀ c ∈ calls, Heard o c)
    (hsorted : (calls.filterMap Call.received).Pairwise (· < ·)) : FromLog o (run (step o) fresh calls).view := by
  obtain ⟨log, h, -⟩ := told_from_fresh hs hheard hsorted
  exact h.fromLog

theorem fromLog_run_sample : FromLog sampleObserver (run (step sampleObserver) fresh sampleCalls).view :=
  fromLog_run sampleObserver sampleObserver_storable sampleCalls_heard (by decide +kernel)

end Content

section Relaying

variable {o : Observer} {log log' : List Entry} {t u : Tables} {m : Message}

theorem not_snapshotSkip (h : isSnapshotDoc t m = true) : isSnapshotSkip t m = false := by
  cases hskip : isSnapshotSkip t m with
  | false => rfl
  | true =>
    unfold isSnapshotDoc at h
    rw [isSnapshotSkip_kind hskip] at h
    simp only [show txt "skip" ≠ txt "classify" from by decide, show txt "skip" ≠ txt "alias" from by decide,
      show txt "skip" ≠ txt "report" from by decide, decide_false, Bool.false_and, Bool.or_false, Bool.and_false,
      Bool.false_eq_true] at h

theorem snapshotDoc_stays (h : Told o log t) (hagrees : Agrees t u) (hd : isSnapshotDoc t m = true) :
    isSnapshotDoc u m = true := by
  unfold isSnapshotDoc at hd ⊢
  simp only [Bool.and_eq_true, Bool.or_eq_true, decide_eq_true_eq] at hd ⊢
  obtain ⟨hsigned, (hkind | ⟨hkind, hnamed⟩) | hkind⟩ := hd
  · exact ⟨hsigned, Or.inl (Or.inl hkind)⟩
  · obtain ⟨a, ha, hhash⟩ := List.any_eq_true.mp hnamed
    have hrow : Table.row? Alias.publisher a.publisher t.aliases = some a := by
      rw [h.aliases] at ha ⊢
      exact (keyed_drawn _).row?_of_mem ha
    have hsame := hagrees.aliases a.publisher
    rw [hrow] at hsame
    obtain ⟨a', ha', huntimed⟩ := Option.map_eq_some_iff.mp hsame
    refine ⟨hsigned, Or.inl (Or.inr ⟨hkind, List.any_eq_true.mpr ⟨a', (Table.row?_some ha').1, ?_⟩⟩)⟩
    rw [decide_eq_true_eq] at hhash ⊢
    rw [← hhash]
    exact (Alias.mk.inj huntimed).2.2.1
  · exact ⟨hsigned, Or.inr hkind⟩

theorem snapshotSkip_stays (h : Told o log t) (hagrees : Agrees t u) (hs : isSnapshotSkip t m = true) :
    isSnapshotSkip u m = true := by
  unfold isSnapshotSkip at hs ⊢
  rw [Bool.and_eq_true] at hs ⊢
  obtain ⟨hskip, hjudged⟩ := hs
  refine ⟨hskip, ?_⟩
  obtain ⟨s, hs, hverdict⟩ := List.any_eq_true.mp hjudged
  rw [Bool.and_eq_true, decide_eq_true_eq] at hverdict
  obtain ⟨hcid, hverdict⟩ := hverdict
  have hsame := hagrees.verdicts m.cid
  unfold verdictOn at hsame
  rw [← hcid, h.keyed.row?_of_mem hs, Option.filter_some, if_pos (show isVerdict s = true from hverdict)] at hsame
  obtain ⟨s', hs', huntimed⟩ := Option.map_eq_some_iff.mp hsame
  obtain ⟨hrow, hverdict'⟩ := Option.filter_eq_some_iff.mp hs'
  obtain ⟨hmem, hcid'⟩ := Table.row?_some hrow
  refine List.any_eq_true.mpr ⟨s', hmem, ?_⟩
  rw [Bool.and_eq_true, decide_eq_true_eq]
  exact ⟨hcid'.trans hcid, hverdict'⟩

theorem forall₂_split {α β : Type} {R : α → β → Prop} {xs ys : List α} {zs : List β} (h : List.Forall₂ R (xs ++ ys) zs) :
    ∃ as bs, zs = as ++ bs ∧ List.Forall₂ R xs as ∧ List.Forall₂ R ys bs := by
  induction xs generalizing zs with
  | nil => exact ⟨[], zs, rfl, .nil, h⟩
  | cons x xs ih =>
    cases h with
    | cons hx hrest =>
      obtain ⟨as, bs, rfl, has, hbs⟩ := ih hrest
      exact ⟨_ :: as, bs, rfl, .cons hx has, hbs⟩

theorem forall₂_mem {α β : Type} {R : α → β → Prop} {xs : List α} {ys : List β} (h : List.Forall₂ R xs ys) :
    ∀ y ∈ ys, ∃ x ∈ xs, R x y := by
  induction h with
  | nil => exact fun y hy => absurd hy List.not_mem_nil
  | cons hxy _ ih =>
    rw [List.forall_mem_cons]
    refine ⟨⟨_, List.mem_cons_self, hxy⟩, fun y hy => ?_⟩
    obtain ⟨x, hx, hR⟩ := ih y hy
    exact ⟨x, List.mem_cons_of_mem _ hx, hR⟩

theorem exportedOf_again (h : Told o log t) (hagrees : Agrees t u)
    (hagain : List.Forall₂ (fun x y => ∃ w, y = Entry.again x w) (exportedOf t log) log') : exportedOf u log' = log' := by
  obtain ⟨docs, skips, rfl, hdocs, hskips⟩ := forall₂_split hagain
  have hdoc : ∀ y ∈ docs, isSnapshotDoc u y.row = true := by
    intro y hy
    obtain ⟨x, hx, w, rfl⟩ := forall₂_mem hdocs y hy
    exact snapshotDoc_stays h hagrees (List.mem_filter.mp hx).2
  have hskip : ∀ y ∈ skips, isSnapshotSkip u y.row = true := by
    intro y hy
    obtain ⟨x, hx, w, rfl⟩ := forall₂_mem hskips y hy
    exact snapshotSkip_stays h hagrees (List.mem_filter.mp hx).2
  have hnotdoc : ∀ y ∈ skips, ¬isSnapshotDoc u y.row = true := by
    intro y hy hd
    have hkept := hskip y hy
    rw [not_snapshotSkip hd] at hkept
    cases hkept
  have hnotskip : ∀ y ∈ docs, ¬isSnapshotSkip u y.row = true := by
    intro y hy
    rw [not_snapshotSkip (hdoc y hy)]
    exact Bool.false_ne_true
  rw [exportedOf, List.filter_append, List.filter_append, List.filter_eq_self.mpr hdoc, List.filter_eq_nil_iff.mpr hnotdoc,
    List.filter_eq_nil_iff.mpr hnotskip, List.filter_eq_self.mpr hskip, List.append_nil, List.nil_append]

theorem bodies_again (h : List.Forall₂ (fun x y => ∃ w, y = Entry.again x w) log log') :
    (log'.map fun x => x.row.body) = log.map fun x => x.row.body := by
  induction h with
  | nil => rfl
  | cons hxy _ ih =>
    obtain ⟨w, rfl⟩ := hxy
    rw [List.map_cons, List.map_cons, ih]
    rfl

/-- A catalog that a snapshot has come to, at first hand or through others that took it in before, each of them with
room for all of it and at times of its own. -/
inductive Relayed (o : Observer) (t : Tables) : Tables → Prop
  | origin : Relayed o t t
  | hop {u : Tables} {limit : ℤ} {served : List (Surroundings × Text)} : Relayed o t u →
      (u.messages.length : ℤ) ≤ limit → (served.map fun p => p.1.receivedAt).Pairwise (· < ·) →
      served.map Prod.snd = snapshotLines u limit → Relayed o t (caughtUp o served).view

theorem agrees_refl (t : Tables) : Agrees t t where
  classifies := List.forall₂_same.mpr fun _ _ => ⟨rfl, rfl, rfl, rfl, rfl, Or.inl rfl⟩
  docs cid := by
    cases Table.row? Doc.cid cid t.docs with
    | none => exact .none
    | some d => exact .some ⟨rfl, rfl, rfl, rfl, rfl⟩
  reports := rfl
  aliases _ := rfl
  verdicts _ := rfl

theorem Relayed.told (h : Told o log t) (htimes : Timely log) (hrelayed : Relayed o t u) : Agrees t u ∧
    ∃ log', Told o log' u ∧ Timely log' ∧
      ((exportedOf u log').map fun x => x.row.body) = (exportedOf t log).map fun x => x.row.body := by
  induction hrelayed with
  | origin => exact ⟨agrees_refl t, log, h, htimes, rfl⟩
  | hop _ hlimit hsorted hserved ih =>
    obtain ⟨-, log', h', htimes', hbodies⟩ := ih
    rw [h'.exported htimes' hlimit, hbodies, ← h.exported htimes le_rfl] at hserved
    obtain ⟨log'', hagain, hreceived, hretold, hagrees⟩ := agrees_served h htimes le_rfl hserved
    have htimes'' : Timely log'' := by
      rw [← hreceived, List.pairwise_map] at hsorted
      exact hsorted
    refine ⟨hagrees, log'', hretold.toTold, htimes'', ?_⟩
    rw [exportedOf_again h hagrees hagain, bodies_again hagain]

/-- However many nodes pass a snapshot on, each of them comes to the catalog of the first and serves the same lines. -/
theorem relayed_agrees (o : Observer) {calls : List Call} (hs : Storable o) (hheard : ∀ c ∈ calls, Heard o c)
    (hsorted : (calls.filterMap Call.received).Pairwise (· < ·)) {u : Tables}
    (hrelayed : Relayed o (run (step o) fresh calls).view u) : Agrees (run (step o) fresh calls).view u ∧
      ∀ limit limit' : ℤ, ((run (step o) fresh calls).view.messages.length : ℤ) ≤ limit → (u.messages.length : ℤ) ≤ limit' →
        snapshotLines u limit' = snapshotLines (run (step o) fresh calls).view limit := by
  obtain ⟨log, h, htimes⟩ := told_from_fresh hs hheard hsorted
  obtain ⟨hagrees, log', h', htimes', hbodies⟩ := hrelayed.told h htimes
  refine ⟨hagrees, fun limit limit' hlimit hlimit' => ?_⟩
  rw [h.exported htimes hlimit, h'.exported htimes' hlimit', hbodies]

def relayedLines (t : Tables) : List (Surroundings × Text) :=
  (snapshotLines t 2).zipIdx.map fun p => (⟨p.2, p.2, p.2, .ok ()⟩, p.1)

theorem relayed_agrees_sample :
    Agrees (run (step sampleObserver) fresh sampleCalls).view
      (caughtUp sampleObserver (relayedLines (run (step sampleObserver) fresh sampleCalls).view)).view :=
  (relayed_agrees sampleObserver sampleObserver_storable sampleCalls_heard (by decide +kernel)
    (.hop .origin (by decide +kernel : _ ≤ (2 : ℤ)) (by decide +kernel) (by
      rw [relayedLines, List.map_map]
      exact List.zipIdx_map_fst 0 _))).1

end Relaying

end ObserverClub.Store
