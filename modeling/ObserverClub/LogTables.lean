import ObserverClub.Library.Journal
import ObserverClub.Rebuilds

namespace ObserverClub.Store

open Library Json Python Sqlite Catalog
open Library.Table (Stroke drawn)

section Strokes

namespace Event

variable (e : Event) (w : Surroundings)

def classifyRow : Option Classify :=
  match e.deed with
  | .classify d c => some (e.classified d c w)
  | _ => none

def skipStroke : Option (Stroke Skip Text) :=
  match e.deed with
  | .skip mimeType reason => some (.put ⟨e.cid, e.publisher, mimeType, reason, w.receivedAt⟩)
  | _ => none

def reportStroke : Option (Stroke Report (Text × Text)) :=
  match e.deed with
  | .report reason =>
    some (if reason = txt "clear" then .delete (e.cid, e.publisher) else .put ⟨e.cid, e.publisher, reason, w.receivedAt⟩)
  | _ => none

def aliasStroke : Option (Stroke Alias Text) :=
  match e.deed with
  | .rename name =>
    some (if name = [] then .delete e.publisher else .put ⟨e.publisher, name.take 32, e.payloadHash, w.receivedAt⟩)
  | _ => none

variable {e w}

theorem classifyRows_eq : e.classifyRows w = (e.classifyRow w).toList := by
  unfold classifyRows classifyRow
  cases e.deed <;> rfl

theorem inSkips_eq (rows : List Skip) : e.inSkips w rows = (e.skipStroke w).elim rows (Stroke.on Skip.cid rows) := by
  unfold inSkips skipStroke
  cases e.deed <;> rfl

theorem inReports_eq (rows : List Report) :
    e.inReports w rows = (e.reportStroke w).elim rows (Stroke.on Report.key rows) := by
  unfold inReports reportStroke
  cases e.deed with
  | report reason =>
    dsimp only
    split_ifs <;> rfl
  | _ => rfl

theorem inAliases_eq (rows : List Alias) :
    e.inAliases w rows = (e.aliasStroke w).elim rows (Stroke.on Alias.publisher rows) := by
  unfold inAliases aliasStroke
  cases e.deed with
  | rename name =>
    dsimp only
    split_ifs <;> rfl
  | _ => rfl

theorem classifyRow_source {c : Classify} (h : e.classifyRow w = some c) : c.payloadHash = e.payloadHash ∧
    c.cid = e.cid ∧ c.publisher = e.publisher ∧ c.receivedAt = w.receivedAt ∧ e.deed.kind = txt "classify" := by
  unfold classifyRow at h
  cases hd : e.deed with
  | classify d c =>
    rw [hd] at h
    obtain rfl := Option.some.inj h
    exact ⟨rfl, rfl, rfl, rfl, rfl⟩
  | _ =>
    rw [hd] at h
    cases h

theorem skipStroke_source {s : Stroke Skip Text} (h : e.skipStroke w = some s) : s.target Skip.cid = e.cid ∧
    (∃ r, s = .put r ∧ r.publisher = e.publisher) ∧ e.deed.kind = txt "skip" := by
  unfold skipStroke at h
  cases hd : e.deed with
  | skip mimeType reason =>
    rw [hd] at h
    obtain rfl := Option.some.inj h
    exact ⟨rfl, ⟨_, rfl, rfl⟩, rfl⟩
  | _ =>
    rw [hd] at h
    cases h

theorem reportStroke_source {s : Stroke Report (Text × Text)} (h : e.reportStroke w = some s) :
    s.target Report.key = (e.cid, e.publisher) ∧ e.deed.kind = txt "report" := by
  unfold reportStroke at h
  cases hd : e.deed with
  | report reason =>
    rw [hd] at h
    obtain rfl := Option.some.inj h
    split_ifs
    · exact ⟨rfl, rfl⟩
    · exact ⟨rfl, rfl⟩
  | _ =>
    rw [hd] at h
    cases h

theorem aliasStroke_source {s : Stroke Alias Text} (h : e.aliasStroke w = some s) :
    s.target Alias.publisher = e.publisher ∧ (∀ r, s = .put r → r.payloadHash = e.payloadHash) ∧
      e.deed.kind = txt "alias" := by
  unfold aliasStroke at h
  cases hd : e.deed with
  | rename name =>
    rw [hd] at h
    obtain rfl := Option.some.inj h
    split_ifs
    · exact ⟨rfl, nofun, rfl⟩
    · refine ⟨rfl, ?_, rfl⟩
      rintro r ⟨⟩
      rfl
  | _ =>
    rw [hd] at h
    cases h

end Event

end Strokes

section Recording

variable {o : Observer} {t : Tables} {obj : Value} {w : Surroundings} {a : Accepted} {s : Conn}

theorem Acceptable.unlisted (h : Acceptable o t obj a) : Acceptable o empty obj a := by
  refine { h with listed := ?_ }
  have hlisted := h.listed
  unfold isBlacklisted at hlisted ⊢
  obtain ⟨p, hp, -⟩ := bind_eq_ok.mp hlisted
  rw [hp]
  cases p <;> rfl

theorem Acceptable.unique {a' : Accepted} (h : Acceptable o t obj a) (h' : Acceptable o t obj a') : a' = a := by
  have hsome := ((accept_eq_some o).mpr h').symm.trans ((accept_eq_some o).mpr h)
  exact Option.some.inj (Except.ok.inj hsome)

theorem read_unlisted {e : Event} (ha : Acceptable o t obj a) :
    read o t w obj = .ok (some e) ↔ read o empty w obj = .ok (some e) := by
  rw [read_eq_some, read_eq_some]
  constructor
  · rintro ⟨m, hm, hrest⟩
    exact ⟨m, hm.unlisted, hrest⟩
  · rintro ⟨m, hm, hrest⟩
    obtain rfl := ha.unlisted.unique hm
    exact ⟨m, ha, hrest⟩

def eventIn (o : Observer) (x : Surroundings × Value) : Option Event := (eventOf o empty x).map Prod.fst

theorem eventIn_eq_some {x : Surroundings × Value} {e : Event} :
    eventIn o x = some e ↔ read o empty x.1 x.2 = .ok (some e) := by
  unfold eventIn
  rw [Option.map_eq_some_iff]
  constructor
  · rintro ⟨q, hq, rfl⟩
    exact ((eventOf_eq_some o).mp hq).1
  · intro h
    exact ⟨(e, x.1), (eventOf_eq_some o).mpr ⟨h, rfl⟩, rfl⟩

theorem event_of_recordable {e : Event} {cid publisher : Text} (ha : Acceptable o t obj a)
    (hr : Recordable o t a cid publisher) (he : eventIn o (w, obj) = some e) :
    e.message w = a.row cid publisher w.receivedAt ∧ e.Proper := by
  have hread := eventIn_eq_some.mp he
  obtain ⟨m, hm, hc, hp, -, -, hk, hh, hb⟩ := (read_eq_some o).mp hread
  obtain rfl := ha.unlisted.unique hm
  obtain rfl := Option.some.inj (Except.ok.inj (hr.cid.symm.trans hc))
  obtain rfl := Option.some.inj (Except.ok.inj (hr.publisher.symm.trans hp))
  refine ⟨?_, proper_of_read hread⟩
  rw [Event.message, Accepted.row, hk, hh, hb]

theorem ingest_recordable {cid publisher : Text} (ha : Acceptable o s.view obj a)
    (hr : Recordable o s.view a cid publisher) : (step o s (.ingest w obj)).view =
      (eventIn o (w, obj)).elim id (fun e => e.effect w) (withMessage (a.row cid publisher w.receivedAt) s.view) := by
  have hstep : (step o s (.ingest w obj)).view = (ingestMessage o w obj s).2.view := congrArg Session.view (discard_snd _ _)
  rw [hstep]
  cases he : eventIn o (w, obj) with
  | some e =>
    obtain ⟨hrow, -⟩ := event_of_recordable ha hr he
    have hread := (read_unlisted ha).mpr (eventIn_eq_some.mp he)
    have hnew : e.payloadHash ∉ s.view.messages.map Message.payloadHash := by
      intro hmem
      obtain ⟨r, hrm, hh⟩ := List.mem_map.mp hmem
      exact hr.new r hrm (hh.trans (congrArg Message.payloadHash hrow))
    rw [ingestMessage_of_read o hread, Event.take, if_neg hnew, hrow]
    rfl
  | none =>
    have hunread : ∀ e, read o s.view w obj ≠ .ok (some e) := by
      intro e hread
      rw [eventIn_eq_some.mpr ((read_unlisted ha).mp hread)] at he
      cases he
    rw [ingestMessage, Txn.read_bind, Txn.lift_bind, (accept_eq_some o).mpr ha]
    dsimp only
    obtain ⟨cid', publisher', hr', hi⟩ | ⟨hnone, -⟩ := trying_insertMessage o a w.receivedAt s
    · obtain rfl := Option.some.inj (Except.ok.inj (hr.cid.symm.trans hr'.cid))
      obtain rfl := Option.some.inj (Except.ok.inj (hr.publisher.symm.trans hr'.publisher))
      simp only [Txn.bind_ok hi]
      rw [Txn.bind_run]
      split
      next u hu =>
        obtain ⟨t, ht, -⟩ := (effect_eq_ok o ha.known).mp hu
        obtain ⟨deed, hd, -⟩ := (effect_iff_deedOf o ha.known).mp ht
        apply absurd _ (hunread ⟨a.kind, a.payloadHash, cid, publisher, a.body, deed⟩)
        exact (read_eq_some o).mpr ⟨a, ha, hr.cid, hr.publisher, hr.body, hd, rfl, rfl, rfl⟩
      next e u hu =>
        obtain rfl := effect_unspoilt o w a cid publisher obj _ _ _ _ hu
        rfl
    · exact absurd hr (hnone cid publisher)

theorem ingest_unrecordable (h : ∀ a cid publisher, Acceptable o s.view obj a → ¬Recordable o s.view a cid publisher) :
    (step o s (.ingest w obj)).view = s.view := by
  have hstep : (step o s (.ingest w obj)).view = (ingestMessage o w obj s).2.view := congrArg Session.view (discard_snd _ _)
  rw [hstep]
  have hcases := ingestMessage_cases o w obj s
  generalize ingestMessage o w obj s = out at hcases ⊢
  cases hcases with
  | refused _ _ => rfl
  | rejected _ _ _ => rfl
  | broken accepted recorded _ => exact absurd recorded (h _ _ _ accepted)
  | done accepted recorded _ => exact absurd recorded (h _ _ _ accepted)

end Recording

section Logs

variable (o : Observer)

/-- A message and the row of `messages` that it was recorded in. -/
structure Entry where
  sent : Surroundings × Value
  row : Message

namespace Entry

structure Genuine (x : Entry) : Prop where
  parsed : ∃ data, loadsBytes o.py data = .ok x.sent.2
  signed : (x.sent.2.get (txt "sig")).isSome = true
  recorded : ∃ a cid publisher, Acceptable o empty x.sent.2 a ∧ Recordable o empty a cid publisher ∧
    x.row = a.row cid publisher x.sent.1.receivedAt

def event (x : Entry) : Option Event := eventIn o x.sent

def classifyRow (x : Entry) : Option Classify := (x.event o).bind fun e => e.classifyRow x.sent.1

def skipStroke (x : Entry) : Option (Stroke Skip Text) := (x.event o).bind fun e => e.skipStroke x.sent.1

def reportStroke (x : Entry) : Option (Stroke Report (Text × Text)) := (x.event o).bind fun e => e.reportStroke x.sent.1

def aliasStroke (x : Entry) : Option (Stroke Alias Text) := (x.event o).bind fun e => e.aliasStroke x.sent.1

variable {o} {x : Entry}

theorem Genuine.event_row (h : x.Genuine o) {e : Event} (he : x.event o = some e) :
    e.message x.sent.1 = x.row ∧ e.Proper := by
  obtain ⟨a, cid, publisher, ha, hr, hrow⟩ := h.recorded
  rw [hrow]
  exact event_of_recordable ha hr he

theorem Genuine.logged (h : x.Genuine o) : Logged o x.row := by
  obtain ⟨data, hdata⟩ := h.parsed
  obtain ⟨a, cid, publisher, ha, -, hrow⟩ := h.recorded
  rw [hrow]
  exact logged_row ha ⟨loads_distinct hdata, h.signed⟩ cid publisher _

theorem Genuine.classifyRow_source (h : x.Genuine o) {c : Classify} (hc : x.classifyRow o = some c) :
    c.payloadHash = x.row.payloadHash ∧ c.cid = x.row.cid ∧ c.publisher = x.row.publisher ∧
      c.receivedAt = x.row.receivedAt ∧ x.row.kind = txt "classify" ∧ c.cid ≠ [] := by
  obtain ⟨e, he, hrow⟩ := Option.bind_eq_some_iff.mp hc
  obtain ⟨hmessage, hproper⟩ := h.event_row he
  obtain ⟨hhash, hcid, hpublisher, hreceived, hkind⟩ := Event.classifyRow_source hrow
  have hk : e.kind = txt "classify" := hproper.kind.trans hkind
  rw [← hmessage]
  refine ⟨hhash, hcid, hpublisher, hreceived, hk, ?_⟩
  rw [hcid]
  apply hproper.named
  rw [hk]
  decide

theorem rebindable_classifyRow (hs : Storable o) {c : Classify} (hc : x.classifyRow o = some c) : Rebindable c := by
  obtain ⟨e, he, hrow⟩ := Option.bind_eq_some_iff.mp hc
  obtain ⟨m, -, -, -, -, hdeed, -⟩ := (read_eq_some o).mp (eventIn_eq_some.mp he)
  unfold Event.classifyRow at hrow
  cases hd : e.deed with
  | classify d confidence =>
    rw [hd] at hrow hdeed
    obtain rfl := Option.some.inj hrow
    exact rebindable_of_deedOf hs hdeed e
  | _ =>
    rw [hd] at hrow
    cases hrow

theorem Genuine.skipStroke_source (h : x.Genuine o) {s : Stroke Skip Text} (hs : x.skipStroke o = some s) :
    s.target Skip.cid = x.row.cid ∧ (∃ r, s = .put r ∧ r.publisher = x.row.publisher) ∧ x.row.kind = txt "skip" := by
  obtain ⟨e, he, hstroke⟩ := Option.bind_eq_some_iff.mp hs
  obtain ⟨hmessage, hproper⟩ := h.event_row he
  obtain ⟨htarget, hput, hkind⟩ := Event.skipStroke_source hstroke
  rw [← hmessage]
  exact ⟨htarget, hput, hproper.kind.trans hkind⟩

theorem Genuine.reportStroke_source (h : x.Genuine o) {s : Stroke Report (Text × Text)} (hs : x.reportStroke o = some s) :
    s.target Report.key = (x.row.cid, x.row.publisher) ∧ x.row.kind = txt "report" := by
  obtain ⟨e, he, hstroke⟩ := Option.bind_eq_some_iff.mp hs
  obtain ⟨hmessage, hproper⟩ := h.event_row he
  obtain ⟨htarget, hkind⟩ := Event.reportStroke_source hstroke
  rw [← hmessage]
  exact ⟨htarget, hproper.kind.trans hkind⟩

theorem Genuine.aliasStroke_source (h : x.Genuine o) {s : Stroke Alias Text} (hs : x.aliasStroke o = some s) :
    s.target Alias.publisher = x.row.publisher ∧ (∀ r, s = .put r → r.payloadHash = x.row.payloadHash) ∧
      x.row.kind = txt "alias" := by
  obtain ⟨e, he, hstroke⟩ := Option.bind_eq_some_iff.mp hs
  obtain ⟨hmessage, hproper⟩ := h.event_row he
  obtain ⟨htarget, hput, hkind⟩ := Event.aliasStroke_source hstroke
  rw [← hmessage]
  exact ⟨htarget, hput, hproper.kind.trans hkind⟩

variable (o x) in
structure Recorded (t u : Tables) : Prop where
  messages : u.messages = t.messages ++ [x.row]
  classifies : u.classifies = t.classifies ++ (x.classifyRow o).toList
  docs : u.docs = (x.classifyRow o).elim t.docs fun c =>
    Table.putNew Doc.cid ⟨nextRowid t.docs, c.cid, c.publisher, c.description, c.receivedAt⟩ t.docs
  skips : u.skips = (x.skipStroke o).elim t.skips (Stroke.on Skip.cid t.skips)
  reports : u.reports = (x.reportStroke o).elim t.reports (Stroke.on Report.key t.reports)
  aliases : u.aliases = (x.aliasStroke o).elim t.aliases (Stroke.on Alias.publisher t.aliases)

theorem Genuine.recording (h : x.Genuine o) {t : Tables}
    (hsourced : ∀ c ∈ t.classifies, ∃ m ∈ t.messages, m.payloadHash = c.payloadHash)
    (hnew : x.row.payloadHash ∉ t.messages.map Message.payloadHash) :
    x.Recorded o t ((x.event o).elim id (fun e => e.effect x.sent.1) (withMessage x.row t)) := by
  cases he : x.event o with
  | none =>
    refine ⟨rfl, ?_, ?_, ?_, ?_, ?_⟩
    · simp only [classifyRow, he]
      exact (List.append_nil _).symm
    · simp only [classifyRow, he]
      rfl
    · simp only [skipStroke, he]
      rfl
    · simp only [reportStroke, he]
      rfl
    · simp only [aliasStroke, he]
      rfl
  | some e =>
    obtain ⟨hmessage, -⟩ := h.event_row he
    have hentered := e.effect_entered x.sent.1 t
    have hhash : e.payloadHash ∉ t.messages.map Message.payloadHash := by
      rw [← hmessage] at hnew
      exact hnew
    rw [hmessage] at hentered
    constructor
    · rw [← hmessage]
      exact hmessage ▸ hentered.messages
    · have hclassifies := hentered.classifies
      rw [inClassifies_new hsourced hhash, Event.classifyRows_eq] at hclassifies
      simp only [classifyRow, he]
      exact hclassifies
    · have hdocs := hentered.docs
      unfold Event.inDocs at hdocs
      simp only [classifyRow, he, Option.bind_some, Event.classifyRow]
      cases hd : e.deed with
      | classify d c =>
        rw [hd] at hdocs
        exact hdocs
      | _ =>
        rw [hd] at hdocs
        exact hdocs
    · simp only [skipStroke, he]
      exact hentered.skips.trans (Event.inSkips_eq _)
    · simp only [reportStroke, he]
      exact hentered.reports.trans (Event.inReports_eq _)
    · simp only [aliasStroke, he]
      exact hentered.aliases.trans (Event.inAliases_eq _)

end Entry

/-- The tables are what the messages of the log have made of them. A row of `skips` may be gone. -/
structure Told (log : List Entry) (t : Tables) : Prop where
  genuine : ∀ x ∈ log, x.Genuine o
  messages : t.messages = log.map Entry.row
  hashes : (log.map fun x => x.row.payloadHash).Nodup
  classifies : t.classifies = log.filterMap (Entry.classifyRow o)
  docs : ∀ cid, Matches cid t
  skips : ∀ s ∈ t.skips, Table.row? Skip.cid s.cid (drawn Skip.cid [] (log.filterMap (Entry.skipStroke o))) = some s
  keyed : Table.Keyed Skip.cid t.skips
  reports : t.reports = drawn Report.key [] (log.filterMap (Entry.reportStroke o))
  aliases : t.aliases = drawn Alias.publisher [] (log.filterMap (Entry.aliasStroke o))

/-- The messages came in one after another. -/
def Timely (log : List Entry) : Prop := log.Pairwise fun x y => x.row.receivedAt < y.row.receivedAt

end Logs

section Steps

variable {o : Observer} {log : List Entry} {t u : Tables} {x : Entry}

theorem filterMap_snoc {α β : Type} (f : α → Option β) (xs : List α) (x : α) :
    (xs ++ [x]).filterMap f = xs.filterMap f ++ (f x).toList := by
  rw [List.filterMap_append]
  cases h : f x with
  | none => rw [List.filterMap_cons_none h]; rfl
  | some b => rw [List.filterMap_cons_some h]; rfl

theorem drawn_toList {α κ : Type} [DecidableEq κ] {key : α → κ} (rows : List α) (strokes : List (Stroke α κ))
    (s : Option (Stroke α κ)) :
    drawn key rows (strokes ++ s.toList) = s.elim (drawn key rows strokes) (Stroke.on key (drawn key rows strokes)) := by
  cases s with
  | none => exact congrArg (drawn key rows) (List.append_nil strokes)
  | some s => exact Table.drawn_snoc rows strokes s

theorem matches_classified {cid : Text} {c : Classify} (h : Matches cid t) (hc : u.classifies = t.classifies ++ [c])
    (hd : u.docs = Table.putNew Doc.cid ⟨nextRowid t.docs, c.cid, c.publisher, c.description, c.receivedAt⟩ t.docs) :
    Matches cid u := by
  rw [Matches, hd, Table.row?_putNew, firstOf, hc, List.find?_append]
  rw [Matches, firstOf] at h
  generalize Table.row? Doc.cid cid t.docs = row at h ⊢
  generalize t.classifies.find? (fun d => d.cid = cid) = first at h ⊢
  cases h with
  | some hcarries =>
    rw [Option.some_or, Option.some_or]
    exact .some hcarries
  | none =>
    rw [Option.none_or, Option.none_or]
    by_cases heq : c.cid = cid
    · have hfind : List.find? (fun c => decide (c.cid = cid)) [c] = some c := List.find?_cons_of_pos (decide_eq_true heq)
      rw [if_pos heq, hfind]
      exact .some ⟨rfl, rfl, rfl, rfl, rfl⟩
    · rw [if_neg heq, List.find?_cons_of_neg (by simpa using heq)]
      exact .none

theorem matches_congr {cid : Text} (h : Matches cid t) (hc : u.classifies = t.classifies) (hd : u.docs = t.docs) :
    Matches cid u := by
  rw [Matches, firstOf, hc, hd]
  exact h

theorem Told.sourced (h : Told o log t) : ∀ c ∈ t.classifies, ∃ m ∈ t.messages, m.payloadHash = c.payloadHash ∧
    m.kind = txt "classify" ∧ m.cid = c.cid ∧ m.publisher = c.publisher := by
  rw [h.classifies, h.messages]
  intro c hc
  obtain ⟨x, hx, hrow⟩ := List.mem_filterMap.mp hc
  obtain ⟨hhash, hcid, hpublisher, -, hkind, -⟩ := (h.genuine x hx).classifyRow_source hrow
  exact ⟨x.row, List.mem_map_of_mem hx, hhash.symm, hkind, hcid.symm, hpublisher.symm⟩

theorem Told.record (h : Told o log t) (hx : x.Genuine o) (hnew : x.row.payloadHash ∉ t.messages.map Message.payloadHash) :
    Told o (log ++ [x]) ((x.event o).elim id (fun e => e.effect x.sent.1) (withMessage x.row t)) := by
  have hsourced : ∀ c ∈ t.classifies, ∃ m ∈ t.messages, m.payloadHash = c.payloadHash := by
    intro c hc
    obtain ⟨m, hm, hhash, -⟩ := h.sourced c hc
    exact ⟨m, hm, hhash⟩
  have hr := hx.recording hsourced hnew
  generalize (x.event o).elim id (fun e => e.effect x.sent.1) (withMessage x.row t) = u at hr
  constructor
  · rw [List.forall_mem_append, List.forall_mem_singleton]
    exact ⟨h.genuine, hx⟩
  · rw [hr.messages, h.messages, List.map_append, List.map_singleton]
  · rw [List.map_append, List.map_singleton, List.nodup_append]
    refine ⟨h.hashes, List.nodup_singleton _, ?_⟩
    rintro a ha b hb rfl
    rw [List.mem_singleton.mp hb] at ha
    obtain ⟨y, hy, hyx⟩ := List.mem_map.mp ha
    apply hnew
    rw [h.messages, List.map_map]
    exact List.mem_map.mpr ⟨y, hy, hyx⟩
  · rw [hr.classifies, h.classifies, filterMap_snoc]
  · intro cid
    have hc := hr.classifies
    have hd := hr.docs
    cases hrow : x.classifyRow o with
    | none =>
      rw [hrow] at hc hd
      exact matches_congr (h.docs cid) (hc.trans (List.append_nil _)) hd
    | some c =>
      rw [hrow] at hc hd
      exact matches_classified (h.docs cid) hc hd
  · intro s hs
    rw [hr.skips] at hs
    rw [filterMap_snoc, drawn_toList]
    cases hstroke : x.skipStroke o with
    | none =>
      rw [hstroke] at hs
      exact h.skips s hs
    | some k =>
      rw [hstroke] at hs
      obtain ⟨-, ⟨r, rfl, -⟩, -⟩ := hx.skipStroke_source hstroke
      show Table.row? Skip.cid s.cid (Stroke.on Skip.cid _ (.put r)) = some s
      rw [Table.row?_on]
      show (if s.cid = r.cid then some r else _) = some s
      obtain ⟨hs, hne⟩ | rfl := Table.mem_put.mp hs
      · rw [if_neg hne]
        exact h.skips s hs
      · rw [if_pos rfl]
  · rw [hr.skips]
    cases x.skipStroke o with
    | none => exact h.keyed
    | some k => exact h.keyed.on k
  · rw [hr.reports, h.reports, filterMap_snoc, drawn_toList]
  · rw [hr.aliases, h.aliases, filterMap_snoc, drawn_toList]

theorem filter_filterMap {α β : Type} {f : α → Option β} {p : α → Bool} {q : β → Bool} {xs : List α}
    (h : ∀ x ∈ xs, ∀ b, f x = some b → q b = p x) : (xs.filterMap f).filter q = (xs.filter p).filterMap f := by
  induction xs with
  | nil => rfl
  | cons x xs ih =>
    rw [List.forall_mem_cons] at h
    cases hf : f x with
    | none =>
      rw [List.filterMap_cons_none hf, ih h.2, List.filter_cons]
      split_ifs
      · rw [List.filterMap_cons_none hf]
      · rfl
    | some b =>
      rw [List.filterMap_cons_some hf, List.filter_cons, List.filter_cons, h.1 b hf, ih h.2]
      split_ifs
      · rw [List.filterMap_cons_some hf]
      · rfl

theorem Told.chronicled (h : Told o log t) (htimes : Timely log) : Chronicled t where
  first := h.docs
  sorted := by
    rw [h.classifies]
    apply List.pairwise_filterMap.mpr
    apply List.Pairwise.imp_of_mem _ htimes
    intro x y hx hy hxy c hc d hd
    obtain ⟨-, -, -, hx, -⟩ := (h.genuine x hx).classifyRow_source hc
    obtain ⟨-, -, -, hy, -⟩ := (h.genuine y hy).classifyRow_source hd
    rw [hx, hy]
    exact hxy.le
  named := by
    rw [h.classifies]
    intro c hc
    obtain ⟨x, hx, hrow⟩ := List.mem_filterMap.mp hc
    obtain ⟨-, -, -, -, -, hnamed⟩ := (h.genuine x hx).classifyRow_source hrow
    exact hnamed
  sourced := h.sourced

theorem Told.rebindable (h : Told o log t) (hs : Storable o) : ∀ c ∈ t.classifies, Rebindable c := by
  rw [h.classifies]
  intro c hc
  obtain ⟨x, -, hrow⟩ := List.mem_filterMap.mp hc
  exact x.rebindable_classifyRow hs hrow

theorem Told.relisted (h : Told o log t) (listed : List Blacklisted) : Told o log { t with blacklisted := listed } :=
  ⟨h.genuine, h.messages, h.hashes, h.classifies, fun cid => matches_congr (h.docs cid) rfl rfl, h.skips, h.keyed,
    h.reports, h.aliases⟩

theorem Told.blacklisted (h : Told o log t) (htimes : Timely log) {p : Text} {now : ℚ}
    (hr : RebuiltAll o (touchedCids p t) (dropPublisher p (noteBlacklisted p now t)) u) :
    Told o (log.filter fun x => x.row.publisher ≠ p) u := by
  have hchronicled := (h.chronicled htimes).blacklisted hr
  obtain ⟨hclassifies, hmessages⟩ := hr.frame
  obtain ⟨hskips, hreports, haliases⟩ := hr.rows
  constructor
  · exact fun x hx => h.genuine x (List.mem_of_mem_filter hx)
  · rw [hmessages]
    show t.messages.filter _ = _
    rw [h.messages, List.filter_map]
    rfl
  · exact h.hashes.sublist (List.filter_sublist.map _)
  · rw [hclassifies]
    show t.classifies.filter _ = _
    rw [h.classifies]
    apply filter_filterMap
    intro x hx c hc
    rw [((h.genuine x hx).classifyRow_source hc).2.2.1]
  · exact hchronicled.first
  · rw [hskips]
    intro s hs
    obtain ⟨hs, hp⟩ := List.mem_filter.mp hs
    let others : Stroke Skip Text → Bool := fun k => k.left.all fun r => decide (r.publisher ≠ p)
    have hothers : (log.filterMap (Entry.skipStroke o)).filter others =
        (log.filter fun x => x.row.publisher ≠ p).filterMap (Entry.skipStroke o) := by
      apply filter_filterMap
      intro x hx k hk
      obtain ⟨-, ⟨r, rfl, hrp⟩, -⟩ := (h.genuine x hx).skipStroke_source hk
      show decide (r.publisher ≠ p) = _
      rw [hrp]
    rw [← hothers]
    exact Table.row?_drawn_filter (p := others) hp (h.skips s hs)
  · rw [hskips]
    exact h.keyed.sublist (List.filter_sublist.map Skip.cid)
  · rw [hreports]
    show t.reports.filter _ = _
    rw [h.reports]
    have hfilter (strokes : List (Stroke Report (Text × Text))) : (drawn Report.key [] strokes).filter
        (fun r => decide (r.publisher ≠ p)) = drawn Report.key [] (strokes.filter fun k => decide ((k.target Report.key).2 ≠ p)) :=
      Table.drawn_filter Report.key (fun k => decide (k.2 ≠ p)) [] strokes
    rw [hfilter, filter_filterMap]
    intro x hx k hk
    rw [((h.genuine x hx).reportStroke_source hk).1]
  · rw [haliases]
    show t.aliases.filter _ = _
    rw [h.aliases]
    have hfilter (strokes : List (Stroke Alias Text)) : (drawn Alias.publisher [] strokes).filter
        (fun r => decide (r.publisher ≠ p)) = drawn Alias.publisher []
          (strokes.filter fun k => decide (k.target Alias.publisher ≠ p)) :=
      Table.drawn_filter Alias.publisher (fun k => decide (k ≠ p)) [] strokes
    rw [hfilter, filter_filterMap]
    intro x hx k hk
    rw [((h.genuine x hx).aliasStroke_source hk).1]

theorem Told.expired (h : Told o log t) (now now' : ℚ) : Told o log (expired o now now' t) := by
  have hskips : (Store.expired o now now' t).skips.Sublist t.skips := by
    unfold Store.expired
    dsimp only
    split_ifs
    · exact List.filter_sublist
    · exact List.Sublist.refl _
  exact ⟨h.genuine, h.messages, h.hashes, h.classifies, fun cid => matches_congr (h.docs cid) rfl rfl,
    fun s hs => h.skips s (hskips.subset hs), h.keyed.sublist (hskips.map Skip.cid), h.reports, h.aliases⟩

theorem told_fresh : Told o [] fresh.view :=
  ⟨fun _ hx => absurd hx List.not_mem_nil, rfl, List.nodup_nil, rfl, fun _ => .none, fun _ hs => absurd hs List.not_mem_nil,
    List.nodup_nil, rfl, rfl⟩

end Steps

section Runs

variable (o : Observer)

/-- A signed message that was read from a line, or a call of the owner or of the clock. -/
def Heard : Call → Prop
  | .ingest _ v => (∃ data, loadsBytes o.py data = .ok v) ∧ (v.get (txt "sig")).isSome = true
  | .blacklist _ _ _ => True
  | .unblacklist _ => True
  | .expire _ _ => True
  | .purgeSkips => False
  | .purgeCids => False
  | .count => False

variable {o} {log : List Entry} {s : Conn} {c : Call}

theorem told_step (hs : Storable o) (h : Told o log s.view) (htimes : Timely log)
    (hlast : ∀ x ∈ log, ∀ now ∈ c.received, x.row.receivedAt < now) (hheard : Heard o c) :
    ∃ log', Told o log' (step o s c).view ∧ Timely log' ∧
      ∀ x ∈ log', x ∈ log ∨ c.received = some x.row.receivedAt := by
  have same : ∃ log', Told o log' s.view ∧ Timely log' ∧ ∀ x ∈ log', x ∈ log ∨ c.received = some x.row.receivedAt :=
    ⟨log, h, htimes, fun _ hx => Or.inl hx⟩
  cases c with
  | ingest w obj =>
    by_cases hr : ∃ a cid publisher, Acceptable o s.view obj a ∧ Recordable o s.view a cid publisher
    · obtain ⟨a, cid, publisher, ha, hr⟩ := hr
      let x : Entry := ⟨(w, obj), a.row cid publisher w.receivedAt⟩
      have hx : x.Genuine o :=
        ⟨hheard.1, hheard.2, a, cid, publisher, ha.unlisted,
          ⟨hr.cid, hr.publisher, hr.body, fun _ hm => absurd hm List.not_mem_nil⟩, rfl⟩
      have hnew : x.row.payloadHash ∉ s.view.messages.map Message.payloadHash := by
        intro hmem
        obtain ⟨r, hrm, hh⟩ := List.mem_map.mp hmem
        exact hr.new r hrm hh
      refine ⟨log ++ [x], ?_, ?_, ?_⟩
      · rw [ingest_recordable ha hr]
        exact h.record hx hnew
      · rw [Timely, List.pairwise_append]
        refine ⟨htimes, List.pairwise_singleton _ _, fun y hy z hz => ?_⟩
        rw [List.mem_singleton.mp hz]
        exact hlast y hy _ rfl
      · intro y hy
        obtain hy | hy := List.mem_append.mp hy
        · exact Or.inl hy
        · rw [List.mem_singleton.mp hy]
          exact Or.inr rfl
    · rw [ingest_unrecordable fun a cid publisher ha hrec => hr ⟨a, cid, publisher, ha, hrec⟩]
      exact same
  | blacklist me publisher now =>
    obtain hsame | hr := blacklist_cases hs (h.rebindable hs) me publisher now
    · rw [hsame]
      exact same
    · exact ⟨_, h.blacklisted htimes hr, htimes.filter _, fun x hx => Or.inl (List.mem_of_mem_filter hx)⟩
  | unblacklist publisher =>
    obtain ⟨listed, hlisted⟩ := unblacklist_cases o s publisher
    rw [hlisted]
    exact ⟨log, h.relisted listed, htimes, fun _ hx => Or.inl hx⟩
  | expire now now' =>
    rw [expire_view]
    exact ⟨log, h.expired now now', htimes, fun _ hx => Or.inl hx⟩
  | purgeSkips => exact hheard.elim
  | purgeCids => exact hheard.elim
  | count => exact hheard.elim

theorem told_after (hs : Storable o) {calls : List Call} (h : Told o log s.view) (htimes : Timely log)
    (hlast : ∀ x ∈ log, ∀ now ∈ calls.filterMap Call.received, x.row.receivedAt < now)
    (hsorted : (calls.filterMap Call.received).Pairwise (· < ·)) (hheard : ∀ c ∈ calls, Heard o c) :
    ∃ log', Told o log' (run (step o) s calls).view ∧ Timely log' := by
  induction calls generalizing s log with
  | nil => exact ⟨log, h, htimes⟩
  | cons c calls ih =>
    rw [List.forall_mem_cons] at hheard
    have hmem : ∀ now, c.received = some now → now ∈ (c :: calls).filterMap Call.received := by
      intro now hnow
      exact List.mem_filterMap.mpr ⟨c, List.mem_cons_self, hnow⟩
    obtain ⟨log', h', htimes', hlog'⟩ := told_step hs h htimes (fun x hx now hnow => hlast x hx now (hmem now hnow)) hheard.1
    apply ih h' htimes' _ _ hheard.2
    · intro x hx now hnow
      obtain hold | hnew := hlog' x hx
      · apply hlast x hold
        obtain ⟨c', hc', he⟩ := List.mem_filterMap.mp hnow
        exact List.mem_filterMap.mpr ⟨c', List.mem_cons_of_mem _ hc', he⟩
      · rw [List.filterMap_cons_some hnew] at hsorted
        exact (List.pairwise_cons.mp hsorted).1 now hnow
    · exact hsorted.sublist ((List.sublist_cons_self c calls).filterMap _)

theorem told_from_fresh (hs : Storable o) {calls : List Call} (hheard : ∀ c ∈ calls, Heard o c)
    (hsorted : (calls.filterMap Call.received).Pairwise (· < ·)) :
    ∃ log, Told o log (run (step o) fresh calls).view ∧ Timely log :=
  told_after hs told_fresh .nil (fun _ hx => absurd hx List.not_mem_nil) hsorted hheard

end Runs

end ObserverClub.Store
