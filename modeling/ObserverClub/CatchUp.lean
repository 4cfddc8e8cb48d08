import ObserverClub.LogTables
import ObserverClub.WireForm

namespace ObserverClub.Store

open Library Json Python Sqlite Catalog
open Library.Table (Stroke drawn)

section Exported

variable {o : Observer} {t : Tables} {limit : ℤ}

theorem newestFirst_eq {found ms : List Message} (hfound : found.Perm ms)
    (h : ms.Pairwise fun a b => a.receivedAt < b.receivedAt) : newestFirst found = ms.reverse := by
  have hnodup : (ms.map Message.receivedAt).Nodup := by
    rw [List.Nodup, List.pairwise_map]
    exact h.imp fun hlt => hlt.ne
  have htotal : Std.Total (fun a b : Message => b.receivedAt ≤ a.receivedAt) := ⟨fun a b => le_total _ _⟩
  have htrans : IsTrans Message (fun a b : Message => b.receivedAt ≤ a.receivedAt) := ⟨fun a b c hab hbc => hbc.trans hab⟩
  have hperm : (newestFirst found).Perm ms.reverse := (newestFirst_perm found).trans (hfound.trans (List.reverse_perm ms).symm)
  refine hperm.eq_of_pairwise (fun a b ha hb hab hba => ?_) (List.pairwise_insertionSort _ found)
    (List.pairwise_reverse.mpr (h.imp le_of_lt))
  have ha' := hperm.mem_iff.mp ha
  rw [List.mem_reverse] at ha' hb
  exact List.inj_on_of_nodup_map hnodup ha' hb (le_antisymm hba hab)

theorem latestRows_all {found ms : List Message} (hfound : found.Perm ms) (hlogged : ∀ m ∈ found, Logged o m)
    (htimes : ms.Pairwise fun a b => a.receivedAt < b.receivedAt) {n : ℕ} (hn : ms.length ≤ n) : latestRows found n = ms := by
  rw [latestRows_eq hlogged, newestFirst_eq hfound htimes, List.take_of_length_le, List.reverse_reverse]
  rw [List.length_reverse]
  exact hn

theorem snapshotRows_all (hlogged : ∀ m ∈ t.messages, Logged o m)
    (htimes : t.messages.Pairwise fun a b => a.receivedAt < b.receivedAt) (hlimit : (t.messages.length : ℤ) ≤ limit) :
    snapshotRows limit t = t.messages.filter (isSnapshotDoc t) ++ t.messages.filter (isSnapshotSkip t) := by
  have hapart : (t.messages.filter (isSnapshotSkip t)).length ≤
      (t.messages.filter fun m => !isSnapshotDoc t m).length := by
    rw [← List.countP_eq_length_filter, ← List.countP_eq_length_filter]
    apply List.countP_mono_left
    intro m hm hskip
    cases hdoc : isSnapshotDoc t m with
    | false => rfl
    | true =>
      rw [isSnapshotDoc_eq (hlogged m hm)] at hdoc
      exact absurd (skipLine_of_skip (hlogged m hm) hskip) (not_skipLine (hlogged m hm) hdoc)
  have hlength := List.length_eq_length_filter_add (l := t.messages) (isSnapshotDoc t)
  have hdocs : latestRows (foundDocs t) limit.toNat = t.messages.filter (isSnapshotDoc t) :=
    latestRows_all (foundDocs_perm t) (logged_foundDocs hlogged) (htimes.filter _) (by omega)
  unfold snapshotRows
  rw [hdocs]
  dsimp only
  rw [latestRows_all (foundSkips_perm t) (logged_foundSkips hlogged) (htimes.filter _) (by omega)]

end Exported

section Again

variable {o : Observer} {x : Entry}

def Entry.again (x : Entry) (w : Surroundings) : Entry := ⟨(w, x.sent.2), { x.row with receivedAt := w.receivedAt }⟩

theorem Entry.Genuine.again (h : x.Genuine o) (w : Surroundings) : (x.again w).Genuine o := by
  obtain ⟨a, cid, publisher, ha, hr, hrow⟩ := h.recorded
  refine ⟨h.parsed, h.signed, a, cid, publisher, ha, hr, ?_⟩
  rw [Entry.again, hrow]
  rfl

theorem event_again (x : Entry) (w : Surroundings) :
    Option.Rel (SameEvent x.sent.1.receivedAt w.receivedAt) (x.event o) ((x.again w).event o) := by
  cases he : x.event o with
  | some e =>
    obtain ⟨e', he', hsame⟩ := read_time o w (eventIn_eq_some.mp he)
    have hagain : (x.again w).event o = some e' := eventIn_eq_some.mpr he'
    rw [hagain]
    exact .some hsame
  | none =>
    cases he' : (x.again w).event o with
    | none => exact .none
    | some e' =>
      obtain ⟨e, hread, -⟩ := read_time o x.sent.1 (eventIn_eq_some.mp he')
      have hevent : x.event o = some e := eventIn_eq_some.mpr hread
      rw [he] at hevent
      cases hevent

theorem classifyRow_again (x : Entry) (w : Surroundings) :
    Option.Rel SameClassify (x.classifyRow o) ((x.again w).classifyRow o) := by
  unfold Entry.classifyRow
  have hrel := event_again (o := o) x w
  generalize x.event o = e at hrel ⊢
  generalize (x.again w).event o = e' at hrel ⊢
  cases hrel with
  | none => exact .none
  | @some e e' hsame =>
    rw [Option.bind_some, Option.bind_some, hsame.parts]
    have hdeed := hsame.deed
    unfold Event.classifyRow
    dsimp only
    generalize e'.deed = deed' at hdeed ⊢
    generalize e.deed = deed at hdeed ⊢
    cases hdeed with
    | classify c hd => exact .some ⟨rfl, rfl, rfl, rfl, hd⟩
    | other _ hother =>
      cases deed' with
      | classify d c => exact absurd rfl (hother d c)
      | _ => exact .none

def Skip.untimed (s : Skip) : Skip := { s with receivedAt := 0 }

theorem skipStroke_again (x : Entry) (w : Surroundings) :
    ((x.again w).skipStroke o).map (Stroke.map Skip.untimed) = (x.skipStroke o).map (Stroke.map Skip.untimed) := by
  unfold Entry.skipStroke
  have hrel := event_again (o := o) x w
  generalize x.event o = e at hrel ⊢
  generalize (x.again w).event o = e' at hrel ⊢
  cases hrel with
  | none => rfl
  | @some e e' hsame =>
    rw [Option.bind_some, Option.bind_some, hsame.parts]
    have hdeed := hsame.deed
    unfold Event.skipStroke
    dsimp only
    generalize e'.deed = deed' at hdeed ⊢
    generalize e.deed = deed at hdeed ⊢
    cases hdeed with
    | classify c hd => rfl
    | other _ _ => cases deed' <;> rfl

theorem reportStroke_again (x : Entry) (w : Surroundings) :
    ((x.again w).reportStroke o).map (Stroke.map Report.untimed) = (x.reportStroke o).map (Stroke.map Report.untimed) := by
  unfold Entry.reportStroke
  have hrel := event_again (o := o) x w
  generalize x.event o = e at hrel ⊢
  generalize (x.again w).event o = e' at hrel ⊢
  cases hrel with
  | none => rfl
  | @some e e' hsame =>
    rw [Option.bind_some, Option.bind_some, hsame.parts]
    have hdeed := hsame.deed
    unfold Event.reportStroke
    dsimp only
    generalize e'.deed = deed' at hdeed ⊢
    generalize e.deed = deed at hdeed ⊢
    cases hdeed with
    | classify c hd => rfl
    | other _ _ =>
      cases deed' with
      | report reason =>
        dsimp only
        split_ifs <;> rfl
      | _ => rfl

theorem aliasStroke_again (x : Entry) (w : Surroundings) :
    ((x.again w).aliasStroke o).map (Stroke.map Alias.untimed) = (x.aliasStroke o).map (Stroke.map Alias.untimed) := by
  unfold Entry.aliasStroke
  have hrel := event_again (o := o) x w
  generalize x.event o = e at hrel ⊢
  generalize (x.again w).event o = e' at hrel ⊢
  cases hrel with
  | none => rfl
  | @some e e' hsame =>
    rw [Option.bind_some, Option.bind_some, hsame.parts]
    have hdeed := hsame.deed
    unfold Event.aliasStroke
    dsimp only
    generalize e'.deed = deed' at hdeed ⊢
    generalize e.deed = deed at hdeed ⊢
    cases hdeed with
    | classify c hd => rfl
    | other _ _ =>
      cases deed' with
      | rename name =>
        dsimp only
        split_ifs <;> rfl
      | _ => rfl

end Again

section Replaying

variable (o : Observer)

def taking (p : Surroundings × Text) : Option Call := (loads o.py p.2).toOption.map (Call.ingest p.1)

/-- A new catalog that has taken in the lines one after another. -/
def caughtUp (served : List (Surroundings × Text)) : Conn := run (step o) fresh (served.filterMap (taking o))

/-- A catalog in which no publisher is shut out, and every row of `skips` is still there. -/
structure Retold (log : List Entry) (t : Tables) : Prop extends Told o log t where
  unlisted : t.blacklisted = []
  whole : t.skips = drawn Skip.cid [] (log.filterMap (Entry.skipStroke o))

variable {o} {log : List Entry} {s : Conn} {x : Entry}

theorem taking_body (h : x.Genuine o) (w : Surroundings) : taking o (w, x.row.body) = some (.ingest w x.sent.2) := by
  obtain ⟨data, hdata⟩ := h.parsed
  obtain ⟨text, -, hloads⟩ := loadsBytes_ok hdata
  obtain ⟨a, cid, publisher, ha, -, hrow⟩ := h.recorded
  have hbody : x.row.body = a.body := congrArg Message.body hrow
  have hread : loads o.py x.row.body = .ok x.sent.2 := by
    rw [hbody, ← (wireDumps_eq ha.body).1]
    exact (loads_parsed hloads).loads_render
  rw [taking, hread]
  rfl

theorem Retold.again (h : Retold o log s.view) (hx : x.Genuine o)
    (hnew : x.row.payloadHash ∉ log.map fun y => y.row.payloadHash) (w : Surroundings) :
    Retold o (log ++ [x.again w]) (step o s (.ingest w x.sent.2)).view := by
  obtain ⟨a, cid, publisher, ha, hr, hrow⟩ := hx.recorded
  have hmessages : x.row.payloadHash ∉ s.view.messages.map Message.payloadHash := by
    rw [h.messages, List.map_map]
    exact hnew
  have haccept : Acceptable o s.view x.sent.2 a := by
    rw [← accept_eq_some, accept_congr o (t := empty) h.unlisted]
    exact (accept_eq_some o).mpr ha
  have hrecord : Recordable o s.view a cid publisher := by
    refine ⟨hr.cid, hr.publisher, hr.body, fun r hrm he => hmessages ?_⟩
    rw [hrow]
    exact List.mem_map.mpr ⟨r, hrm, he⟩
  have hagain : x.again w = ⟨(w, x.sent.2), a.row cid publisher w.receivedAt⟩ := by
    rw [Entry.again, hrow]
    rfl
  have hsourced : ∀ c ∈ s.view.classifies, ∃ m ∈ s.view.messages, m.payloadHash = c.payloadHash := by
    intro c hc
    obtain ⟨m, hm, hhash, -⟩ := h.sourced c hc
    exact ⟨m, hm, hhash⟩
  have hgenuine := hx.again w
  have htold := h.toTold.record hgenuine hmessages
  have hrecorded := hgenuine.recording hsourced hmessages
  rw [hagain] at htold hrecorded ⊢
  rw [ingest_recordable haccept hrecord]
  refine ⟨htold, ?_, ?_⟩
  · cases eventIn o (w, x.sent.2) with
    | none => exact h.unlisted
    | some e => exact Event.effect_frame.2.trans h.unlisted
  · refine hrecorded.skips.trans ?_
    rw [filterMap_snoc, drawn_toList, h.whole]

theorem retold_fresh : Retold o [] fresh.view := ⟨told_fresh, rfl, rfl⟩

theorem retold_served {exported : List Entry} {served : List (Surroundings × Text)} (h : Retold o log s.view)
    (hgenuine : ∀ x ∈ exported, x.Genuine o) (hhashes : ((log ++ exported).map fun x => x.row.payloadHash).Nodup)
    (hserved : served.map Prod.snd = exported.map fun x => x.row.body) :
    ∃ log', List.Forall₂ (fun x y => ∃ w, y = Entry.again x w) exported log' ∧
      (log'.map fun x => x.row.receivedAt) = (served.map fun p => p.1.receivedAt) ∧
      Retold o (log ++ log') (run (step o) s (served.filterMap (taking o))).view := by
  induction exported generalizing log s served with
  | nil =>
    obtain rfl := List.map_eq_nil_iff.mp hserved
    refine ⟨[], .nil, rfl, ?_⟩
    rw [List.append_nil]
    exact h
  | cons x exported ih =>
    rw [List.forall_mem_cons] at hgenuine
    obtain ⟨⟨w, line⟩, served, rfl, hline, hrest⟩ := List.map_eq_cons_iff.mp hserved
    obtain rfl : line = x.row.body := hline
    have hnew : x.row.payloadHash ∉ log.map fun y => y.row.payloadHash := by
      rw [List.map_append, List.map_cons, List.nodup_append] at hhashes
      exact fun hmem => hhashes.2.2 _ hmem _ List.mem_cons_self rfl
    have hnext := h.again hgenuine.1 hnew w
    have hhashes' : ((log ++ [x.again w] ++ exported).map fun x => x.row.payloadHash).Nodup := by
      rw [List.append_assoc, List.singleton_append, List.map_append, List.map_cons]
      rw [List.map_append, List.map_cons] at hhashes
      exact hhashes
    obtain ⟨log', hagain, htimes, hretold⟩ := ih hnext hgenuine.2 hhashes' hrest
    refine ⟨x.again w :: log', .cons ⟨w, rfl⟩ hagain, congrArg (w.receivedAt :: ·) htimes, ?_⟩
    rw [List.filterMap_cons_some (taking_body hgenuine.1 w), run_cons, List.append_cons]
    exact hretold

end Replaying

section Agreement

structure SameFirst (d d' : Doc) : Prop where
  publisher : d'.publisher = d.publisher
  mimeType : d'.description.mimeType = d.description.mimeType
  topic : d'.description.topic = d.description.topic
  keywords : d'.description.keywords = d.description.keywords
  textSha256 : d'.description.textSha256 = d.description.textSha256

def isVerdict (s : Skip) : Bool := decide (∃ r ∈ scopeReasons, s.reason = some r)

def verdictOn (cid : Text) (t : Tables) : Option Skip :=
  ((Table.row? Skip.cid cid t.skips).filter isVerdict).map Skip.untimed

/-- The catalogs agree, but for the times at which messages came in. -/
structure Agrees (t t' : Tables) : Prop where
  classifies : List.Forall₂ SameClassify t.classifies t'.classifies
  docs : ∀ cid, Option.Rel SameFirst (Table.row? Doc.cid cid t.docs) (Table.row? Doc.cid cid t'.docs)
  reports : t'.reports.map Report.untimed = t.reports.map Report.untimed
  aliases : ∀ publisher, (Table.row? Alias.publisher publisher t'.aliases).map Alias.untimed =
    (Table.row? Alias.publisher publisher t.aliases).map Alias.untimed
  verdicts : ∀ cid, verdictOn cid t' = verdictOn cid t

variable {o : Observer} {log log' : List Entry} {t t' : Tables}

def exportedOf (t : Tables) (log : List Entry) : List Entry :=
  (log.filter fun x => isSnapshotDoc t x.row) ++ log.filter fun x => isSnapshotSkip t x.row

theorem Told.logged (h : Told o log t) : ∀ m ∈ t.messages, Logged o m := by
  rw [h.messages]
  intro m hm
  obtain ⟨x, hx, rfl⟩ := List.mem_map.mp hm
  exact (h.genuine x hx).logged

theorem Told.exported (h : Told o log t) (htimes : Timely log) {limit : ℤ} (hlimit : (t.messages.length : ℤ) ≤ limit) :
    snapshotLines t limit = (exportedOf t log).map fun x => x.row.body := by
  have hsorted : t.messages.Pairwise fun a b => a.receivedAt < b.receivedAt := by
    rw [h.messages, List.pairwise_map]
    exact htimes
  rw [snapshotLines_eq limit h.logged, snapshotRows_all h.logged hsorted hlimit, h.messages, List.filter_map,
    List.filter_map, ← List.map_append, List.map_map]
  rfl

theorem isSnapshotDoc_entry (h : Told o log t) {x : Entry} (hx : x ∈ log) : isSnapshotDoc t x.row = isDocument t x.row :=
  isSnapshotDoc_eq (h.genuine x hx).logged

theorem isSnapshotSkip_kind {m : Message} (h : isSnapshotSkip t m = true) : m.kind = txt "skip" := by
  unfold isSnapshotSkip at h
  simp only [Bool.and_eq_true, decide_eq_true_eq] at h
  exact h.1.2

theorem Told.exported_hashes (h : Told o log t) : ((exportedOf t log).map fun x => x.row.payloadHash).Nodup := by
  rw [exportedOf, List.map_append, List.nodup_append]
  refine ⟨h.hashes.sublist (List.filter_sublist.map _), h.hashes.sublist (List.filter_sublist.map _), ?_⟩
  rintro a ha b hb rfl
  obtain ⟨x, hx, rfl⟩ := List.mem_map.mp ha
  obtain ⟨y, hy, hyx⟩ := List.mem_map.mp hb
  obtain ⟨hx, hdoc⟩ := List.mem_filter.mp hx
  obtain ⟨hy, hskip⟩ := List.mem_filter.mp hy
  obtain rfl := List.inj_on_of_nodup_map h.hashes hy hx hyx
  have hlogged := (h.genuine y hy).logged
  rw [isSnapshotDoc_entry h hy] at hdoc
  exact not_skipLine hlogged hdoc (skipLine_of_skip hlogged hskip)

theorem exported_documents {β : Type} {f : Entry → Option β} (h : Told o log t)
    (hf : ∀ x ∈ log, ∀ b, f x = some b → isDocument t x.row = true ∧ x.row.kind ≠ txt "skip") :
    (exportedOf t log).filterMap f = log.filterMap f := by
  have hdocs : (log.filter fun x => isSnapshotDoc t x.row).filterMap f = log.filterMap f := by
    rw [← filter_filterMap (q := fun _ => true), List.filter_true]
    intro x hx b hb
    rw [isSnapshotDoc_entry h hx, (hf x hx b hb).1]
  have hskips : (log.filter fun x => isSnapshotSkip t x.row).filterMap f = [] := by
    rw [List.filterMap_eq_nil_iff]
    intro x hx
    obtain ⟨hx, hskip⟩ := List.mem_filter.mp hx
    cases hb : f x with
    | none => rfl
    | some b => exact absurd (isSnapshotSkip_kind hskip) (hf x hx b hb).2
  rw [exportedOf, List.filterMap_append, hdocs, hskips, List.append_nil]

theorem filterMap_again {β γ : Type} {f : Entry → Option β} {g : β → γ}
    (hf : ∀ x w, (f (Entry.again x w)).map g = (f x).map g)
    (h : List.Forall₂ (fun x y => ∃ w, y = Entry.again x w) log log') :
    (log'.filterMap f).map g = (log.filterMap f).map g := by
  induction h with
  | nil => rfl
  | @cons x y log log' hy _ ih =>
    obtain ⟨w, rfl⟩ := hy
    have hsame := hf x w
    cases hx : f x with
    | none =>
      rw [hx] at hsame
      rw [List.filterMap_cons_none (Option.map_eq_none_iff.mp hsame), List.filterMap_cons_none hx]
      exact ih
    | some b =>
      rw [hx] at hsame
      obtain ⟨b', hb', hg⟩ := Option.map_eq_some_iff.mp hsame
      rw [List.filterMap_cons_some hb', List.filterMap_cons_some hx, List.map_cons, List.map_cons, hg, ih]

theorem classifies_again (h : List.Forall₂ (fun x y => ∃ w, y = Entry.again x w) log log') :
    List.Forall₂ SameClassify (log.filterMap (Entry.classifyRow o)) (log'.filterMap (Entry.classifyRow o)) := by
  refine List.rel_filterMap ?_ h
  rintro x y ⟨w, rfl⟩
  exact classifyRow_again x w

theorem firstOf_same (h : List.Forall₂ SameClassify t.classifies t'.classifies) (cid : Text) :
    Option.Rel SameClassify (firstOf cid t) (firstOf cid t') := by
  unfold firstOf
  generalize t.classifies = cs at h ⊢
  generalize t'.classifies = cs' at h ⊢
  induction h with
  | nil => exact .none
  | @cons c c' cs cs' hc _ ih =>
    have hcids : decide (c'.cid = cid) = decide (c.cid = cid) := by rw [hc.cid]
    rw [List.find?_cons, List.find?_cons, hcids]
    cases decide (c.cid = cid) with
    | true => exact .some hc
    | false => exact ih

theorem docs_same (h : Told o log t) (h' : Told o log' t') (hsame : List.Forall₂ SameClassify t.classifies t'.classifies)
    (cid : Text) : Option.Rel SameFirst (Table.row? Doc.cid cid t.docs) (Table.row? Doc.cid cid t'.docs) := by
  have hfirst := firstOf_same hsame cid
  have hdoc := h.docs cid
  have hdoc' := h'.docs cid
  unfold Matches at hdoc hdoc'
  generalize firstOf cid t = c at hfirst hdoc
  generalize firstOf cid t' = c' at hfirst hdoc'
  generalize Table.row? Doc.cid cid t.docs = d at hdoc ⊢
  generalize Table.row? Doc.cid cid t'.docs = d' at hdoc' ⊢
  cases hfirst with
  | none =>
    cases hdoc
    cases hdoc'
    exact .none
  | @some c c' hc =>
    cases hdoc with
    | @some d _ hd =>
      cases hdoc' with
      | @some d' _ hd' =>
        have hdescription := hc.description.1
        refine .some ⟨?_, ?_, ?_, ?_, ?_⟩
        · rw [hd'.publisher, hc.publisher, hd.publisher]
        · rw [hd'.mimeType, hdescription, hd.mimeType]
        · rw [hd'.topic, hdescription, hd.topic]
        · rw [hd'.keywords, hdescription, hd.keywords]
        · rw [hd'.textSha256, hdescription, hd.textSha256]

theorem reports_same (h : Told o log t) (h' : Told o log' t')
    (hagain : List.Forall₂ (fun x y => ∃ w, y = Entry.again x w) (exportedOf t log) log') :
    t'.reports.map Report.untimed = t.reports.map Report.untimed := by
  have hexported : (exportedOf t log).filterMap (Entry.reportStroke o) = log.filterMap (Entry.reportStroke o) := by
    apply exported_documents h
    intro x hx k hk
    obtain ⟨-, hkind⟩ := (h.genuine x hx).reportStroke_source hk
    unfold isDocument
    rw [hkind]
    exact ⟨by simp, by decide⟩
  rw [h.reports, h'.reports, Table.drawn_map untimed_key, Table.drawn_map untimed_key,
    filterMap_again reportStroke_again hagain, hexported]

theorem keyed_drawn {α κ : Type} [DecidableEq κ] {key : α → κ} (strokes : List (Stroke α κ)) :
    Table.Keyed key (drawn key [] strokes) := by
  induction strokes using List.reverseRecOn with
  | nil => exact List.nodup_nil
  | append_singleton strokes s ih =>
    rw [Table.drawn_snoc]
    exact ih.on s

theorem Told.alias_entry (h : Told o log t) {a : Alias} (ha : a ∈ t.aliases) :
    ∃ x ∈ log, x.aliasStroke o = some (.put a) ∧ a.payloadHash = x.row.payloadHash := by
  rw [h.aliases] at ha
  have hrow := (keyed_drawn _).row?_of_mem ha
  obtain ⟨before, later, hstrokes, -, -⟩ := Table.row?_drawn_eq_some.mp hrow
  have hmem : Stroke.put a ∈ log.filterMap (Entry.aliasStroke o) := by
    rw [hstrokes]
    exact List.mem_append_right _ List.mem_cons_self
  obtain ⟨x, hx, hstroke⟩ := List.mem_filterMap.mp hmem
  obtain ⟨-, hput, -⟩ := (h.genuine x hx).aliasStroke_source hstroke
  exact ⟨x, hx, hstroke, hput a rfl⟩

def standing (t : Tables) (k : Stroke Alias Text) : Bool :=
  k.left.any fun r => t.aliases.any fun a => a.payloadHash = r.payloadHash

theorem standing_exported (h : Told o log t) : (log.filterMap (Entry.aliasStroke o)).filter (standing t) =
    (exportedOf t log).filterMap (Entry.aliasStroke o) := by
  have hskips : (log.filter fun x => isSnapshotSkip t x.row).filterMap (Entry.aliasStroke o) = [] := by
    rw [List.filterMap_eq_nil_iff]
    intro x hx
    obtain ⟨hx, hskip⟩ := List.mem_filter.mp hx
    cases hk : x.aliasStroke o with
    | none => rfl
    | some k =>
      obtain ⟨-, -, hkind⟩ := (h.genuine x hx).aliasStroke_source hk
      exact absurd (hkind.symm.trans (isSnapshotSkip_kind hskip)) (by decide)
  rw [exportedOf, List.filterMap_append, hskips, List.append_nil]
  apply filter_filterMap
  intro x hx k hk
  obtain ⟨-, hput, hkind⟩ := (h.genuine x hx).aliasStroke_source hk
  have hdoc : isDocument t x.row = t.aliases.any fun a => a.payloadHash = x.row.payloadHash := by
    unfold isDocument
    rw [hkind]
    simp only [show txt "alias" ≠ txt "classify" from by decide, show txt "alias" ≠ txt "report" from by decide,
      decide_true, decide_false, Bool.false_or, Bool.true_and, Bool.or_false]
  rw [isSnapshotDoc_entry h hx, hdoc]
  cases k with
  | put r =>
    rw [← hput r rfl]
    rfl
  | delete p =>
    -- the row of another message would have this one's hash
    symm
    rw [show standing t (Stroke.delete p) = false from rfl, List.any_eq_false]
    intro a ha he
    obtain ⟨y, hy, hstroke, hhash⟩ := h.alias_entry ha
    obtain rfl := List.inj_on_of_nodup_map h.hashes hy hx (hhash.symm.trans (of_decide_eq_true he))
    rw [hstroke] at hk
    cases hk

theorem aliases_same (h : Told o log t) (h' : Told o log' t')
    (hagain : List.Forall₂ (fun x y => ∃ w, y = Entry.again x w) (exportedOf t log) log') (publisher : Text) :
    (Table.row? Alias.publisher publisher t'.aliases).map Alias.untimed =
      (Table.row? Alias.publisher publisher t.aliases).map Alias.untimed := by
  have hstanding : ∀ k ∈ log.filterMap (Entry.aliasStroke o), standing t k = true ↔ ∃ r, k = .put r ∧
      Table.row? Alias.publisher r.publisher (drawn Alias.publisher [] (log.filterMap (Entry.aliasStroke o))) = some r := by
    intro k hk
    obtain ⟨x, hx, hstroke⟩ := List.mem_filterMap.mp hk
    constructor
    · intro hstands
      cases k with
      | delete p => cases hstands
      | put r =>
        obtain ⟨-, hput, -⟩ := (h.genuine x hx).aliasStroke_source hstroke
        obtain ⟨a, ha, he⟩ := List.any_eq_true.mp hstands
        obtain ⟨y, hy, hstroke', hhash⟩ := h.alias_entry ha
        obtain rfl := List.inj_on_of_nodup_map h.hashes hy hx
          (hhash.symm.trans ((of_decide_eq_true he).trans (hput r rfl)))
        rw [hstroke] at hstroke'
        cases hstroke'
        refine ⟨r, rfl, ?_⟩
        rw [← h.aliases]
        rw [h.aliases] at ha ⊢
        exact (keyed_drawn _).row?_of_mem ha
    · rintro ⟨r, rfl, hr⟩
      rw [← h.aliases] at hr
      exact List.any_eq_true.mpr ⟨r, (Table.row?_some hr).1, decide_eq_true rfl⟩
  rw [← Table.row?_map untimed_publisher, h'.aliases, Table.drawn_map untimed_publisher,
    filterMap_again aliasStroke_again hagain, ← Table.drawn_map (t := []) untimed_publisher,
    Table.row?_map untimed_publisher, ← standing_exported h, Table.row?_drawn_standing hstanding, h.aliases]

theorem untimed_cid (s : Skip) : (Skip.untimed s).cid = s.cid := rfl

theorem isVerdict_untimed (s : Skip) : isVerdict (Skip.untimed s) = isVerdict s := rfl

theorem verdictOn_eq (cid : Text) (t : Tables) :
    verdictOn cid t = (Table.row? Skip.cid cid (t.skips.map Skip.untimed)).filter isVerdict := by
  rw [verdictOn, Table.row?_map untimed_cid]
  cases Table.row? Skip.cid cid t.skips with
  | none => rfl
  | some s =>
    rw [Option.map_some, Option.filter_some, Option.filter_some, isVerdict_untimed]
    split_ifs <;> rfl

theorem verdicts_same (h : Told o log t) (h' : Retold o log' t')
    (hagain : List.Forall₂ (fun x y => ∃ w, y = Entry.again x w) (exportedOf t log) log') (cid : Text) :
    verdictOn cid t' = verdictOn cid t := by
  let judged : Text → Bool := fun cid => t.skips.any fun s => s.cid = cid && isVerdict s
  have hdocs : (log.filter fun x => isSnapshotDoc t x.row).filterMap (Entry.skipStroke o) = [] := by
    rw [List.filterMap_eq_nil_iff]
    intro x hx
    obtain ⟨hx, hdoc⟩ := List.mem_filter.mp hx
    cases hk : x.skipStroke o with
    | none => rfl
    | some k =>
      obtain ⟨-, -, hkind⟩ := (h.genuine x hx).skipStroke_source hk
      have hlogged := (h.genuine x hx).logged
      rw [isSnapshotDoc_entry h hx] at hdoc
      exact absurd (hlogged.kind.trans (congrArg some hkind)) (not_skipLine hlogged hdoc)
  have hexported : (exportedOf t log).filterMap (Entry.skipStroke o) =
      (log.filterMap (Entry.skipStroke o)).filter fun k => judged (k.target Skip.cid) := by
    rw [exportedOf, List.filterMap_append, hdocs, List.nil_append]
    symm
    apply filter_filterMap
    intro x hx k hk
    obtain ⟨htarget, -, hkind⟩ := (h.genuine x hx).skipStroke_source hk
    rw [htarget, isSnapshotSkip, (h.genuine x hx).logged.signed, hkind, decide_eq_true rfl, Bool.true_and, Bool.true_and]
    rfl
  have hdrawn : Table.row? Skip.cid cid (t'.skips.map Skip.untimed) = (if judged cid = true then
      Table.row? Skip.cid cid (drawn Skip.cid [] (log.filterMap (Entry.skipStroke o))) else none).map Skip.untimed := by
    rw [h'.whole, Table.drawn_map untimed_cid, filterMap_again skipStroke_again hagain,
      ← Table.drawn_map (t := []) untimed_cid, hexported, ← List.filter_nil (p := fun s : Skip => judged s.cid),
      ← Table.drawn_filter Skip.cid judged, Table.row?_map untimed_cid, Table.row?_filter_key]
    rfl
  rw [verdictOn_eq, hdrawn]
  by_cases hjudged : judged cid = true
  · obtain ⟨s, hs, hverdict⟩ := List.any_eq_true.mp hjudged
    rw [Bool.and_eq_true, decide_eq_true_eq] at hverdict
    obtain ⟨rfl, hverdict⟩ := hverdict
    rw [if_pos hjudged, h.skips s hs, verdictOn, h.keyed.row?_of_mem hs, Option.filter_some, if_pos hverdict]
    exact (Option.filter_some ..).trans (if_pos hverdict)
  · rw [if_neg hjudged, verdictOn]
    cases hrow : Table.row? Skip.cid cid t.skips with
    | none => rfl
    | some s =>
      obtain ⟨hs, hcid⟩ := Table.row?_some hrow
      have hnot : ¬isVerdict s = true := by
        intro hverdict
        exact hjudged (List.any_eq_true.mpr ⟨s, hs, by rw [decide_eq_true hcid, hverdict]; rfl⟩)
      rw [Option.filter_some, if_neg hnot]
      rfl

end Agreement

section Convergence

variable {o : Observer} {log : List Entry} {t : Tables}

theorem agrees_served (h : Told o log t) (htimes : Timely log) {limit : ℤ} (hlimit : (t.messages.length : ℤ) ≤ limit)
    {served : List (Surroundings × Text)} (hserved : served.map Prod.snd = snapshotLines t limit) :
    ∃ log', List.Forall₂ (fun x y => ∃ w, y = Entry.again x w) (exportedOf t log) log' ∧
      (log'.map fun x => x.row.receivedAt) = (served.map fun p => p.1.receivedAt) ∧
      Retold o log' (caughtUp o served).view ∧ Agrees t (caughtUp o served).view := by
  have hexported : ∀ x ∈ exportedOf t log, x.Genuine o := by
    intro x hx
    obtain hx | hx := List.mem_append.mp hx
    · exact h.genuine x (List.mem_of_mem_filter hx)
    · exact h.genuine x (List.mem_of_mem_filter hx)
  have hhashes : (([] ++ exportedOf t log).map fun x : Entry => x.row.payloadHash).Nodup := h.exported_hashes
  obtain ⟨log', hagain, hreceived, h'⟩ := retold_served retold_fresh hexported hhashes (hserved.trans (h.exported htimes hlimit))
  have hclassifies : List.Forall₂ SameClassify t.classifies (caughtUp o served).view.classifies := by
    have hsame := classifies_again (o := o) hagain
    rw [exported_documents h] at hsame
    · rw [h.classifies, caughtUp, h'.classifies]
      exact hsame
    · intro x hx c hc
      obtain ⟨-, -, -, -, hkind, -⟩ := (h.genuine x hx).classifyRow_source hc
      unfold isDocument
      rw [hkind]
      exact ⟨by simp, by decide⟩
  exact ⟨log', hagain, hreceived, h', hclassifies, docs_same h h'.toTold hclassifies, reports_same h h'.toTold hagain,
    aliases_same h h'.toTold hagain, verdicts_same h h' hagain⟩

/-- A node that takes in the snapshot of another one, all of its log in reach, comes to the same catalog. -/
theorem catch_up_converges (o : Observer) {calls : List Call} (hs : Storable o) (hheard : ∀ c ∈ calls, Heard o c)
    (hsorted : (calls.filterMap Call.received).Pairwise (· < ·))
    {limit : ℤ} (hlimit : ((run (step o) fresh calls).view.messages.length : ℤ) ≤ limit)
    {served : List (Surroundings × Text)} (hserved : served.map Prod.snd = snapshotLines (run (step o) fresh calls).view limit) :
    Agrees (run (step o) fresh calls).view (caughtUp o served).view := by
  obtain ⟨log, h, htimes⟩ := told_from_fresh hs hheard hsorted
  obtain ⟨-, -, -, -, hagrees⟩ := agrees_served h htimes hlimit hserved
  exact hagrees

end Convergence

section Sample

theorem sampleObserver_storable : Storable sampleObserver where
  realText x := by
    intro c hc
    have hlt : c < 128 := by
      cases x with
      | fin q => exact numText_ascii (.float (.fin q)) c hc
      | negZero => exact numText_ascii (.float .negZero) c hc
      | inf neg => exact (by cases neg <;> decide : ∀ c ∈ (Binary64.inf neg).repr, c < 128) c hc
      | nan => exact (by decide : ∀ c ∈ Binary64.nan.repr, c < 128) c hc
    unfold isSurrogate
    simp only [Bool.and_eq_false_iff, decide_eq_false_iff_not]
    omega
  numericText _ ht := ht
  fields := by
    intro f hf c hc
    revert f c
    decide
  fieldAliases := nofun

def classifyHeard (publisher : String) : Bytes :=
  ascii ("\x7b\"kind\":\"classify\",\"cid\":\"f0155000101\",\"topic\":\"waves\",\"publisher\":\"" ++ publisher ++
    "\",\"sig\":\"00\"\x7d")

def sampleCalls : List Call :=
  [.ingest ⟨1, 1, 1, .ok ()⟩ ((loadsBytes sampleObserver.py (classifyHeard "12D3KooWHost")).toOption.getD .null),
    .ingest ⟨2, 2, 2, .ok ()⟩ ((loadsBytes sampleObserver.py (classifyHeard "12D3KooWPeer")).toOption.getD .null),
    .ingest ⟨3, 3, 3, .ok ()⟩ ((loadsBytes sampleObserver.py (skipLine "12D3KooWPeer")).toOption.getD .null),
    .blacklist (txt "12D3KooWMine") (txt "12D3KooWHost") 4, .unblacklist (txt "12D3KooWHost"), .expire 5 5]

theorem heard_of {o : Observer} {w : Surroundings} {data : Bytes}
    (h : (loadsBytes o.py data).toOption.any (fun v => (v.get (txt "sig")).isSome) = true) :
    Heard o (.ingest w ((loadsBytes o.py data).toOption.getD .null)) := by
  obtain ⟨v, hv, h⟩ := some_of_any h
  rw [hv]
  exact ⟨⟨data, toOption_eq_some hv⟩, h⟩

theorem sampleCalls_heard : ∀ c ∈ sampleCalls, Heard sampleObserver c := by
  simp only [sampleCalls, List.forall_mem_cons, List.not_mem_nil, false_implies, implies_true, and_true]
  exact ⟨heard_of (by decide +kernel), heard_of (by decide +kernel), heard_of (by decide +kernel), trivial, trivial, trivial⟩

theorem catch_up_converges_sample : Agrees (run (step sampleObserver) fresh sampleCalls).view (caughtUp sampleObserver
    ((snapshotLines (run (step sampleObserver) fresh sampleCalls).view 2).map fun text => (sampleSurroundings, text))).view := by
  refine catch_up_converges sampleObserver sampleObserver_storable sampleCalls_heard (by decide +kernel) (?_ : _ ≤ (2 : ℤ)) ?_
  · decide +kernel
  · rw [List.map_map]
    exact List.map_id _

end Sample

end ObserverClub.Store
