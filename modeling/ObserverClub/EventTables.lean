import ObserverClub.Clocks
import ObserverClub.FirstSeen

namespace ObserverClub.Store

open Library Python Sqlite Catalog

def Deed.kind : Deed → Text
  | .classify _ _ => txt "classify"
  | .rename _ => txt "alias"
  | .skip _ _ => txt "skip"
  | .claim _ => txt "claim"
  | .report _ => txt "report"

theorem deedOf_kind {o : Observer} {w : Surroundings} {kind : Text} {obj : Value} {deed : Deed} (hk : kind ∈ kinds)
    (h : deedOf o w kind obj = .ok deed) : deed.kind = kind := by
  unfold deedOf at h
  rcases kinds_cases hk with rfl | rfl | rfl | rfl | rfl
  · rw [if_neg (by decide), if_neg (by decide), if_neg (by decide), if_pos rfl, map_eq_ok] at h
    obtain ⟨x, -, rfl⟩ := h
    rfl
  · rw [if_neg (by decide), if_neg (by decide), if_pos rfl] at h
    simp only [bind_eq_ok] at h
    obtain ⟨_, -, _, -, h⟩ := h
    cases h
    rfl
  · rw [if_pos rfl] at h
    obtain ⟨d, -, hrest⟩ := bind_eq_ok.mp h
    obtain ⟨c, -, hdeed⟩ := bind_eq_ok.mp hrest
    cases hdeed
    rfl
  · rw [if_neg (by decide), if_pos rfl] at h
    simp only [bind_eq_ok] at h
    obtain ⟨_, -, _, -, h⟩ := h
    cases h
    rfl
  · rw [if_neg (by decide), if_neg (by decide), if_neg (by decide), if_neg (by decide)] at h
    cases h
    rfl

namespace Event

variable (e : Event) (w : Surroundings)

def inClassifies (rows : List Classify) : List Classify :=
  match e.deed with
  | .classify d c => Table.putNew Classify.payloadHash (e.classified d c w) rows
  | _ => rows

def classifyRows : List Classify :=
  match e.deed with
  | .classify d c => [e.classified d c w]
  | _ => []

def inDocs (rows : List Doc) : List Doc :=
  match e.deed with
  | .classify d _ => Table.putNew Doc.cid ⟨nextRowid rows, e.cid, e.publisher, d, w.receivedAt⟩ rows
  | _ => rows

def inSkips (rows : List Skip) : List Skip :=
  match e.deed with
  | .skip mimeType reason => Table.put Skip.cid ⟨e.cid, e.publisher, mimeType, reason, w.receivedAt⟩ rows
  | _ => rows

def inReports (rows : List Report) : List Report :=
  match e.deed with
  | .report reason =>
    if reason = txt "clear" then Table.delete Report.key (e.cid, e.publisher) rows
    else Table.put Report.key ⟨e.cid, e.publisher, reason, w.receivedAt⟩ rows
  | _ => rows

def inAliases (rows : List Alias) : List Alias :=
  match e.deed with
  | .rename name =>
    if name = [] then Table.delete Alias.publisher e.publisher rows
    else Table.put Alias.publisher ⟨e.publisher, name.take 32, e.payloadHash, w.receivedAt⟩ rows
  | _ => rows

structure Entered (t t' : Tables) : Prop where
  messages : t'.messages = t.messages ++ [e.message w]
  classifies : t'.classifies = e.inClassifies w t.classifies
  docs : t'.docs = e.inDocs w t.docs
  skips : t'.skips = e.inSkips w t.skips
  reports : t'.reports = e.inReports w t.reports
  aliases : t'.aliases = e.inAliases w t.aliases
  blacklisted : t'.blacklisted = t.blacklisted

theorem effect_entered (t : Tables) : e.Entered w t (e.effect w (withMessage (e.message w) t)) := by
  unfold effect
  cases hd : e.deed with
  | classify d c =>
    obtain ⟨fts, settings, hdoc⟩ := withDoc_eq e.cid e.publisher d w.receivedAt
      (dropClaims e.cid (withClassify (e.classified d c w) (withMessage (e.message w) t)))
    dsimp only
    rw [hdoc]
    constructor <;> simp only [inClassifies, inDocs, inSkips, inReports, inAliases, hd] <;> rfl
  | rename name =>
    dsimp only [withAlias]
    split_ifs with hn <;> constructor <;> simp only [inClassifies, inDocs, inSkips, inReports, inAliases, hd, hn] <;> rfl
  | skip mimeType reason =>
    constructor <;> simp only [inClassifies, inDocs, inSkips, inReports, inAliases, hd] <;> rfl
  | claim x =>
    dsimp only
    obtain ⟨claims, hclaims⟩ := withClaim_eq e.cid e.publisher x w.now w.now' (withMessage (e.message w) t)
    rw [hclaims]
    constructor <;> simp only [inClassifies, inDocs, inSkips, inReports, inAliases, hd] <;> rfl
  | report reason =>
    dsimp only [withReport]
    split_ifs with hr <;> constructor <;> simp only [inClassifies, inDocs, inSkips, inReports, inAliases, hd, hr] <;> rfl

variable {e w} {t : Tables}

theorem take_old (h : e.payloadHash ∈ t.messages.map Message.payloadHash) : e.take w t = t := if_pos h

theorem take_entered (h : e.payloadHash ∉ t.messages.map Message.payloadHash) : e.Entered w t (e.take w t) := by
  rw [take, if_neg h]
  exact effect_entered e w t

end Event

section Sequences

variable (o : Observer)

def eventOf (t : Tables) (x : Surroundings × Value) : Option (Event × Surroundings) :=
  match read o t x.1 x.2 with
  | .ok (some e) => some (e, x.1)
  | _ => none

theorem eventOf_eq_some {t : Tables} {x : Surroundings × Value} {q : Event × Surroundings} :
    eventOf o t x = some q ↔ read o t x.1 x.2 = .ok (some q.1) ∧ q.2 = x.1 := by
  unfold eventOf
  constructor
  · intro h
    split at h
    next e he =>
      obtain rfl := Option.some.inj h
      exact ⟨he, rfl⟩
    next => cases h
  · rintro ⟨h, hw⟩
    rw [h, ← hw]

def takeAll (t : Tables) (events : List (Event × Surroundings)) : Tables :=
  events.foldl (fun t q => q.1.take q.2 t) t

/-- The connection after the messages have been ingested one by one. -/
def ingested (s : Conn) (sent : List (Surroundings × Value)) : Conn :=
  run (fun s p => (ingestMessage o p.1 p.2 s).2) s sent

theorem take_blacklisted (e : Event) (w : Surroundings) (t : Tables) : (e.take w t).blacklisted = t.blacklisted := by
  by_cases h : e.payloadHash ∈ t.messages.map Message.payloadHash
  · rw [Event.take_old h]
  · exact (Event.take_entered h).blacklisted

theorem ingested_view {t : Tables} {sent : List (Surroundings × Value)} (h : ∀ x ∈ sent, ∃ q, eventOf o t x = some q)
    {s : Conn} (hs : s.view.blacklisted = t.blacklisted) :
    (ingested o s sent).view = takeAll s.view (sent.filterMap (eventOf o t)) := by
  induction sent generalizing s with
  | nil => rfl
  | cons x sent ih =>
    rw [List.forall_mem_cons] at h
    obtain ⟨⟨q, hq⟩, hrest⟩ := h
    obtain ⟨hread, hw⟩ := (eventOf_eq_some o).mp hq
    have hview := ingestMessage_of_read o ((read_congr o hs x.1 x.2).trans hread)
    have hnext : (ingestMessage o x.1 x.2 s).2.view.blacklisted = t.blacklisted := by
      rw [hview, take_blacklisted, hs]
    have hrun := ih hrest hnext
    rw [hview] at hrun
    rw [List.filterMap_cons_some hq, takeAll, List.foldl_cons, hw]
    exact hrun

theorem takeAll_keeps {I : Tables → Prop} {events : List (Event × Surroundings)} {t : Tables} (ht : I t)
    (h : ∀ t, ∀ q ∈ events, I t → I (q.1.take q.2 t)) : I (takeAll t events) := by
  induction events generalizing t with
  | nil => exact ht
  | cons q events ih =>
    apply ih (h t q List.mem_cons_self ht)
    exact fun t q' hq' => h t q' (List.mem_cons_of_mem _ hq')

end Sequences

section Filing

def preferredRow (c : Classify) : Preferred := ⟨c.cid, c.publisher, c.description, c.receivedAt⟩

structure Filed (t : Tables) : Prop where
  recorded : ∀ c ∈ t.classifies, ∃ m ∈ t.messages, m.payloadHash = c.payloadHash
  sorted : t.classifies.Pairwise fun c d => c.receivedAt ≤ d.receivedAt
  named : ∀ c ∈ t.classifies, c.cid ≠ []
  first : ∀ cid, (Table.row? Doc.cid cid t.docs).map preferredOf = (firstOf cid t).map preferredRow
  cids : Table.Keyed Doc.cid t.docs

structure Event.Proper (e : Event) : Prop where
  kind : e.kind = e.deed.kind
  named : e.kind ≠ txt "alias" → e.cid ≠ []

theorem proper_of_read {o : Observer} {t : Tables} {w : Surroundings} {obj : Value} {e : Event}
    (h : read o t w obj = .ok (some e)) : e.Proper := by
  obtain ⟨m, ha, hc, -, -, hd, hk, -, -⟩ := (read_eq_some o).mp h
  refine ⟨hk.trans (deedOf_kind ha.known hd).symm, fun hne => ?_⟩
  obtain ⟨htruthy, hvalid⟩ := ha.valid (hk ▸ hne)
  cases hcid : m.cid with
  | str s =>
    rw [hcid] at hc htruthy
    obtain ⟨-, he⟩ := (bindText_str o).mp hc
    obtain rfl := Option.some.inj he
    exact of_decide_eq_true htruthy
  | _ =>
    rw [hcid] at hvalid
    cases hvalid

theorem inClassifies_new {t : Tables} {e : Event} {w : Surroundings}
    (hrecorded : ∀ c ∈ t.classifies, ∃ m ∈ t.messages, m.payloadHash = c.payloadHash)
    (hnew : e.payloadHash ∉ t.messages.map Message.payloadHash) : e.inClassifies w t.classifies =
      t.classifies ++ e.classifyRows w := by
  unfold Event.inClassifies Event.classifyRows
  cases e.deed with
  | classify d c =>
    apply Table.putNew_of_forall_ne
    intro r hr he
    obtain ⟨m, hm, hhash⟩ := hrecorded r hr
    exact hnew (List.mem_map.mpr ⟨m, hm, hhash.trans he⟩)
  | _ => exact (List.append_nil _).symm

theorem Filed.congr {t t' : Tables} (h : Filed t) (hc : t'.classifies = t.classifies) (hd : t'.docs = t.docs)
    (hm : ∀ m ∈ t.messages, m ∈ t'.messages) : Filed t' := by
  refine ⟨?_, ?_, ?_, ?_, ?_⟩
  · rw [hc]
    intro c hmem
    obtain ⟨m, hmem, hhash⟩ := h.recorded c hmem
    exact ⟨m, hm m hmem, hhash⟩
  · rw [hc]
    exact h.sorted
  · rw [hc]
    exact h.named
  · intro cid
    rw [firstOf, hc, hd]
    exact h.first cid
  · rw [hd]
    exact h.cids

theorem Filed.take {t : Tables} (h : Filed t) {e : Event} (he : e.Proper) {w : Surroundings}
    (hlast : ∀ c ∈ t.classifies, c.receivedAt ≤ w.receivedAt) : Filed (e.take w t) := by
  by_cases hnew : e.payloadHash ∈ t.messages.map Message.payloadHash
  · rw [Event.take_old hnew]
    exact h
  have hentered := Event.take_entered (w := w) hnew
  have hc := hentered.classifies.trans (inClassifies_new h.recorded hnew)
  have hd := hentered.docs
  have hkeep : ∀ m ∈ t.messages, m ∈ (e.take w t).messages := by
    intro m hm
    rw [hentered.messages]
    exact List.mem_append_left _ hm
  unfold Event.inDocs at hd
  unfold Event.classifyRows at hc
  cases hdeed : e.deed with
  | classify d c =>
    rw [hdeed] at hc hd
    have hkind : e.kind = txt "classify" := he.kind.trans (congrArg Deed.kind hdeed)
    refine ⟨?_, ?_, ?_, ?_, ?_⟩
    · rw [hc, hentered.messages]
      intro r hr
      obtain hr | hr := List.mem_append.mp hr
      · obtain ⟨m, hm, hhash⟩ := h.recorded r hr
        exact ⟨m, List.mem_append_left _ hm, hhash⟩
      · rw [List.mem_singleton.mp hr]
        exact ⟨e.message w, List.mem_append_right _ List.mem_cons_self, rfl⟩
    · rw [hc, List.pairwise_append]
      refine ⟨h.sorted, List.pairwise_singleton _ _, fun r hr s hs => ?_⟩
      rw [List.mem_singleton.mp hs]
      exact hlast r hr
    · rw [hc]
      intro r hr
      obtain hr | hr := List.mem_append.mp hr
      · exact h.named r hr
      · rw [List.mem_singleton.mp hr]
        exact he.named (by rw [hkind]; decide)
    · intro cid
      have hfirst := h.first cid
      rw [hd, Table.row?_putNew, firstOf, hc, List.find?_append, Option.map_or, Option.map_or]
      rw [firstOf] at hfirst
      rw [hfirst]
      congr 1
      by_cases heq : e.cid = cid
      · have hfind : List.find? (fun r => decide (r.cid = cid)) [e.classified d c w] = some (e.classified d c w) :=
          List.find?_cons_of_pos (decide_eq_true heq)
        rw [if_pos heq, hfind]
        rfl
      · have hfind : List.find? (fun r => decide (r.cid = cid)) [e.classified d c w] = none :=
          List.find?_cons_of_neg (fun hc => heq (of_decide_eq_true hc))
        rw [if_neg heq, hfind]
        rfl
    · rw [hd]
      exact h.cids.putNew _
  | _ =>
    rw [hdeed] at hc hd
    exact h.congr (hc.trans (List.append_nil _)) hd hkeep

end Filing

end ObserverClub.Store
