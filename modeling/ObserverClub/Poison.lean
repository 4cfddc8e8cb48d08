import ObserverClub.ClubdRuns
import ObserverClub.Wholesome

namespace ObserverClub.Ingest

open Library Python Sqlite Catalog Store

section Lines

variable (o : Observer) (blacklisted : List Blacklisted)

def Harmless (seen : List Text) (w : Surroundings) (raw : Bytes) : Prop :=
  trim isSpaceByte raw = [] ∨ Python.loadsBytes o.py (trim isSpaceByte raw) = .error .valueError ∨
    ∃ obj, Python.loadsBytes o.py (trim isSpaceByte raw) = .ok obj ∧ Wholesome o blacklisted seen w obj

/-- Every line is harmless once those before it have been ingested. -/
def Digests (seen : List Text) : List (Surroundings × Bytes) → Prop
  | [] => True
  | p :: ps => Harmless o blacklisted seen p.1 p.2 ∧
      Digests (seen ++ ((lineEvent o blacklisted p.1 p.2).map Store.Event.payloadHash).toList) ps

variable {o blacklisted} {w : Surroundings} {raw : Bytes} {c : Conn}

theorem ingestLine_returns_iff (hb : c.view.blacklisted = blacklisted) (hw : w.review = .ok ()) :
    (ingestLine o w raw c).1 = .ok () ↔ Harmless o blacklisted (payloads c.view) w raw := by
  unfold ingestLine Harmless
  split
  next hnil => exact iff_of_true rfl (.inl hnil)
  next hne =>
    rw [or_iff_right hne]
    cases hload : Python.loadsBytes o.py (trim isSpaceByte raw) with
    | error e =>
      by_cases he : e = .valueError
      · subst he
        exact iff_of_true rfl (.inl rfl)
      · constructor
        · intro h
          cases e <;> first | exact absurd rfl he | cases h
        · rintro (h | ⟨obj, h, -⟩)
          · exact absurd (Except.error.inj h) he
          · cases h
    | ok obj =>
      have hdiscard : (Store.discard (ingestMessage o w obj) c).1 = .ok () ↔ ∃ b, (ingestMessage o w obj c).1 = .ok b := by
        constructor
        · intro h
          obtain ⟨b, hb⟩ := discard_eq_ok.mp (Prod.ext h rfl)
          exact ⟨b, congrArg Prod.fst hb⟩
        · rintro ⟨b, hb⟩
          exact congrArg Prod.fst (discard_eq_ok.mpr ⟨b, Prod.ext hb rfl⟩)
      dsimp only
      rw [hdiscard, ingestMessage_returns_iff hb hw]
      constructor
      · exact fun h => .inr ⟨obj, rfl, h⟩
      · rintro (h | ⟨obj', h, hwhole⟩)
        · cases h
        · cases h
          exact hwhole

theorem ingestLine_returned (hb : c.view.blacklisted = blacklisted) (h : (ingestLine o w raw c).1 = .ok ()) :
    (ingestLine o w raw c).2.view = takeLine o blacklisted w raw c.view ∧
      (ingestLine o w raw c).2.view.blacklisted = blacklisted := by
  unfold ingestLine at h ⊢
  unfold takeLine lineEvent
  split
  next => exact ⟨rfl, hb⟩
  next hne =>
    rw [if_neg hne] at h
    cases hload : Python.loadsBytes o.py (trim isSpaceByte raw) with
    | error e =>
      rw [hload] at h
      cases e <;> exact ⟨rfl, hb⟩
    | ok obj =>
      rw [hload] at h
      obtain ⟨b, hret⟩ := discard_eq_ok.mp (Prod.ext h rfl)
      have hb' := blacklisted_ingest (congrArg Prod.fst hret)
      have hview := ingestMessage_view o (congrArg Prod.fst hret)
      rw [read_congr o (show c.view.blacklisted = (shutOut blacklisted).blacklisted from hb) w obj, taken_eq] at hview
      have hrun : (Store.discard (ingestMessage o w obj) c).2 = (ingestMessage o w obj c).2 := by
        have hsnd := congrArg Prod.snd (discard_eq_ok.mpr ⟨b, hret⟩)
        exact hsnd.trans (congrArg Prod.snd hret).symm
      dsimp only
      rw [hrun]
      exact ⟨hview, hb'.trans hb⟩

theorem payloads_takeLine (h : Text) (t : Tables) : h ∈ payloads (takeLine o blacklisted w raw t) ↔
    h ∈ payloads t ++ ((lineEvent o blacklisted w raw).map Store.Event.payloadHash).toList := by
  rw [takeLine]
  cases lineEvent o blacklisted w raw with
  | none => exact (List.append_nil _).symm ▸ Iff.rfl
  | some e =>
    rw [Option.map_some, Option.getD_some, Option.map_some, Option.toList_some, List.mem_append, List.mem_singleton,
      Store.Event.take]
    split
    next hold =>
      constructor
      · exact .inl
      · rintro (hmem | rfl)
        · exact hmem
        · exact hold
    next =>
      rw [payloads, Store.Event.effect_frame.1, withMessage, List.map_append, List.mem_append]
      exact or_congr_right List.mem_singleton

theorem Wholesome.congr {seen seen' : List Text} {obj : Value} (h : ∀ x, x ∈ seen ↔ x ∈ seen') :
    Wholesome o blacklisted seen w obj ↔ Wholesome o blacklisted seen' w obj := by
  simp only [Wholesome, h]

theorem Harmless.congr {seen seen' : List Text} (h : ∀ x, x ∈ seen ↔ x ∈ seen') :
    Harmless o blacklisted seen w raw ↔ Harmless o blacklisted seen' w raw := by
  simp only [Harmless, Wholesome.congr h]

theorem Digests.congr {seen seen' : List Text} (h : ∀ x, x ∈ seen ↔ x ∈ seen') {ps : List (Surroundings × Bytes)} :
    Digests o blacklisted seen ps ↔ Digests o blacklisted seen' ps := by
  induction ps generalizing seen seen' with
  | nil => exact Iff.rfl
  | cons p ps ih =>
    rw [Digests, Digests, Harmless.congr h]
    apply and_congr_right
    intro _
    apply ih
    intro x
    rw [List.mem_append, List.mem_append, h]

theorem perform_lines_iff {ps : List (Surroundings × Bytes)} {d : Disk} (hb : d.conn.view.blacklisted = blacklisted)
    (hw : ∀ p ∈ ps, p.1.review = .ok ()) :
    ((perform o (ps.map fun p => .line p.1 p.2) d).1 = .ok () ↔ Digests o blacklisted (payloads d.conn.view) ps) ∧
      ((perform o (ps.map fun p => .line p.1 p.2) d).1 = .ok () → ∃ c,
        (perform o (ps.map fun p => .line p.1 p.2) d).2 = { d with conn := c } ∧
        c.view = (log o blacklisted).play d.conn.view ps) := by
  induction ps generalizing d with
  | nil => exact ⟨iff_of_true rfl trivial, fun _ => ⟨d.conn, rfl, rfl⟩⟩
  | cons p ps ih =>
    rw [List.forall_mem_cons] at hw
    rw [List.map_cons, Digests, ← ingestLine_returns_iff hb hw.1]
    cases hline : (ingestLine o p.1 p.2 d.conn).1 with
    | error e =>
      have hexec : exec o d (.line p.1 p.2) = (.error e, { d with conn := (ingestLine o p.1 p.2 d.conn).2 }) := by
        rw [exec, hline]
      rw [perform_error hexec]
      constructor
      · constructor
        · intro h
          cases h
        · rintro ⟨h, -⟩
          cases h
      · intro h
        cases h
    | ok _ =>
      obtain ⟨hview, hb'⟩ := ingestLine_returned hb hline
      have hexec : exec o d (.line p.1 p.2) = (.ok (), { d with conn := (ingestLine o p.1 p.2 d.conn).2 }) := by
        rw [exec, hline]
      obtain ⟨hiff, hplayed⟩ := ih (d := { d with conn := (ingestLine o p.1 p.2 d.conn).2 }) hb' hw.2
      rw [perform_ok hexec]
      constructor
      · rw [hiff, and_iff_right rfl]
        apply Digests.congr
        intro x
        dsimp only
        rw [hview]
        exact payloads_takeLine x _
      · intro h
        obtain ⟨c, hdisk, hc⟩ := hplayed h
        refine ⟨c, hdisk, ?_⟩
        rw [hc]
        dsimp only
        rw [hview]
        rfl

theorem closing_run {cfg : Config} {r : Readings} {d d₁ : Disk} (hfiles : d₁.files = d.files) :
    ∃ d', perform o (closing cfg r d) d₁ = (.ok (), d') ∧ lines d' = [] ∧ core d'.conn.view = core d₁.conn.view := by
  unfold closing
  dsimp only
  generalize pruneInbox cfg r (advanced (jsonl d.files) d.offsets) (jsonl d.files) = removed
  generalize hsaved : removed.foldl (fun offsets name => Function.update offsets name none)
    (advanced (jsonl d.files) d.offsets) = saved
  obtain ⟨d₂, hd₂, hfiles₂, hoffsets₂, hconn₂⟩ := perform_removes (o := o) removed d₁
  rcases perform_append (o := o) (removed.map .remove) [.save saved, .expire r.expired r.expired'] d₁ with
    ⟨d', hd', happend⟩ | ⟨e, d', hd', -⟩
  · cases hd₂.symm.trans hd'
    rw [happend]
    obtain ⟨u, hu, hcore, -, -⟩ := expireClaims_run (o := o) r.expired r.expired' d₂.conn
    have hexpire : exec o { d₂ with offsets := saved } (.expire r.expired r.expired') =
        (.ok (), { d₂ with offsets := saved, conn := u }) := by rw [exec, hu]
    refine ⟨_, (perform_ok rfl).trans (perform_ok hexpire), ?_, ?_⟩
    · rw [hfiles] at hfiles₂
      exact lines_saved hfiles₂ hsaved.symm
    · exact hcore.trans (congrArg (fun c : Conn => core c.view) hconn₂)
  · cases hd₂.symm.trans hd'

end Lines

section Draining

variable (o : Observer) (cfg : Config) (r : Readings) (d : Disk)

/-- The drain returns, no complete line is left unread, and every line that is a message has been ingested. -/
structure Drains : Prop where
  returns : (drained o cfg r d).1 = .ok ()
  advances : lines (drained o cfg r d).2 = []
  ingests : ∀ raw ∈ lines d, ∀ w e, lineEvent o d.conn.view.blacklisted w raw = some e →
    e.payloadHash ∈ payloads (drained o cfg r d).2.conn.view

variable {o cfg r d}

/-- A drain gets past every line just if no line of it raises. -/
theorem drains_iff : Drains o cfg r d ↔
    Digests o d.conn.view.blacklisted (payloads d.conn.view) (timed r d) := by
  have hw : ∀ p ∈ timed r d, p.1.review = .ok () := by
    intro p hp
    obtain ⟨q, -, rfl⟩ := List.mem_map.mp hp
    exact r.queued q.2
  obtain ⟨hiff, hplayed⟩ := perform_lines_iff (o := o) (d := d) rfl hw
  rw [← hiff]
  have hdrained : drained o cfg r d = perform o ((timed r d).map (fun p => .line p.1 p.2) ++ closing cfg r d) d := rfl
  rcases perform_append (o := o) ((timed r d).map fun p => Act.line p.1 p.2) (closing cfg r d) d with
    ⟨d₁, hd₁, happend⟩ | ⟨e, d₁, hd₁, happend⟩
  · refine iff_of_true ?_ (congrArg Prod.fst hd₁)
    obtain ⟨c, hdisk, hc⟩ := hplayed (congrArg Prod.fst hd₁)
    rw [hd₁] at hdisk
    obtain rfl : d₁ = { d with conn := c } := hdisk
    obtain ⟨d', hclosing, hlines, hcore⟩ : ∃ d', perform o (closing cfg r d) { d with conn := c } = (.ok (), d') ∧
        lines d' = [] ∧ core d'.conn.view = core c.view := closing_run rfl
    rw [happend, hclosing] at hdrained
    have hmessages : d'.conn.view.messages = c.view.messages := congrArg Prod.fst hcore
    constructor
    · exact congrArg Prod.fst hdrained
    · rw [hdrained]
      exact hlines
    · intro raw hraw w e he
      rw [hdrained]
      rw [← map_snd_timed r d] at hraw
      obtain ⟨p, hp, rfl⟩ := List.mem_map.mp hraw
      rw [payloads, hmessages, hc]
      have hheld : (log o d.conn.view.blacklisted).Held p.2 ((log o d.conn.view.blacklisted).play d.conn.view (timed r d)) :=
        Replay.Log.held_of_mem hp
      exact hheld w e he
  · rw [happend] at hdrained
    apply iff_of_false
    · intro h
      have := h.returns
      rw [hdrained] at this
      cases this
    · intro h
      rw [hd₁] at h
      cases h

/-- An alias whose `cid` is an array. -/
def poisonObject : Go.Value :=
  .obj [(txt "alias", .str (txt "a")), (txt "cid", .arr [.num (txt "1")]), (txt "kind", .str (txt "alias")),
    (txt "publisher", .str (txt "12D3KooWPeer")), (txt "v", .num (txt "1"))]

def poisonLine : Bytes :=
  Go.jsonMarshal (Go.setItem poisonObject "sig"
    (.str (hexText (Clubd.sampleSum 64 (ascii "12D3KooWPeer" ++ Canon.marshal poisonObject)))))

def poisonInbox : Disk where
  files := [⟨txt "2026-01-02.jsonl", poisonLine ++ [10] ++ Clubd.aliasLine "b" ++ [10], 0⟩]
  distinct := List.nodup_singleton _
  offsets := fun _ => none
  conn := fresh

theorem not_drains : (∀ raw ∈ lines poisonInbox, ∃ m, Clubd.verify Clubd.sampleNode raw = .ok m) ∧
    Clubd.sampleNode.clubID = sampleObserver.clubID ∧
    ¬Drains sampleObserver ⟨7, 65536⟩ (sampleReadings 1000) poisonInbox := by
  have hverified : ∀ raw ∈ lines poisonInbox, (Clubd.verify Clubd.sampleNode raw).toOption.isSome = true := by
    decide +kernel
  refine ⟨?_, by decide +kernel, ?_⟩
  · intro raw hraw
    cases hm : Clubd.verify Clubd.sampleNode raw with
    | error e =>
      have := hverified raw hraw
      rw [hm] at this
      cases this
    | ok m => exact ⟨m, rfl⟩
  · intro h
    have hraised : (drained sampleObserver ⟨7, 65536⟩ (sampleReadings 1000) poisonInbox).1 = .error .sqliteError := by
      decide +kernel
    cases hraised.symm.trans h.returns

end Draining

end ObserverClub.Ingest

