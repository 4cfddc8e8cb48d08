import ObserverClub.IngestSteps
import ObserverClub.Library.Runs

namespace ObserverClub.Store

open Library Python Sqlite Catalog

variable (o : Observer)

/-- `cached_count` of the search rows, where the counter is missing or is no number: they are counted. -/
def recount : Db ℤ := do
  let t ← Txn.read
  Txn.write fun t => { t with settings := Table.put Prod.fst (docsCount, decimal t.docs.length) t.settings }
  return t.docs.length

def cachedCount : Db ℤ := do
  let t ← Txn.read
  match t.settings.lookup docsCount with
  | none => recount
  | some value =>
    match intOfText value with
    | .ok n => return n
    | .error _ => recount

inductive Call where
  | ingest (w : Surroundings) (obj : Value)
  | blacklist (me publisher : Text) (now : ℚ)
  | unblacklist (publisher : Text)
  | expire (now now' : ℚ)
  | purgeSkips
  | purgeCids
  | count

/-- The time at which a call takes a message in. -/
def Call.received : Call → Option ℚ
  | .ingest w _ => some w.receivedAt
  | _ => none

def discard {α : Type} (x : Db α) : Db Unit := x >>= fun _ => pure ()

def perform : Call → Db Unit
  | .ingest w obj => discard (ingestMessage o w obj)
  | .blacklist me publisher now => discard (blacklist o me publisher now)
  | .unblacklist publisher => discard (unblacklist o publisher)
  | .expire now now' => expireClaims o now now'
  | .purgeSkips => discard purgeUnprocessableSkips
  | .purgeCids => discard (purgeInvalidCids o)
  | .count => discard cachedCount

def step (s : Conn) (c : Call) : Conn := (perform o c s).2

/-- The call does not raise. -/
def Returns (s : Conn) (c : Call) : Prop := (perform o c s).1 = .ok ()

instance (s : Conn) (c : Call) : Decidable (Returns o s c) := inferInstanceAs (Decidable (_ = _))

/-- A catalog that has just been created. -/
def fresh : Conn := ⟨{ empty with settings := [(docsCount, txt "0")] }, none⟩

section Changes

/-- `_rebuild_doc`, where it does not raise. -/
inductive Rebuilt (cid : Text) (t : Tables) : Tables → Prop
  | gone (none : classifiesOf cid t = []) : Rebuilt cid t (dropDoc cid t)
  | again {c d} (first : earliest (classifiesOf cid t) = some c) (columns : describe o c.dict c.receivedAt = .ok d) :
      Rebuilt cid t (withDoc cid c.publisher d c.receivedAt (dropDoc cid t))

inductive RebuiltAll : List Text → Tables → Tables → Prop
  | nil (t : Tables) : RebuiltAll [] t t
  | cons {cid cids t t' t''} (first : Rebuilt o cid t t') (rest : RebuiltAll cids t' t'') :
      RebuiltAll (cid :: cids) t t''

def expired (now now' : ℚ) (t : Tables) : Tables :=
  { t with
    claims := t.claims.filter fun c => after c.untilTime now
    skips := if 0 < o.skipTtlSeconds then t.skips.filter fun s =>
        ¬(orEmpty s.reason ∉ persistSkipReasons ∧ s.receivedAt < now' - o.skipTtlSeconds)
      else t.skips }

def purgedSkips (t : Tables) : Tables :=
  let cids := (t.skips.filter (fun s => orEmpty s.reason = txt "unprocessable")).map Skip.cid
  { t with
    skips := t.skips.filter (fun s => s.cid ∉ cids)
    messages := t.messages.filter (fun m => ¬(m.kind = txt "skip" ∧ m.cid ∈ cids)) }

inductive Changed : Call → Tables → Tables → Prop
  | unchanged (c : Call) (t : Tables) : Changed c t t
  | ingested {w obj m cid publisher t t'} (accepted : Acceptable o t obj m) (recorded : Recordable o t m cid publisher)
      (effect : Effect o w m cid publisher obj (withMessage (m.row cid publisher w.receivedAt) t) t') :
      Changed (.ingest w obj) t t'
  | blacklisted {me publisher now t t'} (named : trim isSpace publisher ≠ []) (other : trim isSpace publisher ≠ me)
      (rebuilt : RebuiltAll o (touchedCids (trim isSpace publisher) t)
        (dropPublisher (trim isSpace publisher) (noteBlacklisted (trim isSpace publisher) now t)) t') :
      Changed (.blacklist me publisher now) t t'
  | unblacklisted (publisher : Text) (t : Tables) : Changed (.unblacklist publisher) t
      { t with blacklisted := Table.delete Blacklisted.publisher (trim isSpace publisher) t.blacklisted }
  | expired (now now' : ℚ) (t : Tables) : Changed (.expire now now') t (expired o now now' t)
  | purgedSkips (t : Tables) : Changed .purgeSkips t (purgedSkips t)
  | purgedCids (t : Tables) : Changed .purgeCids t ((deadCids o t).foldl (fun t cid => purgeCid cid t) t)
  | counted (t : Tables) : Changed .count t
      { t with settings := Table.put Prod.fst (docsCount, decimal t.docs.length) t.settings }

end Changes

section Dropping

/-- The settings after a statistic has moved by `delta`. -/
def bumped (key : Text) (delta : ℤ) (settings : List (Text × Text)) : List (Text × Text) :=
  match settings.lookup key with
  | none => settings ++ [(key, decimalInt delta)]
  | some _ => settings.map fun p => if p.1 = key then (p.1, decimalInt (castInteger p.2 + delta)) else p

theorem addStat_eq (key : Text) (delta : ℤ) (t : Tables) :
    addStat key delta t = { t with settings := bumped key delta t.settings } := by
  rw [addStat, bumped]
  cases t.settings.lookup key <;> rfl

theorem dropDoc_eq (cid : Text) (t : Tables) :
    ∃ fts settings, dropDoc cid t = { t with docs := Table.delete Doc.cid cid t.docs, docsFts := fts, settings := settings } := by
  have hfold : ∀ (docs : List Doc) (t : Tables), ∃ fts settings, docs.foldl (fun t d =>
      addStat docsCount (-1) { t with docsFts := t.docsFts.filter (fun r => r.rowid ≠ d.rowid) }) t =
      { t with docsFts := fts, settings := settings } := by
    intro docs
    induction docs with
    | nil => exact fun t => ⟨t.docsFts, t.settings, rfl⟩
    | cons d docs ih =>
      intro t
      obtain ⟨fts, settings, h⟩ := ih { t with
        docsFts := t.docsFts.filter (fun r => r.rowid ≠ d.rowid)
        settings := bumped docsCount (-1) t.settings }
      rw [List.foldl_cons, addStat_eq, h]
      exact ⟨fts, settings, rfl⟩
  obtain ⟨fts, settings, h⟩ := hfold (t.docs.filter fun d => d.cid = cid) t
  rw [dropDoc, h]
  exact ⟨fts, settings, rfl⟩

theorem classifiesOf_dropDoc (cid cid' : Text) (t : Tables) : classifiesOf cid' (dropDoc cid t) = classifiesOf cid' t := by
  obtain ⟨fts, settings, h⟩ := dropDoc_eq cid t
  rw [h]
  rfl

end Dropping

section Returning

variable {o}

theorem discard_eq_ok {α : Type} {x : Db α} {s u : Conn} :
    discard x s = (.ok (), u) ↔ ∃ a, x s = (.ok a, u) := by
  unfold discard
  rw [Txn.bind_eq_ok]
  constructor
  · rintro ⟨a, v, hx, h⟩
    obtain ⟨-, rfl⟩ := Txn.pure_eq_ok.mp h
    exact ⟨a, hx⟩
  · rintro ⟨a, hx⟩
    exact ⟨a, u, hx, rfl⟩

theorem earliest_eq_none {cs : List Classify} : earliest cs = none ↔ cs = [] := by
  cases cs with
  | nil => exact iff_of_true rfl rfl
  | cons c cs =>
    apply iff_of_false
    · rw [earliest]
      split
      · exact nofun
      · split_ifs <;> exact nofun
    · exact List.cons_ne_nil c cs

theorem rebuildDoc_rebuilt {cid : Text} {s u : Conn} (h : rebuildDoc o cid s = (.ok (), u)) :
    Rebuilt o cid s.view u.view := by
  rw [rebuildDoc, Txn.write_bind, Txn.read_bind, Session.view_opened, classifiesOf_dropDoc] at h
  cases he : earliest (classifiesOf cid s.view) with
  | none =>
    rw [he] at h
    obtain ⟨-, rfl⟩ := Txn.pure_eq_ok.mp h
    exact .gone (earliest_eq_none.mp he)
  | some c =>
    rw [he] at h
    obtain ⟨d, hd, rfl⟩ := (upsertDoc_eq_ok o).mp h
    exact .again he hd

theorem rebuildDocs_rebuilt {cids : List Text} {s u : Conn} (h : rebuildDocs o cids s = (.ok (), u)) :
    RebuiltAll o cids s.view u.view := by
  induction cids generalizing s with
  | nil =>
    obtain ⟨-, rfl⟩ := Txn.pure_eq_ok.mp h
    exact .nil _
  | cons cid cids ih =>
    obtain ⟨_, t, hfirst, hrest⟩ := Txn.bind_eq_ok.mp h
    exact .cons (rebuildDoc_rebuilt hfirst) (ih hrest)

theorem changed_ingest {w : Surroundings} {obj : Value} {s u : Conn} {b : Bool} (h : ingestMessage o w obj s = (.ok b, u)) :
    Changed o (.ingest w obj) s.view u.view := by
  generalize hout : ingestMessage o w obj s = out at h
  have hcases := ingestMessage_cases o w obj s
  rw [hout] at hcases
  have hu : out.2.view = u.view := by rw [h]
  have hr : out.1 = .ok b := by rw [h]
  cases hcases with
  | refused _ _ =>
    rw [← hu]
    exact .unchanged _ _
  | rejected _ _ _ =>
    rw [← hu]
    exact .unchanged _ _
  | broken _ _ _ => cases hr
  | done accepted recorded effect =>
    rw [← hu]
    exact .ingested accepted recorded effect

theorem changed_blacklist {me publisher : Text} {now : ℚ} {s u : Conn} {b : Bool}
    (h : blacklist o me publisher now s = (.ok b, u)) : Changed o (.blacklist me publisher now) s.view u.view := by
  unfold blacklist at h
  split_ifs at h with hnamed hme
  · obtain ⟨-, rfl⟩ := Txn.pure_eq_ok.mp h
    exact .unchanged _ _
  · obtain ⟨-, rfl⟩ := Txn.pure_eq_ok.mp h
    exact .unchanged _ _
  · obtain ⟨_, s₁, hbind, hread⟩ := Txn.bind_eq_ok.mp h
    obtain ⟨-, rfl⟩ := Txn.lift_eq_ok.mp hbind
    rw [Txn.read_bind, Txn.write_bind, Txn.write_bind] at hread
    obtain ⟨_, s₂, hrebuild, hcommit⟩ := Txn.bind_eq_ok.mp hread
    rw [Txn.commit_bind] at hcommit
    obtain ⟨-, rfl⟩ := Txn.pure_eq_ok.mp hcommit
    exact .blacklisted hnamed hme (rebuildDocs_rebuilt hrebuild)

theorem changed_unblacklist {publisher : Text} {s u : Conn} {b : Bool} (h : unblacklist o publisher s = (.ok b, u)) :
    Changed o (.unblacklist publisher) s.view u.view := by
  unfold unblacklist at h
  split_ifs at h
  · obtain ⟨-, rfl⟩ := Txn.pure_eq_ok.mp h
    exact .unchanged _ _
  · obtain ⟨_, s₁, hattempt, h⟩ := Txn.bind_eq_ok.mp h
    obtain ⟨v, hv, rfl⟩ := Txn.attempt_eq_ok.mp hattempt
    obtain ⟨_, -, hv⟩ := bind_eq_ok.mp hv
    cases hv
    rw [Txn.commit_bind] at h
    obtain ⟨-, rfl⟩ := Txn.pure_eq_ok.mp h
    exact .unblacklisted _ _

theorem changed_expire {now now' : ℚ} {s u : Conn} (h : expireClaims o now now' s = (.ok (), u)) :
    Changed o (.expire now now') s.view u.view := by
  have hview : u.view = expired o now now' s.view := by
    unfold expireClaims at h
    rw [Txn.write_bind] at h
    unfold expired
    split_ifs at h ⊢ <;> cases h <;> rfl
  rw [hview]
  exact .expired now now' s.view

theorem changed_purgeSkips {s u : Conn} {n : ℕ} (h : purgeUnprocessableSkips s = (.ok n, u)) :
    Changed o .purgeSkips s.view u.view := by
  unfold purgeUnprocessableSkips at h
  rw [Txn.read_bind] at h
  split_ifs at h
  · obtain ⟨-, rfl⟩ := Txn.pure_eq_ok.mp h
    exact .unchanged _ _
  · cases h
    exact .purgedSkips _

theorem changed_purgeCids {s u : Conn} {n : ℕ} (h : purgeInvalidCids o s = (.ok n, u)) :
    Changed o .purgeCids s.view u.view := by
  unfold purgeInvalidCids at h
  rw [Txn.read_bind] at h
  split_ifs at h
  · obtain ⟨-, rfl⟩ := Txn.pure_eq_ok.mp h
    exact .unchanged _ _
  · cases h
    exact .purgedCids _

theorem changed_count {s u : Conn} {n : ℤ} (h : cachedCount s = (.ok n, u)) : Changed o .count s.view u.view := by
  have hrecount {n : ℤ} (h : recount s = (.ok n, u)) : Changed o .count s.view u.view := by
    cases h
    exact .counted s.view
  unfold cachedCount at h
  rw [Txn.read_bind] at h
  cases hl : s.view.settings.lookup docsCount with
  | none =>
    rw [hl] at h
    exact hrecount h
  | some value =>
    rw [hl] at h
    dsimp only at h
    cases hi : intOfText value with
    | ok n =>
      rw [hi] at h
      obtain ⟨-, rfl⟩ := Txn.pure_eq_ok.mp h
      exact .unchanged _ _
    | error e =>
      rw [hi] at h
      exact hrecount h

theorem changed_step {s : Conn} {c : Call} (h : Returns o s c) : Changed o c s.view (step o s c).view := by
  have hrun : perform o c s = (.ok (), step o s c) := Prod.ext h rfl
  cases c with
  | ingest w obj => exact (discard_eq_ok.mp hrun).elim fun _ => changed_ingest
  | blacklist me publisher now => exact (discard_eq_ok.mp hrun).elim fun _ => changed_blacklist
  | unblacklist publisher => exact (discard_eq_ok.mp hrun).elim fun _ => changed_unblacklist
  | expire now now' => exact changed_expire hrun
  | purgeSkips => exact (discard_eq_ok.mp hrun).elim fun _ => changed_purgeSkips
  | purgeCids => exact (discard_eq_ok.mp hrun).elim fun _ => changed_purgeCids
  | count => exact (discard_eq_ok.mp hrun).elim fun _ => changed_count

theorem holds_after {I : Tables → Prop} (hchange : ∀ c t t', Changed o c t t' → I t → I t') {s : Conn} (hs : I s.view)
    {calls : List Call} (h : Along (step o) (Returns o) s calls) : I (run (step o) s calls).view :=
  run_invariant (I := fun s => I s.view) (fun _ _ hI hret => hchange _ _ _ (changed_step hret) hI) hs h

end Returning

end ObserverClub.Store
