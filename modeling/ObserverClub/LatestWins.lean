import ObserverClub.Library.Registers
import ObserverClub.Transactions

namespace ObserverClub.Store

open Library Library.Registers Python Sqlite Catalog

inductive Key where
  | aliasOf (publisher : Text)
  | reportOf (cid publisher : Text)
  deriving DecidableEq

def registers (t : Tables) : Key → Option Text
  | .aliasOf publisher => (Table.row? Alias.publisher publisher t.aliases).map Alias.aliasName
  | .reportOf cid publisher => (Table.row? Report.key (cid, publisher) t.reports).map Report.reason

section Messages

variable (o : Observer)

def stored (v : Value) : Text :=
  match bindText o v with
  | .ok (some t) => t
  | _ => []

/-- The name an alias message leaves, and the reason a report leaves; nothing where they take it back. -/
def writeOf (obj : Value) : Write Text Key Text where
  hash := (payloadHash o obj).toOption.getD []
  key :=
    if textOf (item obj "kind") = txt "alias" then .aliasOf (stored o (item obj "publisher"))
    else .reportOf (stored o (either (item obj "cid") (.str []))) (stored o (item obj "publisher"))
  value :=
    if textOf (item obj "kind") = txt "alias" then
      let name := (aliasName o obj).toOption.getD []
      if name = [] then none else some (name.take 32)
    else if textOf (item obj "reason") = txt "clear" then none
    else some (textOf (item obj "reason"))

/-- An alias or a report of a publisher that is not blacklisted, with values that SQLite takes. -/
def Valid (t : Tables) (w : Surroundings) (obj : Value) : Prop :=
  ∃ m cid publisher, Acceptable o t obj m ∧ (m.kind = txt "alias" ∨ m.kind = txt "report") ∧
    bindText o m.cid = .ok (some cid) ∧ bindText o m.publisher = .ok (some publisher) ∧ Binds (.str m.body) ∧
    Digestible o w m.kind obj

structure LatestWins (objs : List Value) (t : Tables) : Prop where
  aliases : ∀ p, (Table.row? Alias.publisher p t.aliases).map Alias.aliasName =
    latest (objs.map (writeOf o)) (.aliasOf p)
  reports : ∀ cid p, (Table.row? Report.key (cid, p) t.reports).map Report.reason =
    latest (objs.map (writeOf o)) (.reportOf cid p)
  abusive : ∀ cid, isAbusive t cid = true ↔
    ∃ p, latest (objs.map (writeOf o)) (.reportOf cid p) = some (txt "abusive")

theorem stored_of_bindText {v : Value} {t : Text} (h : bindText o v = .ok (some t)) : stored o v = t := by
  rw [stored, h]

theorem Acceptable.of_blacklisted {t t' : Tables} {obj : Value} {m : Accepted} (h : Acceptable o t obj m)
    (hb : t'.blacklisted = t.blacklisted) : Acceptable o t' obj m :=
  { h with
    listed := by
      have := h.listed
      rw [isBlacklisted] at this ⊢
      rw [hb]
      exact this }

end Messages

section Registers

theorem registers_withAlias (publisher hash name : Text) (now : ℚ) (t : Tables) :
    registers (withAlias publisher hash name now t) =
      Function.update (registers t) (.aliasOf publisher) (if name = [] then none else some (name.take 32)) := by
  funext k
  rw [withAlias]
  cases k with
  | aliasOf p =>
    by_cases hp : p = publisher
    · subst hp
      split <;> simp [registers, Table.row?_delete, Table.row?_put]
    · rw [Function.update_of_ne (by simpa using hp)]
      split <;> simp [registers, Table.row?_delete, Table.row?_put, hp]
  | reportOf cid p =>
    rw [Function.update_of_ne (by simp)]
    split <;> rfl

theorem registers_withReport (cid publisher reason : Text) (now : ℚ) (t : Tables) :
    registers (withReport cid publisher reason now t) =
      Function.update (registers t) (.reportOf cid publisher) (if reason = txt "clear" then none else some reason) := by
  funext k
  rw [withReport]
  cases k with
  | aliasOf p =>
    rw [Function.update_of_ne (by simp)]
    split <;> rfl
  | reportOf c p =>
    by_cases hp : (c, p) = (cid, publisher)
    · cases hp
      split <;> simp [registers, Table.row?_delete, Table.row?_put, Report.key]
    · rw [Function.update_of_ne (by simpa using hp)]
      split
      · simp [registers, Table.row?_delete, hp]
      · rw [registers, Table.row?_put, if_neg (by exact hp)]
        rfl

theorem isAbusive_iff {t : Tables} (h : Table.Keyed Report.key t.reports) (cid : Text) :
    isAbusive t cid = true ↔ ∃ p, registers t (.reportOf cid p) = some (txt "abusive") := by
  simp only [isAbusive, List.any_eq_true, Bool.and_eq_true, decide_eq_true_eq, registers, Option.map_eq_some_iff]
  constructor
  · rintro ⟨r, hr, rfl, ha⟩
    exact ⟨r.publisher, r, h.row?_of_mem hr, ha⟩
  · rintro ⟨p, r, hr, ha⟩
    obtain ⟨hr, hk⟩ := Table.row?_some hr
    exact ⟨r, hr, congrArg Prod.fst hk, ha⟩

end Registers

section Following

variable (o : Observer)

structure Follows (b : List Blacklisted) (s : Conn) (r : Registers.Store Text Key Text) : Prop where
  blacklisted : s.view.blacklisted = b
  seen : ∀ h, h ∈ r.seen ↔ ∃ m ∈ s.view.messages, m.payloadHash = h
  registers : registers s.view = r.registers
  keyed : Table.Keyed Report.key s.view.reports

theorem follows_step {b : List Blacklisted} {t₀ : Tables} (hb : t₀.blacklisted = b) {s : Conn}
    {r : Registers.Store Text Key Text} (h : Follows b s r) (w : Surroundings) (obj : Value)
    (hv : Valid o t₀ w obj) : Follows b (ingestMessage o w obj s).2 (r.take (writeOf o obj)) := by
  obtain ⟨m, cid, publisher, hm, hkind, hcid, hpub, hbody, hd⟩ := hv
  replace hm := hm.of_blacklisted o (h.blacklisted.trans hb.symm)
  have hhash : (writeOf o obj).hash = m.payloadHash := by
    rw [writeOf, hm.hash]
    rfl
  have hunique : ∀ {m'}, Acceptable o s.view obj m' → m' = m := by
    intro m' hm'
    simpa using ((accept_eq_some o).mpr hm').symm.trans ((accept_eq_some o).mpr hm)
  have hcases := ingestMessage_cases o w obj s
  generalize ingestMessage o w obj s = out at hcases
  cases hcases with
  | refused refusal _ => exact absurd hm (refusal m)
  | rejected accepted rejection _ =>
    obtain rfl := hunique accepted
    have hseen : (writeOf o obj).hash ∈ r.seen := by
      rw [hhash, h.seen]
      by_contra hnew
      exact rejection cid publisher ⟨hcid, hpub, hbody, by simpa using hnew⟩
    rw [Registers.Store.take, if_pos hseen]
    exact ⟨h.blacklisted, h.seen, h.registers, h.keyed⟩
  | broken accepted recorded breakage =>
    obtain rfl := hunique accepted
    obtain ⟨t, ht⟩ := (digestible_iff o hm.known).mp hd
    exact absurd ht (breakage t)
  | @done m' cid' publisher' t accepted recorded effect =>
    obtain rfl := hunique accepted
    obtain rfl : cid' = cid := by simpa using recorded.cid.symm.trans hcid
    obtain rfl : publisher' = publisher := by simpa using recorded.publisher.symm.trans hpub
    have hnew : (writeOf o obj).hash ∉ r.seen := by
      rw [hhash, h.seen]
      rintro ⟨x, hx, he⟩
      exact recorded.new x hx he
    rw [Registers.Store.take, if_neg hnew, hhash]
    have hstored := stored_of_bindText o (hm.publisher ▸ hpub)
    have hseen : ∀ x, x ∈ m'.payloadHash :: r.seen ↔ ∃ y ∈ t.messages, y.payloadHash = x := by
      intro x
      simp only [effect.messages, List.mem_cons, h.seen, withMessage, List.mem_append, List.not_mem_nil,
        or_false]
      constructor
      · rintro (rfl | ⟨y, hy, hx⟩)
        · exact ⟨_, .inr rfl, rfl⟩
        · exact ⟨y, .inl hy, hx⟩
      · rintro ⟨y, hy | rfl, hx⟩
        · exact .inr ⟨y, hy, hx⟩
        · exact .inl hx.symm
    obtain hk | hk := hkind
    · obtain ⟨name, hn, -, rfl⟩ := effect.of_alias hk
      have hw : writeOf o obj = ⟨m'.payloadHash, .aliasOf publisher', if name = [] then none else some (name.take 32)⟩ := by
        rw [← hhash, writeOf, hm.kind, hk, hstored, hn]
        rfl
      refine ⟨?_, hseen, ?_, ?_⟩
      · refine Eq.trans ?_ h.blacklisted
        rw [Session.view_closed, withAlias]
        split <;> rfl
      · rw [hw, Session.view_closed, registers_withAlias]
        exact congrArg (Function.update · _ _) h.registers
      · rw [Session.view_closed, withAlias]
        split <;> exact h.keyed
    · obtain rfl := effect.of_report hk
      have hcid' := stored_of_bindText o (hm.cid ▸ hcid)
      have hw : writeOf o obj = ⟨m'.payloadHash, .reportOf cid' publisher',
          if textOf (item obj "reason") = txt "clear" then none else some (textOf (item obj "reason"))⟩ := by
        rw [← hhash, writeOf, hm.kind, hk, hstored, hcid']
        rfl
      refine ⟨?_, hseen, ?_, ?_⟩
      · refine Eq.trans ?_ h.blacklisted
        rw [Session.view_closed, withReport]
        split <;> rfl
      · rw [hw, Session.view_closed, registers_withReport]
        exact congrArg (Function.update · _ _) h.registers
      · rw [Session.view_closed, withReport]
        split
        · exact Table.Keyed.delete h.keyed _
        · exact Table.Keyed.put h.keyed _

/-- The catalog after the messages have been ingested one by one, as its connection sees it. -/
def ingestAll (t : Tables) (sent : List (Surroundings × Value)) : Tables :=
  (run (fun s p => (ingestMessage o p.1 p.2 s).2) ⟨t, none⟩ sent).view

theorem follows_ingestAll {t : Tables} (hm : t.messages = []) (ha : t.aliases = []) (hr : t.reports = [])
    {sent : List (Surroundings × Value)} (hv : ∀ p ∈ sent, Valid o t p.1 p.2) :
    registers (ingestAll o t sent) = latest (firsts [] ((sent.map Prod.snd).map (writeOf o))) ∧
      Table.Keyed Report.key (ingestAll o t sent).reports := by
  have h0 : Follows t.blacklisted ⟨t, none⟩ ⟨[], fun _ => none⟩ := by
    refine ⟨rfl, by simp [hm], ?_, by simp [Table.Keyed, hr]⟩
    funext k
    cases k <;> simp [registers, ha, hr, Table.row?]
  have h := run_simulates (R := Follows t.blacklisted) (Q := fun p : Surroundings × Value => Valid o t p.1 p.2)
    (fun p => writeOf o p.2)
    (fun _ _ p hs hq => follows_step o rfl hs p.1 p.2 hq) h0 hv
  constructor
  · rw [ingestAll, h.registers, registers_eq_latest, List.map_map]
    rfl
  · exact h.keyed

/-- Under every key, the last message says what the last message with a new payload said. -/
def Settled (objs : List Value) : Prop :=
  ∀ k, latest (firsts [] (objs.map (writeOf o))) k = latest (objs.map (writeOf o)) k

theorem latestWins_iff_settled {t : Tables} (hm : t.messages = []) (ha : t.aliases = []) (hr : t.reports = [])
    (sent : List (Surroundings × Value)) (hv : ∀ p ∈ sent, Valid o t p.1 p.2) :
    LatestWins o (sent.map Prod.snd) (ingestAll o t sent) ↔ Settled o (sent.map Prod.snd) := by
  obtain ⟨hreg, hkeyed⟩ := follows_ingestAll o hm ha hr hv
  constructor
  · intro h k
    rw [← hreg]
    cases k with
    | aliasOf p => exact h.aliases p
    | reportOf cid p => exact h.reports cid p
  · intro h
    have hk : ∀ k, registers (ingestAll o t sent) k = latest ((sent.map Prod.snd).map (writeOf o)) k := by
      intro k
      rw [hreg, h k]
    refine ⟨fun p => hk (.aliasOf p), fun cid p => hk (.reportOf cid p), ?_⟩
    intro cid
    rw [isAbusive_iff hkeyed]
    simp only [hk]

end Following

section Sample

def reportObject (reason : String) : Value :=
  .obj [(txt "kind", .str (txt "report")), (txt "cid", .str (txt "f0155000100")),
    (txt "publisher", .str (txt "12D3KooWPeer")), (txt "reason", .str (txt reason))]

def sent (reasons : List String) : List (Surroundings × Value) :=
  reasons.map fun r => (sampleSurroundings, reportObject r)

theorem valid_report (reason : String) (h : ((accept sampleObserver empty (reportObject reason)).toOption.bind id).any
    (fun m => m.kind = txt "report" && decide (bindText sampleObserver m.cid = .ok (some (txt "f0155000100"))) &&
      decide (bindText sampleObserver m.publisher = .ok (some (txt "12D3KooWPeer"))) &&
      m.body.all (fun c => !isSurrogate c)) = true) :
    Valid sampleObserver empty sampleSurroundings (reportObject reason) := by
  obtain ⟨m, hm, h⟩ := some_of_any h
  simp only [Bool.and_eq_true, decide_eq_true_eq, List.all_eq_true, Bool.not_eq_true'] at h
  obtain ⟨⟨⟨hk, hc⟩, hp⟩, hb⟩ := h
  have ha : accept sampleObserver empty (reportObject reason) = .ok (some m) := by
    cases hx : accept sampleObserver empty (reportObject reason) with
    | error e => simp [hx, Except.toOption] at hm
    | ok a => simpa [hx, Except.toOption] using hm
  refine ⟨m, _, _, (accept_eq_some _).mp ha, .inr hk, hc, hp, hb, ?_⟩
  rw [hk]
  exact ⟨fun h => absurd h (by decide), fun h => absurd h (by decide), fun h => absurd h (by decide),
    fun h => absurd h (by decide)⟩

theorem valid_sent {reasons : List String} (h : ∀ r ∈ reasons, r ∈ ["abusive", "clear"]) :
    ∀ p ∈ sent reasons, Valid sampleObserver empty p.1 p.2 := by
  intro p hp
  obtain ⟨r, hr, rfl⟩ := List.mem_map.mp hp
  have := h r hr
  simp only [List.mem_cons, List.not_mem_nil, or_false] at this
  obtain rfl | rfl := this
  · exact valid_report _ (by decide +kernel)
  · exact valid_report _ (by decide +kernel)

theorem latestWins_iff_settled_report :
    LatestWins sampleObserver ((sent ["abusive", "clear"]).map Prod.snd)
        (ingestAll sampleObserver empty (sent ["abusive", "clear"])) ↔
      Settled sampleObserver ((sent ["abusive", "clear"]).map Prod.snd) :=
  latestWins_iff_settled _ rfl rfl rfl _ (valid_sent (by simp))

theorem not_latestWins : (∀ p ∈ sent ["abusive", "clear", "abusive"], Valid sampleObserver empty p.1 p.2) ∧
    ¬LatestWins sampleObserver ((sent ["abusive", "clear", "abusive"]).map Prod.snd)
      (ingestAll sampleObserver empty (sent ["abusive", "clear", "abusive"])) := by
  refine ⟨valid_sent (by simp), ?_⟩
  intro h
  have hr := h.reports (txt "f0155000100") (txt "12D3KooWPeer")
  revert hr
  decide +kernel

end Sample

end ObserverClub.Store
