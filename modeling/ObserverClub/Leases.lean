import ObserverClub.Together

/-!
The one claim of each publisher, as clubd tracks it and as the catalog's rows have it.
-/

namespace ObserverClub.Together

open Library Clubd

section Times

def Reads (x : Binary64) (untilTime : Time) : Prop := ∃ q : ℚ, x = .fin q ∧ (q + Go.unixToInternal) * second = untilTime

def Live (now : Time) (r : Catalog.Claim) : Prop := Store.after r.untilTime (unixTime now) = true

/-- A lease until `x` is never live at or after the instant. -/
def EndsBy (x : Binary64) (untilTime : Time) : Prop := ∀ now, Store.after x (unixTime now) = true → now < untilTime

theorem second_pos : (0 : ℚ) < (second : Time) := by
  unfold second
  norm_num

theorem unixTime_le {now now' : Time} (h : now ≤ now') : unixTime now ≤ unixTime now' := by
  unfold unixTime
  have hcast : (now : ℚ) ≤ now' := Int.cast_le.mpr h
  apply sub_le_sub_right
  exact div_le_div_of_nonneg_right hcast second_pos.le

theorem live_of_le {now now' : Time} (h : now ≤ now') {r : Catalog.Claim} (hr : Live now' r) : Live now r := by
  have hle := unixTime_le h
  unfold Live Store.after at hr ⊢
  cases hx : r.untilTime with
  | fin q =>
    rw [hx] at hr
    exact decide_eq_true (lt_of_le_of_lt hle (of_decide_eq_true hr))
  | negZero =>
    rw [hx] at hr
    exact decide_eq_true (lt_of_le_of_lt hle (of_decide_eq_true hr))
  | inf neg =>
    rw [hx] at hr
    exact hr
  | nan =>
    rw [hx] at hr
    exact hr

theorem after_iff {x : Binary64} {untilTime now : Time} (h : Reads x untilTime) :
    Store.after x (unixTime now) = true ↔ now < untilTime := by
  obtain ⟨q, rfl, hq⟩ := h
  have hiff : unixTime now < q ↔ (now : ℚ) < untilTime := by
    rw [← hq, unixTime, sub_lt_iff_lt_add, div_lt_iff₀ second_pos]
  rw [Store.after, decide_eq_true_iff, hiff, Int.cast_lt]

theorem endsBy_of_reads {x : Binary64} {untilTime : Time} (h : Reads x untilTime) : EndsBy x untilTime :=
  fun _ => (after_iff h).mp

end Times

section Leading

def Led (now : Time) (claims : Claims.ClaimTracker) (t : Catalog.Tables) : Prop :=
  ∀ r ∈ t.claims, Live now r →
    ∃ slot, claims.live r.publisher = some slot ∧ slot.cid = r.cid ∧ EndsBy r.untilTime slot.untilTime

structure Spared (now : Time) (m : Go.Value) (t : Catalog.Tables) : Prop where
  renewed : kindOf m = txt "claim" → ∀ r ∈ t.claims, Live now r → r.publisher = pubOf m → r.cid = cidOf m →
    EndsBy r.untilTime (Claims.untilOf m)
  undone : kindOf m = txt "classify" ∨ kindOf m = txt "skip" → ∀ r ∈ t.claims, Live now r → r.publisher = pubOf m →
    cidOf m ≠ [] ∧ r.cid ≠ cidOf m

variable {now now' : Time} {claims : Claims.ClaimTracker} {t t' : Catalog.Tables} {m : Go.Value}

theorem Led.mono (h : Led now claims t) (hle : now ≤ now') (hsub : t'.claims ⊆ t.claims) : Led now' claims t' :=
  fun r hr hlive => h r (hsub hr) (live_of_le hle hlive)

theorem led_take {p c : Text} {u : Time} (hrows : ∀ r ∈ t.claims, Live now r → r.publisher ≠ p →
      ∃ slot, claims.live r.publisher = some slot ∧ slot.cid = r.cid ∧ EndsBy r.untilTime slot.untilTime)
    (hown : ∀ r ∈ t.claims, Live now r → r.publisher = p → r.cid = c ∧ EndsBy r.untilTime u) :
    Led now (Claims.take claims p c u) t := by
  intro r hr hlive
  by_cases hp : r.publisher = p
  · obtain ⟨hc, hends⟩ := hown r hr hlive hp
    refine ⟨⟨c, u⟩, ?_, hc.symm, hends⟩
    rw [Claims.live_take, if_pos hp]
  · rw [Claims.live_take, if_neg hp]
    exact hrows r hr hlive hp

theorem Led.own (h : Led now claims t) {p c : Text} {u : Time} (hfree : Claims.Free now now claims p c u)
    {r : Catalog.Claim} (hr : r ∈ t.claims) (hlive : Live now r) (hp : r.publisher = p) : r.cid = c := by
  obtain ⟨slot, hslot, hcid, hends⟩ := h r hr hlive
  rw [hp] at hslot
  rcases hfree.alone slot hslot with hover | hsame
  · exact absurd (hends now hlive) (not_lt.mpr hover)
  · exact hcid.symm.trans hsame

theorem led_policy (h : Led now claims t) (hspared : Spared now m t) :
    Led now (applyClaimPolicy now now claims m).2 t := by
  unfold applyClaimPolicy
  dsimp only
  by_cases hk : kindOf m = txt "claim"
  · rw [if_pos hk]
    rcases Claims.allow_cases now now claims (pubOf m) (cidOf m) (Claims.untilOf m) with
      ⟨-, he⟩ | ⟨-, hfree, he⟩ | ⟨-, -, he⟩
    · rw [he]
      exact h
    · rw [he]
      apply led_take
      · exact fun r hr hlive _ => h r hr hlive
      · intro r hr hlive hp
        have hcid := h.own hfree hr hlive hp
        exact ⟨hcid, hspared.renewed hk r hr hlive hp hcid⟩
    · rw [he]
      exact h
  · rw [if_neg hk]
    by_cases hdone : kindOf m = txt "classify" ∨ kindOf m = txt "skip"
    · rw [if_pos hdone]
      rcases Claims.clear_cases claims (pubOf m) (cidOf m) with ⟨⟨-, cur, hcur, hclear⟩, he⟩ | ⟨-, he⟩
      · rw [he]
        intro r hr hlive
        obtain ⟨slot, hslot, hcid, hends⟩ := h r hr hlive
        by_cases hp : r.publisher = pubOf m
        · obtain ⟨hne, hother⟩ := hspared.undone hdone r hr hlive hp
          rw [hp, hcur] at hslot
          cases hslot
          rcases hclear with hempty | hsame
          · exact absurd hempty hne
          · exact absurd (hcid.symm.trans hsame) hother
        · rw [Claims.live_release, if_neg hp]
          exact ⟨slot, hslot, hcid, hends⟩
      · rw [he]
        exact h
    · rw [if_neg hdone]
      exact h

end Leading

section Taking

variable {node : Node} {o : Observer} {a : Arrival} {m : Go.Value} {line : Bytes} {t : Catalog.Tables}
  {w : Store.Surroundings} {e : Store.Event}

theorem item_of_string {key : String} (h : Go.stringOf m key ≠ []) : Go.item m key = .str (Go.stringOf m key) := by
  unfold Go.stringOf at h ⊢
  split at h
  next s hs => exact hs
  next => exact absurd rfl h

theorem item_pythonView (key : String) : Python.item (pythonView m) key = pythonView (Go.item m key) := by
  rw [Python.item, Go.item, pythonView, Json.get_map]
  cases m.get (txt key) <;> rfl

theorem item_of_view {key : String} {s : Text} (h : Python.item (pythonView m) key = .str s) :
    Go.item m key = .str s := by
  rw [item_pythonView] at h
  cases hv : Go.item m key with
  | str t =>
    rw [hv] at h
    exact congrArg Json.str (Json.str.inj h)
  | _ =>
    rw [hv] at h
    cases h

theorem carries_publisher (hpeer : node.decodePeer [] = none) (h : Carries node a m line) :
    Go.item m "publisher" = .str (pubOf m) := by
  cases h with
  | gossip ok =>
    obtain ⟨-, hverified⟩ := verify_ok ok
    obtain ⟨sig, pid, pk, -, hpid, -, -⟩ := hverified.signed
    apply item_of_string
    intro hempty
    rw [hempty, hpeer] at hpid
    cases hpid
  | @publish request m sig ok signed =>
    obtain ⟨_, ms, -, -, -, -, -, rfl⟩ := prepare_ok ok
    have hitem : Go.item (Go.setItem (claimed node (.obj ms)) "sig" (.str (hexText sig))) "publisher" = .str node.hostID := by
      rw [item_setItem (by decide), claimed, item_setItem (by decide), item_setItem (by decide)]
      exact item_setItem_same ms
    rw [pubOf, Go.stringOf, hitem]

/-- The event that a catalog reads from a line names what clubd reads from it. -/
structure Named (m : Go.Value) (e : Store.Event) : Prop where
  kind : kindOf m = e.kind
  publisher : pubOf m = e.publisher ∧ pubOf m ≠ []
  cid : e.kind ≠ txt "alias" → cidOf m = e.cid ∧ cidOf m ≠ []

theorem named_of_read (hpub : Go.item m "publisher" = .str (pubOf m))
    (h : Store.read o t w (pythonView m) = .ok (some e)) : Named m e := by
  obtain ⟨m', ha, hc, hp, -, -, hkind, -, -⟩ := (Store.read_eq_some o).mp h
  have hk := item_of_view ha.kind
  constructor
  · rw [kindOf, hk, hkind]
    rfl
  · have hitem : Python.item (pythonView m) "publisher" = .str (pubOf m) := by
      rw [item_pythonView, hpub]
      rfl
    rw [ha.publisher, hitem] at hp
    refine ⟨(Option.some.inj ((Store.bindText_str o).mp hp).2).symm, ?_⟩
    intro hempty
    have htruthy := ha.named
    rw [hitem, hempty] at htruthy
    cases htruthy
  · intro hne
    rw [hkind] at hne
    obtain ⟨htruthy, hvalid⟩ := ha.valid hne
    obtain ⟨c, hcid⟩ : ∃ c, m'.cid = .str c := by
      cases hv : m'.cid <;> rw [hv] at hvalid <;> first | exact ⟨_, rfl⟩ | cases hvalid
    have hitem : Python.item (pythonView m) "cid" = .str c := by
      have heither := ha.cid
      rw [hcid, Python.either] at heither
      split at heither
      next => exact heither.symm
      next =>
        rw [hcid, heither] at htruthy
        cases htruthy
    have hgo := item_of_view hitem
    rw [hcid] at hc htruthy
    have hce := (Option.some.inj ((Store.bindText_str o).mp hc).2).symm
    rw [cidOf, Go.stringOf, hgo]
    refine ⟨hce, ?_⟩
    rintro rfl
    cases htruthy

theorem claims_take (h : Store.read o t w (pythonView m) = .ok (some e))
    (hnew : e.payloadHash ∉ t.messages.map Catalog.Message.payloadHash) :
    ((e.kind = txt "classify" ∨ e.kind = txt "skip") ∧ (e.take w t).claims = t.claims.filter (fun r => r.cid ≠ e.cid)) ∨
    ((e.kind = txt "alias" ∨ e.kind = txt "report") ∧ (e.take w t).claims = t.claims) ∨
    (e.kind = txt "claim" ∧ ∃ x, e.deed = .claim x ∧
      (e.take w t).claims = (Store.withClaim e.cid e.publisher x w.now w.now' (Store.withMessage (e.message w) t)).claims) := by
  obtain ⟨m', ha, -, -, -, hd, hkind, -, -⟩ := (Store.read_eq_some o).mp h
  rw [Store.Event.take, if_neg hnew, Store.Event.effect]
  unfold Store.deedOf at hd
  rcases Store.kinds_cases ha.known with hk | hk | hk | hk | hk
  · rw [hk, if_neg (by decide), if_neg (by decide), if_neg (by decide), if_pos rfl, Store.map_eq_ok] at hd
    obtain ⟨x, -, hx⟩ := hd
    refine .inr (.inr ⟨hkind.trans hk, x, hx.symm, ?_⟩)
    rw [← hx]
  · rw [hk, if_neg (by decide), if_neg (by decide), if_pos rfl] at hd
    simp only [bind_eq_ok] at hd
    obtain ⟨_, -, _, -, hx⟩ := hd
    rw [← Except.ok.inj hx]
    exact .inl ⟨.inr (hkind.trans hk), rfl⟩
  · rw [hk, if_pos rfl] at hd
    obtain ⟨d, -, hrest⟩ := bind_eq_ok.mp hd
    obtain ⟨c, -, hx⟩ := bind_eq_ok.mp hrest
    rw [← Except.ok.inj hx]
    refine .inl ⟨.inl (hkind.trans hk), ?_⟩
    obtain ⟨fts, settings, hdoc⟩ := Store.withDoc_eq e.cid e.publisher d w.receivedAt
      (Store.dropClaims e.cid (Store.withClassify (e.classified d c w) (Store.withMessage (e.message w) t)))
    dsimp only
    rw [hdoc]
    rfl
  · rw [hk, if_neg (by decide), if_pos rfl] at hd
    simp only [bind_eq_ok] at hd
    obtain ⟨name, -, _, -, hx⟩ := hd
    rw [← Except.ok.inj hx]
    refine .inr (.inl ⟨.inl (hkind.trans hk), ?_⟩)
    dsimp only
    unfold Store.withAlias
    split <;> rfl
  · rw [hk, if_neg (by decide), if_neg (by decide), if_neg (by decide), if_neg (by decide)] at hd
    rw [← Except.ok.inj hd]
    refine .inr (.inl ⟨.inr (hkind.trans hk), ?_⟩)
    dsimp only
    unfold Store.withReport
    split <;> rfl

end Taking

section Agreeing

variable (node : Node) (o : Observer)

/-- The catalog's row of the publisher is the claim. -/
def Holds (m : Go.Value) (t : Catalog.Tables) : Prop := ∃ x, Reads x (Claims.untilOf m) ∧
  Table.row? Catalog.Claim.publisher (pubOf m) t.claims = some ⟨pubOf m, cidOf m, x⟩

structure Claiming (m : Go.Value) : Prop where
  kind : kindOf m = txt "claim"
  clubd : node.cidDecode (cidOf m) = true
  catalog : Cid.valid o.upper (.str (cidOf m)) = true

/-- A claim that has just been appended is in the catalog. -/
def Agreed (s : Pair) (b : Beat) : Prop :=
  ∀ m e, Carries node b.arrival m e.line → (step node o s b).clubd.inbox = s.clubd.inbox ++ [e] →
    Claiming node o m → Holds m (step node o s b).catalog.view

/-- Tracker and catalog both take the message in, or neither loses a lease by it that the other keeps. -/
inductive Shared (s : Pair) (b : Beat) (m : Go.Value) (line : Bytes) : Prop
  | lost (written : b.written = false) (spared : Spared b.now m s.catalog.view)
  | passed (written : b.written = true) (spared : Spared b.now m s.catalog.view)
      (hover : ∀ obj ∈ Ingest.objects o.py (line ++ [10]), PassedOver o s.catalog.view b.surroundings obj)
      (held : Claiming node o m → Holds m s.catalog.view)
  | taken {e} (written : b.written = true) (authentic : Authentic o.py line m)
      (event : Store.read o s.catalog.view b.surroundings (pythonView m) = .ok (some e))
      (new : e.payloadHash ∉ s.catalog.view.messages.map Catalog.Message.payloadHash)
      (exact : ∀ x, e.deed = .claim x → Reads x (Claims.untilOf m))

/-- What gets past the claim policy is shared. -/
def InStep (s : Pair) (b : Beat) : Prop :=
  ∀ m line, Reaches node b.now s.clubd b.arrival m line → Shared node o s b m line

variable {node o}

section Taken

variable {now : Time} {claims : Claims.ClaimTracker} {m : Go.Value} {t : Catalog.Tables} {w : Store.Surroundings}
  {e : Store.Event}

theorem withClaim_free {p c : Text} {u : Time} {x : Binary64} (hled : Led now claims t)
    (hfree : Claims.Free now now claims p c u) (hx : Reads x u) :
    Store.withClaim c p x (unixTime now) (unixTime now) t =
      { t with claims := Table.put Catalog.Claim.publisher ⟨p, c, x⟩ t.claims } := by
  have hafter := (after_iff hx).mpr hfree.later
  have hother : Store.otherLease c p (unixTime now) t = false := by
    rw [Store.otherLease, List.any_eq_false]
    intro r hr hall
    simp only [Bool.and_eq_true, decide_eq_true_eq] at hall
    obtain ⟨⟨hp, hc⟩, hlive⟩ := hall
    exact hc (hled.own hfree hr hlive hp)
  rw [Store.withClaim, hafter, hother]
  rfl

theorem led_taken (hled : Led now claims t) (hadmits : Admits now now claims m) (hnamed : Named m e)
    (hw : w.now = unixTime now ∧ w.now' = unixTime now)
    (hread : Store.read o t w (pythonView m) = .ok (some e))
    (hnew : e.payloadHash ∉ t.messages.map Catalog.Message.payloadHash)
    (hexact : ∀ x, e.deed = .claim x → Reads x (Claims.untilOf m)) :
    Led now (applyClaimPolicy now now claims m).2 (e.take w t) ∧ (kindOf m = txt "claim" → Holds m (e.take w t)) := by
  rcases claims_take hread hnew with ⟨hk, hclaims⟩ | ⟨hk, hclaims⟩ | ⟨hk, x, hdeed, hclaims⟩
  · have hother : e.kind ≠ txt "alias" ∧ e.kind ≠ txt "claim" := by
      rcases hk with hk | hk <;> rw [hk] <;> decide
    obtain ⟨hcid, hset⟩ := hnamed.cid hother.1
    refine ⟨led_policy (hled.mono le_rfl ?_) ⟨?_, ?_⟩, ?_⟩
    · rw [hclaims]
      exact List.filter_subset_self _
    · exact fun hclaim => absurd (hnamed.kind.symm.trans hclaim) hother.2
    · intro _ r hr _ _
      rw [hclaims, List.mem_filter] at hr
      exact ⟨hset, hcid ▸ of_decide_eq_true hr.2⟩
    · exact fun hclaim => absurd (hnamed.kind.symm.trans hclaim) hother.2
  · have hother : e.kind ≠ txt "claim" ∧ ¬(e.kind = txt "classify" ∨ e.kind = txt "skip") := by
      rcases hk with hk | hk <;> rw [hk] <;> decide
    refine ⟨led_policy (hled.mono le_rfl ?_) ⟨?_, ?_⟩, ?_⟩
    · rw [hclaims]
      exact List.Subset.refl _
    · exact fun hclaim => absurd (hnamed.kind.symm.trans hclaim) hother.1
    · intro hdone
      rw [hnamed.kind] at hdone
      exact absurd hdone hother.2
    · exact fun hclaim => absurd (hnamed.kind.symm.trans hclaim) hother.1
  · have hkind : kindOf m = txt "claim" := hnamed.kind.trans hk
    have hne : e.kind ≠ txt "alias" := by
      rw [hk]
      decide
    obtain ⟨hcid, hset⟩ := hnamed.cid hne
    have hfree := hadmits hkind hnamed.publisher.2 hset
    have hled' : Led now claims (Store.withMessage (e.message w) t) := hled
    rw [hw.1, hw.2, ← hcid, ← hnamed.publisher.1, withClaim_free hled' hfree (hexact x hdeed)] at hclaims
    have hrow : Table.row? Catalog.Claim.publisher (pubOf m) (e.take w t).claims = some ⟨pubOf m, cidOf m, x⟩ := by
      rw [hclaims]
      exact (Table.row?_put _ _ _).trans (if_pos rfl)
    constructor
    · have hpolicy : (applyClaimPolicy now now claims m).2 = Claims.take claims (pubOf m) (cidOf m) (Claims.untilOf m) := by
        unfold applyClaimPolicy
        rw [if_pos hkind]
        rcases Claims.allow_cases now now claims (pubOf m) (cidOf m) (Claims.untilOf m) with
          ⟨hunset, -⟩ | ⟨-, -, he⟩ | ⟨-, hbusy, -⟩
        · exact absurd hunset (not_or.mpr ⟨hnamed.publisher.2, hset⟩)
        · exact congrArg Prod.snd he
        · exact absurd hfree hbusy
      rw [hpolicy]
      apply led_take
      · intro r hr hlive hp
        rw [hclaims, Table.mem_put] at hr
        rcases hr with ⟨hr, -⟩ | rfl
        · exact hled r hr hlive
        · exact absurd rfl hp
      · intro r hr hlive hp
        rw [hclaims, Table.mem_put] at hr
        rcases hr with ⟨-, hother⟩ | rfl
        · exact absurd hp hother
        · exact ⟨rfl, endsBy_of_reads (hexact x hdeed)⟩
    · exact fun _ => ⟨x, hexact x hdeed, hrow⟩

end Taken

theorem led_step (hpeer : node.decodePeer [] = none) {s : Pair} {b : Beat}
    (hled : Led b.now s.clubd.claims s.catalog.view) (hshared : InStep node o s b) :
    Led b.now (step node o s b).clubd.claims (step node o s b).catalog.view ∧ Agreed node o s b := by
  have hhandled := handled node s.clubd b
  have hquiet : (handle node s.clubd b).inbox = s.clubd.inbox → (step node o s b).catalog = s.catalog := by
    intro he
    rw [step]
    dsimp only
    rw [he, List.drop_length]
    rfl
  have hnone : (handle node s.clubd b).inbox = s.clubd.inbox → Agreed node o s b := by
    intro he m e _ happend
    have hlength := congrArg List.length (he.symm.trans happend)
    rw [List.length_append] at hlength
    exact absurd hlength (by simp)
  have hclubd : (step node o s b).clubd = handle node s.clubd b := rfl
  cases hhandled with
  | stopped hclaims hinbox =>
    rw [hclubd, hclaims, hquiet hinbox]
    exact ⟨hled, hnone hinbox⟩
  | lost hreaches hwritten hclaims hinbox =>
    rw [hclubd, hclaims, hquiet hinbox]
    refine ⟨?_, hnone hinbox⟩
    cases hshared _ _ hreaches with
    | lost _ hspared => exact led_policy hled hspared
    | passed hw => exact absurd (hwritten.symm.trans hw) Bool.false_ne_true
    | taken hw => exact absurd (hwritten.symm.trans hw) Bool.false_ne_true
  | @appended m line e hreaches hwritten hclaims hinbox hline =>
    have hcatalog : (step node o s b).catalog = (ingestLines o b.surroundings (linesOf line) s.catalog).2 := by
      rw [step]
      dsimp only
      rw [hinbox, List.drop_left, ingest, List.flatMap_singleton, hline]
    have hagreed : (kindOf m = txt "claim" → node.cidDecode (cidOf m) = true →
        Cid.valid o.upper (.str (cidOf m)) = true → Holds m (step node o s b).catalog.view) → Agreed node o s b := by
      intro hholds m' e' hcarries' _ hclaiming
      obtain ⟨rfl, -⟩ := carries_unique hreaches.carries hcarries'
      exact hholds hclaiming.kind hclaiming.clubd hclaiming.catalog
    rw [hclubd, hclaims]
    cases hshared _ _ hreaches with
    | lost hw => exact absurd (hw.symm.trans hwritten) Bool.false_ne_true
    | passed _ hspared hover hheld =>
      have hview : (step node o s b).catalog.view = s.catalog.view := by
        rw [hcatalog]
        exact ingestLines_passedOver hover
      rw [hview] at hagreed ⊢
      exact ⟨led_policy hled hspared, hagreed fun hk hc hv => hheld ⟨hk, hc, hv⟩⟩
    | @taken event _ hauthentic hread hnew hexact =>
      have hview : (step node o s b).catalog.view = event.take b.surroundings s.catalog.view := by
        rw [hcatalog, ingestLines_authentic hauthentic]
        exact Store.ingestMessage_of_read o hread
      have hnamed := named_of_read (carries_publisher hpeer hreaches.carries) hread
      obtain ⟨hled', hholds⟩ := led_taken hled hreaches.admitted hnamed ⟨rfl, rfl⟩ hread hnew hexact
      rw [hview] at hagreed ⊢
      exact ⟨hled', hagreed fun hk _ _ => hholds hk⟩

/-- Whatever clubd is sent and asked to publish, each claim that it appends is the lease of its publisher in the
catalog right afterwards, as long as every message is shared. -/
theorem leases_agree (node : Node) (o : Observer) (hpeer : node.decodePeer [] = none) (rate : ℤ) (beats : List Beat)
    (hordered : (beats.map Beat.now).Pairwise (· ≤ ·)) (h : Along (step node o) (InStep node o) (start rate) beats) :
    Along (step node o) (Agreed node o) (start rate) beats := by
  have hrun : ∀ (beats : List Beat) (s : Pair), (beats.map Beat.now).Pairwise (· ≤ ·) →
      (∀ b ∈ beats, Led b.now s.clubd.claims s.catalog.view) → Along (step node o) (InStep node o) s beats →
      Along (step node o) (Agreed node o) s beats := by
    intro beats
    induction beats with
    | nil => exact fun _ _ _ _ => trivial
    | cons b beats ih =>
      intro s hordered hled h
      rw [List.map_cons, List.pairwise_cons] at hordered
      obtain ⟨hnext, hagreed⟩ := led_step hpeer (hled b List.mem_cons_self) h.1
      refine ⟨hagreed, ih _ hordered.2 ?_ h.2⟩
      intro b' hb'
      exact hnext.mono (hordered.1 _ (List.mem_map_of_mem hb')) (List.Subset.refl _)
  exact hrun beats (start rate) hordered (fun _ _ _ hr => absurd hr List.not_mem_nil) h

end Agreeing

section Sample

def leaseNode : Node := { sampleNode with
  clubID := txt "academic"
  cidDecode := fun c => Cid.valid Store.sampleObserver.upper (.str c) }

def claimObject : Go.Value :=
  .obj [(txt "cid", .str (txt "f0155000100")), (txt "kind", .str (txt "claim")),
    (txt "publisher", .str (txt "12D3KooWPeer")), (txt "until", .num (txt "2000"))]

def claimLine : Bytes :=
  Go.jsonMarshal (Go.setItem claimObject "sig" (.str (hexText (sampleSum 64 (ascii "12D3KooWPeer" ++ Canon.marshal claimObject)))))

def at1000 (arrival : Arrival) : Beat := ⟨arrival, Go.unix 1000, true, true, .ok ()⟩

theorem claim_inStep : InStep leaseNode Store.sampleObserver (start 60) (at1000 (.gossip claimLine true)) := by
  intro m line hreaches
  have hcarries : Carries leaseNode (.gossip claimLine true) m line := hreaches.carries
  cases hcarries with
  | gossip ok =>
    obtain ⟨ms, rfl, hdecode⟩ := decodeObject_ok (verify_ok ok).1
    have hread : ((verify leaseNode claimLine).toOption.bind fun m => ((Store.read Store.sampleObserver
        (start 60).catalog.view (at1000 (.gossip claimLine true)).surroundings (pythonView m)).toOption.bind id).map
          Store.Event.deed) = some (.claim (.fin 2000)) := by decide +kernel
    have huntil : (verify leaseNode claimLine).toOption.map Claims.untilOf = some (Go.unix 2000) := by decide +kernel
    rw [ok] at hread huntil
    obtain ⟨e, he, hdeed⟩ := Option.map_eq_some_iff.mp hread
    have hevent : Store.read Store.sampleObserver (start 60).catalog.view (at1000 (.gossip claimLine true)).surroundings
        (pythonView (.obj ms)) = .ok (some e) := by
      obtain ⟨r, hr, rfl⟩ := Option.bind_eq_some_iff.mp he
      obtain ⟨r, hx, hre⟩ := ok_of_any (p := (· = some e)) (by rw [hr]; exact decide_eq_true rfl)
      rw [hx, of_decide_eq_true hre]
    apply Shared.taken rfl _ hevent List.not_mem_nil
    · intro x hx
      rw [hdeed] at hx
      cases hx
      refine ⟨2000, rfl, ?_⟩
      rw [Option.some.inj huntil]
      decide +kernel
    · exact authentic_of_framed hdecode (framed_of_isFramed (by decide +kernel))

theorem claim_agreed : Along (step leaseNode Store.sampleObserver) (Agreed leaseNode Store.sampleObserver) (start 60)
    [at1000 (.gossip claimLine true)] :=
  leases_agree leaseNode Store.sampleObserver rfl 60 [at1000 (.gossip claimLine true)]
    (List.pairwise_singleton _ _) ⟨claim_inStep, trivial⟩

def published (body : String) : Beat := at1000 (.publish ⟨true, some (ascii body)⟩)

def skippedAgain : List Beat :=
  [published "\x7b\"kind\":\"skip\",\"cid\":\"f0155000100\"\x7d",
    published "\x7b\"kind\":\"claim\",\"cid\":\"f0155000100\",\"until\":2000\x7d",
    published "\x7b\"kind\":\"skip\",\"cid\":\"f0155000100\"\x7d"]

def otherClaim : Request := ⟨true, some (ascii "\x7b\"kind\":\"claim\",\"cid\":\"f0155000101\",\"until\":2000\x7d")⟩

theorem not_agreed : ((skippedAgain ++ [at1000 (.publish otherClaim)]).map Beat.now).Pairwise (· ≤ ·) ∧
    ¬Along (step leaseNode Store.sampleObserver) (Agreed leaseNode Store.sampleObserver) (start 60)
      (skippedAgain ++ [at1000 (.publish otherClaim)]) := by
  refine ⟨by decide +kernel, fun h => ?_⟩
  have hagreed := (along_append.mp h).2.1
  have hbefore : (run (step leaseNode Store.sampleObserver) (start 60) skippedAgain).clubd.inbox.length = 3 := by
    decide +kernel
  have hafter : (handle leaseNode (run (step leaseNode Store.sampleObserver) (start 60) skippedAgain).clubd
      (at1000 (.publish otherClaim))).inbox.length = 4 := by decide +kernel
  have hrow : ((step leaseNode Store.sampleObserver (run (step leaseNode Store.sampleObserver) (start 60) skippedAgain)
      (at1000 (.publish otherClaim))).catalog.view.claims.any fun r => r.cid = txt "f0155000101") = false := by
    decide +kernel
  have hclaim : (prepare leaseNode otherClaim).toOption.any (fun m => kindOf m = txt "claim" ∧
      cidOf m = txt "f0155000101") = true := by decide +kernel
  have hvalid : Cid.valid Store.sampleObserver.upper (.str (txt "f0155000101")) = true := by decide +kernel
  generalize run (step leaseNode Store.sampleObserver) (start 60) skippedAgain = s at hagreed hbefore hafter hrow
  have hhandled := handled leaseNode s.clubd (at1000 (.publish otherClaim))
  cases hhandled with
  | stopped _ hinbox =>
    rw [hinbox, hbefore] at hafter
    cases hafter
  | lost _ hwritten => cases hwritten
  | @appended m line e hreaches _ _ hinbox hline =>
    have hcarries : Carries leaseNode (.publish otherClaim) m line := hreaches.carries
    cases hcarries with
    | @publish _ m sig ok signed =>
      rw [ok] at hclaim
      obtain ⟨hkind, hcid⟩ := of_decide_eq_true hclaim
      have hcid' := (cidOf_signed m (.str (hexText sig))).trans hcid
      obtain ⟨x, -, hfound⟩ := hagreed (Go.setItem m "sig" (.str (hexText sig))) e
        (by rw [hline]; exact hreaches.carries) hinbox
        ⟨(kindOf_signed m _).trans hkind, by rw [hcid']; exact hvalid, by rw [hcid']; exact hvalid⟩
      rw [hcid'] at hfound
      have hmem := List.mem_of_find?_eq_some hfound
      have hnot := List.any_eq_false.mp hrow _ hmem
      exact hnot (decide_eq_true rfl)

end Sample

end ObserverClub.Together
