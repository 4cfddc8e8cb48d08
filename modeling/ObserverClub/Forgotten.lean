import ObserverClub.Forgetting
import ObserverClub.GoWriting
import ObserverClub.SnapshotRule

namespace ObserverClub.Store

open Library Json Python Sqlite Catalog

section Payloads

theorem hexText_injective {s s' : Bytes} (h : hexText s = hexText s') : s = s' := by
  have hdecode := Go.hexDecode_hexText s
  rw [h, Go.hexDecode_hexText] at hdecode
  exact (Option.some.inj hdecode).symm

/-- The value whose members are signed, in order. -/
def signedForm (obj : Value) : Value := inOrder (· < ·) (obj.without (txt "sig"))

theorem canonicalBytes_ok {py : Interpreter} {obj : Value} {b : Bytes} (h : Protocol.canonicalBytes py obj = .ok b) :
    (signedForm obj).depth ≤ py.dumpsDepth ∧ b = Utf8.encode ((writer false).render (signedForm obj)) := by
  simp only [Protocol.canonicalBytes, Protocol.canonicalDumps, Protocol.stripSig, bind_eq_ok] at h
  obtain ⟨text, ⟨v, hv, htext⟩, hb⟩ := h
  split_ifs at hv
  obtain rfl := Except.ok.inj hv
  rw [dumps] at htext
  split_ifs at htext with hdepth
  obtain rfl := Except.ok.inj htext
  rw [encodeUtf8] at hb
  split_ifs at hb
  obtain rfl := Except.ok.inj hb
  refine ⟨(depth_inOrder_le _ _).trans (not_lt.mp hdepth), ?_⟩
  rw [Writer.render_inOrder rfl]
  rfl

theorem publisher_of_bytes {py : Interpreter} {obj obj' : Value} {b : Bytes} {q q' : Text}
    (h : Protocol.canonicalBytes py obj = .ok b) (h' : Protocol.canonicalBytes py obj' = .ok b) (hd : obj.Distinct)
    (hd' : obj'.Distinct) (hu : obj.all (unicode _) = true) (hu' : obj'.all (unicode _) = true)
    (hq : obj.get (txt "publisher") = some (.str q)) (hq' : obj'.get (txt "publisher") = some (.str q')) : q = q' := by
  have hvalid {v : Value} (hv : v.all (unicode _) = true) : Utf8.valid ((writer false).render (signedForm v)) = true :=
    render_valid ((all_inOrder _ _ _).mpr (all_without _ _ _ hv))
  have hread {v : Value} (hv : (signedForm v).depth ≤ py.dumpsDepth) :=
    (writer_printed py.dumpsDepth).readFirst (signedForm v) hv
  have htoken (n : Python.Num) : ofTree spelling (tokenOf n) = .num (numText n) := by
    rw [tokenOf]
    split <;> rfl
  have htree {v : Value} (hv : v.Distinct) : ofTree spelling (treeOf tokenOf (signedForm v)) = (signedForm v).map numText :=
    ofTree_treeOf rfl htoken _ (distinct_inOrder _ _ (distinct_without _ _ hv))
  have hget {v : Value} {t : Text} (hv : v.Distinct) (ht : v.get (txt "publisher") = some (.str t)) :
      ((signedForm v).map numText).get (txt "publisher") = some (.str t) := by
    rw [get_map, signedForm, get_inOrder _ _ (distinct_without _ _ hv), get_without (by decide), ht]
    rfl
  obtain ⟨hdepth, rfl⟩ := canonicalBytes_ok h
  obtain ⟨hdepth', hb⟩ := canonicalBytes_ok h'
  have htext : (writer false).render (signedForm obj) = (writer false).render (signedForm obj') := by
    have hdecode := Utf8.decode_encode (hvalid hu)
    rw [hb, Utf8.decode_encode (hvalid hu')] at hdecode
    exact (Option.some.inj hdecode).symm
  have htrees : treeOf tokenOf (signedForm obj) = treeOf tokenOf (signedForm obj') := by
    have hfirst := hread hdepth
    rw [htext, hread hdepth'] at hfirst
    exact (congrArg Prod.fst (Except.ok.inj hfirst)).symm
  have hmaps : (signedForm obj).map numText = (signedForm obj').map numText := by
    rw [← htree hd, htrees, htree hd']
  have hsame := hget hd hq
  rw [hmaps, hget hd' hq'] at hsame
  exact (Json.str.inj (Option.some.inj hsame)).symm

end Payloads

section Messages

variable (o : Observer)

/-- A message as a line of the inbox holds it, which the catalog takes in. -/
structure Receivable (t : Tables) (x : Surroundings × Value) : Prop where
  parsed : ∃ data, loadsBytes o.py data = .ok x.2
  named : ∃ q, x.2.get (txt "publisher") = some (.str q)
  readable : ∃ q, eventOf o t x = some q

/-- The hash keeps the messages apart. -/
def Collisionless (sent : List (Surroundings × Value)) : Prop :=
  Set.InjOn o.sha256 {b | ∃ x ∈ sent, Protocol.canonicalBytes o.py x.2 = .ok b}

def fromPublisher (t : Tables) (p : Text) (x : Surroundings × Value) : Bool :=
  (eventOf o t x).any fun q => q.1.publisher = p

variable {o} {t : Tables} {sent : List (Surroundings × Value)}

theorem loads_distinct {py : Interpreter} {data : Bytes} {v : Value} (h : loadsBytes py data = .ok v) : v.Distinct := by
  obtain ⟨s, -, hl⟩ := loadsBytes_ok h
  obtain ⟨tree, r, -, -, rfl⟩ := loads_ok hl
  exact ofTree_distinct _ tree

theorem publisher_of_hash (hv : ∀ x ∈ sent, Receivable o t x) (hsha : Collisionless o sent) :
    ∀ q ∈ sent.filterMap (eventOf o t), ∀ q' ∈ sent.filterMap (eventOf o t), q.1.payloadHash = q'.1.payloadHash →
      q.1.publisher = q'.1.publisher := by
  have hfacts : ∀ q ∈ sent.filterMap (eventOf o t), ∃ x ∈ sent, ∃ b, Protocol.canonicalBytes o.py x.2 = .ok b ∧
      q.1.payloadHash = hexText (o.sha256 b) ∧ x.2.Distinct ∧ x.2.all (unicode _) = true ∧
      x.2.get (txt "publisher") = some (.str q.1.publisher) := by
    intro q hq
    obtain ⟨x, hx, hq⟩ := List.mem_filterMap.mp hq
    obtain ⟨⟨data, hdata⟩, ⟨p, hp⟩, -⟩ := hv x hx
    obtain ⟨hread, -⟩ := (eventOf_eq_some o).mp hq
    obtain ⟨m, ha, -, hpub, hbody, -, -, hhash, -⟩ := (read_eq_some o).mp hread
    have hpayload := ha.hash
    simp only [payloadHash, bind_eq_ok] at hpayload
    obtain ⟨b, hb, hm⟩ := hpayload
    have hunicode : x.2.all (unicode _) = true := by
      apply loads_unicode hdata
      rw [(wireDumps_eq ha.body).1]
      exact hbody
    have hname : item x.2 "publisher" = .str p := by
      rw [item, hp]
      rfl
    rw [ha.publisher, hname] at hpub
    obtain ⟨-, he⟩ := (bindText_str o).mp hpub
    refine ⟨x, hx, b, hb, ?_, loads_distinct hdata, hunicode, ?_⟩
    · rw [hhash, ← Except.ok.inj hm]
    · rw [hp, Option.some.inj he]
  intro q hq q' hq' he
  obtain ⟨x, hx, b, hb, hh, hd, hu, hp⟩ := hfacts q hq
  obtain ⟨x', hx', b', hb', hh', hd', hu', hp'⟩ := hfacts q' hq'
  rw [hh, hh'] at he
  obtain rfl := hsha ⟨x, hx, hb⟩ ⟨x', hx', hb'⟩ (hexText_injective he)
  exact publisher_of_bytes hb hb' hd hd' hu hu' hp hp'

theorem events_besides (p : Text) (sent : List (Surroundings × Value)) :
    (sent.filter fun x => !fromPublisher o t p x).filterMap (eventOf o t) =
      (sent.filterMap (eventOf o t)).filter fun q => q.1.publisher ≠ p := by
  induction sent with
  | nil => rfl
  | cons x sent ih =>
    cases hx : eventOf o t x with
    | none =>
      have hfrom : fromPublisher o t p x = false := by
        rw [fromPublisher, hx]
        rfl
      rw [List.filter_cons_of_pos (by rw [hfrom]; rfl), List.filterMap_cons_none hx, List.filterMap_cons_none hx, ih]
    | some q =>
      have hfrom : fromPublisher o t p x = decide (q.1.publisher = p) := by
        rw [fromPublisher, hx]
        rfl
      rw [List.filterMap_cons_some hx]
      by_cases hp : q.1.publisher = p
      · rw [List.filter_cons_of_neg (by rw [hfrom, decide_eq_true hp]; decide), List.filter_cons_of_neg (by simpa using hp), ih]
      · rw [List.filter_cons_of_pos (by rw [hfrom, decide_eq_false hp]; rfl), List.filter_cons_of_pos (by simpa using hp),
          List.filterMap_cons_some hx, ih]

end Messages

section Runs

variable {t : Tables} {events : List (Event × Surroundings)}

theorem received_take {e : Event} {w : Surroundings} {c : Classify} (h : c ∈ (e.take w t).classifies) :
    c ∈ t.classifies ∨ c.receivedAt = w.receivedAt := by
  by_cases hnew : e.payloadHash ∈ t.messages.map Message.payloadHash
  · rw [Event.take_old hnew] at h
    exact .inl h
  rw [(Event.take_entered hnew).classifies, Event.inClassifies] at h
  cases hd : e.deed with
  | classify d x =>
    rw [hd] at h
    obtain h | rfl := Table.mem_putNew h
    · exact .inl h
    · exact .inr rfl
  | _ =>
    rw [hd] at h
    exact .inl h

theorem filed_takeAll (h : Filed t) (hproper : ∀ q ∈ events, q.1.Proper)
    (hlast : ∀ c ∈ t.classifies, ∀ q ∈ events, c.receivedAt ≤ q.2.receivedAt)
    (hsorted : events.Pairwise fun q q' => q.2.receivedAt < q'.2.receivedAt) : Filed (takeAll t events) := by
  induction events generalizing t with
  | nil => exact h
  | cons q events ih =>
    rw [List.forall_mem_cons] at hproper
    obtain ⟨hfirst, hrest⟩ := List.pairwise_cons.mp hsorted
    refine ih (h.take hproper.1 fun c hc => hlast c hc q List.mem_cons_self) hproper.2 ?_ hrest
    intro c hc q' hq'
    obtain hc | hc := received_take hc
    · exact hlast c hc q' (List.mem_cons_of_mem _ hq')
    · rw [hc]
      exact (hfirst q' hq').le

end Runs

section Claim

variable (o : Observer)

structure SameCatalog (t t' : Tables) : Prop where
  classifies : t.classifies = t'.classifies
  docs : ∀ cid, (Table.row? Doc.cid cid t.docs).map preferredOf = (Table.row? Doc.cid cid t'.docs).map preferredOf
  reports : t.reports = t'.reports
  aliases : t.aliases = t'.aliases
  skips : ∀ cid, Table.row? Skip.cid cid t.skips = Table.row? Skip.cid cid t'.skips

/-- A catalog without messages, and without what they leave. -/
structure Vacant (t : Tables) : Prop where
  messages : t.messages = []
  classifies : t.classifies = []
  docs : t.docs = []
  reports : t.reports = []
  aliases : t.aliases = []
  skips : t.skips = []

/-- A publisher's name is that of a peer: text without white space around it. -/
structure PeerName (p : Text) : Prop where
  named : p ≠ []
  trimmed : trim isSpace p = p
  binds : Binds (.str p)

def firstBesides (p cid : Text) (t : Tables) : Option Classify :=
  t.classifies.find? fun c => c.cid = cid && c.publisher ≠ p

/-- No skip of the publisher stands where another publisher has skipped, and the classifies that take the
place of the publisher's read back from their rows as they stand. -/
structure Separate (p : Text) (t : Tables) : Prop where
  skips : ∀ s ∈ t.skips, s.publisher = p → ∀ m ∈ t.messages, m.kind = txt "skip" → m.cid = s.cid → m.publisher = p
  docs : ∀ cid ∈ touchedCids p t, ∀ c, firstBesides p cid t = some c → describe o c.dict c.receivedAt = .ok c.description

variable {o} {p : Text} {all : List (Event × Surroundings)} {t t' u : Tables} {now : ℚ}

theorem find?_besides (cid : Text) (rows : List Classify) : (besides p Classify.publisher rows).find? (fun c => c.cid = cid) =
    rows.find? fun c => c.cid = cid && c.publisher ≠ p := by
  rw [besides, List.find?_filter]
  congr 1
  funext c
  by_cases hc : c.cid = cid <;> by_cases hp : c.publisher = p <;> simp [hc, hp]

theorem earliest_besides (h : Filed t) (cid : Text) :
    earliest (classifiesOf cid (dropPublisher p (noteBlacklisted p now t))) = firstBesides p cid t := by
  rw [earliest_firstOf (h.sorted.filter _), firstOf]
  exact find?_besides cid t.classifies

theorem firstOf_parted (h : Parted p all t t') (cid : Text) : firstOf cid t' = firstBesides p cid t := by
  rw [firstOf, h.classifies, find?_besides]
  rfl

theorem others_of_untouched {cid : Text} (h : cid ∉ touchedCids p t) (hn : cid ≠ []) :
    ∀ c ∈ t.classifies, c.cid = cid → c.publisher ≠ p := by
  intro c hc hcid hp
  apply h
  rw [touchedCids, List.mem_dedup, List.mem_filter, List.mem_append]
  refine ⟨.inl (List.mem_map.mpr ⟨c, List.mem_filter.mpr ⟨hc, decide_eq_true hp⟩, hcid⟩), decide_eq_true hn⟩

theorem firstBesides_untouched (h : Filed t) {cid : Text} (hc : cid ∉ touchedCids p t) :
    firstBesides p cid t = firstOf cid t := by
  rw [firstBesides, firstOf, ← List.head?_filter, ← List.head?_filter]
  congr 1
  apply List.filter_congr
  intro c hmem
  by_cases hcid : c.cid = cid
  · have hp := others_of_untouched hc (hcid ▸ h.named c hmem) c hmem hcid
    rw [decide_eq_true hp, Bool.and_true]
  · rw [decide_eq_false hcid, Bool.false_and]

theorem rebuiltRow_besides (h : Filed t) (cid : Text) :
    rebuiltRow o cid (dropPublisher p (noteBlacklisted p now t)) = (firstBesides p cid t).bind fun c =>
      (describe o c.dict c.receivedAt).toOption.map fun d => ⟨cid, c.publisher, d, c.receivedAt⟩ := by
  rw [rebuiltRow, earliest_besides h]

theorem toOption_eq_some {ε α : Type} {x : Except ε α} {a : α} (h : x.toOption = some a) : x = .ok a := by
  cases x with
  | error e => cases h
  | ok b => rw [Option.some.inj h]

theorem docs_iff (h : Parted p all t t') (hf : Filed t) (hf' : Filed t')
    (hr : RebuiltAll o (touchedCids p t) (dropPublisher p (noteBlacklisted p now t)) u) :
    (∀ cid, (Table.row? Doc.cid cid u.docs).map preferredOf = (Table.row? Doc.cid cid t'.docs).map preferredOf) ↔
      ∀ cid ∈ touchedCids p t, ∀ c, firstBesides p cid t = some c → describe o c.dict c.receivedAt = .ok c.description := by
  have hunheard (cid : Text) : (Table.row? Doc.cid cid t'.docs).map preferredOf =
      (firstBesides p cid t).map preferredRow := by rw [hf'.first, firstOf_parted h]
  constructor
  · intro hdocs cid hcid c hc
    have hrow := hdocs cid
    rw [hr.row, if_pos hcid, rebuiltRow_besides hf, hunheard, hc] at hrow
    obtain ⟨d, hd, he⟩ := Option.map_eq_some_iff.mp hrow
    rw [toOption_eq_some hd, show d = c.description from congrArg Preferred.description he]
  · intro hreads cid
    rw [hr.row, hunheard]
    split_ifs with hcid
    · rw [rebuiltRow_besides hf]
      cases hc : firstBesides p cid t with
      | none => rfl
      | some c =>
        have hcc : c.cid = cid := by
          have hfound := List.find?_some hc
          rw [Bool.and_eq_true, decide_eq_true_eq] at hfound
          exact hfound.1
        rw [Option.bind_some, hreads cid hcid c hc, ← hcc]
        rfl
    · rw [firstBesides_untouched hf hcid]
      exact hf.first cid

theorem skips_iff (h : Parted p all t t') (hs : SkipsLogged t) (hs' : SkipsLogged t') :
    (∀ cid, Table.row? Skip.cid cid (besides p Skip.publisher t.skips) = Table.row? Skip.cid cid t'.skips) ↔
      ∀ s ∈ t.skips, s.publisher = p → ∀ m ∈ t.messages, m.kind = txt "skip" → m.cid = s.cid → m.publisher = p := by
  have hkeyed : Table.Keyed Skip.cid (besides p Skip.publisher t.skips) :=
    hs.keyed.sublist (List.filter_sublist.map Skip.cid)
  constructor
  · intro hrows s hmem hp m hm hk hcid
    by_contra hother
    have hm' : m ∈ t'.messages := by
      rw [h.messages]
      exact List.mem_filter.mpr ⟨hm, decide_eq_true hother⟩
    obtain ⟨r, hr, hrc⟩ := hs'.standing m hm' hk
    have hrow := hs'.keyed.row?_of_mem hr
    rw [← hrows] at hrow
    obtain ⟨hr, -⟩ := Table.row?_some hrow
    obtain ⟨hr, hrp⟩ := List.mem_filter.mp hr
    -- two rows of one CID
    obtain rfl : r = s := List.inj_on_of_nodup_map hs.keyed hr hmem (hrc.trans hcid)
    exact of_decide_eq_true hrp hp
  · intro hseparate cid
    cases hrow : Table.row? Skip.cid cid t'.skips with
    | none =>
      rw [Table.row?_eq_none] at hrow ⊢
      intro s hmem
      obtain ⟨hmem, hp⟩ := List.mem_filter.mp hmem
      exact hrow s (h.kept s hmem (of_decide_eq_true hp))
    | some s =>
      obtain ⟨hmem, rfl⟩ := Table.row?_some hrow
      obtain ⟨m, hm, hk, hmc, hmp⟩ := hs'.logged s hmem
      rw [h.messages] at hm
      obtain ⟨hm, hother⟩ := List.mem_filter.mp hm
      obtain hs | ⟨r, hr, hrc, hrp⟩ := h.hidden s hmem
      · apply hkeyed.row?_of_mem
        rw [hmp] at hother
        exact List.mem_filter.mpr ⟨hs, hother⟩
      · exact absurd (hseparate r hr hrp m hm hk (hmc.trans hrc.symm)) (of_decide_eq_true hother)

theorem sameCatalog_iff (h : Parted p all t t') (hf : Filed t) (hf' : Filed t') (hs : SkipsLogged t)
    (hs' : SkipsLogged t') (hr : RebuiltAll o (touchedCids p t) (dropPublisher p (noteBlacklisted p now t)) u) :
    SameCatalog u t' ↔ Separate o p t := by
  obtain ⟨hskips, hreports, haliases⟩ := hr.rows
  constructor
  · rintro ⟨-, hd, -, -, hsk⟩
    refine ⟨(skips_iff h hs hs').mp fun cid => ?_, (docs_iff h hf hf' hr).mp hd⟩
    rw [← hsk, hskips]
    rfl
  · rintro ⟨hsk, hd⟩
    refine ⟨?_, (docs_iff h hf hf' hr).mpr hd, ?_, ?_, fun cid => ?_⟩
    · rw [hr.frame.1, h.classifies]
      rfl
    · rw [hreports, h.reports]
      rfl
    · rw [haliases, h.aliases]
      rfl
    · rw [← (skips_iff h hs hs').mpr hsk, hskips]
      rfl

theorem blacklist_rebuilt (hp : PeerName p) {me : Text} (hme : p ≠ me) {s v : Conn} {b : Bool}
    (h : blacklist o me p now s = (.ok b, v)) : b = true ∧
      RebuiltAll o (touchedCids p s.view) (dropPublisher p (noteBlacklisted p now s.view)) v.view := by
  unfold blacklist at h
  rw [hp.trimmed, if_neg hp.named, if_neg hme] at h
  obtain ⟨_, s₁, hbind, hread⟩ := Txn.bind_eq_ok.mp h
  obtain ⟨-, rfl⟩ := Txn.lift_eq_ok.mp hbind
  rw [Txn.read_bind, Txn.write_bind, Txn.write_bind] at hread
  obtain ⟨_, s₂, hrebuild, hcommit⟩ := Txn.bind_eq_ok.mp hread
  rw [Txn.commit_bind] at hcommit
  obtain ⟨rfl, rfl⟩ := Txn.pure_eq_ok.mp hcommit
  exact ⟨rfl, rebuildDocs_rebuilt hrebuild⟩

theorem blacklist_returns (hp : PeerName p) {me : Text} (hme : p ≠ me) {s : Conn} (hf : Filed s.view)
    (h : ∀ cid ∈ touchedCids p s.view, ∀ c, firstBesides p cid s.view = some c →
      describe o c.dict c.receivedAt = .ok c.description) : ∃ v, blacklist o me p now s = (.ok true, v) := by
  obtain ⟨name, hname⟩ := (bindText_isOk o (.str p)).mpr hp.binds
  obtain ⟨v, hv⟩ : ∃ v, rebuildDocs o (touchedCids p s.view) (s.opened (dropPublisher p (noteBlacklisted p now s.view))) =
      (.ok (), v) := by
    apply rebuildDocs_returns
    intro cid hcid c hc
    rw [Session.view_opened, earliest_besides hf] at hc
    exact ⟨_, h cid hcid c hc⟩
  unfold blacklist
  rw [hp.trimmed, if_neg hp.named, if_neg hme]
  rw [Txn.lift_bind, hname]
  dsimp only
  rw [Txn.read_bind, Txn.write_bind, Txn.write_bind, Session.view_opened]
  exact ⟨_, Txn.bind_ok hv⟩

variable (o)

/-- Shutting the publisher out leaves what the others' messages alone would have left. -/
def Forgets (t : Tables) (sent : List (Surroundings × Value)) (me p : Text) (now : ℚ) : Prop :=
  ∃ s, blacklist o me p now (ingested o ⟨t, none⟩ sent) = (.ok true, s) ∧
    SameCatalog s.view (ingested o ⟨t, none⟩ (sent.filter fun x => !fromPublisher o t p x)).view

variable {o} {sent : List (Surroundings × Value)}

theorem Vacant.filed (h : Vacant t) : Filed t := by
  refine ⟨?_, ?_, ?_, fun cid => ?_, ?_⟩
  · rw [h.classifies]
    exact fun c hc => absurd hc List.not_mem_nil
  · rw [h.classifies]
    exact .nil
  · rw [h.classifies]
    exact fun c hc => absurd hc List.not_mem_nil
  · rw [firstOf, h.classifies, h.docs]
    rfl
  · rw [h.docs]
    exact List.nodup_nil

theorem Vacant.skipsLogged (h : Vacant t) : SkipsLogged t := by
  refine ⟨?_, ?_, ?_⟩
  · rw [h.skips]
    exact List.nodup_nil
  · rw [h.skips]
    exact fun s hs => absurd hs List.not_mem_nil
  · rw [h.messages]
    exact fun m hm => absurd hm List.not_mem_nil

theorem Vacant.parted (h : Vacant t) : Parted p all t t := by
  refine ⟨?_, ?_, ?_, ?_, ?_, ?_, ?_, fun s hs _ => hs, fun s hs => .inl hs⟩
  · rw [h.messages]
    exact fun m hm => absurd hm List.not_mem_nil
  · rw [h.classifies]
    exact fun c hc => absurd hc List.not_mem_nil
  · rw [h.classifies]
    exact fun c hc => absurd hc List.not_mem_nil
  · rw [h.messages]
    rfl
  · rw [h.classifies]
    rfl
  · rw [h.reports]
    rfl
  · rw [h.aliases]
    rfl

theorem sorted_events (h : sent.Pairwise fun x y => x.1.receivedAt < y.1.receivedAt) :
    (sent.filterMap (eventOf o t)).Pairwise fun q q' => q.2.receivedAt < q'.2.receivedAt := by
  apply List.pairwise_filterMap.mpr
  apply h.imp
  intro x y hxy q hq q' hq'
  rw [((eventOf_eq_some o).mp hq).2, ((eventOf_eq_some o).mp hq').2]
  exact hxy

/-- A publisher that is shut out is forgotten exactly when its messages keep apart from those of the others. -/
theorem forgets_iff (o : Observer) {t : Tables} (ht : Vacant t) {sent : List (Surroundings × Value)}
    (hv : ∀ x ∈ sent, Receivable o t x) (hsha : Collisionless o sent)
    (hsorted : sent.Pairwise fun x y => x.1.receivedAt < y.1.receivedAt) {me p : Text} (hp : PeerName p) (hme : p ≠ me)
    (now : ℚ) : Forgets o t sent me p now ↔ Separate o p (ingested o ⟨t, none⟩ sent).view := by
  have hreadable : ∀ x ∈ sent, ∃ q, eventOf o t x = some q := fun x hx => (hv x hx).readable
  have hview := ingested_view o hreadable (s := ⟨t, none⟩) rfl
  have hview' := ingested_view o (fun x (hx : x ∈ sent.filter fun x => !fromPublisher o t p x) =>
    hreadable x (List.mem_of_mem_filter hx)) (s := ⟨t, none⟩) rfl
  rw [events_besides] at hview'
  have hproper : ∀ q ∈ sent.filterMap (eventOf o t), q.1.Proper := by
    intro q hq
    obtain ⟨x, -, hx⟩ := List.mem_filterMap.mp hq
    exact proper_of_read ((eventOf_eq_some o).mp hx).1
  have hproper' : ∀ q ∈ (sent.filterMap (eventOf o t)).filter (fun q => q.1.publisher ≠ p), q.1.Proper :=
    fun q hq => hproper q (List.mem_of_mem_filter hq)
  have hvacant {events : List (Event × Surroundings)} : ∀ c ∈ t.classifies, ∀ q ∈ events, c.receivedAt ≤ q.2.receivedAt := by
    rw [ht.classifies]
    exact fun c hc => absurd hc List.not_mem_nil
  have hparted := Parted.takeAll (publisher_of_hash hv hsha) (fun q hq => hq) (ht.parted (p := p))
  have hfiled := filed_takeAll ht.filed hproper hvacant (sorted_events hsorted)
  have hfiled' := filed_takeAll ht.filed hproper' hvacant ((sorted_events hsorted).filter _)
  have hskips := takeAll_keeps ht.skipsLogged fun t q hq h => h.take (hproper q hq)
  have hskips' := takeAll_keeps ht.skipsLogged fun t q hq h => h.take (hproper' q hq)
  rw [Forgets, hview']
  change (ingested o ⟨t, none⟩ sent).view = takeAll t (sent.filterMap (eventOf o t)) at hview
  constructor
  · rintro ⟨s, hs, hsame⟩
    obtain ⟨-, hrebuilt⟩ := blacklist_rebuilt hp hme hs
    rw [hview] at hrebuilt ⊢
    exact (sameCatalog_iff hparted hfiled hfiled' hskips hskips' hrebuilt).mp hsame
  · intro hseparate
    rw [hview] at hseparate
    have hfiledView : Filed (ingested o ⟨t, none⟩ sent).view := by
      rw [hview]
      exact hfiled
    obtain ⟨s, hs⟩ : ∃ s, blacklist o me p now (ingested o ⟨t, none⟩ sent) = (.ok true, s) :=
      blacklist_returns hp hme hfiledView (by
        rw [hview]
        exact hseparate.docs)
    obtain ⟨-, hrebuilt⟩ := blacklist_rebuilt hp hme hs
    rw [hview] at hrebuilt
    exact ⟨s, hs, (sameCatalog_iff hparted hfiled hfiled' hskips hskips' hrebuilt).mpr hseparate⟩

end Claim

section Sample

def skipLine (publisher : String) : Bytes :=
  ascii ("\x7b\"kind\":\"skip\",\"cid\":\"f0155000100\",\"reason\":\"out_of_scope\",\"publisher\":\"" ++ publisher ++
    "\",\"sig\":\"00\"\x7d")

def skipReceived (now : ℚ) (publisher : String) : Surroundings × Value :=
  (⟨now, now, now, .ok ()⟩, (loadsBytes sampleObserver.py (skipLine publisher)).toOption.getD .null)

def skippedTwice : List (Surroundings × Value) := [skipReceived 1 "12D3KooWHost", skipReceived 2 "12D3KooWPeer"]

theorem receivable_of {o : Observer} {t : Tables} {w : Surroundings} {data : Bytes}
    (h : (loadsBytes o.py data).toOption.any (fun v => (eventOf o t (w, v)).isSome && (stringItem v "publisher").isSome) = true) :
    Receivable o t (w, (loadsBytes o.py data).toOption.getD .null) := by
  obtain ⟨v, hv, h⟩ := some_of_any h
  rw [Bool.and_eq_true] at h
  obtain ⟨hevent, hname⟩ := h
  rw [hv]
  refine ⟨⟨data, toOption_eq_some hv⟩, ?_, Option.isSome_iff_exists.mp hevent⟩
  unfold stringItem at hname
  dsimp only [Option.getD_some]
  cases hp : v.get (txt "publisher") with
  | none =>
    rw [hp] at hname
    cases hname
  | some u =>
    rw [hp] at hname
    cases u with
    | str q => exact ⟨q, rfl⟩
    | _ => cases hname

theorem collisionless_of {o : Observer} {sent : List (Surroundings × Value)}
    (h : ∀ x ∈ sent, ∀ y ∈ sent, (Protocol.canonicalBytes o.py x.2).map o.sha256 = (Protocol.canonicalBytes o.py y.2).map o.sha256 →
      Protocol.canonicalBytes o.py x.2 = Protocol.canonicalBytes o.py y.2) : Collisionless o sent := by
  rintro b ⟨x, hx, hb⟩ b' ⟨y, hy, hb'⟩ he
  have hsame := h x hx y hy (by
    rw [hb, hb']
    exact congrArg Except.ok he)
  rw [hb, hb'] at hsame
  exact Except.ok.inj hsame

theorem skippedTwice_receivable : ∀ x ∈ skippedTwice, Receivable sampleObserver empty x := by
  intro x hx
  rw [skippedTwice, List.mem_cons, List.mem_singleton] at hx
  obtain rfl | rfl := hx
  · exact receivable_of (by decide +kernel)
  · exact receivable_of (by decide +kernel)

theorem skippedTwice_collisionless : Collisionless sampleObserver skippedTwice := collisionless_of (by decide +kernel)

theorem skippedTwice_sorted : skippedTwice.Pairwise fun x y => x.1.receivedAt < y.1.receivedAt := by decide +kernel

theorem peerName_sample : PeerName (txt "12D3KooWPeer") :=
  ⟨by decide, by decide, ((bindText_str sampleObserver).mp (by decide : bindText sampleObserver (.str (txt "12D3KooWPeer")) =
    .ok (some (txt "12D3KooWPeer")))).1⟩

theorem forgets_iff_skippedTwice : Forgets sampleObserver empty skippedTwice (txt "12D3KooWHost") (txt "12D3KooWPeer") 3 ↔
    Separate sampleObserver (txt "12D3KooWPeer") (ingested sampleObserver ⟨empty, none⟩ skippedTwice).view :=
  forgets_iff sampleObserver ⟨rfl, rfl, rfl, rfl, rfl, rfl⟩ skippedTwice_receivable skippedTwice_collisionless
    skippedTwice_sorted peerName_sample (by decide) 3

theorem not_forgets : ((∀ x ∈ skippedTwice, Receivable sampleObserver empty x) ∧ Collisionless sampleObserver skippedTwice ∧
      skippedTwice.Pairwise (fun x y => x.1.receivedAt < y.1.receivedAt) ∧ PeerName (txt "12D3KooWPeer")) ∧
    ¬Forgets sampleObserver empty skippedTwice (txt "12D3KooWHost") (txt "12D3KooWPeer") 3 := by
  refine ⟨⟨skippedTwice_receivable, skippedTwice_collisionless, skippedTwice_sorted, peerName_sample⟩, ?_⟩
  rintro ⟨s, hs, hsame⟩
  have hrun : (blacklist sampleObserver (txt "12D3KooWHost") (txt "12D3KooWPeer") 3
        (ingested sampleObserver ⟨empty, none⟩ skippedTwice)).2.view.skips = [] ∧
      (Table.row? Skip.cid (txt "f0155000100") (ingested sampleObserver ⟨empty, none⟩
        (skippedTwice.filter fun x => !fromPublisher sampleObserver empty (txt "12D3KooWPeer") x)).view.skips).isSome = true := by
    decide +kernel
  have hskips := hsame.skips (txt "f0155000100")
  rw [hs] at hrun
  rw [hrun.1] at hskips
  rw [← hskips] at hrun
  cases hrun.2

end Sample

end ObserverClub.Store
