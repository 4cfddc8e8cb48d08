import ObserverClub.Reexport
import ObserverClub.ScopeVerdicts

namespace ObserverClub.Store

open Library Json Python Sqlite Catalog

section Lines

def spelling : Reading Text := ⟨unescape id, id, id⟩

def lineText (py : Interpreter) (line : Text) (key : String) : Option Text :=
  match readFirst (anyDialect py.dumpsDepth) line with
  | .ok (tree, _) =>
    match (ofTree spelling tree).get (txt key) with
    | some (.str t) => some t
    | _ => none
  | .error _ => none

def stringItem (obj : Value) (key : String) : Option Text :=
  match obj.get (txt key) with
  | some (.str t) => some t
  | _ => none

theorem stringItem_eq {obj : Value} {key : String} {t : Text} : stringItem obj key = some t ↔ item obj key = .str t := by
  unfold stringItem item
  cases obj.get (txt key) with
  | none => simp
  | some v => cases v <;> simp

theorem wireDumps_eq {py : Interpreter} {obj : Value} {body : Text} (h : Protocol.wireDumps py obj = .ok body) :
    (writer false).render obj = body ∧ obj.depth ≤ py.dumpsDepth := by
  rw [Protocol.wireDumps, dumps] at h
  split_ifs at h with hdepth
  exact ⟨Except.ok.inj h, not_lt.mp hdepth⟩

theorem lineText_wireDumps {py : Interpreter} {obj : Value} {body : Text} (h : Protocol.wireDumps py obj = .ok body)
    (hd : obj.Distinct) (key : String) : lineText py body key = stringItem obj key := by
  obtain ⟨rfl, hdepth⟩ := wireDumps_eq h
  have hread := (writer_printed py.dumpsDepth).readFirst obj hdepth
  have htree : ofTree spelling (treeOf tokenOf obj) = obj.map numText := by
    apply ofTree_treeOf rfl _ obj hd
    intro n
    rw [tokenOf]
    split <;> rfl
  unfold lineText stringItem
  rw [hread]
  dsimp only
  rw [htree, get_map]
  cases obj.get (txt key) with
  | none => rfl
  | some v => cases v <;> rfl

theorem numText_ne_newline (n : Python.Num) : ∀ c ∈ numText n, c ≠ 10 := by
  cases hn : isFinite n with
  | true =>
    rintro c hc rfl
    have hread := readNumber_numText hn (r := []) (by simp [NumberEnds])
    have := readNumber_chars hread 10 hc
    revert this
    decide
  | false =>
    cases n with
    | int i => cases hn
    | float x =>
      cases x with
      | fin q => cases hn
      | negZero => cases hn
      | inf neg => cases neg <;> decide
      | nan => decide

theorem quote_ne_newline (t : Text) : ∀ c ∈ Python.quote t, c ≠ 10 := by
  have digit : ∀ n, hexDigit (n % 16) ≠ 10 := by
    intro n
    have : ∀ m < 16, hexDigit m ≠ 10 := by decide
    exact this _ (Nat.mod_lt _ (by decide))
  have char : ∀ c, ∀ d ∈ quoteChar c, d ≠ 10 := by
    intro c d hd
    rw [quoteChar] at hd
    rcases basicEscape_cases c with ⟨e, he, -⟩ | ⟨he, -⟩ | ⟨he, h32, -⟩
    · have hsimple := simpleEscape_of_basicEscape he
      simp only [he, Option.getD_some, List.mem_cons, List.not_mem_nil, or_false] at hd
      rcases hd with rfl | rfl
      · decide
      · rintro rfl
        cases hsimple
    · simp only [he, Option.getD_some, hexEscape, List.mem_cons, List.not_mem_nil, or_false] at hd
      rcases hd with rfl | rfl | rfl | rfl | rfl | rfl <;> first | decide | exact digit _
    · simp only [he, Option.getD_none, List.mem_cons, List.not_mem_nil, or_false] at hd
      omega
  intro c hc
  simp only [Python.quote, List.cons_append, List.mem_cons, List.mem_append, List.mem_flatMap, List.not_mem_nil,
    or_false] at hc
  rcases hc with rfl | ⟨d, -, hc⟩ | rfl
  · decide
  · exact char d c hc
  · decide

theorem render_ne_newline (v : Value) : ∀ c ∈ (writer false).render v, c ≠ 10 := by
  have hw : Writer.Within (· ≠ 10) (writer false) ⟨fun _ => true, fun _ => true, fun _ => true⟩ := by
    refine ⟨fun c hc => ?_, fun n _ => numText_ne_newline n, fun t _ => quote_ne_newline t,
      fun t _ => quote_ne_newline t, fun ms m hm => hm⟩
    simp only [writer, id]
    omega
  exact hw.render v (all_true v)

theorem key_infix {ms : List (Text × Value)} {key : Text} {v : Value} (h : (key, v) ∈ ms) :
    Python.quote key ++ [58] <:+: (writer false).render (.obj ms) := by
  have hcommas : ∀ ps : List Text, ∀ p ∈ ps, p <:+: (writer false).commas ps := by
    intro ps
    induction ps with
    | nil => exact fun p hp => absurd hp List.not_mem_nil
    | cons q ps ih =>
      intro p hp
      cases ps with
      | nil =>
        obtain rfl := List.mem_singleton.mp hp
        exact List.infix_rfl
      | cons q' ps =>
        rw [Writer.commas]
        obtain rfl | hp := List.mem_cons.mp hp
        · exact (List.prefix_append _ _).isInfix
        · exact (ih p hp).trans ⟨q ++ [44], [], by simp [writer]⟩
        exact List.cons_ne_nil _ _
  have hmember : ∀ ms : List (Text × Value), (key, v) ∈ ms →
      (key, (writer false).render v) ∈ (writer false).renderMembers ms := by
    intro ms
    induction ms with
    | nil => exact fun h => absurd h List.not_mem_nil
    | cons m ms ih =>
      intro h
      obtain ⟨k, u⟩ := m
      rw [Writer.renderMembers]
      obtain h | h := List.mem_cons.mp h
      · cases h
        exact List.mem_cons_self
      · exact List.mem_cons_of_mem _ (ih h)
  have hwritten := hcommas _ _ (List.mem_map_of_mem (f := (writer false).member) (hmember ms h))
  have hbegins : Python.quote key ++ [58] <+: (writer false).member (key, (writer false).render v) :=
    ⟨(writer false).render v, by simp [Writer.member, writer]⟩
  refine (hbegins.isInfix.trans hwritten).trans ⟨[123], [125], ?_⟩
  rw [Writer.render]
  rfl

theorem signedBody_of_get {obj : Value} {m : Message} (hs : (obj.get (txt "sig")).isSome = true)
    (hb : (writer false).render obj = m.body) : signedBody m = true := by
  cases obj with
  | obj ms =>
    obtain ⟨v, hv⟩ := Option.isSome_iff_exists.mp hs
    unfold signedBody
    rw [decide_eq_true_eq, ← hb]
    exact key_infix (lookup_mem hv)
  | _ => cases hs

end Lines

section Log

variable (o : Observer)

/-- A message as the inbox hands it over: a dictionary with a signature. -/
def SignedObject (obj : Value) : Prop := obj.Distinct ∧ (obj.get (txt "sig")).isSome = true

/-- A row of `messages` and the message it was made of. -/
def Logged (m : Message) : Prop :=
  ∃ obj, SignedObject obj ∧ Protocol.wireDumps o.py obj = .ok m.body ∧ stringItem obj "kind" = some m.kind ∧ m.kind ∈ kinds

variable {o} {s : Conn} {m : Message}

theorem Logged.kind (h : Logged o m) : lineText o.py m.body "kind" = some m.kind := by
  obtain ⟨obj, ⟨hd, -⟩, hb, hk, -⟩ := h
  rw [lineText_wireDumps hb hd, hk]

theorem Logged.signed (h : Logged o m) : signedBody m = true := by
  obtain ⟨obj, ⟨-, hs⟩, hb, -⟩ := h
  exact signedBody_of_get hs (wireDumps_eq hb).1

theorem Logged.ne_newline (h : Logged o m) : 10 ∉ m.body := by
  obtain ⟨obj, -, hb, -⟩ := h
  intro h10
  rw [← (wireDumps_eq hb).1] at h10
  exact render_ne_newline obj 10 h10 rfl

theorem Logged.ne_nil (h : Logged o m) : m.body ≠ [] := by
  intro hnil
  have hsigned := h.signed
  unfold signedBody at hsigned
  rw [decide_eq_true_eq, hnil] at hsigned
  have := List.infix_nil.mp hsigned
  revert this
  decide

theorem logged_row {t : Tables} {obj : Value} {a : Accepted} (ha : Acceptable o t obj a) (hs : SignedObject obj)
    (cid publisher : Text) (now : ℚ) : Logged o (a.row cid publisher now) :=
  ⟨obj, hs, ha.body, stringItem_eq.mpr ha.kind, ha.known⟩

theorem logged_step {w : Surroundings} {obj : Value} (hs : SignedObject obj) (h : ∀ m ∈ s.view.messages, Logged o m) :
    ∀ m ∈ (step o s (.ingest w obj)).view.messages, Logged o m := by
  have happend : ∀ row, Logged o row → ∀ m ∈ s.view.messages ++ [row], Logged o m := by
    intro row hrow m hm
    obtain hm | hm := List.mem_append.mp hm
    · exact h m hm
    · rw [List.mem_singleton.mp hm]
      exact hrow
  obtain ⟨e, he, -, hview⟩ | ⟨-, hview | ⟨a, cid, publisher, ha, hview⟩⟩ := ingest_cases (o := o) (s := s) w obj
  · obtain ⟨a, ha, -, -, -, -, hkind, -, hbody⟩ := (read_eq_some o).mp he
    rw [hview, Event.effect_frame.1]
    apply happend
    refine ⟨obj, hs, ?_, ?_, ?_⟩
    · rw [Event.message, hbody]
      exact ha.body
    · rw [Event.message, hkind]
      exact stringItem_eq.mpr ha.kind
    · rw [Event.message, hkind]
      exact ha.known
  · rw [hview]
    exact h
  · rw [hview]
    exact happend _ (logged_row ha hs cid publisher w.receivedAt)

def arrivals (sent : List (Surroundings × Value)) : List Call := sent.map fun p => .ingest p.1 p.2

theorem logged_run {sent : List (Surroundings × Value)} (hsent : ∀ p ∈ sent, SignedObject p.2)
    (h : ∀ m ∈ s.view.messages, Logged o m) : ∀ m ∈ (run (step o) s (arrivals sent)).view.messages, Logged o m := by
  induction sent generalizing s with
  | nil => exact h
  | cons p sent ih =>
    rw [List.forall_mem_cons] at hsent
    exact ih hsent.2 (logged_step hsent.1 h)

end Log

section Rule

variable (py : Interpreter) (t : Tables)

/-- The lines of the text that is handed out. -/
def snapshotLines (limit : ℤ) : List Text := (records 10 (exportSnapshot limit t)).1

/-- A classify, a report, or the alias a publisher goes by. -/
def isDocument (m : Message) : Bool :=
  m.kind = txt "classify" || m.kind = txt "alias" && t.aliases.any (fun a => a.payloadHash = m.payloadHash) ||
    m.kind = txt "report"

def SkipLine (line : Text) : Prop := lineText py line "kind" = some (txt "skip")

def VerdictLine (line : Text) : Prop := ∃ r ∈ scopeReasons, lineText py line "reason" = some r

structure ContentRule (limit : ℤ) : Prop where
  bounded : (snapshotLines t limit).length ≤ limit
  ordered : ∃ docs skips, snapshotLines t limit = docs ++ skips ∧
    (∀ l ∈ docs, ¬SkipLine py l ∧ ∃ m ∈ t.messages, m.body = l ∧ isDocument t m = true) ∧ ∀ l ∈ skips, SkipLine py l
  complete : (∃ l ∈ snapshotLines t limit, SkipLine py l) →
    ∀ m ∈ t.messages, isDocument t m = true → m.body ∈ snapshotLines t limit
  verdicts : ∀ l ∈ snapshotLines t limit, SkipLine py l → VerdictLine py l

/-- A signed skip with another reason, of a CID that has since been given a scope verdict. -/
def Stray (m : Message) : Prop := isSnapshotSkip t m = true ∧ ¬VerdictLine py m.body

/-- The skips that go out before this one: those of CIDs with a scope verdict that are newer. -/
def newerSkips (m : Message) : ℕ := (newestFirst (foundSkips t)).idxOf m

variable {py t} {o : Observer} {limit : ℤ}

theorem snapshotLines_eq (limit : ℤ) (h : ∀ m ∈ t.messages, Logged o m) :
    snapshotLines t limit = (snapshotRows limit t).map Message.body := by
  have hrows : ∀ rows : List Message, (∀ m ∈ rows, 10 ∉ m.body) →
      rows.flatMap (fun m => (records 10 (m.body ++ [10])).1) = rows.map Message.body := by
    intro rows hfree
    induction rows with
    | nil => rfl
    | cons m rows ih =>
      rw [List.forall_mem_cons] at hfree
      rw [List.flatMap_cons, records_record 10 m.body [] hfree.1, ih hfree.2]
      rfl
  have hflat : exportSnapshot limit t = ((snapshotRows limit t).map Message.body).flatMap (· ++ [10]) := by
    rw [exportSnapshot, List.flatMap_map]
  rw [snapshotLines, hflat, records_flatMap, List.flatMap_map]
  exact hrows _ fun m hm => (h m (mem_snapshotRows hm).1).ne_newline

variable {found : List Message}

theorem latestRows_eq (h : ∀ m ∈ found, Logged o m) (n : ℕ) : latestRows found n = ((newestFirst found).take n).reverse := by
  unfold latestRows
  congr 1
  rw [List.filter_eq_self]
  intro m hm
  exact decide_eq_true (h m ((newestFirst_perm found).mem_iff.mp (List.mem_of_mem_take hm))).ne_nil

theorem length_latestRows (h : ∀ m ∈ found, Logged o m) (n : ℕ) : (latestRows found n).length = min n found.length := by
  rw [latestRows_eq h, List.length_reverse, List.length_take, (newestFirst_perm found).length_eq]

theorem mem_latestRows_iff (h : ∀ m ∈ found, Logged o m) {n : ℕ} {m : Message} (hm : m ∈ found) :
    m ∈ latestRows found n ↔ (newestFirst found).idxOf m < n := by
  rw [latestRows_eq h, List.mem_reverse, List.mem_take_iff_idxOf_lt ((newestFirst_perm found).mem_iff.mpr hm)]

theorem logged_foundDocs (h : ∀ m ∈ t.messages, Logged o m) : ∀ m ∈ foundDocs t, Logged o m :=
  fun m hm => h m (mem_foundDocs.mp hm).1

theorem logged_foundSkips (h : ∀ m ∈ t.messages, Logged o m) : ∀ m ∈ foundSkips t, Logged o m :=
  fun m hm => h m (mem_foundSkips.mp hm).1

theorem isSnapshotDoc_eq {m : Message} (h : Logged o m) : isSnapshotDoc t m = isDocument t m := by
  unfold isSnapshotDoc isDocument
  rw [h.signed, Bool.true_and]

theorem length_foundDocs (h : ∀ m ∈ t.messages, Logged o m) : (foundDocs t).length = t.messages.countP (isDocument t) := by
  rw [(foundDocs_perm t).length_eq, ← List.countP_eq_length_filter]
  apply List.countP_congr
  intro m hm
  rw [isSnapshotDoc_eq (h m hm)]

theorem not_skipLine {m : Message} (h : Logged o m) (hd : isDocument t m = true) : ¬SkipLine o.py m.body := by
  intro hskip
  unfold SkipLine at hskip
  rw [h.kind] at hskip
  have hkind := Option.some.inj hskip
  unfold isDocument at hd
  rw [hkind] at hd
  revert hd
  simp only [show txt "skip" ≠ txt "classify" from by decide, show txt "skip" ≠ txt "alias" from by decide,
    show txt "skip" ≠ txt "report" from by decide, decide_false, Bool.false_and, Bool.or_false]
  exact nofun

theorem skipLine_of_skip {m : Message} (h : Logged o m) (hs : isSnapshotSkip t m = true) : SkipLine o.py m.body := by
  unfold isSnapshotSkip at hs
  simp only [Bool.and_eq_true, decide_eq_true_eq] at hs
  unfold SkipLine
  rw [h.kind, hs.1.2]

theorem mem_snapshot (limit : ℤ) (h : ∀ m ∈ t.messages, Logged o m) {m : Message} (hm : m ∈ t.messages) :
    (m ∈ latestRows (foundDocs t) limit.toNat → isDocument t m = true) ∧
      (isSnapshotSkip t m = true →
        (m ∈ latestRows (foundSkips t) (limit.toNat - (latestRows (foundDocs t) limit.toNat).length) ↔
          t.messages.countP (isDocument t) + newerSkips t m < limit)) := by
  constructor
  · intro hdoc
    rw [← isSnapshotDoc_eq (h m hm)]
    exact (mem_foundDocs.mp (mem_latestRows hdoc)).2
  · intro hskip
    rw [mem_latestRows_iff (logged_foundSkips h) (mem_foundSkips.mpr ⟨hm, hskip⟩), length_latestRows (logged_foundDocs h),
      length_foundDocs h, newerSkips]
    omega

theorem contentRule_iff (h : ∀ m ∈ t.messages, Logged o m) (hlimit : 0 ≤ limit) :
    ContentRule o.py t limit ↔
      ∀ m ∈ t.messages, Stray o.py t m → limit ≤ t.messages.countP (isDocument t) + newerSkips t m := by
  have hlines := snapshotLines_eq limit h
  have hline : ∀ {l : Text}, l ∈ snapshotLines t limit ↔ ∃ m ∈ snapshotRows limit t, m.body = l := by
    intro l
    rw [hlines, List.mem_map]
  constructor
  · rintro hrule m hm ⟨hskip, hstray⟩
    by_contra hroom
    have hmem := ((mem_snapshot limit h hm).2 hskip).mpr (by omega)
    apply hstray
    apply hrule.verdicts m.body (hline.mpr ⟨m, List.mem_append_right _ hmem, rfl⟩)
    exact skipLine_of_skip (h m hm) hskip
  · intro hstrays
    constructor
    · rw [hlines, List.length_map, snapshotRows, List.length_append, length_latestRows (logged_foundDocs h),
        length_latestRows (logged_foundSkips h)]
      omega
    · refine ⟨(latestRows (foundDocs t) limit.toNat).map Message.body,
        (latestRows (foundSkips t) (limit.toNat - (latestRows (foundDocs t) limit.toNat).length)).map Message.body, ?_, ?_, ?_⟩
      · rw [hlines, snapshotRows, List.map_append]
      · intro l hl
        obtain ⟨m, hm, rfl⟩ := List.mem_map.mp hl
        have hmem := (mem_foundDocs.mp (mem_latestRows hm)).1
        have hdoc := (mem_snapshot limit h hmem).1 hm
        exact ⟨not_skipLine (h m hmem) hdoc, m, hmem, rfl, hdoc⟩
      · intro l hl
        obtain ⟨m, hm, rfl⟩ := List.mem_map.mp hl
        obtain ⟨hmem, hskip⟩ := mem_foundSkips.mp (mem_latestRows hm)
        exact skipLine_of_skip (h m hmem) hskip
    · rintro ⟨l, hl, hskipline⟩ d hd hdoc
      obtain ⟨m, hm, rfl⟩ := hline.mp hl
      have hmem := (mem_snapshotRows hm).1
      obtain hm | hm := List.mem_append.mp hm
      · exact absurd hskipline (not_skipLine (h m hmem) ((mem_snapshot limit h hmem).1 hm))
      · -- a skip is there, so the documents are fewer than the limit
        have hroom := ((mem_snapshot limit h hmem).2 (mem_foundSkips.mp (mem_latestRows hm)).2).mp hm
        refine hline.mpr ⟨d, List.mem_append_left _ ?_, rfl⟩
        have hsnapshotDoc : isSnapshotDoc t d = true := (isSnapshotDoc_eq (h d hd)).trans hdoc
        have hfound : d ∈ foundDocs t := mem_foundDocs.mpr ⟨hd, hsnapshotDoc⟩
        have hidx := List.idxOf_lt_length_of_mem ((newestFirst_perm _).mem_iff.mpr hfound)
        rw [(newestFirst_perm _).length_eq, length_foundDocs h] at hidx
        rw [mem_latestRows_iff (logged_foundDocs h) hfound]
        omega
    · intro l hl hskipline
      obtain ⟨m, hm, rfl⟩ := hline.mp hl
      have hmem := (mem_snapshotRows hm).1
      obtain hm | hm := List.mem_append.mp hm
      · exact absurd hskipline (not_skipLine (h m hmem) ((mem_snapshot limit h hmem).1 hm))
      · by_contra hstray
        have hskip := (mem_foundSkips.mp (mem_latestRows hm)).2
        have hroom := ((mem_snapshot limit h hmem).2 hskip).mp hm
        have hfull := hstrays m hmem ⟨hskip, hstray⟩
        omega

end Rule

section Claim

/-- The catalog that has taken in the messages. -/
def catalogOf (o : Observer) (sent : List (Surroundings × Value)) : Tables := (run (step o) fresh (arrivals sent)).view

/-- The snapshot of a catalog that has ingested signed messages follows the rule on its contents exactly when every
stray skip is crowded out by the documents and by newer skips. -/
theorem snapshot_rule_iff (o : Observer) (sent : List (Surroundings × Value)) (hsent : ∀ p ∈ sent, SignedObject p.2)
    (limit : ℤ) (hlimit : 0 ≤ limit) :
    ContentRule o.py (catalogOf o sent) limit ↔
      ∀ m ∈ (catalogOf o sent).messages, Stray o.py (catalogOf o sent) m →
        limit ≤ (catalogOf o sent).messages.countP (isDocument (catalogOf o sent)) + newerSkips (catalogOf o sent) m := by
  have hfresh : ∀ m ∈ fresh.view.messages, Logged o m := fun m hm => (nomatch hm)
  exact contentRule_iff (logged_run hsent hfresh) hlimit

theorem signedObject_pageSkip (publisher reason : String) : SignedObject (pageSkip publisher reason) := by
  refine ⟨⟨?_, trivial, trivial, trivial, trivial, trivial, trivial⟩, rfl⟩
  change List.Nodup [txt "cid", txt "kind", txt "publisher", txt "reason", txt "sig"]
  decide

def sentSkips (skips : List (ℚ × String × String)) : List (Surroundings × Value) :=
  skips.map fun p => (⟨p.1, p.1, p.1, .ok ()⟩, pageSkip p.2.1 p.2.2)

theorem signedObject_sentSkips (skips : List (ℚ × String × String)) : ∀ p ∈ sentSkips skips, SignedObject p.2 := by
  intro p hp
  obtain ⟨q, -, rfl⟩ := List.mem_map.mp hp
  exact signedObject_pageSkip q.2.1 q.2.2

def verdicts : List (Surroundings × Value) :=
  sentSkips [(1000, "12D3KooWPeer", "out_of_scope"), (2000, "12D3KooWOther", "not_academic")]

theorem snapshot_rule_verdicts : ContentRule sampleObserver.py (catalogOf sampleObserver verdicts) 10 ↔
    ∀ m ∈ (catalogOf sampleObserver verdicts).messages,
      Stray sampleObserver.py (catalogOf sampleObserver verdicts) m →
        10 ≤ ((catalogOf sampleObserver verdicts).messages.countP (isDocument (catalogOf sampleObserver verdicts)) : ℤ) +
          newerSkips (catalogOf sampleObserver verdicts) m :=
  snapshot_rule_iff sampleObserver verdicts (signedObject_sentSkips _) 10 (by decide)

/-- A skip that says `unprocessable`, and then the verdict of another node on the same CID. -/
def strayThenVerdict : List (Surroundings × Value) :=
  sentSkips [(1000, "12D3KooWPeer", "unprocessable"), (2000, "12D3KooWOther", "out_of_scope")]

theorem snapshot_stray : (∀ p ∈ strayThenVerdict, SignedObject p.2) ∧
    ¬ContentRule sampleObserver.py (catalogOf sampleObserver strayThenVerdict) 10 := by
  refine ⟨signedObject_sentSkips _, ?_⟩
  intro hrule
  have hreason : lineText sampleObserver.py ((writer false).render (pageSkip "12D3KooWPeer" "unprocessable")) "reason" =
      some (txt "unprocessable") := by decide +kernel
  have hkind : SkipLine sampleObserver.py ((writer false).render (pageSkip "12D3KooWPeer" "unprocessable")) := by
    unfold SkipLine
    decide +kernel
  obtain ⟨r, hr, hline⟩ := hrule.verdicts _ (by decide +kernel) hkind
  cases hreason.symm.trans hline
  revert hr
  decide

end Claim

end ObserverClub.Store
