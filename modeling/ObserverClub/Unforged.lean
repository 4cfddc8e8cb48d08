import ObserverClub.Hosts

namespace ObserverClub.Host

open Library Ingest Store Catalog Sqlite

section Rows

variable (setup : Setup)

/-- The row of a message whose signature verifies under the publisher that the row names. -/
def Proven (m : Message) : Prop := ∃ g a, Clubd.Signed setup.node g ∧ Acceptable setup.observer empty (pythonView g) a ∧
  m.publisher = Go.stringOf g "publisher" ∧ bindText setup.observer a.cid = .ok (some m.cid) ∧ m.kind = a.kind ∧
  m.payloadHash = a.payloadHash ∧ m.body = a.body

def Honest (c : Conn) : Prop := ∀ m, m ∈ c.view.messages ∨ m ∈ c.committed.messages → Proven setup m

variable {setup}

theorem publisher_of_signed (hnobody : setup.node.decodePeer [] = none) {g : Go.Value} (hs : Clubd.Signed setup.node g)
    {a : Accepted} {publisher : Text} (ha : Acceptable setup.observer empty (pythonView g) a)
    (hp : bindText setup.observer a.publisher = .ok (some publisher)) : publisher = Go.stringOf g "publisher" := by
  obtain ⟨sig, pid, pk, -, hpid, -⟩ := hs
  have hitem : a.publisher = pythonView (Go.item g "publisher") := by
    rw [ha.publisher, Python.item, Go.item, pythonView, pythonView, Json.get_map]
    cases g.get (txt "publisher") <;> rfl
  unfold Go.stringOf at hpid ⊢
  cases hg : Go.item g "publisher" with
  | str t =>
    rw [hg] at hitem
    rw [hitem] at hp
    exact Option.some.inj ((bindText_str setup.observer).mp hp).2
  | _ =>
    rw [hg] at hpid
    rw [hnobody] at hpid
    cases hpid

theorem honest_ingest (hnobody : setup.node.decodePeer [] = none) {c : Conn} (hc : Honest setup c) (w : Surroundings)
    {g : Go.Value} (hs : Clubd.Signed setup.node g) :
    Honest setup (ingestMessage setup.observer w (pythonView g) c).2 := by
  have hview : ∀ m ∈ (ingestMessage setup.observer w (pythonView g) c).2.view.messages, Proven setup m := by
    have hstep : (Store.step setup.observer c (.ingest w (pythonView g))).view =
        (ingestMessage setup.observer w (pythonView g) c).2.view := congrArg Session.view (discard_snd _ _)
    intro m hm
    rw [← hstep] at hm
    by_cases hr : ∃ a cid publisher, Acceptable setup.observer c.view (pythonView g) a ∧
        Recordable setup.observer c.view a cid publisher
    · obtain ⟨a, cid, publisher, ha, hr⟩ := hr
      rw [ingest_recordable ha hr] at hm
      have hmessages : ((eventIn setup.observer (w, pythonView g)).elim id (fun e => e.effect w)
          (withMessage (a.row cid publisher w.receivedAt) c.view)).messages =
            c.view.messages ++ [a.row cid publisher w.receivedAt] := by
        cases eventIn setup.observer (w, pythonView g) with
        | none => rfl
        | some e => exact Event.effect_frame.1
      rw [hmessages] at hm
      obtain hm | hm := List.mem_append.mp hm
      · exact hc m (Or.inl hm)
      · obtain rfl := List.mem_singleton.mp hm
        exact ⟨g, a, hs, ha.unlisted, publisher_of_signed hnobody hs ha.unlisted hr.publisher, hr.cid, rfl, rfl, rfl⟩
    · rw [ingest_unrecordable fun a cid publisher ha hrec => hr ⟨a, cid, publisher, ha, hrec⟩] at hm
      exact hc m (Or.inl hm)
  rintro m (hm | hm)
  · exact hview m hm
  · have hcases := ingestMessage_cases setup.observer w (pythonView g) c
    generalize ingestMessage setup.observer w (pythonView g) c = out at hcases hm hview
    cases hcases with
    | refused _ _ => exact hc m (Or.inr hm)
    | rejected _ _ _ => exact hc m (Or.inr hm)
    | broken _ _ _ => exact hc m (Or.inr hm)
    | done _ _ _ => exact hview m hm

theorem honest_line (hnobody : setup.node.decodePeer [] = none) {c : Conn} (hc : Honest setup c) (w : Surroundings)
    {raw : Bytes} (hraw : Vouched setup raw) : Honest setup (ingestLine setup.observer w raw c).2 := by
  unfold ingestLine
  split_ifs with hblank
  · exact hc
  · cases hloads : Python.loadsBytes setup.observer.py (trim isSpaceByte raw) with
    | error e => cases e <;> exact hc
    | ok obj =>
      obtain ⟨g, rfl, hs⟩ := hraw hblank obj hloads
      dsimp only
      rw [discard_snd]
      exact honest_ingest hnobody hc w hs

theorem honest_expire {c : Conn} (hc : Honest setup c) (now now' : ℚ) :
    Honest setup (expireClaims setup.observer now now' c).2 := by
  obtain ⟨u, hu, hcore, -, hdurable⟩ := expireClaims_run (o := setup.observer) now now' c
  have hmessages : u.view.messages = c.view.messages := congrArg Prod.fst hcore
  rw [hu]
  rintro m (hm | hm)
  · rw [hmessages] at hm
    exact hc m (Or.inl hm)
  · rw [← hdurable, hmessages] at hm
    exact hc m (Or.inl hm)

end Rows

section Calls

variable {o : Observer} {I : Tables → Prop}

def Shrinks (I : Tables → Prop) : Prop := ∀ t t', t'.messages ⊆ t.messages → I t → I t'

theorem Shrinks.same (hI : Shrinks I) {t t' : Tables} (h : t'.messages = t.messages) (ht : I t) : I t' :=
  hI t t' (by rw [h]; exact fun _ hm => hm) ht

theorem messages_addStat (key : Text) (delta : ℤ) (t : Tables) : (addStat key delta t).messages = t.messages := by
  rw [addStat_eq]

theorem messages_indexDoc (cid : Text) (t : Tables) : (indexDoc cid t).messages = t.messages := by
  unfold indexDoc
  split <;> rfl

theorem messages_dropDoc (cid : Text) (t : Tables) : (dropDoc cid t).messages = t.messages := by
  obtain ⟨fts, settings, h⟩ := dropDoc_eq cid t
  rw [h]

theorem upsertDoc_keeps (hI : Shrinks I) (cid publisher : Text) (obj : Python.Value) (now : ℚ) :
    Txn.Keeps I (upsertDoc o cid publisher obj now) := by
  refine .bind (.lift _) fun field => .bind (.lift _) fun indexedAt => .read_bind fun known => .bind (.attempt ?_) fun _ => ?_
  · intro t a t' ht h
    obtain ⟨d, -, h⟩ := bind_eq_ok.mp h
    cases h
    exact hI.same (t := t) rfl ht
  · refine .ite (.bind (.write fun t ht => ?_) fun _ => .write fun t ht => ?_) (.pure ())
    · exact hI.same (messages_indexDoc cid t) ht
    · exact hI.same (messages_addStat docsCount 1 t) ht

theorem rebuildDocs_keeps (hI : Shrinks I) (cids : List Text) : Txn.Keeps I (rebuildDocs o cids) := by
  induction cids with
  | nil => exact .pure ()
  | cons cid cids ih =>
    refine .bind (.bind (.write fun t ht => ?_) fun _ => .read_bind fun t => ?_) fun _ => ih
    · exact hI.same (messages_dropDoc cid t) ht
    · cases earliest (classifiesOf cid t) with
      | none => exact .pure ()
      | some c => exact upsertDoc_keeps hI cid c.publisher c.dict c.receivedAt

theorem messages_purgeCids (cids : List Text) (t : Tables) :
    (cids.foldl (fun t cid => purgeCid cid t) t).messages ⊆ t.messages := by
  induction cids generalizing t with
  | nil => exact List.Subset.refl _
  | cons cid cids ih =>
    refine List.Subset.trans (ih (purgeCid cid t)) ?_
    dsimp only [purgeCid]
    split_ifs
    · exact List.filter_subset_self _
    · rw [messages_addStat]
      exact List.filter_subset_self _

theorem perform_keeps (hI : Shrinks I) {c : Call} (hc : c.received = none) : Txn.Keeps I (Store.perform o c) := by
  have hsub {p : Message → Bool} {t t' : Tables} (h : t'.messages = t.messages.filter p) (ht : I t) : I t' := by
    refine hI t t' ?_ ht
    rw [h]
    exact List.filter_subset_self _
  cases c with
  | ingest w obj => cases hc
  | blacklist me publisher now =>
    refine .bind (.ite (.pure _) (.ite (.pure _) (.bind (.lift _) fun _ => .read_bind fun t => ?_))) fun _ => .pure _
    refine .bind (.write fun t ht => hI.same (t := t) rfl ht) fun _ => .bind (.write fun t ht => hsub (t := t) rfl ht) fun _ => ?_
    exact .bind (rebuildDocs_keeps hI _) fun _ => .bind .commit fun _ => .pure _
  | unblacklist publisher =>
    refine .bind (.ite (.pure _) (.bind (.attempt ?_) fun _ => .bind .commit fun _ => .pure _)) fun _ => .pure _
    intro t a t' ht h
    obtain ⟨_, -, h⟩ := bind_eq_ok.mp h
    cases h
    exact hI.same (t := t) rfl ht
  | expire now now' =>
    refine .bind (.write fun t ht => hI.same (t := t) rfl ht) fun _ => ?_
    exact .ite (.bind (.write fun t ht => hI.same (t := t) rfl ht) fun _ => .commit) .commit
  | purgeSkips =>
    refine .bind (.read_bind fun t => .ite (.pure _) ?_) fun _ => .pure _
    exact .bind (.write fun t ht => hsub (t := t) rfl ht) fun _ => .bind .commit fun _ => .pure _
  | purgeCids =>
    refine .bind (.read_bind fun t => .ite (.pure _) ?_) fun _ => .pure _
    exact .bind (.write fun t ht => hI _ _ (messages_purgeCids _ t) ht) fun _ => .bind .commit fun _ => .pure _
  | count =>
    have hrecount : Txn.Keeps I recount :=
      .read_bind fun t => .bind (.write fun t ht => hI.same (t := t) rfl ht) fun _ => .pure _
    refine .bind (.read_bind fun t => ?_) fun _ => .pure _
    cases t.settings.lookup docsCount with
    | none => exact hrecount
    | some value =>
      cases h : Python.intOfText value with
      | ok n =>
        simp only [h]
        exact .pure n
      | error e =>
        simp only [h]
        exact hrecount

theorem honest_call {setup : Setup} {c : Conn} (hc : Honest setup c) {call : Call} (hcall : call.received = none) :
    Honest setup (Store.step setup.observer c call) := by
  have hI : Shrinks fun t => ∀ m ∈ t.messages, Proven setup m := fun t t' hsub ht m hm => ht m (hsub hm)
  obtain ⟨hcommitted, hview⟩ := perform_keeps (o := setup.observer) hI hcall c (fun m hm => hc m (Or.inr hm))
    fun m hm => hc m (Or.inl hm)
  rintro m (hm | hm)
  · exact hview m hm
  · exact hcommitted m hm

end Calls

section Drains

variable {setup : Setup} {today : Text} {d₀ d : Disk}

variable (setup today d₀) in
/-- Acts that do no harm to the files and the offsets of the disk they are for. -/
def Harmless : Act → Prop
  | .line _ raw => Vouched setup raw
  | .remove name => Past today name
  | .save offsets => (∀ f ∈ d₀.files, ∀ k, offsets f.name = some k → k ≤ f.content.length ∧ Whole (f.content.take k)) ∧
      ∀ name, offsets name ≠ none → name ∈ d₀.files.map File.name ∨ Past today name
  | .expire _ _ => True

variable (setup today d₀) in
structure Draining (d : Disk) : Prop where
  shelf : Shelf setup today d.files d.offsets
  honest : Honest setup d.conn
  subset : ∀ f ∈ d.files, f ∈ d₀.files
  removed : ∀ name ∈ d₀.files.map File.name, name ∈ d.files.map File.name ∨ Past today name

theorem Draining.exec (h : Draining setup today d₀ d) (hnobody : setup.node.decodePeer [] = none) {a : Act}
    (ha : Harmless setup today d₀ a) : Draining setup today d₀ (Ingest.exec setup.observer d a).2 := by
  cases a with
  | line w raw => exact ⟨h.shelf, honest_line hnobody h.honest w ha, h.subset, h.removed⟩
  | remove name =>
    refine ⟨?_, h.honest, fun f hf => h.subset f (List.mem_of_mem_filter hf), fun other hother => ?_⟩
    · apply h.shelf.filter
      intro f _ hgone
      rw [decide_eq_false_iff_not, not_not] at hgone
      rw [hgone]
      exact ha
    · obtain hmem | hpast := h.removed other hother
      · by_cases hname : other = name
        · rw [hname]
          exact Or.inr ha
        · obtain ⟨f, hf, rfl⟩ := List.mem_map.mp hmem
          exact Or.inl (List.mem_map_of_mem (List.mem_filter.mpr ⟨hf, decide_eq_true hname⟩))
      · exact Or.inr hpast
  | save offsets =>
    refine ⟨⟨h.shelf.named, h.shelf.whole, h.shelf.vouched, fun f hf => ha.1 f (h.subset f hf), fun name hname => ?_⟩,
      h.honest, h.subset, h.removed⟩
    obtain hmem | hpast := ha.2 name hname
    · exact h.removed name hmem
    · exact Or.inr hpast
  | expire now now' => exact ⟨h.shelf, honest_expire h.honest now now', h.subset, h.removed⟩

theorem Draining.perform (h : Draining setup today d₀ d) (hnobody : setup.node.decodePeer [] = none) {acts : List Act}
    (hacts : ∀ a ∈ acts, Harmless setup today d₀ a) : Draining setup today d₀ (perform setup.observer acts d).2 := by
  induction acts generalizing d with
  | nil => exact h
  | cons a acts ih =>
    rw [List.forall_mem_cons] at hacts
    have hnext := h.exec hnobody hacts.1
    cases hexec : Ingest.exec setup.observer d a with
    | mk r d' =>
      rw [hexec] at hnext
      cases r with
      | ok u =>
        rw [perform_ok hexec]
        exact ih hnext hacts.2
      | error e =>
        rw [perform_error hexec]
        exact hnext

theorem Shelf.unread (h : Shelf setup today d.files d.offsets) {f : File} (hf : f ∈ d.files) :
    (∀ raw ∈ (unread f (d.offsets f.name)).1, Vouched setup raw) ∧ (unread f (d.offsets f.name)).2 = [] := by
  obtain ⟨hwhole, hle⟩ : Whole (f.content.take (seek f (d.offsets f.name))) ∧
      seek f (d.offsets f.name) ≤ f.content.length := by
    unfold seek
    cases hk : d.offsets f.name with
    | none =>
      rw [Option.getD_none, ite_self]
      exact ⟨rfl, Nat.zero_le _⟩
    | some k =>
      obtain ⟨hle, hwhole⟩ := h.marked f hf k hk
      rw [Option.getD_some, if_neg (by omega)]
      exact ⟨hwhole, hle⟩
  have hrecords := records_whole hwhole (f.content.drop (seek f (d.offsets f.name)))
  rw [List.take_append_drop] at hrecords
  have hvouched := h.vouched f hf
  have hend := h.whole f hf
  rw [Whole] at hend
  rw [hrecords] at hvouched hend
  exact ⟨fun raw hraw => hvouched raw (List.mem_append_right _ hraw), hend⟩

theorem mem_pruneInbox {cfg : Config} {r : Readings} {offsets : Text → Option ℕ} {files : List File} {name : Text}
    (h : name ∈ pruneInbox cfg r offsets files) : name ≠ r.today ∧ ∃ f ∈ files, f.name = name := by
  let Q : Pruning → Prop := fun p => ∀ name ∈ p.removed, name ≠ r.today ∧ ∃ f ∈ files, f.name = name
  have hremove : ∀ p : Pruning, Q p → ∀ f ∈ files, Q (p.remove r f) := by
    intro p hp f hf name hname
    unfold Pruning.remove at hname
    split_ifs at hname with hstays
    · exact hp name hname
    · obtain hname | hname := List.mem_append.mp hname
      · exact hp name hname
      · obtain rfl := List.mem_singleton.mp hname
        exact ⟨fun he => hstays (Or.inl he), f, hf, rfl⟩
  have hfold : ∀ (step : Pruning → File → Pruning), (∀ p f, step p f = p ∨ step p f = p.remove r f) →
      ∀ p, Q p → Q (files.foldl step p) := by
    intro step hstep p hp
    have hall : ∀ fs : List File, fs ⊆ files → ∀ p, Q p → Q (fs.foldl step p) := by
      intro fs
      induction fs with
      | nil => exact fun _ p hp => hp
      | cons f fs ih =>
        intro hsub p hp
        rw [List.cons_subset] at hsub
        refine ih hsub.2 _ ?_
        obtain he | he := hstep p f
        · rw [he]
          exact hp
        · rw [he]
          exact hremove p hp f hsub.1
    exact hall files (List.Subset.refl _) p hp
  unfold pruneInbox at h
  refine hfold _ (fun p f => ?_) _ (hfold _ (fun p f => ?_) _ fun name hname => absurd hname List.not_mem_nil) name h
  · split_ifs
    · exact Or.inl rfl
    · exact Or.inr rfl
  · split_ifs
    · exact Or.inr rfl
    · exact Or.inl rfl

theorem popped_eq_some {removed : List Text} {offsets : Text → Option ℕ} {name : Text} {k : ℕ}
    (h : removed.foldl (fun offsets name => Function.update offsets name none) offsets name = some k) :
    offsets name = some k := by
  induction removed generalizing offsets with
  | nil => exact h
  | cons r removed ih =>
    have hrest : Function.update offsets r none name = some k := ih h
    by_cases hname : name = r
    · rw [hname, Function.update_self] at hrest
      cases hrest
    · rw [Function.update_of_ne hname] at hrest
      exact hrest

theorem Shelf.harmless (h : Shelf setup today d.files d.offsets) {r : Readings}
    (hr : r.today = Clubd.dayFile today) : ∀ a ∈ drainOnce setup.config r d, Harmless setup today d a := by
  intro a ha
  have hpast : ∀ name ∈ pruneInbox setup.config r (advanced (jsonl d.files) d.offsets) (jsonl d.files), Past today name := by
    intro name hname
    obtain ⟨hne, f, hf, rfl⟩ := mem_pruneInbox hname
    rw [hr] at hne
    exact h.past (mem_jsonl.mp hf).1 hne
  unfold drainOnce closing at ha
  dsimp only at ha
  obtain ha | ha := List.mem_append.mp ha
  · obtain ⟨p, hp, rfl⟩ := List.mem_map.mp ha
    have hline : p.2 ∈ lines d := by
      rw [← map_snd_timed r d]
      exact List.mem_map_of_mem hp
    obtain ⟨f, hf, hraw⟩ := mem_lines.mp hline
    exact (h.unread (mem_jsonl.mp hf).1).1 _ hraw
  · obtain ha | ha := List.mem_append.mp ha
    · obtain ⟨name, hname, rfl⟩ := List.mem_map.mp ha
      exact hpast name hname
    · rw [List.mem_cons, List.mem_singleton] at ha
      obtain rfl | rfl := ha
      · have hold (name : Text) {k : ℕ} (hk : (pruneInbox setup.config r (advanced (jsonl d.files) d.offsets)
            (jsonl d.files)).foldl (fun offsets name => Function.update offsets name none)
              (advanced (jsonl d.files) d.offsets) name = some k) : advanced (jsonl d.files) d.offsets name = some k :=
          popped_eq_some hk
        refine ⟨fun f hf k hk => ?_, fun name hname => ?_⟩
        · have hread := hold f.name hk
          by_cases hlisted : f ∈ jsonl d.files
          · rw [advanced_of_mem (names_jsonl d.distinct) hlisted, position, (h.unread hf).2] at hread
            obtain rfl : f.content.length = k := Option.some.inj hread
            rw [List.take_length]
            exact ⟨le_rfl, h.whole f hf⟩
          · rw [advanced_of_not_mem] at hread
            · exact h.marked f hf k hread
            · intro hmem
              obtain ⟨g, hg, he⟩ := List.mem_map.mp hmem
              obtain rfl := List.inj_on_of_nodup_map d.distinct (mem_jsonl.mp hg).1 hf he
              exact hlisted hg
        · obtain ⟨k, hk⟩ := Option.ne_none_iff_exists'.mp hname
          have hread := hold name hk
          by_cases hlisted : name ∈ (jsonl d.files).map File.name
          · obtain ⟨f, hf, rfl⟩ := List.mem_map.mp hlisted
            exact Or.inl (List.mem_map_of_mem (mem_jsonl.mp hf).1)
          · rw [advanced_of_not_mem hlisted] at hread
            exact h.gone name (by rw [hread]; exact Option.some_ne_none k)
      · trivial

end Drains

section Lines

variable (setup : Setup)

structure Good (line : Bytes) : Prop where
  records : ∀ raw ∈ (records 10 (line ++ [10])).1, Vouched setup raw
  whole : ∀ v, Python.loadsBytes setup.observer.py line = .ok v → ∃ g, v = pythonView g ∧ Clubd.Signed setup.node g

variable {setup}

theorem loads_framed {py : Python.Interpreter} {data : Bytes} {g : Go.Value} {v : Python.Value}
    (hg : Canon.decodeJSON data = some g) (hf : Framed py data) (hv : Python.loadsBytes py data = .ok v) :
    v = pythonView g := by
  apply loads_agree hg hv
  obtain ⟨line, t, ms, r, hl, ht, hr, -, -, hu⟩ := hf
  obtain ⟨a, b, rfl, ha, hb⟩ := line_between hl
  obtain ⟨t', ht', hloads⟩ := loadsBytes_ok hv
  obtain ⟨tree, r', hread, -, rfl⟩ := loads_ok hloads
  have htext : t' = a.map UInt8.toNat ++ (t ++ b.map UInt8.toNat) := by
    rw [← Utf8.decodeLossy_of_decode ht', List.append_assoc,
      Utf8.decodeLossy_ascii_append (fun x hx => isSpaceByte_ascii (ha x hx)),
      Utf8.decodeLossy_append_ascii (fun x hx => isSpaceByte_ascii (hb x hx)), Utf8.decodeLossy_of_decode ht]
  have hspaces : ∀ c ∈ a.map UInt8.toNat, Python.isSpaceAscii c = true := by
    intro c hc
    obtain ⟨x, hx, rfl⟩ := List.mem_map.mp hc
    exact ha x hx
  unfold Json.readFirst at hread hr
  have hne : Json.skipWs t ≠ [] := fun he => Json.readValue_nil _ _ _ _ (by rw [← he]; exact hr)
  rw [htext] at hread
  rw [skipWs_spaces hspaces hread, Json.skipWs_append _ hne] at hread
  obtain ⟨rfl, -⟩ := Json.readValue_unique hr hread (.inr (.inr rfl))
  exact hu

theorem good_of_framed {line : Bytes} {m : Go.Value} (hm : Clubd.verify setup.node line = .ok m)
    (hf : Framed setup.observer.py line) : Good setup line := by
  obtain ⟨hd, hs⟩ := Clubd.verify_ok hm
  obtain ⟨ms, rfl, hdec⟩ := decodeObject_ok hd
  refine ⟨fun raw hraw hblank v hv => ?_, fun v hv => ⟨_, loads_framed hdec hf hv, hs.signed⟩⟩
  have hmem : .ok v ∈ (inboxLines (line ++ [10])).map (Python.loadsBytes setup.observer.py) := by
    rw [← hv]
    apply List.mem_map_of_mem
    unfold inboxLines
    exact List.mem_filter.mpr ⟨List.mem_map_of_mem hraw, by simpa using hblank⟩
  rw [authentic_of_framed hdec hf, List.mem_singleton] at hmem
  exact ⟨_, Except.ok.inj hmem, hs.signed⟩

/-- The lines that a call answers with satisfy the condition. -/
def Answers (Q : Bytes → Prop) : Clubd.Call → Prop
  | .done (.published line) => Q line
  | .done _ => True
  | .act _ next => ∀ r, Answers Q (next r)

def signedLine (m : Go.Value) (sig : Bytes) : Bytes := Go.jsonMarshal (Go.setItem m "sig" (.str (hexText sig)))

variable {node : Clubd.Node} {Q : Bytes → Prop}

theorem acceptGossip_answers (data : Bytes) (rateLimit : Bool) : Answers Q (Clubd.acceptGossip node data rateLimit) := by
  have hrest (m : Go.Value) : Answers Q (Clubd.admitRest node data m) := by
    intro admitted
    cases admitted with
    | false => trivial
    | true =>
      intro written
      cases written <;> trivial
  unfold Clubd.acceptGossip
  cases Clubd.verify node data with
  | error e => trivial
  | ok m =>
    intro seen
    cases seen with
    | true => trivial
    | false =>
      cases rateLimit with
      | false => exact hrest m
      | true =>
        intro allowed
        cases allowed with
        | false => trivial
        | true => exact hrest m

theorem handlePublish_deals {request : Clubd.Request} (h : ∀ m sig, Clubd.prepare node request = .ok m →
    node.sign (Canon.marshal m) = some sig → Q (signedLine m sig)) :
    Clubd.Appends (fun e => Q e.line) (Clubd.handlePublish node request) ∧ Answers Q (Clubd.handlePublish node request) := by
  unfold Clubd.handlePublish
  cases hp : Clubd.prepare node request with
  | error refusal => exact ⟨trivial, trivial⟩
  | ok m =>
    dsimp only
    cases hs : node.sign (Canon.marshal m) with
    | none => exact ⟨trivial, trivial⟩
    | some sig =>
      have hline := h m sig hp hs
      constructor
      · intro admitted
        cases admitted with
        | false => trivial
        | true =>
          refine fun seen => ⟨hline, fun written => ?_⟩
          cases written with
          | false => trivial
          | true => exact fun sent => trivial
      · intro admitted
        cases admitted with
        | false => trivial
        | true =>
          intro seen written
          cases written with
          | false => trivial
          | true =>
            intro sent
            cases sent with
            | false => trivial
            | true => exact hline

end Lines

section Claim

variable (setup : Setup)

structure Sound (s : State) : Prop where
  daemon : Clubd.AllAppend (fun e => Good setup e.line) s.daemon
  answers : ∀ p ∈ s.daemon.calls, Answers (Good setup) p
  shelf : Shelf setup (setup.day s.clock) s.disk.files s.disk.offsets
  honest : Honest setup s.disk.conn

/-- Time does not run back; what is verified and what the node signs are each framed as one message; no write to the
inbox breaks off within a line; a drain goes by the day on which it tidies up; and messages come into the catalog through
the inbox and the replies alone. -/
structure Regular (s : State) (e : Event) : Prop where
  begins : s.clock ≤ e.first
  ends : e.first ≤ e.last
  delivered : ∀ data rateLimit now stuck, e.deed = .daemon (.start (.gossip data rateLimit)) now stuck →
    ∀ m, Clubd.verify setup.node data = .ok m → Framed setup.observer.py data
  published : ∀ request now stuck, e.deed = .daemon (.start (.publish request)) now stuck →
    ∀ m sig, Clubd.prepare setup.node request = .ok m → setup.node.sign (Canon.marshal m) = some sig →
      Framed setup.observer.py (signedLine m sig)
  unbroken : ∀ i r now stuck, e.deed = .daemon (.advance i r) now stuck → r.Unbroken
  drained : ∀ a, e.deed = .drain a →
    ∃ now, e.first ≤ now ∧ now ≤ e.last ∧ a.readings.today = Clubd.dayFile (setup.day now)
  called : ∀ c, e.deed = .call c → c.received = none

variable {setup}

theorem answers_step {Q : Bytes → Prop} {t : Clubd.System} {e : Clubd.Event} (h : ∀ p ∈ t.calls, Answers Q p)
    (hbody : ∀ a, e = .start a → Answers Q (Clubd.body setup.node a)) :
    ∀ p ∈ (Clubd.step setup.node t e).calls, Answers Q p := by
  intro p hp
  obtain ⟨c, rfl, he⟩ | ⟨i, reading, a, next, rfl, hi, he⟩ | he :=
    Threads.step_cases (Clubd.body setup.node) Clubd.exec t e
  · rw [Clubd.step, he] at hp
    obtain hp | hp := List.mem_append.mp hp
    · exact h p hp
    · rw [List.mem_singleton.mp hp]
      exact hbody c rfl
  · rw [Clubd.step, he] at hp
    obtain hp | rfl := List.mem_or_eq_of_mem_set hp
    · exact h p hp
    · exact h _ (List.mem_of_getElem? hi) _
  · rw [Clubd.step, he] at hp
    exact h p hp

theorem Shelf.appendInbox {s : State} {e : Event} (h : Shelf setup (setup.day s.clock) s.disk.files s.disk.offsets)
    (hday : Monotone setup.day) (hbegins : s.clock ≤ e.first) (hends : e.first ≤ e.last) (now : ℚ) (stuck : Text → Bool)
    {entry : Clubd.Entry} (hgood : Good setup entry.line) {r : Clubd.Reading} (hr : r.Unbroken) :
    Shelf setup (setup.day e.last) (Host.appendInbox setup e now stuck s.disk.files entry r) s.disk.offsets := by
  have hlast := h.mono (hday (hbegins.trans hends))
  unfold Host.appendInbox
  split_ifs with hok
  · have hline : Whole (entry.line ++ [10]) := records_terminated 10 entry.line
    exact ((h.append (hday hbegins) e.first hline hgood.records).mono (hday hends)).tidied _ rfl
  · have hcut := hr.resolve_left hok
    cases hn : r.cut with
    | none => exact hlast
    | some n =>
      rw [hn] at hcut
      obtain rfl : n = 0 := hcut
      have hnone : ∀ raw ∈ (records 10 ([] : Bytes)).1, Vouched setup raw := fun _ hraw => absurd hraw List.not_mem_nil
      have hwhole : Whole ([] : Bytes) := rfl
      exact (h.append (hday hbegins) e.first hwhole hnone).mono (hday hends)

theorem Sound.daemonStep {s : State} {e : Event} (h : Sound setup s) (hday : Monotone setup.day)
    (hn : Clubd.Named setup.node) (hk : Clubd.Knows setup.node setup.node) (hr : Regular setup s e) {ev : Clubd.Event}
    {now : ℚ} {stuck : Text → Bool} (hdeed : e.deed = .daemon ev now stuck) : Sound setup (step setup s e) := by
  have hbody : ∀ a, ev = .start a → Clubd.Appends (fun e => Good setup e.line) (Clubd.body setup.node a) ∧
      Answers (Good setup) (Clubd.body setup.node a) := by
    rintro a rfl
    cases a with
    | gossip data rateLimit =>
      refine ⟨Clubd.acceptGossip_appends fun m hm => ?_, acceptGossip_answers data rateLimit⟩
      exact good_of_framed hm (hr.delivered data rateLimit now stuck hdeed m hm)
    | publish request =>
      apply handlePublish_deals
      intro m sig hp hs
      obtain ⟨raw, ms, -, hdecode, htopic, hcid, hreason, rfl⟩ := Clubd.prepare_ok hp
      obtain ⟨m', hm'⟩ := Clubd.verify_signed hn hk (Go.decoded_writable hdecode) htopic hcid hreason hs
      exact good_of_framed hm' (hr.published request now stuck hdeed _ sig hp hs)
  have hdaemon := Clubd.step_allAppend s.daemon ev h.daemon fun a ha => (hbody a ha).1
  have hanswers := answers_step h.answers fun a ha => (hbody a ha).2
  unfold step
  rw [hdeed]
  refine ⟨hdaemon, hanswers, ?_, h.honest⟩
  cases hw : writing s.daemon ev with
  | none =>
    simp only [hw, Option.elim_none]
    exact h.shelf.mono (hday (hr.begins.trans hr.ends))
  | some w =>
    simp only [hw, Option.elim_some]
    obtain ⟨i, next, rfl, hi⟩ := writing_some hw
    have hgood : Good setup w.1.line := (h.daemon.calls _ (List.mem_of_getElem? hi)).1
    exact h.shelf.appendInbox hday hr.begins hr.ends now stuck hgood (hr.unbroken i w.2 now stuck hdeed)

theorem Sound.drainStep {s : State} {e : Event} (h : Sound setup s) (hday : Monotone setup.day)
    (hnobody : setup.node.decodePeer [] = none) (hr : Regular setup s e) {a : Attempt} (hdeed : e.deed = .drain a) :
    Sound setup (step setup s e) := by
  obtain ⟨now, hfirst, hlast, htoday⟩ := hr.drained a hdeed
  have hshelf := h.shelf.mono (hday (hr.begins.trans hfirst))
  have hdrain : Draining setup (setup.day now) s.disk
      (perform setup.observer ((drainOnce setup.config a.readings s.disk).take a.steps) s.disk).2 := by
    apply Draining.perform ⟨hshelf, h.honest, fun _ hf => hf, fun _ hname => Or.inl hname⟩ hnobody
    exact fun act hact => hshelf.harmless htoday act (List.mem_of_mem_take hact)
  unfold step
  rw [hdeed]
  refine ⟨h.daemon, h.answers, hdrain.shelf.mono (hday hlast), fun m hm => hdrain.honest m (Or.inr ?_)⟩
  exact hm.elim id id

theorem Sound.replyStep {s : State} {e : Event} (h : Sound setup s) (hday : Monotone setup.day)
    (hnobody : setup.node.decodePeer [] = none) (hr : Regular setup s e) {i : ℕ} {w : Surroundings}
    (hdeed : e.deed = .reply i w) : Sound setup (step setup s e) := by
  have hhonest : Honest setup (takeReply setup.observer s.daemon i w s.disk.conn) := by
    unfold takeReply
    split
    next line hresult =>
      split
      next ms hloads =>
        split_ifs
        · obtain ⟨p, hp, hdone⟩ := Option.bind_eq_some_iff.mp hresult
          have hgood : Good setup line := by
            have hanswers := h.answers p (List.mem_of_getElem? hp)
            cases p with
            | act a next => cases hdone
            | done x =>
              cases hdone
              exact hanswers
          obtain ⟨g, hg, hs⟩ := hgood.whole _ hloads
          rw [hg]
          exact honest_ingest hnobody h.honest w hs
        · exact h.honest
      next => exact h.honest
    next => exact h.honest
  unfold step
  rw [hdeed]
  exact ⟨h.daemon, h.answers, h.shelf.mono (hday (hr.begins.trans hr.ends)), hhonest⟩

theorem Sound.step {s : State} {e : Event} (h : Sound setup s) (hday : Monotone setup.day) (hn : Clubd.Named setup.node)
    (hk : Clubd.Knows setup.node setup.node) (hnobody : setup.node.decodePeer [] = none) (hr : Regular setup s e) :
    Sound setup (Host.step setup s e) := by
  cases hdeed : e.deed with
  | daemon ev now stuck => exact h.daemonStep hday hn hk hr hdeed
  | drain a => exact h.drainStep hday hnobody hr hdeed
  | reply i w => exact h.replyStep hday hnobody hr hdeed
  | restart rate =>
    unfold Host.step
    rw [hdeed]
    exact ⟨⟨h.daemon.inbox, fun _ hp => absurd hp List.not_mem_nil⟩, fun _ hp => absurd hp List.not_mem_nil,
      h.shelf.mono (hday (hr.begins.trans hr.ends)), h.honest⟩
  | call c =>
    unfold Host.step
    rw [hdeed]
    exact ⟨h.daemon, h.answers, h.shelf.mono (hday (hr.begins.trans hr.ends)), honest_call h.honest (hr.called c hdeed)⟩

theorem start_sound (rate : ℤ) (clock : ℚ) : Sound setup (start rate clock) where
  daemon := ⟨fun _ he => absurd he List.not_mem_nil, fun _ hp => absurd hp List.not_mem_nil⟩
  answers _ hp := absurd hp List.not_mem_nil
  shelf := ⟨fun _ hf => absurd hf List.not_mem_nil, fun _ hf => absurd hf List.not_mem_nil,
    fun _ hf => absurd hf List.not_mem_nil, fun _ hf => absurd hf List.not_mem_nil, fun _ hname => absurd rfl hname⟩
  honest _ hm := hm.elim (fun hm => absurd hm List.not_mem_nil) fun hm => absurd hm List.not_mem_nil

/-- However gossip, requests, replies, drains, prunings and crashes follow on one another: each row of the catalog is of
a message whose signature verifies under the publisher that the row names, each file of the inbox is made of lines with
nothing but such messages on them, and the saved offset of each stands at the end of a line. -/
theorem no_forged_row (setup : Setup) (hday : Monotone setup.day) (hn : Clubd.Named setup.node)
    (hk : Clubd.Knows setup.node setup.node) (hnobody : setup.node.decodePeer [] = none) (rate : ℤ) (clock : ℚ)
    {events : List Event} (h : Along (step setup) (Regular setup) (start rate clock) events) :
    (∀ m, m ∈ (run (step setup) (start rate clock) events).disk.conn.view.messages ∨
        m ∈ (run (step setup) (start rate clock) events).disk.conn.committed.messages → Proven setup m) ∧
      ∀ f ∈ (run (step setup) (start rate clock) events).disk.files, (records 10 f.content).2 = [] ∧
        (∀ raw ∈ (records 10 f.content).1, Vouched setup raw) ∧
        ∀ k, (run (step setup) (start rate clock) events).disk.offsets f.name = some k →
          k ≤ f.content.length ∧ (records 10 (f.content.take k)).2 = [] := by
  have hsound : Sound setup (run (step setup) (start rate clock) events) :=
    run_invariant (fun s e hs hr => hs.step hday hn hk hnobody hr) (start_sound rate clock) h
  exact ⟨hsound.honest, fun f hf => ⟨hsound.shelf.whole f hf, hsound.shelf.vouched f hf, hsound.shelf.marked f hf⟩⟩

end Claim

section Sample

def sampleSetup : Setup where
  node := Clubd.sampleNode
  observer := sampleObserver
  config := ⟨7, 2 ^ 26⟩
  keepDays := 7
  maxBytes := 2 ^ 26
  day _ := txt "2025-08-20"

def sampleReadings : Readings where
  clock _ := sampleSurroundings
  queued _ := rfl
  today := Clubd.dayFile (txt "2025-08-20")
  pruned := 0
  expired := 0
  expired' := 0
  removable _ := true

def sampleEvents : List Event :=
  (Clubd.delivered 0 (Clubd.aliasLine "a") true).map (fun e => ⟨0, 0, .daemon e 0 fun _ => false⟩) ++
    [⟨0, 0, .drain ⟨3, sampleReadings⟩⟩]

theorem sampleNode_knows : Clubd.Knows Clubd.sampleNode Clubd.sampleNode := by
  refine ⟨rfl, fun c h => h, ?_⟩
  refine ⟨_, _, rfl, rfl, fun data sig hsig => ?_⟩
  obtain rfl := Option.some.inj hsig
  constructor
  · rw [Clubd.sampleSum]
    exact List.cons_ne_nil _ _
  · exact decide_eq_true rfl

theorem sampleEvents_regular : Along (step sampleSetup) (Regular sampleSetup) (start 60 0) sampleEvents := by
  have hadvance (s : State) (hs : s.clock = 0) :
      Regular sampleSetup s ⟨0, 0, .daemon (.advance 0 Clubd.at1000) 0 fun _ => false⟩ :=
    ⟨hs.le, le_rfl, nofun, nofun, fun i r now stuck hdeed => by cases hdeed; exact Or.inl rfl, nofun, nofun⟩
  refine ⟨⟨le_rfl, le_rfl, ?_, nofun, nofun, nofun, nofun⟩, hadvance _ rfl, hadvance _ rfl, hadvance _ rfl, hadvance _ rfl,
    ⟨le_rfl, le_rfl, nofun, nofun, nofun, ?_, nofun⟩, trivial⟩
  · intro data rateLimit now stuck hdeed m _
    cases hdeed
    exact Clubd.framed_alias
  · intro a hdeed
    cases hdeed
    exact ⟨0, le_rfl, le_rfl, rfl⟩

theorem no_forged_row_alias :
    (run (step sampleSetup) (start 60 0) sampleEvents).disk.conn.view.messages.length = 1 ∧
      ∀ m ∈ (run (step sampleSetup) (start 60 0) sampleEvents).disk.conn.view.messages, Proven sampleSetup m := by
  refine ⟨by decide +kernel, fun m hm => ?_⟩
  exact (no_forged_row sampleSetup monotone_const ⟨by decide, by decide⟩ sampleNode_knows rfl 60 0
    sampleEvents_regular).1 m (Or.inl hm)

end Sample

end ObserverClub.Host
