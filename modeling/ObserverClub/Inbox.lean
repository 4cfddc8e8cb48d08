import ObserverClub.CanonForms
import ObserverClub.ClubdRuns
import ObserverClub.Decoding
import ObserverClub.Library.JsonLimits

/-!
The inbox as the observer reads it, and how its lines are framed: what clubd appends for one message
against the objects that come out at the other end.
-/

namespace ObserverClub

open Library

namespace Ingest

def isSpaceByte (b : UInt8) : Bool := Python.isSpaceAscii b.toNat

def inboxLines (s : Bytes) : List Bytes := ((records 10 s).1.map (trim isSpaceByte)).filter (· ≠ [])

/-- The values read from a file; a line that is not JSON is passed over. -/
def objects (py : Python.Interpreter) (s : Bytes) : List Python.Value :=
  (inboxLines s).filterMap (fun line => (Python.loadsBytes py line).toOption)

theorem isSpaceByte_ascii {b : UInt8} (h : isSpaceByte b = true) : b.toNat < 0x80 := by
  simp only [isSpaceByte, Python.isSpaceAscii, Bool.or_eq_true, Bool.and_eq_true, decide_eq_true_eq, beq_iff_eq] at h
  omega

theorem inboxLines_singleton {s line : Bytes} (h : inboxLines s = [line]) :
    ∃ a b, (records 10 s).1.flatMap (· ++ [10]) = a ++ line ++ b ∧ (∀ x ∈ a, isSpaceByte x = true) ∧
      (∀ x ∈ b, isSpaceByte x = true) ∧ b.getLast? = some 10 := by
  unfold inboxLines at h
  generalize (records 10 s).1 = rs at h
  induction rs with
  | nil => simp at h
  | cons r rs ih =>
    obtain ⟨x, y, hr, hx, hy⟩ := trim_split isSpaceByte r
    rw [List.map_cons, List.filter_cons] at h
    by_cases hn : trim isSpaceByte r = []
    · have hblank := trim_eq_nil _ hn
      obtain ⟨a, b, he, ha, hb, hlast⟩ := ih (by simpa [hn] using h)
      refine ⟨r ++ 10 :: a, b, by simp [he], ?_, hb, hlast⟩
      intro z hz
      rcases List.mem_append.mp hz with hz | hz
      · exact hblank z hz
      · rcases List.mem_cons.mp hz with rfl | hz
        · rfl
        · exact ha z hz
    · simp only [hn, ne_eq, not_false_eq_true, decide_true, if_true, List.cons.injEq] at h
      obtain ⟨rfl, hrest⟩ := h
      have hblank : ∀ z ∈ rs.flatMap (· ++ [10]), isSpaceByte z = true := by
        intro z hz
        obtain ⟨q, hq, hz⟩ := List.mem_flatMap.mp hz
        rcases List.mem_append.mp hz with hz | hz
        · by_cases hqe : trim isSpaceByte q = []
          · exact trim_eq_nil _ hqe z hz
          · have : trim isSpaceByte q ∈ (rs.map (trim isSpaceByte)).filter (· ≠ []) := by
              simpa using ⟨⟨q, hq, rfl⟩, hqe⟩
            rw [hrest] at this
            simp at this
        · rw [List.mem_singleton.mp hz]
          rfl
      refine ⟨x, y ++ [10] ++ rs.flatMap (· ++ [10]), ?_, hx, ?_, ?_⟩
      · rw [List.flatMap_cons]
        nth_rewrite 1 [hr]
        simp only [List.append_assoc]
      · intro z hz
        rcases List.mem_append.mp hz with hz | hz
        · rcases List.mem_append.mp hz with hz | hz
          · exact hy z hz
          · rw [List.mem_singleton.mp hz]
            rfl
        · exact hblank z hz
      · rcases List.eq_nil_or_concat rs with rfl | ⟨init, last, rfl⟩
        · simp
        · simp [List.getLast?_cons]

theorem line_between {data line : Bytes} (h : inboxLines (data ++ [10]) = [line]) :
    ∃ a b, data = a ++ line ++ b ∧ (∀ x ∈ a, isSpaceByte x = true) ∧ ∀ x ∈ b, isSpaceByte x = true := by
  obtain ⟨a, b, he, ha, hb, hlast⟩ := inboxLines_singleton h
  have hj := records_join 10 (data ++ [10])
  rw [records_terminated, List.append_nil, he] at hj
  rcases List.eq_nil_or_concat b with rfl | ⟨b, z, rfl⟩
  · simp at hlast
  · simp only [List.concat_eq_append] at hb hj
    refine ⟨a, b, ?_, ha, fun x hx => hb x (List.mem_append_left _ hx)⟩
    rw [← List.append_assoc] at hj
    exact (List.append_inj' hj rfl).1.symm

end Ingest

open Ingest Json

section Spaces

variable {d : Dialect} {f k : ℕ} {p : Tree × Text}

theorem readValue_vertical {c : ℕ} (hc : c = 11 ∨ c = 12) (t : Text) : readValue d f k (c :: t) ≠ .ok p := by
  intro h
  cases f with
  | zero => simp [readValue] at h
  | succ f =>
    have hscalar : readScalar d c t = .ok p := by
      simpa [readValue, show c ≠ 34 by omega, show c ≠ 123 by omega, show c ≠ 91 by omega] using h
    have hkey : keywordAt d c t = none := by
      unfold keywordAt
      split_ifs <;> first | omega | rfl
    cases hn : readNumber (c :: t) with
    | none => simp [readScalar, hkey, hn] at hscalar
    | some q =>
      rcases readNumber_head hn with hd | ⟨rfl, -⟩
      · simp only [isDigit, Bool.and_eq_true, decide_eq_true_eq] at hd
        omega
      · omega

theorem skipWs_spaces {a s : Text} (ha : ∀ c ∈ a, Python.isSpaceAscii c = true)
    (h : readValue d f k (skipWs (a ++ s)) = .ok p) : skipWs (a ++ s) = skipWs s := by
  induction a with
  | nil => rfl
  | cons c a ih =>
    simp only [List.mem_cons, forall_eq_or_imp] at ha
    by_cases hw : isWs c = true
    · have hskip : skipWs (c :: a ++ s) = skipWs (a ++ s) := by simp [skipWs, hw]
      rw [hskip] at h ⊢
      exact ih ha.2 h
    · have hskip : skipWs (c :: a ++ s) = c :: (a ++ s) := by simp [skipWs, hw]
      rw [hskip] at h
      have hc : c = 11 ∨ c = 12 := by
        have hs := ha.1
        simp only [Python.isSpaceAscii, Bool.or_eq_true, Bool.and_eq_true, decide_eq_true_eq, beq_iff_eq] at hs
        simp only [isWs, Bool.or_eq_true, beq_iff_eq, not_or] at hw
        omega
      exact absurd h (readValue_vertical hc _)

end Spaces

theorem decodeJSON_line {d : Dialect} {a line b : Bytes} {t r : Text} {ms : List (List StrUnit × Tree)} {g : Go.Value}
    (ha : ∀ x ∈ a, isSpaceByte x = true) (hb : ∀ x ∈ b, isSpaceByte x = true)
    (hg : Canon.decodeJSON (a ++ line ++ b) = some g) (ht : Utf8.decode line = some t)
    (hr : readFirst d t = .ok (.obj ms, r)) :
    g = ofTree Go.reading (.obj ms) ∧ (Tree.obj ms).Fits Go.dialect := by
  have htext : Utf8.decodeLossy (a ++ line ++ b) = a.map UInt8.toNat ++ (t ++ b.map UInt8.toNat) := by
    rw [List.append_assoc, Utf8.decodeLossy_ascii_append (fun x hx => isSpaceByte_ascii (ha x hx)),
      Utf8.decodeLossy_append_ascii (fun x hx => isSpaceByte_ascii (hb x hx)), Utf8.decodeLossy_of_decode ht]
  unfold Canon.decodeJSON at hg
  rw [htext] at hg
  cases hf : readFirst Go.dialect (a.map UInt8.toNat ++ (t ++ b.map UInt8.toNat)) with
  | error e => simp [hf] at hg
  | ok q =>
    obtain ⟨tree, r'⟩ := q
    simp only [hf, Option.some.injEq] at hg
    have hfits := readFirst_fits hf
    have hspaces : ∀ c ∈ a.map UInt8.toNat, Python.isSpaceAscii c = true := by
      intro c hc
      obtain ⟨x, hx, rfl⟩ := List.mem_map.mp hc
      exact ha x hx
    unfold readFirst at hf hr
    have hne : skipWs t ≠ [] := fun he => readValue_nil _ _ _ _ (by rw [← he]; exact hr)
    rw [skipWs_spaces hspaces hf, skipWs_append _ hne] at hf
    obtain ⟨rfl, -⟩ := readValue_unique hr hf (.inr (.inr rfl))
    exact ⟨hg.symm, hfits⟩

/-- What the observer gets from the bytes appended for message `m`: one object, `m` itself. -/
def Authentic (py : Python.Interpreter) (data : Bytes) (m : Go.Value) : Prop :=
  (inboxLines (data ++ [10])).map (Python.loadsBytes py) = [.ok (pythonView m)]

/-- The bytes are one line; it is valid UTF-8; only blanks follow its object; the object keeps within
the limits of the observer's reader, and no escape in it leaves a lone surrogate. -/
def Framed (py : Python.Interpreter) (data : Bytes) : Prop :=
  ∃ line t ms r, inboxLines (data ++ [10]) = [line] ∧ Utf8.decode line = some t ∧
    readFirst Go.dialect t = .ok (.obj ms, r) ∧ skipWs r = [] ∧ (Tree.obj ms).Fits (Python.dialect py) ∧
    (ofTree Python.reading (.obj ms)).all (unicode _) = true

theorem pythonView_unicode {data : Bytes} {g : Go.Value} (h : Canon.decodeJSON data = some g) :
    (pythonView g).all (unicode _) = true := by
  rw [pythonView, all_map]
  exact decodeJSON_unicode h

theorem authentic_of_framed {py : Python.Interpreter} {data : Bytes} {m : Go.Value}
    (hm : Canon.decodeJSON data = some m) (h : Framed py data) : Authentic py data m := by
  obtain ⟨line, t, ms, r, hl, ht, hr, hw, hfits, hu⟩ := h
  obtain ⟨a, b, rfl, ha, hb⟩ := line_between hl
  obtain ⟨rfl, hgo⟩ := decodeJSON_line ha hb hm ht hr
  have hread := readFirst_within hr hfits
  have hview : ofTree Python.reading (.obj ms) = pythonView (ofTree Go.reading (.obj ms)) :=
    ofTree_agree _ (has_mono (fun _ _ => trivial) (by simp [allowed, Go.dialect]) (fun _ _ => trivial) _ hgo.2) hu
  rw [Authentic, hl]
  simp [Python.loadsBytes, ht, Python.loads, readText, hread, hw, hview]

theorem framed_of_authentic {py : Python.Interpreter} {data : Bytes} {ms : List (Text × Go.Value)}
    (hm : Canon.decodeJSON data = some (.obj ms)) (h : Authentic py data (.obj ms)) : Framed py data := by
  obtain ⟨line, hl, hload⟩ := List.map_eq_singleton_iff.mp h
  obtain ⟨a, b, rfl, ha, hb⟩ := line_between hl
  obtain ⟨t, ht, hloads⟩ := loadsBytes_ok hload
  obtain ⟨tree, r, hr, hw, hv⟩ := loads_ok hloads
  obtain ⟨us, rfl⟩ : ∃ us, tree = .obj us := by
    cases tree <;> simp [ofTree, pythonView, Json.map] at hv ⊢
  have hgo := (decodeJSON_line ha hb hm ht hr).2
  refine ⟨line, t, us, r, hl, ht, readFirst_within hr hgo, hw, readFirst_fits hr, ?_⟩
  rw [← hv]
  exact pythonView_unicode hm

theorem decodeObject_ok {data : Bytes} {m : Go.Value} (h : Clubd.decodeObject data = .ok m) :
    ∃ ms, m = .obj ms ∧ Canon.decodeJSON data = some (.obj ms) := by
  unfold Clubd.decodeObject at h
  split at h
  · simp at h
  · rename_i ms hd
    exact ⟨ms, (Except.ok.inj h).symm, hd⟩
  · simp at h

namespace Clubd

def Appends (Q : Entry → Prop) : Call → Prop
  | .done _ => True
  | .act (.appendInbox e) next => Q e ∧ ∀ b : Bool, Appends Q (next b)
  | .act (.duplicate _) next => ∀ b : Bool, Appends Q (next b)
  | .act (.allow _) next => ∀ b : Bool, Appends Q (next b)
  | .act (.applyClaimPolicy _) next => ∀ b : Bool, Appends Q (next b)
  | .act (.broadcast _ _) next => ∀ b : Bool, Appends Q (next b)

theorem acceptGossip_appends {node : Node} {Q : Entry → Prop} {data : Bytes} {rateLimit : Bool}
    (h : ∀ m, verify node data = .ok m → Q ⟨payloadHash node (Canon.marshal m), data⟩) :
    Appends Q (acceptGossip node data rateLimit) := by
  unfold acceptGossip
  cases hm : verify node data with
  | error e => exact trivial
  | ok m =>
    have hrest : Appends Q (admitRest node data m) := by
      intro b
      cases b with
      | false => exact trivial
      | true => exact ⟨h m hm, fun _ => trivial⟩
    intro b
    cases b with
    | true => exact trivial
    | false =>
      cases rateLimit with
      | false => exact hrest
      | true =>
        intro b
        cases b with
        | false => exact trivial
        | true => exact hrest

theorem appends_next {Q : Entry → Prop} {a : Action} {next : Answer a → Call} (h : Appends Q (.act a next))
    (r : Answer a) : Appends Q (next r) := by
  cases a with
  | appendInbox e => exact h.2 r
  | duplicate h' => exact h r
  | allow p => exact h r
  | applyClaimPolicy m => exact h r
  | broadcast topic payload => exact h r

structure AllAppend (Q : Entry → Prop) (t : System) : Prop where
  inbox : ∀ e ∈ t.shared.inbox, Q e
  calls : ∀ p ∈ t.calls, Appends Q p

theorem step_allAppend {node : Node} {Q : Entry → Prop} (t : System) (e : Event) (h : AllAppend Q t)
    (hc : ∀ a, e = .start a → Appends Q (body node a)) : AllAppend Q (step node t e) := by
  rcases Threads.step_cases (body node) exec t e with ⟨c, rfl, he⟩ | ⟨i, reading, a, next, rfl, hi, he⟩ | he
  · rw [step, he]
    refine ⟨h.inbox, fun p hp => ?_⟩
    rcases List.mem_append.mp hp with hp | hp
    · exact h.calls p hp
    · rw [List.mem_singleton.mp hp]
      exact hc c rfl
  · have hcall := h.calls _ (List.mem_of_getElem? hi)
    rw [step, he]
    refine ⟨fun e he => ?_, fun p hp => ?_⟩
    · cases a with
      | appendInbox e' =>
        simp only [exec] at he
        split_ifs at he
        · rcases List.mem_append.mp he with he | he
          · exact h.inbox e he
          · rw [List.mem_singleton.mp he]
            exact hcall.1
        · exact h.inbox e he
      | broadcast topic payload =>
        simp only [exec] at he
        split_ifs at he <;> exact h.inbox e he
      | duplicate h' => exact h.inbox e he
      | allow p => exact h.inbox e he
      | applyClaimPolicy m => exact h.inbox e he
    · rcases List.mem_or_eq_of_mem_set hp with hp | rfl
      · exact h.calls p hp
      · exact appends_next hcall _
  · rw [step, he]
    exact h

/-- Every call is a delivery, each one that is verified is framed, and no write breaks off within a line. -/
def FramedDelivery (node : Node) (py : Python.Interpreter) (_ : System) : Event → Prop
  | .start (.gossip data _) => ∀ m, verify node data = .ok m → Framed py data
  | .start (.publish _) => False
  | .advance _ r => r.Unbroken

def WholeLines (t : System) : Prop := t.shared.stored = (t.shared.inbox.map Entry.line).flatMap (· ++ [10])

theorem exec_wholeLines {a : Action} {r : Reading} {d : Daemon} {calls calls' : List Call} (hr : r.Unbroken)
    (h : WholeLines ⟨d, calls⟩) : WholeLines ⟨(exec a r d).2, calls'⟩ := by
  unfold WholeLines at h ⊢
  cases a with
  | appendInbox e =>
    simp only [exec]
    split_ifs with hok
    · simp only [List.map_append, List.flatMap_append, List.map_singleton, List.flatMap_singleton]
      exact congrArg (· ++ (e.line ++ [10])) h
    · rw [hr.resolve_left hok, List.take_zero, List.append_nil]
      exact h
  | broadcast topic payload =>
    simp only [exec]
    split_ifs <;> exact h
  | duplicate h' => exact h
  | allow p => exact h
  | applyClaimPolicy m => exact h

theorem step_wholeLines {node : Node} {t : System} {e : Event} (hr : ∀ i r, e = .advance i r → r.Unbroken)
    (h : WholeLines t) : WholeLines (step node t e) := by
  obtain ⟨c, rfl, he⟩ | ⟨i, reading, a, next, rfl, -, he⟩ | he := Threads.step_cases (body node) exec t e
  · rw [step, he]
    exact h
  · rw [step, he]
    exact exec_wholeLines (hr i reading rfl) h
  · rw [step, he]
    exact h

theorem objects_lines (py : Python.Interpreter) (lines : List Bytes) :
    objects py (lines.flatMap (· ++ [10])) = lines.flatMap (fun l => objects py (l ++ [10])) := by
  simp only [objects, inboxLines, records_flatMap]
  induction lines with
  | nil => rfl
  | cons l lines ih => simp only [List.flatMap_cons, List.map_append, List.filter_append, List.filterMap_append, ih]

theorem objects_of_authentic {py : Python.Interpreter} {data : Bytes} {m : Go.Value} (h : Authentic py data m) :
    objects py (data ++ [10]) = [pythonView m] := by
  obtain ⟨line, hl, hload⟩ := List.map_eq_singleton_iff.mp h
  simp [objects, hl, hload, Except.toOption]

theorem ingested_signed {node : Node} {py : Python.Interpreter} {rate : ℤ} {events : List Event}
    (h : Along (step node) (FramedDelivery node py) (start rate []) events) :
    ∀ v ∈ objects py (run (step node) (start rate []) events).shared.stored,
      ∃ m, v = pythonView m ∧ Signed node m := by
  let Q : Entry → Prop := fun e => ∃ m, verify node e.line = .ok m ∧ Framed py e.line
  have hall : AllAppend Q (run (step node) (start rate []) events) := by
    refine run_invariant (P := FramedDelivery node py) (fun t e ht he => step_allAppend t e ht ?_)
      ⟨by simp [start], by simp [start]⟩ h
    rintro a rfl
    cases a with
    | gossip data rateLimit => exact acceptGossip_appends fun m hm => ⟨m, hm, he m hm⟩
    | publish request => exact he.elim
  intro v hv
  have hwhole : WholeLines (run (step node) (start rate []) events) := by
    refine run_invariant (P := FramedDelivery node py) (fun t e ht he => step_wholeLines ?_ ht) rfl h
    rintro i r rfl
    exact he
  rw [hwhole, objects_lines] at hv
  obtain ⟨line, hline, hv⟩ := List.mem_flatMap.mp hv
  obtain ⟨e, he, rfl⟩ := List.mem_map.mp hline
  obtain ⟨m, hm, hf⟩ := hall.inbox e he
  obtain ⟨hd, hs⟩ := verify_ok hm
  obtain ⟨ms, rfl, hdec⟩ := decodeObject_ok hd
  rw [objects_of_authentic (authentic_of_framed hdec hf), List.mem_singleton] at hv
  exact ⟨_, hv, hs.signed⟩

/-- What is appended for a verified message reads back as that message alone exactly when it is framed;
and after framed deliveries the observer reads signed objects only. -/
theorem authentic_iff_framed (node : Node) (py : Python.Interpreter) :
    (∀ data m, verify node data = .ok m → (Authentic py data m ↔ Framed py data)) ∧
    ∀ rate events, Along (step node) (FramedDelivery node py) (start rate []) events →
      ∀ v ∈ objects py (run (step node) (start rate []) events).shared.stored, ∃ m, v = pythonView m ∧ Signed node m := by
  refine ⟨fun data m hm => ?_, fun rate events h => ingested_signed h⟩
  obtain ⟨ms, rfl, hdec⟩ := decodeObject_ok (verify_ok hm).1
  exact ⟨framed_of_authentic hdec, authentic_of_framed hdec⟩

section Sample

open Canon (samplePython)

def isFramed (py : Python.Interpreter) (data : Bytes) : Bool :=
  match inboxLines (data ++ [10]) with
  | [line] => (Utf8.decode line).any fun t => (readFirst Go.dialect t).toOption.any fun p =>
      match p with
      | (.obj ms, r) => decide (skipWs r = []) && decide ((Tree.obj ms).Fits (Python.dialect py)) &&
        (ofTree Python.reading (.obj ms)).all (unicode _)
      | _ => false
  | _ => false

theorem framed_of_isFramed {py : Python.Interpreter} {data : Bytes} (h : isFramed py data = true) :
    Framed py data := by
  unfold isFramed at h
  split at h
  · rename_i line hl
    obtain ⟨t, ht, h⟩ := some_of_any h
    obtain ⟨p, hp, h⟩ := ok_of_any h
    split at h
    · rename_i ms r
      simp only [Bool.and_eq_true, decide_eq_true_eq] at h
      exact ⟨line, t, ms, r, hl, ht, hp, h.1.1, h.1.2, h.2⟩
    · simp at h
  · simp at h

theorem framed_alias : Framed samplePython (aliasLine "a") := framed_of_isFramed (by decide +kernel)

theorem authentic_iff_framed_alias :
    (∃ m, verify sampleNode (aliasLine "a") = .ok m ∧
      (Authentic samplePython (aliasLine "a") m ↔ Framed samplePython (aliasLine "a"))) ∧
    ∀ v ∈ objects samplePython (run (step sampleNode) (start 60 []) (delivered 0 (aliasLine "a") true)).shared.stored,
      ∃ m, v = pythonView m ∧ Signed sampleNode m := by
  constructor
  · have h : (verify sampleNode (aliasLine "a")).toOption.any (fun _ => true) = true := by decide +kernel
    obtain ⟨m, hm, -⟩ := ok_of_any h
    exact ⟨m, hm, (authentic_iff_framed sampleNode samplePython).1 _ m hm⟩
  · refine (authentic_iff_framed sampleNode samplePython).2 60 _ ⟨fun _ _ => framed_alias, ?_⟩
    exact ⟨Or.inl rfl, Or.inl rfl, Or.inl rfl, Or.inl rfl, trivial⟩

def forgedData : Bytes :=
  aliasLine "a" ++ ascii "\n\x7b\"kind\":\"alias\",\"alias\":\"x\",\"publisher\":\"12D3KooWHost\",\"v\":1\x7d"

theorem forged_ingested : (∃ m, verify sampleNode forgedData = .ok m ∧ ¬Authentic samplePython forgedData m) ∧
    ∃ v ∈ objects samplePython (run (step sampleNode) (start 60 []) (delivered 0 forgedData true)).shared.stored,
      ∀ m, Signed sampleNode m → v ≠ pythonView m := by
  constructor
  · have h : (verify sampleNode forgedData).toOption.any (fun _ => true) = true := by decide +kernel
    have hlen : (inboxLines (forgedData ++ [10])).length ≠ 1 := by decide +kernel
    obtain ⟨m, hm, -⟩ := ok_of_any h
    exact ⟨m, hm, fun ha => hlen (by simpa using congrArg List.length ha)⟩
  · have h : ((objects samplePython (run (step sampleNode) (start 60 [])
        (delivered 0 forgedData true)).shared.stored).any fun v => (v.get (txt "sig")).isNone) = true := by decide +kernel
    obtain ⟨v, hv, hsig⟩ := List.any_eq_true.mp h
    refine ⟨v, hv, ?_⟩
    rintro m ⟨sig, pid, pk, hx, -, -, hver⟩ rfl
    have hnone : m.get (txt "sig") = none := by simpa [pythonView, get_map] using hsig
    obtain rfl : sig = [] := by simpa [Go.stringOf, Go.item, hnone, Go.hexDecode, eq_comm] using hx
    simp [sampleNode, sampleSum] at hver

end Sample

end Clubd

end ObserverClub
