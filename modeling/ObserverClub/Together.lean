import ObserverClub.Drain
import ObserverClub.Events
import ObserverClub.FailedPublish
import ObserverClub.Publishing

namespace ObserverClub.Together

open Library Clubd

structure Pair where
  clubd : Daemon
  catalog : Catalog.Conn

/-- An arrival that is handled to its end, and what the world answers meanwhile. -/
structure Beat where
  arrival : Arrival
  now : Time
  written : Bool
  sent : Bool
  review : Except Python.Error Unit

/-- `time.time()` -/
def unixTime (now : Time) : ℚ := now / second - Go.unixToInternal

namespace Beat

def succeeds (b : Beat) (i : ℕ) : Bool :=
  match b.arrival with
  | .gossip _ _ => b.written
  | .publish _ => if i = 3 then b.sent else b.written

/-- What cannot be written leaves nothing in the file. -/
def readings (b : Beat) (i : ℕ) : Reading := ⟨b.now, b.now, b.succeeds i, none⟩

def surroundings (b : Beat) : Store.Surroundings := ⟨unixTime b.now, unixTime b.now, unixTime b.now, b.review⟩

end Beat

section Stepping

variable (node : Node) (o : Observer)

def ingestLines (w : Store.Surroundings) : List Bytes → Catalog.Db Unit
  | [] => pure ()
  | raw :: raws => do
    Ingest.ingestLine o w raw
    ingestLines w raws

def handle (d : Daemon) (b : Beat) : Daemon := ((body node b.arrival).alone exec b.readings d).2

def linesOf (line : Bytes) : List Bytes := (records 10 (line ++ [10])).1

def ingest (b : Beat) (entries : List Entry) (c : Catalog.Conn) : Catalog.Conn :=
  (ingestLines o b.surroundings (entries.flatMap fun e => linesOf e.line) c).2

def step (s : Pair) (b : Beat) : Pair :=
  let clubd := handle node s.clubd b
  ⟨clubd, ingest o b (clubd.inbox.drop s.clubd.inbox.length) s.catalog⟩

/-- Both have just started. -/
def start (rate : ℤ) : Pair := ⟨(Clubd.start rate []).shared, Store.fresh⟩

end Stepping

section Handling

variable (node : Node) (now : Time) (d : Daemon)

/-- The message of an arrival that is sound, and the line that is to be appended for it. -/
inductive Carries : Arrival → Go.Value → Bytes → Prop
  | gossip {data rateLimit m} (ok : verify node data = .ok m) : Carries (.gossip data rateLimit) m data
  | publish {request m sig} (ok : prepare node request = .ok m) (signed : node.sign (Canon.marshal m) = some sig) :
      Carries (.publish request) (Go.setItem m "sig" (.str (hexText sig)))
        (Go.jsonMarshal (Go.setItem m "sig" (.str (hexText sig))))

def Passes : Arrival → Go.Value → Prop
  | .gossip _ rateLimit, m =>
    (Limit.duplicate now d.limiter (payloadHash node (Canon.marshal m))).1 = false ∧
      (rateLimit = true →
        (Limit.allow now (Limit.duplicate now d.limiter (payloadHash node (Canon.marshal m))).2 (pubOf m)).1 = true)
  | .publish _, _ => True

structure Reaches (a : Arrival) (m : Go.Value) (line : Bytes) : Prop where
  carries : Carries node a m line
  passes : Passes node now d a m
  admitted : Admits now now d.claims m

inductive Handled (b : Beat) (d' : Daemon) : Prop
  | stopped (claims : d'.claims = d.claims) (inbox : d'.inbox = d.inbox)
  | lost {m line} (reaches : Reaches node b.now d b.arrival m line) (written : b.written = false)
      (claims : d'.claims = (applyClaimPolicy b.now b.now d.claims m).2) (inbox : d'.inbox = d.inbox)
  | appended {m line e} (reaches : Reaches node b.now d b.arrival m line) (written : b.written = true)
      (claims : d'.claims = (applyClaimPolicy b.now b.now d.claims m).2) (inbox : d'.inbox = d.inbox ++ [e])
      (entry : e.line = line)

variable {node now d}

theorem carries_unique {a : Arrival} {m m' : Go.Value} {line line' : Bytes} (h : Carries node a m line)
    (h' : Carries node a m' line') : m = m' ∧ line = line' := by
  cases h with
  | gossip ok =>
    cases h' with
    | gossip ok' =>
      rw [ok] at ok'
      cases ok'
      exact ⟨rfl, rfl⟩
  | publish ok signed =>
    cases h' with
    | publish ok' signed' =>
      rw [ok] at ok'
      cases ok'
      rw [signed] at signed'
      cases signed'
      exact ⟨rfl, rfl⟩

theorem handled_publish {b : Beat} {request : Request} (hb : b.arrival = .publish request) :
    Handled node d b (handle node d b) := by
  have hrun : handle node d b = (publish node request b.readings d).2 := by
    rw [handle, hb]
    rfl
  have hok : ∀ i, (b.readings i).ok = if i = 3 then b.sent else b.written := by
    intro i
    rw [Beat.readings, Beat.succeeds, hb]
  rw [hrun]
  cases hm : prepare node request with
  | error refusal =>
    rw [@publish_refused _ _ _ _ refusal.1 refusal.2 hm]
    exact .stopped rfl rfl
  | ok m =>
    cases hs : node.sign (Canon.marshal m) with
    | none =>
      rw [publish_unsigned hm hs]
      exact .stopped rfl rfl
    | some sig =>
      by_cases hfree : Admits b.now b.now d.claims m
      · have hreaches : Reaches node b.now d b.arrival (Go.setItem m "sig" (.str (hexText sig)))
            (Go.jsonMarshal (Go.setItem m "sig" (.str (hexText sig)))) := by
          rw [hb]
          exact ⟨.publish hm hs, trivial, (admits_signed m _).mpr hfree⟩
        have hpolicy := @policy_signed m (.str (hexText sig)) b.now d.claims
        cases hw : b.written with
        | false =>
          rw [publish_unwritten hm hs hfree ((hok 2).trans hw)]
          exact .lost hreaches hw (by rw [hpolicy]; rfl) rfl
        | true =>
          have hadmitted := (applyClaimPolicy_admitted hfree).1
          have hwritten : (b.readings 2).ok = true := (hok 2).trans hw
          rw [publish_signed hm hs, Program.alone]
          have hnow : (b.readings 0).now = b.now ∧ (b.readings 0).now' = b.now := ⟨rfl, rfl⟩
          simp only [exec, hnow.1, hnow.2, hadmitted, Bool.not_true, Bool.false_eq_true, if_false, Program.alone, hwritten, if_true]
          cases (b.readings 3).ok with
          | false => exact .appended hreaches hw (by rw [hpolicy]; rfl) rfl rfl
          | true => exact .appended hreaches hw (by rw [hpolicy]; rfl) rfl rfl
      · rw [publish_busy hm hs hfree]
        exact .stopped rfl rfl

section Admitting

variable {data : Bytes} {m : Go.Value} {ok : Bool} {r : ℕ → Reading}

theorem admitRest_admitted (hfree : Admits now now d.claims m) (hr : ∀ i, r i = ⟨now, now, ok, none⟩) :
    ((admitRest node data m).alone exec r d).2.claims = (applyClaimPolicy now now d.claims m).2 ∧
      ((admitRest node data m).alone exec r d).2.inbox =
        if ok then d.inbox ++ [⟨payloadHash node (Canon.marshal m), data⟩] else d.inbox := by
  have hadmitted := (applyClaimPolicy_admitted hfree).1
  rw [admitRest, Program.alone, hr]
  simp only [exec, hadmitted, Bool.not_true, Bool.false_eq_true, if_false, Program.alone, hr]
  cases ok <;> exact ⟨rfl, rfl⟩

theorem admitRest_refused (hbusy : ¬Admits now now d.claims m) (hr : ∀ i, r i = ⟨now, now, ok, none⟩) :
    ((admitRest node data m).alone exec r d).2 = d := by
  have hrefused := applyClaimPolicy_refused hbusy
  rw [admitRest, Program.alone, hr]
  simp only [exec, hrefused, Bool.not_false, if_true, Program.alone]

end Admitting

theorem handled_gossip {b : Beat} {data : Bytes} {rateLimit : Bool} (hb : b.arrival = .gossip data rateLimit) :
    Handled node d b (handle node d b) := by
  have hread : b.readings = fun _ => ⟨b.now, b.now, b.written, none⟩ := by
    funext i
    rw [Beat.readings, Beat.succeeds, hb]
  have hrun : handle node d b = ((acceptGossip node data rateLimit).alone exec (fun _ => ⟨b.now, b.now, b.written, none⟩) d).2 := by
    rw [handle, hb, hread]
    rfl
  rw [hrun, acceptGossip]
  cases hm : verify node data with
  | error e => exact .stopped rfl rfl
  | ok m =>
    have hadmit : ∀ limiter, Passes node b.now d b.arrival m → Handled node d b
        ((admitRest node data m).alone exec (fun _ => ⟨b.now, b.now, b.written, none⟩) { d with limiter := limiter }).2 := by
      intro limiter hpasses
      by_cases hfree : Admits b.now b.now d.claims m
      · have hreaches : Reaches node b.now d b.arrival m data := ⟨by rw [hb]; exact .gossip hm, hpasses, hfree⟩
        obtain ⟨hclaims, hinbox⟩ := @admitRest_admitted node b.now { d with limiter := limiter } data m b.written
          (fun _ => ⟨b.now, b.now, b.written, none⟩) hfree fun _ => rfl
        cases hw : b.written with
        | false =>
          rw [hw] at hclaims hinbox
          exact .lost hreaches hw hclaims hinbox
        | true =>
          rw [hw] at hclaims hinbox
          exact .appended hreaches hw hclaims hinbox rfl
      · rw [@admitRest_refused _ _ { d with limiter := limiter } _ _ _ _ hfree fun _ => rfl]
        exact .stopped rfl rfl
    dsimp only
    rw [Program.alone]
    by_cases hseen : (Limit.duplicate b.now d.limiter (payloadHash node (Canon.marshal m))).1 = true
    · simp only [exec, hseen, if_true, Program.alone]
      exact .stopped rfl rfl
    · rw [Bool.not_eq_true] at hseen
      simp only [exec, hseen, Bool.false_eq_true, if_false]
      cases rateLimit with
      | false =>
        simp only [Bool.false_eq_true, if_false]
        apply hadmit
        rw [hb]
        exact ⟨hseen, fun h => absurd h Bool.false_ne_true⟩
      | true =>
        rw [if_pos rfl, Program.alone]
        by_cases hallow : (Limit.allow b.now
            (Limit.duplicate b.now d.limiter (payloadHash node (Canon.marshal m))).2 (pubOf m)).1 = true
        · simp only [exec, hallow, Bool.not_true, Bool.false_eq_true, if_false]
          apply hadmit
          rw [hb]
          exact ⟨hseen, fun _ => hallow⟩
        · rw [Bool.not_eq_true] at hallow
          simp only [exec, hallow, Bool.not_false, if_true, Program.alone]
          exact .stopped rfl rfl

theorem handled (node : Node) (d : Daemon) (b : Beat) : Handled node d b (handle node d b) := by
  cases hb : b.arrival with
  | gossip data rateLimit => exact handled_gossip hb
  | publish request => exact handled_publish hb

end Handling

section Ingesting

variable {o : Observer} {w : Store.Surroundings}

theorem ingestLines_blank {raws : List Bytes} (h : ∀ raw ∈ raws, trim Ingest.isSpaceByte raw = []) (c : Catalog.Conn) :
    ingestLines o w raws c = (.ok (), c) := by
  induction raws with
  | nil => rfl
  | cons raw raws ih =>
    rw [List.forall_mem_cons] at h
    rw [ingestLines, Ingest.ingestLine, if_pos h.1]
    exact ih h.2

theorem ingestLines_authentic {line : Bytes} {m : Go.Value} (h : Authentic o.py line m) (c : Catalog.Conn) :
    (ingestLines o w (linesOf line) c).2 = (Store.ingestMessage o w (pythonView m) c).2 := by
  unfold Authentic Ingest.inboxLines at h
  rw [linesOf]
  generalize (records 10 (line ++ [10])).1 = raws at h ⊢
  induction raws with
  | nil => cases h
  | cons raw raws ih =>
    rw [List.map_cons] at h
    rw [ingestLines, Ingest.ingestLine]
    by_cases hblank : trim Ingest.isSpaceByte raw = []
    · rw [if_pos hblank]
      rw [List.filter_cons_of_neg (by simpa using hblank)] at h
      exact ih h
    · rw [if_neg hblank]
      rw [List.filter_cons_of_pos (by simpa using hblank), List.map_cons, List.cons.injEq] at h
      obtain ⟨hload, hrest⟩ := h
      rw [hload]
      dsimp only
      have hblanks : ∀ raw ∈ raws, trim Ingest.isSpaceByte raw = [] := by
        intro r hr
        by_contra hne
        have hmem : trim Ingest.isSpaceByte r ∈ (raws.map (trim Ingest.isSpaceByte)).filter (· ≠ []) := by
          rw [List.mem_filter]
          exact ⟨List.mem_map_of_mem hr, by simpa using hne⟩
        rw [List.map_eq_nil_iff.mp hrest] at hmem
        cases hmem
      rcases hres : Store.ingestMessage o w (pythonView m) c with ⟨e | b, c'⟩
      · have hraised : Store.discard (Store.ingestMessage o w (pythonView m)) c = (.error e, c') := Txn.bind_error hres
        rw [Txn.bind_error hraised]
      · have htaken : Store.discard (Store.ingestMessage o w (pythonView m)) c = (.ok (), c') :=
          Store.discard_eq_ok.mpr ⟨b, hres⟩
        rw [Txn.bind_ok htaken, ingestLines_blank hblanks]

def PassedOver (o : Observer) (t : Catalog.Tables) (w : Store.Surroundings) (obj : Python.Value) : Prop :=
  Store.read o t w obj = .ok none ∨
    ∃ e, Store.read o t w obj = .ok (some e) ∧ e.payloadHash ∈ t.messages.map Catalog.Message.payloadHash

theorem ingestMessage_passedOver {obj : Python.Value} {c : Catalog.Conn} (h : PassedOver o c.view w obj) :
    (Store.ingestMessage o w obj c).2.view = c.view := by
  rcases h with hnone | ⟨e, he, hold⟩
  · obtain ⟨m, ha, hrest⟩ := bind_eq_ok.mp hnone
    cases m with
    | none =>
      rw [Store.ingestMessage, Txn.read_bind, Txn.lift_bind, ha]
      rfl
    | some m =>
      simp only [bind_eq_ok] at hrest
      obtain ⟨_, -, _, -, _, -, _, -, _, -, _, -, _, -, hrest⟩ := hrest
      cases hrest
  · rw [Store.ingestMessage_of_read o he, Store.Event.take, if_pos hold]

theorem ingestLines_passedOver {line : Bytes} {c : Catalog.Conn}
    (h : ∀ obj ∈ Ingest.objects o.py (line ++ [10]), PassedOver o c.view w obj) :
    (ingestLines o w (linesOf line) c).2.view = c.view := by
  unfold Ingest.objects Ingest.inboxLines at h
  rw [linesOf]
  generalize (records 10 (line ++ [10])).1 = raws at h ⊢
  induction raws generalizing c with
  | nil => rfl
  | cons raw raws ih =>
    rw [List.map_cons] at h
    rw [ingestLines, Ingest.ingestLine]
    by_cases hblank : trim Ingest.isSpaceByte raw = []
    · rw [if_pos hblank]
      rw [List.filter_cons_of_neg (by simpa using hblank)] at h
      exact ih h
    · rw [if_neg hblank]
      rw [List.filter_cons_of_pos (by simpa using hblank), List.filterMap_cons] at h
      cases hload : Python.loadsBytes o.py (trim Ingest.isSpaceByte raw) with
      | error e =>
        rw [hload] at h
        by_cases he : e = .valueError
        · rw [he]
          exact ih h
        · cases e <;> first | rfl | exact absurd rfl he
      | ok obj =>
        rw [hload] at h
        dsimp only [Except.toOption] at h ⊢
        rw [List.forall_mem_cons] at h
        have hview := ingestMessage_passedOver h.1
        rcases hres : Store.ingestMessage o w obj c with ⟨e | b, c'⟩
        · rw [hres] at hview
          have hraised : Store.discard (Store.ingestMessage o w obj) c = (.error e, c') := Txn.bind_error hres
          rw [Txn.bind_error hraised]
          exact hview
        · rw [hres] at hview
          have htaken : Store.discard (Store.ingestMessage o w obj) c = (.ok (), c') :=
            Store.discard_eq_ok.mpr ⟨b, hres⟩
          rw [Txn.bind_ok htaken, ih (by rw [hview]; exact h.2)]
          exact hview

end Ingesting

end ObserverClub.Together
