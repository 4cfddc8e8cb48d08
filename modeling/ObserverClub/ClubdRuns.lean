import ObserverClub.Clubd

namespace ObserverClub.Clubd

open Library

variable {node : Node}

/-- A line with this payload hash has been appended. -/
def Appended (t : System) (h : Text) : Prop := ∃ e ∈ t.shared.inbox, e.payloadHash = h

/-- The call has passed the set of hashes, and appends payload `h` if nothing refuses it. -/
def Owes (h : Text) : Call → Prop
  | .done _ => False
  | .act (.duplicate _) _ => False
  | .act (.allow _) next => Owes h (next true)
  | .act (.applyClaimPolicy _) next => Owes h (next true)
  | .act (.appendInbox e) _ => e.payloadHash = h
  | .act (.broadcast _ _) _ => False

def Drops (h : Text) (p : Call) : Prop := p.result = some (.dropped h)

def Fair : Call → Prop
  | .done _ => True
  | .act (.duplicate h) next =>
    Owes h (next false) ∧ (∀ h', Drops h' (next true) → h' = h) ∧ Fair (next false) ∧ Fair (next true)
  | .act (.allow _) next => ∀ b : Bool, (∀ h, ¬Drops h (next b)) ∧ Fair (next b)
  | .act (.applyClaimPolicy _) next => ∀ b : Bool, (∀ h, ¬Drops h (next b)) ∧ Fair (next b)
  | .act (.appendInbox _) next => ∀ b : Bool, (∀ h, ¬Drops h (next b)) ∧ Fair (next b)
  | .act (.broadcast _ _) next => ∀ b : Bool, (∀ h, ¬Drops h (next b)) ∧ Fair (next b)

def OwedBy (t : System) (i : ℕ) (h : Text) : Prop := ∃ p, t.calls[i]? = some p ∧ Owes h p

/-- What a step must not do: refuse a call its payload, where nothing else has appended it or will, or
look up a payload that another call has passed through the set and not yet appended. -/
def Careful (t : System) : Event → Prop
  | .start _ => True
  | .advance i reading => ∀ a next, t.calls[i]? = some (.act a next) →
      (∀ h, Owes h (.act a next) →
        (exec a reading t.shared).1 = true ∨ Appended t h ∨ ∃ j ≠ i, OwedBy t j h) ∧
      (∀ h, a = .duplicate h → Drops h (next true) → ∀ j, ¬OwedBy t j h)

section Calls

theorem admitRest_fair (data : Bytes) (m : Go.Value) : Fair (admitRest node data m) := by
  intro b
  cases b with
  | false => exact ⟨fun h hd => by simp [Drops, Program.result] at hd, trivial⟩
  | true =>
    refine ⟨fun h hd => by simp [Drops, Program.result] at hd, fun b => ⟨fun h hd => ?_, trivial⟩⟩
    cases b <;> simp [Drops, Program.result] at hd

theorem admitRest_not_drops (data : Bytes) (m : Go.Value) (h : Text) : ¬Drops h (admitRest node data m) := by
  simp [admitRest, Drops, Program.result]

theorem acceptGossip_fair (data : Bytes) (rateLimit : Bool) : Fair (acceptGossip node data rateLimit) := by
  unfold acceptGossip
  cases verify node data with
  | error e => trivial
  | ok m =>
    have hd : ∀ h h', Drops h' (.done (.dropped h)) → h' = h := by
      intro h h' hd
      simpa [Drops, Program.result, eq_comm] using hd
    cases rateLimit with
    | false => exact ⟨rfl, hd _, admitRest_fair data m, trivial⟩
    | true =>
      refine ⟨rfl, hd _, fun b => ?_, trivial⟩
      cases b with
      | false => exact ⟨fun h hd => by simp [Drops, Program.result] at hd, trivial⟩
      | true => exact ⟨admitRest_not_drops data m, admitRest_fair data m⟩

theorem handlePublish_fair (request : Request) : Fair (handlePublish node request) := by
  unfold handlePublish
  cases prepare node request with
  | error e => exact trivial
  | ok m =>
    dsimp only
    cases node.sign (Canon.marshal m) with
    | none => exact trivial
    | some sig =>
      have hsent : ∀ out kind, Fair (.act (.broadcast kind out) fun sent =>
          .done (if sent then .published out else .failed 500 .broadcast)) := by
        intro out kind b
        refine ⟨fun h hd => ?_, trivial⟩
        cases b <;> simp [Drops, Program.result] at hd
      have hlast : ∀ e out kind, Fair (.act (.appendInbox e) fun written =>
          if !written then .done (.failed 500 .inboxWrite)
          else .act (.broadcast kind out) fun sent =>
            .done (if sent then .published out else .failed 500 .broadcast)) := by
        intro e out kind b
        cases b with
        | false => exact ⟨fun h hd => by simp [Drops, Program.result] at hd, trivial⟩
        | true => exact ⟨fun h hd => by simp [Drops, Program.result] at hd, hsent _ _⟩
      intro b
      cases b with
      | false => exact ⟨fun h hd => by simp [Drops, Program.result] at hd, trivial⟩
      | true =>
        refine ⟨fun h hd => by simp [Drops, Program.result] at hd, rfl, fun h' hd => ?_, hlast _ _ _, hlast _ _ _⟩
        simp [Drops, Program.result] at hd

theorem body_fair (a : Arrival) : Fair (body node a) := by
  cases a with
  | gossip data rateLimit => exact acceptGossip_fair data rateLimit
  | publish request => exact handlePublish_fair request

end Calls

theorem fair_next {a : Action} {next : Answer a → Call} (h : Fair (.act a next)) (r : Answer a) :
    Fair (next r) := by
  cases a with
  | duplicate h' => cases r with
    | false => exact h.2.2.1
    | true => exact h.2.2.2
  | allow p => exact (h r).2
  | applyClaimPolicy m => exact (h r).2
  | appendInbox e => exact (h r).2
  | broadcast topic payload => exact (h r).2

theorem drops_next {a : Action} {next : Answer a → Call} {r : Answer a} {h : Text}
    (hf : Fair (.act a next)) (hd : Drops h (next r)) : a = .duplicate h ∧ r = true := by
  cases a with
  | duplicate h' => cases r with
    | false =>
      have ho := hf.1
      cases hn : next false with
      | done x => exact absurd ho (by simp [hn, Owes])
      | act b k => exact absurd hd (by simp [hn, Drops, Program.result])
    | true => exact ⟨by rw [hf.2.1 h hd], rfl⟩
  | allow p => exact absurd hd ((hf r).1 h)
  | applyClaimPolicy m => exact absurd hd ((hf r).1 h)
  | appendInbox e => exact absurd hd ((hf r).1 h)
  | broadcast topic payload => exact absurd hd ((hf r).1 h)

/-- What holds of the daemon: a hash in its set belongs to a line, or to a call that is to append one. -/
structure Sound (t : System) : Prop where
  fair : ∀ (i : ℕ) (p : Call), t.calls[i]? = some p → Fair p
  seen : ∀ h, Limit.Seen t.shared.limiter h → Appended t h ∨ ∃ i, OwedBy t i h
  dropped : ∀ h, ∀ p ∈ t.calls, Drops h p → Appended t h

theorem start_sound (rate : ℤ) (inbox : List Entry) : Sound (start rate inbox) where
  fair := by simp [start]
  seen := by simp [start, Limit.new, Limit.Seen]
  dropped := by simp [start]

section Step

variable {t : System} {i : ℕ} {a : Action} {next : Answer a → Call} {reading : Reading}

/-- The system after call `i` has taken its next action. -/
def advanced (t : System) (i : ℕ) (a : Action) (next : Answer a → Call) (reading : Reading) : System :=
  ⟨(exec a reading t.shared).2, t.calls.set i (next (exec a reading t.shared).1)⟩

theorem appended_advanced {h : Text} (hh : Appended t h) : Appended (advanced t i a next reading) h := by
  obtain ⟨e, he, rfl⟩ := hh
  refine ⟨e, ?_, rfl⟩
  cases a with
  | appendInbox e' =>
    simp only [advanced, exec]
    split_ifs
    · exact List.mem_append_left _ he
    · exact he
  | broadcast topic payload =>
    simp only [advanced, exec]
    split_ifs <;> exact he
  | duplicate h => exact he
  | allow p => exact he
  | applyClaimPolicy m => exact he

theorem owedBy_other {j : ℕ} {h : Text} (hj : j ≠ i) (ho : OwedBy t j h) :
    OwedBy (advanced t i a next reading) j h := by
  obtain ⟨p, hp, ho⟩ := ho
  exact ⟨p, by rw [advanced, List.getElem?_set_ne (Ne.symm hj), hp], ho⟩

theorem owedBy_self {h : Text} (hi : t.calls[i]? = some (.act a next))
    (ho : Owes h (next (exec a reading t.shared).1)) : OwedBy (advanced t i a next reading) i h := by
  have hlt : i < t.calls.length := (List.getElem?_eq_some_iff.mp hi).1
  exact ⟨_, by rw [advanced, List.getElem?_set_self hlt], ho⟩

theorem owed_next {h : Text} (hi : t.calls[i]? = some (.act a next)) (ho : Owes h (.act a next))
    (hr : (exec a reading t.shared).1 = true) :
    Appended (advanced t i a next reading) h ∨ OwedBy (advanced t i a next reading) i h := by
  cases a with
  | duplicate h' => exact ho.elim
  | broadcast topic payload => exact ho.elim
  | allow p => exact .inr (owedBy_self hi (by rw [hr]; exact ho))
  | applyClaimPolicy m => exact .inr (owedBy_self hi (by rw [hr]; exact ho))
  | appendInbox e =>
    have hok : reading.ok = true := hr
    exact .inl ⟨e, by simp [advanced, exec, hok], ho⟩

theorem seen_advanced {h : Text} (hs : Limit.Seen (advanced t i a next reading).shared.limiter h) :
    Limit.Seen t.shared.limiter h ∨ a = .duplicate h ∧ (exec a reading t.shared).1 = false := by
  cases a with
  | duplicate h' =>
    rcases Limit.seen_duplicate hs with hs | ⟨rfl, hr⟩
    · exact .inl hs
    · exact .inr ⟨rfl, hr⟩
  | allow p => exact .inl (by simpa [advanced, exec, Limit.Seen] using hs)
  | applyClaimPolicy m => exact .inl hs
  | appendInbox e =>
    simp only [advanced, exec] at hs
    split_ifs at hs <;> exact .inl hs
  | broadcast topic payload =>
    simp only [advanced, exec] at hs
    split_ifs at hs <;> exact .inl hs

theorem advanced_sound (hs : Sound t) (hi : t.calls[i]? = some (.act a next))
    (hc : Careful t (.advance i reading)) : Sound (advanced t i a next reading) := by
  obtain ⟨hgrant, hlook⟩ := hc a next hi
  have hfair := hs.fair i _ hi
  have hkept : ∀ h, (Appended t h ∨ ∃ j, OwedBy t j h) →
      Appended (advanced t i a next reading) h ∨ ∃ j, OwedBy (advanced t i a next reading) j h := by
    rintro h (ha | ⟨j, hj⟩)
    · exact .inl (appended_advanced ha)
    · by_cases hij : j = i
      · subst hij
        obtain ⟨p, hp, ho⟩ := hj
        obtain rfl : p = .act a next := by rw [hi] at hp; exact (Option.some.inj hp).symm
        rcases hgrant h ho with hr | ha | ⟨k, hk, hok⟩
        · exact (owed_next hi ho hr).imp id (fun ho => ⟨j, ho⟩)
        · exact .inl (appended_advanced ha)
        · exact .inr ⟨k, owedBy_other hk hok⟩
      · exact .inr ⟨j, owedBy_other hij hj⟩
  constructor
  · intro j p hp
    by_cases hij : j = i
    · subst hij
      have hlt : j < t.calls.length := (List.getElem?_eq_some_iff.mp hi).1
      rw [advanced, List.getElem?_set_self hlt] at hp
      obtain rfl := Option.some.inj hp
      exact fair_next hfair _
    · rw [advanced, List.getElem?_set_ne (Ne.symm hij)] at hp
      exact hs.fair j p hp
  · intro h hseen
    rcases seen_advanced hseen with hseen | ⟨rfl, hr⟩
    · exact hkept h (hs.seen h hseen)
    · exact .inr ⟨i, owedBy_self hi (by rw [hr]; exact hfair.1)⟩
  · intro h p hp hd
    rcases List.mem_or_eq_of_mem_set hp with hp | rfl
    · exact appended_advanced (hs.dropped h p hp hd)
    · obtain ⟨rfl, hr⟩ := drops_next hfair hd
      rw [hr] at hd
      rcases hs.seen h (Limit.seen_of_duplicate hr) with ha | ⟨j, hj⟩
      · exact appended_advanced ha
      · exact absurd hj (hlook h rfl hd j)

end Step

theorem step_sound (t : System) (e : Event) (hs : Sound t) (hc : Careful t e) : Sound (step node t e) := by
  rcases Threads.step_cases (body node) exec t e with ⟨c, rfl, he⟩ | ⟨i, reading, a, next, rfl, hi, he⟩ | he
  · rw [step, he]
    constructor
    · intro i p hp
      rcases List.mem_append.mp (List.mem_of_getElem? hp) with hm | hm
      · obtain ⟨j, hj⟩ := List.mem_iff_getElem?.mp hm
        exact hs.fair j p hj
      · rw [List.mem_singleton.mp hm]
        exact body_fair c
    · intro h hseen
      refine (hs.seen h hseen).imp id (fun ⟨i, p, hp, ho⟩ => ⟨i, p, ?_, ho⟩)
      rw [List.getElem?_append_left (List.getElem?_eq_some_iff.mp hp).1]
      exact hp
    · intro h p hp hd
      rcases List.mem_append.mp hp with hp | hp
      · exact hs.dropped h p hp hd
      · rw [List.mem_singleton.mp hp] at hd
        have hnot : ∀ a : Arrival, ¬Drops h (body node a) := by
          intro a
          cases a with
          | gossip data rateLimit =>
            simp only [body, acceptGossip]
            split <;> simp [Drops, Program.result]
          | publish request =>
            simp only [body, handlePublish]
            split
            · simp [Drops, Program.result]
            · split <;> simp [Drops, Program.result]
        exact absurd hd (hnot c)
  · rw [step, he]
    exact advanced_sound hs hi hc
  · rw [step, he]
    exact hs

/-- In a careful run a call drops its payload as a duplicate only once a line with its hash has been
appended. -/
theorem dropped_appended (rate : ℤ) (inbox : List Entry) (events : List Event)
    (hc : Along (step node) Careful (start rate inbox) events) :
    ∀ h, ∀ p ∈ (run (step node) (start rate inbox) events).calls, Drops h p →
      Appended (run (step node) (start rate inbox) events) h :=
  (run_invariant step_sound (start_sound rate inbox) hc).dropped

section Sample

def quiet (t : System) : Event → Bool
  | .start _ => true
  | .advance i reading =>
    ((List.range t.calls.length).all fun j => j = i || ((t.calls[j]?).bind Program.result).isSome) &&
      match t.calls[i]? with
      | some (.act (.duplicate _) _) => true
      | some (.act a _) => (exec a reading t.shared).1
      | _ => true

theorem quiet_careful (t : System) (e : Event) (h : quiet t e = true) : Careful t e := by
  cases e with
  | start c => trivial
  | advance i reading =>
    intro a next hi
    simp only [quiet, hi, Bool.and_eq_true, List.all_eq_true, List.mem_range, Bool.or_eq_true,
      decide_eq_true_eq] at h
    obtain ⟨hothers, hself⟩ := h
    constructor
    · intro h ho
      cases a with
      | duplicate h' => exact ho.elim
      | allow p => exact .inl hself
      | applyClaimPolicy m => exact .inl hself
      | appendInbox e => exact .inl hself
      | broadcast topic payload => exact ho.elim
    · rintro h rfl - j ⟨p, hp, ho⟩
      rcases hothers j (List.getElem?_eq_some_iff.mp hp).1 with rfl | hj
      · rw [hi] at hp
        obtain rfl := Option.some.inj hp
        exact ho
      · cases p with
        | done x => exact ho
        | act b k => simp [hp, Program.result] at hj

def sampleSum (n : ℕ) (s : Bytes) : Bytes := List.replicate n (s.foldl (fun a b => 31 * a + b) 7)

def sampleCid (t : Text) : Bool := t.take 9 = txt "f01550001" && (Go.hexDecode (t.drop 9)).any fun bytes => bytes.length = 1

def sampleNode : Node where
  clubID := txt "academic"
  hostID := txt "12D3KooWHost"
  decodePeer := fun t => if t.take 8 = txt "12D3KooW" then some (Go.asciiBytes t) else none
  peerstore := fun _ => none
  extractPublicKey := some
  verify := fun pk msg sig => decide (sig = sampleSum 64 (pk ++ msg))
  sign := fun msg => some (sampleSum 64 (ascii "12D3KooWHost" ++ msg))
  cidDecode := sampleCid
  sha256 := sampleSum 32

/-- An alias message of the peer `12D3KooWPeer`. -/
def aliasObject (name : String) : Go.Value :=
  .obj [(txt "alias", .str (txt name)), (txt "kind", .str (txt "alias")), (txt "publisher", .str (txt "12D3KooWPeer")),
    (txt "v", .num (txt "1"))]

def aliasLine (name : String) : Bytes :=
  Go.jsonMarshal (Go.setItem (aliasObject name) "sig"
    (.str (hexText (sampleSum 64 (ascii "12D3KooWPeer" ++ Canon.marshal (aliasObject name))))))

def at1000 : Reading := ⟨1000 * second, 1000 * second, true, none⟩

def delivered (i : ℕ) (data : Bytes) (rateLimit : Bool) : List Event :=
  .start (.gossip data rateLimit) :: List.replicate 4 (.advance i at1000)

theorem dropped_appended_twice :
    Along (step sampleNode) Careful (start 1 []) (delivered 0 (aliasLine "a") true ++
      delivered 1 (aliasLine "a") false) ∧
    ∀ h, ∀ p ∈ (run (step sampleNode) (start 1 []) (delivered 0 (aliasLine "a") true ++
      delivered 1 (aliasLine "a") false)).calls, Drops h p →
      Appended (run (step sampleNode) (start 1 []) (delivered 0 (aliasLine "a") true ++
        delivered 1 (aliasLine "a") false)) h := by
  have hc : Along (step sampleNode) Careful (start 1 []) (delivered 0 (aliasLine "a") true ++
      delivered 1 (aliasLine "a") false) :=
    along_mono (P := fun t e => quiet t e = true) quiet_careful (by decide +kernel)
  exact ⟨hc, dropped_appended 1 [] _ hc⟩

theorem dropped_not_appended : ∃ h, ∃ p ∈ (run (step sampleNode) (start 1 []) (delivered 0 (aliasLine "a") true ++
      delivered 1 (aliasLine "b") true ++ delivered 2 (aliasLine "b") false)).calls, Drops h p ∧
      ¬Appended (run (step sampleNode) (start 1 []) (delivered 0 (aliasLine "a") true ++
        delivered 1 (aliasLine "b") true ++ delivered 2 (aliasLine "b") false)) h := by
  have hrun : ((run (step sampleNode) (start 1 []) (delivered 0 (aliasLine "a") true ++
      delivered 1 (aliasLine "b") true ++ delivered 2 (aliasLine "b") false)).calls.any fun p =>
        (p.result.bind Outcome.droppedHash).any fun h =>
          (run (step sampleNode) (start 1 []) (delivered 0 (aliasLine "a") true ++
            delivered 1 (aliasLine "b") true ++ delivered 2 (aliasLine "b") false)).shared.inbox.all
              fun e => e.payloadHash ≠ h) = true := by decide +kernel
  obtain ⟨p, hp, hd⟩ := List.any_eq_true.mp hrun
  obtain ⟨h, hh, hnone⟩ := some_of_any hd
  obtain ⟨o, ho, hd⟩ := Option.bind_eq_some_iff.mp hh
  have hdrop : o = .dropped h := by cases o <;> simp_all [Outcome.droppedHash]
  rw [hdrop] at ho
  simp only [List.all_eq_true, decide_eq_true_eq] at hnone
  exact ⟨h, p, hp, ho, fun ⟨e, he, heq⟩ => hnone e he heq⟩

end Sample

end ObserverClub.Clubd
