import ObserverClub.OneLease
import Mathlib.Algebra.Order.Floor.Ring
import Mathlib.Data.Rat.Floor

/-!
The workers of a node and the leases it holds: at every turn one of them makes its next call, and what they
share is the time stamp, the slot and what clubd has granted.
-/

namespace ObserverClub.Indexer

open Library Python Library.Program

structure Lease where
  cid : Text
  till : ℚ
  deriving DecidableEq

/-- A call of `process_one`, as far as it has got. -/
structure Run where
  row : Row
  events : List (Event Answer)
  rest : Program Answer (Except Error Bool)

/-- `_claimed_until`, `_claim_slot`, the leases that nothing has ended yet, and every call. -/
structure Crew where
  claimedUntil : ℚ := 0
  slots : ℕ := 1
  leases : List Lease := []
  runs : List Run := []

inductive Move where
  | start (row : Row)
  | turn (i : ℕ) (world : (a : Action) → Answer a)

structure Beat where
  now : ℚ
  move : Move

namespace Action

def claimed : Action → Option Text
  | .publishClaim cid => some cid
  | _ => none

def acquires : Action → Bool
  | .acquireSlot => true
  | _ => false

def clears : Action → Bool
  | .setLease x => x = 0
  | _ => false

end Action

namespace Crew

variable (w : Worker)

/-- What a call is answered: the clock, the stamp and the slot are the node's own. -/
def answer (s : Crew) (now : ℚ) (world : (a : Action) → Answer a) : (a : Action) → Answer a
  | .clock => .ok now
  | .leaseUntil => .ok s.claimedUntil
  | .setLease _ => .ok ()
  | .acquireSlot => .ok (decide (0 < s.slots))
  | .releaseSlot => .ok ()
  | a => world a

def ended (cid : Text) (s : Crew) : Crew := { s with leases := s.leases.filter fun l => l.cid ≠ cid }

/-- What a call changes: `claim` sets the lease off at the full second, a skip or a classify ends it. -/
def effect (now : ℚ) (s : Crew) : Event Answer → Crew
  | ⟨.setLease x, _⟩ => { s with claimedUntil := x }
  | ⟨.acquireSlot, .ok free⟩ => if free then { s with slots := s.slots - 1 } else s
  | ⟨.releaseSlot, _⟩ => { s with slots := s.slots + 1 }
  | ⟨.publishClaim cid, .ok ok⟩ => if ok then { s with leases := s.leases ++ [⟨cid, ⌊now⌋ + w.claimTTL⟩] } else s
  | ⟨.publishSkip cid _ _, .ok ok⟩ => if ok then s.ended cid else s
  | ⟨.publishClassify cid _, .ok ok⟩ => if ok then s.ended cid else s
  | _ => s

/-- A run that the model and the prior disagreed in ends the lease on its CID with it. -/
def resumed (s : Crew) (i : ℕ) (run : Run) : Crew :=
  let s := if run.rest.result.isSome && run.events.any disagrees then s.ended run.row.cid else s
  { s with runs := s.runs.set i run }

def step (s : Crew) (b : Beat) : Crew :=
  match b.move with
  | .start row => { s with runs := s.runs ++ [⟨row, [], (processOne w row).run⟩] }
  | .turn i world =>
    match s.runs[i]? with
    | some ⟨row, events, .act a next⟩ =>
      let r := s.answer b.now world a
      (s.effect w b.now ⟨a, r⟩).resumed i ⟨row, events ++ [⟨a, r⟩], next r⟩
    | _ => s

/-- The run that a beat goes on with, and the call it makes. -/
def calls (s : Crew) (b : Beat) : Option (Run × Action) :=
  match b.move with
  | .start _ => none
  | .turn i _ =>
    match s.runs[i]? with
    | some ⟨row, events, .act a next⟩ => some (⟨row, events, .act a next⟩, a)
    | _ => none

/-- Where a claim is sent, no lease on another CID is live. -/
def OneLease (s : Crew) (b : Beat) : Prop :=
  ∀ call ∈ s.calls b, ∀ cid ∈ call.2.claimed, ∀ l ∈ s.leases, l.cid ≠ cid → l.till ≤ b.now

instance (s : Crew) (b : Beat) : Decidable (s.OneLease b) :=
  inferInstanceAs (Decidable (∀ call ∈ s.calls b, ∀ cid ∈ call.2.claimed, ∀ l ∈ s.leases, l.cid ≠ cid → l.till ≤ b.now))

/-- The slot is taken only after the stamp, and a call that has no claim clears the stamp only when no lease is live. -/
def Careful (s : Crew) (b : Beat) : Prop :=
  ∀ call ∈ s.calls b,
    (call.2.acquires = true → 0 < s.slots → s.claimedUntil ≤ b.now) ∧
      (call.2.clears = true → stage call.1.row.cid call.1.events = .outside → ∀ l ∈ s.leases, l.till ≤ b.now)

instance (s : Crew) (b : Beat) : Decidable (s.Careful b) :=
  inferInstanceAs (Decidable (∀ call ∈ s.calls b,
    (call.2.acquires = true → 0 < s.slots → s.claimedUntil ≤ b.now) ∧
      (call.2.clears = true → stage call.1.row.cid call.1.events = .outside → ∀ l ∈ s.leases, l.till ≤ b.now)))

end Crew

def Stage.holds : Stage → Bool
  | .outside => false
  | .left => false
  | _ => true

def Stage.covers (w : Worker) (claimedUntil now : ℚ) (run : Run) (l : Lease) : Stage → Prop
  | .sent ok => ok = true ∧ l.cid = run.row.cid ∧ l.till ≤ now + w.claimTTL
  | .timed ok then_ => ok = true ∧ l.cid = run.row.cid ∧ l.till ≤ then_ + w.claimTTL
  | .leased told => told = false ∧ l.cid = run.row.cid ∧ (l.till ≤ claimedUntil ∨ run.events.any disagrees = true)
  | _ => False

abbrev Run.stage (run : Run) : Stage := Indexer.stage run.row.cid run.events

inductive Standing (w : Worker) (s : Crew) (now : ℚ) : Prop
  | free (slots : s.slots = 1) (none : ∀ run ∈ s.runs, run.stage.holds = false)
      (stamp : ∀ l ∈ s.leases, now < l.till → l.till ≤ s.claimedUntil)
  | taken {i : ℕ} {run : Run} (slots : s.slots = 0) (holder : s.runs[i]? = some run) (holds : run.stage.holds = true)
      (only : ∀ j run', s.runs[j]? = some run' → run'.stage.holds = true → j = i)
      (covers : ∀ l ∈ s.leases, now < l.till → run.stage.covers w s.claimedUntil now run l)

namespace Standing

variable {w : Worker} {s s' : Crew} {now : ℚ} {i : ℕ} {run : Run}

theorem later {now' : ℚ} (h : Standing w s now) (hle : now ≤ now') : Standing w s now' := by
  cases h with
  | free slots none stamp => exact .free slots none fun l hl hlive => stamp l hl (lt_of_le_of_lt hle hlive)
  | @taken i run slots holder holds only covers =>
    refine .taken slots holder holds only fun l hl hlive => ?_
    have hcovers := covers l hl (lt_of_le_of_lt hle hlive)
    cases hstage : run.stage with
    | sent ok =>
      rw [hstage] at hcovers
      exact ⟨hcovers.1, hcovers.2.1, hcovers.2.2.trans (by linarith)⟩
    | _ =>
      rw [hstage] at hcovers
      exact hcovers

theorem shrink (h : Standing w s now) (hslots : s'.slots = s.slots) (hruns : s'.runs = s.runs)
    (hstamp : s'.claimedUntil = s.claimedUntil) (hleases : ∀ l ∈ s'.leases, l ∈ s.leases) : Standing w s' now := by
  cases h with
  | free slots none stamp =>
    refine .free (hslots.trans slots) (by rw [hruns]; exact none) fun l hl hlive => ?_
    rw [hstamp]
    exact stamp l (hleases l hl) hlive
  | taken slots holder holds only covers =>
    refine .taken (hslots.trans slots) (by rw [hruns]; exact holder) holds (by rw [hruns]; exact only) fun l hl hlive => ?_
    rw [hstamp]
    exact covers l (hleases l hl) hlive

theorem getElem?_set {runs : List Run} {j : ℕ} {run' other : Run} (h : (runs.set i run')[j]? = some other) :
    j = i ∧ other = run' ∨ j ≠ i ∧ runs[j]? = some other := by
  rw [List.getElem?_set] at h
  split_ifs at h with hij hlt
  · exact .inl ⟨hij.symm, (Option.some.inj h).symm⟩
  · exact .inr ⟨Ne.symm hij, h⟩

theorem set_other (h : Standing w s now) (run' : Run) (hrun : s.runs[i]? = some run) (hout : run.stage.holds = false)
    (hout' : run'.stage.holds = false) (hslots : s'.slots = s.slots) (hruns : s'.runs = s.runs.set i run')
    (hleases : ∀ l ∈ s'.leases, l ∈ s.leases)
    (hstamp : s'.claimedUntil = s.claimedUntil ∨ ∀ l ∈ s.leases, l.till ≤ now) : Standing w s' now := by
  have hlive {l : Lease} (hl : l ∈ s'.leases) (hlt : now < l.till) : s'.claimedUntil = s.claimedUntil :=
    hstamp.resolve_right fun hall => absurd hlt (not_lt_of_ge (hall l (hleases l hl)))
  cases h with
  | free slots none stamp =>
    refine .free (hslots.trans slots) ?_ fun l hl hlt => ?_
    · intro other hother
      rw [hruns] at hother
      obtain hmem | rfl := List.mem_or_eq_of_mem_set hother
      · exact none other hmem
      · exact hout'
    · rw [hlive hl hlt]
      exact stamp l (hleases l hl) hlt
  | @taken k holder slots hholder holds only covers =>
    have hne : k ≠ i := by
      rintro rfl
      rw [Option.some.inj (hholder.symm.trans hrun), hout] at holds
      cases holds
    refine @Standing.taken _ _ _ k holder (hslots.trans slots) ?_ holds ?_ fun l hl hlt => ?_
    · rw [hruns, List.getElem?_set_ne hne.symm]
      exact hholder
    · intro j other hj hholds
      rw [hruns] at hj
      obtain ⟨-, rfl⟩ | ⟨-, hj⟩ := getElem?_set hj
      · rw [hout'] at hholds
        cases hholds
      · exact only j other hj hholds
    · rw [hlive hl hlt]
      exact covers l (hleases l hl) hlt

theorem of_holds (h : Standing w s now) (hrun : s.runs[i]? = some run) (hholds : run.stage.holds = true) :
    s.slots = 0 ∧ (∀ j other, s.runs[j]? = some other → other.stage.holds = true → j = i) ∧
      ∀ l ∈ s.leases, now < l.till → run.stage.covers w s.claimedUntil now run l := by
  cases h with
  | free slots none stamp =>
    rw [none run (List.mem_of_getElem? hrun)] at hholds
    cases hholds
  | @taken k holder slots hholder holds only covers =>
    have hik := only i run hrun hholds
    subst hik
    rw [← Option.some.inj (hholder.symm.trans hrun)]
    exact ⟨slots, only, covers⟩

theorem set_holder (run' : Run) (hrun : s.runs[i]? = some run) (hslots : s'.slots = 0) (hholds' : run'.stage.holds = true)
    (honly : ∀ j other, s.runs[j]? = some other → other.stage.holds = true → j = i)
    (hruns : s'.runs = s.runs.set i run')
    (hcovers : ∀ l ∈ s'.leases, now < l.till → run'.stage.covers w s'.claimedUntil now run' l) : Standing w s' now := by
  have hlt : i < s.runs.length := (List.getElem?_eq_some_iff.mp hrun).1
  refine @Standing.taken _ _ _ i run' hslots ?_ hholds' ?_ hcovers
  · rw [hruns, List.getElem?_set_self hlt]
  · intro j other hj hholds
    rw [hruns] at hj
    obtain ⟨hj, -⟩ | ⟨-, hj⟩ := getElem?_set hj
    · exact hj
    · exact honly j other hj hholds

theorem set_free (run' : Run) (hslots : s'.slots = 1) (hout' : run'.stage.holds = false)
    (honly : ∀ j other, s.runs[j]? = some other → other.stage.holds = true → j = i)
    (hruns : s'.runs = s.runs.set i run') (hstamp : ∀ l ∈ s'.leases, now < l.till → l.till ≤ s'.claimedUntil) :
    Standing w s' now := by
  refine .free hslots ?_ hstamp
  intro other hother
  obtain ⟨j, hj⟩ := List.mem_iff_getElem?.mp hother
  rw [hruns] at hj
  obtain ⟨-, rfl⟩ | ⟨hne, hj⟩ := getElem?_set hj
  · exact hout'
  · by_contra hholds
    exact hne (honly j other hj (by simpa using hholds))

end Standing

section Turns

variable {w : Worker} {s : Crew} {now : ℚ} {i : ℕ} {row : Row} {events : List (Event Answer)}
  {rest rest' : Program Answer (Except Error Bool)} {e : Event Answer} {l : Lease}

theorem effect_runs (s : Crew) (e : Event Answer) : (s.effect w now e).runs = s.runs := by
  obtain ⟨a, r⟩ := e
  cases a <;> cases r <;> first | rfl | (rename_i ok; cases ok <;> rfl)

theorem effect_aloof (h : e.1.aloof = true) :
    (s.effect w now e).slots = s.slots ∧ (s.effect w now e).claimedUntil = s.claimedUntil ∧
      ∀ l ∈ (s.effect w now e).leases, l ∈ s.leases ∧ (tells row.cid e = true → l.cid ≠ row.cid) := by
  have hended (c : Text) (l : Lease) (hl : l ∈ (s.ended c).leases) : l ∈ s.leases ∧
    ((true && decide (c = row.cid)) = true → l.cid ≠ row.cid) := by
    obtain ⟨hl, hne⟩ := List.mem_filter.mp hl
    refine ⟨hl, fun hc => ?_⟩
    rw [Bool.true_and, decide_eq_true_eq] at hc
    rw [← hc]
    exact of_decide_eq_true hne
  obtain ⟨a, r⟩ := e
  cases a with
  | publishSkip c mime reason =>
    cases r with
    | error e => exact ⟨rfl, rfl, fun l hl => ⟨hl, nofun⟩⟩
    | ok ok =>
      cases ok with
      | false => exact ⟨rfl, rfl, fun l hl => ⟨hl, nofun⟩⟩
      | true => exact ⟨rfl, rfl, hended c⟩
  | publishClassify c payload =>
    cases r with
    | error e => exact ⟨rfl, rfl, fun l hl => ⟨hl, nofun⟩⟩
    | ok ok =>
      cases ok with
      | false => exact ⟨rfl, rfl, fun l hl => ⟨hl, nofun⟩⟩
      | true => exact ⟨rfl, rfl, hended c⟩
  | acquireSlot => cases h
  | publishClaim c => cases h
  | setLease x => cases h
  | releaseSlot => cases h
  | _ => exact ⟨rfl, rfl, fun l hl => ⟨hl, nofun⟩⟩

theorem holds_aloof {st : Stage} (h : e.1.aloof = true) : (st.next row.cid e).holds = st.holds := by
  cases st with
  | outside => rw [next_outside (takes_of_aloof h)]
  | held =>
    rw [Stage.next]
    cases claimAnswer e <;> rfl
  | sent ok =>
    rw [Stage.next]
    cases reading e <;> rfl
  | timed ok then_ =>
    rw [Stage.next]
    split_ifs <;> rfl
  | refused =>
    rw [Stage.next, releases_of_aloof h]
    rfl
  | leased told => rw [next_leased (releases_of_aloof h)]; rfl
  | left => rfl

theorem covers_aloof {stamp : ℚ} (h : e.1.aloof = true) (hclock : ∀ t, reading e = some t → t = now)
    (htold : tells row.cid e = true → l.cid ≠ row.cid)
    (hcovers : (stage row.cid events).covers w stamp now ⟨row, events, rest⟩ l) :
    (stage row.cid (events ++ [e])).covers w stamp now ⟨row, events ++ [e], rest'⟩ l := by
  rw [stage_snoc]
  cases hstage : stage row.cid events with
  | sent ok =>
    rw [hstage] at hcovers
    rw [Stage.next]
    cases hr : reading e with
    | none => exact hcovers
    | some t =>
      rw [Option.map_some, Option.getD_some, hclock t hr]
      exact hcovers
  | timed ok then_ =>
    rw [hstage] at hcovers
    have hsets : e.1.sets = false := by
      obtain ⟨a, r⟩ := e
      cases a <;> first | rfl | cases h
    rw [Stage.next, hsets]
    exact hcovers
  | leased told =>
    rw [hstage] at hcovers
    obtain ⟨hfalse, hcid, hstamp⟩ := hcovers
    have hnot : tells row.cid e = false := Bool.eq_false_iff.mpr fun ht => htold ht hcid
    rw [next_leased (releases_of_aloof h), hnot, Bool.or_false]
    refine ⟨hfalse, hcid, hstamp.imp_right fun hd => ?_⟩
    dsimp only at hd ⊢
    rw [List.any_append, hd, Bool.true_or]
  | outside => rw [hstage] at hcovers; exact hcovers.elim
  | held => rw [hstage] at hcovers; exact hcovers.elim
  | refused => rw [hstage] at hcovers; exact hcovers.elim
  | left => rw [hstage] at hcovers; exact hcovers.elim

theorem standing_resumed {run : Run} (h : Standing w { s with runs := s.runs.set i run } now) :
    Standing w (s.resumed i run) now := by
  unfold Crew.resumed
  dsimp only
  split_ifs
  · exact h.shrink rfl rfl rfl fun l hl => List.mem_of_mem_filter hl
  · exact h

variable {a : Action} {next : Answer a → Program Answer (Except Error Bool)} {world : (a : Action) → Answer a}

theorem reading_answer (t : ℚ) (h : reading ⟨a, s.answer now world a⟩ = some t) : t = now := by
  cases a <;> first | exact (Option.some.inj h).symm | cases h

theorem standing_aloof (h : Standing w s now) (hrun : s.runs[i]? = some ⟨row, events, .act a next⟩) (ha : a.aloof = true) :
    Standing w ((s.effect w now ⟨a, s.answer now world a⟩).resumed i
      ⟨row, events ++ [⟨a, s.answer now world a⟩], next (s.answer now world a)⟩) now := by
  apply standing_resumed
  obtain ⟨hslots, hstamp, hleases⟩ := @effect_aloof w s now row ⟨a, s.answer now world a⟩ ha
  have hholds : (stage row.cid (events ++ [⟨a, s.answer now world a⟩])).holds = (stage row.cid events).holds := by
    rw [stage_snoc]
    exact holds_aloof ha
  cases hst : (stage row.cid events).holds with
  | false =>
    refine h.set_other ⟨row, events ++ [⟨a, s.answer now world a⟩], next (s.answer now world a)⟩ hrun hst
      (hholds.trans hst) hslots ?_ (fun l hl => (hleases l hl).1) (.inl hstamp)
    dsimp only
    rw [effect_runs]
  | true =>
    obtain ⟨hzero, honly, hcovers⟩ := h.of_holds hrun hst
    refine Standing.set_holder ⟨row, events ++ [⟨a, s.answer now world a⟩], next (s.answer now world a)⟩ hrun
      (hslots.trans hzero) (hholds.trans hst) honly ?_ fun l hl hlive => ?_
    · dsimp only
      rw [effect_runs]
    · obtain ⟨hmem, htold⟩ := hleases l hl
      dsimp only
      rw [hstamp]
      exact covers_aloof ha reading_answer htold (hcovers l hmem hlive)

theorem standing_acquire (h : Standing w s now) {next : Answer .acquireSlot → Program Answer (Except Error Bool)}
    (hrun : s.runs[i]? = some ⟨row, events, .act .acquireSlot next⟩) (houtside : stage row.cid events = .outside)
    (hcareful : 0 < s.slots → s.claimedUntil ≤ now) (rest' : Program Answer (Except Error Bool)) :
    Standing w ((s.effect w now ⟨.acquireSlot, .ok (decide (0 < s.slots))⟩).resumed i
      ⟨row, events ++ [⟨.acquireSlot, .ok (decide (0 < s.slots))⟩], rest'⟩) now := by
  apply standing_resumed
  have hst : (stage row.cid events).holds = false := by rw [houtside]; rfl
  by_cases hslots : 0 < s.slots
  · rw [decide_eq_true hslots]
    have hnext : stage row.cid (events ++ [⟨.acquireSlot, .ok true⟩]) = .held := by
      rw [stage_snoc, houtside]
      rfl
    cases h with
    | taken hzero => omega
    | free hone hnone hstamp =>
      refine Standing.set_holder ⟨row, events ++ [⟨.acquireSlot, .ok true⟩], rest'⟩ hrun ?_ ?_ ?_ rfl fun l hl hlive => ?_
      · change s.slots - 1 = 0
        omega
      · rw [Run.stage, hnext]
        rfl
      · intro j other hj hholds
        rw [hnone other (List.mem_of_getElem? hj)] at hholds
        cases hholds
      · exact absurd (hlive.trans_le ((hstamp l hl hlive).trans (hcareful hslots))) (lt_irrefl _)
  · rw [decide_eq_false hslots]
    have hnext : stage row.cid (events ++ [⟨.acquireSlot, .ok false⟩]) = .outside := by
      rw [stage_snoc, houtside]
      rfl
    refine h.set_other ⟨row, events ++ [⟨.acquireSlot, .ok false⟩], rest'⟩ hrun hst ?_ rfl rfl (fun l hl => hl) (.inl rfl)
    rw [Run.stage, hnext]
    rfl

theorem standing_claim (h : Standing w s now) {next : Answer (.publishClaim row.cid) → Program Answer (Except Error Bool)}
    (hrun : s.runs[i]? = some ⟨row, events, .act (.publishClaim row.cid) next⟩) (hheld : stage row.cid events = .held)
    (r : Answer (.publishClaim row.cid)) (rest' : Program Answer (Except Error Bool)) :
    Standing w ((s.effect w now ⟨.publishClaim row.cid, r⟩).resumed i
      ⟨row, events ++ [⟨.publishClaim row.cid, r⟩], rest'⟩) now := by
  apply standing_resumed
  have hst : (stage row.cid events).holds = true := by rw [hheld]; rfl
  obtain ⟨hzero, honly, hcovers⟩ := h.of_holds hrun hst
  have hnone : ∀ l ∈ s.leases, ¬now < l.till := by
    intro l hl hlive
    have hl := hcovers l hl hlive
    rw [Run.stage, hheld] at hl
    exact hl
  cases r with
  | error e =>
    have hnext : stage row.cid (events ++ [⟨.publishClaim row.cid, .error e⟩]) = .held := by
      rw [stage_snoc, hheld]
      rfl
    refine Standing.set_holder ⟨row, events ++ [⟨.publishClaim row.cid, .error e⟩], rest'⟩ hrun hzero ?_ honly rfl
      fun l hl hlive => absurd hlive (hnone l hl)
    rw [Run.stage, hnext]
    rfl
  | ok ok =>
    have hnext : stage row.cid (events ++ [⟨.publishClaim row.cid, .ok ok⟩]) = .sent ok := by
      rw [stage_snoc, hheld]
      rfl
    refine Standing.set_holder ⟨row, events ++ [⟨.publishClaim row.cid, .ok ok⟩], rest'⟩ hrun ?_ ?_ honly ?_
      fun l hl hlive => ?_
    · cases ok <;> exact hzero
    · rw [Run.stage, hnext]
      rfl
    · cases ok <;> rfl
    · rw [Run.stage, hnext]
      cases ok with
      | false => exact absurd hlive (hnone l hl)
      | true =>
        obtain hl | hl := List.mem_append.mp hl
        · exact absurd hlive (hnone l hl)
        · rw [List.mem_singleton.mp hl]
          refine ⟨rfl, rfl, ?_⟩
          have hfloor := Int.floor_le now
          dsimp only
          linarith

theorem standing_stamp (h : Standing w s now) {x : ℚ} {next : Answer (.setLease x) → Program Answer (Except Error Bool)}
    (hrun : s.runs[i]? = some ⟨row, events, .act (.setLease x) next⟩) (hfits : Fits w row.cid events (.setLease x))
    (hcareful : x = 0 → stage row.cid events = .outside → ∀ l ∈ s.leases, l.till ≤ now)
    (rest' : Program Answer (Except Error Bool)) :
    Standing w ((s.effect w now ⟨.setLease x, .ok ()⟩).resumed i
      ⟨row, events ++ [⟨.setLease x, .ok ()⟩], rest'⟩) now := by
  apply standing_resumed
  have hnext := stage_snoc row.cid events ⟨.setLease x, .ok ()⟩
  -- What the call, if it holds the slot, knew of the leases that are live.
  have hholder (hst : (stage row.cid events).holds = true)
      (hst' : (stage row.cid (events ++ [⟨.setLease x, .ok ()⟩])).holds = true)
      (hknown : ∀ l, (stage row.cid events).covers w s.claimedUntil now ⟨row, events, .act (.setLease x) next⟩ l →
        (stage row.cid (events ++ [⟨.setLease x, .ok ()⟩])).covers w x now
          ⟨row, events ++ [⟨.setLease x, .ok ()⟩], rest'⟩ l) :
      Standing w { s.effect w now ⟨.setLease x, .ok ()⟩ with
        runs := (s.effect w now ⟨.setLease x, .ok ()⟩).runs.set i ⟨row, events ++ [⟨.setLease x, .ok ()⟩], rest'⟩ } now := by
    obtain ⟨hzero, honly, hcovers⟩ := h.of_holds hrun hst
    refine Standing.set_holder ⟨row, events ++ [⟨.setLease x, .ok ()⟩], rest'⟩ hrun hzero hst' honly rfl
      fun l hl hlive => ?_
    exact hknown l (hcovers l hl hlive)
  obtain ⟨t, hstage, rfl⟩ | ⟨t, hstage⟩ | ⟨rfl, hstage | ⟨told, hstage, hclear⟩⟩ := hfits
  · rw [hstage] at hnext hholder
    rw [hnext] at hholder
    exact hholder rfl rfl fun l hl => ⟨rfl, hl.2.1, .inl hl.2.2⟩
  · rw [hstage] at hnext hholder
    rw [hnext] at hholder
    exact hholder rfl rfl fun l hl => absurd hl.1 Bool.false_ne_true
  · rw [hstage] at hnext
    refine h.set_other ⟨row, events ++ [⟨.setLease 0, .ok ()⟩], rest'⟩ hrun ?_ ?_ rfl rfl (fun l hl => hl)
      (.inr (hcareful rfl hstage))
    · rw [Run.stage, hstage]
      rfl
    · rw [Run.stage, hnext]
      rfl
  · rw [hstage] at hnext hholder
    rw [hnext] at hholder
    refine hholder rfl rfl fun l hl => ?_
    obtain ⟨hfalse, hcid, -⟩ := hl
    have hd := hclear.resolve_left (by rw [hfalse]; exact Bool.false_ne_true)
    refine ⟨by rw [hfalse]; rfl, hcid, .inr ?_⟩
    dsimp only
    rw [List.any_append, hd, Bool.true_or]

theorem standing_release (h : Standing w s now) {next : Answer .releaseSlot → Program Answer (Except Error Bool)}
    (hrun : s.runs[i]? = some ⟨row, events, .act .releaseSlot next⟩) (hfits : Fits w row.cid events .releaseSlot)
    {rest' : Program Answer (Except Error Bool)} (hrest : Guarded (Fits w row.cid) (events ++ [⟨.releaseSlot, .ok ()⟩]) rest') :
    Standing w ((s.effect w now ⟨.releaseSlot, .ok ()⟩).resumed i
      ⟨row, events ++ [⟨.releaseSlot, .ok ()⟩], rest'⟩) now := by
  have hnext := stage_snoc row.cid events ⟨.releaseSlot, .ok ()⟩
  have hst : (stage row.cid events).holds = true := by
    obtain hstage | ⟨told, hstage⟩ := hfits <;> rw [hstage] <;> rfl
  obtain ⟨hzero, honly, hcovers⟩ := h.of_holds hrun hst
  have hslots : s.slots + 1 = 1 := by omega
  obtain hstage | ⟨told, hstage⟩ := hfits
  · rw [hstage] at hnext
    apply standing_resumed
    refine Standing.set_free ⟨row, events ++ [⟨.releaseSlot, .ok ()⟩], rest'⟩ hslots ?_ honly rfl fun l hl hlive => ?_
    · rw [Run.stage, hnext]
      rfl
    · have hl := hcovers l hl hlive
      rw [Run.stage, hstage] at hl
      exact hl.elim
  · rw [hstage] at hnext
    -- The release is the last that the call does.
    have hdone : rest'.result.isSome = true := by
      cases rest' with
      | done x => rfl
      | act a' next' =>
        have hover := hrest.1
        cases a' with
        | acquireSlot =>
          rw [Fits, hnext] at hover
          cases hover
        | publishClaim c =>
          rw [Fits, hnext] at hover
          cases hover.1
        | setLease x =>
          rw [Fits, hnext] at hover
          obtain ⟨t, hover, -⟩ | ⟨t, hover⟩ | ⟨-, hover | ⟨told', hover, -⟩⟩ := hover <;> cases hover
        | releaseSlot =>
          rw [Fits, hnext] at hover
          obtain hover | ⟨told', hover⟩ := hover <;> cases hover
        | _ => exact absurd hnext hover
    have hany : (events ++ [(⟨.releaseSlot, .ok ()⟩ : Event Answer)]).any disagrees = events.any disagrees := by
      rw [List.any_append]
      exact Bool.or_false _
    have hknown (l : Lease) (hl : l ∈ s.leases) (hlive : now < l.till) :
        l.cid = row.cid ∧ (l.till ≤ s.claimedUntil ∨ events.any disagrees = true) := by
      have hl := hcovers l hl hlive
      rw [Run.stage, hstage] at hl
      exact hl.2
    unfold Crew.resumed
    dsimp only
    rw [hdone, hany, Bool.true_and]
    refine Standing.set_free ⟨row, events ++ [⟨.releaseSlot, .ok ()⟩], rest'⟩ ?_ ?_ honly ?_
      fun l hl hlive => ?_
    · split_ifs <;> exact hslots
    · rw [Run.stage, hnext]
      rfl
    · split_ifs <;> rfl
    · split_ifs at hl ⊢ with hd
      · obtain ⟨hl, hne⟩ := List.mem_filter.mp hl
        exact absurd (hknown l hl hlive).1 (of_decide_eq_true hne)
      · exact (hknown l hl hlive).2.resolve_right hd

theorem standing_turn (h : Standing w s now) (hrun : s.runs[i]? = some ⟨row, events, .act a next⟩)
    (hguarded : Guarded (Fits w row.cid) events (.act a next))
    (hcareful : (a.acquires = true → 0 < s.slots → s.claimedUntil ≤ now) ∧
      (a.clears = true → stage row.cid events = .outside → ∀ l ∈ s.leases, l.till ≤ now)) :
    Standing w ((s.effect w now ⟨a, s.answer now world a⟩).resumed i
      ⟨row, events ++ [⟨a, s.answer now world a⟩], next (s.answer now world a)⟩) now := by
  cases a with
  | acquireSlot => exact standing_acquire h hrun hguarded.1 (hcareful.1 rfl) _
  | publishClaim c =>
    obtain ⟨hheld, rfl⟩ := hguarded.1
    exact standing_claim h hrun hheld _ _
  | setLease x => exact standing_stamp h hrun hguarded.1 (fun hx => hcareful.2 (decide_eq_true hx)) _
  | releaseSlot => exact standing_release h hrun hguarded.1 (hguarded.2 _)
  | _ => exact standing_aloof h hrun rfl

end Turns

section Runs

variable {w : Worker}

structure Sound (w : Worker) (s : Crew) (now : ℚ) : Prop where
  standing : Standing w s now
  guarded : ∀ run ∈ s.runs, Guarded (Fits w run.row.cid) run.events run.rest

theorem sound_start (w : Worker) (now : ℚ) : Sound w {} now :=
  ⟨.free rfl (fun _ h => absurd h List.not_mem_nil) fun _ h => absurd h List.not_mem_nil,
    fun _ h => absurd h List.not_mem_nil⟩

theorem resumed_runs (s : Crew) (i : ℕ) (run : Run) : (s.resumed i run).runs = s.runs.set i run := by
  unfold Crew.resumed
  dsimp only
  split_ifs <;> rfl

theorem sound_step {s : Crew} {b : Beat} {now : ℚ} (h : Sound w s now) (hle : now ≤ b.now) (hcareful : s.Careful b) :
    Sound w (s.step w b) b.now := by
  have hstanding := h.standing.later hle
  obtain ⟨now', move⟩ := b
  cases move with
  | start row =>
    constructor
    · cases hstanding with
      | free slots none stamp =>
        refine .free slots ?_ stamp
        intro run hrun
        obtain hrun | hrun := List.mem_append.mp hrun
        · exact none run hrun
        · rw [List.mem_singleton.mp hrun]
          rfl
      | @taken i run slots holder holds only covers =>
        refine .taken slots (List.getElem?_append_left (List.getElem?_eq_some_iff.mp holder).1 |>.trans holder) holds ?_ covers
        intro j other hj hholds
        change (s.runs ++ [_])[j]? = some other at hj
        rw [List.getElem?_append] at hj
        split_ifs at hj
        · exact only j other hj hholds
        · have hother := List.mem_of_getElem? hj
          rw [List.mem_singleton.mp hother] at hholds
          cases hholds
    · intro run hrun
      obtain hrun | hrun := List.mem_append.mp hrun
      · exact h.guarded run hrun
      · rw [List.mem_singleton.mp hrun]
        exact processOne_fits w row
  | turn i world =>
    cases hrun : s.runs[i]? with
    | none =>
      have hstep : s.step w ⟨now', .turn i world⟩ = s := by rw [Crew.step]; dsimp only; rw [hrun]
      rw [hstep]
      exact ⟨hstanding, h.guarded⟩
    | some run =>
      obtain ⟨row, events, rest⟩ := run
      cases rest with
      | done x =>
        have hstep : s.step w ⟨now', .turn i world⟩ = s := by rw [Crew.step]; dsimp only; rw [hrun]
        rw [hstep]
        exact ⟨hstanding, h.guarded⟩
      | act a next =>
        have hcalls : s.calls ⟨now', .turn i world⟩ = some (⟨row, events, .act a next⟩, a) := by
          rw [Crew.calls]
          dsimp only
          rw [hrun]
        have hguarded := h.guarded _ (List.mem_of_getElem? hrun)
        have hstep : s.step w ⟨now', .turn i world⟩ = (s.effect w now' ⟨a, s.answer now' world a⟩).resumed i
            ⟨row, events ++ [⟨a, s.answer now' world a⟩], next (s.answer now' world a)⟩ := by
          rw [Crew.step]
          dsimp only
          rw [hrun]
        rw [hstep]
        refine ⟨standing_turn hstanding hrun hguarded (hcareful _ hcalls), fun run hmem => ?_⟩
        rw [resumed_runs, effect_runs] at hmem
        obtain hmem | rfl := List.mem_or_eq_of_mem_set hmem
        · exact h.guarded run hmem
        · exact hguarded.2 _

theorem oneLease_of_sound {s : Crew} {b : Beat} {now : ℚ} (h : Sound w s now) (hle : now ≤ b.now) : s.OneLease b := by
  rintro ⟨run, a⟩ hcalls cid hcid l hl -
  by_contra hlive
  rw [not_le] at hlive
  obtain ⟨now', move⟩ := b
  cases move with
  | start row => cases hcalls
  | turn i world =>
    rw [Crew.calls] at hcalls
    dsimp only at hcalls
    cases hrun : s.runs[i]? with
    | none =>
      rw [hrun] at hcalls
      cases hcalls
    | some found =>
      obtain ⟨row, events, rest⟩ := found
      cases rest with
      | done x =>
        rw [hrun] at hcalls
        cases hcalls
      | act a next =>
        rw [hrun] at hcalls
        cases hcalls
        have hfits := (h.guarded _ (List.mem_of_getElem? hrun)).1
        have hheld : stage row.cid events = .held := by
          cases a <;> first | exact hfits.1 | cases hcid
        have hst : (stage row.cid events).holds = true := by rw [hheld]; rfl
        have hcovers := ((h.standing.later hle).of_holds hrun hst).2.2 l hl hlive
        rw [Run.stage, hheld] at hcovers
        exact hcovers

end Runs

/-- In a run whose steps are all careful, a claim is sent only while the node holds no live lease on another CID. -/
theorem one_lease (w : Worker) (beats : List Beat) (htimes : (beats.map Beat.now).Pairwise (· ≤ ·))
    (h : Along (Crew.step w) Crew.Careful {} beats) : Along (Crew.step w) Crew.OneLease {} beats := by
  have hall (s : Crew) (now : ℚ) (beats : List Beat) (hsound : Sound w s now) (hle : ∀ b ∈ beats, now ≤ b.now)
      (htimes : (beats.map Beat.now).Pairwise (· ≤ ·)) (h : Along (Crew.step w) Crew.Careful s beats) :
      Along (Crew.step w) Crew.OneLease s beats := by
    induction beats generalizing s now with
    | nil => trivial
    | cons b beats ih =>
      obtain ⟨hfirst, hrest⟩ := List.pairwise_cons.mp htimes
      have hb := hle b List.mem_cons_self
      refine ⟨oneLease_of_sound hsound hb, ih _ b.now (sound_step hsound hb h.1) ?_ hrest h.2⟩
      exact fun b' hb' => hfirst b'.now (List.mem_map_of_mem hb')
  cases beats with
  | nil => trivial
  | cons b beats =>
    refine hall {} b.now (b :: beats) (sound_start w b.now) ?_ htimes h
    intro b' hb'
    obtain rfl | hb' := List.mem_cons.mp hb'
    · exact le_rfl
    · exact (List.pairwise_cons.mp htimes).1 b'.now (List.mem_map_of_mem hb')

section Sample

def judged (verdict : Option Meta) : (a : Action) → Answer a
  | .fetchCid _ codec _ => .ok { ok := true, data := page, codec := codec.getD [], size := some page.length }
  | .classify _ _ _ _ => .ok verdict
  | a => pageAnswers a

def inScope : Meta := ⟨some true, none, txt "physics", txt "bosons", txt "higgs", none, txt "llama"⟩

def going (i : ℕ) (cid : String) (turns : ℕ) (verdict : Option Meta) : List Beat :=
  ⟨1000, .start ⟨txt cid, some (txt "raw"), 0⟩⟩ :: List.replicate turns ⟨1000, .turn i (judged verdict)⟩

def stampede : List Beat :=
  going 0 "f0155000100" 30 none ++ going 1 "f0155000101" 30 (some inScope) ++ going 2 "f0155000102" 20 none

theorem one_lease_alone :
    Along (Crew.step pageWorker) Crew.OneLease {} (going 0 "f0155000100" 30 none) ∧
      ((going 0 "f0155000100" 30 none).foldl (Crew.step pageWorker) {}).leases.length = 1 :=
  ⟨one_lease pageWorker _ (by decide +kernel) (by decide +kernel), by decide +kernel⟩

theorem two_leases : (stampede.map Beat.now).Pairwise (· ≤ ·) ∧ ¬Along (Crew.step pageWorker) Crew.OneLease {} stampede := by
  decide +kernel

end Sample

end ObserverClub.Indexer
