import ObserverClub.AuthLogin
import ObserverClub.AuthRevocation
import ObserverClub.Library.Window

namespace ObserverClub.Auth

open Library Library.Window Python

section Told

def Told.wrongAt : Told → Option ℚ
  | .wrong t => some t
  | .loggedIn => none

def streak (told : List Told) : List ℚ := told.foldl (fun ts e => e.wrongAt.elim [] fun t => ts ++ [t]) []

/-- Between two logins no window holds more than the limit of wrong passwords. -/
def Guarded (told : List Told) : Prop :=
  ∀ before wrongs after, told = before ++ wrongs.map Told.wrong ++ after → Spaced failWindow failLimit wrongs

theorem streak_wrong (told : List Told) (t : ℚ) : streak (told ++ [.wrong t]) = streak told ++ [t] := by
  simp [streak, Told.wrongAt]

theorem streak_loggedIn (told : List Told) : streak (told ++ [.loggedIn]) = [] := by simp [streak, Told.wrongAt]

theorem suffix_streak (before : List Told) (wrongs : List ℚ) :
    wrongs.Sublist (streak (before ++ wrongs.map Told.wrong)) := by
  induction wrongs using List.reverseRecOn with
  | nil => exact List.nil_sublist _
  | append_singleton wrongs t ih =>
    rw [List.map_append, ← List.append_assoc, List.map_singleton, streak_wrong]
    exact ih.append_right [t]

theorem guarded_append {told : List Told} {e : Told} (h : Guarded told)
    (hs : Spaced failWindow failLimit (streak (told ++ [e]))) : Guarded (told ++ [e]) := by
  intro before wrongs after heq
  obtain rfl | ⟨after, x, rfl⟩ := List.eq_nil_or_concat after
  · rw [List.append_nil] at heq
    rw [heq] at hs
    exact hs.sublist (suffix_streak before wrongs)
  · rw [List.concat_eq_append, ← List.append_assoc] at heq
    exact h before wrongs after (List.append_inj_left' heq rfl)

end Told

section Calls

def Action.inside (ip : Text) : Action → Bool
  | .passwordIsSet .login ip' => ip' = ip
  | .verifyPassword .login ip' _ => ip' = ip
  | .recordLoginFailure ip' => ip' = ip
  | .clearLoginFailures ip' => ip' = ip
  | _ => false

def Inside (ip : Text) : Call → Prop
  | .done _ => False
  | .act a _ => a.inside ip = true

/-- An action that no login takes. -/
def Action.plain : Action → Bool
  | .passwordIsSet endpoint _ => endpoint ≠ .login
  | .verifyPassword endpoint _ _ => endpoint ≠ .login
  | .checkLoginRate _ => false
  | .recordLoginFailure _ => false
  | .clearLoginFailures _ => false
  | _ => true

def Bare : Call → Prop
  | .done _ => True
  | .act a next => a.plain = true ∧ ∀ r, Bare (next r)

inductive LoginOf (ip : Text) : Call → Prop
  | ended (status : ℕ) : LoginOf ip (.done status)
  | arrived (password : Text) : LoginOf ip (apiAdminLogin ip password)
  | asking (password : Text) : LoginOf ip (loginAsk ip password)
  | verifying (password : Text) : LoginOf ip (loginVerify ip password)
  | recording : LoginOf ip (loginRecord ip)
  | clearing : LoginOf ip (loginClear ip)

def Known (p : Call) : Prop := Bare p ∨ ∃ ip, LoginOf ip p

theorem loginOf_onAnswer {ip : Text} {next : Bool → Call} (h : ∀ b, LoginOf ip (next b)) (r : Except Error Bool) :
    LoginOf ip (onAnswer next r) := by
  cases r with
  | ok b => exact h b
  | error e => exact .ended 500

theorem loginOf_next {ip : Text} {a : Action} {next : Answer a → Call} (h : LoginOf ip (.act a next))
    (r : Answer a) : LoginOf ip (next r) := by
  cases h with
  | arrived password =>
    apply loginOf_onAnswer
    intro limited
    cases limited with
    | true => exact .ended 429
    | false => exact .asking password
  | asking password =>
    apply loginOf_onAnswer
    intro set
    cases set with
    | true => exact .verifying password
    | false => exact .ended 400
  | verifying password =>
    apply loginOf_onAnswer
    intro right
    cases right with
    | true => exact .clearing
    | false => exact .recording
  | recording => exact loginOf_onAnswer (fun _ => .ended 401) r
  | clearing => exact loginOf_onAnswer (fun _ => .ended 200) r

theorem bare_ask {a : Action} {next : Bool → Call} (ha : a.plain = true) (h : ∀ b, Bare (next b)) :
    Bare (ask a next) := by
  refine ⟨ha, ?_⟩
  intro r
  cases r with
  | ok b => exact h b
  | error e => trivial

theorem bare_changeTo (password : Text) : Bare (changeTo password) := by
  refine ⟨rfl, ?_⟩
  intro r
  match r with
  | .ok _ => trivial
  | .error e => cases e <;> trivial

theorem known_handle (r : Request) : Known (handle r) := by
  cases r with
  | login ip password => exact .inr ⟨ip, .arrived password⟩
  | change ip password current =>
    apply Or.inl
    apply bare_ask rfl
    intro locked
    apply bare_ask rfl
    intro corrupt
    split
    · split
      · trivial
      · apply bare_ask rfl
        intro right
        split
        · exact bare_changeTo password
        · trivial
    · split
      · trivial
      · exact bare_changeTo password
  | clear ip current =>
    have hclear : Bare (ask .clearPassword fun _ => .done 200) := bare_ask rfl fun _ => trivial
    apply Or.inl
    apply bare_ask rfl
    intro set
    split
    · apply bare_ask rfl
      intro right
      split
      · exact hclear
      · apply bare_ask rfl
        intro corrupt
        split
        · exact hclear
        · trivial
    · exact hclear

end Calls

section Throttled

variable (crypto : Crypto) (lib : Hashlib) (ip : Text)

/-- What a step must not do: check a wrong password for a change or a removal, or let a login of the client
in while another one of it is between its rate check and its end. -/
def Careful (t : Office) : Event → Prop
  | .start _ => True
  | .advance i reading => ∀ a next, t.calls[i]? = some (.act a next) →
      (∀ endpoint password, a = .verifyPassword endpoint ip password → endpoint ≠ .login →
        (exec crypto lib a reading t.shared).1 ≠ .ok false) ∧
      (a = .checkLoginRate ip → ∀ p ∈ t.calls, ¬Inside ip p)

def Action.trying : Action → Bool
  | .passwordIsSet .login ip' => ip' = ip
  | .verifyPassword .login ip' _ => ip' = ip
  | _ => false

def Action.recording : Action → Bool
  | .recordLoginFailure ip' => ip' = ip
  | _ => false

def Next (test : Action → Bool) : Call → Prop
  | .done _ => False
  | .act a _ => test a = true

structure Throttled (t : Office) : Prop where
  known : ∀ p ∈ t.calls, Known p
  single : ∀ (i j : ℕ) (p q : Call), t.calls[i]? = some p → t.calls[j]? = some q → Inside ip p → Inside ip q → i = j
  past : ∀ v ∈ streak (t.shared.told ip), v ≤ t.shared.clock
  counted : ∀ now, t.shared.clock ≤ now →
    recent failWindow now (streak (t.shared.told ip)) ≤ recent failWindow now (t.shared.failures ip) ∨
    (∃ p ∈ t.calls, Next (Action.recording ip) p) ∧
      recent failWindow now (streak (t.shared.told ip)) ≤ recent failWindow now (t.shared.failures ip) + 1
  room : (∃ p ∈ t.calls, Next (Action.trying ip) p) → ∀ now, t.shared.clock ≤ now →
    recent failWindow now (streak (t.shared.told ip)) < failLimit
  guarded : Guarded (t.shared.told ip)

theorem opened_throttled (file : Option Stored) (clock : ℚ) : Throttled ip (opened file clock) where
  known := by simp [opened]
  single := by simp [opened]
  past := by simp [opened, streak]
  counted := fun _ _ => .inl (by simp [opened, streak])
  room := by simp [opened]
  guarded := by
    intro before wrongs after h
    have hl := congrArg List.length h
    have : wrongs = [] := by
      rw [← List.length_eq_zero_iff]
      simp [opened] at hl
      omega
    rw [this]
    exact .nil _ _

section Step

variable {crypto lib ip} {password : Text} {t : Office} {i : ℕ} {a : Action} {next : Answer a → Call}
  {reading : Reading}

/-- The office after call `i` has taken its next action. -/
def stepped (crypto : Crypto) (lib : Hashlib) (t : Office) (i : ℕ) (a : Action) (next : Answer a → Call)
    (reading : Reading) : Office :=
  ⟨(exec crypto lib a reading t.shared).2, t.calls.set i (next (exec crypto lib a reading t.shared).1)⟩

theorem clock_exec (a : Action) (reading : Reading) (d : Desk) :
    (exec crypto lib a reading d).2.clock = d.clock + reading.elapsed := by
  cases a <;> simp only [exec, act]
  case verifyPassword => split <;> rfl
  case setPassword => 
    split
    · split <;> rfl
    · rfl
  case clearPassword => split <;> rfl
  all_goals rfl

variable (crypto lib) in
theorem clock_le (a : Action) (reading : Reading) (d : Desk) : d.clock ≤ (exec crypto lib a reading d).2.clock := by
  rw [clock_exec]
  exact le_add_of_nonneg_right reading.elapsed_nonneg

theorem getElem?_stepped {j : ℕ} {p : Call} (h : (stepped crypto lib t i a next reading).calls[j]? = some p) :
    j = i ∧ p = next (exec crypto lib a reading t.shared).1 ∨ j ≠ i ∧ t.calls[j]? = some p := by
  by_cases hj : j = i
  · subst hj
    rw [stepped, List.getElem?_set_self'] at h
    cases hc : t.calls[j]? with
    | none => simp [hc] at h
    | some q => exact .inl ⟨rfl, by simpa [hc, eq_comm] using h⟩
  · rw [stepped, List.getElem?_set_ne (Ne.symm hj)] at h
    exact .inr ⟨hj, h⟩

theorem mem_stepped {p : Call} (h : p ∈ (stepped crypto lib t i a next reading).calls) :
    p = next (exec crypto lib a reading t.shared).1 ∨ ∃ j ≠ i, t.calls[j]? = some p := by
  obtain ⟨j, hj⟩ := List.mem_iff_getElem?.mp h
  obtain ⟨-, hp⟩ | ⟨hne, hp⟩ := getElem?_stepped hj
  · exact .inl hp
  · exact .inr ⟨j, hne, hp⟩

theorem self_mem_stepped (hi : t.calls[i]? = some (.act a next)) :
    next (exec crypto lib a reading t.shared).1 ∈ (stepped crypto lib t i a next reading).calls := by
  have hlt := (List.getElem?_eq_some_iff.mp hi).1
  exact List.mem_set hlt _

theorem other_mem_stepped {j : ℕ} {p : Call} (hj : j ≠ i) (hp : t.calls[j]? = some p) :
    p ∈ (stepped crypto lib t i a next reading).calls := by
  apply List.mem_of_getElem? (i := j)
  rw [stepped, List.getElem?_set_ne (Ne.symm hj)]
  exact hp

theorem single_stepped (h : Throttled ip t) (hi : t.calls[i]? = some (.act a next))
    (hin : Inside ip (next (exec crypto lib a reading t.shared).1) →
      Inside ip (.act a next) ∨ ∀ p ∈ t.calls, ¬Inside ip p) :
    ∀ (j k : ℕ) (p q : Call), (stepped crypto lib t i a next reading).calls[j]? = some p →
      (stepped crypto lib t i a next reading).calls[k]? = some q → Inside ip p → Inside ip q → j = k := by
  -- Two calls inside after the step were inside before it, or the one that has stepped is alone.
  have hother : ∀ {j : ℕ} {p : Call}, j ≠ i → t.calls[j]? = some p → Inside ip p →
      ¬Inside ip (next (exec crypto lib a reading t.shared).1) := by
    intro j p hj hp hpin hnew
    obtain hold | hnone := hin hnew
    · exact hj (h.single j i p _ hp hi hpin hold)
    · exact hnone p (List.mem_of_getElem? hp) hpin
  intro j k p q hp hq hpin hqin
  obtain ⟨hj, hp'⟩ | ⟨hj, hp'⟩ := getElem?_stepped hp
  · obtain ⟨hk, hq'⟩ | ⟨hk, hq'⟩ := getElem?_stepped hq
    · rw [hj, hk]
    · exact absurd (hp' ▸ hpin) (hother hk hq' hqin)
  · obtain ⟨hk, hq'⟩ | ⟨hk, hq'⟩ := getElem?_stepped hq
    · exact absurd (hq' ▸ hqin) (hother hj hp' hpin)
    · exact h.single j k p q hp' hq' hpin hqin

theorem next_inside {test : Action → Bool} (h : ∀ a, test a = true → a.inside ip = true) {p : Call}
    (hp : Next test p) : Inside ip p := by
  cases p with
  | done x => exact hp
  | act a next => exact h a hp

theorem trying_inside : ∀ a : Action, a.trying ip = true → a.inside ip = true := by
  intro a h
  cases a with
  | passwordIsSet endpoint ip' => cases endpoint <;> simp_all [Action.trying, Action.inside]
  | verifyPassword endpoint ip' pw => cases endpoint <;> simp_all [Action.trying, Action.inside]
  | _ => simp [Action.trying] at h

theorem recording_inside : ∀ a : Action, a.recording ip = true → a.inside ip = true := by
  intro a h
  cases a with
  | recordLoginFailure ip' => simpa [Action.recording, Action.inside] using h
  | _ => simp [Action.recording] at h

theorem throttled_frame (h : Throttled ip t) (hi : t.calls[i]? = some (.act a next))
    (hf : (exec crypto lib a reading t.shared).2.failures ip = t.shared.failures ip)
    (ht : (exec crypto lib a reading t.shared).2.told ip = t.shared.told ip)
    (hk : Known (next (exec crypto lib a reading t.shared).1))
    (hin : Inside ip (next (exec crypto lib a reading t.shared).1) → Inside ip (.act a next))
    (htry : Next (Action.trying ip) (next (exec crypto lib a reading t.shared).1) →
      Next (Action.trying ip) (.act a next))
    (hrec : ¬Next (Action.recording ip) (.act a next)) : Throttled ip (stepped crypto lib t i a next reading) := by
  have hclock := clock_le crypto lib a reading t.shared
  constructor
  · intro p hp
    obtain rfl | ⟨j, -, hp⟩ := mem_stepped hp
    · exact hk
    · exact h.known p (List.mem_of_getElem? hp)
  · exact single_stepped h hi fun hnew => .inl (hin hnew)
  · intro v hv
    rw [stepped, ht] at hv
    exact (h.past v hv).trans hclock
  · intro now hnow
    rw [stepped, ht, hf]
    obtain hc | ⟨⟨p, hp, hpr⟩, hc⟩ := h.counted now (hclock.trans hnow)
    · exact .inl hc
    · obtain ⟨j, hj⟩ := List.mem_iff_getElem?.mp hp
      have hji : j ≠ i := by
        rintro rfl
        cases hi.symm.trans hj
        exact hrec hpr
      exact .inr ⟨⟨p, other_mem_stepped hji hj, hpr⟩, hc⟩
  · rintro ⟨p, hp, hpt⟩ now hnow
    rw [stepped, ht]
    refine h.room ?_ now (hclock.trans hnow)
    obtain rfl | ⟨j, -, hp⟩ := mem_stepped hp
    · exact ⟨_, List.mem_of_getElem? hi, htry hpt⟩
    · exact ⟨p, List.mem_of_getElem? hp, hpt⟩
  · rw [stepped, ht]
    exact h.guarded

theorem alone_inside (h : Throttled ip t) (hi : t.calls[i]? = some (.act a next)) (ha : a.inside ip = true)
    {j : ℕ} {p : Call} (hj : j ≠ i) (hp : t.calls[j]? = some p) : ¬Inside ip p :=
  fun hpin => hj (h.single j i p _ hp hi hpin ha)

theorem counted_of_inside (h : Throttled ip t) (hi : t.calls[i]? = some (.act a next)) (ha : a.inside ip = true)
    (hrec : a.recording ip = false) {now : ℚ} (hnow : t.shared.clock ≤ now) :
    recent failWindow now (streak (t.shared.told ip)) ≤ recent failWindow now (t.shared.failures ip) := by
  obtain hc | ⟨⟨p, hp, hpr⟩, -⟩ := h.counted now hnow
  · exact hc
  · obtain ⟨j, hj⟩ := List.mem_iff_getElem?.mp hp
    by_cases hji : j = i
    · subst hji
      cases hi.symm.trans hj
      simp [Next, hrec] at hpr
    · exact absurd (next_inside recording_inside hpr) (alone_inside h hi ha hji hj)

theorem throttled_check (h : Throttled ip t) (hi : t.calls[i]? = some (apiAdminLogin ip password))
    (hc : ∀ p ∈ t.calls, ¬Inside ip p) :
    Throttled ip (stepped crypto lib t i (.checkLoginRate ip)
      (onAnswer fun limited => if limited then .done 429 else loginAsk ip password) reading) := by
  have hclock := clock_le crypto lib (.checkLoginRate ip) reading t.shared
  have hnone : ¬∃ p ∈ t.calls, Next (Action.recording ip) p := by
    rintro ⟨p, hp, hpr⟩
    exact hc p hp (next_inside recording_inside hpr)
  have hf : (exec crypto lib (.checkLoginRate ip) reading t.shared).2.failures ip =
      (t.shared.failures ip).filter (fun s => t.shared.clock + reading.elapsed - failWindow < s) := by
    simp [exec, act, sub_lt_comm]
  have hcount : ∀ now, (exec crypto lib (.checkLoginRate ip) reading t.shared).2.clock ≤ now →
      recent failWindow now (streak (t.shared.told ip)) ≤ recent failWindow now
        ((exec crypto lib (.checkLoginRate ip) reading t.shared).2.failures ip) := by
    intro now hnow
    rw [hf, recent_filter (by rw [clock_exec] at hnow; exact hnow)]
    obtain hc | ⟨hr, -⟩ := h.counted now (hclock.trans hnow)
    · exact hc
    · exact absurd hr hnone
  have hans : (exec crypto lib (.checkLoginRate ip) reading t.shared).1 = .ok (decide (failLimit ≤
      ((exec crypto lib (.checkLoginRate ip) reading t.shared).2.failures ip).length)) := by
    simp [exec, act]
  generalize hl : decide (failLimit ≤
    ((exec crypto lib (.checkLoginRate ip) reading t.shared).2.failures ip).length) = limited at hans
  constructor
  · intro p hp
    obtain rfl | ⟨j, -, hp⟩ := mem_stepped hp
    · rw [hans]
      cases limited with
      | true => exact .inl trivial
      | false => exact .inr ⟨ip, .asking password⟩
    · exact h.known p (List.mem_of_getElem? hp)
  · exact single_stepped h hi fun _ => .inr hc
  · exact fun v hv => (h.past v hv).trans hclock
  · exact fun now hnow => .inl (hcount now hnow)
  · rintro ⟨p, hp, hpt⟩ now hnow
    obtain rfl | ⟨j, -, hp⟩ := mem_stepped hp
    · rw [hans] at hpt
      cases limited with
      | true => exact hpt.elim
      | false =>
        refine (hcount now hnow).trans_lt ((recent_le_length _ _ _).trans_lt ?_)
        simpa using hl
    · exact absurd (next_inside trying_inside hpt) (hc p (List.mem_of_getElem? hp))
  · exact h.guarded

theorem spaced_streak {told : List Told} (h : Guarded told) : Spaced failWindow failLimit (streak told) := by
  have hsplit : ∃ before, told = before ++ (streak told).map Told.wrong := by
    induction told using List.reverseRecOn with
    | nil => exact ⟨[], rfl⟩
    | append_singleton told e ih =>
      cases e with
      | loggedIn => exact ⟨told ++ [.loggedIn], by simp [streak_loggedIn]⟩
      | wrong t =>
        obtain ⟨before, hb⟩ := ih fun b ws after heq => h b ws (after ++ [.wrong t]) (by rw [heq]; simp)
        refine ⟨before, ?_⟩
        rw [streak_wrong, List.map_append, ← List.append_assoc, ← hb]
        rfl
  obtain ⟨before, hb⟩ := hsplit
  exact h before _ [] (by rw [List.append_nil, ← hb])

theorem throttled_wrong (h : Throttled ip t) (hi : t.calls[i]? = some (loginVerify ip password))
    (hv : verifyPassword lib password t.shared.file = .ok false) :
    Throttled ip (stepped crypto lib t i (.verifyPassword .login ip password)
      (onAnswer fun right => if right then loginClear ip else loginRecord ip) reading) := by
  have hclock := clock_le crypto lib (.verifyPassword .login ip password) reading t.shared
  have hexec : exec crypto lib (.verifyPassword .login ip password) reading t.shared = (.ok false,
      { t.shared with clock := t.shared.clock + reading.elapsed }.tell ip
        (.wrong (t.shared.clock + reading.elapsed))) := by
    simp [exec, act, hv]
  have htold : (exec crypto lib (.verifyPassword .login ip password) reading t.shared).2.told ip =
      t.shared.told ip ++ [.wrong (t.shared.clock + reading.elapsed)] := by
    simp [hexec, Desk.tell]
  have hans : (onAnswer fun right => if right then loginClear ip else loginRecord ip)
      (exec crypto lib (.verifyPassword .login ip password) reading t.shared).1 = loginRecord ip := by
    rw [hexec]
    rfl
  have hin : (Action.verifyPassword .login ip password).inside ip = true := by simp [Action.inside]
  have hspaced : Spaced failWindow failLimit
      (streak (t.shared.told ip) ++ [t.shared.clock + reading.elapsed]) := by
    apply (spaced_streak h.guarded).append
    refine h.room ⟨_, List.mem_of_getElem? hi, ?_⟩ _ (le_add_of_nonneg_right reading.elapsed_nonneg)
    simp [loginVerify, ask, Next, Action.trying]
  constructor
  · intro p hp
    obtain rfl | ⟨j, -, hp⟩ := mem_stepped hp
    · rw [hans]
      exact .inr ⟨ip, .recording⟩
    · exact h.known p (List.mem_of_getElem? hp)
  · exact single_stepped h hi fun _ => .inl hin
  · intro v hv
    rw [stepped, htold, streak_wrong] at hv
    obtain hv | hv := List.mem_append.mp hv
    · exact (h.past v hv).trans hclock
    · rw [List.mem_singleton.mp hv, stepped, clock_exec]
  · intro now hnow
    refine .inr ⟨⟨_, self_mem_stepped hi, ?_⟩, ?_⟩
    · rw [hans]
      simp [loginRecord, ask, Next, Action.recording]
    · rw [stepped, htold, streak_wrong, recent_append]
      apply Nat.add_le_add
      · rw [hexec]
        exact counted_of_inside h hi hin rfl (hclock.trans hnow)
      · exact recent_le_length _ _ _
  · rintro ⟨p, hp, hpt⟩ now hnow
    obtain rfl | ⟨j, hj, hp⟩ := mem_stepped hp
    · rw [hans] at hpt
      simp [loginRecord, ask, Next, Action.trying] at hpt
    · exact absurd (next_inside trying_inside hpt) (alone_inside h hi hin hj hp)
  · rw [stepped, htold]
    apply guarded_append h.guarded
    rw [streak_wrong]
    exact hspaced

theorem throttled_record (h : Throttled ip t) (hi : t.calls[i]? = some (loginRecord ip)) :
    Throttled ip (stepped crypto lib t i (.recordLoginFailure ip) (onAnswer fun _ => .done 401) reading) := by
  have hclock := clock_le crypto lib (.recordLoginFailure ip) reading t.shared
  have hin : (Action.recordLoginFailure ip).inside ip = true := by simp [Action.inside]
  constructor
  · intro p hp
    obtain rfl | ⟨j, -, hp⟩ := mem_stepped hp
    · exact .inl trivial
    · exact h.known p (List.mem_of_getElem? hp)
  · exact single_stepped h hi fun _ => .inl hin
  · exact fun v hv => (h.past v hv).trans hclock
  · intro now hnow
    have hf : (exec crypto lib (.recordLoginFailure ip) reading t.shared).2.failures ip =
        t.shared.failures ip ++ [t.shared.clock + reading.elapsed] := by simp [exec, act]
    refine .inl ?_
    change recent failWindow now (streak (t.shared.told ip)) ≤ recent failWindow now
      ((exec crypto lib (.recordLoginFailure ip) reading t.shared).2.failures ip)
    rw [hf, recent_append]
    by_cases hold : now - failWindow < t.shared.clock + reading.elapsed
    · have hone : recent failWindow now [t.shared.clock + reading.elapsed] = 1 := by simp [recent, hold]
      rw [hone]
      obtain hc | ⟨-, hc⟩ := h.counted now (hclock.trans hnow)
      · omega
      · exact hc
    · have hzero : recent failWindow now (streak (t.shared.told ip)) = 0 := by
        rw [recent, List.countP_eq_zero]
        intro v hv
        simp only [decide_eq_true_eq, not_lt]
        exact ((h.past v hv).trans (le_add_of_nonneg_right reading.elapsed_nonneg)).trans (not_lt.mp hold)
      rw [hzero]
      exact Nat.zero_le _
  · rintro ⟨p, hp, hpt⟩ now hnow
    obtain rfl | ⟨j, hj, hp⟩ := mem_stepped hp
    · exact hpt.elim
    · exact absurd (next_inside trying_inside hpt) (alone_inside h hi hin hj hp)
  · exact h.guarded

theorem throttled_clear (h : Throttled ip t) (hi : t.calls[i]? = some (loginClear ip)) :
    Throttled ip (stepped crypto lib t i (.clearLoginFailures ip) (onAnswer fun _ => .done 200) reading) := by
  have htold : (exec crypto lib (.clearLoginFailures ip) reading t.shared).2.told ip =
      t.shared.told ip ++ [.loggedIn] := by simp [exec, act, Desk.tell]
  have hin : (Action.clearLoginFailures ip).inside ip = true := by simp [Action.inside]
  constructor
  · intro p hp
    obtain rfl | ⟨j, -, hp⟩ := mem_stepped hp
    · exact .inl trivial
    · exact h.known p (List.mem_of_getElem? hp)
  · exact single_stepped h hi fun _ => .inl hin
  · intro v hv
    rw [stepped, htold, streak_loggedIn] at hv
    cases hv
  · intro now _
    rw [stepped, htold, streak_loggedIn]
    exact .inl (Nat.zero_le _)
  · intro _ now _
    rw [stepped, htold, streak_loggedIn]
    exact Nat.zero_lt_succ _
  · rw [stepped, htold]
    apply guarded_append h.guarded
    rw [streak_loggedIn]
    exact .nil _ _

theorem plain_not_inside {a : Action} (h : a.plain = true) : a.inside ip = false := by
  cases a with
  | passwordIsSet endpoint ip' => cases endpoint <;> simp_all [Action.plain, Action.inside]
  | verifyPassword endpoint ip' pw => cases endpoint <;> simp_all [Action.plain, Action.inside]
  | _ => simp_all [Action.plain, Action.inside]

theorem bare_not_inside {p : Call} (h : Bare p) : ¬Inside ip p := by
  cases p with
  | done x => exact id
  | act a next =>
    rw [Inside, plain_not_inside h.1]
    simp

theorem not_inside_handle (r : Request) : ¬Inside ip (handle r) := by
  cases r with
  | login ip' password => simp [handle, apiAdminLogin, ask, Inside, Action.inside]
  | change ip' password current => simp [handle, apiAdminPassword, ask, Inside, Action.inside]
  | clear ip' current => simp [handle, apiAdminPasswordClear, ask, Inside, Action.inside]

theorem throttled_start (h : Throttled ip t) (r : Request) : Throttled ip ⟨t.shared, t.calls ++ [handle r]⟩ := by
  have hold : ∀ {j : ℕ} {p : Call}, (t.calls ++ [handle r])[j]? = some p → Inside ip p → t.calls[j]? = some p := by
    intro j p hp hin
    rw [List.getElem?_append] at hp
    split at hp
    · exact hp
    · rw [List.mem_singleton.mp (List.mem_of_getElem? hp)] at hin
      exact absurd hin (not_inside_handle r)
  constructor
  · intro p hp
    obtain hp | hp := List.mem_append.mp hp
    · exact h.known p hp
    · rw [List.mem_singleton.mp hp]
      exact known_handle r
  · intro j k p q hp hq hpin hqin
    exact h.single j k p q (hold hp hpin) (hold hq hqin) hpin hqin
  · exact h.past
  · intro now hnow
    obtain hc | ⟨⟨p, hp, hpr⟩, hc⟩ := h.counted now hnow
    · exact .inl hc
    · exact .inr ⟨⟨p, List.mem_append_left _ hp, hpr⟩, hc⟩
  · rintro ⟨p, hp, hpt⟩
    obtain hp | hp := List.mem_append.mp hp
    · exact h.room ⟨p, hp, hpt⟩
    · rw [List.mem_singleton.mp hp] at hpt
      exact absurd (next_inside trying_inside hpt) (not_inside_handle r)
  · exact h.guarded

variable (crypto lib) in
theorem exec_plain (ha : a.plain = true)
    (hc : ∀ endpoint password, a = .verifyPassword endpoint ip password → endpoint ≠ .login →
      (exec crypto lib a reading t.shared).1 ≠ .ok false) :
    (exec crypto lib a reading t.shared).2.failures ip = t.shared.failures ip ∧
      (exec crypto lib a reading t.shared).2.told ip = t.shared.told ip := by
  cases a with
  | verifyPassword endpoint ip' password =>
    have hne : endpoint ≠ .login := by simpa [Action.plain] using ha
    simp only [exec, act] at hc ⊢
    split
    next hv =>
      by_cases hip : ip' = ip
      · subst hip
        have := hc endpoint password rfl hne
        rw [hv] at this
        exact absurd rfl this
      · exact ⟨rfl, Function.update_of_ne (Ne.symm hip) _ _⟩
    next => exact ⟨rfl, rfl⟩
  | setPassword password =>
    simp only [exec, act]
    split
    · split <;> exact ⟨rfl, rfl⟩
    · exact ⟨rfl, rfl⟩
  | clearPassword =>
    simp only [exec, act]
    split <;> exact ⟨rfl, rfl⟩
  | passwordIsSet _ _ => exact ⟨rfl, rfl⟩
  | isCorrupt => exact ⟨rfl, rfl⟩
  | checkLoginRate _ => simp [Action.plain] at ha
  | recordLoginFailure _ => simp [Action.plain] at ha
  | clearLoginFailures _ => simp [Action.plain] at ha

theorem throttled_outside (h : Throttled ip t) (hi : t.calls[i]? = some (.act a next))
    (ha : a.inside ip = false)
    (hf : (exec crypto lib a reading t.shared).2.failures ip = t.shared.failures ip)
    (ht : (exec crypto lib a reading t.shared).2.told ip = t.shared.told ip)
    (hk : Known (next (exec crypto lib a reading t.shared).1))
    (hout : ¬Inside ip (next (exec crypto lib a reading t.shared).1)) :
    Throttled ip (stepped crypto lib t i a next reading) := by
  refine throttled_frame h hi hf ht hk (fun hin => absurd hin hout) ?_ ?_
  · intro htry
    exact absurd (next_inside trying_inside htry) hout
  · intro hrec
    have := recording_inside a hrec
    rw [ha] at this
    cases this

theorem throttled_asking (h : Throttled ip t) (hi : t.calls[i]? = some (loginAsk ip password)) :
    Throttled ip (stepped crypto lib t i (.passwordIsSet .login ip)
      (onAnswer fun set => if set then loginVerify ip password else .done 400) reading) := by
  have htry : (Action.passwordIsSet .login ip).trying ip = true := by simp [Action.trying]
  refine throttled_frame h hi rfl rfl ?_ (fun _ => trying_inside _ htry) (fun _ => htry) (by simp [Next, Action.recording])
  cases (exec crypto lib (.passwordIsSet .login ip) reading t.shared).1 with
  | error e => exact .inl trivial
  | ok set =>
    cases set with
    | true => exact .inr ⟨ip, .verifying password⟩
    | false => exact .inl trivial

theorem throttled_right (h : Throttled ip t) (hi : t.calls[i]? = some (loginVerify ip password))
    (hv : verifyPassword lib password t.shared.file ≠ .ok false) :
    Throttled ip (stepped crypto lib t i (.verifyPassword .login ip password)
      (onAnswer fun right => if right then loginClear ip else loginRecord ip) reading) := by
  have htry : (Action.verifyPassword .login ip password).trying ip = true := by simp [Action.trying]
  have hexec : exec crypto lib (.verifyPassword .login ip password) reading t.shared =
      (verifyPassword lib password t.shared.file, { t.shared with clock := t.shared.clock + reading.elapsed }) := by
    simp only [exec, act]
  refine throttled_frame h hi (by rw [hexec]) (by rw [hexec]) ?_ (fun _ => trying_inside _ htry) (fun _ => htry)
    (by simp [Next, Action.recording])
  rw [hexec]
  cases hr : verifyPassword lib password t.shared.file with
  | error e => exact .inl trivial
  | ok right =>
    cases right with
    | true => exact .inr ⟨ip, .clearing⟩
    | false => exact absurd hr hv

theorem loginOf_not_inside {ip' : Text} (hne : ip' ≠ ip) {p : Call} (h : LoginOf ip' p) : ¬Inside ip p := by
  cases h with
  | ended status => exact id
  | arrived password => simp [apiAdminLogin, ask, Inside, Action.inside]
  | asking password => simpa [loginAsk, ask, Inside, Action.inside] using hne
  | verifying password => simpa [loginVerify, ask, Inside, Action.inside] using hne
  | recording => simpa [loginRecord, ask, Inside, Action.inside] using hne
  | clearing => simpa [loginClear, ask, Inside, Action.inside] using hne

variable (crypto lib reading) in
theorem exec_login {ip' : Text} (hne : ip' ≠ ip) (h : LoginOf ip' (.act a next)) (d : Desk) :
    (exec crypto lib a reading d).2.failures ip = d.failures ip ∧
      (exec crypto lib a reading d).2.told ip = d.told ip := by
  cases h with
  | arrived password => exact ⟨Function.update_of_ne (Ne.symm hne) _ _, rfl⟩
  | asking password => exact ⟨rfl, rfl⟩
  | verifying password =>
    simp only [exec, act]
    split
    next => exact ⟨rfl, Function.update_of_ne (Ne.symm hne) _ _⟩
    next => exact ⟨rfl, rfl⟩
  | recording => exact ⟨Function.update_of_ne (Ne.symm hne) _ _, rfl⟩
  | clearing => exact ⟨Function.update_of_ne (Ne.symm hne) _ _, Function.update_of_ne (Ne.symm hne) _ _⟩

theorem throttled_stepped (h : Throttled ip t) (hi : t.calls[i]? = some (.act a next))
    (hc : Careful crypto lib ip t (.advance i reading)) : Throttled ip (stepped crypto lib t i a next reading) := by
  obtain ⟨hbare, hcheck⟩ := hc a next hi
  obtain hk | ⟨ip', hk⟩ := h.known _ (List.mem_of_getElem? hi)
  · obtain ⟨hf, ht⟩ := exec_plain crypto lib hk.1 hbare
    exact throttled_outside h hi (plain_not_inside hk.1) hf ht (.inl (hk.2 _)) (bare_not_inside (hk.2 _))
  by_cases hip : ip' = ip
  · subst hip
    cases hk with
    | arrived password => exact throttled_check h hi (hcheck rfl)
    | asking password => exact throttled_asking h hi
    | verifying password =>
      by_cases hv : verifyPassword lib password t.shared.file = .ok false
      · exact throttled_wrong h hi hv
      · exact throttled_right h hi hv
    | recording => exact throttled_record h hi
    | clearing => exact throttled_clear h hi
  · obtain ⟨hf, ht⟩ := exec_login crypto lib reading hip hk t.shared
    have hout := loginOf_not_inside hip hk
    refine throttled_outside h hi ?_ hf ht (.inr ⟨ip', loginOf_next hk _⟩) (loginOf_not_inside hip (loginOf_next hk _))
    simpa [Inside] using hout

end Step

theorem step_throttled (t : Office) (e : Event) (h : Throttled ip t) (hc : Careful crypto lib ip t e) :
    Throttled ip (officeStep crypto lib t e) := by
  obtain ⟨c, rfl, he⟩ | ⟨i, reading, a, next, rfl, hi, he⟩ | he :=
    Threads.step_cases handle (exec crypto lib) t e
  · rw [officeStep, he]
    exact throttled_start h c
  · rw [officeStep, he]
    exact throttled_stepped h hi hc
  · rw [officeStep, he]
    exact h

theorem guessing_bounded (file : Option Stored) (clock : ℚ) (events : List Event)
    (hc : Along (officeStep crypto lib) (Careful crypto lib ip) (opened file clock) events) :
    Guarded ((Library.run (officeStep crypto lib) (opened file clock) events).shared.told ip) :=
  (run_invariant (step_throttled crypto lib ip) (opened_throttled ip file clock) hc).guarded

end Throttled

section Sample

def sampleLib : Hashlib where
  scrypt := fun raw salt _ _ _ _ => .ok (pad32 (raw ++ salt))
  pbkdf2Hmac := fun raw salt _ _ => .ok (pad32 (raw ++ salt))

def client : Text := txt "203.0.113.9"

def soon : Reading := ⟨1, zero_le_one, sampleRandom 16, true⟩

def round (n : ℕ) : List Event := (List.range n).map fun i => .advance i soon

/-- One request after another, each run to its end. -/
def served (rs : List Request) : List Event :=
  rs.zipIdx.flatMap fun r => .start r.1 :: List.replicate 4 (.advance r.2 soon)

/-- Every login checks its rate while no other call is under way, and nothing but logins checks passwords. -/
def quiet (t : Office) : Event → Bool
  | .start _ => true
  | .advance i _ =>
    match t.calls[i]? with
    | some (.act (.verifyPassword endpoint _ _) _) => endpoint = .login
    | some (.act (.checkLoginRate _) _) => t.calls.all fun p =>
        match p with
        | .act (.checkLoginRate _) _ => true
        | .act _ _ => false
        | .done _ => true
    | _ => true

theorem quiet_careful (crypto : Crypto) (lib : Hashlib) (ip : Text) (t : Office) (e : Event) (h : quiet t e = true) :
    Careful crypto lib ip t e := by
  cases e with
  | start r => trivial
  | advance i reading =>
    intro a next hi
    simp only [quiet, hi] at h
    constructor
    · rintro endpoint password rfl hne
      exact absurd (by simpa using h) hne
    · rintro rfl p hp hin
      have := List.all_eq_true.mp h p hp
      cases p with
      | done x => exact hin
      | act b k => cases b <;> simp_all [Inside, Action.inside]

theorem guessing_bounded_login : Along (officeStep sampleCrypto sampleLib) (Careful sampleCrypto sampleLib client)
      (opened locked.file 0) (served (List.replicate 7 (.login client (txt "guess")))) ∧
    Guarded ((Library.run (officeStep sampleCrypto sampleLib) (opened locked.file 0)
      (served (List.replicate 7 (.login client (txt "guess"))))).shared.told client) := by
  have hc : Along (officeStep sampleCrypto sampleLib) (Careful sampleCrypto sampleLib client)
      (opened locked.file 0) (served (List.replicate 7 (.login client (txt "guess")))) :=
    along_mono (P := fun t e => quiet t e = true) (quiet_careful sampleCrypto sampleLib client) (by decide +kernel)
  exact ⟨hc, guessing_bounded sampleCrypto sampleLib client _ _ _ hc⟩

theorem guessing_unbounded :
    ¬Guarded ((Library.run (officeStep sampleCrypto sampleLib) (opened locked.file 0)
      (served (List.replicate 6 (.change client (txt "new") (txt "guess"))))).shared.told client) ∧
    ¬Guarded ((Library.run (officeStep sampleCrypto sampleLib) (opened locked.file 0)
      (List.replicate 6 (.start (.login client (txt "guess"))) ++ round 6 ++ round 6 ++ round 6)).shared.told client) := by
  constructor
  · intro h
    have := spaced_streak h 0
    revert this
    decide +kernel
  · intro h
    have := spaced_streak h 0
    revert this
    decide +kernel

end Sample

end ObserverClub.Auth
