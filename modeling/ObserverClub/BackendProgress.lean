import ObserverClub.BackendPool

/-!
Every call of `classify` ends: what each step brings it closer to, and why never all of them wait.
-/

namespace ObserverClub.Classify

open Library Python Catalog

section Progress

/-- How far a call is from its end, the providers that it has not tried yet apart. -/
def Stage.rank : Stage → ℕ
  | .choosing => 1
  | .waiting _ => 39
  | .entered _ => 38
  | .naming _ left => 4 * (3 * left.later.length + left.forms) + 5
  | .pacing _ left => 4 * (3 * left.later.length + left.forms) + 4
  | .sleeping _ left _ => 4 * (3 * left.later.length + left.forms) + 3
  | .asking _ left => 4 * (3 * left.later.length + left.forms) + 2
  | .done _ => 0

def Job.rank (ids : List Text) (job : Job) : ℕ := 39 * (ids.filter (· ∉ job.tried)).length + job.stage.rank

def Pool.rank (ids : List Text) (p : Pool) : ℕ := (p.jobs.map (Job.rank ids)).sum

def Stage.Asleep (now : ℚ) : Stage → Prop
  | .sleeping _ _ wake => now < wake
  | _ => False

theorem rank_failed {b : Backend} {h : Host} {left : Left} {now : ℚ} {code : ℕ} {retryAfter : Option Binary64} {n : ℕ}
    (hn : 4 * (3 * left.later.length) + 2 ≤ n) : (failed b h left now code retryAfter).2.rank < n := by
  unfold failed
  split_ifs
  · cases hl : left.later with
    | nil =>
      show 1 < n
      omega
    | cons chars later =>
      rw [hl, List.length_cons] at hn
      show 4 * (3 * later.length + 2) + 5 < n
      omega
  all_goals
    show 1 < n
    omega

variable (o : Observer) (depth : ℕ) (maxChars : ℤ)

theorem rank_inside {h : Host} {r : Reading} {st : Stage} {b : Backend} (hholds : st.holds = some b)
    (hawake : ¬st.Asleep r.now) : (inside o depth maxChars h r st).2.rank < st.rank := by
  cases st with
  | choosing => cases hholds
  | waiting b' => cases hholds
  | done r' => cases hholds
  | entered b' =>
    simp only [inside]
    split_ifs
    · exact (by decide : 1 < 38)
    · exact (by decide : 37 < 38)
  | naming b' left =>
    simp only [inside]
    split_ifs
    · exact Nat.lt_succ_self _
    · exact Nat.lt_succ_self _
    · cases r.named with
      | ok name => exact Nat.lt_succ_self _
      | status code retryAfter => exact rank_failed (by simp only [Stage.rank]; omega)
      | lost =>
        show 1 < 4 * (3 * left.later.length + left.forms) + 5
        omega
      | broken =>
        show 0 < 4 * (3 * left.later.length + left.forms) + 5
        omega
  | pacing b' left =>
    simp only [inside]
    split_ifs
    · show 1 < 4 * (3 * left.later.length + left.forms) + 4
      omega
    · exact Nat.lt_succ_self _
    · show 4 * (3 * left.later.length + left.forms) + 2 < 4 * (3 * left.later.length + left.forms) + 4
      omega
  | sleeping b' left wake =>
    simp only [inside]
    rw [if_pos (not_lt.mp hawake)]
    exact Nat.lt_succ_self _
  | asking b' left =>
    have hleaves (n : ℕ) (hn : n ≤ 1) : n < (Stage.asking b' left).rank := by
      simp only [Stage.rank]
      omega
    simp only [inside]
    cases r.reply with
    | ok message =>
      dsimp only
      split
      · exact hleaves 0 (Nat.zero_le 1)
      · exact hleaves 1 le_rfl
      · exact hleaves 0 (Nat.zero_le 1)
    | status code retryAfter =>
      dsimp only
      split_ifs with hagain
      · simp only [Stage.rank]
        omega
      · exact rank_failed (by simp only [Stage.rank]; omega)
    | lost => exact hleaves 1 le_rfl
    | broken => exact hleaves 0 (Nat.zero_le 1)

theorem inside_asleep {h : Host} {r : Reading} {st : Stage} (hasleep : st.Asleep r.now) :
    inside o depth maxChars h r st = (h, st) := by
  cases st with
  | sleeping b left wake =>
    simp only [inside]
    rw [if_neg (not_le.mpr hasleep)]
  | _ => exact hasleep.elim

variable {p : Pool} {ids : List Text}

theorem rank_set {i : ℕ} {job job' : Job} {jobs : List Job} (hi : jobs[i]? = some job) :
    ((jobs.set i job').map (Job.rank ids)).sum + job.rank ids = (jobs.map (Job.rank ids)).sum + job'.rank ids := by
  induction jobs generalizing i with
  | nil => cases hi
  | cons x jobs ih =>
    cases i with
    | zero =>
      obtain rfl := Option.some.inj hi
      simp only [List.set_cons_zero, List.map_cons, List.sum_cons]
      omega
    | succ i =>
      have hrest := ih hi
      simp only [List.set_cons_succ, List.map_cons, List.sum_cons]
      omega

theorem rank_tried {job : Job} {b : Backend} (hst : job.stage = .choosing) (hmem : b.provider.id ∈ ids)
    (hnew : b.provider.id ∉ job.tried) : Job.rank ids ⟨b.provider.id :: job.tried, .waiting b⟩ < job.rank ids := by
  have hless : (ids.filter (· ∉ b.provider.id :: job.tried)).length < (ids.filter (· ∉ job.tried)).length := by
    have hsplit : ids.filter (· ∉ b.provider.id :: job.tried) = (ids.filter (· ∉ job.tried)).filter (· ≠ b.provider.id) := by
      rw [List.filter_filter]
      apply List.filter_congr
      intro id _
      simp only [List.mem_cons, not_or, Bool.decide_and]
    rw [hsplit]
    apply List.length_filter_lt_length_iff_exists.mpr
    exact ⟨b.provider.id, List.mem_filter.mpr ⟨hmem, decide_eq_true hnew⟩, by simp⟩
  unfold Job.rank
  rw [hst]
  simp only [Stage.rank]
  omega

theorem readyHosts_enabled {tried : List Text} {now : ℚ} {enabled : List Provider} {b : Backend}
    (hb : b ∈ (readyHosts tried now enabled p).1) : b.provider ∈ enabled := by
  induction enabled generalizing p with
  | nil => exact absurd hb List.not_mem_nil
  | cons prov rest ih =>
    rw [readyHosts] at hb
    split_ifs at hb
    · exact List.mem_cons_of_mem _ (ih hb)
    · dsimp only at hb
      split at hb
      · exact List.mem_cons_of_mem _ (ih hb)
      · obtain rfl | hb := List.mem_cons.mp hb
        · exact List.mem_cons_self
        · exact List.mem_cons_of_mem _ (ih hb)

def Waits (p : Pool) : Stage → Prop
  | .waiting b => ∀ h, p.objects[b.object]? = some h → h.free = false
  | _ => False

theorem rank_go (hp : Orderly p) {i : ℕ} {job : Job} (hi : p.jobs[i]? = some job) {r : Reading}
    (hids : ∀ prov ∈ r.enabled, prov.id ∈ ids) :
    (((go o depth maxChars p i job r).jobs = p.jobs ∧ ((∃ x, job.stage = .done x) ∨ job.stage.Asleep r.now ∨
        Waits p job.stage)) ∨ (go o depth maxChars p i job r).rank ids < p.rank ids) := by
  have closer {job' : Job} {jobs : List Job} (hjobs : jobs = p.jobs.set i job') (hless : job'.rank ids < job.rank ids) :
      (jobs.map (Job.rank ids)).sum < p.rank ids := by
    have hset : ((p.jobs.set i job').map (Job.rank ids)).sum + job.rank ids = (p.jobs.map (Job.rank ids)).sum + job'.rank ids :=
      rank_set hi
    rw [hjobs, Pool.rank]
    omega
  have hjobmem := List.mem_of_getElem? hi
  have hhost {b : Backend} (hb : job.stage.backend = some b) : ∃ h, p.objects[b.object]? = some h :=
    ⟨_, List.getElem?_eq_getElem (hp.backends job hjobmem b hb)⟩
  have hinside {b : Backend} {h : Host} (hb : job.stage.holds = some b) :
      ({ p with
        objects := p.objects.set b.object (inside o depth maxChars h r job.stage).1
        jobs := p.jobs.set i { job with stage := (inside o depth maxChars h r job.stage).2 }
        starts := if (inside o depth maxChars h r job.stage).2.asks && !job.stage.asks then
            ⟨i, b, r.now, h.gap b.provider.needsKey, h.pauseUntil⟩ :: p.starts
          else p.starts } : Pool).jobs = p.jobs ∧ job.stage.Asleep r.now ∨
      ({ p with
        objects := p.objects.set b.object (inside o depth maxChars h r job.stage).1
        jobs := p.jobs.set i { job with stage := (inside o depth maxChars h r job.stage).2 }
        starts := if (inside o depth maxChars h r job.stage).2.asks && !job.stage.asks then
            ⟨i, b, r.now, h.gap b.provider.needsKey, h.pauseUntil⟩ :: p.starts
          else p.starts } : Pool).rank ids < p.rank ids := by
    by_cases hasleep : job.stage.Asleep r.now
    · refine Or.inl ⟨?_, hasleep⟩
      obtain ⟨hlt, hget⟩ := List.getElem?_eq_some_iff.mp hi
      simp only [inside_asleep o depth maxChars hasleep]
      rw [← hget]
      exact List.set_getElem_self hlt
    · exact Or.inr (closer rfl (Nat.add_lt_add_left (rank_inside o depth maxChars hb hasleep) _))
  unfold go
  cases hst : job.stage with
  | done x => exact Or.inl ⟨rfl, .inl ⟨x, rfl⟩⟩
  | choosing =>
    obtain ⟨-, hjobs, -, -, hbs⟩ := hp.readyHosts job.tried r.now r.enabled
    have henabled : ∀ b ∈ (readyHosts job.tried r.now r.enabled p).1, b.provider ∈ r.enabled := fun b hb => readyHosts_enabled hb
    dsimp only
    generalize readyHosts job.tried r.now r.enabled p = out at hjobs hbs henabled ⊢
    obtain ⟨ready, q⟩ := out
    dsimp only at hjobs hbs henabled ⊢
    apply Or.inr
    cases hidle : longestIdle q ready with
    | none =>
      refine closer (congrArg (fun js : List Job => js.set i _) hjobs) ?_
      unfold Job.rank
      rw [hst]
      exact Nat.lt_succ_self _
    | some b =>
      have hmem := mem_of_longestIdle hidle
      exact closer (congrArg (fun js : List Job => js.set i _) hjobs)
        (rank_tried hst (hids _ (henabled b hmem)) (hbs b hmem).1)
  | waiting b =>
    obtain ⟨h, hk⟩ := hhost (by rw [hst]; rfl)
    dsimp only
    rw [hk]
    dsimp only
    split_ifs with hfree
    · refine Or.inr (closer rfl ?_)
      unfold Job.rank
      rw [hst]
      exact Nat.lt_succ_self _
    · refine Or.inl ⟨rfl, .inr (.inr fun h' hh => ?_)⟩
      obtain rfl := Option.some.inj (hk.symm.trans hh)
      exact Bool.eq_false_of_not_eq_true hfree
  | entered b =>
    obtain ⟨h, hk⟩ := hhost (by rw [hst]; rfl)
    rw [hst] at hinside
    dsimp only [Stage.holds]
    rw [hk]
    exact (hinside rfl).imp_left fun hkept => ⟨hkept.1, .inr (.inl hkept.2)⟩
  | naming b left =>
    obtain ⟨h, hk⟩ := hhost (by rw [hst]; rfl)
    rw [hst] at hinside
    dsimp only [Stage.holds]
    rw [hk]
    exact (hinside rfl).imp_left fun hkept => ⟨hkept.1, .inr (.inl hkept.2)⟩
  | pacing b left =>
    obtain ⟨h, hk⟩ := hhost (by rw [hst]; rfl)
    rw [hst] at hinside
    dsimp only [Stage.holds]
    rw [hk]
    exact (hinside rfl).imp_left fun hkept => ⟨hkept.1, .inr (.inl hkept.2)⟩
  | sleeping b left wake =>
    obtain ⟨h, hk⟩ := hhost (by rw [hst]; rfl)
    rw [hst] at hinside
    dsimp only [Stage.holds]
    rw [hk]
    exact (hinside rfl).imp_left fun hkept => ⟨hkept.1, .inr (.inl hkept.2)⟩
  | asking b left =>
    obtain ⟨h, hk⟩ := hhost (by rw [hst]; rfl)
    rw [hst] at hinside
    dsimp only [Stage.holds]
    rw [hk]
    exact (hinside rfl).imp_left fun hkept => ⟨hkept.1, .inr (.inl hkept.2)⟩

theorem rank_act (hp : Orderly p) {e : Event} (hids : ∀ i r, e = .step i r → ∀ prov ∈ r.enabled, prov.id ∈ ids)
    (hstart : e ≠ .start) : (act o depth maxChars p e).rank ids ≤ p.rank ids := by
  cases e with
  | start => exact absurd rfl hstart
  | step i r =>
    simp only [act]
    cases hi : p.jobs[i]? with
    | none => exact le_rfl
    | some job =>
      obtain ⟨hjobs, -⟩ | hless := rank_go o depth maxChars hp hi (hids i r rfl)
      · exact (congrArg (fun js : List Job => (js.map (Job.rank ids)).sum) hjobs).le
      · exact hless.le
  | look id now =>
    have hjobs : (ensureHost id p).2.jobs = p.jobs := (hp.ensureHost id).2.2.1
    exact (congrArg (fun js : List Job => (js.map (Job.rank ids)).sum) hjobs).le
  | looked k ok now => exact le_rfl
  | reset => exact le_rfl

/-- How many events of a run bring some call closer to its end. -/
def moves (ids : List Text) (p : Pool) : List Event → ℕ
  | [] => 0
  | e :: events =>
    (if (poolStep o depth maxChars p e).rank ids < p.rank ids then 1 else 0) +
      moves ids (poolStep o depth maxChars p e) events

def starts (events : List Event) : ℕ := events.countP fun e => match e with
  | .start => true
  | _ => false

/-- Time does not run back, and the providers come from a list. -/
def Known (ids : List Text) (p : Pool) (e : Event) : Prop :=
  Timely p e ∧ ∀ i r, e = .step i r → ∀ prov ∈ r.enabled, prov.id ∈ ids

theorem moves_le (hp : Orderly p) {events : List Event} (h : Along (poolStep o depth maxChars) (Known ids) p events) :
    moves o depth maxChars ids p events + (run (poolStep o depth maxChars) p events).rank ids ≤
      p.rank ids + (39 * ids.length + 1) * starts events := by
  induction events generalizing p with
  | nil => simp [moves, starts]
  | cons e events ih =>
    obtain ⟨⟨htimely, hids⟩, hrest⟩ := h
    have hnext := ih (hp.step o depth maxChars htimely) hrest
    have hone : (if (poolStep o depth maxChars p e).rank ids < p.rank ids then 1 else 0) +
        (poolStep o depth maxChars p e).rank ids ≤ p.rank ids + (39 * ids.length + 1) * starts [e] := by
      by_cases hstart : e = .start
      · subst hstart
        have hrank : (poolStep o depth maxChars p .start).rank ids = p.rank ids + (39 * ids.length + 1) := by
          have hall : ids.filter (· ∉ ([] : List Text)) = ids := List.filter_eq_self.mpr fun id _ => by simp
          show ((p.jobs ++ [(⟨[], .choosing⟩ : Job)]).map (Job.rank ids)).sum = _
          rw [List.map_append, List.sum_append, List.map_singleton, List.sum_singleton, Job.rank, hall]
          rfl
        rw [hrank, if_neg (by omega)]
        simp [starts]
      · have hle : (poolStep o depth maxChars p e).rank ids ≤ p.rank ids := by
          unfold poolStep
          cases hnow : e.now with
          | none => exact rank_act o depth maxChars hp hids hstart
          | some now => exact rank_act o depth maxChars (hp.tick (htimely now hnow)) hids hstart
        split_ifs <;> omega
    have hcount : starts (e :: events) = starts [e] + starts events := by
      unfold starts
      rw [← List.singleton_append, List.countP_append]
    rw [run_cons, moves, hcount, Nat.mul_add]
    omega

/-- The time at which a call that sleeps wakes up. -/
def Stage.wake : Stage → ℚ
  | .sleeping _ _ wake => wake
  | _ => 0

/-- The call itself, or the one that is in the slot it waits for. -/
def InFront (p : Pool) (k i : ℕ) : Prop :=
  i = k ∨ ∃ job b x c, p.jobs[k]? = some job ∧ job.stage = .waiting b ∧ p.jobs[i]? = some x ∧ x.stage.holds = some c ∧
    c.object = b.object

theorem some_moves (hp : Orderly p) {k : ℕ} {job : Job} (hk : p.jobs[k]? = some job) (hopen : ∀ x, job.stage ≠ .done x) :
    ∃ i wake, InFront p k i ∧ ∀ r, p.clock ≤ r.now → wake ≤ r.now → (∀ prov ∈ r.enabled, prov.id ∈ ids) →
      (poolStep o depth maxChars p (.step i r)).rank ids < p.rank ids := by
  obtain ⟨i, x, hfront, hi, hx, hwaits⟩ : ∃ (i : ℕ) (x : Job), InFront p k i ∧ p.jobs[i]? = some x ∧
      (∀ y, x.stage ≠ .done y) ∧ ¬Waits p x.stage := by
    by_cases hw : Waits p job.stage
    · cases hst : job.stage with
      | waiting b =>
        rw [hst] at hw
        obtain ⟨h, hhost⟩ : ∃ h, p.objects[b.object]? = some h :=
          ⟨_, List.getElem?_eq_getElem (hp.backends job (List.mem_of_getElem? hk) b (by rw [hst]; rfl))⟩
        obtain ⟨j, x, c, hj, hc, hobject⟩ := hp.held b.object h hhost (hw h hhost)
        refine ⟨j, x, .inr ⟨job, b, x, c, hk, hst, hj, hc, hobject⟩, hj, fun y hy => ?_, fun hwx => ?_⟩
        · rw [hy] at hc
          cases hc
        · cases hsx : x.stage with
          | waiting d =>
            rw [hsx] at hc
            cases hc
          | _ => rw [hsx] at hwx; exact hwx
      | _ => rw [hst] at hw; exact hw.elim
    · exact ⟨k, job, .inl rfl, hk, hopen, hw⟩
  refine ⟨i, x.stage.wake, hfront, fun r hclock hwake hids => ?_⟩
  have htick := hp.tick hclock
  have hstep : poolStep o depth maxChars p (.step i r) = go o depth maxChars { p with clock := r.now } i x r := by
    simp only [poolStep, act, Event.now, Option.getD_some, hi]
  rw [hstep]
  obtain ⟨-, ⟨y, hy⟩ | hasleep | hw⟩ | hless := rank_go o depth maxChars htick hi hids
  · exact absurd hy (hx y)
  · cases hst : x.stage with
    | sleeping b left wake =>
      rw [hst] at hasleep hwake
      exact absurd hasleep (not_lt.mpr hwake)
    | _ => rw [hst] at hasleep; exact hasleep.elim
  · exact absurd hw hwaits
  · exact hless

/-- Every call of `classify` ends: with `n` providers to choose from, the events that bring a call closer to its end are
no more than `39 * n + 1` for each call; and for each call that has not ended, the next reading of a late enough clock
by that call, or by the one in the slot it waits for, is such an event. -/
theorem classify_ends (o : Observer) (depth : ℕ) (maxChars : ℤ) {clock : ℚ} (hclock : 0 < clock) {ids : List Text}
    {events : List Event} (h : Along (poolStep o depth maxChars) (Known ids) (idle clock) events) {p : Pool}
    (hp : p = run (poolStep o depth maxChars) (idle clock) events) :
    moves o depth maxChars ids (idle clock) events ≤ (39 * ids.length + 1) * starts events ∧
      ∀ k job, p.jobs[k]? = some job → (∀ x, job.stage ≠ .done x) → ∃ i wake, InFront p k i ∧
        ∀ r, p.clock ≤ r.now → wake ≤ r.now → (∀ prov ∈ r.enabled, prov.id ∈ ids) →
          (poolStep o depth maxChars p (.step i r)).rank ids < p.rank ids := by
  have horderly : Orderly p := by
    rw [hp]
    exact run_invariant (fun s e hs he => hs.step o depth maxChars he.1) (idle_orderly hclock) h
  constructor
  · have hmoves := moves_le o depth maxChars (idle_orderly hclock) h
    have hzero : (idle clock).rank ids = 0 := rfl
    omega
  · intro k job hk hopen
    exact some_moves o depth maxChars horderly hk hopen

end Progress

section Sample

def known (ids : List Text) (p : Pool) (e : Event) : Bool := timely p e && match e with
  | .step _ r => r.enabled.all fun prov => prov.id ∈ ids
  | _ => true

theorem known_of {ids : List Text} {p : Pool} {e : Event} (h : known ids p e = true) : Known ids p e := by
  unfold known at h
  rw [Bool.and_eq_true] at h
  refine ⟨timely_of h.1, ?_⟩
  rintro i r rfl prov hprov
  exact of_decide_eq_true (List.all_eq_true.mp h.2 prov hprov)

theorem classify_ends_sample : moves Store.sampleObserver 10 3000 [txt "groq"] (idle 1) sampleEvents ≤ 80 := by
  have hknown : Along (poolStep Store.sampleObserver 10 3000) (Known [txt "groq"]) (idle 1) sampleEvents :=
    along_mono (P := fun p e => known [txt "groq"] p e = true) (fun _ _ => known_of) (by decide +kernel)
  exact (classify_ends Store.sampleObserver 10 3000 (by decide) hknown rfl).1

end Sample

end ObserverClub.Classify
