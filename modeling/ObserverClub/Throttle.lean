import ObserverClub.Fetch
import ObserverClub.Library.Shortest

/-!
`RateLimiter` of `fetch.py`: the workers share one bucket for the bytes they have fetched. Its floats round at each step.
-/

namespace ObserverClub.Fetch

open Library Library.Binary64

structure RateLimiter where
  rate : ℚ
  capacity : ℚ
  tokens : ℚ
  ts : ℚ

/-- `RateLimiter.__init__` -/
def rateLimiter (cfg : Settings) (kbps : ℤ) (now : ℚ) : RateLimiter :=
  let rate := rounded (rounded kbps * 1024)
  let capacity := max (max (rounded (rate * 2)) cfg.maxBlock) 1
  ⟨rate, capacity, capacity, now⟩

/-- One turn of the loop of `consume`, with the time it sleeps where it has to try again. -/
def consume (l : RateLimiter) (nbytes : ℕ) (now : ℚ) : Option ℚ × RateLimiter :=
  if l.rate ≤ 0 then (none, l)
  else
    let gained := rounded (rounded (now - l.ts) * l.rate)
    let l := { l with tokens := min l.capacity (rounded (rounded l.tokens + gained)), ts := now }
    if (nbytes : ℚ) ≤ l.tokens then (none, { l with tokens := rounded (l.tokens - rounded nbytes) })
    else (some (min (rounded (rounded (rounded nbytes - l.tokens) / l.rate)) 1), l)

def attempts (l : RateLimiter) (calls : List (ℕ × ℚ)) : RateLimiter := calls.foldl (fun l c => (consume l c.1 c.2).2) l

/-- The bytes of the calls that return. -/
def passed (l : RateLimiter) : List (ℕ × ℚ) → ℕ
  | [] => 0
  | (nbytes, now) :: calls =>
    (if (consume l nbytes now).1 = none then nbytes else 0) + passed (consume l nbytes now).2 calls

/-- The tries come in the order of their times, each for a block of a size that is fetched. -/
structure Tries (cfg : Settings) (ts : ℚ) (calls : List (ℕ × ℚ)) : Prop where
  ordered : (ts :: calls.map Prod.snd).Pairwise (· ≤ ·)
  sized : ∀ c ∈ calls, c.1 ≤ cfg.maxBlock

structure RateLimiter.Sound (l : RateLimiter) : Prop where
  rate_pos : 0 < l.rate
  rate_le : l.rate ≤ power 2 1024
  capacity : 1 ≤ l.capacity
  tokens : 0 ≤ l.tokens
  tokens_le : l.tokens ≤ l.capacity + l.capacity / 2 ^ 52

section Steps

variable {cfg : Settings} {l : RateLimiter} {nbytes : ℕ} {now : ℚ}

theorem rounded_nbytes (h : nbytes ≤ cfg.maxBlock) : rounded nbytes = nbytes := by
  obtain rfl | hpos := Nat.eq_zero_or_pos nbytes
  · rw [Nat.cast_zero]
    exact rounded_zero
  · have hblock : cfg.maxBlock ≤ 4 * 1048576 := min_le_right _ _
    have hcast : (0 : ℚ) < nbytes := Nat.cast_pos.mpr hpos
    have hsmall : (nbytes : ℚ) ≤ 2 ^ 52 := by
      have hlarge : nbytes ≤ 2 ^ 52 := by omega
      exact_mod_cast hlarge
    have hrepresentable : Representable (nbytes : ℚ) := by
      refine ⟨hcast, ?_, nbytes, 0, by omega, by decide, ?_⟩
      · calc (nbytes : ℚ) ≤ 2 ^ 52 := hsmall
          _ < power 2 53 := by rw [power_eq]; norm_num
          _ ≤ power 2 1024 := power_mono (by decide)
      · rw [zpow_zero, mul_one]
    have hround : round false (nbytes : ℚ) = fin nbytes := by
      apply hrepresentable.round_near
      rw [sub_self, abs_zero]
      positivity
    rw [rounded, ofRat, abs_of_pos hcast, decide_eq_false (not_lt.mpr hcast.le), hround]
    rfl

def filled (l : RateLimiter) (now : ℚ) : ℚ :=
  min l.capacity (rounded (rounded l.tokens + rounded (rounded (now - l.ts) * l.rate)))

theorem consume_eq (hrate : 0 < l.rate) : consume l nbytes now = if (nbytes : ℚ) ≤ filled l now then
      (none, { l with tokens := rounded (filled l now - rounded nbytes), ts := now })
    else (some (min (rounded (rounded (rounded nbytes - filled l now) / l.rate)) 1),
      { l with tokens := filled l now, ts := now }) := by
  rw [consume, if_neg (not_le.mpr hrate)]
  rfl

theorem RateLimiter.Sound.filled_nonneg (h : l.Sound) (hnow : l.ts ≤ now) : 0 ≤ filled l now := by
  apply le_min (zero_le_one.trans h.capacity)
  apply rounded_nonneg
  apply add_nonneg (rounded_nonneg h.tokens)
  exact rounded_nonneg (mul_nonneg (rounded_nonneg (sub_nonneg.mpr hnow)) h.rate_pos.le)

theorem RateLimiter.Sound.filled_le (h : l.Sound) (hnow : l.ts ≤ now) : filled l now ≤
    l.tokens + (now - l.ts) * l.rate + ((now - l.ts) * l.rate + 13 * l.capacity / 16) / 2 ^ 50 := by
  have hspan : 0 ≤ now - l.ts := sub_nonneg.mpr hnow
  have hrate := h.rate_pos.le
  have hleast := least_le
  have hcapacity := h.capacity
  have htokens_le := h.tokens_le
  have htime := rounded_nonneg hspan
  have hgain := mul_nonneg htime hrate
  have hgained : 0 ≤ (now - l.ts) * l.rate := mul_nonneg hspan hrate
  have htokens := rounded_le h.tokens
  have hsum : 0 ≤ rounded l.tokens + rounded (rounded (now - l.ts) * l.rate) :=
    add_nonneg (rounded_nonneg h.tokens) (rounded_nonneg hgain)
  -- the least number there is times the greatest rate
  have hsliver : power 2 (-1075) * l.rate ≤ 1 / 2 ^ 51 := by
    calc power 2 (-1075) * l.rate ≤ power 2 (-1075) * power 2 1024 :=
          mul_le_mul_of_nonneg_left h.rate_le (power_pos _).le
      _ = 1 / 2 ^ 51 := by
        rw [power_eq, power_eq, ← zpow_add₀ two_ne_zero]
        norm_num
  have hspent : rounded (now - l.ts) * l.rate ≤
      (now - l.ts) * l.rate + (now - l.ts) * l.rate / 2 ^ 53 + power 2 (-1075) * l.rate := by
    calc rounded (now - l.ts) * l.rate ≤ (now - l.ts + (now - l.ts) / 2 ^ 53 + power 2 (-1075)) * l.rate :=
          mul_le_mul_of_nonneg_right (rounded_le hspan) hrate
      _ = _ := by ring
  have hcame := rounded_le hgain
  have htotal := rounded_le hsum
  refine (min_le_right _ _).trans ?_
  linarith

theorem RateLimiter.Sound.spent_le (h : l.Sound) (hsize : nbytes ≤ cfg.maxBlock) (hnow : l.ts ≤ now) :
    (if (consume l nbytes now).1 = none then (nbytes : ℚ) else 0) + (consume l nbytes now).2.tokens ≤
        filled l now + 3 * l.capacity / 16 / 2 ^ 50 ∧ 0 ≤ (consume l nbytes now).2.tokens := by
  have hleast := least_le
  have hcapacity := h.capacity
  have hfilled := h.filled_nonneg hnow
  have hfull : filled l now ≤ l.capacity := min_le_left _ _
  have hbytes : (0 : ℚ) ≤ nbytes := Nat.cast_nonneg _
  rw [consume_eq h.rate_pos]
  by_cases hn : (nbytes : ℚ) ≤ filled l now
  · have hrest := sub_nonneg.mpr hn
    have hleft := rounded_le hrest
    rw [if_pos hn]
    dsimp only
    rw [if_pos rfl, rounded_nbytes hsize]
    exact ⟨by linarith, rounded_nonneg hrest⟩
  · rw [if_neg hn]
    dsimp only
    rw [if_neg (Option.some_ne_none _), zero_add]
    exact ⟨by linarith, hfilled⟩

theorem consume_rate (hrate : 0 < l.rate) : (consume l nbytes now).2.rate = l.rate ∧
    (consume l nbytes now).2.capacity = l.capacity ∧ (consume l nbytes now).2.ts = now := by
  rw [consume_eq hrate]
  split_ifs <;> exact ⟨rfl, rfl, rfl⟩

theorem RateLimiter.Sound.consume (h : l.Sound) (hsize : nbytes ≤ cfg.maxBlock) (hnow : l.ts ≤ now) :
    (consume l nbytes now).2.Sound := by
  obtain ⟨hrate, hcapacity, -⟩ := @consume_rate l nbytes now h.rate_pos
  obtain ⟨hspent, htokens⟩ := h.spent_le hsize hnow
  have hfull : filled l now ≤ l.capacity := min_le_left _ _
  have hbytes : (0 : ℚ) ≤ if (Fetch.consume l nbytes now).1 = none then (nbytes : ℚ) else 0 := by
    split_ifs
    · exact Nat.cast_nonneg _
    · exact le_rfl
  have hpositive := h.capacity
  exact ⟨by rw [hrate]; exact h.rate_pos, by rw [hrate]; exact h.rate_le, by rw [hcapacity]; exact h.capacity, htokens,
    by rw [hcapacity]; linarith⟩

theorem rateLimiter_sound (cfg : Settings) {kbps : ℤ} (hkbps : 0 < kbps) (now : ℚ) : (rateLimiter cfg kbps now).Sound := by
  have hone : (1 : ℚ) ≤ kbps := by exact_mod_cast hkbps
  have hkilo := half_le_rounded hone
  have hbytes : 1 ≤ rounded kbps * 1024 := by linarith
  have hcapacity : 1 ≤ (rateLimiter cfg kbps now).capacity := le_max_right _ _
  refine ⟨one_half_pos.trans_le (half_le_rounded hbytes), rounded_le_top (by linarith), hcapacity, zero_le_one.trans hcapacity, ?_⟩
  show (rateLimiter cfg kbps now).capacity ≤ _
  linarith

end Steps

section Runs

variable {cfg : Settings} {l : RateLimiter} {ts : ℚ} {calls later : List (ℕ × ℚ)}

theorem Tries.cons {c : ℕ × ℚ} (h : Tries cfg ts (c :: calls)) :
    ts ≤ c.2 ∧ c.1 ≤ cfg.maxBlock ∧ Tries cfg c.2 calls := by
  obtain ⟨hfirst, hrest⟩ := List.pairwise_cons.mp h.ordered
  obtain ⟨hsize, hsized⟩ := List.forall_mem_cons.mp h.sized
  exact ⟨hfirst c.2 List.mem_cons_self, hsize, hrest, hsized⟩

theorem RateLimiter.Sound.attempts (h : l.Sound) (hcalls : Tries cfg l.ts (calls ++ later)) :
    (attempts l calls).Sound ∧ (attempts l calls).rate = l.rate ∧ (attempts l calls).capacity = l.capacity ∧
      Tries cfg (attempts l calls).ts later := by
  induction calls generalizing l with
  | nil => exact ⟨h, rfl, rfl, hcalls⟩
  | cons c calls ih =>
    obtain ⟨hnow, hsize, hrest⟩ := Tries.cons hcalls
    obtain ⟨hrate, hcapacity, hts⟩ := @consume_rate l c.1 c.2 h.rate_pos
    obtain ⟨hsound, hrate', hcapacity', hlater⟩ := ih (h.consume hsize hnow) (by rw [hts]; exact hrest)
    exact ⟨hsound, hrate'.trans hrate, hcapacity'.trans hcapacity, hlater⟩

theorem attempts_ts_le {stop : ℚ} (h : l.Sound) (hcalls : Tries cfg l.ts calls) (hts : l.ts ≤ stop)
    (hall : ∀ c ∈ calls, c.2 ≤ stop) : (attempts l calls).ts ≤ stop := by
  induction calls generalizing l with
  | nil => exact hts
  | cons c calls ih =>
    obtain ⟨hnow, hsize, hrest⟩ := hcalls.cons
    obtain ⟨hfirst, hall⟩ := List.forall_mem_cons.mp hall
    have hts' : (consume l c.1 c.2).2.ts = c.2 := (consume_rate h.rate_pos).2.2
    exact ih (h.consume hsize hnow) (by rw [hts']; exact hrest) (by rw [hts']; exact hfirst) hall

theorem passed_cons (nbytes : ℕ) (now : ℚ) : (passed l ((nbytes, now) :: calls) : ℚ) =
    (if (consume l nbytes now).1 = none then (nbytes : ℚ) else 0) + passed (consume l nbytes now).2 calls := by
  rw [passed, Nat.cast_add, Nat.cast_ite, Nat.cast_zero]

theorem passed_add_tokens (h : l.Sound) (hcalls : Tries cfg l.ts calls) : passed l calls + (attempts l calls).tokens ≤
    l.tokens + ((attempts l calls).ts - l.ts) * l.rate +
      (((attempts l calls).ts - l.ts) * l.rate + calls.length * l.capacity) / 2 ^ 50 := by
  induction calls generalizing l with
  | nil =>
    show ((0 : ℕ) : ℚ) + l.tokens ≤ l.tokens + (l.ts - l.ts) * l.rate + ((l.ts - l.ts) * l.rate + (0 : ℕ) * l.capacity) / 2 ^ 50
    norm_num
  | cons c calls ih =>
    obtain ⟨nbytes, now⟩ := c
    obtain ⟨hnow, hsize, hrest⟩ := hcalls.cons
    obtain ⟨hrate, hcapacity, hts⟩ := @consume_rate l nbytes now h.rate_pos
    have hlater := ih (h.consume hsize hnow) (by rw [hts]; exact hrest)
    have hfilled := h.filled_le hnow
    have hspent := (h.spent_le hsize hnow).1
    have hattempts : attempts l ((nbytes, now) :: calls) = attempts (consume l nbytes now).2 calls := rfl
    have hlength : ((((nbytes, now) :: calls).length : ℕ) : ℚ) = calls.length + 1 := by
      rw [List.length_cons, Nat.cast_succ]
    rw [hrate, hcapacity, hts] at hlater
    rw [hattempts, passed_cons, hlength]
    linarith

theorem passed_le {start stop : ℚ} (h : l.Sound) (hcalls : Tries cfg l.ts calls) (hspan : start ≤ stop)
    (hall : ∀ c ∈ calls, start ≤ c.2 ∧ c.2 ≤ stop) : (passed l calls : ℚ) ≤
      l.capacity + (stop - start) * l.rate + ((stop - start) * l.rate + calls.length * l.capacity) / 2 ^ 50 := by
  have hcapacity := h.capacity
  cases calls with
  | nil =>
    have hgained : 0 ≤ (stop - start) * l.rate := mul_nonneg (sub_nonneg.mpr hspan) h.rate_pos.le
    rw [passed, List.length_nil, Nat.cast_zero, zero_mul, add_zero]
    linarith
  | cons c calls =>
    obtain ⟨nbytes, now⟩ := c
    obtain ⟨hnow, hsize, hrest⟩ := hcalls.cons
    obtain ⟨hfirst, hall⟩ := List.forall_mem_cons.mp hall
    obtain ⟨hrate, hcapacity', hts⟩ := @consume_rate l nbytes now h.rate_pos
    have hsound := h.consume hsize hnow
    have hrest' : Tries cfg (consume l nbytes now).2.ts calls := by
      rw [hts]
      exact hrest
    have hlater := passed_add_tokens hsound hrest'
    obtain ⟨hspent, -⟩ := h.spent_le hsize hnow
    have hfull : filled l now ≤ l.capacity := min_le_left _ _
    have hleft : 0 ≤ (attempts (consume l nbytes now).2 calls).tokens := by
      have hend := @RateLimiter.Sound.attempts cfg _ calls [] hsound (by rw [List.append_nil]; exact hrest')
      exact hend.1.tokens
    have hend : (attempts (consume l nbytes now).2 calls).ts ≤ stop :=
      attempts_ts_le hsound hrest' (by rw [hts]; exact hfirst.2) fun c hc => (hall c hc).2
    rw [hrate, hcapacity', hts] at hlater
    have hgained : ((attempts (consume l nbytes now).2 calls).ts - now) * l.rate ≤ (stop - start) * l.rate := by
      apply mul_le_mul_of_nonneg_right _ h.rate_pos.le
      have hbegin : start ≤ now := hfirst.1
      linarith
    rw [passed_cons, List.length_cons, Nat.cast_succ]
    linarith

/-- Whatever the workers fetch between two times, by way of one limiter and however their tries follow on one another,
they get no more through than the capacity and what the rate makes of the time in between, but for the rounding: at most
the 2^50th part of the latter, and of the capacity for each try. -/
theorem rate_limited (cfg : Settings) {kbps : ℤ} (hkbps : 0 < kbps) (now : ℚ) (before calls : List (ℕ × ℚ))
    (hcalls : Tries cfg now (before ++ calls)) {start stop : ℚ} (hspan : start ≤ stop)
    (hall : ∀ c ∈ calls, start ≤ c.2 ∧ c.2 ≤ stop) : (passed (attempts (rateLimiter cfg kbps now) before) calls : ℚ) ≤
      (rateLimiter cfg kbps now).capacity + (stop - start) * (rateLimiter cfg kbps now).rate +
        ((stop - start) * (rateLimiter cfg kbps now).rate + calls.length * (rateLimiter cfg kbps now).capacity) / 2 ^ 50 := by
  obtain ⟨hsound, hrate, hcapacity, hlater⟩ := (rateLimiter_sound cfg hkbps now).attempts hcalls
  have hpassed := passed_le hsound hlater hspan hall
  rw [hrate, hcapacity] at hpassed
  exact hpassed

end Runs

/-- The bucket just emptied. -/
def Sample.drained : RateLimiter := attempts (rateLimiter {} 1 0) [(2097152, 0)]

theorem rate_limited_sample : passed Sample.drained [(600, 1), (3000, 2)] = 600 ∧
    (passed Sample.drained [(600, 1), (3000, 2)] : ℚ) ≤
      (rateLimiter {} 1 0).capacity + (2 - 1) * (rateLimiter {} 1 0).rate +
        ((2 - 1) * (rateLimiter {} 1 0).rate + 2 * (rateLimiter {} 1 0).capacity) / 2 ^ 50 := by
  have hcalls : Tries {} 0 ([(2097152, 0)] ++ [(600, 1), (3000, 2)]) := ⟨by decide +kernel, by decide +kernel⟩
  have hall : ∀ c ∈ ([(600, 1), (3000, 2)] : List (ℕ × ℚ)), 1 ≤ c.2 ∧ c.2 ≤ 2 := by decide +kernel
  exact ⟨by decide +kernel, rate_limited {} one_pos 0 [(2097152, 0)] [(600, 1), (3000, 2)] hcalls one_le_two hall⟩

end ObserverClub.Fetch
