import Mathlib.Data.List.Chain
import Mathlib.Tactic.Linarith
import ObserverClub.Backends

/-!
What holds of the backends however the calls of `classify` follow on one another: one call at a host, no request to a
host that pauses, and the gap between two requests.
-/

namespace ObserverClub.Classify

open Library Python Catalog

section Hosts

structure Host.Bounded (now : ℚ) (h : Host) : Prop where
  backoff : 20 ≤ h.backoff ∧ h.backoff ≤ 300
  gap : 4 ≤ h.chatGap ∧ h.chatGap ≤ 16
  pause : h.pauseUntil ≤ now + 300
  chat : 0 ≤ h.lastChat ∧ h.lastChat ≤ now

variable {h : Host} {now now' : ℚ} {remote : Bool}

theorem Host.Bounded.mono (hb : h.Bounded now) (hle : now ≤ now') : h.Bounded now' :=
  ⟨hb.backoff, hb.gap, by linarith [hb.pause], hb.chat.1, hb.chat.2.trans hle⟩

theorem new_bounded (hnow : 0 ≤ now) : Host.new.Bounded now :=
  ⟨by norm_num [Host.new], by norm_num [Host.new], add_nonneg hnow (by norm_num), le_refl _, hnow⟩

theorem clamped_bounds (seconds : Binary64) : 20 ≤ Host.clamped seconds ∧ Host.clamped seconds ≤ 300 := by
  unfold Host.clamped
  split
  · exact ⟨le_max_left _ _, max_le (by norm_num) (min_le_right _ _)⟩
  · norm_num
  · norm_num

theorem pause_bounded (hb : h.Bounded now) (seconds : Binary64) : (h.pause now seconds).Bounded now := by
  refine ⟨hb.backoff, hb.gap, max_le hb.pause ?_, hb.chat⟩
  have hclamped := (clamped_bounds seconds).2
  linarith

theorem noteSuccess_bounded (hb : h.Bounded now) : h.noteSuccess.Bounded now := by
  unfold Host.noteSuccess
  split
  · refine ⟨hb.backoff, ⟨le_max_left _ _, max_le (by norm_num) ?_⟩, hb.pause, hb.chat⟩
    have hgap := hb.gap.2
    linarith
  · exact hb

theorem onRateLimit_bounded (hb : h.Bounded now) (retryAfter : Option Binary64) :
    (h.onRateLimit now retryAfter).Bounded now := by
  have hpause := pause_bounded hb (Host.backedOff retryAfter
    (if h.last429 ≠ 0 ∧ 180 < now - h.last429 then 20 else h.backoff))
  have hbackoff : 20 ≤ if h.last429 ≠ 0 ∧ 180 < now - h.last429 then 20 else h.backoff := by
    split
    · exact le_rfl
    · exact hb.backoff.1
  refine ⟨⟨le_min ?_ (by norm_num), min_le_right _ _⟩, ⟨le_min ?_ (by norm_num), min_le_right _ _⟩, hpause.pause, hb.chat⟩
  · linarith
  · have hmax := le_max_right h.chatGap 4
    linarith

theorem look_bounded (hb : h.Bounded now) (hnow : 0 ≤ now) : (h.look now).2.Bounded now := by
  unfold Host.look
  split
  · exact hb
  · have hcleared : (if h.pauseUntil ≠ 0 then { h with pauseUntil := 0, availTs := none } else h).Bounded now := by
      split
      · exact ⟨hb.backoff, hb.gap, add_nonneg hnow (by norm_num), hb.chat⟩
      · exact hb
    dsimp only
    generalize (if h.pauseUntil ≠ 0 then { h with pauseUntil := 0, availTs := none } else h : Host) = g at hcleared ⊢
    have hprobing : Host.Bounded now { g with probing := true } :=
      ⟨hcleared.backoff, hcleared.gap, hcleared.pause, hcleared.chat⟩
    split_ifs <;> assumption

theorem look_frame (hnow : 0 ≤ now) : (h.look now).2.free = h.free ∧ (h.look now).2.lastChat = h.lastChat ∧
    (h.look now).2.chatGap = h.chatGap ∧ ((h.look now).2.pauseUntil = h.pauseUntil ∨ (h.look now).2.pauseUntil ≤ now) := by
  unfold Host.look
  split_ifs with hpaused hset
  · exact ⟨rfl, rfl, rfl, .inl rfl⟩
  · dsimp only
    split_ifs <;> exact ⟨rfl, rfl, rfl, .inr hnow⟩
  · dsimp only
    split_ifs <;> exact ⟨rfl, rfl, rfl, .inl rfl⟩

theorem gap_bounds (hb : h.Bounded now) : (remote = true → 4 ≤ h.gap remote) ∧ 0 ≤ h.gap remote ∧ h.gap remote ≤ 16 := by
  unfold Host.gap
  obtain ⟨hlow, hhigh⟩ := hb.gap
  split
  next hc =>
    refine ⟨fun hr => ?_, le_rfl, by norm_num⟩
    rw [hr] at hc
    cases hc
  next => exact ⟨fun _ => hlow, by linarith, hhigh⟩

theorem not_paused_le (hnow : 0 ≤ now) (h : Host) (hp : h.isPaused now = false) : h.pauseUntil ≤ now := by
  unfold Host.isPaused at hp
  rw [Bool.and_eq_false_iff, decide_eq_false_iff_not, decide_eq_false_iff_not, not_not, not_lt] at hp
  obtain hzero | hle := hp
  · rw [hzero]
    exact hnow
  · exact hle

def Host.Spaced (h : Host) (remote : Bool) (now : ℚ) : Prop := 0 < h.lastChat → h.lastChat + h.gap remote ≤ now

theorem spaced_of_wait (hb : h.Bounded now) (hw : h.wait now remote ≤ 0) : h.Spaced remote now := by
  intro hchat
  unfold Host.wait at hw
  have hgap : 0 ≤ h.gap remote := (gap_bounds hb).2.1
  split_ifs at hw with hc
  · linarith
  · have hzero : h.gap remote ≤ 0 := not_lt.mp fun hpos => hc ⟨hchat, hpos⟩
    linarith [hb.chat.2]

theorem spaced_of_slept (hw : 0 < h.wait now remote) : h.Spaced remote (now + h.wait now remote) := by
  intro hchat
  unfold Host.wait at hw ⊢
  split_ifs at hw ⊢ with hc
  · linarith
  · exact absurd hw (lt_irrefl _)

end Hosts

section Turns

/-- What holds of the host that a call is at, besides its bounds. -/
def Host.Fits (h : Host) (now : ℚ) : Stage → Prop
  | .entered _ => True
  | .naming _ _ => h.pauseUntil ≤ now
  | .pacing _ _ => h.pauseUntil ≤ now
  | .sleeping b _ wake => h.pauseUntil ≤ now ∧ h.Spaced b.provider.needsKey wake
  | .asking _ _ => h.pauseUntil ≤ now
  | _ => False

def Stage.budget : Stage → ℕ
  | .waiting _ => 9
  | .entered _ => 9
  | .naming _ left => 3 * left.later.length + left.forms + 1
  | .pacing _ left => 3 * left.later.length + left.forms + 1
  | .sleeping _ left _ => 3 * left.later.length + left.forms + 1
  | .asking _ left => 3 * left.later.length + left.forms
  | _ => 0

/-- What a call that holds the slot can do: leave, go on without a request, or begin one. -/
inductive Turn (b : Backend) (h : Host) (st : Stage) (now : ℚ) : Host → Stage → Prop
  | leaves {h' st'} (bounded : h'.Bounded now) (free : h'.free = true) (chat : h'.lastChat = h.lastChat)
      (out : st' = .choosing ∨ ∃ r, st' = .done r) : Turn b h st now h' st'
  | stays {h' st'} (bounded : h'.Bounded now) (free : h'.free = h.free) (chat : h'.lastChat = h.lastChat)
      (holds : st'.holds = some b) (fits : h'.Fits now st') (quiet : (st'.asks && !st.asks) = false)
      (budget : st'.budget ≤ st.budget) : Turn b h st now h' st'
  | begins {left} (spaced : h.Spaced b.provider.needsKey now) (awake : h.pauseUntil ≤ now) (quiet : st.asks = false)
      (budget : (Stage.asking b left).budget + 1 ≤ st.budget) :
      Turn b h st now { h with lastChat := now } (.asking b left)

variable {b : Backend} {h : Host} {st : Stage} {now : ℚ}

theorem leave_turn {h' : Host} {st' : Stage} (hb : h'.Bounded now) (hchat : h'.lastChat = h.lastChat)
    (hout : st' = .choosing ∨ ∃ r, st' = .done r) : Turn b h st now (leave h' st').1 (leave h' st').2 :=
  .leaves ⟨hb.backoff, hb.gap, hb.pause, hb.chat⟩ rfl hchat hout

theorem failed_turn {left : Left} (hb : h.Bounded now) (hawake : h.pauseUntil ≤ now)
    (hbudget : 3 * left.later.length ≤ st.budget) (code : ℕ) (retryAfter : Option Binary64) :
    Turn b h st now (failed b h left now code retryAfter).1 (failed b h left now code retryAfter).2 := by
  unfold failed
  split_ifs
  · cases hl : left.later with
    | nil => exact leave_turn hb rfl (.inl rfl)
    | cons chars later =>
      rw [hl, List.length_cons] at hbudget
      refine .stays hb rfl rfl rfl hawake rfl ?_
      show 3 * later.length + 2 + 1 ≤ _
      omega
  · exact leave_turn (pause_bounded hb _) rfl (.inl rfl)
  · exact leave_turn (pause_bounded hb _) rfl (.inl rfl)
  · exact leave_turn (onRateLimit_bounded hb _) rfl (.inl rfl)
  · exact leave_turn hb rfl (.inl rfl)

variable (o : Observer) (depth : ℕ) (maxChars : ℤ)

/-- What `inside` does, guards and bounds included. -/
theorem inside_turn {r : Reading} {clock : ℚ} (hclock : 0 ≤ clock) (hnow : clock ≤ r.now) (hb : h.Bounded clock)
    (hholds : st.holds = some b) (hfits : h.Fits clock st) :
    Turn b h st r.now (inside o depth maxChars h r st).1 (inside o depth maxChars h r st).2 := by
  have hbounded := hb.mono hnow
  cases st with
  | choosing => cases hholds
  | waiting b' => cases hholds
  | done r' => cases hholds
  | entered b' =>
    obtain rfl := Option.some.inj hholds
    simp only [inside]
    split
    · exact leave_turn hbounded rfl (.inl rfl)
    next hp =>
      exact .stays hbounded rfl rfl rfl (not_paused_le (hclock.trans hnow) h (Bool.eq_false_of_not_eq_true hp)) rfl le_rfl
  | naming b' left =>
    obtain rfl := Option.some.inj hholds
    have hawake : h.pauseUntil ≤ r.now := le_trans hfits hnow
    simp only [inside]
    split_ifs
    · exact .stays hbounded rfl rfl rfl hawake rfl le_rfl
    · exact .stays ⟨hbounded.backoff, hbounded.gap, hbounded.pause, hbounded.chat⟩ rfl rfl rfl hawake rfl le_rfl
    · cases r.named with
      | ok name =>
        exact .stays ⟨hbounded.backoff, hbounded.gap, hbounded.pause, hbounded.chat⟩ rfl rfl rfl hawake rfl le_rfl
      | status code retryAfter => exact failed_turn hbounded hawake (by simp only [Stage.budget]; omega) code retryAfter
      | lost => exact leave_turn hbounded rfl (.inl rfl)
      | broken => exact leave_turn hbounded rfl (.inr ⟨_, rfl⟩)
  | pacing b' left =>
    obtain rfl := Option.some.inj hholds
    have hawake : h.pauseUntil ≤ r.now := le_trans hfits hnow
    simp only [inside]
    split_ifs with hp hw
    · exact leave_turn hbounded rfl (.inl rfl)
    · exact .stays hbounded rfl rfl rfl ⟨hawake, spaced_of_slept hw⟩ rfl le_rfl
    · exact .begins (spaced_of_wait hbounded (not_lt.mp hw)) hawake rfl le_rfl
  | sleeping b' left wake =>
    obtain rfl := Option.some.inj hholds
    simp only [inside]
    split_ifs with hw
    · exact .begins (fun hchat => (hfits.2 hchat).trans hw) (hfits.1.trans hnow) rfl le_rfl
    · exact .stays hbounded rfl rfl rfl ⟨hfits.1.trans hnow, hfits.2⟩ rfl le_rfl
  | asking b' left =>
    obtain rfl := Option.some.inj hholds
    have hawake : h.pauseUntil ≤ r.now := le_trans hfits hnow
    simp only [inside]
    cases r.reply with
    | ok message =>
      dsimp only
      split
      · refine leave_turn (noteSuccess_bounded hbounded) ?_ (.inr ⟨_, rfl⟩)
        unfold Host.noteSuccess
        split <;> rfl
      · exact leave_turn hbounded rfl (.inl rfl)
      · exact leave_turn hbounded rfl (.inr ⟨_, rfl⟩)
    | status code retryAfter =>
      dsimp only
      split_ifs with hagain
      · refine .stays hbounded rfl rfl rfl hawake rfl ?_
        simp only [Stage.budget]
        omega
      · exact failed_turn hbounded hawake (by simp only [Stage.budget]; omega) code retryAfter
    | lost => exact leave_turn hbounded rfl (.inl rfl)
    | broken => exact leave_turn hbounded rfl (.inr ⟨_, rfl⟩)

end Turns

section Pools

/-- The requests that call `i` has made to a provider. -/
def Pool.asked (p : Pool) (i : ℕ) (id : Text) : ℕ := p.starts.countP fun s => s.job = i ∧ s.backend.provider.id = id

/-- The requests that a host object has had, the last one first. -/
def Pool.chats (p : Pool) (k : ℕ) : List Start := p.starts.filter fun s => s.backend.object = k

/-- The backend that a call is at, or waits for. -/
def Stage.backend : Stage → Option Backend
  | .waiting b => some b
  | st => st.holds

structure Job.Counted (asked : Text → ℕ) (job : Job) : Prop where
  nodup : job.tried.Nodup
  fresh : ∀ id ∉ job.tried, asked id = 0
  bound : ∀ id, asked id ≤ 9
  left : ∀ b, job.stage.backend = some b → b.provider.id ∈ job.tried ∧ asked b.provider.id + job.stage.budget ≤ 9

structure Start.Fair (s : Start) : Prop where
  awake : s.pauseUntil ≤ s.time
  time : 0 < s.time
  remote : s.backend.provider.needsKey = true → 4 ≤ s.gap
  gap : 0 ≤ s.gap ∧ s.gap ≤ 16

structure Orderly (p : Pool) : Prop where
  clock : 0 < p.clock
  hosts : ∀ h ∈ p.objects, h.Bounded p.clock
  index : ∀ id k, p.index id = some k → k < p.objects.length
  backends : ∀ job ∈ p.jobs, ∀ b, job.stage.backend = some b → b.object < p.objects.length
  alone : ∀ (i j : ℕ) (job job' : Job) (b b' : Backend), p.jobs[i]? = some job → p.jobs[j]? = some job' →
    job.stage.holds = some b → job'.stage.holds = some b' → b.object = b'.object → i = j
  taken : ∀ job ∈ p.jobs, ∀ b h, job.stage.holds = some b → p.objects[b.object]? = some h →
    h.free = false ∧ h.Fits p.clock job.stage
  held : ∀ (k : ℕ) (h : Host), p.objects[k]? = some h → h.free = false →
    ∃ (j : ℕ) (job : Job) (b : Backend), p.jobs[j]? = some job ∧ job.stage.holds = some b ∧ b.object = k
  counted : ∀ (i : ℕ) (job : Job), p.jobs[i]? = some job → job.Counted (p.asked i)
  begun : ∀ s ∈ p.starts, s.job < p.jobs.length ∧ s.backend.object < p.objects.length ∧ s.Fair
  spaced : ∀ k, (p.chats k).IsChain fun later earlier => earlier.time + later.gap ≤ later.time
  last : ∀ (k : ℕ) (h : Host), p.objects[k]? = some h → h.lastChat = ((p.chats k).head?.map Start.time).getD 0

variable {p : Pool}

theorem Host.Fits.mono {h : Host} {now now' : ℚ} {st : Stage} (hf : h.Fits now st) (hle : now ≤ now') : h.Fits now' st := by
  cases st with
  | choosing => exact hf
  | waiting b => exact hf
  | done r => exact hf
  | entered b => trivial
  | naming b left => exact le_trans hf hle
  | pacing b left => exact le_trans hf hle
  | sleeping b left wake => exact ⟨hf.1.trans hle, hf.2⟩
  | asking b left => exact le_trans hf hle

theorem Orderly.tick (hp : Orderly p) {now : ℚ} (hle : p.clock ≤ now) : Orderly { p with clock := now } where
  clock := hp.clock.trans_le hle
  hosts h hh := (hp.hosts h hh).mono hle
  index := hp.index
  backends := hp.backends
  alone := hp.alone
  taken job hjob b h hb hh := (hp.taken job hjob b h hb hh).imp_right fun hf => hf.mono hle
  held := hp.held
  counted := hp.counted
  begun := hp.begun
  spaced := hp.spaced
  last := hp.last

theorem idle_orderly {clock : ℚ} (hclock : 0 < clock) : Orderly (idle clock) where
  clock := hclock
  hosts _ hh := absurd hh List.not_mem_nil
  index _ _ hk := nomatch hk
  backends _ hjob := absurd hjob List.not_mem_nil
  alone _ _ _ _ _ _ hi := nomatch hi
  taken _ hjob := absurd hjob List.not_mem_nil
  held _ _ hh := nomatch hh
  counted _ _ hi := nomatch hi
  begun _ hs := absurd hs List.not_mem_nil
  spaced _ := .nil
  last _ _ hh := nomatch hh

theorem Orderly.call (hp : Orderly p) : Orderly { p with jobs := p.jobs ++ [⟨[], .choosing⟩] } where
  clock := hp.clock
  hosts := hp.hosts
  index := hp.index
  backends := by
    rw [List.forall_mem_append, List.forall_mem_singleton]
    exact ⟨hp.backends, fun b hb => nomatch hb⟩
  alone i j job job' b b' hi hj hb hb' hobject := by
    have hold {i : ℕ} {job : Job} {b : Backend} (hi : (p.jobs ++ [⟨[], .choosing⟩])[i]? = some job)
        (hb : job.stage.holds = some b) : p.jobs[i]? = some job := by
      rw [List.getElem?_append] at hi
      split_ifs at hi with hlt
      · exact hi
      · obtain rfl := List.mem_singleton.mp (List.mem_of_getElem? hi)
        cases hb
    exact hp.alone i j job job' b b' (hold hi hb) (hold hj hb') hb hb' hobject
  taken := by
    rw [List.forall_mem_append, List.forall_mem_singleton]
    exact ⟨hp.taken, fun b h hb => nomatch hb⟩
  held k h hh hfree := by
    obtain ⟨j, job, b, hj, hb, hobject⟩ := hp.held k h hh hfree
    have hlt : j < p.jobs.length := (List.getElem?_eq_some_iff.mp hj).1
    exact ⟨j, job, b, by rw [List.getElem?_append_left hlt, hj], hb, hobject⟩
  counted i job hi := by
    have hfresh : p.asked p.jobs.length = fun _ => 0 := by
      funext id
      rw [Pool.asked, List.countP_eq_zero]
      intro s hs hc
      have hlt := (hp.begun s hs).1
      rw [decide_eq_true_eq] at hc
      omega
    rw [List.getElem?_append] at hi
    split_ifs at hi with hlt
    · exact hp.counted i job hi
    · have hlen := (List.getElem?_eq_some_iff.mp hi).1
      rw [List.length_singleton] at hlen
      obtain rfl : i = p.jobs.length := by omega
      obtain rfl := List.mem_singleton.mp (List.mem_of_getElem? hi)
      refine ⟨List.nodup_nil, fun id _ => ?_, fun id => ?_, fun b hb => nomatch hb⟩
      · exact congrFun hfresh id
      · exact (congrFun hfresh id).le.trans (Nat.zero_le 9)
  begun s hs := by
    obtain ⟨hjob, hrest⟩ := hp.begun s hs
    rw [List.length_append]
    exact ⟨hjob.trans_le (Nat.le_add_right _ _), hrest⟩
  spaced := hp.spaced
  last := hp.last

theorem Orderly.modify (hp : Orderly p) (k : ℕ) {f : Host → Host} (hf : ∀ h, h.Bounded p.clock → (f h).Bounded p.clock ∧
    (f h).free = h.free ∧ (f h).lastChat = h.lastChat ∧ (f h).chatGap = h.chatGap ∧
      ((f h).pauseUntil = h.pauseUntil ∨ (f h).pauseUntil ≤ p.clock)) :
    Orderly { p with objects := p.objects.modify k f } := by
  have hsplit {j : ℕ} {h' : Host} (hh : (p.objects.modify k f)[j]? = some h') :
      p.objects[j]? = some h' ∨ ∃ h, p.objects[j]? = some h ∧ h' = f h := by
    rw [List.getElem?_modify] at hh
    obtain ⟨h, hj, he⟩ := Option.map_eq_some_iff.mp hh
    split_ifs at he
    · exact Or.inr ⟨h, hj, he.symm⟩
    · rw [← he]
      exact Or.inl hj
  refine ⟨hp.clock, fun h' hh => ?_, ?_, ?_, hp.alone, fun job hjob b h' hb hh => ?_, fun j h' hh hfree => ?_, hp.counted, ?_,
    hp.spaced, fun j h' hh => ?_⟩
  · obtain ⟨j, hj⟩ := List.mem_iff_getElem?.mp hh
    obtain hsame | ⟨h, hold, rfl⟩ := hsplit hj
    · exact hp.hosts h' (List.mem_of_getElem? hsame)
    · exact (hf h (hp.hosts h (List.mem_of_getElem? hold))).1
  · rw [List.length_modify]
    exact hp.index
  · rw [List.length_modify]
    exact hp.backends
  · obtain hsame | ⟨h, hold, rfl⟩ := hsplit hh
    · exact hp.taken job hjob b h' hb hsame
    · obtain ⟨-, hfree, hchat, hgap, hpause⟩ := hf h (hp.hosts h (List.mem_of_getElem? hold))
      obtain ⟨htaken, hfits⟩ := hp.taken job hjob b h hb hold
      refine ⟨hfree.trans htaken, ?_⟩
      have hawake (hold : h.pauseUntil ≤ p.clock) : (f h).pauseUntil ≤ p.clock := by
        obtain he | hle := hpause
        · rw [he]
          exact hold
        · exact hle
      have hspaced (remote : Bool) (wake : ℚ) (hold : h.Spaced remote wake) : (f h).Spaced remote wake := by
        unfold Host.Spaced Host.gap at hold ⊢
        rw [hchat, hgap]
        exact hold
      cases hst : job.stage with
      | choosing => rw [hst] at hfits; exact hfits
      | waiting b => rw [hst] at hfits; exact hfits
      | done r => rw [hst] at hfits; exact hfits
      | entered b => trivial
      | naming b left => rw [hst] at hfits; exact hawake hfits
      | pacing b left => rw [hst] at hfits; exact hawake hfits
      | sleeping b left wake => rw [hst] at hfits; exact ⟨hawake hfits.1, hspaced _ _ hfits.2⟩
      | asking b left => rw [hst] at hfits; exact hawake hfits
  · obtain hsame | ⟨h, hold, rfl⟩ := hsplit hh
    · exact hp.held j h' hsame hfree
    · rw [(hf h (hp.hosts h (List.mem_of_getElem? hold))).2.1] at hfree
      exact hp.held j h hold hfree
  · rw [List.length_modify]
    exact hp.begun
  · obtain hsame | ⟨h, hold, rfl⟩ := hsplit hh
    · exact hp.last j h' hsame
    · rw [(hf h (hp.hosts h (List.mem_of_getElem? hold))).2.2.1]
      exact hp.last j h hold

theorem Orderly.ensureHost (hp : Orderly p) (id : Text) : Orderly (Classify.ensureHost id p).2 ∧
    (Classify.ensureHost id p).1 < (Classify.ensureHost id p).2.objects.length ∧
    (Classify.ensureHost id p).2.jobs = p.jobs ∧ (Classify.ensureHost id p).2.starts = p.starts ∧
    p.objects.length ≤ (Classify.ensureHost id p).2.objects.length := by
  unfold Classify.ensureHost
  cases hk : p.index id with
  | some k => exact ⟨hp, hp.index id k hk, rfl, rfl, le_rfl⟩
  | none =>
    have hlen : (p.objects ++ [Host.new]).length = p.objects.length + 1 := List.length_append
    have hgrown {k : ℕ} (hlt : k < p.objects.length) : k < (p.objects ++ [Host.new]).length := by omega
    dsimp only
    refine ⟨⟨hp.clock, ?_, ?_, fun job hjob b hb => hgrown (hp.backends job hjob b hb), hp.alone, ?_, ?_, hp.counted,
      ?_, hp.spaced, ?_⟩, ?_, rfl, rfl, ?_⟩
    · rw [List.forall_mem_append, List.forall_mem_singleton]
      exact ⟨hp.hosts, new_bounded hp.clock.le⟩
    · intro id' k hk
      dsimp only at hk
      rw [Function.update_apply] at hk
      split_ifs at hk
      · cases hk
        show p.objects.length < (p.objects ++ [Host.new]).length
        omega
      · exact hgrown (hp.index id' k hk)
    · intro job hjob b h hb hh
      rw [List.getElem?_append_left] at hh
      · exact hp.taken job hjob b h hb hh
      · apply hp.backends job hjob b
        unfold Stage.backend
        split
        next hst =>
          rw [hst] at hb
          cases hb
        next => exact hb
    · intro k h hh hfree
      rw [List.getElem?_append] at hh
      split_ifs at hh with hlt
      · exact hp.held k h hh hfree
      · obtain rfl := List.mem_singleton.mp (List.mem_of_getElem? hh)
        cases hfree
    · intro s hs
      obtain ⟨hjob, hobject, hfair⟩ := hp.begun s hs
      exact ⟨hjob, hgrown hobject, hfair⟩
    · intro k h hh
      rw [List.getElem?_append] at hh
      split_ifs at hh with hlt
      · exact hp.last k h hh
      · obtain rfl := List.mem_singleton.mp (List.mem_of_getElem? hh)
        -- nothing has been sent to a host that is new
        have hnone : p.chats k = [] := by
          rw [Pool.chats, List.filter_eq_nil_iff]
          intro s hs hc
          rw [decide_eq_true_eq] at hc
          have hobject := (hp.begun s hs).2.1
          omega
        show Host.new.lastChat = ((p.chats k).head?.map Start.time).getD 0
        rw [hnone]
        rfl
    · omega
    · omega

/-- What the loop of `_choose` makes of the pool, and the backends it comes back with. -/
theorem Orderly.readyHosts (hp : Orderly p) (tried : List Text) (now : ℚ) (enabled : List Provider) :
    Orderly (Classify.readyHosts tried now enabled p).2 ∧ (Classify.readyHosts tried now enabled p).2.jobs = p.jobs ∧
    (Classify.readyHosts tried now enabled p).2.starts = p.starts ∧
    p.objects.length ≤ (Classify.readyHosts tried now enabled p).2.objects.length ∧
    ∀ b ∈ (Classify.readyHosts tried now enabled p).1, b.provider.id ∉ tried ∧
      b.object < (Classify.readyHosts tried now enabled p).2.objects.length := by
  induction enabled generalizing p with
  | nil => exact ⟨hp, rfl, rfl, le_rfl, fun b hb => absurd hb List.not_mem_nil⟩
  | cons prov rest ih =>
    rw [Classify.readyHosts]
    split_ifs with htried
    · exact ih hp
    · obtain ⟨hq, hk, hjobs, hstarts, hlen⟩ := hp.ensureHost prov.id
      obtain ⟨hu, hjobs', hstarts', hlen', hbs⟩ := ih hq
      dsimp only
      refine ⟨hu, hjobs'.trans hjobs, hstarts'.trans hstarts, hlen.trans hlen', ?_⟩
      split
      · exact hbs
      · rw [List.forall_mem_cons]
        exact ⟨⟨htried, hk.trans_le hlen'⟩, hbs⟩

theorem mem_of_longestIdle {bs : List Backend} {b : Backend} (h : longestIdle p bs = some b) : b ∈ bs := by
  induction bs with
  | nil => cases h
  | cons c bs ih =>
    rw [longestIdle] at h
    cases hrest : longestIdle p bs with
    | none =>
      rw [hrest] at h
      cases h
      exact List.mem_cons_self
    | some d =>
      rw [hrest] at h
      dsimp only at h
      split_ifs at h
      · cases h
        exact List.mem_cons_of_mem _ (ih hrest)
      · cases h
        exact List.mem_cons_self

theorem Orderly.outside (hp : Orderly p) {i : ℕ} {job job' : Job} (hi : p.jobs[i]? = some job)
    (hbefore : job.stage.holds = none) (hout : job'.stage.holds = none)
    (hbackend : ∀ b, job'.stage.backend = some b → b.object < p.objects.length)
    (hcounted : job'.Counted (p.asked i)) : Orderly { p with jobs := p.jobs.set i job' } := by
  have hlt : i < p.jobs.length := (List.getElem?_eq_some_iff.mp hi).1
  have hjobs {j : ℕ} {x : Job} (hx : (p.jobs.set i job')[j]? = some x) :
      x = job' ∧ j = i ∨ p.jobs[j]? = some x := by
    rw [List.getElem?_set] at hx
    split_ifs at hx with hij
    · exact Or.inl ⟨(Option.some.inj hx).symm, hij.symm⟩
    · exact Or.inr hx
  have hmem {x : Job} (hx : x ∈ p.jobs.set i job') : x = job' ∨ x ∈ p.jobs :=
    (List.mem_or_eq_of_mem_set hx).symm
  refine ⟨hp.clock, hp.hosts, hp.index, fun x hx b hb => ?_, fun j k x y b b' hj hk hb hb' hobject => ?_,
    fun x hx b h hb hh => ?_, fun k h hh hfree => ?_, fun j x hj => ?_, fun s hs => ?_, hp.spaced, hp.last⟩
  · obtain rfl | hx := hmem hx
    · exact hbackend b hb
    · exact hp.backends x hx b hb
  · obtain ⟨rfl, -⟩ | hj := hjobs hj
    · rw [hout] at hb
      cases hb
    · obtain ⟨rfl, -⟩ | hk := hjobs hk
      · rw [hout] at hb'
        cases hb'
      · exact hp.alone j k x y b b' hj hk hb hb' hobject
  · obtain rfl | hx := hmem hx
    · rw [hout] at hb
      cases hb
    · exact hp.taken x hx b h hb hh
  · obtain ⟨j, x, b, hj, hb, hobject⟩ := hp.held k h hh hfree
    refine ⟨j, x, b, ?_, hb, hobject⟩
    rw [List.getElem?_set_ne]
    · exact hj
    · rintro rfl
      obtain rfl := Option.some.inj (hi.symm.trans hj)
      rw [hbefore] at hb
      cases hb
  · obtain ⟨rfl, rfl⟩ | hj := hjobs hj
    · exact hcounted
    · exact hp.counted j x hj
  · rw [List.length_set]
    exact hp.begun s hs

section Slots

variable {i : ℕ} {job : Job} {b : Backend} {h h' : Host} {st' : Stage}

theorem backend_of_holds {st : Stage} (hb : st.holds = some b) : st.backend = some b := by
  unfold Stage.backend
  split
  next hst => cases hb
  next => exact hb

theorem Orderly.inside (hp : Orderly p) (hi : p.jobs[i]? = some job)
    (hown : ∀ c, job.stage.holds = some c → c = b)
    (honly : ∀ j x c, j ≠ i → p.jobs[j]? = some x → x.stage.holds = some c → c.object ≠ b.object)
    (hk : p.objects[b.object]? = some h) (hbounded : h'.Bounded p.clock)
    (hst : h'.free = true ∧ st'.holds = none ∧ st'.backend = none ∨ st'.holds = some b ∧ h'.free = false ∧ h'.Fits p.clock st')
    {starts : List Start} (hbegun : ∀ s ∈ starts, s.job < p.jobs.length ∧ s.backend.object < p.objects.length ∧ s.Fair)
    (hcounted : ∀ j x, p.jobs[j]? = some x → j ≠ i → x.Counted (Pool.asked { p with starts := starts } j))
    (hjob : Job.Counted (Pool.asked { p with starts := starts } i) { job with stage := st' })
    (hspaced : ∀ k, (Pool.chats { p with starts := starts } k).IsChain
      fun later earlier => earlier.time + later.gap ≤ later.time)
    (hlast : h'.lastChat = ((Pool.chats { p with starts := starts } b.object).head?.map Start.time).getD 0)
    (hothers : ∀ k ≠ b.object, Pool.chats { p with starts := starts } k = p.chats k) :
    Orderly { p with
      objects := p.objects.set b.object h', jobs := p.jobs.set i { job with stage := st' }, starts := starts } := by
  have hlt : i < p.jobs.length := (List.getElem?_eq_some_iff.mp hi).1
  have hobject : b.object < p.objects.length := (List.getElem?_eq_some_iff.mp hk).1
  have hjobs {j : ℕ} {x : Job} (hx : (p.jobs.set i { job with stage := st' })[j]? = some x) :
      x = { job with stage := st' } ∧ j = i ∨ j ≠ i ∧ p.jobs[j]? = some x := by
    rw [List.getElem?_set] at hx
    split_ifs at hx with hij
    · exact Or.inl ⟨(Option.some.inj hx).symm, hij.symm⟩
    · exact Or.inr ⟨Ne.symm hij, hx⟩
  have hmem {x : Job} (hx : x ∈ p.jobs.set i { job with stage := st' }) : ∃ j, x = { job with stage := st' } ∧ j = i ∨
      j ≠ i ∧ p.jobs[j]? = some x := by
    obtain ⟨j, hj⟩ := List.mem_iff_getElem?.mp hx
    exact ⟨j, hjobs hj⟩
  have hhosts {k : ℕ} {x : Host} (hx : (p.objects.set b.object h')[k]? = some x) :
      k = b.object ∧ x = h' ∨ k ≠ b.object ∧ p.objects[k]? = some x := by
    rw [List.getElem?_set] at hx
    split_ifs at hx with hkb
    · exact Or.inl ⟨hkb.symm, (Option.some.inj hx).symm⟩
    · exact Or.inr ⟨Ne.symm hkb, hx⟩
  have hholds {c : Backend} (hc : st'.holds = some c) : c = b ∧ h'.free = false ∧ h'.Fits p.clock st' := by
    obtain ⟨-, hnone, -⟩ | ⟨hsome, hrest⟩ := hst
    · rw [hnone] at hc
      cases hc
    · rw [hsome] at hc
      exact ⟨(Option.some.inj hc).symm, hrest⟩
  refine ⟨hp.clock, fun x hx => ?_, fun id k hid => ?_, fun x hx c hc => ?_, fun j k x y c c' hj hk hc hc' he => ?_,
    fun x hx c y hc hy => ?_, fun k x hx hfree => ?_, fun j x hj => ?_, fun s hs => ?_, hspaced, fun k x hx => ?_⟩
  · obtain hx | rfl := List.mem_or_eq_of_mem_set hx
    · exact hp.hosts x hx
    · exact hbounded
  · rw [List.length_set]
    exact hp.index id k hid
  · rw [List.length_set]
    obtain ⟨j, ⟨rfl, -⟩ | ⟨-, hj⟩⟩ := hmem hx
    · obtain ⟨-, -, hnone⟩ | ⟨hsome, -⟩ := hst
      · rw [show ({ job with stage := st' } : Job).stage.backend = none from hnone] at hc
        cases hc
      · rw [show ({ job with stage := st' } : Job).stage.backend = some b from backend_of_holds hsome] at hc
        cases hc
        exact hobject
    · exact hp.backends x (List.mem_of_getElem? hj) c hc
  · obtain ⟨rfl, rfl⟩ | ⟨hji, hj'⟩ := hjobs hj
    · obtain ⟨rfl, rfl⟩ | ⟨hki, hk'⟩ := hjobs hk
      · rfl
      · obtain ⟨rfl, -⟩ := hholds hc
        exact absurd he.symm (honly k y c' hki hk' hc')
    · obtain ⟨rfl, rfl⟩ | ⟨hki, hk'⟩ := hjobs hk
      · obtain ⟨rfl, -⟩ := hholds hc'
        exact absurd he (honly j x c hji hj' hc)
      · exact hp.alone j k x y c c' hj' hk' hc hc' he
  · obtain ⟨j, ⟨rfl, -⟩ | ⟨hji, hj⟩⟩ := hmem hx
    · obtain ⟨rfl, hrest⟩ := hholds hc
      obtain ⟨-, rfl⟩ | ⟨hne, -⟩ := hhosts hy
      · exact hrest
      · exact absurd rfl hne
    · obtain ⟨he, -⟩ | ⟨-, hy⟩ := hhosts hy
      · exact absurd he (honly j x c hji hj hc)
      · exact hp.taken x (List.mem_of_getElem? hj) c y hc hy
  · obtain ⟨rfl, rfl⟩ | ⟨hne, hx⟩ := hhosts hx
    · obtain ⟨hgone, -⟩ | ⟨hsome, -⟩ := hst
      · rw [hgone] at hfree
        cases hfree
      · exact ⟨i, _, b, by rw [List.getElem?_set_self hlt], hsome, rfl⟩
    · obtain ⟨j, y, c, hj, hc, he⟩ := hp.held k x hx hfree
      refine ⟨j, y, c, ?_, hc, he⟩
      rw [List.getElem?_set_ne]
      · exact hj
      · rintro rfl
        obtain rfl := Option.some.inj (hi.symm.trans hj)
        rw [hown c hc] at he
        exact hne he.symm
  · obtain ⟨rfl, rfl⟩ | ⟨hji, hj⟩ := hjobs hj
    · exact hjob
    · exact hcounted j x hj hji
  · rw [List.length_set, List.length_set]
    exact hbegun s hs
  · obtain ⟨rfl, rfl⟩ | ⟨hne, hx⟩ := hhosts hx
    · exact hlast
    · show x.lastChat = ((Pool.chats { p with starts := starts } k).head?.map Start.time).getD 0
      rw [hothers k hne]
      exact hp.last k x hx

theorem Orderly.turn (hp : Orderly p) (hi : p.jobs[i]? = some job) (hb : job.stage.holds = some b)
    (hk : p.objects[b.object]? = some h) (ht : Turn b h job.stage p.clock h' st') :
    Orderly { p with
      objects := p.objects.set b.object h'
      jobs := p.jobs.set i { job with stage := st' }
      starts := if st'.asks && !job.stage.asks then ⟨i, b, p.clock, h.gap b.provider.needsKey, h.pauseUntil⟩ :: p.starts
        else p.starts } := by
  have honly : ∀ j x c, j ≠ i → p.jobs[j]? = some x → x.stage.holds = some c → c.object ≠ b.object :=
    fun j x c hji hj hc he => hji (hp.alone j i x job c b hj hi hc hb he)
  have hown : ∀ c, job.stage.holds = some c → c = b := fun c hc => Option.some.inj (hc.symm.trans hb)
  have hjobmem := List.mem_of_getElem? hi
  have hcount := hp.counted i job hi
  obtain ⟨hfree, -⟩ := hp.taken job hjobmem b h hb hk
  obtain ⟨htried, hbudget⟩ := hcount.left b (backend_of_holds hb)
  cases ht with
  | leaves bounded free chat out =>
    have hnone : st'.holds = none ∧ st'.backend = none := by
      obtain rfl | ⟨r, rfl⟩ := out
      · exact ⟨rfl, rfl⟩
      · exact ⟨rfl, rfl⟩
    have hquiet : st'.asks = false := by
      obtain rfl | ⟨r, rfl⟩ := out
      · rfl
      · rfl
    rw [hquiet]
    refine hp.inside hi hown honly hk bounded (.inl ⟨free, hnone⟩) hp.begun (fun j x hj _ => hp.counted j x hj)
      ⟨hcount.nodup, hcount.fresh, hcount.bound, fun c hc => ?_⟩ hp.spaced ?_ fun _ _ => rfl
    · rw [show ({ job with stage := st' } : Job).stage.backend = none from hnone.2] at hc
      cases hc
    · rw [chat]
      exact hp.last b.object h hk
  | stays bounded free chat holds fits quiet budget =>
    rw [quiet]
    refine hp.inside hi hown honly hk bounded (.inr ⟨holds, free.trans hfree, fits⟩) hp.begun (fun j x hj _ => hp.counted j x hj)
      ⟨hcount.nodup, hcount.fresh, hcount.bound, fun c hc => ?_⟩ hp.spaced ?_ fun _ _ => rfl
    · rw [show ({ job with stage := st' } : Job).stage.backend = some b from backend_of_holds holds] at hc
      cases hc
      exact ⟨htried, le_trans (Nat.add_le_add_left budget _) hbudget⟩
    · rw [chat]
      exact hp.last b.object h hk
  | @begins left spaced awake quiet budget =>
    have hhost := hp.hosts h (List.mem_of_getElem? hk)
    have hlt : i < p.jobs.length := (List.getElem?_eq_some_iff.mp hi).1
    have hobject : b.object < p.objects.length := (List.getElem?_eq_some_iff.mp hk).1
    have hremote : b.provider.needsKey = true → 4 ≤ h.gap b.provider.needsKey := (gap_bounds hhost).1
    have hgap : 0 ≤ h.gap b.provider.needsKey ∧ h.gap b.provider.needsKey ≤ 16 := (gap_bounds hhost).2
    rw [quiet, if_pos (show ((Stage.asking b left).asks && !false) = true from rfl)]
    generalize hs : (⟨i, b, p.clock, h.gap b.provider.needsKey, h.pauseUntil⟩ : Start) = s
    have hfair : s.Fair := by
      rw [← hs]
      exact ⟨awake, hp.clock, hremote, hgap⟩
    have hmore (id : Text) : Pool.asked { p with starts := s :: p.starts } i id =
        p.asked i id + if b.provider.id = id then 1 else 0 := by
      rw [Pool.asked, List.countP_cons, ← hs]
      simp only [true_and, decide_eq_true_eq]
      rfl
    have hchats : Pool.chats { p with starts := s :: p.starts } b.object = s :: p.chats b.object := by
      rw [Pool.chats, List.filter_cons_of_pos (by rw [← hs]; exact decide_eq_true rfl)]
      rfl
    have hothers : ∀ k ≠ b.object, Pool.chats { p with starts := s :: p.starts } k = p.chats k := by
      intro k hne
      rw [Pool.chats, List.filter_cons_of_neg (by rw [← hs]; simpa using Ne.symm hne)]
      rfl
    have hnext : Host.Bounded p.clock { h with lastChat := p.clock } :=
      ⟨hhost.backoff, hhost.gap, hhost.pause, hp.clock.le, le_rfl⟩
    have hfits : Host.Fits { h with lastChat := p.clock } p.clock (.asking b left) := awake
    refine hp.inside hi hown honly hk hnext (.inr ⟨rfl, hfree, hfits⟩) ?_ (fun j x hj hne => ?_)
      ⟨hcount.nodup, fun id hid => ?_, fun id => ?_, fun c hc => ?_⟩ (fun k => ?_) ?_ hothers
    · rw [List.forall_mem_cons]
      refine ⟨?_, hp.begun⟩
      rw [← hs] at hfair ⊢
      exact ⟨hlt, hobject, hfair⟩
    · have hsame : Pool.asked { p with starts := s :: p.starts } j = p.asked j := by
        funext id
        rw [Pool.asked, List.countP_cons_of_neg (by rw [← hs]; simp [Ne.symm hne])]
        rfl
      rw [hsame]
      exact hp.counted j x hj
    · rw [hmore, if_neg]
      · exact hcount.fresh id hid
      · rintro rfl
        exact hid htried
    · rw [hmore]
      split_ifs with he
      · rw [← he]
        omega
      · exact hcount.bound id
    · cases hc
      rw [hmore, if_pos rfl]
      refine ⟨htried, ?_⟩
      show p.asked i b.provider.id + 1 + (Stage.asking b left).budget ≤ 9
      omega
    · by_cases hkb : k = b.object
      · rw [hkb, hchats, List.isChain_cons]
        refine ⟨fun earlier hhead => ?_, hp.spaced b.object⟩
        have hlast : h.lastChat = earlier.time := by
          rw [hp.last b.object h hk, hhead]
          rfl
        have hmem : earlier ∈ p.starts := List.mem_of_mem_filter (List.mem_of_mem_head? hhead)
        have hover := spaced (by rw [hlast]; exact (hp.begun earlier hmem).2.2.time)
        rw [hlast] at hover
        rw [← hs]
        exact hover
      · rw [hothers k hkb]
        exact hp.spaced k
    · rw [hchats, ← hs]
      rfl

theorem Orderly.enter (hp : Orderly p) (hi : p.jobs[i]? = some job) (hst : job.stage = .waiting b)
    (hk : p.objects[b.object]? = some h) (hfree : h.free = true) : Orderly { p with
      objects := p.objects.set b.object { h with free := false }
      jobs := p.jobs.set i { job with stage := .entered b } } := by
  have hcount := hp.counted i job hi
  have hhost := hp.hosts h (List.mem_of_getElem? hk)
  have honly : ∀ j x c, j ≠ i → p.jobs[j]? = some x → x.stage.holds = some c → c.object ≠ b.object := by
    intro j x c _ hj hc he
    obtain ⟨hbusy, -⟩ := hp.taken x (List.mem_of_getElem? hj) c h hc (by rw [he, hk])
    rw [hfree] at hbusy
    cases hbusy
  have hown : ∀ c, job.stage.holds = some c → c = b := by
    rw [hst]
    exact fun c hc => nomatch hc
  have hnext : Host.Bounded p.clock { h with free := false } := ⟨hhost.backoff, hhost.gap, hhost.pause, hhost.chat⟩
  have hfits : Host.Fits { h with free := false } p.clock (.entered b) := trivial
  refine hp.inside hi hown honly hk hnext (.inr ⟨rfl, rfl, hfits⟩) hp.begun (fun j x hj _ => hp.counted j x hj)
    ⟨hcount.nodup, hcount.fresh, hcount.bound, fun c hc => ?_⟩ hp.spaced (hp.last b.object h hk) fun _ _ => rfl
  cases hc
  obtain ⟨htried, hbudget⟩ := hcount.left b (by rw [hst]; rfl)
  rw [hst] at hbudget
  exact ⟨htried, hbudget⟩

end Slots

section Runs

variable (o : Observer) (depth : ℕ) (maxChars : ℤ)

theorem Orderly.go (hp : Orderly p) {i : ℕ} {job : Job} (hi : p.jobs[i]? = some job) {r : Reading} (hr : r.now = p.clock) :
    Orderly (Classify.go o depth maxChars p i job r) := by
  have hcount := hp.counted i job hi
  have hlt : i < p.jobs.length := (List.getElem?_eq_some_iff.mp hi).1
  have inside {b : Backend} {h : Host} (hb : job.stage.holds = some b) (hk : p.objects[b.object]? = some h) : Orderly { p with
      objects := p.objects.set b.object (Classify.inside o depth maxChars h r job.stage).1
      jobs := p.jobs.set i { job with stage := (Classify.inside o depth maxChars h r job.stage).2 }
      starts := if (Classify.inside o depth maxChars h r job.stage).2.asks && !job.stage.asks then
          ⟨i, b, r.now, h.gap b.provider.needsKey, h.pauseUntil⟩ :: p.starts
        else p.starts } := by
    obtain ⟨-, hfits⟩ := hp.taken job (List.mem_of_getElem? hi) b h hb hk
    have hturn := inside_turn o depth maxChars hp.clock.le hr.ge (hp.hosts h (List.mem_of_getElem? hk)) hb hfits
    rw [hr] at hturn ⊢
    exact hp.turn hi hb hk hturn
  unfold Classify.go
  cases hst : job.stage with
  | done _ => exact hp
  | choosing =>
    obtain ⟨hq, hjobs, hstarts, -, hbs⟩ := hp.readyHosts (job.tried) r.now r.enabled
    dsimp only
    generalize Classify.readyHosts job.tried r.now r.enabled p = out at hq hjobs hstarts hbs ⊢
    obtain ⟨ready, q⟩ := out
    have hi' : q.jobs[i]? = some job := by rw [← hi]; exact congrArg (fun js : List Job => js[i]?) hjobs
    have hbefore : job.stage.holds = none := by rw [hst]; rfl
    have hasked : q.asked i = p.asked i := by
      funext id
      exact congrArg (List.countP _) hstarts
    dsimp only at hq hbs ⊢
    cases hidle : longestIdle q ready with
    | none =>
      refine hq.outside hi' hbefore rfl (fun b hb => nomatch hb) ?_
      rw [hasked]
      exact ⟨hcount.nodup, hcount.fresh, hcount.bound, fun b hb => nomatch hb⟩
    | some b =>
      obtain ⟨hnew, hobject⟩ := hbs b (mem_of_longestIdle hidle)
      refine hq.outside hi' hbefore rfl (fun c hc => ?_) ?_
      · cases hc
        exact hobject
      · rw [hasked]
        refine ⟨List.nodup_cons.mpr ⟨hnew, hcount.nodup⟩, fun id hid => hcount.fresh id fun hmem => hid (.tail _ hmem),
          hcount.bound, fun c hc => ?_⟩
        cases hc
        rw [hcount.fresh _ hnew]
        exact ⟨List.mem_cons_self, le_rfl⟩
  | waiting b =>
    dsimp only
    cases hk : p.objects[b.object]? with
    | none => exact hp
    | some h =>
      dsimp only
      split_ifs with hfree
      · exact hp.enter hi hst hk hfree
      · exact hp
  | entered b =>
    rw [hst] at inside
    dsimp only [Stage.holds]
    cases hk : p.objects[b.object]? with
    | none => exact hp
    | some h => exact inside rfl hk
  | naming b left =>
    rw [hst] at inside
    dsimp only [Stage.holds]
    cases hk : p.objects[b.object]? with
    | none => exact hp
    | some h => exact inside rfl hk
  | pacing b left =>
    rw [hst] at inside
    dsimp only [Stage.holds]
    cases hk : p.objects[b.object]? with
    | none => exact hp
    | some h => exact inside rfl hk
  | sleeping b left wake =>
    rw [hst] at inside
    dsimp only [Stage.holds]
    cases hk : p.objects[b.object]? with
    | none => exact hp
    | some h => exact inside rfl hk
  | asking b left =>
    rw [hst] at inside
    dsimp only [Stage.holds]
    cases hk : p.objects[b.object]? with
    | none => exact hp
    | some h => exact inside rfl hk

theorem Orderly.act (hp : Orderly p) {e : Event} (he : ∀ now, e.now = some now → now = p.clock) :
    Orderly (Classify.act o depth maxChars p e) := by
  cases e with
  | start => exact hp.call
  | step i r =>
    simp only [Classify.act]
    cases hi : p.jobs[i]? with
    | none => exact hp
    | some job => exact hp.go o depth maxChars hi (he r.now rfl)
  | look id now =>
    obtain rfl := he now rfl
    obtain ⟨hq, -, -, -⟩ := hp.ensureHost id
    have hclock : (Classify.ensureHost id p).2.clock = p.clock := by
      unfold Classify.ensureHost
      cases p.index id <;> rfl
    refine hq.modify _ fun h hb => ?_
    rw [hclock] at hb ⊢
    exact ⟨look_bounded hb hp.clock.le, look_frame hp.clock.le⟩
  | looked k ok now =>
    obtain rfl := he now rfl
    refine hp.modify k fun h hb => ?_
    split_ifs
    · exact ⟨⟨hb.backoff, hb.gap, hb.pause, hb.chat⟩, rfl, rfl, rfl, .inl rfl⟩
    · exact ⟨hb, rfl, rfl, rfl, .inl rfl⟩
  | reset => exact ⟨hp.clock, hp.hosts, fun id k hk => (nomatch hk), hp.backends, hp.alone, hp.taken, hp.held, hp.counted,
      hp.begun, hp.spaced, hp.last⟩

/-- The clock does not run back. -/
def Timely (p : Pool) (e : Event) : Prop := ∀ now, e.now = some now → p.clock ≤ now

theorem Orderly.step (hp : Orderly p) {e : Event} (he : Timely p e) : Orderly (poolStep o depth maxChars p e) := by
  unfold poolStep
  cases hnow : e.now with
  | none => exact hp.act o depth maxChars fun now hn => by rw [hnow] at hn; cases hn
  | some now =>
    refine (hp.tick (he now hnow)).act o depth maxChars fun now' hn => ?_
    rw [hnow] at hn
    cases hn
    rfl

/-- However the calls of `classify` follow on one another, with any answers, probes and resets: no two of them are in
the slot of one host, none makes more than nine requests to a provider, and each request begins after the pause of its
host is over and with the gap to the request before it, four to sixteen seconds for a provider that needs a key. -/
theorem backends_orderly (o : Observer) (depth : ℕ) (maxChars : ℤ) {clock : ℚ} (hclock : 0 < clock) {events : List Event}
    (h : Along (poolStep o depth maxChars) Timely (idle clock) events) {p : Pool}
    (hp : p = run (poolStep o depth maxChars) (idle clock) events) :
    (∀ (i j : ℕ) (job job' : Job) (b b' : Backend), p.jobs[i]? = some job → p.jobs[j]? = some job' →
        job.stage.holds = some b → job'.stage.holds = some b' → b.object = b'.object → i = j) ∧
      (∀ i id, p.asked i id ≤ 9) ∧
      (∀ s ∈ p.starts, s.pauseUntil ≤ s.time ∧ (s.backend.provider.needsKey = true → 4 ≤ s.gap) ∧ s.gap ≤ 16) ∧
      ∀ k, (p.chats k).IsChain fun later earlier => earlier.time + later.gap ≤ later.time := by
  have horderly : Orderly p := by
    rw [hp]
    exact run_invariant (fun s e hs he => hs.step o depth maxChars he) (idle_orderly hclock) h
  refine ⟨horderly.alone, fun i id => ?_, fun s hs => ?_, horderly.spaced⟩
  · cases hi : p.jobs[i]? with
    | some job => exact (horderly.counted i job hi).bound id
    | none =>
      rw [List.getElem?_eq_none_iff] at hi
      rw [Pool.asked, List.countP_eq_zero.mpr]
      · exact Nat.zero_le 9
      · intro s hs hc
        have hlt := (horderly.begun s hs).1
        rw [decide_eq_true_eq] at hc
        omega
  · obtain ⟨-, -, hfair⟩ := horderly.begun s hs
    exact ⟨hfair.awake, hfair.remote, hfair.gap.2⟩

end Runs

end Pools

section Sample

def sampleReading (now : ℚ) : Reading := ⟨now, [⟨txt "groq", true, txt "gpt-oss"⟩], .lost, .status 429 none⟩

def sampleEvents : List Event :=
  .start :: .start :: [0, 1, 0, 0, 0, 0, 1, 0, 1, 1, 1].zipIdx.map fun e => .step e.1 (sampleReading (e.2 + 1))

def timely (p : Pool) (e : Event) : Bool := e.now.all fun now => p.clock ≤ now

theorem timely_of {p : Pool} {e : Event} (h : timely p e = true) : Timely p e := by
  intro now hnow
  unfold timely at h
  rw [hnow] at h
  exact of_decide_eq_true h

theorem backends_orderly_sample :
    (run (poolStep Store.sampleObserver 10 3000) (idle 1) sampleEvents).starts.length = 1 ∧
      (∀ s ∈ (run (poolStep Store.sampleObserver 10 3000) (idle 1) sampleEvents).starts, s.pauseUntil ≤ s.time) := by
  refine ⟨by decide +kernel, fun s hs => ?_⟩
  have htimely : Along (poolStep Store.sampleObserver 10 3000) Timely (idle 1) sampleEvents :=
    along_mono (P := fun p e => timely p e = true) (fun _ _ => timely_of) (by decide +kernel)
  exact ((backends_orderly Store.sampleObserver 10 3000 (by decide) htimely rfl).2.2.1 s hs).1

end Sample

end ObserverClub.Classify
