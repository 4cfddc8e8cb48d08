import ObserverClub.Library.Runs
import ObserverClub.Limit
import Mathlib.Algebra.Order.Ring.Int

namespace ObserverClub.Limit

open Library

/-- A call of `Allow` at an instant. -/
structure Call where
  publisher : Text
  now : Time

def step (l : Limiter) (c : Call) : Limiter := (allow c.now l c.publisher).2

/-- The instants at which calls for the publisher were answered true. -/
def granted (p : Text) : Limiter → List Call → List Time
  | _, [] => []
  | l, c :: calls =>
    let rest := granted p (step l c) calls
    if c.publisher = p ∧ (allow c.now l c.publisher).1 = true then c.now :: rest else rest

/-- The clock never goes back. -/
def Ordered (calls : List Call) : Prop := calls.Pairwise fun c d => c.now ≤ d.now

/-- How many of the instants lie in the half-open window that ends at `t`. -/
def within (window t : Time) (times : List Time) : ℕ := times.countP fun s => t - window < s ∧ s ≤ t

section Steps

variable {l : Limiter} {c : Call} {p : Text} {calls : List Call}

theorem allow_named (now : Time) (l : Limiter) (hp : p ≠ []) :
    (l.max ≤ (kept now l p).length ∧
      allow now l p = (false, { l with hits := Function.update l.hits p (kept now l p) })) ∨
    ((kept now l p).length < l.max ∧
      allow now l p = (true, { l with hits := Function.update l.hits p (kept now l p ++ [now]) })) := by
  unfold allow
  rw [if_neg hp]
  by_cases hfull : l.max ≤ (kept now l p).length
  · exact Or.inl ⟨hfull, if_pos hfull⟩
  · exact Or.inr ⟨Int.not_le.mp hfull, if_neg hfull⟩

theorem allow_unnamed (now : Time) (l : Limiter) : allow now l [] = (false, l) := rfl

@[simp] theorem step_window (l : Limiter) (c : Call) : (step l c).window = l.window := by
  rw [step]
  by_cases hc : c.publisher = []
  · rw [hc, allow_unnamed]
  · obtain ⟨-, h⟩ | ⟨-, h⟩ := allow_named c.now l hc <;> rw [h]

@[simp] theorem step_max (l : Limiter) (c : Call) : (step l c).max = l.max := by
  rw [step]
  by_cases hc : c.publisher = []
  · rw [hc, allow_unnamed]
  · obtain ⟨-, h⟩ | ⟨-, h⟩ := allow_named c.now l hc <;> rw [h]

theorem step_hits_ne (l : Limiter) {c : Call} (h : p ≠ c.publisher) : (step l c).hits p = l.hits p := by
  rw [step]
  by_cases hc : c.publisher = []
  · rw [hc, allow_unnamed]
  · obtain ⟨-, ha⟩ | ⟨-, ha⟩ := allow_named c.now l hc <;> rw [ha] <;> exact Function.update_of_ne h _ _

theorem run_window (l : Limiter) (calls : List Call) : (run step l calls).window = l.window := by
  induction calls generalizing l with
  | nil => rfl
  | cons c calls ih => rw [run_cons, ih, step_window]

theorem run_max (l : Limiter) (calls : List Call) : (run step l calls).max = l.max := by
  induction calls generalizing l with
  | nil => rfl
  | cons c calls ih => rw [run_cons, ih, step_max]

theorem granted_append (l : Limiter) (calls more : List Call) :
    granted p l (calls ++ more) = granted p l calls ++ granted p (run step l calls) more := by
  induction calls generalizing l with
  | nil => rfl
  | cons c calls ih =>
    rw [List.cons_append, granted, granted, ih, run_cons]
    split_ifs <;> rfl

theorem granted_snoc (l : Limiter) (calls : List Call) (c : Call) :
    granted p l (calls ++ [c]) = granted p l calls ++
      if c.publisher = p ∧ (allow c.now (run step l calls) c.publisher).1 = true then [c.now] else [] := granted_append l calls [c]

theorem granted_at (l : Limiter) : ∀ s ∈ granted p l calls, ∃ c ∈ calls, c.now = s := by
  induction calls generalizing l with
  | nil => exact fun s h => absurd h List.not_mem_nil
  | cons c calls ih =>
    intro s hs
    have hrest : s ∈ granted p (step l c) calls → ∃ d ∈ c :: calls, d.now = s := by
      intro h
      obtain ⟨d, hd, he⟩ := ih (step l c) s h
      exact ⟨d, List.mem_cons_of_mem _ hd, he⟩
    rw [granted] at hs
    split_ifs at hs
    · obtain rfl | hs := List.mem_cons.mp hs
      · exact ⟨c, List.mem_cons_self, rfl⟩
      · exact hrest hs
    · exact hrest hs

end Steps

section Runs

variable {l : Limiter} {p : Text} {calls : List Call}

theorem filter_later {window earlier later : Time} (h : earlier ≤ later) (times : List Time) :
    (times.filter fun s => earlier - window < s).filter (fun s => later - window < s) =
      times.filter fun s => later - window < s := by
  rw [List.filter_filter]
  apply List.filter_congr
  intro s _
  rw [Bool.and_eq_left_iff_imp, decide_eq_true_eq, decide_eq_true_eq]
  exact lt_of_le_of_lt (sub_le_sub_right h window)

theorem ordered_snoc {c : Call} (h : Ordered (calls ++ [c])) : Ordered calls ∧ ∀ d ∈ calls, d.now ≤ c.now := by
  obtain ⟨hcalls, -, hlast⟩ := List.pairwise_append.mp h
  exact ⟨hcalls, fun d hd => hlast d hd c (List.mem_singleton_self c)⟩

theorem kept_granted (hl : l.hits p = []) (ho : Ordered calls) (now : Time) (hnow : ∀ c ∈ calls, c.now ≤ now) :
    kept now (run step l calls) p = (granted p l calls).filter fun s => now - l.window < s := by
  induction calls using List.reverseRecOn generalizing now with
  | nil =>
    rw [run_nil, kept, hl]
    rfl
  | append_singleton calls c ih =>
    obtain ⟨hcalls, hlast⟩ := ordered_snoc ho
    have hc : c.now ≤ now := hnow c (List.mem_append_right _ (List.mem_singleton_self c))
    have hthen := ih hcalls c.now hlast
    have hsame := ih hcalls now fun d hd => (hlast d hd).trans hc
    have hwindow := run_window l calls
    rw [granted_snoc, List.filter_append, run_append, run_cons, run_nil, kept, step_window, hwindow]
    by_cases hp : c.publisher = p
    · subst hp
      by_cases hnamed : c.publisher = []
      · rw [if_neg (by rw [hnamed, allow_unnamed]; exact fun h => Bool.false_ne_true h.2), List.filter_nil, List.append_nil,
          step, hnamed, allow_unnamed, ← hnamed, ← hsame, kept, hwindow]
      · obtain ⟨-, h⟩ | ⟨-, h⟩ := allow_named c.now (run step l calls) hnamed
        · rw [step, h, if_neg fun h => Bool.false_ne_true h.2, List.filter_nil, List.append_nil]
          dsimp only
          rw [Function.update_self, hthen, filter_later hc]
        · rw [step, h, if_pos ⟨rfl, rfl⟩]
          dsimp only
          rw [Function.update_self, hthen, List.filter_append, filter_later hc]
    · rw [if_neg fun h => hp h.1, List.filter_nil, List.append_nil, step_hits_ne _ fun h => hp h.symm, ← hsame, kept, hwindow]

theorem within_eq (hl : l.hits p = []) (ho : Ordered calls) {now : Time} (hnow : ∀ c ∈ calls, c.now ≤ now) :
    (kept now (run step l calls) p).length = within l.window now (granted p l calls) := by
  rw [kept_granted hl ho now hnow, within, ← List.countP_eq_length_filter]
  apply List.countP_congr
  intro s hs
  obtain ⟨c, hc, rfl⟩ := granted_at l s hs
  simp only [decide_eq_true_eq, hnow c hc, and_true]

theorem within_le (hl : l.hits p = []) (ho : Ordered calls) (t : Time) : within l.window t (granted p l calls) ≤ l.max := by
  induction calls using List.reverseRecOn with
  | nil => exact l.max_pos.le
  | append_singleton calls c ih =>
    obtain ⟨hcalls, hlast⟩ := ordered_snoc ho
    have hbefore := ih hcalls
    rw [granted_snoc]
    split_ifs with hgranted
    · obtain ⟨rfl, hgranted⟩ := hgranted
      unfold within at hbefore ⊢
      rw [List.countP_append]
      by_cases ht : c.now ≤ t
      · -- What is counted at `t` was in the window when this call was let through.
        have hcount := within_eq hl hcalls hlast
        have hsub : (granted c.publisher l calls).countP (fun s => t - l.window < s ∧ s ≤ t) ≤
            within l.window c.now (granted c.publisher l calls) := by
          apply List.countP_mono_left
          intro s hs
          obtain ⟨d, hd, rfl⟩ := granted_at l s hs
          simp only [decide_eq_true_eq]
          exact fun h => ⟨lt_of_le_of_lt (sub_le_sub_right ht l.window) h.1, hlast d hd⟩
        have hone := @List.countP_le_length _ (fun s => decide (t - l.window < s ∧ s ≤ t)) [c.now]
        have hnamed : c.publisher ≠ [] := fun h => by rw [h] at hgranted; cases hgranted
        obtain ⟨-, h⟩ | ⟨hroom, -⟩ := allow_named c.now (run step l calls) hnamed
        · rw [h] at hgranted
          cases hgranted
        · rw [run_max] at hroom
          rw [List.length_singleton] at hone
          omega
      · rw [List.countP_cons_of_neg fun h => ht (of_decide_eq_true h).2, List.countP_nil, Nat.add_zero]
        exact hbefore
    · rw [List.append_nil]
      exact hbefore

/-- In every window the calls of a publisher that are answered true are no more than the limit, and one is refused only
where they are as many. -/
theorem sliding_window (maxPerWindow : ℤ) (window : Time) (calls : List Call) (ho : Ordered calls) (p : Text) (hp : p ≠ []) :
    (∀ t, within (new maxPerWindow window).window t (granted p (new maxPerWindow window) calls) ≤ (new maxPerWindow window).max) ∧
      ∀ before c after, calls = before ++ c :: after → c.publisher = p →
        (allow c.now (run step (new maxPerWindow window) before) p).1 = false →
          within (new maxPerWindow window).window c.now (granted p (new maxPerWindow window) before) =
            (new maxPerWindow window).max := by
  refine ⟨within_le rfl ho, ?_⟩
  rintro before c after rfl rfl hrefused
  obtain ⟨hbefore, -, hthen⟩ := List.pairwise_append.mp ho
  have hcount := @within_eq (new maxPerWindow window) c.publisher before rfl hbefore c.now fun d hd => hthen d hd c
    List.mem_cons_self
  have hle := @within_le (new maxPerWindow window) c.publisher before rfl hbefore c.now
  obtain ⟨hfull, -⟩ | ⟨-, h⟩ := allow_named c.now (run step (new maxPerWindow window) before) hp
  · rw [run_max, hcount] at hfull
    omega
  · rw [h] at hrefused
    cases hrefused

def hurried : List Call := [⟨txt "p", 1⟩, ⟨txt "p", 2⟩, ⟨txt "p", second⟩, ⟨txt "q", second⟩, ⟨txt "p", second + 1⟩]

theorem hurried_window : within second second (granted (txt "p") (new 2 second) hurried) = 2 ∧
    ∀ t, within second t (granted (txt "p") (new 2 second) hurried) ≤ (2 : ℤ) :=
  ⟨by decide +kernel, (sliding_window 2 second hurried (by rw [Ordered]; decide +kernel) (txt "p") (by decide)).1⟩

end Runs

end ObserverClub.Limit
