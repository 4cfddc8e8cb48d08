import ObserverClub.Library.Program
import ObserverClub.Library.Transaction

/-!
What a program of actions can do: its traces with every answer its actions can get, and the rules that
carry what must hold before each action along the program.
-/

namespace Library.Program

variable {A : Type} {R : A → Type} {α β ε : Type}

/-- An action with its answer. -/
abbrev Event (R : A → Type) : Type := (a : A) × R a

/-- What a program does before it is cut off somewhere. -/
inductive Trace : Program R α → List (Event R) → Prop where
  | cut (p : Program R α) : Trace p []
  | act {a : A} {next : R a → Program R α} (r : R a) {events : List (Event R)} (h : Trace (next r) events) :
      Trace (.act a next) (⟨a, r⟩ :: events)

inductive Completes : Program R α → List (Event R) → α → Prop where
  | done (x : α) : Completes (.done x) [] x
  | act {a : A} {next : R a → Program R α} (r : R a) {events : List (Event R)} {x : α}
      (h : Completes (next r) events x) : Completes (.act a next) (⟨a, r⟩ :: events) x

theorem completes_done {x y : α} {seg : List (Event R)} (h : Completes (.done x : Program R α) seg y) : seg = [] ∧ y = x := by
  cases h
  exact ⟨rfl, rfl⟩

theorem completes_bind {p : Program R α} {f : α → Program R β} {seg : List (Event R)} {y : β}
    (h : Completes (p.bind f) seg y) :
    ∃ s₁ s₂ x, seg = s₁ ++ s₂ ∧ Completes p s₁ x ∧ Completes (f x) s₂ y := by
  induction p generalizing seg with
  | done x => exact ⟨[], seg, x, rfl, .done x, h⟩
  | act a next ih =>
    cases h with
    | act r h =>
      obtain ⟨s₁, s₂, x, rfl, h₁, h₂⟩ := ih r h
      exact ⟨⟨a, r⟩ :: s₁, s₂, x, rfl, .act r h₁, h₂⟩

theorem program_assoc {γ : Type} (p : Program R α) (f : α → Program R β) (g : β → Program R γ) :
    (p.bind f).bind g = p.bind fun x => (f x).bind g := by
  induction p with
  | done x => rfl
  | act a next ih => exact congrArg (Program.act a) (funext ih)

/-- Every action finds what is `allowed` after the events before it. -/
def Guarded (allowed : List (Event R) → A → Prop) : List (Event R) → Program R α → Prop
  | _, .done _ => True
  | pre, .act a next => allowed pre a ∧ ∀ r, Guarded allowed (pre ++ [⟨a, r⟩]) (next r)

def Only (P : A → Prop) : Program R α → Prop
  | .done _ => True
  | .act a next => P a ∧ ∀ r, Only P (next r)

variable {allowed : List (Event R) → A → Prop}

theorem Guarded.trace {p : Program R α} {pre mid post : List (Event R)} {a : A} {r : R a}
    (h : Guarded allowed pre p) (ht : Trace p (mid ++ ⟨a, r⟩ :: post)) : allowed (pre ++ mid) a := by
  induction mid generalizing p pre with
  | nil =>
    cases ht with
    | act r ht =>
      rw [List.append_nil]
      exact h.1
  | cons e mid ih =>
    cases ht with
    | act r' ht =>
      have hnext := ih (h.2 r') ht
      rwa [List.append_assoc, List.singleton_append] at hnext

theorem Guarded.bind {p : Program R α} {f : α → Program R β} {pre : List (Event R)} (hp : Guarded allowed pre p)
    (hf : ∀ seg x, Completes p seg x → Guarded allowed (pre ++ seg) (f x)) : Guarded allowed pre (p.bind f) := by
  induction p generalizing pre with
  | done x =>
    have h := hf [] x (.done x)
    rwa [List.append_nil] at h
  | act a next ih =>
    refine ⟨hp.1, fun r => ih r (hp.2 r) fun seg x hc => ?_⟩
    have h := hf (⟨a, r⟩ :: seg) x (.act r hc)
    rwa [List.append_assoc, List.singleton_append]

theorem Only.bind {P : A → Prop} {p : Program R α} {f : α → Program R β} (hp : Only P p) (hf : ∀ x, Only P (f x)) :
    Only P (p.bind f) := by
  induction p with
  | done x => exact hf x
  | act a next ih => exact ⟨hp.1, fun r => ih r (hp.2 r)⟩

theorem Only.mono {P Q : A → Prop} {p : Program R α} (hp : Only P p) (h : ∀ a, P a → Q a) : Only Q p := by
  induction p with
  | done x => trivial
  | act a next ih => exact ⟨h a hp.1, fun r => ih r (hp.2 r)⟩

theorem Only.completes {P : A → Prop} {p : Program R α} {seg : List (Event R)} {x : α} (hp : Only P p)
    (h : Completes p seg x) : ∀ e ∈ seg, P e.1 := by
  induction h with
  | done x => exact fun e he => absurd he List.not_mem_nil
  | act r h ih =>
    intro e he
    obtain rfl | he := List.mem_cons.mp he
    · exact hp.1
    · exact ih (hp.2 r) e he

theorem Only.trace {P : A → Prop} {p : Program R α} {seg : List (Event R)} (hp : Only P p) (h : Trace p seg) :
    ∀ e ∈ seg, P e.1 := by
  induction h with
  | cut p => exact fun e he => absurd he List.not_mem_nil
  | act r h ih =>
    intro e he
    obtain rfl | he := List.mem_cons.mp he
    · exact hp.1
    · exact ih (hp.2 r) e he

theorem Only.guarded {P : A → Prop} {p : Program R α} {pre : List (Event R)} (hp : Only P p)
    (h : ∀ seg a, (∀ e ∈ seg, P e.1) → P a → allowed (pre ++ seg) a) : Guarded allowed pre p := by
  induction p generalizing pre with
  | done x => trivial
  | act a next ih =>
    refine ⟨?_, fun r => ih r (hp.2 r) fun seg b hseg hb => ?_⟩
    · have h₀ := h [] a (fun e he => absurd he List.not_mem_nil) hp.1
      rwa [List.append_nil] at h₀
    · rw [List.append_assoc, List.singleton_append]
      refine h (⟨a, r⟩ :: seg) b (fun e he => ?_) hb
      obtain rfl | he := List.mem_cons.mp he
      · exact hp.1
      · exact hseg e he

section Ends

variable {post : List (Event R) → β → Prop}

/-- Every action finds what is `allowed`, and the end what is wanted. -/
def Ensures (allowed : List (Event R) → A → Prop) (post : List (Event R) → α → Prop) :
    List (Event R) → Program R α → Prop
  | pre, .done x => post pre x
  | pre, .act a next => allowed pre a ∧ ∀ r, Ensures allowed post (pre ++ [⟨a, r⟩]) (next r)

theorem Ensures.bind {p : Program R α} {f : α → Program R β} {pre : List (Event R)}
    (h : Ensures allowed (fun pre x => Ensures allowed post pre (f x)) pre p) : Ensures allowed post pre (p.bind f) := by
  induction p generalizing pre with
  | done x => exact h
  | act a next ih => exact ⟨h.1, fun r => ih r (h.2 r)⟩

theorem Ensures.mono {post' : List (Event R) → β → Prop} {p : Program R β} {pre : List (Event R)}
    (hp : Ensures allowed post pre p) (h : ∀ pre x, post pre x → post' pre x) : Ensures allowed post' pre p := by
  induction p generalizing pre with
  | done x => exact h pre x hp
  | act a next ih => exact ⟨hp.1, fun r => ih r (hp.2 r)⟩

theorem Ensures.guarded {p : Program R β} {pre : List (Event R)} (h : Ensures allowed post pre p) :
    Guarded allowed pre p := by
  induction p generalizing pre with
  | done x => trivial
  | act a next ih => exact ⟨h.1, fun r => ih r (h.2 r)⟩

theorem Ensures.bind_of_completes {p : Program R α} {f : α → Program R β} {pre : List (Event R)}
    (hp : Guarded allowed pre p) (hf : ∀ seg x, Completes p seg x → Ensures allowed post (pre ++ seg) (f x)) :
    Ensures allowed post pre (p.bind f) := by
  induction p generalizing pre with
  | done x =>
    have h := hf [] x (.done x)
    rwa [List.append_nil] at h
  | act a next ih =>
    refine ⟨hp.1, fun r => ih r (hp.2 r) fun seg x hc => ?_⟩
    have h := hf (⟨a, r⟩ :: seg) x (.act r hc)
    rwa [List.append_assoc, List.singleton_append]

theorem Ensures.completes {p : Program R β} {pre seg : List (Event R)} {x : β} (hp : Ensures allowed post pre p)
    (h : Completes p seg x) :
    post (pre ++ seg) x ∧ ∀ before a r after, seg = before ++ ⟨a, r⟩ :: after → allowed (pre ++ before) a := by
  induction h generalizing pre with
  | done x =>
    rw [List.append_nil]
    refine ⟨hp, ?_⟩
    intro before a r after hsplit
    cases before <;> cases hsplit
  | @act a next r seg x h ih =>
    obtain ⟨hpost, hall⟩ := ih (hp.2 r)
    rw [List.append_assoc, List.singleton_append] at hpost
    refine ⟨hpost, ?_⟩
    intro before b r' after hsplit
    cases before with
    | nil =>
      cases hsplit
      rw [List.append_nil]
      exact hp.1
    | cons e before =>
      cases hsplit
      have hnext := hall before b r' after rfl
      rwa [List.append_assoc, List.singleton_append] at hnext

theorem Only.ensures {P : A → Prop} {I : List (Event R) → Prop} {p : Program R β} {pre : List (Event R)}
    (hp : Only P p) (hI : I pre) (hallowed : ∀ pre a, I pre → P a → allowed pre a)
    (hkeeps : ∀ pre a r, I pre → P a → I (pre ++ [⟨a, r⟩])) (hpost : ∀ pre x, I pre → post pre x) :
    Ensures allowed post pre p := by
  induction p generalizing pre with
  | done x => exact hpost pre x hI
  | act a next ih => exact ⟨hallowed pre a hI hp.1, fun r => ih r (hp.2 r) (hkeeps pre a r hI hp.1)⟩

end Ends

section Play

/-- What a program does when the same action always gets the same answer. -/
def play (answers : (a : A) → R a) : Program R α → List (Event R)
  | .done _ => []
  | .act a next => ⟨a, answers a⟩ :: play answers (next (answers a))

def outcome (answers : (a : A) → R a) : Program R α → α
  | .done x => x
  | .act a next => outcome answers (next (answers a))

theorem completes_play (answers : (a : A) → R a) (p : Program R α) :
    Completes p (play answers p) (outcome answers p) := by
  induction p with
  | done x => exact .done x
  | act a next ih => exact .act _ (ih _)

theorem play_bind (answers : (a : A) → R a) (p : Program R α) (f : α → Program R β) :
    play answers (p.bind f) = play answers p ++ play answers (f (outcome answers p)) := by
  induction p with
  | done x => rfl
  | act a next ih => exact congrArg (⟨a, answers a⟩ :: ·) (ih _)

theorem outcome_bind (answers : (a : A) → R a) (p : Program R α) (f : α → Program R β) :
    outcome answers (p.bind f) = outcome answers (f (outcome answers p)) := by
  induction p with
  | done x => rfl
  | act a next ih => exact ih _

theorem trace_play (answers : (a : A) → R a) (p : Program R α) : Trace p (play answers p) := by
  induction p with
  | done x => exact .cut _
  | act a next ih => exact .act _ (ih _)

theorem of_mem_play (answers : (a : A) → R a) (p : Program R α) : ∀ e ∈ play answers p, e = ⟨e.1, answers e.1⟩ := by
  induction p with
  | done x => exact fun e he => absurd he List.not_mem_nil
  | act a next ih =>
    intro e he
    obtain rfl | he := List.mem_cons.mp he
    · rfl
    · exact ih _ e he

end Play

section Raising

abbrev Task (R : A → Type) (ε : Type) : Type → Type := ExceptT ε (Program R)

def ask (a : A) : Task R ε (R a) := ExceptT.mk (.act a fun r => .done (.ok r))

def Task.of (x : Except ε α) : Task R ε α := ExceptT.mk (.done x)

/-- `finally` -/
def Task.ensuring (x : Task R ε α) (last : Program R Unit) : Task R ε α :=
  ExceptT.mk (Program.bind x.run fun r => last.bind fun _ => .done r)

def call {S : A → Type} (a : A) : Task (fun a => Except ε (S a)) ε (S a) := ask a >>= Task.of

variable {pre : List (Event R)}

theorem guarded_bind {x : Task R ε α} {f : α → Task R ε β} (hx : Guarded allowed pre x.run)
    (hf : ∀ seg a, Completes x.run seg (.ok a) → Guarded allowed (pre ++ seg) (f a).run) :
    Guarded allowed pre (x >>= f).run := by
  apply Guarded.bind hx
  intro seg r hc
  cases r with
  | ok a => exact hf seg a hc
  | error e => trivial

theorem guarded_of_bind {x : Except ε α} {f : α → Task R ε β} (hf : ∀ a, x = .ok a → Guarded allowed pre (f a).run) :
    Guarded allowed pre (Task.of x >>= f).run := by
  cases x with
  | ok a => exact hf a rfl
  | error e => trivial

theorem guarded_ensuring {x : Task R ε α} {last : Program R Unit} (hx : Guarded allowed pre x.run)
    (hl : ∀ seg r, Completes x.run seg r → Guarded allowed (pre ++ seg) last) :
    Guarded allowed pre (x.ensuring last).run := by
  apply Guarded.bind hx
  intro seg r hc
  exact (hl seg r hc).bind fun _ _ _ => trivial

theorem only_call {S : A → Type} {P : A → Prop} {a : A} (ha : P a) :
    Only P (call a : Task (fun a => Except ε (S a)) ε (S a)).run := by
  refine ⟨ha, fun r => ?_⟩
  cases r <;> trivial

theorem guarded_call {S : A → Type} {allowed : List (Event fun a => Except ε (S a)) → A → Prop}
    {pre : List (Event fun a => Except ε (S a))} {a : A} {f : S a → Task (fun a => Except ε (S a)) ε β}
    (ha : allowed pre a) (hf : ∀ r, Guarded allowed (pre ++ [⟨a, .ok r⟩]) (f r).run) :
    Guarded allowed pre (call a >>= f).run := by
  refine ⟨ha, fun r => ?_⟩
  cases r with
  | ok r => exact hf r
  | error e => trivial

theorem only_bind {P : A → Prop} {x : Task R ε α} {f : α → Task R ε β} (hx : Only P x.run) (hf : ∀ a, Only P (f a).run) :
    Only P (x >>= f).run := by
  apply Only.bind hx
  intro r
  cases r with
  | ok a => exact hf a
  | error e => trivial

theorem task_assoc {γ : Type} (x : Task R ε α) (f : α → Task R ε β) (g : β → Task R ε γ) :
    (x >>= f) >>= g = x >>= fun a => f a >>= g := by
  apply (program_assoc x.run _ _).trans
  apply congrArg (Program.bind x.run)
  funext r
  cases r <;> rfl

theorem completes_task {x : Task R ε α} {f : α → Task R ε β} {seg : List (Event R)} {b : β}
    (h : Completes (x >>= f).run seg (.ok b)) :
    ∃ s₁ s₂ a, seg = s₁ ++ s₂ ∧ Completes x.run s₁ (.ok a) ∧ Completes (f a).run s₂ (.ok b) := by
  obtain ⟨s₁, s₂, r, rfl, h₁, h₂⟩ := completes_bind h
  cases r with
  | ok a => exact ⟨s₁, s₂, a, rfl, h₁, h₂⟩
  | error e => cases (completes_done h₂).2

theorem outcome_call {S : A → Type} {a : A} {f : S a → Task (fun a => Except ε (S a)) ε β} {r : S a}
    {answers : (a : A) → Except ε (S a)} (h : answers a = .ok r) :
    outcome answers (call a >>= f).run = outcome answers (f r).run := by
  apply (outcome_bind answers _ _).trans
  change outcome answers (ExceptT.bindCont f (outcome answers (Task.of (answers a) : Task _ ε (S a)).run)) = _
  rw [h]
  rfl

theorem outcome_task {x : Task R ε α} {f : α → Task R ε β} {a : α} {answers : (a : A) → R a}
    (h : outcome answers x.run = .ok a) : outcome answers (x >>= f).run = outcome answers (f a).run := by
  apply (outcome_bind answers x.run _).trans
  rw [h]
  rfl

theorem completes_call {S : A → Type} {a : A} {f : S a → Task (fun a => Except ε (S a)) ε β}
    {seg : List (Event fun a => Except ε (S a))} {b : β} (h : Completes (call a >>= f).run seg (.ok b)) :
    ∃ r rest, seg = ⟨a, .ok r⟩ :: rest ∧ Completes (f r).run rest (.ok b) := by
  cases h with
  | act r h =>
    cases r with
    | ok r => exact ⟨r, _, rfl, h⟩
    | error e => cases (completes_done h).2

end Raising

end Library.Program
