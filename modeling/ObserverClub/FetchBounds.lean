import ObserverClub.Fetch

namespace ObserverClub.Fetch

open Library Python UnixFs

section Steps

variable {cfg : Settings} {host : Host} {net : Network}

theorem sniffed_inl {item : Type} {w w' : Walk item} (h : w.sniffed host = .inl w') :
    w.out.length < sniffMin ∧ w' = w ∨
      sniffMin ≤ w.out.length ∧ ∃ mime, sniff host w.out w.names = .ok mime ∧ w' = { w with mime := some mime } := by
  unfold Walk.sniffed at h
  split_ifs at h with hs
  · refine Or.inr ⟨hs, ?_⟩
    cases hm : sniff host w.out w.names with
    | error e => simp [hm] at h
    | ok mime =>
      simp only [hm, Sum.inl.injEq] at h
      exact ⟨mime, rfl, h.symm⟩
  · exact Or.inl ⟨by omega, (Sum.inl.inj h).symm⟩

theorem sniffed_inr {item : Type} {w : Walk item} {a : Assembled} (h : w.sniffed host = .inr a) :
    sniffMin ≤ w.out.length ∧ ∃ e, sniff host w.out w.names = .error e ∧ a = w.ended (.error e) := by
  unfold Walk.sniffed at h
  split_ifs at h with hs
  refine ⟨hs, ?_⟩
  cases hm : sniff host w.out w.names with
  | error e =>
    simp only [hm, Sum.inr.injEq] at h
    exact ⟨e, rfl, h.symm⟩
  | ok mime => simp [hm] at h

def Walk.extended (w : Walk Link) (l : Link) (rest : List Link) (block : Bytes) : Walk Link :=
  { w.follow l rest with out := w.out ++ (childBytes block).1, pending := (childBytes block).2 ++ rest }

theorem serialStep_known {offset : ℕ} {w : Walk Link} (h : w.mime ≠ none ∨ w.pending = []) :
    serialStep cfg host net offset w = .inr (.inl w) := by
  unfold serialStep
  split
  · next hm hp => simp [hm, hp] at h
  · rfl

theorem serialStep_missing {offset : ℕ} {w : Walk Link} {l : Link} {rest : List Link} (hm : w.mime = none)
    (hp : w.pending = l :: rest) (hb : getBlock cfg host (net w.calls) l.cid offset = none) :
    serialStep cfg host net offset w = .inr (.inr ((w.follow l rest).ended (.ok (w.out, true)))) := by
  simp only [serialStep, hm, hp, hb]

theorem serialStep_found {offset : ℕ} {w : Walk Link} {l : Link} {rest : List Link} {block : Bytes} (hm : w.mime = none)
    (hp : w.pending = l :: rest) (hb : getBlock cfg host (net w.calls) l.cid offset = some block) :
    serialStep cfg host net offset w =
      ((w.extended l rest block).sniffed host).elim Sum.inl (fun a => Sum.inr (Sum.inr a)) := by
  simp only [serialStep, hm, hp, hb]
  cases hs : (w.extended l rest block).sniffed host <;>
    simp only [Walk.extended] at hs <;>
    simp only [hs, Sum.elim_inl, Sum.elim_inr]

theorem takeWave_nil (room : ℕ) : takeWave room [] = ([], []) := by
  cases room <;> rfl

theorem takeWave_length (room : ℕ) (pending : List Entry) : (takeWave room pending).1.length ≤ room := by
  induction room generalizing pending with
  | zero => simp [takeWave]
  | succ room ih =>
    cases pending with
    | nil => simp [takeWave]
    | cons e pending =>
      cases e with
      | link l => simpa [takeWave] using ih pending
      | resolved data => simp [takeWave]

/-- The walk once a wave is asked for, before its blocks are put in their places. -/
def Walk.asked (w : Walk Entry) (wave : List Link) (calls : ℕ) : Walk Entry :=
  { w with
    names := w.names ++ namesOf wave
    requested := w.requested ++ wave.map Link.cid
    used := w.used + wave.length
    calls := calls }

def Waving (cfg : Settings) (budget maxBlocks : ℕ) (w : Walk Entry) : Prop :=
  w.out.length < budget ∧ w.used < maxBlocks ∧ (takeWave (min cfg.childConcurrency (maxBlocks - w.used)) w.pending).1 ≠ []

theorem waveStep_stop {offset budget maxBlocks : ℕ} {w : Walk Entry} (h : ¬Waving cfg budget maxBlocks w) :
    waveStep cfg host net offset budget maxBlocks w = .inr (.inl w) := by
  unfold waveStep
  split_ifs with hg
  · have hw : (takeWave (min cfg.childConcurrency (maxBlocks - w.used)) w.pending).1 = [] := by
      by_contra hne
      exact h ⟨hg.2.1, hg.2.2, hne⟩
    exact if_pos hw
  · rfl

theorem waveStep_go (host : Host) (net : Network) (offset : ℕ) {budget maxBlocks : ℕ} {w : Walk Entry}
    (h : Waving cfg budget maxBlocks w)
    {wave : List Link} {rest : List Entry}
    (ht : takeWave (min cfg.childConcurrency (maxBlocks - w.used)) w.pending = (wave, rest)) :
    waveStep cfg host net offset budget maxBlocks w =
      (replacement (fetchChildren cfg host net offset w.calls (wave.map Link.cid)).1).elim
        (.inr (.inr ((w.asked wave (fetchChildren cfg host net offset w.calls (wave.map Link.cid)).2).ended
          (.ok (w.out.take budget, true)))))
        (fun entries => .inl { w.asked wave (fetchChildren cfg host net offset w.calls (wave.map Link.cid)).2 with
          out := (flush w.out (entries ++ rest)).1
          pending := (flush w.out (entries ++ rest)).2 }) := by
  obtain ⟨hb, hu, hne⟩ := h
  rw [ht] at hne
  have hp : w.pending ≠ [] := by
    intro hp
    rw [hp, takeWave_nil] at ht
    exact hne (congrArg Prod.fst ht).symm
  rw [waveStep, if_pos ⟨hp, hb, hu⟩]
  dsimp only
  rw [ht, if_neg hne]
  cases replacement (fetchChildren cfg host net offset w.calls (wave.map Link.cid)).1 <;> rfl

end Steps

section Waves

variable (cfg : Settings) (host : Host) (net : Network)

/-- The counters of a walk that began its waves with `u` links behind it. -/
structure Counted (u maxBlocks : ℕ) (mime : Option Text) (w : Walk Entry) : Prop where
  requested : w.requested.length = w.used
  low : u ≤ w.used
  high : w.used ≤ max u maxBlocks
  mime_eq : w.mime = mime

structure CountedEnd (u maxBlocks : ℕ) (mime : Option Text) (a : Assembled) : Prop where
  low : u ≤ a.requested.length
  high : a.requested.length ≤ max u maxBlocks
  mime_eq : a.mime = mime

variable {cfg host net} {offset budget maxBlocks u : ℕ} {mime : Option Text}

theorem Counted.asked (cfg : Settings) {w : Walk Entry} (h : Counted u maxBlocks mime w) (hlt : w.used < maxBlocks) (calls : ℕ) :
    Counted u maxBlocks mime
      (w.asked (takeWave (min cfg.childConcurrency (maxBlocks - w.used)) w.pending).1 calls) := by
  have hlen := (takeWave_length (min cfg.childConcurrency (maxBlocks - w.used)) w.pending).trans (Nat.min_le_right _ _)
  have hlow := h.low
  refine ⟨?_, ?_, ?_, h.mime_eq⟩
  · simp [Walk.asked, h.requested]
  · simp only [Walk.asked]
    omega
  · simp only [Walk.asked]
    omega

theorem Counted.ended {w : Walk Entry} (h : Counted u maxBlocks mime w) (outcome : Except Error (Bytes × Bool)) :
    CountedEnd u maxBlocks mime (w.ended outcome) := by
  have hreq := h.requested
  have hlow := h.low
  have hhigh := h.high
  exact ⟨by simp only [Walk.ended]; omega, by simp only [Walk.ended]; omega, h.mime_eq⟩

theorem Counted.go {w w' : Walk Entry} (h : Counted u maxBlocks mime w)
    (hstep : waveStep cfg host net offset budget maxBlocks w = .inl w') :
    Counted u maxBlocks mime w' ∧ maxBlocks - w'.used < maxBlocks - w.used := by
  by_cases hw : Waving cfg budget maxBlocks w
  · rw [waveStep_go host net offset hw rfl] at hstep
    obtain ⟨-, hlt, hne⟩ := hw
    have hpos := List.length_pos_iff.mpr hne
    have hc := h.asked cfg hlt (fetchChildren cfg host net offset w.calls
      ((takeWave (min cfg.childConcurrency (maxBlocks - w.used)) w.pending).1.map Link.cid)).2
    cases hr : replacement (fetchChildren cfg host net offset w.calls
        ((takeWave (min cfg.childConcurrency (maxBlocks - w.used)) w.pending).1.map Link.cid)).1 with
    | none =>
      rw [hr] at hstep
      cases hstep
    | some entries =>
      rw [hr, Option.elim_some, Sum.inl.injEq] at hstep
      subst hstep
      refine ⟨⟨hc.requested, hc.low, hc.high, hc.mime_eq⟩, ?_⟩
      simp only [Walk.asked]
      omega
  · rw [waveStep_stop hw] at hstep
    cases hstep

theorem Counted.leave {w : Walk Entry} {r : Walk Entry ⊕ Assembled} (h : Counted u maxBlocks mime w)
    (hstep : waveStep cfg host net offset budget maxBlocks w = .inr r) :
    r.elim (Counted u maxBlocks mime) (CountedEnd u maxBlocks mime) := by
  by_cases hw : Waving cfg budget maxBlocks w
  · rw [waveStep_go host net offset hw rfl] at hstep
    cases hr : replacement (fetchChildren cfg host net offset w.calls
        ((takeWave (min cfg.childConcurrency (maxBlocks - w.used)) w.pending).1.map Link.cid)).1 with
    | none =>
      rw [hr, Option.elim_none, Sum.inr.injEq] at hstep
      exact hstep ▸ (h.asked cfg hw.2.1 _).ended _
    | some entries =>
      rw [hr] at hstep
      cases hstep
  · rw [waveStep_stop hw, Sum.inr.injEq] at hstep
    exact hstep ▸ h

theorem Counted.leaves {w : Walk Entry} {r : Walk Entry ⊕ Assembled} {fuel : ℕ} (h : Counted u maxBlocks mime w)
    (hr : Loop.iterate (waveStep cfg host net offset budget maxBlocks) fuel w = some r) :
    r.elim (Counted u maxBlocks mime) (CountedEnd u maxBlocks mime) :=
  Loop.iterate_invariant (fun _ _ hs hstep => (hs.go hstep).1) (fun _ _ hs hstep => hs.leave hstep) h hr

theorem Counted.terminates (cfg : Settings) (host : Host) (net : Network) (offset budget : ℕ) {w : Walk Entry}
    (h : Counted u maxBlocks mime w) {fuel : ℕ} (hf : maxBlocks < fuel) :
    ∃ r, Loop.iterate (waveStep cfg host net offset budget maxBlocks) fuel w = some r :=
  Loop.iterate_ends (fun s => maxBlocks - s.used) (fun _ _ hs hstep => (hs.go hstep).1)
    (fun _ _ hs hstep => (hs.go hstep).2) h (by omega)

end Waves

section Serial

variable (cfg : Settings) (host : Host) (net : Network)

/-- The first bytes of a file with the names met on the way to them, by following at most `n` links depth
first. Inside, nothing where the links run out or a block is missing first; outside, nothing where `n`
links do not settle it. -/
def firstBytes (gatewayOffset : ℕ) : ℕ → ℕ → Bytes → List Link → List Text → Option (Option (Bytes × List Text))
  | 0, _, out, pending, names =>
    if sniffMin ≤ out.length then some (some (out, names))
    else if pending.isEmpty then some none
    else none
  | n + 1, calls, out, pending, names =>
    if sniffMin ≤ out.length then some (some (out, names))
    else
      match pending with
      | [] => some none
      | l :: rest =>
        match getBlock cfg host (net calls) l.cid gatewayOffset with
        | none => some none
        | some block =>
          firstBytes gatewayOffset n (calls + 1) (out ++ (childBytes block).1) ((childBytes block).2 ++ rest)
            (names ++ namesOf [l])

def serially (gatewayOffset fuel : ℕ) (w : Walk Link) : Option (Walk Link ⊕ Assembled) :=
  (w.sniffed host).elim (Loop.iterate (serialStep cfg host net gatewayOffset) fuel) (fun a => some (.inr a))

variable {cfg host net} {offset : ℕ}

theorem firstBytes_gathered {n calls : ℕ} {out : Bytes} {pending : List Link} {names : List Text}
    (h : sniffMin ≤ out.length) : firstBytes cfg host net offset n calls out pending names = some (some (out, names)) := by
  cases n <;> simp only [firstBytes, if_pos h]

theorem firstBytes_dry {n calls : ℕ} {out : Bytes} {names : List Text} (h : ¬sniffMin ≤ out.length) :
    firstBytes cfg host net offset n calls out [] names = some none := by
  cases n <;> simp only [firstBytes, if_neg h, List.isEmpty_nil, if_true]

theorem firstBytes_stopped {calls : ℕ} {out : Bytes} {l : Link} {rest : List Link} {names : List Text}
    (h : ¬sniffMin ≤ out.length) : firstBytes cfg host net offset 0 calls out (l :: rest) names = none := by
  simp only [firstBytes, if_neg h, List.isEmpty_cons, Bool.false_eq_true, if_false]

theorem firstBytes_follow {n calls : ℕ} {out : Bytes} {l : Link} {rest : List Link} {names : List Text}
    (h : ¬sniffMin ≤ out.length) :
    firstBytes cfg host net offset (n + 1) calls out (l :: rest) names =
      (getBlock cfg host (net calls) l.cid offset).elim (some none) (fun block =>
        firstBytes cfg host net offset n (calls + 1) (out ++ (childBytes block).1) ((childBytes block).2 ++ rest)
          (names ++ namesOf [l])) := by
  simp only [firstBytes, if_neg h]
  cases getBlock cfg host (net calls) l.cid offset <;> rfl

theorem firstBytes_mono {n m calls : ℕ} {out : Bytes} {pending : List Link} {names : List Text}
    {o : Option (Bytes × List Text)} (hn : n ≤ m) (h : firstBytes cfg host net offset n calls out pending names = some o) :
    firstBytes cfg host net offset m calls out pending names = some o := by
  induction n generalizing m calls out pending names with
  | zero =>
    by_cases hs : sniffMin ≤ out.length
    · rw [firstBytes_gathered hs] at h ⊢
      exact h
    · cases pending with
      | nil =>
        rw [firstBytes_dry hs] at h ⊢
        exact h
      | cons l rest =>
        rw [firstBytes_stopped hs] at h
        cases h
  | succ n ih =>
    obtain ⟨m, rfl⟩ : ∃ k, m = k + 1 := ⟨m - 1, by omega⟩
    by_cases hs : sniffMin ≤ out.length
    · rw [firstBytes_gathered hs] at h ⊢
      exact h
    · cases pending with
      | nil =>
        rw [firstBytes_dry hs] at h ⊢
        exact h
      | cons l rest =>
        rw [firstBytes_follow hs] at h ⊢
        cases hb : getBlock cfg host (net calls) l.cid offset with
        | none =>
          rw [hb] at h
          exact h
        | some block =>
          rw [hb] at h
          exact ih (by omega) h

theorem serially_found {fuel : ℕ} {w : Walk Link} {l : Link} {rest : List Link} {block : Bytes} (hm : w.mime = none)
    (hs : ¬sniffMin ≤ w.out.length) (hp : w.pending = l :: rest)
    (hb : getBlock cfg host (net w.calls) l.cid offset = some block) :
    serially cfg host net offset (fuel + 1) w = serially cfg host net offset fuel (w.extended l rest block) := by
  have hstep := serialStep_found hm hp hb
  rw [serially, Walk.sniffed, if_neg hs]
  simp only [Sum.elim_inl]
  cases hn : (w.extended l rest block).sniffed host with
  | inl w' =>
    rw [hn] at hstep
    rw [Loop.iterate_inl hstep, serially, hn]
    rfl
  | inr a =>
    rw [hn] at hstep
    rw [Loop.iterate_inr hstep, serially, hn]
    rfl

theorem serially_missing {fuel : ℕ} {w : Walk Link} {l : Link} {rest : List Link} (hm : w.mime = none)
    (hs : ¬sniffMin ≤ w.out.length) (hp : w.pending = l :: rest)
    (hb : getBlock cfg host (net w.calls) l.cid offset = none) :
    serially cfg host net offset (fuel + 1) w = some (.inr ((w.follow l rest).ended (.ok (w.out, true)))) := by
  rw [serially, Walk.sniffed, if_neg hs]
  exact Loop.iterate_inr (serialStep_missing hm hp hb)

theorem serially_dry {fuel : ℕ} {w : Walk Link} (hs : ¬sniffMin ≤ w.out.length) (hp : w.pending = []) :
    serially cfg host net offset (fuel + 1) w = some (.inl w) := by
  rw [serially, Walk.sniffed, if_neg hs]
  exact Loop.iterate_inr (serialStep_known (Or.inr hp))

theorem serially_gathered {fuel : ℕ} {w : Walk Link} (hs : sniffMin ≤ w.out.length) :
    serially cfg host net offset (fuel + 1) w = some ((w.sniffed host).elim Sum.inl Sum.inr) := by
  rw [serially]
  cases hn : w.sniffed host with
  | inl w' =>
    obtain ⟨hlt, -⟩ | ⟨-, mime, -, rfl⟩ := sniffed_inl hn
    · exact absurd hs (by omega)
    · have hk : ({ w with mime := some mime } : Walk Link).mime ≠ none := Option.some_ne_none mime
      simp only [Sum.elim_inl]
      exact Loop.iterate_inr (serialStep_known (Or.inl hk))
  | inr a => rfl

theorem serially_mono {fuel more : ℕ} {w : Walk Link} {r : Walk Link ⊕ Assembled} (hf : fuel ≤ more)
    (h : serially cfg host net offset fuel w = some r) : serially cfg host net offset more w = some r := by
  rw [serially] at h ⊢
  cases hn : w.sniffed host with
  | inl w' =>
    rw [hn] at h
    exact Loop.iterate_mono hf h
  | inr a =>
    rw [hn] at h
    exact h

/-- How the loop that goes link by link stands to the first bytes: it took `k` links from `w` on, and knows a
type exactly if they were gathered. -/
structure Settled (host : Host) (w : Walk Link) (k : ℕ) (o : Option (Bytes × List Text)) (r : Walk Link ⊕ Assembled) :
    Prop where
  requested : (r.elim Walk.requested Assembled.requested).length = w.requested.length + k
  used : ∀ w', r = .inl w' → w'.used = w.used + k
  mime : ∀ m, r.elim Walk.mime Assembled.mime = some m ↔ ∃ p, o = some p ∧ sniff host p.1 p.2 = .ok m

theorem Settled.follow {w : Walk Link} {l : Link} {rest : List Link} {block : Bytes} {k : ℕ}
    {o : Option (Bytes × List Text)} {r : Walk Link ⊕ Assembled} (h : Settled host (w.extended l rest block) k o r) :
    Settled host w (k + 1) o r := by
  refine ⟨?_, fun w' hw => ?_, h.mime⟩
  · rw [h.requested]
    simp only [Walk.extended, Walk.follow, List.length_append, List.length_cons, List.length_nil]
    omega
  · rw [h.used w' hw]
    simp only [Walk.extended, Walk.follow]
    omega

theorem settled_gathered (host : Host) {w : Walk Link} (hm : w.mime = none) (hs : sniffMin ≤ w.out.length) :
    Settled host w 0 (some (w.out, w.names)) ((w.sniffed host).elim Sum.inl Sum.inr) := by
  cases hn : w.sniffed host with
  | inl w' =>
    obtain ⟨hlt, -⟩ | ⟨-, mime, hmime, rfl⟩ := sniffed_inl hn
    · exact absurd hs (by omega)
    · refine ⟨rfl, ?_, fun m => ?_⟩
      · rintro w' hw
        simp only [Sum.elim_inl, Sum.inl.injEq] at hw
        subst hw
        rfl
      · simp only [Sum.elim_inl, Option.some.injEq, exists_eq_left', hmime, Except.ok.injEq]
  | inr a =>
    obtain ⟨-, e, he, rfl⟩ := sniffed_inr hn
    refine ⟨rfl, by rintro w' ⟨⟩, fun m => ?_⟩
    simp [Walk.ended, hm, he]

theorem settled_missing {w : Walk Link} {l : Link} {rest : List Link} (hm : w.mime = none) :
    Settled host w 1 none (.inr ((w.follow l rest).ended (.ok (w.out, true)))) := by
  refine ⟨by simp [Walk.follow, Walk.ended], by rintro w' ⟨⟩, fun m => ?_⟩
  simp [Walk.follow, Walk.ended, hm]

theorem settled_dry {w : Walk Link} (hm : w.mime = none) : Settled host w 0 none (.inl w) := by
  refine ⟨rfl, ?_, fun m => ?_⟩
  · rintro w' ⟨⟩
    rfl
  · simp [hm]

theorem serially_of_firstBytes {n : ℕ} {w : Walk Link} {o : Option (Bytes × List Text)} (hm : w.mime = none)
    (h : firstBytes cfg host net offset n w.calls w.out w.pending w.names = some o) :
    ∃ k ≤ n, ∃ r, serially cfg host net offset (n + 1) w = some r ∧ Settled host w k o r := by
  induction n generalizing w with
  | zero =>
    by_cases hs : sniffMin ≤ w.out.length
    · rw [firstBytes_gathered hs, Option.some.injEq] at h
      exact ⟨0, le_rfl, _, serially_gathered hs, h ▸ settled_gathered host hm hs⟩
    · cases hp : w.pending with
      | nil =>
        rw [hp, firstBytes_dry hs, Option.some.injEq] at h
        exact ⟨0, le_rfl, _, serially_dry hs hp, h ▸ settled_dry hm⟩
      | cons l rest =>
        rw [hp, firstBytes_stopped hs] at h
        cases h
  | succ n ih =>
    by_cases hs : sniffMin ≤ w.out.length
    · rw [firstBytes_gathered hs, Option.some.injEq] at h
      exact ⟨0, by omega, _, serially_gathered hs, h ▸ settled_gathered host hm hs⟩
    · cases hp : w.pending with
      | nil =>
        rw [hp, firstBytes_dry hs, Option.some.injEq] at h
        exact ⟨0, by omega, _, serially_dry hs hp, h ▸ settled_dry hm⟩
      | cons l rest =>
        rw [hp, firstBytes_follow hs] at h
        cases hb : getBlock cfg host (net w.calls) l.cid offset with
        | none =>
          rw [hb, Option.elim_none, Option.some.injEq] at h
          exact ⟨1, by omega, _, serially_missing hm hs hp hb, h ▸ settled_missing hm⟩
        | some block =>
          rw [hb, Option.elim_some] at h
          obtain ⟨k, hk, r, hr, hset⟩ := ih (w := w.extended l rest block) hm h
          exact ⟨k + 1, by omega, r, (serially_found hm hs hp hb).trans hr, hset.follow⟩

theorem serially_zero {w : Walk Link} {r : Walk Link ⊕ Assembled} (h : serially cfg host net offset 0 w = some r) :
    sniffMin ≤ w.out.length := by
  rw [serially] at h
  cases hn : w.sniffed host with
  | inl w' =>
    rw [hn] at h
    simp [Loop.iterate] at h
  | inr a => exact (sniffed_inr hn).1

theorem firstBytes_of_serially {fuel : ℕ} {w : Walk Link} {r : Walk Link ⊕ Assembled} (hm : w.mime = none)
    (h : serially cfg host net offset fuel w = some r) :
    ∃ k o, firstBytes cfg host net offset k w.calls w.out w.pending w.names = some o ∧ Settled host w k o r := by
  by_cases hs : sniffMin ≤ w.out.length
  · have h' := serially_mono (Nat.le_succ fuel) h
    rw [serially_gathered hs, Option.some.injEq] at h'
    exact ⟨0, _, firstBytes_gathered hs, h' ▸ settled_gathered host hm hs⟩
  · induction fuel generalizing w with
    | zero => exact absurd (serially_zero h) hs
    | succ fuel ih =>
      cases hp : w.pending with
      | nil =>
        rw [serially_dry hs hp, Option.some.injEq] at h
        exact ⟨0, none, firstBytes_dry hs, h ▸ settled_dry hm⟩
      | cons l rest =>
        cases hb : getBlock cfg host (net w.calls) l.cid offset with
        | none =>
          rw [serially_missing hm hs hp hb, Option.some.injEq] at h
          exact ⟨1, none, by rw [firstBytes_follow hs, hb]; rfl, h ▸ settled_missing hm⟩
        | some block =>
          rw [serially_found hm hs hp hb] at h
          by_cases hs' : sniffMin ≤ (w.extended l rest block).out.length
          · have h' := serially_mono (Nat.le_succ fuel) h
            rw [serially_gathered hs', Option.some.injEq] at h'
            have hset := settled_gathered host (w := w.extended l rest block) hm hs'
            refine ⟨1, _, ?_, h' ▸ hset.follow⟩
            rw [firstBytes_follow hs, hb, Option.elim_some]
            exact firstBytes_gathered hs'
          · obtain ⟨k, o, ho, hset⟩ := ih (w := w.extended l rest block) hm h hs'
            refine ⟨k + 1, o, ?_, hset.follow⟩
            rw [firstBytes_follow hs, hb, Option.elim_some]
            exact ho

end Serial

section Assemblies

variable (cfg : Settings)

def capFor (mime : Option Text) : ℕ := if mime = some pdf then cfg.maxPdfChildBlocks else cfg.maxChildBlocks

theorem maxChildBlocks_le_capFor (mime : Option Text) : cfg.maxChildBlocks ≤ capFor cfg mime := by
  unfold capFor
  split_ifs
  · exact Nat.le_max_left _ _
  · exact le_rfl

theorem capFor_le (mime : Option Text) : capFor cfg mime ≤ cfg.maxPdfChildBlocks := by
  unfold capFor
  split_ifs
  · exact le_rfl
  · exact Nat.le_max_left _ _

theorem budgetFor_le_capFor (mime : Text) (filesize : Option ℕ) : (budgetFor cfg mime filesize).2 ≤ capFor cfg (some mime) := by
  by_cases hm : mime = pdf
  · simp only [budgetFor, capFor, hm, ne_eq, not_true_eq_false, if_false, if_true]
    split_ifs
    · exact Nat.zero_le _
    · exact le_rfl
  · simp [budgetFor, capFor, hm]

/-- The assembly asked for no more child blocks than the sniffed type allows. -/
def Capped (a : Assembled) : Prop := a.requested.length ≤ capFor cfg a.mime

instance (a : Assembled) : Decidable (Capped cfg a) := inferInstanceAs (Decidable (_ ≤ _))

variable {cfg} {host : Host} {net : Network} {offset : ℕ} {root : Node}

theorem assembleWaves_counted {fuel : ℕ} {mime : Text} {w : Walk Link} {a : Assembled}
    (hw : w.requested.length = w.used) (hm : w.mime = some mime)
    (h : assembleWaves cfg host net fuel root offset mime w = some a) :
    CountedEnd w.used (capFor cfg (some mime)) (some mime) a := by
  have hcap := budgetFor_le_capFor cfg mime root.filesize
  unfold assembleWaves at h
  dsimp only at h
  split_ifs at h with hb
  · rw [Option.some.injEq] at h
    subst h
    exact ⟨by simp [Walk.ended, hw], by simp [Walk.ended, hw], hm⟩
  · have hc : Counted w.used (budgetFor cfg mime root.filesize).2 (some mime)
        { w with pending := w.pending.map Entry.link } := ⟨hw, le_rfl, Nat.le_max_left _ _, hm⟩
    cases hi : Loop.iterate (waveStep cfg host net offset (budgetFor cfg mime root.filesize).1
        (budgetFor cfg mime root.filesize).2) fuel { w with pending := w.pending.map Entry.link } with
    | none =>
      rw [hi] at h
      cases h
    | some r =>
      rw [hi] at h
      have hr := hc.leaves hi
      have hend : CountedEnd w.used (budgetFor cfg mime root.filesize).2 (some mime) a := by
        cases r with
        | inl w' =>
          rw [Option.some.injEq] at h
          exact h ▸ hr.ended _
        | inr a' =>
          rw [Option.some.injEq] at h
          exact h ▸ hr
      have hhigh := hend.high
      exact ⟨hend.low, by omega, hend.mime_eq⟩

theorem assembleWaves_total {fuel : ℕ} {mime : Text} {w : Walk Link} (hw : w.requested.length = w.used)
    (hf : cfg.maxPdfChildBlocks < fuel) : ∃ a, assembleWaves cfg host net fuel root offset mime w = some a := by
  have hcap := budgetFor_le_capFor cfg mime root.filesize
  have hle := capFor_le cfg (some mime)
  unfold assembleWaves
  dsimp only
  split_ifs with hb
  · exact ⟨_, rfl⟩
  · have hc : Counted w.used (budgetFor cfg mime root.filesize).2 w.mime
        { w with pending := w.pending.map Entry.link } := ⟨hw, le_rfl, Nat.le_max_left _ _, rfl⟩
    obtain ⟨r, hr⟩ := hc.terminates cfg host net offset (budgetFor cfg mime root.filesize).1
      (show (budgetFor cfg mime root.filesize).2 < fuel by omega)
    rw [hr]
    cases r with
    | inl w' => exact ⟨_, rfl⟩
    | inr a => exact ⟨_, rfl⟩

theorem assembleRest_counted {fuel : ℕ} {w : Walk Link} {a : Assembled} (hw : w.requested.length = w.used)
    (h : assembleRest cfg host net fuel root offset w = some a) : CountedEnd w.used (capFor cfg w.mime) w.mime a := by
  unfold assembleRest at h
  cases hp : w.mime.filter Extract.processable with
  | none =>
    rw [hp, Option.some.injEq] at h
    subst h
    exact ⟨by simp [Walk.ended, hw], by simp [Walk.ended, hw], rfl⟩
  | some mime =>
    rw [hp] at h
    have hm := (Option.filter_eq_some_iff.mp hp).1
    rw [hm]
    exact assembleWaves_counted hw hm h

theorem assembleRest_total {fuel : ℕ} {w : Walk Link} (hw : w.requested.length = w.used)
    (hf : cfg.maxPdfChildBlocks < fuel) : ∃ a, assembleRest cfg host net fuel root offset w = some a := by
  unfold assembleRest
  cases w.mime.filter Extract.processable with
  | none => exact ⟨_, rfl⟩
  | some mime => exact assembleWaves_total hw hf

theorem assembleRest_waves {fuel : ℕ} {w : Walk Link} {mime : Text} (hm : w.mime = some mime)
    (hp : Extract.processable mime = true) :
    assembleRest cfg host net fuel root offset w = assembleWaves cfg host net fuel root offset mime w := by
  unfold assembleRest
  rw [hm, Option.filter_some, hp, if_pos rfl]

theorem assembleFile_eq {fuel calls : ℕ} {names : List Text} (hk : ∀ w, (started root calls names).sniffed host = .inl w →
      w.mime.any (fun mime => !Extract.processable mime) = false) :
    assembleFile cfg host net fuel root offset calls names =
      (serially cfg host net offset fuel (started root calls names)).bind
        (Sum.elim (assembleRest cfg host net fuel root offset) some) := by
  unfold assembleFile serially
  cases hs : (started root calls names).sniffed host with
  | inr a => rfl
  | inl w =>
    simp only [hk w hs, Bool.false_eq_true, if_false, Sum.elim_inl]
    cases Loop.iterate (serialStep cfg host net offset) fuel w with
    | none => rfl
    | some r => cases r <;> rfl

/-- How a file comes to be assembled. -/
inductive AssembledBy (cfg : Settings) (host : Host) (net : Network) (fuel : ℕ) (root : Node) (offset calls : ℕ)
    (names : List Text) (a : Assembled) : Prop
  | raised {e : Error} (begun : (started root calls names).sniffed host = .inr a)
      (same : a = (started root calls names).ended (.error e))
  | unworthy {w : Walk Link} {mime : Text} (begun : (started root calls names).sniffed host = .inl w)
      (known : w.mime = some mime) (unworthy : Extract.processable mime = false)
      (same : a = w.ended (.ok (w.out.take cfg.maxBytes, false)))
  | stopped {w : Walk Link} (begun : (started root calls names).sniffed host = .inl w)
      (run : Loop.iterate (serialStep cfg host net offset) fuel w = some (.inr a))
  | went {w v : Walk Link} (begun : (started root calls names).sniffed host = .inl w)
      (run : Loop.iterate (serialStep cfg host net offset) fuel w = some (.inl v))
      (rest : assembleRest cfg host net fuel root offset v = some a)

theorem assembleFile_cases {fuel calls : ℕ} {names : List Text} {a : Assembled}
    (ha : assembleFile cfg host net fuel root offset calls names = some a) :
    AssembledBy cfg host net fuel root offset calls names a := by
  unfold assembleFile at ha
  cases hs : (started root calls names).sniffed host with
  | inr b =>
    rw [hs] at ha
    obtain rfl := Option.some.inj ha
    obtain ⟨-, e, -, hb⟩ := sniffed_inr hs
    exact .raised hs hb
  | inl w =>
    rw [hs] at ha
    dsimp only at ha
    split_ifs at ha with hk
    · obtain ⟨mime, hm, hnot⟩ := some_of_any hk
      exact .unworthy hs hm (by simpa using hnot) (Option.some.inj ha).symm
    · cases hi : Loop.iterate (serialStep cfg host net offset) fuel w with
      | none =>
        rw [hi] at ha
        cases ha
      | some r =>
        rw [hi] at ha
        cases r with
        | inl v => exact .went hs hi ha
        | inr b =>
          obtain rfl : b = a := Option.some.inj ha
          exact .stopped hs hi

theorem assembleFile_early (cfg : Settings) (net : Network) (offset fuel : ℕ) {calls : ℕ} {names : List Text} {w : Walk Link}
    (hs : (started root calls names).sniffed host = .inl w)
    (hk : w.mime.any (fun mime => !Extract.processable mime) = true) :
    sniffMin ≤ root.inlineData.length ∧ ∃ a, assembleFile cfg host net fuel root offset calls names = some a ∧
      a.requested = [] := by
  obtain ⟨-, rfl⟩ | ⟨hlen, mime, -, rfl⟩ := sniffed_inl hs
  · simp [started] at hk
  · refine ⟨hlen, ({ started root calls names with mime := some mime } : Walk Link).ended
      (.ok ((started root calls names).out.take cfg.maxBytes, false)), ?_, rfl⟩
    unfold assembleFile
    simp only [hs, hk, if_true]

theorem settled_counted {w : Walk Link} {k : ℕ} {o : Option (Bytes × List Text)} {r : Walk Link ⊕ Assembled} {fuel : ℕ}
    {a : Assembled} (hset : Settled host w k o r) (hw : w.requested = []) (hu : w.used = 0)
    (h : r.elim (assembleRest cfg host net fuel root offset) some = some a) :
    k ≤ a.requested.length ∧ a.requested.length ≤ max k (capFor cfg a.mime) ∧
      ∀ m, a.mime = some m ↔ ∃ p, o = some p ∧ sniff host p.1 p.2 = .ok m := by
  have hreq := hset.requested
  rw [hw, List.length_nil, Nat.zero_add] at hreq
  cases r with
  | inl w' =>
    have hused := hset.used w' rfl
    rw [hu, Nat.zero_add] at hused
    simp only [Sum.elim_inl] at hreq h
    have hc := assembleRest_counted (hreq.trans hused.symm) h
    rw [hused] at hc
    rw [hc.mime_eq]
    exact ⟨hc.low, hc.high, hset.mime⟩
  | inr a' =>
    simp only [Sum.elim_inr, Option.some.injEq] at hreq h
    subst h
    exact ⟨hreq.ge, by omega, hset.mime⟩

variable (cfg host net offset root) in
/-- Within the cap of its type the first bytes of the file are gathered, or the links run out or a block is
missing. -/
def SettlesInTime (calls : ℕ) (names : List Text) : Prop :=
  (firstBytes cfg host net offset cfg.maxChildBlocks calls root.inlineData root.links names).isSome ∨
    ∃ p, firstBytes cfg host net offset cfg.maxPdfChildBlocks calls root.inlineData root.links names = some (some p) ∧
      sniff host p.1 p.2 = .ok pdf

theorem settlesInTime_iff {calls : ℕ} {names : List Text} :
    SettlesInTime cfg host net offset root calls names ↔
      ∃ n o, firstBytes cfg host net offset n calls root.inlineData root.links names = some o ∧
        (n ≤ cfg.maxChildBlocks ∨ n ≤ cfg.maxPdfChildBlocks ∧ ∃ p, o = some p ∧ sniff host p.1 p.2 = .ok pdf) := by
  constructor
  · rintro (h | ⟨p, hp, hpdf⟩)
    · obtain ⟨o, ho⟩ := Option.isSome_iff_exists.mp h
      exact ⟨_, o, ho, Or.inl le_rfl⟩
    · exact ⟨_, some p, hp, Or.inr ⟨le_rfl, p, rfl, hpdf⟩⟩
  · rintro ⟨n, o, ho, hn | ⟨hn, p, rfl, hpdf⟩⟩
    · exact Or.inl (by rw [firstBytes_mono hn ho]; rfl)
    · exact Or.inr ⟨p, firstBytes_mono hn ho, hpdf⟩

theorem settlesInTime_of_short {calls : ℕ} {names : List Text} (h : sniffMin ≤ root.inlineData.length) :
    SettlesInTime cfg host net offset root calls names :=
  Or.inl (by rw [firstBytes_gathered h]; rfl)

/-- One assembly keeps to the cap of the sniffed type, and so ends, exactly if its first bytes settle in time. -/
theorem assembleFile_capped_iff (cfg : Settings) (host : Host) (net : Network) (root : Node) (offset calls : ℕ)
    (names : List Text) :
    (∃ fuel a, assembleFile cfg host net fuel root offset calls names = some a ∧ Capped cfg a) ↔
      SettlesInTime cfg host net offset root calls names := by
  by_cases he : ∃ w, (started root calls names).sniffed host = .inl w ∧
      w.mime.any (fun mime => !Extract.processable mime) = true
  · obtain ⟨w, hs, hk⟩ := he
    obtain ⟨hlen, a, ha, hreq⟩ := assembleFile_early cfg net offset 0 hs hk
    refine iff_of_true ⟨0, a, ha, ?_⟩ (settlesInTime_of_short hlen)
    simp [Capped, hreq]
  · have hk (w : Walk Link) (hs : (started root calls names).sniffed host = .inl w) :
        w.mime.any (fun mime => !Extract.processable mime) = false := by
      by_contra h
      exact he ⟨w, hs, by simpa using h⟩
    rw [settlesInTime_iff]
    constructor
    · rintro ⟨fuel, a, ha, hcap⟩
      rw [assembleFile_eq hk] at ha
      obtain ⟨r, hr, hend⟩ := Option.bind_eq_some_iff.mp ha
      obtain ⟨k, o, ho, hset⟩ := firstBytes_of_serially rfl hr
      obtain ⟨hlow, -, hmime⟩ := settled_counted hset rfl rfl hend
      refine ⟨k, o, ho, ?_⟩
      unfold Capped capFor at hcap
      split_ifs at hcap with hpdf
      · exact Or.inr ⟨by omega, (hmime pdf).mp hpdf⟩
      · exact Or.inl (by omega)
    · rintro ⟨n, o, ho, hn⟩
      obtain ⟨k, hkn, r, hr, hset⟩ := serially_of_firstBytes (w := started root calls names) rfl ho
      let fuel := max (n + 1) (cfg.maxPdfChildBlocks + 1)
      have hr' := serially_mono (Nat.le_max_left (n + 1) (cfg.maxPdfChildBlocks + 1)) hr
      have htotal : ∃ a, r.elim (assembleRest cfg host net fuel root offset) some = some a := by
        cases r with
        | inl w' =>
          have hreq := hset.requested
          have hused := hset.used w' rfl
          apply assembleRest_total
          · simp only [Sum.elim_inl, started, List.length_nil] at hreq hused
            omega
          · exact lt_of_lt_of_le (Nat.lt_succ_self _) (Nat.le_max_right _ _)
        | inr a => exact ⟨a, rfl⟩
      obtain ⟨a, ha⟩ := htotal
      obtain ⟨-, hhigh, hmime⟩ := settled_counted hset rfl rfl ha
      refine ⟨fuel, a, ?_, ?_⟩
      · rw [assembleFile_eq hk, hr', Option.bind_some, ha]
      · have hle := maxChildBlocks_le_capFor cfg a.mime
        unfold Capped
        obtain hn | ⟨hn, hpdf⟩ := hn
        · omega
        · have hcap : capFor cfg a.mime = cfg.maxPdfChildBlocks := if_pos ((hmime pdf).mpr hpdf)
          omega

end Assemblies

section Samples

def asciiChars : Unicode where
  upper t := t.map fun c => if 97 ≤ c ∧ c ≤ 122 then c - 32 else c
  lower t := t.map lowerAscii
  digit := isDigit

def emptyBlock : Bytes := []

def sampleHost (digests : List (Bytes × ℕ)) : Host where
  py := ⟨60, 60, 60, 60, fun c => 32 ≤ c && c < 127⟩
  chars := asciiChars
  sha256 block := Cid.bigEndian 32 ((digests.lookup block).getD 0)

def emptyHost : Host :=
  sampleHost [(emptyBlock, 0xe3b0c44298fc1c149afbf4c8996fb92427ae41e4649b934ca495991b7852b855)]

def emptyNetwork : Network := fun _ => ⟨.reply 200 emptyBlock, fun _ => .reply 200 emptyBlock⟩

def emptyLeaves : Node where
  unixfsType := some (txt "file")
  links := List.replicate 7 ⟨none, txt "bafkreihdwdcefgh4dqkjv67uzcmw7ojee6xedzdetojuzjevtenxquvyku"⟩

theorem emptyLeaves_exceed :
    (assembleFile {} emptyHost emptyNetwork 9 emptyLeaves 0 1 []).any (fun a =>
      a.mime = none && a.requested.length = 7 && !decide (Capped {} a)) = true := by
  decide +kernel

end Samples

end ObserverClub.Fetch
