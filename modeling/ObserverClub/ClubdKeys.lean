import ObserverClub.Cid
import ObserverClub.ClubdRuns
import ObserverClub.Library.Window
import Mathlib.Algebra.Order.Group.Int

namespace ObserverClub.Clubd

open Library Library.Window

variable (node : Node)

def keyOf (publisher : Text) : Option Bytes :=
  (node.decodePeer publisher).bind fun pid => (node.peerstore pid).or (node.extractPublicKey pid)

/-- A message, how long after the last one it comes, how long after that each reading of the clock is, and
whether the inbox can be written. -/
structure Delivery where
  data : Bytes
  wait : ℕ
  took : ℕ → ℕ
  writable : Bool
  cut : Option ℕ

def Delivery.readings (d : Delivery) (clock : Time) (n : ℕ) : Reading :=
  ⟨clock + d.wait + d.took (2 * n), clock + d.wait + d.took (2 * n + 1), d.writable, d.cut⟩

def Delivery.ended (d : Delivery) (clock : Time) : Time := clock + d.wait + (List.range 8).foldr (fun n t => max (d.took n) t) 0

def Delivery.checked (d : Delivery) (clock : Time) : Time := (d.readings clock 1).now

structure Wire where
  daemon : Daemon
  clock : Time
  appended : List (Text × Time)

def publisherOf (data : Bytes) : Text :=
  match verify node data with
  | .ok m => Go.stringOf m "publisher"
  | .error _ => []

def deliver (s : Wire) (d : Delivery) : Wire :=
  let r := (acceptGossip node d.data true).alone exec (d.readings s.clock) s.daemon
  ⟨r.2, d.ended s.clock,
    if r.1 = .appended then s.appended ++ [(publisherOf node d.data, d.checked s.clock)] else s.appended⟩

def started (rate : ℤ) (clock : Time) : Wire := ⟨(start rate []).shared, clock, []⟩

def Live (claims : Claims.ClaimTracker) (now : Time) (publisher : Text) : Prop :=
  ∃ slot, claims.live publisher = some slot ∧ now < slot.untilTime

/-- No key exceeds the rate, and none holds two live claims. -/
structure OnePublisher (s : Wire) : Prop where
  rate : ∀ pk, Spaced s.daemon.limiter.window s.daemon.limiter.max.toNat
    ((s.appended.filter (fun e => keyOf node e.1 = some pk)).map Prod.snd)
  claim : ∀ pk now p q, keyOf node p = some pk → keyOf node q = some pk → Live s.daemon.claims now p →
    Live s.daemon.claims now q → p = q

/-- Messages that verify under one key name their publisher in one way. -/
def Consistent (ds : List Delivery) : Prop :=
  ∀ a ∈ ds, ∀ b ∈ ds, ∀ m m', verify node a.data = .ok m → verify node b.data = .ok m' →
    keyOf node (Go.stringOf m "publisher") = keyOf node (Go.stringOf m' "publisher") →
    Go.stringOf m "publisher" = Go.stringOf m' "publisher"

section Deliver

variable {node} {s : Wire} {d : Delivery}

structure Effects (s d : Daemon) (m : Go.Value) (time : Time) (o : Outcome) : Prop where
  window : d.limiter.window = s.limiter.window
  max : d.limiter.max = s.limiter.max
  others : ∀ q ≠ Go.stringOf m "publisher", d.limiter.hits q = s.limiter.hits q
  kept : ∀ later, time ≤ later → recent s.limiter.window later (s.limiter.hits (Go.stringOf m "publisher")) ≤
    recent s.limiter.window later (d.limiter.hits (Go.stringOf m "publisher"))
  counted : o = .appended →
    recent s.limiter.window time (s.limiter.hits (Go.stringOf m "publisher")) < s.limiter.max.toNat ∧
    ∀ later, time ≤ later → recent s.limiter.window later (s.limiter.hits (Go.stringOf m "publisher") ++ [time]) ≤
      recent s.limiter.window later (d.limiter.hits (Go.stringOf m "publisher"))
  claims : ∀ q, q ≠ Go.stringOf m "publisher" → d.claims.live q = s.claims.live q

theorem claims_policy (now now' : Time) (claims : Claims.ClaimTracker) (m : Go.Value) (q : Text)
    (h : q ≠ Go.stringOf m "publisher") : (applyClaimPolicy now now' claims m).2.live q = claims.live q := by
  rw [applyClaimPolicy]
  split
  · rw [Claims.allow]
    split
    · rfl
    · split
      · rfl
      · split
        · split
          · rfl
          · exact Function.update_of_ne h _ _
        · exact Function.update_of_ne h _ _
  · split
    · simp only [Claims.clear]
      split
      · rfl
      · split
        · split
          · exact Function.update_of_ne h _ _
          · rfl
        · rfl
    · rfl

def withHits (l : Limit.Limiter) (p : Text) (ts : List Time) : Limit.Limiter :=
  { l with hits := Function.update l.hits p ts }

@[simp] theorem withHits_self (l : Limit.Limiter) (p : Text) (ts : List Time) : (withHits l p ts).hits p = ts :=
  Function.update_self _ _ _

theorem withHits_ne (l : Limit.Limiter) {p q : Text} (ts : List Time) (h : q ≠ p) :
    (withHits l p ts).hits q = l.hits q := Function.update_of_ne h _ _

theorem allow_cases (now : Time) (l : Limit.Limiter) (p : Text) :
    Limit.allow now l p = (false, l) ∨ Limit.allow now l p = (false, withHits l p (Limit.kept now l p)) ∨
    ((Limit.kept now l p).length < l.max.toNat ∧
      Limit.allow now l p = (true, withHits l p (Limit.kept now l p ++ [now]))) := by
  rw [Limit.allow]
  split
  · exact .inl rfl
  · split
    · exact .inr (.inl rfl)
    · exact .inr (.inr ⟨by omega, rfl⟩)

theorem duplicate_fields (now : Time) (l : Limit.Limiter) (h : Text) :
    (Limit.duplicate now l h).2.hits = l.hits ∧ (Limit.duplicate now l h).2.window = l.window ∧
      (Limit.duplicate now l h).2.max = l.max := by
  obtain ⟨-, hd⟩ | ⟨-, hd⟩ | ⟨-, hd⟩ := Limit.duplicate_cases now l h <;> rw [hd] <;> exact ⟨rfl, rfl, rfl⟩

theorem effects_of_limiter {m : Go.Value} {time : Time} {o : Outcome} {d d' : Daemon} (hw : d'.limiter.window = d.limiter.window)
    (hm : d'.limiter.max = d.limiter.max) (hh : d'.limiter.hits = d.limiter.hits) (hc : d'.claims = d.claims)
    (ho : o ≠ .appended) : Effects d d' m time o where
  window := hw
  max := hm
  others := fun q _ => by rw [hh]
  kept := fun later _ => by rw [hh]
  counted := fun h => absurd h ho
  claims := fun q _ => by rw [hc]

variable (node) in
theorem admitRest_effects (data : Bytes) (m : Go.Value) (readings : ℕ → Reading) (s : Daemon) :
    ((admitRest node data m).alone exec readings s).2.limiter = s.limiter ∧
      ∀ q, q ≠ Go.stringOf m "publisher" →
        ((admitRest node data m).alone exec readings s).2.claims.live q = s.claims.live q := by
  simp only [admitRest, Program.alone]
  cases (exec (.applyClaimPolicy m) (readings 0) s).1 with
  | false => exact ⟨rfl, fun q hq => claims_policy _ _ _ _ q hq⟩
  | true =>
    simp only [Bool.not_true, Bool.false_eq_true, if_false, Program.alone, exec]
    split <;> exact ⟨rfl, fun q hq => claims_policy _ _ _ _ q hq⟩

theorem kept_eq_filter (now : Time) (l : Limit.Limiter) (p : Text) :
    (Limit.kept now l p).length = recent l.window now (l.hits p) := List.countP_eq_length_filter.symm

theorem deliver_effects {m : Go.Value} (h : verify node d.data = .ok m) (clock : Time) (s : Daemon) :
    Effects s ((acceptGossip node d.data true).alone exec (d.readings clock) s).2 m (d.checked clock)
      ((acceptGossip node d.data true).alone exec (d.readings clock) s).1 := by
  rw [acceptGossip, h]
  simp only [Program.alone, if_true]
  obtain ⟨hh, hw, hm⟩ := duplicate_fields (d.readings clock 0).now s.limiter (payloadHash node (Canon.marshal m))
  cases (exec (.duplicate (payloadHash node (Canon.marshal m))) (d.readings clock 0) s).1 with
  | true => exact effects_of_limiter hw hm hh rfl (by simp [Program.alone])
  | false =>
    simp only [Bool.false_eq_true, if_false, Program.alone]
    generalize hs₁ : (exec (.duplicate (payloadHash node (Canon.marshal m))) (d.readings clock 0) s).2 = s₁
    have hl : s₁.limiter = (Limit.duplicate (d.readings clock 0).now s.limiter (payloadHash node (Canon.marshal m))).2 := by
      rw [← hs₁]
      rfl
    have hc : s₁.claims = s.claims := by
      rw [← hs₁]
      rfl
    rw [← hl] at hh hw hm
    have hallow : exec (.allow (Go.stringOf m "publisher")) (d.readings clock 1) s₁ =
      ((Limit.allow (d.checked clock) s₁.limiter (Go.stringOf m "publisher")).1,
        { s₁ with limiter := (Limit.allow (d.checked clock) s₁.limiter (Go.stringOf m "publisher")).2 }) := rfl
    rw [hallow]
    have hkept : Limit.kept (d.checked clock) s₁.limiter (Go.stringOf m "publisher") =
        (s.limiter.hits (Go.stringOf m "publisher")).filter (fun t => d.checked clock - s.limiter.window < t) := by
      rw [Limit.kept, hh, hw]
    have hrecent : ∀ later, d.checked clock ≤ later →
        recent s.limiter.window later (Limit.kept (d.checked clock) s₁.limiter (Go.stringOf m "publisher")) =
          recent s.limiter.window later (s.limiter.hits (Go.stringOf m "publisher")) := by
      intro later hlater
      rw [hkept, recent_filter hlater]
    obtain ha | ha | ⟨hlt, ha⟩ := allow_cases (d.checked clock) s₁.limiter (Go.stringOf m "publisher")
    · rw [ha]
      exact effects_of_limiter hw hm hh hc (by simp [Program.alone])
    · rw [ha]
      simp only [Bool.not_false, if_true, Program.alone]
      constructor
      · exact hw
      · exact hm
      · intro q hq
        exact (withHits_ne _ _ hq).trans (congrFun hh q)
      · intro later hlater
        rw [withHits_self, hrecent later hlater]
      · exact fun h => absurd h (by simp)
      · exact fun q _ => congrArg (fun c => c.live q) hc
    · rw [ha]
      simp only [Bool.not_true, Bool.false_eq_true, if_false]
      obtain ⟨hlim, hclaims⟩ := admitRest_effects node d.data m (fun n => d.readings clock (n + 1 + 1))
        ⟨withHits s₁.limiter (Go.stringOf m "publisher")
          (Limit.kept (d.checked clock) s₁.limiter (Go.stringOf m "publisher") ++ [d.checked clock]),
          s₁.claims, s₁.inbox, s₁.stored, s₁.sent⟩
      constructor
      · rw [hlim]
        exact hw
      · rw [hlim]
        exact hm
      · intro q hq
        rw [hlim]
        exact (withHits_ne _ _ hq).trans (congrFun hh q)
      · intro later hlater
        rw [hlim, withHits_self, recent_append, hrecent later hlater]
        exact Nat.le_add_right _ _
      · intro _
        constructor
        · rw [← hm, ← hw, ← hh, ← kept_eq_filter]
          exact hlt
        · intro later hlater
          rw [hlim, withHits_self, recent_append, recent_append, hrecent later hlater]
      · intro q hq
        rw [hclaims q hq]
        exact congrArg (fun c => c.live q) hc

theorem foldr_max_ge (f : ℕ → ℕ) (ns : List ℕ) {n : ℕ} (h : n ∈ ns) : f n ≤ ns.foldr (fun n t => max (f n) t) 0 := by
  induction ns with
  | nil => cases h
  | cons k ns ih =>
    rw [List.foldr_cons]
    obtain rfl | h := List.mem_cons.mp h
    · exact le_max_left _ _
    · exact (ih h).trans (le_max_right _ _)

theorem clock_le_ended (d : Delivery) (clock : Time) : clock ≤ d.ended clock := by
  exact le_add_of_le_of_nonneg (le_add_of_nonneg_right (Int.natCast_nonneg _)) (Int.natCast_nonneg _)

theorem checked_le_ended (d : Delivery) (clock : Time) : d.checked clock ≤ d.ended clock := by
  have h := foldr_max_ge d.took (List.range 8) (n := 2) (by decide)
  exact Int.add_le_add_left (Int.ofNat_le.mpr h) _

theorem clock_le_checked (d : Delivery) (clock : Time) : clock ≤ d.checked clock := by
  exact le_add_of_le_of_nonneg (le_add_of_nonneg_right (Int.natCast_nonneg _)) (Int.natCast_nonneg _)

end Deliver

section Metered

def Wire.times (s : Wire) (p : Text) : List Time := (s.appended.filter (fun e => e.1 = p)).map Prod.snd

/-- Each publisher string on its own keeps to the rate; `S` holds of the strings that have been heard. -/
structure Metered (S : Text → Prop) (s : Wire) : Prop where
  hits : ∀ p later, s.clock ≤ later →
    recent s.daemon.limiter.window later (s.times p) ≤ recent s.daemon.limiter.window later (s.daemon.limiter.hits p)
  spaced : ∀ p, Spaced s.daemon.limiter.window s.daemon.limiter.max.toNat (s.times p)
  heard : ∀ e ∈ s.appended, S e.1
  slots : ∀ p, s.daemon.claims.live p ≠ none → S p

theorem started_metered (S : Text → Prop) (rate : ℤ) (clock : Time) : Metered S (started rate clock) where
  hits := fun _ _ _ => Nat.zero_le _
  spaced := fun _ => .nil _ _
  heard := by simp [started]
  slots := by simp [started, start, Claims.new]

variable {node}

theorem deliver_metered {S : Text → Prop} {s : Wire} {d : Delivery} (h : Metered S s)
    (hS : ∀ m, verify node d.data = .ok m → S (Go.stringOf m "publisher")) : Metered S (deliver node s d) := by
  cases hv : verify node d.data with
  | error e =>
    have hd : deliver node s d = ⟨s.daemon, d.ended s.clock, s.appended⟩ := by
      simp [deliver, acceptGossip, hv, Program.alone]
    rw [hd]
    exact ⟨fun p later hl => h.hits p later ((clock_le_ended d s.clock).trans hl), h.spaced, h.heard, h.slots⟩
  | ok m =>
    have he := deliver_effects hv s.clock s.daemon
    have hpub : publisherOf node d.data = Go.stringOf m "publisher" := by rw [publisherOf, hv]
    rw [deliver, hpub]
    generalize (acceptGossip node d.data true).alone exec (d.readings s.clock) s.daemon = r at he
    have hslots : ∀ p, r.2.claims.live p ≠ none → S p := by
      intro p hp
      by_cases hq : p = Go.stringOf m "publisher"
      · rw [hq]
        exact hS m hv
      · rw [he.claims p hq] at hp
        exact h.slots p hp
    have hclock := (clock_le_checked d s.clock).trans (checked_le_ended d s.clock)
    by_cases ho : r.1 = .appended
    · obtain ⟨hroom, hcounted⟩ := he.counted ho
      have htimes : ∀ p, (Wire.times ⟨r.2, d.ended s.clock, s.appended ++ [(Go.stringOf m "publisher", d.checked s.clock)]⟩ p) =
          if p = Go.stringOf m "publisher" then s.times p ++ [d.checked s.clock] else s.times p := by
        intro p
        by_cases hp : p = Go.stringOf m "publisher"
        · simp [Wire.times, hp]
        · simp [Wire.times, hp, Ne.symm hp]
      simp only [ho, if_true]
      constructor
      · intro p later hl
        rw [htimes, he.window]
        split
        next hp =>
          rw [hp]
          refine le_trans ?_ (hcounted later ((checked_le_ended d s.clock).trans hl))
          rw [recent_append, recent_append]
          exact Nat.add_le_add_right (h.hits _ later (hclock.trans hl)) _
        next hp =>
          rw [he.others p hp]
          exact h.hits p later (hclock.trans hl)
      · intro p
        rw [htimes, he.window, he.max]
        split
        next hp =>
          apply (h.spaced p).append
          rw [hp]
          exact (h.hits _ _ (clock_le_checked d s.clock)).trans_lt hroom
        next => exact h.spaced p
      · intro e hmem
        obtain hmem | hmem := List.mem_append.mp hmem
        · exact h.heard e hmem
        · rw [List.mem_singleton.mp hmem]
          exact hS m hv
      · exact hslots
    · simp only [ho, if_false]
      constructor
      · intro p later hl
        rw [he.window]
        refine (h.hits p later (hclock.trans hl)).trans ?_
        by_cases hp : p = Go.stringOf m "publisher"
        · rw [hp]
          exact he.kept later ((checked_le_ended d s.clock).trans hl)
        · rw [he.others p hp]
      · intro p
        rw [he.window, he.max]
        exact h.spaced p
      · exact h.heard
      · exact hslots

end Metered

theorem one_publisher (rate : ℤ) (clock : Time) (ds : List Delivery) (hc : Consistent node ds) :
    OnePublisher node (run (deliver node) (started rate clock) ds) := by
  have h : Metered (fun p => ∃ d ∈ ds, ∃ m, verify node d.data = .ok m ∧ Go.stringOf m "publisher" = p)
      (run (deliver node) (started rate clock) ds) :=
    run_invariant (P := fun _ d => d ∈ ds)
      (fun s d hs hd => deliver_metered hs fun m hm => ⟨d, hd, m, hm, rfl⟩) (started_metered _ rate clock)
      (along_of_forall fun d hd _ => hd)
  generalize run (deliver node) (started rate clock) ds = s at h
  have hone : ∀ p q pk, (∃ d ∈ ds, ∃ m, verify node d.data = .ok m ∧ Go.stringOf m "publisher" = p) →
      (∃ d ∈ ds, ∃ m, verify node d.data = .ok m ∧ Go.stringOf m "publisher" = q) → keyOf node p = some pk →
      keyOf node q = some pk → p = q := by
    rintro p q pk ⟨a, ha, m, hm, rfl⟩ ⟨b, hb, m', hm', rfl⟩ hp hq
    exact hc a ha b hb m m' hm hm' (hp.trans hq.symm)
  constructor
  · intro pk
    by_cases hex : ∃ e ∈ s.appended, keyOf node e.1 = some pk
    · obtain ⟨e, he, hk⟩ := hex
      have heq : s.appended.filter (fun e => keyOf node e.1 = some pk) = s.appended.filter (fun f => f.1 = e.1) := by
        apply List.filter_congr
        intro f hf
        simp only [decide_eq_decide]
        constructor
        · exact fun hkf => hone _ _ pk (h.heard f hf) (h.heard e he) hkf hk
        · intro hfe
          rw [hfe]
          exact hk
      rw [heq]
      exact h.spaced e.1
    · have heq : s.appended.filter (fun e => keyOf node e.1 = some pk) = [] := by
        rw [List.filter_eq_nil_iff]
        intro e he hk
        exact hex ⟨e, he, by simpa using hk⟩
      rw [heq]
      exact .nil _ _
  · rintro pk now p q hp hq ⟨slot, hs, -⟩ ⟨slot', hs', -⟩
    exact hone p q pk (h.slots p (by rw [hs]; simp)) (h.slots q (by rw [hs']; simp)) hp hq

section Sample

def samplePeer (t : Text) : Option Bytes :=
  if t.take 1 = txt "1" then Cid.b58decode t
  else if t.take 5 = txt "f0172" then Go.hexDecode (t.drop 5)
  else none

def keyNode : Node :=
  { sampleNode with
    decodePeer := samplePeer
    extractPublicKey := fun pid => if pid.take 6 = [0x00, 0x24, 0x08, 0x01, 0x12, 0x20] then some (pid.drop 6) else none }

def keyBytes : Bytes := (List.range 32).map fun n => UInt8.ofNat (n + 1)

def base58Name : String := "12D3KooW9tJMax94Lrqw7Y5Qw36viGQAS2gTEPQ5Wg1vTk7xPfQs"

def base16Name : String := "f0172002408011220" ++ "0102030405060708090a0b0c0d0e0f101112131415161718191a1b1c1d1e1f20"

def claimObject (publisher cid : String) : Go.Value :=
  .obj [(txt "cid", .str (txt cid)), (txt "kind", .str (txt "claim")), (txt "publisher", .str (txt publisher)),
    (txt "until", .num (txt "4000000000")), (txt "v", .num (txt "1"))]

def claimDelivery (publisher cid : String) : Delivery where
  data := Go.jsonMarshal (Go.setItem (claimObject publisher cid) "sig"
    (.str (hexText (sampleSum 64 (keyBytes ++ Canon.marshal (claimObject publisher cid))))))
  wait := 1
  took := fun n => n
  writable := true
  cut := none

theorem publisherOf_of_verify {data : Bytes} {m : Go.Value} (h : verify node data = .ok m) :
    publisherOf node data = Go.stringOf m "publisher" := by rw [publisherOf, h]

theorem one_publisher_claims :
    Consistent keyNode [claimDelivery base58Name "f0155000100", claimDelivery base58Name "f0155000101"] ∧
    OnePublisher keyNode (run (deliver keyNode) (started 1 0)
      [claimDelivery base58Name "f0155000100", claimDelivery base58Name "f0155000101"]) := by
  have hc : Consistent keyNode [claimDelivery base58Name "f0155000100", claimDelivery base58Name "f0155000101"] := by
    have hname : ∀ d ∈ [claimDelivery base58Name "f0155000100", claimDelivery base58Name "f0155000101"],
        publisherOf keyNode d.data = txt base58Name := by decide +kernel
    intro a ha b hb m m' hm hm' _
    rw [← publisherOf_of_verify keyNode hm, ← publisherOf_of_verify keyNode hm', hname a ha, hname b hb]
  exact ⟨hc, one_publisher keyNode 1 0 _ hc⟩

theorem not_one_publisher :
    ¬OnePublisher keyNode (run (deliver keyNode) (started 1 0)
      [claimDelivery base58Name "f0155000100", claimDelivery base16Name "f0155000101"]) ∧
    keyOf keyNode (txt base58Name) = some keyBytes ∧ keyOf keyNode (txt base16Name) = some keyBytes ∧
    ∀ name ∈ [base58Name, base16Name], Live (run (deliver keyNode) (started 1 0)
      [claimDelivery base58Name "f0155000100", claimDelivery base16Name "f0155000101"]).daemon.claims 1000 (txt name) := by
  refine ⟨?_, by decide +kernel, by decide +kernel, ?_⟩
  · intro h
    have := h.rate keyBytes 0
    revert this
    decide +kernel
  · intro name hname
    have hlive : ((run (deliver keyNode) (started 1 0) [claimDelivery base58Name "f0155000100",
        claimDelivery base16Name "f0155000101"]).daemon.claims.live (txt name)).any (fun slot => decide (1000 < slot.untilTime)) =
        true := by
      simp only [List.mem_cons, List.not_mem_nil, or_false] at hname
      obtain rfl | rfl := hname <;> decide +kernel
    obtain ⟨slot, hs, hl⟩ := some_of_any hlive
    exact ⟨slot, hs, by simpa using hl⟩

end Sample

end ObserverClub.Clubd
