import ObserverClub.Publishing

namespace ObserverClub.Clubd

open Library

variable (node : Node) (request : Request) (r : ℕ → Reading) (d : Daemon)

/-- `handlePublish` on its own; the readings are those of its actions, in turn. -/
def publish : Outcome × Daemon := (handlePublish node request).alone exec r d

structure Untouched (d d' : Daemon) : Prop where
  inbox : d'.inbox = d.inbox
  stored : d'.stored = d.stored
  claims : d'.claims = d.claims
  hashes : d'.limiter.hashes = d.limiter.hashes

/-- A publish that ends in an error has changed nothing. -/
def Traceless : Prop := ∀ status e, (publish node request r d).1 = .failed status e →
  Untouched d (publish node request r d).2

def Noted (m : Go.Value) : Prop :=
  payloadHash node (Canon.marshal m) = [] ∨ Limit.Seen d.limiter (payloadHash node (Canon.marshal m))

/-- Once it is signed and admitted, the message is written and sent, or there was nothing to change but the inbox
and nothing of the message is written. -/
def Covered : Prop := ∀ m sig, prepare node request = .ok m → node.sign (Canon.marshal m) = some sig →
  Admits (r 0).now (r 0).now' d.claims m →
    (r 2).ok = true ∧ (r 3).ok = true ∨ (r 2).ok = false ∧ (r 2).cut.getD 0 = 0 ∧ Idle d.claims m ∧ Noted node d m

def lineOf (m : Go.Value) (sig : Bytes) : Bytes := Go.jsonMarshal (Go.setItem m "sig" (.str (hexText sig)))

variable {node request r d}

theorem publish_refused {status : ℕ} {e : Refusal} (h : prepare node request = .error (status, e)) :
    publish node request r d = (.failed status e, d) := by
  rw [publish, handlePublish, h]
  rfl

theorem publish_unsigned {m : Go.Value} (h : prepare node request = .ok m) (hs : node.sign (Canon.marshal m) = none) :
    publish node request r d = (.failed 500 .signing, d) := by
  rw [publish, handlePublish, h]
  dsimp only
  rw [hs]
  rfl

section Signed

variable {m : Go.Value} {sig : Bytes}

theorem publish_signed (h : prepare node request = .ok m) (hs : node.sign (Canon.marshal m) = some sig) :
    publish node request r d = ((.act (.applyClaimPolicy m) fun admitted =>
      if !admitted then .done (.failed 429 .claimInFlight)
      else .act (.duplicate (payloadHash node (Canon.marshal m))) fun _ =>
        .act (.appendInbox ⟨payloadHash node (Canon.marshal m), lineOf m sig⟩) fun written =>
          if !written then .done (.failed 500 .inboxWrite)
          else .act (.broadcast (topicFor (Go.sprint (Go.item m "kind"))) (lineOf m sig)) fun sent =>
            .done (if sent then .published (lineOf m sig) else .failed 500 .broadcast) : Call).alone exec r d) := by
  rw [publish, handlePublish, h]
  dsimp only
  rw [hs]
  rfl

theorem lineOf_ne_nil (h : prepare node request = .ok m) (sig : Bytes) : lineOf m sig ≠ [] := by
  obtain ⟨-, ms, -, -, -, -, -, rfl⟩ := prepare_ok h
  exact List.cons_ne_nil _ _

theorem publish_busy (h : prepare node request = .ok m) (hs : node.sign (Canon.marshal m) = some sig)
    (hbusy : ¬Admits (r 0).now (r 0).now' d.claims m) : publish node request r d = (.failed 429 .claimInFlight, d) := by
  have hpolicy := applyClaimPolicy_refused hbusy
  rw [publish_signed h hs, Program.alone]
  simp only [exec, hpolicy, Bool.not_false, if_true, Program.alone]

def noted (node : Node) (r : ℕ → Reading) (d : Daemon) (m : Go.Value) (part : Bytes) : Daemon := { d with
  claims := (applyClaimPolicy (r 0).now (r 0).now' d.claims m).2
  limiter := (Limit.duplicate (r 1).now d.limiter (payloadHash node (Canon.marshal m))).2
  stored := d.stored ++ part }

theorem publish_unwritten (h : prepare node request = .ok m) (hs : node.sign (Canon.marshal m) = some sig)
    (hfree : Admits (r 0).now (r 0).now' d.claims m) (hok : (r 2).ok = false) :
    publish node request r d = (.failed 500 .inboxWrite, noted node r d m ((lineOf m sig).take ((r 2).cut.getD 0))) := by
  have hadmitted := (applyClaimPolicy_admitted hfree).1
  rw [publish_signed h hs, Program.alone]
  simp only [exec, hadmitted, Bool.not_true, Bool.false_eq_true, if_false, Program.alone, hok, Bool.not_false, if_true]
  rfl

theorem publish_written (h : prepare node request = .ok m) (hs : node.sign (Canon.marshal m) = some sig)
    (hfree : Admits (r 0).now (r 0).now' d.claims m) (hok : (r 2).ok = true) :
    (∃ e, (publish node request r d).2.inbox = d.inbox ++ [e]) ∧
      ((r 3).ok = false → (publish node request r d).1 = .failed 500 .broadcast) ∧
      ((r 3).ok = true → ∀ status e, (publish node request r d).1 ≠ .failed status e) := by
  have hadmitted := (applyClaimPolicy_admitted hfree).1
  rw [publish_signed h hs, Program.alone]
  simp only [exec, hadmitted, Bool.not_true, Bool.false_eq_true, if_false, Program.alone, hok, if_true]
  refine ⟨?_, ?_, ?_⟩
  · cases (r 3).ok <;> exact ⟨_, rfl⟩
  · intro hsent
    rw [hsent]
    rfl
  · intro hsent status e he
    rw [hsent] at he
    cases he

end Signed

theorem untouched_noted_iff {m : Go.Value} {part : Bytes} (hfree : Admits (r 0).now (r 0).now' d.claims m) :
    Untouched d (noted node r d m part) ↔ part = [] ∧ Idle d.claims m ∧ Noted node d m := by
  have hclaims := (applyClaimPolicy_admitted hfree).2
  have hhashes : (Limit.duplicate (r 1).now d.limiter (payloadHash node (Canon.marshal m))).2.hashes = d.limiter.hashes ↔
      Noted node d m := by
    rcases Limit.duplicate_cases (r 1).now d.limiter (payloadHash node (Canon.marshal m)) with
      ⟨he, hd⟩ | ⟨hs, hd⟩ | ⟨hs, hd⟩
    · rw [hd]
      exact iff_of_true rfl (.inl he)
    · rw [hd]
      exact iff_of_true rfl (.inr hs)
    · have hadded : (Limit.duplicate (r 1).now d.limiter (payloadHash node (Canon.marshal m))).2.hashes ≠ d.limiter.hashes := by
        rw [hd]
        intro he
        apply hs
        rw [Limit.Seen, ← he]
        exact ⟨_, List.mem_cons_self, rfl⟩
      apply iff_of_false hadded
      rintro (he | hseen)
      · apply hadded
        rw [Limit.duplicate, if_pos he]
      · exact hs hseen
  constructor
  · intro h
    exact ⟨List.append_right_eq_self.mp h.stored, hclaims.mp h.claims, hhashes.mp h.hashes⟩
  · rintro ⟨rfl, hidle, hnoted⟩
    exact ⟨rfl, List.append_nil _, hclaims.mpr hidle, hhashes.mpr hnoted⟩

/-- A publish leaves no trace where it fails, exactly where nothing can fail once the message is admitted, or
nothing has changed when the inbox is not written. -/
theorem traceless_iff (node : Node) (request : Request) (r : ℕ → Reading) (d : Daemon) :
    Traceless node request r d ↔ Covered node request r d := by
  have hsame : Untouched d d := ⟨rfl, rfl, rfl, rfl⟩
  have hpart {m : Go.Value} {sig : Bytes} (hm : prepare node request = .ok m) (n : ℕ) :
      (lineOf m sig).take n = [] ↔ n = 0 := by
    rw [List.take_eq_nil_iff]
    exact or_iff_left (lineOf_ne_nil hm sig)
  constructor
  · intro h m sig hm hs hfree
    cases hwrite : (r 2).ok with
    | false =>
      apply Or.inr
      have hrun := publish_unwritten hm hs hfree hwrite
      have huntouched := h 500 .inboxWrite (congrArg Prod.fst hrun)
      rw [hrun, untouched_noted_iff hfree, hpart hm] at huntouched
      exact ⟨rfl, huntouched⟩
    | true =>
      apply Or.inl
      obtain ⟨⟨e, hinbox⟩, hfailed, -⟩ := publish_written hm hs hfree hwrite
      cases hsend : (r 3).ok with
      | true => exact ⟨rfl, rfl⟩
      | false =>
        have huntouched := (h 500 .broadcast (hfailed hsend)).inbox
        rw [hinbox] at huntouched
        exact absurd huntouched (by simp)
  · intro h status e hfailed
    cases hm : prepare node request with
    | error refusal =>
      rw [publish_refused (e := refusal.2) hm]
      exact hsame
    | ok m =>
      cases hs : node.sign (Canon.marshal m) with
      | none =>
        rw [publish_unsigned hm hs]
        exact hsame
      | some sig =>
        by_cases hfree : Admits (r 0).now (r 0).now' d.claims m
        · rcases h m sig hm hs hfree with ⟨hwrite, hsend⟩ | ⟨hwrite, hnone, hidle⟩
          · exact absurd hfailed ((publish_written hm hs hfree hwrite).2.2 hsend status e)
          · rw [publish_unwritten hm hs hfree hwrite, untouched_noted_iff hfree, hpart hm]
            exact ⟨hnone, hidle⟩
        · rw [publish_busy hm hs hfree]
          exact hsame

section Sample

def claimRequest : Request where
  post := true
  body := some (ascii "\x7b\"kind\":\"claim\",\"cid\":\"f0155000100\",\"until\":64000000000\x7d")

def unsentReadings : ℕ → Reading := fun i => ⟨1000 * second, 1000 * second, decide (i < 3), none⟩

def emptyDaemon : Daemon := (start 60 []).shared

theorem not_traceless : (publish sampleNode claimRequest unsentReadings emptyDaemon).1 = .failed 500 .broadcast ∧
    ¬Traceless sampleNode claimRequest unsentReadings emptyDaemon := by
  have hfailed : (publish sampleNode claimRequest unsentReadings emptyDaemon).1 = .failed 500 .broadcast ∧
      (publish sampleNode claimRequest unsentReadings emptyDaemon).2.inbox.length = 1 := by decide +kernel
  refine ⟨hfailed.1, fun h => ?_⟩
  have hinbox := (h 500 .broadcast hfailed.1).inbox
  rw [hinbox] at hfailed
  exact absurd hfailed.2 (by decide)

end Sample

end ObserverClub.Clubd
