import ObserverClub.ClaimSteps
import ObserverClub.Inbox

namespace ObserverClub.Clubd

open Library

variable {node : Node} {request : Request}

theorem item_setItem {m : Go.Value} {key key' : String} {v : Go.Value} (h : txt key' ≠ txt key) :
    Go.item (Go.setItem m key v) key' = Go.item m key' := by
  cases m with
  | obj ms =>
    rw [Go.item, Go.item, Go.setItem, Json.get, Json.get, Json.lookup, if_neg (Ne.symm h), Json.lookup_filter (Ne.symm h)]
  | _ => rfl

theorem item_setItem_same {key : String} {v : Go.Value} (ms : List (Text × Go.Value)) :
    Go.item (Go.setItem (.obj ms) key v) key = v := by
  rw [Go.item, Go.setItem, Json.get, Json.lookup, if_pos rfl]
  rfl

section Signed

variable (m sig : Go.Value) {now : Time}

theorem kindOf_signed : kindOf (Go.setItem m "sig" sig) = kindOf m := by
  rw [kindOf, item_setItem (by decide)]

theorem pubOf_signed : pubOf (Go.setItem m "sig" sig) = pubOf m := by
  rw [pubOf, Go.stringOf, item_setItem (by decide), pubOf, Go.stringOf]

theorem cidOf_signed : cidOf (Go.setItem m "sig" sig) = cidOf m := by
  rw [cidOf, Go.stringOf, item_setItem (by decide), cidOf, Go.stringOf]

theorem untilOf_signed : Claims.untilOf (Go.setItem m "sig" sig) = Claims.untilOf m := by
  rw [Claims.untilOf, item_setItem (by decide), Claims.untilOf]

theorem admits_signed {claims : Claims.ClaimTracker} :
    Admits now now claims (Go.setItem m "sig" sig) ↔ Admits now now claims m := by
  rw [Admits, kindOf_signed, pubOf_signed, cidOf_signed, untilOf_signed, Admits]

theorem policy_signed (claims : Claims.ClaimTracker) :
    applyClaimPolicy now now claims (Go.setItem m "sig" sig) = applyClaimPolicy now now claims m := by
  have hk : Go.sprint (Go.item (Go.setItem m "sig" sig) "kind") = Go.sprint (Go.item m "kind") := kindOf_signed m sig
  have hp : Go.stringOf (Go.setItem m "sig" sig) "publisher" = Go.stringOf m "publisher" := pubOf_signed m sig
  have hc : Go.stringOf (Go.setItem m "sig" sig) "cid" = Go.stringOf m "cid" := cidOf_signed m sig
  rw [applyClaimPolicy, applyClaimPolicy, hk, hp, hc, untilOf_signed]

end Signed

def claimed (node : Node) (m : Go.Value) : Go.Value :=
  Go.setItem (Go.setItem (Go.setItem m "publisher" (.str node.hostID)) "v" version) "club" (.str node.clubID)

theorem prepare_ok {m : Go.Value} (h : prepare node request = .ok m) : ∃ raw ms, request.body = some raw ∧
    Canon.decodeJSON (raw.take (2 ^ 20)) = some (.obj ms) ∧ topicFor (kindOf (.obj ms)) ≠ [] ∧
    requireContentCID node (kindOf (.obj ms)) (cidOf (.obj ms)) = .ok () ∧
    requireReportReason (kindOf (.obj ms)) (Go.stringOf (.obj ms) "reason") = .ok () ∧ m = claimed node (.obj ms) := by
  cases hpost : request.post with
  | false => simp [prepare, hpost, bind, Except.bind, throw, throwThe, MonadExceptOf.throw] at h
  | true =>
    cases hbody : request.body with
    | none => simp [prepare, hpost, hbody, throw, throwThe, MonadExceptOf.throw] at h
    | some raw =>
      obtain ⟨data, hdata⟩ : ∃ data, raw.take (2 ^ 20) = data := ⟨_, rfl⟩
      simp only [prepare, hpost, hbody, hdata, bind, Except.bind, pure, Except.pure, throw, throwThe, MonadExceptOf.throw] at h
      refine ⟨raw, ?_⟩
      rw [hdata]
      cases hd : decodeObject data with
      | error e => simp [hd, Except.mapError] at h
      | ok v =>
        obtain ⟨ms, rfl, hj⟩ := decodeObject_ok hd
        simp only [hd, Except.mapError, Bool.not_true, Bool.false_eq_true, if_false] at h
        split_ifs at h with ht
        cases hc : requireContentCID node (kindOf (.obj ms)) (cidOf (.obj ms)) with
        | error e => simp [hc] at h
        | ok _ =>
          cases hr : requireReportReason (kindOf (.obj ms)) (Go.stringOf (.obj ms) "reason") with
          | error e => simp [hc, hr] at h
          | ok _ =>
            simp only [hc, hr] at h
            exact ⟨ms, rfl, hj, ht, hc, hr, (Except.ok.inj h).symm⟩
end ObserverClub.Clubd
