import ObserverClub.FailedPublish
import ObserverClub.GoWriting

namespace ObserverClub

open Library Json Library.Program

namespace Go

theorem topicFor_first {k : Text} (h : Clubd.topicFor k ≠ []) : k.head? ≠ some 91 ∧ k.head? ≠ some 109 := by
  unfold Clubd.topicFor at h
  split_ifs at h with hk
  swap
  · exact absurd rfl h
  simp only [List.mem_cons, List.not_mem_nil, or_false] at hk
  obtain rfl | rfl | rfl | rfl | rfl := hk <;> decide

theorem inOrder_kind {v : Value} (h : Clubd.topicFor (sprint v) ≠ []) : inOrder keyLt v = v := by
  cases v with
  | arr xs => exact absurd rfl (topicFor_first h).1
  | obj ms => exact absurd rfl (topicFor_first h).2
  | _ => rfl

end Go

namespace Clubd

variable {node other : Node}

theorem verify_of_verified {data : Bytes} {m : Go.Value} (hd : decodeObject data = .ok m)
    (hsig : Go.stringOf m "sig" ≠ []) (h : Verified node m) : verify node data = .ok m := by
  obtain ⟨sig, pid, pk, hx, hp, hk, hv⟩ := h.signed
  have hclub : ¬(Go.stringOf m "club" ≠ [] ∧ Go.stringOf m "club" ≠ node.clubID) := by
    rw [not_and_or, not_not, not_not]
    exact h.club
  have hcid : requireContentCID node (Go.sprint (Go.item m "kind")) (Go.stringOf m "cid") = .ok () := if_pos h.cid
  have hreason : requireReportReason (Go.sprint (Go.item m "kind")) (Go.stringOf m "reason") = .ok () :=
    if_pos h.reason
  simp only [verify, hd, Bind.bind, Except.bind, Pure.pure, Except.pure, throw, throwThe, MonadExceptOf.throw]
  rw [if_neg hsig]
  simp only [hx, hp, hk, hv, Bool.not_true, Bool.false_eq_true, if_false, if_neg hclub, hcid, hreason]

/-- The other daemon is of the node's club, decodes the same identifiers, and finds a key under the node's
name that its signatures verify with. -/
structure Knows (other node : Node) : Prop where
  club : other.clubID = node.clubID
  cid : ∀ c, node.cidDecode c = true → other.cidDecode c = true
  key : ∃ pid pk, other.decodePeer node.hostID = some pid ∧
    (other.peerstore pid).or (other.extractPublicKey pid) = some pk ∧
    ∀ data sig, node.sign data = some sig → sig ≠ [] ∧ other.verify pk data sig = true

/-- A club id, and a peer's name, is text. -/
structure Named (node : Node) : Prop where
  club : Utf8.valid node.clubID = true
  host : Utf8.valid node.hostID = true

def Action.carries : Action → Option Bytes
  | .appendInbox e => some e.line
  | .broadcast _ payload => some payload
  | _ => none

theorem hexText_valid (s : Bytes) : Utf8.valid (hexText s) = true := by
  have digit (n : ℕ) : hexDigit (n % 16) < 128 := (hexDigit_spec (by omega)).2
  rw [Utf8.valid, List.all_eq_true]
  intro c hc
  obtain ⟨b, -, hc⟩ := List.mem_flatMap.mp hc
  have hb := b.toNat_lt
  have hhigh := digit (b.toNat / 16)
  rw [Nat.mod_eq_of_lt (by omega)] at hhigh
  have hlow := digit b.toNat
  simp only [List.mem_cons, List.not_mem_nil, or_false] at hc
  exact decide_eq_true (Or.inl (by omega))

theorem hexText_ne {s : Bytes} (h : s ≠ []) : hexText s ≠ [] := by
  cases s with
  | nil => exact absurd rfl h
  | cons b s => exact List.cons_ne_nil _ _

section Claimed

variable {ms : List (Text × Go.Value)}

theorem claimed_obj (node : Node) (ms : List (Text × Go.Value)) : ∃ ms', claimed node (.obj ms) = .obj ms' :=
  ⟨_, rfl⟩

theorem item_claimed {key : String} (hp : txt key ≠ txt "publisher") (hv : txt key ≠ txt "v")
    (hc : txt key ≠ txt "club") : Go.item (claimed node (.obj ms)) key = Go.item (.obj ms) key := by
  rw [claimed, item_setItem hc, item_setItem hv, item_setItem hp]

theorem publisher_claimed : Go.item (claimed node (.obj ms)) "publisher" = .str node.hostID := by
  rw [claimed, item_setItem (by decide), item_setItem (by decide), item_setItem_same]

theorem club_claimed : Go.item (claimed node (.obj ms)) "club" = .str node.clubID := item_setItem_same _

theorem claimed_writable (hn : Named node) (h : Go.Writable (.obj ms)) : Go.Writable (claimed node (.obj ms)) := by
  have hpub := h.setItem "publisher" (w := .str node.hostID) (by decide) hn.host rfl trivial
  have hv := hpub.setItem "v" (w := version) (by decide) (by decide) rfl trivial
  exact hv.setItem "club" (by decide) hn.club rfl trivial

end Claimed

theorem requireContentCID_ok {kind c : Text} (h : requireContentCID node kind c = .ok ()) :
    kind = txt "alias" ∨ node.cidDecode c = true := by
  unfold requireContentCID at h
  split_ifs at h with hc
  exact hc

theorem requireReportReason_ok {kind reason : Text} (h : requireReportReason kind reason = .ok ()) :
    kind ≠ txt "report" ∨ reason ∈ [txt "wrong", txt "abusive", txt "clear"] := by
  unfold requireReportReason at h
  split_ifs at h with hr
  exact hr

theorem verify_signed (hn : Named node) (hk : Knows other node) {ms : List (Text × Go.Value)} {sig : Bytes}
    (hw : Go.Writable (.obj ms)) (htopic : topicFor (kindOf (.obj ms)) ≠ [])
    (hcid : requireContentCID node (kindOf (.obj ms)) (cidOf (.obj ms)) = .ok ())
    (hreason : requireReportReason (kindOf (.obj ms)) (Go.stringOf (.obj ms) "reason") = .ok ())
    (hsign : node.sign (Canon.marshal (claimed node (.obj ms))) = some sig) :
    ∃ m, verify other (Go.jsonMarshal (Go.setItem (claimed node (.obj ms)) "sig" (.str (hexText sig)))) = .ok m := by
  obtain ⟨pid, pk, hpid, hpk, hver⟩ := hk.key
  obtain ⟨hsome, hverify⟩ := hver _ _ hsign
  obtain ⟨ms', hms⟩ := claimed_obj node ms
  obtain ⟨m, hm⟩ : ∃ m, Go.setItem (claimed node (.obj ms)) "sig" (.str (hexText sig)) = m := ⟨_, rfl⟩
  have hwrite : Go.Writable m := by
    have hclaimed := claimed_writable hn hw
    rw [← hm]
    rw [hms] at hclaimed ⊢
    exact hclaimed.setItem "sig" (by decide) (hexText_valid sig) rfl trivial
  have hitem {key : String} (hp : txt key ≠ txt "publisher") (hv : txt key ≠ txt "v") (hc : txt key ≠ txt "club")
      (hs : txt key ≠ txt "sig") : Go.item m key = Go.item (.obj ms) key := by
    rw [← hm, item_setItem hs, item_claimed hp hv hc]
  have hkind : Go.item m "kind" = Go.item (.obj ms) "kind" := hitem (by decide) (by decide) (by decide) (by decide)
  have hcidOf : Go.stringOf m "cid" = cidOf (.obj ms) := by
    rw [Go.stringOf, hitem (by decide) (by decide) (by decide) (by decide), cidOf, Go.stringOf]
  have hreasonOf : Go.stringOf m "reason" = Go.stringOf (.obj ms) "reason" := by
    rw [Go.stringOf, hitem (by decide) (by decide) (by decide) (by decide), Go.stringOf]
  have hpub : Go.stringOf m "publisher" = node.hostID := by
    rw [Go.stringOf, ← hm, item_setItem (by decide), publisher_claimed]
  have hclub : Go.stringOf m "club" = node.clubID := by
    rw [Go.stringOf, ← hm, item_setItem (by decide), club_claimed]
  have hsig : Go.stringOf m "sig" = hexText sig := by
    rw [Go.stringOf, ← hm, hms, item_setItem_same]
  have hprint : Go.sprint (Go.item (inOrder Go.keyLt m) "kind") = kindOf (.obj ms) := by
    rw [Go.item_inOrder hwrite.distinct, hkind, Go.inOrder_kind htopic, kindOf]
  -- the canonical bytes read elsewhere are the ones that were signed
  have hcanon : Canon.marshal (inOrder Go.keyLt m) = Canon.marshal (claimed node (.obj ms)) := by
    rw [Go.marshal_inOrder hwrite, ← hm, hms, Go.marshal_signed]
  have hdecode : decodeObject (Go.jsonMarshal m) = .ok (inOrder Go.keyLt m) := by
    rw [decodeObject, Go.decodeJSON_jsonMarshal hwrite, ← hm, hms]
    rfl
  refine ⟨inOrder Go.keyLt m, ?_⟩
  rw [hm]
  apply verify_of_verified hdecode
  · rw [Go.stringOf_inOrder hwrite.distinct, hsig]
    exact hexText_ne hsome
  · refine ⟨⟨sig, pid, pk, ?_, ?_, hpk, ?_⟩, Or.inr ?_, ?_, ?_⟩
    · rw [Go.stringOf_inOrder hwrite.distinct, hsig, Go.hexDecode_hexText]
    · rw [Go.stringOf_inOrder hwrite.distinct, hpub, hpid]
    · rw [hcanon]
      exact hverify
    · rw [Go.stringOf_inOrder hwrite.distinct, hclub, hk.club]
    · rw [hprint, Go.stringOf_inOrder hwrite.distinct, hcidOf]
      exact (requireContentCID_ok hcid).imp_right (hk.cid _)
    · rw [hprint, Go.stringOf_inOrder hwrite.distinct, hreasonOf]
      exact requireReportReason_ok hreason

/-- Every line that a request to publish has written or sent passes the checks elsewhere. -/
theorem publish_verifies (node other : Node) (hn : Named node) (hk : Knows other node) (request : Request)
    (events : List (Program.Event Answer)) (h : Trace (handlePublish node request) events) :
    ∀ e ∈ events, ∀ line, e.1.carries = some line → ∃ m, verify other line = .ok m := by
  have honly : Only (fun a => ∀ line, a.carries = some line → ∃ m, verify other line = .ok m)
      (handlePublish node request) := by
    unfold handlePublish
    cases hp : prepare node request with
    | error refusal => trivial
    | ok m =>
      obtain ⟨raw, ms, -, hdecode, htopic, hcid, hreason, rfl⟩ := prepare_ok hp
      have hw := Go.decoded_writable hdecode
      cases hs : node.sign (Canon.marshal (claimed node (.obj ms))) with
      | none =>
        simp only [hs]
        trivial
      | some sig =>
        have hline := verify_signed hn hk hw htopic hcid hreason hs
        simp only [hs]
        refine ⟨fun line h => absurd h (by simp [Action.carries]), fun admitted => ?_⟩
        show Only _ (if (!admitted) = true then _ else _)
        split_ifs
        · trivial
        refine ⟨fun line h => absurd h (by simp [Action.carries]), fun seen => ?_⟩
        refine ⟨fun line h => ?_, fun written => ?_⟩
        · obtain rfl := Option.some.inj h
          exact hline
        show Only _ (if (!written) = true then _ else _)
        split_ifs
        · trivial
        refine ⟨fun line h => ?_, fun sent => trivial⟩
        obtain rfl := Option.some.inj h
        exact hline
  exact honly.trace h

section Sample

def secondNode : Node := { sampleNode with hostID := txt "12D3KooWPeer" }

theorem secondNode_knows : Knows secondNode sampleNode := by
  refine ⟨rfl, fun c h => h, ?_⟩
  refine ⟨_, _, rfl, rfl, fun data sig hsig => ?_⟩
  obtain rfl := Option.some.inj hsig
  constructor
  · rw [sampleSum]
    exact List.cons_ne_nil _ _
  · exact decide_eq_true rfl

def allSucceed : (a : Action) → Answer a := fun _ => true

theorem publish_verifies_claim : ((play allSucceed (handlePublish sampleNode claimRequest)).filterMap
      fun e => e.1.carries).length = 2 ∧
    ∀ e ∈ play allSucceed (handlePublish sampleNode claimRequest), ∀ line, e.1.carries = some line →
      ∃ m, verify secondNode line = .ok m :=
  ⟨by decide +kernel, publish_verifies sampleNode secondNode ⟨by decide, by decide⟩ secondNode_knows claimRequest _
    (trace_play allSucceed _)⟩

end Sample

end Clubd

end ObserverClub
