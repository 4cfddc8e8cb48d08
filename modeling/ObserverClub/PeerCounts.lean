import ObserverClub.Janitor
import ObserverClub.LaneCaps
import ObserverClub.QueueFlight
import ObserverClub.Library.Preserving
import Mathlib.Data.Finset.Card

namespace ObserverClub.Work

open Library Python Indexer

/-- Everything that is done to the queue. -/
inductive Operation where
  | sighted (s : Sighting) (now : ℚ)
  | forgotten (cid : Text)
  | directory (cid : Text) (now : ℚ)
  | lonely
  | pruned (now now' : ℚ)
  | review (mine : Bool) (cid : Text) (now : ℚ)
  | children (catalogued : Text → Bool) (links : List UnixFs.Link) (skipCid : Text) (now : ℚ)
  | binary (cid mime : Text) (now : ℚ)
  | marked (cid : Text) (status : Status) (columns : Columns)
  | taken (now : ℚ) (limit : ℕ)
  | expired (now : ℚ)
  | evicted (now : ℚ)

def perform (cfg : Config) (chars : Unicode) (t : Tables) : Operation → Tables
  | .sighted s now => ((record cfg chars.upper s now).run t).2
  | .forgotten cid => ((forgetCid cid).run t).2
  | .directory cid now => ((dropDirectory cid now).run t).2
  | .lonely => ((dropLonelyRaw cfg).run t).2
  | .pruned now now' => ((prune cfg now now').run t).2
  | .review mine cid now => ((enqueueReview cfg chars.upper mine cid now).run t).2
  | .children catalogued links skipCid now => ((enqueueDocChildren cfg chars catalogued links skipCid now).run t).2
  | .binary cid mime now => ((rememberBinary cid mime now).run t).2
  | .marked cid status columns => ((mark cid status columns).run t).2
  | .taken now limit => ((takeBatch cfg now limit).run t).2
  | .expired now => ((expireLocalSkips cfg now).run t).2
  | .evicted now => ((evictBatch now).run t).2

def peersFor (cid : Text) (t : Tables) : Finset Text := ((t.peers.filter fun p => p.1 = cid).map Prod.snd).toFinset

/-- Each peer is on record once, sniffed rows carry their number, and none of these was evicted. -/
structure Exact (t : Tables) : Prop where
  distinct : t.peers.Nodup
  counts : ∀ r ∈ t.cids, r.source = sniff → r.peerCount = (t.peers.countP fun p => p.1 = r.cid : ℕ)
  admitted : ∀ r ∈ t.cids, r.source = sniff → ∀ e ∈ t.evicted, e.1 ≠ r.cid

theorem exact_empty : Exact empty where
  distinct := List.nodup_nil
  counts := fun _ hr => absurd hr List.not_mem_nil
  admitted := fun _ hr => absurd hr List.not_mem_nil

theorem card_peersFor {t : Tables} (h : t.peers.Nodup) (cid : Text) :
    (peersFor cid t).card = t.peers.countP fun p => p.1 = cid := by
  unfold peersFor
  rw [List.toFinset_card_of_nodup, List.length_map, List.countP_eq_length_filter]
  apply List.Nodup.map_on _ (h.filter _)
  intro p hp q hq he
  have hp' := of_decide_eq_true (List.mem_filter.mp hp).2
  have hq' := of_decide_eq_true (List.mem_filter.mp hq).2
  exact Prod.ext (hp'.trans hq'.symm) he

section Keeping

variable {cfg : Config} {chars : Unicode} {t : Tables}

theorem Exact.of_fewer (h : Exact t) {t' : Tables} (hcids : t'.cids ⊆ t.cids) (hpeers : t'.peers.Sublist t.peers)
    (hsame : ∀ r ∈ t'.cids, (t'.peers.countP fun p => p.1 = r.cid) = t.peers.countP fun p => p.1 = r.cid)
    (hevicted : ∀ r ∈ t'.cids, ∀ e ∈ t'.evicted, e ∈ t.evicted ∨ e.1 ≠ r.cid) : Exact t' where
  distinct := h.distinct.sublist hpeers
  counts := by
    intro r hr hs
    rw [hsame r hr]
    exact h.counts r (hcids hr) hs
  admitted := by
    intro r hr hs e he
    obtain he | he := hevicted r hr e he
    · exact h.admitted r (hcids hr) hs e he
    · exact he

theorem Exact.congr (h : Exact t) {t' : Tables} (hcids : t'.cids = t.cids) (hpeers : t'.peers = t.peers)
    (hevicted : t'.evicted ⊆ t.evicted) : Exact t' := by
  apply h.of_fewer
  · exact hcids ▸ List.Subset.refl _
  · exact hpeers ▸ List.Sublist.refl _
  · intro r _
    rw [hpeers]
  · exact fun _ _ e he => Or.inl (hevicted he)

theorem Exact.forget (h : Exact t) (cid : Text) : Exact ((forgetCid cid).run t).2 := by
  apply h.of_fewer
  · exact fun r hr => (List.mem_filter.mp hr).1
  · exact List.filter_sublist
  · intro r hr
    have hne : r.cid ≠ cid := of_decide_eq_true (List.mem_filter.mp hr).2
    change (t.peers.filter fun p => decide (p.1 ≠ cid)).countP _ = _
    rw [List.countP_filter]
    apply List.countP_congr
    intro p _
    rw [Bool.and_eq_true, decide_eq_true_eq, decide_eq_true_eq]
    exact and_iff_left_of_imp fun hp => hp ▸ hne
  · exact fun _ _ e he => Or.inl he

theorem Exact.evict (h : Exact t) (cid : Text) (peers : ℤ) (now : ℚ) : Exact ((evict cid peers now).run t).2 := by
  have hforget := h.forget cid
  apply hforget.of_fewer
  · exact List.Subset.refl _
  · exact List.Sublist.refl _
  · exact fun _ _ => rfl
  · intro r hr e he
    obtain ⟨he, -⟩ | rfl := Table.mem_put.mp he
    · exact Or.inl he
    · exact Or.inr (of_decide_eq_true (List.mem_filter.mp hr).2).symm

theorem preserves_forgetCid (cid : Text) : Preserves Exact (forgetCid cid) := fun _ h => h.forget cid

theorem preserves_forgetAll (rows : List Queued) : Preserves Exact (forgetAll rows) := by
  induction rows with
  | nil => exact preserves_pure 0
  | cons r rows ih => exact preserves_bind (preserves_forgetCid r.cid) fun _ => preserves_map ih

theorem preserves_evictRows (now : ℚ) (rows : List Queued) : Preserves Exact (evictRows now rows) := by
  induction rows with
  | nil => exact preserves_pure ()
  | cons r rows ih => exact preserves_bind (fun _ h => h.evict r.cid r.peerCount now) fun _ => ih

theorem preserves_countRows (p : Queued → Bool) : Preserves Exact (countRows p) := fun _ h => h

theorem preserves_selectRows (p : Queued → Bool) : Preserves Exact (selectRows p) := fun _ h => h

theorem preserves_oldest (p : Queued → Bool) (n : ℕ) : Preserves Exact (oldest p n) := fun _ h => h

theorem preserves_update {p : Queued → Bool} {f : Queued → Queued}
    (hf : ∀ r, (f r).source = sniff → r.source = sniff ∧ (f r).cid = r.cid ∧ (f r).peerCount = r.peerCount) :
    Preserves Exact (update p f) := by
  have hif (r : Queued) (hs : (if p r then f r else r).source = sniff) : r.source = sniff ∧
      (if p r then f r else r).cid = r.cid ∧ (if p r then f r else r).peerCount = r.peerCount := by
    cases hp : p r with
    | true =>
      rw [hp] at hs
      exact hf r hs
    | false =>
      rw [hp] at hs
      exact ⟨hs, rfl, rfl⟩
  intro t h
  refine ⟨h.distinct, fun q hq hs => ?_, fun q hq hs => ?_⟩
  · obtain ⟨r, hr, rfl⟩ := List.mem_map.mp hq
    obtain ⟨hsource, hcid, hcount⟩ := hif r hs
    rw [hcid, hcount]
    exact h.counts r hr hsource
  · obtain ⟨r, hr, rfl⟩ := List.mem_map.mp hq
    obtain ⟨hsource, hcid, -⟩ := hif r hs
    rw [hcid]
    exact h.admitted r hr hsource

theorem preserves_update_other {p : Queued → Bool} {f : Queued → Queued}
    (hf : ∀ r, (f r).source = r.source ∧ (f r).cid = r.cid ∧ (f r).peerCount = r.peerCount) :
    Preserves Exact (update p f) := preserves_update fun r hs => ⟨(hf r).1.symm.trans hs, (hf r).2⟩

theorem preserves_insertRow {r : Queued} (hs : r.source ≠ sniff) : Preserves Exact (insertRow r) := by
  intro t h
  refine ⟨h.distinct, fun q hq hq' => ?_, fun q hq hq' => ?_⟩
  · obtain hq | hq := List.mem_append.mp hq
    · exact h.counts q hq hq'
    · rw [List.mem_singleton.mp hq] at hq'
      exact absurd hq' hs
  · obtain hq | hq := List.mem_append.mp hq
    · exact h.admitted q hq hq'
    · rw [List.mem_singleton.mp hq] at hq'
      exact absurd hq' hs

theorem preserves_dropNamedNonPdf : Preserves Exact dropNamedNonPdf :=
  preserves_bind (preserves_selectRows _) fun rows => preserves_forgetAll rows

theorem preserves_dropLonelyRaw : Preserves Exact (dropLonelyRaw cfg) := by
  apply preserves_ite
  · intro
    apply preserves_pure
  · intro
    refine preserves_bind (preserves_selectRows _) fun rows => preserves_map (preserves_modify fun t h => ?_)
    -- the peers stay on record for the next sighting
    apply h.of_fewer
    · exact fun r hr => (List.mem_filter.mp hr).1
    · exact List.Sublist.refl _
    · exact fun _ _ => rfl
    · exact fun _ _ e he => Or.inl he

theorem preserves_dropOldest (p : Queued → Bool) (n : ℕ) : Preserves Exact (oldest p n >>= forgetAll) :=
  preserves_bind (preserves_oldest p n) preserves_forgetAll

theorem preserves_dropLanes : Preserves Exact (dropLanes cfg) := by
  refine preserves_bind (preserves_countRows _) fun pdf => preserves_bind (preserves_countRows _) fun html => ?_
  refine preserves_bind (preserves_oldest _ _) fun rows => preserves_bind (preserves_forgetAll rows) fun n => ?_
  exact preserves_bind (preserves_oldest _ _) fun rows => preserves_map (preserves_forgetAll rows)

theorem preserves_dropProbes : Preserves Exact (dropProbes cfg) := by
  refine preserves_bind (preserves_countRows _) fun probes => preserves_bind (preserves_oldest _ _) fun rows => ?_
  apply preserves_ite
  · intro
    apply preserves_pure
  · intro
    apply preserves_forgetAll

theorem preserves_expireLocalSkips (now : ℚ) : Preserves Exact (expireLocalSkips cfg now) := by
  apply preserves_ite
  · intro
    apply preserves_pure
  · intro
    refine preserves_bind (preserves_update_other fun _ => ⟨rfl, rfl, rfl⟩) fun n => ?_
    exact preserves_map (preserves_update_other fun _ => ⟨rfl, rfl, rfl⟩)

theorem preserves_prune (now now' : ℚ) : Preserves Exact (prune cfg now now') := by
  apply preserves_bind preserves_dropNamedNonPdf
  intro
  apply preserves_bind preserves_dropLonelyRaw
  intro
  apply preserves_bind (preserves_bind (preserves_selectRows _) preserves_forgetAll)
  intro
  apply preserves_bind preserves_dropLanes
  intro
  apply preserves_bind (preserves_bind (preserves_bind (preserves_countRows _) fun _ => preserves_map (preserves_selectRows _))
    preserves_forgetAll)
  intro
  apply preserves_bind preserves_dropProbes
  intro
  apply preserves_bind (preserves_expireLocalSkips now')
  intro
  exact preserves_map preserves_dropLonelyRaw

theorem preserves_enqueueReview (upper : Text → Text) (mine : Bool) (cid : Text) (now : ℚ) :
    Preserves Exact (enqueueReview cfg upper mine cid now) := by
  apply preserves_ite
  · intro
    apply preserves_pure
  · intro
    -- a row that is reviewed is no longer a sniffed one
    apply preserves_bind (preserves_update fun r hs => absurd hs (by decide : report ≠ sniff))
    intro n
    dsimp only
    split_ifs
    · exact preserves_map (preserves_insertRow (by decide : report ≠ sniff))
    · apply preserves_pure

theorem preserves_enqueueChildren (catalogued : Text → Bool) (skipCid : Text) (now : ℚ) (namedCount : ℕ)
    (picked : List (Text × Text)) : Preserves Exact (enqueueChildren cfg chars catalogued skipCid now namedCount picked) := by
  induction picked generalizing namedCount with
  | nil => apply preserves_pure
  | cons p picked ih =>
    obtain ⟨filename, cid⟩ := p
    rw [enqueueChildren]
    apply preserves_ite
    · intro
      apply preserves_pure
    · intro
      apply preserves_get
      intro t h
      split_ifs
      · exact ih _ t h
      · refine preserves_bind ?_ (fun _ => ih namedCount) t h
        exact preserves_update_other fun _ => ⟨rfl, rfl, rfl⟩
      · have hinsert (evicted : ℕ) : Preserves Exact (if evicted = 0 then pure 0 else do
            insertRow (asked cfg chars.upper cid named (some filename) now)
            let n ← enqueueChildren cfg chars catalogued skipCid now (namedCount + 1) picked
            return n + 1 : Op ℕ) := by
          apply preserves_ite
          · intro
            apply preserves_pure
          · intro
            exact preserves_bind (preserves_insertRow (by decide : named ≠ sniff)) fun _ => preserves_map (ih _)
        refine preserves_bind (fun _ h => h) (fun room => ?_) t h
        dsimp only
        split_ifs
        · exact preserves_bind (preserves_pure 1) hinsert
        · exact preserves_bind (preserves_dropOldest _ 1) hinsert

theorem preserves_enqueueDocChildren (catalogued : Text → Bool) (links : List UnixFs.Link) (skipCid : Text) (now : ℚ) :
    Preserves Exact (enqueueDocChildren cfg chars catalogued links skipCid now) := by
  apply preserves_ite
  · intro
    apply preserves_pure
  · intro
    apply preserves_bind preserves_dropNamedNonPdf
    intro
    apply preserves_bind (preserves_countRows _)
    intro n
    apply preserves_enqueueChildren

theorem preserves_mark (cid : Text) (status : Status) (columns : Columns) : Preserves Exact (mark cid status columns) :=
  preserves_map (preserves_update_other fun _ => ⟨rfl, rfl, rfl⟩)

theorem preserves_process (cid : Text) : Preserves Exact (process cid) :=
  preserves_map (preserves_update_other fun _ => ⟨rfl, rfl, rfl⟩)

theorem preserves_takeRounds (now : ℚ) (limit a b : ℕ) : Preserves Exact (takeRounds cfg now limit a b) := by
  induction limit generalizing a b with
  | zero => apply preserves_pure
  | succ limit ih =>
    refine preserves_bind (fun t h => ?_) fun next => ?_
    · rw [(nextRow_spec a b).1]
      exact h
    · cases next with
      | none => apply preserves_pure
      | some p =>
        obtain ⟨r, lane⟩ := p
        refine preserves_bind (preserves_process r.cid) fun _ => ?_
        cases lane with
        | none => exact preserves_map (ih _ _)
        | some lane => cases lane <;> exact preserves_map (ih _ _)

theorem preserves_takeBatch (now : ℚ) (limit : ℕ) : Preserves Exact (takeBatch cfg now limit) :=
  preserves_map (preserves_takeRounds now limit 0 0)

end Keeping

section Sighted

variable {cfg : Config} {upper : Text → Text} {s : Sighting} {t : Tables} {now : ℚ}

theorem nodup_noted (h : t.peers.Nodup) : (noted s t).Nodup := by
  rw [noted_eq]
  split_ifs with hmem
  · exact h
  · apply h.append (List.nodup_singleton _)
    rintro p hp hq
    rw [List.mem_singleton.mp hq] at hp
    exact hmem hp

theorem countP_noted {cid : Text} (h : cid ≠ s.cid) :
    ((noted s t).countP fun p => p.1 = cid) = t.peers.countP fun p => p.1 = cid := by
  rw [noted_eq]
  split_ifs
  · rfl
  · rw [List.countP_append, List.countP_singleton, if_neg, Nat.add_zero]
    rw [decide_eq_true_eq]
    exact h.symm

theorem lookup_of_withheld (h : withheld s t = true) : ∃ e ∈ t.evicted, e.1 = s.cid := by
  by_contra hnone
  push Not at hnone
  unfold withheld at h
  rw [lookup_eq_none.mpr hnone] at h
  cases h

theorem Exact.sighted (h : Exact t) : Exact ((record cfg upper s now).run t).2 := by
  generalize ht' : ((record cfg upper s now).run t).2 = t'
  obtain ⟨-, he⟩ | ⟨-, hw, hcids, hpeers, hevicted, -⟩ | ⟨-, -, hcids, hpeers, hevicted, -⟩ := record_cases t' ht'.symm
  · rw [he]
    exact h
  · -- the CID is held back, so no sniffed row is its
    obtain ⟨e, he, hes⟩ := lookup_of_withheld hw
    have hne {r : Queued} (hr : r ∈ t.cids) (hs : r.source = sniff) : r.cid ≠ s.cid := fun hrc =>
      h.admitted r hr hs e he (hes.trans hrc.symm)
    refine ⟨?_, fun r hr hs => ?_, fun r hr hs => ?_⟩
    · rw [hpeers]
      exact nodup_noted h.distinct
    · rw [hcids] at hr
      rw [hpeers, countP_noted (hne hr hs)]
      exact h.counts r hr hs
    · rw [hcids] at hr
      rw [hevicted]
      exact h.admitted r hr hs
  · have hold {r : Queued} (hr : r ∈ t.cids) (hs : r.source = sniff) :
        (sightedAgain s (peersWith s t) now r).peerCount =
          ((noted s t).countP fun p => p.1 = (sightedAgain s (peersWith s t) now r).cid : ℕ) := by
      unfold sightedAgain
      split_ifs with hrc
      · rw [hrc]
        rfl
      · rw [countP_noted hrc]
        exact h.counts r hr hs
    have hrow {q : Queued} (hq : q ∈ t'.cids) (hs : q.source = sniff) :
        q.peerCount = ((noted s t).countP fun p => p.1 = q.cid : ℕ) ∧
          (q.cid = s.cid ∨ ∃ r ∈ t.cids, r.source = sniff ∧ r.cid = q.cid) := by
      rw [hcids] at hq
      obtain hq | hq := List.mem_append.mp hq
      · obtain ⟨r, hr, rfl⟩ := List.mem_map.mp hq
        obtain ⟨hcid, -⟩ := steady_sightedAgain s (peersWith s t) now r
        have hsource : r.source = sniff := by
          unfold sightedAgain at hs
          split_ifs at hs <;> exact hs
        exact ⟨hold hr hsource, Or.inr ⟨r, hr, hsource, hcid.symm⟩⟩
      · unfold entering at hq
        split_ifs at hq
        · rw [List.mem_singleton.mp hq]
          exact ⟨rfl, Or.inl rfl⟩
        · exact absurd hq List.not_mem_nil
    refine ⟨?_, fun q hq hs => ?_, fun q hq hs e he => ?_⟩
    · rw [hpeers]
      exact nodup_noted h.distinct
    · rw [hpeers]
      exact (hrow hq hs).1
    · rw [hevicted, Table.mem_delete] at he
      obtain hqc | ⟨r, hr, hsource, hrc⟩ := (hrow hq hs).2
      · rw [hqc]
        exact he.2
      · rw [← hrc]
        exact h.admitted r hr hsource e he.1

theorem peers_sightedAgain (h : (s.cid, s.peer) ∈ t.peers) : ((record cfg upper s now).run t).2.peers = t.peers := by
  have hnoted : noted s t = t.peers := if_pos h
  obtain ⟨-, he⟩ | ⟨-, -, -, hpeers, -⟩ | ⟨-, -, -, hpeers, -⟩ := @record_cases cfg upper s t now _ rfl
  · rw [he]
  · exact hpeers.trans hnoted
  · exact hpeers.trans hnoted

theorem exact_perform {chars : Unicode} (t : Tables) (op : Operation) (h : Exact t) : Exact (perform cfg chars t op) := by
  cases op with
  | sighted s now => exact h.sighted
  | forgotten cid => exact h.forget cid
  | directory cid now => exact h.evict cid _ now
  | lonely => exact preserves_dropLonelyRaw t h
  | pruned now now' => exact preserves_prune now now' t h
  | review mine cid now => exact preserves_enqueueReview chars.upper mine cid now t h
  | children catalogued links skipCid now => exact preserves_enqueueDocChildren catalogued links skipCid now t h
  | binary cid mime now =>
    exact preserves_bind (preserves_modify fun _ h => h.congr rfl rfl (List.Subset.refl _)) (fun _ => preserves_forgetCid cid) t h
  | marked cid status columns => exact preserves_mark cid status columns t h
  | taken now limit => exact preserves_takeBatch now limit t h
  | expired now => exact preserves_expireLocalSkips now t h
  | evicted now => exact preserves_evictRows now _ t h

end Sighted

def sniffedCounts (cid : Text) (t : Tables) : List ℤ :=
  (t.cids.filter fun r => r.cid = cid && r.source = sniff).map Queued.peerCount

theorem sniffedCounts_again {cfg : Config} {upper : Text → Text} {s : Sighting} {t : Tables} {now : ℚ} (h : Exact t)
    {r : Queued} (hr : r ∈ t.cids) (hrc : s.cid = r.cid) (hp : (s.cid, s.peer) ∈ t.peers) :
    sniffedCounts r.cid ((record cfg upper s now).run t).2 = sniffedCounts r.cid t := by
  generalize ht' : ((record cfg upper s now).run t).2 = t'
  obtain ⟨-, he⟩ | ⟨-, -, hcids, -, -⟩ | ⟨-, -, hcids, -, -⟩ := record_cases t' ht'.symm
  · rw [he]
  · unfold sniffedCounts
    rw [hcids]
  · have hnone : entering cfg upper s now t = [] := by
      unfold entering
      rw [if_neg]
      rintro ⟨hc, -⟩
      have hrow := Option.isNone_iff_eq_none.mp (candidate_iff.mp hc).2.1
      exact Table.row?_eq_none.mp hrow r hr hrc.symm
    have hsame : (fun q => decide (q.cid = r.cid) && decide (q.source = sniff)) ∘ sightedAgain s (peersWith s t) now =
        fun q => decide (q.cid = r.cid) && decide (q.source = sniff) := by
      funext q
      unfold sightedAgain
      rw [Function.comp_apply]
      split_ifs <;> rfl
    unfold sniffedCounts
    rw [hcids, hnone, List.append_nil, List.filter_map, hsame, List.map_map]
    apply List.map_congr_left
    intro q hq
    obtain ⟨hmem, hq'⟩ := List.mem_filter.mp hq
    rw [Bool.and_eq_true, decide_eq_true_eq, decide_eq_true_eq] at hq'
    have hcount : (peersWith s t : ℤ) = q.peerCount := by
      have hnoted : peersWith s t = t.peers.countP fun p => p.1 = s.cid := congrArg (List.countP _) (if_pos hp)
      rw [hnoted, h.counts q hmem hq'.2, hq'.1, hrc]
    unfold sightedAgain
    rw [Function.comp_apply]
    split_ifs
    · exact hcount
    · rfl

/-- The count of a sniffed row is that of the different peers on record for it, and a sighting that is on record
already leaves it as it is when it is delivered once more. -/
def CountsPeers (cfg : Config) (chars : Unicode) (t : Tables) : Prop :=
  ∀ r ∈ t.cids, r.source = sniff → r.peerCount = (peersFor r.cid t).card ∧
    ∀ s now, s.cid = r.cid → s.peer ∈ peersFor r.cid t →
      peersFor r.cid (perform cfg chars t (.sighted s now)) = peersFor r.cid t ∧
        sniffedCounts r.cid (perform cfg chars t (.sighted s now)) = sniffedCounts r.cid t

theorem mem_peersFor {cid peer : Text} {t : Tables} : peer ∈ peersFor cid t ↔ (cid, peer) ∈ t.peers := by
  unfold peersFor
  rw [List.mem_toFinset, List.mem_map]
  constructor
  · rintro ⟨p, hp, rfl⟩
    obtain ⟨hmem, hc⟩ := List.mem_filter.mp hp
    rw [← of_decide_eq_true hc]
    exact hmem
  · intro h
    exact ⟨(cid, peer), List.mem_filter.mpr ⟨h, decide_eq_true rfl⟩, rfl⟩

theorem peers_counted (cfg : Config) (chars : Unicode) (ops : List Operation) :
    CountsPeers cfg chars (run (perform cfg chars) empty ops) := by
  have h : Exact (run (perform cfg chars) empty ops) := run_invariant_of_step exact_perform exact_empty ops
  intro r hr hs
  refine ⟨?_, fun s now hrc hp => ?_⟩
  · rw [card_peersFor h.distinct]
    exact h.counts r hr hs
  · rw [mem_peersFor, ← hrc] at hp
    refine ⟨?_, sniffedCounts_again h hr hrc hp⟩
    unfold peersFor
    rw [perform, peers_sightedAgain hp]

end ObserverClub.Work
