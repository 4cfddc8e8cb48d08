import ObserverClub.PeerCounts

namespace ObserverClub.Work

open Library Python Indexer

/-- The CID is held back until more than `count` peers want it. -/
structure HeldBack (cid : Text) (count : ℤ) (t : Tables) : Prop where
  entry : ∃ now, t.evicted.lookup cid = some (count, now)
  away : ∀ r ∈ t.cids, r.cid ≠ cid

/-- Nothing holds the CID back any longer, or it is queued. -/
def Returned (cid : Text) (t : Tables) : Prop := t.evicted.lookup cid = none ∨ ∃ r ∈ t.cids, r.cid = cid

/-- The two ways in which a CID is evicted. -/
inductive Evicts (cid : Text) (t : Tables) : Tables → Prop where
  | directory (now : ℚ) : Evicts cid t ((dropDirectory cid now).run t).2
  | janitor (now : ℚ) (r : Queued) (hr : r ∈ ((evictable now).run t).1) (hc : r.cid = cid) :
      Evicts cid t ((evictBatch now).run t).2

section Evicted

variable {cid : Text} {count : ℤ} {t : Tables}

theorem HeldBack.not_returned (h : HeldBack cid count t) : ¬Returned cid t := by
  obtain ⟨now, he⟩ := h.entry
  rintro (hnone | ⟨r, hr, hrc⟩)
  · cases he.symm.trans hnone
  · exact h.away r hr hrc

def Unwanted (cid : Text) (t : Tables) : Prop := ∀ p ∈ t.peers, p.1 ≠ cid

theorem heldBack_evict (peers : ℤ) (now : ℚ) :
    HeldBack cid peers ((evict cid peers now).run t).2 ∧ Unwanted cid ((evict cid peers now).run t).2 := by
  refine ⟨⟨⟨now, (Table.lookup_put cid (cid, _) _).trans (if_pos rfl)⟩, fun r hr => ?_⟩, fun p hp => ?_⟩
  · exact of_decide_eq_true (List.mem_filter.mp hr).2
  · exact of_decide_eq_true (List.mem_filter.mp hp).2

theorem heldBack_evict_other {c : Text} (hc : c ≠ cid) (peers : ℤ) (now : ℚ) (h : HeldBack cid count t)
    (hp : Unwanted cid t) :
    HeldBack cid count ((evict c peers now).run t).2 ∧ Unwanted cid ((evict c peers now).run t).2 := by
  obtain ⟨τ, he⟩ := h.entry
  refine ⟨⟨⟨τ, ((Table.lookup_put cid (c, _) _).trans (if_neg hc.symm)).trans he⟩, fun r hr => ?_⟩, fun p hmem => ?_⟩
  · exact h.away r (List.mem_filter.mp hr).1
  · exact hp p (List.mem_filter.mp hmem).1

theorem heldBack_evictRows (now : ℚ) {rows : List Queued}
    (h : (∃ r ∈ rows, r.cid = cid) ∨ ∃ count, HeldBack cid count t ∧ Unwanted cid t) :
    ∃ count, HeldBack cid count ((evictRows now rows).run t).2 ∧ Unwanted cid ((evictRows now rows).run t).2 := by
  induction rows generalizing t with
  | nil =>
    obtain ⟨r, hr, -⟩ | h := h
    · exact absurd hr List.not_mem_nil
    · exact h
  | cons r rows ih =>
    apply ih
    by_cases hr : r.cid = cid
    · rw [hr]
      exact Or.inr ⟨_, heldBack_evict _ _⟩
    · obtain ⟨q, hq, hqc⟩ | ⟨count, hback, hp⟩ := h
      · obtain rfl | hq := List.mem_cons.mp hq
        · exact absurd hqc hr
        · exact Or.inl ⟨q, hq, hqc⟩
      · exact Or.inr ⟨count, heldBack_evict_other hr _ _ hback hp⟩

theorem Evicts.heldBack {t' : Tables} (h : Evicts cid t t') : ∃ count, HeldBack cid count t' ∧ Unwanted cid t' := by
  cases h with
  | directory now => exact ⟨_, heldBack_evict _ _⟩
  | janitor now r hr hc => exact heldBack_evictRows now (Or.inl ⟨r, hr, hc⟩)

end Evicted

section Wanted

variable {cfg : Config} {upper : Text → Text} {cid : Text} {count : ℤ} {t t' : Tables} {s : Sighting} {now : ℚ}

/-- The different peers among the sightings of the CID. -/
def wanters (cid : Text) (sightings : List (Sighting × ℚ)) : Finset Text :=
  ((sightings.filter fun e => e.1.cid = cid).map fun e => e.1.peer).toFinset

/-- The CID is held back, exactly as many peers as then are on record for it, and one of them wants it again. -/
def WantsAgain (upper : Text → Text) (cid : Text) (count : ℤ) (t : Tables) (s : Sighting) : Prop :=
  s.cid = cid ∧ ¬refuses upper s t ∧ (t.evicted.lookup cid).isSome = true ∧ s.peer ∈ peersFor cid t ∧
    (peersFor cid t).card = count

instance : Decidable (WantsAgain upper cid count t s) := inferInstanceAs (Decidable (_ ∧ _))

structure SameFor (cid : Text) (t t' : Tables) : Prop where
  entry : t'.evicted.lookup cid = t.evicted.lookup cid
  rows : (∃ r ∈ t'.cids, r.cid = cid) ↔ ∃ r ∈ t.cids, r.cid = cid
  peers : (t'.peers.filter fun p => p.1 = cid) = t.peers.filter fun p => p.1 = cid

theorem exists_sightedAgain (peers : ℕ) :
    (∃ r ∈ t.cids.map (sightedAgain s peers now), r.cid = cid) ↔ ∃ r ∈ t.cids, r.cid = cid := by
  constructor
  · rintro ⟨q, hq, hqc⟩
    obtain ⟨r, hr, rfl⟩ := List.mem_map.mp hq
    exact ⟨r, hr, (steady_sightedAgain s peers now r).1.symm.trans hqc⟩
  · rintro ⟨r, hr, hrc⟩
    exact ⟨_, List.mem_map_of_mem hr, (steady_sightedAgain s peers now r).1.trans hrc⟩

theorem filter_noted (hc : s.cid ≠ cid) : ((noted s t).filter fun p => p.1 = cid) = t.peers.filter fun p => p.1 = cid := by
  rw [noted_eq]
  split_ifs
  · rfl
  · rw [List.filter_append, List.filter_singleton, decide_eq_false hc]
    exact List.append_nil _

theorem same_other (hc : s.cid ≠ cid) : SameFor cid t ((record cfg upper s now).run t).2 := by
  generalize ht' : ((record cfg upper s now).run t).2 = t'
  obtain ⟨-, he⟩ | ⟨-, -, hcids, hpeers, hevicted, -⟩ | ⟨-, -, hcids, hpeers, hevicted, -⟩ := record_cases t' ht'.symm
  · rw [he]
    exact ⟨rfl, Iff.rfl, rfl⟩
  · refine ⟨by rw [hevicted], by rw [hcids], ?_⟩
    rw [hpeers, filter_noted hc]
  · refine ⟨?_, ?_, ?_⟩
    · rw [hevicted, Table.lookup_delete, if_neg hc.symm]
    · refine Iff.trans (exists_congr fun r => and_congr_left fun hrc => ?_) (@exists_sightedAgain cid t s now (peersWith s t))
      rw [hcids, List.mem_append, or_iff_left]
      intro hr
      unfold entering at hr
      split_ifs at hr
      · rw [List.mem_singleton.mp hr] at hrc
        exact hc hrc
      · exact List.not_mem_nil hr
    · rw [hpeers, filter_noted hc]

theorem SameFor.returned (h : SameFor cid t t') : Returned cid t' ↔ Returned cid t := by
  unfold Returned
  rw [h.entry, h.rows]

theorem SameFor.peersFor (h : SameFor cid t t') : peersFor cid t' = peersFor cid t := by
  unfold Work.peersFor
  rw [h.peers]

theorem peersFor_noted : ((((noted s t).filter fun p => p.1 = s.cid).map Prod.snd).toFinset) =
    insert s.peer (peersFor s.cid t) := by
  rw [noted_eq]
  split_ifs with hmem
  · exact (Finset.insert_eq_self.mpr (mem_peersFor.mpr hmem)).symm
  · rw [List.filter_append, List.filter_singleton, decide_eq_true rfl, List.map_append, List.toFinset_append]
    exact Finset.union_comm _ _

/-- What was recorded since the CID was evicted with `count`. -/
structure Tracked (cid : Text) (count : ℤ) (t : Tables) : Prop where
  once : (t.peers.filter fun p => p.1 = cid).Nodup
  entry : ∀ e, t.evicted.lookup cid = some e → e.1 = count ∧ ∀ r ∈ t.cids, r.cid ≠ cid

theorem HeldBack.tracked (h : HeldBack cid count t) (hp : Unwanted cid t) : Tracked cid count t where
  once := by
    have hnone : (t.peers.filter fun p => p.1 = cid) = [] :=
      List.filter_eq_nil_iff.mpr fun p hmem => by simpa using hp p hmem
    rw [hnone]
    exact List.nodup_nil
  entry := by
    intro e he
    obtain ⟨now, hentry⟩ := h.entry
    cases hentry.symm.trans he
    exact ⟨rfl, h.away⟩

theorem SameFor.tracked (h : SameFor cid t t') (ht : Tracked cid count t) : Tracked cid count t' where
  once := by
    rw [h.peers]
    exact ht.once
  entry := by
    intro e he
    rw [h.entry] at he
    obtain ⟨hcount, haway⟩ := ht.entry e he
    refine ⟨hcount, fun r hr hrc => ?_⟩
    obtain ⟨q, hq, hqc⟩ := h.rows.mp ⟨r, hr, hrc⟩
    exact haway q hq hqc

theorem Tracked.card (h : Tracked cid count t) : (t.peers.countP fun p => p.1 = cid) = (peersFor cid t).card := by
  unfold peersFor
  rw [List.toFinset_card_of_nodup, List.length_map, List.countP_eq_length_filter]
  apply h.once.map_on
  intro p hp q hq he
  have hp' := of_decide_eq_true (List.mem_filter.mp hp).2
  have hq' := of_decide_eq_true (List.mem_filter.mp hq).2
  exact Prod.ext (hp'.trans hq'.symm) he

theorem once_noted (h : (t.peers.filter fun p => p.1 = s.cid).Nodup) : ((noted s t).filter fun p => p.1 = s.cid).Nodup := by
  rw [noted_eq]
  split_ifs with hmem
  · exact h
  · rw [List.filter_append]
    apply h.append ((List.nodup_singleton _).filter _)
    intro p hp hq
    rw [List.mem_singleton.mp (List.mem_filter.mp hq).1] at hp
    exact hmem (List.mem_filter.mp hp).1

/-- The CID is back only if more peers than `count` want it. -/
def Grown (cid : Text) (count : ℤ) (t : Tables) : Prop := Returned cid t → count < (peersFor cid t).card

theorem withheld_iff (h : Tracked s.cid count t) :
    withheld s t = true ↔ (t.evicted.lookup s.cid).isSome = true ∧ ((peersFor s.cid t).card : ℤ) + 1 ≤ count := by
  unfold withheld
  rw [h.card]
  cases he : t.evicted.lookup s.cid with
  | none => simp
  | some e =>
    rw [Option.any_some, decide_eq_true_eq, (h.entry e he).1]
    simp

theorem Tracked.sight (h : Tracked cid count t) (e : Sighting × ℚ) : Tracked cid count (sight cfg upper t e) := by
  by_cases hc : e.1.cid = cid
  · subst hc
    obtain ⟨-, he⟩ | ⟨-, -, hcids, hpeers, hevicted, -⟩ | ⟨-, -, -, hpeers, hevicted, -⟩ := @record_cases cfg upper e.1 t e.2 _ rfl
    · rw [Work.sight, he]
      exact h
    · refine ⟨?_, ?_⟩
      · rw [Work.sight, hpeers]
        exact once_noted h.once
      · rw [Work.sight, hevicted, hcids]
        exact h.entry
    · refine ⟨?_, fun entry he => ?_⟩
      · rw [Work.sight, hpeers]
        exact once_noted h.once
      · rw [Work.sight, hevicted, Table.lookup_delete, if_pos rfl] at he
        cases he
  · exact (same_other hc).tracked h

theorem grown_returned (h : Tracked s.cid count t) (hg : Grown s.cid count t) (hr : ¬refuses upper s t)
    (hw : withheld s t = false) :
    count < (insert s.peer (peersFor s.cid t)).card ↔ ¬WantsAgain upper s.cid count t s := by
  cases he : t.evicted.lookup s.cid with
  | none =>
    apply iff_of_true
    · have hcard := hg (Or.inl he)
      have hle := Finset.card_le_card (Finset.subset_insert s.peer (peersFor s.cid t))
      omega
    · rintro ⟨-, -, hsome, -⟩
      rw [he] at hsome
      cases hsome
  | some e =>
    have hfull : ¬((t.evicted.lookup s.cid).isSome = true ∧ ((peersFor s.cid t).card : ℤ) + 1 ≤ count) := by
      rw [← withheld_iff h, hw]
      exact Bool.false_ne_true
    rw [he] at hfull
    have hle : count ≤ (peersFor s.cid t).card := by
      by_contra hlt
      exact hfull ⟨rfl, by omega⟩
    by_cases hp : s.peer ∈ peersFor s.cid t
    · rw [Finset.insert_eq_self.mpr hp]
      constructor
      · rintro hlt ⟨-, -, -, -, hcard⟩
        omega
      · intro hagain
        by_contra hge
        exact hagain ⟨rfl, hr, by rw [he]; rfl, hp, by omega⟩
    · rw [Finset.card_insert_of_notMem hp]
      apply iff_of_true
      · push_cast
        omega
      · rintro ⟨-, -, -, hmem, -⟩
        exact hp hmem

theorem grown_own (h : Tracked s.cid count t) (hg : Grown s.cid count t) (ht' : t' = ((record cfg upper s now).run t).2) :
    Grown s.cid count t' ↔ ¬WantsAgain upper s.cid count t s := by
  obtain ⟨hbad, he⟩ | ⟨-, hw, hcids, -, hevicted, -⟩ | ⟨hr, hw, -, hpeers, hevicted, -⟩ := record_cases t' ht'
  · rw [he]
    exact iff_of_true hg fun hagain => hagain.2.1 hbad
  · obtain ⟨hsome, hfew⟩ := (withheld_iff h).mp hw
    apply iff_of_true
    · obtain ⟨e, he⟩ := Option.isSome_iff_exists.mp hsome
      rintro (hnone | ⟨r, hmem, hrc⟩)
      · rw [hevicted, he] at hnone
        cases hnone
      · rw [hcids] at hmem
        exact absurd hrc ((h.entry e he).2 r hmem)
    · rintro ⟨-, -, -, -, hcard⟩
      omega
  · have hback : Returned s.cid t' := by
      left
      rw [hevicted, Table.lookup_delete, if_pos rfl]
    have hfor : peersFor s.cid t' = insert s.peer (peersFor s.cid t) := by
      rw [← peersFor_noted, ← hpeers]
      rfl
    rw [Grown, hfor, forall_prop_of_true hback]
    exact grown_returned h hg hr hw

theorem grown_sight (h : Tracked cid count t) (hg : Grown cid count t) (e : Sighting × ℚ) :
    Grown cid count (sight cfg upper t e) ↔ ¬WantsAgain upper cid count t e.1 := by
  by_cases hc : e.1.cid = cid
  · subst hc
    exact grown_own h hg rfl
  · have hsame := @same_other cfg upper cid t e.1 e.2 hc
    apply iff_of_true
    · unfold Grown
      rw [sight, hsame.returned, hsame.peersFor]
      exact hg
    · exact fun hagain => hc hagain.1

theorem refuses_congr {s' : Sighting} (hc : s.cid = s'.cid) (hu : t.unprocessable = t'.unprocessable) :
    refuses upper s t ↔ refuses upper s' t' := by
  unfold refuses
  rw [hc, hu]

theorem unprocessable_sight (e : Sighting × ℚ) : (sight cfg upper t e).unprocessable = t.unprocessable := by
  obtain ⟨-, he⟩ | ⟨-, -, -, -, -, hu⟩ | ⟨-, -, -, -, -, hu⟩ := @record_cases cfg upper e.1 t e.2 _ rfl
  · rw [sight, he]
  · exact hu
  · exact hu

theorem wanters_append (seen : List (Sighting × ℚ)) (e : Sighting × ℚ) :
    wanters cid (seen ++ [e]) = if e.1.cid = cid then insert e.1.peer (wanters cid seen) else wanters cid seen := by
  unfold wanters
  rw [List.filter_append, List.filter_singleton]
  split_ifs with hc
  · rw [decide_eq_true hc, List.map_append, List.toFinset_append]
    exact Finset.union_comm _ _
  · rw [decide_eq_false hc]
    exact congrArg _ (congrArg _ (List.append_nil _))

theorem followed (s : Sighting) (hs : s.cid = cid) (hback : ¬Returned cid t) (hp : peersFor cid t = ∅)
    (seen : List (Sighting × ℚ)) :
    let t' := run (sight cfg upper) t seen
    t'.unprocessable = t.unprocessable ∧ (refuses upper s t → ¬Returned cid t') ∧
      (¬refuses upper s t → peersFor cid t' = wanters cid seen) := by
  induction seen using List.reverseRecOn with
  | nil => exact ⟨rfl, fun _ => hback, fun _ => hp⟩
  | append_singleton seen e ih =>
    obtain ⟨hu, hout, hin⟩ := ih
    dsimp only
    rw [run_append, run_cons, run_nil, wanters_append]
    generalize run (sight cfg upper) t seen = t₁ at hu hout hin
    obtain ⟨s', now⟩ := e
    refine ⟨(unprocessable_sight _).trans hu, ?_⟩
    by_cases hc : s'.cid = cid
    · have hsame : refuses upper s' t₁ ↔ refuses upper s t := refuses_congr (hc.trans hs.symm) hu
      rw [if_pos hc, ← hsame]
      rw [← hsame] at hout hin
      obtain ⟨hr, he⟩ | ⟨hr, -, -, hpeers, -⟩ | ⟨hr, -, -, hpeers, -⟩ := @record_cases cfg upper s' t₁ now _ rfl
      · refine ⟨fun _ => ?_, fun hn => absurd hr hn⟩
        rw [sight, he]
        exact hout hr
      all_goals
        refine ⟨fun hbad => absurd hbad hr, fun _ => ?_⟩
        subst hc
        rw [← hin hr, ← peersFor_noted, ← hpeers]
        rfl
    · have hsame := @same_other cfg upper cid t₁ s' now hc
      rw [if_neg hc, sight, hsame.returned, hsame.peersFor]
      exact ⟨hout, hin⟩

end Wanted

/-- A CID that was evicted comes back only when more peers want it than then, all along exactly those sightings in
which none of its peers wants it once more when their number is that of then. -/
theorem returns_iff (cfg : Config) (upper : Text → Text) (cid : Text) (t t' : Tables) (h : Evicts cid t t') :
    ∃ count now, t'.evicted.lookup cid = some (count, now) ∧ ∀ sightings,
      (∀ seen, seen <+: sightings → Returned cid (run (sight cfg upper) t' seen) → count < (wanters cid seen).card) ↔
        Along (sight cfg upper) (fun t e => ¬WantsAgain upper cid count t e.1) t' sightings := by
  obtain ⟨count, hback, hp⟩ := h.heldBack
  obtain ⟨now, he⟩ := hback.entry
  have hempty : peersFor cid t' = ∅ := by
    apply Finset.eq_empty_of_forall_notMem
    intro peer hpeer
    exact hp _ (mem_peersFor.mp hpeer) rfl
  have hstart : Tracked cid count t' ∧ Grown cid count t' := ⟨hback.tracked hp, fun hr => absurd hr hback.not_returned⟩
  have hstep (t : Tables) (e : Sighting × ℚ) (h : Tracked cid count t ∧ Grown cid count t) :
      Tracked cid count (sight cfg upper t e) ∧ Grown cid count (sight cfg upper t e) ↔ ¬WantsAgain upper cid count t e.1 :=
    (and_iff_right (h.1.sight e)).trans (grown_sight h.1 h.2 e)
  refine ⟨count, now, he, fun sightings => ?_⟩
  rw [← always_iff_along hstep hstart]
  refine forall_congr' fun seen => forall_congr' fun _ => ?_
  have htracked : Tracked cid count (run (sight cfg upper) t' seen) :=
    run_invariant_of_step (fun _ e h => h.sight e) hstart.1 seen
  rw [and_iff_right htracked]
  -- whether the CID is one that is put on record at all
  obtain ⟨-, hout, hin⟩ := @followed cfg upper cid t' ⟨cid, [], 0⟩ rfl hback.not_returned hempty seen
  by_cases hr : refuses upper ⟨cid, [], 0⟩ t'
  · exact iff_of_true (fun hb => absurd hb (hout hr)) fun hb => absurd hb (hout hr)
  · rw [Grown, hin hr]

section Samples

def wantedFolder : Tables := sight {} Fetch.asciiChars.upper empty (⟨rootCid, peerA, 990⟩, 999)

def droppedFolder : Tables := ((dropDirectory rootCid 1000).run wantedFolder).2

theorem droppedFolder_entry : droppedFolder.evicted.lookup rootCid = some (1, 1000) := by decide +kernel

def wantedTwice : List (Sighting × ℚ) := [(⟨rootCid, peerA, 1001⟩, 1001), (⟨rootCid, peerA, 1002⟩, 1002)]

theorem returned_unwanted :
    ¬∃ count now, droppedFolder.evicted.lookup rootCid = some (count, now) ∧ ∀ seen, seen <+: wantedTwice →
      Returned rootCid (run (sight {} Fetch.asciiChars.upper) droppedFolder seen) → count < (wanters rootCid seen).card := by
  rintro ⟨count, now, he, h⟩
  cases he.symm.trans droppedFolder_entry
  have hback : Returned rootCid (run (sight {} Fetch.asciiChars.upper) droppedFolder wantedTwice) := Or.inl (by decide +kernel)
  have hcard := h wantedTwice (List.prefix_refl _) hback
  revert hcard
  decide +kernel

def wantedByBoth : List (Sighting × ℚ) := [(⟨rootCid, peerA, 1001⟩, 1001), (⟨rootCid, peerB, 1002⟩, 1002)]

theorem returned_wanted :
    ∃ count now, droppedFolder.evicted.lookup rootCid = some (count, now) ∧ ∀ seen, seen <+: wantedByBoth →
      Returned rootCid (run (sight {} Fetch.asciiChars.upper) droppedFolder seen) → count < (wanters rootCid seen).card := by
  obtain ⟨count, now, he, hiff⟩ := returns_iff {} Fetch.asciiChars.upper rootCid wantedFolder droppedFolder (Evicts.directory 1000)
  refine ⟨count, now, he, (hiff wantedByBoth).mpr ?_⟩
  cases he.symm.trans droppedFolder_entry
  decide +kernel

end Samples

end ObserverClub.Work
