import ObserverClub.FetchBounds
import ObserverClub.Library.Preserving
import ObserverClub.Library.Runs
import ObserverClub.Work

namespace ObserverClub.Work

open Library Python Indexer

section Lanes

variable (lane : Queued → Bool) (t : Tables)

def liveCount : ℕ := t.cids.countP Queued.live

def laneSize : ℕ := t.cids.countP fun r => r.live && lane r

theorem live_lanes : liveCount t = laneSize Queued.pdfLane t + laneSize Queued.htmlLane t := by
  unfold liveCount laneSize
  induction t.cids with
  | nil => rfl
  | cons r rows ih =>
    rw [List.countP_cons, List.countP_cons, List.countP_cons, ih, Queued.htmlLane]
    cases r.live <;> cases r.pdfLane <;>
      simp only [Bool.false_and, Bool.true_and, Bool.not_true, Bool.not_false, Bool.false_eq_true, ↓reduceIte] <;>
      omega

def laneOf (codec : Text) : Queued → Bool := if codec = txt "dag-pb" then Queued.pdfLane else Queued.htmlLane

def otherLane (codec : Text) : Queued → Bool := if codec = txt "dag-pb" then Queued.htmlLane else Queued.pdfLane

theorem live_laneOf (codec : Text) : liveCount t = laneSize (laneOf codec) t + laneSize (otherLane codec) t := by
  unfold laneOf otherLane
  rw [live_lanes]
  split_ifs
  · rfl
  · exact Nat.add_comm _ _

end Lanes

section Sightings

variable (cfg : Config) (upper : Text → Text) (s : Sighting) (t : Tables)

def probesFull (codec : Text) : Prop := codec = txt "dag-pb" ∧ cfg.maxDirQueue ≤ laneSize Queued.probe t

instance (codec : Text) : Decidable (probesFull cfg t codec) := inferInstanceAs (Decidable (_ ∧ _))

def HasRoom (codec : Text) : Prop :=
  laneSize (laneOf codec) t + min (laneSize (otherLane codec) t) cfg.laneCap < cfg.maxQueue ∧ ¬probesFull cfg t codec

instance (codec : Text) : Decidable (HasRoom cfg t codec) := inferInstanceAs (Decidable (_ ∧ _))

def noted : List (Text × Text) := ((notePeer s.cid s.peer).run t).2.peers

theorem noted_eq : noted s t = if (s.cid, s.peer) ∈ t.peers then t.peers else t.peers ++ [(s.cid, s.peer)] := rfl

def peersWith : ℕ := (noted s t).countP fun p => p.1 = s.cid

def withheld : Bool :=
  (t.evicted.lookup s.cid).any fun e => ((t.peers.countP fun p => p.1 = s.cid : ℕ) : ℤ) + 1 ≤ e.1

def acceptable : Bool :=
  Cid.valid upper (.str s.cid) && codecOf upper s.cid ∉ skipCodecs && (t.unprocessable.lookup s.cid).isNone &&
    !withheld s t

def popular : Bool :=
  codecOf upper s.cid = txt "dag-pb" || cfg.preferMinPeerCount ≤ peersWith s t

def candidate : Bool :=
  acceptable upper s t && (Table.row? Queued.cid s.cid t.cids).isNone && popular cfg upper s t

def sightedAgain (peers : ℕ) (now : ℚ) (r : Queued) : Queued :=
  if r.cid = s.cid then
    { r with lastSeen := max r.lastSeen now, wantCount := r.wantCount + 1, peerCount := peers }
  else r

def fresh (codec : Text) (peers : ℕ) (now : ℚ) : Queued :=
  { cid := s.cid, codec := codec, firstSeen := s.ts, lastSeen := now, wantCount := peers, peerCount := peers }

def refuses : Prop :=
  (!Cid.valid upper (.str s.cid)) = true ∨ codecOf upper s.cid ∈ skipCodecs ∨ (t.unprocessable.lookup s.cid).isSome = true

instance : Decidable (refuses upper s t) := inferInstanceAs (Decidable (_ ∨ _))

end Sightings

section Steady

def Steady (f : Queued → Queued) : Prop :=
  ∀ r, (f r).cid = r.cid ∧ (f r).live = r.live ∧ (f r).pdfLane = r.pdfLane ∧ (f r).probe = r.probe

theorem steady_id : Steady id := fun _ => ⟨rfl, rfl, rfl, rfl⟩

theorem steady_sightedAgain (s : Sighting) (peers : ℕ) (now : ℚ) : Steady (sightedAgain s peers now) := by
  intro r
  unfold sightedAgain
  split_ifs <;> exact ⟨rfl, rfl, rfl, rfl⟩

variable {f : Queued → Queued} {rows : List Queued}

theorem Steady.count_live (h : Steady f) : (rows.map f).countP Queued.live = rows.countP Queued.live := by
  rw [List.countP_map]
  congr 1
  funext r
  exact (h r).2.1

theorem Steady.count_lane (h : Steady f) {lane : Queued → Bool} (hl : ∀ r, lane (f r) = lane r) :
    ((rows.map f).countP fun r => r.live && lane r) = rows.countP fun r => r.live && lane r := by
  rw [List.countP_map]
  congr 1
  funext r
  rw [Function.comp_apply, (h r).2.1, hl]

theorem Steady.laneOf (h : Steady f) (codec : Text) (r : Queued) : laneOf codec (f r) = laneOf codec r := by
  unfold Work.laneOf
  split_ifs
  · exact (h r).2.2.1
  · exact congrArg not (h r).2.2.1

theorem Steady.otherLane (h : Steady f) (codec : Text) (r : Queued) : otherLane codec (f r) = otherLane codec r := by
  unfold Work.otherLane
  split_ifs
  · exact congrArg not (h r).2.2.1
  · exact (h r).2.2.1

theorem Steady.hasRoom (h : Steady f) (cfg : Config) (codec : Text) {t t' : Tables} (hcids : t'.cids = t.cids.map f) :
    HasRoom cfg t' codec ↔ HasRoom cfg t codec := by
  unfold HasRoom probesFull laneSize
  rw [hcids, h.count_lane (h.laneOf codec), h.count_lane (h.otherLane codec), h.count_lane fun r => (h r).2.2.2]

end Steady

section Recording

variable {cfg : Config} {upper : Text → Text} {s : Sighting} {t : Tables} {now : ℚ}

theorem run_get {β : Type} (f : Tables → Op β) : (get >>= f).run t = (f t).run t := rfl

theorem run_noteSeen {β : Type} (cid : Text) (ts : ℚ) (f : Unit → Op β) :
    (noteSeen cid ts >>= f).run t = (f ()).run { t with seenCids := Table.putNew Prod.fst (cid, ts) t.seenCids } := rfl

theorem run_peersOf {β : Type} (cid : Text) (f : ℕ → Op β) :
    (peersOf cid >>= f).run t = (f (t.peers.countP fun p => p.1 = cid)).run t := rfl

theorem admits_run (codec : Text) (peers : ℕ) :
    ∃ b, (admits cfg codec peers).run t = (b, t) ∧
      (b = true ↔ (codec = txt "dag-pb" ∨ cfg.preferMinPeerCount ≤ peers) ∧ HasRoom cfg t codec) := by
  unfold admits HasRoom probesFull laneOf otherLane
  by_cases hc : codec = txt "dag-pb"
  · rw [if_neg (fun h => h.1 hc), if_pos hc, if_pos hc, if_pos hc]
    refine ⟨_, rfl, ?_⟩
    rw [Bool.and_eq_true, decide_eq_true_eq, decide_eq_true_eq, and_iff_right (Or.inl hc), and_iff_right hc, not_le]
    rfl
  · rw [if_neg hc, if_neg hc, if_neg hc, or_iff_right hc]
    by_cases hp : peers < cfg.preferMinPeerCount
    · rw [if_pos ⟨hc, hp⟩]
      exact ⟨false, rfl, iff_of_false Bool.false_ne_true fun h => not_le.mpr hp h.1⟩
    · rw [if_neg fun h => hp h.2]
      refine ⟨_, rfl, ?_⟩
      rw [decide_eq_true_eq, and_iff_right (not_lt.mp hp), and_iff_left fun h => hc h.1]
      rfl

theorem recordPeer_cids (codec : Text) :
    ((recordPeer cfg s codec now).run t).2.cids = t.cids.map (sightedAgain s (peersWith s t) now) ++
      if (Table.row? Queued.cid s.cid t.cids).isNone ∧ (codec = txt "dag-pb" ∨ cfg.preferMinPeerCount ≤ peersWith s t) ∧
          HasRoom cfg t codec then [fresh s codec (peersWith s t) now] else [] := by
  have hagain : (fun r : Queued => if decide (r.cid = s.cid) = true then
      { r with lastSeen := max r.lastSeen now, wantCount := r.wantCount + 1, peerCount := peersWith s t } else r) =
      sightedAgain s (peersWith s t) now := by
    funext r
    unfold sightedAgain
    simp only [decide_eq_true_eq]
  generalize hmid : ({ t with
    peers := if (s.cid, s.peer) ∈ t.peers then t.peers else t.peers ++ [(s.cid, s.peer)]
    cids := t.cids.map (sightedAgain s (peersWith s t) now) } : Tables) = mid
  have hrun : (recordPeer cfg s codec now).run t =
      ((if (t.cids.countP fun r => r.cid = s.cid) ≠ 0 then pure (1, 0)
        else do
          let room ← admits cfg codec (peersWith s t)
          if !room then return (0, 1)
          else
            insertRow (fresh s codec (peersWith s t) now)
            return (1, 0)) : Op (ℕ × ℕ)).run mid := by
    rw [← hmid, ← hagain]
    rfl
  have hcids : mid.cids = t.cids.map (sightedAgain s (peersWith s t) now) := by rw [← hmid]
  rw [hrun]
  cases hrow : Table.row? Queued.cid s.cid t.cids with
  | some r =>
    obtain ⟨hmem, hrc⟩ := Table.row?_some hrow
    have hn : (t.cids.countP fun r => r.cid = s.cid) ≠ 0 :=
      fun hzero => List.countP_eq_zero.mp hzero r hmem (decide_eq_true hrc)
    rw [if_pos hn, if_neg (by simp), List.append_nil]
    exact hcids
  | none =>
    have hn : ¬(t.cids.countP fun r => r.cid = s.cid) ≠ 0 := by
      rw [not_not, List.countP_eq_zero]
      exact fun r hmem hrc => Table.row?_eq_none.mp hrow r hmem (of_decide_eq_true hrc)
    obtain ⟨b, hb, hroom⟩ := admits_run (t := mid) codec (peersWith s t)
    rw [(steady_sightedAgain s (peersWith s t) now).hasRoom cfg codec hcids] at hroom
    rw [if_neg hn, StateT.run_bind, hb]
    simp only [Option.isNone_none, true_and]
    cases b with
    | true =>
      rw [if_pos (hroom.mp rfl)]
      exact congrArg (· ++ [fresh s codec (peersWith s t) now]) hcids
    | false =>
      rw [if_neg (fun h => by cases hroom.mpr h), List.append_nil]
      exact hcids

theorem candidate_iff : candidate cfg upper s t = true ↔ acceptable upper s t = true ∧
    (Table.row? Queued.cid s.cid t.cids).isNone ∧
      (codecOf upper s.cid = txt "dag-pb" ∨ cfg.preferMinPeerCount ≤ peersWith s t) := by
  unfold candidate popular
  rw [Bool.and_eq_true, Bool.and_eq_true, Bool.or_eq_true, decide_eq_true_eq, decide_eq_true_eq, and_assoc]

def entering (cfg : Config) (upper : Text → Text) (s : Sighting) (now : ℚ) (t : Tables) : List Queued :=
  if candidate cfg upper s t = true ∧ HasRoom cfg t (codecOf upper s.cid) then
    [fresh s (codecOf upper s.cid) (peersWith s t) now] else []

theorem acceptable_iff : acceptable upper s t = true ↔ ¬refuses upper s t ∧ withheld s t = false := by
  unfold acceptable refuses
  simp only [Bool.and_eq_true, Bool.not_eq_true', not_or, Bool.not_eq_false, decide_eq_true_eq,
    Option.isNone_iff_eq_none, Option.isSome_iff_ne_none, not_not, ne_eq, and_assoc]

theorem recordPeer_peers (codec : Text) :
    ((recordPeer cfg s codec now).run t).2.peers = noted s t ∧
      ((recordPeer cfg s codec now).run t).2.evicted = t.evicted ∧
      ((recordPeer cfg s codec now).run t).2.unprocessable = t.unprocessable := by
  have hrest (peers : ℕ) : Preserves (fun t' : Tables =>
      t'.peers = noted s t ∧ t'.evicted = t.evicted ∧ t'.unprocessable = t.unprocessable) (do
      let n ← update (fun r => r.cid = s.cid) fun r =>
        { r with lastSeen := max r.lastSeen now, wantCount := r.wantCount + 1, peerCount := peers }
      if n ≠ 0 then return (1, 0)
      else
        let room ← admits cfg codec peers
        if !room then return (0, 1)
        else
          insertRow { cid := s.cid, codec := codec, firstSeen := s.ts, lastSeen := now, wantCount := peers, peerCount := peers }
          return (1, 0) : Op (ℕ × ℕ)) := by
    refine preserves_bind (fun _ h => h) fun n => ?_
    apply preserves_ite
    · intro
      apply preserves_pure
    · intro
      refine preserves_bind (fun t' h => ?_) fun room => ?_
      · obtain ⟨b, hb, -⟩ := @admits_run cfg t' codec peers
        rw [hb]
        exact h
      · apply preserves_ite
        · intro
          apply preserves_pure
        · intro
          exact preserves_map fun _ h => h
  exact hrest _ { t with peers := noted s t } ⟨rfl, rfl, rfl⟩

theorem lookup_eq_none {evicted : List (Text × (ℤ × ℚ))} {cid : Text} :
    evicted.lookup cid = none ↔ ∀ e ∈ evicted, e.1 ≠ cid := by
  rw [List.lookup_eq_none_iff]
  simp only [bne_iff_ne, ne_comm]

theorem delete_of_lookup {evicted : List (Text × (ℤ × ℚ))} {cid : Text} (h : evicted.lookup cid = none) :
    Table.delete Prod.fst cid evicted = evicted := by
  apply List.filter_eq_self.mpr
  intro e he
  exact decide_eq_true (lookup_eq_none.mp h e he)

theorem record_cases (t' : Tables) (h : t' = ((record cfg upper s now).run t).2) :
    (refuses upper s t ∧ t' = t) ∨
    (¬refuses upper s t ∧ withheld s t = true ∧ t'.cids = t.cids ∧ t'.peers = noted s t ∧
      t'.evicted = t.evicted ∧ t'.unprocessable = t.unprocessable) ∨
    (¬refuses upper s t ∧ withheld s t = false ∧
      t'.cids = t.cids.map (sightedAgain s (peersWith s t) now) ++ entering cfg upper s now t ∧
      t'.peers = noted s t ∧ t'.evicted = Table.delete Prod.fst s.cid t.evicted ∧ t'.unprocessable = t.unprocessable) := by
  have hrecorded (t₁ : Tables) (hrun : t' = ((recordPeer cfg s (codecOf upper s.cid) now).run t₁).2)
      (hcids : t₁.cids = t.cids) (hpeers : t₁.peers = t.peers) (hbinary : t₁.unprocessable = t.unprocessable)
      (ha : acceptable upper s t = true) (hevicted : t₁.evicted = Table.delete Prod.fst s.cid t.evicted) :
      t'.cids = t.cids.map (sightedAgain s (peersWith s t) now) ++ entering cfg upper s now t ∧
        t'.peers = noted s t ∧ t'.evicted = Table.delete Prod.fst s.cid t.evicted ∧ t'.unprocessable = t.unprocessable := by
    have hnoted : noted s t₁ = noted s t := by
      rw [noted_eq, noted_eq, hpeers]
    have hwith : peersWith s t₁ = peersWith s t := by
      unfold peersWith
      rw [hnoted]
    have hroom : HasRoom cfg t₁ (codecOf upper s.cid) ↔ HasRoom cfg t (codecOf upper s.cid) :=
      steady_id.hasRoom cfg _ (hcids.trans (List.map_id _).symm)
    obtain ⟨hp, he, hu⟩ := @recordPeer_peers cfg s t₁ now (codecOf upper s.cid)
    rw [hrun]
    refine ⟨?_, hp.trans hnoted, he.trans hevicted, hu.trans hbinary⟩
    rw [recordPeer_cids, hwith, hcids]
    simp only [entering, candidate_iff, ha, true_and, hroom, and_assoc]
  unfold record at h
  dsimp only at h
  rw [run_get] at h
  split_ifs at h with hbad
  · exact Or.inl ⟨hbad, h⟩
  · refine Or.inr ?_
    rw [run_noteSeen] at h
    cases he : t.evicted.lookup s.cid with
    | none =>
      have hw : withheld s t = false := by
        unfold withheld
        rw [he]
        rfl
      rw [he] at h
      exact Or.inr ⟨hbad, hw, hrecorded _ h rfl rfl rfl (acceptable_iff.mpr ⟨hbad, hw⟩) (delete_of_lookup he).symm⟩
    | some ev =>
      rw [he] at h
      dsimp only at h
      rw [run_peersOf] at h
      split_ifs at h with hgrown
      · refine Or.inl ⟨hbad, ?_, ?_⟩
        · unfold withheld
          rw [he]
          exact decide_eq_true hgrown
        · rw [h]
          exact ⟨rfl, rfl, rfl, rfl⟩
      · have hw : withheld s t = false := by
          unfold withheld
          rw [he]
          exact decide_eq_false hgrown
        exact Or.inr ⟨hbad, hw, hrecorded _ h rfl rfl rfl (acceptable_iff.mpr ⟨hbad, hw⟩) rfl⟩

theorem record_cids :
    ∃ f, Steady f ∧ ((record cfg upper s now).run t).2.cids = t.cids.map f ++ entering cfg upper s now t := by
  have hkept (h : acceptable upper s t = false) : t.cids = t.cids.map id ++ entering cfg upper s now t := by
    rw [entering, if_neg fun hc => Bool.false_ne_true (h.symm.trans (candidate_iff.mp hc.1).1), List.map_id,
      List.append_nil]
  obtain ⟨hbad, he⟩ | ⟨-, hw, hcids, -⟩ | ⟨-, -, hcids, -⟩ := @record_cases cfg upper s t now _ rfl
  · rw [he]
    exact ⟨id, steady_id, hkept (Bool.eq_false_iff.mpr fun ha => (acceptable_iff.mp ha).1 hbad)⟩
  · rw [hcids]
    exact ⟨id, steady_id, hkept (Bool.eq_false_iff.mpr fun ha => Bool.false_ne_true ((acceptable_iff.mp ha).2.symm.trans hw))⟩
  · exact ⟨_, steady_sightedAgain _ _ _, hcids⟩

theorem liveCount_record :
    liveCount ((record cfg upper s now).run t).2 = liveCount t + (entering cfg upper s now t).length := by
  obtain ⟨f, hf, hcids⟩ := record_cids (s := s) (t := t)
  rw [liveCount, hcids, List.countP_append, hf.count_live, liveCount, entering]
  split_ifs <;> rfl

/-- The sighting lengthens a full queue: the other lane has taken up more than its half. -/
def Overfills (cfg : Config) (upper : Text → Text) (t : Tables) (s : Sighting) : Prop :=
  candidate cfg upper s t = true ∧ ¬probesFull cfg t (codecOf upper s.cid) ∧ liveCount t = cfg.maxQueue ∧
    cfg.laneCap < laneSize (otherLane (codecOf upper s.cid)) t

instance (s : Sighting) : Decidable (Overfills cfg upper t s) := inferInstanceAs (Decidable (_ ∧ _))

theorem record_within (h : liveCount t ≤ cfg.maxQueue) :
    liveCount ((record cfg upper s now).run t).2 ≤ cfg.maxQueue ↔ ¬Overfills cfg upper t s := by
  have hlanes := live_laneOf t (codecOf upper s.cid)
  rw [liveCount_record, entering]
  unfold HasRoom Overfills
  split_ifs with hin
  · obtain ⟨hc, hroom, hp⟩ := hin
    simp only [hc, hp, List.length_singleton, true_and, not_false_eq_true]
    omega
  · apply iff_of_true
    · exact h
    · rintro ⟨hc, hp, hfull, hother⟩
      refine hin ⟨hc, ?_, hp⟩
      rw [Nat.min_eq_right (le_of_lt hother)]
      omega

/-- A sighting refused for lack of room: nothing is wrong with its CID, which is not in the queue afterwards. -/
def Refused (cfg : Config) (upper : Text → Text) (t : Tables) (s : Sighting) (now : ℚ) : Prop :=
  candidate cfg upper s t = true ∧ Table.row? Queued.cid s.cid ((record cfg upper s now).run t).2.cids = none

theorem refused_full (hq : 2 ≤ cfg.maxQueue) (h : Refused cfg upper t s now) :
    cfg.maxQueue ≤ 2 * laneSize (laneOf (codecOf upper s.cid)) t ∨ probesFull cfg t (codecOf upper s.cid) := by
  obtain ⟨hc, hrow⟩ := h
  obtain ⟨f, hf, hcids⟩ := record_cids (s := s) (t := t)
  have hroom : ¬HasRoom cfg t (codecOf upper s.cid) := by
    intro hroom
    rw [hcids, entering, if_pos ⟨hc, hroom⟩] at hrow
    exact Table.row?_eq_none.mp hrow _ (List.mem_append_right _ (List.mem_singleton_self _)) rfl
  rw [or_iff_not_imp_right]
  intro hp
  rw [HasRoom, and_iff_left hp, Config.laneCap] at hroom
  omega

/-- The queue is within its cap, and refuses room to no lane that has not got its half. -/
def Capped (cfg : Config) (upper : Text → Text) (t : Tables) : Prop :=
  liveCount t ≤ cfg.maxQueue ∧ ∀ s now, Refused cfg upper t s now →
    cfg.maxQueue ≤ 2 * laneSize (laneOf (codecOf upper s.cid)) t ∨ probesFull cfg t (codecOf upper s.cid)

theorem capped_iff_within (hq : 2 ≤ cfg.maxQueue) : Capped cfg upper t ↔ liveCount t ≤ cfg.maxQueue :=
  and_iff_left fun _ _ => refused_full hq

def sight (cfg : Config) (upper : Text → Text) (t : Tables) (e : Sighting × ℚ) : Tables :=
  ((record cfg upper e.1 e.2).run t).2

/-- The queue is capped all along the sightings exactly if none comes upon a full queue in which the other lane
has more than its half. -/
theorem capped_iff (cfg : Config) (hq : 2 ≤ cfg.maxQueue) (upper : Text → Text) (sightings : List (Sighting × ℚ)) :
    (∀ seen, seen <+: sightings → Capped cfg upper (run (sight cfg upper) empty seen)) ↔
      Along (sight cfg upper) (fun t e => ¬Overfills cfg upper t e.1) empty sightings := by
  apply always_iff_along
  · intro t e ht
    rw [capped_iff_within hq] at ht ⊢
    exact record_within ht
  · rw [capped_iff_within hq]
    exact Nat.zero_le _

end Recording

section Samples

def peerA : Text := txt "12D3KooWPeerA"

def peerB : Text := txt "12D3KooWPeerB"

def leafCid : Text := txt "bafkreihdwdcefgh4dqkjv67uzcmw7ojee6xedzdetojuzjevtenxquvyku"

def leafCid' : Text := txt "bafkreie4n4gltq5kcq7dmjxgge5ramunmo24favqeym6cbauiez4krkyqa"

def rootCid : Text := txt "bafybeic2r2um7wstx4c6viqnsw4lscitoc3wluj7yo43qwjkmrdllav3tq"

def smallQueue : Config := { maxQueue := 2 }

def leaves : List (Sighting × ℚ) :=
  [(⟨leafCid, peerA, 990⟩, 1000), (⟨leafCid, peerB, 991⟩, 1001), (⟨leafCid', peerA, 992⟩, 1002),
    (⟨leafCid', peerB, 993⟩, 1003)]

theorem overfilled :
    ¬∀ seen, seen <+: leaves ++ [(⟨rootCid, peerA, 994⟩, 1004)] →
      Capped smallQueue Fetch.asciiChars.upper (run (sight smallQueue Fetch.asciiChars.upper) empty seen) := by
  intro h
  have hlive := (h _ (List.prefix_refl _)).1
  revert hlive
  decide +kernel

theorem capped_leaves : Capped smallQueue Fetch.asciiChars.upper (run (sight smallQueue Fetch.asciiChars.upper) empty leaves) :=
  (capped_iff smallQueue (by decide) Fetch.asciiChars.upper leaves).mpr (by decide +kernel) leaves (List.prefix_refl leaves)

end Samples

end ObserverClub.Work
