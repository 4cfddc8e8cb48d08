import ObserverClub.Votes

namespace ObserverClub.Labels

open Library Library.Plurality Python Catalog Store

variable (o : Observer)

structure Tally.Same (a b : Tally) : Prop where
  field : a.field = b.field
  topic : a.topic = b.topic
  keywords : a.keywords = b.keywords
  labelVoters : a.labelVoters = b.labelVoters
  fieldVotes : ∀ k, a.fieldVotes.lookup k = b.fieldVotes.lookup k
  topicVotes : ∀ k, a.topicVotes.lookup k = b.topicVotes.lookup k
  keywordVotes : ∀ k, a.keywordVotes.lookup k = b.keywordVotes.lookup k

def latest (rows : List Classify) : List Classify :=
  rows.filter fun r => ∀ q ∈ rows, q.publisher = r.publisher → q.receivedAt ≤ r.receivedAt

def debut (rows : List Classify) (publisher : Text) : ℚ :=
  ((rows.find? fun r => r.publisher = publisher).map Classify.receivedAt).getD 0

def named (item : Classify → Text × Text) (rows : List Classify) : List (Text × Text) :=
  (rows.map item).filter fun i => i.1 ≠ []

def Leading (item : Classify → Text × Text) (ballots : List Classify) (r : Classify) : Prop :=
  (item r).1 ≠ [] ∧ Leads (named item ballots) (item r).1

instance (item : Classify → Text × Text) (ballots : List Classify) (r : Classify) : Decidable (Leading item ballots r) :=
  inferInstanceAs (Decidable (_ ∧ _))

/-- Of the leading ballots, the earliest shows what that of the publisher shows who was there first. -/
def SameLead (item : Classify → Text × Text) (rows : List Classify) : Prop :=
  ∀ a ∈ latest rows, Leading item (latest rows) a →
    (∀ c ∈ latest rows, Leading item (latest rows) c → debut rows a.publisher ≤ debut rows c.publisher) →
  ∀ b ∈ latest rows, Leading item (latest rows) b →
    (∀ c ∈ latest rows, Leading item (latest rows) c → b.receivedAt ≤ c.receivedAt) →
  (item a).2 = (item b).2

section Rolls

variable {rows : List Classify} {r : Classify}

abbrev Ordered (rows : List Classify) : Prop := rows.Pairwise fun a b => a.receivedAt < b.receivedAt

theorem Ordered.lt_snoc (h : Ordered (rows ++ [r])) {q : Classify} (hq : q ∈ rows) : q.receivedAt < r.receivedAt :=
  (List.pairwise_append.mp h).2.2 q hq r (List.mem_singleton_self r)

theorem mem_latest : r ∈ latest rows ↔ r ∈ rows ∧ ∀ q ∈ rows, q.publisher = r.publisher → q.receivedAt ≤ r.receivedAt := by
  rw [latest, List.mem_filter, decide_eq_true_eq]

theorem mem_latest_snoc (h : Ordered (rows ++ [r])) {p : Classify} :
    p ∈ latest (rows ++ [r]) ↔ p = r ∨ p ∈ latest rows ∧ p.publisher ≠ r.publisher := by
  simp only [mem_latest, List.mem_append, List.mem_singleton, or_imp, forall_and, forall_eq]
  constructor
  · rintro ⟨hp | rfl, hrows, hlast⟩
    · refine .inr ⟨⟨hp, hrows⟩, fun he => ?_⟩
      exact absurd (hlast he.symm) (not_le_of_gt (h.lt_snoc hp))
    · exact .inl rfl
  · rintro (rfl | ⟨⟨hp, hrows⟩, hne⟩)
    · exact ⟨.inr rfl, fun q hq _ => (h.lt_snoc hq).le, fun _ => le_rfl⟩
    · exact ⟨.inl hp, hrows, fun he => absurd he.symm hne⟩

theorem latestPerPublisher_new (h : ∀ p ∈ latestPerPublisher rows, p.publisher ≠ r.publisher) :
    latestPerPublisher (rows ++ [r]) = latestPerPublisher rows ++ [r] := by
  have hnone : (latestPerPublisher rows).find? (fun p => p.publisher = r.publisher) = none := by
    rw [List.find?_eq_none]
    intro p hp he
    exact h p hp (of_decide_eq_true he)
  unfold latestPerPublisher at hnone ⊢
  rw [List.foldl_append, List.foldl_cons, List.foldl_nil, hnone]

theorem latestPerPublisher_again (h : ∀ p ∈ latestPerPublisher rows, p.receivedAt ≤ r.receivedAt)
    (hseen : ∃ p ∈ latestPerPublisher rows, p.publisher = r.publisher) :
    latestPerPublisher (rows ++ [r]) =
      (latestPerPublisher rows).map fun p => if p.publisher = r.publisher then r else p := by
  obtain ⟨p, hp⟩ : ∃ p, (latestPerPublisher rows).find? (fun p => p.publisher = r.publisher) = some p := by
    rw [← Option.isSome_iff_exists, List.find?_isSome]
    obtain ⟨p, hp, he⟩ := hseen
    exact ⟨p, hp, decide_eq_true he⟩
  have hle := h p (List.mem_of_find?_eq_some hp)
  unfold latestPerPublisher at hp ⊢
  rw [List.foldl_append, List.foldl_cons, List.foldl_nil, hp]
  exact if_pos hle

theorem mem_latestPerPublisher (h : Ordered rows) {p : Classify} : p ∈ latestPerPublisher rows ↔ p ∈ latest rows := by
  induction rows using List.reverseRecOn generalizing p with
  | nil => exact Iff.rfl
  | append_singleton rows r ih =>
    have ih {p : Classify} := ih (List.pairwise_append.mp h).1 (p := p)
    rw [mem_latest_snoc h, ← ih]
    by_cases hseen : ∃ p ∈ latestPerPublisher rows, p.publisher = r.publisher
    · rw [latestPerPublisher_again (fun p hp => (h.lt_snoc (mem_latest.mp (ih.mp hp)).1).le) hseen, List.mem_map]
      constructor
      · rintro ⟨q, hq, rfl⟩
        split_ifs with he
        · exact .inl rfl
        · exact .inr ⟨hq, he⟩
      · rintro (rfl | ⟨hp, hne⟩)
        · obtain ⟨q, hq, he⟩ := hseen
          exact ⟨q, hq, if_pos he⟩
        · exact ⟨p, hp, if_neg hne⟩
    · have hnew : ∀ p ∈ latestPerPublisher rows, p.publisher ≠ r.publisher := fun p hp he => hseen ⟨p, hp, he⟩
      rw [latestPerPublisher_new hnew, List.mem_append, List.mem_singleton]
      constructor
      · exact fun hp => hp.elim (fun hp => .inr ⟨hp, hnew p hp⟩) .inl
      · exact fun hp => hp.elim .inr fun hp => .inl hp.1

theorem exists_latest (h : Ordered rows) (hr : r ∈ rows) : ∃ p ∈ latest rows, p.publisher = r.publisher := by
  induction rows using List.reverseRecOn with
  | nil => cases hr
  | append_singleton rows last ih =>
    obtain hr | hr := List.mem_append.mp hr
    · obtain ⟨p, hp, he⟩ := ih (List.pairwise_append.mp h).1 hr
      by_cases hlast : p.publisher = last.publisher
      · exact ⟨last, (mem_latest_snoc h).mpr (.inl rfl), hlast.symm.trans he⟩
      · exact ⟨p, (mem_latest_snoc h).mpr (.inr ⟨hp, hlast⟩), he⟩
    · rw [List.mem_singleton.mp hr]
      exact ⟨last, (mem_latest_snoc h).mpr (.inl rfl), rfl⟩

theorem debut_snoc {q : Classify} (hq : q ∈ rows) : debut (rows ++ [r]) q.publisher = debut rows q.publisher := by
  obtain ⟨p, hp⟩ : ∃ p, rows.find? (fun p => p.publisher = q.publisher) = some p := by
    rw [← Option.isSome_iff_exists, List.find?_isSome]
    exact ⟨q, hq, decide_eq_true rfl⟩
  rw [debut, debut, List.find?_append, hp]
  rfl

theorem debut_mem {q : Classify} (hq : q ∈ rows) : ∃ p ∈ rows, debut rows q.publisher = p.receivedAt := by
  obtain ⟨p, hp⟩ : ∃ p, rows.find? (fun p => p.publisher = q.publisher) = some p := by
    rw [← Option.isSome_iff_exists, List.find?_isSome]
    exact ⟨q, hq, decide_eq_true rfl⟩
  refine ⟨p, List.mem_of_find?_eq_some hp, ?_⟩
  rw [debut, hp]
  rfl

theorem debut_new (h : ∀ q ∈ rows, q.publisher ≠ r.publisher) : debut (rows ++ [r]) r.publisher = r.receivedAt := by
  have hnone : rows.find? (fun p => p.publisher = r.publisher) = none := by
    rw [List.find?_eq_none]
    intro p hp he
    exact h p hp (of_decide_eq_true he)
  have hself : [r].find? (fun p => p.publisher = r.publisher) = some r := List.find?_cons_of_pos (decide_eq_true rfl)
  rw [debut, List.find?_append, hnone, hself]
  rfl

/-- `_latest_per_publisher` keeps the publishers in the order of their first rows. -/
theorem latestPerPublisher_debuts (h : Ordered rows) :
    (latestPerPublisher rows).Pairwise fun a b => debut rows a.publisher < debut rows b.publisher := by
  induction rows using List.reverseRecOn with
  | nil => exact List.Pairwise.nil
  | append_singleton rows r ih =>
    have hrows := (List.pairwise_append.mp h).1
    have hmem {p : Classify} (hp : p ∈ latestPerPublisher rows) : p ∈ rows :=
      (mem_latest.mp ((mem_latestPerPublisher hrows).mp hp)).1
    have hold : (latestPerPublisher rows).Pairwise fun a b =>
        debut (rows ++ [r]) a.publisher < debut (rows ++ [r]) b.publisher := by
      apply (ih hrows).imp_of_mem
      intro a b ha hb hab
      rw [debut_snoc (hmem ha), debut_snoc (hmem hb)]
      exact hab
    by_cases hseen : ∃ p ∈ latestPerPublisher rows, p.publisher = r.publisher
    · rw [latestPerPublisher_again (fun p hp => (h.lt_snoc (hmem hp)).le) hseen, List.pairwise_map]
      have hpub (p : Classify) : (if p.publisher = r.publisher then r else p).publisher = p.publisher := by
        split_ifs with he
        · exact he.symm
        · rfl
      apply hold.imp
      intro a b hab
      rw [hpub, hpub]
      exact hab
    · have hnew : ∀ p ∈ latestPerPublisher rows, p.publisher ≠ r.publisher := fun p hp he => hseen ⟨p, hp, he⟩
      have hfree : ∀ q ∈ rows, q.publisher ≠ r.publisher := by
        intro q hq he
        obtain ⟨p, hp, hpq⟩ := exists_latest hrows hq
        exact hnew p ((mem_latestPerPublisher hrows).mpr hp) (hpq.trans he)
      rw [latestPerPublisher_new hnew, List.pairwise_append]
      refine ⟨hold, List.pairwise_singleton _ _, ?_⟩
      intro a ha b hb
      rw [List.mem_singleton.mp hb, debut_new hfree, debut_snoc (hmem ha)]
      obtain ⟨p, hp, he⟩ := debut_mem (hmem ha)
      rw [he]
      exact h.lt_snoc hp

theorem latest_sublist (rows : List Classify) : (latest rows).Sublist rows := List.filter_sublist

theorem latestPerPublisher_perm (h : Ordered rows) : (latestPerPublisher rows).Perm (latest rows) := by
  have hnodup : (latestPerPublisher rows).Nodup := by
    apply (latestPerPublisher_debuts h).imp
    rintro a b hab rfl
    exact lt_irrefl _ hab
  have hnodup' : (latest rows).Nodup := by
    apply (h.sublist (latest_sublist rows)).imp
    rintro a b hab rfl
    exact lt_irrefl _ hab
  exact (List.perm_ext_iff_of_nodup hnodup hnodup').mpr fun _ => mem_latestPerPublisher h

theorem latestPerPublisher_of_distinct (h : rows.Pairwise fun a b => a.publisher ≠ b.publisher) :
    latestPerPublisher rows = rows := by
  induction rows using List.reverseRecOn with
  | nil => rfl
  | append_singleton rows r ih =>
    obtain ⟨hrows, -, hr⟩ := List.pairwise_append.mp h
    have ih := ih hrows
    rw [latestPerPublisher_new, ih]
    rw [ih]
    exact fun p hp => hr p hp r (List.mem_singleton_self r)

theorem latestPerPublisher_latest (h : Ordered rows) : latestPerPublisher (latest rows) = latest rows := by
  apply latestPerPublisher_of_distinct
  apply (h.sublist (latest_sublist rows)).imp_of_mem
  intro a b ha hb hab he
  exact absurd ((mem_latest.mp ha).2 b (mem_latest.mp hb).1 he.symm) (not_le_of_gt hab)

end Rolls

section Winners

variable {rows ballots : List Classify} {item : Classify → Text × Text}

theorem count_eq (items : List (Text × Text)) : count items = poll (items.filter fun i => i.1 ≠ []) := by
  rw [count, poll, List.foldl_filter]
  congr 1
  funext acc i
  by_cases h : i.1 = []
  · rw [if_pos h, if_neg (by simpa using h)]
  · rw [if_neg h, if_pos (decide_eq_true h)]

theorem leading_perm {ballots' : List Classify} (h : ballots.Perm ballots') (r : Classify) :
    Leading item ballots r ↔ Leading item ballots' r :=
  and_congr Iff.rfl (leads_perm ((h.map item).filter _) _)

theorem winner_count (item : Classify → Text × Text) (ballots : List Classify) :
    winner (poll (named item ballots)).1 (poll (named item ballots)).2 =
      (ballots.find? fun r => Leading item ballots r).map fun r => (item r).2 := by
  have hitems : (named item ballots).find? (fun i => Leads (named item ballots) i.1) =
      (ballots.find? fun r => Leading item ballots r).map item := by
    conv_lhs => rw [named, List.find?_filter, List.find?_map]
    congr 2
    funext r
    rw [Function.comp_apply, decide_eq_decide, decide_eq_true_eq, decide_eq_true_eq]
    rfl
  rw [winner_poll, hitems, Option.map_map]
  rfl

theorem winner_iff (h : Ordered rows) :
    winner (poll (named item (latestPerPublisher rows))).1 (poll (named item (latestPerPublisher rows))).2 =
      winner (poll (named item (latest rows))).1 (poll (named item (latest rows))).2 ↔ SameLead item rows := by
  have hperm := latestPerPublisher_perm h
  have hleading : (fun r => decide (Leading item (latestPerPublisher rows) r)) =
      fun r => decide (Leading item (latest rows) r) := by
    funext r
    rw [decide_eq_decide]
    exact leading_perm hperm r
  have hfirst (a : Classify) := find?_iff_least (p := fun r => decide (Leading item (latest rows) r)) (a := a)
    (latestPerPublisher_debuts h)
  have hearliest (b : Classify) := find?_iff_least (p := fun r => decide (Leading item (latest rows) r)) (a := b)
    (h.sublist (latest_sublist rows))
  simp only [decide_eq_true_eq, hperm.mem_iff] at hfirst hearliest
  rw [winner_count, winner_count, hleading]
  constructor
  · intro hsame a ha hla hleast b hb hlb hleast'
    rw [(hfirst a).mpr ⟨ha, hla, hleast⟩, (hearliest b).mpr ⟨hb, hlb, hleast'⟩] at hsame
    exact Option.some.inj hsame
  · intro hlead
    cases ha : (latestPerPublisher rows).find? fun r => decide (Leading item (latest rows) r) with
    | none =>
      have hnone : (latest rows).find? (fun r => decide (Leading item (latest rows) r)) = none := by
        rw [List.find?_eq_none] at ha ⊢
        exact fun r hr => ha r (hperm.mem_iff.mpr hr)
      rw [hnone]
    | some a =>
      have hfa := (hfirst a).mp ha
      obtain ⟨b, hb⟩ : ∃ b, (latest rows).find? (fun r => decide (Leading item (latest rows) r)) = some b := by
        rw [← Option.isSome_iff_exists, List.find?_isSome]
        exact ⟨a, hfa.1, decide_eq_true hfa.2.1⟩
      have hfb := (hearliest b).mp hb
      rw [hb]
      exact congrArg some (hlead a hfa.1 hfa.2.1 hfa.2.2 b hfb.1 hfb.2.1 hfb.2.2)

end Winners

section Keywords

theorem Before.total (a b : Text × ℕ) : Before a b ∨ Before b a := by
  rcases lt_trichotomy a.2 b.2 with h | h | h
  · exact .inr (.inl h)
  · exact (le_total a.1 b.1).elim (fun hle => .inl (.inr ⟨h, hle⟩)) fun hle => .inr (.inr ⟨h.symm, hle⟩)
  · exact .inl (.inl h)

theorem Before.trans {a b c : Text × ℕ} : Before a b → Before b c → Before a c := by
  rintro (hab | ⟨hab, hle⟩) (hbc | ⟨hbc, hle'⟩)
  · exact .inl (hbc.trans hab)
  · exact .inl (hbc ▸ hab)
  · exact .inl (hab ▸ hbc)
  · exact .inr ⟨hab.trans hbc, hle.trans hle'⟩

theorem Before.antisymm {a b : Text × ℕ} : Before a b → Before b a → a = b := by
  rintro (hab | ⟨hab, hle⟩) (hba | ⟨hba, hle'⟩)
  · exact absurd hab hba.asymm
  · exact absurd hba hab.ne
  · exact absurd hab hba.ne
  · exact Prod.ext (le_antisymm hle hle') hab

theorem sorted_eq_of_perm {votes votes' : List (Text × ℕ)} (h : votes.Perm votes') :
    votes.insertionSort Before = votes'.insertionSort Before :=
  have : Std.Total Before := ⟨Before.total⟩
  have : IsTrans (Text × ℕ) Before := ⟨fun _ _ _ => Before.trans⟩
  (((List.perm_insertionSort Before votes).trans h).trans (List.perm_insertionSort Before votes').symm).eq_of_pairwise
    (fun _ _ _ _ => Before.antisymm) (List.pairwise_insertionSort Before votes) (List.pairwise_insertionSort Before votes')

theorem keepKeywords_eq {items : List (Text × Text)} (hshown : ∀ i ∈ items, i.2 = i.1) :
    keepKeywords (poll items).1 (poll items).2 = (((poll items).1.insertionSort Before).take 10).map Prod.fst := by
  rw [keepKeywords, ← List.filterMap_eq_map]
  apply List.filterMap_congr
  intro v hv
  exact lookup_display hshown (mem_votes.mp ((List.mem_insertionSort _).mp (List.mem_of_mem_take hv))).1

theorem keepKeywords_perm {items items' : List (Text × Text)} (hshown : ∀ i ∈ items, i.2 = i.1) (h : items.Perm items') :
    keepKeywords (poll items).1 (poll items).2 = keepKeywords (poll items').1 (poll items').2 := by
  have hshown' : ∀ i ∈ items', i.2 = i.1 := fun i hi => hshown i (h.mem_iff.mpr hi)
  rw [keepKeywords_eq hshown, keepKeywords_eq hshown', sorted_eq_of_perm (Plurality.votes_perm h)]

end Keywords

section Tallies

variable {rows : List Classify}

def keywordsOf (voters : List Classify) : List (Text × Text) :=
  (voters.flatMap (keywordItems o)).filter fun i => i.1 ≠ []

theorem tally_eq (rows : List Classify) :
    tally o rows =
      { field := winner (poll (named (fieldItem o) (latestPerPublisher rows))).1
          (poll (named (fieldItem o) (latestPerPublisher rows))).2
        topic := winner (poll (named (topicItem o) (latestPerPublisher rows))).1
          (poll (named (topicItem o) (latestPerPublisher rows))).2
        keywords := joined (txt ", ") (keepKeywords (poll (keywordsOf o (latestPerPublisher rows))).1
          (poll (keywordsOf o (latestPerPublisher rows))).2)
        labelVoters := (latestPerPublisher rows).length
        fieldVotes := (poll (named (fieldItem o) (latestPerPublisher rows))).1
        topicVotes := (poll (named (topicItem o) (latestPerPublisher rows))).1
        keywordVotes := (poll (keywordsOf o (latestPerPublisher rows))).1 } := by
  unfold tally
  dsimp only
  rw [count_eq, count_eq, count_eq, List.filter_filter]
  simp only [Bool.and_self]
  rfl

theorem same_iff (h : Ordered rows) :
    (tally o rows).Same (tally o (latest rows)) ↔ SameLead (fieldItem o) rows ∧ SameLead (topicItem o) rows := by
  have hperm := latestPerPublisher_perm h
  have hnamed (item : Classify → Text × Text) := (hperm.map item).filter fun i => i.1 ≠ []
  have hkeywords := (hperm.flatMap_right (keywordItems o)).filter fun i => i.1 ≠ []
  have hshown : ∀ i ∈ keywordsOf o (latestPerPublisher rows), i.2 = i.1 := by
    intro i hi
    obtain ⟨r, -, hi⟩ := List.mem_flatMap.mp (List.mem_of_mem_filter hi)
    obtain ⟨key, -, rfl⟩ := List.mem_map.mp hi
    rfl
  rw [← winner_iff h, ← winner_iff h, tally_eq, tally_eq, latestPerPublisher_latest h]
  constructor
  · exact fun hsame => ⟨hsame.field, hsame.topic⟩
  · rintro ⟨hfield, htopic⟩
    refine ⟨hfield, htopic, ?_, hperm.length_eq, fun k => ?_, fun k => ?_, fun k => ?_⟩
    · exact congrArg (joined (txt ", ")) (keepKeywords_perm hshown hkeywords)
    · exact lookup_perm (hnamed (fieldItem o)) k
    · exact lookup_perm (hnamed (topicItem o)) k
    · exact lookup_perm hkeywords k

/-- The rows that are no reuse. -/
def nonReuse (rows : List Classify) : List Classify :=
  rows.filter fun r => classifierKind o.py r ≠ .ok (txt "reuse")

theorem independent_ok (h : ∀ r ∈ rows, ∃ k, classifierKind o.py r = .ok k) :
    independent o.py rows = .ok (nonReuse o rows) := by
  induction rows with
  | nil => rfl
  | cons r rows ih =>
    obtain ⟨k, hk⟩ := h r List.mem_cons_self
    rw [independent, hk, ih fun q hq => h q (List.mem_cons_of_mem _ hq)]
    change Except.ok _ = _
    congr 1
    by_cases hreuse : k = txt "reuse"
    · rw [if_pos hreuse, nonReuse, nonReuse, List.filter_cons_of_neg (by simp [hk, hreuse])]
    · rw [if_neg hreuse, nonReuse, nonReuse, List.filter_cons_of_pos (by simp [hk, hreuse])]

theorem kinds_of_independent {inds : List Classify} (h : independent o.py rows = .ok inds) :
    ∀ r ∈ rows, ∃ k, classifierKind o.py r = .ok k := by
  induction rows generalizing inds with
  | nil => exact fun r hr => absurd hr List.not_mem_nil
  | cons r rows ih =>
    rw [independent] at h
    cases hk : classifierKind o.py r with
    | error e =>
      rw [hk] at h
      cases h
    | ok k =>
      cases hrest : independent o.py rows with
      | error e =>
        rw [hk, hrest] at h
        cases h
      | ok rest =>
        intro q hq
        obtain rfl | hq := List.mem_cons.mp hq
        · exact ⟨k, hk⟩
        · exact ih hrest q hq

theorem voted_of_nonReuse (h : ∀ r ∈ rows, ∃ k, classifierKind o.py r = .ok k) (hne : nonReuse o rows ≠ []) :
    voted o rows = .ok (tally o (nonReuse o rows)) := by
  rw [voted, preferIndependent, independent_ok o h]
  change Except.ok (tally o (if nonReuse o rows = [] then rows else nonReuse o rows)) = _
  rw [if_neg hne]

/-- The labels of a CID are those of the latest ballot of each publisher. -/
def OneBallot (t : Tables) (cid : Text) : Prop :=
  ∃ a b, consensus o t cid = .ok a ∧ voted o (latest (nonReuse o (votes t cid))) = .ok b ∧ a.Same b

theorem ordered_votes {t : Tables} {cid : Text} (h : Distinct t cid) : Ordered (votes t cid) := by
  have hnodup : ((votes t cid).map Classify.receivedAt).Nodup := ((votes_perm t cid).map _).nodup_iff.mpr h
  exact ((votes_sorted t cid).and (List.pairwise_map.mp hnodup)).imp fun h => lt_of_le_of_ne h.1 h.2

end Tallies

/-- A replaced ballot decides nothing unless it puts its publisher ahead in a tie, and every classifier can be read. -/
theorem one_ballot_iff (o : Observer) (t : Tables) (cid : Text) (hdistinct : Distinct t cid)
    (hsome : ∃ r ∈ votes t cid, ∃ k, classifierKind o.py r = .ok k ∧ k ≠ txt "reuse") :
    OneBallot o t cid ↔
      (∀ r ∈ votes t cid, ∃ k, classifierKind o.py r = .ok k) ∧
        SameLead (fieldItem o) (nonReuse o (votes t cid)) ∧ SameLead (topicItem o) (nonReuse o (votes t cid)) := by
  have hordered : Ordered (nonReuse o (votes t cid)) := (ordered_votes hdistinct).sublist List.filter_sublist
  obtain ⟨r, hr, k, hk, hreuse⟩ := hsome
  have hmem : r ∈ nonReuse o (votes t cid) := by
    rw [nonReuse, List.mem_filter, decide_eq_true_eq, hk]
    exact ⟨hr, fun he => hreuse (Except.ok.inj he)⟩
  obtain ⟨p, hp, -⟩ := exists_latest hordered hmem
  -- The latest rows are none of them reuse.
  have hself : nonReuse o (latest (nonReuse o (votes t cid))) = latest (nonReuse o (votes t cid)) := by
    apply List.filter_eq_self.mpr
    intro q hq
    exact (List.mem_filter.mp (mem_latest.mp hq).1).2
  have hvoted (hkinds : ∀ r ∈ votes t cid, ∃ k, classifierKind o.py r = .ok k) :
      voted o (latest (nonReuse o (votes t cid))) = .ok (tally o (latest (nonReuse o (votes t cid)))) := by
    rw [voted_of_nonReuse o _ (by rw [hself]; exact List.ne_nil_of_mem hp), hself]
    exact fun q hq => hkinds q (List.mem_of_mem_filter (mem_latest.mp hq).1)
  constructor
  · rintro ⟨a, b, ha, hb, hsame⟩
    have hkinds : ∀ r ∈ votes t cid, ∃ k, classifierKind o.py r = .ok k := by
      cases hinds : independent o.py (votes t cid) with
      | error e =>
        rw [consensus, voted, preferIndependent, hinds] at ha
        cases ha
      | ok inds => exact kinds_of_independent o hinds
    rw [consensus, voted_of_nonReuse o hkinds (List.ne_nil_of_mem hmem)] at ha
    rw [hvoted hkinds] at hb
    cases ha
    cases hb
    exact ⟨hkinds, (same_iff o hordered).mp hsame⟩
  · rintro ⟨hkinds, hlead⟩
    exact ⟨_, _, voted_of_nonReuse o hkinds (List.ne_nil_of_mem hmem), hvoted hkinds, (same_iff o hordered).mpr hlead⟩

section Sample

theorem one_ballot_board : OneBallot sampleObserver board (txt "d") ↔
    (∀ r ∈ votes board (txt "d"), ∃ k, classifierKind sampleObserver.py r = .ok k) ∧
      SameLead (fieldItem sampleObserver) (nonReuse sampleObserver (votes board (txt "d"))) ∧
      SameLead (topicItem sampleObserver) (nonReuse sampleObserver (votes board (txt "d"))) :=
  one_ballot_iff sampleObserver board (txt "d") (board_distinct _)
    ⟨ballot "d" "A" "physics" 2, by decide +kernel, txt "llm", by decide +kernel, by decide⟩

theorem replaced_ballot_decides : ¬OneBallot sampleObserver board (txt "c") := by
  rintro ⟨a, b, ha, hb, hsame⟩
  have hfield : (consensus sampleObserver board (txt "c")).map Tally.field = .ok (some (txt "physics")) := by
    decide +kernel
  have hfield' : (voted sampleObserver (latest (nonReuse sampleObserver (votes board (txt "c"))))).map Tally.field =
      .ok (some (txt "other")) := by
    decide +kernel
  rw [ha] at hfield
  rw [hb] at hfield'
  have hne := (Except.ok.inj hfield).symm.trans (hsame.field.trans (Except.ok.inj hfield'))
  exact absurd hne (by decide)

end Sample

end ObserverClub.Labels
