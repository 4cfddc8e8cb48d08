import ObserverClub.Labels
import ObserverClub.Library.Plurality
import ObserverClub.Library.Selection
import ObserverClub.Transactions

/-!
`labels.py`: the votes on the labels of a CID, for one CID and for a page of them.
-/

namespace ObserverClub.Labels

open Library Library.Plurality Python Catalog Store

variable (o : Observer)

/-- `_norm_text` -/
def normText (value : Option Text) : Text := joined [32] (split (o.lower (trim isSpace (orEmpty value))))

def splitCommas (t : Text) : List Text := (records 44 t).1 ++ [(records 44 t).2]

/-- `_split_keywords` -/
def splitKeywords (value : Option Text) : List Text :=
  (splitCommas (orEmpty value)).foldl (fun out part =>
    let key := normText o (some part)
    if key = [] ∨ key ∈ out then out else out ++ [key]) []

/-- `normalize_field` of a column. -/
def fieldName (value : Option Text) : Text :=
  if orEmpty value = [] then txt "other"
  else
    let key := (o.lower (trim isSpace (orEmpty value))).map fun c => if c = 95 then 45 else c
    let key := joined [32] (split key)
    let collapsed := key.map fun c => if c = 32 then 45 else c
    if key ∈ o.fields then key
    else if collapsed ∈ o.fields then collapsed
    else
      match o.fieldAliases.lookup key, o.fieldAliases.lookup collapsed with
      | some (c :: s), _ => c :: s
      | _, some (c :: s) => c :: s
      | _, _ => txt "other"

/-- `_count` -/
def count (items : List (Text × Text)) : List (Text × ℕ) × List (Text × Text) :=
  items.foldl (fun acc item => if item.1 = [] then acc else (cast acc.1 item.1, present acc.2 item)) ([], [])

def Before (a b : Text × ℕ) : Prop := b.2 < a.2 ∨ a.2 = b.2 ∧ a.1 ≤ b.1

instance : DecidableRel Before := fun a b => inferInstanceAs (Decidable (b.2 < a.2 ∨ a.2 = b.2 ∧ a.1 ≤ b.1))

/-- `_keep_keywords` -/
def keepKeywords (votes : List (Text × ℕ)) (display : List (Text × Text)) : List Text :=
  ((votes.insertionSort Before).take 10).filterMap fun v => display.lookup v.1

structure Tally where
  field : Option Text
  topic : Option Text
  keywords : Text
  labelVoters : ℕ
  fieldVotes : List (Text × ℕ)
  topicVotes : List (Text × ℕ)
  keywordVotes : List (Text × ℕ)
  deriving DecidableEq

def fieldItem (row : Classify) : Text × Text :=
  (fieldName o row.description.field, fieldName o row.description.field)

def topicItem (row : Classify) : Text × Text :=
  (normText o row.description.topic, trim isSpace (orEmpty row.description.topic))

def keywordItems (row : Classify) : List (Text × Text) :=
  (splitKeywords o row.description.keywords).map fun key => (key, key)

/-- `_tally` -/
def tally (rows : List Classify) : Tally :=
  let voters := latestPerPublisher rows
  let fields := count (voters.map (fieldItem o))
  let topics := count ((voters.map (topicItem o)).filter fun item => item.1 ≠ [])
  let keywords := count (voters.flatMap (keywordItems o))
  { field := winner fields.1 fields.2
    topic := winner topics.1 topics.2
    keywords := joined (txt ", ") (keepKeywords keywords.1 keywords.2)
    labelVoters := voters.length
    fieldVotes := fields.1
    topicVotes := topics.1
    keywordVotes := keywords.1 }

/-- `_prefer_independent` -/
def preferIndependent (rows : List Classify) : Except Error (List Classify) := do
  let inds ← independent o.py rows
  return if inds = [] then rows else inds

def voted (rows : List Classify) : Except Error Tally := do
  let eligible ← preferIndependent o rows
  return tally o eligible

/-- `consensus` -/
def consensus (t : Tables) (cid : Text) : Except Error Tally := voted o (votes t cid)

section Batch

/-- `_IN_CHUNK` -/
def inChunk : ℕ := 400

/-- The slices of `order`, `_IN_CHUNK` at a time. -/
def chunks (order : List Text) : List (List Text) :=
  (List.range' 0 ((order.length + inChunk - 1) / inChunk) inChunk).map fun start => (order.drop start).take inChunk

def bucketed (grouped : List (Text × List Classify)) (row : Classify) : List (Text × List Classify) :=
  grouped.map fun g => if g.1 = row.cid then (g.1, g.2 ++ [row]) else g

def votedEach : List (Text × List Classify) → Except Error (List (Text × Tally))
  | [] => return []
  | g :: gs => do
    let v ← voted o g.2
    let rest ← votedEach gs
    return (g.1, v) :: rest

variable (select : List Text → List Classify)

/-- `consensus_many`; `select` answers `SELECT * FROM classifies WHERE cid IN (..) ORDER BY received_at`. -/
def consensusMany (cids : List Text) : Except Error (List (Text × Tally)) :=
  let order := (cids.filter fun cid => cid ≠ []).eraseDups
  votedEach o (((chunks order).flatMap select).foldl bucketed (order.map fun cid => (cid, [])))

/-- A classify dict, as it is shown. -/
structure Shown where
  cid : Text
  publisher : Text
  description : Description
  tally : Option Tally
  deriving DecidableEq

def Shown.update (out : Shown) (v : Tally) : Shown :=
  { out with
    description := { out.description with field := v.field, topic := v.topic, keywords := some v.keywords }
    tally := some v }

/-- `apply` -/
def apply (out : Shown) (t : Tables) (cid : Text) : Except Error Shown := do
  let v ← consensus o t cid
  return out.update v

/-- `apply_many` -/
def applyMany (rows : List Shown) : Except Error (List Shown) := do
  let votes ← consensusMany o select (rows.map Shown.cid)
  return rows.map fun row =>
    match votes.lookup row.cid with
    | some v => row.update v
    | none => row

end Batch

section Paging

variable {t : Tables} {c : Text}

/-- What SQLite may answer: the rows of the CIDs, earliest first, those of one time in any order. -/
structure Page (t : Tables) (cids : List Text) (rows : List Classify) : Prop where
  perm : rows.Perm (t.classifies.filter fun r => r.cid ∈ cids)
  sorted : rows.Pairwise fun a b => a.receivedAt ≤ b.receivedAt

/-- No two rows of the CID came in at one time. -/
def Distinct (t : Tables) (cid : Text) : Prop := ((classifiesOf cid t).map Classify.receivedAt).Nodup

theorem votes_perm (t : Tables) (cid : Text) : (votes t cid).Perm (classifiesOf cid t) := List.perm_insertionSort _ _

theorem votes_sorted (t : Tables) (cid : Text) : (votes t cid).Pairwise fun a b => a.receivedAt ≤ b.receivedAt :=
  haveI : Std.Total fun a b : Classify => a.receivedAt ≤ b.receivedAt := ⟨fun _ _ => le_total _ _⟩
  haveI : IsTrans Classify fun a b => a.receivedAt ≤ b.receivedAt := ⟨fun _ _ _ => le_trans⟩
  List.pairwise_insertionSort _ _

theorem Page.filter {cids : List Text} {rows : List Classify} (h : Page t cids rows) (hd : Distinct t c) (hc : c ∈ cids) :
    rows.filter (fun r => r.cid = c) = votes t c := by
  have hperm : (rows.filter fun r => r.cid = c).Perm (classifiesOf c t) := by
    apply (h.perm.filter _).trans
    rw [List.filter_filter, classifiesOf]
    apply List.Perm.of_eq
    apply List.filter_congr
    intro r _
    by_cases hr : r.cid = c
    · simp [hr, hc]
    · simp [hr]
  apply List.Perm.eq_of_pairwise _ (h.sorted.filter _) (votes_sorted t c) (hperm.trans (votes_perm t c).symm)
  intro a b ha hb hab hba
  have ha := hperm.mem_iff.mp ha
  have hb := (votes_perm t c).mem_iff.mp hb
  exact List.inj_on_of_nodup_map hd ha hb (le_antisymm hab hba)

/-- The rows of each CID asked for come as a query for it alone answers them. -/
def Answers (t : Tables) (cids : List Text) (rows : List Classify) : Prop :=
  ∀ c, rows.filter (fun r => r.cid = c) = if c ∈ cids then votes t c else []

theorem Page.answers {cids : List Text} {rows : List Classify} (h : Page t cids rows) (hd : ∀ c, Distinct t c) :
    Answers t cids rows := by
  intro c
  by_cases hc : c ∈ cids
  · rw [if_pos hc, h.filter (hd c) hc]
  · rw [if_neg hc]
    apply List.filter_eq_nil_iff.mpr
    intro r hr he
    have hmem := List.mem_filter.mp (h.perm.mem_iff.mp hr)
    rw [of_decide_eq_true he] at hmem
    exact hc (of_decide_eq_true hmem.2)

end Paging

section Chunks

theorem flatten_slices {α : Type} (l : List α) (n : ℕ) (m start : ℕ) :
    ((List.range' start m n).map fun i => (l.drop i).take n).flatten = (l.drop start).take (m * n) := by
  induction m generalizing start with
  | zero => simp
  | succ m ih =>
    rw [List.range'_succ, List.map_cons, List.flatten_cons, ih, ← List.drop_drop, Nat.succ_mul, Nat.add_comm, List.take_add]

theorem flatten_chunks (order : List Text) : (chunks order).flatten = order := by
  rw [chunks, flatten_slices, List.drop_zero, List.take_of_length_le]
  have hdiv := Nat.div_add_mod (order.length + inChunk - 1) inChunk
  have hmod := Nat.mod_lt (order.length + inChunk - 1) (show 0 < inChunk by decide)
  rw [Nat.mul_comm]
  rw [inChunk] at hdiv hmod ⊢
  omega

theorem filter_chunks {t : Tables} {select : List Text → List Classify} (parts : List (List Text))
    (hselect : ∀ chunk ∈ parts, Answers t chunk (select chunk)) (hnodup : parts.flatten.Nodup) :
    Answers t parts.flatten (parts.flatMap select) := by
  intro c
  induction parts with
  | nil => rfl
  | cons chunk parts ih =>
    rw [List.flatten_cons] at hnodup ⊢
    obtain ⟨-, hparts, hapart⟩ := List.nodup_append.mp hnodup
    rw [List.flatMap_cons, List.filter_append, hselect chunk List.mem_cons_self c,
      ih (fun other hother => hselect other (List.mem_cons_of_mem _ hother)) hparts]
    by_cases hin : c ∈ chunk
    · have hout : c ∉ parts.flatten := fun hc => hapart c hin c hc rfl
      rw [if_pos hin, if_neg hout, List.append_nil, if_pos (List.mem_append_left _ hin)]
    · rw [if_neg hin, List.nil_append]
      simp only [List.mem_append, hin, false_or]

theorem foldl_bucketed (order : List Text) (rows : List Classify) :
    rows.foldl bucketed (order.map fun cid => (cid, [])) =
      order.map fun cid => (cid, rows.filter fun r => r.cid = cid) := by
  induction rows using List.reverseRecOn with
  | nil => rfl
  | append_singleton rows row ih =>
    rw [List.foldl_append, List.foldl_cons, List.foldl_nil, ih, bucketed, List.map_map]
    apply List.map_congr_left
    intro cid _
    rw [Function.comp_apply, List.filter_append]
    by_cases h : cid = row.cid
    · rw [if_pos h, List.filter_cons_of_pos (by simp [h]), List.filter_nil]
    · rw [if_neg h, List.filter_cons_of_neg (by simpa using Ne.symm h), List.filter_nil, List.append_nil]

def pageOf (t : Tables) (cids : List Text) : List Classify :=
  (t.classifies.filter fun r => r.cid ∈ cids).insertionSort fun a b => a.receivedAt ≤ b.receivedAt

theorem page_pageOf (t : Tables) (cids : List Text) : Page t cids (pageOf t cids) :=
  haveI : Std.Total fun a b : Classify => a.receivedAt ≤ b.receivedAt := ⟨fun _ _ => le_total _ _⟩
  haveI : IsTrans Classify fun a b => a.receivedAt ≤ b.receivedAt := ⟨fun _ _ _ => le_trans⟩
  ⟨List.perm_insertionSort _ _, List.pairwise_insertionSort _ _⟩

theorem answers_pageOf (t : Tables) (cids : List Text) : Answers t cids (pageOf t cids) := by
  intro c
  have : Std.Total fun a b : Classify => a.receivedAt ≤ b.receivedAt := ⟨fun _ _ => le_total _ _⟩
  have : IsTrans Classify fun a b => a.receivedAt ≤ b.receivedAt := ⟨fun _ _ _ => le_trans⟩
  rw [pageOf, Table.filter_insertionSort, List.filter_filter]
  split_ifs with hc
  · rw [votes, classifiesOf]
    congr 1
    apply List.filter_congr
    intro r _
    by_cases hr : r.cid = c
    · simp [hr, hc]
    · simp [hr]
  · have hnone : t.classifies.filter (fun r => decide (r.cid = c) && decide (r.cid ∈ cids)) = [] := by
      apply List.filter_eq_nil_iff.mpr
      intro r _ hr
      rw [Bool.and_eq_true, decide_eq_true_eq, decide_eq_true_eq] at hr
      exact hc (hr.1 ▸ hr.2)
    rw [hnone]
    rfl

theorem distinct_of_pairwise {t : Tables}
    (h : t.classifies.Pairwise fun a b => a.cid = b.cid → a.receivedAt ≠ b.receivedAt) (cid : Text) :
    Distinct t cid := by
  unfold Distinct List.Nodup
  rw [List.pairwise_map, classifiesOf, List.pairwise_filter]
  apply h.imp
  intro a b hab ha hb
  exact hab ((of_decide_eq_true ha).trans (of_decide_eq_true hb).symm)

end Chunks

section Batched

variable {o} {t : Tables} {select : List Text → List Classify}

theorem votedEach_cons {g : Text × List Classify} {gs : List (Text × List Classify)} {vs : List (Text × Tally)}
    (h : votedEach o (g :: gs) = .ok vs) :
    ∃ v rest, voted o g.2 = .ok v ∧ votedEach o gs = .ok rest ∧ vs = (g.1, v) :: rest := by
  rw [votedEach] at h
  cases hv : voted o g.2 with
  | error e =>
    rw [hv] at h
    cases h
  | ok v =>
    cases hrest : votedEach o gs with
    | error e =>
      rw [hv, hrest] at h
      cases h
    | ok rest =>
      rw [hv, hrest] at h
      cases h
      exact ⟨v, rest, rfl, rfl, rfl⟩

theorem votedEach_map {order : List Text} {rows : Text → List Classify} {vs : List (Text × Tally)}
    (h : votedEach o (order.map fun cid => (cid, rows cid)) = .ok vs) {c : Text} :
    (c ∈ order → ∃ v, vs.lookup c = some v ∧ voted o (rows c) = .ok v) ∧ (c ∉ order → vs.lookup c = none) := by
  induction order generalizing vs with
  | nil =>
    cases h
    exact ⟨fun hc => absurd hc List.not_mem_nil, fun _ => rfl⟩
  | cons cid order ih =>
    obtain ⟨v, rest, hv, hrest, rfl⟩ := votedEach_cons h
    rw [List.lookup_cons]
    by_cases hc : c = cid
    · subst hc
      rw [BEq.rfl]
      exact ⟨fun _ => ⟨v, rfl, hv⟩, fun hno => absurd List.mem_cons_self hno⟩
    · rw [beq_eq_false_iff_ne.mpr hc]
      simp only [List.mem_cons, hc, false_or]
      exact ih hrest

theorem votedEach_error {gs : List (Text × List Classify)} {e : Error} (h : votedEach o gs = .error e) :
    ∃ g ∈ gs, voted o g.2 = .error e := by
  induction gs with
  | nil => cases h
  | cons g gs ih =>
    rw [votedEach] at h
    cases hv : voted o g.2 with
    | error e' =>
      rw [hv] at h
      cases h
      exact ⟨g, List.mem_cons_self, hv⟩
    | ok v =>
      cases hrest : votedEach o gs with
      | error e' =>
        rw [hv, hrest] at h
        cases h
        obtain ⟨g', hg', he⟩ := ih hrest
        exact ⟨g', List.mem_cons_of_mem _ hg', he⟩
      | ok rest =>
        rw [hv, hrest] at h
        cases h

variable (hselect : ∀ chunk, chunk.length ≤ inChunk → Answers t chunk (select chunk))

include hselect

theorem consensusMany_eq (cids : List Text) :
    consensusMany o select cids =
      votedEach o ((cids.filter fun cid => cid ≠ []).eraseDups.map fun cid => (cid, votes t cid)) := by
  rw [consensusMany, foldl_bucketed]
  congr 1
  apply List.map_congr_left
  intro c hc
  have hchunks : ∀ chunk ∈ chunks (cids.filter fun cid => cid ≠ []).eraseDups, Answers t chunk (select chunk) := by
    intro chunk hchunk
    obtain ⟨start, -, rfl⟩ := List.mem_map.mp hchunk
    exact hselect _ (List.length_take_le _ _)
  have hnodup : (chunks (cids.filter fun cid => cid ≠ []).eraseDups).flatten.Nodup := by
    rw [flatten_chunks]
    exact nodup_eraseDups _
  rw [filter_chunks _ hchunks hnodup, flatten_chunks, if_pos hc]

theorem consensusMany_ok {cids : List Text} {vs : List (Text × Tally)} (h : consensusMany o select cids = .ok vs)
    {c : Text} :
    (c ∈ cids ∧ c ≠ [] → ∃ v, vs.lookup c = some v ∧ consensus o t c = .ok v) ∧ (c = [] → vs.lookup c = none) := by
  rw [consensusMany_eq hselect] at h
  have hmap := votedEach_map h (c := c)
  rw [List.mem_eraseDups, List.mem_filter, decide_eq_true_eq] at hmap
  exact ⟨hmap.1, fun hc => hmap.2 fun hin => hin.2 hc⟩

theorem consensusMany_error {cids : List Text} {e : Error} (h : consensusMany o select cids = .error e) :
    ∃ c ∈ cids, c ≠ [] ∧ consensus o t c = .error e := by
  rw [consensusMany_eq hselect] at h
  obtain ⟨g, hg, he⟩ := votedEach_error h
  obtain ⟨c, hc, rfl⟩ := List.mem_map.mp hg
  rw [List.mem_eraseDups, List.mem_filter, decide_eq_true_eq] at hc
  exact ⟨c, hc.1, hc.2, he⟩

theorem applyMany_ok {rows rows' : List Shown} (h : applyMany o select rows = .ok rows') :
    List.Forall₂ (fun row row' => (row.cid ≠ [] → apply o row t row.cid = .ok row') ∧ (row.cid = [] → row' = row))
      rows rows' := by
  rw [applyMany] at h
  cases hvs : consensusMany o select (rows.map Shown.cid) with
  | error e =>
    rw [hvs] at h
    cases h
  | ok vs =>
    rw [hvs] at h
    cases h
    rw [List.forall₂_map_right_iff, List.forall₂_same]
    intro row hrow
    have hc := consensusMany_ok hselect hvs (c := row.cid)
    constructor
    · intro hne
      obtain ⟨v, hv, hone⟩ := hc.1 ⟨List.mem_map_of_mem hrow, hne⟩
      rw [apply, hone, hv]
      rfl
    · intro he
      rw [hc.2 he]

theorem applyMany_error {rows : List Shown} {e : Error} (h : applyMany o select rows = .error e) :
    ∃ row ∈ rows, row.cid ≠ [] ∧ apply o row t row.cid = .error e := by
  rw [applyMany] at h
  cases hvs : consensusMany o select (rows.map Shown.cid) with
  | ok vs =>
    rw [hvs] at h
    cases h
  | error e' =>
    rw [hvs] at h
    cases h
    obtain ⟨c, hc, hne, he⟩ := consensusMany_error hselect hvs
    obtain ⟨row, hrow, rfl⟩ := List.mem_map.mp hc
    refine ⟨row, hrow, hne, ?_⟩
    rw [apply, he]
    rfl

end Batched

/-- Votes on a page of CIDs are the votes on each CID alone, and a page that fails has a CID that fails alone. -/
theorem batched_votes (o : Observer) (t : Tables) (select : List Text → List Classify)
    (hdistinct : ∀ cid, Distinct t cid) (hselect : ∀ chunk, chunk.length ≤ inChunk → Page t chunk (select chunk)) :
    (∀ cids vs, consensusMany o select cids = .ok vs →
      ∀ c ∈ cids, c ≠ [] → ∃ v, vs.lookup c = some v ∧ consensus o t c = .ok v) ∧
    (∀ cids e, consensusMany o select cids = .error e → ∃ c ∈ cids, c ≠ [] ∧ consensus o t c = .error e) ∧
    (∀ rows rows', applyMany o select rows = .ok rows' →
      List.Forall₂ (fun row row' => row.cid ≠ [] → apply o row t row.cid = .ok row') rows rows') ∧
    (∀ rows e, applyMany o select rows = .error e →
      ∃ row ∈ rows, row.cid ≠ [] ∧ apply o row t row.cid = .error e) := by
  have hanswers : ∀ chunk, chunk.length ≤ inChunk → Answers t chunk (select chunk) :=
    fun chunk hlength => (hselect chunk hlength).answers hdistinct
  refine ⟨fun cids vs h c hc hne => ?_, fun cids e h => ?_, fun rows rows' h => ?_, fun rows e h => ?_⟩
  · exact (consensusMany_ok hanswers h).1 ⟨hc, hne⟩
  · exact consensusMany_error hanswers h
  · exact (applyMany_ok hanswers h).imp fun _ _ h => h.1
  · exact applyMany_error hanswers h

section Sample

def ballot (cid publisher field : String) (receivedAt : ℕ) : Classify :=
  ⟨txt cid ++ decimal receivedAt, txt cid, txt publisher,
    ⟨none, .null, none, some (txt field), some (txt "Light"), some (txt "a, b"), none, none, none⟩, none, receivedAt⟩

def board : Tables :=
  { empty with
    classifies := [ballot "c" "A" "physics" 1, ballot "d" "B" "other" 1, ballot "c" "B" "other" 2,
      ballot "d" "A" "physics" 2, ballot "c" "A" "physics" 3] }

theorem board_distinct : ∀ cid, Distinct board cid := distinct_of_pairwise (by decide +kernel)

def boardCids : List Text := [txt "c", txt "d", txt "c", [], txt "x"]

theorem batched_votes_board : ∃ vs, consensusMany sampleObserver (pageOf board) boardCids = .ok vs ∧
    ∀ c ∈ boardCids, c ≠ [] → ∃ v, vs.lookup c = some v ∧ consensus sampleObserver board c = .ok v := by
  have hok : consensusMany sampleObserver (pageOf board) boardCids =
      .ok ((consensusMany sampleObserver (pageOf board) boardCids).toOption.getD []) := by
    decide +kernel
  exact ⟨_, hok, (batched_votes sampleObserver board (pageOf board) board_distinct
    fun chunk _ => page_pageOf board chunk).1 boardCids _ hok⟩

end Sample

end ObserverClub.Labels
