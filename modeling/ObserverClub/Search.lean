import ObserverClub.Votes

/-!
`search.py`: the search and the listing of documents, filtered by field.
-/

namespace ObserverClub.Search

open Library Python Sqlite Catalog Store Labels

/-- `_fts_escape` -/
def ftsEscape (query : Text) : Text :=
  let tokens := ((split query).map fun raw => raw.filter fun c => c ≠ 34).filter fun token => token ≠ []
  joined [32] (tokens.map fun token => [34] ++ token.flatMap (fun c => if c = 34 then [34, 34] else [c]) ++ txt "\"*")

/-- What the database makes of a match expression and of an order; rows that tie come in any order. -/
structure Engine where
  finds : Text → Except Error (Indexed → Bool)
  ranked : Text → List Doc → List Doc
  newest : List Doc → List Doc
  ranked_perm : ∀ expr docs, (ranked expr docs).Perm docs
  newest_perm : ∀ docs, (newest docs).Perm docs

section Listing

variable (o : Observer) (t : Tables)

/-- `_FIELD_WHERE` -/
def filedUnder (field : Text) (d : Doc) : Bool :=
  d.description.field = some field || t.classifies.any fun c => c.cid = d.cid && c.description.field = some field

/-- `_mime_sql` -/
def mimeMatches (mime : Option Text) (d : Doc) : Bool :=
  if mime = some (txt "application/pdf") then d.description.mimeType = some (txt "application/pdf")
  else if mime = some (txt "text/html") then
    d.description.mimeType = some (txt "text/html") || d.description.mimeType = some (txt "application/xhtml+xml")
  else true

def listed (mime : Option Text) (d : Doc) : Bool := !isAbusive t d.cid && mimeMatches mime d

/-- `LIMIT`; a negative one is none. -/
def limited {α : Type} (n : ℤ) (rows : List α) : List α := if n < 0 then rows else rows.take n.toNat

/-- `rows[:limit]` -/
def upTo {α : Type} (limit : ℤ) (rows : List α) : List α :=
  if limit < 0 then rows.take (rows.length - limit.natAbs) else rows.take limit.toNat

def ofDoc (d : Doc) : Shown := ⟨d.cid, d.publisher, d.description, none⟩

/-- `_decorate` -/
def decorate (rows : List Doc) : Except Error (List Shown) := applyMany o (pageOf t) (rows.map ofDoc)

def binds : List Value → Except Error Unit
  | [] => return ()
  | v :: vs => do
    let _ ← bindValue v
    binds vs

def matching (found : Indexed → Bool) (d : Doc) : Bool := t.docsFts.any fun r => r.rowid = d.rowid && found r

def filed (field mime : Option Text) : List Doc :=
  t.docs.filter fun d => (orEmpty field = [] || filedUnder t (orEmpty field) d) && listed t mime d

variable (engine : Engine)

/-- `search` -/
def search (query : Text) (field mime : Option Text) (limit : ℤ) : Except Error (List Shown) := do
  let n := min (if orEmpty field ≠ [] then limit * 3 else limit) 600
  binds [.str (ftsEscape query), .str (orEmpty field), .num (.int n)]
  let found ← engine.finds (ftsEscape query)
  let rows ← decorate o t (limited n (engine.ranked (ftsEscape query) ((filed t field mime).filter (matching t found))))
  if orEmpty field ≠ [] then return upTo limit (rows.filter fun r => r.description.field = field)
  else return upTo limit rows

/-- `browse` -/
def browse (field mime : Option Text) (limit offset : ℤ) : Except Error (List Shown × ℕ) := do
  binds [.str (orEmpty field), .num (.int limit), .num (.int offset)]
  let rows ← decorate o t (limited limit ((engine.newest (filed t field mime)).drop offset.toNat))
  return (rows, (filed t field mime).length)

end Listing

section Limits

variable {α : Type} {n : ℤ} {rows : List α}

theorem limited_sublist : (limited n rows).Sublist rows := by
  rw [limited]
  split_ifs
  · exact List.Sublist.refl _
  · exact List.take_sublist _ _

theorem limited_short : ((limited n rows).length : ℤ) < n ↔ (rows.length : ℤ) < n := by
  rw [limited]
  split_ifs
  · exact Iff.rfl
  · rw [List.length_take]
    omega

theorem limited_eq (h : (rows.length : ℤ) < n) : limited n rows = rows := by
  rw [limited]
  split_ifs
  · rfl
  · exact List.take_of_length_le (by omega)

theorem upTo_sublist : (upTo n rows).Sublist rows := by
  rw [upTo]
  split_ifs <;> exact List.take_sublist _ _

theorem upTo_short : ((upTo n rows).length : ℤ) < n ↔ (rows.length : ℤ) < n := by
  rw [upTo]
  split_ifs
  · omega
  · rw [List.length_take]
    omega

theorem upTo_eq (h : (rows.length : ℤ) < n) : upTo n rows = rows := by
  rw [upTo, if_neg (by omega)]
  exact List.take_of_length_le (by omega)

theorem forall₂_upTo {β : Type} {R : α → β → Prop} {shown : List β} (h : List.Forall₂ R rows shown) :
    List.Forall₂ R (upTo n rows) (upTo n shown) := by
  rw [upTo, upTo, h.length_eq]
  split_ifs <;> exact List.forall₂_take _ h

end Limits

section Shows

variable (o : Observer) (t : Tables)

def shown (d : Doc) : Except Error Shown :=
  if d.cid = [] then .ok (ofDoc d) else apply o (ofDoc d) t d.cid

def displays (f : Text) (d : Doc) : Bool := (shown o t d).toOption.any fun r => r.description.field = some f

def wanted (f : Text) (mime : Option Text) : List Doc := t.docs.filter fun d => listed t mime d && displays o t f d

def Sound (f : Text) (rows : List Shown) : Prop := ∀ r ∈ rows, r.description.field = some f

def Complete (limit : ℤ) (docs : List Doc) (rows : List Shown) : Prop :=
  (rows.length : ℤ) < limit → ∀ d ∈ docs, ∃ r ∈ rows, r.cid = d.cid

def SearchShows (engine : Engine) (query f : Text) (mime : Option Text) (limit : ℤ) (rows : List Shown) : Prop :=
  Sound f rows ∧ ∀ found, engine.finds (ftsEscape query) = .ok found →
    Complete limit ((wanted o t f mime).filter (matching t found)) rows

def BrowseShows (f : Text) (mime : Option Text) (limit : ℤ) (rows : List Shown) (total : ℕ) : Prop :=
  Sound f rows ∧ Complete limit (wanted o t f mime) rows ∧ total = (wanted o t f mime).length

/-- Among the rows that are fetched enough show the field, or all that do are fetched. -/
def Fetched (engine : Engine) (query f : Text) (mime : Option Text) (limit : ℤ) : Prop :=
  ∀ found, engine.finds (ftsEscape query) = .ok found →
    let fetched := limited (min (limit * 3) 600)
      (engine.ranked (ftsEscape query) ((filed t (some f) mime).filter (matching t found)))
    limit ≤ fetched.countP (displays o t f) ∨
      (∀ d ∈ wanted o t f mime, matching t found d = true → filedUnder t f d = true) ∧
        ∀ d ∈ filed t (some f) mime, matching t found d = true → displays o t f d = true → d ∈ fetched

/-- The page shows the field, and as many documents show another field than one they are filed under
as show one they are filed under nowhere. -/
def Settled (engine : Engine) (f : Text) (mime : Option Text) (limit : ℤ) : Prop :=
  (∀ d ∈ limited limit (engine.newest (filed t (some f) mime)), displays o t f d = true) ∧
    (filed t (some f) mime).countP (fun d => !displays o t f d) = (wanted o t f mime).countP fun d => !filedUnder t f d

end Shows

section Results

variable {o : Observer} {t : Tables} {engine : Engine} {query f : Text} {mime : Option Text} {limit : ℤ}

theorem decorate_ok {docs : List Doc} {rows : List Shown} (h : decorate o t docs = .ok rows) :
    List.Forall₂ (fun d r => shown o t d = .ok r) docs rows := by
  have hall := applyMany_ok (fun chunk _ => answers_pageOf t chunk) h
  rw [List.forall₂_map_left_iff] at hall
  apply hall.imp
  intro d r hr
  rw [shown]
  split_ifs with hc
  · rw [hr.2 hc]
  · exact hr.1 hc

theorem displays_of_shown {d : Doc} {r : Shown} (h : shown o t d = .ok r) :
    displays o t f d = decide (r.description.field = some f) := by
  rw [displays, h]
  rfl

theorem shown_cid {d : Doc} {r : Shown} (h : shown o t d = .ok r) : r.cid = d.cid := by
  rw [shown] at h
  split_ifs at h
  · cases h
    rfl
  · rw [apply] at h
    cases hv : consensus o t d.cid with
    | error e =>
      rw [hv] at h
      cases h
    | ok v =>
      rw [hv] at h
      cases h
      rfl

theorem exists_doc {docs : List Doc} {rows : List Shown} (h : List.Forall₂ (fun d r => shown o t d = .ok r) docs rows)
    {r : Shown} (hr : r ∈ rows) : ∃ d ∈ docs, shown o t d = .ok r := by
  induction h with
  | nil => cases hr
  | cons hd _ ih =>
    obtain rfl | hr := List.mem_cons.mp hr
    · exact ⟨_, List.mem_cons_self, hd⟩
    · obtain ⟨d, hmem, hd⟩ := ih hr
      exact ⟨d, List.mem_cons_of_mem _ hmem, hd⟩

theorem exists_row {docs : List Doc} {rows : List Shown} (h : List.Forall₂ (fun d r => shown o t d = .ok r) docs rows)
    {d : Doc} (hd : d ∈ docs) : ∃ r ∈ rows, shown o t d = .ok r := by
  induction h with
  | nil => cases hd
  | cons hr _ ih =>
    obtain rfl | hd := List.mem_cons.mp hd
    · exact ⟨_, List.mem_cons_self, hr⟩
    · obtain ⟨r, hmem, hr⟩ := ih hd
      exact ⟨r, List.mem_cons_of_mem _ hmem, hr⟩

theorem search_ok (hf : f ≠ []) {rows : List Shown} (h : search o t engine query (some f) mime limit = .ok rows) :
    ∃ found, engine.finds (ftsEscape query) = .ok found ∧
      List.Forall₂ (fun d r => shown o t d = .ok r)
        (upTo limit ((limited (min (limit * 3) 600) (engine.ranked (ftsEscape query)
          ((filed t (some f) mime).filter (matching t found)))).filter (displays o t f))) rows := by
  rw [search] at h
  rw [show orEmpty (some f) = f from rfl, if_pos hf] at h
  cases hbinds : binds [.str (ftsEscape query), .str f, .num (.int (min (limit * 3) 600))] with
  | error e =>
    rw [hbinds] at h
    cases h
  | ok u =>
    cases hfound : engine.finds (ftsEscape query) with
    | error e =>
      rw [hbinds, hfound] at h
      cases h
    | ok found =>
      cases hrows : decorate o t (limited (min (limit * 3) 600)
          (engine.ranked (ftsEscape query) ((filed t (some f) mime).filter (matching t found)))) with
      | error e =>
        rw [hbinds, hfound] at h
        change (decorate o t _ >>= _ : Except Error _) = _ at h
        rw [hrows] at h
        cases h
      | ok all =>
        rw [hbinds, hfound] at h
        change (decorate o t _ >>= _ : Except Error _) = _ at h
        rw [hrows] at h
        change (if f ≠ [] then Except.ok (upTo limit (all.filter fun r => r.description.field = some f)) else _) = _ at h
        rw [if_pos hf] at h
        cases h
        refine ⟨found, rfl, forall₂_upTo ?_⟩
        have hall := decorate_ok hrows
        apply List.rel_filter _ hall
        intro d r hd
        dsimp only
        rw [displays_of_shown hd]

theorem browse_ok {rows : List Shown} {total : ℕ} (h : browse o t engine (some f) mime limit 0 = .ok (rows, total)) :
    List.Forall₂ (fun d r => shown o t d = .ok r) (limited limit (engine.newest (filed t (some f) mime))) rows ∧
      total = (filed t (some f) mime).length := by
  rw [browse] at h
  cases hbinds : binds [.str (orEmpty (some f)), .num (.int limit), .num (.int 0)] with
  | error e =>
    rw [hbinds] at h
    cases h
  | ok u =>
    rw [hbinds] at h
    change (decorate o t (limited limit (engine.newest (filed t (some f) mime))) >>= _ : Except Error _) = _ at h
    cases hrows : decorate o t (limited limit (engine.newest (filed t (some f) mime))) with
    | error e =>
      rw [hrows] at h
      cases h
    | ok all =>
      rw [hrows] at h
      cases h
      exact ⟨decorate_ok hrows, rfl⟩

end Results

section Filters

variable {o : Observer} {t : Tables} {engine : Engine} {query f : Text} {mime : Option Text} {limit : ℤ}

theorem mem_filed (hf : f ≠ []) {d : Doc} :
    d ∈ filed t (some f) mime ↔ d ∈ t.docs ∧ filedUnder t f d = true ∧ listed t mime d = true := by
  rw [filed, List.mem_filter, Bool.and_eq_true, show orEmpty (some f) = f from rfl, decide_eq_false hf, Bool.false_or]

theorem mem_wanted {d : Doc} :
    d ∈ wanted o t f mime ↔ d ∈ t.docs ∧ listed t mime d = true ∧ displays o t f d = true := by
  rw [wanted, List.mem_filter, Bool.and_eq_true]

theorem sound_of_displays {docs : List Doc} {rows : List Shown}
    (h : List.Forall₂ (fun d r => shown o t d = .ok r) docs rows) (hdisplays : ∀ d ∈ docs, displays o t f d = true) :
    Sound f rows := by
  intro r hr
  obtain ⟨d, hd, hshown⟩ := exists_doc h hr
  have hd := hdisplays d hd
  rw [displays_of_shown hshown] at hd
  exact of_decide_eq_true hd

theorem search_iff (hkeyed : Table.Keyed Doc.cid t.docs) (hf : f ≠ []) {rows : List Shown}
    (h : search o t engine query (some f) mime limit = .ok rows) :
    SearchShows o t engine query f mime limit rows ↔ Fetched o t engine query f mime limit := by
  obtain ⟨found, hfound, hrows⟩ := search_ok hf h
  unfold SearchShows Fetched
  generalize hfetched : limited (min (limit * 3) 600)
    (engine.ranked (ftsEscape query) ((filed t (some f) mime).filter (matching t found))) = fetched at hrows
  have hsub : ∀ d ∈ fetched, d ∈ filed t (some f) mime := by
    intro d hd
    rw [← hfetched] at hd
    exact List.mem_of_mem_filter ((engine.ranked_perm _ _).mem_iff.mp (limited_sublist.subset hd))
  have hsound : Sound f rows := by
    apply sound_of_displays hrows
    exact fun d hd => (List.mem_filter.mp (upTo_sublist.subset hd)).2
  have hshort : (rows.length : ℤ) < limit ↔ (fetched.countP (displays o t f) : ℤ) < limit := by
    rw [← hrows.length_eq, upTo_short, List.countP_eq_length_filter]
  have hsame {found' : Indexed → Bool} (hfound' : engine.finds (ftsEscape query) = .ok found') : found' = found :=
    Except.ok.inj (hfound'.symm.trans hfound)
  constructor
  · rintro ⟨-, hcomplete⟩ found' hfound'
    rw [hsame hfound']
    dsimp only
    rw [hfetched]
    by_cases hlimit : limit ≤ fetched.countP (displays o t f)
    · exact .inl hlimit
    · right
      have hin : ∀ d ∈ wanted o t f mime, matching t found d = true → d ∈ fetched := by
        intro d hd hmatch
        have hlen := hshort.mpr (lt_of_not_ge hlimit)
        obtain ⟨r, hr, hcid⟩ := hcomplete found hfound hlen d (List.mem_filter.mpr ⟨hd, hmatch⟩)
        obtain ⟨e, he, hshown⟩ := exists_doc hrows hr
        have he := List.mem_of_mem_filter (upTo_sublist.subset he)
        have hdocs := ((mem_filed hf).mp (hsub e he)).1
        rw [← hkeyed.eq_of_key hdocs (mem_wanted.mp hd).1 ((shown_cid hshown).symm.trans hcid)]
        exact he
      constructor
      · exact fun d hd hmatch => ((mem_filed hf).mp (hsub d (hin d hd hmatch))).2.1
      · intro d hd hmatch hdisplays
        have hd := (mem_filed hf).mp hd
        exact hin d (mem_wanted.mpr ⟨hd.1, hd.2.2, hdisplays⟩) hmatch
  · intro hcond
    refine ⟨hsound, ?_⟩
    intro found' hfound' hlen d hd
    rw [hsame hfound'] at hd
    have hcond := hcond found hfound
    dsimp only at hcond
    rw [hfetched] at hcond
    obtain hlimit | ⟨hfiled, hall⟩ := hcond
    · exact absurd (hshort.mp hlen) (not_lt_of_ge hlimit)
    · obtain ⟨hd, hmatch⟩ := List.mem_filter.mp hd
      obtain ⟨hdocs, hlisted, hdisplays⟩ := mem_wanted.mp hd
      have hin := hall d ((mem_filed hf).mpr ⟨hdocs, hfiled d hd hmatch, hlisted⟩) hmatch hdisplays
      rw [upTo_eq (by rw [← List.countP_eq_length_filter]; exact hshort.mp hlen)] at hrows
      obtain ⟨r, hr, hshown⟩ := exists_row hrows (List.mem_filter.mpr ⟨hin, hdisplays⟩)
      exact ⟨r, hr, shown_cid hshown⟩

theorem length_filed_iff (hf : f ≠ []) : (filed t (some f) mime).length = (wanted o t f mime).length ↔
    (filed t (some f) mime).countP (fun d => !displays o t f d) =
      (wanted o t f mime).countP fun d => !filedUnder t f d := by
  have hboth : (filed t (some f) mime).countP (displays o t f) = (wanted o t f mime).countP (filedUnder t f) := by
    rw [filed, wanted, List.countP_filter, List.countP_filter]
    apply List.countP_congr
    intro d _
    rw [show orEmpty (some f) = f from rfl, decide_eq_false hf, Bool.false_or]
    simp only [Bool.and_eq_true]
    tauto
  have hfiled := List.length_eq_countP_add_countP (displays o t f) (l := filed t (some f) mime)
  have hwanted := List.length_eq_countP_add_countP (filedUnder t f) (l := wanted o t f mime)
  simp only [Bool.not_eq_true, Bool.decide_eq_false] at hfiled hwanted
  omega

theorem browse_iff (hf : f ≠ []) {rows : List Shown} {total : ℕ}
    (h : browse o t engine (some f) mime limit 0 = .ok (rows, total)) :
    BrowseShows o t f mime limit rows total ↔ Settled o t engine f mime limit := by
  obtain ⟨hrows, rfl⟩ := browse_ok h
  unfold BrowseShows Settled
  rw [length_filed_iff hf]
  constructor
  · rintro ⟨hsound, -, hcount⟩
    refine ⟨fun d hd => ?_, hcount⟩
    obtain ⟨r, hr, hshown⟩ := exists_row hrows hd
    rw [displays_of_shown hshown]
    exact decide_eq_true (hsound r hr)
  · rintro ⟨hpage, hcount⟩
    refine ⟨sound_of_displays hrows hpage, ?_, hcount⟩
    intro hlen d hd
    rw [← hrows.length_eq, limited_short] at hlen
    rw [limited_eq hlen] at hrows hpage
    -- The whole listing shows the field, so nothing is filed under another.
    have hnone : (filed t (some f) mime).countP (fun d => !displays o t f d) = 0 := by
      apply List.countP_eq_zero.mpr
      intro e he
      rw [hpage e ((engine.newest_perm _).mem_iff.mpr he)]
      exact Bool.false_ne_true
    rw [hnone] at hcount
    have hfiled := List.countP_eq_zero.mp hcount.symm d hd
    rw [Bool.not_eq_true, Bool.not_eq_false'] at hfiled
    obtain ⟨hdocs, hlisted, -⟩ := mem_wanted.mp hd
    have hin : d ∈ filed t (some f) mime := (mem_filed hf).mpr ⟨hdocs, hfiled, hlisted⟩
    have hin := (engine.newest_perm _).mem_iff.mpr hin
    obtain ⟨r, hr, hshown⟩ := exists_row hrows hin
    exact ⟨r, hr, shown_cid hshown⟩

/-- A field filter shows that field where the rows it fetches suffice, and where the listing is filed as it is shown. -/
theorem field_shown_iff (o : Observer) (t : Tables) (engine : Engine) (query f : Text) (mime : Option Text) (limit : ℤ)
    (rows page : List Shown) (total : ℕ) (hkeyed : Table.Keyed Doc.cid t.docs) (hf : f ≠ [])
    (hsearch : search o t engine query (some f) mime limit = .ok rows)
    (hbrowse : browse o t engine (some f) mime limit 0 = .ok (page, total)) :
    SearchShows o t engine query f mime limit rows ∧ BrowseShows o t f mime limit page total ↔
      Fetched o t engine query f mime limit ∧ Settled o t engine f mime limit :=
  and_congr (search_iff hkeyed hf hsearch) (browse_iff hf hbrowse)

end Filters

section Sample

def sampleEngine : Engine where
  finds := fun _ => .ok fun r => r.topic = txt "Light"
  ranked := fun _ docs => docs
  newest := fun docs => docs
  ranked_perm := fun _ _ => List.Perm.refl _
  newest_perm := fun _ => List.Perm.refl _

def shelf : Tables :=
  let cids := ["c", "d", "e", "f"]
  let first := cids.map fun cid => ballot cid "A" "physics" 1
  let docs := first.mapIdx fun i c => ⟨i + 1, c.cid, c.publisher, c.description, c.receivedAt⟩
  { empty with
    classifies := first ++ ["c", "d", "e"].flatMap fun cid => [ballot cid "B" "other" 2, ballot cid "C" "other" 3]
    docs := docs
    docsFts := docs.map fun d => ⟨d.rowid, d.cid, [], orEmpty d.description.field, orEmpty d.description.topic,
      orEmpty d.description.keywords⟩ }

def searched (field : String) (limit : ℤ) : Except Error (List Shown) :=
  search sampleObserver shelf sampleEngine (txt "light") (some (txt field)) none limit

def browsed (field : String) (limit : ℤ) : Except Error (List Shown × ℕ) :=
  browse sampleObserver shelf sampleEngine (some (txt field)) none limit 0

theorem shelf_keyed : Table.Keyed Doc.cid shelf.docs := by
  rw [Table.Keyed]
  decide +kernel

theorem field_shown_shelf : ∃ rows page total, searched "other" 5 = .ok rows ∧ browsed "other" 5 = .ok (page, total) ∧
    (SearchShows sampleObserver shelf sampleEngine (txt "light") (txt "other") none 5 rows ∧
        BrowseShows sampleObserver shelf (txt "other") none 5 page total ↔
      Fetched sampleObserver shelf sampleEngine (txt "light") (txt "other") none 5 ∧
        Settled sampleObserver shelf sampleEngine (txt "other") none 5) := by
  have hsearch : searched "other" 5 = .ok ((searched "other" 5).toOption.getD []) := by
    decide +kernel
  have hbrowse : browsed "other" 5 = .ok ((browsed "other" 5).toOption.getD ([], 0)) := by
    decide +kernel
  exact ⟨_, _, _, hsearch, hbrowse, field_shown_iff sampleObserver shelf sampleEngine (txt "light") (txt "other") none 5
    _ _ _ shelf_keyed (by decide) hsearch hbrowse⟩

theorem field_missed : searched "physics" 1 = .ok [] ∧
    ¬SearchShows sampleObserver shelf sampleEngine (txt "light") (txt "physics") none 1 [] ∧
    ∃ page total, browsed "physics" 1 = .ok (page, total) ∧
      ¬BrowseShows sampleObserver shelf (txt "physics") none 1 page total := by
  refine ⟨by decide +kernel, ?_, ?_⟩
  · rintro ⟨-, hcomplete⟩
    have hnone := hcomplete (fun r => r.topic = txt "Light") rfl (by decide)
    have hwanted : ∃ d, d ∈ (wanted sampleObserver shelf (txt "physics") none).filter
        (matching shelf fun r => r.topic = txt "Light") := by
      rw [← List.isEmpty_eq_false_iff_exists_mem]
      decide +kernel
    obtain ⟨d, hd⟩ := hwanted
    obtain ⟨r, hr, -⟩ := hnone d hd
    cases hr
  · have hbrowse : browsed "physics" 1 = .ok ((browsed "physics" 1).toOption.getD ([], 0)) := by
      decide +kernel
    refine ⟨_, _, hbrowse, ?_⟩
    rintro ⟨hsound, -⟩
    have hother : ¬∀ r ∈ ((browsed "physics" 1).toOption.getD ([], 0)).1, r.description.field = some (txt "physics") := by
      decide +kernel
    exact hother hsound

end Sample

end ObserverClub.Search
