import ObserverClub.CatalogRuns
import ObserverClub.PythonNumbers
import ObserverClub.Transactions

namespace ObserverClub.Store

open Library Python Sqlite Catalog

def indexed (d : Doc) : Indexed :=
  ⟨d.rowid, d.cid, orEmpty d.description.filename, orEmpty d.description.field, orEmpty d.description.topic,
    orEmpty d.description.keywords⟩

structure InSync (t : Tables) : Prop where
  cids : Table.Keyed Doc.cid t.docs
  rowids : Table.Keyed Doc.rowid t.docs
  index : t.docsFts = t.docs.map indexed
  counter : t.settings.lookup docsCount = some (decimalInt t.docs.length)

section Counter

theorem castInteger_decimalInt (i : ℤ) : castInteger (decimalInt i) = i := by
  have hspace : (decimalInt i).dropWhile isSpaceAscii = decimalInt i := by
    cases h : decimalInt i with
    | nil => rfl
    | cons c t =>
      rw [List.dropWhile_cons_of_neg]
      rw [(decimalInt_ascii (i := i) (h ▸ List.mem_cons_self)).2]
      exact Bool.false_ne_true
  have hdigits : (decimal i.natAbs).takeWhile isDigit = decimal i.natAbs :=
    List.takeWhile_eq_self_iff.mpr fun c hc => isDigit_of_mem_decimal hc
  unfold castInteger
  rw [hspace, splitSign_decimalInt]
  dsimp only
  rw [hdigits, digitsValue_decimal]
  by_cases hi : i < 0
  · rw [if_pos (decide_eq_true hi)]
    omega
  · rw [if_neg (by simpa using hi)]
    omega

theorem lookup_map (key : Text) (f : Text → Text) (settings : List (Text × Text)) :
    (settings.map fun p => if p.1 = key then (p.1, f p.2) else p).lookup key = (settings.lookup key).map f := by
  induction settings with
  | nil => rfl
  | cons p settings ih =>
    by_cases hp : p.1 = key
    · rw [List.map_cons, if_pos hp, List.lookup_cons, List.lookup_cons, hp, beq_self_eq_true]
      rfl
    · have hb : (key == p.1) = false := beq_eq_false_iff_ne.mpr (Ne.symm hp)
      rw [List.map_cons, if_neg hp, List.lookup_cons, List.lookup_cons, hb]
      exact ih

theorem lookup_bumped {settings : List (Text × Text)} {key : Text} {i : ℤ} (delta : ℤ)
    (h : settings.lookup key = some (decimalInt i)) :
    (bumped key delta settings).lookup key = some (decimalInt (i + delta)) := by
  unfold bumped
  rw [h]
  have hmap := lookup_map key (fun value => decimalInt (castInteger value + delta)) settings
  rw [h, Option.map_some, castInteger_decimalInt] at hmap
  exact hmap

end Counter

section Rows

theorem lt_nextRowid {docs : List Doc} {d : Doc} (h : d ∈ docs) : d.rowid < nextRowid docs := by
  induction docs with
  | nil => cases h
  | cons e docs ih =>
    rw [nextRowid, List.map_cons, List.foldr_cons]
    rcases List.mem_cons.mp h with rfl | h
    · omega
    · have hd := ih h
      rw [nextRowid] at hd
      omega

theorem filter_indexed {docs : List Doc} (hrowids : Table.Keyed Doc.rowid docs) (hcids : Table.Keyed Doc.cid docs)
    {d : Doc} (hd : d ∈ docs) :
    (docs.map indexed).filter (fun r => r.rowid ≠ d.rowid) = (Table.delete Doc.cid d.cid docs).map indexed := by
  rw [List.filter_map, Table.delete]
  congr 1
  apply List.filter_congr
  intro e he
  rw [Function.comp_apply, decide_eq_decide, not_iff_not]
  constructor
  · intro hr
    rw [List.inj_on_of_nodup_map hrowids he hd hr]
  · intro hc
    rw [List.inj_on_of_nodup_map hcids he hd hc]
    rfl

theorem filter_cid_of_free {docs : List Doc} {cid : Text} (h : ∀ d ∈ docs, d.cid ≠ cid) :
    docs.filter (fun d => d.cid = cid) = [] := by
  rw [List.filter_eq_nil_iff]
  intro d hd
  rw [decide_eq_true_eq]
  exact h d hd

theorem delete_of_free {docs : List Doc} {cid : Text} (h : ∀ d ∈ docs, d.cid ≠ cid) :
    Table.delete Doc.cid cid docs = docs := by
  apply List.filter_eq_self.mpr
  intro d hd
  exact decide_eq_true (h d hd)

theorem filter_cid_of_keyed {docs : List Doc} (h : Table.Keyed Doc.cid docs) {d : Doc} (hd : d ∈ docs) :
    docs.filter (fun e => e.cid = d.cid) = [d] := by
  induction docs with
  | nil => cases hd
  | cons e docs ih =>
    obtain ⟨hne, hrest⟩ := List.nodup_cons.mp h
    rcases List.mem_cons.mp hd with rfl | hmem
    · rw [List.filter_cons_of_pos (by simp), List.filter_eq_nil_iff.mpr]
      intro e he hc
      exact hne (List.mem_map.mpr ⟨e, he, of_decide_eq_true hc⟩)
    · have hc : e.cid ≠ d.cid := fun hc => hne (hc ▸ List.mem_map_of_mem hmem)
      rw [List.filter_cons_of_neg (by simpa using hc), ih hrest hmem]

theorem length_delete_of_keyed {docs : List Doc} (h : Table.Keyed Doc.cid docs) {d : Doc} (hd : d ∈ docs) :
    (Table.delete Doc.cid d.cid docs).length + 1 = docs.length := by
  have hsplit := List.length_eq_length_filter_add (l := docs) (fun e => decide (e.cid = d.cid))
  rw [filter_cid_of_keyed h hd, List.length_singleton] at hsplit
  have hdelete : docs.filter (fun e => !decide (e.cid = d.cid)) = Table.delete Doc.cid d.cid docs := by
    apply List.filter_congr
    intro e _
    exact (decide_not).symm
  rw [hdelete] at hsplit
  omega

end Rows

namespace InSync

variable {t t' : Tables} {cid : Text}

theorem congr (h : InSync t) (hdocs : t'.docs = t.docs) (hfts : t'.docsFts = t.docsFts)
    (hsettings : t'.settings = t.settings) : InSync t' := by
  constructor
  · rw [hdocs]
    exact h.cids
  · rw [hdocs]
    exact h.rowids
  · rw [hdocs, hfts]
    exact h.index
  · rw [hdocs, hsettings]
    exact h.counter

theorem added (h : InSync t) {d : Doc} (hcid : ∀ e ∈ t.docs, e.cid ≠ d.cid) (hrowid : ∀ e ∈ t.docs, e.rowid ≠ d.rowid)
    (hdocs : t'.docs = t.docs ++ [d]) (hfts : t'.docsFts = t.docsFts ++ [indexed d])
    (hsettings : t'.settings = bumped docsCount 1 t.settings) : InSync t' := by
  constructor
  · rw [hdocs, ← Table.putNew_of_forall_ne hcid]
    exact h.cids.putNew d
  · rw [hdocs, ← Table.putNew_of_forall_ne hrowid]
    exact h.rowids.putNew d
  · rw [hdocs, hfts, h.index, List.map_append]
    rfl
  · rw [hdocs, hsettings, lookup_bumped 1 h.counter, List.length_append, List.length_singleton]
    rfl

theorem removed (h : InSync t) {d : Doc} (hd : d ∈ t.docs) (hdocs : t'.docs = Table.delete Doc.cid d.cid t.docs)
    (hfts : t'.docsFts = t.docsFts.filter (fun r => r.rowid ≠ d.rowid))
    (hsettings : t'.settings = bumped docsCount (-1) t.settings) : InSync t' := by
  constructor
  · rw [hdocs]
    exact h.cids.delete d.cid
  · rw [hdocs]
    exact h.rowids.sublist (List.filter_sublist.map Doc.rowid)
  · rw [hdocs, hfts, h.index]
    exact filter_indexed h.rowids h.cids hd
  · have hlength := length_delete_of_keyed h.cids hd
    rw [hdocs, hsettings, lookup_bumped (-1) h.counter]
    congr 2
    omega

theorem withDoc (h : InSync t) (cid publisher : Text) (d : Description) (now : ℚ) :
    InSync (withDoc cid publisher d now t) := by
  cases hrow : Table.row? Doc.cid cid t.docs with
  | some e =>
    obtain ⟨he, hc⟩ := Table.row?_some hrow
    rw [Store.withDoc, hrow, Option.isNone_some, if_neg Bool.false_ne_true]
    exact h.congr (Table.putNew_of_mem he hc) rfl rfl
  | none =>
    have hfree := Table.row?_eq_none.mp hrow
    have hdocs : (insertDoc cid publisher d now t).docs = t.docs ++ [⟨nextRowid t.docs, cid, publisher, d, now⟩] :=
      Table.putNew_of_forall_ne hfree
    have hfind : Table.row? Doc.cid cid (insertDoc cid publisher d now t).docs =
        some ⟨nextRowid t.docs, cid, publisher, d, now⟩ := by
      rw [hdocs, Table.row?_append, hrow, Option.none_or]
      exact List.find?_cons_of_pos (decide_eq_true rfl)
    have hothers : t.docsFts.filter (fun r => r.rowid ≠ nextRowid t.docs) = t.docsFts := by
      rw [List.filter_eq_self, h.index]
      intro r hr
      obtain ⟨e, he, rfl⟩ := List.mem_map.mp hr
      exact decide_eq_true (Nat.ne_of_lt (lt_nextRowid he))
    rw [Store.withDoc, hrow, if_pos Option.isNone_none, addStat_eq, indexDoc, hfind]
    apply h.added (d := ⟨nextRowid t.docs, cid, publisher, d, now⟩) hfree
    · intro e he
      exact Nat.ne_of_lt (lt_nextRowid he)
    · exact hdocs
    · exact congrArg (· ++ [indexed ⟨nextRowid t.docs, cid, publisher, d, now⟩]) hothers
    · rfl

theorem dropDoc (h : InSync t) (cid : Text) : InSync (dropDoc cid t) := by
  by_cases hc : ∃ d ∈ t.docs, d.cid = cid
  · obtain ⟨d, hd, rfl⟩ := hc
    unfold Catalog.dropDoc
    rw [filter_cid_of_keyed h.cids hd]
    dsimp only
    rw [List.foldl_cons, List.foldl_nil, addStat_eq]
    exact h.removed hd rfl rfl rfl
  · rw [not_exists] at hc
    have hfree : ∀ d ∈ t.docs, d.cid ≠ cid := fun d hd he => hc d ⟨hd, he⟩
    unfold Catalog.dropDoc
    rw [filter_cid_of_free hfree]
    exact h.congr (delete_of_free hfree) rfl rfl

theorem purgeCid (h : InSync t) (cid : Text) : InSync (purgeCid cid t) := by
  by_cases hc : ∃ d ∈ t.docs, d.cid = cid
  · obtain ⟨d, hd, rfl⟩ := hc
    unfold Store.purgeCid
    rw [filter_cid_of_keyed h.cids hd]
    dsimp only
    rw [if_neg (List.cons_ne_nil d []), addStat_eq]
    apply h.removed hd rfl _ rfl
    apply List.filter_congr
    intro r _
    exact decide_eq_decide.mpr (not_congr List.mem_singleton)
  · rw [not_exists] at hc
    have hfree : ∀ d ∈ t.docs, d.cid ≠ cid := fun d hd he => hc d ⟨hd, he⟩
    unfold Store.purgeCid
    rw [filter_cid_of_free hfree]
    dsimp only
    rw [if_pos rfl]
    refine h.congr (delete_of_free hfree) ?_ rfl
    exact List.filter_eq_self.mpr fun r _ => decide_eq_true List.not_mem_nil

theorem rebuilt {o : Observer} (h : InSync t) (hr : Rebuilt o cid t t') : InSync t' := by
  cases hr with
  | gone _ => exact h.dropDoc cid
  | again _ _ => exact (h.dropDoc cid).withDoc _ _ _ _

theorem rebuiltAll {o : Observer} {cids : List Text} (h : InSync t) (hr : RebuiltAll o cids t t') : InSync t' := by
  induction hr with
  | nil t => exact h
  | cons first _ ih => exact ih (h.rebuilt first)

theorem purged (h : InSync t) (cids : List Text) : InSync (cids.foldl (fun t cid => Store.purgeCid cid t) t) := by
  induction cids generalizing t with
  | nil => exact h
  | cons cid cids ih => exact ih (h.purgeCid cid)

theorem effect {o : Observer} {w : Surroundings} {m : Accepted} {publisher : Text} {obj : Value} (h : InSync t)
    (he : Effect o w m cid publisher obj t t') : InSync t' := by
  cases he with
  | classified _ _ _ =>
    apply withDoc
    exact h.congr rfl rfl rfl
  | aliased _ _ _ =>
    rw [withAlias]
    split <;> exact h.congr rfl rfl rfl
  | skipped _ _ _ => exact h.congr rfl rfl rfl
  | claimed _ _ =>
    rw [withClaim]
    split
    · exact h.congr rfl rfl rfl
    · exact h
  | reported _ =>
    rw [withReport]
    split <;> exact h.congr rfl rfl rfl

theorem changed {o : Observer} {c : Call} (h : InSync t) (hc : Changed o c t t') : InSync t' := by
  cases hc with
  | unchanged _ _ => exact h
  | ingested _ _ he =>
    refine effect ?_ he
    exact h.congr rfl rfl rfl
  | blacklisted _ _ hr =>
    refine rebuiltAll ?_ hr
    exact h.congr rfl rfl rfl
  | unblacklisted _ _ => exact h.congr rfl rfl rfl
  | expired _ _ _ => exact h.congr rfl rfl rfl
  | purgedSkips _ => exact h.congr rfl rfl rfl
  | purgedCids _ => exact h.purged _
  | counted _ => exact ⟨h.cids, h.rowids, h.index, (Table.lookup_put _ _ _).trans (if_pos rfl)⟩

end InSync

theorem inSync_fresh : InSync fresh.view := ⟨List.nodup_nil, List.nodup_nil, rfl, rfl⟩

/-- After every run in which no call raises, the index and the counter stand for the search rows. -/
theorem stays_in_sync (o : Observer) (calls : List Call) (h : Along (step o) (Returns o) fresh calls) :
    InSync (run (step o) fresh calls).view :=
  holds_after (fun _ _ _ hc hs => hs.changed hc) inSync_fresh h

def votesThenBlacklist : List Call :=
  [.ingest sampleSurroundings (classifyObject (.num (.int 5))), .count,
    .ingest sampleSurroundings (classifyObject (.num (.int 6))),
    .blacklist (txt "12D3KooWSelf") (txt "12D3KooWPeer") 1001, .unblacklist (txt "12D3KooWPeer"), .purgeCids,
    .ingest sampleSurroundings (classifyObject (.num (.int 7)))]

theorem stays_in_sync_votes :
    (run (step sampleObserver) fresh votesThenBlacklist).view.docs.length = 1 ∧
      InSync (run (step sampleObserver) fresh votesThenBlacklist).view :=
  ⟨by decide +kernel, stays_in_sync sampleObserver votesThenBlacklist (by decide +kernel)⟩

end ObserverClub.Store
