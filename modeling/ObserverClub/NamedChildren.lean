import ObserverClub.CapsRestored
import ObserverClub.LaneCaps
import ObserverClub.QueueFlight

/-!
What one directory puts into the queue: `enqueue_doc_children` child by child.
-/

namespace ObserverClub.Work

open Library Python Indexer

/-- The loop over the children of a directory: what is queued, how many of the live rows are named, how many were
added, and whether the loop has been left. -/
structure Intake where
  tables : Tables
  namedCount : ℕ
  added : ℕ := 0
  ended : Bool := false
  deriving DecidableEq

section Loop

variable (cfg : Config) (chars : Unicode) (catalogued : Text → Bool) (skipCid : Text) (now : ℚ)

def passes (t : Tables) (cid : Text) : Prop :=
  cid = skipCid ∨ !Cid.valid chars.upper (.str cid) ∨ (t.unprocessable.lookup cid).isSome ∨ catalogued cid

instance (t : Tables) (cid : Text) : Decidable (passes chars catalogued skipCid t cid) :=
  inferInstanceAs (Decidable (_ ∨ _))

def nameRow (filename cid : Text) (r : Queued) : Queued :=
  if r.cid = cid then { r with filename := r.filename.or (some filename) } else r

def nameRows (filename cid : Text) (t : Tables) : Tables := { t with cids := t.cids.map (nameRow filename cid) }

def roomForPdf (t : Tables) : Prop :=
  laneSize Queued.pdfLane t + min (laneSize Queued.htmlLane t) cfg.laneCap < cfg.maxQueue

instance (t : Tables) : Decidable (roomForPdf cfg t) := inferInstanceAs (Decidable (_ < _))

def oldestProbe (t : Tables) : List Queued := probeOverflow t.cids 1

def addChild (filename cid : Text) (t : Tables) : Tables :=
  { t with cids := t.cids ++ [asked cfg chars.upper cid named (some filename) now] }

def takeIn (i : Intake) (p : Text × Text) : Intake :=
  if i.ended then i
  else if cfg.maxNamed ≤ i.namedCount then { i with ended := true }
  else if passes chars catalogued skipCid i.tables p.2 then i
  else if (Table.row? Queued.cid p.2 i.tables.cids).isSome then { i with tables := nameRows p.1 p.2 i.tables }
  else if roomForPdf cfg i.tables then
    { i with tables := addChild cfg chars now p.1 p.2 i.tables, namedCount := i.namedCount + 1, added := i.added + 1 }
  else if oldestProbe i.tables = [] then { i with ended := true }
  else
    { i with
      tables := addChild cfg chars now p.1 p.2 ((forgetAll (oldestProbe i.tables)).run i.tables).2
      namedCount := i.namedCount + 1
      added := i.added + 1 }

variable {cfg chars catalogued skipCid now}

theorem run_ended {i : Intake} (h : i.ended = true) (picked : List (Text × Text)) :
    run (takeIn cfg chars catalogued skipCid now) i picked = i := by
  induction picked with
  | nil => rfl
  | cons p picked ih =>
    have hstep : takeIn cfg chars catalogued skipCid now i p = i := if_pos h
    rw [run_cons, hstep, ih]

theorem length_forgetAll (rows : List Queued) (t : Tables) : ((forgetAll rows).run t).1 = rows.length := by
  induction rows generalizing t with
  | nil => rfl
  | cons r rows ih => exact congrArg (· + 1) (ih ((forgetCid r.cid).run t).2)

theorem addedChild_run (t : Tables) (namedCount : ℕ) (filename cid : Text) (picked : List (Text × Text)) :
    let r := (enqueueChildren cfg chars catalogued skipCid now (namedCount + 1) picked).run (addChild cfg chars now filename cid t)
    (do
      insertRow (asked cfg chars.upper cid named (some filename) now)
      let n ← enqueueChildren cfg chars catalogued skipCid now (namedCount + 1) picked
      return n + 1 : Op ℕ).run t = (r.1 + 1, r.2) := rfl

theorem run_pdfCanAdmit {β : Type} (f : Bool → Op β) (t : Tables) :
    (pdfCanAdmit cfg >>= f).run t = (f (decide (roomForPdf cfg t))).run t := rfl

theorem run_evictDirProbes {β : Type} (f : ℕ → Op β) (t : Tables) :
    (evictDirProbes 1 >>= f).run t = (f (oldestProbe t).length).run ((forgetAll (oldestProbe t)).run t).2 := by
  have hevict : (evictDirProbes 1).run t = ((oldestProbe t).length, ((forgetAll (oldestProbe t)).run t).2) :=
    Prod.ext (length_forgetAll _ t) rfl
  change (f ((evictDirProbes 1).run t).1).run ((evictDirProbes 1).run t).2 = _
  rw [hevict]

theorem enqueueChildren_run (t : Tables) (namedCount added : ℕ) (picked : List (Text × Text)) :
    let i := run (takeIn cfg chars catalogued skipCid now) { tables := t, namedCount, added } picked
    let r := (enqueueChildren cfg chars catalogued skipCid now namedCount picked).run t
    i.tables = r.2 ∧ i.added = added + r.1 := by
  induction picked generalizing t namedCount added with
  | nil => exact ⟨rfl, rfl⟩
  | cons p picked ih =>
    obtain ⟨filename, cid⟩ := p
    dsimp only at ih ⊢
    rw [run_cons, enqueueChildren]
    generalize hi : takeIn cfg chars catalogued skipCid now { tables := t, namedCount, added } (filename, cid) = i
    unfold takeIn at hi
    rw [if_neg Bool.false_ne_true] at hi
    by_cases hcap : cfg.maxNamed ≤ namedCount
    · rw [if_pos hcap] at hi
      rw [if_pos hcap, ← hi, run_ended rfl]
      exact ⟨rfl, rfl⟩
    rw [if_neg hcap] at hi
    rw [if_neg hcap, run_get]
    by_cases hpass : passes chars catalogued skipCid t cid
    · rw [if_pos hpass] at hi
      unfold passes at hpass
      rw [if_pos hpass, ← hi]
      exact ih t namedCount added
    rw [if_neg hpass] at hi
    unfold passes at hpass
    rw [if_neg hpass]
    by_cases hrow : (Table.row? Queued.cid cid t.cids).isSome = true
    · rw [if_pos hrow] at hi
      rw [if_pos hrow, ← hi]
      have hname : (fun r : Queued => if decide (r.cid = cid) = true then
          { r with filename := r.filename.or (some filename) } else r) = nameRow filename cid := by
        funext r
        unfold nameRow
        simp only [decide_eq_true_eq]
      have hrun : ((update (fun r => r.cid = cid) fun r => { r with filename := r.filename.or (some filename) } : Op ℕ).run t).2 =
          nameRows filename cid t := by
        unfold nameRows
        rw [← hname]
        rfl
      have hrest := ih (nameRows filename cid t) namedCount added
      rw [← hrun] at hrest
      rw [← hrun]
      exact hrest
    rw [if_neg hrow] at hi
    rw [if_neg hrow]
    have hadded (t₁ : Tables) : (run (takeIn cfg chars catalogued skipCid now)
          { tables := addChild cfg chars now filename cid t₁, namedCount := namedCount + 1, added := added + 1 } picked).tables =
          ((do
            insertRow (asked cfg chars.upper cid named (some filename) now)
            let n ← enqueueChildren cfg chars catalogued skipCid now (namedCount + 1) picked
            return n + 1 : Op ℕ).run t₁).2 ∧
        (run (takeIn cfg chars catalogued skipCid now)
          { tables := addChild cfg chars now filename cid t₁, namedCount := namedCount + 1, added := added + 1 } picked).added =
          added + ((do
            insertRow (asked cfg chars.upper cid named (some filename) now)
            let n ← enqueueChildren cfg chars catalogued skipCid now (namedCount + 1) picked
            return n + 1 : Op ℕ).run t₁).1 := by
      obtain ⟨htables, hcount⟩ := ih (addChild cfg chars now filename cid t₁) (namedCount + 1) (added + 1)
      rw [addedChild_run]
      exact ⟨htables, by rw [hcount]; omega⟩
    rw [run_pdfCanAdmit]
    dsimp only
    by_cases hr : roomForPdf cfg t
    · rw [if_pos hr] at hi
      rw [decide_eq_true hr, ← hi]
      exact hadded t
    rw [if_neg hr] at hi
    rw [decide_eq_false hr]
    rw [if_neg Bool.false_ne_true, run_evictDirProbes]
    by_cases hprobe : oldestProbe t = []
    · rw [if_pos hprobe] at hi
      rw [← hi, run_ended rfl, hprobe]
      exact ⟨rfl, rfl⟩
    · rw [if_neg hprobe] at hi
      rw [← hi, if_neg (mt List.length_eq_zero_iff.mp hprobe)]
      exact hadded _

end Loop

section Steps

variable {cfg : Config} {chars : Unicode} {catalogued : Text → Bool} {skipCid : Text} {now : ℚ} {t t' : Tables}

inductive Freed (cfg : Config) (t : Tables) : Tables → Prop where
  | room (h : roomForPdf cfg t) : Freed cfg t t
  | probe (r : Queued) (hr : r ∈ t.cids) (hd : r.discovered = true) (hp : r.probe = true) (hfull : ¬roomForPdf cfg t) :
      Freed cfg t ((forgetCid r.cid).run t).2

theorem takeIn_cases (i : Intake) (p : Text × Text) (i' : Intake) (h : i' = takeIn cfg chars catalogued skipCid now i p) :
    i' = i ∨ i' = { i with ended := true } ∨
      (i.ended = false ∧ i.namedCount < cfg.maxNamed ∧ ¬passes chars catalogued skipCid i.tables p.2 ∧
        ((∃ r, Table.row? Queued.cid p.2 i.tables.cids = some r ∧ i' = { i with tables := nameRows p.1 p.2 i.tables }) ∨
          Table.row? Queued.cid p.2 i.tables.cids = none ∧ ∃ t, Freed cfg i.tables t ∧
            i' = ⟨addChild cfg chars now p.1 p.2 t, i.namedCount + 1, i.added + 1, false⟩)) := by
  unfold takeIn at h
  split_ifs at h with hended hcap hpass hrow hroom hprobe
  · exact Or.inl h
  · exact Or.inr (Or.inl h)
  · exact Or.inl h
  · obtain ⟨r, hr⟩ := Option.isSome_iff_exists.mp hrow
    exact Or.inr (Or.inr ⟨eq_false_of_ne_true hended, not_le.mp hcap, hpass, Or.inl ⟨r, hr, h⟩⟩)
  · have hnew := Option.not_isSome_iff_eq_none.mp hrow
    refine Or.inr (Or.inr ⟨eq_false_of_ne_true hended, not_le.mp hcap, hpass, Or.inr ⟨hnew, _, Freed.room hroom, ?_⟩⟩)
    rw [h, eq_false_of_ne_true hended]
  · exact Or.inr (Or.inl h)
  · have hnew := Option.not_isSome_iff_eq_none.mp hrow
    refine Or.inr (Or.inr ⟨eq_false_of_ne_true hended, not_le.mp hcap, hpass, Or.inr ⟨hnew, ?_⟩⟩)
    have hlen : (oldestProbe i.tables).length ≤ 1 := List.length_take_le _ _
    obtain ⟨r, hr⟩ : ∃ r, oldestProbe i.tables = [r] := by
      cases ho : oldestProbe i.tables with
      | nil => exact absurd ho hprobe
      | cons r rest =>
        rw [ho, List.length_cons] at hlen
        rw [List.eq_nil_of_length_eq_zero (by omega : rest.length = 0)]
        exact ⟨r, rfl⟩
    have hmem : r ∈ oldestProbe i.tables := by
      rw [hr]
      exact List.mem_singleton_self r
    obtain ⟨hin, hkind⟩ := Table.mem_first hmem
    rw [Bool.and_eq_true] at hkind
    refine ⟨_, Freed.probe r hin hkind.1 hkind.2 hroom, ?_⟩
    rw [h, hr, eq_false_of_ne_true hended]
    rfl

theorem keyed_nameRows (filename cid : Text) (h : Table.Keyed Queued.cid t.cids) :
    Table.Keyed Queued.cid (nameRows filename cid t).cids := by
  unfold Table.Keyed nameRows
  rw [List.map_map]
  have hcid : Queued.cid ∘ nameRow filename cid = Queued.cid := by
    funext r
    unfold nameRow
    rw [Function.comp_apply]
    split_ifs <;> rfl
  rw [hcid]
  exact h

theorem keyed_append {r : Queued} {rows : List Queued} (h : Table.Keyed Queued.cid rows) (hr : ∀ q ∈ rows, q.cid ≠ r.cid) :
    Table.Keyed Queued.cid (rows ++ [r]) := by
  have hnew := h.putNew r
  rwa [Table.putNew_of_forall_ne hr] at hnew

theorem Freed.subset (h : Freed cfg t t') : t'.cids ⊆ t.cids := by
  cases h with
  | room => exact List.Subset.refl _
  | probe => exact fun q hq => (List.mem_filter.mp hq).1

theorem Freed.keyed (h : Freed cfg t t') (hkey : Table.Keyed Queued.cid t.cids) : Table.Keyed Queued.cid t'.cids := by
  cases h with
  | room => exact hkey
  | probe r => exact hkey.delete r.cid

theorem keyed_takeIn (i : Intake) (p : Text × Text) (h : Table.Keyed Queued.cid i.tables.cids) :
    Table.Keyed Queued.cid (takeIn cfg chars catalogued skipCid now i p).tables.cids := by
  generalize hi : takeIn cfg chars catalogued skipCid now i p = i'
  obtain rfl | rfl | ⟨-, -, -, ⟨r, -, rfl⟩ | ⟨hrow, t, hfreed, rfl⟩⟩ := takeIn_cases i p i' hi.symm
  · exact h
  · exact h
  · exact keyed_nameRows _ _ h
  · exact keyed_append (hfreed.keyed h) fun q hq => Table.row?_eq_none.mp hrow q (hfreed.subset hq)

def liveNamed (t : Tables) : ℕ := t.cids.countP fun r => r.source = named && r.live

def pdfCount (t : Tables) : ℕ := laneSize Queued.pdfLane t

def htmlCount (t : Tables) : ℕ := laneSize Queued.htmlLane t

theorem probe_lane {r : Queued} (hd : r.discovered = true) (hp : r.probe = true) :
    r.live = true ∧ r.pdfLane = true ∧ r.source ≠ named ∧ r.dagPb = true ∧ r.keepSrc = false := by
  unfold Queued.probe at hp
  rw [Bool.and_eq_true, Bool.and_eq_true, Bool.not_eq_true'] at hp
  obtain ⟨⟨hdag, hkeep⟩, -⟩ := hp
  refine ⟨live_of_discovered hd, ?_, ?_, hdag, hkeep⟩
  · unfold Queued.pdfLane
    rw [hdag, Bool.or_true]
  · rintro hs
    unfold Queued.keepSrc at hkeep
    rw [decide_eq_true hs, Bool.or_true] at hkeep
    cases hkeep

theorem Freed.counts (h : Freed cfg t t') (hkey : Table.Keyed Queued.cid t.cids) :
    (roomForPdf cfg t ∧ pdfCount t' = pdfCount t ∨ ¬roomForPdf cfg t ∧ pdfCount t' + 1 = pdfCount t) ∧
      htmlCount t' = htmlCount t ∧ liveNamed t' = liveNamed t := by
  cases h with
  | room h => exact ⟨Or.inl ⟨h, rfl⟩, rfl, rfl⟩
  | probe r hr hd hp hfull =>
    obtain ⟨hlive, hlane, hsource, -⟩ := probe_lane hd hp
    have hpdf := hkey.countP_delete hr fun r => r.live && r.pdfLane
    have hhtml := hkey.countP_delete hr fun r => r.live && r.htmlLane
    have hnamed := hkey.countP_delete hr fun r => r.source = named && r.live
    unfold Queued.htmlLane at hhtml
    simp only [hlive, hlane, hsource, Bool.and_self, Bool.not_true, Bool.and_false, decide_false, Bool.false_and, if_true,
      Bool.false_eq_true, if_false, Nat.add_zero] at hpdf hhtml hnamed
    exact ⟨Or.inr ⟨hfull, hpdf.symm⟩, hhtml.symm, hnamed.symm⟩

theorem counts_addChild (filename cid : Text) (t : Tables) :
    pdfCount (addChild cfg chars now filename cid t) = pdfCount t + 1 ∧
      htmlCount (addChild cfg chars now filename cid t) = htmlCount t ∧
        liveNamed (addChild cfg chars now filename cid t) = liveNamed t + 1 := by
  have hlane : (asked cfg chars.upper cid named (some filename) now).pdfLane = true := by
    unfold Queued.pdfLane asked
    rw [decide_eq_true rfl, Bool.or_true, Bool.true_or]
  unfold pdfCount htmlCount liveNamed laneSize addChild
  simp only [List.countP_append, List.countP_singleton, Queued.htmlLane, hlane]
  exact ⟨rfl, rfl, rfl⟩

/-- The row moves from the HTML lane to the PDF lane with its name. -/
def moves (filename cid : Text) (r : Queued) : Bool := r.live && r.htmlLane && (nameRow filename cid r).pdfLane

theorem nameRow_same (filename cid : Text) (r : Queued) :
    (nameRow filename cid r).cid = r.cid ∧ (nameRow filename cid r).live = r.live ∧
      (nameRow filename cid r).source = r.source ∧ (r.pdfLane = true → (nameRow filename cid r).pdfLane = true) := by
  unfold nameRow
  split_ifs
  · refine ⟨rfl, rfl, rfl, fun h => ?_⟩
    unfold Queued.pdfLane Queued.pdfName Queued.hasExt Queued.dagPb at h ⊢
    cases hf : r.filename with
    | none =>
      rw [hf] at h
      have hno : (txt ".pdf").isSuffixOf ((([] : Text).takeWhile (· ≠ 0)).map lowerAscii) = false := by decide
      rw [Option.getD_none, hno, Bool.false_or] at h
      rw [Bool.or_assoc, h, Bool.or_true]
    | some name =>
      rw [hf] at h
      exact h
  · exact ⟨rfl, rfl, rfl, id⟩

theorem counts_nameRows {r : Queued} (filename : Text) (hkey : Table.Keyed Queued.cid t.cids) (hr : r ∈ t.cids) :
    pdfCount (nameRows filename r.cid t) = pdfCount t + (if moves filename r.cid r then 1 else 0) ∧
      htmlCount (nameRows filename r.cid t) + (if moves filename r.cid r then 1 else 0) = htmlCount t ∧
        liveNamed (nameRows filename r.cid t) = liveNamed t := by
  have hother (s : Queued) (hs : s.cid ≠ r.cid) : nameRow filename r.cid s = s := if_neg hs
  have hpdf := hkey.countP_map_at hr hother fun r => r.live && r.pdfLane
  have hhtml := hkey.countP_map_at hr hother fun r => r.live && r.htmlLane
  obtain ⟨-, hlive, -, hlane⟩ := nameRow_same filename r.cid r
  unfold Queued.htmlLane at hhtml
  rw [hlive] at hpdf hhtml
  have hlanes : pdfCount (nameRows filename r.cid t) = pdfCount t + (if moves filename r.cid r then 1 else 0) ∧
      htmlCount (nameRows filename r.cid t) + (if moves filename r.cid r then 1 else 0) = htmlCount t := by
    unfold pdfCount htmlCount laneSize nameRows moves Queued.htmlLane
    cases hl : r.live with
    | false =>
      simp only [hl, Bool.false_and, Bool.false_eq_true, if_false, Nat.add_zero] at hpdf hhtml ⊢
      exact ⟨hpdf, hhtml⟩
    | true =>
      cases hp : r.pdfLane with
      | true =>
        simp only [hl, hp, hlane hp, Bool.not_true, Bool.and_false, Bool.false_and, Bool.true_and, Bool.false_eq_true, if_true,
          if_false, Nat.add_zero] at hpdf hhtml ⊢
        exact ⟨Nat.add_right_cancel hpdf, hhtml⟩
      | false =>
        cases hq : (nameRow filename r.cid r).pdfLane <;>
          simp only [hl, hp, hq, Bool.not_true, Bool.not_false, Bool.and_true, Bool.and_false,
            Bool.false_eq_true, if_true, if_false, Nat.add_zero] at hpdf hhtml ⊢
        · exact ⟨hpdf, Nat.add_right_cancel hhtml⟩
        · exact ⟨hpdf, hhtml⟩
  refine ⟨hlanes.1, hlanes.2, ?_⟩
  · unfold liveNamed nameRows
    rw [List.countP_map]
    congr 1
    funext q
    obtain ⟨-, hl, hs, -⟩ := nameRow_same filename r.cid q
    rw [Function.comp_apply, hl, hs]

def PdfWithin (cfg : Config) (before : ℕ) (t : Tables) : Prop :=
  pdfCount t ≤ before ∨ pdfCount t + min (htmlCount t) cfg.laneCap ≤ cfg.maxQueue

/-- The child is the name of a row of the HTML lane, and the PDF lane, which that row moves to, is full. -/
def Crowds (cfg : Config) (chars : Unicode) (catalogued : Text → Bool) (skipCid : Text) (before : ℕ) (i : Intake)
    (p : Text × Text) : Prop :=
  (i.ended = false ∧ i.namedCount < cfg.maxNamed ∧ ¬passes chars catalogued skipCid i.tables p.2 ∧
    (Table.row? Queued.cid p.2 i.tables.cids).any (moves p.1 p.2) = true) ∧
      before ≤ pdfCount i.tables ∧ cfg.maxQueue < pdfCount i.tables + 1 + min (htmlCount i.tables - 1) cfg.laneCap

instance (before : ℕ) (i : Intake) (p : Text × Text) : Decidable (Crowds cfg chars catalogued skipCid before i p) :=
  inferInstanceAs (Decidable (_ ∧ _))

theorem takeIn_row {i : Intake} {p : Text × Text} {r : Queued} (hended : i.ended = false) (hcap : i.namedCount < cfg.maxNamed)
    (hpass : ¬passes chars catalogued skipCid i.tables p.2) (hrow : Table.row? Queued.cid p.2 i.tables.cids = some r) :
    takeIn cfg chars catalogued skipCid now i p = { i with tables := nameRows p.1 p.2 i.tables } := by
  unfold takeIn
  rw [if_neg (hended ▸ Bool.false_ne_true), if_neg (not_le.mpr hcap), if_neg hpass, if_pos (hrow ▸ rfl)]

theorem not_within_crowded {before : ℕ} {i : Intake} {p : Text × Text} (hkey : Table.Keyed Queued.cid i.tables.cids)
    (h : Crowds cfg chars catalogued skipCid before i p) :
    ¬PdfWithin cfg before (takeIn cfg chars catalogued skipCid now i p).tables := by
  obtain ⟨⟨hended, hcap, hpass, hmoves⟩, hbefore, hfull⟩ := h
  cases hrow : Table.row? Queued.cid p.2 i.tables.cids with
  | none =>
    rw [hrow] at hmoves
    cases hmoves
  | some r =>
    rw [hrow, Option.any_some] at hmoves
    obtain ⟨hr, hrc⟩ := Table.row?_some hrow
    obtain ⟨hpdf, hhtml, -⟩ := counts_nameRows p.1 hkey hr
    rw [hrc, if_pos hmoves] at hpdf hhtml
    rw [takeIn_row hended hcap hpass hrow]
    unfold PdfWithin
    dsimp only
    omega

theorem pdfWithin_takeIn {before : ℕ} (i : Intake) (p : Text × Text) (hkey : Table.Keyed Queued.cid i.tables.cids)
    (h : PdfWithin cfg before i.tables) :
    PdfWithin cfg before (takeIn cfg chars catalogued skipCid now i p).tables ↔
      ¬Crowds cfg chars catalogued skipCid before i p := by
  by_cases hcrowds : Crowds cfg chars catalogued skipCid before i p
  · exact iff_of_false (not_within_crowded hkey hcrowds) fun hn => hn hcrowds
  · refine iff_of_true ?_ hcrowds
    generalize hi : takeIn cfg chars catalogued skipCid now i p = i'
    obtain rfl | rfl | ⟨hended, hcap, hpass, ⟨r, hrow, rfl⟩ | ⟨-, t, hfreed, rfl⟩⟩ := takeIn_cases i p i' hi.symm
    · exact h
    · exact h
    · obtain ⟨hr, hrc⟩ := Table.row?_some hrow
      obtain ⟨hpdf, hhtml, -⟩ := counts_nameRows p.1 hkey hr
      rw [hrc] at hpdf hhtml
      unfold PdfWithin at h ⊢
      dsimp only
      split_ifs at hpdf hhtml with hmoves
      · have hroom : ¬(before ≤ pdfCount i.tables ∧
            cfg.maxQueue < pdfCount i.tables + 1 + min (htmlCount i.tables - 1) cfg.laneCap) := fun hfull =>
          hcrowds ⟨⟨hended, hcap, hpass, by rw [hrow]; exact hmoves⟩, hfull⟩
        omega
      · omega
    · obtain ⟨hpdf, hhtml, -⟩ := hfreed.counts hkey
      obtain ⟨hpdf', hhtml', -⟩ := @counts_addChild cfg chars now p.1 p.2 t
      unfold roomForPdf at hpdf
      unfold PdfWithin pdfCount htmlCount at *
      dsimp only
      omega

theorem within_of_takeIn {before : ℕ} (i : Intake) (p : Text × Text) (hkey : Table.Keyed Queued.cid i.tables.cids)
    (h : PdfWithin cfg before (takeIn cfg chars catalogued skipCid now i p).tables) : PdfWithin cfg before i.tables := by
  generalize hi : takeIn cfg chars catalogued skipCid now i p = i' at h
  obtain rfl | rfl | ⟨-, -, -, ⟨r, hrow, rfl⟩ | ⟨-, t, hfreed, rfl⟩⟩ := takeIn_cases i p i' hi.symm
  · exact h
  · exact h
  · obtain ⟨hr, hrc⟩ := Table.row?_some hrow
    obtain ⟨hpdf, hhtml, -⟩ := counts_nameRows p.1 hkey hr
    rw [hrc] at hpdf hhtml
    unfold PdfWithin at h ⊢
    dsimp only at h
    split_ifs at hpdf hhtml <;> omega
  · obtain ⟨hpdf, hhtml, -⟩ := hfreed.counts hkey
    obtain ⟨hpdf', hhtml', -⟩ := @counts_addChild cfg chars now p.1 p.2 t
    unfold roomForPdf at hpdf
    unfold PdfWithin pdfCount htmlCount at *
    dsimp only at h
    omega

theorem named_takeIn {before : ℕ} (i : Intake) (p : Text × Text)
    (h : Table.Keyed Queued.cid i.tables.cids ∧ liveNamed i.tables = i.namedCount ∧ i.namedCount ≤ max cfg.maxNamed before) :
    let i' := takeIn cfg chars catalogued skipCid now i p
    Table.Keyed Queued.cid i'.tables.cids ∧ liveNamed i'.tables = i'.namedCount ∧ i'.namedCount ≤ max cfg.maxNamed before := by
  obtain ⟨hkey, hcount, hle⟩ := h
  refine ⟨keyed_takeIn i p hkey, ?_⟩
  generalize hi : takeIn cfg chars catalogued skipCid now i p = i'
  obtain rfl | rfl | ⟨-, hcap, -, ⟨r, hrow, rfl⟩ | ⟨-, t, hfreed, rfl⟩⟩ := takeIn_cases i p i' hi.symm
  · exact ⟨hcount, hle⟩
  · exact ⟨hcount, hle⟩
  · obtain ⟨hr, hrc⟩ := Table.row?_some hrow
    obtain ⟨-, -, hnamed⟩ := counts_nameRows p.1 hkey hr
    rw [hrc] at hnamed
    exact ⟨hnamed.trans hcount, hle⟩
  · obtain ⟨-, -, hnamed⟩ := hfreed.counts hkey
    obtain ⟨-, -, hnamed'⟩ := @counts_addChild cfg chars now p.1 p.2 t
    dsimp only
    omega

def Evictable (r : Queued) : Prop :=
  r.discovered = true ∧ (r.dagPb = true ∧ r.keepSrc = false ∨ r.source = named ∧ endsPdf r = false)

/-- The queue with the children of a directory: rows that were queued before, at most given a name, then the children.
Only what may have to make way is gone. -/
structure Filled (chars : Unicode) (catalogued : Text → Bool) (skipCid : Text) (t t' : Tables) (kept added : List Queued) :
    Prop where
  rows : t'.cids = kept ++ added
  old : ∀ q ∈ kept, ∃ r ∈ t.cids, q = { r with filename := q.filename }
  gone : ∀ r ∈ t.cids, (∃ q ∈ kept, q.cid = r.cid) ∨ Evictable r
  new : ∀ q ∈ added, q.source = named ∧ ¬passes chars catalogued skipCid t q.cid
  unprocessable : t'.unprocessable = t.unprocessable

variable {kept added : List Queued}

theorem Filled.named (h : Filled chars catalogued skipCid t t' kept added) (filename cid : Text) :
    Filled chars catalogued skipCid t (nameRows filename cid t') (kept.map (nameRow filename cid))
      (added.map (nameRow filename cid)) where
  rows := by
    unfold nameRows
    rw [h.rows, List.map_append]
  old := by
    intro q' hq'
    obtain ⟨q, hq, rfl⟩ := List.mem_map.mp hq'
    obtain ⟨r, hr, he⟩ := h.old q hq
    refine ⟨r, hr, ?_⟩
    rw [he]
    unfold nameRow
    split_ifs <;> rfl
  gone := by
    intro r hr
    obtain ⟨q, hq, hqc⟩ | hgone := h.gone r hr
    · exact Or.inl ⟨_, List.mem_map_of_mem hq, (nameRow_same filename cid q).1.trans hqc⟩
    · exact Or.inr hgone
  new := by
    intro q' hq'
    obtain ⟨q, hq, rfl⟩ := List.mem_map.mp hq'
    obtain ⟨hcid, -, hsource, -⟩ := nameRow_same filename cid q
    rw [hcid, hsource]
    exact h.new q hq
  unprocessable := h.unprocessable

theorem Filled.freed (h : Filled chars catalogued skipCid t t' kept added) (hkey : Table.Keyed Queued.cid t.cids)
    (hkey' : Table.Keyed Queued.cid t'.cids) {t₁ : Tables} (hf : Freed cfg t' t₁) :
    ∃ kept', Filled chars catalogued skipCid t t₁ kept' added := by
  cases hf with
  | room => exact ⟨kept, h⟩
  | probe r hr hd hp =>
    obtain ⟨-, -, hsource, hdag, hkeep⟩ := probe_lane hd hp
    have hnotadded {q : Queued} (hq : q ∈ added) : q.cid ≠ r.cid := by
      intro he
      have hqr : q = r := hkey'.eq_of_key (h.rows ▸ List.mem_append_right _ hq) hr he
      exact hsource (hqr ▸ (h.new q hq).1)
    have hrkept : r ∈ kept := by
      rw [h.rows] at hr
      obtain hr | hr := List.mem_append.mp hr
      · exact hr
      · exact absurd rfl (hnotadded hr)
    refine ⟨kept.filter fun q => q.cid ≠ r.cid, ?_, ?_, ?_, h.new, h.unprocessable⟩
    · change t'.cids.filter _ = _
      rw [h.rows, List.filter_append]
      congr 1
      exact List.filter_eq_self.mpr fun q hq => decide_eq_true (hnotadded hq)
    · exact fun q hq => h.old q (List.mem_filter.mp hq).1
    · intro r' hr'
      obtain ⟨q, hq, hqc⟩ | hgone := h.gone r' hr'
      · by_cases hqr : q.cid = r.cid
        · -- the row that goes is that of `r'`, as far as its kind is concerned
          right
          obtain ⟨r₀, hr₀, he⟩ := h.old r hrkept
          have hrow : r₀ = r' := hkey.eq_of_key hr₀ hr' ((congrArg Queued.cid he).symm.trans (hqr.symm.trans hqc))
          subst hrow
          rw [he] at hd hdag hkeep
          exact ⟨hd, Or.inl ⟨hdag, hkeep⟩⟩
        · exact Or.inl ⟨q, List.mem_filter.mpr ⟨hq, decide_eq_true hqr⟩, hqc⟩
      · exact Or.inr hgone

theorem Filled.add (h : Filled chars catalogued skipCid t t' kept added) {filename cid : Text}
    (hpass : ¬passes chars catalogued skipCid t' cid) :
    Filled chars catalogued skipCid t (addChild cfg chars now filename cid t') kept
      (added ++ [asked cfg chars.upper cid Work.named (some filename) now]) where
  rows := by
    unfold addChild
    rw [h.rows, List.append_assoc]
  old := h.old
  gone := h.gone
  new := by
    intro q hq
    obtain hq | hq := List.mem_append.mp hq
    · exact h.new q hq
    · rw [List.mem_singleton.mp hq]
      refine ⟨rfl, ?_⟩
      unfold passes at hpass ⊢
      rw [← h.unprocessable]
      exact hpass
  unprocessable := h.unprocessable

def FilledBy (chars : Unicode) (catalogued : Text → Bool) (skipCid : Text) (t : Tables) (i : Intake) : Prop :=
  Table.Keyed Queued.cid i.tables.cids ∧ ∃ kept added, Filled chars catalogued skipCid t i.tables kept added ∧
    added.length = i.added

theorem filledBy_takeIn (hkey : Table.Keyed Queued.cid t.cids) (i : Intake) (p : Text × Text)
    (h : FilledBy chars catalogued skipCid t i) : FilledBy chars catalogued skipCid t
      (takeIn cfg chars catalogued skipCid now i p) := by
  obtain ⟨hkey', kept, added, hfilled, hlen⟩ := h
  refine ⟨keyed_takeIn i p hkey', ?_⟩
  generalize hi : takeIn cfg chars catalogued skipCid now i p = i'
  obtain rfl | rfl | ⟨-, -, hpass, ⟨r, -, rfl⟩ | ⟨-, t₁, hfreed, rfl⟩⟩ := takeIn_cases i p i' hi.symm
  · exact ⟨kept, added, hfilled, hlen⟩
  · exact ⟨kept, added, hfilled, hlen⟩
  · exact ⟨_, _, hfilled.named p.1 p.2, (List.length_map _).trans hlen⟩
  · obtain ⟨kept', hfilled'⟩ := hfilled.freed hkey hkey' hfreed
    have hpass' : ¬passes chars catalogued skipCid t₁ p.2 := by
      unfold passes at hpass ⊢
      rw [hfilled'.unprocessable, ← hfilled.unprocessable]
      exact hpass
    refine ⟨kept', _, hfilled'.add hpass', ?_⟩
    rw [List.length_append, hlen]
    rfl

theorem added_le (i : Intake) (picked : List (Text × Text)) :
    (run (takeIn cfg chars catalogued skipCid now) i picked).added ≤ i.added + picked.length := by
  induction picked generalizing i with
  | nil => exact Nat.le_refl _
  | cons p picked ih =>
    have hrest := ih (takeIn cfg chars catalogued skipCid now i p)
    have hone : (takeIn cfg chars catalogued skipCid now i p).added ≤ i.added + 1 := by
      generalize hi : takeIn cfg chars catalogued skipCid now i p = i'
      obtain rfl | rfl | ⟨-, -, -, ⟨r, -, rfl⟩ | ⟨-, t₁, -, rfl⟩⟩ := takeIn_cases i p i' hi.symm <;> simp
    rw [run_cons, List.length_cons]
    omega

end Steps

section Directory

variable (cfg : Config) (chars : Unicode) (catalogued : Text → Bool) (links : List UnixFs.Link) (skipCid : Text) (now : ℚ)
  (t : Tables)

def swept : Tables := if docChildLinks chars cfg.maxDirDocs links = [] then t else (dropNamedNonPdf.run t).2

def opened : Intake := ⟨swept cfg chars links t, liveNamed (swept cfg chars links t), 0, false⟩

/-- What one directory may do to the queue. -/
structure WithinBounds : Prop where
  few : ((enqueueDocChildren cfg chars catalogued links skipCid now).run t).1 ≤ cfg.maxDirDocs
  filled : ∃ kept added, Filled chars catalogued skipCid t ((enqueueDocChildren cfg chars catalogued links skipCid
    now).run t).2 kept added ∧
    added.length = ((enqueueDocChildren cfg chars catalogued links skipCid now).run t).1
  once : Table.Keyed Queued.cid ((enqueueDocChildren cfg chars catalogued links skipCid now).run t).2.cids
  named : liveNamed ((enqueueDocChildren cfg chars catalogued links skipCid now).run t).2 ≤
    max cfg.maxNamed (liveNamed (swept cfg chars links t))
  pdfs : (pdfCount ((enqueueDocChildren cfg chars catalogued links skipCid now).run t).2 : ℤ) ≤ max (pdfCount t : ℤ)
    ((cfg.maxQueue : ℤ) - min (htmlCount ((enqueueDocChildren cfg chars catalogued links skipCid now).run t).2) cfg.laneCap)

variable {cfg chars catalogued links skipCid now t}

theorem enqueueDocChildren_run :
    let i := run (takeIn cfg chars catalogued skipCid now) (opened cfg chars links t) (docChildLinks chars cfg.maxDirDocs links)
    (enqueueDocChildren cfg chars catalogued links skipCid now).run t = (i.added, i.tables) := by
  unfold enqueueDocChildren opened swept
  dsimp only
  split_ifs with hnone
  · rw [hnone]
    rfl
  · obtain ⟨htables, hadded⟩ := @enqueueChildren_run cfg chars catalogued skipCid now (dropNamedNonPdf.run t).2
      (liveNamed (dropNamedNonPdf.run t).2) 0 (docChildLinks chars cfg.maxDirDocs links)
    rw [Nat.zero_add] at hadded
    exact Prod.ext hadded.symm htables.symm

theorem forgetAll_unprocessable (rows : List Queued) : ((forgetAll rows).run t).2.unprocessable = t.unprocessable := by
  induction rows generalizing t with
  | nil => rfl
  | cons r rows ih => exact @ih ((forgetCid r.cid).run t).2

theorem swept_cids (hkey : Table.Keyed Queued.cid t.cids) :
    (swept cfg chars links t).cids.Sublist t.cids ∧
      ∀ r ∈ t.cids, r ∈ (swept cfg chars links t).cids ∨ namedNonPdf r = true := by
  unfold swept
  split_ifs
  · exact ⟨List.Sublist.refl _, fun r hr => Or.inl hr⟩
  · rw [dropNamedNonPdf_cids hkey]
    refine ⟨List.filter_sublist, fun r hr => ?_⟩
    cases hn : namedNonPdf r with
    | true => exact Or.inr rfl
    | false => exact Or.inl (List.mem_filter.mpr ⟨hr, by rw [hn]; rfl⟩)

theorem swept_unprocessable : (swept cfg chars links t).unprocessable = t.unprocessable := by
  unfold swept
  split_ifs
  · rfl
  · exact forgetAll_unprocessable _

theorem filledBy_swept (hkey : Table.Keyed Queued.cid t.cids) :
    FilledBy chars catalogued skipCid (swept cfg chars links t) (opened cfg chars links t) :=
  ⟨hkey.sublist ((swept_cids hkey).1.map Queued.cid), (swept cfg chars links t).cids, [], ⟨(List.append_nil _).symm,
    fun _ hq => ⟨_, hq, rfl⟩, fun r hr => Or.inl ⟨r, hr, rfl⟩, fun _ hq => absurd hq List.not_mem_nil, rfl⟩, rfl⟩

/-- No row goes for the links that is a PDF. -/
def Sweeps (cfg : Config) (chars : Unicode) (links : List UnixFs.Link) (t : Tables) : Prop :=
  docChildLinks chars cfg.maxDirDocs links = [] ∨ ∀ r ∈ t.cids, hiddenPdf r = false

instance : Decidable (Sweeps cfg chars links t) := inferInstanceAs (Decidable (_ ∨ _))

theorem filledBy_opened (hkey : Table.Keyed Queued.cid t.cids) (hsweeps : Sweeps cfg chars links t) :
    FilledBy chars catalogued skipCid t (opened cfg chars links t) := by
  obtain ⟨hsub, hgone⟩ := @swept_cids cfg chars links t hkey
  refine ⟨hkey.sublist (hsub.map Queued.cid), (swept cfg chars links t).cids, [], ⟨?_, ?_, ?_, ?_, swept_unprocessable⟩, rfl⟩
  · exact (List.append_nil _).symm
  · exact fun q hq => ⟨q, hsub.subset hq, rfl⟩
  · intro r hr
    obtain hnone | hshown := hsweeps
    · rw [swept, if_pos hnone]
      exact Or.inl ⟨r, hr, rfl⟩
    obtain hr' | hn := hgone r hr
    · exact Or.inl ⟨r, hr', rfl⟩
    · have hpdf := hshown r hr
      unfold hiddenPdf at hpdf
      unfold namedNonPdf at hn
      rw [Bool.and_eq_true, Bool.and_eq_true, decide_eq_true_eq] at hn
      rw [decide_eq_true hn.1.1, hn.1.2, hn.2, Bool.and_true, Bool.true_and, Bool.true_and] at hpdf
      exact Or.inr ⟨hn.1.2, Or.inr ⟨hn.1.1, hpdf⟩⟩
  · exact fun q hq => absurd hq List.not_mem_nil

theorem pdfWithin_iff {before : ℕ} {t' : Tables} :
    (pdfCount t' : ℤ) ≤ max (before : ℤ) ((cfg.maxQueue : ℤ) - min (htmlCount t') cfg.laneCap) ↔ PdfWithin cfg before t' := by
  unfold PdfWithin
  omega

theorem sweeps_of_within (hkey : Table.Keyed Queued.cid t.cids) (h : WithinBounds cfg chars catalogued links skipCid now t) :
    Sweeps cfg chars links t := by
  by_contra hsweeps
  obtain ⟨hpicked, hhidden⟩ := not_or.mp hsweeps
  push Not at hhidden
  obtain ⟨r, hr, hhidden⟩ := hhidden
  have hpdf : ((r.source = named ∧ r.discovered = true) ∧ endsPdf r = true) ∧ r.pdfName = false := by
    rw [Ne, Bool.not_eq_false, hiddenPdf, Bool.and_eq_true, Bool.and_eq_true, Bool.and_eq_true, decide_eq_true_eq,
      Bool.not_eq_true'] at hhidden
    exact hhidden
  obtain ⟨⟨⟨hsource, hdisc⟩, hends⟩, hname⟩ := hpdf
  have hswept : r ∉ (swept cfg chars links t).cids := by
    intro hmem
    rw [swept, if_neg hpicked, dropNamedNonPdf_cids hkey] at hmem
    have hstays := (List.mem_filter.mp hmem).2
    rw [namedNonPdf, decide_eq_true hsource, hdisc, hname] at hstays
    cases hstays
  obtain ⟨kept, added, hfilled, hlen⟩ := h.filled
  have hrun := @enqueueDocChildren_run cfg chars catalogued links skipCid now t
  dsimp only at hrun
  rw [hrun] at hfilled hlen
  have hkeys := hkey.sublist ((@swept_cids cfg chars links t hkey).1.map Queued.cid)
  obtain ⟨-, kept', added', hfilled', hlen'⟩ := run_invariant_of_step (filledBy_takeIn hkeys)
    (@filledBy_swept cfg chars catalogued links skipCid t hkey) (docChildLinks chars cfg.maxDirDocs links)
  -- the rows that were added are the last ones, so both accounts have kept the same rows
  have hsame : kept = kept' := (List.append_inj' (hfilled.rows.symm.trans hfilled'.rows) (hlen.trans hlen'.symm)).1
  obtain ⟨q, hq, hqr⟩ | ⟨-, ⟨-, hkeep⟩ | ⟨-, hother⟩⟩ := hfilled.gone r hr
  · obtain ⟨s, hs, he⟩ := hfilled'.old q (hsame ▸ hq)
    have hsr : s = r := by
      apply hkey.eq_of_key ((swept_cids hkey).1.subset hs) hr
      rw [← hqr, he]
    exact hswept (hsr ▸ hs)
  · rw [Queued.keepSrc, decide_eq_true hsource, Bool.or_true] at hkeep
    cases hkeep
  · rw [hends] at hother
    cases hother

/-- A directory keeps the queue within its bounds exactly if it finds no PDF in it that is hidden from SQL, and none of
its children gives a name to a row of the HTML lane that moves to a full PDF lane with it. -/
theorem bounded_iff (cfg : Config) (chars : Unicode) (catalogued : Text → Bool) (links : List UnixFs.Link) (skipCid : Text)
    (now : ℚ) (t : Tables) (hkey : Table.Keyed Queued.cid t.cids) :
    WithinBounds cfg chars catalogued links skipCid now t ↔ Sweeps cfg chars links t ∧
      Along (takeIn cfg chars catalogued skipCid now) (fun i p => ¬Crowds cfg chars catalogued skipCid (pdfCount t) i p)
        (opened cfg chars links t) (docChildLinks chars cfg.maxDirDocs links) := by
  have hrun := @enqueueDocChildren_run cfg chars catalogued links skipCid now t
  dsimp only at hrun
  have hkeys : Table.Keyed Queued.cid (opened cfg chars links t).tables.cids :=
    hkey.sublist ((@swept_cids cfg chars links t hkey).1.map Queued.cid)
  have hbefore : PdfWithin cfg (pdfCount t) (opened cfg chars links t).tables :=
    Or.inl ((@swept_cids cfg chars links t hkey).1.countP_le)
  rw [← last_iff_along (I := fun i => PdfWithin cfg (pdfCount t) i.tables) (fun i p h => keyed_takeIn i p h)
    (fun i p hk h => pdfWithin_takeIn i p hk h) (fun i p hk h => within_of_takeIn i p hk h) hkeys hbefore]
  constructor
  · intro h
    have hpdfs := h.pdfs
    rw [hrun] at hpdfs
    exact ⟨sweeps_of_within hkey h, pdfWithin_iff.mp hpdfs⟩
  · rintro ⟨hsweeps, h⟩
    have hopened := @filledBy_opened cfg chars catalogued links skipCid t hkey hsweeps
    obtain ⟨hkey', kept, added, hfilled, hlen⟩ := run_invariant_of_step (filledBy_takeIn hkey) hopened
      (docChildLinks chars cfg.maxDirDocs links)
    have hcounted (i : Intake) (p : Text × Text) :=
      @named_takeIn cfg chars catalogued skipCid now (liveNamed (swept cfg chars links t)) i p
    obtain ⟨-, hnamed, hle⟩ := run_invariant_of_step hcounted ⟨hopened.1, rfl, le_max_right _ _⟩
      (docChildLinks chars cfg.maxDirDocs links)
    have hfew := @added_le cfg chars catalogued skipCid now (opened cfg chars links t) (docChildLinks chars cfg.maxDirDocs links)
    have hpicked : (docChildLinks chars cfg.maxDirDocs links).length ≤ cfg.maxDirDocs := List.length_take_le _ _
    constructor
    · rw [hrun]
      exact (hfew.trans (Nat.add_le_add_left hpicked _)).trans_eq (Nat.zero_add _)
    · rw [hrun]
      exact ⟨kept, added, hfilled, hlen⟩
    · rw [hrun]
      exact hkey'
    · rw [hrun, hnamed]
      exact hle
    · rw [hrun]
      exact pdfWithin_iff.mpr h

end Directory

section Samples

def overfull : Tables :=
  run (sight smallQueue Fetch.asciiChars.upper) empty (leaves ++ [(⟨rootCid, peerA, 994⟩, 1004)])

def directoryOfLeaves : List UnixFs.Link := [⟨some (txt "a.pdf"), leafCid⟩, ⟨some (txt "b.pdf"), leafCid'⟩]

theorem crowded : ¬WithinBounds smallQueue Fetch.asciiChars (fun _ => false) directoryOfLeaves [] 1005 overfull := by
  intro h
  have hpdfs := h.pdfs
  revert hpdfs
  decide +kernel

theorem bounded_folder :
    WithinBounds smallQueue Fetch.asciiChars (fun _ => false) [⟨some (txt "a.pdf"), rootCid⟩] [] 1005
      (run (sight smallQueue Fetch.asciiChars.upper) empty leaves) :=
  (bounded_iff smallQueue Fetch.asciiChars (fun _ => false) [⟨some (txt "a.pdf"), rootCid⟩] [] 1005
    (run (sight smallQueue Fetch.asciiChars.upper) empty leaves) (by rw [Table.Keyed]; decide +kernel)).mpr (by decide +kernel)

end Samples

end ObserverClub.Work
