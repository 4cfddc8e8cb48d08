import ObserverClub.CapsRestored
import ObserverClub.LaneCaps
import ObserverClub.Library.Turns
import ObserverClub.QueueFlight

namespace ObserverClub.Work

open Library Python Indexer Turns

section Picks

variable (cfg : Config) (now : ℚ) (t : Tables)

def takeSingly : ℕ → Op (List Row)
  | 0 => pure []
  | n + 1 => do
    let one ← takeBatch cfg now 1
    if one = [] then return []
    else
      let rows ← takeSingly n
      return one ++ rows

def pick (p : Queued → Bool) (minPeers : ℤ) : Option Queued :=
  ((t.cids.filter fun r => ready cfg minPeers now r && p r).insertionSort fun a b => takeBefore a b).head?

def isReport (r : Queued) : Bool := r.source = report

def reportRow : Option Queued := pick cfg now t isReport cfg.minPeerCount

def probesBusy : ℕ := t.cids.countP fun r => r.processing && r.probe

def pdfRow : Option Queued :=
  (pick cfg now t Queued.namedLane cfg.minPeerCount).or
    (if probesBusy t < cfg.dirProbes then pick cfg now t Queued.probe cfg.minPeerCount else none)

def htmlRow : Option Queued := pick cfg now t Queued.htmlLane cfg.prefer

def rowOf : Option Side → Option Queued
  | none => reportRow cfg now t
  | some .left => pdfRow cfg now t
  | some .right => htmlRow cfg now t

def processed (cid : Text) : Tables :=
  { t with cids := t.cids.map fun r => if r.cid = cid then { r with status := .processing } else r }

def waiting (minPeers : ℤ) (kind : Queued → Bool) : ℕ := t.cids.countP fun r => ready cfg minPeers now r && kind r

def reportsWaiting : ℕ := waiting cfg now t cfg.minPeerCount isReport

/-- What the PDF lane can give: the named rows, and as many sniffed folders as may still be looked at. -/
def pdfsWaiting : ℕ :=
  waiting cfg now t cfg.minPeerCount (fun r => r.namedLane && !isReport r) +
    min (waiting cfg now t cfg.minPeerCount Queued.probe) (cfg.dirProbes - probesBusy t)

def htmlsWaiting : ℕ := waiting cfg now t cfg.prefer fun r => r.htmlLane && !isReport r

def busyIn (lane : Queued → Bool) : ℕ :=
  (t.cids.countP fun r => r.processing && lane r) + waiting cfg now t cfg.minPeerCount fun r => isReport r && lane r

def freePdf : ℕ := cfg.laneWorkers - busyIn cfg now t Queued.pdfLane

def freeHtml : ℕ := cfg.laneWorkers - busyIn cfg now t Queued.htmlLane

end Picks

section Running

variable {cfg : Config} {now : ℚ} {t : Tables}

theorem pick_some {p : Queued → Bool} {m : ℤ} {r : Queued} (h : pick cfg now t p m = some r) :
    r ∈ t.cids ∧ ready cfg m now r = true ∧ p r = true := by
  have hmem := (List.mem_insertionSort _).mp (List.mem_of_mem_head? h)
  obtain ⟨hr, hp⟩ := List.mem_filter.mp hmem
  exact ⟨hr, (Bool.and_eq_true _ _).mp hp⟩

theorem pick_none {p : Queued → Bool} {m : ℤ} : pick cfg now t p m = none ↔ waiting cfg now t m p = 0 := by
  unfold pick waiting
  rw [List.head?_eq_none_iff, List.countP_eq_length_filter, ← List.length_eq_zero_iff, List.length_insertionSort]

theorem run_process (cid : Text) : (process cid).run t = ((), processed t cid) := by
  have hrow : (fun r : Queued => if decide (r.cid = cid) = true then { r with status := .processing } else r) =
      fun r => if r.cid = cid then { r with status := .processing } else r := by
    funext r
    simp only [decide_eq_true_eq]
  unfold processed
  rw [← hrow]
  rfl

theorem run_pickOne {β : Type} (p : Queued → Bool) (m : ℤ) (f : Option Queued → Op β) :
    (pickOne cfg p m now >>= f).run t = (f (pick cfg now t p m)).run t := rfl

theorem run_nextPdf : (nextPdf cfg now).run t = (pdfRow cfg now t, t) := by
  unfold nextPdf pdfRow
  rw [run_pickOne]
  cases pick cfg now t Queued.namedLane cfg.minPeerCount with
  | some r => rfl
  | none =>
    have hrest : ((do
        let probes ← countRows fun r => r.processing && r.probe
        if probes < cfg.dirProbes then pickOne cfg Queued.probe cfg.minPeerCount now else return none : Op (Option Queued))).run t =
          (if probesBusy t < cfg.dirProbes then pickOne cfg Queued.probe cfg.minPeerCount now else return none :
            Op (Option Queued)).run t :=
      rfl
    rw [Option.none_or]
    refine Eq.trans hrest ?_
    split_ifs <;> rfl

theorem nextRow_report {r : Queued} (h : reportRow cfg now t = some r) (a b : ℕ) :
    (nextRow cfg now a b).run t = (some (r, none), t) := by
  have hpick : pick cfg now t (fun r => r.source = report) cfg.minPeerCount = some r := h
  unfold nextRow
  rw [run_pickOne, hpick]
  rfl

theorem choose_turn (a b : ℕ) (pdf html : Queued) :
    choose cfg a b (some pdf) (some html) =
      (turn (cfg.laneWorkers - a) (cfg.laneWorkers - b)).map fun s => if s = .left then (pdf, .pdf) else (html, .html) := by
  unfold choose turn
  dsimp only
  by_cases ha : a < cfg.laneWorkers ∧ a ≤ b
  · rw [if_pos ha, if_pos (by omega)]
    rfl
  · by_cases hb : b < cfg.laneWorkers
    · rw [if_neg ha, if_pos hb, if_neg (by omega), if_pos (by omega)]
      rfl
    · rw [if_neg ha, if_neg hb, if_neg (by omega), if_neg (by omega), if_neg (by omega)]
      rfl

theorem nextRow_lanes (h : reportRow cfg now t = none) (a b : ℕ) :
    (nextRow cfg now a b).run t =
      ((choose cfg ((t.cids.countP fun r => r.processing && r.pdfLane) + a)
        ((t.cids.countP fun r => r.processing && r.htmlLane) + b) (pdfRow cfg now t) (htmlRow cfg now t)).map
          fun p => (p.1, some p.2), t) := by
  have hpick : pick cfg now t (fun r => r.source = report) cfg.minPeerCount = none := h
  have hrest (x y : ℕ) : (do
      let pdf ← nextPdf cfg now
      let html ← pickOne cfg Queued.htmlLane cfg.prefer now
      return (choose cfg x y pdf html).map fun p => (p.1, some p.2) : Op (Option (Queued × Option Lane))).run t =
        ((choose cfg x y (pdfRow cfg now t) (htmlRow cfg now t)).map fun p => (p.1, some p.2), t) := by
    rw [StateT.run_bind, run_nextPdf]
    rfl
  unfold nextRow
  rw [run_pickOne, hpick]
  exact hrest _ _

variable (cfg now)

def pdfMore : Option Lane → ℕ
  | some .pdf => 1
  | _ => 0

def htmlMore : Option Lane → ℕ
  | some .html => 1
  | _ => 0

/-- The rounds of `take_batch`, where each counts for its lane `k` times more. -/
def takeRoundsBy (k : ℕ) : ℕ → ℕ → ℕ → Op (List Queued)
  | 0, _, _ => pure []
  | limit + 1, pdfExtra, htmlExtra => do
    match ← nextRow cfg now pdfExtra htmlExtra with
    | none => return []
    | some (r, lane) =>
      process r.cid
      let rows ← takeRoundsBy k limit (pdfExtra + k * pdfMore lane) (htmlExtra + k * htmlMore lane)
      return r :: rows

def follow : List (Option Side) → Tables → List Queued × Tables
  | [], t => ([], t)
  | s :: order, t =>
    match rowOf cfg now t s with
    | none => ([], t)
    | some r => (r :: (follow order (processed t r.cid)).1, (follow order (processed t r.cid)).2)

def Feasible : List (Option Side) → Tables → Prop
  | [], _ => True
  | s :: order, t => ∃ r, rowOf cfg now t s = some r ∧ Feasible order (processed t r.cid)

variable {cfg now}

theorem takeRounds_by (n a b : ℕ) : takeRounds cfg now n a b = takeRoundsBy cfg now 1 n a b := by
  induction n generalizing a b with
  | zero => rfl
  | succ n ih =>
    unfold takeRounds takeRoundsBy
    apply congrArg (nextRow cfg now a b >>= ·)
    funext next
    cases next with
    | none => rfl
    | some p =>
      obtain ⟨r, lane⟩ := p
      simp only [← ih]
      cases lane with
      | none => rfl
      | some lane => cases lane <;> rfl

theorem takeRoundsBy_none {n k a b : ℕ} (h : (nextRow cfg now a b).run t = (none, t)) :
    (takeRoundsBy cfg now k (n + 1) a b).run t = ([], t) := by
  unfold takeRoundsBy
  rw [StateT.run_bind, h]
  rfl

theorem takeRoundsBy_some {n k a b : ℕ} {r : Queued} {lane : Option Lane} (h : (nextRow cfg now a b).run t = (some (r, lane), t)) :
    (takeRoundsBy cfg now k (n + 1) a b).run t =
      let rest := (takeRoundsBy cfg now k n (a + k * pdfMore lane) (b + k * htmlMore lane)).run (processed t r.cid)
      (r :: rest.1, rest.2) := by
  have hrest : ((do
      process r.cid
      let rows ← takeRoundsBy cfg now k n (a + k * pdfMore lane) (b + k * htmlMore lane)
      return r :: rows : Op (List Queued))).run t =
      let rest := (takeRoundsBy cfg now k n (a + k * pdfMore lane) (b + k * htmlMore lane)).run (processed t r.cid)
      (r :: rest.1, rest.2) := by
    rw [StateT.run_bind, run_process]
    rfl
  rw [takeRoundsBy, StateT.run_bind, h]
  exact hrest

def asRow (r : Queued) : Row := ⟨r.cid, some r.codec, r.attempts⟩

theorem takeBatch_run (n : ℕ) :
    (takeBatch cfg now n).run t = (((takeRounds cfg now n 0 0).run t).1.map asRow, ((takeRounds cfg now n 0 0).run t).2) := rfl

theorem takeSingly_by (n : ℕ) :
    (takeSingly cfg now n).run t =
      (((takeRoundsBy cfg now 0 n 0 0).run t).1.map asRow, ((takeRoundsBy cfg now 0 n 0 0).run t).2) := by
  induction n generalizing t with
  | zero => rfl
  | succ n ih =>
    obtain ⟨hsame, -⟩ := @nextRow_spec cfg now t 0 0
    have hbind : (takeSingly cfg now (n + 1)).run t =
        (if ((takeBatch cfg now 1).run t).1 = [] then pure [] else do
          let rows ← takeSingly cfg now n
          return ((takeBatch cfg now 1).run t).1 ++ rows : Op (List Row)).run ((takeBatch cfg now 1).run t).2 := rfl
    rw [hbind, takeBatch_run, takeRounds_by]
    cases hnext : ((nextRow cfg now 0 0).run t).1 with
    | none =>
      have hrun : (nextRow cfg now 0 0).run t = (none, t) := Prod.ext hnext hsame
      rw [takeRoundsBy_none hrun, takeRoundsBy_none hrun]
      rfl
    | some p =>
      obtain ⟨r, lane⟩ := p
      have hrun : (nextRow cfg now 0 0).run t = (some (r, lane), t) := Prod.ext hnext hsame
      rw [takeRoundsBy_some hrun, takeRoundsBy_some hrun]
      dsimp only
      rw [if_neg (by simp), Nat.zero_mul, Nat.zero_mul]
      have hrest := @ih (processed t r.cid)
      have hone : ((do
          let rows ← takeSingly cfg now n
          return [asRow r] ++ rows : Op (List Row)).run (processed t r.cid)) =
          ([asRow r] ++ ((takeSingly cfg now n).run (processed t r.cid)).1,
            ((takeSingly cfg now n).run (processed t r.cid)).2) := rfl
      refine Eq.trans hone ?_
      rw [hrest]
      rfl

end Running

section Counting

variable {cfg : Config} {now : ℚ} {t : Tables} {r : Queued}

theorem countP_processed (hkey : Table.Keyed Queued.cid t.cids) (hr : r ∈ t.cids) (p : Queued → Bool) :
    (processed t r.cid).cids.countP p + (if p r then 1 else 0) =
      t.cids.countP p + if p { r with status := .processing } then 1 else 0 := by
  have hone := hkey.countP_map_at hr (fun s (hs : s.cid ≠ r.cid) =>
    (if_neg hs : (if s.cid = r.cid then { s with status := .processing } else s) = s)) p
  rw [if_pos rfl] at hone
  exact hone

theorem waiting_processed (hkey : Table.Keyed Queued.cid t.cids) (hr : r ∈ t.cids) (m : ℤ) (kind : Queued → Bool) :
    waiting cfg now (processed t r.cid) m kind + (if ready cfg m now r && kind r then 1 else 0) = waiting cfg now t m kind := by
  have hone := countP_processed hkey hr fun r => ready cfg m now r && kind r
  have hready : ready cfg m now { r with status := .processing } = false := rfl
  rw [hready, Bool.false_and, if_neg Bool.false_ne_true, Nat.add_zero] at hone
  exact hone

theorem processing_processed (hkey : Table.Keyed Queued.cid t.cids) (hr : r ∈ t.cids) (hd : r.discovered = true)
    (lane : Queued → Bool) (hlane : lane { r with status := .processing } = lane r) :
    ((processed t r.cid).cids.countP fun r => r.processing && lane r) =
      (t.cids.countP fun r => r.processing && lane r) + if lane r then 1 else 0 := by
  have hone := countP_processed hkey hr fun r => r.processing && lane r
  have hidle : r.processing = false := decide_eq_false (discovered_idle hd)
  rw [hidle, Bool.false_and, if_neg Bool.false_ne_true, Nat.add_zero, hlane] at hone
  exact hone

theorem keyed_processed (hkey : Table.Keyed Queued.cid t.cids) (cid : Text) : Table.Keyed Queued.cid (processed t cid).cids := by
  unfold Table.Keyed processed
  rw [List.map_map]
  have hcid : Queued.cid ∘ (fun r : Queued => if r.cid = cid then { r with status := .processing } else r) = Queued.cid := by
    funext r
    rw [Function.comp_apply]
    split_ifs <;> rfl
  rw [hcid]
  exact hkey

theorem discovered_of_ready {m : ℤ} (h : ready cfg m now r = true) : r.discovered = true := by
  unfold ready at h
  simp only [Bool.and_eq_true] at h
  exact h.1.1.1.1.1

theorem ready_of_prefer (h : ready cfg cfg.prefer now r = true) : ready cfg cfg.minPeerCount now r = true := by
  unfold ready at h ⊢
  simp only [Bool.and_eq_true, decide_eq_true_eq] at h ⊢
  obtain ⟨⟨⟨⟨⟨hd, hpeers⟩, hfirst⟩, hlast⟩, hattempts⟩, hcodec⟩ := h
  exact ⟨⟨⟨⟨⟨hd, le_trans (le_max_left _ _) hpeers⟩, hfirst⟩, hlast⟩, hattempts⟩, hcodec⟩

theorem kinds_named (h : r.namedLane = true) (hr : isReport r = false) : r.pdfLane = true ∧ r.probe = false := by
  unfold Queued.namedLane Queued.keepSrc at h
  unfold isReport at hr
  rw [hr, Bool.false_or, Bool.or_eq_true] at h
  unfold Queued.pdfLane Queued.probe Queued.keepSrc
  obtain h | h := h
  · rw [h]
    simp
  · rw [h]
    simp

theorem kinds_probe (h : r.probe = true) : r.pdfLane = true ∧ r.namedLane = false ∧ isReport r = false := by
  unfold Queued.probe at h
  simp only [Bool.and_eq_true, Bool.not_eq_true'] at h
  obtain ⟨⟨hdag, hkeep⟩, hname⟩ := h
  refine ⟨?_, ?_, ?_⟩
  · unfold Queued.pdfLane
    rw [hdag, Bool.or_true]
  · unfold Queued.namedLane
    rw [hkeep, hname]
    rfl
  · unfold Queued.keepSrc at hkeep
    exact (Bool.or_eq_false_iff.mp hkeep).1

theorem kinds_html (h : r.htmlLane = true) (hr : isReport r = false) :
    r.pdfLane = false ∧ r.namedLane = false ∧ r.probe = false := by
  unfold Queued.htmlLane at h
  rw [Bool.not_eq_true'] at h
  have hparts := h
  unfold Queued.pdfLane at hparts
  rw [Bool.or_eq_false_iff, Bool.or_eq_false_iff] at hparts
  obtain ⟨⟨hname, hnamed⟩, hdag⟩ := hparts
  unfold isReport at hr
  refine ⟨h, ?_, ?_⟩
  · unfold Queued.namedLane Queued.keepSrc
    rw [hr, hnamed, hname]
    rfl
  · unfold Queued.probe
    rw [hdag]
    rfl

theorem kinds_report (h : isReport r = true) : r.probe = false := by
  unfold isReport at h
  unfold Queued.probe Queued.keepSrc
  rw [h]
  simp

theorem not_report (h : reportsWaiting cfg now t = 0) (hr : r ∈ t.cids) (hready : ready cfg cfg.minPeerCount now r = true) :
    isReport r = false := by
  by_contra hreport
  have hnone := List.countP_eq_zero.mp h r hr
  rw [hready, Bool.eq_true_of_not_eq_false hreport] at hnone
  exact hnone rfl

structure Outlook where
  reports : ℕ
  pdfs : ℕ
  htmls : ℕ
  pdfBusy : ℕ
  htmlBusy : ℕ

def outlook (cfg : Config) (now : ℚ) (t : Tables) : Outlook :=
  ⟨reportsWaiting cfg now t, pdfsWaiting cfg now t, htmlsWaiting cfg now t, busyIn cfg now t Queued.pdfLane,
    busyIn cfg now t Queued.htmlLane⟩

def Outlook.taken (o : Outlook) : Option Side → Outlook
  | none => { o with reports := o.reports - 1 }
  | some .left => { o with pdfs := o.pdfs - 1, pdfBusy := o.pdfBusy + 1 }
  | some .right => { o with htmls := o.htmls - 1, htmlBusy := o.htmlBusy + 1 }

theorem named_waiting_le :
    waiting cfg now t cfg.minPeerCount (fun r => r.namedLane && !isReport r) ≤
      waiting cfg now t cfg.minPeerCount Queued.namedLane := by
  apply List.countP_mono_left
  intro r _ h
  simp only [Bool.and_eq_true] at h ⊢
  exact ⟨h.1, h.2.1⟩

theorem pdfRow_some (h : pdfRow cfg now t = some r) :
    (r ∈ t.cids ∧ ready cfg cfg.minPeerCount now r = true ∧ r.namedLane = true) ∨
      (waiting cfg now t cfg.minPeerCount Queued.namedLane = 0 ∧ probesBusy t < cfg.dirProbes ∧
        r ∈ t.cids ∧ ready cfg cfg.minPeerCount now r = true ∧ r.probe = true) := by
  unfold pdfRow at h
  rw [Option.or_eq_some_iff] at h
  obtain h | ⟨hnone, h⟩ := h
  · exact Or.inl (pick_some h)
  · split_ifs at h with hfew
    exact Or.inr ⟨pick_none.mp hnone, hfew, pick_some h⟩

theorem counts_processed (hkey : Table.Keyed Queued.cid t.cids) (hr : r ∈ t.cids)
    (hready : ready cfg cfg.minPeerCount now r = true) :
    reportsWaiting cfg now (processed t r.cid) + (if isReport r then 1 else 0) = reportsWaiting cfg now t ∧
    waiting cfg now (processed t r.cid) cfg.minPeerCount (fun r => r.namedLane && !isReport r) +
        (if r.namedLane && !isReport r then 1 else 0) =
      waiting cfg now t cfg.minPeerCount (fun r => r.namedLane && !isReport r) ∧
    waiting cfg now (processed t r.cid) cfg.minPeerCount Queued.probe + (if r.probe then 1 else 0) =
      waiting cfg now t cfg.minPeerCount Queued.probe ∧
    probesBusy (processed t r.cid) = probesBusy t + (if r.probe then 1 else 0) ∧
    htmlsWaiting cfg now (processed t r.cid) + (if ready cfg cfg.prefer now r && (r.htmlLane && !isReport r) then 1 else 0) =
      htmlsWaiting cfg now t ∧
    busyIn cfg now (processed t r.cid) Queued.pdfLane + (if isReport r && r.pdfLane then 1 else 0) =
      busyIn cfg now t Queued.pdfLane + (if r.pdfLane then 1 else 0) ∧
    busyIn cfg now (processed t r.cid) Queued.htmlLane + (if isReport r && r.htmlLane then 1 else 0) =
      busyIn cfg now t Queued.htmlLane + (if r.htmlLane then 1 else 0) := by
  have hd := discovered_of_ready hready
  have hwait (kind : Queued → Bool) := @waiting_processed cfg now t r hkey hr cfg.minPeerCount kind
  simp only [hready, Bool.true_and] at hwait
  have hpdf := hwait fun r => isReport r && r.pdfLane
  have hhtml := hwait fun r => isReport r && r.htmlLane
  have hpdf' := processing_processed hkey hr hd Queued.pdfLane rfl
  have hhtml' := processing_processed hkey hr hd Queued.htmlLane rfl
  refine ⟨hwait isReport, hwait _, hwait Queued.probe, processing_processed hkey hr hd Queued.probe rfl,
    waiting_processed hkey hr cfg.prefer _, ?_, ?_⟩
  · unfold busyIn
    omega
  · unfold busyIn
    omega

theorem outlook_taken (hkey : Table.Keyed Queued.cid t.cids) {s : Option Side} (hs : s = none ∨ reportsWaiting cfg now t = 0)
    (h : rowOf cfg now t s = some r) : outlook cfg now (processed t r.cid) = (outlook cfg now t).taken s := by
  cases s with
  | none =>
    obtain ⟨hr, hready, hkind⟩ := pick_some h
    obtain ⟨h1, h2, h3, h4, h5, h6, h7⟩ := counts_processed hkey hr hready
    simp only [hkind, kinds_report hkind, Bool.not_true, Bool.and_false, Bool.true_and, Bool.false_eq_true, if_true, if_false,
      Nat.add_zero] at h1 h2 h3 h4 h5 h6 h7
    unfold outlook Outlook.taken pdfsWaiting
    simp only [Outlook.mk.injEq]
    omega
  | some side =>
    obtain hs | hs := hs
    · cases hs
    cases side with
    | left =>
      obtain ⟨hr, hready, hkind⟩ | ⟨hnone, hfew, hr, hready, hkind⟩ := pdfRow_some h
      · have hreport := not_report hs hr hready
        obtain ⟨hpdf, hprobe⟩ := kinds_named hkind hreport
        have hhtml : r.htmlLane = false := congrArg not hpdf
        obtain ⟨h1, h2, h3, h4, h5, h6, h7⟩ := counts_processed hkey hr hready
        simp only [hkind, hreport, hpdf, hprobe, hhtml, Bool.not_false, Bool.and_true, Bool.and_false,
          Bool.false_eq_true, if_true, if_false, Nat.add_zero] at h1 h2 h3 h4 h5 h6 h7
        unfold outlook Outlook.taken pdfsWaiting
        simp only [Outlook.mk.injEq]
        omega
      · obtain ⟨hpdf, hnamed, hreport⟩ := kinds_probe hkind
        have hhtml : r.htmlLane = false := congrArg not hpdf
        obtain ⟨h1, h2, h3, h4, h5, h6, h7⟩ := counts_processed hkey hr hready
        have hzero := @named_waiting_le cfg now t
        simp only [hkind, hreport, hpdf, hnamed, hhtml, Bool.not_false, Bool.and_true, Bool.and_false,
          Bool.false_eq_true, if_true, if_false, Nat.add_zero] at h1 h2 h3 h4 h5 h6 h7
        unfold outlook Outlook.taken pdfsWaiting
        simp only [Outlook.mk.injEq]
        omega
    | right =>
      obtain ⟨hr, hready', hkind⟩ := pick_some h
      have hready := ready_of_prefer hready'
      have hreport := not_report hs hr hready
      obtain ⟨hpdf, hnamed, hprobe⟩ := kinds_html hkind hreport
      obtain ⟨h1, h2, h3, h4, h5, h6, h7⟩ := counts_processed hkey hr hready
      simp only [hkind, hready', hreport, hpdf, hnamed, hprobe, Bool.not_false, Bool.and_true, Bool.and_false,
        Bool.false_eq_true, if_true, if_false, Nat.add_zero] at h1 h2 h3 h4 h5 h6 h7
      unfold outlook Outlook.taken pdfsWaiting
      simp only [Outlook.mk.injEq]
      omega

theorem reportRow_none : reportRow cfg now t = none ↔ (outlook cfg now t).reports = 0 := pick_none

theorem pdfRow_none (h : reportsWaiting cfg now t = 0) : pdfRow cfg now t = none ↔ (outlook cfg now t).pdfs = 0 := by
  have hsame : waiting cfg now t cfg.minPeerCount (fun r => r.namedLane && !isReport r) =
      waiting cfg now t cfg.minPeerCount Queued.namedLane := by
    apply List.countP_congr
    intro r hr
    simp only [Bool.and_eq_true, Bool.not_eq_true']
    exact ⟨fun hn => ⟨hn.1, hn.2.1⟩, fun hn => ⟨hn.1, hn.2, not_report h hr hn.1⟩⟩
  have hwait : (outlook cfg now t).pdfs = waiting cfg now t cfg.minPeerCount Queued.namedLane +
      min (waiting cfg now t cfg.minPeerCount Queued.probe) (cfg.dirProbes - probesBusy t) := by
    rw [← hsame]
    rfl
  rw [hwait]
  unfold pdfRow
  rw [Option.or_eq_none_iff, pick_none]
  split_ifs with hfew
  · rw [pick_none]
    omega
  · rw [eq_self, and_true]
    omega

theorem htmlRow_none (h : reportsWaiting cfg now t = 0) : htmlRow cfg now t = none ↔ (outlook cfg now t).htmls = 0 := by
  have hsame : (outlook cfg now t).htmls = waiting cfg now t cfg.prefer Queued.htmlLane := by
    apply List.countP_congr
    intro r hr
    simp only [Bool.and_eq_true, Bool.not_eq_true']
    exact ⟨fun hn => ⟨hn.1, hn.2.1⟩, fun hn => ⟨hn.1, hn.2, not_report h hr (ready_of_prefer hn.1)⟩⟩
  rw [hsame]
  exact pick_none

theorem busyIn_eq (h : reportsWaiting cfg now t = 0) (lane : Queued → Bool) :
    busyIn cfg now t lane = t.cids.countP fun r => r.processing && lane r := by
  have hnone : waiting cfg now t cfg.minPeerCount (fun r => isReport r && lane r) = 0 := by
    apply Nat.le_zero.mp
    refine le_of_le_of_eq (List.countP_mono_left fun r _ hr => ?_) h
    simp only [Bool.and_eq_true] at hr ⊢
    exact ⟨hr.1, hr.2.1⟩
  unfold busyIn
  rw [hnone, Nat.add_zero]

def Outlook.order (cfg : Config) (o : Outlook) (k n a b : ℕ) : List (Option Side) :=
  List.replicate (min n o.reports) none ++
    (rounds (1 + k) (n - o.reports) o.pdfs o.htmls (cfg.laneWorkers - (o.pdfBusy + a))
      (cfg.laneWorkers - (o.htmlBusy + b))).map some

theorem order_report {o : Outlook} (k n a b : ℕ) (h : o.reports ≠ 0) :
    o.order cfg k (n + 1) a b = none :: (o.taken none).order cfg k n a b := by
  unfold Outlook.order Outlook.taken
  dsimp only
  rw [show min (n + 1) o.reports = min n (o.reports - 1) + 1 by omega, List.replicate_succ,
    show n + 1 - o.reports = n - (o.reports - 1) by omega]
  rfl

theorem order_lanes {o : Outlook} (k n a b : ℕ) (h : o.reports = 0) :
    o.order cfg k n a b =
      (rounds (1 + k) n o.pdfs o.htmls (cfg.laneWorkers - (o.pdfBusy + a)) (cfg.laneWorkers - (o.htmlBusy + b))).map some := by
  unfold Outlook.order
  rw [h, Nat.min_zero, Nat.sub_zero]
  rfl

theorem order_left {o : Outlook} (k n a b : ℕ) (h : o.reports = 0) (hp : o.pdfs ≠ 0)
    (hturn : o.htmls = 0 ∨ turn (cfg.laneWorkers - (o.pdfBusy + a)) (cfg.laneWorkers - (o.htmlBusy + b)) = some .left) :
    o.order cfg k (n + 1) a b = some .left :: (o.taken (some .left)).order cfg k n (a + k) b := by
  rw [order_lanes k (n + 1) a b h, order_lanes k n (a + k) b (show (o.taken (some .left)).reports = 0 from h)]
  obtain ⟨l, hl⟩ : ∃ l, o.pdfs = l + 1 := ⟨o.pdfs - 1, by omega⟩
  have hslots : cfg.laneWorkers - (o.pdfBusy + 1 + (a + k)) = cfg.laneWorkers - (o.pdfBusy + a) - (1 + k) := by omega
  unfold Outlook.taken
  dsimp only
  rw [hl, hslots, Nat.add_sub_cancel]
  cases hr : o.htmls with
  | zero => rfl
  | succ r =>
    obtain hturn | hturn := hturn
    · omega
    · simp only [rounds, hturn]
      rfl

theorem order_right {o : Outlook} (k n a b : ℕ) (h : o.reports = 0) (hp : o.htmls ≠ 0)
    (hturn : o.pdfs = 0 ∨ turn (cfg.laneWorkers - (o.pdfBusy + a)) (cfg.laneWorkers - (o.htmlBusy + b)) = some .right) :
    o.order cfg k (n + 1) a b = some .right :: (o.taken (some .right)).order cfg k n a (b + k) := by
  rw [order_lanes k (n + 1) a b h, order_lanes k n a (b + k) (show (o.taken (some .right)).reports = 0 from h)]
  obtain ⟨r, hr⟩ : ∃ r, o.htmls = r + 1 := ⟨o.htmls - 1, by omega⟩
  have hslots : cfg.laneWorkers - (o.htmlBusy + 1 + (b + k)) = cfg.laneWorkers - (o.htmlBusy + b) - (1 + k) := by omega
  unfold Outlook.taken
  dsimp only
  rw [hr, hslots, Nat.add_sub_cancel]
  cases hl : o.pdfs with
  | zero => rfl
  | succ l =>
    obtain hturn | hturn := hturn
    · omega
    · simp only [rounds, hturn]
      rfl

theorem order_end {o : Outlook} (k n a b : ℕ) (h : o.reports = 0)
    (hturn : (o.pdfs = 0 ∧ o.htmls = 0) ∨ (o.pdfs ≠ 0 ∧ o.htmls ≠ 0 ∧
      turn (cfg.laneWorkers - (o.pdfBusy + a)) (cfg.laneWorkers - (o.htmlBusy + b)) = none)) :
    o.order cfg k (n + 1) a b = [] := by
  rw [order_lanes k (n + 1) a b h]
  obtain ⟨hl, hr⟩ | ⟨hl, hr, hturn⟩ := hturn
  · rw [hl, hr]
    rfl
  · obtain ⟨l, hl⟩ : ∃ l, o.pdfs = l + 1 := ⟨o.pdfs - 1, by omega⟩
    obtain ⟨r, hr⟩ : ∃ r, o.htmls = r + 1 := ⟨o.htmls - 1, by omega⟩
    rw [hl, hr]
    simp only [rounds, hturn]
    rfl

end Counting

section Following

variable {cfg : Config} {now : ℚ} {t : Tables}

def laneOfSide : Option Side → Option Lane
  | none => none
  | some .left => some .pdf
  | some .right => some .html

theorem nextRow_cases (a b k n : ℕ) :
    ((nextRow cfg now a b).run t = (none, t) ∧ (outlook cfg now t).order cfg k (n + 1) a b = []) ∨
      ∃ s r, (s = none ∨ reportsWaiting cfg now t = 0) ∧ rowOf cfg now t s = some r ∧
        (nextRow cfg now a b).run t = (some (r, laneOfSide s), t) ∧
        (outlook cfg now t).order cfg k (n + 1) a b =
          s :: ((outlook cfg now t).taken s).order cfg k n (a + k * pdfMore (laneOfSide s)) (b + k * htmlMore (laneOfSide s)) := by
  cases hreport : reportRow cfg now t with
  | some r =>
    right
    refine ⟨none, r, Or.inl rfl, hreport, nextRow_report hreport a b, order_report k n a b fun h => ?_⟩
    rw [reportRow_none.mpr h] at hreport
    cases hreport
  | none =>
    have hzero : (outlook cfg now t).reports = 0 := reportRow_none.mp hreport
    have hnext := nextRow_lanes hreport a b
    rw [← busyIn_eq hzero Queued.pdfLane, ← busyIn_eq hzero Queued.htmlLane] at hnext
    cases hpdf : pdfRow cfg now t with
    | none =>
      have hp : (outlook cfg now t).pdfs = 0 := (pdfRow_none hzero).mp hpdf
      cases hhtml : htmlRow cfg now t with
      | none =>
        have hh : (outlook cfg now t).htmls = 0 := (htmlRow_none hzero).mp hhtml
        rw [hpdf, hhtml] at hnext
        exact Or.inl ⟨hnext, order_end k n a b hzero (Or.inl ⟨hp, hh⟩)⟩
      | some html =>
        have hh : (outlook cfg now t).htmls ≠ 0 := fun h => by rw [(htmlRow_none hzero).mpr h] at hhtml; cases hhtml
        rw [hpdf, hhtml] at hnext
        refine Or.inr ⟨some .right, html, Or.inr hzero, hhtml, hnext, ?_⟩
        rw [order_right k n a b hzero hh (Or.inl hp)]
        simp only [laneOfSide, pdfMore, htmlMore, Nat.mul_zero, Nat.mul_one, Nat.add_zero]
    | some pdf =>
      have hp : (outlook cfg now t).pdfs ≠ 0 := fun h => by rw [(pdfRow_none hzero).mpr h] at hpdf; cases hpdf
      cases hhtml : htmlRow cfg now t with
      | none =>
        have hh : (outlook cfg now t).htmls = 0 := (htmlRow_none hzero).mp hhtml
        rw [hpdf, hhtml] at hnext
        refine Or.inr ⟨some .left, pdf, Or.inr hzero, hpdf, hnext, ?_⟩
        rw [order_left k n a b hzero hp (Or.inl hh)]
        simp only [laneOfSide, pdfMore, htmlMore, Nat.mul_zero, Nat.mul_one, Nat.add_zero]
      | some html =>
        have hh : (outlook cfg now t).htmls ≠ 0 := fun h => by rw [(htmlRow_none hzero).mpr h] at hhtml; cases hhtml
        rw [hpdf, hhtml, choose_turn] at hnext
        cases hturn : turn (cfg.laneWorkers - ((outlook cfg now t).pdfBusy + a))
          (cfg.laneWorkers - ((outlook cfg now t).htmlBusy + b)) with
        | none =>
          have hturn' := hturn
          unfold outlook at hturn'
          rw [hturn'] at hnext
          exact Or.inl ⟨hnext, order_end k n a b hzero (Or.inr ⟨hp, hh, hturn⟩)⟩
        | some side =>
          have hturn' := hturn
          unfold outlook at hturn'
          rw [hturn'] at hnext
          cases side with
          | left =>
            refine Or.inr ⟨some .left, pdf, Or.inr hzero, hpdf, hnext, ?_⟩
            rw [order_left k n a b hzero hp (Or.inr hturn)]
            simp only [laneOfSide, pdfMore, htmlMore, Nat.mul_zero, Nat.mul_one, Nat.add_zero]
          | right =>
            refine Or.inr ⟨some .right, html, Or.inr hzero, hhtml, hnext, ?_⟩
            rw [order_right k n a b hzero hh (Or.inr hturn)]
            simp only [laneOfSide, pdfMore, htmlMore, Nat.mul_zero, Nat.mul_one, Nat.add_zero]

theorem takeRoundsBy_follow (hkey : Table.Keyed Queued.cid t.cids) (k n a b : ℕ) :
    (takeRoundsBy cfg now k n a b).run t = follow cfg now ((outlook cfg now t).order cfg k n a b) t ∧
      Feasible cfg now ((outlook cfg now t).order cfg k n a b) t := by
  induction n generalizing t a b with
  | zero =>
    have hnil : (outlook cfg now t).order cfg k 0 a b = [] := by
      unfold Outlook.order
      rw [Nat.zero_min, Nat.zero_sub]
      rfl
    rw [hnil]
    exact ⟨rfl, trivial⟩
  | succ n ih =>
    obtain ⟨hnext, horder⟩ | ⟨s, r, hs, hrow, hnext, horder⟩ := @nextRow_cases cfg now t a b k n
    · rw [takeRoundsBy_none hnext, horder]
      exact ⟨rfl, trivial⟩
    · have htaken := outlook_taken hkey hs hrow
      obtain ⟨hrest, hfeasible⟩ := ih (keyed_processed hkey r.cid) (a + k * pdfMore (laneOfSide s))
        (b + k * htmlMore (laneOfSide s))
      rw [takeRoundsBy_some hnext, horder, ← htaken]
      refine ⟨?_, r, hrow, hfeasible⟩
      dsimp only
      rw [hrest, follow, hrow]

theorem rowOf_mem {s : Option Side} {r : Queued} (h : rowOf cfg now t s = some r) : r ∈ t.cids ∧ r.discovered = true := by
  cases s with
  | none =>
    obtain ⟨hr, hready, -⟩ := pick_some h
    exact ⟨hr, discovered_of_ready hready⟩
  | some side =>
    cases side with
    | left =>
      obtain ⟨hr, hready, -⟩ | ⟨-, -, hr, hready, -⟩ := pdfRow_some h
      · exact ⟨hr, discovered_of_ready hready⟩
      · exact ⟨hr, discovered_of_ready hready⟩
    | right =>
      obtain ⟨hr, hready, -⟩ := pick_some h
      exact ⟨hr, discovered_of_ready hready⟩

theorem side_of_row (hzero : reportsWaiting cfg now t = 0) {x y : Side} {r : Queued} (hx : rowOf cfg now t (some x) = some r)
    (hy : rowOf cfg now t (some y) = some r) : x = y := by
  have hleft (h : rowOf cfg now t (some .left) = some r) : r.pdfLane = true := by
    obtain ⟨hr, hready, hkind⟩ | ⟨-, -, -, -, hkind⟩ := pdfRow_some h
    · exact (kinds_named hkind (not_report hzero hr hready)).1
    · exact (kinds_probe hkind).1
  have hright (h : rowOf cfg now t (some .right) = some r) : r.pdfLane = false := by
    obtain ⟨hr, hready, hkind⟩ := pick_some h
    exact (kinds_html hkind (not_report hzero hr (ready_of_prefer hready))).1
  cases x <;> cases y
  · rfl
  · cases (hleft hx).symm.trans (hright hy)
  · cases (hleft hy).symm.trans (hright hx)
  · rfl

def Takes (t : Tables) (cids : List Text) (t' : Tables) : Prop :=
  cids.Nodup ∧ (∀ cid ∈ cids, ∃ r ∈ t.cids, r.cid = cid ∧ r.discovered = true) ∧
    t' = { t with cids := t.cids.map fun r => if r.cid ∈ cids then { r with status := .processing } else r }

theorem waiting_before {cid : Text} {r : Queued} (hr : r ∈ (processed t cid).cids) (hd : r.discovered = true) :
    r ∈ t.cids ∧ r.cid ≠ cid := by
  obtain ⟨q, hq, he⟩ := List.mem_map.mp hr
  split_ifs at he with hc
  · rw [← he] at hd
    cases hd
  · rw [← he]
    exact ⟨hq, hc⟩

theorem takes_follow (order : List (Option Side)) :
    Takes t ((follow cfg now order t).1.map Queued.cid) (follow cfg now order t).2 := by
  have hnone (t : Tables) : Takes t [] t := by
    refine ⟨List.nodup_nil, fun cid hc => absurd hc List.not_mem_nil, ?_⟩
    simp only [List.not_mem_nil, if_false, List.map_id']
  induction order generalizing t with
  | nil => exact hnone t
  | cons s order ih =>
    unfold follow
    cases h : rowOf cfg now t s with
    | none => exact hnone t
    | some r =>
      obtain ⟨hr, hd⟩ := rowOf_mem h
      obtain ⟨hnodup, hmem, htables⟩ := @ih (processed t r.cid)
      dsimp only
      generalize (follow cfg now order (processed t r.cid)).1 = rows at *
      generalize (follow cfg now order (processed t r.cid)).2 = t' at *
      refine ⟨?_, ?_, ?_⟩
      · rw [List.map_cons, List.nodup_cons]
        refine ⟨fun hin => ?_, hnodup⟩
        obtain ⟨q, hq, hqc, hqd⟩ := hmem _ hin
        exact (waiting_before hq hqd).2 hqc
      · intro cid hc
        obtain rfl | hc := List.mem_cons.mp hc
        · exact ⟨r, hr, rfl, hd⟩
        · obtain ⟨q, hq, hqc, hqd⟩ := hmem cid hc
          exact ⟨q, (waiting_before hq hqd).1, hqc, hqd⟩
      · rw [htables]
        unfold processed
        simp only [List.map_map, Tables.mk.injEq, and_self, and_true]
        apply List.map_congr_left
        intro q _
        rw [Function.comp_apply, List.map_cons]
        by_cases hq : q.cid = r.cid
        · rw [if_pos hq, if_pos (List.mem_cons.mpr (Or.inl hq))]
          split_ifs <;> rfl
        · rw [if_neg hq]
          simp only [List.mem_cons, hq, false_or]

theorem follow_inj (hkey : Table.Keyed Queued.cid t.cids) (hzero : reportsWaiting cfg now t = 0) {xs ys : List Side}
    (hx : Feasible cfg now (xs.map some) t) (hy : Feasible cfg now (ys.map some) t)
    (he : (follow cfg now (xs.map some) t).1.map asRow = (follow cfg now (ys.map some) t).1.map asRow) : xs = ys := by
  induction xs generalizing t ys with
  | nil =>
    cases ys with
    | nil => rfl
    | cons y ys =>
      obtain ⟨r, hr, -⟩ := hy
      rw [List.map_cons, follow, hr] at he
      cases he
  | cons x xs ih =>
    obtain ⟨r, hr, hx⟩ := hx
    cases ys with
    | nil =>
      rw [List.map_cons, follow, hr] at he
      cases he
    | cons y ys =>
      obtain ⟨r', hr', hy⟩ := hy
      rw [List.map_cons, List.map_cons, follow, follow, hr, hr'] at he
      simp only [List.map_cons, List.cons.injEq] at he
      obtain ⟨hrow, hrest⟩ := he
      have hsame : r = r' := hkey.eq_of_key (rowOf_mem hr).1 (rowOf_mem hr').1 (congrArg Row.cid hrow)
      subst hsame
      obtain rfl := side_of_row hzero hr hr'
      have hzero' : reportsWaiting cfg now (processed t r.cid) = 0 := by
        have htaken := congrArg Outlook.reports (outlook_taken hkey (Or.inr hzero) hr)
        cases x <;> exact htaken.trans hzero
      rw [ih (keyed_processed hkey r.cid) hzero' hx hy hrest]

theorem follow_reports (hkey : Table.Keyed Queued.cid t.cids) (m : ℕ) {xs ys : List (Option Side)}
    (hx : Feasible cfg now (List.replicate m none ++ xs) t) (hy : Feasible cfg now (List.replicate m none ++ ys) t)
    (he : (follow cfg now (List.replicate m none ++ xs) t).1.map asRow =
      (follow cfg now (List.replicate m none ++ ys) t).1.map asRow) :
    ∃ t', Table.Keyed Queued.cid t'.cids ∧ reportsWaiting cfg now t' = reportsWaiting cfg now t - m ∧ Feasible cfg now xs t' ∧
      Feasible cfg now ys t' ∧ (follow cfg now xs t').1.map asRow = (follow cfg now ys t').1.map asRow := by
  induction m generalizing t with
  | zero => exact ⟨t, hkey, rfl, hx, hy, he⟩
  | succ m ih =>
    rw [List.replicate_succ, List.cons_append] at hx hy he
    rw [List.cons_append] at he
    obtain ⟨r, hr, hx⟩ := hx
    obtain ⟨r', hr', hy⟩ := hy
    cases hr.symm.trans hr'
    rw [follow, follow, hr] at he
    simp only [List.map_cons, List.cons.injEq, true_and] at he
    obtain ⟨t', hkey', hcount, hrest⟩ := ih (keyed_processed hkey r.cid) hx hy he
    refine ⟨t', hkey', ?_, hrest⟩
    have htaken : reportsWaiting cfg now (processed t r.cid) = reportsWaiting cfg now t - 1 :=
      congrArg Outlook.reports (outlook_taken hkey (Or.inl rfl) hr)
    rw [hcount, htaken]
    omega

end Following

/-- A batch is a sequence of batches of one: the same rows in the same order and the same table, where the rows are
distinct and just they go from waiting to being worked on. -/
def IsSequence (cfg : Config) (now : ℚ) (n : ℕ) (t : Tables) : Prop :=
  (takeBatch cfg now n).run t = (takeSingly cfg now n).run t ∧
    Takes t (((takeBatch cfg now n).run t).1.map Row.cid) ((takeBatch cfg now n).run t).2

theorem batch_iff (cfg : Config) (now : ℚ) (n : ℕ) (t : Tables) (hkey : Table.Keyed Queued.cid t.cids) :
    IsSequence cfg now n t ↔ ∀ x ∈ parting (freePdf cfg now t) (freeHtml cfg now t),
      ¬(x.1 + x.2 < n - reportsWaiting cfg now t ∧ x.1 < pdfsWaiting cfg now t ∧ x.2 < htmlsWaiting cfg now t) := by
  obtain ⟨hbatch, hfeasible⟩ := @takeRoundsBy_follow cfg now t hkey 1 n 0 0
  obtain ⟨hsingly, hfeasible'⟩ := @takeRoundsBy_follow cfg now t hkey 0 n 0 0
  have htakes : Takes t (((takeBatch cfg now n).run t).1.map Row.cid) ((takeBatch cfg now n).run t).2 := by
    rw [takeBatch_run, takeRounds_by, hbatch, List.map_map]
    exact takes_follow _
  unfold IsSequence
  rw [and_iff_left htakes, takeBatch_run, takeRounds_by, takeSingly_by, hbatch, hsingly, ← rounds_iff]
  constructor
  · intro he
    by_cases hn : n ≤ reportsWaiting cfg now t
    · rw [Nat.sub_eq_zero_of_le hn]
      rfl
    · obtain ⟨t', hkey', hcount, hx, hy, hrest⟩ := follow_reports hkey _ hfeasible hfeasible' (congrArg Prod.fst he)
      have hall : min n (outlook cfg now t).reports = reportsWaiting cfg now t := Nat.min_eq_right (le_of_not_ge hn)
      rw [hall, Nat.sub_self] at hcount
      exact follow_inj hkey' hcount hx hy hrest
  · intro he
    have horder : (outlook cfg now t).order cfg 1 n 0 0 = (outlook cfg now t).order cfg 0 n 0 0 := by
      unfold Outlook.order
      exact congrArg _ (congrArg _ he)
    rw [horder]

section Samples

def waitingRow (cid codec : Text) : Queued :=
  { cid := cid, codec := codec, firstSeen := 900, lastSeen := 990, peerCount := 2, wantCount := 2 }

def fourWaiting : Tables :=
  { empty with cids := [waitingRow (txt "bafy-pb-1") (txt "dag-pb"), waitingRow (txt "bafy-pb-2") (txt "dag-pb"),
      waitingRow (txt "bafy-raw-1") (txt "raw"), waitingRow (txt "bafy-raw-2") (txt "raw")] }

theorem batch_stops : ¬IsSequence { concurrency := 4 } 1000 3 fourWaiting := by
  rintro ⟨he, -⟩
  have hlen := congrArg (fun x => x.1.length) he
  revert hlen
  decide +kernel

theorem batch_sequence : IsSequence { concurrency := 4 } 1000 2 fourWaiting :=
  (batch_iff { concurrency := 4 } 1000 2 fourWaiting (by rw [Table.Keyed]; decide +kernel)).mpr (by decide +kernel)

end Samples

end ObserverClub.Work
