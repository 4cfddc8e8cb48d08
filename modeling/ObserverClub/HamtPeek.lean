import ObserverClub.Library.Rounding
import ObserverClub.Work

/-!
`fetch.py`: the names of PDFs found in the shards of a large directory.
-/

namespace ObserverClub.Fetch

open Library Library.Binary64 Python UnixFs

/-- `items[int(i * step)]`; nothing where it raises. -/
def spreadAt (items : List Text) (n i : ℕ) : Option Text :=
  match ofInt items.length, ofInt n, ofInt i with
  | .fin length, .fin n, .fin i =>
    match round false (length / n) with
    | .fin step =>
      match round false (i * step) with
      | .fin x => items[x.floor.toNat]?
      | _ => none
    | _ => none
  | _, _, _ => none

/-- `_spread`: some of the items, evenly picked. -/
def spread (items : List Text) (n : ℕ) : Option (List Text) :=
  if n = 0 ∨ items = [] then some []
  else if items.length ≤ n then some items
  else ((List.range n).mapM (spreadAt items n)).map List.eraseDups

/-- The locals of `peek_hamt_pdfs`; `blocks` is the number of CIDs asked for. -/
structure Peek where
  found : List (Text × Text)
  seenPdf : List Text
  level : List Text
  requested : List Text

/-- What `peek_hamt_pdfs` returns, nothing where it raises, and the CIDs it asked for in turn. -/
structure Peeked where
  outcome : Option (List (Text × Text))
  requested : List Text

/-- The links that a level gets; the set beside it holds what it holds. -/
def fresh (seenPdf : List Text) (level : List Text) (links : List Link) : List Text :=
  links.foldl (fun level l => if l.cid ≠ [] ∧ l.cid ∉ seenPdf ∧ l.cid ∉ level then level ++ [l.cid] else level) level

section Peeking

variable (cfg : Settings) (host : Host) (net : Network) (maxBlocks maxPdfs gatewayOffset : ℕ)

def takeShard (node : Node) (s : Peek) : Peek :=
  let more := Work.docChildLinks host.chars (maxPdfs - s.found.length) node.links
  let seenPdf := s.seenPdf ++ more.map Prod.snd
  { s with
    found := s.found ++ more
    seenPdf
    level := if node.isDirectory then fresh seenPdf s.level node.links else s.level }

/-- The loop over a wave; `level` is the next one. -/
def walkWave : List Text → Peek → Peek
  | [], s => s
  | cid :: wave, s =>
    if maxBlocks ≤ s.requested.length ∨ maxPdfs ≤ s.found.length then s
    else
      let block := getBlock cfg host (net s.requested.length) cid gatewayOffset
      let s := { s with requested := s.requested ++ [cid] }
      match (block.filter (· ≠ [])).bind parseDagPb with
      | none => walkWave wave s
      | some node => walkWave wave (takeShard host maxPdfs node s)

def perLevel : ℕ := max 8 ((maxBlocks + 2) / 3)

def peekLevel (s : Peek) : Peek ⊕ Peeked :=
  if s.level = [] ∨ maxBlocks ≤ s.requested.length ∨ maxPdfs ≤ s.found.length then .inr ⟨some s.found, s.requested⟩
  else
    match spread s.level (min (maxBlocks - s.requested.length) (min (perLevel maxBlocks) s.level.length)) with
    | none => .inr ⟨none, s.requested⟩
    | some wave => .inl (walkWave cfg host net maxBlocks maxPdfs gatewayOffset wave { s with level := [] })

def peekHamtPdfs (fuel : ℕ) (links : List Link) : Option Peeked :=
  let found := Work.docChildLinks host.chars maxPdfs links
  let seenPdf := found.map Prod.snd
  if maxPdfs ≤ found.length ∨ maxBlocks = 0 then some ⟨some found, []⟩
  else Loop.iterate (peekLevel cfg host net maxBlocks maxPdfs gatewayOffset) fuel
    { found, seenPdf, level := fresh seenPdf [] links, requested := [] }

end Peeking

section Spread

theorem place_lt {n i length fn fi flen step x : ℚ} (hn : 1 ≤ n) (hsmall : n ≤ 2 ^ 50) (hi : i + 1 ≤ n) (hpos : 0 < length)
    (hlen : flen ≤ length + length / 2 ^ 53) (hfn : n - n / 2 ^ 53 ≤ fn) (hfi : fi ≤ i + i / 2 ^ 53)
    (hfi0 : 0 ≤ fi) (hstep : step ≤ flen / fn + flen / fn / 2 ^ 53) (hx : x ≤ fi * step + fi * step / 2 ^ 53) : x < length := by
  have hfnpos : 0 < fn := by
    have hbig : 0 < n - n / 2 ^ 53 := by norm_num; linarith
    linarith
  -- the ratio, with all its roundings, is below one
  have hratio : fi * (1 + 1 / 2 ^ 53) ^ 3 < fn := by
    have hn1 : fi ≤ (n - 1) * (1 + 1 / 2 ^ 53) := by norm_num at hfi ⊢; linarith
    calc fi * (1 + 1 / 2 ^ 53) ^ 3 ≤ (n - 1) * (1 + 1 / 2 ^ 53) * (1 + 1 / 2 ^ 53) ^ 3 := by gcongr
      _ = (n - 1) * (1 + 1 / 2 ^ 53) ^ 4 := by ring
      _ ≤ (n - 1) * (1 + 5 / 2 ^ 53) := by
        gcongr
        norm_num
      _ < n - n / 2 ^ 53 := by norm_num at hsmall ⊢; linarith
      _ ≤ fn := hfn
  have hs : step ≤ length * (1 + 1 / 2 ^ 53) ^ 2 / fn := by
    calc step ≤ flen / fn + flen / fn / 2 ^ 53 := hstep
      _ = flen / fn * (1 + 1 / 2 ^ 53) := by ring
      _ ≤ (length + length / 2 ^ 53) / fn * (1 + 1 / 2 ^ 53) := by gcongr
      _ = length * (1 + 1 / 2 ^ 53) ^ 2 / fn := by ring
  calc x ≤ fi * step + fi * step / 2 ^ 53 := hx
    _ = fi * step * (1 + 1 / 2 ^ 53) := by ring
    _ ≤ fi * (length * (1 + 1 / 2 ^ 53) ^ 2 / fn) * (1 + 1 / 2 ^ 53) := by gcongr
    _ = length * (fi * (1 + 1 / 2 ^ 53) ^ 3 / fn) := by ring
    _ < length * 1 := by
      apply mul_lt_mul_of_pos_left _ hpos
      rwa [div_lt_one hfnpos]
    _ = length := mul_one length

theorem pow_le_power {k : ℕ} (h : k ≤ 1023) : (2 : ℚ) ^ k ≤ power 2 1023 := by
  rw [← zpow_natCast, ← power_eq]
  exact power_mono (by omega)

theorem ofInt_within {k n : ℕ} (hpos : 0 < n) (h : n ≤ 2 ^ k) (hk : k ≤ 1023) :
    ∃ r, ofInt n = fin r ∧ (n : ℚ) - n / 2 ^ 53 ≤ r ∧ r ≤ n + n / 2 ^ 53 := by
  have hq : (n : ℚ) ≤ 2 ^ k := by exact_mod_cast h
  obtain ⟨r, hr, hnear⟩ := ofInt_near hpos (le_trans hq (pow_le_power hk))
  rw [abs_le] at hnear
  exact ⟨r, hr, by linarith, by linarith⟩

theorem round_within {k : ℕ} {a : ℚ} (hlow : 1 / 2 ≤ a) (h : a ≤ 2 ^ k) (hk : k ≤ 1023) :
    ∃ r, round false a = fin r ∧ a - a / 2 ^ 53 ≤ r ∧ r ≤ a + a / 2 ^ 53 := by
  obtain ⟨r, hr, hnear⟩ := round_near hlow (le_trans h (pow_le_power hk))
  rw [abs_le] at hnear
  exact ⟨r, hr, by linarith, by linarith⟩

theorem spreadAt_isSome {items : List Text} {n i : ℕ} (hn : n < 2 ^ 50) (hmore : n < items.length)
    (hlong : items.length ≤ 2 ^ 120) (hi : i < n) : (spreadAt items n i).isSome = true := by
  obtain ⟨flen, hflen, hlenlow, hlen⟩ := @ofInt_within 120 items.length (by omega) hlong (by decide)
  obtain ⟨fn, hfn, hfnlow, hfnhigh⟩ := @ofInt_within 50 n (by omega) hn.le (by decide)
  have hn1 : (1 : ℚ) ≤ n := by exact_mod_cast (by omega : 1 ≤ n)
  have hnsmall : (n : ℚ) ≤ 1125899906842624 := by exact_mod_cast hn.le
  have hgap : (n : ℚ) + 1 ≤ items.length := by exact_mod_cast hmore
  have hlongq : (items.length : ℚ) ≤ 1329227995784915872903807060280344576 := by exact_mod_cast hlong
  have hfnhalf : 1 / 2 ≤ fn := by
    norm_num at hfnlow
    linarith
  have hfnpos : 0 < fn := by linarith
  have hquotient : 1 ≤ flen / fn := by
    rw [le_div_iff₀ hfnpos]
    norm_num at hfnhigh hlenlow
    linarith
  have hwide : flen / fn ≤ 2 ^ 122 := by
    rw [div_le_iff₀ hfnpos]
    norm_num at hlen ⊢
    linarith
  obtain ⟨step, hstep, hsteplow, hstephigh⟩ := round_within (le_trans (by norm_num) hquotient) hwide (by decide)
  have hstepmost : 3 / 4 ≤ step := by
    norm_num at hsteplow
    linarith
  have hstepwide : step ≤ 2 ^ 123 := by
    norm_num at hstephigh hwide ⊢
    linarith
  rw [spreadAt, hflen, hfn]
  obtain rfl | hipos := Nat.eq_zero_or_pos i
  · have hzero : ofInt ((0 : ℕ) : ℤ) = fin 0 := by decide +kernel
    have hround : round false (0 * step) = fin 0 := by
      rw [zero_mul]
      decide +kernel
    simp only [hzero, hstep, hround]
    rw [Option.isSome_iff_exists]
    refine ⟨items[0], List.getElem?_eq_getElem _⟩
  · obtain ⟨fi, hfi, hfilow, hfihigh⟩ := @ofInt_within 50 i hipos (by omega) (by decide)
    have hi1 : (1 : ℚ) ≤ i := by exact_mod_cast hipos
    have hin : (i : ℚ) + 1 ≤ n := by exact_mod_cast hi
    have hfimost : 3 / 4 ≤ fi := by
      norm_num at hfilow
      linarith
    have hfiwide : fi ≤ 2 ^ 51 := by
      norm_num at hfihigh ⊢
      linarith
    have hlow : 1 / 2 ≤ fi * step := by
      calc (1 : ℚ) / 2 ≤ 3 / 4 * (3 / 4) := by norm_num
        _ ≤ fi * step := by gcongr
    have hhigh : fi * step ≤ 2 ^ 174 := by
      calc fi * step ≤ 2 ^ 51 * 2 ^ 123 := by gcongr
        _ = 2 ^ 174 := by norm_num
    obtain ⟨x, hx, hxlow, hxhigh⟩ := round_within hlow hhigh (by decide)
    have hplace : x < items.length := by
      apply place_lt hn1 (le_trans hnsmall (by norm_num)) hin (by linarith) hlen hfnlow hfihigh (by linarith) hstephigh hxhigh
    have hxpos : 0 ≤ x := by
      norm_num at hxlow
      linarith
    have hfloor : x.floor.toNat < items.length := by
      have hlt : x.floor < (items.length : ℤ) := Int.floor_lt.mpr (by exact_mod_cast hplace)
      omega
    simp only [hfi, hstep, hx]
    rw [Option.isSome_iff_exists]
    exact ⟨items[x.floor.toNat], List.getElem?_eq_getElem hfloor⟩

theorem spreadAt_misses {items : List Text} (h : items.length = 2 ^ 54 + 2 ^ 53) : spreadAt items (2 ^ 54) (2 ^ 54 - 1) = none := by
  have hlength : ofInt ((2 ^ 54 + 2 ^ 53 : ℕ) : ℤ) = fin (2 ^ 54 + 2 ^ 53) := by decide +kernel
  have hpicks : ofInt ((2 ^ 54 : ℕ) : ℤ) = fin (2 ^ 54) := by decide +kernel
  have hlast : ofInt ((2 ^ 54 - 1 : ℕ) : ℤ) = fin (2 ^ 54) := by decide +kernel
  have hstep : round false ((2 ^ 54 + 2 ^ 53) / 2 ^ 54) = fin (3 / 2) := by decide +kernel
  have hplace : round false (2 ^ 54 * (3 / 2)) = fin (2 ^ 54 + 2 ^ 53) := by decide +kernel
  have hfloor : (2 ^ 54 + 2 ^ 53 : ℚ).floor.toNat = 2 ^ 54 + 2 ^ 53 := by decide +kernel
  rw [spreadAt, h, hlength, hpicks, hlast]
  simp only [hstep, hplace, hfloor]
  exact List.getElem?_eq_none h.le

theorem spread_isSome {items : List Text} {n : ℕ} (hn : n < 2 ^ 50) (hlong : items.length ≤ 2 ^ 120) :
    (spread items n).isSome = true := by
  rw [spread]
  split_ifs with hnone hall
  · rfl
  · rfl
  · have hpicks : ∀ is : List ℕ, (∀ i ∈ is, i < n) → (is.mapM (spreadAt items n)).isSome = true := by
      intro is his
      induction is with
      | nil => rfl
      | cons i is ih =>
        obtain ⟨hi, his⟩ := List.forall_mem_cons.mp his
        obtain ⟨item, hitem⟩ := Option.isSome_iff_exists.mp (spreadAt_isSome hn (by omega) hlong hi)
        obtain ⟨picked, hpicked⟩ := Option.isSome_iff_exists.mp (ih his)
        rw [List.mapM_cons, hitem, hpicked]
        rfl
    rw [Option.isSome_map]
    exact hpicks _ fun i hi => List.mem_range.mp hi

theorem spread_ne_nil {items wave : List Text} {n : ℕ} (hn : n ≠ 0) (hitems : items ≠ []) (h : spread items n = some wave) :
    wave ≠ [] := by
  rw [spread, if_neg (not_or.mpr ⟨hn, hitems⟩)] at h
  split_ifs at h with hall
  · rwa [← Option.some.inj h]
  · rw [Option.map_eq_some_iff] at h
    obtain ⟨picked, hpicked, rfl⟩ := h
    obtain ⟨n, rfl⟩ := Nat.exists_eq_succ_of_ne_zero hn
    rw [List.range_succ_eq_map, List.mapM_cons] at hpicked
    simp only [Option.bind_eq_bind, Option.bind_eq_some_iff, Option.pure_def] at hpicked
    obtain ⟨item, -, rest, -, hpicked⟩ := hpicked
    obtain rfl := Option.some.inj hpicked
    rw [List.eraseDups_cons]
    exact List.cons_ne_nil _ _

end Spread

/-- A link's name and CID, if the last part of the name ends in `.pdf`. -/
structure PdfOf (chars : Unicode) (l : Link) (f : Text × Text) : Prop where
  name : f.1 = trim isSpace (Extract.baseName (l.name.getD []))
  pdf : (txt ".pdf").isSuffixOf (chars.lower f.1) = true
  cid : f.2 = l.cid

theorem mem_docChildLinks {chars : Unicode} {k : ℕ} {links : List Link} {f : Text × Text}
    (h : f ∈ Work.docChildLinks chars k links) : ∃ l ∈ links, PdfOf chars l f := by
  have hmem := List.mem_of_mem_take h
  rw [List.mem_filterMap] at hmem
  obtain ⟨l, hl, hf⟩ := hmem
  refine ⟨l, hl, ?_⟩
  simp only at hf
  split_ifs at hf with hskip hpdf
  obtain rfl := Option.some.inj hf
  exact ⟨rfl, hpdf, rfl⟩

theorem docChildLinks_length (chars : Unicode) (k : ℕ) (links : List Link) : (Work.docChildLinks chars k links).length ≤ k :=
  List.length_take_le _ _

theorem fresh_length (seenPdf level : List Text) (links : List Link) :
    (fresh seenPdf level links).length ≤ level.length + links.length := by
  rw [fresh]
  induction links generalizing level with
  | nil => exact Nat.le_add_right _ _
  | cons l links ih =>
    rw [List.foldl_cons, List.length_cons]
    split_ifs
    · have hrest := ih (level ++ [l.cid])
      rw [List.length_append, List.length_singleton] at hrest
      omega
    · have hrest := ih level
      omega

section Peeking

variable (cfg : Settings) (host : Host) (net : Network) (maxBlocks maxPdfs gatewayOffset : ℕ) (links : List Link)

def Offered (requested : List Text) (l : Link) : Prop :=
  l ∈ links ∨ ∃ i cid block node, requested[i]? = some cid ∧ getBlock cfg host (net i) cid gatewayOffset = some block ∧
    parseDagPb block = some node ∧ l ∈ node.links

structure InBudget (s : Peek) : Prop where
  blocks : s.requested.length ≤ maxBlocks
  found : s.found.length ≤ maxPdfs
  source : ∀ f ∈ s.found, ∃ l, Offered cfg host net gatewayOffset links s.requested l ∧ PdfOf host.chars l f

variable {cfg host net maxBlocks maxPdfs gatewayOffset links}

theorem Offered.more {requested : List Text} {l : Link} (h : Offered cfg host net gatewayOffset links requested l) (cid : Text) :
    Offered cfg host net gatewayOffset links (requested ++ [cid]) l := by
  obtain h | ⟨i, c, block, node, hi, hblock⟩ := h
  · exact .inl h
  · refine .inr ⟨i, c, block, node, ?_, hblock⟩
    have hlt : i < requested.length := (List.getElem?_eq_some_iff.mp hi).1
    rw [List.getElem?_append_left hlt, hi]

theorem InBudget.ask {s : Peek} (h : InBudget cfg host net maxBlocks maxPdfs gatewayOffset links s)
    (hroom : s.requested.length < maxBlocks) (cid : Text) :
    InBudget cfg host net maxBlocks maxPdfs gatewayOffset links { s with requested := s.requested ++ [cid] } where
  blocks := by
    rw [List.length_append, List.length_singleton]
    exact hroom
  found := h.found
  source := by
    intro f hf
    obtain ⟨l, hl, hpdf⟩ := h.source f hf
    exact ⟨l, hl.more cid, hpdf⟩

theorem InBudget.takeShard {s : Peek} (h : InBudget cfg host net maxBlocks maxPdfs gatewayOffset links s) {node : Node}
    (hnode : ∀ l ∈ node.links, Offered cfg host net gatewayOffset links s.requested l) :
    InBudget cfg host net maxBlocks maxPdfs gatewayOffset links (takeShard host maxPdfs node s) where
  blocks := h.blocks
  found := by
    have hfew := docChildLinks_length host.chars (maxPdfs - s.found.length) node.links
    have hfound := h.found
    rw [Fetch.takeShard, List.length_append]
    omega
  source := by
    intro f hf
    obtain hf | hf := List.mem_append.mp hf
    · exact h.source f hf
    · obtain ⟨l, hl, hpdf⟩ := mem_docChildLinks hf
      exact ⟨l, hnode l hl, hpdf⟩

theorem InBudget.walkWave {s : Peek} (h : InBudget cfg host net maxBlocks maxPdfs gatewayOffset links s) (wave : List Text) :
    InBudget cfg host net maxBlocks maxPdfs gatewayOffset links (walkWave cfg host net maxBlocks maxPdfs gatewayOffset wave s) := by
  induction wave generalizing s with
  | nil => exact h
  | cons cid wave ih =>
    rw [Fetch.walkWave]
    split_ifs with hfull
    · exact h
    · have hasked := h.ask (by omega) cid
      simp only
      split
      · exact ih hasked
      next node hnode =>
        apply ih
        apply hasked.takeShard
        intro l hl
        rw [Option.bind_eq_some_iff] at hnode
        obtain ⟨block, hblock, hparse⟩ := hnode
        have hgot := (Option.filter_eq_some_iff.mp hblock).1
        refine .inr ⟨s.requested.length, cid, block, node, ?_, hgot, hparse, hl⟩
        exact List.getElem?_concat_length

theorem walkWave_requested (s : Peek) (wave : List Text) :
    s.requested.length ≤ (walkWave cfg host net maxBlocks maxPdfs gatewayOffset wave s).requested.length := by
  induction wave generalizing s with
  | nil => exact le_refl _
  | cons cid wave ih =>
    rw [walkWave]
    split_ifs
    · exact le_refl _
    · have hone : s.requested.length ≤ (s.requested ++ [cid]).length := by
        rw [List.length_append]
        omega
      simp only
      split
      · exact le_trans hone (ih { s with requested := s.requested ++ [cid] })
      next node hnode =>
        exact le_trans hone (ih (takeShard host maxPdfs node { s with requested := s.requested ++ [cid] }))

theorem walkWave_asks {s : Peek} {wave : List Text} (hwave : wave ≠ [])
    (hroom : ¬(maxBlocks ≤ s.requested.length ∨ maxPdfs ≤ s.found.length)) :
    s.requested.length < (walkWave cfg host net maxBlocks maxPdfs gatewayOffset wave s).requested.length := by
  obtain ⟨cid, wave, rfl⟩ := List.exists_cons_of_ne_nil hwave
  have hone : s.requested.length < (s.requested ++ [cid]).length := by
    rw [List.length_append, List.length_singleton]
    omega
  rw [walkWave, if_neg hroom]
  simp only
  split
  · exact lt_of_lt_of_le hone (walkWave_requested { s with requested := s.requested ++ [cid] } wave)
  next node hnode =>
    exact lt_of_lt_of_le hone
      (walkWave_requested (takeShard host maxPdfs node { s with requested := s.requested ++ [cid] }) wave)

theorem walkWave_level {most : ℕ} (hmost : ∀ n cid block node, getBlock cfg host (net n) cid gatewayOffset = some block →
      parseDagPb block = some node → node.links.length ≤ most) {s : Peek} (wave : List Text)
    (h : s.level.length ≤ s.requested.length * most) :
    (walkWave cfg host net maxBlocks maxPdfs gatewayOffset wave s).level.length ≤
      (walkWave cfg host net maxBlocks maxPdfs gatewayOffset wave s).requested.length * most := by
  induction wave generalizing s with
  | nil => exact h
  | cons cid wave ih =>
    rw [walkWave]
    split_ifs
    · exact h
    · have hone : (s.requested ++ [cid]).length * most = s.requested.length * most + most := by
        rw [List.length_append, List.length_singleton, Nat.add_mul, Nat.one_mul]
      simp only
      split
      · apply ih
        rw [hone]
        exact Nat.le_add_right_of_le h
      next node hnode =>
        apply ih
        rw [Option.bind_eq_some_iff] at hnode
        obtain ⟨block, hblock, hparse⟩ := hnode
        have hlinks := hmost _ cid block node (Option.filter_eq_some_iff.mp hblock).1 hparse
        rw [takeShard]
        simp only [hone]
        split_ifs
        · have hfresh := fresh_length (s.seenPdf ++ (Work.docChildLinks host.chars (maxPdfs - s.found.length)
            node.links).map Prod.snd)
            s.level node.links
          omega
        · exact Nat.le_add_right_of_le h

theorem peekLevel_inl {s s' : Peek} (h : peekLevel cfg host net maxBlocks maxPdfs gatewayOffset s = .inl s') :
    ∃ wave, wave ≠ [] ∧ ¬(maxBlocks ≤ s.requested.length ∨ maxPdfs ≤ s.found.length) ∧
      s' = walkWave cfg host net maxBlocks maxPdfs gatewayOffset wave { s with level := [] } := by
  rw [peekLevel] at h
  split_ifs at h with hend
  obtain ⟨hlevel, hroom⟩ := not_or.mp hend
  cases hwave : spread s.level (min (maxBlocks - s.requested.length) (min (perLevel maxBlocks) s.level.length)) with
  | none =>
    rw [hwave] at h
    cases h
  | some wave =>
    rw [hwave] at h
    obtain rfl := Sum.inl.inj h
    refine ⟨wave, spread_ne_nil ?_ hlevel hwave, hroom, rfl⟩
    have hlen := List.length_pos_iff.mpr hlevel
    have hper : 8 ≤ perLevel maxBlocks := le_max_left _ _
    obtain ⟨hblocks, -⟩ := not_or.mp hroom
    omega

theorem peekLevel_inr {s : Peek} {run : Peeked} (h : peekLevel cfg host net maxBlocks maxPdfs gatewayOffset s = .inr run) :
    run.requested = s.requested ∧
      (run.outcome = some s.found ∨ run.outcome = none ∧
        spread s.level (min (maxBlocks - s.requested.length) (min (perLevel maxBlocks) s.level.length)) = none) := by
  rw [peekLevel] at h
  split_ifs at h with hend
  · obtain rfl := Sum.inr.inj h
    exact ⟨rfl, .inl rfl⟩
  · cases hwave : spread s.level (min (maxBlocks - s.requested.length) (min (perLevel maxBlocks) s.level.length)) with
    | none =>
      rw [hwave] at h
      obtain rfl := Sum.inr.inj h
      exact ⟨rfl, .inr ⟨rfl, rfl⟩⟩
    | some wave =>
      rw [hwave] at h
      cases h

/-- What holds of the whole call. It does not raise, unless a list is too long for the floats of `_spread`. -/
structure PeekedWithin (cfg : Settings) (host : Host) (net : Network) (maxBlocks maxPdfs gatewayOffset : ℕ) (links : List Link)
    (run : Peeked) : Prop where
  blocks : run.requested.length ≤ maxBlocks
  found : ∀ found, run.outcome = some found → found.length ≤ maxPdfs
  source : ∀ found, run.outcome = some found → ∀ f ∈ found,
    ∃ l, Offered cfg host net gatewayOffset links run.requested l ∧ PdfOf host.chars l f
  returns : maxBlocks < 2 ^ 50 → links.length ≤ 2 ^ 60 →
    (∀ n cid block node, getBlock cfg host (net n) cid gatewayOffset = some block → parseDagPb block = some node →
      node.links.length ≤ 2 ^ 60) → ∃ found, run.outcome = some found

theorem InBudget.step {s s' : Peek} (h : InBudget cfg host net maxBlocks maxPdfs gatewayOffset links s)
    (hstep : peekLevel cfg host net maxBlocks maxPdfs gatewayOffset s = .inl s') :
    InBudget cfg host net maxBlocks maxPdfs gatewayOffset links s' := by
  obtain ⟨wave, -, -, rfl⟩ := peekLevel_inl hstep
  apply InBudget.walkWave
  exact ⟨h.blocks, h.found, h.source⟩

theorem InBudget.falls {s s' : Peek} (h : InBudget cfg host net maxBlocks maxPdfs gatewayOffset links s)
    (hstep : peekLevel cfg host net maxBlocks maxPdfs gatewayOffset s = .inl s') :
    maxBlocks - s'.requested.length < maxBlocks - s.requested.length := by
  have hblocks := (h.step hstep).blocks
  obtain ⟨wave, hwave, hroom, rfl⟩ := peekLevel_inl hstep
  have hasks := @walkWave_asks cfg host net maxBlocks maxPdfs gatewayOffset { s with level := [] } wave hwave hroom
  simp only at hasks
  omega

def Short (most : ℕ) (s : Peek) : Prop := s.level.length ≤ (s.requested.length + 1) * most

theorem Short.step {most : ℕ} (hmost : ∀ n cid block node, getBlock cfg host (net n) cid gatewayOffset = some block →
      parseDagPb block = some node → node.links.length ≤ most) {s s' : Peek}
    (hstep : peekLevel cfg host net maxBlocks maxPdfs gatewayOffset s = .inl s') : Short most s' := by
  obtain ⟨wave, -, -, rfl⟩ := peekLevel_inl hstep
  apply le_trans (walkWave_level hmost wave (Nat.zero_le _))
  exact Nat.mul_le_mul_right most (Nat.le_succ _)

theorem Short.spread {most : ℕ} {s : Peek} (h : Short most s) (hmost : most ≤ 2 ^ 60) (hfew : maxBlocks < 2 ^ 50)
    (hblocks : s.requested.length ≤ maxBlocks) :
    (spread s.level (min (maxBlocks - s.requested.length) (min (perLevel maxBlocks) s.level.length))).isSome = true := by
  apply spread_isSome
  · exact lt_of_le_of_lt (le_trans (min_le_left _ _) (Nat.sub_le _ _)) hfew
  · calc s.level.length ≤ (s.requested.length + 1) * most := h
      _ ≤ 2 ^ 50 * 2 ^ 60 := Nat.mul_le_mul (by omega) hmost
      _ ≤ 2 ^ 120 := by norm_num

/-- The peek ends, and stays in its budget. -/
theorem peek_stays_in_budget (cfg : Settings) (host : Host) (net : Network) (maxBlocks maxPdfs gatewayOffset : ℕ)
    (links : List Link) :
    ∃ run, (∀ fuel, maxBlocks < fuel → peekHamtPdfs cfg host net maxBlocks maxPdfs gatewayOffset fuel links = some run) ∧
      PeekedWithin cfg host net maxBlocks maxPdfs gatewayOffset links run := by
  have hfirst := docChildLinks_length host.chars maxPdfs links
  have hsource : ∀ f ∈ Work.docChildLinks host.chars maxPdfs links,
      ∃ l, Offered cfg host net gatewayOffset links [] l ∧ PdfOf host.chars l f := by
    intro f hf
    obtain ⟨l, hl, hpdf⟩ := mem_docChildLinks hf
    exact ⟨l, .inl hl, hpdf⟩
  by_cases hdone : maxPdfs ≤ (Work.docChildLinks host.chars maxPdfs links).length ∨ maxBlocks = 0
  · refine ⟨⟨some (Work.docChildLinks host.chars maxPdfs links), []⟩, ?_, ?_⟩
    · intro fuel _
      rw [peekHamtPdfs]
      exact if_pos hdone
    · refine ⟨Nat.zero_le _, ?_, ?_, fun _ _ _ => ⟨_, rfl⟩⟩
      · intro found hfound
        rwa [← Option.some.inj hfound]
      · intro found hfound
        rwa [← Option.some.inj hfound]
  · set start : Peek := {
      found := Work.docChildLinks host.chars maxPdfs links
      seenPdf := (Work.docChildLinks host.chars maxPdfs links).map Prod.snd
      level := fresh ((Work.docChildLinks host.chars maxPdfs links).map Prod.snd) [] links
      requested := [] } with hstart
    have hbudget : InBudget cfg host net maxBlocks maxPdfs gatewayOffset links start := ⟨Nat.zero_le _, hfirst, hsource⟩
    obtain ⟨run, hrun⟩ := Loop.iterate_ends (fun s => maxBlocks - s.requested.length) (fun s s' => InBudget.step)
      (fun s s' => InBudget.falls) hbudget (Nat.lt_succ_of_le (Nat.sub_le maxBlocks start.requested.length))
    have hleaves : ∀ s run, InBudget cfg host net maxBlocks maxPdfs gatewayOffset links s →
        peekLevel cfg host net maxBlocks maxPdfs gatewayOffset s = .inr run →
        run.requested.length ≤ maxBlocks ∧ ∀ found, run.outcome = some found → found.length ≤ maxPdfs ∧
          ∀ f ∈ found, ∃ l, Offered cfg host net gatewayOffset links run.requested l ∧ PdfOf host.chars l f := by
      intro s run hs hstep
      obtain ⟨hrequested, houtcome⟩ := peekLevel_inr hstep
      rw [hrequested]
      refine ⟨hs.blocks, ?_⟩
      intro found hfound
      obtain houtcome | ⟨houtcome, -⟩ := houtcome
      · obtain rfl := Option.some.inj (houtcome.symm.trans hfound)
        exact ⟨hs.found, hs.source⟩
      · rw [houtcome] at hfound
        cases hfound
    obtain ⟨hblocks, hfound⟩ := Loop.iterate_invariant (fun s s' => InBudget.step) hleaves hbudget hrun
    refine ⟨run, ?_, hblocks, fun found h => (hfound found h).1, fun found h => (hfound found h).2, ?_⟩
    · intro fuel hfuel
      rw [peekHamtPdfs]
      exact (if_neg hdone).trans (Loop.iterate_mono hfuel hrun)
    · intro hfew hlinks hmost
      have hshort : Short (2 ^ 60) start := by
        have hfresh := fresh_length ((Work.docChildLinks host.chars maxPdfs links).map Prod.snd) [] links
        rw [Short, List.length_nil, Nat.zero_add, Nat.one_mul]
        rw [List.length_nil, Nat.zero_add] at hfresh
        exact le_trans hfresh hlinks
      refine Loop.iterate_invariant
        (I := fun s => InBudget cfg host net maxBlocks maxPdfs gatewayOffset links s ∧ Short (2 ^ 60) s)
        (Q := fun run => ∃ found, run.outcome = some found)
        (fun s s' hs hstep => ⟨hs.1.step hstep, Short.step hmost hstep⟩) ?_ ⟨hbudget, hshort⟩ hrun
      intro s run hs hstep
      obtain ⟨-, houtcome | ⟨-, hraised⟩⟩ := peekLevel_inr hstep
      · exact ⟨_, houtcome⟩
      · have hsome := hs.2.spread (le_refl _) hfew hs.1.blocks
        rw [hraised] at hsome
        cases hsome

end Peeking

end ObserverClub.Fetch
