import ObserverClub.FetchWhole

namespace ObserverClub.Fetch

open Library Python UnixFs

variable {store : Text → Option Bytes}

/-- The blocks of a depth-first walk through the links, in the order they are met. -/
inductive Walks (store : Text → Option Bytes) : List Link → List Bytes → Prop where
  | nil : Walks store [] []
  | cons {l : Link} {links : List Link} {block : Bytes} {inner outer : List Bytes} (found : store l.cid = some block)
      (below : Walks store (childBytes block).2 inner) (after : Walks store links outer) :
      Walks store (l :: links) (block :: (inner ++ outer))

/-- What the blocks of a walk add up to. -/
def walked (blocks : List Bytes) : Bytes := blocks.flatMap fun block => (childBytes block).1

/-- What a wave keeps of a block: the data of a block with links is not among it. -/
def keptBytes (block : Bytes) : Bytes := if (childBytes block).2 = [] then (childBytes block).1 else []

/-- What the loops gather from the blocks of a walk, with `n` bytes in hand: all of a block while there is too
little to sniff, and then what the waves keep. -/
def gathered (keep : Bytes → Bytes) : ℕ → List Bytes → Bytes
  | _, [] => []
  | n, block :: blocks =>
    let bytes := if n < sniffMin then (childBytes block).1 else keep block
    bytes ++ gathered keep (n + bytes.length) blocks

/-- No byte of the walk is left out before one that is gathered. -/
def Lossless (n : ℕ) (blocks : List Bytes) : Prop := gathered keptBytes n blocks <+: walked blocks

instance (n : ℕ) (blocks : List Bytes) : Decidable (Lossless n blocks) := inferInstanceAs (Decidable (_ <+: _))

theorem keptBytes_eq {block : Bytes} (h : (childBytes block).1 = [] ∨ (childBytes block).2 = []) :
    keptBytes block = (childBytes block).1 := by
  rw [keptBytes]
  split_ifs with hl
  · rfl
  · exact (h.resolve_right hl).symm

theorem gathered_late (keep : Bytes → Bytes) {n : ℕ} (h : sniffMin ≤ n) (blocks : List Bytes) :
    gathered keep n blocks = blocks.flatMap keep := by
  induction blocks generalizing n with
  | nil => rfl
  | cons block blocks ih =>
    simp only [gathered, if_neg (Nat.not_lt.mpr h), List.flatMap_cons]
    rw [ih (Nat.le_add_right_of_le h)]

theorem gathered_early (keep : Bytes → Bytes) {n : ℕ} {block : Bytes} (h : n < sniffMin) (blocks : List Bytes) :
    gathered keep n (block :: blocks) = (childBytes block).1 ++ gathered keep (n + (childBytes block).1.length) blocks := by
  simp only [gathered, if_pos h]

theorem gathered_all (n : ℕ) (blocks : List Bytes) : gathered (fun block => (childBytes block).1) n blocks = walked blocks := by
  induction blocks generalizing n with
  | nil => rfl
  | cons block blocks ih => simp only [gathered, ite_self, ih, walked, List.flatMap_cons]

/-- The walk computed, at most `n` links deep and wide. -/
def walkBlocks (store : Text → Option Bytes) : ℕ → List Link → Option (List Bytes)
  | _, [] => some []
  | 0, _ :: _ => none
  | n + 1, l :: links =>
    (store l.cid).bind fun block =>
      (walkBlocks store n (childBytes block).2).bind fun inner =>
        (walkBlocks store n links).map fun outer => block :: (inner ++ outer)

theorem walks_of_walkBlocks {n : ℕ} {links : List Link} {blocks : List Bytes} (h : walkBlocks store n links = some blocks) :
    Walks store links blocks := by
  induction n generalizing links blocks with
  | zero =>
    cases links with
    | nil =>
      obtain rfl : [] = blocks := Option.some.inj h
      exact .nil
    | cons l links => cases h
  | succ n ih =>
    cases links with
    | nil =>
      obtain rfl : [] = blocks := Option.some.inj h
      exact .nil
    | cons l links =>
      obtain ⟨block, hblock, h⟩ := Option.bind_eq_some_iff.mp h
      obtain ⟨inner, hinner, h⟩ := Option.bind_eq_some_iff.mp h
      obtain ⟨outer, houter, rfl⟩ := Option.map_eq_some_iff.mp h
      exact .cons hblock (ih hinner) (ih houter)

theorem Walks.append {ls ms : List Link} {xs ys : List Bytes} (h : Walks store ls xs) (h' : Walks store ms ys) :
    Walks store (ls ++ ms) (xs ++ ys) := by
  induction h with
  | nil => exact h'
  | cons found below after _ ih =>
    rw [List.cons_append, List.cons_append, List.append_assoc]
    exact .cons found below ih

/-- The queue, the blocks that are still to be asked for, and the bytes it stands for. -/
inductive Queued (store : Text → Option Bytes) (keep : Bytes → Bytes) : List Entry → List Bytes → Bytes → Prop where
  | nil : Queued store keep [] [] []
  | link {l : Link} {block : Bytes} {rest : List Entry} {inner outer : List Bytes} {a b : Bytes}
      (found : store l.cid = some block) (below : Queued store keep ((childBytes block).2.map .link) inner a)
      (after : Queued store keep rest outer b) :
      Queued store keep (.link l :: rest) (block :: (inner ++ outer)) (keep block ++ a ++ b)
  | resolved {data : Bytes} {rest : List Entry} {outer : List Bytes} {b : Bytes} (after : Queued store keep rest outer b) :
      Queued store keep (.resolved data :: rest) outer (data ++ b)

variable {keep : Bytes → Bytes}

theorem Walks.queued {ls : List Link} {blocks : List Bytes} (h : Walks store ls blocks) :
    Queued store keep (ls.map .link) blocks (blocks.flatMap keep) := by
  induction h with
  | nil => exact .nil
  | cons found _ _ below after =>
    rw [List.flatMap_cons, List.flatMap_append, ← List.append_assoc]
    exact .link found below after

theorem Queued.append {xs ys : List Entry} {bs cs : List Bytes} {a b : Bytes} (h : Queued store keep xs bs a)
    (h' : Queued store keep ys cs b) : Queued store keep (xs ++ ys) (bs ++ cs) (a ++ b) := by
  induction h with
  | nil => exact h'
  | link found below _ _ ih =>
    simpa only [List.cons_append, List.append_assoc] using Queued.link found below ih
  | resolved _ ih =>
    rw [List.append_assoc]
    exact .resolved ih

theorem Queued.split {xs ys : List Entry} {blocks : List Bytes} {bytes : Bytes}
    (h : Queued store keep (xs ++ ys) blocks bytes) :
    ∃ bs cs a b, blocks = bs ++ cs ∧ bytes = a ++ b ∧ Queued store keep xs bs a ∧ Queued store keep ys cs b := by
  induction xs generalizing blocks bytes with
  | nil => exact ⟨[], blocks, [], bytes, rfl, rfl, .nil, h⟩
  | cons x xs ih =>
    cases h with
    | link found below after =>
      obtain ⟨bs, cs, a, b, rfl, rfl, hxs, hys⟩ := ih after
      refine ⟨_, cs, _, b, ?_, ?_, .link found below hxs, hys⟩
      · rw [List.cons_append, List.append_assoc]
      · rw [List.append_assoc, List.append_assoc, List.append_assoc]
    | resolved after =>
      obtain ⟨bs, cs, a, b, rfl, rfl, hxs, hys⟩ := ih after
      exact ⟨bs, cs, _, b, rfl, (List.append_assoc _ _ _).symm, .resolved hxs, hys⟩

theorem Queued.flush {out : Bytes} {pending : List Entry} {blocks : List Bytes} {bytes : Bytes}
    (h : Queued store keep pending blocks bytes) :
    ∃ rest, Queued store keep (flush out pending).2 blocks rest ∧ out ++ bytes = (flush out pending).1 ++ rest := by
  induction pending generalizing out bytes with
  | nil => exact ⟨bytes, h, rfl⟩
  | cons e pending ih =>
    cases h with
    | link found below after => exact ⟨_, .link found below after, rfl⟩
    | @resolved data _ _ b after =>
      obtain ⟨rest, hrest, heq⟩ := @ih (out ++ data) _ after
      exact ⟨rest, hrest, by rw [← List.append_assoc]; exact heq⟩

theorem queued_entriesOf {block : Bytes} {inner : List Bytes} {a : Bytes} (hkeep : keep block = keptBytes block)
    (h : Queued store keep ((childBytes block).2.map .link) inner a) :
    Queued store keep (entriesOf block) inner (keep block ++ a) := by
  rw [hkeep]
  unfold entriesOf keptBytes
  dsimp only
  by_cases hlinks : (childBytes block).2 = []
  · rw [hlinks] at h
    cases h
    rw [if_neg (not_not.mpr hlinks), if_pos hlinks]
    split_ifs with hdata
    · exact .resolved .nil
    · rw [not_not.mp hdata]
      exact .nil
  · rw [if_pos hlinks, if_neg hlinks]
    exact h

theorem queued_replacement {wave : List Link} {got : List (Option Bytes)} {entries : List Entry} {blocks : List Bytes}
    {bytes : Bytes} (h : Queued store keep (wave.map .link) blocks bytes)
    (hf : List.Forall₂ (Fetched fun cid block => store cid = some block) (wave.map Link.cid) got)
    (hr : replacement got = some entries) (hkeep : ∀ block, some block ∈ got → keep block = keptBytes block) :
    ∃ left, Queued store keep entries left bytes ∧ blocks.length = wave.length + left.length ∧ left ⊆ blocks := by
  induction wave generalizing got entries blocks bytes with
  | nil =>
    cases hf
    cases h
    obtain rfl : [] = entries := Option.some.inj hr
    exact ⟨[], .nil, rfl, List.nil_subset _⟩
  | cons l wave ih =>
    cases hf with
    | @cons _ o _ got ho hf =>
      cases h with
      | @link _ block _ inner outer a b found below after =>
        cases o with
        | none => simp [replacement] at hr
        | some block' =>
          obtain rfl := Option.some.inj (found.symm.trans (ho block' rfl))
          simp only [replacement, Option.map_eq_some_iff] at hr
          obtain ⟨rest, hrest, rfl⟩ := hr
          obtain ⟨hthis, hothers⟩ : keep block = keptBytes block ∧ ∀ b, some b ∈ got → keep b = keptBytes b :=
            ⟨hkeep block List.mem_cons_self, fun b hb => hkeep b (List.mem_cons_of_mem _ hb)⟩
          obtain ⟨left, hleft, hcount, hsub⟩ := ih after hf hrest hothers
          refine ⟨inner ++ left, (queued_entriesOf hthis below).append hleft, ?_, ?_⟩
          · simp only [List.length_cons, List.length_append, hcount]
            omega
          · apply List.append_subset.mpr
            constructor
            · exact fun x hx => List.mem_cons_of_mem _ (List.mem_append_left _ hx)
            · exact fun x hx => List.mem_cons_of_mem _ (List.mem_append_right _ (hsub hx))

section Invariants

variable {cfg : Settings} {host : Host} {net : Network} {base : Bytes} {total offset budget maxBlocks : ℕ}

structure Following (store : Text → Option Bytes) (keep : Bytes → Bytes) (base : Bytes) (w : Walk Link) : Prop where
  split : ∃ blocks, Walks store w.pending blocks ∧ base = w.out ++ gathered keep w.out.length blocks
  early : w.mime = none → w.out.length < sniffMin
  late : w.mime ≠ none → sniffMin ≤ w.out.length

theorem Following.of_sniffed {w w' : Walk Link} (hm : w.mime = none)
    (h : ∃ blocks, Walks store w.pending blocks ∧ base = w.out ++ gathered keep w.out.length blocks)
    (hs : w.sniffed host = .inl w') : Following store keep base w' := by
  obtain ⟨hlt, rfl⟩ | ⟨hle, mime, -, rfl⟩ := sniffed_inl hs
  · exact ⟨h, fun _ => hlt, fun hne => absurd hm hne⟩
  · refine ⟨h, fun hn => ?_, fun _ => hle⟩
    cases hn

theorem walks_extended (keep : Bytes → Bytes) {w : Walk Link} {l : Link} {rest : List Link} {block : Bytes} {blocks : List Bytes}
    (hearly : w.out.length < sniffMin) (hp : w.pending = l :: rest) (hb : store l.cid = some block)
    (h : Walks store w.pending blocks) :
    ∃ left, blocks = block :: left ∧ Walks store (w.extended l rest block).pending left ∧
      w.out ++ gathered keep w.out.length blocks =
        (w.extended l rest block).out ++ gathered keep (w.extended l rest block).out.length left := by
  rw [hp] at h
  cases h with
  | @cons _ _ block' inner outer found below after =>
    obtain rfl := Option.some.inj (found.symm.trans hb)
    refine ⟨inner ++ outer, rfl, below.append after, ?_⟩
    rw [gathered_early keep hearly]
    simp only [Walk.extended, List.length_append, List.append_assoc]

theorem Following.go (hserves : Serves cfg host net store) {w w' : Walk Link} (h : Following store keep base w)
    (hstep : serialStep cfg host net offset w = .inl w') : Following store keep base w' := by
  by_cases hk : w.mime ≠ none ∨ w.pending = []
  · rw [serialStep_known hk] at hstep
    cases hstep
  · simp only [not_or, not_not] at hk
    obtain ⟨l, rest, hp⟩ := List.exists_cons_of_ne_nil hk.2
    cases hb : getBlock cfg host (net w.calls) l.cid offset with
    | none =>
      rw [serialStep_missing hk.1 hp hb] at hstep
      cases hstep
    | some block =>
      rw [serialStep_found hk.1 hp hb] at hstep
      cases hs : (w.extended l rest block).sniffed host with
      | inr a =>
        rw [hs] at hstep
        cases hstep
      | inl v =>
        rw [hs, Sum.elim_inl, Sum.inl.injEq] at hstep
        subst hstep
        obtain ⟨blocks, hwalks, hbase⟩ := h.split
        obtain ⟨left, -, hleft, heq⟩ :=
          walks_extended keep (h.early hk.1) hp (hserves.getBlock _ _ _ _ hb) hwalks
        exact .of_sniffed (w := w.extended l rest block) hk.1 ⟨left, hleft, hbase.trans heq⟩ hs

def Within (base : Bytes) (a : Assembled) : Prop :=
  ∀ data t, a.outcome = .ok (data, t) →
    data <+: base ∧ (t = false → a.mime.any Extract.processable = true → data = base)

theorem within_truncated {item : Type} {w : Walk item} {data : Bytes} (h : data <+: base) :
    Within base (w.ended (.ok (data, true))) := by
  intro data' t hdata
  simp only [Walk.ended, Except.ok.injEq, Prod.mk.injEq] at hdata
  obtain ⟨rfl, rfl⟩ := hdata
  exact ⟨h, fun hf => absurd hf (by decide)⟩

theorem within_raised {item : Type} (w : Walk item) (e : Error) : Within base (w.ended (.error e)) := by
  intro data t hdata
  cases hdata

theorem Following.leave {w : Walk Link} {r : Walk Link ⊕ Assembled} (h : Following store keep base w)
    (hstep : serialStep cfg host net offset w = .inr r) : r.elim (Following store keep base) (Within base) := by
  by_cases hk : w.mime ≠ none ∨ w.pending = []
  · rw [serialStep_known hk, Sum.inr.injEq] at hstep
    exact hstep ▸ h
  · simp only [not_or, not_not] at hk
    obtain ⟨l, rest, hp⟩ := List.exists_cons_of_ne_nil hk.2
    obtain ⟨blocks, -, rfl⟩ := h.split
    cases hb : getBlock cfg host (net w.calls) l.cid offset with
    | none =>
      rw [serialStep_missing hk.1 hp hb, Sum.inr.injEq] at hstep
      exact hstep ▸ within_truncated (List.prefix_append _ _)
    | some block =>
      rw [serialStep_found hk.1 hp hb] at hstep
      cases hs : (w.extended l rest block).sniffed host with
      | inl v =>
        rw [hs] at hstep
        cases hstep
      | inr a =>
        rw [hs, Sum.elim_inr, Sum.inr.injEq] at hstep
        obtain ⟨-, e, -, rfl⟩ := sniffed_inr hs
        exact hstep ▸ within_raised _ e

def Spreading (store : Text → Option Bytes) (keep : Bytes → Bytes) (base : Bytes) (w : Walk Entry) : Prop :=
  ∃ blocks bytes, Queued store keep w.pending blocks bytes ∧ base = w.out ++ bytes

def waveBlocks (cfg : Settings) (host : Host) (net : Network) (offset maxBlocks : ℕ) (w : Walk Entry) : List (Option Bytes) :=
  (fetchChildren cfg host net offset w.calls
    ((takeWave (min cfg.childConcurrency (maxBlocks - w.used)) w.pending).1.map Link.cid)).1

theorem Spreading.go (hserves : Serves cfg host net store) {w w' : Walk Entry} (h : Spreading store keep base w)
    (hkeep : ∀ block, some block ∈ waveBlocks cfg host net offset maxBlocks w → keep block = keptBytes block)
    (hstep : waveStep cfg host net offset budget maxBlocks w = .inl w') : Spreading store keep base w' := by
  by_cases hw : Waving cfg budget maxBlocks w
  · rw [waveStep_go host net offset hw rfl] at hstep
    obtain ⟨blocks, bytes, hqueued, hbase⟩ := h
    rw [takeWave_split (min cfg.childConcurrency (maxBlocks - w.used)) w.pending] at hqueued
    obtain ⟨bs, cs, a, b, -, rfl, ha, hb⟩ := hqueued.split
    have hf := fetchChildren_fetched hserves.getBlock offset w.calls
      ((takeWave (min cfg.childConcurrency (maxBlocks - w.used)) w.pending).1.map Link.cid)
    cases hr : replacement (fetchChildren cfg host net offset w.calls
        ((takeWave (min cfg.childConcurrency (maxBlocks - w.used)) w.pending).1.map Link.cid)).1 with
    | none =>
      rw [hr] at hstep
      cases hstep
    | some entries =>
      rw [hr, Option.elim_some, Sum.inl.injEq] at hstep
      subst hstep
      obtain ⟨left, hleft, -, -⟩ := queued_replacement ha hf hr hkeep
      obtain ⟨rest, hrest, heq⟩ := (hleft.append hb).flush
      exact ⟨_, rest, hrest, hbase.trans heq⟩
  · rw [waveStep_stop hw] at hstep
    cases hstep

theorem Spreading.leave {w : Walk Entry} {r : Walk Entry ⊕ Assembled} (h : Spreading store keep base w)
    (hstep : waveStep cfg host net offset budget maxBlocks w = .inr r) :
    r.elim (Spreading store keep base) (Within base) := by
  by_cases hw : Waving cfg budget maxBlocks w
  · rw [waveStep_go host net offset hw rfl] at hstep
    cases hr : replacement (fetchChildren cfg host net offset w.calls
        ((takeWave (min cfg.childConcurrency (maxBlocks - w.used)) w.pending).1.map Link.cid)).1 with
    | none =>
      rw [hr, Option.elim_none, Sum.inr.injEq] at hstep
      obtain ⟨blocks, bytes, -, rfl⟩ := h
      exact hstep ▸ within_truncated ((List.take_prefix _ _).trans (List.prefix_append _ _))
    | some entries =>
      rw [hr] at hstep
      cases hstep
  · rw [waveStep_stop hw, Sum.inr.injEq] at hstep
    exact hstep ▸ h

variable {root : Node} {fuel : ℕ}

theorem Spreading.finished {w : Walk Entry} (h : Spreading store keep base w) :
    Within base (w.ended (.ok (finish budget root.filesize w))) := by
  intro data t hdata
  obtain ⟨blocks, bytes, hqueued, rfl⟩ := h
  simp only [Walk.ended, finish, Except.ok.injEq, Prod.mk.injEq] at hdata
  obtain ⟨rfl, ht⟩ := hdata
  refine ⟨(List.take_prefix _ _).trans (List.prefix_append _ _), fun hf _ => ?_⟩
  simp only [hf, Bool.or_eq_false_iff, Bool.not_eq_false', List.isEmpty_iff, decide_eq_false_iff_not, not_lt] at ht
  obtain ⟨⟨hpending, hlen⟩, -⟩ := ht
  rw [hpending] at hqueued
  cases hqueued
  rw [List.append_nil, List.take_of_length_le hlen]

/-- The states that the second loop of an assembly goes through, by the type the file has. -/
inductive WaveState (cfg : Settings) (host : Host) (net : Network) (root : Node) (offset calls : ℕ) (names : List Text)
    (mime : Text) : Walk Entry → Prop where
  | first {w v : Walk Link} {fuel : ℕ} (begun : (started root calls names).sniffed host = .inl w)
      (left : Loop.iterate (serialStep cfg host net offset) fuel w = some (.inl v)) (typed : v.mime = some mime)
      (worth : Extract.processable mime = true) :
      WaveState cfg host net root offset calls names mime { v with pending := v.pending.map Entry.link }
  | next {w w' : Walk Entry} (before : WaveState cfg host net root offset calls names mime w)
      (step : waveStep cfg host net offset (budgetFor cfg mime root.filesize).1 (budgetFor cfg mime root.filesize).2 w =
        .inl w') : WaveState cfg host net root offset calls names mime w'

/-- A wave goes on with all its blocks in hand, one of which has both data and links. -/
def Drops (cfg : Settings) (host : Host) (net : Network) (offset budget maxBlocks : ℕ) (w : Walk Entry) : Prop :=
  (∃ w', waveStep cfg host net offset budget maxBlocks w = .inl w') ∧
    ∃ block, some block ∈ waveBlocks cfg host net offset maxBlocks w ∧ (childBytes block).1 ≠ [] ∧ (childBytes block).2 ≠ []

/-- The second loop never drops data. -/
def Undropped (cfg : Settings) (host : Host) (net : Network) (root : Node) (offset calls : ℕ) (names : List Text) : Prop :=
  ∀ mime w, WaveState cfg host net root offset calls names mime w →
    ¬Drops cfg host net offset (budgetFor cfg mime root.filesize).1 (budgetFor cfg mime root.filesize).2 w

def Keeps (cfg : Settings) (host : Host) (net : Network) (root : Node) (offset calls : ℕ) (names : List Text)
    (keep : Bytes → Bytes) : Prop :=
  ∀ mime w, WaveState cfg host net root offset calls names mime w → ∀ w', waveStep cfg host net offset
    (budgetFor cfg mime root.filesize).1 (budgetFor cfg mime root.filesize).2 w = .inl w' →
      ∀ block, some block ∈ waveBlocks cfg host net offset (budgetFor cfg mime root.filesize).2 w → keep block = keptBytes block

variable {calls : ℕ} {names : List Text}

theorem Undropped.keeps (h : Undropped cfg host net root offset calls names) :
    Keeps cfg host net root offset calls names fun block => (childBytes block).1 := by
  intro mime w hw w' hstep block hblock
  by_contra hne
  refine h mime w hw ⟨⟨w', hstep⟩, block, hblock, fun hdata => ?_, fun hlinks => ?_⟩
  · exact hne (keptBytes_eq (Or.inl hdata)).symm
  · exact hne (keptBytes_eq (Or.inr hlinks)).symm

theorem assembleWaves_within (hserves : Serves cfg host net store)
    (hkeeps : Keeps cfg host net root offset calls names keep) {mime : Text} {w : Walk Link} {a : Assembled}
    (h : Following store keep base w) (hm : w.mime = some mime)
    (hw : WaveState cfg host net root offset calls names mime { w with pending := w.pending.map Entry.link })
    (ha : assembleWaves cfg host net fuel root offset mime w = some a) : Within base a := by
  obtain ⟨blocks, hwalks, hbase⟩ := h.split
  have hlate : sniffMin ≤ w.out.length := h.late (by rw [hm]; exact Option.some_ne_none _)
  unfold assembleWaves at ha
  dsimp only at ha
  split_ifs at ha with hlimit
  · rw [Option.some.injEq] at ha
    subst ha
    exact within_truncated (hbase ▸ List.prefix_append _ _)
  · have hstart : Spreading store keep base { w with pending := w.pending.map Entry.link } := by
      rw [gathered_late keep hlate] at hbase
      exact ⟨blocks, _, hwalks.queued, hbase⟩
    cases hi : Loop.iterate (waveStep cfg host net offset (budgetFor cfg mime root.filesize).1
        (budgetFor cfg mime root.filesize).2) fuel { w with pending := w.pending.map Entry.link } with
    | none =>
      rw [hi] at ha
      cases ha
    | some r =>
      rw [hi] at ha
      have hend := Loop.iterate_invariant
        (I := fun s => WaveState cfg host net root offset calls names mime s ∧ Spreading store keep base s)
        (fun s s' hs hstep => ⟨.next hs.1 hstep, hs.2.go hserves (hkeeps mime s hs.1 s' hstep) hstep⟩)
        (fun _ _ hs hstep => hs.2.leave hstep) ⟨hw, hstart⟩ hi
      cases r with
      | inr a' =>
        obtain rfl : a' = a := Option.some.inj ha
        exact hend
      | inl v =>
        obtain rfl := Option.some.inj ha
        exact hend.finished

theorem assembleRest_within (hserves : Serves cfg host net store)
    (hkeeps : Keeps cfg host net root offset calls names keep) {w : Walk Link} {a : Assembled} (h : Following store keep base w)
    (hw : ∀ mime, w.mime = some mime → Extract.processable mime = true →
      WaveState cfg host net root offset calls names mime { w with pending := w.pending.map Entry.link })
    (ha : assembleRest cfg host net fuel root offset w = some a) : Within base a := by
  unfold assembleRest at ha
  cases hp : w.mime.filter Extract.processable with
  | some mime =>
    rw [hp] at ha
    obtain ⟨hm, hproc⟩ := Option.filter_eq_some_iff.mp hp
    exact assembleWaves_within hserves hkeeps h hm (hw mime hm hproc) ha
  | none =>
    rw [hp] at ha
    obtain rfl := Option.some.inj ha
    obtain ⟨blocks, -, rfl⟩ := h.split
    intro data t hdata
    simp only [Walk.ended, Except.ok.injEq, Prod.mk.injEq] at hdata
    obtain ⟨rfl, -⟩ := hdata
    refine ⟨(List.take_prefix _ _).trans (List.prefix_append _ _), fun _ hproc => ?_⟩
    obtain ⟨m, hm, hproc⟩ := some_of_any hproc
    simp only [Walk.ended] at hm
    rw [hm, Option.filter_some, hproc] at hp
    cases hp

theorem assembleFile_within (hserves : Serves cfg host net store)
    (hkeeps : Keeps cfg host net root offset calls names keep) {a : Assembled} {blocks : List Bytes}
    (hwalk : Walks store root.links blocks) (ha : assembleFile cfg host net fuel root offset calls names = some a) :
    Within (root.inlineData ++ gathered keep root.inlineData.length blocks) a := by
  have hfollowing {w : Walk Link} (hs : (started root calls names).sniffed host = .inl w) :
      Following store keep (root.inlineData ++ gathered keep root.inlineData.length blocks) w :=
    .of_sniffed (w := started root calls names) rfl ⟨blocks, hwalk, rfl⟩ hs
  have hends {w : Walk Link} (hs : (started root calls names).sniffed host = .inl w) {r : Walk Link ⊕ Assembled}
      (hi : Loop.iterate (serialStep cfg host net offset) fuel w = some r) :=
    Loop.iterate_invariant (fun _ _ hw hstep => hw.go hserves hstep) (fun _ _ hw hstep => hw.leave hstep) (hfollowing hs) hi
  cases assembleFile_cases ha with
  | @raised e begun same =>
    rw [same]
    exact within_raised _ e
  | @unworthy w m begun known unworthy same =>
    subst same
    obtain ⟨left, -, hbase⟩ := (hfollowing begun).split
    rw [hbase]
    intro data t hdata
    simp only [Walk.ended, Except.ok.injEq, Prod.mk.injEq] at hdata
    obtain ⟨rfl, -⟩ := hdata
    refine ⟨(List.take_prefix _ _).trans (List.prefix_append _ _), fun _ hproc => ?_⟩
    simp only [Walk.ended, known, Option.any_some] at hproc
    rw [unworthy] at hproc
    cases hproc
  | stopped begun run => exact hends begun run
  | went begun run rest =>
    exact assembleRest_within hserves hkeeps (hends begun run) (fun mime hm hproc => .first begun run hm hproc) rest

theorem WaveState.begun {mime : Text} {s : Walk Entry} (h : WaveState cfg host net root offset calls names mime s) :
    Extract.processable mime = true ∧ ∃ w v fuel, (started root calls names).sniffed host = .inl w ∧
      Loop.iterate (serialStep cfg host net offset) fuel w = some (.inl v) ∧ v.mime = some mime := by
  induction h with
  | first begun left typed worth => exact ⟨worth, _, _, _, begun, left, typed⟩
  | next _ _ ih => exact ih

theorem waveStep_mime (cfg : Settings) (host : Host) (net : Network) (offset budget maxBlocks : ℕ) (w : Walk Entry) :
    (waveStep cfg host net offset budget maxBlocks w).elim Walk.mime (Sum.elim Walk.mime Assembled.mime) = w.mime := by
  by_cases hw : Waving cfg budget maxBlocks w
  · rw [waveStep_go host net offset hw rfl]
    cases replacement (fetchChildren cfg host net offset w.calls
        ((takeWave (min cfg.childConcurrency (maxBlocks - w.used)) w.pending).1.map Link.cid)).1 with
    | none => rfl
    | some entries => rfl
  · rw [waveStep_stop hw]
    rfl

theorem assembleWaves_mime {mime : Text} {w : Walk Link} {a : Assembled}
    (ha : assembleWaves cfg host net fuel root offset mime w = some a) : a.mime = w.mime := by
  unfold assembleWaves at ha
  dsimp only at ha
  split_ifs at ha with hlimit
  · obtain rfl := Option.some.inj ha
    rfl
  · have hrun {s : Walk Entry} {r : Walk Entry ⊕ (Walk Entry ⊕ Assembled)} (hs : s.mime = w.mime)
        (hstep : waveStep cfg host net offset (budgetFor cfg mime root.filesize).1 (budgetFor cfg mime root.filesize).2 s = r) :
        r.elim Walk.mime (Sum.elim Walk.mime Assembled.mime) = w.mime := by
      rw [← hstep, waveStep_mime, hs]
    cases hi : Loop.iterate (waveStep cfg host net offset (budgetFor cfg mime root.filesize).1
        (budgetFor cfg mime root.filesize).2) fuel { w with pending := w.pending.map Entry.link } with
    | none =>
      rw [hi] at ha
      cases ha
    | some r =>
      rw [hi] at ha
      have hend := Loop.iterate_invariant (I := fun s : Walk Entry => s.mime = w.mime)
        (Q := fun r => r.elim Walk.mime Assembled.mime = w.mime) (fun _ _ hs hstep => hrun hs hstep)
        (fun _ _ hs hstep => hrun hs hstep) rfl hi
      cases r with
      | inl v =>
        obtain rfl := Option.some.inj ha
        exact hend
      | inr b =>
        obtain rfl := Option.some.inj ha
        exact hend

theorem undropped_of_unworthy {a : Assembled} (ha : assembleFile cfg host net fuel root offset calls names = some a)
    (hnot : a.mime.any Extract.processable = false) : Undropped cfg host net root offset calls names := by
  intro mime s hs
  obtain ⟨hproc, w, v, more, hbegun, hleft, hm⟩ := hs.begun
  exfalso
  cases assembleFile_cases ha with
  | raised begun same => cases begun.symm.trans hbegun
  | @unworthy w' m begun known unworthy same =>
    obtain rfl : w' = w := Sum.inl.inj (begun.symm.trans hbegun)
    have hstop : serialStep cfg host net offset w' = .inr (.inl w') :=
      serialStep_known (Or.inl (by rw [known]; exact Option.some_ne_none m))
    obtain rfl : w' = v := Sum.inl.inj (Loop.iterate_unique (@Loop.iterate_inr _ _ _ 0 _ _ hstop) hleft)
    obtain rfl := Option.some.inj (known.symm.trans hm)
    rw [hproc] at unworthy
    cases unworthy
  | @stopped w' begun run =>
    obtain rfl : w' = w := Sum.inl.inj (begun.symm.trans hbegun)
    cases Loop.iterate_unique run hleft
  | @went w' v' begun run rest =>
    obtain rfl : w' = w := Sum.inl.inj (begun.symm.trans hbegun)
    obtain rfl : v' = v := Sum.inl.inj (Loop.iterate_unique run hleft)
    rw [assembleRest_waves hm hproc] at rest
    rw [assembleWaves_mime rest, hm, Option.any_some, hproc] at hnot
    cases hnot

/-- Where no wave drops data a sample is a prefix of the plain walk, whatever was to be had; and so it is where what is
dropped still leaves a prefix. A sample that is not cut by the waves is such a prefix only then. -/
theorem assembleFile_lossless (cfg : Settings) (host : Host) (net : Network) (store : Text → Option Bytes)
    (hserves : Serves cfg host net store) (root : Node) (blocks : List Bytes) (hwalk : Walks store root.links blocks)
    (fuel offset calls : ℕ) (names : List Text) (a : Assembled) (data : Bytes) (t : Bool)
    (ha : assembleFile cfg host net fuel root offset calls names = some a) (hdata : a.outcome = .ok (data, t)) :
    (Undropped cfg host net root offset calls names ∨ Lossless root.inlineData.length blocks →
        data <+: root.inlineData ++ walked blocks) ∧
      (t = false ∨ a.mime.any Extract.processable = false → (data <+: root.inlineData ++ walked blocks ↔
        Undropped cfg host net root offset calls names ∨ Lossless root.inlineData.length blocks)) := by
  have hkept : Keeps cfg host net root offset calls names keptBytes := fun _ _ _ _ _ _ _ => rfl
  obtain ⟨hpre, hwhole⟩ := assembleFile_within hserves hkept hwalk ha data t hdata
  have henough (h : Undropped cfg host net root offset calls names ∨ Lossless root.inlineData.length blocks) :
      data <+: root.inlineData ++ walked blocks := by
    obtain hundropped | hlossless := h
    · have hall := (assembleFile_within hserves hundropped.keeps hwalk ha data t hdata).1
      rwa [gathered_all] at hall
    · exact hpre.trans ((List.prefix_append_right_inj _).mpr hlossless)
  refine ⟨henough, fun hend => ⟨fun hprefix => ?_, henough⟩⟩
  cases hproc : a.mime.any Extract.processable with
  | false => exact Or.inl (undropped_of_unworthy ha hproc)
  | true =>
    obtain ht | hnot := hend
    · rw [hwhole ht hproc] at hprefix
      exact Or.inr ((List.prefix_append_right_inj _).mp hprefix)
    · cases hproc.symm.trans hnot

end Invariants

theorem assembleFile_skips : ∃ root blocks a data t, parseDagPb (rootWith 0x70 mixedDigest) = some root ∧
    Serves {} misreadHost (blocksNetwork [rootWith 0x70 mixedDigest, pdfHead, mixedFile, pdfHead])
      (storeOf misreadHost [rootWith 0x70 mixedDigest, pdfHead, mixedFile, pdfHead]) ∧
    Walks (storeOf misreadHost [rootWith 0x70 mixedDigest, pdfHead, mixedFile, pdfHead]) root.links blocks ∧
    assembleFile {} misreadHost (blocksNetwork [rootWith 0x70 mixedDigest, pdfHead, mixedFile, pdfHead]) 9 root 0 1 [] =
      some a ∧ a.outcome = .ok (data, t) ∧ ¬data <+: root.inlineData ++ walked blocks := by
  have hsha : ∀ a ∈ [rootWith 0x70 mixedDigest, pdfHead, mixedFile, pdfHead],
      ∀ b ∈ [rootWith 0x70 mixedDigest, pdfHead, mixedFile, pdfHead],
        misreadHost.sha256 a = misreadHost.sha256 b → a = b := by decide +kernel
  have hrun : (parseDagPb (rootWith 0x70 mixedDigest)).any (fun root =>
      (walkBlocks (storeOf misreadHost [rootWith 0x70 mixedDigest, pdfHead, mixedFile, pdfHead]) 9 root.links).any
        (fun blocks =>
          (assembleFile {} misreadHost (blocksNetwork [rootWith 0x70 mixedDigest, pdfHead, mixedFile, pdfHead]) 9 root 0 1
            []).any (fun a => a.outcome.toOption.any
              (fun file => !decide (file.1 <+: root.inlineData ++ walked blocks))))) = true := by decide +kernel
  obtain ⟨root, hroot, hrun⟩ := some_of_any hrun
  obtain ⟨blocks, hblocks, hrun⟩ := some_of_any hrun
  obtain ⟨a, ha, hrun⟩ := some_of_any hrun
  obtain ⟨⟨data, t⟩, hdata, hnot⟩ := ok_of_any hrun
  exact ⟨root, blocks, a, data, t, hroot, serves_blocks {} (injOn_of_list hsha), walks_of_walkBlocks hblocks, ha, hdata,
    by simpa using hnot⟩

theorem assembleFile_lossless_pdf : ∃ root blocks a data t, parseDagPb pdfRoot = some root ∧
    assembleFile {} pdfHost (blocksNetwork [pdfRoot, pdfLeaf]) 9 root 0 1 [] = some a ∧ a.outcome = .ok (data, t) ∧
    data <+: root.inlineData ++ walked blocks ∧
    (data <+: root.inlineData ++ walked blocks ↔
      Undropped {} pdfHost (blocksNetwork [pdfRoot, pdfLeaf]) root 0 1 [] ∨ Lossless root.inlineData.length blocks) := by
  have hsha : ∀ a ∈ [pdfRoot, pdfLeaf], ∀ b ∈ [pdfRoot, pdfLeaf], pdfHost.sha256 a = pdfHost.sha256 b → a = b := by
    decide +kernel
  have hrun : (parseDagPb pdfRoot).any (fun root =>
      (walkBlocks (storeOf pdfHost [pdfRoot, pdfLeaf]) 9 root.links).any (fun blocks =>
        decide (Lossless root.inlineData.length blocks) &&
          (assembleFile {} pdfHost (blocksNetwork [pdfRoot, pdfLeaf]) 9 root 0 1 []).any (fun a =>
            a.outcome.toOption.any fun file => !file.2))) = true := by decide +kernel
  obtain ⟨root, hroot, hrun⟩ := some_of_any hrun
  obtain ⟨blocks, hblocks, hrun⟩ := some_of_any hrun
  obtain ⟨hlossless, hrun⟩ := Bool.and_eq_true_iff.mp hrun
  obtain ⟨a, ha, hrun⟩ := some_of_any hrun
  obtain ⟨⟨data, t⟩, hdata, ht⟩ := ok_of_any hrun
  obtain ⟨hpre, hexact⟩ := assembleFile_lossless {} pdfHost _ _ (serves_blocks {} (injOn_of_list hsha)) root blocks
    (walks_of_walkBlocks hblocks) 9 0 1 [] a data t ha hdata
  exact ⟨root, blocks, a, data, t, hroot, ha, hdata, hpre (Or.inr (of_decide_eq_true hlossless)),
    hexact (Or.inl (by simpa using ht))⟩

end ObserverClub.Fetch
