import ObserverClub.FetchAgreement
import ObserverClub.Sniffing

namespace ObserverClub.Fetch

open Library Python UnixFs

/-- A UnixFS file as the tree of its blocks. -/
inductive Dag where
  | leaf (bytes : Bytes)
  | file (inline : Bytes) (kids : List Dag)

mutual

def Dag.content : Dag → Bytes
  | .leaf bytes => bytes
  | .file inline kids => inline ++ contents kids

def contents : List Dag → Bytes
  | [] => []
  | d :: ds => d.content ++ contents ds

end

def Plain (bytes : Bytes) : Prop :=
  ∀ node, parseDagPb bytes = some node →
    node.isDirectory = false ∧ ¬(node.isFile ∧ (node.inlineData ≠ [] ∨ node.links ≠ []))

mutual

/-- The tree is stored under the CID: raw leaves as they are, files as dag-pb nodes of type file or raw. -/
def Dag.HeldAt (host : Host) (store : Text → Option Bytes) : Dag → Text → Prop
  | .leaf bytes, cid => codecOf host cid = txt "raw" ∧ store cid = some bytes
  | .file inline kids, cid => codecOf host cid = txt "dag-pb" ∧ ∃ block node, store cid = some block ∧
      parseDagPb block = some node ∧ node.isFile = true ∧ node.inlineData = inline ∧ HeldAll host store kids node.links

def HeldAll (host : Host) (store : Text → Option Bytes) : List Dag → List Link → Prop
  | [], [] => True
  | d :: ds, l :: ls => d.HeldAt host store l.cid ∧ HeldAll host store ds ls
  | _, _ => False

end

theorem heldAt_file_iff {host : Host} {store : Text → Option Bytes} (inline : Bytes) {kids : List Dag} {cid : Text}
    {node : Node} (h : (store cid).bind parseDagPb = some node) :
    (codecOf host cid = txt "dag-pb" ∧ node.isFile = true ∧ node.inlineData = inline ∧ HeldAll host store kids node.links) ↔
      (Dag.file inline kids).HeldAt host store cid := by
  obtain ⟨block, hb, hp⟩ := Option.bind_eq_some_iff.mp h
  rw [Dag.HeldAt]
  constructor
  · rintro ⟨hpb, hf, hi, hk⟩
    exact ⟨hpb, block, node, hb, hp, hf, hi, hk⟩
  · rintro ⟨hpb, block', node', hb', hp', hf, hi, hk⟩
    obtain rfl := Option.some.inj (hb.symm.trans hb')
    obtain rfl := Option.some.inj (hp.symm.trans hp')
    exact ⟨hpb, hf, hi, hk⟩

theorem not_heldAt_file {host : Host} {store : Text → Option Bytes} {inline : Bytes} {kids : List Dag} {cid : Text}
    (h : (store cid).bind parseDagPb = none) : ¬(Dag.file inline kids).HeldAt host store cid := by
  rw [Dag.HeldAt]
  rintro ⟨-, block, node, hb, hp, -⟩
  rw [hb, Option.bind_some, hp] at h
  cases h

mutual

instance Dag.HeldAt.decidable (host : Host) (store : Text → Option Bytes) :
    (d : Dag) → (cid : Text) → Decidable (d.HeldAt host store cid)
  | .leaf bytes, cid =>
    decidable_of_iff (codecOf host cid = txt "raw" ∧ store cid = some bytes) (by rw [Dag.HeldAt])
  | .file inline kids, cid =>
    match h : (store cid).bind parseDagPb with
    | some node =>
      have := HeldAll.decidable host store kids node.links
      decidable_of_iff _ (heldAt_file_iff inline h)
    | none => isFalse (not_heldAt_file h)

instance HeldAll.decidable (host : Host) (store : Text → Option Bytes) :
    (ds : List Dag) → (ls : List Link) → Decidable (HeldAll host store ds ls)
  | [], [] => isTrue trivial
  | d :: ds, l :: ls =>
    have := Dag.HeldAt.decidable host store d l.cid
    have := HeldAll.decidable host store ds ls
    inferInstanceAs (Decidable (d.HeldAt host store l.cid ∧ HeldAll host store ds ls))
  | [], _ :: _ => isFalse fun h => h
  | _ :: _, [] => isFalse fun h => h

end

mutual

/-- A tree, with `n` bytes of the file before it, that the walk reads as what it is: no raw leaf looks like a
UnixFS node, no node is without data and links, and a node with both begins within the first bytes. -/
def Dag.CleanAt : ℕ → Dag → Prop
  | _, .leaf bytes => Plain bytes
  | n, .file inline kids => (inline ≠ [] ∨ kids ≠ []) ∧ (sniffMin ≤ n → inline = [] ∨ kids = []) ∧
      CleanAll (n + inline.length) kids

def CleanAll : ℕ → List Dag → Prop
  | _, [] => True
  | n, d :: ds => d.CleanAt n ∧ CleanAll (n + d.content.length) ds

end

/-- The same of a whole file, whose root is read in full. -/
def Dag.Clean : Dag → Prop
  | .leaf _ => True
  | .file inline kids => CleanAll inline.length kids

@[simp] theorem contents_append (ds es : List Dag) : contents (ds ++ es) = contents ds ++ contents es := by
  induction ds with
  | nil => simp [contents]
  | cons d ds ih => simp [contents, ih]

theorem cleanAll_append (n : ℕ) (ds es : List Dag) :
    CleanAll n (ds ++ es) ↔ CleanAll n ds ∧ CleanAll (n + (contents ds).length) es := by
  induction ds generalizing n with
  | nil => simp [CleanAll, contents]
  | cons d ds ih => simp only [List.cons_append, CleanAll, ih, contents, List.length_append, and_assoc, Nat.add_assoc]

theorem heldAll_append {host : Host} {store : Text → Option Bytes} {ds es : List Dag} {ls ms : List Link}
    (h : HeldAll host store ds ls) (h' : HeldAll host store es ms) : HeldAll host store (ds ++ es) (ls ++ ms) := by
  induction ds generalizing ls with
  | nil =>
    cases ls with
    | nil => exact h'
    | cons l ls => exact h.elim
  | cons d ds ih =>
    cases ls with
    | nil => exact h.elim
    | cons l ls => exact ⟨h.1, ih h.2⟩

theorem heldAll_cons {host : Host} {store : Text → Option Bytes} {ds : List Dag} {l : Link} {ls : List Link}
    (h : HeldAll host store ds (l :: ls)) : ∃ d es, ds = d :: es ∧ d.HeldAt host store l.cid ∧ HeldAll host store es ls := by
  cases ds with
  | nil => exact h.elim
  | cons d ds => exact ⟨d, ds, rfl, h.1, h.2⟩

theorem heldAll_nil {host : Host} {store : Text → Option Bytes} {ds : List Dag} (h : HeldAll host store ds []) : ds = [] := by
  cases ds with
  | nil => rfl
  | cons d ds => exact h.elim

theorem kids_eq_nil_iff {host : Host} {store : Text → Option Bytes} {ds : List Dag} {ls : List Link}
    (h : HeldAll host store ds ls) : ds = [] ↔ ls = [] := by
  cases ds with
  | nil =>
    cases ls with
    | nil => simp
    | cons l ls => exact h.elim
  | cons d ds =>
    cases ls with
    | nil => exact h.elim
    | cons l ls => simp

theorem isDirectory_of_isFile {node : Node} (h : node.isFile = true) : node.isDirectory = false := by
  simp only [Node.isFile, Bool.or_eq_true, decide_eq_true_eq] at h
  obtain h | h := h
  · rw [Node.isDirectory, h]
    decide
  · rw [Node.isDirectory, h]
    decide

theorem childBytes_plain {bytes : Bytes} (h : Plain bytes) : childBytes bytes = (bytes, []) := by
  unfold childBytes
  cases hp : parseDagPb bytes with
  | none => rfl
  | some node =>
    obtain ⟨hdir, hfile⟩ := h node hp
    simp only [hdir, Bool.false_eq_true, if_false]
    exact if_neg hfile

theorem childBytes_file {host : Host} {store : Text → Option Bytes} {block : Bytes} {node : Node} {kids : List Dag}
    (hp : parseDagPb block = some node) (hfile : node.isFile = true) (hkids : HeldAll host store kids node.links)
    (hsome : node.inlineData ≠ [] ∨ kids ≠ []) : childBytes block = (node.inlineData, node.links) := by
  have hlinks : node.inlineData ≠ [] ∨ node.links ≠ [] :=
    hsome.imp_right fun h hl => h ((kids_eq_nil_iff hkids).mpr hl)
  simp only [childBytes, hp, isDirectory_of_isFile hfile, Bool.false_eq_true, if_false]
  exact if_pos ⟨hfile, hlinks⟩

theorem childBytes_held {host : Host} {store : Text → Option Bytes} {d : Dag} {cid : Text} {block : Bytes} {n : ℕ}
    (hd : d.HeldAt host store cid) (hc : d.CleanAt n) (hb : store cid = some block) :
    ∃ kids, HeldAll host store kids (childBytes block).2 ∧ d.content = (childBytes block).1 ++ contents kids ∧
      CleanAll (n + (childBytes block).1.length) kids ∧ (sniffMin ≤ n → (childBytes block).1 = [] ∨ (childBytes block).2 = []) := by
  cases d with
  | leaf bytes =>
    rw [Dag.HeldAt] at hd
    rw [Dag.CleanAt] at hc
    obtain rfl : bytes = block := Option.some.inj (hd.2.symm.trans hb)
    rw [childBytes_plain hc]
    exact ⟨[], trivial, by simp [Dag.content, contents], trivial, fun _ => Or.inr rfl⟩
  | file inline kids =>
    rw [Dag.HeldAt] at hd
    rw [Dag.CleanAt] at hc
    obtain ⟨-, block', node, hb', hp, hfile, rfl, hkids⟩ := hd
    obtain rfl : block' = block := Option.some.inj (hb'.symm.trans hb)
    obtain ⟨hne, hboth, hclean⟩ := hc
    rw [childBytes_file hp hfile hkids hne]
    exact ⟨kids, hkids, rfl, hclean, fun hn => (hboth hn).imp_right (kids_eq_nil_iff hkids).mp⟩

section Serial

variable {cfg : Settings} {host : Host} {net : Network} {store : Text → Option Bytes} {content : Bytes} {offset : ℕ}

/-- Whatever is got for a CID is the block stored under it. Nothing may be got. -/
def Serves (cfg : Settings) (host : Host) (net : Network) (store : Text → Option Bytes) : Prop :=
  ∀ n cid offset block, getBlockEx cfg host (net n) cid offset = .ok block → store cid = some block

theorem Serves.getBlock (h : Serves cfg host net store) (n : ℕ) (cid : Text) (offset : ℕ) (block : Bytes)
    (hb : getBlock cfg host (net n) cid offset = some block) : store cid = some block := by
  unfold Fetch.getBlock at hb
  cases hg : getBlockEx cfg host (net n) cid offset with
  | error e =>
    rw [hg] at hb
    cases hb
  | ok b =>
    rw [hg] at hb
    cases hb
    exact h n cid offset _ hg

def Split (host : Host) (store : Text → Option Bytes) (content : Bytes) (w : Walk Link) : Prop :=
  ∃ dags, HeldAll host store dags w.pending ∧ content = w.out ++ contents dags ∧ CleanAll w.out.length dags

/-- A walk between two rounds: besides, a type is known exactly if there are enough bytes, and is theirs. -/
structure Reading (host : Host) (store : Text → Option Bytes) (content : Bytes) (w : Walk Link) : Prop where
  split : Split host store content w
  short : w.mime = none → w.out.length < sniffMin
  sniffed : ∀ m, w.mime = some m → sniffMin ≤ w.out.length ∧ sniff host w.out w.names = .ok m

theorem Split.sniffed {w w' : Walk Link} (h : Split host store content w) (hm : w.mime = none)
    (hs : w.sniffed host = .inl w') : Reading host store content w' := by
  obtain ⟨hlt, rfl⟩ | ⟨hle, mime, hmime, rfl⟩ := sniffed_inl hs
  · refine ⟨h, fun _ => hlt, fun m hm' => ?_⟩
    rw [hm] at hm'
    cases hm'
  · refine ⟨h, fun hn => ?_, fun m hm' => ⟨hle, ?_⟩⟩
    · cases hn
    · obtain rfl : mime = m := Option.some.inj hm'
      exact hmime

theorem Split.extended {w : Walk Link} {l : Link} {rest : List Link} {block : Bytes} (h : Split host store content w)
    (hp : w.pending = l :: rest) (hb : store l.cid = some block) :
    Split host store content (w.extended l rest block) := by
  obtain ⟨dags, hheld, hcontent, hclean⟩ := h
  rw [hp] at hheld
  obtain ⟨d, ds, rfl, hd, hds⟩ := heldAll_cons hheld
  obtain ⟨kids, hkids, hsplit, hkclean, -⟩ := childBytes_held hd hclean.1 hb
  refine ⟨kids ++ ds, heldAll_append hkids hds, ?_, ?_⟩
  · simp only [hcontent, contents, hsplit, Walk.extended, contents_append, List.append_assoc]
  · simp only [Walk.extended, List.length_append]
    refine (cleanAll_append _ _ _).mpr ⟨hkclean, ?_⟩
    have hrest := hclean.2
    rw [hsplit, List.length_append, ← Nat.add_assoc] at hrest
    exact hrest

theorem Reading.go (hserves : Serves cfg host net store) {w w' : Walk Link} (h : Reading host store content w)
    (hstep : serialStep cfg host net offset w = .inl w') : Reading host store content w' := by
  by_cases hk : w.mime ≠ none ∨ w.pending = []
  · rw [serialStep_known hk] at hstep
    cases hstep
  · simp only [not_or, not_not] at hk
    obtain ⟨l, rest, hp⟩ := List.exists_cons_of_ne_nil hk.2
    cases hb : getBlock cfg host (net w.calls) l.cid offset with
    | none =>
      rw [serialStep_missing hk.1 hp hb] at hstep
      cases hstep
    | some block =>
      rw [serialStep_found hk.1 hp hb] at hstep
      cases hs : (w.extended l rest block).sniffed host with
      | inr a =>
        rw [hs] at hstep
        cases hstep
      | inl v =>
        rw [hs, Sum.elim_inl, Sum.inl.injEq] at hstep
        subst hstep
        exact (h.split.extended hp (hserves.getBlock _ _ _ _ hb)).sniffed hk.1 hs

theorem Reading.leave {w : Walk Link} {r : Walk Link ⊕ Assembled} (h : Reading host store content w)
    (hstep : serialStep cfg host net offset w = .inr r) : r.elim (Reading host store content) Failed := by
  by_cases hk : w.mime ≠ none ∨ w.pending = []
  · rw [serialStep_known hk, Sum.inr.injEq] at hstep
    exact hstep ▸ h
  · simp only [not_or, not_not] at hk
    obtain ⟨l, rest, hp⟩ := List.exists_cons_of_ne_nil hk.2
    cases hb : getBlock cfg host (net w.calls) l.cid offset with
    | none =>
      rw [serialStep_missing hk.1 hp hb, Sum.inr.injEq] at hstep
      exact hstep ▸ failed_truncated _ _
    | some block =>
      rw [serialStep_found hk.1 hp hb] at hstep
      cases hs : (w.extended l rest block).sniffed host with
      | inl v =>
        rw [hs] at hstep
        cases hstep
      | inr a =>
        rw [hs, Sum.elim_inr, Sum.inr.injEq] at hstep
        obtain ⟨-, e, -, rfl⟩ := sniffed_inr hs
        exact hstep ▸ failed_raised _ e

end Serial

section Waves

variable {cfg : Settings} {host : Host} {net : Network} {store : Text → Option Bytes} {content : Bytes}
  {offset budget maxBlocks : ℕ}

inductive Stands (host : Host) (store : Text → Option Bytes) : ℕ → List Entry → Bytes → Prop where
  | nil (n : ℕ) : Stands host store n [] []
  | link {n : ℕ} {l : Link} {d : Dag} {rest : List Entry} {bytes : Bytes} (held : d.HeldAt host store l.cid)
      (clean : d.CleanAt n) (tail : Stands host store (n + d.content.length) rest bytes) :
      Stands host store n (.link l :: rest) (d.content ++ bytes)
  | resolved {n : ℕ} {data : Bytes} {rest : List Entry} {bytes : Bytes}
      (tail : Stands host store (n + data.length) rest bytes) : Stands host store n (.resolved data :: rest) (data ++ bytes)

theorem Stands.append {n : ℕ} {xs ys : List Entry} {a b : Bytes} (h : Stands host store n xs a)
    (h' : Stands host store (n + a.length) ys b) : Stands host store n (xs ++ ys) (a ++ b) := by
  induction h with
  | nil n => simpa using h'
  | link held clean tail ih =>
    rw [List.append_assoc]
    rw [List.length_append, ← Nat.add_assoc] at h'
    exact .link held clean (ih h')
  | resolved tail ih =>
    rw [List.append_assoc]
    rw [List.length_append, ← Nat.add_assoc] at h'
    exact .resolved (ih h')

theorem Stands.split {n : ℕ} {xs ys : List Entry} {bytes : Bytes} (h : Stands host store n (xs ++ ys) bytes) :
    ∃ a b, bytes = a ++ b ∧ Stands host store n xs a ∧ Stands host store (n + a.length) ys b := by
  induction xs generalizing n bytes with
  | nil => exact ⟨[], bytes, rfl, .nil n, h⟩
  | cons x xs ih =>
    cases h with
    | link held clean tail =>
      obtain ⟨a, b, rfl, ha, hb⟩ := ih tail
      refine ⟨_, b, (List.append_assoc _ _ _).symm, .link held clean ha, ?_⟩
      rwa [List.length_append, ← Nat.add_assoc]
    | resolved tail =>
      obtain ⟨a, b, rfl, ha, hb⟩ := ih tail
      refine ⟨_, b, (List.append_assoc _ _ _).symm, .resolved ha, ?_⟩
      rwa [List.length_append, ← Nat.add_assoc]

theorem stands_links {n : ℕ} {dags : List Dag} {links : List Link} (h : HeldAll host store dags links)
    (hc : CleanAll n dags) : Stands host store n (links.map .link) (contents dags) := by
  induction links generalizing n dags with
  | nil =>
    rw [heldAll_nil h]
    exact .nil n
  | cons l links ih =>
    obtain ⟨d, ds, rfl, hd, hds⟩ := heldAll_cons h
    exact .link hd hc.1 (ih hds hc.2)

theorem Stands.flush {out : Bytes} {pending : List Entry} {bytes : Bytes} (h : Stands host store out.length pending bytes) :
    ∃ rest, Stands host store (flush out pending).1.length (flush out pending).2 rest ∧
      out ++ bytes = (flush out pending).1 ++ rest ∧ out <+: (flush out pending).1 := by
  induction pending generalizing out bytes with
  | nil => exact ⟨bytes, h, rfl, List.prefix_refl out⟩
  | cons e pending ih =>
    cases h with
    | link held clean tail => exact ⟨_, .link held clean tail, rfl, List.prefix_refl out⟩
    | @resolved _ data _ bytes tail =>
      rw [← List.length_append] at tail
      obtain ⟨rest, hrest, heq, hpre⟩ := ih tail
      exact ⟨rest, hrest, by rw [← List.append_assoc]; exact heq, (List.prefix_append out data).trans hpre⟩

theorem takeWave_split (room : ℕ) (pending : List Entry) :
    pending = (takeWave room pending).1.map .link ++ (takeWave room pending).2 := by
  induction room generalizing pending with
  | zero => rfl
  | succ room ih =>
    cases pending with
    | nil => rfl
    | cons e pending =>
      cases e with
      | link l =>
        simp only [takeWave, List.map_cons, List.cons_append]
        rw [← ih pending]
      | resolved data => rfl

theorem stands_entriesOf {n : ℕ} {d : Dag} {cid : Text} {block : Bytes} (hn : sniffMin ≤ n)
    (hd : d.HeldAt host store cid) (hc : d.CleanAt n) (hb : store cid = some block) :
    Stands host store n (entriesOf block) d.content := by
  obtain ⟨kids, hkids, hsplit, hclean, hone⟩ := childBytes_held hd hc hb
  unfold entriesOf
  dsimp only
  rw [hsplit]
  split_ifs with hlinks hdata
  · have hnil := (hone hn).resolve_right hlinks
    rw [hnil] at hclean ⊢
    exact stands_links hkids hclean
  · rw [not_not] at hlinks
    rw [hlinks] at hkids
    rw [heldAll_nil hkids]
    exact .resolved (.nil _)
  · rw [not_not] at hlinks hdata
    rw [hlinks] at hkids
    rw [heldAll_nil hkids, hdata]
    exact .nil n

theorem stands_replacement {wave : List Link} {blocks : List (Option Bytes)} {entries : List Entry} {n : ℕ} {bytes : Bytes}
    (hn : sniffMin ≤ n) (h : Stands host store n (wave.map .link) bytes)
    (hf : List.Forall₂ (Fetched fun cid block => store cid = some block) (wave.map Link.cid) blocks)
    (hr : replacement blocks = some entries) : Stands host store n entries bytes := by
  induction wave generalizing n bytes blocks entries with
  | nil =>
    cases hf
    cases h
    obtain rfl : [] = entries := Option.some.inj hr
    exact .nil n
  | cons l wave ih =>
    cases hf with
    | @cons _ o _ blocks ho hf =>
      cases h with
      | link held clean tail =>
        cases o with
        | none => simp [replacement] at hr
        | some block =>
          simp only [replacement, Option.map_eq_some_iff] at hr
          obtain ⟨rest, hrest, rfl⟩ := hr
          exact (stands_entriesOf hn held clean (ho block rfl)).append (ih (Nat.le_add_right_of_le hn) tail hf hrest)

structure Waiting (host : Host) (store : Text → Option Bytes) (content start : Bytes) (w : Walk Entry) : Prop where
  stands : ∃ bytes, Stands host store w.out.length w.pending bytes ∧ content = w.out ++ bytes
  started : start <+: w.out
  enough : sniffMin ≤ w.out.length

variable {start : Bytes}

theorem Waiting.go (hserves : Serves cfg host net store) {w w' : Walk Entry} (h : Waiting host store content start w)
    (hstep : waveStep cfg host net offset budget maxBlocks w = .inl w') : Waiting host store content start w' := by
  by_cases hw : Waving cfg budget maxBlocks w
  · rw [waveStep_go host net offset hw rfl] at hstep
    obtain ⟨bytes, hstands, hcontent⟩ := h.stands
    rw [takeWave_split (min cfg.childConcurrency (maxBlocks - w.used)) w.pending] at hstands
    obtain ⟨a, b, rfl, ha, hb⟩ := hstands.split
    have hf := fetchChildren_fetched hserves.getBlock offset w.calls
      ((takeWave (min cfg.childConcurrency (maxBlocks - w.used)) w.pending).1.map Link.cid)
    cases hr : replacement (fetchChildren cfg host net offset w.calls
        ((takeWave (min cfg.childConcurrency (maxBlocks - w.used)) w.pending).1.map Link.cid)).1 with
    | none =>
      rw [hr] at hstep
      cases hstep
    | some entries =>
      rw [hr, Option.elim_some, Sum.inl.injEq] at hstep
      subst hstep
      obtain ⟨rest, hrest, heq, hpre⟩ := ((stands_replacement h.enough ha hf hr).append hb).flush
      refine ⟨⟨rest, hrest, ?_⟩, h.started.trans hpre, h.enough.trans hpre.length_le⟩
      exact hcontent.trans heq
  · rw [waveStep_stop hw] at hstep
    cases hstep

theorem Waiting.leave {w : Walk Entry} {r : Walk Entry ⊕ Assembled} (h : Waiting host store content start w)
    (hstep : waveStep cfg host net offset budget maxBlocks w = .inr r) :
    r.elim (Waiting host store content start) Failed := by
  by_cases hw : Waving cfg budget maxBlocks w
  · rw [waveStep_go host net offset hw rfl] at hstep
    cases hr : replacement (fetchChildren cfg host net offset w.calls
        ((takeWave (min cfg.childConcurrency (maxBlocks - w.used)) w.pending).1.map Link.cid)).1 with
    | none =>
      rw [hr, Option.elim_none, Sum.inr.injEq] at hstep
      exact hstep ▸ failed_truncated _ _
    | some entries =>
      rw [hr] at hstep
      cases hstep
  · rw [waveStep_stop hw, Sum.inr.injEq] at hstep
    exact hstep ▸ h

end Waves

section Whole

variable {cfg : Settings} {host : Host} {net : Network} {store : Text → Option Bytes} {content : Bytes} {offset : ℕ}
  {root : Node} {fuel : ℕ}

theorem assembleWaves_whole (hserves : Serves cfg host net store) {mime : Text} {w : Walk Link} {a : Assembled}
    {data : Bytes} (h : Reading host store content w) (hm : w.mime = some mime)
    (ha : assembleWaves cfg host net fuel root offset mime w = some a) (hdata : a.outcome = .ok (data, false)) :
    data = content := by
  unfold assembleWaves at ha
  dsimp only at ha
  split_ifs at ha with hlimit
  · rw [Option.some.injEq] at ha
    subst ha
    exact absurd hdata (failed_truncated _ _ _)
  · obtain ⟨dags, hheld, hcontent, hclean⟩ := h.split
    have hstart : Waiting host store content w.out { w with pending := w.pending.map Entry.link } :=
      ⟨⟨contents dags, stands_links hheld hclean, hcontent⟩, List.prefix_refl _, (h.sniffed mime hm).1⟩
    cases hi : Loop.iterate (waveStep cfg host net offset (budgetFor cfg mime root.filesize).1
        (budgetFor cfg mime root.filesize).2) fuel { w with pending := w.pending.map Entry.link } with
    | none =>
      rw [hi] at ha
      cases ha
    | some r =>
      rw [hi] at ha
      have hend := Loop.iterate_invariant (fun _ _ hs hstep => hs.go hserves hstep)
        (fun _ _ hs hstep => hs.leave hstep) hstart hi
      cases r with
      | inr a' =>
        obtain rfl : a' = a := Option.some.inj ha
        exact absurd hdata (hend data)
      | inl v =>
        obtain rfl := Option.some.inj ha
        obtain ⟨⟨bytes, hstands, hsplit⟩, -, -⟩ := hend
        simp only [Walk.ended, finish, Except.ok.injEq, Prod.mk.injEq, Bool.or_eq_false_iff, Bool.not_eq_false',
          List.isEmpty_iff, decide_eq_false_iff_not, not_lt] at hdata
        obtain ⟨rfl, ⟨hpending, hlen⟩, -⟩ := hdata
        rw [hpending] at hstands
        cases hstands
        rw [hsplit, List.append_nil, List.take_of_length_le hlen]

theorem sniff_of_magic {buf : Bytes} {names : List Text}
    (hf : Extract.filenameExtMime host.chars (pickFilename host.chars names) = none) (h : ascii "%PDF" <+: buf) :
    sniff host buf names = .ok pdf :=
  sniffMime_of_magic hf (List.prefix_take_iff.mpr ⟨h, by decide⟩)

theorem processable_of_magic {w : Walk Link} {m : Text} (hm : sniff host w.out w.names = .ok m)
    (hf : Extract.filenameExtMime host.chars (pickFilename host.chars w.names) = none) (h : ascii "%PDF" <+: w.out) :
    Extract.processable m = true := by
  rw [sniff_of_magic hf h, Except.ok.injEq] at hm
  rw [← hm]
  decide

theorem assembleRest_whole (hserves : Serves cfg host net store) {w : Walk Link} {a : Assembled} {data : Bytes}
    (h : Reading host store content w) (ha : assembleRest cfg host net fuel root offset w = some a)
    (hdata : a.outcome = .ok (data, false))
    (hpdf : Extract.sniffMime host.py host.chars data none (pickFilename host.chars a.names) = .ok pdf) : data = content := by
  unfold assembleRest at ha
  cases hp : w.mime.filter Extract.processable with
  | some mime =>
    rw [hp] at ha
    exact assembleWaves_whole hserves h (Option.filter_eq_some_iff.mp hp).1 ha hdata
  | none =>
    rw [hp] at ha
    obtain rfl := Option.some.inj ha
    simp only [Walk.ended, Except.ok.injEq, Prod.mk.injEq] at hdata
    obtain ⟨rfl, -⟩ := hdata
    obtain ⟨hf, hmagic⟩ := sniffMime_pdf hpdf
    have hout := hmagic.trans (List.take_prefix _ _)
    cases hm : w.mime with
    | none =>
      have hshort := h.short hm
      have hlen := hout.length_le
      have hfour : (ascii "%PDF").length = sniffMin := by decide
      omega
    | some m =>
      have hproc := processable_of_magic (h.sniffed m hm).2 hf hout
      rw [hm, Option.filter_some, hproc] at hp
      cases hp

theorem assembleFile_whole (hserves : Serves cfg host net store) {calls : ℕ} {names : List Text} {a : Assembled} {data : Bytes}
    (h : Split host store content (started root calls names))
    (ha : assembleFile cfg host net fuel root offset calls names = some a) (hdata : a.outcome = .ok (data, false))
    (hpdf : Extract.sniffMime host.py host.chars data none (pickFilename host.chars a.names) = .ok pdf) : data = content := by
  have hends {w : Walk Link} (hs : (started root calls names).sniffed host = .inl w) {r : Walk Link ⊕ Assembled}
      (hi : Loop.iterate (serialStep cfg host net offset) fuel w = some r) :=
    Loop.iterate_invariant (fun _ _ hw hstep => hw.go hserves hstep) (fun _ _ hw hstep => hw.leave hstep) (h.sniffed rfl hs) hi
  cases assembleFile_cases ha with
  | @raised e begun same =>
    rw [same] at hdata
    exact absurd hdata (failed_raised _ e _)
  | @unworthy w m begun known unworthy same =>
    subst same
    simp only [Walk.ended, Except.ok.injEq, Prod.mk.injEq, and_true] at hdata
    subst hdata
    obtain ⟨hf, hmagic⟩ := sniffMime_pdf hpdf
    have hreading := h.sniffed rfl begun
    have hproc := processable_of_magic (hreading.sniffed m known).2 hf (hmagic.trans (List.take_prefix _ _))
    rw [unworthy] at hproc
    cases hproc
  | stopped begun run => exact absurd hdata (hends begun run data)
  | went begun run rest => exact assembleRest_whole hserves (hends begun run) rest hdata hpdf

/-- A sample of a clean file that is not flagged and sniffs as PDF is the whole file, whichever blocks were to
be had. -/
theorem fetchCid_whole (cfg : Settings) (host : Host) (net : Network) (store : Text → Option Bytes)
    (hserves : Serves cfg host net store) (dag : Dag) (cid : Text) (hheld : dag.HeldAt host store cid) (hclean : dag.Clean)
    (codec : Option Text) (hcodec : codec = none ∨ codec = some (codecOf host cid)) (fuel attempt : ℕ) (r : FetchResult)
    (h : fetchCid cfg host net fuel cid codec attempt = some (.ok r)) (hok : r.ok = true) (ht : r.truncated = false)
    (hpdf : Extract.sniffMime host.py host.chars r.data none r.filename = .ok pdf) : r.data = dag.content := by
  have hown : (codec.filter (· ≠ [])).getD (codecOf host cid) = codecOf host cid := by
    obtain rfl | rfl := hcodec
    · rfl
    · rw [Option.filter_some]
      split_ifs <;> rfl
  unfold fetchCid at h
  rw [hown] at h
  dsimp only at h
  cases hb : getBlockEx cfg host (net 0) cid attempt with
  | error e =>
    rw [hb, Option.some.injEq, Except.ok.injEq] at h
    subst h
    cases hok
  | ok block =>
    rw [hb] at h
    dsimp only at h
    have hstored := hserves _ _ _ _ hb
    cases dag with
    | leaf bytes =>
      rw [Dag.HeldAt] at hheld
      obtain ⟨hraw, hbytes⟩ := hheld
      rw [if_pos (by rw [hraw]; decide), Option.some.injEq, Except.ok.injEq] at h
      subst h
      exact Option.some.inj (hstored.symm.trans hbytes)
    | file inline kids =>
      rw [Dag.HeldAt] at hheld
      obtain ⟨hpb, block', node, hblock, hparse, hfile, hinline, hkids⟩ := hheld
      obtain rfl : block = block' := Option.some.inj (hstored.symm.trans hblock)
      rw [if_neg (by rw [hpb]; decide), hparse] at h
      dsimp only at h
      rw [isDirectory_of_isFile hfile, if_neg Bool.false_ne_true] at h
      obtain ⟨a, ha, hr⟩ := Option.map_eq_some_iff.mp h
      cases hoa : a.outcome with
      | error e =>
        rw [hoa] at hr
        cases hr
      | ok file =>
        rw [hoa] at hr
        cases hr
        obtain ⟨data, truncated⟩ := file
        cases ht
        have hsplit : Split host store (Dag.file inline kids).content (started node 1 (namesOf node.links)) := by
          subst hinline
          exact ⟨kids, hkids, rfl, hclean⟩
        exact assembleFile_whole hserves hsplit ha hoa hpdf

end Whole

section Misreadings

variable {host : Host} {blocks : List Bytes}

def blocksNetwork (blocks : List Bytes) : Network := fun n =>
  ⟨.timeout, fun _ => blocks[n]?.elim .timeout (.reply 200)⟩

def storeOf (host : Host) (blocks : List Bytes) (cid : Text) : Option Bytes := blocks.find? (verifyBlock host cid)

theorem mem_of_served {b : Bytes} (h : Served (blocksNetwork blocks) b) : b ∈ blocks := by
  obtain ⟨n, ⟨status, hk⟩ | ⟨i, status, hg⟩⟩ := h
  · cases hk
  · simp only [blocksNetwork] at hg
    cases hb : blocks[n]? with
    | none =>
      rw [hb] at hg
      cases hg
    | some block =>
      rw [hb] at hg
      cases hg
      exact List.mem_of_getElem? hb

theorem serves_blocks (cfg : Settings) (hsha : Set.InjOn host.sha256 {b | b ∈ blocks}) :
    Serves cfg host (blocksNetwork blocks) (storeOf host blocks) := by
  intro n cid offset block hb
  obtain ⟨hs, hv⟩ := getBlockEx_ok hb
  have hmem := mem_of_served hs
  obtain ⟨found, hfound⟩ := Option.isSome_iff_exists.mp (List.find?_isSome.mpr ⟨block, hmem, hv⟩)
  have heq := verifyBlock_unique hsha (List.mem_of_find?_eq_some hfound) hmem (List.find?_some hfound) hv
  rw [storeOf, hfound, heq]

def Misread (host : Host) (blocks : List Bytes) (cid : Text) (dag : Dag) : Prop :=
  Serves {} host (blocksNetwork blocks) (storeOf host blocks) ∧ dag.HeldAt host (storeOf host blocks) cid ∧
    ∃ r, fetchCid {} host (blocksNetwork blocks) 9 cid none 0 = some (.ok r) ∧ r.ok = true ∧ r.truncated = false ∧
      Extract.sniffMime host.py host.chars r.data none r.filename = .ok pdf ∧ r.data ≠ dag.content

def pdfHead : Bytes := ascii "%PDF-1.4\n"

def emptyFile : Bytes := [0x0A, 2, 8, 2]

/-- Seven bytes that also spell a dag-pb file node with the data `x`. -/
def nodeLike : Bytes := [0x0A, 5, 8, 2, 0x12, 1, 0x78]

def dagLink (codec : UInt8) (digest : ℕ) : Bytes := [0x12, 38, 0x0A, 36, 1, codec, 0x12, 0x20] ++ Cid.bigEndian 32 digest

def headDigest : ℕ := 0xe5c62df5dab5c87b6a015ef3d43597074d1eec433b15f51aec63b8582d0e4ab4

def emptyFileDigest : ℕ := 0x1c0d4b6c5bd064d73661905fdf10c674f4bc096b3f0ec85908c664a02aa13dc8

def nodeLikeDigest : ℕ := 0x8955f703409f5311fa629e7d49d7ce7d3eac9cf0f1a83c69d76645827a613600

def mixedDigest : ℕ := 0xb8247e7fbe3c19ed7431d4a84bb0221818ebee82f4ca1f92ee9d294870d77f29

def mixedFile : Bytes := dagLink 0x55 headDigest ++ [0x0A, 10, 8, 2, 0x12, 6] ++ ascii "%%EOF\n"

def rootWith (codec : UInt8) (digest : ℕ) : Bytes := dagLink 0x55 headDigest ++ dagLink codec digest ++ emptyFile

def misreadHost : Host :=
  sampleHost [(pdfHead, headDigest), (emptyFile, emptyFileDigest), (nodeLike, nodeLikeDigest), (mixedFile, mixedDigest),
    (rootWith 0x70 emptyFileDigest, 0x4be8bfb9a07b0c047b9a1bd88793392d09deabe725ed2bdf1e63689d7338fe85),
    (rootWith 0x55 nodeLikeDigest, 0x219bf116c0456dec3a92a65c93d6a721bc355f9dae1763cccc48b958be862e47),
    (rootWith 0x70 mixedDigest, 0x9579da7e93f70b331e6a51b65300dafd7ab0de42929fd7dc6a44de97962cf16f)]

theorem injOn_of_list (h : ∀ a ∈ blocks, ∀ b ∈ blocks, host.sha256 a = host.sha256 b → a = b) :
    Set.InjOn host.sha256 {b | b ∈ blocks} := fun a ha b hb hab => h a ha b hb hab

theorem misread_of_run {cid : Text} {dag : Dag}
    (hsha : ∀ a ∈ blocks, ∀ b ∈ blocks, host.sha256 a = host.sha256 b → a = b)
    (hheld : dag.HeldAt host (storeOf host blocks) cid)
    (hrun : (fetchCid {} host (blocksNetwork blocks) 9 cid none 0).any (fun o => o.toOption.any (fun r =>
      r.ok && !r.truncated && Extract.sniffMime host.py host.chars r.data none r.filename = .ok pdf &&
        r.data ≠ dag.content)) = true) : Misread host blocks cid dag := by
  obtain ⟨o, ho, hr⟩ := some_of_any hrun
  obtain ⟨r, rfl, hfile⟩ := ok_of_any hr
  simp only [Bool.and_eq_true, Bool.not_eq_true', decide_eq_true_eq] at hfile
  exact ⟨serves_blocks {} (injOn_of_list hsha), hheld, r, ho, hfile.1.1.1, hfile.1.1.2, hfile.1.2, hfile.2⟩

theorem fetchCid_misreads :
    Misread misreadHost [rootWith 0x70 emptyFileDigest, pdfHead, emptyFile]
        (txt "bafybeicl5c73tid3bqchxgq33cdzgojnbhpkxzzf5uv56htdncoxgoh6qu")
        (.file [] [.leaf pdfHead, .file [] []]) ∧
      Misread misreadHost [rootWith 0x55 nodeLikeDigest, pdfHead, nodeLike]
        (txt "bafybeibbtpyrnqcfnxwdvevglsj5njzbxq2v7hnoc5r4ztcixfml5broi4")
        (.file [] [.leaf pdfHead, .leaf nodeLike]) ∧
      Misread misreadHost [rootWith 0x70 mixedDigest, pdfHead, mixedFile, pdfHead]
        (txt "bafybeievphnh5e7xbmzr42srwzjqbwx5pkyn4qust7l5y2se32lzmlhrn4")
        (.file [] [.leaf pdfHead, .file (ascii "%%EOF\n") [.leaf pdfHead]]) := by
  refine ⟨misread_of_run ?_ ?_ ?_, misread_of_run ?_ ?_ ?_, misread_of_run ?_ ?_ ?_⟩ <;> decide +kernel

theorem fetchCid_whole_pdf : ∃ r, fetchCid {} pdfHost (blocksNetwork [pdfRoot, pdfLeaf]) 9 pdfCid none 0 = some (.ok r) ∧
    r.data = (Dag.file [] [.leaf pdfLeaf]).content := by
  have hsha : ∀ a ∈ [pdfRoot, pdfLeaf], ∀ b ∈ [pdfRoot, pdfLeaf], pdfHost.sha256 a = pdfHost.sha256 b → a = b := by
    decide +kernel
  have hheld : (Dag.file [] [.leaf pdfLeaf]).HeldAt pdfHost (storeOf pdfHost [pdfRoot, pdfLeaf]) pdfCid := by
    decide +kernel
  have hclean : (Dag.file [] [.leaf pdfLeaf]).Clean := by
    refine ⟨fun node hnode => ?_, trivial⟩
    have hparse : parseDagPb pdfLeaf = none := by decide +kernel
    rw [hparse] at hnode
    cases hnode
  have hrun : (fetchCid {} pdfHost (blocksNetwork [pdfRoot, pdfLeaf]) 9 pdfCid none 0).any (fun o =>
      o.toOption.any (fun r => r.ok && !r.truncated &&
        Extract.sniffMime pdfHost.py pdfHost.chars r.data none r.filename = .ok pdf)) = true := by decide +kernel
  obtain ⟨o, ho, hr⟩ := some_of_any hrun
  obtain ⟨r, rfl, hfile⟩ := ok_of_any hr
  simp only [Bool.and_eq_true, Bool.not_eq_true', decide_eq_true_eq] at hfile
  exact ⟨r, ho, fetchCid_whole {} pdfHost _ _ (serves_blocks {} (injOn_of_list hsha)) _ pdfCid hheld hclean none
    (Or.inl rfl) 9 0 r ho hfile.1.1 hfile.1.2 hfile.2⟩

end Misreadings

end ObserverClub.Fetch
