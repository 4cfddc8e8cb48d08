import ObserverClub.FetchAvailable

namespace ObserverClub.Fetch

open Library Python UnixFs

mutual

def Dag.OneSided : Dag → Prop
  | .leaf _ => False
  | .file inline kids => (inline ≠ [] ∧ kids = [] ∨ inline = [] ∧ kids ≠ []) ∧ AllOneSided kids

def AllOneSided : List Dag → Prop
  | [] => True
  | d :: ds => d.OneSided ∧ AllOneSided ds

end

def Sided (block : Bytes) : Prop :=
  (childBytes block).1 ≠ [] ∧ (childBytes block).2 = [] ∨ (childBytes block).1 = [] ∧ (childBytes block).2 ≠ []

section Trees

variable {host : Host} {store : Text → Option Bytes}

theorem childBytes_oneSided {d : Dag} {cid : Text} {block : Bytes} (hd : d.HeldAt host store cid) (hs : d.OneSided)
    (hb : store cid = some block) :
    Sided block ∧ ∃ kids, HeldAll host store kids (childBytes block).2 ∧ AllOneSided kids ∧
      d.content = (childBytes block).1 ++ contents kids := by
  cases d with
  | leaf bytes =>
    rw [Dag.OneSided] at hs
    exact hs.elim
  | file inline kids =>
    rw [Dag.HeldAt] at hd
    rw [Dag.OneSided] at hs
    obtain ⟨-, block', node, hb', hp, hfile, rfl, hkids⟩ := hd
    obtain rfl : block' = block := Option.some.inj (hb'.symm.trans hb)
    have hiff := kids_eq_nil_iff hkids
    have hside : node.inlineData ≠ [] ∧ node.links = [] ∨ node.inlineData = [] ∧ node.links ≠ [] :=
      hs.1.imp (And.imp_right hiff.mp) (And.imp_right fun h hl => h (hiff.mpr hl))
    rw [Sided, childBytes_file hp hfile hkids (hs.1.imp And.left And.right)]
    exact ⟨hside, kids, hkids, hs.2, rfl⟩

theorem walked_oneSided {kids : List Dag} {links : List Link} {blocks : List Bytes} (hk : HeldAll host store kids links)
    (hs : AllOneSided kids) (h : Walks store links blocks) : walked blocks = contents kids ∧ ∀ b ∈ blocks, Sided b := by
  induction h generalizing kids with
  | nil =>
    rw [heldAll_nil hk]
    exact ⟨rfl, fun b hb => absurd hb List.not_mem_nil⟩
  | @cons l links block inner outer found below after ihBelow ihAfter =>
    obtain ⟨d, ds, rfl, hd, hds⟩ := heldAll_cons hk
    obtain ⟨hside, kids', hkids, hsides, hcontent⟩ := childBytes_oneSided hd hs.1 found
    obtain ⟨hinner, hinners⟩ := ihBelow hkids hsides
    obtain ⟨houter, houters⟩ := ihAfter hds hs.2
    constructor
    · simp only [walked, List.flatMap_cons, List.flatMap_append] at hinner houter ⊢
      rw [hinner, houter, contents, hcontent, List.append_assoc]
    · intro b hb
      obtain rfl | hb := List.mem_cons.mp hb
      · exact hside
      · exact (List.mem_append.mp hb).elim (hinners b) (houters b)

theorem Sided.kept {block : Bytes} (h : Sided block) : keptBytes block = (childBytes block).1 :=
  keptBytes_eq (h.symm.imp And.left And.right)

theorem Queued.bytes_ne_nil {entries : List Entry} {blocks : List Bytes} {bytes : Bytes}
    (h : Queued store keptBytes entries blocks bytes) (hs : ∀ b ∈ blocks, Sided b) {l : Link} {rest : List Entry}
    (he : entries = .link l :: rest) : bytes ≠ [] := by
  induction h generalizing l rest with
  | nil => cases he
  | resolved => cases he
  | @link _ block _ inner outer a b found below after ih _ =>
    obtain ⟨hside, hsides⟩ := List.forall_mem_cons.mp hs
    have hkept := hside.kept
    obtain ⟨hdata, -⟩ | ⟨-, hlinks⟩ := hside
    · simp [hkept, hdata]
    · obtain ⟨l', links, hl⟩ := List.exists_cons_of_ne_nil hlinks
      have ha := ih (fun x hx => hsides x (List.mem_append_left _ hx)) 
        (show _ = Entry.link l' :: links.map Entry.link by rw [hl, List.map_cons])
      simp [ha]

theorem Queued.found {wave : List Link} {blocks : List Bytes} {bytes : Bytes}
    (h : Queued store keptBytes (wave.map .link) blocks bytes) : ∀ cid ∈ wave.map Link.cid, (store cid).isSome = true := by
  induction wave generalizing blocks bytes with
  | nil =>
    intro cid hcid
    cases hcid
  | cons l wave ih =>
    cases h with
    | link found below after =>
      rw [List.map_cons, List.forall_mem_cons]
      exact ⟨Option.isSome_iff_exists.mpr ⟨_, found⟩, ih after⟩

end Trees

section Runs

variable {cfg : Settings} {host : Host} {net : Network} {store : Text → Option Bytes} {content start : Bytes}
  {blocks : List Bytes} {total offset budget maxBlocks calls : ℕ} {full : List Text}

theorem pdf_magic {out : Bytes} (hpdf : ascii "%PDF" <+: content) (hout : out <+: content)
    (hlen : sniffMin ≤ out.length) : ascii "%PDF" <+: out :=
  List.prefix_of_prefix_length_le hpdf hout hlen

theorem sniff_unnamed {out : Bytes} (hlower : host.chars.lower [] = []) (hpdf : ascii "%PDF" <+: content)
    (hout : out <+: content) (hlen : sniffMin ≤ out.length) : sniff host out [] = .ok pdf := by
  have hname : Extract.filenameExtMime host.chars (pickFilename host.chars []) = none := by
    show (Extract.sourceExt.find? (fun e => e.1.isSuffixOf (host.chars.lower []))).map Prod.snd = none
    rw [hlower]
    decide
  exact sniff_of_magic hname (pdf_magic hpdf hout hlen)

theorem not_raised (hlower : host.chars.lower [] = []) (hpdf : ascii "%PDF" <+: start ++ walked blocks) :
    ¬Raised host start blocks := by
  rintro ⟨done, left, e, rfl, hlen, he⟩
  have hout : start ++ walked done <+: start ++ walked (done ++ left) := by
    rw [walked, walked, List.flatMap_append, ← List.append_assoc]
    exact List.prefix_append _ _
  rw [sniff_unnamed hlower hpdf hout hlen] at he
  cases he

theorem Steady.gathers {w : Walk Link} (h : Steady host store start blocks calls w) : w.out <+: start ++ walked blocks := by
  obtain ⟨done, left, rfl, -, hout, -⟩ := h.split
  rw [hout, walked, walked, List.flatMap_append, ← List.append_assoc]
  exact List.prefix_append _ _

theorem Steady.mime_pdf (hlower : host.chars.lower [] = []) {w : Walk Link} (hpdf : ascii "%PDF" <+: start ++ walked blocks)
    (h : Steady host store start blocks calls w) (hk : w.mime ≠ none ∨ w.pending = []) : w.mime = some pdf := by
  cases hm : w.mime with
  | some m =>
    obtain ⟨hlen, hsniff⟩ := h.late m hm
    rw [sniff_unnamed hlower hpdf h.gathers hlen, Except.ok.injEq] at hsniff
    rw [hsniff]
  | none =>
    obtain ⟨done, left, rfl, hwalks, hout, -⟩ := h.split
    rw [hk.resolve_left (not_not.mpr hm)] at hwalks
    cases hwalks
    rw [List.append_nil, ← hout] at hpdf
    have hearly := h.early hm
    have hfour := hpdf.length_le
    have hmin : (ascii "%PDF").length = sniffMin := by decide
    omega

structure Draining (store : Text → Option Bytes) (content : Bytes) (total calls : ℕ) (w : Walk Entry) : Prop where
  split : ∃ blocks bytes, Queued store keptBytes w.pending blocks bytes ∧ content = w.out ++ bytes ∧
    w.used + blocks.length = total ∧ ∀ b ∈ blocks, Sided b
  headed : ∀ data rest, w.pending ≠ .resolved data :: rest
  counted : w.calls = calls + w.requested.length

theorem flush_headed (out : Bytes) (pending : List Entry) (data : Bytes) (rest : List Entry) :
    (flush out pending).2 ≠ .resolved data :: rest := by
  induction pending generalizing out with
  | nil =>
    intro h
    cases h
  | cons e pending ih =>
    cases e with
    | link l =>
      intro h
      cases h
    | resolved data' => exact ih _

theorem Draining.drained {w : Walk Entry} (h : Draining store content total calls w) (hbudget : content.length ≤ budget)
    (hblocks : total ≤ maxBlocks) (hstop : ¬Waving cfg budget maxBlocks w) : w.pending = [] := by
  obtain ⟨blocks, bytes, hqueued, hcontent, htotal, hsided⟩ := h.split
  cases hp : w.pending with
  | nil => rfl
  | cons e rest =>
    cases e with
    | resolved data => exact absurd hp (h.headed data rest)
    | link l =>
      have hbytes := List.length_pos_iff.mpr (hqueued.bytes_ne_nil hsided hp)
      have hleft : 0 < blocks.length := by
        rw [hp] at hqueued
        cases hqueued
        exact Nat.succ_pos _
      have hlen := congrArg List.length hcontent
      rw [List.length_append] at hlen
      refine absurd ⟨by omega, by omega, ?_⟩ hstop
      have hroom : 1 ≤ min cfg.childConcurrency (maxBlocks - w.used) :=
        Nat.le_min.mpr ⟨Nat.le_max_left _ _, by omega⟩
      obtain ⟨room, hr⟩ := Nat.exists_eq_add_of_le' hroom
      rw [hr, hp]
      exact List.cons_ne_nil _ _

theorem Draining.spreads {w : Walk Entry} (h : Draining store content total calls w) (hw : Waving cfg budget maxBlocks w)
    (havail : Available cfg host net store offset w.calls
      ((takeWave (min cfg.childConcurrency (maxBlocks - w.used)) w.pending).1.map Link.cid)) :
    ∃ w', waveStep cfg host net offset budget maxBlocks w = .inl w' ∧ Draining store content total calls w' := by
  obtain ⟨blocks, bytes, hqueued, hcontent, htotal, hsided⟩ := h.split
  rw [waveStep_go host net offset hw rfl]
  have hsplit := takeWave_split (min cfg.childConcurrency (maxBlocks - w.used)) w.pending
  generalize takeWave (min cfg.childConcurrency (maxBlocks - w.used)) w.pending = taken at havail hsplit
  rw [hsplit] at hqueued
  obtain ⟨bs, cs, a, b, rfl, rfl, ha, hb⟩ := hqueued.split
  rw [fetchChildren_available havail ha.found]
  have hsome : ∀ o ∈ (taken.1.map Link.cid).map store, o.isSome = true := by
    intro o ho
    obtain ⟨cid, hcid, rfl⟩ := List.mem_map.mp ho
    exact ha.found cid hcid
  obtain ⟨entries, hentries⟩ := replacement_isSome hsome
  have hgot : List.Forall₂ (Fetched fun cid block => store cid = some block) (taken.1.map Link.cid)
      ((taken.1.map Link.cid).map store) := by
    apply List.forall₂_map_right_iff.mpr
    apply List.forall₂_same.mpr
    intro cid _ block hblock
    exact hblock
  obtain ⟨left, hleft, hcount, hsub⟩ := queued_replacement ha hgot hentries fun _ _ => rfl
  obtain ⟨rest, hrest, heq⟩ := (hleft.append hb).flush
  rw [hentries, Option.elim_some]
  refine ⟨_, rfl, ⟨left ++ cs, rest, hrest, hcontent.trans heq, ?_, ?_⟩, flush_headed _ _, ?_⟩
  · simp only [Walk.asked, List.length_append, hcount] at htotal ⊢
    omega
  · intro x hx
    exact (List.mem_append.mp hx).elim (fun hx => hsided x (List.mem_append_left _ (hsub hx)))
      (fun hx => hsided x (List.mem_append_right _ hx))
  · simp only [Walk.asked, h.counted, List.length_append, List.length_map]
    omega

theorem Draining.go (havail : Available cfg host net store offset calls full) {w w' : Walk Entry}
    (h : w.requested <+: full → Draining store content total calls w)
    (hstep : waveStep cfg host net offset budget maxBlocks w = .inl w') :
    w'.requested <+: full → Draining store content total calls w' := by
  intro hfull
  obtain ⟨hv, -⟩ | ⟨cids, rfl, hw, ⟨v, hv, hreq⟩ | ⟨a, hv, -⟩⟩ := waveStep_cases cfg host net offset budget maxBlocks w
  · cases hv.symm.trans hstep
  · obtain rfl := Sum.inl.inj (hv.symm.trans hstep)
    rw [hreq] at hfull
    have hdraining := h ((List.prefix_append _ _).trans hfull)
    have hwave := havail.later hfull
    rw [← hdraining.counted] at hwave
    obtain ⟨v', hv', hnext⟩ := hdraining.spreads hw hwave
    obtain rfl := Sum.inl.inj (hv'.symm.trans hstep)
    exact hnext
  · cases hv.symm.trans hstep

theorem Draining.leave (havail : Available cfg host net store offset calls full) {w : Walk Entry}
    {r : Walk Entry ⊕ Assembled} (h : w.requested <+: full → Draining store content total calls w)
    (hstep : waveStep cfg host net offset budget maxBlocks w = .inr r) :
    r.elim (fun v => (v.requested <+: full → Draining store content total calls v) ∧ ¬Waving cfg budget maxBlocks v)
      (fun a => ¬a.requested <+: full) := by
  obtain ⟨hv, hstop⟩ | ⟨cids, rfl, hw, ⟨v, hv, -⟩ | ⟨a, hv, hreq⟩⟩ := waveStep_cases cfg host net offset budget maxBlocks w
  · obtain rfl := Sum.inr.inj (hv.symm.trans hstep)
    exact ⟨h, hstop⟩
  · cases hv.symm.trans hstep
  · obtain rfl := Sum.inr.inj (hv.symm.trans hstep)
    rw [Sum.elim_inr, hreq]
    intro hfull
    have hdraining := h ((List.prefix_append _ _).trans hfull)
    have hwave := havail.later hfull
    rw [← hdraining.counted] at hwave
    obtain ⟨v, hnext, -⟩ := hdraining.spreads hw hwave
    cases hnext.symm.trans hstep

theorem finish_drained {w : Walk Entry} (h : Draining store content total calls w) (hp : w.pending = [])
    (hbudget : content.length ≤ budget) : finish budget (some content.length) w = (content, false) := by
  obtain ⟨blocks, bytes, hqueued, hcontent, -, -⟩ := h.split
  rw [hp] at hqueued
  cases hqueued
  rw [List.append_nil] at hcontent
  simp only [finish, hp, ← hcontent, List.take_of_length_le hbudget, List.isEmpty_nil, Option.any_some, lt_irrefl,
    Nat.not_lt.mpr hbudget, decide_false, Bool.not_true, Bool.or_false]

variable {root : Node} {fuel : ℕ}

theorem assembleWaves_complete {w : Walk Link} {a : Assembled} (hsize : root.filesize = some content.length)
    (hlen : content.length ≤ cfg.maxPdfBytes) (hcount : blocks.length ≤ cfg.maxPdfChildBlocks)
    (hcontent : content = start ++ walked blocks) (hsides : ∀ b ∈ blocks, Sided b)
    (hsteady : Steady host store start blocks calls w) (ha : assembleWaves cfg host net fuel root offset pdf w = some a)
    (havail : Available cfg host net store offset calls a.requested) : a.outcome = .ok (content, false) := by
  have hbudget : budgetFor cfg pdf root.filesize = (cfg.maxPdfBytes, cfg.maxPdfChildBlocks) := by
    rw [budgetFor, if_neg (not_not.mpr rfl), hsize, Option.any_some, if_neg]
    rw [decide_eq_true_eq]
    omega
  have hout : w.out.length ≤ content.length := by
    rw [hcontent]
    exact hsteady.gathers.length_le
  obtain ⟨done, left, rfl, hwalks, hdone, hused⟩ := hsteady.split
  have hleft : ∀ b ∈ left, Sided b := fun b hb => hsides b (List.mem_append_right _ hb)
  have hkept : left.flatMap keptBytes = walked left :=
    List.flatMap_congr fun b hb => (hleft b hb).kept
  have hstart : Draining store content (done ++ left).length calls { w with pending := w.pending.map Entry.link } := by
    refine ⟨⟨left, _, hwalks.queued, ?_, ?_, hleft⟩, ?_, hsteady.counted⟩
    · rw [hkept, hdone, hcontent, walked, walked, walked, List.flatMap_append, List.append_assoc]
    · rw [hused, List.length_append]
    · intro data rest hp
      cases hl : w.pending with
      | nil => simp [hl] at hp
      | cons l links => simp [hl] at hp
  unfold assembleWaves at ha
  dsimp only at ha
  rw [hbudget] at ha
  dsimp only at ha
  rw [if_neg (by omega)] at ha
  cases hi : Loop.iterate (waveStep cfg host net offset cfg.maxPdfBytes cfg.maxPdfChildBlocks) fuel
      { w with pending := w.pending.map Entry.link } with
  | none =>
    rw [hi] at ha
    cases ha
  | some r =>
    rw [hi] at ha
    have hend := Loop.iterate_invariant (fun _ _ hs hstep => Draining.go havail hs hstep)
      (fun _ _ hs hstep => Draining.leave havail hs hstep) (fun _ => hstart) hi
    cases r with
    | inr b =>
      obtain rfl := Option.some.inj ha
      exact absurd (List.prefix_refl _) hend
    | inl v =>
      obtain rfl := Option.some.inj ha
      have hdraining := hend.1 (List.prefix_refl _)
      have hp := hdraining.drained hlen hcount hend.2
      rw [Walk.ended, hsize, finish_drained hdraining hp hlen]

theorem assembleFile_total (hserves : Serves cfg host net store) {blocks : List Bytes} (hwalk : Walks store root.links blocks)
    (calls : ℕ) (names : List Text) (hblocks : blocks.length < fuel) (hf : cfg.maxPdfChildBlocks < fuel) :
    ∃ a, assembleFile cfg host net fuel root offset calls names = some a := by
  let Left (w : Walk Link) : Prop := (∃ left, Walks store w.pending left ∧ w.used + left.length = blocks.length) ∧
    w.requested.length = w.used ∧ (w.mime = none → w.out.length < sniffMin)
  have hsniffed {w w' : Walk Link} (h : (∃ left, Walks store w.pending left ∧ w.used + left.length = blocks.length) ∧
      w.requested.length = w.used) (hm : w.mime = none) (hs : w.sniffed host = .inl w') : Left w' ∧ w'.used = w.used := by
    obtain ⟨hlt, rfl⟩ | ⟨-, mime, -, rfl⟩ := sniffed_inl hs
    · exact ⟨⟨h.1, h.2, fun _ => hlt⟩, rfl⟩
    · refine ⟨⟨h.1, h.2, fun hn => ?_⟩, rfl⟩
      cases hn
  have hgo {w w' : Walk Link} (h : Left w) (hstep : serialStep cfg host net offset w = .inl w') :
      Left w' ∧ blocks.length - w'.used < blocks.length - w.used := by
    obtain ⟨⟨left, hleft, htotal⟩, hreq, hearly⟩ := h
    by_cases hk : w.mime ≠ none ∨ w.pending = []
    · rw [serialStep_known hk] at hstep
      cases hstep
    · simp only [not_or, not_not] at hk
      obtain ⟨l, rest, hp⟩ := List.exists_cons_of_ne_nil hk.2
      cases hb : getBlock cfg host (net w.calls) l.cid offset with
      | none =>
        rw [serialStep_missing hk.1 hp hb] at hstep
        cases hstep
      | some block =>
        rw [serialStep_found hk.1 hp hb] at hstep
        cases hs : (w.extended l rest block).sniffed host with
        | inr a =>
          rw [hs] at hstep
          cases hstep
        | inl v =>
          rw [hs, Sum.elim_inl, Sum.inl.injEq] at hstep
          subst hstep
          obtain ⟨more, rfl, hmore, -⟩ := walks_extended keptBytes (hearly hk.1) hp (hserves.getBlock _ _ _ _ hb) hleft
          rw [List.length_cons] at htotal
          have hused : (w.extended l rest block).used = w.used + 1 := rfl
          have hnext : (∃ left, Walks store (w.extended l rest block).pending left ∧
              (w.extended l rest block).used + left.length = blocks.length) ∧
              (w.extended l rest block).requested.length = (w.extended l rest block).used := by
            refine ⟨⟨more, hmore, by omega⟩, ?_⟩
            simp only [Walk.extended, Walk.follow, List.length_append, List.length_singleton, hreq]
          obtain ⟨hv, hvused⟩ := hsniffed hnext hk.1 hs
          exact ⟨hv, by omega⟩
  unfold assembleFile
  cases hs : (started root calls names).sniffed host with
  | inr e => exact ⟨e, rfl⟩
  | inl w =>
    dsimp only
    split_ifs with hk
    · exact ⟨_, rfl⟩
    · obtain ⟨hstart, -⟩ := hsniffed (w := started root calls names) ⟨⟨blocks, hwalk, Nat.zero_add _⟩, rfl⟩ rfl hs
      obtain ⟨r, hr⟩ := Loop.iterate_ends (fun w : Walk Link => blocks.length - w.used) (fun _ _ h hstep => (hgo h hstep).1)
        (fun _ _ h hstep => (hgo h hstep).2) hstart (show blocks.length - w.used < fuel by omega)
      rw [hr]
      cases r with
      | inr a => exact ⟨a, rfl⟩
      | inl v =>
        have hend : v.requested.length = v.used := by
          have := Loop.iterate_invariant (I := Left) (Q := fun r => r.elim (fun v => v.requested.length = v.used) fun _ => True)
            (fun _ _ h hstep => (hgo h hstep).1) ?_ hstart hr
          · exact this
          · intro s r h hstep
            obtain ⟨hv, -⟩ | ⟨l, rest, -, -, ⟨v, hv, -⟩ | ⟨a, hv, -⟩⟩ := serialStep_cases cfg host net offset s
            · obtain rfl := Sum.inr.inj (hv.symm.trans hstep)
              exact h.2.1
            · cases hv.symm.trans hstep
            · obtain rfl := Sum.inr.inj (hv.symm.trans hstep)
              trivial
        exact assembleRest_total hend hf

/-- A PDF of one-sided nodes within both budgets, whose size is recorded and whose requests are all answered, is
gathered whole and not marked as cut. -/
theorem assembleFile_complete (cfg : Settings) (host : Host) (hlower : host.chars.lower [] = []) (net : Network)
    (store : Text → Option Bytes) (hserves : Serves cfg host net store) (root : Node) (kids : List Dag)
    (hheld : HeldAll host store kids root.links) (hsided : AllOneSided kids) (content : Bytes)
    (hcontent : content = (Dag.file root.inlineData kids).content) (hsize : root.filesize = some content.length)
    (hpdf : ascii "%PDF" <+: content) (hlen : content.length ≤ cfg.maxPdfBytes) (blocks : List Bytes)
    (hwalk : Walks store root.links blocks) (hcount : blocks.length ≤ cfg.maxPdfChildBlocks)
    (hroot : namesOf root.links = []) (hnames : ∀ b ∈ blocks, namesOf (childBytes b).2 = []) (offset calls fuel : ℕ)
    (hfuel : cfg.maxPdfChildBlocks < fuel) :
    ∃ a, assembleFile cfg host net fuel root offset calls [] = some a ∧
      (Available cfg host net store offset calls a.requested → a.outcome = .ok (content, false)) := by
  obtain ⟨a, ha⟩ := assembleFile_total hserves hwalk calls [] (hcount.trans_lt hfuel) hfuel
  refine ⟨a, ha, fun havail => ?_⟩
  obtain ⟨hwalked, hsides⟩ := walked_oneSided hheld hsided hwalk
  have hwhole : content = root.inlineData ++ walked blocks := by rw [hcontent, Dag.content, hwalked]
  rw [hwhole] at hpdf
  have hnot := not_raised hlower hpdf
  obtain ⟨w, hw, hsteady⟩ | ⟨e, -, hraised⟩ := Steady.begin host calls hwalk hroot
  · have hproc : w.mime.any (fun mime => !Extract.processable mime) = false := by
      cases hm : w.mime with
      | none => rfl
      | some m =>
        have hm' := hsteady.mime_pdf hlower hpdf (Or.inl (by rw [hm]; exact Option.some_ne_none m))
        obtain rfl := Option.some.inj (hm.symm.trans hm')
        decide
    have hends {r : Walk Link ⊕ Assembled} (hi : Loop.iterate (serialStep cfg host net offset) fuel w = some r) :=
      Loop.iterate_invariant (fun _ _ hs hstep => Steady.go hnames havail hs hstep)
        (fun _ _ hs hstep => Steady.leave hnames havail hs hstep) (fun _ => hsteady) hi
    cases assembleFile_cases ha with
    | raised begun same => cases begun.symm.trans hw
    | @unworthy w' m begun known unworthy same =>
      obtain rfl : w' = w := Sum.inl.inj (begun.symm.trans hw)
      rw [known, Option.any_some, unworthy] at hproc
      cases hproc
    | @stopped w' begun run =>
      obtain rfl : w' = w := Sum.inl.inj (begun.symm.trans hw)
      exact absurd (hends run (List.prefix_refl _)).1 hnot
    | @went w' v begun run rest =>
      obtain rfl : w' = w := Sum.inl.inj (begun.symm.trans hw)
      have hend := hends run
      have hv := hend.1 (assembleRest_requested rest)
      have hm := hv.mime_pdf hlower hpdf hend.2
      have hpdfproc : Extract.processable pdf = true := by decide
      rw [assembleRest_waves hm hpdfproc] at rest
      exact assembleWaves_complete hsize hlen hcount hwhole hsides hv rest havail
  · exact absurd hraised hnot

end Runs

section Sample

def chunkOf (bytes : Bytes) : Bytes :=
  [0x0A, UInt8.ofNat (bytes.length + 6), 8, 2, 0x12, UInt8.ofNat bytes.length] ++ bytes ++ [0x18, UInt8.ofNat bytes.length]

def firstDigest : ℕ := 0xa7ec7e2a66d1cb8abcda633b3ac102b83af4bd550a990ad564bff95e44ea5846

def secondDigest : ℕ := 0x3d8ec87853c483f7a948fb8a409258fa550de4596ebf6d343546565d582f6eb4

def chunkedPdf : Bytes := dagLink 0x70 firstDigest ++ dagLink 0x70 secondDigest ++ [0x0A, 4, 8, 2, 0x18, 9]

def chunkedBlocks : List Bytes := [chunkedPdf, chunkOf (ascii "%P"), chunkOf (ascii "DF-1.4\n")]

def chunkedHost : Host :=
  sampleHost [(chunkOf (ascii "%P"), firstDigest), (chunkOf (ascii "DF-1.4\n"), secondDigest)]

theorem assembleFile_complete_chunked : ∃ root a, parseDagPb chunkedPdf = some root ∧
    assembleFile {} chunkedHost (blocksNetwork chunkedBlocks) 41 root 0 1 [] = some a ∧
    a.outcome = .ok (ascii "%PDF-1.4\n", false) := by
  have hsha : ∀ a ∈ chunkedBlocks, ∀ b ∈ chunkedBlocks, chunkedHost.sha256 a = chunkedHost.sha256 b → a = b := by
    decide +kernel
  have hrun : (parseDagPb chunkedPdf).any (fun root =>
      decide (HeldAll chunkedHost (storeOf chunkedHost chunkedBlocks) [.file (ascii "%P") [], .file (ascii "DF-1.4\n") []]
        root.links ∧ root.inlineData = [] ∧ root.filesize = some 9 ∧ namesOf root.links = []) &&
      (walkBlocks (storeOf chunkedHost chunkedBlocks) 9 root.links).any (fun blocks =>
        decide (blocks.length ≤ 40 ∧ ∀ b ∈ blocks, namesOf (childBytes b).2 = [])) &&
      (assembleFile {} chunkedHost (blocksNetwork chunkedBlocks) 41 root 0 1 []).any (fun a =>
        decide (Available {} chunkedHost (blocksNetwork chunkedBlocks) (storeOf chunkedHost chunkedBlocks) 0 1
          a.requested))) = true := by decide +kernel
  obtain ⟨root, hroot, hrun⟩ := some_of_any hrun
  obtain ⟨hrun, hasked⟩ := Bool.and_eq_true_iff.mp hrun
  obtain ⟨htree, hwalked⟩ := Bool.and_eq_true_iff.mp hrun
  obtain ⟨hheld, hinline, hsize, hnames⟩ := of_decide_eq_true htree
  obtain ⟨blocks, hblocks, hcounted⟩ := some_of_any hwalked
  obtain ⟨hcount, hunnamed⟩ := of_decide_eq_true hcounted
  obtain ⟨a, ha, havail⟩ := some_of_any hasked
  have hsided : AllOneSided [.file (ascii "%P") [], .file (ascii "DF-1.4\n") []] := by
    simp only [AllOneSided, Dag.OneSided]
    decide
  have hcontent : ascii "%PDF-1.4\n" =
      (Dag.file root.inlineData [.file (ascii "%P") [], .file (ascii "DF-1.4\n") []]).content := by
    rw [hinline]
    decide
  obtain ⟨b, hb, hwhole⟩ := assembleFile_complete {} chunkedHost (by decide) (blocksNetwork chunkedBlocks)
    (storeOf chunkedHost chunkedBlocks) (serves_blocks {} (injOn_of_list hsha)) root _ hheld hsided _ hcontent hsize
    (by decide) (by decide) blocks (walks_of_walkBlocks hblocks) hcount hnames hunnamed 0 1 41 (by decide)
  obtain rfl := Option.some.inj (hb.symm.trans ha)
  exact ⟨root, b, hroot, hb, hwhole (of_decide_eq_true havail)⟩

end Sample

end ObserverClub.Fetch
