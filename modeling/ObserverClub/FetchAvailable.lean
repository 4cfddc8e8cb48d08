import ObserverClub.FetchPrefix

namespace ObserverClub.Fetch

open Library Python UnixFs

section Availability

variable {cfg : Settings} {host : Host} {net : Network} {store : Text → Option Bytes} {offset : ℕ}

/-- Each request is answered, the first one being the given call of the network. -/
def Available (cfg : Settings) (host : Host) (net : Network) (store : Text → Option Bytes) (offset calls : ℕ)
    (requested : List Text) : Prop :=
  ∀ i cid, requested[i]? = some cid → getBlock cfg host (net (calls + i)) cid offset = store cid

instance (calls : ℕ) (requested : List Text) : Decidable (Available cfg host net store offset calls requested) :=
  decidable_of_iff (∀ p ∈ requested.zipIdx, getBlock cfg host (net (calls + p.2)) p.1 offset = store p.1)
    ⟨fun h i cid hi => h (cid, i) (List.mem_zipIdx_iff_getElem?.mpr hi),
      fun h p hp => h p.2 p.1 (List.mem_zipIdx_iff_getElem?.mp hp)⟩

theorem Available.later {calls : ℕ} {before more full : List Text} (h : Available cfg host net store offset calls full)
    (hp : before ++ more <+: full) : Available cfg host net store offset (calls + before.length) more := by
  obtain ⟨rest, rfl⟩ := hp
  intro i cid hi
  have hlt := (List.getElem?_eq_some_iff.mp hi).1
  have hat : ((before ++ more) ++ rest)[before.length + i]? = some cid := by
    rw [List.append_assoc, List.getElem?_append_right (Nat.le_add_right _ _), Nat.add_sub_cancel_left,
      List.getElem?_append_left hlt, hi]
  rw [Nat.add_assoc]
  exact h _ cid hat

theorem Available.one {calls : ℕ} {before full : List Text} {cid : Text}
    (h : Available cfg host net store offset calls full) (hp : before ++ [cid] <+: full) :
    getBlock cfg host (net (calls + before.length)) cid offset = store cid :=
  h.later hp 0 cid rfl

theorem firstSweep_available {calls : ℕ} {cids : List Text} (h : Available cfg host net store offset calls cids) :
    firstSweep cfg host net offset calls cids = cids.map fun cid => (cid, store cid) := by
  induction cids generalizing calls with
  | nil => rfl
  | cons cid cids ih =>
    have hfirst := h 0 cid rfl
    have hrest : Available cfg host net store offset (calls + 1) cids :=
      h.later (show [cid] ++ cids <+: cid :: cids from List.prefix_refl _)
    rw [firstSweep, List.map_cons, ih hrest]
    rw [Nat.add_zero] at hfirst
    rw [hfirst]

theorem fetchChildren_available {calls : ℕ} {cids : List Text} (h : Available cfg host net store offset calls cids)
    (hsome : ∀ cid ∈ cids, (store cid).isSome = true) :
    fetchChildren cfg host net offset calls cids = (cids.map store, calls + cids.length) := by
  have hnone : (cids.map fun cid => (cid, store cid)).filter (fun b => b.2.isNone) = [] := by
    apply List.filter_eq_nil_iff.mpr
    intro b hb
    obtain ⟨cid, hcid, rfl⟩ := List.mem_map.mp hb
    simp [← Option.not_isSome, hsome cid hcid]
  unfold fetchChildren
  rw [firstSweep_available h]
  dsimp only
  rw [hnone, if_neg (fun h => h.1 rfl), List.map_map]
  rfl

theorem replacement_isSome {got : List (Option Bytes)} (h : ∀ o ∈ got, o.isSome = true) :
    ∃ entries, replacement got = some entries := by
  induction got with
  | nil => exact ⟨[], rfl⟩
  | cons o got ih =>
    obtain ⟨ho, hgot⟩ := List.forall_mem_cons.mp h
    obtain ⟨block, rfl⟩ := Option.isSome_iff_exists.mp ho
    obtain ⟨entries, hentries⟩ := ih hgot
    exact ⟨entriesOf block ++ entries, by rw [replacement, hentries, Option.map_some]⟩

end Availability

section Runs

variable {cfg : Settings} {host : Host} {net : Network} {store : Text → Option Bytes} {start : Bytes} {blocks : List Bytes}
  {offset calls : ℕ} {full : List Text}

structure Steady (host : Host) (store : Text → Option Bytes) (start : Bytes) (blocks : List Bytes) (calls : ℕ)
    (w : Walk Link) : Prop where
  split : ∃ done left, blocks = done ++ left ∧ Walks store w.pending left ∧ w.out = start ++ walked done ∧
    w.used = done.length
  unnamed : w.names = [] ∧ namesOf w.pending = []
  counted : w.calls = calls + w.requested.length
  early : w.mime = none → w.out.length < sniffMin
  late : ∀ m, w.mime = some m → sniffMin ≤ w.out.length ∧ sniff host w.out [] = .ok m

def Raised (host : Host) (start : Bytes) (blocks : List Bytes) : Prop :=
  ∃ done left e, blocks = done ++ left ∧ sniffMin ≤ (start ++ walked done).length ∧
    sniff host (start ++ walked done) [] = .error e

theorem namesOf_append (ls ms : List Link) : namesOf (ls ++ ms) = namesOf ls ++ namesOf ms := by
  rw [namesOf, List.filterMap_append, List.filter_append]
  rfl

theorem Steady.of_sniffed {w : Walk Link} (hm : w.mime = none)
    (hsplit : ∃ done left, blocks = done ++ left ∧ Walks store w.pending left ∧ w.out = start ++ walked done ∧
      w.used = done.length)
    (hunnamed : w.names = [] ∧ namesOf w.pending = []) (hcounted : w.calls = calls + w.requested.length) :
    (∃ w', w.sniffed host = .inl w' ∧ Steady host store start blocks calls w') ∨
      ∃ e, w.sniffed host = .inr (w.ended (.error e)) ∧ Raised host start blocks := by
  by_cases hlen : sniffMin ≤ w.out.length
  · cases hs : sniff host w.out w.names with
    | ok m =>
      left
      have hmime := hs
      rw [hunnamed.1] at hmime
      refine ⟨{ w with mime := some m }, ?_, hsplit, hunnamed, hcounted, fun hn => ?_, fun m' hm' => ⟨hlen, ?_⟩⟩
      · rw [Walk.sniffed, if_pos hlen, hs]
      · cases hn
      · obtain rfl := Option.some.inj hm'
        exact hmime
    | error e =>
      right
      obtain ⟨done, left, hblocks, -, hout, -⟩ := hsplit
      rw [hunnamed.1, hout] at hs
      rw [hout] at hlen
      refine ⟨e, ?_, done, left, e, hblocks, hlen, hs⟩
      rw [← hout, ← hunnamed.1] at hs
      rw [← hout] at hlen
      rw [Walk.sniffed, if_pos hlen, hs]
  · refine Or.inl ⟨w, if_neg hlen, hsplit, hunnamed, hcounted, fun _ => Nat.lt_of_not_le hlen, fun m hm' => ?_⟩
    rw [hm] at hm'
    cases hm'

theorem Steady.follows (hnames : ∀ b ∈ blocks, namesOf (childBytes b).2 = []) {w : Walk Link}
    (h : Steady host store start blocks calls w) {l : Link} {rest : List Link} (hm : w.mime = none)
    (hp : w.pending = l :: rest) (havail : getBlock cfg host (net w.calls) l.cid offset = store l.cid) :
    (∃ w', serialStep cfg host net offset w = .inl w' ∧ Steady host store start blocks calls w') ∨
      ∃ a e, serialStep cfg host net offset w = .inr (.inr a) ∧ a.outcome = .error e ∧ Raised host start blocks := by
  obtain ⟨done, left, hblocks, hwalks, hout, hused⟩ := h.split
  have hfound : ∃ block, store l.cid = some block := by
    rw [hp] at hwalks
    cases hwalks with
    | cons found => exact ⟨_, found⟩
  obtain ⟨block, hblock⟩ := hfound
  rw [hblock] at havail
  obtain ⟨more, rfl, hmore, -⟩ := walks_extended keptBytes (h.early hm) hp hblock hwalks
  have hunnamed := h.unnamed.2
  rw [hp, ← List.singleton_append, namesOf_append, List.append_eq_nil_iff] at hunnamed
  have hthis := hnames block (hblocks ▸ List.mem_append_right _ List.mem_cons_self)
  obtain ⟨w', hw', hsteady⟩ | ⟨e, he, hraised⟩ := @Steady.of_sniffed host store start blocks calls
    (w.extended l rest block) hm
    ⟨done ++ [block], more, by rw [hblocks, List.append_assoc, List.singleton_append], hmore,
      by simp only [Walk.extended, hout, walked, List.flatMap_append, List.flatMap_singleton, List.append_assoc],
      by simp only [Walk.extended, Walk.follow, hused, List.length_append, List.length_singleton]⟩
    ⟨by simp only [Walk.extended, Walk.follow, h.unnamed.1, hunnamed.1, List.append_nil],
      by simp only [Walk.extended, namesOf_append, hthis, hunnamed.2, List.append_nil]⟩
    (by simp only [Walk.extended, Walk.follow, h.counted, List.length_append, List.length_singleton, Nat.add_assoc])
  · exact Or.inl ⟨w', by rw [serialStep_found hm hp havail, hw', Sum.elim_inl], hsteady⟩
  · exact Or.inr ⟨_, e, by rw [serialStep_found hm hp havail, he, Sum.elim_inr], rfl, hraised⟩

theorem sniffed_requested {item : Type} {w w' : Walk item} (h : w.sniffed host = .inl w') : w'.requested = w.requested := by
  obtain ⟨-, rfl⟩ | ⟨-, mime, -, rfl⟩ := sniffed_inl h <;> rfl

theorem serialStep_cases (cfg : Settings) (host : Host) (net : Network) (offset : ℕ) (w : Walk Link) :
    (serialStep cfg host net offset w = .inr (.inl w) ∧ (w.mime ≠ none ∨ w.pending = [])) ∨
      ∃ l rest, w.mime = none ∧ w.pending = l :: rest ∧
        ((∃ w', serialStep cfg host net offset w = .inl w' ∧ w'.requested = w.requested ++ [l.cid]) ∨
          ∃ a, serialStep cfg host net offset w = .inr (.inr a) ∧ a.requested = w.requested ++ [l.cid]) := by
  by_cases hk : w.mime ≠ none ∨ w.pending = []
  · exact Or.inl ⟨serialStep_known hk, hk⟩
  · simp only [not_or, not_not] at hk
    obtain ⟨l, rest, hp⟩ := List.exists_cons_of_ne_nil hk.2
    refine Or.inr ⟨l, rest, hk.1, hp, ?_⟩
    cases hb : getBlock cfg host (net w.calls) l.cid offset with
    | none => exact Or.inr ⟨_, serialStep_missing hk.1 hp hb, rfl⟩
    | some block =>
      rw [serialStep_found hk.1 hp hb]
      cases hs : (w.extended l rest block).sniffed host with
      | inl v => exact Or.inl ⟨v, rfl, sniffed_requested hs⟩
      | inr a =>
        obtain ⟨-, e, -, rfl⟩ := sniffed_inr hs
        exact Or.inr ⟨_, rfl, rfl⟩

theorem Steady.go (hnames : ∀ b ∈ blocks, namesOf (childBytes b).2 = [])
    (havail : Available cfg host net store offset calls full) {w w' : Walk Link}
    (h : w.requested <+: full → Steady host store start blocks calls w)
    (hstep : serialStep cfg host net offset w = .inl w') :
    w'.requested <+: full → Steady host store start blocks calls w' := by
  intro hfull
  obtain ⟨hv, -⟩ | ⟨l, rest, hm, hp, ⟨v, hv, hreq⟩ | ⟨a, hv, -⟩⟩ := serialStep_cases cfg host net offset w
  · cases hv.symm.trans hstep
  · obtain rfl := Sum.inl.inj (hv.symm.trans hstep)
    rw [hreq] at hfull
    have hsteady := h ((List.prefix_append _ _).trans hfull)
    have hget := havail.one hfull
    rw [← hsteady.counted] at hget
    obtain ⟨v', hv', hnext⟩ | ⟨a, e, ha, -⟩ := hsteady.follows hnames hm hp hget
    · obtain rfl := Sum.inl.inj (hv'.symm.trans hstep)
      exact hnext
    · cases ha.symm.trans hstep
  · cases hv.symm.trans hstep

theorem Steady.leave (hnames : ∀ b ∈ blocks, namesOf (childBytes b).2 = [])
    (havail : Available cfg host net store offset calls full) {w : Walk Link} {r : Walk Link ⊕ Assembled}
    (h : w.requested <+: full → Steady host store start blocks calls w)
    (hstep : serialStep cfg host net offset w = .inr r) :
    r.elim (fun v => (v.requested <+: full → Steady host store start blocks calls v) ∧ (v.mime ≠ none ∨ v.pending = []))
      (fun a => a.requested <+: full → Raised host start blocks ∧ ∃ e, a.outcome = .error e) := by
  obtain ⟨hv, hk⟩ | ⟨l, rest, hm, hp, ⟨v, hv, -⟩ | ⟨a, hv, hreq⟩⟩ := serialStep_cases cfg host net offset w
  · obtain rfl := Sum.inr.inj (hv.symm.trans hstep)
    exact ⟨h, hk⟩
  · cases hv.symm.trans hstep
  · obtain rfl := Sum.inr.inj (hv.symm.trans hstep)
    rw [Sum.elim_inr, hreq]
    intro hfull
    have hsteady := h ((List.prefix_append _ _).trans hfull)
    have hget := havail.one hfull
    rw [← hsteady.counted] at hget
    obtain ⟨v, hnext, -⟩ | ⟨b, e, hb, he, hraised⟩ := hsteady.follows hnames hm hp hget
    · cases hnext.symm.trans hstep
    · obtain rfl : b = a := Sum.inr.inj (Sum.inr.inj (hb.symm.trans hstep))
      exact ⟨hraised, e, he⟩

theorem Steady.begin (host : Host) (calls : ℕ) {root : Node} (hwalk : Walks store root.links blocks)
    (hnames : namesOf root.links = []) :
    (∃ w, (started root calls []).sniffed host = .inl w ∧ Steady host store root.inlineData blocks calls w) ∨
      ∃ e, (started root calls []).sniffed host = .inr ((started root calls []).ended (.error e)) ∧
        Raised host root.inlineData blocks :=
  Steady.of_sniffed (w := started root calls []) rfl ⟨[], blocks, rfl, hwalk, (List.append_nil _).symm, rfl⟩
    ⟨rfl, hnames⟩ rfl

variable {budget maxBlocks : ℕ}

theorem waveStep_cases (cfg : Settings) (host : Host) (net : Network) (offset budget maxBlocks : ℕ) (w : Walk Entry) :
    (waveStep cfg host net offset budget maxBlocks w = .inr (.inl w) ∧ ¬Waving cfg budget maxBlocks w) ∨
      ∃ cids, cids = (takeWave (min cfg.childConcurrency (maxBlocks - w.used)) w.pending).1.map Link.cid ∧
        Waving cfg budget maxBlocks w ∧
        ((∃ w', waveStep cfg host net offset budget maxBlocks w = .inl w' ∧ w'.requested = w.requested ++ cids) ∨
          ∃ a, waveStep cfg host net offset budget maxBlocks w = .inr (.inr a) ∧ a.requested = w.requested ++ cids) := by
  by_cases hw : Waving cfg budget maxBlocks w
  · refine Or.inr ⟨_, rfl, hw, ?_⟩
    rw [waveStep_go host net offset hw rfl]
    cases replacement (fetchChildren cfg host net offset w.calls
        ((takeWave (min cfg.childConcurrency (maxBlocks - w.used)) w.pending).1.map Link.cid)).1 with
    | none => exact Or.inr ⟨_, rfl, rfl⟩
    | some entries => exact Or.inl ⟨_, rfl, rfl⟩
  · exact Or.inl ⟨waveStep_stop hw, hw⟩

variable {root : Node} {fuel : ℕ}

theorem assembleWaves_requested {mime : Text} {w : Walk Link} {a : Assembled}
    (ha : assembleWaves cfg host net fuel root offset mime w = some a) : w.requested <+: a.requested := by
  unfold assembleWaves at ha
  dsimp only at ha
  split_ifs at ha with hlimit
  · obtain rfl := Option.some.inj ha
    exact List.prefix_refl _
  · have hrun {s : Walk Entry} {r : Walk Entry ⊕ (Walk Entry ⊕ Assembled)} (hs : w.requested <+: s.requested)
        (hstep : waveStep cfg host net offset (budgetFor cfg mime root.filesize).1 (budgetFor cfg mime root.filesize).2 s = r) :
        w.requested <+: r.elim Walk.requested (Sum.elim Walk.requested Assembled.requested) := by
      obtain ⟨hv, -⟩ | ⟨cids, -, -, ⟨v, hv, hreq⟩ | ⟨a, hv, hreq⟩⟩ := waveStep_cases cfg host net offset
        (budgetFor cfg mime root.filesize).1 (budgetFor cfg mime root.filesize).2 s
      · rw [← hstep, hv]
        exact hs
      · rw [← hstep, hv, Sum.elim_inl, hreq]
        exact hs.trans (List.prefix_append _ _)
      · rw [← hstep, hv, Sum.elim_inr, Sum.elim_inr, hreq]
        exact hs.trans (List.prefix_append _ _)
    cases hi : Loop.iterate (waveStep cfg host net offset (budgetFor cfg mime root.filesize).1
        (budgetFor cfg mime root.filesize).2) fuel { w with pending := w.pending.map Entry.link } with
    | none =>
      rw [hi] at ha
      cases ha
    | some r =>
      rw [hi] at ha
      have hend := Loop.iterate_invariant (I := fun s : Walk Entry => w.requested <+: s.requested)
        (Q := fun r => w.requested <+: r.elim Walk.requested Assembled.requested) (fun _ _ hs hstep => hrun hs hstep)
        (fun _ _ hs hstep => hrun hs hstep) (List.prefix_refl _) hi
      cases r with
      | inl v =>
        obtain rfl := Option.some.inj ha
        exact hend
      | inr b =>
        obtain rfl := Option.some.inj ha
        exact hend

theorem assembleRest_requested {w : Walk Link} {a : Assembled}
    (ha : assembleRest cfg host net fuel root offset w = some a) : w.requested <+: a.requested := by
  unfold assembleRest at ha
  cases hp : w.mime.filter Extract.processable with
  | some mime =>
    rw [hp] at ha
    exact assembleWaves_requested ha
  | none =>
    rw [hp] at ha
    obtain rfl := Option.some.inj ha
    exact List.prefix_refl _

end Runs

end ObserverClub.Fetch
