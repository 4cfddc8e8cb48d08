import ObserverClub.CatchUp

namespace ObserverClub.Store

open Library Json Python Sqlite Catalog

section Gathering

variable (o : Observer)

structure Gathered (sent : List Value) (log : List Entry) (t : Tables) : Prop extends Told o log t where
  unlisted : t.blacklisted = []
  sources : ∀ x ∈ log, x.sent.2 ∈ sent
  complete : ∀ v ∈ sent, ∀ a cid publisher, Acceptable o empty v a → Recordable o empty a cid publisher →
    a.payloadHash ∈ t.messages.map Message.payloadHash

/-- Messages taken in one after another. -/
def deliveries (heard : List (Surroundings × Value)) : List Call := heard.map fun p => .ingest p.1 p.2

variable {o} {sent : List Value} {log : List Entry} {s : Conn}

theorem acceptable_unlisted {t : Tables} (h : t.blacklisted = []) {v : Value} {a : Accepted} :
    Acceptable o t v a ↔ Acceptable o empty v a := by
  rw [← accept_eq_some, accept_congr o (t := empty) h, accept_eq_some]

theorem Gathered.step (h : Gathered o sent log s.view) {w : Surroundings} {v : Value}
    (hheard : Heard o (.ingest w v)) : ∃ log', Gathered o (sent ++ [v]) log' (step o s (.ingest w v)).view := by
  by_cases hr : ∃ a cid publisher, Acceptable o s.view v a ∧ Recordable o s.view a cid publisher
  · obtain ⟨a, cid, publisher, ha, hr⟩ := hr
    let x : Entry := ⟨(w, v), a.row cid publisher w.receivedAt⟩
    have hx : x.Genuine o :=
      ⟨hheard.1, hheard.2, a, cid, publisher, ha.unlisted,
        ⟨hr.cid, hr.publisher, hr.body, fun _ hm => absurd hm List.not_mem_nil⟩, rfl⟩
    have hnew : x.row.payloadHash ∉ s.view.messages.map Message.payloadHash := by
      intro hmem
      obtain ⟨r, hrm, hh⟩ := List.mem_map.mp hmem
      exact hr.new r hrm hh
    have htold := h.toTold.record hx hnew
    have hrecorded := hx.recording (fun c hc => by
      obtain ⟨m, hm, hhash, -⟩ := h.sourced c hc
      exact ⟨m, hm, hhash⟩) hnew
    rw [ingest_recordable ha hr]
    refine ⟨log ++ [x], htold, ?_, ?_, ?_⟩
    · cases eventIn o (w, v) with
      | none => exact h.unlisted
      | some e => exact Event.effect_frame.2.trans h.unlisted
    · rw [List.forall_mem_append, List.forall_mem_singleton]
      exact ⟨fun y hy => List.mem_append_left _ (h.sources y hy), List.mem_append_right _ (List.mem_singleton_self v)⟩
    · have hmessages : ((eventIn o (w, v)).elim id (fun e => e.effect w) (withMessage x.row s.view)).messages =
          s.view.messages ++ [x.row] := hrecorded.messages
      intro u hu b cid' publisher' hb hr'
      rw [hmessages, List.map_append, List.mem_append]
      obtain hu | hu := List.mem_append.mp hu
      · exact Or.inl (h.complete u hu b cid' publisher' hb hr')
      · obtain rfl := List.mem_singleton.mp hu
        obtain rfl := ha.unlisted.unique hb
        exact Or.inr (List.mem_singleton_self _)
  · rw [ingest_unrecordable fun a cid publisher ha hrec => hr ⟨a, cid, publisher, ha, hrec⟩]
    refine ⟨log, h.toTold, h.unlisted, fun x hx => List.mem_append_left _ (h.sources x hx), ?_⟩
    intro u hu b cid publisher hb hr'
    obtain hu | hu := List.mem_append.mp hu
    · exact h.complete u hu b cid publisher hb hr'
    · obtain rfl := List.mem_singleton.mp hu
      -- it would have been recorded, were its hash not in the log
      by_contra hmem
      refine hr ⟨b, cid, publisher, (acceptable_unlisted h.unlisted).mpr hb, hr'.cid, hr'.publisher, hr'.body, ?_⟩
      exact fun r hrm hh => hmem (List.mem_map.mpr ⟨r, hrm, hh⟩)

theorem gathered_fresh : Gathered o [] [] fresh.view :=
  ⟨told_fresh, rfl, fun _ hx => absurd hx List.not_mem_nil, fun _ hv => absurd hv List.not_mem_nil⟩

theorem Gathered.run {heard : List (Surroundings × Value)} (h : Gathered o sent log s.view)
    (hheard : ∀ c ∈ deliveries heard, Heard o c) :
    ∃ log', Gathered o (sent ++ heard.map Prod.snd) log' (run (Store.step o) s (deliveries heard)).view := by
  induction heard generalizing sent log s with
  | nil =>
    refine ⟨log, ?_⟩
    rw [List.map_nil, List.append_nil]
    exact h
  | cons p heard ih =>
    rw [deliveries, List.map_cons, List.forall_mem_cons] at hheard
    obtain ⟨log', h'⟩ := h.step hheard.1
    obtain ⟨log'', h''⟩ := ih h' hheard.2
    refine ⟨log'', ?_⟩
    rw [List.map_cons, List.append_cons]
    exact h''

end Gathering

section Agreeing

variable {o : Observer} {sent sent' : List Value} {log log' : List Entry} {t t' : Tables}

/-- No two different values have one hash: nothing was signed again, and the hash does not collide. -/
def Single (o : Observer) (vs : List Value) : Prop := ∀ v ∈ vs, ∀ w ∈ vs, ∀ hash, payloadHash o v = .ok hash →
  payloadHash o w = .ok hash → v = w

theorem Gathered.hash (h : Gathered o sent log t) {x : Entry} (hx : x ∈ log) :
    payloadHash o x.sent.2 = .ok x.row.payloadHash := by
  obtain ⟨a, cid, publisher, ha, -, hrow⟩ := (h.genuine x hx).recorded
  rw [hrow]
  exact ha.hash

theorem Gathered.nodup (h : Gathered o sent log t) : (log.map fun x => x.sent.2).Nodup := by
  rw [List.Nodup, List.pairwise_map]
  have hhashes := h.hashes
  rw [List.Nodup, List.pairwise_map] at hhashes
  apply hhashes.imp_of_mem
  intro x y hx hy hne he
  have hhash := h.hash hx
  rw [he, h.hash hy] at hhash
  exact hne (Except.ok.inj hhash).symm

theorem Gathered.subset (h : Gathered o sent log t) (h' : Gathered o sent' log' t') (hsub : sent ⊆ sent')
    (hsingle : Single o sent') : ∀ x ∈ log, x.sent.2 ∈ log'.map fun y => y.sent.2 := by
  intro x hx
  obtain ⟨a, cid, publisher, ha, hr, -⟩ := (h.genuine x hx).recorded
  have hsent := hsub (h.sources x hx)
  have hmem := h'.complete x.sent.2 hsent a cid publisher ha hr
  rw [h'.messages, List.map_map] at hmem
  obtain ⟨y, hy, hhash⟩ := List.mem_map.mp hmem
  refine List.mem_map.mpr ⟨y, hy, hsingle _ (h'.sources y hy) _ hsent a.payloadHash ?_ ha.hash⟩
  rw [h'.hash hy]
  exact congrArg Except.ok hhash

theorem again_of_value {x y : Entry} (hx : x.Genuine o) (hy : y.Genuine o) (h : y.sent.2 = x.sent.2) :
    y = x.again y.sent.1 := by
  obtain ⟨a, cid, publisher, ha, hr, hrow⟩ := hx.recorded
  obtain ⟨a', cid', publisher', ha', hr', hrow'⟩ := hy.recorded
  rw [h] at ha'
  obtain rfl := ha.unique ha'
  obtain rfl := Option.some.inj (Except.ok.inj (hr.cid.symm.trans hr'.cid))
  obtain rfl := Option.some.inj (Except.ok.inj (hr.publisher.symm.trans hr'.publisher))
  obtain ⟨⟨w, v⟩, row⟩ := y
  obtain rfl : v = x.sent.2 := h
  obtain rfl : row = a'.row cid publisher w.receivedAt := hrow'
  rw [Entry.again, hrow]
  rfl

theorem again_of_values {xs ys : List Entry} (h : List.Forall₂ (fun y x => y.sent.2 = x.sent.2) ys xs)
    (hxs : ∀ x ∈ xs, x.Genuine o) (hys : ∀ y ∈ ys, y.Genuine o) :
    List.Forall₂ (fun x y => ∃ w, y = Entry.again x w) xs ys := by
  induction h with
  | nil => exact .nil
  | cons hyx _ ih =>
    rw [List.forall_mem_cons] at hxs hys
    exact .cons ⟨_, again_of_value hxs.1 hys.1 hyx⟩ (ih hxs.2 hys.2)

theorem Gathered.matched (h : Gathered o sent log t) (h' : Gathered o sent' log' t') (hsame : ∀ v, v ∈ sent ↔ v ∈ sent')
    (hsingle : Single o sent) : ∃ log'', log''.Perm log' ∧
      List.Forall₂ (fun x y => ∃ w, y = Entry.again x w) log log'' := by
  have hsingle' : Single o sent' := fun v hv w hw => hsingle v ((hsame v).mpr hv) w ((hsame w).mpr hw)
  have hperm : (log'.map fun y => y.sent.2).Perm (log.map fun x => x.sent.2) := by
    rw [List.perm_ext_iff_of_nodup h'.nodup h.nodup]
    intro v
    constructor
    · intro hv
      obtain ⟨y, hy, rfl⟩ := List.mem_map.mp hv
      exact h'.subset h (fun v hv => (hsame v).mpr hv) hsingle y hy
    · intro hv
      obtain ⟨x, hx, rfl⟩ := List.mem_map.mp hv
      exact h.subset h' (fun v hv => (hsame v).mp hv) hsingle' x hx
  have hvalues : List.Forall₂ (fun y v => y.sent.2 = v) log' (log'.map fun y : Entry => y.sent.2) :=
    List.forall₂_map_right_iff.mpr (List.forall₂_same.mpr fun _ _ => rfl)
  obtain ⟨log'', hp, hrest⟩ : Relation.Comp List.Perm (List.Forall₂ fun (y : Entry) v => y.sent.2 = v) log'
      (log.map fun x => x.sent.2) := by
    rw [← List.forall₂_comp_perm_eq_perm_comp_forall₂]
    exact ⟨_, hvalues, hperm⟩
  refine ⟨log'', hp.symm, ?_⟩
  rw [List.forall₂_map_right_iff] at hrest
  exact again_of_values hrest h.genuine fun y hy => h'.genuine y (hp.mem_iff.mpr hy)

theorem untimed_again (h : List.Forall₂ (fun x y => ∃ w, y = Entry.again x w) log log') :
    (log'.map Entry.row).map Message.untimed = (log.map Entry.row).map Message.untimed := by
  induction h with
  | nil => rfl
  | cons hxy _ ih =>
    obtain ⟨w, rfl⟩ := hxy
    simp only [List.map_cons, ih]
    rfl

/-- Two catalogs that have heard the same messages, in whatever order and however often each, hold the same messages
and the same classifies. -/
structure SameHearsay (t t' : Tables) : Prop where
  messages : (t'.messages.map Message.untimed).Perm (t.messages.map Message.untimed)
  classifies : ∃ cs, cs.Perm t'.classifies ∧ List.Forall₂ SameClassify t.classifies cs

theorem same_in_any_order (o : Observer) {heard heard' : List (Surroundings × Value)}
    (hheard : ∀ c ∈ deliveries heard, Heard o c) (hheard' : ∀ c ∈ deliveries heard', Heard o c)
    (hsame : ∀ v, v ∈ heard.map Prod.snd ↔ v ∈ heard'.map Prod.snd) (hsingle : Single o (heard.map Prod.snd)) :
    SameHearsay (run (step o) fresh (deliveries heard)).view (run (step o) fresh (deliveries heard')).view := by
  obtain ⟨log, h⟩ := gathered_fresh.run hheard
  obtain ⟨log', h'⟩ := gathered_fresh.run hheard'
  rw [List.nil_append] at h h'
  obtain ⟨log'', hperm, hagain⟩ := h.matched h' hsame hsingle
  constructor
  · rw [h.messages, h'.messages, ← untimed_again hagain]
    exact (hperm.symm.map _).map _
  · refine ⟨log''.filterMap (Entry.classifyRow o), ?_, ?_⟩
    · rw [h'.classifies]
      exact hperm.filterMap _
    · rw [h.classifies]
      exact classifies_again hagain

theorem single_of_nodup {vs : List Value} (h : (vs.map (payloadHash o)).Nodup) : Single o vs := by
  intro v hv w hw hash hhash hhash'
  exact List.inj_on_of_nodup_map h hv hw (hhash.trans hhash'.symm)

def hostClassify : Value := (loadsBytes sampleObserver.py (classifyHeard "12D3KooWHost")).toOption.getD .null

def peerClassify : Value := (loadsBytes sampleObserver.py (classifyHeard "12D3KooWPeer")).toOption.getD .null

def heardAt (v : Value) (now : ℚ) : Surroundings × Value := (⟨now, now, now, .ok ()⟩, v)

theorem heard_hostClassify (w : Surroundings) : Heard sampleObserver (.ingest w hostClassify) := heard_of (by decide +kernel)

theorem heard_peerClassify (w : Surroundings) : Heard sampleObserver (.ingest w peerClassify) := heard_of (by decide +kernel)

theorem heard_heardAt {v : Value} (h : ∀ w, Heard o (.ingest w v)) (now : ℚ) :
    Heard o (.ingest (heardAt v now).1 (heardAt v now).2) := h _

theorem mem_swapped {v w u : Value} : u ∈ [v, w] ↔ u ∈ [w, v, w] := by
  simp only [List.mem_cons, List.not_mem_nil, or_false]
  tauto

theorem same_in_any_order_sample : SameHearsay
    (run (step sampleObserver) fresh (deliveries [heardAt hostClassify 1, heardAt peerClassify 2])).view
    (run (step sampleObserver) fresh
      (deliveries [heardAt peerClassify 3, heardAt hostClassify 4, heardAt peerClassify 5])).view := by
  apply same_in_any_order
  · simp only [deliveries, List.map_cons, List.map_nil, List.forall_mem_cons, List.not_mem_nil, false_implies,
      implies_true, and_true]
    exact ⟨heard_heardAt heard_hostClassify 1, heard_heardAt heard_peerClassify 2⟩
  · simp only [deliveries, List.map_cons, List.map_nil, List.forall_mem_cons, List.not_mem_nil, false_implies,
      implies_true, and_true]
    exact ⟨heard_heardAt heard_peerClassify 3, heard_heardAt heard_hostClassify 4, heard_heardAt heard_peerClassify 5⟩
  · exact fun u => mem_swapped
  · exact single_of_nodup (by decide +kernel)

end Agreeing

end ObserverClub.Store
