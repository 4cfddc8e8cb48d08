import ObserverClub.Clocks
import ObserverClub.Drain
import ObserverClub.Library.Replay

namespace ObserverClub.Ingest

open Library Python Sqlite Catalog Store

section Lines

variable (o : Observer) (blacklisted : List Blacklisted)

def shutOut (blacklisted : List Blacklisted) : Tables := { empty with blacklisted := blacklisted }

/-- The event on a line of the inbox, for a catalog that has shut out the given publishers. -/
def lineEvent (w : Surroundings) (raw : Bytes) : Option Store.Event :=
  if trim isSpaceByte raw = [] then none
  else ((Python.loadsBytes o.py (trim isSpaceByte raw)).toOption).bind fun obj =>
    ((Store.read o (shutOut blacklisted) w obj).toOption).bind id

def takeLine (w : Surroundings) (raw : Bytes) (t : Tables) : Tables :=
  ((lineEvent o blacklisted w raw).map fun e => e.take w t).getD t

theorem lineEvent_time {w : Surroundings} (w' : Surroundings) {raw : Bytes} {e : Store.Event}
    (h : lineEvent o blacklisted w raw = some e) :
    ∃ e', lineEvent o blacklisted w' raw = some e' ∧ SameEvent w.receivedAt w'.receivedAt e e' := by
  unfold lineEvent at h ⊢
  split at h
  next => cases h
  next hne =>
    rw [if_neg hne]
    obtain ⟨obj, hobj, hread⟩ := Option.bind_eq_some_iff.mp h
    obtain ⟨r, hr, rfl⟩ := Option.bind_eq_some_iff.mp hread
    have hok : Store.read o (shutOut blacklisted) w obj = .ok (some e) := by
      cases hx : Store.read o (shutOut blacklisted) w obj with
      | error x =>
        rw [hx] at hr
        cases hr
      | ok x =>
        rw [hx] at hr
        cases hr
        rfl
    obtain ⟨e', he', hsame⟩ := read_time o w' hok
    refine ⟨e', ?_, hsame⟩
    rw [hobj, Option.bind_some, he']
    rfl

end Lines

section Taking

variable {e : Store.Event} {w : Surroundings} {t : Tables}

theorem blacklisted_take : (e.take w t).blacklisted = t.blacklisted := by
  unfold Store.Event.take
  split
  · rfl
  · rw [Store.Event.effect_frame.2]
    rfl

theorem hash_mem_take : e.payloadHash ∈ (e.take w t).messages.map Message.payloadHash := by
  unfold Store.Event.take
  split
  next h => exact h
  next =>
    rw [Store.Event.effect_frame.1, withMessage, List.map_append]
    exact List.mem_append_right _ List.mem_cons_self

theorem messages_subset_take : t.messages ⊆ (e.take w t).messages := by
  unfold Store.Event.take
  split
  · exact List.Subset.refl _
  · rw [Store.Event.effect_frame.1]
    exact List.subset_append_left _ _

end Taking

section Replaying

variable (o : Observer) (blacklisted : List Blacklisted)

def log : Replay.Log Tables Bytes Surroundings where
  take := takeLine o blacklisted
  Held raw t := ∀ w e, lineEvent o blacklisted w raw = some e → e.payloadHash ∈ t.messages.map Message.payloadHash
  held_take w raw t := by
    intro w' e' he'
    obtain ⟨e, he, hsame⟩ := lineEvent_time o blacklisted w he'
    have hhash : e.payloadHash = e'.payloadHash := by rw [hsame.parts]
    rw [takeLine, he, ← hhash]
    exact hash_mem_take
  held_stays w raw raw' t hheld := by
    intro w' e' he'
    have hmem := hheld w' e' he'
    rw [takeLine]
    cases lineEvent o blacklisted w raw' with
    | none => exact hmem
    | some e => exact List.map_subset _ messages_subset_take hmem
  take_held w raw t hheld := by
    rw [takeLine]
    cases he : lineEvent o blacklisted w raw with
    | none => rfl
    | some e =>
      rw [Option.map_some, Option.getD_some, Store.Event.take, if_pos (hheld w e he)]

theorem alike_play {t t' : Tables} (h : Alike t t') {ps ps' : List (Surroundings × Bytes)}
    (hsame : ps.map Prod.snd = ps'.map Prod.snd) : Alike ((log o blacklisted).play t ps) ((log o blacklisted).play t' ps') := by
  induction ps generalizing t t' ps' with
  | nil =>
    obtain rfl := List.map_eq_nil_iff.mp hsame.symm
    exact h
  | cons p ps ih =>
    obtain ⟨p', qs, rfl, hp, hqs⟩ := List.map_eq_cons_iff.mp hsame.symm
    apply ih _ hqs.symm
    change Alike (takeLine o blacklisted p.1 p.2 t) (takeLine o blacklisted p'.1 p'.2 t')
    rw [hp, takeLine, takeLine]
    cases he : lineEvent o blacklisted p.1 p.2 with
    | none =>
      cases he' : lineEvent o blacklisted p'.1 p.2 with
      | none => exact h
      | some e' =>
        obtain ⟨e, hnot, -⟩ := lineEvent_time o blacklisted p.1 he'
        cases he.symm.trans hnot
    | some e =>
      obtain ⟨e', he', hevent⟩ := lineEvent_time o blacklisted p'.1 he
      rw [he']
      exact h.take hevent

end Replaying

section Performing

variable (o : Observer)

def Durable (c : Conn) : Prop := c.view = c.committed

/-- No line with this text makes `ingest_message` raise, in a catalog that has shut out the given publishers. -/
def Tame (blacklisted : List Blacklisted) (raw : Bytes) : Prop :=
  ∀ obj, Python.loadsBytes o.py (trim isSpaceByte raw) = .ok obj → ∀ (w : Surroundings) (s : Conn),
    w.review = .ok () → s.view.blacklisted = blacklisted → ∃ b, (ingestMessage o w obj s).1 = .ok b

variable {o}

theorem durable_ingest {w : Surroundings} {obj : Value} {s : Conn} {b : Bool} (hs : Durable s)
    (h : (ingestMessage o w obj s).1 = .ok b) : Durable (ingestMessage o w obj s).2 := by
  have hcases := ingestMessage_cases o w obj s
  generalize ingestMessage o w obj s = out at hcases h ⊢
  cases hcases with
  | refused _ _ => exact hs
  | rejected _ _ _ => exact hs
  | broken _ _ _ => cases h
  | done _ _ _ => rfl

theorem blacklisted_ingest {w : Surroundings} {obj : Value} {s : Conn} {b : Bool}
    (h : (ingestMessage o w obj s).1 = .ok b) : (ingestMessage o w obj s).2.view.blacklisted = s.view.blacklisted := by
  rw [ingestMessage_view o h]
  unfold taken
  split
  · exact blacklisted_take
  · rfl

theorem ingestLine_cases {blacklisted : List Blacklisted} {w : Surroundings} {raw : Bytes} {c : Conn}
    (htame : Tame o blacklisted raw) (hw : w.review = .ok ()) (hb : c.view.blacklisted = blacklisted) (hc : Durable c) :
    ((ingestLine o w raw c).1 = .ok () ∧ (ingestLine o w raw c).2.view = takeLine o blacklisted w raw c.view ∧
      (ingestLine o w raw c).2.view.blacklisted = blacklisted ∧ Durable (ingestLine o w raw c).2) ∨
    ∃ e, ingestLine o w raw c = (.error e, c) := by
  unfold ingestLine takeLine lineEvent
  split
  next => exact .inl ⟨rfl, rfl, hb, hc⟩
  next hne =>
    cases hload : Python.loadsBytes o.py (trim isSpaceByte raw) with
    | error e =>
      by_cases he : e = .valueError
      · subst he
        exact .inl ⟨rfl, rfl, hb, hc⟩
      · apply Or.inr
        refine ⟨e, ?_⟩
        cases e <;> first | rfl | exact absurd rfl he
    | ok obj =>
      obtain ⟨b, hret⟩ := htame obj hload w c hw hb
      have hview := ingestMessage_view o hret
      have hread : Store.read o (shutOut blacklisted) w obj = Store.read o c.view w obj :=
        read_congr o hb.symm w obj
      have hrun : Store.discard (ingestMessage o w obj) c = (.ok (), (ingestMessage o w obj c).2) :=
        discard_eq_ok.mpr ⟨b, Prod.ext hret rfl⟩
      apply Or.inl
      dsimp only
      rw [hrun, hview, ← hread]
      refine ⟨rfl, ?_, ?_, durable_ingest hc hret⟩
      · rw [taken_eq]
        rfl
      · rw [hread, ← hview, blacklisted_ingest hret, hb]

theorem perform_ok {a : Act} {acts : List Act} {d d' : Disk} (h : exec o d a = (.ok (), d')) :
    perform o (a :: acts) d = perform o acts d' := by rw [perform, h]

theorem perform_error {a : Act} {acts : List Act} {d d' : Disk} {e : Error} (h : exec o d a = (.error e, d')) :
    perform o (a :: acts) d = (.error e, d') := by rw [perform, h]

theorem perform_append (xs ys : List Act) (d : Disk) :
    (∃ d', perform o xs d = (.ok (), d') ∧ perform o (xs ++ ys) d = perform o ys d') ∨
    ∃ e d', perform o xs d = (.error e, d') ∧ perform o (xs ++ ys) d = (.error e, d') := by
  induction xs generalizing d with
  | nil => exact .inl ⟨d, rfl, rfl⟩
  | cons x xs ih =>
    rw [List.cons_append, perform, perform]
    rcases exec o d x with ⟨_ | _, d'⟩
    · exact .inr ⟨_, d', rfl, rfl⟩
    · exact ih d'

structure Played (blacklisted : List Blacklisted) (t : Tables) (ps : List (Surroundings × Bytes)) (c : Conn) : Prop where
  view : c.view = (log o blacklisted).play t ps
  blacklisted : c.view.blacklisted = blacklisted
  durable : Durable c

theorem perform_lines {blacklisted : List Blacklisted} {ps : List (Surroundings × Bytes)} {d : Disk}
    (htame : ∀ p ∈ ps, Tame o blacklisted p.2 ∧ p.1.review = .ok ()) (hb : d.conn.view.blacklisted = blacklisted)
    (hd : Durable d.conn) :
    ∃ c n, (perform o (ps.map fun p => .line p.1 p.2) d).2 = { d with conn := c } ∧
      Played (o := o) blacklisted d.conn.view (ps.take n) c ∧
      ((perform o (ps.map fun p => .line p.1 p.2) d).1 = .ok () → ps.take n = ps) := by
  induction ps generalizing d with
  | nil => exact ⟨d.conn, 0, rfl, ⟨rfl, hb, hd⟩, fun _ => rfl⟩
  | cons p ps ih =>
    rw [List.forall_mem_cons] at htame
    obtain ⟨⟨hp, hw⟩, hrest⟩ := htame
    rw [List.map_cons]
    rcases ingestLine_cases hp hw hb hd with ⟨hok, hview, hb', hd'⟩ | ⟨e, he⟩
    · have hexec : exec o d (.line p.1 p.2) = (.ok (), { d with conn := (ingestLine o p.1 p.2 d.conn).2 }) := by
        rw [exec, hok]
      rw [perform_ok hexec]
      obtain ⟨c, n, hdisk, hplayed, hall⟩ := ih (d := { d with conn := (ingestLine o p.1 p.2 d.conn).2 }) hrest hb' hd'
      refine ⟨c, n + 1, hdisk, ⟨?_, hplayed.blacklisted, hplayed.durable⟩, ?_⟩
      · rw [hplayed.view, List.take_succ_cons]
        dsimp only
        rw [hview]
        rfl
      · intro hret
        rw [List.take_succ_cons, hall hret]
    · have hexec : exec o d (.line p.1 p.2) = (.error e, d) := by rw [exec, he]
      rw [perform_error hexec]
      refine ⟨d.conn, 0, rfl, ⟨rfl, hb, hd⟩, ?_⟩
      intro hret
      cases hret

end Performing

section Files

variable {o : Observer}

theorem mem_lines {d : Disk} {raw : Bytes} :
    raw ∈ lines d ↔ ∃ f ∈ jsonl d.files, raw ∈ (unread f (d.offsets f.name)).1 := List.mem_flatMap

theorem mem_jsonl {files : List File} {f : File} :
    f ∈ jsonl files ↔ f ∈ files ∧ (txt ".jsonl").isSuffixOf f.name = true := by
  rw [jsonl, List.mem_mergeSort, List.mem_filter]

theorem names_jsonl {files : List File} (h : (files.map File.name).Nodup) : ((jsonl files).map File.name).Nodup := by
  have hperm : (jsonl files).Perm (files.filter fun f => (txt ".jsonl").isSuffixOf f.name) := List.mergeSort_perm _ _
  rw [(hperm.map File.name).nodup_iff]
  exact h.sublist (List.filter_sublist.map File.name)

theorem records_rest {α : Type} [DecidableEq α] (t : α) (xs : List α) : t ∉ (records t xs).2 := by
  induction xs with
  | nil => exact List.not_mem_nil
  | cons x xs ih =>
    rcases hr : records t xs with ⟨rs, tail⟩
    rw [hr] at ih
    simp only [records, hr]
    split_ifs with hx
    · exact ih
    · cases rs with
      | nil =>
        rw [List.mem_cons]
        exact not_or.mpr ⟨Ne.symm hx, ih⟩
      | cons r rs => exact ih

theorem unread_position (f : File) (saved : Option ℕ) : (unread f (some (position f saved))).1 = [] := by
  have hjoin := records_join 10 (f.content.drop (seek f saved))
  have hrest : f.content.drop (position f saved) = (unread f saved).2 := by
    rw [position]
    have hsuffix : (unread f saved).2 <:+ f.content := by
      apply List.IsSuffix.trans ⟨_, hjoin⟩
      exact List.drop_suffix _ _
    exact (List.suffix_iff_eq_drop.mp hsuffix).symm
  have hle : ¬f.content.length < position f saved := by
    rw [position]
    omega
  rw [unread, seek, Option.getD_some, if_neg hle, hrest, records_open]
  exact records_rest 10 _

theorem advanced_of_not_mem {files : List File} {offsets : Text → Option ℕ} {name : Text}
    (h : name ∉ files.map File.name) : advanced files offsets name = offsets name := by
  induction files generalizing offsets with
  | nil => rfl
  | cons f files ih =>
    rw [List.map_cons, List.mem_cons, not_or] at h
    rw [advanced, List.foldl_cons]
    exact (ih h.2).trans (Function.update_of_ne h.1 _ _)

theorem advanced_of_mem {files : List File} (h : (files.map File.name).Nodup) {offsets : Text → Option ℕ} {f : File}
    (hf : f ∈ files) : advanced files offsets f.name = some (position f (offsets f.name)) := by
  induction files generalizing offsets with
  | nil => cases hf
  | cons g files ih =>
    obtain ⟨hg, hrest⟩ := List.nodup_cons.mp h
    rw [advanced, List.foldl_cons]
    rcases List.mem_cons.mp hf with rfl | hmem
    · exact (advanced_of_not_mem hg).trans (Function.update_self _ _ _)
    · have hne : f.name ≠ g.name := fun he => hg (he ▸ List.mem_map_of_mem hmem)
      refine (ih hrest hmem).trans ?_
      rw [Function.update_of_ne hne]

theorem popped_of_not_mem {removed : List Text} {offsets : Text → Option ℕ} {name : Text} (h : name ∉ removed) :
    removed.foldl (fun offsets name => Function.update offsets name none) offsets name = offsets name := by
  induction removed generalizing offsets with
  | nil => rfl
  | cons r removed ih =>
    rw [List.mem_cons, not_or] at h
    rw [List.foldl_cons, ih h.2, Function.update_of_ne h.1]

theorem perform_removes (names : List Text) (d : Disk) : ∃ d', perform o (names.map .remove) d = (.ok (), d') ∧
    d'.files = d.files.filter (fun f => f.name ∉ names) ∧ d'.offsets = d.offsets ∧ d'.conn = d.conn := by
  induction names generalizing d with
  | nil => exact ⟨d, rfl, (List.filter_eq_self.mpr fun f _ => decide_eq_true List.not_mem_nil).symm, rfl, rfl⟩
  | cons name names ih =>
    obtain ⟨d', hd', hfiles, hoffsets, hconn⟩ := ih (exec o d (.remove name)).2
    refine ⟨d', hd', ?_, hoffsets, hconn⟩
    rw [hfiles]
    change (d.files.filter _).filter _ = _
    rw [List.filter_filter]
    apply List.filter_congr
    intro f _
    by_cases hn : f.name = name
    · simp [hn]
    · simp [hn]

end Files

section Stages

def core (t : Tables) : List Message × List Classify × List Doc × List Report × List Alias × List Blacklisted :=
  (t.messages, t.classifies, t.docs, t.reports, t.aliases, t.blacklisted)

variable (o : Observer) (blacklisted : List Blacklisted) (d₀ : Disk)

/-- Every line has been played, and what the inbox still holds is among them. -/
structure Finished (d : Disk) : Prop where
  played : ∃ seen : List (Surroundings × Bytes), seen.map Prod.snd = lines d₀ ∧
    core d.conn.view = core ((log o blacklisted).play d₀.conn.view seen)
  left : ∀ raw ∈ lines d, raw ∈ lines d₀

structure Midway (d : Disk) : Prop where
  played : ∃ seen : List (Surroundings × Bytes), seen.map Prod.snd <+: lines d₀ ∧
    d.conn.view = (log o blacklisted).play d₀.conn.view seen
  files : d.files = d₀.files
  offsets : d.offsets = d₀.offsets

structure Reached (d : Disk) : Prop where
  stage : Midway o blacklisted d₀ d ∨ Finished o blacklisted d₀ d
  blacklisted : d.conn.view.blacklisted = blacklisted
  durable : Durable d.conn

variable {o blacklisted d₀} {d : Disk}

theorem lines_congr {d d' : Disk} (hfiles : d'.files = d.files) (hoffsets : d'.offsets = d.offsets) :
    lines d' = lines d := by rw [lines, lines, hfiles, hoffsets]

theorem Finished.congr (h : Finished o blacklisted d₀ d) {d' : Disk} (hcore : core d'.conn.view = core d.conn.view)
    (hlines : ∀ raw ∈ lines d', raw ∈ lines d) : Finished o blacklisted d₀ d' := by
  obtain ⟨seen, hall, hview⟩ := h.played
  exact ⟨⟨seen, hall, hcore.trans hview⟩, fun raw hraw => h.left raw (hlines raw hraw)⟩

theorem Finished.held (h : Finished o blacklisted d₀ d) {raw : Bytes} (hraw : raw ∈ lines d₀) :
    (log o blacklisted).Held raw d.conn.view := by
  obtain ⟨seen, hall, hview⟩ := h.played
  rw [← hall] at hraw
  obtain ⟨p, hp, rfl⟩ := List.mem_map.mp hraw
  have hheld := (log o blacklisted).held_of_mem (s := d₀.conn.view) hp
  intro w e he
  have hmessages : d.conn.view.messages = ((log o blacklisted).play d₀.conn.view seen).messages := congrArg Prod.fst hview
  rw [hmessages]
  exact hheld w e he

theorem reached_played (h : Reached o blacklisted d₀ d) {qs : List (Surroundings × Bytes)} {c : Conn}
    (hc : Played (o := o) blacklisted d.conn.view qs c) (hqs : qs.map Prod.snd <+: lines d) :
    Reached o blacklisted d₀ { d with conn := c } ∧
      (qs.map Prod.snd = lines d → Finished o blacklisted d₀ { d with conn := c }) := by
  rcases h.stage with hmidway | hfinished
  · have hlines : lines d = lines d₀ := lines_congr hmidway.files hmidway.offsets
    obtain ⟨seen, hseen, hview⟩ := hmidway.played
    rw [hlines] at hqs ⊢
    have hcomparable := List.prefix_or_prefix_of_prefix hseen hqs
    have hplay : c.view = (log o blacklisted).play d₀.conn.view (seen ++ qs.drop seen.length) := by
      rw [hc.view, hview]
      exact Replay.Log.play_again hcomparable
    have hsnd : (seen ++ qs.drop seen.length).map Prod.snd = seen.map Prod.snd ∧ qs.map Prod.snd <+: seen.map Prod.snd ∨
        (seen ++ qs.drop seen.length).map Prod.snd = qs.map Prod.snd := by
      rw [List.map_append, List.map_drop]
      rcases hcomparable with hle | hle
      · apply Or.inr
        have htake := List.prefix_iff_eq_take.mp hle
        rw [List.length_map] at htake
        conv_lhs => rw [htake]
        exact List.take_append_drop _ _
      · have hlength := hle.length_le
        rw [List.length_map, List.length_map] at hlength
        rw [List.drop_eq_nil_of_le (by rw [List.length_map]; exact hlength), List.append_nil]
        exact .inl ⟨rfl, hle⟩
    constructor
    · refine ⟨.inl ⟨⟨_, ?_, hplay⟩, hmidway.files, hmidway.offsets⟩, hc.blacklisted, hc.durable⟩
      rcases hsnd with ⟨he, -⟩ | he <;> rw [he]
      · exact hseen
      · exact hqs
    · intro hall
      refine ⟨⟨_, ?_, congrArg core hplay⟩, ?_⟩
      · rcases hsnd with ⟨he, hle⟩ | he
        · rw [he]
          rw [hall] at hle
          exact hseen.eq_of_length_le hle.length_le
        · rw [he, hall]
      · intro raw hraw
        rw [← hlines]
        exact hraw
  · have hview : c.view = d.conn.view := by
      rw [hc.view]
      apply Replay.Log.play_of_held
      intro p hp
      exact hfinished.held (hfinished.left p.2 (hqs.subset (List.mem_map_of_mem hp)))
    have hkept : Finished o blacklisted d₀ { d with conn := c } :=
      hfinished.congr (congrArg core hview) fun _ hraw => hraw
    exact ⟨⟨.inr hkept, hc.blacklisted, hc.durable⟩, fun _ => hkept⟩

theorem expireClaims_run (now now' : ℚ) (c : Conn) : ∃ u, expireClaims o now now' c = (.ok (), u) ∧
    core u.view = core c.view ∧ u.view.blacklisted = c.view.blacklisted ∧ Durable u := by
  unfold expireClaims
  rw [Txn.write_bind]
  split
  · exact ⟨_, rfl, rfl, rfl, rfl⟩
  · exact ⟨_, rfl, rfl, rfl, rfl⟩

theorem lines_saved {d d' : Disk} {removed : List Text} (hfiles : d'.files = d.files.filter (fun f => f.name ∉ removed))
    (hoffsets : d'.offsets = removed.foldl (fun offsets name => Function.update offsets name none)
      (advanced (jsonl d.files) d.offsets)) : lines d' = [] := by
  rw [List.eq_nil_iff_forall_not_mem]
  intro raw hraw
  obtain ⟨f, hf, hraw⟩ := mem_lines.mp hraw
  obtain ⟨hmem, hjsonl⟩ := mem_jsonl.mp hf
  rw [hfiles, List.mem_filter, decide_eq_true_eq] at hmem
  rw [hoffsets, popped_of_not_mem hmem.2,
    advanced_of_mem (names_jsonl d.distinct) (mem_jsonl.mpr ⟨hmem.1, hjsonl⟩), unread_position] at hraw
  cases hraw

theorem lines_removed {d d' : Disk} {removed : List Text} (hfiles : d'.files = d.files.filter (fun f => f.name ∉ removed))
    (hoffsets : d'.offsets = d.offsets) : ∀ raw ∈ lines d', raw ∈ lines d := by
  intro raw hraw
  obtain ⟨f, hf, hraw⟩ := mem_lines.mp hraw
  obtain ⟨hmem, hjsonl⟩ := mem_jsonl.mp hf
  rw [hfiles, List.mem_filter] at hmem
  rw [hoffsets] at hraw
  exact mem_lines.mpr ⟨f, mem_jsonl.mpr ⟨hmem.1, hjsonl⟩, hraw⟩

theorem finished_closing {cfg : Config} {r : Readings} {d₁ : Disk} (h : Finished o blacklisted d₀ d₁)
    (hreached : Reached o blacklisted d₀ d₁) (hfiles : d₁.files = d.files) (j : ℕ) :
    Finished o blacklisted d₀ (perform o ((closing cfg r d).take j) d₁).2 ∧
      Reached o blacklisted d₀ (perform o ((closing cfg r d).take j) d₁).2 := by
  unfold closing
  dsimp only
  generalize pruneInbox cfg r (advanced (jsonl d.files) d.offsets) (jsonl d.files) = removed
  generalize hsaved : removed.foldl (fun offsets name => Function.update offsets name none)
    (advanced (jsonl d.files) d.offsets) = saved
  rw [List.take_append, ← List.map_take]
  obtain ⟨d₂, hd₂, hfiles₂, hoffsets₂, hconn₂⟩ := perform_removes (o := o) (removed.take j) d₁
  have hremoved : Finished o blacklisted d₀ d₂ ∧ Reached o blacklisted d₀ d₂ := by
    have hkept : Finished o blacklisted d₀ d₂ := h.congr (by rw [hconn₂]) (lines_removed hfiles₂ hoffsets₂)
    refine ⟨hkept, .inr hkept, ?_, ?_⟩ <;> rw [hconn₂]
    · exact hreached.blacklisted
    · exact hreached.durable
  rcases perform_append (o := o) ((removed.take j).map .remove) _ d₁ with ⟨d', hd', happend⟩ | ⟨e, d', hd', -⟩
  · rw [happend]
    cases hd₂.symm.trans hd'
    cases hj : j - (removed.map Act.remove).length with
    | zero => exact hremoved
    | succ k =>
      rw [List.length_map] at hj
      rw [List.take_of_length_le (by omega), hfiles] at hfiles₂
      have hsave : exec o d₂ (.save saved) = (.ok (), { d₂ with offsets := saved }) := rfl
      rw [List.take_succ_cons, perform_ok hsave]
      have hlines : lines { d₂ with offsets := saved } = [] := lines_saved hfiles₂ hsaved.symm
      have hnone : ∀ raw ∈ lines { d₂ with offsets := saved }, raw ∈ lines d₂ := by
        rw [hlines]
        exact fun raw hraw => absurd hraw List.not_mem_nil
      have hfinished : Finished o blacklisted d₀ { d₂ with offsets := saved } := hremoved.1.congr rfl hnone
      cases k with
      | zero => exact ⟨hfinished, .inr hfinished, hremoved.2.blacklisted, hremoved.2.durable⟩
      | succ k =>
        obtain ⟨u, hu, hcore, hb, hdurable⟩ := expireClaims_run (o := o) r.expired r.expired' d₂.conn
        have hexpire : exec o { d₂ with offsets := saved } (.expire r.expired r.expired') =
            (.ok (), { d₂ with offsets := saved, conn := u }) := by rw [exec, hu]
        rw [List.take_succ_cons, List.take_nil, perform_ok hexpire]
        have hexpired : Finished o blacklisted d₀ { d₂ with offsets := saved, conn := u } :=
          hfinished.congr hcore fun _ hraw => hraw
        exact ⟨hexpired, .inr hexpired, hb.trans hremoved.2.blacklisted, hdurable⟩
  · cases hd₂.symm.trans hd'

end Stages

section Histories

variable {o : Observer} {blacklisted : List Blacklisted} {d₀ d : Disk} {cfg : Config}

theorem lines_of_stage (h : Reached o blacklisted d₀ d) {raw : Bytes} (hraw : raw ∈ lines d) : raw ∈ lines d₀ := by
  rcases h.stage with hmidway | hfinished
  · rw [← lines_congr hmidway.files hmidway.offsets]
    exact hraw
  · exact hfinished.left raw hraw

theorem map_snd_timed (r : Readings) (d : Disk) : (timed r d).map Prod.snd = lines d := by
  rw [timed, List.map_map]
  exact List.zipIdx_map_fst 0 (lines d)

theorem reached_drain (htame : ∀ raw ∈ lines d₀, Tame o blacklisted raw) (h : Reached o blacklisted d₀ d) (r : Readings)
    (k : ℕ) : Reached o blacklisted d₀ (perform o ((drainOnce cfg r d).take k) d).2 ∧
      ((drainOnce cfg r d).length ≤ k → (perform o ((drainOnce cfg r d).take k) d).1 = .ok () →
        Finished o blacklisted d₀ (perform o ((drainOnce cfg r d).take k) d).2) := by
  have hsnd := map_snd_timed r d
  have hps : ∀ p ∈ (timed r d).take k, Tame o blacklisted p.2 ∧ p.1.review = .ok () := by
    intro p hp
    have hmem := List.mem_of_mem_take hp
    constructor
    · apply htame p.2 (lines_of_stage h _)
      rw [← hsnd]
      exact List.mem_map_of_mem hmem
    · obtain ⟨q, -, rfl⟩ := List.mem_map.mp hmem
      exact r.queued q.2
  unfold drainOnce
  generalize timed r d = ps at hsnd hps ⊢
  obtain ⟨c, n, hdisk, hplayed, hall⟩ := perform_lines hps h.blacklisted h.durable
  have hprefix : ((ps.take k).take n).map Prod.snd <+: lines d := by
    rw [List.take_take, List.map_take, hsnd]
    exact List.take_prefix _ _
  obtain ⟨hreached, hfinished⟩ := reached_played h hplayed hprefix
  rw [List.take_append, ← List.map_take]
  rcases perform_append (o := o) ((ps.take k).map fun p => Act.line p.1 p.2)
    ((closing cfg r d).take (k - (ps.map fun p => Act.line p.1 p.2).length)) d with ⟨d₁, hd₁, happend⟩ | ⟨e, d₁, hd₁, happend⟩
  · rw [happend]
    rw [hd₁] at hdisk hall
    obtain rfl : d₁ = { d with conn := c } := hdisk
    by_cases hk : ps.length ≤ k
    · have hdone : Finished o blacklisted d₀ { d with conn := c } := by
        apply hfinished
        rw [hall rfl, List.take_of_length_le hk, hsnd]
      obtain ⟨hclosed, hstage⟩ := finished_closing (r := r) (d := d) hdone hreached rfl
        (k - (ps.map fun p => Act.line p.1 p.2).length)
      exact ⟨hstage, fun _ _ => hclosed⟩
    · rw [List.length_map, Nat.sub_eq_zero_of_le (by omega), List.take_zero]
      refine ⟨hreached, fun hlength => ?_⟩
      rw [List.length_append, List.length_map] at hlength
      omega
  · rw [happend]
    rw [hd₁] at hdisk
    obtain rfl : d₁ = { d with conn := c } := hdisk
    refine ⟨hreached, fun _ hret => ?_⟩
    cases hret

theorem reached_crash (h : Reached o blacklisted d₀ d) : Reached o blacklisted d₀ d.crash := by
  have hview : d.crash.conn.view = d.conn.view := h.durable.symm
  refine ⟨?_, ?_, rfl⟩
  · rcases h.stage with hmidway | hfinished
    · obtain ⟨seen, hseen, hplay⟩ := hmidway.played
      exact .inl ⟨⟨seen, hseen, hview.trans hplay⟩, hmidway.files, hmidway.offsets⟩
    · exact .inr (hfinished.congr (congrArg core hview) fun _ hraw => hraw)
  · rw [hview]
    exact h.blacklisted

theorem reached_history (htame : ∀ raw ∈ lines d₀, Tame o blacklisted raw) (h : Reached o blacklisted d₀ d)
    (history : List Attempt) : Reached o blacklisted d₀ (run (attempt o cfg) d history) := by
  apply run_invariant_of_step (I := Reached o blacklisted d₀) _ h
  intro d a hd
  exact reached_crash (reached_drain htame hd a.readings a.steps).1

theorem finished_drained (htame : ∀ raw ∈ lines d₀, Tame o blacklisted raw) (h : Reached o blacklisted d₀ d) {r : Readings}
    (hr : (drained o cfg r d).1 = .ok ()) : Finished o blacklisted d₀ (drained o cfg r d).2 := by
  have hdrain := (reached_drain htame h r (drainOnce cfg r d).length).2 le_rfl
  rw [List.take_length] at hdrain
  exact hdrain hr

theorem alike_of_core {t t' u u' : Tables} (h : Alike t t') (hu : core u = core t) (hu' : core u' = core t') : Alike u u' := by
  simp only [core, Prod.mk.injEq] at hu hu'
  obtain ⟨hm, hc, hd, hr, ha, hb⟩ := hu
  obtain ⟨hm', hc', hd', hr', ha', hb'⟩ := hu'
  exact h.congr hm hc hd hr ha hb hm' hc' hd' hr' ha' hb'

/-- However often a drain stops before one goes through, the catalog comes out as after one drain that is not
interrupted, times apart, and holds the message of every complete line. -/
theorem drained_after_crashes (o : Observer) (cfg : Config) (d : Disk) (hidle : d.conn.Idle)
    (htame : ∀ raw ∈ lines d, Tame o d.conn.view.blacklisted raw) (r : Readings) (hr : (drained o cfg r d).1 = .ok ())
    (history : List Attempt) (r' : Readings) (hr' : (drained o cfg r' (run (attempt o cfg) d history)).1 = .ok ()) :
    Alike (drained o cfg r d).2.conn.view (drained o cfg r' (run (attempt o cfg) d history)).2.conn.view ∧
      ∀ raw ∈ lines d, ∀ w e, lineEvent o d.conn.view.blacklisted w raw = some e → e.payloadHash ∈
        (drained o cfg r' (run (attempt o cfg) d history)).2.conn.view.messages.map Message.payloadHash := by
  have hstart : Reached o d.conn.view.blacklisted d d :=
    ⟨.inl ⟨⟨[], List.nil_prefix, rfl⟩, rfl, rfl⟩, rfl, Session.view_of_idle hidle⟩
  have hsingle := finished_drained htame hstart hr
  have hfinal := finished_drained htame (reached_history htame hstart history) hr'
  constructor
  · obtain ⟨seen, hall, hcore⟩ := hsingle.played
    obtain ⟨seen', hall', hcore'⟩ := hfinal.played
    exact alike_of_core (alike_play o _ (.refl _) (hall.trans hall'.symm)) hcore hcore'
  · intro raw hraw
    exact hfinal.held hraw

end Histories

section Sample

variable {o : Observer} {blacklisted : List Blacklisted}

theorem tame_of_event {raw : Bytes} {w : Surroundings} (h : (lineEvent o blacklisted w raw).isSome = true) :
    Tame o blacklisted raw := by
  obtain ⟨e, he⟩ := Option.isSome_iff_exists.mp h
  intro obj hobj w' s hw hs
  unfold lineEvent at he
  split at he
  next => cases he
  next =>
    rw [hobj, show (Except.ok obj : Except Error Value).toOption = some obj from rfl, Option.bind_some] at he
    cases hread : Store.read o (shutOut blacklisted) w obj with
    | error x =>
      rw [hread] at he
      cases he
    | ok x =>
      rw [hread] at he
      obtain rfl : x = some e := he
      obtain ⟨e', he', -⟩ := read_time o w' hread
      rw [← read_congr o (show s.view.blacklisted = (shutOut blacklisted).blacklisted from hs) w' obj] at he'
      exact ingestMessage_returns o he' hw

def sampleInbox : Disk where
  files := [⟨txt "2026-01-02.jsonl",
    ascii "\x7b\"kind\":\"classify\",\"cid\":\"f0155000100\",\"publisher\":\"12D3KooWPeer\"\x7d\n" ++
      ascii "\x7b\"kind\":\"report\",\"cid\":\"f0155000100\",\"publisher\":\"12D3KooWPeer\",\"reason\":\"wrong\"\x7d\n" ++
        ascii "\x7b\"kind\"", 0⟩]
  distinct := List.nodup_singleton _
  offsets := fun _ => none
  conn := fresh

def sampleReadings (start : ℚ) : Readings where
  clock := fun i => ⟨start + i, start + i, start + i, .ok ()⟩
  queued := fun _ => rfl
  today := txt "2026-01-02.jsonl"
  pruned := start
  expired := start
  expired' := start
  removable := fun _ => true

def crashedTwice : Disk :=
  run (attempt sampleObserver ⟨7, 65536⟩) sampleInbox [⟨1, sampleReadings 1000⟩, ⟨2, sampleReadings 2000⟩]

theorem drained_after_two_crashes :
    (drained sampleObserver ⟨7, 65536⟩ (sampleReadings 3000) crashedTwice).2.conn.view.messages.length = 2 ∧
      Alike (drained sampleObserver ⟨7, 65536⟩ (sampleReadings 1000) sampleInbox).2.conn.view
        (drained sampleObserver ⟨7, 65536⟩ (sampleReadings 3000) crashedTwice).2.conn.view := by
  have hagain : (drained sampleObserver ⟨7, 65536⟩ (sampleReadings 3000) crashedTwice).1 = .ok () ∧
      (drained sampleObserver ⟨7, 65536⟩ (sampleReadings 3000) crashedTwice).2.conn.view.messages.length = 2 := by
    decide +kernel
  have hreturns : (drained sampleObserver ⟨7, 65536⟩ (sampleReadings 1000) sampleInbox).1 = .ok () := by decide +kernel
  have hevents : ∀ raw ∈ lines sampleInbox, (lineEvent sampleObserver [] sampleSurroundings raw).isSome = true := by
    decide +kernel
  have htame : ∀ raw ∈ lines sampleInbox, Tame sampleObserver [] raw := fun raw hraw => tame_of_event (hevents raw hraw)
  exact ⟨hagain.2, (drained_after_crashes sampleObserver ⟨7, 65536⟩ sampleInbox rfl htame (sampleReadings 1000) hreturns
    [⟨1, sampleReadings 1000⟩, ⟨2, sampleReadings 2000⟩] (sampleReadings 3000) hagain.1).1⟩

end Sample

end ObserverClub.Ingest
