import ObserverClub.Events
import Mathlib.Data.List.Forall2

namespace ObserverClub.Store

open Library Python Sqlite Catalog

section Alike

def Message.untimed (m : Message) : Message := { m with receivedAt := 0 }

def Report.untimed (r : Report) : Report := { r with receivedAt := 0 }

def Alias.untimed (a : Alias) : Alias := { a with receivedAt := 0 }

def Doc.origin (d : Doc) : Text × Text := (d.cid, d.publisher)

theorem origin_cid (d : Doc) : (Doc.origin d).1 = d.cid := rfl

theorem untimed_publisher (a : Alias) : (Alias.untimed a).publisher = a.publisher := rfl

theorem untimed_key (r : Report) : Report.key (Report.untimed r) = Report.key r := rfl

def SameTime (now now' : ℚ) (x x' : Option Binary64) : Prop :=
  x = x' ∨ x = realCell (Binary64.ofRat now) ∧ x' = realCell (Binary64.ofRat now')

def SameDescription (now now' : ℚ) (d d' : Description) : Prop :=
  d' = { d with indexedAt := d'.indexedAt } ∧ SameTime now now' d.indexedAt d'.indexedAt

structure SameClassify (c c' : Classify) : Prop where
  payloadHash : c'.payloadHash = c.payloadHash
  cid : c'.cid = c.cid
  publisher : c'.publisher = c.publisher
  classifier : c'.classifier = c.classifier
  description : SameDescription c.receivedAt c'.receivedAt c.description c'.description

/-- Tables that differ in times alone, as far as messages, classifies, search rows, reports and aliases go. -/
structure Alike (t t' : Tables) : Prop where
  messages : t'.messages.map Message.untimed = t.messages.map Message.untimed
  classifies : List.Forall₂ SameClassify t.classifies t'.classifies
  docs : t'.docs.map Doc.origin = t.docs.map Doc.origin
  reports : t'.reports.map Report.untimed = t.reports.map Report.untimed
  aliases : t'.aliases.map Alias.untimed = t.aliases.map Alias.untimed
  blacklisted : t'.blacklisted = t.blacklisted

theorem SameClassify.refl (c : Classify) : SameClassify c c := ⟨rfl, rfl, rfl, rfl, rfl, .inl rfl⟩

theorem Alike.refl (t : Tables) : Alike t t :=
  ⟨rfl, List.forall₂_same.mpr fun c _ => .refl c, rfl, rfl, rfl, rfl⟩

end Alike

section Reading

variable (o : Observer)

theorem accept_congr {t t' : Tables} (h : t'.blacklisted = t.blacklisted) (obj : Value) :
    accept o t' obj = accept o t obj := by
  have hlisted : ∀ publisher, isBlacklisted o t' publisher = isBlacklisted o t publisher := by
    intro publisher
    rw [isBlacklisted, isBlacklisted, h]
  unfold accept
  simp only [hlisted]

theorem read_congr {t t' : Tables} (h : t'.blacklisted = t.blacklisted) (w : Surroundings) (obj : Value) :
    read o t' w obj = read o t w obj := by
  unfold read
  rw [accept_congr o h]

inductive SameDeed (now now' : ℚ) : Deed → Deed → Prop
  | classify {d d'} (c : Option Text) (h : SameDescription now now' d d') : SameDeed now now' (.classify d c) (.classify d' c)
  | other (deed : Deed) (h : ∀ d c, deed ≠ .classify d c) : SameDeed now now' deed deed

structure SameEvent (now now' : ℚ) (e e' : Event) : Prop where
  parts : e' = { e with deed := e'.deed }
  deed : SameDeed now now' e.deed e'.deed

theorem describe_time {obj : Value} {now : ℚ} (now' : ℚ) {d : Description} (h : describe o obj now = .ok d) :
    ∃ d', describe o obj now' = .ok d' ∧ SameDescription now now' d d' := by
  simp only [describe, bindDescription, bind_eq_ok] at h
  obtain ⟨field, hf, x, hx, _, h₁, _, h₂, _, h₃, _, h₄, _, h₅, _, h₆, _, h₇, _, h₈, hd⟩ := h
  obtain ⟨x', hx', htime⟩ : ∃ x', timeOr (item obj "indexed_at") now' = .ok x' ∧
      SameTime now now' (realCell x) (realCell x') := by
    unfold timeOr at hx ⊢
    split at hx
    next htruthy =>
      rw [if_pos htruthy]
      exact ⟨x, hx, .inl rfl⟩
    next hfalsy =>
      rw [if_neg hfalsy]
      cases hx
      exact ⟨_, rfl, .inr ⟨rfl, rfl⟩⟩
  cases hd
  refine ⟨⟨_, _, _, _, _, _, _, _, realCell x'⟩, ?_, rfl, htime⟩
  simp only [describe, bindDescription, bind_eq_ok]
  exact ⟨field, hf, x', hx', _, h₁, _, h₂, _, h₃, _, h₄, _, h₅, _, h₆, _, h₇, _, h₈, rfl⟩

theorem deedOf_time {w : Surroundings} (w' : Surroundings) {kind : Text} {obj : Value} {deed : Deed}
    (h : deedOf o w kind obj = .ok deed) :
    ∃ deed', deedOf o w' kind obj = .ok deed' ∧ SameDeed w.receivedAt w'.receivedAt deed deed' := by
  unfold deedOf at h ⊢
  split at h
  next hk =>
    rw [if_pos hk]
    obtain ⟨d, hd, hrest⟩ := bind_eq_ok.mp h
    obtain ⟨c, hc, hdeed⟩ := bind_eq_ok.mp hrest
    cases hdeed
    obtain ⟨d', hd', hsame⟩ := describe_time o w'.receivedAt hd
    refine ⟨.classify d' c, ?_, .classify c hsame⟩
    rw [bind_eq_ok]
    refine ⟨d', hd', ?_⟩
    rw [bind_eq_ok]
    exact ⟨c, hc, rfl⟩
  next hk =>
    rw [if_neg hk]
    refine ⟨deed, h, .other deed ?_⟩
    rintro d c rfl
    split at h
    · simp only [bind_eq_ok] at h
      obtain ⟨_, _, _, _, h⟩ := h
      cases h
    split at h
    · simp only [bind_eq_ok] at h
      obtain ⟨_, _, _, _, h⟩ := h
      cases h
    split at h
    · obtain ⟨_, _, h⟩ := map_eq_ok.mp h
      cases h
    · cases h

theorem read_time {t : Tables} {w : Surroundings} (w' : Surroundings) {obj : Value} {e : Event}
    (h : read o t w obj = .ok (some e)) :
    ∃ e', read o t w' obj = .ok (some e') ∧ SameEvent w.receivedAt w'.receivedAt e e' := by
  obtain ⟨m, ha, hc, hp, hb, hd, hk, hh, hbody⟩ := (read_eq_some o).mp h
  obtain ⟨deed', hd', hsame⟩ := deedOf_time o w' hd
  exact ⟨{ e with deed := deed' }, (read_eq_some o).mpr ⟨m, ha, hc, hp, hb, hd', hk, hh, hbody⟩, rfl, hsame⟩

end Reading

section Taking

variable {t t' : Tables} {e e' : Event} {w w' : Surroundings}

theorem Alike.hashes (h : Alike t t') :
    t'.messages.map Message.payloadHash = t.messages.map Message.payloadHash := by
  have huntimed : ∀ ms : List Message, ms.map Message.payloadHash = (ms.map Message.untimed).map Message.payloadHash := by
    intro ms
    rw [List.map_map]
    rfl
  rw [huntimed t'.messages, huntimed t.messages, h.messages]

theorem Alike.congr (h : Alike t t') {u u' : Tables} (hm : u.messages = t.messages) (hc : u.classifies = t.classifies)
    (hd : u.docs = t.docs) (hr : u.reports = t.reports) (ha : u.aliases = t.aliases) (hb : u.blacklisted = t.blacklisted)
    (hm' : u'.messages = t'.messages) (hc' : u'.classifies = t'.classifies) (hd' : u'.docs = t'.docs)
    (hr' : u'.reports = t'.reports) (ha' : u'.aliases = t'.aliases) (hb' : u'.blacklisted = t'.blacklisted) : Alike u u' := by
  constructor
  · rw [hm, hm', h.messages]
  · rw [hc, hc']
    exact h.classifies
  · rw [hd, hd', h.docs]
  · rw [hr, hr', h.reports]
  · rw [ha, ha', h.aliases]
  · rw [hb, hb', h.blacklisted]

theorem Alike.withMessage (h : Alike t t') {m m' : Message} (hm : Message.untimed m' = Message.untimed m) :
    Alike (withMessage m t) (withMessage m' t') := by
  refine ⟨?_, h.classifies, h.docs, h.reports, h.aliases, h.blacklisted⟩
  simp only [Store.withMessage, List.map_append, List.map_cons, List.map_nil, h.messages, hm]

theorem Alike.withClassify (h : Alike t t') {c c' : Classify} (hc : SameClassify c c') :
    Alike (withClassify c t) (withClassify c' t') := by
  refine ⟨h.messages, ?_, h.docs, h.reports, h.aliases, h.blacklisted⟩
  have hhashes : t'.classifies.map Classify.payloadHash = t.classifies.map Classify.payloadHash := by
    have hall := h.classifies
    generalize t.classifies = cs at hall ⊢
    generalize t'.classifies = cs' at hall ⊢
    induction hall with
    | nil => rfl
    | cons hfirst _ ih => rw [List.map_cons, List.map_cons, hfirst.payloadHash, ih]
  have hisSome : ∀ {cs : List Classify} {k : Text},
      (Table.row? Classify.payloadHash k cs).isSome = true ↔ k ∈ cs.map Classify.payloadHash := by
    intro cs k
    rw [Option.isSome_iff_ne_none, Ne, Table.row?_eq_none, List.mem_map]
    push Not
    rfl
  unfold Store.withClassify Table.putNew
  by_cases hold : c.payloadHash ∈ t.classifies.map Classify.payloadHash
  · rw [if_pos (hisSome.mpr hold), if_pos (hisSome.mpr (by rw [hc.payloadHash, hhashes]; exact hold))]
    exact h.classifies
  · rw [if_neg (fun hs => hold (hisSome.mp hs)), if_neg (fun hs => hold (by
      have := hisSome.mp hs
      rw [hc.payloadHash, hhashes] at this
      exact this))]
    exact List.rel_append h.classifies (.cons hc .nil)

theorem Alike.withDoc (h : Alike t t') (cid publisher : Text) (d d' : Description) (now now' : ℚ) :
    Alike (withDoc cid publisher d now t) (withDoc cid publisher d' now' t') := by
  obtain ⟨fts, settings, hd⟩ := withDoc_eq cid publisher d now t
  obtain ⟨fts', settings', hd'⟩ := withDoc_eq cid publisher d' now' t'
  rw [hd, hd']
  refine ⟨h.messages, h.classifies, ?_, h.reports, h.aliases, h.blacklisted⟩
  dsimp only
  rw [Table.map_putNew origin_cid, Table.map_putNew origin_cid, h.docs]
  rfl

theorem Alike.withAlias (h : Alike t t') (publisher hash name : Text) (now now' : ℚ) :
    Alike (withAlias publisher hash name now t) (withAlias publisher hash name now' t') := by
  unfold Store.withAlias
  split
  · refine ⟨h.messages, h.classifies, h.docs, h.reports, ?_, h.blacklisted⟩
    dsimp only
    rw [Table.map_delete untimed_publisher, Table.map_delete untimed_publisher,
      h.aliases]
  · refine ⟨h.messages, h.classifies, h.docs, h.reports, ?_, h.blacklisted⟩
    dsimp only
    rw [Table.map_put untimed_publisher, Table.map_put untimed_publisher,
      h.aliases]
    rfl

theorem Alike.withReport (h : Alike t t') (cid publisher reason : Text) (now now' : ℚ) :
    Alike (withReport cid publisher reason now t) (withReport cid publisher reason now' t') := by
  unfold Store.withReport
  split
  · refine ⟨h.messages, h.classifies, h.docs, ?_, h.aliases, h.blacklisted⟩
    dsimp only
    rw [Table.map_delete untimed_key, Table.map_delete untimed_key,
      h.reports]
  · refine ⟨h.messages, h.classifies, h.docs, ?_, h.aliases, h.blacklisted⟩
    dsimp only
    rw [Table.map_put untimed_key, Table.map_put untimed_key, h.reports]
    rfl

theorem withClaim_eq (cid publisher : Text) (x : Binary64) (now now' : ℚ) (t : Tables) :
    ∃ claims, withClaim cid publisher x now now' t = { t with claims := claims } := by
  unfold withClaim
  split
  · exact ⟨_, rfl⟩
  · exact ⟨t.claims, rfl⟩

theorem Alike.effect (h : Alike t t') (he : SameEvent w.receivedAt w'.receivedAt e e') :
    Alike (e.effect w t) (e'.effect w' t') := by
  rw [he.parts]
  have hdeed := he.deed
  unfold Event.effect
  dsimp only
  generalize e'.deed = deed' at hdeed ⊢
  generalize e.deed = deed at hdeed ⊢
  cases hdeed with
  | @classify d d' c hd =>
    apply Alike.withDoc
    have hrow : SameClassify (e.classified d c w) (Event.classified { e with deed := .classify d' c } d' c w') :=
      ⟨rfl, rfl, rfl, rfl, hd⟩
    exact (h.withClassify hrow).congr rfl rfl rfl rfl rfl rfl rfl rfl rfl rfl rfl rfl
  | other _ hother =>
    cases deed' with
    | classify d c => exact absurd rfl (hother d c)
    | rename name => exact h.withAlias _ _ _ _ _
    | skip mimeType reason => exact h.congr rfl rfl rfl rfl rfl rfl rfl rfl rfl rfl rfl rfl
    | claim x =>
      obtain ⟨claims, hc⟩ := withClaim_eq e.cid e.publisher x w.now w.now' t
      obtain ⟨claims', hc'⟩ := withClaim_eq e.cid e.publisher x w'.now w'.now' t'
      dsimp only
      rw [hc, hc']
      exact h.congr rfl rfl rfl rfl rfl rfl rfl rfl rfl rfl rfl rfl
    | report reason => exact h.withReport _ _ _ _ _

theorem Alike.take (h : Alike t t') (he : SameEvent w.receivedAt w'.receivedAt e e') :
    Alike (e.take w t) (e'.take w' t') := by
  have hhash : e'.payloadHash = e.payloadHash := by rw [he.parts]
  unfold Event.take
  rw [hhash, h.hashes]
  split
  · exact h
  · apply Alike.effect _ he
    apply h.withMessage
    rw [he.parts]
    rfl

end Taking

end ObserverClub.Store
