import ObserverClub.Store

namespace ObserverClub.Store

open Library Python Sqlite Catalog

section Columns

variable (o : Observer)

def Binds : Value → Prop
  | .num (.int i) => -2 ^ 63 ≤ i ∧ i < 2 ^ 63
  | .str t => ∀ c ∈ t, isSurrogate c = false
  | .arr _ => False
  | .obj _ => False
  | _ => True

theorem bindValue_isOk (v : Value) : (∃ c, bindValue v = .ok c) ↔ Binds v := by
  match v with
  | .null => simp [bindValue, Binds]
  | .bool b => simp [bindValue, Binds]
  | .num (.int i) =>
    by_cases h : -2 ^ 63 ≤ i ∧ i < 2 ^ 63
    · rw [Binds, bindValue, if_pos h]
      exact ⟨fun _ => h, fun _ => ⟨_, rfl⟩⟩
    · rw [Binds, bindValue, if_neg h]
      exact ⟨fun ⟨_, hc⟩ => (nomatch hc), fun hi => absurd hi h⟩
  | .num (.float x) => cases x <;> simp [bindValue, Binds]
  | .str t =>
    rw [Binds, bindValue]
    by_cases h : t.any isSurrogate = true
    · rw [if_pos h]
      simpa using h
    · rw [if_neg h]
      simpa using h
  | .arr xs => simp [bindValue, Binds]
  | .obj ms => simp [bindValue, Binds]

theorem bindText_isOk (v : Value) : (∃ t, bindText o v = .ok t) ↔ Binds v := by
  rw [← bindValue_isOk, bindText]
  cases bindValue v <;> simp [Except.map]

theorem bindText_str {t : Text} {u : Option Text} :
    bindText o (.str t) = .ok u ↔ Binds (.str t) ∧ u = some t := by
  rw [bindText, bindValue, Binds]
  by_cases h : t.any isSurrogate = true
  · have : ¬∀ c ∈ t, isSurrogate c = false := by simpa using h
    simp [h, this, Except.map]
  · have : ∀ c ∈ t, isSurrogate c = false := by simpa using h
    rw [if_neg h]
    constructor
    · intro hu
      cases hu
      exact ⟨this, rfl⟩
    · rintro ⟨-, rfl⟩
      rfl

def columns : List String := ["mime_type", "size", "filename", "topic", "keywords", "license", "text_sha256"]

theorem bindDescription_isOk (obj : Value) (field : Text) (x : Binary64) :
    (∃ d, bindDescription o obj field x = .ok d) ↔ Binds (.str field) ∧ ∀ key ∈ columns, Binds (item obj key) := by
  simp only [columns, List.forall_mem_cons, List.not_mem_nil, false_implies, implies_true, and_true]
  constructor
  · rintro ⟨d, h⟩
    simp only [bindDescription, bind_eq_ok] at h
    obtain ⟨_, h₁, _, h₂, _, h₃, _, h₄, _, h₅, _, h₆, _, h₇, _, h₈, -⟩ := h
    exact ⟨(bindText_isOk o _).mp ⟨_, h₄⟩, (bindText_isOk o _).mp ⟨_, h₁⟩, (bindValue_isOk _).mp ⟨_, h₂⟩,
      (bindText_isOk o _).mp ⟨_, h₃⟩, (bindText_isOk o _).mp ⟨_, h₅⟩, (bindText_isOk o _).mp ⟨_, h₆⟩,
      (bindText_isOk o _).mp ⟨_, h₇⟩, (bindText_isOk o _).mp ⟨_, h₈⟩⟩
  · rintro ⟨hf, h₁, h₂, h₃, h₄, h₅, h₆, h₇⟩
    obtain ⟨_, e₀⟩ := (bindText_isOk o _).mpr hf
    obtain ⟨_, e₁⟩ := (bindText_isOk o _).mpr h₁
    obtain ⟨_, e₂⟩ := (bindValue_isOk _).mpr h₂
    obtain ⟨_, e₃⟩ := (bindText_isOk o _).mpr h₃
    obtain ⟨_, e₄⟩ := (bindText_isOk o _).mpr h₄
    obtain ⟨_, e₅⟩ := (bindText_isOk o _).mpr h₅
    obtain ⟨_, e₆⟩ := (bindText_isOk o _).mpr h₆
    obtain ⟨_, e₇⟩ := (bindText_isOk o _).mpr h₇
    rw [bindDescription, e₀, e₁, e₂, e₃, e₄, e₅, e₆, e₇]
    exact ⟨_, rfl⟩

def describe (obj : Value) (now : ℚ) : Except Error Description := do
  let field ← normalizeField o (item obj "field")
  let indexedAt ← timeOr (item obj "indexed_at") now
  bindDescription o obj field indexedAt

end Columns

section Rows

variable (o : Observer)

def withMessage (row : Message) (t : Tables) : Tables := { t with messages := t.messages ++ [row] }

def withClassify (row : Classify) (t : Tables) : Tables :=
  { t with classifies := Table.putNew Classify.payloadHash row t.classifies }

def withDoc (cid publisher : Text) (d : Description) (now : ℚ) (t : Tables) : Tables :=
  if (Table.row? Doc.cid cid t.docs).isNone then addStat docsCount 1 (indexDoc cid (insertDoc cid publisher d now t))
  else insertDoc cid publisher d now t

theorem withDoc_eq (cid publisher : Text) (d : Description) (now : ℚ) (t : Tables) : ∃ fts settings,
    withDoc cid publisher d now t = { t with
      docs := Table.putNew Doc.cid ⟨nextRowid t.docs, cid, publisher, d, now⟩ t.docs
      docsFts := fts
      settings := settings } := by
  have hs : ∀ t : Tables, ∃ settings, addStat docsCount 1 t = { t with settings := settings } := by
    intro t
    rw [addStat]
    split <;> exact ⟨_, rfl⟩
  have hi : ∀ t : Tables, ∃ fts, indexDoc cid t = { t with docsFts := fts } := by
    intro t
    rw [indexDoc]
    split <;> exact ⟨_, rfl⟩
  rw [withDoc]
  split
  · obtain ⟨fts, hf⟩ := hi (insertDoc cid publisher d now t)
    obtain ⟨settings, hw⟩ := hs (indexDoc cid (insertDoc cid publisher d now t))
    rw [hw, hf]
    exact ⟨fts, settings, rfl⟩
  · exact ⟨t.docsFts, t.settings, rfl⟩

theorem upsertDoc_eq_ok {cid publisher : Text} {obj : Value} {now : ℚ} {s u : Conn} :
    upsertDoc o cid publisher obj now s = (.ok (), u) ↔
      ∃ d, describe o obj now = .ok d ∧ u = s.opened (withDoc cid publisher d now s.view) := by
  simp only [upsertDoc, describe, Txn.bind_eq_ok, Txn.lift_eq_ok, Txn.read_eq_ok, Txn.attempt_eq_ok, bind_eq_ok]
  constructor
  · rintro ⟨field, s₁, ⟨hf, rfl⟩, x, s₂, ⟨hx, rfl⟩, _, s₃, ⟨rfl, rfl⟩, _, s₄, ⟨v, ⟨d, hd, hv⟩, rfl⟩, h⟩
    cases hv
    refine ⟨d, ⟨field, hf, x, hx, hd⟩, ?_⟩
    rw [withDoc]
    split at h
    next hn => 
      rw [if_pos hn]
      cases h
      rfl
    next hn =>
      rw [if_neg hn]
      cases h
      rfl
  · rintro ⟨d, ⟨field, hf, x, hx, hd⟩, rfl⟩
    refine ⟨field, s, ⟨hf, rfl⟩, x, s, ⟨hx, rfl⟩, _, _, ⟨rfl, rfl⟩, (), _, ⟨_, ⟨d, hd, rfl⟩, rfl⟩, ?_⟩
    rw [withDoc]
    split <;> rfl

theorem insertClassify_eq_ok {hash cid publisher : Text} {obj : Value} {now : ℚ} {s u : Conn} :
    insertClassify o hash cid publisher obj now s = (.ok (), u) ↔
      ∃ d c, describe o obj now = .ok d ∧ (classifierText o obj >>= fun t => bindText o (.str t)) = .ok c ∧
        u = s.opened (withDoc cid publisher d now (dropClaims cid
          (withClassify ⟨hash, cid, publisher, d, c, now⟩ s.view))) := by
  simp only [insertClassify, Txn.bind_eq_ok, Txn.lift_eq_ok, Txn.attempt_eq_ok, Txn.write_eq_ok, bind_eq_ok,
    upsertDoc_eq_ok]
  constructor
  · rintro ⟨field, _, ⟨hf, rfl⟩, t, _, ⟨ht, rfl⟩, x, _, ⟨hx, rfl⟩, _, _, ⟨v, ⟨d, hd, c, hc, hv⟩, rfl⟩, _, _, rfl,
      d', hd', rfl⟩
    cases hv
    have he : describe o obj now = .ok d := by
      rw [describe, hf, hx]
      exact hd
    cases he.symm.trans hd'
    exact ⟨d, c, he, ⟨t, ht, hc⟩, rfl⟩
  · rintro ⟨d, c, he, ⟨t, ht, hc⟩, rfl⟩
    obtain ⟨field, hf, x, hx, hd⟩ : ∃ field, normalizeField o (item obj "field") = .ok field ∧
        ∃ x, timeOr (item obj "indexed_at") now = .ok x ∧ bindDescription o obj field x = .ok d := by
      simpa only [describe, bind_eq_ok] using he
    exact ⟨field, s, ⟨hf, rfl⟩, t, s, ⟨ht, rfl⟩, x, s, ⟨hx, rfl⟩, (), _, ⟨_, ⟨d, hd, c, hc, rfl⟩, rfl⟩, (), _, rfl,
      d, he, rfl⟩

def withAlias (publisher hash name : Text) (now : ℚ) (t : Tables) : Tables :=
  if name = [] then { t with aliases := Table.delete Alias.publisher publisher t.aliases }
  else { t with aliases := Table.put Alias.publisher ⟨publisher, name.take 32, hash, now⟩ t.aliases }

theorem upsertAlias_eq_ok {publisher hash : Text} {obj : Value} {now : ℚ} {s u : Conn} :
    upsertAlias o publisher hash obj now s = (.ok (), u) ↔
      ∃ name, aliasName o obj = .ok name ∧ Binds (.str (name.take 32)) ∧
        u = s.opened (withAlias publisher hash name now s.view) := by
  simp only [upsertAlias, Txn.bind_eq_ok, Txn.lift_eq_ok]
  constructor
  · rintro ⟨name, _, ⟨hn, rfl⟩, h⟩
    refine ⟨name, hn, ?_⟩
    rw [withAlias]
    split at h
    next he =>
      rw [if_pos he, he]
      exact ⟨by simp [Binds], Txn.write_eq_ok.mp h⟩
    next he =>
      rw [if_neg he]
      obtain ⟨v, hv, rfl⟩ := Txn.attempt_eq_ok.mp h
      obtain ⟨b, hb, hv⟩ := bind_eq_ok.mp hv
      obtain ⟨hs, rfl⟩ := (bindText_str o).mp hb
      cases hv
      exact ⟨hs, rfl⟩
  · rintro ⟨name, hn, hs, rfl⟩
    refine ⟨name, s, ⟨hn, rfl⟩, ?_⟩
    rw [withAlias]
    split
    next => rfl
    next => exact Txn.attempt_eq_ok.mpr ⟨_, bind_eq_ok.mpr ⟨_, (bindText_str o).mpr ⟨hs, rfl⟩, rfl⟩, rfl⟩

def withSkip (row : Skip) (t : Tables) : Tables := { t with skips := Table.put Skip.cid row t.skips }

theorem insertSkip_eq_ok {cid publisher : Text} {obj : Value} {now : ℚ} {s u : Conn} :
    insertSkip o cid publisher obj now s = (.ok (), u) ↔
      ∃ mimeType reason, bindText o (item obj "mime_type") = .ok mimeType ∧
        bindText o (item obj "reason") = .ok reason ∧
        u = s.opened (dropClaims cid (withSkip ⟨cid, publisher, mimeType, reason, now⟩ s.view)) := by
  simp only [insertSkip, Txn.bind_eq_ok, Txn.attempt_eq_ok, Txn.write_eq_ok, bind_eq_ok]
  constructor
  · rintro ⟨_, _, ⟨v, ⟨m, hm, r, hr, hv⟩, rfl⟩, rfl⟩
    cases hv
    exact ⟨m, r, hm, hr, rfl⟩
  · rintro ⟨m, r, hm, hr, rfl⟩
    exact ⟨(), _, ⟨_, ⟨m, hm, r, hr, rfl⟩, rfl⟩, rfl⟩

def withClaim (cid publisher : Text) (untilTime : Binary64) (now now' : ℚ) (t : Tables) : Tables :=
  if after untilTime now && !otherLease cid publisher now' t then
    { t with claims := Table.put Claim.publisher ⟨publisher, cid, untilTime⟩ t.claims }
  else t

theorem insertClaim_run {cid publisher : Text} {obj : Value} {now now' : ℚ} {c v : Tables} {x : Binary64}
    (h : float (either (item obj "until") (.num (.int 0))) = .ok x) :
    insertClaim cid publisher obj now now' ⟨c, some v⟩ = (.ok (), ⟨c, some (withClaim cid publisher x now now' v)⟩) := by
  rw [insertClaim, Txn.bind_ok (t := ⟨c, some v⟩) (a := x) (by rw [Txn.lift, h]), withClaim]
  cases after x now with
  | false => rfl
  | true =>
    rw [if_pos rfl, Txn.read_bind, show Session.view ⟨c, some v⟩ = v from rfl]
    cases otherLease cid publisher now' v <;> rfl

theorem insertClaim_eq_ok {cid publisher : Text} {obj : Value} {now now' : ℚ} {c v : Tables} {u : Conn} :
    insertClaim cid publisher obj now now' ⟨c, some v⟩ = (.ok (), u) ↔
      ∃ x, float (either (item obj "until") (.num (.int 0))) = .ok x ∧
        u = ⟨c, some (withClaim cid publisher x now now' v)⟩ := by
  constructor
  · intro h
    obtain ⟨x, _, hx, -⟩ := Txn.bind_eq_ok.mp h
    obtain ⟨hx, -⟩ := Txn.lift_eq_ok.mp hx
    cases h.symm.trans (insertClaim_run hx)
    exact ⟨x, hx, rfl⟩
  · rintro ⟨x, hx, rfl⟩
    exact insertClaim_run hx

def withReport (cid publisher reason : Text) (now : ℚ) (t : Tables) : Tables :=
  if reason = txt "clear" then { t with reports := Table.delete Report.key (cid, publisher) t.reports }
  else { t with reports := Table.put Report.key ⟨cid, publisher, reason, now⟩ t.reports }

theorem insertReport_run {cid publisher : Text} {obj : Value} {now : ℚ} {s : Conn} :
    insertReport cid publisher obj now s =
      (.ok (), s.opened (withReport cid publisher (textOf (item obj "reason")) now s.view)) := by
  rw [insertReport, withReport]
  split <;> rfl

end Rows

section Accept

variable (o : Observer)

/-- A message that the checks of `ingest_message` let pass. -/
structure Acceptable (t : Tables) (obj : Value) (m : Accepted) : Prop where
  object : ∃ ms, obj = .obj ms
  kind : item obj "kind" = .str m.kind
  known : m.kind ∈ kinds
  club : truthy (item obj "club") = true → str o.py (item obj "club") = .ok o.clubID
  cid : m.cid = either (item obj "cid") (.str [])
  publisher : m.publisher = item obj "publisher"
  named : truthy (item obj "publisher") = true
  listed : isBlacklisted o t (item obj "publisher") = .ok false
  valid : m.kind ≠ txt "alias" → truthy m.cid = true ∧ Cid.valid o.upper m.cid = true
  reason : m.kind = txt "report" → ∃ r ∈ reportReasons, item obj "reason" = .str r
  hash : payloadHash o obj = .ok m.payloadHash
  body : Protocol.wireDumps o.py obj = .ok m.body

theorem memberOf_eq_true {choices : List Text} {v : Value} :
    memberOf choices v = .ok true ↔ ∃ t ∈ choices, v = .str t := by
  cases v <;> simp [memberOf]

theorem otherClub_eq_false {obj : Value} :
    otherClub o obj = .ok false ↔ (truthy (item obj "club") = true → str o.py (item obj "club") = .ok o.clubID) := by
  rw [otherClub]
  by_cases h : truthy (item obj "club") = true
  · rw [if_pos h]
    cases str o.py (item obj "club") <;> simp [h, Except.map]
  · simp [h]

theorem otherReason_eq_false {kind : Text} {obj : Value} :
    otherReason kind obj = .ok false ↔
      (kind = txt "report" → ∃ r ∈ reportReasons, item obj "reason" = .str r) := by
  rw [otherReason, ← memberOf_eq_true]
  by_cases h : kind = txt "report"
  · rw [if_pos h]
    cases memberOf reportReasons (item obj "reason") <;> simp [h, Except.map]
  · simp [h]

theorem accept_eq_some {t : Tables} {obj : Value} {m : Accepted} :
    accept o t obj = .ok (some m) ↔ Acceptable o t obj m := by
  constructor
  · intro h
    unfold accept at h
    split at h
    next ms =>
      simp only [bind_eq_ok, guarded_eq_some] at h
      obtain ⟨k, hk, hk', c, hc, hc', hp, b, hb, hb', ht, hv, r, hr, hr', hash, hh, body, hw, h⟩ := h
      cases h
      simp only [Bool.not_eq_eq_eq_not, Bool.not_true, Bool.not_eq_false, Bool.not_eq_true] at hk' hc' hp hb' hr'
      subst hk' hc' hb' hr'
      obtain ⟨kind, hkind, he⟩ := memberOf_eq_true.mp hk
      have hkt : textOf (item (.obj ms) "kind") = kind := by rw [he, textOf]
      rw [hkt] at ht hv hr ⊢
      exact {
        object := ⟨ms, rfl⟩, kind := he, known := hkind, club := (otherClub_eq_false o).mp hc, cid := rfl,
        publisher := rfl, named := hp, listed := hb, reason := otherReason_eq_false.mp hr, hash := hh, body := hw
        valid := fun hne => ⟨by simpa [hne] using ht, by simpa [hne] using hv⟩ }
    next => cases h
  · intro h
    obtain ⟨ms, rfl⟩ := h.object
    have hkt : textOf (item (.obj ms) "kind") = m.kind := by rw [h.kind, textOf]
    unfold accept
    simp only [bind_eq_ok, guarded_eq_some]
    refine ⟨true, memberOf_eq_true.mpr ⟨_, h.known, h.kind⟩, by simp, false, (otherClub_eq_false o).mpr h.club,
      by simp, by simp [h.named], false, h.listed, by simp, ?_, ?_, false, ?_, by simp, _, h.hash, _, h.body, ?_⟩
    · rw [hkt, ← h.cid]
      rintro ⟨hne, ht⟩
      simp [(h.valid hne).1] at ht
    · rw [hkt, ← h.cid]
      rintro ⟨hne, hv⟩
      simp [(h.valid hne).2] at hv
    · rw [hkt]
      exact otherReason_eq_false.mpr h.reason
    · rw [hkt, ← h.cid, ← h.publisher]
      rfl

end Accept

end ObserverClub.Store
