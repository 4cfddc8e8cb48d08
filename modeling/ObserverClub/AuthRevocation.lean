import ObserverClub.AuthSessions

namespace ObserverClub.Auth

open Library Python

inductive Change where
  | set
  | clear
  deriving DecidableEq

def Op.change : Op → List Change
  | .setPassword _ _ _ => [.set]
  | .clearPassword _ => [.clear]
  | .issueSession _ _ _ => []

/-- The password changes that complete in a run. -/
def completed (crypto : Crypto) (s : State) : List Op → List Change
  | [] => []
  | op :: ops =>
    match step crypto s op with
    | none => completed crypto s ops
    | some s' => op.change ++ completed crypto s' ops

def bump (r : ℤ) : ℤ := if r + 1 = 0 then 1 else r + 1

def revision (r : ℤ) : List Change → ℤ
  | [] => r
  | .set :: cs => revision (bump r) cs
  | .clear :: cs => revision 0 cs

section Revision

theorem revision_append (r : ℤ) (cs ds : List Change) : revision r (cs ++ ds) = revision (revision r cs) ds := by
  induction cs generalizing r with
  | nil => rfl
  | cons c cs ih => cases c <;> simp [revision, ih]

theorem revision_sets_of_nonneg {r : ℤ} (h : 0 ≤ r) (k : ℕ) : revision r (List.replicate k .set) = r + k := by
  induction k generalizing r with
  | zero => simp [revision]
  | succ k ih =>
    have hb : bump r = r + 1 := by unfold bump; omega
    rw [List.replicate_succ, revision, hb, ih (by omega)]
    push_cast
    omega

theorem lt_revision_sets (r : ℤ) (k : ℕ) : r < revision r (List.replicate (k + 1) .set) := by
  induction k generalizing r with
  | zero =>
    simp only [List.replicate, revision]
    unfold bump
    split_ifs <;> omega
  | succ k ih =>
    have := ih (bump r)
    rw [List.replicate_succ, revision]
    unfold bump at this ⊢
    split_ifs at this ⊢ <;> omega

theorem changes_cases (cs : List Change) :
    (∃ k, cs = List.replicate k .set) ∨ ∃ pre k, cs = pre ++ .clear :: List.replicate k .set := by
  induction cs with
  | nil => exact .inl ⟨0, rfl⟩
  | cons c cs ih =>
    rcases ih with ⟨k, rfl⟩ | ⟨pre, k, rfl⟩
    · cases c with
      | set => exact .inl ⟨k + 1, rfl⟩
      | clear => exact .inr ⟨[], k, rfl⟩
    · exact .inr ⟨c :: pre, k, rfl⟩

/-- The changes end in a removal of the password and `r` new ones. -/
def Restarted (r : ℤ) (cs : List Change) : Prop :=
  ∃ pre k, cs = pre ++ .clear :: List.replicate k .set ∧ (k : ℤ) = r

theorem revision_restart (r : ℤ) (pre : List Change) (k : ℕ) :
    revision r (pre ++ .clear :: List.replicate k .set) = k := by
  rw [revision_append, revision, revision_sets_of_nonneg (le_refl 0), zero_add]

theorem revision_eq_self {r : ℤ} {cs : List Change} (hne : cs ≠ []) : revision r cs = r ↔ Restarted r cs := by
  constructor
  · intro h
    rcases changes_cases cs with ⟨k, rfl⟩ | ⟨pre, k, rfl⟩
    · obtain ⟨k, rfl⟩ : ∃ j, k = j + 1 := Nat.exists_eq_succ_of_ne_zero (by rintro rfl; exact hne rfl)
      have := lt_revision_sets r k
      omega
    · exact ⟨pre, k, rfl, by rw [← h, revision_restart]⟩
  · rintro ⟨pre, k, rfl, rfl⟩
    exact revision_restart _ pre k

end Revision

section Refinement

variable {crypto : Crypto}

theorem rev_newRecord (salt : Random 16) (raw : Bytes) (r : ℤ) :
    rev (some (.json (newRecord crypto salt.1 (crypto.derive raw salt.1) (r + 1)))) = .ok (bump r) := by
  have hs : hexText salt.1 ≠ [] := by
    intro he
    simpa [he, salt.2] using hexText_length salt.1
  have hd : hexText (crypto.derive raw salt.1) ≠ [] := by
    intro he
    simpa [he, crypto.derive_length] using hexText_length (crypto.derive raw salt.1)
  have hsalt : item (newRecord crypto salt.1 (crypto.derive raw salt.1) (r + 1)) "salt" = .str (hexText salt.1) := by
    cases h : crypto.scrypt <;> simp +decide [newRecord, defaultKdf, h, item, Json.get, Json.lookup]
  have hhash : item (newRecord crypto salt.1 (crypto.derive raw salt.1) (r + 1)) "hash" =
      .str (hexText (crypto.derive raw salt.1)) := by
    cases h : crypto.scrypt <;> simp +decide [newRecord, defaultKdf, h, item, Json.get, Json.lookup]
  have hrev : item (newRecord crypto salt.1 (crypto.derive raw salt.1) (r + 1)) "rev" = .num (.int (r + 1)) := by
    cases h : crypto.scrypt <;> simp +decide [newRecord, defaultKdf, h, item, Json.get, Json.lookup]
  have hcorrupt : item (newRecord crypto salt.1 (crypto.derive raw salt.1) (r + 1)) "corrupt" = .null := by
    cases h : crypto.scrypt <;> simp +decide [newRecord, defaultKdf, h, item, Json.get, Json.lookup]
  have htruthy : truthy (newRecord crypto salt.1 (crypto.derive raw salt.1) (r + 1)) = true := by
    simp [newRecord, truthy]
  have hrecord : isRecord (newRecord crypto salt.1 (crypto.derive raw salt.1) (r + 1)) = true := by
    simp only [newRecord] at hsalt hhash ⊢
    simp [isRecord, hsalt, hhash, truthy, hs, hd]
  simp only [rev, loadRecord, hrecord, if_true, bind, Except.bind, htruthy, hcorrupt, revOf, hrev]
  unfold bump
  by_cases h0 : r + 1 = 0 <;> simp [truthy, either, Python.int, h0]

theorem rev_setPassword {password : Value} {salt : Random 16} {file : Option Stored} {stored : Stored} {r : ℤ}
    (hr : rev file = .ok r) (h : setPassword crypto password salt file = .ok stored) :
    rev (some stored) = .ok (bump r) := by
  cases hl : checkLength password with
  | error e => simp [setPassword, hl, bind, Except.bind] at h
  | ok t =>
    cases he : encodeUtf8 t with
    | error e => simp [setPassword, hl, he, bind, Except.bind] at h
    | ok raw =>
      cases hd : decimalText (r + 1) with
      | error e => simp [setPassword, hl, he, hr, hd, bind, Except.bind] at h
      | ok d =>
        obtain rfl : .json (newRecord crypto salt.1 (crypto.derive raw salt.1) (r + 1)) = stored := by
          simpa [setPassword, hl, he, hr, hd, bind, Except.bind, pure, Except.pure] using h
        exact rev_newRecord salt raw r

theorem step_rev {s s' : State} {op : Op} {r : ℤ} (hr : rev s.file = .ok r) (h : step crypto s op = some s') :
    rev s'.file = .ok (revision r op.change) := by
  cases op with
  | setPassword password salt written =>
    simp only [step] at h
    split at h
    · rename_i file hf
      split_ifs at h
      obtain rfl := Option.some.inj h
      exact rev_setPassword hr hf
    · exact absurd h (by simp)
  | clearPassword removed =>
    simp only [step] at h
    split_ifs at h
    obtain rfl := Option.some.inj h
    rfl
  | issueSession now nonce fresh =>
    simp only [step] at h
    split at h
    · rename_i s'' token hi
      obtain rfl := Option.some.inj h
      obtain ⟨_, _, _, hf, _⟩ := sessionOk_issued hi
      rw [hf]
      exact hr
    · exact absurd h (by simp)

theorem run_rev {s : State} {r : ℤ} (hr : rev s.file = .ok r) (ops : List Op) :
    rev (run crypto s ops).file = .ok (revision r (completed crypto s ops)) := by
  induction ops generalizing s r with
  | nil => exact hr
  | cons op ops ih =>
    simp only [run, List.foldl_cons, completed]
    cases hs : step crypto s op with
    | none => exact ih hr
    | some s' =>
      rw [revision_append]
      exact ih (step_rev hr hs)

theorem step_hasKey {k : Bytes} {s s' : State} {op : Op} (hk : HasKey k s) (h : step crypto s op = some s') :
    HasKey k s' := by
  cases op with
  | setPassword password salt written =>
    simp only [step] at h
    split at h
    · split_ifs at h
      obtain rfl := Option.some.inj h
      exact hk
    · exact absurd h (by simp)
  | clearPassword removed =>
    simp only [step] at h
    split_ifs at h
    obtain rfl := Option.some.inj h
    exact hk
  | issueSession now nonce fresh =>
    simp only [step, issueSession, sessionSecret_of_hasKey hk] at h
    split at h
    · rename_i s'' token hi
      obtain rfl := Option.some.inj h
      cases hr : rev s.file with
      | error e => simp [hr, bind, Except.bind] at hi
      | ok r =>
        cases hp : payloadText (now + sessionTtl) (hexText nonce.1) r with
        | error e => simp [hr, hp, bind, Except.bind] at hi
        | ok p =>
          simp only [hr, hp, bind, Except.bind, pure, Except.pure, Except.ok.injEq, Prod.mk.injEq] at hi
          exact hi.1 ▸ hk
    · exact absurd h (by simp)

theorem run_hasKey {k : Bytes} {s : State} (hk : HasKey k s) (ops : List Op) : HasKey k (run crypto s ops) := by
  induction ops generalizing s with
  | nil => exact hk
  | cons op ops ih =>
    simp only [run, List.foldl_cons]
    cases hs : step crypto s op with
    | none => exact ih hk
    | some s' => exact ih (step_hasKey hk hs)

end Refinement

/-- From the state after a token's issue: once a password change has completed, no check at any time
from the issue on accepts the token. -/
def Revoked (crypto : Crypto) (s : State) (token : Text) (issued : ℤ) (later : List Op) : Prop :=
  ∀ ops ops', later = ops ++ ops' → completed crypto s ops ≠ [] →
    ∀ t ≥ issued, ∀ fresh, sessionOk crypto t fresh (run crypto s ops) token ≠ .ok true

/-- A session of revision `r` is revoked for good unless the changes after it, up to some moment, end in
`clear_password` and `r` times `set_password`. -/
theorem revoked_iff_not_restarted {crypto : Crypto} {now : ℤ} {nonce : Random 16} {fresh : Random 32}
    {s s' : State} {token : Text} {r : ℤ} (h : issueSession crypto now nonce fresh s = .ok (s', token))
    (hr : rev s.file = .ok r) (later : List Op) :
    Revoked crypto s' token now later ↔
      ∀ ops ops', later = ops ++ ops' → ¬Restarted r (completed crypto s' ops) := by
  obtain ⟨r', k, hr', hf, hk, hok⟩ := sessionOk_issued h
  obtain rfl : r' = r := by rw [hr] at hr'; exact (Except.ok.inj hr').symm
  have check : ∀ ops t fresh, sessionOk crypto t fresh (run crypto s' ops) token =
      if now + sessionTtl < t then .ok false else .ok (decide (r' = revision r' (completed crypto s' ops))) := by
    intro ops t fresh
    rw [hok _ t fresh (run_hasKey hk ops), run_rev (by rw [hf, hr]) ops]
    rfl
  constructor
  · intro hrev ops ops' he hre
    have hne : completed crypto s' ops ≠ [] := by
      obtain ⟨pre, j, hc, -⟩ := hre
      simp [hc]
    refine hrev ops ops' he hne now le_rfl fresh ?_
    rw [check, if_neg (by simp [sessionTtl]), (revision_eq_self hne).mpr hre]
    simp
  · intro hnot ops ops' he hne t ht fresh
    rw [check]
    split_ifs with hx
    · simp
    · have : revision r' (completed crypto s' ops) ≠ r' := fun hv => hnot ops ops' he ((revision_eq_self hne).mp hv)
      simpa using Ne.symm this

section Sample

def pad32 (s : Bytes) : Bytes := (s ++ List.replicate 32 0).take 32

theorem pad32_length (s : Bytes) : (pad32 s).length = 32 := by simp [pad32]

def sampleCrypto : Crypto :=
  ⟨true, fun p s => pad32 (p ++ s), fun _ _ => pad32_length _, fun k m => pad32 (m.reverse ++ k), fun _ _ => pad32_length _⟩

def sampleRandom (n : ℕ) : Random n := ⟨List.replicate n 7, List.length_replicate⟩

def setTo (password : String) : Op := .setPassword (.str (txt password)) (sampleRandom 16) true

def locked : State := run sampleCrypto ⟨none, none⟩ [setTo "first"]

theorem revoked_after_change : ∃ s' token,
    issueSession sampleCrypto 1000 (sampleRandom 16) (sampleRandom 32) locked = .ok (s', token) ∧
      (Revoked sampleCrypto s' token 1000 [setTo "second"] ↔
        ∀ ops ops', [setTo "second"] = ops ++ ops' → ¬Restarted 1 (completed sampleCrypto s' ops)) := by
  have hi : (issueSession sampleCrypto 1000 (sampleRandom 16) (sampleRandom 32) locked).toOption.any
      (fun _ => true) = true := by decide +kernel
  have hr : rev locked.file = .ok 1 := by decide +kernel
  obtain ⟨p, hp, -⟩ := ok_of_any hi
  exact ⟨p.1, p.2, hp, revoked_iff_not_restarted hp hr _⟩

theorem accepted_after_restart : ∃ s' token,
    issueSession sampleCrypto 1000 (sampleRandom 16) (sampleRandom 32) locked = .ok (s', token) ∧
      ¬Revoked sampleCrypto s' token 1000 [.clearPassword true, setTo "second"] := by
  have hi : (issueSession sampleCrypto 1000 (sampleRandom 16) (sampleRandom 32) locked).toOption.any (fun p =>
      decide (completed sampleCrypto p.1 [.clearPassword true, setTo "second"] ≠ []) &&
        decide (sessionOk sampleCrypto 1001 (sampleRandom 32)
          (run sampleCrypto p.1 [.clearPassword true, setTo "second"]) p.2 = .ok true)) = true := by
    decide +kernel
  obtain ⟨p, hp, hi⟩ := ok_of_any hi
  simp only [Bool.and_eq_true, decide_eq_true_eq] at hi
  exact ⟨p.1, p.2, hp, fun hrev => hrev _ [] (by simp) hi.1 1001 (by decide) _ hi.2⟩

end Sample

end ObserverClub.Auth
