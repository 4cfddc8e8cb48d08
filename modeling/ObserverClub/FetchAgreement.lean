import ObserverClub.FetchBounds
import Mathlib.Data.List.Forall2
import Mathlib.Data.Set.Function

namespace ObserverClub.Fetch

open Library Python UnixFs

section Verified

variable {cfg : Settings} {host : Host} {net : Network}

def Answer.Carries (body : Bytes) (a : Answer) : Prop := ∃ status, a = .reply status body

/-- A body that some server of the network sends in some answer. -/
def Served (net : Network) (body : Bytes) : Prop :=
  ∃ n, (net n).kubo.Carries body ∨ ∃ i, ((net n).gateway i).Carries body

theorem checked_ok {cid : Text} {a : Answer} {data : Bytes} (h : checked cfg host cid a = .ok data) :
    a.Carries data ∧ verifyBlock host cid data = true := by
  unfold checked at h
  split at h
  · cases h
  · cases h
  · split_ifs at h with _ _ hv
    rw [Except.ok.injEq] at h
    subst h
    exact ⟨⟨_, rfl⟩, hv⟩

theorem tryGateways_ok {cid : Text} {gateway : ℕ → Answer} {i : ℕ} {gateways : List Text} {last : Option Text}
    {data : Bytes} (h : tryGateways cfg host cid gateway i gateways last = .ok data) :
    (∃ i, (gateway i).Carries data) ∧ verifyBlock host cid data = true := by
  induction gateways generalizing i last with
  | nil => simp [tryGateways] at h
  | cons g gateways ih =>
    cases hc : checked cfg host cid (gateway i) with
    | error e =>
      simp only [tryGateways, hc] at h
      exact ih h
    | ok block =>
      simp only [tryGateways, hc, Except.ok.injEq] at h
      subst h
      obtain ⟨hcar, hv⟩ := checked_ok hc
      exact ⟨⟨i, hcar⟩, hv⟩

theorem getBlockEx_ok {n : ℕ} {cid : Text} {offset : ℕ} {data : Bytes}
    (h : getBlockEx cfg host (net n) cid offset = .ok data) : Served net data ∧ verifyBlock host cid data = true := by
  unfold getBlockEx at h
  dsimp only at h
  split_ifs at h with hapi
  · cases hc : checked cfg host cid (net n).kubo with
    | ok block =>
      simp only [hc, Except.ok.injEq] at h
      subst h
      obtain ⟨hcar, hv⟩ := checked_ok hc
      exact ⟨⟨n, Or.inl hcar⟩, hv⟩
    | error e =>
      simp only [hc] at h
      obtain ⟨hcar, hv⟩ := tryGateways_ok h
      exact ⟨⟨n, Or.inr hcar⟩, hv⟩
  · obtain ⟨hcar, hv⟩ := tryGateways_ok h
    exact ⟨⟨n, Or.inr hcar⟩, hv⟩

theorem getBlock_some {n : ℕ} {cid : Text} {offset : ℕ} {data : Bytes}
    (h : getBlock cfg host (net n) cid offset = some data) : Served net data ∧ verifyBlock host cid data = true := by
  unfold getBlock at h
  cases hg : getBlockEx cfg host (net n) cid offset with
  | error e =>
    rw [hg] at h
    cases h
  | ok block =>
    rw [hg] at h
    cases h
    exact getBlockEx_ok hg

theorem verifyBlock_unique {blocks : Set Bytes} (hsha : Set.InjOn host.sha256 blocks) {cid : Text} {a b : Bytes}
    (ha : a ∈ blocks) (hb : b ∈ blocks) (hva : verifyBlock host cid a = true) (hvb : verifyBlock host cid b = true) :
    a = b := by
  unfold verifyBlock at hva hvb
  cases hd : Cid.decodeCid host.chars.upper (.str cid) with
  | none => simp [hd] at hva
  | some parsed =>
    simp only [hd] at hva hvb
    split_ifs at hva hvb with h₁ h₂
    · exact hsha ha hb ((of_decide_eq_true hva).trans (of_decide_eq_true hvb).symm)
    · exact (of_decide_eq_true hva).trans (of_decide_eq_true hvb).symm

/-- The block got for a CID, if one was got, is as `P` says. -/
def Fetched (P : Text → Bytes → Prop) (cid : Text) (o : Option Bytes) : Prop := ∀ block, o = some block → P cid block

section Sweeps

variable {P : Text → Bytes → Prop}
  (hP : ∀ n cid offset block, getBlock cfg host (net n) cid offset = some block → P cid block)

include hP

theorem firstSweep_fetched (offset calls : ℕ) (cids : List Text) :
    List.Forall₂ (fun cid p => p.1 = cid ∧ Fetched P cid p.2) cids (firstSweep cfg host net offset calls cids) := by
  induction cids generalizing calls with
  | nil => exact .nil
  | cons cid cids ih => exact .cons ⟨rfl, fun block h => hP _ _ _ block h⟩ (ih (calls + 1))

theorem secondSweep_fetched {offset calls : ℕ} {cids : List Text} {blocks : List (Text × Option Bytes)}
    (h : List.Forall₂ (fun cid p => p.1 = cid ∧ Fetched P cid p.2) cids blocks) :
    List.Forall₂ (Fetched P) cids (secondSweep cfg host net offset calls blocks).1 := by
  induction h generalizing calls with
  | nil => exact .nil
  | @cons cid p cids blocks hp _ ih =>
    obtain ⟨pcid, o⟩ := p
    obtain ⟨rfl, hf⟩ := hp
    cases o with
    | none => exact .cons (fun block hb => hP _ _ _ block hb) ih
    | some block => exact .cons hf ih

theorem fetchChildren_fetched (offset calls : ℕ) (cids : List Text) :
    List.Forall₂ (Fetched P) cids (fetchChildren cfg host net offset calls cids).1 := by
  have h := firstSweep_fetched hP offset calls cids
  unfold fetchChildren
  dsimp only
  split_ifs
  · exact secondSweep_fetched hP h
  · apply List.forall₂_map_right_iff.mpr
    exact h.imp fun _ _ hp => hp.2

end Sweeps

/-- Sent by some server, and hashed to its CID. -/
def Authentic (host : Host) (net : Network) (cid : Text) (block : Bytes) : Prop :=
  Served net block ∧ verifyBlock host cid block = true

theorem authentic_of_getBlock (cfg : Settings) (host : Host) (net : Network) (n : ℕ) (cid : Text) (offset : ℕ)
    (block : Bytes) (h : getBlock cfg host (net n) cid offset = some block) : Authentic host net cid block := getBlock_some h

end Verified

section Runs

variable (cfg : Settings)

/-- The same limits, over other servers in another order. -/
def Settings.via (api : Bool) (gateways : List Text) : Settings :=
  { cfg with ipfsApi := api, gateways := gateways }

variable {cfg} {api : Bool} {gateways : List Text} {host : Host} {net net' : Network} {offset offset' : ℕ}

/-- Two walks that differ in the calls made so far only. -/
def Alike {item : Type} (w v : Walk item) : Prop := v = { w with calls := v.calls }

theorem Alike.refl {item : Type} (w : Walk item) : Alike w w := rfl

def Failed (a : Assembled) : Prop := ∀ data, a.outcome ≠ .ok (data, false)

def Concur {item : Type} (r q : Walk item ⊕ Assembled) : Prop :=
  (∃ w v, r = .inl w ∧ q = .inl v ∧ Alike w v) ∨ r.elim (fun _ => False) Failed ∨ q.elim (fun _ => False) Failed

theorem failed_truncated {item : Type} (w : Walk item) (data : Bytes) : Failed (w.ended (.ok (data, true))) :=
  fun _ h => by simp [Walk.ended] at h

theorem failed_raised {item : Type} (w : Walk item) (e : Error) : Failed (w.ended (.error e)) :=
  fun _ h => by simp [Walk.ended] at h

theorem replacement_unique (hsha : Set.InjOn host.sha256 {b | Served net b ∨ Served net' b}) {cids : List Text}
    {blocks blocks' : List (Option Bytes)} (h : List.Forall₂ (Fetched (Authentic host net)) cids blocks)
    (h' : List.Forall₂ (Fetched (Authentic host net')) cids blocks') {entries entries' : List Entry}
    (hr : replacement blocks = some entries) (hr' : replacement blocks' = some entries') : entries = entries' := by
  induction h generalizing blocks' entries entries' with
  | nil =>
    cases h'
    exact Option.some.inj (hr.symm.trans hr')
  | @cons cid o cids blocks ho _ ih =>
    cases h' with
    | @cons _ o' _ blocks' ho' h' =>
      cases o with
      | none => simp [replacement] at hr
      | some block =>
        cases o' with
        | none => simp [replacement] at hr'
        | some block' =>
          simp only [replacement, Option.map_eq_some_iff] at hr hr'
          obtain ⟨rest, hrest, rfl⟩ := hr
          obtain ⟨rest', hrest', rfl⟩ := hr'
          obtain ⟨hs, hv⟩ := ho block rfl
          obtain ⟨hs', hv'⟩ := ho' block' rfl
          rw [ih h' hrest hrest', verifyBlock_unique hsha (Or.inl hs) (Or.inr hs') hv hv']

theorem sniffed_alike (host : Host) {item : Type} {w v : Walk item} (h : Alike w v) :
    (∃ w' v', w.sniffed host = .inl w' ∧ v.sniffed host = .inl v' ∧ Alike w' v') ∨
      ∃ a b, w.sniffed host = .inr a ∧ v.sniffed host = .inr b ∧ Failed a ∧ Failed b := by
  unfold Alike at h
  cases hw : w.sniffed host with
  | inl w' =>
    obtain ⟨hlt, rfl⟩ | ⟨hle, mime, hmime, rfl⟩ := sniffed_inl hw
    · refine Or.inl ⟨_, v, rfl, ?_, h⟩
      rw [h]
      unfold Walk.sniffed
      rw [if_neg (by simpa using hlt)]
    · refine Or.inl ⟨_, { v with mime := some mime }, rfl, ?_, ?_⟩
      · rw [h]
        unfold Walk.sniffed
        rw [if_pos hle]
        simp only [hmime]
      · unfold Alike
        rw [h]
  | inr a =>
    obtain ⟨hle, e, he, rfl⟩ := sniffed_inr hw
    refine Or.inr ⟨_, v.ended (.error e), rfl, ?_, failed_raised w e, failed_raised v e⟩
    rw [h]
    unfold Walk.sniffed
    rw [if_pos hle]
    simp only [he]

theorem serialStep_agrees (hsha : Set.InjOn host.sha256 {b | Served net b ∨ Served net' b}) (w v : Walk Link)
    (h : Alike w v) :
    (∃ w' v', serialStep cfg host net offset w = .inl w' ∧
        serialStep (cfg.via api gateways) host net' offset' v = .inl v' ∧ Alike w' v') ∨
      (∃ r q, serialStep cfg host net offset w = .inr r ∧
        serialStep (cfg.via api gateways) host net' offset' v = .inr q ∧ Concur r q) ∨
      (∃ r, serialStep cfg host net offset w = .inr r ∧ ∀ q : Walk Link ⊕ Assembled, Concur r q) ∨
      ∃ q, serialStep (cfg.via api gateways) host net' offset' v = .inr q ∧ ∀ r : Walk Link ⊕ Assembled, Concur r q := by
  have hmv : v.mime = w.mime := by rw [h]
  have hpv : v.pending = w.pending := by rw [h]
  by_cases hk : w.mime ≠ none ∨ w.pending = []
  · have hk' : v.mime ≠ none ∨ v.pending = [] := by rwa [hmv, hpv]
    exact Or.inr (Or.inl ⟨_, _, serialStep_known hk, serialStep_known hk', Or.inl ⟨w, v, rfl, rfl, h⟩⟩)
  · simp only [not_or, not_not] at hk
    obtain ⟨hm, hp⟩ := hk
    obtain ⟨l, rest, hp⟩ := List.exists_cons_of_ne_nil hp
    have hm' := hmv.trans hm
    have hp' := hpv.trans hp
    cases hb : getBlock cfg host (net w.calls) l.cid offset with
    | none =>
      refine Or.inr (Or.inr (Or.inl ⟨_, serialStep_missing hm hp hb, fun q => Or.inr (Or.inl ?_)⟩))
      exact failed_truncated _ _
    | some block =>
      cases hb' : getBlock (cfg.via api gateways) host (net' v.calls) l.cid offset' with
      | none =>
        refine Or.inr (Or.inr (Or.inr ⟨_, serialStep_missing hm' hp' hb', fun r => Or.inr (Or.inr ?_)⟩))
        exact failed_truncated _ _
      | some block' =>
        obtain ⟨hs, hv⟩ := getBlock_some hb
        obtain ⟨hs', hv'⟩ := getBlock_some hb'
        obtain rfl := verifyBlock_unique hsha (Or.inl hs) (Or.inr hs') hv hv'
        have hext : Alike (w.extended l rest block) (v.extended l rest block) := by
          unfold Alike Walk.extended Walk.follow
          rw [h]
        have hw := serialStep_found hm hp hb
        have hv := serialStep_found hm' hp' hb'
        obtain ⟨w', v', hw', hv', halike⟩ | ⟨a, b, ha, hb, hfa, hfb⟩ := sniffed_alike host hext
        · rw [hw'] at hw
          rw [hv'] at hv
          exact Or.inl ⟨w', v', hw, hv, halike⟩
        · rw [ha] at hw
          exact Or.inr (Or.inr (Or.inl ⟨_, hw, fun q => Or.inr (Or.inl hfa)⟩))

theorem waveStep_agrees (hsha : Set.InjOn host.sha256 {b | Served net b ∨ Served net' b}) {budget maxBlocks : ℕ}
    (w v : Walk Entry) (h : Alike w v) :
    (∃ w' v', waveStep cfg host net offset budget maxBlocks w = .inl w' ∧
        waveStep (cfg.via api gateways) host net' offset' budget maxBlocks v = .inl v' ∧ Alike w' v') ∨
      (∃ r q, waveStep cfg host net offset budget maxBlocks w = .inr r ∧
        waveStep (cfg.via api gateways) host net' offset' budget maxBlocks v = .inr q ∧ Concur r q) ∨
      (∃ r, waveStep cfg host net offset budget maxBlocks w = .inr r ∧ ∀ q : Walk Entry ⊕ Assembled, Concur r q) ∨
      ∃ q, waveStep (cfg.via api gateways) host net' offset' budget maxBlocks v = .inr q ∧
        ∀ r : Walk Entry ⊕ Assembled, Concur r q := by
  have hw' : Waving (cfg.via api gateways) budget maxBlocks v ↔ Waving cfg budget maxBlocks w := by
    rw [h]
    exact Iff.rfl
  by_cases hw : Waving cfg budget maxBlocks w
  · have hv := hw'.mpr hw
    obtain ⟨⟨wave, rest⟩, ht⟩ : ∃ t, takeWave (min cfg.childConcurrency (maxBlocks - w.used)) w.pending = t := ⟨_, rfl⟩
    have ht' : takeWave (min (cfg.via api gateways).childConcurrency (maxBlocks - v.used)) v.pending = (wave, rest) := by
      rw [← ht, h]
      rfl
    have hstep := waveStep_go host net offset hw ht
    have hstep' := waveStep_go host net' offset' hv ht'
    have hf := fetchChildren_fetched (authentic_of_getBlock cfg host net) offset w.calls (wave.map Link.cid)
    have hf' := fetchChildren_fetched (authentic_of_getBlock (cfg.via api gateways) host net') offset' v.calls (wave.map Link.cid)
    cases hr : replacement (fetchChildren cfg host net offset w.calls (wave.map Link.cid)).1 with
    | none =>
      rw [hr] at hstep
      exact Or.inr (Or.inr (Or.inl ⟨_, hstep, fun q => Or.inr (Or.inl (failed_truncated _ _))⟩))
    | some entries =>
      cases hr' : replacement (fetchChildren (cfg.via api gateways) host net' offset' v.calls (wave.map Link.cid)).1 with
      | none =>
        rw [hr'] at hstep'
        exact Or.inr (Or.inr (Or.inr ⟨_, hstep', fun r => Or.inr (Or.inr (failed_truncated _ _))⟩))
      | some entries' =>
        obtain rfl := replacement_unique hsha hf hf' hr hr'
        rw [hr] at hstep
        rw [hr'] at hstep'
        refine Or.inl ⟨_, _, hstep, hstep', ?_⟩
        unfold Alike Walk.asked
        rw [h]
  · have hv := hw'.not.mpr hw
    exact Or.inr (Or.inl ⟨_, _, waveStep_stop hw, waveStep_stop hv, Or.inl ⟨w, v, rfl, rfl, h⟩⟩)

def Agree (a b : Assembled) : Prop :=
  ∀ data data', a.outcome = .ok (data, false) → b.outcome = .ok (data', false) → data = data' ∧ a.names = b.names

theorem Agree.of_failed_left {a b : Assembled} (h : Failed a) : Agree a b := fun data _ ha => absurd ha (h data)

theorem Agree.of_failed_right {a b : Assembled} (h : Failed b) : Agree a b := fun _ data' _ hb => absurd hb (h data')

theorem Agree.ended {item : Type} {w v : Walk item} (h : Alike w v) (file : Bytes × Bool) :
    Agree (w.ended (.ok file)) (v.ended (.ok file)) := by
  intro data data' ha hb
  simp only [Walk.ended, Except.ok.injEq] at ha hb
  have hnames : v.names = w.names := by rw [h]
  exact ⟨congrArg Prod.fst (ha.symm.trans hb), hnames.symm⟩

variable {root : Node} {fuel fuel' : ℕ}

theorem assembleWaves_agree (hsha : Set.InjOn host.sha256 {b | Served net b ∨ Served net' b}) {mime : Text} {w v : Walk Link}
    (h : Alike w v) {a b : Assembled} (ha : assembleWaves cfg host net fuel root offset mime w = some a)
    (hb : assembleWaves (cfg.via api gateways) host net' fuel' root offset' mime v = some b) : Agree a b := by
  obtain ⟨calls, rfl⟩ : ∃ calls, v = { w with calls := calls } := ⟨v.calls, h⟩
  have hbudget : budgetFor (cfg.via api gateways) mime root.filesize = budgetFor cfg mime root.filesize := rfl
  unfold assembleWaves at ha hb
  rw [hbudget] at hb
  dsimp only at ha hb
  split_ifs at ha hb with hlimit
  · rw [Option.some.injEq] at ha hb
    exact ha ▸ hb ▸ Agree.ended h _
  · have hstart : Alike ({ w with pending := w.pending.map Entry.link } : Walk Entry)
        { w with pending := w.pending.map Entry.link, calls := calls } := rfl
    cases hi : Loop.iterate (waveStep cfg host net offset (budgetFor cfg mime root.filesize).1
        (budgetFor cfg mime root.filesize).2) fuel { w with pending := w.pending.map Entry.link } with
    | none =>
      rw [hi] at ha
      cases ha
    | some r =>
      cases hi' : Loop.iterate (waveStep (cfg.via api gateways) host net' offset' (budgetFor cfg mime root.filesize).1
          (budgetFor cfg mime root.filesize).2) fuel'
          { w with pending := w.pending.map Entry.link, calls := calls } with
      | none =>
        rw [hi'] at hb
        cases hb
      | some q =>
        rw [hi] at ha
        rw [hi'] at hb
        obtain ⟨w', v', rfl, rfl, hend⟩ | hf | hf := Loop.iterate_agree (waveStep_agrees hsha) hstart hi hi'
        · rw [Option.some.injEq] at ha hb
          have hfin : finish (budgetFor cfg mime root.filesize).1 root.filesize v' =
              finish (budgetFor cfg mime root.filesize).1 root.filesize w' := by rw [hend]; rfl
          rw [hfin] at hb
          exact ha ▸ hb ▸ Agree.ended hend _
        · cases r with
          | inl w' => exact hf.elim
          | inr a' =>
            rw [Option.some.injEq] at ha
            exact ha ▸ Agree.of_failed_left hf
        · cases q with
          | inl v' => exact hf.elim
          | inr b' =>
            rw [Option.some.injEq] at hb
            exact hb ▸ Agree.of_failed_right hf

theorem assembleRest_agree (hsha : Set.InjOn host.sha256 {b | Served net b ∨ Served net' b}) {w v : Walk Link}
    (h : Alike w v) {a b : Assembled} (ha : assembleRest cfg host net fuel root offset w = some a)
    (hb : assembleRest (cfg.via api gateways) host net' fuel' root offset' v = some b) : Agree a b := by
  have hmime : v.mime = w.mime := by rw [h]
  unfold assembleRest at ha hb
  rw [hmime] at hb
  cases hp : w.mime.filter Extract.processable with
  | some mime =>
    rw [hp] at ha hb
    exact assembleWaves_agree hsha h ha hb
  | none =>
    rw [hp, Option.some.injEq] at ha hb
    have hout : v.out = w.out := by rw [h]
    have hpending : v.pending = w.pending := by rw [h]
    rw [hout, hpending] at hb
    exact ha ▸ hb ▸ Agree.ended h _

theorem assembleFile_agree (hsha : Set.InjOn host.sha256 {b | Served net b ∨ Served net' b}) {names : List Text} {calls : ℕ}
    {a b : Assembled} (ha : assembleFile cfg host net fuel root offset calls names = some a)
    (hb : assembleFile (cfg.via api gateways) host net' fuel' root offset' calls names = some b) : Agree a b := by
  unfold assembleFile at ha hb
  cases hs : (started root calls names).sniffed host with
  | inr e =>
    rw [hs, Option.some.injEq] at ha
    obtain ⟨-, err, -, rfl⟩ := sniffed_inr hs
    exact ha ▸ Agree.of_failed_left (failed_raised _ err)
  | inl w =>
    rw [hs] at ha hb
    dsimp only at ha hb
    split_ifs at ha hb with hk
    · rw [Option.some.injEq] at ha hb
      exact ha ▸ hb ▸ Agree.ended (Alike.refl _) _
    · cases hi : Loop.iterate (serialStep cfg host net offset) fuel w with
      | none =>
        rw [hi] at ha
        cases ha
      | some r =>
        cases hi' : Loop.iterate (serialStep (cfg.via api gateways) host net' offset') fuel' w with
        | none =>
          rw [hi'] at hb
          cases hb
        | some q =>
          rw [hi] at ha
          rw [hi'] at hb
          obtain ⟨w', v', rfl, rfl, hend⟩ | hf | hf := Loop.iterate_agree (serialStep_agrees hsha) (Alike.refl w) hi hi'
          · exact assembleRest_agree hsha hend ha hb
          · cases r with
            | inl w' => exact hf.elim
            | inr a' =>
              rw [Option.some.injEq] at ha
              exact ha ▸ Agree.of_failed_left hf
          · cases q with
            | inl v' => exact hf.elim
            | inr b' =>
              rw [Option.some.injEq] at hb
              exact hb ▸ Agree.of_failed_right hf

end Runs

section Fetches

variable (cfg : Settings) (host : Host) (net net' : Network)

/-- The content of a sample. -/
def FetchResult.content (r : FetchResult) : Bytes × Bool × List Link × Option Text × Option Text :=
  (r.data, r.isDirectory, r.links, r.unixfsType, r.filename)

/-- Two whole samples of one CID have the same content, whatever the servers of either side answer and in
whatever order they are tried. -/
theorem fetchCid_agree (api : Bool) (gateways : List Text)
    (hsha : Set.InjOn host.sha256 {b | Served net b ∨ Served net' b}) (fuel fuel' : ℕ) (cid : Text) (codec : Option Text)
    (attempt attempt' : ℕ) (r r' : FetchResult) (h : fetchCid cfg host net fuel cid codec attempt = some (.ok r))
    (h' : fetchCid (cfg.via api gateways) host net' fuel' cid codec attempt' = some (.ok r'))
    (hok : r.ok = true) (hok' : r'.ok = true) (ht : r.truncated = false) (ht' : r'.truncated = false) :
    r.content = r'.content := by
  unfold fetchCid at h h'
  dsimp only at h h'
  cases hb : getBlockEx cfg host (net 0) cid attempt with
  | error e =>
    rw [hb, Option.some.injEq, Except.ok.injEq] at h
    subst h
    cases hok
  | ok block =>
    cases hb' : getBlockEx (cfg.via api gateways) host (net' 0) cid attempt' with
    | error e =>
      rw [hb', Option.some.injEq, Except.ok.injEq] at h'
      subst h'
      cases hok'
    | ok block' =>
      obtain ⟨hs, hv⟩ := getBlockEx_ok hb
      obtain ⟨hs', hv'⟩ := getBlockEx_ok hb'
      obtain rfl := verifyBlock_unique hsha (Or.inl hs) (Or.inr hs') hv hv'
      rw [hb] at h
      rw [hb'] at h'
      dsimp only at h h'
      split_ifs at h h' with hc
      · rw [Option.some.injEq, Except.ok.injEq] at h h'
        rw [← h, ← h']
      · cases hp : parseDagPb block with
        | none =>
          rw [hp, Option.some.injEq, Except.ok.injEq] at h h'
          rw [← h, ← h']
        | some node =>
          rw [hp] at h h'
          dsimp only at h h'
          split_ifs at h h' with hd
          · rw [Option.some.injEq, Except.ok.injEq] at h h'
            rw [← h, ← h']
          · obtain ⟨a, ha, hr⟩ := Option.map_eq_some_iff.mp h
            obtain ⟨b, hb, hr'⟩ := Option.map_eq_some_iff.mp h'
            cases hoa : a.outcome with
            | error e =>
              rw [hoa] at hr
              cases hr
            | ok file =>
              cases hob : b.outcome with
              | error e =>
                rw [hob] at hr'
                cases hr'
              | ok file' =>
                rw [hoa] at hr
                rw [hob] at hr'
                cases hr
                cases hr'
                obtain ⟨data, truncated⟩ := file
                obtain ⟨data', truncated'⟩ := file'
                cases ht
                cases ht'
                obtain ⟨rfl, hnames⟩ := assembleFile_agree hsha ha hb data data' hoa hob
                simp only [FetchResult.content, fileSample, hnames]

def pdfLeaf : Bytes := ascii "%PDF-1.4\n%%EOF\n"

def pdfLeafDigest : ℕ := 0x14bcd090baf31edba64e9cbd8cdfc15f943344aa72cb3675ad8e91bfcbce03ad

/-- A file whose one link, named `a.pdf`, is the leaf. -/
def pdfRoot : Bytes :=
  [0x12, 45, 0x0A, 36, 1, 0x55, 0x12, 0x20] ++ Cid.bigEndian 32 pdfLeafDigest ++ [0x12, 5] ++ ascii "a.pdf" ++
    [0x0A, 2, 8, 2]

def pdfHost : Host :=
  sampleHost [(pdfLeaf, pdfLeafDigest), (pdfRoot, 0x5a8ea8cfda53bf05eaa20d95b8b9091370b765d13fc3b9b8592a6446b582bb9c)]

def pdfNetwork (place : ℕ) : Network := fun n =>
  ⟨.reply 500 [], fun i => if i < place then .timeout else .reply 200 (if n = 0 then pdfRoot else pdfLeaf)⟩

def pdfCid : Text := txt "bafybeic2r2um7wstx4c6viqnsw4lscitoc3wluj7yo43qwjkmrdllav3tq"

theorem pdfNetwork_served {place : ℕ} {b : Bytes} (h : Served (pdfNetwork place) b) : b ∈ [[], pdfRoot, pdfLeaf] := by
  obtain ⟨n, ⟨status, hk⟩ | ⟨i, status, hg⟩⟩ := h
  · simp only [pdfNetwork, Answer.reply.injEq] at hk
    rw [← hk.2]
    exact List.mem_cons_self
  · simp only [pdfNetwork] at hg
    split_ifs at hg with hi hn
    · rw [Answer.reply.injEq] at hg
      simp [← hg.2]
    · rw [Answer.reply.injEq] at hg
      simp [← hg.2]

theorem pdfHost_injective : Set.InjOn pdfHost.sha256 {b | Served (pdfNetwork 0) b ∨ Served (pdfNetwork 1) b} := by
  have hlist : ∀ a ∈ [[], pdfRoot, pdfLeaf], ∀ b ∈ [[], pdfRoot, pdfLeaf], pdfHost.sha256 a = pdfHost.sha256 b → a = b := by
    decide +kernel
  intro a ha b hb hab
  exact hlist a (ha.elim pdfNetwork_served pdfNetwork_served) b (hb.elim pdfNetwork_served pdfNetwork_served) hab

theorem fetchCid_agree_pdf : ∃ r r',
    fetchCid {} pdfHost (pdfNetwork 0) 9 pdfCid none 0 = some (.ok r) ∧
      fetchCid (Settings.via {} true [txt "https://ipfs.io", txt "https://dweb.link"]) pdfHost (pdfNetwork 1) 9 pdfCid none 1 =
        some (.ok r') ∧ r.content = r'.content ∧ r.data = pdfLeaf := by
  have h : (fetchCid {} pdfHost (pdfNetwork 0) 9 pdfCid none 0).any (fun o => o.toOption.any (fun r =>
      r.ok && !r.truncated && r.data = pdfLeaf)) = true := by decide +kernel
  have h' : (fetchCid (Settings.via {} true [txt "https://ipfs.io", txt "https://dweb.link"]) pdfHost (pdfNetwork 1) 9
      pdfCid none 1).any (fun o => o.toOption.any (fun r => r.ok && !r.truncated)) = true := by decide +kernel
  obtain ⟨o, ho, hr⟩ := some_of_any h
  obtain ⟨r, rfl, hfile⟩ := ok_of_any hr
  obtain ⟨o', ho', hr'⟩ := some_of_any h'
  obtain ⟨r', rfl, hfile'⟩ := ok_of_any hr'
  simp only [Bool.and_eq_true, Bool.not_eq_true', decide_eq_true_eq] at hfile hfile'
  exact ⟨r, r', ho, ho', fetchCid_agree {} pdfHost (pdfNetwork 0) (pdfNetwork 1) true
    [txt "https://ipfs.io", txt "https://dweb.link"] pdfHost_injective 9 9 pdfCid none 0 1 r r' ho ho' hfile.1.1 hfile'.1
    hfile.1.2 hfile'.2, hfile.2⟩

end Fetches

end ObserverClub.Fetch
