import ObserverClub.FetchComplete

namespace ObserverClub.Fetch

open Library Python UnixFs

section Types

variable {py : Interpreter} {chars : Unicode} {data more : Bytes}

def html : Text := txt "text/html"

theorem processable_cases {mime : Text} (h : Extract.processable mime = true) : mime = html ∨ mime = pdf := by
  have hmem : mime ∈ Extract.processableExact := by
    rw [Extract.processable, Bool.and_eq_true] at h
    exact List.contains_iff_mem.mp h.2
  rw [Extract.processableExact, List.mem_cons, List.mem_singleton] at hmem
  exact hmem

def Markup (data : Bytes) : Prop := data.head?.any (fun b => b == 60 || Extract.isBlank b) = true

theorem markup_of_html (h : Extract.looksLikeHtml data = true) : Markup data := by
  unfold Markup
  unfold Extract.looksLikeHtml at h
  rw [Bool.and_eq_true] at h
  cases data with
  | nil => exact absurd h.1 (by decide)
  | cons b data =>
    rw [List.head?_cons, Option.any_some]
    by_cases hb : Extract.isBlank b = true
    · rw [hb, Bool.or_true]
    · have hfirst := h.1
      rw [show (2048 : ℕ) = 2047 + 1 from rfl, List.take_succ_cons, List.dropWhile_cons_of_neg hb] at hfirst
      obtain ⟨p, hp, hstart⟩ := List.any_eq_true.mp hfirst
      have hlt : ∀ p ∈ [ascii "<!DOCTYPE", ascii "<!doctype", ascii "<html", ascii "<HTML", ascii "<?xml"],
          ∃ rest, p = 60 :: rest := by
        intro p hp
        simp only [List.mem_cons, List.not_mem_nil, or_false] at hp
        obtain rfl | rfl | rfl | rfl | rfl := hp <;> exact ⟨_, rfl⟩
      obtain ⟨rest, rfl⟩ := hlt p hp
      rw [List.isPrefixOf_cons_cons, Bool.and_eq_true] at hstart
      rw [beq_iff_eq] at hstart
      rw [← hstart.1]
      rfl

theorem not_magic_of_markup (h : Markup data) : Extract.sniffRiff data = none ∧ Extract.sniffMagic data = none := by
  have hmagic : ∀ m ∈ Extract.magic, ∃ b rest, m.1 = b :: rest ∧ (b == 60 || Extract.isBlank b) = false := by
    intro m hm
    simp only [Extract.magic, List.mem_cons, List.not_mem_nil, or_false] at hm
    obtain rfl | rfl | rfl | rfl | rfl | rfl | rfl | rfl | rfl | rfl | rfl | rfl | rfl | rfl | rfl | rfl | rfl := hm <;>
      exact ⟨_, _, rfl, by decide⟩
  have hnot (m : Bytes × Text) (hm : m ∈ Extract.magic) : m.1.isPrefixOf data = false := by
    obtain ⟨b, rest, hb, hne⟩ := hmagic m hm
    rw [Bool.eq_false_iff]
    intro hpre
    rw [hb] at hpre
    cases data with
    | nil => cases hpre
    | cons c data =>
      rw [List.isPrefixOf_cons_cons, Bool.and_eq_true, beq_iff_eq] at hpre
      unfold Markup at h
      rw [List.head?_cons, Option.any_some, ← hpre.1, hne] at h
      cases h
  constructor
  · have hriff := hnot (ascii "RIFF", txt "application/riff") (by decide)
    unfold Extract.sniffRiff
    rw [if_neg]
    rintro ⟨hpre, -⟩
    rw [hriff] at hpre
    cases hpre
  · unfold Extract.sniffMagic
    rw [List.find?_eq_none.mpr, Option.map_none]
    intro m hm
    rw [hnot m hm]
    exact Bool.false_ne_true

theorem dropWhile_mono {p : UInt8 → Bool} (h : data <+: more) : data.dropWhile p <+: more.dropWhile p := by
  obtain ⟨rest, rfl⟩ := h
  induction data with
  | nil => exact List.nil_prefix
  | cons b data ih =>
    by_cases hb : p b = true
    · rw [List.cons_append, List.dropWhile_cons_of_pos hb, List.dropWhile_cons_of_pos hb]
      exact ih
    · rw [List.cons_append, List.dropWhile_cons_of_neg hb, List.dropWhile_cons_of_neg hb]
      exact List.prefix_append (b :: data) rest

theorem within_mono {sub : Bytes} (hs : data <+: more) (h : Extract.within sub data = true) :
    Extract.within sub more = true := by
  obtain ⟨rest, rfl⟩ := hs
  unfold Extract.within at h ⊢
  obtain ⟨t, ht, hsub⟩ := List.any_eq_true.mp h
  obtain ⟨before, rfl⟩ := (List.mem_tails _ _).mp ht
  apply List.any_eq_true.mpr
  refine ⟨t ++ rest, (List.mem_tails _ _).mpr ⟨before, (List.append_assoc _ _ _).symm⟩, ?_⟩
  exact List.isPrefixOf_iff_prefix.mpr ((List.isPrefixOf_iff_prefix.mp hsub).trans (List.prefix_append t rest))

theorem looksLikeHtml_more (hp : data <+: more) (h : Extract.looksLikeHtml data = true) :
    Extract.looksLikeHtml more = true := by
  have htake : data.take 2048 <+: more.take 2048 := hp.take 2048
  unfold Extract.looksLikeHtml at h ⊢
  rw [Bool.and_eq_true] at h ⊢
  constructor
  · obtain ⟨p, hmem, hpre⟩ := List.any_eq_true.mp h.1
    apply List.any_eq_true.mpr
    exact ⟨p, hmem, List.isPrefixOf_iff_prefix.mpr
      ((List.isPrefixOf_iff_prefix.mp hpre).trans (dropWhile_mono htake))⟩
  · exact within_mono (htake.map _) h.2

theorem sniffRest_ne_html (data : Bytes) : Extract.sniffRest data none ≠ html := by
  have hsource : Extract.sniffSource data ≠ some html := by
    unfold Extract.sniffSource
    dsimp only
    split_ifs <;> decide
  unfold Extract.sniffRest
  cases hs : Extract.sniffSource data with
  | some source =>
    intro h
    exact hsource (hs.trans (congrArg some h))
  | none =>
    simp only [Option.getD_none, ne_eq, not_true_eq_false, false_and, if_false, if_true]
    split_ifs <;> decide

theorem sniffMime_html {filename : Option Text} (h : Extract.sniffMime py chars data none filename = .ok html) :
    Extract.looksLikeHtml data = true := by
  have hext : ∀ e ∈ Extract.sourceExt, e.2 ≠ html := by decide
  have hriff : ∀ e ∈ Extract.riffTypes, e.2 ≠ html := by decide
  have hmagic : ∀ e ∈ Extract.magic, e.2 ≠ html := by decide
  unfold Extract.sniffMime at h
  simp only [reduceCtorEq, if_false] at h
  cases hf : Extract.filenameExtMime chars filename with
  | some named =>
    simp only [hf, pure, Except.pure, Except.ok.injEq] at h
    obtain ⟨e, he, hmime⟩ := Option.map_eq_some_iff.mp hf
    exact absurd (hmime.trans h) (hext e (List.mem_of_find?_eq_some he))
  | none =>
    simp only [hf] at h
    cases hr : Extract.sniffRiff data with
    | some sub =>
      simp only [hr, pure, Except.pure, Except.ok.injEq] at h
      unfold Extract.sniffRiff at hr
      split_ifs at hr
      obtain ⟨e, he, hmime⟩ := Option.map_eq_some_iff.mp hr
      exact absurd (hmime.trans h) (hriff e (List.mem_of_find?_eq_some he))
    | none =>
      simp only [hr] at h
      cases hm : Extract.sniffMagic data with
      | some mime =>
        simp only [hm, pure, Except.pure, Except.ok.injEq] at h
        obtain ⟨e, he, hmime⟩ := Option.map_eq_some_iff.mp hm
        exact absurd (hmime.trans h) (hmagic e (List.mem_of_find?_eq_some he))
      | none =>
        simp only [hm] at h
        by_cases hhtml : Extract.looksLikeHtml data = true
        · exact hhtml
        · simp only [hhtml] at h
          cases hj : Extract.looksLikeJson py data with
          | error e => simp [hj, bind, Except.bind] at h
          | ok b =>
            cases b with
            | true =>
              simp only [hj, bind, Except.bind, if_true, pure, Except.pure] at h
              exact absurd h (by decide)
            | false =>
              simp only [hj, bind, Except.bind, Bool.false_eq_true, if_false, pure, Except.pure, Except.ok.injEq] at h
              exact absurd h (sniffRest_ne_html data)

theorem sniffMime_of_html {filename : Option Text} (hf : Extract.filenameExtMime chars filename = none)
    (h : Extract.looksLikeHtml data = true) : Extract.sniffMime py chars data none filename = .ok html := by
  obtain ⟨hr, hm⟩ := not_magic_of_markup (markup_of_html h)
  unfold Extract.sniffMime
  simp only [hf, hr, hm, h]
  rfl

end Types

section Verdicts

variable {cfg : Settings} {host : Host} {net : Network} {store : Text → Option Bytes} {offset calls fuel : ℕ}

/-- The type of a sample by its first bytes alone. -/
def verdict (host : Host) (data : Bytes) : Except Error Text :=
  Extract.sniffMime host.py host.chars (data.take sniffWindow) none none

theorem unnamed_ext (hlower : host.chars.lower [] = []) : Extract.filenameExtMime host.chars none = none := by
  show (Extract.sourceExt.find? (fun e => e.1.isSuffixOf (host.chars.lower []))).map Prod.snd = none
  rw [hlower]
  decide

theorem verdict_more (hlower : host.chars.lower [] = []) {out data : Bytes} {names : List Text} (hpre : out <+: data)
    {m : Text} (hm : sniff host out names = .ok m) (hp : Extract.processable m = true) : verdict host data = .ok m := by
  have htake : out.take sniffWindow <+: data.take sniffWindow := hpre.take _
  have hf := unnamed_ext hlower
  obtain rfl | rfl := processable_cases hp
  · exact sniffMime_of_html hf (looksLikeHtml_more htake (sniffMime_html hm))
  · exact sniffMime_of_magic hf ((sniffMime_pdf hm).2.trans htake)

theorem le_of_processable {out : Bytes} {names : List Text} {m : Text} (hm : sniff host out names = .ok m)
    (hp : Extract.processable m = true) : sniffMin ≤ out.length := by
  have htake : (out.take sniffWindow).length ≤ out.length := List.length_take_le' _ _
  obtain rfl | rfl := processable_cases hp
  · have h := sniffMime_html hm
    unfold Extract.looksLikeHtml at h
    rw [Bool.and_eq_true] at h
    obtain ⟨t, ht, hsub⟩ := List.any_eq_true.mp h.2
    have hfive := (List.isPrefixOf_iff_prefix.mp hsub).length_le
    obtain ⟨before, hbefore⟩ := (List.mem_tails _ _).mp ht
    have hlen := congrArg List.length hbefore
    rw [List.length_append, List.length_map, List.length_take] at hlen
    have hmin : (ascii "<html").length = sniffMin + 1 := by decide
    omega
  · have hfour := (sniffMime_pdf hm).2.length_le
    have hmin : (ascii "%PDF").length = sniffMin := by decide
    omega

/-- What is in hand, with the names of the links so far, when the first loop looks at a file for the last time: at the
first end of a block with enough bytes for a type, where no link is left, or before a block that is not to be had. -/
structure Opening where
  out : Bytes
  names : List Text
  missing : Option Text

inductive Opens (got : ℕ → Text → Option Bytes) : ℕ → Bytes → List Text → List Link → Opening → Prop where
  | enough {n : ℕ} {out : Bytes} {names : List Text} {links : List Link} (h : sniffMin ≤ out.length) :
      Opens got n out names links ⟨out, names, none⟩
  | dry {n : ℕ} {out : Bytes} {names : List Text} (h : out.length < sniffMin) : Opens got n out names [] ⟨out, names, none⟩
  | missed {n : ℕ} {out : Bytes} {names : List Text} {l : Link} {links : List Link} (h : out.length < sniffMin)
      (missing : got n l.cid = none) : Opens got n out names (l :: links) ⟨out, names ++ namesOf [l], some l.cid⟩
  | read {n : ℕ} {out : Bytes} {names : List Text} {l : Link} {links : List Link} {block : Bytes} {o : Opening}
      (h : out.length < sniffMin) (found : got n l.cid = some block)
      (next : Opens got (n + 1) (out ++ (childBytes block).1) (names ++ namesOf [l]) ((childBytes block).2 ++ links) o) :
      Opens got n out names (l :: links) o

theorem Opens.unique {got : ℕ → Text → Option Bytes} {n : ℕ} {out : Bytes} {names : List Text} {links : List Link}
    {o p : Opening} (ho : Opens got n out names links o) (hp : Opens got n out names links p) : o = p := by
  induction ho with
  | enough h =>
    cases hp with
    | enough => rfl
    | dry h' => omega
    | missed h' => omega
    | read h' => omega
  | dry h =>
    cases hp with
    | enough h' => omega
    | dry => rfl
  | missed h missing =>
    cases hp with
    | enough h' => omega
    | missed => rfl
    | read _ found => cases missing.symm.trans found
  | read h found _ ih =>
    cases hp with
    | enough h' => omega
    | missed _ missing => cases missing.symm.trans found
    | read _ found' next =>
      obtain rfl := Option.some.inj (found.symm.trans found')
      exact ih next

/-- The bytes that decide: all that is in hand of a file worth extracting or with a block missing, and of another what
the budget leaves. -/
def Opening.seen (cfg : Settings) (host : Host) (o : Opening) : Bytes :=
  if o.missing.isSome ∨ (sniff host o.out o.names).toOption.any Extract.processable then o.out else o.out.take cfg.maxBytes

theorem Opening.seen_processable {o : Opening} {m : Text} (hm : sniff host o.out o.names = .ok m)
    (hp : Extract.processable m = true) : o.seen cfg host = o.out := by
  rw [Opening.seen, hm]
  exact if_pos (Or.inr hp)

theorem Opening.seen_other {out : Bytes} {names : List Text}
    (h : ∀ m, sniff host out names = .ok m → Extract.processable m = false) :
    Opening.seen cfg host ⟨out, names, none⟩ = out.take cfg.maxBytes := by
  rw [Opening.seen, if_neg]
  rintro (hnone | hany)
  · cases hnone
  · obtain ⟨m, hm, hp⟩ := ok_of_any hany
    rw [h m hm] at hp
    cases hp

theorem flush_keeps (out : Bytes) (pending : List Entry) : out <+: (flush out pending).1 := by
  induction pending generalizing out with
  | nil => exact List.prefix_refl out
  | cons e pending ih =>
    cases e with
    | link l => exact List.prefix_refl out
    | resolved data => exact (List.prefix_append out data).trans (ih _)

theorem assembleWaves_keeps {root : Node} {mime : Text} {w : Walk Link} {a : Assembled} {data : Bytes} {t : Bool}
    (ha : assembleWaves cfg host net fuel root offset mime w = some a) (hdata : a.outcome = .ok (data, t)) :
    w.out <+: data := by
  unfold assembleWaves at ha
  dsimp only at ha
  split_ifs at ha with hlimit
  · obtain rfl := Option.some.inj ha
    simp only [Walk.ended, Except.ok.injEq, Prod.mk.injEq] at hdata
    rw [hdata.1]
  · generalize hlimits : budgetFor cfg mime root.filesize = limits at ha hlimit
    have hcut {s : Bytes} (hs : w.out <+: s) : w.out <+: s.take limits.1 :=
      List.prefix_take_iff.mpr ⟨hs, Nat.le_of_not_lt hlimit⟩
    have hgo (s s' : Walk Entry) (hs : w.out <+: s.out)
        (hstep : waveStep cfg host net offset limits.1 limits.2 s = .inl s') : w.out <+: s'.out := by
      by_cases hw : Waving cfg limits.1 limits.2 s
      · rw [waveStep_go host net offset hw rfl] at hstep
        cases hr : replacement (fetchChildren cfg host net offset s.calls
            ((takeWave (min cfg.childConcurrency (limits.2 - s.used)) s.pending).1.map Link.cid)).1 with
        | none =>
          rw [hr] at hstep
          cases hstep
        | some entries =>
          rw [hr, Option.elim_some, Sum.inl.injEq] at hstep
          subst hstep
          exact hs.trans (flush_keeps _ _)
      · rw [waveStep_stop hw] at hstep
        cases hstep
    have hleave (s : Walk Entry) (r : Walk Entry ⊕ Assembled) (hs : w.out <+: s.out)
        (hstep : waveStep cfg host net offset limits.1 limits.2 s = .inr r) :
        r.elim (fun v => w.out <+: v.out) (fun a => ∀ data t, a.outcome = .ok (data, t) → w.out <+: data) := by
      by_cases hw : Waving cfg limits.1 limits.2 s
      · rw [waveStep_go host net offset hw rfl] at hstep
        cases hr : replacement (fetchChildren cfg host net offset s.calls
            ((takeWave (min cfg.childConcurrency (limits.2 - s.used)) s.pending).1.map Link.cid)).1 with
        | none =>
          rw [hr, Option.elim_none, Sum.inr.injEq] at hstep
          subst hstep
          intro data t hout
          simp only [Walk.ended, Except.ok.injEq, Prod.mk.injEq] at hout
          rw [← hout.1]
          exact hcut hs
        | some entries =>
          rw [hr] at hstep
          cases hstep
      · rw [waveStep_stop hw, Sum.inr.injEq] at hstep
        exact hstep ▸ hs
    cases hi : Loop.iterate (waveStep cfg host net offset limits.1 limits.2) fuel
        { w with pending := w.pending.map Entry.link } with
    | none =>
      rw [hi] at ha
      cases ha
    | some r =>
      rw [hi] at ha
      have hend := Loop.iterate_invariant (I := fun s : Walk Entry => w.out <+: s.out) hgo hleave (List.prefix_refl _) hi
      cases r with
      | inl v =>
        obtain rfl := Option.some.inj ha
        simp only [Walk.ended, finish, Except.ok.injEq, Prod.mk.injEq] at hdata
        rw [← hdata.1]
        exact hcut hend
      | inr b =>
        obtain rfl := Option.some.inj ha
        exact hend data t hdata

structure Leading (host : Host) (got : ℕ → Text → Option Bytes) (start w : Walk Link) : Prop where
  leads : ∀ o, Opens got w.calls w.out w.names w.pending o → Opens got start.calls start.out start.names start.pending o
  early : w.mime = none → w.out.length < sniffMin
  late : ∀ m, w.mime = some m → sniffMin ≤ w.out.length ∧ sniff host w.out w.names = .ok m

section Leads

variable {start : Walk Link} {got : ℕ → Text → Option Bytes}

theorem Leading.of_sniffed {w w' : Walk Link} (hm : w.mime = none)
    (h : ∀ o, Opens got w.calls w.out w.names w.pending o → Opens got start.calls start.out start.names start.pending o)
    (hs : w.sniffed host = .inl w') : Leading host got start w' := by
  obtain ⟨hlt, rfl⟩ | ⟨hle, mime, hmime, rfl⟩ := sniffed_inl hs
  · refine ⟨h, fun _ => hlt, fun m hm' => ?_⟩
    rw [hm] at hm'
    cases hm'
  · refine ⟨h, fun hn => ?_, fun m hm' => ⟨hle, ?_⟩⟩
    · cases hn
    · obtain rfl := Option.some.inj hm'
      exact hmime

def Opened (got : ℕ → Text → Option Bytes) (start : Walk Link) (a : Assembled) : Prop :=
  ∀ data t, a.outcome = .ok (data, t) →
    ∃ o, Opens got start.calls start.out start.names start.pending o ∧ o.missing.isSome = true ∧ data = o.out

theorem Leading.go {w w' : Walk Link} (h : Leading host (fun n cid => getBlock cfg host (net n) cid offset) start w)
    (hstep : serialStep cfg host net offset w = .inl w') :
    Leading host (fun n cid => getBlock cfg host (net n) cid offset) start w' := by
  by_cases hk : w.mime ≠ none ∨ w.pending = []
  · rw [serialStep_known hk] at hstep
    cases hstep
  · simp only [not_or, not_not] at hk
    obtain ⟨l, rest, hp⟩ := List.exists_cons_of_ne_nil hk.2
    cases hb : getBlock cfg host (net w.calls) l.cid offset with
    | none =>
      rw [serialStep_missing hk.1 hp hb] at hstep
      cases hstep
    | some block =>
      rw [serialStep_found hk.1 hp hb] at hstep
      cases hs : (w.extended l rest block).sniffed host with
      | inr a =>
        rw [hs] at hstep
        cases hstep
      | inl v =>
        rw [hs, Sum.elim_inl, Sum.inl.injEq] at hstep
        subst hstep
        refine .of_sniffed (w := w.extended l rest block) hk.1 (fun o ho => h.leads o ?_) hs
        rw [hp]
        exact .read (h.early hk.1) hb ho

theorem Leading.leave {w : Walk Link} {r : Walk Link ⊕ Assembled}
    (h : Leading host (fun n cid => getBlock cfg host (net n) cid offset) start w)
    (hstep : serialStep cfg host net offset w = .inr r) :
    r.elim (fun v => Leading host (fun n cid => getBlock cfg host (net n) cid offset) start v ∧
        (v.mime ≠ none ∨ v.pending = []))
      (Opened (fun n cid => getBlock cfg host (net n) cid offset) start) := by
  by_cases hk : w.mime ≠ none ∨ w.pending = []
  · rw [serialStep_known hk, Sum.inr.injEq] at hstep
    exact hstep ▸ ⟨h, hk⟩
  · simp only [not_or, not_not] at hk
    obtain ⟨l, rest, hp⟩ := List.exists_cons_of_ne_nil hk.2
    cases hb : getBlock cfg host (net w.calls) l.cid offset with
    | none =>
      rw [serialStep_missing hk.1 hp hb, Sum.inr.injEq] at hstep
      subst hstep
      intro data t hdata
      simp only [Walk.ended, Except.ok.injEq, Prod.mk.injEq] at hdata
      refine ⟨⟨w.out, w.names ++ namesOf [l], some l.cid⟩, h.leads _ ?_, rfl, hdata.1.symm⟩
      rw [hp]
      exact .missed (h.early hk.1) hb
    | some block =>
      rw [serialStep_found hk.1 hp hb] at hstep
      cases hs : (w.extended l rest block).sniffed host with
      | inl v =>
        rw [hs] at hstep
        cases hstep
      | inr a =>
        rw [hs, Sum.elim_inr, Sum.inr.injEq] at hstep
        obtain ⟨-, e, -, rfl⟩ := sniffed_inr hs
        subst hstep
        intro data t hdata
        cases hdata

theorem Leading.opens {w : Walk Link} (h : Leading host got start w) (hk : w.mime ≠ none ∨ w.pending = []) :
    Opens got start.calls start.out start.names start.pending ⟨w.out, w.names, none⟩ := by
  cases hm : w.mime with
  | some m => exact h.leads _ (.enough (h.late m hm).1)
  | none =>
    apply h.leads
    rw [hk.resolve_left (not_not.mpr hm)]
    exact .dry (h.early hm)

theorem Leading.seen {w : Walk Link} (h : Leading host got start w)
    (hnot : ∀ m, w.mime = some m → Extract.processable m = false) :
    Opening.seen cfg host ⟨w.out, w.names, none⟩ = w.out.take cfg.maxBytes := by
  apply Opening.seen_other
  intro m hm
  by_contra hp
  rw [Bool.not_eq_false] at hp
  have hlen := le_of_processable hm hp
  cases hmime : w.mime with
  | none =>
    have hearly := h.early hmime
    omega
  | some m' =>
    have hsniff := (h.late m' hmime).2
    rw [hm, Except.ok.injEq] at hsniff
    rw [hsniff, hnot m' hmime] at hp
    cases hp

end Leads

theorem assembleFile_verdict (hlower : host.chars.lower [] = []) {root : Node} {names : List Text} {a : Assembled}
    (ha : assembleFile cfg host net fuel root offset calls names = some a) {data : Bytes} {t : Bool}
    (hdata : a.outcome = .ok (data, t)) :
    ∃ o, Opens (fun n cid => getBlock cfg host (net n) cid offset) calls root.inlineData names root.links o ∧
      verdict host data = verdict host (o.seen cfg host) := by
  have hstart {w : Walk Link} (hs : (started root calls names).sniffed host = .inl w) :
      Leading host (fun n cid => getBlock cfg host (net n) cid offset) (started root calls names) w :=
    .of_sniffed (w := started root calls names) rfl (fun _ ho => ho) hs
  have hends {w : Walk Link} (hs : (started root calls names).sniffed host = .inl w) {r : Walk Link ⊕ Assembled}
      (hi : Loop.iterate (serialStep cfg host net offset) fuel w = some r) :=
    Loop.iterate_invariant (fun _ _ hw hstep => hw.go hstep) (fun _ _ hw hstep => hw.leave hstep) (hstart hs) hi
  cases assembleFile_cases ha with
  | raised begun same =>
    rw [same] at hdata
    cases hdata
  | @unworthy w m begun known unworthy same =>
    subst same
    simp only [Walk.ended, Except.ok.injEq, Prod.mk.injEq] at hdata
    refine ⟨_, (hstart begun).opens (Or.inl (by rw [known]; exact Option.some_ne_none m)), ?_⟩
    rw [(hstart begun).seen (fun m' hm' => ?_), hdata.1]
    obtain rfl := Option.some.inj (known.symm.trans hm')
    exact unworthy
  | stopped begun run =>
    obtain ⟨o, ho, hmissing, rfl⟩ := hends begun run data t hdata
    refine ⟨o, ho, ?_⟩
    rw [Opening.seen, if_pos (Or.inl hmissing)]
  | @went w v begun run rest =>
    obtain ⟨hv, hleft⟩ := hends begun run
    refine ⟨_, hv.opens hleft, ?_⟩
    cases hp : v.mime.filter Extract.processable with
    | some m =>
      obtain ⟨hm, hproc⟩ := Option.filter_eq_some_iff.mp hp
      rw [assembleRest_waves hm hproc] at rest
      have hout := (hv.late m hm).2
      have hseen : Opening.seen cfg host ⟨v.out, v.names, none⟩ = v.out := Opening.seen_processable hout hproc
      rw [hseen, verdict_more hlower (List.prefix_refl v.out) hout hproc]
      exact verdict_more hlower (assembleWaves_keeps rest hdata) hout hproc
    | none =>
      unfold assembleRest at rest
      rw [hp] at rest
      obtain rfl := Option.some.inj rest
      simp only [Walk.ended, Except.ok.injEq, Prod.mk.injEq] at hdata
      rw [hv.seen (fun m hm => ?_), hdata.1]
      rw [hm, Option.filter_some] at hp
      by_contra hproc
      rw [Bool.not_eq_false] at hproc
      rw [hproc] at hp
      cases hp

theorem getBlockEx_of_getBlock {answers : Answers} {cid : Text} {block : Bytes}
    (h : getBlock cfg host answers cid offset = some block) : getBlockEx cfg host answers cid offset = .ok block := by
  unfold getBlock at h
  cases hb : getBlockEx cfg host answers cid offset with
  | error e =>
    rw [hb] at h
    cases h
  | ok b =>
    rw [hb] at h
    obtain rfl : b = block := Option.some.inj h
    rfl

/-- The bytes that decide the type of the sample of a file, when no block of the store was missing. -/
inductive Decides (cfg : Settings) (host : Host) (net : Network) (store : Text → Option Bytes) (attempt : ℕ) (cid : Text) :
    Bytes → Prop where
  | whole {block : Bytes} (codec : codecOf host cid = txt "raw") (got : getBlockEx cfg host (net 0) cid attempt = .ok block) :
      Decides cfg host net store attempt cid block
  | opened {block : Bytes} {root : Node} {o : Opening} (codec : codecOf host cid = txt "dag-pb")
      (got : getBlockEx cfg host (net 0) cid attempt = .ok block) (parsed : parseDagPb block = some root)
      (file : root.isDirectory = false)
      (opens : Opens (fun n cid => getBlock cfg host (net n) cid attempt) 1 root.inlineData (namesOf root.links) root.links o)
      (held : ∀ cid, o.missing = some cid → store cid = none) : Decides cfg host net store attempt cid (o.seen cfg host)

theorem Decides.verdict_eq (hlower : host.chars.lower [] = []) {cid : Text} {attempt : ℕ} {out : Bytes}
    (h : Decides cfg host net store attempt cid out) {r : FetchResult}
    (hr : fetchCid cfg host net fuel cid none attempt = some (.ok r)) : verdict host r.data = verdict host out := by
  unfold fetchCid at hr
  dsimp only [Option.filter_none, Option.getD_none] at hr
  cases h with
  | @whole block codec got =>
    rw [got] at hr
    dsimp only at hr
    rw [if_pos (by rw [codec]; decide), Option.some.injEq, Except.ok.injEq] at hr
    rw [← hr]
    rfl
  | @opened block root o codec got parsed file opens held =>
    rw [got] at hr
    dsimp only at hr
    rw [if_neg (by rw [codec]; decide), parsed] at hr
    dsimp only at hr
    rw [file, if_neg Bool.false_ne_true] at hr
    obtain ⟨a, hrun, hres⟩ := Option.map_eq_some_iff.mp hr
    cases hoa : a.outcome with
    | error e =>
      rw [hoa] at hres
      cases hres
    | ok file =>
      rw [hoa] at hres
      cases hres
      obtain ⟨p, hp, hverdict⟩ := assembleFile_verdict hlower hrun hoa
      rw [opens.unique hp]
      exact hverdict

mutual

/-- A tree, with `n` bytes of the file before it, whose blocks are read as what they are as long as there are too few
bytes for a type: no raw leaf looks like a UnixFS node, and no node is without data and links. -/
def Dag.TrueAt : ℕ → Dag → Prop
  | n, .leaf bytes => n < sniffMin → Plain bytes
  | n, .file inline kids => (n < sniffMin → inline ≠ [] ∨ kids ≠ []) ∧ TrueAll (n + inline.length) kids

def TrueAll : ℕ → List Dag → Prop
  | _, [] => True
  | n, d :: ds => d.TrueAt n ∧ TrueAll (n + d.content.length) ds

end

/-- The same of a whole file, whose root is read in full. -/
def Dag.ReadTrue : Dag → Prop
  | .leaf _ => True
  | .file inline kids => TrueAll inline.length kids

theorem trueAll_append (n : ℕ) (ds es : List Dag) :
    TrueAll n (ds ++ es) ↔ TrueAll n ds ∧ TrueAll (n + (contents ds).length) es := by
  induction ds generalizing n with
  | nil => simp [TrueAll, contents]
  | cons d ds ih => simp only [List.cons_append, TrueAll, ih, contents, List.length_append, and_assoc, Nat.add_assoc]

/-- The nodes of the store have links without names. -/
def Unnamed (host : Host) (store : Text → Option Bytes) : Prop :=
  ∀ cid block node, codecOf host cid = txt "dag-pb" → store cid = some block → parseDagPb block = some node →
    namesOf node.links = []

def Faithful (cfg : Settings) (host : Host) (net : Network) (store : Text → Option Bytes) : Prop :=
  ∀ n cid offset block kept, getBlockEx cfg host (net n) cid offset = .ok block → store cid = some kept → block = kept

theorem Faithful.getBlock (h : Faithful cfg host net store) {n : ℕ} {cid : Text} {block kept : Bytes}
    (hb : getBlock cfg host (net n) cid offset = some block) (hk : store cid = some kept) : block = kept := by
  unfold Fetch.getBlock at hb
  cases hg : getBlockEx cfg host (net n) cid offset with
  | error e =>
    rw [hg] at hb
    cases hb
  | ok b =>
    rw [hg] at hb
    cases hb
    exact h n cid offset _ _ hg hk

theorem HeldAll.found {dags : List Dag} {l : Link} {links : List Link} (h : HeldAll host store dags (l :: links)) :
    ∃ block, store l.cid = some block := by
  obtain ⟨d, ds, rfl, hd, -⟩ := heldAll_cons h
  cases d with
  | leaf bytes =>
    rw [Dag.HeldAt] at hd
    exact ⟨bytes, hd.2⟩
  | file inline kids =>
    rw [Dag.HeldAt] at hd
    obtain ⟨-, block, node, hblock, -⟩ := hd
    exact ⟨block, hblock⟩

theorem childBytes_true (hunnamed : Unnamed host store) {d : Dag} {cid : Text} {block : Bytes} {n : ℕ}
    (hd : d.HeldAt host store cid) (ht : d.TrueAt n) (hn : n < sniffMin) (hb : store cid = some block) :
    ∃ kids, HeldAll host store kids (childBytes block).2 ∧ d.content = (childBytes block).1 ++ contents kids ∧
      TrueAll (n + (childBytes block).1.length) kids ∧ namesOf (childBytes block).2 = [] := by
  cases d with
  | leaf bytes =>
    rw [Dag.HeldAt] at hd
    rw [Dag.TrueAt] at ht
    obtain rfl : bytes = block := Option.some.inj (hd.2.symm.trans hb)
    rw [childBytes_plain (ht hn)]
    exact ⟨[], trivial, by simp [Dag.content, contents], trivial, rfl⟩
  | file inline kids =>
    rw [Dag.HeldAt] at hd
    rw [Dag.TrueAt] at ht
    obtain ⟨hcodec, block', node, hb', hp, hfile, rfl, hkids⟩ := hd
    obtain rfl : block' = block := Option.some.inj (hb'.symm.trans hb)
    rw [childBytes_file hp hfile hkids (ht.1 hn)]
    exact ⟨kids, hkids, rfl, ht.2, hunnamed cid block' node hcodec hb hp⟩

theorem Opens.within {got : ℕ → Text → Option Bytes} (hunnamed : Unnamed host store)
    (hgot : ∀ n cid block kept, got n cid = some block → store cid = some kept → block = kept) {n : ℕ} {out : Bytes}
    {names : List Text} {links : List Link} {o : Opening} (h : Opens got n out names links o) {dags : List Dag}
    (hheld : HeldAll host store dags links) (htrue : TrueAll out.length dags) (hnames : names = [])
    (hlinks : namesOf links = []) (hstored : ∀ cid, o.missing = some cid → store cid = none) :
    o.names = [] ∧ o.out <+: out ++ contents dags ∧ (sniffMin ≤ (out ++ contents dags).length → sniffMin ≤ o.out.length) := by
  induction h generalizing dags with
  | enough h => exact ⟨hnames, List.prefix_append _ _, fun _ => h⟩
  | dry h =>
    rw [heldAll_nil hheld, contents, List.append_nil]
    exact ⟨hnames, List.prefix_refl _, id⟩
  | @missed n out names l links h missing =>
    obtain ⟨block, hblock⟩ := hheld.found
    cases hblock.symm.trans (hstored l.cid rfl)
  | @read n out names l links block o h found next ih =>
    obtain ⟨kept, hkept⟩ := hheld.found
    obtain rfl := hgot n l.cid block kept found hkept
    obtain ⟨d, ds, rfl, hd, hds⟩ := heldAll_cons hheld
    obtain ⟨kids, hkids, hcontent, hktrue, hknames⟩ := childBytes_true hunnamed hd htrue.1 h hkept
    rw [← List.singleton_append, namesOf_append, List.append_eq_nil_iff] at hlinks
    have hrest := htrue.2
    rw [hcontent, List.length_append, ← Nat.add_assoc] at hrest
    have hbelow := ih (heldAll_append hkids hds) ?_ (by rw [hnames, hlinks.1, List.append_nil])
      (by rw [namesOf_append, hknames, hlinks.2, List.append_nil]) hstored
    · rwa [contents_append, List.append_assoc, ← List.append_assoc _ (contents kids), ← hcontent] at hbelow
    · rw [List.length_append]
      exact (trueAll_append _ _ _).mpr ⟨hktrue, hrest⟩

theorem Decides.pdf (hlower : host.chars.lower [] = []) (hunnamed : Unnamed host store)
    (hfaithful : Faithful cfg host net store) {dag : Dag} {cid : Text} {attempt : ℕ} {out : Bytes}
    (hheld : dag.HeldAt host store cid) (h : Decides cfg host net store attempt cid out) (htrue : dag.ReadTrue)
    (hpdf : ascii "%PDF" <+: dag.content) : verdict host out = .ok pdf := by
  have hf := unnamed_ext hlower
  have hmagic {out : Bytes} (h : ascii "%PDF" <+: out) : verdict host out = .ok Fetch.pdf :=
    sniffMime_of_magic hf (List.prefix_take_iff.mpr ⟨h, by decide⟩)
  cases dag with
  | leaf bytes =>
    rw [Dag.HeldAt] at hheld
    cases h with
    | whole _ got =>
      obtain rfl := hfaithful 0 cid attempt _ bytes got hheld.2
      exact hmagic hpdf
    | opened codec =>
      rw [hheld.1] at codec
      exact absurd codec (by decide)
  | file inline kids =>
    rw [Dag.HeldAt] at hheld
    obtain ⟨hpb, block', node, hblock, hparse, -, rfl, hkids⟩ := hheld
    cases h with
    | whole codec =>
      rw [hpb] at codec
      exact absurd codec (by decide)
    | @opened block root o codec got parsed file opens held =>
      obtain rfl := hfaithful 0 cid attempt block block' got hblock
      obtain rfl := Option.some.inj (parsed.symm.trans hparse)
      have hroot := hunnamed cid block root hpb hblock parsed
      obtain ⟨hnames, hpre, hlen⟩ := opens.within hunnamed (fun n cid block kept => hfaithful.getBlock) hkids htrue hroot
        hroot held
      have hfour := hpdf.length_le
      have hmin : (ascii "%PDF").length = sniffMin := by decide
      have hout : ascii "%PDF" <+: o.out :=
        List.prefix_of_prefix_length_le hpdf hpre (by rw [hmin] at hfour ⊢; exact hlen hfour)
      have hsniff : sniff host o.out o.names = .ok Fetch.pdf := by
        rw [hnames]
        exact sniff_of_magic hf hout
      rw [Opening.seen_processable hsniff (by decide)]
      exact hmagic hout

/-- One fetch of a stored file none of whose blocks was missing: the bytes that decide, and the result. -/
structure Sampling (cfg : Settings) (host : Host) (store : Text → Option Bytes) where
  dag : Dag
  cid : Text
  held : dag.HeldAt host store cid
  net : Network
  faithful : Faithful cfg host net store
  attempt : ℕ
  decisive : Bytes
  decides : Decides cfg host net store attempt cid decisive
  fuel : ℕ
  result : FetchResult
  ran : fetchCid cfg host net fuel cid none attempt = some (.ok result)

theorem Sampling.pdf (hlower : host.chars.lower [] = []) (hunnamed : Unnamed host store) (s : Sampling cfg host store)
    (htrue : s.dag.ReadTrue) (hpdf : ascii "%PDF" <+: s.dag.content) : verdict host s.result.data = .ok Fetch.pdf := by
  rw [s.decides.verdict_eq hlower s.ran]
  exact s.decides.pdf hlower hunnamed s.faithful s.held htrue hpdf

/-- The samples of two files of one content get one type exactly if the bytes that decide it do, as they always do for a
PDF whose first blocks are read as what they are. -/
theorem fetchCid_verdict_iff (cfg : Settings) (host : Host) (hlower : host.chars.lower [] = [])
    (store : Text → Option Bytes) (hunnamed : Unnamed host store) (a b : Sampling cfg host store)
    (hsame : a.dag.content = b.dag.content) :
    (verdict host a.result.data = verdict host b.result.data ↔ verdict host a.decisive = verdict host b.decisive) ∧
      (ascii "%PDF" <+: a.dag.content → (a.dag.ReadTrue → verdict host a.result.data = .ok pdf) ∧
        (b.dag.ReadTrue → verdict host b.result.data = .ok pdf)) := by
  constructor
  · rw [a.decides.verdict_eq hlower a.ran, b.decides.verdict_eq hlower b.ran]
  · intro hpdf
    exact ⟨fun htrue => a.pdf hlower hunnamed htrue hpdf, fun htrue => b.pdf hlower hunnamed htrue (hsame ▸ hpdf)⟩

end Verdicts

section Pages

def page : Bytes := ascii "<html>ok</html>"

def tornPage : Bytes :=
  dagLink 0x70 0x987c9ed92c6a0d7b5a091d51e301447d4d9d9c3a0556ec6d3c2709ef589414c7 ++
    dagLink 0x70 0xdf7cd26b6107f1ff04f1648535181e6a67fbccad2fc5fd2da151fd6c622f9bd9 ++ [0x0A, 4, 8, 2, 0x18, 15]

/-- A PDF that also spells a dag-pb file node with the data `x`. -/
def spelledPdf : Bytes := ascii "%PDF-" ++ nodeLike

def spelledRoot : Bytes :=
  dagLink 0x55 0xef44964044b1f08dc300da18410db12eb117f5ad41dedf5f81dd54fbe5c947e3 ++ emptyFile

def pageBlocks : List Bytes :=
  [chunkOf page, tornPage, chunkOf (page.take 4), chunkOf (page.drop 4), spelledPdf, spelledRoot]

def pageHost : Host :=
  sampleHost [(chunkOf page, 0xfc83d24c31e88fed309fcbdbdf129464db89ea3acdb6dc8605c6a04110889787),
    (tornPage, 0xfa7b630b64ad7131474befeb760e0810327a8d74e2c1a357456a392ff8fbc424),
    (chunkOf (page.take 4), 0x987c9ed92c6a0d7b5a091d51e301447d4d9d9c3a0556ec6d3c2709ef589414c7),
    (chunkOf (page.drop 4), 0xdf7cd26b6107f1ff04f1648535181e6a67fbccad2fc5fd2da151fd6c622f9bd9),
    (spelledPdf, 0xef44964044b1f08dc300da18410db12eb117f5ad41dedf5f81dd54fbe5c947e3),
    (spelledRoot, 0x0986c41bfa20858ecdf322a7ff221fd95c5c6e7cd110aa31f7bb3822eee59573)]

def pageCid : Text := txt "bafybeih4qpjeympir7wtbh6l3pprffde3oe6uownw3oimbogubarbcexq4"

def tornCid : Text := txt "bafybeih2pnrqwzfnoeyuos7p5n3a4caqgj5i25hcygrvorlkhex7r66eeq"

def spelledCid : Text := txt "bafkreihpislearfr6cg4gag2dbaq3mjowel7llkb33pv7ao5kt56lskh4m"

def spelledRootCid : Text := txt "bafybeiajq3cbx6raqwhm34zcu77seh6zlrog47grccvdd553haro5zmvom"

/-- The opening computed, over fewer blocks than the fuel. -/
def opening (got : ℕ → Text → Option Bytes) : ℕ → ℕ → Bytes → List Text → List Link → Option Opening
  | 0, _, _, _, _ => none
  | fuel + 1, n, out, names, links =>
    if sniffMin ≤ out.length then some ⟨out, names, none⟩
    else
      match links with
      | [] => some ⟨out, names, none⟩
      | l :: links =>
        (got n l.cid).elim (some ⟨out, names ++ namesOf [l], some l.cid⟩) fun block =>
          opening got fuel (n + 1) (out ++ (childBytes block).1) (names ++ namesOf [l]) ((childBytes block).2 ++ links)

theorem opens_of_opening {got : ℕ → Text → Option Bytes} {fuel n : ℕ} {out : Bytes} {names : List Text}
    {links : List Link} {o : Opening} (h : opening got fuel n out names links = some o) : Opens got n out names links o := by
  induction fuel generalizing n out names links with
  | zero => cases h
  | succ fuel ih =>
    unfold opening at h
    split_ifs at h with hlen
    · obtain rfl := Option.some.inj h
      exact .enough hlen
    · rw [not_le] at hlen
      cases links with
      | nil =>
        obtain rfl := Option.some.inj h
        exact .dry hlen
      | cons l links =>
        dsimp only at h
        cases hg : got n l.cid with
        | none =>
          rw [hg] at h
          obtain rfl := Option.some.inj h
          exact .missed hlen hg
        | some block =>
          rw [hg] at h
          exact .read hlen hg (ih h)

theorem faithful_blocks (cfg : Settings) {host : Host} {blocks all : List Bytes} (hsub : blocks ⊆ all)
    (hsha : Set.InjOn host.sha256 {b | b ∈ all}) : Faithful cfg host (blocksNetwork blocks) (storeOf host all) := by
  intro n cid offset block kept hb hkept
  obtain ⟨hs, hv⟩ := getBlockEx_ok hb
  exact verifyBlock_unique hsha (hsub (mem_of_served hs)) (List.mem_of_find?_eq_some hkept) hv (List.find?_some hkept)

theorem unnamed_blocks {host : Host} {all : List Bytes}
    (h : ∀ b ∈ all, (parseDagPb b).all (fun node => namesOf node.links = []) = true) : Unnamed host (storeOf host all) := by
  intro cid block node _ hblock hp
  have hb := h block (List.mem_of_find?_eq_some hblock)
  rw [hp, Option.all_some, decide_eq_true_eq] at hb
  exact hb

theorem pageHost_injective : Set.InjOn pageHost.sha256 {b | b ∈ pageBlocks} := by
  have hsha : ∀ a ∈ pageBlocks, ∀ b ∈ pageBlocks, pageHost.sha256 a = pageHost.sha256 b → a = b := by decide +kernel
  exact injOn_of_list hsha

theorem sampling_of_run (blocks : List Bytes) (cid : Text) (hsub : blocks ⊆ pageBlocks) {dag : Dag} {out : Bytes}
    {mime : Text} (hheld : dag.HeldAt pageHost (storeOf pageHost pageBlocks) cid) (hcodec : codecOf pageHost cid = txt "dag-pb")
    (hopens : (getBlock {} pageHost (blocksNetwork blocks 0) cid 0).any (fun block => (parseDagPb block).any (fun root =>
      (opening (fun n cid => getBlock {} pageHost (blocksNetwork blocks n) cid 0) 9 1 root.inlineData (namesOf root.links)
        root.links).any (fun o =>
          decide (root.isDirectory = false ∧ o.missing = none ∧ o.seen {} pageHost = out)))) = true)
    (hrun : (fetchCid {} pageHost (blocksNetwork blocks) 9 cid none 0).any (fun o =>
      o.toOption.any (fun r => decide (verdict pageHost r.data = .ok mime))) = true) :
    ∃ s : Sampling {} pageHost (storeOf pageHost pageBlocks),
      s.dag = dag ∧ s.decisive = out ∧ verdict pageHost s.result.data = .ok mime := by
  obtain ⟨block, hblock, hopens⟩ := some_of_any hopens
  obtain ⟨root, hroot, hopens⟩ := some_of_any hopens
  obtain ⟨o, ho, hopens⟩ := some_of_any hopens
  obtain ⟨hdir, hmissing, rfl⟩ := of_decide_eq_true hopens
  obtain ⟨e, he, hrun⟩ := some_of_any hrun
  obtain ⟨r, rfl, hr⟩ := ok_of_any hrun
  have hstored : ∀ cid, o.missing = some cid → storeOf pageHost pageBlocks cid = none := by
    intro cid hcid
    cases hmissing.symm.trans hcid
  exact ⟨⟨dag, cid, hheld, blocksNetwork blocks, faithful_blocks {} hsub pageHost_injective, 0, _,
    .opened hcodec (getBlockEx_of_getBlock hblock) hroot hdir (opens_of_opening ho) hstored, 9, r, he⟩, rfl, rfl,
    of_decide_eq_true hr⟩

theorem page_sampled : ∃ s : Sampling {} pageHost (storeOf pageHost pageBlocks),
    s.dag = .file page [] ∧ s.decisive = page ∧ verdict pageHost s.result.data = .ok html :=
  sampling_of_run [chunkOf page] pageCid (by decide +kernel) (by decide +kernel) (by decide +kernel)
    (by decide +kernel) (by decide +kernel)

theorem torn_sampled : ∃ s : Sampling {} pageHost (storeOf pageHost pageBlocks),
    s.dag = .file [] [.file (page.take 4) [], .file (page.drop 4) []] ∧ s.decisive = page.take 4 ∧
      verdict pageHost s.result.data = .ok (txt "text/plain") :=
  sampling_of_run [tornPage, chunkOf (page.take 4), chunkOf (page.drop 4)] tornCid (by decide +kernel)
    (by decide +kernel) (by decide +kernel) (by decide +kernel) (by decide +kernel)

theorem spelled_sampled : ∃ s : Sampling {} pageHost (storeOf pageHost pageBlocks),
    s.dag = .file [] [.leaf spelledPdf] ∧ s.decisive = ascii "x" ∧
      verdict pageHost s.result.data = .ok (txt "text/plain") :=
  sampling_of_run [spelledRoot, spelledPdf] spelledRootCid (by decide +kernel) (by decide +kernel)
    (by decide +kernel) (by decide +kernel) (by decide +kernel)

theorem whole_sampled : ∃ s : Sampling {} pageHost (storeOf pageHost pageBlocks),
    s.dag = .leaf spelledPdf ∧ verdict pageHost s.result.data = .ok pdf := by
  have hcodec : codecOf pageHost spelledCid = txt "raw" := by decide +kernel
  have hheld : (Dag.leaf spelledPdf).HeldAt pageHost (storeOf pageHost pageBlocks) spelledCid := by decide +kernel
  have hgot : getBlock {} pageHost (blocksNetwork [spelledPdf] 0) spelledCid 0 = some spelledPdf := by decide +kernel
  have hrun : (fetchCid {} pageHost (blocksNetwork [spelledPdf]) 9 spelledCid none 0).any (fun o =>
      o.toOption.any (fun r => decide (verdict pageHost r.data = .ok pdf))) = true := by decide +kernel
  obtain ⟨e, he, hrun⟩ := some_of_any hrun
  obtain ⟨r, rfl, hr⟩ := ok_of_any hrun
  exact ⟨⟨.leaf spelledPdf, spelledCid, hheld, blocksNetwork [spelledPdf],
    faithful_blocks {} (by decide +kernel) pageHost_injective,
    0, spelledPdf, .whole hcodec (getBlockEx_of_getBlock hgot), 9, r, he⟩, rfl, of_decide_eq_true hr⟩

theorem verdict_of_torn : (∃ a b : Sampling {} pageHost (storeOf pageHost pageBlocks), a.dag.content = page ∧
      b.dag.content = page ∧ verdict pageHost a.result.data = .ok html ∧
      verdict pageHost b.result.data = .ok (txt "text/plain")) ∧
    ∃ a b : Sampling {} pageHost (storeOf pageHost pageBlocks), a.dag.content = spelledPdf ∧
      b.dag.content = spelledPdf ∧ verdict pageHost a.result.data = .ok pdf ∧
      verdict pageHost b.result.data = .ok (txt "text/plain") := by
  obtain ⟨a, ha, -, hhtml⟩ := page_sampled
  obtain ⟨b, hb, -, htext⟩ := torn_sampled
  obtain ⟨c, hc, hpdf⟩ := whole_sampled
  obtain ⟨d, hd, -, hspelled⟩ := spelled_sampled
  refine ⟨⟨a, b, ?_, ?_, hhtml, htext⟩, c, d, ?_, ?_, hpdf, hspelled⟩
  · rw [ha]
    decide
  · rw [hb]
    decide
  · rw [hc]
    rfl
  · rw [hd]
    decide

theorem fetchCid_verdict_pages : ∃ a b : Sampling {} pageHost (storeOf pageHost pageBlocks),
    a.dag.content = b.dag.content ∧
      (verdict pageHost a.result.data = verdict pageHost b.result.data ↔ verdict pageHost page =
        verdict pageHost (page.take 4)) := by
  obtain ⟨a, ha, hpage, -⟩ := page_sampled
  obtain ⟨b, hb, htorn, -⟩ := torn_sampled
  have hsame : a.dag.content = b.dag.content := by
    rw [ha, hb]
    decide
  have hunnamed : Unnamed pageHost (storeOf pageHost pageBlocks) := unnamed_blocks (by decide +kernel)
  refine ⟨a, b, hsame, ?_⟩
  rw [(fetchCid_verdict_iff {} pageHost (by decide) _ hunnamed a b hsame).1, hpage, htorn]

end Pages

end ObserverClub.Fetch
