import ObserverClub.Settling

/-!
The claim in the course of `process_one`: the slot that is taken for it, and the time stamp that is set.
-/

namespace ObserverClub.Indexer

open Library Python Library.Program

inductive Stage where
  | outside
  | held
  | sent (ok : Bool)
  | timed (ok : Bool) (now : ℚ)
  | refused
  | leased (told : Bool)
  | left
  deriving DecidableEq

def takes : Event Answer → Bool
  | ⟨.acquireSlot, .ok free⟩ => free
  | _ => false

def claimAnswer : Event Answer → Option Bool
  | ⟨.publishClaim _, .ok ok⟩ => some ok
  | _ => none

def reading : Event Answer → Option ℚ
  | ⟨.clock, .ok now⟩ => some now
  | _ => none

def Action.sets : Action → Bool
  | .setLease _ => true
  | _ => false

def Action.releases : Action → Bool
  | .releaseSlot => true
  | _ => false

def tells (cid : Text) : Event Answer → Bool
  | ⟨.publishSkip c _ _, .ok ok⟩ => ok && c = cid
  | ⟨.publishClassify c _, .ok ok⟩ => ok && c = cid
  | _ => false

def Stage.next (cid : Text) (s : Stage) (e : Event Answer) : Stage :=
  match s with
  | .outside => if takes e then .held else .outside
  | .held => ((claimAnswer e).map Stage.sent).getD .held
  | .sent ok => ((reading e).map (Stage.timed ok)).getD (.sent ok)
  | .timed ok now => if e.1.sets then (if ok then .leased false else .refused) else .timed ok now
  | .refused => if e.1.releases then .outside else .refused
  | .leased told => if e.1.releases then .left else .leased (told || tells cid e)
  | .left => .left

def stage (cid : Text) (events : List (Event Answer)) : Stage := events.foldl (Stage.next cid) .outside

def disagrees : Event Answer → Bool
  | ⟨.mark _ .skipped columns, .ok _⟩ => columns.error = some (some (txt "llm_disagreed"))
  | _ => false

/-- What a call may do with the slot and the stamp. -/
def Fits (w : Worker) (cid : Text) (events : List (Event Answer)) : Action → Prop
  | .acquireSlot => stage cid events = .outside
  | .publishClaim c => stage cid events = .held ∧ c = cid
  | .setLease x =>
    (∃ now, stage cid events = .timed true now ∧ x = now + w.claimTTL) ∨ (∃ now, stage cid events = .timed false now) ∨
      x = 0 ∧ (stage cid events = .outside ∨ ∃ told, stage cid events = .leased told ∧
        (told = true ∨ events.any disagrees = true))
  | .releaseSlot => stage cid events = .refused ∨ ∃ told, stage cid events = .leased told
  | _ => stage cid events ≠ .left

def Action.aloof : Action → Bool
  | .acquireSlot => false
  | .publishClaim _ => false
  | .setLease _ => false
  | .releaseSlot => false
  | _ => true

section Walk

variable {w : Worker} {row : Row} {α β : Type}

def Aloof (x : Proc α) : Prop := Only (fun a => a.aloof = true) x.run

theorem aloof_pure (x : α) : Aloof (pure x) := trivial

theorem aloof_call {a : Action} (h : a.aloof = true) : Aloof (call a) := only_call h

theorem aloof_bind {x : Proc α} {f : α → Proc β} (hx : Aloof x) (hf : ∀ a, Aloof (f a)) : Aloof (x >>= f) :=
  only_bind hx hf

theorem aloof_of (x : Except Error α) : Aloof (Task.of x) := trivial

theorem Reading.aloof {x : Proc α} (h : Reading x) : Aloof x := by
  refine Only.mono h fun a ha => ?_
  cases a <;> first | rfl | cases ha

theorem aloof_publishClassify (cid : Text) (payload : Payload) : Aloof (publishClassify w cid payload) := by
  obtain ⟨field, h⟩ | ⟨e, h⟩ := publishClassify_cases (w := w) cid payload
  · rw [h]
    exact aloof_call rfl
  · rw [h]
    trivial

theorem aloof_retryLater (s : Sample) (error : Text) : Aloof (retryLater row s error) :=
  aloof_bind (aloof_call rfl) fun _ => aloof_pure false

theorem aloof_reuse (s : Sample) (fp : Text) (found : Store.Preferred) : Aloof (reuse w row s fp found) := by
  apply aloof_bind (aloof_call rfl)
  intro now
  apply aloof_bind (aloof_publishClassify row.cid _)
  intro ok
  split_ifs
  · exact aloof_bind (aloof_call rfl) fun _ => aloof_pure true
  · apply aloof_retryLater

theorem aloof_unusableStage (s : Sample) : Aloof (unusableStage row s) := by
  unfold unusableStage
  split_ifs <;> exact aloof_bind (aloof_call rfl) fun _ => aloof_pure true

theorem aloof_failedStage (r : Fetch.FetchResult) : Aloof (failedStage w row r) := by
  unfold failedStage
  split_ifs <;> exact aloof_bind (aloof_call rfl) fun _ => aloof_pure false

theorem aloof_directoryStage (r : Fetch.FetchResult) : Aloof (directoryStage row r) := by
  unfold directoryStage
  split_ifs
  · exact aloof_bind (aloof_call rfl) fun _ => aloof_bind (aloof_call rfl) fun _ => aloof_bind (aloof_call rfl) fun _ =>
      aloof_pure true
  · exact aloof_bind (aloof_pure _) fun _ => aloof_bind (aloof_call rfl) fun _ => aloof_bind (aloof_call rfl) fun _ =>
      aloof_pure true

theorem aloof_noteFetch (r : Fetch.FetchResult) : Aloof (noteFetch row r) := by
  unfold noteFetch
  split_ifs
  · exact aloof_bind (aloof_call rfl) fun _ => aloof_call rfl
  · exact aloof_call rfl

theorem aloof_afterHit (rerun : Bool) (hit : Store.Hit) : Aloof (afterHit row.cid rerun hit) := by
  cases hit with
  | skip s =>
    simp only [afterHit]
    split_ifs
    · exact aloof_pure none
    · exact aloof_bind (aloof_call rfl) fun _ => aloof_bind (aloof_call rfl) fun _ => aloof_pure _
  | classify c =>
    simp only [afterHit]
    split_ifs
    · exact aloof_pure none
    · exact aloof_bind (aloof_call rfl) fun _ => aloof_pure _
  | claim claim =>
    apply aloof_bind (plain_foreignLiveClaim claim).reading.aloof
    intro foreign
    split_ifs
    · exact aloof_bind (aloof_call rfl) fun _ => aloof_pure _
    · exact aloof_pure none

theorem aloof_hook : Aloof (hook w row.cid) := by
  apply aloof_bind (reading_lookupCid w row.cid).aloof
  intro hit
  cases hit with
  | none => exact aloof_pure none
  | some hit =>
    exact aloof_bind (plain_mustClassify row.cid).reading.aloof fun rerun => aloof_afterHit rerun hit

/-- All that has to do with the claim is in `consult`. -/
theorem processOne_of_consult {P : Proc Bool → Prop} (halone : ∀ x, Aloof x → P x)
    (hbefore : ∀ {α : Type} {x : Proc α} {f : α → Proc Bool}, Aloof x → (∀ a, P (f a)) → P (x >>= f))
    (hconsult : ∀ s fp, P (consult w row s fp)) : P (processOne w row) := by
  have husable (s : Sample) : P (usableStage w row s) := by
    apply hbefore (aloof_of _)
    intro fp
    apply hbefore (plain_classifyByTextHash fp).reading.aloof
    intro found
    cases found with
    | none => exact hconsult s fp
    | some found =>
      apply hbefore (plain_mustClassify row.cid).reading.aloof
      intro again
      split_ifs
      · exact hconsult s fp
      · exact halone _ (aloof_reuse s fp found)
  have hsample (r : Fetch.FetchResult) : P (sampleStage w row r) := by
    apply hbefore (aloof_of _)
    intro part
    split_ifs
    · exact halone _ (aloof_bind (aloof_call rfl) fun _ => aloof_bind (aloof_call rfl) fun _ => aloof_pure true)
    · apply hbefore (aloof_of _)
      intro doc
      split_ifs
      · exact halone _ (aloof_unusableStage _)
      · exact husable _
  have hfetch : P (fetchStage w row) := by
    apply hbefore (aloof_call rfl)
    intro u
    apply hbefore (aloof_call rfl)
    intro r
    apply hbefore (aloof_noteFetch r)
    intro u
    split_ifs
    · exact halone _ (aloof_directoryStage r)
    · exact halone _ (aloof_failedStage r)
    · exact hsample r
  unfold processOne
  split_ifs
  · exact halone _ (aloof_bind (aloof_call rfl) fun _ => aloof_pure true)
  · apply hbefore aloof_hook
    intro ended
    cases ended with
    | none => exact hfetch
    | some ended => exact halone _ (aloof_pure ended)

end Walk

section Rules

variable {w : Worker} {row : Row} {α β : Type}

theorem stage_snoc (cid : Text) (events : List (Event Answer)) (e : Event Answer) :
    stage cid (events ++ [e]) = (stage cid events).next cid e := by
  rw [stage, List.foldl_append]
  rfl

inductive Placed (cid : Text) (events : List (Event Answer)) : Bool → Prop
  | outside (h : stage cid events = .outside) : Placed cid events false
  | leased {told : Bool} (h : stage cid events = .leased told) : Placed cid events true

inductive Free (cid : Text) (events : List (Event Answer)) : Bool → Prop
  | outside (h : stage cid events = .outside) : Free cid events false
  | leased {told : Bool} (h : stage cid events = .leased told) (hclear : told = true ∨ events.any disagrees = true) :
      Free cid events true

variable {claimed : Bool} {events : List (Event Answer)}

theorem Free.placed (h : Free row.cid events claimed) : Placed row.cid events claimed := by
  cases h with
  | outside h => exact .outside h
  | leased h _ => exact .leased h

theorem Placed.fits {a : Action} (h : Placed row.cid events claimed) (ha : a.aloof = true) : Fits w row.cid events a := by
  have hover : stage row.cid events ≠ .left := by
    cases h with
    | outside h => rw [h]; exact nofun
    | leased h => rw [h]; exact nofun
  cases a <;> first | exact hover | cases ha

theorem next_outside {cid : Text} {e : Event Answer} (h : takes e = false) : Stage.next cid .outside e = .outside := by
  rw [Stage.next, h]
  rfl

theorem next_leased {cid : Text} {told : Bool} {e : Event Answer} (h : e.1.releases = false) :
    Stage.next cid (.leased told) e = .leased (told || tells cid e) := by
  rw [Stage.next, h]
  rfl

theorem takes_of_aloof {e : Event Answer} (h : e.1.aloof = true) : takes e = false := by
  obtain ⟨a, r⟩ := e
  cases a <;> first | rfl | cases h

theorem releases_of_aloof {a : Action} (h : a.aloof = true) : a.releases = false := by
  cases a <;> first | rfl | cases h

theorem Placed.snoc {e : Event Answer} (h : Placed row.cid events claimed) (ha : e.1.aloof = true) :
    Placed row.cid (events ++ [e]) claimed := by
  cases h with
  | outside h => exact .outside (by rw [stage_snoc, h, next_outside (takes_of_aloof ha)])
  | leased h => exact .leased (by rw [stage_snoc, h, next_leased (releases_of_aloof ha)])

theorem Placed.free_of_told {e : Event Answer} (h : Placed row.cid events claimed) (ha : e.1.aloof = true)
    (ht : tells row.cid e = true) : Free row.cid (events ++ [e]) claimed := by
  cases h with
  | outside h => exact .outside (by rw [stage_snoc, h, next_outside (takes_of_aloof ha)])
  | leased h => exact .leased (by rw [stage_snoc, h, next_leased (releases_of_aloof ha), ht]) (.inl (Bool.or_true _))

theorem Placed.free_of_disagrees {e : Event Answer} (h : Placed row.cid events claimed) (ha : e.1.aloof = true)
    (hd : disagrees e = true) : Free row.cid (events ++ [e]) claimed := by
  cases h with
  | outside h => exact .outside (by rw [stage_snoc, h, next_outside (takes_of_aloof ha)])
  | leased h =>
    refine .leased (by rw [stage_snoc, h, next_leased (releases_of_aloof ha)]) (.inr ?_)
    rw [List.any_append, List.any_cons, hd, Bool.true_or, Bool.or_true]

theorem Free.snoc {e : Event Answer} (h : Free row.cid events claimed) (ha : e.1.aloof = true) :
    Free row.cid (events ++ [e]) claimed := by
  cases h with
  | outside h => exact .outside (by rw [stage_snoc, h, next_outside (takes_of_aloof ha)])
  | leased h hclear =>
    refine .leased (by rw [stage_snoc, h, next_leased (releases_of_aloof ha)]) ?_
    rw [List.any_append]
    obtain rfl | hclear := hclear
    · exact .inl (Bool.true_or _)
    · exact .inr (by rw [hclear, Bool.true_or])

theorem ensures_task {allowed : List (Event Answer) → Action → Prop} {post : List (Event Answer) → Except Error β → Prop}
    {a : Action} {f : Reply a → Proc β} (ha : allowed events a) (herror : ∀ e, post (events ++ [⟨a, .error e⟩]) (.error e))
    (hf : ∀ r, Ensures allowed post (events ++ [⟨a, .ok r⟩]) (f r).run) : Ensures allowed post events (call a >>= f).run := by
  refine ⟨ha, fun r => ?_⟩
  cases r with
  | error e => exact herror e
  | ok r => exact hf r

def Keeps (w : Worker) (row : Row) (x : Proc α) : Prop := ∀ claimed events, Placed row.cid events claimed →
  Ensures (Fits w row.cid) (fun events _ => Placed row.cid events claimed) events x.run

def Clears (w : Worker) (row : Row) (x : Proc α) : Prop := ∀ claimed events, Free row.cid events claimed →
  Ensures (Fits w row.cid) (fun events _ => Placed row.cid events claimed) events x.run

theorem Aloof.keeps {x : Proc α} (h : Aloof x) : Keeps w row x := by
  intro claimed events hplaced
  apply h.ensures (I := fun events => Placed row.cid events claimed) hplaced
  · exact fun _ _ h ha => h.fits ha
  · exact fun _ _ _ h ha => h.snoc ha
  · exact fun _ _ h => h

theorem keeps_bind {x : Proc α} {f : α → Proc β} (hx : Aloof x) (hf : ∀ a, Keeps w row (f a)) : Keeps w row (x >>= f) := by
  intro claimed events hplaced
  apply Ensures.bind
  refine Ensures.mono (hx.keeps claimed events hplaced) fun events r hr => ?_
  cases r with
  | ok a => exact hf a claimed events hr
  | error e => exact hr

theorem keeps_answered {a : Action} {f : Reply a → Proc β} (ha : a.aloof = true)
    (hf : ∀ r, Keeps w row (f r) ∨ (Clears w row (f r) ∧ (tells row.cid ⟨a, .ok r⟩ = true ∨ disagrees ⟨a, .ok r⟩ = true))) :
    Keeps w row (call a >>= f) := by
  intro claimed events hplaced
  refine ⟨hplaced.fits ha, fun r => ?_⟩
  cases r with
  | error e => exact hplaced.snoc ha
  | ok r =>
    obtain hkeeps | ⟨hclears, ht | hd⟩ := hf r
    · exact hkeeps claimed _ (hplaced.snoc ha)
    · exact hclears claimed _ (hplaced.free_of_told ha ht)
    · exact hclears claimed _ (hplaced.free_of_disagrees ha hd)

theorem clears_call {a : Action} {f : Reply a → Proc β} (ha : a.aloof = true) (hf : ∀ r, Clears w row (f r)) :
    Clears w row (call a >>= f) := by
  intro claimed events hfree
  refine ⟨hfree.placed.fits ha, fun r => ?_⟩
  cases r with
  | error e => exact (hfree.snoc ha).placed
  | ok r => exact hf r claimed _ (hfree.snoc ha)

theorem clears_claimCleared : Clears w row (claimCleared >>= fun _ => pure true) := by
  intro claimed events hfree
  have hfits : Fits w row.cid events (.setLease 0) := by
    cases hfree with
    | outside h => exact .inr (.inr ⟨rfl, .inl h⟩)
    | leased h hclear => exact .inr (.inr ⟨rfl, .inr ⟨_, h, hclear⟩⟩)
  refine ⟨hfits, fun r => ?_⟩
  have hplaced : Placed row.cid (events ++ [⟨.setLease 0, r⟩]) claimed := by
    cases hfree with
    | outside h => exact .outside (by rw [stage_snoc, h, next_outside rfl])
    | leased h => exact .leased (by rw [stage_snoc, h, next_leased rfl])
  cases r <;> exact hplaced

end Rules

section Consult

variable {w : Worker} {row : Row}

theorem keeps_skipOutOfScope (s : Sample) {cleared : Proc Unit} (hc : Clears w row (cleared >>= fun _ => pure true)) :
    Keeps w row (skipOutOfScope row s cleared) := by
  apply keeps_answered rfl
  intro ok
  cases ok with
  | true => exact .inr ⟨clears_call rfl fun _ => hc, .inl (decide_eq_true rfl)⟩
  | false => exact .inl (aloof_retryLater s publishFailed).keeps

theorem keeps_published (s : Sample) (payload : Payload) {f : Unit → Proc Bool} (hf : ∀ u, Clears w row (f u)) :
    Keeps w row (publishClassify w row.cid payload >>= fun ok =>
      if ok then call (.mark row.cid .indexed (s.columns none)) >>= f else retryLater row s publishFailed) := by
  obtain ⟨field, h⟩ | ⟨e, h⟩ := publishClassify_cases (w := w) row.cid payload
  · rw [h]
    apply keeps_answered rfl
    intro ok
    cases ok with
    | true => exact .inr ⟨clears_call rfl hf, .inl (decide_eq_true rfl)⟩
    | false => exact .inl (aloof_retryLater s publishFailed).keeps
  · rw [h]
    exact fun _ _ hplaced => hplaced

theorem keeps_publishVerdict (s : Sample) (fp : Text) (m : Meta) : Keeps w row (publishVerdict w row s fp m) :=
  keeps_bind (aloof_call rfl) fun _ => keeps_published s _ fun _ => clears_claimCleared

theorem disagrees_disagreed (cid : Text) (s : Sample) (now : ℚ) (u : Unit) :
    disagrees ⟨.mark cid .skipped (disagreed s now), .ok u⟩ = true := rfl

theorem keeps_verdict (s : Sample) (fp : Text) (prior : Option Text) (m : Meta) :
    Keeps w row (verdict w row s fp prior m) := by
  unfold verdict
  split_ifs
  · apply keeps_bind (aloof_call rfl)
    intro now
    apply keeps_answered rfl
    exact fun u => .inr ⟨clears_claimCleared, .inr (disagrees_disagreed row.cid s now u)⟩
  · exact keeps_skipOutOfScope s clears_claimCleared
  · exact keeps_publishVerdict s fp m

theorem keeps_judge (s : Sample) (fp : Text) (prior : Option Text) : Keeps w row (judge w row s fp prior) := by
  apply keeps_bind (aloof_call rfl)
  intro answer
  cases answer with
  | none => exact (aloof_retryLater s _).keeps
  | some m => exact keeps_verdict s fp prior m

theorem ensures_tryClaim {events : List (Event Answer)} (h : stage row.cid events = .outside) :
    Ensures (Fits w row.cid) (fun events r => ∀ claimed, r = .ok claimed → Placed row.cid events claimed) events
      (tryClaim w row.cid).run := by
  have hplaced : Placed row.cid events false := .outside h
  unfold tryClaim
  apply ensures_task (hplaced.fits rfl) fun _ => nofun
  intro now
  have hplaced := hplaced.snoc (e := ⟨.clock, .ok now⟩) rfl
  apply ensures_task (hplaced.fits rfl) fun _ => nofun
  intro lease
  have hplaced := hplaced.snoc (e := ⟨.leaseUntil, .ok lease⟩) rfl
  split_ifs
  · rintro claimed ⟨⟩
    exact hplaced
  · have houtside : stage row.cid (events ++ [⟨.clock, .ok now⟩] ++ [⟨.leaseUntil, .ok lease⟩]) = .outside := by
      cases hplaced
      assumption
    apply ensures_task houtside fun _ => nofun
    intro free
    cases free with
    | false =>
      rintro claimed ⟨⟩
      exact .outside (by rw [stage_snoc, houtside]; rfl)
    | true =>
      have hheld := stage_snoc row.cid (events ++ [⟨.clock, .ok now⟩] ++ [⟨.leaseUntil, .ok lease⟩])
        ⟨.acquireSlot, .ok true⟩
      rw [houtside] at hheld
      apply ensures_task ⟨hheld, rfl⟩ fun _ => nofun
      intro ok
      generalize events ++ [⟨.clock, .ok now⟩] ++ [⟨.leaseUntil, .ok lease⟩] ++ [⟨.acquireSlot, .ok true⟩] = taken at hheld ⊢
      have hsent := stage_snoc row.cid taken ⟨.publishClaim row.cid, .ok ok⟩
      rw [hheld] at hsent
      have hfits : Fits w row.cid (taken ++ [⟨.publishClaim row.cid, .ok ok⟩]) .clock := by
        intro hover
        rw [hsent] at hover
        cases hover
      apply ensures_task hfits fun _ => nofun
      intro later
      generalize taken ++ [⟨.publishClaim row.cid, .ok ok⟩] = asked at hsent ⊢
      have htimed := stage_snoc row.cid asked ⟨.clock, .ok later⟩
      rw [hsent] at htimed
      generalize asked ++ [⟨.clock, .ok later⟩] = timed at htimed ⊢
      cases ok with
      | true =>
        apply ensures_task (.inl ⟨later, htimed, rfl⟩) fun _ => nofun
        intro u
        rintro claimed ⟨⟩
        exact .leased (by rw [stage_snoc, htimed]; rfl)
      | false =>
        apply ensures_task (.inr (.inl ⟨later, htimed⟩)) fun _ => nofun
        intro u
        have hrefused := stage_snoc row.cid timed ⟨.setLease (later + 30), .ok u⟩
        rw [htimed] at hrefused
        apply ensures_task (.inl hrefused) fun _ => nofun
        intro u'
        rintro claimed ⟨⟩
        exact .outside (by rw [stage_snoc, hrefused]; rfl)

def Ends (w : Worker) (row : Row) (x : Proc Bool) : Prop := ∀ events, stage row.cid events = .outside →
  Ensures (Fits w row.cid) (fun _ _ => True) events x.run

theorem Keeps.ends {x : Proc Bool} (h : Keeps w row x) : Ends w row x :=
  fun events houtside => (h false events (.outside houtside)).mono fun _ _ _ => trivial

theorem ends_bind {α : Type} {x : Proc α} {f : α → Proc Bool} (hx : Aloof x) (hf : ∀ a, Ends w row (f a)) :
    Ends w row (x >>= f) := by
  intro events houtside
  apply Ensures.bind
  refine Ensures.mono (hx.keeps false events (.outside houtside)) fun events r hr => ?_
  cases r with
  | ok a =>
    cases hr with
    | outside h => exact hf a events h
  | error e => trivial

theorem ends_consult (s : Sample) (fp : Text) : Ends w row (consult w row s fp) := by
  apply ends_bind (aloof_call rfl)
  intro prior
  split_ifs
  · apply Keeps.ends
    apply Aloof.keeps
    apply aloof_bind (aloof_call rfl)
    intro ok
    split_ifs
    · exact aloof_bind (aloof_call rfl) fun _ => aloof_pure true
    · exact aloof_retryLater s publishFailed
  · apply ends_bind (aloof_call rfl)
    intro up
    split_ifs
    · exact (aloof_retryLater s _).keeps.ends
    · intro events houtside
      apply Ensures.bind
      refine Ensures.mono (ensures_tryClaim houtside) fun events r hr => ?_
      cases r with
      | error e => trivial
      | ok claimed =>
        apply Ensures.bind
        refine Ensures.mono (keeps_judge s fp prior claimed events (hr claimed rfl)) fun events r hplaced => ?_
        cases hplaced with
        | outside h => trivial
        | leased h => exact ⟨.inr ⟨_, h⟩, fun _ => trivial⟩

theorem processOne_fits (w : Worker) (row : Row) : Guarded (Fits w row.cid) [] (processOne w row).run := by
  have hends : Ends w row (processOne w row) := by
    apply processOne_of_consult (P := Ends w row)
    · exact fun x hx => hx.keeps.ends
    · exact fun hx hf => ends_bind hx hf
    · exact ends_consult
  exact (hends [] rfl).guarded

end Consult

end ObserverClub.Indexer
