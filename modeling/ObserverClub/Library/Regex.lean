import Mathlib.Data.List.Dedup
import Mathlib.Data.List.Infix

/-!
Patterns with groups, matched by backtracking: of the ways a pattern can go on, the first that leads to the end.
-/

namespace Library

inductive Regex (α : Type) where
  | empty
  | edge
  | char (cs : List α)
  | many (cs : List α)
  | seq (r s : Regex α)
  | alt (r s : Regex α)
  | maybe (r : Regex α)
  | group (r : Regex α)

namespace Regex

/-- How far a match has got: what lies behind, the nearest first, what lies ahead, and the groups that have closed. -/
structure Place (α : Type) where
  behind : List α
  ahead : List α
  groups : List (List α) := []

section Matching

variable {α : Type} [DecidableEq α] (word : α → Bool)

/-- Whether there is a word character on one side only. -/
def Place.atEdge (p : Place α) : Bool := p.behind.head?.any word != p.ahead.head?.any word

def endsChar (cs : List α) (groups : List (List α)) (behind : List α) : List α → List (Place α)
  | [] => []
  | c :: ahead => if c ∈ cs then [⟨c :: behind, ahead, groups⟩] else []

def endsMany (cs : List α) (groups : List (List α)) : List α → List α → List (Place α)
  | behind, [] => [⟨behind, [], groups⟩]
  | behind, c :: ahead =>
    if c ∈ cs then endsMany cs groups (c :: behind) ahead ++ [⟨behind, c :: ahead, groups⟩]
    else [⟨behind, c :: ahead, groups⟩]

def Place.close (start : ℕ) (p : Place α) : Place α :=
  { p with groups := p.groups ++ [(p.behind.take (p.behind.length - start)).reverse] }

/-- Where a pattern can end that begins at a place, in the order in which the ends are tried. -/
def ends : Regex α → Place α → List (Place α)
  | empty, p => [p]
  | edge, p => if p.atEdge word then [p] else []
  | char cs, p => endsChar cs p.groups p.behind p.ahead
  | many cs, p => endsMany cs p.groups p.behind p.ahead
  | seq r s, p => (ends r p).flatMap (ends s)
  | alt r s, p => ends r p ++ ends s p
  | maybe r, p => ends r p ++ [p]
  | group r, p => (ends r p).map (Place.close p.behind.length)

def searchFrom (r : Regex α) : List α → List α → Option (Place α)
  | behind, [] => (r.ends word ⟨behind, [], []⟩).head?
  | behind, c :: ahead => (r.ends word ⟨behind, c :: ahead, []⟩).head?.or (searchFrom r (c :: behind) ahead)

/-- The end of the first match. -/
def search (r : Regex α) (s : List α) : Option (Place α) := r.searchFrom word [] s

end Matching

section Language

variable {α β : Type}

/-- The texts a pattern takes, with the groups that close in them. -/
inductive Spells : Regex α → List α → List (List α) → Prop
  | empty : Spells empty [] []
  | edge : Spells edge [] []
  | char {cs : List α} {c : α} (h : c ∈ cs) : Spells (char cs) [c] []
  | many {cs s : List α} (h : ∀ c ∈ s, c ∈ cs) : Spells (many cs) s []
  | seq {r r' : Regex α} {s s' : List α} {g g' : List (List α)} (h : Spells r s g) (h' : Spells r' s' g') :
      Spells (seq r r') (s ++ s') (g ++ g')
  | left {r r' : Regex α} {s : List α} {g : List (List α)} (h : Spells r s g) : Spells (alt r r') s g
  | right {r r' : Regex α} {s : List α} {g : List (List α)} (h : Spells r' s g) : Spells (alt r r') s g
  | skip {r : Regex α} : Spells (maybe r) [] []
  | take {r : Regex α} {s : List α} {g : List (List α)} (h : Spells r s g) : Spells (maybe r) s g
  | group {r : Regex α} {s : List α} {g : List (List α)} (h : Spells r s g) : Spells (group r) s (g ++ [s])

def starless : Regex α → Bool
  | many _ => false
  | seq r s => r.starless && s.starless
  | alt r s => r.starless && s.starless
  | maybe r => r.starless
  | group r => r.starless
  | _ => true

def groupless : Regex α → Bool
  | group _ => false
  | seq r s => r.groupless && s.groupless
  | alt r s => r.groupless && s.groupless
  | maybe r => r.groupless
  | _ => true

/-- Whether each text of the pattern has a character of the class. -/
def needs [DecidableEq α] (cs : List α) : Regex α → Bool
  | char cs' => cs'.all (· ∈ cs)
  | seq r s => r.needs cs || s.needs cs
  | alt r s => r.needs cs && s.needs cs
  | group r => r.needs cs
  | _ => false

def alphabet : Regex α → List α
  | char cs => cs
  | many cs => cs
  | seq r s => r.alphabet ++ s.alphabet
  | alt r s => r.alphabet ++ s.alphabet
  | maybe r => r.alphabet
  | group r => r.alphabet
  | _ => []

/-- The texts of a pattern without stars, each character replaced by its image. -/
def images [DecidableEq β] (f : α → List β) : Regex α → List (List β)
  | char cs => (cs.map f).dedup
  | seq r s => (r.images f).flatMap fun x => (s.images f).map (x ++ ·)
  | alt r s => r.images f ++ s.images f
  | maybe r => [] :: r.images f
  | group r => r.images f
  | _ => [[]]

theorem Spells.groups_eq_nil {r : Regex α} {s : List α} {g : List (List α)} (h : Spells r s g)
    (hr : r.groupless = true) : g = [] := by
  induction h with
  | empty => rfl
  | edge => rfl
  | char h => rfl
  | many h => rfl
  | seq h h' ih ih' =>
    obtain ⟨hr, hr'⟩ := (Bool.and_eq_true _ _).mp hr
    rw [ih hr, ih' hr', List.append_nil]
  | left h ih => exact ih ((Bool.and_eq_true _ _).mp hr).1
  | right h ih => exact ih ((Bool.and_eq_true _ _).mp hr).2
  | skip => rfl
  | take h ih => exact ih hr
  | group h ih => cases hr

theorem Spells.exists_of_needs [DecidableEq α] {cs : List α} {r : Regex α} {s : List α} {g : List (List α)} (h : Spells r s g)
    (hr : r.needs cs = true) : ∃ c ∈ s, c ∈ cs := by
  induction h with
  | empty => cases hr
  | edge => cases hr
  | char h => exact ⟨_, List.mem_singleton_self _, of_decide_eq_true (List.all_eq_true.mp hr _ h)⟩
  | many h => cases hr
  | seq h h' ih ih' =>
    obtain hr | hr := (Bool.or_eq_true _ _).mp hr
    · obtain ⟨c, hc, hcs⟩ := ih hr
      exact ⟨c, List.mem_append_left _ hc, hcs⟩
    · obtain ⟨c, hc, hcs⟩ := ih' hr
      exact ⟨c, List.mem_append_right _ hc, hcs⟩
  | left h ih => exact ih ((Bool.and_eq_true _ _).mp hr).1
  | right h ih => exact ih ((Bool.and_eq_true _ _).mp hr).2
  | skip => cases hr
  | take h ih => cases hr
  | group h ih => exact ih hr

theorem Spells.mem_alphabet {r : Regex α} {s : List α} {g : List (List α)} (h : Spells r s g) {c : α} (hc : c ∈ s) :
    c ∈ r.alphabet := by
  induction h with
  | empty => cases hc
  | edge => cases hc
  | char h => rwa [List.mem_singleton.mp hc]
  | many h => exact h c hc
  | seq h h' ih ih' =>
    apply List.mem_append.mpr
    exact (List.mem_append.mp hc).imp ih ih'
  | left h ih => exact List.mem_append_left _ (ih hc)
  | right h ih => exact List.mem_append_right _ (ih hc)
  | skip => cases hc
  | take h ih => exact ih hc
  | group h ih => exact ih hc

theorem Spells.mem_of_mem_group {r : Regex α} {s t : List α} {g : List (List α)} (h : Spells r s g) (ht : t ∈ g) {c : α}
    (hc : c ∈ t) : c ∈ s := by
  induction h with
  | empty => cases ht
  | edge => cases ht
  | char h => cases ht
  | many h => cases ht
  | seq h h' ih ih' =>
    apply List.mem_append.mpr
    exact (List.mem_append.mp ht).imp ih ih'
  | left h ih => exact ih ht
  | right h ih => exact ih ht
  | skip => cases ht
  | take h ih => exact ih ht
  | group h ih =>
    obtain ht | ht := List.mem_append.mp ht
    · exact ih ht
    · rwa [← List.mem_singleton.mp ht]

theorem Spells.mem_images [DecidableEq β] {r : Regex α} {s : List α} {g : List (List α)} (h : Spells r s g)
    (hr : r.starless = true) (f : α → List β) : s.flatMap f ∈ r.images f := by
  induction h with
  | empty => exact List.mem_singleton_self _
  | edge => exact List.mem_singleton_self _
  | char h =>
    rw [List.flatMap_singleton]
    apply List.mem_dedup.mpr
    exact List.mem_map_of_mem h
  | many h => cases hr
  | seq h h' ih ih' =>
    obtain ⟨hr, hr'⟩ := (Bool.and_eq_true _ _).mp hr
    rw [List.flatMap_append]
    exact List.mem_flatMap.mpr ⟨_, ih hr, List.mem_map_of_mem (ih' hr')⟩
  | left h ih => exact List.mem_append_left _ (ih ((Bool.and_eq_true _ _).mp hr).1)
  | right h ih => exact List.mem_append_right _ (ih ((Bool.and_eq_true _ _).mp hr).2)
  | skip => exact List.mem_cons_self
  | take h ih => exact List.mem_cons_of_mem _ (ih hr)
  | group h ih => exact ih hr

theorem spells_seq {r r' : Regex α} {s : List α} {g : List (List α)} (h : Spells (seq r r') s g) :
    ∃ s₁ s₂ g₁ g₂, s = s₁ ++ s₂ ∧ g = g₁ ++ g₂ ∧ Spells r s₁ g₁ ∧ Spells r' s₂ g₂ := by
  cases h with
  | seq h h' => exact ⟨_, _, _, _, rfl, rfl, h, h'⟩

theorem spells_group {r : Regex α} {s : List α} {g : List (List α)} (h : Spells (group r) s g) (hr : r.groupless = true) :
    g = [s] ∧ Spells r s [] := by
  cases h with
  | group h =>
    have hnil := h.groups_eq_nil hr
    subst hnil
    exact ⟨rfl, h⟩

end Language

section Soundness

variable {α : Type} [DecidableEq α] {word : α → Bool}

theorem mem_endsMany {cs : List α} {groups : List (List α)} {behind ahead : List α} {q : Place α}
    (h : q ∈ endsMany cs groups behind ahead) :
    ∃ s, (∀ c ∈ s, c ∈ cs) ∧ ahead = s ++ q.ahead ∧ q.behind = s.reverse ++ behind ∧ q.groups = groups := by
  induction ahead generalizing behind with
  | nil =>
    rw [List.mem_singleton.mp h]
    exact ⟨[], nofun, rfl, rfl, rfl⟩
  | cons c ahead ih =>
    have hstay (h : q = ⟨behind, c :: ahead, groups⟩) :
        ∃ s, (∀ c ∈ s, c ∈ cs) ∧ c :: ahead = s ++ q.ahead ∧ q.behind = s.reverse ++ behind ∧ q.groups = groups := by
      rw [h]
      exact ⟨[], nofun, rfl, rfl, rfl⟩
    rw [endsMany] at h
    split_ifs at h with hc
    · obtain h | h := List.mem_append.mp h
      · obtain ⟨s, hs, hahead, hbehind, hgroups⟩ := ih h
        refine ⟨c :: s, ?_, by rw [hahead]; rfl, ?_, hgroups⟩
        · intro d hd
          obtain rfl | hd := List.mem_cons.mp hd
          · exact hc
          · exact hs d hd
        · rw [hbehind, List.reverse_cons, List.append_assoc]
          rfl
      · exact hstay (List.mem_singleton.mp h)
    · exact hstay (List.mem_singleton.mp h)

theorem mem_ends {r : Regex α} {p q : Place α} (h : q ∈ r.ends word p) :
    ∃ s g, Spells r s g ∧ p.ahead = s ++ q.ahead ∧ q.behind = s.reverse ++ p.behind ∧ q.groups = p.groups ++ g := by
  induction r generalizing p q with
  | empty =>
    rw [List.mem_singleton.mp h]
    exact ⟨[], [], .empty, rfl, rfl, (List.append_nil _).symm⟩
  | edge =>
    rw [ends] at h
    split_ifs at h
    · rw [List.mem_singleton.mp h]
      exact ⟨[], [], .edge, rfl, rfl, (List.append_nil _).symm⟩
    · cases h
  | char cs =>
    rw [ends] at h
    cases hahead : p.ahead with
    | nil =>
      rw [hahead] at h
      cases h
    | cons c ahead =>
      rw [hahead, endsChar] at h
      split_ifs at h with hc
      · rw [List.mem_singleton.mp h]
        exact ⟨[c], [], .char hc, rfl, rfl, (List.append_nil _).symm⟩
      · cases h
  | many cs =>
    obtain ⟨s, hs, hahead, hbehind, hgroups⟩ := mem_endsMany h
    exact ⟨s, [], .many hs, hahead, hbehind, by rw [hgroups, List.append_nil]⟩
  | seq r r' ih ih' =>
    obtain ⟨m, hm, hq⟩ := List.mem_flatMap.mp h
    obtain ⟨s, g, hs, hahead, hbehind, hgroups⟩ := ih hm
    obtain ⟨s', g', hs', hahead', hbehind', hgroups'⟩ := ih' hq
    refine ⟨s ++ s', g ++ g', .seq hs hs', ?_, ?_, ?_⟩
    · rw [hahead, hahead', List.append_assoc]
    · rw [hbehind', hbehind, List.reverse_append, List.append_assoc]
    · rw [hgroups', hgroups, List.append_assoc]
  | alt r r' ih ih' =>
    obtain h | h := List.mem_append.mp h
    · obtain ⟨s, g, hs, hrest⟩ := ih h
      exact ⟨s, g, .left hs, hrest⟩
    · obtain ⟨s, g, hs, hrest⟩ := ih' h
      exact ⟨s, g, .right hs, hrest⟩
  | maybe r ih =>
    obtain h | h := List.mem_append.mp h
    · obtain ⟨s, g, hs, hrest⟩ := ih h
      exact ⟨s, g, .take hs, hrest⟩
    · rw [List.mem_singleton.mp h]
      exact ⟨[], [], .skip, rfl, rfl, (List.append_nil _).symm⟩
  | group r ih =>
    obtain ⟨m, hm, rfl⟩ := List.mem_map.mp h
    obtain ⟨s, g, hs, hahead, hbehind, hgroups⟩ := ih hm
    refine ⟨s, g ++ [s], .group hs, hahead, hbehind, ?_⟩
    have htaken : (m.behind.take (m.behind.length - p.behind.length)).reverse = s := by
      rw [hbehind, List.length_append, Nat.add_sub_cancel, List.take_left, List.reverse_reverse]
    rw [Place.close, htaken, hgroups, List.append_assoc]

theorem searchFrom_spells {r : Regex α} {behind ahead : List α} {q : Place α}
    (h : r.searchFrom word behind ahead = some q) : ∃ before s, ahead = before ++ s ++ q.ahead ∧ Spells r s q.groups := by
  have hhere {behind ahead : List α} (h : (r.ends word ⟨behind, ahead, []⟩).head? = some q) :
      ∃ before s, ahead = before ++ s ++ q.ahead ∧ Spells r s q.groups := by
    obtain ⟨s, g, hs, hahead, -, hgroups⟩ := mem_ends (List.mem_of_head? h)
    refine ⟨[], s, hahead, ?_⟩
    rw [hgroups]
    exact hs
  induction ahead generalizing behind with
  | nil => exact hhere h
  | cons c ahead ih =>
    rw [searchFrom] at h
    obtain h | ⟨-, h⟩ := Option.or_eq_some_iff.mp h
    · exact hhere h
    · obtain ⟨before, s, hahead, hs⟩ := ih h
      exact ⟨c :: before, s, by rw [hahead]; rfl, hs⟩

theorem search_spells {r : Regex α} {t : List α} {q : Place α} (h : r.search word t = some q) :
    ∃ before s, t = before ++ s ++ q.ahead ∧ Spells r s q.groups := searchFrom_spells h

theorem search_eq_none {r : Regex α} {cs t : List α} (hr : r.needs cs = true) (ht : ∀ c ∈ t, c ∉ cs) :
    r.search word t = none := by
  cases h : r.search word t with
  | none => rfl
  | some q =>
    obtain ⟨before, s, rfl, hs⟩ := search_spells h
    obtain ⟨c, hc, hcs⟩ := hs.exists_of_needs hr
    exact absurd hcs (ht c (List.mem_append_left _ (List.mem_append_right _ hc)))

end Soundness

section Agreement

variable {α : Type} [DecidableEq α] {word word' : α → Bool}

theorem ends_congr (r : Regex α) {p : Place α} (h : ∀ c, c ∈ p.behind ∨ c ∈ p.ahead → word c = word' c) :
    r.ends word p = r.ends word' p := by
  induction r generalizing p with
  | edge =>
    have hany {o : Option α} (ho : ∀ c ∈ o, word c = word' c) : o.any word = o.any word' := by
      cases o with
      | none => rfl
      | some c => exact ho c rfl
    rw [ends, ends, Place.atEdge, Place.atEdge, hany fun c hc => h c (.inl (List.mem_of_head? hc)),
      hany fun c hc => h c (.inr (List.mem_of_head? hc))]
  | seq r r' ih ih' =>
    rw [ends, ends, ih h]
    apply List.flatMap_congr
    intro q hq
    obtain ⟨s, g, -, hahead, hbehind, -⟩ := mem_ends hq
    apply ih'
    intro c hc
    apply h c
    obtain hc | hc := hc
    · rw [hbehind, List.mem_append, List.mem_reverse] at hc
      obtain hc | hc := hc
      · exact .inr (by rw [hahead]; exact List.mem_append_left _ hc)
      · exact .inl hc
    · exact .inr (by rw [hahead]; exact List.mem_append_right _ hc)
  | alt r r' ih ih' => rw [ends, ends, ih h, ih' h]
  | maybe r ih => rw [ends, ends, ih h]
  | group r ih => rw [ends, ends, ih h]
  | _ => rfl

theorem search_congr (r : Regex α) {t : List α} (h : ∀ c ∈ t, word c = word' c) : r.search word t = r.search word' t := by
  have hall (behind ahead : List α) (h : ∀ c, c ∈ behind ∨ c ∈ ahead → word c = word' c) :
      r.searchFrom word behind ahead = r.searchFrom word' behind ahead := by
    induction ahead generalizing behind with
    | nil => rw [searchFrom, searchFrom, ends_congr r h]
    | cons c ahead ih =>
      rw [searchFrom, searchFrom, ends_congr r h, ih]
      intro d hd
      apply h d
      rw [List.mem_cons] at hd ⊢
      tauto
  exact hall [] t fun c hc => h c (hc.resolve_left List.not_mem_nil)

end Agreement

/-- Patterns one after the other, the first of several that leads on, one or more characters of a class. -/
def seqs {α : Type} : List (Regex α) → Regex α
  | [] => empty
  | [r] => r
  | r :: rs => seq r (seqs rs)

def alts {α : Type} : List (Regex α) → Regex α
  | [] => char []
  | [r] => r
  | r :: rs => alt r (alts rs)

@[simp]
theorem starless_seqs {α : Type} (rs : List (Regex α)) : (seqs rs).starless = rs.all starless := by
  induction rs with
  | nil => rfl
  | cons r rs ih =>
    cases rs with
    | nil => exact (Bool.and_true _).symm
    | cons r' rs =>
      rw [seqs, starless, ih]
      · rfl
      · exact List.cons_ne_nil r' rs

@[simp]
theorem starless_alts {α : Type} (rs : List (Regex α)) : (alts rs).starless = rs.all starless := by
  induction rs with
  | nil => rfl
  | cons r rs ih =>
    cases rs with
    | nil => exact (Bool.and_true _).symm
    | cons r' rs =>
      rw [alts, starless, ih]
      · rfl
      · exact List.cons_ne_nil r' rs

@[simp]
theorem groupless_seqs {α : Type} (rs : List (Regex α)) : (seqs rs).groupless = rs.all groupless := by
  induction rs with
  | nil => rfl
  | cons r rs ih =>
    cases rs with
    | nil => exact (Bool.and_true _).symm
    | cons r' rs =>
      rw [seqs, groupless, ih]
      · rfl
      · exact List.cons_ne_nil r' rs

@[simp]
theorem groupless_alts {α : Type} (rs : List (Regex α)) : (alts rs).groupless = rs.all groupless := by
  induction rs with
  | nil => rfl
  | cons r rs ih =>
    cases rs with
    | nil => exact (Bool.and_true _).symm
    | cons r' rs =>
      rw [alts, groupless, ih]
      · rfl
      · exact List.cons_ne_nil r' rs

def several {α : Type} (cs : List α) : Regex α := seq (char cs) (many cs)

end Regex

end Library
