import Mathlib.Data.List.Find
import Mathlib.Data.List.Induction
import Mathlib.Data.List.Perm.Lattice
import Mathlib.Data.List.Sort

namespace Library.Plurality

variable {κ σ : Type}

def most (votes : List (κ × ℕ)) : ℕ := votes.foldr (fun v n => max v.2 n) 0

section Polls

variable [DecidableEq κ]

def cast (votes : List (κ × ℕ)) (k : κ) : List (κ × ℕ) :=
  if votes.any fun v => v.1 = k then votes.map fun v => if v.1 = k then (v.1, v.2 + 1) else v
  else votes ++ [(k, 1)]

def present (display : List (κ × σ)) (item : κ × σ) : List (κ × σ) :=
  if display.any fun d => d.1 = item.1 then display else display ++ [item]

def poll (items : List (κ × σ)) : List (κ × ℕ) × List (κ × σ) :=
  items.foldl (fun acc item => (cast acc.1 item.1, present acc.2 item)) ([], [])

def winner (votes : List (κ × ℕ)) (display : List (κ × σ)) : Option σ :=
  (display.find? fun d => votes.lookup d.1 = some (most votes)).map Prod.snd

def votesFor (items : List (κ × σ)) (k : κ) : ℕ := items.countP fun i => i.1 = k

def Leads (items : List (κ × σ)) (k : κ) : Prop := ∀ i ∈ items, votesFor items i.1 ≤ votesFor items k

instance (items : List (κ × σ)) (k : κ) : Decidable (Leads items k) :=
  inferInstanceAs (Decidable (∀ i ∈ items, votesFor items i.1 ≤ votesFor items k))

end Polls

section Most

theorem le_most {votes : List (κ × ℕ)} {v : κ × ℕ} (h : v ∈ votes) : v.2 ≤ most votes := by
  induction votes with
  | nil => cases h
  | cons u votes ih =>
    obtain rfl | h := List.mem_cons.mp h
    · exact le_max_left _ _
    · exact (ih h).trans (le_max_right _ _)

theorem most_mem {votes : List (κ × ℕ)} (h : most votes ≠ 0) : ∃ v ∈ votes, v.2 = most votes := by
  induction votes with
  | nil => exact absurd rfl h
  | cons u votes ih =>
    by_cases hle : most votes ≤ u.2
    · exact ⟨u, List.mem_cons_self, (max_eq_left hle).symm⟩
    · have hmost : most (u :: votes) = most votes := max_eq_right (le_of_not_ge hle)
      rw [hmost] at h ⊢
      obtain ⟨v, hv, he⟩ := ih h
      exact ⟨v, List.mem_cons_of_mem _ hv, he⟩

end Most

section Dups

variable {α : Type} [BEq α] [LawfulBEq α] {xs : List α} {x : α}

theorem eraseDups_snoc_mem (h : x ∈ xs) : (xs ++ [x]).eraseDups = xs.eraseDups := by
  have hnone : [x].removeAll xs = [] := by
    simp [List.removeAll, h]
  rw [List.eraseDups_append, hnone, List.eraseDups_nil, List.append_nil]

theorem eraseDups_snoc_new (h : x ∉ xs) : (xs ++ [x]).eraseDups = xs.eraseDups ++ [x] := by
  have hone : [x].removeAll xs = [x] := by
    simp [List.removeAll, h]
  rw [List.eraseDups_append, hone]
  rfl

theorem nodup_eraseDups (xs : List α) : xs.eraseDups.Nodup := by
  induction xs using List.reverseRecOn with
  | nil => exact List.nodup_nil
  | append_singleton xs x ih =>
    by_cases h : x ∈ xs
    · rw [eraseDups_snoc_mem h]
      exact ih
    · rw [eraseDups_snoc_new h]
      apply List.nodup_append.mpr
      refine ⟨ih, List.nodup_singleton x, ?_⟩
      intro a ha b hb
      rw [List.mem_singleton.mp hb]
      rintro rfl
      exact h (List.mem_eraseDups.mp ha)

end Dups

section Counting

variable [DecidableEq κ] {items : List (κ × σ)} {k : κ}

theorem poll_snoc (items : List (κ × σ)) (item : κ × σ) :
    poll (items ++ [item]) = (cast (poll items).1 item.1, present (poll items).2 item) := by
  rw [poll, List.foldl_append]
  rfl

theorem votesFor_snoc (items : List (κ × σ)) (item : κ × σ) (k : κ) :
    votesFor (items ++ [item]) k = votesFor items k + if item.1 = k then 1 else 0 := by
  rw [votesFor, List.countP_append, List.countP_singleton, votesFor]
  simp only [decide_eq_true_eq]

theorem votesFor_pos {item : κ × σ} (h : item ∈ items) : 0 < votesFor items item.1 :=
  List.countP_pos_iff.mpr ⟨item, h, decide_eq_true rfl⟩

theorem votesFor_perm {items' : List (κ × σ)} (h : items.Perm items') (k : κ) : votesFor items k = votesFor items' k :=
  h.countP_eq _

theorem leads_perm {items' : List (κ × σ)} (h : items.Perm items') (k : κ) : Leads items k ↔ Leads items' k := by
  unfold Leads
  simp only [votesFor_perm h, h.mem_iff]

def keys (items : List (κ × σ)) : List κ := (items.map Prod.fst).eraseDups

theorem mem_keys : k ∈ keys items ↔ ∃ i ∈ items, i.1 = k := by
  rw [keys, List.mem_eraseDups, List.mem_map]

theorem votesFor_eq_zero (h : k ∉ keys items) : votesFor items k = 0 := by
  apply List.countP_eq_zero.mpr
  intro i hi hk
  exact h (mem_keys.mpr ⟨i, hi, of_decide_eq_true hk⟩)

theorem keys_snoc (items : List (κ × σ)) (item : κ × σ) :
    keys (items ++ [item]) = if item.1 ∈ keys items then keys items else keys items ++ [item.1] := by
  unfold keys
  rw [List.map_append, List.map_singleton]
  split_ifs with h
  · exact eraseDups_snoc_mem (List.mem_eraseDups.mp h)
  · exact eraseDups_snoc_new fun hin => h (List.mem_eraseDups.mpr hin)

theorem votes_eq (items : List (κ × σ)) : (poll items).1 = (keys items).map fun k => (k, votesFor items k) := by
  induction items using List.reverseRecOn with
  | nil => rfl
  | append_singleton items item ih =>
    have hany : ((keys items).map fun k => (k, votesFor items k)).any (fun v => decide (v.1 = item.1)) =
        decide (item.1 ∈ keys items) := by
      rw [Bool.eq_iff_iff, List.any_eq_true, decide_eq_true_eq]
      simp only [List.mem_map, decide_eq_true_eq]
      constructor
      · rintro ⟨_, ⟨k, hk, rfl⟩, hv⟩
        rw [← hv]
        exact hk
      · exact fun h => ⟨_, ⟨_, h, rfl⟩, rfl⟩
    rw [poll_snoc, ih, cast, hany, keys_snoc]
    by_cases h : item.1 ∈ keys items
    · rw [if_pos (decide_eq_true h), if_pos h, List.map_map]
      apply List.map_congr_left
      intro k _
      rw [Function.comp_apply, votesFor_snoc]
      by_cases hk : k = item.1
      · rw [if_pos hk, if_pos hk.symm]
      · rw [if_neg hk, if_neg fun he => hk he.symm]
        rfl
    · rw [if_neg (by simpa using h), if_neg h, List.map_append, List.map_singleton, votesFor_snoc, if_pos rfl,
        votesFor_eq_zero h]
      apply congrArg (· ++ [(item.1, 1)])
      apply List.map_congr_left
      intro k hk
      have hne : ¬item.1 = k := fun he => h (by rw [he]; exact hk)
      rw [votesFor_snoc, if_neg hne]
      rfl

theorem votes_nodup (items : List (κ × σ)) : (poll items).1.Nodup := by
  rw [votes_eq]
  exact (nodup_eraseDups _).map fun a b h => congrArg Prod.fst h

theorem mem_votes {v : κ × ℕ} : v ∈ (poll items).1 ↔ v.1 ∈ keys items ∧ v.2 = votesFor items v.1 := by
  rw [votes_eq, List.mem_map]
  constructor
  · rintro ⟨k, hk, rfl⟩
    exact ⟨hk, rfl⟩
  · rintro ⟨hk, hv⟩
    exact ⟨v.1, hk, Prod.ext rfl hv.symm⟩

theorem lookup_votes [BEq κ] [LawfulBEq κ] (items : List (κ × σ)) (k : κ) :
    (poll items).1.lookup k = if k ∈ keys items then some (votesFor items k) else none := by
  rw [votes_eq]
  generalize keys items = ks
  induction ks with
  | nil => rfl
  | cons k' ks ih =>
    rw [List.map_cons, List.lookup_cons]
    by_cases h : k = k'
    · subst h
      rw [BEq.rfl, if_pos List.mem_cons_self]
    · rw [beq_eq_false_iff_ne.mpr h]
      simp only [List.mem_cons, h, false_or]
      exact ih

theorem votes_perm {items' : List (κ × σ)} (h : items.Perm items') : (poll items).1.Perm (poll items').1 := by
  apply (List.perm_ext_iff_of_nodup (votes_nodup _) (votes_nodup _)).mpr
  intro v
  rw [mem_votes, mem_votes, mem_keys, mem_keys, votesFor_perm h]
  simp only [h.mem_iff]

theorem lookup_perm [BEq κ] [LawfulBEq κ] {items' : List (κ × σ)} (h : items.Perm items') (k : κ) :
    (poll items).1.lookup k = (poll items').1.lookup k := by
  rw [lookup_votes, lookup_votes, votesFor_perm h]
  simp only [mem_keys, h.mem_iff]

theorem find?_display (p : κ → Bool) (items : List (κ × σ)) :
    (poll items).2.find? (fun d => p d.1) = items.find? fun i => p i.1 := by
  induction items using List.reverseRecOn with
  | nil => rfl
  | append_singleton items item ih =>
    rw [poll_snoc, present, List.find?_append, ← ih]
    split_ifs with h
    · cases hp : (poll items).2.find? fun d => p d.1 with
      | some d => rfl
      | none =>
        -- The key is shown already, and is not what is looked for.
        obtain ⟨d, hd, hk⟩ := List.any_eq_true.mp h
        have hnot := List.find?_eq_none.mp hp d hd
        rw [of_decide_eq_true hk] at hnot
        have hlast : [item].find? (fun d => p d.1) = none := List.find?_cons_of_neg hnot
        rw [hlast]
        rfl
    · rw [List.find?_append]

theorem mem_of_mem_display {d : κ × σ} (h : d ∈ (poll items).2) : d ∈ items := by
  induction items using List.reverseRecOn with
  | nil => exact h
  | append_singleton items item ih =>
    rw [poll_snoc, present] at h
    split_ifs at h
    · exact List.mem_append_left _ (ih h)
    · exact (List.mem_append.mp h).elim (fun h => List.mem_append_left _ (ih h)) (List.mem_append_right _)

theorem lookup_display [BEq κ] [LawfulBEq κ] {items : List (κ × κ)} (hshown : ∀ i ∈ items, i.2 = i.1) (hk : k ∈ keys items) :
    (poll items).2.lookup k = some k := by
  obtain ⟨i, hi, rfl⟩ := mem_keys.mp hk
  have hfind := find?_display (fun key => decide (key = i.1)) items
  have hsome : (items.find? fun j => decide (j.1 = i.1)).isSome := by
    rw [List.find?_isSome]
    exact ⟨i, hi, decide_eq_true rfl⟩
  rw [← hfind, List.find?_isSome] at hsome
  obtain ⟨d, hd, hkey⟩ := hsome
  have hdiag : ∀ d ∈ (poll items).2, d.2 = d.1 := fun d hd => hshown d (mem_of_mem_display hd)
  generalize (poll items).2 = ds at hd hdiag
  induction ds with
  | nil => cases hd
  | cons e ds ih =>
    rw [List.lookup_cons]
    by_cases he : i.1 = e.1
    · rw [beq_iff_eq.mpr he, hdiag e List.mem_cons_self, he]
    · rw [beq_eq_false_iff_ne.mpr he]
      refine ih ((List.mem_cons.mp hd).resolve_left ?_) fun d hd => hdiag d (List.mem_cons_of_mem _ hd)
      rintro rfl
      exact he (of_decide_eq_true hkey).symm

theorem most_iff_leads {item : κ × σ} (h : item ∈ items) :
    (poll items).1.lookup item.1 = some (most (poll items).1) ↔ Leads items item.1 := by
  rw [lookup_votes, if_pos (mem_keys.mpr ⟨item, h, rfl⟩), Option.some.injEq]
  have hmem (i : κ × σ) (hi : i ∈ items) : (i.1, votesFor items i.1) ∈ (poll items).1 :=
    mem_votes.mpr ⟨mem_keys.mpr ⟨i, hi, rfl⟩, rfl⟩
  constructor
  · intro he i hi
    rw [he]
    exact le_most (hmem i hi)
  · intro hleads
    have hle := le_most (hmem item h)
    have hpos := votesFor_pos h
    apply le_antisymm hle
    have hne : most (poll items).1 ≠ 0 := by
      dsimp only at hle
      omega
    obtain ⟨v, hv, hmost⟩ := most_mem hne
    obtain ⟨hk, hv⟩ := mem_votes.mp hv
    obtain ⟨i, hi, hik⟩ := mem_keys.mp hk
    rw [← hmost, hv, ← hik]
    exact hleads i hi

theorem winner_poll (items : List (κ × σ)) :
    winner (poll items).1 (poll items).2 = (items.find? fun i => Leads items i.1).map Prod.snd := by
  rw [winner, find?_display fun k => decide ((poll items).1.lookup k = some (most (poll items).1))]
  congr 1
  apply List.find?_congr
  intro i hi
  rw [decide_eq_decide]
  exact most_iff_leads hi

end Counting

section Order

variable {α β : Type} [LinearOrder β] {f : α → β} {p : α → Bool} {l : List α}

theorem find?_iff_least (h : l.Pairwise fun a b => f a < f b) {a : α} :
    l.find? p = some a ↔ a ∈ l ∧ p a = true ∧ ∀ b ∈ l, p b = true → f a ≤ f b := by
  induction l with
  | nil => simp
  | cons x l ih =>
    obtain ⟨hx, hl⟩ := List.pairwise_cons.mp h
    rw [List.find?_cons]
    cases hp : p x with
    | true =>
      constructor
      · rintro ⟨⟩
        refine ⟨List.mem_cons_self, hp, fun b hb _ => ?_⟩
        obtain rfl | hb := List.mem_cons.mp hb
        · exact le_rfl
        · exact (hx b hb).le
      · rintro ⟨ha, -, hleast⟩
        obtain rfl | ha := List.mem_cons.mp ha
        · rfl
        · exact absurd (hleast x List.mem_cons_self hp) (not_le_of_gt (hx a ha))
    | false =>
      have hne {b : α} (hb : p b = true) : b ≠ x := by
        rintro rfl
        rw [hp] at hb
        cases hb
      apply (ih hl).trans
      constructor
      · rintro ⟨ha, hpa, hleast⟩
        exact ⟨List.mem_cons_of_mem _ ha, hpa, fun b hb hpb =>
          hleast b ((List.mem_cons.mp hb).resolve_left (hne hpb)) hpb⟩
      · rintro ⟨ha, hpa, hleast⟩
        exact ⟨(List.mem_cons.mp ha).resolve_left (hne hpa), hpa, fun b hb => hleast b (List.mem_cons_of_mem _ hb)⟩

end Order

end Library.Plurality
