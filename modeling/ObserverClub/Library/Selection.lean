import ObserverClub.Library.Table
import Mathlib.Data.List.Sort

namespace Library.Table

section Without

variable {α κ : Type} [DecidableEq κ] (key : α → κ)

/-- The table less the rows that share a key with one of the selection. -/
def without (sel t : List α) : List α := t.filter fun r => key r ∉ sel.map key

variable {key} {sel t : List α}

theorem without_nil : without key [] t = t := by
  apply List.filter_eq_self.mpr
  intro r _
  rw [List.map_nil, decide_eq_true_eq]
  exact List.not_mem_nil

theorem without_cons (s : α) : without key (s :: sel) t = without key sel (delete key (key s) t) := by
  unfold without delete
  rw [List.filter_filter]
  apply List.filter_congr
  intro r _
  rw [← Bool.decide_and, decide_eq_decide, List.map_cons, List.mem_cons, not_or, and_comm]

theorem without_sublist : (without key sel t).Sublist t := List.filter_sublist

theorem Keyed.without (h : Keyed key t) : Keyed key (without key sel t) := h.sublist (without_sublist.map key)

omit [DecidableEq κ] in
theorem Keyed.eq_of_key (h : Keyed key t) {r s : α} (hr : r ∈ t) (hs : s ∈ t) (he : key r = key s) : r = s :=
  List.inj_on_of_nodup_map h hr hs he

omit [DecidableEq κ] in
theorem Keyed.nodup (h : Keyed key t) : t.Nodup := h.of_map

theorem Keyed.mem_without (h : Keyed key t) (hsel : sel ⊆ t) {r : α} :
    r ∈ Table.without key sel t ↔ r ∈ t ∧ r ∉ sel := by
  rw [Table.without, List.mem_filter, decide_eq_true_eq, List.mem_map]
  refine and_congr_right fun hr => not_congr ⟨?_, fun hs => ⟨r, hs, rfl⟩⟩
  rintro ⟨s, hs, he⟩
  rwa [← h.eq_of_key (hsel hs) hr he]

theorem Keyed.perm_without (h : Keyed key t) (hsel : sel.Subperm t) : t.Perm (Table.without key sel t ++ sel) := by
  have hsub : sel ⊆ t := hsel.subset
  have hnodup : sel.Nodup := by
    obtain ⟨l, hl, hlt⟩ := hsel
    exact hl.nodup_iff.mp (h.nodup.sublist hlt)
  apply (List.perm_ext_iff_of_nodup h.nodup _).mpr
  · intro r
    rw [List.mem_append, h.mem_without hsub]
    by_cases hr : r ∈ sel
    · exact iff_of_true (hsub hr) (Or.inr hr)
    · rw [or_iff_left hr, and_iff_left hr]
  · rw [List.nodup_append]
    refine ⟨h.nodup.sublist without_sublist, hnodup, ?_⟩
    rintro r hr s hs rfl
    exact ((h.mem_without hsub).mp hr).2 hs

theorem Keyed.countP_without (h : Keyed key t) (hsel : sel.Subperm t) (p : α → Bool) :
    t.countP p = (Table.without key sel t).countP p + sel.countP p := by
  rw [(h.perm_without hsel).countP_eq, List.countP_append]

theorem Keyed.countP_delete (h : Keyed key t) {r : α} (hr : r ∈ t) (p : α → Bool) :
    t.countP p = (Table.delete key (key r) t).countP p + if p r then 1 else 0 := by
  have hone := h.countP_without (List.singleton_subperm_iff.mpr hr) p
  rw [without_cons, without_nil, List.countP_singleton] at hone
  exact hone

omit [DecidableEq κ] in
theorem Keyed.countP_map_at (h : Keyed key t) {r : α} (hr : r ∈ t) {g : α → α} (hg : ∀ s, key s ≠ key r → g s = s)
    (p : α → Bool) : (t.map g).countP p + (if p r then 1 else 0) = t.countP p + if p (g r) then 1 else 0 := by
  obtain ⟨before, after, rfl⟩ := List.append_of_mem hr
  have hother {s : α} (hs : s ∈ before ∨ s ∈ after) : g s = s := by
    apply hg
    intro he
    rw [Keyed, List.map_append, List.map_cons, List.nodup_append] at h
    obtain ⟨-, hafter, hdisjoint⟩ := h
    obtain hs | hs := hs
    · exact hdisjoint _ (List.mem_map_of_mem hs) _ List.mem_cons_self he
    · exact (List.nodup_cons.mp hafter).1 (he ▸ List.mem_map_of_mem hs)
  have hbefore : before.map g = before := List.map_congr_left (fun s hs => hother (Or.inl hs)) |>.trans (List.map_id _)
  have hafter : after.map g = after := List.map_congr_left (fun s hs => hother (Or.inr hs)) |>.trans (List.map_id _)
  rw [List.map_append, List.map_cons, hbefore, hafter, List.countP_append, List.countP_append, List.countP_cons,
    List.countP_cons]
  omega

theorem Keyed.filter_without (h : Keyed key t) (hsel : sel ⊆ t) {p : α → Bool} (hp : ∀ r ∈ sel, p r = false) :
    (Table.without key sel t).filter p = t.filter p := by
  unfold Table.without
  rw [List.filter_filter]
  apply List.filter_congr
  intro r hr
  cases hpr : p r with
  | false => rfl
  | true =>
    rw [Bool.true_and, decide_eq_true_eq]
    intro hmem
    obtain ⟨s, hs, he⟩ := List.mem_map.mp hmem
    rw [h.eq_of_key (hsel hs) hr he] at hs
    exact Bool.false_ne_true ((hp r hs).symm.trans hpr)

theorem Keyed.without_filter (h : Keyed key t) (p : α → Bool) :
    Table.without key (t.filter p) t = t.filter fun r => !p r := by
  apply List.filter_congr
  intro r hr
  cases hp : p r with
  | true =>
    rw [Bool.not_true, decide_eq_false_iff_not, not_not]
    exact List.mem_map_of_mem (List.mem_filter.mpr ⟨hr, hp⟩)
  | false =>
    rw [Bool.not_false, decide_eq_true_eq]
    intro hmem
    obtain ⟨s, hs, he⟩ := List.mem_map.mp hmem
    obtain ⟨hst, hps⟩ := List.mem_filter.mp hs
    rw [h.eq_of_key hst hr he] at hps
    exact Bool.false_ne_true (hp.symm.trans hps)

end Without

section Sorted

variable {α : Type} {order : α → α → Prop} [DecidableRel order] [Std.Total order] [IsTrans α order] (p : α → Bool)

omit [Std.Total order] in
theorem filter_orderedInsert (a : α) {l : List α} (h : l.Pairwise order) :
    (l.orderedInsert order a).filter p = if p a then (l.filter p).orderedInsert order a else l.filter p := by
  induction l with
  | nil => cases hp : p a <;> simp [hp]
  | cons b l ih =>
    obtain ⟨hb, hl⟩ := List.pairwise_cons.mp h
    by_cases hab : order a b
    · rw [List.orderedInsert_cons_of_le _ _ hab]
      cases hp : p a with
      | false => rw [List.filter_cons_of_neg (by simp [hp]), if_neg Bool.false_ne_true]
      | true =>
        rw [List.filter_cons_of_pos hp, if_pos rfl]
        -- What is left of the list still begins no earlier than `a`.
        have hle : ∀ c ∈ (b :: l).filter p, order a c := by
          intro c hc
          obtain rfl | hc := List.mem_cons.mp (List.mem_of_mem_filter hc)
          · exact hab
          · exact Trans.trans hab (hb c hc)
        cases hf : (b :: l).filter p with
        | nil => rfl
        | cons c rest =>
          rw [hf] at hle
          rw [List.orderedInsert_cons_of_le _ _ (hle c List.mem_cons_self)]
    · rw [List.orderedInsert_of_not_le _ _ hab]
      cases hpb : p b with
      | false => rw [List.filter_cons_of_neg (by simp [hpb]), List.filter_cons_of_neg (by simp [hpb]), ih hl]
      | true =>
        rw [List.filter_cons_of_pos hpb, List.filter_cons_of_pos hpb, ih hl]
        cases hp : p a with
        | false => rfl
        | true => rw [if_pos rfl, if_pos rfl, List.orderedInsert_of_not_le _ _ hab]

theorem filter_insertionSort (l : List α) : (l.insertionSort order).filter p = (l.filter p).insertionSort order := by
  induction l with
  | nil => rfl
  | cons a l ih =>
    rw [List.insertionSort_cons, filter_orderedInsert p a (List.pairwise_insertionSort order l), ih]
    cases hp : p a with
    | false => rw [List.filter_cons_of_neg (by simp [hp]), if_neg Bool.false_ne_true]
    | true => rw [List.filter_cons_of_pos hp, if_pos rfl, List.insertionSort_cons]

end Sorted

section First

variable {α : Type} (order : α → α → Prop) [DecidableRel order] (p : α → Bool) (n : ℕ) (t : List α)

/-- The first `n` rows of a kind. -/
def first : List α := ((t.filter p).insertionSort order).take n

variable {order p n t}

theorem first_subperm : (first order p n t).Subperm t :=
  (List.take_sublist ..).subperm.trans ((List.perm_insertionSort ..).subperm.trans List.filter_sublist.subperm)

theorem mem_first {r : α} (h : r ∈ first order p n t) : r ∈ t ∧ p r = true :=
  List.mem_filter.mp ((List.mem_insertionSort _).mp (List.mem_of_mem_take h))

theorem length_first : (first order p n t).length = min n (t.countP p) := by
  rw [first, List.length_take, List.length_insertionSort, List.countP_eq_length_filter]

theorem countP_first {q : α → Bool} (hpq : ∀ r, p r = true → q r = true) :
    (first order p n t).countP q = min n (t.countP p) := by
  rw [List.countP_eq_length.mpr fun r hr => hpq r (mem_first hr).2, length_first]

theorem first_of_le (h : t.countP p ≤ n) {r : α} (hr : r ∈ t) (hp : p r = true) : r ∈ first order p n t := by
  rw [first, List.take_of_length_le]
  · exact (List.mem_insertionSort _).mpr (List.mem_filter.mpr ⟨hr, hp⟩)
  · rw [List.length_insertionSort, ← List.countP_eq_length_filter]
    exact h

end First

end Library.Table
