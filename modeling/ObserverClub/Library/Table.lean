import Mathlib.Data.List.Nodup
import Mathlib.Data.List.Perm.Basic

/-!
Tables as lists of rows in the order of their insertion, with a key that no two rows share.
-/

namespace Library.Table

variable {α κ : Type} [DecidableEq κ] (key : α → κ)

def row? (k : κ) (t : List α) : Option α := t.find? (fun r => key r = k)

def delete (k : κ) (t : List α) : List α := t.filter (fun r => key r ≠ k)

def put (r : α) (t : List α) : List α := delete key (key r) t ++ [r]

/-- Insert or ignore: a row whose key is taken leaves the table as it is. -/
def putNew (r : α) (t : List α) : List α := if (row? key (key r) t).isSome then t else t ++ [r]

def Keyed (t : List α) : Prop := (t.map key).Nodup

variable {key}

theorem row?_eq_none {k : κ} {t : List α} : row? key k t = none ↔ ∀ r ∈ t, key r ≠ k := by
  simp [row?]

theorem row?_some {k : κ} {t : List α} {r : α} (h : row? key k t = some r) : r ∈ t ∧ key r = k :=
  ⟨List.mem_of_find?_eq_some h, by simpa using List.find?_some h⟩

theorem row?_append (k : κ) (s t : List α) : row? key k (s ++ t) = (row? key k s).or (row? key k t) := by
  simp [row?, List.find?_append]

theorem row?_delete (j k : κ) (t : List α) :
    row? key j (delete key k t) = if j = k then none else row? key j t := by
  split_ifs with h
  · rw [row?_eq_none]
    intro r hr
    rw [h]
    simpa using (List.mem_filter.mp hr).2
  · induction t with
    | nil => rfl
    | cons r t ih =>
      simp only [row?, delete] at ih ⊢
      by_cases hr : key r = k
      · have hj : key r ≠ j := fun he => h (he.symm.trans hr)
        rw [List.filter_cons_of_neg (by simpa using hr), List.find?_cons_of_neg (by simpa using hj), ih]
      · rw [List.filter_cons_of_pos (by simpa using hr)]
        by_cases hj : key r = j
        · rw [List.find?_cons_of_pos (by simpa using hj), List.find?_cons_of_pos (by simpa using hj)]
        · rw [List.find?_cons_of_neg (by simpa using hj), List.find?_cons_of_neg (by simpa using hj), ih]

theorem row?_put (j : κ) (r : α) (t : List α) :
    row? key j (put key r t) = if j = key r then some r else row? key j t := by
  rw [put, row?_append, row?_delete]
  split_ifs with h
  · simp [row?, h]
  · have : row? key j [r] = none := by
      rw [row?_eq_none]
      simpa using Ne.symm h
    rw [this, Option.or_none]

section Pairs

variable {β : Type} [BEq κ] [LawfulBEq κ]

theorem lookup_eq_row? (k : κ) (t : List (κ × β)) : t.lookup k = (row? Prod.fst k t).map Prod.snd := by
  induction t with
  | nil => rfl
  | cons p t ih =>
    obtain ⟨j, b⟩ := p
    by_cases h : k = j
    · subst h
      rw [List.lookup_cons_self, row?, List.find?_cons_of_pos (by simp)]
      rfl
    · rw [List.lookup_cons, beq_false_of_ne h, ih, row?, row?, List.find?_cons_of_neg (by simpa using Ne.symm h)]

theorem lookup_put (k : κ) (p : κ × β) (t : List (κ × β)) :
    (put Prod.fst p t).lookup k = if k = p.1 then some p.2 else t.lookup k := by
  rw [lookup_eq_row?, row?_put, lookup_eq_row?]
  split_ifs <;> rfl

theorem lookup_delete (j k : κ) (t : List (κ × β)) :
    (delete Prod.fst k t).lookup j = if j = k then none else t.lookup j := by
  rw [lookup_eq_row?, row?_delete, lookup_eq_row?]
  split_ifs <;> rfl

end Pairs

theorem mem_delete {k : κ} {t : List α} {r : α} : r ∈ delete key k t ↔ r ∈ t ∧ key r ≠ k := by simp [delete]

theorem mem_put {r s : α} {t : List α} : s ∈ put key r t ↔ (s ∈ t ∧ key s ≠ key r) ∨ s = r := by
  simp [put, mem_delete]

theorem putNew_of_mem {r s : α} {t : List α} (h : s ∈ t) (hk : key s = key r) : putNew key r t = t := by
  rw [putNew, if_pos]
  cases hr : row? key (key r) t with
  | none => exact absurd hk (row?_eq_none.mp hr s h)
  | some _ => rfl

theorem putNew_of_forall_ne {r : α} {t : List α} (h : ∀ s ∈ t, key s ≠ key r) : putNew key r t = t ++ [r] := by
  rw [putNew, row?_eq_none.mpr h]
  rfl

theorem mem_putNew {r s : α} {t : List α} (h : s ∈ putNew key r t) : s ∈ t ∨ s = r := by
  rw [putNew] at h
  split at h
  · exact .inl h
  · rw [List.mem_append, List.mem_singleton] at h
    exact h

theorem mem_putNew_of_mem {r s : α} {t : List α} (h : s ∈ t) : s ∈ putNew key r t := by
  rw [putNew]
  split
  · exact h
  · exact List.mem_append_left _ h

theorem row?_filter {k : κ} {t : List α} {r : α} {p : α → Bool} (h : row? key k t = some r) (hp : p r = true) :
    row? key k (t.filter p) = some r := by
  induction t with
  | nil => cases h
  | cons q t ih =>
    by_cases hq : key q = k
    · rw [row?, List.find?_cons_of_pos (by simpa using hq)] at h
      cases h
      rw [List.filter_cons_of_pos hp, row?, List.find?_cons_of_pos (by simpa using hq)]
    · rw [row?, List.find?_cons_of_neg (by simpa using hq)] at h
      rw [List.filter_cons]
      split_ifs
      · rw [row?, List.find?_cons_of_neg (by simpa using hq)]
        exact ih h
      · exact ih h

theorem row?_putNew (j : κ) (r : α) (t : List α) :
    row? key j (putNew key r t) = (row? key j t).or (if key r = j then some r else none) := by
  by_cases hold : ∃ s ∈ t, key s = key r
  · obtain ⟨s, hs, hk⟩ := hold
    rw [putNew_of_mem hs hk]
    split_ifs with hj
    · cases hrow : row? key j t with
      | none => exact absurd (hk.trans hj) (row?_eq_none.mp hrow s hs)
      | some q => rfl
    · rw [Option.or_none]
  · rw [putNew_of_forall_ne (fun s hs he => hold ⟨s, hs, he⟩), row?_append]
    congr 1
    split_ifs with hj
    · exact List.find?_cons_of_pos (decide_eq_true hj)
    · exact List.find?_cons_of_neg (by simpa using hj)

section Filters

variable {p : α → Bool}

theorem filter_delete (k : κ) (t : List α) : (delete key k t).filter p = delete key k (t.filter p) := by
  rw [delete, delete, List.filter_filter, List.filter_filter]
  congr 1
  funext r
  exact Bool.and_comm _ _

theorem filter_delete_of_dropped {k : κ} {t : List α} (h : ∀ r ∈ t, key r = k → p r = false) :
    (delete key k t).filter p = t.filter p := by
  rw [filter_delete]
  apply List.filter_eq_self.mpr
  intro r hr
  obtain ⟨hr, hp⟩ := List.mem_filter.mp hr
  apply decide_eq_true
  intro hk
  rw [h r hr hk] at hp
  cases hp

theorem filter_put {r : α} {t : List α} (h : p r = true) : (put key r t).filter p = put key r (t.filter p) := by
  rw [put, List.filter_append, filter_delete, put, List.filter_singleton, h, cond_true]

theorem filter_put_of_dropped {r : α} {t : List α} (hr : p r = false) (h : ∀ s ∈ t, key s = key r → p s = false) :
    (put key r t).filter p = t.filter p := by
  rw [put, List.filter_append, filter_delete_of_dropped h, List.filter_singleton, hr, cond_false,
    List.append_nil]

end Filters

section Maps

variable {β : Type} {key' : β → κ} {f : α → β}

theorem map_delete (h : ∀ r, key' (f r) = key r) (k : κ) (t : List α) :
    (delete key k t).map f = delete key' k (t.map f) := by
  rw [delete, delete, List.filter_map]
  congr 1
  apply List.filter_congr
  intro r _
  rw [Function.comp_apply, h]

theorem map_put (h : ∀ r, key' (f r) = key r) (r : α) (t : List α) : (put key r t).map f = put key' (f r) (t.map f) := by
  rw [put, put, List.map_append, map_delete h, h]
  rfl

theorem isSome_row?_map (h : ∀ r, key' (f r) = key r) (k : κ) (t : List α) :
    (row? key' k (t.map f)).isSome = (row? key k t).isSome := by
  rw [row?, row?, List.find?_map, Option.isSome_map]
  congr 1
  apply congrArg (List.find? · t)
  funext r
  rw [Function.comp_apply, h]

theorem map_putNew (h : ∀ r, key' (f r) = key r) (r : α) (t : List α) :
    (putNew key r t).map f = putNew key' (f r) (t.map f) := by
  rw [putNew, putNew, h, isSome_row?_map h]
  split
  · rfl
  · rw [List.map_append]
    rfl

end Maps

theorem Keyed.row?_of_mem {t : List α} (h : Keyed key t) {r : α} (hr : r ∈ t) : row? key (key r) t = some r := by
  cases hq : row? key (key r) t with
  | none => exact absurd rfl (row?_eq_none.mp hq r hr)
  | some q =>
    obtain ⟨hmem, hk⟩ := row?_some hq
    rw [List.inj_on_of_nodup_map h hmem hr hk]

theorem Keyed.delete {t : List α} (h : Keyed key t) (k : κ) : Keyed key (delete key k t) :=
  h.sublist (List.Sublist.map key List.filter_sublist)

theorem Keyed.put {t : List α} (h : Keyed key t) (r : α) : Keyed key (put key r t) := by
  rw [Keyed, Table.put, List.map_append, List.nodup_append]
  refine ⟨h.delete (key r), by simp, ?_⟩
  rintro a ha b hb rfl
  obtain ⟨s, hs, rfl⟩ := List.mem_map.mp ha
  exact (mem_delete.mp hs).2 (by simpa using hb)

theorem Keyed.putNew {t : List α} (h : Keyed key t) (r : α) : Keyed key (putNew key r t) := by
  by_cases hr : ∃ s ∈ t, key s = key r
  · obtain ⟨s, hs, hk⟩ := hr
    rw [putNew_of_mem hs hk]
    exact h
  · rw [putNew_of_forall_ne (by simpa using hr), Keyed, List.map_append, List.nodup_append]
    refine ⟨h, by simp, ?_⟩
    rintro a ha b hb rfl
    obtain ⟨s, hs, rfl⟩ := List.mem_map.mp ha
    exact hr ⟨s, hs, by simpa using hb⟩

end Library.Table
