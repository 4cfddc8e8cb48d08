import ObserverClub.Library.JsonInjective
import ObserverClub.Library.JsonRoundTrip

namespace Library.Json

variable {ν α : Type}

section Sorting

structure Orders (p : Text → Prop) (lt : Text → Text → Prop) : Prop where
  asymm : ∀ a b, lt a b → ¬lt b a
  trans : ∀ a b c, ¬lt b a → ¬lt c b → ¬lt c a
  apart : ∀ a b, p a → p b → ¬lt a b → ¬lt b a → a = b

variable {p : Text → Prop} {lt : Text → Text → Prop} [DecidableRel lt]

theorem sortKeys_perm (ms : List (Text × α)) : (sortKeys lt ms).Perm ms := List.perm_insertionSort _ ms

theorem Orders.sorted (h : Orders p lt) (ms : List (Text × α)) : (sortKeys lt ms).Pairwise (fun a b => ¬lt b.1 a.1) := by
  have htotal : Std.Total (fun a b : Text × α => ¬lt b.1 a.1) :=
    ⟨fun a b => (em (lt b.1 a.1)).elim (fun hlt => Or.inr (h.asymm _ _ hlt)) Or.inl⟩
  have htrans : IsTrans (Text × α) (fun a b => ¬lt b.1 a.1) := ⟨fun a b c => h.trans a.1 b.1 c.1⟩
  exact List.pairwise_insertionSort _ ms

theorem eq_of_key {xs : List (Text × α)} (h : (xs.map Prod.fst).Nodup) {a b : Text × α} (ha : a ∈ xs) (hb : b ∈ xs)
    (he : a.1 = b.1) : a = b := List.inj_on_of_nodup_map h ha hb he

theorem Orders.sortKeys_eq (h : Orders p lt) {xs ys : List (Text × α)} (hperm : xs.Perm ys)
    (hn : (xs.map Prod.fst).Nodup) (hp : ∀ x ∈ xs, p x.1) : sortKeys lt xs = sortKeys lt ys := by
  refine List.Perm.eq_of_pairwise (fun a b ha hb hab hba => ?_) (h.sorted xs) (h.sorted ys)
    ((sortKeys_perm xs).trans (hperm.trans (sortKeys_perm ys).symm))
  have ha' := mem_sortKeys.mp ha
  have hb' := hperm.mem_iff.mpr (mem_sortKeys.mp hb)
  exact eq_of_key hn ha' hb' (h.apart _ _ (hp a ha') (hp b hb') hba hab)

theorem lookup_eq_some_iff {k : Text} {v : α} {ms : List (Text × α)} (h : (ms.map Prod.fst).Nodup) :
    lookup k ms = some v ↔ (k, v) ∈ ms := by
  constructor
  · exact lookup_mem
  · intro hm
    cases hl : lookup k ms with
    | none => exact absurd rfl (lookup_none.mp hl _ hm)
    | some w => exact congrArg (fun m => some m.2) (eq_of_key h (lookup_mem hl) hm rfl)

theorem lookup_sortKeys (k : Text) {ms : List (Text × α)} (h : (ms.map Prod.fst).Nodup) :
    lookup k (sortKeys lt ms) = lookup k ms := by
  have hs : ((sortKeys lt ms).map Prod.fst).Nodup := ((sortKeys_perm ms).map Prod.fst).nodup_iff.mpr h
  apply Option.ext
  intro v
  rw [lookup_eq_some_iff hs, lookup_eq_some_iff h, mem_sortKeys]

end Sorting

section Values

variable (lt : Text → Text → Prop) [DecidableRel lt]

theorem inOrderMembers_keys (ms : List (Text × Json ν)) : (inOrderMembers lt ms).map Prod.fst = ms.map Prod.fst := by
  rw [inOrderMembers_eq, List.map_map]
  rfl

mutual

theorem depth_inOrder_le (v : Json ν) : (inOrder lt v).depth ≤ v.depth := by
  cases v with
  | arr xs => exact Nat.succ_le_succ (depthList_inOrder_le xs)
  | obj ms =>
    rw [inOrder, depth, depth]
    apply Nat.succ_le_succ
    apply (depthMembers_le_iff _ _).mpr
    intro m hm
    exact (depthMembers_le_iff _ _).mp (depthMembers_inOrder_le ms) m (mem_sortKeys.mp hm)
  | _ => exact le_refl _

theorem depthList_inOrder_le (xs : List (Json ν)) : depthList (inOrderList lt xs) ≤ depthList xs := by
  cases xs with
  | nil => exact le_refl _
  | cons x xs => exact max_le_max (depth_inOrder_le x) (depthList_inOrder_le xs)

theorem depthMembers_inOrder_le (ms : List (Text × Json ν)) : depthMembers (inOrderMembers lt ms) ≤ depthMembers ms := by
  cases ms with
  | nil => exact le_refl _
  | cons m ms =>
    obtain ⟨k, v⟩ := m
    exact max_le_max (depth_inOrder_le v) (depthMembers_inOrder_le ms)

end

mutual

theorem distinct_inOrder (v : Json ν) (h : v.Distinct) : (inOrder lt v).Distinct := by
  cases v with
  | arr xs => exact distinctList_inOrder xs h
  | obj ms =>
    rw [inOrder, Distinct]
    constructor
    · rw [((sortKeys_perm _).map Prod.fst).nodup_iff, inOrderMembers_keys]
      exact h.1
    · apply (distinctMembers_iff _).mpr
      intro m hm
      exact (distinctMembers_iff _).mp (distinctMembers_inOrder ms h.2) m (mem_sortKeys.mp hm)
  | _ => trivial

theorem distinctList_inOrder (xs : List (Json ν)) (h : distinctList xs) : distinctList (inOrderList lt xs) := by
  cases xs with
  | nil => trivial
  | cons x xs => exact ⟨distinct_inOrder x h.1, distinctList_inOrder xs h.2⟩

theorem distinctMembers_inOrder (ms : List (Text × Json ν)) (h : distinctMembers ms) :
    distinctMembers (inOrderMembers lt ms) := by
  cases ms with
  | nil => trivial
  | cons m ms =>
    obtain ⟨k, v⟩ := m
    exact ⟨distinct_inOrder v h.1, distinctMembers_inOrder ms h.2⟩

end

theorem withoutMembers_eq (key : Text) (ms : List (Text × Json ν)) :
    withoutMembers key ms = (ms.filter (·.1 ≠ key)).map (fun m => (m.1, without key m.2)) := by
  induction ms with
  | nil => rfl
  | cons m ms ih =>
    obtain ⟨k, v⟩ := m
    by_cases hk : k = key
    · simp [withoutMembers, hk, ih]
    · simp [withoutMembers, hk, ih]

mutual

theorem distinct_without (key : Text) (v : Json ν) (h : v.Distinct) : (without key v).Distinct := by
  cases v with
  | arr xs => exact distinctList_without key xs h
  | obj ms =>
    rw [without, Distinct]
    constructor
    · rw [withoutMembers_eq, List.map_map]
      exact h.1.sublist (List.filter_sublist.map Prod.fst)
    · exact distinctMembers_without key ms h.2
  | _ => trivial

theorem distinctList_without (key : Text) (xs : List (Json ν)) (h : distinctList xs) : distinctList (withoutList key xs) := by
  cases xs with
  | nil => trivial
  | cons x xs => exact ⟨distinct_without key x h.1, distinctList_without key xs h.2⟩

theorem distinctMembers_without (key : Text) (ms : List (Text × Json ν)) (h : distinctMembers ms) :
    distinctMembers (withoutMembers key ms) := by
  cases ms with
  | nil => trivial
  | cons m ms =>
    obtain ⟨k, v⟩ := m
    rw [withoutMembers]
    split_ifs
    · exact distinctMembers_without key ms h.2
    · exact ⟨distinct_without key v h.1, distinctMembers_without key ms h.2⟩

end

theorem get_without {key k : Text} (hk : k ≠ key) (v : Json ν) : (without key v).get k = (v.get k).map (without key) := by
  cases v with
  | obj ms =>
    rw [without, get, get, withoutMembers_eq, lookup_map, lookup_filter (Ne.symm hk)]
  | _ => rfl

theorem inOrderMembers_withoutMembers (key : Text) (ms : List (Text × Json ν)) :
    inOrderMembers lt (withoutMembers key ms) =
      (ms.filter (·.1 ≠ key)).map (fun m => (m.1, inOrder lt (without key m.2))) := by
  rw [inOrderMembers_eq, withoutMembers_eq, List.map_map]
  rfl

variable {lt} {p : Text → Prop} {q : Test ν}

mutual

theorem inOrder_without (h : Orders p lt) (hq : ∀ k, q.key k = true → p k) (key : Text) (v : Json ν) (hv : v.Distinct)
    (hall : v.all q = true) : inOrder lt (without key (inOrder lt v)) = inOrder lt (without key v) := by
  cases v with
  | arr xs =>
    rw [inOrder, without, inOrder, without, inOrder, inOrderList_without h hq key xs hv hall]
  | obj ms =>
    rw [inOrder, without, inOrder, without, inOrder, inOrderMembers_withoutMembers, inOrderMembers_withoutMembers]
    have hmembers : ((inOrderMembers lt ms).filter (·.1 ≠ key)).map (fun m => (m.1, inOrder lt (without key m.2))) =
        (ms.filter (·.1 ≠ key)).map (fun m => (m.1, inOrder lt (without key m.2))) := by
      rw [inOrderMembers_eq, List.filter_map, List.map_map]
      apply List.map_congr_left
      intro m hm
      exact Prod.ext rfl (inOrderMembers_without h hq key ms hv.2 hall m (List.mem_of_mem_filter hm))
    have hperm : (((sortKeys lt (inOrderMembers lt ms)).filter (·.1 ≠ key)).map
        (fun m => (m.1, inOrder lt (without key m.2)))).Perm
        ((ms.filter (·.1 ≠ key)).map (fun m => (m.1, inOrder lt (without key m.2)))) := by
      rw [← hmembers]
      exact ((sortKeys_perm _).filter _).map _
    refine congrArg Json.obj (h.sortKeys_eq hperm ?_ ?_)
    · rw [(hperm.map Prod.fst).nodup_iff, List.map_map]
      exact hv.1.sublist ((List.filter_sublist).map Prod.fst)
    · intro x hx
      obtain ⟨m, hm, rfl⟩ := List.mem_map.mp (hperm.mem_iff.mp hx)
      exact hq _ ((allMembers_iff q ms).mp hall m (List.mem_of_mem_filter hm)).1
  | _ => rfl

theorem inOrderList_without (h : Orders p lt) (hq : ∀ k, q.key k = true → p k) (key : Text) (xs : List (Json ν))
    (hv : distinctList xs) (hall : allList q xs = true) :
    inOrderList lt (withoutList key (inOrderList lt xs)) = inOrderList lt (withoutList key xs) := by
  cases xs with
  | nil => rfl
  | cons x xs =>
    rw [allList, Bool.and_eq_true] at hall
    rw [inOrderList, withoutList, inOrderList, withoutList, inOrderList, inOrder_without h hq key x hv.1 hall.1,
      inOrderList_without h hq key xs hv.2 hall.2]

theorem inOrderMembers_without (h : Orders p lt) (hq : ∀ k, q.key k = true → p k) (key : Text)
    (ms : List (Text × Json ν)) (hv : distinctMembers ms) (hall : allMembers q ms = true) :
    ∀ m ∈ ms, inOrder lt (without key (inOrder lt m.2)) = inOrder lt (without key m.2) := by
  cases ms with
  | nil =>
    intro m hm
    cases hm
  | cons m ms =>
    obtain ⟨k, v⟩ := m
    rw [allMembers, Bool.and_eq_true, Bool.and_eq_true] at hall
    rw [List.forall_mem_cons]
    exact ⟨inOrder_without h hq key v hv.1 hall.1.2, inOrderMembers_without h hq key ms hv.2 hall.2⟩

end

theorem get_inOrder (k : Text) (v : Json ν) (hv : v.Distinct) : (inOrder lt v).get k = (v.get k).map (inOrder lt) := by
  cases v with
  | obj ms =>
    rw [inOrder, get, get, lookup_sortKeys, inOrderMembers_eq, lookup_map]
    rw [inOrderMembers_keys]
    exact hv.1
  | _ => rfl

end Values

section Depths

variable (lt : Text → Text → Prop) [DecidableRel lt]

mutual

theorem depth_inOrder (v : Json ν) : (inOrder lt v).depth = v.depth := by
  cases v with
  | arr xs => rw [inOrder, depth, depth, depthList_inOrder xs]
  | obj ms =>
    rw [inOrder, depth, depth]
    apply congrArg (· + 1)
    apply le_antisymm
    · apply (depthMembers_le_iff _ _).mpr
      intro m hm
      rw [← depthMembers_inOrder ms]
      exact (depthMembers_le_iff _ _).mp (le_refl _) m (mem_sortKeys.mp hm)
    · rw [← depthMembers_inOrder ms]
      apply (depthMembers_le_iff _ _).mpr
      intro m hm
      exact (depthMembers_le_iff _ _).mp (le_refl _) m (mem_sortKeys.mpr hm)
  | _ => rfl

theorem depthList_inOrder (xs : List (Json ν)) : depthList (inOrderList lt xs) = depthList xs := by
  cases xs with
  | nil => rfl
  | cons x xs => rw [inOrderList, depthList, depthList, depth_inOrder x, depthList_inOrder xs]

theorem depthMembers_inOrder (ms : List (Text × Json ν)) : depthMembers (inOrderMembers lt ms) = depthMembers ms := by
  cases ms with
  | nil => rfl
  | cons m ms =>
    obtain ⟨k, v⟩ := m
    rw [inOrderMembers, depthMembers, depthMembers, depth_inOrder v, depthMembers_inOrder ms]

end

variable (key : Text)

mutual

theorem depth_without_le (v : Json ν) : (without key v).depth ≤ v.depth := by
  cases v with
  | arr xs => exact Nat.succ_le_succ (depthList_without_le xs)
  | obj ms => exact Nat.succ_le_succ (depthMembers_without_le ms)
  | _ => exact le_refl _

theorem depthList_without_le (xs : List (Json ν)) : depthList (withoutList key xs) ≤ depthList xs := by
  cases xs with
  | nil => exact le_refl _
  | cons x xs => exact max_le_max (depth_without_le x) (depthList_without_le xs)

theorem depthMembers_without_le (ms : List (Text × Json ν)) : depthMembers (withoutMembers key ms) ≤ depthMembers ms := by
  cases ms with
  | nil => exact le_refl _
  | cons m ms =>
    obtain ⟨k, v⟩ := m
    rw [withoutMembers]
    split_ifs
    · exact (depthMembers_without_le ms).trans (le_max_right _ _)
    · exact max_le_max (depth_without_le v) (depthMembers_without_le ms)

end

mutual

theorem without_without (v : Json ν) : without key (without key v) = without key v := by
  cases v with
  | arr xs => rw [without, without, withoutList_withoutList xs]
  | obj ms => rw [without, without, withoutMembers_withoutMembers ms]
  | _ => rfl

theorem withoutList_withoutList (xs : List (Json ν)) : withoutList key (withoutList key xs) = withoutList key xs := by
  cases xs with
  | nil => rfl
  | cons x xs => rw [withoutList, withoutList, without_without x, withoutList_withoutList xs]

theorem withoutMembers_withoutMembers (ms : List (Text × Json ν)) :
    withoutMembers key (withoutMembers key ms) = withoutMembers key ms := by
  cases ms with
  | nil => rfl
  | cons m ms =>
    obtain ⟨k, v⟩ := m
    by_cases hk : k = key
    · rw [withoutMembers, if_pos hk, withoutMembers_withoutMembers ms]
    · rw [withoutMembers, if_neg hk, withoutMembers, if_neg hk, without_without v, withoutMembers_withoutMembers ms]

end

end Depths

end Library.Json
