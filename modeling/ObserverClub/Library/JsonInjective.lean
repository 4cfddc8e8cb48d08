import ObserverClub.Library.JsonAgreement

namespace Library.Json

variable {ν β : Type}

section Order

variable (lt : Text → Text → Prop) [DecidableRel lt]

mutual

/-- The value with the members of every object in the order of their keys. -/
def inOrder : Json ν → Json ν
  | .arr xs => .arr (inOrderList xs)
  | .obj ms => .obj (sortKeys lt (inOrderMembers ms))
  | v => v

def inOrderList : List (Json ν) → List (Json ν)
  | [] => []
  | x :: xs => inOrder x :: inOrderList xs

def inOrderMembers : List (Text × Json ν) → List (Text × Json ν)
  | [] => []
  | (k, v) :: ms => (k, inOrder v) :: inOrderMembers ms

end

theorem inOrderMembers_eq (ms : List (Text × Json ν)) :
    inOrderMembers lt ms = ms.map (fun m => (m.1, inOrder lt m.2)) := by
  induction ms with
  | nil => rfl
  | cons m ms ih => simp [inOrderMembers, ih]

mutual

theorem all_inOrder (p : Test ν) (v : Json ν) : (inOrder lt v).all p = true ↔ v.all p = true := by
  cases v with
  | arr xs => exact allList_inOrder p xs
  | obj ms =>
    rw [all, ← allMembers_inOrder p ms, inOrder, all, allMembers_iff, allMembers_iff]
    simp only [mem_sortKeys]
  | _ => exact Iff.rfl

theorem allList_inOrder (p : Test ν) (xs : List (Json ν)) :
    allList p (inOrderList lt xs) = true ↔ allList p xs = true := by
  cases xs with
  | nil => exact Iff.rfl
  | cons x xs => simp only [inOrderList, allList, Bool.and_eq_true, all_inOrder p x, allList_inOrder p xs]

theorem allMembers_inOrder (p : Test ν) (ms : List (Text × Json ν)) :
    allMembers p (inOrderMembers lt ms) = true ↔ allMembers p ms = true := by
  cases ms with
  | nil => exact Iff.rfl
  | cons m ms =>
    obtain ⟨k, v⟩ := m
    simp only [inOrderMembers, allMembers, Bool.and_eq_true, all_inOrder p v, allMembers_inOrder p ms]

end

mutual

theorem inOrder_map (f : ν → ν) (v : Json ν) : inOrder lt (v.map f) = (inOrder lt v).map f := by
  cases v with
  | arr xs => simp only [map, inOrder, inOrderList_map f xs]
  | obj ms =>
    have hsort := sortKeys_map lt lt (fun m : Text × Json ν => (m.1, m.2.map f)) (fun _ => rfl)
      (inOrderMembers lt ms) (fun _ _ _ _ => Iff.rfl)
    rw [map, inOrder, inOrder, map, inOrderMembers_map f ms, mapMembers_eq, mapMembers_eq, hsort]
  | _ => rfl

theorem inOrderList_map (f : ν → ν) (xs : List (Json ν)) :
    inOrderList lt (mapList f xs) = mapList f (inOrderList lt xs) := by
  cases xs with
  | nil => rfl
  | cons x xs => simp only [mapList, inOrderList, inOrder_map f x, inOrderList_map f xs]

theorem inOrderMembers_map (f : ν → ν) (ms : List (Text × Json ν)) :
    inOrderMembers lt (mapMembers f ms) = mapMembers f (inOrderMembers lt ms) := by
  cases ms with
  | nil => rfl
  | cons m ms =>
    obtain ⟨k, v⟩ := m
    simp only [mapMembers, inOrderMembers, inOrder_map f v, inOrderMembers_map f ms]

end

end Order

namespace Writer

section Arranging

variable {lt : Text → Text → Prop} [DecidableRel lt] {w : Writer ν β}

def unarranged (w : Writer ν β) : Writer ν β := { w with arrange := id }

theorem commas_unarranged (ps : List (List β)) : w.unarranged.commas ps = w.commas ps := by
  induction ps with
  | nil => rfl
  | cons p ps ih =>
    cases ps with
    | nil => rfl
    | cons q ps =>
      simp only [commas] at ih ⊢
      rw [ih]
      rfl

mutual

theorem render_inOrder (hw : w.arrange = sortKeys lt) (v : Json ν) :
    w.render v = w.unarranged.render (inOrder lt v) := by
  cases v with
  | arr xs =>
    rw [render, inOrder, render, commas_unarranged, renderList_inOrder hw xs]
    rfl
  | obj ms =>
    rw [render, inOrder, render, commas_unarranged, hw, renderMembers_inOrder hw ms, renderMembers_eq,
      renderMembers_eq]
    have hsort := sortKeys_map lt lt (fun m : Text × Json ν => (m.1, w.unarranged.render m.2)) (fun _ => rfl)
      (inOrderMembers lt ms) (fun _ _ _ _ => Iff.rfl)
    rw [hsort]
    rfl
  | null => rfl
  | bool b => rfl
  | num n => rfl
  | str t => rfl

theorem renderList_inOrder (hw : w.arrange = sortKeys lt) (xs : List (Json ν)) :
    w.renderList xs = w.unarranged.renderList (inOrderList lt xs) := by
  cases xs with
  | nil => rfl
  | cons x xs => rw [renderList, inOrderList, renderList, render_inOrder hw x, renderList_inOrder hw xs]

theorem renderMembers_inOrder (hw : w.arrange = sortKeys lt) (ms : List (Text × Json ν)) :
    w.renderMembers ms = w.unarranged.renderMembers (inOrderMembers lt ms) := by
  cases ms with
  | nil => rfl
  | cons m ms =>
    obtain ⟨k, v⟩ := m
    rw [renderMembers, inOrderMembers, renderMembers, render_inOrder hw v, renderMembers_inOrder hw ms]

end

end Arranging

section Tokens

def Ends (N : β → Prop) (r : List β) : Prop := ∀ b ∈ r.head?, ¬N b

def marks : List ℕ := [34, 44, 58, 91, 93, 102, 110, 116, 123, 125]

structure Readable (N : β → Prop) (p : Test ν) (w : Writer ν β) : Prop where
  symbol : ∀ c < 128, ∀ d < 128, w.symbol c = w.symbol d → c = d
  mark : ∀ c ∈ marks, ¬N (w.symbol c)
  num : ∀ n, p.num n = true → w.num n ≠ [] ∧ ∀ b ∈ w.num n, N b
  num_inj : ∀ n n', p.num n = true → p.num n' = true → w.num n = w.num n' → n = n'
  str : ∀ t, (w.str t).head? = some (w.symbol 34)
  key : ∀ t, (w.key t).head? = some (w.symbol 34)
  str_inj : ∀ t t' r r', p.str t = true → p.str t' = true → w.str t ++ r = w.str t' ++ r' → t = t' ∧ r = r'
  key_inj : ∀ t t' r r', p.key t = true → p.key t' = true → w.key t ++ r = w.key t' ++ r' → t = t' ∧ r = r'

/-- The mark a value starts with; a number has none. -/
def opening : Json ν → Option ℕ
  | .null => some 110
  | .bool b => if b then some 116 else some 102
  | .num _ => none
  | .str _ => some 34
  | .arr _ => some 91
  | .obj _ => some 123

variable {N : β → Prop} {p : Test ν} {w : Writer ν β}

theorem opening_mark {v : Json ν} {c : ℕ} (h : opening v = some c) : c ∈ marks ∧ c ≠ 93 := by
  cases v with
  | bool b =>
    cases b <;>
    · obtain rfl := Option.some.inj h
      decide
  | num n => simp [opening] at h
  | _ =>
    obtain rfl := Option.some.inj h
    decide

theorem opening_lt {c : ℕ} (h : c ∈ marks) : c < 128 := by
  simp only [marks, List.mem_cons, List.not_mem_nil, or_false] at h
  omega

theorem head_render (hw : Readable N p w) {v : Json ν} (hv : v.all p = true) :
    ∃ b s, w.render v = b :: s ∧ (opening v = none → N b) ∧ ∀ c, opening v = some c → b = w.symbol c := by
  cases v with
  | null =>
    refine ⟨_, _, rfl, by simp [opening], fun c hc => ?_⟩
    obtain rfl := Option.some.inj hc
    rfl
  | bool b =>
    cases b <;>
    · refine ⟨_, _, rfl, by simp [opening], fun c hc => ?_⟩
      obtain rfl := Option.some.inj hc
      rfl
  | num n =>
    obtain ⟨hne, hN⟩ := hw.num n hv
    obtain ⟨b, s, hb⟩ := List.exists_cons_of_ne_nil hne
    exact ⟨b, s, hb, fun _ => hN b (by simp [hb]), by simp [opening]⟩
  | str t =>
    have h := hw.str t
    obtain ⟨s, hs⟩ := List.head?_eq_some_iff.mp h
    exact ⟨_, s, hs, by simp [opening], by simp [opening]⟩
  | arr xs => exact ⟨_, _, rfl, by simp [opening], by simp [opening]⟩
  | obj ms => exact ⟨_, _, rfl, by simp [opening], by simp [opening]⟩

theorem opening_eq (hw : Readable N p w) {v v' : Json ν} {r r' : List β} (hv : v.all p = true)
    (hv' : v'.all p = true) (h : w.render v ++ r = w.render v' ++ r') : opening v = opening v' := by
  obtain ⟨b, s, hb, hN, hc⟩ := head_render hw hv
  obtain ⟨b', s', hb', hN', hc'⟩ := head_render hw hv'
  rw [hb, hb', List.cons_append, List.cons_append, List.cons.injEq] at h
  obtain ⟨rfl, -⟩ := h
  cases ho : opening v with
  | none =>
    cases ho' : opening v' with
    | none => rfl
    | some c' => exact absurd (hN ho) (hc' c' ho' ▸ hw.mark c' (opening_mark ho').1)
  | some c =>
    cases ho' : opening v' with
    | none => exact absurd (hN' ho') (hc c ho ▸ hw.mark c (opening_mark ho).1)
    | some c' =>
      have hs := (hc c ho).symm.trans (hc' c' ho')
      rw [hw.symbol c (opening_lt (opening_mark ho).1) c' (opening_lt (opening_mark ho').1) hs]

theorem ends_mark (hw : Readable N p w) {c : ℕ} (hc : c ∈ marks) (r : List β) : Ends N (w.symbol c :: r) := by
  intro b hb
  obtain rfl : w.symbol c = b := by simpa using hb
  exact hw.mark c hc

theorem run_unique {a a' r r' : List β} (ha : ∀ b ∈ a, N b) (ha' : ∀ b ∈ a', N b) (hr : Ends N r) (hr' : Ends N r')
    (h : a ++ r = a' ++ r') : a = a' ∧ r = r' := by
  induction a generalizing a' with
  | nil =>
    cases a' with
    | nil => exact ⟨rfl, h⟩
    | cons b a' =>
      obtain rfl : r = b :: (a' ++ r') := h
      exact absurd (ha' b (by simp)) (hr b (by simp))
  | cons b a ih =>
    cases a' with
    | nil =>
      obtain rfl : b :: (a ++ r) = r' := h
      exact absurd (ha b (by simp)) (hr' b (by simp))
    | cons b' a' =>
      rw [List.cons_append, List.cons_append, List.cons.injEq] at h
      obtain ⟨rfl, h⟩ := h
      obtain ⟨rfl, hr⟩ := ih (fun x hx => ha x (by simp [hx])) (fun x hx => ha' x (by simp [hx])) h
      exact ⟨rfl, hr⟩

theorem commas_inj {α : Type} {close : ℕ} {f : α → List β} {good : α → Prop} (hw : Readable N p w)
    (hclose : close ∈ marks) (hcomma : close ≠ 44) (xs xs' : List α) (r r' : List β)
    (hf : ∀ x ∈ xs, ∀ x' s s', good x' → Ends N s → Ends N s' → f x ++ s = f x' ++ s' → x = x' ∧ s = s')
    (hne : ∀ x, good x → ∀ s s', f x ++ s ≠ w.symbol close :: s')
    (hg : ∀ x ∈ xs, good x) (hg' : ∀ x ∈ xs', good x)
    (h : w.commas (xs.map f) ++ w.symbol close :: r = w.commas (xs'.map f) ++ w.symbol close :: r') :
    xs = xs' ∧ r = r' := by
  have hlt := opening_lt hclose
  have differ : w.symbol 44 ≠ w.symbol close := fun he => hcomma (hw.symbol 44 (by decide) close hlt he).symm
  have close_ends : ∀ s, Ends N (w.symbol close :: s) := ends_mark hw hclose
  have comma_ends : ∀ s, Ends N (w.symbol 44 :: s) := ends_mark hw (by decide)
  induction xs generalizing xs' with
  | nil =>
    cases xs' with
    | nil => exact ⟨rfl, by simpa [commas] using h⟩
    | cons x' xs' =>
      cases xs' with
      | nil => exact absurd h.symm (hne x' (hg' x' (by simp)) _ _)
      | cons y' xs' =>
        simp only [List.map_nil, List.map_cons, commas, List.nil_append, List.append_assoc] at h
        exact absurd h.symm (hne x' (hg' x' (by simp)) _ _)
  | cons x xs ih =>
    have hx := hf x (by simp)
    have ih := fun ys => ih ys (fun y hy => hf y (by simp [hy])) (fun y hy => hg y (by simp [hy]))
    cases xs' with
    | nil =>
      cases xs with
      | nil => exact absurd h (hne x (hg x (by simp)) _ _)
      | cons y xs =>
        simp only [List.map_nil, List.map_cons, commas, List.nil_append, List.append_assoc] at h
        exact absurd h (hne x (hg x (by simp)) _ _)
    | cons x' xs' =>
      have hx := fun s s' => hx x' s s' (hg' x' (by simp))
      cases xs with
      | nil =>
        cases xs' with
        | nil =>
          obtain ⟨rfl, hr⟩ := hx _ _ (close_ends _) (close_ends _) h
          exact ⟨rfl, (List.cons.inj hr).2⟩
        | cons y' xs' =>
          simp only [List.map_nil, List.map_cons, commas, List.append_assoc, List.cons_append] at h
          exact absurd (List.cons.inj (hx _ _ (close_ends _) (comma_ends _) h).2).1.symm differ
      | cons y xs =>
        cases xs' with
        | nil =>
          simp only [List.map_nil, List.map_cons, commas, List.append_assoc, List.cons_append] at h
          exact absurd (List.cons.inj (hx _ _ (comma_ends _) (close_ends _) h).2).1 differ
        | cons y' xs' =>
          simp only [List.map_cons, commas, List.append_assoc, List.cons_append] at h
          obtain ⟨rfl, hrest⟩ := hx _ _ (comma_ends _) (comma_ends _) h
          obtain ⟨hxs, hr⟩ := ih (y' :: xs') (fun z hz => hg' z (by simp [List.mem_cons.mp hz]))
            (List.cons.inj hrest).2
          exact ⟨by rw [hxs], hr⟩

theorem render_ne_bracket (hw : Readable N p w) {v : Json ν} (hv : v.all p = true) (s s' : List β) :
    w.render v ++ s ≠ w.symbol 93 :: s' := by
  intro h
  obtain ⟨b, t, hb, hN, hc⟩ := head_render hw hv
  rw [hb, List.cons_append, List.cons.injEq] at h
  cases ho : opening v with
  | none => exact hw.mark 93 (by decide) (h.1 ▸ hN ho)
  | some c =>
    have hm := opening_mark ho
    exact hm.2 (hw.symbol c (opening_lt hm.1) 93 (by decide) ((hc c ho).symm.trans h.1))

theorem member_ne_brace (hw : Readable N p w) (m : Text × Json ν) (s s' : List β) :
    w.member (m.1, w.render m.2) ++ s ≠ w.symbol 125 :: s' := by
  intro h
  obtain ⟨t, ht⟩ := List.head?_eq_some_iff.mp (hw.key m.1)
  simp only [member, ht, List.cons_append, List.cons.injEq] at h
  exact absurd (hw.symbol 34 (by decide) 125 (by decide) h.1) (by decide)

theorem member_inj (hw : Readable N p w) {m m' : Text × Json ν} {r r' : List β} (hm : p.key m.1 = true)
    (hm' : p.key m'.1 = true) (hv : ∀ s s', w.render m.2 ++ s = w.render m'.2 ++ s' → Ends N s → Ends N s' →
      m.2 = m'.2 ∧ s = s') (hr : Ends N r) (hr' : Ends N r')
    (h : w.member (m.1, w.render m.2) ++ r = w.member (m'.1, w.render m'.2) ++ r') : m = m' ∧ r = r' := by
  simp only [member, List.append_assoc, List.cons_append] at h
  obtain ⟨hk, h⟩ := hw.key_inj _ _ _ _ hm hm' h
  obtain ⟨hvv, hrr⟩ := hv _ _ (List.cons.inj h).2 hr hr'
  exact ⟨Prod.ext hk hvv, hrr⟩

mutual

theorem render_unique (hw : Readable N p w) (ha : w.arrange = id) (v v' : Json ν) (r r' : List β)
    (hv : v.all p = true) (hv' : v'.all p = true) (hr : Ends N r) (hr' : Ends N r')
    (h : w.render v ++ r = w.render v' ++ r') : v = v' ∧ r = r' := by
  have ho := opening_eq hw hv hv' h
  cases v with
  | null =>
    cases v' with
    | null => exact ⟨rfl, List.append_cancel_left h⟩
    | bool b => cases b <;> simp [opening] at ho
    | _ => simp [opening] at ho
  | bool b =>
    cases v' with
    | bool b' =>
      obtain rfl : b = b' := by cases b <;> cases b' <;> simp [opening] at ho ⊢
      exact ⟨rfl, List.append_cancel_left h⟩
    | _ => cases b <;> simp [opening] at ho
  | num n =>
    cases v' with
    | num n' =>
      obtain ⟨hn, hrr⟩ := run_unique (hw.num n hv).2 (hw.num n' hv').2 hr hr' h
      exact ⟨by rw [hw.num_inj n n' hv hv' hn], hrr⟩
    | bool b => cases b <;> simp [opening] at ho
    | _ => simp [opening] at ho
  | str t =>
    cases v' with
    | str t' =>
      obtain ⟨rfl, hrr⟩ := hw.str_inj t t' r r' hv hv' h
      exact ⟨rfl, hrr⟩
    | bool b => cases b <;> simp [opening] at ho
    | _ => simp [opening] at ho
  | arr xs =>
    cases v' with
    | arr xs' =>
      simp only [render, renderList_eq, List.cons_append, List.append_assoc, List.cons.injEq, true_and,
        List.nil_append] at h
      obtain ⟨rfl, hrr⟩ := commas_inj hw (by decide) (by decide) xs xs' r r'
        (fun x hx x' s s' hx' hs hs' h' => renderList_unique hw ha xs hv x hx x' s s' hx' hs hs' h')
        (fun x hx => render_ne_bracket hw hx) ((allList_iff p xs).mp hv) ((allList_iff p xs').mp hv') h
      exact ⟨rfl, hrr⟩
    | bool b => cases b <;> simp [opening] at ho
    | _ => simp [opening] at ho
  | obj ms =>
    cases v' with
    | obj ms' =>
      have hms := (allMembers_iff p ms).mp hv
      have hms' := (allMembers_iff p ms').mp hv'
      simp only [render, renderMembers_eq, ha, id, List.map_map, List.cons_append, List.append_assoc, List.cons.injEq,
        true_and, List.nil_append] at h
      obtain ⟨rfl, hrr⟩ := commas_inj hw (by decide) (by decide) ms ms' r r'
        (fun m hm m' s s' hm' hs hs' h' => member_inj hw (hms m hm).1 hm'.1
          (fun u u' he hu hu' => renderMembers_unique hw ha ms hv m hm m'.2 u u' hm'.2 hu hu' he) hs hs' h')
        (fun m _ => member_ne_brace hw m) hms hms' h
      exact ⟨rfl, hrr⟩
    | bool b => cases b <;> simp [opening] at ho
    | _ => simp [opening] at ho

theorem renderList_unique (hw : Readable N p w) (ha : w.arrange = id) (xs : List (Json ν))
    (hxs : allList p xs = true) : ∀ x ∈ xs, ∀ x' r r', x'.all p = true → Ends N r → Ends N r' →
      w.render x ++ r = w.render x' ++ r' → x = x' ∧ r = r' := by
  cases xs with
  | nil => simp
  | cons x xs =>
    simp only [allList, Bool.and_eq_true] at hxs
    rw [List.forall_mem_cons]
    exact ⟨fun x' r r' hx' hr hr' h => render_unique hw ha x x' r r' hxs.1 hx' hr hr' h,
      renderList_unique hw ha xs hxs.2⟩

theorem renderMembers_unique (hw : Readable N p w) (ha : w.arrange = id) (ms : List (Text × Json ν))
    (hms : allMembers p ms = true) : ∀ m ∈ ms, ∀ x' r r', x'.all p = true → Ends N r → Ends N r' →
      w.render m.2 ++ r = w.render x' ++ r' → m.2 = x' ∧ r = r' := by
  cases ms with
  | nil => simp
  | cons m ms =>
    obtain ⟨k, v⟩ := m
    simp only [allMembers, Bool.and_eq_true] at hms
    rw [List.forall_mem_cons]
    exact ⟨fun x' r r' hx' hr hr' h => render_unique hw ha v x' r r' hms.1.2 hx' hr hr' h,
      renderMembers_unique hw ha ms hms.2⟩

end

theorem Readable.unarranged (hw : Readable N p w) : Readable N p w.unarranged :=
  ⟨hw.symbol, hw.mark, hw.num, hw.num_inj, hw.str, hw.key, hw.str_inj, hw.key_inj⟩

theorem render_eq_iff_inOrder {lt : Text → Text → Prop} [DecidableRel lt] (hw : Readable N p w)
    (ha : w.arrange = sortKeys lt) {v v' : Json ν} (hv : v.all p = true) (hv' : v'.all p = true) :
    w.render v = w.render v' ↔ inOrder lt v = inOrder lt v' := by
  rw [render_inOrder ha, render_inOrder ha]
  constructor
  · intro h
    have hend : Ends N ([] : List β) := by simp [Ends]
    exact (render_unique hw.unarranged rfl _ _ [] [] ((all_inOrder lt p v).mpr hv)
      ((all_inOrder lt p v').mpr hv') hend hend (by rw [h])).1
  · intro h
    rw [h]

end Tokens

end Writer

end Library.Json
