import ObserverClub.Library.JsonWriter

/-!
When two writers give one value the same text. Each token has to end where it is seen to end, so that two
renderings agree exactly when they agree token by token.
-/

namespace Library

/-- `a` and `b` are the same when `ok` holds; when it does not, nothing after them repairs the difference. -/
def Agree {β : Type} (a b : List β) (ok : Prop) : Prop := ∀ r r', a ++ r = b ++ r' ↔ ok ∧ r = r'

namespace Agree

variable {β : Type} {a a' b b' : List β} {p q : Prop}

theorem refl (a : List β) : Agree a a True := fun r r' => by simp

theorem append (h : Agree a b p) (h' : Agree a' b' q) : Agree (a ++ a') (b ++ b') (p ∧ q) := fun r r' => by
  rw [List.append_assoc, List.append_assoc, h, h', and_assoc]

theorem cons (c : β) (h : Agree a b p) : Agree (c :: a) (c :: b) p := fun r r' => by
  rw [List.cons_append, List.cons_append, List.cons.injEq, h]
  exact and_iff_right rfl

theorem congr (h : Agree a b p) (hpq : p ↔ q) : Agree a b q := fun r r' => by rw [h, hpq]

theorem eq_iff (h : Agree a b p) : a = b ↔ p := by simpa using h [] []

end Agree

section Quoted

inductive Closed : Bytes → Prop
  | nil : Closed []
  | plain (b : UInt8) {s : Bytes} : b ≠ 34 → b ≠ 92 → Closed s → Closed (b :: s)
  | escape (b : UInt8) {s : Bytes} : Closed s → Closed (92 :: b :: s)

theorem Closed.append {a b : Bytes} (ha : Closed a) (hb : Closed b) : Closed (a ++ b) := by
  induction ha with
  | nil => exact hb
  | plain x h₁ h₂ _ ih => exact .plain x h₁ h₂ ih
  | escape x _ ih => exact .escape x ih

theorem Closed.flatMap {α : Type} {f : α → Bytes} (xs : List α) (h : ∀ x ∈ xs, Closed (f x)) :
    Closed (xs.flatMap f) := by
  induction xs with
  | nil => exact .nil
  | cons x xs ih => exact (h x (by simp)).append (ih (fun y hy => h y (by simp [hy])))

theorem Closed.of_plain {a : Bytes} (h : ∀ b ∈ a, b ≠ 34 ∧ b ≠ 92) : Closed a := by
  induction a with
  | nil => exact .nil
  | cons b a ih => exact .plain b (h b (by simp)).1 (h b (by simp)).2 (ih (fun x hx => h x (by simp [hx])))

theorem Closed.unique {a b : Bytes} (ha : Closed a) (hb : Closed b) (r r' : Bytes) :
    a ++ 34 :: r = b ++ 34 :: r' ↔ a = b ∧ r = r' := by
  constructor
  · intro h
    induction ha generalizing b with
    | nil => cases hb <;> simp_all
    | plain x h₁ h₂ _ ih =>
      cases hb with
      | nil => simp_all
      | plain y _ _ hb =>
        simp only [List.cons_append, List.cons.injEq] at h
        obtain ⟨rfl, h⟩ := h
        obtain ⟨hs, hr⟩ := ih hb h
        exact ⟨by rw [hs], hr⟩
      | escape y hb => simp_all
    | escape x _ ih =>
      cases hb with
      | nil => simp_all
      | plain y _ _ hb => simp_all
      | escape y hb =>
        simp only [List.cons_append, List.cons.injEq, true_and] at h
        obtain ⟨rfl, h⟩ := h
        obtain ⟨hs, hr⟩ := ih hb h
        exact ⟨by rw [hs], hr⟩
  · rintro ⟨rfl, rfl⟩
    rfl

theorem agree_quoted {a b : Bytes} {p : Prop} (ha : Closed a) (hb : Closed b) (h : a = b ↔ p) :
    Agree (34 :: a ++ [34]) (34 :: b ++ [34]) p := by
  intro r r'
  rw [← h, ← ha.unique hb]
  simp

end Quoted

namespace Json

variable {ν μ β : Type}

theorem sortKeys_map {α γ : Type} (lt lt' : Text → Text → Prop) [DecidableRel lt] [DecidableRel lt']
    (g : Text × α → Text × γ) (hg : ∀ p, (g p).1 = p.1) (ms : List (Text × α))
    (h : ∀ p ∈ ms, ∀ q ∈ ms, (lt p.1 q.1 ↔ lt' p.1 q.1)) :
    sortKeys lt' (ms.map g) = (sortKeys lt ms).map g := by
  refine (List.map_insertionSort _ _ g ms fun a ha b hb => ?_).symm
  rw [hg, hg, h b hb a ha]

theorem mem_sortKeys {α : Type} {lt : Text → Text → Prop} [DecidableRel lt] {ms : List (Text × α)} {p : Text × α} :
    p ∈ sortKeys lt ms ↔ p ∈ ms := List.mem_insertionSort _

namespace Writer

theorem renderList_eq (w : Writer ν β) (xs : List (Json ν)) : w.renderList xs = xs.map w.render := by
  induction xs with
  | nil => rfl
  | cons x xs ih => simp [renderList, ih]

theorem renderMembers_eq (w : Writer ν β) (ms : List (Text × Json ν)) :
    w.renderMembers ms = ms.map (fun m => (m.1, w.render m.2)) := by
  induction ms with
  | nil => rfl
  | cons m ms ih => simp [renderMembers, ih]

section Encoding

variable {γ : Type} {w : Writer ν β} {w' : Writer ν γ} {h : List β → List γ}

/-- `w'` writes the image under `h` of what `w` writes. -/
structure Encodes (h : List β → List γ) (w : Writer ν β) (w' : Writer ν γ) : Prop where
  nil : h [] = []
  append : ∀ a b, h (a ++ b) = h a ++ h b
  symbol : ∀ c < 128, h [w.symbol c] = [w'.symbol c]
  num : ∀ n, h (w.num n) = w'.num n
  str : ∀ t, h (w.str t) = w'.str t
  key : ∀ t, h (w.key t) = w'.key t
  arrange : ∀ ms, w'.arrange (ms.map (fun m => (m.1, h m.2))) = (w.arrange ms).map (fun m => (m.1, h m.2))

namespace Encodes

theorem cons (he : Encodes h w w') {c : ℕ} (hc : c < 128) (a : List β) :
    h (w.symbol c :: a) = w'.symbol c :: h a := by
  rw [← List.singleton_append, he.append, he.symbol c hc, List.singleton_append]

theorem symbols (he : Encodes h w w') (t : Text) (ht : ∀ c ∈ t, c < 128) : h (t.map w.symbol) = t.map w'.symbol := by
  induction t with
  | nil => exact he.nil
  | cons c t ih =>
    rw [List.map_cons, List.map_cons, he.cons (ht c (by simp)), ih (fun x hx => ht x (by simp [hx]))]

theorem word (he : Encodes h w w') (s : String) (hs : ∀ c ∈ txt s, c < 128) : h (w.word s) = w'.word s :=
  he.symbols (txt s) hs

theorem commas (he : Encodes h w w') (ps : List (List β)) : h (w.commas ps) = w'.commas (ps.map h) := by
  induction ps with
  | nil => exact he.nil
  | cons p ps ih =>
    cases ps with
    | nil => rfl
    | cons q ps =>
      simp only [Writer.commas, List.map_cons] at ih ⊢
      rw [he.append, he.cons (by decide), ih]

theorem member (he : Encodes h w w') (m : Text × List β) : h (w.member m) = w'.member (m.1, h m.2) := by
  rw [Writer.member, Writer.member, he.append, he.key, he.cons (by decide)]

mutual

theorem render (he : Encodes h w w') (v : Json ν) : h (w.render v) = w'.render v := by
  cases v with
  | null => exact he.word "null" (by decide)
  | bool b => cases b <;> exact he.word _ (by decide)
  | num n => exact he.num n
  | str t => exact he.str t
  | arr xs =>
    rw [Writer.render, Writer.render, List.cons_append, he.cons (by decide), he.append, he.commas,
      he.symbol 93 (by decide), he.renderList xs]
    rfl
  | obj ms =>
    rw [Writer.render, Writer.render, List.cons_append, he.cons (by decide), he.append, he.commas,
      he.symbol 125 (by decide), ← he.renderMembers ms, he.arrange, List.map_map, List.map_map]
    simp only [Function.comp_def, he.member]
    rfl

theorem renderList (he : Encodes h w w') (xs : List (Json ν)) : (w.renderList xs).map h = w'.renderList xs := by
  cases xs with
  | nil => rfl
  | cons x xs => rw [Writer.renderList, Writer.renderList, List.map_cons, he.render x, he.renderList xs]

theorem renderMembers (he : Encodes h w w') (ms : List (Text × Json ν)) :
    (w.renderMembers ms).map (fun m => (m.1, h m.2)) = w'.renderMembers ms := by
  cases ms with
  | nil => rfl
  | cons m ms =>
    obtain ⟨k, v⟩ := m
    rw [Writer.renderMembers, Writer.renderMembers, List.map_cons, he.render v, he.renderMembers ms]

end

end Encodes

end Encoding

theorem commas_agree {α : Type} (w : Writer ν β) (w' : Writer μ β) (hsym : ∀ c, w.symbol c = w'.symbol c)
    (close : β) (f g : α → List β) (ok : α → Prop) (xs : List α) (h : ∀ x ∈ xs, Agree (f x) (g x) (ok x)) :
    Agree (w.commas (xs.map f) ++ [close]) (w'.commas (xs.map g) ++ [close]) (∀ x ∈ xs, ok x) := by
  induction xs with
  | nil => exact (Agree.refl _).congr (by simp)
  | cons x xs ih =>
    have hx := h x (by simp)
    have ih := ih (fun y hy => h y (by simp [hy]))
    cases xs with
    | nil => exact (hx.append (Agree.refl [close])).congr (by simp)
    | cons y ys =>
      simp only [List.map_cons, commas, List.append_assoc, List.cons_append, hsym 44] at ih ⊢
      exact (hx.append (ih.cons _)).congr (by simp)

variable {w : Writer ν β} {w' : Writer μ β} {f : ν → μ} {good same : Test ν}
  {lt lt' : Text → Text → Prop} [DecidableRel lt] [DecidableRel lt']

structure Comparable (w : Writer ν β) (w' : Writer μ β) (f : ν → μ) (good same : Test ν)
    (lt lt' : Text → Text → Prop) [DecidableRel lt] [DecidableRel lt'] : Prop where
  symbol : ∀ c, w.symbol c = w'.symbol c
  num : ∀ n, good.num n = true → Agree (w.num n) (w'.num (f n)) (same.num n = true)
  str : ∀ t, good.str t = true → Agree (w.str t) (w'.str t) (same.str t = true)
  key : ∀ t, good.key t = true → Agree (w.key t) (w'.key t) (same.key t = true)
  arrange : w.arrange = sortKeys lt
  arrange' : w'.arrange = sortKeys lt'
  order : ∀ s t, good.key s = true → good.key t = true → (lt s t ↔ lt' s t)

theorem members_agree (hc : Comparable w w' f good same lt lt') (ms : List (Text × Json ν))
    (hk : ∀ m ∈ ms, good.key m.1 = true)
    (h : ∀ m ∈ ms, Agree (w.render m.2) (w'.render (m.2.map f)) (m.2.all same = true)) :
    Agree (w.render (.obj ms)) (w'.render (.obj (mapMembers f ms))) (allMembers same ms = true) := by
  have hsort := sortKeys_map lt lt (fun m : Text × Json ν => (m.1, w.render m.2)) (fun _ => rfl) ms
    (fun _ _ _ _ => Iff.rfl)
  have hsort' := sortKeys_map lt lt' (fun m : Text × Json ν => (m.1, w'.render (m.2.map f)))
    (fun _ => rfl) ms (fun p hp q hq => hc.order _ _ (hk p hp) (hk q hq))
  have hrest := commas_agree w w' hc.symbol (w.symbol 125) (fun m : Text × Json ν => w.member (m.1, w.render m.2))
    (fun m => w'.member (m.1, w'.render (m.2.map f))) (fun m => same.key m.1 = true ∧ m.2.all same = true)
    (sortKeys lt ms) (fun m hm => by
      rw [mem_sortKeys] at hm
      rw [member, member, ← hc.symbol 58]
      exact (hc.key _ (hk m hm)).append ((h m hm).cons _))
  have hok : (∀ m ∈ sortKeys lt ms, same.key m.1 = true ∧ m.2.all same = true) ↔ allMembers same ms = true := by
    simp only [mem_sortKeys, allMembers_iff]
  rw [mapMembers_eq, render, render, renderMembers_eq, renderMembers_eq, List.map_map, hc.arrange, hc.arrange', hsort]
  simp only [Function.comp_def]
  rw [hsort', List.map_map, List.map_map, ← hc.symbol 123, ← hc.symbol 125]
  exact (hrest.congr hok).cons _

mutual

theorem render_agree (hc : Comparable w w' f good same lt lt') (v : Json ν) (hv : v.all good = true) :
    Agree (w.render v) (w'.render (v.map f)) (v.all same = true) := by
  have hword : ∀ s, w.word s = w'.word s := fun s => by
    simp only [word]
    exact List.map_congr_left (fun c _ => hc.symbol c)
  cases v with
  | null => simpa only [render, map, hword, all] using Agree.refl _
  | bool b => cases b <;> simpa only [render, map, hword, all] using Agree.refl _
  | num n => exact hc.num n hv
  | str t => exact hc.str t hv
  | arr xs =>
    have h := renderList_agree hc xs hv
    have := commas_agree w w' hc.symbol (w.symbol 93) w.render (fun x => w'.render (x.map f))
      (fun x => x.all same = true) xs h
    simp only [render, map, mapList_eq, renderList_eq, List.map_map, all]
    rw [← hc.symbol 91, ← hc.symbol 93]
    exact (this.congr (allList_iff same xs).symm).cons _
  | obj ms =>
    have hk := (allMembers_iff good ms).mp hv
    exact members_agree hc ms (fun m hm => (hk m hm).1) (renderMembers_agree hc ms hv)

theorem renderList_agree (hc : Comparable w w' f good same lt lt') (xs : List (Json ν))
    (hxs : allList good xs = true) :
    ∀ x ∈ xs, Agree (w.render x) (w'.render (x.map f)) (x.all same = true) := by
  cases xs with
  | nil => simp
  | cons x xs =>
    simp only [allList, Bool.and_eq_true] at hxs
    rw [List.forall_mem_cons]
    exact ⟨render_agree hc x hxs.1, renderList_agree hc xs hxs.2⟩

theorem renderMembers_agree (hc : Comparable w w' f good same lt lt') (ms : List (Text × Json ν))
    (hms : allMembers good ms = true) :
    ∀ m ∈ ms, Agree (w.render m.2) (w'.render (m.2.map f)) (m.2.all same = true) := by
  cases ms with
  | nil => simp
  | cons m ms =>
    obtain ⟨k, v⟩ := m
    simp only [allMembers, Bool.and_eq_true] at hms
    rw [List.forall_mem_cons]
    exact ⟨render_agree hc v hms.1.2, renderMembers_agree hc ms hms.2⟩

end

end Writer

end Json

end Library
