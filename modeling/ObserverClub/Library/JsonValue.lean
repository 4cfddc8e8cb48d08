import ObserverClub.Library.JsonReader

/-!
JSON values as a program holds them once decoded: strings are texts, numbers are of any type, and an
object holds each key once, in the order of first appearance.
-/

namespace Library

inductive Json (ν : Type) where
  | null
  | bool (b : Bool)
  | num (n : ν)
  | str (t : Text)
  | arr (xs : List (Json ν))
  | obj (ms : List (Text × Json ν))

namespace Json

variable {ν μ : Type}

section Members

variable {α β : Type}

def lookup (k : Text) : List (Text × α) → Option α
  | [] => none
  | (j, v) :: ms => if j = k then some v else lookup k ms

/-- Collects members into an object: a repeated key keeps its first place and its last value. -/
def dictOf : List (Text × α) → List (Text × α)
  | [] => []
  | (k, v) :: ms =>
    match lookup k (dictOf ms) with
    | none => (k, v) :: dictOf ms
    | some w => (k, w) :: (dictOf ms).filter (·.1 ≠ k)

theorem lookup_none {k : Text} {ms : List (Text × α)} : lookup k ms = none ↔ ∀ p ∈ ms, p.1 ≠ k := by
  induction ms with
  | nil => simp [lookup]
  | cons p ms ih =>
    obtain ⟨j, v⟩ := p
    by_cases h : j = k <;> simp [lookup, h, ih]

theorem lookup_mem {k : Text} {v : α} {ms : List (Text × α)} (h : lookup k ms = some v) : (k, v) ∈ ms := by
  induction ms with
  | nil => simp [lookup] at h
  | cons p ms ih =>
    obtain ⟨j, w⟩ := p
    simp only [lookup] at h
    split_ifs at h with hj
    · simp_all
    · exact List.mem_cons_of_mem _ (ih h)

theorem lookup_map (f : α → β) (k : Text) (ms : List (Text × α)) :
    lookup k (ms.map (fun p => (p.1, f p.2))) = (lookup k ms).map f := by
  induction ms with
  | nil => rfl
  | cons p ms ih =>
    obtain ⟨j, v⟩ := p
    by_cases h : j = k <;> simp [lookup, h, ih]

theorem lookup_filter {k j : Text} (h : j ≠ k) (ms : List (Text × α)) :
    lookup k (ms.filter (·.1 ≠ j)) = lookup k ms := by
  induction ms with
  | nil => rfl
  | cons p ms ih =>
    obtain ⟨i, v⟩ := p
    by_cases hi : i = j
    · subst hi
      simpa [lookup, h] using ih
    · by_cases hk : i = k <;> simp_all [lookup]

theorem mem_dictOf {p : Text × α} {ms : List (Text × α)} (h : p ∈ dictOf ms) : p ∈ ms := by
  induction ms generalizing p with
  | nil => simp [dictOf] at h
  | cons q ms ih =>
    obtain ⟨k, v⟩ := q
    simp only [dictOf] at h
    split at h
    · rcases List.mem_cons.mp h with rfl | h
      · simp
      · exact List.mem_cons_of_mem _ (ih h)
    · rename_i w hw
      rcases List.mem_cons.mp h with rfl | h
      · exact List.mem_cons_of_mem _ (ih (lookup_mem hw))
      · exact List.mem_cons_of_mem _ (ih (List.mem_of_mem_filter h))

theorem dictOf_key {p : Text × α} {ms : List (Text × α)} (h : p ∈ ms) : ∃ q ∈ dictOf ms, q.1 = p.1 := by
  induction ms with
  | nil => simp at h
  | cons q ms ih =>
    obtain ⟨k, v⟩ := q
    by_cases hk : p.1 = k
    · simp only [dictOf]
      split <;> exact ⟨_, List.mem_cons_self, hk.symm⟩
    · obtain ⟨q, hq, hqp⟩ := ih (by rcases List.mem_cons.mp h with rfl | h <;> simp_all)
      simp only [dictOf]
      split
      · exact ⟨q, List.mem_cons_of_mem _ hq, hqp⟩
      · exact ⟨q, List.mem_cons_of_mem _ (List.mem_filter.mpr ⟨hq, by simpa [hqp] using hk⟩), hqp⟩

theorem dictOf_nodup (ms : List (Text × α)) : ((dictOf ms).map Prod.fst).Nodup := by
  induction ms with
  | nil => simp [dictOf]
  | cons q ms ih =>
    obtain ⟨k, v⟩ := q
    simp only [dictOf]
    split
    · rename_i hl
      rw [lookup_none] at hl
      simp only [List.map_cons, List.nodup_cons, List.mem_map, not_exists, not_and]
      exact ⟨fun p hp => hl p hp, ih⟩
    · simp only [List.map_cons, List.nodup_cons, List.mem_map, List.mem_filter, decide_eq_true_eq]
      refine ⟨fun ⟨p, hp, he⟩ => hp.2 he, ih.sublist ?_⟩
      exact List.Sublist.map _ List.filter_sublist

end Members

def get (k : Text) : Json ν → Option (Json ν)
  | .obj ms => lookup k ms
  | _ => none

mutual

def map (f : ν → μ) : Json ν → Json μ
  | .null => .null
  | .bool b => .bool b
  | .num n => .num (f n)
  | .str t => .str t
  | .arr xs => .arr (mapList f xs)
  | .obj ms => .obj (mapMembers f ms)

def mapList (f : ν → μ) : List (Json ν) → List (Json μ)
  | [] => []
  | x :: xs => map f x :: mapList f xs

def mapMembers (f : ν → μ) : List (Text × Json ν) → List (Text × Json μ)
  | [] => []
  | (k, v) :: ms => (k, map f v) :: mapMembers f ms

end

theorem mapList_eq (f : ν → μ) (xs : List (Json ν)) : mapList f xs = xs.map (map f) := by
  induction xs with
  | nil => rfl
  | cons x xs ih => simp [mapList, ih]

theorem mapMembers_eq (f : ν → μ) (ms : List (Text × Json ν)) :
    mapMembers f ms = ms.map (fun p => (p.1, map f p.2)) := by
  induction ms with
  | nil => rfl
  | cons p ms ih => simp [mapMembers, ih]

theorem get_map (f : ν → μ) (k : Text) (v : Json ν) : (map f v).get k = (v.get k).map (map f) := by
  cases v with
  | obj ms => simp [map, get, mapMembers_eq, lookup_map]
  | _ => rfl

/-- Tests on the numbers, strings and keys of a value. -/
structure Test (ν : Type) where
  num : ν → Bool
  str : Text → Bool
  key : Text → Bool

mutual

def all (p : Test ν) : Json ν → Bool
  | .null => true
  | .bool _ => true
  | .num n => p.num n
  | .str t => p.str t
  | .arr xs => allList p xs
  | .obj ms => allMembers p ms

def allList (p : Test ν) : List (Json ν) → Bool
  | [] => true
  | x :: xs => all p x && allList p xs

def allMembers (p : Test ν) : List (Text × Json ν) → Bool
  | [] => true
  | (k, v) :: ms => p.key k && all p v && allMembers p ms

end

theorem allList_iff (p : Test ν) (xs : List (Json ν)) : allList p xs = true ↔ ∀ x ∈ xs, all p x = true := by
  induction xs with
  | nil => simp [allList]
  | cons x xs ih => simp [allList, ih]

theorem allMembers_iff (p : Test ν) (ms : List (Text × Json ν)) :
    allMembers p ms = true ↔ ∀ m ∈ ms, p.key m.1 = true ∧ all p m.2 = true := by
  induction ms with
  | nil => simp [allMembers]
  | cons m ms ih => simp [allMembers, ih]

structure Entails (p q r : Test ν) : Prop where
  num : ∀ n, p.num n = true → q.num n = true → r.num n = true
  str : ∀ t, p.str t = true → q.str t = true → r.str t = true
  key : ∀ t, p.key t = true → q.key t = true → r.key t = true

section

variable {p q r : Test ν}

mutual

theorem Entails.all (he : Entails p q r) (v : Json ν) (hp : v.all p = true) (hq : v.all q = true) : v.all r = true := by
  cases v with
  | null => rfl
  | bool b => rfl
  | num n => exact he.num n hp hq
  | str t => exact he.str t hp hq
  | arr xs => exact Entails.allList he xs hp hq
  | obj ms => exact Entails.allMembers he ms hp hq

theorem Entails.allList (he : Entails p q r) (xs : List (Json ν)) (hp : Json.allList p xs = true)
    (hq : Json.allList q xs = true) : Json.allList r xs = true := by
  cases xs with
  | nil => rfl
  | cons x xs =>
    simp only [Json.allList, Bool.and_eq_true] at hp hq ⊢
    exact ⟨Entails.all he x hp.1 hq.1, Entails.allList he xs hp.2 hq.2⟩

theorem Entails.allMembers (he : Entails p q r) (ms : List (Text × Json ν)) (hp : Json.allMembers p ms = true)
    (hq : Json.allMembers q ms = true) : Json.allMembers r ms = true := by
  cases ms with
  | nil => rfl
  | cons m ms =>
    obtain ⟨k, v⟩ := m
    simp only [Json.allMembers, Bool.and_eq_true] at hp hq ⊢
    exact ⟨⟨he.key k hp.1.1 hq.1.1, Entails.all he v hp.1.2 hq.1.2⟩, Entails.allMembers he ms hp.2 hq.2⟩

end

end

theorem allMembers_dictOf (p : Test ν) {ms : List (Text × Json ν)} (h : allMembers p ms = true) :
    allMembers p (dictOf ms) = true := by
  rw [allMembers_iff] at h ⊢
  exact fun m hm => h m (mem_dictOf hm)

mutual

/-- How many brackets enclose the innermost part. -/
def depth : Json ν → ℕ
  | .arr xs => depthList xs + 1
  | .obj ms => depthMembers ms + 1
  | _ => 0

def depthList : List (Json ν) → ℕ
  | [] => 0
  | x :: xs => max (depth x) (depthList xs)

def depthMembers : List (Text × Json ν) → ℕ
  | [] => 0
  | (_, v) :: ms => max (depth v) (depthMembers ms)

end

mutual

theorem all_map (f : ν → μ) (p : Test μ) (v : Json ν) :
    all p (map f v) = all ⟨fun n => p.num (f n), p.str, p.key⟩ v := by
  cases v with
  | arr xs => simp only [map, all, allList_map f p xs]
  | obj ms => simp only [map, all, allMembers_map f p ms]
  | _ => rfl

theorem allList_map (f : ν → μ) (p : Test μ) (xs : List (Json ν)) :
    allList p (mapList f xs) = allList ⟨fun n => p.num (f n), p.str, p.key⟩ xs := by
  cases xs with
  | nil => rfl
  | cons x xs => simp only [mapList, allList, all_map f p x, allList_map f p xs]

theorem allMembers_map (f : ν → μ) (p : Test μ) (ms : List (Text × Json ν)) :
    allMembers p (mapMembers f ms) = allMembers ⟨fun n => p.num (f n), p.str, p.key⟩ ms := by
  cases ms with
  | nil => rfl
  | cons m ms =>
    obtain ⟨k, v⟩ := m
    simp only [mapMembers, allMembers, all_map f p v, allMembers_map f p ms]

end

mutual

/-- The value with a key left out at every depth. -/
def without (key : Text) : Json ν → Json ν
  | .arr xs => .arr (withoutList key xs)
  | .obj ms => .obj (withoutMembers key ms)
  | v => v

def withoutList (key : Text) : List (Json ν) → List (Json ν)
  | [] => []
  | x :: xs => without key x :: withoutList key xs

def withoutMembers (key : Text) : List (Text × Json ν) → List (Text × Json ν)
  | [] => []
  | (k, v) :: ms => if k = key then withoutMembers key ms else (k, without key v) :: withoutMembers key ms

end

mutual

theorem all_without (p : Test ν) (key : Text) (v : Json ν) (h : all p v = true) :
    all p (without key v) = true := by
  cases v with
  | arr xs => simpa [without, all] using allList_without p key xs (by simpa [all] using h)
  | obj ms => simpa [without, all] using allMembers_without p key ms (by simpa [all] using h)
  | _ => simpa [without] using h

theorem allList_without (p : Test ν) (key : Text) (xs : List (Json ν)) (h : allList p xs = true) :
    allList p (withoutList key xs) = true := by
  cases xs with
  | nil => rfl
  | cons x xs =>
    simp only [allList, Bool.and_eq_true] at h
    simp [withoutList, allList, all_without p key x h.1, allList_without p key xs h.2]

theorem allMembers_without (p : Test ν) (key : Text) (ms : List (Text × Json ν))
    (h : allMembers p ms = true) : allMembers p (withoutMembers key ms) = true := by
  cases ms with
  | nil => rfl
  | cons m ms =>
    obtain ⟨k, v⟩ := m
    simp only [allMembers, Bool.and_eq_true] at h
    simp only [withoutMembers]
    split_ifs
    · exact allMembers_without p key ms h.2
    · simp [allMembers, h.1.1, all_without p key v h.1.2, allMembers_without p key ms h.2]

end

mutual

theorem map_without (f : ν → μ) (key : Text) (v : Json ν) : map f (without key v) = without key (map f v) := by
  cases v with
  | arr xs => simp [without, map, mapList_without f key xs]
  | obj ms => simp [without, map, mapMembers_without f key ms]
  | _ => simp [without, map]

theorem mapList_without (f : ν → μ) (key : Text) (xs : List (Json ν)) :
    mapList f (withoutList key xs) = withoutList key (mapList f xs) := by
  cases xs with
  | nil => rfl
  | cons x xs => simp [withoutList, mapList, map_without f key x, mapList_without f key xs]

theorem mapMembers_without (f : ν → μ) (key : Text) (ms : List (Text × Json ν)) :
    mapMembers f (withoutMembers key ms) = withoutMembers key (mapMembers f ms) := by
  cases ms with
  | nil => rfl
  | cons m ms =>
    obtain ⟨k, v⟩ := m
    simp only [withoutMembers, mapMembers]
    split_ifs
    · exact mapMembers_without f key ms
    · simp [mapMembers, map_without f key v, mapMembers_without f key ms]

end

/-- Escaped surrogate pairs make one character; a lone surrogate is given to `lone`. -/
def unescape (lone : ℕ → ℕ) : List StrUnit → Text
  | [] => []
  | .char c :: us => c :: unescape lone us
  | .esc h :: .esc l :: us =>
    if 0xD800 ≤ h ∧ h < 0xDC00 ∧ 0xDC00 ≤ l ∧ l < 0xE000 then
      (0x10000 + (h - 0xD800) * 1024 + (l - 0xDC00)) :: unescape lone us
    else (if 0xD800 ≤ h ∧ h < 0xE000 then lone h else h) :: unescape lone (.esc l :: us)
  | .esc h :: us => (if 0xD800 ≤ h ∧ h < 0xE000 then lone h else h) :: unescape lone us

/-- What an implementation makes of the literals. -/
structure Reading (ν : Type) where
  str : List StrUnit → Text
  num : Text → ν
  const : Text → ν

mutual

def ofTree (rd : Reading ν) : Tree → Json ν
  | .null => .null
  | .bool b => .bool b
  | .num lit => .num (rd.num lit)
  | .const name => .num (rd.const name)
  | .str us => .str (rd.str us)
  | .arr xs => .arr (ofTrees rd xs)
  | .obj ms => .obj (dictOf (ofMembers rd ms))

def ofTrees (rd : Reading ν) : List Tree → List (Json ν)
  | [] => []
  | x :: xs => ofTree rd x :: ofTrees rd xs

def ofMembers (rd : Reading ν) : List (List StrUnit × Tree) → List (Text × Json ν)
  | [] => []
  | (k, v) :: ms => (rd.str k, ofTree rd v) :: ofMembers rd ms

end

end Json

end Library
