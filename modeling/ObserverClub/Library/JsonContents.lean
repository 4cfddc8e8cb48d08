import ObserverClub.Library.JsonReaderLemmas
import ObserverClub.Library.JsonValue

namespace Library.Json

structure Contents where
  num : Text → Prop
  const : Prop
  unit : StrUnit → Prop

mutual

def Tree.Has (p : Contents) : Tree → Prop
  | .null => True
  | .bool _ => True
  | .num lit => p.num lit
  | .const _ => p.const
  | .str us => ∀ u ∈ us, p.unit u
  | .arr xs => treesHave p xs
  | .obj ms => membersHave p ms

def treesHave (p : Contents) : List Tree → Prop
  | [] => True
  | x :: xs => x.Has p ∧ treesHave p xs

def membersHave (p : Contents) : List (List StrUnit × Tree) → Prop
  | [] => True
  | (k, v) :: ms => (∀ u ∈ k, p.unit u) ∧ v.Has p ∧ membersHave p ms

end

/-- Units read from a text whose characters satisfy `Q`. -/
def UnitFrom (Q : ℕ → Prop) : StrUnit → Prop
  | .char c => Q c ∨ c < 128
  | .esc u => u < 0x10000

theorem hex4_lt {a b c d u : ℕ} (h : hex4 a b c d = some u) : u < 0x10000 := by
  have digit : ∀ {x n : ℕ}, hexValue x = some n → n < 16 := by
    intro x n hx
    unfold hexValue isDigit at hx
    split_ifs at hx <;> simp_all <;> omega
  unfold hex4 at h
  split at h
  · rename_i ha hb hc hd
    have := digit ha
    have := digit hb
    have := digit hc
    have := digit hd
    simp only [Option.some.injEq] at h
    omega
  · simp at h

theorem simpleEscape_lt {e c : ℕ} (h : simpleEscape e = some c) : c < 128 := by
  unfold simpleEscape at h
  split_ifs at h <;> simp only [Option.some.injEq] at h <;> omega

section

variable {Q : ℕ → Prop}

theorem readString_from {s r : Text} {us : List StrUnit} (h : readString s = some (us, r))
    (hs : ∀ c ∈ s, Q c) : (∀ c ∈ r, Q c) ∧ ∀ u ∈ us, UnitFrom Q u := by
  fun_induction readString s generalizing us with
  | case1 | case4 | case6 | case7 | case9 => simp at h
  | case2 s =>
    simp only [Option.some.injEq, Prod.mk.injEq] at h
    obtain ⟨rfl, rfl⟩ := h
    exact ⟨fun c hc => hs c (by simp [hc]), by simp⟩
  | case3 a b c d s u us' r' hr hu ih =>
    simp only [Option.some.injEq, Prod.mk.injEq] at h
    obtain ⟨rfl, rfl⟩ := h
    obtain ⟨ihr, ihu⟩ := ih hr (fun c hc => hs c (by simp [hc]))
    exact ⟨ihr, by simpa using ⟨hex4_lt hu, ihu⟩⟩
  | case5 e s he c us' r' hr hc ih =>
    simp only [Option.some.injEq, Prod.mk.injEq] at h
    obtain ⟨rfl, rfl⟩ := h
    obtain ⟨ihr, ihu⟩ := ih hr (fun c hc => hs c (by simp [hc]))
    exact ⟨ihr, by simpa using ⟨.inr (simpleEscape_lt hc), ihu⟩⟩
  | case8 c s h34 _ _ hc us' r' hr ih =>
    simp only [Option.some.injEq, Prod.mk.injEq] at h
    obtain ⟨rfl, rfl⟩ := h
    obtain ⟨ihr, ihu⟩ := ih hr (fun c hc => hs c (by simp [hc]))
    exact ⟨ihr, by simpa using ⟨.inl (hs c (by simp)), ihu⟩⟩

theorem skipWs_from {s t : Text} (h : skipWs s = t) (hs : ∀ c ∈ s, Q c) : ∀ c ∈ t, Q c :=
  fun c hc => hs c ((List.dropWhile_suffix _).mem (h ▸ hc))

theorem tail_from {s w : Text} {c : ℕ} (h : skipWs s = c :: w) (hs : ∀ c ∈ s, Q c) : ∀ c ∈ w, Q c :=
  fun x hx => skipWs_from h hs x (by simp [hx])

variable (Q)

/-- Literals of a value that `d` reads from a text with characters in `Q`. -/
def readFrom (d : Dialect) : Contents where
  num lit := (∃ s r, readNumber s = some (lit, r)) ∧ d.numberOk lit = true
  const := d.constants = true
  unit := UnitFrom Q

variable {Q}

theorem readScalar_from {d : Dialect} {c : ℕ} {s r : Text} {v : Tree} (h : readScalar d c s = .ok (v, r))
    (hs : ∀ x ∈ c :: s, Q x) : (∀ x ∈ r, Q x) ∧ v.Has (readFrom Q d) := by
  unfold readScalar at h
  split at h
  · rename_i w v' hk
    split at h
    · rename_i r' hw
      simp only [Except.ok.injEq, Prod.mk.injEq] at h
      obtain ⟨rfl, rfl⟩ := h
      refine ⟨fun x hx => hs x (by rw [stripPrefix_eq hw]; simp [hx]), ?_⟩
      unfold keywordAt at hk
      split_ifs at hk <;> simp only [Option.some.injEq, Prod.mk.injEq] at hk <;> obtain ⟨-, rfl⟩ := hk <;>
        simp_all [Tree.Has, readFrom]
    · simp at h
  · split at h
    · rename_i lit r' hn
      split_ifs at h with ho
      simp only [Except.ok.injEq, Prod.mk.injEq] at h
      obtain ⟨rfl, rfl⟩ := h
      refine ⟨fun x hx => hs x ?_, ⟨_, _, hn⟩, ho⟩
      rw [← (readNumber_split hn).1]
      simp [hx]
    · simp at h

theorem read_from (d : Dialect) (f : ℕ) :
    (∀ {k s v r}, readValue d f k s = .ok (v, r) → (∀ c ∈ s, Q c) →
      (∀ c ∈ r, Q c) ∧ v.Has (readFrom Q d)) ∧
    (∀ {k s ms r}, readMembers d f k s = .ok (ms, r) → (∀ c ∈ s, Q c) →
      (∀ c ∈ r, Q c) ∧ membersHave (readFrom Q d) ms) ∧
    (∀ {k s vs r}, readElems d f k s = .ok (vs, r) → (∀ c ∈ s, Q c) →
      (∀ c ∈ r, Q c) ∧ treesHave (readFrom Q d) vs) := by
  induction f with
  | zero => simp [readValue, readMembers, readElems]
  | succ f ih =>
    obtain ⟨ihv, ihm, ihe⟩ := ih
    refine ⟨?_, ?_, ?_⟩
    · intro k s v r h hs
      rw [readValue_ok] at h
      rcases h with ⟨t, us, rfl, hus, rfl⟩ | ⟨t, j, rfl, -, h⟩ | ⟨t, j, rfl, -, h⟩ | ⟨c, t, rfl, -, -, -, h⟩
      · exact readString_from hus (fun c hc => hs c (by simp [hc]))
      · have ht : ∀ c ∈ t, Q c := fun c hc => hs c (by simp [hc])
        rcases h with ⟨hw, rfl⟩ | ⟨c, w, ms, hw, -, hm, rfl⟩
        · exact ⟨tail_from hw ht, trivial⟩
        · exact ihm hm (skipWs_from hw ht)
      · have ht : ∀ c ∈ t, Q c := fun c hc => hs c (by simp [hc])
        rcases h with ⟨hw, rfl⟩ | ⟨c, w, xs, hw, -, he, rfl⟩
        · exact ⟨tail_from hw ht, trivial⟩
        · exact ihe he (skipWs_from hw ht)
      · exact readScalar_from h hs
    · intro k s ms r h hs
      rw [readMembers_ok] at h
      obtain ⟨t, key, s₁, s₂, v, s₃, rfl, hk, hc, hv, h⟩ := h
      obtain ⟨h₁, hkey⟩ := readString_from hk (fun c hc => hs c (by simp [hc]))
      obtain ⟨h₃, hval⟩ := ihv hv (skipWs_from rfl (tail_from hc h₁))
      rcases h with ⟨hr, rfl⟩ | ⟨s₄, ms', hr, hm, rfl⟩
      · exact ⟨tail_from hr h₃, hkey, hval, trivial⟩
      · obtain ⟨h₄, hrest⟩ := ihm hm (skipWs_from rfl (tail_from hr h₃))
        exact ⟨h₄, hkey, hval, hrest⟩
    · intro k s vs r h hs
      rw [readElems_ok] at h
      obtain ⟨v, s₁, hv, h⟩ := h
      obtain ⟨h₁, hval⟩ := ihv hv hs
      rcases h with ⟨hr, rfl⟩ | ⟨s₂, xs', hr, he, rfl⟩
      · exact ⟨tail_from hr h₁, hval, trivial⟩
      · obtain ⟨h₂, hrest⟩ := ihe he (skipWs_from rfl (tail_from hr h₁))
        exact ⟨h₂, hval, hrest⟩

theorem readFirst_from {d : Dialect} {s r : Text} {v : Tree} (h : readFirst d s = .ok (v, r))
    (hs : ∀ c ∈ s, Q c) : (∀ c ∈ r, Q c) ∧ v.Has (readFrom Q d) :=
  (read_from d _).1 h (skipWs_from rfl hs)

end

section Conversion

variable {ν : Type} {c c' : Contents}

mutual

theorem ofTree_all {rd : Reading ν} {p : Test ν} (hn : ∀ lit, c.num lit → p.num (rd.num lit) = true)
    (hc : c.const → ∀ name, p.num (rd.const name) = true)
    (hs : ∀ us, (∀ u ∈ us, c.unit u) → p.str (rd.str us) = true ∧ p.key (rd.str us) = true)
    (t : Tree) (h : t.Has c) : (ofTree rd t).all p = true := by
  cases t with
  | null => rfl
  | bool b => rfl
  | num lit => exact hn lit h
  | const name => exact hc h name
  | str us => exact (hs us h).1
  | arr xs => exact ofTrees_all hn hc hs xs h
  | obj ms => exact allMembers_dictOf p (ofMembers_all hn hc hs ms h)

theorem ofTrees_all {rd : Reading ν} {p : Test ν} (hn : ∀ lit, c.num lit → p.num (rd.num lit) = true)
    (hc : c.const → ∀ name, p.num (rd.const name) = true)
    (hs : ∀ us, (∀ u ∈ us, c.unit u) → p.str (rd.str us) = true ∧ p.key (rd.str us) = true)
    (xs : List Tree) (h : treesHave c xs) : allList p (ofTrees rd xs) = true := by
  cases xs with
  | nil => rfl
  | cons x xs => simp [ofTrees, allList, ofTree_all hn hc hs x h.1, ofTrees_all hn hc hs xs h.2]

theorem ofMembers_all {rd : Reading ν} {p : Test ν} (hn : ∀ lit, c.num lit → p.num (rd.num lit) = true)
    (hc : c.const → ∀ name, p.num (rd.const name) = true)
    (hs : ∀ us, (∀ u ∈ us, c.unit u) → p.str (rd.str us) = true ∧ p.key (rd.str us) = true)
    (ms : List (List StrUnit × Tree)) (h : membersHave c ms) : allMembers p (ofMembers rd ms) = true := by
  cases ms with
  | nil => rfl
  | cons m ms =>
    obtain ⟨k, v⟩ := m
    simp [ofMembers, allMembers, (hs k h.1).2, ofTree_all hn hc hs v h.2.1, ofMembers_all hn hc hs ms h.2.2]

end

mutual

theorem has_and (t : Tree) (h : t.Has c) (h' : t.Has c') :
    t.Has ⟨fun lit => c.num lit ∧ c'.num lit, c.const ∧ c'.const, fun u => c.unit u ∧ c'.unit u⟩ := by
  cases t with
  | null => trivial
  | bool b => trivial
  | num lit => exact ⟨h, h'⟩
  | const name => exact ⟨h, h'⟩
  | str us => exact fun u hu => ⟨h u hu, h' u hu⟩
  | arr xs => exact treesHave_and xs h h'
  | obj ms => exact membersHave_and ms h h'

theorem treesHave_and (xs : List Tree) (h : treesHave c xs) (h' : treesHave c' xs) :
    treesHave ⟨fun lit => c.num lit ∧ c'.num lit, c.const ∧ c'.const, fun u => c.unit u ∧ c'.unit u⟩ xs := by
  cases xs with
  | nil => trivial
  | cons x xs => exact ⟨has_and x h.1 h'.1, treesHave_and xs h.2 h'.2⟩

theorem membersHave_and (ms : List (List StrUnit × Tree)) (h : membersHave c ms) (h' : membersHave c' ms) :
    membersHave ⟨fun lit => c.num lit ∧ c'.num lit, c.const ∧ c'.const, fun u => c.unit u ∧ c'.unit u⟩ ms := by
  cases ms with
  | nil => trivial
  | cons m ms =>
    obtain ⟨k, v⟩ := m
    exact ⟨fun u hu => ⟨h.1 u hu, h'.1 u hu⟩, has_and v h.2.1 h'.2.1, membersHave_and ms h.2.2 h'.2.2⟩

end

mutual

theorem has_mono (hn : ∀ lit, c.num lit → c'.num lit) (hc : c.const → c'.const)
    (hu : ∀ u, c.unit u → c'.unit u) (t : Tree) (h : t.Has c) : t.Has c' := by
  cases t with
  | null => trivial
  | bool b => trivial
  | num lit => exact hn lit h
  | const name => exact hc h
  | str us => exact fun u hx => hu u (h u hx)
  | arr xs => exact treesHave_mono hn hc hu xs h
  | obj ms => exact membersHave_mono hn hc hu ms h

theorem treesHave_mono (hn : ∀ lit, c.num lit → c'.num lit) (hc : c.const → c'.const)
    (hu : ∀ u, c.unit u → c'.unit u) (xs : List Tree) (h : treesHave c xs) : treesHave c' xs := by
  cases xs with
  | nil => trivial
  | cons x xs => exact ⟨has_mono hn hc hu x h.1, treesHave_mono hn hc hu xs h.2⟩

theorem membersHave_mono (hn : ∀ lit, c.num lit → c'.num lit) (hc : c.const → c'.const)
    (hu : ∀ u, c.unit u → c'.unit u) (ms : List (List StrUnit × Tree)) (h : membersHave c ms) :
    membersHave c' ms := by
  cases ms with
  | nil => trivial
  | cons m ms =>
    obtain ⟨k, v⟩ := m
    exact ⟨fun u hx => hu u (h.1 u hx), has_mono hn hc hu v h.2.1, membersHave_mono hn hc hu ms h.2.2⟩

end

end Conversion

end Library.Json
