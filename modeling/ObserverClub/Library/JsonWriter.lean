import Mathlib.Data.List.Sort
import Mathlib.Data.List.Lex
import ObserverClub.Library.Decimal
import ObserverClub.Library.JsonValue

namespace Library.Json

variable {ν β : Type}

/-- How an implementation writes the parts of a value, and in which order the members. -/
structure Writer (ν β : Type) where
  symbol : ℕ → β
  num : ν → List β
  str : Text → List β
  key : Text → List β
  arrange : List (Text × List β) → List (Text × List β)

namespace Writer

def word (w : Writer ν β) (s : String) : List β := (txt s).map w.symbol

def commas (w : Writer ν β) : List (List β) → List β
  | [] => []
  | [p] => p
  | p :: ps => p ++ w.symbol 44 :: commas w ps

def member (w : Writer ν β) (m : Text × List β) : List β := w.key m.1 ++ w.symbol 58 :: m.2

mutual

def render (w : Writer ν β) : Json ν → List β
  | .null => w.word "null"
  | .bool b => if b then w.word "true" else w.word "false"
  | .num n => w.num n
  | .str t => w.str t
  | .arr xs => w.symbol 91 :: w.commas (renderList w xs) ++ [w.symbol 93]
  | .obj ms => w.symbol 123 :: w.commas ((w.arrange (renderMembers w ms)).map w.member) ++ [w.symbol 125]

def renderList (w : Writer ν β) : List (Json ν) → List (List β)
  | [] => []
  | x :: xs => render w x :: renderList w xs

def renderMembers (w : Writer ν β) : List (Text × Json ν) → List (Text × List β)
  | [] => []
  | (k, v) :: ms => (k, render w v) :: renderMembers w ms

end

section Contents

variable {Q : β → Prop} {w : Writer ν β} {p : Test ν}

/-- Symbols, tokens and their order stay within `Q`. -/
structure Within (Q : β → Prop) (w : Writer ν β) (p : Test ν) : Prop where
  symbol : ∀ c, 32 < c ∧ c < 128 → Q (w.symbol c)
  num : ∀ n, p.num n = true → ∀ b ∈ w.num n, Q b
  str : ∀ t, p.str t = true → ∀ b ∈ w.str t, Q b
  key : ∀ t, p.key t = true → ∀ b ∈ w.key t, Q b
  arrange : ∀ ms, ∀ m ∈ w.arrange ms, m ∈ ms

theorem Within.commas (hw : Within Q w p) (ps : List (List β)) (h : ∀ a ∈ ps, ∀ b ∈ a, Q b) :
    ∀ b ∈ w.commas ps, Q b := by
  induction ps with
  | nil => simp [Writer.commas]
  | cons a ps ih =>
    cases ps with
    | nil => simpa [Writer.commas] using h
    | cons a' ps =>
      have ih := ih (fun x hx => h x (by simp [hx]))
      intro b hb
      simp only [Writer.commas, List.mem_append, List.mem_cons] at hb ih
      rcases hb with hb | rfl | hb
      · exact h a (by simp) b hb
      · exact hw.symbol 44 (by decide)
      · exact ih b hb

theorem Within.bracket (hw : Within Q w p) {c d : ℕ} (hc : 32 < c ∧ c < 128) (hd : 32 < d ∧ d < 128) {a : List β}
    (h : ∀ b ∈ a, Q b) :
    ∀ b ∈ w.symbol c :: a ++ [w.symbol d], Q b := by
  intro b hb
  simp only [List.cons_append, List.mem_cons, List.mem_append, List.not_mem_nil, or_false] at hb
  rcases hb with rfl | hb | rfl
  · exact hw.symbol c hc
  · exact h b hb
  · exact hw.symbol d hd

theorem Within.word (hw : Within Q w p) (s : String) (hs : ∀ c ∈ txt s, 32 < c ∧ c < 128) : ∀ b ∈ w.word s, Q b := by
  intro b hb
  simp only [Writer.word, List.mem_map] at hb
  obtain ⟨c, hc, rfl⟩ := hb
  exact hw.symbol c (hs c hc)

mutual

theorem Within.render (hw : Within Q w p) (v : Json ν) (hv : v.all p = true) : ∀ b ∈ w.render v, Q b := by
  cases v with
  | null => exact hw.word "null" (by decide)
  | bool b => cases b <;> exact hw.word _ (by decide)
  | num n => exact hw.num n hv
  | str t => exact hw.str t hv
  | arr xs => exact hw.bracket (by decide) (by decide) (hw.commas _ (Within.renderList hw xs hv))
  | obj ms =>
    refine hw.bracket (by decide) (by decide) (hw.commas _ fun a ha => ?_)
    obtain ⟨m, hm, rfl⟩ := List.mem_map.mp ha
    obtain ⟨hk, hr⟩ := Within.renderMembers hw ms hv m (hw.arrange _ m hm)
    intro b hb
    simp only [Writer.member, List.mem_append, List.mem_cons] at hb
    rcases hb with hb | rfl | hb
    · exact hw.key _ hk b hb
    · exact hw.symbol 58 (by decide)
    · exact hr b hb

theorem Within.renderList (hw : Within Q w p) (xs : List (Json ν)) (hxs : allList p xs = true) :
    ∀ a ∈ w.renderList xs, ∀ b ∈ a, Q b := by
  cases xs with
  | nil => simp [Writer.renderList]
  | cons x xs =>
    simp only [allList, Bool.and_eq_true] at hxs
    rw [Writer.renderList, List.forall_mem_cons]
    exact ⟨Within.render hw x hxs.1, Within.renderList hw xs hxs.2⟩

theorem Within.renderMembers (hw : Within Q w p) (ms : List (Text × Json ν)) (hms : allMembers p ms = true) :
    ∀ m ∈ w.renderMembers ms, p.key m.1 = true ∧ ∀ b ∈ m.2, Q b := by
  cases ms with
  | nil => simp [Writer.renderMembers]
  | cons m ms =>
    obtain ⟨k, v⟩ := m
    simp only [allMembers, Bool.and_eq_true] at hms
    rw [Writer.renderMembers, List.forall_mem_cons]
    exact ⟨⟨hms.1.1, Within.render hw v hms.1.2⟩, Within.renderMembers hw ms hms.2⟩

end

end Contents

end Writer

def sortKeys {α : Type} (lt : Text → Text → Prop) [DecidableRel lt] (ms : List (Text × α)) : List (Text × α) :=
  ms.insertionSort (fun a b => ¬lt b.1 a.1)

/-- A `\u` escape in lower-case hexadecimal. -/
def hexEscape (c : ℕ) : Text :=
  [92, 117, hexDigit (c / 4096 % 16), hexDigit (c / 256 % 16), hexDigit (c / 16 % 16), hexDigit (c % 16)]

/-- The escape of a quote, a backslash or a control character. -/
def basicEscape (c : ℕ) : Option Text :=
  if c = 34 then some [92, 34]
  else if c = 92 then some [92, 92]
  else if c = 8 then some [92, 98]
  else if c = 12 then some [92, 102]
  else if c = 10 then some [92, 110]
  else if c = 13 then some [92, 114]
  else if c = 9 then some [92, 116]
  else if c < 32 then some (hexEscape c)
  else none

theorem basicEscape_cases (c : ℕ) :
    (∃ e, basicEscape c = some [92, e] ∧ e ≠ 117 ∧ (e = 92 → c = 92) ∧ e < 128) ∨
      (basicEscape c = some (hexEscape c) ∧ c < 32) ∨
      (basicEscape c = none ∧ 32 ≤ c ∧ c ≠ 34 ∧ c ≠ 92) := by
  generalize ho : basicEscape c = o
  unfold basicEscape at ho
  split_ifs at ho with h34 h92 h8 h12 h10 h13 h9 h32 <;> subst ho
  · exact .inl ⟨34, rfl, by omega⟩
  · exact .inl ⟨92, rfl, by omega⟩
  · exact .inl ⟨98, rfl, by omega⟩
  · exact .inl ⟨102, rfl, by omega⟩
  · exact .inl ⟨110, rfl, by omega⟩
  · exact .inl ⟨114, rfl, by omega⟩
  · exact .inl ⟨116, rfl, by omega⟩
  · exact .inr (.inl ⟨rfl, h32⟩)
  · exact .inr (.inr ⟨rfl, by omega, h34, h92⟩)

end Library.Json
