import ObserverClub.Library.JsonLimits
import ObserverClub.Library.JsonAgreement

namespace Library.Json

section Strings

def quoted (t : Text) : Text := 34 :: t.flatMap (fun c => (basicEscape c).getD [c]) ++ [34]

def unitOf (c : ℕ) : StrUnit := if basicEscape c = some (hexEscape c) then .esc c else .char c

theorem simpleEscape_of_basicEscape {c e : ℕ} (h : basicEscape c = some [92, e]) : simpleEscape e = some c := by
  unfold basicEscape at h
  split_ifs at h <;> simp only [hexEscape, Option.some.injEq, List.cons.injEq, reduceCtorEq, true_and, and_true,
    and_false] at h <;> subst_vars <;> rfl

theorem hexValue_hexDigit {n : ℕ} (h : n < 16) : hexValue (hexDigit n) = some n := by
  interval_cases n <;> rfl

theorem hex4_hexDigit {c : ℕ} (h : c < 0x10000) :
    hex4 (hexDigit (c / 4096 % 16)) (hexDigit (c / 256 % 16)) (hexDigit (c / 16 % 16)) (hexDigit (c % 16)) =
      some c := by
  have digit : ∀ n, hexValue (hexDigit (n % 16)) = some (n % 16) := fun n => hexValue_hexDigit (by omega)
  rw [hex4, digit, digit, digit, digit]
  simp only [Option.some.injEq]
  omega

theorem readString_short {c e : ℕ} {s r : Text} {us : List StrUnit} (he : e ≠ 117) (hc : simpleEscape e = some c)
    (h : readString s = some (us, r)) : readString (92 :: e :: s) = some (.char c :: us, r) := by
  rw [readString.eq_4 e s (fun _ _ _ _ _ h _ => he h)]
  simp only [hc, h]

theorem readString_hex {c : ℕ} {s r : Text} {us : List StrUnit} (hc : c < 0x10000) (h : readString s = some (us, r)) :
    readString (hexEscape c ++ s) = some (.esc c :: us, r) := by
  rw [hexEscape]
  simp only [List.cons_append, List.nil_append, readString, hex4_hexDigit hc, h]

theorem readString_char {c : ℕ} {s r : Text} {us : List StrUnit} (h32 : 32 ≤ c) (h34 : c ≠ 34) (h92 : c ≠ 92)
    (h : readString s = some (us, r)) : readString (c :: s) = some (.char c :: us, r) := by
  rw [readString.eq_5 c s h34 (fun _ _ _ _ _ hc _ => h92 hc) (fun _ _ hc _ => h92 hc)]
  rw [if_neg (by omega), h]

structure Spelling (spell : ℕ → Text) (units : ℕ → StrUnit) : Prop where
  read : ∀ c {s r us}, readString s = some (us, r) → readString (spell c ++ s) = some (units c :: us, r)
  form : ∀ c, units c = .char c ∨ units c = .esc c ∧ (c < 0xD800 ∨ 0xE000 ≤ c)

section Spelling

variable {spell : ℕ → Text} {units : ℕ → StrUnit}

theorem Spelling.readString (hs : Spelling spell units) (t r : Text) :
    Json.readString (t.flatMap spell ++ 34 :: r) = some (t.map units, r) := by
  induction t with
  | nil => rfl
  | cons c t ih =>
    rw [List.flatMap_cons, List.map_cons, List.append_assoc]
    exact hs.read c ih

theorem Spelling.unescape (hs : Spelling spell units) (lone : ℕ → ℕ) (t : Text) : Json.unescape lone (t.map units) = t := by
  induction t with
  | nil => rfl
  | cons c t ih =>
    rw [List.map_cons]
    obtain h | ⟨h, hc⟩ := hs.form c
    · rw [h, Json.unescape, ih]
    · rw [h]
      cases t with
      | nil =>
        rw [List.map_nil, Json.unescape.eq_4 _ _ _ (by simp), if_neg (by omega)]
        rfl
      | cons c' t =>
        rw [List.map_cons] at ih ⊢
        obtain h' | ⟨h', -⟩ := hs.form c'
        · rw [h'] at ih ⊢
          rw [Json.unescape.eq_4 _ _ _ (by simp), if_neg (by omega), ih]
        · rw [h'] at ih ⊢
          rw [Json.unescape, if_neg (by omega), if_neg (by omega), ih]

end Spelling

theorem unitOf_spelling : Spelling (fun c => (basicEscape c).getD [c]) unitOf where
  read c s r us hread := by
    rcases basicEscape_cases c with ⟨e, h, h117, -⟩ | ⟨h, hc⟩ | ⟨h, h32, h34, h92⟩
    · have hu : unitOf c = .char c := by
        rw [unitOf, h, if_neg]
        simp [hexEscape]
      rw [h, hu]
      exact readString_short h117 (simpleEscape_of_basicEscape h) hread
    · have hu : unitOf c = .esc c := by rw [unitOf, if_pos h]
      rw [h, hu]
      exact readString_hex (by omega) hread
    · have hu : unitOf c = .char c := by
        rw [unitOf, h, if_neg]
        simp
      rw [h, hu]
      exact readString_char h32 h34 h92 hread
  form c := by
    rcases basicEscape_cases c with ⟨e, h, -⟩ | ⟨h, hc⟩ | ⟨h, -⟩
    · exact .inl (by rw [unitOf, h, if_neg (by simp [hexEscape])])
    · exact .inr ⟨by rw [unitOf, if_pos h], by omega⟩
    · exact .inl (by rw [unitOf, h, if_neg (by simp)])

end Strings

section Numbers

/-- Nothing in `r` continues a number. -/
def NumberEnds (r : Text) : Prop := ∀ c ∈ r.head?, isNumberChar c = false

theorem span_digits {ds r : Text} (hd : ∀ c ∈ ds, isDigit c = true) (hr : ∀ c ∈ r.head?, isDigit c = false) :
    (ds ++ r).takeWhile isDigit = ds ∧ (ds ++ r).dropWhile isDigit = r := by
  have hrest : r.takeWhile isDigit = [] ∧ r.dropWhile isDigit = r := by
    cases r with
    | nil => exact ⟨rfl, rfl⟩
    | cons c r => simp [hr c (by simp)]
  rw [List.takeWhile_append_of_pos hd, List.dropWhile_append_of_pos hd, hrest.1, hrest.2, List.append_nil]
  exact ⟨rfl, rfl⟩

structure IntPart (i : Text) : Prop where
  digits : ∀ c ∈ i, isDigit c = true
  nonempty : i ≠ []
  leading : i.head? = some 48 → i = [48]

def FracPart (f : Text) : Prop := f = [] ∨ ∃ ds, f = 46 :: ds ∧ ds ≠ [] ∧ ∀ c ∈ ds, isDigit c = true

def ExpPart (e : Text) : Prop :=
  e = [] ∨ ∃ g ds, e = 101 :: g :: ds ∧ (g = 43 ∨ g = 45) ∧ ds ≠ [] ∧ ∀ c ∈ ds, isDigit c = true

theorem readInt_part {i r : Text} (h : IntPart i) (hr : ∀ c ∈ r.head?, isDigit c = false) :
    readInt (i ++ r) = some (i, r) := by
  obtain ⟨c, ds, rfl⟩ := List.exists_cons_of_ne_nil h.nonempty
  have hds := h.digits
  rw [List.forall_mem_cons] at hds
  by_cases h0 : c = 48
  · subst h0
    have := h.leading rfl
    rw [List.cons.injEq] at this
    rw [this.2]
    rfl
  · obtain ⟨h₁, h₂⟩ := span_digits hds.2 hr
    rw [List.cons_append, readInt, if_neg h0, if_pos hds.1, h₁, h₂]

theorem readDigits_part {ds r : Text} (hne : ds ≠ []) (hd : ∀ c ∈ ds, isDigit c = true)
    (hr : ∀ c ∈ r.head?, isDigit c = false) : readDigits (ds ++ r) = some (ds, r) := by
  obtain ⟨h₁, h₂⟩ := span_digits hd hr
  rw [readDigits, h₁, h₂, if_neg hne]

theorem readFrac_part {f r : Text} (h : FracPart f) (hr : ∀ c ∈ r.head?, isDigit c = false ∧ c ≠ 46) :
    readFrac (f ++ r) = some (f, r) := by
  obtain rfl | ⟨ds, rfl, hne, hd⟩ := h
  · rw [List.nil_append]
    refine readFrac.eq_2 r ?_
    rintro s rfl
    exact (hr 46 (by simp)).2 rfl
  · rw [List.cons_append, readFrac, readDigits_part hne hd (fun c hc => (hr c hc).1)]
    rfl

theorem readExp_part {e r : Text} (h : ExpPart e) (hr : NumberEnds r) : readExp (e ++ r) = some (e, r) := by
  have hdigit : ∀ c ∈ r.head?, isDigit c = false := by
    intro c hc
    have := hr c hc
    simp only [isNumberChar, Bool.or_eq_false_iff] at this
    exact this.1.1.1.1.1
  obtain rfl | ⟨g, ds, rfl, hg, hne, hd⟩ := h
  · rw [List.nil_append]
    cases r with
    | nil => rfl
    | cons c r =>
      have := hr c (by simp)
      simp only [isNumberChar, Bool.or_eq_false_iff, beq_eq_false_iff_ne] at this
      cases r with
      | nil => rw [readExp, if_neg (by omega)]
      | cons d r => rw [readExp, if_neg (by omega)]
  · simp only [List.cons_append, readExp, true_or, if_true, if_pos hg, readDigits_part hne hd hdigit]
    rfl

theorem readNumber_join {i f e r : Text} (neg : Bool) (hi : IntPart i) (hf : FracPart f)
    (he : readExp (e ++ r) = some (e, r)) (hr : ∀ c ∈ (e ++ r).head?, isDigit c = false ∧ c ≠ 46) :
    readNumber ((if neg then [45] else []) ++ i ++ f ++ e ++ r) = some ((if neg then [45] else []) ++ i ++ f ++ e, r) := by
  have hsign : readSign ((if neg then [45] else []) ++ (i ++ (f ++ (e ++ r)))) =
      (if neg then [45] else [], i ++ (f ++ (e ++ r))) := by
    cases neg with
    | true => rfl
    | false =>
      obtain ⟨c, ds, rfl⟩ := List.exists_cons_of_ne_nil hi.nonempty
      have hc := hi.digits c (by simp)
      refine readSign.eq_2 _ ?_
      rintro s h
      obtain rfl : c = 45 := (List.cons.inj h).1
      simp [isDigit] at hc
  have hf' : ∀ c ∈ (f ++ (e ++ r)).head?, isDigit c = false := by
    obtain rfl | ⟨ds, rfl, -⟩ := hf
    · exact fun c hc => (hr c hc).1
    · simp [isDigit]
  simp only [List.append_assoc]
  rw [readNumber, hsign]
  simp only [readInt_part hi hf', readFrac_part hf hr, he, List.append_assoc]

theorem NumberEnds.no_digit {r : Text} (hr : NumberEnds r) : ∀ c ∈ r.head?, isDigit c = false ∧ c ≠ 46 := by
  intro c hc
  have := hr c hc
  simp only [isNumberChar, Bool.or_eq_false_iff, beq_eq_false_iff_ne] at this
  exact ⟨this.1.1.1.1.1, this.1.1.2⟩

theorem readNumber_parts {i f e r : Text} (neg : Bool) (hi : IntPart i) (hf : FracPart f) (he : ExpPart e)
    (hr : NumberEnds r) :
    readNumber ((if neg then [45] else []) ++ i ++ f ++ e ++ r) = some ((if neg then [45] else []) ++ i ++ f ++ e, r) := by
  apply readNumber_join neg hi hf (readExp_part he hr)
  obtain rfl | ⟨g, ds, rfl, -⟩ := he
  · exact hr.no_digit
  · simp [isDigit]

section Again

variable {s i r r' : Text}

theorem readInt_intPart (h : readInt s = some (i, r)) : IntPart i := by
  unfold readInt at h
  split at h
  · cases h
  · split_ifs at h with h0 hd <;> simp only [Option.some.injEq, Prod.mk.injEq] at h <;> obtain ⟨rfl, -⟩ := h
    · exact ⟨by simp [isDigit], by simp, fun _ => rfl⟩
    · refine ⟨?_, by simp, fun he => absurd (by simpa using he) h0⟩
      rw [List.forall_mem_cons]
      exact ⟨hd, fun c hc => List.mem_takeWhile_imp hc⟩

theorem readDigits_digits (h : readDigits s = some (i, r)) : i ≠ [] ∧ ∀ c ∈ i, isDigit c = true := by
  unfold readDigits at h
  split_ifs at h with hne
  simp only [Option.some.injEq, Prod.mk.injEq] at h
  obtain ⟨rfl, -⟩ := h
  exact ⟨hne, fun c hc => List.mem_takeWhile_imp hc⟩

theorem readFrac_fracPart (h : readFrac s = some (i, r)) : FracPart i := by
  unfold readFrac at h
  split at h
  · simp only [Option.map_eq_some_iff, Prod.exists, Prod.mk.injEq] at h
    obtain ⟨ds, r', hd, rfl, rfl⟩ := h
    obtain ⟨hne, hall⟩ := readDigits_digits hd
    exact .inr ⟨ds, rfl, hne, hall⟩
  · simp only [Option.some.injEq, Prod.mk.injEq] at h
    exact .inl h.1.symm

theorem readExp_again (h : readExp s = some (i, r)) (hr : NumberEnds r') : readExp (i ++ r') = some (i, r') ∧
    ∀ c ∈ (i ++ r').head?, isDigit c = false ∧ c ≠ 46 := by
  have hnone : readExp ([] ++ r') = some ([], r') := readExp_part (.inl rfl) hr
  unfold readExp at h
  split at h
  · simp only [Option.some.injEq, Prod.mk.injEq] at h
    rw [← h.1]
    exact ⟨hnone, hr.no_digit⟩
  · rename_i e t
    split_ifs at h with he
    · have hhead : isDigit e = false ∧ e ≠ 46 := by
        rcases he with rfl | rfl <;> decide
      split at h
      · cases h
      · rename_i g u
        split_ifs at h with hg
        all_goals
          simp only [Option.map_eq_some_iff, Prod.exists, Prod.mk.injEq] at h
          obtain ⟨ds, _, hd, rfl, -⟩ := h
          obtain ⟨hne, hall⟩ := readDigits_digits hd
          have hagain := readDigits_part hne hall (fun c hc => (hr.no_digit c hc).1)
        · refine ⟨?_, by simpa using hhead⟩
          simp only [List.cons_append, readExp, if_pos he, if_pos hg, hagain]
          rfl
        · obtain ⟨d, ds, rfl⟩ := List.exists_cons_of_ne_nil hne
          have hdigit := hall d List.mem_cons_self
          have hsign : ¬(d = 43 ∨ d = 45) := by
            rintro (rfl | rfl) <;> cases hdigit
          refine ⟨?_, by simpa using hhead⟩
          rw [List.cons_append] at hagain
          simp only [List.cons_append, readExp, if_pos he, if_neg hsign, hagain]
          rfl
    · simp only [Option.some.injEq, Prod.mk.injEq] at h
      rw [← h.1]
      exact ⟨hnone, hr.no_digit⟩

theorem readNumber_again (h : readNumber s = some (i, r)) (hr : NumberEnds r') : readNumber (i ++ r') = some (i, r') := by
  have hsign : ∃ neg : Bool, (readSign s).1 = if neg then [45] else [] := by
    unfold readSign
    split
    · exact ⟨true, rfl⟩
    · exact ⟨false, rfl⟩
  obtain ⟨neg, hneg⟩ := hsign
  unfold readNumber at h
  split at h
  · cases h
  · rename_i j s₁ hj
    split at h
    · cases h
    · rename_i f s₂ hf
      split at h
      · cases h
      · rename_i e s₃ he
        simp only [Option.some.injEq, Prod.mk.injEq] at h
        obtain ⟨rfl, -⟩ := h
        obtain ⟨hagain, hhead⟩ := readExp_again he hr
        rw [hneg]
        exact readNumber_join neg (readInt_intPart hj) (readFrac_fracPart hf) hagain hhead

end Again

end Numbers

section Values

variable {ν : Type}

mutual

def treeBy (units : ℕ → StrUnit) (token : ν → Tree) : Json ν → Tree
  | .null => .null
  | .bool b => .bool b
  | .num n => token n
  | .str t => .str (t.map units)
  | .arr xs => .arr (treesBy units token xs)
  | .obj ms => .obj (membersBy units token ms)

def treesBy (units : ℕ → StrUnit) (token : ν → Tree) : List (Json ν) → List Tree
  | [] => []
  | x :: xs => treeBy units token x :: treesBy units token xs

def membersBy (units : ℕ → StrUnit) (token : ν → Tree) : List (Text × Json ν) → List (List StrUnit × Tree)
  | [] => []
  | (k, v) :: ms => (k.map units, treeBy units token v) :: membersBy units token ms

end

mutual

def treeOf (token : ν → Tree) : Json ν → Tree
  | .null => .null
  | .bool b => .bool b
  | .num n => token n
  | .str t => .str (t.map unitOf)
  | .arr xs => .arr (treesOf token xs)
  | .obj ms => .obj (membersOf token ms)

def treesOf (token : ν → Tree) : List (Json ν) → List Tree
  | [] => []
  | x :: xs => treeOf token x :: treesOf token xs

def membersOf (token : ν → Tree) : List (Text × Json ν) → List (List StrUnit × Tree)
  | [] => []
  | (k, v) :: ms => (k.map unitOf, treeOf token v) :: membersOf token ms

end

structure Spelled (d : Dialect) (spell : ℕ → Text) (units : ℕ → StrUnit) (token : ν → Tree) (p : Test ν) (w : Writer ν ℕ) :
    Prop extends Spelling spell units where
  symbol : ∀ c, w.symbol c = c
  num : ∀ n, p.num n = true → ∃ c s, w.num n = c :: s ∧ c ≠ 34 ∧ c ≠ 91 ∧ c ≠ 93 ∧ c ≠ 123 ∧ isWs c = false ∧
    ∀ r, NumberEnds r → readScalar d c (s ++ r) = .ok (token n, r)
  str : ∀ t, w.str t = 34 :: t.flatMap spell ++ [34]
  key : ∀ t, w.key t = 34 :: t.flatMap spell ++ [34]
  arrange : ∀ ms, w.arrange ms = ms

section Spelled

variable {d : Dialect} {spell : ℕ → Text} {units : ℕ → StrUnit} {token : ν → Tree} {p : Test ν} {w : Writer ν ℕ}

theorem Spelled.word (hw : Spelled d spell units token p w) (s : String) : w.word s = txt s := by
  rw [Writer.word, funext hw.symbol, List.map_id']

theorem Spelled.head (hw : Spelled d spell units token p w) (v : Json ν) (hv : v.all p = true) :
    ∃ c s, w.render v = c :: s ∧ c ≠ 93 ∧ isWs c = false := by
  cases v with
  | null => exact ⟨110, txt "ull", hw.word "null", by decide, by decide⟩
  | bool b =>
    cases b with
    | true => exact ⟨116, txt "rue", hw.word "true", by decide, by decide⟩
    | false => exact ⟨102, txt "alse", hw.word "false", by decide, by decide⟩
  | num n =>
    obtain ⟨c, s, hc, -, -, h93, -, hws, -⟩ := hw.num n hv
    exact ⟨c, s, hc, h93, hws⟩
  | str t => exact ⟨34, _, hw.str t, by decide, by decide⟩
  | arr xs => exact ⟨91, _, by rw [Writer.render, hw.symbol 91]; rfl, by decide, by decide⟩
  | obj ms => exact ⟨123, _, by rw [Writer.render, hw.symbol 123]; rfl, by decide, by decide⟩

theorem skipWs_cons {c : ℕ} (h : isWs c = false) (s : Text) : skipWs (c :: s) = c :: s := by
  simp [skipWs, h]

theorem Spelled.skip (hw : Spelled d spell units token p w) (v : Json ν) (hv : v.all p = true) (r : Text) :
    skipWs (w.render v ++ r) = w.render v ++ r := by
  obtain ⟨c, s, hc, -, hws⟩ := hw.head v hv
  rw [hc, List.cons_append, skipWs_cons hws]

theorem numberEnds_cons {c : ℕ} (h : isNumberChar c = false) (r : Text) : NumberEnds (c :: r) := by
  intro b hb
  obtain rfl : c = b := by simpa using hb
  exact h

theorem readScalar_word (d : Dialect) {c : ℕ} {s : Text} {t : Tree} (r : Text)
    (h : keywordAt d c (s ++ r) = some (c :: s, t)) : readScalar d c (s ++ r) = .ok (t, r) := by
  rw [readScalar, h]
  simp only
  rw [← List.cons_append, stripPrefix_append]

theorem Spelled.commas_cons (hw : Spelled d spell units token p w) (p : Text) (ps : List Text) (hne : ps ≠ []) :
    w.commas (p :: ps) = p ++ 44 :: w.commas ps := by
  obtain ⟨q, qs, rfl⟩ := List.exists_cons_of_ne_nil hne
  rw [Writer.commas.eq_3 _ _ _ (by simp), hw.symbol 44]

mutual

theorem Spelled.readValue (hw : Spelled d spell units token p w) (v : Json ν) (hv : v.all p = true) (f k : ℕ) (r : Text)
    (hd : v.depth ≤ k)
    (hf : 2 * (w.render v).length ≤ f) (hr : NumberEnds r) :
    Json.readValue d f k (w.render v ++ r) = .ok (treeBy units token v, r) := by
  obtain ⟨c₀, s₀, hc₀, -⟩ := hw.head v hv
  obtain ⟨f, rfl⟩ : ∃ g, f = g + 1 := ⟨f - 1, by rw [hc₀, List.length_cons] at hf; omega⟩
  rw [readValue_ok]
  cases v with
  | null =>
    refine .inr (.inr (.inr ⟨110, txt "ull" ++ r, ?_, by decide, by decide, by decide, readScalar_word d r rfl⟩))
    rw [Writer.render, hw.word]
    rfl
  | bool b =>
    cases b with
    | true =>
      refine .inr (.inr (.inr ⟨116, txt "rue" ++ r, ?_, by decide, by decide, by decide, readScalar_word d r rfl⟩))
      rw [Writer.render, hw.word]
      rfl
    | false =>
      refine .inr (.inr (.inr ⟨102, txt "alse" ++ r, ?_, by decide, by decide, by decide, readScalar_word d r rfl⟩))
      simp only [Writer.render, hw.word]
      rfl
  | num n =>
    obtain ⟨c, s, hc, h34, h91, -, h123, -, hread⟩ := hw.num n hv
    refine .inr (.inr (.inr ⟨c, s ++ r, ?_, h34, h123, h91, hread r hr⟩))
    rw [Writer.render, hc]
    rfl
  | str t =>
    refine .inl ⟨_, _, ?_, hw.readString t r, rfl⟩
    rw [Writer.render, hw.str]
    simp
  | arr xs =>
    obtain ⟨k, rfl⟩ : ∃ j, k = j + 1 := ⟨k - 1, by rw [depth] at hd; omega⟩
    have htext : w.render (.arr xs) = 91 :: (w.commas (w.renderList xs) ++ [93]) := by
      rw [Writer.render, hw.symbol 91, hw.symbol 93]
      rfl
    rw [htext] at hf ⊢
    refine .inr (.inr (.inl ⟨w.commas (w.renderList xs) ++ 93 :: r, k, by simp, rfl, ?_⟩))
    cases xs with
    | nil => exact .inl ⟨rfl, rfl⟩
    | cons x xs =>
      have hall : allList p (x :: xs) = true := hv
      have hx : x.all p = true := (Bool.and_eq_true_iff.mp hall).1
      obtain ⟨c, s, hc, h93, hws⟩ := hw.head x hx
      have hstart : ∃ t, w.commas (w.renderList (x :: xs)) ++ 93 :: r = c :: t := by
        rw [Writer.renderList, hc]
        cases xs with
        | nil => exact ⟨_, rfl⟩
        | cons y ys => exact ⟨_, rfl⟩
      obtain ⟨t, ht⟩ := hstart
      have hread := hw.readElems (x :: xs) hall f k r (by simp) (by rw [depth] at hd; omega)
        (by simp only [List.length_cons, List.length_append, List.length_nil] at hf; omega)
      rw [ht] at hread ⊢
      exact .inr ⟨c, t, _, skipWs_cons hws t, h93, hread, rfl⟩
  | obj ms =>
    obtain ⟨k, rfl⟩ : ∃ j, k = j + 1 := ⟨k - 1, by rw [depth] at hd; omega⟩
    have htext : w.render (.obj ms) = 123 :: (w.commas ((w.renderMembers ms).map w.member) ++ [125]) := by
      rw [Writer.render, hw.symbol 123, hw.symbol 125, hw.arrange]
      rfl
    rw [htext] at hf ⊢
    refine .inr (.inl ⟨w.commas ((w.renderMembers ms).map w.member) ++ 125 :: r, k, by simp, rfl, ?_⟩)
    cases ms with
    | nil => exact .inl ⟨rfl, rfl⟩
    | cons m ms =>
      have hstart : ∃ t, w.commas ((w.renderMembers (m :: ms)).map w.member) ++ 125 :: r = 34 :: t := by
        rw [Writer.renderMembers, List.map_cons, Writer.member, hw.key]
        cases ms with
        | nil => exact ⟨_, rfl⟩
        | cons m' ms => exact ⟨_, rfl⟩
      obtain ⟨t, ht⟩ := hstart
      have hread := hw.readMembers (m :: ms) hv f k r (by simp) (by rw [depth] at hd; omega)
        (by simp only [List.length_cons, List.length_append, List.length_nil] at hf; omega)
      rw [ht] at hread ⊢
      exact .inr ⟨34, t, _, skipWs_cons (by decide) t, by decide, hread, rfl⟩

theorem Spelled.readElems (hw : Spelled d spell units token p w) (xs : List (Json ν)) (hv : allList p xs = true) (f k : ℕ)
    (r : Text) (hne : xs ≠ [])
    (hd : depthList xs ≤ k) (hf : 2 * (w.commas (w.renderList xs)).length + 1 ≤ f) :
    Json.readElems d f k (w.commas (w.renderList xs) ++ 93 :: r) = .ok (treesBy units token xs, r) := by
  obtain ⟨f, rfl⟩ : ∃ g, f = g + 1 := ⟨f - 1, by omega⟩
  cases xs with
  | nil => exact absurd rfl hne
  | cons x xs =>
    rw [depthList, max_le_iff] at hd
    rw [allList, Bool.and_eq_true] at hv
    rw [readElems_ok]
    by_cases hxs : xs = []
    · subst hxs
      refine ⟨_, _, hw.readValue x hv.1 f k (93 :: r) hd.1 ?_ (numberEnds_cons (by decide) r), .inl ⟨rfl, rfl⟩⟩
      simp only [Writer.renderList, Writer.commas] at hf
      omega
    · have htext : w.commas (w.renderList (x :: xs)) = w.render x ++ 44 :: w.commas (w.renderList xs) := by
        apply hw.commas_cons
        rw [Writer.renderList_eq]
        simpa using hxs
      have hlen : (w.commas (w.renderList (x :: xs))).length =
          (w.render x).length + (w.commas (w.renderList xs)).length + 1 := by
        rw [htext, List.length_append, List.length_cons]
        omega
      rw [htext, List.append_assoc]
      refine ⟨_, _, hw.readValue x hv.1 f k _ hd.1 (by omega) (numberEnds_cons (by decide) _),
        .inr ⟨w.commas (w.renderList xs) ++ 93 :: r, _, rfl, ?_, rfl⟩⟩
      have hskip : skipWs (w.commas (w.renderList xs) ++ 93 :: r) = w.commas (w.renderList xs) ++ 93 :: r := by
        obtain ⟨y, ys, rfl⟩ := List.exists_cons_of_ne_nil hxs
        have hy : y.all p = true := (Bool.and_eq_true_iff.mp hv.2).1
        obtain ⟨c, s, hc, -, hws⟩ := hw.head y hy
        rw [Writer.renderList, hc]
        cases ys with
        | nil => exact skipWs_cons hws _
        | cons z zs => exact skipWs_cons hws _
      rw [hskip]
      exact hw.readElems xs hv.2 f k r hxs hd.2 (by omega)

theorem Spelled.readMembers (hw : Spelled d spell units token p w) (ms : List (Text × Json ν))
    (hv : allMembers p ms = true) (f k : ℕ) (r : Text) (hne : ms ≠ [])
    (hd : depthMembers ms ≤ k) (hf : 2 * (w.commas ((w.renderMembers ms).map w.member)).length ≤ f) :
    Json.readMembers d f k (w.commas ((w.renderMembers ms).map w.member) ++ 125 :: r) =
      .ok (membersBy units token ms, r) := by
  cases ms with
  | nil => exact absurd rfl hne
  | cons m ms =>
    obtain ⟨key, v⟩ := m
    have hmember : ∀ rest, w.member (key, w.render v) ++ rest =
        34 :: (key.flatMap spell ++ 34 :: 58 :: (w.render v ++ rest)) := by
      intro rest
      rw [Writer.member, hw.key, hw.symbol 58]
      simp
    have hmlen : (w.member (key, w.render v)).length ≥ (w.render v).length + 1 := by
      have := congrArg List.length (hmember [])
      simp only [List.append_nil, List.length_cons, List.length_append] at this
      omega
    rw [depthMembers, max_le_iff] at hd
    simp only [allMembers, Bool.and_eq_true] at hv
    by_cases hms : ms = []
    · subst hms
      simp only [Writer.renderMembers, List.map_cons, List.map_nil, Writer.commas] at hf ⊢
      obtain ⟨f, rfl⟩ : ∃ g, f = g + 1 := ⟨f - 1, by omega⟩
      rw [readMembers_ok, hmember]
      refine ⟨_, _, _, _, treeBy units token v, 125 :: r, rfl, hw.readString key _, rfl, ?_, .inl ⟨rfl, rfl⟩⟩
      rw [hw.skip v hv.1.2]
      exact hw.readValue v hv.1.2 f k (125 :: r) hd.1 (by omega) (numberEnds_cons (by decide) r)
    · have htext : w.commas ((w.renderMembers ((key, v) :: ms)).map w.member) =
          w.member (key, w.render v) ++ 44 :: w.commas ((w.renderMembers ms).map w.member) := by
        rw [Writer.renderMembers, List.map_cons]
        apply hw.commas_cons
        rw [Writer.renderMembers_eq]
        simpa using hms
      have hlen : (w.commas ((w.renderMembers ((key, v) :: ms)).map w.member)).length =
          (w.member (key, w.render v)).length + (w.commas ((w.renderMembers ms).map w.member)).length + 1 := by
        rw [htext, List.length_append, List.length_cons]
        omega
      obtain ⟨f, rfl⟩ : ∃ g, f = g + 1 := ⟨f - 1, by omega⟩
      rw [readMembers_ok, htext, List.append_assoc, hmember]
      refine ⟨_, _, _, _, treeBy units token v, 44 :: (w.commas ((w.renderMembers ms).map w.member) ++ 125 :: r), rfl,
        hw.readString key _, rfl, ?_, .inr ⟨_, _, rfl, ?_, rfl⟩⟩
      · rw [hw.skip v hv.1.2]
        exact hw.readValue v hv.1.2 f k _ hd.1 (by omega) (numberEnds_cons (by decide) _)
      · have hskip : skipWs (w.commas ((w.renderMembers ms).map w.member) ++ 125 :: r) =
            w.commas ((w.renderMembers ms).map w.member) ++ 125 :: r := by
          obtain ⟨m', ms, rfl⟩ := List.exists_cons_of_ne_nil hms
          rw [Writer.renderMembers, List.map_cons, Writer.member, hw.key]
          cases ms with
          | nil => exact skipWs_cons (by decide) _
          | cons m'' ms => exact skipWs_cons (by decide) _
        rw [hskip]
        exact hw.readMembers ms hv.2 f k r hms hd.2 (by omega)

end

theorem Spelled.readFirst (hw : Spelled d spell units token p w) (v : Json ν) (hv : v.all p = true) (hd : v.depth ≤ d.maxDepth) :
    Json.readFirst d (w.render v) = .ok (treeBy units token v, []) := by
  have hskip := hw.skip v hv []
  have h := hw.readValue v hv (2 * (w.render v).length + 1) d.maxDepth [] hd (by omega) (by simp [NumberEnds])
  rw [List.append_nil] at hskip h
  rw [Json.readFirst, hskip, h]

end Spelled

structure Printed (d : Dialect) (token : ν → Tree) (w : Writer ν ℕ) : Prop where
  symbol : ∀ c, w.symbol c = c
  num : ∀ n, ∃ c s, w.num n = c :: s ∧ c ≠ 34 ∧ c ≠ 91 ∧ c ≠ 93 ∧ c ≠ 123 ∧ isWs c = false ∧
    ∀ r, NumberEnds r → readScalar d c (s ++ r) = .ok (token n, r)
  str : ∀ t, w.str t = quoted t
  key : ∀ t, w.key t = quoted t
  arrange : ∀ ms, w.arrange ms = ms

variable {d : Dialect} {token : ν → Tree} {w : Writer ν ℕ}

theorem Printed.spelled (hw : Printed d token w) :
    Spelled d (fun c => (basicEscape c).getD [c]) unitOf token ⟨fun _ => true, fun _ => true, fun _ => true⟩ w :=
  ⟨unitOf_spelling, hw.symbol, fun n _ => hw.num n, hw.str, hw.key, hw.arrange⟩

mutual

theorem treeBy_unitOf (v : Json ν) : treeBy unitOf token v = treeOf token v := by
  cases v with
  | arr xs => rw [treeBy, treeOf, treesBy_unitOf xs]
  | obj ms => rw [treeBy, treeOf, membersBy_unitOf ms]
  | _ => rfl

theorem treesBy_unitOf (xs : List (Json ν)) : treesBy unitOf token xs = treesOf token xs := by
  cases xs with
  | nil => rfl
  | cons x xs => rw [treesBy, treesOf, treeBy_unitOf x, treesBy_unitOf xs]

theorem membersBy_unitOf (ms : List (Text × Json ν)) : membersBy unitOf token ms = membersOf token ms := by
  cases ms with
  | nil => rfl
  | cons m ms =>
    obtain ⟨k, v⟩ := m
    rw [membersBy, membersOf, treeBy_unitOf v, membersBy_unitOf ms]

end

mutual

theorem all_true (v : Json ν) : v.all ⟨fun _ => true, fun _ => true, fun _ => true⟩ = true := by
  cases v with
  | arr xs => exact allList_true xs
  | obj ms => exact allMembers_true ms
  | _ => rfl

theorem allList_true (xs : List (Json ν)) : allList ⟨fun _ => true, fun _ => true, fun _ => true⟩ xs = true := by
  cases xs with
  | nil => rfl
  | cons x xs => rw [allList, all_true x, allList_true xs, Bool.and_true]

theorem allMembers_true (ms : List (Text × Json ν)) : allMembers ⟨fun _ => true, fun _ => true, fun _ => true⟩ ms = true := by
  cases ms with
  | nil => rfl
  | cons m ms =>
    obtain ⟨k, v⟩ := m
    rw [allMembers, all_true v, allMembers_true ms, Bool.and_true, Bool.and_true]

end

theorem Printed.readFirst (hw : Printed d token w) (v : Json ν) (hd : v.depth ≤ d.maxDepth) :
    Json.readFirst d (w.render v) = .ok (treeOf token v, []) := by
  rw [← treeBy_unitOf]
  exact hw.spelled.readFirst v (all_true v) hd

end Values

section Shown

variable {ν β : Type} {Q : β → Prop} {w : Writer ν β} {p : Test ν}

structure Shows (Q : β → Prop) (w : Writer ν β) (p : Test ν) : Prop where
  num : ∀ n, (∀ b ∈ w.num n, Q b) → p.num n = true
  str : ∀ t, (∀ b ∈ w.str t, Q b) → p.str t = true
  key : ∀ t, (∀ b ∈ w.key t, Q b) → p.key t = true
  arrange : ∀ ms, ∀ m ∈ ms, m ∈ w.arrange ms

theorem mem_commas {a : List β} {ps : List (List β)} {b : β} (ha : a ∈ ps) (hb : b ∈ a) : b ∈ w.commas ps := by
  induction ps with
  | nil => cases ha
  | cons q ps ih =>
    cases ps with
    | nil =>
      obtain rfl := List.mem_singleton.mp ha
      exact hb
    | cons q' ps =>
      rw [Writer.commas.eq_3 _ _ _ (by simp), List.mem_append, List.mem_cons]
      obtain rfl | ha := List.mem_cons.mp ha
      · exact .inl hb
      · exact .inr (.inr (ih ha))

mutual

theorem Shows.all (hs : Shows Q w p) (v : Json ν) (h : ∀ b ∈ w.render v, Q b) : v.all p = true := by
  cases v with
  | null => rfl
  | bool b => rfl
  | num n => exact hs.num n h
  | str t => exact hs.str t h
  | arr xs =>
    refine hs.allList xs fun a ha b hb => h b ?_
    rw [Writer.render]
    simp [mem_commas ha hb]
  | obj ms =>
    have inside : ∀ m ∈ w.renderMembers ms, ∀ b ∈ w.member m, Q b := by
      intro m hm b hb
      apply h b
      rw [Writer.render]
      simp [mem_commas (List.mem_map.mpr ⟨m, hs.arrange _ m hm, rfl⟩) hb]
    exact hs.allMembers ms inside

theorem Shows.allList (hs : Shows Q w p) (xs : List (Json ν)) (h : ∀ a ∈ w.renderList xs, ∀ b ∈ a, Q b) :
    Json.allList p xs = true := by
  cases xs with
  | nil => rfl
  | cons x xs =>
    rw [Writer.renderList, List.forall_mem_cons] at h
    rw [Json.allList, hs.all x h.1, hs.allList xs h.2]
    rfl

theorem Shows.allMembers (hs : Shows Q w p) (ms : List (Text × Json ν))
    (h : ∀ m ∈ w.renderMembers ms, ∀ b ∈ w.member m, Q b) : Json.allMembers p ms = true := by
  cases ms with
  | nil => rfl
  | cons m ms =>
    obtain ⟨k, v⟩ := m
    rw [Writer.renderMembers, List.forall_mem_cons] at h
    have hk : p.key k = true := hs.key k fun b hb => h.1 b (by simp [Writer.member, hb])
    have hv : v.all p = true := hs.all v fun b hb => h.1 b (by simp [Writer.member, hb])
    rw [Json.allMembers, hk, hv, hs.allMembers ms h.2]
    rfl

end

end Shown

section Decoded

variable {ν μ : Type}

mutual

/-- No object of the value holds a key twice. -/
def Distinct : Json ν → Prop
  | .null => True
  | .bool _ => True
  | .num _ => True
  | .str _ => True
  | .arr xs => distinctList xs
  | .obj ms => (ms.map Prod.fst).Nodup ∧ distinctMembers ms

def distinctList : List (Json ν) → Prop
  | [] => True
  | x :: xs => Distinct x ∧ distinctList xs

def distinctMembers : List (Text × Json ν) → Prop
  | [] => True
  | (_, v) :: ms => Distinct v ∧ distinctMembers ms

end

theorem distinctMembers_iff (ms : List (Text × Json ν)) : distinctMembers ms ↔ ∀ m ∈ ms, m.2.Distinct := by
  induction ms with
  | nil => simp [distinctMembers]
  | cons m ms ih => simp [distinctMembers, ih]

theorem dictOf_of_nodup {α : Type} {ms : List (Text × α)} (h : (ms.map Prod.fst).Nodup) : dictOf ms = ms := by
  induction ms with
  | nil => rfl
  | cons m ms ih =>
    obtain ⟨k, v⟩ := m
    rw [List.map_cons, List.nodup_cons] at h
    have hk : lookup k ms = none := by
      rw [lookup_none]
      intro p hp he
      exact h.1 (List.mem_map.mpr ⟨p, hp, he⟩)
    rw [dictOf, ih h.2, hk]

mutual

theorem ofTree_distinct (rd : Reading ν) (t : Tree) : (ofTree rd t).Distinct := by
  cases t with
  | arr xs => exact ofTrees_distinct rd xs
  | obj ms =>
    refine ⟨dictOf_nodup _, (distinctMembers_iff _).mpr fun m hm => ?_⟩
    exact (distinctMembers_iff _).mp (ofMembers_distinct rd ms) m (mem_dictOf hm)
  | null => trivial
  | bool b => trivial
  | num lit => trivial
  | const name => trivial
  | str us => trivial

theorem ofTrees_distinct (rd : Reading ν) (xs : List Tree) : distinctList (ofTrees rd xs) := by
  cases xs with
  | nil => trivial
  | cons x xs => exact ⟨ofTree_distinct rd x, ofTrees_distinct rd xs⟩

theorem ofMembers_distinct (rd : Reading ν) (ms : List (List StrUnit × Tree)) : distinctMembers (ofMembers rd ms) := by
  cases ms with
  | nil => trivial
  | cons m ms =>
    obtain ⟨k, t⟩ := m
    exact ⟨ofTree_distinct rd t, ofMembers_distinct rd ms⟩

end

theorem depthMembers_le_iff (ms : List (Text × Json ν)) (k : ℕ) : depthMembers ms ≤ k ↔ ∀ m ∈ ms, m.2.depth ≤ k := by
  induction ms with
  | nil => simp [depthMembers]
  | cons m ms ih => simp [depthMembers, ih]

mutual

theorem depth_ofTree_le (rd : Reading ν) (t : Tree) : (ofTree rd t).depth ≤ t.nesting := by
  cases t with
  | arr xs => exact Nat.succ_le_succ (depth_ofTrees_le rd xs)
  | obj ms =>
    refine Nat.succ_le_succ ((depthMembers_le_iff _ _).mpr fun m hm => ?_)
    exact (depthMembers_le_iff _ _).mp (depth_ofMembers_le rd ms) m (mem_dictOf hm)
  | null => exact le_refl 0
  | bool b => exact le_refl 0
  | num lit => exact le_refl 0
  | const name => exact le_refl 0
  | str us => exact le_refl 0

theorem depth_ofTrees_le (rd : Reading ν) (xs : List Tree) : depthList (ofTrees rd xs) ≤ treesNesting xs := by
  cases xs with
  | nil => exact le_refl 0
  | cons x xs => exact max_le_max (depth_ofTree_le rd x) (depth_ofTrees_le rd xs)

theorem depth_ofMembers_le (rd : Reading ν) (ms : List (List StrUnit × Tree)) :
    depthMembers (ofMembers rd ms) ≤ membersNesting ms := by
  cases ms with
  | nil => exact le_refl 0
  | cons m ms =>
    obtain ⟨k, t⟩ := m
    exact max_le_max (depth_ofTree_le rd t) (depth_ofMembers_le rd ms)

end

mutual

theorem depth_map (f : ν → μ) (v : Json ν) : (v.map f).depth = v.depth := by
  cases v with
  | arr xs => simp only [map, depth, depthList_map f xs]
  | obj ms => simp only [map, depth, depthMembers_map f ms]
  | _ => rfl

theorem depthList_map (f : ν → μ) (xs : List (Json ν)) : depthList (mapList f xs) = depthList xs := by
  cases xs with
  | nil => rfl
  | cons x xs => simp only [mapList, depthList, depth_map f x, depthList_map f xs]

theorem depthMembers_map (f : ν → μ) (ms : List (Text × Json ν)) : depthMembers (mapMembers f ms) = depthMembers ms := by
  cases ms with
  | nil => rfl
  | cons m ms =>
    obtain ⟨k, v⟩ := m
    simp only [mapMembers, depthMembers, depth_map f v, depthMembers_map f ms]

end

mutual

theorem distinct_map (f : ν → μ) (v : Json ν) (h : v.Distinct) : (v.map f).Distinct := by
  cases v with
  | arr xs => exact distinctList_map f xs h
  | obj ms =>
    refine ⟨?_, distinctMembers_map f ms h.2⟩
    rw [mapMembers_eq, List.map_map]
    exact h.1
  | _ => trivial

theorem distinctList_map (f : ν → μ) (xs : List (Json ν)) (h : distinctList xs) : distinctList (mapList f xs) := by
  cases xs with
  | nil => trivial
  | cons x xs => exact ⟨distinct_map f x h.1, distinctList_map f xs h.2⟩

theorem distinctMembers_map (f : ν → μ) (ms : List (Text × Json ν)) (h : distinctMembers ms) :
    distinctMembers (mapMembers f ms) := by
  cases ms with
  | nil => trivial
  | cons m ms =>
    obtain ⟨k, v⟩ := m
    exact ⟨distinct_map f v h.1, distinctMembers_map f ms h.2⟩

end

mutual

theorem map_eq_self_iff [DecidableEq ν] (f : ν → ν) (v : Json ν) :
    v.map f = v ↔ v.all ⟨fun n => f n = n, fun _ => true, fun _ => true⟩ = true := by
  cases v with
  | num n => simp [map, all]
  | arr xs => simp only [map, all, arr.injEq, mapList_eq_self_iff f xs]
  | obj ms => simp only [map, all, obj.injEq, mapMembers_eq_self_iff f ms]
  | _ => simp [map, all]

theorem mapList_eq_self_iff [DecidableEq ν] (f : ν → ν) (xs : List (Json ν)) :
    mapList f xs = xs ↔ allList ⟨fun n => f n = n, fun _ => true, fun _ => true⟩ xs = true := by
  cases xs with
  | nil => simp [mapList, allList]
  | cons x xs =>
    simp only [mapList, allList, List.cons.injEq, Bool.and_eq_true, map_eq_self_iff f x, mapList_eq_self_iff f xs]

theorem mapMembers_eq_self_iff [DecidableEq ν] (f : ν → ν) (ms : List (Text × Json ν)) :
    mapMembers f ms = ms ↔ allMembers ⟨fun n => f n = n, fun _ => true, fun _ => true⟩ ms = true := by
  cases ms with
  | nil => simp [mapMembers, allMembers]
  | cons m ms =>
    obtain ⟨k, v⟩ := m
    simp only [mapMembers, allMembers, List.cons.injEq, Prod.mk.injEq, true_and, Bool.and_eq_true,
      map_eq_self_iff f v, mapMembers_eq_self_iff f ms]

end

mutual

theorem map_map {κ : Type} (f : ν → μ) (g : μ → κ) (v : Json ν) : (v.map f).map g = v.map (fun n => g (f n)) := by
  cases v with
  | arr xs => simp only [map, mapList_map f g xs]
  | obj ms => simp only [map, mapMembers_map f g ms]
  | _ => rfl

theorem mapList_map {κ : Type} (f : ν → μ) (g : μ → κ) (xs : List (Json ν)) :
    mapList g (mapList f xs) = mapList (fun n => g (f n)) xs := by
  cases xs with
  | nil => rfl
  | cons x xs => simp only [mapList, map_map f g x, mapList_map f g xs]

theorem mapMembers_map {κ : Type} (f : ν → μ) (g : μ → κ) (ms : List (Text × Json ν)) :
    mapMembers g (mapMembers f ms) = mapMembers (fun n => g (f n)) ms := by
  cases ms with
  | nil => rfl
  | cons m ms =>
    obtain ⟨k, v⟩ := m
    simp only [mapMembers, map_map f g v, mapMembers_map f g ms]

end

variable {token : ν → Tree}

section

variable {rd : Reading μ} {lone : ℕ → ℕ} {f : ν → μ} {spell : ℕ → Text} {units : ℕ → StrUnit}

mutual

theorem ofTree_treeBy (hsp : Spelling spell units) (hs : rd.str = unescape lone)
    (hn : ∀ n, ofTree rd (token n) = .num (f n)) (v : Json ν)
    (hv : v.Distinct) : ofTree rd (treeBy units token v) = v.map f := by
  cases v with
  | null => rfl
  | bool b => rfl
  | num n => exact hn n
  | str t => rw [treeBy, ofTree, hs, hsp.unescape, map]
  | arr xs => rw [treeBy, ofTree, ofTrees_treesBy hsp hs hn xs hv, map]
  | obj ms =>
    rw [treeBy, ofTree, ofMembers_membersBy hsp hs hn ms hv.2, map, dictOf_of_nodup]
    rw [mapMembers_eq, List.map_map]
    exact hv.1

theorem ofTrees_treesBy (hsp : Spelling spell units) (hs : rd.str = unescape lone)
    (hn : ∀ n, ofTree rd (token n) = .num (f n)) (xs : List (Json ν))
    (hxs : distinctList xs) : ofTrees rd (treesBy units token xs) = mapList f xs := by
  cases xs with
  | nil => rfl
  | cons x xs => rw [treesBy, ofTrees, ofTree_treeBy hsp hs hn x hxs.1, ofTrees_treesBy hsp hs hn xs hxs.2, mapList]

theorem ofMembers_membersBy (hsp : Spelling spell units) (hs : rd.str = unescape lone) (hn : ∀ n, ofTree rd (token n) = .num (f n))
    (ms : List (Text × Json ν)) (hms : distinctMembers ms) : ofMembers rd (membersBy units token ms) = mapMembers f ms := by
  cases ms with
  | nil => rfl
  | cons m ms =>
    obtain ⟨k, v⟩ := m
    rw [membersBy, ofMembers, hs, hsp.unescape, ofTree_treeBy hsp hs hn v hms.1, ofMembers_membersBy hsp hs hn ms hms.2,
      mapMembers]

end

theorem ofTree_treeOf (hs : rd.str = unescape lone) (hn : ∀ n, ofTree rd (token n) = .num (f n)) (v : Json ν)
    (hv : v.Distinct) : ofTree rd (treeOf token v) = v.map f := by
  rw [← treeBy_unitOf]
  exact ofTree_treeBy unitOf_spelling hs hn v hv

end

mutual

theorem nesting_treeOf (h : ∀ n, (token n).nesting = 0) (v : Json ν) : (treeOf token v).nesting = v.depth := by
  cases v with
  | num n => exact h n
  | arr xs => simp only [treeOf, Tree.nesting, depth, nesting_treesOf h xs]
  | obj ms => simp only [treeOf, Tree.nesting, depth, nesting_membersOf h ms]
  | _ => rfl

theorem nesting_treesOf (h : ∀ n, (token n).nesting = 0) (xs : List (Json ν)) :
    treesNesting (treesOf token xs) = depthList xs := by
  cases xs with
  | nil => rfl
  | cons x xs => simp only [treesOf, treesNesting, depthList, nesting_treeOf h x, nesting_treesOf h xs]

theorem nesting_membersOf (h : ∀ n, (token n).nesting = 0) (ms : List (Text × Json ν)) :
    membersNesting (membersOf token ms) = depthMembers ms := by
  cases ms with
  | nil => rfl
  | cons m ms =>
    obtain ⟨k, v⟩ := m
    simp only [membersOf, membersNesting, depthMembers, nesting_treeOf h v, nesting_membersOf h ms]

end

variable {c : Contents} {p : Test ν}

structure Reflects (token : ν → Tree) (c : Contents) (p : Test ν) : Prop where
  num : ∀ n, (token n).Has c ↔ p.num n = true
  str : ∀ t : Text, (∀ u ∈ t.map unitOf, c.unit u) ↔ p.str t = true
  key : ∀ t : Text, (∀ u ∈ t.map unitOf, c.unit u) ↔ p.key t = true

mutual

theorem has_treeOf (h : Reflects token c p) (v : Json ν) : (treeOf token v).Has c ↔ v.all p = true := by
  cases v with
  | null => simp [treeOf, Tree.Has, all]
  | bool b => simp [treeOf, Tree.Has, all]
  | num n => exact h.num n
  | str t => exact h.str t
  | arr xs => exact has_treesOf h xs
  | obj ms => exact has_membersOf h ms

theorem has_treesOf (h : Reflects token c p) (xs : List (Json ν)) :
    treesHave c (treesOf token xs) ↔ allList p xs = true := by
  cases xs with
  | nil => simp [treesOf, treesHave, allList]
  | cons x xs => simp only [treesOf, treesHave, allList, Bool.and_eq_true, has_treeOf h x, has_treesOf h xs]

theorem has_membersOf (h : Reflects token c p) (ms : List (Text × Json ν)) :
    membersHave c (membersOf token ms) ↔ allMembers p ms = true := by
  cases ms with
  | nil => simp [membersOf, membersHave, allMembers]
  | cons m ms =>
    obtain ⟨k, v⟩ := m
    simp only [membersOf, membersHave, allMembers, Bool.and_eq_true, has_treeOf h v, has_membersOf h ms, h.key k,
      and_assoc]

end

end Decoded

end Library.Json
