import ObserverClub.Library.Text

namespace Library.Utf8

def IsScalar (c : ℕ) : Prop := c < 0xD800 ∨ (0xE000 ≤ c ∧ c < 0x110000)

instance (c : ℕ) : Decidable (IsScalar c) := inferInstanceAs (Decidable (_ ∨ _))

/-- No lone surrogates: the text can be encoded. -/
def valid (t : Text) : Bool := t.all (fun c => decide (IsScalar c))

def encodeRune (c : ℕ) : Bytes :=
  if c < 0x80 then [.ofNat c]
  else if c < 0x800 then [.ofNat (0xC0 + c / 64), .ofNat (0x80 + c % 64)]
  else if c < 0x10000 then
    [.ofNat (0xE0 + c / 4096), .ofNat (0x80 + c / 64 % 64), .ofNat (0x80 + c % 64)]
  else
    [.ofNat (0xF0 + c / 262144 % 8), .ofNat (0x80 + c / 4096 % 64), .ofNat (0x80 + c / 64 % 64),
      .ofNat (0x80 + c % 64)]

def encode (t : Text) : Bytes := t.flatMap encodeRune

@[simp] theorem encode_nil : encode [] = [] := rfl

@[simp] theorem encode_cons (c : ℕ) (t : Text) : encode (c :: t) = encodeRune c ++ encode t := rfl

@[simp] theorem encode_append (s t : Text) : encode (s ++ t) = encode s ++ encode t := by
  simp [encode]

theorem encodeRune_ascii {c : ℕ} (h : c < 0x80) : encodeRune c = [.ofNat c] := by simp [encodeRune, h]

def isTail (b : UInt8) : Bool := 0x80 ≤ b.toNat && b.toNat < 0xC0

/-- Six bits from each of the next `n` continuation bytes. -/
def tails : ℕ → ℕ → Bytes → Option ℕ
  | 0, r, _ => some r
  | _ + 1, _, [] => none
  | n + 1, r, b :: s => if isTail b then tails n (r * 64 + (b.toNat - 0x80)) s else none

def multi (lo n : ℕ) (r : Option ℕ) : Option (ℕ × ℕ) :=
  (r.filter (fun c => lo ≤ c ∧ IsScalar c)).map (·, n)

/-- The first rune and its width; nothing where the sequence starts no valid rune. -/
def decodeRune : Bytes → Option (ℕ × ℕ)
  | [] => none
  | a :: s =>
    if a.toNat < 0x80 then some (a.toNat, 1)
    else if a.toNat < 0xC0 then none
    else if a.toNat < 0xE0 then multi 0x80 2 (tails 1 (a.toNat - 0xC0) s)
    else if a.toNat < 0xF0 then multi 0x800 3 (tails 2 (a.toNat - 0xE0) s)
    else multi 0x10000 4 (tails 3 (a.toNat - 0xF0) s)

/-- Runes in order, `none` for each byte that starts no rune. The counter skips the bytes of a
rune already read. -/
def runesFrom : ℕ → Bytes → List (Option ℕ)
  | _, [] => []
  | k + 1, _ :: s => runesFrom k s
  | 0, b :: s =>
    match decodeRune (b :: s) with
    | some (c, n) => some c :: runesFrom (n - 1) s
    | none => none :: runesFrom 0 s

def runes (s : Bytes) : List (Option ℕ) := runesFrom 0 s

/-- Lossy decoding: every invalid byte becomes U+FFFD. -/
def decodeLossy (s : Bytes) : Text := (runes s).map (·.getD 0xFFFD)

def decode (s : Bytes) : Option Text :=
  if (runes s).all Option.isSome then some (decodeLossy s) else none

theorem decodeLossy_of_decode {s : Bytes} {t : Text} (h : decode s = some t) : decodeLossy s = t := by
  unfold decode at h
  split_ifs at h
  exact Option.some.inj h

theorem decodeRune_ascii {b : UInt8} (h : b.toNat < 0x80) (s : Bytes) :
    decodeRune (b :: s) = some (b.toNat, 1) := by simp [decodeRune, h]

theorem isTail_ascii {b : UInt8} (h : b.toNat < 0x80) : isTail b = false := by
  simp only [isTail, Bool.and_eq_false_iff, decide_eq_false_iff_not]
  omega

theorem tails_boundary {b : UInt8} (h : b.toNat < 0x80) (n r : ℕ) (s t : Bytes) :
    tails n r (s ++ b :: t) = tails n r s := by
  induction n generalizing r s with
  | zero => rfl
  | succ n ih => cases s <;> simp [tails, isTail_ascii h, ih]

theorem decodeRune_boundary {b : UInt8} (h : b.toNat < 0x80) (a : UInt8) (r s : Bytes) :
    decodeRune (a :: (r ++ b :: s)) = decodeRune (a :: r) := by
  simp only [decodeRune, tails_boundary h]

theorem tails_length {n r c : ℕ} {s : Bytes} (h : tails n r s = some c) : n ≤ s.length := by
  induction n generalizing r s with
  | zero => simp
  | succ n ih =>
    cases s with
    | nil => simp [tails] at h
    | cons b s =>
      simp only [tails] at h
      split_ifs at h
      simpa using ih h

theorem multi_width {lo m n c w : ℕ} {r : ℕ} {s : Bytes} (h : multi lo n (tails m r s) = some (c, w)) :
    w = n ∧ m ≤ s.length := by
  simp only [multi, Option.map_eq_some_iff, Prod.mk.injEq] at h
  obtain ⟨x, hx, -, rfl⟩ := h
  exact ⟨rfl, tails_length (Option.eq_some_of_filter_eq_some hx)⟩

theorem decodeRune_width {a : UInt8} {s : Bytes} {c n : ℕ} (h : decodeRune (a :: s) = some (c, n)) :
    n - 1 ≤ s.length := by
  simp only [decodeRune] at h
  split_ifs at h
  · simp only [Option.some.injEq, Prod.mk.injEq] at h
    omega
  all_goals
    obtain ⟨rfl, hl⟩ := multi_width h
    omega

theorem runesFrom_boundary {b : UInt8} (h : b.toNat < 0x80) (r s : Bytes) (k : ℕ) (hk : k ≤ r.length) :
    runesFrom k (r ++ b :: s) = runesFrom k r ++ runes (b :: s) := by
  induction r generalizing k with
  | nil =>
    obtain rfl : k = 0 := by simpa using hk
    rfl
  | cons a r ih =>
    cases k with
    | succ k => simpa [runesFrom] using ih k (by simpa using hk)
    | zero =>
      simp only [List.cons_append, runesFrom, decodeRune_boundary h]
      cases hd : decodeRune (a :: r) with
      | none => simp [ih 0 (by simp)]
      | some p => simp [ih (p.2 - 1) (decodeRune_width hd)]

theorem decodeLossy_boundary {b : UInt8} (h : b.toNat < 0x80) (r s : Bytes) :
    decodeLossy (r ++ b :: s) = decodeLossy r ++ b.toNat :: decodeLossy s := by
  have hb : runes (b :: s) = some b.toNat :: runes s := by
    simp [runes, runesFrom, decodeRune_ascii h]
  unfold decodeLossy
  rw [runes, runesFrom_boundary h r s 0 (by simp), hb]
  simp [runes]

theorem decodeLossy_ascii_append {a : Bytes} (h : ∀ b ∈ a, b.toNat < 0x80) (s : Bytes) :
    decodeLossy (a ++ s) = a.map UInt8.toNat ++ decodeLossy s := by
  induction a with
  | nil => rfl
  | cons b a ih =>
    simp only [List.mem_cons, forall_eq_or_imp] at h
    have := decodeLossy_boundary h.1 [] (a ++ s)
    rw [List.nil_append] at this
    rw [List.cons_append, this, ih h.2]
    rfl

theorem decodeLossy_append_ascii {a : Bytes} (h : ∀ b ∈ a, b.toNat < 0x80) (s : Bytes) :
    decodeLossy (s ++ a) = decodeLossy s ++ a.map UInt8.toNat := by
  cases a with
  | nil => simp
  | cons b a =>
    simp only [List.mem_cons, forall_eq_or_imp] at h
    have ha := decodeLossy_ascii_append h.2 []
    rw [List.append_nil] at ha
    rw [decodeLossy_boundary h.1, ha]
    simp [decodeLossy, runes, runesFrom]

theorem decodeRune_scalar {s : Bytes} {c n : ℕ} (h : decodeRune s = some (c, n)) : IsScalar c := by
  have ofMulti : ∀ {lo m : ℕ} {r : Option ℕ}, multi lo m r = some (c, n) → IsScalar c := by
    intro lo m r hm
    simp only [multi, Option.map_eq_some_iff, Prod.mk.injEq] at hm
    obtain ⟨x, hx, rfl, -⟩ := hm
    exact (of_decide_eq_true (Option.filter_eq_some_iff.mp hx).2).2
  cases s with
  | nil => simp [decodeRune] at h
  | cons a s =>
    simp only [decodeRune] at h
    split_ifs at h
    · simp only [Option.some.injEq, Prod.mk.injEq] at h
      exact .inl (by omega)
    all_goals exact ofMulti h

theorem decodeLossy_scalar (s : Bytes) : ∀ c ∈ decodeLossy s, IsScalar c := by
  have hruns : ∀ k, ∀ o ∈ runesFrom k s, IsScalar (o.getD 0xFFFD) := by
    induction s with
    | nil => simp [runesFrom]
    | cons b s ih =>
      intro k
      cases k with
      | succ k => exact ih k
      | zero =>
        simp only [runesFrom]
        split
        · rename_i c n hd
          simpa using ⟨decodeRune_scalar hd, ih (n - 1)⟩
        · simpa using ⟨by decide, ih 0⟩
  simpa [decodeLossy, runes] using hruns 0

section Order

theorem toNat_ofNat_of_lt {n : ℕ} (h : n < 256) : (UInt8.ofNat n).toNat = n := by
  simp [UInt8.toNat_ofNat', Nat.mod_eq_of_lt h]

theorem cons_lt_cons_ofNat {m n : ℕ} (hm : m < 256) (hn : n < 256) (s t : Bytes) :
    UInt8.ofNat m :: s < UInt8.ofNat n :: t ↔ m < n ∨ (m = n ∧ s < t) := by
  rw [List.cons_lt_cons_iff, UInt8.lt_iff_toNat_lt, ← UInt8.toNat_inj, toNat_ofNat_of_lt hm,
    toNat_ofNat_of_lt hn]

theorem encodeRune_lt {c d : ℕ} (h : c < d) (hd : d < 0x110000) (s t : Bytes) :
    encodeRune c ++ s < encodeRune d ++ t := by
  have hc8 : c / 262144 % 8 = c / 262144 := Nat.mod_eq_of_lt (by omega)
  have hd8 : d / 262144 % 8 = d / 262144 := Nat.mod_eq_of_lt (by omega)
  unfold encodeRune
  rw [hc8, hd8]
  split_ifs <;> simp only [List.cons_append, List.nil_append] <;>
    simp (disch := omega) only [cons_lt_cons_ofNat] <;> omega

theorem encodeRune_append_lt (c : ℕ) {s t : Bytes} (h : s < t) :
    encodeRune c ++ s < encodeRune c ++ t := by
  unfold encodeRune
  split_ifs <;> simpa [List.cons_lt_cons_iff] using h

theorem encode_lt {s t : Text} (ht : ∀ c ∈ t, c < 0x110000) (h : s < t) : encode s < encode t := by
  induction h with
  | nil =>
    rename_i d t
    obtain ⟨b, r, hb⟩ : ∃ b r, encodeRune d = b :: r := by unfold encodeRune; split_ifs <;> simp
    simp [hb]
  | rel h => exact encodeRune_lt h (ht _ (by simp)) _ _
  | cons h ih => exact encodeRune_append_lt _ (ih (fun c hc => ht c (List.mem_cons_of_mem _ hc)))

end Order

section Encoded

theorem tails_step {n r x : ℕ} (hx : x < 64) (s : Bytes) :
    tails (n + 1) r (UInt8.ofNat (0x80 + x) :: s) = tails n (r * 64 + x) s := by
  have hb : (UInt8.ofNat (0x80 + x)).toNat = 0x80 + x := toNat_ofNat_of_lt (by omega)
  rw [tails, if_pos, hb, Nat.add_sub_cancel_left]
  simp only [isTail, hb, Bool.and_eq_true, decide_eq_true_eq]
  omega

theorem multi_some {lo n c : ℕ} (h : lo ≤ c) (hc : IsScalar c) : multi lo n (some c) = some (c, n) := by
  rw [multi, Option.filter_some, if_pos (by simpa using ⟨h, hc⟩)]
  rfl

theorem decodeRune_encodeRune {c : ℕ} (hc : IsScalar c) (s : Bytes) :
    decodeRune (encodeRune c ++ s) = some (c, (encodeRune c).length) := by
  have hlt : c < 0x110000 := by
    unfold IsScalar at hc
    omega
  have lead : ∀ {n : ℕ}, n < 256 → (UInt8.ofNat n).toNat = n := toNat_ofNat_of_lt
  unfold encodeRune
  split_ifs with h₁ h₂ h₃
  · rw [List.singleton_append, decodeRune, lead (by omega), if_pos h₁]
    rfl
  · have hsum : (0xC0 + c / 64 - 0xC0) * 64 + c % 64 = c := by omega
    simp only [List.cons_append, List.nil_append, decodeRune]
    rw [lead (by omega), if_neg (by omega), if_neg (by omega), if_pos (by omega), tails_step (by omega), tails, hsum,
      multi_some (by omega) hc]
    rfl
  · have hsum : ((0xE0 + c / 4096 - 0xE0) * 64 + c / 64 % 64) * 64 + c % 64 = c := by omega
    simp only [List.cons_append, List.nil_append, decodeRune]
    rw [lead (by omega), if_neg (by omega), if_neg (by omega), if_neg (by omega), if_pos (by omega),
      tails_step (by omega), tails_step (by omega), tails, hsum, multi_some (by omega) hc]
    rfl
  · have hsum : (((0xF0 + c / 262144 % 8 - 0xF0) * 64 + c / 4096 % 64) * 64 + c / 64 % 64) * 64 + c % 64 = c := by omega
    simp only [List.cons_append, List.nil_append, decodeRune]
    rw [lead (by omega), if_neg (by omega), if_neg (by omega), if_neg (by omega), if_neg (by omega),
      tails_step (by omega), tails_step (by omega), tails_step (by omega), tails, hsum, multi_some (by omega) hc]
    rfl

theorem runesFrom_skip (a s : Bytes) : runesFrom a.length (a ++ s) = runes s := by
  induction a with
  | nil => rfl
  | cons b a ih => exact ih

theorem mem_encodeRune {c : ℕ} {b : UInt8} (h : b ∈ encodeRune c) (hc : c < 0x110000) (hb : b.toNat < 0x80) : c = b.toNat := by
  unfold encodeRune at h
  split_ifs at h <;> simp only [List.mem_cons, List.not_mem_nil, or_false] at h
  · rw [h, toNat_ofNat_of_lt (by omega)]
  · obtain h | h := h <;> rw [h, toNat_ofNat_of_lt (by omega)] at hb <;> omega
  · obtain h | h | h := h <;> rw [h, toNat_ofNat_of_lt (by omega)] at hb <;> omega
  · obtain h | h | h | h := h <;> rw [h, toNat_ofNat_of_lt (by omega)] at hb <;> omega

theorem mem_encode {t : Text} {b : UInt8} (h : b ∈ encode t) (ht : ∀ c ∈ t, c < 0x110000) (hb : b.toNat < 0x80) :
    b.toNat ∈ t := by
  obtain ⟨c, hc, hbc⟩ := List.mem_flatMap.mp h
  rw [← mem_encodeRune hbc (ht c hc) hb]
  exact hc

theorem runes_encode {t : Text} (h : valid t = true) : runes (encode t) = t.map some := by
  induction t with
  | nil => rfl
  | cons c t ih =>
    simp only [valid, List.all_cons, Bool.and_eq_true, decide_eq_true_eq] at h
    have hd := decodeRune_encodeRune h.1 (encode t)
    obtain ⟨b, a, hb⟩ : ∃ b a, encodeRune c = b :: a := by
      unfold encodeRune
      split_ifs <;> exact ⟨_, _, rfl⟩
    rw [encode_cons]
    rw [hb] at hd ⊢
    rw [List.cons_append] at hd ⊢
    rw [runes, runesFrom, hd]
    simp only [List.length_cons, Nat.add_sub_cancel, runesFrom_skip, List.map_cons, List.cons.injEq, true_and]
    exact ih h.2

theorem decode_encode {t : Text} (h : valid t = true) : decode (encode t) = some t := by
  have hall : (t.map some).all Option.isSome = true := by simp
  rw [decode, decodeLossy, runes_encode h, if_pos hall, List.map_map]
  simp [Function.comp_def]

end Encoded

end Library.Utf8
