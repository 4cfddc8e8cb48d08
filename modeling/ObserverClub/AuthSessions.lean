import ObserverClub.Auth

namespace ObserverClub.Auth

open Library Python

variable {crypto : Crypto}

section Payload

theorem ofAsciiBytes_toAsciiBytes {t : Text} (h : ∀ c ∈ t, c < 128) : ofAsciiBytes (toAsciiBytes t) = some t := by
  have hb : ∀ c ∈ t, (UInt8.ofNat c).toNat = c := fun c hc => Utf8.toNat_ofNat_of_lt (by have := h c hc; omega)
  have hall : (toAsciiBytes t).all (·.toNat < 128) = true := by
    simp only [toAsciiBytes, List.all_map, List.all_eq_true, Function.comp_apply, decide_eq_true_eq]
    intro c hc
    rw [hb c hc]
    exact h c hc
  rw [ofAsciiBytes, if_pos hall, toAsciiBytes, List.map_map]
  congr 1
  exact (List.map_congr_left hb).trans (List.map_id t)

theorem decimalText_ok {i : ℤ} {t : Text} (h : decimalText i = .ok t) :
    t = decimalInt i ∧ intOfText t = .ok i := by
  unfold decimalText at h
  split_ifs at h with hs
  obtain rfl := Except.ok.inj h
  exact ⟨rfl, intOfText_decimalInt (by simpa [Num.short] using hs)⟩

theorem decimalInt_range {i : ℤ} {c : ℕ} (h : c ∈ decimalInt i) : c ≠ 58 ∧ c < 128 := by
  rcases mem_decimalInt h with rfl | hd
  · decide
  · simp only [isDigit, Bool.and_eq_true, decide_eq_true_eq] at hd
    omega

theorem splitColons_three {a b c : Text} (ha : 58 ∉ a) (hb : 58 ∉ b) (hc : 58 ∉ c) :
    splitColons (a ++ 58 :: b ++ 58 :: c) = [a, b, c] := by
  rw [List.append_assoc, List.cons_append, splitColons, records_record 58 a _ ha, records_record 58 b _ hb,
    records_open 58 c hc]
  rfl

theorem readPayload_payloadText {exp r : ℤ} {nonce p : Text} (hn : nonce ≠ [])
    (hx : ∀ c ∈ nonce, c ≠ 58 ∧ c < 128) (h : payloadText exp nonce r = .ok p) :
    readPayload (toAsciiBytes p) = some (exp, r) := by
  cases he : decimalText exp with
  | error e => simp [payloadText, he, bind, Except.bind] at h
  | ok e =>
    cases hr : decimalText r with
    | error e => simp [payloadText, he, hr, bind, Except.bind] at h
    | ok q =>
      obtain rfl : e ++ 58 :: nonce ++ 58 :: q = p := by
        simpa [payloadText, he, hr, bind, Except.bind, pure, Except.pure] using h
      obtain ⟨rfl, he⟩ := decimalText_ok he
      obtain ⟨rfl, hr⟩ := decimalText_ok hr
      have hascii : ∀ c ∈ decimalInt exp ++ 58 :: nonce ++ 58 :: decimalInt r, c < 128 := by
        intro c hc
        simp only [List.mem_append, List.mem_cons] at hc
        rcases hc with (hc | rfl | hc) | rfl | hc
        · exact (decimalInt_range hc).2
        · decide
        · exact (hx c hc).2
        · decide
        · exact (decimalInt_range hc).2
      rw [readPayload, ofAsciiBytes_toAsciiBytes hascii, Option.map_some,
        splitColons_three (fun hc => (decimalInt_range hc).1 rfl) (fun hc => (hx _ hc).1 rfl)
          (fun hc => (decimalInt_range hc).1 rfl)]
      simp [hn, he, hr]

end Payload

section Token

theorem b64d_b64e (raw : Bytes) : b64d (b64e raw) = some raw := by
  rw [b64d, b64e, Base64.restore_padding, Base64.decode_encode]

theorem b64e_ne_nil {raw : Bytes} (h : raw ≠ []) : b64e raw ≠ [] := by
  intro he
  have := b64d_b64e raw
  rw [he] at this
  exact h (Option.some.inj this).symm

def HasKey (k : Bytes) (s : State) : Prop := s.key = some k ∧ 32 ≤ k.length

theorem sessionSecret_of_hasKey {k : Bytes} {s : State} (h : HasKey k s) (fresh : Random 32) :
    sessionSecret fresh s = (k.take 32, s) := by simp [sessionSecret, h.1, h.2]

theorem sessionSecret_hasKey (fresh : Random 32) (s : State) :
    ∃ k, HasKey k (sessionSecret fresh s).2 ∧ (sessionSecret fresh s).1 = k.take 32 ∧
      (sessionSecret fresh s).2.file = s.file := by
  unfold sessionSecret
  split
  · rename_i k hk
    split_ifs with hl
    · exact ⟨k, ⟨hk, hl⟩, rfl, rfl⟩
    · exact ⟨fresh.1, ⟨rfl, by simp [fresh.2]⟩, by simp [fresh.2], rfl⟩
  · exact ⟨fresh.1, ⟨rfl, by simp [fresh.2]⟩, by simp [fresh.2], rfl⟩

theorem sessionOk_issued {now : ℤ} {nonce : Random 16} {fresh : Random 32} {s s' : State} {token : Text}
    (h : issueSession crypto now nonce fresh s = .ok (s', token)) :
    ∃ r k, rev s.file = .ok r ∧ s'.file = s.file ∧ HasKey k s' ∧ ∀ u t fresh', HasKey k u →
      sessionOk crypto t fresh' u token =
        if now + sessionTtl < t then .ok false else (rev u.file).map (fun cur => decide (r = cur)) := by
  cases hr : rev s.file with
  | error e => simp [issueSession, hr, bind, Except.bind] at h
  | ok r =>
    cases hp : payloadText (now + sessionTtl) (hexText nonce.1) r with
    | error e => simp [issueSession, hr, hp, bind, Except.bind] at h
    | ok p =>
      obtain ⟨k, hk, hs, hf⟩ := sessionSecret_hasKey fresh s
      simp only [issueSession, hr, hp, bind, Except.bind, pure, Except.pure, Except.ok.injEq, Prod.mk.injEq] at h
      obtain ⟨rfl, rfl⟩ := h
      refine ⟨r, k, rfl, hf, hk, fun u t fresh' hu => ?_⟩
      have hn : hexText nonce.1 ≠ [] := by
        intro he
        have := hexText_length nonce.1
        rw [he, nonce.2] at this
        simp at this
      have hread := readPayload_payloadText hn (fun c hc => mem_hexText hc) hp
      have hpne : toAsciiBytes p ≠ [] := by
        intro he
        rw [he] at hread
        simp [readPayload, ofAsciiBytes, splitColons, records] at hread
      have hm := crypto.hmac_length (k.take 32) (toAsciiBytes p)
      have hlen : ¬(toAsciiBytes p ++ crypto.hmac (k.take 32) (toAsciiBytes p)).length < 33 := by
        have := List.length_pos_of_ne_nil hpne
        rw [List.length_append, hm]
        omega
      have hcut : (toAsciiBytes p ++ crypto.hmac (k.take 32) (toAsciiBytes p)).length - 32 =
          (toAsciiBytes p).length := by rw [List.length_append, hm]; omega
      rw [hs, sessionOk, if_neg (b64e_ne_nil (by simp [hpne])), b64d_b64e]
      simp only [hcut, List.take_left', List.drop_left', if_neg hlen, sessionSecret_of_hasKey hu, hread,
        ne_eq, not_true_eq_false, if_false]

end Token

end ObserverClub.Auth
