import ObserverClub.CanonBinding
import ObserverClub.Library.JsonOrder
import ObserverClub.Library.Trace
import ObserverClub.Publishing

namespace ObserverClub

open Library Json

namespace Go

def spell (c : ℕ) : Text :=
  (basicEscape c).getD (if c = 38 ∨ c = 60 ∨ c = 62 ∨ c = 0x2028 ∨ c = 0x2029 then hexEscape c else [c])

def unitOf (c : ℕ) : StrUnit := if spell c = hexEscape c then .esc c else .char c

theorem encode_hexEscape (c : ℕ) : Utf8.encode (hexEscape c) = asciiBytes (hexEscape c) := by
  have digit (n : ℕ) : hexDigit (n % 16) < 128 := (hexDigit_spec (by omega)).2
  apply Canon.encode_ascii
  intro d hd
  simp only [hexEscape, List.mem_cons, List.not_mem_nil, or_false] at hd
  obtain rfl | rfl | rfl | rfl | rfl | rfl := hd
  · decide
  · decide
  all_goals exact digit _

theorem encode_spell (c : ℕ) : Utf8.encode (spell c) = quoteChar c := by
  unfold spell quoteChar
  obtain ⟨e, h, -, -, hlt⟩ | ⟨h, -⟩ | ⟨h, -⟩ := basicEscape_cases c
  · rw [h]
    apply Canon.encode_ascii
    intro d hd
    rw [Option.getD_some] at hd
    simp only [List.mem_cons, List.not_mem_nil, or_false] at hd
    omega
  · rw [h]
    exact encode_hexEscape c
  · rw [h, Option.getD_none]
    split_ifs
    · exact encode_hexEscape c
    · rw [Utf8.encode_cons, Utf8.encode_nil, List.append_nil]

theorem spell_spelling : Spelling spell unitOf where
  read c s r us hread := by
    by_cases hhex : spell c = hexEscape c
    · rw [unitOf, if_pos hhex, hhex]
      refine readString_hex ?_ hread
      unfold spell at hhex
      obtain ⟨e, h, -⟩ | ⟨-, hc⟩ | ⟨h, -⟩ := basicEscape_cases c
      · simp [h, hexEscape] at hhex
      · omega
      · rw [h, Option.getD_none] at hhex
        split_ifs at hhex with hc
        · omega
        · simp [hexEscape] at hhex
    · rw [unitOf, if_neg hhex]
      unfold spell at hhex ⊢
      obtain ⟨e, h, h117, -⟩ | ⟨h, -⟩ | ⟨h, h32, h34, h92⟩ := basicEscape_cases c
      · rw [h]
        exact readString_short h117 (simpleEscape_of_basicEscape h) hread
      · rw [h] at hhex
        exact absurd rfl hhex
      · rw [h, Option.getD_none] at hhex ⊢
        split_ifs at hhex ⊢ with hc
        · exact absurd rfl hhex
        · exact readString_char h32 h34 h92 hread
  form c := by
    unfold unitOf
    split_ifs with hhex
    · refine Or.inr ⟨rfl, ?_⟩
      unfold spell at hhex
      obtain ⟨e, h, -⟩ | ⟨-, hc⟩ | ⟨h, -⟩ := basicEscape_cases c
      · simp [h, hexEscape] at hhex
      · omega
      · rw [h, Option.getD_none] at hhex
        split_ifs at hhex with hc
        · omega
        · simp [hexEscape] at hhex
    · exact Or.inl rfl

/-- The text that `json.Marshal` writes for a value whose members are in order. -/
def textWriter : Json.Writer Text ℕ where
  symbol := id
  num := id
  str t := 34 :: t.flatMap spell ++ [34]
  key t := 34 :: t.flatMap spell ++ [34]
  arrange := id

def literal : Test Text := ⟨fun lit => readNumber lit = some (lit, []), Utf8.valid, Utf8.valid⟩

theorem textWriter_spelled : Spelled dialect spell unitOf Tree.num literal textWriter where
  toSpelling := spell_spelling
  symbol c := rfl
  num lit h := by
    have hlit : readNumber lit = some (lit, []) := of_decide_eq_true h
    obtain ⟨-, hne⟩ := readNumber_split hlit
    obtain ⟨c, s, rfl⟩ := List.exists_cons_of_ne_nil hne
    have hhead : isDigit c = true ∨ c = 45 := (readNumber_head hlit).imp_right And.left
    have hc : c ≠ 34 ∧ c ≠ 91 ∧ c ≠ 93 ∧ c ≠ 123 ∧ isWs c = false := by
      simp only [isDigit, Bool.and_eq_true, decide_eq_true_eq] at hhead
      simp only [isWs, Bool.or_eq_false_iff, beq_eq_false_iff_ne]
      omega
    obtain ⟨h34, h91, h93, h123, hws⟩ := hc
    refine ⟨c, s, rfl, h34, h91, h93, h123, hws, fun r hr => ?_⟩
    have hagain := readNumber_again hlit hr
    rw [readScalar, keywordAt_number hlit r, ← List.cons_append, hagain]
    rfl
  str t := rfl
  key t := rfl
  arrange ms := rfl

theorem encode_quoted (t : Text) : Utf8.encode (34 :: t.flatMap spell ++ [34]) = quote t := by
  have hbody : Utf8.encode (t.flatMap spell) = t.flatMap quoteChar := by
    induction t with
    | nil => rfl
    | cons c t ih => rw [List.flatMap_cons, Utf8.encode_append, encode_spell, ih, List.flatMap_cons]
  rw [List.cons_append, Utf8.encode_cons, Utf8.encode_append, hbody, quote]
  rfl

theorem textWriter_encodes : Writer.Encodes Utf8.encode textWriter jsonWriter.unarranged where
  nil := rfl
  append := Utf8.encode_append
  symbol c hc := by
    show Utf8.encode [c] = [UInt8.ofNat c]
    rw [Utf8.encode_cons, Utf8.encodeRune_ascii hc]
    rfl
  num lit := rfl
  str := encode_quoted
  key := encode_quoted
  arrange ms := rfl

theorem jsonMarshal_eq (v : Value) : jsonMarshal v = Utf8.encode (textWriter.render (inOrder keyLt v)) := by
  rw [textWriter_encodes.render, jsonMarshal, Writer.render_inOrder rfl]

theorem spell_scalar {c : ℕ} (hc : Utf8.IsScalar c) : ∀ d ∈ spell c, Utf8.IsScalar d := by
  have ascii {d : ℕ} (h : d < 128) : Utf8.IsScalar d := Or.inl (by omega)
  have escape : ∀ d ∈ hexEscape c, Utf8.IsScalar d := by
    have digit (n : ℕ) : hexDigit (n % 16) < 128 := (hexDigit_spec (by omega)).2
    intro d hd
    simp only [hexEscape, List.mem_cons, List.not_mem_nil, or_false] at hd
    obtain rfl | rfl | rfl | rfl | rfl | rfl := hd
    · exact ascii (by decide)
    · exact ascii (by decide)
    all_goals exact ascii (digit _)
  unfold spell
  obtain ⟨e, h, -, -, hlt⟩ | ⟨h, -⟩ | ⟨h, -⟩ := basicEscape_cases c
  · rw [h, Option.getD_some]
    intro d hd
    simp only [List.mem_cons, List.not_mem_nil, or_false] at hd
    exact ascii (by omega)
  · rw [h, Option.getD_some]
    exact escape
  · rw [h, Option.getD_none]
    split_ifs
    · exact escape
    · intro d hd
      rw [List.mem_singleton.mp hd]
      exact hc

theorem quoted_scalar {t : Text} (h : Utf8.valid t = true) : ∀ c ∈ 34 :: t.flatMap spell ++ [34], Utf8.IsScalar c := by
  intro c hc
  simp only [List.cons_append, List.mem_cons, List.mem_append, List.mem_flatMap, List.not_mem_nil, or_false] at hc
  obtain rfl | ⟨d, hd, hc⟩ | rfl := hc
  · decide
  · exact spell_scalar (of_decide_eq_true (List.all_eq_true.mp h d hd)) c hc
  · decide

theorem textWriter_valid {v : Value} (h : v.all literal = true) : Utf8.valid (textWriter.render v) = true := by
  have hw : Writer.Within Utf8.IsScalar textWriter literal := by
    refine ⟨fun c hc => Or.inl ?_, fun lit hlit c hc => Or.inl ?_, fun t => quoted_scalar, fun t => quoted_scalar,
      fun ms m hm => hm⟩
    · show c < 0xD800
      omega
    · have hlt := Canon.isNumberChar_lt (readNumber_chars (of_decide_eq_true hlit) c hc)
      omega
  rw [Utf8.valid, List.all_eq_true]
  exact fun c hc => decide_eq_true (hw.render v h c hc)

/-- A value that `json.Marshal` writes so that it can be decoded. -/
structure Writable (v : Value) : Prop where
  literals : v.all literal = true
  distinct : v.Distinct
  shallow : v.depth ≤ maxNestingDepth

theorem decodeJSON_jsonMarshal {v : Value} (h : Writable v) :
    Canon.decodeJSON (jsonMarshal v) = some (inOrder keyLt v) := by
  have hall := (all_inOrder keyLt literal v).mpr h.literals
  have htext := Utf8.decodeLossy_of_decode (Utf8.decode_encode (textWriter_valid hall))
  have hread := textWriter_spelled.readFirst (inOrder keyLt v) hall ((depth_inOrder_le keyLt v).trans h.shallow)
  have hnum (n : Text) : ofTree reading (Tree.num n) = Json.num (id n) := rfl
  have htree := ofTree_treeBy spell_spelling rfl hnum (inOrder keyLt v) (distinct_inOrder keyLt v h.distinct)
  have hid : (inOrder keyLt v).map id = inOrder keyLt v := by
    apply (map_eq_self_iff id _).mpr
    simp only [id, decide_true]
    exact all_true _
  rw [Canon.decodeJSON, jsonMarshal_eq, htext, hread]
  exact congrArg some (htree.trans hid)

theorem decoded_writable {data : Bytes} {v : Value} (h : Canon.decodeJSON data = some v) : Writable v := by
  have hu := decodeJSON_unicode h
  unfold Canon.decodeJSON at h
  cases hr : readFirst dialect (Utf8.decodeLossy data) with
  | error e =>
    rw [hr] at h
    cases h
  | ok q =>
    obtain ⟨tree, r⟩ := q
    rw [hr] at h
    obtain rfl := Option.some.inj h
    refine ⟨?_, ofTree_distinct _ _, (depth_ofTree_le _ _).trans (readFirst_fits hr).1⟩
    have hfrom := (readFirst_from (Q := fun _ => True) hr (fun _ _ => trivial)).2
    have hnum : (ofTree reading tree).all ⟨literal.num, fun _ => true, fun _ => true⟩ = true := by
      refine ofTree_all ?_ (fun h => by simp [readFrom, dialect] at h) (fun _ _ => ⟨rfl, rfl⟩) tree hfrom
      rintro lit ⟨⟨s, r, hlit⟩, -⟩
      have hagain : readNumber (lit ++ []) = some (lit, []) := readNumber_again hlit (by simp [NumberEnds])
      rw [List.append_nil] at hagain
      exact decide_eq_true hagain
    have he : Entails ⟨literal.num, fun _ => true, fun _ => true⟩ (unicode Text) literal :=
      ⟨fun _ h _ => h, fun _ _ h => h, fun _ _ h => h⟩
    exact he.all _ hnum hu

theorem Writable.setItem {ms : List (Text × Value)} (h : Writable (.obj ms)) (key : String) {w : Value}
    (hkey : Utf8.valid (txt key) = true) (hw : w.all literal = true) (hflat : w.depth = 0) (hd : w.Distinct) :
    Writable (setItem (.obj ms) key w) := by
  have hmem := (allMembers_iff literal ms).mp h.literals
  have hdepth : ∀ m ∈ ms, m.2.depth + 1 ≤ maxNestingDepth := by
    intro m hm
    have hle := (depthMembers_le_iff ms _).mp (le_refl _) m hm
    have hshallow := h.shallow
    rw [depth] at hshallow
    omega
  refine ⟨?_, ?_, ?_⟩
  · apply (allMembers_iff _ _).mpr
    rw [List.forall_mem_cons]
    exact ⟨⟨hkey, hw⟩, fun m hm => hmem m (List.mem_of_mem_filter hm)⟩
  · rw [Go.setItem, Distinct]
    constructor
    · rw [List.map_cons, List.nodup_cons]
      constructor
      · intro hm
        obtain ⟨m, hm, hkey⟩ := List.mem_map.mp hm
        exact of_decide_eq_true (List.mem_filter.mp hm).2 hkey
      · exact h.distinct.1.sublist (List.filter_sublist.map Prod.fst)
    · apply (distinctMembers_iff _).mpr
      rw [List.forall_mem_cons]
      exact ⟨hd, fun m hm => (distinctMembers_iff ms).mp h.distinct.2 m (List.mem_of_mem_filter hm)⟩
  · rw [Go.setItem, depth]
    apply Nat.succ_le_of_lt
    apply Nat.lt_of_le_of_lt (m := maxNestingDepth - 1)
    · apply (depthMembers_le_iff _ _).mpr
      rw [List.forall_mem_cons]
      constructor
      · rw [hflat]
        exact Nat.zero_le _
      · intro m hm
        have hle := hdepth m (List.mem_of_mem_filter hm)
        omega
    · decide

theorem keyLt_orders : Orders (fun k => Utf8.valid k = true) keyLt where
  asymm a b := List.lt_asymm
  trans a b c hab hbc := by
    unfold keyLt at hab hbc ⊢
    rw [List.not_lt] at hab hbc ⊢
    exact List.le_trans hab hbc
  apart a b ha hb hab hba := by
    unfold keyLt at hab hba
    rw [List.not_lt] at hab hba
    have he := List.le_antisymm hba hab
    have hdecode := Utf8.decode_encode ha
    rw [he, Utf8.decode_encode hb] at hdecode
    exact (Option.some.inj hdecode).symm

theorem marshal_inOrder {v : Value} (h : Writable v) : Canon.marshal (inOrder keyLt v) = Canon.marshal v := by
  have hrender (u : Value) : Canon.writer.render u = Canon.writer.unarranged.render (inOrder keyLt u) :=
    Writer.render_inOrder rfl u
  rw [Canon.marshal, Canon.marshal, hrender, hrender, Canon.stripSig, Canon.stripSig,
    inOrder_without keyLt_orders (fun _ hk => hk) _ v h.distinct h.literals]

theorem marshal_signed (ms : List (Text × Value)) (sig : Value) :
    Canon.marshal (setItem (.obj ms) "sig" sig) = Canon.marshal (.obj ms) := by
  have hstrip : Canon.stripSig (setItem (.obj ms) "sig" sig) = Canon.stripSig (.obj ms) := by
    rw [Canon.stripSig, Canon.stripSig, setItem, without, without, withoutMembers_eq, withoutMembers_eq]
    simp
  rw [Canon.marshal, Canon.marshal, hstrip]

theorem hexDecode_hexText (s : Bytes) : hexDecode (hexText s) = some s := by
  induction s with
  | nil => rfl
  | cons b s ih =>
    have hb := b.toNat_lt
    rw [hexText, List.flatMap_cons]
    show hexDecode (hexDigit (b.toNat / 16) :: hexDigit (b.toNat % 16) :: hexText s) = _
    simp only [hexDecode, hexValue_hexDigit (show b.toNat / 16 < 16 by omega),
      hexValue_hexDigit (show b.toNat % 16 < 16 by omega), ih, Option.some.injEq, List.cons.injEq, and_true]
    rw [Nat.div_add_mod, UInt8.ofNat_toNat]

theorem stringOf_inOrder {v : Value} (h : v.Distinct) (key : String) :
    stringOf (inOrder keyLt v) key = stringOf v key := by
  unfold stringOf item
  rw [get_inOrder _ v h]
  cases v.get (txt key) with
  | none => rfl
  | some w => cases w <;> rfl

theorem item_inOrder {v : Value} (h : v.Distinct) (key : String) :
    item (inOrder keyLt v) key = inOrder keyLt (item v key) := by
  unfold item
  rw [get_inOrder _ v h]
  cases v.get (txt key) <;> rfl

end Go

end ObserverClub
