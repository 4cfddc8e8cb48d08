import ObserverClub.LinkCids

/-!
dag-pb blocks as go-merkledag writes them, links first, and what `parse_dag_pb` makes of them.
-/

namespace ObserverClub.UnixFs

open Library Python

section Fields

theorem readVarint_length {n : ℕ} {data rest : Bytes} (h : readVarint data = some (n, rest)) : rest.length < data.length := by
  induction data generalizing n with
  | nil => cases h
  | cons b data ih =>
    rw [readVarint] at h
    split_ifs at h with hlast
    · obtain ⟨-, rfl⟩ := Prod.mk.inj (Option.some.inj h)
      exact Nat.lt_succ_self _
    · rw [Option.map_eq_some_iff] at h
      obtain ⟨⟨v, tail⟩, hv, hr⟩ := h
      obtain ⟨-, rfl⟩ := Prod.mk.inj hr
      exact Nat.lt_succ_of_lt (ih hv)

def readField (rest : Bytes → Option (List Field)) (data : Bytes) : Option (List Field) := do
  let (key, data) ← readVarint data
  let field := key / 8
  match key % 8 with
  | 0 =>
    let (n, data) ← readVarint data
    return ⟨field, .varint n⟩ :: (← rest data)
  | 2 =>
    let (length, data) ← readVarint data
    return ⟨field, .bytes (data.take length)⟩ :: (← rest (data.drop length))
  | 5 => return ⟨field, .fixed (data.take 4)⟩ :: (← rest (data.drop 4))
  | 1 => return ⟨field, .fixed (data.take 8)⟩ :: (← rest (data.drop 8))
  | _ => return []

theorem readField_congr {f g : Bytes → Option (List Field)} {data : Bytes}
    (h : ∀ rest : Bytes, rest.length < data.length → f rest = g rest) : readField f data = readField g data := by
  unfold readField
  cases hkey : readVarint data with
  | none => rfl
  | some r =>
    obtain ⟨key, rest⟩ := r
    have hrest := readVarint_length hkey
    simp only [Option.bind_eq_bind, Option.bind_some]
    have hdrop (k : ℕ) : f (rest.drop k) = g (rest.drop k) := by
      apply h
      rw [List.length_drop]
      omega
    split
    · cases hn : readVarint rest with
      | none => rfl
      | some r =>
        have hlt := @readVarint_length r.1 rest r.2 hn
        simp only [Option.bind_some, h r.2 (lt_trans hlt hrest)]
    · cases hn : readVarint rest with
      | none => rfl
      | some r =>
        have hlt := @readVarint_length r.1 rest r.2 hn
        have htail : f (r.2.drop r.1) = g (r.2.drop r.1) := by
          apply h
          rw [List.length_drop]
          omega
        simp only [Option.bind_some, htail]
    · rw [hdrop]
    · rw [hdrop]
    · rfl

theorem readFieldsFrom_succ (fuel : ℕ) {data : Bytes} (h : data ≠ []) :
    readFieldsFrom (fuel + 1) data = readField (readFieldsFrom fuel) data := by
  cases data with
  | nil => exact absurd rfl h
  | cons b data => rfl

theorem readFieldsFrom_fuel {fuel : ℕ} {data : Bytes} (h : data.length ≤ fuel) : readFieldsFrom fuel data = readFields data := by
  induction hn : data.length using Nat.strongRecOn generalizing fuel data with
  | ind n ih =>
    subst hn
    cases data with
    | nil => cases fuel <;> rfl
    | cons b data =>
      obtain ⟨fuel, rfl⟩ : ∃ f, fuel = f + 1 := ⟨fuel - 1, by rw [List.length_cons] at h; omega⟩
      rw [readFields, List.length_cons, readFieldsFrom_succ _ (List.cons_ne_nil _ _),
        readFieldsFrom_succ _ (List.cons_ne_nil _ _)]
      apply readField_congr
      intro rest hrest
      rw [List.length_cons] at h hrest
      rw [ih rest.length (by rw [List.length_cons]; omega) (by omega) rfl,
        ih rest.length (by rw [List.length_cons]; omega) (by omega) rfl]

theorem readFields_nil : readFields [] = some [] := rfl

theorem readFields_ne {data : Bytes} (h : data ≠ []) : readFields data = readField readFields data := by
  obtain ⟨b, rest, rfl⟩ := List.exists_cons_of_ne_nil h
  rw [readFields, List.length_cons, readFieldsFrom_succ _ h]
  apply readField_congr
  intro tail htail
  apply readFieldsFrom_fuel
  rw [List.length_cons] at htail
  omega

end Fields

/-! The writing side, as the tests build their blocks. -/

def tag (field wire : ℕ) : Bytes := Varint.encode (field * 8 + wire)

def bytesField (field : ℕ) (value : Bytes) : Bytes := tag field 2 ++ (Varint.encode value.length ++ value)

def varintField (field value : ℕ) : Bytes := tag field 0 ++ Varint.encode value

def unixfsData (typeCode : ℕ) (data : Bytes) (filesize : Option ℕ) (blocksizes : List ℕ) : Bytes :=
  varintField 1 typeCode ++ (if data = [] then [] else bytesField 2 data) ++ filesize.elim [] (varintField 3) ++
    blocksizes.flatMap (varintField 4)

/-- `_link`; nothing where it raises. -/
def link (cid : Text) (name : Option Text) (tsize : ℕ) : Option Bytes := do
  let digest ← if cid.take 2 = txt "Qm" then Cid.b58decode cid else none
  let name ← match name with
    | none => some []
    | some name => if Utf8.valid name then some (bytesField 2 (Utf8.encode name)) else none
  return bytesField 1 digest ++ name ++ varintField 3 tsize

/-- `pb_node` -/
def pbNode (pbdata : Option Bytes) (links : List (Text × Option Text × ℕ)) : Option Bytes := do
  let links ← links.mapM fun (cid, name, tsize) => link cid name tsize
  return links.flatMap (bytesField 2) ++ pbdata.elim [] (bytesField 1)

theorem readVarint_encode_append (n : ℕ) (rest : Bytes) : readVarint (Varint.encode n ++ rest) = some (n, rest) := by
  induction n using Nat.strongRecOn with
  | ind n ih =>
    rw [Varint.encode]
    split_ifs with hn
    · rw [List.singleton_append, readVarint, Varint.toNat_ofNat (by omega), if_pos hn]
    · have hbyte : (UInt8.ofNat (n % 128 + 128)).toNat = n % 128 + 128 := Varint.toNat_ofNat (by omega)
      have hvalue : (n % 128 + 128) % 128 + 128 * (n / 128) = n := by omega
      rw [List.cons_append, readVarint, hbyte, if_neg (by omega), ih (n / 128) (by omega), Option.map_some, hvalue]

theorem readFields_bytesField (field : ℕ) (value rest : Bytes) :
    readFields (bytesField field value ++ rest) = (readFields rest).map (⟨field, .bytes value⟩ :: ·) := by
  have hkey : (field * 8 + 2) / 8 = field ∧ (field * 8 + 2) % 8 = 2 := by omega
  rw [bytesField, tag, readFields_ne (by simp [Varint.encode_ne_nil]), List.append_assoc, List.append_assoc, readField,
    readVarint_encode_append]
  simp only [Option.bind_eq_bind, Option.bind_some, hkey, readVarint_encode_append, List.take_left, List.drop_left,
    Option.pure_def]
  cases readFields rest <;> rfl

theorem readFields_varintField (field n : ℕ) (rest : Bytes) :
    readFields (varintField field n ++ rest) = (readFields rest).map (⟨field, .varint n⟩ :: ·) := by
  have hkey : (field * 8 + 0) / 8 = field ∧ (field * 8 + 0) % 8 = 0 := by omega
  rw [varintField, tag, readFields_ne (by simp [Varint.encode_ne_nil]), List.append_assoc, readField,
    readVarint_encode_append]
  simp only [Option.bind_eq_bind, Option.bind_some, hkey, readVarint_encode_append, Option.pure_def]
  cases readFields rest <;> rfl

theorem readFields_flatMap {α : Type} {write : α → Bytes} {field : α → Field} (xs : List α)
    (h : ∀ x ∈ xs, ∀ rest, readFields (write x ++ rest) = (readFields rest).map (field x :: ·)) (rest : Bytes) :
    readFields (xs.flatMap write ++ rest) = (readFields rest).map (xs.map field ++ ·) := by
  induction xs with
  | nil =>
    rw [List.flatMap_nil, List.nil_append, List.map_nil]
    cases readFields rest <;> rfl
  | cons x xs ih =>
    obtain ⟨hx, hxs⟩ := List.forall_mem_cons.mp h
    rw [List.flatMap_cons, List.append_assoc, hx, ih hxs, Option.map_map]
    rfl

theorem decodeReplace_encode {t : Text} (h : Utf8.valid t = true) : decodeReplace (Utf8.encode t) = t := by
  have hskip (a s : Bytes) : decodeReplaceFrom a.length (a ++ s) = decodeReplaceFrom 0 s := by
    induction a with
    | nil => rfl
    | cons b a ih => exact ih
  rw [decodeReplace]
  induction t with
  | nil => rfl
  | cons c t ih =>
    simp only [Utf8.valid, List.all_cons, Bool.and_eq_true, decide_eq_true_eq] at h
    have hd := Utf8.decodeRune_encodeRune h.1 (Utf8.encode t)
    obtain ⟨b, a, hb⟩ : ∃ b a, Utf8.encodeRune c = b :: a := by
      unfold Utf8.encodeRune
      split_ifs <;> exact ⟨_, _, rfl⟩
    rw [Utf8.encode_cons]
    rw [hb] at hd ⊢
    rw [List.cons_append] at hd ⊢
    rw [decodeReplaceFrom, hd]
    simp only [List.length_cons, Nat.add_sub_cancel, hskip]
    rw [ih h.2]

/-- What a link points at: a CIDv0, a name that UTF-8 can spell, a size. -/
structure Target where
  digest : Bytes
  length : digest.length = 32
  name : Option Text
  name_valid : ∀ t ∈ name, Utf8.valid t = true
  tsize : ℕ

def Target.hash (t : Target) : Bytes := 0x12 :: 0x20 :: t.digest

def Target.cid (t : Target) : Text := b58encode t.hash

def Target.bytes (t : Target) : Bytes :=
  bytesField 1 t.hash ++ t.name.elim [] (fun name => bytesField 2 (Utf8.encode name)) ++ varintField 3 t.tsize

theorem link_target (t : Target) : link t.cid t.name t.tsize = some t.bytes := by
  obtain ⟨-, hqm⟩ := b58encode_v0 t.length
  rw [link, Target.cid, Target.hash, if_pos hqm, b58decode_b58encode, Target.bytes, Target.hash]
  cases hname : t.name with
  | none => rfl
  | some name =>
    have hvalid := t.name_valid name (by rw [hname]; rfl)
    simp only [Option.bind_eq_bind, Option.bind_some, if_pos hvalid]
    rfl

theorem readFields_target (t : Target) : readFields t.bytes =
    some (⟨1, .bytes t.hash⟩ :: (t.name.elim [] fun name => [⟨2, .bytes (Utf8.encode name)⟩]) ++ [⟨3, .varint t.tsize⟩]) := by
  have hsize := readFields_varintField 3 t.tsize []
  rw [List.append_nil, readFields_nil, Option.map_some] at hsize
  rw [Target.bytes, List.append_assoc, readFields_bytesField]
  cases t.name with
  | none =>
    rw [Option.elim_none, List.nil_append, hsize]
    rfl
  | some name =>
    rw [Option.elim_some, readFields_bytesField, hsize]
    rfl

theorem linkOf_target (t : Target) (fields : List Field) (h : readFields t.bytes = some fields) :
    linkOf fields = some ⟨t.name, t.cid⟩ := by
  rw [readFields_target] at h
  obtain rfl := Option.some.inj h
  have hcid : cidFromHash t.hash = t.cid := cidFromHash_v0 t.length
  cases hname : t.name with
  | none =>
    rw [Option.elim_none, linkOf]
    simp only [List.cons_append, List.nil_append, List.foldl_cons, List.foldl_nil, hcid]
  | some name =>
    have hvalid := t.name_valid name (by rw [hname]; rfl)
    rw [Option.elim_some, linkOf]
    simp only [List.cons_append, List.nil_append, List.foldl_cons, List.foldl_nil, hcid, decodeReplace_encode hvalid]

theorem readOuter_targets (ts : List Target) (pbdata : Bytes) :
    readOuter (ts.map (fun t => ⟨2, .bytes t.bytes⟩) ++ [⟨1, .bytes pbdata⟩]) =
      some (some pbdata, ts.map fun t => ⟨t.name, t.cid⟩) := by
  induction ts with
  | nil => rfl
  | cons t ts ih =>
    rw [List.map_cons, List.cons_append, readOuter, ih]
    obtain ⟨fields, hfields⟩ : ∃ fields, readFields t.bytes = some fields := ⟨_, readFields_target t⟩
    simp only [Option.bind_eq_bind, Option.bind_some, hfields, linkOf_target t fields hfields]
    rfl

theorem readFields_unixfsData (typeCode : ℕ) (data : Bytes) (filesize : Option ℕ) (blocksizes : List ℕ) :
    readFields (unixfsData typeCode data filesize blocksizes) =
      some (⟨1, .varint typeCode⟩ :: (if data = [] then [] else [⟨2, .bytes data⟩]) ++
        (filesize.elim [] fun size => [⟨3, .varint size⟩]) ++ blocksizes.map fun size => ⟨4, .varint size⟩) := by
  have hsizes := @readFields_flatMap _ (varintField 4) (fun size => ⟨4, .varint size⟩) blocksizes
    (fun size _ rest => readFields_varintField 4 size rest) []
  rw [List.append_nil, readFields_nil, Option.map_some, List.append_nil] at hsizes
  have hfilesize : readFields (filesize.elim [] (varintField 3) ++ blocksizes.flatMap (varintField 4)) =
      some ((filesize.elim [] fun size => [⟨3, .varint size⟩]) ++ blocksizes.map fun size => ⟨4, .varint size⟩) := by
    cases filesize with
    | none => exact hsizes
    | some size =>
      rw [Option.elim_some, readFields_varintField, hsizes]
      rfl
  rw [unixfsData, List.append_assoc, List.append_assoc, readFields_varintField]
  split_ifs with hdata
  · rw [List.nil_append, hfilesize]
    rfl
  · rw [readFields_bytesField, hfilesize]
    rfl

theorem foldl_blocksizes (blocksizes : List ℕ) (node : Node) :
    (blocksizes.map fun size => (⟨4, .varint size⟩ : Field)).foldl readData node = node := by
  induction blocksizes with
  | nil => rfl
  | cons size sizes ih => exact ih

theorem pbNode_targets (pbdata : Bytes) (ts : List Target) :
    pbNode (some pbdata) (ts.map fun t => (t.cid, t.name, t.tsize)) =
      some ((ts.map Target.bytes).flatMap (bytesField 2) ++ bytesField 1 pbdata) := by
  have hlinks : (ts.map fun t => (t.cid, t.name, t.tsize)).mapM (fun l => link l.1 l.2.1 l.2.2) = some (ts.map Target.bytes) := by
    induction ts with
    | nil => rfl
    | cons t ts ih =>
      rw [List.map_cons, List.mapM_cons, link_target, ih]
      rfl
  rw [pbNode, hlinks]
  rfl

/-- `parse_dag_pb` gives back what was encoded. -/
theorem parseDagPb_pbNode (typeCode : ℕ) (data : Bytes) (filesize : Option ℕ) (blocksizes : List ℕ) (ts : List Target) :
    (pbNode (some (unixfsData typeCode data filesize blocksizes)) (ts.map fun t => (t.cid, t.name, t.tsize))).bind parseDagPb =
      some {
        unixfsType := some ((unixfsTypes.lookup typeCode).getD (txt "unknown"))
        inlineData := data
        links := ts.map fun t => ⟨t.name, t.cid⟩
        filesize } := by
  have hdata := readFields_bytesField 1 (unixfsData typeCode data filesize blocksizes) []
  rw [List.append_nil, readFields_nil, Option.map_some] at hdata
  have houter : readFields ((ts.map Target.bytes).flatMap (bytesField 2) ++ bytesField 1
    (unixfsData typeCode data filesize blocksizes)) =
      some ((ts.map fun t => ⟨2, .bytes t.bytes⟩) ++ [⟨1, .bytes (unixfsData typeCode data filesize blocksizes)⟩]) := by
    rw [readFields_flatMap _ fun value _ rest => readFields_bytesField 2 value rest, hdata, Option.map_some, List.map_map]
    rfl
  rw [pbNode_targets, Option.bind_some, parseDagPb, houter]
  simp only [Option.bind_eq_bind, Option.bind_some, readOuter_targets, Option.elim_some, readFields_unixfsData, List.foldl_append,
    foldl_blocksizes, Option.pure_def, List.foldl_cons]
  split_ifs with hempty
  · cases filesize with
    | none => rw [hempty]; rfl
    | some size => rw [hempty]; rfl
  · cases filesize <;> rfl

end ObserverClub.UnixFs
