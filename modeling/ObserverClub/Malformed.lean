import ObserverClub.DagPb

/-!
Which malformed dag-pb blocks `parse_dag_pb` refuses: those where a varint has no end.
-/

namespace ObserverClub.UnixFs

open Library Python

inductive Complete : Bytes → List Field → Prop
  | nil : Complete [] []
  | varint {key value rest : Bytes} {field n : ℕ} {fields : List Field} (hkey : Varint.Spells key (field * 8))
      (hvalue : Varint.Spells value n) (hrest : Complete rest fields) :
      Complete (key ++ (value ++ rest)) (⟨field, .varint n⟩ :: fields)
  | bytes {key length value rest : Bytes} {field : ℕ} {fields : List Field} (hkey : Varint.Spells key (field * 8 + 2))
      (hlength : Varint.Spells length value.length) (hrest : Complete rest fields) :
      Complete (key ++ (length ++ (value ++ rest))) (⟨field, .bytes value⟩ :: fields)
  | fixed32 {key value rest : Bytes} {field : ℕ} {fields : List Field} (hkey : Varint.Spells key (field * 8 + 5))
      (hvalue : value.length = 4) (hrest : Complete rest fields) :
      Complete (key ++ (value ++ rest)) (⟨field, .fixed value⟩ :: fields)
  | fixed64 {key value rest : Bytes} {field : ℕ} {fields : List Field} (hkey : Varint.Spells key (field * 8 + 1))
      (hvalue : value.length = 8) (hrest : Complete rest fields) :
      Complete (key ++ (value ++ rest)) (⟨field, .fixed value⟩ :: fields)

def dataOf (f : Field) : Option Bytes :=
  match f.number, f.value with
  | 1, .bytes data => some data
  | _, _ => none

def linkIn (f : Field) : Option Bytes :=
  match f.number, f.value with
  | 2, .bytes link => some link
  | _, _ => none

/-- Complete fields, in the links and the data as well. -/
def WellFormed (block : Bytes) : Prop :=
  ∃ fields, Complete block fields ∧
    ∀ f ∈ fields, (∀ link ∈ linkIn f, ∃ sub, Complete link sub) ∧ ∀ data ∈ dataOf f, ∃ sub, Complete data sub

def Unended (data : Bytes) : Prop := ∀ b ∈ data, 128 ≤ b.toNat

/-- The fields that a reader finds who takes what there is of one cut short and stops at a wire type he does not know. -/
inductive Reads : Bytes → List Field → Prop
  | nil : Reads [] []
  | varint {key value rest : Bytes} {k n : ℕ} {fields : List Field} (hkey : Varint.Spells key k) (hwire : k % 8 = 0)
      (hvalue : Varint.Spells value n) (hrest : Reads rest fields) :
      Reads (key ++ (value ++ rest)) (⟨k / 8, .varint n⟩ :: fields)
  | bytes {key length rest : Bytes} {k n : ℕ} {fields : List Field} (hkey : Varint.Spells key k) (hwire : k % 8 = 2)
      (hlength : Varint.Spells length n) (hrest : Reads (rest.drop n) fields) :
      Reads (key ++ (length ++ rest)) (⟨k / 8, .bytes (rest.take n)⟩ :: fields)
  | fixed {key rest : Bytes} {k w : ℕ} {fields : List Field} (hkey : Varint.Spells key k)
      (hwire : k % 8 = 5 ∧ w = 4 ∨ k % 8 = 1 ∧ w = 8) (hrest : Reads (rest.drop w) fields) :
      Reads (key ++ rest) (⟨k / 8, .fixed (rest.take w)⟩ :: fields)
  | unknown {key rest : Bytes} {k : ℕ} (hkey : Varint.Spells key k) (hwire : k % 8 ∉ [0, 1, 2, 5]) : Reads (key ++ rest) []

inductive RunsOut : Bytes → Prop
  | key {data : Bytes} (hne : data ≠ []) (h : Unended data) : RunsOut data
  | value {key data : Bytes} {k : ℕ} (hkey : Varint.Spells key k) (hwire : k % 8 ∈ [0, 2]) (h : Unended data) :
      RunsOut (key ++ data)
  | varint {key value rest : Bytes} {k n : ℕ} (hkey : Varint.Spells key k) (hwire : k % 8 = 0)
      (hvalue : Varint.Spells value n) (hrest : RunsOut rest) : RunsOut (key ++ (value ++ rest))
  | bytes {key length rest : Bytes} {k n : ℕ} (hkey : Varint.Spells key k) (hwire : k % 8 = 2)
      (hlength : Varint.Spells length n) (hrest : RunsOut (rest.drop n)) : RunsOut (key ++ (length ++ rest))
  | fixed {key rest : Bytes} {k w : ℕ} (hkey : Varint.Spells key k) (hwire : k % 8 = 5 ∧ w = 4 ∨ k % 8 = 1 ∧ w = 8)
      (hrest : RunsOut (rest.drop w)) : RunsOut (key ++ rest)

/-- A varint has no end: in the block, in one of its links, or in the last of its data. -/
def Unfinished (block : Bytes) : Prop :=
  RunsOut block ∨ ∃ fields, Reads block fields ∧
    ((∃ f ∈ fields, ∃ link ∈ linkIn f, RunsOut link) ∨ ∃ data ∈ (fields.filterMap dataOf).getLast?, RunsOut data)

section Varints

theorem readVarint_of_spells {form : Bytes} {n : ℕ} (h : Varint.Spells form n) (rest : Bytes) :
    readVarint (form ++ rest) = some (n, rest) := by
  induction h with
  | last hb => rw [List.singleton_append, readVarint, if_pos hb]
  | more hb tail ih => rw [List.cons_append, readVarint, if_neg (by omega), ih, Option.map_some]

theorem spells_of_readVarint {data rest : Bytes} {n : ℕ} (h : readVarint data = some (n, rest)) :
    ∃ form, Varint.Spells form n ∧ data = form ++ rest := by
  induction data generalizing n with
  | nil => cases h
  | cons b data ih =>
    rw [readVarint] at h
    split_ifs at h with hb
    · obtain ⟨rfl, rfl⟩ := Prod.mk.inj (Option.some.inj h)
      exact ⟨[b], .last hb, rfl⟩
    · rw [Option.map_eq_some_iff] at h
      obtain ⟨⟨v, tail⟩, hv, hr⟩ := h
      obtain ⟨rfl, rfl⟩ := Prod.mk.inj hr
      obtain ⟨form, hform, rfl⟩ := ih hv
      exact ⟨b :: form, .more (by omega) hform, rfl⟩

theorem readVarint_eq_none {data : Bytes} : readVarint data = none ↔ Unended data := by
  induction data with
  | nil =>
    constructor
    · intro _ b hb
      cases hb
    · intro _
      rfl
  | cons b data ih =>
    rw [Unended, List.forall_mem_cons, ← Unended, ← ih, readVarint]
    split_ifs with hb
    · constructor
      · intro h
        cases h
      · rintro ⟨hbig, -⟩
        omega
    · rw [Option.map_eq_none_iff]
      constructor
      · exact fun h => ⟨by omega, h⟩
      · exact fun h => h.2

end Varints

section Reading

theorem key_ne_nil {key : Bytes} {k : ℕ} (h : Varint.Spells key k) (rest : Bytes) : key ++ rest ≠ [] :=
  List.append_ne_nil_of_left_ne_nil h.ne_nil rest

theorem readFields_varint {key value rest : Bytes} {k n : ℕ} (hkey : Varint.Spells key k) (hwire : k % 8 = 0)
    (hvalue : Varint.Spells value n) :
    readFields (key ++ (value ++ rest)) = (readFields rest).map (⟨k / 8, .varint n⟩ :: ·) := by
  rw [readFields_ne (key_ne_nil hkey _), readField, readVarint_of_spells hkey]
  simp only [Option.bind_eq_bind, Option.bind_some, hwire, readVarint_of_spells hvalue, Option.pure_def]
  cases readFields rest <;> rfl

theorem readFields_bytes {key length rest : Bytes} {k n : ℕ} (hkey : Varint.Spells key k) (hwire : k % 8 = 2)
    (hlength : Varint.Spells length n) :
    readFields (key ++ (length ++ rest)) = (readFields (rest.drop n)).map (⟨k / 8, .bytes (rest.take n)⟩ :: ·) := by
  rw [readFields_ne (key_ne_nil hkey _), readField, readVarint_of_spells hkey]
  simp only [Option.bind_eq_bind, Option.bind_some, hwire, readVarint_of_spells hlength, Option.pure_def]
  cases readFields (rest.drop n) <;> rfl

theorem readFields_fixed {key rest : Bytes} {k w : ℕ} (hkey : Varint.Spells key k)
    (hwire : k % 8 = 5 ∧ w = 4 ∨ k % 8 = 1 ∧ w = 8) :
    readFields (key ++ rest) = (readFields (rest.drop w)).map (⟨k / 8, .fixed (rest.take w)⟩ :: ·) := by
  rw [readFields_ne (key_ne_nil hkey _), readField, readVarint_of_spells hkey]
  obtain ⟨hwire, rfl⟩ | ⟨hwire, rfl⟩ := hwire
  · simp only [Option.bind_eq_bind, Option.bind_some, hwire, Option.pure_def]
    cases readFields (rest.drop 4) <;> rfl
  · simp only [Option.bind_eq_bind, Option.bind_some, hwire, Option.pure_def]
    cases readFields (rest.drop 8) <;> rfl

theorem readFields_unknown {key rest : Bytes} {k : ℕ} (hkey : Varint.Spells key k) (hwire : k % 8 ∉ [0, 1, 2, 5]) :
    readFields (key ++ rest) = some [] := by
  have hnot : k % 8 ≠ 0 ∧ k % 8 ≠ 1 ∧ k % 8 ≠ 2 ∧ k % 8 ≠ 5 := by simpa using hwire
  rw [readFields_ne (key_ne_nil hkey _), readField, readVarint_of_spells hkey]
  simp only [Option.bind_eq_bind, Option.bind_some]
  split <;> first | omega | rfl

theorem readFields_value {key data : Bytes} {k : ℕ} (hkey : Varint.Spells key k) (hwire : k % 8 ∈ [0, 2]) (h : Unended data) :
    readFields (key ++ data) = none := by
  rw [readFields_ne (key_ne_nil hkey _), readField, readVarint_of_spells hkey]
  have hnone := readVarint_eq_none.mpr h
  obtain hwire | hwire : k % 8 = 0 ∨ k % 8 = 2 := by simpa using hwire
  · simp only [Option.bind_eq_bind, Option.bind_some, hwire, hnone, Option.bind_none]
  · simp only [Option.bind_eq_bind, Option.bind_some, hwire, hnone, Option.bind_none]

theorem readFields_of_reads {data : Bytes} {fields : List Field} (h : Reads data fields) : readFields data = some fields := by
  induction h with
  | nil => rfl
  | varint hkey hwire hvalue hrest ih => rw [readFields_varint hkey hwire hvalue, ih, Option.map_some]
  | bytes hkey hwire hlength hrest ih => rw [readFields_bytes hkey hwire hlength, ih, Option.map_some]
  | fixed hkey hwire hrest ih => rw [readFields_fixed hkey hwire, ih, Option.map_some]
  | unknown hkey hwire => exact readFields_unknown hkey hwire

theorem readFields_of_runsOut {data : Bytes} (h : RunsOut data) : readFields data = none := by
  induction h with
  | key hne h => rw [readFields_ne hne, readField, readVarint_eq_none.mpr h]; rfl
  | value hkey hwire h => exact readFields_value hkey hwire h
  | varint hkey hwire hvalue hrest ih => rw [readFields_varint hkey hwire hvalue, ih, Option.map_none]
  | bytes hkey hwire hlength hrest ih => rw [readFields_bytes hkey hwire hlength, ih, Option.map_none]
  | fixed hkey hwire hrest ih => rw [readFields_fixed hkey hwire, ih, Option.map_none]

theorem reads_or_runsOut (data : Bytes) : (∃ fields, Reads data fields) ∨ RunsOut data := by
  induction hn : data.length using Nat.strongRecOn generalizing data with
  | ind n ih =>
    subst hn
    by_cases hne : data = []
    · subst hne
      exact .inl ⟨[], .nil⟩
    cases hread : readVarint data with
    | none => exact .inr (.key hne (readVarint_eq_none.mp hread))
    | some r =>
      obtain ⟨k, rest⟩ := r
      have hlt := readVarint_length hread
      obtain ⟨key, hkey, rfl⟩ := spells_of_readVarint hread
      by_cases hknown : k % 8 ∈ [0, 1, 2, 5]
      · obtain hwire | hwire | hwire | hwire : k % 8 = 0 ∨ k % 8 = 1 ∨ k % 8 = 2 ∨ k % 8 = 5 := by simpa using hknown
        · cases hnext : readVarint rest with
          | none => exact .inr (.value hkey (by simp [hwire]) (readVarint_eq_none.mp hnext))
          | some r =>
            obtain ⟨v, tail⟩ := r
            have hshort := readVarint_length hnext
            obtain ⟨value, hvalue, rfl⟩ := spells_of_readVarint hnext
            obtain ⟨fields, hfields⟩ | hout := ih tail.length (by omega) tail rfl
            · exact .inl ⟨_, .varint hkey hwire hvalue hfields⟩
            · exact .inr (.varint hkey hwire hvalue hout)
        · obtain ⟨fields, hfields⟩ | hout := ih (rest.drop 8).length (by rw [List.length_drop]; omega) (rest.drop 8) rfl
          · exact .inl ⟨_, .fixed hkey (.inr ⟨hwire, rfl⟩) hfields⟩
          · exact .inr (.fixed hkey (.inr ⟨hwire, rfl⟩) hout)
        · cases hnext : readVarint rest with
          | none => exact .inr (.value hkey (by simp [hwire]) (readVarint_eq_none.mp hnext))
          | some r =>
            obtain ⟨v, tail⟩ := r
            have hshort := readVarint_length hnext
            obtain ⟨length, hlength, rfl⟩ := spells_of_readVarint hnext
            obtain ⟨fields, hfields⟩ | hout := ih (tail.drop v).length (by rw [List.length_drop]; omega) (tail.drop v) rfl
            · exact .inl ⟨_, .bytes hkey hwire hlength hfields⟩
            · exact .inr (.bytes hkey hwire hlength hout)
        · obtain ⟨fields, hfields⟩ | hout := ih (rest.drop 4).length (by rw [List.length_drop]; omega) (rest.drop 4) rfl
          · exact .inl ⟨_, .fixed hkey (.inl ⟨hwire, rfl⟩) hfields⟩
          · exact .inr (.fixed hkey (.inl ⟨hwire, rfl⟩) hout)
      · exact .inl ⟨[], .unknown hkey hknown⟩

theorem readFields_eq_none {data : Bytes} : readFields data = none ↔ RunsOut data := by
  constructor
  · intro h
    obtain ⟨fields, hfields⟩ | hout := reads_or_runsOut data
    · rw [readFields_of_reads hfields] at h
      cases h
    · exact hout
  · exact readFields_of_runsOut

theorem readFields_eq_some {data : Bytes} {fields : List Field} : readFields data = some fields ↔ Reads data fields := by
  constructor
  · intro h
    obtain ⟨fields', hfields⟩ | hout := reads_or_runsOut data
    · rw [readFields_of_reads hfields] at h
      obtain rfl := Option.some.inj h
      exact hfields
    · rw [readFields_of_runsOut hout] at h
      cases h
  · exact readFields_of_reads

end Reading

theorem readOuter_eq (fields : List Field) :
    (readOuter fields = none ↔ ∃ f ∈ fields, ∃ link ∈ linkIn f, readFields link = none) ∧
      ∀ r, readOuter fields = some r → r.1 = (fields.filterMap dataOf).getLast? := by
  induction fields with
  | nil =>
    constructor
    · simp [readOuter]
    · intro r h
      obtain rfl := Option.some.inj h
      rfl
  | cons f fields ih =>
    obtain ⟨hnone, hdata⟩ := ih
    have hmore : (∃ g ∈ f :: fields, ∃ link ∈ linkIn g, readFields link = none) ↔
        (∃ link ∈ linkIn f, readFields link = none) ∨ readOuter fields = none := by
      rw [hnone, List.exists_mem_cons_iff]
    rw [hmore, readOuter]
    cases hrest : readOuter fields with
    | none => simp
    | some r =>
      have hlast := hdata r hrest
      obtain ⟨number, value⟩ := f
      simp only [Option.bind_eq_bind, Option.bind_some, reduceCtorEq, or_false]
      split
      next _ _ pbdata =>
        constructor
        · simp [linkIn]
        · intro r' hr
          obtain rfl := Option.some.inj hr
          have hcons : (⟨1, .bytes pbdata⟩ :: fields : List Field).filterMap dataOf = pbdata :: fields.filterMap dataOf := rfl
          rw [hcons, List.getLast?_cons, ← hlast]
          cases r.1 <;> rfl
      next _ _ link =>
        have hlink : (∃ l ∈ linkIn ⟨2, .bytes link⟩, readFields l = none) ↔ readFields link = none := by simp [linkIn]
        rw [hlink]
        cases hread : readFields link with
        | none => simp
        | some sub =>
          constructor
          · simp
          · intro r' hr
            obtain rfl := Option.some.inj hr
            exact hlast
      next hnotData hnotLink =>
        have hdataOf : dataOf ⟨number, value⟩ = none := by
          rw [dataOf]
          split
          · exact absurd ‹_› (hnotData _ ‹_›)
          · rfl
        have hlinkIn : linkIn ⟨number, value⟩ = none := by
          rw [linkIn]
          split
          · exact absurd ‹_› (hnotLink _ ‹_›)
          · rfl
        constructor
        · simp [hlinkIn]
        · intro r' hr
          obtain rfl := Option.some.inj hr
          rw [List.filterMap_cons_none hdataOf]
          exact hlast

theorem parseDagPb_eq_none {block : Bytes} : parseDagPb block = none ↔ Unfinished block := by
  rw [Unfinished, ← readFields_eq_none]
  cases hblock : readFields block with
  | none =>
    rw [parseDagPb, hblock]
    exact ⟨fun _ => .inl rfl, fun _ => rfl⟩
  | some fields =>
    have hfields : ∀ fields', Reads block fields' ↔ fields' = fields := by
      intro fields'
      rw [← readFields_eq_some, hblock, Option.some.injEq, eq_comm]
    obtain ⟨hnone, hdata⟩ := readOuter_eq fields
    simp only [readFields_eq_none] at hnone
    simp only [hfields, exists_eq_left, reduceCtorEq, false_or]
    rw [parseDagPb, hblock]
    simp only [Option.bind_eq_bind, Option.bind_some]
    cases houter : readOuter fields with
    | none =>
      exact ⟨fun _ => .inl (hnone.mp houter), fun _ => rfl⟩
    | some r =>
      obtain ⟨pbdata, links⟩ := r
      have hlast := hdata _ houter
      have hlinks : ¬ ∃ f ∈ fields, ∃ link ∈ linkIn f, RunsOut link := by
        rw [← hnone, houter]
        exact Option.some_ne_none _
      simp only at hlast
      rw [← hlast]
      simp only [hlinks, false_or, Option.bind_some]
      cases pbdata with
      | none =>
        simp
      | some pbdata =>
        simp only [Option.elim_some, Option.mem_def, Option.some.injEq, exists_eq_left', ← readFields_eq_none]
        cases readFields pbdata <;> simp

/-- The block is refused, and so taken for plain bytes wherever it is read. -/
structure Refused (block : Bytes) : Prop where
  parse : parseDagPb block = none
  child : Fetch.childBytes block = (block, [])
  whole : ∀ (cfg : Fetch.Settings) (host : Fetch.Host) (net : Fetch.Network) (fuel : ℕ) (cid : Text) (codec : Option Text)
    (attempt : ℕ), Fetch.getBlockEx cfg host (net 0) cid attempt = .ok block →
      ∃ known, Fetch.fetchCid cfg host net fuel cid codec attempt = some (.ok (Fetch.wholeBlock known block))

theorem refused_of_none {block : Bytes} (h : parseDagPb block = none) : Refused block where
  parse := h
  child := by rw [Fetch.childBytes, h]
  whole := by
    intro cfg host net fuel cid codec attempt hblock
    refine ⟨(codec.filter (· ≠ [])).getD (Fetch.codecOf host cid), ?_⟩
    rw [Fetch.fetchCid, hblock]
    simp only [h]
    split_ifs <;> rfl

/-- A malformed block is refused exactly if it is not malformed or a varint in it has no end. -/
theorem malformed_refused_iff (block : Bytes) : (¬ WellFormed block → Refused block) ↔ WellFormed block ∨ Unfinished block := by
  have hrefused : Refused block ↔ Unfinished block := by
    rw [← parseDagPb_eq_none]
    exact ⟨Refused.parse, refused_of_none⟩
  rw [hrefused]
  tauto

theorem truncated_not_refused : ¬ ∀ block, ¬ WellFormed block → Refused block := by
  intro hall
  have hbad : ¬ WellFormed [0x0a, 6, 8, 2, 0x12, 1, 0x41] := by
    rintro ⟨fields, hcomplete, -⟩
    have hkey : Varint.Spells [0x0a] 10 := .last (by decide)
    have hlength : Varint.Spells [6] 6 := .last (by decide)
    generalize hblock : ([0x0a, 6, 8, 2, 0x12, 1, 0x41] : Bytes) = block at hcomplete
    cases hcomplete with
    | nil => cases hblock
    | varint hk hv hr =>
      obtain ⟨-, -, hfield⟩ := hkey.unique hk hblock
      omega
    | bytes hk hl hr =>
      obtain ⟨-, hrest, -⟩ := hkey.unique hk hblock
      obtain ⟨-, hvalue, hn⟩ := hlength.unique hl hrest
      have hshort := congrArg List.length hvalue
      rw [List.length_append, ← hn] at hshort
      simp only [List.length_cons, List.length_nil] at hshort
      omega
    | fixed32 hk hv hr =>
      obtain ⟨-, -, hfield⟩ := hkey.unique hk hblock
      omega
    | fixed64 hk hv hr =>
      obtain ⟨-, -, hfield⟩ := hkey.unique hk hblock
      omega
  have hparse := (hall _ hbad).parse
  have hfile : parseDagPb [0x0a, 6, 8, 2, 0x12, 1, 0x41] = some { unixfsType := some (txt "file"), inlineData := [0x41] } := by
    decide +kernel
  rw [hparse] at hfile
  cases hfile

end ObserverClub.UnixFs
