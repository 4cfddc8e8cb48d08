import ObserverClub.FieldNames
import ObserverClub.Transactions

/-!
`classify.py`: the object found in the message of a model.
-/

namespace ObserverClub.Classify

open Library Python Catalog

section Flatten

variable (py : Interpreter)

/-- A character as `json.dumps` writes it: ASCII only. -/
def asciiChar (c : ℕ) : Text :=
  match Json.basicEscape c with
  | some escape => escape
  | none =>
    if 32 ≤ c ∧ c ≤ 126 then [c]
    else if c < 0x10000 then Json.hexEscape c
    else Json.hexEscape (0xD800 + (c - 0x10000) / 1024) ++ Json.hexEscape (0xDC00 + (c - 0x10000) % 1024)

def asciiText (t : Text) : Text := 34 :: t.flatMap asciiChar ++ [34]

mutual

def dumped : Value → Text
  | .null => txt "null"
  | .bool b => if b then txt "true" else txt "false"
  | .num n => numText n
  | .str t => asciiText t
  | .arr xs => [91] ++ joined (txt ", ") (dumpedList xs) ++ [93]
  | .obj ms => [123] ++ joined (txt ", ") (dumpedMembers ms) ++ [125]

def dumpedList : List Value → List Text
  | [] => []
  | x :: xs => dumped x :: dumpedList xs

def dumpedMembers : List (Text × Value) → List Text
  | [] => []
  | (k, v) :: ms => (asciiText k ++ txt ": " ++ dumped v) :: dumpedMembers ms

end

/-- `json.dumps(x)` -/
def dumpsPlain (v : Value) : Except Error Text :=
  if py.dumpsDepth < v.depth then .error .recursionError
  else if v.all ⟨Num.short, fun _ => true, fun _ => true⟩ then .ok (dumped v)
  else .error .valueError

def isObject : Value → Bool
  | .obj _ => true
  | _ => false

/-- `_flatten_text`, as deep as the stack lets it go. -/
def flattenText : ℕ → Value → Except Error (List Text)
  | 0, _ => .error .recursionError
  | depth + 1, value =>
    if !truthy value then .ok []
    else
      match value with
      | .str t => .ok [t]
      | .obj _ => do
        let parsed := item value "parsed"
        let first ← if isObject parsed then (dumpsPlain py parsed).map fun t => [t] else .ok []
        let rest ← [txt "text", txt "content", txt "reasoning", txt "arguments"].mapM fun key =>
          ((value.get key).elim (.ok []) (flattenText depth))
        return first ++ rest.flatten
      | .arr xs => do
        let parts ← xs.mapM (flattenText depth)
        return parts.flatten
      | _ => .ok []

end Flatten

section Reply

variable (py : Interpreter) (depth : ℕ)

def upToClose : ℕ → Text → Option Text
  | _, [] => none
  | open_, c :: s =>
    if c = 123 then (upToClose (open_ + 1) s).map (c :: ·)
    else if c = 125 then
      if open_ = 1 then some [c] else (upToClose (open_ - 1) s).map (c :: ·)
    else (upToClose open_ s).map (c :: ·)

/-- `json.loads`, with nothing where it raises `ValueError`. -/
def tryLoads (t : Text) : Except Error (Option Value) :=
  match loads py t with
  | .ok v => .ok (some v)
  | .error .valueError => .ok none
  | .error e => .error e

def firstLoaded : List Text → Except Error (Option Value)
  | [] => .ok none
  | t :: ts => do
    match ← tryLoads py t with
    | some v => return some v
    | none => firstLoaded ts

def scan : Text → Except Error (Option Value)
  | [] => .ok none
  | c :: s =>
    if c = 123 then
      match upToClose 0 (c :: s) with
      | none => scan s
      | some segment => do
        match ← tryLoads py segment with
        | some v => return some v
        | none => scan s
    else scan s

def firstScanned : List Text → Except Error (Option Value)
  | [] => .ok none
  | t :: ts => do
    match ← scan py t with
    | some v => return some v
    | none => firstScanned ts

/-- `for call in x or []` -/
def iterated (x : Value) : Except Error (List Value) :=
  if !truthy x then .ok []
  else
    match x with
    | .arr xs => .ok xs
    | .obj ms => .ok (ms.map fun m => .str m.1)
    | .str t => .ok (t.map fun c => .str [c])
    | _ => .error .typeError

/-- `x.get(key)` -/
def getItem (x : Value) (key : String) : Except Error Value :=
  if isObject x then .ok (item x key) else .error .attributeError

def argumentsOf (call : Value) : Except Error Value := do
  let function ← getItem call "function"
  getItem (either function (.obj [])) "arguments"

def readCalls : List Value → Except Error (Option Value)
  | [] => .ok none
  | call :: calls => do
    match ← argumentsOf call with
    | .obj ms => return some (.obj ms)
    | .str t =>
      match ← tryLoads py t with
      | some v => return some v
      | none => readCalls calls
    | _ => readCalls calls

/-- `_parse_json_reply` -/
def parseJsonReply (message : Value) : Except Error Value := do
  let parsed := item message "parsed"
  if isObject parsed && truthy parsed then return parsed
  else
    match ← readCalls py (← iterated (item message "tool_calls")) with
    | some v => return v
    | none =>
      let parts ← ["content", "reasoning_content", "reasoning"].mapM fun key => flattenText py depth (item message key)
      let candidates := parts.flatten
      match ← firstLoaded py candidates with
      | some v => return v
      | none => return (← firstScanned py candidates).getD .null

end Reply

/-- What `classify` keeps of a reply. -/
structure Derived where
  inScope : Bool
  field : Text
  topic : Text
  keywords : Text
  license : Option Text

/-- `_in_scope` -/
def inScope (out : Value) : Bool :=
  if (out.get (txt "in_scope")).isSome then truthy (item out "in_scope") else truthy (item out "academic_document")

section Meta

variable (o : Observer) (depth : ℕ)

/-- What `_reply_hint` prints of the message. -/
def replyHint (message : Value) : Except Error Text :=
  let finish := item message "_finish"
  if truthy finish then str o.py finish else .ok []

/-- The keywords as `_parse_meta` joins them. -/
def joinKeywords (keywords : Value) : Except Error Value :=
  match keywords with
  | .arr ks => (ks.mapM (str o.py)).map fun ks => .str (joined (txt ", ") ks)
  | _ => .ok keywords

def licenseText (out : Value) : Except Error (Option Text) :=
  if truthy (item out "license") then (str o.py (item out "license")).map some else .ok none

def derived (out : Value) : Except Error Derived := do
  let keywords ← joinKeywords o (either (← getItem out "keywords") (.arr []))
  let field ← normalizeField o (item out "field")
  let topic ← str o.py ((out.get (txt "topic")).getD (.str []))
  let keywords ← str o.py keywords
  let license ← licenseText o out
  return ⟨inScope out, field, topic.take 200, keywords.take 500, license.map (·.take 200)⟩

/-- `_parse_meta` -/
def parseMeta (message : Value) : Except Error (Option Derived) := do
  match ← parseJsonReply o.py depth message with
  | .null =>
    let _ ← replyHint o message
    return none
  | out => return some (← derived o out)

end Meta

/-! What a message offers, in the order in which it is tried. -/

inductive Offer where
  | given (v : Value)
  | text (t : Text)
  | broken

section Offers

variable (py : Interpreter) (depth : ℕ)

def offerOf (call : Value) : Option Offer :=
  match argumentsOf call with
  | .error _ => some .broken
  | .ok (.obj ms) => some (.given (.obj ms))
  | .ok (.str t) => some (.text t)
  | .ok _ => none

def segments : Text → List Text
  | [] => []
  | c :: s => if c = 123 then (upToClose 0 (c :: s)).toList ++ segments s else segments s

def textOffers (message : Value) : List Offer :=
  match ["content", "reasoning_content", "reasoning"].mapM fun key => flattenText py depth (item message key) with
  | .error _ => [.broken]
  | .ok parts => (parts.flatten ++ parts.flatten.flatMap segments).map .text

def offers (message : Value) : List Offer :=
  let parsed := item message "parsed"
  if isObject parsed && truthy parsed then [.given parsed]
  else
    match iterated (item message "tool_calls") with
    | .error _ => [.broken]
    | .ok calls => calls.filterMap offerOf ++ textOffers py depth message

def settle : List Offer → Option Value
  | [] => some .null
  | .given v :: _ => some v
  | .broken :: _ => none
  | .text t :: os =>
    match tryLoads py t with
    | .error _ => none
    | .ok (some v) => some v
    | .ok none => settle os

theorem toOption_bind {α β : Type} (x : Except Error α) (f : α → Except Error β) :
    (x >>= f).toOption = x.toOption.bind fun a => (f a).toOption := by
  cases x <;> rfl

def orSettle (x : Except Error (Option Value)) (os : List Offer) : Option Value :=
  x.toOption.bind fun r => r.elim (settle py os) some

theorem settle_texts (ts : List Text) (os : List Offer) :
    settle py (ts.map .text ++ os) = orSettle py (firstLoaded py ts) os := by
  induction ts with
  | nil => rfl
  | cons t ts ih =>
    rw [List.map_cons, List.cons_append, settle, firstLoaded, orSettle, toOption_bind]
    cases tryLoads py t with
    | error e => rfl
    | ok r =>
      cases r with
      | some v => rfl
      | none => exact ih

theorem settle_segments (t : Text) (os : List Offer) :
    settle py ((segments t).map .text ++ os) = orSettle py (scan py t) os := by
  induction t with
  | nil => rfl
  | cons c t ih =>
    rw [segments, scan]
    split_ifs with hopen
    · cases upToClose 0 (c :: t) with
      | none => exact ih
      | some segment =>
        rw [Option.toList_some, List.singleton_append, List.map_cons, List.cons_append, settle]
        simp only
        rw [orSettle, toOption_bind]
        cases tryLoads py segment with
        | error e => rfl
        | ok r =>
          cases r with
          | some v => rfl
          | none => exact ih
    · exact ih

theorem settle_allSegments (ts : List Text) (os : List Offer) :
    settle py ((ts.flatMap segments).map .text ++ os) = orSettle py (firstScanned py ts) os := by
  induction ts with
  | nil => rfl
  | cons t ts ih =>
    rw [List.flatMap_cons, List.map_append, List.append_assoc, settle_segments, firstScanned, orSettle, orSettle, toOption_bind]
    cases scan py t with
    | error e => rfl
    | ok r =>
      cases r with
      | some v => rfl
      | none => exact ih

theorem settle_calls (calls : List Value) (os : List Offer) :
    settle py (calls.filterMap offerOf ++ os) = orSettle py (readCalls py calls) os := by
  induction calls with
  | nil => rfl
  | cons call calls ih =>
    rw [readCalls, orSettle, toOption_bind, List.filterMap_cons, offerOf]
    cases argumentsOf call with
    | error e => rfl
    | ok args =>
      cases args with
      | obj ms => rfl
      | str t =>
        rw [Except.toOption, Option.bind_some]
        simp only
        rw [toOption_bind, List.cons_append, settle]
        cases tryLoads py t with
        | error e => rfl
        | ok r =>
          cases r with
          | some v => rfl
          | none => exact ih
      | null => exact ih
      | bool b => exact ih
      | num n => exact ih
      | arr xs => exact ih

theorem settle_textOffers (message : Value) :
    settle py (textOffers py depth message) =
      (["content", "reasoning_content", "reasoning"].mapM fun key => flattenText py depth (item message key)).toOption.bind
        fun parts => orSettle py (firstLoaded py parts.flatten) ((parts.flatten.flatMap segments).map .text) := by
  rw [textOffers]
  cases ["content", "reasoning_content", "reasoning"].mapM fun key => flattenText py depth (item message key) with
  | error e => rfl
  | ok parts =>
    simp only
    rw [List.map_append, settle_texts]
    rfl

/-- `_parse_json_reply` takes the first offer that it can take. -/
theorem parseJsonReply_settle (message : Value) : (parseJsonReply py depth message).toOption =
    settle py (offers py depth message) := by
  rw [parseJsonReply, offers]
  dsimp only
  split_ifs with hparsed
  · rfl
  · rw [toOption_bind]
    cases iterated (item message "tool_calls") with
    | error e => rfl
    | ok calls =>
      rw [Except.toOption, Option.bind_some]
      simp only
      rw [toOption_bind, settle_calls, orSettle, settle_textOffers]
      congr 1
      funext called
      cases called with
      | some v => rfl
      | none =>
        simp only
        rw [toOption_bind, Option.elim_none]
        congr 1
        funext parts
        rw [toOption_bind, orSettle]
        congr 1
        funext loaded
        cases loaded with
        | some v => rfl
        | none =>
          have hscanned := settle_allSegments py parts.flatten []
          rw [List.append_nil] at hscanned
          simp only
          rw [toOption_bind, Option.elim_none, hscanned, orSettle]
          congr 1
          funext found
          cases found <;> rfl

end Offers

section Fine

variable (py : Interpreter) (depth : ℕ)

def Passed (x : Offer) : Prop := ∃ t, x = .text t ∧ tryLoads py t = .ok none

def Astray (x : Offer) : Prop :=
  x = .broken ∨ ∃ t, x = .text t ∧
    ((∃ e, tryLoads py t = .error e) ∨ ∃ v, tryLoads py t = .ok (some v) ∧ v ≠ .null ∧ isObject v = false)

/-- The offer that is taken does not lead astray. -/
def Fine (message : Value) : Prop :=
  ∀ before x after, offers py depth message = before ++ x :: after → (∀ y ∈ before, Passed py y) → ¬Astray py x

def NullOrObject (v : Value) : Prop := v = .null ∨ isObject v = true

theorem given_offerOf {calls : List Value} {v : Value} (h : .given v ∈ calls.filterMap offerOf) : isObject v = true := by
  rw [List.mem_filterMap] at h
  obtain ⟨call, -, hcall⟩ := h
  unfold offerOf at hcall
  split at hcall
  · cases hcall
  · cases hcall
    rfl
  · cases hcall
  · cases hcall

theorem given_offers {message v : Value} (h : .given v ∈ offers py depth message) : isObject v = true := by
  unfold offers at h
  dsimp only at h
  split_ifs at h with hparsed
  · obtain rfl := Offer.given.inj (List.mem_singleton.mp h)
    exact (Bool.and_eq_true _ _ ▸ hparsed).1
  · cases hcalls : iterated (item message "tool_calls") with
    | error e =>
      rw [hcalls] at h
      cases List.mem_singleton.mp h
    | ok calls =>
      rw [hcalls] at h
      obtain h | h := List.mem_append.mp h
      · exact given_offerOf h
      · unfold textOffers at h
        split at h
        · cases List.mem_singleton.mp h
        · obtain ⟨t, -, ht⟩ := List.mem_map.mp h
          cases ht

theorem fine_cons (x : Offer) (os : List Offer) :
    (∀ before y after, x :: os = before ++ y :: after → (∀ z ∈ before, Passed py z) → ¬Astray py y) ↔
      ¬Astray py x ∧ (Passed py x → ∀ before y after, os = before ++ y :: after → (∀ z ∈ before, Passed py z) → ¬Astray py y) := by
  constructor
  · intro h
    constructor
    · apply h [] x os rfl
      intro z hz
      cases hz
    · intro hx before y after hos hbefore
      apply h (x :: before) y after (by rw [hos, List.cons_append])
      exact List.forall_mem_cons.mpr ⟨hx, hbefore⟩
  · rintro ⟨hx, hos⟩ before y after hsplit hbefore
    cases before with
    | nil =>
      obtain ⟨rfl, -⟩ := List.cons.inj hsplit
      exact hx
    | cons z before =>
      obtain ⟨rfl, hrest⟩ := List.cons.inj hsplit
      obtain ⟨hz, hbefore⟩ := List.forall_mem_cons.mp hbefore
      exact hos hz before y after hrest hbefore

theorem settle_fine (os : List Offer) (hgiven : ∀ v, .given v ∈ os → isObject v = true) :
    (∃ v, settle py os = some v ∧ NullOrObject v) ↔
      ∀ before x after, os = before ++ x :: after → (∀ y ∈ before, Passed py y) → ¬Astray py x := by
  induction os with
  | nil =>
    constructor
    · intro _ before x after hsplit
      cases before <;> cases hsplit
    · intro _
      exact ⟨.null, rfl, .inl rfl⟩
  | cons x os ih =>
    have hos := ih fun v hv => hgiven v (List.mem_cons_of_mem x hv)
    rw [fine_cons, ← hos]
    cases x with
    | given v =>
      have hobject := hgiven v List.mem_cons_self
      constructor
      · intro _
        constructor
        · rintro (h | ⟨t, h, -⟩) <;> cases h
        · rintro ⟨t, h, -⟩
          cases h
      · intro _
        exact ⟨v, rfl, .inr hobject⟩
    | broken =>
      constructor
      · rintro ⟨v, h, -⟩
        cases h
      · rintro ⟨h, -⟩
        exact absurd (.inl rfl) h
    | text t =>
      rw [settle]
      cases hload : tryLoads py t with
      | error e =>
        constructor
        · rintro ⟨v, h, -⟩
          cases h
        · rintro ⟨h, -⟩
          exact absurd (.inr ⟨t, rfl, .inl ⟨e, hload⟩⟩) h
      | ok r =>
        cases r with
        | some v =>
          have hastray : Astray py (.text t) ↔ ¬NullOrObject v := by
            rw [NullOrObject, not_or, Bool.not_eq_true]
            constructor
            · rintro (h | ⟨u, h, ⟨e, herror⟩ | ⟨w, hw, hnot⟩⟩)
              · cases h
              · cases h
                rw [hload] at herror
                cases herror
              · cases h
                rw [hload] at hw
                obtain rfl := Option.some.inj (Except.ok.inj hw)
                exact hnot
            · intro hnot
              exact .inr ⟨t, rfl, .inr ⟨v, hload, hnot⟩⟩
          have hpassed : ¬Passed py (.text t) := by
            rintro ⟨u, h, hu⟩
            cases h
            rw [hload] at hu
            cases hu
          rw [hastray, not_not]
          constructor
          · rintro ⟨w, hw, hok⟩
            obtain rfl := Option.some.inj hw
            exact ⟨hok, fun h => absurd h hpassed⟩
          · rintro ⟨hok, -⟩
            exact ⟨v, rfl, hok⟩
        | none =>
          have hastray : ¬Astray py (.text t) := by
            rintro (h | ⟨u, h, ⟨e, herror⟩ | ⟨w, hw, -⟩⟩)
            · cases h
            · cases h
              rw [hload] at herror
              cases herror
            · cases h
              rw [hload] at hw
              cases hw
          constructor
          · intro h
            exact ⟨hastray, fun _ => h⟩
          · rintro ⟨-, h⟩
            exact h ⟨t, rfl, hload⟩

theorem parseJsonReply_fine (message : Value) :
    (∃ v, parseJsonReply py depth message = .ok v ∧ NullOrObject v) ↔ Fine py depth message := by
  rw [Fine, ← settle_fine py _ fun v => given_offers py depth, ← parseJsonReply_settle]
  have htoOption (v : Value) : (parseJsonReply py depth message).toOption = some v ↔ parseJsonReply py depth message = .ok v := by
    cases parseJsonReply py depth message with
    | error e =>
      constructor
      · intro h
        cases h
      · intro h
        cases h
    | ok w => exact ⟨fun h => congrArg Except.ok (Option.some.inj h), fun h => congrArg some (Except.ok.inj h)⟩
  simp only [htoOption]

end Fine

section Whole

/-- In front of every brace that closes stands one that opens, up to the last, which closes the first. -/
structure Balanced (t : Text) : Prop where
  opens : t.head? = some 123
  even : t.count 123 = t.count 125
  inside : ∀ s rest, t = s ++ rest → s ≠ [] → rest ≠ [] → s.count 125 < s.count 123

theorem upToClose_append {d : ℕ} {t : Text} (hd : d ≠ 0) (heven : d + t.count 123 = t.count 125)
    (hinside : ∀ s rest, t = s ++ rest → rest ≠ [] → s.count 125 < d + s.count 123) (post : Text) :
    upToClose d (t ++ post) = some t := by
  induction t generalizing d with
  | nil =>
    rw [List.count_nil, List.count_nil] at heven
    exact absurd heven hd
  | cons c t ih =>
    have hstep : ∀ s rest, t = s ++ rest → rest ≠ [] → (c :: s).count 125 < d + (c :: s).count 123 := by
      intro s rest hsplit hrest
      exact hinside (c :: s) rest (by rw [hsplit, List.cons_append]) hrest
    rw [List.cons_append, upToClose]
    split_ifs with hopen hclose hlast
    · subst hopen
      rw [ih (Nat.succ_ne_zero d), Option.map_some]
      · simp only [List.count_cons] at heven
        simp at heven
        omega
      · intro s rest hsplit hrest
        have hlt := hstep s rest hsplit hrest
        simp only [List.count_cons] at hlt
        simp at hlt
        omega
    · subst hclose hlast
      have hnil : t = [] := by
        by_contra hne
        have hlt := hstep [] t rfl hne
        simp at hlt
      rw [hnil]
    · subst hclose
      rw [ih (by omega), Option.map_some]
      · simp only [List.count_cons] at heven
        simp at heven
        omega
      · intro s rest hsplit hrest
        have hlt := hstep s rest hsplit hrest
        simp only [List.count_cons] at hlt
        simp at hlt
        omega
    · have hskip (b : ℕ) (hb : b = 123 ∨ b = 125) (s : Text) : (c :: s).count b = s.count b := by
        rw [List.count_cons, if_neg, Nat.add_zero]
        rw [beq_iff_eq]
        rintro rfl
        obtain rfl | rfl := hb
        · exact hopen rfl
        · exact hclose rfl
      rw [ih hd, Option.map_some]
      · rwa [hskip 123 (.inl rfl), hskip 125 (.inr rfl)] at heven
      · intro s rest hsplit hrest
        have hlt := hstep s rest hsplit hrest
        rwa [hskip 123 (.inl rfl), hskip 125 (.inr rfl)] at hlt

theorem upToClose_balanced {t : Text} (h : Balanced t) (post : Text) : upToClose 0 (t ++ post) = some t := by
  obtain ⟨c, t, rfl⟩ : ∃ c s, t = c :: s := by
    cases t with
    | nil => cases h.opens
    | cons c s => exact ⟨c, s, rfl⟩
  obtain rfl : c = 123 := Option.some.inj h.opens
  have heven := h.even
  simp only [List.count_cons] at heven
  simp at heven
  rw [List.cons_append, upToClose, if_pos rfl, upToClose_append, Option.map_some]
  · decide
  · omega
  · intro s rest hsplit hrest
    have hlt := h.inside (123 :: s) rest (by rw [hsplit, List.cons_append]) (List.cons_ne_nil _ _) hrest
    simp only [List.count_cons] at hlt
    simp at hlt
    omega

variable (py : Interpreter) (depth : ℕ)

theorem scan_skip {pre : Text} (h : 123 ∉ pre) (s : Text) : scan py (pre ++ s) = scan py s := by
  induction pre with
  | nil => rfl
  | cons c pre ih =>
    rw [List.mem_cons, not_or] at h
    rw [List.cons_append, scan, if_neg (Ne.symm h.1), ih h.2]

theorem scan_balanced {t : Text} (h : Balanced t) (post : Text) {v : Value} (hload : loads py t = .ok v) :
    scan py (t ++ post) = .ok (some v) := by
  have hclose := upToClose_balanced h post
  obtain ⟨c, t, rfl⟩ : ∃ c s, t = c :: s := by
    cases t with
    | nil => cases h.opens
    | cons c s => exact ⟨c, s, rfl⟩
  obtain rfl : c = 123 := Option.some.inj h.opens
  rw [List.cons_append] at hclose ⊢
  rw [scan, if_pos rfl, hclose]
  simp only
  rw [tryLoads, hload]
  rfl

/-- A message that has content only. -/
def contentOnly (content : Text) : Value := .obj [(txt "content", .str content)]

theorem parseJsonReply_contentOnly {content : Text} (h : content ≠ []) :
    parseJsonReply py (depth + 1) (contentOnly content) = (firstLoaded py [content] >>= fun loaded =>
      match loaded with
      | some v => .ok v
      | none => do return (← firstScanned py [content]).getD .null) := by
  have hkeys : txt "content" ≠ txt "parsed" ∧ txt "content" ≠ txt "tool_calls" ∧ txt "content" ≠ txt "reasoning_content" ∧
      txt "content" ≠ txt "reasoning" := by decide +kernel
  have hother {key : String} (hkey : txt "content" ≠ txt key) : item (contentOnly content) key = .null := by
    rw [item, contentOnly, Json.get, Json.lookup, if_neg hkey]
    rfl
  have hcontent : item (contentOnly content) "content" = .str content := by
    rw [item, contentOnly, Json.get, Json.lookup, if_pos rfl]
    rfl
  have htext : flattenText py (depth + 1) (.str content) = .ok [content] := by
    rw [flattenText, if_neg]
    simpa [truthy] using h
  have hnull : flattenText py (depth + 1) .null = .ok [] := rfl
  rw [parseJsonReply, hother hkeys.1, hother hkeys.2.1]
  have hcandidates : (["content", "reasoning_content", "reasoning"].mapM fun key =>
      flattenText py (depth + 1) (item (contentOnly content) key)) = .ok [[content], [], []] := by
    rw [List.mapM_cons, List.mapM_cons, List.mapM_cons, hcontent, htext, hother hkeys.2.2.1, hother hkeys.2.2.2, hnull]
    rfl
  rw [hcandidates]
  rfl

theorem loads_nil : loads py [] = .error .valueError := by
  rw [loads, Json.readText, Json.readFirst, List.length_nil]
  rfl

theorem parseJsonReply_found {v : Value} {t pre post : Text} (hload : loads py t = .ok v) (hpre : 123 ∉ pre)
    (hwhole : loads py (pre ++ t ++ post) = .ok v ∨ Balanced t ∧ loads py (pre ++ t ++ post) = .error .valueError) :
    parseJsonReply py (depth + 1) (contentOnly (pre ++ t ++ post)) = .ok v := by
  have hne : pre ++ t ++ post ≠ [] := by
    intro hnil
    have hempty := (List.append_eq_nil_iff.mp (List.append_eq_nil_iff.mp hnil).1).2
    rw [hempty, loads_nil] at hload
    cases hload
  rw [parseJsonReply_contentOnly py depth hne, firstLoaded, tryLoads]
  obtain hwhole | ⟨ht, hwhole⟩ := hwhole
  · rw [hwhole]
    rfl
  · rw [hwhole]
    simp only [firstLoaded]
    have hscan : scan py (pre ++ t ++ post) = .ok (some v) := by
      rw [List.append_assoc, scan_skip py hpre, scan_balanced py ht post hload]
    rw [firstScanned, hscan]
    rfl

end Whole

section Meta

variable {o : Observer} {depth : ℕ}

/-- What `_parse_meta` turns into text has one. -/
structure Prints (o : Observer) (message out : Value) : Prop where
  hint : out = .null → ∃ t, replyHint o message = .ok t
  parts : ∀ key ∈ ["field", "topic", "keywords", "license"], ∃ t, str o.py (item out key) = .ok t
  keywords : ∀ ks, item out "keywords" = .arr ks → ∀ k ∈ ks, ∃ t, str o.py k = .ok t

theorem mapM_ok {f : Value → Except Error Text} {xs : List Value} (h : ∀ x ∈ xs, ∃ t, f x = .ok t) : ∃ ts, xs.mapM f = .ok ts := by
  induction xs with
  | nil => exact ⟨[], rfl⟩
  | cons x xs ih =>
    obtain ⟨⟨t, ht⟩, hxs⟩ := List.forall_mem_cons.mp h
    obtain ⟨ts, hts⟩ := ih hxs
    exact ⟨t :: ts, by rw [List.mapM_cons, ht, hts]; rfl⟩

theorem normalizeField_ok {value : Value} (h : ∃ t, str o.py value = .ok t) : ∃ name, normalizeField o value = .ok name := by
  obtain ⟨t, ht⟩ := h
  cases htruthy : truthy value with
  | false => exact ⟨_, Club.normalizeField_falsy o htruthy⟩
  | true =>
    rw [Club.normalizeField_truthy o htruthy, ht]
    exact ⟨_, rfl⟩

theorem joinKeywords_ok {message out : Value} (h : Prints o message out) :
    ∃ keywords text, joinKeywords o (either (item out "keywords") (.arr [])) = .ok keywords ∧ str o.py keywords = .ok text := by
  obtain ⟨text, htext⟩ := h.parts "keywords" (by simp)
  have hlist := h.keywords
  generalize item out "keywords" = value at htext hlist
  rw [either]
  split_ifs
  · cases value with
    | arr ks =>
      obtain ⟨ts, hts⟩ := mapM_ok (hlist ks rfl)
      refine ⟨.str (joined (txt ", ") ts), joined (txt ", ") ts, ?_, rfl⟩
      rw [joinKeywords, hts]
      rfl
    | null => exact ⟨_, text, rfl, htext⟩
    | bool b => exact ⟨_, text, rfl, htext⟩
    | num n => exact ⟨_, text, rfl, htext⟩
    | str t => exact ⟨_, text, rfl, htext⟩
    | obj ms => exact ⟨_, text, rfl, htext⟩
  · exact ⟨.str [], [], rfl, rfl⟩

theorem parseMeta_ok {message out : Value} (hreply : parseJsonReply o.py depth message = .ok out) (hout : NullOrObject out)
    (h : Prints o message out) : ∃ kept, parseMeta o depth message = .ok kept := by
  rw [parseMeta, hreply]
  cases out with
  | null =>
    obtain ⟨hint, hhint⟩ := h.hint rfl
    simp only [hhint]
    exact ⟨none, rfl⟩
  | obj ms =>
    obtain ⟨keywords, printed, hkeywords, hprinted⟩ := joinKeywords_ok h
    obtain ⟨field, hfield⟩ := normalizeField_ok (h.parts "field" (by simp))
    have htopic : ∃ topic, str o.py (((Json.obj ms).get (txt "topic")).getD (.str [])) = .ok topic := by
      have hitem := h.parts "topic" (by simp)
      rw [item] at hitem
      cases hget : (Json.obj ms).get (txt "topic") with
      | none => exact ⟨[], rfl⟩
      | some v =>
        rw [hget] at hitem
        exact hitem
    obtain ⟨topic, htopic⟩ := htopic
    have hlicense : ∃ license, licenseText o (.obj ms) = .ok license := by
      obtain ⟨license, hlicense⟩ := h.parts "license" (by simp)
      rw [licenseText, hlicense]
      split_ifs <;> exact ⟨_, rfl⟩
    obtain ⟨license, hlicense⟩ := hlicense
    have hget : getItem (.obj ms) "keywords" = .ok (item (.obj ms) "keywords") := rfl
    have hderived : derived o (.obj ms) = .ok ⟨inScope (.obj ms), field, topic.take 200, printed.take 500,
      license.map (·.take 200)⟩ := by
      simp only [derived, hget, hkeywords, hfield, htopic, hprinted, hlicense, bind, Except.bind, pure, Except.pure]
    have hkept : parseMeta o depth message = (derived o (.obj ms)).map some := by
      rw [parseMeta, hreply]
      rfl
    rw [parseMeta, hreply] at hkept
    rw [hkept, hderived]
    exact ⟨_, rfl⟩
  | bool b => exact absurd hout (by rintro (h | h) <;> cases h)
  | num n => exact absurd hout (by rintro (h | h) <;> cases h)
  | str t => exact absurd hout (by rintro (h | h) <;> cases h)
  | arr xs => exact absurd hout (by rintro (h | h) <;> cases h)

/-- The object of a reply is found where the whole content is its text, or where its braces are balanced and the whole
content is no JSON text; a reply is nothing or an object exactly if what is taken of the message does not lead astray; and
then `_parse_meta` returns. -/
theorem reply_is_found (o : Observer) (depth : ℕ) :
    (∀ ms t pre post, loads o.py t = .ok (.obj ms) → (∀ c ∈ pre ++ post, c ≠ 123 ∧ c ≠ 125) →
      (loads o.py (pre ++ t ++ post) = .ok (.obj ms) ∨
          Balanced t ∧ loads o.py (pre ++ t ++ post) = .error .valueError) →
        parseJsonReply o.py (depth + 1) (contentOnly (pre ++ t ++ post)) = .ok (.obj ms)) ∧
      (∀ message, (∃ out, parseJsonReply o.py depth message = .ok out ∧ NullOrObject out) ↔ Fine o.py depth message) ∧
      ∀ message, Fine o.py depth message → (∀ out, parseJsonReply o.py depth message = .ok out → Prints o message out) →
        ∃ kept, parseMeta o depth message = .ok kept := by
  refine ⟨?_, parseJsonReply_fine o.py depth, ?_⟩
  · intro ms t pre post hload hbraces hwhole
    apply parseJsonReply_found o.py depth hload _ hwhole
    intro hpre
    exact (hbraces 123 (List.mem_append_left post hpre)).1 rfl
  · intro message hfine hprints
    obtain ⟨out, hout, hobject⟩ := (parseJsonReply_fine o.py depth message).mpr hfine
    exact parseMeta_ok hout hobject (hprints out hout)

theorem loads_object {t : Text} (h : (loads py t).toOption.map isObject = some true) : ∃ ms, loads py t = .ok (.obj ms) := by
  cases hload : loads py t with
  | error e =>
    rw [hload] at h
    cases h
  | ok v =>
    rw [hload] at h
    cases v with
    | obj ms => exact ⟨ms, rfl⟩
    | null => cases h
    | bool b => cases h
    | num n => cases h
    | str t => cases h
    | arr xs => cases h

theorem loads_refused {t : Text} (h : (tryLoads py t).toOption.map Option.isSome = some false) :
    loads py t = .error .valueError := by
  unfold tryLoads at h
  cases hload : loads py t with
  | ok v =>
    rw [hload] at h
    cases h
  | error e =>
    rw [hload] at h
    cases e <;> first | rfl | cases h

theorem reply_is_found_sample :
    (∃ ms, parseJsonReply Store.sampleObserver.py 1 (contentOnly (txt "\x7b\"a\":\"\x7d\"\x7d")) = .ok (.obj ms)) ∧
      ∃ ms, parseJsonReply Store.sampleObserver.py 1 (contentOnly (txt "So: " ++ txt "\x7b\"a\":1\x7d" ++ txt ".")) =
        .ok (.obj ms) := by
  have hfound := (reply_is_found Store.sampleObserver 0).1
  constructor
  · have hobject : (loads Store.sampleObserver.py (txt "\x7b\"a\":\"\x7d\"\x7d")).toOption.map isObject = some true := by
      decide +kernel
    obtain ⟨ms, hread⟩ := loads_object hobject
    have hwhole : loads Store.sampleObserver.py ([] ++ txt "\x7b\"a\":\"\x7d\"\x7d" ++ []) = .ok (.obj ms) := by
      rw [List.append_nil]
      exact hread
    have hreply := hfound ms _ [] [] hread (fun _ hc => absurd hc List.not_mem_nil) (.inl hwhole)
    rw [List.nil_append, List.append_nil] at hreply
    exact ⟨ms, hreply⟩
  · have hobject : (loads Store.sampleObserver.py (txt "\x7b\"a\":1\x7d")).toOption.map isObject = some true := by decide +kernel
    have hprose : (tryLoads Store.sampleObserver.py (txt "So: " ++ txt "\x7b\"a\":1\x7d" ++ txt ".")).toOption.map Option.isSome =
        some false := by
      decide +kernel
    obtain ⟨ms, hread⟩ := loads_object hobject
    have hplain : ∀ c ∈ txt "So: " ++ txt ".", c ≠ 123 ∧ c ≠ 125 := by decide +kernel
    have hbalanced : Balanced (txt "\x7b\"a\":1\x7d") := by
      refine ⟨rfl, rfl, fun s rest he hs hrest => ?_⟩
      have htake : s = (txt "\x7b\"a\":1\x7d").take s.length := by rw [he, List.take_left]
      have hlength : 7 = s.length + rest.length := (congrArg List.length he).trans List.length_append
      have hfirst := List.length_pos_iff.mpr hs
      have hlast := List.length_pos_iff.mpr hrest
      have hinside : ∀ n < 7, 0 < n → ((txt "\x7b\"a\":1\x7d").take n).count 125 < ((txt "\x7b\"a\":1\x7d").take n).count 123 := by
        decide +kernel
      rw [htake]
      exact hinside _ (by omega) hfirst
    exact ⟨ms, hfound ms _ _ _ hread hplain (.inr ⟨hbalanced, loads_refused hprose⟩)⟩

end Meta

section Sample

theorem object_missed :
    (¬ ∀ ms t pre post, loads Canon.samplePython t = .ok (.obj ms) → (∀ c ∈ pre ++ post, c ≠ 123 ∧ c ≠ 125) →
      parseJsonReply Canon.samplePython 1 (contentOnly (pre ++ t ++ post)) = .ok (.obj ms)) ∧
      ¬ ∀ message, ∃ out, parseJsonReply Canon.samplePython 1 message = .ok out ∧ NullOrObject out := by
  constructor
  · intro hall
    have hread : (loads Canon.samplePython (txt "\x7b\"a\":\"\x7d\"\x7d")).toOption.map isObject = some true := by decide +kernel
    have hmissed : (parseJsonReply Canon.samplePython 1
        (contentOnly (txt "Sure: " ++ txt "\x7b\"a\":\"\x7d\"\x7d" ++ txt " Done."))).toOption.map isObject = some false := by
      decide +kernel
    have hprose : ∀ c ∈ txt "Sure: " ++ txt " Done.", c ≠ 123 ∧ c ≠ 125 := by decide +kernel
    obtain ⟨ms, hload⟩ := loads_object hread
    rw [hall ms _ _ _ hload hprose] at hmissed
    cases hmissed
  · intro hall
    have hlist : (parseJsonReply Canon.samplePython 1 (contentOnly (txt "[1]"))).toOption.map
        (fun v => (isObject v, truthy v)) = some (false, true) := by
      decide +kernel
    obtain ⟨out, hout, hobject⟩ := hall (contentOnly (txt "[1]"))
    rw [hout] at hlist
    obtain ⟨hno, hyes⟩ := Prod.mk.inj (Option.some.inj hlist)
    obtain rfl | hobject := hobject
    · cases hyes
    · rw [hno] at hobject
      cases hobject

end Sample

end ObserverClub.Classify
