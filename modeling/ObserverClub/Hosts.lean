import ObserverClub.InboxFiles
import ObserverClub.LogTables
import ObserverClub.SignedLines

namespace ObserverClub.Host

open Library Ingest Store Catalog Sqlite

section Files

def Whole (s : Bytes) : Prop := (records 10 s).2 = []

theorem whole_cases {s : Bytes} (h : Whole s) : s = [] ∨ ∃ t, s = t ++ [10] := by
  have hjoin := records_join 10 s
  rw [h, List.append_nil] at hjoin
  generalize (records 10 s).1 = rs at hjoin
  rcases List.eq_nil_or_concat rs with rfl | ⟨init, last, rfl⟩
  · exact Or.inl hjoin.symm
  · refine Or.inr ⟨init.flatMap (· ++ [10]) ++ last, ?_⟩
    rw [← hjoin, List.concat_eq_append, List.flatMap_append, List.flatMap_singleton, List.append_assoc]

theorem records_whole {s : Bytes} (h : Whole s) (t : Bytes) :
    records 10 (s ++ t) = ((records 10 s).1 ++ (records 10 t).1, (records 10 t).2) := by
  obtain rfl | ⟨s, rfl⟩ := whole_cases h
  · rfl
  · rw [List.append_assoc, List.singleton_append, records_append]

theorem whole_append {s t : Bytes} (hs : Whole s) (ht : Whole t) : Whole (s ++ t) := by
  rw [Whole, records_whole hs]
  exact ht

/-- `f.Write`; a write of nothing leaves the time of the file as it was. -/
def write (now : ℚ) (bytes : Bytes) (f : File) : File :=
  ⟨f.name, f.content ++ bytes, if bytes = [] then f.mtime else now⟩

/-- `os.OpenFile` with `O_APPEND` and `O_CREATE`, and the bytes written to it. -/
def appendBytes (name : Text) (now : ℚ) (bytes : Bytes) (files : List File) : List File :=
  if name ∈ files.map File.name then files.map fun f => if f.name = name then write now bytes f else f
  else files ++ [⟨name, bytes, now⟩]

theorem names_appendBytes (name : Text) (now : ℚ) (bytes : Bytes) (files : List File) :
    (appendBytes name now bytes files).map File.name =
      if name ∈ files.map File.name then files.map File.name else files.map File.name ++ [name] := by
  unfold appendBytes
  split_ifs
  · rw [List.map_map]
    apply List.map_congr_left
    intro f _
    show (if f.name = name then write now bytes f else f).name = f.name
    split_ifs <;> rfl
  · rw [List.map_append]
    rfl

theorem nodup_appendBytes {name : Text} {now : ℚ} {bytes : Bytes} {files : List File} (h : (files.map File.name).Nodup) :
    ((appendBytes name now bytes files).map File.name).Nodup := by
  rw [names_appendBytes]
  split_ifs with hmem
  · exact h
  · rw [List.nodup_append]
    refine ⟨h, List.nodup_singleton _, ?_⟩
    rintro a ha b hb rfl
    rw [List.mem_singleton.mp hb] at ha
    exact hmem ha

theorem nodup_tidied {p : Clubd.Tidying} {files : List File} (h : (files.map File.name).Nodup) :
    ((Clubd.tidied p files).map File.name).Nodup := h.sublist (List.filter_sublist.map File.name)

end Files

/-- What a node is made of besides its state. -/
structure Setup where
  node : Clubd.Node
  observer : Observer
  config : Config
  keepDays : ℤ
  maxBytes : ℤ
  day : ℚ → Text

/-- The clock stands where the last deed has left it. -/
structure State where
  clock : ℚ
  daemon : Clubd.System
  disk : Disk

/-- What can happen: the daemon goes on (and cannot remove some files just then), or starts again; the observer drains
the inbox, takes in the reply to a request, or makes another call on the catalog. -/
inductive Deed where
  | daemon (e : Clubd.Event) (now : ℚ) (stuck : Text → Bool)
  | restart (rate : ℤ)
  | drain (a : Attempt)
  | reply (i : ℕ) (w : Surroundings)
  | call (c : Call)

/-- A deed between two readings of the clock. -/
structure Event where
  first : ℚ
  last : ℚ
  deed : Deed

section Running

variable (setup : Setup)

/-- `appendInbox`, once the daemon has a line to write: a write that fails may leave a part of it. -/
def appendInbox (e : Event) (now : ℚ) (stuck : Text → Bool) (files : List File) (entry : Clubd.Entry) (r : Clubd.Reading) :
    List File :=
  let name := Clubd.dayFile (setup.day e.first)
  if r.ok then
    Clubd.tidied ⟨setup.keepDays, setup.maxBytes, now, e.last, setup.day, stuck⟩
      (appendBytes name e.first (entry.line ++ [10]) files)
  else r.cut.elim files fun n => appendBytes name e.first (entry.line.take n) files

def writing (t : Clubd.System) : Clubd.Event → Option (Clubd.Entry × Clubd.Reading)
  | .start _ => none
  | .advance i r =>
    match t.calls[i]? with
    | some (.act (.appendInbox entry) _) => some (entry, r)
    | _ => none

theorem writing_some {t : Clubd.System} {ev : Clubd.Event} {w : Clubd.Entry × Clubd.Reading} (h : writing t ev = some w) :
    ∃ i next, ev = .advance i w.2 ∧ t.calls[i]? = some (.act (.appendInbox w.1) next) := by
  cases ev with
  | start a => cases h
  | advance i r =>
    cases hi : t.calls[i]? with
    | none => simp [writing, hi] at h
    | some p =>
      cases p with
      | done x => simp [writing, hi] at h
      | act a next =>
        cases a with
        | appendInbox entry =>
          simp only [writing, hi, Option.some.injEq] at h
          rw [← h]
          exact ⟨i, next, rfl, hi⟩
        | _ => simp [writing, hi] at h

theorem nodup_appendInbox {e : Event} {now : ℚ} {stuck : Text → Bool} {files : List File} (h : (files.map File.name).Nodup)
    (w : Option (Clubd.Entry × Clubd.Reading)) :
    ((w.elim files fun w => appendInbox setup e now stuck files w.1 w.2).map File.name).Nodup := by
  cases w with
  | none => exact h
  | some w =>
    rw [Option.elim_some, appendInbox]
    split_ifs
    · exact nodup_tidied (nodup_appendBytes h)
    · cases w.2.cut with
      | none => exact h
      | some n => exact nodup_appendBytes h

def restarted (rate : ℤ) (d : Clubd.Daemon) : Clubd.System :=
  ⟨{ (Clubd.start rate d.inbox).shared with stored := d.stored }, []⟩

/-- `publish_report`, once its request has come back signed. -/
def takeReply (o : Observer) (t : Clubd.System) (i : ℕ) (w : Surroundings) (c : Conn) : Conn :=
  match (t.calls[i]?).bind Program.result with
  | some (.published line) =>
    match Python.loadsBytes o.py line with
    | .ok (.obj ms) =>
      if Python.truthy (Python.item (.obj ms) "sig") then (ingestMessage o w (.obj ms) c).2 else c
    | _ => c
  | _ => c

def step (s : State) (e : Event) : State :=
  match e.deed with
  | .daemon ev now stuck =>
    ⟨e.last, Clubd.step setup.node s.daemon ev, { s.disk with
      files := (writing s.daemon ev).elim s.disk.files fun w => appendInbox setup e now stuck s.disk.files w.1 w.2
      distinct := nodup_appendInbox setup s.disk.distinct _ }⟩
  | .restart rate => ⟨e.last, restarted rate s.daemon.shared, s.disk⟩
  | .drain a => ⟨e.last, s.daemon, attempt setup.observer setup.config s.disk a⟩
  | .reply i w => ⟨e.last, s.daemon, { s.disk with conn := takeReply setup.observer s.daemon i w s.disk.conn }⟩
  | .call c => ⟨e.last, s.daemon, { s.disk with conn := Store.step setup.observer s.disk.conn c }⟩

/-- A node before its first start. -/
def start (rate : ℤ) (clock : ℚ) : State := ⟨clock, Clubd.start rate [], ⟨[], List.nodup_nil, fun _ => none, fresh⟩⟩

end Running

section Shelves

variable (setup : Setup)

/-- A line that holds no value but a message whose signature verifies. -/
def Vouched (raw : Bytes) : Prop := trim isSpaceByte raw ≠ [] →
  ∀ v, Python.loadsBytes setup.observer.py (trim isSpaceByte raw) = .ok v →
    ∃ g, v = pythonView g ∧ Clubd.Signed setup.node g

def Past (today name : Text) : Prop := ∃ day < today, name = Clubd.dayFile day

structure Shelf (today : Text) (files : List File) (offsets : Text → Option ℕ) : Prop where
  named : ∀ f ∈ files, ∃ day ≤ today, f.name = Clubd.dayFile day
  whole : ∀ f ∈ files, Whole f.content
  vouched : ∀ f ∈ files, ∀ raw ∈ (records 10 f.content).1, Vouched setup raw
  marked : ∀ f ∈ files, ∀ k, offsets f.name = some k → k ≤ f.content.length ∧ Whole (f.content.take k)
  gone : ∀ name, offsets name ≠ none → name ∈ files.map File.name ∨ Past today name

variable {setup} {today day : Text} {files : List File} {offsets : Text → Option ℕ}

theorem dayFile_injective {day day' : Text} (h : Clubd.dayFile day = Clubd.dayFile day') : day = day' :=
  List.append_cancel_right h

theorem Past.mono {name : Text} (h : Past today name) (hday : today ≤ day) : Past day name := by
  obtain ⟨d, hd, hname⟩ := h
  exact ⟨d, hd.trans_le hday, hname⟩

theorem Shelf.past (h : Shelf setup today files offsets) {f : File} (hf : f ∈ files) (hne : f.name ≠ Clubd.dayFile today) :
    Past today f.name := by
  obtain ⟨day, hday, hname⟩ := h.named f hf
  refine ⟨day, lt_of_le_of_ne hday ?_, hname⟩
  rintro rfl
  exact hne hname

theorem Shelf.mono (h : Shelf setup today files offsets) (hday : today ≤ day) : Shelf setup day files offsets where
  named f hf := by
    obtain ⟨d, hd, hname⟩ := h.named f hf
    exact ⟨d, hd.trans hday, hname⟩
  whole := h.whole
  vouched := h.vouched
  marked := h.marked
  gone name hname := (h.gone name hname).imp_right fun hpast => hpast.mono hday

theorem Shelf.filter (h : Shelf setup today files offsets) {keep : File → Bool}
    (hold : ∀ f ∈ files, keep f = false → Past today f.name) : Shelf setup today (files.filter keep) offsets where
  named f hf := h.named f (List.mem_of_mem_filter hf)
  whole f hf := h.whole f (List.mem_of_mem_filter hf)
  vouched f hf := h.vouched f (List.mem_of_mem_filter hf)
  marked f hf := h.marked f (List.mem_of_mem_filter hf)
  gone name hname := by
    obtain hmem | hpast := h.gone name hname
    · obtain ⟨f, hf, rfl⟩ := List.mem_map.mp hmem
      cases hkeep : keep f with
      | true => exact Or.inl (List.mem_map_of_mem (List.mem_filter.mpr ⟨hf, hkeep⟩))
      | false => exact Or.inr (hold f hf hkeep)
    · exact Or.inr hpast

/-- Files that have grown by whole lines, the lines before them where they were. -/
theorem Shelf.grown (h : Shelf setup today files offsets) {bytes : Bytes} (hwhole : Whole bytes)
    (hlines : ∀ raw ∈ (records 10 bytes).1, Vouched setup raw) {files' : List File}
    (hnames : files'.map File.name = files.map File.name)
    (hfiles : ∀ f ∈ files', ∃ g ∈ files, f.name = g.name ∧ (f = g ∨ f.content = g.content ++ bytes)) :
    Shelf setup today files' offsets where
  named f hf := by
    obtain ⟨g, hg, hname, -⟩ := hfiles f hf
    rw [hname]
    exact h.named g hg
  whole f hf := by
    obtain ⟨g, hg, -, rfl | hcontent⟩ := hfiles f hf
    · exact h.whole f hg
    · rw [hcontent]
      exact whole_append (h.whole g hg) hwhole
  vouched f hf := by
    obtain ⟨g, hg, -, rfl | hcontent⟩ := hfiles f hf
    · exact h.vouched f hg
    · rw [hcontent, records_whole (h.whole g hg), List.forall_mem_append]
      exact ⟨h.vouched g hg, hlines⟩
  marked f hf k hk := by
    obtain ⟨g, hg, hname, rfl | hcontent⟩ := hfiles f hf
    · exact h.marked f hg k hk
    · rw [hname] at hk
      obtain ⟨hle, hmarked⟩ := h.marked g hg k hk
      rw [hcontent, List.length_append, List.take_append_of_le_length hle]
      exact ⟨hle.trans (Nat.le_add_right _ _), hmarked⟩
  gone := by
    rw [hnames]
    exact h.gone

theorem Shelf.begun (h : Shelf setup today files offsets) {bytes : Bytes} (hwhole : Whole bytes)
    (hlines : ∀ raw ∈ (records 10 bytes).1, Vouched setup raw) (hnew : Clubd.dayFile today ∉ files.map File.name) (now : ℚ) :
    Shelf setup today (files ++ [⟨Clubd.dayFile today, bytes, now⟩]) offsets where
  named := by
    rw [List.forall_mem_append, List.forall_mem_singleton]
    exact ⟨h.named, today, le_rfl, rfl⟩
  whole := by
    rw [List.forall_mem_append, List.forall_mem_singleton]
    exact ⟨h.whole, hwhole⟩
  vouched := by
    rw [List.forall_mem_append, List.forall_mem_singleton]
    exact ⟨h.vouched, hlines⟩
  marked := by
    rw [List.forall_mem_append, List.forall_mem_singleton]
    refine ⟨h.marked, fun k hk => ?_⟩
    -- a file that starts anew has no offset from before
    obtain hold | ⟨d, hd, hname⟩ := h.gone (Clubd.dayFile today) (by rw [hk]; exact Option.some_ne_none k)
    · exact absurd hold hnew
    · obtain rfl := dayFile_injective hname
      exact absurd hd (lt_irrefl today)
  gone name hname := by
    rw [List.map_append]
    exact (h.gone name hname).imp_left (List.mem_append_left _)

theorem Shelf.append (h : Shelf setup today files offsets) (hday : today ≤ day) {bytes : Bytes} (now : ℚ)
    (hwhole : Whole bytes) (hlines : ∀ raw ∈ (records 10 bytes).1, Vouched setup raw) :
    Shelf setup day (appendBytes (Clubd.dayFile day) now bytes files) offsets := by
  have hnames := names_appendBytes (Clubd.dayFile day) now bytes files
  unfold appendBytes at hnames ⊢
  split_ifs at hnames ⊢ with hmem
  · refine (h.mono hday).grown hwhole hlines hnames fun f hf => ?_
    obtain ⟨g, hg, rfl⟩ := List.mem_map.mp hf
    refine ⟨g, hg, ?_⟩
    split_ifs
    · exact ⟨rfl, Or.inr rfl⟩
    · exact ⟨rfl, Or.inl rfl⟩
  · exact (h.mono hday).begun hwhole hlines hmem now

theorem Shelf.tidied (h : Shelf setup today files offsets) (p : Clubd.Tidying) (hp : p.today = Clubd.dayFile today) :
    Shelf setup today (Clubd.tidied p files) offsets := by
  apply h.filter
  intro f hf hgone
  rw [decide_eq_false_iff_not, not_not] at hgone
  apply h.past hf
  rw [← hp]
  exact (Clubd.mem_pruneFiles hgone).1

end Shelves

end ObserverClub.Host
