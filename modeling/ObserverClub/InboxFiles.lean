import Mathlib.Algebra.Order.BigOperators.Group.List
import ObserverClub.Crashes

/-!
`inbox.go`: how the daemon keeps the files of its inbox within their limits each time it has appended a line.
-/

namespace ObserverClub.Clubd

open Library Ingest

structure Tidying where
  keepDays : ℤ
  maxBytes : ℤ
  now : ℚ
  now' : ℚ
  day : ℚ → Text
  stuck : Text → Bool

section Pruning

variable (p : Tidying)

def dayFile (day : Text) : Text := day ++ txt ".jsonl"

namespace Tidying

def keep : ℤ := if p.keepDays ≤ 0 then 7 else p.keepDays

def cap : ℤ := if p.maxBytes ≤ 0 then 64 * 2 ^ 20 else p.maxBytes

def cutoff : ℚ := p.now - 86400 * p.keep

def today : Text := dayFile (p.day p.now')

def stale (f : File) : Bool := f.mtime < p.cutoff || f.name.take (f.name.length - 6) < p.day p.cutoff

end Tidying

def size (fs : List File) : ℤ := (fs.map fun f => (f.content.length : ℤ)).sum

def pruneFiles : List File → ℤ → List Text × Bool
  | [], _ => ([], true)
  | f :: fs, total =>
    if f.name = p.today then pruneFiles fs total
    else if !p.stale f && decide (total ≤ p.cap) then pruneFiles fs total
    else if p.stuck f.name then ([], false)
    else (f.name :: (pruneFiles fs (total - f.content.length)).1, (pruneFiles fs (total - f.content.length)).2)

def pruneInboxDir (files : List File) : List Text × Bool := pruneFiles p (jsonl files) (size (jsonl files))

def tidied (files : List File) : List File := files.filter fun f => f.name ∉ (pruneInboxDir p files).1

variable {p}

theorem mem_pruneFiles {fs : List File} {total : ℤ} {name : Text} (h : name ∈ (pruneFiles p fs total).1) :
    name ≠ p.today ∧ ∃ f ∈ fs, f.name = name := by
  induction fs generalizing total with
  | nil => exact absurd h List.not_mem_nil
  | cons f fs ih =>
    have later {total : ℤ} (h : name ∈ (pruneFiles p fs total).1) : name ≠ p.today ∧ ∃ g ∈ f :: fs, g.name = name := by
      obtain ⟨hne, g, hg, he⟩ := ih h
      exact ⟨hne, g, List.mem_cons_of_mem _ hg, he⟩
    rw [pruneFiles] at h
    split_ifs at h with htoday hkept hstuck
    · exact later h
    · exact later h
    · exact absurd h List.not_mem_nil
    · obtain rfl | h := List.mem_cons.mp h
      · exact ⟨htoday, f, List.mem_cons_self, rfl⟩
      · exact later h

theorem not_mem_pruneFiles {fs : List File} {total : ℤ} {f : File} (hnames : ((f :: fs).map File.name).Nodup) :
    f.name ∉ (pruneFiles p fs total).1 := by
  intro hmem
  obtain ⟨-, g, hg, he⟩ := mem_pruneFiles hmem
  rw [List.map_cons, List.nodup_cons] at hnames
  apply hnames.1
  rw [← he]
  exact List.mem_map_of_mem hg

theorem size_cons (f : File) (fs : List File) : size (f :: fs) = f.content.length + size fs := rfl

theorem filter_cons_name {f : File} {fs : List File} (names : List Text) (hf : f.name ∉ fs.map File.name) :
    (fs.filter fun g => g.name ∈ f.name :: names) = fs.filter fun g => g.name ∈ names := by
  apply List.filter_congr
  intro g hg
  have hne : g.name ≠ f.name := fun he => hf (he ▸ List.mem_map_of_mem hg)
  simp only [List.mem_cons, hne, false_or]

theorem pruneFiles_iff {fs before after : List File} {total : ℤ} {f : File} (h : (pruneFiles p fs total).2 = true)
    (hnames : (fs.map File.name).Nodup) (hfs : fs = before ++ f :: after) : f.name ∈ (pruneFiles p fs total).1 ↔
      f.name ≠ p.today ∧ (p.stale f = true ∨
        p.cap < total - size (before.filter fun g => g.name ∈ (pruneFiles p fs total).1)) := by
  induction fs generalizing total before with
  | nil => simp at hfs
  | cons g fs ih =>
    have hhead (total : ℤ) : g.name ∉ (pruneFiles p fs total).1 := not_mem_pruneFiles hnames
    obtain ⟨hg, hnames⟩ := List.nodup_cons.mp hnames
    rw [pruneFiles] at h ⊢
    cases before with
    | nil =>
      obtain ⟨rfl, rfl⟩ := List.cons.inj hfs
      rw [List.filter_nil, show size [] = 0 from rfl, Int.sub_zero]
      split_ifs at h ⊢ with htoday hkept
      · exact iff_of_false (hhead total) fun hr => hr.1 htoday
      · rw [Bool.and_eq_true, Bool.not_eq_true', decide_eq_true_eq] at hkept
        refine iff_of_false (hhead total) fun hr => ?_
        obtain hstale | hover := hr.2
        · rw [hkept.1] at hstale
          cases hstale
        · omega
      · refine iff_of_true List.mem_cons_self ⟨htoday, ?_⟩
        rw [Bool.and_eq_true, Bool.not_eq_true', decide_eq_true_eq, not_and_or, Bool.not_eq_false, not_le] at hkept
        exact hkept
    | cons b before =>
      obtain ⟨rfl, htail⟩ := List.cons.inj hfs
      have hne : f.name ≠ g.name := by
        intro he
        apply hg
        rw [← he, htail]
        exact List.mem_map_of_mem (List.mem_append_right _ List.mem_cons_self)
      have hbefore : g.name ∉ before.map File.name := by
        intro hmem
        apply hg
        obtain ⟨b, hb, he⟩ := List.mem_map.mp hmem
        rw [htail, ← he]
        exact List.mem_map_of_mem (List.mem_append_left _ hb)
      split_ifs at h ⊢ with htoday hkept
      · rw [List.filter_cons_of_neg (by simpa using hhead total)]
        exact ih h hnames htail
      · rw [List.filter_cons_of_neg (by simpa using hhead total)]
        exact ih h hnames htail
      · rw [List.filter_cons_of_pos (by simp), filter_cons_name _ hbefore, size_cons, ← sub_sub, List.mem_cons]
        rw [← ih h hnames htail]
        exact or_iff_right hne

theorem pruneFiles_left {fs : List File} {total : ℤ} (h : (pruneFiles p fs total).2 = true)
    (hnames : (fs.map File.name).Nodup) {f : File} (hf : f ∈ fs) (hleft : f.name ∉ (pruneFiles p fs total).1)
    (hday : f.name ≠ p.today) : p.stale f = false ∧
      total - size (fs.filter fun g => g.name ∈ (pruneFiles p fs total).1) ≤ p.cap := by
  obtain ⟨before, after, hfs⟩ := List.append_of_mem hf
  have hiff := (pruneFiles_iff h hnames hfs).not.mp hleft
  rw [not_and_or, not_or, Bool.not_eq_true, not_lt] at hiff
  obtain hd | ⟨hstale, hwithin⟩ := hiff
  · exact absurd hday hd
  refine ⟨hstale, le_trans ?_ hwithin⟩
  have hsizes : size (before.filter fun g => g.name ∈ (pruneFiles p fs total).1) ≤
      size (fs.filter fun g => g.name ∈ (pruneFiles p fs total).1) := by
    have hsplit : (fs.filter fun g => g.name ∈ (pruneFiles p fs total).1) =
        (before.filter fun g => g.name ∈ (pruneFiles p fs total).1) ++
          (f :: after).filter fun g => g.name ∈ (pruneFiles p fs total).1 := by
      generalize (pruneFiles p fs total).1 = removed
      rw [hfs, List.filter_append]
    have hrest : 0 ≤ size ((f :: after).filter fun g => g.name ∈ (pruneFiles p fs total).1) := by
      unfold size
      apply List.sum_nonneg
      intro n hn
      obtain ⟨g, -, rfl⟩ := List.mem_map.mp hn
      exact Int.natCast_nonneg _
    rw [hsplit]
    unfold size at hrest ⊢
    rw [List.map_append, List.sum_append]
    omega
  omega

theorem size_perm {fs fs' : List File} (h : fs.Perm fs') : size fs = size fs' := (h.map _).sum_eq

theorem size_tidied (p : Tidying) (files : List File) : size (jsonl (tidied p files)) =
    size (jsonl files) - size ((jsonl files).filter fun g => g.name ∈ (pruneInboxDir p files).1) := by
  have hperm : (jsonl (tidied p files)).Perm
      ((jsonl files).filter fun g => g.name ∉ (pruneInboxDir p files).1) := by
    unfold tidied
    generalize (pruneInboxDir p files).1 = removed
    unfold jsonl
    refine (List.mergeSort_perm _ _).trans ?_
    rw [List.filter_comm]
    exact ((List.mergeSort_perm _ _).filter _).symm
  rw [size_perm hperm]
  generalize (pruneInboxDir p files).1 = removed
  have hsplit := size_perm (List.filter_append_perm (fun g : File => g.name ∈ removed) (jsonl files))
  have hnot : ((jsonl files).filter fun g => !decide (g.name ∈ removed)) = (jsonl files).filter fun g => g.name ∉ removed := by
    apply List.filter_congr
    intro g _
    rw [decide_not]
  rw [hnot] at hsplit
  unfold size at hsplit ⊢
  rw [List.map_append, List.sum_append] at hsplit
  omega

theorem pruneInboxDir_limits (p : Tidying) {files : List File} (hnames : (files.map File.name).Nodup) :
    (∀ f ∈ files, f.name = p.today ∨ (txt ".jsonl").isSuffixOf f.name = false → f ∈ tidied p files) ∧
      ((pruneInboxDir p files).2 = true →
        (∀ before f after, jsonl files = before ++ f :: after → (f.name ∈ (pruneInboxDir p files).1 ↔ f.name ≠ p.today ∧
          (p.stale f = true ∨
            p.cap < size (jsonl files) - size (before.filter fun g => g.name ∈ (pruneInboxDir p files).1)))) ∧
        ∀ f ∈ jsonl (tidied p files), f.name ≠ p.today → p.stale f = false ∧ size (jsonl (tidied p files)) ≤ p.cap) := by
  have hjsonl := names_jsonl hnames
  refine ⟨fun f hf hstays => ?_, fun hok => ⟨fun before f after hfs => ?_, fun f hf hday => ?_⟩⟩
  · rw [tidied, List.mem_filter, decide_eq_true_eq]
    refine ⟨hf, fun hmem => ?_⟩
    obtain ⟨hne, g, hg, he⟩ := mem_pruneFiles hmem
    obtain htoday | hplain := hstays
    · exact hne htoday
    · have hsuffix := (mem_jsonl.mp hg).2
      rw [he, hplain] at hsuffix
      cases hsuffix
  · exact pruneFiles_iff hok hjsonl hfs
  · obtain ⟨htidied, hsuffix⟩ := mem_jsonl.mp hf
    rw [tidied, List.mem_filter, decide_eq_true_eq] at htidied
    rw [size_tidied]
    exact pruneFiles_left hok hjsonl (mem_jsonl.mpr ⟨htidied.1, hsuffix⟩) htidied.2 hday

end Pruning

end ObserverClub.Clubd
