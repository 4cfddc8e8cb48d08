import ObserverClub.Fetch

namespace ObserverClub.Fetch

open Library Python

variable {py : Interpreter} {chars : Unicode}

theorem sniffSource_ne_pdf (data : Bytes) : Extract.sniffSource data ≠ some pdf := by
  unfold Extract.sniffSource
  dsimp only
  split_ifs <;> decide

theorem sniffRest_ne_pdf (data : Bytes) : Extract.sniffRest data none ≠ pdf := by
  unfold Extract.sniffRest
  cases hs : Extract.sniffSource data with
  | some source =>
    intro h
    exact sniffSource_ne_pdf data (hs.trans (congrArg some h))
  | none =>
    simp only [Option.getD_none, ne_eq, not_true_eq_false, false_and, if_false, if_true]
    split_ifs <;> decide

theorem filenameExtMime_ne_pdf (filename : Option Text) : Extract.filenameExtMime chars filename ≠ some pdf := by
  have hext : ∀ e ∈ Extract.sourceExt, e.2 ≠ pdf := by decide
  intro h
  obtain ⟨e, he, hmime⟩ := Option.map_eq_some_iff.mp h
  exact hext e (List.mem_of_find?_eq_some he) hmime

theorem sniffRiff_ne_pdf (data : Bytes) : Extract.sniffRiff data ≠ some pdf := by
  have hriff : ∀ e ∈ Extract.riffTypes, e.2 ≠ pdf := by decide
  intro h
  unfold Extract.sniffRiff at h
  split_ifs at h
  obtain ⟨e, he, hmime⟩ := Option.map_eq_some_iff.mp h
  exact hriff e (List.mem_of_find?_eq_some he) hmime

theorem sniffMagic_pdf {data : Bytes} (h : Extract.sniffMagic data = some pdf) : ascii "%PDF" <+: data := by
  have hmagic : ∀ e ∈ Extract.magic, e.2 = pdf → e.1 = ascii "%PDF" := by decide
  obtain ⟨e, he, hmime⟩ := Option.map_eq_some_iff.mp h
  have hpre := List.find?_some he
  rw [hmagic e (List.mem_of_find?_eq_some he) hmime] at hpre
  exact List.isPrefixOf_iff_prefix.mp hpre

theorem sniffMime_pdf {data : Bytes} {filename : Option Text}
    (h : Extract.sniffMime py chars data none filename = .ok pdf) :
    Extract.filenameExtMime chars filename = none ∧ ascii "%PDF" <+: data := by
  unfold Extract.sniffMime at h
  simp only [reduceCtorEq, if_false] at h
  cases hf : Extract.filenameExtMime chars filename with
  | some named =>
    simp only [hf, pure, Except.pure, Except.ok.injEq] at h
    exact absurd (hf.trans (congrArg some h)) (filenameExtMime_ne_pdf filename)
  | none =>
    refine ⟨rfl, ?_⟩
    simp only [hf] at h
    cases hr : Extract.sniffRiff data with
    | some sub =>
      simp only [hr, pure, Except.pure, Except.ok.injEq] at h
      exact absurd (hr.trans (congrArg some h)) (sniffRiff_ne_pdf data)
    | none =>
      simp only [hr] at h
      cases hm : Extract.sniffMagic data with
      | some mime =>
        simp only [hm, pure, Except.pure, Except.ok.injEq] at h
        exact sniffMagic_pdf (hm.trans (congrArg some h))
      | none =>
        simp only [hm] at h
        by_cases hhtml : Extract.looksLikeHtml data = true
        · simp only [hhtml, if_true, pure, Except.pure, Except.ok.injEq] at h
          exact absurd h (by decide)
        · simp only [hhtml] at h
          cases hj : Extract.looksLikeJson py data with
          | error e => simp [hj, bind, Except.bind] at h
          | ok b =>
            cases b with
            | true =>
              simp only [hj, bind, Except.bind, if_true, pure, Except.pure] at h
              exact absurd h (by decide)
            | false =>
              simp only [hj, bind, Except.bind, Bool.false_eq_true, if_false, pure, Except.pure, Except.ok.injEq] at h
              exact absurd h (sniffRest_ne_pdf data)

theorem sniffMime_of_magic {data : Bytes} {filename : Option Text} (hf : Extract.filenameExtMime chars filename = none)
    (h : ascii "%PDF" <+: data) : Extract.sniffMime py chars data none filename = .ok pdf := by
  obtain ⟨rest, rfl⟩ := h
  unfold Extract.sniffMime
  have hr : Extract.sniffRiff (ascii "%PDF" ++ rest) = none := rfl
  have hm : Extract.sniffMagic (ascii "%PDF" ++ rest) = some pdf := rfl
  simp only [hf, hr, hm]
  rfl

end ObserverClub.Fetch
