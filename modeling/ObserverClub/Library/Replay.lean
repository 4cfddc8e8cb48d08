import ObserverClub.Library.Runs

/-!
A log replayed from its start after every interruption, into a state in which each entry counts once.
The reading with which an entry is taken belongs to the occasion, not to the log.
-/

namespace Library.Replay

variable {σ ε ρ : Type}

structure Log (σ ε ρ : Type) where
  take : ρ → ε → σ → σ
  Held : ε → σ → Prop
  held_take : ∀ r e s, Held e (take r e s)
  held_stays : ∀ r e e' s, Held e s → Held e (take r e' s)
  take_held : ∀ r e s, Held e s → take r e s = s

namespace Log

variable (log : Log σ ε ρ)

def play (s : σ) (ps : List (ρ × ε)) : σ := run (fun s p => log.take p.1 p.2 s) s ps

variable {log} {s : σ} {ps : List (ρ × ε)}

theorem held_play {e : ε} (h : log.Held e s) : log.Held e (log.play s ps) :=
  run_invariant_of_step (I := log.Held e) (fun _ p hs => log.held_stays p.1 e p.2 _ hs) h ps

theorem held_of_mem {p : ρ × ε} (h : p ∈ ps) : log.Held p.2 (log.play s ps) := by
  obtain ⟨before, later, rfl⟩ := List.append_of_mem h
  rw [play, run_append, run_cons]
  exact held_play (log.held_take p.1 p.2 _)

theorem play_of_held (h : ∀ p ∈ ps, log.Held p.2 s) : log.play s ps = s := by
  induction ps with
  | nil => rfl
  | cons p ps ih =>
    rw [List.forall_mem_cons] at h
    rw [play, run_cons, log.take_held _ _ _ h.1]
    exact ih h.2

theorem play_again {seen again : List (ρ × ε)}
    (h : seen.map Prod.snd <+: again.map Prod.snd ∨ again.map Prod.snd <+: seen.map Prod.snd) :
    log.play (log.play s seen) again = log.play s (seen ++ again.drop seen.length) := by
  have hheld : ∀ p ∈ again.take seen.length, log.Held p.2 (log.play s seen) := by
    intro p hp
    have hmem : p.2 ∈ seen.map Prod.snd := by
      have hsnd : p.2 ∈ (again.map Prod.snd).take seen.length := by
        rw [← List.map_take]
        exact List.mem_map_of_mem hp
      rcases h with h | h
      · have htake := List.prefix_iff_eq_take.mp h
        rw [List.length_map] at htake
        rw [htake]
        exact hsnd
      · exact h.subset (List.mem_of_mem_take hsnd)
    obtain ⟨q, hq, he⟩ := List.mem_map.mp hmem
    rw [← he]
    exact held_of_mem hq
  calc log.play (log.play s seen) again
      = log.play (log.play (log.play s seen) (again.take seen.length)) (again.drop seen.length) := by
        conv_lhs => rw [← List.take_append_drop seen.length again, play, run_append]
        rfl
    _ = log.play (log.play s seen) (again.drop seen.length) := by rw [play_of_held hheld]
    _ = log.play s (seen ++ again.drop seen.length) := (run_append _ _ _).symm

end Log

end Library.Replay
