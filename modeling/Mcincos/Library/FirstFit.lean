import Mathlib

namespace Mcincos.FirstFit

variable {free : ℕ → Prop} {n i run : ℕ}

def FreeRun (free : ℕ → Prop) (s n : ℕ) : Prop := ∀ j < n, free (s + j)

/-- What a left-to-right scan for `n` free cells knows after it has read the cells below `i`:
the longest free run ending at `i` has `run` cells, and no run of `n` cells ends at or below `i`. -/
structure Scanned (free : ℕ → Prop) (n i run : ℕ) : Prop where
  short : run < n
  fits : run ≤ i
  tail : FreeRun free (i - run) run
  edge : run < i → ¬free (i - run - 1)
  none : ∀ s, s + n ≤ i → ¬FreeRun free s n

theorem Scanned.start (hn : 0 < n) : Scanned free n 0 0 where
  short := hn
  fits := le_refl 0
  tail := fun j hj => absurd hj (by omega)
  edge := fun h => absurd h (by omega)
  none := fun s hs => absurd hs (by omega)

theorem Scanned.reset (h : Scanned free n i run) (hf : ¬free i) : Scanned free n (i + 1) 0 where
  short := by have := h.short; omega
  fits := by omega
  tail := fun j hj => absurd hj (by omega)
  edge := fun _ => by simpa using hf
  none := by
    intro s hs hr
    by_cases he : s + n ≤ i
    · exact h.none s he hr
    · have hlast := hr (n - 1) (by have := h.short; omega)
      rw [show s + (n - 1) = i by have := h.short; omega] at hlast
      exact hf hlast

theorem Scanned.grow (h : Scanned free n i run) (hf : free i) : FreeRun free (i - run) (run + 1) := by
  intro j hj
  by_cases he : j = run
  · rw [he, Nat.sub_add_cancel h.fits]
    exact hf
  · exact h.tail j (by omega)

theorem Scanned.extend (h : Scanned free n i run) (hf : free i) (hn : run + 1 ≠ n) :
    Scanned free n (i + 1) (run + 1) where
  short := by have := h.short; omega
  fits := by have := h.fits; omega
  tail := by simpa using h.grow hf
  edge := by
    intro hlt
    have := h.edge (by omega)
    rwa [show i + 1 - (run + 1) - 1 = i - run - 1 by omega]
  none := by
    intro s hs hr
    by_cases he : s + n ≤ i
    · exact h.none s he hr
    · have hshort := h.short
      -- a run that ends at `i + 1` would reach back over the cell before the current run
      have hcell := hr (i - run - 1 - s) (by omega)
      rw [show s + (i - run - 1 - s) = i - run - 1 by omega] at hcell
      exact h.edge (by omega) hcell

theorem Scanned.hit (h : Scanned free n i run) (hf : free i) (hn : run + 1 = n) :
    FreeRun free (i - run) n ∧ ∀ s < i - run, ¬FreeRun free s n := by
  refine ⟨hn ▸ h.grow hf, fun s hs => h.none s ?_⟩
  omega

end Mcincos.FirstFit
