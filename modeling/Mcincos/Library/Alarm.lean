import Mathlib

/-! An alarm that rings once, some ticks after it has been set. -/

namespace Mcincos.Alarm

inductive Event
  | set (ticks : ℕ)
  | cancel
  | pass (ticks : ℕ)

def step : Option ℕ → Event → Option ℕ × Bool
  | _, .set ticks => (some ticks, false)
  | _, .cancel => (none, false)
  | none, .pass _ => (none, false)
  | some left, .pass ticks => if left ≤ ticks then (none, true) else (some (left - ticks), false)

theorem step_pass {left : Option ℕ} {elapsed n : ℕ} (h : (step left (.pass elapsed)).1 = some n) :
    ∃ before, left = some before ∧ n ≤ before := by
  cases left with
  | none => exact absurd h (by simp [step])
  | some before =>
    rw [step] at h
    split_ifs at h
    obtain rfl := Option.some.inj h
    exact ⟨before, rfl, Nat.sub_le before elapsed⟩

def run : Option ℕ → List Event → List Bool
  | _, [] => []
  | left, e :: es => (step left e).2 :: run (step left e).1 es

end Mcincos.Alarm
