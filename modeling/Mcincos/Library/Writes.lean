import Mathlib

namespace Mcincos.Writes

variable {κ β : Type*} [DecidableEq κ]

def written (key : ℕ → κ) (val : ℕ → β) (k : κ) (x : β) : ℕ → β
  | 0 => x
  | n + 1 => if key n = k then val n else written key val k x n

variable {key : ℕ → κ} {val : ℕ → β} {k : κ} {x : β} {n : ℕ}

theorem written_front (n : ℕ) :
    written (fun j => key (j + 1)) (fun j => val (j + 1)) k (if key 0 = k then val 0 else x) n =
      written key val k x (n + 1) := by
  induction n with
  | zero => rfl
  | succ n ih => rw [written, ih, written.eq_2 key val k x (n + 1)]

theorem written_untouched (h : ∀ j < n, key j ≠ k) : written key val k x n = x := by
  induction n with
  | zero => rfl
  | succ n ih =>
    rw [written, if_neg (h n n.lt_succ_self)]
    apply ih
    intro j hj
    exact h j (Nat.lt_succ_of_lt hj)

theorem written_last {j : ℕ} (hj : j < n) (hk : key j = k) (hlast : ∀ i, j < i → i < n → key i ≠ k) :
    written key val k x n = val j := by
  induction n with
  | zero => exact absurd hj (Nat.not_lt_zero j)
  | succ n ih =>
    rw [written]
    by_cases he : j = n
    · rw [if_pos (he ▸ hk), he]
    · have hlt : j < n := by omega
      rw [if_neg (hlast n hlt n.lt_succ_self)]
      apply ih hlt
      intro i hji hin
      exact hlast i hji (Nat.lt_succ_of_lt hin)

end Mcincos.Writes
