import Mathlib

namespace Mcincos.WordStack

variable {α : Type*} {mem mem' : BitVec 64 → α} {a : BitVec 64} {w : α} {ws : List α}

/-- The words from address `a` upwards, eight bytes apart. -/
def Holds (mem : BitVec 64 → α) : BitVec 64 → List α → Prop
  | _, [] => True
  | a, w :: ws => mem a = w ∧ Holds mem (a + 8) ws

theorem Holds.left {vs : List α} (h : Holds mem a (ws ++ vs)) : Holds mem a ws := by
  induction ws generalizing a with
  | nil => trivial
  | cons w ws ih => exact ⟨h.1, ih h.2⟩

theorem Holds.drop (h : Holds mem a ws) (n : ℕ) : Holds mem (a + BitVec.ofNat 64 (8 * n)) (ws.drop n) := by
  induction n generalizing a ws with
  | zero =>
    have hzero : a + BitVec.ofNat 64 (8 * 0) = a := BitVec.add_zero a
    rw [hzero]
    exact h
  | succ n ih =>
    cases ws with
    | nil => trivial
    | cons w ws =>
      have hnext : a + BitVec.ofNat 64 (8 * (n + 1)) = a + 8 + BitVec.ofNat 64 (8 * n) := by
        bv_omega
      rw [hnext, List.drop_succ_cons]
      exact ih h.2

theorem Holds.congr (h : Holds mem a ws) (hroom : a.toNat + 8 * ws.length ≤ 2 ^ 64)
    (hmem : ∀ b, a ≤ b → mem' b = mem b) : Holds mem' a ws := by
  induction ws generalizing a with
  | nil => trivial
  | cons w ws ih =>
    refine ⟨(hmem a (BitVec.le_refl a)).trans h.1, ?_⟩
    rw [List.length_cons] at hroom
    cases ws with
    | nil => trivial
    | cons v vs =>
      rw [List.length_cons] at hroom
      have hnext : (a + 8).toNat = a.toNat + 8 := by
        bv_omega
      apply ih h.2
      · rw [hnext, List.length_cons]
        omega
      · intro b hb
        apply hmem
        bv_omega

theorem Holds.push (h : Holds mem a ws) (hroom : a.toNat + 8 * ws.length ≤ 2 ^ 64) (hlow : 8 ≤ a.toNat)
    (w : α) : Holds (Function.update mem (a - 8) w) (a - 8) (w :: ws) := by
  refine ⟨Function.update_self _ _ _, ?_⟩
  rw [BitVec.sub_add_cancel]
  apply h.congr hroom
  intro b hb
  apply Function.update_of_ne
  bv_omega

end Mcincos.WordStack
