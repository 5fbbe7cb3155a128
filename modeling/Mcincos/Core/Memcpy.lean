import Mcincos.Core.Memmove

namespace Mcincos

open Copying

namespace Memory

variable {d s n : U64} {i k fuel : ℕ} {m : Memory}

/-- The loop is the upward one of `memmove`, whatever the order of the two ranges. -/
def memcpy (fuel : ℕ) (dst src n : U64) (m : Memory) : Option (Memory × U64) :=
  (moveUp dst src n fuel 0 m).map fun m => (m, dst)

/-- Which byte of the source comes to be byte `i` of the destination: where the destination begins inside
the source, the bytes before it come over and over. -/
def copied (d s : U64) (i : ℕ) : ℕ := if s < d then i % (d.toNat - s.toNat) else i

theorem copied_lt (i : ℕ) (h : i < d.toNat - s.toNat ∨ d ≤ s) : copied d s i = i := by
  rw [copied]
  split_ifs with hlt
  · exact Nat.mod_eq_of_lt (h.resolve_right (BitVec.not_le.mpr hlt))
  · rfl

theorem copyAll_up (hlt : s < d) (hd : d.toNat + k ≤ 2 ^ 64) (a : U64) :
    copyAll (index d) (index s) m (List.range k) a =
      if d.toNat ≤ a.toNat ∧ a.toNat < d.toNat + k then m (index s (copied d s (a.toNat - d.toNat))) else m a := by
  rw [BitVec.lt_def] at hlt
  induction k generalizing a with
  | zero =>
    rw [if_neg (by omega)]
    rfl
  | succ k ih =>
    have hsource : copyAll (index d) (index s) m (List.range k) (index s k) = m (index s (copied d s k)) := by
      have haddr : (index s k).toNat = s.toNat + k := toNat_index (by omega)
      rw [ih (by omega), haddr]
      by_cases hbefore : k < d.toNat - s.toNat
      · rw [if_neg (by omega), copied_lt k (.inl hbefore)]
      · have hmod : k % (d.toNat - s.toNat) = (s.toNat + k - d.toNat) % (d.toNat - s.toNat) := by
          rw [show k = s.toNat + k - d.toNat + (d.toNat - s.toNat) by omega, Nat.add_mod_right]
          congr 1
          omega
        have hinside : s < d := BitVec.lt_def.mpr hlt
        rw [if_pos (by omega), copied, copied, if_pos hinside, if_pos hinside, hmod]
    have haddr : (index d k).toNat = d.toNat + k := toNat_index (by omega)
    rw [List.range_succ, copyAll_concat, hsource]
    by_cases ha : a = index d k
    · subst ha
      rw [Function.update_self, haddr, if_pos (by omega), Nat.add_sub_cancel_left]
    · have hne : a.toNat ≠ d.toNat + k := fun heq => ha (BitVec.eq_of_toNat_eq (heq.trans haddr.symm))
      rw [Function.update_of_ne ha, ih (by omega)]
      congr 1
      rw [eq_iff_iff]
      omega

theorem memcpy_copies (m : Memory) (d s n : U64) (hd : d.toNat + n.toNat ≤ 2 ^ 64)
    (hs : s.toNat + n.toNat ≤ 2 ^ 64) :
    ∃ m', (∀ fuel, n.toNat < fuel → memcpy fuel d s n m = some (m', d)) ∧
      (∀ i < n.toNat, m' (index d i) = m (index s (copied d s i))) ∧
      ∀ a, a.toNat < d.toNat ∨ d.toNat + n.toNat ≤ a.toNat → m' a = m a := by
  have hloop : ∀ fuel, n.toNat < fuel →
      memcpy fuel d s n m = some (copyAll (index d) (index s) m (List.range n.toNat), d) := by
    intro fuel hfuel
    have hzero : (0 : U64) = BitVec.ofNat 64 0 := rfl
    rw [memcpy, hzero, moveUp_eq (Nat.zero_add _) hfuel, List.range_eq_range']
    rfl
  refine ⟨_, hloop, ?_⟩
  by_cases hlt : s < d
  · constructor
    · intro i hi
      rw [copyAll_up hlt hd, toNat_index (by omega), if_pos (by omega), Nat.add_sub_cancel_left]
    · intro a ha
      rw [copyAll_up hlt hd, if_neg (by omega)]
  have hmoved : Moved m d s n (copyAll (index d) (index s) m (List.range n.toNat)) := by
    by_cases hup : d < s
    · apply Moved.of_copyAll _ (fun i => List.mem_range) hd
      rw [List.range_eq_range']
      exact inOrder_up hup hs
    · have heq : d = s := by bv_omega
      rw [heq, copyAll_self]
      exact ⟨fun _ _ => rfl, fun _ _ => rfl⟩
  refine ⟨fun i hi => ?_, hmoved.kept⟩
  rw [copied, if_neg hlt, hmoved.moved i hi]

theorem memcpy_moves_iff (m : Memory) (d s n : U64) (hd : d.toNat + n.toNat ≤ 2 ^ 64)
    (hs : s.toNat + n.toNat ≤ 2 ^ 64) :
    ∃ m', (∀ fuel, n.toNat < fuel → memcpy fuel d s n m = some (m', d)) ∧
      (Moved m d s n m' ↔ ∀ i < n.toNat, m (index s (copied d s i)) = m (index s i)) ∧
      (d ≤ s ∨ s.toNat + n.toNat ≤ d.toNat → Moved m d s n m') := by
  obtain ⟨m', hcall, hbytes, hkept⟩ := memcpy_copies m d s n hd hs
  have hmoved : Moved m d s n m' ↔ ∀ i < n.toNat, m (index s (copied d s i)) = m (index s i) := by
    constructor
    · intro h i hi
      rw [← hbytes i hi, h.moved i hi]
    · intro h
      exact ⟨fun i hi => (hbytes i hi).trans (h i hi), hkept⟩
  refine ⟨m', hcall, hmoved, fun hapart => hmoved.mpr fun i hi => ?_⟩
  obtain hbelow | habove := hapart
  · rw [copied_lt i (.inr hbelow)]
  · rw [copied_lt i (.inl (by omega))]

theorem memcpy_up_by_one :
    ∃ m', (∀ fuel, 3 < fuel → memcpy fuel 101 100 3 (fun a => a.setWidth 8) = some (m', 101)) ∧
      ¬Moved (fun a => a.setWidth 8) 101 100 3 m' := by
  obtain ⟨m', hcall, hmoved, -⟩ := memcpy_moves_iff (fun a => a.setWidth 8) 101 100 3 (by decide) (by decide)
  exact ⟨m', hcall, fun h => absurd (hmoved.mp h 1 (by decide)) (by decide)⟩

end Memory

end Mcincos
