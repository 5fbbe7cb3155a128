import Mcincos.Library.Copying
import Mcincos.Library.Words

namespace Mcincos

open Copying

abbrev Memory := U64 → BitVec 8

namespace Memory

variable {d s n : U64} {i k fuel : ℕ} {m : Memory}

/-- The loop for `d < s`; `none` is a loop that has not ended within `fuel` tests. -/
def moveUp (d s n : U64) : ℕ → U64 → Memory → Option Memory
  | 0, _, _ => none
  | fuel + 1, i, m =>
    if i < n then moveUp d s n fuel (i + 1) (Function.update m (d + i) (m (s + i))) else some m

def moveDown (d s : U64) : ℕ → U64 → Memory → Option Memory
  | 0, _, _ => none
  | fuel + 1, i, m =>
    if i ≠ 0 then moveDown d s fuel (i - 1) (Function.update m (d + (i - 1)) (m (s + (i - 1)))) else some m

def memmove (fuel : ℕ) (dst src n : U64) (m : Memory) : Option (Memory × U64) :=
  if dst < src then (moveUp dst src n fuel 0 m).map fun m => (m, dst)
  else if dst > src then (moveDown dst src fuel n m).map fun m => (m, dst)
  else some (m, dst)

def index (p : U64) (i : ℕ) : U64 := p + BitVec.ofNat 64 i

theorem toNat_index {p : U64} (h : p.toNat + i < 2 ^ 64) : (index p i).toNat = p.toNat + i := by
  rw [index, BitVec.toNat_add, BitVec.toNat_ofNat]
  omega

theorem moveUp_eq (h : i + k = n.toNat) (hfuel : k < fuel) :
    moveUp d s n fuel (BitVec.ofNat 64 i) m = some (copyAll (index d) (index s) m (List.range' i k)) := by
  induction k generalizing i m fuel with
  | zero =>
    obtain ⟨fuel, rfl⟩ := Nat.exists_eq_add_one.mpr hfuel
    have hend : ¬BitVec.ofNat 64 i < n := by bv_omega
    rw [moveUp, if_neg hend]
    rfl
  | succ k ih =>
    obtain ⟨fuel, rfl⟩ := Nat.exists_eq_add_one.mpr (Nat.zero_lt_of_lt hfuel)
    have hmore : BitVec.ofNat 64 i < n := by bv_omega
    have hnext : BitVec.ofNat 64 i + 1 = BitVec.ofNat 64 (i + 1) := (BitVec.ofNat_add i 1).symm
    rw [moveUp, if_pos hmore, hnext, ih (by omega) (by omega), List.range'_succ, copyAll_cons]
    rfl

theorem moveDown_eq (hk : k < 2 ^ 64) (hfuel : k < fuel) :
    moveDown d s fuel (BitVec.ofNat 64 k) m = some (copyAll (index d) (index s) m (List.range k).reverse) := by
  induction k generalizing m fuel with
  | zero =>
    obtain ⟨fuel, rfl⟩ := Nat.exists_eq_add_one.mpr hfuel
    rfl
  | succ k ih =>
    obtain ⟨fuel, rfl⟩ := Nat.exists_eq_add_one.mpr (Nat.zero_lt_of_lt hfuel)
    have hmore : BitVec.ofNat 64 (k + 1) ≠ 0 := by bv_omega
    have hnext : BitVec.ofNat 64 (k + 1) - 1 = BitVec.ofNat 64 k := by bv_omega
    rw [moveDown, if_pos hmore, hnext, ih (by omega) (by omega), List.range_succ, List.reverse_append]
    rfl

theorem index_ne_of_lt {p q : U64} {j : ℕ} (h : p.toNat + i < q.toNat + j) (hq : q.toNat + j < 2 ^ 64) :
    index p i ≠ index q j := by
  intro heq
  have hnat := congrArg BitVec.toNat heq
  rw [toNat_index (h.trans hq), toNat_index hq] at hnat
  exact h.ne hnat

theorem inOrder_up (hlt : d < s) (hs : s.toNat + n.toNat ≤ 2 ^ 64) :
    InOrder (index d) (index s) (List.range' 0 n.toNat) := by
  rw [BitVec.lt_def] at hlt
  have hrising := List.pairwise_lt_range' (s := 0) (n := n.toNat)
  constructor
  all_goals
    apply hrising.imp_of_mem
    intro i j _ hj hij
    rw [List.mem_range'_1] at hj
    apply index_ne_of_lt
    · omega
    · omega

theorem inOrder_down (hlt : s < d) (hd : d.toNat + n.toNat ≤ 2 ^ 64) :
    InOrder (index d) (index s) (List.range n.toNat).reverse := by
  rw [BitVec.lt_def] at hlt
  have hrising := List.pairwise_lt_range (n := n.toNat)
  constructor
  all_goals
    apply List.pairwise_reverse.mpr
    apply hrising.imp_of_mem
    intro i j _ hj hij
    rw [List.mem_range] at hj
    apply (index_ne_of_lt _ _).symm
    · omega
    · omega

structure Moved (m : Memory) (d s n : U64) (m' : Memory) : Prop where
  moved : ∀ i < n.toNat, m' (index d i) = m (index s i)
  kept : ∀ a, a.toNat < d.toNat ∨ d.toNat + n.toNat ≤ a.toNat → m' a = m a

theorem Moved.of_copyAll {is : List ℕ} (h : InOrder (index d) (index s) is) (his : ∀ i, i ∈ is ↔ i < n.toNat)
    (hd : d.toNat + n.toNat ≤ 2 ^ 64) : Moved m d s n (copyAll (index d) (index s) m is) := by
  constructor
  · intro i hi
    exact copyAll_inside h ((his i).mpr hi)
  · intro a ha
    apply copyAll_outside
    rintro i hi rfl
    have hlt := (his i).mp hi
    rw [toNat_index (by omega)] at ha
    omega

/-- The call copies the bytes as they were, however the two ranges overlap. -/
theorem memmove_moves (m : Memory) (d s n : U64) (hd : d.toNat + n.toNat ≤ 2 ^ 64)
    (hs : s.toNat + n.toNat ≤ 2 ^ 64) :
    ∃ m', (∀ fuel, n.toNat < fuel → memmove fuel d s n m = some (m', d)) ∧ Moved m d s n m' := by
  by_cases hup : d < s
  · refine ⟨_, fun fuel hfuel => ?_, .of_copyAll (inOrder_up hup hs) ?_ hd⟩
    · have hzero : (0 : U64) = BitVec.ofNat 64 0 := rfl
      rw [memmove, if_pos hup, hzero, moveUp_eq (Nat.zero_add _) hfuel]
      rfl
    · intro i
      rw [List.mem_range'_1, Nat.zero_add, and_iff_right (Nat.zero_le i)]
  by_cases hdown : s < d
  · refine ⟨_, fun fuel hfuel => ?_, .of_copyAll (inOrder_down hdown hd) ?_ hd⟩
    · have hloop := moveDown_eq (d := d) (s := s) (m := m) n.isLt hfuel
      rw [BitVec.ofNat_toNat, BitVec.setWidth_eq] at hloop
      rw [memmove, if_neg hup, if_pos hdown, hloop]
      rfl
    · intro i
      rw [List.mem_reverse, List.mem_range]
  · have heq : d = s := by bv_omega
    refine ⟨m, fun fuel _ => ?_, fun i _ => ?_, fun a _ => rfl⟩
    · rw [memmove, if_neg hup, if_neg hdown]
    · rw [heq]

theorem memmove_moves_by_one :
    (∃ m', (∀ fuel, 3 < fuel → memmove fuel 101 100 3 (fun a => a.setWidth 8) = some (m', 101)) ∧
      Moved (fun a => a.setWidth 8) 101 100 3 m') ∧
    ∃ m', (∀ fuel, 3 < fuel → memmove fuel 100 101 3 (fun a => a.setWidth 8) = some (m', 100)) ∧
      Moved (fun a => a.setWidth 8) 100 101 3 m' :=
  ⟨memmove_moves _ 101 100 3 (by decide) (by decide), memmove_moves _ 100 101 3 (by decide) (by decide)⟩

end Memory

end Mcincos
