import Mcincos.Syscall.DebugWrite

namespace Mcincos

open Dump

variable {s : Vm} {a1 : U64} {bs : List (BitVec 8)}

/-- `bs` are the bytes from the user address `a1` on, all of which can be read. -/
structure UserBuffer (s : Vm) (a1 : U64) (bs : List (BitVec 8)) : Prop where
  user : ∀ i < bs.length, a1.toNat + i < userEnd.toNat
  bytes : ∀ i (_ : i < bs.length), s.readByte (a1 + BitVec.ofNat 64 i) = .ok bs[i]

theorem flatMap_kprint (bs : List (BitVec 8)) :
    bs.flatMap (fun c => kprint [c, 0]) = bs.filter (· ≠ 0) := by
  induction bs with
  | nil => rfl
  | cons c bs ih =>
    rw [List.flatMap_cons, ih]
    by_cases hc : c = 0
    · subst hc
      rfl
    · rw [kprint_nonzero hc, List.filter_cons_of_pos (by simpa using hc)]
      rfl

theorem UserBuffer.prints (h : UserBuffer s a1 bs) {a2 : U64} (hlength : bs.length = a2.toNat)
    (rip a3 a4 a5 a6 : U64) : syscallDispatch s rip sysDebugWrite a1 a2 a3 a4 a5 a6 =
      (bs.filter (· ≠ 0), .returned a2) := by
  have hloop : debugWrite s a1 a2 = (bs.filter (· ≠ 0), none) := by
    rw [debugWrite, ← hlength, dump_ok h.bytes, flatMap_kprint]
  rw [syscallDispatch, if_pos rfl, hloop]

/-- The buffer is printed as it is just if no byte of it is 0. -/
theorem debug_write_whole (h : UserBuffer s a1 bs) {a2 : U64} (hlength : bs.length = a2.toNat)
    (rip a3 a4 a5 a6 : U64) : syscallDispatch s rip sysDebugWrite a1 a2 a3 a4 a5 a6 =
      (bs, .returned a2) ↔ ∀ c ∈ bs, c ≠ 0 := by
  rw [h.prints hlength, Prod.mk.injEq, and_iff_left rfl, List.filter_eq_self]
  simp only [decide_eq_true_eq]

def userPageVm : Vm := ((bareVm.vmmMapPage 0x400000 0x7000 pteU).1).storePhys 0x7000 0x41

theorem userPageVm_reads : userPageVm.readByte 0x400000 = .ok 0x41 ∧ userPageVm.readByte 0x400001 = .ok 0 := by
  decide +kernel

theorem userPageVm_buffer {n : ℕ} (hn : n ≤ 2) : UserBuffer userPageVm 0x400000 ([0x41, 0].take n) := by
  obtain ⟨hfirst, hsecond⟩ := userPageVm_reads
  constructor
  · intro i hi
    rw [List.length_take, List.length_cons, List.length_singleton] at hi
    have hstart : (0x400000 : U64).toNat = 0x400000 := rfl
    have hend : userEnd.toNat = 2 ^ 47 := rfl
    omega
  · intro i hi
    rw [List.length_take, List.length_cons, List.length_singleton] at hi
    rw [List.getElem_take]
    match i, hi with
    | 0, _ => exact hfirst
    | 1, _ => exact hsecond
    | i + 2, hi => omega

theorem debug_write_whole_userPageVm : syscallDispatch userPageVm 0 sysDebugWrite 0x400000 1 0 0 0 0 =
    ([0x41], .returned 1) :=
  (debug_write_whole (userPageVm_buffer (n := 1) (by decide)) rfl 0 0 0 0 0).mpr (by decide)

theorem debug_write_drops_zero : UserBuffer userPageVm 0x400000 [0x41, 0] ∧
    syscallDispatch userPageVm 0 sysDebugWrite 0x400000 2 0 0 0 0 = ([0x41], .returned 2) ∧
    syscallDispatch userPageVm 0 sysDebugWrite 0x400000 2 0 0 0 0 ≠ ([0x41, 0], .returned 2) := by
  have hbuffer : UserBuffer userPageVm 0x400000 [0x41, 0] := userPageVm_buffer (n := 2) (by decide)
  have hlength : [0x41#8, 0].length = (2 : U64).toNat := rfl
  have hprints := hbuffer.prints hlength 0 0 0 0 0
  refine ⟨hbuffer, hprints, ?_⟩
  rw [hprints]
  decide

end Mcincos
