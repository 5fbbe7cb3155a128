import Mcincos.Library.Dump
import Mcincos.Syscall.Entry
import Mcincos.Vmm.Bytes
import Mcincos.Vmm.Leaves

namespace Mcincos

open Dump

def cString (text : String) : List (BitVec 8) := text.toList.map (fun c => BitVec.ofNat 8 c.toNat) ++ [0]

def kprint (s : List (BitVec 8)) : List (BitVec 8) := s.takeWhile (· ≠ 0)

def hexDigit (v : BitVec 32) : BitVec 8 := (if v < 10 then 48 + v else 97 + (v - 10)).setWidth 8

def kprintHexU64 (v : U64) : List (BitVec 8) :=
  kprint (cString "0x") ++ (List.range 16).reverse.flatMap fun i =>
    kprint [hexDigit ((v >>> (i * 4) &&& 0xf).setWidth 32), 0]

def panic (msg : List (BitVec 8)) : List (BitVec 8) :=
  kprint (cString "\n[PANIC] ") ++ kprint msg ++ kprint (cString "\n")

def excName (vec : U64) : List (BitVec 8) :=
  if vec = 0 then cString "#DE Divide Error"
  else if vec = 6 then cString "#UD Invalid Opcode"
  else if vec = 13 then cString "#GP General Protection"
  else if vec = 14 then cString "#PF Page Fault"
  else cString "CPU Exception"

def isrCommonHandler (vector error rip cr2 : U64) : List (BitVec 8) :=
  kprint (cString "\n[EXC] ") ++ kprint (excName vector) ++
    kprint (cString " vec=") ++ kprintHexU64 vector ++
    kprint (cString " err=") ++ kprintHexU64 error ++
    kprint (cString " rip=") ++ kprintHexU64 rip ++
    (if vector = 14 then kprint (cString " cr2=") ++ kprintHexU64 cr2 else []) ++
    panic (cString "unhandled exception")

/-- How a read in the kernel fails: at an address with no page, or at none of either half. -/
inductive ReadFault
  | pageFault (cr2 : U64)
  | generalProtection
  deriving DecidableEq

def ReadFault.print (rip : U64) : ReadFault → List (BitVec 8)
  | pageFault cr2 => isrCommonHandler 14 0 rip cr2
  | generalProtection => isrCommonHandler 13 0 rip 0

namespace Vm

def translate (s : Vm) (va : U64) : Option U64 :=
  if Canonical va then (cpuWalk s.ram s.cr3 va).physical va else none

def readByte (s : Vm) (va : U64) : Except ReadFault (BitVec 8) :=
  match s.translate va with
  | some phys => .ok (s.loadPhys phys)
  | none => if Canonical va then .error (.pageFault va) else .error .generalProtection

end Vm

inductive SyscallEnd
  | returned (rc : U64)
  | halted
  deriving DecidableEq

def sysDebugWrite : U64 := 0
def sysExit : U64 := 1

def debugWrite (s : Vm) (a1 len : U64) : List (BitVec 8) × Option ReadFault :=
  dump (fun i => s.readByte (a1 + BitVec.ofNat 64 i)) (fun c => kprint [c, 0]) len.toNat

/-- The console output and the end of a call; `rip` is the address of the load `s[i]`. -/
def syscallDispatch (s : Vm) (rip num a1 a2 _a3 _a4 _a5 _a6 : U64) : List (BitVec 8) × SyscallEnd :=
  if num = sysDebugWrite then
    match debugWrite s a1 a2 with
    | (out, none) => (out, .returned a2)
    | (out, some fault) => (out ++ fault.print rip, .halted)
  else if num = sysExit then (kprint (cString "\n[user] exit()\n"), .halted)
  else (kprint (cString "\n[syscall] unknown\n"), .returned (-1))

def Vm.UserVisible (s : Vm) (p : U64) : Prop :=
  (∃ va < userEnd, s.translate va = some p) ∨ ∃ k, CpuTable s.ram s.cr3 k (frameOf p)

structure UserAgree (s s' : Vm) : Prop where
  cr3 : s'.cr3 = s.cr3
  tables : ∀ k f, CpuTable s.ram s.cr3 k f → s'.ram.word f = s.ram.word f
  user : ∀ va < userEnd, s'.readByte va = s.readByte va

def Confined (s : Vm) (a1 len : U64) : Prop :=
  ∀ i < len.toNat, (∀ j < i, (s.translate (a1 + BitVec.ofNat 64 j)).isSome) →
    ∀ p, s.translate (a1 + BitVec.ofNat 64 i) = some p → s.UserVisible p

variable {s s' : Vm} {va p : U64}

theorem cpuWalk_tables {ram ram' : Ram} {cr3 : U64}
    (h : ∀ k f, CpuTable ram cr3 k f → ram'.word f = ram.word f) :
    cpuWalk ram' cr3 va = cpuWalk ram cr3 va := by
  have hload {k : ℕ} {table : U64} (ht : CpuTable ram cr3 k (frameOf table)) (i : BitVec 9) :
      ram'.load table i = ram.load table i := congrFun (h k _ ht) i
  have hnext {k : ℕ} {table : U64} {i : BitVec 9} (ht : CpuTable ram cr3 k (frameOf table)) (hk : k < 3)
      (hp : ¬ram.load table i &&& pteP = 0) (hps : ¬(0 < k ∧ ram.load table i &&& ptePS ≠ 0)) :
      CpuTable ram cr3 (k + 1) (frameOf (cpuAddr (ram.load table i))) :=
    .next ht hk ((if_neg hp).trans (if_neg hps))
  have h4 : CpuTable ram cr3 0 (frameOf (cpuAddr cr3)) := .root
  simp only [cpuWalk, hload h4]
  by_cases hp4 : ram.load (cpuAddr cr3) (Vm.idxPml4 va) &&& pteP = 0
  · simp only [if_pos hp4]
  have h3 := hnext h4 (by decide) hp4 (by simp)
  simp only [if_neg hp4, hload h3]
  generalize ram.load (cpuAddr cr3) (Vm.idxPml4 va) = e4 at h3 ⊢
  by_cases hp3 : ram.load (cpuAddr e4) (Vm.idxPdpt va) &&& pteP = 0
  · simp only [if_pos hp3]
  by_cases hps3 : ram.load (cpuAddr e4) (Vm.idxPdpt va) &&& ptePS ≠ 0
  · simp only [if_neg hp3, if_pos hps3]
  have h2 := hnext h3 (by decide) hp3 (fun hc => hps3 hc.2)
  simp only [if_neg hp3, if_neg hps3, hload h2]
  generalize ram.load (cpuAddr e4) (Vm.idxPdpt va) = e3 at h2 ⊢
  by_cases hp2 : ram.load (cpuAddr e3) (Vm.idxPd va) &&& pteP = 0
  · simp only [if_pos hp2]
  by_cases hps2 : ram.load (cpuAddr e3) (Vm.idxPd va) &&& ptePS ≠ 0
  · simp only [if_neg hp2, if_pos hps2]
  have h1 := hnext h2 (by decide) hp2 (fun hc => hps2 hc.2)
  simp only [if_neg hp2, if_neg hps2, hload h1]

theorem translate_congr (hcr3 : s'.cr3 = s.cr3)
    (h : ∀ k f, CpuTable s.ram s.cr3 k f → s'.ram.word f = s.ram.word f) (va : U64) :
    s'.translate va = s.translate va := by
  rw [Vm.translate, Vm.translate, hcr3, cpuWalk_tables h]

theorem UserAgree.translate_eq (h : UserAgree s s') (va : U64) : s'.translate va = s.translate va :=
  translate_congr h.cr3 h.tables va

theorem readByte_some (h : s.translate va = some p) : s.readByte va = .ok (s.loadPhys p) := by
  rw [Vm.readByte, h]

theorem readByte_none (h : s.translate va = none) : s.readByte va =
    if Canonical va then .error (.pageFault va) else .error .generalProtection := by
  rw [Vm.readByte, h]

theorem readByte_ok {b : BitVec 8} (h : s.readByte va = .ok b) :
    ∃ p, s.translate va = some p ∧ s.loadPhys p = b := by
  cases htr : s.translate va with
  | some p => exact ⟨p, rfl, Except.ok.inj ((readByte_some htr).symm.trans h)⟩
  | none =>
    rw [readByte_none htr] at h
    split_ifs at h

theorem UserAgree.loadPhys_eq (h : UserAgree s s') (hp : s.UserVisible p) :
    s'.loadPhys p = s.loadPhys p := by
  obtain ⟨va, hva, htr⟩ | ⟨k, ht⟩ := hp
  · have hread := h.user va hva
    rw [readByte_some htr, readByte_some ((h.translate_eq va).trans htr)] at hread
    exact Except.ok.inj hread
  · rw [Vm.loadPhys, Vm.loadPhys, Vm.load, Vm.load, Ram.load, Ram.load, h.tables k _ ht]

theorem UserAgree.readByte_eq (h : UserAgree s s') (hp : ∀ p, s.translate va = some p → s.UserVisible p) :
    s'.readByte va = s.readByte va := by
  have htr := h.translate_eq va
  cases hs : s.translate va with
  | none => rw [readByte_none hs, readByte_none (htr.trans hs)]
  | some p => rw [readByte_some hs, readByte_some (htr.trans hs), h.loadPhys_eq (hp p hs)]

theorem UserAgree.debugWrite_eq (h : UserAgree s s') {a1 len : U64} (hc : Confined s a1 len) :
    debugWrite s' a1 len = debugWrite s a1 len := by
  apply dump_congr
  intro i hi hreached
  apply h.readByte_eq
  apply hc i hi
  intro j hj
  obtain ⟨b, hb⟩ := hreached j hj
  obtain ⟨q, hq, -⟩ := readByte_ok hb
  exact Option.isSome_iff_exists.mpr ⟨q, hq⟩

theorem storePhys_userAgree (hp : ¬s.UserVisible p) (b : BitVec 8) : UserAgree s (s.storePhys p b) := by
  have htables : ∀ k f, CpuTable s.ram s.cr3 k f → (s.storePhys p b).ram.word f = s.ram.word f := by
    intro k f hf
    funext j
    rw [Vm.storePhys, Vm.store_word, if_neg]
    rintro ⟨rfl, -⟩
    exact hp (.inr ⟨k, hf⟩)
  have hcr3 : (s.storePhys p b).cr3 = s.cr3 := rfl
  refine ⟨hcr3, htables, fun va hva => ?_⟩
  have htr : (s.storePhys p b).translate va = s.translate va := translate_congr hcr3 htables va
  cases hs : s.translate va with
  | none => rw [readByte_none hs, readByte_none (htr.trans hs)]
  | some q =>
    have hne : q ≠ p := by
      rintro rfl
      exact hp (.inl ⟨va, hva, hs⟩)
    rw [readByte_some hs, readByte_some (htr.trans hs), Vm.loadPhys_storePhys, if_neg hne]

structure Zeroed (p : U64) (s s' : Vm) : Prop where
  translate : ∀ va, s'.translate va = s.translate va
  other : ∀ q ≠ p, s'.loadPhys q = s.loadPhys q
  zero : s.loadPhys p = 0
  nonzero : s'.loadPhys p ≠ 0

theorem kprint_zero : kprint [0, 0] = [] := rfl

theorem kprint_nonzero {b : BitVec 8} (h : b ≠ 0) : kprint [b, 0] = [b] :=
  List.takeWhile_cons_of_pos (p := fun x => decide (x ≠ 0)) (decide_eq_true h)

theorem Zeroed.longer (h : Zeroed p s s') (a1 : U64) : Longer (fun c => kprint [c, 0])
    (fun i => s.readByte (a1 + BitVec.ofNat 64 i)) fun i => s'.readByte (a1 + BitVec.ofNat 64 i) := by
  constructor
  · intro i e he
    cases htr : s.translate (a1 + BitVec.ofNat 64 i) with
    | none => rw [readByte_none ((h.translate _).trans htr), ← readByte_none htr, he]
    | some q =>
      rw [readByte_some htr] at he
      exact absurd he (by simp)
  · intro i b hb
    obtain ⟨q, hq, rfl⟩ := readByte_ok hb
    refine ⟨_, readByte_some ((h.translate _).trans hq), ?_⟩
    by_cases hqp : q = p
    · rw [hqp, h.zero, kprint_zero]
      exact Nat.zero_le _
    · rw [h.other q hqp]

theorem Zeroed.debugWrite_lt (h : Zeroed p s s') {a1 len : U64} {i : ℕ} (hi : i < len.toNat)
    (hreached : ∀ j < i, (s.translate (a1 + BitVec.ofNat 64 j)).isSome)
    (hp : s.translate (a1 + BitVec.ofNat 64 i) = some p) :
    (debugWrite s a1 len).1.length < (debugWrite s' a1 len).1.length ∧
      (debugWrite s' a1 len).2 = (debugWrite s a1 len).2 := by
  refine ⟨?_, (h.longer a1).dump_le.2⟩
  apply (h.longer a1).dump_lt hi _ (readByte_some hp) (readByte_some ((h.translate _).trans hp))
  · rw [h.zero, kprint_zero, kprint_nonzero h.nonzero]
    exact Nat.zero_lt_one
  · intro j hj
    obtain ⟨q, hq⟩ := Option.isSome_iff_exists.mp (hreached j hj)
    exact ⟨_, readByte_some hq⟩

def afterLoop (rip : U64) : Option ReadFault → List (BitVec 8)
  | none => []
  | some fault => fault.print rip

theorem syscallDispatch_console (s : Vm) (rip a1 a2 a3 a4 a5 a6 : U64) :
    (syscallDispatch s rip sysDebugWrite a1 a2 a3 a4 a5 a6).1 =
      (debugWrite s a1 a2).1 ++ afterLoop rip (debugWrite s a1 a2).2 := by
  rw [syscallDispatch, if_pos rfl]
  obtain ⟨out, _ | fault⟩ := debugWrite s a1 a2
  · exact (List.append_nil out).symm
  · rfl

theorem Zeroed.syscallDispatch_ne (h : Zeroed p s s') {a1 a2 : U64} {i : ℕ} (hi : i < a2.toNat)
    (hreached : ∀ j < i, (s.translate (a1 + BitVec.ofNat 64 j)).isSome)
    (hp : s.translate (a1 + BitVec.ofNat 64 i) = some p) (rip a3 a4 a5 a6 : U64) :
    syscallDispatch s' rip sysDebugWrite a1 a2 a3 a4 a5 a6 ≠
      syscallDispatch s rip sysDebugWrite a1 a2 a3 a4 a5 a6 := by
  intro he
  obtain ⟨hlt, hfault⟩ := h.debugWrite_lt hi hreached hp
  have hconsole := congrArg (fun o => o.1.length) he
  simp only [syscallDispatch_console, List.length_append, hfault] at hconsole
  omega

theorem zeroed_of_zero (hp : ¬s.UserVisible p) (hzero : s.loadPhys p = 0) :
    Zeroed p s (s.storePhys p 1) := by
  constructor
  · exact (storePhys_userAgree hp 1).translate_eq
  · exact fun q hq => (s.loadPhys_storePhys p q 1).trans (if_neg hq)
  · exact hzero
  · rw [s.loadPhys_storePhys, if_pos rfl]
    decide

theorem zeroed_of_nonzero (hp : ¬s.UserVisible p) (hnonzero : s.loadPhys p ≠ 0) :
    Zeroed p (s.storePhys p 0) s := by
  constructor
  · exact fun va => ((storePhys_userAgree hp 0).translate_eq va).symm
  · exact fun q hq => ((s.loadPhys_storePhys p q 0).trans (if_neg hq)).symm
  · exact (s.loadPhys_storePhys p p 0).trans (if_pos rfl)
  · exact hnonzero

/-- The call tells the user nothing of the kernel's memory just if all that its loop reads, up to
the first fault, is seen in the user half or belongs to the page tables. -/
theorem debug_write_discloses (s : Vm) (rip a1 a2 a3 a4 a5 a6 : U64) :
    (∀ s', UserAgree s s' → syscallDispatch s' rip sysDebugWrite a1 a2 a3 a4 a5 a6 =
      syscallDispatch s rip sysDebugWrite a1 a2 a3 a4 a5 a6) ↔ Confined s a1 a2 := by
  constructor
  · intro h i hi hreached p hp
    by_contra hvisible
    by_cases hzero : s.loadPhys p = 0
    · exact (zeroed_of_zero hvisible hzero).syscallDispatch_ne hi hreached hp rip a3 a4 a5 a6
        (h _ (storePhys_userAgree hvisible 1))
    · have hz := zeroed_of_nonzero hvisible hzero
      apply hz.syscallDispatch_ne hi _ ((hz.translate _).symm.trans hp) rip a3 a4 a5 a6
      · exact (h _ (storePhys_userAgree hvisible 0)).symm
      · intro j hj
        rw [← hz.translate]
        exact hreached j hj
  · intro hc s' h
    rw [syscallDispatch, syscallDispatch, h.debugWrite_eq hc]

theorem CpuTable.at {r : ℕ} (hs : s.Inv {r}) (hr : frameOf s.cr3 = r) {k f : ℕ}
    (h : CpuTable s.ram s.cr3 k f) : pageTables.At {r} s.ram.word k f := by
  induction h with
  | root =>
    apply Radix.Shape.At.root
    rw [frameOf_cpuAddr (hs.root_lt (hr ▸ rfl)), hr]
    rfl
  | next _ hk hnext ih =>
    rw [cpuNext] at hnext
    split_ifs at hnext with hp hps
    obtain rfl := Option.some.inj hnext
    exact (hs.link ih hk hp).2.2

theorem not_userVisible {r : ℕ} (hs : s.Inv {r}) (hr : frameOf s.cr3 = r) (hfree : s.pmm.Free (frameOf p))
    (hempty : ∀ va < userEnd, leafAt s r va = none) : ¬s.UserVisible p := by
  rintro (⟨va, hva, htr⟩ | ⟨k, ht⟩)
  · have hfault := (cpuWalk_fault_iff hs hr).mpr (hempty va hva)
    rw [Vm.translate, if_pos (.inl hva), hfault] at htr
    exact absurd htr (by simp [CpuWalk.physical])
  · exact hs.used k _ (ht.at hs hr) hfree

def kernelPage : U64 := 0xffff800000007000

def kernelPageVm : Vm := (bareVm.vmmMapPage kernelPage 0x7000 pteW).1

theorem kernelPageVm_leafAt : kernelPageVm.Inv {1} ∧ ∀ va < userEnd, leafAt kernelPageVm 1 va = none := by
  have hrc : (bareVm.vmmMapPage kernelPage 0x7000 pteW).2 = 0 := by decide +kernel
  have hcall : bareVm.vmmMapPage kernelPage 0x7000 pteW = (kernelPageVm, 0) := by
    rw [← hrc]
    exact Prod.mk.eta.symm
  obtain ⟨hgrows, hleaf⟩ := vmmMapPage_leafAt bareVm_inv (by decide) hcall
  refine ⟨hgrows.inv, fun va hva => ?_⟩
  have hpage : pageOf va ≠ pageOf kernelPage := by
    intro he
    have hnat := congrArg BitVec.toNat he
    have hlt : va.toNat < userEnd.toNat := BitVec.lt_def.mp hva
    have hend : userEnd.toNat = 2 ^ 47 := rfl
    rw [toNat_pageOf, toNat_pageOf, show kernelPage.toNat = 0xffff800000007000 from rfl] at hnat
    omega
  rw [hleaf, if_neg hpage, leafAt, get_of_empty fun _ => BitVec.zero_and]

theorem debug_write_kernel_byte : ¬∀ s s' : Vm, UserAgree s s' → ∀ rip a1 a2 a3 a4 a5 a6 : U64,
    syscallDispatch s' rip sysDebugWrite a1 a2 a3 a4 a5 a6 =
      syscallDispatch s rip sysDebugWrite a1 a2 a3 a4 a5 a6 := by
  intro h
  obtain ⟨hs, hempty⟩ := kernelPageVm_leafAt
  have hhidden : ¬kernelPageVm.UserVisible 0x7000 :=
    not_userVisible hs (by decide +kernel) (by decide +kernel) hempty
  have hzeroed := zeroed_of_zero hhidden (by decide +kernel)
  have htr : kernelPageVm.translate (kernelPage + BitVec.ofNat 64 0) = some 0x7000 := by decide +kernel
  apply hzeroed.syscallDispatch_ne (show 0 < (1#64).toNat by decide) (by simp) htr 0 0 0 0 0
  exact h _ _ (storePhys_userAgree hhidden 1) 0 kernelPage 1 0 0 0 0

end Mcincos
