import Mcincos.Pmm.Init

namespace Mcincos

def pteP : U64 := 1#64 <<< 0
def pteW : U64 := 1#64 <<< 1
def pteU : U64 := 1#64 <<< 2
def ptePWT : U64 := 1#64 <<< 3
def ptePCD : U64 := 1#64 <<< 4
def ptePS : U64 := 1#64 <<< 7
def pteG : U64 := 1#64 <<< 8
def pteNX : U64 := 1#64 <<< 63

def frameOf (phys : U64) : ℕ := phys.toNat / 4096

/-- Physical memory as frames of 512 words, with a trace of the words stored to, latest first.
In the direct map `pt_virt(p)[i]` is word `i` of the frame of `p`; outside of it the access faults,
as it does in the calls with `Virt` behind their names. -/
structure Ram where
  word : ℕ → BitVec 9 → U64
  stores : List (ℕ × BitVec 9)

namespace Ram

def load (r : Ram) (ptPhys : U64) (i : BitVec 9) : U64 := r.word (frameOf ptPhys) i

def store (r : Ram) (ptPhys : U64) (i : BitVec 9) (e : U64) : Ram where
  word := fun f j => if f = frameOf ptPhys ∧ j = i then e else r.word f j
  stores := (frameOf ptPhys, i) :: r.stores

end Ram

/-- `cr3` is the register, `gKernelCr3Phys` the static variable of vmm.c. -/
structure Vm where
  ram : Ram
  pmm : Pmm
  cr3 : U64
  gKernelCr3Phys : U64

structure VmmSpace where
  pml4Phys : U64
  deriving DecidableEq

namespace Vm

def alignDown (x : U64) : U64 := x &&& ~~~(pageSize - 1)

def tableOf (e : U64) : U64 := e &&& ~~~0xfff#64

def idxPml4 (va : U64) : BitVec 9 := (va >>> 39).setWidth 9
def idxPdpt (va : U64) : BitVec 9 := (va >>> 30).setWidth 9
def idxPd (va : U64) : BitVec 9 := (va >>> 21).setWidth 9
def idxPt (va : U64) : BitVec 9 := (va >>> 12).setWidth 9

def load (s : Vm) (ptPhys : U64) (i : BitVec 9) : U64 := s.ram.load ptPhys i
def store (s : Vm) (ptPhys : U64) (i : BitVec 9) (e : U64) : Vm :=
  { s with ram := s.ram.store ptPhys i e }

def zeroPage (s : Vm) (phys : U64) : Vm :=
  (List.range 512).foldl (fun s i => s.store phys (BitVec.ofNat 9 i) 0) s

def allocPtPagePhys (s : Vm) : Vm × U64 :=
  let (pmm, p) := s.pmm.pmmAllocPages 1
  let s := { s with pmm }
  if p = 0 then (s, 0) else (s.zeroPage p, p)

/-- One of the three levels of `ensure_pt`: the table behind entry `i`, made if it is missing;
`none` where `ensure_pt` returns 0. -/
def ensureEntry (s : Vm) (tablePhys : U64) (i : BitVec 9) (flags : U64) : Vm × Option U64 :=
  if s.load tablePhys i &&& pteP = 0 then
    let (s, new) := s.allocPtPagePhys
    if new = 0 then (s, none)
    else
      let s := s.store tablePhys i (new ||| pteP ||| pteW ||| (flags &&& pteU))
      (s, some (tableOf (s.load tablePhys i)))
  else (s, some (tableOf (s.load tablePhys i)))

def ensurePt (s : Vm) (pml4Phys va flags : U64) : Vm × U64 :=
  match s.ensureEntry pml4Phys (idxPml4 va) flags with
  | (s, none) => (s, 0)
  | (s, some pdptPhys) =>
    match s.ensureEntry pdptPhys (idxPdpt va) flags with
    | (s, none) => (s, 0)
    | (s, some pdPhys) =>
      match s.ensureEntry pdPhys (idxPd va) flags with
      | (s, none) => (s, 0)
      | (s, some ptPhys) => (s, ptPhys)

def mapPage (s : Vm) (cr3Phys virt phys flags : U64) : Vm × Int :=
  let virt := alignDown virt
  let phys := alignDown phys
  let (s, ptPhys) := s.ensurePt cr3Phys virt flags
  if ptPhys = 0 then (s, -1)
  else
    let i1 := idxPt virt
    let s := s.store ptPhys i1 (phys &&& ~~~0xfff#64 ||| (flags &&& ~~~pteNX) ||| pteP)
    if flags &&& pteNX = 0 then (s, 0)
    else (s.store ptPhys i1 (s.load ptPhys i1 ||| pteNX), 0)

def vmmMapPageCr3 (s : Vm) (cr3Phys virt phys flags : U64) : Vm × Int :=
  s.mapPage cr3Phys virt phys (flags &&& ~~~(ptePCD ||| ptePWT))

def vmmUnmapPageCr3 (s : Vm) (cr3Phys virt : U64) : Vm × Int :=
  let virt := alignDown virt
  let e4 := s.load cr3Phys (idxPml4 virt)
  if e4 &&& pteP = 0 then (s, -1)
  else
    let e3 := s.load (tableOf e4) (idxPdpt virt)
    if e3 &&& pteP = 0 then (s, -1)
    else
      let e2 := s.load (tableOf e3) (idxPd virt)
      if e2 &&& pteP = 0 then (s, -1)
      else (s.store (tableOf e2) (idxPt virt) 0, 0)

def vmmMapPage (s : Vm) (virt phys flags : U64) : Vm × Int :=
  s.vmmMapPageCr3 (s.cr3 &&& ~~~0xfff#64) virt phys flags

def vmmUnmapPage (s : Vm) (virt : U64) : Vm × Int :=
  s.vmmUnmapPageCr3 (s.cr3 &&& ~~~0xfff#64) virt

def inSpace (s : Vm) (space : VmmSpace) (call : Vm → Vm × Int) : Vm × Int :=
  if space.pml4Phys = 0 then (s, -1)
  else
    let old := s.cr3 &&& ~~~0xfff#64
    let (s, rc) := call { s with cr3 := space.pml4Phys }
    ({ s with cr3 := old }, rc)

def vmmMapPageSpace (s : Vm) (space : VmmSpace) (virt phys flags : U64) : Vm × Int :=
  s.inSpace space fun s => s.vmmMapPageCr3 space.pml4Phys virt phys flags

def vmmUnmapPageSpace (s : Vm) (space : VmmSpace) (virt : U64) : Vm × Int :=
  s.inSpace space fun s => s.vmmUnmapPageCr3 space.pml4Phys virt

def vmmMapPageMmio (s : Vm) (virt phys flags : U64) : Vm × Int :=
  s.mapPage (s.cr3 &&& ~~~0xfff#64) virt phys flags

def vmmInit (s : Vm) : Vm := { s with gKernelCr3Phys := s.cr3 &&& ~~~0xfff#64 }

def copyKernelHalf (s : Vm) (src dst : U64) : Vm :=
  (List.range' 256 256).foldl
    (fun s i => s.store dst (BitVec.ofNat 9 i) (s.load src (BitVec.ofNat 9 i))) s

def vmmCreateSpace (s : Vm) : Vm × VmmSpace :=
  let (s, newPml4) := s.allocPtPagePhys
  if newPml4 = 0 then (s, ⟨0⟩) else (s.copyKernelHalf s.gKernelCr3Phys newPml4, ⟨newPml4⟩)

def vmmSwitchSpace (s : Vm) (space : VmmSpace) : Vm :=
  if space.pml4Phys = 0 then s else { s with cr3 := space.pml4Phys }

end Vm

end Mcincos
