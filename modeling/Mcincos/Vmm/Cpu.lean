import Mcincos.Vmm.Vmm

namespace Mcincos

open Vm

/-- Bits 12 to 51, where the processor looks for the address in an entry and in `cr3`. -/
def cpuAddr (e : U64) : U64 := e &&& 0x000ffffffffff000#64

inductive CpuWalk
  | fault
  | page1g (e4 e3 : U64)
  | page2m (e4 e3 e2 : U64)
  | page4k (e4 e3 e2 e1 : U64)
  deriving DecidableEq

/-- The processor's walk, by the architecture and not by vmm.c. -/
def cpuWalk (r : Ram) (cr3 va : U64) : CpuWalk :=
  let e4 := r.load (cpuAddr cr3) (idxPml4 va)
  if e4 &&& pteP = 0 then .fault
  else
    let e3 := r.load (cpuAddr e4) (idxPdpt va)
    if e3 &&& pteP = 0 then .fault
    else if e3 &&& ptePS ≠ 0 then .page1g e4 e3
    else
      let e2 := r.load (cpuAddr e3) (idxPd va)
      if e2 &&& pteP = 0 then .fault
      else if e2 &&& ptePS ≠ 0 then .page2m e4 e3 e2
      else
        let e1 := r.load (cpuAddr e2) (idxPt va)
        if e1 &&& pteP = 0 then .fault else .page4k e4 e3 e2 e1

def cpuNext (k : ℕ) (e : U64) : Option ℕ :=
  if e &&& pteP = 0 then none
  else if 0 < k ∧ e &&& ptePS ≠ 0 then none
  else some (frameOf (cpuAddr e))

def cpuDescend (r : Ram) : ℕ → ℕ → List (BitVec 9) → Option ℕ
  | _, a, [] => some a
  | k, a, i :: is => (cpuNext k (r.word a i)).bind fun b => cpuDescend r (k + 1) b is

def cpuPt (r : Ram) (cr3 va : U64) : Option ℕ :=
  cpuDescend r 0 (frameOf (cpuAddr cr3)) [idxPml4 va, idxPdpt va, idxPd va]

inductive CpuTable (r : Ram) (cr3 : U64) : ℕ → ℕ → Prop
  | root : CpuTable r cr3 0 (frameOf (cpuAddr cr3))
  | next {k a b : ℕ} {i : BitVec 9} :
      CpuTable r cr3 k a → k < 3 → cpuNext k (r.word a i) = some b → CpuTable r cr3 (k + 1) b

namespace CpuWalk

def entries : CpuWalk → List U64
  | fault => []
  | page1g e4 e3 => [e4, e3]
  | page2m e4 e3 e2 => [e4, e3, e2]
  | page4k e4 e3 e2 e1 => [e4, e3, e2, e1]

def physical (va : U64) : CpuWalk → Option U64
  | fault => none
  | page1g _ e3 => some (e3 &&& 0x000fffffc0000000#64 ||| va &&& 0x3fffffff#64)
  | page2m _ _ e2 => some (e2 &&& 0x000fffffffe00000#64 ||| va &&& 0x1fffff#64)
  | page4k _ _ _ e1 => some (cpuAddr e1 ||| va &&& 0xfff#64)

def leaf (w : CpuWalk) : Option U64 := w.entries.getLast?

def user (w : CpuWalk) : Bool := w.entries.all fun e => e &&& pteU != 0
def write (w : CpuWalk) : Bool := w.entries.all fun e => e &&& pteW != 0
def noExecute (w : CpuWalk) : Bool := w.entries.any fun e => e &&& pteNX != 0

end CpuWalk

end Mcincos
