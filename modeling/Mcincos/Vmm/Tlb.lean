import Mcincos.Library.Caching
import Mcincos.Vmm.System

namespace Mcincos

open Words Radix Relation

def CpuWalk.global (w : CpuWalk) : Bool := w.leaf.any fun e => e &&& pteG != 0

structure Tlb where
  pages : List (BitVec 36 × CpuWalk)
  uppers : List (List (BitVec 9) × List U64)

def cpuWalkPt (r : Ram) (va e4 e3 e2 : U64) : CpuWalk :=
  let e1 := r.load (cpuAddr e2) (Vm.idxPt va)
  if e1 &&& pteP = 0 then .fault else .page4k e4 e3 e2 e1

def cpuWalkPd (r : Ram) (va e4 e3 : U64) : CpuWalk :=
  let e2 := r.load (cpuAddr e3) (Vm.idxPd va)
  if e2 &&& pteP = 0 then .fault
  else if e2 &&& ptePS ≠ 0 then .page2m e4 e3 e2
  else cpuWalkPt r va e4 e3 e2

def cpuWalkPdpt (r : Ram) (va e4 : U64) : CpuWalk :=
  let e3 := r.load (cpuAddr e4) (Vm.idxPdpt va)
  if e3 &&& pteP = 0 then .fault
  else if e3 &&& ptePS ≠ 0 then .page1g e4 e3
  else cpuWalkPd r va e4 e3

def cpuWalkFrom (r : Ram) (cr3 va : U64) : List U64 → CpuWalk
  | [] => cpuWalk r cr3 va
  | [e4] => cpuWalkPdpt r va e4
  | [e4, e3] => cpuWalkPd r va e4 e3
  | e4 :: e3 :: e2 :: _ => cpuWalkPt r va e4 e3 e2

def tableAfter (cr3 : U64) (es : List U64) : ℕ := frameOf (cpuAddr (es.getLast?.getD cr3))

inductive Learns (r : Ram) (cr3 : U64) (uppers : List (List (BitVec 9) × List U64)) :
    List (BitVec 9) → List U64 → Prop
  | root : Learns r cr3 uppers [] []
  | cached {path : List (BitVec 9)} {es : List U64} : (path, es) ∈ uppers → Learns r cr3 uppers path es
  | next {path : List (BitVec 9)} {es : List U64} {i : BitVec 9} : Learns r cr3 uppers path es →
      path.length < 3 → (cpuNext path.length (r.word (tableAfter cr3 es) i)).isSome →
      Learns r cr3 uppers (path ++ [i]) (es ++ [r.word (tableAfter cr3 es) i])

inductive Translates (r : Ram) (cr3 : U64) (t : Tlb) (va : U64) : CpuWalk → Prop
  | cached {w : CpuWalk} : (pageOf va, w) ∈ t.pages → Translates r cr3 t va w
  | walk {path : List (BitVec 9)} {es : List U64} : Learns r cr3 t.uppers path es → path <+: innerPath va →
      Translates r cr3 t va (cpuWalkFrom r cr3 va es)

/-- The processor caches what it comes by, for whatever address, and forgets at will. -/
inductive Lookup (r : Ram) (cr3 : U64) : Tlb → Tlb → Prop
  | page {t : Tlb} {va : U64} {w : CpuWalk} : Translates r cr3 t va w → w ≠ .fault →
      Lookup r cr3 t { t with pages := (pageOf va, w) :: t.pages }
  | upper {t : Tlb} {path : List (BitVec 9)} {es : List U64} : Learns r cr3 t.uppers path es →
      Lookup r cr3 t { t with uppers := (path, es) :: t.uppers }
  | evict {t t' : Tlb} : t'.pages ⊆ t.pages → t'.uppers ⊆ t.uppers → Lookup r cr3 t t'

namespace Tlb

def invlpg (t : Tlb) (va : U64) : Tlb := ⟨t.pages.filter fun c => c.1 ≠ pageOf va, []⟩

/-- `write_cr3`, with CR4.PGE. -/
def writeCr3 (t : Tlb) (pge : Bool) : Tlb := ⟨t.pages.filter fun c => pge && c.2.global, []⟩

/-- The calls come to `invlpg_local` when they return 0. -/
def called (t : Tlb) (call : PageCall) (rc : Int) : Tlb := if rc = 0 then t.invlpg call.virt else t

end Tlb

structure Core where
  system : System
  tlb : Tlb

namespace Core

def boot (s : Vm) : Core := ⟨.start s, ⟨[], []⟩⟩

/-- One call of the kernel, or one of the processor's lookups. While a call changes the tables the
processor can come by nothing new but for the page in question. -/
inductive Step (pge : Bool) : Core → Core → Prop
  | lookup {c : Core} {t : Tlb} : Lookup c.system.vm.ram c.system.vm.cr3 c.tlb t → Step pge c ⟨c.system, t⟩
  | client {c : Core} {p : Pmm} {live : List Pmm.Block} :
      Pmm.ClientStep (c.system.vm.pmm, c.system.live) (p, live) →
      Step pge c ⟨⟨{ c.system.vm with pmm := p }, c.system.spaces, live⟩, c.tlb⟩
  | write {c : Core} {b : Pmm.Block} {phys e : U64} {i : BitVec 9} :
      b ∈ c.system.live → frameOf phys ∈ b.frames →
      Step pge c ⟨{ c.system with vm := c.system.vm.store phys i e }, c.tlb⟩
  | page {c : Core} (call : PageCall) : call.space = none →
      Step pge c ⟨c.system.page call, c.tlb.called call (call.exec c.system.vm).2⟩
  | pageSpace {c : Core} (call : PageCall) {space : VmmSpace} {t t' : Tlb} :
      call.space = some space → space ∈ c.system.spaces → space.pml4Phys ≠ 0 →
      ReflTransGen (Lookup c.system.vm.ram space.pml4Phys) (c.tlb.writeCr3 pge) t →
      ReflTransGen (Lookup (call.exec c.system.vm).1.ram space.pml4Phys)
        (t.called call (call.exec c.system.vm).2) t' →
      Step pge c ⟨c.system.page call, t'.writeCr3 pge⟩
  | create {c : Core} : Step pge c ⟨c.system.create, c.tlb⟩
  | switch {c : Core} {space : VmmSpace} : space ∈ c.system.spaces →
      Step pge c ⟨{ c.system with vm := c.system.vm.vmmSwitchSpace space },
        if space.pml4Phys = 0 then c.tlb else c.tlb.writeCr3 pge⟩

end Core

end Mcincos
