import Mcincos.Cpu.Pic
import Mcincos.Sched.Kernel

namespace Mcincos.Irq

open Pic

/-- The numbers that `g_handlers` has an entry for. -/
abbrev Line := { irq : BitVec 8 // irq < 16 }

/-- The local APIC: its base MSR, the address it is mapped at, and the vectors in service. -/
structure Lapic where
  apicBase : U64
  gLapicBase : U64
  inService : Finset (BitVec 8)

/-- Handlers are at addresses of type `H`, a null pointer is `none`; `kernel` is all that they work on. -/
structure System (H σ : Type) where
  pics : Pair
  lapic : Lapic
  gHandlers : Line → Option H
  gVectorHandlers : BitVec 8 → Option H
  kernel : σ

def irqBase : BitVec 8 := 32
def lapicSpuriousVector : BitVec 8 := 0xff
def apicBaseEnable : U64 := 1 <<< 11
def apicBaseX2apic : U64 := 1 <<< 10

namespace Lapic

def Enabled (l : Lapic) : Prop := l.apicBase &&& apicBaseEnable ≠ 0

instance (l : Lapic) : Decidable l.Enabled := inferInstanceAs (Decidable (_ ≠ _))

/-- A write of the EOI register takes the highest vector out of service. -/
def writeEoi (l : Lapic) : Lapic := { l with inService := l.inService.filter fun v => ∃ w ∈ l.inService, v < w }

def lapicEoi (l : Lapic) : Lapic := if l.gLapicBase = 0 then l else l.writeEoi

/-- `mapped` is what `mmio_map` returns. -/
def lapicInit (l : Lapic) (mapped : U64) : Lapic :=
  { l with
    apicBase := l.apicBase &&& ~~~apicBaseX2apic ||| apicBaseEnable
    gLapicBase := if l.gLapicBase = 0 then mapped else l.gLapicBase }

end Lapic

theorem line_lt {vec : BitVec 8} (h : irqBase ≤ vec ∧ vec < irqBase + 16) : vec - irqBase < 16 := by
  rw [irqBase] at *
  bv_omega

def lineAt (vec : BitVec 8) : Option Line :=
  if h : irqBase ≤ vec ∧ vec < irqBase + 16 then some ⟨vec - irqBase, line_lt h⟩ else none

namespace System

variable {H σ : Type} (handle : H → IsrFrame → σ → σ × IsrFrame)

def irqRegisterHandler (s : System H σ) (irq : BitVec 8) (handler : Option H) : System H σ :=
  if h : irq < 16 then { s with gHandlers := Function.update s.gHandlers ⟨irq, h⟩ handler } else s

def irqRegisterVectorHandler (s : System H σ) (vector : BitVec 8) (handler : Option H) : System H σ :=
  { s with gVectorHandlers := Function.update s.gVectorHandlers vector handler }

def callHandler (s : System H σ) (handler : Option H) (f : IsrFrame) : System H σ × IsrFrame :=
  match handler with
  | none => (s, f)
  | some h => ({ s with kernel := (handle h f s.kernel).1 }, (handle h f s.kernel).2)

def irqCommonHandler (s : System H σ) (f : IsrFrame) : System H σ × IsrFrame :=
  let vec : BitVec 8 := f.vector.setWidth 8
  match lineAt vec with
  | some irq =>
    let (s, f) := s.callHandler handle (s.gHandlers irq) f
    ({ s with pics := s.pics.picSendEoi irq.val }, f)
  | none =>
    let (s, f) := s.callHandler handle (s.gVectorHandlers vec) f
    if s.lapic.Enabled ∧ vec ≠ lapicSpuriousVector then ({ s with lapic := s.lapic.lapicEoi }, f) else (s, f)

end System

/-- A line of the controllers, a line that is gone when the processor asks for it, or an interrupt of
the local APIC. -/
inductive Request
  | line (n : ℕ)
  | spurious (second : Bool)
  | apic (vector : BitVec 8)
  | spuriousApic

namespace Lapic

/-- A vector comes through if those in service are of a lower class. -/
def accept (l : Lapic) (v : BitVec 8) : Option Lapic :=
  if l.Enabled ∧ 16 ≤ v ∧ ∀ w ∈ l.inService, w >>> 4 < v >>> 4 then
    some { l with inService := insert v l.inService }
  else none

end Lapic

namespace System

variable {H σ : Type} (handle : H → IsrFrame → σ → σ × IsrFrame)

/-- What the controllers do when the processor takes an interrupt, and the vector it gets. -/
def accept (s : System H σ) : Request → Option (System H σ × BitVec 8)
  | .line n => (s.pics.acceptLine n).map fun r => ({ s with pics := r.1 }, r.2)
  | .spurious second => (s.pics.acceptSpurious second).map fun r => ({ s with pics := r.1 }, r.2)
  | .apic v => (s.lapic.accept v).map fun lapic => ({ s with lapic }, v)
  | .spuriousApic => some (s, lapicSpuriousVector)

end System

inductive Event (H : Type)
  | interrupt (request : Request) (context : IsrFrame)
  | registerHandler (irq : BitVec 8) (handler : Option H)
  | registerVectorHandler (vector : BitVec 8) (handler : Option H)
  | mask (call : Call)

def frameOf (context : IsrFrame) (vec : BitVec 8) : IsrFrame :=
  { context with vector := vec.setWidth 64, error := 0 }

namespace System

variable {H σ : Type} (handle : H → IsrFrame → σ → σ × IsrFrame)

/-- The state after an event, and the frame that an interrupt returns to; interrupts are off in the
handler. -/
def step (s : System H σ) : Event H → Option (System H σ × List IsrFrame)
  | .interrupt request context => (s.accept request).map fun r =>
    let (s, f) := r.1.irqCommonHandler handle (frameOf context r.2)
    (s, [f])
  | .registerHandler irq handler => some (s.irqRegisterHandler irq handler, [])
  | .registerVectorHandler vector handler => some (s.irqRegisterVectorHandler vector handler, [])
  | .mask call => some ({ s with pics := s.pics.call call }, [])

def run (s : System H σ) : List (Event H) → Option (System H σ × List IsrFrame)
  | [] => some (s, [])
  | e :: es => (s.step handle e).bind fun r => (r.1.run es).map fun r' => (r'.1, r.2 ++ r'.2)

def boot (pics : Pair) (lapic : Lapic) (mapped : U64) (kernel : σ) : System H σ where
  pics := pics.irqInit
  lapic := lapic.lapicInit mapped
  gHandlers _ := none
  gVectorHandlers _ := none
  kernel := kernel

end System

end Mcincos.Irq
