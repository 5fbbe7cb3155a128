import Mcincos.Sched.Sched
import Mcincos.Vmm.Bytes

namespace Mcincos

def userMsg : List (BitVec 8) := "hello from user\n".toList.map fun c => BitVec.ofNat 8 c.toNat

def put32 (bytes : List (BitVec 8)) (i : ℕ) (x : BitVec 32) : List (BitVec 8) :=
  (((bytes.set i (x.setWidth 8)).set (i + 1) ((x >>> 8).setWidth 8)).set (i + 2)
    ((x >>> 16).setWidth 8)).set (i + 3) ((x >>> 24).setWidth 8)

def userCode : List (BitVec 8) :=
  let len := BitVec.ofNat 32 userMsg.length
  let code : List (BitVec 8) := [
    0xb8, 0x00, 0x00, 0x00, 0x00,
    0x48, 0x8d, 0x3d, 0, 0, 0, 0,
    0xbe, 0, 0, 0, 0,
    0x0f, 0x05,
    0xeb, 0xfe]
  let code := code.set 1 0
  let code := put32 code 13 len
  let msgOff := BitVec.ofNat 32 code.length
  put32 code 8 (msgOff - 12)

def Vm.buildUserBlob (s : Vm) (dst : U64) : Option Vm :=
  (s.storeBytes dst userCode).bind fun s =>
    s.storeBytes (dst + BitVec.ofNat 64 userCode.length) userMsg

def userCode0 : U64 := 0x400000
def userStack0 : U64 := 0x700000
def userCode1 : U64 := 0x500000
def userStack1 : U64 := 0x800000

structure UserFrames where
  kstack0 : U64
  kstack1 : U64
  uc0Phys : U64
  us0Phys : U64
  uc1Phys : U64
  us1Phys : U64

namespace Vm

def allocPages (s : Vm) (pageCount : U64) : Vm × U64 :=
  let (pmm, p) := s.pmm.pmmAllocPages pageCount
  ({ s with pmm }, p)

def allocUserFrames (s : Vm) : Vm × UserFrames :=
  let (s, kstack0) := s.allocPages 2
  let (s, kstack1) := s.allocPages 2
  let (s, uc0Phys) := s.allocPages 1
  let (s, us0Phys) := s.allocPages 1
  let (s, uc1Phys) := s.allocPages 1
  let (s, us1Phys) := s.allocPages 1
  (s, { kstack0, kstack1, uc0Phys, us0Phys, uc1Phys, us1Phys })

/-- The four calls of `vmm_map_page`, with their results, which `kmain` does not look at. -/
def mapUserPages (s : Vm) (p : UserFrames) : Vm × List Int :=
  let (s, rc0) := s.vmmMapPage userCode0 p.uc0Phys (pteU ||| pteW)
  let (s, rc1) := s.vmmMapPage userStack0 p.uc0Phys (pteU ||| pteW)
  let (s, rc2) := s.vmmMapPage userCode1 p.uc0Phys (pteU ||| pteW)
  let (s, rc3) := s.vmmMapPage userCode0 p.uc0Phys (pteU ||| pteW)
  (s, [rc0, rc1, rc2, rc3])

end Vm

structure UserSetup (T E : Type) where
  vm : Vm
  kernel : Kernel T E
  frames : UserFrames
  rcs : List Int

/-- `none` where `kmain` panics or faults. -/
def kmainUsers {T E : Type} [DecidableEq T] (s : Vm) (k : Kernel T E) (hhdmOffset : U64) (t0 t1 : T) :
    Option (UserSetup T E) :=
  let (s, p) := s.allocUserFrames
  let kstack0Top := p.kstack0 + 2 * 4096 + hhdmOffset
  let kstack1Top := p.kstack1 + 2 * 4096 + hhdmOffset
  if p.uc0Phys = 0 ∨ p.us0Phys = 0 ∨ p.uc1Phys = 0 ∨ p.us1Phys = 0 then none
  else
    let (s, rcs) := s.mapUserPages p
    (s.buildUserBlob userCode0).bind fun s =>
      (s.buildUserBlob userCode1).bind fun s =>
        let k := k.threadInitUser t0 userCode0 (userStack0 + 4096) kstack0Top
        let k := k.threadInitUser t1 userCode1 (userStack1 + 4096) kstack1Top
        some ⟨s, k, p, rcs⟩

end Mcincos
