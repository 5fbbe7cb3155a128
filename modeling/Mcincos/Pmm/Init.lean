import Mcincos.Pmm.Allocator

namespace Mcincos

/-- The pmm only asks whether `type` is LIMINE_MEMMAP_USABLE. -/
inductive MemmapType
  | usable
  | other (type : U64)
  deriving DecidableEq

structure MemmapEntry where
  base : U64
  length : U64
  type : MemmapType

/-- What `pmm_init` reads of `g_boot_info`, and the two linker symbols. -/
structure BootInfo where
  hhdmOffset : U64
  virtualBase : U64
  physicalBase : U64
  kernelStart : U64
  kernelEnd : U64
  memmap : List MemmapEntry

namespace Pmm

def mark (used : Bool) (p : Pmm) (idx : ℕ) : Pmm := if used then p.bitmapSet idx else p.bitmapClear idx

def markLoop (used : Bool) (stop : U64) : ℕ → U64 → Pmm → Pmm
  | 0, _, p => p
  | fuel + 1, addr, p =>
    if addr < stop then
      let idx := (addr / pageSize).toNat
      if idx ≥ p.gTotalPages then p
      else markLoop used stop fuel (addr + pageSize) (mark used p idx)
    else p

def markRange (p : Pmm) (base len : U64) (used : Bool) : Pmm :=
  let start := alignDown base pageSize
  let stop := alignUp (base + len) pageSize
  markLoop used stop ((stop.toNat - start.toNat) / 4096) start p

def rangesOverlap (a0 a1 b0 b1 : U64) : Bool := a0 < b1 && b0 < a1

def kernelPhysRange (b : BootInfo) : U64 × U64 :=
  (b.physicalBase + (b.kernelStart - b.virtualBase), b.physicalBase + (b.kernelEnd - b.virtualBase))

def maxPhys (maxp : U64) (e : MemmapEntry) : U64 :=
  if e.type ≠ .usable then maxp
  else
    let stop := e.base + e.length
    if stop > maxp then stop else maxp

def findMaxPhys (memmap : List MemmapEntry) : U64 := memmap.foldl maxPhys 0

def placeBitmapPhys (bytesNeeded kphys0 kphys1 : U64) : List MemmapEntry → U64
  | [] => 0
  | e :: es =>
    if e.type ≠ .usable then placeBitmapPhys bytesNeeded kphys0 kphys1 es
    else
      let regionStart := alignUp e.base pageSize
      let regionEnd := alignDown (e.base + e.length) pageSize
      if regionEnd ≤ regionStart then placeBitmapPhys bytesNeeded kphys0 kphys1 es
      else
        let regionSize := regionEnd - regionStart
        if bytesNeeded > regionSize then placeBitmapPhys bytesNeeded kphys0 kphys1 es
        else
          let bmpStart := alignDown (regionEnd - bytesNeeded) pageSize
          if rangesOverlap bmpStart (bmpStart + bytesNeeded) kphys0 kphys1 then
            placeBitmapPhys bytesNeeded kphys0 kphys1 es
          else bmpStart

def freeEntry (p : Pmm) (e : MemmapEntry) : Pmm :=
  if e.type = .usable then p.markRange e.base e.length false else p

def countFree (p : Pmm) : ℕ :=
  (List.range p.gTotalPages).foldl (fun freePages i =>
    if !p.bitmapTest i then freePages + 1 else freePages) 0

def totalPages (memmap : List MemmapEntry) : ℕ :=
  (alignUp (findMaxPhys memmap) pageSize / pageSize).toNat

theorem totalPages_lt (memmap : List MemmapEntry) : totalPages memmap < 2 ^ 52 := by
  have h : totalPages memmap = (alignUp (findMaxPhys memmap) pageSize).toNat / 4096 :=
    BitVec.toNat_udiv
  rw [h]
  omega

def filled (hhdm bmpPhys : U64) (memmap : List MemmapEntry) : Pmm where
  gHhdm := hhdm
  gBitmap := bmpPhys + hhdm
  bytes := List.replicate ((totalPages memmap + 7) / 8) 0xff#8
  gTotalBytes := 0
  gFreeBytes := 0
  gTotalPages := totalPages memmap
  sized := List.length_replicate
  bounded := totalPages_lt memmap

def initBitmap (b : BootInfo) (bmpPhys gBitmapBytes : U64) : Pmm :=
  let kphys0 := (kernelPhysRange b).1
  let kphys1 := (kernelPhysRange b).2
  let p := filled b.hhdmOffset bmpPhys b.memmap
  let p := b.memmap.foldl freeEntry p
  let p := p.markRange kphys0 (kphys1 - kphys0) true
  p.markRange bmpPhys gBitmapBytes true

/-- `none` where the code halts: no usable entry takes the bitmap. -/
def pmmInit (b : BootInfo) : Option Pmm :=
  let gBitmapBytes := BitVec.ofNat 64 ((totalPages b.memmap + 7) / 8)
  let bmpPhys :=
    placeBitmapPhys gBitmapBytes (kernelPhysRange b).1 (kernelPhysRange b).2 b.memmap
  if bmpPhys = 0 then none
  else
    let p := initBitmap b bmpPhys gBitmapBytes
    some { p with
      gTotalBytes := BitVec.ofNat 64 p.gTotalPages * pageSize
      gFreeBytes := BitVec.ofNat 64 p.countFree * pageSize }

def hhdmOffset (p : Pmm) : U64 := p.gHhdm
def virtToPhys (p : Pmm) (virt : U64) : U64 := virt - p.hhdmOffset

end Pmm

end Mcincos
