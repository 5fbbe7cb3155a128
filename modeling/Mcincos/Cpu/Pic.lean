import Mcincos.Library.Words

namespace Mcincos.Pic

open Words

inductive Icw
  | icw2
  | icw3
  | icw4
  deriving DecidableEq

/-- One 8259A as its data sheet has it: `expects` is the initialisation word it waits for, `icw1` the
two bits of the first one that say which words come, `imr` and `isr` the lines masked and in service. -/
structure Chip where
  expects : Option Icw
  single : Bool
  needsIcw4 : Bool
  icw2 : BitVec 8
  icw3 : BitVec 8
  icw4 : BitVec 8
  imr : BitVec 8
  isr : BitVec 8
  deriving DecidableEq

namespace Chip

/-- The lowest line in service has the highest priority. -/
def eoi (c : Chip) : Chip := { c with isr := c.isr &&& (c.isr - 1) }

/-- With bit 4 the first initialisation word, else OCW2 or OCW3; of these only the non-specific end of
interrupt is ever written. -/
def writeCommand (c : Chip) (v : BitVec 8) : Chip :=
  if v.getLsbD 4 then
    { c with
      expects := some .icw2
      single := v.getLsbD 1
      needsIcw4 := v.getLsbD 0
      icw4 := if v.getLsbD 0 then c.icw4 else 0
      imr := 0 }
  else if v = 0x20 then c.eoi
  else c

def afterIcw3 (c : Chip) : Option Icw := if c.needsIcw4 then some .icw4 else none

def writeData (c : Chip) (v : BitVec 8) : Chip :=
  match c.expects with
  | none => { c with imr := v }
  | some .icw2 => { c with icw2 := v, expects := if c.single then c.afterIcw3 else some .icw3 }
  | some .icw3 => { c with icw3 := v, expects := c.afterIcw3 }
  | some .icw4 => { c with icw4 := v, expects := none }

def readData (c : Chip) : BitVec 8 := c.imr

def vector (c : Chip) (k : ℕ) : BitVec 8 := c.icw2 &&& 0xf8 ||| BitVec.ofNat 8 k

def Passes (c : Chip) (k : ℕ) : Prop := c.imr.getLsbD k = false ∧ ∀ j ≤ k, c.isr.getLsbD j = false

instance (c : Chip) (k : ℕ) : Decidable (c.Passes k) := inferInstanceAs (Decidable (_ ∧ _))

def serve (c : Chip) (k : ℕ) : Chip := { c with isr := c.isr ||| 1#8 <<< k }

end Chip

structure Pair where
  master : Chip
  slave : Chip
  deriving DecidableEq

def pic1Command : BitVec 16 := 0x20
def pic1Data : BitVec 16 := 0x21
def pic2Command : BitVec 16 := 0xa0
def pic2Data : BitVec 16 := 0xa1

namespace Pair

def outb (p : Pair) (port : BitVec 16) (val : BitVec 8) : Pair :=
  if port = pic1Command then { p with master := p.master.writeCommand val }
  else if port = pic1Data then { p with master := p.master.writeData val }
  else if port = pic2Command then { p with slave := p.slave.writeCommand val }
  else if port = pic2Data then { p with slave := p.slave.writeData val }
  else p

def inb (p : Pair) (port : BitVec 16) : BitVec 8 :=
  if port = pic1Data then p.master.readData
  else if port = pic2Data then p.slave.readData
  else 0xff

def ioWait (p : Pair) : Pair := p.outb 0x80 0

def picInit (p : Pair) (offset1 offset2 : BitVec 8) : Pair :=
  let a1 := p.inb pic1Data
  let a2 := p.inb pic2Data
  let p := (p.outb pic1Command 0x11).ioWait
  let p := (p.outb pic2Command 0x11).ioWait
  let p := (p.outb pic1Data offset1).ioWait
  let p := (p.outb pic2Data offset2).ioWait
  let p := (p.outb pic1Data 4).ioWait
  let p := (p.outb pic2Data 2).ioWait
  let p := (p.outb pic1Data 0x01).ioWait
  let p := (p.outb pic2Data 0x01).ioWait
  let p := p.outb pic1Data a1
  p.outb pic2Data a2

def picSendEoi (p : Pair) (irq : BitVec 8) : Pair :=
  let p := if irq ≥ 8 then p.outb pic2Command 0x20 else p
  p.outb pic1Command 0x20

def maskPort (irq : BitVec 8) : BitVec 16 := if irq < 8 then pic1Data else pic2Data

def picSetMask (p : Pair) (irq : BitVec 8) : Pair :=
  let value := ((p.inb (maskPort irq)).setWidth 32 ||| 1#32 <<< (irq &&& 7)).setWidth 8
  p.outb (maskPort irq) value

def picClearMask (p : Pair) (irq : BitVec 8) : Pair :=
  let value := ((p.inb (maskPort irq)).setWidth 32 &&& ~~~(1#32 <<< (irq &&& 7))).setWidth 8
  p.outb (maskPort irq) value

def irqInit (p : Pair) : Pair :=
  (List.range 16).foldl (fun p i => p.picSetMask (BitVec.ofNat 8 i)) (p.picInit 32 (32 + 8))

end Pair

structure Chip.Programmed (c : Chip) (offset wiring : BitVec 8) : Prop where
  expects : c.expects = none
  single : c.single = false
  icw2 : c.icw2 = offset
  icw3 : c.icw3 = wiring
  icw4 : c.icw4 = 1

structure Pair.Programmed (p : Pair) (offset1 offset2 : BitVec 8) : Prop where
  master : p.master.Programmed offset1 4
  slave : p.slave.Programmed offset2 2

theorem Chip.Programmed.writeData {c : Chip} {offset wiring : BitVec 8} (h : c.Programmed offset wiring)
    (v : BitVec 8) : c.writeData v = { c with imr := v } := by
  unfold Chip.writeData
  rw [h.expects]

namespace Pair

variable {p : Pair} {offset1 offset2 irq v : BitVec 8} {line : ℕ}

@[simp] theorem outb_pic1Command (p : Pair) (v : BitVec 8) :
    p.outb pic1Command v = { p with master := p.master.writeCommand v } := rfl

@[simp] theorem outb_pic1Data (p : Pair) (v : BitVec 8) :
    p.outb pic1Data v = { p with master := p.master.writeData v } := rfl

@[simp] theorem outb_pic2Command (p : Pair) (v : BitVec 8) :
    p.outb pic2Command v = { p with slave := p.slave.writeCommand v } := rfl

@[simp] theorem outb_pic2Data (p : Pair) (v : BitVec 8) :
    p.outb pic2Data v = { p with slave := p.slave.writeData v } := rfl

@[simp] theorem ioWait_eq (p : Pair) : p.ioWait = p := rfl
@[simp] theorem inb_pic1Data (p : Pair) : p.inb pic1Data = p.master.imr := rfl
@[simp] theorem inb_pic2Data (p : Pair) : p.inb pic2Data = p.slave.imr := rfl

/-- Whatever the controllers were at before, also in the middle of an initialisation. -/
theorem picInit_programmed (p : Pair) (offset1 offset2 : BitVec 8) :
    (p.picInit offset1 offset2).Programmed offset1 offset2 := by
  constructor
  · constructor <;> rfl
  · constructor <;> rfl

def masked (p : Pair) (line : ℕ) : Bool :=
  if line < 8 then p.master.imr.getLsbD line else p.slave.imr.getLsbD (line - 8)

/-- The line that a number stands for; the numbers from 16 on stand for lines of the second controller. -/
def lineOf (irq : BitVec 8) : ℕ := if irq < 8 then irq.toNat else 8 + irq.toNat % 8

theorem maskBit (irq : BitVec 8) : 1#32 <<< (irq &&& 7) = 1#32 <<< (irq.toNat % 8) := by
  have hlow : (irq &&& 7).toNat = irq.toNat % 8 := toNat_and_low irq 3 (by omega)
  rw [← hlow]
  rfl

theorem getLsbD_setBit (x irq : BitVec 8) {k : ℕ} (hk : k < 8) :
    ((x.setWidth 32 ||| 1#32 <<< (irq &&& 7)).setWidth 8).getLsbD k =
      (decide (k = irq.toNat % 8) || x.getLsbD k) := by
  have hbit : irq.toNat % 8 < 32 := by omega
  rw [maskBit, BitVec.getLsbD_setWidth, getLsbD_or_one_shift _ _ _ hbit, BitVec.getLsbD_setWidth]
  simp [hk, show k < 32 by omega]

theorem getLsbD_clearBit (x irq : BitVec 8) {k : ℕ} (hk : k < 8) :
    ((x.setWidth 32 &&& ~~~(1#32 <<< (irq &&& 7))).setWidth 8).getLsbD k =
      (!decide (k = irq.toNat % 8) && x.getLsbD k) := by
  have hbit : irq.toNat % 8 < 32 := by omega
  rw [maskBit, BitVec.getLsbD_setWidth, getLsbD_and_not_one_shift _ _ _ hbit, BitVec.getLsbD_setWidth]
  simp [hk, show k < 32 by omega]

theorem maskPort_low (h : irq < 8) : maskPort irq = pic1Data := if_pos h
theorem maskPort_high (h : ¬irq < 8) : maskPort irq = pic2Data := if_neg h

theorem lineOf_low (h : irq < 8) : lineOf irq = irq.toNat % 8 := by
  have hlt : irq.toNat < 8 := h
  rw [lineOf, if_pos h, Nat.mod_eq_of_lt hlt]

theorem lineOf_high (h : ¬irq < 8) : lineOf irq = 8 + irq.toNat % 8 := if_neg h

theorem masked_low (p : Pair) (hline : line < 8) : p.masked line = p.master.imr.getLsbD line := if_pos hline
theorem masked_high (p : Pair) (hline : ¬line < 8) : p.masked line = p.slave.imr.getLsbD (line - 8) :=
  if_neg hline

theorem Programmed.outb_mask (h : p.Programmed offset1 offset2) (irq v : BitVec 8) :
    (p.outb (maskPort irq) v).Programmed offset1 offset2 ∧
      (p.outb (maskPort irq) v).master.isr = p.master.isr ∧
      (p.outb (maskPort irq) v).slave.isr = p.slave.isr := by
  obtain ⟨hmaster, hslave⟩ := h
  by_cases hirq : irq < 8
  · rw [maskPort_low hirq, outb_pic1Data, hmaster.writeData]
    exact ⟨⟨⟨hmaster.1, hmaster.2, hmaster.3, hmaster.4, hmaster.5⟩, hslave⟩, rfl, rfl⟩
  · rw [maskPort_high hirq, outb_pic2Data, hslave.writeData]
    exact ⟨⟨hmaster, hslave.1, hslave.2, hslave.3, hslave.4, hslave.5⟩, rfl, rfl⟩

/-- `f` is what a call does to each bit of the register it reads and writes. -/
theorem Programmed.masked_outb (h : p.Programmed offset1 offset2) (hline : line < 16) {f : ℕ → Bool → Bool}
    (hv : ∀ k < 8, v.getLsbD k = f k ((p.inb (maskPort irq)).getLsbD k))
    (hf : ∀ k b, k ≠ irq.toNat % 8 → f k b = b) :
    (p.outb (maskPort irq) v).masked line =
      if line = lineOf irq then f (irq.toNat % 8) (p.masked line) else p.masked line := by
  obtain ⟨hmaster, hslave⟩ := h
  by_cases hirq : irq < 8
  · rw [maskPort_low hirq, inb_pic1Data] at hv
    rw [maskPort_low hirq, outb_pic1Data, hmaster.writeData, lineOf_low hirq]
    by_cases hlow : line < 8
    · rw [masked_low _ hlow, masked_low _ hlow]
      apply (hv line hlow).trans
      split_ifs with he
      · rw [← he]
      · exact hf _ _ he
    · rw [masked_high _ hlow, masked_high _ hlow, if_neg]
      omega
  · rw [maskPort_high hirq, inb_pic2Data] at hv
    rw [maskPort_high hirq, outb_pic2Data, hslave.writeData, lineOf_high hirq]
    by_cases hlow : line < 8
    · rw [masked_low _ hlow, masked_low _ hlow, if_neg]
      omega
    · rw [masked_high _ hlow, masked_high _ hlow]
      apply (hv (line - 8) (by omega)).trans
      split_ifs with he
      · rw [show line - 8 = irq.toNat % 8 by omega]
      · apply hf
        omega

theorem Programmed.masked_picSetMask (h : p.Programmed offset1 offset2) (irq : BitVec 8) (hline : line < 16) :
    (p.picSetMask irq).masked line = true ↔ line = lineOf irq ∨ p.masked line = true := by
  have hvalue := h.masked_outb hline (fun k hk => getLsbD_setBit (p.inb (maskPort irq)) irq hk)
    (fun k b hk => by simp [hk])
  rw [picSetMask, hvalue]
  split_ifs with he
  · simp [he]
  · simp [he]

theorem Programmed.masked_picClearMask (h : p.Programmed offset1 offset2) (irq : BitVec 8) (hline : line < 16) :
    (p.picClearMask irq).masked line = true ↔ line ≠ lineOf irq ∧ p.masked line = true := by
  have hvalue := h.masked_outb hline (fun k hk => getLsbD_clearBit (p.inb (maskPort irq)) irq hk)
    (fun k b hk => by simp [hk])
  rw [picClearMask, hvalue]
  split_ifs with he
  · simp [he]
  · simp [he]

end Pair

inductive Call
  | setMask (irq : BitVec 8)
  | clearMask (irq : BitVec 8)
  | sendEoi (irq : BitVec 8)

def Pair.call (p : Pair) : Call → Pair
  | .setMask irq => p.picSetMask irq
  | .clearMask irq => p.picClearMask irq
  | .sendEoi irq => p.picSendEoi irq

def Call.maskedLines (lines : Finset ℕ) : Call → Finset ℕ
  | .setMask irq => insert (Pair.lineOf irq) lines
  | .clearMask irq => lines.erase (Pair.lineOf irq)
  | .sendEoi _ => lines

/-- The vector that the processor gets for a line; the second controller answers for its lines if both
know the wire between them. -/
def Pair.vector (p : Pair) (line : ℕ) : Option (BitVec 8) :=
  if line < 8 then some (p.master.vector line)
  else if p.master.icw3.getLsbD p.slave.icw3.toNat then some (p.slave.vector (line - 8))
  else none

def Pair.acceptLine (p : Pair) (line : ℕ) : Option (Pair × BitVec 8) :=
  if line < 8 then
    if line ≠ 2 ∧ p.master.Passes line then
      (p.vector line).map fun v => ({ p with master := p.master.serve line }, v)
    else none
  else if line < 16 ∧ p.master.Passes 2 ∧ p.slave.Passes (line - 8) then
    (p.vector line).map fun v => (⟨p.master.serve 2, p.slave.serve (line - 8)⟩, v)
  else none

/-- A line that is gone when the processor asks for its vector: the controller answers with its input 7
and has nothing in service. -/
def Pair.acceptSpurious (p : Pair) (second : Bool) : Option (Pair × BitVec 8) :=
  if second then
    if p.master.Passes 2 then
      (p.vector 15).map fun v => ({ p with master := p.master.serve 2 }, v)
    else none
  else (p.vector 7).map fun v => (p, v)

structure Pair.Masks (p : Pair) (lines : Finset ℕ) : Prop where
  programmed : p.Programmed 32 40
  masked : ∀ line < 16, p.masked line = true ↔ line ∈ lines

namespace Pair

variable {p : Pair} {lines : Finset ℕ}

theorem picSendEoi_eq (p : Pair) (irq : BitVec 8) :
    p.picSendEoi irq = ⟨p.master.eoi, if irq ≥ 8 then p.slave.eoi else p.slave⟩ := by
  unfold Pair.picSendEoi
  split_ifs
  · rfl
  · rfl

theorem Masks.call (h : p.Masks lines) (c : Call) : (p.call c).Masks (c.maskedLines lines) := by
  cases c with
  | setMask irq =>
    constructor
    · exact (h.programmed.outb_mask irq _).1
    · intro line hline
      rw [Pair.call, h.programmed.masked_picSetMask irq hline, Call.maskedLines, Finset.mem_insert,
        h.masked line hline]
  | clearMask irq =>
    constructor
    · exact (h.programmed.outb_mask irq _).1
    · intro line hline
      rw [Pair.call, h.programmed.masked_picClearMask irq hline, Call.maskedLines, Finset.mem_erase,
        h.masked line hline]
  | sendEoi irq =>
    obtain ⟨⟨hmaster, hslave⟩, hmasked⟩ := h
    rw [Pair.call, picSendEoi_eq]
    constructor
    · constructor
      · exact ⟨hmaster.1, hmaster.2, hmaster.3, hmaster.4, hmaster.5⟩
      · split_ifs
        · exact ⟨hslave.1, hslave.2, hslave.3, hslave.4, hslave.5⟩
        · exact hslave
    · intro line hline
      rw [Call.maskedLines, ← hmasked line hline]
      unfold Pair.masked
      split_ifs
      all_goals rfl

theorem Masks.calls (h : p.Masks lines) (calls : List Call) :
    (calls.foldl Pair.call p).Masks (calls.foldl Call.maskedLines lines) := by
  induction calls generalizing p lines with
  | nil => exact h
  | cons c calls ih => exact ih (h.call c)

theorem mem_setMasks (irqs : List (BitVec 8)) (lines : Finset ℕ) {line : ℕ} :
    line ∈ (irqs.map Call.setMask).foldl Call.maskedLines lines ↔ line ∈ irqs.map lineOf ∨ line ∈ lines := by
  induction irqs generalizing lines with
  | nil => simp
  | cons irq irqs ih =>
    simp only [List.map_cons, List.foldl_cons, ih, Call.maskedLines, Finset.mem_insert, List.mem_cons]
    tauto

theorem irqInit_eq (p : Pair) : p.irqInit =
    (((List.range 16).map (BitVec.ofNat 8)).map Call.setMask).foldl Pair.call (p.picInit 32 40) := by
  rw [List.map_map, List.foldl_map]
  rfl

theorem Masks.congr (h : p.Masks lines) {lines' : Finset ℕ} (hlines : ∀ line < 16, line ∈ lines' ↔ line ∈ lines) :
    p.Masks lines' := by
  constructor
  · exact h.programmed
  · intro line hline
    rw [hlines line hline, h.masked line hline]

theorem irqInit_masks (p : Pair) : p.irqInit.Masks (Finset.range 16) := by
  have hinit : (p.picInit 32 40).Masks ((Finset.range 16).filter fun line => (p.picInit 32 40).masked line) := by
    constructor
    · exact p.picInit_programmed 32 40
    · intro line hline
      simp [hline]
  rw [irqInit_eq]
  apply (hinit.calls _).congr
  intro line hline
  have hlines : ((List.range 16).map (BitVec.ofNat 8)).map lineOf = List.range 16 := by decide
  rw [mem_setMasks, hlines, List.mem_range, Finset.mem_range]
  exact iff_of_true hline (.inl hline)

theorem Programmed.vector (h : p.Programmed 32 40) {line : ℕ} (hline : line < 16) :
    p.vector line = some (BitVec.ofNat 8 (32 + line)) := by
  unfold Pair.vector Chip.vector
  rw [h.master.icw2, h.slave.icw2, h.master.icw3, h.slave.icw3]
  revert line
  decide

/-- Whatever state the controllers were left in, after `irq_init` and any calls the sixteen lines have
their own vectors from 32 on, and exactly those are masked whose last call did not clear the mask. -/
theorem irqInit_calls (p : Pair) (calls : List Call) :
    (∀ line < 16, (calls.foldl Pair.call p.irqInit).vector line = some (BitVec.ofNat 8 (32 + line))) ∧
      ∀ line < 16, (calls.foldl Pair.call p.irqInit).masked line = true ↔
        line ∈ calls.foldl Call.maskedLines (Finset.range 16) := by
  have hmasks := p.irqInit_masks.calls calls
  constructor
  · intro line hline
    exact hmasks.programmed.vector hline
  · exact hmasks.masked

end Pair

end Mcincos.Pic
