import Mcincos.Library.BitFields
import Mcincos.Library.Words

namespace Mcincos.Descriptors

open BitFields

abbrev Gdt := Fin 7 → U64

def gdtTss : Fin 7 := 5
def gdtTssHi : Fin 7 := 6

def gdtAccessTss : U64 := 0x89

def gdtEntry (base limit : BitVec 32) (access flags : BitVec 8) : U64 :=
  0#64 ||| (limit &&& 0xffff).setWidth 64 ||| (base &&& 0xffff).setWidth 64 <<< 16 |||
    (base >>> 16 &&& 0xff).setWidth 64 <<< 32 ||| access.setWidth 64 <<< 40 |||
    (limit >>> 16 &&& 0x0f).setWidth 64 <<< 48 ||| (flags &&& 0xf0).setWidth 64 <<< 48 |||
    (base >>> 24 &&& 0xff).setWidth 64 <<< 56

def gdtSetTss (gdt : Gdt) (base : U64) (limit : BitVec 32) : Gdt :=
  let low := 0#64 ||| (limit &&& 0xffff).setWidth 64 ||| (base &&& 0xffff) <<< 16 |||
    (base >>> 16 &&& 0xff) <<< 32 ||| gdtAccessTss <<< 40 ||| (limit >>> 16 &&& 0x0f).setWidth 64 <<< 48 |||
    (base >>> 24 &&& 0xff) <<< 56
  let high := base >>> 32
  Function.update (Function.update gdt gdtTss low) gdtTssHi high

structure IdtEntry where
  offsetLow : BitVec 16
  selector : BitVec 16
  ist : BitVec 8
  typeAttr : BitVec 8
  offsetMid : BitVec 16
  offsetHigh : BitVec 32
  zero : BitVec 32

abbrev Idt := BitVec 8 → IdtEntry

def gdtSel (idx rpl : BitVec 32) : BitVec 16 := (idx <<< 3 ||| rpl).setWidth 16

def kernelCs : BitVec 16 := gdtSel 1 0

def idtSetGate (idt : Idt) (vec : BitVec 8) (isr : U64) (typeAttr ist : BitVec 8) : Idt :=
  Function.update idt vec
    { offsetLow := (isr &&& 0xffff).setWidth 16
      selector := kernelCs
      ist := ist &&& 0x7
      typeAttr := typeAttr
      offsetMid := (isr >>> 16 &&& 0xffff).setWidth 16
      offsetHigh := (isr >>> 32 &&& 0xffffffff).setWidth 32
      zero := 0 }

/-- The sixteen bytes of the packed structure as one number, the first byte lowest. -/
def IdtEntry.bits (e : IdtEntry) : BitVec 128 :=
  place 128 0 e.offsetLow ||| place 128 16 e.selector ||| place 128 32 e.ist ||| place 128 40 e.typeAttr |||
    place 128 48 e.offsetMid ||| place 128 64 e.offsetHigh ||| place 128 96 e.zero

structure SegmentDescriptor where
  base : BitVec 32
  limit : BitVec 20
  access : BitVec 8
  flags : BitVec 4

def SegmentDescriptor.decode (d : U64) : SegmentDescriptor where
  base := d.extractLsb' 56 8 ++ d.extractLsb' 32 8 ++ d.extractLsb' 16 16
  limit := d.extractLsb' 48 4 ++ d.extractLsb' 0 16
  access := d.extractLsb' 40 8
  flags := d.extractLsb' 52 4

structure TssDescriptor where
  base : U64
  limit : BitVec 20
  access : BitVec 8
  flags : BitVec 4
  reserved : BitVec 32

def TssDescriptor.decode (low high : U64) : TssDescriptor where
  base := high.extractLsb' 0 32 ++ low.extractLsb' 56 8 ++ low.extractLsb' 32 8 ++ low.extractLsb' 16 16
  limit := low.extractLsb' 48 4 ++ low.extractLsb' 0 16
  access := low.extractLsb' 40 8
  flags := low.extractLsb' 52 4
  reserved := high.extractLsb' 32 32

structure Gate where
  offset : U64
  selector : BitVec 16
  ist : BitVec 3
  typeAttr : BitVec 8
  reserved : BitVec 5
  reservedHigh : BitVec 32

def Gate.decode (d : BitVec 128) : Gate where
  offset := d.extractLsb' 64 32 ++ d.extractLsb' 48 16 ++ d.extractLsb' 0 16
  selector := d.extractLsb' 16 16
  ist := d.extractLsb' 32 3
  typeAttr := d.extractLsb' 40 8
  reserved := d.extractLsb' 35 5
  reservedHigh := d.extractLsb' 96 32

theorem limit_low (limit : BitVec 32) :
    (limit &&& 0xffff).setWidth 64 = place 64 0 (limit.extractLsb' 0 16) := by
  rw [← BitVec.shiftLeft_zero ((limit &&& 0xffff).setWidth 64)]
  exact mask_low limit 16 0

theorem limit_high (limit : BitVec 32) :
    (limit >>> 16 &&& 0x0f).setWidth 64 <<< 48 = place 64 48 (limit.extractLsb' 16 4) :=
  mask_shift limit 16 4 48

theorem gdtEntry_places (base limit : BitVec 32) (access flags : BitVec 8) :
    gdtEntry base limit access flags =
      place 64 0 (limit.extractLsb' 0 16) ||| place 64 16 (base.extractLsb' 0 16) |||
        place 64 32 (base.extractLsb' 16 8) ||| place 64 40 access |||
        place 64 48 (limit.extractLsb' 16 4) ||| place 64 52 (flags.extractLsb' 4 4) |||
        place 64 56 (base.extractLsb' 24 8) := by
  have hflags : (flags &&& 0xf0).setWidth 64 <<< 48 = place 64 52 (flags.extractLsb' 4 4) := by
    revert flags
    decide
  have hbaseLow : (base &&& 0xffff).setWidth 64 <<< 16 = place 64 16 (base.extractLsb' 0 16) :=
    mask_low base 16 16
  have hbaseMid : (base >>> 16 &&& 0xff).setWidth 64 <<< 32 = place 64 32 (base.extractLsb' 16 8) :=
    mask_shift base 16 8 32
  have hbaseHigh : (base >>> 24 &&& 0xff).setWidth 64 <<< 56 = place 64 56 (base.extractLsb' 24 8) :=
    mask_shift base 24 8 56
  rw [gdtEntry, BitVec.zero_or, limit_low, limit_high, hbaseLow, hbaseMid, hbaseHigh, hflags]
  rfl

theorem gather_limit (limit : BitVec 20) : limit.extractLsb' 16 4 ++ limit.extractLsb' 0 16 = limit := by
  rw [gather]
  · exact BitVec.extractLsb'_eq_self
  · rfl

theorem gdtEntry_decode (base : BitVec 32) (limit : BitVec 20) (access flags : BitVec 8) :
    SegmentDescriptor.decode (gdtEntry base (limit.setWidth 32) access flags) =
      ⟨base, limit, access, flags.extractLsb' 4 4⟩ := by
  have hbase : base.extractLsb' 24 8 ++ base.extractLsb' 16 8 ++ base.extractLsb' 0 16 = base := by
    rw [gather, gather]
    · exact BitVec.extractLsb'_eq_self
    · rfl
    · rfl
  rw [gdtEntry_places, SegmentDescriptor.decode]
  simp (disch := omega) only [BitVec.extractLsb'_or, extract_place, extract_place_apart, BitVec.or_zero,
    BitVec.zero_or, BitVec.extractLsb'_setWidth_of_le]
  rw [hbase, gather_limit]

def tssLow (base : U64) (limit : BitVec 32) : U64 :=
  place 64 0 (limit.extractLsb' 0 16) ||| place 64 16 (base.extractLsb' 0 16) |||
    place 64 32 (base.extractLsb' 16 8) ||| place 64 40 0x89#8 ||| place 64 48 (limit.extractLsb' 16 4) |||
    place 64 56 (base.extractLsb' 24 8)

theorem gdtSetTss_low (gdt : Gdt) (base : U64) (limit : BitVec 32) :
    gdtSetTss gdt base limit gdtTss = tssLow base limit := by
  have hbaseLow : (base &&& 0xffff) <<< 16 = place 64 16 (base.extractLsb' 0 16) := by
    rw [← mask_low, BitVec.setWidth_eq]
    rfl
  have hbaseMid : (base >>> 16 &&& 0xff) <<< 32 = place 64 32 (base.extractLsb' 16 8) := by
    rw [← mask_shift, BitVec.setWidth_eq]
    rfl
  have hbaseHigh : (base >>> 24 &&& 0xff) <<< 56 = place 64 56 (base.extractLsb' 24 8) := by
    rw [← mask_shift, BitVec.setWidth_eq]
    rfl
  have haccess : gdtAccessTss <<< 40 = place 64 40 0x89#8 := rfl
  have hne : gdtTss ≠ gdtTssHi := by decide
  rw [gdtSetTss, Function.update_of_ne hne, Function.update_self]
  rw [BitVec.zero_or, limit_low, limit_high, hbaseLow, hbaseMid, hbaseHigh, haccess]
  rfl

theorem gdtSetTss_high (gdt : Gdt) (base : U64) (limit : BitVec 32) :
    gdtSetTss gdt base limit gdtTssHi = place 64 0 (base.extractLsb' 32 32) := by
  rw [gdtSetTss, Function.update_self]
  exact shift_place base (by omega)

theorem gdtSetTss_decode (gdt : Gdt) (base : U64) (limit : BitVec 20) :
    TssDescriptor.decode (gdtSetTss gdt base (limit.setWidth 32) gdtTss)
      (gdtSetTss gdt base (limit.setWidth 32) gdtTssHi) = ⟨base, limit, 0x89, 0, 0⟩ := by
  have hbase : base.extractLsb' 32 32 ++ base.extractLsb' 24 8 ++ base.extractLsb' 16 8 ++
      base.extractLsb' 0 16 = base := by
    rw [gather, gather, gather]
    · exact BitVec.extractLsb'_eq_self
    · rfl
    · rfl
    · rfl
  rw [gdtSetTss_low, gdtSetTss_high, tssLow, TssDescriptor.decode]
  simp (disch := omega) only [BitVec.extractLsb'_or, extract_place, extract_place_apart, BitVec.or_zero,
    BitVec.zero_or, BitVec.extractLsb'_setWidth_of_le]
  rw [hbase, gather_limit]
  rfl

theorem gdtSetTss_kept (gdt : Gdt) (base : U64) (limit : BitVec 32) {i : Fin 7} (hlow : i ≠ gdtTss)
    (hhigh : i ≠ gdtTssHi) : gdtSetTss gdt base limit i = gdt i := by
  rw [gdtSetTss, Function.update_of_ne hhigh, Function.update_of_ne hlow]

theorem idtSetGate_decode (idt : Idt) (vec : BitVec 8) (isr : U64) (typeAttr : BitVec 8) (ist : BitVec 3) :
    Gate.decode (idtSetGate idt vec isr typeAttr (ist.setWidth 8) vec).bits =
      ⟨isr, kernelCs, ist, typeAttr, 0, 0⟩ := by
  have hlow : (isr &&& 0xffff).setWidth 16 = isr.extractLsb' 0 16 := by
    have hmask := extract_mask isr 0 16
    rw [BitVec.ushiftRight_zero] at hmask
    exact hmask
  have hmid : (isr >>> 16 &&& 0xffff).setWidth 16 = isr.extractLsb' 16 16 := extract_mask isr 16 16
  have hhigh : (isr >>> 32 &&& 0xffffffff).setWidth 32 = isr.extractLsb' 32 32 := extract_mask isr 32 32
  have hist : (place 128 32 (ist.setWidth 8 &&& 7)).extractLsb' 32 3 = ist := by
    rw [extract_place_from le_rfl (by omega)]
    revert ist
    decide
  have hreserved : (place 128 32 (ist.setWidth 8 &&& 7)).extractLsb' 35 5 = 0 := by
    rw [extract_place_from (by omega) (by omega)]
    revert ist
    decide
  have hoffset : isr.extractLsb' 32 32 ++ isr.extractLsb' 16 16 ++ isr.extractLsb' 0 16 = isr := by
    rw [gather, gather]
    · exact BitVec.extractLsb'_eq_self
    · rfl
    · rfl
  rw [idtSetGate, Function.update_self, Gate.decode, IdtEntry.bits, hlow, hmid, hhigh]
  simp (disch := omega) only [BitVec.extractLsb'_or, extract_place, extract_place_apart, hist, hreserved,
    BitVec.or_zero, BitVec.zero_or]
  rw [hoffset]

/-- What the processor decodes is what the encoders were called with. -/
theorem descriptors_decode :
    (∀ base limit access flags, SegmentDescriptor.decode (gdtEntry base (limit.setWidth 32) access flags) =
      ⟨base, limit, access, flags.extractLsb' 4 4⟩) ∧
    (∀ gdt base limit, TssDescriptor.decode (gdtSetTss gdt base (limit.setWidth 32) gdtTss)
      (gdtSetTss gdt base (limit.setWidth 32) gdtTssHi) = ⟨base, limit, 0x89, 0, 0⟩) ∧
    ∀ idt vec isr typeAttr ist, Gate.decode (idtSetGate idt vec isr typeAttr (ist.setWidth 8) vec).bits =
        ⟨isr, kernelCs, ist, typeAttr, 0, 0⟩ ∧
      ∀ other ≠ vec, idtSetGate idt vec isr typeAttr (ist.setWidth 8) other = idt other := by
  refine ⟨gdtEntry_decode, gdtSetTss_decode, ?_⟩
  intro idt vec isr typeAttr ist
  constructor
  · exact idtSetGate_decode idt vec isr typeAttr ist
  · intro other hother
    exact Function.update_of_ne hother _ _

end Mcincos.Descriptors
