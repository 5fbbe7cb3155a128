import Mcincos.Pmm.FreeSet

namespace Mcincos.Pmm

variable {bytes k0 k1 : U64} {memmap : List MemmapEntry} {e : MemmapEntry}

def NoOverflow (memmap : List MemmapEntry) : Prop :=
  ∀ e ∈ memmap, e.type = .usable →
    e.base.toNat + e.length.toNat < 2 ^ 64 ∧ e.base.toNat ≤ 2 ^ 64 - 4096

instance (memmap : List MemmapEntry) : Decidable (NoOverflow memmap) :=
  inferInstanceAs (Decidable (∀ e ∈ memmap, _))

def regionLow (e : MemmapEntry) : ℕ := (e.base.toNat + 4095) / 4096 * 4096

def regionHigh (e : MemmapEntry) : ℕ := (e.base.toNat + e.length.toNat) / 4096 * 4096

def topSlot (bytes : U64) (e : MemmapEntry) : ℕ := (regionHigh e - bytes.toNat) / 4096 * 4096

def Apart (lo hi : ℕ) (k0 k1 : U64) : Prop := hi ≤ k0.toNat ∨ k1.toNat ≤ lo

def Qualifies (bytes k0 k1 : U64) (e : MemmapEntry) : Prop :=
  e.type = .usable ∧ regionLow e + bytes.toNat ≤ regionHigh e ∧
    Apart (topSlot bytes e) (topSlot bytes e + bytes.toNat) k0 k1

instance (lo hi : ℕ) (k0 k1 : U64) : Decidable (Apart lo hi k0 k1) :=
  inferInstanceAs (Decidable (_ ∨ _))

instance (bytes k0 k1 : U64) (e : MemmapEntry) : Decidable (Qualifies bytes k0 k1 e) :=
  inferInstanceAs (Decidable (_ ∧ _))

theorem apart_iff {lo hi : ℕ} (h : lo < hi) (hk : k0 < k1) :
    Apart lo hi k0 k1 ↔ Disjoint (Set.Ico lo hi) (Set.Ico k0.toNat k1.toNat) := by
  rw [BitVec.lt_def] at hk
  rw [Set.Ico_disjoint_Ico, Apart]
  omega

theorem qualifies_iff (hbytes : bytes ≠ 0) (hk : k0 < k1) :
    Qualifies bytes k0 k1 e ↔ e.type = .usable ∧ regionLow e + bytes.toNat ≤ regionHigh e ∧
      Disjoint (Set.Ico (topSlot bytes e) (topSlot bytes e + bytes.toNat)) (Set.Ico k0.toNat k1.toNat) := by
  have hpos : 0 < bytes.toNat := by bv_omega
  rw [Qualifies, apart_iff (by omega) hk]

theorem toNat_regionStart (he : e.base.toNat ≤ 2 ^ 64 - 4096) :
    (alignUp e.base pageSize).toNat = regionLow e := toNat_alignUp e.base he

theorem toNat_regionEnd (he : e.base.toNat + e.length.toNat < 2 ^ 64) :
    (alignDown (e.base + e.length) pageSize).toNat = regionHigh e := by
  rw [toNat_alignDown, BitVec.toNat_add, Nat.mod_eq_of_lt he, regionHigh]

theorem placeBitmapPhys_cons (hbytes : bytes ≠ 0) (hu : e.type = .usable)
    (hfits : e.base.toNat + e.length.toNat < 2 ^ 64) (hbase : e.base.toNat ≤ 2 ^ 64 - 4096) :
    (placeBitmapPhys bytes k0 k1 (e :: memmap)).toNat =
      if Qualifies bytes k0 k1 e then topSlot bytes e else (placeBitmapPhys bytes k0 k1 memmap).toNat := by
  have hpos : 0 < bytes.toNat := by bv_omega
  have hlow := toNat_regionStart hbase
  have hhigh := toNat_regionEnd hfits
  have hmax : regionHigh e < 2 ^ 64 := by rw [← hhigh]; exact BitVec.isLt _
  rw [placeBitmapPhys, if_neg (not_not.mpr hu)]
  generalize alignUp e.base pageSize = regionStart at hlow
  generalize alignDown (e.base + e.length) pageSize = regionEnd at hhigh
  dsimp only
  by_cases hroom : regionLow e + bytes.toNat ≤ regionHigh e
  · have hregion : regionStart < regionEnd := by rw [BitVec.lt_def]; omega
    have hsize : (regionEnd - regionStart).toNat = regionHigh e - regionLow e := by
      rw [BitVec.toNat_sub_of_le (BitVec.le_of_lt hregion), hlow, hhigh]
    have hslot : (alignDown (regionEnd - bytes) pageSize).toNat = topSlot bytes e := by
      rw [toNat_alignDown, BitVec.toNat_sub_of_le (by rw [BitVec.le_def]; omega), hhigh, topSlot]
    have hstop : (alignDown (regionEnd - bytes) pageSize + bytes).toNat = topSlot bytes e + bytes.toNat := by
      rw [BitVec.toNat_add, hslot]
      apply Nat.mod_eq_of_lt
      rw [topSlot]
      omega
    rw [if_neg (BitVec.not_le.mpr hregion), if_neg (by rw [gt_iff_lt, BitVec.lt_def]; omega)]
    have hover : rangesOverlap (alignDown (regionEnd - bytes) pageSize)
        (alignDown (regionEnd - bytes) pageSize + bytes) k0 k1 = true ↔ ¬Qualifies bytes k0 k1 e := by
      rw [rangesOverlap, Bool.and_eq_true, decide_eq_true_eq, decide_eq_true_eq, BitVec.lt_def,
        BitVec.lt_def, hslot, hstop, Qualifies, Apart]
      simp only [hu, hroom, true_and]
      omega
    by_cases hq : Qualifies bytes k0 k1 e
    · rw [if_pos hq, if_neg (mt hover.mp (not_not.mpr hq)), hslot]
    · rw [if_neg hq, if_pos (hover.mpr hq)]
  · rw [if_neg fun hq : Qualifies bytes k0 k1 e => hroom hq.2.1]
    by_cases hregion : regionEnd ≤ regionStart
    · rw [if_pos hregion]
    · have hsize : bytes > regionEnd - regionStart := by
        rw [gt_iff_lt, BitVec.lt_def, BitVec.toNat_sub_of_le (BitVec.le_of_lt (BitVec.not_le.mp hregion))]
        omega
      rw [if_neg hregion, if_pos hsize]

theorem placeBitmapPhys_eq_find? (hbytes : bytes ≠ 0) (hmap : NoOverflow memmap) :
    (placeBitmapPhys bytes k0 k1 memmap).toNat =
      ((memmap.find? (Qualifies bytes k0 k1 ·)).map (topSlot bytes)).getD 0 := by
  induction memmap with
  | nil => rfl
  | cons e es ih =>
    have hes := ih fun e' he' => hmap e' (List.mem_cons_of_mem e he')
    rw [List.find?_cons]
    by_cases hu : e.type = .usable
    · obtain ⟨hfits, hbase⟩ := hmap e (by simp) hu
      rw [placeBitmapPhys_cons hbytes hu hfits hbase, hes]
      by_cases hq : Qualifies bytes k0 k1 e <;> simp [hq]
    · have hq : ¬Qualifies bytes k0 k1 e := fun h => hu h.1
      rw [placeBitmapPhys, if_pos hu, hes]
      simp [hq]

/-- The slot starts at address 0: the entry does, and it has just the pages the bitmap needs. -/
def AtZero (bytes : U64) (e : MemmapEntry) : Prop :=
  e.base = 0 ∧ e.length.toNat / 4096 = (bytes.toNat + 4095) / 4096

instance (bytes : U64) (e : MemmapEntry) : Decidable (AtZero bytes e) :=
  inferInstanceAs (Decidable (_ ∧ _))

theorem Qualifies.topSlot_eq_zero (hbytes : bytes ≠ 0) (h : Qualifies bytes k0 k1 e) :
    topSlot bytes e = 0 ↔ AtZero bytes e := by
  have hroom := h.2.1
  have hpos : 0 < bytes.toNat := by bv_omega
  have hbase : e.base = 0 ↔ e.base.toNat = 0 := BitVec.toNat_inj.symm
  rw [regionLow, regionHigh] at hroom
  rw [topSlot, regionHigh, AtZero, hbase]
  omega

structure InSlot (bytes k0 k1 : U64) (memmap : List MemmapEntry) (start : U64) : Prop where
  aligned : 4096 ∣ start.toNat
  inside : ∃ e ∈ memmap, e.type = .usable ∧ e.base.toNat ≤ start.toNat ∧
    start.toNat + bytes.toNat ≤ e.base.toNat + e.length.toNat
  apart : Apart start.toNat (start.toNat + bytes.toNat) k0 k1

theorem InSlot.disjoint {start : U64} (h : InSlot bytes k0 k1 memmap start) (hbytes : bytes ≠ 0) (hk : k0 < k1) :
    Disjoint (Set.Ico start.toNat (start.toNat + bytes.toNat)) (Set.Ico k0.toNat k1.toNat) := by
  have hpos : 0 < bytes.toNat := by bv_omega
  exact (apart_iff (by omega) hk).mp h.apart

theorem Qualifies.inSlot {start : U64} (h : Qualifies bytes k0 k1 e) (he : e ∈ memmap)
    (hstart : start.toNat = topSlot bytes e) : InSlot bytes k0 k1 memmap start := by
  obtain ⟨hu, hroom, hapart⟩ := h
  constructor
  · exact ⟨_, hstart.trans (Nat.mul_comm _ _)⟩
  · refine ⟨e, he, hu, ?_⟩
    rw [regionLow, regionHigh] at hroom
    rw [hstart, topSlot, regionHigh]
    omega
  · rwa [hstart]

theorem pmmInit_eq_none_iff (b : BootInfo) :
    pmmInit b = none ↔ placeBitmapPhys (BitVec.ofNat 64 ((totalPages b.memmap + 7) / 8))
      (kernelPhysRange b).1 (kernelPhysRange b).2 b.memmap = 0 := by
  rw [pmmInit]
  dsimp only
  split_ifs with h
  · exact iff_of_true rfl h
  · exact iff_of_false (by simp) h

/-- What `pmm_init` relies on: the bitmap gets a slot wherever an entry qualifies. -/
def Finds (bytes k0 k1 : U64) (memmap : List MemmapEntry) : Prop :=
  let found := placeBitmapPhys bytes k0 k1 memmap
  ((∃ e ∈ memmap, Qualifies bytes k0 k1 e) → found ≠ 0 ∧ InSlot bytes k0 k1 memmap found) ∧
  (found = 0 → ∀ e ∈ memmap, ¬Qualifies bytes k0 k1 e)

theorem bitmap_placement (hbytes : bytes ≠ 0) (hmap : NoOverflow memmap) :
    (Finds bytes k0 k1 memmap ↔
      ∀ e, memmap.find? (Qualifies bytes k0 k1 ·) = some e → ¬AtZero bytes e) ∧
    (∀ b : BootInfo, pmmInit b = none ↔
      placeBitmapPhys (BitVec.ofNat 64 ((totalPages b.memmap + 7) / 8))
        (kernelPhysRange b).1 (kernelPhysRange b).2 b.memmap = 0) ∧
    (k0 < k1 →
      (∀ e, Qualifies bytes k0 k1 e ↔ e.type = .usable ∧ regionLow e + bytes.toNat ≤ regionHigh e ∧
        Disjoint (Set.Ico (topSlot bytes e) (topSlot bytes e + bytes.toNat)) (Set.Ico k0.toNat k1.toNat)) ∧
      ∀ start, InSlot bytes k0 k1 memmap start →
        Disjoint (Set.Ico start.toNat (start.toNat + bytes.toNat)) (Set.Ico k0.toNat k1.toNat)) := by
  refine ⟨?_, pmmInit_eq_none_iff, fun hk => ⟨fun _ => qualifies_iff hbytes hk, fun _ h => h.disjoint hbytes hk⟩⟩
  have hfound : (placeBitmapPhys bytes k0 k1 memmap).toNat =
      ((memmap.find? (Qualifies bytes k0 k1 ·)).map (topSlot bytes)).getD 0 :=
    placeBitmapPhys_eq_find? hbytes hmap
  have hzero : placeBitmapPhys bytes k0 k1 memmap = 0 ↔
      (placeBitmapPhys bytes k0 k1 memmap).toNat = 0 := BitVec.toNat_inj.symm
  rw [Finds]
  cases hfind : memmap.find? (Qualifies bytes k0 k1 ·) with
  | none =>
    have hnone : ∀ e ∈ memmap, ¬Qualifies bytes k0 k1 e := by
      intro e he
      simpa using List.find?_eq_none.mp hfind e he
    refine iff_of_true ⟨?_, fun _ => hnone⟩ (by simp)
    rintro ⟨e, he, hq⟩
    exact absurd hq (hnone e he)
  | some e =>
    have he : e ∈ memmap := List.mem_of_find?_eq_some hfind
    have hq : Qualifies bytes k0 k1 e := by simpa using List.find?_some hfind
    rw [hfind, Option.map_some, Option.getD_some] at hfound
    rw [hfound, hq.topSlot_eq_zero hbytes] at hzero
    constructor
    · rintro ⟨hfinds, -⟩ e' he' hz
      obtain rfl : e = e' := Option.some.inj he'
      exact (hfinds ⟨e, he, hq⟩).1 (hzero.mpr hz)
    · intro hall
      have hne : placeBitmapPhys bytes k0 k1 memmap ≠ 0 := fun h => hall e rfl (hzero.mp h)
      exact ⟨fun _ => ⟨hne, hq.inSlot he hfound⟩, fun h => absurd h hne⟩

def zeroBoot : BootInfo where
  hhdmOffset := 0xffff800000000000#64
  virtualBase := 0xffffffff80000000#64
  physicalBase := 0x200000#64
  kernelStart := 0xffffffff80000000#64
  kernelEnd := 0xffffffff80001800#64
  memmap := [⟨0x0#64, 0x1000#64, .usable⟩, ⟨0x1000#64, 0x9f000#64, .other 1#64⟩,
    ⟨0x100000#64, 0x400000#64, .usable⟩]

theorem bitmap_placement_smallBoot :
    placeBitmapPhys 1 (kernelPhysRange smallBoot).1 (kernelPhysRange smallBoot).2 smallBoot.memmap ≠ 0 := by
  have hmap : NoOverflow smallBoot.memmap := by decide
  have hfinds : Finds 1 (kernelPhysRange smallBoot).1 (kernelPhysRange smallBoot).2 smallBoot.memmap := by
    apply (bitmap_placement (by decide) hmap).1.mpr
    decide
  exact (hfinds.1 (by decide)).1

theorem bitmap_at_zero :
    NoOverflow zeroBoot.memmap ∧
    (∃ e ∈ zeroBoot.memmap, e.base ≠ 0 ∧ Qualifies (BitVec.ofNat 64 ((totalPages zeroBoot.memmap + 7) / 8))
      (kernelPhysRange zeroBoot).1 (kernelPhysRange zeroBoot).2 e) ∧
    (pmmInit zeroBoot).isNone ∧
    ¬Finds (BitVec.ofNat 64 ((totalPages zeroBoot.memmap + 7) / 8)) (kernelPhysRange zeroBoot).1
      (kernelPhysRange zeroBoot).2 zeroBoot.memmap := by
  have hzero : placeBitmapPhys (BitVec.ofNat 64 ((totalPages zeroBoot.memmap + 7) / 8))
      (kernelPhysRange zeroBoot).1 (kernelPhysRange zeroBoot).2 zeroBoot.memmap = 0 := by decide
  have hqualifies : ∃ e ∈ zeroBoot.memmap, e.base ≠ 0 ∧
      Qualifies (BitVec.ofNat 64 ((totalPages zeroBoot.memmap + 7) / 8))
        (kernelPhysRange zeroBoot).1 (kernelPhysRange zeroBoot).2 e := by decide
  refine ⟨by decide, hqualifies, ?_, ?_⟩
  · rw [(pmmInit_eq_none_iff zeroBoot).mpr hzero]
    rfl
  · rintro ⟨-, hnone⟩
    obtain ⟨e, he, -, hq⟩ := hqualifies
    exact hnone hzero e he hq

end Mcincos.Pmm
