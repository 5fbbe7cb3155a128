import Mcincos.Pmm.Marking

namespace Mcincos.Pmm

theorem maxPhys_le (maxp : U64) (e : MemmapEntry) :
    maxp ≤ maxPhys maxp e ∧ (e.type = .usable → e.base + e.length ≤ maxPhys maxp e) := by
  unfold maxPhys
  dsimp only
  split_ifs with hu hgt
  · exact ⟨BitVec.le_refl _, fun h => absurd h hu⟩
  · exact ⟨BitVec.le_of_lt hgt, fun _ => BitVec.le_refl _⟩
  · exact ⟨BitVec.le_refl _, fun _ => BitVec.not_lt.mp hgt⟩

theorem foldl_maxPhys_le (memmap : List MemmapEntry) (a : U64) :
    a ≤ memmap.foldl maxPhys a ∧
      ∀ e ∈ memmap, e.type = .usable → e.base + e.length ≤ memmap.foldl maxPhys a := by
  induction memmap generalizing a with
  | nil => exact ⟨BitVec.le_refl a, by simp⟩
  | cons e es ih =>
    obtain ⟨hstep, hend⟩ := maxPhys_le a e
    obtain ⟨hacc, hes⟩ := ih (maxPhys a e)
    refine ⟨BitVec.le_trans hstep hacc, fun e' he' hu => ?_⟩
    obtain rfl | he' := List.mem_cons.mp he'
    · exact BitVec.le_trans (hend hu) hacc
    · exact hes e' he' hu

theorem le_findMaxPhys {memmap : List MemmapEntry} {e : MemmapEntry} (he : e ∈ memmap)
    (hu : e.type = .usable) : e.base + e.length ≤ findMaxPhys memmap :=
  (foldl_maxPhys_le memmap 0).2 e he hu

theorem foldl_maxPhys_mem (memmap : List MemmapEntry) (a : U64) :
    memmap.foldl maxPhys a = a ∨
      ∃ e ∈ memmap, e.type = .usable ∧ memmap.foldl maxPhys a = e.base + e.length := by
  induction memmap generalizing a with
  | nil => exact .inl rfl
  | cons e es ih =>
    rw [List.foldl_cons]
    obtain h | ⟨e', he', hu, h⟩ := ih (maxPhys a e)
    · rw [h, maxPhys]
      dsimp only
      split_ifs with hu hgt
      · exact .inl rfl
      · exact .inr ⟨e, by simp, not_not.mp hu, rfl⟩
      · exact .inl rfl
    · exact .inr ⟨e', List.mem_cons_of_mem e he', hu, h⟩

structure Placed (bytes kphys0 kphys1 start : U64) (e : MemmapEntry) : Prop where
  usable : e.type = .usable
  aligned : 4096 ∣ start.toNat
  above : (alignUp e.base pageSize).toNat ≤ start.toNat
  below : start.toNat + bytes.toNat ≤ (alignDown (e.base + e.length) pageSize).toNat
  disjoint : rangesOverlap start (start + bytes) kphys0 kphys1 = false

theorem placeBitmapPhys_placed (bytes kphys0 kphys1 : U64) (memmap : List MemmapEntry)
    (h : placeBitmapPhys bytes kphys0 kphys1 memmap ≠ 0) :
    ∃ e ∈ memmap, Placed bytes kphys0 kphys1 (placeBitmapPhys bytes kphys0 kphys1 memmap) e := by
  induction memmap with
  | nil => exact absurd rfl h
  | cons e es ih =>
    have hskip (hs : placeBitmapPhys bytes kphys0 kphys1 es ≠ 0) :
        ∃ e' ∈ e :: es, Placed bytes kphys0 kphys1 (placeBitmapPhys bytes kphys0 kphys1 es) e' := by
      obtain ⟨e', he', hp⟩ := ih hs
      exact ⟨e', List.mem_cons_of_mem e he', hp⟩
    rw [placeBitmapPhys] at h ⊢
    dsimp only at h ⊢
    split_ifs at h ⊢ with hu hregion hsize hoverlap
    · exact hskip h
    · exact hskip h
    · exact hskip h
    · exact hskip h
    · refine ⟨e, by simp, not_not.mp hu, ?_, ?_, ?_, by simpa using hoverlap⟩
      all_goals
        obtain ⟨lo, hlo⟩ := alignUp_dvd e.base
        have hhi := toNat_alignDown (e.base + e.length)
        have hstart := toNat_alignDown (alignDown (e.base + e.length) pageSize - bytes)
        rw [BitVec.le_def] at hregion
        rw [gt_iff_lt, BitVec.lt_def, BitVec.toNat_sub_of_le (by rw [BitVec.le_def]; omega)] at hsize
        rw [BitVec.toNat_sub_of_le (by rw [BitVec.le_def]; omega)] at hstart
        omega

theorem foldl_count (f : ℕ → Bool) (is : List ℕ) (n : ℕ) :
    is.foldl (fun freePages i => if f i then freePages + 1 else freePages) n = n + is.countP f := by
  induction is generalizing n with
  | nil => rfl
  | cons i is ih =>
    rw [List.foldl_cons, ih, List.countP_cons]
    split_ifs <;> omega

theorem countFree_eq (p : Pmm) :
    p.countFree = (List.range p.gTotalPages).countP (fun i => !p.bitmapTest i) := by
  rw [countFree, foldl_count, Nat.zero_add]

def LeftFree (b : BootInfo) (bmp : ℕ) (bytes : ℕ) (i : ℕ) : Prop :=
  (∃ e ∈ b.memmap, e.type = .usable ∧ Touched e i) ∧
  ¬((kernelPhysRange b).1.toNat / 4096 ≤ i ∧
    4096 * i < (alignUp (kernelPhysRange b).2 pageSize).toNat) ∧
  ¬PageMeets i bmp (bmp + bytes)

structure Initialised (b : BootInfo) (p : Pmm) (bmp : U64) (e : MemmapEntry) : Prop where
  total : p.gTotalPages = totalPages b.memmap
  virt : p.virtToPhys p.gBitmap = bmp
  mem : e ∈ b.memmap
  placed : Placed (BitVec.ofNat 64 p.bytes.length) (kernelPhysRange b).1 (kernelPhysRange b).2 bmp e
  test : ∀ i < p.gTotalPages, p.bitmapTest i = false ↔ LeftFree b bmp.toNat p.bytes.length i
  freeBytes : p.gFreeBytes.toNat =
    4096 * (List.range p.gTotalPages).countP (fun i => !p.bitmapTest i)

theorem filled_test (hhdm bmp : U64) (memmap : List MemmapEntry) {i : ℕ}
    (hi : i < totalPages memmap) : (filled hhdm bmp memmap).bitmapTest i = true := by
  have hbits : ∀ k < 8, (0xff#8).getLsbD k = true := by decide
  have hlt : i / 8 < (totalPages memmap + 7) / 8 := by omega
  rw [bitmapTest_eq, filled, List.getD_eq_getElem?_getD, List.getElem?_replicate_of_lt hlt]
  exact hbits _ (Nat.mod_lt _ (by omega))

theorem virtToPhys_bitmap {p q : Pmm} (h : SameSetup p q) (bmp : U64)
    (hp : p.gBitmap = bmp + p.gHhdm) : q.virtToPhys q.gBitmap = bmp := by
  rw [virtToPhys, hhdmOffset, h.hhdm, h.bitmap, hp, add_sub_cancel_right]

theorem markBitmap_test (q : Pmm) (bmp : U64) (n : ℕ) (hpos : 0 < n)
    (hfit : bmp.toNat + n ≤ 2 ^ 64 - 4096) {i : ℕ} (hi : i < q.gTotalPages) :
    (q.markRange bmp (BitVec.ofNat 64 n) true).bitmapTest i = false ↔
      ¬PageMeets i bmp.toNat (bmp.toNat + n) ∧ q.bitmapTest i = false := by
  have hn : (BitVec.ofNat 64 n).toNat = n := by rw [BitVec.toNat_ofNat]; omega
  have hend : (bmp + BitVec.ofNat 64 n).toNat = bmp.toNat + n := by
    rw [BitVec.toNat_add, hn]; omega
  rw [markRange_test, toNat_alignUp _ (by omega), hend, pageMeets_iff (by omega)]
  split_ifs with h
  · exact iff_of_false (by simp) (fun hc => hc.1 ⟨h.1, by omega⟩)
  · exact (and_iff_right fun hc => h ⟨hc.1, by omega, hi⟩).symm

theorem markKernel_test (q : Pmm) (k0 k1 : U64) {i : ℕ} (hi : i < q.gTotalPages) :
    (q.markRange k0 (k1 - k0) true).bitmapTest i = false ↔
      ¬(k0.toNat / 4096 ≤ i ∧ 4096 * i < (alignUp k1 pageSize).toNat) ∧ q.bitmapTest i = false := by
  rw [markRange_test, add_sub_cancel]
  split_ifs with h
  · exact iff_of_false (by simp) (fun hc => hc.1 ⟨h.1, h.2.1⟩)
  · exact (and_iff_right fun hc => h ⟨hc.1, hc.2, hi⟩).symm

theorem countFree_le (p : Pmm) : p.countFree ≤ p.gTotalPages := by
  rw [countFree_eq]
  simpa using List.countP_le_length (p := fun i => !p.bitmapTest i) (l := List.range p.gTotalPages)

theorem initBitmap_setup (b : BootInfo) (bmp n : U64) :
    SameSetup (filled b.hhdmOffset bmp b.memmap) (initBitmap b bmp n) :=
  ((freeEntries_setup _ b.memmap).trans (markRange_setup _ _ _ _)).trans (markRange_setup _ _ _ _)

theorem initBitmap_test (b : BootInfo) (bmp : U64) (n : ℕ) (hpos : 0 < n)
    (hfit : bmp.toNat + n ≤ 2 ^ 64 - 4096) {i : ℕ} (hi : i < totalPages b.memmap) :
    (initBitmap b bmp (BitVec.ofNat 64 n)).bitmapTest i = false ↔ LeftFree b bmp.toNat n i := by
  let p0 := filled b.hhdmOffset bmp b.memmap
  have h1 : SameSetup p0 (b.memmap.foldl freeEntry p0) := freeEntries_setup p0 b.memmap
  have h2 := h1.trans (markRange_setup _ (kernelPhysRange b).1
    ((kernelPhysRange b).2 - (kernelPhysRange b).1) true)
  rw [initBitmap, markBitmap_test _ bmp n hpos hfit (by rw [h2.total]; exact hi),
    markKernel_test _ _ _ (by rw [h1.total]; exact hi), freeEntries_test _ _ hi, filled_test _ _ _ hi]
  simp only [LeftFree, Bool.true_eq_false, or_false]
  tauto

theorem pmmInit_initialised (b : BootInfo) (p : Pmm) (h : pmmInit b = some p) :
    ∃ bmp e, Initialised b p bmp e := by
  rw [pmmInit] at h
  generalize hn : (totalPages b.memmap + 7) / 8 = n at h
  obtain ⟨bmp, hbmp⟩ : ∃ bmp, placeBitmapPhys (BitVec.ofNat 64 n) (kernelPhysRange b).1
      (kernelPhysRange b).2 b.memmap = bmp := ⟨_, rfl⟩
  simp only [hbmp] at h
  split_ifs at h with h0
  obtain ⟨e, he, hplaced⟩ := placeBitmapPhys_placed _ _ _ _ (hbmp ▸ h0)
  rw [hbmp] at hplaced
  injection h with h
  subst h
  let q := initBitmap b bmp (BitVec.ofNat 64 n)
  have hsetup : SameSetup (filled b.hhdmOffset bmp b.memmap) q := initBitmap_setup b bmp _
  have hbytes : q.bytes.length = n := by rw [q.sized, hsetup.total]; exact hn
  have hbound := totalPages_lt b.memmap
  have hfit : bmp.toNat + n ≤ 2 ^ 64 - 4096 := by
    have hbelow := hplaced.below
    rw [toNat_alignDown, BitVec.toNat_ofNat] at hbelow
    omega
  refine ⟨bmp, e, hsetup.total, ?_, he, ?_, ?_, ?_⟩
  · exact virtToPhys_bitmap hsetup bmp rfl
  · exact hbytes.symm ▸ hplaced
  · intro i hi
    have htotal : q.gTotalPages = totalPages b.memmap := hsetup.total
    have hi' : i < totalPages b.memmap := htotal ▸ hi
    change q.bitmapTest i = false ↔ LeftFree b bmp.toNat q.bytes.length i
    rw [hbytes]
    exact initBitmap_test b bmp n (by omega) hfit hi'
  · have hle := countFree_le q
    have hlt := q.bounded
    have hpage : pageSize.toNat = 4096 := rfl
    change (BitVec.ofNat 64 q.countFree * pageSize).toNat =
      4096 * (List.range q.gTotalPages).countP (fun i => !q.bitmapTest i)
    rw [← countFree_eq, BitVec.toNat_mul, BitVec.toNat_ofNat, hpage]
    omega

/-- What the boot protocol promises of the usable entries and of the kernel's own range. -/
structure Promised (b : BootInfo) : Prop where
  base : ∀ e ∈ b.memmap, e.type = .usable → 4096 ∣ e.base.toNat
  length : ∀ e ∈ b.memmap, e.type = .usable → 4096 ∣ e.length.toNat
  fits : ∀ e ∈ b.memmap, e.type = .usable → e.base.toNat + e.length.toNat ≤ 2 ^ 64 - 4096
  kernel : (kernelPhysRange b).1 < (kernelPhysRange b).2
  kernelFits : (kernelPhysRange b).2.toNat ≤ 2 ^ 64 - 4096

theorem Promised.toNat_end {b : BootInfo} (hb : Promised b) {e : MemmapEntry} (he : e ∈ b.memmap)
    (hu : e.type = .usable) : (e.base + e.length).toNat = e.base.toNat + e.length.toNat := by
  have := hb.fits e he hu
  rw [BitVec.toNat_add]
  omega

theorem Promised.touched_iff {b : BootInfo} (hb : Promised b) {e : MemmapEntry} (he : e ∈ b.memmap)
    (hu : e.type = .usable) (i : ℕ) :
    Touched e i ↔ PageInside i e.base.toNat (e.base.toNat + e.length.toNat) := by
  have hbase := hb.base e he hu
  have hlength := hb.length e he hu
  have hfits := hb.fits e he hu
  have hend := hb.toNat_end he hu
  rw [Touched, toNat_alignUp _ (by omega), hend, PageInside]
  omega

theorem Promised.kernel_iff {b : BootInfo} (hb : Promised b) (i : ℕ) :
    ((kernelPhysRange b).1.toNat / 4096 ≤ i ∧
        4096 * i < (alignUp (kernelPhysRange b).2 pageSize).toNat) ↔
      PageMeets i (kernelPhysRange b).1.toNat (kernelPhysRange b).2.toNat := by
  have hk := BitVec.lt_def.mp hb.kernel
  rw [toNat_alignUp _ hb.kernelFits, pageMeets_iff hk]
  omega

def InUsable (b : BootInfo) (i : ℕ) : Prop :=
  ∃ e ∈ b.memmap, e.type = .usable ∧ PageInside i e.base.toNat (e.base.toNat + e.length.toNat)

def Available (b : BootInfo) (bmp bytes i : ℕ) : Prop :=
  InUsable b i ∧
  ¬PageMeets i (kernelPhysRange b).1.toNat (kernelPhysRange b).2.toNat ∧
  ¬PageMeets i bmp (bmp + bytes)

theorem Promised.leftFree_iff {b : BootInfo} (hb : Promised b) (bmp bytes i : ℕ) :
    LeftFree b bmp bytes i ↔ Available b bmp bytes i := by
  rw [LeftFree, Available, InUsable, hb.kernel_iff i]
  refine and_congr_left' ⟨?_, ?_⟩
  · rintro ⟨e, he, hu, ht⟩
    exact ⟨e, he, hu, (hb.touched_iff he hu i).mp ht⟩
  · rintro ⟨e, he, hu, ht⟩
    exact ⟨e, he, hu, (hb.touched_iff he hu i).mpr ht⟩

theorem Promised.covers {b : BootInfo} (hb : Promised b) {e : MemmapEntry} (he : e ∈ b.memmap)
    (hu : e.type = .usable) : e.base.toNat + e.length.toNat ≤ 4096 * totalPages b.memmap := by
  have hmax : (findMaxPhys b.memmap).toNat ≤ 2 ^ 64 - 4096 := by
    obtain h | ⟨e', he', hu', h⟩ := foldl_maxPhys_mem b.memmap 0
    · rw [findMaxPhys, h]
      decide
    · rw [findMaxPhys, h, hb.toNat_end he' hu']
      exact hb.fits e' he' hu'
  have hle := BitVec.le_def.mp (le_findMaxPhys he hu)
  have htotal : totalPages b.memmap = (alignUp (findMaxPhys b.memmap) pageSize).toNat / 4096 :=
    BitVec.toNat_udiv
  rw [hb.toNat_end he hu] at hle
  rw [htotal, toNat_alignUp _ hmax]
  omega

theorem Initialised.storage {b : BootInfo} {p : Pmm} {bmp : U64} {e : MemmapEntry}
    (h : Initialised b p bmp e) (hb : Promised b) :
    e.base.toNat ≤ bmp.toNat ∧ bmp.toNat + p.bytes.length ≤ e.base.toNat + e.length.toNat := by
  have habove := h.placed.above
  have hbelow := h.placed.below
  have hfits := hb.fits e h.mem h.placed.usable
  have hlt := p.bounded
  have hsized := p.sized
  rw [toNat_alignUp _ (by omega)] at habove
  rw [toNat_alignDown, hb.toNat_end h.mem h.placed.usable, BitVec.toNat_ofNat] at hbelow
  omega

theorem Initialised.disjoint {b : BootInfo} {p : Pmm} {bmp : U64} {e : MemmapEntry}
    (h : Initialised b p bmp e) :
    ∀ x, ¬(bmp.toNat ≤ x ∧ x < bmp.toNat + p.bytes.length ∧
      (kernelPhysRange b).1.toNat ≤ x ∧ x < (kernelPhysRange b).2.toNat) := by
  have hbelow := h.placed.below
  have hover := h.placed.disjoint
  have hlt := p.bounded
  have hsized := p.sized
  rw [toNat_alignDown, BitVec.toNat_ofNat] at hbelow
  simp only [rangesOverlap, Bool.and_eq_false_iff, decide_eq_false_iff_not, BitVec.lt_def,
    BitVec.toNat_add, BitVec.toNat_ofNat] at hover
  omega

theorem pmmInit_freeSet (b : BootInfo) (hb : Promised b) (p : Pmm) (h : pmmInit b = some p) :
    let bmp := (p.virtToPhys p.gBitmap).toNat
    (∀ i < p.gTotalPages, p.bitmapTest i = false ↔ Available b bmp p.bytes.length i) ∧
    (∀ e ∈ b.memmap, e.type = .usable →
      e.base.toNat + e.length.toNat ≤ 4096 * p.gTotalPages) ∧
    (∃ e ∈ b.memmap, e.type = .usable ∧ e.base.toNat ≤ bmp ∧
      bmp + p.bytes.length ≤ e.base.toNat + e.length.toNat) ∧
    (∀ x, ¬(bmp ≤ x ∧ x < bmp + p.bytes.length ∧
      (kernelPhysRange b).1.toNat ≤ x ∧ x < (kernelPhysRange b).2.toNat)) ∧
    p.gFreeBytes.toNat = 4096 * (List.range p.gTotalPages).countP (fun i => !p.bitmapTest i) := by
  obtain ⟨bmp, e, hinit⟩ := pmmInit_initialised b p h
  dsimp only
  rw [hinit.virt]
  refine ⟨fun i hi => ?_, fun e' he' hu => ?_, ?_, hinit.disjoint, hinit.freeBytes⟩
  · rw [hinit.test i hi, hb.leftFree_iff]
  · rw [hinit.total]
    exact hb.covers he' hu
  · exact ⟨e, hinit.mem, hinit.placed.usable, hinit.storage hb⟩

def smallBoot : BootInfo where
  hhdmOffset := 0xffff800000000000#64
  virtualBase := 0xffffffff80000000#64
  physicalBase := 0x2000#64
  kernelStart := 0xffffffff80000000#64
  kernelEnd := 0xffffffff80001800#64
  memmap := [⟨0x0#64, 0x1000#64, .other 1#64⟩, ⟨0x1000#64, 0x6000#64, .usable⟩]

theorem smallBoot_promised : Promised smallBoot where
  base := by decide
  length := by decide
  fits := by decide
  kernel := by decide
  kernelFits := by decide

theorem pmmInit_freeSet_smallBoot : ∃ p, pmmInit smallBoot = some p ∧
    ∀ i < p.gTotalPages, p.bitmapTest i = false ↔
      Available smallBoot (p.virtToPhys p.gBitmap).toNat p.bytes.length i := by
  obtain ⟨p, hp⟩ := Option.isSome_iff_exists.mp (by decide +kernel : (pmmInit smallBoot).isSome)
  exact ⟨p, hp, (pmmInit_freeSet smallBoot smallBoot_promised p hp).1⟩

end Mcincos.Pmm
