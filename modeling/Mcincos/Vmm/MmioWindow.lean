import Mcincos.Library.Writes
import Mcincos.Vmm.Leaves

namespace Mcincos

open Words Writes

def framesOf (phys size : U64) : Set ℕ :=
  Set.Icc (phys.toNat / 4096) ((phys.toNat + size.toNat - 1) / 4096)

def imagePage (hhdmOffset : U64) (f : ℕ) : BitVec 36 :=
  pageOf (BitVec.ofNat 64 (4096 * f) + hhdmOffset)

structure MmioRange (hhdmOffset phys size : U64) : Prop where
  aligned : 4096 ∣ hhdmOffset.toNat
  nonempty : 1 ≤ size.toNat
  whole : (phys.toNat + size.toNat + 4095) / 4096 * 4096 < 2 ^ 64
  upper : 0xffff800000000000 ≤ (Vm.alignDown phys + hhdmOffset).toNat
  below : (Vm.alignDown phys + hhdmOffset).toNat +
    ((Vm.mmioAlignUp (phys + size)).toNat - (Vm.alignDown phys).toNat) < 2 ^ 64

variable {s s' s'' : Vm} {r n : ℕ} {v p : U64}

def pageAt (v : U64) (j : ℕ) : U64 := v + BitVec.ofNat 64 (4096 * j)

theorem pageAt_zero (v : U64) : pageAt v 0 = v := BitVec.add_zero v

theorem pageAt_succ (v : U64) (j : ℕ) : pageAt (v + pageSize) j = pageAt v (j + 1) := by
  have hpage : pageSize = BitVec.ofNat 64 4096 := rfl
  rw [pageAt, pageAt, hpage, BitVec.add_assoc, ← BitVec.ofNat_add]
  congr 2
  omega

theorem toNat_pageAt (v : U64) (j : ℕ) : (pageAt v j).toNat = (v.toNat + 4096 * j) % 2 ^ 64 := by
  rw [pageAt, BitVec.toNat_add, BitVec.toNat_ofNat]
  omega

theorem pageOf_pageAt_eq (v : U64) (i j : ℕ) :
    pageOf (pageAt v i) = pageOf (pageAt v j) ↔ i % 2 ^ 36 = j % 2 ^ 36 := by
  rw [← BitVec.toNat_inj, toNat_pageOf, toNat_pageOf, toNat_pageAt, toNat_pageAt]
  omega

structure Rewritten (r : ℕ) (s s' : Vm) (v : U64) (n : ℕ) (entry : ℕ → Option U64) : Prop where
  grows : Grows r s s'
  inside : ∀ j < n, ∀ va, pageOf va = pageOf (pageAt v j) → leafAt s' r va = entry j
  outside : ∀ va, (∀ j < n, pageOf va ≠ pageOf (pageAt v j)) → leafAt s' r va = leafAt s r va

variable {entry : ℕ → Option U64}

theorem Rewritten.refl (hs : s.Inv {r}) : Rewritten r s s v 0 entry :=
  ⟨.refl hs, fun _ hj => absurd hj (Nat.not_lt_zero _), fun _ _ => rfl⟩

theorem Rewritten.cons (hgrows : Grows r s s') (hleaf : ∀ va, leafAt s' r va =
    if pageOf va = pageOf v then entry 0 else leafAt s r va)
    (h : Rewritten r s' s'' (v + pageSize) n (fun j => entry (j + 1))) (hn : n < 2 ^ 36) :
    Rewritten r s s'' v (n + 1) entry where
  grows := hgrows.trans h.grows
  inside := by
    intro j hj va hva
    cases j with
    | zero =>
      rw [pageAt_zero] at hva
      rw [h.outside va, hleaf, if_pos hva]
      intro i hi
      rw [hva, pageAt_succ]
      have hfirst := (pageOf_pageAt_eq v 0 (i + 1)).not.mpr (by omega)
      rwa [pageAt_zero] at hfirst
    | succ j =>
      apply h.inside j (Nat.lt_of_succ_lt_succ hj)
      rw [pageAt_succ, hva]
  outside := by
    intro va hva
    have h0 := hva 0 n.succ_pos
    rw [pageAt_zero] at h0
    rw [h.outside va, hleaf, if_neg h0]
    intro j hj
    rw [pageAt_succ]
    exact hva (j + 1) (Nat.succ_lt_succ hj)

theorem mapPage_failed (hs : s.Inv {r}) (hr : frameOf cr3 = r) {virt flags : U64} {rc : Int}
    (h : s.mapPage cr3 virt phys flags = (s', rc)) (hrc : rc ≠ 0) :
    Grows r s s' ∧ ∀ va, leafAt s' r va = leafAt s r va := by
  subst hr
  constructor
  · obtain ⟨hchange, hcr3⟩ := mapPage_change hs rfl virt phys flags
    rw [h] at hchange hcr3
    exact hchange.grows hcr3
  · intro va
    obtain ⟨t, he, hx, -⟩ | ⟨s1, t, pt, he, -⟩ := mapPage_spec hs rfl virt phys flags
    · obtain ⟨rfl, -⟩ := Prod.mk.inj (he.symm.trans h)
      exact hx.leaf _ rfl _ rfl
    · exact absurd (Prod.mk.inj (he.symm.trans h)).2.symm hrc

def mappedLeaf (flags p v : U64) (va : U64) (old : Option U64) (k : ℕ) : Option U64 :=
  written (fun j => pageOf (pageAt v j)) (fun j => some (leafEntry (pageAt p j) flags)) (pageOf va) old k

theorem mappedLeaf_front (flags p v va : U64) (old : Option U64) (k : ℕ) :
    mappedLeaf flags (p + pageSize) (v + pageSize) va
      (if pageOf va = pageOf v then some (leafEntry p flags) else old) k =
        mappedLeaf flags p v va old (k + 1) := by
  rw [mappedLeaf, mappedLeaf, ← written_front]
  simp only [pageAt_succ, pageAt_zero, eq_comm]

theorem mmioMapLoop_leafAt {flags : U64} {ok : Bool} (hs : s.Inv {r}) (hr : frameOf s.cr3 = r)
    (h : Vm.mmioMapLoop flags n s p v = (s', ok)) : Grows r s s' ∧
      ∃ k ≤ n, (ok = true ↔ k = n) ∧
        ∀ va, leafAt s' r va = mappedLeaf flags p v va (leafAt s r va) k := by
  induction n generalizing s p v with
  | zero =>
    obtain ⟨rfl, rfl⟩ := Prod.mk.inj h
    exact ⟨.refl hs, 0, le_refl 0, iff_of_true rfl rfl, fun _ => rfl⟩
  | succ n ih =>
    rw [Vm.mmioMapLoop] at h
    cases hcall : s.vmmMapPageMmio v p flags with
    | mk s1 rc =>
      rw [hcall] at h
      dsimp only at h
      have hroot : frameOf (Vm.tableOf s.cr3) = r := (frameOf_tableOf s.cr3).trans hr
      by_cases hrc : rc = 0
      · subst hrc
        rw [if_neg (by decide)] at h
        obtain ⟨hgrows, hleaf⟩ := mapPage_leafAt hs hroot hcall
        obtain ⟨hrest, k, hk, hok, hleaf'⟩ := ih hgrows.inv ((congrArg frameOf hgrows.cr3).trans hr) h
        refine ⟨hgrows.trans hrest, k + 1, Nat.succ_le_succ hk, hok.trans Nat.succ_inj.symm, ?_⟩
        intro va
        rw [hleaf', hleaf, mappedLeaf_front]
      · rw [if_pos hrc] at h
        obtain ⟨rfl, rfl⟩ := Prod.mk.inj h
        obtain ⟨hgrows, hleaf⟩ := mapPage_failed hs hroot hcall hrc
        exact ⟨hgrows, 0, Nat.zero_le _, iff_of_false (by decide) (Nat.succ_ne_zero n).symm, hleaf⟩

theorem Rewritten.of_mapped {flags : U64} (hgrows : Grows r s s') (hn : n ≤ 2 ^ 36)
    (hleaf : ∀ va, leafAt s' r va = mappedLeaf flags p v va (leafAt s r va) n) :
    Rewritten r s s' v n fun j => some (leafEntry (pageAt p j) flags) where
  grows := hgrows
  inside := by
    intro j hj va hva
    rw [hleaf]
    apply written_last hj hva.symm
    intro i hji hin
    rw [hva, Ne, pageOf_pageAt_eq]
    omega
  outside := by
    intro va hva
    rw [hleaf]
    exact written_untouched fun j hj => (hva j hj).symm

theorem mmioUnmapLoop_rewritten (hs : s.Inv {r}) (hr : frameOf s.cr3 = r) (hn : n ≤ 2 ^ 36) :
    Rewritten r s (Vm.mmioUnmapLoop n s v) v n fun _ => none := by
  induction n generalizing s v with
  | zero => exact .refl hs
  | succ n ih =>
    obtain ⟨hgrows, hleaf⟩ := vmmUnmapPageCr3_leafAt hs ((frameOf_tableOf s.cr3).trans hr) v
    exact .cons hgrows hleaf (ih hgrows.inv ((congrArg frameOf hgrows.cr3).trans hr) (by omega)) hn

variable {hhdmOffset phys size : U64}

theorem toNat_mmioAlignUp {x : U64} (hx : x.toNat + 4095 < 2 ^ 64) :
    (Vm.mmioAlignUp x).toNat = (x.toNat + 4095) / 4096 * 4096 := by
  have hpage : pageSize - 1 = BitVec.ofNat 64 (2 ^ 12 - 1) := rfl
  rw [Vm.mmioAlignUp, hpage, toNat_and_not_low, BitVec.toNat_add]
  simp only [BitVec.toNat_ofNat]
  omega

def pagesIn (phys size : U64) : ℕ :=
  (phys.toNat + size.toNat - 1) / 4096 - phys.toNat / 4096 + 1

theorem mmioPages_eq (hsize : 1 ≤ size.toNat)
    (hwhole : (phys.toNat + size.toNat + 4095) / 4096 * 4096 < 2 ^ 64) :
    Vm.mmioPages (Vm.alignDown phys) (Vm.mmioAlignUp (phys + size)) = pagesIn phys size := by
  have hend : (phys + size).toNat = phys.toNat + size.toNat := by
    rw [BitVec.toNat_add]
    omega
  have hup : (Vm.mmioAlignUp (phys + size)).toNat = (phys.toNat + size.toNat + 4095) / 4096 * 4096 := by
    rw [toNat_mmioAlignUp (by omega), hend]
  rw [Vm.mmioPages, pagesIn, toNat_vmAlignDown, hup]
  omega

namespace MmioRange

theorem image_end (h : MmioRange hhdmOffset phys size) :
    (Vm.alignDown phys + hhdmOffset).toNat + 4096 * pagesIn phys size < 2 ^ 64 := by
  have hbelow := h.below
  have hpages := mmioPages_eq h.nonempty h.whole
  rw [Vm.mmioPages] at hpages
  have hup : (Vm.mmioAlignUp (phys + size)).toNat % 4096 = 0 := by
    have hend : (phys + size).toNat = phys.toNat + size.toNat := by
      have := h.whole
      rw [BitVec.toNat_add]
      omega
    have := h.whole
    rw [toNat_mmioAlignUp (by omega)]
    omega
  have hdown := toNat_vmAlignDown phys
  omega

theorem few_pages (h : MmioRange hhdmOffset phys size) : pagesIn phys size ≤ 2 ^ 36 := by
  have := h.image_end
  have := h.upper
  omega

theorem toNat_image (h : MmioRange hhdmOffset phys size) : (phys + hhdmOffset).toNat =
    (Vm.alignDown phys + hhdmOffset).toNat + phys.toNat % 4096 := by
  have hend := h.image_end
  have hpages : 1 ≤ pagesIn phys size := by
    rw [pagesIn]
    omega
  have hdown := toNat_vmAlignDown phys
  rw [BitVec.toNat_add] at hend
  rw [BitVec.toNat_add, BitVec.toNat_add]
  omega

theorem alignDown_image (h : MmioRange hhdmOffset phys size) :
    Vm.alignDown (phys + hhdmOffset) = Vm.alignDown phys + hhdmOffset := by
  have himage := h.toNat_image
  obtain ⟨k, hk⟩ := h.aligned
  apply BitVec.eq_of_toNat_eq
  rw [toNat_vmAlignDown, himage, BitVec.toNat_add, toNat_vmAlignDown, hk]
  omega

theorem image_aligned (h : MmioRange hhdmOffset phys size) :
    (Vm.alignDown phys + hhdmOffset).toNat % 4096 = 0 := by
  rw [← h.alignDown_image, toNat_vmAlignDown]
  omega

end MmioRange

theorem mem_framesOf {f : ℕ} (hsize : 1 ≤ size.toNat) :
    f ∈ framesOf phys size ↔ ∃ j < pagesIn phys size, f = phys.toNat / 4096 + j := by
  rw [framesOf, Set.mem_Icc, pagesIn]
  constructor
  · rintro ⟨hlow, hhigh⟩
    exact ⟨f - phys.toNat / 4096, by omega, by omega⟩
  · rintro ⟨j, hj, rfl⟩
    omega

theorem pageAt_alignDown (phys : U64) (j : ℕ) :
    pageAt (Vm.alignDown phys) j = BitVec.ofNat 64 (4096 * (phys.toNat / 4096 + j)) := by
  apply BitVec.eq_of_toNat_eq
  rw [toNat_pageAt, toNat_vmAlignDown, BitVec.toNat_ofNat]
  omega

theorem imagePage_eq (hhdmOffset phys : U64) (j : ℕ) : imagePage hhdmOffset (phys.toNat / 4096 + j) =
    pageOf (pageAt (Vm.alignDown phys + hhdmOffset) j) := by
  rw [imagePage, ← pageAt_alignDown, pageAt, pageAt, BitVec.add_assoc, BitVec.add_assoc,
    BitVec.add_comm hhdmOffset]

structure OnImage (hhdmOffset phys size : U64) (r : ℕ) (s s' : Vm) (entry : ℕ → Option U64) :
    Prop where
  grows : Grows r s s'
  inside : ∀ f ∈ framesOf phys size, ∀ va, pageOf va = imagePage hhdmOffset f →
    leafAt s' r va = entry f
  outside : ∀ va, (∀ f ∈ framesOf phys size, pageOf va ≠ imagePage hhdmOffset f) →
    leafAt s' r va = leafAt s r va

theorem Rewritten.onImage (hsize : 1 ≤ size.toNat)
    (h : Rewritten r s s' (Vm.alignDown phys + hhdmOffset) (pagesIn phys size)
      fun j => entry (phys.toNat / 4096 + j)) : OnImage hhdmOffset phys size r s s' entry where
  grows := h.grows
  inside := by
    intro f hf va hva
    obtain ⟨j, hj, rfl⟩ := (mem_framesOf hsize).mp hf
    rw [imagePage_eq] at hva
    exact h.inside j hj va hva
  outside := by
    intro va hva
    apply h.outside
    intro j hj
    rw [← imagePage_eq]
    exact hva _ ((mem_framesOf hsize).mpr ⟨j, hj, rfl⟩)

theorem image_start (hhdmOffset phys : U64) :
    Vm.alignDown phys + hhdmOffset + (phys - Vm.alignDown phys) = phys + hhdmOffset := by
  rw [BitVec.add_assoc, BitVec.add_comm hhdmOffset, ← BitVec.add_assoc,
    BitVec.add_comm (Vm.alignDown phys), BitVec.sub_add_cancel]

def loopPages (phys size : U64) : ℕ :=
  Vm.mmioPages (Vm.alignDown phys) (Vm.mmioAlignUp (phys + size))

theorem mmioMap_leafAt {opts : Option MmioOpts} (hs : s.Inv {r}) (hr : frameOf s.cr3 = r)
    (hsize : size ≠ 0) (h : s.mmioMap hhdmOffset phys size opts = (s', v)) : Grows r s s' ∧
      ∃ k ≤ loopPages phys size,
        (k = loopPages phys size ∧ v = phys + hhdmOffset ∨ k < loopPages phys size ∧ v = 0) ∧
        ∀ va, leafAt s' r va = mappedLeaf (Vm.mmioFlags (opts.getD Vm.mmioDef)) (Vm.alignDown phys)
          (Vm.alignDown phys + hhdmOffset) va (leafAt s r va) k := by
  rw [Vm.mmioMap, if_neg hsize] at h
  dsimp only at h
  generalize hloop : Vm.mmioMapLoop _ _ _ _ _ = result at h
  obtain ⟨s1, ok⟩ := result
  obtain ⟨hgrows, k, hk, hok, hleaf⟩ := mmioMapLoop_leafAt hs hr hloop
  cases ok with
  | true =>
    rw [if_pos rfl, image_start] at h
    obtain ⟨rfl, rfl⟩ := Prod.mk.inj h
    exact ⟨hgrows, k, hk, .inl ⟨hok.mp rfl, rfl⟩, hleaf⟩
  | false =>
    rw [if_neg Bool.false_ne_true] at h
    obtain ⟨rfl, rfl⟩ := Prod.mk.inj h
    refine ⟨hgrows, k, hk, .inr ⟨lt_of_le_of_ne hk ?_, rfl⟩, hleaf⟩
    exact fun he => Bool.false_ne_true (hok.mpr he)

def mmioLeaf (opts : Option MmioOpts) (f : ℕ) : U64 :=
  leafEntry (BitVec.ofNat 64 (4096 * f)) (Vm.mmioFlags (opts.getD Vm.mmioDef))

theorem mmioMap_onImage {opts : Option MmioOpts} (h : MmioRange hhdmOffset phys size) (hs : s.Inv {r})
    (hr : frameOf s.cr3 = r) (hmap : s.mmioMap hhdmOffset phys size opts = (s', v)) (hv : v ≠ 0) :
    v = phys + hhdmOffset ∧
      OnImage hhdmOffset phys size r s s' fun f => some (mmioLeaf opts f) := by
  have hsize : size ≠ 0 := by
    rintro rfl
    exact absurd h.nonempty (by decide)
  obtain ⟨hgrows, k, -, ⟨rfl, hend⟩ | ⟨-, hzero⟩, hleaf⟩ := mmioMap_leafAt hs hr hsize hmap
  · refine ⟨hend, Rewritten.onImage h.nonempty ?_⟩
    rw [loopPages, mmioPages_eq h.nonempty h.whole] at hleaf
    have hrewritten := Rewritten.of_mapped hgrows h.few_pages hleaf
    simp only [pageAt_alignDown] at hrewritten
    exact hrewritten
  · exact absurd hzero hv

theorem mmioUnmap_onImage (h : MmioRange hhdmOffset phys size) (hs : s.Inv {r})
    (hr : frameOf s.cr3 = r) :
    OnImage hhdmOffset phys size r s (s.mmioUnmap (phys + hhdmOffset) size) fun _ => none := by
  have hsize : size ≠ 0 := by
    rintro rfl
    exact absurd h.nonempty (by decide)
  have himage := h.toNat_image
  have hend := h.image_end
  have hfirst := h.image_aligned
  have hpages : Vm.mmioPages (Vm.alignDown phys + hhdmOffset)
      (Vm.mmioAlignUp (phys + hhdmOffset + size)) = pagesIn phys size := by
    rw [← h.alignDown_image, mmioPages_eq h.nonempty]
    · rw [pagesIn, pagesIn, himage]
      omega
    · rw [pagesIn] at hend
      omega
  rw [Vm.mmioUnmap, if_neg hsize]
  dsimp only
  rw [h.alignDown_image, hpages]
  exact (mmioUnmapLoop_rewritten hs hr h.few_pages).onImage h.nonempty

theorem mmioFlags_low (opts : MmioOpts) : Vm.mmioFlags opts &&& ~~~(0xfff#64 ||| pteNX) = 0 := by
  unfold Vm.mmioFlags
  split_ifs
  all_goals decide

theorem mmioLeaf_uncached (opts : Option MmioOpts) (f : ℕ) : mmioLeaf opts f &&& pteP ≠ 0 ∧
    mmioLeaf opts f &&& ptePCD ≠ 0 ∧ mmioLeaf opts f &&& ptePWT ≠ 0 := by
  have hbit {k : ℕ} (hk : k < 64) (hset : (ptePCD ||| ptePWT).getLsbD k = true) :
      (mmioLeaf opts f).getLsbD k = true := by
    rw [mmioLeaf, leafEntry_bit _ _ hk, Vm.mmioFlags, BitVec.getLsbD_or, hset]
    simp
  refine ⟨leafEntry_present _ _, ?_, ?_⟩
  · rw [Ne, ptePCD, and_one_shift_eq_zero _ 4 (by decide), hbit (by decide) (by decide)]
    decide
  · rw [Ne, ptePWT, and_one_shift_eq_zero _ 3 (by decide), hbit (by decide) (by decide)]
    decide

theorem cpuAddr_mmioLeaf (opts : Option MmioOpts) {f : ℕ} (hf : f < 2 ^ 40) :
    cpuAddr (mmioLeaf opts f) = BitVec.ofNat 64 (4096 * f) :=
  cpuAddr_leafEntry (mmioFlags_low (opts.getD Vm.mmioDef)) hf

namespace MmioRange

variable {k : U64}

theorem toNat_byte (h : MmioRange hhdmOffset phys size) (hk : k < size) :
    (phys + hhdmOffset + k).toNat =
      (Vm.alignDown phys + hhdmOffset).toNat + phys.toNat % 4096 + k.toNat := by
  have hk : k.toNat < size.toNat := BitVec.lt_def.mp hk
  have hend := h.image_end
  rw [pagesIn] at hend
  rw [BitVec.toNat_add, h.toNat_image]
  omega

theorem byte_mem (hk : k < size) : (phys.toNat + k.toNat) / 4096 ∈ framesOf phys size := by
  have hk : k.toNat < size.toNat := BitVec.lt_def.mp hk
  rw [framesOf, Set.mem_Icc]
  omega

theorem byte_page (h : MmioRange hhdmOffset phys size) (hk : k < size) :
    pageOf (phys + hhdmOffset + k) = imagePage hhdmOffset ((phys.toNat + k.toNat) / 4096) := by
  have hmem : (phys.toNat + k.toNat) / 4096 ∈ framesOf phys size := byte_mem hk
  have hva := h.toNat_byte hk
  have hfirst := h.image_aligned
  obtain ⟨j, hj, hf⟩ := (mem_framesOf h.nonempty).mp hmem
  apply BitVec.eq_of_toNat_eq
  rw [hf, imagePage_eq, toNat_pageOf, toNat_pageOf, toNat_pageAt, hva]
  omega

theorem byte_physical (h : MmioRange hhdmOffset phys size)
    (hphys : phys.toNat + size.toNat ≤ 2 ^ 52) (opts : Option MmioOpts) (hk : k < size) :
    cpuAddr (mmioLeaf opts ((phys.toNat + k.toNat) / 4096)) ||| (phys + hhdmOffset + k) &&& 0xfff#64 =
      phys + k := by
  have hva := h.toNat_byte hk
  have hfirst := h.image_aligned
  have hk : k.toNat < size.toNat := BitVec.lt_def.mp hk
  have hf : (phys.toNat + k.toNat) / 4096 < 2 ^ 40 := by
    omega
  have hsum : (phys + k).toNat = phys.toNat + k.toNat := by
    rw [BitVec.toNat_add]
    omega
  apply BitVec.eq_of_toNat_eq
  rw [cpuAddr_mmioLeaf opts hf, frame_or_offset hf, hva, hsum]
  omega

end MmioRange

/-- A window shows its range uncached, byte by byte, and is all that comes and goes. -/
theorem mmio_window (s : Vm) (hs : s.Inv {frameOf s.cr3}) (hhdmOffset phys size : U64)
    (opts : Option MmioOpts) (hrange : MmioRange hhdmOffset phys size)
    (hphys : phys.toNat + size.toNat ≤ 2 ^ 52) (s' s'' : Vm) (v : U64)
    (hmap : s.mmioMap hhdmOffset phys size opts = (s', v)) (hv : v ≠ 0)
    (hunmap : s'.mmioUnmap v size = s'') :
    (∀ k < size, (cpuWalk s'.ram s'.cr3 (v + k)).physical (v + k) = some (phys + k) ∧
      ∃ e, (cpuWalk s'.ram s'.cr3 (v + k)).leaf = some e ∧
        e &&& pteP ≠ 0 ∧ e &&& ptePCD ≠ 0 ∧ e &&& ptePWT ≠ 0) ∧
    (∀ va, (∀ f ∈ framesOf phys size, pageOf va ≠ imagePage hhdmOffset f) →
      cpuWalk s'.ram s'.cr3 va = cpuWalk s.ram s.cr3 va ∧
        cpuWalk s''.ram s''.cr3 va = cpuWalk s'.ram s'.cr3 va) ∧
    (∀ va, (∃ f ∈ framesOf phys size, pageOf va = imagePage hhdmOffset f) →
      cpuWalk s''.ram s''.cr3 va = .fault) ∧
    ((∀ va, (∃ f ∈ framesOf phys size, pageOf va = imagePage hhdmOffset f) →
        cpuWalk s.ram s.cr3 va = .fault) →
      ∀ va, cpuWalk s''.ram s''.cr3 va = cpuWalk s.ram s.cr3 va) := by
  obtain ⟨rfl, hmapped⟩ := mmioMap_onImage hrange hs rfl hmap hv
  have hcr3 := hmapped.grows.cr3
  have hunmapped := mmioUnmap_onImage hrange hmapped.grows.inv (congrArg frameOf hcr3)
  rw [hunmap] at hunmapped
  have hcr3' := hunmapped.grows.cr3.trans hcr3
  have hfault (va : U64) (hva : ∃ f ∈ framesOf phys size, pageOf va = imagePage hhdmOffset f) :
      cpuWalk s''.ram s''.cr3 va = .fault := by
    obtain ⟨f, hf, hpage⟩ := hva
    rw [hcr3']
    exact (cpuWalk_fault_iff hunmapped.grows.inv rfl).mpr (hunmapped.inside f hf va hpage)
  have hother (va : U64) (hva : ∀ f ∈ framesOf phys size, pageOf va ≠ imagePage hhdmOffset f) :
      cpuWalk s'.ram s'.cr3 va = cpuWalk s.ram s.cr3 va ∧
        cpuWalk s''.ram s''.cr3 va = cpuWalk s'.ram s'.cr3 va := by
    rw [hcr3', hcr3]
    exact ⟨hmapped.grows.cpuWalk_eq hs rfl (hmapped.outside va hva),
      hunmapped.grows.cpuWalk_eq hmapped.grows.inv rfl (hunmapped.outside va hva)⟩
  refine ⟨fun k hk => ?_, hother, hfault, fun hbefore va => ?_⟩
  · rw [hcr3]
    obtain ⟨hleaf, hphysical⟩ := cpuWalk_leafAt hmapped.grows.inv rfl
      (hmapped.inside _ (MmioRange.byte_mem hk) _ (hrange.byte_page hk))
    rw [hrange.byte_physical hphys opts hk] at hphysical
    exact ⟨hphysical, _, hleaf, mmioLeaf_uncached opts _⟩
  · by_cases hva : ∃ f ∈ framesOf phys size, pageOf va = imagePage hhdmOffset f
    · rw [hfault va hva, hbefore va hva]
    · obtain ⟨hmap, hunmap⟩ := hother va fun f hf hpage => hva ⟨f, hf, hpage⟩
      exact hunmap.trans hmap

def deviceMap : Vm × U64 := bareVm.mmioMap 0xffff800000000000 0xfee00ff8 16 none

theorem mmio_window_twoPages : deviceMap.2 = 0xffff8000fee00ff8 ∧
    (∀ k < 16, (cpuWalk deviceMap.1.ram deviceMap.1.cr3 (deviceMap.2 + k)).physical (deviceMap.2 + k) =
      some (0xfee00ff8 + k)) ∧
    ∀ va, cpuWalk (deviceMap.1.mmioUnmap deviceMap.2 16).ram (deviceMap.1.mmioUnmap deviceMap.2 16).cr3 va =
      cpuWalk bareVm.ram bareVm.cr3 va := by
  have hrange : MmioRange 0xffff800000000000 0xfee00ff8 16 := by
    constructor
    all_goals decide +kernel
  have hv : deviceMap.2 = 0xffff8000fee00ff8 := by decide +kernel
  have hmap : bareVm.mmioMap 0xffff800000000000 0xfee00ff8 16 none = (deviceMap.1, deviceMap.2) :=
    Prod.mk.eta.symm
  obtain ⟨hbytes, -, -, hback⟩ := mmio_window bareVm bareVm_inv 0xffff800000000000 0xfee00ff8 16 none
    hrange (by decide) _ _ _ hmap (by rw [hv]; decide) rfl
  exact ⟨hv, fun k hk => (hbytes k hk).1, hback fun _ _ => if_pos BitVec.zero_and⟩

def highMap : Vm × U64 := bareVm.mmioMap 0 0xffff800000000000 1 none

/-- The processor has no use for the upper bits of an address that is no physical one. -/
theorem mmio_window_high : ¬∀ (s : Vm) (_ : s.Inv {frameOf s.cr3}) (hhdmOffset phys size : U64)
    (opts : Option MmioOpts) (_ : MmioRange hhdmOffset phys size) (s' : Vm) (v : U64),
    s.mmioMap hhdmOffset phys size opts = (s', v) → v ≠ 0 →
    ∀ k < size, (cpuWalk s'.ram s'.cr3 (v + k)).physical (v + k) = some (phys + k) := by
  intro h
  have hrange : MmioRange 0 0xffff800000000000 1 := by
    constructor
    all_goals decide +kernel
  have hv : highMap.2 = 0xffff800000000000 := by decide +kernel
  have hmap : bareVm.mmioMap 0 0xffff800000000000 1 none = (highMap.1, highMap.2) := Prod.mk.eta.symm
  have hbyte := h bareVm bareVm_inv _ _ _ _ hrange _ _ hmap (by rw [hv]; decide) 0 (by decide)
  exact absurd hbyte (by decide +kernel)

end Mcincos
