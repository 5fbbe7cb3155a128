import Mcincos.Library.Coverage
import Mcincos.Vmm.MmioWindow

namespace Mcincos

open Coverage

structure DeviceRange where
  phys : U64
  size : U64
  virt : U64
  deriving DecidableEq

def DeviceRange.frames (w : DeviceRange) : Set ℕ := framesOf w.phys w.size

inductive MmioRun (hhdmOffset : U64) (s0 : Vm) : List (Call DeviceRange) → Vm → Prop
  | start : MmioRun hhdmOffset s0 [] s0
  | map {calls : List (Call DeviceRange)} {s s' : Vm} {w : DeviceRange} {opts : Option MmioOpts} :
      MmioRun hhdmOffset s0 calls s → MmioRange hhdmOffset w.phys w.size →
      w.phys.toNat + w.size.toNat ≤ 2 ^ 52 →
      s.mmioMap hhdmOffset w.phys w.size opts = (s', w.virt) → w.virt ≠ 0 →
      MmioRun hhdmOffset s0 (.add w :: calls) s'
  | unmap {calls : List (Call DeviceRange)} {s : Vm} {w : DeviceRange} :
      MmioRun hhdmOffset s0 calls s → .add w ∈ calls →
      MmioRun hhdmOffset s0 (.remove w :: calls) (s.mmioUnmap w.virt w.size)

variable {hhdmOffset : U64} {s s0 s' : Vm} {calls : List (Call DeviceRange)} {w : DeviceRange}

structure DeviceRange.Mapped (hhdmOffset : U64) (w : DeviceRange) : Prop where
  range : MmioRange hhdmOffset w.phys w.size
  physical : w.phys.toNat + w.size.toNat ≤ 2 ^ 52
  virt : w.virt = w.phys + hhdmOffset

theorem DeviceRange.Mapped.lt (h : w.Mapped hhdmOffset) {f : ℕ} (hf : f ∈ w.frames) : f < 2 ^ 40 := by
  have hphys := h.physical
  have hsize := h.range.nonempty
  rw [DeviceRange.frames, framesOf, Set.mem_Icc] at hf
  omega

theorem DeviceRange.Mapped.upper (h : w.Mapped hhdmOffset) {f : ℕ} (hf : f ∈ w.frames) :
    0xffff800000000000 ≤ (BitVec.ofNat 64 (4096 * f) + hhdmOffset).toNat := by
  obtain ⟨j, hj, rfl⟩ := (mem_framesOf h.range.nonempty).mp hf
  have hupper := h.range.upper
  have hend := h.range.image_end
  have hpage : BitVec.ofNat 64 (4096 * (w.phys.toNat / 4096 + j)) + hhdmOffset =
      pageAt (Vm.alignDown w.phys + hhdmOffset) j := by
    rw [← pageAt_alignDown, pageAt, pageAt, BitVec.add_assoc, BitVec.add_assoc,
      BitVec.add_comm hhdmOffset]
  rw [hpage, toNat_pageAt]
  omega

theorem DeviceRange.Mapped.imagePage_inj {w' : DeviceRange} (h : w.Mapped hhdmOffset)
    (h' : w'.Mapped hhdmOffset) {f f' : ℕ} (hf : f ∈ w.frames) (hf' : f' ∈ w'.frames)
    (hpage : imagePage hhdmOffset f = imagePage hhdmOffset f') : f = f' := by
  have hlt := h.lt hf
  have hlt' := h'.lt hf'
  have hupper := h.upper hf
  have hupper' := h'.upper hf'
  have hnat := congrArg BitVec.toNat hpage
  rw [imagePage, imagePage, toNat_pageOf, toNat_pageOf] at hnat
  rw [BitVec.toNat_add, BitVec.toNat_ofNat] at hupper hupper' hnat
  rw [BitVec.toNat_add, BitVec.toNat_ofNat] at hnat
  omega

theorem DeviceRange.Mapped.apart {w' : DeviceRange} (h : w.Mapped hhdmOffset)
    (h' : w'.Mapped hhdmOffset) {f : ℕ} (hf : f ∈ w'.frames) (hout : f ∉ w.frames) {va : U64}
    (hva : pageOf va = imagePage hhdmOffset f) :
    ∀ f' ∈ framesOf w.phys w.size, pageOf va ≠ imagePage hhdmOffset f' := by
  intro f' hf' hpage
  obtain rfl := h'.imagePage_inj h hf hf' (hva.symm.trans hpage)
  exact hout hf'

structure Shows (hhdmOffset : U64) (s0 : Vm) (calls : List (Call DeviceRange)) (s : Vm) : Prop where
  grows : Grows (frameOf s0.cr3) s0 s
  mapped : ∀ w, .add w ∈ calls → w.Mapped hhdmOffset
  shown : ∀ w, .add w ∈ calls → ∀ f ∈ w.frames, f ∈ covered DeviceRange.frames calls →
    ∀ va, pageOf va = imagePage hhdmOffset f →
      ∃ opts, leafAt s (frameOf s0.cr3) va = some (mmioLeaf opts f)
  hidden : ∀ w, .add w ∈ calls → ∀ f ∈ w.frames, f ∉ covered DeviceRange.frames calls →
    ∀ va, pageOf va = imagePage hhdmOffset f → leafAt s (frameOf s0.cr3) va = none

theorem Shows.add {opts : Option MmioOpts} (h : Shows hhdmOffset s0 calls s)
    (hw : w.Mapped hhdmOffset) (himage : OnImage hhdmOffset w.phys w.size (frameOf s0.cr3) s s'
      fun f => some (mmioLeaf opts f)) : Shows hhdmOffset s0 (.add w :: calls) s' := by
  have hmapped (w' : DeviceRange) (hw' : .add w' ∈ Call.add w :: calls) : w'.Mapped hhdmOffset := by
    obtain heq | hw' := List.mem_cons.mp hw'
    · exact (Call.add.inj heq) ▸ hw
    · exact h.mapped w' hw'
  have hold (w' : DeviceRange) (hw' : .add w' ∈ Call.add w :: calls) (f : ℕ) (hf : f ∈ w'.frames)
      (hout : f ∉ w.frames) : .add w' ∈ calls := by
    obtain heq | hw' := List.mem_cons.mp hw'
    · exact absurd ((Call.add.inj heq) ▸ hf) hout
    · exact hw'
  refine ⟨h.grows.trans himage.grows, hmapped, ?_, ?_⟩
  · intro w' hw' f hf hcovered va hva
    by_cases hin : f ∈ w.frames
    · exact ⟨opts, himage.inside f hin va hva⟩
    · rw [himage.outside va (hw.apart (hmapped w' hw') hf hin hva)]
      exact h.shown w' (hold w' hw' f hf hin) f hf (hcovered.resolve_right hin) va hva
  · intro w' hw' f hf hcovered va hva
    obtain ⟨hcovered, hin⟩ := not_or.mp hcovered
    rw [himage.outside va (hw.apart (hmapped w' hw') hf hin hva)]
    exact h.hidden w' (hold w' hw' f hf hin) f hf hcovered va hva

theorem Shows.remove (h : Shows hhdmOffset s0 calls s) (hw : .add w ∈ calls)
    (himage : OnImage hhdmOffset w.phys w.size (frameOf s0.cr3) s s' fun _ => none) :
    Shows hhdmOffset s0 (.remove w :: calls) s' := by
  have hold (w' : DeviceRange) (hw' : .add w' ∈ Call.remove w :: calls) : .add w' ∈ calls := by
    simpa using hw'
  refine ⟨h.grows.trans himage.grows, fun w' hw' => h.mapped w' (hold w' hw'), ?_, ?_⟩
  · rintro w' hw' f hf ⟨hcovered, hin⟩ va hva
    rw [himage.outside va ((h.mapped w hw).apart (h.mapped w' (hold w' hw')) hf hin hva)]
    exact h.shown w' (hold w' hw') f hf hcovered va hva
  · intro w' hw' f hf hcovered va hva
    by_cases hin : f ∈ w.frames
    · exact himage.inside f hin va hva
    · rw [himage.outside va ((h.mapped w hw).apart (h.mapped w' (hold w' hw')) hf hin hva)]
      exact h.hidden w' (hold w' hw') f hf (fun hc => hcovered ⟨hc, hin⟩) va hva

theorem MmioRun.shows (h : MmioRun hhdmOffset s0 calls s) (hs : s0.Inv {frameOf s0.cr3}) :
    Shows hhdmOffset s0 calls s := by
  induction h with
  | start => exact ⟨.refl hs, by simp, by simp, by simp⟩
  | map _ hrange hphys hmap hv ih =>
    obtain ⟨hvirt, himage⟩ := mmioMap_onImage hrange ih.grows.inv (congrArg frameOf ih.grows.cr3) hmap hv
    exact ih.add ⟨hrange, hphys, hvirt⟩ himage
  | unmap _ hw ih =>
    have hmapped := ih.mapped _ hw
    rw [hmapped.virt]
    exact ih.remove hw (mmioUnmap_onImage hmapped.range ih.grows.inv (congrArg frameOf ih.grows.cr3))

def DeviceRange.Translated (w : DeviceRange) (s : Vm) (k : U64) : Prop :=
  (cpuWalk s.ram s.cr3 (w.virt + k)).physical (w.virt + k) = some (w.phys + k)

theorem Shows.translated_iff (h : Shows hhdmOffset s0 calls s) (hw : .add w ∈ calls) {k : U64}
    (hk : k < w.size) : w.Translated s k ↔
      (w.phys.toNat + k.toNat) / 4096 ∈ covered DeviceRange.frames calls := by
  obtain ⟨hrange, hphys, hvirt⟩ := h.mapped w hw
  have hmem : (w.phys.toNat + k.toNat) / 4096 ∈ w.frames := MmioRange.byte_mem hk
  have hpage := hrange.byte_page hk
  rw [DeviceRange.Translated, h.grows.cr3, hvirt]
  constructor
  · intro htranslated
    by_contra hcovered
    have hfault := (cpuWalk_fault_iff h.grows.inv rfl).mpr (h.hidden w hw _ hmem hcovered _ hpage)
    rw [hfault] at htranslated
    exact absurd htranslated (by simp [CpuWalk.physical])
  · intro hcovered
    obtain ⟨opts, hleaf⟩ := h.shown w hw _ hmem hcovered _ hpage
    rw [(cpuWalk_leafAt h.grows.inv rfl hleaf).2, hrange.byte_physical hphys opts hk]

instance (w : DeviceRange) (s : Vm) (k : U64) : Decidable (w.Translated s k) :=
  inferInstanceAs (Decidable (_ = _))

/-- Whatever ranges are mapped and unmapped in turn: a byte of a range is translated to its device
just if the last call for its page has mapped it, as it has if no other range with that page has
been unmapped. -/
theorem mmio_ranges (s0 : Vm) (hs : s0.Inv {frameOf s0.cr3}) (hhdmOffset : U64)
    (calls : List (Call DeviceRange)) (s : Vm) (h : MmioRun hhdmOffset s0 calls s) :
    (∀ w, .add w ∈ calls → ∀ k < w.size, w.Translated s k ↔
      (w.phys.toNat + k.toNat) / 4096 ∈ covered DeviceRange.frames calls) ∧
    ∀ w, Live calls w → (∀ w', .remove w' ∈ calls → w' ≠ w → Disjoint w.frames w'.frames) →
      ∀ k < w.size, w.Translated s k := by
  have hshows := h.shows hs
  refine ⟨fun w hw k hk => hshows.translated_iff hw hk, fun w hlive hapart k hk => ?_⟩
  apply (hshows.translated_iff hlive.mem hk).mpr
  exact hlive.subset_covered hapart (MmioRange.byte_mem hk)

def lowRange : DeviceRange := ⟨0xfee00000, 16, 0xffff8000fee00000⟩
def highRange : DeviceRange := ⟨0xfee00010, 16, 0xffff8000fee00010⟩
def otherRange : DeviceRange := ⟨0xfee01000, 0x1000, 0xffff8000fee01000⟩

def mmioMapRange (s : Vm) (w : DeviceRange) : Vm × U64 :=
  s.mmioMap 0xffff800000000000 w.phys w.size none

theorem MmioRun.mapRange (h : MmioRun 0xffff800000000000 s0 calls s)
    (hrange : MmioRange 0xffff800000000000 w.phys w.size)
    (hphys : w.phys.toNat + w.size.toNat ≤ 2 ^ 52) (hvirt : (mmioMapRange s w).2 = w.virt)
    (hne : w.virt ≠ 0) : MmioRun 0xffff800000000000 s0 (.add w :: calls) (mmioMapRange s w).1 :=
  h.map hrange hphys (Prod.ext rfl hvirt) hne

theorem mmio_ranges_twoPages : ∃ s, MmioRun 0xffff800000000000 bareVm
      [.remove otherRange, .add otherRange, .add lowRange] s ∧
    ∀ k < 16, lowRange.Translated s k := by
  have hlow : MmioRange 0xffff800000000000 lowRange.phys lowRange.size := by
    constructor
    all_goals decide +kernel
  have hother : MmioRange 0xffff800000000000 otherRange.phys otherRange.size := by
    constructor
    all_goals decide +kernel
  have hrun := ((MmioRun.start.mapRange (s := bareVm) hlow (by decide) (by decide +kernel) (by decide)).mapRange
    hother (by decide) (by decide +kernel) (by decide)).unmap List.mem_cons_self
  obtain ⟨-, happart⟩ := mmio_ranges bareVm bareVm_inv _ _ _ hrun
  refine ⟨_, hrun, happart lowRange ⟨by decide, .inr (.inl rfl)⟩ ?_⟩
  intro w' hw' _
  obtain rfl : w' = otherRange := by simpa using hw'
  rw [Set.disjoint_left]
  intro f hf hf'
  have hlast : f ≤ 0xfee00 := hf.2
  have hfirst : 0xfee01 ≤ f := hf'.1
  omega

theorem shared_page_unmapped : ¬∀ (s0 : Vm) (_ : s0.Inv {frameOf s0.cr3}) (hhdmOffset : U64)
    (calls : List (Call DeviceRange)) (s : Vm), MmioRun hhdmOffset s0 calls s →
    ∀ w, Live calls w → ∀ k < w.size, w.Translated s k := by
  intro h
  have hlow : MmioRange 0xffff800000000000 lowRange.phys lowRange.size := by
    constructor
    all_goals decide +kernel
  have hhigh : MmioRange 0xffff800000000000 highRange.phys highRange.size := by
    constructor
    all_goals decide +kernel
  have hrun := ((MmioRun.start.mapRange (s := bareVm) hlow (by decide) (by decide +kernel) (by decide)).mapRange
    hhigh (by decide) (by decide +kernel) (by decide)).unmap (List.mem_cons_of_mem _ List.mem_cons_self)
  have htranslated := h bareVm bareVm_inv _ _ _ hrun highRange ⟨by decide, .inl rfl⟩ 0 (by decide)
  exact absurd htranslated (by decide +kernel)

end Mcincos
