import Mcincos.Vmm.PageMap
import Mcincos.Vmm.System

namespace Mcincos

open Words Radix

namespace PageCall

def request : PageCall → Option (U64 × U64)
  | map _ phys flags | mapSpace _ _ phys flags | mapMmio _ phys flags => some (phys, flags)
  | unmap _ | unmapSpace _ _ => none

def On (s : Vm) (r : ℕ) : PageCall → Prop
  | mapMmio _ _ _ => False
  | call => frameOf (call.root s) = r

instance (s : Vm) (r : ℕ) : DecidablePred (On s r)
  | mapMmio _ _ _ => .isFalse id
  | map _ _ _ => inferInstanceAs (Decidable (_ = _))
  | unmap _ => inferInstanceAs (Decidable (_ = _))
  | mapSpace _ _ _ _ => inferInstanceAs (Decidable (_ = _))
  | unmapSpace _ _ => inferInstanceAs (Decidable (_ = _))

def runAll (s : Vm) : List PageCall → Option Vm
  | [] => some s
  | call :: before =>
    (runAll s before).bind fun s =>
      let (s, rc) := call.exec s
      if rc = 0 then some s else none

def requested (page : BitVec 36) : List PageCall → Option (U64 × U64)
  | [] => none
  | call :: before => if pageOf call.virt = page then call.request else requested page before

def openedBy (path : List (BitVec 9)) : List PageCall → Option U64
  | [] => none
  | call :: before =>
    (openedBy path before).or
      (if path <+: innerPath call.virt then call.request.map Prod.snd else none)

end PageCall

open PageCall

def keptFlags (flags : U64) : U64 := flags &&& ~~~(ptePCD ||| ptePWT)

structure Made (r : ℕ) (calls : List PageCall) (s : Vm) : Prop where
  inv : s.Inv {r}
  inner : ∀ q : List (BitVec 9), q ≠ [] → q.length ≤ 3 →
    match openedBy q calls with
    | none => pageTables.get s.ram.word r q = none
    | some flags => ∃ page, 2 ^ 12 ∣ page.toNat ∧
        pageTables.get s.ram.word r q = some (linkEntry page (keptFlags flags))
  leaf : ∀ va, pageTables.get s.ram.word r (pagePath va) =
    (requested (pageOf va) calls).map fun pf => leafEntry pf.1 (keptFlags pf.2)

variable {r : ℕ} {calls : List PageCall} {s s' s1 : Vm} {p : U64}

theorem Made.start (hrow : ∀ i, s.ram.word r i &&& pteP = 0) (hs : s.Inv {r}) : Made r [] s where
  inv := hs
  inner := fun q _ _ => get_of_empty hrow q
  leaf := fun va => get_of_empty hrow (pagePath va)

theorem Made.setCr3 (h : Made r calls s) (x : U64) : Made r calls { s with cr3 := x } :=
  ⟨h.inv.setCr3 x, h.inner, h.leaf⟩

theorem Made.mapPage (h : Made r calls s) (call : PageCall) {phys flags : U64} (hp : frameOf p = r)
    (hreq : call.request = some (phys, flags))
    (hok : (s.mapPage p call.virt phys (keptFlags flags)).2 = 0) :
    Made r (call :: calls) (s.mapPage p call.virt phys (keptFlags flags)).1 := by
  have hr : frameOf p ∈ ({r} : Set ℕ) := hp
  rcases mapPage_spec h.inv hr call.virt phys (keptFlags flags) with
    ⟨s', he, -⟩ | ⟨s1, s', pt, he, hx, hd, hl⟩
  · rw [he] at hok
    exact absurd hok (by simp)
  · rw [he]
    rw [hp] at hx hd
    have hr : r ∈ ({r} : Set ℕ) := rfl
    have hpt : pageTables.At {r} s1.ram.word 3 pt := descend_at (.root hr) (le_refl 3) hd
    refine ⟨hl.inv hx.inv hpt, fun q hq hlen => ?_, fun va => ?_⟩
    · have hold := h.inner q hq hlen
      rw [hl.get_inner hx.inv hpt hr hlen, openedBy]
      cases hopen : openedBy q calls with
      | some f =>
        rw [hopen] at hold
        obtain ⟨page, hpage, hg⟩ := hold
        exact ⟨page, hpage, hx.old r hr q (by omega) _ hg⟩
      | none =>
        rw [hopen] at hold
        rw [Option.none_or]
        by_cases hpre : q <+: innerPath call.virt
        · rw [if_pos hpre, hreq]
          obtain ⟨rest, hrest⟩ := hpre
          rw [← hrest, descend_append] at hd
          obtain ⟨b, hb, -⟩ := Option.bind_eq_some_iff.mp hd
          obtain ⟨e, hg⟩ := get_of_descend hq hb
          obtain ⟨-, ⟨page, hpage, rfl⟩, -⟩ := hx.new r hr q (by omega) e hold hg
          exact ⟨page, hpage, hg⟩
        · rw [if_neg hpre]
          cases hg : pageTables.get s1.ram.word r q with
          | none => rfl
          | some e => exact absurd (hx.new r hr q (by omega) e hold hg).1 hpre
    · rw [hl.get_page hx.inv hd, hx.leaf r hr _ rfl, h.leaf va, requested, hreq]
      by_cases hva : pageOf va = pageOf call.virt
      · rw [if_pos hva, if_pos hva.symm, if_neg (leafEntry_present _ _)]
        rfl
      · rw [if_neg hva, if_neg (fun he => hva he.symm)]

theorem Made.unmapPage (h : Made r calls s) (call : PageCall) (hp : frameOf p = r)
    (hreq : call.request = none) (hok : (s.vmmUnmapPageCr3 p call.virt).2 = 0) :
    Made r (call :: calls) (s.vmmUnmapPageCr3 p call.virt).1 := by
  obtain ⟨he, -⟩ | ⟨s', pt, he, hd, hl⟩ := vmmUnmapPageCr3_spec s p call.virt
  · rw [he] at hok
    exact absurd hok (by simp)
  · rw [he]
    rw [hp] at hd
    have hr : r ∈ ({r} : Set ℕ) := rfl
    have hpt : pageTables.At {r} s.ram.word 3 pt := descend_at (.root hr) (le_refl 3) hd
    refine ⟨hl.inv h.inv hpt, fun q hq hlen => ?_, fun va => ?_⟩
    · have hold := h.inner q hq hlen
      rw [hl.get_inner h.inv hpt hr hlen, openedBy, hreq, Option.map_none, ite_self, Option.or_none]
      exact hold
    · rw [hl.get_page h.inv hd, h.leaf va, requested, hreq]
      by_cases hva : pageOf va = pageOf call.virt
      · rw [if_pos hva, if_pos hva.symm, if_pos (show (0 : U64) &&& pteP = 0 from rfl)]
        rfl
      · rw [if_neg hva, if_neg (fun he => hva he.symm)]

theorem Made.inSpace {calls' : List PageCall} (h : Made r calls s) {space : VmmSpace}
    {f : Vm → Vm × Int} (hok : (s.inSpace space f).2 = 0)
    (hf : ∀ t : Vm, Made r calls t → (f t).2 = 0 → Made r calls' (f t).1) :
    Made r calls' (s.inSpace space f).1 := by
  unfold Vm.inSpace at hok ⊢
  by_cases hz : space.pml4Phys = 0
  · rw [if_pos hz] at hok
    exact absurd hok (by simp)
  · rw [if_neg hz] at hok ⊢
    exact (hf _ (h.setCr3 space.pml4Phys) hok).setCr3 _

theorem Made.exec (h : Made r calls s) {call : PageCall} (hon : call.On s r)
    (hok : (call.exec s).2 = 0) : Made r (call :: calls) (call.exec s).1 := by
  have hcr3 : frameOf (s.cr3 &&& ~~~0xfff#64) = frameOf s.cr3 := frameOf_tableOf s.cr3
  cases call with
  | map virt phys flags => exact h.mapPage (.map virt phys flags) (hcr3.trans hon) rfl hok
  | unmap virt => exact h.unmapPage (.unmap virt) (hcr3.trans hon) rfl hok
  | mapSpace space virt phys flags =>
    refine h.inSpace hok fun t ht hok => ?_
    exact ht.mapPage (.mapSpace space virt phys flags) hon rfl hok
  | unmapSpace space virt =>
    refine h.inSpace hok fun t ht hok => ?_
    exact ht.unmapPage (.unmapSpace space virt) hon rfl hok
  | mapMmio _ _ _ => exact hon.elim

theorem PageCall.on_congr (hcr3 : frameOf s'.cr3 = frameOf s.cr3) {call : PageCall}
    (hon : call.On s r) : call.On s' r := by
  cases call with
  | map _ _ _ => exact hcr3.trans hon
  | unmap _ => exact hcr3.trans hon
  | mapSpace _ _ _ _ => exact hon
  | unmapSpace _ _ => exact hon
  | mapMmio _ _ _ => exact hon

theorem PageCall.on_root {call : PageCall} (hon : call.On s r) : frameOf (call.root s) = r := by
  cases call with
  | mapMmio _ _ _ => exact hon.elim
  | _ => exact hon

theorem Made.run {s0 : Vm} (h : Made r [] s0) (hon : ∀ call ∈ calls, call.On s0 r)
    (hrun : runAll s0 calls = some s) : Made r calls s ∧ frameOf s.cr3 = frameOf s0.cr3 := by
  induction calls generalizing s with
  | nil =>
    obtain rfl := Option.some.inj hrun
    exact ⟨h, rfl⟩
  | cons call before ih =>
    obtain ⟨s1, hs1, hexec⟩ := Option.bind_eq_some_iff.mp hrun
    obtain ⟨hmade, hcr3⟩ := ih (fun c hc => hon c (List.mem_cons_of_mem call hc)) hs1
    have hcall : call.On s1 r := on_congr hcr3 (hon call List.mem_cons_self)
    dsimp only at hexec
    split_ifs at hexec with hok
    obtain rfl := Option.some.inj hexec
    have hroot : frameOf (call.root s1) ∈ ({r} : Set ℕ) := on_root hcall
    exact ⟨hmade.exec hcall hok, ((call.change hmade.inv hroot).2).trans hcr3⟩

/-! ### With frame 0 free every call on an empty space fails -/

theorem allocPtPagePhys_zero (hzero : s.pmm.Free 0) : s.allocPtPagePhys.2 = 0 := by
  obtain ⟨he, -⟩ | ⟨q, he, -⟩ | ⟨s', phys, f, -, hf, -, h⟩ := s.allocPtPagePhys_cases
  · rw [he]
  · rw [he]
  · exact absurd hzero (h.first 0 (Nat.pos_of_ne_zero hf))

theorem mapPage_zero (hrow : ∀ i, s.ram.word r i &&& pteP = 0) (hzero : s.pmm.Free 0)
    (hp : frameOf p = r) (virt phys flags : U64) : (s.mapPage p virt phys flags).2 = -1 := by
  have hload (i : BitVec 9) : s.load p i &&& pteP = 0 := by
    rw [Vm.load_eq, hp]
    exact hrow i
  have halloc := allocPtPagePhys_zero hzero
  rcases ha : s.allocPtPagePhys with ⟨s', new⟩
  rw [ha] at halloc
  simp only [Vm.mapPage, Vm.ensurePt, Vm.ensureEntry, hload, ha, halloc, ↓reduceIte]

theorem vmmUnmapPageCr3_empty (hrow : ∀ i, s.ram.word r i &&& pteP = 0) (hp : frameOf p = r)
    (virt : U64) : (s.vmmUnmapPageCr3 p virt).2 = -1 := by
  have hload (i : BitVec 9) : s.load p i &&& pteP = 0 := by
    rw [Vm.load_eq, hp]
    exact hrow i
  simp only [Vm.vmmUnmapPageCr3, hload, ↓reduceIte]

theorem inSpace_fails {space : VmmSpace} {f : Vm → Vm × Int}
    (hf : (f { s with cr3 := space.pml4Phys }).2 = -1) : (s.inSpace space f).2 = -1 := by
  unfold Vm.inSpace
  split_ifs
  · rfl
  · exact hf

theorem exec_zero (hrow : ∀ i, s.ram.word r i &&& pteP = 0) (hzero : s.pmm.Free 0) {call : PageCall}
    (hon : call.On s r) : (call.exec s).2 = -1 := by
  have hcr3 : frameOf (s.cr3 &&& ~~~0xfff#64) = frameOf s.cr3 := frameOf_tableOf s.cr3
  cases call with
  | map virt phys flags => exact mapPage_zero hrow hzero (hcr3.trans hon) _ _ _
  | unmap virt => exact vmmUnmapPageCr3_empty hrow (hcr3.trans hon) _
  | mapSpace space virt phys flags =>
    have hp : frameOf space.pml4Phys = r := hon
    apply inSpace_fails
    exact mapPage_zero (s := { s with cr3 := space.pml4Phys }) hrow hzero hp virt phys _
  | unmapSpace space virt =>
    have hp : frameOf space.pml4Phys = r := hon
    apply inSpace_fails
    exact vmmUnmapPageCr3_empty (s := { s with cr3 := space.pml4Phys }) hrow hp virt
  | mapMmio _ _ _ => exact hon.elim

theorem runAll_zero (hrow : ∀ i, s.ram.word r i &&& pteP = 0) (hzero : s.pmm.Free 0)
    (hon : ∀ call ∈ calls, call.On s r) (hrun : runAll s calls = some s') : calls = [] := by
  induction calls generalizing s' with
  | nil => rfl
  | cons call before ih =>
    obtain ⟨s1, hs1, hexec⟩ := Option.bind_eq_some_iff.mp hrun
    obtain rfl := ih (fun c hc => hon c (List.mem_cons_of_mem call hc)) hs1
    obtain rfl := Option.some.inj hs1
    have hfail := exec_zero hrow hzero (hon call List.mem_cons_self)
    dsimp only at hexec
    rw [hfail] at hexec
    exact absurd hexec (by simp)

theorem bne_pteU (e : U64) : (e &&& pteU != 0) = e.getLsbD 2 := by
  rw [Bool.eq_iff_iff, bne_iff_ne, Ne, and_pteU, Bool.not_eq_false]

theorem bne_pteW (e : U64) : (e &&& pteW != 0) = e.getLsbD 1 := by
  have h : e &&& pteW = 0 ↔ e.getLsbD 1 = false := and_one_shift_eq_zero e 1 (by decide)
  rw [Bool.eq_iff_iff, bne_iff_ne, Ne, h, Bool.not_eq_false]

theorem bne_pteNX (e : U64) : (e &&& pteNX != 0) = e.getLsbD 63 := by
  rw [Bool.eq_iff_iff, bne_iff_ne, Ne, and_pteNX, Bool.not_eq_false]

theorem keptFlags_bit (flags : U64) {k : ℕ} (hk : k < 64) (h3 : k ≠ 3) (h4 : k ≠ 4) :
    (keptFlags flags).getLsbD k = flags.getLsbD k := by
  simp only [keptFlags, BitVec.getLsbD_and, BitVec.getLsbD_not, BitVec.getLsbD_or, ptePCD, ptePWT,
    getLsbD_one_shift _ _ (show 3 < 64 by decide), getLsbD_one_shift _ _ (show 4 < 64 by decide)]
  simp [hk, h3, h4]

theorem linkEntry_grants {page : U64} (flags : U64) (hpage : 2 ^ 12 ∣ page.toNat) :
    (linkEntry page (keptFlags flags) &&& pteU != 0) = flags.getLsbD 2 ∧
      (linkEntry page (keptFlags flags) &&& pteW != 0) = true := by
  rw [bne_pteU, bne_pteW, linkEntry_bit, linkEntry_bit, getLsbD_of_dvd page 12 2 hpage (by decide),
    keptFlags_bit flags (by decide) (by decide) (by decide)]
  simp

theorem leafEntry_grants (phys flags : U64) :
    (leafEntry phys (keptFlags flags) &&& pteU != 0) = flags.getLsbD 2 ∧
      (leafEntry phys (keptFlags flags) &&& pteW != 0) = flags.getLsbD 1 ∧
      (leafEntry phys (keptFlags flags) &&& pteNX != 0) =
        (phys.getLsbD 63 || flags.getLsbD 63) := by
  have hkept {k : ℕ} (hk : k < 64) (h3 : k ≠ 3) (h4 : k ≠ 4) := keptFlags_bit flags hk h3 h4
  rw [bne_pteU, bne_pteW, bne_pteNX, leafEntry_bit _ _ (by decide), leafEntry_bit _ _ (by decide),
    leafEntry_bit _ _ (by decide), hkept (by decide) (by decide) (by decide),
    hkept (by decide) (by decide) (by decide), hkept (by decide) (by decide) (by decide)]
  simp

theorem Vm.Inv.get_sound {roots : Set ℕ} (hs : s.Inv roots) (hr : r ∈ roots) {q : List (BitVec 9)}
    {e : U64} (hq : q.length ≤ 3) (hg : pageTables.get s.ram.word r q = some e) : e.toNat < 2 ^ 52 := by
  obtain ⟨⟨a, i⟩, hslot, he⟩ := Option.bind_eq_some_iff.mp hg
  obtain ⟨hat, hne⟩ := slot_at (.root hr) (by rw [Nat.zero_add]; exact Nat.le_succ_of_le hq) hslot
  have hpos := List.length_pos_of_ne_nil hne
  split_ifs at he with hc
  obtain rfl := Option.some.inj he
  obtain ⟨f, hf⟩ := Option.isSome_iff_exists.mp hc
  exact (hs.forest.sound hat (show 0 + q.length - 1 < 3 by omega) hf).2

theorem Made.inner_grants (h : Made r calls s) {q : List (BitVec 9)} {e : U64} (hne : q ≠ [])
    (hq : q.length ≤ 3) (hg : pageTables.get s.ram.word r q = some e) :
    ∃ f, openedBy q calls = some f ∧ (e &&& pteU != 0) = f.getLsbD 2 ∧ (e &&& pteW != 0) = true ∧
      (e &&& pteNX != 0) = false := by
  have hr : r ∈ ({r} : Set ℕ) := rfl
  have hopen := h.inner q hne hq
  cases hf : openedBy q calls with
  | none =>
    rw [hf] at hopen
    exact absurd (hopen.symm.trans hg) (by simp)
  | some f =>
    rw [hf] at hopen
    obtain ⟨page, hpage, hget⟩ := hopen
    obtain rfl := Option.some.inj (hget.symm.trans hg)
    obtain ⟨hu, hw⟩ := linkEntry_grants f hpage
    refine ⟨f, rfl, hu, hw, ?_⟩
    rw [bne_pteNX]
    exact Nat.testBit_lt_two_pow ((h.inv.get_sound hr hq hg).trans_le (by decide))

theorem Made.walk (h : Made r calls s) (hp : frameOf p = r) (va : U64) :
    (cpuWalk s.ram p va = .fault ∧ requested (pageOf va) calls = none) ∨
    ∃ phys flags f4 f3 f2, cpuWalk s.ram p va ≠ .fault ∧
      requested (pageOf va) calls = some (phys, flags) ∧
      openedBy [Vm.idxPml4 va] calls = some f4 ∧
      openedBy [Vm.idxPml4 va, Vm.idxPdpt va] calls = some f3 ∧
      openedBy (innerPath va) calls = some f2 ∧
      (cpuWalk s.ram p va).user =
        (f4.getLsbD 2 && f3.getLsbD 2 && f2.getLsbD 2 && flags.getLsbD 2) ∧
      (cpuWalk s.ram p va).write = flags.getLsbD 1 ∧
      (cpuWalk s.ram p va).noExecute = (phys.getLsbD 63 || flags.getLsbD 63) := by
  have hr : frameOf p ∈ ({r} : Set ℕ) := hp
  have hleaf := h.leaf va
  obtain ⟨hw, hg⟩ | ⟨e4, e3, e2, e1, hw, hg4, hg3, hg2, hg1⟩ := cpuWalk_cases h.inv hr va
  · rw [hp, hleaf] at hg
    exact .inl ⟨hw, Option.map_eq_none_iff.mp hg⟩
  · rw [hp] at hg4 hg3 hg2 hg1
    obtain ⟨⟨phys, flags⟩, hreq, rfl⟩ := Option.map_eq_some_iff.mp (hleaf.symm.trans hg1)
    obtain ⟨f4, hf4, hu4, hw4, hx4⟩ := h.inner_grants (by simp) (by simp) hg4
    obtain ⟨f3, hf3, hu3, hw3, hx3⟩ := h.inner_grants (by simp) (by simp) hg3
    obtain ⟨f2, hf2, hu2, hw2, hx2⟩ := h.inner_grants (by simp [innerPath]) (by simp [innerPath]) hg2
    obtain ⟨hu1, hw1, hx1⟩ := leafEntry_grants phys flags
    refine .inr ⟨phys, flags, f4, f3, f2, by simp [hw], hreq, hf4, hf3, hf2, ?_, ?_, ?_⟩
    · simp only [hw, CpuWalk.user, CpuWalk.entries, List.all_cons, List.all_nil, Bool.and_true,
        hu4, hu3, hu2, hu1, Bool.and_assoc]
    · simp only [hw, CpuWalk.write, CpuWalk.entries, List.all_cons, List.all_nil, Bool.and_true,
        Bool.true_and, hw4, hw3, hw2, hw1]
    · simp only [hw, CpuWalk.noExecute, CpuWalk.entries, List.any_cons, List.any_nil,
        Bool.or_false, Bool.false_or, hx4, hx3, hx2, hx1]

def Granted (w : CpuWalk) (flags : U64) : Prop :=
  w.user = (flags &&& pteU != 0) ∧ w.write = (flags &&& pteW != 0) ∧
    w.noExecute = (flags &&& pteNX != 0)

/-- The entries above a page, as paths: its 512 GiB, 1 GiB and 2 MiB regions. -/
def regions (va : U64) : List (List (BitVec 9)) :=
  [[Vm.idxPml4 va], [Vm.idxPml4 va, Vm.idxPdpt va], innerPath va]

/-- A user page lies in regions first used for user pages; bit 63 of an address is PTE_NX. -/
def Grantable (calls : List PageCall) (va phys flags : U64) : Prop :=
  (flags &&& pteU ≠ 0 → ∀ q ∈ regions va, ∀ f, openedBy q calls = some f → f &&& pteU ≠ 0) ∧
    (phys &&& pteNX ≠ 0 → flags &&& pteNX ≠ 0)

theorem grantable_iff {va phys flags f4 f3 f2 : U64}
    (h4 : openedBy [Vm.idxPml4 va] calls = some f4)
    (h3 : openedBy [Vm.idxPml4 va, Vm.idxPdpt va] calls = some f3)
    (h2 : openedBy (innerPath va) calls = some f2) :
    Grantable calls va phys flags ↔
      (flags.getLsbD 2 = true → f4.getLsbD 2 = true ∧ f3.getLsbD 2 = true ∧ f2.getLsbD 2 = true) ∧
        (phys.getLsbD 63 = true → flags.getLsbD 63 = true) := by
  simp only [Grantable, regions, List.forall_mem_cons, h4, h3, h2, Option.some.injEq, Ne, and_pteU,
    and_pteNX, Bool.not_eq_false, forall_eq', List.not_mem_nil, IsEmpty.forall_iff, implies_true,
    and_true]

theorem Made.granted_iff (h : Made r calls s) (hp : frameOf p = r) {va phys flags : U64}
    (hreq : requested (pageOf va) calls = some (phys, flags)) :
    Granted (cpuWalk s.ram p va) flags ↔ Grantable calls va phys flags := by
  obtain ⟨-, hnone⟩ | ⟨phys', flags', f4, f3, f2, -, hreq', h4, h3, h2, hu, hw, hx⟩ := h.walk hp va
  · exact absurd (hnone.symm.trans hreq) (by simp)
  · obtain ⟨rfl, rfl⟩ := Prod.mk.inj (Option.some.inj (hreq'.symm.trans hreq))
    rw [grantable_iff h4 h3 h2, Granted, hu, hw, hx, bne_pteU, bne_pteW, bne_pteNX]
    generalize f4.getLsbD 2 = b4, f3.getLsbD 2 = b3, f2.getLsbD 2 = b2, flags'.getLsbD 2 = u,
      flags'.getLsbD 1 = w, phys'.getLsbD 63 = px, flags'.getLsbD 63 = x
    revert b4 b3 b2 u w px x
    decide

/-- Permissions over every history of successful calls on a space that was empty: the processor
grants every mapped page what the last call for it asked for exactly when every such page is
grantable. -/
theorem effective_permissions (s : Vm) (r : ℕ) (hrow : ∀ i, s.ram.word r i &&& pteP = 0)
    (hroot : ¬s.pmm.Free r) (hlow : r < 2 ^ 40) (hwidth : s.pmm.gTotalPages ≤ 2 ^ 40)
    (calls : List PageCall) (hon : ∀ call ∈ calls, call.On s r) (s' : Vm)
    (hrun : runAll s calls = some s') (p : U64) (hp : frameOf p = r) :
    (∀ va, cpuWalk s'.ram p va ≠ .fault → ∃ phys flags,
      requested (pageOf va) calls = some (phys, flags) ∧ Granted (cpuWalk s'.ram p va) flags) ↔
    ∀ va phys flags, requested (pageOf va) calls = some (phys, flags) →
      Grantable calls va phys flags := by
  have hmade : Made r calls s' ∨ calls = [] := by
    by_cases hzero : s.pmm.Free 0
    · exact .inr (runAll_zero hrow hzero hon hrun)
    · exact .inl ((Made.start hrow (.of_empty hrow hroot hzero hwidth hlow)).run hon hrun).1
  obtain h | rfl := hmade
  · constructor
    · intro hall va phys flags hreq
      obtain ⟨-, hnone⟩ | ⟨-, -, -, -, -, hmapped, -⟩ := h.walk hp va
      · exact absurd (hnone.symm.trans hreq) (by simp)
      · obtain ⟨phys', flags', hreq', hgrant⟩ := hall va hmapped
        obtain ⟨rfl, rfl⟩ := Prod.mk.inj (Option.some.inj (hreq'.symm.trans hreq))
        exact (h.granted_iff hp hreq).mp hgrant
    · intro hall va hmapped
      obtain ⟨hfault, -⟩ | ⟨phys, flags, -, -, -, -, hreq, -⟩ := h.walk hp va
      · exact absurd hfault hmapped
      · exact ⟨phys, flags, hreq, (h.granted_iff hp hreq).mpr (hall va phys flags hreq)⟩
  · obtain rfl := Option.some.inj hrun
    refine ⟨fun _ _ _ _ hreq => absurd hreq (by simp [requested]), fun _ va hmapped => ?_⟩
    have hp52 : p.toNat < 2 ^ 52 := by
      rw [← hp, frameOf] at hlow
      omega
    refine absurd ?_ hmapped
    rw [cpuWalk, Ram.load, frameOf_cpuAddr hp52, hp]
    simp only [hrow, ↓reduceIte]

def userCalls : List PageCall := [.map 0x401000 0x6000 (pteW ||| pteU), .map 0x400000 0x5000 pteU]

def mixedCalls : List PageCall := [.map 0x401000 0x6000 (pteW ||| pteU), .map 0x400000 0x5000 pteW]

theorem runAll_getD (h : (runAll s calls).isSome) :
    runAll s calls = some ((runAll s calls).getD s) := by
  obtain ⟨s', hs'⟩ := Option.isSome_iff_exists.mp h
  rw [hs', Option.getD_some]

theorem effective_permissions_userCalls :
    ∃ s', runAll bareVm userCalls = some s' ∧ cpuWalk s'.ram 0x1000 0x401000 ≠ .fault ∧
      ∀ va, cpuWalk s'.ram 0x1000 va ≠ .fault → ∃ phys flags,
        requested (pageOf va) userCalls = some (phys, flags) ∧
          Granted (cpuWalk s'.ram 0x1000 va) flags := by
  have hrun : runAll bareVm userCalls = some ((runAll bareVm userCalls).getD bareVm) :=
    runAll_getD (by decide +kernel)
  refine ⟨_, hrun, by decide +kernel, ?_⟩
  rw [effective_permissions bareVm 1 (fun _ => BitVec.zero_and) (by decide) (by decide) (by decide)
    userCalls (by decide) _ hrun 0x1000 (by decide)]
  intro va phys flags hreq
  have hphys : phys &&& pteNX = 0 := by
    simp only [userCalls, requested, PageCall.request] at hreq
    split_ifs at hreq <;> cases hreq <;> rfl
  refine ⟨fun _ q _ f hf => ?_, fun hx => absurd hphys hx⟩
  simp only [userCalls, openedBy, PageCall.request, Option.none_or, Option.map_some] at hf
  split_ifs at hf <;> cases hf <;> decide

theorem user_page_unreachable : ¬∀ (s : Vm) (r : ℕ), (∀ i, s.ram.word r i &&& pteP = 0) →
    ¬s.pmm.Free r → r < 2 ^ 40 → s.pmm.gTotalPages ≤ 2 ^ 40 →
    ∀ calls : List PageCall, (∀ call ∈ calls, call.On s r) → ∀ s', runAll s calls = some s' →
    ∀ p : U64, frameOf p = r → ∀ va, cpuWalk s'.ram p va ≠ .fault → ∃ phys flags,
      requested (pageOf va) calls = some (phys, flags) ∧ Granted (cpuWalk s'.ram p va) flags := by
  intro hall
  have hrun : runAll bareVm mixedCalls = some ((runAll bareVm mixedCalls).getD bareVm) :=
    runAll_getD (by decide +kernel)
  obtain ⟨phys, flags, hreq, hu, -⟩ := hall bareVm 1 (fun _ => BitVec.zero_and) (by decide)
    (by decide) (by decide) mixedCalls (by decide) _ hrun 0x1000 (by decide) 0x401000
    (by decide +kernel)
  have hflags : requested (pageOf 0x401000) mixedCalls = some (0x6000, pteW ||| pteU) := by decide
  obtain ⟨-, rfl⟩ := Prod.mk.inj (Option.some.inj (hreq.symm.trans hflags))
  exact absurd hu (by decide +kernel)

end Mcincos
