import Mcincos.Core.UserSetup
import Mcincos.Sched.Contexts
import Mcincos.Vmm.LowerHalf

namespace Mcincos

open Radix

variable {s s' : Vm} {r f : ℕ} {va phys flags e : U64}

structure Prepared (r f : ℕ) (s : Vm) : Prop where
  inv : (s.lower r).Inv {r}
  cr3 : frameOf s.cr3 = r
  taken : ¬s.pmm.Free f
  data : ∀ k, ¬pageTables.At {r} (s.lower r).ram.word k f

structure Releaved (r : ℕ) (s s' : Vm) (leaf : U64 → Option U64) : Prop where
  grows : Grows r (s.lower r) (s'.lower r)
  leaf : ∀ va, leafAt (s'.lower r) r va = leaf va

theorem Prepared.root (h : Prepared r f s) : f ≠ r := by
  rintro rfl
  exact h.data 0 (.root rfl)

theorem Prepared.cpuWalk_eq (h : Prepared r f s) (hlow : (Vm.idxPml4 va).toNat < 256) :
    cpuWalk (s.lower r).ram s.cr3 va = cpuWalk s.ram s.cr3 va :=
  cpuWalk_lower h.inv h.cr3 hlow

theorem Prepared.mapPage (h : Prepared r f s) (hlow : (Vm.idxPml4 va).toNat < 256)
    (hcall : s.vmmMapPage va phys flags = (s', 0)) : Prepared r f s' ∧
    Releaved r s s' fun va' => if pageOf va' = pageOf va then
        some (leafEntry phys (flags &&& ~~~(ptePCD ||| ptePWT)))
      else leafAt (s.lower r) r va' := by
  have hcr3 : frameOf (s.cr3 &&& ~~~0xfff#64) = r := (frameOf_tableOf s.cr3).trans h.cr3
  have hboth := lower_mapPage h.inv hcr3 hlow phys (flags &&& ~~~(ptePCD ||| ptePWT))
  rw [show s.mapPage _ va phys _ = (s', 0) from hcall] at hboth
  obtain ⟨hgrows, hleaf⟩ := mapPage_leafAt h.inv hcr3 hboth
  obtain ⟨hchange, -⟩ := mapPage_change h.inv (Set.mem_singleton_iff.mpr hcr3) va phys
    (flags &&& ~~~(ptePCD ||| ptePWT))
  rw [hboth] at hchange
  refine ⟨⟨hgrows.inv, (congrArg frameOf hgrows.cr3).trans h.cr3, ?_, ?_⟩, hgrows, hleaf⟩
  · rintro ⟨hlt, htest⟩
    have hlt : f < s.pmm.gTotalPages := hchange.setup.total ▸ hlt
    cases hold : s.pmm.bitmapTest f with
    | false => exact h.taken ⟨hlt, hold⟩
    | true =>
      have hset : s'.pmm.bitmapTest f = true := (hchange.test f).mpr (.inl hold)
      exact absurd (hset.symm.trans htest) (by simp)
  · intro k hat
    obtain hold | hfree := hchange.grown k f hat
    · exact h.data k hold
    · exact h.taken hfree

structure Backed (r f : ℕ) (s : Vm) (va : U64) : Prop where
  low : (Vm.idxPml4 va).toNat < 256
  leaf : ∃ e, leafAt (s.lower r) r va = some e ∧ frameOf (cpuAddr e) = f

structure DataStored (r f : ℕ) (s s' : Vm) : Prop where
  prepared : Prepared r f s'
  same : Releaved r s s' fun va => leafAt (s.lower r) r va

theorem Prepared.storePhys (h : Prepared r f s) (hphys : frameOf phys = f) (b : BitVec 8) :
    DataStored r f s (s.storePhys phys b) := by
  have hne : frameOf phys ≠ r := hphys ▸ h.root
  have hlower : (s.storePhys phys b).lower r = (s.lower r).store phys ((phys >>> 3).setWidth 9)
      (setByte (s.load phys ((phys >>> 3).setWidth 9)) (phys.toNat % 8) b) :=
    Vm.lower_store (.inl hne) _
  have hrow (k g : ℕ) (hat : pageTables.At {r} (s.lower r).ram.word k g) :
      ((s.storePhys phys b).lower r).ram.word g = (s.lower r).ram.word g := by
    rw [hlower]
    funext j
    rw [Vm.store_word, if_neg]
    rintro ⟨rfl, -⟩
    exact h.data k (hphys ▸ hat)
  have hinner : SameInner pageTables {r} (s.lower r).ram.word ((s.storePhys phys b).lower r).ram.word :=
    fun k g hat _ j => congrFun (hrow k g hat) j
  have hget {q : List (BitVec 9)} (hq : q.length ≤ 4) :
      pageTables.get ((s.storePhys phys b).lower r).ram.word r q =
        pageTables.get (s.lower r).ram.word r q :=
    get_congr hrow (.root rfl) (by rw [Nat.zero_add]; exact hq)
  have hinv : ((s.storePhys phys b).lower r).Inv {r} :=
    ⟨hinner.forest h.inv.forest, fun k g hat => h.inv.used k g (hinner.at_iff.mp hat), h.inv.zero,
      h.inv.width, h.inv.low⟩
  refine ⟨⟨hinv, h.cr3, h.taken, fun k hat => h.data k (hinner.at_iff.mp hat)⟩,
    ⟨hinv, fun q hq e he => (hget (by omega)).trans he, rfl⟩, fun va => ?_⟩
  exact hget (le_refl 4)

theorem pageOf_add {i : U64} (h : va.toNat % 4096 + i.toNat < 4096) : pageOf (va + i) = pageOf va := by
  apply BitVec.eq_of_toNat_eq
  have hsum : (va + i).toNat = va.toNat + i.toNat := by
    rw [BitVec.toNat_add]
    omega
  rw [toNat_pageOf, toNat_pageOf, hsum]
  omega

theorem idxPml4_add {i : U64} (h : va.toNat % 4096 + i.toNat < 4096) :
    Vm.idxPml4 (va + i) = Vm.idxPml4 va :=
  (List.cons.inj (pagePath_inj.mpr (pageOf_add h))).1

theorem frameOf_or_offset (page va : U64) : frameOf (page ||| va &&& 0xfff#64) = frameOf page := by
  have hlow : (va &&& 0xfff#64) >>> 12 = 0#64 := by
    apply BitVec.eq_of_getLsbD_eq
    intro k hk
    rw [BitVec.getLsbD_ushiftRight, BitVec.getLsbD_and, lowMask_bit]
    simp
  rw [frameOf_eq, frameOf_eq, BitVec.ushiftRight_or_distrib, hlow, BitVec.or_zero]

theorem Backed.add {i : U64} (h : Backed r f s va) (hroom : va.toNat % 4096 + i.toNat < 4096) :
    Backed r f s (va + i) := by
  obtain ⟨e, hleaf, hframe⟩ := h.leaf
  exact ⟨(idxPml4_add hroom).symm ▸ h.low, e, (leafAt_congr (pageOf_add hroom)).trans hleaf, hframe⟩

theorem Backed.physical (h : Backed r f s va) (hp : Prepared r f s) :
    ∃ phys, (cpuWalk s.ram s.cr3 va).physical va = some phys ∧ frameOf phys = f := by
  obtain ⟨e, hleaf, hframe⟩ := h.leaf
  refine ⟨_, ?_, (frameOf_or_offset _ va).trans hframe⟩
  rw [← hp.cpuWalk_eq h.low]
  exact (cpuWalk_leafAt hp.inv hp.cr3 hleaf).2

theorem Releaved.trans {s'' : Vm} {leaf : U64 → Option U64} (h : Releaved r s s' leaf)
    (h' : Releaved r s' s'' fun va => leafAt (s'.lower r) r va) : Releaved r s s'' leaf :=
  ⟨h.grows.trans h'.grows, fun va => (h'.leaf va).trans (h.leaf va)⟩

theorem Prepared.refl (h : Prepared r f s) : DataStored r f s s := ⟨h, .refl h.inv, fun _ => rfl⟩

theorem DataStored.trans {s'' : Vm} (h : DataStored r f s s') (h' : DataStored r f s' s'') :
    DataStored r f s s'' :=
  ⟨h'.prepared, h.same.trans h'.same⟩

theorem DataStored.backed (h : DataStored r f s s') (hb : Backed r f s va) : Backed r f s' va := by
  obtain ⟨e, hleaf, hframe⟩ := hb.leaf
  exact ⟨hb.low, e, (h.same.leaf va).trans hleaf, hframe⟩

theorem DataStored.walk_eq (h : DataStored r f s s') (hp : Prepared r f s)
    (hlow : (Vm.idxPml4 va).toNat < 256) : cpuWalk s'.ram s'.cr3 va = cpuWalk s.ram s.cr3 va := by
  rw [← h.prepared.cpuWalk_eq hlow, ← hp.cpuWalk_eq hlow, show s'.cr3 = s.cr3 from h.same.grows.cr3]
  exact h.same.grows.cpuWalk_eq hp.inv hp.cr3 (h.same.leaf va)

theorem Prepared.storeByte (h : Prepared r f s) (hb : Backed r f s va) (b : BitVec 8) :
    (∀ s', s.storeByte va b = some s' → DataStored r f s s') ∧
      ((cpuWalk s.ram s.cr3 va).write → ∃ s', s.storeByte va b = some s') := by
  obtain ⟨phys, hphys, hframe⟩ := hb.physical h
  simp only [Vm.storeByte, hphys, Option.map_some]
  by_cases hwrite : (cpuWalk s.ram s.cr3 va).write
  · rw [if_pos hwrite]
    refine ⟨?_, fun _ => ⟨_, rfl⟩⟩
    rintro s' ⟨⟩
    exact h.storePhys hframe b
  · rw [if_neg hwrite]
    exact ⟨by simp, fun hw => absurd hw hwrite⟩

theorem nextByte {n : ℕ} (h : va.toNat % 4096 + (n + 1 + 1) ≤ 4096) :
    va.toNat % 4096 + (1 : U64).toNat < 4096 ∧ (va + 1).toNat % 4096 + (n + 1) ≤ 4096 := by
  rw [BitVec.toNat_add, show (1 : U64).toNat = 1 from rfl]
  omega

theorem Prepared.storeBytes {bs : List (BitVec 8)} (h : Prepared r f s) (hb : Backed r f s va)
    (hroom : va.toNat % 4096 + bs.length ≤ 4096) :
    (∀ s', s.storeBytes va bs = some s' → DataStored r f s s') ∧
      ((cpuWalk s.ram s.cr3 va).write → ∃ s', s.storeBytes va bs = some s') := by
  induction bs generalizing s va with
  | nil =>
    refine ⟨?_, fun _ => ⟨s, rfl⟩⟩
    rintro s' ⟨⟩
    exact h.refl
  | cons b bs ih =>
    obtain ⟨hstored, hsome⟩ := h.storeByte hb b
    simp only [Vm.storeBytes, Option.bind_eq_some_iff]
    cases bs with
    | nil =>
      constructor
      · rintro s' ⟨s1, hfirst, hrest⟩
        obtain rfl := Option.some.inj hrest
        exact hstored s1 hfirst
      · intro hwrite
        obtain ⟨s1, hfirst⟩ := hsome hwrite
        exact ⟨s1, s1, hfirst, rfl⟩
    | cons b' bs =>
      obtain ⟨hroom1, hroom'⟩ := nextByte hroom
      constructor
      · rintro s' ⟨s1, hfirst, hrest⟩
        have h1 := hstored s1 hfirst
        exact h1.trans ((ih h1.prepared (h1.backed (hb.add hroom1)) hroom').1 s' hrest)
      · intro hwrite
        obtain ⟨s1, hfirst⟩ := hsome hwrite
        have h1 := hstored s1 hfirst
        rw [← h1.walk_eq h hb.low, ← cpuWalk_page (pageOf_add hroom1)] at hwrite
        obtain ⟨s', hrest⟩ := (ih h1.prepared (h1.backed (hb.add hroom1)) hroom').2 hwrite
        exact ⟨s', s1, hfirst, hrest⟩

theorem Prepared.buildUserBlob (h : Prepared r f s) (hb : Backed r f s va)
    (hstart : va.toNat % 4096 = 0) :
    (∀ s', s.buildUserBlob va = some s' → DataStored r f s s') ∧
      ((cpuWalk s.ram s.cr3 va).write → ∃ s', s.buildUserBlob va = some s') := by
  have hcodeLen : userCode.length = 21 := rfl
  have hmsgLen : userMsg.length = 16 := rfl
  have hoff : (BitVec.ofNat 64 userCode.length).toNat = 21 := rfl
  have hroom : va.toNat % 4096 + (BitVec.ofNat 64 userCode.length).toNat < 4096 := by omega
  have hroom' : (va + BitVec.ofNat 64 userCode.length).toNat % 4096 + userMsg.length ≤ 4096 := by
    rw [BitVec.toNat_add, hoff]
    omega
  obtain ⟨hstored, hsome⟩ := h.storeBytes hb (show _ + userCode.length ≤ 4096 by omega)
  simp only [Vm.buildUserBlob, Option.bind_eq_some_iff]
  constructor
  · rintro s' ⟨s1, hcode, hmsg⟩
    have h1 := hstored s1 hcode
    exact h1.trans ((h1.prepared.storeBytes (h1.backed (hb.add hroom)) hroom').1 s' hmsg)
  · intro hwrite
    obtain ⟨s1, hcode⟩ := hsome hwrite
    have h1 := hstored s1 hcode
    rw [← h1.walk_eq h hb.low, ← cpuWalk_page (pageOf_add hroom)] at hwrite
    obtain ⟨s', hmsg⟩ := (h1.prepared.storeBytes (h1.backed (hb.add hroom)) hroom').2 hwrite
    exact ⟨s', s1, hcode, hmsg⟩

structure Taken (r : ℕ) (s s' : Vm) : Prop where
  ram : s'.ram = s.ram
  cr3 : s'.cr3 = s.cr3
  inv : (s.lower r).Inv {r} → (s'.lower r).Inv {r}
  free : ∀ f, s'.pmm.Free f → s.pmm.Free f

theorem Taken.trans {s'' : Vm} (h : Taken r s s') (h' : Taken r s' s'') : Taken r s s'' :=
  ⟨h'.ram.trans h.ram, h'.cr3.trans h.cr3, fun hs => h'.inv (h.inv hs), fun f hf => h.free f (h'.free f hf)⟩

theorem Taken.of_alloc {n : U64} (h : s.allocPages n = (s', phys)) : Taken r s s' := by
  rcases hp : s.pmm.pmmAllocPages n with ⟨q, p⟩
  simp only [Vm.allocPages, hp, Prod.mk.injEq] at h
  obtain ⟨rfl, -⟩ := h
  refine ⟨rfl, rfl, fun hs => ?_, fun f hf => ?_⟩
  · have halloc := hs.alloc n
    rwa [show (s.lower r).pmm.pmmAllocPages n = (q, p) from hp] at halloc
  · have hfree := Pmm.pmmAllocPages_free (p := s.pmm) (n := n) (i := f)
    rw [hp] at hfree
    exact hfree hf

theorem Taken.word (h : Taken r s s') : (s'.lower r).ram.word = (s.lower r).ram.word := by
  rw [Vm.lower, Vm.lower, h.ram]

theorem Taken.grows (h : Taken r s s') (hs : (s.lower r).Inv {r}) : Grows r (s.lower r) (s'.lower r) :=
  ⟨h.inv hs, fun _ _ _ he => h.word ▸ he, h.cr3⟩

theorem Taken.leafAt_eq (h : Taken r s s') (va : U64) :
    leafAt (s'.lower r) r va = leafAt (s.lower r) r va := by
  rw [leafAt, leafAt, h.word]

theorem Vm.allocPages_page (h : s.allocPages 1 = (s', phys)) (hphys : phys ≠ 0) : ∃ f,
    phys = BitVec.ofNat 64 (4096 * f) ∧ f < s.pmm.gTotalPages ∧ s.pmm.Free f ∧ ¬s'.pmm.Free f := by
  obtain ⟨he, -⟩ | ⟨q, f, he, ha⟩ := s.pmm.pmmAllocPages_cases 1 (by decide)
  · simp only [Vm.allocPages, he, Prod.mk.injEq] at h
    exact absurd h.2.symm hphys
  · simp only [Vm.allocPages, he, Prod.mk.injEq] at h
    obtain ⟨rfl, rfl⟩ := h
    have hfree : s.pmm.Free f := ha.free 0 (by decide)
    refine ⟨f, ?_, hfree.1, hfree, fun hf => ((ha.free_iff f).mp hf).2 ⟨le_refl f, by simp⟩⟩
    apply BitVec.eq_of_toNat_eq
    have hbounded := s.pmm.bounded
    have hlt := hfree.1
    rw [ha.toNat_address, BitVec.toNat_ofNat, Nat.mod_eq_of_lt]
    omega

theorem allocUserFrames_prepared {p : UserFrames} (hs : (s.lower r).Inv {r}) (hr : frameOf s.cr3 = r)
    (h : s.allocUserFrames = (s', p)) (hp : p.uc0Phys ≠ 0) : Taken r s s' ∧
      ∃ f, p.uc0Phys = BitVec.ofNat 64 (4096 * f) ∧ f < 2 ^ 40 ∧ Prepared r f s' := by
  rw [Vm.allocUserFrames] at h
  rcases ha1 : s.allocPages 2 with ⟨s1, kstack0⟩
  rcases ha2 : s1.allocPages 2 with ⟨s2, kstack1⟩
  rcases ha3 : s2.allocPages 1 with ⟨s3, uc0Phys⟩
  rcases ha4 : s3.allocPages 1 with ⟨s4, us0Phys⟩
  rcases ha5 : s4.allocPages 1 with ⟨s5, uc1Phys⟩
  rcases ha6 : s5.allocPages 1 with ⟨s6, us1Phys⟩
  simp only [ha1, ha2, ha3, ha4, ha5, ha6, Prod.mk.injEq] at h
  obtain ⟨rfl, rfl⟩ := h
  have hbefore : Taken r s s2 := (Taken.of_alloc ha1).trans (.of_alloc ha2)
  have hafter : Taken r s3 s6 := ((Taken.of_alloc ha4).trans (.of_alloc ha5)).trans (.of_alloc ha6)
  have hall : Taken r s s6 := (hbefore.trans (.of_alloc ha3)).trans hafter
  obtain ⟨f, hphys, hlt, hfree, htaken⟩ := Vm.allocPages_page ha3 hp
  have hs2 := hbefore.inv hs
  refine ⟨hall, f, hphys, lt_of_lt_of_le hlt hs2.width, ?_⟩
  constructor
  · exact hall.inv hs
  · exact (congrArg frameOf hall.cr3).trans hr
  · exact fun hf => htaken (hafter.free f hf)
  · intro k hat
    rw [Vm.lower, hall.ram, ← hbefore.ram] at hat
    exact hs2.used k f hat hfree

def sharedLeaf (r : ℕ) (s : Vm) (phys : U64) (pages : List U64) (va : U64) : Option U64 :=
  if pageOf va ∈ pages.map pageOf then some (leafEntry phys (pteU ||| pteW))
  else leafAt (s.lower r) r va

theorem Releaved.map {s0 : Vm} {pages : List U64} (hp : Prepared r f s)
    (h : Releaved r s0 s (sharedLeaf r s0 phys pages)) (hlow : (Vm.idxPml4 va).toNat < 256)
    (hcall : s.vmmMapPage va phys (pteU ||| pteW) = (s', 0)) :
    Prepared r f s' ∧ Releaved r s0 s' (sharedLeaf r s0 phys (va :: pages)) := by
  obtain ⟨hp', h'⟩ := hp.mapPage hlow hcall
  refine ⟨hp', h.grows.trans h'.grows, fun va' => ?_⟩
  rw [h'.leaf]
  simp only [sharedLeaf, List.map_cons, List.mem_cons]
  by_cases hpage : pageOf va' = pageOf va
  · rw [if_pos hpage, if_pos (.inl hpage)]
    rfl
  · rw [if_neg hpage, h.leaf, sharedLeaf]
    exact if_congr (or_iff_right hpage).symm rfl rfl

theorem mapUserPages_releaved {p : UserFrames} {rcs : List Int} (hp : Prepared r f s)
    (h : s.mapUserPages p = (s', rcs)) (hrcs : ∀ rc ∈ rcs, rc = 0) : Prepared r f s' ∧
      Releaved r s s' (sharedLeaf r s p.uc0Phys [userCode0, userCode1, userStack0, userCode0]) := by
  rw [Vm.mapUserPages] at h
  rcases hc0 : s.vmmMapPage userCode0 p.uc0Phys (pteU ||| pteW) with ⟨s1, rc0⟩
  rcases hc1 : s1.vmmMapPage userStack0 p.uc0Phys (pteU ||| pteW) with ⟨s2, rc1⟩
  rcases hc2 : s2.vmmMapPage userCode1 p.uc0Phys (pteU ||| pteW) with ⟨s3, rc2⟩
  rcases hc3 : s3.vmmMapPage userCode0 p.uc0Phys (pteU ||| pteW) with ⟨s4, rc3⟩
  simp only [hc0, hc1, hc2, hc3, Prod.mk.injEq] at h
  obtain ⟨rfl, rfl⟩ := h
  simp only [List.forall_mem_cons] at hrcs
  obtain ⟨rfl, rfl, rfl, rfl, -⟩ := hrcs
  have hstart : Releaved r s s (sharedLeaf r s p.uc0Phys []) := hp.refl.same
  obtain ⟨hp1, hm1⟩ := hstart.map hp (by decide) hc0
  obtain ⟨hp2, hm2⟩ := hm1.map hp1 (by decide) hc1
  obtain ⟨hp3, hm3⟩ := hm2.map hp2 (by decide) hc2
  exact hm3.map hp3 (by decide) hc3

theorem Prepared.loadByte_storeByte (h : Prepared r f s) {va' : U64} (hlow : (Vm.idxPml4 va').toNat < 256)
    (hphys : (cpuWalk s.ram s.cr3 va).physical va = some phys) (hframe : frameOf phys = f)
    (hphys' : (cpuWalk s.ram s.cr3 va').physical va' = some phys) {b : BitVec 8}
    (hstore : s.storeByte va b = some s') : s'.loadByte va' = some b := by
  simp only [Vm.storeByte, hphys, Option.map_some] at hstore
  by_cases hwrite : (cpuWalk s.ram s.cr3 va).write
  · rw [if_pos hwrite] at hstore
    obtain rfl := Option.some.inj hstore
    rw [Vm.loadByte, (h.storePhys hframe b).walk_eq h hlow, hphys', Option.map_some,
      Vm.loadPhys_storePhys, if_pos rfl]
  · rw [if_neg hwrite] at hstore
    exact absurd hstore (by simp)

theorem Releaved.physical {s0 : Vm} {pages : List U64} (hp : Prepared r f s) (hf : f < 2 ^ 40)
    (h : Releaved r s0 s (sharedLeaf r s0 (BitVec.ofNat 64 (4096 * f)) pages))
    (hlow : (Vm.idxPml4 va).toNat < 256) (hmem : pageOf va ∈ pages.map pageOf) :
    (cpuWalk s.ram s.cr3 va).physical va =
      some (BitVec.ofNat 64 (4096 * f) ||| va &&& 0xfff#64) := by
  have hleaf := (h.leaf va).trans (if_pos hmem)
  rw [← hp.cpuWalk_eq hlow, (cpuWalk_leafAt hp.inv hp.cr3 hleaf).2, cpuAddr_leafEntry (by decide) hf]

theorem Releaved.backed {s0 : Vm} {pages : List U64} (hf : f < 2 ^ 40)
    (h : Releaved r s0 s (sharedLeaf r s0 (BitVec.ofNat 64 (4096 * f)) pages))
    (hlow : (Vm.idxPml4 va).toNat < 256) (hmem : pageOf va ∈ pages.map pageOf) : Backed r f s va := by
  refine ⟨hlow, _, (h.leaf va).trans (if_pos hmem), ?_⟩
  rw [cpuAddr_leafEntry (by decide) hf, frameOf, BitVec.toNat_ofNat]
  omega

section

variable {T E : Type}

def userPages : List U64 := [userCode0, userStack0, userCode1, userStack1]

def sharedPages : List U64 := [userCode0, userCode1, userStack0, userCode0]

def UserSetup.walk (u : UserSetup T E) (va : U64) : CpuWalk := cpuWalk u.vm.ram u.vm.cr3 va

def UserSetup.physical (u : UserSetup T E) (va : U64) : Option U64 := (u.walk va).physical va

def UserFrames.userFrames (p : UserFrames) : List U64 := [p.uc0Phys, p.us0Phys, p.uc1Phys, p.us1Phys]

structure UserSetup.OwnMemory (u : UserSetup T E) (t0 t1 : T) : Prop where
  mapped : ∀ va ∈ userPages, (u.walk va).user ∧ (u.walk va).write ∧
    ∃ phys ∈ u.frames.userFrames, u.physical va = some phys
  apart : userPages.Pairwise fun va va' => u.physical va ≠ u.physical va'
  stackTops : ∀ t ∈ [t0, t1], u.walk ((u.kernel.thread t).frame.rsp - 8) ≠ .fault

variable [DecidableEq T]

theorem kmainUsers_cases {k : Kernel T E} {hhdmOffset : U64} {t0 t1 : T} {u : UserSetup T E}
    (h : kmainUsers s k hhdmOffset t0 t1 = some u) : ∃ s1 s2 s3,
      s.allocUserFrames = (s1, u.frames) ∧ u.frames.uc0Phys ≠ 0 ∧
      s1.mapUserPages u.frames = (s2, u.rcs) ∧ s2.buildUserBlob userCode0 = some s3 ∧
      s3.buildUserBlob userCode1 = some u.vm ∧
      (u.kernel.thread t1).frame.rsp = userStack1 + 4096 := by
  rw [kmainUsers] at h
  rcases halloc : s.allocUserFrames with ⟨s1, p⟩
  rcases hmap : s1.mapUserPages p with ⟨s2, rcs⟩
  simp only [halloc, hmap] at h
  by_cases hnull : p.uc0Phys = 0 ∨ p.us0Phys = 0 ∨ p.uc1Phys = 0 ∨ p.us1Phys = 0
  · rw [if_pos hnull] at h
    exact absurd h (by simp)
  · rw [if_neg hnull] at h
    obtain ⟨s3, hblob0, h⟩ := Option.bind_eq_some_iff.mp h
    obtain ⟨s4, hblob1, h⟩ := Option.bind_eq_some_iff.mp h
    obtain rfl := Option.some.inj h
    refine ⟨s1, s2, s3, rfl, fun h0 => hnull (.inl h0), hmap, hblob0, hblob1, ?_⟩
    rw [Kernel.threadInitUser_thread, if_pos rfl]
    rfl

theorem kmainUsers_releaved {k : Kernel T E} {hhdmOffset : U64} {t0 t1 : T} {u : UserSetup T E}
    (hs : (s.lower (frameOf s.cr3)).Inv {frameOf s.cr3})
    (h : kmainUsers s k hhdmOffset t0 t1 = some u) (hrcs : ∀ rc ∈ u.rcs, rc = 0) :
    ∃ f, u.frames.uc0Phys = BitVec.ofNat 64 (4096 * f) ∧ f < 2 ^ 40 ∧
      Prepared (frameOf s.cr3) f u.vm ∧ u.vm.cr3 = s.cr3 ∧ Releaved (frameOf s.cr3) s u.vm
        (sharedLeaf (frameOf s.cr3) s (BitVec.ofNat 64 (4096 * f)) sharedPages) := by
  obtain ⟨s1, s2, s3, halloc, hnull, hmap, hblob0, hblob1, -⟩ := kmainUsers_cases h
  obtain ⟨htaken, f, hphys, hf, hp1⟩ := allocUserFrames_prepared hs rfl halloc hnull
  obtain ⟨hp2, hm2⟩ := mapUserPages_releaved hp1 hmap hrcs
  rw [hphys] at hm2
  have h3 := (hp2.buildUserBlob (hm2.backed hf (by decide) (by decide)) (by decide)).1 s3 hblob0
  have h4 := (h3.prepared.buildUserBlob (h3.backed (hm2.backed hf (by decide) (by decide)))
    (by decide)).1 u.vm hblob1
  have hlast := hm2.trans (h3.trans h4).same
  refine ⟨f, hphys, hf, h4.prepared, hlast.grows.cr3.trans htaken.cr3, ?_⟩
  constructor
  · exact (htaken.grows hs).trans hlast.grows
  · intro va
    rw [hlast.leaf, sharedLeaf, sharedLeaf, htaken.leafAt_eq]
    rfl

theorem kmainUsers_some {p : UserFrames} {rcs : List Int} {s1 s2 : Vm}
    (hs : (s.lower (frameOf s.cr3)).Inv {frameOf s.cr3}) (halloc : s.allocUserFrames = (s1, p))
    (hnull : 0 ∉ p.userFrames) (hmap : s1.mapUserPages p = (s2, rcs)) (hrcs : ∀ rc ∈ rcs, rc = 0)
    (hcode0 : (cpuWalk s2.ram s2.cr3 userCode0).write)
    (hcode1 : (cpuWalk s2.ram s2.cr3 userCode1).write) (k : Kernel T E) (hhdmOffset : U64) (t0 t1 : T) :
    ∃ u, kmainUsers s k hhdmOffset t0 t1 = some u ∧ ∀ rc ∈ u.rcs, rc = 0 := by
  simp only [UserFrames.userFrames, List.mem_cons, List.not_mem_nil, or_false, not_or, eq_comm] at hnull
  obtain ⟨-, f, hphys, hf, hp1⟩ := allocUserFrames_prepared hs rfl halloc hnull.1
  obtain ⟨hp2, hm2⟩ := mapUserPages_releaved hp1 hmap hrcs
  rw [hphys] at hm2
  have hb0 : Backed (frameOf s.cr3) f s2 userCode0 := hm2.backed hf (by decide) (by decide)
  have hb1 : Backed (frameOf s.cr3) f s2 userCode1 := hm2.backed hf (by decide) (by decide)
  obtain ⟨hstored0, hsome0⟩ := hp2.buildUserBlob hb0 (by decide)
  obtain ⟨s3, hblob0⟩ := hsome0 hcode0
  have h3 := hstored0 s3 hblob0
  rw [← h3.walk_eq hp2 hb1.low] at hcode1
  obtain ⟨s4, hblob1⟩ := (h3.prepared.buildUserBlob (h3.backed hb1) (by decide)).2 hcode1
  simp only [kmainUsers, halloc, hmap, hnull, or_self, if_false, hblob0, hblob1, Option.bind_some]
  exact ⟨_, rfl, hrcs⟩

theorem sharedPages_byte {page i : U64} (hpage : page ∈ sharedPages) (hi : i < 4096) :
    (Vm.idxPml4 (page + i)).toNat < 256 ∧ pageOf (page + i) ∈ sharedPages.map pageOf ∧
      (page + i).toNat % 4096 = i.toNat := by
  have hi : i.toNat < 4096 := BitVec.lt_def.mp hi
  obtain ⟨hstart, hlow⟩ : page.toNat % 4096 = 0 ∧ (Vm.idxPml4 page).toNat < 256 := by
    simp only [sharedPages, List.mem_cons, List.not_mem_nil, or_false] at hpage
    obtain rfl | rfl | rfl | rfl := hpage <;> decide
  have hroom : page.toNat % 4096 + i.toNat < 4096 := by omega
  refine ⟨(idxPml4_add hroom).symm ▸ hlow, ?_, ?_⟩
  · rw [pageOf_add hroom]
    exact List.mem_map_of_mem hpage
  · rw [BitVec.toNat_add]
    omega

theorem Releaved.physical_byte {s0 : Vm} {page i : U64} (hp : Prepared r f s) (hf : f < 2 ^ 40)
    (h : Releaved r s0 s (sharedLeaf r s0 (BitVec.ofNat 64 (4096 * f)) sharedPages))
    (hpage : page ∈ sharedPages) (hi : i < 4096) :
    (cpuWalk s.ram s.cr3 (page + i)).physical (page + i) = some (BitVec.ofNat 64 (4096 * f) + i) := by
  obtain ⟨hlow, hmem, hoffset⟩ := sharedPages_byte hpage hi
  rw [h.physical hp hf hlow hmem]
  congr 1
  apply BitVec.eq_of_toNat_eq
  have hi : i.toNat < 4096 := BitVec.lt_def.mp hi
  rw [frame_or_offset hf, hoffset, BitVec.toNat_add, BitVec.toNat_ofNat]
  omega

theorem kmainUsers_physical {k : Kernel T E} {hhdmOffset : U64} {t0 t1 : T} {u : UserSetup T E}
    (hs : (s.lower (frameOf s.cr3)).Inv {frameOf s.cr3})
    (h : kmainUsers s k hhdmOffset t0 t1 = some u) (hrcs : ∀ rc ∈ u.rcs, rc = 0) {page i : U64}
    (hpage : page ∈ sharedPages) (hi : i < 4096) :
    u.physical (page + i) = some (u.frames.uc0Phys + i) := by
  obtain ⟨f, hphys, hf, hp, -, hm⟩ := kmainUsers_releaved hs h hrcs
  rw [hphys]
  exact hm.physical_byte hp hf hpage hi

theorem kmainUsers_not_ownMemory {k : Kernel T E} {hhdmOffset : U64} {t0 t1 : T} {u : UserSetup T E}
    (hs : (s.lower (frameOf s.cr3)).Inv {frameOf s.cr3})
    (h : kmainUsers s k hhdmOffset t0 t1 = some u) (hrcs : ∀ rc ∈ u.rcs, rc = 0) :
    ¬u.OwnMemory t0 t1 := by
  have hcode := kmainUsers_physical hs h hrcs (show userCode0 ∈ sharedPages by simp [sharedPages])
    (show 0#64 < 4096 by decide)
  have hstack := kmainUsers_physical hs h hrcs (show userStack0 ∈ sharedPages by simp [sharedPages])
    (show 0#64 < 4096 by decide)
  rw [BitVec.add_zero] at hcode hstack
  intro hown
  exact List.rel_of_pairwise_cons hown.apart List.mem_cons_self (hcode.trans hstack.symm)

/-- Threads 0 and 1 run on one frame, which is also the stack of thread 0, and the stack of thread 1
is what it was before. -/
theorem user_pages_shared (s : Vm) (hs : (s.lower (frameOf s.cr3)).Inv {frameOf s.cr3})
    (k : Kernel T E) (hhdmOffset : U64) (t0 t1 : T) (u : UserSetup T E)
    (h : kmainUsers s k hhdmOffset t0 t1 = some u) (hrcs : ∀ rc ∈ u.rcs, rc = 0) :
    ¬u.OwnMemory t0 t1 ∧
    (∀ page ∈ [userCode0, userStack0, userCode1], ∀ i < 4096,
      u.physical (page + i) = some (u.frames.uc0Phys + i)) ∧
    (∀ page ∈ [userCode0, userStack0, userCode1], ∀ page' ∈ [userCode0, userStack0, userCode1],
      ∀ i < 4096, ∀ b vm, u.vm.storeByte (page + i) b = some vm → vm.loadByte (page' + i) = some b) ∧
    u.walk ((u.kernel.thread t1).frame.rsp - 8) = cpuWalk s.ram s.cr3 (userStack1 + 4088) := by
  obtain ⟨f, hphys, hf, hp, hcr3, hm⟩ := kmainUsers_releaved hs h hrcs
  obtain ⟨-, -, -, -, -, -, -, -, hrsp⟩ := kmainUsers_cases h
  have hsub : ∀ page ∈ [userCode0, userStack0, userCode1], page ∈ sharedPages := by
    simp [sharedPages]
  refine ⟨kmainUsers_not_ownMemory hs h hrcs,
    fun page hpage i hi => kmainUsers_physical hs h hrcs (hsub page hpage) hi, ?_, ?_⟩
  · intro page hpage page' hpage' i hi b vm hstore
    obtain ⟨hlow, -, -⟩ := sharedPages_byte (hsub page' hpage') hi
    apply hp.loadByte_storeByte hlow (kmainUsers_physical hs h hrcs (hsub page hpage) hi) _
      (kmainUsers_physical hs h hrcs (hsub page' hpage') hi) hstore
    have hi : i.toNat < 4096 := BitVec.lt_def.mp hi
    rw [hphys, frameOf, BitVec.toNat_add, BitVec.toNat_ofNat]
    omega
  · rw [hrsp, show userStack1 + 4096 - 8 = userStack1 + 4088 from rfl, UserSetup.walk,
      ← hp.cpuWalk_eq (by decide), hcr3, ← cpuWalk_lower hs rfl (by decide)]
    apply hm.grows.cpuWalk_eq hs rfl
    rw [hm.leaf, sharedLeaf, if_neg (by decide)]

def roomyVm : Vm where
  ram := ⟨fun _ _ => 0, []⟩
  pmm := { gHhdm := 0, gBitmap := 0, bytes := [3#8, 0#8, 0#8, 0#8], gTotalBytes := 0x20000,
           gFreeBytes := 0x1e000, gTotalPages := 32, sized := rfl, bounded := by decide }
  cr3 := 0x1000
  gKernelCr3Phys := 0x1000

theorem roomyVm_inv : (roomyVm.lower (frameOf roomyVm.cr3)).Inv {frameOf roomyVm.cr3} := by
  apply Vm.Inv.of_empty
  · intro i
    have hzero : (roomyVm.lower (frameOf roomyVm.cr3)).ram.word (frameOf roomyVm.cr3) i = 0 :=
      ite_self 0
    rw [hzero]
    exact BitVec.zero_and
  all_goals decide

theorem kmainUsers_roomyVm (k : Kernel T E) (t0 t1 : T) :
    ∃ u, kmainUsers roomyVm k 0 t0 t1 = some u ∧ ∀ rc ∈ u.rcs, rc = 0 := by
  apply kmainUsers_some roomyVm_inv Prod.mk.eta.symm (by decide +kernel) Prod.mk.eta.symm
  all_goals decide +kernel

end

theorem user_pages_shared_roomyVm : ∃ u, kmainUsers roomyVm Kernel.threeThreads 0 0 1 = some u ∧
    ∀ page ∈ [userCode0, userStack0, userCode1], u.physical page = some u.frames.uc0Phys := by
  obtain ⟨u, hu, hrcs⟩ := kmainUsers_roomyVm Kernel.threeThreads 0 1
  obtain ⟨-, hbyte, -⟩ := user_pages_shared roomyVm roomyVm_inv _ _ _ _ u hu hrcs
  refine ⟨u, hu, fun page hpage => ?_⟩
  have hfirst := hbyte page hpage 0#64 (by decide)
  rwa [BitVec.add_zero, BitVec.add_zero] at hfirst

theorem user_pages_not_own : ∃ u, kmainUsers roomyVm Kernel.threeThreads 0 0 1 = some u ∧
    (∀ rc ∈ u.rcs, rc = 0) ∧ ¬u.OwnMemory 0 1 := by
  obtain ⟨u, hu, hrcs⟩ := kmainUsers_roomyVm Kernel.threeThreads 0 1
  exact ⟨u, hu, hrcs, kmainUsers_not_ownMemory roomyVm_inv hu hrcs⟩

end Mcincos
