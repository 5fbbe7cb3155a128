import Mcincos.Pmm.FreeSet

namespace Mcincos.Pmm

open Relation

structure Block where
  phys : U64
  pages : U64
  deriving DecidableEq

def Block.start (c : Block) : ℕ := c.phys.toNat / 4096

def Block.frames (c : Block) : Finset ℕ := Finset.Ico c.start (c.start + c.pages.toNat)

def Block.release (p : Pmm) (c : Block) : Pmm := p.pmmFreePages c.phys c.pages

inductive ClientStep : Pmm × List Block → Pmm × List Block → Prop
  | alloc {p q : Pmm} {live : List Block} {n phys : U64} :
      p.pmmAllocPages n = (q, phys) → phys ≠ 0 → ClientStep (p, live) (q, ⟨phys, n⟩ :: live)
  | refused {p q : Pmm} {live : List Block} {n : U64} :
      p.pmmAllocPages n = (q, 0) → ClientStep (p, live) (q, live)
  | free {p : Pmm} {live : List Block} {c : Block} :
      c ∈ live → ClientStep (p, live) (c.release p, live.erase c)

/-- The frames used are the reserved ones and those of the live blocks, which are disjoint. -/
structure Owns (p0 : Pmm) (reserved : Set ℕ) (p : Pmm) (live : List Block) : Prop where
  setup : SameSetup p0 p
  bits : ∀ i, p.bitmapTest i = true ↔ i ∈ reserved ∨ ∃ c ∈ live, i ∈ c.frames
  fresh : ∀ c ∈ live, ∀ i ∈ c.frames, i < p0.gTotalPages ∧ i ∉ reserved
  apart : live.Pairwise (fun c d => Disjoint c.frames d.frames)
  proper : ∀ c ∈ live, c.phys ≠ 0 ∧ c.pages ≠ 0

def usedFrames (p : Pmm) : Set ℕ := {i | p.bitmapTest i = true}

variable {p0 p q : Pmm} {reserved : Set ℕ} {live : List Block}

theorem Owns.start (p0 : Pmm) : Owns p0 p0.usedFrames p0 [] where
  setup := .refl p0
  bits := by simp [usedFrames]
  fresh := by simp
  apart := .nil
  proper := by simp

theorem Owns.perm {live' : List Block} (h : Owns p0 reserved p live) (hp : live'.Perm live) :
    Owns p0 reserved p live' where
  setup := h.setup
  bits := by simpa only [hp.mem_iff] using h.bits
  fresh := fun c hc => h.fresh c (hp.mem_iff.mp hc)
  apart := (hp.pairwise_iff fun hd => hd.symm).mpr h.apart
  proper := fun c hc => h.proper c (hp.mem_iff.mp hc)

theorem Owns.free_iff (h : Owns p0 reserved p live) (i : ℕ) :
    p.Free i ↔ i < p0.gTotalPages ∧ i ∉ reserved ∧ ∀ c ∈ live, i ∉ c.frames := by
  have hbits := h.bits i
  rw [Free, h.setup.total, ← Bool.not_eq_true, hbits]
  push Not
  rfl

theorem Owns.free_base {more : Set ℕ} (h : Owns p0 (p0.usedFrames ∪ more) p live) {i : ℕ}
    (hi : p.Free i) : p0.Free i ∧ i ∉ more := by
  obtain ⟨hlt, hr, -⟩ := (h.free_iff i).mp hi
  exact ⟨⟨hlt, Bool.not_eq_true _ ▸ fun hu => hr (.inl hu)⟩, fun hm => hr (.inr hm)⟩

theorem Owns.fresh_base {more : Set ℕ} (h : Owns p0 (p0.usedFrames ∪ more) p live) {c : Block}
    (hc : c ∈ live) {i : ℕ} (hi : i ∈ c.frames) : p0.Free i ∧ i ∉ more := by
  obtain ⟨hlt, hr⟩ := h.fresh c hc i hi
  exact ⟨⟨hlt, Bool.not_eq_true _ ▸ fun hu => hr (.inl hu)⟩, fun hm => hr (.inr hm)⟩

theorem Allocated.frames_eq {n : U64} {s : ℕ} (h : Allocated p q n.toNat s) :
    Block.frames ⟨BitVec.ofNat 64 s * pageSize, n⟩ = Finset.Ico s (s + n.toNat) := by
  have hstart : Block.start ⟨BitVec.ofNat 64 s * pageSize, n⟩ = s := by
    rw [Block.start, h.toNat_address]
    exact Nat.mul_div_cancel_left s (by decide)
  rw [Block.frames, hstart]

theorem Owns.alloc {n : U64} {s : ℕ} (h : Owns p0 reserved p live) (ha : Allocated p q n.toNat s)
    (hphys : BitVec.ofNat 64 s * pageSize ≠ 0) :
    Owns p0 reserved q (⟨BitVec.ofNat 64 s * pageSize, n⟩ :: live) := by
  have hframes := ha.frames_eq
  have hfree : ∀ i ∈ Finset.Ico s (s + n.toNat), p.Free i := by
    intro i hi
    rw [Finset.mem_Ico] at hi
    have := ha.free (i - s) (by omega)
    rwa [show s + (i - s) = i by omega] at this
  constructor
  · exact h.setup.trans ha.setup
  · intro i
    rw [ha.test i, Bool.or_eq_true, decide_eq_true_eq, h.bits i]
    simp only [List.exists_mem_cons_iff, hframes, Finset.mem_Ico]
    rw [or_left_comm]
  · intro c hc i hi
    obtain rfl | hc := List.mem_cons.mp hc
    · rw [hframes] at hi
      obtain ⟨hi, hr, -⟩ := (h.free_iff i).mp (hfree i hi)
      exact ⟨hi, hr⟩
    · exact h.fresh c hc i hi
  · refine List.pairwise_cons.mpr ⟨fun c hc => ?_, h.apart⟩
    rw [hframes, Finset.disjoint_left]
    intro i hi
    exact ((h.free_iff i).mp (hfree i hi)).2.2 c hc
  · intro c hc
    obtain rfl | hc := List.mem_cons.mp hc
    · refine ⟨hphys, fun hn => ?_⟩
      have hpos := ha.pos
      rw [show n = 0 from hn] at hpos
      exact absurd hpos (by decide)
    · exact h.proper c hc

theorem Owns.fits (h : Owns p0 reserved p live) {c : Block} (hc : c ∈ live) :
    c.start + c.pages.toNat ≤ p.gTotalPages := by
  have hpages := (h.proper c hc).2
  have hpos : 0 < c.pages.toNat := by bv_omega
  have hlast := (h.fresh c hc (c.start + c.pages.toNat - 1)
    (Finset.mem_Ico.mpr (by omega))).1
  rw [h.setup.total]
  omega

theorem Owns.release {c : Block} (h : Owns p0 reserved p (c :: live)) :
    Owns p0 reserved (c.release p) live := by
  have hc : c ∈ c :: live := by simp
  obtain ⟨hphys, hpages⟩ := h.proper c hc
  have htest (i : ℕ) : (c.release p).bitmapTest i = true ↔ i ∉ c.frames ∧ p.bitmapTest i = true := by
    rw [Block.release, pmmFreePages_test p _ _ hphys hpages (h.fits hc)]
    simp only [Block.frames, Block.start, Finset.mem_Ico, Bool.and_eq_true, Bool.not_eq_true',
      decide_eq_false_iff_not]
  obtain ⟨hapart, hrest⟩ := List.pairwise_cons.mp h.apart
  refine ⟨h.setup.trans (pmmFreePages_setup p _ _), fun i => ?_,
    fun d hd => h.fresh d (List.mem_cons_of_mem c hd), hrest,
    fun d hd => h.proper d (List.mem_cons_of_mem c hd)⟩
  rw [htest, h.bits i, List.exists_mem_cons_iff]
  constructor
  · rintro ⟨hi, h0 | hci | hd⟩
    · exact .inl h0
    · exact absurd hci hi
    · exact .inr hd
  · rintro (h0 | ⟨d, hd, hi⟩)
    · exact ⟨fun hi => (h.fresh c hc i hi).2 h0, .inl h0⟩
    · exact ⟨Finset.disjoint_right.mp (hapart d hd) hi, .inr (.inr ⟨d, hd, hi⟩)⟩

theorem Owns.reserve {more : Set ℕ} (h : Owns p0 reserved p live) (hsetup : SameSetup p q)
    (htest : ∀ i, q.bitmapTest i = true ↔ p.bitmapTest i = true ∨ i ∈ more)
    (hmore : ∀ i ∈ more, p.Free i) : Owns p0 (reserved ∪ more) q live where
  setup := h.setup.trans hsetup
  bits := fun i => by rw [htest, h.bits, Set.mem_union, or_right_comm]
  fresh := by
    intro c hc i hi
    obtain ⟨hlt, hr⟩ := h.fresh c hc i hi
    refine ⟨hlt, fun hr' => hr'.elim hr fun hm => ?_⟩
    exact ((h.free_iff i).mp (hmore i hm)).2.2 c hc hi
  apart := h.apart
  proper := h.proper

/-- A call that returns null has changed nothing, as long as frame 0 is never handed out. -/
theorem pmmAllocPages_null {n : U64} (hzero : ¬p.Free 0) (h : p.pmmAllocPages n = (q, 0)) : q = p := by
  by_cases hn : n = 0
  · rw [pmmAllocPages, if_pos hn] at h
    exact (Prod.mk.inj h).1.symm
  · obtain ⟨he, -⟩ | ⟨r, s, he, ha⟩ := pmmAllocPages_cases p n hn
    · exact (Prod.mk.inj (he.symm.trans h)).1.symm
    · have hs : 4096 * s = 0 := by
        rw [← ha.toNat_address, (Prod.mk.inj (he.symm.trans h)).2]
        rfl
      have hs0 : s = 0 := by omega
      have hfree := ha.free 0 ha.pos
      rw [hs0] at hfree
      exact absurd hfree hzero

theorem Owns.step {c c' : Pmm × List Block} (hzero : ¬c.1.Free 0)
    (h : Owns p0 reserved c.1 c.2) (hs : ClientStep c c') : Owns p0 reserved c'.1 c'.2 := by
  cases hs with
  | @alloc p q live n phys he hphys =>
    have hn : n ≠ 0 := by
      rintro rfl
      rw [pmmAllocPages, if_pos rfl] at he
      exact hphys (Prod.mk.inj he).2.symm
    obtain ⟨hnone, -⟩ | ⟨r, s, hsome, ha⟩ := pmmAllocPages_cases p n hn
    · exact absurd (Prod.mk.inj (hnone.symm.trans he)).2.symm hphys
    · obtain ⟨rfl, rfl⟩ := Prod.mk.inj (hsome.symm.trans he)
      exact h.alloc ha hphys
  | @refused p q live n he =>
    rw [pmmAllocPages_null hzero he]
    exact h
  | @free p live c hc => exact (h.perm (List.perm_cons_erase hc).symm).release

theorem Owns.run {c : Pmm × List Block} (hzero : ¬p0.Free 0)
    (hrun : ReflTransGen ClientStep (p0, []) c) : Owns p0 p0.usedFrames c.1 c.2 := by
  induction hrun with
  | refl => exact .start p0
  | tail _ hs ih =>
    refine ih.step (fun hf => hzero ?_) hs
    obtain ⟨hlt, hused, -⟩ := (ih.free_iff 0).mp hf
    exact ⟨hlt, Bool.not_eq_true _ ▸ hused⟩

theorem Owns.release_all (h : Owns p0 p0.usedFrames p live) :
    (live.foldl Block.release p).bytes = p0.bytes := by
  induction live generalizing p with
  | nil =>
    apply bytes_ext h.setup.length
    intro i
    have := h.bits i
    rw [Bool.eq_iff_iff]
    simpa [usedFrames] using this
  | cons c live ih => exact ih h.release

theorem Initialised.free {b : BootInfo} {bmp : U64} {e : MemmapEntry} (h : Initialised b p0 bmp e)
    {i : ℕ} (hi : p0.Free i) :
    ((kernelPhysRange b).2.toNat ≤ 2 ^ 64 - 4096 →
      ¬PageMeets i (kernelPhysRange b).1.toNat (kernelPhysRange b).2.toNat) ∧
    ¬PageMeets i bmp.toNat (bmp.toNat + p0.bytes.length) := by
  obtain ⟨-, hkernel, hbitmap⟩ := (h.test i hi.1).mp hi.2
  refine ⟨fun hmax => ?_, hbitmap⟩
  rintro ⟨x, h1, h2, h3, h4⟩
  rw [toNat_alignUp _ hmax] at hkernel
  omega

/-- Frame ownership over every history of allocations and frees of own blocks. The frames reserved
are those used after `pmm_init`; for a memory map as promised they are the frames outside the usable
entries, the kernel's and the bitmap's. -/
theorem frame_ownership (b : BootInfo) (p0 : Pmm) (h : pmmInit b = some p0) (hzero : ¬p0.Free 0)
    (p : Pmm) (live : List Block) (hrun : ReflTransGen ClientStep (p0, []) (p, live)) :
    let bmp := (p0.virtToPhys p0.gBitmap).toNat
    (∀ i, p.bitmapTest i = true ↔ p0.bitmapTest i = true ∨ ∃ c ∈ live, i ∈ c.frames) ∧
    (∀ c ∈ live, ∀ i ∈ c.frames, p0.bitmapTest i = false) ∧
    live.Pairwise (fun c d => Disjoint c.frames d.frames) ∧
    (∀ c ∈ live, ∀ i ∈ c.frames, i < p0.gTotalPages ∧
      ((kernelPhysRange b).2.toNat ≤ 2 ^ 64 - 4096 →
        ¬PageMeets i (kernelPhysRange b).1.toNat (kernelPhysRange b).2.toNat) ∧
      ¬PageMeets i bmp (bmp + p0.bytes.length)) ∧
    (∀ order : List Block, order.Perm live → (order.foldl Block.release p).bytes = p0.bytes) ∧
    (Promised b → ∀ i < p0.gTotalPages, p0.bitmapTest i = true ↔
      (¬InUsable b i ∨ PageMeets i (kernelPhysRange b).1.toNat (kernelPhysRange b).2.toNat ∨
        PageMeets i bmp (bmp + p0.bytes.length))) := by
  obtain ⟨bmp, e, hinit⟩ := pmmInit_initialised b p0 h
  have howns : Owns p0 p0.usedFrames p live := Owns.run hzero hrun
  have hfresh : ∀ c ∈ live, ∀ i ∈ c.frames, p0.Free i := by
    intro c hc i hi
    obtain ⟨hlt, hused⟩ := howns.fresh c hc i hi
    exact ⟨hlt, Bool.not_eq_true _ ▸ hused⟩
  dsimp only
  rw [hinit.virt]
  refine ⟨howns.bits, fun c hc i hi => (hfresh c hc i hi).2, howns.apart,
    fun c hc i hi => ⟨(hfresh c hc i hi).1, hinit.free (hfresh c hc i hi)⟩,
    fun order horder => (howns.perm horder).release_all, fun hb i hi => ?_⟩
  rw [← Bool.not_eq_false, hinit.test i hi, hb.leftFree_iff, Available]
  tauto

theorem frame_ownership_smallBoot : ∃ p0 p c, pmmInit smallBoot = some p0 ∧
    ReflTransGen ClientStep (p0, []) (p, [c]) ∧ p.gFreeBytes < p0.gFreeBytes ∧
    (c.release p).bytes = p0.bytes := by
  obtain ⟨p0, hp0⟩ := Option.isSome_iff_exists.mp (by decide +kernel : (pmmInit smallBoot).isSome)
  have hget : (pmmInit smallBoot).get (by decide +kernel) = p0 := by simp [hp0]
  have hzero : ¬p0.Free 0 := by rw [← hget]; decide +kernel
  have hphys : (p0.pmmAllocPages 2).2 ≠ 0 := by rw [← hget]; decide +kernel
  have hless : (p0.pmmAllocPages 2).1.gFreeBytes < p0.gFreeBytes := by rw [← hget]; decide +kernel
  have hrun : ReflTransGen ClientStep (p0, [])
      ((p0.pmmAllocPages 2).1, [⟨(p0.pmmAllocPages 2).2, 2⟩]) := .single (.alloc rfl hphys)
  obtain ⟨-, -, -, -, hall, -⟩ := frame_ownership smallBoot p0 hp0 hzero _ _ hrun
  exact ⟨p0, _, _, hp0, hrun, hless, hall _ (.refl _)⟩

end Mcincos.Pmm
