import Mcincos.Library.FirstFit
import Mcincos.Pmm.Bitmap

namespace Mcincos.Pmm

open FirstFit

def allocScan (p : Pmm) (pageCount : ℕ) : List ℕ → ℕ → ℕ → Option ℕ
  | [], _, _ => none
  | i :: is, run, runStart =>
    if !p.bitmapTest i then
      let runStart := if run = 0 then i else runStart
      let run := run + 1
      if run = pageCount then some runStart else allocScan p pageCount is run runStart
    else allocScan p pageCount is 0 runStart

def setRun (p : Pmm) (runStart pageCount : ℕ) : Pmm :=
  (List.range pageCount).foldl (fun p j => p.bitmapSet (runStart + j)) p

def pmmAllocPages (p : Pmm) (pageCount : U64) : Pmm × U64 :=
  if pageCount = 0 then (p, 0)
  else match allocScan p pageCount.toNat (List.range p.gTotalPages) 0 0 with
    | some runStart =>
      let p := p.setRun runStart pageCount.toNat
      ({ p with gFreeBytes := p.gFreeBytes - pageCount * pageSize },
        BitVec.ofNat 64 runStart * pageSize)
    | none => (p, 0)

/-- One round of the loop of `pmm_free_pages`; the index is a 64-bit sum. -/
def freeOne (start : U64) (p : Pmm) (i : ℕ) : Pmm :=
  let idx := start + BitVec.ofNat 64 i
  if idx.toNat < p.gTotalPages then p.bitmapClear idx.toNat else p

def pmmFreePages (p : Pmm) (phys pages : U64) : Pmm :=
  if phys = 0 ∨ pages = 0 then p
  else
    let start := phys / pageSize
    let p := (List.range pages.toNat).foldl (freeOne start) p
    { p with gFreeBytes := p.gFreeBytes + pages * pageSize }

def pmmTotalBytes (p : Pmm) : U64 := p.gTotalBytes
def pmmFreeBytes (p : Pmm) : U64 := p.gFreeBytes

structure SameSetup (p q : Pmm) : Prop where
  hhdm : q.gHhdm = p.gHhdm
  bitmap : q.gBitmap = p.gBitmap
  total : q.gTotalPages = p.gTotalPages
  totalBytes : q.gTotalBytes = p.gTotalBytes

theorem SameSetup.refl (p : Pmm) : SameSetup p p := ⟨rfl, rfl, rfl, rfl⟩

theorem SameSetup.trans {p q r : Pmm} (h : SameSetup p q) (h' : SameSetup q r) : SameSetup p r :=
  ⟨h'.1.trans h.1, h'.2.trans h.2, h'.3.trans h.3, h'.4.trans h.4⟩

theorem SameSetup.length {p q : Pmm} (h : SameSetup p q) : q.bytes.length = p.bytes.length := by
  rw [q.sized, p.sized, h.total]

theorem sameSetup_set (p : Pmm) (i : ℕ) : SameSetup p (p.bitmapSet i) := ⟨rfl, rfl, rfl, rfl⟩
theorem sameSetup_clear (p : Pmm) (i : ℕ) : SameSetup p (p.bitmapClear i) := ⟨rfl, rfl, rfl, rfl⟩

theorem setRun_succ (p : Pmm) (s n : ℕ) : p.setRun s (n + 1) = (p.setRun s n).bitmapSet (s + n) := by
  simp [setRun, List.range_succ, List.foldl_append]

theorem setRun_setup (p : Pmm) (s n : ℕ) : SameSetup p (p.setRun s n) := by
  induction n with
  | zero => exact .refl p
  | succ n ih => rw [setRun_succ]; exact ih.trans (sameSetup_set _ _)

theorem setRun_test (p : Pmm) (s n : ℕ) (hn : s + n ≤ p.gTotalPages) (i : ℕ) :
    (p.setRun s n).bitmapTest i = (decide (s ≤ i ∧ i < s + n) || p.bitmapTest i) := by
  induction n with
  | zero => simp [setRun]
  | succ n ih =>
    have hlt : s + n < (p.setRun s n).gTotalPages := by
      rw [(setRun_setup p s n).total]; omega
    rw [setRun_succ, bitmapTest_set _ hlt, ih (by omega), ← Bool.or_assoc]
    congr 1
    rw [Bool.eq_iff_iff]
    simp only [Bool.or_eq_true, decide_eq_true_eq]
    omega

theorem allocScan_spec (p : Pmm) (n k i run runStart : ℕ)
    (h : Scanned (fun j => p.bitmapTest j = false) n i run) (hs : run = 0 ∨ runStart = i - run) :
    match allocScan p n (List.range' i k) run runStart with
    | some s => s + n ≤ i + k ∧ FreeRun (fun j => p.bitmapTest j = false) s n ∧
        ∀ s' < s, ¬FreeRun (fun j => p.bitmapTest j = false) s' n
    | none => ∀ s, s + n ≤ i + k → ¬FreeRun (fun j => p.bitmapTest j = false) s n := by
  induction k generalizing i run runStart with
  | zero => exact h.none
  | succ k ih =>
    rw [List.range'_succ, allocScan]
    by_cases hf : p.bitmapTest i = false
    · simp only [hf, Bool.not_false, ↓reduceIte]
      have hstart : (if run = 0 then i else runStart) = i - run := by
        split_ifs with h0
        · omega
        · exact hs.resolve_left h0
      rw [hstart]
      by_cases hn : run + 1 = n
      · have hfits := h.fits
        simp only [hn, ↓reduceIte]
        exact ⟨by omega, h.hit hf hn⟩
      · simp only [hn, ↓reduceIte]
        have := ih (i + 1) (run + 1) (i - run) (h.extend hf hn) (.inr (by omega))
        rwa [show i + 1 + k = i + (k + 1) by omega] at this
    · simp only [Bool.not_eq_false] at hf
      simp only [hf, Bool.not_true, Bool.false_eq_true, ↓reduceIte]
      have := ih (i + 1) 0 runStart (h.reset (by simp [hf])) (.inl rfl)
      rwa [show i + 1 + k = i + (k + 1) by omega] at this

structure Allocated (p q : Pmm) (n s : ℕ) : Prop where
  setup : SameSetup p q
  pos : 0 < n
  fits : s + n ≤ p.gTotalPages
  free : FreeRun p.Free s n
  first : ∀ s' < s, ¬FreeRun p.Free s' n
  test : ∀ i, q.bitmapTest i = (decide (s ≤ i ∧ i < s + n) || p.bitmapTest i)
  bytes : q.gFreeBytes = p.gFreeBytes - BitVec.ofNat 64 n * pageSize

theorem freeRun_free {p : Pmm} {s n : ℕ} (hn : s + n ≤ p.gTotalPages) :
    FreeRun p.Free s n ↔ FreeRun (fun j => p.bitmapTest j = false) s n :=
  forall₂_congr fun j hj => and_iff_right (by omega)

theorem setRun_gFreeBytes (p : Pmm) (s n : ℕ) : (p.setRun s n).gFreeBytes = p.gFreeBytes := by
  induction n with
  | zero => rfl
  | succ n ih => rw [setRun_succ, bitmapSet_gFreeBytes, ih]

theorem pmmAllocPages_cases (p : Pmm) (n : U64) (hn : n ≠ 0) :
    (p.pmmAllocPages n = (p, 0) ∧ ∀ s, ¬FreeRun p.Free s n.toNat) ∨
    ∃ q s, p.pmmAllocPages n = (q, BitVec.ofNat 64 s * pageSize) ∧ Allocated p q n.toNat s := by
  have hpos : 0 < n.toNat := by bv_omega
  have hscan := allocScan_spec p n.toNat p.gTotalPages 0 0 0 (.start hpos) (.inl rfl)
  rw [← List.range_eq_range', Nat.zero_add] at hscan
  simp only [pmmAllocPages, hn, ↓reduceIte]
  cases hres : allocScan p n.toNat (List.range p.gTotalPages) 0 0 with
  | none =>
    rw [hres] at hscan
    refine .inl ⟨rfl, fun s hr => ?_⟩
    have hfits : s + n.toNat ≤ p.gTotalPages := by
      have hlast := (hr (n.toNat - 1) (by omega)).1
      omega
    exact hscan s hfits ((freeRun_free hfits).mp hr)
  | some s =>
    rw [hres] at hscan
    obtain ⟨hfits, hrun, hfirst⟩ := hscan
    refine .inr ⟨_, s, rfl, ?_⟩
    constructor
    · obtain ⟨h1, h2, h3, h4⟩ := setRun_setup p s n.toNat
      exact ⟨h1, h2, h3, h4⟩
    · exact hpos
    · exact hfits
    · exact (freeRun_free hfits).mpr hrun
    · intro s' hs' hr
      exact hfirst s' hs' ((freeRun_free (by omega)).mp hr)
    · exact setRun_test p s n.toNat hfits
    · simp [setRun_gFreeBytes]

theorem Allocated.toNat_address {p q : Pmm} {n s : ℕ} (h : Allocated p q n s) :
    (BitVec.ofNat 64 s * pageSize).toNat = 4096 * s := by
  have hb := p.bounded
  have hf := h.fits
  have hp := h.pos
  have hs : (BitVec.ofNat 64 s).toNat = s := by rw [BitVec.toNat_ofNat]; omega
  have hpage : pageSize.toNat = 4096 := rfl
  rw [BitVec.toNat_mul, hs, hpage]
  omega

theorem Allocated.free_iff {p q : Pmm} {n s : ℕ} (h : Allocated p q n s) (i : ℕ) :
    q.Free i ↔ p.Free i ∧ ¬(s ≤ i ∧ i < s + n) := by
  simp only [Free, h.setup.total, h.test i, Bool.or_eq_false_iff, decide_eq_false_iff_not]
  tauto

theorem pmmAllocPages_free {p : Pmm} {n : U64} {i : ℕ} (h : (p.pmmAllocPages n).1.Free i) : p.Free i := by
  by_cases hn : n = 0
  · rwa [pmmAllocPages, if_pos hn] at h
  · obtain ⟨he, -⟩ | ⟨q, s, he, ha⟩ := p.pmmAllocPages_cases n hn
    · rwa [he] at h
    · rw [he] at h
      exact ((ha.free_iff i).mp h).1

theorem pmmAllocPages_setup (p : Pmm) (n : U64) : SameSetup p (p.pmmAllocPages n).1 := by
  by_cases hn : n = 0
  · simp only [pmmAllocPages, hn, ↓reduceIte]
    exact .refl p
  · obtain ⟨he, -⟩ | ⟨q, s, he, h⟩ := pmmAllocPages_cases p n hn
    · rw [he]; exact .refl p
    · rw [he]; exact h.setup

theorem freeOne_setup (start : U64) (p : Pmm) (i : ℕ) : SameSetup p (freeOne start p i) := by
  unfold freeOne
  dsimp only
  split_ifs
  · exact sameSetup_clear _ _
  · exact .refl p

theorem freeLoop_setup (start : U64) (p : Pmm) (is : List ℕ) :
    SameSetup p (is.foldl (freeOne start) p) := by
  induction is generalizing p with
  | nil => exact .refl p
  | cons i is ih => exact (freeOne_setup start p i).trans (ih _)

theorem freeLoop_gFreeBytes (start : U64) (p : Pmm) (is : List ℕ) :
    (is.foldl (freeOne start) p).gFreeBytes = p.gFreeBytes := by
  induction is generalizing p with
  | nil => rfl
  | cons i is ih =>
    rw [List.foldl_cons, ih]
    unfold freeOne
    dsimp only
    split_ifs <;> rfl

theorem freeLoop_test (p : Pmm) (start : U64) (n : ℕ) (hn : start.toNat + n ≤ p.gTotalPages) (i : ℕ) :
    ((List.range n).foldl (freeOne start) p).bitmapTest i =
      (!decide (start.toNat ≤ i ∧ i < start.toNat + n) && p.bitmapTest i) := by
  induction n with
  | zero =>
    have hempty : ¬(start.toNat ≤ i ∧ i < start.toNat + 0) := by omega
    rw [decide_eq_false hempty, Bool.not_false, Bool.true_and]
    rfl
  | succ n ih =>
    have hb := p.bounded
    have hidx : (start + BitVec.ofNat 64 n).toNat = start.toNat + n := by
      rw [BitVec.toNat_add, BitVec.toNat_ofNat]
      omega
    have htotal := (freeLoop_setup start p (List.range n)).total
    rw [List.range_succ, List.foldl_append, List.foldl_cons, List.foldl_nil, freeOne, hidx, if_pos (by rw [htotal]; omega), bitmapTest_clear _ (by rw [htotal]; omega),
      ih (by omega), ← Bool.and_assoc]
    congr 1
    rw [Bool.eq_iff_iff]
    simp only [Bool.and_eq_true, Bool.not_eq_true', decide_eq_false_iff_not]
    omega

theorem pmmFreePages_setup (p : Pmm) (phys pages : U64) : SameSetup p (p.pmmFreePages phys pages) := by
  unfold pmmFreePages
  split_ifs
  · exact .refl p
  · obtain ⟨h1, h2, h3, h4⟩ := freeLoop_setup (phys / pageSize) p (List.range pages.toNat)
    exact ⟨h1, h2, h3, h4⟩

theorem pmmFreePages_test (p : Pmm) (phys pages : U64) (hphys : phys ≠ 0) (hpages : pages ≠ 0)
    (hfits : phys.toNat / 4096 + pages.toNat ≤ p.gTotalPages) (i : ℕ) :
    (p.pmmFreePages phys pages).bitmapTest i =
      (!decide (phys.toNat / 4096 ≤ i ∧ i < phys.toNat / 4096 + pages.toNat) && p.bitmapTest i) := by
  have hstart : (phys / pageSize).toNat = phys.toNat / 4096 := BitVec.toNat_udiv
  have h := freeLoop_test p (phys / pageSize) pages.toNat (by rw [hstart]; exact hfits) i
  rw [hstart] at h
  unfold pmmFreePages
  rw [if_neg (not_or.mpr ⟨hphys, hpages⟩)]
  exact h

end Mcincos.Pmm
