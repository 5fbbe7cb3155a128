import Mcincos.Library.History
import Mcincos.Pmm.FreeSet

namespace Mcincos.Pmm

open FirstFit History

variable {p q p0 : Pmm} {n phys pages : U64}

def Window (p : Pmm) (n s : ℕ) : Prop :=
  s + n ≤ p.gTotalPages ∧ ∀ i, s ≤ i → i < s + n → p.bitmapTest i = false

instance (p : Pmm) (n s : ℕ) : Decidable (p.Window n s) := inferInstanceAs (Decidable (_ ∧ _))

theorem window_iff {s k : ℕ} (hk : 0 < k) : p.Window k s ↔ FreeRun p.Free s k := by
  constructor
  · rintro ⟨hfits, hclear⟩ j hj
    exact ⟨by omega, hclear (s + j) (by omega) (by omega)⟩
  · intro h
    have hlast := (h (k - 1) (by omega)).1
    refine ⟨by omega, ?_⟩
    intro i hsi hi
    have := (h (i - s) (by omega)).2
    rwa [Nat.add_sub_cancel' hsi] at this

theorem Allocated.toNat_taken {s : ℕ} (h : Allocated p q n.toNat s) :
    (p.gFreeBytes - q.gFreeBytes).toNat = 4096 * n.toNat := by
  have hfits := h.fits
  have hbound := p.bounded
  have hpage : pageSize.toNat = 4096 := rfl
  rw [h.bytes, BitVec.ofNat_toNat, BitVec.setWidth_eq, sub_sub_cancel, BitVec.toNat_mul, hpage]
  omega

theorem alloc_first_fit (p : Pmm) (n : U64) (hn : n ≠ 0) :
    (∀ s, p.Window n.toNat s → (∀ s' < s, ¬p.Window n.toNat s') →
      let r := p.pmmAllocPages n
      (∀ i, r.1.bitmapTest i = (decide (s ≤ i ∧ i < s + n.toNat) || p.bitmapTest i)) ∧
      SameSetup p r.1 ∧
      (p.gFreeBytes - r.1.gFreeBytes).toNat = 4096 * n.toNat ∧
      r.2.toNat = 4096 * s) ∧
    ((∀ s, ¬p.Window n.toNat s) → p.pmmAllocPages n = (p, 0)) := by
  have hpos : 0 < n.toNat := by bv_omega
  simp only [window_iff hpos]
  obtain ⟨he, hnone⟩ | ⟨q, s, he, ha⟩ := pmmAllocPages_cases p n hn
  · exact ⟨fun s hs _ => absurd hs (hnone s), fun _ => he⟩
  · refine ⟨?_, fun hnone => absurd ha.free (hnone s)⟩
    intro s' hs' hfirst
    have hs : s' = s := by
      apply le_antisymm
      · exact not_lt.mp fun hlt => hfirst s hlt ha.free
      · exact not_lt.mp fun hlt => ha.first s' hlt hs'
    rw [he, hs]
    exact ⟨ha.test, ha.setup, ha.toNat_taken, ha.toNat_address⟩

def patchy : Pmm where
  gHhdm := 0xffff800000000000#64
  gBitmap := 0xffff80000000b000#64
  bytes := [0x2d#8, 0xf6#8]
  gTotalBytes := 0xc000#64
  gFreeBytes := 0x6000#64
  gTotalPages := 12
  sized := rfl
  bounded := by decide

theorem alloc_first_fit_patchy :
    (patchy.pmmAllocPages 3).2.toNat = 0x6000 ∧ (patchy.pmmAllocPages 4).2 = 0 := by
  constructor
  · exact ((alloc_first_fit patchy 3 (by decide)).1 6 (by decide) (by decide)).2.2.2
  · decide

def NullIsFailure (p : Pmm) (n : U64) : Prop :=
  (p.pmmAllocPages n).2 = 0 → (∀ s, ¬p.Window n.toNat s) ∧ (p.pmmAllocPages n).1 = p

theorem nullIsFailure_iff (hn : n ≠ 0) : p.NullIsFailure n ↔ ¬p.Window n.toNat 0 := by
  have hpos : 0 < n.toNat := by bv_omega
  rw [NullIsFailure, window_iff hpos]
  obtain ⟨he, hnone⟩ | ⟨q, s, he, ha⟩ := pmmAllocPages_cases p n hn
  · refine iff_of_true ?_ (hnone 0)
    intro _
    exact ⟨fun s => mt (window_iff hpos).mp (hnone s), by rw [he]⟩
  · have haddr := ha.toNat_address
    rw [he]
    by_cases hs : s = 0
    · subst hs
      refine iff_of_false ?_ (not_not.mpr ha.free)
      intro h
      have hzero : BitVec.ofNat 64 0 * pageSize = 0 := BitVec.eq_of_toNat_eq haddr
      exact (h hzero).1 0 ((window_iff hpos).mpr ha.free)
    · refine iff_of_true ?_ (ha.first 0 (Nat.pos_of_ne_zero hs))
      intro h
      rw [show BitVec.ofNat 64 s * pageSize = 0 from h] at haddr
      exact absurd haddr.symm (Nat.mul_ne_zero (by decide) hs)

theorem forall_nullIsFailure_iff : (∀ n ≠ 0, p.NullIsFailure n) ↔ ¬p.Free 0 := by
  constructor
  · intro h hfree
    apply (nullIsFailure_iff (by decide : (1 : U64) ≠ 0)).mp (h 1 (by decide))
    apply (window_iff (by decide)).mpr
    intro j hj
    have hj0 : j = 0 := Nat.lt_one_iff.mp hj
    rwa [hj0]
  · intro hzero n hn
    have hpos : 0 < n.toNat := by bv_omega
    apply (nullIsFailure_iff hn).mpr
    intro hw
    exact hzero ((window_iff hpos).mp hw 0 hpos)

inductive Call
  | alloc (pageCount : U64)
  | free (phys pages : U64)

def Call.run (p : Pmm) : Call → Pmm
  | .alloc pageCount => (p.pmmAllocPages pageCount).1
  | .free phys pages => p.pmmFreePages phys pages

theorem Call.run_setup (p : Pmm) (c : Call) : SameSetup p (c.run p) := by
  cases c with
  | alloc pageCount => exact pmmAllocPages_setup p pageCount
  | free phys pages => exact pmmFreePages_setup p phys pages

def Freed (phys pages : U64) (i : ℕ) : Prop := BitVec.ofNat 64 i - phys / pageSize < pages

instance (phys pages : U64) (i : ℕ) : Decidable (Freed phys pages i) :=
  inferInstanceAs (Decidable (_ < _))

theorem freeLoop_test_lt (p : Pmm) (start : U64) (k : ℕ) (hk : k ≤ 2 ^ 64) {i : ℕ}
    (hi : i < p.gTotalPages) :
    ((List.range k).foldl (freeOne start) p).bitmapTest i =
      (!decide ((BitVec.ofNat 64 i - start).toNat < k) && p.bitmapTest i) := by
  induction k with
  | zero => simp
  | succ k ih =>
    have hb := p.bounded
    have htotal := (freeLoop_setup start p (List.range k)).total
    have hat : i = (start + BitVec.ofNat 64 k).toNat ↔ (BitVec.ofNat 64 i - start).toNat = k := by
      have hof : (BitVec.ofNat 64 i).toNat = i := Nat.mod_eq_of_lt (by omega)
      have hofk : (BitVec.ofNat 64 k).toNat = k := Nat.mod_eq_of_lt (by omega)
      rw [BitVec.toNat_sub, BitVec.toNat_add, hof, hofk]
      omega
    rw [List.range_succ, List.foldl_append, List.foldl_cons, List.foldl_nil, freeOne]
    split_ifs with hlt
    · rw [bitmapTest_clear _ hlt, ih (by omega), ← Bool.and_assoc]
      congr 1
      rw [Bool.eq_iff_iff]
      simp only [hat, Bool.and_eq_true, Bool.not_eq_true', decide_eq_false_iff_not]
      omega
    · have hne : (BitVec.ofNat 64 i - start).toNat ≠ k := by
        intro he
        rw [← hat.mpr he, htotal] at hlt
        exact hlt hi
      rw [ih (by omega)]
      congr 2
      rw [decide_eq_decide]
      omega

theorem pmmFreePages_test_lt (hphys : phys ≠ 0) (hpages : pages ≠ 0) {i : ℕ} (hi : i < p.gTotalPages) :
    (p.pmmFreePages phys pages).bitmapTest i = (!decide (Freed phys pages i) && p.bitmapTest i) := by
  rw [pmmFreePages, if_neg (not_or.mpr ⟨hphys, hpages⟩)]
  exact freeLoop_test_lt p (phys / pageSize) pages.toNat (Nat.le_of_lt pages.isLt) hi

theorem pmmFreePages_free (hphys : phys ≠ 0) (hpages : pages ≠ 0) (i : ℕ) :
    (p.pmmFreePages phys pages).Free i ↔ i < p.gTotalPages ∧ (Freed phys pages i ∨ p.Free i) := by
  rw [Free, (pmmFreePages_setup p phys pages).total]
  refine and_congr_right fun hi => ?_
  rw [pmmFreePages_test_lt hphys hpages hi, Bool.and_eq_false_iff, Bool.not_eq_false',
    decide_eq_true_eq, Free, and_iff_right hi]

def Call.SparesFrameZero : Call → Prop
  | .alloc _ => True
  | .free phys pages =>
    phys = 0 ∨ pages = 0 ∨ 4096 ≤ phys.toNat ∧ phys.toNat / 4096 + pages.toNat ≤ 2 ^ 64

instance : DecidablePred Call.SparesFrameZero
  | .alloc _ => .isTrue trivial
  | .free _ _ => inferInstanceAs (Decidable (_ ∨ _))

theorem freed_zero : Freed phys pages 0 ↔
    pages ≠ 0 ∧ ¬(4096 ≤ phys.toNat ∧ phys.toNat / 4096 + pages.toNat ≤ 2 ^ 64) := by
  have hstart : (phys / pageSize).toNat = phys.toNat / 4096 := BitVec.toNat_udiv
  have hzero : (BitVec.ofNat 64 0).toNat = 0 := rfl
  have hnone : (0 : U64).toNat = 0 := rfl
  rw [Freed, BitVec.lt_def, BitVec.toNat_sub, hstart, hzero, ← BitVec.toNat_ne_iff_ne, hnone]
  omega

theorem Call.run_frameZero (hpos : 0 < p.gTotalPages) (hzero : ¬p.Free 0) (c : Call) :
    ¬(c.run p).Free 0 ↔ c.SparesFrameZero := by
  cases c with
  | alloc pageCount => exact iff_of_true (mt pmmAllocPages_free hzero) trivial
  | free phys pages =>
    rw [Call.run, Call.SparesFrameZero]
    by_cases h : phys = 0 ∨ pages = 0
    · rw [pmmFreePages, if_pos h]
      exact iff_of_true hzero (h.imp_right .inl)
    · obtain ⟨hphys, hpages⟩ := not_or.mp h
      rw [pmmFreePages_free hphys hpages, or_iff_right hphys, or_iff_right hpages,
        and_iff_right hpos, or_iff_left hzero, freed_zero, and_iff_right hpages, not_not]

/-- In any history that follows `pmm_init`, a null result means failure unless frame 0 is handed out. -/
theorem alloc_null (b : BootInfo) (p0 : Pmm) (h : pmmInit b = some p0) (calls : List Call) :
    Throughout Call.run (fun p => ∀ n ≠ 0, p.NullIsFailure n) p0 calls ↔
      (0 < p0.gTotalPages →
        ¬LeftFree b (p0.virtToPhys p0.gBitmap).toNat p0.bytes.length 0 ∧
          ∀ c ∈ calls, c.SparesFrameZero) := by
  obtain ⟨bmp, e, hinit⟩ := pmmInit_initialised b p0 h
  rw [hinit.virt, throughout_congr (I := fun _ => True) (fun _ _ _ => trivial)
    (fun _ _ => forall_nullIsFailure_iff) trivial]
  by_cases hpos : 0 < p0.gTotalPages
  · have hkeep : ∀ p c, 0 < p.gTotalPages → 0 < (Call.run p c).gTotalPages := by
      intro p c hp
      rwa [(c.run_setup p).total]
    rw [← hinit.test 0 hpos, imp_iff_right hpos]
    by_cases hzero : p0.Free 0
    · apply iff_of_false
      · exact fun hall => hall.head hzero
      · exact fun hall => hall.1 hzero.2
    · rw [throughout_iff hkeep (fun _ c hp hfree => c.run_frameZero hp hfree) hpos hzero,
        eachCall_const, and_iff_right fun hclear => hzero ⟨hpos, hclear⟩]
  · refine iff_of_true ?_ fun hp => absurd hp hpos
    have hkeep : ∀ p c, ¬0 < p.gTotalPages → ¬0 < (Call.run p c).gTotalPages := by
      intro p c hp
      rwa [(c.run_setup p).total]
    have hnone : ∀ p : Pmm, ¬0 < p.gTotalPages → ¬p.Free 0 := fun p hp hf => hp (Nat.zero_lt_of_lt hf.1)
    exact throughout_of_inv hkeep hnone hpos calls

def lowBoot : BootInfo where
  hhdmOffset := 0xffff800000000000#64
  virtualBase := 0xffffffff80000000#64
  physicalBase := 0x2000#64
  kernelStart := 0xffffffff80000000#64
  kernelEnd := 0xffffffff80001800#64
  memmap := [⟨0x0#64, 0x8000#64, .usable⟩]

theorem alloc_null_smallBoot : ∃ p0, pmmInit smallBoot = some p0 ∧
    Throughout Call.run (fun p => ∀ n ≠ 0, p.NullIsFailure n) p0 [.alloc 9, .free 0x4000 2, .alloc 1] := by
  obtain ⟨p0, hp0⟩ := Option.isSome_iff_exists.mp (by decide +kernel : (pmmInit smallBoot).isSome)
  have habove : ∀ e ∈ smallBoot.memmap, e.type = .usable → ¬e.base.toNat / 4096 ≤ 0 := by decide
  refine ⟨p0, hp0, (alloc_null smallBoot p0 hp0 _).mpr fun _ => ⟨?_, by decide⟩⟩
  rintro ⟨⟨e, he, hu, ht⟩, -⟩
  exact habove e he hu ht.1

theorem alloc_takes_frameZero : ∃ p0, pmmInit lowBoot = some p0 ∧ p0.Free 0 ∧
    (p0.pmmAllocPages 1).2 = 0 ∧ (p0.pmmAllocPages 1).1.bitmapTest 0 = true ∧
    (p0.pmmAllocPages 1).1.gFreeBytes < p0.gFreeBytes ∧ ¬p0.NullIsFailure 1 := by
  obtain ⟨p0, hp0⟩ := Option.isSome_iff_exists.mp (by decide +kernel : (pmmInit lowBoot).isSome)
  have hget : (pmmInit lowBoot).get (by decide +kernel) = p0 := by simp [hp0]
  refine ⟨p0, hp0, ?_, ?_, ?_, ?_, ?_⟩
  · rw [← hget]; decide +kernel
  · rw [← hget]; decide +kernel
  · rw [← hget]; decide +kernel
  · rw [← hget]; decide +kernel
  · rw [nullIsFailure_iff (by decide), ← hget]
    decide +kernel

def clearBits (p : Pmm) : ℕ := (List.range p.gTotalPages).countP fun i => !p.bitmapTest i

def usedBits (p : Pmm) (phys pages : U64) : ℕ :=
  (List.range p.gTotalPages).countP fun i => p.bitmapTest i && decide (Freed phys pages i)

theorem countP_add {f g h : ℕ → Bool} {is : List ℕ} (hor : ∀ i ∈ is, f i = (g i || h i))
    (hand : ∀ i ∈ is, (g i && h i) = false) : is.countP f = is.countP g + is.countP h := by
  induction is with
  | nil => rfl
  | cons i is ih =>
    rw [List.forall_mem_cons] at hor hand
    rw [List.countP_cons, List.countP_cons, List.countP_cons, ih hor.2 hand.2, hor.1]
    have hi := hand.1
    cases hg : g i <;> cases hh : h i
    · simp
    · simp [Nat.add_assoc]
    · simp [Nat.add_right_comm]
    · simp [hg, hh] at hi

theorem countP_window {t s k : ℕ} (h : s + k ≤ t) :
    (List.range t).countP (fun i => decide (s ≤ i ∧ i < s + k)) = k := by
  have hle : ∀ t, (List.range t).countP (fun i => decide (s ≤ i ∧ i < s + k)) = min t (s + k) - s := by
    intro t
    induction t with
    | zero => simp
    | succ t ih =>
      rw [List.range_succ, List.countP_append, ih, List.countP_singleton]
      simp only [decide_eq_true_eq]
      split_ifs <;> omega
  rw [hle]
  omega

theorem clearBits_le (p : Pmm) : p.clearBits ≤ p.gTotalPages := by
  rw [clearBits, ← countFree_eq]
  exact countFree_le p

theorem Allocated.clearBits {k s : ℕ} (h : Allocated p q k s) : p.clearBits = q.clearBits + k := by
  rw [Pmm.clearBits, Pmm.clearBits, h.setup.total, ← countP_window h.fits]
  apply countP_add
  · intro i hi
    rw [h.test i]
    by_cases hw : s ≤ i ∧ i < s + k
    · have := (h.free (i - s) (by omega)).2
      rw [Nat.add_sub_cancel' hw.1] at this
      simp [hw, this]
    · simp [hw]
  · intro i hi
    rw [h.test i]
    by_cases hw : s ≤ i ∧ i < s + k <;> simp [hw]

theorem pmmFreePages_clearBits (hphys : phys ≠ 0) (hpages : pages ≠ 0) :
    (p.pmmFreePages phys pages).clearBits = p.clearBits + p.usedBits phys pages := by
  rw [clearBits, clearBits, usedBits, (pmmFreePages_setup p phys pages).total]
  apply countP_add
  · intro i hi
    rw [pmmFreePages_test_lt hphys hpages (List.mem_range.mp hi)]
    cases p.bitmapTest i <;> simp
  · intro i _
    cases p.bitmapTest i <;> simp

structure Counted (p : Pmm) : Prop where
  exact : p.pmmFreeBytes.toNat = 4096 * p.clearBits
  bounded : p.pmmFreeBytes ≤ p.pmmTotalBytes

/-- The pages in use that the call clears are as many as it adds to the counter. The counter wraps
at 2 ^ 64 bytes, that is after 2 ^ 52 pages. -/
def Call.Balanced (p : Pmm) : Call → Prop
  | .alloc _ => True
  | .free phys pages => phys = 0 ∨ pages = 0 ∨ p.usedBits phys pages = pages.toNat % 2 ^ 52

instance (p : Pmm) : DecidablePred (Call.Balanced p)
  | .alloc _ => .isTrue trivial
  | .free _ _ => inferInstanceAs (Decidable (_ ∨ _))

theorem counted_iff (htotal : p.gTotalBytes.toNat = 4096 * p.gTotalPages) :
    p.Counted ↔ p.gFreeBytes.toNat = 4096 * p.clearBits := by
  constructor
  · exact Counted.exact
  · intro h
    refine ⟨h, ?_⟩
    rw [pmmFreeBytes, pmmTotalBytes, BitVec.le_def, h, htotal]
    exact Nat.mul_le_mul_left 4096 p.clearBits_le

theorem usedBits_le (p : Pmm) (phys pages : U64) : p.clearBits + p.usedBits phys pages ≤ p.gTotalPages := by
  have h := List.countP_le_length (p := fun i => !p.bitmapTest i || decide (Freed phys pages i))
    (l := List.range p.gTotalPages)
  rw [List.length_range] at h
  refine le_of_eq_of_le (countP_add ?_ ?_).symm h
  · intro i _
    cases p.bitmapTest i <;> simp
  · intro i _
    cases p.bitmapTest i <;> simp

theorem Call.run_counted (htotal : p.gTotalBytes.toNat = 4096 * p.gTotalPages)
    (hp : p.Counted) (c : Call) : (c.run p).Counted ↔ c.Balanced p := by
  have hsetup := c.run_setup p
  rw [counted_iff (by rw [hsetup.totalBytes, hsetup.total, htotal])]
  have hfree := hp.exact
  have hbound := p.bounded
  have hpage : pageSize.toNat = 4096 := rfl
  rw [pmmFreeBytes] at hfree
  cases c with
  | alloc n =>
    refine iff_of_true ?_ trivial
    rw [Call.run]
    by_cases hn : n = 0
    · rw [pmmAllocPages, if_pos hn]
      exact hfree
    · obtain ⟨he, -⟩ | ⟨q, s, he, ha⟩ := pmmAllocPages_cases p n hn
      · rwa [he]
      · have htaken := ha.toNat_taken
        have hclear := ha.clearBits
        have hle := p.clearBits_le
        rw [BitVec.toNat_sub] at htaken
        rw [he]
        dsimp only
        omega
  | free phys pages =>
    rw [Call.run, Call.Balanced]
    by_cases h : phys = 0 ∨ pages = 0
    · rw [pmmFreePages, if_pos h]
      exact iff_of_true hfree (h.imp_right .inl)
    · obtain ⟨hphys, hpages⟩ := not_or.mp h
      have hle := p.usedBits_le phys pages
      have hbytes : (p.pmmFreePages phys pages).gFreeBytes = p.gFreeBytes + pages * pageSize := by
        rw [pmmFreePages, if_neg h]
        exact congrArg (· + pages * pageSize) (freeLoop_gFreeBytes _ _ _)
      rw [or_iff_right hphys, or_iff_right hpages, pmmFreePages_clearBits hphys hpages, hbytes,
        BitVec.toNat_add, BitVec.toNat_mul, hfree, hpage]
      omega

theorem pmmInit_totalBytes {b : BootInfo} (h : pmmInit b = some p0) :
    p0.gTotalBytes.toNat = 4096 * p0.gTotalPages := by
  rw [pmmInit] at h
  dsimp only at h
  split_ifs at h
  injection h with h
  subst h
  generalize initBitmap b (placeBitmapPhys _ _ _ _) _ = q
  have hbound := q.bounded
  have hpage : pageSize.toNat = 4096 := rfl
  change (BitVec.ofNat 64 q.gTotalPages * pageSize).toNat = 4096 * q.gTotalPages
  rw [BitVec.toNat_mul, BitVec.toNat_ofNat, hpage]
  omega

/-- The free counter in any history that follows `pmm_init`: it is right as long as every call of
`pmm_free_pages` is balanced, and no longer. -/
theorem free_counter (b : BootInfo) (p0 : Pmm) (h : pmmInit b = some p0) (calls : List Call) :
    Throughout Call.run Counted p0 calls ↔ EachCall Call.run Call.Balanced p0 calls := by
  obtain ⟨bmp, e, hinit⟩ := pmmInit_initialised b p0 h
  have hkeep : ∀ p c, p.gTotalBytes.toNat = 4096 * p.gTotalPages →
      (Call.run p c).gTotalBytes.toNat = 4096 * (Call.run p c).gTotalPages := by
    intro p c hp
    rw [(c.run_setup p).totalBytes, (c.run_setup p).total, hp]
  have htotal := pmmInit_totalBytes h
  apply throughout_iff hkeep (fun p c hp hc => c.run_counted hp hc) htotal
  apply (counted_iff htotal).mpr
  exact hinit.freeBytes

theorem free_counter_smallBoot : ∃ p0, pmmInit smallBoot = some p0 ∧
    Throughout Call.run Counted p0 [.alloc 2, .free 0x4000 2, .free 0 3] := by
  obtain ⟨p0, hp0⟩ := Option.isSome_iff_exists.mp (by decide +kernel : (pmmInit smallBoot).isSome)
  have hget : (pmmInit smallBoot).get (by decide +kernel) = p0 := by simp [hp0]
  refine ⟨p0, hp0, (free_counter smallBoot p0 hp0 _).mpr ?_⟩
  refine ⟨trivial, ?_, .inl rfl, trivial⟩
  rw [← hget]
  decide +kernel

theorem free_counter_above : ∃ p0, pmmInit smallBoot = some p0 ∧
    ((Call.free 0x7000 7).run p0).clearBits = p0.clearBits ∧
    p0.pmmTotalBytes < ((Call.free 0x7000 7).run p0).pmmFreeBytes ∧
    ¬((Call.free 0x7000 7).run p0).Counted := by
  obtain ⟨p0, hp0⟩ := Option.isSome_iff_exists.mp (by decide +kernel : (pmmInit smallBoot).isSome)
  have hget : (pmmInit smallBoot).get (by decide +kernel) = p0 := by simp [hp0]
  have hmore : p0.pmmTotalBytes < ((Call.free 0x7000 7).run p0).pmmFreeBytes := by
    rw [← hget]; decide +kernel
  refine ⟨p0, hp0, ?_, hmore, ?_⟩
  · rw [← hget]; decide +kernel
  · intro hc
    have hsame : ((Call.free 0x7000 7).run p0).pmmTotalBytes = p0.pmmTotalBytes :=
      (Call.run_setup p0 _).totalBytes
    exact BitVec.not_le.mpr hmore (hsame ▸ hc.bounded)

end Mcincos.Pmm
