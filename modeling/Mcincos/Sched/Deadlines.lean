import Mcincos.Sched.Arming

namespace Mcincos

open CircularList

namespace Kernel

variable {T E : Type} {s s' : Kernel T E} {current : T} {others : List T} {now : U64}

theorem timerFor_eq {deadline : U64} (h : deadline ≠ 0) (now : U64) :
    timerFor deadline now = .oneshot (BitVec.ofNat 64 (max 1 (deadline.toNat - now.toNat))) := by
  rw [timerFor, if_neg h]
  congr 1
  apply BitVec.eq_of_toNat_eq
  have hlt := deadline.isLt
  rw [BitVec.toNat_ofNat]
  split_ifs with hlater
  · have hlater : now.toNat < deadline.toNat := BitVec.lt_def.mp hlater
    rw [BitVec.toNat_sub_of_le (BitVec.le_of_lt (BitVec.lt_def.mpr hlater))]
    omega
  · have hpast : deadline.toNat ≤ now.toNat := Nat.le_of_not_lt fun h => hlater (BitVec.lt_def.mpr h)
    rw [Nat.sub_eq_zero_of_le hpast]
    rfl

def sliceEnd (s : Kernel T E) (now : U64) : ℕ :=
  if now < s.gSliceEndNs then s.gSliceEndNs.toNat else now.toNat + s.gQuantumNs.toNat

def deadlines (s : Kernel T E) (now : U64) : Set ℕ :=
  {d | (∃ ev, s.gHead = some ev ∧ d = (s.event ev).deadlineNs.toNat) ∨
    s.gQuantumNs ≠ 0 ∧ s.Waiting ∧ d = s.sliceEnd now}

def ArmsFirst (s s' : Kernel T E) (now : U64) : Prop :=
  (s'.timer = .stop ↔ s.deadlines now = ∅) ∧
    ∀ d, IsLeast (s.deadlines now) d → s'.timer = .oneshot (BitVec.ofNat 64 (max 1 (d - now.toNat)))

theorem toNat_renewSlice (hq : s.gQuantumNs ≠ 0) (hnow : now.toNat + s.gQuantumNs.toNat < 2 ^ 64) :
    (s.renewSlice now).gSliceEndNs.toNat = s.sliceEnd now ∧ now.toNat < s.sliceEnd now := by
  have hpos : 0 < s.gQuantumNs.toNat := by bv_omega
  rw [renewSlice, sliceEnd]
  by_cases hlater : now < s.gSliceEndNs
  · have hkept : ¬(s.gSliceEndNs = 0 ∨ s.gSliceEndNs ≤ now) := by
      rintro (hzero | hpast)
      · rw [hzero] at hlater
        bv_omega
      · exact BitVec.not_le.mpr hlater hpast
    rw [if_neg hkept, if_pos hlater]
    exact ⟨rfl, BitVec.lt_def.mp hlater⟩
  · rw [if_pos (.inr (BitVec.not_lt.mp hlater)), if_neg hlater]
    have hwidth : (s.gQuantumNs.setWidth 64).toNat = s.gQuantumNs.toNat :=
      BitVec.toNat_setWidth_of_le (by decide)
    constructor
    · rw [BitVec.toNat_add, hwidth, Nat.mod_eq_of_lt hnow]
    · omega

theorem armsFirst_iff {d : ℕ} (h : IsLeast (s.deadlines now) d) : ArmsFirst s s' now ↔
    s'.timer = .oneshot (BitVec.ofNat 64 (max 1 (d - now.toNat))) := by
  constructor
  · exact fun harms => harms.2 d h
  · intro htimer
    constructor
    · rw [htimer]
      exact iff_of_false (by simp) (Set.Nonempty.ne_empty ⟨d, h.1⟩)
    · intro d' h'
      rw [htimer, h.unique h']

theorem nextDeadline_none (hhead : s.gHead = none) : s.timerqNextDeadline = 0 := by
  rw [timerqNextDeadline, hhead]
  rfl

theorem mem_deadlines_head {d : ℕ} : (∃ ev, s.gHead = some ev ∧ d = (s.event ev).deadlineNs.toNat) ↔
    s.gHead ≠ none ∧ d = s.timerqNextDeadline.toNat := by
  rw [timerqNextDeadline]
  cases s.gHead <;> simp

theorem arms_idle (hidle : ¬(s.gQuantumNs ≠ 0 ∧ s.Waiting))
    (htimer : s'.timer = timerFor s.timerqNextDeadline now) :
    ArmsFirst s s' now ↔ s.gHead = none ∨ s.timerqNextDeadline ≠ 0 := by
  have hmem : ∀ d, d ∈ s.deadlines now ↔ s.gHead ≠ none ∧ d = s.timerqNextDeadline.toNat := by
    intro d
    rw [deadlines, Set.mem_ofPred_eq, mem_deadlines_head]
    exact or_iff_left fun hslice => hidle ⟨hslice.1, hslice.2.1⟩
  by_cases hhead : s.gHead = none
  · rw [nextDeadline_none hhead] at htimer
    have hempty : s.deadlines now = ∅ := by
      apply Set.eq_empty_of_forall_notMem
      exact fun d hd => ((hmem d).mp hd).1 hhead
    refine iff_of_true ⟨iff_of_true htimer hempty, ?_⟩ (.inl hhead)
    intro d hd
    exact absurd hhead ((hmem d).mp hd.1).1
  · have hleast : IsLeast (s.deadlines now) s.timerqNextDeadline.toNat := by
      refine ⟨(hmem _).mpr ⟨hhead, rfl⟩, ?_⟩
      intro d hd
      exact ((hmem d).mp hd).2.ge
    rw [armsFirst_iff hleast, or_iff_right hhead, htimer]
    by_cases hzero : s.timerqNextDeadline = 0
    · rw [timerFor, if_pos hzero]
      exact iff_of_false (by simp) (not_not.mpr hzero)
    · exact iff_of_true (timerFor_eq hzero now) hzero

theorem toNat_earlier {d e : U64} (hd : d ≠ 0) :
    (if d = 0 ∨ e < d then e else d).toNat = min d.toNat e.toNat := by
  by_cases hlt : e < d
  · rw [if_pos (.inr hlt), min_eq_right (BitVec.lt_def.mp hlt).le]
  · rw [if_neg (not_or.mpr ⟨hd, hlt⟩), min_eq_left (BitVec.le_def.mp (BitVec.not_lt.mp hlt))]

theorem deadlines_contended {e : U64} (hq : s.gQuantumNs ≠ 0) (hwaiting : s.Waiting)
    (hend : e.toNat = s.sliceEnd now) :
    s.deadlines now = if s.gHead = none then {e.toNat} else {s.timerqNextDeadline.toNat, e.toNat} := by
  have hmem : ∀ d, d ∈ s.deadlines now ↔
      (s.gHead ≠ none ∧ d = s.timerqNextDeadline.toNat) ∨ d = e.toNat := by
    intro d
    rw [deadlines, Set.mem_ofPred_eq, mem_deadlines_head, hend, and_iff_right hq, and_iff_right hwaiting]
  apply Set.ext
  intro d
  rw [hmem]
  split_ifs with hhead
  · exact or_iff_right fun h => h.1 hhead
  · rw [and_iff_right hhead]
    rfl

theorem arms_contended {e : U64} (hq : s.gQuantumNs ≠ 0) (hwaiting : s.Waiting)
    (hend : e.toNat = s.sliceEnd now) (hlater : now.toNat < s.sliceEnd now)
    (htimer : s'.timer = timerFor (if s.timerqNextDeadline = 0 ∨ e < s.timerqNextDeadline then e
      else s.timerqNextDeadline) now) :
    ArmsFirst s s' now ↔
      s.gHead = none ∨ s.timerqNextDeadline ≠ 0 ∨ s.sliceEnd now = now.toNat + 1 := by
  have hdeadlines := deadlines_contended hq hwaiting hend
  have he : e ≠ 0 := by
    rintro rfl
    rw [← hend] at hlater
    exact absurd hlater (Nat.not_lt_zero _)
  by_cases hzero : s.timerqNextDeadline = 0
  · rw [if_pos (.inl hzero), timerFor_eq he, hend] at htimer
    by_cases hhead : s.gHead = none
    · have hleast : IsLeast (s.deadlines now) e.toNat := by
        rw [hdeadlines, if_pos hhead]
        exact isLeast_singleton
      rw [armsFirst_iff hleast, htimer, hend]
      exact iff_of_true rfl (.inl hhead)
    · have hleast : IsLeast (s.deadlines now) 0 := by
        have hmin : min (0 : U64).toNat e.toNat = 0 := Nat.zero_min e.toNat
        rw [hdeadlines, if_neg hhead, hzero]
        exact hmin ▸ isLeast_pair
      have hlt := e.isLt
      rw [armsFirst_iff hleast, htimer, or_iff_right hhead, or_iff_right (not_not.mpr hzero)]
      simp only [TimerCommand.oneshot.injEq, ← BitVec.toNat_inj, BitVec.toNat_ofNat]
      omega
  · have hhead : s.gHead ≠ none := fun hnone => hzero (nextDeadline_none hnone)
    have hleast : IsLeast (s.deadlines now) (if s.timerqNextDeadline = 0 ∨ e < s.timerqNextDeadline
        then e else s.timerqNextDeadline).toNat := by
      rw [hdeadlines, if_neg hhead, toNat_earlier hzero]
      exact isLeast_pair
    have hnonzero : (if s.timerqNextDeadline = 0 ∨ e < s.timerqNextDeadline then e
        else s.timerqNextDeadline) ≠ 0 := by
      split_ifs
      · exact he
      · exact hzero
    rw [armsFirst_iff hleast, htimer]
    exact iff_of_true (timerFor_eq hnonzero now) (.inr (.inl hzero))

variable [DecidableEq T] [Fintype T]

/-- Arming goes by the first deadline, unless an event with deadline 0 leads the queue. -/
theorem arming_decision (h : s.OnRing current others)
    (hnow : now.toNat + s.gQuantumNs.toNat < 2 ^ 64) :
    ∃ s', s.schedArmTimer now = .ok s' ∧
      (ArmsFirst s s' now ↔ s.gHead = none ∨ s.timerqNextDeadline ≠ 0 ∨
        s.gQuantumNs ≠ 0 ∧ s.Waiting ∧ s.sliceEnd now = now.toNat + 1) := by
  obtain ⟨next, -, hnext⟩ := h.pickNext_mem
  obtain ⟨s', harm⟩ := schedArmTimer_ok now hnext
  refine ⟨s', harm, ?_⟩
  by_cases hslice : s.gQuantumNs ≠ 0 ∧ s.Waiting
  · obtain ⟨hq, hwaiting⟩ := hslice
    obtain ⟨hend, hlater⟩ := toNat_renewSlice hq hnow
    have htimer := (schedArmTimer_contended hq (h.contended_iff.mpr hwaiting) harm).2
    rw [arms_contended hq hwaiting hend hlater htimer, and_iff_right hq, and_iff_right hwaiting]
  · have htimer := (schedArmTimer_idle (fun hq hc => hslice ⟨hq, h.contended_iff.mp hc⟩) harm).1
    rw [arms_idle hslice htimer]
    have hnone : ¬(s.gQuantumNs ≠ 0 ∧ s.Waiting ∧ s.sliceEnd now = now.toNat + 1) := by
      exact fun hc => hslice ⟨hc.1, hc.2.1⟩
    rw [or_iff_left hnone]

theorem twoQueued_onRing : twoQueued.OnRing 0 [1] := by
  refine ⟨by decide +kernel, IsRing.of_links (by decide) ?_⟩
  decide +kernel

theorem arming_decision_twoQueued : ∃ s', twoQueued.schedArmTimer 200 = .ok s' ∧ ArmsFirst twoQueued s' 200 := by
  have hnow : (200 : U64).toNat + twoQueued.gQuantumNs.toNat < 2 ^ 64 := by decide +kernel
  obtain ⟨s', harm, harms⟩ := arming_decision twoQueued_onRing hnow
  exact ⟨s', harm, harms.mpr (.inr (.inl (by decide +kernel)))⟩

def zeroDeadline : Kernel (Fin 3) (Fin 1) :=
  { twoQueued with gQuantumNs := 0, event := fun _ => ⟨0, 0, 0, none⟩ }

theorem deadline_zero_stops : zeroDeadline.OnRing 0 [1] ∧
    ∃ s', zeroDeadline.schedArmTimer 200 = .ok s' ∧ s'.timer = .stop ∧
      0 ∈ zeroDeadline.deadlines 200 ∧ ¬ArmsFirst zeroDeadline s' 200 := by
  have hring : zeroDeadline.OnRing 0 [1] := ⟨twoQueued_onRing.current_eq, twoQueued_onRing.ring⟩
  have hmem : 0 ∈ zeroDeadline.deadlines 200 := by
    apply Or.inl
    exact ⟨0, by decide +kernel, rfl⟩
  refine ⟨hring, { zeroDeadline with timer := .stop }, ?_, rfl, hmem, ?_⟩
  · rw [schedArmTimer, if_pos (by decide +kernel)]
    rfl
  · intro harms
    have hempty := harms.1.mp rfl
    rw [hempty] at hmem
    exact hmem

end Kernel

end Mcincos
