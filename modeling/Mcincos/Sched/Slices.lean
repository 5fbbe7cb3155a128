import Mcincos.Sched.Deadlines

namespace Mcincos

open CircularList

structure Tick where
  fuel : ℕ
  frame : IsrFrame
  now : U64
  now' : U64

namespace Kernel

variable {T E : Type}

def Shared (s : Kernel T E) : Prop := (∃ current others, s.OnRing current others) ∧ s.Waiting

structure SameSlice (s s' : Kernel T E) : Prop where
  current_eq : s'.gCurrent = s.gCurrent
  quantumNs : s'.gQuantumNs = s.gQuantumNs
  sliceEndNs : s'.gSliceEndNs = s.gSliceEndNs
  shared : s.Shared → s'.Shared

def KeepsSlice (callback : U64 → U64 → Kernel T E → Kernel T E) : Prop :=
  ∀ cb arg s, SameSlice s (callback cb arg s)

def sliceAfter (quantumNs : BitVec 32) (sliceEndNs : U64) (k : Tick) : U64 :=
  if sliceEndNs = 0 ∨ sliceEndNs ≤ k.now' then k.now' + quantumNs.setWidth 64 else sliceEndNs

def Preempts (s : Kernel T E) (k : Tick) : Prop :=
  k.frame.cs &&& 3 = 3 ∧ s.gSliceEndNs ≠ 0 ∧ s.gSliceEndNs ≤ k.now

variable {s s' s'' : Kernel T E} {k : Tick} {ks : List Tick} {frame' : IsrFrame} {now : U64}

theorem SameSlice.refl (s : Kernel T E) : SameSlice s s := ⟨rfl, rfl, rfl, id⟩

theorem SameSlice.trans (h : SameSlice s s') (h' : SameSlice s' s'') : SameSlice s s'' where
  current_eq := h'.current_eq.trans h.current_eq
  quantumNs := h'.quantumNs.trans h.quantumNs
  sliceEndNs := h'.sliceEndNs.trans h.sliceEndNs
  shared := fun hs => h'.shared (h.shared hs)

theorem Rearmed.shared (h : Rearmed s s') (hs : s.Shared) : s'.Shared := by
  obtain ⟨⟨current, others, hring⟩, hwaiting⟩ := hs
  obtain ⟨e, c, rfl⟩ := h
  exact ⟨⟨current, others, hring.current_eq, hring.ring⟩, hwaiting⟩

variable [DecidableEq T] [Fintype T]

theorem Shared.contended (hs : s.Shared) : s.Contended := by
  obtain ⟨⟨current, others, hring⟩, hwaiting⟩ := hs
  exact hring.contended_iff.mpr hwaiting

variable [DecidableEq E] {callback : U64 → U64 → Kernel T E → Kernel T E}

def tick (callback : U64 → U64 → Kernel T E → Kernel T E) (s : Kernel T E) (k : Tick) :
    Except Fault (Kernel T E × IsrFrame) :=
  s.schedOnTick callback k.fuel k.frame k.now k.now'

omit [DecidableEq T] [Fintype T] in
theorem timerqRunExpired_slice {fuel : ℕ} (hcb : KeepsSlice callback)
    (hrun : s.timerqRunExpired callback now fuel = .ok s') : SameSlice s s' := by
  apply timerqRunExpired_induction _ _ hrun (.refl s)
  · intro s1 gHead event hs
    refine ⟨hs.current_eq, hs.quantumNs, hs.sliceEndNs, fun hshared => ?_⟩
    obtain ⟨⟨current, others, hring⟩, hwaiting⟩ := hs.shared hshared
    exact ⟨⟨current, others, hring.current_eq, hring.ring⟩, hwaiting⟩
  · exact fun cb arg s1 hs => hs.trans (hcb cb arg s1)

omit [DecidableEq T] [Fintype T] [DecidableEq E] in
theorem preempts_iff :
    s.Preempts k ↔ k.frame.cs &&& 3 = 3 ∧ ¬(s.gSliceEndNs = 0 ∨ k.now < s.gSliceEndNs) := by
  rw [Preempts, not_or, BitVec.not_lt]

omit [DecidableEq T] [Fintype T] [DecidableEq E] in
theorem not_preempts_iff :
    ¬s.Preempts k ↔ k.frame.cs &&& 3 ≠ 3 ∨ s.gSliceEndNs = 0 ∨ k.now < s.gSliceEndNs := by
  rw [preempts_iff, not_and_or, not_not]

theorem tick_branches (h : s.tick callback k = .ok (s', frame')) :
    s.gCurrent = none ∧ s' = s ∨
    ∃ s1, s.timerqRunExpired callback k.now k.fuel = .ok s1 ∧
      (¬s1.Preempts k ∧ s1.schedArmTimer k.now' = .ok s' ∨
        s1.Preempts k ∧ ∃ s2, s1.reschedule k.frame = .ok (s2, frame') ∧
          { s2 with gSliceEndNs := 0 }.schedArmTimer k.now' = .ok s') := by
  obtain ⟨hnone, hsame, -⟩ | ⟨s1, h1, hbranch⟩ := schedOnTick_cases h
  · exact .inl ⟨hnone, hsame⟩
  refine .inr ⟨s1, h1, ?_⟩
  obtain ⟨hkeep, harm, -⟩ | ⟨huser, hover, hswitch⟩ := hbranch
  · exact .inl ⟨not_preempts_iff.mpr hkeep, harm⟩
  · exact .inr ⟨preempts_iff.mpr ⟨huser, hover⟩, hswitch⟩

theorem tick_current_iff {s1 : Kernel T E} (h1 : s.timerqRunExpired callback k.now k.fuel = .ok s1)
    (hcurrent : s1.gCurrent = s.gCurrent) (h : s.tick callback k = .ok (s', frame')) :
    s'.gCurrent ≠ s.gCurrent ↔ s1.Preempts k ∧ s1.Contended := by
  obtain ⟨hnone, rfl⟩ | ⟨s1', h1', hbranch⟩ := tick_branches h
  · apply iff_of_false (not_not.mpr rfl)
    rintro ⟨-, next, hnext, -⟩
    rw [pickNext, hcurrent, hnone] at hnext
    exact absurd hnext (by simp)
  obtain rfl := Except.ok.inj (h1.symm.trans h1')
  rw [← hcurrent]
  obtain ⟨hkept, harm⟩ | ⟨hpre, s2, hres, harm⟩ := hbranch
  · apply iff_of_false (not_not.mpr (schedArmTimer_rearmed harm).current_eq)
    exact fun hswitch => hkept hswitch.1
  · rw [and_iff_right hpre]
    have hended : s'.gCurrent = s2.gCurrent := (schedArmTimer_rearmed harm).current_eq
    obtain ⟨current, next, hc, hnext, hcases⟩ := reschedule_cases hres
    rw [pickNext_setFrame] at hnext
    rw [hended, hc]
    obtain ⟨rfl, rfl, -⟩ | ⟨hne, rfl, -⟩ := hcases
    · apply iff_of_false
      · exact not_not.mpr hc
      · rintro ⟨next', hnext', hne⟩
        obtain rfl := Except.ok.inj (hnext.symm.trans hnext')
        exact hne hc
    · apply iff_of_true
      · exact fun heq => hne (Option.some.inj heq)
      · refine ⟨next, hnext, ?_⟩
        rw [hc]
        exact fun heq => hne (Option.some.inj heq).symm

theorem tick_cases (hcb : KeepsSlice callback) (hs : s.Shared) (hq : s.gQuantumNs ≠ 0)
    (h : s.tick callback k = .ok (s', frame')) :
    s.Preempts k ∧ s'.gCurrent ≠ s.gCurrent ∨
      ¬s.Preempts k ∧ s'.gCurrent = s.gCurrent ∧ s'.Shared ∧ s'.gQuantumNs = s.gQuantumNs ∧
        s'.gSliceEndNs = sliceAfter s.gQuantumNs s.gSliceEndNs k := by
  have hcurrent : s.gCurrent ≠ none := by
    obtain ⟨⟨current, others, hring⟩, -⟩ := hs
    simp [hring.current_eq]
  obtain ⟨hnone, -⟩ | ⟨s1, h1, hbranch⟩ := tick_branches h
  · exact absurd hnone hcurrent
  have hsame := timerqRunExpired_slice hcb h1
  have hs1 := hsame.shared hs
  have hpreempts : s1.Preempts k ↔ s.Preempts k := by
    rw [Preempts, Preempts, hsame.sliceEndNs]
  have hswitch := tick_current_iff h1 hsame.current_eq h
  rw [and_iff_left hs1.contended, hpreempts] at hswitch
  by_cases hpre : s.Preempts k
  · exact .inl ⟨hpre, hswitch.mpr hpre⟩
  have harm : s1.schedArmTimer k.now' = .ok s' := by
    obtain ⟨-, harm⟩ | ⟨hpre1, -⟩ := hbranch
    · exact harm
    · exact absurd (hpreempts.mp hpre1) hpre
  have hrearmed := schedArmTimer_rearmed harm
  rw [← hsame.quantumNs] at hq ⊢
  refine .inr ⟨hpre, not_not.mp (mt hswitch.mp hpre), hrearmed.shared hs1, hrearmed.quantumNs_eq, ?_⟩
  rw [(schedArmTimer_contended hq hs1.contended harm).1, ← hsame.sliceEndNs, renewSlice, sliceAfter]
  split_ifs
  all_goals rfl

/-- Ticks before each of which the thread is still the one it was at the start. -/
inductive TickRun (callback : U64 → U64 → Kernel T E → Kernel T E) (s : Kernel T E) :
    List Tick → Kernel T E → Prop
  | start : TickRun callback s [] s
  | tick {s' s'' : Kernel T E} {ks : List Tick} {k : Tick} {frame' : IsrFrame} :
      TickRun callback s ks s' → s'.gCurrent = s.gCurrent → s'.tick callback k = .ok (s'', frame') →
      TickRun callback s (ks ++ [k]) s''

theorem TickRun.slice (hrun : TickRun callback s ks s') (hcb : KeepsSlice callback) (hs : s.Shared)
    (hq : s.gQuantumNs ≠ 0) (hstays : s'.gCurrent = s.gCurrent) :
    s'.Shared ∧ s'.gQuantumNs = s.gQuantumNs ∧
      s'.gSliceEndNs = ks.foldl (sliceAfter s.gQuantumNs) s.gSliceEndNs := by
  induction hrun with
  | start => exact ⟨hs, rfl, rfl⟩
  | @tick s1 s2 ks k frame' _ hcurrent htick ih =>
    obtain ⟨hs1, hq1, hslice⟩ := ih hcurrent
    obtain ⟨-, hswitch⟩ | ⟨-, -, hs2, hq2, hslice2⟩ := tick_cases hcb hs1 (hq1 ▸ hq) htick
    · exact absurd (hstays.trans hcurrent.symm) hswitch
    · refine ⟨hs2, hq2.trans hq1, ?_⟩
      rw [hslice2, hq1, hslice, List.foldl_append]
      rfl

theorem foldl_sliceAfter (quantumNs : BitVec 32) {sliceEndNs : U64} (hnonzero : sliceEndNs ≠ 0)
    (h : ∀ k ∈ ks, k.now' < sliceEndNs) : ks.foldl (sliceAfter quantumNs) sliceEndNs = sliceEndNs := by
  induction ks with
  | nil => rfl
  | cons k ks ih =>
    have hk : ¬(sliceEndNs = 0 ∨ sliceEndNs ≤ k.now') :=
      not_or.mpr ⟨hnonzero, BitVec.not_le.mpr (h k List.mem_cons_self)⟩
    rw [List.foldl_cons, sliceAfter, if_neg hk]
    exact ih fun k' hk' => h k' (List.mem_cons_of_mem _ hk')

/-- While a thread stays current its slice changes only by ticks that arm the timer past its end, and
the thread is preempted by the first user-mode tick that comes past the end there is then. -/
theorem slice_kept (hcb : KeepsSlice callback) (hs : s.Shared) (hq : s.gQuantumNs ≠ 0)
    (hslice : s.gSliceEndNs ≠ 0) (hrun : TickRun callback s ks s') (hstays : s'.gCurrent = s.gCurrent) :
    s'.gSliceEndNs = ks.foldl (sliceAfter s.gQuantumNs) s.gSliceEndNs ∧
    ((∀ k ∈ ks, k.now' < s.gSliceEndNs) → s'.gSliceEndNs = s.gSliceEndNs) ∧
    ∀ k s'' frame', s'.tick callback k = .ok (s'', frame') →
      (s''.gCurrent ≠ s.gCurrent ↔ s'.Preempts k) := by
  obtain ⟨hs', hq', hslice'⟩ := hrun.slice hcb hs hq hstays
  refine ⟨hslice', fun hbefore => ?_, fun k s'' frame' htick => ?_⟩
  · rw [hslice', foldl_sliceAfter _ hslice hbefore]
  · rw [← hstays]
    obtain ⟨hpre, hswitch⟩ | ⟨hpre, hcurrent, -⟩ := tick_cases hcb hs' (hq' ▸ hq) htick
    · exact iff_of_true hswitch hpre
    · exact iff_of_false (not_not.mpr hcurrent) hpre

def kernelTick : Tick :=
  ⟨2, { (userThread 0 0 0 : Thread (Fin 3)).frame with cs := 8 }, 1100, 1200⟩

def userTick : Tick := ⟨2, (userThread 0x400010 0x700ff0 0 : Thread (Fin 3)).frame, 1300, 1400⟩

def afterTick (s : Kernel (Fin 3) (Fin 1)) (k : Tick) : Kernel (Fin 3) (Fin 1) :=
  (returned (s, k.frame) (s.tick (fun _ _ s => s) k)).1

theorem twoQueued_shared : twoQueued.Shared := by
  obtain ⟨current, others, hring⟩ := twoQueued_sound.ring
  have hready : (twoQueued.thread 1).state = .ready ∧ twoQueued.gCurrent ≠ some 1 := by decide +kernel
  refine ⟨⟨current, others, hring⟩, 1, ⟨0, by decide +kernel, .single ?_⟩, hready.2, hready.1⟩
  decide +kernel

theorem tick_twoQueued (k : Tick) {s : Kernel (Fin 3) (Fin 1)} (h : (s.tick (fun _ _ s => s) k).isOk) :
    ∃ frame', s.tick (fun _ _ s => s) k = .ok (s.afterTick k, frame') :=
  ⟨_, ok_returned (d := (s, k.frame)) h⟩

theorem slice_kept_kernelTick :
    (twoQueued.afterTick kernelTick).gSliceEndNs =
      [kernelTick].foldl (sliceAfter twoQueued.gQuantumNs) twoQueued.gSliceEndNs := by
  have hok : (twoQueued.tick (fun _ _ s => s) kernelTick).isOk := by decide +kernel
  obtain ⟨frame', htick⟩ := tick_twoQueued kernelTick hok
  exact (slice_kept (fun _ _ s => .refl s) twoQueued_shared (by decide +kernel) (by decide +kernel)
    (.tick .start rfl htick) (by decide +kernel)).1

theorem slice_extended :
    twoQueued.Shared ∧ twoQueued.gQuantumNs ≠ 0 ∧ twoQueued.gSliceEndNs = 1100 ∧
    (twoQueued.tick (fun _ _ s => s) kernelTick).isOk ∧
    (twoQueued.afterTick kernelTick).gCurrent = twoQueued.gCurrent ∧
    (twoQueued.afterTick kernelTick).gSliceEndNs = 2200 ∧
    ((twoQueued.afterTick kernelTick).tick (fun _ _ s => s) userTick).isOk ∧
    userTick.frame.cs &&& 3 = 3 ∧ 1100 ≤ userTick.now ∧
    ((twoQueued.afterTick kernelTick).afterTick userTick).gCurrent = twoQueued.gCurrent := by
  refine ⟨twoQueued_shared, ?_⟩
  decide +kernel

end Kernel

end Mcincos
