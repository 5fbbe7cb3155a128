import Mcincos.Sched.Sched

namespace Mcincos

theorem bind_eq_ok {ε α β : Type} {x : Except ε α} {f : α → Except ε β} {b : β}
    (h : x >>= f = .ok b) : ∃ a, x = .ok a ∧ f a = .ok b := by
  cases x with
  | error e => exact absurd h (by simp [bind, Except.bind])
  | ok a => exact ⟨a, rfl, h⟩

theorem bind_ok {ε α β : Type} {x : Except ε α} {f : α → Except ε β} {a : α} (h : x = .ok a) :
    x >>= f = f a := by
  rw [h]
  rfl

def returned {ε α : Type} (d : α) (call : Except ε α) : α := call.toOption.getD d

theorem ok_returned {ε α : Type} {d : α} {call : Except ε α} (h : call.isOk) :
    call = .ok (returned d call) := by
  cases call with
  | error e => exact absurd h (by simp [Except.isOk, Except.toBool])
  | ok a => rfl

namespace Kernel

variable {T E : Type} {s s' : Kernel T E} {frame frame' : IsrFrame} {now now' deadline : U64}

def Rearmed (s s' : Kernel T E) : Prop :=
  ∃ gSliceEndNs timer, s' = { s with gSliceEndNs, timer }

theorem renewSlice_rearmed (s : Kernel T E) (now : U64) : Rearmed s (s.renewSlice now) := by
  unfold renewSlice
  split_ifs
  · exact ⟨_, s.timer, rfl⟩
  · exact ⟨s.gSliceEndNs, s.timer, rfl⟩

theorem Rearmed.current_eq (h : Rearmed s s') : s'.gCurrent = s.gCurrent := by
  obtain ⟨e, c, rfl⟩ := h
  rfl

theorem Rearmed.thread_eq (h : Rearmed s s') : s'.thread = s.thread := by
  obtain ⟨e, c, rfl⟩ := h
  rfl

theorem Rearmed.quantumNs_eq (h : Rearmed s s') : s'.gQuantumNs = s.gQuantumNs := by
  obtain ⟨e, c, rfl⟩ := h
  rfl

section Switch

variable [DecidableEq T] (s : Kernel T E) (current next t : T)

@[simp] theorem switchTo_current : (s.switchTo current next).gCurrent = some next := rfl

@[simp] theorem switchTo_next :
    ((s.switchTo current next).thread t).next = (s.thread t).next := by
  simp [switchTo, gdtSetKernelStack]

@[simp] theorem switchTo_frame :
    ((s.switchTo current next).thread t).frame = (s.thread t).frame := by
  simp [switchTo, gdtSetKernelStack]

@[simp] theorem switchTo_kstackTop :
    ((s.switchTo current next).thread t).kstackTop = (s.thread t).kstackTop := by
  simp [switchTo, gdtSetKernelStack]

@[simp] theorem switchTo_state :
    ((s.switchTo current next).thread t).state =
      if t = next then .running else if t = current then .ready else (s.thread t).state := by
  simp [switchTo, gdtSetKernelStack]

@[simp] theorem switchTo_kernelRsp :
    (s.switchTo current next).kernelRsp = (s.thread next).kstackTop := by
  simp [switchTo, gdtSetKernelStack]

@[simp] theorem switchTo_rsp0 : (s.switchTo current next).rsp0 = (s.thread next).kstackTop := by
  simp [switchTo, gdtSetKernelStack]

end Switch

variable [DecidableEq T] [Fintype T] {current next : T}

omit [Fintype T] in
theorem pickLoop_congr (hthread : s'.thread = s.thread) (current : T) (n : ℕ) (t : Option T) :
    s'.pickLoop current n t = s.pickLoop current n t := by
  induction n generalizing t with
  | zero => cases t <;> rfl
  | succ n ih =>
    cases t with
    | none => rfl
    | some t => rw [pickLoop, pickLoop, hthread, ih]

theorem pickNext_congr (hcurrent : s'.gCurrent = s.gCurrent) (hthread : s'.thread = s.thread) :
    s'.pickNext = s.pickNext := by
  unfold pickNext
  rw [hcurrent, hthread]
  cases s.gCurrent with
  | none => rfl
  | some current => simp only [pickLoop_congr hthread]

omit [Fintype T] in
theorem pickLoop_setFrame (s : Kernel T E) (t : T) (frame : IsrFrame) (current : T) (n : ℕ)
    (u : Option T) : (s.setFrame t frame).pickLoop current n u = s.pickLoop current n u := by
  induction n generalizing u with
  | zero => cases u <;> rfl
  | succ n ih =>
    cases u with
    | none => rfl
    | some u => rw [pickLoop, pickLoop, setFrame_state, setFrame_next, ih]

theorem pickNext_setFrame (s : Kernel T E) (t : T) (frame : IsrFrame) :
    (s.setFrame t frame).pickNext = s.pickNext := by
  unfold pickNext
  rw [setFrame_current]
  cases s.gCurrent with
  | none => rfl
  | some current => simp only [pickLoop_setFrame, setFrame_next, setFrame_state]

theorem schedNextDeadline_rearmed (h : s.schedNextDeadline now = .ok (s', deadline)) :
    Rearmed s s' := by
  unfold schedNextDeadline at h
  by_cases hq : s.gQuantumNs = 0
  · rw [if_pos hq] at h
    obtain ⟨rfl, -⟩ := Prod.mk.inj (Except.ok.inj h)
    exact ⟨0, s.timer, rfl⟩
  · rw [if_neg hq] at h
    obtain ⟨next, -, h⟩ := bind_eq_ok h
    by_cases hnext : some next = s.gCurrent
    · rw [if_pos hnext] at h
      obtain ⟨rfl, -⟩ := Prod.mk.inj (Except.ok.inj h)
      exact ⟨0, s.timer, rfl⟩
    · rw [if_neg hnext] at h
      obtain ⟨rfl, -⟩ := Prod.mk.inj (Except.ok.inj h)
      exact renewSlice_rearmed s now

theorem schedArmTimer_rearmed (h : s.schedArmTimer now = .ok s') : Rearmed s s' := by
  unfold schedArmTimer at h
  split_ifs at h
  · obtain rfl := Except.ok.inj h
    exact ⟨s.gSliceEndNs, .stop, rfl⟩
  · obtain ⟨⟨s1, deadline⟩, h1, h⟩ := bind_eq_ok h
    obtain ⟨e, c, rfl⟩ := schedNextDeadline_rearmed h1
    dsimp only at h
    split_ifs at h
    all_goals obtain rfl := Except.ok.inj h
    · exact ⟨e, .stop, rfl⟩
    · exact ⟨e, _, rfl⟩
    · exact ⟨e, _, rfl⟩

theorem schedArmTimer_ok (now : U64) (h : s.pickNext = .ok next) :
    ∃ s', s.schedArmTimer now = .ok s' := by
  have hdeadline : ∃ r, s.schedNextDeadline now = .ok r := by
    unfold schedNextDeadline
    dsimp only
    rw [bind_ok h]
    split_ifs
    all_goals exact ⟨_, rfl⟩
  obtain ⟨⟨s1, deadline⟩, h1⟩ := hdeadline
  unfold schedArmTimer
  rw [bind_ok h1]
  dsimp only
  split_ifs
  all_goals exact ⟨_, rfl⟩

theorem reschedule_cases (h : s.reschedule frame = .ok (s', frame')) :
    ∃ current next, s.gCurrent = some current ∧
      (s.setFrame current frame).pickNext = .ok next ∧
      (next = current ∧ s' = s.setFrame current frame ∧ frame' = frame ∨
        next ≠ current ∧ s' = (s.setFrame current frame).switchTo current next ∧
          frame' = (s'.thread next).frame) := by
  unfold reschedule at h
  cases hcurrent : s.gCurrent with
  | none =>
    rw [hcurrent] at h
    exact absurd h (by simp)
  | some current =>
    rw [hcurrent] at h
    obtain ⟨next, hnext, h⟩ := bind_eq_ok h
    refine ⟨current, next, rfl, hnext, ?_⟩
    by_cases hne : next = current
    · rw [if_pos hne] at h
      obtain ⟨rfl, rfl⟩ := Prod.mk.inj (Except.ok.inj h)
      exact .inl ⟨hne, rfl, rfl⟩
    · rw [if_neg hne] at h
      obtain ⟨rfl, rfl⟩ := Prod.mk.inj (Except.ok.inj h)
      exact .inr ⟨hne, rfl, rfl⟩

variable [DecidableEq E] {callback : U64 → U64 → Kernel T E → Kernel T E} {fuel : ℕ}

theorem schedOnTick_cases (h : s.schedOnTick callback fuel frame now now' = .ok (s', frame')) :
    s.gCurrent = none ∧ s' = s ∧ frame' = frame ∨
    ∃ s1, s.timerqRunExpired callback now fuel = .ok s1 ∧
      ((frame.cs &&& 3 ≠ 3 ∨ s1.gSliceEndNs = 0 ∨ now < s1.gSliceEndNs) ∧
          s1.schedArmTimer now' = .ok s' ∧ frame' = frame ∨
        frame.cs &&& 3 = 3 ∧ ¬(s1.gSliceEndNs = 0 ∨ now < s1.gSliceEndNs) ∧
          ∃ s2, s1.reschedule frame = .ok (s2, frame') ∧
            { s2 with gSliceEndNs := 0 }.schedArmTimer now' = .ok s') := by
  unfold schedOnTick at h
  by_cases hcurrent : s.gCurrent = none
  · rw [if_pos hcurrent] at h
    obtain ⟨rfl, rfl⟩ := Prod.mk.inj (Except.ok.inj h)
    exact .inl ⟨hcurrent, rfl, rfl⟩
  rw [if_neg hcurrent] at h
  obtain ⟨s1, h1, h⟩ := bind_eq_ok h
  refine .inr ⟨s1, h1, ?_⟩
  by_cases hkernel : frame.cs &&& 3 ≠ 3
  · rw [if_pos hkernel] at h
    obtain ⟨s2, h2, h⟩ := bind_eq_ok h
    obtain ⟨rfl, rfl⟩ := Prod.mk.inj (Except.ok.inj h)
    exact .inl ⟨.inl hkernel, h2, rfl⟩
  rw [if_neg hkernel] at h
  by_cases hslice : s1.gSliceEndNs = 0 ∨ now < s1.gSliceEndNs
  · rw [if_pos hslice] at h
    obtain ⟨s2, h2, h⟩ := bind_eq_ok h
    obtain ⟨rfl, rfl⟩ := Prod.mk.inj (Except.ok.inj h)
    exact .inl ⟨.inr hslice, h2, rfl⟩
  · rw [if_neg hslice] at h
    obtain ⟨⟨s2, frame2⟩, h2, h⟩ := bind_eq_ok h
    obtain ⟨s3, h3, h⟩ := bind_eq_ok h
    obtain ⟨rfl, rfl⟩ := Prod.mk.inj (Except.ok.inj h)
    exact .inr ⟨not_not.mp hkernel, hslice, s2, h2, h3⟩

end Kernel

end Mcincos
