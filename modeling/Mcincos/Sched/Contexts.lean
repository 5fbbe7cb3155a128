import Mcincos.Sched.RunQueue

namespace Mcincos

namespace Kernel

variable {T E : Type}

structure SameContexts (s s' : Kernel T E) : Prop where
  current : s'.gCurrent = s.gCurrent
  frame : ∀ t, (s'.thread t).frame = (s.thread t).frame
  kstackTop : ∀ t, (s'.thread t).kstackTop = (s.thread t).kstackTop
  kernelRsp : s'.kernelRsp = s.kernelRsp
  rsp0 : s'.rsp0 = s.rsp0

def KeepsContexts (callback : U64 → U64 → Kernel T E → Kernel T E) : Prop :=
  ∀ cb arg s, SameContexts s (callback cb arg s)

def OnKernelStack (s : Kernel T E) : Prop :=
  ∃ current, s.gCurrent = some current ∧ s.kernelRsp = (s.thread current).kstackTop ∧
    s.rsp0 = (s.thread current).kstackTop

structure Saved (last : T → IsrFrame) (s : Kernel T E) : Prop where
  user : ∀ t, (last t).cs &&& 3 = 3
  frame : ∀ t, s.gCurrent ≠ some t → (s.thread t).frame = last t
  stack : s.OnKernelStack

/-- A tick, entered with `frame` and left with `frame'`, loses and mixes no context. -/
structure CleanTick (last : T → IsrFrame) (s s' : Kernel T E) (frame frame' : IsrFrame) : Prop where
  others : ∀ t, s.gCurrent ≠ some t → (s'.thread t).frame = (s.thread t).frame
  stays : s'.gCurrent = s.gCurrent → frame' = frame
  resumes : ∀ t, s'.gCurrent = some t → s.gCurrent ≠ some t →
    frame' = last t ∧ frame'.cs &&& 3 = 3
  stack : s'.OnKernelStack

variable {s s' : Kernel T E} {last : T → IsrFrame}

theorem SameContexts.refl (s : Kernel T E) : SameContexts s s :=
  ⟨rfl, fun _ => rfl, fun _ => rfl, rfl, rfl⟩

theorem SameContexts.trans {s'' : Kernel T E} (h : SameContexts s s') (h' : SameContexts s' s'') :
    SameContexts s s'' where
  current := h'.current.trans h.current
  frame := fun t => (h'.frame t).trans (h.frame t)
  kstackTop := fun t => (h'.kstackTop t).trans (h.kstackTop t)
  kernelRsp := h'.kernelRsp.trans h.kernelRsp
  rsp0 := h'.rsp0.trans h.rsp0

theorem Rearmed.contexts (h : Rearmed s s') : SameContexts s s' := by
  obtain ⟨e, c, rfl⟩ := h
  exact ⟨rfl, fun _ => rfl, fun _ => rfl, rfl, rfl⟩

theorem Saved.same (h : Saved last s) (hs : SameContexts s s') : Saved last s' where
  user := h.user
  frame := by
    intro t ht
    rw [hs.current] at ht
    exact (hs.frame t).trans (h.frame t ht)
  stack := by
    obtain ⟨current, hcurrent, hrsp, hrsp0⟩ := h.stack
    refine ⟨current, hs.current.trans hcurrent, ?_, ?_⟩
    · rw [hs.kernelRsp, hs.kstackTop, hrsp]
    · rw [hs.rsp0, hs.kstackTop, hrsp0]

section Timers

variable [DecidableEq E] {callback : U64 → U64 → Kernel T E → Kernel T E} {fuel : ℕ} {now : U64}

theorem timerqRunExpired_contexts (hcb : KeepsContexts callback)
    (hrun : s.timerqRunExpired callback now fuel = .ok s') : SameContexts s s' := by
  apply timerqRunExpired_induction _ _ hrun (.refl s)
  · exact fun s1 gHead event hs => ⟨hs.current, hs.frame, hs.kstackTop, hs.kernelRsp, hs.rsp0⟩
  · exact fun cb arg s1 hs => hs.trans (hcb cb arg s1)

end Timers

variable [DecidableEq T] {frame frame' : IsrFrame} {now : U64} {t : T}

def switchOut (s s' : Kernel T E) (frame : IsrFrame) (last : T → IsrFrame) : T → IsrFrame :=
  match s.gCurrent with
  | none => last
  | some current =>
    if s'.gCurrent = s.gCurrent then last else Function.update last current frame

theorem switchOut_congr {s1 s2 : Kernel T E} (h1 : s1.gCurrent = s.gCurrent)
    (h2 : s2.gCurrent = s'.gCurrent) (frame : IsrFrame) (last : T → IsrFrame) :
    switchOut s1 s2 frame last = switchOut s s' frame last := by
  rw [switchOut, switchOut, h1, h2]

theorem threadInitUser_thread (s : Kernel T E) (t t' : T) (entry userStackTop kstackTop : U64) :
    (s.threadInitUser t entry userStackTop kstackTop).thread t' =
      if t' = t then userThread entry userStackTop kstackTop else s.thread t' :=
  s.setThread_thread t t' _

structure UserThread (T : Type) where
  thread : T
  entry : U64
  userStackTop : U64
  kstackTop : U64

def initUsers (s : Kernel T E) (users : List (UserThread T)) : Kernel T E :=
  users.foldl (fun s u => s.threadInitUser u.thread u.entry u.userStackTop u.kstackTop) s

def boot (s : Kernel T E) (users : List (UserThread T)) (bootstrap : T) : Kernel T E :=
  let s := s.initUsers users
  let s := { s with kernelRsp := (s.thread bootstrap).kstackTop }
  (s.gdtSetKernelStack (s.thread bootstrap).kstackTop).schedInit bootstrap

theorem initUsers_thread {P : Thread T → Prop} (s : Kernel T E) {users : List (UserThread T)}
    (huser : ∀ u ∈ users, P (userThread u.entry u.userStackTop u.kstackTop))
    (h : t ∈ users.map UserThread.thread ∨ P (s.thread t)) : P ((s.initUsers users).thread t) := by
  induction users generalizing s with
  | nil => exact h.resolve_left List.not_mem_nil
  | cons u us ih =>
    apply ih _ fun u' hu' => huser u' (List.mem_cons_of_mem u hu')
    by_cases ht : t = u.thread
    · right
      simp only [threadInitUser_thread, if_pos ht]
      exact huser u List.mem_cons_self
    · simp only [threadInitUser_thread, if_neg ht]
      obtain hmem | hset := h
      · exact .inl ((List.mem_cons.mp hmem).resolve_left ht)
      · exact .inr hset

theorem boot_frame (s : Kernel T E) (users : List (UserThread T)) (bootstrap t : T) :
    ((s.boot users bootstrap).thread t).frame = ((s.initUsers users).thread t).frame := by
  simp [boot, schedInit, gdtSetKernelStack]

theorem boot_kstackTop (s : Kernel T E) (users : List (UserThread T)) (bootstrap t : T) :
    ((s.boot users bootstrap).thread t).kstackTop = ((s.initUsers users).thread t).kstackTop := by
  simp [boot, schedInit, gdtSetKernelStack]

theorem boot_saved (s : Kernel T E) (users : List (UserThread T)) (bootstrap : T)
    (hall : ∀ t, t ∈ users.map UserThread.thread) :
    Saved (fun t => ((s.boot users bootstrap).thread t).frame) (s.boot users bootstrap) where
  user := by
    intro t
    rw [boot_frame]
    apply initUsers_thread (P := fun th => th.frame.cs &&& 3 = 3) s _ (.inl (hall t))
    exact fun _ _ => (by decide : userCs &&& 3 = 3)
  frame := fun _ _ => rfl
  stack := by
    have hstack := s.boot_kstackTop users bootstrap bootstrap
    exact ⟨bootstrap, rfl, hstack.symm, hstack.symm⟩

variable [Fintype T]

theorem schedAdd_contexts (hcurrent : s.gCurrent ≠ none) (h : s.schedAdd t now = .ok s') :
    SameContexts s s' := by
  obtain ⟨current, hcurrent⟩ := Option.ne_none_iff_exists'.mp hcurrent
  unfold schedAdd at h
  rw [hcurrent] at h
  apply SameContexts.trans _ (schedArmTimer_rearmed h).contexts
  constructor
  · rfl
  · intro t'
    simp
  · intro t'
    simp
  · rfl
  · rfl

theorem Saved.reschedule (h : Saved last s) (huser : frame.cs &&& 3 = 3)
    (hres : s.reschedule frame = .ok (s', frame')) :
    Saved (switchOut s s' frame last) s' ∧ CleanTick last s s' frame frame' := by
  obtain ⟨current, next, hcurrent, -, ⟨rfl, rfl, rfl⟩ | ⟨hne, rfl, rfl⟩⟩ := reschedule_cases hres
  · have hlast : switchOut s (s.setFrame next frame') frame' last = last := by
      simp [switchOut, hcurrent]
    have hothers (t : T) (ht : s.gCurrent ≠ some t) :
        ((s.setFrame next frame').thread t).frame = (s.thread t).frame := by
      rw [setFrame_frame, if_neg]
      rintro rfl
      exact ht hcurrent
    have hstack : (s.setFrame next frame').OnKernelStack := by
      obtain ⟨current, hc, hrsp, hrsp0⟩ := h.stack
      refine ⟨current, hc, ?_, ?_⟩
      · rw [setFrame_kstackTop, ← hrsp]
        rfl
      · rw [setFrame_kstackTop, ← hrsp0]
        rfl
    rw [hlast]
    refine ⟨⟨h.user, fun t ht => ?_, hstack⟩, hothers, fun _ => rfl, fun t ht hnt => ?_, hstack⟩
    · exact (hothers t ht).trans (h.frame t ht)
    · exact absurd ht hnt
  · have hswitch : some next ≠ some current := fun he => hne (Option.some.inj he)
    have hlast : switchOut s ((s.setFrame current frame).switchTo current next) frame last =
        Function.update last current frame := by
      simp [switchOut, hcurrent, hne]
    have hstack : ((s.setFrame current frame).switchTo current next).OnKernelStack :=
      ⟨next, rfl, by simp, by simp⟩
    rw [hlast]
    refine ⟨⟨fun t => ?_, fun t ht => ?_, hstack⟩, fun t ht => ?_, fun hc => ?_, fun t ht _ => ?_,
      hstack⟩
    · rw [Function.update_apply]
      split_ifs
      · exact huser
      · exact h.user t
    · rw [switchTo_frame, setFrame_frame, Function.update_apply]
      split_ifs with htc
      · rfl
      · apply h.frame
        rw [hcurrent]
        exact fun he => htc (Option.some.inj he).symm
    · rw [switchTo_frame, setFrame_frame, if_neg]
      rintro rfl
      exact ht hcurrent
    · exact absurd (hc.trans hcurrent) hswitch
    · obtain rfl := Option.some.inj ht
      have hresumed : (((s.setFrame current frame).switchTo current next).thread next).frame =
          last next := by
        rw [switchTo_frame, setFrame_frame, if_neg hne]
        exact h.frame next (hcurrent ▸ hswitch.symm)
      exact ⟨hresumed, hresumed ▸ h.user next⟩

variable [DecidableEq E] {callback : U64 → U64 → Kernel T E → Kernel T E} {fuel : ℕ} {now' : U64}

theorem Saved.tick (h : Saved last s) (hcb : KeepsContexts callback)
    (htick : s.schedOnTick callback fuel frame now now' = .ok (s', frame')) :
    Saved (switchOut s s' frame last) s' ∧ CleanTick last s s' frame frame' := by
  obtain ⟨hnone, -⟩ | ⟨s1, hrun, ⟨-, harm, rfl⟩ | ⟨huser, -, s2, hres, harm⟩⟩ := schedOnTick_cases htick
  · obtain ⟨current, hcurrent, -⟩ := h.stack
    exact absurd (hnone.symm.trans hcurrent) (by simp)
  · have hsame := (timerqRunExpired_contexts hcb hrun).trans (schedArmTimer_rearmed harm).contexts
    have hlast : switchOut s s' frame' last = last := by
      unfold switchOut
      split
      · rfl
      · exact if_pos hsame.current
    rw [hlast]
    refine ⟨h.same hsame, fun t _ => hsame.frame t, fun _ => rfl, fun t ht hnt => ?_,
      (h.same hsame).stack⟩
    exact absurd (hsame.current.symm.trans ht) hnt
  · have hfirst := timerqRunExpired_contexts hcb hrun
    obtain ⟨hsaved, hclean⟩ := (h.same hfirst).reschedule huser hres
    have hlast : SameContexts s2 s' := by
      obtain ⟨e, c, rfl⟩ := schedArmTimer_rearmed harm
      exact ⟨rfl, fun _ => rfl, fun _ => rfl, rfl, rfl⟩
    rw [← switchOut_congr hfirst.current hlast.current.symm]
    refine ⟨hsaved.same hlast, fun t ht => ?_, fun hc => ?_, fun t ht hnt => ?_,
      (hsaved.same hlast).stack⟩
    · rw [← hfirst.current] at ht
      rw [hlast.frame, hclean.others t ht, hfirst.frame]
    · rw [hlast.current, ← hfirst.current] at hc
      exact hclean.stays hc
    · rw [hlast.current] at ht
      rw [← hfirst.current] at hnt
      exact hclean.resumes t ht hnt

theorem Saved.tick_frames {P : T → IsrFrame → Prop} (h : Saved last s) (hcb : KeepsContexts callback)
    (htick : s.schedOnTick callback fuel frame now now' = .ok (s', frame'))
    (hcurrent : ∀ t, s.gCurrent = some t → P t frame)
    (hothers : ∀ t, s.gCurrent ≠ some t → P t (s.thread t).frame) :
    (∀ t, s'.gCurrent = some t → P t frame') ∧ ∀ t, s'.gCurrent ≠ some t → P t (s'.thread t).frame := by
  obtain ⟨hsaved', hclean⟩ := h.tick hcb htick
  obtain ⟨current, hold, -⟩ := h.stack
  constructor
  · intro t ht
    by_cases hstays : s.gCurrent = some t
    · rw [hclean.stays (ht.trans hstays.symm)]
      exact hcurrent t hstays
    · rw [(hclean.resumes t ht hstays).1, ← h.frame t hstays]
      exact hothers t hstays
  · intro t ht
    rw [hsaved'.frame t ht, switchOut, hold]
    dsimp only
    by_cases hother : s.gCurrent = some t
    · obtain rfl := Option.some.inj (hold.symm.trans hother)
      rw [if_neg fun hkept => ht hkept, Function.update_self]
      exact hcurrent current hold
    · have hlast : P t (last t) := h.frame t hother ▸ hothers t hother
      have hne : t ≠ current := by
        rintro rfl
        exact hother hold
      split_ifs
      · exact hlast
      · rw [Function.update_of_ne hne]
        exact hlast

theorem tick_kstackTop (hcb : KeepsContexts callback)
    (htick : s.schedOnTick callback fuel frame now now' = .ok (s', frame')) (t : T) :
    (s'.thread t).kstackTop = (s.thread t).kstackTop := by
  obtain ⟨-, rfl, -⟩ | ⟨s1, hrun, ⟨-, harm, -⟩ | ⟨-, -, s2, hres, harm⟩⟩ := schedOnTick_cases htick
  · rfl
  · exact ((timerqRunExpired_contexts hcb hrun).trans (schedArmTimer_rearmed harm).contexts).kstackTop t
  · rw [(schedArmTimer_rearmed harm).contexts.kstackTop,
      ← (timerqRunExpired_contexts hcb hrun).kstackTop]
    obtain ⟨current, next, -, -, ⟨-, rfl, -⟩ | ⟨-, rfl, -⟩⟩ := reschedule_cases hres
    · exact setFrame_kstackTop _ _ _ _
    · exact (switchTo_kstackTop _ _ _ _).trans (setFrame_kstackTop _ _ _ _)

theorem kernelTick_contexts (hcb : KeepsContexts callback) (hkernel : frame.cs &&& 3 ≠ 3)
    (htick : s.schedOnTick callback fuel frame now now' = .ok (s', frame')) :
    SameContexts s s' ∧ frame' = frame := by
  obtain ⟨-, rfl, rfl⟩ | ⟨s1, hrun, ⟨-, harm, rfl⟩ | ⟨huser, -⟩⟩ := schedOnTick_cases htick
  · exact ⟨.refl _, rfl⟩
  · exact ⟨(timerqRunExpired_contexts hcb hrun).trans (schedArmTimer_rearmed harm).contexts, rfl⟩
  · exact absurd huser hkernel

inductive Run (callback : U64 → U64 → Kernel T E → Kernel T E) (s : Kernel T E) :
    (T → IsrFrame) → Kernel T E → Prop
  | start : Run callback s (fun t => (s.thread t).frame) s
  | add {last : T → IsrFrame} {s1 s2 : Kernel T E} {t : T} {now : U64} : Run callback s last s1 →
      s1.schedAdd t now = .ok s2 → Run callback s last s2
  | tick {last : T → IsrFrame} {s1 s2 : Kernel T E} {fuel : ℕ} {frame frame' : IsrFrame}
      {now now' : U64} : Run callback s last s1 →
      s1.schedOnTick callback fuel frame now now' = .ok (s2, frame') →
      Run callback s (switchOut s1 s2 frame last) s2

theorem Run.saved {s0 : Kernel T E} (h : Run callback s0 last s) (hcb : KeepsContexts callback)
    (hs : Saved (fun t => (s0.thread t).frame) s0) : Saved last s := by
  induction h with
  | start => exact hs
  | @add last s1 s2 t now _ hadd ih =>
    obtain ⟨current, hcurrent, -⟩ := ih.stack
    exact ih.same (schedAdd_contexts (by simp [hcurrent]) hadd)
  | tick _ htick ih => exact (ih.tick hcb htick).1

theorem Run.kstackTop {s0 : Kernel T E} (h : Run callback s0 last s) (hcb : KeepsContexts callback)
    (hs : Saved (fun t => (s0.thread t).frame) s0) (t : T) :
    (s.thread t).kstackTop = (s0.thread t).kstackTop := by
  induction h with
  | start => rfl
  | @add last s1 s2 t' now hrun hadd ih =>
    obtain ⟨current, hcurrent, -⟩ := (hrun.saved hcb hs).stack
    exact ((schedAdd_contexts (by simp [hcurrent]) hadd).kstackTop t).trans ih
  | tick _ htick ih => exact (tick_kstackTop hcb htick t).trans ih

/-- Whatever ticks follow on the set-up, with all threads prepared by `thread_init_user`: a thread
that is not current keeps the frame it was last switched out with, or its first one, and every
tick is clean. -/
theorem context_switches (callback : U64 → U64 → Kernel T E → Kernel T E)
    (hcb : KeepsContexts callback) (s0 : Kernel T E) (users : List (UserThread T))
    (hall : ∀ t, t ∈ users.map UserThread.thread) (bootstrap : T) (last : T → IsrFrame)
    (s : Kernel T E) (hrun : Run callback (s0.boot users bootstrap) last s) :
    (∀ t, s.gCurrent ≠ some t → (s.thread t).frame = last t) ∧
    ∀ fuel frame now now' s' frame',
      s.schedOnTick callback fuel frame now now' = .ok (s', frame') →
      CleanTick last s s' frame frame' := by
  have hsaved := hrun.saved hcb (boot_saved s0 users bootstrap hall)
  exact ⟨hsaved.frame, fun _ _ _ _ _ _ htick => (hsaved.tick hcb htick).2⟩

def threeUsers : List (UserThread (Fin 3)) :=
  [⟨0, 0x400000, 0x701000, 0x12000⟩, ⟨1, 0x500000, 0x801000, 0x14000⟩, ⟨2, 0x600000, 0x901000, 0x16000⟩]

def usersBooted : Kernel (Fin 3) (Fin 1) := threeThreads.boot threeUsers 0

def usersQueued : Kernel (Fin 3) (Fin 1) := returned usersBooted (usersBooted.schedAdd 1 100)

def usersTick : Except Fault (Kernel (Fin 3) (Fin 1) × IsrFrame) :=
  usersQueued.schedOnTick (fun _ _ s => s) 2 (usersBooted.thread 0).frame 1100 1200

def usersTicked : Kernel (Fin 3) (Fin 1) × IsrFrame :=
  returned (usersQueued, (usersBooted.thread 0).frame) usersTick

theorem context_switches_usersTicked : usersTick = .ok usersTicked ∧
    usersQueued.gCurrent = some 0 ∧ usersTicked.1.gCurrent = some 1 ∧
    CleanTick (fun t => (usersBooted.thread t).frame) usersQueued usersTicked.1
      (usersBooted.thread 0).frame usersTicked.2 := by
  have hcb : KeepsContexts (fun _ _ s => s : U64 → U64 → Kernel (Fin 3) (Fin 1) → _) :=
    fun _ _ s => .refl s
  have hall : ∀ t, t ∈ threeUsers.map UserThread.thread := by decide
  have hadd : usersBooted.schedAdd 1 100 = .ok usersQueued := ok_returned (by decide +kernel)
  have htick : usersTick = .ok usersTicked := ok_returned (by decide +kernel)
  have hrun : Run (fun _ _ s => s) usersBooted (fun t => (usersBooted.thread t).frame) usersQueued :=
    Run.start.add hadd
  obtain ⟨-, hclean⟩ := context_switches _ hcb threeThreads threeUsers hall 0 _ _ hrun
  exact ⟨htick, by decide +kernel, by decide +kernel, hclean 2 _ 1100 1200 _ _ htick⟩

end Kernel

end Mcincos
