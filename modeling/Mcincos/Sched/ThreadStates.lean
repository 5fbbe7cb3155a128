import Mcincos.Sched.RoundRobin

namespace Mcincos

open CircularList

namespace Kernel

variable {T E : Type} {s s' s1 : Kernel T E} {current next t : T} {others : List T}

/-- Between `s` and `s'` only the thread given up has changed, from running to ready, and the thread
taken, from ready to running. -/
def SwapsOnly (s s' : Kernel T E) : Prop :=
  ∀ t, (s'.thread t).state = (s.thread t).state ∨
    (s.gCurrent = some t ∧ (s.thread t).state = .running ∧ (s'.thread t).state = .ready) ∨
    (s'.gCurrent = some t ∧ (s.thread t).state = .ready ∧ (s'.thread t).state = .running)

def Resting (s : Kernel T E) (t : T) : Prop :=
  (s.thread t).state = .blocked ∨ (s.thread t).state = .zombie

theorem not_resting_iff : ¬s.Resting t ↔ (s.thread t).state = .ready ∨ (s.thread t).state = .running := by
  rw [Resting]
  cases (s.thread t).state <;> simp

theorem SwapsOnly.resting (h : SwapsOnly s s') (hrest : s.Resting t) :
    (s'.thread t).state = (s.thread t).state := by
  obtain hsame | ⟨-, hrunning, -⟩ | ⟨-, hready, -⟩ := h t
  · exact hsame
  · exact absurd hrest (not_resting_iff.mpr (.inr hrunning))
  · exact absurd hrest (not_resting_iff.mpr (.inl hready))

theorem swapsOnly_of_states (h : ∀ t, (s'.thread t).state = (s.thread t).state) : SwapsOnly s s' :=
  fun t => .inl (h t)

variable [DecidableEq T]

theorem switchTo_swapsOnly_iff (hcurrent : s.gCurrent = some current) (hne : next ≠ current)
    (hready : (s.thread next).state = .ready) :
    SwapsOnly s (s.switchTo current next) ↔ ¬s.Resting current := by
  constructor
  · intro h hrest
    have hsame := h.resting hrest
    rw [switchTo_state, if_neg hne.symm, if_pos rfl] at hsame
    exact not_resting_iff.mpr (.inl hsame.symm) hrest
  · intro hrunnable t
    rw [switchTo_state, switchTo_current]
    split_ifs with hnext hgiven
    · subst hnext
      exact .inr (.inr ⟨rfl, hready, rfl⟩)
    · subst hgiven
      obtain hstate | hstate := not_resting_iff.mp hrunnable
      · exact .inl hstate.symm
      · exact .inr (.inl ⟨hcurrent, hstate, rfl⟩)
    · exact .inl rfl

variable [Fintype T] [DecidableEq E] {callback : U64 → U64 → Kernel T E → Kernel T E} {k : Tick}
  {frame frame' : IsrFrame}

omit [DecidableEq E] in
theorem pickNext_ready (hcurrent : s.gCurrent = some current) (h : s.pickNext = .ok next)
    (hne : next ≠ current) : (s.thread next).state = .ready := by
  obtain ⟨t, -, hnext⟩ := pickNext_cases hcurrent h
  by_cases hready : (s.thread t).state = .ready
  · rw [if_pos hready] at hnext
    rwa [hnext]
  · rw [if_neg hready] at hnext
    exact absurd hnext hne

omit [DecidableEq E] in
theorem reschedule_swapsOnly_iff (hring : s.OnRing current others)
    (hres : s.reschedule frame = .ok (s', frame')) :
    SwapsOnly s s' ↔ ¬(s.Resting current ∧ s.Waiting) := by
  obtain ⟨c, next, hc, hnext, hcases⟩ := reschedule_cases hres
  obtain rfl := Option.some.inj (hc.symm.trans hring.current_eq)
  have hsaved := hring.setFrame c frame
  have hwaiting := hsaved.pickNext_iff hnext
  rw [hring.waiting_setFrame, setFrame_current, hc] at hwaiting
  obtain ⟨rfl, rfl, -⟩ | ⟨hne, rfl, -⟩ := hcases
  · apply iff_of_true
    · exact swapsOnly_of_states fun t => setFrame_state s next t frame
    · exact fun h => hwaiting.mpr h.2 rfl
  · have hready := pickNext_ready hsaved.current_eq hnext hne
    rw [and_iff_left (hwaiting.mp fun heq => hne (Option.some.inj heq).symm)]
    have hswap := switchTo_swapsOnly_iff hsaved.current_eq hne hready
    simp only [SwapsOnly, Resting, setFrame_state, setFrame_current] at hswap ⊢
    exact hswap

omit [DecidableEq E] in
theorem OnRing.arm_ok (hring : s.OnRing current others) (now : U64) :
    ∃ s', s.schedArmTimer now = .ok s' := by
  obtain ⟨next, -, hnext⟩ := hring.pickNext_mem
  exact schedArmTimer_ok now hnext

theorem OnRing.tick_ok (hring : s1.OnRing current others) (hcurrent : s.gCurrent ≠ none)
    (h1 : s.timerqRunExpired callback k.now k.fuel = .ok s1) :
    ∃ s' frame', s.tick callback k = .ok (s', frame') := by
  obtain ⟨s2, frame', hres⟩ := hring.reschedule_ok k.frame
  obtain ⟨⟨current', others', hring'⟩, -⟩ := reschedule_pickNext hring hres
  have hended : OnRing { s2 with gSliceEndNs := 0 } current' others' := ⟨hring'.current_eq, hring'.ring⟩
  obtain ⟨s3, harm3⟩ := hended.arm_ok k.now'
  obtain ⟨s4, harm4⟩ := hring.arm_ok k.now'
  unfold Kernel.tick schedOnTick
  rw [if_neg hcurrent, bind_ok h1, bind_ok hres, bind_ok harm4]
  dsimp only
  rw [bind_ok harm3]
  split_ifs
  all_goals exact ⟨_, _, rfl⟩

/-- A tick revives a thread just if it preempts one that is no longer runnable. -/
theorem tick_states (hring : s1.OnRing current others) (hcurrent : s.gCurrent ≠ none)
    (h1 : s.timerqRunExpired callback k.now k.fuel = .ok s1) :
    ∃ s' frame', s.tick callback k = .ok (s', frame') ∧
      (SwapsOnly s1 s' ↔ ¬(s1.Preempts k ∧ s1.Resting current ∧ s1.Waiting)) := by
  obtain ⟨s', frame', htick⟩ := hring.tick_ok hcurrent h1
  refine ⟨s', frame', htick, ?_⟩
  obtain ⟨hnone, -⟩ | ⟨s1', h1', hbranch⟩ := tick_branches htick
  · exact absurd hnone hcurrent
  obtain rfl := Except.ok.inj (h1.symm.trans h1')
  obtain ⟨hkept, harm⟩ | ⟨hpre, s2, hres, harm⟩ := hbranch
  · apply iff_of_true
    · apply swapsOnly_of_states
      intro t
      rw [(schedArmTimer_rearmed harm).thread_eq]
    · exact fun hrevives => hkept hrevives.1
  · rw [and_iff_right hpre, ← reschedule_swapsOnly_iff hring hres]
    have hrearmed := schedArmTimer_rearmed harm
    rw [SwapsOnly, hrearmed.current_eq, hrearmed.thread_eq]
    rfl

def blockedCurrent : Kernel (Fin 3) (Fin 1) := twoQueued.setState 0 .blocked

def served (s : Kernel (Fin 3) (Fin 1)) (k : Tick) : Kernel (Fin 3) (Fin 1) :=
  returned s (s.timerqRunExpired (fun _ _ s => s) k.now k.fuel)

theorem blockedCurrent_served :
    blockedCurrent.timerqRunExpired (fun _ _ s => s) userTick.now userTick.fuel =
      .ok (blockedCurrent.served userTick) := by
  apply ok_returned
  decide +kernel

theorem blockedCurrent_onRing : (blockedCurrent.served userTick).OnRing 0 [1] := by
  refine ⟨by decide +kernel, IsRing.of_links (by decide) ?_⟩
  decide +kernel

theorem tick_states_blockedCurrent : ∃ s' frame',
    blockedCurrent.tick (fun _ _ s => s) userTick = .ok (s', frame') ∧
      (SwapsOnly (blockedCurrent.served userTick) s' ↔
        ¬((blockedCurrent.served userTick).Preempts userTick ∧
          (blockedCurrent.served userTick).Resting 0 ∧ (blockedCurrent.served userTick).Waiting)) :=
  tick_states blockedCurrent_onRing (by decide +kernel) blockedCurrent_served

theorem blocked_revived :
    (blockedCurrent.served userTick).OnRing 0 [1] ∧
    ((blockedCurrent.served userTick).thread 0).state = .blocked ∧
    (blockedCurrent.tick (fun _ _ s => s) userTick).isOk ∧
    ((blockedCurrent.afterTick userTick).thread 0).state = .ready ∧
    ¬SwapsOnly (blockedCurrent.served userTick) (blockedCurrent.afterTick userTick) := by
  have hblocked : ((blockedCurrent.served userTick).thread 0).state = .blocked := by decide +kernel
  have hready : ((blockedCurrent.afterTick userTick).thread 0).state = .ready := by decide +kernel
  refine ⟨blockedCurrent_onRing, hblocked, by decide +kernel, hready, ?_⟩
  intro hswaps
  have hkept := hswaps.resting (t := 0) (.inl hblocked)
  rw [hready, hblocked] at hkept
  exact absurd hkept (by decide)

end Kernel

end Mcincos
