import Mcincos.Sched.Arming

namespace Mcincos

namespace Kernel

/-- `null` is `sched_init` or `sched_add` with a null thread. -/
inductive SchedCall (T : Type)
  | null
  | init (t : T)
  | entry (c : Entry T)

def RegistersFirst {T : Type} : List (U64 × SchedCall T) → Prop
  | [] => True
  | (_, .null) :: _ => True
  | (_, .init _) :: _ => True
  | (_, .entry (.add _)) :: _ => True
  | (_, .entry (.setQuantumNs ns)) :: cs => ns.setWidth 32 = 0#32 ∧ RegistersFirst cs
  | (_, .entry .start) :: cs => RegistersFirst cs
  | (_, .entry (.onTick _ _ _)) :: cs => RegistersFirst cs

variable {T E : Type} [DecidableEq T] [DecidableEq E] [Fintype T]
  {callback : U64 → U64 → Kernel T E → Kernel T E} {s s' a : Kernel T E} {c : SchedCall T} {now' : U64}
  {cs : List (U64 × SchedCall T)}

def call (callback : U64 → U64 → Kernel T E → Kernel T E) (s : Kernel T E) (now' : U64) :
    SchedCall T → Except Fault (Kernel T E)
  | .null => .error .nullThread
  | .init t => .ok (s.schedInit t)
  | .entry c => s.enter callback now' c

inductive Picks (callback : U64 → U64 → Kernel T E → Kernel T E) (s : Kernel T E) :
    SchedCall T → Kernel T E → Prop
  | arm {c : Entry T} {a : Kernel T E} : Arms callback s c a → a.gQuantumNs ≠ 0 →
      Picks callback s (.entry c) a
  | sliceEnd {fuel : ℕ} {frame : IsrFrame} {now : U64} {a : Kernel T E} : s.gCurrent ≠ none →
      s.timerqRunExpired callback now fuel = .ok a → frame.cs &&& 3 = 3 →
      ¬(a.gSliceEndNs = 0 ∨ now < a.gSliceEndNs) → Picks callback s (.entry (.onTick fuel frame now)) a

def NeverMissing (callback : U64 → U64 → Kernel T E → Kernel T E) :
    Kernel T E → List (U64 × SchedCall T) → Prop
  | _, [] => True
  | s, (now', c) :: cs => (∀ a, Picks callback s c a → a.gCurrent ≠ none) ∧
      ∀ s', s.call callback now' c = .ok s' → NeverMissing callback s' cs

def KeepsThread (callback : U64 → U64 → Kernel T E → Kernel T E) : Prop :=
  ∀ cb arg s, s.gCurrent ≠ none → (callback cb arg s).gCurrent ≠ none

omit [DecidableEq E] in
theorem schedArmTimer_noQuantum (hq : s.gQuantumNs = 0) (now : U64) :
    ∃ s', s.schedArmTimer now = .ok s' := by
  have hdeadline : s.schedNextDeadline now = .ok ({ s with gSliceEndNs := 0 }, s.timerqNextDeadline) := by
    rw [schedNextDeadline, if_pos hq]
    rfl
  rw [schedArmTimer, bind_ok hdeadline]
  dsimp only
  split_ifs
  all_goals exact ⟨_, rfl⟩

omit [DecidableEq E] in
theorem schedArmTimer_error {e : Fault} {now : U64} (hq : s.gQuantumNs ≠ 0) (h : s.pickNext = .error e) :
    s.schedArmTimer now = .error e := by
  rw [schedArmTimer, if_neg fun hstop => hq hstop.1, schedNextDeadline]
  dsimp only
  rw [if_neg hq, h]
  rfl

theorem Arms.enter_eq {c : Entry T} (harms : Arms callback s c a) :
    s.enter callback now' c = a.schedArmTimer now' := by
  cases harms with
  | add hcurrent => rw [enter, schedAdd, hcurrent]; rfl
  | start => rfl
  | setQuantumNs hns => rw [enter, schedSetQuantumNs, if_neg hns]
  | @onTick fuel frame now _ hsome h1 hkeep =>
    rw [enter, schedOnTick, if_neg hsome, bind_ok h1]
    by_cases hkernel : frame.cs &&& 3 ≠ 3
    · rw [if_pos hkernel]
      cases a.schedArmTimer now' <;> rfl
    · rw [if_neg hkernel, if_pos (hkeep.resolve_left hkernel)]
      cases a.schedArmTimer now' <;> rfl
  | @onSliceEnd fuel frame frame' now s1 s2 hsome h1 huser hover hres =>
    rw [enter, schedOnTick, if_neg hsome, bind_ok h1, if_neg (not_not.mpr huser), if_neg hover,
      bind_ok hres]
    dsimp only
    cases Kernel.schedArmTimer { s2 with gSliceEndNs := 0 } now' <;> rfl

theorem Picks.faults (hpicks : Picks callback s c a) (hmissing : a.gCurrent = none) :
    s.call callback now' c = .error .nullThread := by
  cases hpicks with
  | arm harms hq =>
    rw [call, harms.enter_eq]
    apply schedArmTimer_error hq
    rw [pickNext, hmissing]
  | sliceEnd hsome h1 huser hover =>
    rw [call, enter, schedOnTick, if_neg hsome, bind_ok h1, if_neg (not_not.mpr huser), if_neg hover,
      reschedule, hmissing]
    rfl

omit [DecidableEq T] [Fintype T] in
theorem timerqRunExpired_thread {fuel : ℕ} {now : U64} (hcb : KeepsThread callback)
    (h : s.timerqRunExpired callback now fuel = .ok s') (hs : s.gCurrent ≠ none) :
    s'.gCurrent ≠ none := by
  apply timerqRunExpired_induction (P := fun s => s.gCurrent ≠ none) _ hcb h hs
  exact fun _ _ _ hs => hs

theorem Arms.thread {c : Entry T} (harms : Arms callback s c a) (hcb : KeepsThread callback)
    (hs : s.gCurrent ≠ none) : a.gCurrent ≠ none := by
  cases harms with
  | add _ => exact hs
  | start => exact hs
  | setQuantumNs _ => exact hs
  | onTick _ h1 _ => exact timerqRunExpired_thread hcb h1 hs
  | onSliceEnd _ _ _ _ hres =>
    obtain ⟨current, next, hcurrent, -, ⟨-, rfl, -⟩ | ⟨-, rfl, -⟩⟩ := reschedule_cases hres
    · simp [hcurrent]
    · simp

theorem Picks.thread (hpicks : Picks callback s c a) (hcb : KeepsThread callback)
    (hs : s.gCurrent ≠ none) : a.gCurrent ≠ none := by
  cases hpicks with
  | arm harms _ => exact harms.thread hcb hs
  | sliceEnd _ h1 _ _ => exact timerqRunExpired_thread hcb h1 hs

theorem call_thread (hcb : KeepsThread callback) (hs : s.gCurrent ≠ none)
    (h : s.call callback now' c = .ok s') : s'.gCurrent ≠ none := by
  cases c with
  | null => exact absurd h (by simp [call])
  | init t =>
    obtain rfl := Except.ok.inj h
    simp [schedInit]
  | entry c =>
    obtain hidle | ⟨a, harms, harm⟩ := enter_cases h
    · cases c with
      | add t => exact absurd hidle.1 hs
      | start => exact hidle.elim
      | setQuantumNs ns =>
        rw [hidle.2]
        exact hs
      | onTick fuel frame now => exact absurd hidle.1 hs
    · rw [(schedArmTimer_rearmed harm).current_eq]
      exact harms.thread hcb hs

theorem neverMissing_of_thread (hcb : KeepsThread callback) (hs : s.gCurrent ≠ none)
    (cs : List (U64 × SchedCall T)) : NeverMissing callback s cs := by
  induction cs generalizing s with
  | nil => trivial
  | cons c cs ih =>
    constructor
    · exact fun a hpicks => hpicks.thread hcb hs
    · exact fun s' h => ih (call_thread hcb hs h)

structure Unregistered (s : Kernel T E) : Prop where
  current_eq : s.gCurrent = none
  quantumNs : s.gQuantumNs = 0

omit [DecidableEq E] in
theorem Unregistered.arm (hs : s.Unregistered) (now : U64) :
    ∃ s', s.schedArmTimer now = .ok s' ∧ s'.Unregistered := by
  obtain ⟨s', harm⟩ := schedArmTimer_noQuantum hs.quantumNs now
  have hrearmed := schedArmTimer_rearmed harm
  refine ⟨s', harm, ?_, ?_⟩
  · exact hrearmed.current_eq.trans hs.current_eq
  · exact hrearmed.quantumNs_eq.trans hs.quantumNs

omit [DecidableEq E] in
theorem Unregistered.setQuantum (hs : s.Unregistered) {ns : U64} (hns : ns.setWidth 32 = 0#32) (now : U64) :
    ∃ s', s.schedSetQuantumNs ns now = .ok s' ∧ s'.Unregistered := by
  have hset : Unregistered { s with gQuantumNs := ns.setWidth 32 } := ⟨hs.current_eq, hns⟩
  rw [schedSetQuantumNs]
  split_ifs
  · exact ⟨_, rfl, hset.current_eq, hset.quantumNs⟩
  · exact hset.arm now

theorem Unregistered.picks (hs : s.Unregistered) (hpicks : Picks callback s c a) :
    ∃ ns, c = .entry (.setQuantumNs ns) ∧ ns.setWidth 32 ≠ 0#32 := by
  cases hpicks with
  | arm harms hq =>
    cases harms with
    | add hcurrent => exact absurd (hs.current_eq.symm.trans hcurrent) (by simp)
    | start => exact absurd hs.quantumNs hq
    | setQuantumNs _ => exact ⟨_, rfl, hq⟩
    | onTick hsome _ _ => exact absurd hs.current_eq hsome
    | onSliceEnd hsome _ _ _ _ => exact absurd hs.current_eq hsome
  | sliceEnd hsome _ _ _ => exact absurd hs.current_eq hsome

theorem Unregistered.not_neverMissing (hs : s.Unregistered) {ns : U64} (hns : ns.setWidth 32 ≠ 0#32) :
    ¬NeverMissing callback s ((now', .entry (.setQuantumNs ns)) :: cs) := by
  have hnonzero : ns ≠ 0 := by
    rintro rfl
    exact hns rfl
  rintro ⟨hnull, -⟩
  exact hnull _ (.arm (.setQuantumNs hnonzero) hns) hs.current_eq

theorem neverMissing_cons (hpicks : ∀ a, ¬Picks callback s c a)
    (hcall : ∃ s', s.call callback now' c = .ok s' ∧ s'.Unregistered)
    (ih : ∀ s', s'.Unregistered → (NeverMissing callback s' cs ↔ RegistersFirst cs)) :
    NeverMissing callback s ((now', c) :: cs) ↔ RegistersFirst cs := by
  obtain ⟨s', hok, hs'⟩ := hcall
  rw [← ih s' hs', NeverMissing, and_iff_right fun a ha => absurd ha (hpicks a)]
  constructor
  · exact fun h => h s' hok
  · intro h s'' hok'
    obtain rfl := Except.ok.inj (hok.symm.trans hok')
    exact h

theorem neverMissing_registers (hcb : KeepsThread callback) (hpicks : ∀ a, ¬Picks callback s c a)
    (hcall : ∀ s', s.call callback now' c = .ok s' → s'.gCurrent ≠ none) :
    NeverMissing callback s ((now', c) :: cs) := by
  constructor
  · exact fun a ha => absurd ha (hpicks a)
  · exact fun s' h => neverMissing_of_thread hcb (hcall s' h) cs

/-- From the start of the kernel the calls of `pick_next` have a thread to start from just if the first
thread is registered before a quantum is set. -/
theorem never_missing (hcb : KeepsThread callback) (hs : s.Unregistered)
    (cs : List (U64 × SchedCall T)) : NeverMissing callback s cs ↔ RegistersFirst cs := by
  induction cs generalizing s with
  | nil => exact Iff.rfl
  | cons call cs ih =>
    obtain ⟨now', c⟩ := call
    have hpicks : (∀ ns, c = .entry (.setQuantumNs ns) → ns.setWidth 32 = 0#32) → ∀ a, ¬Picks callback s c a := by
      intro hc a ha
      obtain ⟨ns, heq, hns⟩ := hs.picks ha
      exact hns (hc ns heq)
    cases c with
    | null =>
      apply iff_of_true _ trivial
      apply neverMissing_registers hcb (hpicks fun ns h => by cases h)
      exact fun s' h => by cases h
    | init t =>
      apply iff_of_true _ trivial
      apply neverMissing_registers hcb (hpicks fun ns h => by cases h)
      intro s' h
      obtain rfl := Except.ok.inj h
      simp [schedInit]
    | entry c =>
      cases c with
      | add t =>
        apply iff_of_true _ trivial
        apply neverMissing_registers hcb (hpicks fun ns h => by cases h)
        intro s' h
        rw [call, enter, schedAdd, hs.current_eq] at h
        obtain rfl := Except.ok.inj h
        simp [schedInit]
      | start =>
        apply neverMissing_cons (hpicks fun ns h => by cases h) _ fun s' => ih
        exact hs.arm now'
      | setQuantumNs ns =>
        by_cases hns : ns.setWidth 32 = 0#32
        · rw [RegistersFirst, and_iff_right hns]
          apply neverMissing_cons (hpicks _) (hs.setQuantum hns now') fun s' => ih
          rintro _ ⟨⟩
          exact hns
        · rw [RegistersFirst]
          exact iff_of_false (hs.not_neverMissing hns) fun h => hns h.1
      | onTick fuel frame now =>
        have hstays : s.call callback now' (.entry (.onTick fuel frame now)) = .ok s := by
          rw [call, enter, schedOnTick, if_pos hs.current_eq]
          rfl
        apply neverMissing_cons (hpicks fun ns h => by cases h) _ fun s' => ih
        exact ⟨s, hstays, hs⟩

def bootKernel : Kernel (Fin 3) (Fin 1) where
  thread _ := userThread 0 0 0
  event _ := ⟨0, 0, 0, none⟩
  gHead := none
  gCurrent := none
  gQuantumNs := 0
  gSliceEndNs := 0
  kernelRsp := 0
  rsp0 := 0
  timer := .stop

theorem bootKernel_unregistered : bootKernel.Unregistered := ⟨rfl, rfl⟩

theorem never_missing_bootKernel :
    NeverMissing (fun _ _ s => s) bootKernel [(0, .init 0), (0, .entry (.setQuantumNs 1000))] :=
  (never_missing (fun _ _ _ hs => hs) bootKernel_unregistered _).mpr trivial

theorem quantum_first_missing :
    bootKernel.Unregistered ∧ bootKernel.call (fun _ _ s => s) 0 (.entry (.setQuantumNs 1000)) =
      .error .nullThread ∧
    ¬NeverMissing (fun _ _ s => s) bootKernel [(0, .entry (.setQuantumNs 1000))] := by
  have hpicks : Picks (fun _ _ s => s) bootKernel (.entry (.setQuantumNs 1000))
      { bootKernel with gQuantumNs := 1000 } := .arm (.setQuantumNs (by decide)) (by decide)
  refine ⟨bootKernel_unregistered, hpicks.faults rfl, ?_⟩
  rintro ⟨hnull, -⟩
  exact hnull _ hpicks rfl

end Kernel

end Mcincos
