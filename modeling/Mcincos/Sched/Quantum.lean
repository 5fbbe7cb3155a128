import Mcincos.Sched.Slices

namespace Mcincos

open Relation

namespace Kernel

variable {T E : Type} [DecidableEq T] [Fintype T] [DecidableEq E]
  {callback : U64 → U64 → Kernel T E → Kernel T E} {s s' a : Kernel T E} {c : Entry T} {now' : U64}

def Calls (allowed : Entry T → Prop) (callback : U64 → U64 → Kernel T E → Kernel T E) :
    Kernel T E → Kernel T E → Prop :=
  ReflTransGen fun s s' => ∃ c now', allowed c ∧ s.enter callback now' c = .ok s'

def KeepsQuantum (callback : U64 → U64 → Kernel T E → Kernel T E) : Prop :=
  ∀ cb arg s, (callback cb arg s).gQuantumNs = s.gQuantumNs

def NoQuantum (c : Entry T) : Prop := ∀ ns, c ≠ .setQuantumNs ns

omit [DecidableEq T] [Fintype T] in
theorem timerqRunExpired_quantum {fuel : ℕ} {now : U64} (hcb : KeepsQuantum callback)
    (h : s.timerqRunExpired callback now fuel = .ok s') : s'.gQuantumNs = s.gQuantumNs := by
  apply timerqRunExpired_induction (P := fun s' => s'.gQuantumNs = s.gQuantumNs) _ _ h rfl
  · exact fun _ _ _ hs => hs
  · exact fun cb arg s1 hs => (hcb cb arg s1).trans hs

theorem Arms.quantum (harms : Arms callback s c a) (hcb : KeepsQuantum callback) (hc : NoQuantum c) :
    a.gQuantumNs = s.gQuantumNs := by
  cases harms with
  | add _ => rfl
  | start => rfl
  | @setQuantumNs ns _ => exact absurd rfl (hc ns)
  | onTick _ h1 _ => exact timerqRunExpired_quantum hcb h1
  | onSliceEnd _ h1 _ _ hres =>
    have hkept := reschedule_keeps gQuantumNs (fun _ _ _ => rfl) (fun _ _ _ => rfl) hres
    exact hkept.trans (timerqRunExpired_quantum hcb h1)

theorem enter_quantum (hcb : KeepsQuantum callback) (hc : NoQuantum c)
    (h : s.enter callback now' c = .ok s') : s'.gQuantumNs = s.gQuantumNs := by
  obtain hidle | ⟨a, harms, harm⟩ := enter_cases h
  · cases c with
    | add t => rw [hidle.2]; rfl
    | start => exact hidle.elim
    | setQuantumNs ns => exact absurd rfl (hc ns)
    | onTick fuel frame now => rw [hidle.2]
  · exact (schedArmTimer_rearmed harm).quantumNs_eq.trans (harms.quantum hcb hc)

theorem Calls.quantum (hcb : KeepsQuantum callback) (h : Calls NoQuantum callback s s') :
    s'.gQuantumNs = s.gQuantumNs := by
  induction h with
  | refl => rfl
  | tail _ hstep ih =>
    obtain ⟨c, now', hc, henter⟩ := hstep
    exact (enter_quantum hcb hc henter).trans ih

def Preempting (s : Kernel T E) (now : U64) : Prop :=
  s.gSliceEndNs ≠ 0 ∧ ∃ ns, s.timer = .oneshot ns ∧ now.toNat + ns.toNat ≤ s.gSliceEndNs.toNat

def StartsSlice (s : Kernel T E) (now : U64) : Prop :=
  s.gQuantumNs ≠ 0 ∧ s.Contended ∧ s.SliceOver now

structure UsesQuantum (callback : U64 → U64 → Kernel T E → Kernel T E) (ns now : U64)
    (s s' : Kernel T E) : Prop where
  preempting : s'.Preempting now
  first : StartsSlice { s with gQuantumNs := ns.setWidth 32 } now → s'.gSliceEndNs = now + ns
  later : ∀ s1 c a t s2, Calls NoQuantum callback s' s1 → NoQuantum c → Arms callback s1 c a →
    a.schedArmTimer t = .ok s2 → a.StartsSlice t → s2.gSliceEndNs = t + ns

omit [DecidableEq E] in
theorem StartsSlice.sliceEnd (hstarts : s.StartsSlice now') (h : s.schedArmTimer now' = .ok s') :
    s'.gSliceEndNs = now' + s.gQuantumNs.setWidth 64 := by
  obtain ⟨hq, hcontended, hover⟩ := hstarts
  rw [SliceOver] at hover
  rw [(schedArmTimer_contended hq hcontended h).1, renewSlice, if_pos hover]

omit [DecidableEq E] in
theorem schedArmTimer_preempting {now : U64} (hq : s.gQuantumNs ≠ 0) (hcontended : s.Contended)
    (hnow : now.toNat + s.gQuantumNs.toNat < 2 ^ 64) (h : s.schedArmTimer now = .ok s') :
    s'.Preempting now := by
  obtain ⟨hslice, htimer⟩ := schedArmTimer_contended hq hcontended h
  obtain ⟨hend, hlater⟩ := toNat_renewSlice hq hnow
  rw [← hend] at hlater
  rw [Preempting, hslice]
  generalize (s.renewSlice now).gSliceEndNs = e at hlater htimer
  have he : e ≠ 0 := by
    rintro rfl
    exact absurd hlater (Nat.not_lt_zero _)
  have hfirst : (if s.timerqNextDeadline = 0 ∨ e < s.timerqNextDeadline then e
      else s.timerqNextDeadline) ≠ 0 ∧
      (if s.timerqNextDeadline = 0 ∨ e < s.timerqNextDeadline then e else s.timerqNextDeadline) ≤ e := by
    split_ifs with hearlier
    · exact ⟨he, BitVec.le_refl e⟩
    · obtain ⟨hzero, hle⟩ := not_or.mp hearlier
      exact ⟨hzero, BitVec.not_lt.mp hle⟩
  rw [timerFor, if_neg hfirst.1] at htimer
  refine ⟨he, _, htimer, ?_⟩
  apply (oneshot_expiry hfirst.2).trans
  omega

omit [DecidableEq E] in
theorem schedArmTimer_not_preempting {now : U64} (hq : s.gQuantumNs = 0)
    (h : s.schedArmTimer now = .ok s') : ¬s'.Preempting now := by
  obtain ⟨htimer, hslice⟩ := schedArmTimer_idle (fun hne => absurd hq hne) h
  rintro ⟨hnonzero, ns, hns, -⟩
  obtain hzero | ⟨-, hzero, -⟩ := hslice
  · exact hnonzero hzero
  · rw [timerFor, if_pos hzero] at htimer
    exact absurd (htimer.symm.trans hns) (by simp)

theorem UsesQuantum.width {ns now : U64} (h : UsesQuantum callback ns now s s')
    (hq : s'.gQuantumNs ≠ 0) (hcontended : s'.Contended) : s'.gQuantumNs.setWidth 64 = ns := by
  -- at the last reading of the clock every slice is over
  have hstarts : s'.StartsSlice (BitVec.allOnes 64) := by
    refine ⟨hq, hcontended, .inr ?_⟩
    rw [BitVec.le_def, BitVec.toNat_allOnes]
    exact Nat.le_sub_one_of_lt (BitVec.isLt _)
  obtain ⟨next, hnext, -⟩ := hcontended
  obtain ⟨s2, harm⟩ := schedArmTimer_ok (BitVec.allOnes 64) hnext
  have hend := h.later s' .start s' _ s2 .refl (fun _ => by simp) .start harm hstarts
  rw [hstarts.sliceEnd harm] at hend
  exact add_left_cancel hend

theorem setWidth_eq_iff (ns : U64) : (ns.setWidth 32).setWidth 64 = ns ↔ ns.toNat < 2 ^ 32 := by
  rw [← BitVec.toNat_inj, BitVec.toNat_setWidth, BitVec.toNat_setWidth]
  have := ns.isLt
  omega

/-- The quantum is kept in 32 bits. -/
theorem quantum_used (hcb : KeepsQuantum callback) {current : T} {others : List T}
    (hring : s.OnRing current others) (hwaiting : s.Waiting) {ns now : U64} (hns : ns ≠ 0)
    (hnow : now.toNat + ns.toNat < 2 ^ 64) :
    ∃ s', s.schedSetQuantumNs ns now = .ok s' ∧
      (UsesQuantum callback ns now s s' ↔ ns.toNat < 2 ^ 32) := by
  have hset : OnRing { s with gQuantumNs := ns.setWidth 32 } current others :=
    ⟨hring.current_eq, hring.ring⟩
  have hcontended : Contended { s with gQuantumNs := ns.setWidth 32 } := hset.contended_iff.mpr hwaiting
  obtain ⟨next, -, hnext⟩ := hset.pickNext_mem
  obtain ⟨s', harm⟩ := schedArmTimer_ok now hnext
  refine ⟨s', ?_, ?_⟩
  · rw [schedSetQuantumNs, if_neg hns]
    exact harm
  have hrearmed := schedArmTimer_rearmed harm
  have hquantum : s'.gQuantumNs = ns.setWidth 32 := hrearmed.quantumNs_eq
  constructor
  · intro huses
    have hq : s'.gQuantumNs ≠ 0 := by
      rw [hquantum]
      exact fun hzero => schedArmTimer_not_preempting hzero harm huses.preempting
    have hwidth := huses.width hq (hrearmed.contended_iff.mpr hcontended)
    rw [hquantum] at hwidth
    exact (setWidth_eq_iff ns).mp hwidth
  · intro hlt
    have hwidth := (setWidth_eq_iff ns).mpr hlt
    have hq : ns.setWidth 32 ≠ 0#32 := by
      intro hzero
      rw [hzero] at hwidth
      exact hns hwidth.symm
    constructor
    · apply schedArmTimer_preempting hq hcontended _ harm
      have htoNat : (ns.setWidth 32).toNat = ns.toNat := by
        rw [BitVec.toNat_setWidth]
        exact Nat.mod_eq_of_lt hlt
      dsimp only
      rwa [htoNat]
    · intro hstarts
      rw [hstarts.sliceEnd harm]
      exact congrArg (now + ·) hwidth
    · intro s1 c a t s2 hcalls hc harms harm2 hstarts
      rw [hstarts.sliceEnd harm2, harms.quantum hcb hc, hcalls.quantum hcb, hquantum, hwidth]

theorem twoQueued_waiting : twoQueued.Waiting := twoQueued_shared.2

theorem quantum_used_twoQueued : ∃ s', twoQueued.schedSetQuantumNs 3000 200 = .ok s' ∧
    UsesQuantum (fun _ _ s => s) 3000 200 twoQueued s' := by
  have hcb : KeepsQuantum (fun _ _ s => s : U64 → U64 → Kernel (Fin 3) (Fin 1) → _) := fun _ _ _ => rfl
  have hnow : (200 : U64).toNat + (3000 : U64).toNat < 2 ^ 64 := by decide
  obtain ⟨s', hset, huses⟩ := quantum_used hcb twoQueued_onRing twoQueued_waiting (by decide) hnow
  exact ⟨s', hset, huses.mpr (by decide)⟩

theorem quantum_truncated : ∃ s', twoQueued.schedSetQuantumNs 5000000000 1200 = .ok s' ∧
    StartsSlice { twoQueued with gQuantumNs := (5000000000 : U64).setWidth 32 } 1200 ∧
    s'.gSliceEndNs = 1200 + 705032704 ∧
    ¬UsesQuantum (fun _ _ s => s) 5000000000 1200 twoQueued s' := by
  have hok : (twoQueued.schedSetQuantumNs 5000000000 1200).isOk := by decide +kernel
  have hring : OnRing { twoQueued with gQuantumNs := (5000000000 : U64).setWidth 32 } 0 [1] :=
    ⟨twoQueued_onRing.current_eq, twoQueued_onRing.ring⟩
  have hstarts : StartsSlice { twoQueued with gQuantumNs := (5000000000 : U64).setWidth 32 } 1200 := by
    refine ⟨by decide, hring.contended_iff.mpr twoQueued_waiting, ?_⟩
    right
    decide +kernel
  have hend : (returned twoQueued (twoQueued.schedSetQuantumNs 5000000000 1200)).gSliceEndNs =
      1200 + 705032704 := by decide +kernel
  refine ⟨_, ok_returned hok, hstarts, hend, ?_⟩
  intro huses
  exact absurd (hend.symm.trans (huses.first hstarts)) (by decide)

structure Undisturbed (s s' : Kernel T E) : Prop where
  current_eq : s'.gCurrent = s.gCurrent
  quantumNs : s'.gQuantumNs = s.gQuantumNs
  sliceEndNs : s'.gSliceEndNs = 0 ∨ s'.gSliceEndNs = s.gSliceEndNs

def Unobtrusive (callback : U64 → U64 → Kernel T E → Kernel T E) : Prop :=
  ∀ cb arg s, Undisturbed s (callback cb arg s)

def ZeroQuantum (c : Entry T) : Prop := ∀ ns, c = .setQuantumNs ns → ns = 0

structure Off (leftover : U64) (s : Kernel T E) : Prop where
  quantumNs : s.gQuantumNs = 0
  sliceEndNs : s.gSliceEndNs = 0 ∨ s.gSliceEndNs = leftover

variable {leftover : U64} {k : Tick} {frame' : IsrFrame}

omit [DecidableEq T] [Fintype T] [DecidableEq E] in
theorem Undisturbed.off (h : Undisturbed s s') (hs : s.Off leftover) : s'.Off leftover where
  quantumNs := h.quantumNs.trans hs.quantumNs
  sliceEndNs := by
    obtain hzero | hsame := h.sliceEndNs
    · exact .inl hzero
    · rw [hsame]
      exact hs.sliceEndNs

omit [DecidableEq T] [Fintype T] in
theorem Off.runExpired {fuel : ℕ} {now : U64} (hs : s.Off leftover) (hcb : Unobtrusive callback)
    (h : s.timerqRunExpired callback now fuel = .ok s') :
    s'.Off leftover ∧ s'.gCurrent = s.gCurrent := by
  apply timerqRunExpired_induction (P := fun s' => s'.Off leftover ∧ s'.gCurrent = s.gCurrent) _ _ h
    ⟨hs, rfl⟩
  · exact fun s1 gHead event hs1 => ⟨⟨hs1.1.quantumNs, hs1.1.sliceEndNs⟩, hs1.2⟩
  · intro cb arg s1 hs1
    exact ⟨(hcb cb arg s1).off hs1.1, (hcb cb arg s1).current_eq.trans hs1.2⟩

omit [DecidableEq E] in
theorem Off.arm (hs : s.Off leftover) (h : s.schedArmTimer now' = .ok s') : s'.Off leftover where
  quantumNs := (schedArmTimer_rearmed h).quantumNs_eq.trans hs.quantumNs
  sliceEndNs := by
    obtain hzero | ⟨-, -, hsame⟩ := (schedArmTimer_idle (fun hne => absurd hs.quantumNs hne) h).2
    · exact .inl hzero
    · rw [hsame]
      exact hs.sliceEndNs

theorem Arms.off (harms : Arms callback s c a) (hs : s.Off leftover) (hcb : Unobtrusive callback)
    (hc : ZeroQuantum c) : a.Off leftover := by
  cases harms with
  | add _ => exact ⟨hs.quantumNs, .inl rfl⟩
  | start => exact hs
  | @setQuantumNs ns hns => exact absurd (hc ns rfl) hns
  | onTick _ h1 _ => exact (hs.runExpired hcb h1).1
  | onSliceEnd _ h1 _ _ hres =>
    have hkept := reschedule_keeps gQuantumNs (fun _ _ _ => rfl) (fun _ _ _ => rfl) hres
    exact ⟨hkept.trans (hs.runExpired hcb h1).1.quantumNs, .inl rfl⟩

theorem Off.enter (hs : s.Off leftover) (hcb : Unobtrusive callback) (hc : ZeroQuantum c)
    (h : s.enter callback now' c = .ok s') : s'.Off leftover := by
  obtain hidle | ⟨a, harms, harm⟩ := enter_cases h
  · cases c with
    | add t =>
      rw [hidle.2]
      exact ⟨hs.quantumNs, hs.sliceEndNs⟩
    | start => exact hidle.elim
    | setQuantumNs ns =>
      rw [hidle.2]
      exact ⟨rfl, hs.sliceEndNs⟩
    | onTick fuel frame now =>
      rw [hidle.2]
      exact hs
  · exact (harms.off hs hcb hc).arm harm

theorem Calls.off (hcb : Unobtrusive callback) (hs : s.Off leftover)
    (h : Calls ZeroQuantum callback s s') : s'.Off leftover := by
  induction h with
  | refl => exact hs
  | tail _ hstep ih =>
    obtain ⟨c, now', hc, henter⟩ := hstep
    exact ih.enter hcb hc henter

/-- While the quantum is 0 a tick changes the thread only by what the end of the slice was when the
quantum was set. -/
theorem quantum_zero (hcb : Unobtrusive callback) {s0 s1 : Kernel T E} {now : U64}
    (hset : s.schedSetQuantumNs 0 now = .ok s0) (hcalls : Calls ZeroQuantum callback s0 s1) :
    (∀ k s2 frame', s1.tick callback k = .ok (s2, frame') →
      (s2.gCurrent = s1.gCurrent ↔ ¬∃ s', s1.timerqRunExpired callback k.now k.fuel = .ok s' ∧
        k.frame.cs &&& 3 = 3 ∧ s'.gSliceEndNs = s.gSliceEndNs ∧ s.gSliceEndNs ≠ 0 ∧
        s.gSliceEndNs ≤ k.now ∧ s'.Contended)) ∧
    (s.gSliceEndNs = 0 → ∀ k s2 frame', s1.tick callback k = .ok (s2, frame') →
      s2.gCurrent = s1.gCurrent) := by
  have hoff0 : s0.Off s.gSliceEndNs := by
    rw [schedSetQuantumNs, if_pos rfl] at hset
    obtain rfl := Except.ok.inj hset
    exact ⟨rfl, .inr rfl⟩
  have hoff : s1.Off s.gSliceEndNs := hcalls.off hcb hoff0
  have hexact : ∀ k s2 frame', s1.tick callback k = .ok (s2, frame') →
      (s2.gCurrent = s1.gCurrent ↔ ¬∃ s', s1.timerqRunExpired callback k.now k.fuel = .ok s' ∧
        k.frame.cs &&& 3 = 3 ∧ s'.gSliceEndNs = s.gSliceEndNs ∧ s.gSliceEndNs ≠ 0 ∧
        s.gSliceEndNs ≤ k.now ∧ s'.Contended) := by
    intro k s2 frame' htick
    rw [← not_iff_not, not_not]
    cases hrun : s1.timerqRunExpired callback k.now k.fuel with
    | error e =>
      apply iff_of_false
      · obtain ⟨-, rfl, -⟩ | ⟨s', h1, -⟩ := schedOnTick_cases htick
        · exact not_not.mpr rfl
        · exact absurd (hrun.symm.trans h1) (by simp)
      · rintro ⟨s', h1, -⟩
        exact absurd h1 (by simp)
    | ok s' =>
      obtain ⟨hoff', hcurrent⟩ := hoff.runExpired hcb hrun
      rw [← ne_eq, tick_current_iff hrun hcurrent htick]
      constructor
      · rintro ⟨⟨huser, hnonzero, hpast⟩, hcontended⟩
        have hleft := hoff'.sliceEndNs.resolve_left hnonzero
        exact ⟨s', rfl, huser, hleft, hleft ▸ hnonzero, hleft ▸ hpast, hcontended⟩
      · rintro ⟨s'', h1, huser, hleft, hnonzero, hpast, hcontended⟩
        obtain rfl := Except.ok.inj h1
        exact ⟨⟨huser, hleft ▸ hnonzero, hleft ▸ hpast⟩, hcontended⟩
  refine ⟨hexact, ?_⟩
  intro hzero k s2 frame' htick
  apply (hexact k s2 frame' htick).mpr
  rintro ⟨s', -, -, -, hnonzero, -⟩
  exact hnonzero hzero

def zeroSet : Kernel (Fin 3) (Fin 1) := { twoQueued with gQuantumNs := 0, timer := .stop }

theorem zeroSet_eq : twoQueued.schedSetQuantumNs 0 200 = .ok zeroSet := rfl

theorem quantum_zero_kernelTick : (zeroSet.afterTick kernelTick).gCurrent = zeroSet.gCurrent := by
  have hok : (zeroSet.tick (fun _ _ s => s) kernelTick).isOk := by decide +kernel
  obtain ⟨frame', htick⟩ : ∃ frame', zeroSet.tick (fun _ _ s => s) kernelTick =
      .ok (zeroSet.afterTick kernelTick, frame') := tick_twoQueued kernelTick hok
  apply ((quantum_zero (fun _ _ s => ⟨rfl, rfl, .inr rfl⟩) zeroSet_eq .refl).1 _ _ _ htick).mpr
  rintro ⟨s', -, huser, -⟩
  exact absurd huser (by decide)

theorem quantum_zero_preempts : twoQueued.schedSetQuantumNs 0 200 = .ok zeroSet ∧
    (zeroSet.tick (fun _ _ s => s) userTick).isOk ∧
    zeroSet.gCurrent = some 0 ∧ (zeroSet.afterTick userTick).gCurrent = some 1 := by
  refine ⟨zeroSet_eq, ?_⟩
  decide +kernel

end Kernel

end Mcincos
