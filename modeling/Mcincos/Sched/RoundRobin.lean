import Mcincos.Library.Rotation
import Mcincos.Sched.Slices

namespace Mcincos

open CircularList Rotation

namespace Kernel

variable {T E : Type} {s0 s s' s1 : Kernel T E} {current next t : T} {others ts : List T}

def Live (s : Kernel T E) (t : T) : Prop := (s.thread t).state = .ready ∨ (s.thread t).state = .running

instance (s : Kernel T E) : DecidablePred s.Live := fun _ => inferInstanceAs (Decidable (_ ∨ _))

/-- The ring from the current thread on. Of the threads that take turns in `s0` it is the only one
running; the others have the states they have in `s0`. -/
structure Serving (s0 s : Kernel T E) (current : T) (others : List T) : Prop where
  onRing : s.OnRing current others
  live : s0.Live current
  running : (s.thread current).state = .running
  waiting : ∀ t ∈ others, (s.thread t).state = if s0.Live t then .ready else (s0.thread t).state

theorem Serving.start (h : s.OnRing current others) (hrunning : (s.thread current).state = .running)
    (hothers : ∀ t ∈ others, (s.thread t).state ≠ .running) : Serving s s current others where
  onRing := h
  live := .inr hrunning
  running := hrunning
  waiting := by
    intro t ht
    split_ifs with hlive
    · exact hlive.resolve_right (hothers t ht)
    · rfl

theorem Serving.same (h : Serving s0 s current others) (hs : SameRing s s') :
    Serving s0 s' current others := by
  have hstate : ∀ t ∈ current :: others, (s'.thread t).state = (s.thread t).state := by
    intro t ht
    exact hs.state t (h.onRing.inRing_iff.mpr ht)
  constructor
  · refine ⟨hs.current_eq.trans h.onRing.current_eq, h.onRing.ring.congr ?_⟩
    intro t ht
    exact hs.next t (h.onRing.inRing_iff.mpr ht)
  · exact h.live
  · exact (hstate current List.mem_cons_self).trans h.running
  · intro t ht
    exact (hstate t (List.mem_cons_of_mem _ ht)).trans (h.waiting t ht)

theorem Serving.ready_iff (h : Serving s0 s current others) (ht : t ∈ others) :
    (s.thread t).state = .ready ↔ s0.Live t := by
  rw [h.waiting t ht]
  by_cases hlive : s0.Live t
  · rw [if_pos hlive]
    exact iff_of_true rfl hlive
  · rw [if_neg hlive]
    exact iff_of_false (fun hready => hlive (.inl hready)) hlive

variable [DecidableEq T]

theorem Serving.move {as bs : List T} (h : Serving s0 s current (as ++ next :: bs))
    (hnext : s0.Live next) : Serving s0 (s.switchTo current next) next (bs ++ current :: as) where
  onRing := h.onRing.move
  live := hnext
  running := by rw [switchTo_state, if_pos rfl]
  waiting := by
    intro t ht
    have hnodup := h.onRing.move.ring.nodup
    have hne : t ≠ next := by
      rintro rfl
      exact (List.nodup_cons.mp hnodup).1 ht
    rw [switchTo_state, if_neg hne]
    split_ifs with hcurrent hlive hlive
    · rfl
    · exact absurd (hcurrent ▸ h.live) hlive
    all_goals
      have hmem : t ∈ as ++ next :: bs := by
        obtain hbs | has := List.mem_append.mp ht
        · exact List.mem_append_right _ (List.mem_cons_of_mem _ hbs)
        · exact List.mem_append_left _ ((List.mem_cons.mp has).resolve_left hcurrent)
      rw [h.waiting t hmem]
    · rw [if_pos hlive]
    · rw [if_neg hlive]

variable [Fintype T]

theorem Serving.reschedule (h : Serving s0 s current others) {frame frame' : IsrFrame}
    (hres : s.reschedule frame = .ok (s', frame')) :
    ∃ next others', Serving s0 s' next others' ∧ Turn s0.Live (current :: others) (next :: others') ∧
      next = (others.find? fun t => (s.thread t).state = .ready).getD current := by
  obtain ⟨c, next, hc, hnext, hcases⟩ := reschedule_cases hres
  obtain rfl := Option.some.inj (hc.symm.trans h.onRing.current_eq)
  have hsaved := h.same (setFrame_same s c frame)
  rw [pickNext_eq hsaved.onRing.current_eq hsaved.onRing.ring] at hnext
  simp only [setFrame_state] at hnext
  have hnext := (Except.ok.inj hnext).symm
  cases hfind : others.find? fun t => (s.thread t).state = .ready with
  | none =>
    rw [hfind, Option.getD_none] at hnext
    subst hnext
    obtain ⟨-, rfl, -⟩ | ⟨hne, -⟩ := hcases
    · refine ⟨next, others, hsaved, .stay ?_, rfl⟩
      intro t ht hlive
      exact List.find?_eq_none.mp hfind t ht (decide_eq_true ((h.ready_iff ht).mpr hlive))
    · exact absurd rfl hne
  | some t =>
    rw [hfind, Option.getD_some] at hnext
    subst hnext
    obtain ⟨hready, as, bs, rfl, has⟩ := List.find?_eq_some_iff_append.mp hfind
    have hmem : next ∈ as ++ next :: bs := by simp
    have hlive : s0.Live next := (h.ready_iff hmem).mp (of_decide_eq_true hready)
    have hne : next ≠ c := by
      rintro rfl
      exact (List.nodup_cons.mp h.onRing.ring.nodup).1 hmem
    obtain ⟨heq, -⟩ | ⟨-, rfl, -⟩ := hcases
    · exact absurd heq hne
    · refine ⟨next, bs ++ c :: as, hsaved.move hlive, .move ?_ hlive, rfl⟩
      intro t ht hlive
      have hready := (h.ready_iff (List.mem_append_left _ ht)).mpr hlive
      have hnot := has t ht
      rw [hready] at hnot
      exact absurd hnot (by decide)

variable [DecidableEq E] {callback : U64 → U64 → Kernel T E → Kernel T E} {k : Tick} {frame' : IsrFrame}

def Expired (callback : U64 → U64 → Kernel T E → Kernel T E) (s : Kernel T E) (k : Tick) : Prop :=
  k.frame.cs &&& 3 = 3 ∧ ∃ s1, s.timerqRunExpired callback k.now k.fuel = .ok s1 ∧
    s1.gSliceEndNs ≠ 0 ∧ s1.gSliceEndNs ≤ k.now

theorem Serving.tick (h : Serving s0 s current others) (hcb : KeepsRing callback)
    (hover : s.Expired callback k) (htick : s.tick callback k = .ok (s', frame')) :
    ∃ next others', Serving s0 s' next others' ∧ Turn s0.Live (current :: others) (next :: others') ∧
      next = (others.find? fun t => (s.thread t).state = .ready).getD current := by
  obtain ⟨huser, s1, h1, hnonzero, hpast⟩ := hover
  obtain ⟨hnone, -⟩ | ⟨s2, h2, hbranch⟩ := tick_branches htick
  · exact absurd (h.onRing.current_eq.symm.trans hnone) (by simp)
  obtain rfl := Except.ok.inj (h1.symm.trans h2)
  have hsame := timerqRunExpired_ring hcb h1
  have hserved := h.same hsame
  obtain ⟨hkept, -⟩ | ⟨-, s2, hres, harm⟩ := hbranch
  · exact absurd ⟨huser, hnonzero, hpast⟩ hkept
  obtain ⟨next, others', hmoved, hturn, hnext⟩ := hserved.reschedule hres
  have hended : Serving s0 { s2 with gSliceEndNs := 0 } next others' := hmoved.same (.of_thread rfl rfl)
  refine ⟨next, others', hended.same (schedArmTimer_rearmed harm).same, hturn, ?_⟩
  have hfind : (others.find? fun t => (s1.thread t).state = .ready) =
      others.find? fun t => (s.thread t).state = .ready := by
    apply List.find?_congr
    intro t ht
    rw [hsame.state t (h.onRing.inRing_iff.mpr (List.mem_cons_of_mem _ ht))]
  rw [hnext, hfind]

omit [DecidableEq E] in
theorem OnRing.reschedule_ok (h : s.OnRing current others) (frame : IsrFrame) :
    ∃ s' frame', s.reschedule frame = .ok (s', frame') := by
  obtain ⟨next, -, hnext⟩ := (h.setFrame current frame).pickNext_mem
  unfold Kernel.reschedule
  rw [h.current_eq]
  dsimp only
  rw [bind_ok hnext]
  split_ifs
  all_goals exact ⟨_, _, rfl⟩

theorem Serving.tick_ok (h : Serving s0 s current others) (hcb : KeepsRing callback)
    (hover : s.Expired callback k) : ∃ s' frame', s.tick callback k = .ok (s', frame') := by
  obtain ⟨huser, s1, h1, hnonzero, hpast⟩ := hover
  have hserved := h.same (timerqRunExpired_ring hcb h1)
  obtain ⟨s2, frame', hres⟩ := hserved.onRing.reschedule_ok k.frame
  obtain ⟨next, others', hmoved, -, -⟩ := hserved.reschedule hres
  have hended : Serving s0 { s2 with gSliceEndNs := 0 } next others' := hmoved.same (.of_thread rfl rfl)
  obtain ⟨next', -, hnext'⟩ := hended.onRing.pickNext_mem
  obtain ⟨s3, harm⟩ := schedArmTimer_ok k.now' hnext'
  refine ⟨s3, frame', ?_⟩
  unfold Kernel.tick schedOnTick
  rw [if_neg (by simp [h.onRing.current_eq]), bind_ok h1, if_neg (not_not.mpr huser),
    if_neg (not_or.mpr ⟨hnonzero, BitVec.not_lt.mpr hpast⟩), bind_ok hres]
  dsimp only
  rw [bind_ok harm]
  rfl

/-- Ticks that come after the end of the slice, with the threads that they switch to. No other code
changes the ring or the states. -/
inductive SwitchRun (callback : U64 → U64 → Kernel T E → Kernel T E) (s : Kernel T E) :
    List T → Kernel T E → Prop
  | start : SwitchRun callback s [] s
  | other {s' s'' : Kernel T E} {ts : List T} :
      SwitchRun callback s ts s' → SameRing s' s'' → SwitchRun callback s ts s''
  | tick {s' s'' : Kernel T E} {ts : List T} {k : Tick} {frame' : IsrFrame} {t : T} :
      SwitchRun callback s ts s' → s'.Expired callback k → s'.tick callback k = .ok (s'', frame') →
      s''.gCurrent = some t → SwitchRun callback s (ts ++ [t]) s''

def turns (s : Kernel T E) (ts : List T) : List T := ts.filter fun t => decide (s.Live t)

omit [Fintype T] [DecidableEq T] [DecidableEq E] in
theorem Serving.head_live (h : Serving s0 s current others) :
    ∀ c ∈ (current :: others).head?, s0.Live c := by
  intro c hc
  obtain rfl := Option.some.inj hc
  exact h.live

theorem SwitchRun.serving (hrun : SwitchRun callback s ts s') (hcb : KeepsRing callback)
    (h : Serving s0 s current others) :
    ∃ current' others', Serving s0 s' current' others' ∧
      (current' :: others').Perm (current :: others) ∧
      s0.turns (current' :: others') = (s0.turns (current :: others)).rotate ts.length ∧
      ∀ j < ts.length, ts[j]? = ((s0.turns (current :: others)).rotate (j + 1)).head? := by
  induction hrun with
  | start => exact ⟨current, others, h, .refl _, (List.rotate_zero _).symm, by simp⟩
  | other _ hsame ih =>
    obtain ⟨current', others', hserving, hrest⟩ := ih
    exact ⟨current', others', hserving.same hsame, hrest⟩
  | @tick s1 s2 ts k frame' t _ hover htick ht ih =>
    obtain ⟨current', others', hserving, hperm, hturns, hheads⟩ := ih
    obtain ⟨next, others'', hserving', hturn, -⟩ := hserving.tick hcb hover htick
    obtain rfl := Option.some.inj (ht.symm.trans hserving'.onRing.current_eq)
    have hrotate : s0.turns (t :: others'') = (s0.turns (current :: others)).rotate (ts.length + 1) := by
      rw [← List.rotate_rotate, ← hturns]
      exact hturn.filter hserving.head_live
    refine ⟨t, others'', hserving', hturn.perm.trans hperm, ?_, ?_⟩
    · rw [hrotate, List.length_append, List.length_singleton]
    · intro j hj
      rw [List.length_append, List.length_singleton] at hj
      obtain hlt | rfl := Nat.lt_succ_iff_lt_or_eq.mp hj
      · rw [List.getElem?_append_left hlt]
        exact hheads j hlt
      · rw [List.getElem?_concat_length, ← hrotate]
        exact (head?_filter hserving'.head_live).symm

omit [Fintype T] [DecidableEq E] in
theorem Serving.state_eq {others' : List T} (h : Serving s0 s current others)
    (h' : Serving s0 s' current others') (hperm : (current :: others').Perm (current :: others))
    (ht : t ∈ current :: others) : (s'.thread t).state = (s.thread t).state := by
  by_cases hc : t = current
  · rw [hc, h.running, h'.running]
  · have ht' := (List.mem_cons.mp (hperm.mem_iff.mpr ht)).resolve_left hc
    rw [h.waiting t ((List.mem_cons.mp ht).resolve_left hc), h'.waiting t ht']

/-- Each tick goes to the first ready thread after the current one. As many ticks as there are threads
that take turns run each of them once, and come back to the state they start from. -/
theorem round_robin (hcb : KeepsRing callback) (hring : s.OnRing current others)
    (hrunning : (s.thread current).state = .running)
    (hothers : ∀ t ∈ others, (s.thread t).state ≠ .running) (hrun : SwitchRun callback s ts s1) :
    (∀ t ∈ ts, t ∈ current :: others ∧ s.Live t) ∧
    (∃ current1 others1, s1.OnRing current1 others1 ∧
      (current1 :: others1).Perm (current :: others) ∧
      ∀ k, s1.Expired callback k → ∃ s2 frame', s1.tick callback k = .ok (s2, frame') ∧
        s2.gCurrent = some ((others1.find? fun t => (s1.thread t).state = .ready).getD current1)) ∧
    ∀ us s2, SwitchRun callback s1 us s2 → us.length = (s.turns (current :: others)).length →
      us.Perm (s.turns (current :: others)) ∧ s2.gCurrent = s1.gCurrent ∧
        ∀ t, s1.InRing t → (s2.thread t).state = (s1.thread t).state := by
  obtain ⟨current1, others1, h1, hperm1, hturns1, hheads⟩ := hrun.serving hcb (.start hring hrunning hothers)
  refine ⟨?_, ⟨current1, others1, h1.onRing, hperm1, ?_⟩, ?_⟩
  · intro t ht
    obtain ⟨j, hj, hget⟩ := List.getElem_of_mem ht
    have hhead := hheads j hj
    rw [List.getElem?_eq_getElem hj, hget] at hhead
    have hmem := List.mem_rotate.mp (List.mem_of_head? hhead.symm)
    obtain ⟨hin, hlive⟩ := List.mem_filter.mp hmem
    exact ⟨hin, of_decide_eq_true hlive⟩
  · intro k hover
    obtain ⟨s2, frame', htick⟩ := h1.tick_ok hcb hover
    obtain ⟨next, others2, h2, -, hnext⟩ := h1.tick hcb hover htick
    refine ⟨s2, frame', htick, ?_⟩
    rw [h2.onRing.current_eq, hnext]
  · intro us s2 hus hlength
    obtain ⟨current2, others2, h2, hperm2, hturns2, hheads2⟩ := hus.serving hcb h1
    have hcount : us.length = (s.turns (current1 :: others1)).length := by
      rw [hturns1, List.length_rotate, hlength]
    have horder := eq_rotate_one hcount hheads2
    rw [hcount, List.rotate_length] at hturns2
    have hback : current2 = current1 := by
      have hhead2 := head?_filter h2.head_live
      have hhead1 := head?_filter h1.head_live
      exact Option.some.inj ((hhead2.symm.trans (congrArg List.head? hturns2)).trans hhead1)
    subst hback
    refine ⟨?_, ?_, ?_⟩
    · rw [horder, hturns1]
      exact (List.rotate_perm _ 1).trans (List.rotate_perm _ ts.length)
    · rw [h2.onRing.current_eq, h1.onRing.current_eq]
    · intro t ht
      exact h1.state_eq h2 hperm2 (h1.onRing.inRing_iff.mp ht)

def oneBlocked : Kernel (Fin 3) (Fin 1) := threeQueued.setState 1 .blocked

def turnTick (now : U64) : Tick := ⟨2, (userThread 0x400010 0x700ff0 0 : Thread (Fin 3)).frame, now, now + 100⟩

theorem expired_turnTick {s : Kernel (Fin 3) (Fin 1)} {now : U64}
    (hok : (s.timerqRunExpired (fun _ _ s => s) now 2).isOk)
    (hover : (returned s (s.timerqRunExpired (fun _ _ s => s) now 2)).gSliceEndNs ≠ 0 ∧
      (returned s (s.timerqRunExpired (fun _ _ s => s) now 2)).gSliceEndNs ≤ now) :
    s.Expired (fun _ _ s => s) (turnTick now) := by
  have huser : (userThread 0x400010 0x700ff0 0 : Thread (Fin 3)).frame.cs &&& 3 = 3 := by decide +kernel
  exact ⟨huser, _, ok_returned hok, hover⟩

theorem round_robin_oneBlocked :
    [2, 0].Perm (oneBlocked.turns [0, 2, 1]) ∧
    ((oneBlocked.afterTick (turnTick 1100)).afterTick (turnTick 2200)).gCurrent = oneBlocked.gCurrent ∧
    ∀ t, oneBlocked.InRing t →
      (((oneBlocked.afterTick (turnTick 1100)).afterTick (turnTick 2200)).thread t).state =
        (oneBlocked.thread t).state := by
  have hring : oneBlocked.OnRing 0 [2, 1] := by
    refine ⟨by decide +kernel, IsRing.of_links (by decide) ?_⟩
    decide +kernel
  have hothers : ∀ t ∈ [2, 1], (oneBlocked.thread t).state ≠ .running := by decide +kernel
  have hcb : KeepsRing (fun _ _ s => s : U64 → U64 → Kernel (Fin 3) (Fin 1) → _) :=
    fun _ _ _ => .of_thread rfl rfl
  have hfirst : oneBlocked.Expired (fun _ _ s => s) (turnTick 1100) := by
    apply expired_turnTick
    all_goals decide +kernel
  have hsecond : (oneBlocked.afterTick (turnTick 1100)).Expired (fun _ _ s => s) (turnTick 2200) := by
    apply expired_turnTick
    all_goals decide +kernel
  obtain ⟨frame1, htick1⟩ := tick_twoQueued (turnTick 1100) (s := oneBlocked) (by decide +kernel)
  obtain ⟨frame2, htick2⟩ := tick_twoQueued (turnTick 2200) (s := oneBlocked.afterTick (turnTick 1100))
    (by decide +kernel)
  have hrun : SwitchRun (fun _ _ s => s) oneBlocked [2, 0]
      ((oneBlocked.afterTick (turnTick 1100)).afterTick (turnTick 2200)) := by
    apply SwitchRun.tick (SwitchRun.start.tick hfirst htick1 _) hsecond htick2
    all_goals decide +kernel
  exact (round_robin hcb hring (by decide +kernel) hothers .start).2.2 _ _ hrun (by decide +kernel)

end Kernel

end Mcincos
