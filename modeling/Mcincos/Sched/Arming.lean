import Mcincos.Sched.RunQueue

namespace Mcincos

open CircularList Relation

namespace Kernel

variable {T E : Type}

def Waiting (s : Kernel T E) : Prop :=
  ∃ t, s.InRing t ∧ s.gCurrent ≠ some t ∧ (s.thread t).state = .ready

def Armed (s : Kernel T E) (now : U64) : Prop :=
  s.gHead ≠ none → ∃ ns, s.timer = .oneshot ns ∧
    now.toNat + ns.toNat ≤ max s.timerqNextDeadline.toNat (now.toNat + 1)

def SliceOver (s : Kernel T E) (now : U64) : Prop := s.gSliceEndNs = 0 ∨ s.gSliceEndNs ≤ now

/-- A slice from `now` on would end at 2^64, which reads as no slice. -/
def Wraps (quantumNs : BitVec 32) (now : U64) : Prop :=
  quantumNs ≠ 0 ∧ now + quantumNs.setWidth 64 = 0

variable {s s' : Kernel T E} {current t : T} {others : List T} {now : U64}

theorem OnRing.inRing_iff (h : s.OnRing current others) : s.InRing t ↔ t ∈ current :: others := by
  rw [← h.ring.reach_iff]
  constructor
  · rintro ⟨c, hc, hreach⟩
    obtain rfl := Option.some.inj (hc.symm.trans h.current_eq)
    exact hreach
  · exact fun hreach => ⟨current, h.current_eq, hreach⟩

theorem OnRing.waiting_iff (h : s.OnRing current others) :
    s.Waiting ↔ ∃ t ∈ others, (s.thread t).state = .ready := by
  constructor
  · rintro ⟨t, hring, hne, hready⟩
    rw [h.current_eq] at hne
    exact ⟨t, (List.mem_cons.mp (h.inRing_iff.mp hring)).resolve_left fun ht => hne (ht ▸ rfl), hready⟩
  · rintro ⟨t, ht, hready⟩
    refine ⟨t, h.inRing_iff.mpr (List.mem_cons_of_mem _ ht), ?_, hready⟩
    rw [h.current_eq]
    rintro hcurrent
    exact (List.nodup_cons.mp h.ring.nodup).1 (Option.some.inj hcurrent ▸ ht)

theorem OnRing.setFrame [DecidableEq T] (h : s.OnRing current others) (t : T) (frame : IsrFrame) :
    (s.setFrame t frame).OnRing current others :=
  ⟨h.current_eq, h.ring.congr fun t' _ => s.setFrame_next t t' frame⟩

theorem OnRing.waiting_setFrame [DecidableEq T] (h : s.OnRing current others) (t : T)
    (frame : IsrFrame) : (s.setFrame t frame).Waiting ↔ s.Waiting := by
  rw [(h.setFrame t frame).waiting_iff, h.waiting_iff]
  simp only [setFrame_state]

theorem OnRing.pickNext_iff [DecidableEq T] [Fintype T] (h : s.OnRing current others) {next : T}
    (hnext : s.pickNext = .ok next) : s.gCurrent ≠ some next ↔ s.Waiting := by
  obtain rfl := Except.ok.inj (hnext.symm.trans (pickNext_eq h.current_eq h.ring))
  rw [h.waiting_iff, h.current_eq]
  cases hfind : others.find? fun t => (s.thread t).state = .ready with
  | none =>
    rw [List.find?_eq_none] at hfind
    apply iff_of_false
    · exact not_not.mpr rfl
    · rintro ⟨t, ht, hready⟩
      exact hfind t ht (decide_eq_true hready)
  | some t =>
    have ht := List.mem_of_find?_eq_some hfind
    apply iff_of_true
    · intro hcurrent
      exact (List.nodup_cons.mp h.ring.nodup).1 (Option.some.inj hcurrent ▸ ht)
    · exact ⟨t, ht, by simpa using List.find?_some hfind⟩

def timerFor (deadline now : U64) : TimerCommand :=
  if deadline = 0 then .stop else .oneshot (if deadline > now then deadline - now else 1)

theorem oneshot_expiry {deadline head now : U64} (hle : deadline ≤ head) :
    now.toNat + (if deadline > now then deadline - now else 1 : U64).toNat ≤
      max head.toNat (now.toNat + 1) := by
  split_ifs with hlater
  · have : now.toNat + (deadline - now).toNat = deadline.toNat := by
      bv_omega
    bv_omega
  · exact le_max_right _ _

structure Sound (s : Kernel T E) : Prop where
  ring : ∃ current others, s.OnRing current others
  deadline : ∀ ev, s.PendingEvent ev → (s.event ev).deadlineNs ≠ 0

def KeepsSound (callback : U64 → U64 → Kernel T E → Kernel T E) : Prop :=
  ∀ cb arg s, Sound s → Sound (callback cb arg s)

theorem Sound.head (h : s.Sound) (hhead : s.gHead ≠ none) : s.timerqNextDeadline ≠ 0 := by
  obtain ⟨head, hsome⟩ := Option.ne_none_iff_exists'.mp hhead
  rw [timerqNextDeadline, hsome]
  exact h.deadline head ⟨head, hsome, .refl⟩

theorem Armed.of_head (hhead : s.gHead = none) : s.Armed now := fun h => absurd hhead h

theorem Rearmed.armed_iff (h : Rearmed s s') {deadline : U64} (htimer : s'.timer = timerFor deadline now)
    (hle : deadline ≤ s.timerqNextDeadline) (hhead : s.gHead ≠ none) : s'.Armed now ↔ deadline ≠ 0 := by
  obtain ⟨e, c, rfl⟩ := h
  rw [timerFor] at htimer
  constructor
  · intro harmed hzero
    obtain ⟨ns, hns, -⟩ := harmed hhead
    rw [if_pos hzero] at htimer
    exact absurd (htimer.symm.trans hns) (by simp)
  · intro hne
    rw [if_neg hne] at htimer
    exact fun _ => ⟨_, htimer, oneshot_expiry hle⟩

theorem renewSlice_eq_zero (s : Kernel T E) (hq : s.gQuantumNs ≠ 0) (now : U64) :
    (s.renewSlice now).gSliceEndNs = 0 ↔ s.SliceOver now ∧ Wraps s.gQuantumNs now := by
  unfold renewSlice SliceOver Wraps
  split_ifs with hover
  · rw [and_iff_right hover, and_iff_right hq]
  · exact iff_of_false (fun h => hover (.inl h)) fun h => hover h.1

variable [DecidableEq T] [Fintype T]

def Contended (s : Kernel T E) : Prop := ∃ next, s.pickNext = .ok next ∧ s.gCurrent ≠ some next

theorem Rearmed.contended_iff (h : Rearmed s s') : s'.Contended ↔ s.Contended := by
  rw [Contended, Contended, pickNext_congr h.current_eq h.thread_eq, h.current_eq]

theorem OnRing.contended_iff (h : s.OnRing current others) : s.Contended ↔ s.Waiting := by
  obtain ⟨next, -, hnext⟩ := h.pickNext_mem
  constructor
  · rintro ⟨next', hnext', hne⟩
    exact (h.pickNext_iff hnext').mp hne
  · intro hwaiting
    exact ⟨next, hnext, (h.pickNext_iff hnext).mpr hwaiting⟩

theorem schedArmTimer_idle (hidle : s.gQuantumNs ≠ 0 → ¬s.Contended)
    (h : s.schedArmTimer now = .ok s') :
    s'.timer = timerFor s.timerqNextDeadline now ∧
      (s'.gSliceEndNs = 0 ∨
        s.gQuantumNs = 0 ∧ s.timerqNextDeadline = 0 ∧ s'.gSliceEndNs = s.gSliceEndNs) := by
  rw [schedArmTimer] at h
  by_cases hstop : s.gQuantumNs = 0 ∧ s.timerqNextDeadline = 0
  · rw [if_pos hstop] at h
    obtain rfl := Except.ok.inj h
    refine ⟨?_, .inr ⟨hstop.1, hstop.2, rfl⟩⟩
    rw [timerFor, if_pos hstop.2]
  rw [if_neg hstop] at h
  obtain ⟨⟨s1, deadline⟩, h1, h⟩ := bind_eq_ok h
  have hnone : s1 = { s with gSliceEndNs := 0 } ∧ deadline = s.timerqNextDeadline := by
    rw [schedNextDeadline] at h1
    by_cases hq : s.gQuantumNs = 0
    · rw [if_pos hq] at h1
      obtain ⟨rfl, rfl⟩ := Prod.mk.inj (Except.ok.inj h1)
      exact ⟨rfl, rfl⟩
    · rw [if_neg hq] at h1
      obtain ⟨next, hnext, h1⟩ := bind_eq_ok h1
      have hsame : some next = s.gCurrent := by
        by_contra hne
        exact hidle hq ⟨next, hnext, Ne.symm hne⟩
      rw [if_pos hsame] at h1
      obtain ⟨rfl, rfl⟩ := Prod.mk.inj (Except.ok.inj h1)
      exact ⟨rfl, rfl⟩
  obtain ⟨rfl, rfl⟩ := hnone
  dsimp only at h
  rw [timerFor]
  split_ifs at h ⊢
  all_goals
    obtain rfl := Except.ok.inj h
    exact ⟨rfl, .inl rfl⟩

theorem schedArmTimer_contended (hq : s.gQuantumNs ≠ 0) (hcontended : s.Contended)
    (h : s.schedArmTimer now = .ok s') :
    s'.gSliceEndNs = (s.renewSlice now).gSliceEndNs ∧
      s'.timer = timerFor (if s.timerqNextDeadline = 0 ∨ (s.renewSlice now).gSliceEndNs < s.timerqNextDeadline
        then (s.renewSlice now).gSliceEndNs else s.timerqNextDeadline) now := by
  obtain ⟨next, hnext, hne⟩ := hcontended
  rw [schedArmTimer, if_neg fun hstop => hq hstop.1] at h
  obtain ⟨⟨s1, deadline⟩, h1, h⟩ := bind_eq_ok h
  rw [schedNextDeadline, if_neg hq] at h1
  obtain ⟨next', hnext', h1⟩ := bind_eq_ok h1
  obtain rfl := Except.ok.inj (hnext.symm.trans hnext')
  rw [if_neg (Ne.symm hne)] at h1
  obtain ⟨rfl, rfl⟩ := Prod.mk.inj (Except.ok.inj h1)
  dsimp only at h
  rw [timerFor]
  split_ifs at h ⊢
  all_goals
    obtain rfl := Except.ok.inj h
    exact ⟨rfl, rfl⟩

theorem schedArmTimer_pickNext (hq : s.gQuantumNs ≠ 0) (h : s.schedArmTimer now = .ok s') :
    ∃ next, s.pickNext = .ok next := by
  rw [schedArmTimer, if_neg fun hstop => hq hstop.1] at h
  obtain ⟨r, h1, -⟩ := bind_eq_ok h
  rw [schedNextDeadline, if_neg hq] at h1
  obtain ⟨next, hnext, -⟩ := bind_eq_ok h1
  exact ⟨next, hnext⟩

/-- Unless the slice wraps, arming the timer does not lose the first event. `W` says whether the
threads let a slice run. -/
theorem schedArmTimer_armed {W : Prop}
    (hwaiting : ∀ next, s.pickNext = .ok next → (s.gCurrent ≠ some next ↔ W))
    (hdeadline : s.gHead ≠ none → s.timerqNextDeadline ≠ 0) (h : s.schedArmTimer now = .ok s') :
    s'.Armed now ↔ s.gHead = none ∨ ¬(W ∧ s.SliceOver now ∧ Wraps s.gQuantumNs now) := by
  have hrearmed := schedArmTimer_rearmed h
  by_cases hhead : s.gHead = none
  · obtain ⟨e, c, rfl⟩ := hrearmed
    exact iff_of_true (.of_head hhead) (.inl hhead)
  have hpending := hdeadline hhead
  rw [or_iff_right hhead]
  by_cases hslice : s.gQuantumNs ≠ 0 ∧ s.Contended
  · obtain ⟨hq, hcontended⟩ := hslice
    have hwait : W := by
      obtain ⟨next, hnext, hne⟩ := hcontended
      exact (hwaiting next hnext).mp hne
    have htimer := (schedArmTimer_contended hq hcontended h).2
    have hzero := renewSlice_eq_zero s hq now
    generalize (s.renewSlice now).gSliceEndNs = e at htimer hzero
    have hmin : ((if s.timerqNextDeadline = 0 ∨ e < s.timerqNextDeadline then e
        else s.timerqNextDeadline) = 0 ↔ e = 0) ∧
        (if s.timerqNextDeadline = 0 ∨ e < s.timerqNextDeadline then e else s.timerqNextDeadline) ≤
          s.timerqNextDeadline := by
      split_ifs with hearlier
      · exact ⟨Iff.rfl, BitVec.le_of_lt (hearlier.resolve_left hpending)⟩
      · refine ⟨iff_of_false hpending fun he => hearlier (.inr ?_), BitVec.le_refl _⟩
        rw [he]
        bv_omega
    rw [hrearmed.armed_iff htimer hmin.2 hhead, Ne, hmin.1, hzero, and_iff_right hwait]
  · have htimer := (schedArmTimer_idle (fun hq hc => hslice ⟨hq, hc⟩) h).1
    rw [hrearmed.armed_iff htimer (BitVec.le_refl _) hhead]
    apply iff_of_true hpending
    rintro ⟨hwait, -, hq, -⟩
    obtain ⟨next, hnext⟩ := schedArmTimer_pickNext hq h
    exact hslice ⟨hq, next, hnext, (hwaiting next hnext).mpr hwait⟩

def link (s : Kernel T E) (current t : T) : Kernel T E :=
  (s.setNext t (s.thread current).next).setNext current t

omit [Fintype T] in
theorem pickLoop_closed {S : Set T}
    (hS : ∀ u ∈ S, u ≠ current ∧ ∃ v ∈ S, (s.thread u).next = some v) {n : ℕ} {next : T}
    (ht : t ∈ S) (h : s.pickLoop current n (some t) = .ok next) :
    next ∈ S ∧ (s.thread next).state = .ready := by
  induction n generalizing t with
  | zero => exact absurd h (by simp [pickLoop])
  | succ n ih =>
    obtain ⟨hne, v, hv, hnext⟩ := hS t ht
    rw [pickLoop] at h
    by_cases hready : (s.thread t).state = .ready
    · rw [if_neg fun hc => hc.2 hready] at h
      exact Except.ok.inj h ▸ ⟨ht, hready⟩
    · rw [if_pos ⟨hne, hready⟩, hnext] at h
      exact ih hv h

omit [Fintype T] in
theorem pickLoop_current {n : ℕ} {next : T} (h : s.pickLoop current n (some current) = .ok next) :
    next = current := by
  cases n with
  | zero => exact absurd h (by simp [pickLoop])
  | succ n =>
    rw [pickLoop, if_neg fun hc => hc.1 rfl] at h
    exact (Except.ok.inj h).symm

theorem pickNext_cases {next : T} (hcurrent : s.gCurrent = some current) (h : s.pickNext = .ok next) :
    ∃ t, s.pickLoop current (Fintype.card T) (s.thread current).next = .ok t ∧
      next = if (s.thread t).state = .ready then t else current := by
  rw [pickNext, hcurrent] at h
  obtain ⟨t, ht, h⟩ := bind_eq_ok h
  exact ⟨t, ht, (Except.ok.inj h).symm⟩

theorem OnRing.link_pickNext (h : s.OnRing current others) (t : T) {next : T}
    (hnext : (s.link current t).pickNext = .ok next) :
    (s.link current t).gCurrent ≠ some next ↔
      s.gCurrent ≠ some t ∧ ((s.thread t).state = .ready ∨ s.Waiting) := by
  have hcurrent : (s.link current t).gCurrent = some current := h.current_eq
  by_cases hmem : t ∈ current :: others
  swap
  · have hlinked : (s.link current t).OnRing current (t :: others) := by
      refine ⟨h.current_eq, (h.ring.insert hmem).congr ?_⟩
      intro u _
      simp only [link, setNext_next, Function.update_apply]
    rw [hlinked.pickNext_iff hnext, hlinked.waiting_iff, h.waiting_iff, h.current_eq]
    have hne : some current ≠ some t := by
      rintro hcurrent
      exact hmem (Option.some.inj hcurrent ▸ List.mem_cons_self)
    simp [link, hne]
  obtain ⟨u, hloop, hnext⟩ := pickNext_cases hcurrent hnext
  have hfirst : ((s.link current t).thread current).next = some t := by
    simp [link]
  rw [hfirst] at hloop
  obtain rfl | hmem := List.mem_cons.mp hmem
  · obtain rfl := pickLoop_current hloop
    rw [ite_self] at hnext
    rw [hnext, hcurrent, h.current_eq]
    exact iff_of_false (not_not.mpr rfl) fun hw => hw.1 rfl
  · obtain ⟨as, bs, rfl⟩ := List.append_of_mem hmem
    have hnodup := (List.nodup_cons.mp h.ring.nodup).1
    have hsub : ∀ {v}, v ∈ as ++ [t] → v ∈ as ++ t :: bs := by
      intro v hv
      rw [List.append_cons]
      exact List.mem_append_left _ hv
    have hclosed : ∀ v ∈ {v | v ∈ as ++ [t]}, v ≠ current ∧
        ∃ w ∈ {v | v ∈ as ++ [t]}, ((s.link current t).thread v).next = some w := by
      intro v hv
      have hne : v ≠ current := ne_of_mem_of_not_mem (hsub hv) hnodup
      refine ⟨hne, ?_⟩
      simp only [link, setNext_next, if_neg hne]
      split_ifs with hvt
      · exact h.ring.next_before List.mem_cons_self
      · apply h.ring.next_before
        have := (List.mem_append.mp hv).resolve_right fun hm => hvt (List.mem_singleton.mp hm)
        exact List.mem_cons_of_mem _ this
    obtain ⟨hu, hready⟩ := pickLoop_closed hclosed (List.mem_append_right _ List.mem_cons_self) hloop
    rw [if_pos hready] at hnext
    rw [hnext, hcurrent, h.current_eq, h.waiting_iff]
    apply iff_of_true
    · intro heq
      exact (hclosed u hu).1 (Option.some.inj heq).symm
    · refine ⟨fun heq => hnodup (Option.some.inj heq ▸ hmem), .inr ⟨u, hsub hu, ?_⟩⟩
      simpa [link] using hready

inductive Entry (T : Type)
  | add (t : T)
  | start
  | setQuantumNs (ns : U64)
  | onTick (fuel : ℕ) (frame : IsrFrame) (now : U64)

variable [DecidableEq E]

/-- `now'` is the reading of the clock in `sched_arm_timer`. -/
def enter (callback : U64 → U64 → Kernel T E → Kernel T E) (s : Kernel T E) (now' : U64) :
    Entry T → Except Fault (Kernel T E)
  | .add t => s.schedAdd t now'
  | .start => s.schedStart now'
  | .setQuantumNs ns => s.schedSetQuantumNs ns now'
  | .onTick fuel frame now => do
    let (s, _) ← s.schedOnTick callback fuel frame now now'
    return s

def serve (callback : U64 → U64 → Kernel T E → Kernel T E) (s : Kernel T E) :
    Entry T → Except Fault (Kernel T E)
  | .onTick fuel _ now => s.timerqRunExpired callback now fuel
  | _ => .ok s

def Stops (s : Kernel T E) (now' : U64) : Entry T → Prop
  | .add t => (s.gCurrent ≠ some t ∧ ((s.thread t).state = .ready ∨ s.Waiting)) ∧
      Wraps s.gQuantumNs now'
  | .start => s.Waiting ∧ s.SliceOver now' ∧ Wraps s.gQuantumNs now'
  | .setQuantumNs ns => ns = 0 ∨ s.Waiting ∧ s.SliceOver now' ∧ Wraps (ns.setWidth 32) now'
  | .onTick _ frame now => s.Waiting ∧ (s.SliceOver now' ∨ frame.cs &&& 3 = 3 ∧ s.SliceOver now) ∧
      Wraps s.gQuantumNs now'

variable {callback : U64 → U64 → Kernel T E → Kernel T E} {fuel : ℕ} {now' : U64}

inductive Arms (callback : U64 → U64 → Kernel T E → Kernel T E) (s : Kernel T E) :
    Entry T → Kernel T E → Prop
  | add {t current : T} : s.gCurrent = some current →
      Arms callback s (.add t) { s.link current t with gSliceEndNs := 0 }
  | start : Arms callback s .start s
  | setQuantumNs {ns : U64} : ns ≠ 0 →
      Arms callback s (.setQuantumNs ns) { s with gQuantumNs := ns.setWidth 32 }
  | onTick {fuel : ℕ} {frame : IsrFrame} {now : U64} {s1 : Kernel T E} : s.gCurrent ≠ none →
      s.timerqRunExpired callback now fuel = .ok s1 →
      frame.cs &&& 3 ≠ 3 ∨ s1.gSliceEndNs = 0 ∨ now < s1.gSliceEndNs →
      Arms callback s (.onTick fuel frame now) s1
  | onSliceEnd {fuel : ℕ} {frame frame' : IsrFrame} {now : U64} {s1 s2 : Kernel T E} :
      s.gCurrent ≠ none → s.timerqRunExpired callback now fuel = .ok s1 →
      frame.cs &&& 3 = 3 → ¬(s1.gSliceEndNs = 0 ∨ now < s1.gSliceEndNs) →
      s1.reschedule frame = .ok (s2, frame') →
      Arms callback s (.onTick fuel frame now) { s2 with gSliceEndNs := 0 }

def Idles (s : Kernel T E) : Entry T → Kernel T E → Prop
  | .add t, s' => s.gCurrent = none ∧ s' = s.schedInit t
  | .onTick _ _ _, s' => s.gCurrent = none ∧ s' = s
  | .setQuantumNs ns, s' => ns = 0 ∧ s' = { s with gQuantumNs := 0, timer := .stop }
  | .start, _ => False

theorem enter_cases {c : Entry T} (h : s.enter callback now' c = .ok s') :
    Idles s c s' ∨ ∃ a, Arms callback s c a ∧ a.schedArmTimer now' = .ok s' := by
  cases c with
  | start => exact .inr ⟨s, .start, h⟩
  | add t =>
    rw [enter, schedAdd] at h
    cases hcurrent : s.gCurrent with
    | none =>
      rw [hcurrent] at h
      exact .inl ⟨hcurrent, (Except.ok.inj h).symm⟩
    | some current =>
      rw [hcurrent] at h
      exact .inr ⟨_, .add hcurrent, h⟩
  | setQuantumNs ns =>
    rw [enter, schedSetQuantumNs] at h
    by_cases hns : ns = 0
    · rw [if_pos hns] at h
      subst hns
      exact .inl ⟨rfl, (Except.ok.inj h).symm⟩
    · rw [if_neg hns] at h
      exact .inr ⟨_, .setQuantumNs hns, h⟩
  | onTick fuel frame now =>
    obtain ⟨⟨s2, frame'⟩, htick, h⟩ := bind_eq_ok h
    obtain rfl := Except.ok.inj h
    by_cases hcurrent : s.gCurrent = none
    · rw [schedOnTick, if_pos hcurrent] at htick
      exact .inl ⟨hcurrent, (Prod.mk.inj (Except.ok.inj htick)).1.symm⟩
    · obtain ⟨hnone, -, -⟩ | ⟨s1, h1, hbranch⟩ := schedOnTick_cases htick
      · exact absurd hnone hcurrent
      · obtain ⟨hkeep, harm, -⟩ | ⟨huser, hover, s3, hres, harm⟩ := hbranch
        · exact .inr ⟨s1, .onTick hcurrent h1 hkeep, harm⟩
        · exact .inr ⟨_, .onSliceEnd hcurrent h1 huser hover hres, harm⟩

omit [DecidableEq T] [Fintype T] in
theorem PendingEvent.of_pop {head ev : E} (hhead : s.gHead = some head)
    (h : (s.timerqPop head).PendingEvent ev) : s.PendingEvent ev := by
  obtain ⟨first, hfirst, hreach⟩ := h
  have hlink {a b : E} (hab : ((s.timerqPop head).event a).next = some b) : (s.event a).next = some b := by
    rw [timerqPop_next] at hab
    split_ifs at hab with ha
    exact hab
  exact ⟨head, hhead, .head hfirst (ReflTransGen.mono (fun a b => hlink) _ _ hreach)⟩

omit [DecidableEq T] [Fintype T] in
theorem Sound.pop (h : s.Sound) {head : E} (hhead : s.gHead = some head) : (s.timerqPop head).Sound where
  ring := by
    obtain ⟨current, others, hring⟩ := h.ring
    exact ⟨current, others, hring.current_eq, hring.ring⟩
  deadline := by
    intro ev hev
    rw [timerqPop_deadlineNs]
    exact h.deadline ev (hev.of_pop hhead)

omit [DecidableEq T] [Fintype T] in
theorem Sound.serve (h : s.Sound) (hcb : KeepsSound callback) {c : Entry T}
    (hserve : s.serve callback c = .ok s') : s'.Sound := by
  cases c with
  | onTick fuel frame now =>
    exact timerqRunExpired_invariant (fun s ev hhead hs => hs.pop hhead) hcb hserve h
  | add t => exact Except.ok.inj hserve ▸ h
  | start => exact Except.ok.inj hserve ▸ h
  | setQuantumNs ns => exact Except.ok.inj hserve ▸ h

omit [DecidableEq E] in
theorem reschedule_keeps {β : Type} (field : Kernel T E → β)
    (hset : ∀ s t th, field (s.setThread t th) = field s)
    (hswitch : ∀ (s : Kernel T E) current next, field (s.switchTo current next) = field s)
    {frame frame' : IsrFrame} (h : s.reschedule frame = .ok (s', frame')) : field s' = field s := by
  obtain ⟨current, next, -, -, ⟨-, rfl, -⟩ | ⟨-, rfl, -⟩⟩ := reschedule_cases h
  · exact hset _ _ _
  · exact (hswitch _ _ _).trans (hset _ _ _)

omit [DecidableEq E] in
theorem reschedule_pickNext (h : s.OnRing current others) {frame frame' : IsrFrame}
    (hres : s.reschedule frame = .ok (s', frame')) :
    (∃ current' others', s'.OnRing current' others') ∧ (s'.Waiting ↔ s.Waiting) := by
  have hsaved := h.setFrame current frame
  have hwaiting := h.waiting_setFrame current frame
  obtain ⟨c, next, hc, hnext, ⟨-, rfl, -⟩ | ⟨hne, rfl, -⟩⟩ := reschedule_cases hres
  all_goals obtain rfl := Option.some.inj (hc.symm.trans h.current_eq)
  · exact ⟨⟨_, _, hsaved⟩, hwaiting⟩
  · have hsome : (s.setFrame c frame).gCurrent ≠ some next := by
      rw [hsaved.current_eq]
      exact fun heq => hne (Option.some.inj heq).symm
    obtain ⟨n, hmem, hn⟩ := hsaved.pickNext_mem
    obtain rfl := Except.ok.inj (hn.symm.trans hnext)
    obtain ⟨others', hring', hperm⟩ := hsaved.switchTo ((List.mem_cons.mp hmem).resolve_left hne)
    have hcurrent : c ∈ others' :=
      (List.mem_cons.mp (hperm.mem_iff.mpr List.mem_cons_self)).resolve_left (Ne.symm hne)
    refine ⟨⟨_, _, hring'⟩, iff_of_true ?_ (hwaiting.mp ((hsaved.pickNext_iff hnext).mp hsome))⟩
    rw [hring'.waiting_iff]
    refine ⟨c, hcurrent, ?_⟩
    rw [switchTo_state, if_neg (Ne.symm hne), if_pos rfl]

omit [DecidableEq T] [Fintype T] [DecidableEq E] in
theorem keptSlice_over {frame : IsrFrame} (h : frame.cs &&& 3 ≠ 3 ∨ s.gSliceEndNs = 0 ∨ now < s.gSliceEndNs) :
    s.SliceOver now' ∨ frame.cs &&& 3 = 3 ∧ s.SliceOver now ↔ s.SliceOver now' := by
  apply or_iff_left_of_imp
  rintro ⟨huser, hover⟩
  obtain hkernel | hzero | hlater := h
  · exact absurd huser hkernel
  · exact .inl hzero
  · exact .inl (hover.resolve_right (BitVec.not_le.mpr hlater))

omit [DecidableEq E] in
theorem sliceEnd_armed (hsound : s.Sound) {s1 : Kernel T E} {frame frame' : IsrFrame}
    (hres : s.reschedule frame = .ok (s1, frame'))
    (harm : { s1 with gSliceEndNs := 0 }.schedArmTimer now = .ok s') :
    s'.Armed now ↔ s.gHead = none ∨ ¬(s.Waiting ∧ Wraps s.gQuantumNs now) := by
  obtain ⟨current, others, hring⟩ := hsound.ring
  obtain ⟨⟨current', others', hring1⟩, hwaiting⟩ := reschedule_pickNext hring hres
  have hhead : s1.gHead = s.gHead := reschedule_keeps gHead (fun _ _ _ => rfl) (fun _ _ _ => rfl) hres
  have hevent : s1.event = s.event := reschedule_keeps event (fun _ _ _ => rfl) (fun _ _ _ => rfl) hres
  have hquantum : s1.gQuantumNs = s.gQuantumNs :=
    reschedule_keeps gQuantumNs (fun _ _ _ => rfl) (fun _ _ _ => rfl) hres
  have hdeadline : s1.gHead ≠ none → s1.timerqNextDeadline ≠ 0 := by
    rw [timerqNextDeadline, hhead, hevent]
    exact hsound.head
  have hover : SliceOver { s1 with gSliceEndNs := 0 } now := .inl rfl
  have hended : OnRing { s1 with gSliceEndNs := 0 } current' others' := ⟨hring1.current_eq, hring1.ring⟩
  rw [schedArmTimer_armed (fun _ => hended.pickNext_iff) hdeadline harm, and_iff_right hover]
  dsimp only
  rw [hhead, hquantum, ← hwaiting]
  rfl

/-- Exactly the calls that `Stops` tells leave an event waiting with no timer armed for it. -/
theorem pending_armed (hcb : KeepsSound callback) (hsound : s.Sound) (c : Entry T)
    (h : s.enter callback now' c = .ok s') :
    ∃ s1, s.serve callback c = .ok s1 ∧ (s'.Armed now' ↔ s1.gHead = none ∨ ¬s1.Stops now' c) := by
  obtain ⟨current, others, hring⟩ := hsound.ring
  have hsome : s.gCurrent ≠ none := by simp [hring.current_eq]
  obtain hidle | ⟨a, harms, harm⟩ := enter_cases h
  · cases c with
    | add t => exact absurd hidle.1 hsome
    | start => exact hidle.elim
    | onTick fuel frame now => exact absurd hidle.1 hsome
    | setQuantumNs ns =>
      obtain ⟨hns, rfl⟩ := hidle
      refine ⟨s, rfl, ?_⟩
      constructor
      · intro harmed
        by_contra hnot
        obtain ⟨ns, hstop, -⟩ := harmed (not_or.mp hnot).1
        exact absurd hstop (by simp)
      · exact fun hcond => .of_head (hcond.resolve_right fun hnot => hnot (.inl hns))
  · cases harms with
    | start => exact ⟨s, rfl, schedArmTimer_armed (fun _ => hring.pickNext_iff) hsound.head harm⟩
    | @add t current hcurrent =>
      obtain rfl := Option.some.inj (hcurrent.symm.trans hring.current_eq)
      refine ⟨s, rfl, ?_⟩
      have hpick : Kernel.pickNext { s.link current t with gSliceEndNs := 0 } = (s.link current t).pickNext :=
        pickNext_congr rfl rfl
      have harmed := schedArmTimer_armed (s := { s.link current t with gSliceEndNs := 0 })
        (fun next hnext => hring.link_pickNext t (hpick.symm.trans hnext)) hsound.head harm
      rw [harmed, Stops, and_iff_right (show SliceOver _ now' from .inl rfl)]
      rfl
    | @setQuantumNs ns hns =>
      refine ⟨s, rfl, ?_⟩
      have hset : OnRing { s with gQuantumNs := ns.setWidth 32 } current others := ⟨hring.current_eq, hring.ring⟩
      rw [Stops, or_iff_right hns]
      exact schedArmTimer_armed (fun _ => hset.pickNext_iff) hsound.head harm
    | @onTick fuel frame now _ _ h1 hkeep =>
      refine ⟨a, h1, ?_⟩
      have hserved : a.Sound := hsound.serve (c := .onTick fuel frame now) hcb h1
      obtain ⟨current, others, hring1⟩ := hserved.ring
      rw [Stops, keptSlice_over hkeep]
      exact schedArmTimer_armed (fun _ => hring1.pickNext_iff) hserved.head harm
    | @onSliceEnd fuel frame frame' now s1 s2 _ h1 huser hover hres =>
      refine ⟨s1, h1, ?_⟩
      have hserved : s1.Sound := hsound.serve (c := .onTick fuel frame now) hcb h1
      have hpast : s1.SliceOver now' ∨ frame.cs &&& 3 = 3 ∧ s1.SliceOver now := by
        obtain ⟨-, hended⟩ := not_or.mp hover
        exact .inr ⟨huser, .inr (BitVec.not_lt.mp hended)⟩
      rw [Stops, and_iff_right hpast]
      exact sliceEnd_armed hserved hres harm

theorem twoQueued_sound : twoQueued.Sound where
  ring := by
    refine ⟨0, [1], by decide +kernel, IsRing.of_links (by decide) ?_⟩
    decide +kernel
  deadline := by
    have hall : ∀ ev, (twoQueued.event ev).deadlineNs ≠ 0 := by decide +kernel
    exact fun ev _ => hall ev

theorem pending_armed_twoQueued :
    ∃ s1, twoQueued.serve (fun _ _ s => s) .start = .ok s1 ∧
      ((returned twoQueued (twoQueued.enter (fun _ _ s => s) 200 .start)).Armed 200 ↔
        s1.gHead = none ∨ ¬s1.Stops 200 .start) := by
  have hok : (twoQueued.enter (fun _ _ s => s) 200 .start).isOk := by decide +kernel
  exact pending_armed (fun _ _ _ hs => hs) twoQueued_sound .start (ok_returned hok)

theorem quantum_zero_stops :
    twoQueued.Sound ∧ ∃ s', twoQueued.enter (fun _ _ s => s) 200 (.setQuantumNs 0) = .ok s' ∧
      s'.gHead ≠ none ∧ s'.timer = .stop ∧ ¬s'.Armed 200 := by
  have hhead : twoQueued.gHead ≠ none := by decide +kernel
  refine ⟨twoQueued_sound, _, rfl, hhead, rfl, ?_⟩
  intro harmed
  obtain ⟨ns, hns, -⟩ := harmed hhead
  exact absurd hns (by simp)

end Kernel

end Mcincos
