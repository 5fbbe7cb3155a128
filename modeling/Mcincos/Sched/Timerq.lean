import Mcincos.Sched.Kernel

namespace Mcincos

namespace Kernel

variable {T E : Type} [DecidableEq E]

/-- What a `timer_event_t **` points to: `none` is `&g_head`, `some ev` is `&ev->next`. -/
def timerqLink (s : Kernel T E) : Option E → Option E
  | none => s.gHead
  | some ev => (s.event ev).next

def setTimerqLink (s : Kernel T E) (pp : Option E) (ev : Option E) : Kernel T E :=
  match pp with
  | none => { s with gHead := ev }
  | some p => { s with event := Function.update s.event p { s.event p with next := ev } }

/-- The loop of `timerq_insert`, from the slot `pp` on. A queue that has not ended after as many steps
as there are events never ends. -/
def timerqInsertLoop (s : Kernel T E) (deadlineNs : U64) : ℕ → Option E → Except Fault (Option E)
  | fuel, pp =>
    match s.timerqLink pp with
    | none => .ok pp
    | some ev =>
      if (s.event ev).deadlineNs ≤ deadlineNs then
        match fuel with
        | 0 => .error .endlessTimers
        | fuel + 1 => s.timerqInsertLoop deadlineNs fuel (some ev)
      else .ok pp

def timerqInsert [Fintype E] (s : Kernel T E) (ev : E) : Except Fault (Kernel T E) := do
  let pp ← s.timerqInsertLoop (s.event ev).deadlineNs (Fintype.card E) none
  let s := s.setTimerqLink (some ev) (s.timerqLink pp)
  return s.setTimerqLink pp (some ev)

def timerqNextDeadline (s : Kernel T E) : U64 := (s.gHead.map fun ev => (s.event ev).deadlineNs).getD 0

def PendingEvent (s : Kernel T E) (ev : E) : Prop :=
  ∃ head, s.gHead = some head ∧
    Relation.ReflTransGen (fun a b => (s.event a).next = some b) head ev

def timerqRunHead (callback : U64 → U64 → Kernel T E → Kernel T E) (now : U64) (s : Kernel T E) :
    Option (Kernel T E) :=
  match s.gHead with
  | none => none
  | some ev =>
    if (s.event ev).deadlineNs ≤ now then
      let s := { s with
        gHead := (s.event ev).next
        event := Function.update s.event ev { s.event ev with next := none } }
      some (if (s.event ev).cb = 0 then s else callback (s.event ev).cb (s.event ev).arg s)
    else none

def timerqRunExpired (callback : U64 → U64 → Kernel T E → Kernel T E) (now : U64) :
    ℕ → Kernel T E → Except Fault (Kernel T E)
  | 0, s => if (s.timerqRunHead callback now).isNone then .ok s else .error .endlessTimers
  | fuel + 1, s =>
    match s.timerqRunHead callback now with
    | none => .ok s
    | some s' => timerqRunExpired callback now fuel s'

variable {callback : U64 → U64 → Kernel T E → Kernel T E} {now : U64} {fuel : ℕ} {s s' : Kernel T E}

def timerqPop (s : Kernel T E) (ev : E) : Kernel T E :=
  { s with
    gHead := (s.event ev).next
    event := Function.update s.event ev { s.event ev with next := none } }

theorem timerqPop_event (s : Kernel T E) (head ev : E) : (s.timerqPop head).event ev =
    if ev = head then { s.event head with next := none } else s.event ev :=
  Function.update_apply _ _ _ _

@[simp] theorem timerqPop_deadlineNs (s : Kernel T E) (head ev : E) :
    ((s.timerqPop head).event ev).deadlineNs = (s.event ev).deadlineNs := by
  rw [timerqPop_event]
  split_ifs with hev
  · rw [hev]
  · rfl

@[simp] theorem timerqPop_next (s : Kernel T E) (head ev : E) :
    ((s.timerqPop head).event ev).next = if ev = head then none else (s.event ev).next := by
  rw [timerqPop_event]
  split_ifs <;> rfl

def expire (callback : U64 → U64 → Kernel T E → Kernel T E) (s : Kernel T E) (ev : E) : Kernel T E :=
  if (s.event ev).cb = 0 then s.timerqPop ev else callback (s.event ev).cb (s.event ev).arg (s.timerqPop ev)

theorem timerqRunHead_due {ev : E} (hhead : s.gHead = some ev) (hdue : (s.event ev).deadlineNs ≤ now) :
    s.timerqRunHead callback now = some (s.expire callback ev) := by
  unfold timerqRunHead
  rw [hhead]
  simp only [if_pos hdue, Function.update_self]
  rfl

theorem timerqRunHead_later (hlater : ∀ ev, s.gHead = some ev → now < (s.event ev).deadlineNs) :
    s.timerqRunHead callback now = none := by
  unfold timerqRunHead
  cases hhead : s.gHead with
  | none => rfl
  | some ev =>
    dsimp only
    rw [if_neg (BitVec.not_le.mpr (hlater ev hhead))]

theorem timerqRunHead_cases (h : s.timerqRunHead callback now = some s') :
    ∃ ev, s.gHead = some ev ∧ (s.event ev).deadlineNs ≤ now ∧ s' = s.expire callback ev := by
  by_cases hdue : ∃ ev, s.gHead = some ev ∧ (s.event ev).deadlineNs ≤ now
  · obtain ⟨ev, hhead, hdue⟩ := hdue
    exact ⟨ev, hhead, hdue, Option.some.inj (h.symm.trans (timerqRunHead_due hhead hdue))⟩
  · have hnone : s.timerqRunHead callback now = none :=
      timerqRunHead_later fun ev hhead => BitVec.not_le.mp fun hle => hdue ⟨ev, hhead, hle⟩
    exact absurd (h.symm.trans hnone) (by simp)

theorem timerqRunExpired_later (hlater : ∀ ev, s.gHead = some ev → now < (s.event ev).deadlineNs) :
    s.timerqRunExpired callback now fuel = .ok s := by
  cases fuel with
  | zero =>
    rw [timerqRunExpired, timerqRunHead_later hlater]
    rfl
  | succ fuel => rw [timerqRunExpired, timerqRunHead_later hlater]

theorem timerqRunExpired_due {ev : E} (hhead : s.gHead = some ev) (hdue : (s.event ev).deadlineNs ≤ now) :
    s.timerqRunExpired callback now (fuel + 1) = (s.expire callback ev).timerqRunExpired callback now fuel := by
  rw [timerqRunExpired, timerqRunHead_due hhead hdue]

theorem timerqRunExpired_invariant {P : Kernel T E → Prop}
    (hpop : ∀ s ev, s.gHead = some ev → P s → P (s.timerqPop ev))
    (hcallback : ∀ cb arg s, P s → P (callback cb arg s))
    (h : s.timerqRunExpired callback now fuel = .ok s') (hs : P s) : P s' := by
  have hround {s s' : Kernel T E} (h : s.timerqRunHead callback now = some s') (hs : P s) : P s' := by
    obtain ⟨ev, hhead, -, rfl⟩ := timerqRunHead_cases h
    unfold expire
    split_ifs
    · exact hpop s ev hhead hs
    · exact hcallback _ _ _ (hpop s ev hhead hs)
  induction fuel generalizing s with
  | zero =>
    unfold timerqRunExpired at h
    split_ifs at h
    exact Except.ok.inj h ▸ hs
  | succ fuel ih =>
    unfold timerqRunExpired at h
    cases hhead : s.timerqRunHead callback now with
    | none =>
      rw [hhead] at h
      exact Except.ok.inj h ▸ hs
    | some s1 =>
      rw [hhead] at h
      exact ih h (hround hhead hs)

theorem timerqRunExpired_induction {P : Kernel T E → Prop}
    (hqueue : ∀ s gHead event, P s → P { s with gHead, event })
    (hcallback : ∀ cb arg s, P s → P (callback cb arg s))
    (h : s.timerqRunExpired callback now fuel = .ok s') (hs : P s) : P s' :=
  timerqRunExpired_invariant (fun s _ _ => hqueue s _ _) hcallback h hs

theorem timerqRunExpired_error {e : Fault} (h : s.timerqRunExpired callback now fuel = .error e) :
    e = .endlessTimers := by
  induction fuel generalizing s with
  | zero =>
    unfold timerqRunExpired at h
    split_ifs at h
    exact (Except.error.inj h).symm
  | succ fuel ih =>
    unfold timerqRunExpired at h
    cases hhead : s.timerqRunHead callback now with
    | none =>
      rw [hhead] at h
      exact absurd h (by simp)
    | some s1 =>
      rw [hhead] at h
      exact ih h

end Kernel

end Mcincos
