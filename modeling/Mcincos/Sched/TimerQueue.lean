import Mcincos.Library.LinkedList
import Mcincos.Library.StableQueue
import Mcincos.Sched.Steps

namespace Mcincos

open LinkedList StableQueue

inductive TimerAction (E : Type)
  | insert (t : E × U64)
  | fire (t : E × U64)

section Histories

variable {E : Type} [DecidableEq E]

def dueAt (t : E × U64) : ℕ := t.2.toNat

def pending (log : List (TimerAction E)) : List (E × U64) :=
  log.foldl (fun ts action =>
    match action with
    | .insert t => ts ++ [t]
    | .fire t => ts.erase t) []

def fired (log : List (TimerAction E)) : List (E × U64) :=
  log.filterMap fun action =>
    match action with
    | .insert _ => none
    | .fire t => some t

theorem pending_insert (log : List (TimerAction E)) (t : E × U64) :
    pending (log ++ [.insert t]) = pending log ++ [t] := by
  rw [pending, List.foldl_append]
  rfl

theorem pending_round (log : List (TimerAction E)) (t : E × U64) (ins : List (E × U64)) :
    pending (log ++ .fire t :: ins.map .insert) = (pending log).erase t ++ ins := by
  induction ins using List.reverseRecOn with
  | nil =>
    rw [pending, List.foldl_append]
    exact (List.append_nil _).symm
  | append_singleton ins t' ih =>
    rw [List.map_append, ← List.cons_append, ← List.append_assoc, List.map_singleton, pending_insert, ih,
      List.append_assoc]

omit [DecidableEq E] in
theorem fired_inserts (ins : List (E × U64)) (log : List (TimerAction E)) :
    fired (ins.map .insert ++ log) = fired log := by
  rw [fired, List.filterMap_append]
  simp [fired, List.filterMap_map]

end Histories

namespace Kernel

variable {T E : Type}

structure Queue (s : Kernel T E) (q : List (E × U64)) : Prop where
  links : IsList s.timerqLink none (q.map Prod.fst)
  deadline : ∀ t ∈ q, (s.event t.1).deadlineNs = t.2

structure SameQueue (s s' : Kernel T E) : Prop where
  head : s'.gHead = s.gHead
  event : ∀ ev, s.PendingEvent ev → s'.event ev = s.event ev

variable {s s' : Kernel T E} {q : List (E × U64)} {t : E × U64} {ev : E}

theorem Queue.pendingEvent_iff (h : s.Queue q) : s.PendingEvent ev ↔ ev ∈ q.map Prod.fst :=
  h.links.mem_iff.symm

theorem Queue.same (h : s.Queue q) (hs : SameQueue s s') : s'.Queue q where
  links := by
    refine h.links.move hs.head fun ev hev => ?_
    exact congrArg TimerEvent.next (hs.event ev (h.pendingEvent_iff.mpr hev))
  deadline := by
    intro t ht
    rw [hs.event t.1 (h.pendingEvent_iff.mpr (List.mem_map_of_mem ht))]
    exact h.deadline t ht

theorem Queue.head_eq (h : s.Queue q) : s.gHead = (q.map Prod.fst).head? := h.links.head_eq

variable [DecidableEq E]

theorem setTimerqLink_timerqLink (s : Kernel T E) (pp ev : Option E) :
    (s.setTimerqLink pp ev).timerqLink = Function.update s.timerqLink pp ev := by
  funext p
  cases pp with
  | none => cases p <;> simp [setTimerqLink, timerqLink]
  | some e =>
    cases p with
    | none => simp [setTimerqLink, timerqLink]
    | some e' =>
      simp only [setTimerqLink, timerqLink, Function.update_apply, Option.some.injEq]
      split_ifs <;> rfl

@[simp] theorem setTimerqLink_deadlineNs (s : Kernel T E) (pp link : Option E) (ev : E) :
    ((s.setTimerqLink pp link).event ev).deadlineNs = (s.event ev).deadlineNs := by
  cases pp with
  | none => rfl
  | some e =>
    simp only [setTimerqLink, Function.update_apply]
    split_ifs with hev
    · rw [hev]
    · rfl

theorem Queue.pop (h : s.Queue (t :: q)) : (s.timerqPop t.1).Queue q where
  links := by
    refine h.links.2.move rfl fun ev hev => ?_
    have hne : ev ≠ t.1 := fun heq => (List.nodup_cons.mp h.links.nodup).1 (heq ▸ hev)
    exact (timerqPop_next s t.1 ev).trans (if_neg hne)
  deadline := by
    intro t' ht'
    rw [timerqPop_deadlineNs]
    exact h.deadline t' (List.mem_cons_of_mem t ht')

omit [DecidableEq E] in
theorem timerqInsertLoop_eq (deadlineNs : U64) {pp : Option E} {fuel : ℕ}
    (hlinks : IsList s.timerqLink pp (q.map Prod.fst))
    (hdeadline : ∀ t ∈ q, (s.event t.1).deadlineNs = t.2) (hfuel : q.length ≤ fuel) :
    s.timerqInsertLoop deadlineNs fuel pp =
      .ok (lastSlot pp ((q.takeWhile (dueAt · ≤ deadlineNs.toNat)).map Prod.fst)) := by
  induction q generalizing pp fuel with
  | nil =>
    have hnone : s.timerqLink pp = none := hlinks
    unfold timerqInsertLoop
    rw [hnone]
    rfl
  | cons t q ih =>
    obtain ⟨fuel, rfl⟩ := Nat.exists_eq_succ_of_ne_zero (Nat.ne_of_gt (Nat.zero_lt_of_lt hfuel))
    have hsome : s.timerqLink pp = some t.1 := hlinks.1
    have hdue : (s.event t.1).deadlineNs ≤ deadlineNs ↔ dueAt t ≤ deadlineNs.toNat := by
      rw [hdeadline t List.mem_cons_self]
      exact Iff.rfl
    unfold timerqInsertLoop
    rw [hsome]
    dsimp only
    by_cases hle : dueAt t ≤ deadlineNs.toNat
    · rw [if_pos (hdue.mpr hle), List.takeWhile_cons_of_pos (by simpa using hle)]
      exact ih hlinks.2 (fun t' ht' => hdeadline t' (List.mem_cons_of_mem t ht'))
        (Nat.le_of_succ_le_succ hfuel)
    · rw [if_neg (hdue.not.mpr hle), List.takeWhile_cons_of_neg (by simpa using hle)]
      rfl

theorem Queue.insert [Fintype E] (h : s.Queue q) (hnew : ev ∉ q.map Prod.fst) :
    ∃ s', s.timerqInsert ev = .ok s' ∧
      s'.Queue (enqueue dueAt (ev, (s.event ev).deadlineNs) q) := by
  have hlength : q.length ≤ Fintype.card E := by
    rw [← List.length_map Prod.fst]
    exact h.links.nodup.length_le_card
  have hloop := timerqInsertLoop_eq (s.event ev).deadlineNs h.links h.deadline hlength
  have hsplit := List.takeWhile_append_dropWhile (p := (dueAt · ≤ (s.event ev).deadlineNs.toNat)) (l := q)
  have henqueue := enqueue_eq dueAt (ev, (s.event ev).deadlineNs) q
  refine ⟨_, bind_ok hloop, ?_, ?_⟩
  · rw [setTimerqLink_timerqLink, setTimerqLink_timerqLink, henqueue, List.map_append, List.map_cons]
    apply IsList.insert
    · rw [← List.map_append, dueAt, hsplit]
      exact h.links
    · simp
    · rw [← List.map_append, dueAt, hsplit]
      exact hnew
  · intro t ht
    rw [setTimerqLink_deadlineNs, setTimerqLink_deadlineNs]
    obtain rfl | ht := (List.mem_orderedInsert _).mp ht
    · rfl
    · exact h.deadline t ht

inductive Inserts [Fintype E] (bound : U64) (s : Kernel T E) : List (E × U64) → Kernel T E → Prop
  | done : Inserts bound s [] s
  | elsewhere {s' s'' : Kernel T E} {ins : List (E × U64)} :
      Inserts bound s ins s' → SameQueue s' s'' → Inserts bound s ins s''
  | insert {s' s'' : Kernel T E} {ins : List (E × U64)} {ev : E} : Inserts bound s ins s' →
      ¬s'.PendingEvent ev → bound < (s'.event ev).deadlineNs → s'.timerqInsert ev = .ok s'' →
      Inserts bound s (ins ++ [(ev, (s'.event ev).deadlineNs)]) s''

inductive Rounds [Fintype E] (callback : U64 → U64 → Kernel T E → Kernel T E) (now : U64) :
    Kernel T E → List (TimerAction E) → Kernel T E → Prop
  | none {s : Kernel T E} : Rounds callback now s [] s
  | fire {s s' : Kernel T E} {ev : E} {ins : List (E × U64)} {log : List (TimerAction E)} :
      s.gHead = some ev → (s.event ev).deadlineNs ≤ now →
      Inserts now (s.timerqPop ev) ins (s.expire callback ev) → Rounds callback now (s.expire callback ev) log s' →
      Rounds callback now s (.fire (ev, (s.event ev).deadlineNs) :: (ins.map .insert ++ log)) s'

structure Runs [Fintype E] (callback : U64 → U64 → Kernel T E → Kernel T E) (now : U64) (s : Kernel T E)
    (log : List (TimerAction E)) (s' : Kernel T E) : Prop where
  rounds : Rounds callback now s log s'
  stop : ∀ ev, s'.gHead = some ev → now < (s'.event ev).deadlineNs

/-- Whichever event comes to be fired, its callback only inserts events, due later. -/
def CallbacksInsert [Fintype E] (callback : U64 → U64 → Kernel T E → Kernel T E) (now : U64) (s : Kernel T E) :
    Prop :=
  ∀ log s1 ev, Rounds callback now s log s1 → s1.gHead = some ev → (s1.event ev).deadlineNs ≤ now →
    ∃ ins, Inserts now (s1.timerqPop ev) ins (s1.expire callback ev)

/-- The calls so far, in a kernel that began with no timer event queued. -/
inductive History [Fintype E] : List (TimerAction E) → Kernel T E → Prop
  | init {s : Kernel T E} : s.gHead = none → History [] s
  | elsewhere {s s' : Kernel T E} {log : List (TimerAction E)} :
      History log s → SameQueue s s' → History log s'
  | insert {s s' : Kernel T E} {log : List (TimerAction E)} {ev : E} : History log s →
      ¬s.PendingEvent ev → s.timerqInsert ev = .ok s' →
      History (log ++ [.insert (ev, (s.event ev).deadlineNs)]) s'
  | run {s s' : Kernel T E} {log log' : List (TimerAction E)}
      {callback : U64 → U64 → Kernel T E → Kernel T E} {now : U64} : History log s →
      Runs callback now s log' s' → History (log ++ log') s'

variable [Fintype E] {callback : U64 → U64 → Kernel T E → Kernel T E} {now bound : U64}
  {ins : List (E × U64)} {log log' : List (TimerAction E)}

theorem Inserts.queue (h : Inserts bound s ins s') (hq : s.Queue q) :
    s'.Queue (ins.foldl (fun q t => enqueue dueAt t q) q) := by
  induction h with
  | done => exact hq
  | elsewhere _ hsame ih => exact ih.same hsame
  | @insert s1 s2 ins ev _ hnew _ hinsert ih =>
    obtain ⟨s3, hinsert', hq'⟩ := ih.insert (ih.pendingEvent_iff.not.mp hnew)
    obtain rfl := Except.ok.inj (hinsert.symm.trans hinsert')
    rw [List.foldl_append]
    exact hq'

theorem Inserts.later (h : Inserts bound s ins s') : ∀ t ∈ ins, bound.toNat < dueAt t := by
  induction h with
  | done => simp
  | elsewhere _ _ ih => exact ih
  | insert _ _ hlater _ ih =>
    intro t ht
    obtain ht | ht := List.mem_append.mp ht
    · exact ih t ht
    · exact List.mem_singleton.mp ht ▸ hlater

omit [DecidableEq E] [Fintype E] in
theorem Queue.head_cases (h : s.Queue q) (hsorted : q.Pairwise fun a b => dueAt a ≤ dueAt b) (now : U64) :
    (∀ ev, s.gHead = some ev → now < (s.event ev).deadlineNs) ∧ q.filter (dueAt · ≤ now.toNat) = [] ∨
    ∃ t q', q = t :: q' ∧ s.gHead = some t.1 ∧ (s.event t.1).deadlineNs = t.2 ∧ t.2 ≤ now ∧
      (t :: q').filter (dueAt · ≤ now.toNat) = t :: q'.filter (dueAt · ≤ now.toNat) := by
  cases q with
  | nil =>
    left
    have hhead : s.gHead = none := h.head_eq
    exact ⟨fun ev hsome => absurd (hhead.symm.trans hsome) (by simp), rfl⟩
  | cons t q =>
    have hhead : s.gHead = some t.1 := h.head_eq
    have hdeadline := h.deadline t List.mem_cons_self
    by_cases hle : t.2 ≤ now
    · exact .inr ⟨t, q, rfl, hhead, hdeadline, hle, List.filter_cons_of_pos (decide_eq_true hle)⟩
    · refine .inl ⟨fun ev hsome => ?_, filter_eq_nil hsorted hle⟩
      obtain rfl := Option.some.inj (hhead.symm.trans hsome)
      rw [hdeadline]
      exact BitVec.not_le.mp hle

structure InOrder (log : List (TimerAction E)) (s : Kernel T E) (q : List (E × U64)) : Prop where
  queue : s.Queue q
  sort : IsStableSort dueAt (pending log) q

theorem Rounds.inOrder (h : Rounds callback now s log' s') (hq : InOrder log s q) :
    ∃ q', InOrder (log ++ log') s' q' ∧
      q.filter (dueAt · ≤ now.toNat) = fired log' ++ q'.filter (dueAt · ≤ now.toNat) ∧
      ∀ fuel, s.timerqRunExpired callback now (fuel + (fired log').length) =
        s'.timerqRunExpired callback now fuel := by
  induction h generalizing log q with
  | none =>
    refine ⟨q, ?_, rfl, fun _ => rfl⟩
    rw [List.append_nil]
    exact hq
  | @fire s s1 ev ins log' hhead hle hins _ ih =>
    obtain ⟨hlater, -⟩ | ⟨t, q', rfl, ht, hdeadline, -, hdue⟩ := hq.queue.head_cases hq.sort.sorted now
    · exact absurd (hlater ev hhead) (BitVec.not_lt.mpr hle)
    obtain rfl := Option.some.inj (hhead.symm.trans ht)
    have hround : InOrder (log ++ .fire t :: ins.map .insert) (s.expire callback t.1)
        (ins.foldl (fun q t => enqueue dueAt t q) q') := by
      refine ⟨hins.queue hq.queue.pop, ?_⟩
      rw [pending_round]
      exact hq.sort.tail.enqueue_all ins
    obtain ⟨q2, hq2, hfired, hrun⟩ := ih hround
    have hsame : fired (.fire (t.1, (s.event t.1).deadlineNs) :: (ins.map .insert ++ log')) = t :: fired log' := by
      rw [hdeadline, ← fired_inserts ins log']
      rfl
    refine ⟨q2, ?_, ?_, fun fuel => ?_⟩
    · rw [hdeadline, ← List.cons_append, ← List.append_assoc]
      exact hq2
    · rw [hsame, hdue, List.cons_append, ← hfired, filter_enqueue_all hins.later]
    · rw [hsame, List.length_cons, ← Nat.add_assoc, timerqRunExpired_due hhead hle]
      exact hrun fuel

theorem Runs.inOrder (h : Runs callback now s log' s') (hq : InOrder log s q) :
    (∃ q', InOrder (log ++ log') s' q') ∧ fired log' = q.filter (dueAt · ≤ now.toNat) ∧
      ∀ fuel, (fired log').length ≤ fuel → s.timerqRunExpired callback now fuel = .ok s' := by
  obtain ⟨q', hq', hfired, hrun⟩ := h.rounds.inOrder hq
  refine ⟨⟨q', hq'⟩, ?_, fun fuel hfuel => ?_⟩
  · obtain ⟨-, hnone⟩ | ⟨t, -, -, hhead, hdeadline, hle, -⟩ := hq'.queue.head_cases hq'.sort.sorted now
    · rw [hfired, hnone, List.append_nil]
    · exact absurd (hdeadline ▸ h.stop t.1 hhead) (BitVec.not_lt.mpr hle)
  · obtain ⟨fuel, rfl⟩ := Nat.exists_eq_add_of_le' hfuel
    rw [hrun, timerqRunExpired_later h.stop]

theorem Queue.runs (h : s.Queue q) (hsorted : q.Pairwise fun a b => dueAt a ≤ dueAt b)
    (hcb : CallbacksInsert callback now s) : ∃ log' s', Runs callback now s log' s' := by
  induction hn : (q.filter (dueAt · ≤ now.toNat)).length generalizing s q with
  | zero =>
    obtain ⟨hlater, -⟩ | ⟨t, q', rfl, -, -, -, hdue⟩ := h.head_cases hsorted now
    · exact ⟨[], s, .none, hlater⟩
    · rw [hdue] at hn
      exact absurd hn (by simp)
  | succ n ih =>
    obtain ⟨hlater, -⟩ | ⟨t, q', rfl, hhead, hdeadline, hle, hdue⟩ := h.head_cases hsorted now
    · exact ⟨[], s, .none, hlater⟩
    rw [← hdeadline] at hle
    obtain ⟨ins, hins⟩ := hcb [] s t.1 .none hhead hle
    rw [hdue, List.length_cons] at hn
    have hless : ((ins.foldl (fun q t => enqueue dueAt t q) q').filter (dueAt · ≤ now.toNat)).length = n := by
      rw [filter_enqueue_all hins.later]
      exact Nat.succ.inj hn
    have hsorted' := (IsStableSort.enqueue_all ⟨hsorted.of_cons, fun _ => rfl⟩ ins).sorted
    have hcb' : CallbacksInsert callback now (s.expire callback t.1) :=
      fun log s1 ev hrounds => hcb _ s1 ev (.fire hhead hle hins hrounds)
    obtain ⟨log', s', hruns⟩ := ih (hins.queue h.pop) hsorted' hcb' hless
    exact ⟨_, s', .fire hhead hle hins hruns.rounds, hruns.stop⟩

theorem History.inOrder (h : History log s) : ∃ q, InOrder log s q := by
  induction h with
  | @init s hhead =>
    refine ⟨[], ⟨hhead, by simp⟩, ?_⟩
    exact isStableSort_nil
  | elsewhere _ hsame ih =>
    obtain ⟨q, hq⟩ := ih
    exact ⟨q, hq.queue.same hsame, hq.sort⟩
  | @insert s s' log ev _ hnew hinsert ih =>
    obtain ⟨q, hq⟩ := ih
    obtain ⟨s2, hinsert', hq'⟩ := hq.queue.insert (hq.queue.pendingEvent_iff.not.mp hnew)
    obtain rfl := Except.ok.inj (hinsert.symm.trans hinsert')
    refine ⟨_, hq', ?_⟩
    rw [pending_insert]
    exact hq.sort.enqueue _
  | run _ hruns ih =>
    obtain ⟨q, hq⟩ := ih
    exact (hruns.inOrder hq).1

omit [DecidableEq E] [Fintype E] in
theorem Queue.nextDeadline (h : s.Queue q) (hsorted : q.Pairwise fun a b => dueAt a ≤ dueAt b)
    (hne : q ≠ []) : ∃ t ∈ q, s.timerqNextDeadline = t.2 ∧ ∀ t' ∈ q, dueAt t ≤ dueAt t' := by
  cases q with
  | nil => exact absurd rfl hne
  | cons t q =>
    refine ⟨t, List.mem_cons_self, ?_, fun t' ht' => ?_⟩
    · have hhead : s.gHead = some t.1 := h.head_eq
      rw [timerqNextDeadline, hhead]
      exact h.deadline t List.mem_cons_self
    · obtain rfl | ht' := List.mem_cons.mp ht'
      · exact le_refl _
      · exact List.rel_of_pairwise_cons hsorted ht'

/-- Over any history the queue is what it should be: the pending events, in a list without a cycle, in
the order of their deadlines and of their insertion; and it runs the events that are due, in this
order. -/
theorem timer_queue (log : List (TimerAction E)) (s : Kernel T E) (h : History log s) :
    (∃ q, IsList s.timerqLink none (q.map Prod.fst) ∧ (q.map Prod.fst).Nodup ∧
      (∀ t ∈ q, (s.event t.1).deadlineNs = t.2) ∧ q.Perm (pending log) ∧
      IsStableSort dueAt (pending log) q) ∧
    (pending log ≠ [] → ∃ t ∈ pending log, s.timerqNextDeadline = t.2 ∧
      ∀ t' ∈ pending log, dueAt t ≤ dueAt t') ∧
    (∀ ev, ¬s.PendingEvent ev → ∃ s', s.timerqInsert ev = .ok s') ∧
    ∀ callback now, CallbacksInsert callback now s →
      (∃ log' s', Runs callback now s log' s') ∧
      ∀ log' s', Runs callback now s log' s' →
        (∀ fuel, (fired log').length ≤ fuel → s.timerqRunExpired callback now fuel = .ok s') ∧
        ((fired log').map Prod.fst).Nodup ∧
        (fired log').Perm ((pending log).filter (dueAt · ≤ now.toNat)) ∧
        IsStableSort dueAt ((pending log).filter (dueAt · ≤ now.toNat)) (fired log') := by
  obtain ⟨q, hq⟩ := h.inOrder
  have hperm := hq.sort.perm
  refine ⟨⟨q, hq.queue.links, hq.queue.links.nodup, hq.queue.deadline, hperm, hq.sort⟩, ?_, ?_, ?_⟩
  · intro hpending
    have hne : q ≠ [] := fun hnil => hpending (List.perm_nil.mp (hnil ▸ hperm.symm))
    obtain ⟨t, ht, hnext, hleast⟩ := hq.queue.nextDeadline hq.sort.sorted hne
    exact ⟨t, hperm.mem_iff.mp ht, hnext, fun t' ht' => hleast t' (hperm.mem_iff.mpr ht')⟩
  · intro ev hnew
    obtain ⟨s', hinsert, -⟩ := hq.queue.insert (hq.queue.pendingEvent_iff.not.mp hnew)
    exact ⟨s', hinsert⟩
  · intro callback now hcb
    refine ⟨hq.queue.runs hq.sort.sorted hcb, fun log' s' hruns => ?_⟩
    obtain ⟨-, hfired, hrun⟩ := hruns.inOrder hq
    have hsort := hq.sort.filter_le now.toNat
    rw [← hfired] at hsort
    refine ⟨hrun, ?_, hsort.perm, hsort⟩
    rw [hfired]
    exact hq.queue.links.nodup.sublist (List.filter_sublist.map Prod.fst)

def setDeadline (s : Kernel T E) (ev : E) (deadlineNs : U64) : Kernel T E :=
  { s with event := Function.update s.event ev { s.event ev with deadlineNs } }

omit [Fintype E] in
@[simp] theorem setDeadline_deadlineNs (s : Kernel T E) (ev : E) (deadlineNs : U64) :
    ((s.setDeadline ev deadlineNs).event ev).deadlineNs = deadlineNs := by
  simp [setDeadline]

omit [Fintype E] in
theorem Queue.setDeadline (hq : s.Queue q) (hev : ev ∉ q.map Prod.fst) (deadlineNs : U64) :
    SameQueue s (s.setDeadline ev deadlineNs) := by
  refine ⟨rfl, fun ev' hpending => ?_⟩
  have hne : ev' ≠ ev := by
    rintro rfl
    exact hev (hq.pendingEvent_iff.mp hpending)
  exact Function.update_of_ne hne _ _

theorem Queue.rearm (hq : s.Queue q) (hnew : ev ∉ q.map Prod.fst) {deadlineNs : U64} (hlater : now < deadlineNs) :
    ∃ s', (s.setDeadline ev deadlineNs).timerqInsert ev = .ok s' ∧ Inserts now s [(ev, deadlineNs)] s' := by
  have hset := hq.setDeadline hnew deadlineNs
  obtain ⟨s', hinsert, -⟩ := (hq.same hset).insert hnew
  have hsame : Inserts now s [] (s.setDeadline ev deadlineNs) := Inserts.done.elsewhere hset
  have hins := hsame.insert ((hq.same hset).pendingEvent_iff.not.mpr hnew) (by rwa [setDeadline_deadlineNs]) hinsert
  rw [setDeadline_deadlineNs, List.nil_append] at hins
  exact ⟨s', hinsert, hins⟩

instance neZero_two : NeZero 2 := ⟨by decide⟩

def noTimers : Kernel (Fin 1) (Fin 2) where
  thread := fun _ => userThread 0 0 0
  event := fun ev => if ev = 0 then ⟨500, 0, 0, none⟩ else ⟨300, 1, 0, none⟩
  gHead := none
  gCurrent := none
  gQuantumNs := 0
  gSliceEndNs := 0
  kernelRsp := 0
  rsp0 := 0
  timer := .stop

def oneTimer : Kernel (Fin 1) (Fin 2) := returned noTimers (noTimers.timerqInsert 0)
def twoTimers : Kernel (Fin 1) (Fin 2) := returned oneTimer (oneTimer.timerqInsert 1)

def again (_cb _arg : U64) (s : Kernel (Fin 1) (Fin 2)) : Kernel (Fin 1) (Fin 2) :=
  let s := s.setDeadline 1 900
  returned s (s.timerqInsert 1)

theorem history_twoTimers : History [.insert (0, 500), .insert (1, 300)] twoTimers := by
  have hempty : noTimers.Queue [] := ⟨rfl, by simp⟩
  have hone : noTimers.timerqInsert 0 = .ok oneTimer := ok_returned (by decide +kernel)
  have htwo : oneTimer.timerqInsert 1 = .ok twoTimers := ok_returned (by decide +kernel)
  have hnew : ¬oneTimer.PendingEvent 1 := by
    obtain ⟨s, hs, hq⟩ := hempty.insert (show (0 : Fin 2) ∉ _ from List.not_mem_nil)
    obtain rfl := Except.ok.inj (hs.symm.trans hone)
    rw [hq.pendingEvent_iff]
    decide
  have hdeadline : (oneTimer.event 1).deadlineNs = 300 := by decide +kernel
  have hfirst : History [.insert (0, 500)] oneTimer :=
    .insert (.init rfl) (hempty.pendingEvent_iff.not.mpr List.not_mem_nil) hone
  have hsecond := hfirst.insert hnew htwo
  rw [hdeadline] at hsecond
  exact hsecond

theorem again_inserts : CallbacksInsert again 400 twoTimers := by
  have hqueue : (twoTimers.timerqPop 1).Queue [(0, 500)] := by
    constructor
    · constructor
      · decide +kernel
      · exact (by decide +kernel : (twoTimers.timerqPop 1).timerqLink (some 0) = none)
    · rw [List.forall_mem_singleton]
      decide +kernel
  have hcb : (twoTimers.event 1).cb ≠ 0 := by decide +kernel
  have hlater : ∀ ev, (twoTimers.expire again 1).gHead = some ev →
      400 < ((twoTimers.expire again 1).event ev).deadlineNs := by
    decide +kernel
  have hhead : ∀ ev, twoTimers.gHead = some ev → ev = 1 := by decide +kernel
  intro log s ev hrounds hev hle
  cases hrounds with
  | none =>
    obtain rfl := hhead ev hev
    have hafter : (400 : U64) < 900 := by decide
    obtain ⟨s', hinsert, hins⟩ := hqueue.rearm (show (1 : Fin 2) ∉ _ from by decide) hafter
    refine ⟨[(1, 900)], ?_⟩
    rw [expire, if_neg hcb, again, hinsert]
    exact hins
  | fire hfirst _ _ hrest =>
    obtain rfl := hhead _ hfirst
    cases hrest with
    | none => exact absurd (hlater ev hev) (BitVec.not_lt.mpr hle)
    | fire hsecond hdue _ _ => exact absurd (hlater _ hsecond) (BitVec.not_lt.mpr hdue)

theorem timer_queue_twoTimers :
    ∃ log' s', Runs again 400 twoTimers log' s' ∧ (fired log').Perm [(1, 300)] ∧
      twoTimers.timerqRunExpired again 400 1 = .ok s' ∧ (s'.event 1).deadlineNs = 900 := by
  obtain ⟨-, -, -, hruns⟩ := timer_queue _ _ history_twoTimers
  obtain ⟨⟨log', s', h⟩, hall⟩ := hruns _ 400 again_inserts
  obtain ⟨hok, -, hperm, -⟩ := hall log' s' h
  have hcalled := hok 1 hperm.length_eq.le
  have hreturned := (ok_returned (d := twoTimers) (by decide +kernel)).symm.trans hcalled
  exact ⟨log', s', h, hperm, hcalled, by rw [← Except.ok.inj hreturned]; decide +kernel⟩

end Kernel

end Mcincos
