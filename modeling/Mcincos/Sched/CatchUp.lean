import Mcincos.Sched.TimerQueue

namespace Mcincos

open StableQueue

section Drains

variable {E : Type} [DecidableEq E] {now d : U64} {q q' : List (E × U64)} {t : E × U64} {ev : E}
  {log : List (TimerAction E)}

/-- A queue from which the events due are taken, some of them to be queued again with a later
deadline, until none is due. -/
inductive Drains (now : U64) : List (E × U64) → List (TimerAction E) → List (E × U64) → Prop
  | stop {q : List (E × U64)} : (∀ t ∈ q, now < t.2) → Drains now q [] q
  | fire {t : E × U64} {q q' : List (E × U64)} {log : List (TimerAction E)} : t.2 ≤ now →
      Drains now q log q' → Drains now (t :: q) (.fire t :: log) q'
  | again {t : E × U64} {d : U64} {q q' : List (E × U64)} {log : List (TimerAction E)} : t.2 ≤ now →
      t.2 < d → Drains now (enqueue dueAt (t.1, d) q) log q' →
      Drains now (t :: q) (.fire t :: .insert (t.1, d) :: log) q'

def inserted (log : List (TimerAction E)) : List (E × U64) :=
  log.filterMap fun action =>
    match action with
    | .insert t => some t
    | .fire _ => none

omit [DecidableEq E] in
@[simp] theorem fired_fire (t : E × U64) (log : List (TimerAction E)) :
    fired (.fire t :: log) = t :: fired log := rfl

omit [DecidableEq E] in
@[simp] theorem fired_insert (t : E × U64) (log : List (TimerAction E)) :
    fired (.insert t :: log) = fired log := rfl

/-- The deadlines of an event one after the other: the one it is queued with, and those it is inserted
with. -/
def deadlinesOf (ev : E) (q : List (E × U64)) (log : List (TimerAction E)) : List (E × U64) :=
  q.filter (·.1 = ev) ++ (inserted log).filter (·.1 = ev)

theorem filter_of_absent (h : ev ∉ q.map Prod.fst) : q.filter (·.1 = ev) = [] := by
  rw [List.filter_eq_nil_iff]
  intro a ha heq
  exact h (List.mem_map.mpr ⟨a, ha, of_decide_eq_true heq⟩)

omit [DecidableEq E] in
theorem mem_enqueue_fst {x : E × U64} : ev ∈ (enqueue dueAt x q).map Prod.fst ↔ ev = x.1 ∨ ev ∈ q.map Prod.fst := by
  rw [((enqueue_perm dueAt x q).map Prod.fst).mem_iff, List.map_cons, List.mem_cons]

omit [DecidableEq E] in
theorem nodup_enqueue (h : ((t :: q).map Prod.fst).Nodup) :
    ((enqueue dueAt (t.1, d) q).map Prod.fst).Nodup :=
  ((enqueue_perm dueAt (t.1, d) q).map Prod.fst).nodup_iff.mpr h

omit [DecidableEq E] in
theorem sorted_enqueue (h : q.Pairwise fun a b => dueAt a ≤ dueAt b) (x : E × U64) :
    (enqueue dueAt x q).Pairwise fun a b => dueAt a ≤ dueAt b :=
  (IsStableSort.enqueue ⟨h, fun _ => rfl⟩ x).sorted

theorem deadlinesOf_fire (log : List (TimerAction E)) :
    deadlinesOf ev (t :: q) (.fire t :: log) = [t].filter (·.1 = ev) ++ deadlinesOf ev q log := by
  rw [deadlinesOf, ← List.singleton_append, List.filter_append, List.append_assoc]
  rfl

theorem filter_enqueue_own (h : t.1 ∉ q.map Prod.fst) :
    (enqueue dueAt (t.1, d) q).filter (·.1 = t.1) = [(t.1, d)] := by
  apply List.perm_singleton.mp
  apply ((enqueue_perm _ _ q).filter _).trans
  rw [List.filter_cons_of_pos (by simp), filter_of_absent h]

theorem deadlinesOf_again (h : t.1 ∉ q.map Prod.fst) (log : List (TimerAction E)) :
    deadlinesOf ev (t :: q) (.fire t :: .insert (t.1, d) :: log) =
      [t].filter (·.1 = ev) ++ deadlinesOf ev (enqueue dueAt (t.1, d) q) log := by
  have hinserted : inserted (.insert (t.1, d) :: log) = (t.1, d) :: inserted log := rfl
  rw [deadlinesOf_fire, deadlinesOf, deadlinesOf, hinserted]
  congr 1
  by_cases heq : t.1 = ev
  · subst heq
    rw [filter_enqueue_own h, filter_of_absent h, List.nil_append, List.singleton_append]
    exact List.filter_cons_of_pos (by simp)
  · rw [filter_enqueue_of_not (by simpa using heq)]
    congr 1
    exact List.filter_cons_of_neg (by simpa using heq)

theorem Drains.absent (h : Drains now q log q') (hnodup : (q.map Prod.fst).Nodup)
    (hev : ev ∉ q.map Prod.fst) : deadlinesOf ev q log = [] := by
  induction h with
  | stop _ =>
    rw [deadlinesOf, filter_of_absent hev]
    rfl
  | @fire t q q' log _ _ ih =>
    obtain ⟨hne, hev⟩ := not_or.mp (mt List.mem_cons.mpr hev)
    rw [deadlinesOf_fire, ih hnodup.of_cons hev, List.filter_cons_of_neg (by simpa using Ne.symm hne)]
    rfl
  | @again t d q q' log _ _ _ ih =>
    obtain ⟨hne, hev⟩ := not_or.mp (mt List.mem_cons.mpr hev)
    rw [deadlinesOf_again (List.nodup_cons.mp hnodup).1, ih (nodup_enqueue hnodup) _,
      List.filter_cons_of_neg (by simpa using Ne.symm hne)]
    · rfl
    · exact fun hmem => (mem_enqueue_fst.mp hmem).elim hne hev

omit [DecidableEq E] in
theorem Drains.bound (h : Drains now q log q') {k : ℕ} (hk : ∀ t ∈ q, k ≤ dueAt t) :
    ∀ t ∈ fired log, k ≤ dueAt t := by
  induction h with
  | stop _ => simp [fired]
  | fire _ _ ih =>
    rw [fired_fire, List.forall_mem_cons]
    exact ⟨hk _ List.mem_cons_self, ih fun t ht => hk t (List.mem_cons_of_mem _ ht)⟩
  | @again t d q q' log _ hlater _ ih =>
    have hfirst := hk t List.mem_cons_self
    rw [fired_fire, fired_insert, List.forall_mem_cons]
    refine ⟨hfirst, ih ?_⟩
    intro t' ht'
    obtain rfl | ht' := List.mem_cons.mp ((enqueue_perm _ _ q).mem_iff.mp ht')
    · exact hfirst.trans (BitVec.le_of_lt hlater)
    · exact hk t' (List.mem_cons_of_mem _ ht')

omit [DecidableEq E] in
theorem Drains.order (h : Drains now q log q') (hsorted : q.Pairwise fun a b => dueAt a ≤ dueAt b) :
    (fired log).Pairwise fun a b => dueAt a ≤ dueAt b := by
  induction h with
  | stop _ => exact .nil
  | fire _ hrest ih =>
    apply List.pairwise_cons.mpr
    exact ⟨hrest.bound fun t ht => List.rel_of_pairwise_cons hsorted ht, ih hsorted.of_cons⟩
  | @again t d q q' log _ hlater hrest ih =>
    apply List.pairwise_cons.mpr
    refine ⟨hrest.bound ?_, ih (sorted_enqueue hsorted.of_cons _)⟩
    intro t' ht'
    obtain rfl | ht' := List.mem_cons.mp ((enqueue_perm _ _ q).mem_iff.mp ht')
    · exact BitVec.le_of_lt hlater
    · exact List.rel_of_pairwise_cons hsorted ht'

theorem Drains.waiting (h : Drains now q log q') (hnodup : (q.map Prod.fst).Nodup) (ev : E) :
    q'.filter (·.1 = ev) = (deadlinesOf ev q log).filter (now < ·.2) := by
  have hnone {t : E × U64} (hdue : t.2 ≤ now) : ([t].filter (·.1 = ev)).filter (now < ·.2) = [] := by
    rw [List.filter_eq_nil_iff]
    intro t' ht' hlater
    rw [List.mem_singleton.mp (List.mem_filter.mp ht').1] at hlater
    exact BitVec.not_lt.mpr hdue (of_decide_eq_true hlater)
  induction h with
  | stop hlater =>
    symm
    rw [deadlinesOf, inserted, List.filterMap_nil, List.filter_nil, List.append_nil, List.filter_eq_self]
    exact fun t ht => decide_eq_true (hlater t (List.mem_filter.mp ht).1)
  | fire hdue _ ih =>
    rw [deadlinesOf_fire, List.filter_append, hnone hdue, ih hnodup.of_cons]
    rfl
  | again hdue _ _ ih =>
    rw [deadlinesOf_again (List.nodup_cons.mp hnodup).1, List.filter_append, hnone hdue,
      ih (nodup_enqueue hnodup)]
    rfl

end Drains

namespace Kernel

variable {T E : Type} [DecidableEq E] [Fintype E]
  {callback : U64 → U64 → Kernel T E → Kernel T E} {now : U64} {s s0 s1 s' : Kernel T E}
  {q : List (E × U64)} {log : List (TimerAction E)} {ev : E} {t : E × U64} {ins : List (E × U64)}

inductive Renews (ev : E) (s : Kernel T E) : List (E × U64) → Kernel T E → Prop
  | leave {s' : Kernel T E} : SameQueue s s' → Renews ev s [] s'
  | again {s1 s2 s' : Kernel T E} : SameQueue s s1 → (s.event ev).deadlineNs < (s1.event ev).deadlineNs →
      s1.timerqInsert ev = .ok s2 → SameQueue s2 s' → Renews ev s [(ev, (s1.event ev).deadlineNs)] s'

omit [DecidableEq E] [Fintype E] in
theorem SameQueue.refl (s : Kernel T E) : SameQueue s s := ⟨rfl, fun _ _ => rfl⟩

structure SameCallbacks (s s' : Kernel T E) : Prop where
  cb (ev : E) : (s'.event ev).cb = (s.event ev).cb
  arg (ev : E) : (s'.event ev).arg = (s.event ev).arg

def CallbacksRenew (callback : U64 → U64 → Kernel T E → Kernel T E) (s : Kernel T E) : Prop :=
  ∀ s1 ev, SameCallbacks s s1 → (∃ q, s1.Queue q) → s1.gHead = some ev → (s.event ev).cb ≠ 0 →
    ∃ ins s2, callback (s.event ev).cb (s.event ev).arg (s1.timerqPop ev) = s2 ∧
      Renews ev (s1.timerqPop ev) ins s2 ∧ SameCallbacks s s2

omit [Fintype E] in
theorem SameCallbacks.pop (h : SameCallbacks s0 s) (ev : E) : SameCallbacks s0 (s.timerqPop ev) := by
  constructor
  all_goals
    intro ev'
    rw [timerqPop_event]
    split_ifs with hev
  · rw [hev]
    exact h.cb ev
  · exact h.cb ev'
  · rw [hev]
    exact h.arg ev
  · exact h.arg ev'

theorem CallbacksRenew.expire (hcb : CallbacksRenew callback s0) (hsame : SameCallbacks s0 s)
    (hq : ∃ q, s.Queue q) (hhead : s.gHead = some ev) :
    ∃ ins, Renews ev (s.timerqPop ev) ins (s.expire callback ev) ∧ SameCallbacks s0 (s.expire callback ev) := by
  rw [Kernel.expire, hsame.cb, hsame.arg]
  by_cases hcb0 : (s0.event ev).cb = 0
  · rw [if_pos hcb0]
    exact ⟨[], .leave (.refl _), hsame.pop ev⟩
  · rw [if_neg hcb0]
    obtain ⟨ins, _, rfl, hins, hsame1⟩ := hcb s ev hsame hq hhead hcb0
    exact ⟨ins, hins, hsame1⟩

omit [Fintype E] in
theorem setTimerqLink_callbacks (s : Kernel T E) (pp link : Option E) :
    SameCallbacks s (s.setTimerqLink pp link) := by
  cases pp with
  | none => exact ⟨fun _ => rfl, fun _ => rfl⟩
  | some e =>
    constructor
    all_goals
      intro ev
      simp only [setTimerqLink, Function.update_apply]
      split_ifs with hev
    all_goals first | rfl | rw [hev]

theorem SameCallbacks.insert (h : SameCallbacks s0 s) (hinsert : s.timerqInsert ev = .ok s') :
    SameCallbacks s0 s' := by
  obtain ⟨pp, -, hinsert⟩ := bind_eq_ok hinsert
  obtain rfl := Except.ok.inj hinsert
  have hfirst := setTimerqLink_callbacks s (some ev) (s.timerqLink pp)
  have hsecond := setTimerqLink_callbacks (s.setTimerqLink (some ev) (s.timerqLink pp)) pp (some ev)
  constructor
  · exact fun ev' => ((hsecond.cb ev').trans (hfirst.cb ev')).trans (h.cb ev')
  · exact fun ev' => ((hsecond.arg ev').trans (hfirst.arg ev')).trans (h.arg ev')

omit [Fintype E] in
theorem SameCallbacks.setDeadline (h : SameCallbacks s0 s) (ev : E) (deadlineNs : U64) :
    SameCallbacks s0 (s.setDeadline ev deadlineNs) := by
  constructor
  all_goals
    intro ev'
    simp only [Kernel.setDeadline, Function.update_apply]
    split_ifs with hev
  · rw [hev]
    exact h.cb ev
  · exact h.cb ev'
  · rw [hev]
    exact h.arg ev
  · exact h.arg ev'

end Kernel

end Mcincos
