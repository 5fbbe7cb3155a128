import Mcincos.Sched.Steps

namespace Mcincos

open CircularList Relation

namespace Kernel

variable {T E : Type}

structure OnRing (s : Kernel T E) (current : T) (others : List T) : Prop where
  current_eq : s.gCurrent = some current
  ring : IsRing (fun t => (s.thread t).next) (current :: others)

structure RunQueue (s : Kernel T E) (current : T) (others : List T) : Prop where
  current_eq : s.gCurrent = some current
  ring : IsRing (fun t => (s.thread t).next) (current :: others)
  running : (s.thread current).state = .running
  ready : ∀ t ∈ others, (s.thread t).state = .ready

def InRing (s : Kernel T E) (t : T) : Prop :=
  ∃ current, s.gCurrent = some current ∧
    ReflTransGen (fun a b => (s.thread a).next = some b) current t

structure SameRing (s s' : Kernel T E) : Prop where
  current_eq : s'.gCurrent = s.gCurrent
  next : ∀ t, s.InRing t → (s'.thread t).next = (s.thread t).next
  state : ∀ t, s.InRing t → (s'.thread t).state = (s.thread t).state

def KeepsRing (callback : U64 → U64 → Kernel T E → Kernel T E) : Prop :=
  ∀ cb arg s, SameRing s (callback cb arg s)

variable {s s' s'' : Kernel T E} {current t : T} {others : List T}

theorem RunQueue.onRing (h : s.RunQueue current others) : s.OnRing current others :=
  ⟨h.current_eq, h.ring⟩

theorem RunQueue.inRing (h : s.RunQueue current others) (ht : t ∈ current :: others) : s.InRing t :=
  ⟨current, h.current_eq, h.ring.reach ht⟩

theorem RunQueue.same (h : s.RunQueue current others) (hs : SameRing s s') :
    s'.RunQueue current others where
  current_eq := hs.current_eq.trans h.current_eq
  ring := h.ring.congr fun t ht => hs.next t (h.inRing ht)
  running := (hs.state current (h.inRing List.mem_cons_self)).trans h.running
  ready := fun t ht => (hs.state t (h.inRing (List.mem_cons_of_mem _ ht))).trans (h.ready t ht)

theorem SameRing.of_thread (hcurrent : s'.gCurrent = s.gCurrent) (hthread : s'.thread = s.thread) :
    SameRing s s' where
  current_eq := hcurrent
  next := fun t _ => by rw [hthread]
  state := fun t _ => by rw [hthread]

theorem SameRing.inRing (h : SameRing s s') (ht : s.InRing t) : s'.InRing t := by
  obtain ⟨c, hc, hreach⟩ := ht
  refine ⟨c, h.current_eq.trans hc, ?_⟩
  induction hreach with
  | refl => exact .refl
  | @tail a b hreach hstep ih =>
    apply ih.tail
    rw [h.next a ⟨c, hc, hreach⟩]
    exact hstep

theorem SameRing.trans (h : SameRing s s') (h' : SameRing s' s'') : SameRing s s'' where
  current_eq := h'.current_eq.trans h.current_eq
  next := fun t ht => (h'.next t (h.inRing ht)).trans (h.next t ht)
  state := fun t ht => (h'.state t (h.inRing ht)).trans (h.state t ht)

theorem Rearmed.same (h : Rearmed s s') : SameRing s s' := .of_thread h.current_eq h.thread_eq

theorem RunQueue.endSlice (h : s.RunQueue current others) :
    { s with gSliceEndNs := 0 }.RunQueue current others :=
  h.same (.of_thread rfl rfl)

theorem timerqRunExpired_ring [DecidableEq E] {callback : U64 → U64 → Kernel T E → Kernel T E}
    {fuel : ℕ} {now : U64} (hcb : KeepsRing callback)
    (hrun : s.timerqRunExpired callback now fuel = .ok s') : SameRing s s' := by
  apply timerqRunExpired_induction _ _ hrun (.of_thread rfl rfl)
  · exact fun s1 gHead event hs => hs.trans (.of_thread rfl rfl)
  · exact fun cb arg s1 hs => hs.trans (hcb cb arg s1)

variable [DecidableEq T]

theorem setFrame_same (s : Kernel T E) (t : T) (frame : IsrFrame) : SameRing s (s.setFrame t frame) where
  current_eq := rfl
  next := fun t' _ => s.setFrame_next t t' frame
  state := fun t' _ => s.setFrame_state t t' frame

theorem RunQueue.init (s : Kernel T E) (t : T) : (s.schedInit t).RunQueue t [] where
  current_eq := rfl
  ring := isRing_singleton (by simp [schedInit])
  running := by simp [schedInit]
  ready := by simp

theorem RunQueue.insert (h : s.RunQueue current others) (ht : t ∉ current :: others)
    (hready : (s.thread t).state = .ready) :
    ((s.setNext t (s.thread current).next).setNext current t).RunQueue current (t :: others) where
  current_eq := h.current_eq
  ring := by
    have hinsert := h.ring.insert ht
    apply hinsert.congr
    intro u _
    simp only [setNext_next, Function.update_apply]
  running := by simp [h.running]
  ready := by
    intro u hu
    obtain rfl | hu := List.mem_cons.mp hu
    · simp [hready]
    · simp [h.ready u hu]

theorem OnRing.move {next : T} {as bs : List T} (h : s.OnRing current (as ++ next :: bs)) :
    (s.switchTo current next).OnRing next (bs ++ current :: as) := by
  have hring : IsRing (fun t => (s.thread t).next) ((next :: bs) ++ (current :: as)) := by
    apply IsRing.rotate
    exact h.ring
  refine ⟨rfl, ?_⟩
  apply hring.congr
  intro t _
  rw [switchTo_next]

theorem OnRing.switchTo (h : s.OnRing current others) {next : T} (hnext : next ∈ others) :
    ∃ others', (s.switchTo current next).OnRing next others' ∧
      (next :: others').Perm (current :: others) := by
  obtain ⟨as, bs, rfl⟩ := List.append_of_mem hnext
  refine ⟨bs ++ current :: as, h.move, ?_⟩
  rw [← List.cons_append]
  exact List.perm_append_comm

theorem RunQueue.switchTo (h : s.RunQueue current others) {next : T} (hnext : next ∈ others) :
    ∃ others', (s.switchTo current next).RunQueue next others' ∧
      (next :: others').Perm (current :: others) := by
  obtain ⟨others', hring, hperm⟩ := h.onRing.switchTo hnext
  refine ⟨others', ⟨rfl, hring.ring, ?_, ?_⟩, hperm⟩
  · simp
  · intro t ht
    have htn : t ≠ next := by
      rintro rfl
      exact (List.nodup_cons.mp hring.ring.nodup).1 ht
    rw [switchTo_state, if_neg htn]
    split_ifs with htc
    · rfl
    · apply h.ready
      have hmem := hperm.mem_iff.mp (List.mem_cons_of_mem next ht)
      exact (List.mem_cons.mp hmem).resolve_left htc

theorem pickLoop_eq (hnodup : current ∉ others)
    (h : List.IsChain (fun a b => (s.thread a).next = some b) (others ++ [current])) {n : ℕ}
    (hn : others.length < n) :
    s.pickLoop current n (others ++ [current]).head? =
      .ok ((others.find? fun t => (s.thread t).state = .ready).getD current) := by
  induction others generalizing n with
  | nil =>
    obtain ⟨n, rfl⟩ := Nat.exists_eq_succ_of_ne_zero (Nat.ne_of_gt hn)
    simp [pickLoop]
  | cons t ts ih =>
    obtain ⟨n, rfl⟩ := Nat.exists_eq_succ_of_ne_zero (Nat.ne_of_gt (Nat.zero_lt_of_lt hn))
    obtain ⟨hne, hts⟩ := not_or.mp (List.mem_cons.not.mp hnodup)
    rw [List.cons_append, List.head?_cons, pickLoop]
    by_cases hready : (s.thread t).state = .ready
    · rw [if_neg fun hc => hc.2 hready, List.find?_cons_of_pos (by simpa using hready),
        Option.getD_some]
    · have hnext : (s.thread t).next = (ts ++ [current]).head? := by
        cases ts with
        | nil => exact h.rel_head? rfl
        | cons u us => exact h.rel_head? rfl
      rw [if_pos ⟨Ne.symm hne, hready⟩, hnext, List.find?_cons_of_neg (by simpa using hready)]
      exact ih hts h.tail (Nat.lt_of_succ_lt_succ hn)

variable [Fintype T]

theorem pickNext_eq (hcurrent : s.gCurrent = some current)
    (hring : IsRing (fun t => (s.thread t).next) (current :: others)) :
    s.pickNext = .ok ((others.find? fun t => (s.thread t).state = .ready).getD current) := by
  have hlength : others.length < Fintype.card T := hring.length_le
  have hloop := pickLoop_eq (List.nodup_cons.mp hring.nodup).1 hring.links.tail hlength
  rw [← hring.next_eq] at hloop
  rw [pickNext, hcurrent]
  dsimp only
  rw [bind_ok hloop]
  cases hfind : others.find? fun t => (s.thread t).state = .ready with
  | none => 
    rw [Option.getD_none, ite_id]
    rfl
  | some t =>
    have hready := List.find?_some hfind
    rw [Option.getD_some, if_pos (of_decide_eq_true hready)]
    rfl

theorem OnRing.pickNext_mem (h : s.OnRing current others) :
    ∃ next ∈ current :: others, s.pickNext = .ok next := by
  have hnext := pickNext_eq h.current_eq h.ring
  refine ⟨_, ?_, hnext⟩
  cases hfind : others.find? fun t => (s.thread t).state = .ready with
  | none => exact List.mem_cons_self
  | some t => exact List.mem_cons_of_mem _ (List.mem_of_find?_eq_some hfind)

theorem RunQueue.arm (h : s.RunQueue current others) (now : U64) :
    ∃ s', s.schedArmTimer now = .ok s' ∧ s'.RunQueue current others := by
  obtain ⟨next, -, hnext⟩ := h.onRing.pickNext_mem
  obtain ⟨s', hs'⟩ := schedArmTimer_ok now hnext
  exact ⟨s', hs', h.same (schedArmTimer_rearmed hs').same⟩

theorem RunQueue.add (h : s.RunQueue current others) (ht : t ∉ current :: others)
    (hready : (s.thread t).state = .ready) (now : U64) :
    ∃ s', s.schedAdd t now = .ok s' ∧ s'.RunQueue current (t :: others) := by
  unfold schedAdd
  rw [h.current_eq]
  exact (h.insert ht hready).endSlice.arm now

theorem RunQueue.setQuantumNs (h : s.RunQueue current others) (ns now : U64) :
    ∃ s', s.schedSetQuantumNs ns now = .ok s' ∧ s'.RunQueue current others := by
  have hset : RunQueue { s with gQuantumNs := ns.setWidth 32 } current others :=
    h.same (.of_thread rfl rfl)
  unfold schedSetQuantumNs
  dsimp only
  split_ifs
  · exact ⟨_, rfl, hset.same (.of_thread rfl rfl)⟩
  · exact hset.arm now

theorem RunQueue.reschedule (h : s.RunQueue current others) (frame : IsrFrame) :
    ∃ s' frame' current' others', s.reschedule frame = .ok (s', frame') ∧
      s'.RunQueue current' others' ∧ (current' :: others').Perm (current :: others) := by
  have hsaved := h.same (setFrame_same s current frame)
  obtain ⟨next, hmem, hnext⟩ := hsaved.onRing.pickNext_mem
  unfold Kernel.reschedule
  rw [h.current_eq]
  dsimp only
  rw [bind_ok hnext]
  split_ifs with hne
  · exact ⟨_, _, current, others, rfl, hsaved, .refl _⟩
  · obtain ⟨others', hq, hperm⟩ := hsaved.switchTo ((List.mem_cons.mp hmem).resolve_left hne)
    exact ⟨_, _, next, others', rfl, hq, hperm⟩

variable [DecidableEq E] {callback : U64 → U64 → Kernel T E → Kernel T E}

theorem RunQueue.tick (h : s.RunQueue current others) (hcb : KeepsRing callback) (fuel : ℕ)
    (frame : IsrFrame) (now now' : U64) :
    s.schedOnTick callback fuel frame now now' = .error .endlessTimers ∨
    ∃ s' frame' current' others', s.schedOnTick callback fuel frame now now' = .ok (s', frame') ∧
      s'.RunQueue current' others' ∧ (current' :: others').Perm (current :: others) := by
  have hsome : s.gCurrent ≠ none := by simp [h.current_eq]
  unfold schedOnTick
  rw [if_neg hsome]
  cases hrun : s.timerqRunExpired callback now fuel with
  | error e =>
    obtain rfl := timerqRunExpired_error hrun
    exact .inl rfl
  | ok s1 =>
    have h1 := h.same (timerqRunExpired_ring hcb hrun)
    obtain ⟨s2, harm, h2⟩ := h1.arm now'
    rw [bind_ok rfl, bind_ok harm]
    split_ifs
    · exact .inr ⟨s2, frame, current, others, rfl, h2, .refl _⟩
    · exact .inr ⟨s2, frame, current, others, rfl, h2, .refl _⟩
    · obtain ⟨s3, frame', current', others', hres, h3, hperm⟩ := h1.reschedule frame
      obtain ⟨s4, harm', h4⟩ := h3.endSlice.arm now'
      rw [bind_ok hres]
      dsimp only
      rw [bind_ok harm']
      exact .inr ⟨s4, frame', current', others', rfl, h4, hperm⟩

/-- The states reached from `sched_init`, or `sched_add` with no thread yet, with the threads added:
each is ready when it is added, and new. -/
inductive Queued (callback : U64 → U64 → Kernel T E → Kernel T E) : List T → Kernel T E → Prop
  | init (s : Kernel T E) (t : T) : Queued callback [t] (s.schedInit t)
  | first {s s' : Kernel T E} {t : T} {now : U64} : s.gCurrent = none →
      s.schedAdd t now = .ok s' → Queued callback [t] s'
  | add {s s' : Kernel T E} {ts : List T} {t : T} {now : U64} : Queued callback ts s →
      (s.thread t).state = .ready → t ∉ ts → s.schedAdd t now = .ok s' → Queued callback (t :: ts) s'
  | tick {s s' : Kernel T E} {ts : List T} {fuel : ℕ} {frame frame' : IsrFrame} {now now' : U64} :
      Queued callback ts s → s.schedOnTick callback fuel frame now now' = .ok (s', frame') →
      Queued callback ts s'
  | start {s s' : Kernel T E} {ts : List T} {now : U64} : Queued callback ts s →
      s.schedStart now = .ok s' → Queued callback ts s'
  | setQuantumNs {s s' : Kernel T E} {ts : List T} {ns now : U64} : Queued callback ts s →
      s.schedSetQuantumNs ns now = .ok s' → Queued callback ts s'

theorem Queued.ring {ts : List T} (h : Queued callback ts s) (hcb : KeepsRing callback) :
    ∃ current others, s.RunQueue current others ∧ (current :: others).Perm ts := by
  induction h with
  | init s t => exact ⟨t, [], .init s t, .refl _⟩
  | @first s s' t now hnone hadd =>
    unfold schedAdd at hadd
    rw [hnone] at hadd
    obtain rfl := Except.ok.inj hadd
    exact ⟨t, [], .init s t, .refl _⟩
  | @add s s' ts t now _ hready hnew hadd ih =>
    obtain ⟨current, others, hq, hperm⟩ := ih
    obtain ⟨s2, hadd', hq'⟩ := hq.add (fun hmem => hnew (hperm.mem_iff.mp hmem)) hready now
    obtain rfl := Except.ok.inj (hadd.symm.trans hadd')
    refine ⟨current, t :: others, hq', ?_⟩
    exact (List.Perm.swap _ _ _).trans (hperm.cons t)
  | @tick s s' ts fuel frame frame' now now' _ htick ih =>
    obtain ⟨current, others, hq, hperm⟩ := ih
    obtain herr | ⟨s2, frame2, current', others', hok, hq', hperm'⟩ := hq.tick hcb fuel frame now now'
    · exact absurd (htick.symm.trans herr) (by simp)
    · obtain ⟨rfl, -⟩ := Prod.mk.inj (Except.ok.inj (htick.symm.trans hok))
      exact ⟨current', others', hq', hperm'.trans hperm⟩
  | @start s s' ts now _ hstart ih =>
    obtain ⟨current, others, hq, hperm⟩ := ih
    obtain ⟨s2, harm, hq'⟩ := hq.arm now
    obtain rfl := Except.ok.inj (hstart.symm.trans harm)
    exact ⟨current, others, hq', hperm⟩
  | @setQuantumNs s s' ts ns now _ hset ih =>
    obtain ⟨current, others, hq, hperm⟩ := ih
    obtain ⟨s2, hset', hq'⟩ := hq.setQuantumNs ns now
    obtain rfl := Except.ok.inj (hset.symm.trans hset')
    exact ⟨current, others, hq', hperm⟩

/-- In every state reached the ring holds each thread added once, the current one running and the
others ready, and no call on it goes round for ever. -/
theorem run_queue (callback : U64 → U64 → Kernel T E → Kernel T E) (hcb : KeepsRing callback)
    (ts : List T) (s : Kernel T E) (h : Queued callback ts s) :
    (∃ current others, s.RunQueue current others ∧ (current :: others).Perm ts) ∧
    (∃ next ∈ ts, s.pickNext = .ok next) ∧
    (∀ t now, t ∉ ts → (s.thread t).state = .ready → ∃ s', s.schedAdd t now = .ok s') ∧
    (∀ fuel frame now now' e, s.schedOnTick callback fuel frame now now' = .error e →
      e = .endlessTimers) := by
  obtain ⟨current, others, hq, hperm⟩ := h.ring hcb
  refine ⟨⟨current, others, hq, hperm⟩, ?_, ?_, ?_⟩
  · obtain ⟨next, hmem, hnext⟩ := hq.onRing.pickNext_mem
    exact ⟨next, hperm.mem_iff.mp hmem, hnext⟩
  · intro t now hnew hready
    obtain ⟨s', hadd, -⟩ := hq.add (fun hmem => hnew (hperm.mem_iff.mp hmem)) hready now
    exact ⟨s', hadd⟩
  · intro fuel frame now now' e he
    obtain herr | ⟨s2, frame2, -, -, hok, -⟩ := hq.tick hcb fuel frame now now'
    · exact Except.error.inj (he.symm.trans herr)
    · exact absurd (he.symm.trans hok) (by simp)

def threeThreads : Kernel (Fin 3) (Fin 1) where
  thread := fun t => userThread 0x400000 0x701000 (BitVec.ofNat 64 (t + 1) <<< 13)
  event := fun _ => ⟨500, 0, 0, none⟩
  gHead := some 0
  gCurrent := none
  gQuantumNs := 1000
  gSliceEndNs := 0
  kernelRsp := 0
  rsp0 := 0
  timer := .stop

instance neZero_three : NeZero 3 := ⟨by decide⟩

def twoQueued : Kernel (Fin 3) (Fin 1) :=
  returned (threeThreads.schedInit 0) ((threeThreads.schedInit 0).schedAdd 1 100)

def threeQueued : Kernel (Fin 3) (Fin 1) := returned twoQueued (twoQueued.schedAdd 2 100)

def threeTick : Except Fault (Kernel (Fin 3) (Fin 1) × IsrFrame) :=
  let frame := (userThread 0x400010 0x700ff0 0 : Thread (Fin 3)).frame
  threeQueued.schedOnTick (fun _ _ s => s) 2 frame 1100 1200

def threeTicked : Kernel (Fin 3) (Fin 1) :=
  (returned (threeQueued, (threeQueued.thread 0).frame) threeTick).1

theorem threeTicked_queued : Queued (fun _ _ s => s) [2, 1, 0] threeTicked := by
  have h2 : Queued (fun _ _ s => s) [1, 0] twoQueued := by
    apply (Queued.init threeThreads 0).add _ _ (ok_returned _)
    all_goals decide +kernel
  have h3 : Queued (fun _ _ s => s) [2, 1, 0] threeQueued := by
    apply h2.add _ _ (ok_returned _)
    all_goals decide +kernel
  have hok : threeTick.isOk := by decide +kernel
  exact h3.tick (ok_returned (d := (threeQueued, (threeQueued.thread 0).frame)) hok)

theorem run_queue_threeTicked : threeTicked.gCurrent = some 2 ∧
    (∃ current others, threeTicked.RunQueue current others ∧ (current :: others).Perm [2, 1, 0]) ∧
    ∃ next ∈ [2, 1, 0], threeTicked.pickNext = .ok next := by
  have hcb : KeepsRing (fun _ _ s => s : U64 → U64 → Kernel (Fin 3) (Fin 1) → _) :=
    fun _ _ _ => .of_thread rfl rfl
  obtain ⟨hring, hnext, -⟩ := run_queue _ hcb _ _ threeTicked_queued
  exact ⟨by decide +kernel, hring, hnext⟩

end Kernel

end Mcincos
