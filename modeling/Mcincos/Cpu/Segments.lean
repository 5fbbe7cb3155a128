import Mcincos.Cpu.Gdt
import Mcincos.Cpu.InterruptFrames

namespace Mcincos

open Descriptors

namespace Descriptors

theorem gdtInit_decode (tss : U64) {i : Fin 7} (hlow : i < gdtTss) {access flags : BitVec 8}
    (hentry : gdtInit 0 i = gdtEntry 0 0xfffff access flags) :
    SegmentDescriptor.decode (gdtInit tss i) = ⟨0, 0xfffff, access, flags.extractLsb' 4 4⟩ := by
  have hne : i ≠ gdtTss ∧ i ≠ gdtTssHi := ⟨hlow.ne, (hlow.trans (by decide)).ne⟩
  have hsame : gdtInit tss i = gdtInit 0 i := by
    unfold gdtInit
    rw [gdtSetTss_kept _ _ _ hne.1 hne.2, gdtSetTss_kept _ _ _ hne.1 hne.2]
  rw [hsame, hentry]
  exact gdtEntry_decode 0 0xfffff access flags

structure Gdt.Valid (gdt : Gdt) (cs ss : U64) : Prop where
  code : gdt.CodeSegment cs
  stack : gdt.StackSegment cs ss

theorem valid_kernel (tss : U64) : (gdtInit tss).Valid Mcincos.kernelCs kernelDs := by
  have hcode : (gdtInit tss).lookup Mcincos.kernelCs = some ⟨0, 0xfffff, 0x9a, 0xa⟩ :=
    congrArg some (gdtInit_decode tss (by decide : gdtKcode < gdtTss) rfl)
  have hdata : (gdtInit tss).lookup kernelDs = some ⟨0, 0xfffff, 0x92, 0xc⟩ :=
    congrArg some (gdtInit_decode tss (by decide : gdtKdata < gdtTss) rfl)
  constructor
  · exact ⟨by decide, _, hcode, by decide⟩
  · exact ⟨by decide, _, hdata, by decide⟩

theorem valid_user (tss : U64) : (gdtInit tss).Valid Kernel.userCs Kernel.userDs := by
  have hcode : (gdtInit tss).lookup Kernel.userCs = some ⟨0, 0xfffff, 0xfa, 0xa⟩ :=
    congrArg some (gdtInit_decode tss (by decide : gdtUcode < gdtTss) rfl)
  have hdata : (gdtInit tss).lookup Kernel.userDs = some ⟨0, 0xfffff, 0xf2, 0xc⟩ :=
    congrArg some (gdtInit_decode tss (by decide : gdtUdata < gdtTss) rfl)
  constructor
  · exact ⟨by decide, _, hcode, by decide⟩
  · exact ⟨by decide, _, hdata, by decide⟩

theorem Gdt.Valid.returnable {gdt : Gdt} {cs ss rip : U64} (h : gdt.Valid cs ss) (hrip : Canonical rip) :
    gdt.Returnable cs ss rip :=
  ⟨h.code, .inl h.stack, hrip⟩

end Descriptors

namespace Kernel

variable {T E : Type} [DecidableEq T] [DecidableEq E] [Fintype T]

inductive BootRun (callback : U64 → U64 → Kernel T E → Kernel T E) (s0 : Kernel T E) : Kernel T E → Prop
  | start : BootRun callback s0 s0
  | add {s s' : Kernel T E} {t : T} {now : U64} : BootRun callback s0 s → s.schedAdd t now = .ok s' →
      BootRun callback s0 s'
  | tick {s s' : Kernel T E} {fuel : ℕ} {frame frame' : IsrFrame} {now now' : U64} : BootRun callback s0 s →
      frame.cs &&& 3 ≠ 3 → s.schedOnTick callback fuel frame now now' = .ok (s', frame') →
      BootRun callback s0 s'

variable {callback : U64 → U64 → Kernel T E → Kernel T E} {s0 s : Kernel T E}

theorem BootRun.run (h : BootRun callback s0 s) : ∃ last, Run callback s0 last s := by
  induction h with
  | start => exact ⟨_, .start⟩
  | add _ hadd ih =>
    obtain ⟨last, hrun⟩ := ih
    exact ⟨last, hrun.add hadd⟩
  | tick _ _ htick ih =>
    obtain ⟨last, hrun⟩ := ih
    exact ⟨_, hrun.tick htick⟩

theorem BootRun.frame (h : BootRun callback s0 s) (hcb : KeepsContexts callback)
    (hs : Saved (fun t => (s0.thread t).frame) s0) (t : T) : (s.thread t).frame = (s0.thread t).frame := by
  induction h with
  | start => rfl
  | add hboot hadd ih =>
    obtain ⟨last, hrun⟩ := hboot.run
    obtain ⟨current, hcurrent, -⟩ := (hrun.saved hcb hs).stack
    exact ((schedAdd_contexts (by simp [hcurrent]) hadd).frame t).trans ih
  | tick _ hkernel htick ih => exact ((kernelTick_contexts hcb hkernel htick).1.frame t).trans ih

end Kernel

namespace Processor

section Runs

variable {T E : Type} [DecidableEq T] [DecidableEq E] [Fintype T]

/-- The frames are for user code, as `thread_init_user` makes them. -/
def UserSegments (frame : IsrFrame) : Prop := frame.cs = Kernel.userCs ∧ frame.ss = Kernel.userDs

structure Booted (image : Image) (callback : U64 → U64 → Kernel T E → Kernel T E) (p : Processor T E) : Prop where
  gs : p.machine.kernelGsBase = p.machine.gCpuLocal
  kernel : ∃ (s : Kernel T E) (users : List (Kernel.UserThread T)) (bootstrap : T),
    (∀ t, t ∈ users.map Kernel.UserThread.thread) ∧ (∀ u ∈ users, 88 ≤ u.kstackTop.toNat) ∧
      Kernel.BootRun callback (s.boot users bootstrap) p.machine.kernel
  room : 40 ≤ (p.machine.regs.gpr .rsp).toNat
  idt : p.idt = idtInit image

theorem Booted.started {image : Image} {callback : U64 → U64 → Kernel T E → Kernel T E} {p : Processor T E}
    (h : p.Booted image callback) : p.machine.Started callback := by
  obtain ⟨s, users, bootstrap, hall, htops, hboot⟩ := h.kernel
  obtain ⟨last, hrun⟩ := hboot.run
  exact ⟨h.gs, s, users, bootstrap, last, hall, htops, hrun⟩

theorem Booted.threads {image : Image} {callback : U64 → U64 → Kernel T E → Kernel T E} {p : Processor T E}
    (h : p.Booted image callback) (hcb : Kernel.KeepsContexts callback) (t : T) :
    UserSegments (p.machine.kernel.thread t).frame := by
  obtain ⟨s, users, bootstrap, hall, -, hboot⟩ := h.kernel
  rw [hboot.frame hcb (Kernel.boot_saved s users bootstrap hall), Kernel.boot_frame]
  apply Kernel.initUsers_thread (P := fun th => UserSegments th.frame) s _ (.inl (hall t))
  exact fun _ _ => ⟨rfl, rfl⟩

/-- What the processor can come to from `enter_user` on: user code, which does not load segments,
system calls, and interrupts of the timer when they are on. -/
inductive Runs (image : Image) (callback : U64 → U64 → Kernel T E → Kernel T E) :
    Option (T × Regs) → Mode → Processor T E → Prop
  | start {p : Processor T E} (userRip userRsp : U64) : p.Booted image callback →
      Runs image callback none .user (p.enterUser userRip userRsp)
  | user {g : Option (T × Regs)} {p : Processor T E} (regs : Regs) (gsBase : U64) :
      Runs image callback g .user p →
      Runs image callback g .user { p with machine := { p.machine with regs, gsBase } }
  -- The address that SYSRET comes back to is canonical, as in `Machine.Reached`.
  | syscall {g : Option (T × Regs)} {p : Processor T E} {t : T} : Runs image callback g .user p →
      p.machine.kernel.gCurrent = some t → sysretFlags p.machine.regs.rflags = p.machine.regs.rflags →
      Runs image callback (some (t, p.machine.regs)) (.entry syscallEntryCode) p.syscall
  | instr {g : Option (T × Regs)} {p : Processor T E} {m : Machine T E} {i : Instr} {code : List Instr} :
      Runs image callback g (.entry (i :: code)) p → p.machine.exec i = some m →
      Runs image callback g (.entry code) { p with machine := m }
  | call {g : Option (T × Regs)} {p : Processor T E} {code : List Instr} (ret : U64) :
      Runs image callback g (.entry (.call :: code)) p →
      Runs image callback g (.dispatch code p.machine.regs) { p with machine := p.machine.call ret }
  | dispatch {g : Option (T × Regs)} {p : Processor T E} {code : List Instr} {caller regs : Regs}
      {stack : U64 → U64} : Runs image callback g (.dispatch code caller) p →
      regs.gpr .rsp ≤ caller.gpr .rsp →
      (∀ a, caller.gpr .rsp + 16 ≤ a → stack a = p.machine.stack a) →
      Runs image callback g (.dispatch code caller) { p with machine := { p.machine with regs, stack } }
  | ret {g : Option (T × Regs)} {p : Processor T E} {code : List Instr} {caller regs : Regs} :
      Runs image callback g (.dispatch code caller) p →
      (∀ r ∈ .rsp :: Machine.calleeSaved, regs.gpr r = caller.gpr r) →
      regs.rflags &&& fmask = caller.rflags &&& fmask →
      Runs image callback g (.entry code) { p with machine := { p.machine with regs } }
  | sysretq {g : Option (T × Regs)} {p : Processor T E} {code : List Instr} :
      Runs image callback g (.entry (.sysretq :: code)) p → Runs image callback g .user p.sysretq
  | timer {g : Option (T × Regs)} {mode : Mode} {p p' p'' : Processor T E} {label : Common} {fuel : ℕ}
      {now now' : U64} {kernel : Kernel T E} {f : IsrFrame} {m : Machine T E} :
      Runs image callback g mode p → p.machine.regs.rflags &&& fmask ≠ 0 → 176 ≤ (p.stackFor 240).toNat →
      p.enter image 240 0 = some (p', label) →
      p.machine.kernel.schedOnTick callback fuel (p.frame 240 0) now now' = .ok (kernel, f) →
      HandlerReturns p'.machine m f kernel → { p' with machine := m }.leave = some p'' →
      Runs image callback g (mode.iretq f) p''

variable {image : Image} {callback : U64 → U64 → Kernel T E → Kernel T E} {g : Option (T × Regs)} {mode : Mode}
  {p : Processor T E}

structure SegmentsInv (image : Image) (callback : U64 → U64 → Kernel T E → Kernel T E) (g : Option (T × Regs))
    (mode : Mode) (p : Processor T E) : Prop where
  reached : Machine.Reached callback g mode p.machine
  idt : p.idt = idtInit image
  user : mode = .user → p.cs = Kernel.userCs ∧ p.ss = Kernel.userDs
  kernel : mode ≠ .user → p.cs = Mcincos.kernelCs ∧ p.ss = kernelDs
  threads : ∀ t, p.machine.kernel.gCurrent ≠ some t → UserSegments (p.machine.kernel.thread t).frame

omit [DecidableEq T] [DecidableEq E] [Fintype T] in
theorem enterUser_spec (userRip userRsp : U64) (hlow : 40 ≤ (p.machine.regs.gpr .rsp).toNat) : ∃ regs stack,
    p.enterUser userRip userRsp = { p with
      machine := { p.machine with regs, stack }, cs := Kernel.userCs, ss := Kernel.userDs } := by
  let words := [Kernel.userDs, userRsp, p.machine.regs.rflags &&& ~~~fmask ||| 0x200, Kernel.userCs, userRip]
  have hroom : 8 * words.length ≤ (p.machine.regs.gpr .rsp).toNat := hlow
  obtain ⟨gpr, stack, hpush, -, -, hholds, -⟩ := Machine.pushWords_spec hroom
  obtain ⟨-, hcs, -, -, hss, -⟩ := hholds
  have hss' : stack (gpr .rsp + 32) = Kernel.userDs := by
    rw [show gpr .rsp + 32 = gpr .rsp + 8 + 8 + 8 + 8 by bv_omega]
    exact hss
  unfold enterUser iretq
  dsimp only
  rw [hpush]
  dsimp only [Machine.withStack_gpr, Machine.withStack_stack]
  rw [hcs, hss']
  exact ⟨_, _, rfl⟩

omit [DecidableEq T] [DecidableEq E] [Fintype T] in
theorem exec_threads {m m' : Machine T E} {i : Instr} (h : m.exec i = some m') :
    m'.kernel.thread = m.kernel.thread ∧ m'.kernel.gCurrent = m.kernel.gCurrent := by
  cases i with
  | movToGs offset src =>
    simp only [Machine.exec, Machine.gsStore] at h
    split_ifs at h
    · exact Option.some.inj h ▸ ⟨rfl, rfl⟩
    · exact Option.some.inj h ▸ ⟨rfl, rfl⟩
  | movFromGs dst offset =>
    obtain ⟨v, -, rfl⟩ := Option.map_eq_some_iff.mp h
    exact ⟨rfl, rfl⟩
  | call => exact absurd h (by simp [Machine.exec])
  | sysretq => exact absurd h (by simp [Machine.exec])
  | _ => exact Option.some.inj h ▸ ⟨rfl, rfl⟩

theorem reached_not_lost {m : Machine T E} (h : Machine.Reached callback g mode m)
    (hcb : Kernel.KeepsContexts callback) : mode ≠ .lost := by
  obtain ⟨rfl, -⟩ | ⟨t, u, -, -, hmode⟩ := h.inv hcb
  · simp
  · rintro rfl
    exact hmode

theorem SegmentsInv.segments (h : SegmentsInv image callback g mode p) (hcb : Kernel.KeepsContexts callback)
    (hon : p.machine.regs.rflags &&& fmask ≠ 0) : p.Segments mode := by
  cases mode with
  | user => exact h.user rfl
  | dispatch code caller => exact h.kernel (by simp)
  | entry code => exact absurd rfl (reached_not_lost (h.reached.entryTick hon) hcb)
  | lost => exact absurd rfl (reached_not_lost h.reached hcb)

theorem SegmentsInv.timer {p' : Processor T E} {label : Common} {fuel : ℕ} {now now' : U64} {kernel : Kernel T E}
    {f : IsrFrame} {m : Machine T E} (h : SegmentsInv image callback g mode p) (hlinked : image.Linked)
    (hcb : Kernel.KeepsContexts callback) (hon : p.machine.regs.rflags &&& fmask ≠ 0)
    (hroom : 176 ≤ (p.stackFor 240).toNat) (henter : p.enter image 240 0 = some (p', label))
    (htick : p.machine.kernel.schedOnTick callback fuel (p.frame 240 0) now now' = .ok (kernel, f))
    (hreturns : HandlerReturns p'.machine m f kernel) : ∃ p'', { p' with machine := m }.leave = some p'' ∧
      SegmentsInv image callback g (mode.iretq f) p'' := by
  obtain ⟨p1, hp1, hat⟩ := enter_spec 0 hlinked h.idt (by decide : Gated 240) hroom
  obtain ⟨rfl, -⟩ := Prod.mk.inj (Option.some.inj (henter.symm.trans hp1))
  obtain ⟨hleave, habove⟩ := hat.leave hreturns
  refine ⟨_, hleave, ?_⟩
  have hsegments := h.segments hcb hon
  have hreached := hsegments.tick h.reached htick habove
  have hidt := hat.idt.trans h.idt
  cases mode with
  | user =>
    obtain ⟨hcs, hss⟩ := hsegments
    have hframe : UserSegments (p.frame 240 0) := ⟨hcs, hss⟩
    obtain ⟨-, hcalm, -⟩ | ⟨t, u, -, -, hmode⟩ := h.reached.inv hcb
    · obtain ⟨last, hsaved⟩ := hcalm.saved
      obtain ⟨hcurrent', hthreads⟩ := hsaved.tick_frames (P := fun _ => UserSegments) hcb htick (fun _ _ => hframe)
        h.threads
      obtain ⟨current, hcurrent, -⟩ := (hsaved.tick hcb htick).1.stack
      have hf : UserSegments f := hcurrent' current hcurrent
      have hmode : Mode.user.iretq f = .user := by
        apply if_pos
        rw [hf.1]
        decide
      rw [hmode] at hreached ⊢
      exact ⟨hreached, hidt, fun _ => hf, fun hne => absurd rfl hne, hthreads⟩
    · exact hmode.elim
  | dispatch code caller =>
    obtain ⟨hcs, hss⟩ := hsegments
    have hkernel : (p.frame 240 0).cs &&& 3 ≠ 3 := by
      change p.cs &&& 3 ≠ 3
      rw [hcs]
      decide
    obtain ⟨hsame, rfl⟩ := Kernel.kernelTick_contexts hcb hkernel htick
    have hmode : (Mode.dispatch code caller).iretq (p.frame 240 0) = .dispatch code caller := if_neg hkernel
    rw [hmode] at hreached ⊢
    refine ⟨hreached, hidt, fun hne => absurd hne (by simp), fun _ => ⟨hcs, hss⟩, ?_⟩
    intro t ht
    change UserSegments (kernel.thread t).frame
    rw [hsame.frame]
    exact h.threads t (hsame.current ▸ ht)
  | entry code => exact hsegments.elim
  | lost => exact hsegments.elim

theorem Runs.inv (h : Runs image callback g mode p) (hlinked : image.Linked) (hcb : Kernel.KeepsContexts callback) :
    SegmentsInv image callback g mode p := by
  have hsyscallCs : (star.extractLsb' 32 16).setWidth 64 &&& 0xfffc = Mcincos.kernelCs := by decide
  have hsyscallSs : (star.extractLsb' 32 16).setWidth 64 + 8 = kernelDs := by decide
  have hsysretCs : (star.extractLsb' 48 16).setWidth 64 + 16 ||| 3 = Kernel.userCs := by decide
  have hsysretSs : (star.extractLsb' 48 16).setWidth 64 + 8 ||| 3 = Kernel.userDs := by decide
  induction h with
  | start userRip userRsp hbooted =>
    obtain ⟨regs, stack, hentered⟩ := enterUser_spec userRip userRsp hbooted.room
    rw [hentered]
    exact ⟨.start ⟨hbooted.started.gs, hbooted.started.booted⟩, hbooted.idt, fun _ => ⟨rfl, rfl⟩,
      fun hne => absurd rfl hne, fun t _ => hbooted.threads hcb t⟩
  | user regs gsBase _ ih => exact ⟨ih.reached.user regs gsBase, ih.idt, ih.user, ih.kernel, ih.threads⟩
  | syscall _ hcurrent hflags ih =>
    exact ⟨ih.reached.syscall hcurrent hflags, ih.idt, fun hne => absurd hne (by simp),
      fun _ => ⟨hsyscallCs, hsyscallSs⟩, ih.threads⟩
  | instr _ hexec ih =>
    obtain ⟨hthread, hcurrent⟩ := exec_threads hexec
    refine ⟨ih.reached.instr hexec, ih.idt, fun hne => absurd hne (by simp), fun _ => ih.kernel (by simp), ?_⟩
    intro t ht
    dsimp only at ht ⊢
    rw [hthread]
    exact ih.threads t (hcurrent ▸ ht)
  | call ret _ ih =>
    exact ⟨ih.reached.call ret, ih.idt, fun hne => absurd hne (by simp), fun _ => ih.kernel (by simp), ih.threads⟩
  | dispatch _ hle hstack ih =>
    exact ⟨ih.reached.dispatch hle hstack, ih.idt, fun hne => absurd hne (by simp), fun _ => ih.kernel (by simp),
      ih.threads⟩
  | ret _ hregs hflag ih =>
    exact ⟨ih.reached.ret hregs hflag, ih.idt, fun hne => absurd hne (by simp), fun _ => ih.kernel (by simp),
      ih.threads⟩
  | sysretq _ ih =>
    exact ⟨ih.reached.sysretq, ih.idt, fun _ => ⟨hsysretCs, hsysretSs⟩, fun hne => absurd rfl hne, ih.threads⟩
  | timer _ hon hroom henter htick hreturns hleave ih =>
    obtain ⟨p1, hleave1, hinv⟩ := ih.timer hlinked hcb hon hroom henter htick hreturns
    obtain rfl := Option.some.inj (hleave.symm.trans hleave1)
    exact hinv

theorem SegmentsInv.valid (h : SegmentsInv image callback g mode p) (tss : U64) : (gdtInit tss).Valid p.cs p.ss := by
  by_cases huser : mode = .user
  · obtain ⟨hcs, hss⟩ := h.user huser
    rw [hcs, hss]
    exact valid_user tss
  · obtain ⟨hcs, hss⟩ := h.kernel huser
    rw [hcs, hss]
    exact valid_kernel tss

theorem Runs.leaveChecked {q : Processor T E} (h : Runs image callback g mode p) (hlinked : image.Linked)
    (hcb : Kernel.KeepsContexts callback) (tss : U64) (hleave : q.leave = some p)
    (hrip : Canonical p.machine.regs.rip) : q.leaveChecked (gdtInit tss) = some { p with machine := { p.machine with
      regs := { p.machine.regs with rflags := iretqFlags p.machine.regs.rflags } } } :=
  leaveChecked_eq hleave (((h.inv hlinked hcb).valid tss).returnable hrip)

/-- From `enter_user` on the processor is always in segments that the GDT has for code of their
privilege, and so are the threads to be resumed. -/
theorem segments_valid (image : Image) (hlinked : image.Linked) (callback : U64 → U64 → Kernel T E → Kernel T E)
    (hcb : Kernel.KeepsContexts callback) (tss : U64) (g : Option (T × Regs)) (mode : Mode) (p : Processor T E)
    (h : Runs image callback g mode p) :
    (p.cs &&& 3 = 3 ↔ mode = .user) ∧ (gdtInit tss).Valid p.cs p.ss ∧
      (∀ t, p.machine.kernel.gCurrent ≠ some t → (gdtInit tss).Valid (p.machine.kernel.thread t).frame.cs
        (p.machine.kernel.thread t).frame.ss) ∧
      (∀ vec error p' label, p.enter image vec error = some (p', label) →
        (gdtInit tss).CodeSegment p'.cs ∧ p'.cs &&& 3 = 0) ∧
      ∀ q : Processor T E, q.leave = some p → Canonical p.machine.regs.rip →
        q.leaveChecked (gdtInit tss) = some { p with machine := { p.machine with
          regs := { p.machine.regs with rflags := iretqFlags p.machine.regs.rflags } } } := by
  have hinv := h.inv hlinked hcb
  refine ⟨?_, hinv.valid tss, ?_, ?_, fun q => h.leaveChecked hlinked hcb tss⟩
  · by_cases huser : mode = .user
    · rw [(hinv.user huser).1]
      exact iff_of_true (by decide) huser
    · rw [(hinv.kernel huser).1]
      exact iff_of_false (by decide) huser
  · intro t ht
    obtain ⟨hcs, hss⟩ := hinv.threads t ht
    rw [hcs, hss]
    exact valid_user tss
  · intro vec error p' label henter
    by_cases hgated : Gated vec
    · rw [enter_eq _ hlinked hinv.idt hgated] at henter
      obtain ⟨rfl, -⟩ := Prod.mk.inj (Option.some.inj henter)
      exact ⟨(valid_kernel tss).code, (by decide : Mcincos.kernelCs &&& 3 = 0)⟩
    · rw [enter_ungated hinv.idt hgated] at henter
      cases henter

theorem Runs.steps (is : List Instr) {rest : List Instr} {m : Machine T E}
    (h : Runs image callback g (.entry (is ++ rest)) p) (hexec : is.foldlM Machine.exec p.machine = some m) :
    Runs image callback g (.entry rest) { p with machine := m } := by
  induction is generalizing p with
  | nil => exact Option.some.inj hexec ▸ h
  | cons i is ih =>
    rw [List.foldlM_cons] at hexec
    obtain ⟨m1, hm1, hexec⟩ := Option.bind_eq_some_iff.mp hexec
    exact ih (p := { p with machine := m1 }) (h.instr hm1) hexec

def atEnterUser : Processor (Fin 3) (Fin 1) :=
  ⟨Machine.atUser, Mcincos.kernelCs, kernelDs, idtInit someImage, fun _ => 0⟩

def atSyscall : Processor (Fin 3) (Fin 1) :=
  let p := atEnterUser.enterUser 0x400000 0x700ff8
  { p with machine := { p.machine with regs := Machine.userRegs, gsBase := 0 } }.syscall

def atDispatchCall : Processor (Fin 3) (Fin 1) :=
  { atSyscall with machine := (syscallEntry.foldlM Machine.exec atSyscall.machine).getD atSyscall.machine }

def atDispatch : Processor (Fin 3) (Fin 1) :=
  let m := atDispatchCall.machine.call 0xffffffff80001000
  { atDispatchCall with machine := { m with regs := { m.regs with rflags := 0x202 } } }

theorem atDispatch_runs : Runs someImage (fun _ _ s => s) (some (0, Machine.userRegs))
    (.dispatch (syscallExit ++ [.sysretq, .mov .rdi .rax]) atDispatchCall.machine.regs) atDispatch := by
  have hboot : Kernel.BootRun (fun _ _ s => s) (Kernel.threeThreads.boot Kernel.threeUsers 0) Kernel.usersQueued :=
    Kernel.BootRun.start.add (ok_returned (by decide +kernel))
  have hbooted : atEnterUser.Booted someImage fun _ _ s => s :=
    ⟨rfl, ⟨Kernel.threeThreads, Kernel.threeUsers, 0, by decide, by decide, hboot⟩, by decide +kernel, rfl⟩
  have huser := (Runs.start 0x400000 0x700ff8 hbooted).user Machine.userRegs 0
  have hentry := huser.syscall (t := 0) (by decide +kernel) (by decide)
  have hexec : syscallEntry.foldlM Machine.exec atSyscall.machine = some atDispatchCall.machine := rfl
  have hcall : Runs someImage (fun _ _ s => s) (some (0, Machine.userRegs))
      (.entry (.call :: (syscallExit ++ [.sysretq, .mov .rdi .rax]))) atDispatchCall := hentry.steps syscallEntry hexec
  exact (hcall.call 0xffffffff80001000).dispatch (by decide +kernel) fun _ _ => rfl

theorem segments_valid_atDispatch : ∃ p p' p'' : Processor (Fin 3) (Fin 1),
    p.enter someImage 240 0 = some (p', .irqCommon) ∧ (∃ m, { p' with machine := m }.leave = some p'') ∧
    Runs someImage (fun _ _ s => s) (some (0, Machine.userRegs))
      (.dispatch (syscallExit ++ [.sysretq, .mov .rdi .rax]) atDispatchCall.machine.regs) p'' ∧
    (gdtInit 0xffffffff80002000).Valid p''.cs p''.ss := by
  have hcb : Kernel.KeepsContexts (fun _ _ s => s : U64 → U64 → Kernel (Fin 3) (Fin 1) → _) :=
    fun _ _ s => .refl s
  have hok : (atDispatch.machine.kernel.schedOnTick (fun _ _ s => s) 2 (atDispatch.frame 240 0) 1100 1200).isOk := by
    decide +kernel
  have htick := ok_returned (d := (atDispatch.machine.kernel, atDispatch.frame 240 0)) hok
  generalize returned _ _ = r at htick
  obtain ⟨kernel, f⟩ := r
  obtain ⟨-, rfl⟩ := Kernel.kernelTick_contexts hcb (by decide +kernel) htick
  have hroom : 176 ≤ (atDispatch.stackFor 240).toNat := by decide +kernel
  obtain ⟨p', henter, hat⟩ := enter_spec (p := atDispatch) 0 someImage_linked rfl (by decide : Gated 240) hroom
  have hreturns : HandlerReturns p'.machine { p'.machine with kernel } (atDispatch.frame 240 0) kernel :=
    ⟨fun _ _ => rfl, hat.frame, fun _ _ => rfl, rfl⟩
  obtain ⟨hleave, -⟩ := hat.leave hreturns
  have hruns := atDispatch_runs.timer (by decide +kernel) hroom henter htick hreturns hleave
  have hmode : (Mode.dispatch (syscallExit ++ [.sysretq, .mov .rdi .rax]) atDispatchCall.machine.regs).iretq
      (atDispatch.frame 240 0) = .dispatch _ atDispatchCall.machine.regs := if_neg (by decide +kernel)
  rw [hmode] at hruns
  exact ⟨atDispatch, p', _, henter, ⟨_, hleave⟩, hruns,
    (segments_valid someImage someImage_linked _ hcb 0xffffffff80002000 _ _ _ hruns).2.1⟩

end Runs

end Processor

end Mcincos
