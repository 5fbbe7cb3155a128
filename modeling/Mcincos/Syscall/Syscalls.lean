import Mcincos.Library.StraightLine
import Mcincos.Library.WordStack
import Mcincos.Sched.Contexts
import Mcincos.Syscall.Entry

namespace Mcincos

open StraightLine WordStack

namespace Machine

variable {T E : Type} {m m' : Machine T E} {rs : List Reg} {ws vs : List U64}

def withStack (m : Machine T E) (gpr : Reg → U64) (stack : U64 → U64) : Machine T E :=
  { m with regs := { m.regs with gpr }, stack }

@[simp] theorem withStack_gpr (m : Machine T E) (gpr : Reg → U64) (stack : U64 → U64) :
    (m.withStack gpr stack).regs.gpr = gpr :=
  rfl

@[simp] theorem withStack_stack (m : Machine T E) (gpr : Reg → U64) (stack : U64 → U64) :
    (m.withStack gpr stack).stack = stack :=
  rfl

@[simp] theorem withStack_withStack (m : Machine T E) (gpr gpr' : Reg → U64) (stack stack' : U64 → U64) :
    (m.withStack gpr stack).withStack gpr' stack' = m.withStack gpr' stack' :=
  rfl

theorem exec_push (m : Machine T E) (r : Reg) : m.exec (.push r) =
    some (m.withStack (Function.update m.regs.gpr .rsp (m.regs.gpr .rsp - 8))
      (Function.update m.stack (m.regs.gpr .rsp - 8) (m.regs.gpr r))) :=
  rfl

theorem exec_pop (m : Machine T E) (r : Reg) : m.exec (.pop r) =
    some (m.withStack (Function.update (Function.update m.regs.gpr .rsp (m.regs.gpr .rsp + 8)) r
      (m.stack (m.regs.gpr .rsp))) m.stack) :=
  rfl

theorem exec_sub (m : Machine T E) (dst : Reg) (n : U64) :
    m.exec (.sub dst n) = some (m.withStack (Function.update m.regs.gpr dst (m.regs.gpr dst - n)) m.stack) :=
  rfl

theorem exec_mov (m : Machine T E) (dst src : Reg) :
    m.exec (.mov dst src) = some (m.withStack (Function.update m.regs.gpr dst (m.regs.gpr src)) m.stack) :=
  rfl

def shifted (gpr : Reg → U64) : Reg → U64
  | .r12 => gpr .r9
  | .r9 => gpr .r8
  | .r8 => gpr .r10
  | .rcx => gpr .rdx
  | .rdx => gpr .rsi
  | .rsi => gpr .rdi
  | .rdi => gpr .rax
  | r => gpr r

theorem reaches_moves {Q : Machine T E → Prop} (h : Q (m.withStack (shifted m.regs.gpr) m.stack)) :
    Reaches exec [.mov .r12 .r9, .mov .r9 .r8, .mov .r8 .r10, .mov .rcx .rdx, .mov .rdx .rsi,
      .mov .rsi .rdi, .mov .rdi .rax] Q m := by
  iterate 7 apply Reaches.step (exec_mov _ _ _)
  rw [reaches_nil]
  simp only [withStack_gpr, withStack_stack, withStack_withStack]
  convert h using 2
  funext r
  cases r
  all_goals simp [shifted]

theorem reaches_pushes (hrs : .rsp ∉ rs) (h : Holds m.stack (m.regs.gpr .rsp) ws)
    (hlow : 8 * rs.length ≤ (m.regs.gpr .rsp).toNat)
    (hroom : (m.regs.gpr .rsp).toNat + 8 * ws.length ≤ 2 ^ 64) :
    Reaches exec (rs.map .push) (fun m' => ∃ gpr stack, m' = m.withStack gpr stack ∧
      gpr .rsp = m.regs.gpr .rsp - BitVec.ofNat 64 (8 * rs.length) ∧
      Holds stack (gpr .rsp) ((rs.map m.regs.gpr).reverse ++ ws) ∧
      ∀ r ≠ .rsp, gpr r = m.regs.gpr r) m := by
  induction rs generalizing m ws with
  | nil =>
    refine reaches_nil.mpr ⟨m.regs.gpr, m.stack, rfl, ?_, h, fun _ _ => rfl⟩
    exact (BitVec.sub_zero _).symm
  | cons r rs ih =>
    obtain ⟨hr, hrs⟩ := not_or.mp (List.mem_cons.not.mp hrs)
    rw [List.length_cons] at hlow
    have hsp : (m.regs.gpr .rsp - 8).toNat + 8 = (m.regs.gpr .rsp).toNat := by
      bv_omega
    apply Reaches.step (m.exec_push r)
    generalize hgpr1 : Function.update m.regs.gpr .rsp (m.regs.gpr .rsp - 8) = gpr1
    have hrsp1 : gpr1 .rsp = m.regs.gpr .rsp - 8 := by
      rw [← hgpr1, Function.update_self]
    have hother1 : ∀ r ≠ .rsp, gpr1 r = m.regs.gpr r := by
      intro r hr
      rw [← hgpr1, Function.update_of_ne hr]
    have hpush := h.push hroom (by omega) (m.regs.gpr r)
    generalize Function.update m.stack (m.regs.gpr .rsp - 8) (m.regs.gpr r) = stack1 at hpush
    rw [← hrsp1] at hpush hsp
    have hlow1 : 8 * rs.length ≤ (gpr1 .rsp).toNat := by
      omega
    have hroom1 : (gpr1 .rsp).toNat + 8 * (m.regs.gpr r :: ws).length ≤ 2 ^ 64 := by
      rw [List.length_cons]
      omega
    refine (ih (m := m.withStack gpr1 stack1) hrs hpush hlow1 hroom1).mono ?_
    · rintro m' ⟨gpr, stack, rfl, hsp', hholds, hother⟩
      have hmap : rs.map gpr1 = rs.map m.regs.gpr :=
        List.map_congr_left fun r' hr' => hother1 r' (ne_of_mem_of_not_mem hr' hrs)
      refine ⟨gpr, stack, rfl, ?_, ?_, fun r hr => (hother r hr).trans (hother1 r hr)⟩
      · change gpr .rsp = gpr1 .rsp - BitVec.ofNat 64 (8 * rs.length) at hsp'
        rw [hsp', hrsp1, List.length_cons]
        bv_omega
      · change Holds stack (gpr .rsp) ((rs.map gpr1).reverse ++ (m.regs.gpr r :: ws)) at hholds
        rw [hmap] at hholds
        simpa using hholds

theorem reaches_pops (hrs : (Reg.rsp :: rs).Nodup) (h : Holds m.stack (m.regs.gpr .rsp) ws)
    (hlength : rs.length = ws.length) :
    Reaches exec (rs.map .pop) (fun m' => ∃ gpr, m' = m.withStack gpr m.stack ∧
      gpr .rsp = m.regs.gpr .rsp + BitVec.ofNat 64 (8 * rs.length) ∧ rs.map gpr = ws ∧
      ∀ r ∉ Reg.rsp :: rs, gpr r = m.regs.gpr r) m := by
  induction rs generalizing m ws with
  | nil =>
    obtain rfl := List.length_eq_zero_iff.mp hlength.symm
    refine reaches_nil.mpr ⟨m.regs.gpr, rfl, ?_, rfl, fun _ _ => rfl⟩
    exact (BitVec.add_zero _).symm
  | cons r rs ih =>
    obtain ⟨w, ws, rfl⟩ := List.exists_cons_of_length_eq_add_one hlength.symm
    obtain ⟨hrsp, hr, hnodup⟩ : (Reg.rsp ≠ r ∧ Reg.rsp ∉ rs) ∧ r ∉ rs ∧ rs.Nodup := by
      simpa [not_or] using hrs
    apply Reaches.step (m.exec_pop r)
    generalize hgpr1 : Function.update (Function.update m.regs.gpr .rsp (m.regs.gpr .rsp + 8)) r
      (m.stack (m.regs.gpr .rsp)) = gpr1
    have hr1 : gpr1 r = w := by
      rw [← hgpr1, Function.update_self]
      exact h.1
    have hrsp1 : gpr1 .rsp = m.regs.gpr .rsp + 8 := by
      rw [← hgpr1, Function.update_of_ne hrsp.1, Function.update_self]
    have hother1 : ∀ r' ∉ Reg.rsp :: r :: rs, gpr1 r' = m.regs.gpr r' := by
      intro r' hr'
      simp only [List.mem_cons, not_or] at hr'
      rw [← hgpr1, Function.update_of_ne hr'.2.1, Function.update_of_ne hr'.1]
    have hrest : Holds m.stack (gpr1 .rsp) ws := hrsp1 ▸ h.2
    refine (ih (m := m.withStack gpr1 m.stack) (List.nodup_cons.mpr ⟨hrsp.2, hnodup⟩) hrest
      (Nat.succ.inj hlength)).mono ?_
    rintro m' ⟨gpr, rfl, hsp', hws, hother⟩
    have hkeep : gpr r = w := (hother r (by simp [hrsp.1.symm, hr])).trans hr1
    refine ⟨gpr, rfl, ?_, ?_, ?_⟩
    · change gpr .rsp = gpr1 .rsp + BitVec.ofNat 64 (8 * rs.length) at hsp'
      rw [hsp', hrsp1, List.length_cons]
      bv_omega
    · rw [List.map_cons, hkeep, hws]
    · intro r' hr'
      have hr'' : r' ∉ Reg.rsp :: rs := by
        simp only [List.mem_cons, not_or] at hr' ⊢
        exact ⟨hr'.1, hr'.2.2⟩
      exact (hother r' hr'').trans (hother1 r' hr')

/-- The scheduler is as ticks leave it, and every kernel stack has room for `syscall_entry` and its call. -/
structure Calm (m : Machine T E) : Prop where
  saved : ∃ last, Kernel.Saved last m.kernel
  room : ∀ t, 88 ≤ (m.kernel.thread t).kstackTop.toNat

def savedWords (u : Regs) : List U64 :=
  [u.gpr .r15, u.gpr .r14, u.gpr .r13, u.gpr .r12, u.gpr .rbp, u.gpr .rbx, u.rip, u.rflags]

structure InSyscall (t : T) (u : Regs) (sp : U64) (m : Machine T E) : Prop where
  calm : m.Calm
  current : m.kernel.gCurrent = some t
  gs : m.gsBase = m.gCpuLocal
  userRsp : m.userRsp = u.gpr .rsp
  low : 8 ≤ sp.toNat
  room : sp.toNat + 80 < 2 ^ 64
  words : Holds m.stack (sp + 16) (savedWords u)

structure Arguments (u : Regs) (m : Machine T E) : Prop where
  num : m.regs.gpr .rdi = u.gpr .rax
  a1 : m.regs.gpr .rsi = u.gpr .rdi
  a2 : m.regs.gpr .rdx = u.gpr .rsi
  a3 : m.regs.gpr .rcx = u.gpr .rdx
  a4 : m.regs.gpr .r8 = u.gpr .r10
  a5 : m.regs.gpr .r9 = u.gpr .r8
  a6 : m.stack (m.regs.gpr .rsp) = u.gpr .r9

def calleeSaved : List Reg := [.rbx, .rbp, .r12, .r13, .r14, .r15]

structure Returns (t : T) (u : Regs) (m : Machine T E) : Prop where
  calm : m.Calm
  current : m.kernel.gCurrent = some t
  gs : m.kernelGsBase = m.gCpuLocal
  rcx : m.regs.gpr .rcx = u.rip
  r11 : m.regs.gpr .r11 = u.rflags
  same : ∀ r ∈ .rsp :: calleeSaved, m.regs.gpr r = u.gpr r

variable {t : T} {u : Regs} {sp : U64}

theorem Calm.kernelRsp (h : m.Calm) : 88 ≤ m.kernel.kernelRsp.toNat := by
  obtain ⟨last, hsaved⟩ := h.saved
  obtain ⟨current, -, hrsp, -⟩ := hsaved.stack
  rw [hrsp]
  exact h.room current

structure Entered (t : T) (u : Regs) (m : Machine T E) : Prop where
  calm : m.Calm
  current : m.kernel.gCurrent = some t
  gs : m.gsBase = m.gCpuLocal
  userRsp : m.userRsp = u.gpr .rsp
  rsp : m.regs.gpr .rsp = m.kernel.kernelRsp
  rcx : m.regs.gpr .rcx = u.rip
  r11 : m.regs.gpr .r11 = u.rflags
  same : ∀ r ∉ [Reg.rsp, .rcx, .r11], m.regs.gpr r = u.gpr r

theorem exec_movToGs (hgs : m.gsBase = m.gCpuLocal) : m.exec (.movToGs cpuLocalUserRsp .rsp) =
    some { m with userRsp := m.regs.gpr .rsp } := by
  rw [exec, gsStore, if_neg (not_not.mpr hgs), if_neg (by decide), if_pos rfl]

theorem exec_movFromGs_kernelRsp (hgs : m.gsBase = m.gCpuLocal) :
    m.exec (.movFromGs .rsp cpuLocalKernelRsp) = some (m.setReg .rsp m.kernel.kernelRsp) := by
  rw [exec, gsLoad, if_neg (not_not.mpr hgs), if_pos rfl]
  rfl

theorem exec_movFromGs_userRsp (hgs : m.gsBase = m.gCpuLocal) :
    m.exec (.movFromGs .rsp cpuLocalUserRsp) = some (m.setReg .rsp m.userRsp) := by
  rw [exec, gsLoad, if_neg (not_not.mpr hgs), if_neg (by decide), if_pos rfl]
  rfl

theorem reaches_entered (h : m.Calm) (hgs : m.kernelGsBase = m.gCpuLocal)
    (hcurrent : m.kernel.gCurrent = some t) :
    Reaches exec (syscallEntry.take 3) (Entered t m.regs) m.syscall := by
  apply Reaches.step rfl
  apply Reaches.step (exec_movToGs hgs)
  apply Reaches.step (exec_movFromGs_kernelRsp hgs)
  apply reaches_nil.mpr
  refine ⟨⟨h.saved, h.room⟩, hcurrent, hgs, rfl, rfl, rfl, rfl, fun r hr => ?_⟩
  simp only [List.mem_cons, List.not_mem_nil, or_false, not_or] at hr
  obtain ⟨hrsp, hrcx, hr11⟩ := hr
  simp only [setReg, syscall]
  rw [Function.update_of_ne hrsp, Function.update_of_ne hr11, Function.update_of_ne hrcx]

theorem Entered.inSyscall {gpr gpr' : Reg → U64} {stack : U64 → U64} (h : Entered t u m)
    (hsp : gpr .rsp = m.kernel.kernelRsp - 64) (hholds : Holds stack (gpr .rsp) (savedWords u)) :
    InSyscall t u (gpr .rsp - 8 - 8)
      (m.withStack gpr' (Function.update stack (gpr .rsp - 8 - 8) (u.gpr .r9))) := by
  have htop := h.calm.kernelRsp
  have hback : gpr .rsp - 8 - 8 + 16 = gpr .rsp := by
    bv_omega
  have hroom : (gpr .rsp).toNat + 64 < 2 ^ 64 := by
    rw [hsp]
    bv_omega
  refine ⟨⟨h.calm.saved, h.calm.room⟩, h.current, h.gs, h.userRsp, ?_, ?_, ?_⟩
  · rw [hsp]
    bv_omega
  · rw [hsp]
    bv_omega
  · rw [hback]
    apply hholds.congr
    · exact Nat.le_of_lt hroom
    · intro b hb
      apply Function.update_of_ne
      rintro rfl
      rw [hsp] at hb
      bv_omega

theorem reaches_syscallEntry (h : Entered t u m) :
    Reaches exec (syscallEntry.drop 3) (fun m' => InSyscall t u (m'.regs.gpr .rsp) m' ∧
      Arguments u m') m := by
  have htop := h.calm.kernelRsp
  rw [show syscallEntry.drop 3 = [Reg.r11, .rcx, .rbx, .rbp, .r12, .r13, .r14, .r15].map .push ++
    syscallEntry.drop 11 from rfl, reaches_append]
  have hpushes : Holds m.stack (m.regs.gpr .rsp) [] := trivial
  refine (reaches_pushes (by decide) hpushes ?_ ?_).mono ?_
  · rw [h.rsp]
    simp only [List.length_cons, List.length_nil]
    omega
  · simp only [List.length_nil]
    omega
  rintro m2 ⟨gpr, stack, rfl, hsp, hholds, hother⟩
  have hwords : ([Reg.r11, .rcx, .rbx, .rbp, .r12, .r13, .r14, .r15].map m.regs.gpr).reverse ++ [] =
      savedWords u := by
    have hsame (r : Reg) (hr : r ∉ [Reg.rsp, .rcx, .r11]) := h.same r hr
    simp [savedWords, h.r11, h.rcx, hsame]
  rw [hwords] at hholds
  rw [h.rsp] at hsp
  have hkept (r : Reg) (hr : r ∉ [Reg.rsp, .rcx, .r11]) : gpr r = u.gpr r :=
    (hother r (by rintro rfl; simp at hr)).trans (h.same r hr)
  rw [show syscallEntry.drop 11 = syscallEntry.extract 11 18 ++ [.sub .rsp 8, .push .r12] from rfl,
    reaches_append]
  apply reaches_moves
  apply Reaches.step (exec_sub _ _ _)
  apply Reaches.step (exec_push _ _)
  rw [reaches_nil]
  simp only [withStack_gpr, withStack_stack, withStack_withStack, Function.update_self]
  have hr12 : Function.update (shifted gpr) .rsp (shifted gpr .rsp - 8) .r12 = u.gpr .r9 :=
    (Function.update_of_ne (by decide) _ _).trans (hkept .r9 (by decide))
  have harg (r : Reg) (hr : r ≠ .rsp) : Function.update (Function.update (shifted gpr) .rsp
      (shifted gpr .rsp - 8)) .rsp (shifted gpr .rsp - 8 - 8) r = shifted gpr r := by
    rw [Function.update_of_ne hr, Function.update_of_ne hr]
  rw [hr12]
  constructor
  · exact h.inSyscall hsp hholds
  · constructor
    all_goals simp only [withStack_gpr, withStack_stack]
    · exact (harg .rdi (by decide)).trans (hkept .rax (by decide))
    · exact (harg .rsi (by decide)).trans (hkept .rdi (by decide))
    · exact (harg .rdx (by decide)).trans (hkept .rsi (by decide))
    · exact (harg .rcx (by decide)).trans (hkept .rdx (by decide))
    · exact (harg .r8 (by decide)).trans (hkept .r10 (by decide))
    · exact (harg .r9 (by decide)).trans (hkept .r8 (by decide))
    · rw [Function.update_self, Function.update_self]

theorem reaches_syscallExit (h : InSyscall t u (m.regs.gpr .rsp) m) :
    Reaches exec syscallExit (Returns t u) m := by
  apply Reaches.step rfl
  have hcode : syscallExit.drop 1 = [Reg.r15, .r14, .r13, .r12, .rbp, .rbx, .rcx, .r11].map .pop ++
      syscallExit.drop 9 := rfl
  change Reaches exec (syscallExit.drop 1) _ _
  rw [hcode, reaches_append]
  refine (reaches_pops (by decide) h.words rfl).mono ?_
  rintro m2 ⟨gpr, rfl, hsp, hpopped, hother⟩
  refine Reaches.step (exec_movFromGs_userRsp ?_) ?_
  · exact h.gs
  apply Reaches.step rfl
  rw [reaches_nil]
  simp only [savedWords, List.map_cons, List.map_nil, List.cons.injEq, and_true] at hpopped
  obtain ⟨h15, h14, h13, h12, hbp, hbx, hcx, h11⟩ := hpopped
  refine ⟨⟨h.calm.saved, h.calm.room⟩, h.current, h.gs, hcx, h11, fun r hr => ?_⟩
  have hrest (r : Reg) (hr : r ≠ .rsp) : Function.update gpr .rsp m.userRsp r = gpr r :=
    Function.update_of_ne hr _ _
  simp only [calleeSaved, List.mem_cons, List.not_mem_nil, or_false] at hr
  obtain rfl | rfl | rfl | rfl | rfl | rfl | rfl := hr
  · exact (Function.update_self Reg.rsp m.userRsp gpr).trans h.userRsp
  · exact (hrest _ (by decide)).trans hbx
  · exact (hrest _ (by decide)).trans hbp
  · exact (hrest _ (by decide)).trans h12
  · exact (hrest _ (by decide)).trans h13
  · exact (hrest _ (by decide)).trans h14
  · exact (hrest _ (by decide)).trans h15

section Runs

variable [DecidableEq T] [DecidableEq E] [Fintype T]

structure Started (callback : U64 → U64 → Kernel T E → Kernel T E) (m : Machine T E) : Prop where
  gs : m.kernelGsBase = m.gCpuLocal
  booted : ∃ (s : Kernel T E) (users : List (Kernel.UserThread T)) (bootstrap : T) (last : T → IsrFrame),
    (∀ t, t ∈ users.map Kernel.UserThread.thread) ∧ (∀ u ∈ users, 88 ≤ u.kstackTop.toNat) ∧
      Kernel.Run callback (s.boot users bootstrap) last m.kernel

/-- The states of a run, with the thread that has last made a system call and its registers at
SYSCALL. The C code called or interrupted keeps to its calling convention: it leaves alone its
caller's frame, and returns with the callee-saved registers and the interrupt flag as they were. -/
inductive Reached (callback : U64 → U64 → Kernel T E → Kernel T E) :
    Option (T × Regs) → Mode → Machine T E → Prop
  | start {m : Machine T E} : Started callback m → Reached callback none .user m
  | user {g : Option (T × Regs)} {m : Machine T E} (regs : Regs) (gsBase : U64) :
      Reached callback g .user m → Reached callback g .user { m with regs, gsBase }
  -- The address behind the instruction is canonical: no page that ends at 2 ^ 47 is mapped to user code.
  | syscall {g : Option (T × Regs)} {m : Machine T E} {t : T} : Reached callback g .user m →
      m.kernel.gCurrent = some t → sysretFlags m.regs.rflags = m.regs.rflags →
      Reached callback (some (t, m.regs)) (.entry syscallEntryCode) m.syscall
  | instr {g : Option (T × Regs)} {m m' : Machine T E} {i : Instr} {code : List Instr} :
      Reached callback g (.entry (i :: code)) m → m.exec i = some m' →
      Reached callback g (.entry code) m'
  | call {g : Option (T × Regs)} {m : Machine T E} {code : List Instr} (ret : U64) :
      Reached callback g (.entry (.call :: code)) m →
      Reached callback g (.dispatch code m.regs) (m.call ret)
  | dispatch {g : Option (T × Regs)} {m : Machine T E} {code : List Instr} {caller regs : Regs}
      {stack : U64 → U64} : Reached callback g (.dispatch code caller) m →
      regs.gpr .rsp ≤ caller.gpr .rsp →
      (∀ a, caller.gpr .rsp + 16 ≤ a → stack a = m.stack a) →
      Reached callback g (.dispatch code caller) { m with regs, stack }
  | ret {g : Option (T × Regs)} {m : Machine T E} {code : List Instr} {caller regs : Regs} :
      Reached callback g (.dispatch code caller) m →
      (∀ r ∈ .rsp :: calleeSaved, regs.gpr r = caller.gpr r) →
      regs.rflags &&& fmask = caller.rflags &&& fmask →
      Reached callback g (.entry code) { m with regs }
  | sysretq {g : Option (T × Regs)} {m : Machine T E} {code : List Instr} :
      Reached callback g (.entry (.sysretq :: code)) m → Reached callback g .user m.sysretq
  | userTick {g : Option (T × Regs)} {m : Machine T E} {fuel : ℕ} {vector now now' : U64}
      {kernel : Kernel T E} {frame : IsrFrame} (stack : U64 → U64) : Reached callback g .user m →
      m.kernel.schedOnTick callback fuel (m.regs.frame vector Kernel.userCs Kernel.userDs) now now' =
        .ok (kernel, frame) →
      Reached callback g (Mode.user.iretq frame) { m with kernel, stack, regs := .ofFrame frame }
  | entryTick {g : Option (T × Regs)} {m : Machine T E} {code : List Instr} :
      Reached callback g (.entry code) m → m.regs.rflags &&& fmask ≠ 0 → Reached callback g .lost m
  | kernelTick {g : Option (T × Regs)} {m : Machine T E} {code : List Instr} {caller : Regs}
      {fuel : ℕ} {vector now now' : U64} {kernel : Kernel T E} {frame : IsrFrame}
      {stack : U64 → U64} : Reached callback g (.dispatch code caller) m →
      m.kernel.schedOnTick callback fuel (m.regs.frame vector kernelCs kernelDs) now now' =
        .ok (kernel, frame) →
      (∀ a, m.regs.gpr .rsp ≤ a → stack a = m.stack a) →
      Reached callback g ((Mode.dispatch code caller).iretq frame)
        { m with kernel, stack, regs := .ofFrame frame }

variable {callback : U64 → U64 → Kernel T E → Kernel T E} {g : Option (T × Regs)} {mode : Mode}
  {code : List Instr} {caller : Regs}

def Entering (t : T) (u : Regs) (code : List Instr) (m : Machine T E) : Prop :=
  ∃ before, code = before ++ .call :: (syscallExit ++ [.sysretq, .mov .rdi .rax]) ∧
    Reaches exec before (fun m' => InSyscall t u (m'.regs.gpr .rsp) m' ∧ Arguments u m') m

def Leaving (t : T) (u : Regs) (code : List Instr) (m : Machine T E) : Prop :=
  ∃ before, code = before ++ [.sysretq, .mov .rdi .rax] ∧ Reaches exec before (Returns t u) m

def ModeInv (t : T) (u : Regs) (mode : Mode) (m : Machine T E) : Prop :=
  match mode with
  | .entry code => m.regs.rflags &&& fmask = 0 ∧ (Entering t u code m ∨ Leaving t u code m)
  | .dispatch code caller => code = syscallExit ++ [.sysretq, .mov .rdi .rax] ∧
      caller.rflags &&& fmask = 0 ∧ InSyscall t u (caller.gpr .rsp) m ∧
      m.regs.gpr .rsp ≤ caller.gpr .rsp
  | _ => False

def Inv (g : Option (T × Regs)) (mode : Mode) (m : Machine T E) : Prop :=
  mode = .user ∧ m.Calm ∧ m.kernelGsBase = m.gCpuLocal ∨
    ∃ t u, g = some (t, u) ∧ sysretFlags u.rflags = u.rflags ∧ ModeInv t u mode m

theorem Started.calm (h : m.Started callback) (hcb : Kernel.KeepsContexts callback) : m.Calm := by
  obtain ⟨s, users, bootstrap, last, hall, hroom, hrun⟩ := h.booted
  have hsaved := Kernel.boot_saved s users bootstrap hall
  refine ⟨⟨last, hrun.saved hcb hsaved⟩, fun t => ?_⟩
  rw [hrun.kstackTop hcb hsaved, Kernel.boot_kstackTop]
  exact Kernel.initUsers_thread (P := fun th => 88 ≤ th.kstackTop.toNat) s hroom (.inl (hall t))

section Parts

omit [DecidableEq T] [DecidableEq E] [Fintype T]

theorem exec_rflags {i : Instr} (h : m.exec i = some m') : m'.regs.rflags = m.regs.rflags := by
  cases i with
  | movToGs offset src =>
    simp only [exec, gsStore] at h
    split_ifs at h
    all_goals exact Option.some.inj h ▸ rfl
  | movFromGs dst offset =>
    obtain ⟨v, -, rfl⟩ := Option.map_eq_some_iff.mp h
    rfl
  | call => exact absurd h (by simp [exec])
  | sysretq => exact absurd h (by simp [exec])
  | _ => exact Option.some.inj h ▸ rfl

theorem reaches_exec {before after : List Instr} {i j : Instr} {Q : Machine T E → Prop}
    (hj : ∀ m : Machine T E, m.exec j = none) (hexec : m.exec i = some m')
    (hcode : i :: code = before ++ j :: after) (h : Reaches exec before Q m) :
    ∃ before', code = before' ++ j :: after ∧ Reaches exec before' Q m' := by
  cases before with
  | nil =>
    obtain rfl := (List.cons.inj hcode).1
    exact absurd ((hj m).symm.trans hexec) (by simp)
  | cons k before =>
    obtain ⟨rfl, hrest⟩ := List.cons.inj hcode
    obtain ⟨m1, hm1, h⟩ := reaches_cons.mp h
    obtain rfl := Option.some.inj (hm1.symm.trans hexec)
    exact ⟨before, hrest, h⟩

theorem reaches_before {before code rest : List Instr} {i : Instr} {Q : Machine T E → Prop}
    (hi : m.exec i = none) (hcode : i :: rest = before ++ code) (h : Reaches exec before Q m) :
    i :: rest = code ∧ Q m := by
  cases before with
  | nil => exact ⟨hcode, reaches_nil.mp h⟩
  | cons j before =>
    obtain ⟨m', hm', -⟩ := reaches_cons.mp h
    obtain rfl := (List.cons.inj hcode).1
    exact absurd (hi.symm.trans hm') (by simp)

theorem Entering.at_call (h : Entering t u (.call :: code) m) :
    code = syscallExit ++ [.sysretq, .mov .rdi .rax] ∧ InSyscall t u (m.regs.gpr .rsp) m ∧
      Arguments u m := by
  obtain ⟨before, hcode, hreach⟩ := h
  obtain ⟨hcode, hin, hargs⟩ := reaches_before rfl hcode hreach
  exact ⟨(List.cons.inj hcode).2, hin, hargs⟩

theorem Leaving.at_sysretq (h : Leaving t u (.sysretq :: code) m) : Returns t u m := by
  obtain ⟨before, hcode, hreach⟩ := h
  exact (reaches_before rfl hcode hreach).2

theorem not_entering_sysretq : ¬Entering t u (.sysretq :: code) m := by
  rintro ⟨before, hcode, hreach⟩
  exact absurd (reaches_before rfl hcode hreach).1 (by simp)

theorem not_leaving_call : ¬Leaving t u (.call :: code) m := by
  rintro ⟨before, hcode, hreach⟩
  exact absurd (reaches_before rfl hcode hreach).1 (by simp)

theorem InSyscall.stack {stack : U64 → U64} {regs : Regs} (h : InSyscall t u sp m)
    (hstack : ∀ a, sp + 16 ≤ a → stack a = m.stack a) :
    InSyscall t u sp { m with regs, stack } := by
  refine ⟨⟨h.calm.saved, h.calm.room⟩, h.current, h.gs, h.userRsp, h.low, h.room, ?_⟩
  apply h.words.congr _ hstack
  have hroom := h.room
  simp only [savedWords, List.length_cons, List.length_nil]
  bv_omega

theorem InSyscall.same {kernel : Kernel T E} (h : InSyscall t u sp m)
    (hs : Kernel.SameContexts m.kernel kernel) : InSyscall t u sp { m with kernel } := by
  obtain ⟨last, hsaved⟩ := h.calm.saved
  refine ⟨⟨⟨last, hsaved.same hs⟩, fun t' => ?_⟩, hs.current.trans h.current, h.gs, h.userRsp, h.low,
    h.room, h.words⟩
  rw [hs.kstackTop]
  exact h.calm.room t'

theorem fmask_syscall (m : Machine T E) : m.syscall.regs.rflags &&& fmask = 0 := by
  change (m.regs.rflags &&& ~~~fmask) &&& fmask = 0
  rw [BitVec.and_assoc, BitVec.and_comm (~~~fmask), BitVec.and_not_self]
  exact BitVec.and_zero

theorem entering_syscall (h : m.Calm) (hgs : m.kernelGsBase = m.gCpuLocal)
    (hcurrent : m.kernel.gCurrent = some t) : Entering t m.regs syscallEntryCode m.syscall := by
  refine ⟨syscallEntry, rfl, ?_⟩
  rw [← List.take_append_drop 3 syscallEntry, reaches_append]
  exact (reaches_entered h hgs hcurrent).mono fun _ hentered => reaches_syscallEntry hentered

theorem ModeInv.instr {i : Instr} (h : ModeInv t u (.entry (i :: code)) m) (hexec : m.exec i = some m') :
    ModeInv t u (.entry code) m' := by
  refine ⟨(exec_rflags hexec).symm ▸ h.1, ?_⟩
  obtain ⟨before, hcode, hreach⟩ | ⟨before, hcode, hreach⟩ := h.2
  · exact .inl (reaches_exec (fun _ => rfl) hexec hcode hreach)
  · exact .inr (reaches_exec (fun _ => rfl) hexec hcode hreach)

theorem ModeInv.call (h : ModeInv t u (.entry (.call :: code)) m) (ret : U64) :
    ModeInv t u (.dispatch code m.regs) (m.call ret) := by
  obtain ⟨hcode, hin, -⟩ := (h.2.resolve_right not_leaving_call).at_call
  have hlow := hin.low
  refine ⟨hcode, h.1, ?_, ?_⟩
  · apply hin.stack
    intro a ha
    have hroom := hin.room
    apply Function.update_of_ne
    rintro rfl
    bv_omega
  · change m.regs.gpr .rsp - 8 ≤ m.regs.gpr .rsp
    bv_omega

theorem ModeInv.ret {regs : Regs} (h : ModeInv t u (.dispatch code caller) m)
    (hregs : ∀ r ∈ .rsp :: calleeSaved, regs.gpr r = caller.gpr r)
    (hflag : regs.rflags &&& fmask = caller.rflags &&& fmask) :
    ModeInv t u (.entry code) { m with regs } := by
  obtain ⟨rfl, hcaller, hin, -⟩ := h
  refine ⟨hflag.trans hcaller, .inr ⟨syscallExit, rfl, ?_⟩⟩
  apply reaches_syscallExit
  rw [← hregs .rsp List.mem_cons_self] at hin
  exact hin.stack fun _ _ => rfl

end Parts

theorem Calm.userTick {fuel : ℕ} {vector now now' : U64} {kernel : Kernel T E} {frame : IsrFrame}
    (h : m.Calm) (hcb : Kernel.KeepsContexts callback) (htick : m.kernel.schedOnTick callback fuel
      (m.regs.frame vector Kernel.userCs Kernel.userDs) now now' = .ok (kernel, frame))
    (stack : U64 → U64) (regs : Regs) :
    Calm { m with kernel, stack, regs } ∧ frame.cs &&& 3 = 3 := by
  obtain ⟨last, hsaved⟩ := h.saved
  obtain ⟨hsaved', hclean⟩ := hsaved.tick hcb htick
  refine ⟨⟨⟨_, hsaved'⟩, fun t => ?_⟩, ?_⟩
  · exact (Kernel.tick_kstackTop hcb htick t).symm ▸ h.room t
  · obtain ⟨current, hcurrent, -⟩ := hsaved'.stack
    by_cases hstays : m.kernel.gCurrent = some current
    · rw [hclean.stays (hcurrent.trans hstays.symm)]
      exact (by decide : Kernel.userCs &&& 3 = 3)
    · exact (hclean.resumes current hcurrent hstays).2

theorem ModeInv.kernelTick {fuel : ℕ} {vector now now' : U64} {kernel : Kernel T E} {frame : IsrFrame}
    {stack : U64 → U64} (h : ModeInv t u (.dispatch code caller) m)
    (hcb : Kernel.KeepsContexts callback) (htick : m.kernel.schedOnTick callback fuel
      (m.regs.frame vector kernelCs kernelDs) now now' = .ok (kernel, frame))
    (hstack : ∀ a, m.regs.gpr .rsp ≤ a → stack a = m.stack a) :
    ModeInv t u ((Mode.dispatch code caller).iretq frame)
      { m with kernel, stack, regs := .ofFrame frame } := by
  obtain ⟨hcode, hcaller, hin, hle⟩ := h
  have hkernel : kernelCs &&& 3 ≠ 3 := by decide
  obtain ⟨hsame, rfl⟩ := Kernel.kernelTick_contexts hcb hkernel htick
  have hmode : (Mode.dispatch code caller).iretq (m.regs.frame vector kernelCs kernelDs) =
      .dispatch code caller := if_neg hkernel
  rw [hmode, Regs.ofFrame_frame]
  refine ⟨hcode, hcaller, (hin.same hsame).stack fun a ha => hstack a ?_, hle⟩
  have hroom := hin.room
  bv_omega

theorem Reached.inv (h : Reached callback g mode m) (hcb : Kernel.KeepsContexts callback) :
    Inv g mode m := by
  induction h with
  | start hstarted => exact .inl ⟨rfl, hstarted.calm hcb, hstarted.gs⟩
  | user regs gsBase _ ih =>
    obtain ⟨-, hcalm, hgs⟩ | ⟨t, u, -, -, hmode⟩ := ih
    · exact .inl ⟨rfl, ⟨hcalm.saved, hcalm.room⟩, hgs⟩
    · exact hmode.elim
  | @syscall g m t _ hcurrent hflags ih =>
    obtain ⟨-, hcalm, hgs⟩ | ⟨t, u, -, -, hmode⟩ := ih
    · exact .inr ⟨t, m.regs, rfl, hflags, fmask_syscall m, .inl (entering_syscall hcalm hgs hcurrent)⟩
    · exact hmode.elim
  | instr _ hexec ih =>
    obtain ⟨hmode, -⟩ | ⟨t, u, hg, hflags, hmode⟩ := ih
    · exact absurd hmode (by simp)
    · exact .inr ⟨t, u, hg, hflags, hmode.instr hexec⟩
  | call ret _ ih =>
    obtain ⟨hmode, -⟩ | ⟨t, u, hg, hflags, hmode⟩ := ih
    · exact absurd hmode (by simp)
    · exact .inr ⟨t, u, hg, hflags, hmode.call ret⟩
  | dispatch _ hle hstack ih =>
    obtain ⟨hmode, -⟩ | ⟨t, u, hg, hflags, hcode, hcaller, hin, -⟩ := ih
    · exact absurd hmode (by simp)
    · exact .inr ⟨t, u, hg, hflags, hcode, hcaller, hin.stack hstack, hle⟩
  | ret _ hregs hflag ih =>
    obtain ⟨hmode, -⟩ | ⟨t, u, hg, hflags, hmode⟩ := ih
    · exact absurd hmode (by simp)
    · exact .inr ⟨t, u, hg, hflags, hmode.ret hregs hflag⟩
  | sysretq _ ih =>
    obtain ⟨hmode, -⟩ | ⟨t, u, hg, hflags, -, hmode⟩ := ih
    · exact absurd hmode (by simp)
    · have hreturns := (hmode.resolve_left not_entering_sysretq).at_sysretq
      exact .inl ⟨rfl, ⟨hreturns.calm.saved, hreturns.calm.room⟩, hreturns.gs⟩
  | userTick stack _ htick ih =>
    obtain ⟨-, hcalm, hgs⟩ | ⟨t, u, -, -, hmode⟩ := ih
    · obtain ⟨hcalm', huser⟩ := hcalm.userTick hcb htick stack (.ofFrame _)
      exact .inl ⟨if_pos huser, hcalm', hgs⟩
    · exact hmode.elim
  | entryTick _ hflag ih =>
    obtain ⟨hmode, -⟩ | ⟨t, u, -, -, hmode⟩ := ih
    · exact absurd hmode (by simp)
    · exact absurd hmode.1 hflag
  | kernelTick _ htick hstack ih =>
    obtain ⟨hmode, -⟩ | ⟨t, u, hg, hflags, hmode⟩ := ih
    · exact absurd hmode (by simp)
    · exact .inr ⟨t, u, hg, hflags, hmode.kernelTick hcb htick hstack⟩

theorem Reached.steps (is : List Instr) {rest : List Instr} (h : Reached callback g (.entry (is ++ rest)) m)
    (hexec : is.foldlM exec m = some m') : Reached callback g (.entry rest) m' := by
  induction is generalizing m with
  | nil => exact Option.some.inj hexec ▸ h
  | cons i is ih =>
    rw [List.foldlM_cons] at hexec
    obtain ⟨m1, hm1, hexec⟩ := Option.bind_eq_some_iff.mp hexec
    exact ih (h.instr hm1) hexec

def userRegs : Regs where
  gpr
    | .rax => 1
    | .rsp => 0x700ff8
    | .r12 => 12
    | _ => 5
  rip := 0x400040
  rflags := 0x202

def atUser : Machine (Fin 3) (Fin 1) where
  kernel := Kernel.usersQueued
  userRsp := 0
  stack := fun _ => 0
  regs := userRegs
  gsBase := 0
  kernelGsBase := 0xffffffff80000000
  gCpuLocal := 0xffffffff80000000

def atCall : Machine (Fin 3) (Fin 1) := (syscallEntry.foldlM exec atUser.syscall).getD atUser

def inDispatch : Machine (Fin 3) (Fin 1) := atCall.call 0xffffffff80001000

end Runs

end Machine

end Mcincos
