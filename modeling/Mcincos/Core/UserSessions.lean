import Mcincos.Core.UserCode
import Mcincos.Cpu.Segments

namespace Mcincos

section Decoding

variable {f g : ℕ → Option (BitVec 8)}

theorem fetch32_mono (h : ∀ i b, f i = some b → g i = some b) {i : ℕ} {x : BitVec 32}
    (hf : fetch32 f i = some x) : fetch32 g i = some x := by
  simp only [fetch32, Option.bind_eq_bind, Option.bind_eq_some_iff] at hf ⊢
  obtain ⟨b0, h0, b1, h1, b2, h2, b3, h3, hx⟩ := hf
  exact ⟨b0, h _ _ h0, b1, h _ _ h1, b2, h _ _ h2, b3, h _ _ h3, hx⟩

theorem decode_mono (h : ∀ i b, f i = some b → g i = some b) {x : UserInstr × ℕ}
    (hf : decode f = some x) : decode g = some x := by
  simp only [decode, Option.bind_eq_some_iff] at hf ⊢
  obtain ⟨op, hop, hf⟩ := hf
  refine ⟨op, h _ _ hop, ?_⟩
  split_ifs at hf ⊢ with hmov hlea hsyscall hjmp
  · obtain ⟨imm, himm, rfl⟩ := Option.map_eq_some_iff.mp hf
    rw [fetch32_mono h himm]
    rfl
  · simp only [Option.bind_eq_some_iff] at hf ⊢
    obtain ⟨op', hop', modrm, hmodrm, hf⟩ := hf
    refine ⟨op', h _ _ hop', modrm, h _ _ hmodrm, ?_⟩
    split_ifs at hf ⊢
    obtain ⟨disp, hdisp, rfl⟩ := Option.map_eq_some_iff.mp hf
    rw [fetch32_mono h hdisp]
    rfl
  · obtain ⟨op', hop', hf⟩ := Option.bind_eq_some_iff.mp hf
    exact Option.bind_eq_some_iff.mpr ⟨op', h _ _ hop', hf⟩
  · obtain ⟨rel, hrel, rfl⟩ := Option.map_eq_some_iff.mp hf
    rw [h _ _ hrel]
    rfl

end Decoding

def userOffset (k : ℕ) : U64 := [0, 5, 12, 17, 19].getD k 19

def userProgram (k : ℕ) : UserInstr × ℕ :=
  [(.mov .rax 0, 5), (.lea .rdi 9, 7), (.mov .rsi 16, 5), (.syscall, 2)].getD k (.jmp 0xfe, 2)

theorem userOffset_loop : userOffset 4 = 19 := rfl

theorem userOffset_ne : ∀ k ≤ 3, userOffset k ≠ 19 := by decide

theorem userCode_decode {k : ℕ} (hk : k ≤ 4) :
    decode (fun i => userCode[(userOffset k).toNat + i]?) = some (userProgram k) := by
  interval_cases k <;> rfl

/-- The code and the text of `build_user_blob` are at `dst`, where the user can execute the one and
`syscall_dispatch` can read the other. -/
structure Blob (s : Vm) (dst : U64) : Prop where
  low : dst.toNat + 37 ≤ userEnd.toNat
  code : ∀ i (_ : i < userCode.length), s.fetchByte (dst + BitVec.ofNat 64 i) = some userCode[i]
  text : ∀ i (_ : i < userMsg.length), s.readByte (dst + 21 + BitVec.ofNat 64 i) = .ok userMsg[i]

variable {s s' : Vm} {dst : U64} {r : Regs}

theorem Blob.instrAt (h : Blob s dst) {k : ℕ} (hk : k ≤ 4) : s.instrAt (dst + userOffset k) = some (userProgram k) := by
  apply decode_mono _ (userCode_decode hk)
  intro i b hb
  obtain ⟨hi, rfl⟩ := List.getElem?_eq_some_iff.mp hb
  rw [← h.code _ hi]
  congr 1
  rw [BitVec.add_assoc, BitVec.ofNat_add, BitVec.ofNat_toNat, BitVec.setWidth_eq]

theorem userMsg_filter : userMsg.filter (· ≠ 0) = userMsg := by decide

theorem Blob.dispatch (h : Blob s dst) (rip a3 a4 a5 a6 : U64) :
    syscallDispatch s rip 0 (dst + 21) 16 a3 a4 a5 a6 = (userMsg, .returned 16) := by
  have hlength : userMsg.length = (16 : U64).toNat := rfl
  have hbuffer : UserBuffer s (dst + 21) userMsg := by
    constructor
    · intro i hi
      have hlow := h.low
      have hend : userEnd.toNat = 2 ^ 47 := rfl
      bv_omega
    · exact h.text
  have hprints := hbuffer.prints hlength rip a3 a4 a5 a6
  rwa [userMsg_filter] at hprints

structure Executed (dst : U64) (k : ℕ) (r : Regs) : Prop where
  rip : r.rip = dst + userOffset k
  rax : 1 ≤ k → r.gpr .rax = 0
  rdi : 2 ≤ k → r.gpr .rdi = dst + 21
  rsi : 3 ≤ k → r.gpr .rsi = 16

theorem Executed.next {k : ℕ} (h : Executed dst k r) (hk : k ≤ 3) :
    Executed dst (k + 1) (r.after (userProgram k).1 (userProgram k).2) := by
  have hrip := h.rip
  interval_cases k
  · refine ⟨?_, fun _ => rfl, by omega, by omega⟩
    change r.rip + 5 = _
    rw [hrip]
    exact BitVec.add_assoc _ _ _
  · refine ⟨?_, fun _ => h.rax le_rfl, fun _ => ?_, by omega⟩
    · change r.rip + 7 = _
      rw [hrip]
      exact BitVec.add_assoc _ _ _
    · change r.rip + 7 + 9 = _
      rw [hrip, BitVec.add_assoc, BitVec.add_assoc]
      rfl
  · refine ⟨?_, fun _ => h.rax (by decide), fun _ => h.rdi le_rfl, fun _ => rfl⟩
    change r.rip + 5 = _
    rw [hrip]
    exact BitVec.add_assoc _ _ _
  · refine ⟨?_, fun _ => h.rax (by decide), fun _ => h.rdi (by decide), fun _ => h.rsi le_rfl⟩
    change r.rip + 2 = _
    rw [hrip]
    exact BitVec.add_assoc _ _ _

namespace Machine

variable {T E : Type}

structure Alive (dst : U64) (printed : Prop) (r : Regs) : Prop where
  flags : sysretFlags r.rflags = r.rflags
  before : ¬printed → ∃ k ≤ 3, Executed dst k r
  behind : printed → r.rip = dst + 19

theorem Alive.rip_iff {printed : Prop} (h : Alive dst printed r) : r.rip = dst + 19 ↔ printed := by
  constructor
  · intro hrip
    by_contra hbefore
    obtain ⟨k, hk, hexecuted⟩ := h.before hbefore
    exact userOffset_ne k hk (add_left_cancel (hexecuted.rip.symm.trans hrip))
  · exact h.behind

theorem Alive.instr {printed : Prop} (h : Alive dst printed r) (hblob : Blob s dst) :
    ∃ k, s.instrAt r.rip = some (userProgram k) ∧ (k = 3 → ¬printed) := by
  by_cases hprinted : printed
  · refine ⟨4, ?_, by simp⟩
    rw [h.behind hprinted, ← userOffset_loop]
    exact hblob.instrAt le_rfl
  · obtain ⟨k, hk, hexecuted⟩ := h.before hprinted
    refine ⟨k, ?_, fun _ => hprinted⟩
    rw [hexecuted.rip]
    exact hblob.instrAt (by omega)

theorem Alive.step {printed : Prop} (h : Alive dst printed r) (hblob : Blob s dst) {i : UserInstr} {length : ℕ}
    (hinstr : s.instrAt r.rip = some (i, length)) (hi : i ≠ .syscall) : Alive dst printed (r.after i length) := by
  have hflags : (r.after i length).rflags = r.rflags := by cases i <;> rfl
  refine ⟨hflags ▸ h.flags, fun hprinted => ?_, fun hprinted => ?_⟩
  · obtain ⟨k, hk, hexecuted⟩ := h.before hprinted
    rw [hexecuted.rip, hblob.instrAt (by omega)] at hinstr
    have hnext := hexecuted.next hk
    rw [Option.some.inj hinstr] at hnext
    refine ⟨k + 1, ?_, hnext⟩
    by_contra hlast
    obtain rfl : k = 3 := by omega
    exact hi (Prod.mk.inj (Option.some.inj hinstr)).1.symm
  · have hrip := h.behind hprinted
    rw [hrip, ← userOffset_loop, hblob.instrAt le_rfl] at hinstr
    obtain ⟨rfl, rfl⟩ := Prod.mk.inj (Option.some.inj hinstr)
    change r.rip + 2 + -2 = dst + 19
    rw [BitVec.add_assoc, hrip]
    exact BitVec.add_zero _

theorem Alive.syscall {printed : Prop} (h : Alive dst printed r) (hblob : Blob s dst) {length : ℕ}
    (hinstr : s.instrAt r.rip = some (.syscall, length)) : ¬printed ∧ Executed dst 4 (r.after .syscall length) := by
  have hprinted : ¬printed := by
    intro hprinted
    rw [h.behind hprinted, ← userOffset_loop, hblob.instrAt le_rfl] at hinstr
    exact absurd hinstr (by simp [userProgram])
  obtain ⟨k, hk, hexecuted⟩ := h.before hprinted
  rw [hexecuted.rip, hblob.instrAt (by omega)] at hinstr
  have hnext := hexecuted.next hk
  rw [Option.some.inj hinstr] at hnext
  refine ⟨hprinted, ?_⟩
  interval_cases k
  · exact absurd hinstr (by simp [userProgram])
  · exact absurd hinstr (by simp [userProgram])
  · exact absurd hinstr (by simp [userProgram])
  · exact hnext

def OnTheWay (called : Prop) : Mode → Prop
  | .entry rest => rest <:+ syscallEntryCode ∧ (called ↔ .call ∉ rest)
  | .dispatch rest _ => .call :: rest <:+ syscallEntryCode ∧ called
  | _ => False

theorem not_mem_of_call {rest : List Instr} (h : .call :: rest <:+ syscallEntryCode) : .call ∉ rest := by
  have hall : ∀ l ∈ syscallEntryCode.tails, l.head? = some .call → .call ∉ l.tail := by decide
  exact hall _ ((List.mem_tails _ _).mpr h) rfl

theorem not_mem_of_sysretq {rest : List Instr} (h : .sysretq :: rest <:+ syscallEntryCode) :
    .call ∉ .sysretq :: rest := by
  have hall : ∀ l ∈ syscallEntryCode.tails, l.head? = some .sysretq → .call ∉ l := by decide
  exact hall _ ((List.mem_tails _ _).mpr h) rfl

structure Told (code : T → U64) (printed : Finset T) (out : List (BitVec 8)) (g : Option (T × Regs)) (mode : Mode)
    (m : Machine T E) : Prop where
  console : out = (List.replicate printed.card userMsg).flatten
  others : ∀ t, m.kernel.gCurrent ≠ some t → Alive (code t) (t ∈ printed) (.ofFrame (m.kernel.thread t).frame)
  user : mode = .user → ∀ t, m.kernel.gCurrent = some t → Alive (code t) (t ∈ printed) m.regs
  called : mode ≠ .user → ∃ t u, g = some (t, u) ∧ m.kernel.gCurrent = some t ∧ sysretFlags u.rflags = u.rflags ∧
    Executed (code t) 4 u ∧ OnTheWay (t ∈ printed) mode

variable {vm : Vm} {code : T → U64} {printed : Finset T} {out : List (BitVec 8)} {g : Option (T × Regs)}
  {mode : Mode} {m m' : Machine T E} {t : T} {u : Regs}

theorem Told.inKernel (h : Told code printed out g mode m) (hmode : mode ≠ .user) {mode' : Mode}
    (hcurrent : m'.kernel.gCurrent = m.kernel.gCurrent)
    (hframe : ∀ t, (m'.kernel.thread t).frame = (m.kernel.thread t).frame) (hmode' : mode' ≠ .user)
    (hway : ∀ called, OnTheWay called mode → OnTheWay called mode') : Told code printed out g mode' m' := by
  refine ⟨h.console, fun t ht => ?_, fun he => absurd he hmode', fun _ => ?_⟩
  · rw [hcurrent] at ht
    rw [hframe]
    exact h.others t ht
  · obtain ⟨t, u, hg, ht, hflags, hexecuted, hcalled⟩ := h.called hmode
    exact ⟨t, u, hg, hcurrent.trans ht, hflags, hexecuted, hway _ hcalled⟩

theorem Told.userStep (h : Told code printed out g .user m) (hblob : ∀ t, Blob vm (code t)) {i : UserInstr}
    {length : ℕ} (hinstr : vm.instrAt m.regs.rip = some (i, length)) (hi : i ≠ .syscall) :
    Told code printed out g .user { m with regs := m.regs.after i length } :=
  ⟨h.console, h.others, fun _ t ht => (h.user rfl t ht).step (hblob t) hinstr hi, fun hne => absurd rfl hne⟩

theorem Told.syscall (h : Told code printed out g .user m) (hblob : ∀ t, Blob vm (code t)) {length : ℕ}
    (hinstr : vm.instrAt m.regs.rip = some (.syscall, length)) (ht : m.kernel.gCurrent = some t) :
    Told code printed out (some (t, m.regs.after .syscall length)) (.entry syscallEntryCode)
      { m with regs := m.regs.after .syscall length }.syscall := by
  have halive := h.user rfl t ht
  obtain ⟨hprinted, hexecuted⟩ := halive.syscall (hblob t) hinstr
  refine ⟨h.console, h.others, fun hne => absurd hne (by simp), fun _ => ?_⟩
  refine ⟨t, _, rfl, ht, halive.flags, hexecuted, List.suffix_rfl, ?_⟩
  exact iff_of_false hprinted (not_not.mpr (by decide))

theorem Told.exec {i : Instr} {rest : List Instr} (h : Told code printed out g (.entry (i :: rest)) m)
    (hexec : m.exec i = some m') : Told code printed out g (.entry rest) m' := by
  obtain ⟨hthread, hcurrent⟩ := Processor.exec_threads hexec
  have hcall : .call ≠ i := by
    rintro rfl
    exact absurd hexec (by simp [Machine.exec])
  apply h.inKernel (by simp) hcurrent (fun t => by rw [hthread]) (by simp)
  intro called hway
  obtain ⟨hsuffix, hcalled⟩ := hway
  refine ⟨(List.suffix_cons i rest).trans hsuffix, hcalled.trans (not_congr ?_)⟩
  rw [List.mem_cons, or_iff_right hcall]

theorem Told.call [DecidableEq T] {rest : List Instr} (h : Told code printed out g (.entry (.call :: rest)) m)
    (ht : m.kernel.gCurrent = some t) (ret : U64) :
    Told code (insert t printed) (out ++ userMsg) g (.dispatch rest m.regs) (m.call ret) := by
  obtain ⟨t', u, hg, ht', hflags, hexecuted, hsuffix, hcalled⟩ := h.called (by simp)
  obtain rfl := Option.some.inj (ht'.symm.trans ht)
  have hprinted : t' ∉ printed := fun hmem => hcalled.mp hmem List.mem_cons_self
  refine ⟨?_, fun t hother => ?_, fun hne => absurd hne (by simp), fun _ => ?_⟩
  · rw [h.console, Finset.card_insert_of_notMem hprinted, List.replicate_succ', List.flatten_append]
    simp
  · have hne : t ≠ t' := by
      rintro rfl
      exact hother ht'
    rw [Finset.mem_insert, or_iff_right hne]
    exact h.others t hother
  · exact ⟨t', u, hg, ht, hflags, hexecuted, hsuffix, Finset.mem_insert_self t' printed⟩

theorem Told.ret {rest : List Instr} {caller regs : Regs} (h : Told code printed out g (.dispatch rest caller) m) :
    Told code printed out g (.entry rest) { m with regs } := by
  refine h.inKernel (by simp) rfl (fun _ => rfl) (by simp) fun called hway => ?_
  obtain ⟨hsuffix, hcalled⟩ := hway
  exact ⟨(List.suffix_cons .call rest).trans hsuffix, iff_of_true hcalled (not_mem_of_call hsuffix)⟩

theorem Told.sysretq {rest : List Instr} (h : Told code printed out g (.entry (.sysretq :: rest)) m)
    (hg : g = some (t, u)) (hreturns : Returns t u m) : Told code printed out g .user m.sysretq := by
  obtain ⟨t', u', hg', ht', hflags, hexecuted, hsuffix, hcalled⟩ := h.called (by simp)
  obtain ⟨rfl, rfl⟩ := Prod.mk.inj (Option.some.inj (hg.symm.trans hg'))
  have hprinted := hcalled.mpr (not_mem_of_sysretq hsuffix)
  refine ⟨h.console, h.others, fun _ t' ht => ?_, fun hne => absurd rfl hne⟩
  obtain rfl := Option.some.inj (ht'.symm.trans ht)
  have hr11 : m.sysretq.regs.rflags = u.rflags := by
    change sysretFlags (m.regs.gpr .r11) = u.rflags
    rw [hreturns.r11, hflags]
  exact ⟨hr11 ▸ hflags, fun hnot => absurd hprinted hnot, fun _ => hreturns.rcx.trans hexecuted.rip⟩

section Ticks

variable [DecidableEq T] [DecidableEq E] [Fintype T] {callback : U64 → U64 → Kernel T E → Kernel T E} {fuel : ℕ}
  {vector now now' : U64} {kernel : Kernel T E} {frame : IsrFrame} {stack : U64 → U64}

theorem Told.userTick (h : Told code printed out g .user m) (hcalm : m.Calm) (hcb : Kernel.KeepsContexts callback)
    (htick : m.kernel.schedOnTick callback fuel (m.regs.frame vector Kernel.userCs Kernel.userDs) now now' =
      .ok (kernel, frame)) :
    Told code printed out g (Mode.user.iretq frame) { m with kernel, stack, regs := .ofFrame frame } := by
  obtain ⟨last, hsaved⟩ := hcalm.saved
  obtain ⟨-, huser⟩ := hcalm.userTick hcb htick stack (.ofFrame frame)
  have hmode : Mode.user.iretq frame = .user := if_pos huser
  rw [hmode]
  obtain ⟨hcurrent, hothers⟩ := hsaved.tick_frames
    (P := fun t f => Alive (code t) (t ∈ printed) (.ofFrame f)) hcb htick
    (fun t ht => (Regs.ofFrame_frame m.regs vector _ _).symm ▸ h.user rfl t ht) h.others
  exact ⟨h.console, hothers, fun _ => hcurrent, fun hne => absurd rfl hne⟩

theorem Told.kernelTick {rest : List Instr} {caller : Regs} (h : Told code printed out g (.dispatch rest caller) m)
    (hcb : Kernel.KeepsContexts callback)
    (htick : m.kernel.schedOnTick callback fuel (m.regs.frame vector kernelCs kernelDs) now now' =
      .ok (kernel, frame)) :
    Told code printed out g ((Mode.dispatch rest caller).iretq frame)
      { m with kernel, stack, regs := .ofFrame frame } := by
  have hkernel : kernelCs &&& 3 ≠ 3 := by decide
  obtain ⟨hsame, rfl⟩ := Kernel.kernelTick_contexts hcb hkernel htick
  have hmode : (Mode.dispatch rest caller).iretq (m.regs.frame vector kernelCs kernelDs) =
      .dispatch rest caller := if_neg hkernel
  rw [hmode]
  exact h.inKernel (by simp) hsame.current hsame.frame (by simp) fun _ => id

theorem Told.dispatchAt {rest : List Instr} (h : Told code printed out g (.entry (.call :: rest)) m)
    (hblob : ∀ t, Blob vm (code t)) (hreached : Reached callback g (.entry (.call :: rest)) m)
    (hcb : Kernel.KeepsContexts callback) : ∃ t, m.kernel.gCurrent = some t ∧
      ∀ rip, m.dispatchAt vm rip = (userMsg, .returned 16) := by
  obtain ⟨hmode, -⟩ | ⟨t, u, hg, -, hmode⟩ := hreached.inv hcb
  · exact absurd hmode (by simp)
  · obtain ⟨-, hin, hargs⟩ := (hmode.2.resolve_right not_leaving_call).at_call
    obtain ⟨t', u', hg', ht', -, hexecuted, -⟩ := h.called (by simp)
    obtain ⟨rfl, rfl⟩ := Prod.mk.inj (Option.some.inj (hg.symm.trans hg'))
    refine ⟨t, ht', fun rip => ?_⟩
    rw [Machine.dispatchAt, hargs.num, hargs.a1, hargs.a2, hexecuted.rax (by decide), hexecuted.rdi (by decide),
      hexecuted.rsi (by decide)]
    exact (hblob t).dispatch _ _ _ _ _

theorem Session.told (h : Session vm code callback out g mode m) (hblob : ∀ t, Blob vm (code t))
    (hcb : Kernel.KeepsContexts callback) : ∃ printed, Told code printed out g mode m := by
  induction h with
  | start hstarted hentries =>
    have halive {dst : U64} {r : Regs} (h : AtEntry dst r) {t : T} : Alive dst (t ∈ (∅ : Finset T)) r :=
      ⟨h.2, fun _ => ⟨0, by decide, by rw [h.1]; exact (BitVec.add_zero dst).symm, by simp, by simp, by simp⟩,
        fun hmem => absurd hmem (Finset.notMem_empty t)⟩
    exact ⟨∅, rfl, fun t ht => halive (hentries.others t ht), fun _ t ht => halive (hentries.current t ht),
      fun hne => absurd rfl hne⟩
  | user _ hinstr hi ih =>
    obtain ⟨printed, htold⟩ := ih
    exact ⟨printed, htold.userStep hblob hinstr hi⟩
  | syscall _ hinstr hcurrent _ ih =>
    obtain ⟨printed, htold⟩ := ih
    exact ⟨printed, htold.syscall hblob hinstr hcurrent⟩
  | instr _ hexec ih =>
    obtain ⟨printed, htold⟩ := ih
    exact ⟨printed, htold.exec hexec⟩
  | call ret rip hrun _ ih =>
    obtain ⟨printed, htold⟩ := ih
    obtain ⟨t, ht, hdispatch⟩ := htold.dispatchAt hblob hrun.reached hcb
    rw [hdispatch]
    exact ⟨insert t printed, htold.call ht ret⟩
  | dispatch _ _ _ ih =>
    obtain ⟨printed, htold⟩ := ih
    exact ⟨printed, htold.inKernel (by simp) rfl (fun _ => rfl) (by simp) fun _ => id⟩
  | ret _ _ _ ih =>
    obtain ⟨printed, htold⟩ := ih
    exact ⟨printed, htold.ret⟩
  | sysretq hrun ih =>
    obtain ⟨printed, htold⟩ := ih
    obtain ⟨hmode, -⟩ | ⟨t, u, hg, -, hmode⟩ := hrun.reached.inv hcb
    · exact absurd hmode (by simp)
    · exact ⟨printed, htold.sysretq hg (hmode.2.resolve_left not_entering_sysretq).at_sysretq⟩
  | userTick stack hrun htick ih =>
    obtain ⟨printed, htold⟩ := ih
    obtain ⟨-, hcalm, -⟩ | ⟨t, u, -, -, hmode⟩ := hrun.reached.inv hcb
    · exact ⟨printed, htold.userTick hcalm hcb htick⟩
    · exact hmode.elim
  | kernelTick _ htick _ ih =>
    obtain ⟨printed, htold⟩ := ih
    exact ⟨printed, htold.kernelTick hcb htick⟩

end Ticks

end Machine

end Mcincos
