import Mcincos.Cpu.Gdt
import Mcincos.Syscall.Syscalls

namespace Mcincos

open StraightLine WordStack Descriptors

namespace Machine

variable {T E : Type} {m : Machine T E} {rs : List Reg} {ws vs : List U64}

theorem pushWord_eq (m : Machine T E) (w : U64) : m.pushWord w =
    m.withStack (Function.update m.regs.gpr .rsp (m.regs.gpr .rsp - 8))
      (Function.update m.stack (m.regs.gpr .rsp - 8) w) :=
  rfl

theorem pushWord_other (m : Machine T E) (w : U64) {r : Reg} (hr : r ≠ .rsp) :
    (m.pushWord w).regs.gpr r = m.regs.gpr r :=
  Function.update_of_ne hr _ _

theorem foldlM_pushes (hrs : .rsp ∉ rs) :
    (rs.map Instr.push).foldlM exec m = some (m.pushWords (rs.map m.regs.gpr)) := by
  induction rs generalizing m with
  | nil => rfl
  | cons r rs ih =>
    obtain ⟨hr, hrs⟩ := not_or.mp (List.mem_cons.not.mp hrs)
    have hsame : rs.map (m.pushWord (m.regs.gpr r)).regs.gpr = rs.map m.regs.gpr :=
      List.map_congr_left fun r' hr' => m.pushWord_other _ (ne_of_mem_of_not_mem hr' hrs)
    rw [List.map_cons, List.foldlM_cons, exec_push, ← pushWord_eq]
    change (rs.map Instr.push).foldlM exec (m.pushWord (m.regs.gpr r)) = _
    rw [ih hrs, hsame]
    rfl

theorem pushWords_spec (hlow : 8 * vs.length ≤ (m.regs.gpr .rsp).toNat) : ∃ gpr stack,
    m.pushWords vs = m.withStack gpr stack ∧
      gpr .rsp = m.regs.gpr .rsp - BitVec.ofNat 64 (8 * vs.length) ∧
      (∀ r ≠ .rsp, gpr r = m.regs.gpr r) ∧ Holds stack (gpr .rsp) vs.reverse ∧
      ∀ a, a.toNat + 8 ≤ (gpr .rsp).toNat ∨ m.regs.gpr .rsp ≤ a → stack a = m.stack a := by
  induction vs using List.reverseRecOn with
  | nil => exact ⟨m.regs.gpr, m.stack, rfl, (BitVec.sub_zero _).symm, fun _ _ => rfl, trivial, fun _ _ => rfl⟩
  | append_singleton vs v ih =>
    rw [List.length_append, List.length_singleton] at hlow
    obtain ⟨gpr, stack, hpush, hsp, hother, hholds, hstack⟩ := ih (by omega)
    have hnext : gpr .rsp - 8 = m.regs.gpr .rsp - BitVec.ofNat 64 (8 * (vs.length + 1)) := by
      rw [hsp]
      bv_omega
    refine ⟨Function.update gpr .rsp (gpr .rsp - 8), Function.update stack (gpr .rsp - 8) v, ?_, ?_, ?_, ?_, ?_⟩
    · rw [pushWords, List.foldl_append, List.foldl_cons, List.foldl_nil]
      change (m.pushWords vs).pushWord v = _
      rw [hpush, pushWord_eq]
      rfl
    · rw [Function.update_self, List.length_append, List.length_singleton]
      exact hnext
    · intro r hr
      rw [Function.update_of_ne hr]
      exact hother r hr
    · rw [Function.update_self, List.reverse_append, List.reverse_singleton, List.singleton_append]
      apply hholds.push
      · rw [hsp, List.length_reverse]
        bv_omega
      · rw [hsp]
        bv_omega
    · intro a ha
      rw [Function.update_self, hnext] at ha
      rw [Function.update_of_ne]
      · apply hstack a
        rw [hsp]
        bv_omega
      · rw [hnext]
        rintro rfl
        bv_omega

end Machine

namespace Descriptors

def gateFor (isr : U64) (typeAttr ist : BitVec 8) : IdtEntry :=
  idtSetGate (fun _ => noGate) 0 isr typeAttr ist 0

theorem idtSetGate_apply (idt : Idt) (vec : BitVec 8) (isr : U64) (typeAttr ist other : BitVec 8) :
    idtSetGate idt vec isr typeAttr ist other = if other = vec then gateFor isr typeAttr ist else idt other :=
  Function.update_apply _ _ _ _

theorem foldl_idtSetGate (idt : Idt) {key : ℕ → BitVec 8} (addr : ℕ → U64) (typeAttr ist vec : BitVec 8) {b n : ℕ}
    (hkey : ∀ i < n, (key i).toNat = b + i) :
    (List.range n).foldl (fun idt i => idtSetGate idt (key i) (addr i) typeAttr ist) idt vec =
      if b ≤ vec.toNat ∧ vec.toNat < b + n then gateFor (addr (vec.toNat - b)) typeAttr ist else idt vec := by
  induction n with
  | zero =>
    rw [if_neg]
    · rfl
    · omega
  | succ n ih =>
    have hlast := hkey n n.lt_succ_self
    rw [List.range_succ, List.foldl_append, List.foldl_cons, List.foldl_nil, idtSetGate_apply,
      ih fun i hi => hkey i (by omega)]
    by_cases heq : vec = key n
    · have hnat : vec.toNat = b + n := heq ▸ hlast
      rw [if_pos heq, if_pos (by omega), hnat, Nat.add_sub_cancel_left]
    · have hnat : vec.toNat ≠ b + n := fun h => heq (BitVec.eq_of_toNat_eq (h.trans hlast.symm))
      rw [if_neg heq]
      refine if_congr ?_ rfl rfl
      omega

end Descriptors

def Gated (vec : BitVec 8) : Prop := vec < 48 ∨ vec = 240 ∨ vec = 255

instance (vec : BitVec 8) : Decidable (Gated vec) := inferInstanceAs (Decidable (_ ∨ _))

def Image.entry (image : Image) (vec : BitVec 8) : U64 :=
  if vec < 32 then image.isr vec.toNat else image.irq vec.toNat

def istFor (vec : BitVec 8) : BitVec 3 := if vec = 2 ∨ vec = 8 then 1 else if vec = 14 then 2 else 0

namespace Descriptors

theorem idtInit_apply (image : Image) (vec : BitVec 8) : idtInit image vec =
    if Gated vec then gateFor (image.entry vec) idtTypeInterrupt ((istFor vec).setWidth 8) else noGate := by
  have hlines (i : ℕ) (hi : i < 16) : (32 + BitVec.ofNat 8 i).toNat = 32 + i := by
    bv_omega
  have hexceptions (i : ℕ) (hi : i < 32) : (BitVec.ofNat 8 i).toNat = 0 + i := by
    bv_omega
  unfold idtInit
  rw [foldl_idtSetGate _ _ _ _ _ hlines]
  simp only [idtSetGate_apply]
  rw [foldl_idtSetGate _ _ _ _ _ hexceptions]
  unfold Image.entry istFor
  by_cases hline : 32 ≤ vec.toNat ∧ vec.toNat < 32 + 16
  · have hhigh : ¬vec < 32 := by bv_omega
    have hgated : Gated vec := .inl (by bv_omega)
    have hother : ¬(vec = 2 ∨ vec = 8) ∧ vec ≠ 14 := by bv_omega
    rw [if_pos hline, if_pos hgated, if_neg hhigh, if_neg hother.1, if_neg hother.2,
      Nat.add_sub_cancel' hline.1]
    rfl
  rw [if_neg hline]
  by_cases h255 : vec = 255
  · subst h255
    rfl
  rw [if_neg h255]
  by_cases h240 : vec = 240
  · subst h240
    rfl
  rw [if_neg h240]
  by_cases h14 : vec = 14
  · subst h14
    rfl
  rw [if_neg h14]
  by_cases h8 : vec = 8
  · subst h8
    rfl
  rw [if_neg h8]
  by_cases h2 : vec = 2
  · subst h2
    rfl
  rw [if_neg h2]
  by_cases hlow : vec < 32
  · have hgated : Gated vec := .inl (by bv_omega)
    have hrange : 0 ≤ vec.toNat ∧ vec.toNat < 0 + 32 := by bv_omega
    rw [if_pos hrange, if_pos hgated, if_pos hlow, if_neg (not_or.mpr ⟨h2, h8⟩), if_neg h14]
    rfl
  · have hrange : ¬(0 ≤ vec.toNat ∧ vec.toNat < 0 + 32) := by bv_omega
    have hungated : ¬Gated vec := by
      unfold Gated
      bv_omega
    rw [if_neg hrange, if_neg hungated]

theorem idtInit_gate (image : Image) {vec : BitVec 8} (h : Gated vec) : Gate.decode (idtInit image vec).bits =
    ⟨image.entry vec, kernelCs, istFor vec, idtTypeInterrupt, 0, 0⟩ := by
  rw [idtInit_apply, if_pos h, gateFor, idtSetGate_decode]

theorem idtInit_noGate (image : Image) {vec : BitVec 8} (h : ¬Gated vec) :
    ¬(Gate.decode (idtInit image vec).bits).Present := by
  rw [idtInit_apply, if_neg h]
  decide

end Descriptors

def Common.of (vec : BitVec 8) : Common := if vec < 32 then .isrCommon else .irqCommon

def stubWords (vec : BitVec 8) : List U64 := if pushesError vec then [vec.setWidth 64] else [0, vec.setWidth 64]

def stubFor (vec : BitVec 8) : List StubInstr :=
  (stubWords vec).map StubInstr.push ++ [.jmp (.of vec)]

theorem isrStubs_getElem {k : ℕ} (hk : k < 32) : Isr.isrStubs[k]? = some (stubFor (BitVec.ofNat 8 k)) := by
  revert k
  decide

theorem irqStubs_getElem {k : ℕ} (hk : k < 16) : Isr.irqStubs[k]? = some (stubFor (BitVec.ofNat 8 (32 + k))) := by
  revert k
  decide

theorem Image.Linked.stub {image : Image} (h : image.Linked) {vec : BitVec 8} (hgated : Gated vec) :
    image.text (image.entry vec) = some (stubFor vec) := by
  unfold Image.entry
  by_cases hlow : vec < 32
  · have hk : vec.toNat < 32 := hlow
    rw [if_pos hlow, h.isr _ hk, isrStubs_getElem hk, BitVec.ofNat_toNat, BitVec.setWidth_eq]
  · rw [if_neg hlow]
    obtain hline | rfl | rfl := hgated
    · have hk : vec.toNat - 32 < 16 := by bv_omega
      have hback : 32 + (vec.toNat - 32) = vec.toNat := by bv_omega
      have htext := h.irq _ hk
      rw [irqStubs_getElem hk, hback, BitVec.ofNat_toNat, BitVec.setWidth_eq] at htext
      exact htext
    · exact h.irq240
    · exact h.irq255

namespace Machine

variable {T E : Type}

theorem withFlow_pushWords (m : Machine T E) (rip rflags : U64) (ws : List U64) :
    (m.withFlow rip rflags).pushWords ws = (m.pushWords ws).withFlow rip rflags := by
  induction ws generalizing m with
  | nil => rfl
  | cons w ws ih => exact ih (m.pushWord w)

theorem pushWords_append (m : Machine T E) (ws vs : List U64) :
    m.pushWords (ws ++ vs) = (m.pushWords ws).pushWords vs :=
  List.foldl_append

theorem pushWords_other (m : Machine T E) (ws : List U64) {r : Reg} (hr : r ≠ .rsp) :
    (m.pushWords ws).regs.gpr r = m.regs.gpr r := by
  induction ws generalizing m with
  | nil => rfl
  | cons w ws ih => exact (ih (m.pushWord w)).trans (m.pushWord_other w hr)

theorem runStub_eq (m : Machine T E) (ws : List U64) (label : Common) :
    m.runStub (ws.map StubInstr.push ++ [.jmp label]) = some (m.pushWords ws, label) := by
  induction ws generalizing m with
  | nil => rfl
  | cons w ws ih => exact ih (m.pushWord w)

theorem foldlM_commonEntry (m : Machine T E) : Isr.commonEntry.foldlM exec m =
    some ((m.pushWords (Isr.pushed.map m.regs.gpr)).setReg .rdi
      ((m.pushWords (Isr.pushed.map m.regs.gpr)).regs.gpr .rsp)) := by
  unfold Isr.commonEntry
  rw [List.foldlM_append, foldlM_pushes (by decide)]
  rfl

end Machine

namespace Processor

variable {T E : Type} {p p' : Processor T E} {image : Image} {vec : BitVec 8} {error : U64}

def frame (p : Processor T E) (vec : BitVec 8) (error : U64) : IsrFrame :=
  { p.machine.regs.frame (vec.setWidth 64) p.cs p.ss with error := if pushesError vec then error else 0 }

def stackFor (p : Processor T E) (vec : BitVec 8) : U64 :=
  (if istFor vec ≠ 0 then p.ist (istFor vec)
    else if p.cs &&& 3 = 3 then p.machine.kernel.rsp0
    else p.machine.regs.gpr .rsp) &&& ~~~15

theorem frame_words (p : Processor T E) (vec : BitVec 8) (error : U64) : (p.frame vec error).words.reverse =
    p.deliveredWords vec error ++ stubWords vec ++ Isr.pushed.map p.machine.regs.gpr := by
  unfold frame deliveredWords stubWords
  cases pushesError vec <;> rfl

theorem deliver_eq (hidt : p.idt = idtInit image) (hgated : Gated vec) : p.deliver vec error =
    some { p with
      machine := ((p.machine.setReg .rsp (p.stackFor vec)).pushWords (p.deliveredWords vec error)).withFlow
        (image.entry vec) (p.machine.regs.rflags &&& ~~~gateFlags)
      cs := kernelCs
      ss := if p.cs &&& 3 = 3 then 0 else p.ss } := by
  have hgate := idtInit_gate image hgated
  have hpresent : (Gate.decode (p.idt vec).bits).Present := by
    rw [hidt, hgate]
    exact (by decide : idtTypeInterrupt.getLsbD 7 = true)
  have hstack : p.interruptStack (Gate.decode (p.idt vec).bits) = p.stackFor vec := by
    rw [hidt, hgate]
    rfl
  unfold deliver
  dsimp only
  rw [if_pos hpresent, hstack, hidt, hgate]
  rfl

theorem enter_eq (error : U64) (hlinked : image.Linked) (hidt : p.idt = idtInit image) (hgated : Gated vec) :
    p.enter image vec error =
      let m := ((p.machine.setReg .rsp (p.stackFor vec)).pushWords (p.frame vec error).words.reverse).withFlow
        (image.entry vec) (p.machine.regs.rflags &&& ~~~gateFlags)
      some ({ p with
        machine := m.setReg .rdi (m.regs.gpr .rsp)
        cs := kernelCs
        ss := if p.cs &&& 3 = 3 then 0 else p.ss }, .of vec) := by
  have hregs (ws : List U64) (rip rflags : U64) :
      Isr.pushed.map (((p.machine.setReg .rsp (p.stackFor vec)).pushWords ws).withFlow rip rflags).regs.gpr =
        Isr.pushed.map p.machine.regs.gpr := by
    apply List.map_congr_left
    intro r hr
    have hne : r ≠ .rsp := by
      rintro rfl
      exact absurd hr (by decide)
    exact (Machine.pushWords_other _ ws hne).trans (Function.update_of_ne hne _ _)
  unfold enter
  rw [deliver_eq hidt hgated, Option.bind_eq_bind, Option.bind_some]
  change (image.text (image.entry vec)).bind _ = _
  rw [hlinked.stub hgated, Option.bind_some, stubFor, Machine.runStub_eq, Option.bind_eq_bind, Option.bind_some]
  dsimp only
  rw [Machine.withFlow_pushWords, ← Machine.pushWords_append, Machine.foldlM_commonEntry, hregs,
    Machine.withFlow_pushWords, ← Machine.pushWords_append, ← frame_words]
  rfl

theorem enter_ungated (hidt : p.idt = idtInit image) (hgated : ¬Gated vec) : p.enter image vec error = none := by
  have hpresent := idtInit_noGate image hgated
  unfold enter deliver
  dsimp only
  rw [hidt, if_neg hpresent]
  rfl

/-- The handler is called with the interrupted context in a frame at the end of an aligned stack, the
only words written, and with interrupts off. -/
structure AtHandler (p p' : Processor T E) (vec : BitVec 8) (error : U64) : Prop where
  rdi : p'.machine.regs.gpr .rdi = p.stackFor vec - 176
  rsp : p'.machine.regs.gpr .rsp = p.stackFor vec - 176
  aligned : p'.machine.regs.gpr .rsp &&& 15 = 0
  frame : Holds p'.machine.stack (p'.machine.regs.gpr .rdi) (p.frame vec error).words
  others : ∀ a, a.toNat + 8 ≤ (p.stackFor vec - 176).toNat ∨ p.stackFor vec ≤ a →
    p'.machine.stack a = p.machine.stack a
  flags : p'.machine.regs.rflags &&& fmask = 0
  cs : p'.cs = kernelCs
  idt : p'.idt = p.idt
  ist : p'.ist = p.ist
  rest : { p'.machine with regs := p.machine.regs, stack := p.machine.stack } = p.machine

theorem stackFor_aligned (p : Processor T E) (vec : BitVec 8) : 16 ∣ (p.stackFor vec).toNat := by
  unfold stackFor
  rw [show (~~~15 : U64) = ~~~BitVec.ofNat 64 (2 ^ 4 - 1) from rfl, Words.toNat_and_not_low]
  exact Dvd.intro_left _ rfl

theorem gateFlags_off (flags : U64) : (flags &&& ~~~gateFlags) &&& fmask = 0 := by
  have hoff : ~~~gateFlags &&& fmask = 0 := by decide
  rw [BitVec.and_assoc, hoff]
  exact BitVec.and_zero

theorem enter_spec (error : U64) (hlinked : image.Linked) (hidt : p.idt = idtInit image) (hgated : Gated vec)
    (hroom : 176 ≤ (p.stackFor vec).toNat) :
    ∃ p', p.enter image vec error = some (p', .of vec) ∧ p.AtHandler p' vec error := by
  have hlength : (p.frame vec error).words.reverse.length = 22 := rfl
  have hrsp : (p.machine.setReg .rsp (p.stackFor vec)).regs.gpr .rsp = p.stackFor vec := by
    simp [Machine.setReg]
  have hlow : 8 * (p.frame vec error).words.reverse.length ≤
      ((p.machine.setReg .rsp (p.stackFor vec)).regs.gpr .rsp).toNat := by
    rw [hlength, hrsp]
    exact hroom
  obtain ⟨gpr, stack, hpush, hsp, -, hholds, hstack⟩ := Machine.pushWords_spec hlow
  rw [hrsp] at hsp hstack
  rw [hlength] at hsp
  have hdivides := p.stackFor_aligned vec
  have hentered := enter_eq (p := p) error hlinked hidt hgated
  rw [hpush] at hentered
  refine ⟨_, hentered, ?_⟩
  have hrdi : Function.update gpr .rdi (gpr .rsp) .rdi = gpr .rsp := by
    rw [Function.update_self]
  have hkept : Function.update gpr .rdi (gpr .rsp) .rsp = gpr .rsp := Function.update_of_ne (by decide) _ _
  constructor
  · exact hrdi.trans hsp
  · exact hkept.trans hsp
  · change Function.update gpr .rdi (gpr .rsp) .rsp &&& 15 = 0
    rw [hkept, hsp]
    apply BitVec.eq_of_toNat_eq
    rw [show (15 : U64) = BitVec.ofNat 64 (2 ^ 4 - 1) from rfl, Words.toNat_and_low _ _ (by omega)]
    bv_omega
  · change Holds stack (Function.update gpr .rdi (gpr .rsp) .rdi) _
    rw [hrdi]
    rw [List.reverse_reverse] at hholds
    exact hholds
  · intro a ha
    exact hstack a (hsp ▸ ha)
  · exact gateFlags_off _
  · rfl
  · rfl
  · rfl
  · rfl

theorem leave_spec (f : IsrFrame) (h : Holds p.machine.stack (p.machine.regs.gpr .rsp) f.words) : p.leave =
    some { p with machine := { p.machine with regs := .ofFrame f }, cs := f.cs, ss := f.ss } := by
  have hsplit : f.words = [f.r15, f.r14, f.r13, f.r12, f.r11, f.r10, f.r9, f.r8, f.rdi, f.rsi, f.rbp, f.rbx,
      f.rdx, f.rcx, f.rax] ++ [f.vector, f.error, f.rip, f.cs, f.rflags, f.rsp, f.ss] := rfl
  have hdistinct : (Reg.rsp :: Isr.popped).Nodup := by decide
  obtain ⟨m, hpops, gpr, rfl, hsp, hpopped, -⟩ := Machine.reaches_pops hdistinct (hsplit ▸ h).left rfl
  have hrest := h.drop 17
  have hlast : p.machine.regs.gpr .rsp + BitVec.ofNat 64 (8 * 17) = gpr .rsp + 16 := by
    rw [hsp, show Isr.popped.length = 15 from rfl]
    bv_omega
  rw [hlast] at hrest
  obtain ⟨hrip, hcs, hrflags, hfrsp, hss, -⟩ := hrest
  simp only [Isr.popped, List.map_cons, List.map_nil, List.cons.injEq, and_true] at hpopped
  obtain ⟨h15, h14, h13, h12, h11, h10, h9, h8, hdi, hsi, hbp, hbx, hdx, hcx, hax⟩ := hpopped
  have hexit : Isr.commonExit.foldlM Machine.exec p.machine =
      some (p.machine.withStack (Function.update gpr .rsp (gpr .rsp + 16)) p.machine.stack) := by
    unfold Isr.commonExit
    rw [List.foldlM_append, hpops]
    rfl
  have hgpr : Function.update (Function.update gpr .rsp (gpr .rsp + 16)) .rsp
      (p.machine.stack (gpr .rsp + 16 + 24)) = (Regs.ofFrame f).gpr := by
    rw [Function.update_idem]
    funext r
    cases r with
    | rsp =>
      rw [Function.update_self, show gpr .rsp + 16 + 24 = gpr .rsp + 16 + 8 + 8 + 8 by bv_omega]
      exact hfrsp
    | _ =>
      rw [Function.update_of_ne (by decide)]
      assumption
  have htop : Function.update gpr .rsp (gpr .rsp + 16) .rsp = gpr .rsp + 16 := Function.update_self _ _ _
  have hcs' : p.machine.stack (gpr .rsp + 16 + 8) = f.cs := hcs
  have hrflags' : p.machine.stack (gpr .rsp + 16 + 16) = f.rflags := by
    rw [show gpr .rsp + 16 + 16 = gpr .rsp + 16 + 8 + 8 by bv_omega]
    exact hrflags
  have hss' : p.machine.stack (gpr .rsp + 16 + 32) = f.ss := by
    rw [show gpr .rsp + 16 + 32 = gpr .rsp + 16 + 8 + 8 + 8 + 8 by bv_omega]
    exact hss
  unfold leave iretq
  rw [hexit, Option.bind_eq_bind, Option.bind_some]
  dsimp only [Machine.withStack_gpr, Machine.withStack_stack]
  rw [htop, hgpr, hrip, hcs', hrflags', hss']
  rfl

/-- What a handler has done when it returns, by the calling convention of C: it has left `f` in its
caller's frame and changed nothing from the end of the frame on. -/
structure HandlerReturns (m m' : Machine T E) (f : IsrFrame) (kernel : Kernel T E) : Prop where
  same : ∀ r ∈ .rsp :: Machine.calleeSaved, m'.regs.gpr r = m.regs.gpr r
  frame : Holds m'.stack (m.regs.gpr .rdi) f.words
  above : ∀ a, m.regs.gpr .rdi + 176 ≤ a → m'.stack a = m.stack a
  rest : { m' with regs := m.regs, stack := m.stack } = { m with kernel }

theorem AtHandler.leave {m : Machine T E} {f : IsrFrame} {kernel : Kernel T E} (h : p.AtHandler p' vec error)
    (hreturns : HandlerReturns p'.machine m f kernel) : { p' with machine := m }.leave =
      some { p' with
        machine := { p.machine with kernel, stack := m.stack, regs := .ofFrame f }, cs := f.cs, ss := f.ss } ∧
      ∀ a, p.stackFor vec ≤ a → m.stack a = p.machine.stack a := by
  have hrsp : m.regs.gpr .rsp = p'.machine.regs.gpr .rdi := by
    rw [hreturns.same .rsp List.mem_cons_self, h.rsp, h.rdi]
  have hframe := hreturns.frame
  rw [← hrsp] at hframe
  have hleave := leave_spec (p := { p' with machine := m }) f hframe
  have hmachine : { m with regs := .ofFrame f } = { p.machine with kernel, stack := m.stack, regs := .ofFrame f } := by
    have hm := congrArg (fun m' : Machine T E => { m' with stack := m.stack, regs := .ofFrame f }) hreturns.rest
    have hp := congrArg (fun m' : Machine T E => { m' with kernel, stack := m.stack, regs := .ofFrame f }) h.rest
    exact hm.trans hp
  constructor
  · rw [hleave]
    dsimp only
    rw [hmachine]
  · intro a ha
    have htop : p'.machine.regs.gpr .rdi + 176 = p.stackFor vec := by
      rw [h.rdi, BitVec.sub_add_cancel]
    rw [hreturns.above a (htop.symm ▸ ha), h.others a (.inr ha)]

/-- A gate is there for exactly the vectors that have a stub, and each leads its interrupt to the handler
of its kind with the frame that isr_frame_t describes. -/
theorem interrupts_framed (image : Image) (hlinked : image.Linked) (p : Processor T E)
    (hidt : p.idt = idtInit image) (vec : BitVec 8) (error : U64) (hroom : 176 ≤ (p.stackFor vec).toNat) :
    (¬Gated vec → p.enter image vec error = none) ∧
      (Gated vec → ∃ p', p.enter image vec error = some (p', .of vec) ∧ p.AtHandler p' vec error) := by
  constructor
  · exact enter_ungated hidt
  · intro hgated
    exact enter_spec error hlinked hidt hgated hroom

def someImage : Image where
  isr k := 0x1000 + BitVec.ofNat 64 (16 * k)
  irq k := 0x2000 + BitVec.ofNat 64 (16 * k)
  text a :=
    if a < 0x2000 then Isr.isrStubs[(a.toNat - 0x1000) / 16]?
    else if a < 0x2300 then Isr.irqStubs[(a.toNat - 0x2000) / 16 - 32]?
    else if a = 0x2f00 then some (Isr.irq 240)
    else some (Isr.irq 255)

theorem someImage_linked : someImage.Linked := by
  constructor
  · decide
  · decide
  · decide
  · decide

def someProcessor : Processor (Fin 3) (Fin 1) :=
  ⟨Machine.inDispatch, kernelCs, kernelDs, idtInit someImage, fun _ => 0⟩

theorem someProcessor_room : 176 ≤ (someProcessor.stackFor 240).toNat := by decide +kernel

theorem interrupts_framed_timer : (¬Gated 240 → someProcessor.enter someImage 240 0 = none) ∧
    (Gated 240 → ∃ p', someProcessor.enter someImage 240 0 = some (p', .of 240) ∧
      someProcessor.AtHandler p' 240 0) :=
  interrupts_framed someImage someImage_linked someProcessor rfl 240 0 someProcessor_room

theorem AtHandler.untouched (h : p.AtHandler p' vec error) :
    HandlerReturns p'.machine p'.machine (p.frame vec error) p'.machine.kernel :=
  ⟨fun _ _ => rfl, h.frame, fun _ _ => rfl, rfl⟩

theorem leaveChecked_eq {gdt : Gdt} {q : Processor T E} (h : p.leave = some q)
    (hreturnable : gdt.Returnable q.cs q.ss q.machine.regs.rip) : p.leaveChecked gdt =
      some { q with machine := { q.machine with
        regs := { q.machine.regs with rflags := iretqFlags q.machine.regs.rflags } } } := by
  rw [leave, Option.bind_eq_bind, Option.bind_eq_some_iff] at h
  obtain ⟨m, hexit, hq⟩ := h
  obtain rfl := Option.some.inj hq
  unfold leaveChecked iretqChecked
  rw [hexit, Option.bind_eq_bind, Option.bind_some]
  exact if_pos hreturnable

/-- Whatever the vector, where IRETQ takes the frame that the handler has left, the code in it goes on. -/
theorem interrupt_returns (image : Image) (hlinked : image.Linked) (gdt : Gdt) (p p' : Processor T E)
    (hidt : p.idt = idtInit image) (vec : BitVec 8) (error : U64) (label : Common)
    (hroom : 176 ≤ (p.stackFor vec).toNat) (henter : p.enter image vec error = some (p', label))
    (m : Machine T E) (f : IsrFrame) (kernel : Kernel T E) (hreturns : HandlerReturns p'.machine m f kernel)
    (hreturnable : gdt.Returnable f.cs f.ss f.rip) :
    { p' with machine := m }.leaveChecked gdt = some { p with
        machine := { p.machine with
          kernel
          stack := m.stack
          regs := .ofFrame { f with rflags := iretqFlags f.rflags } }
        cs := f.cs
        ss := f.ss } ∧
      ∀ a, p.stackFor vec ≤ a → m.stack a = p.machine.stack a := by
  by_cases hgated : Gated vec
  · obtain ⟨p1, hp1, hat⟩ := enter_spec error hlinked hidt hgated hroom
    obtain ⟨rfl, -⟩ := Prod.mk.inj (Option.some.inj (henter.symm.trans hp1))
    obtain ⟨hleave, habove⟩ := hat.leave hreturns
    refine ⟨?_, habove⟩
    rw [leaveChecked_eq hleave hreturnable, hat.idt, hat.ist]
    rfl
  · rw [enter_ungated hidt hgated] at henter
    cases henter

theorem interrupt_returns_timer : ∃ p', someProcessor.enter someImage 240 0 = some (p', .irqCommon) ∧
    { p' with machine := p'.machine }.leaveChecked (gdtInit 0xffffffff80002000) = some { someProcessor with
      machine := { someProcessor.machine with
        kernel := p'.machine.kernel
        stack := p'.machine.stack
        regs := .ofFrame { someProcessor.frame 240 0 with
          rflags := iretqFlags (someProcessor.frame 240 0).rflags } }
      cs := (someProcessor.frame 240 0).cs
      ss := (someProcessor.frame 240 0).ss } ∧
    ∀ a, someProcessor.stackFor 240 ≤ a → p'.machine.stack a = someProcessor.machine.stack a := by
  obtain ⟨p', henter, hat⟩ := enter_spec (p := someProcessor) 0 someImage_linked rfl
    (by decide : Gated 240) someProcessor_room
  exact ⟨p', henter, interrupt_returns someImage someImage_linked _ someProcessor p' rfl 240 0 .irqCommon
    someProcessor_room henter p'.machine (someProcessor.frame 240 0) p'.machine.kernel hat.untouched
    (by decide +kernel)⟩

theorem stackFor_timer (p : Processor T E) (h : p.cs &&& 3 ≠ 3) :
    p.stackFor 240 = p.machine.regs.gpr .rsp &&& ~~~15 := by
  unfold stackFor
  rw [if_neg (by decide), if_neg h]

theorem and_not_low_le (x : U64) : x &&& ~~~15 ≤ x := by
  rw [BitVec.le_def, show (~~~15 : U64) = ~~~BitVec.ofNat 64 (2 ^ 4 - 1) from rfl, Words.toNat_and_not_low]
  exact Nat.div_mul_le_self _ _

section Ticks

variable [DecidableEq T] [DecidableEq E] [Fintype T]

def Segments (p : Processor T E) : Mode → Prop
  | .user => p.cs = Kernel.userCs ∧ p.ss = Kernel.userDs
  | .dispatch _ _ => p.cs = kernelCs ∧ p.ss = kernelDs
  | _ => False

theorem Segments.tick {callback : U64 → U64 → Kernel T E → Kernel T E} {g : Option (T × Regs)} {mode : Mode}
    {fuel : ℕ} {now now' : U64} {kernel : Kernel T E} {f : IsrFrame} {stack : U64 → U64}
    (hsegments : p.Segments mode) (hreached : Machine.Reached callback g mode p.machine)
    (htick : p.machine.kernel.schedOnTick callback fuel (p.frame 240 0) now now' = .ok (kernel, f))
    (habove : ∀ a, p.stackFor 240 ≤ a → stack a = p.machine.stack a) :
    Machine.Reached callback g (mode.iretq f) { p.machine with kernel, stack, regs := .ofFrame f } := by
  have hframe : p.frame 240 0 = p.machine.regs.frame 240 p.cs p.ss := rfl
  rw [hframe] at htick
  cases mode with
  | user =>
    obtain ⟨hcs, hss⟩ := hsegments
    rw [hcs, hss] at htick
    exact hreached.userTick stack htick
  | dispatch code caller =>
    obtain ⟨hcs, hss⟩ := hsegments
    rw [hcs, hss] at htick
    apply hreached.kernelTick htick
    intro a ha
    apply habove
    rw [p.stackFor_timer (by rw [hcs]; decide)]
    exact BitVec.le_trans (and_not_low_le _) ha
  | entry code => exact hsegments.elim
  | lost => exact hsegments.elim

/-- The way of the timer's interrupt through isr.S is a tick of the runs of threads and system calls. -/
theorem timer_interrupt_ticks (image : Image) (hlinked : image.Linked)
    (callback : U64 → U64 → Kernel T E → Kernel T E) (g : Option (T × Regs)) (mode : Mode) (p p' : Processor T E)
    (hreached : Machine.Reached callback g mode p.machine) (hsegments : p.Segments mode)
    (hidt : p.idt = idtInit image) (hroom : 176 ≤ (p.stackFor 240).toNat) (label : Common)
    (henter : p.enter image 240 0 = some (p', label)) (fuel : ℕ) (now now' : U64) (kernel : Kernel T E)
    (f : IsrFrame)
    (htick : p.machine.kernel.schedOnTick callback fuel (p.frame 240 0) now now' = .ok (kernel, f))
    (m : Machine T E) (hreturns : HandlerReturns p'.machine m f kernel) :
    ∃ p'', { p' with machine := m }.leave = some p'' ∧ Machine.Reached callback g (mode.iretq f) p''.machine := by
  have hgated : Gated 240 := by decide
  obtain ⟨p1, hp1, hat⟩ := enter_spec 0 hlinked hidt hgated hroom
  obtain ⟨rfl, -⟩ := Prod.mk.inj (Option.some.inj (henter.symm.trans hp1))
  obtain ⟨hleave, habove⟩ := hat.leave hreturns
  exact ⟨_, hleave, hsegments.tick hreached htick habove⟩

theorem inDispatch_reached : Machine.Reached (fun _ _ s => s) (some (0, Machine.userRegs))
    (.dispatch (syscallExit ++ [.sysretq, .mov .rdi .rax]) Machine.atCall.regs) Machine.inDispatch := by
  have hrun : Kernel.Run (fun _ _ s => s) Kernel.usersBooted
      (fun t => (Kernel.usersBooted.thread t).frame) Kernel.usersQueued :=
    Kernel.Run.start.add (ok_returned (by decide +kernel))
  have hstarted : Machine.Started (fun _ _ s => s) Machine.atUser :=
    ⟨rfl, Kernel.threeThreads, Kernel.threeUsers, 0, _, by decide, by decide, hrun⟩
  have hentry := (Machine.Reached.start hstarted).syscall (t := 0) (by decide +kernel) (by decide)
  exact (Machine.Reached.steps syscallEntry hentry rfl).call 0xffffffff80001000

theorem timer_interrupt_ticks_inDispatch : ∃ p' p'' : Processor (Fin 3) (Fin 1),
    someProcessor.enter someImage 240 0 = some (p', .irqCommon) ∧ (∃ m, { p' with machine := m }.leave = some p'') ∧
    Machine.Reached (fun _ _ s => s) (some (0, Machine.userRegs))
      ((Mode.dispatch (syscallExit ++ [.sysretq, .mov .rdi .rax]) Machine.atCall.regs).iretq
        (someProcessor.frame 240 0)) p''.machine := by
  have hcb : Kernel.KeepsContexts (fun _ _ s => s : U64 → U64 → Kernel (Fin 3) (Fin 1) → _) :=
    fun _ _ s => .refl s
  have hok : (someProcessor.machine.kernel.schedOnTick (fun _ _ s => s) 2 (someProcessor.frame 240 0) 1100
      1200).isOk := by decide +kernel
  have htick := ok_returned (d := (someProcessor.machine.kernel, someProcessor.frame 240 0)) hok
  generalize returned _ _ = r at htick
  obtain ⟨kernel, f⟩ := r
  obtain ⟨-, rfl⟩ := Kernel.kernelTick_contexts hcb (by decide) htick
  obtain ⟨p', henter, hat⟩ := enter_spec (p := someProcessor) 0 someImage_linked rfl
    (by decide : Gated 240) someProcessor_room
  have hreturns : HandlerReturns p'.machine { p'.machine with kernel } (someProcessor.frame 240 0) kernel :=
    ⟨fun _ _ => rfl, hat.frame, fun _ _ => rfl, rfl⟩
  obtain ⟨p'', hleave, hreached⟩ := timer_interrupt_ticks someImage someImage_linked _ _ _ someProcessor p'
    inDispatch_reached ⟨rfl, rfl⟩ rfl someProcessor_room .irqCommon henter 2 1100 1200 kernel _ htick _ hreturns
  exact ⟨p', p'', henter, ⟨_, hleave⟩, hreached⟩

end Ticks

end Processor

end Mcincos
