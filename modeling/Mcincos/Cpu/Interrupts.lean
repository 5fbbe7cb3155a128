import Mcincos.Cpu.Irq

namespace Mcincos

open Pic

namespace Pic

variable {c : Chip} {p p' : Pair} {k n : ℕ} {v : BitVec 8}

theorem Chip.eoi_idle (hc : c.isr = 0) : c.eoi = c := by
  have hbits : c.isr &&& (c.isr - 1) = c.isr := by
    rw [hc]
    rfl
  unfold Chip.eoi
  rw [hbits]

theorem Chip.serve_eoi (hc : c.isr = 0) (hk : k < 8) : (c.serve k).eoi = c := by
  have hbit : (0 ||| 1#8 <<< k) &&& ((0 ||| 1#8 <<< k) - 1) = 0 := by
    revert k
    decide
  unfold Chip.eoi Chip.serve
  dsimp only
  rw [hc, hbit, ← hc]

theorem Chip.Programmed.serve {offset wiring : BitVec 8} (h : c.Programmed offset wiring) (k : ℕ) :
    (c.serve k).Programmed offset wiring :=
  ⟨h.expects, h.single, h.icw2, h.icw3, h.icw4⟩

theorem Chip.Programmed.eoi {offset wiring : BitVec 8} (h : c.Programmed offset wiring) :
    c.eoi.Programmed offset wiring :=
  ⟨h.expects, h.single, h.icw2, h.icw3, h.icw4⟩

namespace Pair

variable {offset1 offset2 : BitVec 8}

theorem Programmed.acceptLine (hp : p.Programmed 32 40) (h : p.acceptLine n = some (p', v)) :
    n < 16 ∧ v = BitVec.ofNat 8 (32 + n) ∧ p'.Programmed 32 40 := by
  unfold Pair.acceptLine at h
  split_ifs at h with hlow hpass hpass
  · rw [hp.vector (show n < 16 by omega), Option.map_some] at h
    obtain ⟨rfl, rfl⟩ := Prod.mk.inj (Option.some.inj h)
    exact ⟨by omega, rfl, hp.master.serve n, hp.slave⟩
  · rw [hp.vector hpass.1, Option.map_some] at h
    obtain ⟨rfl, rfl⟩ := Prod.mk.inj (Option.some.inj h)
    exact ⟨hpass.1, rfl, hp.master.serve _, hp.slave.serve _⟩

theorem Programmed.acceptSpurious {second : Bool} (hp : p.Programmed 32 40)
    (h : p.acceptSpurious second = some (p', v)) :
    v = BitVec.ofNat 8 (32 + if second then 15 else 7) ∧ p'.Programmed 32 40 := by
  unfold Pair.acceptSpurious at h
  cases second with
  | false =>
    rw [if_neg Bool.false_ne_true, hp.vector (by omega), Option.map_some] at h
    obtain ⟨rfl, rfl⟩ := Prod.mk.inj (Option.some.inj h)
    exact ⟨rfl, hp⟩
  | true =>
    rw [if_pos rfl] at h
    split_ifs at h
    rw [hp.vector (by omega), Option.map_some] at h
    obtain ⟨rfl, rfl⟩ := Prod.mk.inj (Option.some.inj h)
    exact ⟨rfl, hp.master.serve _, hp.slave⟩

theorem Programmed.picSendEoi (hp : p.Programmed offset1 offset2) (irq : BitVec 8) :
    (p.picSendEoi irq).Programmed offset1 offset2 := by
  rw [picSendEoi_eq]
  split_ifs
  · exact ⟨hp.master.eoi, hp.slave.eoi⟩
  · exact ⟨hp.master.eoi, hp.slave⟩

theorem Programmed.call (hp : p.Programmed offset1 offset2) (call : Call) :
    (p.call call).Programmed offset1 offset2 := by
  cases call with
  | setMask irq => exact (hp.outb_mask irq _).1
  | clearMask irq => exact (hp.outb_mask irq _).1
  | sendEoi irq => exact hp.picSendEoi irq

end Pair

structure Pair.Idle (p : Pair) : Prop where
  programmed : p.Programmed 32 40
  master : p.master.isr = 0
  slave : p.slave.isr = 0

namespace Pair

theorem picSendEoi_low (hn : n < 8) : p.picSendEoi (BitVec.ofNat 8 n) = ⟨p.master.eoi, p.slave⟩ := by
  rw [picSendEoi_eq, if_neg]
  bv_omega

theorem picSendEoi_high (hn : 8 ≤ n) (hlt : n < 16) :
    p.picSendEoi (BitVec.ofNat 8 n) = ⟨p.master.eoi, p.slave.eoi⟩ := by
  rw [picSendEoi_eq, if_pos]
  bv_omega

theorem Idle.acceptLine (hp : p.Idle) (h : p.acceptLine n = some (p', v)) :
    p'.picSendEoi (BitVec.ofNat 8 n) = p := by
  unfold Pair.acceptLine at h
  split_ifs at h with hlow hpass hpass
  · rw [hp.programmed.vector (show n < 16 by omega), Option.map_some] at h
    obtain ⟨rfl, rfl⟩ := Prod.mk.inj (Option.some.inj h)
    rw [picSendEoi_low hlow, Chip.serve_eoi hp.master hlow]
  · obtain ⟨hn, -, -⟩ := hpass
    rw [hp.programmed.vector hn, Option.map_some] at h
    obtain ⟨rfl, rfl⟩ := Prod.mk.inj (Option.some.inj h)
    rw [picSendEoi_high (by omega) hn, Chip.serve_eoi hp.master (by omega), Chip.serve_eoi hp.slave (by omega)]

theorem Idle.acceptSpurious {second : Bool} (hp : p.Idle) (h : p.acceptSpurious second = some (p', v)) :
    p'.picSendEoi (BitVec.ofNat 8 (if second then 15 else 7)) = p := by
  unfold Pair.acceptSpurious at h
  cases second with
  | false =>
    rw [if_neg Bool.false_ne_true, hp.programmed.vector (by omega), Option.map_some] at h
    obtain ⟨rfl, rfl⟩ := Prod.mk.inj (Option.some.inj h)
    rw [if_neg Bool.false_ne_true, picSendEoi_low (by omega), Chip.eoi_idle hp.master]
  | true =>
    rw [if_pos rfl] at h
    split_ifs at h
    rw [hp.programmed.vector (by omega), Option.map_some] at h
    obtain ⟨rfl, rfl⟩ := Prod.mk.inj (Option.some.inj h)
    rw [if_pos rfl, picSendEoi_high (by omega) (by omega), Chip.serve_eoi hp.master (by omega),
      Chip.eoi_idle hp.slave]

theorem Idle.acceptLine_isSome (hp : p.Idle) (hn : n < 16) (hcascade : n ≠ 2) :
    (p.acceptLine n).isSome ↔ p.masked n = false ∧ (8 ≤ n → p.masked 2 = false) := by
  have hmaster (k : ℕ) : p.master.Passes k ↔ p.master.imr.getLsbD k = false := by
    simp [Chip.Passes, hp.master]
  have hslave (k : ℕ) : p.slave.Passes k ↔ p.slave.imr.getLsbD k = false := by
    simp [Chip.Passes, hp.slave]
  have htwo : p.masked 2 = p.master.imr.getLsbD 2 := p.masked_low (by omega)
  unfold Pair.acceptLine
  rw [hp.programmed.vector hn, htwo]
  by_cases hlow : n < 8
  · rw [if_pos hlow, p.masked_low hlow]
    simp [hmaster, hcascade, show ¬8 ≤ n by omega]
  · rw [if_neg hlow, p.masked_high hlow]
    simp [hmaster, hslave, hn, show 8 ≤ n by omega, and_comm]

end Pair

end Pic

namespace Irq

variable {H σ : Type} (handle : H → IsrFrame → σ → σ × IsrFrame) {s s' : System H σ}

def Request.vector : Request → BitVec 8
  | .line n => BitVec.ofNat 8 (32 + n)
  | .spurious second => BitVec.ofNat 8 (32 + if second then 15 else 7)
  | .apic v => v
  | .spuriousApic => lapicSpuriousVector

/-- The local APIC is not programmed with a vector that the handler takes for one of the controllers'
lines, or for a spurious one. -/
def Request.Proper : Request → Prop
  | .apic v => lineAt v = none ∧ v ≠ lapicSpuriousVector
  | _ => True

theorem lineAt_line {n : ℕ} (hn : n < 16) : (lineAt (BitVec.ofNat 8 (32 + n))).map Subtype.val = some (BitVec.ofNat 8 n) := by
  revert n
  decide

namespace System

def handlerOf (s : System H σ) (vec : BitVec 8) : Option H :=
  match lineAt vec with
  | some irq => s.gHandlers irq
  | none => s.gVectorHandlers vec

structure Quiet (s : System H σ) : Prop where
  pics : s.pics.Idle
  enabled : s.lapic.Enabled
  mapped : s.lapic.gLapicBase ≠ 0
  inService : s.lapic.inService = ∅

theorem callHandler_with (s : System H σ) (handler : Option H) (f : IsrFrame) (pics : Pair) (lapic : Lapic) :
    { s with pics, lapic }.callHandler handle handler f =
      ({ (s.callHandler handle handler f).1 with pics, lapic }, (s.callHandler handle handler f).2) := by
  cases handler <;> rfl

theorem callHandler_pics (s : System H σ) (handler : Option H) (f : IsrFrame) :
    (s.callHandler handle handler f).1.pics = s.pics := by
  cases handler <;> rfl

theorem callHandler_lapic (s : System H σ) (handler : Option H) (f : IsrFrame) :
    (s.callHandler handle handler f).1.lapic = s.lapic := by
  cases handler <;> rfl

theorem frameOf_vector (context : IsrFrame) (vec : BitVec 8) :
    (frameOf context vec).vector.setWidth 8 = vec := by
  simp [frameOf]

theorem irqCommonHandler_line {pics : Pair} {vec : BitVec 8} {n : ℕ} (context : IsrFrame)
    (hline : (lineAt vec).map Subtype.val = some (BitVec.ofNat 8 n))
    (heoi : pics.picSendEoi (BitVec.ofNat 8 n) = s.pics) :
    { s with pics }.irqCommonHandler handle (frameOf context vec) =
      s.callHandler handle (s.handlerOf vec) (frameOf context vec) := by
  obtain ⟨irq, hirq, hval⟩ := Option.map_eq_some_iff.mp hline
  have hpics := s.callHandler_pics handle (s.gHandlers irq) (frameOf context vec)
  have hcall := s.callHandler_with handle (s.gHandlers irq) (frameOf context vec) pics s.lapic
  have hlapic := s.callHandler_lapic handle (s.gHandlers irq) (frameOf context vec)
  unfold irqCommonHandler handlerOf
  simp only [frameOf_vector, hirq]
  rw [hcall]
  dsimp only
  rw [hval, heoi, ← hpics, ← hlapic]

theorem Quiet.eoi (hs : s.Quiet) (v : BitVec 8) :
    { s.lapic with inService := insert v s.lapic.inService }.lapicEoi = s.lapic := by
  unfold Lapic.lapicEoi Lapic.writeEoi
  rw [if_neg hs.mapped]
  dsimp only
  rw [hs.inService]
  have hnone : (insert v (∅ : Finset (BitVec 8))).filter (fun u => ∃ w ∈ insert v (∅ : Finset (BitVec 8)), u < w) =
      s.lapic.inService := by
    rw [hs.inService]
    simp
  rw [hnone]

/-- Whatever the interrupt, it ends with the controllers as they were before it, and in between its
handler has run once. -/
theorem Quiet.interrupt (hs : s.Quiet) {request : Request} (hproper : request.Proper) {vec : BitVec 8}
    (h : s.accept request = some (s', vec)) (context : IsrFrame) :
      s'.irqCommonHandler handle (frameOf context vec) =
        s.callHandler handle (s.handlerOf vec) (frameOf context vec) := by
  cases request with
  | line n =>
    obtain ⟨⟨pics, v⟩, haccept, hr⟩ := Option.map_eq_some_iff.mp h
    obtain ⟨rfl, rfl⟩ := Prod.mk.inj hr
    obtain ⟨hn, rfl, -⟩ := hs.pics.programmed.acceptLine haccept
    exact irqCommonHandler_line handle context (lineAt_line hn) (hs.pics.acceptLine haccept)
  | spurious second =>
    obtain ⟨⟨pics, v⟩, haccept, hr⟩ := Option.map_eq_some_iff.mp h
    obtain ⟨rfl, rfl⟩ := Prod.mk.inj hr
    obtain ⟨rfl, -⟩ := hs.pics.programmed.acceptSpurious haccept
    refine irqCommonHandler_line handle context (lineAt_line ?_) (hs.pics.acceptSpurious haccept)
    split_ifs
    · omega
    · omega
  | apic v =>
    obtain ⟨lapic, haccept, hr⟩ := Option.map_eq_some_iff.mp h
    obtain ⟨rfl, rfl⟩ := Prod.mk.inj hr
    obtain ⟨hline, hspurious⟩ := hproper
    unfold Lapic.accept at haccept
    split_ifs at haccept
    obtain rfl := Option.some.inj haccept
    have hcall := s.callHandler_with handle (s.gVectorHandlers v) (frameOf context v) s.pics
      { s.lapic with inService := insert v s.lapic.inService }
    have hpics := s.callHandler_pics handle (s.gVectorHandlers v) (frameOf context v)
    have hlapic := s.callHandler_lapic handle (s.gVectorHandlers v) (frameOf context v)
    unfold irqCommonHandler handlerOf
    simp only [frameOf_vector, hline]
    rw [hcall]
    dsimp only
    rw [if_pos ⟨hs.enabled, hspurious⟩, hs.eoi, ← hpics, ← hlapic]
  | spuriousApic =>
    obtain ⟨rfl, rfl⟩ := Prod.mk.inj (Option.some.inj h)
    have hline : lineAt lapicSpuriousVector = none := by decide
    unfold irqCommonHandler handlerOf
    simp only [frameOf_vector, hline]
    rw [if_neg]
    exact fun h => h.2 rfl

end System

theorem lineAt_isNone {vec : BitVec 8} : lineAt vec = none ↔ ¬(32 ≤ vec ∧ vec < 48) := by
  unfold lineAt
  split_ifs with h
  · exact iff_of_false (by simp) (not_not.mpr h)
  · exact iff_of_true rfl h

theorem lineAt_eq_some {vec : BitVec 8} {irq : Line} : lineAt vec = some irq ↔ vec = 32 + irq.val := by
  have hbase : irqBase = 32 := rfl
  have hlt := irq.2
  unfold lineAt
  split_ifs with h
  · rw [Option.some_inj, ← Subtype.val_inj]
    change vec - 32 = irq.val ↔ vec = 32 + irq.val
    bv_omega
  · refine iff_of_false (by simp) ?_
    rw [hbase] at h
    bv_omega

namespace System

theorem handlerOf_irqRegisterHandler (s : System H σ) (irq : BitVec 8) (handler : Option H) :
    (s.irqRegisterHandler irq handler).handlerOf =
      if irq < 16 then Function.update s.handlerOf (32 + irq) handler else s.handlerOf := by
  unfold irqRegisterHandler
  split_ifs with hirq
  · funext vec
    rw [Function.update_apply]
    unfold handlerOf
    cases hline : lineAt vec with
    | none =>
      have hout := lineAt_isNone.mp hline
      rw [if_neg]
      rintro rfl
      apply hout
      bv_omega
    | some line =>
      dsimp only
      rw [Function.update_apply, lineAt_eq_some.mp hline]
      refine if_congr ?_ rfl rfl
      rw [← Subtype.val_inj]
      constructor
      · intro h
        rw [h]
      · exact fun h => add_left_cancel h
  · rfl

theorem handlerOf_irqRegisterVectorHandler (s : System H σ) (vector : BitVec 8) (handler : Option H) :
    (s.irqRegisterVectorHandler vector handler).handlerOf =
      if 32 ≤ vector ∧ vector < 48 then s.handlerOf else Function.update s.handlerOf vector handler := by
  funext vec
  unfold handlerOf irqRegisterVectorHandler
  cases hline : lineAt vec with
  | none =>
    have hout := lineAt_isNone.mp hline
    split_ifs with hrange
    · dsimp only
      rw [Function.update_of_ne, hline]
      rintro rfl
      exact hout hrange
    · rw [Function.update_apply]
      dsimp only
      rw [Function.update_apply, hline]
  | some line =>
    have hin : 32 ≤ vec ∧ vec < 48 := by
      by_contra hout
      rw [lineAt_isNone.mpr hout] at hline
      cases hline
    split_ifs with hrange
    · dsimp only
      rw [hline]
    · rw [Function.update_of_ne, hline]
      rintro rfl
      exact hrange hin

end System

/-- What irq.c is for: a table from vectors to handlers. -/
structure Dispatcher (H σ : Type) where
  table : BitVec 8 → Option H
  kernel : σ

namespace Dispatcher

def call (d : Dispatcher H σ) (vec : BitVec 8) (f : IsrFrame) : Dispatcher H σ × IsrFrame :=
  match d.table vec with
  | none => (d, f)
  | some h => ({ d with kernel := (handle h f d.kernel).1 }, (handle h f d.kernel).2)

/-- The line `irq` has the entry `32 + irq`, which a registration of that vector does not reach. -/
def step (d : Dispatcher H σ) : Event H → Dispatcher H σ × List IsrFrame
  | .interrupt request context =>
    let (d, f) := d.call handle request.vector (frameOf context request.vector)
    (d, [f])
  | .registerHandler irq handler =>
    (if irq < 16 then { d with table := Function.update d.table (32 + irq) handler } else d, [])
  | .registerVectorHandler vector handler =>
    (if 32 ≤ vector ∧ vector < 48 then d else { d with table := Function.update d.table vector handler }, [])
  | .mask _ => (d, [])

def run (d : Dispatcher H σ) : List (Event H) → Dispatcher H σ × List IsrFrame
  | [] => (d, [])
  | e :: es =>
    let (d, fs) := d.step handle e
    let (d, fs') := d.run es
    (d, fs ++ fs')

end Dispatcher

namespace Event

def Proper : Event H → Prop
  | .interrupt request _ => request.Proper
  | _ => True

def maskedLines (lines : Finset ℕ) : Event H → Finset ℕ
  | .mask call => call.maskedLines lines
  | _ => lines

end Event

namespace System

def dispatcher (s : System H σ) : Dispatcher H σ := ⟨s.handlerOf, s.kernel⟩

theorem dispatcher_callHandler (s : System H σ) (vec : BitVec 8) (f : IsrFrame) :
    s.dispatcher.call handle vec f = ((s.callHandler handle (s.handlerOf vec) f).1.dispatcher,
      (s.callHandler handle (s.handlerOf vec) f).2) := by
  unfold Dispatcher.call dispatcher
  dsimp only
  cases s.handlerOf vec with
  | none => rfl
  | some h => rfl

theorem accept_dispatcher {request : Request} {vec : BitVec 8} (hs : s.pics.Programmed 32 40)
    (h : s.accept request = some (s', vec)) :
    vec = request.vector ∧ s'.pics.Programmed 32 40 ∧ s'.dispatcher = s.dispatcher := by
  cases request with
  | line n =>
    obtain ⟨⟨pics, v⟩, haccept, hr⟩ := Option.map_eq_some_iff.mp h
    obtain ⟨rfl, rfl⟩ := Prod.mk.inj hr
    obtain ⟨-, hvector, hpics⟩ := hs.acceptLine haccept
    exact ⟨hvector, hpics, rfl⟩
  | spurious second =>
    obtain ⟨⟨pics, v⟩, haccept, hr⟩ := Option.map_eq_some_iff.mp h
    obtain ⟨rfl, rfl⟩ := Prod.mk.inj hr
    obtain ⟨hvector, hpics⟩ := hs.acceptSpurious haccept
    exact ⟨hvector, hpics, rfl⟩
  | apic v =>
    obtain ⟨lapic, -, hr⟩ := Option.map_eq_some_iff.mp h
    obtain ⟨rfl, rfl⟩ := Prod.mk.inj hr
    exact ⟨rfl, hs, rfl⟩
  | spuriousApic =>
    obtain ⟨rfl, rfl⟩ := Prod.mk.inj (Option.some.inj h)
    exact ⟨rfl, hs, rfl⟩

theorem irqCommonHandler_dispatcher (hs : s.pics.Programmed 32 40) (vec : BitVec 8) (context : IsrFrame) :
    (s.irqCommonHandler handle (frameOf context vec)).1.pics.Programmed 32 40 ∧
      s.dispatcher.call handle vec (frameOf context vec) =
        ((s.irqCommonHandler handle (frameOf context vec)).1.dispatcher,
          (s.irqCommonHandler handle (frameOf context vec)).2) := by
  rw [dispatcher_callHandler]
  cases hline : lineAt vec with
  | some irq =>
    simp only [irqCommonHandler, handlerOf, frameOf_vector, hline]
    refine ⟨?_, rfl⟩
    apply Pair.Programmed.picSendEoi
    rw [callHandler_pics]
    exact hs
  | none =>
    have hpics := s.callHandler_pics handle (s.gVectorHandlers vec) (frameOf context vec)
    simp only [irqCommonHandler, handlerOf, frameOf_vector, hline]
    split_ifs
    · exact ⟨hpics.symm ▸ hs, rfl⟩
    · exact ⟨hpics.symm ▸ hs, rfl⟩

variable {fs : List IsrFrame} {e : Event H} {es : List (Event H)}

theorem step_dispatcher (hs : s.pics.Programmed 32 40) (h : s.step handle e = some (s', fs)) :
    s'.pics.Programmed 32 40 ∧ s.dispatcher.step handle e = (s'.dispatcher, fs) := by
  cases e with
  | interrupt request context =>
    obtain ⟨⟨s1, vec⟩, haccept, hr⟩ := Option.map_eq_some_iff.mp h
    obtain ⟨rfl, hs1, hsame⟩ := accept_dispatcher hs haccept
    obtain ⟨hs2, hcall⟩ := s1.irqCommonHandler_dispatcher handle hs1 request.vector context
    dsimp only at hr
    obtain ⟨rfl, rfl⟩ := Prod.mk.inj hr
    refine ⟨hs2, ?_⟩
    rw [Dispatcher.step, ← hsame, hcall]
  | registerHandler irq handler =>
    obtain ⟨rfl, rfl⟩ := Prod.mk.inj (Option.some.inj h)
    have hrest : (s.irqRegisterHandler irq handler).pics = s.pics ∧
        (s.irqRegisterHandler irq handler).kernel = s.kernel := by
      unfold irqRegisterHandler
      split_ifs <;> exact ⟨rfl, rfl⟩
    obtain ⟨hpics, hkernel⟩ := hrest
    refine ⟨hpics ▸ hs, ?_⟩
    rw [Dispatcher.step, dispatcher, dispatcher, handlerOf_irqRegisterHandler, hkernel]
    split_ifs <;> rfl
  | registerVectorHandler vector handler =>
    obtain ⟨rfl, rfl⟩ := Prod.mk.inj (Option.some.inj h)
    refine ⟨hs, ?_⟩
    rw [Dispatcher.step, dispatcher, dispatcher, handlerOf_irqRegisterVectorHandler]
    split_ifs <;> rfl
  | mask call =>
    obtain ⟨rfl, rfl⟩ := Prod.mk.inj (Option.some.inj h)
    exact ⟨hs.call call, rfl⟩

theorem run_dispatcher (hs : s.pics.Programmed 32 40) (h : s.run handle es = some (s', fs)) :
    s.dispatcher.run handle es = (s'.dispatcher, fs) := by
  induction es generalizing s fs with
  | nil =>
    obtain ⟨rfl, rfl⟩ := Prod.mk.inj (Option.some.inj h)
    rfl
  | cons e es ih =>
    obtain ⟨⟨s1, fs1⟩, hstep, hrest⟩ := Option.bind_eq_some_iff.mp h
    obtain ⟨⟨s2, fs2⟩, hrun, hr⟩ := Option.map_eq_some_iff.mp hrest
    obtain ⟨rfl, rfl⟩ := Prod.mk.inj hr
    obtain ⟨hs1, hstep1⟩ := s.step_dispatcher handle hs hstep
    rw [Dispatcher.run, hstep1]
    dsimp only
    rw [ih hs1 hrun]

structure Serves (s : System H σ) (lines : Finset ℕ) : Prop where
  quiet : s.Quiet
  masks : s.pics.Masks lines

variable {lines : Finset ℕ}

theorem Quiet.mask (hs : s.Quiet) (call : Call) : { s with pics := s.pics.call call }.Quiet := by
  obtain ⟨hpics, henabled, hmapped, hservice⟩ := hs
  refine ⟨?_, henabled, hmapped, hservice⟩
  cases call with
  | setMask irq =>
    obtain ⟨hprogrammed, hmaster, hslave⟩ := hpics.programmed.outb_mask irq
      (((s.pics.inb (Pair.maskPort irq)).setWidth 32 ||| 1#32 <<< (irq &&& 7)).setWidth 8)
    exact ⟨hprogrammed, hmaster.trans hpics.master, hslave.trans hpics.slave⟩
  | clearMask irq =>
    obtain ⟨hprogrammed, hmaster, hslave⟩ := hpics.programmed.outb_mask irq
      (((s.pics.inb (Pair.maskPort irq)).setWidth 32 &&& ~~~(1#32 <<< (irq &&& 7))).setWidth 8)
    exact ⟨hprogrammed, hmaster.trans hpics.master, hslave.trans hpics.slave⟩
  | sendEoi irq =>
    have hsame : s.pics.call (.sendEoi irq) = s.pics := by
      rw [Pair.call, Pair.picSendEoi_eq, Chip.eoi_idle hpics.master, Chip.eoi_idle hpics.slave, ite_self]
    rw [hsame]
    exact hpics

theorem Serves.same (hs : s.Serves lines) (hpics : s'.pics = s.pics) (hlapic : s'.lapic = s.lapic) :
    s'.Serves lines := by
  obtain ⟨hquiet, hmasks⟩ := hs
  constructor
  · exact ⟨hpics ▸ hquiet.pics, hlapic ▸ hquiet.enabled, hlapic ▸ hquiet.mapped, hlapic ▸ hquiet.inService⟩
  · rw [hpics]
    exact hmasks

theorem Serves.step (hs : s.Serves lines) (hproper : e.Proper) (h : s.step handle e = some (s', fs)) :
    s'.Serves (e.maskedLines lines) := by
  have hquiet := hs.quiet
  have hmasks := hs.masks
  cases e with
  | interrupt request context =>
    obtain ⟨⟨s1, vec⟩, haccept, hr⟩ := Option.map_eq_some_iff.mp h
    have hhandler := hquiet.interrupt handle hproper haccept context
    dsimp only at hr
    rw [hhandler] at hr
    obtain ⟨rfl, rfl⟩ := Prod.mk.inj hr
    exact hs.same (s.callHandler_pics handle _ _) (s.callHandler_lapic handle _ _)
  | registerHandler irq handler =>
    obtain ⟨rfl, rfl⟩ := Prod.mk.inj (Option.some.inj h)
    unfold irqRegisterHandler
    split_ifs
    · exact hs.same rfl rfl
    · exact hs
  | registerVectorHandler vector handler =>
    obtain ⟨rfl, rfl⟩ := Prod.mk.inj (Option.some.inj h)
    exact hs.same rfl rfl
  | mask call =>
    obtain ⟨rfl, rfl⟩ := Prod.mk.inj (Option.some.inj h)
    exact ⟨hquiet.mask call, hmasks.call call⟩

theorem Serves.run (hs : s.Serves lines) (hproper : ∀ e ∈ es, e.Proper) (h : s.run handle es = some (s', fs)) :
    s'.Serves (es.foldl Event.maskedLines lines) := by
  induction es generalizing s lines fs with
  | nil =>
    obtain ⟨rfl, rfl⟩ := Prod.mk.inj (Option.some.inj h)
    exact hs
  | cons e es ih =>
    obtain ⟨he, hes⟩ := List.forall_mem_cons.mp hproper
    obtain ⟨⟨s1, fs1⟩, hstep, hrest⟩ := Option.bind_eq_some_iff.mp h
    obtain ⟨⟨s2, fs2⟩, hrun, hr⟩ := Option.map_eq_some_iff.mp hrest
    obtain ⟨rfl, rfl⟩ := Prod.mk.inj hr
    exact ih (hs.step handle he hstep) hes hrun

theorem lapicInit_enabled (l : Lapic) (mapped : U64) : (l.lapicInit mapped).Enabled := by
  intro hzero
  have hbit := congrArg (fun x => x.getLsbD 11) hzero
  simp [Lapic.lapicInit, apicBaseEnable] at hbit

theorem irqInit_isr (pics : Pair) :
    pics.irqInit.master.isr = pics.master.isr ∧ pics.irqInit.slave.isr = pics.slave.isr := by
  constructor <;> rfl

theorem boot_serves {pics : Pair} {lapic : Lapic} {mapped : U64} (kernel : σ) (hmaster : pics.master.isr = 0)
    (hslave : pics.slave.isr = 0) (hservice : lapic.inService = ∅) (hmapped : mapped ≠ 0) :
    (boot (H := H) pics lapic mapped kernel).Serves (Finset.range 16) := by
  have hmasks := pics.irqInit_masks
  obtain ⟨hisr1, hisr2⟩ := irqInit_isr pics
  refine ⟨⟨⟨hmasks.programmed, hisr1.trans hmaster, hisr2.trans hslave⟩, lapicInit_enabled lapic mapped, ?_,
    hservice⟩, hmasks⟩
  unfold boot Lapic.lapicInit
  dsimp only
  split_ifs with hbase
  · exact hmapped
  · exact hbase

/-- After any run nothing is left in service, so that of the lines just the masked ones are held back,
and no interrupt of the local APIC is. -/
theorem interrupts_acknowledged (pics : Pair) (lapic : Lapic) (mapped : U64) (kernel : σ)
    (hmaster : pics.master.isr = 0) (hslave : pics.slave.isr = 0) (hservice : lapic.inService = ∅)
    (hmapped : mapped ≠ 0) (hproper : ∀ e ∈ es, e.Proper)
    (h : (boot pics lapic mapped kernel).run handle es = some (s', fs)) :
    (s'.pics.master.isr = 0 ∧ s'.pics.slave.isr = 0 ∧ s'.lapic.inService = ∅) ∧
      (∀ n < 16, n ≠ 2 → ((s'.accept (.line n)).isSome ↔
        n ∉ es.foldl Event.maskedLines (Finset.range 16) ∧
          (8 ≤ n → 2 ∉ es.foldl Event.maskedLines (Finset.range 16)))) ∧
      ∀ v ≥ 16, (s'.accept (.apic v)).isSome := by
  obtain ⟨hquiet, hmasks⟩ := (boot_serves kernel hmaster hslave hservice hmapped).run handle hproper h
  refine ⟨⟨hquiet.pics.master, hquiet.pics.slave, hquiet.inService⟩, ?_, ?_⟩
  · intro n hn hcascade
    have hline : (s'.accept (.line n)).isSome ↔ (s'.pics.acceptLine n).isSome := by
      rw [accept, Option.isSome_map]
    rw [hline, hquiet.pics.acceptLine_isSome hn hcascade, ← hmasks.masked n hn, ← hmasks.masked 2 (by omega),
      Bool.not_eq_true, Bool.not_eq_true]
  · intro v hv
    have hapic : s'.lapic.accept v = some { s'.lapic with inService := insert v s'.lapic.inService } := by
      apply if_pos
      refine ⟨hquiet.enabled, hv, ?_⟩
      rw [hquiet.inService]
      simp
    rw [accept, hapic]
    rfl

def idleChip : Chip := ⟨none, false, false, 0, 0, 0, 0, 0⟩

def someFrame : IsrFrame :=
  ⟨0, 0, 0, 0, 0, 0, 0, 0, 0, 0, 0, 0, 0, 0, 0, 0, 0, 0, 0, 0, 0, 0⟩

def countCalls (_ : Unit) (f : IsrFrame) (calls : ℕ) : ℕ × IsrFrame := (calls + 1, f)

def someEvents : List (Event Unit) := [
  .mask (.clearMask 2),
  .mask (.clearMask 9),
  .registerHandler 9 (some ()),
  .registerHandler 15 (some ()),
  .registerVectorHandler 0xf0 (some ()),
  .interrupt (.line 9) someFrame,
  .interrupt (.apic 0xf0) someFrame,
  .interrupt (.spurious true) someFrame]

theorem someEvents_proper : ∀ e ∈ someEvents, e.Proper := by
  intro e he
  simp only [someEvents, List.mem_cons, List.not_mem_nil, or_false] at he
  obtain rfl | rfl | rfl | rfl | rfl | rfl | rfl | rfl := he
  all_goals trivial

theorem interrupts_acknowledged_some : ∃ (s' : System Unit ℕ) (fs : List IsrFrame),
    (boot ⟨idleChip, idleChip⟩ ⟨0, 0, ∅⟩ 0xffff8000fee00000 0).run countCalls someEvents = some (s', fs) ∧
      ((s'.pics.master.isr = 0 ∧ s'.pics.slave.isr = 0 ∧ s'.lapic.inService = ∅) ∧
        (∀ n < 16, n ≠ 2 → ((s'.accept (.line n)).isSome ↔
          n ∉ someEvents.foldl Event.maskedLines (Finset.range 16) ∧
            (8 ≤ n → 2 ∉ someEvents.foldl Event.maskedLines (Finset.range 16)))) ∧
        ∀ v ≥ 16, (s'.accept (.apic v)).isSome) :=
  ⟨_, _, rfl, interrupts_acknowledged countCalls ⟨idleChip, idleChip⟩ ⟨0, 0, ∅⟩ 0xffff8000fee00000 0 rfl rfl rfl (by decide)
    someEvents_proper rfl⟩

/-- Whatever is registered and interrupts in between, irq.c calls handlers by one table. -/
theorem irq_refines_table (pics : Pair) (lapic : Lapic) (mapped : U64) (kernel : σ)
    (h : (boot pics lapic mapped kernel).run handle es = some (s', fs)) :
    Dispatcher.run handle ⟨fun _ => none, kernel⟩ es = (⟨s'.handlerOf, s'.kernel⟩, fs) := by
  have htable : (boot (H := H) pics lapic mapped kernel).dispatcher = ⟨fun _ => none, kernel⟩ := by
    unfold dispatcher handlerOf boot
    congr 1
    funext vec
    cases lineAt vec <;> rfl
  have hrun := run_dispatcher handle pics.irqInit_masks.programmed h
  rw [htable] at hrun
  exact hrun

theorem irq_refines_table_some : ∃ (s' : System Unit ℕ) (fs : List IsrFrame),
    (boot ⟨idleChip, idleChip⟩ ⟨0, 0, ∅⟩ 0xffff8000fee00000 0).run countCalls someEvents = some (s', fs) ∧
      Dispatcher.run countCalls ⟨fun _ => none, 0⟩ someEvents = (⟨s'.handlerOf, s'.kernel⟩, fs) :=
  ⟨_, _, rfl, irq_refines_table countCalls ⟨idleChip, idleChip⟩ ⟨0, 0, ∅⟩ 0xffff8000fee00000 0 rfl⟩

end System

end Irq

end Mcincos
