import Mcincos.Core.UserPages
import Mcincos.Core.UserSessions
import Mcincos.Vmm.Permissions

namespace Mcincos

open Radix PageCall

section Memory

variable {s s' : Vm} {a b : ℕ} {va p : U64} {bs cs : List (BitVec 8)}

theorem Vm.storeBytes_append (s : Vm) (va : U64) (bs cs : List (BitVec 8)) : s.storeBytes va (bs ++ cs) =
    (s.storeBytes va bs).bind fun s => s.storeBytes (va + BitVec.ofNat 64 bs.length) cs := by
  induction bs generalizing s va with
  | nil => exact congrArg (s.storeBytes · cs) (BitVec.add_zero va).symm
  | cons b bs ih =>
    simp only [List.cons_append, Vm.storeBytes, ih, Option.bind_assoc, List.length_cons]
    rw [Nat.add_comm, BitVec.ofNat_add, ← BitVec.add_assoc]
    rfl

theorem storeByte_eq (hphys : (cpuWalk s.ram s.cr3 va).physical va = some p) {b : BitVec 8}
    (h : s.storeByte va b = some s') : s' = s.storePhys p b := by
  simp only [Vm.storeByte, hphys, Option.map_some] at h
  split_ifs at h
  exact (Option.some.inj h).symm

/-- The `n` bytes at `va` of the lower half are those at `p`, in the frame `b`. -/
def Window (s : Vm) (b : ℕ) (va p : U64) (n : ℕ) : Prop :=
  ∀ i < n, (Vm.idxPml4 (va + BitVec.ofNat 64 i)).toNat < 256 ∧ frameOf (p + BitVec.ofNat 64 i) = b ∧
    (cpuWalk s.ram s.cr3 (va + BitVec.ofNat 64 i)).physical (va + BitVec.ofNat 64 i) = some (p + BitVec.ofNat 64 i)

theorem add_ofNat_succ (x : U64) (i : ℕ) : x + BitVec.ofNat 64 (i + 1) = x + 1 + BitVec.ofNat 64 i := by
  rw [Nat.add_comm, BitVec.ofNat_add, ← BitVec.add_assoc]
  rfl

theorem Window.tail {n : ℕ} (h : Window s b va p (n + 1)) : Window s b (va + 1) (p + 1) n := by
  intro i hi
  have hnext := h (i + 1) (by omega)
  rwa [add_ofNat_succ, add_ofNat_succ] at hnext

theorem Window.head {n : ℕ} (h : Window s b va p (n + 1)) : (Vm.idxPml4 va).toNat < 256 ∧ frameOf p = b ∧
    (cpuWalk s.ram s.cr3 va).physical va = some p := by
  have hzero := h 0 (Nat.succ_pos n)
  rwa [BitVec.add_zero, BitVec.add_zero] at hzero

theorem DataStored.window {n : ℕ} (h : DataStored a b s s') (hp : Prepared a b s) (hw : Window s b va p n) :
    Window s' b va p n := by
  intro i hi
  obtain ⟨hlow, hframe, hphys⟩ := hw i hi
  exact ⟨hlow, hframe, (h.walk_eq hp hlow).symm ▸ hphys⟩

theorem Prepared.storeBytes_load (h : Prepared a b s) (hw : Window s b va p bs.length) (hlength : bs.length ≤ 4096)
    (hstore : s.storeBytes va bs = some s') :
    (∀ i (_ : i < bs.length), s'.loadPhys (p + BitVec.ofNat 64 i) = bs[i]) ∧
      ∀ q, (∀ i < bs.length, q ≠ p + BitVec.ofNat 64 i) → s'.loadPhys q = s.loadPhys q := by
  induction bs generalizing s va p with
  | nil =>
    obtain rfl := Option.some.inj hstore
    exact ⟨fun i hi => absurd hi (Nat.not_lt_zero i), fun _ _ => rfl⟩
  | cons c bs ih =>
    obtain ⟨s1, hfirst, hrest⟩ := Option.bind_eq_some_iff.mp hstore
    obtain ⟨-, hframe, hphys⟩ := hw.head
    obtain rfl := storeByte_eq hphys hfirst
    have hstored := h.storePhys hframe c
    rw [List.length_cons] at hlength
    obtain ⟨hbytes, hothers⟩ := ih hstored.prepared (hstored.window h hw.tail) (by omega) hrest
    constructor
    · intro i hi
      cases i with
      | zero =>
        rw [BitVec.add_zero, hothers p, Vm.loadPhys_storePhys, if_pos rfl]
        · rfl
        · intro i hi he
          rw [← add_ofNat_succ] at he
          have hnat := congrArg BitVec.toNat he
          rw [BitVec.toNat_add, BitVec.toNat_ofNat] at hnat
          have hp := p.isLt
          omega
      | succ i =>
        rw [add_ofNat_succ]
        exact hbytes i (Nat.lt_of_succ_lt_succ hi)
    · intro q hq
      rw [hothers q fun i hi => add_ofNat_succ p i ▸ hq (i + 1) (Nat.succ_lt_succ hi), Vm.loadPhys_storePhys, if_neg]
      have hzero := hq 0 (Nat.succ_pos _)
      rwa [BitVec.add_zero] at hzero

theorem buildUserBlob_eq (s : Vm) (va : U64) : s.buildUserBlob va = s.storeBytes va (userCode ++ userMsg) :=
  (s.storeBytes_append va userCode userMsg).symm

end Memory

section

variable {s s' : Vm} {r f : ℕ} {va phys : U64} {calls : List PageCall}

theorem mem_openedBy {q : List (BitVec 9)} {flags : U64} (h : openedBy q calls = some flags) :
    ∃ call ∈ calls, ∃ phys, call.request = some (phys, flags) := by
  induction calls with
  | nil => exact absurd h (by simp [openedBy])
  | cons call calls ih =>
    rw [openedBy, Option.or_eq_some_iff] at h
    obtain hold | ⟨-, hnew⟩ := h
    · obtain ⟨call', hmem, hreq⟩ := ih hold
      exact ⟨call', List.mem_cons_of_mem call hmem, hreq⟩
    · split_ifs at hnew
      obtain ⟨⟨phys, flags'⟩, hreq, rfl⟩ := Option.map_eq_some_iff.mp hnew
      exact ⟨call, List.mem_cons_self, phys, hreq⟩

theorem Made.same (h : Made r calls s) (hinv : s'.Inv {r}) (hword : s'.ram.word = s.ram.word) : Made r calls s' :=
  ⟨hinv, hword ▸ h.inner, hword ▸ h.leaf⟩

theorem Made.lower_map (h : Made r calls (s.lower r)) (hr : frameOf s.cr3 = r) (hlow : (Vm.idxPml4 va).toNat < 256)
    {flags : U64} (hcall : s.vmmMapPage va phys flags = (s', 0)) : Made r (.map va phys flags :: calls) (s'.lower r) := by
  have hcr3 : frameOf (s.cr3 &&& ~~~0xfff#64) = r := (frameOf_tableOf s.cr3).trans hr
  have hboth := lower_mapPage h.inv hcr3 hlow phys (keptFlags flags)
  rw [show s.mapPage _ va phys (keptFlags flags) = (s', 0) from hcall] at hboth
  have hmade := h.mapPage (.map va phys flags) hcr3 rfl (congrArg Prod.snd hboth)
  rwa [show (PageCall.map va phys flags).virt = va from rfl, hboth] at hmade

theorem requested_maps {pages : List U64} {page : BitVec 36} (phys flags : U64) (h : page ∈ pages.map pageOf) :
    requested page (pages.map fun va => .map va phys flags) = some (phys, flags) := by
  induction pages with
  | nil => exact absurd h List.not_mem_nil
  | cons va pages ih =>
    rw [List.map_cons, requested, show (map va phys flags).virt = va from rfl]
    by_cases hva : pageOf va = page
    · exact if_pos hva
    · rw [if_neg hva]
      exact ih ((List.mem_cons.mp h).resolve_left fun he => hva he.symm)

def userMaps (p : UserFrames) : List PageCall :=
  sharedPages.map fun va => .map va p.uc0Phys (pteU ||| pteW)

theorem mapUserPages_made {p : UserFrames} {rcs : List Int} (hp : Prepared r f s) (hm : Made r [] (s.lower r))
    (h : s.mapUserPages p = (s', rcs)) (hrcs : ∀ rc ∈ rcs, rc = 0) : Made r (userMaps p) (s'.lower r) := by
  rw [Vm.mapUserPages] at h
  rcases hc0 : s.vmmMapPage userCode0 p.uc0Phys (pteU ||| pteW) with ⟨s1, rc0⟩
  rcases hc1 : s1.vmmMapPage userStack0 p.uc0Phys (pteU ||| pteW) with ⟨s2, rc1⟩
  rcases hc2 : s2.vmmMapPage userCode1 p.uc0Phys (pteU ||| pteW) with ⟨s3, rc2⟩
  rcases hc3 : s3.vmmMapPage userCode0 p.uc0Phys (pteU ||| pteW) with ⟨s4, rc3⟩
  simp only [hc0, hc1, hc2, hc3, Prod.mk.injEq] at h
  obtain ⟨rfl, rfl⟩ := h
  simp only [List.forall_mem_cons] at hrcs
  obtain ⟨rfl, rfl, rfl, rfl, -⟩ := hrcs
  obtain ⟨hp1, -⟩ := hp.mapPage (by decide) hc0
  obtain ⟨hp2, -⟩ := hp1.mapPage (by decide) hc1
  obtain ⟨hp3, -⟩ := hp2.mapPage (by decide) hc2
  have hm1 := hm.lower_map hp.cr3 (by decide) hc0
  have hm2 := hm1.lower_map hp1.cr3 (by decide) hc1
  have hm3 := hm2.lower_map hp2.cr3 (by decide) hc2
  exact hm3.lower_map hp3.cr3 (by decide) hc3

theorem Made.userMaps_walk {p : UserFrames} (h : Made r (userMaps p) (s.lower r)) {cr3 : U64} (hr : frameOf cr3 = r)
    (hphys : p.uc0Phys = BitVec.ofNat 64 (4096 * f)) (hf : f < 2 ^ 40)
    (hva : requested (pageOf va) (userMaps p) = some (p.uc0Phys, pteU ||| pteW)) :
    (cpuWalk (s.lower r).ram cr3 va).user ∧ ¬(cpuWalk (s.lower r).ram cr3 va).noExecute := by
  have hopened {q : List (BitVec 9)} {flags : U64} (hq : openedBy q (userMaps p) = some flags) :
      flags = pteU ||| pteW := by
    obtain ⟨call, hmem, phys, hreq⟩ := mem_openedBy hq
    obtain ⟨va, -, rfl⟩ := List.mem_map.mp hmem
    exact (Prod.mk.inj (Option.some.inj hreq)).2.symm
  obtain ⟨-, hnone⟩ | ⟨phys, flags, f4, f3, f2, -, hreq, h4, h3, h2, hu, -, hx⟩ := h.walk hr va
  · exact absurd (hnone.symm.trans hva) (by simp)
  · obtain ⟨rfl, rfl⟩ := Prod.mk.inj (Option.some.inj (hreq.symm.trans hva))
    rw [hu, hx, hopened h4, hopened h3, hopened h2]
    have hphysBit : p.uc0Phys.getLsbD 63 = false := by
      apply Nat.testBit_lt_two_pow
      rw [hphys, BitVec.toNat_ofNat]
      omega
    rw [hphysBit]
    decide

end

section

variable {s : Vm} {T E : Type} [DecidableEq T] {k : Kernel T E} {hhdmOffset : U64} {t0 t1 : T} {u : UserSetup T E} {page : U64}

theorem kmainUsers_executable (hrow : ∀ i, (s.lower (frameOf s.cr3)).ram.word (frameOf s.cr3) i &&& pteP = 0)
    (hs : (s.lower (frameOf s.cr3)).Inv {frameOf s.cr3}) (h : kmainUsers s k hhdmOffset t0 t1 = some u)
    (hrcs : ∀ rc ∈ u.rcs, rc = 0) (hpage : page ∈ [userCode0, userCode1]) :
    (u.walk page).user ∧ ¬(u.walk page).noExecute := by
  obtain ⟨s1, s2, s3, halloc, hnull, hmap, hblob0, hblob1, -⟩ := kmainUsers_cases h
  obtain ⟨htaken, f, hphys, hf, hp1⟩ := allocUserFrames_prepared hs rfl halloc hnull
  obtain ⟨hp2, hm2⟩ := mapUserPages_releaved hp1 hmap hrcs
  rw [hphys] at hm2
  have h3 := (hp2.buildUserBlob (hm2.backed hf (by decide) (by decide)) (by decide)).1 s3 hblob0
  have h4 := (h3.prepared.buildUserBlob (h3.backed (hm2.backed hf (by decide) (by decide))) (by decide)).1 u.vm hblob1
  have hlow : (Vm.idxPml4 page).toNat < 256 := by
    simp only [List.mem_cons, List.not_mem_nil, or_false] at hpage
    obtain rfl | rfl := hpage <;> decide
  have hshared : page ∈ sharedPages := by
    simp only [List.mem_cons, List.not_mem_nil, or_false] at hpage
    obtain rfl | rfl := hpage <;> simp [sharedPages]
  have hmade := mapUserPages_made hp1 ((Made.start hrow hs).same (htaken.inv hs) htaken.word) hmap hrcs
  rw [UserSetup.walk, (h3.trans h4).walk_eq hp2 hlow, ← hp2.cpuWalk_eq hlow]
  exact hmade.userMaps_walk hp2.cr3 hphys hf (requested_maps _ _ (List.mem_map_of_mem hshared))

theorem kmainUsers_bytes (hs : (s.lower (frameOf s.cr3)).Inv {frameOf s.cr3})
    (h : kmainUsers s k hhdmOffset t0 t1 = some u) (hrcs : ∀ rc ∈ u.rcs, rc = 0) :
    ∀ i (_ : i < (userCode ++ userMsg).length),
      u.vm.loadPhys (u.frames.uc0Phys + BitVec.ofNat 64 i) = (userCode ++ userMsg)[i] := by
  obtain ⟨s1, s2, s3, halloc, hnull, hmap, hblob0, hblob1, -⟩ := kmainUsers_cases h
  obtain ⟨-, f, hphys, hf, hp1⟩ := allocUserFrames_prepared hs rfl halloc hnull
  obtain ⟨hp2, hm2⟩ := mapUserPages_releaved hp1 hmap hrcs
  have hlength : (userCode ++ userMsg).length = 37 := rfl
  rw [hphys] at hm2 ⊢
  have h3 := (hp2.buildUserBlob (hm2.backed hf (by decide) (by decide)) (by decide)).1 s3 hblob0
  rw [buildUserBlob_eq] at hblob1
  refine (h3.prepared.storeBytes_load (h3.window hp2 fun i hi => ?_) (by rw [hlength]; decide) hblob1).1
  have hi : BitVec.ofNat 64 i < 4096 := by
    rw [BitVec.lt_def, BitVec.toNat_ofNat, show (4096 : U64).toNat = 4096 from rfl]
    omega
  have hshared : userCode1 ∈ sharedPages := by simp [sharedPages]
  refine ⟨(sharedPages_byte hshared hi).1, ?_, hm2.physical_byte hp2 hf hshared hi⟩
  rw [frameOf, BitVec.toNat_add, BitVec.toNat_ofNat, BitVec.toNat_ofNat]
  omega

theorem kmainUsers_blob (hs : (s.lower (frameOf s.cr3)).Inv {frameOf s.cr3})
    (h : kmainUsers s k hhdmOffset t0 t1 = some u) (hrcs : ∀ rc ∈ u.rcs, rc = 0)
    (hpage : page ∈ [userCode0, userCode1]) (huser : (u.walk page).user) (hexec : ¬(u.walk page).noExecute) :
    Blob u.vm page := by
  have hbytes := kmainUsers_bytes hs h hrcs
  have hlength : (userCode ++ userMsg).length = 37 := rfl
  have hcode : userCode.length = 21 := rfl
  have hmsg : userMsg.length = 16 := rfl
  obtain ⟨hshared, hstart, hlow⟩ : page ∈ sharedPages ∧ page.toNat % 4096 = 0 ∧ page.toNat + 4096 ≤ userEnd.toNat := by
    simp only [List.mem_cons, List.not_mem_nil, or_false] at hpage
    obtain rfl | rfl := hpage <;> decide
  have hoffset {i : ℕ} (hi : i < 37) : (BitVec.ofNat 64 i).toNat = i := by
    rw [BitVec.toNat_ofNat]
    omega
  have hsmall {i : ℕ} (hi : i < 37) : BitVec.ofNat 64 i < 4096 := by
    rw [BitVec.lt_def, hoffset hi, show (4096 : U64).toNat = 4096 from rfl]
    omega
  have hcanonical {i : ℕ} (hi : i < 37) : Canonical (page + BitVec.ofNat 64 i) := by
    refine .inl (BitVec.lt_def.mpr ?_)
    rw [BitVec.toNat_add, hoffset hi]
    omega
  have hwalk {i : ℕ} (hi : i < 37) : cpuWalk u.vm.ram u.vm.cr3 (page + BitVec.ofNat 64 i) = u.walk page := by
    apply cpuWalk_page (pageOf_add _)
    rw [hoffset hi]
    omega
  have hphys {i : ℕ} (hi : i < 37) := kmainUsers_physical hs h hrcs hshared (hsmall hi)
  constructor
  · omega
  · intro i hi
    have hi' : i < 37 := by omega
    have hallowed : Canonical (page + BitVec.ofNat 64 i) ∧ (u.walk page).user ∧ ¬(u.walk page).noExecute :=
      ⟨hcanonical hi', huser, hexec⟩
    have hread := hphys hi'
    rw [UserSetup.physical, UserSetup.walk, hwalk hi'] at hread
    rw [Vm.fetchByte, hwalk hi', if_pos hallowed, hread, Option.map_some, hbytes i (by omega), List.getElem_append_left]
  · intro i hi
    have hi' : 21 + i < 37 := by omega
    rw [BitVec.add_assoc, show (21 : U64) + BitVec.ofNat 64 i = BitVec.ofNat 64 (21 + i) from (BitVec.ofNat_add 21 i).symm]
    have htranslate : u.vm.translate (page + BitVec.ofNat 64 (21 + i)) = some (u.frames.uc0Phys + BitVec.ofNat 64 (21 + i)) :=
      (if_pos (hcanonical hi')).trans (hphys hi')
    rw [readByte_some htranslate, hbytes _ (by omega), List.getElem_append_right (by omega)]
    simp [hcode]

omit [DecidableEq T] in
theorem lower_empty (hempty : ∀ i : BitVec 9, i.toNat < 256 → s.ram.word (frameOf s.cr3) i &&& pteP = 0)
    (i : BitVec 9) : (s.lower (frameOf s.cr3)).ram.word (frameOf s.cr3) i &&& pteP = 0 := by
  dsimp only [Vm.lower]
  split_ifs with hhigh
  · exact BitVec.zero_and
  · exact hempty i (Nat.not_le.mp fun hle => hhigh ⟨rfl, hle⟩)

/-- The threads that `kmain` makes, whatever the scheduler does with them: the console has the text of
`build_user_blob` once for each thread that has come to its last instruction, whole and in one piece, and no
thread faults. -/
theorem threads_say_hello [DecidableEq E] [Fintype T] (s : Vm)
    (hempty : ∀ i : BitVec 9, i.toNat < 256 → s.ram.word (frameOf s.cr3) i &&& pteP = 0)
    (hroot : ¬s.pmm.Free (frameOf s.cr3)) (hzero : ¬s.pmm.Free 0) (hwidth : s.pmm.gTotalPages ≤ 2 ^ 40)
    (hcr3 : frameOf s.cr3 < 2 ^ 40) (k : Kernel T E) (hhdmOffset : U64) (t0 t1 : T) (u : UserSetup T E)
    (h : kmainUsers s k hhdmOffset t0 t1 = some u) (hrcs : ∀ rc ∈ u.rcs, rc = 0) (code : T → U64)
    (hcode : ∀ t, code t ∈ [userCode0, userCode1]) (callback : U64 → U64 → Kernel T E → Kernel T E)
    (hcb : Kernel.KeepsContexts callback) (out : List (BitVec 8)) (g : Option (T × Regs)) (mode : Mode)
    (m : Machine T E) (hsession : Machine.Session u.vm code callback out g mode m) :
    ∃ printed : Finset T, out = (List.replicate printed.card userMsg).flatten ∧
      (∀ t, m.kernel.gCurrent ≠ some t → (t ∈ printed ↔ (m.kernel.thread t).frame.rip = code t + 19)) ∧
      (mode = .user → ∀ t, m.kernel.gCurrent = some t → (t ∈ printed ↔ m.regs.rip = code t + 19) ∧
        (u.vm.instrAt m.regs.rip).isSome ∧ sysretFlags m.regs.rflags = m.regs.rflags) ∧
      ∀ rest, mode = .entry (.call :: rest) → ∀ rip, m.dispatchAt u.vm rip = (userMsg, .returned 16) := by
  have hrow := lower_empty hempty
  have hs : (s.lower (frameOf s.cr3)).Inv {frameOf s.cr3} := .of_empty hrow hroot hzero hwidth hcr3
  have hblob (t : T) : Blob u.vm (code t) := by
    obtain ⟨huser, hexec⟩ := kmainUsers_executable hrow hs h hrcs (hcode t)
    exact kmainUsers_blob hs h hrcs (hcode t) huser hexec
  obtain ⟨printed, htold⟩ := hsession.told hblob hcb
  refine ⟨printed, htold.console, fun t ht => (htold.others t ht).rip_iff.symm, ?_, ?_⟩
  · intro huser t ht
    have halive := htold.user huser t ht
    obtain ⟨i, hinstr, -⟩ := halive.instr (hblob t)
    exact ⟨halive.rip_iff.symm, hinstr ▸ rfl, halive.flags⟩
  · rintro rest rfl
    obtain ⟨-, -, hdispatch⟩ := htold.dispatchAt hblob hsession.reached hcb
    exact hdispatch

end

def helloCode (t : Fin 3) : U64 := if t = 0 then userCode0 else userCode1

def helloUsers : List (Kernel.UserThread (Fin 3)) :=
  [⟨0, userCode0, userStack0 + 4096, 0x12000⟩, ⟨1, userCode1, userStack1 + 4096, 0x14000⟩,
    ⟨2, userCode1, userStack1 + 4096, 0x16000⟩]

def helloBooted : Kernel (Fin 3) (Fin 1) := Kernel.threeThreads.boot helloUsers 0

def helloQueued : Kernel (Fin 3) (Fin 1) := returned helloBooted (helloBooted.schedAdd 1 100)

def atHello : Machine (Fin 3) (Fin 1) where
  kernel := helloQueued
  userRsp := 0
  stack := fun _ => 0
  regs := .ofFrame (helloBooted.thread 0).frame
  gsBase := 0
  kernelGsBase := 0xffffffff80000000
  gCpuLocal := 0xffffffff80000000

def helloRegs : Regs :=
  [userProgram 0, userProgram 1, userProgram 2, userProgram 3].foldl (fun r x => r.after x.1 x.2) atHello.regs

def atHelloCall : Machine (Fin 3) (Fin 1) :=
  (syscallEntry.foldlM Machine.exec { atHello with regs := helloRegs }.syscall).getD atHello

theorem Machine.Session.steps {T E : Type} [DecidableEq T] [DecidableEq E] [Fintype T] {vm : Vm} {code : T → U64}
    {callback : U64 → U64 → Kernel T E → Kernel T E} {out : List (BitVec 8)} {g : Option (T × Regs)}
    {m m' : Machine T E} (is : List Instr) {rest : List Instr}
    (h : Session vm code callback out g (.entry (is ++ rest)) m) (hexec : is.foldlM exec m = some m') :
    Session vm code callback out g (.entry rest) m' := by
  induction is generalizing m with
  | nil => exact Option.some.inj hexec ▸ h
  | cons i is ih =>
    rw [List.foldlM_cons] at hexec
    obtain ⟨m1, hm1, hexec⟩ := Option.bind_eq_some_iff.mp hexec
    exact ih (h.instr hm1) hexec

theorem hello_session {vm : Vm} (hblob : Blob vm userCode0) :
    Machine.Session vm helloCode (fun _ _ s => s) [] (some (0, helloRegs))
      (.entry (.call :: (syscallExit ++ [.sysretq, .mov .rdi .rax]))) atHelloCall := by
  have hadd : helloBooted.schedAdd 1 100 = .ok helloQueued := ok_returned (by decide +kernel)
  have hstarted : Machine.Started (fun _ _ s => s) atHello :=
    ⟨rfl, Kernel.threeThreads, helloUsers, 0, _, by decide, by decide, Kernel.Run.start.add hadd⟩
  have hentries : Machine.AtEntries helloCode atHello := by
    constructor
    · unfold AtEntry
      decide +kernel
    · unfold AtEntry
      decide +kernel
  have hstart : Machine.Session vm helloCode (fun _ _ s => s) [] none .user atHello := .start hstarted hentries
  have h1 := hstart.user (hblob.instrAt (k := 0) (by decide)) (by decide)
  have h2 := h1.user (hblob.instrAt (k := 1) (by decide)) (by decide)
  have h3 := h2.user (hblob.instrAt (k := 2) (by decide)) (by decide)
  have h4 := h3.syscall (hblob.instrAt (k := 3) (by decide)) (t := 0) (by decide +kernel) (by decide +kernel)
  have hexec : syscallEntry.foldlM Machine.exec { atHello with regs := helloRegs }.syscall = some atHelloCall := rfl
  exact h4.steps syscallEntry hexec

theorem threads_say_hello_roomyVm : ∃ u, kmainUsers roomyVm Kernel.threeThreads 0 0 1 = some u ∧
    ∀ rip, atHelloCall.dispatchAt u.vm rip = (userMsg, .returned 16) := by
  obtain ⟨u, hu, hrcs⟩ := kmainUsers_roomyVm Kernel.threeThreads 0 1
  have hempty (i : BitVec 9) (_ : i.toNat < 256) : roomyVm.ram.word (frameOf roomyVm.cr3) i &&& pteP = 0 :=
    BitVec.zero_and
  have hblob : Blob u.vm userCode0 := by
    obtain ⟨huser, hexec⟩ := kmainUsers_executable (lower_empty hempty) roomyVm_inv hu hrcs List.mem_cons_self
    exact kmainUsers_blob roomyVm_inv hu hrcs List.mem_cons_self huser hexec
  have hcb : Kernel.KeepsContexts (fun _ _ s => s : U64 → U64 → Kernel (Fin 3) (Fin 1) → _) :=
    fun _ _ s => .refl s
  obtain ⟨-, -, -, -, hdispatch⟩ := threads_say_hello roomyVm hempty (by decide) (by decide) (by decide) (by decide)
    Kernel.threeThreads 0 0 1 u hu hrcs helloCode (by decide) _ hcb _ _ _ _ (hello_session hblob)
  exact ⟨u, hu, hdispatch _ rfl⟩

end Mcincos
