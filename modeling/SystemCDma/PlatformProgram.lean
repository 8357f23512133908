import SystemCDma.FlagProtocol
import SystemCDma.PlatformTransfer

/-!
# The two programs on the platform

The programs of both processors run on the platform as it is built. Every load
and store goes through a direct pointer of the processor or over its bus, and
between any two of them a processor may do anything in its own RAMs, where its
code and its stack are. The platform follows the closed system of the programs
and the controller on a flat shared memory step by step, so what holds there
holds of what the initiators read here.
-/

namespace SystemCDma.PlatformProgram

open ByteMemory EventRun TlmBus TlmDecoder TransferEngine FlatMemory PlatformSimulation
open PlatformMemory SharedRam PlatformTransfer
open BareMetal hiding Act
open BurstDriver (Core Op Program Access clearAddress dmaBase drive)
open FlagProtocol (System PC app main flagAddress writesFlag Inv layout)
open DualDma (Side World)

section Core

variable {PC : Type}

/-- The address that the next step of a processor loads a byte from, if it
loads one. The handler loads the register a second time for its message. -/
def loads (prog : Program PC) (side : Side) (irq : Bool) (k : Core PC) : Option (BitVec 32) :=
  match k.mode with
  | .run =>
    if irq && prog.enabled k.pc then none
    else match prog.fetch k.pc with
      | .poll address _ => some address
      | _ => none
  | .test | .print => some (clearAddress side)
  | _ => none

/-- A step looks at no other byte. -/
theorem step_loads {prog : Program PC} {side : Side} {irq : Bool} {k : Core PC}
    {read read' : BitVec 32 → BitVec 8} (h : ∀ a∈loads prog side irq k,read a=read' a) :
    k.step prog side irq read=k.step prog side irq read' := by
  unfold loads at h
  unfold Core.step
  cases hm : k.mode with
  | run =>
    rw [hm] at h
    dsimp only at h ⊢
    by_cases hi : (irq && prog.enabled k.pc)=true
    · rw [if_pos hi,if_pos hi]
    · rw [if_neg hi] at h
      rw [if_neg hi,if_neg hi,Core.main,Core.main]
      cases hf : prog.fetch k.pc with
      | poll address value =>
        rw [hf] at h
        dsimp only
        rw [h address rfl]
      | burst q | writeReg8 address value | internal | halt => rfl
  | test =>
    rw [hm] at h
    dsimp only
    rw [h _ rfl]
  | sleep | print | clear | mret => rfl

/-- A step is refused to a processor that sleeps while its interrupt is low,
and at the end of the program. -/
theorem step_none {prog : Program PC} {side : Side} {irq : Bool} {k : Core PC}
    {read : BitVec 32 → BitVec 8} (h : k.step prog side irq read=none) :
    (k.mode=.sleep ∧ irq=false) ∨ prog.fetch k.pc=.halt := by
  unfold Core.step at h
  cases hm : k.mode with
  | run =>
    rw [hm] at h
    dsimp only at h
    split_ifs at h
    unfold Core.main at h
    cases hf : prog.fetch k.pc with
    | halt => exact Or.inr rfl
    | burst q =>
      rw [hf] at h
      dsimp only at h
      cases hp : k.pos <;> rw [hp] at h <;> cases h
    | poll address value | writeReg8 address value | internal =>
      rw [hf] at h
      cases h
  | sleep =>
    rw [hm] at h
    dsimp only at h
    split_ifs at h with hi
    exact Or.inl ⟨rfl,Bool.eq_false_of_not_eq_true hi⟩
  | test | print | clear | mret =>
    rw [hm] at h
    cases h

end Core

/-- The payload of a store: four bytes to a register, or one byte. -/
def storePayload (side : Side) : Access → GenericPayload
  | .register i value => wordAccess .write (dmaBase.setWidth 64+DualDma.regOffset side i) value
  | .byte address value => byteAccess .write (address.setWidth 64) value

/-- The platform and its two processors. -/
structure Machine where
  /-- The platform. -/
  platform : Platform
  /-- The processors. -/
  core : Side → Core PC
  /-- Whether each of them has written the flag yet. -/
  flagged : Side → Bool

/-- Loading a byte. What has been in the place of the result before is still
there if the target writes nothing to it. -/
def load8 (s : Platform) (side : Side) (address : BitVec 32) (byte : BitVec 8) :
    Option (Platform×BitVec 8) :=
  match serve s (.direct side .data (byteAccess .read (address.setWidth 64) byte)) with
  | some (s',.data buffer _) => some (s',buffer 0)
  | _ => none

/-- The load of a step, if there is one. -/
def loadIf (s : Platform) (side : Side) (byte : BitVec 8) :
    Option (BitVec 32) → Option (Platform×BitVec 8)
  | some address => load8 s side address byte
  | none => some (s,byte)

/-- The store of a step, if there is one. -/
def storeIf (s : Platform) (side : Side) : Option Access → Option Platform
  | some a => proceed s (.direct side .data (storePayload side a))
  | none => some s

/-- What happens on the machine. -/
inductive Action where
  /-- A step of a program; the byte is what the place of a result holds. -/
  | cpu (side : Side) (byte : BitVec 8)
  /-- A clock edge of the controller. -/
  | edge
  /-- Anything else. -/
  | other (e : Act)

/-- One step of the machine. -/
def Machine.step (rounds : ℕ) (m : Machine) : Action → Option Machine
  | .cpu side byte => do
    let prog := main (app side) rounds
    let irq := (m.platform.targets.dma.chan side).interrupt
    let (s₁,value) ← loadIf m.platform side byte (loads prog side irq (m.core side))
    let (k,access) ← (m.core side).step prog side irq fun _ => value
    let s₂ ← storeIf s₁ side access
    some ⟨s₂,Function.update m.core side k,
      Function.update m.flagged side (m.flagged side || writesFlag access)⟩
  | .edge => (proceed m.platform .edge).map fun s => {m with platform := s}
  | .other e => (proceed m.platform e).map fun s => {m with platform := s}

/-- The machine after construction and reset. -/
def Machine.init (dataS : BitVec 32) : Machine :=
  ⟨start (DualDma.init dataS),(System.init dataS fun _ => 0).core,fun _ => false⟩

/-- A processor is busy in its own RAMs. -/
def Private : Act → Prop
  | .access (.cpu side) p | .direct side _ p => ∃ v,lookup (own side) p.address=some v
  | .request side port addr bytes => Requested (.request side port addr bytes)
  | _ => False

/-- The other activity is that of processors in their own RAMs. -/
def Action.Proper : Action → Prop
  | .other e => Private e
  | _ => True

section Accesses

variable {w : World Memory} {t : Targets Memory} {side : Side}

/-- The shared memory depends on the shared RAMs alone. -/
theorem sharedMemory_congr {ram ram' : Ram → Memory} (h₃ : ram' .ram3=ram .ram3)
    (h₄ : ram' .ram4=ram .ram4) : sharedMemory ram'=sharedMemory ram := by
  funext x
  rw [sharedMemory,sharedMemory,h₃,h₄]

/-- An access of a processor to its own RAMs concerns nobody else. -/
theorem own_access (h : Projects w t) {p : GenericPayload}
    (hp : ∃ v,lookup (own side) p.address=some v) :
    Projects w (access respondFlat (.cpu side) t p).1 := by
  obtain ⟨⟨l,offset⟩,hl⟩ := hp
  obtain ⟨m,hm,_,_⟩ := lookup_some hl
  have hnot := own_not_shared side _ hm
  have hne : ∀ r,Leaf.Shared (.ram r) → l≠.ram r := fun r hr he => hnot (he ▸ hr)
  have hmap : lookup (addressMap (.cpu side)) p.address=some (l,offset) := by
    rw [addressMap,lookup_append,hl]
    rfl
  obtain ⟨r,rfl⟩ := own_ram hm
  refine ⟨?_,?_⟩
  · rw [access_dma,registerAccess,hmap]
    exact h.dma
  · rw [access_lookup,hmap]
    exact h.mem.trans (sharedMemory_congr
      (call_frame respondFlat (hne .ram3 ⟨_,List.mem_cons_self,rfl⟩) _ _)
      (call_frame respondFlat (hne .ram4 ⟨_,List.mem_cons_of_mem _ List.mem_cons_self,rfl⟩) _ _)).symm

/-- The private activity of a processor neither changes the controller nor the
shared memory. -/
theorem private_step (h : Projects w t) {e : Act} (he : Private e) :
    ∃ t',proceedFlat t e=some t' ∧ Projects w t' := by
  cases e with
  | access i p =>
    cases i with
    | cpu side => exact ⟨_,rfl,own_access h he⟩
    | dma => exact he.elim
  | edge => exact he.elim
  | request side port addr bytes => exact ⟨t,rfl,h⟩
  | direct side port p => exact ⟨_,rfl,own_access h he⟩

/-- The direct pointers it asks for are in its own RAMs. -/
theorem Private.requested {e : Act} (he : Private e) : Requested e := by
  cases e with
  | access i p => trivial
  | edge => trivial
  | request side port addr bytes => exact he
  | direct side port p => trivial

/-- The programs load the flag and their own START/CLEAR register. -/
theorem loads_main {rounds : ℕ} {irq : Bool} {k : Core PC} {a : BitVec 32}
    (h : a∈loads (main (app side) rounds) side irq k) : a=flagAddress ∨ a=clearAddress side := by
  unfold loads at h
  cases hm : k.mode with
  | run =>
    rw [hm] at h
    dsimp only at h
    split_ifs at h
    · cases h
    · cases hpc : k.pc with
      | poll r =>
        simp only [main,hpc,FlagProtocol.fetch] at h
        cases h
        exact Or.inl rfl
      | fill i data | intInit | burst r i | flag r | finish =>
        simp only [main,hpc,FlagProtocol.fetch] at h
        cases h
  | test | print =>
    rw [hm] at h
    cases h
    exact Or.inr rfl
  | sleep | clear | mret =>
    rw [hm] at h
    cases h

/-- What a load returns, and that it changes nothing. -/
theorem load_flat {s : System} (h : Projects s.world t) {a : BitVec 32} (byte : BitVec 8)
    (ha : a=flagAddress ∨ a=clearAddress side) :
    (access respondFlat (.cpu side) t (byteAccess .read (a.setWidth 64) byte)).1=t ∧
      (access respondFlat (.cpu side) t (byteAccess .read (a.setWidth 64) byte)).2.buffer 0=
        s.readReg8 byte a := by
  rcases ha with rfl|rfl
  · have hin : InShared (byteAccess .read (flagAddress.setWidth 64) byte).address.toNat
        (byteAccess .read (flagAddress.setWidth 64) byte).dataLength.toNat :=
      show InShared 0x200800 1 by decide
    obtain ⟨hmem,_,hbuffer⟩ := access_read (.cpu side) (t := t) hin
      (by change (1 : BitVec 32)≠0; decide) rfl
    refine ⟨hmem,?_⟩
    rw [hbuffer,System.readReg8,if_neg (by decide),h.mem]
    rfl
  · have hl : ∃ offset,lookup (addressMap (.cpu side)) ((clearAddress side).setWidth 64)=
        some (.dma,offset) := by
      cases side
      · exact ⟨0xc,by decide⟩
      · exact ⟨0x1c,by decide⟩
    obtain ⟨offset,hl⟩ := hl
    have hwindow : 0x100000≤(clearAddress side).toNat ∧ (clearAddress side).toNat<0x100020 := by
      cases side <;> decide
    rw [access_lookup,show (byteAccess .read ((clearAddress side).setWidth 64) byte).address=
      (clearAddress side).setWidth 64 from rfl,hl,System.readReg8,if_pos hwindow]
    exact ⟨rfl,rfl⟩

/-- Where a processor finds the registers of its channel. -/
theorem lookup_register (side : Side) (i : Fin 4) :
    lookup (addressMap (.cpu side)) (dmaBase.setWidth 64+DualDma.regOffset side i)=
      some (.dma,DualDma.regOffset side i) := by
  revert i
  cases side <;> decide

/-- A store of a register reaches the controller, a store of a byte in one of
the shared RAMs the shared memory. -/
theorem store_flat (h : Projects w t) {a : Access}
    (ha : ∀ address value,a=.byte address value → InShared address.toNat 1) :
    Projects (FlagProtocol.perform w side (some a))
      (access respondFlat (.cpu side) t (storePayload side a)).1 := by
  cases a with
  | register i value =>
    have hl := lookup_register side i
    have hq : registerAccess (.cpu side) (storePayload side (.register i value))=
        some (DualDma.writeReg32 side i value) := by
      dsimp only [registerAccess,storePayload,wordAccess,masterPayload]
      rw [hl]
      exact congrArg (fun d => some (⟨.write,DualDma.regOffset side i,d⟩ : Payload))
        (load_bytes value)
    refine ⟨?_,?_⟩
    · rw [access_dma,hq,←h.dma]
      rfl
    · rw [register_ram respondFlat t hq]
      exact h.mem
  | byte address value =>
    have haddr : (address.setWidth 64).toNat=address.toNat := by
      have := address.isLt
      rw [BitVec.toNat_setWidth]
      exact Nat.mod_eq_of_lt (by omega)
    have hin : InShared (storePayload side (.byte address value)).address.toNat
        (storePayload side (.byte address value)).dataLength.toNat := by
      change InShared (address.setWidth 64).toNat 1
      rw [haddr]
      exact ha address value rfl
    obtain ⟨hdma,hmem,_,_⟩ := access_write (.cpu side) (t := t) hin
      (by change (1 : BitVec 32)≠0; decide) rfl
    refine ⟨hdma.trans h.dma.symm |>.symm,?_⟩
    rw [hmem]
    change setByte w.mem address.toNat value=
      copyBytes (sharedMemory t.ram) (address.setWidth 64).toNat (fun _ => value) 1
    rw [h.mem,haddr]
    funext x
    dsimp only [setByte,copyBytes]
    by_cases hx : x=address.toNat
    · rw [if_pos hx,if_pos ⟨by omega,by omega⟩]
    · rw [if_neg hx,if_neg (by omega)]

end Accesses

/-- The machine follows the closed system of the programs and the controller. -/
structure Follows (rounds : ℕ) (m : Machine) (s : System) : Prop where
  /-- The platform, through the one with flat memories. -/
  memory : ∃ t,Matches m.platform t ∧ Projects s.world t
  /-- The processors. -/
  core : m.core=s.core
  /-- The flags. -/
  flagged : m.flagged=s.flagged
  /-- The invariant of the closed system. -/
  inv : Inv rounds s

section Step

variable {rounds : ℕ} {m : Machine} {s : System}

/-- The words that the programs copy lie in the shared RAMs. -/
theorem inv_fits (h : Inv rounds s) (side : Side) : Fits (s.world.dma.chan side) := by
  intro hm
  obtain ⟨_,hlocal⟩ := h side
  obtain ⟨i,hi,hsource,htarget,_⟩ := hlocal.word (layout side) hm
  rw [hsource,htarget]
  cases side with
  | one => exact ⟨Or.inl ⟨by dsimp only [app,FlagProtocol.riscv1]; omega,
      by dsimp only [app,FlagProtocol.riscv1]; omega⟩,
    Or.inr ⟨by dsimp only [app,FlagProtocol.riscv1]; omega,
      by dsimp only [app,FlagProtocol.riscv1]; omega⟩⟩
  | two => exact ⟨Or.inr ⟨by dsimp only [app,FlagProtocol.riscv2]; omega,
      by dsimp only [app,FlagProtocol.riscv2]; omega⟩,
    Or.inl ⟨by dsimp only [app,FlagProtocol.riscv2]; omega,
      by dsimp only [app,FlagProtocol.riscv2]; omega⟩⟩

/-- A clock edge. -/
theorem follows_edge (h : Follows rounds m s) :
    ∃ m' s',m.step rounds .edge=some m' ∧ s.step rounds .edge=some s' ∧ Follows rounds m' s' := by
  obtain ⟨t,hmatch,hproj⟩ := h.memory
  obtain ⟨w',t',ht,hw,hproj',_⟩ := event_step hproj (e := .edge)
    fun _ side => hproj.dma ▸ inv_fits h.inv side
  obtain ⟨p,t'',hp,ht',hmatch'⟩ := proceed_matches m.platform t .edge hmatch trivial
  cases ht.symm.trans ht'
  cases hw
  exact ⟨{m with platform := p},_,by rw [Machine.step,hp]; rfl,rfl,⟨t',hmatch',hproj'⟩,h.core,
    h.flagged,FlagProtocol.inv_edge h.inv rfl⟩

/-- Other activity of a processor in its own RAMs. -/
theorem follows_other (h : Follows rounds m s) {e : Act} (he : Private e) :
    ∃ m',m.step rounds (.other e)=some m' ∧ Follows rounds m' s := by
  obtain ⟨t,hmatch,hproj⟩ := h.memory
  obtain ⟨t',ht,hproj'⟩ := private_step hproj he
  obtain ⟨p,t'',hp,ht',hmatch'⟩ := proceed_matches m.platform t e hmatch he.requested
  cases ht.symm.trans ht'
  exact ⟨{m with platform := p},by rw [Machine.step,hp]; rfl,⟨t',hmatch',hproj'⟩,h.core,h.flagged,
    h.inv⟩

/-- A load of a program returns what it does in the closed system. -/
theorem load8_spec {p : Platform} {t : Targets Memory} (hmatch : Matches p t)
    (hproj : Projects s.world t) {side : Side} {a : BitVec 32} (byte : BitVec 8)
    (ha : a=flagAddress ∨ a=clearAddress side) :
    ∃ p',load8 p side a byte=some (p',s.readReg8 byte a) ∧ Matches p' t := by
  obtain ⟨hsame,hvalue⟩ := load_flat hproj byte ha
  obtain ⟨p',t',answer,hp,ht,hmatch'⟩ := serve_matches
    (e := .direct side .data (byteAccess .read (a.setWidth 64) byte)) hmatch trivial
  obtain ⟨rfl,rfl⟩ := Prod.mk.inj (Option.some.inj ht)
  rw [hsame] at hmatch'
  refine ⟨p',?_,hmatch'⟩
  rw [load8,hp]
  dsimp only [seen]
  rw [hvalue]

/-- A store of a program does what it does in the closed system. -/
theorem store_spec {p : Platform} {t : Targets Memory} (hmatch : Matches p t)
    (hproj : Projects s.world t) {side : Side} {access : Option Access}
    (ha : ∀ address value,access=some (.byte address value) → InShared address.toNat 1) :
    ∃ p' t',storeIf p side access=some p' ∧ Matches p' t' ∧
      Projects (FlagProtocol.perform s.world side access) t' := by
  cases access with
  | none => exact ⟨p,t,rfl,hmatch,⟨hproj.dma,hproj.mem⟩⟩
  | some a =>
    obtain ⟨p',t',hp,ht,hmatch'⟩ := proceed_matches p t
      (.direct side .data (storePayload side a)) hmatch trivial
    cases ht
    exact ⟨p',_,hp,hmatch',store_flat hproj fun address value he => ha address value (by rw [he])⟩

/-- The bytes that a program may write lie in the shared RAMs. -/
theorem permitted_shared {side : Side} {pc : PC} {access : Option Access}
    (h : FlagProtocol.Permitted (app side) pc access) {address : BitVec 32} {value : BitVec 8}
    (ha : access=some (.byte address value)) : InShared address.toNat 1 := by
  rcases h address value ha with ⟨i,hi,haddr,_⟩|⟨rfl,_⟩
  · rw [haddr]
    cases side with
    | one => exact Or.inl ⟨by dsimp only [app,FlagProtocol.riscv1]; omega,
        by dsimp only [app,FlagProtocol.riscv1]; omega⟩
    | two => exact Or.inr ⟨by dsimp only [app,FlagProtocol.riscv2]; omega,
        by dsimp only [app,FlagProtocol.riscv2]; omega⟩
  · decide

/-- A step of a program: it is refused in both, or taken in both. -/
theorem follows_cpu (h : Follows rounds m s) (side : Side) (byte : BitVec 8) :
    (m.step rounds (.cpu side byte)=none ∧ ∃ read,(m.core side).step (main (app side) rounds) side
      (m.platform.targets.dma.chan side).interrupt read=none) ∨
    ∃ m' s',m.step rounds (.cpu side byte)=some m' ∧ s.step rounds (.cpu side byte)=some s' ∧
      Follows rounds m' s' := by
  obtain ⟨t,hmatch,hproj⟩ := h.memory
  have hirq : (m.platform.targets.dma.chan side).interrupt=
      (s.world.dma.chan side).interrupt := by rw [hmatch.dma,hproj.dma]
  have hcore : m.core side=s.core side := congrFun h.core side
  have hload : ∃ p value,loadIf m.platform side byte (loads (main (app side) rounds) side
        (m.platform.targets.dma.chan side).interrupt (m.core side))=some (p,value) ∧ Matches p t ∧
      ∀ a∈loads (main (app side) rounds) side (m.platform.targets.dma.chan side).interrupt
        (m.core side),value=s.readReg8 byte a := by
    cases hl : loads (main (app side) rounds) side
      (m.platform.targets.dma.chan side).interrupt (m.core side) with
    | none => exact ⟨m.platform,byte,rfl,hmatch,fun a ha => nomatch ha⟩
    | some a =>
      obtain ⟨p,hp,hmatch'⟩ := load8_spec hmatch hproj byte (loads_main (Option.mem_def.mpr hl))
      refine ⟨p,_,hp,hmatch',fun b hb => ?_⟩
      cases hb
      rfl
  obtain ⟨p,value,hp,hmatch₁,hvalue⟩ := hload
  have hstep : (m.core side).step (main (app side) rounds) side
      (m.platform.targets.dma.chan side).interrupt (fun _ => value)=
        (m.core side).step (main (app side) rounds) side
          (m.platform.targets.dma.chan side).interrupt (s.readReg8 byte) := step_loads hvalue
  rw [hcore,hirq] at hstep
  have hread : s.readReg8 byte flagAddress=s.world.mem flagAddress.toNat := if_neg (by decide)
  cases hk : (s.core side).step (main (app side) rounds) side (s.world.dma.chan side).interrupt
      (s.readReg8 byte) with
  | none =>
    rw [hk] at hstep
    refine Or.inl ⟨?_,fun _ => value,by rw [hcore,hirq]; exact hstep⟩
    dsimp only [Machine.step,Option.bind_eq_bind]
    rw [hp]
    dsimp only [Option.bind_some]
    rw [hcore,hirq,hstep]
    rfl
  | some r =>
    obtain ⟨k,access⟩ := r
    rw [hk] at hstep
    obtain ⟨_,hlocal⟩ := h.inv side
    obtain ⟨hpermit,_⟩ := FlagProtocol.local_cpu (layout side) hlocal hread hk
    obtain ⟨p',t',hp',hmatch',hproj'⟩ := store_spec hmatch₁ hproj
      fun address value ha => permitted_shared hpermit ha
    have hs : s.step rounds (.cpu side byte)=some ⟨FlagProtocol.perform s.world side access,
        Function.update s.core side k,
        Function.update s.flagged side (s.flagged side || writesFlag access)⟩ := by
      dsimp only [System.step]
      rw [hk]
      rfl
    refine Or.inr ⟨⟨p',Function.update m.core side k,
      Function.update m.flagged side (m.flagged side || writesFlag access)⟩,_,?_,hs,
      ⟨t',hmatch',hproj'⟩,?_,?_,FlagProtocol.inv_cpu h.inv hs⟩
    · dsimp only [Machine.step,Option.bind_eq_bind]
      rw [hp]
      dsimp only [Option.bind_some]
      rw [hcore,hirq,hstep]
      dsimp only [Option.bind_some]
      rw [hp']
      rfl
    · rw [h.core]
    · rw [h.flagged]

/-- The two systems begin alike. -/
theorem follows_init (dataS : BitVec 32) :
    Follows rounds (Machine.init dataS) (System.init dataS fun _ => 0) := by
  have hzero : sharedMemory (fun _ _ => 0)=fun _ => 0 := by
    funext x
    dsimp only [sharedMemory]
    rw [ite_id,ite_id]
  refine ⟨⟨_,start_matches _,⟨rfl,hzero.symm⟩⟩,rfl,rfl,?_⟩
  exact FlagProtocol.inv_run (run_nil (System.step rounds) (System.init dataS fun _ => 0))

/-- The step lemma: whatever the machine does, it follows some state of the
closed system again, and that state has every property that steps of the closed
system keep. -/
theorem follows_keep {Q : System → Prop}
    (hkeep : ∀ s a s',Inv rounds s → Q s → s.step rounds a=some s' → Q s')
    (h : ∃ s,Follows rounds m s ∧ Q s) {e : Action} (he : e.Proper) {m' : Machine}
    (hstep : m.step rounds e=some m') : ∃ s,Follows rounds m' s ∧ Q s := by
  obtain ⟨s,hs,hq⟩ := h
  cases e with
  | cpu side byte =>
    rcases follows_cpu hs side byte with ⟨hnone,_⟩|⟨m₁,s₁,hm,hs₁,hfollow⟩
    · cases hnone.symm.trans hstep
    · cases hm.symm.trans hstep
      exact ⟨s₁,hfollow,hkeep s _ s₁ hs.inv hq hs₁⟩
  | edge =>
    obtain ⟨m₁,s₁,hm,hs₁,hfollow⟩ := follows_edge hs
    cases hm.symm.trans hstep
    exact ⟨s₁,hfollow,hkeep s _ s₁ hs.inv hq hs₁⟩
  | other e =>
    obtain ⟨m₁,hm,hfollow⟩ := follows_other hs he
    cases hm.symm.trans hstep
    exact ⟨s,hfollow,hq⟩

/-- The run lemma of such a property. -/
theorem follows_keep_run {Q : System → Prop}
    (hkeep : ∀ s a s',Inv rounds s → Q s → s.step rounds a=some s' → Q s')
    (h : ∃ s,Follows rounds m s ∧ Q s) {acts : List Action} (hproper : ∀ e∈acts,e.Proper)
    {m' : Machine} (hrun : run (Machine.step rounds) m acts=some m') :
    ∃ s,Follows rounds m' s ∧ Q s :=
  run_invariant_of (fun _ _ _ hs he hstep => follows_keep hkeep hs he hstep) h hproper hrun

/-- After every run from reset the machine follows some state of the closed
system. -/
theorem follows_run {dataS : BitVec 32} {acts : List Action} (hproper : ∀ e∈acts,e.Proper)
    (h : run (Machine.step rounds) (Machine.init dataS) acts=some m) :
    ∃ s,Follows rounds m s := by
  obtain ⟨s,hs,_⟩ := follows_keep_run (Q := fun _ => True) (fun _ _ _ _ _ _ => trivial)
    ⟨_,follows_init dataS,trivial⟩ hproper h
  exact ⟨s,hs⟩

end Step

/-- What a processor waits for when it has no step: its interrupt, in `wfi`, or
nothing any more. -/
def Waits (rounds : ℕ) (m : Machine) (side : Side) : Prop :=
  ((m.core side).mode=.sleep ∧ (m.platform.targets.dma.chan side).interrupt=false) ∨
    (main (app side) rounds).fetch (m.core side).pc=.halt

/-- The demonstration on the platform as it is built. For every number of
rounds and after every run from reset, in which the steps of the programs, the
clock edges and anything the processors do in their own RAMs take turns in any
order: the two channels are not both started; once a processor has written the
flag, every initiator reads the whole pattern in the target of that processor;
and nothing is refused but a step of a processor that waits. -/
theorem programs_on_platform {rounds : ℕ} {dataS : BitVec 32} {acts : List Action} {m : Machine}
    (hproper : ∀ e∈acts,e.Proper)
    (h : run (Machine.step rounds) (Machine.init dataS) acts=some m) :
    ¬(m.platform.targets.dma.ch1.startClear=true ∧ m.platform.targets.dma.ch2.startClear=true) ∧
    (m.flagged .one=true → ∀ i,∀ k<1024,
      readByte m.platform i (0x300000+k)=BitVec.ofNat 8 (0x22*(k%8)+1)) ∧
    (m.flagged .two=true → ∀ i,∀ k<1024,
      readByte m.platform i (0x200000+k)=BitVec.ofNat 8 (0xfe-0x22*(k%8))) ∧
    ∀ e : Action,e.Proper → m.step rounds e=none →
      ∃ side byte,e=.cpu side byte ∧ Waits rounds m side := by
  obtain ⟨s,hs⟩ := follows_run hproper h
  obtain ⟨t,hmatch,hproj⟩ := hs.memory
  have hdma : m.platform.targets.dma=s.world.dma := hmatch.dma.trans hproj.dma.symm
  have hcopied : ∀ side,m.flagged side=true → ∀ k<1024,
      s.world.mem ((app side).target+k)=FlagProtocol.pattern (app side) k := by
    intro side hf k hk
    obtain ⟨n,hlocal⟩ := hs.inv side
    refine hlocal.copy k ?_
    rw [←hs.flagged,hf]
    exact hk
  have hread : ∀ i a,a∈Set.Ico 0x200000 0x400000 → readByte m.platform i a=s.world.mem a :=
    fun i a ha => (readByte_shared hmatch i ha).trans (congrFun hproj.mem.symm a)
  refine ⟨?_,fun hf i k hk => ?_,fun hf i k hk => ?_,fun e he hnone => ?_⟩
  · rw [hdma]
    rintro ⟨h₁,h₂⟩
    obtain ⟨_,hone⟩ := hs.inv .one
    obtain ⟨_,htwo⟩ := hs.inv .two
    exact hs.inv.exclusive (hone.active h₁) (htwo.active h₂)
  · rw [hread i _ ⟨by omega,by omega⟩,←FlagProtocol.pattern_one]
    exact hcopied .one hf k hk
  · rw [hread i _ ⟨by omega,by omega⟩,←FlagProtocol.pattern_two]
    exact hcopied .two hf k hk
  · cases e with
    | cpu side byte =>
      rcases follows_cpu hs side byte with ⟨_,read,hrefused⟩|⟨m',_,hm,_⟩
      · exact ⟨side,byte,rfl,step_none hrefused⟩
      · cases hnone.symm.trans hm
    | edge =>
      obtain ⟨m',_,hm,_⟩ := follows_edge hs
      cases hnone.symm.trans hm
    | other e =>
      obtain ⟨m',hm,_⟩ := follows_other hs he
      cases hnone.symm.trans hm

end SystemCDma.PlatformProgram
