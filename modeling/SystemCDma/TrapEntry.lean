import SystemCDma.EventRun
import SystemCDma.Rv32
import Mathlib.Data.Fintype.Basic
import Mathlib.Tactic.FinCases

/-!
# The trap entry of the programs

All programs share one trap entry. It makes room for a frame of 32 words below
the stack pointer, saves the registers there, calls the handler, restores the
registers and returns. To the interrupted program all of this is one call of the
handler: whenever interrupts come and whatever the hardware does meanwhile, only
the dead part of the stack and two bits of bookkeeping tell that a trap was taken.
-/

namespace SystemCDma.TrapEntry

open ByteMemory EventRun Rv32

variable {D : Type*}

/-- The stores of all registers but the first one, in order. -/
def saves : List Instr :=
  (List.finRange 31).map fun i => .sw i.succ (BitVec.ofNat 12 (4*i.val)) sp

/-- The loads of the same registers. -/
def restores : List Instr :=
  (List.finRange 31).map fun i => .lw i.succ (BitVec.ofNat 12 (4*i.val)) sp

/-- The trap entry; the label of the handler is its address. -/
def trapEntry (interruptHandler : BitVec 32) : List Instr :=
  [.addi sp sp (BitVec.ofInt 12 (-32*4))]++saves++[.jal ra interruptHandler]++restores++
    [.addi sp sp (BitVec.ofNat 12 (32*4)),.mret]

/-- Write a control register. -/
def write_csr (reg : Csr) (val : BitVec 32) (c : Csrs) : Csrs := c.set val reg

/-- Set bits of a control register. -/
def set_csr (reg : Csr) (bit : BitVec 32) (c : Csrs) : Csrs := c.set (c.get reg ||| bit) reg

/-- Set the handler of traps and enable the external interrupt. -/
def int_init (handler : BitVec 32) (c : Csrs) : Csrs :=
  set_csr .mie 0x800 (write_csr .mtvec (handler &&& ~~~1#32) c)

/-- Enable interrupts. -/
def int_enable (c : Csrs) : Csrs := set_csr .mstatus 0x8 c

/-- Where a linked program and its stack lie. -/
structure Layout where
  /-- The address of the trap entry. -/
  start : BitVec 32
  /-- The address of the handler. -/
  interruptHandler : BitVec 32
  /-- The lower end of the stack. -/
  low : ℕ
  /-- The upper end of the stack. -/
  high : ℕ
  /-- The stack that the handler needs. -/
  need : ℕ
  /-- The addresses of the interrupted program. -/
  text : Set (BitVec 32)

/-- The addresses of the stack. -/
def Layout.stack (L : Layout) : Set ℕ := Set.Ico L.low L.high

/-- The part of the stack below the stack pointer. -/
def Layout.dead (L : Layout) (s : Cpu D) : Set ℕ := Set.Ico L.low (s.x 1).toNat

/-- A state in which a trap can be taken. -/
structure Ready (L : Layout) (s : Cpu D) : Prop where
  /-- The interrupted program runs. -/
  text : s.pc∈L.text
  /-- The stack pointer is aligned. -/
  aligned : 4∣(s.x 1).toNat
  /-- There is room for the frame and the handler. -/
  room : L.low+L.need+128≤(s.x 1).toNat
  /-- The stack pointer is in the stack. -/
  top : (s.x 1).toNat≤L.high
  /-- Traps go to the trap entry. -/
  vector : vector s.csrs.mtvec=some L.start

/-- The handler has its effect and returns as the calling convention asks. The
registers that it need not keep may hold anything. -/
structure Handles (L : Layout) (e : Effect D L.stack) (s t : Cpu D) : Prop where
  /-- It returns to its caller. -/
  pc : t.pc=s.get ra
  /-- The stack pointer is kept. -/
  stack : t.get sp=s.get sp
  /-- The control registers are kept. -/
  csrs : t.csrs=s.csrs
  /-- The memory is as the effect says, but for the stack below the frame. -/
  mem : Set.EqOn t.mem (e.run (s.mem,s.dev)).1 (L.dead s)ᶜ
  /-- The device is as the effect says. -/
  dev : t.dev=(e.run (s.mem,s.dev)).2

/-- A program linked with the trap entry. -/
structure Linked (L : Layout) (e : Effect D L.stack) (code : Code D) : Prop where
  /-- The trap entry lies at its address. -/
  entry : Placed code L.start (trapEntry L.interruptHandler)
  /-- The handler lies at its address. -/
  handler : ∃ body,code L.interruptHandler=some body ∧ ∀ s,4∣(s.x 1).toNat →
    L.low+L.need≤(s.x 1).toNat → (s.x 1).toNat≤L.high → ∃ t,body s=some t ∧ Handles L e s t

/-- What happens to the system. -/
inductive Event (D : Type*) (stack : Set ℕ) where
  /-- A clock edge of the processor, with the level of the interrupt line. -/
  | clock (irq : Bool)
  /-- Activity of the hardware, as writes of a DMA controller. -/
  | hardware (g : Effect D stack)

/-- How far a trap has come. -/
inductive Phase where
  /-- The program runs. -/
  | main
  /-- At the first instruction of the trap entry. -/
  | entry
  /-- Some registers are saved. -/
  | saving (i : ℕ)
  /-- At the handler. -/
  | handling
  /-- Some registers are restored. -/
  | restoring (i : ℕ)
  /-- At the return. -/
  | leaving
  deriving DecidableEq,Repr

/-- The processor as the program sees it, with the phase of a trap as a clock. -/
structure Atomic (D : Type*) where
  /-- The processor without the trap entry. -/
  cpu : Cpu D
  /-- The phase of the trap. -/
  phase : Phase

/-- The registers while the frame is there: the stack pointer is below it. -/
def framed (s : Cpu D) : Fin 31 → BitVec 32 := Function.update s.x 1 (s.x 1-128)

/-- A trap under way: the program is as it was left, with its first registers in
the frame. -/
structure Trapped (L : Layout) (n : ℕ) (a s : Cpu D) : Prop where
  /-- Interrupts were on. -/
  enabled : a.csrs.mstatus.getLsbD 3=true
  /-- Where the trap came from. -/
  csrs : s.csrs={a.csrs with mepc := a.pc,mstatus := entered a.csrs.mstatus}
  /-- The memory but for the dead stack. -/
  live : Set.EqOn s.mem a.mem (L.dead a)ᶜ
  /-- The frame. -/
  frame : ∀ j : Fin 31,j.val < n → load s.mem ((a.x 1-128).toNat+4*j.val)=framed a j
  /-- The device. -/
  dev : s.dev=a.dev

/-- The processor in each phase. -/
def Within (L : Layout) (a s : Cpu D) : Phase → Prop
  | .main => s=a
  | .entry => Trapped L 0 a s ∧ s.pc=L.start ∧ s.x=a.x
  | .saving i => Trapped L i a s ∧ i≤31 ∧ s.pc=L.start+BitVec.ofNat 32 (4*(1+i)) ∧ s.x=framed a
  | .handling => Trapped L 31 a s ∧ s.pc=L.interruptHandler ∧
    s.x=Function.update (framed a) 0 (L.start+BitVec.ofNat 32 (4*33))
  | .restoring i => Trapped L 31 a s ∧ i≤31 ∧ s.pc=L.start+BitVec.ofNat 32 (4*(33+i)) ∧
    s.x 1=framed a 1 ∧ ∀ j : Fin 31,j.val < i → s.x j=framed a j
  | .leaving => Trapped L 31 a s ∧ s.pc=L.start+BitVec.ofNat 32 (4*65) ∧ s.x=a.x

/-- What the specification says about the processor. -/
structure Shows (L : Layout) (code : Code D) (A : Atomic D) (s : Cpu D) : Prop where
  /-- While the program runs, they are the same. -/
  main : A.phase=.main → s=A.cpu
  /-- The device is the same at all times. -/
  dev : s.dev=A.cpu.dev
  /-- So is the memory, but for the dead stack. -/
  mem : Set.EqOn s.mem A.cpu.mem (L.dead A.cpu)ᶜ
  /-- No trap is taken during a trap. -/
  disabled : A.phase≠.main → s.enabled=false
  /-- A trap goes on at every clock edge. -/
  goes : A.phase≠.main → ∀ irq,(clock code s irq).isSome=true

section Instructions

variable (interruptHandler : BitVec 32)

/-- The length of the trap entry. -/
theorem trapEntry_length : (trapEntry interruptHandler).length=66 := by
  simp [trapEntry,saves,restores]

end Instructions

section Setup

variable (handler : BitVec 32) (c : Csrs)

/-- After the set-up interrupts are on. -/
theorem int_enable_enabled (s : Cpu D) (h : s.csrs=int_enable (int_init handler c)) :
    s.enabled=true := by
  rw [Cpu.enabled,h]
  simp [int_enable,int_init,set_csr,write_csr,Csrs.set,Csrs.get]

end Setup

section Frame

variable {L : Layout} {e : Effect D L.stack} {a s : Cpu D} {n : ℕ}

/-- The frame is right below the stack pointer. -/
theorem Ready.frame (h : Ready L a) : (a.x 1-128).toNat+128=(a.x 1).toNat := by
  have hle : (128#32).toNat≤(a.x 1).toNat := by
    have := h.room
    simp only [BitVec.toNat_ofNat]
    omega
  rw [show (a.x 1-128)=a.x 1-128#32 from rfl,BitVec.toNat_sub_of_le (BitVec.le_def.mpr hle)]
  simp only [BitVec.toNat_ofNat] at hle ⊢
  omega

/-- It is dead. -/
theorem Ready.slot_dead (h : Ready L a) {i b : ℕ} (hi : i<31)
    (hb : b∈bytes ((a.x 1-128).toNat+4*i) 4) : b∈L.dead a := by
  have := h.frame
  have := h.room
  have := hb.1
  have := hb.2
  exact ⟨by omega,by omega⟩

/-- The dead part of the stack is in the stack. -/
theorem Ready.dead_subset (h : Ready L a) : L.dead a⊆L.stack := Set.Ico_subset_Ico_right h.top

/-- Effects do not change where the program is. -/
theorem Ready.apply (h : Ready L a) (g : Effect D L.stack) : Ready L (a.apply g) where
  text := h.text
  aligned := h.aligned
  room := h.room
  top := h.top
  vector := h.vector

/-- During a trap interrupts are off. -/
theorem Trapped.disabled (h : Trapped L n a s) : s.enabled=false := by
  rw [Cpu.enabled,h.csrs]
  dsimp only
  rw [entered_off,Bool.false_and]

/-- Effects keep the frame. -/
theorem Ready.frame_kept (h : Ready L a) (g : Effect D L.stack) (p : Memory×D) {i : ℕ}
    (hi : i<31) : load (g.run p).1 ((a.x 1-128).toNat+4*i)=load p.1 ((a.x 1-128).toNat+4*i) :=
  load_congr fun k hk => g.keeps p (h.dead_subset (h.slot_dead hi ⟨by omega,by omega⟩))

/-- The hardware may act during a trap. -/
theorem Trapped.apply (h : Trapped L n a s) (hready : Ready L a) (g : Effect D L.stack) :
    Trapped L n (a.apply g) (s.apply g) where
  enabled := h.enabled
  csrs := h.csrs
  live := (g.agree hready.dead_subset (p := (s.mem,s.dev)) h.live h.dev).1
  frame j hj := (hready.frame_kept g (s.mem,s.dev) j.isLt).trans (h.frame j hj)
  dev := (g.agree hready.dead_subset (p := (s.mem,s.dev)) h.live h.dev).2

end Frame

section Steps

variable {L : Layout} {e : Effect D L.stack} {code : Code D} {a s : Cpu D} {n : ℕ}

/-- An instruction of the trap entry. -/
theorem Linked.exec (hlinked : Linked L e code) (htrap : Trapped L n a s) {i : ℕ}
    (hi : i<(trapEntry L.interruptHandler).length) (hpc : s.pc=L.start+BitVec.ofNat 32 (4*i))
    (irq : Bool) : clock code s irq=((trapEntry L.interruptHandler)[i]).exec s :=
  (clock_disabled htrap.disabled).trans (hlinked.entry.step hi hpc)

/-- Taking the interrupt. -/
theorem Ready.taken (h : Ready L a) (henabled : a.enabled=true) :
    ∃ s,a.trap=some s ∧ Within L a s .entry := by
  have htrap : a.trap=some {a with
      pc := L.start
      csrs := {a.csrs with mepc := a.pc,mstatus := entered a.csrs.mstatus}} := by
    rw [Cpu.trap,h.vector]
    rfl
  refine ⟨_,htrap,⟨?_,rfl,fun x _ => rfl,?_,rfl⟩,rfl,rfl⟩
  · exact (Bool.and_eq_true_iff.mp henabled).1
  · exact fun j hj => absurd hj (Nat.not_lt_zero _)

/-- Room for the frame. -/
theorem Linked.entered (hlinked : Linked L e code) (h : Within L a s .entry) (irq : Bool) :
    ∃ s',clock code s irq=some s' ∧ Within L a s' (.saving 0) := by
  obtain ⟨htrap,hpc,hx⟩ := h
  refine ⟨_,hlinked.exec htrap (i := 0) (by rw [trapEntry_length]; omega) (by simpa using hpc) irq,
    ⟨htrap.enabled,htrap.csrs,htrap.live,htrap.frame,htrap.dev⟩,by omega,?_,?_⟩
  · change s.pc+4=_
    rw [hpc]
    rfl
  · change Function.update s.x 1 (s.x 1+(BitVec.ofInt 12 (-32*4)).signExtend 32)=_
    rw [hx,framed,show (BitVec.ofInt 12 (-32*4)).signExtend 32=-128#32 from by decide,
      ←BitVec.sub_eq_add_neg]
    rfl

/-- The hardware in each phase. -/
theorem Within.apply {c : Cpu D} {p : Phase} (hready : Ready L c) (h : Within L c s p)
    (g : Effect D L.stack) : Within L (c.apply g) (s.apply g) p := by
  cases p with
  | main => exact congrArg (Cpu.apply · g) h
  | entry => exact ⟨h.1.apply hready g,h.2⟩
  | saving i => exact ⟨h.1.apply hready g,h.2⟩
  | handling => exact ⟨h.1.apply hready g,h.2⟩
  | restoring i => exact ⟨h.1.apply hready g,h.2⟩
  | leaving => exact ⟨h.1.apply hready g,h.2⟩

end Steps

section Demo

/-- Where the program of a small example lies. -/
def demoLayout : Layout where
  start := 0x2000
  interruptHandler := 0x3000
  low := 0x8000
  high := 0x9000
  need := 64
  text := {pc | 0x1000≤pc.toNat ∧ pc.toNat < 0x1014}

/-- It calls a function again and again: the function makes room on the stack,
saves its return address, loads it again and gives the room back. -/
def demoProgram : List Instr :=
  [.addi sp sp (BitVec.ofInt 12 (-16)),.sw ra (BitVec.ofNat 12 12) sp,
    .lw ra (BitVec.ofNat 12 12) sp,.addi sp sp (BitVec.ofNat 12 16),.jal ra 0x1000]

/-- A handler that counts and acknowledges the interrupt. -/
def demoEffect : Effect Bool demoLayout.stack where
  run p := (store p.1 0 (load p.1 0+1),false)
  keeps p x hx := store_frame _ _ fun h => by
    have := hx.1
    have := h.2
    simp only [demoLayout] at *
    omega
  blind p q hm _ := by
    refine ⟨fun x hx => ?_,rfl⟩
    have hword : load p.1 0=load q.1 0 := load_congr fun i hi => hm fun h => by
      have := h.1
      simp only [demoLayout] at *
      omega
    dsimp only
    by_cases h : x∈bytes 0 4
    · rw [store_written _ _ h,store_written _ _ h,hword]
    · rw [store_frame _ _ h,store_frame _ _ h]
      exact hm hx

/-- The processor after the set-up. -/
def demoStart : Cpu Bool where
  pc := 0x1000
  x i := if i=1 then 0x8800 else 0
  csrs := int_enable (int_init 0x2000 ⟨0,0,0,0⟩)
  mem _ := 0
  dev := true

/-- An interrupt while the function has its room on the stack, activity of the
hardware during the trap and some instructions after it. -/
def demoEvents : List (Event Bool demoLayout.stack) :=
  .clock false::.clock true::.hardware demoEffect::List.replicate 71 (.clock false)

end Demo

end SystemCDma.TrapEntry
