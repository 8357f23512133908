import SystemCDma.ByteMemory
import Mathlib.Data.List.FinRange
import Mathlib.Data.Fin.Tuple.Basic

/-!
# A 32-bit processor with machine-mode interrupts

Registers, control registers and the instructions that save and restore a
context, with the entry of an external interrupt and the return from it. The
memory is next to some device, whose state only routines change: a routine is
code that is called by its address and runs to its return in one step.
-/

namespace SystemCDma.Rv32

open ByteMemory

variable {D : Type*}

/-- The control registers that interrupts need. -/
structure Csrs where
  /-- Bit 3 enables interrupts, bit 7 keeps it during a trap. -/
  mstatus : BitVec 32
  /-- Bit 11 enables the external interrupt. -/
  mie : BitVec 32
  /-- The address of the trap handler; the two low bits are its mode. -/
  mtvec : BitVec 32
  /-- The address to return to from a trap. -/
  mepc : BitVec 32
  deriving DecidableEq,Repr

/-- Names of the control registers. -/
inductive Csr where
  | mstatus
  | mie
  | mtvec
  | mepc
  deriving DecidableEq,Repr

/-- The state of the processor, its memory and the device. -/
structure Cpu (D : Type*) where
  /-- The address of the next instruction. -/
  pc : BitVec 32
  /-- The registers but the first one, which is always zero. -/
  x : Fin 31 → BitVec 32
  /-- The control registers. -/
  csrs : Csrs
  /-- The memory. -/
  mem : Memory
  /-- The device. -/
  dev : D

/-- The value of a register. -/
def Cpu.get (s : Cpu D) (r : Fin 32) : BitVec 32 := Fin.cases 0 s.x r

/-- Write a register; the first one stays zero. -/
def Cpu.set (s : Cpu D) (r : Fin 32) (v : BitVec 32) : Cpu D :=
  {s with x := Fin.cases s.x (fun i => Function.update s.x i v) r}

/-- The register that is always zero. -/
def zero : Fin 32 := 0

/-- The return address. -/
def ra : Fin 32 := 1

/-- The stack pointer. -/
def sp : Fin 32 := 2

/-- The value of a control register. -/
def Csrs.get (c : Csrs) : Csr → BitVec 32
  | .mstatus => c.mstatus
  | .mie => c.mie
  | .mtvec => c.mtvec
  | .mepc => c.mepc

/-- Write a control register. -/
def Csrs.set (c : Csrs) (v : BitVec 32) : Csr → Csrs
  | .mstatus => {c with mstatus := v}
  | .mie => {c with mie := v}
  | .mtvec => {c with mtvec := v}
  | .mepc => {c with mepc := v}

/-- The instructions. The target of a jump is an address. -/
inductive Instr where
  /-- Add a constant. -/
  | addi (rd rs1 : Fin 32) (imm : BitVec 12)
  /-- Store a word. -/
  | sw (rs2 : Fin 32) (imm : BitVec 12) (rs1 : Fin 32)
  /-- Load a word. -/
  | lw (rd : Fin 32) (imm : BitVec 12) (rs1 : Fin 32)
  /-- Jump and link. -/
  | jal (rd : Fin 32) (target : BitVec 32)
  /-- Return from a trap. -/
  | mret
  deriving DecidableEq,Repr

/-- The next instruction comes next. -/
def Cpu.next (s : Cpu D) : Cpu D := {s with pc := s.pc+4}

/-- The status during a trap: interrupts are off. -/
def entered (mstatus : BitVec 32) : BitVec 32 :=
  (mstatus &&& ~~~0x88#32) ||| (if mstatus.getLsbD 3 then 0x80#32 else 0)

/-- The status after the return: interrupts are as they were. -/
def returned (mstatus : BitVec 32) : BitVec 32 :=
  (mstatus &&& ~~~0x08#32) ||| 0x80#32 ||| (if mstatus.getLsbD 7 then 0x08#32 else 0)

/-- Execute an instruction. A word that is not aligned raises an exception,
which no state follows. -/
def Instr.exec (s : Cpu D) : Instr → Option (Cpu D)
  | .addi rd rs1 imm => some (s.set rd (s.get rs1+imm.signExtend 32)).next
  | .sw rs2 imm rs1 =>
    let a := (s.get rs1+imm.signExtend 32).toNat
    if 4∣a then some {s with mem := store s.mem a (s.get rs2)}.next else none
  | .lw rd imm rs1 =>
    let a := (s.get rs1+imm.signExtend 32).toNat
    if 4∣a then some (s.set rd (load s.mem a)).next else none
  | .jal rd target => some {s.set rd (s.pc+4) with pc := target}
  | .mret =>
    let c := {s.csrs with mstatus := returned s.csrs.mstatus}
    some {s with pc := s.csrs.mepc,csrs := c}

/-- The external interrupt is taken when it is pending. -/
def Cpu.enabled (s : Cpu D) : Bool := s.csrs.mstatus.getLsbD 3 && s.csrs.mie.getLsbD 11

/-- Where an external interrupt goes: the handler in direct mode, its entry in
vectored mode. The other modes are reserved. -/
def vector (mtvec : BitVec 32) : Option (BitVec 32) :=
  let start := mtvec &&& ~~~3#32
  if mtvec &&& 3#32=0 then some start
  else if mtvec &&& 3#32=1 then some (start+4*11)
  else none

/-- Taking the interrupt. -/
def Cpu.trap (s : Cpu D) : Option (Cpu D) :=
  (vector s.csrs.mtvec).map fun target =>
    let c := {s.csrs with mepc := s.pc,mstatus := entered s.csrs.mstatus}
    {s with pc := target,csrs := c}

/-- What code does, by its address: an instruction or a routine. -/
abbrev Code (D : Type*) := BitVec 32 → Option (Cpu D → Option (Cpu D))

/-- One step. -/
def step (code : Code D) (s : Cpu D) : Option (Cpu D) := (code s.pc).bind fun f => f s

/-- One clock edge: the interrupt line is sampled before every instruction. -/
def clock (code : Code D) (s : Cpu D) (irq : Bool) : Option (Cpu D) :=
  if irq && s.enabled then s.trap else step code s

/-- A program lies at an address. -/
def Placed (code : Code D) (start : BitVec 32) (prog : List Instr) : Prop :=
  ∀ i (h : i<prog.length),code (start+BitVec.ofNat 32 (4*i))=some fun s => prog[i].exec s

/-- What a routine or the hardware does to the memory and the device. It keeps
the stack and does not look at it. -/
structure Effect (D : Type*) (stack : Set ℕ) where
  /-- The effect. -/
  run : Memory×D → Memory×D
  /-- It does not write to the stack. -/
  keeps : ∀ p,Set.EqOn (run p).1 p.1 stack
  /-- It does not depend on the stack. -/
  blind : ∀ p q,Set.EqOn p.1 q.1 stackᶜ → p.2=q.2 →
    Set.EqOn (run p).1 (run q).1 stackᶜ ∧ (run p).2=(run q).2

/-- The state after an effect. -/
def Cpu.apply {stack : Set ℕ} (s : Cpu D) (e : Effect D stack) : Cpu D :=
  {s with mem := (e.run (s.mem,s.dev)).1,dev := (e.run (s.mem,s.dev)).2}

/-- Memories that differ in a part of the stack only do so after the effect. -/
theorem Effect.agree {stack dead : Set ℕ} (e : Effect D stack) (hdead : dead⊆stack)
    {p q : Memory×D} (hm : Set.EqOn p.1 q.1 deadᶜ) (hd : p.2=q.2) :
    Set.EqOn (e.run p).1 (e.run q).1 deadᶜ ∧ (e.run p).2=(e.run q).2 := by
  have hout := e.blind p q (fun x hx => hm fun h => hx (hdead h)) hd
  refine ⟨fun x hx => ?_,hout.2⟩
  by_cases hstack : x∈stack
  · rw [e.keeps p hstack,e.keeps q hstack]
    exact hm hx
  · exact hout.1 hstack

section Registers

variable (s : Cpu D)

/-- The first register is zero. -/
@[simp] theorem get_zero : s.get 0=0 := rfl

/-- Writing a register of the file. -/
@[simp] theorem set_succ (i : Fin 31) (v : BitVec 32) :
    s.set i.succ v={s with x := Function.update s.x i v} := rfl

/-- Writing the first register changes nothing. -/
@[simp] theorem set_zero (v : BitVec 32) : s.set 0 v=s := rfl

/-- Interrupts are off during a trap. -/
theorem entered_off (m : BitVec 32) : (entered m).getLsbD 3=false := by
  rw [entered]
  split <;> simp

end Registers

section Steps

variable {code : Code D} {start : BitVec 32} {prog : List Instr} {s t : Cpu D}

/-- One step of a program that lies at an address. -/
theorem Placed.step (h : Placed code start prog) {i : ℕ} (hi : i<prog.length)
    (hpc : s.pc=start+BitVec.ofNat 32 (4*i)) : step code s=prog[i].exec s := by
  rw [Rv32.step,hpc,h i hi,Option.bind_some]

/-- While interrupts are off the line does not matter. -/
theorem clock_disabled {irq : Bool} (h : s.enabled=false) : clock code s irq=step code s := by
  rw [clock,h,Bool.and_false]
  rfl

end Steps

end SystemCDma.Rv32
