import SystemCDma.BurstDriver

/-!
# The flag protocol of the two processors

Each processor fills a block with its pattern, then in every round waits for
its value of the flag byte, copies the block to the other RAM word by word,
and writes the other value. The flag is the only thing that keeps the two
apart: whoever is between its poll and its flag write owns the turn, and its
last burst is finished and cleared before the flag changes hands.
-/

namespace SystemCDma.FlagProtocol

open ByteMemory TlmBus TransferEngine EventRun DualDma BurstDriver

/-- The constants and the byte generator of one application. -/
structure App where
  /-- Address of the block that the application fills and copies. -/
  base : ℕ
  /-- Address it copies the block to. -/
  target : ℕ
  /-- Start value of the variable `data`. -/
  data₀ : BitVec 32
  /-- Its next value. -/
  nextData : BitVec 32 → BitVec 32
  /-- The byte written for a value. -/
  byte : BitVec 32 → BitVec 8
  /-- The flag value that the application waits for. -/
  turn : BitVec 8
  /-- The flag value that it writes at the end of a round. -/
  flag : BitVec 8

/-- The application of the first processor. -/
def riscv1 : App where
  base := 0x200400
  target := 0x300000
  data₀ := 0x0
  nextData data := if data=0xe then 0x0 else data+2
  byte data := (data*16+data+1).setWidth 8
  turn := 0x0
  flag := 0x1

/-- The application of the second processor. -/
def riscv2 : App where
  base := 0x300400
  target := 0x200000
  data₀ := 0xf
  nextData data := if data=0x1 then 0xf else data-2
  byte data := (data*16+data-1).setWidth 8
  turn := 0x1
  flag := 0x0

/-- The application of each side. -/
def app : Side → App
  | .one => riscv1
  | .two => riscv2

/-- Address of the flag byte. -/
def flagAddress : BitVec 32 := 0x200800

/-- The places of `main`, with its loop variables. -/
inductive PC where
  /-- Write byte `i` of the block. -/
  | fill (i : ℕ) (data : BitVec 32)
  /-- Install the handler and enable interrupts. -/
  | intInit
  /-- Wait for the flag in round `k`. -/
  | poll (k : ℕ)
  /-- Copy word `i` in round `k`. -/
  | burst (k i : ℕ)
  /-- Write the flag at the end of round `k`. -/
  | flag (k : ℕ)
  /-- The end of the program. -/
  | finish
  deriving DecidableEq

/-- What `main` does at each place. -/
def fetch (a : App) : PC → Op
  | .fill i data => .writeReg8 (BitVec.ofNat 32 (a.base+i)) (a.byte data)
  | .intInit => .internal
  | .poll _ => .poll flagAddress a.turn
  | .burst _ i => .burst ⟨BitVec.ofNat 32 (a.base+4*i),BitVec.ofNat 32 (a.target+4*i),4⟩
  | .flag _ => .writeReg8 flagAddress a.flag
  | .finish => .halt

/-- Where `main` goes next; the applications run three rounds. -/
def advance (a : App) (rounds : ℕ) : PC → PC
  | .fill i data => if i+1<1024 then .fill (i+1) (a.nextData data) else .intInit
  | .intInit => if 0 < rounds then .poll 0 else .finish
  | .poll k => .burst k 0
  | .burst k i => if i+1<256 then .burst k (i+1) else .flag k
  | .flag k => if k+1 < rounds then .poll (k+1) else .finish
  | .finish => .finish

/-- Interrupts are enabled once the block is filled. -/
def enabled : PC → Bool
  | .fill _ _ => false
  | .intInit => false
  | _ => true

/-- Only the copy loop bursts. -/
theorem fetch_burst {a : App} {pc : PC} {q : Request} (h : fetch a pc=.burst q) :
    ∃ k i,pc=.burst k i ∧
      q=⟨BitVec.ofNat 32 (a.base+4*i),BitVec.ofNat 32 (a.target+4*i),4⟩ := by
  cases pc with
  | burst k i => exact ⟨k,i,rfl,(Op.burst.inj h).symm⟩
  | fill i data => cases h
  | intInit => cases h
  | poll k => cases h
  | flag k => cases h
  | finish => cases h

/-- The main program of an application. -/
def main (a : App) (rounds : ℕ) : Program PC where
  fetch := fetch a
  advance := advance a rounds
  enabled := enabled
  burst_enabled := by
    intro pc q h
    obtain ⟨k,i,rfl,_⟩ := fetch_burst h
    rfl
  burst_words := by
    intro pc q h
    obtain ⟨k,i,_,rfl⟩ := fetch_burst h
    exact ⟨1,rfl⟩

/-- The bus of the master port: RAM3 and RAM4. -/
def busM : Bus Memory := ramBus 0x200000 0x400000

/-- The controller, the shared memory and both processors. -/
structure System where
  /-- The controller with RAM3 and RAM4. -/
  world : World Memory
  /-- The two processors. -/
  core : Side → Core PC
  /-- Whether each processor has written the flag yet. -/
  flagged : Side → Bool

/-- A step of one processor, with the byte that a read of the register window
returns, or a clock edge. -/
inductive Act where
  | cpu (side : Side) (byte : BitVec 8)
  | edge

/-- What a read of one byte returns: some byte inside the register window, the
memory outside. -/
def System.readReg8 (s : System) (byte : BitVec 8) (address : BitVec 32) : BitVec 8 :=
  if 0x100000≤address.toNat ∧ address.toNat<0x100020 then byte
  else s.world.mem address.toNat

/-- What a write of a processor does to the memory. -/
def remember (mem : Memory) : Option Access → Memory
  | some (.byte address value) => setByte mem address.toNat value
  | _ => mem

/-- A write of a processor: a register of its channel, or a byte of memory. -/
def perform (w : World Memory) (side : Side) (access : Option Access) : World Memory :=
  {w with dma := drive w.dma side access, mem := remember w.mem access}

/-- The access writes the flag. -/
def writesFlag : Option Access → Bool
  | some (.byte address _) => address=flagAddress
  | _ => false

/-- A step without an access does not write the flag. -/
theorem writesFlag_none : writesFlag none=false := rfl

/-- One step of the system. -/
def System.step (rounds : ℕ) (s : System) : Act → Option System
  | .cpu side byte =>
    ((s.core side).step (main (app side) rounds) side (s.world.dma.chan side).interrupt
      (s.readReg8 byte)).map fun r =>
        ⟨perform s.world side r.2,Function.update s.core side r.1,
          Function.update s.flagged side (s.flagged side || writesFlag r.2)⟩
  | .edge => some {s with world := s.world.edge busM}

/-- Both processors at the start of `main`, with a controller after reset. -/
def System.init (dataS : BitVec 32) (mem : Memory) : System :=
  ⟨World.init dataS mem,fun side => ⟨.fill 0 (app side).data₀,.write 0,.run⟩,fun _ => false⟩

/-- The value of `data` when byte `i` is written. -/
def dataAt (a : App) (i : ℕ) : BitVec 32 := a.nextData^[i] a.data₀

/-- Byte `i` of the pattern of an application. -/
def pattern (a : App) (i : ℕ) : BitVec 8 := a.byte (dataAt a i)

/-- The next value of `data`. -/
theorem dataAt_succ (a : App) (i : ℕ) : dataAt a (i+1)=a.nextData (dataAt a i) :=
  Function.iterate_succ_apply' a.nextData i a.data₀

/-- The variable `data` of either application returns after eight bytes. -/
theorem dataAt_period (side : Side) (i : ℕ) : dataAt (app side) i=dataAt (app side) (i%8) := by
  have hperiod : (app side).nextData^[8] (app side).data₀=(app side).data₀ := by
    cases side <;> rfl
  have hmany : ∀ n,(app side).nextData^[8*n] (app side).data₀=(app side).data₀ := by
    intro n
    rw [Function.iterate_mul]
    exact Function.iterate_fixed hperiod n
  conv_lhs => rw [dataAt,←Nat.mod_add_div i 8,Function.iterate_add_apply,hmany]
  rfl

/-- The pattern of the first application. -/
theorem pattern_one (i : ℕ) : pattern riscv1 i=BitVec.ofNat 8 (0x22*(i%8)+1) := by
  have hi : i%8<8 := Nat.mod_lt i (by omega)
  have hcases : ∀ j<8,pattern riscv1 j=BitVec.ofNat 8 (0x22*j+1) := by decide
  rw [←hcases _ hi,pattern,pattern]
  exact congrArg riscv1.byte (dataAt_period .one i)

/-- The pattern of the second application. -/
theorem pattern_two (i : ℕ) : pattern riscv2 i=BitVec.ofNat 8 (0xfe-0x22*(i%8)) := by
  have hi : i%8<8 := Nat.mod_lt i (by omega)
  have hcases : ∀ j<8,pattern riscv2 j=BitVec.ofNat 8 (0xfe-0x22*j) := by decide
  rw [←hcases _ hi,pattern,pattern]
  exact congrArg riscv2.byte (dataAt_period .two i)

/-- The processor has seen its value of the flag and not yet written the
other one. -/
def Active : PC → Prop
  | .burst _ _ => True
  | .flag _ => True
  | _ => False

/-- The loop variables are in range, and `data` belongs to `i`. -/
def Placed (a : App) : PC → Prop
  | .fill i data => i<1024 ∧ data=dataAt a i
  | .burst _ i => i<256
  | _ => True

/-- Number of bytes of the block that are filled. -/
def filled : PC → ℕ
  | .fill i _ => i
  | _ => 1024

/-- Number of words of the target that hold the pattern: all after the first
flag write, those copied so far before it. -/
def copied (flagged : Bool) (n : ℕ) (pc : PC) : ℕ :=
  if flagged then 256
  else match pc with
    | .burst _ i => i+n
    | .flag _ => 256
    | _ => 0

/-- The invariant of one side: its program and channel agree, its block and
target hold the pattern as far as they have been written, and the flag is its
own while it is active. -/
structure Local (a : App) (rounds : ℕ) (mem : Memory) (k : Core PC) (c : Channel)
    (flagged : Bool) (n : ℕ) : Prop where
  /-- The joint invariant of program and channel. -/
  ready : Ready (main a rounds) k n c
  /-- At most the one word of the burst has been moved. -/
  count : n≤1
  /-- The loop variables are in range. -/
  placed : Placed a k.pc
  /-- The filled part of the block. -/
  block : ∀ j<filled k.pc,mem (a.base+j)=pattern a j
  /-- The copied part of the target. -/
  copy : ∀ j<4*copied flagged n k.pc,mem (a.target+j)=pattern a j
  /-- The flag. -/
  turn : Active k.pc → mem flagAddress.toNat=a.turn

/-- Two kilobyte ranges that do not meet. -/
def Apart (x y : ℕ) : Prop := x+1024≤y ∨ y+1024≤x

/-- The flag byte is outside a kilobyte range. -/
def OffFlag (x : ℕ) : Prop := flagAddress.toNat<x ∨ x+1024≤flagAddress.toNat

/-- Ranges that do not meet do not meet the other way round. -/
theorem Apart.symm {x y : ℕ} (h : Apart x y) : Apart y x := Or.symm h

/-- Bytes of ranges that do not meet have different addresses. -/
theorem Apart.ne {x y i j : ℕ} (h : Apart x y) (hi : i<1024) (hj : j<1024) : x+i≠y+j := by
  unfold Apart at h
  omega

/-- A byte of a range that excludes the flag is not the flag. -/
theorem OffFlag.ne {x i : ℕ} (h : OffFlag x) (hi : i<1024) : x+i≠flagAddress.toNat := by
  unfold OffFlag at h
  omega

/-- A byte of one of two ranges that do not meet is not in the other. -/
theorem Apart.not_mem {x y j : ℕ} (h : Apart x y) (hj : j<1024) : y+j∉bytes x 1024 := by
  intro hm
  have h₁ := hm.1
  have h₂ := hm.2
  unfold Apart at h
  omega

/-- The flag is not in a range that excludes it. -/
theorem OffFlag.not_mem {x : ℕ} (h : OffFlag x) : flagAddress.toNat∉bytes x 1024 := by
  intro hm
  have h₁ := hm.1
  have h₂ := hm.2
  unfold OffFlag at h
  omega

/-- A kilobyte inside the two RAMs. -/
def InRam (x : ℕ) : Prop := 0x200000≤x ∧ x+1024≤0x400000

/-- Word `i` of a kilobyte. -/
theorem word_block {x i : ℕ} (hi : i<256) : bytes (x+4*i) 4⊆bytes x 1024 :=
  word_subset (by omega)

/-- A kilobyte inside the two RAMs is a range of their window. -/
theorem InRam.subset {x : ℕ} (h : InRam x) : bytes x 1024⊆Set.Ico 0x200000 0x400000 :=
  Set.Ico_subset_Ico h.1 h.2

/-- The memory map of one application against the other. -/
structure Layout (a b : App) : Prop where
  /-- The block is in RAM. -/
  baseRam : InRam a.base
  /-- The target is in RAM. -/
  targetRam : InRam a.target
  /-- Block and target do not meet. -/
  own : Apart a.base a.target
  /-- The block does not meet the other block. -/
  baseBase : Apart a.base b.base
  /-- The block does not meet the other target. -/
  baseTarget : Apart a.base b.target
  /-- The target does not meet the other block. -/
  targetBase : Apart a.target b.base
  /-- The targets do not meet. -/
  targetTarget : Apart a.target b.target
  /-- The flag is outside the block. -/
  baseFlag : OffFlag a.base
  /-- The flag is outside the target. -/
  targetFlag : OffFlag a.target
  /-- The two applications wait for different values. -/
  turns : a.turn≠b.turn

/-- The memory map of the two applications. -/
theorem layout (side : Side) : Layout (app side) (app side.other) := by
  cases side
  · constructor <;> simp only [app,Side.other,riscv1,riscv2,InRam,Apart,OffFlag] <;> decide
  · constructor <;> simp only [app,Side.other,riscv1,riscv2,InRam,Apart,OffFlag] <;> decide

section Local

variable {a : App} {rounds : ℕ} {mem mem' : Memory} {k : Core PC} {c c' : Channel}
  {flagged : Bool} {n : ℕ}

/-- No more than the block is filled. -/
theorem Local.filled_le (h : Local a rounds mem k c flagged n) : filled k.pc≤1024 := by
  have hp := h.placed
  cases hpc : k.pc with
  | fill i data =>
    rw [hpc] at hp
    exact hp.1.le
  | intInit => exact le_refl 1024
  | poll k => exact le_refl 1024
  | burst k i => exact le_refl 1024
  | flag k => exact le_refl 1024
  | finish => exact le_refl 1024

/-- No more than the target is copied. -/
theorem Local.copied_le (h : Local a rounds mem k c flagged n) :
    copied flagged n k.pc≤256 := by
  have hp := h.placed
  have hn := h.count
  unfold copied
  split
  · exact le_refl 256
  · cases hpc : k.pc with
    | burst k i =>
      rw [hpc,Placed] at hp
      dsimp only
      omega
    | fill i data => exact Nat.zero_le 256
    | intInit => exact Nat.zero_le 256
    | poll k => exact Nat.zero_le 256
    | flag k => exact le_refl 256
    | finish => exact Nat.zero_le 256

/-- The invariant of a side reads only its block, its target and, while it is
active, the flag. -/
theorem Local.memory (h : Local a rounds mem k c flagged n)
    (hb : ∀ j<1024,mem' (a.base+j)=mem (a.base+j))
    (ht : ∀ j<1024,mem' (a.target+j)=mem (a.target+j))
    (hf : Active k.pc → mem' flagAddress.toNat=mem flagAddress.toNat) :
    Local a rounds mem' k c flagged n := by
  have hfilled := h.filled_le
  have hcopied := h.copied_le
  refine ⟨h.ready,h.count,h.placed,fun j hj => ?_,fun j hj => ?_,fun ha => ?_⟩
  · rw [hb j (by omega)]
    exact h.block j hj
  · rw [ht j (by omega)]
    exact h.copy j hj
  · rw [hf ha]
    exact h.turn ha

/-- Writing byte `i` of the block fills one more byte. -/
theorem local_fill {b : App} (hl : Layout a b) (h : Local a rounds mem k c flagged n) {i : ℕ}
    {data : BitVec 32} (hpc : k.pc=.fill i data)
    (hready : Ready (main a rounds) (k.next (main a rounds)) 0 c') :
    Local a rounds (setByte mem (a.base+i) (a.byte data)) (k.next (main a rounds)) c'
      flagged 0 := by
  have hp := h.placed
  rw [hpc] at hp
  obtain ⟨hi,hdata⟩ := hp
  have hfilled : filled (k.next (main a rounds)).pc=i+1 := by
    simp only [Core.next,main,hpc,advance]
    split
    · rfl
    · simp only [filled]
      omega
  have hcopied : copied flagged 0 (k.next (main a rounds)).pc=copied flagged n k.pc := by
    simp only [Core.next,main,hpc,advance]
    split <;> rfl
  refine ⟨hready,Nat.zero_le 1,?_,fun j hj => ?_,fun j hj => ?_,fun ha => ?_⟩
  · simp only [Core.next,main,hpc,advance]
    split
    · rename_i hlt
      exact ⟨hlt,by rw [dataAt_succ,hdata]⟩
    · trivial
  · rw [hfilled] at hj
    by_cases hji : j=i
    · rw [hji,setByte_self,hdata]
      rfl
    · rw [setByte_of_ne _ _ (by omega)]
      refine h.block j ?_
      rw [hpc]
      dsimp only [filled]
      omega
  · rw [hcopied] at hj
    have := h.copied_le
    rw [setByte_of_ne _ _ (hl.own.ne hi (by omega)).symm]
    exact h.copy j hj
  · simp only [Core.next,main,hpc,advance] at ha
    split at ha <;> exact ha.elim

/-- A step of the main program that writes no memory: what has been filled and
copied must stay, and a processor that is active afterwards must own the flag. -/
theorem Local.goto (h : Local a rounds mem k c flagged n)
    (hready : Ready (main a rounds) (k.next (main a rounds)) 0 c')
    (hplaced : Placed a (advance a rounds k.pc))
    (hfilled : filled (advance a rounds k.pc)=filled k.pc)
    (hcopied : copied flagged 0 (advance a rounds k.pc)=copied flagged n k.pc)
    (hturn : Active (advance a rounds k.pc) → mem flagAddress.toNat=a.turn) :
    Local a rounds mem (k.next (main a rounds)) c' flagged 0 := by
  refine ⟨hready,Nat.zero_le 1,hplaced,fun j hj => h.block j ?_,fun j hj => h.copy j ?_,hturn⟩
  · rw [←hfilled]
    exact hj
  · rw [←hcopied]
    exact hj

/-- Enabling interrupts changes nothing that is filled or copied. -/
theorem local_intInit (h : Local a rounds mem k c flagged n) (hpc : k.pc=.intInit)
    (hready : Ready (main a rounds) (k.next (main a rounds)) 0 c') :
    Local a rounds mem (k.next (main a rounds)) c' flagged 0 := by
  apply h.goto hready <;> rw [hpc,advance]
  · split <;> trivial
  · split <;> rfl
  · split <;> rfl
  · split <;> exact False.elim

/-- Seeing its value of the flag makes a processor active. -/
theorem local_poll (h : Local a rounds mem k c flagged n) {r : ℕ} (hpc : k.pc=.poll r)
    (hturn : mem flagAddress.toNat=a.turn)
    (hready : Ready (main a rounds) (k.next (main a rounds)) 0 c') :
    Local a rounds mem (k.next (main a rounds)) c' flagged 0 := by
  apply h.goto hready
  · rw [hpc]
    exact Nat.zero_lt_succ 255
  · rw [hpc]
    rfl
  · rw [hpc]
    rfl
  · exact fun _ => hturn

/-- A finished burst has copied its word. -/
theorem local_burst (h : Local a rounds mem k c flagged 1) {r i : ℕ} (hpc : k.pc=.burst r i)
    (hready : Ready (main a rounds) (k.next (main a rounds)) 0 c') :
    Local a rounds mem (k.next (main a rounds)) c' flagged 0 := by
  have hi := h.placed
  have hturn := h.turn
  rw [hpc] at hi hturn
  by_cases hlast : i+1<256
  · have hadv : advance a rounds k.pc=.burst r (i+1) := by rw [hpc,advance,if_pos hlast]
    apply h.goto hready <;> rw [hadv]
    · exact hlast
    · rw [hpc]
      rfl
    · rw [hpc]
      rfl
    · exact fun _ => hturn trivial
  · have hadv : advance a rounds k.pc=.flag r := by rw [hpc,advance,if_neg hlast]
    apply h.goto hready <;> rw [hadv]
    · trivial
    · rw [hpc]
      rfl
    · rw [hpc]
      unfold copied
      split
      · rfl
      · dsimp only [Placed] at hi
        dsimp only
        omega
    · exact fun _ => hturn trivial

/-- The flag write gives the turn away; by then the whole target is copied. -/
theorem local_flag {b : App} (hl : Layout a b) (h : Local a rounds mem k c flagged n) {r : ℕ}
    (hpc : k.pc=.flag r) (value : BitVec 8)
    (hready : Ready (main a rounds) (k.next (main a rounds)) 0 c') :
    Local a rounds (setByte mem flagAddress.toNat value) (k.next (main a rounds)) c' true 0 := by
  have hblock := h.block
  have hcopy := h.copy
  rw [hpc] at hblock hcopy
  have hall : copied flagged n (.flag r)=256 := by
    unfold copied
    split <;> rfl
  rw [hall] at hcopy
  refine ⟨hready,Nat.zero_le 1,?_,fun j hj => ?_,fun j hj => ?_,fun ha => ?_⟩
  · simp only [Core.next,main,hpc,advance]
    split <;> trivial
  · have hj' : j<1024 := by
      revert hj
      simp only [Core.next,main,hpc,advance]
      split <;> exact id
    rw [setByte_of_ne _ _ (hl.baseFlag.ne hj')]
    exact hblock j hj'
  · have hj' : j<4*256 := hj
    rw [setByte_of_ne _ _ (hl.targetFlag.ne (by omega))]
    exact hcopy j hj'
  · simp only [Core.next,main,hpc,advance] at ha
    split at ha <;> exact ha.elim

/-- A byte write of a processor goes into its block, or it is active and writes
the flag. -/
def Permitted (a : App) (pc : PC) (access : Option Access) : Prop :=
  ∀ address value,access=some (.byte address value) →
    (∃ i<1024,address.toNat=a.base+i ∧ writesFlag access=false) ∨
      (address=flagAddress ∧ Active pc)

/-- A step without an access is permitted. -/
theorem permitted_none {pc : PC} : Permitted a pc none := by
  intro address value ha
  cases ha

/-- A block address fits into 32 bits. -/
theorem block_toNat {x i : ℕ} (h : InRam x) (hi : i<1024) :
    (BitVec.ofNat 32 (x+i)).toNat=x+i := by
  unfold InRam at h
  rw [BitVec.toNat_ofNat]
  omega

/-- A step of a processor keeps its own side, and writes only where it may. -/
theorem local_cpu {b : App} (hl : Layout a b) (h : Local a rounds mem k c flagged n)
    {side : Side} {read : BitVec 32 → BitVec 8} (hread : read flagAddress=mem flagAddress.toNat)
    {k' : Core PC} {access : Option Access}
    (hs : k.step (main a rounds) side c.interrupt read=some (k',access)) :
    Permitted a k.pc access ∧ ∃ n',Local a rounds (remember mem access) k' (serve c access)
      (flagged || writesFlag access) n' := by
  rcases (h.ready.step hs).outcome with ⟨hpc,hready,hbyte⟩|⟨hgo,hready,hdone⟩
  · -- The processor stays at its operation; it writes a register at most.
    have hmem : remember mem access=mem ∧ writesFlag access=false := by
      cases access with
      | none => exact ⟨rfl,rfl⟩
      | some x =>
        cases x with
        | register i value => exact ⟨rfl,rfl⟩
        | byte address value => exact absurd rfl (hbyte address value)
    refine ⟨fun address value ha => absurd ha (hbyte address value),n,?_⟩
    rw [hmem.1,hmem.2,Bool.or_false]
    refine ⟨hready,h.count,?_,?_,?_,?_⟩
    · rw [hpc]
      exact h.placed
    · rw [hpc]
      exact h.block
    · rw [hpc]
      exact h.copy
    · rw [hpc]
      exact h.turn
  · subst hgo
    have hp := h.placed
    cases hpc : k.pc with
    | fill i data =>
      rw [hpc] at hp
      simp only [Done,main,hpc,fetch] at hdone
      subst hdone
      have haddr := block_toNat hl.baseRam hp.1
      have hflag : writesFlag (some (.byte (BitVec.ofNat 32 (a.base+i)) (a.byte data)))=false := by
        refine decide_eq_false fun he => hl.baseFlag.ne hp.1 ?_
        rw [←haddr,he]
      refine ⟨fun address value ha => ?_,0,?_⟩
      · cases ha
        exact Or.inl ⟨i,hp.1,haddr,hflag⟩
      · rw [hflag,Bool.or_false]
        dsimp only [remember]
        rw [haddr]
        exact local_fill hl h hpc hready
    | intInit =>
      simp only [Done,main,hpc,fetch] at hdone
      subst hdone
      refine ⟨permitted_none,0,?_⟩
      rw [writesFlag_none,Bool.or_false]
      exact local_intInit h hpc hready
    | poll r =>
      simp only [Done,main,hpc,fetch] at hdone
      obtain ⟨hturn,rfl⟩ := hdone
      refine ⟨permitted_none,0,?_⟩
      rw [writesFlag_none,Bool.or_false]
      exact local_poll h hpc (hread.symm.trans hturn) hready
    | burst r i =>
      simp only [Done,main,hpc,fetch] at hdone
      obtain ⟨hn,rfl⟩ := hdone
      refine ⟨permitted_none,0,?_⟩
      rw [writesFlag_none,Bool.or_false]
      have hone : n=1 := hn
      subst hone
      exact local_burst h hpc hready
    | flag r =>
      simp only [Done,main,hpc,fetch] at hdone
      subst hdone
      refine ⟨fun address value ha => ?_,0,?_⟩
      · cases ha
        exact Or.inr ⟨rfl,trivial⟩
      · have hflag : writesFlag (some (.byte flagAddress a.flag))=true := rfl
        rw [hflag,Bool.or_true]
        exact local_flag hl h hpc a.flag hready
    | finish =>
      simp only [Done,main,hpc,fetch] at hdone

/-- A started channel belongs to an active processor. -/
theorem Local.active (h : Local a rounds mem k c flagged n) (hs : c.startClear=true) :
    Active k.pc := by
  have hready := h.ready
  unfold Ready at hready
  cases hq : ((main a rounds).fetch k.pc).request with
  | none =>
    rw [hq] at hready
    exact Bool.noConfusion (hs.symm.trans hready.quiet.idle)
  | some q =>
    obtain ⟨r,i,hpc,_⟩ := fetch_burst (request_some hq)
    rw [hpc]
    trivial

/-- An edge of a channel that does not move keeps its side. -/
theorem Local.still (h : Local a rounds mem k c flagged n) (hm : ¬c.Moving) :
    Local a rounds mem k c.tick flagged n := by
  rcases h.ready.tick with ⟨hmove,_⟩|⟨_,hready⟩
  · exact absurd hmove hm
  · exact ⟨hready,h.count,h.placed,h.block,h.copy,h.turn⟩

/-- A channel that moves data copies one word of the block of its processor to
the same place of the target. -/
theorem Local.word {b : App} (hl : Layout a b) (h : Local a rounds mem k c flagged n)
    (hm : c.Moving) : ∃ i<256,c.source.toNat+c.offset.toNat=a.base+4*i ∧
      c.target.toNat+c.offset.toNat=a.target+4*i ∧ Local a rounds (c.copyWord mem) k c.tick
        flagged 1 := by
  rcases h.ready.tick with ⟨_,hready,q,hfetch,hp,hn⟩|⟨hstill,_⟩
  · obtain ⟨r,i,hpc,rfl⟩ := fetch_burst hfetch
    have hfour : 4*(n+1)≤4 := hn
    have hzero : n=0 := by omega
    subst hzero
    have hi : i<256 := by
      have hplaced := h.placed
      rw [hpc] at hplaced
      exact hplaced
    have hsource : (BitVec.ofNat 32 (a.base+4*i)).toNat=a.base+4*i :=
      block_toNat hl.baseRam (by omega)
    have htarget : (BitVec.ofNat 32 (a.target+4*i)).toNat=a.target+4*i :=
      block_toNat hl.targetRam (by omega)
    have hcopy := hp.copyWord hm mem
    dsimp only at hcopy
    rw [hsource,htarget,Nat.mul_zero,Nat.add_zero,Nat.add_zero] at hcopy
    have hblock : ∀ j<1024,mem (a.base+j)=pattern a j := by
      have := h.block
      rw [hpc] at this
      exact this
    refine ⟨i,hi,?_,?_,hready,le_refl 1,h.placed,fun j hj => ?_,fun j hj => ?_,fun ha => ?_⟩
    · rw [hp.source,hp.offset]
      exact hsource
    · rw [hp.target,hp.offset]
      exact htarget
    · have hfilled := h.filled_le
      rw [hcopy,store_frame]
      · exact h.block j hj
      · exact fun hmem => hl.own.symm.not_mem (by omega) (word_block hi hmem)
    · rw [hcopy,store_load]
      by_cases hword : a.target+j∈bytes (a.target+4*i) 4
      · have h₁ := hword.1
        have h₂ := hword.2
        rw [if_pos hword,show a.base+4*i+(a.target+j-(a.target+4*i))=a.base+j by omega]
        exact hblock j (by omega)
      · have hout : j<4*i ∨ 4*i+4≤j := by
          by_contra hc
          exact hword ⟨by omega,by omega⟩
        rw [if_neg hword]
        refine h.copy j ?_
        rw [hpc] at hj ⊢
        unfold copied at hj ⊢
        split at hj
        · rename_i hf
          rw [if_pos hf]
          exact hj
        · rename_i hf
          rw [if_neg hf]
          dsimp only at hj ⊢
          omega
    · rw [hcopy,store_frame]
      · exact h.turn ha
      · exact fun hmem => hl.targetFlag.not_mem (word_block hi hmem)
  · exact absurd hm hstill

/-- A moving channel changes no byte outside the target of its processor. -/
theorem Local.frame {b : App} (hl : Layout a b) (h : Local a rounds mem k c flagged n) {x : ℕ}
    (hx : x∉bytes a.target 1024) : c.copyWord mem x=mem x := by
  by_cases hm : c.Moving
  · obtain ⟨i,hi,_,htarget,_⟩ := h.word hl hm
    rw [Engine.copyWord,if_pos hm,store_frame]
    rw [htarget]
    exact fun hmem => hx (word_block hi hmem)
  · rw [Engine.copyWord_still hm]

end Local

/-- The invariant of the system: that of each side. -/
def Inv (rounds : ℕ) (s : System) : Prop :=
  ∀ side,∃ n,Local (app side) rounds s.world.mem (s.core side) (s.world.dma.chan side)
    (s.flagged side) n

section System

variable {rounds : ℕ} {s s' : System}

/-- At most one processor is active: they wait for different values. -/
theorem Inv.exclusive (h : Inv rounds s) {side : Side} (ha : Active (s.core side).pc) :
    ¬Active (s.core side.other).pc := by
  intro hb
  obtain ⟨_,h₁⟩ := h side
  obtain ⟨_,h₂⟩ := h side.other
  exact (layout side).turns ((h₁.turn ha).symm.trans (h₂.turn hb))

/-- While one channel is started the other one does not move data. -/
theorem Inv.other_still (h : Inv rounds s) {side : Side}
    (hs : (s.world.dma.chan side).startClear=true) :
    ¬(s.world.dma.chan side.other).Moving := by
  intro hm
  obtain ⟨_,h₁⟩ := h side
  obtain ⟨_,h₂⟩ := h side.other
  exact h.exclusive (h₁.active hs) (h₂.active hm.1)

/-- The words of both channels lie in the two RAMs. -/
theorem Inv.within (h : Inv rounds s) (side : Side) :
    (s.world.dma.chan side).Within (Set.Ico 0x200000 0x400000) := by
  intro hm
  obtain ⟨_,hlocal⟩ := h side
  obtain ⟨i,hi,hsource,htarget,_⟩ := hlocal.word (layout side) hm
  rw [hsource,htarget]
  exact ⟨(word_block hi).trans (layout side).baseRam.subset,
    (word_block hi).trans (layout side).targetRam.subset⟩

/-- Every side is one of two. -/
theorem eq_or_other (side t : Side) : t=side ∨ t=side.other := by
  cases side <;> cases t
  · exact Or.inl rfl
  · exact Or.inr rfl
  · exact Or.inr rfl
  · exact Or.inl rfl

/-- When one channel does not move, an edge copies the word of the other. -/
theorem Inv.edge_mem (h : Inv rounds s) {side : Side}
    (hstill : ¬(s.world.dma.chan side.other).Moving) :
    (s.world.edge busM).mem=(s.world.dma.chan side).copyWord s.world.mem := by
  have hram := edge_ram (ramBus_isRam 0x200000 0x400000) h.within
  cases side with
  | one =>
    have hstill' : ¬s.world.dma.ch2.Moving := hstill
    rw [Engine.copyWord_still hstill'] at hram
    exact hram
  | two =>
    have hstill' : ¬s.world.dma.ch1.Moving := hstill
    rw [Engine.copyWord_still hstill'] at hram
    exact hram

/-- At least one channel does not move. -/
theorem Inv.some_still (h : Inv rounds s) :
    ∃ side : Side,¬(s.world.dma.chan side.other).Moving := by
  by_cases hm : (s.world.dma.chan .one).Moving
  · exact ⟨.one,h.other_still hm.1⟩
  · exact ⟨.two,hm⟩

/-- No edge changes a byte outside the two targets. -/
theorem Inv.edge_frame (h : Inv rounds s) {x : ℕ}
    (hx : ∀ side,x∉bytes (app side).target 1024) : (s.world.edge busM).mem x=s.world.mem x := by
  obtain ⟨side,hstill⟩ := h.some_still
  obtain ⟨_,hlocal⟩ := h side
  rw [h.edge_mem hstill]
  exact hlocal.frame (layout side) (hx side)

/-- An edge keeps the invariant: the channel that moves serves its own side
and leaves the block, the target and the flag of the other side alone. -/
theorem inv_edge (h : Inv rounds s) (hs : s.step rounds .edge=some s') : Inv rounds s' := by
  cases hs
  obtain ⟨side,hstill⟩ := h.some_still
  have hmem := h.edge_mem hstill
  obtain ⟨n,hown⟩ := h side
  intro t
  dsimp only
  rw [edge_chan,hmem]
  rcases eq_or_other side t with rfl|rfl
  · by_cases hm : (s.world.dma.chan t).Moving
    · obtain ⟨_,_,_,_,hword⟩ := hown.word (layout t) hm
      exact ⟨1,hword⟩
    · rw [Engine.copyWord_still hm]
      exact ⟨n,hown.still hm⟩
  · obtain ⟨n',hother⟩ := h side.other
    have hl := layout side
    refine ⟨n',(hother.still hstill).memory (fun j hj => ?_) (fun j hj => ?_) fun _ => ?_⟩
    · exact hown.frame hl (hl.targetBase.not_mem hj)
    · exact hown.frame hl (hl.targetTarget.not_mem hj)
    · exact hown.frame hl hl.targetFlag.not_mem

/-- A permitted write changes no byte outside the block and the flag. -/
theorem remember_frame {a : App} {pc : PC} {access : Option Access} (hp : Permitted a pc access)
    (mem : Memory) {x : ℕ} (hblock : ∀ i<1024,x≠a.base+i)
    (hflag : Active pc → x≠flagAddress.toNat) : remember mem access x=mem x := by
  cases access with
  | none => rfl
  | some c =>
    cases c with
    | register i value => rfl
    | byte address value =>
      refine setByte_of_ne _ _ ?_
      rcases hp address value rfl with ⟨i,hi,haddr,_⟩|⟨haddr,hactive⟩
      · rw [haddr]
        exact hblock i hi
      · rw [haddr]
        exact hflag hactive

/-- A step of one processor keeps the invariant: its writes leave the block
and the target of the other side alone, and the flag while the other side is
active. -/
theorem inv_cpu {side : Side} {byte : BitVec 8} (h : Inv rounds s)
    (hs : s.step rounds (.cpu side byte)=some s') : Inv rounds s' := by
  obtain ⟨⟨k,access⟩,hk,he⟩ := Option.map_eq_some_iff.mp hs
  subst he
  obtain ⟨n,hown⟩ := h side
  have hread : s.readReg8 byte flagAddress=s.world.mem flagAddress.toNat := if_neg (by decide)
  obtain ⟨hpermit,n₁,hown'⟩ := local_cpu (layout side) hown hread hk
  intro t
  dsimp only [perform]
  rcases eq_or_other side t with rfl|rfl
  · rw [drive_chan,Function.update_self,Function.update_self]
    exact ⟨n₁,hown'⟩
  · obtain ⟨n',hother⟩ := h side.other
    have hne : side.other≠side := by cases side <;> exact Side.noConfusion
    have hl := layout side
    have hoff := (layout side.other).baseFlag
    have hoff' := (layout side.other).targetFlag
    rw [drive_other,Function.update_of_ne hne,Function.update_of_ne hne]
    refine ⟨n',hother.memory (fun j hj => ?_) (fun j hj => ?_) fun hactive => ?_⟩
    · exact remember_frame hpermit _ (fun i hi => (hl.baseBase.ne hi hj).symm)
        fun _ => hoff.ne hj
    · exact remember_frame hpermit _ (fun i hi => (hl.baseTarget.ne hi hj).symm)
        fun _ => hoff'.ne hj
    · exact remember_frame hpermit _ (fun i hi => (hl.baseFlag.ne hi).symm)
        fun ha => absurd hactive (h.exclusive ha)

/-- The step lemma: every act keeps the invariant. -/
theorem inv_step {a : Act} (h : Inv rounds s) (hs : s.step rounds a=some s') : Inv rounds s' := by
  cases a with
  | cpu side byte => exact inv_cpu h hs
  | edge => exact inv_edge h hs

/-- The run lemma: the invariant holds after every run from reset, whatever
the memory holds then. -/
theorem inv_run {dataS : BitVec 32} {mem : Memory} {acts : List Act}
    (h : run (System.step rounds) (System.init dataS mem) acts=some s) : Inv rounds s := by
  have hinit : Inv rounds (System.init dataS mem) := by
    intro side
    have hquiet : Quiet ((System.init dataS mem).world.dma.chan side) := by
      cases side <;> exact ⟨rfl,rfl,rfl⟩
    refine ⟨0,⟨rfl,rfl,rfl,hquiet⟩,Nat.zero_le 1,⟨Nat.zero_lt_succ 1023,rfl⟩,?_,?_,False.elim⟩
    · intro j hj
      exact absurd hj (Nat.not_lt_zero j)
    · intro j hj
      exact absurd hj (Nat.not_lt_zero j)
  exact run_invariant (fun u a v hu hv => inv_step hu hv) hinit h

end System

/-- The flag protocol. In every reachable state, for every number of rounds:
the two channels are not both started, and an edge issues nothing on a channel
while the flag has not the value its processor waits for; after the first flag
write of a processor its target holds the whole pattern; and no edge changes
the flag or either block. -/
theorem flag_protocol {rounds : ℕ} {dataS : BitVec 32} {mem : Memory} {acts : List Act}
    {s : System} (h : run (System.step rounds) (System.init dataS mem) acts=some s) :
    ¬(s.world.dma.ch1.startClear=true ∧ s.world.dma.ch2.startClear=true) ∧
    (∀ side,s.world.mem 0x200800≠(app side).turn →
      (s.world.edge busM).issued side=s.world.issued side) ∧
    (s.flagged .one=true →
      ∀ i<1024,s.world.mem (0x300000+i)=BitVec.ofNat 8 (0x22*(i%8)+1)) ∧
    (s.flagged .two=true →
      ∀ i<1024,s.world.mem (0x200000+i)=BitVec.ofNat 8 (0xfe-0x22*(i%8))) ∧
    ∀ x,x=0x200800 ∨ x∈bytes 0x200400 1024 ∨ x∈bytes 0x300400 1024 →
      (s.world.edge busM).mem x=s.world.mem x := by
  have hinv := inv_run h
  have hcopied : ∀ side,s.flagged side=true →
      ∀ i<1024,s.world.mem ((app side).target+i)=pattern (app side) i := by
    intro side hf i hi
    obtain ⟨n,hlocal⟩ := hinv side
    refine hlocal.copy i ?_
    rw [hf]
    exact hi
  refine ⟨?_,?_,?_,?_,?_⟩
  · rintro ⟨h₁,h₂⟩
    obtain ⟨_,hone⟩ := hinv .one
    obtain ⟨_,htwo⟩ := hinv .two
    exact hinv.exclusive (hone.active h₁) (htwo.active h₂)
  · intro side hflag
    obtain ⟨n,hlocal⟩ := hinv side
    have hstill : ¬(s.world.dma.chan side).Moving :=
      fun hm => hflag (hlocal.turn (hlocal.active hm.1))
    obtain ⟨txns,hturns,hi⟩ := edge_turns busM s.world side
    rw [World.issued,hturns,List.flatMap_append,hi.still hstill]
    exact List.append_nil _
  · intro hf i hi
    rw [←pattern_one]
    exact hcopied .one hf i hi
  · intro hf i hi
    rw [←pattern_two]
    exact hcopied .two hf i hi
  · intro x hx
    refine hinv.edge_frame fun side => ?_
    cases side <;> simp only [app,riscv1,riscv2,Set.mem_Ico] at hx ⊢ <;> omega

end SystemCDma.FlagProtocol
