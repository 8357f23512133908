import SystemCDma.SingleDmaTransfer
import SystemCDma.SingleRam

/-!
# The program of the first project on its platform

The program stores four words, clears four others, has three words moved by the
controller, waits for the interrupt and prints the four words. Its handler
clears START/CLEAR when the byte it reads there is not zero, and then a status
register that the controller does not have; that address belongs to the RAM.
Every access is a step of its own, through a direct pointer or over the bus,
with clock edges and other activity of the processor between any two.
-/

namespace SystemCDma.SingleProgram

open ByteMemory EventRun TransferEngine SinglePlatform TlmDecoder FlatMemory
open TlmBus SingleRam
open SingleDma (DMA regOffset dmaClearAddr)
open SingleDmaTransfer (Copying)
open BareMetal (masterPayload)
open SharedRam (load_bytes)

/-- First address of the words to move. -/
def srcAdr : BitVec 32 := 0xfff00000

/-- First address of the words that are cleared, then moved to. -/
def dstAdr : BitVec 32 := 0xffff0000

/-- Number of words that are moved. -/
def dataLength : BitVec 32 := 3

/-- The stores of the program before the transfer: addresses and words. -/
def fill : Fin 8 → BitVec 32×BitVec 32 :=
  ![(srcAdr+0x0,123),(srcAdr+0x4,456),(srcAdr+0x8,789),(srcAdr+0xc,818),
    (dstAdr+0x0,0),(dstAdr+0x4,0),(dstAdr+0x8,0),(dstAdr+0xc,0)]

/-- The request of the transfer. -/
def transfer : Request := ⟨srcAdr,dstAdr,dataLength*4⟩

/-- The four register values of the transfer. -/
def dmaBurst : Registers := ![transfer.source,transfer.target,transfer.size,0x1]

/-- Address of a register; the window of the controller begins at zero. -/
def register (i : Fin 4) : BitVec 32 := (regOffset i).setWidth 32

/-- The status register that the handler clears after START/CLEAR. -/
def dmaIntTcStatus : BitVec 32 := 0x10

/-- A place in the program. -/
inductive Place where
  /-- This store comes next. -/
  | fill (i : Fin 8)
  /-- The trap handler is installed and the interrupt enabled. -/
  | intInit
  /-- This register is written next. -/
  | burst (i : Fin 4)
  /-- The transfer is programmed; `wfi` comes next or is being executed. -/
  | wfi
  /-- This word is loaded and printed next. -/
  | print (j : Fin 4)
  /-- The end of the program. -/
  | finish
  deriving DecidableEq,Repr

/-- The place after the step at a place. -/
def Place.next : Place → Place
  | .fill i => if i=7 then .intInit else .fill (i+1)
  | .intInit => .burst 0
  | .burst i => if i=3 then .wfi else .burst (i+1)
  | .wfi => .print 0
  | .print j => if j=3 then .finish else .print (j+1)
  | .finish => .finish

/-- The external interrupt is enabled at a place. -/
def Place.enabled : Place → Bool
  | .fill _ | .intInit => false
  | _ => true

/-- What the processor is doing. -/
inductive Mode where
  /-- The main program. -/
  | run
  /-- Asleep in `wfi`. -/
  | sleep
  /-- The handler is about to read START/CLEAR. -/
  | test
  /-- The handler is about to read it once more for its message. -/
  | print
  /-- The handler is about to write the CLEAR. -/
  | clear
  /-- The handler is about to clear the status register. -/
  | status
  /-- The handler returns. -/
  | mret
  deriving DecidableEq,Repr

/-- The state of the processor. -/
structure Core where
  /-- The place in the main program. -/
  place : Place
  /-- Main program, sleep or handler. -/
  mode : Mode
  deriving DecidableEq,Repr

/-- An access of the program. -/
inductive CpuAccess where
  /-- Write a word. -/
  | store (address value : BitVec 32)
  /-- Read a byte. -/
  | load8 (address : BitVec 32)
  /-- Read a word. -/
  | load32 (address : BitVec 32)
  deriving DecidableEq,Repr

/-- The address of an access. -/
def CpuAccess.address : CpuAccess → BitVec 32
  | .store address _ | .load8 address | .load32 address => address

/-- The access that belongs to a place of the main program. -/
def Place.access : Place → Option CpuAccess
  | .fill i => some (.store (SingleProgram.fill i).1 (SingleProgram.fill i).2)
  | .burst i => some (.store (register i) (dmaBurst i))
  | .print j => some (.load32 (dstAdr+4*BitVec.ofNat 32 j.val))
  | _ => none

/-- The access of the next step, given the level of the interrupt. -/
def Core.access (irq : Bool) (k : Core) : Option CpuAccess :=
  match k.mode with
  | .run => if irq && k.place.enabled then none else k.place.access
  | .test | .print => some (.load8 (register 3))
  | .clear => some (.store (register 3) 0x0)
  | .status => some (.store dmaIntTcStatus 0x0)
  | .sleep | .mret => none

/-- The next step, given the level of the interrupt and the loaded value, with
the words it prints. A sleeping processor has no step while the level is low,
and the program none at its end. -/
def Core.step (irq : Bool) (value : BitVec 32) (k : Core) : Option (Core×List (BitVec 32)) :=
  match k.mode with
  | .run =>
    if irq && k.place.enabled then some ({k with mode := .test},[])
    else match k.place with
      | .wfi => some ({k with mode := .sleep},[])
      | .print _ => some ({k with place := k.place.next},[value])
      | .finish => none
      | _ => some ({k with place := k.place.next},[])
  | .sleep => if irq then some (⟨k.place.next,.test⟩,[]) else none
  | .test => some ({k with mode := if value≠0 then .print else .mret},[])
  | .print => some ({k with mode := .clear},[])
  | .clear => some ({k with mode := .status},[])
  | .status => some ({k with mode := .mret},[])
  | .mret => some ({k with mode := .run},[])

/-- The payload of an access. The buffer of a load holds an older value. -/
def payload (word : BitVec 32) : CpuAccess → GenericPayload
  | .store address value => masterPayload ⟨.write,address.setWidth 64,value⟩
  | .load8 address => byteAccess .read (address.setWidth 64) (word.setWidth 8)
  | .load32 address => masterPayload ⟨.read,address.setWidth 64,word⟩

/-- The value that the processor takes from the buffer of an access. -/
def loaded (buffer : Memory) : CpuAccess → BitVec 32
  | .load8 _ => (buffer 0).setWidth 32
  | .store _ _ | .load32 _ => load buffer 0

/-- Perform the access of a step, if there is one. -/
def perform (s : Platform) (word : BitVec 32) : Option CpuAccess → Option (Platform×BitVec 32)
  | none => some (s,word)
  | some a =>
    match serve s (.direct .data (payload word a)) with
    | some (s',.data buffer _) => some (s',loaded buffer a)
    | _ => none

/-- The platform, its processor and what has been printed. -/
structure Machine where
  /-- The platform. -/
  platform : Platform
  /-- The processor. -/
  core : Core
  /-- The words printed so far. -/
  printed : List (BitVec 32)

/-- What happens on the machine. -/
inductive Action where
  /-- A step of the program; the word is what the place of a result holds. -/
  | cpu (word : BitVec 32)
  /-- A clock edge of the controller. -/
  | edge
  /-- Anything else. -/
  | other (e : Act)

/-- The level of the interrupt. -/
def Machine.irq (m : Machine) : Bool := m.platform.targets.dma.interrupt

/-- One step of the machine. -/
def Machine.step (m : Machine) : Action → Option Machine
  | .cpu word => do
    let (s,value) ← perform m.platform word (m.core.access m.irq)
    let (k,words) ← m.core.step m.irq value
    some ⟨s,k,m.printed++words⟩
  | .edge => (proceed m.platform .edge).map fun s => {m with platform := s}
  | .other e => (proceed m.platform e).map fun s => {m with platform := s}

/-- The machine after construction and reset. -/
def Machine.init (dataS : BitVec 32) : Machine :=
  ⟨start (SingleDma.init 0x00000000 dataS),⟨.fill 0,.run⟩,[]⟩

/-- The words to move and their target. -/
def blocks : Set ℕ := bytes srcAdr.toNat 16∪bytes dstAdr.toNat 16

/-- An access to the RAM that writes to neither block. -/
def Private (p : GenericPayload) : Prop :=
  p.dataLength≠0 ∧ 0x10≤p.address.toNat ∧ p.address.toNat+p.dataLength.toNat≤2^32 ∧
    (p.command=.write → Disjoint (bytes p.address.toNat p.dataLength.toNat) blocks)

/-- The other activity is that of the processor in the rest of the RAM. -/
def Action.Proper : Action → Prop
  | .other (.access p) | .other (.direct _ p) => Private p
  | .other (.request port addr bytes) => SinglePlatform.Proper (.request port addr bytes)
  | .other .edge => False
  | _ => True

/-- The first stores of the program have been made. -/
def Filled (i : ℕ) (m : Memory) : Prop :=
  ∀ j : Fin 8,j.val < i → load m (fill j).1.toNat=(fill j).2

/-- All stores have been made, and then some words have been moved. -/
def Copied (n : ℕ) (m : Memory) : Prop :=
  ∃ m₀,Filled 8 m₀ ∧ Set.EqOn m (forwardCopy m₀ srcAdr.toNat dstAdr.toNat n) blocks

/-- Nothing is requested, in progress or pending. -/
structure Idle (s : DMA) : Prop where
  /-- The channel is idle. -/
  idle : s.startClear=false
  /-- The interrupt is low. -/
  low : s.interrupt=false
  /-- START/CLEAR is zero. -/
  cleared : s.regmem 3=0

/-- From the START write on, with the number of edges until the interrupt rises. -/
inductive During : ℕ → DMA → Prop
  /-- START is written and waits for an edge. -/
  | armed {s : DMA} (idle : s.startClear=false) (low : s.interrupt=false)
      (written : ∀ j,s.regmem j=dmaBurst j) : During 5 s
  /-- Words are being moved, or have been. -/
  | moving {s : DMA} {n k : ℕ} (progress : s.Progress transfer n) (left : n+k=4) (some : 0<k)
      (kept : s.regmem 3≠0) : During k s

/-- From the rise of the interrupt on: raised with or without a CLEAR, the
CLEAR taken, or idle again. -/
inductive After (s : DMA) : Prop
  | raised (done : s.Raised transfer) (started : s.startClear=true)
  | fading (idle : s.startClear=false) (high : s.interrupt=true) (cleared : s.regmem 3=0)
  | quiet (idle : Idle s)

section Phases

variable {s s' : DMA} {m m' : Memory} {k : ℕ}

/-- The words to move and their target are apart and in the RAM. -/
theorem block_bounds : srcAdr.toNat=0xfff00000 ∧ dstAdr.toNat=0xffff0000 ∧
    transfer.source=srcAdr ∧ transfer.target=dstAdr ∧ transfer.size.toNat=12 :=
  ⟨rfl,rfl,rfl,rfl,rfl⟩

/-- The bytes of the transfer, in the blocks and in the window of the RAM. -/
theorem transfer_inside : bytes transfer.source.toNat transfer.size.toNat⊆blocks ∧
    bytes transfer.source.toNat transfer.size.toNat⊆Set.Ico 0x10 (2^32) ∧
    bytes transfer.target.toNat transfer.size.toNat⊆Set.Ico 0x10 (2^32) :=
  ⟨fun _ hx => Or.inl (Set.Ico_subset_Ico_right (by decide) hx),
    Set.Ico_subset_Ico (by decide) (by decide),Set.Ico_subset_Ico (by decide) (by decide)⟩

/-- An edge without a move ticks the signals and leaves everything else alone. -/
theorem still_edge (h : ¬s.Moving) (m : Memory) : ∃ s',SingleDma.dmaP ramBus1 m s=.ok (s',m,[]) ∧
    s'.toEngine=s.tick s.regmem ∧ s'.regmem=s.regmem ∧ s'.dmaBaseAddr=s.dmaBaseAddr := by
  obtain ⟨s',hs⟩ := SingleDma.dmaP_still ramBus1 m h
  obtain ⟨htick,hregs,hbase,_⟩ := SingleDma.dmaP_ok hs
  exact ⟨s',hs,htick,hregs,hbase⟩

/-- An idle channel whose START/CLEAR is zero stays idle. -/
theorem Idle.tick (h : Idle s) (htick : s'.toEngine=s.tick s.regmem) (hregs : s'.regmem=s.regmem) :
    Idle s' := by
  have ht := tick_idle s.regmem h.idle
  rw [h.cleared] at ht
  exact ⟨by rw [htick,ht]; rfl,by rw [htick,ht],by rw [hregs]; exact h.cleared⟩

/-- A finished channel does not move. -/
theorem After.still (h : After s) : ¬s.Moving := by
  cases h with
  | raised done _ => exact still_finished (done.offset.trans done.size.symm)
  | fading idle _ _ => exact still_idle idle
  | quiet idle => exact still_idle idle.idle

/-- It stays finished, and raised as long as it has not been cleared. -/
theorem After.tick (h : After s) (htick : s'.toEngine=s.tick s.regmem)
    (hregs : s'.regmem=s.regmem) : After s' := by
  cases h with
  | raised done started =>
    obtain ⟨hraised,hstart⟩ := done.tick_hold s.regmem started
    rw [←htick] at hraised hstart
    by_cases h3 : s.regmem 3=0
    · refine .fading ?_ hraised.high (by rw [hregs]; exact h3)
      rw [hstart,h3]
      rfl
    · exact .raised hraised (hstart.trans (bne_iff_ne.mpr h3))
  | fading idle high cleared =>
    have ht := tick_idle s.regmem idle
    rw [cleared] at ht
    exact .quiet ⟨by rw [htick,ht]; rfl,by rw [htick,ht],by rw [hregs]; exact cleared⟩
  | quiet idle => exact .quiet (idle.tick htick hregs)

/-- The interrupt is low until the last edge of a transfer. -/
theorem During.low (h : During k s) : s.interrupt=false := by
  cases h with
  | armed _ low _ => exact low
  | moving progress _ _ _ => exact progress.quiet

/-- The words that a moving channel accesses lie in the window of the RAM. -/
theorem During.fits (h : During k s) (hm : s.Moving) (data : BitVec 32) :
    WordAccess (s.readPayload data) ∧ WordAccess (s.writePayload data) := by
  cases h with
  | armed idle _ _ => exact absurd hm (still_idle idle)
  | @moving _ n _ progress left some _ =>
    have hmoving : 4*n≠12 := progress.moving_iff.mp hm
    have haddr := progress.wordMove data ⟨.okResponse,data⟩ ⟨.okResponse,0⟩
    have hr := haddr.readAddress
    have hw := haddr.writeAddress
    rw [block_bounds.2.2.1,block_bounds.1] at hr
    rw [block_bounds.2.2.2.1,block_bounds.2.1] at hw
    dsimp only at hr hw
    refine ⟨⟨Command.noConfusion,?_,?_⟩,⟨Command.noConfusion,?_,?_⟩⟩
    · omega
    · omega
    · change 16≤(s.writePayload (Answer.fill ⟨.okResponse,data⟩ data)).address.toNat
      omega
    · change (s.writePayload (Answer.fill ⟨.okResponse,data⟩ data)).address.toNat+4≤2^32
      omega

/-- An edge in the course of the transfer moves a word or latches the request,
or is the last one, which raises the interrupt. -/
theorem During.edge (h : During k s) (hm : Copied (4-k) m) :
    ∃ s' m' txns,SingleDma.dmaP ramBus1 m s=.ok (s',m',txns) ∧ s'.dmaBaseAddr=s.dmaBaseAddr ∧
      ((1<k ∧ During (k-1) s' ∧ Copied (4-(k-1)) m') ∨
        (k=1 ∧ After s' ∧ s'.interrupt=true ∧ Copied 3 m')) := by
  cases h with
  | armed idle low written =>
    obtain ⟨s',hs,htick,hregs,hbase⟩ := still_edge (still_idle idle) m
    have hlatch : s.latched s.regmem=some transfer := by
      rw [Engine.latched,if_pos ⟨idle,by rw [written]; decide⟩,request,written,written,written]
      rfl
    have hprogress := progress_latched hlatch
    rw [←htick] at hprogress
    exact ⟨s',m,[],hs,hbase,Or.inl ⟨by decide,
      .moving hprogress (by decide) (by decide) (by rw [hregs,written]; decide),hm⟩⟩
  | @moving _ n _ progress left some kept =>
    by_cases hn : n=3
    · -- all words have been moved
      subst hn
      have hfull : 4*3=transfer.size.toNat := rfl
      have hstill : ¬s.Moving := fun hmove => progress.moving_iff.mp hmove hfull
      obtain ⟨s',hs,htick,hregs,hbase⟩ := still_edge hstill m
      obtain ⟨hraised,hstart⟩ := progress.tick_raise s.regmem hfull
      rw [←htick] at hraised hstart
      obtain rfl : k=1 := by omega
      exact ⟨s',m,[],hs,hbase,Or.inr ⟨rfl,
        .raised hraised (hstart.trans (bne_iff_ne.mpr kept)),hraised.high,hm⟩⟩
    · -- one more word
      obtain ⟨m₀,hfilled,hcopied⟩ := hm
      obtain ⟨hsR,hsw,htw⟩ := transfer_inside
      rw [show 4-k=n by omega] at hcopied
      have hcopying : Copying transfer m₀ blocks n (⟨s,m,[]⟩ : SingleDma.World Memory) :=
        ⟨progress,hcopied⟩
      obtain ⟨w',hstep,hnext⟩ := hcopying.edge (ramBus_isRam 0x10 (2^32)) hsw htw hsR (by
        rw [block_bounds.2.2.2.2]
        omega)
      unfold SingleDma.World.step at hstep
      cases hd : SingleDma.dmaP ramBus1 m s with
      | error r =>
        rw [←ramBus1,hd] at hstep
        cases hstep
      | ok o =>
        obtain ⟨s',m',txns⟩ := o
        obtain ⟨_,hregs,hbase,_⟩ := SingleDma.dmaP_ok hd
        rw [←ramBus1,hd] at hstep
        cases hstep
        refine ⟨s',m',txns,rfl,hbase,Or.inl ⟨by omega,
          .moving hnext.progress (by omega) (by omega) (by rw [hregs]; exact kept),m₀,hfilled,?_⟩⟩
        rw [show 4-(k-1)=n+1 by omega]
        exact hnext.copied

/-- A transfer takes at most five edges. -/
theorem During.bound {s : DMA} (h : During k s) : k≤5 := by
  cases h with
  | armed _ _ _ => exact le_rfl
  | moving _ left _ _ => omega

end Phases

/-- The words that are to be printed. -/
def results : Fin 4 → BitVec 32 := ![123,456,789,0]

section Words

variable {m m' : Memory} {n : ℕ}

/-- The words of the program lie in the blocks, apart from each other. -/
theorem fill_apart : ∀ i : Fin 8,bytes (fill i).1.toNat 4⊆blocks ∧
    0x10≤(fill i).1.toNat ∧ (fill i).1.toNat+4≤2^32 ∧
      ∀ j : Fin 8,j≠i → Disjoint (bytes (fill i).1.toNat 4) (bytes (fill j).1.toNat 4) := by
  have hplace : ∀ i : Fin 8,((fill i).1.toNat=0xfff00000+4*i.val ∧ i.val<4) ∨
      ((fill i).1.toNat=0xffff0000+4*(i.val-4) ∧ 4 ≤ i.val) := by decide
  obtain ⟨hsrc,hdst,_⟩ := block_bounds
  intro i
  have hi := hplace i
  refine ⟨fun x hx => ?_,by omega,by omega,fun j hj => Set.disjoint_left.mpr fun x hx hx' => ?_⟩
  · obtain ⟨hlo,hhi⟩ := hx
    rcases hi with ⟨ha,_⟩|⟨ha,_⟩
    · exact Or.inl ⟨by omega,by omega⟩
    · exact Or.inr ⟨by omega,by omega⟩
  · have hne : j.val≠i.val := fun h => hj (Fin.ext h)
    have hj' := hplace j
    obtain ⟨h₁,h₂⟩ := hx
    obtain ⟨h₃,h₄⟩ := hx'
    omega

/-- What has been stored stays if the blocks do. -/
theorem Filled.congr (h : Filled n m) (heq : Set.EqOn m' m blocks) : Filled n m' := by
  intro j hj
  rw [←h j hj]
  exact load_congr fun i hi => heq ((fill_apart j).1 ⟨by omega,by omega⟩)

/-- So does what has been moved. -/
theorem Copied.congr (h : Copied n m) (heq : Set.EqOn m' m blocks) : Copied n m' := by
  obtain ⟨m₀,hfilled,hcopied⟩ := h
  exact ⟨m₀,hfilled,heq.trans hcopied⟩

/-- One more store. -/
theorem Filled.store {i : Fin 8} (h : Filled i.val m) :
    Filled (i.val+1) (store m (fill i).1.toNat (fill i).2) := by
  intro j hj
  by_cases hji : j=i
  · subst hji
    exact load_store _ _ _
  · rw [load_store_of_disjoint _ _ ((fill_apart i).2.2.2 j hji)]
    exact h j (by
      have : j.val≠i.val := fun h => hji (Fin.ext h)
      omega)

/-- A word in the first bytes of the RAM does not matter. -/
theorem low_store (m : Memory) (v : BitVec 32) : Set.EqOn (ByteMemory.store m 0x10 v) m blocks := by
  intro x hx
  refine store_frame m v ?_
  rintro ⟨_,hhi⟩
  obtain ⟨hsrc,hdst,_⟩ := block_bounds
  rcases hx with ⟨hlo,_⟩|⟨hlo,_⟩ <;> omega

/-- After the transfer the target holds the words to be printed. -/
theorem Copied.result (h : Copied 3 m) (j : Fin 4) :
    load m (dstAdr+4*BitVec.ofNat 32 j.val).toNat=results j := by
  obtain ⟨m₀,hfilled,hcopied⟩ := h
  obtain ⟨hsrc,hdst,_⟩ := block_bounds
  have haddr : ∀ j : Fin 4,(dstAdr+4*BitVec.ofNat 32 j.val).toNat=dstAdr.toNat+4*j.val := by decide
  rw [haddr]
  have hblock : ∀ i<4,dstAdr.toNat+4*j.val+i∈blocks := fun i hi => Or.inr ⟨by omega,by omega⟩
  by_cases hj : j.val<3
  · -- a moved word is the one of the source
    have hword : load m (dstAdr.toNat+4*j.val)=load m₀ (srcAdr.toNat+4*j.val) := by
      refine load_congr fun i hi => ?_
      rw [hcopied (hblock i hi),Nat.add_assoc,Nat.add_assoc]
      exact forwardCopy_target m₀ (Or.inr (by omega)) (by omega)
    have hsource : ∀ j : Fin 4,j.val<3 → ∃ i : Fin 8,
        srcAdr.toNat+4*j.val=(fill i).1.toNat ∧ (fill i).2=results j := by decide
    obtain ⟨i,hi,hvalue⟩ := hsource j hj
    rw [hword,hi,hfilled i i.isLt,hvalue]
  · -- the last word is behind the target
    have hword : load m (dstAdr.toNat+4*j.val)=load m₀ (dstAdr.toNat+4*j.val) := by
      refine load_congr fun i hi => ?_
      rw [hcopied (hblock i hi)]
      exact forwardCopy_frame m₀ _ _ fun hin => by
        have := hin.2
        omega
    have hlast : ∀ j : Fin 4,¬j.val<3 → ∃ i : Fin 8,
        dstAdr.toNat+4*j.val=(fill i).1.toNat ∧ (fill i).2=results j := by decide
    obtain ⟨i,hi,hvalue⟩ := hlast j hj
    rw [hword,hi,hfilled i i.isLt,hvalue]

end Words

/-- The joint states of program, handler, controller and memory, with what has
been printed. -/
inductive Joint : Core → List (BitVec 32) → DMA → Memory → Prop
  /-- The program makes its stores. -/
  | filling {i : Fin 8} {s : DMA} {m : Memory} (idle : Idle s) (filled : Filled i.val m) :
      Joint ⟨.fill i,.run⟩ [] s m
  /-- All stores have been made. -/
  | ready {s : DMA} {m : Memory} (idle : Idle s) (copied : Copied 0 m) :
      Joint ⟨.intInit,.run⟩ [] s m
  /-- The program writes registers. -/
  | programming {i : Fin 4} {s : DMA} {m : Memory} (idle : Idle s)
      (written : ∀ j < i,s.regmem j=dmaBurst j) (copied : Copied 0 m) :
      Joint ⟨.burst i,.run⟩ [] s m
  /-- The transfer is in progress; `wfi` is next or is being executed. -/
  | during {mode : Mode} {k : ℕ} {s : DMA} {m : Memory} (main : mode=.run ∨ mode=.sleep)
      (transfer : During k s) (copied : Copied (4-k) m) : Joint ⟨.wfi,mode⟩ [] s m
  /-- The transfer is complete and `wfi` not done. -/
  | early {mode : Mode} {s : DMA} {m : Memory} (after : After s) (copied : Copied 3 m) :
      Joint ⟨.wfi,mode⟩ [] s m
  /-- `wfi` is done, and the first words have been printed. -/
  | printing {j : Fin 4} {mode : Mode} {s : DMA} {m : Memory} (awake : mode≠.sleep)
      (after : After s) (copied : Copied 3 m) :
      Joint ⟨.print j,mode⟩ ((List.ofFn results).take j.val) s m
  /-- All words have been printed. -/
  | done {mode : Mode} {s : DMA} {m : Memory} (awake : mode≠.sleep) (after : After s)
      (copied : Copied 3 m) : Joint ⟨.finish,mode⟩ (List.ofFn results) s m

/-- What an access of the program does on the platform with a flat memory. -/
def performFlat (u : Targets Memory) (word : BitVec 32) :
    Option CpuAccess → Targets Memory×BitVec 32
  | none => (u,word)
  | some a =>
    let r := SinglePlatform.access respondFlat u (payload word a)
    (r.1,loaded r.2.buffer a)

section Invariant

variable {k k' : Core} {out words : List (BitVec 32)} {s : DMA} {m m' : Memory}
  {u : Targets Memory} {word : BitVec 32}

/-- The joint invariant looks at the blocks only. -/
theorem Joint.congr (h : Joint k out s m) (heq : Set.EqOn m' m blocks) : Joint k out s m' := by
  cases h with
  | filling idle filled => exact .filling idle (filled.congr heq)
  | ready idle copied => exact .ready idle (copied.congr heq)
  | programming idle written copied => exact .programming idle written (copied.congr heq)
  | during main transfer copied => exact .during main transfer (copied.congr heq)
  | early after copied => exact .early after (copied.congr heq)
  | printing awake after copied => exact .printing awake after (copied.congr heq)
  | done awake after copied => exact .done awake after (copied.congr heq)

/-- An edge goes through and keeps the joint invariant. -/
theorem Joint.edge (h : Joint k out s m) :
    (s.Moving → ∀ data,WordAccess (s.readPayload data) ∧ WordAccess (s.writePayload data)) ∧
      ∃ s' m' txns,SingleDma.dmaP ramBus1 m s=.ok (s',m',txns) ∧
        s'.dmaBaseAddr=s.dmaBaseAddr ∧ Joint k out s' m' := by
  -- outside the transfer the channel does not move
  have hidle : Idle s → (∀ s',Idle s' → s'.regmem=s.regmem → Joint k out s' m) →
      (s.Moving → ∀ data,WordAccess (s.readPayload data) ∧ WordAccess (s.writePayload data)) ∧
      ∃ s' m' txns,SingleDma.dmaP ramBus1 m s=.ok (s',m',txns) ∧
        s'.dmaBaseAddr=s.dmaBaseAddr ∧ Joint k out s' m' := by
    intro idle hnext
    obtain ⟨s',hs,htick,hregs,hbase⟩ := still_edge (still_idle idle.idle) m
    exact ⟨fun hm => absurd hm (still_idle idle.idle),s',m,[],hs,hbase,
      hnext s' (idle.tick htick hregs) hregs⟩
  have hafter : After s → (∀ s',After s' → Joint k out s' m) →
      (s.Moving → ∀ data,WordAccess (s.readPayload data) ∧ WordAccess (s.writePayload data)) ∧
      ∃ s' m' txns,SingleDma.dmaP ramBus1 m s=.ok (s',m',txns) ∧
        s'.dmaBaseAddr=s.dmaBaseAddr ∧ Joint k out s' m' := by
    intro after hnext
    obtain ⟨s',hs,htick,hregs,hbase⟩ := still_edge after.still m
    exact ⟨fun hm => absurd hm after.still,s',m,[],hs,hbase,hnext s' (after.tick htick hregs)⟩
  cases h with
  | filling idle filled => exact hidle idle fun s' hi _ => .filling hi filled
  | ready idle copied => exact hidle idle fun s' hi _ => .ready hi copied
  | programming idle written copied =>
    exact hidle idle fun s' hi hregs =>
      .programming hi (fun j hj => by rw [hregs]; exact written j hj) copied
  | during main transfer copied =>
    obtain ⟨s',m',txns,hs,hbase,hnext⟩ := transfer.edge copied
    refine ⟨transfer.fits,s',m',txns,hs,hbase,?_⟩
    rcases hnext with ⟨_,htransfer,hcopied⟩|⟨_,hafter,_,hcopied⟩
    · exact .during main htransfer hcopied
    · exact .early hafter hcopied
  | early after copied => exact hafter after fun s' ha => .early ha copied
  | printing awake after copied => exact hafter after fun s' ha => .printing awake ha copied
  | done awake after copied => exact hafter after fun s' ha => .done awake ha copied

/-- A register write of the program reaches its register. -/
theorem perform_register (word : BitVec 32) (hbase : u.dma.dmaBaseAddr=0) (i : Fin 4) (value : BitVec 32) :
    ∃ s',(performFlat u word (some (.store (register i) value))).1=⟨u.ram1,s'⟩ ∧
      s'.toEngine=u.dma.toEngine ∧ s'.dmaBaseAddr=0 ∧
      ∀ j,s'.regmem j=if j=i then value else u.dma.regmem j := by
  have hl : ∀ i : Fin 4,lookup addressMap ((register i).setWidth 64)=some (.dma,regOffset i) := by
    decide
  have hp : ({masterPayload ⟨.write,(register i).setWidth 64,value⟩ with
      address := regOffset i} : GenericPayload).word=
        SingleDma.writeReg32 u.dma.dmaBaseAddr (regOffset i) value := by
    rw [hbase]
    refine congrArg₂ (Payload.mk .write) ?_ (load_bytes value)
    exact (BitVec.zero_add _).symm
  refine ⟨(SingleDma.bTransport u.dma
    (SingleDma.writeReg32 u.dma.dmaBaseAddr (regOffset i) value)).1,?_,?_,?_,fun j => ?_⟩
  · dsimp only [performFlat,payload]
    rw [access_lookup,show (masterPayload ⟨.write,(register i).setWidth 64,value⟩).address=
      (register i).setWidth 64 from rfl,hl]
    dsimp only [reach,call]
    rw [hp]
  · exact (SingleDma.bTransport_frame _ _).1
  · exact (SingleDma.bTransport_frame _ _).2.1.trans hbase
  · exact SingleDma.bTransport_writeReg32 _ _ _ _

/-- A store of the program to the RAM. -/
theorem perform_store {a : BitVec 32} (word value : BitVec 32) (hlo : 0x10≤a.toNat)
    (hhi : a.toNat+4≤2^32) :
    (performFlat u word (some (.store a value))).1.dma=u.dma ∧
      memory (performFlat u word (some (.store a value))).1=store (memory u) a.toNat value := by
  have ha : (a.setWidth 64).toNat=a.toNat := by
    rw [BitVec.toNat_setWidth]
    exact Nat.mod_eq_of_lt (by omega)
  obtain ⟨q,u',hu,hdma,hmem,_,_⟩ := access_store (u := u) (a := a.setWidth 64) value
    (by rw [ha]; exact hlo) (by rw [ha]; exact hhi)
  dsimp only [performFlat,payload]
  rw [hu,←ha]
  exact ⟨hdma,hmem⟩

/-- Reading the byte of a register changes nothing, and leaves the buffer. -/
theorem perform_load8 (i : Fin 4) :
    (performFlat u word (some (.load8 (register i)))).1=u := by
  have hl : ∀ i : Fin 4,lookup addressMap ((register i).setWidth 64)=some (.dma,regOffset i) := by
    decide
  dsimp only [performFlat,payload]
  rw [access_lookup,show (byteAccess .read ((register i).setWidth 64) (word.setWidth 8)).address=
    (register i).setWidth 64 from rfl,hl]
  rfl

/-- Loading a word from the RAM. -/
theorem perform_load32 {a : BitVec 32} (word : BitVec 32) (hlo : 0x10≤a.toNat) (hhi : a.toNat+4≤2^32) :
    performFlat u word (some (.load32 a))=(u,load (memory u) a.toNat) := by
  have ha : (a.setWidth 64).toNat=a.toNat := by
    rw [BitVec.toNat_setWidth]
    exact Nat.mod_eq_of_lt (by omega)
  obtain ⟨q,hu,_,hword⟩ := access_load (u := u) (a := a.setWidth 64) word
    (by rw [ha]; exact hlo) (by rw [ha]; exact hhi)
  dsimp only [performFlat,payload,loaded]
  rw [hu,hword,ha]

/-- A CLEAR after the transfer. -/
theorem After.clear {s' : DMA} (h : After s) (hengine : s'.toEngine=s.toEngine)
    (hregs : s'.regmem 3=0) : After s' := by
  cases h with
  | raised done started =>
    exact .raised (by rw [hengine]; exact done) (by rw [hengine]; exact started)
  | fading idle high _ =>
    exact .fading (by rw [hengine]; exact idle) (by rw [hengine]; exact high) hregs
  | quiet idle =>
    exact .quiet ⟨by rw [hengine]; exact idle.idle,by rw [hengine]; exact idle.low,hregs⟩

/-- A step of the handler after the transfer. -/
theorem handler_step {place : Place} {mode : Mode} {irq : Bool} (hbase : u.dma.dmaBaseAddr=0)
    (after : After u.dma) (copied : Copied 3 (memory u)) (hrun : mode≠.run) (hsleep : mode≠.sleep)
    (hstep : (⟨place,mode⟩ : Core).step irq
      (performFlat u word ((⟨place,mode⟩ : Core).access irq)).2=some (k',words)) :
    let u' := (performFlat u word ((⟨place,mode⟩ : Core).access irq)).1
    (∃ mode',k'=⟨place,mode'⟩ ∧ mode'≠.sleep) ∧ words=[] ∧ u'.dma.dmaBaseAddr=0 ∧
      After u'.dma ∧ Copied 3 (memory u') := by
  intro u'
  cases mode with
  | run => exact absurd rfl hrun
  | sleep => exact absurd rfl hsleep
  | test =>
    have hu : u'=u := perform_load8 3
    rw [hu]
    cases hstep
    refine ⟨⟨_,rfl,?_⟩,rfl,hbase,after,copied⟩
    split <;> exact Mode.noConfusion
  | print =>
    have hu : u'=u := perform_load8 3
    rw [hu]
    cases hstep
    exact ⟨⟨_,rfl,Mode.noConfusion⟩,rfl,hbase,after,copied⟩
  | clear =>
    obtain ⟨s',hu,hengine,hbase',hregs⟩ := perform_register word hbase 3 0
    have hu' : u'=⟨u.ram1,s'⟩ := hu
    rw [hu']
    cases hstep
    exact ⟨⟨_,rfl,Mode.noConfusion⟩,rfl,hbase',after.clear hengine ((hregs 3).trans (if_pos rfl)),
      copied⟩
  | status =>
    -- the status register is a word at the start of the RAM
    obtain ⟨hdma,hmem⟩ := perform_store (u := u) (a := dmaIntTcStatus) word 0
      (by decide) (by decide)
    have hdma' : u'.dma=u.dma := hdma
    have hmem' : memory u'=store (memory u) 0x10 0 := hmem
    rw [hdma',hmem']
    cases hstep
    exact ⟨⟨_,rfl,Mode.noConfusion⟩,rfl,hbase,after,copied.congr (low_store _ _)⟩
  | mret =>
    cases hstep
    exact ⟨⟨_,rfl,Mode.noConfusion⟩,rfl,hbase,after,copied⟩

/-- A step of the program keeps the joint invariant. -/
theorem Joint.cpu (h : Joint k out u.dma (memory u)) (hbase : u.dma.dmaBaseAddr=0)
    (hstep : k.step u.dma.interrupt (performFlat u word (k.access u.dma.interrupt)).2=
      some (k',words)) :
    let u' := (performFlat u word (k.access u.dma.interrupt)).1
    u'.dma.dmaBaseAddr=0 ∧ Joint k' (out++words) u'.dma (memory u') := by
  intro u'
  generalize hs : u.dma=s at h
  generalize hm : memory u=m at h
  cases h with
  | @filling i _ _ idle filled =>
    obtain ⟨_,hlo,hhi,_⟩ := fill_apart i
    obtain ⟨hdma,hmem⟩ := perform_store (u := u) word (fill i).2 hlo hhi
    rw [hs,idle.low] at hstep
    have hu' : u'=(performFlat u word (some (.store (fill i).1 (fill i).2))).1 := by
      change (performFlat u word (Core.access _ _)).1=_
      rw [hs,idle.low]
      rfl
    rw [hu',hdma,hmem,hm,hs]
    refine ⟨by rw [←hs]; exact hbase,?_⟩
    have hfilled := filled.store
    cases hstep
    dsimp only [Place.next]
    by_cases hi : i=7
    · subst hi
      rw [if_pos rfl]
      exact .ready idle ⟨_,hfilled,fun _ _ => rfl⟩
    · rw [if_neg hi]
      have hval : ∀ i : Fin 8,i≠7 → (i+1).val=i.val+1 := by decide
      exact .filling idle (by rw [hval i hi]; exact hfilled)
  | ready idle copied =>
    rw [hs,idle.low] at hstep
    have hu' : u'=u := by
      change (performFlat u word (Core.access _ _)).1=_
      rw [hs,idle.low]
      rfl
    rw [hu',hm,hs]
    cases hstep
    exact ⟨by rw [←hs]; exact hbase,.programming idle (fun j hj => absurd hj (Fin.not_lt_zero j))
      copied⟩
  | @programming i _ _ idle written copied =>
    obtain ⟨s',hu,hengine,hbase',hregs⟩ := perform_register word hbase i (dmaBurst i)
    rw [hs,idle.low] at hstep
    have hu' : u'=⟨u.ram1,s'⟩ := by
      rw [←hu]
      change (performFlat u word (Core.access _ _)).1=_
      rw [hs,idle.low]
      rfl
    have hmem : memory ⟨u.ram1,s'⟩=m := hm
    rw [hu',hmem]
    refine ⟨hbase',?_⟩
    rw [hs] at hengine hregs
    have hwritten : ∀ j,j ≤ i → s'.regmem j=dmaBurst j := by
      intro j hj
      rw [hregs]
      by_cases hji : j=i
      · rw [if_pos hji,hji]
      · rw [if_neg hji]
        exact written j (lt_of_le_of_ne hj hji)
    cases hstep
    dsimp only [Place.next]
    by_cases hi : i=3
    · subst hi
      rw [if_pos rfl]
      exact .during (Or.inl rfl) (.armed (by rw [hengine]; exact idle.idle)
        (by rw [hengine]; exact idle.low) fun j => hwritten j (Fin.le_last j)) copied
    · rw [if_neg hi]
      have hlt : ∀ i j : Fin 4,i≠3 → j < i+1 → j ≤ i := by decide
      refine .programming ⟨by rw [hengine]; exact idle.idle,by rw [hengine]; exact idle.low,?_⟩
        (fun j hj => hwritten j (hlt i j hi hj)) copied
      rw [hregs,if_neg (Ne.symm hi)]
      exact idle.cleared
  | @during mode n _ _ main transfer copied =>
    rw [hs,transfer.low] at hstep
    rcases main with rfl|rfl
    · have hu' : u'=u := by
        change (performFlat u word (Core.access _ _)).1=_
        rw [hs,transfer.low]
        rfl
      rw [hu',hm,hs]
      cases hstep
      exact ⟨by rw [←hs]; exact hbase,.during (Or.inr rfl) transfer copied⟩
    · cases hstep
  | @early mode _ _ after copied =>
    subst hs hm
    by_cases hrun : mode=.run
    · subst hrun
      have hu' : u'=u := by
        change (performFlat u word (Core.access _ _)).1=_
        cases u.dma.interrupt <;> rfl
      rw [hu']
      cases hirq : u.dma.interrupt <;> rw [hirq] at hstep <;> cases hstep <;>
        exact ⟨hbase,.early after copied⟩
    · by_cases hsleep : mode=.sleep
      · subst hsleep
        have hu' : u'=u := rfl
        rw [hu']
        cases hirq : u.dma.interrupt <;> rw [hirq] at hstep <;> cases hstep
        exact ⟨hbase,.printing Mode.noConfusion after copied⟩
      · obtain ⟨⟨mode',rfl,_⟩,rfl,hbase',hafter,hcopied⟩ :=
          handler_step hbase after copied hrun hsleep hstep
        exact ⟨hbase',.early hafter hcopied⟩
  | @printing j mode _ _ awake after copied =>
    subst hs hm
    by_cases hrun : mode=.run
    · subst hrun
      cases hirq : u.dma.interrupt with
      | true =>
        have hu' : u'=u := by
          change (performFlat u word (Core.access _ _)).1=_
          rw [hirq]
          rfl
        rw [hu']
        rw [hirq] at hstep
        cases hstep
        rw [List.append_nil]
        exact ⟨hbase,.printing Mode.noConfusion after copied⟩
      | false =>
        have hbound : ∀ j : Fin 4,0x10≤(dstAdr+4*BitVec.ofNat 32 j.val).toNat ∧
            (dstAdr+4*BitVec.ofNat 32 j.val).toNat+4≤2^32 := by decide
        have hload := perform_load32 (u := u) word (hbound j).1 (hbound j).2
        rw [copied.result j] at hload
        have hu' : u'=u := by
          change (performFlat u word (Core.access _ _)).1=_
          rw [hirq]
          exact congrArg Prod.fst hload
        rw [hu']
        have hstep' : (⟨.print j,.run⟩ : Core).step false (results j)=some (k',words) := by
          rw [hirq,show (⟨.print j,.run⟩ : Core).access false=
            some (.load32 (dstAdr+4*BitVec.ofNat 32 j.val)) from rfl,hload] at hstep
          exact hstep
        refine ⟨hbase,?_⟩
        cases hstep'
        dsimp only [Place.next]
        have htake : ∀ j : Fin 4,(List.ofFn results).take j.val++[results j]=
            (List.ofFn results).take (j.val+1) := by decide
        rw [htake]
        by_cases hj : j=3
        · subst hj
          rw [if_pos rfl]
          exact .done Mode.noConfusion after copied
        · rw [if_neg hj]
          have hval : ∀ j : Fin 4,j≠3 → j.val+1=(j+1).val := by decide
          rw [hval j hj]
          exact .printing Mode.noConfusion after copied
    · obtain ⟨⟨mode',rfl,hawake⟩,rfl,hbase',hafter,hcopied⟩ :=
        handler_step hbase after copied hrun awake hstep
      rw [List.append_nil]
      exact ⟨hbase',.printing hawake hafter hcopied⟩
  | @done mode _ _ awake after copied =>
    subst hs hm
    by_cases hrun : mode=.run
    · subst hrun
      cases hirq : u.dma.interrupt with
      | true =>
        have hu' : u'=u := by
          change (performFlat u word (Core.access _ _)).1=_
          rw [hirq]
          rfl
        rw [hu']
        rw [hirq] at hstep
        cases hstep
        rw [List.append_nil]
        exact ⟨hbase,.done Mode.noConfusion after copied⟩
      | false =>
        rw [hirq] at hstep
        cases hstep
    · obtain ⟨⟨mode',rfl,hawake⟩,rfl,hbase',hafter,hcopied⟩ :=
        handler_step hbase after copied hrun awake hstep
      rw [List.append_nil]
      exact ⟨hbase',.done hawake hafter hcopied⟩

end Invariant

end SystemCDma.SingleProgram
