import SystemCDma.TransferEngine
import SystemCDma.EventRun
import Mathlib.Data.Fin.VecNotation
import Mathlib.Data.Fintype.Basic
import Mathlib.Tactic.FinCases

/-!
# The two-channel controller

The clocked process and the slave port of the second project. One process
serves both channels on every edge, channel one first, over one payload and
one pair of buffers; no response is checked. The slave port refuses a write
while its channel moves data, and a write refused by channel one falls through
to the test of channel two. Each channel is the shared transfer engine with a
stop flag that is computed before the branches.
-/

namespace SystemCDma.DualDma

open ByteMemory TlmBus TransferEngine EventRun

variable {M : Type*}

/-- The two sets of control registers, one for each processor. -/
inductive Side where
  | one
  | two
  deriving DecidableEq,Repr

/-- The other channel. -/
def Side.other : Side → Side
  | .one => .two
  | .two => .one

/-- One channel: its signals, its registers and its stop flag. The flag is a
plain member, so the slave port reads the value of the last edge. -/
structure Channel extends Engine where
  /-- The registers SOURCE, TARGET, SIZE and START/CLEAR of this channel. -/
  regAddr : Registers
  /-- No data was left to move at the last edge. -/
  stop : Bool

/-- The controller. The read buffer of the process serves both channels. -/
structure DMA where
  /-- The channel of the first processor. -/
  ch1 : Channel
  /-- The channel of the second processor. -/
  ch2 : Channel
  /-- Buffer behind the data pointer of the reads. -/
  dataS : BitVec 32

/-- The channel of a side. -/
def DMA.chan (s : DMA) : Side → Channel
  | .one => s.ch1
  | .two => s.ch2

/-- A channel right after the reset section. -/
def Channel.reset : Channel := ⟨Engine.reset,fun _ => 0,false⟩

/-- The controller after reset; the buffer is never cleared. -/
def init (dataS : BitVec 32) : DMA := ⟨Channel.reset,Channel.reset,dataS⟩

/-- The stop test of the process: a 64-bit difference that is not positive. -/
def stopFlag (size offset : BitVec 32) : Bool :=
  !decide (0<size.setWidth 64-offset.setWidth 64)

/-- What serving a channel leaves behind. -/
structure Served (M : Type*) where
  /-- The channel with its new signals. -/
  chan : Channel
  /-- The read buffer. -/
  dataS : BitVec 32
  /-- The bus target. -/
  mem : M
  /-- The transactions issued, in order. -/
  txns : List Txn

/-- The idle branch: copy the registers, pull the interrupt low. -/
def Channel.receive (c : Channel) : Channel :=
  {c with source := c.regAddr 0, target := c.regAddr 1, size := c.regAddr 2,
          startClear := c.regAddr 3!=0, interrupt := false, offset := 0}

/-- The finishing branch: raise the interrupt, sample START/CLEAR. -/
def Channel.finish (c : Channel) : Channel :=
  {c with interrupt := true, startClear := c.regAddr 3!=0}

/-- The moving branch: read a word, write what is in the buffer then, advance
the offset. Neither response is looked at. -/
def Channel.move (bus : Bus M) (mem : M) (c : Channel) (dataS : BitVec 32) : Served M :=
  let rd := c.readPayload dataS
  let (mem₁,ra) := bus.bTransport mem rd
  let dataS := ra.fill dataS
  let dataT := dataS
  let wr := c.writePayload dataT
  let (mem₂,wa) := bus.bTransport mem₁ wr
  ⟨{c with offset := (c.offset.setWidth 64+4).setWidth 32},dataS,mem₂,[⟨rd,ra⟩,⟨wr,wa⟩]⟩

/-- The block of the process that serves channel one. -/
def transmit1 (bus : Bus M) (mem : M) (c : Channel) (dataS : BitVec 32) : Served M :=
  if !c.startClear then ⟨c.receive,dataS,mem,[]⟩
  else if !c.stop then c.move bus mem dataS
  else if c.stop then ⟨c.finish,dataS,mem,[]⟩
  else ⟨c,dataS,mem,[]⟩

/-- The block that serves channel two. It computes the stop flag once more
after a move, from signals that have not been updated yet. -/
def transmit2 (bus : Bus M) (mem : M) (c : Channel) (dataS : BitVec 32) : Served M :=
  if !c.startClear then ⟨c.receive,dataS,mem,[]⟩
  else if !c.stop then
    let r := c.move bus mem dataS
    {r with chan := {r.chan with stop := stopFlag c.size c.offset}}
  else if c.stop then ⟨c.finish,dataS,mem,[]⟩
  else ⟨c,dataS,mem,[]⟩

/-- The stop flag of a channel is computed before any branch is taken. -/
def Channel.testStop (c : Channel) : Channel := {c with stop := stopFlag c.size c.offset}

/-- One iteration of the clocked process, with the transactions of both
channels. -/
def dmaP (bus : Bus M) (mem : M) (s : DMA) : DMA×M×List Txn×List Txn :=
  let ch1 := s.ch1.testStop
  let ch2 := s.ch2.testStop
  let r₁ := transmit1 bus mem ch1 s.dataS
  let r₂ := transmit2 bus r₁.mem ch2 r₁.dataS
  (⟨r₁.chan,r₂.chan,r₂.dataS⟩,r₂.mem,r₁.txns,r₂.txns)

/-- Address of SOURCE of channel one. -/
def dmaSourceAddr1 : BitVec 64 := 0x00

/-- Address of TARGET of channel one. -/
def dmaTargetAddr1 : BitVec 64 := 0x04

/-- Address of SIZE of channel one. -/
def dmaSizeAddr1 : BitVec 64 := 0x08

/-- Address of START/CLEAR of channel one. -/
def dmaClearAddr1 : BitVec 64 := 0x0c

/-- Address of SOURCE of channel two. -/
def dmaSourceAddr2 : BitVec 64 := 0x10

/-- Address of TARGET of channel two. -/
def dmaTargetAddr2 : BitVec 64 := 0x14

/-- Address of SIZE of channel two. -/
def dmaSizeAddr2 : BitVec 64 := 0x18

/-- Address of START/CLEAR of channel two. -/
def dmaClearAddr2 : BitVec 64 := 0x1c

/-- The slave port. Each channel takes a write to its four addresses unless
it is moving data; everything is answered with success. -/
def bTransport (s : DMA) (p : Payload) : DMA×ResponseStatus :=
  if p.command=.write then
    if (s.ch1.stop || !s.ch1.startClear)=true ∧
        (p.address=dmaSourceAddr1 ∨ p.address=dmaTargetAddr1 ∨ p.address=dmaSizeAddr1 ∨
          p.address=dmaClearAddr1) then
      ({s with ch1 := {s.ch1 with
          regAddr := memcpy s.ch1.regAddr ((p.address-dmaSourceAddr1)/4).toNat p.data}},.okResponse)
    else if (s.ch2.stop || !s.ch2.startClear)=true ∧
        (p.address=dmaSourceAddr2 ∨ p.address=dmaTargetAddr2 ∨ p.address=dmaSizeAddr2 ∨
          p.address=dmaClearAddr2) then
      ({s with ch2 := {s.ch2 with
          regAddr := memcpy s.ch2.regAddr ((p.address-dmaSourceAddr2)/4).toNat p.data}},.okResponse)
    else (s,.okResponse)
  else (s,.okResponse)

/-- The register addresses of a side, in register order. -/
def regOffset : Side → Fin 4 → BitVec 64
  | .one => ![dmaSourceAddr1,dmaTargetAddr1,dmaSizeAddr1,dmaClearAddr1]
  | .two => ![dmaSourceAddr2,dmaTargetAddr2,dmaSizeAddr2,dmaClearAddr2]

/-- A register write, as it arrives at the slave port of the controller. -/
def writeReg32 (side : Side) (i : Fin 4) (value : BitVec 32) : Payload :=
  ⟨.write,regOffset side i,value⟩

/-- What both channels did on one edge. -/
structure Round where
  /-- The turn of channel one. -/
  one : Turn
  /-- The turn of channel two. -/
  two : Turn

/-- The turn of a side. -/
def Round.turn (r : Round) : Side → Turn
  | .one => r.one
  | .two => r.two

/-- The controller, the target of its master port and the edges so far. -/
structure World (M : Type*) where
  /-- The controller. -/
  dma : DMA
  /-- State of the bus target. -/
  mem : M
  /-- What each edge latched and issued, oldest first. -/
  rounds : List Round

/-- The history of one channel. -/
def World.turns (w : World M) (side : Side) : List Turn := w.rounds.map (·.turn side)

/-- The transactions of one channel so far, in order. -/
def World.issued (w : World M) (side : Side) : List Txn := (w.turns side).flatMap (·.txns)

/-- The world after one edge. -/
def World.edge (bus : Bus M) (w : World M) : World M :=
  let r := dmaP bus w.mem w.dma
  ⟨r.1,r.2.1,w.rounds++
    [⟨⟨w.dma.ch1.latched w.dma.ch1.regAddr,r.2.2.1⟩,⟨w.dma.ch2.latched w.dma.ch2.regAddr,r.2.2.2⟩⟩]⟩

/-- One event. No event is refused. -/
def World.step (bus : Bus M) (w : World M) : Event M → Option (World M)
  | .edge => some (w.edge bus)
  | .access p => some {w with dma := (bTransport w.dma p).1}
  | .other f => some {w with mem := f w.mem}

/-- The world after reset. -/
def World.init (dataS : BitVec 32) (mem : M) : World M := ⟨DualDma.init dataS,mem,[]⟩

/-- One edge of a channel: the engine ticks with the registers it finds, and
the stop flag tells whether the size had been reached before the edge. -/
def Channel.tick (c : Channel) : Channel :=
  ⟨c.toEngine.tick c.regAddr,c.regAddr,stopFlag c.size c.offset⟩

/-- The channel takes writes to its registers. -/
def Channel.Open (c : Channel) : Prop := (c.stop || !c.startClear)=true

instance (c : Channel) : Decidable c.Open := inferInstanceAs (Decidable (_=_))

/-- A register write: taken by an open channel, discarded by a moving one. -/
def Channel.write (c : Channel) (i : Fin 4) (value : BitVec 32) : Channel :=
  if c.Open then {c with regAddr := memcpy c.regAddr i value} else c

/-- The register of a side that an access writes, and the value. -/
def registerWrite (side : Side) (p : Payload) : Option (Fin 4×BitVec 32) :=
  if p.command=.write then
    if p.address=regOffset side 0 then some (0,p.data)
    else if p.address=regOffset side 1 then some (1,p.data)
    else if p.address=regOffset side 2 then some (2,p.data)
    else if p.address=regOffset side 3 then some (3,p.data)
    else none
  else none

/-- What an access does to the channel of a side. -/
def Channel.access (c : Channel) (side : Side) (p : Payload) : Channel :=
  match registerWrite side p with
  | some (i,value) => c.write i value
  | none => c

/-- The stop flag is set exactly when the size is reached. -/
theorem stopFlag_iff (size offset : BitVec 32) : stopFlag size offset=true ↔ offset=size := by
  rw [stopFlag,Bool.not_eq_true',decide_eq_false_iff_not,stop_test,not_not]

/-- The two blocks agree: the second stop test of channel two reads the same
signals as the first. -/
theorem transmit2_eq (bus : Bus M) (mem : M) (c : Channel) (dataS : BitVec 32) :
    transmit2 bus mem c.testStop dataS=transmit1 bus mem c.testStop dataS := rfl

/-- What serving a channel does. The channel ticks; the bus is reached only by
a moving channel, with one read and one write. -/
theorem transmit_cases (bus : Bus M) (mem : M) (c : Channel) (dataS : BitVec 32) :
    (transmit1 bus mem c.testStop dataS).chan=c.tick ∧
      ((¬c.Moving ∧ (transmit1 bus mem c.testStop dataS).mem=mem ∧
          (transmit1 bus mem c.testStop dataS).txns=[]) ∨
        (c.Moving ∧ ∃ mem₁ ra wa,bus.bTransport mem (c.readPayload dataS)=(mem₁,ra) ∧
          bus.bTransport mem₁ (c.writePayload (ra.fill dataS))=
            ((transmit1 bus mem c.testStop dataS).mem,wa) ∧
          (transmit1 bus mem c.testStop dataS).txns=
            [⟨c.readPayload dataS,ra⟩,⟨c.writePayload (ra.fill dataS),wa⟩])) := by
  unfold transmit1
  by_cases hs : c.startClear=true
  · have hs' : (!c.testStop.startClear)=false := by rw [Channel.testStop,hs]; rfl
    rw [if_neg (by rw [hs']; decide)]
    by_cases ho : c.offset=c.size
    · have hstop : c.testStop.stop=true := (stopFlag_iff _ _).mpr ho
      rw [if_neg (by rw [hstop]; decide),if_pos hstop]
      refine ⟨?_,Or.inl ⟨still_finished ho,rfl,rfl⟩⟩
      rw [Channel.tick,tick_finish _ hs ho]
      rfl
    · have hstop : c.testStop.stop=false :=
        Bool.eq_false_of_not_eq_true (fun h => ho ((stopFlag_iff _ _).mp h))
      rw [if_pos (by rw [hstop]; rfl)]
      refine ⟨?_,Or.inr ⟨⟨hs,ho⟩,_,_,_,rfl,rfl,rfl⟩⟩
      rw [Channel.tick,tick_moving _ ⟨hs,ho⟩,←offset_step]
      rfl
  · have hf := Bool.eq_false_of_not_eq_true hs
    rw [if_pos (show (!c.testStop.startClear)=true by rw [Channel.testStop,hf]; rfl)]
    refine ⟨?_,Or.inl ⟨still_idle hf,rfl,rfl⟩⟩
    rw [Channel.tick,tick_idle _ hf]
    rfl

/-- Moving a word keeps what every access of the bus keeps. -/
theorem move_keeps {bus : Bus M} {Inv : M → Prop}
    (h : ∀ m p,Inv m → Inv (bus.bTransport m p).1) {mem : M} (hm : Inv mem) (c : Channel)
    (dataS : BitVec 32) : Inv (c.move bus mem dataS).mem :=
  h _ _ (h _ _ hm)

/-- So does the block of channel one. -/
theorem transmit1_keeps {bus : Bus M} {Inv : M → Prop}
    (h : ∀ m p,Inv m → Inv (bus.bTransport m p).1) {mem : M} (hm : Inv mem) (c : Channel)
    (dataS : BitVec 32) : Inv (transmit1 bus mem c dataS).mem := by
  unfold transmit1
  split_ifs
  · exact hm
  · exact move_keeps h hm c dataS
  · exact hm
  · exact hm

/-- So does the block of channel two. -/
theorem transmit2_keeps {bus : Bus M} {Inv : M → Prop}
    (h : ∀ m p,Inv m → Inv (bus.bTransport m p).1) {mem : M} (hm : Inv mem) (c : Channel)
    (dataS : BitVec 32) : Inv (transmit2 bus mem c dataS).mem := by
  unfold transmit2
  split_ifs
  · exact hm
  · exact move_keeps h hm c dataS
  · exact hm
  · exact hm

/-- A served channel ticks and issues the accesses of its word. -/
theorem transmit_issues (bus : Bus M) (mem : M) (c : Channel) (dataS : BitVec 32) :
    (transmit1 bus mem c.testStop dataS).chan=c.tick ∧
      c.Issues (transmit1 bus mem c.testStop dataS).txns := by
  obtain ⟨hchan,hissue⟩ := transmit_cases bus mem c dataS
  refine ⟨hchan,?_⟩
  rcases hissue with ⟨hm,_,ht⟩|⟨hm,_,ra,wa,_,_,ht⟩
  · exact Or.inl ⟨hm,ht⟩
  · exact Or.inr ⟨hm,dataS,ra,wa,ht⟩

/-- The current word of a moving channel lies in a window of addresses. -/
def Channel.Within (c : Channel) (window : Set ℕ) : Prop :=
  c.Moving → bytes (c.source.toNat+c.offset.toNat) 4⊆window ∧
    bytes (c.target.toNat+c.offset.toNat) 4⊆window

/-- On a byte memory a served channel copies its current word. -/
theorem transmit_ram {bus : Bus Memory} {window : Set ℕ} (hram : bus.IsRam window) (m : Memory)
    {c : Channel} (dataS : BitVec 32) (hwithin : c.Within window) :
    (transmit1 bus m c.testStop dataS).mem=c.copyWord m := by
  rcases (transmit_cases bus m c dataS).2 with ⟨hm,hmem,_⟩|⟨hm,mem₁,ra,wa,hr,hw,_⟩
  · rw [hmem,Engine.copyWord_still hm]
  · have hsa : (c.readPayload dataS).address.toNat=c.source.toNat+c.offset.toNat :=
      address_toNat _ _
    have hta : ∀ d,(c.writePayload d).address.toNat=c.target.toNat+c.offset.toNat :=
      fun _ => address_toNat _ _
    obtain ⟨hsw,htw⟩ := hwithin hm
    have hread := hram.read m (c.readPayload dataS).address dataS (by rw [hsa]; exact hsw)
    have hans : (mem₁,ra)=(m,⟨.okResponse,load m (c.readPayload dataS).address.toNat⟩) :=
      hr.symm.trans hread
    obtain ⟨rfl,rfl⟩ := Prod.mk.inj hans
    let word := load mem₁ (c.readPayload dataS).address.toNat
    have hwrite := hram.write mem₁ (c.writePayload word).address word (by rw [hta]; exact htw)
    have hmem := congrArg Prod.fst (hw.symm.trans hwrite)
    rw [hta] at hmem
    rw [Engine.copyWord,if_pos hm,←hsa]
    exact hmem

/-- On a byte memory an edge copies the current word of channel one and then
that of channel two. -/
theorem edge_ram {bus : Bus Memory} {window : Set ℕ} (hram : bus.IsRam window)
    {w : World Memory} (hwithin : ∀ side,(w.dma.chan side).Within window) :
    (w.edge bus).mem=w.dma.ch2.copyWord (w.dma.ch1.copyWord w.mem) := by
  have hone : (transmit1 bus w.mem w.dma.ch1.testStop w.dma.dataS).mem=w.dma.ch1.copyWord w.mem :=
    transmit_ram hram w.mem w.dma.dataS (hwithin .one)
  rw [←hone]
  exact transmit_ram hram _ _ (hwithin .two)

/-- On an edge each channel ticks by itself, whatever the other one and the
bus are doing, and nothing else of the controller but its buffer changes. -/
theorem edge_chan (bus : Bus M) (w : World M) (side : Side) :
    (w.edge bus).dma.chan side=(w.dma.chan side).tick := by
  cases side with
  | one => exact (transmit_issues bus w.mem w.dma.ch1 w.dma.dataS).1
  | two =>
    exact (congrArg Served.chan (transmit2_eq bus _ w.dma.ch2 _)).trans
      (transmit_issues bus _ w.dma.ch2 _).1

/-- An edge adds one round to the history, with what each channel latches
and issues. -/
theorem edge_rounds (bus : Bus M) (w : World M) :
    ∃ txns₁ txns₂,(w.edge bus).rounds=w.rounds++
        [⟨⟨w.dma.ch1.latched w.dma.ch1.regAddr,txns₁⟩,
          ⟨w.dma.ch2.latched w.dma.ch2.regAddr,txns₂⟩⟩] ∧
      w.dma.ch1.Issues txns₁ ∧ w.dma.ch2.Issues txns₂ := by
  let r := transmit1 bus w.mem w.dma.ch1.testStop w.dma.dataS
  exact ⟨_,_,rfl,(transmit_issues bus w.mem w.dma.ch1 w.dma.dataS).2,
    (transmit_issues bus r.mem w.dma.ch2 r.dataS).2⟩

/-- An edge adds one turn to the history of a channel. -/
theorem edge_turns (bus : Bus M) (w : World M) (side : Side) :
    ∃ txns,(w.edge bus).turns side=
        w.turns side++[⟨(w.dma.chan side).latched (w.dma.chan side).regAddr,txns⟩] ∧
      (w.dma.chan side).Issues txns := by
  obtain ⟨txns₁,txns₂,hrounds,h₁,h₂⟩ := edge_rounds bus w
  rw [World.turns,hrounds,List.map_append]
  cases side with
  | one => exact ⟨txns₁,rfl,h₁⟩
  | two => exact ⟨txns₂,rfl,h₂⟩

/-- The registers of one side have different addresses. -/
theorem regOffset_injective (side : Side) {i j : Fin 4} (h : regOffset side i=regOffset side j) :
    i=j := by
  revert i j
  cases side <;> decide

/-- The two sides have no register address in common. -/
theorem regOffset_disjoint (i j : Fin 4) : regOffset .one i≠regOffset .two j := by
  revert i j
  decide

/-- A write to a register address is a write of that register. -/
theorem registerWrite_of_address {side : Side} {p : Payload} {i : Fin 4}
    (hc : p.command=.write) (ha : p.address=regOffset side i) :
    registerWrite side p=some (i,p.data) := by
  have hne : ∀ j,j≠i → p.address≠regOffset side j :=
    fun j hj h => hj (regOffset_injective side (h.symm.trans ha))
  unfold registerWrite
  rw [if_pos hc]
  match i,ha,hne with
  | 0,ha,_ => rw [if_pos ha]
  | 1,ha,hne => rw [if_neg (hne 0 (by decide)),if_pos ha]
  | 2,ha,hne => rw [if_neg (hne 0 (by decide)),if_neg (hne 1 (by decide)),if_pos ha]
  | 3,ha,hne =>
    rw [if_neg (hne 0 (by decide)),if_neg (hne 1 (by decide)),if_neg (hne 2 (by decide)),
      if_pos ha]

/-- An access to no register address of a side writes none of its registers. -/
theorem registerWrite_none {side : Side} {p : Payload} (h : ∀ i,p.address≠regOffset side i) :
    registerWrite side p=none := by
  unfold registerWrite
  split
  · rw [if_neg (h 0),if_neg (h 1),if_neg (h 2),if_neg (h 3)]
  · rfl

/-- The address test of the slave port names the four registers. -/
theorem address_test {x a₀ a₁ a₂ a₃ : BitVec 64} :
    (x=a₀ ∨ x=a₁ ∨ x=a₂ ∨ x=a₃) ↔ ∃ i : Fin 4,x=![a₀,a₁,a₂,a₃] i := by
  constructor
  · rintro (h|h|h|h)
    · exact ⟨0,h⟩
    · exact ⟨1,h⟩
    · exact ⟨2,h⟩
    · exact ⟨3,h⟩
  · rintro ⟨i,h⟩
    fin_cases i
    · exact Or.inl h
    · exact Or.inr (Or.inl h)
    · exact Or.inr (Or.inr (Or.inl h))
    · exact Or.inr (Or.inr (Or.inr h))

/-- The index behind an address of channel one. -/
theorem index_one (i : Fin 4) : ((regOffset .one i-dmaSourceAddr1)/4).toNat=i.val := by
  revert i
  decide

/-- The index behind an address of channel two. -/
theorem index_two (i : Fin 4) : ((regOffset .two i-dmaSourceAddr2)/4).toNat=i.val := by
  revert i
  decide

/-- What an access does to a channel: a write to one of its registers arrives
there, everything else leaves it alone. A write refused by channel one goes on
to the addresses of channel two, which are different. -/
theorem bTransport_chan (s : DMA) (p : Payload) (side : Side) :
    (bTransport s p).1.chan side=(s.chan side).access side p := by
  have one : (p.address=dmaSourceAddr1 ∨ p.address=dmaTargetAddr1 ∨ p.address=dmaSizeAddr1 ∨
      p.address=dmaClearAddr1) ↔ ∃ i,p.address=regOffset .one i := address_test
  have two : (p.address=dmaSourceAddr2 ∨ p.address=dmaTargetAddr2 ∨ p.address=dmaSizeAddr2 ∨
      p.address=dmaClearAddr2) ↔ ∃ i,p.address=regOffset .two i := address_test
  unfold bTransport Channel.access
  by_cases hc : p.command=.write
  · rw [if_pos hc]
    by_cases h₁ : ∃ i,p.address=regOffset .one i
    · obtain ⟨i,hi⟩ := h₁
      have hother : ∀ j,p.address≠regOffset .two j :=
        fun j hj => regOffset_disjoint i j (hi.symm.trans hj)
      rw [if_neg (c := _∧(p.address=dmaSourceAddr2 ∨ _))
        (fun h => (two.mp h.2).elim hother)]
      cases side with
      | one =>
        rw [registerWrite_of_address hc hi]
        dsimp only [DMA.chan,Channel.write]
        by_cases ho : s.ch1.Open
        · rw [if_pos ⟨ho,one.mpr ⟨i,hi⟩⟩,if_pos ho,hi,index_one]
        · rw [if_neg (fun h => ho h.1),if_neg ho]
      | two =>
        rw [registerWrite_none hother]
        split <;> rfl
    · rw [if_neg (fun h => h₁ (one.mp h.2))]
      cases side with
      | one =>
        rw [registerWrite_none (fun j hj => h₁ ⟨j,hj⟩)]
        split <;> rfl
      | two =>
        by_cases h₂ : ∃ i,p.address=regOffset .two i
        · obtain ⟨i,hi⟩ := h₂
          rw [registerWrite_of_address hc hi]
          dsimp only [DMA.chan,Channel.write]
          by_cases ho : s.ch2.Open
          · rw [if_pos ⟨ho,two.mpr ⟨i,hi⟩⟩,if_pos ho,hi,index_two]
          · rw [if_neg (fun h => ho h.1),if_neg ho]
        · rw [registerWrite_none (fun j hj => h₂ ⟨j,hj⟩),if_neg (fun h => h₂ (two.mp h.2))]
  · rw [if_neg hc,registerWrite,if_neg hc]

/-- A register write of a processor selects its register on its side. -/
theorem registerWrite_writeReg32 (side : Side) (i : Fin 4) (value : BitVec 32) :
    registerWrite side (writeReg32 side i value)=some (i,value) :=
  registerWrite_of_address rfl rfl

/-- A register write of one side writes no register of the other. -/
theorem registerWrite_other (side : Side) (i : Fin 4) (value : BitVec 32) :
    registerWrite side.other (writeReg32 side i value)=none := by
  apply registerWrite_none
  intro j hj
  cases side with
  | one => exact regOffset_disjoint i j hj
  | two => exact regOffset_disjoint j i hj.symm

/-- A write of one side changes no channel of the other. -/
theorem bTransport_otherSide (s : DMA) (side : Side) (i : Fin 4) (value : BitVec 32) :
    (bTransport s (writeReg32 side i value)).1.chan side.other=s.chan side.other := by
  rw [bTransport_chan,Channel.access,registerWrite_other]

/-- A write of one side is a register write of its channel. -/
theorem bTransport_ownSide (s : DMA) (side : Side) (i : Fin 4) (value : BitVec 32) :
    (bTransport s (writeReg32 side i value)).1.chan side=(s.chan side).write i value := by
  rw [bTransport_chan,Channel.access,registerWrite_writeReg32]

/-- A write leaves the signals of a channel and its stop flag alone. -/
theorem Channel.write_frame (c : Channel) (i : Fin 4) (value : BitVec 32) :
    (c.write i value).toEngine=c.toEngine ∧ (c.write i value).stop=c.stop := by
  unfold Channel.write
  split <;> exact ⟨rfl,rfl⟩

/-- So does every access. -/
theorem Channel.access_frame (c : Channel) (side : Side) (p : Payload) :
    (c.access side p).toEngine=c.toEngine ∧ (c.access side p).stop=c.stop := by
  unfold Channel.access
  split
  · exact c.write_frame _ _
  · exact ⟨rfl,rfl⟩

/-- An open channel takes the value into the addressed register. -/
theorem Channel.write_open {c : Channel} (h : c.Open) (i j : Fin 4) (value : BitVec 32) :
    (c.write i value).regAddr j=if j=i then value else c.regAddr j := by
  rw [Channel.write,if_pos h]
  dsimp only [memcpy]
  by_cases hj : j=i
  · rw [if_pos hj,if_pos (congrArg Fin.val hj)]
  · rw [if_neg hj,if_neg (fun hv => hj (Fin.ext hv))]

/-- Only an edge and a register write change a channel. -/
theorem step_chan {bus : Bus M} {w w' : World M} {e : Event M} (h : w.step bus e=some w')
    (side : Side) :
    match e with
    | .edge => w'.dma.chan side=(w.dma.chan side).tick
    | .access p => w'.dma.chan side=(w.dma.chan side).access side p ∧ w'.rounds=w.rounds
    | .other _ => w'.dma=w.dma ∧ w'.rounds=w.rounds := by
  cases e with
  | edge =>
    cases h
    exact edge_chan bus w side
  | access p =>
    cases h
    exact ⟨bTransport_chan w.dma p side,rfl⟩
  | other f =>
    cases h
    exact ⟨rfl,rfl⟩

/-- No event is refused. -/
theorem step_total (bus : Bus M) (w : World M) (e : Event M) : ∃ w',w.step bus e=some w' := by
  cases e with
  | edge => exact ⟨_,rfl⟩
  | access p => exact ⟨_,rfl⟩
  | other f => exact ⟨_,rfl⟩

/-- Each channel of the controller is clocked by the transfer engine. -/
theorem clocked (bus : Bus M) (side : Side) :
    Clocked (World.step bus) (fun w => (w.dma.chan side).toEngine)
      (fun w => (w.dma.chan side).regAddr) (fun w => w.turns side) where
  edge := by
    intro w w' h
    cases h
    exact ⟨congrArg Channel.toEngine (edge_chan bus w side),edge_turns bus w side⟩
  between := by
    intro w w' e h he
    cases e with
    | edge => exact absurd rfl he
    | access p =>
      obtain ⟨hchan,hrounds⟩ := step_chan h side
      refine ⟨?_,by rw [World.turns,hrounds,World.turns]⟩
      rw [hchan]
      exact (Channel.access_frame _ side p).1
    | other f =>
      cases h
      exact ⟨rfl,rfl⟩

end SystemCDma.DualDma
