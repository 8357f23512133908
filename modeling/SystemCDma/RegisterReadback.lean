import SystemCDma.BurstDriver
import SystemCDma.RegisterPayload

/-!
# Reading the control registers

Each register holds the last write that its slave port took since reset. No
read returns it: both ports answer a read with success and leave the buffer of
the initiator as it is. The read gives the value of the register exactly if
the buffer held it before, and an interrupt handler clears START/CLEAR exactly
if the byte that it finds in its buffer is not zero.
-/

namespace SystemCDma.RegisterReadback

open ByteMemory TlmBus TransferEngine EventRun RegisterPayload
open DualDma (Side)

variable {M : Type*}

/-- The data of a payload is a register value: its bytes, up to the four of a
register, are those of the value. -/
def Returned (value : BitVec 32) (p : GenericPayload) : Prop :=
  ∀ k<4,k<p.dataLength.toNat → p.buffer k=value.extractLsb' (8*k) 8

/-- A read that is answered with success returns the value. -/
def ReadsBack {A : Type} (port : Port A) (a : A) (value : BitVec 32) (p : GenericPayload) : Prop :=
  (port.bTransport a p).2.responseStatus=.okResponse → Returned value (port.bTransport a p).2

/-- The read of one byte by a processor, with what its buffer holds. -/
def readReg8 (address : BitVec 64) (buffer : Memory) : GenericPayload :=
  ⟨.read,address,buffer,1,none,1,.incompleteResponse⟩

/-- The byte that such a read yields. -/
def status {A : Type} (port : Port A) (a : A) (address : BitVec 64) (buffer : Memory) : BitVec 8 :=
  (port.bTransport a (readReg8 address buffer)).2.buffer 0

/-- Offset of the interrupt status register of which the handler of the first
project knows; RAM answers there. -/
def dmaIntTcStatus : BitVec 64 := 0x10

/-- The handler of the first project: its register writes, given the byte that
it reads at START/CLEAR. -/
def interruptHandlerSingle (status : BitVec 8) : List (BitVec 64×BitVec 32) :=
  let intStatus : BitVec 32 := 1
  if intStatus≠0 ∧ status≠0 then [(SingleDma.dmaClearAddr,0),(dmaIntTcStatus,0)] else []

/-- The handler of either processor of the second project. -/
def interruptHandlerDual (side : Side) (status : BitVec 8) : List (BitVec 64×BitVec 32) :=
  if status≠0 then [(DualDma.regOffset side 3,0)] else []

/-- The handler writes the CLEAR. -/
def Clears (clearOffset : BitVec 64) (writes : List (BitVec 64×BitVec 32)) : Prop :=
  (clearOffset,0)∈writes

/-- In the model of the processors the handler goes on to its CLEAR in the
same cases. -/
theorem core_test {PC : Type} (prog : BurstDriver.Program PC) (side : Side) (irq : Bool)
    (read : BitVec 32 → BitVec 8) (k : BurstDriver.Core PC) :
    BurstDriver.Core.step prog side irq read {k with mode := .test}=
      some ({k with mode := if interruptHandlerDual side (read (BurstDriver.clearAddress side))≠[]
        then .print else .mret},none) := by
  unfold BurstDriver.Core.step interruptHandlerDual
  by_cases h : read (BurstDriver.clearAddress side)≠0
  · simp only [if_pos h,ne_eq,List.cons_ne_nil,not_false_eq_true,if_true]
  · simp only [if_neg h,ne_eq,not_true_eq_false,if_false]

/-- The handler of the first project clears if the byte is not zero. -/
theorem single_clears (b : BitVec 8) :
    Clears SingleDma.dmaClearAddr (interruptHandlerSingle b) ↔ b≠0 := by
  unfold Clears interruptHandlerSingle
  by_cases h : b=0
  · rw [if_neg (fun hb => hb.2 h)]
    exact ⟨fun hm => absurd hm List.not_mem_nil,fun hn => absurd h hn⟩
  · rw [if_pos ⟨by decide,h⟩]
    exact ⟨fun _ => h,fun _ => List.mem_cons_self⟩

/-- So do those of the second one. -/
theorem dual_clears (side : Side) (b : BitVec 8) :
    Clears (DualDma.regOffset side 3) (interruptHandlerDual side b) ↔ b≠0 := by
  unfold Clears interruptHandlerDual
  by_cases h : b=0
  · rw [if_neg (not_not_intro h)]
    exact ⟨fun hm => absurd hm List.not_mem_nil,fun hn => absurd h hn⟩
  · rw [if_pos h]
    exact ⟨fun _ => h,fun _ => List.mem_cons_self⟩

/-- A port that only sets the status returns what the buffer held. -/
theorem readsBack_iff {A : Type} {port : Port A} {a : A} {p : GenericPayload}
    (h : (port.bTransport a p).2=p.succeed) (value : BitVec 32) :
    ReadsBack port a value p ↔ Returned value p := by
  unfold ReadsBack
  rw [h]
  exact ⟨fun hr => hr rfl,fun hr _ => hr⟩

/-- The read law in full: the read returns the value whatever the buffer of
the initiator held. -/
def Independent {A : Type} (port : Port A) (a : A) (value : BitVec 32) (p : GenericPayload) :
    Prop := ∀ buffer,ReadsBack port a value {p with buffer := buffer}

/-- Such a port never returns a value independently of the buffer. -/
theorem not_independent {A : Type} {port : Port A} {a : A}
    (h : ∀ p,(port.bTransport a p).2=p.succeed) (value : BitVec 32) {p : GenericPayload}
    (hp : 0<p.dataLength.toNat) : ¬Independent port a value p := by
  intro hind
  have hret := (readsBack_iff (h _) value).mp (hind fun _ => value.extractLsb' 0 8+1)
  have hbyte := hret 0 (by decide) hp
  cases BitVec.add_right_eq_self.mp hbyte

section Single

variable {bus : Bus M}

/-- The value that an event puts into register `i`: every write counts. -/
def singleTaken (i : Fin 4) (w : SingleDma.World M) : Event M → Option (BitVec 32)
  | .access p => if p.command=.write ∧ i.val=SingleDma.regIndex w.dma.dmaBaseAddr p.address
      then some p.data else none
  | _ => none

/-- The registers take the accepted values and otherwise stay. -/
theorem single_taken {w w' : SingleDma.World M} {e : Event M} (h : w.step bus e=some w')
    (i : Fin 4) : w'.dma.regmem i=(singleTaken i w e).getD (w.dma.regmem i) := by
  have hstep := (SingleDma.step_engine h).2
  cases e with
  | edge => exact congrFun hstep.2 i
  | access p =>
    rw [hstep.1,SingleDma.bTransport_regmem]
    dsimp only [singleTaken]
    split <;> rfl
  | other f => rw [show w'.dma=w.dma from hstep]; rfl

/-- A register holds the last write since reset, zero if there was none. -/
theorem single_last {dmaBaseAddr dataS : BitVec 32} {mem : M} {es : List (Event M)}
    {w : SingleDma.World M}
    (h : run (SingleDma.World.step bus) ⟨SingleDma.init dmaBaseAddr dataS,mem,[]⟩ es=some w)
    (i : Fin 4) :
    w.dma.regmem i=(observed (SingleDma.World.step bus) (singleTaken i)
      ⟨SingleDma.init dmaBaseAddr dataS,mem,[]⟩ es).getLastD 0 :=
  last_observed (fun _ _ _ hs => single_taken hs i) h

end Single

section Dual

variable {bus : Bus M}

/-- The value that an event puts into register `i` of a side: a write that
the channel takes. -/
def dualTaken (side : Side) (i : Fin 4) (u : DualDma.World M) : Event M → Option (BitVec 32)
  | .access p => if (u.dma.chan side).Open ∧ DualDma.registerWrite side p=some (i,p.data)
      then some p.data else none
  | _ => none

/-- The value of a register write is the datum of the access. -/
theorem registerWrite_data {side : Side} {p : Payload} {i : Fin 4} {value : BitVec 32}
    (h : DualDma.registerWrite side p=some (i,value)) : value=p.data := by
  unfold DualDma.registerWrite at h
  split_ifs at h <;> cases h <;> rfl

/-- The registers take the accepted values and otherwise stay. -/
theorem dual_taken {u u' : DualDma.World M} {e : Event M} (h : u.step bus e=some u')
    (side : Side) (i : Fin 4) :
    (u'.dma.chan side).regAddr i=(dualTaken side i u e).getD ((u.dma.chan side).regAddr i) := by
  have hchan := DualDma.step_chan h side
  cases e with
  | edge => rw [show u'.dma.chan side=_ from hchan]; rfl
  | access p =>
    rw [hchan.1,DualDma.Channel.access]
    dsimp only [dualTaken]
    cases hw : DualDma.registerWrite side p with
    | none =>
      rw [if_neg (fun hp => Option.some_ne_none _ hp.2.symm)]
      rfl
    | some o =>
      obtain ⟨j,value⟩ := o
      have hvalue := registerWrite_data hw
      subst hvalue
      dsimp only
      by_cases ho : (u.dma.chan side).Open
      · rw [DualDma.Channel.write_open ho]
        by_cases hj : i=j
        · subst hj
          rw [if_pos rfl,if_pos ⟨ho,rfl⟩]
          rfl
        · have hne : (some (j,p.data) : Option (Fin 4×BitVec 32))≠some (i,p.data) :=
            fun hp => hj (Prod.mk.inj (Option.some.inj hp)).1.symm
          rw [if_neg hj,if_neg (fun hp => hne hp.2)]
          rfl
      · rw [DualDma.Channel.write,if_neg ho,if_neg (fun hp => ho hp.1)]
        rfl
  | other f => rw [hchan.1]; rfl

/-- A register holds the last accepted write since reset, zero if there was
none. -/
theorem dual_last {dataS : BitVec 32} {mem : M} {es : List (Event M)} {u : DualDma.World M}
    (h : run (DualDma.World.step bus) (DualDma.World.init dataS mem) es=some u) (side : Side)
    (i : Fin 4) :
    (u.dma.chan side).regAddr i=(observed (DualDma.World.step bus) (dualTaken side i)
      (DualDma.World.init dataS mem) es).getLastD 0 := by
  have hzero : ((DualDma.World.init dataS mem).dma.chan side).regAddr i=0 := by
    cases side <;> rfl
  rw [←hzero]
  exact last_observed (fun _ _ _ hs => dual_taken hs side i) h

end Dual

/-- What holds of the reads of one register with some value: the read returns
the value exactly if the buffer held it before, and a read of at least one
byte never does so independently of the buffer. -/
def ReadExact {A : Type} (port : Port A) (a : A) (address : BitVec 64) (value : BitVec 32) :
    Prop :=
  ∀ p,p.command=.read → p.address=address → (ReadsBack port a value p ↔ Returned value p) ∧
    (0<p.dataLength.toNat → ¬Independent port a value p)

/-- It holds of a port that only sets the status. -/
theorem readExact_of_succeed {A : Type} {port : Port A} {a : A}
    (h : ∀ p,(port.bTransport a p).2=p.succeed) (address : BitVec 64) (value : BitVec 32) :
    ReadExact port a address value :=
  fun _ _ _ => ⟨readsBack_iff (h _) value,not_independent h value⟩

/-- In every state that either controller reaches from reset, a register holds
the last write taken for it, or zero, and a read that is answered with success
returns that value exactly if the buffer of the initiator held it before. A
handler that finds START/CLEAR still one clears it exactly if the byte in its
buffer is not zero. -/
theorem read_back_exact {M' : Type*} {bus : Bus M} {bus' : Bus M'}
    {dmaBaseAddr dataS dataS' : BitVec 32} {mem : M} {mem' : M'} {es : List (Event M)}
    {es' : List (Event M')} {w : SingleDma.World M} {u : DualDma.World M'}
    (hw : run (SingleDma.World.step bus) ⟨SingleDma.init dmaBaseAddr dataS,mem,[]⟩ es=some w)
    (hu : run (DualDma.World.step bus') (DualDma.World.init dataS' mem') es'=some u)
    {m : Memory} (hm : registersOf m=w.dma.regmem)
    {a : Side → Memory} (ha : ∀ side,registersOf (a side)=(u.dma.chan side).regAddr) :
    (∀ i,registersOf m i=(observed (SingleDma.World.step bus) (singleTaken i)
          ⟨SingleDma.init dmaBaseAddr dataS,mem,[]⟩ es).getLastD 0 ∧
        ReadExact (singlePort dmaBaseAddr) m (dmaBaseAddr.setWidth 64+SingleDma.regOffset i)
          (registersOf m i)) ∧
      (registersOf m 3=1 → ∀ buffer,Clears SingleDma.dmaClearAddr (interruptHandlerSingle
          (status (singlePort dmaBaseAddr) m (dmaBaseAddr.setWidth 64+SingleDma.dmaClearAddr)
            buffer)) ↔ buffer 0≠0) ∧
      ∀ side,
        (∀ i,registersOf (a side) i=(observed (DualDma.World.step bus') (dualTaken side i)
              (DualDma.World.init dataS' mem') es').getLastD 0 ∧
            ReadExact (dualPort u.dma) a (DualDma.regOffset side i) (registersOf (a side) i)) ∧
          (registersOf (a side) 3=1 → ∀ buffer,Clears (DualDma.regOffset side 3)
            (interruptHandlerDual side (status (dualPort u.dma) a (DualDma.regOffset side 3)
              buffer)) ↔ buffer 0≠0) := by
  refine ⟨fun i => ⟨?_,readExact_of_succeed (single_answer dmaBaseAddr m) _ _⟩,
    fun _ buffer => ?_,fun side => ⟨fun i => ⟨?_,readExact_of_succeed (dual_answer u.dma a) _ _⟩,
      fun _ buffer => ?_⟩⟩
  · rw [hm]
    exact single_last hw i
  · rw [single_clears,status,show ((singlePort dmaBaseAddr).bTransport m _).2=_ from
      single_answer dmaBaseAddr m _]
    exact Iff.rfl
  · rw [ha]
    exact dual_last hu side i
  · rw [dual_clears,status,show ((dualPort u.dma).bTransport a _).2=_ from
      dual_answer u.dma a _]
    exact Iff.rfl

/-- START is written on the first set of registers, and an edge latches it. -/
def startEvents : List (Event Unit) := [.access ⟨.write,0x0c,1⟩,.edge]

/-- The array behind registers of which only START/CLEAR is set. -/
def startArray : Memory := fun x => if x=12 then 1 else 0

/-- The arrays of both channels then. -/
def startArrays : Side → Memory
  | .one => startArray
  | .two => fun _ => 0

/-- START/CLEAR is one, the buffer of the processor zero: no handler clears. -/
theorem read_back_exact_demo :
    ¬Clears SingleDma.dmaClearAddr (interruptHandlerSingle
        (status (singlePort 0) startArray ((0 : BitVec 32).setWidth 64+SingleDma.dmaClearAddr)
          fun _ => 0)) ∧
      ∃ u,run (DualDma.World.step (constBus 0)) (DualDma.World.init 0 ()) startEvents=some u ∧
        ¬Clears (DualDma.regOffset .one 3) (interruptHandlerDual .one
          (status (dualPort u.dma) startArrays (DualDma.regOffset .one 3) fun _ => 0)) := by
  have hsingle : ∃ w,run (SingleDma.World.step (constBus 0)) ⟨SingleDma.init 0 0,(),[]⟩
      startEvents=some w ∧ registersOf startArray=w.dma.regmem := by
    refine ⟨_,rfl,?_⟩
    funext i
    fin_cases i <;> rfl
  have hdual : ∃ u,run (DualDma.World.step (constBus 0)) (DualDma.World.init 0 ())
      startEvents=some u ∧
        ∀ side,registersOf (startArrays side)=(u.dma.chan side).regAddr := by
    refine ⟨_,rfl,fun side => ?_⟩
    funext i
    cases side <;> fin_cases i <;> rfl
  obtain ⟨w,hw,hm⟩ := hsingle
  obtain ⟨u,hu,ha⟩ := hdual
  obtain ⟨_,hclear,hside⟩ := read_back_exact hw hu hm ha
  exact ⟨fun h => (hclear rfl _).mp h rfl,u,hu,fun h => ((hside .one).2 rfl _).mp h rfl⟩

/-- On both controllers START/CLEAR is one, yet a read with an empty buffer is
answered with success and returns zero, so the handler leaves the interrupt
pending. -/
theorem read_returns_buffer :
    (∃ w,run (SingleDma.World.step (constBus 0)) ⟨SingleDma.init 0 0,(),[]⟩ startEvents=some w ∧
      w.dma.regmem 3=1 ∧ ¬ReadsBack (singlePort 0) startArray 1 (readReg8 0x0c fun _ => 0) ∧
      interruptHandlerSingle (status (singlePort 0) startArray 0x0c fun _ => 0)=[]) ∧
    ∃ u,run (DualDma.World.step (constBus 0)) (DualDma.World.init 0 ()) startEvents=some u ∧
      u.dma.ch1.regAddr 3=1 ∧
      ¬ReadsBack (dualPort u.dma) startArrays 1 (readReg8 0x0c fun _ => 0) ∧
      interruptHandlerDual .one (status (dualPort u.dma) startArrays 0x0c fun _ => 0)=[] := by
  have hzero : ¬Returned 1 (readReg8 0x0c fun _ => 0) := by
    intro h
    have hbyte := h 0 (by decide) (by decide)
    revert hbyte
    decide
  refine ⟨⟨_,rfl,rfl,fun h => ?_,rfl⟩,⟨_,rfl,rfl,fun h => ?_,rfl⟩⟩
  · exact hzero ((readsBack_iff (single_answer 0 _ _) 1).mp h)
  · exact hzero ((readsBack_iff (dual_answer _ _ _) 1).mp h)

end SystemCDma.RegisterReadback
