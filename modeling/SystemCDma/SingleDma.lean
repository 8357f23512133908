import SystemCDma.TransferEngine
import SystemCDma.EventRun
import Mathlib.Data.Fin.VecNotation
import Mathlib.Data.Fintype.Basic
import Mathlib.Tactic.FinCases

/-!
# The single-channel controller

The clocked process and the slave port of the first project. The process
checks every response and stops the simulation on an error. The slave port
copies four bytes into the register array whatever the channel is doing; the
control is the shared transfer engine, driven by the register values that an
edge finds.
-/

namespace SystemCDma.SingleDma

open TlmBus TransferEngine EventRun

variable {M : Type*}

/-- The controller: the signals of the process, its interrupt output, the
register array and the read buffer of the process. -/
structure DMA extends Engine where
  /-- Base address of the register window. -/
  dmaBaseAddr : BitVec 32
  /-- The registers SOURCE, TARGET, SIZE and START/CLEAR. -/
  regmem : Registers
  /-- Buffer behind the data pointer of the reads. -/
  dataS : BitVec 32

/-- The error report that ends a simulation, with the transactions the
aborted edge had issued. -/
structure Report where
  /-- Message type. -/
  msgType : String
  /-- Message text. -/
  msg : String
  /-- Transactions issued before the report. -/
  issued : List Txn

/-- The report after a failed access. -/
def responseError (issued : List Txn) : Report :=
  ⟨"TLM-2","Response error from b_transport",issued⟩

/-- The reset section: signals, interrupt and registers become zero. The
base address stays, and the buffer is never cleared. -/
def DMA.reset (s : DMA) : DMA := {s with toEngine := Engine.reset, regmem := fun _ => 0}

/-- The controller after reset, with whatever its buffer holds. -/
def init (dmaBaseAddr dataS : BitVec 32) : DMA :=
  (⟨Engine.reset,dmaBaseAddr,fun _ => 0,dataS⟩ : DMA).reset

/-- One iteration of the clocked process. Signals read their values before
the edge; what is written to them becomes visible with the new state. -/
def dmaP (bus : Bus M) (mem : M) (s : DMA) : Except Report (DMA×M×List Txn) :=
  if !s.startClear then
    .ok ({s with source := s.regmem 0, target := s.regmem 1, size := s.regmem 2,
                 startClear := s.regmem 3!=0, offset := 0, interrupt := false},mem,[])
  else if 0<s.size.setWidth 64-s.offset.setWidth 64 then
    let rd := s.readPayload s.dataS
    let (mem₁,ra) := bus.bTransport mem rd
    if ra.status.isResponseError then .error (responseError [⟨rd,ra⟩])
    else
      let dataS := ra.fill s.dataS
      let dataT := dataS
      let wr := s.writePayload dataT
      let (mem₂,wa) := bus.bTransport mem₁ wr
      if wa.status.isResponseError then .error (responseError [⟨rd,ra⟩,⟨wr,wa⟩])
      else
        .ok ({s with offset := (s.offset.setWidth 64+4).setWidth 32, dataS := dataS},
          mem₂,[⟨rd,ra⟩,⟨wr,wa⟩])
  else .ok ({s with startClear := s.regmem 3!=0, interrupt := true},mem,[])

/-- Index of the register that an address selects: the distance to the base
address in 64 bits, divided by four. -/
def regIndex (dmaBaseAddr : BitVec 32) (address : BitVec 64) : ℕ :=
  ((address-dmaBaseAddr.setWidth 64)/4).toNat

/-- The slave port. A write copies four bytes into the selected register
whatever the process is doing; every access is answered with success. -/
def bTransport (s : DMA) (p : Payload) : DMA×ResponseStatus :=
  if p.command=.write then
    ({s with regmem := memcpy s.regmem (regIndex s.dmaBaseAddr p.address) p.data},.okResponse)
  else (s,.okResponse)

/-- Offset of SOURCE from the base address. -/
def dmaSourceAddr : BitVec 64 := 0x00

/-- Offset of TARGET. -/
def dmaTargetAddr : BitVec 64 := 0x04

/-- Offset of SIZE. -/
def dmaSizeAddr : BitVec 64 := 0x08

/-- Offset of START/CLEAR. -/
def dmaClearAddr : BitVec 64 := 0x0c

/-- The offsets in register order. -/
def regOffset : Fin 4 → BitVec 64 :=
  ![dmaSourceAddr,dmaTargetAddr,dmaSizeAddr,dmaClearAddr]

/-- The payload of a 32-bit register write of a processor at an offset from
the base address. -/
def writeReg32 (dmaBaseAddr : BitVec 32) (offset : BitVec 64) (value : BitVec 32) : Payload :=
  ⟨.write,dmaBaseAddr.setWidth 64+offset,value⟩

/-- The controller, the target of its master port and the edges so far. -/
structure World (M : Type*) where
  /-- The controller. -/
  dma : DMA
  /-- State of the bus target. -/
  mem : M
  /-- What each edge latched and issued, oldest first. -/
  turns : List Turn

/-- One event. An edge whose access failed ends the simulation. -/
def World.step (bus : Bus M) (w : World M) : Event M → Option (World M)
  | .edge =>
    match dmaP bus w.mem w.dma with
    | .error _ => none
    | .ok (dma,mem,txns) => some ⟨dma,mem,w.turns++[⟨w.dma.latched w.dma.regmem,txns⟩]⟩
  | .access p => some {w with dma := (bTransport w.dma p).1}
  | .other f => some {w with mem := f w.mem}

/-- The slave port reaches only the register array. -/
theorem bTransport_frame (s : DMA) (p : Payload) :
    (bTransport s p).1.toEngine=s.toEngine ∧ (bTransport s p).1.dmaBaseAddr=s.dmaBaseAddr ∧
      (bTransport s p).1.dataS=s.dataS := by
  unfold bTransport
  split <;> exact ⟨rfl,rfl,rfl⟩

/-- What a write does to each register. -/
theorem bTransport_regmem (s : DMA) (p : Payload) (i : Fin 4) :
    (bTransport s p).1.regmem i=
      if p.command=.write ∧ i.val=regIndex s.dmaBaseAddr p.address then p.data
      else s.regmem i := by
  unfold bTransport
  by_cases hp : p.command=.write
  · rw [if_pos hp]
    dsimp only [memcpy]
    by_cases hi : i.val=regIndex s.dmaBaseAddr p.address
    · rw [if_pos hi,if_pos ⟨hp,hi⟩]
    · rw [if_neg hi,if_neg (fun h => hi h.2)]
  · rw [if_neg hp,if_neg (fun h => hp h.1)]

/-- A register write of a processor selects the register of its offset. -/
theorem regIndex_writeReg32 (dmaBaseAddr : BitVec 32) (i : Fin 4) (value : BitVec 32) :
    regIndex dmaBaseAddr (writeReg32 dmaBaseAddr (regOffset i) value).address=i.val := by
  dsimp only [regIndex,writeReg32]
  rw [BitVec.add_comm,BitVec.add_sub_cancel]
  fin_cases i <;> rfl

/-- A register write of a processor sets its register and no other. -/
theorem bTransport_writeReg32 (s : DMA) (i j : Fin 4) (value : BitVec 32) :
    (bTransport s (writeReg32 s.dmaBaseAddr (regOffset i) value)).1.regmem j=
      if j=i then value else s.regmem j := by
  rw [bTransport_regmem,regIndex_writeReg32]
  by_cases hj : j=i
  · rw [if_pos hj,if_pos ⟨rfl,congrArg Fin.val hj⟩]
    rfl
  · rw [if_neg hj,if_neg (fun h => hj (Fin.ext h.2))]

/-- Everything an edge can do that does not end the simulation. Only a
moving edge reaches the bus, and its two accesses succeeded. -/
theorem dmaP_ok {bus : Bus M} {mem mem' : M} {s s' : DMA} {txns : List Txn}
    (h : dmaP bus mem s=.ok (s',mem',txns)) :
    s'.toEngine=s.tick s.regmem ∧ s'.regmem=s.regmem ∧ s'.dmaBaseAddr=s.dmaBaseAddr ∧
      ((¬s.Moving ∧ mem'=mem ∧ txns=[]) ∨
        (s.Moving ∧ ∃ mem₁ ra wa,bus.bTransport mem (s.readPayload s.dataS)=(mem₁,ra) ∧
          ra.status.isResponseError=false ∧
          bus.bTransport mem₁ (s.writePayload (ra.fill s.dataS))=(mem',wa) ∧
          txns=[⟨s.readPayload s.dataS,ra⟩,⟨s.writePayload (ra.fill s.dataS),wa⟩])) := by
  unfold dmaP at h
  by_cases hs : s.startClear=true
  · rw [if_neg (by rw [hs]; decide)] at h
    by_cases ho : 0<s.size.setWidth 64-s.offset.setWidth 64
    · have hm : s.Moving := ⟨hs,(stop_test _ _).mp ho⟩
      rw [if_pos ho] at h
      cases hr : bus.bTransport mem (s.readPayload s.dataS) with
      | mk mem₁ ra =>
        simp only [hr] at h
        by_cases hra : ra.status.isResponseError=true
        · rw [if_pos hra] at h
          cases h
        · rw [if_neg hra] at h
          cases hw : bus.bTransport mem₁ (s.writePayload (ra.fill s.dataS)) with
          | mk mem₂ wa =>
            simp only [hw] at h
            by_cases hwa : wa.status.isResponseError=true
            · rw [if_pos hwa] at h
              cases h
            · rw [if_neg hwa] at h
              cases h
              refine ⟨?_,rfl,rfl,Or.inr ⟨hm,mem₁,ra,wa,rfl,Bool.eq_false_of_not_eq_true hra,hw,rfl⟩⟩
              rw [tick_moving _ hm,←offset_step]
    · have he : s.offset=s.size := by
        by_contra hne
        exact ho ((stop_test _ _).mpr hne)
      rw [if_neg ho] at h
      cases h
      exact ⟨(tick_finish _ hs he).symm,rfl,rfl,Or.inl ⟨still_finished he,rfl,rfl⟩⟩
  · have hf := Bool.eq_false_of_not_eq_true hs
    rw [if_pos (by rw [hf]; decide)] at h
    cases h
    exact ⟨(tick_idle _ hf).symm,rfl,rfl,Or.inl ⟨still_idle hf,rfl,rfl⟩⟩

/-- An edge goes through when the channel is not moving data. -/
theorem dmaP_still (bus : Bus M) (mem : M) {s : DMA} (h : ¬s.Moving) :
    ∃ s',dmaP bus mem s=.ok (s',mem,[]) := by
  unfold dmaP
  by_cases hs : s.startClear=true
  · have ho : ¬0<s.size.setWidth 64-s.offset.setWidth 64 :=
      fun hlt => h ⟨hs,(stop_test _ _).mp hlt⟩
    rw [if_neg (by rw [hs]; decide),if_neg ho]
    exact ⟨_,rfl⟩
  · rw [if_pos (by rw [Bool.eq_false_of_not_eq_true hs]; decide)]
    exact ⟨_,rfl⟩

/-- A moving edge goes through when both its accesses succeed. -/
theorem dmaP_move {bus : Bus M} {mem mem₁ mem₂ : M} {s : DMA} {ra wa : Answer} (h : s.Moving)
    (hr : bus.bTransport mem (s.readPayload s.dataS)=(mem₁,ra))
    (hra : ra.status=.okResponse)
    (hw : bus.bTransport mem₁ (s.writePayload ra.data)=(mem₂,wa))
    (hwa : wa.status=.okResponse) :
    ∃ s',dmaP bus mem s=.ok (s',mem₂,[⟨s.readPayload s.dataS,ra⟩,⟨s.writePayload ra.data,wa⟩]) := by
  have hfill : ra.fill s.dataS=ra.data := Answer.fill_ok (by rw [hra]; rfl) _
  unfold dmaP
  rw [if_neg (by rw [h.1]; decide),if_pos ((stop_test _ _).mpr h.2)]
  simp only [hr,hra,ResponseStatus.isResponseError,Bool.false_eq_true,if_false,hfill,hw,hwa]
  exact ⟨_,rfl⟩

/-- What an edge puts on the bus, also when it ends in a report. -/
def issue (bus : Bus M) (mem : M) (s : DMA) : List Txn :=
  match dmaP bus mem s with
  | .ok o => o.2.2
  | .error r => r.issued

/-- A moving edge issues its read, and its write only after the read has
succeeded; every other edge issues nothing. -/
theorem issue_cases (bus : Bus M) (mem : M) (s : DMA) :
    (¬s.Moving ∧ issue bus mem s=[]) ∨
      (s.Moving ∧ ∃ ra,(ra.status.isResponseError=true ∧
          issue bus mem s=[⟨s.readPayload s.dataS,ra⟩]) ∨
        (ra.status.isResponseError=false ∧ ∃ wa,issue bus mem s=
          [⟨s.readPayload s.dataS,ra⟩,⟨s.writePayload (ra.fill s.dataS),wa⟩])) := by
  by_cases hm : s.Moving
  · refine Or.inr ⟨hm,?_⟩
    unfold issue dmaP
    rw [if_neg (by rw [hm.1]; decide),if_pos ((stop_test _ _).mpr hm.2)]
    cases hr : bus.bTransport mem (s.readPayload s.dataS) with
    | mk mem₁ ra =>
      refine ⟨ra,?_⟩
      simp only [hr]
      by_cases hra : ra.status.isResponseError=true
      · rw [if_pos hra]
        exact Or.inl ⟨hra,rfl⟩
      · rw [if_neg hra]
        refine Or.inr ⟨Bool.eq_false_of_not_eq_true hra,?_⟩
        refine ⟨(bus.bTransport mem₁ (s.writePayload (ra.fill s.dataS))).2,?_⟩
        by_cases hwa : (bus.bTransport mem₁ (s.writePayload
            (ra.fill s.dataS))).2.status.isResponseError=true
        · rw [if_pos hwa]
          rfl
        · rw [if_neg hwa]
  · obtain ⟨s',hs⟩ := dmaP_still bus mem hm
    refine Or.inl ⟨hm,?_⟩
    rw [issue,hs]

/-- One step, whatever the event: an edge ticks the engine with the registers
it finds and keeps them; everything else leaves the engine alone. -/
theorem step_engine {bus : Bus M} {w w' : World M} {e : Event M} (h : w.step bus e=some w') :
    w'.dma.dmaBaseAddr=w.dma.dmaBaseAddr ∧
      match e with
      | .edge => w'.dma.toEngine=w.dma.tick w.dma.regmem ∧ w'.dma.regmem=w.dma.regmem
      | .access p => w'.dma=(bTransport w.dma p).1 ∧ w'.dma.toEngine=w.dma.toEngine
      | .other _ => w'.dma=w.dma := by
  cases e with
  | edge =>
    unfold World.step at h
    cases hd : dmaP bus w.mem w.dma with
    | error r => simp only [hd,reduceCtorEq] at h
    | ok o =>
      obtain ⟨s',mem',txns⟩ := o
      simp only [hd] at h
      cases h
      have hk := dmaP_ok hd
      exact ⟨hk.2.2.1,hk.1,hk.2.1⟩
  | access p =>
    cases h
    have hf := bTransport_frame w.dma p
    exact ⟨hf.2.1,rfl,hf.1⟩
  | other f =>
    cases h
    exact ⟨rfl,rfl⟩

/-- What an edge adds to the history: nothing is issued unless data moves,
and a moving edge issues the two accesses of its word. -/
theorem step_edge {bus : Bus M} {w w' : World M} (h : w.step bus .edge=some w') :
    ∃ txns,w'.turns=w.turns++[⟨w.dma.latched w.dma.regmem,txns⟩] ∧
      ((¬w.dma.Moving ∧ w'.mem=w.mem ∧ txns=[]) ∨
        (w.dma.Moving ∧ ∃ ra wa,txns=
          [⟨w.dma.readPayload w.dma.dataS,ra⟩,⟨w.dma.writePayload (ra.fill w.dma.dataS),wa⟩])) := by
  unfold World.step at h
  cases hd : dmaP bus w.mem w.dma with
  | error r => simp only [hd,reduceCtorEq] at h
  | ok o =>
    obtain ⟨s',mem',txns⟩ := o
    simp only [hd] at h
    cases h
    refine ⟨txns,rfl,?_⟩
    rcases (dmaP_ok hd).2.2.2 with hstill|⟨hm,_,ra,wa,_,_,_,ht⟩
    · exact Or.inl hstill
    · exact Or.inr ⟨hm,ra,wa,ht⟩

/-- On a bus where every access succeeds no event is refused. -/
theorem step_total {bus : Bus M} (hok : bus.AllOk) (w : World M) (e : Event M) :
    ∃ w',w.step bus e=some w' := by
  cases e with
  | edge =>
    unfold World.step
    by_cases hm : w.dma.Moving
    · obtain ⟨s,hs⟩ := dmaP_move hm rfl (hok _ _) rfl (hok _ _)
      exact ⟨_,by rw [hs]⟩
    · obtain ⟨s,hs⟩ := dmaP_still bus w.mem hm
      exact ⟨_,by rw [hs]⟩
  | access p => exact ⟨_,rfl⟩
  | other f => exact ⟨_,rfl⟩

/-- The controller is clocked by the transfer engine. -/
theorem clocked (bus : Bus M) :
    Clocked (World.step bus) (fun w => w.dma.toEngine) (fun w => w.dma.regmem)
      (fun w => w.turns) where
  edge := by
    intro w w' h
    obtain ⟨txns,hturns,hissue⟩ := step_edge h
    refine ⟨(step_engine h).2.1,txns,hturns,?_⟩
    rcases hissue with ⟨hm,_,ht⟩|⟨hm,ra,wa,ht⟩
    · exact Or.inl ⟨hm,ht⟩
    · exact Or.inr ⟨hm,w.dma.dataS,ra,wa,ht⟩
  between := by
    intro w w' e h he
    cases e with
    | edge => exact absurd rfl he
    | access p =>
      refine ⟨(step_engine h).2.2,?_⟩
      cases h
      rfl
    | other f =>
      cases h
      exact ⟨rfl,rfl⟩

end SystemCDma.SingleDma
