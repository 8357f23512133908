import SystemCDma.SingleDma
import SystemCDma.DualDma

/-!
# Channel one refines the single-channel controller

The two projects were edited apart: one computes stop flags ahead of its
branches, guards its registers and decodes addresses by comparison, the other
one has neither flags nor guard and divides. As long as the processor does not
write while the guard is closed and nobody programs channel two, both
controllers go through the same states and issue the same transactions on a
byte memory.
-/

namespace SystemCDma.ChannelRefinement

open ByteMemory TlmBus TransferEngine EventRun

/-- What a transaction shows on the bus: a read carries no datum to its target,
so an older word in its buffer does not count. -/
def onBus (t : Txn) : Txn :=
  if t.payload.command=.read then {t with payload := {t.payload with data := 0}} else t

/-- The transactions of each edge of the single-channel controller. -/
def singleIssued (v : SingleDma.World Memory) : List (List Txn) :=
  v.turns.map fun t => t.txns.map onBus

/-- The transactions of each edge of the two-channel controller. -/
def dualIssued (u : DualDma.World Memory) : List (List Txn) :=
  u.rounds.map fun r => (r.one.txns++r.two.txns).map onBus

/-- The relation between the two controllers. -/
structure Agree (v : SingleDma.World Memory) (u : DualDma.World Memory) : Prop where
  /-- SOURCE, TARGET, SIZE, START_CLEAR, the offset and the interrupt. -/
  engine : v.dma.toEngine=u.dma.ch1.toEngine
  /-- The registers. -/
  registers : v.dma.regmem=u.dma.ch1.regAddr
  /-- The memory. -/
  mem : v.mem=u.mem
  /-- The transactions of every edge. -/
  issued : singleIssued v=dualIssued u

/-- The second channel has not been programmed. -/
structure Unused (c : DualDma.Channel) : Prop where
  /-- It is idle. -/
  idle : c.startClear=false
  /-- Its START/CLEAR register is zero. -/
  cleared : c.regAddr 3=0

/-- The condition on a step: a write goes to a register of channel one, and
not while that channel is started with its stop flag clear. -/
def Permitted (u : DualDma.World Memory) : Event Memory → Prop
  | .access p => (∃ i value,p=DualDma.writeReg32 .one i value) ∧
      ¬(u.dma.ch1.startClear=true ∧ u.dma.ch1.stop=false)
  | _ => True

section Edge

variable {bus : Bus Memory}

/-- The two accesses of a moving edge on a byte memory. -/
def wordTxns (e : Engine) (dataS : BitVec 32) (m : Memory) : List Txn :=
  let word := load m (e.source.toNat+e.offset.toNat)
  [⟨e.readPayload dataS,⟨.okResponse,word⟩⟩,⟨e.writePayload word,⟨.okResponse,word⟩⟩]

/-- The buffer before the read does not show on the bus. -/
theorem wordTxns_onBus (e : Engine) (dataS dataS' : BitVec 32) (m : Memory) :
    (wordTxns e dataS m).map onBus=(wordTxns e dataS' m).map onBus := rfl

/-- The read of a moving edge, on a byte memory where every access succeeds. -/
theorem ram_read (hram : bus.IsRam Set.univ) (e : Engine) (dataS : BitVec 32) (m : Memory) :
    bus.bTransport m (e.readPayload dataS)=
      (m,⟨.okResponse,load m (e.source.toNat+e.offset.toNat)⟩) := by
  rw [←address_toNat]
  exact hram.read m _ dataS (Set.subset_univ _)

/-- The write of a moving edge. -/
theorem ram_write (hram : bus.IsRam Set.univ) (e : Engine) (datum : BitVec 32) (m : Memory) :
    bus.bTransport m (e.writePayload datum)=
      (store m (e.target.toNat+e.offset.toNat) datum,⟨.okResponse,datum⟩) := by
  rw [←address_toNat]
  exact hram.write m _ datum (Set.subset_univ _)

/-- An edge of the single-channel controller. -/
theorem single_edge (hram : bus.IsRam Set.univ) (v : SingleDma.World Memory) :
    ∃ v',v.step bus .edge=some v' ∧ v'.dma.toEngine=v.dma.tick v.dma.regmem ∧
      v'.dma.regmem=v.dma.regmem ∧ v'.dma.dmaBaseAddr=v.dma.dmaBaseAddr ∧
      v'.mem=v.dma.copyWord v.mem ∧
      singleIssued v'=singleIssued v++
        [if v.dma.Moving then (wordTxns v.dma.toEngine 0 v.mem).map onBus else []] := by
  by_cases hm : v.dma.Moving
  · obtain ⟨s,hs⟩ := SingleDma.dmaP_move hm (ram_read hram _ _ _) rfl (ram_write hram _ _ _) rfl
    obtain ⟨hengine,hregs,hbase,_⟩ := SingleDma.dmaP_ok hs
    refine ⟨_,by rw [SingleDma.World.step,hs],hengine,hregs,hbase,?_,?_⟩
    · rw [Engine.copyWord,if_pos hm]
    · rw [if_pos hm,singleIssued,List.map_append]
      rfl
  · obtain ⟨s,hs⟩ := SingleDma.dmaP_still bus v.mem hm
    obtain ⟨hengine,hregs,hbase,_⟩ := SingleDma.dmaP_ok hs
    refine ⟨_,by rw [SingleDma.World.step,hs],hengine,hregs,hbase,?_,?_⟩
    · rw [Engine.copyWord_still hm]
    · rw [if_neg hm,singleIssued,List.map_append]
      rfl

/-- The block of the two-channel process on a byte memory. -/
theorem transmit_txns (hram : bus.IsRam Set.univ) (m : Memory) (c : DualDma.Channel)
    (dataS : BitVec 32) :
    (DualDma.transmit1 bus m c.testStop dataS).txns=
      if c.Moving then wordTxns c.toEngine dataS m else [] := by
  rcases (DualDma.transmit_cases bus m c dataS).2 with ⟨hm,_,ht⟩|⟨hm,mem₁,ra,wa,hr,hw,ht⟩
  · rw [if_neg hm,ht]
  · rw [ram_read hram] at hr
    obtain ⟨rfl,rfl⟩ := Prod.mk.inj hr
    have hfill : Answer.fill ⟨.okResponse,load m (c.source.toNat+c.offset.toNat)⟩ dataS=
        load m (c.source.toNat+c.offset.toNat) := rfl
    rw [hfill,ram_write hram] at hw
    obtain ⟨_,rfl⟩ := Prod.mk.inj hw
    rw [if_pos hm,ht]
    rfl

/-- An edge of the two-channel controller whose second channel is unused. -/
theorem dual_edge (hram : bus.IsRam Set.univ) {u : DualDma.World Memory} (h : Unused u.dma.ch2) :
    (u.edge bus).dma.ch1=u.dma.ch1.tick ∧ Unused (u.edge bus).dma.ch2 ∧
      (u.edge bus).mem=u.dma.ch1.copyWord u.mem ∧
      dualIssued (u.edge bus)=dualIssued u++
        [if u.dma.ch1.Moving then (wordTxns u.dma.ch1.toEngine 0 u.mem).map onBus else []] := by
  have hstill := still_idle h.idle
  refine ⟨DualDma.edge_chan bus u .one,?_,?_,?_⟩
  · rw [show (u.edge bus).dma.ch2=u.dma.ch2.tick from DualDma.edge_chan bus u .two]
    refine ⟨?_,h.cleared⟩
    rw [DualDma.Channel.tick,tick_idle _ h.idle,h.cleared]
    rfl
  · rw [DualDma.edge_ram hram fun side _ => ⟨Set.subset_univ _,Set.subset_univ _⟩,
      Engine.copyWord_still hstill]
  · let r := DualDma.transmit1 bus u.mem u.dma.ch1.testStop u.dma.dataS
    have hone : r.txns=if u.dma.ch1.Moving then wordTxns u.dma.ch1.toEngine u.dma.dataS u.mem
        else [] := transmit_txns hram _ _ _
    have htwo : (DualDma.transmit2 bus r.mem u.dma.ch2.testStop r.dataS).txns=[] := by
      rw [DualDma.transmit2_eq]
      exact (DualDma.transmit_issues bus _ u.dma.ch2 _).2.still hstill
    have hrounds : (u.edge bus).rounds=u.rounds++
        [⟨⟨u.dma.ch1.latched u.dma.ch1.regAddr,r.txns⟩,⟨u.dma.ch2.latched u.dma.ch2.regAddr,
          (DualDma.transmit2 bus r.mem u.dma.ch2.testStop r.dataS).txns⟩⟩] := rfl
    rw [dualIssued,hrounds,List.map_append,List.map_singleton]
    dsimp only
    rw [htwo,List.append_nil,hone]
    split
    · rw [wordTxns_onBus _ _ 0]
      rfl
    · rfl

end Edge

section Run

variable {bus : Bus Memory} {v : SingleDma.World Memory} {u u' : DualDma.World Memory}

/-- An edge keeps the relation. -/
theorem agree_edge (hram : bus.IsRam Set.univ) (h : Agree v u) (hunused : Unused u.dma.ch2) :
    ∃ v',v.step bus .edge=some v' ∧ v'.dma.dmaBaseAddr=v.dma.dmaBaseAddr ∧
      Agree v' (u.edge bus) := by
  obtain ⟨v',hstep,hengine,hregs,hbase,hmem,hissued⟩ := single_edge hram v
  obtain ⟨hchan,_,hmem',hissued'⟩ := dual_edge hram hunused
  refine ⟨v',hstep,hbase,?_,?_,?_,?_⟩
  · rw [hengine,hchan,h.engine,h.registers]
    rfl
  · rw [hregs,hchan,h.registers]
    rfl
  · rw [hmem,hmem',h.engine,h.mem]
  · rw [hissued,hissued',h.issued,h.engine,h.mem]

/-- A register write of channel one is the register write of the single-channel
controller at base address zero. -/
theorem writeReg32_same (i : Fin 4) (value : BitVec 32) :
    DualDma.writeReg32 .one i value=SingleDma.writeReg32 0 (SingleDma.regOffset i) value := by
  fin_cases i <;> rfl

/-- A permitted register write keeps the relation: the guard is open, and both
decoders select the same register. -/
theorem agree_access (h : Agree v u) (hbase : v.dma.dmaBaseAddr=0) {p : Payload}
    (hp : Permitted u (.access p)) (hs : u.step bus (.access p)=some u') :
    Agree {v with dma := (SingleDma.bTransport v.dma p).1} u' := by
  obtain ⟨⟨i,value,rfl⟩,hguard⟩ := hp
  obtain ⟨hchan,hrounds⟩ := DualDma.step_chan hs .one
  have hopen : u.dma.ch1.Open := by
    rw [DualDma.Channel.Open,Bool.or_eq_true,Bool.not_eq_true']
    cases hstop : u.dma.ch1.stop with
    | true => exact Or.inl rfl
    | false =>
      refine Or.inr (Bool.eq_false_of_not_eq_true fun hstart => hguard ⟨hstart,hstop⟩)
  have hone : u'.dma.ch1=u.dma.ch1.write i value := by
    rw [DualDma.Channel.access,DualDma.registerWrite_writeReg32] at hchan
    exact hchan
  have hmem : u'.mem=u.mem := by
    cases hs
    rfl
  refine ⟨?_,?_,?_,?_⟩
  · dsimp only
    rw [(SingleDma.bTransport_frame _ _).1,hone,(u.dma.ch1.write_frame i value).1]
    exact h.engine
  · funext j
    rw [hone,DualDma.Channel.write_open hopen,writeReg32_same,←hbase]
    dsimp only
    rw [SingleDma.bTransport_writeReg32,h.registers]
  · exact h.mem.trans hmem.symm
  · rw [dualIssued,hrounds]
    exact h.issued

/-- A write of the first processor leaves the second channel unused. -/
theorem unused_access (h : Unused u.dma.ch2) {p : Payload} (hp : Permitted u (.access p))
    (hs : u.step bus (.access p)=some u') : Unused u'.dma.ch2 := by
  obtain ⟨⟨i,value,rfl⟩,_⟩ := hp
  have hchan := (DualDma.step_chan hs .two).1
  rw [DualDma.Channel.access,show DualDma.Side.two=DualDma.Side.other .one from rfl,
    DualDma.registerWrite_other] at hchan
  rw [show u'.dma.ch2=u.dma.ch2 from hchan]
  exact h

/-- The step lemma of the simulation: a permitted step of the two-channel
controller is a step of the single-channel one. -/
theorem agree_step (hram : bus.IsRam Set.univ) (h : Agree v u) (hbase : v.dma.dmaBaseAddr=0)
    (hunused : Unused u.dma.ch2) {e : Event Memory} (hp : Permitted u e)
    (hs : u.step bus e=some u') :
    ∃ v',v.step bus e=some v' ∧ v'.dma.dmaBaseAddr=0 ∧ Agree v' u' ∧ Unused u'.dma.ch2 := by
  cases e with
  | edge =>
    cases hs
    obtain ⟨v',hstep,hbase',hagree⟩ := agree_edge hram h hunused
    exact ⟨v',hstep,hbase'.trans hbase,hagree,(dual_edge hram hunused).2.1⟩
  | access p =>
    exact ⟨_,rfl,(SingleDma.bTransport_frame _ _).2.1.trans hbase,agree_access h hbase hp hs,
      unused_access hunused hp hs⟩
  | other f =>
    cases hs
    exact ⟨_,rfl,hbase,⟨h.engine,h.registers,congrArg f h.mem,h.issued⟩,hunused⟩

/-- The run lemma of the simulation. -/
theorem agree_run (hram : bus.IsRam Set.univ) {es : List (Event Memory)} (h : Agree v u)
    (hbase : v.dma.dmaBaseAddr=0) (hunused : Unused u.dma.ch2)
    (hp : Along (DualDma.World.step bus) Permitted u es)
    (hrun : run (DualDma.World.step bus) u es=some u') :
    ∃ v',run (SingleDma.World.step bus) v es=some v' ∧ Agree v' u' := by
  induction es generalizing v u with
  | nil =>
    cases hrun
    exact ⟨v,rfl,h⟩
  | cons e es ih =>
    obtain ⟨u₁,hs,hrest⟩ := run_cons_some hrun
    obtain ⟨hpe,hpes⟩ := hp.cons hs
    obtain ⟨v₁,hstep,hbase₁,hagree₁,hunused₁⟩ := agree_step hram h hbase hunused hpe hs
    obtain ⟨v',hrun',hagree⟩ := ih hagree₁ hbase₁ hunused₁ hpes hrest
    exact ⟨v',by rw [run_cons,hstep]; exact hrun',hagree⟩

end Run

/-- Channel one refines the single-channel controller. On a byte memory where
every access succeeds, every run of the two-channel controller from reset in
which register writes go to channel one, and never while it is started with
its stop flag clear, is a run of the single-channel controller. At its end, so
after every step, signals, registers, interrupt, memory and the transactions
of every edge agree. -/
theorem channel_refines {bus : Bus Memory} (hram : bus.IsRam Set.univ) {dataS dataS' : BitVec 32}
    {mem : Memory} {es : List (Event Memory)} {u : DualDma.World Memory}
    (hp : Along (DualDma.World.step bus) Permitted (DualDma.World.init dataS mem) es)
    (hrun : run (DualDma.World.step bus) (DualDma.World.init dataS mem) es=some u) :
    ∃ v,run (SingleDma.World.step bus) ⟨SingleDma.init 0 dataS',mem,[]⟩ es=some v ∧ Agree v u :=
  agree_run hram ⟨rfl,rfl,rfl,rfl⟩ rfl ⟨rfl,rfl⟩ hp hrun

/-- A processor writes a register of channel one at a permitted moment. -/
theorem permitted_writeReg32 {u : DualDma.World Memory} (i : Fin 4) (value : BitVec 32)
    (h : u.dma.ch1.startClear=false ∨ u.dma.ch1.stop=true) :
    Permitted u (.access (DualDma.writeReg32 .one i value)) := by
  refine ⟨⟨i,value,rfl⟩,fun hbusy => ?_⟩
  rcases h with h|h
  · exact Bool.noConfusion (h.symm.trans hbusy.1)
  · exact Bool.noConfusion (h.symm.trans hbusy.2)

/-- One word is requested, moved and cleared. -/
def demoEvents : List (Event Memory) :=
  [.access (DualDma.writeReg32 .one 0 0x200400),.access (DualDma.writeReg32 .one 1 0x300000),
    .access (DualDma.writeReg32 .one 2 4),.access (DualDma.writeReg32 .one 3 1),.edge,.edge,.edge,
    .access (DualDma.writeReg32 .one 3 0),.edge,.edge]

/-- Every write of the demo is permitted. -/
theorem demoEvents_permitted :
    Along (DualDma.World.step (ramBus 0 (2^64+4))) Permitted (DualDma.World.init 0 fun _ => 0)
      demoEvents := by
  refine along_cons (permitted_writeReg32 _ _ (Or.inl rfl)) fun t ht => ?_
  cases ht
  refine along_cons (permitted_writeReg32 _ _ (Or.inl rfl)) fun t ht => ?_
  cases ht
  refine along_cons (permitted_writeReg32 _ _ (Or.inl rfl)) fun t ht => ?_
  cases ht
  refine along_cons (permitted_writeReg32 _ _ (Or.inl rfl)) fun t ht => ?_
  cases ht
  refine along_cons trivial fun t ht => ?_
  cases ht
  refine along_cons trivial fun t ht => ?_
  cases ht
  refine along_cons trivial fun t ht => ?_
  cases ht
  refine along_cons (permitted_writeReg32 _ _ (Or.inr rfl)) fun t ht => ?_
  cases ht
  refine along_cons trivial fun t ht => ?_
  cases ht
  exact along_cons trivial fun t _ => along_nil

/-- The demo of one word goes the same way on both controllers. -/
theorem channel_refines_demo :
    ∃ v u,run (SingleDma.World.step (ramBus 0 (2^64+4))) ⟨SingleDma.init 0 0,fun _ => 0,[]⟩
        demoEvents=some v ∧
      run (DualDma.World.step (ramBus 0 (2^64+4))) (DualDma.World.init 0 fun _ => 0)
        demoEvents=some u ∧ Agree v u := by
  have hrun : ∃ u,run (DualDma.World.step (ramBus 0 (2^64+4))) (DualDma.World.init 0 fun _ => 0)
      demoEvents=some u := ⟨_,rfl⟩
  obtain ⟨u,hu⟩ := hrun
  obtain ⟨v,hv,hagree⟩ :=
    @channel_refines _ (ramBus_isRam_univ le_rfl) 0 0 _ _ u demoEvents_permitted hu
  exact ⟨v,u,hv,hu,hagree⟩

end SystemCDma.ChannelRefinement
