import SystemCDma.TransferFootprint
import SystemCDma.DualDmaErrors

/-!
# The width of the master port

Both controllers add a 32-bit address and a 32-bit offset in 64 bits. The sum
is the 32-bit one, and so a 32-bit address, as long as it does not reach 2^32.
A transfer of whole words keeps to 32-bit addresses throughout exactly if its
last words lie below that limit; a transfer across it goes on above.
-/

namespace SystemCDma.TransferAddress

open TlmBus TransferEngine EventRun

variable {M : Type*}

/-- The channel is moving the data of this request. -/
structure Transferring (q : Request) (e : Engine) : Prop where
  /-- Data is moved on the next edge. -/
  moving : e.Moving
  /-- The source is the requested one. -/
  source : e.source=q.source
  /-- The target is the requested one. -/
  target : e.target=q.target
  /-- The size is the requested one. -/
  size : e.size=q.size

/-- Every issued address is the 32-bit sum of base and offset: a read goes to
the source, a write to the target, and nothing to an address from 2^32 on. -/
def Port32 (e : Engine) (txns : List Txn) : Prop :=
  ∀ t∈txns,(t.payload.command=.read → t.payload.address=(e.source+e.offset).setWidth 64) ∧
    (t.payload.command=.write → t.payload.address=(e.target+e.offset).setWidth 64) ∧
    t.payload.address.toNat<2^32

/-- The last word of the source and of the target starts below 2^32. -/
def Fits (q : Request) : Prop :=
  q.source.toNat+q.size.toNat<2^32+4 ∧ q.target.toNat+q.size.toNat<2^32+4

instance (q : Request) : Decidable (Fits q) := inferInstanceAs (Decidable (_∧_))

/-- The current word of the source and of the target starts below 2^32. -/
def InPort (e : Engine) : Prop :=
  e.source.toNat+e.offset.toNat<2^32 ∧ e.target.toNat+e.offset.toNat<2^32

/-- The 64-bit sum is the 32-bit one exactly if it does not reach 2^32. -/
theorem address_wrap (a b : BitVec 32) :
    a.setWidth 64+b.setWidth 64=(a+b).setWidth 64 ↔ a.toNat+b.toNat<2^32 := by
  have ha := a.isLt
  have hb := b.isLt
  rw [←BitVec.toNat_inj,address_toNat,BitVec.toNat_setWidth,BitVec.toNat_add]
  omega

/-- An access of the current word inside the port. -/
theorem port32_of_inPort {e : Engine} (h : InPort e) {txns : List Txn}
    (ht : ∀ t∈txns,(∃ d,t.payload=e.readPayload d) ∨ ∃ d,t.payload=e.writePayload d) :
    Port32 e txns := by
  intro t hmem
  rcases ht t hmem with ⟨d,hd⟩|⟨d,hd⟩
  · rw [hd]
    refine ⟨fun _ => (address_wrap _ _).mpr h.1,fun hc => ?_,?_⟩
    · cases hc
    · exact (address_toNat _ _).trans_lt h.1
  · rw [hd]
    refine ⟨fun hc => ?_,fun _ => (address_wrap _ _).mpr h.2,?_⟩
    · cases hc
    · exact (address_toNat _ _).trans_lt h.2

/-- Both accesses of the current word inside the port. -/
theorem inPort_of_port32 {e : Engine} {dataS datum : BitVec 32} {ra wa : Answer}
    (h : Port32 e [⟨e.readPayload dataS,ra⟩,⟨e.writePayload datum,wa⟩]) : InPort e := by
  have hread := (h _ List.mem_cons_self).1 rfl
  have hwrite := (h _ (List.mem_cons_of_mem _ List.mem_cons_self)).2.1 rfl
  exact ⟨(address_wrap _ _).mp hread,(address_wrap _ _).mp hwrite⟩

/-- A started transfer of whole words has moved whole words, at most all. -/
def Aligned (e : Engine) : Prop :=
  e.startClear=true → 4∣e.size.toNat → 4∣e.offset.toNat ∧ e.offset.toNat≤e.size.toNat

/-- An edge keeps a channel aligned. -/
theorem Aligned.tick {e : Engine} (h : Aligned e) (r : Registers) : Aligned (e.tick r) := by
  rcases tick_cases r e with ⟨_,ht⟩|⟨hm,ht⟩|⟨hs,ho,ht⟩
  · rw [ht]
    intro _ _
    exact ⟨⟨0,rfl⟩,Nat.zero_le _⟩
  · rw [ht]
    intro hs hq
    obtain ⟨hdvd,hle⟩ := h hm.1 hq
    have hne : e.offset.toNat≠e.size.toNat := fun he => hm.2 (BitVec.eq_of_toNat_eq he)
    have hlt := e.size.isLt
    have hq' : 4∣e.size.toNat := hq
    simp only [BitVec.toNat_add,BitVec.reduceToNat]
    omega
  · rw [ht]
    intro _ hq
    exact h hs hq

/-- A transfer of whole words that fits stays inside the port. -/
theorem Fits.inPort {q : Request} {e : Engine} (h : Fits q) (hq : 4∣q.size.toNat)
    (ha : Aligned e) (ht : Transferring q e) : InPort e := by
  have hsize := congrArg BitVec.toNat ht.size
  obtain ⟨hdvd,hle⟩ := ha ht.moving.1 (by rw [hsize]; exact hq)
  have hne : e.offset.toNat≠e.size.toNat := fun he => ht.moving.2 (BitVec.eq_of_toNat_eq he)
  obtain ⟨hs,htt⟩ := h
  rw [InPort,ht.source,ht.target]
  omega

/-- A request that fits at its last word fits. -/
theorem fits_of_last {q : Request} {e : Engine} {n : ℕ} (hp : e.Progress q n)
    (hn : q.size.toNat=4*(n+1)) (h : InPort e) : Fits q := by
  obtain ⟨hs,ht⟩ := h
  rw [hp.source,hp.offset] at hs
  rw [hp.target,hp.offset] at ht
  exact ⟨by omega,by omega⟩

/-- A channel in progress below the size is moving the data of its request. -/
theorem transferring_of_progress {q : Request} {e : Engine} {n : ℕ} (hp : e.Progress q n)
    (hn : 4*n≠q.size.toNat) : Transferring q e :=
  ⟨hp.moving_iff.mpr hn,hp.source,hp.target,hp.size⟩

/-- A reset channel is about to latch the request that its registers hold. -/
theorem latched_of_written {q : Request} {r : Registers} {e : Engine} (he : e.startClear=false)
    (hsource : r 0=q.source) (htarget : r 1=q.target) (hsize : r 2=q.size) (hstart : r 3=1) :
    e.latched r=some q := by
  rw [Engine.latched,if_pos ⟨he,by rw [hstart]; decide⟩,request,hsource,htarget,hsize]

section Run

variable {S : Type*} {step : S → Event M → Option S} {engine : S → Engine}
  {registers : S → Registers} {turns : S → List Turn}

/-- A clocked channel stays aligned. -/
theorem aligned_run (hclock : Clocked step engine registers turns) {s t : S}
    {es : List (Event M)} (hs : Aligned (engine s)) (h : run step s es=some t) :
    Aligned (engine t) := by
  have hstep : ∀ u e v,Aligned (engine u) → step u e=some v → Aligned (engine v) := by
    intro u e v hu he
    by_cases hedge : e=.edge
    · subst hedge
      rw [(hclock.edge he).1]
      exact hu.tick _
    · rw [(hclock.between he hedge).1]
      exact hu
  exact run_invariant hstep hs h

/-- A channel that never refuses an edge reaches every word of the request
that it is about to latch. -/
theorem reach_word (hclock : Clocked step engine registers turns)
    (htotal : ∀ s e,∃ t,step s e=some t) {q : Request} {s : S}
    (hl : (engine s).latched (registers s)=some q) {n : ℕ} (hn : 4*n≤q.size.toNat) :
    ∃ t,run step s (.edge::List.replicate n .edge)=some t ∧ (engine t).Progress q n := by
  obtain ⟨u,hu⟩ := htotal s .edge
  obtain ⟨t,ht⟩ := run_total htotal u (List.replicate n .edge)
  have hp : (engine u).Progress q 0 := by
    rw [(hclock.edge hu).1]
    exact progress_latched hl
  have hcount := TransferFootprint.edgeCount_replicate (M := M) n
  have hreach := TransferFootprint.progress_run hclock hp (by rw [hcount]; omega) ht
  rw [hcount,Nat.zero_add] at hreach
  exact ⟨t,by rw [run_cons,hu]; exact ht,hreach⟩

end Run

section Dual

open DualDma DualDmaErrors

/-- Every transaction of an edge of a side is an access of its current word. -/
theorem dual_accesses (bus : Bus M) (u : World M) (side : Side) :
    ∀ t∈edgeTxns bus u side,(∃ d,t.payload=(u.dma.chan side).readPayload d) ∨
      ∃ d,t.payload=(u.dma.chan side).writePayload d := by
  rcases edgeTxns_cases bus u side with ⟨_,ht⟩|⟨_,dataS,wa,ht⟩
  · rw [ht]
    intro t hmem
    cases hmem
  · rw [ht]
    intro t hmem
    rcases List.mem_pair.mp hmem with rfl|rfl
    · exact Or.inl ⟨_,rfl⟩
    · exact Or.inr ⟨_,rfl⟩

/-- The four writes that request a transfer. -/
def dualProgram (side : Side) (q : Request) : List (Event M) :=
  [.access (writeReg32 side 0 q.source),.access (writeReg32 side 1 q.target),
    .access (writeReg32 side 2 q.size),.access (writeReg32 side 3 1)]

/-- After them the channel is about to latch the request. -/
theorem dual_programmed (bus : Bus M) (dataS : BitVec 32) (mem : M) (side : Side) (q : Request) :
    ∃ u,run (World.step bus) (World.init dataS mem) (dualProgram side q)=some u ∧
      (u.dma.chan side).latched (u.dma.chan side).regAddr=some q := by
  let s₁ := (bTransport (init dataS) (writeReg32 side 0 q.source)).1
  let s₂ := (bTransport s₁ (writeReg32 side 1 q.target)).1
  let s₃ := (bTransport s₂ (writeReg32 side 2 q.size)).1
  let s₄ := (bTransport s₃ (writeReg32 side 3 1)).1
  have h₁ : s₁.chan side=((init dataS).chan side).write 0 q.source := bTransport_ownSide _ _ _ _
  have h₂ : s₂.chan side=(s₁.chan side).write 1 q.target := bTransport_ownSide _ _ _ _
  have h₃ : s₃.chan side=(s₂.chan side).write 2 q.size := bTransport_ownSide _ _ _ _
  have h₄ : s₄.chan side=(s₃.chan side).write 3 1 := bTransport_ownSide _ _ _ _
  have hinit : (init dataS).chan side=Channel.reset := by cases side <;> rfl
  refine ⟨⟨s₄,mem,[]⟩,rfl,?_⟩
  dsimp only
  rw [h₄,h₃,h₂,h₁,hinit]
  exact latched_of_written rfl rfl rfl rfl rfl

/-- Every transfer of a request keeps to the port. -/
def DualPort32 (bus : Bus M) (dataS : BitVec 32) (mem : M) (side : Side) (q : Request) : Prop :=
  ∀ es u,run (World.step bus) (World.init dataS mem) es=some u →
    Transferring q (u.dma.chan side).toEngine →
      Port32 (u.dma.chan side).toEngine (edgeTxns bus u side)

/-- On every bus, a channel keeps to 32-bit addresses in all transfers of a
request exactly if the request fits. -/
theorem dual_port32_iff (bus : Bus M) (dataS : BitVec 32) (mem : M) (side : Side) {q : Request}
    (hq : 4∣q.size.toNat) : DualPort32 bus dataS mem side q ↔ Fits q := by
  constructor
  · intro h
    by_cases hz : q.size.toNat=0
    · have hs := q.source.isLt
      have ht := q.target.isLt
      exact ⟨by omega,by omega⟩
    · obtain ⟨v,hv,hl⟩ := dual_programmed bus dataS mem side q
      have hn : q.size.toNat=4*(q.size.toNat/4-1+1) := by omega
      obtain ⟨u,hu,hp⟩ := reach_word (clocked bus side) (step_total bus) hl
        (show 4*(q.size.toNat/4-1)≤q.size.toNat by omega)
      have ht := transferring_of_progress hp (by omega)
      have hport := h _ u (run_trans hv hu) ht
      rcases edgeTxns_cases bus u side with ⟨hm,_⟩|⟨_,dataS',wa,htxns⟩
      · exact absurd ht.moving hm
      · rw [htxns] at hport
        exact fits_of_last hp hn (inPort_of_port32 hport)
  · intro h es u hu ht
    have ha : Aligned (u.dma.chan side).toEngine := by
      refine aligned_run (clocked bus side) ?_ hu
      intro hs
      cases side <;> cases hs
    exact port32_of_inPort (h.inPort hq ha ht) (dual_accesses bus u side)

end Dual

section Single

open SingleDma

/-- Every transaction of an edge is an access of the current word. -/
theorem single_accesses (bus : Bus M) (mem : M) (s : DMA) :
    ∀ t∈issue bus mem s,(∃ d,t.payload=s.readPayload d) ∨ ∃ d,t.payload=s.writePayload d := by
  rcases issue_cases bus mem s with ⟨_,ht⟩|⟨_,ra,⟨_,ht⟩|⟨_,wa,ht⟩⟩
  · rw [ht]
    intro t hmem
    cases hmem
  · rw [ht]
    intro t hmem
    rw [List.mem_singleton.mp hmem]
    exact Or.inl ⟨_,rfl⟩
  · rw [ht]
    intro t hmem
    rcases List.mem_pair.mp hmem with rfl|rfl
    · exact Or.inl ⟨_,rfl⟩
    · exact Or.inr ⟨_,rfl⟩

/-- A bus that answers with success and changes nothing. -/
def silentBus : Bus M := ⟨fun m _ => (m,⟨.okResponse,0⟩)⟩

/-- The four writes that request a transfer. -/
def singleProgram (dmaBaseAddr : BitVec 32) (q : Request) : List (Event M) :=
  [.access (writeReg32 dmaBaseAddr (regOffset 0) q.source),
    .access (writeReg32 dmaBaseAddr (regOffset 1) q.target),
    .access (writeReg32 dmaBaseAddr (regOffset 2) q.size),
    .access (writeReg32 dmaBaseAddr (regOffset 3) 1)]

/-- After them the controller is about to latch the request. -/
theorem single_programmed (bus : Bus M) (dmaBaseAddr dataS : BitVec 32) (mem : M) (q : Request) :
    ∃ w,run (World.step bus) ⟨init dmaBaseAddr dataS,mem,[]⟩ (singleProgram dmaBaseAddr q)=some w ∧
      w.dma.latched w.dma.regmem=some q := by
  let write := fun (s : DMA) i value =>
    (bTransport s (writeReg32 dmaBaseAddr (regOffset i) value)).1
  have hbase : ∀ s i value,s.dmaBaseAddr=dmaBaseAddr → (write s i value).dmaBaseAddr=dmaBaseAddr :=
    fun s i value h => (bTransport_frame s _).2.1.trans h
  have hreg : ∀ s i value j,s.dmaBaseAddr=dmaBaseAddr →
      (write s i value).regmem j=if j=i then value else s.regmem j := by
    intro s i value j h
    subst h
    exact bTransport_writeReg32 s i j value
  let s₀ := init dmaBaseAddr dataS
  let s₁ := write s₀ 0 q.source
  let s₂ := write s₁ 1 q.target
  let s₃ := write s₂ 2 q.size
  have h₁ : s₁.dmaBaseAddr=dmaBaseAddr := hbase s₀ 0 _ rfl
  have h₂ : s₂.dmaBaseAddr=dmaBaseAddr := hbase s₁ 1 _ h₁
  have h₃ : s₃.dmaBaseAddr=dmaBaseAddr := hbase s₂ 2 _ h₂
  refine ⟨⟨write s₃ 3 1,mem,[]⟩,rfl,latched_of_written ?_ ?_ ?_ ?_ ?_⟩
  · have hframe : ∀ s i value,(write s i value).toEngine=s.toEngine :=
      fun s i value => (bTransport_frame s _).1
    rw [hframe,hframe,hframe,hframe]
    rfl
  · rw [hreg s₃ 3 1 0 h₃,hreg s₂ 2 _ 0 h₂,hreg s₁ 1 _ 0 h₁,hreg s₀ 0 _ 0 rfl]
    rfl
  · rw [hreg s₃ 3 1 1 h₃,hreg s₂ 2 _ 1 h₂,hreg s₁ 1 _ 1 h₁]
    rfl
  · rw [hreg s₃ 3 1 2 h₃,hreg s₂ 2 _ 2 h₂]
    rfl
  · rw [hreg s₃ 3 1 3 h₃]
    rfl

/-- On every bus, every transfer of a request keeps to the port, also on an
edge that ends in a report. -/
def SinglePort32 (dmaBaseAddr dataS : BitVec 32) (mem : M) (q : Request) : Prop :=
  ∀ (bus : Bus M) es w,run (World.step bus) ⟨init dmaBaseAddr dataS,mem,[]⟩ es=some w →
    Transferring q w.dma.toEngine → Port32 w.dma.toEngine (issue bus w.mem w.dma)

/-- The controller keeps to 32-bit addresses in all transfers of a request
exactly if the request fits. -/
theorem single_port32_iff (dmaBaseAddr dataS : BitVec 32) (mem : M) {q : Request}
    (hq : 4∣q.size.toNat) : SinglePort32 dmaBaseAddr dataS mem q ↔ Fits q := by
  constructor
  · intro h
    by_cases hz : q.size.toNat=0
    · have hs := q.source.isLt
      have ht := q.target.isLt
      exact ⟨by omega,by omega⟩
    · have hok : (silentBus : Bus M).AllOk := fun _ _ => rfl
      obtain ⟨v,hv,hl⟩ := single_programmed silentBus dmaBaseAddr dataS mem q
      have hn : q.size.toNat=4*(q.size.toNat/4-1+1) := by omega
      obtain ⟨w,hw,hp⟩ := reach_word (clocked silentBus) (step_total hok) hl
        (show 4*(q.size.toNat/4-1)≤q.size.toNat by omega)
      have ht := transferring_of_progress hp (by omega)
      have hport := h silentBus _ w (run_trans hv hw) ht
      obtain ⟨s,hs⟩ := @dmaP_move M silentBus w.mem w.mem w.mem w.dma _ _ ht.moving rfl rfl rfl rfl
      rw [issue,hs] at hport
      exact fits_of_last hp hn (inPort_of_port32 hport)
  · intro h bus es w hw ht
    have ha : Aligned w.dma.toEngine := by
      refine aligned_run (clocked bus) ?_ hw
      intro hs
      cases hs
    exact port32_of_inPort (h.inPort hq ha ht) (single_accesses bus w.mem w.dma)

end Single

/-- The width of the master port, exactly. For every request of whole words,
in all reachable states of its transfers: both controllers, the second one on
each channel and on every bus, issue only the 32-bit addresses of its words if
and only if the last word of the source and that of the target start below
2^32. -/
theorem master_port_exact {q : Request} (hq : 4∣q.size.toNat) (dmaBaseAddr dataS : BitVec 32)
    (mem : M) :
    (SinglePort32 dmaBaseAddr dataS mem q ↔ Fits q) ∧
      ∀ bus side,DualPort32 bus dataS mem side q ↔ Fits q :=
  ⟨single_port32_iff dmaBaseAddr dataS mem hq,fun bus side => dual_port32_iff bus dataS mem side hq⟩

/-- The three words from 0xfff00000 to 0xffff0000 keep to the port. -/
theorem master_port_exact_demo :
    ∃ u,run (DualDma.World.step (constBus 0)) (DualDma.World.init 0 ())
        (dualProgram .two ⟨0xfff00000,0xffff0000,12⟩++[.edge])=some u ∧
      Port32 u.dma.ch2.toEngine (DualDmaErrors.edgeTxns (constBus 0) u .two) := by
  have h := (master_port_exact (q := ⟨0xfff00000,0xffff0000,12⟩) ⟨3,rfl⟩ 0 0 ()).2 (constBus 0) .two
  exact ⟨_,rfl,h.mpr (by decide) (dualProgram .two ⟨0xfff00000,0xffff0000,12⟩++[.edge]) _ rfl
    ⟨by decide,rfl,rfl,rfl⟩⟩

/-- Two words from 0xfffffffc on: the second read goes to 2^32, on both
controllers, and not to the 32-bit sum, which is zero. -/
theorem port_overrun :
    (∃ w,run (SingleDma.World.step (constBus 0)) ⟨SingleDma.init 0 0,(),[]⟩
        (singleProgram 0 ⟨0xfffffffc,0x100,8⟩++[.edge,.edge])=some w ∧
      Transferring ⟨0xfffffffc,0x100,8⟩ w.dma.toEngine ∧
      (w.dma.readPayload w.dma.dataS).address=0x100000000 ∧
      ¬Port32 w.dma.toEngine (SingleDma.issue (constBus 0) w.mem w.dma)) ∧
    ∃ u,run (DualDma.World.step (constBus 0)) (DualDma.World.init 0 ())
        (dualProgram .one ⟨0xfffffffc,0x100,8⟩++[.edge,.edge])=some u ∧
      Transferring ⟨0xfffffffc,0x100,8⟩ u.dma.ch1.toEngine ∧
      (u.dma.ch1.readPayload u.dma.dataS).address=0x100000000 ∧
      ¬Port32 u.dma.ch1.toEngine (DualDmaErrors.edgeTxns (constBus 0) u .one) := by
  refine ⟨⟨_,rfl,⟨by decide,rfl,rfl,rfl⟩,rfl,fun h => ?_⟩,
    ⟨_,rfl,⟨by decide,rfl,rfl,rfl⟩,rfl,fun h => ?_⟩⟩
  · have hlt := (h _ List.mem_cons_self).2.2
    revert hlt
    decide
  · have hlt := (h _ List.mem_cons_self).2.2
    revert hlt
    decide

end SystemCDma.TransferAddress
