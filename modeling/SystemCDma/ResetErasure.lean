import SystemCDma.ResetPin
import SystemCDma.SingleDma
import SystemCDma.DualDma

/-!
# What a reset pulse erases

On reset the process of either controller starts again from its first line, so
signals, interrupts and registers become zero in whatever state it is. The
slave port does not look at the pin: it takes register writes while reset is
low. Such a write is seen in the registers until the next edge, and if reset
rises before, the controller starts with it. The read buffer of the process is
not cleared either: a word read before the pulse comes out again if the first
read after it leaves the buffer alone. Without such a write, and with a first
read that fills the buffer, a pulse erases the whole history.
-/

namespace SystemCDma.ResetErasure

open TlmBus TransferEngine EventRun WatchedRun ResetPin
open DualDma (Side)

variable {M : Type*}

/-- The clock edges among the events. -/
def isEdge : Event M → Bool
  | .edge => true
  | _ => false

/-- The reset section of the single-channel process in its surroundings. -/
def singleReset (w : SingleDma.World M) : SingleDma.World M := {w with dma := w.dma.reset}

/-- The reset section of the two-channel process: the signals of both
channels, both interrupts, both register arrays and both stop flags. -/
def dualReset (u : DualDma.World M) : DualDma.World M :=
  {u with dma := ⟨DualDma.Channel.reset,DualDma.Channel.reset,u.dma.dataS⟩}

/-- All control registers are zero and the interrupt is low: the signals are
those of the reset section, and so is the register array. The base address is
fixed. -/
structure SingleCleared (dmaBaseAddr : BitVec 32) (w : SingleDma.World M) : Prop where
  /-- The latched registers, the offset and the interrupt. -/
  engine : w.dma.toEngine=Engine.reset
  /-- The shadow registers. -/
  registers : w.dma.regmem=fun _ => 0
  /-- The base address. -/
  base : w.dma.dmaBaseAddr=dmaBaseAddr

/-- The same of both channels. -/
def DualCleared (u : DualDma.World M) : Prop :=
  ∀ side,u.dma.chan side=DualDma.Channel.reset

/-- A controller started afresh on the memory that it finds, with any word in
the read buffer of its process, which no start sets. -/
def singleFresh (dataS : BitVec 32) (w : SingleDma.World M) : SingleDma.World M :=
  ⟨SingleDma.init w.dma.dmaBaseAddr dataS,w.mem,[]⟩

/-- The same of the two-channel controller. -/
def dualFresh (dataS : BitVec 32) (u : DualDma.World M) : DualDma.World M :=
  DualDma.World.init dataS u.mem

/-- A word is put into the read buffer. -/
def singlePut (dataS : BitVec 32) (w : SingleDma.World M) : SingleDma.World M :=
  {w with dma := {w.dma with dataS := dataS}}

/-- The same of the two-channel controller. -/
def dualPut (dataS : BitVec 32) (u : DualDma.World M) : DualDma.World M :=
  {u with dma := {u.dma with dataS := dataS}}

/-- The single-channel controller as it is watched: its interrupt, and what an
edge shows on the bus, also one that ends in a report. -/
def singleWatched (bus : Bus M) :
    Watched (SingleDma.World M) (Event M) Bool (Command×BitVec 64×Option (BitVec 32)) where
  step := SingleDma.World.step bus
  seen w := w.dma.interrupt
  out w e :=
    match e with
    | .edge => (SingleDma.issue bus w.mem w.dma).map Txn.shown
    | _ => []

/-- The two-channel controller as it is watched: both interrupts, and what an
edge shows on the bus, channel one first. -/
def dualWatched (bus : Bus M) :
    Watched (DualDma.World M) (Event M) (Bool×Bool) (Command×BitVec 64×Option (BitVec 32)) where
  step := DualDma.World.step bus
  seen u := (u.dma.ch1.interrupt,u.dma.ch2.interrupt)
  out u e :=
    match e with
    | .edge =>
      let r := DualDma.dmaP bus u.mem u.dma
      (r.2.2.1++r.2.2.2).map Txn.shown
    | _ => []

/-- The buffer is used on the edges that move data. -/
def SingleUses (w : SingleDma.World M) (e : Event M) : Prop := e=.edge ∧ w.dma.Moving

/-- The same of the two-channel controller, on whose edges either channel may
move data. -/
def DualUses (u : DualDma.World M) (e : Event M) : Prop :=
  e=.edge ∧ (u.dma.ch1.Moving ∨ u.dma.ch2.Moving)

/-- On a moving edge the read returns a word, or it fails and the simulation
ends. -/
def SingleFills (bus : Bus M) (w : SingleDma.World M) (_ : Event M) : Prop :=
  bus.Fails w.mem w.dma.readAddress ∨ bus.Returns w.mem w.dma.readAddress

/-- On a moving edge the first read returns a word: that of channel one, or that
of channel two if only this one moves data. -/
def DualFills (bus : Bus M) (u : DualDma.World M) (_ : Event M) : Prop :=
  if u.dma.ch1.Moving then bus.Returns u.mem u.dma.ch1.readAddress
  else bus.Returns u.mem u.dma.ch2.readAddress

/-- Nothing differs that a step looks at: only the history. -/
def SingleSame (w w' : SingleDma.World M) : Prop := w.dma=w'.dma ∧ w.mem=w'.mem

/-- The same of the two-channel controller. -/
def DualSame (u u' : DualDma.World M) : Prop := u.dma=u'.dma ∧ u.mem=u'.mem

/-- The access leaves registers that are zero as they are: if it writes one of
them, it writes zero. -/
def SingleHarmless (dmaBaseAddr : BitVec 32) : Event M → Prop
  | .access p => ∀ i : Fin 4,p.command=.write →
      i.val=SingleDma.regIndex dmaBaseAddr p.address → p.data=0
  | _ => True

/-- The same for the registers of both channels. -/
def DualHarmless : Event M → Prop
  | .access p => ∀ side i value,DualDma.registerWrite side p=some (i,value) → value=0
  | _ => True

/-- In every state the reset section clears the controller. -/
theorem single_reset (w : SingleDma.World M) :
    SingleCleared w.dma.dmaBaseAddr (singleReset w) :=
  ⟨rfl,rfl,rfl⟩

/-- In every state the reset section clears both channels. -/
theorem dual_reset (u : DualDma.World M) : DualCleared (dualReset u) := by
  intro side
  cases side <;> rfl

/-- An event under reset leaves a cleared controller cleared exactly if it is
harmless. -/
theorem single_held (bus : Bus M) {dmaBaseAddr : BitVec 32} {w : SingleDma.World M} {e : Event M}
    (he : isEdge e=false) (h : SingleCleared dmaBaseAddr w) :
    ∃ t,w.step bus e=some t ∧ (SingleCleared dmaBaseAddr t ↔ SingleHarmless dmaBaseAddr e) := by
  cases e with
  | edge => cases he
  | access p =>
    refine ⟨_,rfl,?_⟩
    have hframe := SingleDma.bTransport_frame w.dma p
    have hreg := SingleDma.bTransport_regmem w.dma p
    rw [h.base,h.registers] at hreg
    constructor
    · intro ht i hc hi
      have hzero := congrFun ht.registers i
      dsimp only at hzero
      rw [hreg,if_pos ⟨hc,hi⟩] at hzero
      exact hzero
    · intro hharm
      refine ⟨hframe.1.trans h.engine,?_,hframe.2.1.trans h.base⟩
      funext i
      dsimp only
      rw [hreg]
      by_cases hp : p.command=.write ∧ i.val=SingleDma.regIndex dmaBaseAddr p.address
      · rw [if_pos hp]
        exact hharm i hp.1 hp.2
      · rw [if_neg hp]
  | other f => exact ⟨_,rfl,⟨fun _ => trivial,fun _ => ⟨h.engine,h.registers,h.base⟩⟩⟩

/-- A write to a reset channel leaves it reset exactly if it writes zero. -/
theorem write_reset_iff (i : Fin 4) (value : BitVec 32) :
    DualDma.Channel.reset.write i value=DualDma.Channel.reset ↔ value=0 := by
  have hopen : DualDma.Channel.reset.Open := rfl
  constructor
  · intro h
    have hreg := DualDma.Channel.write_open hopen i i value
    rw [h,if_pos rfl] at hreg
    exact hreg.symm
  · rintro rfl
    rw [DualDma.Channel.write,if_pos hopen]
    have hsame : memcpy DualDma.Channel.reset.regAddr i 0=DualDma.Channel.reset.regAddr := by
      funext j
      dsimp only [memcpy]
      split <;> rfl
    rw [hsame]

/-- An event under reset leaves cleared channels cleared exactly if it is
harmless. -/
theorem dual_held (bus : Bus M) {u : DualDma.World M} {e : Event M} (he : isEdge e=false)
    (h : DualCleared u) :
    ∃ t,u.step bus e=some t ∧ (DualCleared t ↔ DualHarmless e) := by
  cases e with
  | edge => cases he
  | access p =>
    refine ⟨_,rfl,?_⟩
    have hchan : ∀ side,(DualDma.bTransport u.dma p).1.chan side=
        DualDma.Channel.reset.access side p := by
      intro side
      rw [DualDma.bTransport_chan,h side]
    constructor
    · intro ht side i value hw
      have hreset := (hchan side).symm.trans (ht side)
      rw [DualDma.Channel.access,hw] at hreset
      exact (write_reset_iff i value).mp hreset
    · intro hharm side
      refine (hchan side).trans ?_
      rw [DualDma.Channel.access]
      cases hw : DualDma.registerWrite side p with
      | none => rfl
      | some v => exact (write_reset_iff v.1 v.2).mpr (hharm side v.1 v.2 hw)
  | other f => exact ⟨_,rfl,⟨fun _ => trivial,fun _ => h⟩⟩

/-- A cleared controller is a fresh one but for its history and its buffer. -/
theorem single_fresh {dmaBaseAddr : BitVec 32} (dataS : BitVec 32) (w : SingleDma.World M)
    (h : SingleCleared dmaBaseAddr w) : SingleSame (singlePut dataS w) (singleFresh dataS w) := by
  obtain ⟨⟨e,b,r,d⟩,mem,turns⟩ := w
  obtain ⟨he,hr,_⟩ := h
  subst he hr
  exact ⟨rfl,rfl⟩

/-- Cleared channels are those of a fresh controller. -/
theorem dual_fresh (dataS : BitVec 32) (u : DualDma.World M) (h : DualCleared u) :
    DualSame (dualPut dataS u) (dualFresh dataS u) := by
  obtain ⟨⟨c₁,c₂,d⟩,mem,rounds⟩ := u
  have h₁ : c₁=DualDma.Channel.reset := h .one
  have h₂ : c₂=DualDma.Channel.reset := h .two
  subst h₁ h₂
  exact ⟨rfl,rfl⟩

/-- The history is not seen and influences no step. -/
theorem single_lockstep (bus : Bus M) :
    Lockstep (singleWatched bus) (singleWatched bus) SingleSame := by
  constructor
  · rintro ⟨dma,mem,turns⟩ ⟨_,_,turns'⟩ ⟨rfl,rfl⟩
    rfl
  · rintro ⟨dma,mem,turns⟩ ⟨_,_,turns'⟩ e ⟨rfl,rfl⟩
    rfl
  · rintro ⟨dma,mem,turns⟩ ⟨_,_,turns'⟩ e ⟨rfl,rfl⟩
    cases e with
    | edge =>
      dsimp only [singleWatched,SingleDma.World.step]
      cases SingleDma.dmaP bus mem dma with
      | error _ => trivial
      | ok o => exact ⟨rfl,rfl⟩
    | access p => exact ⟨rfl,rfl⟩
    | other f => exact ⟨rfl,rfl⟩

/-- The same of the two-channel controller. -/
theorem dual_lockstep (bus : Bus M) :
    Lockstep (dualWatched bus) (dualWatched bus) DualSame := by
  constructor
  · rintro ⟨dma,mem,rounds⟩ ⟨_,_,rounds'⟩ ⟨rfl,rfl⟩
    rfl
  · rintro ⟨dma,mem,rounds⟩ ⟨_,_,rounds'⟩ e ⟨rfl,rfl⟩
    rfl
  · rintro ⟨dma,mem,rounds⟩ ⟨_,_,rounds'⟩ e ⟨rfl,rfl⟩
    cases e <;> exact ⟨rfl,rfl⟩

/-- An edge of the single channel that does not move data leaves the buffer
alone. -/
theorem single_still (bus : Bus M) (mem : M) {s : SingleDma.DMA} (h : ¬s.Moving) :
    ∃ s',SingleDma.dmaP bus mem s=.ok (s',mem,[]) ∧ ∀ dataS,
      SingleDma.dmaP bus mem {s with dataS := dataS}=.ok ({s' with dataS := dataS},mem,[]) := by
  unfold SingleDma.dmaP
  by_cases hs : s.startClear=true
  · have ho : ¬0 < s.size.setWidth 64-s.offset.setWidth 64 :=
      fun hlt => h ⟨hs,(stop_test _ _).mp hlt⟩
    simp only [hs,Bool.not_true,Bool.false_eq_true,if_false,ho]
    exact ⟨_,rfl,fun _ => rfl⟩
  · have hf := Bool.eq_false_of_not_eq_true hs
    simp only [hf,Bool.not_false,if_true]
    exact ⟨_,rfl,fun _ => rfl⟩

/-- Until data moves, nothing tells what the buffer of the single channel
holds. -/
theorem single_hidden (bus : Bus M) : Hidden (singleWatched bus) singlePut SingleUses := by
  constructor
  · intro _ _
    rfl
  · intro dataS w e hu
    cases e with
    | edge =>
      obtain ⟨s',hs,hput⟩ := single_still bus w.mem fun hm => hu ⟨rfl,hm⟩
      dsimp only [singleWatched,SingleDma.issue,singlePut]
      rw [hs,hput]
    | access p => rfl
    | other f => rfl
  · intro dataS w e hu
    cases e with
    | edge =>
      obtain ⟨s',hs,hput⟩ := single_still bus w.mem fun hm => hu ⟨rfl,hm⟩
      dsimp only [singleWatched,SingleDma.World.step,singlePut]
      rw [hs,hput]
      rfl
    | access p =>
      dsimp only [singleWatched,SingleDma.World.step,singlePut,SingleDma.bTransport]
      split <;> rfl
    | other f => rfl

/-- An edge of the single channel that moves data, whatever the buffer holds. -/
theorem single_move (bus : Bus M) (mem : M) {s : SingleDma.DMA} (h : s.Moving)
    (dataS : BitVec 32) :
    SingleDma.dmaP bus mem {s with dataS := dataS}=
      let r := bus.bTransport mem (s.readPayload dataS)
      let w := bus.bTransport r.1 (s.writePayload (r.2.fill dataS))
      if r.2.status.isResponseError then
        .error (SingleDma.responseError [⟨s.readPayload dataS,r.2⟩])
      else if w.2.status.isResponseError then
        .error (SingleDma.responseError
          [⟨s.readPayload dataS,r.2⟩,⟨s.writePayload (r.2.fill dataS),w.2⟩])
      else
        .ok ({s with offset := (s.offset.setWidth 64+4).setWidth 32, dataS := r.2.fill dataS},
          w.1,[⟨s.readPayload dataS,r.2⟩,⟨s.writePayload (r.2.fill dataS),w.2⟩]) := by
  unfold SingleDma.dmaP
  rw [if_neg (by rw [h.1]; decide),if_pos ((stop_test _ _).mpr h.2)]

/-- What such an edge shows on the bus: the read, and the write unless the read
fails. -/
theorem single_shown (bus : Bus M) (mem : M) {s : SingleDma.DMA} (h : s.Moving)
    (dataS : BitVec 32) :
    (SingleDma.issue bus mem {s with dataS := dataS}).map Txn.shown=
      let ra := (bus.bTransport mem ⟨.read,s.readAddress,dataS⟩).2
      (.read,s.readAddress,none)::if ra.status.isResponseError then [] else
        [(.write,(s.writePayload 0).address,some (ra.fill dataS))] := by
  rw [SingleDma.issue,single_move bus mem h dataS]
  dsimp only [Engine.readPayload,Engine.readAddress]
  split_ifs <;> rfl

/-- If its read returns a word, the edge shows the same and ends in the same
state whatever the buffer held. -/
theorem single_returned (bus : Bus M) {w : SingleDma.World M} (h : w.dma.Moving)
    (hr : bus.Returns w.mem w.dma.readAddress) (dataS dataS' : BitVec 32) :
    (singleWatched bus).out (singlePut dataS w) .edge=
        (singleWatched bus).out (singlePut dataS' w) .edge ∧
      Together SingleSame ((singleWatched bus).step (singlePut dataS w) .edge)
        ((singleWatched bus).step (singlePut dataS' w) .edge) := by
  constructor
  · dsimp only [singleWatched,singlePut]
    rw [single_shown bus w.mem h,single_shown bus w.mem h]
    dsimp only
    rw [hr.status dataS dataS',hr.fills dataS dataS']
  · have hr₁ : bus.bTransport w.mem (w.dma.readPayload dataS)=
        bus.bTransport w.mem ⟨.read,w.dma.readAddress,dataS⟩ := rfl
    have hr₂ : bus.bTransport w.mem (w.dma.readPayload dataS')=
        bus.bTransport w.mem ⟨.read,w.dma.readAddress,dataS'⟩ := rfl
    dsimp only [singleWatched,singlePut,SingleDma.World.step]
    rw [single_move bus w.mem h,single_move bus w.mem h]
    dsimp only
    rw [hr₁,hr₂,hr.target dataS dataS',hr.status dataS dataS',hr.fills dataS dataS']
    split_ifs
    · trivial
    · trivial
    · exact ⟨rfl,rfl⟩

/-- If its read fails, the edge shows it and the simulation ends, whatever the
buffer held. -/
theorem single_failed (bus : Bus M) {w : SingleDma.World M} (h : w.dma.Moving)
    (hf : bus.Fails w.mem w.dma.readAddress) (dataS dataS' : BitVec 32) :
    (singleWatched bus).out (singlePut dataS w) .edge=
        (singleWatched bus).out (singlePut dataS' w) .edge ∧
      Together SingleSame ((singleWatched bus).step (singlePut dataS w) .edge)
        ((singleWatched bus).step (singlePut dataS' w) .edge) := by
  have hnone : ∀ b,(singleWatched bus).step (singlePut b w) .edge=none := by
    intro b
    have hr : (bus.bTransport w.mem (w.dma.readPayload b)).2.status.isResponseError=true := hf b
    dsimp only [singleWatched,singlePut,SingleDma.World.step]
    rw [single_move bus w.mem h]
    dsimp only
    rw [if_pos hr]
  constructor
  · dsimp only [singleWatched,singlePut]
    rw [single_shown bus w.mem h,single_shown bus w.mem h]
    dsimp only
    rw [if_pos (hf dataS),if_pos (hf dataS')]
  · rw [hnone,hnone]
    trivial

/-- A buffer that is filled on its first use has been hidden. -/
theorem single_fill (bus : Bus M) (dataS : BitVec 32) (w : SingleDma.World M) (e : Event M)
    (hu : SingleUses w e) (hf : SingleFills bus w e) :
    (singleWatched bus).out w e=(singleWatched bus).out (singlePut dataS w) e ∧
      Together SingleSame ((singleWatched bus).step w e)
        ((singleWatched bus).step (singlePut dataS w) e) := by
  obtain ⟨rfl,hm⟩ := hu
  rcases hf with hfails|hreturns
  · exact single_failed bus hm hfails w.dma.dataS dataS
  · exact single_returned bus hm hreturns w.dma.dataS dataS

/-- On a bus that does not look at the buffer, a moving edge that shows the same
whatever it held has a read that fails or fills it. -/
theorem single_shows {bus : Bus M} (hblind : bus.Blind) (w : SingleDma.World M) (e : Event M)
    (hu : SingleUses w e)
    (hs : ∀ dataS,(singleWatched bus).out w e=(singleWatched bus).out (singlePut dataS w) e) :
    SingleFills bus w e := by
  obtain ⟨rfl,hm⟩ := hu
  have hstatus := fun b => (hblind w.mem w.dma.readAddress b w.dma.dataS).2
  by_cases herr : (bus.bTransport w.mem
      ⟨.read,w.dma.readAddress,w.dma.dataS⟩).2.status.isResponseError=true
  · exact Or.inl fun b => by rw [hstatus]; exact herr
  · -- The datum of the write is the buffer after the read.
    have hout : ∀ b,(singleWatched bus).out (singlePut b w) .edge=
        [(.read,w.dma.readAddress,none),(.write,(w.dma.writePayload 0).address,
          some ((bus.bTransport w.mem ⟨.read,w.dma.readAddress,b⟩).2.fill b))] := by
      intro b
      refine (single_shown bus w.mem hm b).trans ?_
      dsimp only
      rw [hstatus,if_neg herr]
    have hsame : ∀ b,(bus.bTransport w.mem ⟨.read,w.dma.readAddress,w.dma.dataS⟩).2.fill
        w.dma.dataS=(bus.bTransport w.mem ⟨.read,w.dma.readAddress,b⟩).2.fill b := by
      intro b
      have heq := ((hout w.dma.dataS).symm.trans (hs b)).trans (hout b)
      simpa using heq
    exact Or.inr (hblind.returns fun b b' => (hsame b).symm.trans (hsame b'))

/-- The block of a channel that does not move data leaves the buffer alone. -/
theorem block_still (bus : Bus M) (mem : M) {c : DualDma.Channel} (h : ¬c.Moving) :
    ∃ c',∀ dataS,DualDma.transmit1 bus mem c.testStop dataS=⟨c',dataS,mem,[]⟩ := by
  unfold DualDma.transmit1
  by_cases hs : c.startClear=true
  · have ho : c.offset=c.size := by
      by_contra hne
      exact h ⟨hs,hne⟩
    have hstart : (!c.testStop.startClear)=false := by rw [DualDma.Channel.testStop,hs]; rfl
    have hstop : c.testStop.stop=true := (DualDma.stopFlag_iff _ _).mpr ho
    simp only [hstart,hstop,Bool.not_true,Bool.false_eq_true,if_false,if_true]
    exact ⟨_,fun _ => rfl⟩
  · have hstart : (!c.testStop.startClear)=true := by
      rw [DualDma.Channel.testStop,Bool.eq_false_of_not_eq_true hs]
      rfl
    simp only [hstart,if_true]
    exact ⟨_,fun _ => rfl⟩

/-- The block of a channel that moves data, whatever the buffer holds. -/
theorem block_move (bus : Bus M) (mem : M) {c : DualDma.Channel} (h : c.Moving)
    (dataS : BitVec 32) :
    DualDma.transmit1 bus mem c.testStop dataS=
      let r := bus.bTransport mem ⟨.read,c.readAddress,dataS⟩
      let w := bus.bTransport r.1 (c.writePayload (r.2.fill dataS))
      ⟨{c.testStop with offset := (c.offset.setWidth 64+4).setWidth 32},r.2.fill dataS,w.1,
        [⟨⟨.read,c.readAddress,dataS⟩,r.2⟩,⟨c.writePayload (r.2.fill dataS),w.2⟩]⟩ := by
  have hstart : (!c.testStop.startClear)=false := by rw [DualDma.Channel.testStop,h.1]; rfl
  have hstop : c.testStop.stop=false :=
    Bool.eq_false_of_not_eq_true fun hs => h.2 ((DualDma.stopFlag_iff _ _).mp hs)
  rw [DualDma.transmit1,if_neg (by rw [hstart]; decide),if_pos (by rw [hstop]; rfl)]
  rfl

/-- What it shows on the bus: the read and the write. -/
theorem block_shown (bus : Bus M) (mem : M) {c : DualDma.Channel} (h : c.Moving)
    (dataS : BitVec 32) :
    (DualDma.transmit1 bus mem c.testStop dataS).txns.map Txn.shown=
      [(.read,c.readAddress,none),(.write,(c.writePayload 0).address,
        some ((bus.bTransport mem ⟨.read,c.readAddress,dataS⟩).2.fill dataS))] := by
  rw [block_move bus mem h]
  rfl

/-- If its read returns a word, nothing of the block depends on what the buffer
held. -/
theorem block_returned (bus : Bus M) {mem : M} {c : DualDma.Channel} (h : c.Moving)
    (hr : bus.Returns mem c.readAddress) (dataS dataS' : BitVec 32) :
    (DualDma.transmit1 bus mem c.testStop dataS).chan=
        (DualDma.transmit1 bus mem c.testStop dataS').chan ∧
      (DualDma.transmit1 bus mem c.testStop dataS).dataS=
        (DualDma.transmit1 bus mem c.testStop dataS').dataS ∧
      (DualDma.transmit1 bus mem c.testStop dataS).mem=
        (DualDma.transmit1 bus mem c.testStop dataS').mem ∧
      (DualDma.transmit1 bus mem c.testStop dataS).txns.map Txn.shown=
        (DualDma.transmit1 bus mem c.testStop dataS').txns.map Txn.shown := by
  rw [block_shown bus mem h,block_shown bus mem h,block_move bus mem h,block_move bus mem h]
  dsimp only
  rw [hr.target dataS dataS',hr.fills dataS dataS']
  exact ⟨rfl,rfl,rfl,rfl⟩

/-- An edge of the two channels, when channel one does not move data: its block
does nothing, and channel two finds the buffer as it was. -/
theorem dual_second (bus : Bus M) (mem : M) {s : DualDma.DMA} (h : ¬s.ch1.Moving) :
    ∃ c₁,∀ dataS,DualDma.dmaP bus mem {s with dataS := dataS}=
      let r := DualDma.transmit1 bus mem s.ch2.testStop dataS
      (⟨c₁,r.chan,r.dataS⟩,r.mem,[],r.txns) := by
  obtain ⟨c₁,h₁⟩ := block_still bus mem h
  refine ⟨c₁,fun dataS => ?_⟩
  dsimp only [DualDma.dmaP]
  rw [h₁,DualDma.transmit2_eq]

/-- An edge on which neither channel moves data leaves the buffer alone. -/
theorem dual_still (bus : Bus M) (mem : M) {s : DualDma.DMA} (h₁ : ¬s.ch1.Moving)
    (h₂ : ¬s.ch2.Moving) :
    ∃ c₁ c₂,∀ dataS,
      DualDma.dmaP bus mem {s with dataS := dataS}=(⟨c₁,c₂,dataS⟩,mem,[],[]) := by
  obtain ⟨c₁,hs⟩ := dual_second bus mem h₁
  obtain ⟨c₂,hc⟩ := block_still bus mem h₂
  exact ⟨c₁,c₂,fun dataS => by rw [hs,hc]⟩

/-- Until data moves, nothing tells what the shared buffer holds. -/
theorem dual_hidden (bus : Bus M) : Hidden (dualWatched bus) dualPut DualUses := by
  constructor
  · intro _ _
    rfl
  · intro dataS u e hu
    cases e with
    | edge =>
      obtain ⟨c₁,c₂,hs⟩ := dual_still bus u.mem (fun hm => hu ⟨rfl,Or.inl hm⟩)
        fun hm => hu ⟨rfl,Or.inr hm⟩
      have hown : DualDma.dmaP bus u.mem u.dma=(⟨c₁,c₂,u.dma.dataS⟩,u.mem,[],[]) := hs u.dma.dataS
      dsimp only [dualWatched,dualPut]
      rw [hs,hown]
    | access p => rfl
    | other f => rfl
  · intro dataS u e hu
    cases e with
    | edge =>
      obtain ⟨c₁,c₂,hs⟩ := dual_still bus u.mem (fun hm => hu ⟨rfl,Or.inl hm⟩)
        fun hm => hu ⟨rfl,Or.inr hm⟩
      have hown : DualDma.dmaP bus u.mem u.dma=(⟨c₁,c₂,u.dma.dataS⟩,u.mem,[],[]) := hs u.dma.dataS
      dsimp only [dualWatched,dualPut,DualDma.World.step,DualDma.World.edge]
      rw [hs,hown]
      rfl
    | access p =>
      dsimp only [dualWatched,dualPut,DualDma.World.step,DualDma.bTransport]
      split_ifs <;> rfl
    | other f => rfl

/-- A shared buffer that is filled on its first use has been hidden. -/
theorem dual_fill (bus : Bus M) (dataS : BitVec 32) (u : DualDma.World M) (e : Event M)
    (hu : DualUses u e) (hf : DualFills bus u e) :
    (dualWatched bus).out u e=(dualWatched bus).out (dualPut dataS u) e ∧
      Together DualSame ((dualWatched bus).step u e)
        ((dualWatched bus).step (dualPut dataS u) e) := by
  obtain ⟨rfl,hm⟩ := hu
  unfold DualFills at hf
  by_cases h₁ : u.dma.ch1.Moving
  · rw [if_pos h₁] at hf
    obtain ⟨hchan,hdata,hmem,hshown⟩ := block_returned bus h₁ hf u.dma.dataS dataS
    dsimp only [dualWatched,dualPut,DualDma.World.step,DualDma.World.edge,DualDma.dmaP]
    rw [List.map_append,List.map_append,hshown,hmem,hdata,hchan]
    exact ⟨rfl,rfl,rfl⟩
  · rw [if_neg h₁] at hf
    have h₂ := hm.resolve_left h₁
    obtain ⟨hchan,hdata,hmem,hshown⟩ := block_returned bus h₂ hf u.dma.dataS dataS
    obtain ⟨c₁,hs⟩ := dual_second bus u.mem h₁
    dsimp only [dualWatched,dualPut,DualDma.World.step,DualDma.World.edge]
    rw [hs,hs]
    dsimp only
    rw [List.nil_append,List.nil_append,hshown,hmem,hdata,hchan]
    exact ⟨rfl,rfl,rfl⟩

/-- On a bus that does not look at the buffer, a moving edge that shows the same
whatever it held fills it. -/
theorem dual_shows {bus : Bus M} (hblind : bus.Blind) (u : DualDma.World M) (e : Event M)
    (hu : DualUses u e)
    (hs : ∀ dataS,(dualWatched bus).out u e=(dualWatched bus).out (dualPut dataS u) e) :
    DualFills bus u e := by
  obtain ⟨rfl,hm⟩ := hu
  unfold DualFills
  by_cases h₁ : u.dma.ch1.Moving
  · rw [if_pos h₁]
    refine hblind.returns ?_
    have hsame : ∀ b,(bus.bTransport u.mem ⟨.read,u.dma.ch1.readAddress,u.dma.dataS⟩).2.fill
        u.dma.dataS=(bus.bTransport u.mem ⟨.read,u.dma.ch1.readAddress,b⟩).2.fill b := by
      intro b
      have heq := hs b
      dsimp only [dualWatched,dualPut,DualDma.dmaP] at heq
      rw [List.map_append,List.map_append,block_shown bus _ h₁,block_shown bus _ h₁] at heq
      simp only [List.cons_append,List.cons.injEq,Prod.mk.injEq,Option.some.injEq] at heq
      exact heq.2.1.2.2
    exact fun b b' => (hsame b).symm.trans (hsame b')
  · rw [if_neg h₁]
    have h₂ := hm.resolve_left h₁
    obtain ⟨c₁,hsecond⟩ := dual_second bus u.mem h₁
    refine hblind.returns ?_
    have hsame : ∀ b,(bus.bTransport u.mem ⟨.read,u.dma.ch2.readAddress,u.dma.dataS⟩).2.fill
        u.dma.dataS=(bus.bTransport u.mem ⟨.read,u.dma.ch2.readAddress,b⟩).2.fill b := by
      intro b
      have heq := hs b
      dsimp only [dualWatched,dualPut] at heq
      rw [hsecond,hsecond] at heq
      dsimp only at heq
      rw [List.nil_append,List.nil_append,block_shown bus _ h₂,block_shown bus _ h₂] at heq
      simp only [List.cons.injEq,Prod.mk.injEq,Option.some.injEq] at heq
      exact heq.2.1.2.2
    exact fun b b' => (hsame b).symm.trans (hsame b')

/-- A pulse erases the history of the single-channel controller: while reset is
low all its registers are zero and its interrupt is low, and over the
continuation it shows the interrupt and the transactions of a fresh one. -/
def SingleErased (bus : Bus M) (p : Pinned (SingleDma.World M)) (held es : List (Event M)) :
    Prop :=
  ClearedThroughout (SingleDma.World.step bus) singleReset isEdge
      (SingleCleared p.state.dma.dmaBaseAddr) p held ∧
    Restarted (singleWatched bus) singleReset isEdge singleFresh p held es

/-- A pulse erases the history of the two-channel controller. -/
def DualErased (bus : Bus M) (p : Pinned (DualDma.World M)) (held es : List (Event M)) : Prop :=
  ClearedThroughout (DualDma.World.step bus) dualReset isEdge DualCleared p held ∧
    Restarted (dualWatched bus) dualReset isEdge dualFresh p held es

/-- The condition on the pulse and the continuation: no value but zero is
written to a register while reset is low, and the first read after it fails or
fills the buffer. -/
def SingleForgets (bus : Bus M) (p : Pinned (SingleDma.World M)) (held es : List (Event M)) :
    Prop :=
  (∀ e∈held,isEdge e=false → SingleHarmless p.state.dma.dmaBaseAddr e) ∧
    RefilledAfter (singleWatched bus) singleReset isEdge SingleUses (SingleFills bus) p held es

/-- The same for the two-channel controller, where the first read has to fill
the buffer: an edge goes on after a failed one. -/
def DualForgets (bus : Bus M) (p : Pinned (DualDma.World M)) (held es : List (Event M)) : Prop :=
  (∀ e∈held,isEdge e=false → DualHarmless e) ∧
    RefilledAfter (dualWatched bus) dualReset isEdge DualUses (DualFills bus) p held es

/-- The registers of the single-channel controller are zero throughout a pulse
exactly if nothing else is written to them. -/
theorem single_cleared_iff (bus : Bus M) (p : Pinned (SingleDma.World M))
    (held : List (Event M)) :
    ClearedThroughout (SingleDma.World.step bus) singleReset isEdge
        (SingleCleared p.state.dma.dmaBaseAddr) p held ↔
      ∀ e∈held,isEdge e=false → SingleHarmless p.state.dma.dmaBaseAddr e := by
  refine clearedThroughout_iff (fun _ hs => ⟨rfl,rfl,hs.base⟩) ?_ (single_reset p.state) held
  intro s e he hs
  exact single_held bus he hs

/-- The same for the two-channel controller. -/
theorem dual_cleared_iff (bus : Bus M) (p : Pinned (DualDma.World M)) (held : List (Event M)) :
    ClearedThroughout (DualDma.World.step bus) dualReset isEdge DualCleared p held ↔
      ∀ e∈held,isEdge e=false → DualHarmless e := by
  refine clearedThroughout_iff (fun s _ => dual_reset s) ?_ (dual_reset p.state) held
  intro s e he hs
  exact dual_held bus he hs

/-- Every reset pulse, in whatever state it finds the controller and whatever
falls between its edges, erases the history of either controller over every
continuation, on every bus, if no value but zero is written to a register while
reset is low and the first read after the pulse fills the buffer (on the single
channel it may also fail). On a bus that does not look at the buffer of a read
it erases it only then. -/
theorem reset_erases_exact (bus : Bus M) :
    (∀ p held es,(SingleForgets bus p held es → SingleErased bus p held es) ∧
      (bus.Blind → SingleErased bus p held es → SingleForgets bus p held es)) ∧
    ∀ p held es,(DualForgets bus p held es → DualErased bus p held es) ∧
      (bus.Blind → DualErased bus p held es → DualForgets bus p held es) := by
  constructor
  · intro p held es
    constructor
    · rintro ⟨hharm,hfills⟩
      have hcleared := (single_cleared_iff bus p held).mpr hharm
      exact ⟨hcleared,restarted_of_refilled (single_hidden bus) (single_lockstep bus)
        single_fresh (single_fill bus) hcleared hfills⟩
    · rintro hblind ⟨hcleared,hrestarted⟩
      exact ⟨(single_cleared_iff bus p held).mp hcleared,
        refilled_of_restarted (single_hidden bus) (single_lockstep bus) single_fresh
          (single_shows hblind) hcleared hrestarted⟩
  · intro p held es
    constructor
    · rintro ⟨hharm,hfills⟩
      have hcleared := (dual_cleared_iff bus p held).mpr hharm
      exact ⟨hcleared,restarted_of_refilled (dual_hidden bus) (dual_lockstep bus)
        dual_fresh (dual_fill bus) hcleared hfills⟩
    · rintro hblind ⟨hcleared,hrestarted⟩
      exact ⟨(dual_cleared_iff bus p held).mp hcleared,
        refilled_of_restarted (dual_hidden bus) (dual_lockstep bus) dual_fresh
          (dual_shows hblind) hcleared hrestarted⟩

/-- A word is moved from `source` by the single-channel controller, or by
channel one. -/
def moveFrom (source target : BitVec 32) : List (Event ByteMemory.Memory) :=
  [.access ⟨.write,0x00,source⟩,.access ⟨.write,0x04,target⟩,.access ⟨.write,0x08,4⟩,
    .access ⟨.write,0x0c,1⟩,.edge,.edge]

/-- A bus with the register window at 0x100000 and a RAM from 0x200000 on. -/
def demoBus : Bus ByteMemory.Memory := portBus 0x100000 0x200000 0x400000

/-- It holds the word 0x2a at 0x200000. -/
def demoMem : ByteMemory.Memory := ByteMemory.setByte (fun _ => 0) 0x200000 0x2a

/-- A pulse in the middle of a transfer, held over two edges with a write of zero
between them. -/
def demoHeld : List (Event ByteMemory.Memory) := [.edge,.access ⟨.write,0x0c,0⟩,.edge]

/-- It erases the history, as the next transfer reads from the RAM. -/
theorem reset_erases_exact_demo :
    (∃ p,run (pinStep (SingleDma.World.step demoBus) singleReset isEdge)
        ⟨false,⟨SingleDma.init 0 0,demoMem,[]⟩⟩ ((moveFrom 0x200000 0x200400).map .plain)=some p ∧
      p.state.dma.startClear=true ∧ p.state.dma.dataS=0x2a ∧
      SingleErased demoBus p demoHeld (moveFrom 0x200004 0x300000)) ∧
    ∃ p,run (pinStep (DualDma.World.step demoBus) dualReset isEdge)
        ⟨false,DualDma.World.init 0 demoMem⟩ ((moveFrom 0x200000 0x200400).map .plain)=some p ∧
      p.state.dma.ch1.startClear=true ∧ p.state.dma.dataS=0x2a ∧
      DualErased demoBus p demoHeld (moveFrom 0x200004 0x300000) := by
  have hreturns : ∀ mem,demoBus.Returns mem 0x200004 :=
    fun mem => (portBus_blind _ _ _).returns fun _ _ => rfl
  have hheld : ∀ e∈demoHeld,isEdge e=false → e=.access ⟨.write,0x0c,0⟩ := by
    intro e he hedge
    simp only [demoHeld,List.mem_cons,List.not_mem_nil,or_false] at he
    rcases he with rfl|rfl|rfl
    · cases hedge
    · rfl
    · cases hedge
  refine ⟨⟨_,rfl,rfl,by decide,?_⟩,⟨_,rfl,rfl,by decide,?_⟩⟩
  · refine ((reset_erases_exact demoBus).1 _ _ _).1 ⟨?_,?_⟩
    · intro e he hedge
      rw [hheld e he hedge]
      exact fun _ _ _ => rfl
    · intro p' hrun
      cases hrun
      -- Four writes and the edge that latches the request move nothing.
      have hwrite : ∀ (w : SingleDma.World ByteMemory.Memory) p,¬SingleUses w (.access p) :=
        fun w p h => nomatch h.1
      refine .skip (hwrite _ _) rfl (.skip (hwrite _ _) rfl (.skip (hwrite _ _) rfl
        (.skip (hwrite _ _) rfl (.skip ?_ rfl (.first _ ⟨rfl,rfl,by decide⟩
          (Or.inr (hreturns _)))))))
      exact fun h => nomatch h.2.1
  · refine ((reset_erases_exact demoBus).2 _ _ _).1 ⟨?_,?_⟩
    · intro e he hedge
      rw [hheld e he hedge]
      intro side i value hw
      cases side with
      | one =>
        cases hw
        rfl
      | two => cases hw
    · intro p' hrun
      cases hrun
      have hwrite : ∀ (u : DualDma.World ByteMemory.Memory) p,¬DualUses u (.access p) :=
        fun u p h => nomatch h.1
      refine .skip (hwrite _ _) rfl (.skip (hwrite _ _) rfl (.skip (hwrite _ _) rfl
        (.skip (hwrite _ _) rfl (.skip ?_ rfl (.first _ ⟨rfl,Or.inl ⟨rfl,by decide⟩⟩ ?_)))))
      · rintro ⟨_,h|h⟩
        · exact nomatch h.1
        · exact nomatch h.1
      · exact (if_pos ⟨rfl,by decide⟩).mpr (hreturns _)

/-- START is written while reset is low. -/
def heldWrite : List (Event Unit) := [.access ⟨.write,0x0c,1⟩]

/-- The write survives the pulse on both controllers: START/CLEAR is one under
reset, and the first edge after it starts a transfer that a fresh controller
would not start. -/
theorem write_survives_reset :
    (∃ p',run (pinStep (SingleDma.World.step (constBus 0)) singleReset isEdge)
        ⟨false,⟨SingleDma.init 0 0,(),[]⟩⟩ (pulse heldWrite++[.plain .edge])=some p' ∧
      p'.state.dma.regmem 3=1 ∧ p'.state.dma.startClear=true ∧
      ¬SingleErased (constBus 0) ⟨false,⟨SingleDma.init 0 0,(),[]⟩⟩ heldWrite [.edge]) ∧
    ∃ p',run (pinStep (DualDma.World.step (constBus 0)) dualReset isEdge)
        ⟨false,DualDma.World.init 0 ()⟩ (pulse heldWrite++[.plain .edge])=some p' ∧
      p'.state.dma.ch1.regAddr 3=1 ∧ p'.state.dma.ch1.startClear=true ∧
      ¬DualErased (constBus 0) ⟨false,DualDma.World.init 0 ()⟩ heldWrite [.edge] := by
  refine ⟨⟨_,rfl,rfl,rfl,fun h => ?_⟩,⟨_,rfl,rfl,rfl,fun h => ?_⟩⟩
  · have hzero := congrFun (h.1 heldWrite [] _ rfl rfl).registers 3
    cases hzero
  · have hzero := congrArg (fun c : DualDma.Channel => c.regAddr 3)
      (h.1 heldWrite [] _ rfl rfl .one)
    cases hzero

/-- The word 0x2a is read before a pulse without any write. After it the first
read goes to the register window at 0x100000, which moves nothing, and 0x2a is
written: a fresh controller writes what its own buffer holds. -/
theorem word_survives_reset :
    (∃ p,run (pinStep (SingleDma.World.step demoBus) singleReset isEdge)
        ⟨false,⟨SingleDma.init 0 0,demoMem,[]⟩⟩ ((moveFrom 0x200000 0x200400).map .plain)=some p ∧
      ¬SingleErased demoBus p [] (moveFrom 0x100000 0x300000)) ∧
    ∃ p,run (pinStep (DualDma.World.step demoBus) dualReset isEdge)
        ⟨false,DualDma.World.init 0 demoMem⟩ ((moveFrom 0x200000 0x200400).map .plain)=some p ∧
      ¬DualErased demoBus p [] (moveFrom 0x100000 0x300000) := by
  refine ⟨⟨_,rfl,fun h => ?_⟩,⟨_,rfl,fun h => ?_⟩⟩
  · -- Against a fresh controller with an empty buffer, at the sixth event.
    have hlast := (h.2 _ rfl 0).2.2.2.2.2.2.2.2.2.2.2.1
    cases hlast
  · have hlast := (h.2 _ rfl 0).2.2.2.2.2.2.2.2.2.2.2.1
    cases hlast

end SystemCDma.ResetErasure
