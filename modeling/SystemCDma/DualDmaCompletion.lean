import SystemCDma.DualDma
import SystemCDma.TransferAccount

/-!
# Completion of the two-channel controller

When the interrupt of a channel is high, the transactions it issued since its
last latching edge are exactly the words of the latched request, in order and
each once. The other channel, the register writes and the answers of the bus
are arbitrary throughout.
-/

namespace SystemCDma.DualDmaCompletion

open TlmBus TransferEngine TransferAccount EventRun DualDma

variable {M : Type*}

/-- The account of each channel holds after every run from reset. -/
theorem sound_run {bus : Bus M} {dataS : BitVec 32} {mem : M} {es : List (Event M)} {w : World M}
    (h : run (World.step bus) (World.init dataS mem) es=some w) (side : Side) :
    Accounted (w.dma.chan side).toEngine (sinceLatch (w.turns side)) := by
  refine accounted_run (clocked bus side) ?_ h
  cases side <;> exact accounted_reset

/-- Completion soundness. In every reachable state in which the interrupt of a
channel is high, the channel has latched a request whose size is a multiple
of four, the transactions since that latch are its words in order, each once
and with the data that was read, and the signals still hold the request. -/
theorem completion_sound {bus : Bus M} {dataS : BitVec 32} {mem : M} {es : List (Event M)}
    {w : World M} (h : run (World.step bus) (World.init dataS mem) es=some w) (side : Side)
    (hhigh : (w.dma.chan side).interrupt=true) :
    ∃ q txns,sinceLatch (w.turns side)=some (q,txns) ∧ 4∣q.size.toNat ∧
      Moves q.source q.target (q.size.toNat/4) txns ∧
      (w.dma.chan side).source=q.source ∧ (w.dma.chan side).target=q.target ∧
      (w.dma.chan side).size=q.size ∧ (w.dma.chan side).offset=q.size := by
  cases sound_run h side with
  | idle _ hq => exact Bool.noConfusion (hhigh.symm.trans hq)
  | moving _ _ _ _ hp _ _ _ => exact Bool.noConfusion (hhigh.symm.trans hp.quiet)
  | endless hloop => exact Bool.noConfusion (hhigh.symm.trans hloop.quiet)
  | raised q txns hlatch hdone hwords hmoved =>
    exact ⟨q,txns,hlatch,hwords,hmoved,hdone.source,hdone.target,hdone.size,hdone.offset⟩

/-- Two overlapping requests, two words on channel one and one on channel two. -/
def overlap : List (Event Unit) :=
  [.access (writeReg32 .one 0 0x200400),.access (writeReg32 .one 1 0x300000),
    .access (writeReg32 .one 2 8),.access (writeReg32 .one 3 1),.edge,
    .access (writeReg32 .two 0 0x300400),.access (writeReg32 .two 1 0x200000),
    .access (writeReg32 .two 2 4),.access (writeReg32 .two 3 1),.edge,.edge,.edge]

/-- The overlapping requests end with the interrupt of channel one high. -/
theorem completion_sound_overlap :
    ∃ w,run (World.step (constBus 7)) (World.init 0 ()) overlap=some w ∧
      (w.dma.chan .one).interrupt=true ∧
      ∃ q txns,sinceLatch (w.turns .one)=some (q,txns) ∧
        Moves q.source q.target (q.size.toNat/4) txns := by
  refine ⟨_,rfl,rfl,?_⟩
  obtain ⟨q,txns,hlatch,_,hmoved,_⟩ :=
    @completion_sound Unit (constBus 7) 0 () overlap _ rfl .one rfl
  exact ⟨q,txns,hlatch,hmoved⟩

end SystemCDma.DualDmaCompletion
