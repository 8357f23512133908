import SystemCDma.DualDmaIsolation

/-!
# The symmetry of the two channels

The block of channel two is a hand-edited copy of that of channel one: it
computes its stop flag twice, comes later in the slave port and runs second on
every edge. None of this shows. When all register addresses are exchanged, the
channels exchange their roles.
-/

namespace SystemCDma.DualDmaSymmetry

open TlmBus TransferEngine EventRun DualDma DualDmaIsolation

variable {M : Type*}

/-- Exchange the two register windows. -/
def swapAddress (a : BitVec 64) : BitVec 64 :=
  if a<0x10 then a+0x10 else if a<0x20 then a-0x10 else a

/-- An access to the exchanged address. -/
def swapPayload (p : Payload) : Payload := {p with address := swapAddress p.address}

/-- The same event for the other processor. -/
def swapEvent : Event M → Event M
  | .access p => .access (swapPayload p)
  | e => e

/-- Exchanging twice changes nothing. -/
theorem swapAddress_swap (a : BitVec 64) : swapAddress (swapAddress a)=a := by
  unfold swapAddress
  split_ifs <;> bv_omega

/-- A register address goes to that of the same register of the other side. -/
theorem swapAddress_regOffset (side : Side) (i : Fin 4) :
    swapAddress (regOffset side i)=regOffset side.other i := by
  revert i
  cases side <;> decide

/-- Only register addresses of one side go to those of the other. -/
theorem swapAddress_eq_iff (side : Side) (i : Fin 4) (a : BitVec 64) :
    swapAddress a=regOffset side.other i ↔ a=regOffset side i := by
  constructor
  · intro h
    rw [←swapAddress_swap a,h,←swapAddress_regOffset,swapAddress_swap]
  · intro h
    rw [h,swapAddress_regOffset]

/-- The exchanged access writes the same register of the other side. -/
theorem registerWrite_swap (side : Side) (p : Payload) :
    registerWrite side.other (swapPayload p)=registerWrite side p := by
  have haddr : ∀ i,(swapPayload p).address=regOffset side.other i ↔ p.address=regOffset side i :=
    fun i => swapAddress_eq_iff side i p.address
  by_cases hc : p.command=.write
  · by_cases hreg : ∃ i,p.address=regOffset side i
    · obtain ⟨i,hi⟩ := hreg
      rw [registerWrite_of_address hc hi,
        registerWrite_of_address (p := swapPayload p) hc ((haddr i).mpr hi)]
      rfl
    · rw [registerWrite_none (fun i hi => hreg ⟨i,hi⟩),
        registerWrite_none (fun i hi => hreg ⟨i,(haddr i).mp hi⟩)]
  · rw [registerWrite,registerWrite,if_neg hc,if_neg (show ¬(swapPayload p).command=.write from hc)]

/-- The other channel observes of the exchanged event what the channel
observes of the event. -/
theorem observe_swap (side : Side) (e : Event M) :
    observe side.other (swapEvent e)=observe side e := by
  cases e with
  | edge => rfl
  | access p => exact congrArg (Option.map _) (registerWrite_swap side p)
  | other f => rfl

/-- After reset both channels look alike. -/
theorem view_init (side : Side) (dataS : BitVec 32) (mem : M) :
    view side (World.init dataS mem)=⟨Channel.reset,[]⟩ := by
  cases side <;> rfl

/-- Symmetry. A run from reset and the run of the exchanged events end, so are
after every step, in states in which each channel has the registers, signals,
offset, stop flag and interrupt of the other one, and has issued on each edge
the commands and addresses of the other one. Memories, buses and buffers need
not be the same. -/
theorem channels_symmetric (bus bus' : Bus M) (dataS dataS' : BitVec 32) (mem mem' : M)
    (es : List (Event M)) :
    ∃ u u',run (World.step bus) (World.init dataS mem) es=some u ∧
      run (World.step bus') (World.init dataS' mem') (es.map swapEvent)=some u' ∧
      ∀ side : Side,u'.dma.chan side.other=u.dma.chan side ∧
        (u'.turns side.other).map (fun t => t.txns.map Txn.access)=
          (u.turns side).map fun t => t.txns.map Txn.access := by
  obtain ⟨u,hu⟩ := run_total (step_total bus) (World.init dataS mem) es
  obtain ⟨u',hu'⟩ := run_total (step_total bus') (World.init dataS' mem') (es.map swapEvent)
  refine ⟨u,u',hu,hu',fun side => ?_⟩
  have hobserve : (es.map swapEvent).filterMap (observe side.other)=
      es.filterMap (observe side) := by
    rw [List.filterMap_map]
    exact congrArg (fun f => es.filterMap f) (funext fun e => observe_swap side e)
  have hv := view_run (fun _ _ _ hs => view_step side hs) hu
  have hv' := view_run (fun _ _ _ hs => view_step side.other hs) hu'
  rw [view_init,hobserve,←view_init side dataS mem,←hv] at hv'
  exact ⟨congrArg View.chan hv',congrArg View.accesses hv'⟩

end SystemCDma.DualDmaSymmetry
