import SystemCDma.DualDma

/-!
# Non-interference of the two channels

What a processor can see of its channel, its registers, signals, stop flag,
interrupt and the commands and addresses issued on every edge, is a function
of the edges and of the writes to its own registers. Writes to the other
channel, the contents of the memory and the answers of the bus do not enter.
-/

namespace SystemCDma.DualDmaIsolation

open TlmBus TransferEngine EventRun DualDma

variable {M M' : Type*}

/-- What a channel observes of an event. -/
inductive Observed where
  | edge
  | write (i : Fin 4) (value : BitVec 32)
  deriving DecidableEq

/-- An edge and the writes to the own registers are observed, at their place
in the sequence; nothing else is. -/
def observe (side : Side) : Event M → Option Observed
  | .edge => some .edge
  | .access p => (registerWrite side p).map fun v => .write v.1 v.2
  | .other _ => none

/-- What is visible of one channel. -/
structure View where
  /-- Registers, signals, stop flag and interrupt level. -/
  chan : Channel
  /-- The commands and addresses of each edge so far. -/
  accesses : List (List (Command×BitVec 64))

/-- The view of a channel in a world. -/
def view (side : Side) (w : World M) : View :=
  ⟨w.dma.chan side,(w.turns side).map fun t => t.txns.map Txn.access⟩

/-- The commands and addresses of the next edge of a channel. -/
def edgeAccesses (c : Channel) : List (Command×BitVec 64) :=
  if c.Moving then
    [(.read,c.source.setWidth 64+c.offset.setWidth 64),
      (.write,c.target.setWidth 64+c.offset.setWidth 64)]
  else []

/-- How an observed event changes the view. -/
def View.next (v : View) : Observed → View
  | .edge => ⟨v.chan.tick,v.accesses++[edgeAccesses v.chan]⟩
  | .write i value => ⟨v.chan.write i value,v.accesses⟩

/-- The commands and addresses of an edge depend on the channel alone: a
failed read or an older word in the buffer changes only the datum. -/
theorem accesses_of_issues {c : Channel} {txns : List Txn} (h : c.Issues txns) :
    txns.map Txn.access=edgeAccesses c := by
  rcases h with ⟨hm,ht⟩|⟨hm,dataS,ra,wa,ht⟩
  · rw [edgeAccesses,if_neg hm,ht,List.map_nil]
  · rw [edgeAccesses,if_pos hm,ht]
    rfl

/-- The step lemma: a view moves only on observed events, and by a function
of the view and the observation. -/
theorem view_step {bus : Bus M} {w w' : World M} {e : Event M} (side : Side)
    (h : w.step bus e=some w') :
    view side w'=advance View.next (view side w) (observe side e) := by
  cases e with
  | edge =>
    cases h
    obtain ⟨txns,hturns,hi⟩ := edge_turns bus w side
    simp only [view,observe,advance,View.next,edge_chan,hturns,List.map_append,List.map_cons,
      List.map_nil,accesses_of_issues hi]
  | access p =>
    obtain ⟨hchan,hrounds⟩ := step_chan h side
    simp only [view,observe,World.turns,hrounds,hchan,Channel.access]
    cases registerWrite side p with
    | none => rfl
    | some v => rfl
  | other f =>
    cases h
    rfl

/-- Non-interference. Two runs that agree on the edges and on the writes to
the registers of one channel, from worlds that agree on that channel, agree on
everything visible of it; the other channel, the memories and the buses may
differ. Every step of a run ends such a run, so they agree after every step. -/
theorem channel_isolated {bus : Bus M} {bus' : Bus M'} {w v : World M} {w' v' : World M'}
    {es : List (Event M)} {es' : List (Event M')} (side : Side)
    (hstart : view side w=view side w')
    (hobs : es.filterMap (observe side)=es'.filterMap (observe side))
    (h : run (World.step bus) w es=some v) (h' : run (World.step bus') w' es'=some v') :
    v.dma.chan side=v'.dma.chan side ∧
      (v.turns side).map (fun t => t.txns.map Txn.access)=
        (v'.turns side).map fun t => t.txns.map Txn.access := by
  have hv := view_run (fun _ _ _ hs => view_step side hs) h
  have hv' := view_run (fun _ _ _ hs => view_step side hs) h'
  rw [hstart,hobs,←hv'] at hv
  exact ⟨congrArg View.chan hv,congrArg View.accesses hv⟩

/-- One word on channel one, alone and on a bus that answers with zero. -/
def alone : List (Event Unit) :=
  [.access (writeReg32 .one 2 4),.access (writeReg32 .one 3 1),.edge,.edge,.edge]

/-- The same with a request of the other processor in between. -/
def accompanied : List (Event Unit) :=
  [.access (writeReg32 .two 3 1),.access (writeReg32 .one 2 4),.access (writeReg32 .two 2 12),
    .access (writeReg32 .one 3 1),.edge,.edge,.other id,.edge]

/-- The two runs look the same to the first processor. -/
theorem channel_isolated_accompanied :
    ∃ v v',run (World.step (constBus 0)) (World.init 0 ()) alone=some v ∧
      run (World.step (constBus 9)) (World.init 5 ()) accompanied=some v' ∧
      v.dma.chan .one=v'.dma.chan .one := by
  refine ⟨_,_,rfl,rfl,?_⟩
  exact (@channel_isolated Unit Unit (constBus 0) (constBus 9) (World.init 0 ()) _
    (World.init 5 ()) _ alone accompanied .one rfl rfl rfl rfl).1

end SystemCDma.DualDmaIsolation
