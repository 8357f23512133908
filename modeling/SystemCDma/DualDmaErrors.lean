import SystemCDma.SingleDma
import SystemCDma.DualDma

/-!
# The error path of the two-channel controller

A failed read leaves the shared buffer as it was, and so does a read that its
target answers with success without moving anything. The single-channel process
checks every response and stops; the two-channel process checks none and
writes what is in the buffer: an older word, or one of the other channel. It
keeps to the data of the current read exactly as long as every read is answered
without an error and fills the buffer.
-/

namespace SystemCDma.DualDmaErrors

open TlmBus TransferEngine EventRun

variable {M : Type*}

/-- Nothing forged: every issued write goes to the current target address and
carries the word of a successful read of the current source address. -/
def Unforged (e : Engine) (txns : List Txn) : Prop :=
  ∀ w∈txns,w.payload.command=.write →
    w.payload.address=e.target.setWidth 64+e.offset.setWidth 64 ∧
      ∃ r∈txns,r.payload.command=.read ∧
        r.payload.address=e.source.setWidth 64+e.offset.setWidth 64 ∧
        r.answer.status.isResponseError=false ∧ w.payload.data=r.answer.data

/-- Every read among some transactions succeeded. -/
def ReadsOk (txns : List Txn) : Prop :=
  ∀ t∈txns,t.payload.command=.read → t.answer.status.isResponseError=false

/-- An edge that issues nothing forges nothing. -/
theorem unforged_nil (e : Engine) : Unforged e [] := by
  intro w hw
  cases hw

/-- The two accesses of a word are unforged exactly if the read succeeded. -/
theorem unforged_word (e : Engine) (dataS : BitVec 32) (ra wa : Answer) :
    Unforged e [⟨e.readPayload dataS,ra⟩,⟨e.writePayload (ra.fill dataS),wa⟩] ↔
      ra.status.isResponseError=false := by
  constructor
  · intro h
    obtain ⟨_,r,hr,hread,_,hok,_⟩ := h ⟨e.writePayload (ra.fill dataS),wa⟩
      (List.mem_cons_of_mem _ List.mem_cons_self) rfl
    rcases List.mem_cons.mp hr with rfl|hr
    · exact hok
    · rw [List.mem_singleton.mp hr] at hread
      cases hread
  · intro hok w hw hwrite
    rcases List.mem_cons.mp hw with rfl|hw
    · cases hwrite
    · rw [List.mem_singleton.mp hw]
      exact ⟨rfl,_,List.mem_cons_self,rfl,rfl,hok,Answer.fill_ok hok dataS⟩

/-- The reads among the two accesses of a word. -/
theorem readsOk_word (e : Engine) (dataS datum : BitVec 32) {ra : Answer} (wa : Answer)
    (h : ra.status.isResponseError=false) :
    ReadsOk [⟨e.readPayload dataS,ra⟩,⟨e.writePayload datum,wa⟩] := by
  intro t ht hread
  rcases List.mem_cons.mp ht with rfl|ht
  · exact h
  · rw [List.mem_singleton.mp ht] at hread
    cases hread

/-- Reads of two lists of transactions. -/
theorem ReadsOk.append {txns txns' : List Txn} (h : ReadsOk txns) (h' : ReadsOk txns') :
    ReadsOk (txns++txns') := by
  intro t ht hread
  rcases List.mem_append.mp ht with ht|ht
  · exact h t ht hread
  · exact h' t ht hread

/-- The single-channel process checks the response of its read before it
writes, so on every bus its writes are unforged. -/
theorem single_unforged (bus : Bus M) (mem : M) (s : SingleDma.DMA) :
    Unforged s.toEngine (SingleDma.issue bus mem s) := by
  rcases SingleDma.issue_cases bus mem s with ⟨_,ht⟩|⟨_,ra,⟨_,ht⟩|⟨hok,wa,ht⟩⟩
  · rw [ht]
    exact unforged_nil _
  · -- The simulation stops with the read alone.
    rw [ht]
    intro w hw hwrite
    rw [List.mem_singleton.mp hw] at hwrite
    cases hwrite
  · rw [ht,unforged_word]
    exact hok

open DualDma

/-- The bus and the shared buffer as the block of a side finds them: channel
one is served first. -/
def found (bus : Bus M) (v : World M) : Side → M×BitVec 32
  | .one => (v.mem,v.dma.dataS)
  | .two =>
    let r := transmit1 bus v.mem v.dma.ch1.testStop v.dma.dataS
    (r.mem,r.dataS)

/-- What the bus answers to the read of a side on the next edge if the buffer
holds `dataS` then. -/
def readAnswer (bus : Bus M) (v : World M) (side : Side) (dataS : BitVec 32) : Answer :=
  (bus.bTransport (found bus v side).1 ((v.dma.chan side).readPayload dataS)).2

/-- The transactions that the block of a side issues on the next edge if the
buffer holds `dataS` when it begins. -/
def blockTxns (bus : Bus M) (v : World M) (side : Side) (dataS : BitVec 32) : List Txn :=
  match side with
  | .one => (transmit1 bus (found bus v .one).1 v.dma.ch1.testStop dataS).txns
  | .two => (transmit2 bus (found bus v .two).1 v.dma.ch2.testStop dataS).txns

/-- The transactions that a side issues on the next edge. -/
def edgeTxns (bus : Bus M) (v : World M) (side : Side) : List Txn :=
  match side with
  | .one => (dmaP bus v.mem v.dma).2.2.1
  | .two => (dmaP bus v.mem v.dma).2.2.2

/-- They are those of its block, with the buffer that the block finds. -/
theorem edgeTxns_block (bus : Bus M) (v : World M) (side : Side) :
    edgeTxns bus v side=blockTxns bus v side (found bus v side).2 := by
  cases side <;> rfl

/-- A side that does not move data issues nothing; one that does reads, and
writes what the buffer holds then. -/
theorem blockTxns_cases (bus : Bus M) (v : World M) (side : Side) :
    (¬(v.dma.chan side).Moving ∧ ∀ dataS,blockTxns bus v side dataS=[]) ∨
      ((v.dma.chan side).Moving ∧ ∀ dataS,∃ wa,blockTxns bus v side dataS=
        [⟨(v.dma.chan side).readPayload dataS,readAnswer bus v side dataS⟩,
          ⟨(v.dma.chan side).writePayload ((readAnswer bus v side dataS).fill dataS),wa⟩]) := by
  have hblock : ∀ dataS,blockTxns bus v side dataS=
      (transmit1 bus (found bus v side).1 (v.dma.chan side).testStop dataS).txns := by
    intro dataS
    cases side with
    | one => rfl
    | two => exact congrArg Served.txns (transmit2_eq bus _ v.dma.ch2 dataS)
  have hcases := fun dataS =>
    (transmit_cases bus (found bus v side).1 (v.dma.chan side) dataS).2
  by_cases hm : (v.dma.chan side).Moving
  · refine Or.inr ⟨hm,fun dataS => ?_⟩
    rcases hcases dataS with ⟨hstill,_⟩|⟨_,_,ra,wa,hr,_,ht⟩
    · exact absurd hm hstill
    · have hra : readAnswer bus v side dataS=ra := congrArg Prod.snd hr
      rw [hblock,hra]
      exact ⟨wa,ht⟩
  · refine Or.inl ⟨hm,fun dataS => ?_⟩
    rcases hcases dataS with ⟨_,_,ht⟩|⟨hmove,_⟩
    · rw [hblock]
      exact ht
    · exact absurd hmove hm

/-- The same of the buffer that the block finds. -/
theorem edgeTxns_cases (bus : Bus M) (v : World M) (side : Side) :
    (¬(v.dma.chan side).Moving ∧ edgeTxns bus v side=[]) ∨
      ((v.dma.chan side).Moving ∧ ∃ dataS wa,edgeTxns bus v side=
        [⟨(v.dma.chan side).readPayload dataS,readAnswer bus v side dataS⟩,
          ⟨(v.dma.chan side).writePayload ((readAnswer bus v side dataS).fill dataS),wa⟩]) := by
  rw [edgeTxns_block]
  rcases blockTxns_cases bus v side with ⟨hm,ht⟩|⟨hm,ht⟩
  · exact Or.inl ⟨hm,ht _⟩
  · exact Or.inr ⟨hm,_,ht _⟩

/-- The payloads of the writes among some transactions. -/
def writes (txns : List Txn) : List Payload :=
  (txns.map (·.payload)).filter (·.command=.write)

/-- Of the two accesses of a word the second is a write. -/
theorem writes_word (e : Engine) (dataS datum : BitVec 32) (ra wa : Answer) :
    writes [⟨e.readPayload dataS,ra⟩,⟨e.writePayload datum,wa⟩]=[e.writePayload datum] := rfl

/-- No value read earlier or by the other channel is written: the writes of a
side on the next edge are the same whatever the buffer holds when its block
begins. -/
def NothingOld (bus : Bus M) (v : World M) (side : Side) : Prop :=
  ∀ dataS,writes (blockTxns bus v side dataS)=writes (edgeTxns bus v side)

/-- The condition on a step: on an edge, the read of every channel that moves
data is answered without an error, and its target puts a word behind the data
pointer. -/
def ReadsAnswered (bus : Bus M) (v : World M) : Event M → Prop
  | .edge => ∀ side,(v.dma.chan side).Moving →
      (readAnswer bus v side (found bus v side).2).status.isResponseError=false ∧
        bus.Fills (found bus v side).1 (v.dma.chan side).readAddress
  | _ => True

/-- On one edge a channel writes only the word of a successful read exactly if
it does not move data or its read succeeds. -/
theorem unforged_edge (bus : Bus M) (v : World M) (side : Side) :
    Unforged (v.dma.chan side).toEngine (edgeTxns bus v side) ↔
      ((v.dma.chan side).Moving →
        (readAnswer bus v side (found bus v side).2).status.isResponseError=false) := by
  rw [edgeTxns_block]
  rcases blockTxns_cases bus v side with ⟨hm,ht⟩|⟨hm,ht⟩
  · rw [ht]
    exact ⟨fun _ h => absurd h hm,fun _ => unforged_nil _⟩
  · obtain ⟨wa,hw⟩ := ht (found bus v side).2
    rw [hw,unforged_word]
    exact ⟨fun h _ => h,fun h => h hm⟩

/-- On one edge a channel writes no older word exactly if it does not move data
or its read fills the buffer. -/
theorem nothingOld_edge (bus : Bus M) (v : World M) (side : Side) :
    NothingOld bus v side ↔ ((v.dma.chan side).Moving →
      bus.Fills (found bus v side).1 (v.dma.chan side).readAddress) := by
  unfold NothingOld
  rw [edgeTxns_block]
  rcases blockTxns_cases bus v side with ⟨hm,ht⟩|⟨hm,ht⟩
  · exact ⟨fun _ h => absurd h hm,fun _ dataS => by rw [ht,ht]⟩
  · -- The datum of the write is the buffer after the read.
    have hwrite : ∀ dataS,writes (blockTxns bus v side dataS)=
        [(v.dma.chan side).writePayload ((readAnswer bus v side dataS).fill dataS)] := by
      intro dataS
      obtain ⟨wa,hw⟩ := ht dataS
      rw [hw,writes_word]
    constructor
    · intro h _
      have hsame : ∀ dataS,(readAnswer bus v side dataS).fill dataS=
          (readAnswer bus v side (found bus v side).2).fill (found bus v side).2 := by
        intro dataS
        have heq := h dataS
        rw [hwrite,hwrite] at heq
        exact congrArg Payload.data (List.cons.inj heq).1
      exact fun dataS dataS' => (hsame dataS).trans (hsame dataS').symm
    · intro h dataS
      have hsame : (readAnswer bus v side dataS).fill dataS=
          (readAnswer bus v side (found bus v side).2).fill (found bus v side).2 := h hm _ _
      rw [hwrite,hwrite,hsame]

/-- When its read succeeds, no read of the edge fails. -/
theorem readsOk_edge (bus : Bus M) (v : World M) (side : Side)
    (h : (v.dma.chan side).Moving →
      (readAnswer bus v side (found bus v side).2).status.isResponseError=false) :
    ReadsOk (edgeTxns bus v side) := by
  rw [edgeTxns_block]
  rcases blockTxns_cases bus v side with ⟨_,ht⟩|⟨hm,ht⟩
  · rw [ht]
    intro t hmem
    cases hmem
  · obtain ⟨wa,hw⟩ := ht (found bus v side).2
    rw [hw]
    exact readsOk_word _ _ _ wa (h hm)

/-- The law of a step: on an edge no channel writes anything but the word of
its own read on that edge. -/
def EdgeUnforged (bus : Bus M) (v : World M) : Event M → Prop
  | .edge => ∀ side,Unforged (v.dma.chan side).toEngine (edgeTxns bus v side) ∧
      NothingOld bus v side
  | _ => True

/-- The law of a state: a high interrupt belongs to a transfer whose reads all
succeeded. -/
def RaisedSound (v : World M) : Prop :=
  ∀ side q txns,(v.dma.chan side).interrupt=true → sinceLatch (v.turns side)=some (q,txns) →
    ReadsOk txns

/-- Along a run no edge writes forged data, and in no state it passes through
is an interrupt high for a transfer with a failed read. -/
def NeverForges (bus : Bus M) (v : World M) (es : List (Event M)) : Prop :=
  Along (World.step bus) (EdgeUnforged bus) v es ∧
    ∀ pre post u,es=pre++post → run (World.step bus) v pre=some u → RaisedSound u

/-- Since the last request of each side was latched no read has failed. -/
def AllReadsOk (v : World M) : Prop :=
  ∀ side q txns,sinceLatch (v.turns side)=some (q,txns) → ReadsOk txns

/-- The turn that an edge adds to the history of a side. -/
theorem edge_turn (bus : Bus M) (v : World M) (side : Side) :
    (v.edge bus).turns side=v.turns side++
      [⟨(v.dma.chan side).latched (v.dma.chan side).regAddr,edgeTxns bus v side⟩] := by
  rw [World.turns,World.edge,List.map_append]
  cases side <;> rfl

/-- The step lemma: a step whose reads succeed keeps the invariant. -/
theorem allReadsOk_step {bus : Bus M} {v u : World M} {e : Event M} (h : AllReadsOk v)
    (hc : ReadsAnswered bus v e) (hs : v.step bus e=some u) : AllReadsOk u := by
  intro side q txns hsince
  by_cases he : e=.edge
  · subst he
    cases hs
    have hedge := readsOk_edge bus v side fun hm => (hc side hm).1
    rw [edge_turn,sinceLatch_snoc] at hsince
    cases hl : (v.dma.chan side).latched (v.dma.chan side).regAddr with
    | some q' =>
      simp only [hl,Option.some.injEq,Prod.mk.injEq] at hsince
      rw [←hsince.2]
      exact hedge
    | none =>
      simp only [hl] at hsince
      obtain ⟨p,hp,heq⟩ := Option.map_eq_some_iff.mp hsince
      rw [←(Prod.mk.inj heq).2]
      exact (h side p.1 p.2 hp).append hedge
  · rw [((clocked bus side).between hs he).2] at hsince
    exact h side q txns hsince

/-- The run lemma: as long as every read succeeds no transfer has a failed one. -/
theorem allReadsOk_run {bus : Bus M} {dataS : BitVec 32} {mem : M} {es : List (Event M)}
    {u : World M} (hok : Along (World.step bus) (ReadsAnswered bus) (World.init dataS mem) es)
    (h : run (World.step bus) (World.init dataS mem) es=some u) : AllReadsOk u := by
  refine run_invariant_along (fun s e t hi hc hs => allReadsOk_step hi hc hs) ?_ hok h
  intro side q txns hsince
  cases hsince

/-- A step forges nothing exactly if it meets the condition. -/
theorem edgeUnforged_iff (bus : Bus M) (v : World M) (e : Event M) :
    EdgeUnforged bus v e ↔ ReadsAnswered bus v e := by
  cases e with
  | edge =>
    refine forall_congr' fun side => ?_
    rw [unforged_edge,nothingOld_edge]
    exact forall_and.symm
  | access p => exact Iff.rfl
  | other f => exact Iff.rfl

/-- On every bus, with any mixture of failing and succeeding accesses of the
two channels: a run from reset never forges data exactly if on each of its
edges every read was answered without an error and filled the buffer. -/
theorem never_forges_exact (bus : Bus M) (dataS : BitVec 32) (mem : M) (es : List (Event M)) :
    NeverForges bus (World.init dataS mem) es ↔
      Along (World.step bus) (ReadsAnswered bus) (World.init dataS mem) es := by
  constructor
  · intro h pre e post u hes hrun
    exact (edgeUnforged_iff bus u e).mp (h.1 pre e post u hes hrun)
  · intro h
    refine ⟨fun pre e post u hes hrun =>
      (edgeUnforged_iff bus u e).mpr (h pre e post u hes hrun),?_⟩
    intro pre post u hes hrun side q txns _ hsince
    have hpre : Along (World.step bus) (ReadsAnswered bus) (World.init dataS mem) pre :=
      h.take hes
    exact allReadsOk_run hpre hrun side q txns hsince

/-- Channel two reads the word 0x2a at 0x200000; channel one is to move two
words from `source` to 0x300000. -/
def mixedEvents (source : BitVec 32) : List (Event ByteMemory.Memory) :=
  [.access (writeReg32 .two 0 0x200000),.access (writeReg32 .two 1 0x200400),
    .access (writeReg32 .two 2 4),.access (writeReg32 .two 3 1),
    .access (writeReg32 .one 0 source),.access (writeReg32 .one 1 0x300000),
    .access (writeReg32 .one 2 8),.access (writeReg32 .one 3 1),.edge,.edge,.edge,.edge]

/-- At 0x0 no memory answers, and both reads of channel one fail. It writes the
word that channel two has read to its own target all the same, and raises its
interrupt. -/
theorem failed_read_forges :
    ∃ u,run (World.step (ramBus 0x200000 0x400000))
        (World.init 0 (ByteMemory.setByte (fun _ => 0) 0x200000 0x2a)) (mixedEvents 0)=some u ∧
      u.mem 0x300004=0x2a ∧ u.dma.ch1.interrupt=true ∧
      ¬NeverForges (ramBus 0x200000 0x400000)
        (World.init 0 (ByteMemory.setByte (fun _ => 0) 0x200000 0x2a)) (mixedEvents 0) := by
  refine ⟨_,rfl,by decide,rfl,fun h => ?_⟩
  have hraised := h.2 (mixedEvents 0) [] _ rfl rfl .one _ _ rfl rfl
  have hread := hraised _ List.mem_cons_self rfl
  cases hread

/-- Both reads of channel one are answered with success, by the register window
at 0x100000. They fill nothing, and again the word that channel two has read is
written for channel one. -/
theorem untouched_read_forges :
    ∃ u,run (World.step (portBus 0x100000 0x200000 0x400000))
        (World.init 0 (ByteMemory.setByte (fun _ => 0) 0x200000 0x2a))
        (mixedEvents 0x100000)=some u ∧
      u.mem 0x300004=0x2a ∧ u.dma.ch1.interrupt=true ∧
      ¬NeverForges (portBus 0x100000 0x200000 0x400000)
        (World.init 0 (ByteMemory.setByte (fun _ => 0) 0x200000 0x2a))
        (mixedEvents 0x100000) := by
  refine ⟨_,rfl,by decide,rfl,fun h => ?_⟩
  -- On the third edge an empty buffer would have been written empty.
  have hlaw := h.1 ((mixedEvents 0x100000).take 10) .edge [.edge] _ rfl rfl
  have hsame := (hlaw .one).2 0
  cases hsame

end SystemCDma.DualDmaErrors
