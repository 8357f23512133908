import SystemCDma.BurstDriver

/-!
# The burst loop of the first processor

The main program of the first processor is a list of bursts, each followed by
`wfi`, composed with the two-channel controller. For every interleaving with
clock edges and with writes of the other processor, and whatever the handler
reads, the bursts are executed once each, in order. The program may still
hang: an interrupt that rises before `wfi` is reached is handled and gone when
the processor goes to sleep.
-/

namespace SystemCDma.BurstLoop

open TlmBus TransferEngine EventRun DualDma BurstDriver

variable {M : Type*}

/-- A call of the burst function; its callers copy whole words. -/
structure Burst extends Request where
  /-- The number of bytes is a multiple of four. -/
  words : 4∣size.toNat

/-- The operation at a place of the list. -/
def burstAt (bursts : List Burst) (i : ℕ) : Op :=
  match bursts[i]? with
  | some b => .burst b.toRequest
  | none => .halt

/-- An operation of the list that bursts is one of its bursts. -/
theorem burstAt_burst {bursts : List Burst} {i : ℕ} {q : Request}
    (h : burstAt bursts i=.burst q) : ∃ b,bursts[i]?=some b ∧ b.toRequest=q := by
  unfold burstAt at h
  cases hb : bursts[i]? with
  | some b =>
    rw [hb] at h
    exact ⟨b,rfl,Op.burst.inj h⟩
  | none =>
    rw [hb] at h
    cases h

/-- A list of bursts, each followed by `wfi`, with interrupts enabled. -/
def burstLoop (bursts : List Burst) : Program ℕ where
  fetch := burstAt bursts
  advance i := i+1
  enabled _ := true
  burst_enabled := fun _ _ _ => rfl
  burst_words := by
    intro i q h
    obtain ⟨b,_,rfl⟩ := burstAt_burst h
    exact b.words

/-- The controller and the first processor. -/
structure Platform (M : Type*) where
  /-- The controller and its surroundings. -/
  world : World M
  /-- The first processor. -/
  core : Core ℕ

/-- A step of the first processor with the byte its reads return, an edge, a
register write of the second processor, or another master. -/
inductive Act (M : Type*) where
  | cpu1 (byte : BitVec 8)
  | edge
  | cpu2 (i : Fin 4) (value : BitVec 32)
  | other (f : M → M)

/-- A write of a processor; the burst loop writes registers only. -/
def perform (w : World M) (side : Side) (access : Option Access) : World M :=
  {w with dma := drive w.dma side access}

/-- One step of the platform. -/
def Platform.step (bus : Bus M) (bursts : List Burst) (s : Platform M) :
    Act M → Option (Platform M)
  | .cpu1 byte =>
    (s.core.step (burstLoop bursts) .one s.world.dma.ch1.interrupt (fun _ => byte)).map fun r =>
      ⟨perform s.world .one r.2,r.1⟩
  | .edge => some {s with world := s.world.edge bus}
  | .cpu2 i value => some {s with world := perform s.world .two (some (.register i value))}
  | .other f => some {s with world := {s.world with mem := f s.world.mem}}

/-- The platform after reset, with the main program at its first burst. -/
def Platform.init (dataS : BitVec 32) (mem : M) : Platform M :=
  ⟨World.init dataS mem,⟨0,.write 0,.run⟩⟩

/-- The transactions of a list of requests, each executed once and completely,
in order. -/
inductive Performed : List Request → List Txn → Prop
  | nil : Performed [] []
  | snoc {qs : List Request} {txns current : List Txn} {q : Request} (before : Performed qs txns)
      (last : Moves q.source q.target (q.size.toNat/4) current) :
      Performed (qs++[q]) (txns++current)

/-- The account of a platform: the bursts before the current one have been
performed, and of the current one as many words as the joint invariant says. -/
structure Account (bursts : List Burst) (s : Platform M) : Prop where
  /-- Program, handler and channel agree, and so does the bus. -/
  agreed : ∃ n done current,Ready (burstLoop bursts) s.core n s.world.dma.ch1 ∧
    s.world.issued .one=done++current ∧
    Performed ((bursts.take s.core.pc).map Burst.toRequest) done ∧
    match bursts[s.core.pc]? with
    | some b => Moves b.source b.target n current
    | none => current=[]

/-- What an edge adds to the transactions of channel one. -/
theorem edge_issued (bus : Bus M) (w : World M) :
    ∃ txns,(w.edge bus).issued .one=w.issued .one++txns ∧ w.dma.ch1.Issues txns := by
  obtain ⟨txns,hturns,hi⟩ := edge_turns bus w .one
  refine ⟨txns,?_,hi⟩
  rw [World.issued,hturns,List.flatMap_append]
  simp only [List.flatMap_cons,List.flatMap_nil,List.append_nil,World.issued]

/-- A write of the first processor reaches channel one. -/
theorem perform_ch1 (w : World M) (access : Option Access) :
    (perform w .one access).dma.ch1=serve w.dma.ch1 access := drive_chan w.dma .one access

/-- A write of the second processor leaves channel one alone. -/
theorem cpu2_ch1 (w : World M) (access : Option Access) :
    (perform w .two access).dma.ch1=w.dma.ch1 := drive_other w.dma .two access

section Step

variable {bus : Bus M} {bursts : List Burst} {s s' : Platform M}

/-- An edge moves the next word of the current burst, or no word. -/
theorem account_edge (h : Account bursts s) (hs : s.step bus bursts .edge=some s') :
    Account bursts s' := by
  cases hs
  obtain ⟨n,done,current,hready,hissued,hdone,hcurrent⟩ := h.agreed
  obtain ⟨txns,hnew,hi⟩ := edge_issued bus s.world
  have hchan : (s.world.edge bus).dma.ch1=s.world.dma.ch1.tick := edge_chan bus s.world .one
  rcases hready.tick with ⟨hm,hnext,q,hfetch,hp,_⟩|⟨hm,hnext⟩
  · obtain ⟨b,hb,rfl⟩ := burstAt_burst hfetch
    obtain ⟨r,w,ht,hword⟩ := hi.wordMove hp hm
    refine ⟨n+1,done,current++[r,w],?_,?_,hdone,?_⟩
    · dsimp only
      rw [hchan]
      exact hnext
    · dsimp only
      rw [hnew,hissued,ht,List.append_assoc]
    · dsimp only
      rw [hb] at hcurrent ⊢
      exact hcurrent.snoc hword
  · refine ⟨n,done,current,?_,?_,hdone,hcurrent⟩
    · dsimp only
      rw [hchan]
      exact hnext
    · dsimp only
      rw [hnew,hissued,hi.still hm,List.append_nil]

/-- A step of the first processor stays in its burst, or finishes it with all
its words moved. -/
theorem account_cpu1 {byte : BitVec 8} (h : Account bursts s)
    (hs : s.step bus bursts (.cpu1 byte)=some s') : Account bursts s' := by
  obtain ⟨⟨k,access⟩,hk,he⟩ := Option.map_eq_some_iff.mp hs
  subst he
  obtain ⟨n,done,current,hready,hissued,hdone,hcurrent⟩ := h.agreed
  have hchan := perform_ch1 s.world access
  have hsame : (perform s.world .one access).issued .one=done++current := hissued
  rcases (hready.step hk).outcome with ⟨hpc,hnext,_⟩|⟨hgo,hnext,hfinish⟩
  · refine ⟨n,done,current,?_,hsame,?_,?_⟩
    · dsimp only
      rw [hchan]
      exact hnext
    · dsimp only
      rw [hpc]
      exact hdone
    · dsimp only
      rw [hpc]
      exact hcurrent
  · subst hgo
    refine ⟨0,done++current,[],?_,?_,?_,?_⟩
    · dsimp only
      rw [hchan]
      exact hnext
    · rw [List.append_nil]
      exact hsame
    · dsimp only [Core.next,burstLoop]
      cases hb : bursts[s.core.pc]? with
      | none => simp only [Done,burstLoop,burstAt,hb] at hfinish
      | some b =>
        simp only [Done,burstLoop,burstAt,hb] at hfinish
        rw [hb] at hcurrent
        rw [List.take_add_one,hb,Option.toList_some,List.map_append]
        refine hdone.snoc ?_
        rw [←hfinish.1]
        exact hcurrent
    · dsimp only
      split
      · exact .nil
      · rfl

/-- The step lemma of the account. -/
theorem account_step {a : Act M} (h : Account bursts s) (hs : s.step bus bursts a=some s') :
    Account bursts s' := by
  cases a with
  | cpu1 byte => exact account_cpu1 h hs
  | edge => exact account_edge h hs
  | cpu2 i value =>
    cases hs
    obtain ⟨n,done,current,hready,hrest⟩ := h.agreed
    refine ⟨n,done,current,?_,hrest⟩
    dsimp only
    rw [cpu2_ch1]
    exact hready
  | other f =>
    cases hs
    exact ⟨h.agreed⟩

end Step

/-- The account of the platform after reset. -/
theorem account_init (bursts : List Burst) (dataS : BitVec 32) (mem : M) :
    Account bursts (Platform.init dataS mem) := by
  have hquiet : Quiet (World.init dataS mem).dma.ch1 := ⟨rfl,rfl,rfl⟩
  refine ⟨0,[],[],?_,rfl,.nil,?_⟩
  · unfold Ready
    split
    · exact .programming hquiet fun j hj => absurd hj (Fin.not_lt_zero j)
    · exact ⟨rfl,rfl,rfl,hquiet⟩
  · split
    · exact .nil
    · rfl

/-- The run lemma of the account. -/
theorem account_run {bus : Bus M} {bursts : List Burst} {dataS : BitVec 32} {mem : M}
    {acts : List (Act M)} {s : Platform M}
    (h : run (Platform.step bus bursts) (Platform.init dataS mem) acts=some s) :
    Account bursts s :=
  run_invariant (fun _ _ _ hi hs => account_step hi hs) (account_init bursts dataS mem) h

/-- No burst is lost, repeated or overtaken. In every reachable state of the
platform: when the main program takes its first step after the `wfi` of burst
`i`, channel one has issued exactly the transactions of the bursts up to `i`,
each once, completely and in order, and it is idle with START/CLEAR zero and
the interrupt low. And every register write of main program or handler is
taken. -/
theorem bursts_performed {bus : Bus M} {bursts : List Burst} {dataS : BitVec 32} {mem : M}
    {acts : List (Act M)} {s : Platform M}
    (h : run (Platform.step bus bursts) (Platform.init dataS mem) acts=some s) :
    (s.core.mode=.run → s.core.pos=.woken → s.world.dma.ch1.interrupt=false →
      s.core.pc<bursts.length ∧
      Performed ((bursts.take (s.core.pc+1)).map Burst.toRequest) (s.world.issued .one) ∧
      Quiet s.world.dma.ch1) ∧
    ∀ byte k i value,
      s.core.step (burstLoop bursts) .one s.world.dma.ch1.interrupt (fun _ => byte)=
        some (k,some (.register i value)) →
      ∀ j,(bTransport s.world.dma (writeReg32 .one i value)).1.ch1.regAddr j=
        if j=i then value else s.world.dma.ch1.regAddr j := by
  obtain ⟨n,done,current,hready,hissued,hdone,hcurrent⟩ := (account_run h).agreed
  constructor
  · intro hmode hpos hlow
    cases hb : bursts[s.core.pc]? with
    | none =>
      simp only [Ready,burstLoop,burstAt,hb,Op.request] at hready
      exact Pos.noConfusion (hpos.symm.trans hready.start)
    | some b =>
      simp only [Ready,burstLoop,burstAt,hb,Op.request,hmode,hpos] at hready
      rw [hb] at hcurrent
      cases hready with
      | woken _ after =>
        refine ⟨(List.getElem?_eq_some_iff.mp hb).1,?_,after.quiet_of_low hlow⟩
        rw [List.take_add_one,hb,Option.toList_some,List.map_append,hissued]
        exact hdone.snoc hcurrent
  · intro byte k i value hk j
    have hopen := (hready.step hk).taken i value rfl
    have hchan := perform_ch1 s.world (some (.register i value))
    dsimp only [perform,drive,serve] at hchan
    rw [hchan]
    exact Channel.write_open hopen i j value

/-- One word from RAM3 to RAM4. -/
def demoBurst : Burst := ⟨⟨0x200400,0x300000,4⟩,⟨1,rfl⟩⟩

/-- Two words back. -/
def demoBack : Burst := ⟨⟨0x300000,0x200800,8⟩,⟨2,rfl⟩⟩

/-- The first burst is programmed, waited for and moved. Its interrupt is taken
a second time before it falls, and the second CLEAR comes after it has fallen;
then the second burst follows. -/
def demoActs : List (Act Unit) :=
  [.cpu1 0,.cpu1 0,.cpu1 0,.cpu1 0,.cpu1 0,.edge,.edge,.edge,.cpu1 0,.cpu1 1,.cpu1 1,.cpu1 0,
    .cpu1 0,.cpu1 0,.cpu2 3 1,.edge,.edge,.cpu1 1,.cpu1 1,.cpu1 0,.cpu1 0,.cpu1 0]++
  [.cpu1 0,.cpu1 0,.cpu1 0,.cpu1 0,.cpu1 0,.edge,.edge,.edge,.edge,.cpu1 0,.cpu1 1,.cpu1 1,
    .edge,.cpu1 0,.edge,.edge,.cpu1 0]

/-- After these steps the main program goes on, and both bursts have been
performed, the first one before the second. -/
theorem bursts_performed_demo :
    ∃ s : Platform Unit,
      run (Platform.step (constBus 0) [demoBurst,demoBack]) (Platform.init 0 ()) demoActs=some s ∧
      Performed [demoBurst.toRequest,demoBack.toRequest] (s.world.issued .one) := by
  refine ⟨_,rfl,?_⟩
  exact ((@bursts_performed Unit (constBus 0) [demoBurst,demoBack] 0 () demoActs _ rfl).1 rfl rfl
    rfl).2.1

/-- The processor sleeps in `wfi` while the channel is quiet. -/
structure Stuck (s : Platform M) : Prop where
  /-- The processor is asleep. -/
  asleep : s.core.mode=.sleep
  /-- Its channel is quiet. -/
  quiet : Quiet s.world.dma.ch1

/-- No edge and nobody but the processor itself can wake a stuck processor,
and it has no step. -/
theorem stuck_step {bus : Bus M} {bursts : List Burst} {s s' : Platform M} {a : Act M}
    (h : Stuck s) (hs : s.step bus bursts a=some s') : Stuck s' := by
  cases a with
  | cpu1 byte =>
    simp only [Platform.step,Core.step,h.asleep,h.quiet.low,Bool.false_eq_true,if_false,
      Option.map_none,reduceCtorEq] at hs
  | edge =>
    cases hs
    refine ⟨h.asleep,?_⟩
    dsimp only
    rw [show (s.world.edge bus).dma.ch1=s.world.dma.ch1.tick from edge_chan bus s.world .one]
    exact h.quiet.tick
  | cpu2 i value =>
    cases hs
    refine ⟨h.asleep,?_⟩
    dsimp only
    rw [cpu2_ch1]
    exact h.quiet
  | other f =>
    cases hs
    exact ⟨h.asleep,h.quiet⟩

/-- A stuck processor stays stuck for ever: no number of edges raises its
interrupt again. -/
theorem stuck_run {bus : Bus M} {bursts : List Burst} {s s' : Platform M} {acts : List (Act M)}
    (h : Stuck s) (hr : run (Platform.step bus bursts) s acts=some s') : Stuck s' :=
  run_invariant (fun _ _ _ hi hs => stuck_step hi hs) h hr

/-- The condition on a step: an edge that raises the interrupt finds the
processor asleep in `wfi`. -/
def RisesAsleep (s : Platform M) : Act M → Prop
  | .edge => s.world.dma.ch1.startClear=true → s.world.dma.ch1.offset=s.world.dma.ch1.size →
      s.world.dma.ch1.interrupt=false → s.core.mode=.sleep
  | _ => True

/-- A raised channel that nobody has cleared. -/
structure Uncleared (c : Channel) : Prop where
  /-- The channel is started. -/
  started : c.startClear=true
  /-- All bytes have been moved. -/
  finished : c.offset=c.size
  /-- The interrupt is high. -/
  high : c.interrupt=true
  /-- START/CLEAR is nonzero. -/
  kept : c.regAddr 3≠0

/-- The edge that raises the interrupt, and every edge after it, leaves an
uncleared channel. -/
theorem uncleared_tick {c : Channel} (hs : c.startClear=true) (ho : c.offset=c.size)
    (hk : c.regAddr 3≠0) : Uncleared c.tick := by
  have ht := tick_finish c.regAddr hs ho
  refine ⟨?_,?_,?_,hk⟩
  · rw [Channel.tick,ht]
    exact bne_iff_ne.mpr hk
  · rw [Channel.tick,ht]
    exact ho
  · rw [Channel.tick,ht]

/-- At `wfi` either the transfer is still in progress, or the processor sleeps
and its interrupt waits for it. -/
inductive Prompt (k : Core ℕ) (c : Channel) : Prop
  /-- The processor is not at `wfi`. -/
  | elsewhere (pos : k.pos≠.wfi)
  /-- The interrupt is still to come. -/
  | coming (q : Request) (n : ℕ) (words : 4∣q.size.toNat) (pos : k.pos=.wfi)
      (main : k.mode=.run ∨ k.mode=.sleep) (transfer : During q n c)
  /-- The interrupt has come while the processor sleeps. -/
  | waiting (pos : k.pos=.wfi) (asleep : k.mode=.sleep) (uncleared : Uncleared c)

section Prompt

variable {bus : Bus M} {bursts : List Burst} {s s' : Platform M} {n : ℕ}

/-- A prompt processor is not stuck. -/
theorem Prompt.not_stuck (h : Prompt s.core s.world.dma.ch1)
    (hready : Ready (burstLoop bursts) s.core n s.world.dma.ch1) : ¬Stuck s := by
  intro hstuck
  cases h with
  | elsewhere pos => exact pos (hready.asleep hstuck.asleep)
  | coming q n _ _ _ transfer =>
    cases transfer with
    | armed idle low written =>
      have hone : s.world.dma.ch1.regAddr 3=1 := written 3
      rw [hstuck.quiet.cleared] at hone
      exact absurd hone (by decide)
    | moving progress bound kept => exact kept hstuck.quiet.cleared
  | waiting _ _ uncleared => exact uncleared.kept hstuck.quiet.cleared

/-- An edge that raises the interrupt of a sleeping processor only keeps it
prompt. -/
theorem prompt_edge (h : Prompt s.core s.world.dma.ch1) (hc : RisesAsleep s .edge)
    (hs : s.step bus bursts .edge=some s') : Prompt s'.core s'.world.dma.ch1 := by
  cases hs
  have hchan : (s.world.edge bus).dma.ch1=s.world.dma.ch1.tick := edge_chan bus s.world .one
  dsimp only
  rw [hchan]
  cases h with
  | elsewhere pos => exact .elsewhere pos
  | coming q n words pos main transfer =>
    rcases transfer.tick words with ⟨_,_,_,ht⟩|⟨_,ht⟩|⟨hstart,hend,hkept,_,_⟩
    · exact .coming q _ words pos main ht
    · exact .coming q _ words pos main ht
    · exact .waiting pos (hc hstart hend transfer.low) (uncleared_tick hstart hend hkept)
  | waiting pos asleep uncleared =>
    exact .waiting pos asleep
      (uncleared_tick uncleared.started uncleared.finished uncleared.kept)

/-- A step of the processor keeps it prompt: it falls asleep only while its
interrupt is still to come, and wakes up when it has come. -/
theorem prompt_cpu1 {byte : BitVec 8} (h : Prompt s.core s.world.dma.ch1)
    (hready : Ready (burstLoop bursts) s.core n s.world.dma.ch1)
    (hs : s.step bus bursts (.cpu1 byte)=some s') : Prompt s'.core s'.world.dma.ch1 := by
  obtain ⟨⟨k,access⟩,hk,he⟩ := Option.map_eq_some_iff.mp hs
  subst he
  dsimp only
  rw [perform_ch1]
  cases h with
  | elsewhere pos =>
    by_cases hpos : k.pos=.wfi
    · obtain ⟨q,words,hmode,transfer⟩ := hready.to_wfi hk pos hpos
      exact .coming q 0 words hpos (Or.inl hmode) transfer
    · exact .elsewhere hpos
  | coming q n words pos main transfer =>
    obtain ⟨q',hfetch⟩ := hready.at_wfi pos
    rcases main with hm|hm
    · simp only [Core.step,hm,transfer.low,Bool.false_and,Bool.false_eq_true,if_false,
        Core.main,hfetch,pos] at hk
      cases hk
      exact .coming q n words rfl (Or.inr rfl) transfer
    · simp only [Core.step,hm,transfer.low,Bool.false_eq_true,if_false,reduceCtorEq] at hk
  | waiting pos asleep uncleared =>
    simp only [Core.step,asleep,uncleared.high,if_true] at hk
    cases hk
    exact .elsewhere Pos.noConfusion

/-- The step lemma: while every rise finds the processor asleep it stays
prompt. -/
theorem prompt_step {a : Act M} (h : Account bursts s ∧ Prompt s.core s.world.dma.ch1)
    (hc : RisesAsleep s a) (hs : s.step bus bursts a=some s') :
    Account bursts s' ∧ Prompt s'.core s'.world.dma.ch1 := by
  refine ⟨account_step h.1 hs,?_⟩
  obtain ⟨n,_,_,hready,_⟩ := h.1.agreed
  cases a with
  | cpu1 byte => exact prompt_cpu1 h.2 hready hs
  | edge => exact prompt_edge h.2 hc hs
  | cpu2 i value =>
    cases hs
    dsimp only
    rw [cpu2_ch1]
    exact h.2
  | other f =>
    cases hs
    exact h.2

end Prompt

/-- A taken interrupt runs the handler and returns, with START/CLEAR written
when the byte it reads is not zero. -/
theorem handler_run {bus : Bus M} {bursts : List Burst} {s : Platform M}
    (hmode : s.core.mode=.run) (hirq : s.world.dma.ch1.interrupt=true) :
    run (Platform.step bus bursts) s [.cpu1 1,.cpu1 1,.cpu1 1,.cpu1 1,.cpu1 1]=
      some ⟨perform s.world .one (some (.register 3 0)),s.core⟩ := by
  obtain ⟨world,pc,pos,mode⟩ := s
  dsimp only at hmode hirq
  subst hmode
  simp only [run_cons,run_nil,Platform.step,Core.step,hirq]
  rfl

/-- A processor that reaches `wfi` while its interrupt is low falls asleep. -/
theorem sleep_step (bus : Bus M) {bursts : List Burst} {s : Platform M} {q : Request}
    (hfetch : burstAt bursts s.core.pc=.burst q) (hpos : s.core.pos=.wfi)
    (hmode : s.core.mode=.run) (hlow : s.world.dma.ch1.interrupt=false) (byte : BitVec 8) :
    s.step bus bursts (.cpu1 byte)=some ⟨s.world,{s.core with mode := .sleep}⟩ := by
  simp only [Platform.step,Core.step,hmode,hlow,Bool.false_and,Bool.false_eq_true,if_false,
    Core.main,burstLoop,hfetch,hpos,Option.map_some]
  rfl

/-- A cleared channel is quiet after two edges: the first takes the CLEAR, the
second pulls the interrupt low. -/
theorem quiet_of_cleared {c : Channel} (hs : c.startClear=true) (ho : c.offset=c.size)
    (hz : c.regAddr 3=0) : Quiet c.tick.tick := by
  have hidle : c.tick.startClear=false := by
    rw [Channel.tick,tick_finish _ hs ho,hz]
    rfl
  have ht := tick_idle c.tick.regAddr hidle
  have hz' : c.tick.regAddr 3=0 := hz
  refine ⟨?_,?_,hz⟩
  · rw [Channel.tick,ht,hz']
    rfl
  · rw [Channel.tick,ht]

/-- The condition is exact: an edge that raises the interrupt before the
processor sleeps can be followed by steps that leave it stuck, although every
read of the handler returns a nonzero byte. -/
theorem lost_wakeup (bus : Bus M) {bursts : List Burst} {s : Platform M} (h : Account bursts s)
    (hrise : ¬RisesAsleep s .edge) :
    ∃ s',run (Platform.step bus bursts) s
      [.edge,.cpu1 1,.cpu1 1,.cpu1 1,.cpu1 1,.cpu1 1,.edge,.edge,.cpu1 1]=some s' ∧ Stuck s' := by
  obtain ⟨n,_,_,hready,_⟩ := h.agreed
  simp only [RisesAsleep,not_forall] at hrise
  obtain ⟨hs,ho,hlow,hawake⟩ := hrise
  obtain ⟨hpos,hmain,hkept⟩ := hready.in_progress hs hlow
  have hmode : s.core.mode=.run := hmain.resolve_right hawake
  obtain ⟨q,hfetch⟩ := hready.at_wfi hpos
  -- The interrupt rises, is handled at once, and falls two edges later.
  let s₁ : Platform M := ⟨s.world.edge bus,s.core⟩
  let s₂ : Platform M := ⟨perform s₁.world .one (some (.register 3 0)),s.core⟩
  let s₄ : Platform M := ⟨(s₂.world.edge bus).edge bus,s.core⟩
  have hc₁ : s₁.world.dma.ch1=s.world.dma.ch1.tick := edge_chan bus s.world .one
  have hrisen : Uncleared s₁.world.dma.ch1 := by
    rw [hc₁]
    exact uncleared_tick hs ho hkept
  have hopen : s₁.world.dma.ch1.Open := by
    rw [hc₁]
    exact open_stopped ((stopFlag_iff _ _).mpr ho)
  have hc₂ : s₂.world.dma.ch1=s₁.world.dma.ch1.write 3 0 := perform_ch1 s₁.world _
  have hframe := (s₁.world.dma.ch1.write_frame 3 0).1
  have hc₄ : s₄.world.dma.ch1=s₂.world.dma.ch1.tick.tick := by
    have h₃ : (s₂.world.edge bus).dma.ch1=s₂.world.dma.ch1.tick := edge_chan bus s₂.world .one
    rw [←h₃]
    exact edge_chan bus (s₂.world.edge bus) .one
  have hquiet : Quiet s₄.world.dma.ch1 := by
    rw [hc₄]
    refine quiet_of_cleared ?_ ?_ ?_
    · rw [hc₂,hframe]
      exact hrisen.started
    · rw [hc₂,hframe]
      exact hrisen.finished
    · rw [hc₂,Channel.write_open hopen,if_pos rfl]
  -- Only then is `wfi` executed.
  have hsleep := sleep_step bus (s := s₄) hfetch hpos hmode hquiet.low 1
  refine ⟨⟨s₄.world,{s.core with mode := .sleep}⟩,?_,⟨rfl,hquiet⟩⟩
  have hhandled : run (Platform.step bus bursts) s
      ([.edge]++[.cpu1 1,.cpu1 1,.cpu1 1,.cpu1 1,.cpu1 1])=some s₂ :=
    run_trans (show run (Platform.step bus bursts) s [.edge]=some s₁ from rfl)
      (handler_run hmode hrisen.high)
  have hfallen : run (Platform.step bus bursts) s₂ [.edge,.edge]=some s₄ := rfl
  exact run_trans (run_trans hhandled hfallen) (by rw [run_singleton]; exact hsleep)

/-- No lost wake-up, exactly. In every run in which each edge that raises the
interrupt finds the processor asleep, it is never stuck; and any reachable
state in which an edge raises the interrupt before that can go on to a stuck
state, although the handler reads nonzero bytes only. -/
theorem no_lost_wakeup_exact (bus : Bus M) (bursts : List Burst) (dataS : BitVec 32) (mem : M) :
    (∀ acts s,Along (Platform.step bus bursts) RisesAsleep (Platform.init dataS mem) acts →
      run (Platform.step bus bursts) (Platform.init dataS mem) acts=some s → ¬Stuck s) ∧
    ∀ acts s,run (Platform.step bus bursts) (Platform.init dataS mem) acts=some s →
      ¬RisesAsleep s .edge →
      ∃ s',run (Platform.step bus bursts) s
        [.edge,.cpu1 1,.cpu1 1,.cpu1 1,.cpu1 1,.cpu1 1,.edge,.edge,.cpu1 1]=some s' ∧
        Stuck s' := by
  constructor
  · intro acts s hrise h
    have hinit : Account bursts (Platform.init dataS mem) ∧
        Prompt (Platform.init dataS mem).core (Platform.init dataS mem).world.dma.ch1 :=
      ⟨account_init bursts dataS mem,.elsewhere Pos.noConfusion⟩
    obtain ⟨haccount,hprompt⟩ :=
      run_invariant_along (fun _ _ _ hi hc hs => prompt_step hi hc hs) hinit hrise h
    obtain ⟨n,_,_,hready,_⟩ := haccount.agreed
    exact hprompt.not_stuck hready
  · intro acts s h hrise
    exact lost_wakeup bus (account_run h) hrise

/-- The interrupt of the first burst rises, is handled and falls while the
processor has not yet come to `wfi`; every byte it reads is nonzero. -/
def earlyInterrupt : List (Act Unit) :=
  [.cpu1 1,.cpu1 1,.cpu1 1,.cpu1 1,.edge,.edge,.edge,.cpu1 1,.cpu1 1,.cpu1 1,.cpu1 1,.cpu1 1,
    .edge,.edge,.cpu1 1]

/-- A stuck state is reachable with one burst of one word, and it is never left. -/
theorem stuck_reachable :
    ∃ s : Platform Unit,
      run (Platform.step (constBus 0) [demoBurst]) (Platform.init 0 ()) earlyInterrupt=some s ∧
      Stuck s ∧ ∀ more s',run (Platform.step (constBus 0) [demoBurst]) s more=some s' →
        Stuck s' := by
  have hstuck : ∃ s : Platform Unit,
      run (Platform.step (constBus 0) [demoBurst]) (Platform.init 0 ()) earlyInterrupt=some s ∧
        Stuck s := ⟨_,rfl,rfl,rfl,rfl,rfl⟩
  obtain ⟨s,hs,hst⟩ := hstuck
  exact ⟨s,hs,hst,fun more s' hrun => stuck_run hst hrun⟩

end SystemCDma.BurstLoop
