import SystemCDma.DualDma

/-!
# A processor that drives its channel by bursts

The main program of either processor programs a burst with four register
writes and waits for the interrupt; the handler clears START/CLEAR when the
byte it reads there is not zero. Every access is a step of its own, so clock
edges fall between any two of them. The interrupt is level-sensitive: it is
taken before the next instruction of the main program, and `wfi` waits until
it is high. The joint invariant of program, handler and channel says where in
the life of a burst the channel can be at each place of the program.
-/

namespace SystemCDma.BurstDriver

open TlmBus TransferEngine EventRun DualDma

/-- What the main program does at one place. -/
inductive Op where
  /-- Program a burst, then wait for the interrupt. -/
  | burst (q : Request)
  /-- Write one byte of memory. -/
  | writeReg8 (address : BitVec 32) (value : BitVec 8)
  /-- Read one byte of memory until it has a value. -/
  | poll (address : BitVec 32) (value : BitVec 8)
  /-- Code without an access, such as installing the trap handler. -/
  | internal
  /-- The end of the program. -/
  | halt
  deriving DecidableEq

/-- The request of a burst. -/
def Op.request : Op → Option Request
  | .burst q => some q
  | _ => none

/-- A main program: what it does at each place and where it goes next. It
burst-copies whole words only, and only with interrupts enabled. -/
structure Program (PC : Type) where
  /-- The operation at a place. -/
  fetch : PC → Op
  /-- The place after the operation is done. -/
  advance : PC → PC
  /-- The external interrupt is enabled here. -/
  enabled : PC → Bool
  /-- Bursts run with the interrupt enabled. -/
  burst_enabled : ∀ pc q,fetch pc=.burst q → enabled pc=true
  /-- Bursts move whole words. -/
  burst_words : ∀ pc q,fetch pc=.burst q → 4∣q.size.toNat

/-- The place inside a burst. -/
inductive Pos where
  /-- This register is written next. -/
  | write (i : Fin 4)
  /-- The burst is programmed; `wfi` comes next or is being executed. -/
  | wfi
  /-- `wfi` is done; the main program takes its first step after it. -/
  | woken
  deriving DecidableEq

/-- What the processor is doing. -/
inductive Mode where
  /-- The main program. -/
  | run
  /-- Asleep in `wfi`. -/
  | sleep
  /-- The handler is about to read START/CLEAR. -/
  | test
  /-- The handler is about to read it once more for its message. -/
  | print
  /-- The handler is about to write the CLEAR. -/
  | clear
  /-- The handler returns. -/
  | mret
  deriving DecidableEq

/-- The state of a processor. -/
structure Core (PC : Type) where
  /-- The operation of the main program. -/
  pc : PC
  /-- The place inside a burst. -/
  pos : Pos
  /-- Main program, sleep or handler. -/
  mode : Mode
  deriving DecidableEq

/-- A write of the processor: to a register of its channel, or to memory. -/
inductive Access where
  | register (i : Fin 4) (value : BitVec 32)
  | byte (address : BitVec 32) (value : BitVec 8)
  deriving DecidableEq

/-- Start of the register window on the buses of the processors. -/
def dmaBase : BitVec 32 := 0x100000

/-- The address at which a processor reads its START/CLEAR register. -/
def clearAddress (side : Side) : BitVec 32 := dmaBase+(regOffset side 3).setWidth 32

/-- The four register values of a burst. -/
def dmaBurst (q : Request) : Registers := ![q.source,q.target,q.size,1]

variable {PC : Type}

/-- The next place of the main program. -/
def Core.next (prog : Program PC) (k : Core PC) : Core PC :=
  {k with pc := prog.advance k.pc, pos := .write 0}

/-- One step of the main program when no interrupt is taken. -/
def Core.main (prog : Program PC) (read : BitVec 32 → BitVec 8) (k : Core PC) :
    Option (Core PC×Option Access) :=
  match prog.fetch k.pc with
  | .burst q =>
    match k.pos with
    | .write i => some ({k with pos := if i=3 then .wfi else .write (i+1)},
        some (.register i (dmaBurst q i)))
    | .wfi => some ({k with mode := .sleep},none)
    | .woken => some (k.next prog,none)
  | .writeReg8 address value => some (k.next prog,some (.byte address value))
  | .poll address value => some (if read address=value then k.next prog else k,none)
  | .internal => some (k.next prog,none)
  | .halt => none

/-- One step of a processor, given the level of its interrupt and what a read
of one byte returns. A sleeping processor has no step while the level is low. -/
def Core.step (prog : Program PC) (side : Side) (irq : Bool) (read : BitVec 32 → BitVec 8)
    (k : Core PC) : Option (Core PC×Option Access) :=
  match k.mode with
  | .run => if irq && prog.enabled k.pc then some ({k with mode := .test},none)
      else k.main prog read
  | .sleep => if irq then some ({k with pos := .woken, mode := .test},none) else none
  | .test => some ({k with mode := if read (clearAddress side)≠0 then .print else .mret},none)
  | .print => some ({k with mode := .clear},none)
  | .clear => some ({k with mode := .mret},some (.register 3 0))
  | .mret => some ({k with mode := .run},none)

/-- A register write of a processor arrives at the slave port. -/
def drive (s : DMA) (side : Side) : Option Access → DMA
  | some (.register i value) => (bTransport s (writeReg32 side i value)).1
  | _ => s

/-- What a write of the processor does to its channel. -/
def serve (c : Channel) : Option Access → Channel
  | some (.register i value) => c.write i value
  | _ => c

/-- A register write reaches the channel of the processor. -/
theorem drive_chan (s : DMA) (side : Side) (access : Option Access) :
    (drive s side access).chan side=serve (s.chan side) access := by
  cases access with
  | none => rfl
  | some a =>
    cases a with
    | byte address value => rfl
    | register i value =>
      have hchan := bTransport_chan s (writeReg32 side i value) side
      rw [Channel.access,registerWrite_writeReg32] at hchan
      exact hchan

/-- It leaves the other channel alone. -/
theorem drive_other (s : DMA) (side : Side) (access : Option Access) :
    (drive s side access).chan side.other=s.chan side.other := by
  cases access with
  | none => rfl
  | some a =>
    cases a with
    | byte address value => rfl
    | register i value =>
      have hchan := bTransport_chan s (writeReg32 side i value) side.other
      rw [Channel.access,registerWrite_other] at hchan
      exact hchan

/-- Nothing is requested, in progress or pending. -/
structure Quiet (c : Channel) : Prop where
  /-- The channel is idle. -/
  idle : c.startClear=false
  /-- The interrupt is low. -/
  low : c.interrupt=false
  /-- START/CLEAR is zero. -/
  cleared : c.regAddr 3=0

/-- From the START write to the last moved word, with `n` words moved. -/
inductive During (q : Request) : ℕ → Channel → Prop
  /-- START is written and waits for an edge. -/
  | armed {c : Channel} (idle : c.startClear=false) (low : c.interrupt=false)
      (written : ∀ j,c.regAddr j=dmaBurst q j) : During q 0 c
  /-- Words are being moved. -/
  | moving {n : ℕ} {c : Channel} (progress : c.Progress q n) (bound : 4*n≤q.size.toNat)
      (kept : c.regAddr 3≠0) : During q n c

/-- From the rise of the interrupt on: raised with or without a CLEAR, the
CLEAR taken, or quiet again. -/
inductive After (q : Request) (c : Channel) : Prop
  | raised (done : c.Raised q) (started : c.startClear=true) (stop : c.stop=true)
  | fading (idle : c.startClear=false) (high : c.interrupt=true) (cleared : c.regAddr 3=0)
  | quiet (quiet : Quiet c)

/-- The joint states of program, handler and channel while burst `q` is the
current operation and `n` of its words have been moved. -/
inductive Joint (q : Request) : ℕ → Pos → Mode → Channel → Prop
  /-- The main program writes registers; the channel is quiet. -/
  | programming {i : Fin 4} {c : Channel} (quiet : Quiet c)
      (written : ∀ j < i,c.regAddr j=dmaBurst q j) : Joint q 0 (.write i) .run c
  /-- The transfer is in progress; `wfi` is next or is being executed. -/
  | during {n : ℕ} {mode : Mode} {c : Channel} (main : mode=.run ∨ mode=.sleep)
      (transfer : During q n c) : Joint q n .wfi mode c
  /-- The transfer is complete and `wfi` not done, with any number of handler
  runs before it. -/
  | early {mode : Mode} {c : Channel} (after : After q c) :
      Joint q (q.size.toNat/4) .wfi mode c
  /-- The transfer is complete and `wfi` is done. -/
  | woken {mode : Mode} {c : Channel} (awake : mode≠.sleep) (after : After q c) :
      Joint q (q.size.toNat/4) .woken mode c

/-- Outside bursts the channel is quiet and no handler runs. -/
structure Resting (k : Core PC) (n : ℕ) (c : Channel) : Prop where
  /-- No word is counted. -/
  count : n=0
  /-- A burst would start with its first write. -/
  start : k.pos=.write 0
  /-- The main program runs. -/
  main : k.mode=.run
  /-- The channel is quiet. -/
  quiet : Quiet c

/-- The joint invariant of a processor and its channel, with the number of
words moved for the current burst. -/
def Ready (prog : Program PC) (k : Core PC) (n : ℕ) (c : Channel) : Prop :=
  match (prog.fetch k.pc).request with
  | some q => Joint q n k.pos k.mode c
  | none => Resting k n c

section Channel

variable {q : Request} {n : ℕ} {c : Channel}

/-- An edge keeps a quiet channel quiet: it latches a START/CLEAR of zero. -/
theorem Quiet.tick (h : Quiet c) : Quiet c.tick := by
  have ht := tick_idle c.regAddr h.idle
  refine ⟨?_,?_,h.cleared⟩
  · rw [Channel.tick,ht,h.cleared]
    rfl
  · rw [Channel.tick,ht]

/-- An idle channel takes writes. -/
theorem open_idle (h : c.startClear=false) : c.Open := by
  rw [Channel.Open,h,Bool.not_false,Bool.or_true]

/-- A started channel takes writes once its stop flag is set. -/
theorem open_stopped (h : c.stop=true) : c.Open := by
  rw [Channel.Open,h,Bool.true_or]

/-- While a transfer is in progress the interrupt is low. -/
theorem During.low (h : During q n c) : c.interrupt=false := by
  cases h with
  | armed _ low _ => exact low
  | moving progress _ _ => exact progress.quiet

/-- The edge that latches a request starts its transfer. -/
theorem armed_tick (idle : c.startClear=false) (written : ∀ j,c.regAddr j=dmaBurst q j) :
    c.tick.Progress q 0 := by
  have hkept : (dmaBurst q 3 != 0)=true := rfl
  rw [Channel.tick,tick_idle _ idle,written 0,written 1,written 2,written 3,hkept]
  exact ⟨rfl,rfl,rfl,rfl,rfl,rfl⟩

/-- An edge of a transfer moves one more word, or latches the request, or
completes it. -/
theorem During.tick (h : During q n c) (hwords : 4∣q.size.toNat) :
    (c.Moving ∧ c.Progress q n ∧ 4*(n+1)≤q.size.toNat ∧ During q (n+1) c.tick) ∨
      (¬c.Moving ∧ During q n c.tick) ∨
      (c.startClear=true ∧ c.offset=c.size ∧ c.regAddr 3≠0 ∧ n=q.size.toNat/4 ∧
        After q c.tick) := by
  cases h with
  | armed idle low written =>
    have hone : c.regAddr 3=1 := written 3
    have hkept : c.regAddr 3≠0 := by
      rw [hone]
      decide
    exact Or.inr (Or.inl ⟨still_idle idle,
      .moving (armed_tick idle written) (Nat.zero_le _) hkept⟩)
  | moving progress bound kept =>
    by_cases hn : 4*n=q.size.toNat
    · have hend : c.offset=c.size := by
        rw [progress.size,←BitVec.toNat_inj,progress.offset,hn]
      obtain ⟨hraised,hstart⟩ := progress.tick_raise c.regAddr hn
      refine Or.inr (Or.inr ⟨progress.started,hend,kept,by omega,.raised hraised ?_ ?_⟩)
      · rw [Channel.tick,hstart]
        exact bne_iff_ne.mpr kept
      · exact (stopFlag_iff _ _).mpr hend
    · have hnext : 4*(n+1)≤q.size.toNat := by omega
      exact Or.inl ⟨progress.moving_iff.mpr hn,progress,hnext,
        .moving (progress.tick_move _ hnext) hnext kept⟩

/-- A channel whose transfer is complete does not move data. -/
theorem After.still (h : After q c) : ¬c.Moving := by
  cases h with
  | raised done _ _ => exact still_finished (done.offset.trans done.size.symm)
  | fading idle _ _ => exact still_idle idle
  | quiet quiet => exact still_idle quiet.idle

/-- An edge after the transfer holds the interrupt, takes the CLEAR, or pulls
the interrupt low. -/
theorem After.tick (h : After q c) : After q c.tick := by
  cases h with
  | raised done started stop =>
    obtain ⟨hraised,hstart⟩ := done.tick_hold c.regAddr started
    cases hs : c.regAddr 3!=0 with
    | true =>
      refine .raised hraised (hstart.trans hs) ?_
      exact (stopFlag_iff _ _).mpr (done.offset.trans done.size.symm)
    | false => exact .fading (hstart.trans hs) hraised.high (bne_eq_false_iff_eq.mp hs)
  | fading idle high cleared =>
    have ht := tick_idle c.regAddr idle
    refine .quiet ⟨?_,?_,cleared⟩
    · rw [Channel.tick,ht,cleared]
      rfl
    · rw [Channel.tick,ht]
  | quiet quiet => exact .quiet quiet.tick

/-- After the transfer the channel takes writes: the CLEAR is never refused. -/
theorem After.isOpen (h : After q c) : c.Open := by
  cases h with
  | raised _ _ stop => exact open_stopped stop
  | fading idle _ _ => exact open_idle idle
  | quiet quiet => exact open_idle quiet.idle

/-- A CLEAR, also a late one, leaves the channel after the transfer. -/
theorem After.clear (h : After q c) : After q (c.write 3 0) := by
  obtain ⟨hengine,hstop⟩ := c.write_frame 3 0
  have hzero : (c.write 3 0).regAddr 3=0 := by
    rw [Channel.write_open h.isOpen,if_pos rfl]
  cases h with
  | raised done started stop =>
    refine .raised ?_ ?_ (hstop.trans stop)
    · rw [hengine]
      exact done
    · rw [hengine]
      exact started
  | fading idle high cleared =>
    refine .fading ?_ ?_ hzero
    · rw [hengine]
      exact idle
    · rw [hengine]
      exact high
  | quiet quiet =>
    refine .quiet ⟨?_,?_,hzero⟩
    · rw [hengine]
      exact quiet.idle
    · rw [hengine]
      exact quiet.low

/-- When the interrupt has fallen again the channel is quiet. -/
theorem After.quiet_of_low (h : After q c) (hlow : c.interrupt=false) : Quiet c := by
  cases h with
  | raised done _ _ => exact Bool.noConfusion (hlow.symm.trans done.high)
  | fading _ high _ => exact Bool.noConfusion (hlow.symm.trans high)
  | quiet quiet => exact quiet

/-- A register write into a quiet channel keeps it idle with the interrupt low
and changes one register. -/
theorem Quiet.write (h : Quiet c) (i : Fin 4) (value : BitVec 32) :
    (c.write i value).startClear=false ∧ (c.write i value).interrupt=false ∧
      ∀ j,(c.write i value).regAddr j=if j=i then value else c.regAddr j := by
  obtain ⟨hengine,_⟩ := c.write_frame i value
  refine ⟨?_,?_,fun j => Channel.write_open (open_idle h.idle) i j value⟩
  · rw [hengine]
    exact h.idle
  · rw [hengine]
    exact h.low

/-- The START write completes the programming of a burst. -/
theorem armed_write (h : Quiet c) (hw : ∀ j<3,c.regAddr j=dmaBurst q j) :
    During q 0 (c.write 3 (dmaBurst q 3)) := by
  have hlast : ∀ j : Fin 4,j≠3 → j<3 := by decide
  obtain ⟨hidle,hlow,hreg⟩ := h.write 3 (dmaBurst q 3)
  refine .armed hidle hlow fun j => ?_
  rw [hreg]
  by_cases hj : j=3
  · rw [if_pos hj,hj]
  · rw [if_neg hj]
    exact hw j (hlast j hj)

/-- The next of the four register writes of a burst. -/
theorem joint_write {i : Fin 4} (h : Quiet c) (hw : ∀ j < i,c.regAddr j=dmaBurst q j) :
    Joint q 0 (if i=3 then .wfi else .write (i+1)) .run (c.write i (dmaBurst q i)) := by
  have hsucc : ∀ k : Fin 4,k≠3 → ∀ j,j<k+1 → j≠k → j<k := by decide
  by_cases hi : i=3
  · subst hi
    rw [if_pos rfl]
    exact .during (Or.inl rfl) (armed_write h hw)
  · obtain ⟨hidle,hlow,hreg⟩ := h.write i (dmaBurst q i)
    rw [if_neg hi]
    refine .programming ⟨hidle,hlow,?_⟩ fun j hj => ?_
    · rw [hreg,if_neg (Ne.symm hi)]
      exact h.cleared
    · rw [hreg]
      by_cases hji : j=i
      · rw [if_pos hji,hji]
      · rw [if_neg hji]
        exact hw j (hsucc i hi j hj hji)

/-- An edge keeps the joint state of a burst, and tells whether a word moves. -/
theorem Joint.tick {pos : Pos} {mode : Mode} (h : Joint q n pos mode c)
    (hwords : 4∣q.size.toNat) :
    (c.Moving ∧ c.Progress q n ∧ 4*(n+1)≤q.size.toNat ∧ Joint q (n+1) pos mode c.tick) ∨
      (¬c.Moving ∧ Joint q n pos mode c.tick) := by
  cases h with
  | programming quiet written =>
    exact Or.inr ⟨still_idle quiet.idle,.programming quiet.tick written⟩
  | during main transfer =>
    rcases transfer.tick hwords with ⟨hm,hp,hn,ht⟩|⟨hm,ht⟩|⟨_,hend,_,hn,ht⟩
    · exact Or.inl ⟨hm,hp,hn,.during main ht⟩
    · exact Or.inr ⟨hm,.during main ht⟩
    · rw [hn]
      exact Or.inr ⟨still_finished hend,.early ht⟩
  | early after => exact Or.inr ⟨after.still,.early after.tick⟩
  | woken awake after => exact Or.inr ⟨after.still,.woken awake after.tick⟩

end Channel

section Step

variable {prog : Program PC} {k k' : Core PC} {n : ℕ} {c : Channel}

/-- What has been done when the main program goes on to its next operation. -/
def Done (prog : Program PC) (read : BitVec 32 → BitVec 8) (k : Core PC) (n : ℕ)
    (access : Option Access) : Prop :=
  match prog.fetch k.pc with
  | .burst q => n=q.size.toNat/4 ∧ access=none
  | .writeReg8 address value => access=some (.byte address value)
  | .poll address value => read address=value ∧ access=none
  | .internal => access=none
  | .halt => False

/-- Only a burst has a request. -/
theorem request_some {op : Op} {q : Request} (h : op.request=some q) : op=.burst q := by
  cases op with
  | burst q' =>
    cases h
    rfl
  | writeReg8 _ _ => cases h
  | poll _ _ => cases h
  | internal => cases h
  | halt => cases h

/-- A quiet channel is ready for whatever operation comes next. -/
theorem ready_next (hmode : k.mode=.run) (h : Quiet c) : Ready prog (k.next prog) 0 c := by
  unfold Ready
  cases (prog.fetch (k.next prog).pc).request with
  | some q =>
    dsimp only [Core.next]
    rw [hmode]
    exact .programming h fun j hj => absurd hj (Fin.not_lt_zero j)
  | none => exact ⟨rfl,rfl,hmode,h⟩

/-- An edge keeps the joint invariant. Data moves only inside a burst, and
then the next word of its request. -/
theorem Ready.tick (h : Ready prog k n c) :
    (c.Moving ∧ Ready prog k (n+1) c.tick ∧
        ∃ q,prog.fetch k.pc=.burst q ∧ c.Progress q n ∧ 4*(n+1)≤q.size.toNat) ∨
      (¬c.Moving ∧ Ready prog k n c.tick) := by
  unfold Ready at h ⊢
  cases hf : (prog.fetch k.pc).request with
  | some q =>
    rw [hf] at h
    have hburst := request_some hf
    rcases Joint.tick h (prog.burst_words _ _ hburst) with ⟨hm,hp,hn,ht⟩|⟨hm,ht⟩
    · exact Or.inl ⟨hm,ht,q,hburst,hp,hn⟩
    · exact Or.inr ⟨hm,ht⟩
  | none =>
    rw [hf] at h
    exact Or.inr ⟨still_idle h.quiet.idle,h.count,h.start,h.main,h.quiet.tick⟩

/-- What one step of the processor does. A register write finds the channel
open. The processor stays at its operation, or finishes it and goes on. -/
structure Stepped (prog : Program PC) (read : BitVec 32 → BitVec 8) (k k' : Core PC) (n : ℕ)
    (c : Channel) (access : Option Access) : Prop where
  /-- No register write is refused. -/
  taken : ∀ i value,access=some (.register i value) → c.Open
  /-- The joint invariant holds again. -/
  outcome : (k'.pc=k.pc ∧ Ready prog k' n (serve c access) ∧ ∀ address value,
      access≠some (.byte address value)) ∨
    (k'=k.next prog ∧ Ready prog k' 0 (serve c access) ∧ Done prog read k n access)

/-- A step without an access that stays in the burst. -/
theorem stepped_stay {read : BitVec 32 → BitVec 8} {q : Request}
    (hq : (prog.fetch k.pc).request=some q) {pos : Pos} {mode : Mode}
    (h : Joint q n pos mode c) : Stepped prog read k ⟨k.pc,pos,mode⟩ n c none := by
  refine ⟨fun _ _ hw => (nomatch hw),Or.inl ⟨rfl,?_,fun _ _ hw => (nomatch hw)⟩⟩
  unfold Ready
  dsimp only
  rw [hq]
  exact h

/-- A register write that stays in the burst. -/
theorem stepped_write {read : BitVec 32 → BitVec 8} {q : Request}
    (hq : (prog.fetch k.pc).request=some q) {pos : Pos} {mode : Mode} {i : Fin 4}
    {value : BitVec 32} (hopen : c.Open) (h : Joint q n pos mode (c.write i value)) :
    Stepped prog read k ⟨k.pc,pos,mode⟩ n c (some (.register i value)) := by
  refine ⟨fun _ _ _ => hopen,Or.inl ⟨rfl,?_,fun _ _ hw => (nomatch hw)⟩⟩
  unfold Ready
  dsimp only
  rw [hq]
  exact h

/-- The handler runs between the rise of the interrupt and the next burst, at
either side of `wfi`; whatever it reads and however late it clears, the
channel stays where it may be after the transfer. -/
theorem handler_step {side : Side} {read : BitVec 32 → BitVec 8} {irq : Bool} {q : Request}
    {access : Option Access} (hq : (prog.fetch k.pc).request=some q) (h : After q c)
    (hjoint : ∀ mode c',mode≠.sleep → After q c' → Joint q n k.pos mode c')
    (hrun : k.mode≠.run) (hsleep : k.mode≠.sleep)
    (hs : k.step prog side irq read=some (k',access)) : Stepped prog read k k' n c access := by
  unfold Core.step at hs
  cases hm : k.mode with
  | run => exact absurd hm hrun
  | sleep => exact absurd hm hsleep
  | test =>
    rw [hm] at hs
    cases hs
    refine stepped_stay hq (hjoint _ _ ?_ h)
    split <;> exact Mode.noConfusion
  | print =>
    rw [hm] at hs
    cases hs
    exact stepped_stay hq (hjoint _ _ Mode.noConfusion h)
  | clear =>
    rw [hm] at hs
    cases hs
    exact stepped_write hq h.isOpen (hjoint _ _ Mode.noConfusion h.clear)
  | mret =>
    rw [hm] at hs
    cases hs
    exact stepped_stay hq (hjoint _ _ Mode.noConfusion h)

/-- A step of the main program inside a burst, or of a sleeping processor. -/
theorem burst_step {side : Side} {read : BitVec 32 → BitVec 8} {q : Request}
    {access : Option Access} (hq : (prog.fetch k.pc).request=some q)
    (h : Joint q n k.pos k.mode c)
    (hs : k.step prog side c.interrupt read=some (k',access)) :
    Stepped prog read k k' n c access := by
  have hfetch := request_some hq
  have henabled := prog.burst_enabled _ _ hfetch
  obtain ⟨pc,pos,mode⟩ := k
  dsimp only at hq h hfetch henabled
  cases h with
  | @programming i _ quiet written =>
    simp only [Core.step,quiet.low,Bool.false_and,Bool.false_eq_true,if_false,Core.main,hfetch]
      at hs
    cases hs
    exact stepped_write hq (open_idle quiet.idle) (joint_write quiet written)
  | during main transfer =>
    rcases main with rfl|rfl
    · simp only [Core.step,transfer.low,Bool.false_and,Bool.false_eq_true,if_false,Core.main,
        hfetch] at hs
      cases hs
      exact stepped_stay hq (.during (Or.inr rfl) transfer)
    · simp only [Core.step,transfer.low,Bool.false_eq_true,if_false,reduceCtorEq] at hs
  | early after =>
    by_cases hrun : mode=.run
    · subst hrun
      cases hirq : c.interrupt with
      | true =>
        simp only [Core.step,hirq,henabled,Bool.and_self,if_true] at hs
        cases hs
        exact stepped_stay hq (.early after)
      | false =>
        simp only [Core.step,hirq,Bool.false_and,Bool.false_eq_true,if_false,Core.main,hfetch]
          at hs
        cases hs
        exact stepped_stay hq (.early after)
    · by_cases hsleep : mode=.sleep
      · subst hsleep
        cases hirq : c.interrupt with
        | true =>
          simp only [Core.step,hirq,if_true] at hs
          cases hs
          exact stepped_stay hq (.woken Mode.noConfusion after)
        | false => simp only [Core.step,hirq,Bool.false_eq_true,if_false,reduceCtorEq] at hs
      · exact handler_step hq after (fun _ _ _ ha => .early ha) hrun hsleep hs
  | woken awake after =>
    by_cases hrun : mode=.run
    · subst hrun
      cases hirq : c.interrupt with
      | true =>
        simp only [Core.step,hirq,henabled,Bool.and_self,if_true] at hs
        cases hs
        exact stepped_stay hq (.woken Mode.noConfusion after)
      | false =>
        simp only [Core.step,hirq,Bool.false_and,Bool.false_eq_true,if_false,Core.main,hfetch]
          at hs
        cases hs
        refine ⟨fun _ _ hw => (nomatch hw),Or.inr ⟨rfl,ready_next rfl (after.quiet_of_low hirq),?_⟩⟩
        simp only [Done,hfetch,and_self]
    · exact handler_step hq after (fun _ _ hm ha => .woken hm ha) hrun awake hs

/-- A step of the main program outside bursts. -/
theorem rest_step {side : Side} {read : BitVec 32 → BitVec 8} {access : Option Access}
    (hq : (prog.fetch k.pc).request=none) (h : Resting k n c)
    (hs : k.step prog side c.interrupt read=some (k',access)) :
    Stepped prog read k k' n c access := by
  have hnext : Ready prog (k.next prog) 0 c := ready_next h.main h.quiet
  simp only [Core.step,h.main,h.quiet.low,Bool.false_and,Bool.false_eq_true,if_false,
    Core.main] at hs
  cases hf : prog.fetch k.pc with
  | burst q =>
    rw [hf] at hq
    cases hq
  | writeReg8 address value =>
    simp only [hf,Option.some.injEq,Prod.mk.injEq] at hs
    obtain ⟨rfl,rfl⟩ := hs
    refine ⟨fun _ _ hw => (nomatch hw),Or.inr ⟨rfl,hnext,?_⟩⟩
    simp only [Done,hf]
  | poll address value =>
    simp only [hf,Option.some.injEq,Prod.mk.injEq] at hs
    obtain ⟨rfl,rfl⟩ := hs
    refine ⟨fun _ _ hw => (nomatch hw),?_⟩
    by_cases hread : read address=value
    · rw [if_pos hread]
      refine Or.inr ⟨rfl,hnext,?_⟩
      simp only [Done,hf,hread,and_self]
    · rw [if_neg hread]
      refine Or.inl ⟨rfl,?_,fun _ _ hw => (nomatch hw)⟩
      unfold Ready
      rw [hf]
      exact h
  | internal =>
    simp only [hf,Option.some.injEq,Prod.mk.injEq] at hs
    obtain ⟨rfl,rfl⟩ := hs
    refine ⟨fun _ _ hw => (nomatch hw),Or.inr ⟨rfl,hnext,?_⟩⟩
    simp only [Done,hf]
  | halt => simp only [hf,reduceCtorEq] at hs

/-- A processor sleeps at `wfi` only. -/
theorem Ready.asleep (h : Ready prog k n c) (hsleep : k.mode=.sleep) : k.pos=.wfi := by
  unfold Ready at h
  cases hq : (prog.fetch k.pc).request with
  | none =>
    rw [hq] at h
    exact Mode.noConfusion (hsleep.symm.trans h.main)
  | some q =>
    rw [hq] at h
    obtain ⟨pc,pos,mode⟩ := k
    cases h with
    | programming _ _ => exact Mode.noConfusion hsleep
    | during _ _ => rfl
    | early _ => rfl
    | woken awake _ => exact absurd hsleep awake

/-- At `wfi` a burst is the current operation. -/
theorem Ready.at_wfi (h : Ready prog k n c) (hpos : k.pos=.wfi) :
    ∃ q,prog.fetch k.pc=.burst q := by
  unfold Ready at h
  cases hq : (prog.fetch k.pc).request with
  | none =>
    rw [hq] at h
    exact Pos.noConfusion (hpos.symm.trans h.start)
  | some q => exact ⟨q,request_some hq⟩

/-- A started channel whose interrupt is low belongs to a burst that is at
`wfi`, with START still in its register. -/
theorem Ready.in_progress (h : Ready prog k n c) (hs : c.startClear=true)
    (hlow : c.interrupt=false) :
    k.pos=.wfi ∧ (k.mode=.run ∨ k.mode=.sleep) ∧ c.regAddr 3≠0 := by
  have hafter : ∀ q,¬After q c := by
    intro q ha
    exact Bool.noConfusion (hs.symm.trans (ha.quiet_of_low hlow).idle)
  unfold Ready at h
  cases hq : (prog.fetch k.pc).request with
  | none =>
    rw [hq] at h
    exact Bool.noConfusion (hs.symm.trans h.quiet.idle)
  | some q =>
    rw [hq] at h
    obtain ⟨pc,pos,mode⟩ := k
    cases h with
    | programming quiet _ => exact Bool.noConfusion (hs.symm.trans quiet.idle)
    | during main transfer =>
      cases transfer with
      | armed idle _ _ => exact Bool.noConfusion (hs.symm.trans idle)
      | moving _ _ kept => exact ⟨rfl,main,kept⟩
    | early after => exact absurd after (hafter q)
    | woken _ after => exact absurd after (hafter q)

/-- The main program comes to `wfi` by the START write only. -/
theorem main_to_wfi {read : BitVec 32 → BitVec 8} {access : Option Access}
    (hs : k.main prog read=some (k',access)) (hpos : k.pos≠.wfi) (hpos' : k'.pos=.wfi) :
    ∃ q,prog.fetch k.pc=.burst q ∧ k.pos=.write 3 ∧ k'.mode=k.mode ∧
      access=some (.register 3 (dmaBurst q 3)) := by
  unfold Core.main at hs
  cases hf : prog.fetch k.pc with
  | burst q =>
    rw [hf] at hs
    cases hp : k.pos with
    | write i =>
      rw [hp] at hs
      cases hs
      by_cases hi : i=3
      · subst hi
        exact ⟨q,rfl,rfl,rfl,rfl⟩
      · rw [if_neg hi] at hpos'
        cases hpos'
    | wfi => exact absurd hp hpos
    | woken =>
      rw [hp] at hs
      cases hs
      cases hpos'
  | writeReg8 address value =>
    rw [hf] at hs
    cases hs
    cases hpos'
  | poll address value =>
    rw [hf] at hs
    cases hs
    split at hpos'
    · cases hpos'
    · exact absurd hpos' hpos
  | internal =>
    rw [hf] at hs
    cases hs
    cases hpos'
  | halt =>
    rw [hf] at hs
    cases hs

/-- So does the processor: the handler returns to where it was called, and a
sleeping processor is at `wfi` already. -/
theorem step_to_wfi {side : Side} {irq : Bool} {read : BitVec 32 → BitVec 8}
    {access : Option Access} (hs : k.step prog side irq read=some (k',access))
    (hpos : k.pos≠.wfi) (hpos' : k'.pos=.wfi) :
    ∃ q,prog.fetch k.pc=.burst q ∧ k.pos=.write 3 ∧ k.mode=.run ∧ k'.mode=.run ∧
      access=some (.register 3 (dmaBurst q 3)) := by
  unfold Core.step at hs
  cases hm : k.mode with
  | run =>
    simp only [hm] at hs
    split at hs
    · cases hs
      exact absurd hpos' hpos
    · obtain ⟨q,hf,hp,hmode,ha⟩ := main_to_wfi hs hpos hpos'
      exact ⟨q,hf,hp,rfl,hmode.trans hm,ha⟩
  | sleep =>
    simp only [hm] at hs
    split at hs
    · cases hs
      cases hpos'
    · cases hs
  | test =>
    rw [hm] at hs
    cases hs
    exact absurd hpos' hpos
  | print =>
    rw [hm] at hs
    cases hs
    exact absurd hpos' hpos
  | clear =>
    rw [hm] at hs
    cases hs
    exact absurd hpos' hpos
  | mret =>
    rw [hm] at hs
    cases hs
    exact absurd hpos' hpos

/-- The transfer of a burst is still to come when the processor comes to its
`wfi`. -/
theorem Ready.to_wfi {side : Side} {irq : Bool} {read : BitVec 32 → BitVec 8}
    {access : Option Access} (h : Ready prog k n c)
    (hs : k.step prog side irq read=some (k',access)) (hpos : k.pos≠.wfi)
    (hpos' : k'.pos=.wfi) : ∃ q,4∣q.size.toNat ∧ k'.mode=.run ∧ During q 0 (serve c access) := by
  obtain ⟨q,hf,hp,hm,hm',ha⟩ := step_to_wfi hs hpos hpos'
  refine ⟨q,prog.burst_words _ _ hf,hm',?_⟩
  simp only [Ready,hf,Op.request,hp,hm] at h
  cases h with
  | programming quiet written =>
    rw [ha]
    exact armed_write quiet written

/-- A step of the processor keeps the joint invariant, and none of its
register writes is refused. -/
theorem Ready.step {side : Side} {read : BitVec 32 → BitVec 8} {access : Option Access}
    (h : Ready prog k n c) (hs : k.step prog side c.interrupt read=some (k',access)) :
    Stepped prog read k k' n c access := by
  unfold Ready at h
  cases hq : (prog.fetch k.pc).request with
  | some q =>
    rw [hq] at h
    exact burst_step hq h hs
  | none =>
    rw [hq] at h
    exact rest_step hq h hs

end Step

end SystemCDma.BurstDriver
