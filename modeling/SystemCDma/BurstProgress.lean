import SystemCDma.BurstDriver

/-!
# When a burst still gets done

A burst gets done if its processor reaches `wfi` before the interrupt of the
transfer has come. Then there is always a next step, of the processor or of the
clock, that brings the burst nearer to its end. If the interrupt comes first,
the handler clears it, and nothing that happens afterwards brings the processor
past this `wfi`.
-/

namespace SystemCDma.BurstProgress

open TlmBus TransferEngine EventRun DualDma BurstDriver

variable {PC : Type}

/-- The interrupt of the burst has not come before `wfi` is executed: at `wfi`
START is still in its register, and the processor sleeps or the interrupt is
still to come. -/
def Timely (k : Core PC) (c : Channel) : Prop :=
  k.pos=.wfi → c.regAddr 3≠0 ∧ (k.mode=.sleep ∨ (k.mode=.run ∧ c.interrupt=false))

/-- A processor falls asleep before the interrupt has come, or when it is gone. -/
def Slept (k : Core PC) (c : Channel) : Prop := k.mode=.sleep → c.regAddr 3≠0 ∨ Quiet c

/-- The interrupt of the burst came before `wfi`. -/
structure Missed (prog : Program PC) (q : Request) (k : Core PC) (c : Channel) : Prop where
  /-- The burst is the current operation. -/
  fetch : prog.fetch k.pc=.burst q
  /-- It is at `wfi`. -/
  pos : k.pos=.wfi
  /-- The transfer is complete. -/
  after : After q c
  /-- If the processor sleeps, nothing is going to wake it. -/
  asleep : k.mode=.sleep → Quiet c

/-- Number of edges to the interrupt of a burst of one word. -/
def edgesLeft (c : Channel) : ℕ :=
  if c.interrupt then 0 else if c.startClear then if c.offset=c.size then 1 else 2 else 3

/-- A bound on the steps of the processor and the clock to the end of a burst of
one word. -/
def delay (k : Core PC) (c : Channel) : ℕ :=
  match k.pos with
  -- From the registers on: every write, `wfi`, three edges and the handler.
  | .write i => 40-i.val
  | .wfi =>
    match k.mode with
    | .sleep => 21+edgesLeft c
    | _ => 30
  | .woken =>
    match k.mode with
    | .run =>
      -- The handler comes first if it has not cleared; else the interrupt falls.
      if c.interrupt then if c.regAddr 3≠0 then 9 else if c.startClear then 3 else 2
      else 1
    | .sleep => 0
    | .test => 8
    | .print => 7
    | .clear => 6
    | .mret => if c.regAddr 3≠0 then 10 else 4

/-- The clock has to move on: the processor sleeps through the transfer, or its
cleared interrupt has not fallen yet. -/
def Dozing (k : Core PC) (c : Channel) : Prop :=
  (k.pos=.wfi ∧ k.mode=.sleep ∧ c.interrupt=false) ∨
    (k.pos=.woken ∧ k.mode=.run ∧ c.interrupt=true ∧ c.regAddr 3=0)

/-- The processor is about to execute `wfi`. -/
def AtWfi (k : Core PC) : Prop := k.pos=.wfi ∧ k.mode=.run

/-- During a transfer START is in its register. -/
theorem kept_of_during {q : Request} {n : ℕ} {c : Channel} (h : During q n c) :
    c.regAddr 3≠0 := by
  cases h with
  | armed _ _ written =>
    rw [written 3]
    exact (by decide : (1 : BitVec 32)≠0)
  | moving _ _ kept => exact kept

section Missed

variable {prog : Program PC} {q : Request} {k k' : Core PC} {c : Channel} {n : ℕ}
  {access : Option Access} {side : Side} {read : BitVec 32 → BitVec 8}

/-- No edge changes that. -/
theorem Missed.tick (h : Missed prog q k c) : Missed prog q k c.tick :=
  ⟨h.fetch,h.pos,h.after.tick,fun hs => (h.asleep hs).tick⟩

/-- Nor does the processor, which stays where it is. -/
theorem Missed.step (h : Missed prog q k c)
    (hs : k.step prog side c.interrupt read=some (k',access)) :
    k'.pc=k.pc ∧ Missed prog q k' (serve c access) := by
  obtain ⟨pc,pos,mode⟩ := k
  obtain ⟨hfetch,rfl,hafter,hasleep⟩ := h
  dsimp only at hfetch hasleep
  cases mode with
  | run =>
    cases hirq : c.interrupt with
    | true =>
      simp only [Core.step,hirq,prog.burst_enabled _ _ hfetch,Bool.and_self,if_true] at hs
      cases hs
      exact ⟨rfl,hfetch,rfl,hafter,Mode.noConfusion⟩
    | false =>
      simp only [Core.step,hirq,Bool.false_and,Bool.false_eq_true,if_false,Core.main,hfetch] at hs
      cases hs
      exact ⟨rfl,hfetch,rfl,hafter,fun _ => hafter.quiet_of_low hirq⟩
  | sleep =>
    simp only [Core.step,(hasleep rfl).low,Bool.false_eq_true,if_false,reduceCtorEq] at hs
  | test =>
    cases hs
    refine ⟨rfl,hfetch,rfl,hafter,?_⟩
    dsimp only
    split <;> exact Mode.noConfusion
  | print =>
    cases hs
    exact ⟨rfl,hfetch,rfl,hafter,Mode.noConfusion⟩
  | clear =>
    cases hs
    exact ⟨rfl,hfetch,rfl,hafter.clear,Mode.noConfusion⟩
  | mret =>
    cases hs
    exact ⟨rfl,hfetch,rfl,hafter,Mode.noConfusion⟩

/-- Edges do not disturb a sleeping processor. -/
theorem Slept.tick (h : Slept k c) : Slept k c.tick := fun hs => (h hs).imp_right Quiet.tick

/-- A processor falls asleep at `wfi` with the interrupt low. -/
theorem Slept.step (hready : Ready prog k n c)
    (hs : k.step prog side c.interrupt read=some (k',access)) : Slept k' (serve c access) := by
  intro hsleep
  obtain ⟨pc,pos,mode⟩ := k
  cases mode with
  | run =>
    dsimp only [Core.step] at hs
    split_ifs at hs with hirq
    · cases hs
      cases hsleep
    · cases hfetch : prog.fetch pc with
      | burst q =>
        simp only [Core.main,hfetch] at hs
        simp only [prog.burst_enabled _ _ hfetch,Bool.and_true,Bool.not_eq_true] at hirq
        simp only [Ready,hfetch,Op.request] at hready
        cases pos with
        | wfi =>
          cases hs
          cases hready with
          | during _ transfer => exact Or.inl (kept_of_during transfer)
          | early after => exact Or.inr (after.quiet_of_low hirq)
        | write i =>
          cases hs
          cases hsleep
        | woken =>
          cases hs
          cases hsleep
      | poll address value =>
        simp only [Core.main,hfetch] at hs
        split_ifs at hs <;> cases hs <;> cases hsleep
      | writeReg8 address value =>
        simp only [Core.main,hfetch] at hs
        cases hs
        cases hsleep
      | internal =>
        simp only [Core.main,hfetch] at hs
        cases hs
        cases hsleep
      | halt => simp only [Core.main,hfetch,reduceCtorEq] at hs
  | sleep =>
    dsimp only [Core.step] at hs
    split_ifs at hs
    cases hs
    cases hsleep
  | test =>
    cases hs
    dsimp only at hsleep
    split_ifs at hsleep
  | print =>
    cases hs
    cases hsleep
  | clear =>
    cases hs
    cases hsleep
  | mret =>
    cases hs
    cases hsleep

/-- A processor that is not timely has missed its interrupt. -/
theorem missed_of_not_timely (hready : Ready prog k n c) (hslept : Slept k c) (h : ¬Timely k c) :
    ∃ q,Missed prog q k c := by
  obtain ⟨pc,pos,mode⟩ := k
  obtain ⟨hpos,hlate⟩ := Classical.not_imp.mp h
  obtain rfl : pos=.wfi := hpos
  obtain ⟨q,hfetch⟩ := hready.at_wfi rfl
  simp only [Ready,hfetch,Op.request] at hready
  cases hready with
  | during main transfer =>
    exact absurd ⟨kept_of_during transfer,main.elim (fun hm => Or.inr ⟨hm,transfer.low⟩) Or.inl⟩
      hlate
  | early after =>
    refine ⟨q,hfetch,rfl,after,fun hsleep => (hslept hsleep).resolve_left fun hkept => ?_⟩
    exact hlate ⟨hkept,Or.inl hsleep⟩

end Missed

section Clock

variable {q : Request} {k : Core PC} {c : Channel} {n : ℕ}

/-- The time left to a sleeping processor. -/
theorem delay_asleep (hpos : k.pos=.wfi) (hmode : k.mode=.sleep) : delay k c=21+edgesLeft c := by
  rw [delay,hpos,hmode]

/-- The time left after the handler has returned. -/
theorem delay_woken (hpos : k.pos=.woken) (hmode : k.mode=.run) :
    delay k c=if c.interrupt then if c.regAddr 3≠0 then 9 else if c.startClear then 3 else 2
      else 1 := by
  rw [delay,hpos,hmode]

/-- Three edges are left when START has been written. -/
theorem edgesLeft_armed (low : c.interrupt=false) (idle : c.startClear=false) :
    edgesLeft c=3 := by
  rw [edgesLeft,low,idle]
  rfl

/-- Two are left before the word is moved. -/
theorem edgesLeft_moving (progress : c.Progress q n) (hn : 4*n≠q.size.toNat) :
    edgesLeft c=2 := by
  have hend : c.offset≠c.size := by
    rw [progress.size,ne_eq,←BitVec.toNat_inj,progress.offset]
    exact hn
  rw [edgesLeft,progress.quiet,progress.started,if_neg hend]
  rfl

/-- One is left when it has been moved. -/
theorem edgesLeft_moved (progress : c.Progress q n) (hn : 4*n=q.size.toNat) :
    edgesLeft c=1 := by
  have hend : c.offset=c.size := by
    rw [progress.size,←BitVec.toNat_inj,progress.offset,hn]
  rw [edgesLeft,progress.quiet,progress.started,if_pos hend]
  rfl

/-- None is left when the interrupt is high. -/
theorem edgesLeft_high (high : c.interrupt=true) : edgesLeft c=0 := by
  rw [edgesLeft,high]
  rfl

/-- An edge of the transfer is one of those left. -/
theorem edgesLeft_tick (hword : q.size.toNat=4) (h : During q n c) :
    edgesLeft c=edgesLeft c.tick+1 := by
  cases h with
  | armed idle low written =>
    rw [edgesLeft_armed low idle,edgesLeft_moving (armed_tick idle written) (by omega)]
  | moving progress bound kept =>
    by_cases hn : 4*n=q.size.toNat
    · have hhigh : c.tick.interrupt=true := (progress.tick_raise c.regAddr hn).1.high
      rw [edgesLeft_moved progress hn,edgesLeft_high hhigh]
    · have hnext : 4*(n+1)=q.size.toNat := by omega
      have hprogress : c.tick.Progress q (n+1) := progress.tick_move c.regAddr hnext.le
      rw [edgesLeft_moving progress hn,edgesLeft_moved hprogress hnext]

/-- The transfer of one word comes nearer to its end at every edge. -/
theorem during_tick (hword : q.size.toNat=4) (hpos : k.pos=.wfi) (hmode : k.mode=.sleep)
    (h : During q n c) : delay k c.tick<delay k c := by
  rw [delay_asleep hpos hmode,delay_asleep hpos hmode,edgesLeft_tick hword h]
  omega

/-- After a transfer the interrupt stays until the CLEAR. -/
theorem high_of_after (h : After q c) (hkept : c.regAddr 3≠0) :
    c.startClear=true ∧ c.interrupt=true := by
  cases h with
  | raised done started _ => exact ⟨started,done.high⟩
  | fading _ _ cleared => exact absurd cleared hkept
  | quiet quiet => exact absurd quiet.cleared hkept

/-- A cleared interrupt falls. -/
theorem cleared_tick (hpos : k.pos=.woken) (hmode : k.mode=.run) (h : After q c)
    (hhigh : c.interrupt=true) (hzero : c.regAddr 3=0) : delay k c.tick<delay k c := by
  have hzero' : ¬c.tick.regAddr 3≠0 := not_not_intro hzero
  rw [delay_woken hpos hmode,delay_woken hpos hmode,hhigh,if_pos rfl,if_neg hzero',
    if_neg (not_not_intro hzero)]
  cases h with
  | raised done started _ =>
    have hidle : c.tick.startClear=false := by
      refine (done.tick_hold c.regAddr started).2.trans ?_
      rw [hzero]
      rfl
    rw [started,hidle,if_pos rfl,if_neg Bool.false_ne_true]
    split_ifs <;> decide
  | fading idle _ _ =>
    have hlow : c.tick.interrupt=false := by
      rw [Channel.tick,tick_idle c.regAddr idle]
    rw [hlow,idle,if_neg Bool.false_ne_true,if_neg Bool.false_ne_true]
    decide
  | quiet quiet => exact Bool.noConfusion (hhigh.symm.trans quiet.low)

/-- An edge keeps a processor timely that is not about to execute `wfi`. -/
theorem Timely.tick (h : Timely k c) (hnot : ¬AtWfi k) : Timely k c.tick := by
  intro hpos
  obtain ⟨hkept,hmode⟩ := h hpos
  exact ⟨hkept,hmode.imp_right fun hm => absurd ⟨hpos,hm.1⟩ hnot⟩

/-- Nor do any number of edges change that. -/
theorem Timely.ticks (h : Timely k c) (hnot : ¬AtWfi k) (m : ℕ) :
    Timely k (Channel.tick^[m] c) := by
  induction m with
  | zero => exact h
  | succ m ih =>
    rw [Function.iterate_succ_apply']
    exact ih.tick hnot

/-- The interrupt of a timely processor at `wfi` comes while it sleeps. -/
theorem Timely.asleep (h : Timely k c) (hpos : k.pos=.wfi) (ha : After q c) :
    k.mode=.sleep ∧ c.regAddr 3≠0 ∧ c.interrupt=true := by
  obtain ⟨hkept,hmode⟩ := h hpos
  obtain ⟨_,hhigh⟩ := high_of_after ha hkept
  rcases hmode with hsleep|⟨_,hlow⟩
  · exact ⟨hsleep,hkept,hhigh⟩
  · exact Bool.noConfusion (hlow.symm.trans hhigh)

/-- An edge takes a timely processor no further from the end of its burst, and
nearer to it if the processor can only wait. -/
theorem joint_tick (hword : q.size.toNat=4) (h : Joint q n k.pos k.mode c) (ht : Timely k c)
    (hnot : ¬AtWfi k) :
    delay k c.tick≤delay k c ∧ (Dozing k c → delay k c.tick<delay k c) := by
  obtain ⟨pc,pos,mode⟩ := k
  cases h with
  | programming _ _ =>
    exact ⟨le_refl _,fun hd => hd.elim (fun hw => nomatch hw.1) fun hw => nomatch hw.1⟩
  | during main transfer =>
    rcases main with rfl|rfl
    · exact absurd ⟨rfl,rfl⟩ hnot
    · have hlt := during_tick (k := ⟨pc,.wfi,.sleep⟩) hword rfl rfl transfer
      exact ⟨hlt.le,fun _ => hlt⟩
  | early after =>
    obtain ⟨hsleep,hkept,hhigh⟩ := ht.asleep rfl after
    obtain rfl : mode=.sleep := hsleep
    have hhigh' : c.tick.interrupt=true := (high_of_after after.tick hkept).2
    refine ⟨?_,fun hd => ?_⟩
    · rw [delay_asleep rfl rfl,delay_asleep rfl rfl,edgesLeft_high hhigh,edgesLeft_high hhigh']
    · rcases hd with ⟨_,_,hlow⟩|⟨hw,_⟩
      · exact Bool.noConfusion (hlow.symm.trans hhigh)
      · cases hw
  | woken awake after =>
    by_cases hrun : mode=.run
    · subst hrun
      by_cases hzero : c.regAddr 3=0
      · cases hirq : c.interrupt with
        | true =>
          have hlt := cleared_tick (k := ⟨pc,.woken,.run⟩) rfl rfl after hirq hzero
          exact ⟨hlt.le,fun _ => hlt⟩
        | false =>
          have hlow := (after.quiet_of_low hirq).tick.low
          refine ⟨?_,fun hd => ?_⟩
          · rw [delay_woken rfl rfl,delay_woken rfl rfl,hirq,hlow]
            exact le_refl 1
          · rcases hd with ⟨hw,_⟩|⟨_,_,hhigh,_⟩
            · cases hw
            · exact Bool.noConfusion (hirq.symm.trans hhigh)
      · have hhigh := (high_of_after after hzero).2
        have hhigh' : c.tick.interrupt=true := (high_of_after after.tick hzero).2
        refine ⟨?_,fun hd => ?_⟩
        · rw [delay_woken rfl rfl,delay_woken rfl rfl,hhigh,hhigh',if_pos rfl,if_pos rfl,
            if_pos hzero]
          split_ifs <;> decide
        · rcases hd with ⟨hw,_⟩|⟨_,_,_,hz⟩
          · cases hw
          · exact absurd hz hzero
    · refine ⟨?_,fun hd => hd.elim (fun hw => nomatch hw.1) fun hw => absurd hw.2.1 hrun⟩
      cases mode with
      | run => exact absurd rfl hrun
      | sleep => exact absurd rfl awake
      | test => exact le_refl 8
      | print => exact le_refl 7
      | clear => exact le_refl 6
      | mret => exact le_refl (if c.regAddr 3≠0 then 10 else 4)

/-- Once the interrupt has come to a processor that is about to execute `wfi`,
no edge makes it timely again. -/
theorem late_wfi (h : AtWfi k) (ha : After q c) (m : ℕ) : ¬Timely k (Channel.tick^[m] c) := by
  have hafter : ∀ m,After q (Channel.tick^[m] c) := by
    intro m
    induction m with
    | zero => exact ha
    | succ m ih =>
      rw [Function.iterate_succ_apply']
      exact ih.tick
  intro ht
  have hsleep := (ht.asleep h.1 (hafter m)).1
  exact Mode.noConfusion (h.2.symm.trans hsleep)

/-- A processor that is about to execute `wfi` is timely as long as an edge is
left. -/
theorem timely_wfi_iff (hword : q.size.toNat=4) (h : AtWfi k) (hd : During q n c) (m : ℕ) :
    Timely k (Channel.tick^[m] c) ↔ m < edgesLeft c := by
  induction m generalizing n c with
  | zero =>
    have hleft := edgesLeft_tick hword hd
    exact ⟨fun _ => by omega,fun _ _ => ⟨kept_of_during hd,Or.inr ⟨h.2,hd.low⟩⟩⟩
  | succ m ih =>
    have hleft := edgesLeft_tick hword hd
    rw [Function.iterate_succ_apply]
    rcases hd.tick (dvd_of_eq hword.symm) with ⟨_,_,_,hnext⟩|⟨_,hnext⟩|⟨_,_,_,_,hnext⟩
    · rw [ih hnext]
      omega
    · rw [ih hnext]
      omega
    · have hkept := kept_of_during hd
      have hnone := edgesLeft_high (high_of_after hnext hkept).2
      exact ⟨fun ht => absurd ht (late_wfi h hnext m),fun hlt => by omega⟩

end Clock

section Step

variable {prog : Program PC} {left : PC → ℕ} {k k' : Core PC} {c c' : Channel} {n : ℕ}
  {side : Side} {read : BitVec 32 → BitVec 8}

/-- A bound on the steps to the end of the program, from one on the operations
still to come. The delay within an operation is less than fifty. -/
def rank (left : PC → ℕ) (k : Core PC) (c : Channel) : ℕ := 50*left k.pc+delay k c

/-- The processor is timely again, and nearer to the end of its program. -/
structure Nearer (left : PC → ℕ) (k k' : Core PC) (c c' : Channel) : Prop where
  /-- It is timely. -/
  timely : Timely k' c'
  /-- It is nearer. -/
  lt : rank left k' c' < rank left k c

/-- Nearer to the end of the same operation. -/
theorem nearer_stay (hpc : k'.pc=k.pc) (ht : Timely k' c') (h : delay k' c'<delay k c) :
    Nearer left k k' c c' := by
  refine ⟨ht,?_⟩
  rw [rank,rank,hpc]
  omega

/-- Nearer by one operation. -/
theorem nearer_next (prog : Program PC) (hleft : left (prog.advance k.pc)<left k.pc) :
    Nearer left k (k.next prog) c c' := by
  refine ⟨fun hpos => (nomatch hpos),?_⟩
  have hdelay : delay (k.next prog) c'=40 := rfl
  rw [rank,rank,hdelay]
  change 50*left (prog.advance k.pc)+40<_
  omega

/-- Not at `wfi` a processor is timely. -/
theorem timely_of_ne (h : k.pos≠.wfi) : Timely k c := fun hpos => absurd hpos h

/-- Programming a register takes a burst on. -/
theorem write_nearer {q : Request} {pc : PC} {i : Fin 4} (hquiet : Quiet c) :
    Nearer left ⟨pc,.write i,.run⟩ ⟨pc,if i=3 then .wfi else .write (i+1),.run⟩ c
      (c.write i (dmaBurst q i)) := by
  by_cases hi : i=3
  · subst hi
    obtain ⟨_,hlow,hreg⟩ := hquiet.write 3 (dmaBurst q 3)
    refine nearer_stay rfl (fun _ => ⟨?_,Or.inr ⟨rfl,hlow⟩⟩) (by decide : 30<37)
    rw [hreg,if_pos rfl]
    exact (by decide : (1 : BitVec 32)≠0)
  · have hsucc : ∀ j : Fin 4,j≠3 → 40-(j+1).val<40-j.val := by decide
    rw [if_neg hi]
    exact nearer_stay rfl (timely_of_ne Pos.noConfusion) (hsucc i hi)

/-- No more than three edges are left. -/
theorem edgesLeft_le : edgesLeft c≤3 := by
  unfold edgesLeft
  split_ifs <;> decide

/-- The time left to a processor that is asleep is less than the time before. -/
theorem delay_sleep {pc : PC} : delay (⟨pc,.wfi,.sleep⟩ : Core PC) c<30 := by
  have hle := edgesLeft_le (c := c)
  rw [delay_asleep rfl rfl]
  omega

/-- The handler and the main program after `wfi` come to the end of a burst, or
wait for the cleared interrupt to fall. -/
theorem woken_nearer {q : Request} {pc : PC} {mode : Mode} (hfetch : prog.fetch pc=.burst q)
    (hleft : left (prog.advance pc)<left pc) (hread : read (clearAddress side)≠0)
    (awake : mode≠.sleep) (after : After q c) :
    Dozing ⟨pc,.woken,mode⟩ c ∨
      ∃ k' access,(⟨pc,.woken,mode⟩ : Core PC).step prog side c.interrupt read=some (k',access) ∧
        Nearer left ⟨pc,.woken,mode⟩ k' c (serve c access) := by
  have hpos : ∀ m,Timely (⟨pc,.woken,m⟩ : Core PC) c := fun m => timely_of_ne Pos.noConfusion
  have henabled := prog.burst_enabled _ _ hfetch
  cases mode with
  | run =>
    cases hirq : c.interrupt with
    | false =>
      refine Or.inr ⟨_,none,?_,nearer_next prog hleft⟩
      simp only [Core.step,Bool.false_and,Bool.false_eq_true,if_false,Core.main,hfetch]
    | true =>
      by_cases hzero : c.regAddr 3=0
      · exact Or.inl (Or.inr ⟨rfl,rfl,hirq,hzero⟩)
      · refine Or.inr ⟨⟨pc,.woken,.test⟩,none,?_,nearer_stay rfl (hpos _) ?_⟩
        · simp only [Core.step,henabled,Bool.and_self,if_true]
        · rw [delay_woken (k := ⟨pc,.woken,.run⟩) rfl rfl,hirq,if_pos rfl,if_pos hzero]
          exact (by decide : 8<9)
  | sleep => exact absurd rfl awake
  | test =>
    refine Or.inr ⟨⟨pc,.woken,.print⟩,none,?_,nearer_stay rfl (hpos _) (by decide : 7<8)⟩
    simp only [Core.step,hread,ne_eq,not_false_iff,if_true]
  | print =>
    exact Or.inr ⟨⟨pc,.woken,.clear⟩,none,rfl,nearer_stay rfl (hpos _) (by decide : 6<7)⟩
  | clear =>
    refine Or.inr ⟨⟨pc,.woken,.mret⟩,_,rfl,nearer_stay rfl (timely_of_ne Pos.noConfusion) ?_⟩
    have hzero : (c.write 3 0).regAddr 3=0 := by
      rw [Channel.write_open after.isOpen,if_pos rfl]
    change (if (c.write 3 0).regAddr 3≠0 then 10 else 4)<6
    rw [if_neg (not_not_intro hzero)]
    decide
  | mret =>
    refine Or.inr ⟨⟨pc,.woken,.run⟩,none,rfl,nearer_stay rfl (hpos _) ?_⟩
    rw [delay_woken (k := ⟨pc,.woken,.run⟩) rfl rfl]
    change (if c.interrupt then if c.regAddr 3≠0 then 9 else if c.startClear then 3 else 2
      else 1)<(if c.regAddr 3≠0 then 10 else 4)
    by_cases hkept : c.regAddr 3≠0
    · rw [if_pos hkept,if_pos hkept]
      split_ifs <;> decide
    · rw [if_neg hkept,if_neg hkept]
      split_ifs <;> decide

/-- A timely processor has a step that takes it nearer to the end of its
program, unless it is there, polls a byte that has not its value yet, or has to
wait for the clock. -/
theorem step_nearer (hready : Ready prog k n c) (ht : Timely k c)
    (hread : read (clearAddress side)≠0)
    (hleft : prog.fetch k.pc≠.halt → left (prog.advance k.pc)<left k.pc) :
    prog.fetch k.pc=.halt ∨
      (∃ address value,prog.fetch k.pc=.poll address value ∧ read address≠value) ∨ Dozing k c ∨
      ∃ k' access,k.step prog side c.interrupt read=some (k',access) ∧
        Nearer left k k' c (serve c access) := by
  obtain ⟨pc,pos,mode⟩ := k
  dsimp only at hleft
  cases hfetch : prog.fetch pc with
  | burst q =>
    have hless := hleft (by rw [hfetch]; exact Op.noConfusion)
    simp only [Ready,hfetch,Op.request] at hready
    refine Or.inr (Or.inr ?_)
    cases hready with
    | @programming i _ quiet written =>
      refine Or.inr ⟨_,some (.register i (dmaBurst q i)),?_,write_nearer quiet⟩
      simp only [Core.step,quiet.low,Bool.false_and,Bool.false_eq_true,if_false,Core.main,hfetch]
    | during main transfer =>
      rcases main with rfl|rfl
      · refine Or.inr ⟨⟨pc,.wfi,.sleep⟩,none,?_,?_⟩
        · simp only [Core.step,transfer.low,Bool.false_and,Bool.false_eq_true,if_false,
            Core.main,hfetch]
        · exact nearer_stay rfl (fun _ => ⟨kept_of_during transfer,Or.inl rfl⟩) delay_sleep
      · exact Or.inl (Or.inl ⟨rfl,rfl,transfer.low⟩)
    | early after =>
      obtain ⟨hsleep,_,hhigh⟩ := ht.asleep rfl after
      obtain rfl : mode=.sleep := hsleep
      refine Or.inr ⟨⟨pc,.woken,.test⟩,none,?_,nearer_stay rfl (timely_of_ne Pos.noConfusion) ?_⟩
      · simp only [Core.step,hhigh,if_true]
      · rw [delay_asleep (k := ⟨pc,.wfi,.sleep⟩) rfl rfl,edgesLeft_high hhigh]
        exact (by decide : 8<21)
    | woken awake after => exact woken_nearer hfetch hless hread awake after
  | poll address value =>
    have hless := hleft (by rw [hfetch]; exact Op.noConfusion)
    simp only [Ready,hfetch,Op.request] at hready
    obtain ⟨_,_,rfl,hquiet⟩ := hready
    by_cases hvalue : read address=value
    · refine Or.inr (Or.inr (Or.inr ⟨_,none,?_,nearer_next prog hless⟩))
      simp only [Core.step,hquiet.low,Bool.false_and,Bool.false_eq_true,if_false,Core.main,hfetch,
        hvalue,if_true]
    · exact Or.inr (Or.inl ⟨address,value,rfl,hvalue⟩)
  | writeReg8 address value =>
    have hless := hleft (by rw [hfetch]; exact Op.noConfusion)
    simp only [Ready,hfetch,Op.request] at hready
    obtain ⟨_,_,rfl,hquiet⟩ := hready
    refine Or.inr (Or.inr (Or.inr ⟨_,some (.byte address value),?_,
      nearer_next prog hless⟩))
    simp only [Core.step,hquiet.low,Bool.false_and,Bool.false_eq_true,if_false,Core.main,hfetch]
  | internal =>
    have hless := hleft (by rw [hfetch]; exact Op.noConfusion)
    simp only [Ready,hfetch,Op.request] at hready
    obtain ⟨_,_,rfl,hquiet⟩ := hready
    refine Or.inr (Or.inr (Or.inr ⟨_,none,?_,nearer_next prog hless⟩))
    simp only [Core.step,hquiet.low,Bool.false_and,Bool.false_eq_true,if_false,Core.main,hfetch]
  | halt => exact Or.inl rfl

/-- An edge takes no timely processor further from the end of its program that
is not about to execute `wfi`. -/
theorem rank_tick (hready : Ready prog k n c) (hwords : ∀ q,prog.fetch k.pc=.burst q →
    q.size.toNat=4) (ht : Timely k c) (hnot : ¬AtWfi k) :
    rank left k c.tick ≤ rank left k c ∧ (Dozing k c → rank left k c.tick < rank left k c) := by
  have hdelay : delay k c.tick≤delay k c ∧ (Dozing k c → delay k c.tick<delay k c) := by
    unfold Ready at hready
    cases hq : (prog.fetch k.pc).request with
    | some q =>
      rw [hq] at hready
      exact joint_tick (hwords q (request_some hq)) hready ht hnot
    | none =>
      rw [hq] at hready
      obtain ⟨pc,pos,mode⟩ := k
      obtain ⟨_,rfl,_,_⟩ := hready
      exact ⟨le_refl 40,fun hd => hd.elim (fun hw => nomatch hw.1) fun hw => nomatch hw.1⟩
  exact ⟨Nat.add_le_add_left hdelay.1 _,fun hd => Nat.add_lt_add_left (hdelay.2 hd) _⟩

/-- While registers are written, and outside bursts, the main program runs and
the channel is quiet. -/
theorem ready_write {i : Fin 4} (h : Ready prog k n c) (hpos : k.pos=.write i) :
    k.mode=.run ∧ Quiet c := by
  obtain ⟨pc,pos,mode⟩ := k
  obtain rfl : pos=.write i := hpos
  unfold Ready at h
  dsimp only at h
  cases hq : (prog.fetch pc).request with
  | some q =>
    rw [hq] at h
    cases h with
    | programming quiet _ => exact ⟨rfl,quiet⟩
  | none =>
    rw [hq] at h
    exact ⟨h.main,h.quiet⟩

/-- A step there writes the next register, comes to `wfi`, or leaves the
operation, or polls once more. -/
theorem step_write {i : Fin 4} {access : Option Access} (h : Ready prog k n c)
    (hpos : k.pos=.write i) (hs : k.step prog side c.interrupt read=some (k',access)) :
    (k'.pc=k.pc ∧ k'.mode=.run ∧ (k'.pos=.wfi ∨ ∃ j,k'.pos=.write j)) ∨
      (k'=k.next prog ∧ ∀ q,prog.fetch k.pc≠.burst q) := by
  obtain ⟨hmode,hquiet⟩ := ready_write h hpos
  simp only [Core.step,hmode,hquiet.low,Bool.false_and,Bool.false_eq_true,if_false,Core.main] at hs
  cases hfetch : prog.fetch k.pc with
  | burst q =>
    simp only [hfetch,hpos,Option.some.injEq,Prod.mk.injEq] at hs
    obtain ⟨rfl,_⟩ := hs
    refine Or.inl ⟨rfl,rfl,?_⟩
    dsimp only
    split_ifs
    · exact Or.inl rfl
    · exact Or.inr ⟨i+1,rfl⟩
  | writeReg8 address value =>
    simp only [hfetch,Option.some.injEq,Prod.mk.injEq] at hs
    exact Or.inr ⟨hs.1.symm,fun q => Op.noConfusion⟩
  | poll address value =>
    simp only [hfetch,Option.some.injEq,Prod.mk.injEq] at hs
    by_cases hvalue : read address=value
    · rw [if_pos hvalue] at hs
      exact Or.inr ⟨hs.1.symm,fun q => Op.noConfusion⟩
    · rw [if_neg hvalue] at hs
      obtain ⟨rfl,_⟩ := hs
      exact Or.inl ⟨rfl,hmode,Or.inr ⟨i,hpos⟩⟩
  | internal =>
    simp only [hfetch,Option.some.injEq,Prod.mk.injEq] at hs
    exact Or.inr ⟨hs.1.symm,fun q => Op.noConfusion⟩
  | halt => simp only [hfetch,reduceCtorEq] at hs

end Step

end SystemCDma.BurstProgress
