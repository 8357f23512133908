import SystemCDma.FlagProtocol
import SystemCDma.BurstProgress

/-!
# The flag protocol does not deadlock

The flag tells whose turn it is, and the numbers of finished rounds of the two
programs agree with it. So the two are never stuck together: whoever waits for
the flag waits for a program that is on its way to the flag write. If both
processors are timely in their bursts, there is a step that keeps them timely
and takes the system nearer to the end of both programs.
-/

namespace SystemCDma.FlagProgress

open ByteMemory TlmBus TransferEngine DualDma BurstDriver FlagProtocol BurstProgress
open EventRun hiding advance

/-- A round in progress is one of the rounds. -/
def InRounds (rounds : ℕ) : PC → Prop
  | .poll k => k < rounds
  | .burst k _ => k < rounds
  | .flag k => k < rounds
  | _ => True

/-- Number of finished rounds, that is, of flag writes. -/
def roundsDone (rounds : ℕ) : PC → ℕ
  | .fill _ _ => 0
  | .intInit => 0
  | .poll k => k
  | .burst k _ => k
  | .flag k => k
  | .finish => rounds

/-- A bound on the operations to the end of the program. -/
def left (rounds : ℕ) : PC → ℕ
  | .fill i _ => 300*rounds+302+(1024-i)
  | .intInit => 300*rounds+301
  | .poll k => 300*(rounds-k)+300
  | .burst k i => 300*(rounds-k)+(256-i)+2
  | .flag k => 300*(rounds-k)+1
  | .finish => 0

/-- Every operation but the end decreases it. -/
theorem left_advance {a : App} {rounds : ℕ} {pc : PC} (h : pc≠.finish) :
    left rounds (advance a rounds pc)<left rounds pc := by
  cases pc with
  | fill i data =>
    dsimp only [advance]
    split_ifs <;> dsimp only [left] <;> omega
  | intInit =>
    dsimp only [advance]
    split_ifs <;> dsimp only [left] <;> omega
  | poll k =>
    dsimp only [advance,left]
    omega
  | burst k i =>
    dsimp only [advance]
    split_ifs <;> dsimp only [left] <;> omega
  | flag k =>
    dsimp only [advance]
    split_ifs <;> dsimp only [left] <;> omega
  | finish => exact absurd rfl h

/-- The flag write finishes a round. -/
theorem flag_advance {a : App} {rounds k : ℕ} (h : k < rounds) :
    roundsDone rounds (advance a rounds (.flag k))=k+1 ∧
      InRounds rounds (advance a rounds (.flag k)) := by
  dsimp only [advance]
  split_ifs with hk
  · exact ⟨rfl,hk⟩
  · dsimp only [roundsDone]
    exact ⟨by omega,trivial⟩

/-- No other operation does. -/
theorem other_advance {a : App} {rounds : ℕ} {pc : PC} (h : InRounds rounds pc)
    (hflag : ∀ k,pc≠.flag k) :
    roundsDone rounds (advance a rounds pc)=roundsDone rounds pc ∧
      InRounds rounds (advance a rounds pc) := by
  cases pc with
  | fill i data =>
    dsimp only [advance]
    split_ifs <;> exact ⟨rfl,trivial⟩
  | intInit =>
    dsimp only [advance]
    split_ifs with hr
    · exact ⟨rfl,hr⟩
    · dsimp only [roundsDone]
      exact ⟨by omega,trivial⟩
  | poll k => exact ⟨rfl,h⟩
  | burst k i =>
    dsimp only [advance]
    split_ifs <;> exact ⟨rfl,h⟩
  | flag k => exact absurd rfl (hflag k)
  | finish => exact ⟨rfl,trivial⟩

/-- The flag agrees with the finished rounds: they are equally many when it is
the turn of the first processor, and one more of the first one when it is the
turn of the second. -/
structure Turns (rounds : ℕ) (s : System) : Prop where
  /-- No program is in a round beyond the last. -/
  inside : ∀ side,InRounds rounds (s.core side).pc
  /-- The flag and the rounds. -/
  count : (s.world.mem flagAddress.toNat=0 ∧
      roundsDone rounds (s.core .one).pc=roundsDone rounds (s.core .two).pc) ∨
    (s.world.mem flagAddress.toNat=1 ∧
      roundsDone rounds (s.core .one).pc=roundsDone rounds (s.core .two).pc+1)

/-- A program that has finished a round has written the flag. -/
def Marked (rounds : ℕ) (s : System) : Prop :=
  ∀ side,0 < roundsDone rounds (s.core side).pc → s.flagged side=true

/-- What holds of every reachable state besides the invariant of the protocol. -/
structure Live (rounds : ℕ) (s : System) : Prop where
  /-- The flag agrees with the rounds. -/
  turns : Turns rounds s
  /-- A processor that sleeps fell asleep before the interrupt, or it is gone. -/
  slept : ∀ side,Slept (s.core side) (s.world.dma.chan side)

section System

variable {rounds : ℕ} {s s' : System} {side : Side}

/-- The other side is another one. -/
theorem other_ne (side : Side) : side.other≠side := by
  cases side <;> exact Side.noConfusion

/-- Turns depend on the flag and on the finished rounds only. -/
theorem Turns.congr (h : Turns rounds s)
    (hflag : s'.world.mem flagAddress.toNat=s.world.mem flagAddress.toNat)
    (hdone : ∀ t,roundsDone rounds (s'.core t).pc=roundsDone rounds (s.core t).pc)
    (hinside : ∀ t,InRounds rounds (s'.core t).pc) : Turns rounds s' := by
  refine ⟨hinside,?_⟩
  rw [hflag,hdone,hdone]
  exact h.count

/-- What a step of one processor makes of the state. -/
theorem step_cpu {byte : BitVec 8} (hs : s.step rounds (.cpu side byte)=some s') :
    ∃ k access,(s.core side).step (main (app side) rounds) side
        (s.world.dma.chan side).interrupt (s.readReg8 byte)=some (k,access) ∧
      s'.core side=k ∧ s'.world.dma.chan side=serve (s.world.dma.chan side) access ∧
      s'.core side.other=s.core side.other ∧
      s'.world.dma.chan side.other=s.world.dma.chan side.other ∧
      s'.world.mem=remember s.world.mem access := by
  obtain ⟨⟨k,access⟩,hk,he⟩ := Option.map_eq_some_iff.mp hs
  subst he
  exact ⟨k,access,hk,Function.update_self _ _ _,drive_chan _ _ _,
    Function.update_of_ne (other_ne side) _ _,drive_other _ _ _,rfl⟩

/-- What one side makes of a step of either processor: it is a step of its own,
or nothing. -/
theorem step_side (side : Side) {t : Side} {byte : BitVec 8}
    (hs : s.step rounds (.cpu t byte)=some s') :
    (∃ k access,(s.core side).step (main (app side) rounds) side
        (s.world.dma.chan side).interrupt (s.readReg8 byte)=some (k,access) ∧
      s'.core side=k ∧ s'.world.dma.chan side=serve (s.world.dma.chan side) access) ∨
    (s'.core side=s.core side ∧ s'.world.dma.chan side=s.world.dma.chan side) := by
  obtain ⟨k,access,hk,hcore,hchan,hother,hchan',_⟩ := step_cpu hs
  rcases eq_or_other t side with rfl|rfl
  · exact Or.inl ⟨k,access,hk,hcore,hchan⟩
  · exact Or.inr ⟨hother,hchan'⟩

/-- A property of both sides, from the one that stepped and the other one. -/
theorem both_sides (side : Side) {P : Side → Prop} (hown : P side) (hother : P side.other) :
    ∀ t,P t := by
  intro t
  rcases eq_or_other side t with rfl|rfl
  · exact hown
  · exact hother

/-- The flag write of a processor hands its turn to the other one. -/
theorem turns_flag (h : Turns rounds s) {k : ℕ} (hpc : (s.core side).pc=.flag k)
    (hturn : s.world.mem flagAddress.toNat=(app side).turn)
    (hflag : s'.world.mem flagAddress.toNat=(app side).flag)
    (hown : (s'.core side).pc=advance (app side) rounds (.flag k))
    (hother : s'.core side.other=s.core side.other) : Turns rounds s' := by
  have hk : k < rounds := by
    have hin := h.inside side
    rw [hpc] at hin
    exact hin
  obtain ⟨hdone,hin⟩ := flag_advance (a := app side) hk
  have hbefore : roundsDone rounds (s.core side).pc=k := by rw [hpc]; rfl
  refine ⟨both_sides side (by rw [hown]; exact hin) (by rw [hother]; exact h.inside _),?_⟩
  cases side with
  | one =>
    rcases h.count with ⟨_,heq⟩|⟨hone,_⟩
    · refine Or.inr ⟨hflag,?_⟩
      rw [hown,hdone,show s'.core .two=s.core .two from hother,←heq,hbefore]
    · exact absurd (hone.symm.trans hturn) (by decide)
  | two =>
    rcases h.count with ⟨hzero,_⟩|⟨_,heq⟩
    · exact absurd (hzero.symm.trans hturn) (by decide)
    · refine Or.inl ⟨hflag,?_⟩
      rw [hown,hdone,show s'.core .one=s.core .one from hother,heq,hbefore]

/-- A step of a processor keeps flag and rounds in agreement. -/
theorem turns_cpu {byte : BitVec 8} (hinv : Inv rounds s) (h : Turns rounds s)
    (hs : s.step rounds (.cpu side byte)=some s') : Turns rounds s' := by
  obtain ⟨k,access,hk,hcore,_,hother,_,hmem⟩ := step_cpu hs
  obtain ⟨n,hlocal⟩ := hinv side
  rcases (hlocal.ready.step hk).outcome with ⟨hpc,_,hbyte⟩|⟨hgo,_,hdone⟩
  · -- The processor stays at its operation and writes no byte.
    have hsame : remember s.world.mem access=s.world.mem := by
      cases access with
      | none => rfl
      | some x =>
        cases x with
        | register i value => rfl
        | byte address value => exact absurd rfl (hbyte address value)
    have hpcs : ∀ t,(s'.core t).pc=(s.core t).pc :=
      both_sides side (by rw [hcore,hpc]) (by rw [hother])
    exact h.congr (by rw [hmem,hsame]) (fun t => by rw [hpcs]) fun t => by
      rw [hpcs]
      exact h.inside t
  · have hown : (s'.core side).pc=advance (app side) rounds (s.core side).pc := by
      rw [hcore,hgo]
      rfl
    by_cases hflag : ∃ r,(s.core side).pc=.flag r
    · obtain ⟨r,hr⟩ := hflag
      simp only [Done,main,hr,fetch] at hdone
      refine turns_flag h hr (hlocal.turn ?_) ?_ ?_ hother
      · rw [hr]
        trivial
      · rw [hmem,hdone]
        exact setByte_self _ _ _
      · rw [hown,hr]
    · have hne : ∀ r,(s.core side).pc≠.flag r := fun r hr => hflag ⟨r,hr⟩
      obtain ⟨hsame,hin⟩ := other_advance (a := app side) (h.inside side) hne
      have hmem' : remember s.world.mem access flagAddress.toNat=
          s.world.mem flagAddress.toNat := by
        cases hpc : (s.core side).pc with
        | fill i data =>
          have hp := hlocal.placed
          rw [hpc] at hp
          simp only [Done,main,hpc,fetch] at hdone
          rw [hdone]
          refine setByte_of_ne _ _ ?_
          rw [block_toNat (layout side).baseRam hp.1]
          exact ((layout side).baseFlag.ne hp.1).symm
        | flag r => exact absurd hpc (hne r)
        | intInit =>
          simp only [Done,main,hpc,fetch] at hdone
          rw [hdone]
          rfl
        | poll r =>
          simp only [Done,main,hpc,fetch] at hdone
          rw [hdone.2]
          rfl
        | burst r i =>
          simp only [Done,main,hpc,fetch] at hdone
          rw [hdone.2]
          rfl
        | finish => simp only [Done,main,hpc,fetch] at hdone
      refine h.congr (by rw [hmem,hmem']) ?_ ?_
      · exact both_sides side (by rw [hown,hsame]) (by rw [hother])
      · exact both_sides side (by rw [hown]; exact hin)
          (by rw [hother]; exact h.inside _)

/-- A clock edge does not touch the flag. -/
theorem edge_flag (h : Inv rounds s) :
    (s.world.edge busM).mem flagAddress.toNat=s.world.mem flagAddress.toNat :=
  h.edge_frame fun side => (layout side).targetFlag.not_mem

/-- The step lemma of what holds of every reachable state. -/
theorem live_step {a : Act} (hinv : Inv rounds s) (h : Live rounds s)
    (hs : s.step rounds a=some s') : Live rounds s' := by
  cases a with
  | cpu side byte =>
    refine ⟨turns_cpu hinv h.turns hs,fun t => ?_⟩
    obtain ⟨n,hlocal⟩ := hinv t
    rcases step_side t hs with ⟨k,access,hk,hcore,hchan⟩|⟨hcore,hchan⟩
    · rw [hcore,hchan]
      exact Slept.step hlocal.ready hk
    · rw [hcore,hchan]
      exact h.slept t
  | edge =>
    cases hs
    refine ⟨h.turns.congr (edge_flag hinv) (fun _ => rfl) h.turns.inside,fun side => ?_⟩
    dsimp only
    rw [edge_chan]
    exact (h.slept side).tick

/-- A step of a processor that finishes its first round writes the flag. -/
theorem marked_step {a : Act} (hinv : Inv rounds s) (ht : Turns rounds s) (h : Marked rounds s)
    (hs : s.step rounds a=some s') : Marked rounds s' := by
  cases a with
  | edge =>
    cases hs
    exact h
  | cpu side byte =>
    obtain ⟨⟨k,access⟩,hk,he⟩ := Option.map_eq_some_iff.mp hs
    subst he
    obtain ⟨n,hlocal⟩ := hinv side
    refine both_sides side ?_ ?_
    · dsimp only
      rw [Function.update_self,Function.update_self]
      rcases (hlocal.ready.step hk).outcome with ⟨hpc,_,_⟩|⟨hgo,_,hdone⟩
      · rw [hpc]
        intro hpos
        rw [h side hpos,Bool.true_or]
      · by_cases hflag : ∃ r,(s.core side).pc=.flag r
        · obtain ⟨r,hr⟩ := hflag
          simp only [Done,main,hr,fetch] at hdone
          intro _
          rw [hdone]
          exact Bool.or_true _
        · obtain ⟨hsame,_⟩ := other_advance (a := app side) (ht.inside side)
            fun r hr => hflag ⟨r,hr⟩
          have hpc : k.pc=advance (app side) rounds (s.core side).pc := by
            rw [hgo]
            rfl
          rw [hpc,hsame]
          intro hpos
          rw [h side hpos,Bool.true_or]
    · dsimp only
      rw [Function.update_of_ne (other_ne side),Function.update_of_ne (other_ne side)]
      exact h side.other

/-- What holds of the system at the start. -/
theorem live_init (dataS : BitVec 32) : Live rounds (System.init dataS fun _ => 0) := by
  refine ⟨⟨fun side => trivial,Or.inl ⟨rfl,rfl⟩⟩,fun side hsleep => ?_⟩
  cases hsleep

/-- At the start no round is finished. -/
theorem marked_init (dataS : BitVec 32) (mem : Memory) :
    Marked rounds (System.init dataS mem) :=
  fun _ hpos => absurd hpos (Nat.lt_irrefl 0)

/-- At the start both processors are timely. -/
theorem timely_init (dataS : BitVec 32) (mem : Memory) :
    ∀ side,Timely ((System.init dataS mem).core side)
      ((System.init dataS mem).world.dma.chan side) := by
  intro side hpos
  cases hpos

end System

section Progress

variable {rounds : ℕ} {s s' : System} {side : Side}

/-- A bound on the steps to the end of both programs. -/
def remaining (rounds : ℕ) (core : Side → Core PC) (dma : DMA) : ℕ :=
  rank (left rounds) (core .one) (dma.chan .one)+rank (left rounds) (core .two) (dma.chan .two)

/-- Both processors are timely. -/
def AllTimely (core : Side → Core PC) (dma : DMA) : Prop :=
  ∀ side,Timely (core side) (dma.chan side)

/-- Both programs are at their end. -/
def Finished (core : Side → Core PC) : Prop := ∀ side,(core side).pc=.finish

/-- The program waits for its value of the flag. -/
def Waiting (s : System) (side : Side) : Prop :=
  (∃ k,(s.core side).pc=.poll k) ∧ s.world.mem flagAddress.toNat≠(app side).turn

/-- It is enough that one side comes nearer to its end and the other one does
not get further from it. -/
theorem remaining_lt (side : Side) {core core' : Side → Core PC} {dma dma' : DMA}
    (hown : rank (left rounds) (core' side) (dma'.chan side) <
      rank (left rounds) (core side) (dma.chan side))
    (hother : rank (left rounds) (core' side.other) (dma'.chan side.other) ≤
      rank (left rounds) (core side.other) (dma.chan side.other)) :
    remaining rounds core' dma' < remaining rounds core dma := by
  cases side with
  | one => exact Nat.add_lt_add_of_lt_of_le hown hother
  | two => exact Nat.add_lt_add_of_le_of_lt hother hown

/-- A flag that is not the turn of one side is the turn of the other one. -/
theorem Turns.turn_other (h : Turns rounds s)
    (hne : s.world.mem flagAddress.toNat≠(app side).turn) :
    s.world.mem flagAddress.toNat=(app side.other).turn := by
  cases side with
  | one =>
    rcases h.count with ⟨hzero,_⟩|⟨hone,_⟩
    · exact absurd hzero hne
    · exact hone
  | two =>
    rcases h.count with ⟨hzero,_⟩|⟨hone,_⟩
    · exact hzero
    · exact absurd hone hne

/-- While a program waits for its turn, the other one is not at its end. -/
theorem Turns.waiting_other (h : Turns rounds s) (hw : Waiting s side) :
    (s.core side.other).pc≠.finish := by
  intro hfinish
  obtain ⟨⟨k,hk⟩,hne⟩ := hw
  have hin := h.inside side
  rw [hk] at hin
  have hcount := h.count
  cases side with
  | one =>
    rw [hk,show (s.core .two).pc=.finish from hfinish] at hcount
    dsimp only [roundsDone,InRounds] at hcount hin
    rcases hcount with ⟨hzero,_⟩|⟨_,heq⟩
    · exact hne hzero
    · omega
  | two =>
    rw [hk,show (s.core .one).pc=.finish from hfinish] at hcount
    dsimp only [roundsDone,InRounds] at hcount hin
    rcases hcount with ⟨_,heq⟩|⟨hone,_⟩
    · omega
    · exact hne hone

/-- There is no deadlock: unless both programs are at their end, one of them is
neither there nor waiting for its turn. -/
theorem no_deadlock (h : Turns rounds s) (hnot : ¬Finished s.core) :
    ∃ side,(s.core side).pc≠.finish ∧ ¬Waiting s side := by
  obtain ⟨side,hside⟩ := Classical.not_forall.mp hnot
  by_cases hw : Waiting s side
  · exact ⟨side.other,h.waiting_other hw,fun hw' => hw'.2 (h.turn_other hw.2)⟩
  · exact ⟨side,hside,hw⟩

/-- A timely program has a step that takes it nearer to its end, unless it is
there, waits for its turn, or has to wait for the clock. -/
theorem program_moves (hinv : Inv rounds s) (ht : AllTimely s.core s.world.dma) (side : Side) :
    (s.core side).pc=.finish ∨ Waiting s side ∨ Dozing (s.core side) (s.world.dma.chan side) ∨
      ∃ s',s.step rounds (.cpu side 1)=some s' ∧ AllTimely s'.core s'.world.dma ∧
        remaining rounds s'.core s'.world.dma < remaining rounds s.core s.world.dma := by
  obtain ⟨n,hlocal⟩ := hinv side
  have hread : s.readReg8 1 (clearAddress side)≠0 := by
    rw [System.readReg8,if_pos (by cases side <;> decide)]
    decide
  have hleft : (main (app side) rounds).fetch (s.core side).pc≠.halt →
      left rounds ((main (app side) rounds).advance (s.core side).pc)<
        left rounds (s.core side).pc := by
    intro hfetch
    refine left_advance fun hpc => hfetch ?_
    rw [hpc]
    rfl
  rcases step_nearer hlocal.ready (ht side) hread hleft with
    hhalt|⟨a,v,hpoll,hvalue⟩|hdoze|⟨k,access,hk,hn⟩
  · refine Or.inl ?_
    cases hpc : (s.core side).pc with
    | finish => rfl
    | fill i data | intInit | poll r | burst r i | flag r =>
      rw [hpc] at hhalt
      cases hhalt
  · refine Or.inr (Or.inl ?_)
    cases hpc : (s.core side).pc with
    | poll r =>
      rw [hpc] at hpoll
      cases hpoll
      exact ⟨⟨r,hpc⟩,hvalue⟩
    | fill i data | intInit | burst r i | flag r | finish =>
      rw [hpc] at hpoll
      cases hpoll
  · exact Or.inr (Or.inr (Or.inl hdoze))
  · have hs : ∃ s',s.step rounds (.cpu side 1)=some s' := by
      dsimp only [System.step]
      rw [hk]
      exact ⟨_,rfl⟩
    obtain ⟨s',hs⟩ := hs
    obtain ⟨k',access',hk',hcore,hchan,hother,hchan',_⟩ := step_cpu hs
    cases hk.symm.trans hk'
    refine Or.inr (Or.inr (Or.inr ⟨s',hs,both_sides side ?_ ?_,
      remaining_lt side ?_ ?_⟩))
    · rw [hcore,hchan]
      exact hn.timely
    · rw [hother,hchan']
      exact ht side.other
    · rw [hcore,hchan]
      exact hn.lt
    · rw [hother,hchan']

/-- The transfer of a timely processor that is about to execute `wfi` is in
progress. -/
theorem at_wfi_during (hinv : Inv rounds s) (ht : Timely (s.core side) (s.world.dma.chan side))
    (h : AtWfi (s.core side)) :
    ∃ q : Request,q.size.toNat=4 ∧ ∃ n,During q n (s.world.dma.chan side) := by
  obtain ⟨hpos,hmode⟩ := h
  obtain ⟨n,hlocal⟩ := hinv side
  obtain ⟨q,hfetch⟩ := hlocal.ready.at_wfi hpos
  have hword : q.size.toNat=4 := by
    obtain ⟨_,_,_,rfl⟩ := fetch_burst hfetch
    rfl
  have hready := hlocal.ready
  simp only [Ready,hfetch,Op.request,hpos] at hready
  refine ⟨q,hword,?_⟩
  cases hready with
  | during _ transfer => exact ⟨n,transfer⟩
  | early after => exact Mode.noConfusion (hmode.symm.trans (ht.asleep hpos after).1)

/-- A processor that has to wait for the clock, or whose program is not inside
a burst, is not about to execute `wfi`. -/
theorem not_atWfi (hinv : Inv rounds s) (h : (s.core side).pc=.finish ∨ Waiting s side ∨
    Dozing (s.core side) (s.world.dma.chan side)) : ¬AtWfi (s.core side) := by
  rintro ⟨hpos,hmode⟩
  obtain ⟨n,hlocal⟩ := hinv side
  obtain ⟨q,hfetch⟩ := hlocal.ready.at_wfi hpos
  rcases h with hpc|⟨⟨k,hpc⟩,_⟩|⟨_,hsleep,_⟩|⟨hwoken,_⟩
  · rw [hpc] at hfetch
    cases hfetch
  · rw [hpc] at hfetch
    cases hfetch
  · cases hmode.symm.trans hsleep
  · cases hpos.symm.trans hwoken

/-- The progress lemma: while both processors are timely and not both programs
at their end, some step keeps them timely and takes the system nearer to the
end. -/
theorem system_moves (hinv : Inv rounds s) (h : Turns rounds s)
    (ht : AllTimely s.core s.world.dma) (hnot : ¬Finished s.core) :
    ∃ a s',s.step rounds a=some s' ∧ AllTimely s'.core s'.world.dma ∧
      remaining rounds s'.core s'.world.dma < remaining rounds s.core s.world.dma := by
  by_cases hcpu : ∃ side s',s.step rounds (.cpu side 1)=some s' ∧
      AllTimely s'.core s'.world.dma ∧
      remaining rounds s'.core s'.world.dma < remaining rounds s.core s.world.dma
  · obtain ⟨side,s',hs,ht',hlt⟩ := hcpu
    exact ⟨.cpu side 1,s',hs,ht',hlt⟩
  · -- No program can move, so all wait, and not all of them for the flag.
    have hstill : ∀ side,(s.core side).pc=.finish ∨ Waiting s side ∨
        Dozing (s.core side) (s.world.dma.chan side) := by
      intro side
      rcases program_moves hinv ht side with hf|hw|hd|hmove
      · exact Or.inl hf
      · exact Or.inr (Or.inl hw)
      · exact Or.inr (Or.inr hd)
      · exact absurd ⟨side,hmove⟩ hcpu
    have hedge : ∀ side,Timely (s.core side) (s.world.dma.chan side).tick ∧
        rank (left rounds) (s.core side) (s.world.dma.chan side).tick≤
          rank (left rounds) (s.core side) (s.world.dma.chan side) ∧
        (Dozing (s.core side) (s.world.dma.chan side) →
          rank (left rounds) (s.core side) (s.world.dma.chan side).tick<
            rank (left rounds) (s.core side) (s.world.dma.chan side)) := by
      intro side
      obtain ⟨n,hlocal⟩ := hinv side
      have hwfi := not_atWfi hinv (hstill side)
      refine ⟨(ht side).tick hwfi,rank_tick hlocal.ready ?_ (ht side) hwfi⟩
      intro q hq
      obtain ⟨_,_,_,rfl⟩ := fetch_burst hq
      rfl
    obtain ⟨side,hfinish,hwait⟩ := no_deadlock h hnot
    have hdoze := ((hstill side).resolve_left hfinish).resolve_left hwait
    refine ⟨.edge,_,rfl,fun t => ?_,remaining_lt side ?_ ?_⟩
    · dsimp only
      rw [edge_chan]
      exact (hedge t).1
    · dsimp only
      rw [edge_chan]
      exact (hedge side).2.2 hdoze
    · dsimp only
      rw [edge_chan]
      exact (hedge side.other).2.1

/-- From the start both programs can come to their ends, and then both have
written the flag. -/
theorem flags_reached (hr : 0 < rounds) (dataS : BitVec 32) :
    ∃ acts s,run (System.step rounds) (System.init dataS fun _ => 0) acts=some s ∧
      ∀ side,s.flagged side=true := by
  let Good : System → Prop := fun s =>
    Inv rounds s ∧ Live rounds s ∧ Marked rounds s ∧ AllTimely s.core s.world.dma
  have hmoves : ∀ s,Good s → ¬Finished s.core → ∃ a s',True ∧ s.step rounds a=some s' ∧ Good s' ∧
      remaining rounds s'.core s'.world.dma < remaining rounds s.core s.world.dma := by
    rintro s ⟨hinv,hlive,hmarked,htimely⟩ hnot
    obtain ⟨a,s',ha,htimely',hlt⟩ := system_moves hinv hlive.turns htimely hnot
    exact ⟨a,s',trivial,ha,⟨inv_step hinv ha,live_step hinv hlive ha,
      marked_step hinv hlive.turns hmarked ha,htimely'⟩,hlt⟩
  have hstart : Good (System.init dataS fun _ => 0) :=
    ⟨inv_run (run_nil _ _),live_init dataS,marked_init dataS _,timely_init dataS _⟩
  obtain ⟨acts,s,_,hrun,⟨_,_,hmarked,_⟩,hfinished⟩ :=
    reaches_of_progress (C := fun _ => True) hmoves hstart
  refine ⟨acts,s,hrun,fun side => hmarked side ?_⟩
  rw [hfinished side]
  exact hr

end Progress

/-- In a run to the end of three rounds both targets hold the whole pattern. -/
theorem flag_protocol_demo :
    ∃ acts s,run (System.step 3) (System.init 0 fun _ => 0) acts=some s ∧
      (∀ side,s.flagged side=true) ∧
      (∀ i<1024,s.world.mem (0x300000+i)=BitVec.ofNat 8 (0x22*(i%8)+1)) ∧
      ∀ i<1024,s.world.mem (0x200000+i)=BitVec.ofNat 8 (0xfe-0x22*(i%8)) := by
  obtain ⟨acts,s,hrun,hflagged⟩ := flags_reached (show 0<3 by decide) 0
  obtain ⟨_,_,hone,htwo,_⟩ := flag_protocol hrun
  exact ⟨acts,s,hrun,hflagged,hone (hflagged .one),htwo (hflagged .two)⟩

section First

variable {rounds : ℕ} {s s' : System} {side : Side}

/-- The program has not gone beyond its first burst. -/
def First : PC → Prop
  | .fill _ _ => True
  | .intInit => True
  | .poll k => k=0
  | .burst k i => k=0 ∧ i=0
  | _ => False

/-- The program has not programmed its first burst yet. -/
def Begun (k : Core PC) : Prop := First k.pc ∧ ∃ i,k.pos=.write i

/-- A program that leaves an operation before its first burst comes to one that
is not beyond it. -/
theorem first_advance {a : App} (hr : 0 < rounds) {pc : PC} (h : First pc)
    (hburst : ∀ k i,pc≠.burst k i) : First (advance a rounds pc) := by
  cases pc with
  | fill i data =>
    dsimp only [advance]
    split_ifs <;> trivial
  | intInit =>
    dsimp only [advance]
    rw [if_pos hr]
    rfl
  | poll k => exact ⟨h,rfl⟩
  | burst k i => exact absurd rfl (hburst k i)
  | flag k => exact h.elim
  | finish => exact h.elim

/-- A program comes to the `wfi` of its first burst before it goes beyond it. -/
theorem begun_step {a : Act} (hr : 0 < rounds) (hinv : Inv rounds s) (h : Begun (s.core side))
    (hs : s.step rounds a=some s') : AtWfi (s'.core side) ∨ Begun (s'.core side) := by
  obtain ⟨hfirst,i,hpos⟩ := h
  cases a with
  | edge =>
    cases hs
    exact Or.inr ⟨hfirst,i,hpos⟩
  | cpu t byte =>
    rcases step_side side hs with ⟨k,access,hk,hcore,_⟩|⟨hcore,_⟩
    · obtain ⟨n,hlocal⟩ := hinv side
      rw [hcore]
      rcases step_write hlocal.ready hpos hk with
        ⟨hpc,hmode,hwfi|hwrite⟩|⟨hnext,hnot⟩
      · exact Or.inl ⟨hwfi,hmode⟩
      · exact Or.inr ⟨hpc ▸ hfirst,hwrite⟩
      · refine Or.inr ⟨?_,0,hnext ▸ rfl⟩
        rw [hnext]
        refine first_advance hr hfirst fun r j hpc => ?_
        rw [hpc] at hnot
        exact hnot _ rfl
    · rw [hcore]
      exact Or.inr ⟨hfirst,i,hpos⟩

/-- Before its first burst a program is not at its end. -/
theorem Begun.unfinished (h : Begun (s.core side)) : ¬Finished s.core := by
  intro hfinished
  have hfirst := h.1
  rw [hfinished side] at hfirst
  exact hfirst

end First

section Missed

variable {rounds : ℕ} {s s' : System} {side : Side}

/-- The program of this side has missed the interrupt of a burst. -/
def MissedOn (rounds : ℕ) (side : Side) (s : System) : Prop :=
  ∃ q,Missed (main (app side) rounds) q (s.core side) (s.world.dma.chan side)

/-- It never gets past that burst. -/
theorem missed_step {a : Act} (h : MissedOn rounds side s) (hs : s.step rounds a=some s') :
    MissedOn rounds side s' := by
  obtain ⟨q,hq⟩ := h
  refine ⟨q,?_⟩
  cases a with
  | cpu t byte =>
    rcases step_side side hs with ⟨k,access,hk,hcore,hchan⟩|⟨hcore,hchan⟩
    · rw [hcore,hchan]
      exact (hq.step hk).2
    · rw [hcore,hchan]
      exact hq
  | edge =>
    cases hs
    dsimp only
    rw [edge_chan]
    exact hq.tick

/-- A program that has missed an interrupt is not at its end. -/
theorem MissedOn.unfinished (h : MissedOn rounds side s) : ¬Finished s.core := by
  intro hfinished
  obtain ⟨q,hq⟩ := h
  have hfetch := hq.fetch
  rw [hfinished side] at hfetch
  cases hfetch

/-- A side that is not timely has missed an interrupt. -/
theorem missed_of_untimely (hinv : Inv rounds s) (h : Live rounds s)
    (hnot : ¬AllTimely s.core s.world.dma) : ∃ side,MissedOn rounds side s := by
  obtain ⟨side,hside⟩ := Classical.not_forall.mp hnot
  obtain ⟨n,hlocal⟩ := hinv side
  exact ⟨side,missed_of_not_timely hlocal.ready (h.slept side) hside⟩

end Missed

end SystemCDma.FlagProgress
