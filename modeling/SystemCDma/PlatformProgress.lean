import SystemCDma.FlagProgress
import SystemCDma.PlatformProgram

/-!
# When the demonstration comes to its end

The two programs run on the platform as it is built. From a state that they can
reach there is a run to the end of both programs exactly if neither of them has
missed the interrupt of its burst. A program misses it if the transfer is
complete before `wfi` is executed: the handler clears the interrupt, and `wfi`
waits for one that does not come.
-/

namespace SystemCDma.PlatformProgress

open EventRun PlatformTransfer PlatformProgram
open FlagProtocol (System app main Inv)
open BurstDriver (Core Program)
open DualDma (Side Channel edge_chan)
open BurstProgress FlagProgress

section Steps

variable {rounds : ℕ} {m m' : Machine} {s s' : System}

/-- Whether a step is refused does not depend on what it would read. -/
theorem step_isSome {PC : Type} (prog : Program PC) (side : Side) (irq : Bool) (k : Core PC)
    (read read' : BitVec 32 → BitVec 8) :
    (k.step prog side irq read).isSome=(k.step prog side irq read').isSome := by
  unfold Core.step
  cases k.mode with
  | run =>
    dsimp only
    split_ifs
    · rfl
    · unfold Core.main
      cases prog.fetch k.pc with
      | burst q => rfl
      | poll address value | writeReg8 address value | internal | halt => rfl
  | sleep | test | print | clear | mret => rfl

/-- Controller and processors of the machine are those of the closed system. -/
theorem follows_same (h : Follows rounds m s) :
    m.platform.targets.dma=s.world.dma ∧ m.core=s.core := by
  obtain ⟨t,hmatch,hproj⟩ := h.memory
  exact ⟨hmatch.dma.trans hproj.dma.symm,h.core⟩

/-- The machine takes every step of the closed system. -/
theorem follows_act (h : Follows rounds m s) {a : FlagProtocol.Act}
    (hs : s.step rounds a=some s') :
    ∃ e m',e.Proper ∧ m.step rounds e=some m' ∧ Follows rounds m' s' := by
  cases a with
  | edge =>
    obtain ⟨m',s₁,hm,hs₁,hfollow⟩ := follows_edge h
    cases hs.symm.trans hs₁
    exact ⟨.edge,m',trivial,hm,hfollow⟩
  | cpu side byte =>
    rcases follows_cpu h side byte with ⟨_,read,hnone⟩|⟨m',s₁,hm,hs₁,hfollow⟩
    · obtain ⟨hdma,hcore⟩ := follows_same h
      obtain ⟨k,access,hk,_⟩ := step_cpu hs
      have hsome := step_isSome (main (app side) rounds) side
        (s.world.dma.chan side).interrupt (s.core side) read (s.readReg8 byte)
      rw [hdma,hcore] at hnone
      rw [hnone,hk] at hsome
      cases hsome
    · cases hs.symm.trans hs₁
      exact ⟨.cpu side byte,m',trivial,hm,hfollow⟩

/-- The step lemma of the way to the end, for a property that the step is known
to keep or to turn into another one. -/
theorem machine_moves {Q Q' : System → Prop} (hlive : ∀ s,Q s → Live rounds s)
    (hkeep : ∀ s a s',Inv rounds s → Q s → s.step rounds a=some s' → Q' s')
    (h : ∃ s,Follows rounds m s ∧ Q s) (ht : AllTimely m.core m.platform.targets.dma)
    (hnot : ¬Finished m.core) :
    ∃ e m',e.Proper ∧ m.step rounds e=some m' ∧ ((∃ s,Follows rounds m' s ∧ Q' s) ∧
      AllTimely m'.core m'.platform.targets.dma) ∧
      remaining rounds m'.core m'.platform.targets.dma <
        remaining rounds m.core m.platform.targets.dma := by
  obtain ⟨s,hs,hq⟩ := h
  obtain ⟨hdma,hcore⟩ := follows_same hs
  rw [hdma,hcore] at ht
  rw [hcore] at hnot
  obtain ⟨a,s',ha,ht',hlt⟩ := system_moves hs.inv (hlive s hq).turns ht hnot
  obtain ⟨e,m',he,hm,hs'⟩ := follows_act hs ha
  obtain ⟨hdma',hcore'⟩ := follows_same hs'
  refine ⟨e,m',he,hm,⟨⟨s',hs',hkeep s a s' hs.inv hq ha⟩,?_⟩,?_⟩
  · rw [hdma',hcore']
    exact ht'
  · rw [hdma',hcore',hdma,hcore]
    exact hlt

/-- The machine is on the way to the first `wfi` of its first processor, or
there, and both processors are timely. -/
def Approaching (rounds : ℕ) (m : Machine) : Prop :=
  (∃ s,Follows rounds m s ∧ Live rounds s ∧ (AtWfi (s.core .one) ∨ Begun (s.core .one))) ∧
    AllTimely m.core m.platform.targets.dma

/-- The step lemma of that way. -/
theorem approaching_moves (hr : 0 < rounds) (h : Approaching rounds m)
    (hnot : ¬AtWfi (m.core .one)) :
    ∃ e m',e.Proper ∧ m.step rounds e=some m' ∧ Approaching rounds m' ∧
      remaining rounds m'.core m'.platform.targets.dma <
        remaining rounds m.core m.platform.targets.dma := by
  obtain ⟨⟨s,hs,hlive,hcase⟩,htimely⟩ := h
  have hcore := (follows_same hs).2
  rw [hcore] at hnot
  have hbegun := hcase.resolve_left hnot
  refine machine_moves (Q := fun s => Live rounds s ∧ Begun (s.core .one)) (fun _ hq => hq.1)
    (fun _ _ _ hinv hq ha => ⟨live_step hinv hq.1 ha,begun_step hr hinv hq.2 ha⟩)
    ⟨s,hs,hlive,hbegun⟩ htimely ?_
  rw [hcore]
  exact hbegun.unfinished

/-- Both processors are timely at the start. -/
theorem timely_init (dataS : BitVec 32) :
    AllTimely (Machine.init dataS).core (Machine.init dataS).platform.targets.dma := by
  intro side hpos
  cases hpos

/-- After every run the machine follows a state of which it holds. -/
theorem live_run {dataS : BitVec 32} {acts : List Action} (hproper : ∀ e∈acts,e.Proper)
    (h : run (Machine.step rounds) (Machine.init dataS) acts=some m) :
    ∃ s,Follows rounds m s ∧ Live rounds s :=
  follows_keep_run (fun _ _ _ hinv hlive hs => live_step hinv hlive hs)
    ⟨_,follows_init dataS,live_init dataS⟩ hproper h

/-- A machine one of whose programs has missed an interrupt does not come to
the end of both. -/
theorem missed_forever {side : Side} (h : ∃ s,Follows rounds m s ∧ MissedOn rounds side s)
    {more : List Action} (hproper : ∀ e∈more,e.Proper)
    (hrun : run (Machine.step rounds) m more=some m') : ¬Finished m'.core := by
  obtain ⟨s,hs,hmissed⟩ := follows_keep_run (fun _ _ _ _ hq ha => missed_step hq ha) h hproper hrun
  rw [(follows_same hs).2]
  exact hmissed.unfinished

/-- Clock edges alone leave the processors where they are. -/
theorem follows_edges (h : Follows rounds m s) {n : ℕ}
    (hrun : run (Machine.step rounds) m (List.replicate n .edge)=some m') :
    m'.core=m.core ∧ ∀ side,m'.platform.targets.dma.chan side=
      Channel.tick^[n] (m.platform.targets.dma.chan side) := by
  induction n generalizing m s with
  | zero =>
    cases hrun
    exact ⟨rfl,fun side => rfl⟩
  | succ n ih =>
    obtain ⟨m₁,hm₁,hrest⟩ := run_cons_some hrun
    obtain ⟨m₂,s₁,hm₂,hs₁,hfollow⟩ := follows_edge h
    cases hm₁.symm.trans hm₂
    obtain ⟨hcore,hchan⟩ := ih hfollow hrest
    obtain ⟨hdma,hcores⟩ := follows_same h
    obtain ⟨hdma₁,hcores₁⟩ := follows_same hfollow
    cases hs₁
    refine ⟨hcore.trans (hcores₁.trans hcores.symm),fun side => ?_⟩
    rw [hchan,Function.iterate_succ_apply,hdma₁,hdma]
    dsimp only
    rw [edge_chan]

/-- No number of edges is refused. -/
theorem edges_total (h : Follows rounds m s) (n : ℕ) :
    ∃ m',run (Machine.step rounds) m (List.replicate n .edge)=some m' := by
  induction n generalizing m s with
  | zero => exact ⟨m,rfl⟩
  | succ n ih =>
    obtain ⟨m₁,s₁,hm₁,_,hfollow⟩ := follows_edge h
    obtain ⟨m',hrun⟩ := ih hfollow
    exact ⟨m',by rw [List.replicate_succ,run_cons,hm₁]; exact hrun⟩

/-- Edges extend a run. -/
theorem run_edges {m₀ : Machine} {acts : List Action} (hproper : ∀ e∈acts,e.Proper)
    (h : run (Machine.step rounds) m₀ acts=some m) {n : ℕ}
    (hedges : run (Machine.step rounds) m (List.replicate n .edge)=some m') :
    (∀ e∈acts++List.replicate n .edge,e.Proper) ∧
      run (Machine.step rounds) m₀ (acts++List.replicate n .edge)=some m' := by
  refine ⟨fun e he => ?_,by rw [run_append,h]; exact hedges⟩
  rcases List.mem_append.mp he with hmem|hmem
  · exact hproper e hmem
  · rw [List.eq_of_mem_replicate hmem]
    trivial

/-- After some edges both processors are timely if one was left for each that
is about to execute `wfi`. -/
theorem timely_edges (hinv : Inv rounds s) (ht : AllTimely s.core s.world.dma) {n : ℕ} :
    (∀ side,Timely (s.core side) (Channel.tick^[n] (s.world.dma.chan side))) ↔
      ∀ side,AtWfi (s.core side) → n < edgesLeft (s.world.dma.chan side) := by
  refine forall_congr' fun side => ?_
  by_cases hwfi : AtWfi (s.core side)
  · obtain ⟨q,hword,i,hduring⟩ := at_wfi_during hinv (ht side) hwfi
    rw [timely_wfi_iff hword hwfi hduring]
    exact ⟨fun h _ => h,fun h => h hwfi⟩
  · exact ⟨fun _ h => absurd h hwfi,fun _ => (ht side).ticks hwfi n⟩

/-- The same on the machine. -/
theorem edges_timely_iff (hs : Follows rounds m s)
    (ht : AllTimely m.core m.platform.targets.dma) {n : ℕ}
    (hedges : run (Machine.step rounds) m (List.replicate n .edge)=some m') :
    AllTimely m'.core m'.platform.targets.dma ↔
      ∀ side,AtWfi (m.core side) → n < edgesLeft (m.platform.targets.dma.chan side) := by
  obtain ⟨hdma,hcore⟩ := follows_same hs
  obtain ⟨hcores,hchan⟩ := follows_edges hs hedges
  rw [hdma,hcore] at ht
  rw [hcore,hdma,←timely_edges hs.inv ht]
  refine forall_congr' fun side => ?_
  rw [hcores,hcore,hchan,hdma]

/-- Some further run ends both programs. -/
def CanFinish (rounds : ℕ) (m : Machine) : Prop :=
  ∃ more m',(∀ e∈more,e.Proper) ∧ run (Machine.step rounds) m more=some m' ∧ Finished m'.core

/-- From a timely state both programs can come to their ends. -/
theorem can_finish (h : ∃ s,Follows rounds m s ∧ Live rounds s)
    (ht : AllTimely m.core m.platform.targets.dma) : CanFinish rounds m := by
  obtain ⟨more,m',hmore,hrun,_,hfinished⟩ := reaches_of_progress
    (fun _ hu hnot => machine_moves (fun _ hq => hq)
      (fun _ _ _ hinv hq ha => live_step hinv hq ha) hu.1 hu.2 hnot) ⟨h,ht⟩
  exact ⟨more,m',hmore,hrun,hfinished⟩

/-- From any other state they cannot. -/
theorem timely_of_can_finish (h : ∃ s,Follows rounds m s ∧ Live rounds s)
    (hf : CanFinish rounds m) : AllTimely m.core m.platform.targets.dma := by
  by_contra hlate
  obtain ⟨s,hs,hlive⟩ := h
  obtain ⟨more,m',hmore,hrun,hfinished⟩ := hf
  rw [(follows_same hs).1,(follows_same hs).2] at hlate
  obtain ⟨side,hmissed⟩ := missed_of_untimely hs.inv hlive hlate
  exact missed_forever ⟨s,hs,hmissed⟩ hmore hrun hfinished

/-- From reset the first processor comes to its first `wfi` in time. -/
theorem wfi_reached (hr : 0 < rounds) (dataS : BitVec 32) :
    ∃ acts m,(∀ e∈acts,e.Proper) ∧
      run (Machine.step rounds) (Machine.init dataS) acts=some m ∧
      AllTimely m.core m.platform.targets.dma ∧ AtWfi (m.core .one) := by
  have hstart : Approaching rounds (Machine.init dataS) :=
    ⟨⟨_,follows_init dataS,live_init dataS,Or.inr ⟨trivial,0,rfl⟩⟩,timely_init dataS⟩
  obtain ⟨acts,m,hproper,hrun,⟨_,htimely⟩,hwfi⟩ :=
    reaches_of_progress (fun m hm hnot => approaching_moves (m := m) hr hm hnot) hstart
  exact ⟨acts,m,hproper,hrun,htimely,hwfi⟩

/-- From reset the machine can come to the ends of both programs, and then both
processors have written the flag. -/
theorem both_flagged (hr : 0 < rounds) (dataS : BitVec 32) :
    ∃ acts m,(∀ e∈acts,e.Proper) ∧
      run (Machine.step rounds) (Machine.init dataS) acts=some m ∧
      ∀ side,m.flagged side=true := by
  let Good : System → Prop := fun s => Live rounds s ∧ Marked rounds s
  have hkeep : ∀ s a s',Inv rounds s → Good s → s.step rounds a=some s' → Good s' :=
    fun _ _ _ hinv hq ha => ⟨live_step hinv hq.1 ha,marked_step hinv hq.1.turns hq.2 ha⟩
  have hstart : ∃ s,Follows rounds (Machine.init dataS) s ∧ Good s :=
    ⟨_,follows_init dataS,live_init dataS,marked_init dataS _⟩
  obtain ⟨acts,m,hproper,hrun,⟨⟨s,hs,_,hmarked⟩,_⟩,hfinished⟩ := reaches_of_progress
    (fun _ hu hnot => machine_moves (fun _ hq => hq.1) hkeep hu.1 hu.2 hnot)
    ⟨hstart,timely_init dataS⟩
  refine ⟨acts,m,hproper,hrun,fun side => ?_⟩
  rw [hs.flagged]
  refine hmarked side ?_
  rw [←(follows_same hs).2,hfinished side]
  exact hr

end Steps

/-- In a run to the end of three rounds every initiator reads the whole pattern
in both targets. -/
theorem programs_on_platform_demo :
    ∃ acts m,(∀ e∈acts,e.Proper) ∧
      run (Machine.step 3) (Machine.init 0) acts=some m ∧ (∀ side,m.flagged side=true) ∧
      (∀ i,∀ k<1024,readByte m.platform i (0x300000+k)=BitVec.ofNat 8 (0x22*(k%8)+1)) ∧
      ∀ i,∀ k<1024,readByte m.platform i (0x200000+k)=BitVec.ofNat 8 (0xfe-0x22*(k%8)) := by
  obtain ⟨acts,m,hproper,hrun,hflagged⟩ := both_flagged (show 0<3 by decide) 0
  obtain ⟨_,hone,htwo,_⟩ := programs_on_platform hproper hrun
  exact ⟨acts,m,hproper,hrun,hflagged,hone (hflagged .one),htwo (hflagged .two)⟩

/-- When the demonstration can come to its end: from the state that any run
from reset reaches, in which the programs, the clock and what the processors do
in their own RAMs take turns in any order, some further run ends both programs
if and only if both processors are timely, that is, none of them came to its
`wfi` after the interrupt. -/
theorem finishes_iff_timely {rounds : ℕ} {dataS : BitVec 32} {acts : List Action} {m : Machine}
    (hproper : ∀ e∈acts,e.Proper)
    (h : run (Machine.step rounds) (Machine.init dataS) acts=some m) :
    CanFinish rounds m ↔ AllTimely m.core m.platform.targets.dma :=
  ⟨timely_of_can_finish (live_run hproper h),can_finish (live_run hproper h)⟩

/-- The demonstration of three rounds can come to its end after reset. -/
theorem finishes_from_reset : CanFinish 3 (Machine.init 0) := by
  have hnone : ∀ e∈([] : List Action),e.Proper := fun e he => (nomatch he)
  exact (finishes_iff_timely hnone (run_nil _ _)).mpr (timely_init 0)

/-- The deadline of `wfi`: while nothing but the clock moves, the demonstration
can still come to its end after `n` edges if and only if `n` is less than the
number of edges to the interrupt, for every processor that is about to execute
`wfi`. -/
theorem wfi_deadline {rounds : ℕ} {dataS : BitVec 32} {acts : List Action} {m m' : Machine}
    {n : ℕ} (hproper : ∀ e∈acts,e.Proper)
    (h : run (Machine.step rounds) (Machine.init dataS) acts=some m)
    (htimely : AllTimely m.core m.platform.targets.dma)
    (hedges : run (Machine.step rounds) m (List.replicate n .edge)=some m') :
    CanFinish rounds m' ↔
      ∀ side,AtWfi (m.core side) → n < edgesLeft (m.platform.targets.dma.chan side) := by
  obtain ⟨s,hs⟩ := follows_run hproper h
  obtain ⟨hall,hrun⟩ := run_edges hproper h hedges
  have hlive := live_run hall hrun
  rw [←edges_timely_iff hs htimely hedges]
  exact ⟨timely_of_can_finish hlive,can_finish hlive⟩

/-- Three edges are too many at the first `wfi` of the first processor. -/
theorem wfi_deadline_missed :
    ∃ acts m m',(∀ e∈acts,e.Proper) ∧
      run (Machine.step 3) (Machine.init 0) acts=some m ∧ AtWfi (m.core .one) ∧
      run (Machine.step 3) m (List.replicate 3 .edge)=some m' ∧ ¬CanFinish 3 m' := by
  obtain ⟨acts,m,hproper,hrun,htimely,hwfi⟩ := wfi_reached (show 0<3 by decide) 0
  obtain ⟨s,hs⟩ := follows_run hproper hrun
  obtain ⟨m',hedges⟩ := edges_total hs 3
  refine ⟨acts,m,m',hproper,hrun,hwfi,hedges,fun hfinish => ?_⟩
  have hless := (wfi_deadline hproper hrun htimely hedges).mp hfinish .one hwfi
  exact absurd (edgesLeft_le (c := m.platform.targets.dma.chan .one)) (by omega)

/-- The outcome depends on the order of the steps: for every number of rounds
but zero, both programs can come to their ends from reset, and there is a run
from reset after which they cannot any more. -/
theorem outcome_depends_on_order {rounds : ℕ} (hr : 0 < rounds) (dataS : BitVec 32) :
    CanFinish rounds (Machine.init dataS) ∧ ∃ acts m,(∀ e∈acts,e.Proper) ∧
      run (Machine.step rounds) (Machine.init dataS) acts=some m ∧ ¬CanFinish rounds m := by
  refine ⟨can_finish ⟨_,follows_init dataS,live_init dataS⟩ (timely_init dataS),?_⟩
  obtain ⟨acts,m,hproper,hrun,htimely,hwfi⟩ := wfi_reached hr dataS
  obtain ⟨s,hs⟩ := follows_run hproper hrun
  obtain ⟨m',hedges⟩ := edges_total hs 3
  obtain ⟨hall,hrun'⟩ := run_edges hproper hrun hedges
  refine ⟨_,m',hall,hrun',fun hfinish => ?_⟩
  have hlate := timely_of_can_finish (live_run hall hrun') hfinish
  have hless := (edges_timely_iff hs htimely hedges).mp hlate .one hwfi
  exact absurd (edgesLeft_le (c := m.platform.targets.dma.chan .one)) (by omega)

/-- So does that of the demonstration as it is, with its three rounds. -/
theorem outcome_of_three_rounds :
    ∃ acts m,(∀ e∈acts,e.Proper) ∧
      run (Machine.step 3) (Machine.init 0) acts=some m ∧ ¬CanFinish 3 m :=
  (outcome_depends_on_order (by decide) 0).2

end SystemCDma.PlatformProgress
