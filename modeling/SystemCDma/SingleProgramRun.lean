import SystemCDma.SingleProgram

/-!
# Runs of the program of the first project

The machine keeps the joint invariant of program, controller and memory in
every run. So the program prints the words that have been moved, whatever the
order of events; and a processor that sleeps is woken within five edges, unless
its handler has run before it fell asleep.
-/

namespace SystemCDma.SingleProgramRun

open ByteMemory EventRun TransferEngine SinglePlatform FlatMemory TlmBus SingleRam SingleProgram
open SingleDma (DMA)
open BareMetal (masterPayload)

/-- The accesses of the program do not reach past the 32-bit addresses. -/
theorem access_bound (irq : Bool) (k : Core) {a : CpuAccess} (h : a∈k.access irq) :
    a.address.toNat+4≤2^32 := by
  have hregister : ∀ i : Fin 4,(register i).toNat+4≤2^32 := by decide
  have hprint : ∀ j : Fin 4,(dstAdr+4*BitVec.ofNat 32 j.val).toNat+4≤2^32 := by decide
  obtain ⟨place,mode⟩ := k
  cases mode with
  | run =>
    dsimp only [Core.access] at h
    split_ifs at h
    · cases h
    · cases place with
      | fill i =>
        cases h
        exact (fill_apart i).2.2.1
      | burst i =>
        cases h
        exact hregister i
      | print j =>
        cases h
        exact hprint j
      | intInit | wfi | finish => cases h
  | test | print | clear =>
    cases h
    exact hregister 3
  | status =>
    cases h
    decide
  | sleep | mret => cases h

/-- A step is refused to a processor that sleeps while its interrupt is low,
and at the end of the program. -/
theorem step_none {irq : Bool} {value : BitVec 32} {k : Core} (h : k.step irq value=none) :
    (k.mode=.sleep ∧ irq=false) ∨ k.place=.finish := by
  obtain ⟨place,mode⟩ := k
  cases mode with
  | run =>
    dsimp only [Core.step] at h
    split_ifs at h
    cases place <;> first | exact Or.inr rfl | cases h
  | sleep =>
    dsimp only [Core.step] at h
    split_ifs at h with hirq
    exact Or.inl ⟨rfl,Bool.eq_false_of_not_eq_true hirq⟩
  | test | print | clear | status | mret => cases h

section Machine

variable {m : Machine}

/-- The access of a step does what it does with a flat memory. -/
theorem perform_matches {s : Platform} {u : Targets Memory} (h : Matches s u) (word : BitVec 32)
    {a : Option CpuAccess} (ha : ∀ c∈a,c.address.toNat+4≤2^32) :
    ∃ s',perform s word a=some (s',(performFlat u word a).2) ∧
      Matches s' (performFlat u word a).1 := by
  cases a with
  | none => exact ⟨s,rfl,h⟩
  | some c =>
    have hbound := ha c rfl
    have hproper : SinglePlatform.Proper (.direct .data (payload word c)) := by
      have haddr : ∀ a : BitVec 32,(a.setWidth 64).toNat=a.toNat := fun a => by
        have := a.isLt
        rw [BitVec.toNat_setWidth]
        exact Nat.mod_eq_of_lt (by omega)
      cases c with
      | store address value =>
        exact ⟨(by decide : (4 : BitVec 32)≠0),(haddr address).symm ▸ hbound⟩
      | load8 address =>
        refine ⟨(by decide : (1 : BitVec 32)≠0),?_⟩
        change (address.setWidth 64).toNat+1≤2^32
        rw [haddr]
        change address.toNat+4≤2^32 at hbound
        omega
      | load32 address =>
        exact ⟨(by decide : (4 : BitVec 32)≠0),(haddr address).symm ▸ hbound⟩
    rcases serve_matches h hproper with ⟨_,hflat,_⟩|⟨s',u',answer,hs,hu,hm⟩
    · cases hflat
    · cases hu
      exact ⟨s',by rw [perform,hs]; rfl,hm⟩

/-- The machine keeps the joint invariant, read off the platform with a flat
memory. -/
structure Follows (m : Machine) (u : Targets Memory) : Prop where
  /-- The two platforms match. -/
  memory : Matches m.platform u
  /-- The window of the controller begins at zero. -/
  base : u.dma.dmaBaseAddr=0
  /-- The joint invariant. -/
  joint : Joint m.core m.printed u.dma (SingleRam.memory u)

/-- The level of the interrupt. -/
theorem Follows.irq {u : Targets Memory} (h : Follows m u) : m.irq=u.dma.interrupt := by
  rw [Machine.irq,h.memory.dma]

/-- An edge goes through. -/
theorem follows_edge {u : Targets Memory} (h : Follows m u) :
    ∃ s' u' dma mem txns,m.step .edge=some {m with platform := s'} ∧
      SingleDma.dmaP ramBus1 (SingleRam.memory u) u.dma=.ok (dma,mem,txns) ∧
      u'.dma=dma ∧ SingleRam.memory u'=mem ∧ Follows {m with platform := s'} u' := by
  obtain ⟨hfit,dma,mem,txns,hdma,hbase,hjoint⟩ := h.joint.edge
  obtain ⟨u',hu,rfl,rfl⟩ := edge_memory hfit hdma
  rcases serve_matches h.memory (e := .edge) trivial with ⟨_,hflat,_⟩|⟨s',u'',answer,hs,hflat,hm⟩
  · rw [serveFlat,hu] at hflat
    cases hflat
  · rw [serveFlat,hu] at hflat
    cases hflat
    exact ⟨s',u',_,_,txns,by rw [Machine.step,proceed,hs]; rfl,hdma,rfl,rfl,hm,
      hbase.trans h.base,hjoint⟩

/-- An access to the rest of the RAM changes neither the controller nor the
blocks. -/
theorem private_access {u : Targets Memory} {p : GenericPayload} (hp : Private p) :
    (SinglePlatform.access respondFlat u p).1.dma=u.dma ∧
      Set.EqOn (memory (SinglePlatform.access respondFlat u p).1) (memory u) blocks := by
  obtain ⟨hlen,hlo,hhi,hapart⟩ := hp
  rw [access_ram u hlen hlo hhi]
  refine ⟨rfl,?_⟩
  dsimp only [flatExecute]
  cases hc : p.command with
  | read | ignore => exact fun _ _ => rfl
  | write =>
    intro x hx
    dsimp only
    rw [offset_toNat hlo,memory_write _ _ hlo]
    exact if_neg (Set.disjoint_right.mp (hapart hc) hx)

/-- Other activity of the processor goes through and does not disturb. -/
theorem follows_other {u : Targets Memory} (h : Follows m u) {e : Act}
    (he : (Action.other e).Proper) :
    ∃ s' u',m.step (.other e)=some {m with platform := s'} ∧ u'.dma=u.dma ∧
      Follows {m with platform := s'} u' := by
  have hprivate : ∀ p,Private p → e=.access p ∨ (∃ port,e=.direct port p) →
      ∃ s' u',m.step (.other e)=some {m with platform := s'} ∧ u'.dma=u.dma ∧
        Follows {m with platform := s'} u' := by
    intro p hp hcase
    obtain ⟨hdma,hblocks⟩ := private_access (u := u) hp
    have hjoint := h.joint.congr hblocks
    rw [←hdma] at hjoint
    have hproper : SinglePlatform.Proper e := by
      rcases hcase with rfl|⟨port,rfl⟩
      · exact hp.1
      · exact ⟨hp.1,hp.2.2.1⟩
    rcases serve_matches h.memory hproper with ⟨_,_,r,hedge,_⟩|⟨s',u',answer,hs,hu,hm⟩
    · rcases hcase with rfl|⟨port,rfl⟩ <;> cases hedge
    · have hu' : u'=(SinglePlatform.access respondFlat u p).1 := by
        rcases hcase with rfl|⟨port,rfl⟩ <;> cases hu <;> rfl
      subst hu'
      exact ⟨s',_,by rw [Machine.step,proceed,hs]; rfl,hdma,hm,by rw [hdma]; exact h.base,hjoint⟩
  cases e with
  | access p => exact hprivate p he (Or.inl rfl)
  | direct port p => exact hprivate p he (Or.inr ⟨port,rfl⟩)
  | edge => exact he.elim
  | request port addr bytes =>
    rcases serve_matches h.memory (e := .request port addr bytes) he with
      ⟨_,hflat,_⟩|⟨s',u',answer,hs,hu,hm⟩
    · cases hflat
    · cases hu
      exact ⟨s',u,by rw [Machine.step,proceed,hs]; rfl,rfl,hm,h.base,h.joint⟩

/-- A step of the program is refused only by the program, and keeps the joint
invariant. -/
theorem follows_cpu {u : Targets Memory} (h : Follows m u) (word : BitVec 32) :
    (m.step (.cpu word)=none ∧ ((m.core.mode=.sleep ∧ m.irq=false) ∨ m.core.place=.finish)) ∨
      ∃ m' u',m.step (.cpu word)=some m' ∧ Follows m' u' := by
  obtain ⟨s',hs,hm⟩ := perform_matches h.memory word fun c hc =>
    access_bound m.irq m.core hc
  cases hk : m.core.step m.irq (performFlat u word (m.core.access m.irq)).2 with
  | none =>
    refine Or.inl ⟨?_,step_none hk⟩
    dsimp only [Machine.step,Option.bind_eq_bind]
    rw [hs]
    dsimp only [Option.bind_some]
    rw [hk]
    rfl
  | some r =>
    obtain ⟨k',words⟩ := r
    have hk' := hk
    rw [h.irq] at hk'
    obtain ⟨hbase,hjoint⟩ := h.joint.cpu h.base hk'
    rw [←h.irq] at hbase hjoint
    refine Or.inr ⟨⟨s',k',m.printed++words⟩,_,?_,hm,hbase,hjoint⟩
    dsimp only [Machine.step,Option.bind_eq_bind]
    rw [hs]
    dsimp only [Option.bind_some]
    rw [hk]
    rfl

/-- The step lemma: whatever happens, the joint invariant is kept. -/
theorem follows_step (h : ∃ u,Follows m u) {e : Action} (he : e.Proper) {m' : Machine}
    (hstep : m.step e=some m') : ∃ u',Follows m' u' := by
  obtain ⟨u,hu⟩ := h
  cases e with
  | cpu word =>
    rcases follows_cpu hu word with ⟨hnone,_⟩|⟨m₁,u₁,hm,hfollow⟩
    · cases hnone.symm.trans hstep
    · cases hm.symm.trans hstep
      exact ⟨u₁,hfollow⟩
  | edge =>
    obtain ⟨s',u',_,_,_,hm,_,_,_,hfollow⟩ := follows_edge hu
    cases hm.symm.trans hstep
    exact ⟨u',hfollow⟩
  | other e =>
    obtain ⟨s',u',hm,_,hfollow⟩ := follows_other hu he
    cases hm.symm.trans hstep
    exact ⟨u',hfollow⟩

/-- The joint invariant holds at reset. -/
theorem follows_init (dataS : BitVec 32) :
    Follows (Machine.init dataS) ⟨fun _ => 0,SingleDma.init 0x00000000 dataS⟩ :=
  ⟨start_matches _,rfl,.filling ⟨rfl,rfl,rfl⟩ fun j hj => absurd hj (Nat.not_lt_zero j.val)⟩

/-- The run lemma. -/
theorem follows_run {dataS : BitVec 32} {acts : List Action} (hproper : ∀ e∈acts,e.Proper)
    (h : run Machine.step (Machine.init dataS) acts=some m) : ∃ u,Follows m u :=
  run_invariant_of (fun _ _ _ hf he hs => follows_step hf he hs) ⟨_,follows_init dataS⟩ hproper h

end Machine

/-- The program on its platform. After every run from reset, in which the steps
of the program, the clock edges and anything the processor does in the rest of
the RAM take turns in any order, what has been printed is a beginning of the
four words, and all of them at the end of the program. Nothing is refused but a
step of a processor that sleeps while its interrupt is low, or has finished; in
particular the controller reports no error. -/
theorem application_result {dataS : BitVec 32} {acts : List Action} {m : Machine}
    (hproper : ∀ e∈acts,e.Proper) (h : run Machine.step (Machine.init dataS) acts=some m) :
    m.printed<+:[123,456,789,0] ∧ (m.core.place=.finish → m.printed=[123,456,789,0]) ∧
      ∀ e : Action,e.Proper → m.step e=none → ∃ word,e=.cpu word ∧
        ((m.core.mode=.sleep ∧ m.irq=false) ∨ m.core.place=.finish) := by
  obtain ⟨u,hu⟩ := follows_run hproper h
  have hresults : List.ofFn results=[123,456,789,0] := rfl
  refine ⟨?_,fun hfinish => ?_,fun e he hnone => ?_⟩
  · rw [←hresults]
    have hjoint := hu.joint
    generalize m.core=k,m.printed=out at hjoint
    cases hjoint with
    | printing awake after copied => exact List.take_prefix _ _
    | done awake after copied => exact List.prefix_rfl
    | filling | ready | programming | during | early => exact List.nil_prefix
  · rw [←hresults]
    have hjoint := hu.joint
    generalize m.core=k,m.printed=out at hjoint hfinish
    cases hjoint with
    | done awake after copied => rfl
    | filling | ready | programming | during | early | printing => cases hfinish
  · cases e with
    | cpu word =>
      rcases follows_cpu hu word with ⟨_,hrefused⟩|⟨m',_,hm,_⟩
      · exact ⟨word,rfl,hrefused⟩
      · cases hnone.symm.trans hm
    | edge =>
      obtain ⟨_,_,_,_,_,hm,_⟩ := follows_edge hu
      cases hnone.symm.trans hm
    | other e =>
      obtain ⟨_,_,hm,_⟩ := follows_other hu he
      cases hnone.symm.trans hm

/-- The whole program: its stores, the transfer, `wfi`, the handler and the words
it prints. Before, the processor takes a direct pointer and writes through it. -/
def demoActions : List Action :=
  [.other (.request .data 0x1000 4),.other (.direct .data (masterPayload ⟨.write,0x1000,7⟩))]++
    List.replicate 14 (.cpu 1)++List.replicate 5 .edge++List.replicate 5 (.cpu 1)++
    List.replicate 2 .edge++List.replicate 5 (.cpu 1)

/-- It prints the four words. -/
theorem application_result_demo :
    ∃ m,run Machine.step (Machine.init 0) demoActions=some m ∧ m.printed=[123,456,789,0] := by
  obtain ⟨m,hm,hfinish⟩ := Option.map_eq_some_iff.mp (show (run Machine.step (Machine.init 0)
    demoActions).map (fun m => m.core.place)=some .finish by decide +kernel)
  refine ⟨m,hm,(application_result (fun e he => ?_) hm).2.1 hfinish⟩
  simp only [demoActions,List.mem_append,List.mem_cons,List.mem_replicate,List.not_mem_nil,
    or_false] at he
  rcases he with ((((((rfl|rfl)|⟨_,rfl⟩)|⟨_,rfl⟩)|⟨_,rfl⟩)|⟨_,rfl⟩)|⟨_,rfl⟩)
  · exact ⟨by decide,by decide,by decide⟩
  · refine ⟨(by decide : (4 : BitVec 32)≠0),by decide,by decide,fun _ =>
      Set.disjoint_left.mpr fun x hx hb => ?_⟩
    have hlast : x<0x1004 := hx.2
    obtain ⟨hsrc,hdst,_⟩ := block_bounds
    rcases hb with ⟨hlo,_⟩|⟨hlo,_⟩ <;> omega
  all_goals trivial

section Sleep

variable {m m' : Machine} {u : Targets Memory} {k : ℕ}

/-- In the course of the transfer the interrupt is some edges away. -/
theorem during_wakes (h : Follows m u) (hduring : During k u.dma)
    (hcopied : Copied (4-k) (memory u)) :
    ∃ m',run Machine.step m (List.replicate k .edge)=some m' ∧ m'.irq=true := by
  induction k generalizing m u with
  | zero => cases hduring with | moving _ _ some _ => exact absurd some (Nat.lt_irrefl 0)
  | succ k ih =>
    obtain ⟨s',u',dma,mem,txns,hstep,hdma,rfl,rfl,hfollow⟩ := follows_edge h
    obtain ⟨dma',mem',txns',hdma',_,hnext⟩ := hduring.edge hcopied
    obtain ⟨rfl,rfl,rfl⟩ : u'.dma=dma' ∧ memory u'=mem' ∧ txns=txns' := by
      simpa only [Except.ok.injEq,Prod.mk.injEq] using hdma.symm.trans hdma'
    rcases hnext with ⟨_,hduring',hcopied'⟩|⟨hk,_,hhigh,_⟩
    · obtain ⟨m',hrun,hirq⟩ := ih hfollow hduring' hcopied'
      exact ⟨m',by rw [List.replicate_succ,run_cons,hstep]; exact hrun,hirq⟩
    · obtain rfl : k=0 := by omega
      exact ⟨_,by rw [List.replicate_succ,run_cons,hstep]; rfl,by rw [hfollow.irq,hhigh]⟩

/-- A processor that sleeps on an idle channel stays asleep, and the channel
idle, whatever else happens. -/
theorem lost_step {core : Core} (hcore : core.mode=.sleep)
    (h : ∃ u,Follows m u ∧ Idle u.dma ∧ m.core=core) {e : Action} (he : e.Proper)
    (hstep : m.step e=some m') : ∃ u,Follows m' u ∧ Idle u.dma ∧ m'.core=core := by
  obtain ⟨u,hu,hidle,rfl⟩ := h
  cases e with
  | cpu word =>
    have hirq : m.irq=false := hu.irq.trans hidle.low
    have hnone : ∀ value,m.core.step m.irq value=none := fun value => by
      rw [Core.step,hcore,hirq]
      rfl
    dsimp only [Machine.step,Option.bind_eq_bind] at hstep
    obtain ⟨⟨s,value⟩,_,hrest⟩ := Option.bind_eq_some_iff.mp hstep
    dsimp only at hrest
    rw [hnone] at hrest
    cases hrest
  | edge =>
    obtain ⟨s',u',dma,mem,txns,hm,hdma,rfl,rfl,hfollow⟩ := follows_edge hu
    obtain ⟨dma',hdma',htick,hregs,_⟩ := still_edge (still_idle hidle.idle) (memory u)
    obtain ⟨rfl,_⟩ : u'.dma=dma' ∧ memory u'=memory u ∧ txns=[] := by
      simpa only [Except.ok.injEq,Prod.mk.injEq] using hdma.symm.trans hdma'
    cases hm.symm.trans hstep
    exact ⟨u',hfollow,hidle.tick htick hregs,rfl⟩
  | other e =>
    obtain ⟨s',u',hm,hdma,hfollow⟩ := follows_other hu he
    cases hm.symm.trans hstep
    exact ⟨u',hfollow,hdma.symm ▸ hidle,rfl⟩

end Sleep

/-- When the processor sleeps in `wfi`, either the interrupt is high after at
most five clock edges, or the handler has taken the interrupt away before `wfi`
was reached: START/CLEAR is zero, and whatever else happens the processor never
wakes up. -/
theorem application_wakes {dataS : BitVec 32} {acts : List Action} {m : Machine}
    (hproper : ∀ e∈acts,e.Proper) (h : run Machine.step (Machine.init dataS) acts=some m)
    (hsleep : m.core.mode=.sleep) :
    (∃ n≤5,∃ m',run Machine.step m (List.replicate n .edge)=some m' ∧ m'.irq=true) ∨
      (m.platform.targets.dma.regmem 3=0 ∧ ∀ more m',(∀ e∈more,e.Proper) →
        run Machine.step m more=some m' → m'.core=m.core ∧ m'.irq=false) := by
  obtain ⟨u,hu⟩ := follows_run hproper h
  have hlost : Idle u.dma → m.platform.targets.dma.regmem 3=0 ∧ ∀ more m',
      (∀ e∈more,e.Proper) → run Machine.step m more=some m' → m'.core=m.core ∧ m'.irq=false := by
    intro hidle
    refine ⟨by rw [hu.memory.dma]; exact hidle.cleared,fun more m' hmore hrun => ?_⟩
    have hstart : ∃ u,Follows m u ∧ Idle u.dma ∧ m.core=m.core := ⟨u,hu,hidle,rfl⟩
    obtain ⟨u',hu',hidle',hcore⟩ := run_invariant_of
      (fun _ _ _ hf he hs => lost_step hsleep hf he hs) hstart hmore hrun
    exact ⟨hcore,hu'.irq.trans hidle'.low⟩
  have hjoint := hu.joint
  generalize hk : m.core=k,m.printed=out,hd : u.dma=s,hm : memory u=mem at hjoint hsleep
  cases hjoint with
  | @during _ n _ _ main transfer copied =>
    subst hd hm
    exact Or.inl ⟨n,transfer.bound,during_wakes hu transfer copied⟩
  | early after copied =>
    subst hd
    cases after with
    | raised done started => exact Or.inl ⟨0,Nat.zero_le 5,m,rfl,hu.irq.trans done.high⟩
    | fading idle high cleared => exact Or.inl ⟨0,Nat.zero_le 5,m,rfl,hu.irq.trans high⟩
    | quiet idle =>
      rw [←hk]
      exact Or.inr (hlost idle)
  | filling | ready | programming => cases hsleep
  | printing awake | done awake => exact absurd hsleep awake

/-- The processor sleeps, and one edge has passed since START was written. -/
theorem application_wakes_demo :
    ∃ m,run Machine.step (Machine.init 0) (List.replicate 14 (.cpu 1)++[.edge])=some m ∧
      ((∃ n≤5,∃ m',run Machine.step m (List.replicate n .edge)=some m' ∧ m'.irq=true) ∨
        (m.platform.targets.dma.regmem 3=0 ∧ ∀ more m',(∀ e∈more,e.Proper) →
          run Machine.step m more=some m' → m'.core=m.core ∧ m'.irq=false)) := by
  obtain ⟨m,hm,hsleep⟩ := Option.map_eq_some_iff.mp (show (run Machine.step (Machine.init 0)
    (List.replicate 14 (.cpu 1)++[.edge])).map (fun m => m.core.mode)=some .sleep by decide +kernel)
  refine ⟨m,hm,application_wakes (fun e he => ?_) hm hsleep⟩
  rcases List.mem_append.mp he with he|he
  · rw [(List.mem_replicate.mp he).2]
    trivial
  · rw [List.mem_singleton.mp he]
    trivial

end SystemCDma.SingleProgramRun
