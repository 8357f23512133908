import SystemCDma.SingleDmaHandshake

/-!
# START/CLEAR as a mailbox

A processor that never writes while data is being moved clears every
interrupt once and programs its next request afterwards, at any phase of the
clock. The register that carries both CLEAR and START holds one value, and an
edge sees only the last one. A START leads to a transfer of its own exactly
when an edge has passed since the CLEAR before it.
-/

namespace SystemCDma.SingleDmaMailbox

open TlmBus TransferEngine EventRun SingleDma SingleDmaHandshake

variable {M : Type*}

/-- The place of the processor in its protocol. -/
inductive Phase where
  /-- A request is being programmed; this register is written next. -/
  | program (next : Fin 4)
  /-- START is written; nothing more until the interrupt rises. -/
  | waiting
  /-- The interrupt has risen; CLEAR comes next. -/
  | raised
  deriving DecidableEq

/-- The controller together with the processor's place in its protocol. -/
structure Session (M : Type*) where
  /-- The controller and its surroundings. -/
  world : World M
  /-- The next write of the processor. -/
  phase : Phase
  /-- The values last written to SOURCE, TARGET, SIZE and START. -/
  values : Registers
  /-- CLEAR has been written and no edge has passed since. -/
  fresh : Bool

/-- An edge, another master, or the next write of the processor; the value is
used where the protocol leaves it open. -/
inductive Act (M : Type*) where
  | edge
  | other (f : M → M)
  | cpu (value : BitVec 32)

/-- A register write of the processor. -/
def Session.write (s : Session M) (i : Fin 4) (value : BitVec 32) : World M :=
  {s.world with
    dma := (bTransport s.world.dma (writeReg32 s.world.dma.dmaBaseAddr (regOffset i) value)).1}

/-- One step of controller and processor. The processor follows `dmaBurst`
and the interrupt handler: SOURCE, TARGET, SIZE, then START with value one,
then one CLEAR after the interrupt has risen. While it waits it writes
nothing. -/
def Session.step (bus : Bus M) (s : Session M) : Act M → Option (Session M)
  | .edge => (s.world.step bus .edge).map fun w =>
      {s with world := w, fresh := false,
              phase := if s.phase=.waiting ∧ s.world.dma.interrupt=false ∧ w.dma.interrupt=true
                then .raised else s.phase}
  | .other f => some {s with world := {s.world with mem := f s.world.mem}}
  | .cpu value =>
    match s.phase with
    | .program i =>
      let v := if i=3 then 1 else value
      some {s with world := s.write i v, values := memcpy s.values i v,
                   phase := if i=3 then .waiting else .program (i+1)}
    | .waiting => none
    | .raised => some {s with world := s.write 3 0, phase := .program 0, fresh := true}

/-- The processor before its first request, with a controller after reset. -/
def Session.init (dmaBaseAddr dataS : BitVec 32) (mem : M) : Session M :=
  ⟨⟨SingleDma.init dmaBaseAddr dataS,mem,[]⟩,.program 0,fun _ => 0,false⟩

/-- A processor that is programming a request. -/
structure Programming (next : Fin 4) (s : Session M) : Prop where
  /-- START/CLEAR is zero. -/
  cleared : s.world.dma.regmem 3=0
  /-- The registers written so far hold the values of the request. -/
  written : ∀ j<next,s.world.dma.regmem j=s.values j
  /-- Once an edge has seen the CLEAR the channel is idle. -/
  idle : s.fresh=false → s.world.dma.startClear=false
  /-- Before that the finished channel still holds its interrupt. -/
  held : s.fresh=true → s.world.dma.startClear=true ∧ s.world.dma.offset=s.world.dma.size ∧
    s.world.dma.interrupt=true

/-- The protocol invariant. While the processor waits START/CLEAR is nonzero;
once the interrupt has risen it is held. -/
def Agreed (s : Session M) : Prop :=
  match s.phase with
  | .program next => Programming next s
  | .waiting => s.world.dma.regmem 3≠0
  | .raised => Held s.world

/-- A register write changes its register and nothing else of the control. -/
theorem write_regmem (s : Session M) (i j : Fin 4) (value : BitVec 32) :
    (s.write i value).dma.regmem j=if j=i then value else s.world.dma.regmem j :=
  bTransport_writeReg32 s.world.dma i j value

/-- A register write leaves the signals and the interrupt as they are. -/
theorem write_engine (s : Session M) (i : Fin 4) (value : BitVec 32) :
    (s.write i value).dma.toEngine=s.world.dma.toEngine :=
  (bTransport_frame _ _).1

/-- One write before START: the next register takes its value, the earlier
ones keep theirs, and CLEAR is not touched. -/
theorem programming_write {s : Session M} {i : Fin 4} (h : Programming i s) (hi : i≠3)
    (value : BitVec 32) (p : Phase) :
    Programming (i+1) {s with world := s.write i value, values := memcpy s.values i value,
                              phase := p} := by
  have hsucc : ∀ k : Fin 4,k≠3 → ∀ j,j<k+1 → j≠k → j<k := by decide
  refine ⟨?_,?_,?_,?_⟩
  · dsimp only
    rw [write_regmem,if_neg hi.symm]
    exact h.cleared
  · intro j hj
    dsimp only [memcpy]
    rw [write_regmem]
    by_cases hji : j=i
    · rw [if_pos hji,if_pos (congrArg Fin.val hji)]
    · rw [if_neg hji,if_neg (fun hv => hji (Fin.ext hv))]
      exact h.written j (hsucc i hi j hj hji)
  · intro hf
    dsimp only
    rw [write_engine]
    exact h.idle hf
  · intro hf
    dsimp only
    rw [write_engine]
    exact h.held hf

/-- An edge of a programming processor: the channel samples the cleared
register, or stays idle. -/
theorem programming_edge {bus : Bus M} {s : Session M} {w : World M} {next : Fin 4}
    (h : Programming next s) (hstep : s.world.step bus .edge=some w) (p : Phase) :
    Programming next {s with world := w, fresh := false, phase := p} := by
  obtain ⟨hk,hreg⟩ := (step_engine hstep).2
  refine ⟨?_,?_,fun _ => ?_,fun hf => by cases hf⟩
  · dsimp only
    rw [hreg]
    exact h.cleared
  · dsimp only
    rw [hreg]
    exact h.written
  · dsimp only
    rw [hk]
    cases hf : s.fresh with
    | false =>
      rw [tick_idle _ (h.idle hf),h.cleared]
      rfl
    | true =>
      have hh := h.held hf
      rw [tick_finish _ hh.1 hh.2.1,h.cleared]
      rfl

/-- An edge keeps the invariant. Only the edge that raises the interrupt moves
the processor on, and it leaves the interrupt held. -/
theorem agreed_edge {bus : Bus M} {s s' : Session M} (h : Agreed s)
    (hs : s.step bus .edge=some s') : Agreed s' := by
  obtain ⟨w,hw,he⟩ := Option.map_eq_some_iff.mp hs
  subst he
  have hreg : w.dma.regmem=s.world.dma.regmem := (step_engine hw).2.2
  cases hp : s.phase with
  | program next =>
    simp only [Agreed,hp,reduceCtorEq,false_and,if_false] at h ⊢
    exact programming_edge h hw _
  | waiting =>
    simp only [Agreed,hp] at h
    simp only [Agreed,true_and]
    by_cases hrise : s.world.dma.interrupt=false ∧ w.dma.interrupt=true
    · obtain ⟨_,ho,hk,_⟩ := Rise.finish ⟨hw,hrise⟩
      rw [if_pos hrise]
      refine ⟨?_,?_,?_,?_⟩
      · rw [hk]
        exact bne_iff_ne.mpr h
      · rw [hk]
        exact ho
      · rw [hk]
      · rw [hreg]
        exact h
    · rw [if_neg hrise]
      dsimp only
      rw [hreg]
      exact h
  | raised =>
    simp only [Agreed,hp,reduceCtorEq,false_and,if_false] at h ⊢
    exact h.edge hw

/-- A write of the processor keeps the invariant. -/
theorem agreed_cpu {bus : Bus M} {s s' : Session M} {value : BitVec 32} (h : Agreed s)
    (hs : s.step bus (.cpu value)=some s') : Agreed s' := by
  cases hp : s.phase with
  | program i =>
    simp only [Agreed,hp] at h
    simp only [Session.step,hp,Option.some.injEq] at hs
    subst hs
    by_cases hi : i=3
    · simp only [Agreed,if_pos hi]
      rw [hi,write_regmem,if_pos rfl]
      decide
    · simp only [Agreed,if_neg hi]
      exact programming_write h hi value _
  | waiting => simp only [Session.step,hp,reduceCtorEq] at hs
  | raised =>
    simp only [Agreed,hp] at h
    simp only [Session.step,hp,Option.some.injEq] at hs
    subst hs
    refine ⟨?_,fun j hj => absurd hj (Fin.not_lt_zero j),?_,fun _ => ?_⟩
    · dsimp only
      rw [write_regmem,if_pos rfl]
    · intro hf
      cases hf
    · dsimp only
      rw [write_engine]
      exact ⟨h.started,h.finished,h.high⟩

/-- The step lemma of the protocol invariant. -/
theorem agreed_step {bus : Bus M} {s s' : Session M} {a : Act M} (h : Agreed s)
    (hs : s.step bus a=some s') : Agreed s' := by
  cases a with
  | edge => exact agreed_edge h hs
  | cpu value => exact agreed_cpu h hs
  | other f =>
    cases hs
    cases hp : s.phase with
    | program next =>
      simp only [Agreed,hp] at h ⊢
      exact ⟨h.cleared,h.written,h.idle,h.held⟩
    | waiting =>
      simp only [Agreed,hp] at h ⊢
      exact h
    | raised =>
      simp only [Agreed,hp] at h ⊢
      exact ⟨h.started,h.finished,h.high,h.kept⟩

/-- The run lemma: the invariant holds after every run from reset. -/
theorem agreed_run {bus : Bus M} {dmaBaseAddr dataS : BitVec 32} {mem : M} {acts : List (Act M)}
    {s : Session M} (h : run (Session.step bus) (Session.init dmaBaseAddr dataS mem) acts=some s) :
    Agreed s := by
  have hinit : Agreed (Session.init dmaBaseAddr dataS mem) := by
    refine ⟨rfl,fun j hj => absurd hj (Fin.not_lt_zero j),fun _ => rfl,?_⟩
    intro hf
    cases hf
  exact run_invariant (fun _ _ _ hi hs => agreed_step hi hs) hinit h

/-- The processor writes only while no data is being moved: the channel is
idle, or it has finished and its interrupt is high. -/
theorem cpu_quiet {bus : Bus M} {s s' : Session M} {value : BitVec 32} (h : Agreed s)
    (hs : s.step bus (.cpu value)=some s') :
    s.world.dma.startClear=false ∨
      (s.world.dma.offset=s.world.dma.size ∧ s.world.dma.interrupt=true) := by
  cases hp : s.phase with
  | program next =>
    simp only [Agreed,hp] at h
    cases hf : s.fresh with
    | false => exact Or.inl (h.idle hf)
    | true => exact Or.inr (h.held hf).2
  | waiting => simp only [Session.step,hp,reduceCtorEq] at hs
  | raised =>
    simp only [Agreed,hp] at h
    exact Or.inr ⟨h.finished,h.high⟩

/-- The edge between two worlds latches a request and restarts the offset. -/
def Starts (q : Request) (w w' : World M) : Prop :=
  w.dma.startClear=false ∧ w'.dma.toEngine=⟨q.source,q.target,q.size,true,0,false⟩

/-- A request has been taken up within three edges: one of them started it at
offset zero, and it is in the signals after the third. -/
def TakenUp (q : Request) (w₁ w₂ w₃ w₄ : World M) : Prop :=
  (Starts q w₁ w₂ ∨ Starts q w₂ w₃ ∨ Starts q w₃ w₄) ∧ w₄.dma.startClear=true ∧
    w₄.dma.source=q.source ∧ w₄.dma.target=q.target ∧ w₄.dma.size=q.size

/-- A started channel that finds START/CLEAR nonzero stays started, with the
same request. -/
theorem started_edge {bus : Bus M} {w w' : World M} (hs : w.dma.startClear=true)
    (hr : w.dma.regmem 3≠0) (h : w.step bus .edge=some w') :
    w'.dma.startClear=true ∧ w'.dma.regmem=w.dma.regmem ∧ w'.dma.source=w.dma.source ∧
      w'.dma.target=w.dma.target ∧ w'.dma.size=w.dma.size := by
  have hk := (step_engine h).2
  rcases tick_cases w.dma.regmem w.dma.toEngine with ⟨hf,_⟩|⟨hm,ht⟩|⟨_,_,ht⟩
  · rw [hs] at hf
    cases hf
  · rw [hk.1,ht]
    exact ⟨hs,hk.2,rfl,rfl,rfl⟩
  · rw [hk.1,ht]
    exact ⟨bne_iff_ne.mpr hr,hk.2,rfl,rfl,rfl⟩

/-- No lost request, exactly. In every run of the protocol, when the processor
writes START and three edges pass, the request is taken up precisely if an
edge has passed since the CLEAR before it, or it is the first one. -/
theorem request_taken_up_iff {bus : Bus M} {dmaBaseAddr dataS : BitVec 32} {mem : M}
    {acts : List (Act M)} {s s₁ : Session M} {w₂ w₃ w₄ : World M} {value : BitVec 32}
    (hrun : run (Session.step bus) (Session.init dmaBaseAddr dataS mem) acts=some s)
    (hphase : s.phase=.program 3) (hstart : s.step bus (.cpu value)=some s₁)
    (h₂ : s₁.world.step bus .edge=some w₂) (h₃ : w₂.step bus .edge=some w₃)
    (h₄ : w₃.step bus .edge=some w₄) :
    TakenUp (request s.values) s₁.world w₂ w₃ w₄ ↔ s.fresh=false := by
  have hprog : Programming 3 s := by
    have := agreed_run hrun
    simpa only [Agreed,hphase] using this
  simp only [Session.step,hphase,Option.some.injEq,if_true] at hstart
  subst hstart
  have hone : (s.write 3 1).dma.regmem 3≠0 := by
    rw [write_regmem,if_pos rfl]
    decide
  -- Split on the phase of the clock: has any edge seen the CLEAR?
  cases hf : s.fresh with
  | false =>
    have hidle : (s.write 3 1).dma.startClear=false := by
      rw [write_engine]
      exact hprog.idle hf
    have hold : ∀ j,j<3 → (s.write 3 1).dma.regmem j=s.values j := by
      intro j hj
      rw [write_regmem,if_neg (ne_of_lt hj)]
      exact hprog.written j hj
    have hstarts : Starts (request s.values) (s.write 3 1) w₂ := by
      have hk := (step_engine h₂).2.1
      rw [tick_idle _ hidle,hold 0 (by decide),hold 1 (by decide),hold 2 (by decide),
        bne_iff_ne.mpr hone] at hk
      exact ⟨hidle,hk⟩
    have hreg₂ : w₂.dma.regmem=(s.write 3 1).dma.regmem := (step_engine h₂).2.2
    have hs₂ : w₂.dma.startClear=true := by rw [hstarts.2]
    have hs₃ := started_edge hs₂ (by rw [hreg₂]; exact hone) h₃
    have hs₄ := started_edge hs₃.1 (by rw [hs₃.2.1,hreg₂]; exact hone) h₄
    refine iff_of_true ⟨Or.inl hstarts,hs₄.1,?_,?_,?_⟩ rfl
    · rw [hs₄.2.2.1,hs₃.2.2.1,hstarts.2]
    · rw [hs₄.2.2.2.1,hs₃.2.2.2.1,hstarts.2]
    · rw [hs₄.2.2.2.2,hs₃.2.2.2.2,hstarts.2]
  | true =>
    have hs₁ : (s.write 3 1).dma.startClear=true := by
      rw [write_engine]
      exact (hprog.held hf).1
    have hs₂ := started_edge hs₁ hone h₂
    have hs₃ := started_edge hs₂.1 (by rw [hs₂.2.1]; exact hone) h₃
    refine iff_of_false ?_ (by decide)
    rintro ⟨hany,_⟩
    rcases hany with hst|hst|hst
    · exact Bool.noConfusion (hs₁.symm.trans hst.1)
    · exact Bool.noConfusion (hs₂.1.symm.trans hst.1)
    · exact Bool.noConfusion (hs₃.1.symm.trans hst.1)

/-- One word is requested and moved, and its interrupt has risen. -/
def demoBurst : List (Act Unit) :=
  [.cpu 0x100,.cpu 0x200,.cpu 4,.cpu 1,.edge,.edge,.edge]

/-- CLEAR and the writes of the next request before START. -/
def demoProgram : List (Act Unit) := [.cpu 0,.cpu 0x300,.cpu 0x400,.cpu 4]

/-- With an edge after the CLEAR the second request is taken up. -/
theorem request_taken_up_demo :
    ∃ s s₁ : Session Unit,∃ w₂ w₃ w₄,
      run (Session.step (constBus 0)) (Session.init 0 0 ())
        (demoBurst++.cpu 0::.edge::demoProgram.tail)=some s ∧
      s.step (constBus 0) (.cpu 1)=some s₁ ∧ s₁.world.step (constBus 0) .edge=some w₂ ∧
      w₂.step (constBus 0) .edge=some w₃ ∧ w₃.step (constBus 0) .edge=some w₄ ∧
      TakenUp (request s.values) s₁.world w₂ w₃ w₄ := by
  refine ⟨_,_,_,_,_,rfl,rfl,rfl,rfl,rfl,?_⟩
  exact (@request_taken_up_iff Unit (constBus 0) 0 0 ()
    (demoBurst++.cpu 0::.edge::demoProgram.tail) _ _ _ _ _ 1 rfl rfl rfl rfl rfl rfl).mpr rfl

/-- CLEAR and START between the same two edges: the finished channel never
samples the CLEAR, and the second request is not taken up. -/
theorem request_lost :
    ∃ s s₁ : Session Unit,∃ w₂ w₃ w₄,
      run (Session.step (constBus 0)) (Session.init 0 0 ()) (demoBurst++demoProgram)=some s ∧
      s.phase=.program 3 ∧ s.step (constBus 0) (.cpu 1)=some s₁ ∧
      s₁.world.step (constBus 0) .edge=some w₂ ∧ w₂.step (constBus 0) .edge=some w₃ ∧
      w₃.step (constBus 0) .edge=some w₄ ∧ ¬TakenUp (request s.values) s₁.world w₂ w₃ w₄ := by
  refine ⟨_,_,_,_,_,rfl,rfl,rfl,rfl,rfl,rfl,?_⟩
  rintro ⟨_,_,hsource,_⟩
  revert hsource
  decide

end SystemCDma.SingleDmaMailbox
