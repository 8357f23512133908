import SystemCDma.SingleDma

/-!
# Interrupt handshake of the single-channel controller

START/CLEAR is one register that the processor writes at any time and the
process samples at an edge. A CLEAR written before the interrupt has risen is
sampled by the very edge that raises it, and a CLEAR overwritten by the next
START before any edge is never sampled. Both halves of the handshake are
characterised exactly: when a fall needs a CLEAR after the rise, and when a
START leads to a transfer of its own.
-/

namespace SystemCDma.SingleDmaHandshake

open TlmBus TransferEngine EventRun SingleDma

variable {M : Type*}

/-- A write of zero that lands in START/CLEAR. -/
def IsClear (dmaBaseAddr : BitVec 32) (p : Payload) : Prop :=
  p.command=.write ∧ regIndex dmaBaseAddr p.address=3 ∧ p.data=0

/-- This edge raises the interrupt. -/
def Rise (bus : Bus M) (w w' : World M) : Prop :=
  w.step bus .edge=some w' ∧ w.dma.interrupt=false ∧ w'.dma.interrupt=true

/-- This edge lets the interrupt fall. -/
def Fall (bus : Bus M) (w w' : World M) : Prop :=
  w.step bus .edge=some w' ∧ w.dma.interrupt=true ∧ w'.dma.interrupt=false

/-- From the world right after a rise on, no fall without a CLEAR in between. -/
def ClearedBeforeFall (bus : Bus M) (w : World M) : Prop :=
  ∀ mid w₁ w₂,run (World.step bus) w mid=some w₁ → Fall bus w₁ w₂ →
    ∃ p,Event.access p∈mid ∧ IsClear w.dma.dmaBaseAddr p

/-- The handshake over a run from `w₀`: every rise happens at an edge that
finds the offset equal to the size, and every later fall of the run is
preceded by a CLEAR written after that rise. -/
def Handshake (bus : Bus M) (w₀ : World M) (es : List (Event M)) : Prop :=
  (∀ pre post w₁ w₂,es=pre++.edge::post → run (World.step bus) w₀ pre=some w₁ →
    Rise bus w₁ w₂ → w₁.dma.offset=w₁.dma.size) ∧
  ∀ pre mid post w₁ w₂ w₃ w₄,es=pre++.edge::(mid++.edge::post) →
    run (World.step bus) w₀ pre=some w₁ → Rise bus w₁ w₂ →
    run (World.step bus) w₂ mid=some w₃ → Fall bus w₃ w₄ →
    ∃ p,Event.access p∈mid ∧ IsClear w₂.dma.dmaBaseAddr p

/-- A rise is a finishing edge: the size is reached, and START/CLEAR is
sampled into the signal. -/
theorem Rise.finish {bus : Bus M} {w w' : World M} (h : Rise bus w w') :
    w.dma.startClear=true ∧ w.dma.offset=w.dma.size ∧
      w'.dma.toEngine={w.dma.toEngine with startClear := w.dma.regmem 3!=0, interrupt := true} ∧
      w'.dma.regmem=w.dma.regmem := by
  obtain ⟨hstep,hlow,hhigh⟩ := h
  have hk := (step_engine hstep).2
  have hi : (w.dma.tick w.dma.regmem).interrupt=true := by
    rw [←hk.1]
    exact hhigh
  rcases tick_cases w.dma.regmem w.dma.toEngine with ⟨_,ht⟩|⟨_,ht⟩|⟨hs,ho,ht⟩
  · rw [ht] at hi
    cases hi
  · rw [ht] at hi
    rw [hlow] at hi
    cases hi
  · exact ⟨hs,ho,hk.1.trans ht,hk.2⟩

/-- A fall happens only at an edge that finds the channel idle. -/
theorem Fall.idle {bus : Bus M} {w w' : World M} (h : Fall bus w w') :
    w.dma.startClear=false := by
  obtain ⟨hstep,hhigh,hlow⟩ := h
  have hk := (step_engine hstep).2.1
  have hi : (w.dma.tick w.dma.regmem).interrupt=false := by
    rw [←hk]
    exact hlow
  rcases tick_cases w.dma.regmem w.dma.toEngine with ⟨hs,_⟩|⟨_,ht⟩|⟨_,_,ht⟩
  · exact hs
  · rw [ht] at hi
    rw [hhigh] at hi
    cases hi
  · rw [ht] at hi
    cases hi

/-- The interrupt is held: the finished channel is started and finds a
nonzero START/CLEAR at every edge. -/
structure Held (w : World M) : Prop where
  /-- The channel is started. -/
  started : w.dma.startClear=true
  /-- All bytes have been moved. -/
  finished : w.dma.offset=w.dma.size
  /-- The interrupt is high. -/
  high : w.dma.interrupt=true
  /-- START/CLEAR is nonzero. -/
  kept : w.dma.regmem 3≠0

/-- An edge keeps a held interrupt. -/
theorem Held.edge {bus : Bus M} {w w' : World M} (h : Held w) (he : w.step bus .edge=some w') :
    Held w' := by
  have hk := (step_engine he).2
  have ht := hk.1.trans (tick_finish w.dma.regmem h.started h.finished)
  refine ⟨?_,?_,?_,?_⟩
  · rw [ht]
    exact bne_iff_ne.mpr h.kept
  · rw [ht]
    exact h.finished
  · rw [ht]
  · rw [hk.2]
    exact h.kept

/-- An access other than a CLEAR keeps a held interrupt. -/
theorem Held.access {w : World M} (h : Held w) {p : Payload} (hp : ¬IsClear w.dma.dmaBaseAddr p) :
    Held {w with dma := (bTransport w.dma p).1} := by
  have hf := (bTransport_frame w.dma p).1
  refine ⟨?_,?_,?_,?_⟩
  · dsimp only
    rw [hf]
    exact h.started
  · dsimp only
    rw [hf]
    exact h.finished
  · dsimp only
    rw [hf]
    exact h.high
  · dsimp only
    rw [bTransport_regmem]
    split
    · rename_i hw
      exact fun hz => hp ⟨hw.1,hw.2.symm,hz⟩
    · exact h.kept

/-- One step keeps a held interrupt unless it is a CLEAR. -/
theorem Held.step {bus : Bus M} {w w' : World M} {e : Event M} (h : Held w)
    (he : w.step bus e=some w') (hc : ∀ p,e=.access p → ¬IsClear w.dma.dmaBaseAddr p) :
    Held w' := by
  cases e with
  | edge => exact h.edge he
  | access p =>
    cases he
    exact h.access (hc p rfl)
  | other f =>
    cases he
    exact ⟨h.started,h.finished,h.high,h.kept⟩

/-- A run without a CLEAR keeps a held interrupt. -/
theorem Held.run {bus : Bus M} {w w' : World M} {es : List (Event M)} (h : Held w)
    (hc : ∀ p,Event.access p∈es → ¬IsClear w.dma.dmaBaseAddr p)
    (hr : EventRun.run (World.step bus) w es=some w') : Held w' := by
  induction es generalizing w with
  | nil =>
    cases hr
    exact h
  | cons e es ih =>
    obtain ⟨u,hu,hrest⟩ := run_cons_some hr
    have hbase := (step_engine hu).1
    have hu' : Held u := h.step hu (fun p hp => hc p (hp ▸ List.mem_cons_self))
    exact ih hu' (fun p hp => by rw [hbase]; exact hc p (List.mem_cons_of_mem _ hp)) hrest

/-- After a rise that sampled a nonzero START/CLEAR no fall comes without a
CLEAR written in between. -/
theorem Rise.cleared {bus : Bus M} {w w' : World M} (h : Rise bus w w')
    (hkept : w.dma.regmem 3≠0) : ClearedBeforeFall bus w' := by
  obtain ⟨_,ho,hk,hreg⟩ := h.finish
  intro mid w₁ w₂ hrun hfall
  by_contra hno
  have hheld : Held w' := by
    refine ⟨?_,?_,?_,by rw [hreg]; exact hkept⟩
    · rw [hk]
      exact bne_iff_ne.mpr hkept
    · rw [hk]
      exact ho
    · rw [hk]
  have hend := hheld.run (fun p hp hc => hno ⟨p,hp,hc⟩) hrun
  exact Bool.noConfusion (hend.started.symm.trans hfall.idle)

/-- After a rise that sampled zero the next edge lets the interrupt fall at
once, with no access in between. -/
theorem Rise.dropped {bus : Bus M} {w w' : World M} (h : Rise bus w w')
    (hzero : w.dma.regmem 3=0) : ¬ClearedBeforeFall bus w' := by
  obtain ⟨_,_,hk,_⟩ := h.finish
  have hidle : w'.dma.startClear=false := by
    rw [hk,hzero]
    rfl
  obtain ⟨s,hs⟩ := dmaP_still bus w'.mem (still_idle hidle)
  intro hall
  have hstep : w'.step bus .edge=
      some ⟨s,w'.mem,w'.turns++[⟨w'.dma.latched w'.dma.regmem,[]⟩]⟩ := by
    rw [World.step,hs]
  have hlow : s.interrupt=false := by
    rw [(dmaP_ok hs).1,tick_idle _ hidle]
  obtain ⟨p,hp,_⟩ := hall [] w' _ rfl ⟨hstep,h.2.2,hlow⟩
  cases hp

/-- The condition on a step: an edge about to raise the interrupt finds
START/CLEAR nonzero. No CLEAR written between latch and rise is still there. -/
def NoEarlyClear (w : World M) : Event M → Prop
  | .edge => w.dma.startClear=true → w.dma.offset=w.dma.size → w.dma.interrupt=false →
      w.dma.regmem 3≠0
  | _ => True

/-- At a rise the condition is that START/CLEAR is nonzero. -/
theorem Rise.noEarlyClear_iff {bus : Bus M} {w w' : World M} (h : Rise bus w w') :
    NoEarlyClear w .edge ↔ w.dma.regmem 3≠0 := by
  obtain ⟨hs,ho,_⟩ := h.finish
  exact ⟨fun hc => hc hs ho h.2.1,fun hkept _ _ _ => hkept⟩

/-- The handshake, exactly. Every run without an early CLEAR obeys the whole
handshake. And a single rise is followed, in every continuation, by no fall
without a CLEAR precisely when there was no early CLEAR at its edge. -/
theorem handshake_exact (bus : Bus M) (w₀ : World M) :
    (∀ es,Along (World.step bus) NoEarlyClear w₀ es → Handshake bus w₀ es) ∧
    ∀ w w',Rise bus w w' → (ClearedBeforeFall bus w' ↔ NoEarlyClear w .edge) := by
  constructor
  · intro es hno
    constructor
    · intro pre post w₁ w₂ _ _ hrise
      exact hrise.finish.2.1
    · intro pre mid post w₁ w₂ w₃ w₄ hes hpre hrise hmid hfall
      have hkept := hrise.noEarlyClear_iff.mp (hno pre .edge _ w₁ hes hpre)
      exact hrise.cleared hkept mid w₃ w₄ hmid hfall
  · intro w w' hrise
    rw [hrise.noEarlyClear_iff]
    exact ⟨fun hall hz => hrise.dropped hz hall,hrise.cleared⟩

/-- A controller at base address zero right after reset, on a bus that
answers every access. -/
def resetWorld : World Unit := ⟨init 0 0,(),[]⟩

/-- The processor requests one word, and clears before the word is moved. -/
def earlyClear : List (Event Unit) :=
  [.access (writeReg32 0 dmaSourceAddr 0x100),.access (writeReg32 0 dmaTargetAddr 0x200),
    .access (writeReg32 0 dmaSizeAddr 4),.access (writeReg32 0 dmaClearAddr 1),.edge,
    .access (writeReg32 0 dmaClearAddr 0),.edge]

/-- The early CLEAR breaks the handshake: two more edges raise the interrupt
and let it fall, and nothing was written in between. -/
theorem handshake_early_clear :
    ¬Handshake (constBus 0) resetWorld (earlyClear++[.edge,.edge]) := by
  intro h
  obtain ⟨p,hp,_⟩ := h.2 earlyClear [] [] _ _ _ _ rfl rfl ⟨rfl,rfl,rfl⟩ rfl ⟨rfl,rfl,rfl⟩
  cases hp

end SystemCDma.SingleDmaHandshake
