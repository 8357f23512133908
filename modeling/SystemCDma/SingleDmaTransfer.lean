import SystemCDma.SingleDma

/-!
# Whole transfers of the single-channel controller

From the latching edge on, every moving edge copies the next word, whatever
the processor writes into the registers in between. After as many edges as the
request has words the memory is the forward copy of the memory at the latch,
and the next edge raises the interrupt. Other masters may be active as long as
they leave the region under consideration alone.
-/

namespace SystemCDma.SingleDmaTransfer

open ByteMemory TlmBus TransferEngine EventRun SingleDma

/-- The loop invariant: `n` words of the request have been moved, and on the
region the memory is their forward copy. -/
structure Copying (q : Request) (m₀ : Memory) (R : Set ℕ) (n : ℕ) (w : World Memory) : Prop where
  /-- The control has moved `n` words. -/
  progress : w.dma.Progress q n
  /-- The memory agrees with the copy of `n` words. -/
  copied : Set.EqOn w.mem (forwardCopy m₀ q.source.toNat q.target.toNat n) R

section Run

variable {bus : Bus Memory} {window R : Set ℕ} {q : Request} {m₀ : Memory}

/-- A moving edge goes through and copies one more word. The read finds the
region as the earlier words left it, so overlapping ranges need no case. -/
theorem Copying.edge (hram : bus.IsRam window) (hsw : bytes q.source.toNat q.size.toNat⊆window)
    (htw : bytes q.target.toNat q.size.toNat⊆window) (hsR : bytes q.source.toNat q.size.toNat⊆R)
    {n : ℕ} {w : World Memory} (h : Copying q m₀ R n w) (hn : 4*(n+1)≤q.size.toNat) :
    ∃ w',w.step bus .edge=some w' ∧ Copying q m₀ R (n+1) w' := by
  have hm : w.dma.Moving := h.progress.moving_iff.mpr (by omega)
  have hsa : (w.dma.readPayload w.dma.dataS).address.toNat=q.source.toNat+4*n :=
    (h.progress.wordMove w.dma.dataS ⟨.okResponse,0⟩ ⟨.okResponse,0⟩).readAddress
  have hta : ∀ d,(w.dma.writePayload d).address.toNat=q.target.toNat+4*n := fun d =>
    (h.progress.wordMove w.dma.dataS ⟨.okResponse,d⟩ ⟨.okResponse,0⟩).writeAddress
  have hr : bus.bTransport w.mem (w.dma.readPayload w.dma.dataS)=
      (w.mem,⟨.okResponse,load w.mem (q.source.toNat+4*n)⟩) := by
    have hin : bytes (w.dma.readPayload w.dma.dataS).address.toNat 4⊆window := by
      rw [hsa]
      exact (word_subset hn).trans hsw
    rw [←hsa]
    exact hram.read _ _ _ hin
  have hw : ∀ d,bus.bTransport w.mem (w.dma.writePayload d)=
      (store w.mem (q.target.toNat+4*n) d,⟨.okResponse,d⟩) := by
    intro d
    have hin : bytes (w.dma.writePayload d).address.toNat 4⊆window := by
      rw [hta d]
      exact (word_subset hn).trans htw
    rw [←hta d]
    exact hram.write _ _ _ hin
  obtain ⟨s',hs'⟩ := dmaP_move hm hr rfl (hw _) rfl
  refine ⟨_,by rw [World.step,hs'],?_,?_⟩
  · have hk := (dmaP_ok hs').1
    dsimp only
    rw [hk]
    exact h.progress.tick_move _ hn
  · dsimp only
    rw [forwardCopy]
    exact store_load_eqOn _ h.copied ((word_subset hn).trans hsR)

/-- A register access changes neither the progress nor the memory. -/
theorem Copying.access {n : ℕ} {w : World Memory} (h : Copying q m₀ R n w) (p : Payload) :
    Copying q m₀ R n {w with dma := (bTransport w.dma p).1} := by
  refine ⟨?_,h.copied⟩
  dsimp only
  rw [(bTransport_frame w.dma p).1]
  exact h.progress

/-- Another master that leaves the region alone does not disturb the copy. -/
theorem Copying.other {n : ℕ} {w : World Memory} (h : Copying q m₀ R n w) {f : Memory → Memory}
    (hf : Set.EqOn (f w.mem) w.mem R) : Copying q m₀ R n {w with mem := f w.mem} :=
  ⟨h.progress,hf.trans h.copied⟩

/-- The run lemma: as long as the edges do not exceed the words left, the run
goes through and every edge moves one word. -/
theorem Copying.run (hram : bus.IsRam window) (hsw : bytes q.source.toNat q.size.toNat⊆window)
    (htw : bytes q.target.toNat q.size.toNat⊆window) (hsR : bytes q.source.toNat q.size.toNat⊆R)
    {n : ℕ} {w : World Memory} (h : Copying q m₀ R n w) {es : List (Event Memory)}
    (hes : Untouched R es) (hn : 4*(n+edgeCount es)≤q.size.toNat) :
    ∃ w',EventRun.run (World.step bus) w es=some w' ∧ Copying q m₀ R (n+edgeCount es) w' := by
  induction es generalizing n w with
  | nil => exact ⟨w,rfl,h⟩
  | cons e es ih =>
    have htail := hes.tail
    cases e with
    | edge =>
      simp only [edgeCount] at hn ⊢
      obtain ⟨w₁,hstep,h₁⟩ := h.edge hram hsw htw hsR (by omega)
      obtain ⟨w₂,hrun,h₂⟩ := ih h₁ htail (by omega)
      refine ⟨w₂,by rw [run_cons,hstep]; exact hrun,?_⟩
      rw [show n+(edgeCount es+1)=n+1+edgeCount es by omega]
      exact h₂
    | access p => exact ih (h.access p) htail hn
    | other f => exact ih (h.other (hes f List.mem_cons_self w.mem)) htail hn

end Run

/-- Whole-transfer correctness. An idle controller latches the request in its
registers. Then, for every interleaving of edges, register accesses and
masters that leave a region around both ranges alone: up to as many edges as
the request has words the simulation runs on with the interrupt low; after
exactly that many the region holds the forward copy of the memory at the
latch, and the next edge raises the interrupt without touching the memory.
Where the target does not start inside the source, that copy is the move. -/
theorem transfer_complete {bus : Bus Memory} {window R : Set ℕ} (hram : bus.IsRam window)
    {w w₁ : World Memory} {q : Request} (hlatch : w.dma.latched w.dma.regmem=some q)
    (hedge : w.step bus .edge=some w₁) (hsize : 4∣q.size.toNat)
    (hsw : bytes q.source.toNat q.size.toNat⊆window)
    (htw : bytes q.target.toNat q.size.toNat⊆window)
    (hsR : bytes q.source.toNat q.size.toNat⊆R) (htR : bytes q.target.toNat q.size.toNat⊆R)
    (es : List (Event Memory)) (hes : Untouched R es) :
    (edgeCount es≤q.size.toNat/4 →
      ∃ w₂,run (World.step bus) w₁ es=some w₂ ∧ w₂.dma.interrupt=false) ∧
    (edgeCount es=q.size.toNat/4 →
      ∃ w₂ w₃,run (World.step bus) w₁ es=some w₂ ∧
        Set.EqOn w₂.mem (forwardCopy w.mem q.source.toNat q.target.toNat (q.size.toNat/4)) R ∧
        w₂.step bus .edge=some w₃ ∧ w₃.dma.interrupt=true ∧ w₃.mem=w₂.mem ∧
        (q.target.toNat≤q.source.toNat ∨ q.source.toNat+q.size.toNat≤q.target.toNat →
          (∀ i<q.size.toNat,w₂.mem (q.target.toNat+i)=w.mem (q.source.toNat+i)) ∧
          ∀ x∈R,x∉bytes q.target.toNat q.size.toNat → w₂.mem x=w.mem x)) := by
  have hfour : 4*(q.size.toNat/4)=q.size.toNat := Nat.mul_div_cancel' hsize
  have hstart : Copying q w.mem R 0 w₁ := by
    have hidle := (tick_latched hlatch).1
    have hk := (step_engine hedge).2.1
    obtain ⟨_,_,hmem⟩ := step_edge hedge
    rcases hmem with ⟨_,hmem,_⟩|⟨hmoving,_⟩
    · refine ⟨by rw [hk]; exact progress_latched hlatch,?_⟩
      rw [hmem]
      exact Set.eqOn_refl _ _
    · rw [hmoving.1] at hidle
      cases hidle
  constructor
  · intro hcount
    obtain ⟨w₂,hrun,h₂⟩ := hstart.run hram hsw htw hsR hes (by omega)
    exact ⟨w₂,hrun,h₂.progress.quiet⟩
  · intro hcount
    obtain ⟨w₂,hrun,h₂⟩ := hstart.run hram hsw htw hsR hes (by omega)
    rw [hcount,Nat.zero_add] at h₂
    have hstill : ¬w₂.dma.Moving := fun hm => h₂.progress.moving_iff.mp hm hfour
    obtain ⟨s₃,hs₃⟩ := dmaP_still bus w₂.mem hstill
    have hw₃ : w₂.step bus .edge=
        some ⟨s₃,w₂.mem,w₂.turns++[⟨w₂.dma.latched w₂.dma.regmem,[]⟩]⟩ := by
      rw [World.step,hs₃]
    have hhigh : s₃.interrupt=true := by
      rw [(dmaP_ok hs₃).1]
      exact (h₂.progress.tick_raise _ hfour).1.high
    refine ⟨w₂,_,hrun,h₂.copied,hw₃,hhigh,rfl,?_⟩
    intro hmove
    have hmove' : q.target.toNat≤q.source.toNat ∨
        q.source.toNat+4*(q.size.toNat/4)≤q.target.toNat := by omega
    constructor
    · intro i hi
      rw [h₂.copied (htR ⟨by omega,by omega⟩)]
      exact forwardCopy_target _ hmove' (by omega)
    · intro x hx hout
      rw [h₂.copied hx]
      exact forwardCopy_frame _ _ _ (by rw [hfour]; exact hout)

/-- The request of the demo program, three words from 0xfff00000 to
0xffff0000, waiting in the registers of a controller at base address zero. -/
def demoWorld : World Memory :=
  ⟨⟨Engine.reset,0,![0xfff00000,0xffff0000,12,1],0⟩,fun _ => 0,[]⟩

/-- The demo transfer with START/CLEAR rewritten between its moving edges
copies its three words inside the RAM window of the platform. -/
theorem transfer_complete_demo :
    ∃ w₁ w₂ : World Memory,demoWorld.step (ramBus 0x10 0x100000000) .edge=some w₁ ∧
      run (World.step (ramBus 0x10 0x100000000)) w₁
        [.edge,.access (writeReg32 0 dmaClearAddr 0),.edge,
          .access (writeReg32 0 dmaClearAddr 1),.edge]=some w₂ ∧
      ∀ i<12,w₂.mem (0xffff0000+i)=demoWorld.mem (0xfff00000+i) := by
  have hwin : ∀ a : ℕ,0x10≤a → a+12≤0x100000000 → bytes a 12⊆Set.Ico 0x10 0x100000000 :=
    fun a h₀ h₁ x hx => ⟨by have := hx.1; omega,by have := hx.2; omega⟩
  obtain ⟨w₂,_,hrun,_,_,_,_,hmove⟩ := (transfer_complete (ramBus_isRam 0x10 0x100000000)
    (w := demoWorld) (q := ⟨0xfff00000,0xffff0000,12⟩) (R := Set.univ) rfl rfl ⟨3,rfl⟩
    (hwin _ (by decide) (by decide)) (hwin _ (by decide) (by decide))
    (Set.subset_univ _) (Set.subset_univ _)
    [.edge,.access (writeReg32 0 dmaClearAddr 0),.edge,
      .access (writeReg32 0 dmaClearAddr 1),.edge]
    (fun f hf => by simp at hf)).2 rfl
  exact ⟨_,w₂,rfl,hrun,(hmove (Or.inr (by decide))).1⟩

end SystemCDma.SingleDmaTransfer
