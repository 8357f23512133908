import SystemCDma.SingleDma
import SystemCDma.DualDma
import SystemCDma.TransferAccount

/-!
# Footprint and termination of a transfer

Both controllers stop when the offset equals the size and step it by four. A
size that is a multiple of four is reached after its number of words, with
every access inside the two ranges. Any other size is stepped over: the
channel moves on beyond both ranges and never raises the interrupt.
-/

namespace SystemCDma.TransferFootprint

open ByteMemory TlmBus TransferEngine TransferAccount EventRun

/-- Number of moving edges of a request: its size in words, rounded up. -/
def movingEdges (q : Request) : ℕ := (q.size.toNat+3)/4

/-- A transaction inside the two ranges of a request. -/
structure InFootprint (q : Request) (x : Txn) : Prop where
  /-- A read reads source bytes only. -/
  read : x.payload.command=.read →
    bytes x.payload.address.toNat 4⊆bytes q.source.toNat q.size.toNat
  /-- A write writes target bytes only. -/
  write : x.payload.command=.write →
    bytes x.payload.address.toNat 4⊆bytes q.target.toNat q.size.toNat

section Clock

variable {S M : Type*} (step : S → Event M → Option S) (engine : S → Engine)
  (turns : S → List Turn)

/-- As long as no further request is latched every transaction is inside. -/
def StaysInside (q : Request) (s : S) : Prop :=
  ∀ es t new,run step s es=some t → turns t=turns s++new → (∀ u∈new,u.latched=none) →
    ∀ u∈new,∀ x∈u.txns,InFootprint q x

/-- After the moving edges, whatever happens in between, the interrupt is
still low and the next edge raises it. -/
def StopsOnTime (q : Request) (s : S) : Prop :=
  ∀ es,edgeCount es=movingEdges q → ∃ t t',run step s es=some t ∧ step t .edge=some t' ∧
    (engine t).interrupt=false ∧ (engine t').interrupt=true

end Clock

/-- The two accesses of a word inside the size are inside the ranges. -/
theorem footprint_word {q : Request} {n : ℕ} {r w : Txn} (h : WordMove q.source q.target n r w)
    (hn : 4*(n+1)≤q.size.toNat) : InFootprint q r ∧ InFootprint q w := by
  refine ⟨⟨fun _ => ?_,fun hc => ?_⟩,⟨fun hc => ?_,fun _ => ?_⟩⟩
  · rw [h.readAddress]
    exact word_subset hn
  · rw [h.readCommand] at hc
    cases hc
  · rw [h.writeCommand] at hc
    cases hc
  · rw [h.writeAddress]
    exact word_subset hn

/-- A channel on its way through a request, or not moving any more. -/
def Serving (q : Request) (e : Engine) : Prop :=
  (∃ n,e.Progress q n ∧ 4*n≤q.size.toNat) ∨ ¬e.Moving

/-- An edge that latches nothing keeps the channel serving, and what it issues
is inside. -/
theorem Serving.edge {q : Request} {e : Engine} {r : Registers} {txns : List Txn}
    (h : Serving q e) (hq : 4∣q.size.toNat) (hl : e.latched r=none) (hi : e.Issues txns) :
    Serving q (e.tick r) ∧ ∀ x∈txns,InFootprint q x := by
  by_cases hm : e.Moving
  · rcases h with ⟨n,hp,hn⟩|hstill
    · have hnext : 4*(n+1)≤q.size.toNat := by
        have := hp.moving_iff.mp hm
        omega
      obtain ⟨rd,wr,ht,hword⟩ := hi.wordMove hp hm
      refine ⟨Or.inl ⟨n+1,hp.tick_move r hnext,hnext⟩,fun x hx => ?_⟩
      rw [ht] at hx
      rcases List.mem_pair.mp hx with rfl|rfl
      · exact (footprint_word hword hnext).1
      · exact (footprint_word hword hnext).2
    · exact absurd hm hstill
  · refine ⟨Or.inr (still_edge hm hl),fun x hx => ?_⟩
    rw [hi.still hm] at hx
    cases hx

section Exact

variable {S M : Type*} {step : S → Event M → Option S} {engine : S → Engine}
  {registers : S → Registers} {turns : S → List Turn}

/-- What holds since the latch: while no further request is latched the
channel serves this one, and every transaction so far is inside. -/
def InsideSince (engine : S → Engine) (turns : S → List Turn) (q : Request) (s t : S) : Prop :=
  ∃ new,turns t=turns s++new ∧ ((∀ u∈new,u.latched=none) →
    Serving q (engine t) ∧ ∀ u∈new,∀ x∈u.txns,InFootprint q x)

/-- One step keeps the transactions since the latch inside. -/
theorem insideSince_step (hclock : Clocked step engine registers turns) {q : Request}
    (hq : 4∣q.size.toNat) {s u v : S} {e : Event M} (h : InsideSince engine turns q s u)
    (he : step u e=some v) : InsideSince engine turns q s v := by
  obtain ⟨new,hnew,hinside⟩ := h
  by_cases hedge : e=.edge
  · subst hedge
    obtain ⟨hengine,txns,hturns,hi⟩ := hclock.edge he
    refine ⟨new++[⟨(engine u).latched (registers u),txns⟩],?_,fun hnone => ?_⟩
    · rw [hturns,hnew,List.append_assoc]
    · obtain ⟨hserve,hold⟩ := hinside fun a ha => hnone a (List.mem_append_left _ ha)
      have hl := hnone _ (List.mem_append_right _ List.mem_cons_self)
      obtain ⟨hserve',hin⟩ := hserve.edge hq hl hi
      refine ⟨by rw [hengine]; exact hserve',fun a ha x hx => ?_⟩
      rcases List.mem_append.mp ha with ha|ha
      · exact hold a ha x hx
      · rw [List.mem_singleton.mp ha] at hx
        exact hin x hx
  · obtain ⟨hengine,hturns⟩ := hclock.between he hedge
    exact ⟨new,hturns.trans hnew,by rw [hengine]; exact hinside⟩

/-- A size of whole words keeps every transaction inside. -/
theorem staysInside (hclock : Clocked step engine registers turns) {q : Request} {s : S}
    (hs : (engine s).Progress q 0) (hq : 4∣q.size.toNat) : StaysInside step turns q s := by
  intro es t new hrun hnew hnone
  have hstart : InsideSince engine turns q s s := by
    refine ⟨[],(List.append_nil _).symm,fun _ => ⟨Or.inl ⟨0,hs,Nat.zero_le _⟩,?_⟩⟩
    intro a ha
    cases ha
  obtain ⟨new',hnew',hinside⟩ :=
    run_invariant (fun _ _ _ hu he => insideSince_step hclock hq hu he) hstart hrun
  rw [hnew,List.append_cancel_left_eq] at hnew'
  subst hnew'
  exact (hinside hnone).2

/-- Up to the size every edge moves one more word. -/
theorem progress_run (hclock : Clocked step engine registers turns) {q : Request} {s t : S}
    {n : ℕ} {es : List (Event M)} (hs : (engine s).Progress q n)
    (hn : 4*(n+edgeCount es)≤q.size.toNat) (h : run step s es=some t) :
    (engine t).Progress q (n+edgeCount es) := by
  induction es generalizing s n with
  | nil =>
    cases h
    exact hs
  | cons e es ih =>
    obtain ⟨u,hu,hrest⟩ := run_cons_some h
    cases e with
    | edge =>
      simp only [edgeCount] at hn ⊢
      have hu' : (engine u).Progress q (n+1) := by
        rw [(hclock.edge hu).1]
        exact hs.tick_move _ (by omega)
      rw [show n+(edgeCount es+1)=n+1+edgeCount es by omega]
      exact ih hu' (by omega) hrest
    | access p =>
      refine ih ?_ hn hrest
      rw [(hclock.between hu (Event.access_ne_edge p)).1]
      exact hs
    | other f =>
      refine ih ?_ hn hrest
      rw [(hclock.between hu (Event.other_ne_edge f)).1]
      exact hs

/-- A size of whole words is reached on time. -/
theorem stopsOnTime (hclock : Clocked step engine registers turns)
    (htotal : ∀ s e,∃ t,step s e=some t) {q : Request} {s : S} (hs : (engine s).Progress q 0)
    (hq : 4∣q.size.toNat) : StopsOnTime step engine q s := by
  intro es hcount
  have hedges : 4*edgeCount es=q.size.toNat := by
    rw [hcount,movingEdges]
    omega
  obtain ⟨t,ht⟩ := run_total htotal s es
  obtain ⟨t',ht'⟩ := htotal t .edge
  have hp := progress_run hclock hs (by omega) ht
  refine ⟨t,t',ht,ht',hp.quiet,?_⟩
  rw [(hclock.edge ht').1]
  exact (hp.tick_raise _ (by omega)).1.high

/-- A channel whose size is never reached stays so in every run. -/
theorem endless_run (hclock : Clocked step engine registers turns) {s t : S}
    {es : List (Event M)} (hs : Endless (engine s)) (h : run step s es=some t) :
    Endless (engine t) := by
  have hstep : ∀ u e v,Endless (engine u) → step u e=some v → Endless (engine v) := by
    intro u e v hu he
    by_cases hedge : e=.edge
    · subst hedge
      rw [(hclock.edge he).1]
      exact hu.tick _
    · rw [(hclock.between he hedge).1]
      exact hu
  exact run_invariant hstep hs h

/-- A list of edges has as many edges. -/
theorem edgeCount_replicate (n : ℕ) : edgeCount (List.replicate n (.edge : Event M))=n := by
  induction n with
  | zero => rfl
  | succ n ih => rw [List.replicate_succ,edgeCount,ih]

/-- A clocked channel keeps to its ranges and stops on time exactly when the
latched size is a multiple of four. -/
theorem footprint_clocked (hclock : Clocked step engine registers turns)
    (htotal : ∀ s e,∃ t,step s e=some t) {q : Request} {s s₁ : S}
    (hl : (engine s).latched (registers s)=some q) (he : step s .edge=some s₁) :
    (StaysInside step turns q s₁ ∧ StopsOnTime step engine q s₁) ↔ 4∣q.size.toNat := by
  have hp : (engine s₁).Progress q 0 := by
    rw [(hclock.edge he).1]
    exact progress_latched hl
  constructor
  · rintro ⟨_,hstop⟩
    by_contra hq
    obtain ⟨t,t',ht,ht',_,hhigh⟩ := hstop _ (edgeCount_replicate (movingEdges q))
    have hloop : Endless (engine s₁) := by
      refine ⟨hp.started,hp.quiet,by rw [hp.size]; exact hq,?_⟩
      rw [hp.offset]
      exact Nat.dvd_mul_right 4 0
    have hrun : run step s₁ (List.replicate (movingEdges q) .edge++[.edge])=some t' :=
      run_trans ht (by rw [run_singleton]; exact ht')
    have := (endless_run hclock hloop hrun).quiet
    rw [hhigh] at this
    cases this
  · intro hq
    exact ⟨staysInside hclock hp hq,stopsOnTime hclock htotal hp hq⟩

end Exact

/-- Footprint and termination, exactly, for both controllers on a bus where
every access succeeds: from the edge that latches a request on, the controller
and each channel of the two-channel controller stay inside the two ranges and
raise the interrupt right after the moving edges, if and only if the size is a
multiple of four. -/
theorem footprint_exact {M : Type*} {bus : Bus M} (hok : bus.AllOk) (q : Request) :
    (∀ w w₁ : SingleDma.World M,w.dma.latched w.dma.regmem=some q → w.step bus .edge=some w₁ →
      ((StaysInside (SingleDma.World.step bus) (fun v => v.turns) q w₁ ∧
        StopsOnTime (SingleDma.World.step bus) (fun v => v.dma.toEngine) q w₁) ↔
          4∣q.size.toNat)) ∧
    ∀ side,∀ w w₁ : DualDma.World M,
      (w.dma.chan side).latched (w.dma.chan side).regAddr=some q → w.step bus .edge=some w₁ →
      ((StaysInside (DualDma.World.step bus) (fun v => v.turns side) q w₁ ∧
        StopsOnTime (DualDma.World.step bus) (fun v => (v.dma.chan side).toEngine) q w₁) ↔
          4∣q.size.toNat) := by
  constructor
  · intro w w₁ hl he
    exact footprint_clocked (SingleDma.clocked bus) (SingleDma.step_total hok) hl he
  · intro side w w₁ hl he
    exact footprint_clocked (DualDma.clocked bus side) (DualDma.step_total bus) hl he

/-- The controller of the first project about to latch a request. -/
def singleWorld (size : BitVec 32) : SingleDma.World Unit :=
  ⟨⟨Engine.reset,0,![0x100,0x200,size,1],0⟩,(),[]⟩

/-- The controller of the second project about to latch the same request on
both channels. -/
def dualWorld (size : BitVec 32) : DualDma.World Unit :=
  ⟨⟨⟨Engine.reset,![0x100,0x200,size,1],false⟩,⟨Engine.reset,![0x100,0x200,size,1],false⟩,0⟩,
    (),[]⟩

/-- Two words stay inside and stop on time on both controllers. -/
theorem footprint_exact_two_words :
    ∃ (w₁ : SingleDma.World Unit) (v₁ : DualDma.World Unit),
      (singleWorld 8).step (constBus 0) .edge=some w₁ ∧
      (dualWorld 8).step (constBus 0) .edge=some v₁ ∧
      StopsOnTime (SingleDma.World.step (constBus 0)) (fun v => v.dma.toEngine)
        ⟨0x100,0x200,8⟩ w₁ ∧
      StopsOnTime (DualDma.World.step (constBus 0)) (fun v => (v.dma.chan .two).toEngine)
        ⟨0x100,0x200,8⟩ v₁ := by
  have h := footprint_exact (constBus_allOk 0) ⟨0x100,0x200,8⟩
  refine ⟨_,_,rfl,rfl,?_,?_⟩
  · exact ((h.1 (singleWorld 8) _ rfl rfl).mpr ⟨2,rfl⟩).2
  · exact ((h.2 .two (dualWorld 8) _ rfl rfl).mpr ⟨2,rfl⟩).2

/-- A request of one byte on either controller: its first read leaves the
source range, and the edge after the moving edge raises no interrupt. -/
theorem single_byte_escapes :
    ∃ (w₁ : SingleDma.World Unit) (v₁ : DualDma.World Unit),
      (singleWorld 1).step (constBus 0) .edge=some w₁ ∧
      (dualWorld 1).step (constBus 0) .edge=some v₁ ∧
      ¬StaysInside (SingleDma.World.step (constBus 0)) (fun v => v.turns) ⟨0x100,0x200,1⟩ w₁ ∧
      ¬StopsOnTime (SingleDma.World.step (constBus 0)) (fun v => v.dma.toEngine)
        ⟨0x100,0x200,1⟩ w₁ ∧
      ∀ side,¬StaysInside (DualDma.World.step (constBus 0)) (fun v => v.turns side)
          ⟨0x100,0x200,1⟩ v₁ ∧
        ¬StopsOnTime (DualDma.World.step (constBus 0)) (fun v => (v.dma.chan side).toEngine)
          ⟨0x100,0x200,1⟩ v₁ := by
  have hout : ∀ x : Txn,x.payload.command=.read → x.payload.address=0x100 →
      ¬InFootprint ⟨0x100,0x200,1⟩ x := by
    intro x hc ha hx
    have hfour := hx.read hc
    rw [ha] at hfour
    have hlast := (hfour (show 0x103∈bytes (0x100 : BitVec 64).toNat 4 by decide)).2
    revert hlast
    decide
  refine ⟨_,_,rfl,rfl,?_,?_,fun side => ⟨?_,?_⟩⟩
  · intro h
    exact hout _ rfl rfl (h [.edge] _ _ rfl rfl (by decide) _ List.mem_cons_self _
      List.mem_cons_self)
  · intro h
    obtain ⟨t,t',ht,ht',_,hhigh⟩ := h [.edge] rfl
    cases ht
    cases ht'
    cases hhigh
  · intro h
    cases side with
    | one =>
      exact hout _ rfl rfl (h [.edge] _ _ rfl rfl (by decide) _ List.mem_cons_self _
        List.mem_cons_self)
    | two =>
      exact hout _ rfl rfl (h [.edge] _ _ rfl rfl (by decide) _ List.mem_cons_self _
        List.mem_cons_self)
  · intro h
    obtain ⟨t,t',ht,ht',_,hhigh⟩ := h [.edge] rfl
    cases ht
    cases ht'
    cases side <;> cases hhigh

end SystemCDma.TransferFootprint
