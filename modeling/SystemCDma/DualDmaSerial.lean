import SystemCDma.DualDma

/-!
# Concurrent transfers are serialisable

Two requests, one on each channel, whose targets meet neither the other target
nor the other source. Whatever the edges on which they are latched, their
words interleave; but the words of one commute with those of the other, so the
memory is at every moment the copy of some words of the first followed by the
copy of some words of the second. When both interrupts have risen it is the
result of the two transfers one after the other, in either order.
-/

namespace SystemCDma.DualDmaSerial

open ByteMemory TlmBus TransferEngine EventRun DualDma

/-- The requests a channel has latched, oldest first. -/
def latches {M : Type*} (w : World M) (side : Side) : List Request :=
  (w.turns side).filterMap (·.latched)

/-- The source bytes of a request. -/
def sourceRange (q : Request) : Set ℕ := bytes q.source.toNat q.size.toNat

/-- The target bytes of a request. -/
def targetRange (q : Request) : Set ℕ := bytes q.target.toNat q.size.toNat

/-- The memory after the first `n` words of a request, moved in order. -/
def moved (q : Request) (n : ℕ) (m : Memory) : Memory :=
  forwardCopy m q.source.toNat q.target.toNat n

/-- The memory after a whole transfer. -/
def transfer (q : Request) (m : Memory) : Memory := moved q (q.size.toNat/4) m

/-- Neither request writes what the other one reads or writes. Each of them may
overlap itself. -/
structure Independent (p q : Request) : Prop where
  /-- The targets do not meet. -/
  targets : Disjoint (targetRange p) (targetRange q)
  /-- The first target does not meet the second source. -/
  source : Disjoint (targetRange p) (sourceRange q)
  /-- The second target does not meet the first source. -/
  source' : Disjoint (targetRange q) (sourceRange p)

/-- Where a channel is with its only request, and how many words of it have
been moved. -/
inductive Stage (q : Request) (e : Engine) (latched : List Request) : ℕ → Prop
  /-- The request has not been latched yet. -/
  | waiting (before : latched=[]) (still : ¬e.Moving) : Stage q e latched 0
  /-- `n` words have been moved and the interrupt has not risen. -/
  | moving {n : ℕ} (one : latched=[q]) (progress : e.Progress q n) (bound : 4*n≤q.size.toNat) :
      Stage q e latched n
  /-- All words have been moved. -/
  | done (one : latched=[q]) (still : ¬e.Moving) : Stage q e latched (q.size.toNat/4)

/-- An edge moves the next word, or no word, and goes on to the next stage. A
further latch would leave the account. -/
theorem Stage.tick {q : Request} {e : Engine} {latched : List Request} {n : ℕ} {r : Registers}
    (h : Stage q e latched n) (hq : 4∣q.size.toNat)
    (hone : latched++(e.latched r).toList<+:[q]) :
    (e.Moving ∧ e.Progress q n ∧ 4*(n+1)≤q.size.toNat ∧
        Stage q (e.tick r) (latched++(e.latched r).toList) (n+1)) ∨
      (¬e.Moving ∧ Stage q (e.tick r) (latched++(e.latched r).toList) n) := by
  cases h with
  | waiting before still =>
    subst before
    refine Or.inr ⟨still,?_⟩
    cases hl : e.latched r with
    | none => exact .waiting rfl (still_edge still hl)
    | some q' =>
      rw [hl] at hone
      obtain rfl : q'=q := by
        have := hone.eq_of_length rfl
        exact List.head_eq_of_cons_eq this
      exact .moving rfl (progress_latched hl) (Nat.zero_le _)
  | moving one progress bound =>
    rw [latched_started r progress.started,Option.toList_none,List.append_nil]
    by_cases hn : 4*n=q.size.toNat
    · have hstill : ¬e.Moving := fun hm => progress.moving_iff.mp hm hn
      obtain ⟨hraised,_⟩ := progress.tick_raise r hn
      have hdone : n=q.size.toNat/4 := by omega
      refine Or.inr ⟨hstill,?_⟩
      rw [hdone]
      exact .done one (still_finished (hraised.offset.trans hraised.size.symm))
    · have hnext : 4*(n+1)≤q.size.toNat := by omega
      exact Or.inl ⟨progress.moving_iff.mpr hn,progress,hnext,
        .moving one (progress.tick_move r hnext) hnext⟩
  | done one still =>
    subst one
    refine Or.inr ⟨still,?_⟩
    cases hl : e.latched r with
    | none => exact .done rfl (still_edge still hl)
    | some q' =>
      rw [hl] at hone
      have := hone.length_le
      simp only [Option.toList_some,List.cons_append,List.nil_append,List.length_cons,
        List.length_nil] at this
      omega

/-- An edge adds the request that it latches. -/
theorem latches_edge {M : Type*} (bus : Bus M) (u : World M) (side : Side) :
    latches (u.edge bus) side=
      latches u side++((u.dma.chan side).latched (u.dma.chan side).regAddr).toList := by
  obtain ⟨txns,hturns,_⟩ := edge_turns bus u side
  rw [latches,hturns,List.filterMap_append,latches]
  cases (u.dma.chan side).latched (u.dma.chan side).regAddr <;> rfl

/-- The latched requests only grow. -/
theorem latches_step {M : Type*} {bus : Bus M} {u v : World M} {e : Event M}
    (h : u.step bus e=some v) (side : Side) : latches u side<+:latches v side := by
  cases e with
  | edge =>
    cases h
    exact ⟨_,(latches_edge bus u side).symm⟩
  | access p =>
    rw [latches,latches,((clocked bus side).between h (Event.access_ne_edge p)).2]
  | other f =>
    rw [latches,latches,((clocked bus side).between h (Event.other_ne_edge f)).2]

section Run

variable {bus : Bus Memory} {window R : Set ℕ} {q : Side → Request} {m₀ : Memory}

/-- The invariant: both channels are in a stage of their request, and on the
region the memory holds the moved words of the first, then those of the
second. -/
structure Serialised (q : Side → Request) (m₀ : Memory) (R : Set ℕ) (u : World Memory)
    (n₁ n₂ : ℕ) : Prop where
  /-- The stage of channel one. -/
  one : Stage (q .one) u.dma.ch1.toEngine (latches u .one) n₁
  /-- The stage of channel two. -/
  two : Stage (q .two) u.dma.ch2.toEngine (latches u .two) n₂
  /-- The memory. -/
  mem : Set.EqOn u.mem (moved (q .two) n₂ (moved (q .one) n₁ m₀)) R

/-- The two requests and where they lie. -/
structure Placed (q : Side → Request) (window R : Set ℕ) : Prop where
  /-- The sizes are whole words. -/
  words : ∀ side,4∣(q side).size.toNat
  /-- The sources lie in the window of the memory. -/
  sourceWindow : ∀ side,sourceRange (q side)⊆window
  /-- The targets do. -/
  targetWindow : ∀ side,targetRange (q side)⊆window
  /-- The sources lie in the region under consideration. -/
  sourceRegion : ∀ side,sourceRange (q side)⊆R
  /-- The requests are independent. -/
  independent : Independent (q .one) (q .two)

/-- A word below the size lies in the source range. -/
theorem source_word {p : Request} {n : ℕ} (h : 4*(n+1)≤p.size.toNat) :
    bytes (p.source.toNat+4*n) 4⊆sourceRange p := word_subset h

/-- And in the target range. -/
theorem target_word {p : Request} {n : ℕ} (h : 4*(n+1)≤p.size.toNat) :
    bytes (p.target.toNat+4*n) 4⊆targetRange p := word_subset h

/-- The first words of a request lie in its source range. -/
theorem source_words {p : Request} {n : ℕ} (h : 4*n≤p.size.toNat) :
    bytes p.source.toNat (4*n)⊆sourceRange p := Set.Ico_subset_Ico le_rfl (by omega)

/-- And in its target range. -/
theorem target_words {p : Request} {n : ℕ} (h : 4*n≤p.size.toNat) :
    bytes p.target.toNat (4*n)⊆targetRange p := Set.Ico_subset_Ico le_rfl (by omega)

/-- A channel in a stage of its request has moved no more words than it has. -/
theorem Stage.bound {p : Request} {e : Engine} {latched : List Request} {n : ℕ}
    (h : Stage p e latched n) : 4*n≤p.size.toNat := by
  cases h with
  | waiting _ _ => exact Nat.zero_le _
  | moving _ _ bound => exact bound
  | done _ _ => omega

/-- The current word of a moving channel lies in the window. -/
theorem Stage.within {p : Request} {c : Channel} {latched : List Request} {n : ℕ}
    (h : Stage p c.toEngine latched n) (hp : 4∣p.size.toNat) (hs : sourceRange p⊆window)
    (ht : targetRange p⊆window) : c.Within window := by
  intro hm
  cases h with
  | waiting _ still => exact absurd hm still
  | moving _ progress bound =>
    have hn : 4*(n+1)≤p.size.toNat := by
      have := progress.moving_iff.mp hm
      omega
    rw [progress.source,progress.target,progress.offset]
    exact ⟨(source_word hn).trans hs,(target_word hn).trans ht⟩
  | done _ still => exact absurd hm still

/-- Before the latch no word has been moved. -/
theorem Stage.before {p : Request} {e : Engine} {latched : List Request} {n : ℕ}
    (h : Stage p e latched n) (hl : latched=[]) : n=0 := by
  cases h with
  | waiting _ _ => rfl
  | moving one _ _ =>
    rw [hl] at one
    cases one
  | done one _ =>
    rw [hl] at one
    cases one

/-- A copy of the current word of a moving channel is the copy of one more
word; on a region that holds the source it does not matter what lies outside. -/
theorem copyWord_eqOn {e : Engine} {p : Request} {n : ℕ} {m m' : Memory} (h : e.Progress p n)
    (hm : e.Moving) (hn : 4*(n+1)≤p.size.toNat) (hR : sourceRange p⊆R) (heq : Set.EqOn m m' R) :
    Set.EqOn (e.copyWord m) (store m' (p.target.toNat+4*n) (load m' (p.source.toNat+4*n))) R := by
  rw [h.copyWord hm]
  exact store_load_eqOn _ heq ((source_word hn).trans hR)

/-- A word of the first request commutes with the words of the second. -/
theorem moved_commute {p p' : Request} {n n' : ℕ} (h : Independent p p')
    (hn : 4*(n+1)≤p.size.toNat) (hn' : 4*n'≤p'.size.toNat) (m : Memory) :
    store (moved p' n' (moved p n m)) (p.target.toNat+4*n)
        (load (moved p' n' (moved p n m)) (p.source.toNat+4*n))=
      moved p' n' (moved p (n+1) m) :=
  forwardCopy_store _ (h.targets.mono (target_word hn) (target_words hn'))
    (h.source.mono (target_word hn) (source_words hn'))
    (h.source'.mono (target_words hn') (source_word hn))

/-- One edge keeps the invariant. Channel one moves its word under the words
of channel two that are there already, so the two have to commute; channel two
moves its word on top. -/
theorem serialised_edge (hram : bus.IsRam window) (hq : Placed q window R) {u : World Memory}
    {n₁ n₂ : ℕ} (h : Serialised q m₀ R u n₁ n₂)
    (hone : ∀ side,latches (u.edge bus) side<+:[q side]) :
    ∃ n₁' n₂',Serialised q m₀ R (u.edge bus) n₁' n₂' := by
  have hwithin : ∀ side,(u.dma.chan side).Within window := by
    intro side
    cases side with
    | one => exact h.one.within (hq.words _) (hq.sourceWindow _) (hq.targetWindow _)
    | two => exact h.two.within (hq.words _) (hq.sourceWindow _) (hq.targetWindow _)
  have hmem := edge_ram hram hwithin
  have hc₁ : (u.edge bus).dma.ch1=u.dma.ch1.tick := edge_chan bus u .one
  have hc₂ : (u.edge bus).dma.ch2=u.dma.ch2.tick := edge_chan bus u .two
  have hl₁ := hone .one
  have hl₂ := hone .two
  rw [latches_edge] at hl₁ hl₂
  -- The memory after channel one.
  have hfirst : ∃ n₁',Stage (q .one) (u.edge bus).dma.ch1.toEngine (latches (u.edge bus) .one) n₁' ∧
      Set.EqOn (u.dma.ch1.copyWord u.mem) (moved (q .two) n₂ (moved (q .one) n₁' m₀)) R := by
    rw [hc₁,latches_edge]
    rcases h.one.tick (hq.words _) hl₁ with ⟨hm,hp,hn,hstage⟩|⟨hm,hstage⟩
    · refine ⟨n₁+1,hstage,?_⟩
      rw [←moved_commute hq.independent hn h.two.bound]
      exact copyWord_eqOn hp hm hn (hq.sourceRegion _) h.mem
    · refine ⟨n₁,hstage,?_⟩
      rw [Engine.copyWord_still hm]
      exact h.mem
  obtain ⟨n₁',hstage₁,hmem₁⟩ := hfirst
  rcases h.two.tick (hq.words _) hl₂ with ⟨hm,hp,hn,hstage⟩|⟨hm,hstage⟩
  · refine ⟨n₁',n₂+1,hstage₁,?_,?_⟩
    · rw [hc₂,latches_edge]
      exact hstage
    · rw [hmem]
      exact copyWord_eqOn hp hm hn (hq.sourceRegion _) hmem₁
  · refine ⟨n₁',n₂,hstage₁,?_,?_⟩
    · rw [hc₂,latches_edge]
      exact hstage
    · rw [hmem,Engine.copyWord_still hm]
      exact hmem₁

/-- The step lemma. -/
theorem serialised_step (hram : bus.IsRam window) (hq : Placed q window R) {u v : World Memory}
    {e : Event Memory} {n₁ n₂ : ℕ} (h : Serialised q m₀ R u n₁ n₂)
    (he : ∀ f,e=.other f → ∀ m,Set.EqOn (f m) m R) (hs : u.step bus e=some v)
    (hone : ∀ side,latches v side<+:[q side]) : ∃ n₁' n₂',Serialised q m₀ R v n₁' n₂' := by
  cases e with
  | edge =>
    cases hs
    exact serialised_edge hram hq h hone
  | access p =>
    obtain ⟨he₁,ht₁⟩ := (clocked bus .one).between hs (Event.access_ne_edge p)
    obtain ⟨he₂,ht₂⟩ := (clocked bus .two).between hs (Event.access_ne_edge p)
    dsimp only [DMA.chan] at he₁ he₂
    refine ⟨n₁,n₂,?_,?_,?_⟩
    · rw [he₁,latches,ht₁]
      exact h.one
    · rw [he₂,latches,ht₂]
      exact h.two
    · cases hs
      exact h.mem
  | other f =>
    cases hs
    exact ⟨n₁,n₂,h.one,h.two,(he f rfl _).trans h.mem⟩

/-- The run lemma: from channels at rest with an empty history, as long as no
channel has latched anything but its request. -/
theorem serialised_run (hram : bus.IsRam window) (hq : Placed q window R) {w u : World Memory}
    {es : List (Event Memory)} (hstart : w.rounds=[])
    (hstill : ∀ side,¬(w.dma.chan side).Moving) (hes : Untouched R es)
    (hrun : run (World.step bus) w es=some u) (hone : ∀ side,latches u side<+:[q side]) :
    ∃ n₁ n₂,Serialised q w.mem R u n₁ n₂ := by
  have hnone : ∀ side,latches w side=[] := fun side => by rw [latches,World.turns,hstart]; rfl
  have hinit : (∀ side,latches w side<+:[q side]) → ∃ n₁ n₂,Serialised q w.mem R w n₁ n₂ :=
    fun _ => ⟨0,0,.waiting (hnone .one) (hstill .one),.waiting (hnone .two) (hstill .two),
      Set.eqOn_refl _ _⟩
  have hstep : ∀ v e v',
      ((∀ side,latches v side<+:[q side]) → ∃ n₁ n₂,Serialised q w.mem R v n₁ n₂) →
      (∀ f,e=.other f → ∀ m,Set.EqOn (f m) m R) → v.step bus e=some v' →
      (∀ side,latches v' side<+:[q side]) → ∃ n₁ n₂,Serialised q w.mem R v' n₁ n₂ := by
    intro v e v' hv he hs hone'
    obtain ⟨n₁,n₂,h⟩ := hv fun side => (latches_step hs side).trans (hone' side)
    exact serialised_step hram hq h he hs hone'
  have hother : ∀ e∈es,∀ f,e=.other f → ∀ m,Set.EqOn (f m) m R := by
    intro e he f hf
    rw [hf] at he
    exact hes f he
  exact run_invariant_of hstep hinit hother hrun hone

/-- A channel that has moved all words of its only request stays at rest. -/
theorem completed_run {w u : World Memory} {es : List (Event Memory)} {side : Side}
    (hlatch : latches w side=[q side]) (hstill : ¬(w.dma.chan side).Moving)
    (hrun : run (World.step bus) w es=some u) (hone : latches u side<+:[q side]) :
    ¬(u.dma.chan side).Moving := by
  have hstep : ∀ v e v',
      (latches v side<+:[q side] → latches v side=[q side] ∧ ¬(v.dma.chan side).Moving) →
      v.step bus e=some v' →
      latches v' side<+:[q side] → latches v' side=[q side] ∧ ¬(v'.dma.chan side).Moving := by
    intro v e v' hv hs hone'
    have hgrow := latches_step hs side
    obtain ⟨hl,hm⟩ := hv (hgrow.trans hone')
    rw [hl] at hgrow
    have hl' : latches v' side=[q side] :=
      hone'.eq_of_length_le hgrow.length_le
    refine ⟨hl',?_⟩
    by_cases hedge : e=.edge
    · subst hedge
      cases hs
      rw [latches_edge,hl] at hl'
      rw [edge_chan]
      refine still_edge hm ?_
      rw [←Option.toList_eq_nil_iff]
      exact List.append_right_eq_self.mp hl'
    · rw [((clocked bus side).between hs hedge).1]
      exact hm
  exact (run_invariant hstep (fun _ => ⟨hlatch,hstill⟩) hrun hone).2

/-- The interrupt of a channel has risen in a run: at some moment it was high
and a request had been latched. -/
def Risen (bus : Bus Memory) (w : World Memory) (es : List (Event Memory)) (side : Side) : Prop :=
  ∃ pre post u,es=pre++post ∧ run (World.step bus) w pre=some u ∧ latches u side≠[] ∧
    (u.dma.chan side).interrupt=true

/-- In a stage with a latched request and a high interrupt nothing moves. -/
theorem Stage.risen {p : Request} {e : Engine} {latched : List Request} {n : ℕ}
    (h : Stage p e latched n) (hl : latched≠[]) (hi : e.interrupt=true) :
    latched=[p] ∧ ¬e.Moving := by
  cases h with
  | waiting before _ => exact absurd before hl
  | moving _ progress _ => exact Bool.noConfusion (hi.symm.trans progress.quiet)
  | done one still => exact ⟨one,still⟩

/-- In a stage with a latched request in which nothing moves all words have
been moved. -/
theorem Stage.complete {p : Request} {e : Engine} {latched : List Request} {n : ℕ}
    (h : Stage p e latched n) (hl : latched=[p]) (hm : ¬e.Moving) : n=p.size.toNat/4 := by
  cases h with
  | waiting before _ =>
    rw [before] at hl
    cases hl
  | moving _ progress _ =>
    have hn := not_not.mp (mt progress.moving_iff.mpr hm)
    omega
  | done _ _ => rfl

/-- A channel whose interrupt has risen is at rest from then on. -/
theorem risen_still (hram : bus.IsRam window) (hq : Placed q window R) {w u : World Memory}
    {es : List (Event Memory)} (hstart : w.rounds=[])
    (hstill : ∀ side,¬(w.dma.chan side).Moving) (hes : Untouched R es)
    (hrun : run (World.step bus) w es=some u) (hone : ∀ side,latches u side<+:[q side])
    {side : Side} (hrisen : Risen bus w es side) : latches u side=[q side] ∧ ¬(u.dma.chan side).Moving := by
  obtain ⟨pre,post,v,rfl,hpre,hl,hi⟩ := hrisen
  have hpost : run (World.step bus) v post=some u := by
    rw [run_append,hpre] at hrun
    exact hrun
  have hgrow : ∀ s,latches v s<+:latches u s := fun s =>
    run_invariant (fun a _ b (ha : latches v s<+:latches a s) hs => ha.trans (latches_step hs s))
      (List.prefix_refl _) hpost
  have hes' : Untouched R pre := fun f hf => hes f (List.mem_append_left _ hf)
  obtain ⟨n₁,n₂,h⟩ := serialised_run hram hq hstart hstill hes' hpre
    fun s => (hgrow s).trans (hone s)
  have hdone : latches v side=[q side] ∧ ¬(v.dma.chan side).Moving := by
    cases side with
    | one => exact h.one.risen hl hi
    | two => exact h.two.risen hl hi
  have hgrow' := hgrow side
  rw [hdone.1] at hgrow'
  exact ⟨(hone side).eq_of_length_le hgrow'.length_le,
    completed_run hdone.1 hdone.2 hpost (hone side)⟩

/-- A transfer of one channel while the other one latches nothing has the
effect of the transfer alone. -/
theorem transfer_alone (hram : bus.IsRam window) (hq : Placed q window R) {w u : World Memory}
    {es : List (Event Memory)} (hstart : w.rounds=[])
    (hstill : ∀ side,¬(w.dma.chan side).Moving) (hes : Untouched R es)
    (hrun : run (World.step bus) w es=some u) {side : Side} (hlatch : latches u side=[q side])
    (hother : latches u side.other=[]) (hrisen : Risen bus w es side) :
    Set.EqOn u.mem (transfer (q side) w.mem) R := by
  have hone : ∀ s,latches u s<+:[q s] := by
    intro s
    cases side <;> cases s <;> first
      | exact hlatch ▸ List.prefix_refl _
      | exact hother ▸ List.nil_prefix
  obtain ⟨hl,hm⟩ := risen_still hram hq hstart hstill hes hrun hone hrisen
  obtain ⟨n₁,n₂,h⟩ := serialised_run hram hq hstart hstill hes hrun hone
  cases side with
  | one =>
    have hzero : n₂=0 := h.two.before hother
    have hmem := h.mem
    rw [h.one.complete hl hm,hzero] at hmem
    exact hmem
  | two =>
    have hzero : n₁=0 := h.one.before hother
    have hmem := h.mem
    rw [h.two.complete hl hm,hzero] at hmem
    exact hmem

/-- Concurrent transfers are serialisable. Two independent requests of whole
words lie in the memory window; each channel latches its own one once, on
whatever edges, with any other accesses in between, and other masters leave
the region alone. When both interrupts have risen the region holds the result
of the two transfers one after the other, in either order; and each of them is
what its channel does while the other one latches nothing. -/
theorem transfers_serialisable (hram : bus.IsRam window) (hq : Placed q window R)
    {w u : World Memory} {es : List (Event Memory)} (hstart : w.rounds=[])
    (hstill : ∀ side,¬(w.dma.chan side).Moving) (hes : Untouched R es)
    (hrun : run (World.step bus) w es=some u) (hlatch : ∀ side,latches u side=[q side])
    (hrisen : ∀ side,Risen bus w es side) :
    Set.EqOn u.mem (transfer (q .two) (transfer (q .one) w.mem)) R ∧
      Set.EqOn u.mem (transfer (q .one) (transfer (q .two) w.mem)) R ∧
      ∀ side (w' u' : World Memory) (es' : List (Event Memory)),w'.rounds=[] →
        (∀ s,¬(w'.dma.chan s).Moving) → Untouched R es' →
        run (World.step bus) w' es'=some u' → latches u' side=[q side] →
        latches u' side.other=[] → Risen bus w' es' side →
        Set.EqOn u'.mem (transfer (q side) w'.mem) R := by
  have hone : ∀ side,latches u side<+:[q side] := fun side => hlatch side ▸ List.prefix_refl _
  have hdone := fun side => risen_still hram hq hstart hstill hes hrun hone (hrisen side)
  obtain ⟨n₁,n₂,h⟩ := serialised_run hram hq hstart hstill hes hrun hone
  have hmem := h.mem
  rw [h.one.complete (hdone .one).1 (hdone .one).2,
    h.two.complete (hdone .two).1 (hdone .two).2] at hmem
  refine ⟨hmem,?_,fun side w' u' es' hw' hs' he' hr' hl' ho' hi' =>
    transfer_alone hram hq hw' hs' he' hr' hl' ho' hi'⟩
  have hb₁ := Nat.mul_div_cancel' (hq.words .one)
  have hb₂ := Nat.mul_div_cancel' (hq.words .two)
  rw [moved,moved,forwardCopy_comm _
    (hq.independent.targets.mono (target_words hb₁.le) (target_words hb₂.le))
    (hq.independent.source.mono (target_words hb₁.le) (source_words hb₂.le))
    (hq.independent.source'.mono (target_words hb₂.le) (source_words hb₁.le))] at hmem
  exact hmem

end Run

/-- Two words on channel one and one on channel two. -/
def demoRequest : Side → Request
  | .one => ⟨0x200400,0x300000,8⟩
  | .two => ⟨0x300400,0x200000,4⟩

/-- Channel two starts while channel one moves data, and channel one is
cleared before channel two has finished. -/
def demoEvents : List (Event Memory) :=
  [.access (writeReg32 .one 0 0x200400),.access (writeReg32 .one 1 0x300000),
    .access (writeReg32 .one 2 8),.access (writeReg32 .one 3 1),.edge,
    .access (writeReg32 .two 0 0x300400),.access (writeReg32 .two 1 0x200000),
    .access (writeReg32 .two 2 4),.edge,.access (writeReg32 .two 3 1),.edge,.edge,
    .access (writeReg32 .one 3 0),.edge]

/-- The two requests are independent and lie in RAM3 and RAM4. -/
theorem demoRequest_placed : Placed demoRequest (Set.Ico 0x200000 0x400000) Set.univ := by
  have hin : ∀ a n : ℕ,0x200000≤a → a+n≤0x400000 → bytes a n⊆Set.Ico 0x200000 0x400000 :=
    fun a n ha hn => Set.Ico_subset_Ico ha hn
  have hapart : ∀ a n b k : ℕ,a+n≤b ∨ b+k≤a → Disjoint (bytes a n) (bytes b k) := by
    intro a n b k h
    refine Set.disjoint_left.mpr fun x hx hy => ?_
    have := hx.1
    have := hx.2
    have := hy.1
    have := hy.2
    omega
  refine ⟨fun side => ?_,fun side => ?_,fun side => ?_,fun _ => Set.subset_univ _,?_,?_,?_⟩
  · cases side <;> decide
  · cases side <;> exact hin _ _ (by decide) (by decide)
  · cases side <;> exact hin _ _ (by decide) (by decide)
  · exact hapart _ _ _ _ (by decide)
  · exact hapart _ _ _ _ (by decide)
  · exact hapart _ _ _ _ (by decide)

/-- The overlapping transfers end like the two one after the other. -/
theorem transfers_serialisable_demo :
    ∃ u,run (World.step (ramBus 0x200000 0x400000)) (World.init 0 fun _ => 0) demoEvents=some u ∧
      Set.EqOn u.mem (transfer (demoRequest .two) (transfer (demoRequest .one) fun _ => 0))
        Set.univ := by
  refine ⟨_,rfl,?_⟩
  refine (transfers_serialisable (ramBus_isRam 0x200000 0x400000) demoRequest_placed
    (w := World.init 0 fun _ => 0) rfl ?_ ?_
    (show run _ _ demoEvents=some _ from rfl) ?_ ?_).1
  · intro side
    cases side <;> decide
  · intro f hf
    simp [demoEvents] at hf
  · intro side
    cases side
    · decide
    · decide
  · intro side
    cases side with
    | one => exact ⟨demoEvents.take 12,demoEvents.drop 12,_,rfl,rfl,List.cons_ne_nil _ _,rfl⟩
    | two => exact ⟨demoEvents,[],_,rfl,rfl,List.cons_ne_nil _ _,rfl⟩

end SystemCDma.DualDmaSerial
