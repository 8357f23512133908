import SystemCDma.DualDma

/-!
# Arbitration between the two channels

The process serves both channels on every edge, so a transfer latched later
does not wait for the one latched before it. First come, first served holds
in exactly those runs in which a channel that starts finds the other one idle,
finished, or down to the words it issues before the first new one.
-/

namespace SystemCDma.DualDmaArbitration

open TlmBus TransferEngine EventRun DualDma

variable {M : Type*}

/-- A transaction on the bus, with the channel and the edge that latched the
transfer it belongs to. Channel and edge identify the transfer. -/
structure Issue where
  /-- The channel that issued it. -/
  side : Side
  /-- The edge that latched its transfer. -/
  latchedAt : ℕ
  /-- The transaction. -/
  txn : Txn

/-- The transactions of both channels in the order of the bus. -/
structure Book where
  /-- Number of the next edge, counted from one. -/
  edges : ℕ
  /-- The last latching edge of each channel. -/
  latchEdge : Side → ℕ
  /-- The transactions so far, oldest first. -/
  log : List Issue

/-- The latching edge of the current transfer of a channel after a round. -/
def Book.latchNext (b : Book) (r : Round) (side : Side) : ℕ :=
  if (r.turn side).latched.isSome then b.edges else b.latchEdge side

/-- Enter one edge. Channel one issues its transactions first. -/
def Book.add (b : Book) (r : Round) : Book :=
  ⟨b.edges+1,b.latchNext r,b.log++(r.one.txns.map (Issue.mk .one (b.latchNext r .one))++
    r.two.txns.map (Issue.mk .two (b.latchNext r .two)))⟩

/-- The book of a history. -/
def book (rounds : List Round) : Book := rounds.foldl Book.add ⟨1,fun _ => 0,[]⟩

/-- One more edge is entered at the end of the book. -/
theorem book_snoc (rounds : List Round) (r : Round) :
    book (rounds++[r])=(book rounds).add r := by
  rw [book,List.foldl_append]
  rfl

/-- First come, first served: of two transactions of different channels the
one issued first does not belong to the transfer latched later. -/
def FirstComeFirstServe (log : List Issue) : Prop :=
  log.Pairwise fun x y => x.side≠y.side → x.latchedAt≤y.latchedAt

/-- The words a channel may still have to move when the other one starts: one
word, and for channel one, which is served first on every edge, also two. -/
def Draining (starting : Side) (e : Engine) : Prop :=
  e.size-e.offset=4 ∨ starting=.two ∧ e.size-e.offset=8

/-- The condition on a step: an edge that latches a nonempty transfer finds
the other channel not moving, or with only its last words left. -/
def InTurn (w : World M) : Event M → Prop
  | .edge => ∀ side q,(w.dma.chan side).latched (w.dma.chan side).regAddr=some q → q.size≠0 →
      (w.dma.chan side.other).Moving → Draining side (w.dma.chan side.other).toEngine
  | _ => True

/-- The ordering invariant. -/
structure Ordered (ch1 ch2 : Engine) (b : Book) : Prop where
  /-- The log so far is in order. -/
  fcfs : FirstComeFirstServe b.log
  /-- Every latching edge lies in the past. -/
  past : ∀ side,b.latchEdge side<b.edges
  /-- No transaction belongs to a transfer after the current one. -/
  current : ∀ x∈b.log,x.latchedAt≤b.latchEdge x.side
  /-- Channel one, while it moves, has not been overtaken. -/
  turnOne : ch1.Moving → ∀ x∈b.log,x.side=.two → x.latchedAt≤b.latchEdge .one
  /-- Channel two, while it moves, has not been overtaken. -/
  turnTwo : ch2.Moving → ∀ x∈b.log,x.side=.one → x.latchedAt≤b.latchEdge .two
  /-- Both move only if they were latched together, or if channel one was
  latched first and has one word left. -/
  both : ch1.Moving → ch2.Moving → b.latchEdge .one=b.latchEdge .two ∨
    b.latchEdge .one<b.latchEdge .two ∧ ch1.size-ch1.offset=4

/-- A channel that moves after an edge moved before it and has more than the
moved word left, or has just latched a nonempty request. -/
theorem moving_next {r : Registers} {e : Engine} (h : (e.tick r).Moving) :
    (e.Moving ∧ e.latched r=none ∧ e.size-e.offset≠4 ∧
        (e.tick r).size-(e.tick r).offset=e.size-e.offset-4) ∨
      ∃ q,e.latched r=some q ∧ q.size≠0 ∧ ¬e.Moving := by
  rcases tick_cases r e with ⟨hs,ht⟩|⟨hm,ht⟩|⟨hs,ho,ht⟩
  · rw [ht] at h
    refine Or.inr ⟨request r,?_,fun hz => h.2 hz.symm,still_idle hs⟩
    rw [Engine.latched,if_pos ⟨hs,bne_iff_ne.mp h.1⟩]
  · rw [ht] at h
    refine Or.inl ⟨hm,latched_started r hm.1,fun he => h.2 ?_,?_⟩
    · dsimp only
      rw [←he]
      bv_omega
    · rw [ht]
      dsimp only
      bv_omega
  · rw [ht] at h
    exact absurd ho h.2

/-- Only a moving channel enters transactions, under its own tag. -/
theorem issue_of_mem {c : Channel} {txns : List Txn} (h : c.Issues txns) {side : Side} {l : ℕ}
    {x : Issue} (hx : x∈txns.map (Issue.mk side l)) :
    x.side=side ∧ x.latchedAt=l ∧ c.Moving := by
  obtain ⟨txn,ht,rfl⟩ := List.mem_map.mp hx
  refine ⟨rfl,rfl,?_⟩
  by_contra hm
  rw [h.still hm] at ht
  cases ht

/-- An edge on which a channel latches nothing keeps its latching edge. -/
theorem latchNext_none (b : Book) {r : Round} {side : Side} (h : (r.turn side).latched=none) :
    b.latchNext r side=b.latchEdge side := by
  simp only [Book.latchNext,h,Option.isSome_none,Bool.false_eq_true,if_false]

/-- A latching edge is the latching edge of the new transfer. -/
theorem latchNext_some (b : Book) {r : Round} {side : Side} {q : Request}
    (h : (r.turn side).latched=some q) : b.latchNext r side=b.edges := by
  simp only [Book.latchNext,h,Option.isSome_some,if_true]

/-- Latching edges do not decrease and do not pass the current edge. -/
theorem latchNext_bounds {b : Book} (hpast : ∀ side,b.latchEdge side<b.edges) (r : Round)
    (side : Side) : b.latchEdge side≤b.latchNext r side ∧ b.latchNext r side≤b.edges := by
  have := hpast side
  unfold Book.latchNext
  split <;> omega

section Edge

variable {c₁ c₂ : Channel} {b : Book} {txns₁ txns₂ : List Txn}

/-- What an edge enters into the book. -/
def entry (c₁ c₂ : Channel) (txns₁ txns₂ : List Txn) : Round :=
  ⟨⟨c₁.latched c₁.regAddr,txns₁⟩,⟨c₂.latched c₂.regAddr,txns₂⟩⟩

/-- While channel one moves it keeps its latching edge. -/
theorem latchNext_one (hm : c₁.Moving) :
    b.latchNext (entry c₁ c₂ txns₁ txns₂) .one=b.latchEdge .one :=
  latchNext_none b (latched_started _ hm.1)

/-- While channel two moves it keeps its latching edge. -/
theorem latchNext_two (hm : c₂.Moving) :
    b.latchNext (entry c₁ c₂ txns₁ txns₂) .two=b.latchEdge .two :=
  latchNext_none b (latched_started _ hm.1)

/-- An edge that starts a transfer of channel one is its latching edge. -/
theorem latchNext_one_some {q : Request} (hl : c₁.latched c₁.regAddr=some q) :
    b.latchNext (entry c₁ c₂ txns₁ txns₂) .one=b.edges := latchNext_some b hl

/-- An edge that starts a transfer of channel two is its latching edge. -/
theorem latchNext_two_some {q : Request} (hl : c₂.latched c₂.regAddr=some q) :
    b.latchNext (entry c₁ c₂ txns₁ txns₂) .two=b.edges := latchNext_some b hl

/-- Two channels that move on the same edge are in order. -/
theorem Ordered.one_le_two (h : Ordered c₁.toEngine c₂.toEngine b) (h₁ : c₁.Moving)
    (h₂ : c₂.Moving) : b.latchEdge .one≤b.latchEdge .two := by
  rcases h.both h₁ h₂ with heq|⟨hlt,_⟩
  · exact heq.le
  · exact hlt.le

/-- The transactions of one edge come in order after those before it. -/
theorem fcfs_add (h : Ordered c₁.toEngine c₂.toEngine b) (h₁ : c₁.Issues txns₁)
    (h₂ : c₂.Issues txns₂) : FirstComeFirstServe (b.add (entry c₁ c₂ txns₁ txns₂)).log := by
  unfold FirstComeFirstServe Book.add
  rw [List.pairwise_append,List.pairwise_append]
  refine ⟨h.fcfs,⟨?_,?_,?_⟩,?_⟩
  · exact List.pairwise_map.mpr (List.pairwise_of_forall fun _ _ hne => absurd rfl hne)
  · exact List.pairwise_map.mpr (List.pairwise_of_forall fun _ _ hne => absurd rfl hne)
  · intro x hx y hy _
    obtain ⟨_,hxl,hm₁⟩ := issue_of_mem h₁ hx
    obtain ⟨_,hyl,hm₂⟩ := issue_of_mem h₂ hy
    rw [hxl,hyl,latchNext_one hm₁,latchNext_two hm₂]
    exact h.one_le_two hm₁ hm₂
  · intro x hx y hy hne
    rcases List.mem_append.mp hy with hy|hy
    · obtain ⟨hys,hyl,hm₁⟩ := issue_of_mem h₁ hy
      rw [hyl,latchNext_one hm₁]
      refine h.turnOne hm₁ x hx ?_
      cases hxs : x.side with
      | one => exact absurd (hxs.trans hys.symm) hne
      | two => rfl
    · obtain ⟨hys,hyl,hm₂⟩ := issue_of_mem h₂ hy
      rw [hyl,latchNext_two hm₂]
      refine h.turnTwo hm₂ x hx ?_
      cases hxs : x.side with
      | one => rfl
      | two => exact absurd (hxs.trans hys.symm) hne

/-- Every transaction belongs to a transfer latched no later than the current
one of its channel. -/
theorem current_add (h : Ordered c₁.toEngine c₂.toEngine b) (h₁ : c₁.Issues txns₁)
    (h₂ : c₂.Issues txns₂) : ∀ x∈(b.add (entry c₁ c₂ txns₁ txns₂)).log,
      x.latchedAt≤b.latchNext (entry c₁ c₂ txns₁ txns₂) x.side := by
  intro x hx
  simp only [Book.add,List.mem_append] at hx
  rcases hx with hx|hx|hx
  · exact (h.current x hx).trans (latchNext_bounds h.past _ x.side).1
  · obtain ⟨hs,hl,_⟩ := issue_of_mem h₁ hx
    rw [hs,hl]
  · obtain ⟨hs,hl,_⟩ := issue_of_mem h₂ hx
    rw [hs,hl]

/-- One edge keeps the ordering invariant, when a channel that latches finds
the other one draining. -/
theorem ordered_edge (h : Ordered c₁.toEngine c₂.toEngine b) (h₁ : c₁.Issues txns₁)
    (h₂ : c₂.Issues txns₂)
    (hone : ∀ q,c₁.latched c₁.regAddr=some q → q.size≠0 → c₂.Moving → Draining .one c₂.toEngine)
    (htwo : ∀ q,c₂.latched c₂.regAddr=some q → q.size≠0 → c₁.Moving → Draining .two c₁.toEngine) :
    Ordered (c₁.toEngine.tick c₁.regAddr) (c₂.toEngine.tick c₂.regAddr)
      (b.add (entry c₁ c₂ txns₁ txns₂)) := by
  have hcur := current_add h h₁ h₂
  have hbound := latchNext_bounds h.past (entry c₁ c₂ txns₁ txns₂)
  refine ⟨fcfs_add h h₁ h₂,fun side => Nat.lt_succ_of_le (hbound side).2,hcur,?_,?_,?_⟩
  · intro hnext x hx hs
    rcases moving_next hnext with ⟨hm,_,hne,_⟩|⟨q,hl,_,_⟩
    · dsimp only [Book.add]
      rw [latchNext_one hm]
      simp only [Book.add,List.mem_append] at hx
      rcases hx with hx|hx|hx
      · exact h.turnOne hm x hx hs
      · rw [(issue_of_mem h₁ hx).1] at hs
        cases hs
      · obtain ⟨_,hxl,hm₂⟩ := issue_of_mem h₂ hx
        rw [hxl,latchNext_two hm₂]
        rcases h.both hm hm₂ with heq|⟨_,hfour⟩
        · exact heq.ge
        · exact absurd hfour hne
    · have := hcur x hx
      have := (hbound x.side).2
      dsimp only [Book.add]
      rw [latchNext_one_some hl]
      omega
  · intro hnext x hx hs
    rcases moving_next hnext with ⟨hm,_,hne,_⟩|⟨q,hl,_,_⟩
    · dsimp only [Book.add]
      rw [latchNext_two hm]
      simp only [Book.add,List.mem_append] at hx
      rcases hx with hx|hx|hx
      · exact h.turnTwo hm x hx hs
      · obtain ⟨_,hxl,hm₁⟩ := issue_of_mem h₁ hx
        rw [hxl,latchNext_one hm₁]
        exact h.one_le_two hm₁ hm
      · rw [(issue_of_mem h₂ hx).1] at hs
        cases hs
    · have := hcur x hx
      have := (hbound x.side).2
      dsimp only [Book.add]
      rw [latchNext_two_some hl]
      omega
  · -- Each channel either kept moving or has just latched.
    intro hnext₁ hnext₂
    dsimp only [Book.add]
    rcases moving_next hnext₁ with ⟨hm₁,_,hne₁,hleft₁⟩|⟨q₁,hl₁,hz₁,_⟩
    · rw [latchNext_one hm₁]
      rcases moving_next hnext₂ with ⟨hm₂,_,_,_⟩|⟨q₂,hl₂,hz₂,_⟩
      · rw [latchNext_two hm₂]
        rcases h.both hm₁ hm₂ with heq|⟨_,hfour⟩
        · exact Or.inl heq
        · exact absurd hfour hne₁
      · rw [latchNext_two_some hl₂]
        rcases htwo q₂ hl₂ hz₂ hm₁ with hfour|⟨_,height⟩
        · exact absurd hfour hne₁
        · refine Or.inr ⟨h.past .one,?_⟩
          rw [hleft₁,height]
          rfl
    · rw [latchNext_one_some hl₁]
      rcases moving_next hnext₂ with ⟨hm₂,_,hne₂,_⟩|⟨q₂,hl₂,_,_⟩
      · rcases hone q₁ hl₁ hz₁ hm₂ with hfour|⟨hside,_⟩
        · exact absurd hfour hne₂
        · cases hside
      · rw [latchNext_two_some hl₂]
        exact Or.inl rfl

end Edge

/-- The ordering invariant of a world. -/
def World.Ordered (w : World M) : Prop :=
  DualDmaArbitration.Ordered w.dma.ch1.toEngine w.dma.ch2.toEngine (book w.rounds)

/-- The step lemma: a step in turn keeps the order. -/
theorem ordered_step {bus : Bus M} {w w' : World M} {e : Event M} (h : World.Ordered w)
    (hc : InTurn w e) (hs : w.step bus e=some w') : World.Ordered w' := by
  cases e with
  | edge =>
    cases hs
    obtain ⟨txns₁,txns₂,hrounds,h₁,h₂⟩ := edge_rounds bus w
    have hone := edge_chan bus w .one
    have htwo := edge_chan bus w .two
    dsimp only [DMA.chan] at hone htwo
    rw [World.Ordered,hone,htwo,hrounds,book_snoc]
    exact ordered_edge h h₁ h₂ (hc .one) (hc .two)
  | access p =>
    obtain ⟨hone,hrounds⟩ := step_chan hs .one
    have htwo := (step_chan hs .two).1
    have hone' := (congrArg Channel.toEngine hone).trans (Channel.access_frame _ .one p).1
    have htwo' := (congrArg Channel.toEngine htwo).trans (Channel.access_frame _ .two p).1
    dsimp only [DMA.chan] at hone' htwo'
    rw [World.Ordered,hone',htwo',hrounds]
    exact h
  | other f =>
    cases hs
    exact h

/-- The run lemma: a run from reset whose steps are in turn stays in order. -/
theorem ordered_run {bus : Bus M} {dataS : BitVec 32} {mem : M} {es : List (Event M)}
    {w : World M} (hturn : Along (World.step bus) InTurn (World.init dataS mem) es)
    (h : run (World.step bus) (World.init dataS mem) es=some w) : World.Ordered w := by
  have hinit : World.Ordered (World.init dataS mem) := by
    refine ⟨List.Pairwise.nil,fun _ => Nat.zero_lt_one,?_,?_,?_,?_⟩
    · intro x hx
      cases hx
    · intro _ x hx
      cases hx
    · intro _ x hx
      cases hx
    · intro hm
      exact Bool.noConfusion hm.1
  exact run_invariant_along (fun _ _ _ hi hc hs => ordered_step hi hc hs) hinit hturn h

/-- Latching edges lie in the past after every history. -/
theorem book_past (rounds : List Round) (side : Side) :
    (book rounds).latchEdge side<(book rounds).edges := by
  induction rounds using List.reverseRecOn generalizing side with
  | nil => exact Nat.zero_lt_one
  | append_singleton rounds r ih =>
    rw [book_snoc]
    exact Nat.lt_succ_of_le (latchNext_bounds ih r side).2

/-- An edge enters one round, with what the two channels issue. -/
theorem edge_book (bus : Bus M) (w : World M) :
    ∃ txns₁ txns₂,book (w.edge bus).rounds=
        (book w.rounds).add (entry w.dma.ch1 w.dma.ch2 txns₁ txns₂) ∧
      w.dma.ch1.Issues txns₁ ∧ w.dma.ch2.Issues txns₂ := by
  obtain ⟨txns₁,txns₂,hrounds,h₁,h₂⟩ := edge_rounds bus w
  exact ⟨txns₁,txns₂,by rw [hrounds,book_snoc]; rfl,h₁,h₂⟩

/-- A moving channel enters a transaction under its tag. -/
theorem issue_of_moving {c : Channel} {txns : List Txn} (h : c.Issues txns) (hm : c.Moving)
    (side : Side) (l : ℕ) : ∃ x∈txns.map (Issue.mk side l),x.side=side ∧ x.latchedAt=l := by
  rcases h with ⟨hs,_⟩|⟨_,dataS,ra,wa,ht⟩
  · exact absurd hm hs
  · rw [ht]
    exact ⟨_,List.mem_cons_self,rfl,rfl⟩

/-- A channel with more than one word left still moves after the next edge. -/
theorem moving_keeps {e : Engine} (hm : e.Moving) (r : Registers) (hleft : e.size-e.offset≠4) :
    (e.tick r).Moving ∧ (e.tick r).size-(e.tick r).offset=e.size-e.offset-4 := by
  rw [tick_moving r hm]
  refine ⟨⟨hm.1,fun he => hleft ?_⟩,?_⟩
  · dsimp only at he
    rw [←he]
    bv_omega
  · dsimp only
    bv_omega

/-- A channel that latches a nonempty request moves after that edge. -/
theorem latched_moving {r : Registers} {e : Engine} {q : Request} (hl : e.latched r=some q)
    (hz : q.size≠0) : (e.tick r).Moving := by
  rw [(tick_latched hl).2.2]
  exact ⟨rfl,hz.symm⟩

/-- Two transactions in the wrong order spoil the whole log. -/
theorem not_fcfs {pre post : List Issue} {x y : Issue} (hx : x∈pre) (hy : y∈post)
    (hne : x.side≠y.side) (hlt : y.latchedAt<x.latchedAt) : ¬FirstComeFirstServe (pre++post) := by
  intro h
  have := (List.pairwise_append.mp h).2.2 x hx y hy hne
  omega

/-- Once spoiled the order stays spoiled. -/
theorem fcfs_before (bus : Bus M) {w : World M}
    (h : FirstComeFirstServe (book (w.edge bus).rounds).log) :
    FirstComeFirstServe (book w.rounds).log := by
  obtain ⟨_,_,hb,_,_⟩ := edge_book bus w
  rw [hb] at h
  exact (List.pairwise_append.mp h).1

/-- Channel one starts while channel two has more than one word left: on the
next edge it is served first. -/
theorem overtaken_by_one (bus : Bus M) {w : World M} {q : Request}
    (hl : w.dma.ch1.latched w.dma.ch1.regAddr=some q) (hz : q.size≠0) (hm : w.dma.ch2.Moving)
    (hleft : w.dma.ch2.size-w.dma.ch2.offset≠4) :
    ¬FirstComeFirstServe (book ((w.edge bus).edge bus).rounds).log := by
  obtain ⟨_,_,hb₁,_,_⟩ := edge_book bus w
  obtain ⟨_,_,hb₂,hi₁,hi₂⟩ := edge_book bus (w.edge bus)
  have hc₁ : (w.edge bus).dma.ch1=w.dma.ch1.tick := edge_chan bus w .one
  have hc₂ : (w.edge bus).dma.ch2=w.dma.ch2.tick := edge_chan bus w .two
  have hm₁ : (w.edge bus).dma.ch1.Moving := by
    rw [hc₁]
    exact latched_moving hl hz
  have hm₂ : (w.edge bus).dma.ch2.Moving := by
    rw [hc₂]
    exact (moving_keeps hm _ hleft).1
  obtain ⟨x,hx,hxs,hxl⟩ := issue_of_moving hi₁ hm₁ .one (book w.rounds).edges
  obtain ⟨y,hy,hys,hyl⟩ := issue_of_moving hi₂ hm₂ .two ((book w.rounds).latchEdge .two)
  rw [hb₂,Book.add,latchNext_one hm₁,latchNext_two hm₂,hb₁]
  dsimp only [Book.add]
  rw [latchNext_one_some hl,latchNext_two hm,←List.append_assoc]
  refine not_fcfs (List.mem_append_right _ hx) hy ?_ ?_
  · rw [hxs,hys]
    exact Side.noConfusion
  · rw [hxl,hyl]
    exact book_past w.rounds .two

/-- Channel two starts while channel one has more than two words left: after
its first word channel one is served again. -/
theorem overtaken_by_two (bus : Bus M) {w : World M} {q : Request}
    (hl : w.dma.ch2.latched w.dma.ch2.regAddr=some q) (hz : q.size≠0) (hm : w.dma.ch1.Moving)
    (hfour : w.dma.ch1.size-w.dma.ch1.offset≠4) (height : w.dma.ch1.size-w.dma.ch1.offset≠8) :
    ¬FirstComeFirstServe (book (((w.edge bus).edge bus).edge bus).rounds).log := by
  obtain ⟨_,_,hb₁,_,_⟩ := edge_book bus w
  obtain ⟨_,_,hb₂,_,hi₂⟩ := edge_book bus (w.edge bus)
  obtain ⟨_,_,hb₃,hi₃,_⟩ := edge_book bus ((w.edge bus).edge bus)
  have hc₁ : (w.edge bus).dma.ch1=w.dma.ch1.tick := edge_chan bus w .one
  have hc₂ : (w.edge bus).dma.ch2=w.dma.ch2.tick := edge_chan bus w .two
  have hc₃ : ((w.edge bus).edge bus).dma.ch1=(w.edge bus).dma.ch1.tick :=
    edge_chan bus (w.edge bus) .one
  obtain ⟨hkeep,hleft⟩ := moving_keeps hm w.dma.ch1.regAddr hfour
  have hm₁ : (w.edge bus).dma.ch1.Moving := by
    rw [hc₁]
    exact hkeep
  have hm₂ : (w.edge bus).dma.ch2.Moving := by
    rw [hc₂]
    exact latched_moving hl hz
  have hm₃ : ((w.edge bus).edge bus).dma.ch1.Moving := by
    rw [hc₃]
    refine (moving_keeps hm₁ _ ?_).1
    rw [hc₁]
    dsimp only [Channel.tick]
    rw [hleft]
    bv_omega
  obtain ⟨x,hx,hxs,hxl⟩ := issue_of_moving hi₂ hm₂ .two (book w.rounds).edges
  obtain ⟨y,hy,hys,hyl⟩ := issue_of_moving hi₃ hm₃ .one ((book w.rounds).latchEdge .one)
  rw [hb₃,Book.add,latchNext_one hm₃,hb₂]
  dsimp only [Book.add]
  rw [latchNext_one hm₁,latchNext_two hm₂,hb₁]
  dsimp only [Book.add]
  rw [latchNext_two_some hl,latchNext_one hm]
  refine not_fcfs (List.mem_append_right _ (List.mem_append_right _ hx))
    (List.mem_append_left _ hy) ?_ ?_
  · rw [hxs,hys]
    exact Side.noConfusion
  · rw [hxl,hyl]
    exact book_past w.rounds .one

/-- The condition is exact: after an edge out of turn, two more edges spoil
the order, whatever the registers hold. -/
theorem out_of_turn (bus : Bus M) {w : World M} (h : ¬InTurn w .edge) :
    ¬FirstComeFirstServe (book (((w.edge bus).edge bus).edge bus).rounds).log := by
  simp only [InTurn,not_forall] at h
  obtain ⟨side,q,hl,hz,hm,hd⟩ := h
  cases side with
  | one =>
    intro hall
    exact overtaken_by_one bus hl hz hm (fun he => hd (Or.inl he)) (fcfs_before bus hall)
  | two =>
    exact overtaken_by_two bus hl hz hm (fun he => hd (Or.inl he))
      (fun he => hd (Or.inr ⟨rfl,he⟩))

/-- Arbitration, exactly. Every run from reset whose edges are in turn issues
all transactions first come, first served; and an edge out of turn, at the end
of any run, is followed by an order that is not. -/
theorem first_come_first_serve_exact (bus : Bus M) (dataS : BitVec 32) (mem : M) :
    (∀ es w,Along (World.step bus) InTurn (World.init dataS mem) es →
      run (World.step bus) (World.init dataS mem) es=some w →
      FirstComeFirstServe (book w.rounds).log) ∧
    ∀ w : World M,¬InTurn w .edge →
      ∀ w₁ w₂ w₃,w.step bus .edge=some w₁ → w₁.step bus .edge=some w₂ →
        w₂.step bus .edge=some w₃ → ¬FirstComeFirstServe (book w₃.rounds).log := by
  constructor
  · intro es w hturn h
    exact (ordered_run hturn h).fcfs
  · intro w hout w₁ w₂ w₃ h₁ h₂ h₃
    cases h₁
    cases h₂
    cases h₃
    exact out_of_turn bus hout

/-- Channel one moves three words; channel two starts one edge later. -/
def interleaved : List (Event Unit) :=
  [.access (writeReg32 .one 2 12),.access (writeReg32 .one 3 1),
    .access (writeReg32 .two 2 4),.edge,.access (writeReg32 .two 3 1),.edge,.edge,.edge]

/-- Channel two issues its word before the last word of channel one, although
its transfer was latched later. -/
theorem later_request_overtakes :
    ∃ w,run (World.step (constBus 0)) (World.init 0 ()) interleaved=some w ∧
      ¬FirstComeFirstServe (book w.rounds).log := by
  refine ⟨_,rfl,?_⟩
  unfold FirstComeFirstServe
  decide

end SystemCDma.DualDmaArbitration
