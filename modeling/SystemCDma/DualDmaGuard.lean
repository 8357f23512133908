import SystemCDma.DualDma

/-!
# The busy guard of the two-channel controller

The slave port refuses writes while a channel moves data. It combines the
current START/CLEAR signal with a stop flag of the last edge, so around the
edges that change the signals the guard is stale, in either direction. It is
exact after every other edge, and before the first one.
-/

namespace SystemCDma.DualDmaGuard

open TlmBus TransferEngine EventRun DualDma

variable {M : Type*}

/-- The guard of a side is exact: a register write is discarded while its
channel moves data and otherwise taken by the addressed register alone. The
registers of the other side stay as they are in both cases. -/
def GuardExact (s : DMA) (side : Side) : Prop :=
  ∀ i value,
    ((bTransport s (writeReg32 side i value)).1.chan side).regAddr=
        (if (s.chan side).Moving then (s.chan side).regAddr
          else Function.update (s.chan side).regAddr i value) ∧
      ((bTransport s (writeReg32 side i value)).1.chan side.other).regAddr=
        (s.chan side.other).regAddr

/-- An edge after which the guard is stale. It latches a nonzero size from a
channel whose offset was at its old size, it latches size zero from one whose
offset was not, or it moves the last word of a transfer. -/
def StaleEdge (c : Channel) : Prop :=
  (c.startClear=false ∧ c.regAddr 3≠0 ∧ ¬(c.offset=c.size ↔ c.regAddr 2=0)) ∨
    (c.Moving ∧ c.offset+4=c.size)

/-- An open channel updates the addressed register. -/
theorem write_update {c : Channel} (h : c.Open) (i : Fin 4) (value : BitVec 32) :
    (c.write i value).regAddr=Function.update c.regAddr i value := by
  funext j
  rw [Channel.write_open h]
  by_cases hj : j=i
  · rw [if_pos hj,hj,Function.update_self]
  · rw [if_neg hj,Function.update_of_ne hj]

/-- A closed channel keeps its registers. -/
theorem write_closed {c : Channel} (h : ¬c.Open) (i : Fin 4) (value : BitVec 32) :
    c.write i value=c := by
  rw [Channel.write,if_neg h]

/-- Some value changes a register. -/
theorem update_ne (r : Registers) (i : Fin 4) : Function.update r i (r i+1)≠r := by
  intro h
  have hi := congrFun h i
  rw [Function.update_self] at hi
  cases BitVec.add_right_eq_self.mp hi

/-- The guard is exact when the channel is open exactly while it does not
move data. -/
theorem guardExact_iff (s : DMA) (side : Side) :
    GuardExact s side ↔ ((s.chan side).Open ↔ ¬(s.chan side).Moving) := by
  constructor
  · intro h
    have hown := (h 0 ((s.chan side).regAddr 0+1)).1
    rw [bTransport_ownSide] at hown
    constructor
    · intro hopen hm
      rw [write_update hopen,if_pos hm] at hown
      exact update_ne _ _ hown
    · intro hm
      by_contra hopen
      rw [write_closed hopen,if_neg hm] at hown
      exact update_ne _ _ hown.symm
  · intro h i value
    refine ⟨?_,by rw [bTransport_otherSide]⟩
    rw [bTransport_ownSide]
    by_cases hm : (s.chan side).Moving
    · rw [if_pos hm,write_closed (fun hopen => h.mp hopen hm)]
    · rw [if_neg hm,write_update (h.mpr hm)]

/-- A channel without a start is open and does not move data. -/
theorem exact_idle {c : Channel} (h : c.startClear=false) : c.Open ↔ ¬c.Moving := by
  refine ⟨fun _ => still_idle h,fun _ => ?_⟩
  rw [Channel.Open,h,Bool.not_false,Bool.or_true]

/-- A started channel is open exactly when its stop flag is set. -/
theorem open_started {c : Channel} (h : c.startClear=true) : c.Open ↔ c.stop=true := by
  rw [Channel.Open,h,Bool.not_true,Bool.or_false]

/-- After an edge the guard is exact unless the edge was stale. -/
theorem exact_tick (c : Channel) : (c.tick.Open ↔ ¬c.tick.Moving) ↔ ¬StaleEdge c := by
  have hstop : c.tick.stop=true ↔ c.offset=c.size := stopFlag_iff _ _
  rcases tick_cases c.regAddr c.toEngine with ⟨hs,ht⟩|⟨hm,ht⟩|⟨hs,ho,ht⟩
  · have hengine : c.tick.toEngine=
        ⟨c.regAddr 0,c.regAddr 1,c.regAddr 2,c.regAddr 3!=0,0,false⟩ := ht
    have hnot : ¬c.Moving := still_idle hs
    by_cases hr : c.regAddr 3=0
    · have hidle : c.tick.startClear=false := by
        rw [hengine,hr]
        rfl
      exact ⟨fun _ hstale => hstale.elim (fun h => h.2.1 hr) fun h => hnot h.1,
        fun _ => exact_idle hidle⟩
    · have hstarted : c.tick.startClear=true := by
        rw [hengine]
        exact bne_iff_ne.mpr hr
      have hmoving : c.tick.Moving ↔ c.regAddr 2≠0 := by
        rw [Engine.Moving,hstarted,hengine]
        exact ⟨fun h => fun hz => h.2 hz.symm,fun h => ⟨rfl,fun hz => h hz.symm⟩⟩
      have hstale : StaleEdge c ↔ ¬(c.offset=c.size ↔ c.regAddr 2=0) :=
        ⟨fun h => h.elim (fun h => h.2.2) fun h => absurd h.1 hnot,fun h => Or.inl ⟨hs,hr,h⟩⟩
      rw [open_started hstarted,hstop,hmoving,hstale,not_not,not_not]
  · have hengine : c.tick.toEngine={c.toEngine with offset := c.offset+4} := ht
    have hstarted : c.tick.startClear=true := by
      rw [hengine]
      exact hm.1
    have hmoving : c.tick.Moving ↔ c.offset+4≠c.size := by
      rw [Engine.Moving,hstarted,hengine]
      exact ⟨fun h => h.2,fun h => ⟨rfl,h⟩⟩
    have hstale : StaleEdge c ↔ c.offset+4=c.size := by
      refine ⟨fun h => h.elim (fun h => ?_) fun h => h.2,fun h => Or.inr ⟨hm,h⟩⟩
      exact absurd hm (still_idle h.1)
    rw [open_started hstarted,hstop,hmoving,hstale,not_not]
    exact ⟨fun h hlast => hm.2 (h.mpr hlast),
      fun h => ⟨fun he => absurd he hm.2,fun hlast => absurd hlast h⟩⟩
  · have hengine : c.tick.toEngine=
        {c.toEngine with startClear := c.regAddr 3!=0, interrupt := true} := ht
    have hstill : ¬c.tick.Moving := by
      rw [hengine]
      exact still_finished ho
    have hopen : c.tick.Open := by
      rw [Channel.Open,hstop.mpr ho,Bool.true_or]
    have hfresh : ¬StaleEdge c := by
      rintro (h|h)
      · exact Bool.noConfusion (hs.symm.trans h.1)
      · exact h.1.2 ho
    exact ⟨fun _ => hfresh,fun _ => ⟨fun _ => hstill,fun _ => hopen⟩⟩

section Run

variable {bus : Bus M}

/-- What the guard of a side looks at is the same in two states. -/
def SameGuard (side : Side) (v u : World M) : Prop :=
  (u.dma.chan side).toEngine=(v.dma.chan side).toEngine ∧
    (u.dma.chan side).stop=(v.dma.chan side).stop

/-- Between edges the signals and the stop flags stay as they are. -/
theorem between_run {v u : World M} {es : List (Event M)} (hes : ∀ e∈es,e≠.edge)
    (h : run (World.step bus) v es=some u) (side : Side) : SameGuard side v u := by
  refine run_invariant_of ?_ ⟨rfl,rfl⟩ hes h
  intro s e t hi he hs
  have hchan := step_chan hs side
  cases e with
  | edge => exact absurd rfl he
  | access p =>
    have hframe := (s.dma.chan side).access_frame side p
    rw [SameGuard,hchan.1]
    exact ⟨hframe.1.trans hi.1,hframe.2.trans hi.2⟩
  | other f =>
    rw [SameGuard,hchan.1]
    exact hi

/-- The guard looks at the signals and the stop flag only. -/
theorem exact_congr {c d : Channel} (hengine : c.toEngine=d.toEngine) (hstop : c.stop=d.stop) :
    (c.Open ↔ ¬c.Moving) ↔ (d.Open ↔ ¬d.Moving) := by
  rw [Channel.Open,Channel.Open,hstop,hengine]

/-- After the last edge of a run the guard is as exact as right behind it. -/
theorem guardExact_after {v p u : World M} {pre post : List (Event M)}
    (hpost : ∀ e∈post,e≠.edge) (hpre : run (World.step bus) v pre=some p)
    (h : run (World.step bus) v (pre++.edge::post)=some u) (side : Side) :
    GuardExact u.dma side ↔ ¬StaleEdge (p.dma.chan side) := by
  have hrun : run (World.step bus) p (.edge::post)=some u := by
    rw [run_append,hpre] at h
    exact h
  obtain ⟨q,hedge,hrest⟩ := run_cons_some hrun
  have hq : q.dma.chan side=(p.dma.chan side).tick := step_chan hedge side
  obtain ⟨hengine,hstop⟩ := between_run hpost hrest side
  rw [guardExact_iff,exact_congr hengine hstop,hq]
  exact exact_tick _

/-- Before the first edge after reset the guard is exact. -/
theorem guardExact_before {dataS : BitVec 32} {mem : M} {es : List (Event M)} {u : World M}
    (hes : ∀ e∈es,e≠.edge) (h : run (World.step bus) (World.init dataS mem) es=some u)
    (side : Side) : GuardExact u.dma side := by
  have hengine := (between_run hes h side).1
  rw [guardExact_iff]
  refine exact_idle ?_
  rw [hengine]
  cases side <;> rfl

end Run

/-- In every state that a run from reset reaches, the busy guard of a side is
exact if and only if the last edge before was not stale for it. -/
theorem guard_exact {bus : Bus M} {dataS : BitVec 32} {mem : M} {es : List (Event M)}
    {u : World M} (h : run (World.step bus) (World.init dataS mem) es=some u) (side : Side) :
    GuardExact u.dma side ↔
      ∀ pre post p,es=pre++.edge::post → (∀ e∈post,e≠.edge) →
        run (World.step bus) (World.init dataS mem) pre=some p → ¬StaleEdge (p.dma.chan side) := by
  constructor
  · intro hexact pre post p hes hpost hpre
    subst hes
    exact (guardExact_after hpost hpre h side).mp hexact
  · intro hfresh
    rcases last_split .edge es with hnone|⟨pre,post,hes,hpost⟩
    · exact guardExact_before hnone h side
    · subst hes
      obtain ⟨p,hpre,_⟩ := Option.bind_eq_some_iff.mp ((run_append _ _ _ _).symm.trans h)
      exact (guardExact_after hpost hpre h side).mpr (hfresh pre post p rfl hpost hpre)

/-- SIZE and START of channel one are written, then one edge passes. -/
def latchEvents : List (Event Unit) :=
  [.access (writeReg32 .one 2 8),.access (writeReg32 .one 3 1),.edge]

/-- One more edge moves the first of the two words. It is not stale, and the
guard is exact after it: data is being moved, and a write is discarded. -/
theorem guard_exact_demo :
    ∃ u,run (World.step (constBus 0)) (World.init 0 ()) (latchEvents++[.edge])=some u ∧
      u.dma.ch1.Moving ∧ u.dma.ch1.offset=4 ∧ GuardExact u.dma .one := by
  refine ⟨_,rfl,by decide,rfl,(guard_exact (show run (World.step (constBus 0)) (World.init 0 ())
    (latchEvents++[.edge])=some _ from rfl) .one).mpr ?_⟩
  intro pre post p hes hpost hpre
  rcases List.eq_nil_or_concat' post with rfl|⟨front,last,rfl⟩
  · obtain rfl : latchEvents=pre := List.append_cancel_right hes
    cases hpre
    unfold StaleEdge
    decide
  · -- The edge of the split would not be the last event of the run.
    rw [←List.cons_append,←List.append_assoc] at hes
    have hlast : [Event.edge]=[last] := (List.append_inj' hes rfl).2
    exact absurd (List.cons.inj hlast).1.symm
      (hpost last (List.mem_append_right front List.mem_cons_self))

/-- Right after the latching edge channel one moves data and takes a write of
SOURCE all the same; after the edge that moves its last word it moves none and
discards the write. -/
theorem stale_guard :
    (∃ u,run (World.step (constBus 0)) (World.init 0 ()) latchEvents=some u ∧
      u.dma.ch1.Moving ∧ u.dma.ch1.regAddr 0=0 ∧
      (bTransport u.dma (writeReg32 .one 0 5)).1.ch1.regAddr 0=5 ∧ ¬GuardExact u.dma .one) ∧
    ∃ u,run (World.step (constBus 0)) (World.init 0 ()) (latchEvents++[.edge,.edge])=some u ∧
      ¬u.dma.ch1.Moving ∧ u.dma.ch1.regAddr 0=0 ∧
      (bTransport u.dma (writeReg32 .one 0 5)).1.ch1.regAddr 0=0 ∧ ¬GuardExact u.dma .one := by
  refine ⟨⟨_,rfl,by decide,rfl,rfl,?_⟩,⟨_,rfl,by decide,rfl,rfl,?_⟩⟩
  · rw [guardExact_iff]
    decide
  · rw [guardExact_iff]
    decide

end SystemCDma.DualDmaGuard
