import SystemCDma.DualDmaSerial
import SystemCDma.SharedRam

/-!
# Transfers on the platform

The processors program the controller over their buses, and the controller
moves words between the shared RAMs while the processors go on with other
accesses, directly or over the buses. A run of the platform is a run of the
controller on the shared memory, as long as its words lie in the shared RAMs;
so what any initiator reads at the end is the result of the transfers.
-/

namespace SystemCDma.PlatformTransfer

open ByteMemory EventRun TlmBus TransferEngine FlatMemory PlatformSimulation PlatformMemory
open SharedRam DualDmaSerial
open BareMetal hiding Act
open DualDma (Side World)

/-- The state of the platform after an act. -/
def proceed (s : Platform) (e : Act) : Option Platform := (serve s e).map Prod.fst

/-- The state of the platform with flat memories after an act. -/
def proceedFlat (t : Targets Memory) (e : Act) : Option (Targets Memory) :=
  (serveFlat t e).map Prod.fst

/-- The request that the channel of a side latches in an act. -/
def latchedBy (side : Side) (dma : DualDma.DMA) : Act → Option Request
  | .edge => (dma.chan side).latched (dma.chan side).regAddr
  | _ => none

/-- The requests that a channel latches in a run of the platform. -/
def latched (side : Side) (s : Platform) (acts : List Act) : List Request :=
  observed proceed (fun s e => latchedBy side s.targets.dma e) s acts

/-- The same with flat memories. -/
def latchedFlat (side : Side) (t : Targets Memory) (acts : List Act) : List Request :=
  observed proceedFlat (fun t e => latchedBy side t.dma e) t acts

/-- The interrupt of a side has risen in a run: at some moment it was high and
a request had been latched. -/
def Raised (side : Side) (s : Platform) (acts : List Act) : Prop :=
  ∃ pre post v,acts=pre++post ∧ run proceed s pre=some v ∧ latched side s pre≠[] ∧
    (v.targets.dma.chan side).interrupt=true

/-- The writes of the initiators do not touch a region of the memory. -/
def Spares (R : Set ℕ) : Act → Prop
  | .access _ p | .direct _ _ p =>
    p.command=.write → Disjoint (bytes p.address.toNat p.dataLength.toNat) R
  | _ => True

/-- The two requests and where they lie. -/
structure Requests (q : Side → Request) (R : Set ℕ) : Prop where
  /-- The sizes are whole words. -/
  words : ∀ side,4∣(q side).size.toNat
  /-- Each source lies in one of the shared RAMs. -/
  source : ∀ side,InShared (q side).source.toNat (q side).size.toNat
  /-- So does each target. -/
  target : ∀ side,InShared (q side).target.toNat (q side).size.toNat
  /-- The sources lie in the region under consideration. -/
  region : ∀ side,sourceRange (q side)⊆R
  /-- The region is part of the shared memory. -/
  inside : R⊆Set.Ico 0x200000 0x400000
  /-- Neither request writes what the other one reads or writes. -/
  independent : Independent (q .one) (q .two)

/-- The byte that an initiator reads over its bus. -/
def readByte (s : Platform) (i : Initiator) (a : ℕ) : BitVec 8 :=
  (access respond i s.targets (byteAccess .read (BitVec.ofNat 64 a) 0)).2.buffer 0

/-- The bus that the controller sees: RAM3 and RAM4. -/
def sharedBus : Bus Memory := ramBus 0x200000 0x400000

section World

/-- The change from one memory to another, as the activity of a master. -/
def patch (m m' : Memory) : Memory → Memory := fun x a => if m' a=m a then x a else m' a

/-- What an access means for the controller on the shared memory. -/
def accessEvent (i : Initiator) (t : Targets Memory) (p : GenericPayload) : Event Memory :=
  match registerAccess i p with
  | some q => .access q
  | none => .other (patch (sharedMemory t.ram) (sharedMemory (access respondFlat i t p).1.ram))

/-- What an act means for the controller on the shared memory. -/
def event (t : Targets Memory) : Act → Event Memory
  | .edge => .edge
  | .access i p => accessEvent i t p
  | .request _ _ _ _ => .other id
  | .direct side _ p => accessEvent (.cpu side) t p

/-- The events of a run. -/
def events (t : Targets Memory) (acts : List Act) : List (Event Memory) :=
  observed proceedFlat (fun t e => some (event t e)) t acts

/-- The controller and the shared memory of the platform. -/
structure Projects (w : World Memory) (t : Targets Memory) : Prop where
  /-- The controller. -/
  dma : w.dma=t.dma
  /-- The shared memory. -/
  mem : w.mem=sharedMemory t.ram

variable {w : World Memory} {t : Targets Memory}

/-- The change from one memory to another leads there. -/
theorem patch_self (m m' : Memory) : patch m m' m=m' := by
  funext a
  dsimp only [patch]
  split
  · exact (by assumption : m' a=m a).symm
  · rfl

/-- An access is a step of the controller on the shared memory. -/
theorem access_step (h : Projects w t) (i : Initiator) (p : GenericPayload) :
    ∃ w',w.step sharedBus (accessEvent i t p)=some w' ∧
      Projects w' (access respondFlat i t p).1 ∧ w'.rounds=w.rounds := by
  have hdma := access_dma respondFlat t (i := i) (p := p)
  unfold accessEvent
  cases hq : registerAccess i p with
  | some q =>
    rw [hq] at hdma
    refine ⟨_,rfl,⟨?_,?_⟩,rfl⟩
    · rw [hdma,←h.dma]
    · rw [register_ram respondFlat t hq]
      exact h.mem
  | none =>
    rw [hq] at hdma
    refine ⟨_,rfl,⟨?_,?_⟩,rfl⟩
    · rw [hdma]
      exact h.dma
    · dsimp only
      rw [h.mem,patch_self]

/-- The step lemma: an act of the platform is a step of the controller on the
shared memory, if no word of an edge lies outside the shared RAMs. -/
theorem event_step (h : Projects w t) {e : Act}
    (hfits : e=.edge → ∀ side,Fits (t.dma.chan side)) :
    ∃ w' t',proceedFlat t e=some t' ∧ w.step sharedBus (event t e)=some w' ∧ Projects w' t' ∧
      ∀ side,latches w' side=latches w side++(latchedBy side t.dma e).toList := by
  have hkeep : ∀ w' : World Memory,w'.rounds=w.rounds → ∀ side,
      latches w' side=latches w side++[] := fun w' hr side => by
    rw [latches,latches,World.turns,World.turns,hr,List.append_nil]
  cases e with
  | edge =>
    obtain ⟨hdma,hmem⟩ := edge_shared (hfits rfl)
    refine ⟨_,_,rfl,rfl,⟨?_,?_⟩,fun side => ?_⟩
    · dsimp only [World.edge]
      rw [h.dma,h.mem]
      exact hdma.symm
    · dsimp only [World.edge]
      rw [h.dma,h.mem]
      exact hmem.symm
    · rw [latches_edge,h.dma]
      rfl
  | access i p =>
    obtain ⟨w',hs,hp,hr⟩ := access_step h i p
    exact ⟨w',_,rfl,hs,hp,hkeep w' hr⟩
  | request side port addr bytes =>
    exact ⟨_,_,rfl,rfl,⟨h.dma,h.mem⟩,hkeep _ rfl⟩
  | direct side port p =>
    obtain ⟨w',hs,hp,hr⟩ := access_step h (.cpu side) p
    exact ⟨w',_,rfl,hs,hp,hkeep w' hr⟩

end World

section Run

variable {q : Side → Request} {R : Set ℕ} {t u : Targets Memory} {acts : List Act}

/-- The requests lie in the window of the shared memory. -/
theorem Requests.placed (h : Requests q R) : Placed q (Set.Ico 0x200000 0x400000) R :=
  ⟨h.words,fun side => (h.source side).window,fun side => (h.target side).window,h.region,
    h.independent⟩

/-- A channel in a stage of its request moves words of the shared RAMs. -/
theorem stage_fits {p : Request} {c : DualDma.Channel} {l : List Request} {n : ℕ}
    (h : Stage p c.toEngine l n) (hp : 4∣p.size.toNat) (hs : InShared p.source.toNat p.size.toNat)
    (ht : InShared p.target.toNat p.size.toNat) : Fits c := by
  intro hm
  cases h with
  | waiting _ still => exact absurd hm still
  | moving _ progress bound =>
    have hn : 4*(n+1)≤p.size.toNat := by
      have := progress.moving_iff.mp hm
      omega
    rw [progress.source,progress.target,progress.offset]
    exact ⟨hs.part (by omega) (by omega),ht.part (by omega) (by omega)⟩
  | done _ still => exact absurd hm still

/-- Events of acts that spare the region leave it alone. -/
theorem events_untouched (hspare : ∀ e∈acts,Spares R e) : Untouched R (events t acts) := by
  have haccess : ∀ (i : Initiator) (t : Targets Memory) (p : GenericPayload),
      (p.command=.write → Disjoint (bytes p.address.toNat p.dataLength.toNat) R) →
      ∀ f,accessEvent i t p=.other f → ∀ m,Set.EqOn (f m) m R := by
    intro i t p hp f hf m x hx
    unfold accessEvent at hf
    cases hq : registerAccess i p with
    | some q =>
      rw [hq] at hf
      cases hf
    | none =>
      rw [hq] at hf
      cases hf
      exact if_pos (access_frame fun hc => Set.disjoint_right.mp (hp hc) hx)
  have hone : ∀ (t : Targets Memory) (e : Act),Spares R e →
      ∀ f,event t e=.other f → ∀ m,Set.EqOn (f m) m R := by
    intro t e he f hf m
    cases e with
    | edge => cases hf
    | access i p => exact haccess i t p he f hf m
    | request side port addr bytes =>
      cases hf
      exact Set.eqOn_refl _ _
    | direct side port p => exact haccess _ t p he f hf m
  intro f hf m
  induction acts generalizing t with
  | nil => cases hf
  | cons e acts ih =>
    have hrest := fun e' he' => hspare e' (List.mem_cons_of_mem e he')
    rw [events,observed] at hf
    rcases List.mem_append.mp hf with hf|hf
    · rw [Option.toList_some,List.mem_singleton] at hf
      exact hone t e (hspare e List.mem_cons_self) f hf.symm m
    · cases hs : proceedFlat t e with
      | none =>
        rw [hs] at hf
        cases hf
      | some v =>
        rw [hs] at hf
        exact ih hrest hf

/-- The run lemma: from channels at rest, as long as they latch nothing but
their requests, a run of the platform is a run of the controller on the shared
memory. The induction appends one act; what the run before it has latched says
where the words of the next edge lie. -/
theorem world_run (hq : Requests q R) (hstill : ∀ side,¬(t.dma.chan side).Moving)
    (hspare : ∀ e∈acts,Spares R e) (hrun : run proceedFlat t acts=some u)
    (hone : ∀ side,latchedFlat side t acts<+:[q side]) :
    ∃ w,run (World.step sharedBus) ⟨t.dma,sharedMemory t.ram,[]⟩ (events t acts)=some w ∧
      Projects w u ∧ ∀ side,latches w side=latchedFlat side t acts := by
  induction acts using List.reverseRecOn generalizing u with
  | nil =>
    cases hrun
    exact ⟨_,rfl,⟨rfl,rfl⟩,fun _ => rfl⟩
  | append_singleton acts e ih =>
    obtain ⟨v,hv,hlast⟩ := Option.bind_eq_some_iff.mp ((run_append _ _ _ _).symm.trans hrun)
    rw [run_singleton] at hlast
    have hgrow : ∀ side,latchedFlat side t (acts++[e])=
        latchedFlat side t acts++(latchedBy side v.dma e).toList := fun side => by
      rw [latchedFlat,observed_append _ hv,observed,hlast]
      dsimp only [observed]
      rw [List.append_nil]
      rfl
    have hone' : ∀ side,latchedFlat side t acts<+:[q side] := fun side =>
      (List.prefix_append _ _).trans (hgrow side ▸ hone side)
    have hspare' : ∀ f∈acts,Spares R f := fun f hf => hspare f (List.mem_append_left _ hf)
    obtain ⟨w,hw,hproj,hl⟩ := ih hspare' hv hone'
    obtain ⟨n₁,n₂,hstages⟩ := serialised_run (ramBus_isRam 0x200000 0x400000) hq.placed
      (w := ⟨t.dma,sharedMemory t.ram,[]⟩) rfl hstill (events_untouched hspare') hw
      fun side => hl side ▸ hone' side
    have hfits : ∀ side,Fits (v.dma.chan side) := by
      intro side
      rw [←hproj.dma]
      cases side with
      | one => exact stage_fits hstages.one (hq.words _) (hq.source _) (hq.target _)
      | two => exact stage_fits hstages.two (hq.words _) (hq.source _) (hq.target _)
    obtain ⟨w',t',ht,hs,hproj',hl'⟩ := event_step hproj (e := e) fun _ => hfits
    cases hlast.symm.trans ht
    refine ⟨w',?_,hproj',fun side => ?_⟩
    · rw [events,observed_append _ hv,observed,hlast]
      refine run_trans hw ?_
      dsimp only [observed]
      rw [Option.toList_some,List.append_nil,run_singleton]
      exact hs
    · rw [hl',hl,hgrow]

/-- The interrupt of a side has risen in a run with flat memories. -/
def RaisedFlat (side : Side) (t : Targets Memory) (acts : List Act) : Prop :=
  ∃ pre post v,acts=pre++post ∧ run proceedFlat t pre=some v ∧ latchedFlat side t pre≠[] ∧
    (v.dma.chan side).interrupt=true

/-- Then it has risen in the run of the controller. -/
theorem RaisedFlat.risen (hq : Requests q R) (hstill : ∀ side,¬(t.dma.chan side).Moving)
    (hspare : ∀ e∈acts,Spares R e) (hone : ∀ side,latchedFlat side t acts<+:[q side]) {side : Side}
    (h : RaisedFlat side t acts) :
    Risen sharedBus ⟨t.dma,sharedMemory t.ram,[]⟩ (events t acts) side := by
  obtain ⟨pre,post,v,rfl,hv,hl,hi⟩ := h
  have hone' : ∀ side,latchedFlat side t pre<+:[q side] := fun side => by
    refine List.IsPrefix.trans ?_ (hone side)
    rw [latchedFlat,latchedFlat,observed_append _ hv]
    exact List.prefix_append _ _
  obtain ⟨w,hw,hproj,hlatch⟩ := world_run hq hstill
    (fun e he => hspare e (List.mem_append_left _ he)) hv hone'
  refine ⟨events t pre,events v post,w,observed_append _ hv post,hw,?_,?_⟩
  · rw [hlatch]
    exact hl
  · rw [hproj.dma]
    exact hi

/-- Two independent transfers have the same result in either order. -/
theorem transfer_comm (hq : Requests q R) (m : Memory) :
    transfer (q .two) (transfer (q .one) m)=transfer (q .one) (transfer (q .two) m) := by
  have hb₁ := Nat.mul_div_cancel' (hq.words .one)
  have hb₂ := Nat.mul_div_cancel' (hq.words .two)
  exact forwardCopy_comm _
    (hq.independent.targets.mono (target_words hb₁.le) (target_words hb₂.le))
    (hq.independent.source.mono (target_words hb₁.le) (source_words hb₂.le))
    (hq.independent.source'.mono (target_words hb₂.le) (source_words hb₁.le))

/-- A transfer depends only on a region that holds its source. -/
theorem transfer_eqOn {p : Request} (hp : 4∣p.size.toNat) (hR : sourceRange p⊆R) {m m' : Memory}
    (h : Set.EqOn m m' R) : Set.EqOn (transfer p m) (transfer p m') R := by
  have hmoved : ∀ n,4*n≤p.size.toNat → Set.EqOn (moved p n m) (moved p n m') R := by
    intro n hn
    induction n with
    | zero => exact h
    | succ n ih => exact store_load_eqOn _ (ih (by omega)) ((source_word hn).trans hR)
  exact hmoved _ (Nat.mul_div_cancel' hp).le

/-- With flat memories: when both interrupts have risen the shared memory holds
the result of the transfers. -/
theorem flat_transfers (hq : Requests q R) (hstill : ∀ side,¬(t.dma.chan side).Moving)
    (hspare : ∀ e∈acts,Spares R e) (hrun : run proceedFlat t acts=some u)
    (hlatch : ∀ side,latchedFlat side t acts=[q side]) (hraised : ∀ side,RaisedFlat side t acts) :
    Set.EqOn (sharedMemory u.ram)
      (transfer (q .two) (transfer (q .one) (sharedMemory t.ram))) R := by
  have hone : ∀ side,latchedFlat side t acts<+:[q side] :=
    fun side => hlatch side ▸ List.prefix_refl _
  obtain ⟨w,hw,hproj,hl⟩ := world_run hq hstill hspare hrun hone
  have hram := ramBus_isRam 0x200000 0x400000
  have hone' : ∀ side,latches w side<+:[q side] := fun side => hl side ▸ hone side
  have hdone := fun side => risen_still (w := ⟨t.dma,sharedMemory t.ram,[]⟩) hram hq.placed rfl
    hstill (events_untouched hspare) hw hone' ((hraised side).risen hq hstill hspare hone)
  obtain ⟨n₁,n₂,h⟩ := serialised_run (w := ⟨t.dma,sharedMemory t.ram,[]⟩) hram hq.placed rfl
    hstill (events_untouched hspare) hw hone'
  have hmem := h.mem
  rw [h.one.complete (hdone .one).1 (hdone .one).2,h.two.complete (hdone .two).1 (hdone .two).2,
    hproj.mem] at hmem
  exact hmem

end Run

section Sparse

variable {s u : Platform} {t : Targets Memory} {acts : List Act}

/-- The step lemma for the platform and the one with flat memories. -/
theorem proceed_matches (s : Platform) (t : Targets Memory) (e : Act) (h : Matches s t)
    (hreq : Requested e) :
    ∃ s' t',proceed s e=some s' ∧ proceedFlat t e=some t' ∧ Matches s' t' := by
  obtain ⟨s',t',a,hs,ht,hm⟩ := serve_matches h hreq
  exact ⟨s',t',by rw [proceed,hs]; rfl,by rw [proceedFlat,ht]; rfl,hm⟩

/-- Runs of the two reach related states. -/
theorem run_matches (h : Matches s t) (hreq : ∀ e∈acts,Requested e)
    (hrun : run proceed s acts=some u) : ∃ v,run proceedFlat t acts=some v ∧ Matches u v := by
  obtain ⟨s',t',hs,ht,hm⟩ := run_simulation proceed_matches h hreq
  cases hs.symm.trans hrun
  exact ⟨t',ht,hm⟩

/-- The channels latch the same requests in both. -/
theorem latched_matches (h : Matches s t) (hreq : ∀ e∈acts,Requested e) (side : Side) :
    latched side s acts=latchedFlat side t acts :=
  observed_simulation proceed_matches (fun s t e hm => by rw [hm.dma]) h hreq

/-- The same interrupts have risen. -/
theorem Raised.flat (h : Matches s t) (hreq : ∀ e∈acts,Requested e) {side : Side}
    (hr : Raised side s acts) : RaisedFlat side t acts := by
  obtain ⟨pre,post,v,rfl,hv,hl,hi⟩ := hr
  have hpre : ∀ e∈pre,Requested e := fun e he => hreq e (List.mem_append_left _ he)
  obtain ⟨v',hv',hm⟩ := run_matches h hpre hv
  refine ⟨pre,post,v',rfl,hv',?_,?_⟩
  · rw [←latched_matches h hpre]
    exact hl
  · rw [←hm.dma]
    exact hi

/-- Every initiator reads the bytes of the shared memory. -/
theorem readByte_shared (h : Matches s t) (i : Initiator) {a : ℕ}
    (ha : a∈Set.Ico 0x200000 0x400000) : readByte s i a=sharedMemory t.ram a := by
  have h₁ := ha.1
  have h₂ := ha.2
  have haddr : (BitVec.ofNat 64 a).toNat=a := by
    rw [BitVec.toNat_ofNat]
    exact Nat.mod_eq_of_lt (by omega)
  have hin : InShared (byteAccess .read (BitVec.ofNat 64 a) 0).address.toNat
      (byteAccess .read (BitVec.ofNat 64 a) 0).dataLength.toNat := by
    change InShared (BitVec.ofNat 64 a).toNat 1
    rw [haddr]
    rcases Nat.lt_or_ge a 0x300000 with hlt|hge
    · exact Or.inl ⟨h₁,hlt⟩
    · exact Or.inr ⟨hge,h₂⟩
  have hanswer := (access_related (responds h.built) i h.begin
    (byteAccess .read (BitVec.ofNat 64 a) 0)).2
  have hread := (access_read i (t := t) hin (by change (1 : BitVec 32)≠0; decide) rfl).2.2
  rw [readByte,hanswer,hread]
  change sharedMemory t.ram ((BitVec.ofNat 64 a).toNat+0)=_
  rw [haddr,Nat.add_zero]

end Sparse

/-- Transfers on the platform as it is built, with sparse RAMs and direct
pointers. After any run from construction that leaves both channels at rest,
each channel latches one request; the two are independent, of whole words, and
each range lies in one of the shared RAMs. The processors, their pointers and
the controller take their turns in any order, and no processor writes into the
region. When both interrupts have risen, every initiator reads in the region
the result of the two transfers on what it read there before, in either order. -/
theorem platform_transfers {dma : DualDma.DMA} {fill acts : List Act} {s u : Platform}
    {q : Side → Request} {R : Set ℕ} (hreq : ∀ e∈fill++acts,Requested e)
    (hfill : run proceed (start dma) fill=some s) (hrun : run proceed s acts=some u)
    (hq : Requests q R) (hstill : ∀ side,¬(s.targets.dma.chan side).Moving)
    (hspare : ∀ e∈acts,Spares R e) (hlatch : ∀ side,latched side s acts=[q side])
    (hraised : ∀ side,Raised side s acts) (i : Initiator) :
    Set.EqOn (readByte u i) (transfer (q .two) (transfer (q .one) (readByte s i))) R ∧
      Set.EqOn (readByte u i) (transfer (q .one) (transfer (q .two) (readByte s i))) R := by
  have hreq₁ : ∀ e∈fill,Requested e := fun e he => hreq e (List.mem_append_left _ he)
  have hreq₂ : ∀ e∈acts,Requested e := fun e he => hreq e (List.mem_append_right _ he)
  obtain ⟨t,_,hs⟩ := run_matches (start_matches dma) hreq₁ hfill
  obtain ⟨v,hv,hu⟩ := run_matches hs hreq₂ hrun
  have hflat := flat_transfers (t := t) hq (fun side => by rw [←hs.dma]; exact hstill side) hspare
    hv (fun side => by rw [←latched_matches hs hreq₂]; exact hlatch side)
    fun side => (hraised side).flat hs hreq₂
  have hbefore : Set.EqOn (sharedMemory t.ram) (readByte s i) R :=
    fun a ha => (readByte_shared hs i (hq.inside ha)).symm
  have hresult : Set.EqOn (readByte u i) (transfer (q .two) (transfer (q .one) (readByte s i))) R :=
    fun a ha => ((readByte_shared hu i (hq.inside ha)).trans (hflat ha)).trans
      (transfer_eqOn (hq.words _) (hq.region _)
        (transfer_eqOn (hq.words _) (hq.region _) hbefore) ha)
  exact ⟨hresult,transfer_comm hq (readByte s i) ▸ hresult⟩

/-- A payload of four bytes. -/
def wordAccess (command : Command) (address : BitVec 64) (data : BitVec 32) : GenericPayload :=
  masterPayload ⟨command,address,data⟩

/-- The two processors fill a word each. -/
def demoFill : List Act :=
  [.access (.cpu .one) (wordAccess .write 0x200400 0x76543210),
    .access (.cpu .two) (wordAccess .write 0x300400 0xfedcba98)]

/-- The requests of the two processors. -/
def demoRequest : Side → Request
  | .one => ⟨0x200400,0x300000,4⟩
  | .two => ⟨0x300400,0x200000,4⟩

/-- They program their channels; the second one takes a direct pointer into its
own RAM and writes through it meanwhile. -/
def demoActs : List Act :=
  [.access (.cpu .one) (wordAccess .write 0x100000 0x200400),
    .access (.cpu .one) (wordAccess .write 0x100004 0x300000),
    .access (.cpu .one) (wordAccess .write 0x100008 4),
    .access (.cpu .one) (wordAccess .write 0x10000c 1),.edge,
    .access (.cpu .two) (wordAccess .write 0x100010 0x300400),
    .access (.cpu .two) (wordAccess .write 0x100014 0x200000),
    .access (.cpu .two) (wordAccess .write 0x100018 4),.request .two .data 0 4,.edge,
    .access (.cpu .two) (wordAccess .write 0x10001c 1),
    .direct .two .data (wordAccess .write 0x40 5),.edge,.edge,.edge]

/-- The platform after the words have been filled. -/
def demoStart : Platform :=
  (run proceed (start (DualDma.init 0)) demoFill).getD (start (DualDma.init 0))

/-- The two requests lie in RAM3 and RAM4. -/
theorem demoRequest_requests : Requests demoRequest (Set.Ico 0x200000 0x400000) := by
  have hapart : ∀ a n b k : ℕ,a+n≤b ∨ b+k≤a → Disjoint (bytes a n) (bytes b k) := by
    intro a n b k h
    refine Set.disjoint_left.mpr fun x hx hy => ?_
    have := hx.1
    have := hx.2
    have := hy.1
    have := hy.2
    omega
  have hsource : ∀ side,InShared (demoRequest side).source.toNat (demoRequest side).size.toNat :=
    fun side => by cases side <;> decide
  refine ⟨fun side => ?_,hsource,fun side => ?_,fun side => (hsource side).window,subset_rfl,?_,?_,?_⟩
  · cases side <;> decide
  · cases side <;> decide
  · exact hapart _ _ _ _ (by decide)
  · exact hapart _ _ _ _ (by decide)
  · exact hapart _ _ _ _ (by decide)

/-- The second processor reads what the two transfers have moved. -/
theorem platform_transfers_demo :
    ∃ u,run proceed demoStart demoActs=some u ∧
      Set.EqOn (readByte u (.cpu .two)) (transfer (demoRequest .two)
        (transfer (demoRequest .one) (readByte demoStart (.cpu .two))))
          (Set.Ico 0x200000 0x400000) := by
  have hrisen : ∀ side,∃ n v,run proceed demoStart (demoActs.take n)=some v ∧
      latched side demoStart (demoActs.take n)≠[] ∧ (v.targets.dma.chan side).interrupt=true := by
    intro side
    cases side with
    | one =>
      obtain ⟨v,hv,hi⟩ := Option.map_eq_some_iff.mp (show (run proceed demoStart
        (demoActs.take 13)).map (fun v => v.targets.dma.ch1.interrupt)=some true by decide +kernel)
      exact ⟨13,v,hv,by decide +kernel,hi⟩
    | two =>
      obtain ⟨v,hv,hi⟩ := Option.map_eq_some_iff.mp (show (run proceed demoStart
        (demoActs.take 15)).map (fun v => v.targets.dma.ch2.interrupt)=some true by decide +kernel)
      exact ⟨15,v,hv,by decide +kernel,hi⟩
  obtain ⟨s,hs⟩ := Option.isSome_iff_exists.mp
    (show (run proceed (start (DualDma.init 0)) demoFill).isSome=true by decide +kernel)
  have hfill : run proceed (start (DualDma.init 0)) demoFill=some demoStart := by
    rw [demoStart,hs]
    rfl
  obtain ⟨u,hu⟩ := Option.isSome_iff_exists.mp
    (show (run proceed demoStart demoActs).isSome=true by decide +kernel)
  have hstill : ∀ side,¬(demoStart.targets.dma.chan side).Moving := fun side => by
    cases side <;> decide +kernel
  refine ⟨u,hu,(platform_transfers ?_ hfill hu demoRequest_requests hstill ?_ ?_ ?_ _).1⟩
  · intro e he
    simp only [demoFill,demoActs,List.cons_append,List.nil_append,List.mem_cons,List.not_mem_nil,
      or_false] at he
    rcases he with rfl|rfl|rfl|rfl|rfl|rfl|rfl|rfl|rfl|rfl|rfl|rfl|rfl|rfl|rfl|rfl|rfl <;>
      first | trivial | exact requested_low _ _
  · intro e he
    have hbelow : ∀ a n : ℕ,a+n≤0x200000 → Disjoint (bytes a n) (Set.Ico 0x200000 0x400000) :=
      fun a n h => Set.disjoint_left.mpr fun x hx hy => absurd hx.2 (not_lt.mpr (h.trans hy.1))
    simp only [demoActs,List.mem_cons,List.not_mem_nil,or_false] at he
    rcases he with rfl|rfl|rfl|rfl|rfl|rfl|rfl|rfl|rfl|rfl|rfl|rfl|rfl|rfl|rfl <;>
      first | trivial | exact fun _ => hbelow _ _ (by decide)
  · intro side
    cases side <;> decide +kernel
  · intro side
    obtain ⟨n,v,hv,hl,hi⟩ := hrisen side
    exact ⟨_,_,v,(List.take_append_drop n demoActs).symm,hv,hl,hi⟩

end SystemCDma.PlatformTransfer
