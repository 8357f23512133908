import SystemCDma.TlmDecoder
import SystemCDma.DualDma

/-!
# The address map of the two-processor platform

Each processor has a bus of its own with two RAMs; everything else falls
through to a common bus with the two shared RAMs and the register window of
the DMA controller, whose master port is on that bus too. So a processor sees
its own windows first and then the common ones, the controller the common ones
alone, and nobody else reaches the RAMs of a processor, however the controller
is programmed.
-/

namespace SystemCDma.BareMetal

open ByteMemory TlmBus TlmDecoder EventRun
open DualDma (Side)

/-- The RAM blocks of the platform. -/
inductive Ram where
  | ram1
  | ram2
  | ram3
  | ram4
  | ram1_1
  | ram2_1
  deriving DecidableEq,Repr

/-- What an access can reach. -/
inductive Leaf where
  | ram (r : Ram)
  | dma
  deriving DecidableEq,Repr

/-- Number of bytes behind a leaf. -/
def Leaf.size : Leaf → ℕ
  | .ram _ => 0x100000
  | .dma => 0x20

/-- The contents of the RAMs and the controller. -/
structure Targets (R : Type*) where
  /-- What each RAM holds. -/
  ram : Ram → R
  /-- The controller behind its register window. -/
  dma : DualDma.DMA

section Platform

variable {R : Type*} (respond : Ram → R → GenericPayload → R×GenericPayload)

/-- The transport call of a leaf. The RAMs may answer in any way; the
controller answers at its slave port. -/
def call : Leaf → Targets R → GenericPayload → Targets R×GenericPayload
  | .ram r,t,p => ({t with ram := Function.update t.ram r (respond r (t.ram r) p).1},
      (respond r (t.ram r) p).2)
  | .dma,t,p => ({t with dma := (DualDma.bTransport t.dma p.word).1},
      {p with responseStatus := (DualDma.bTransport t.dma p.word).2})

/-- The common bus. -/
def busM : List (Port (Targets R)) :=
  [⟨[⟨0x200000,0x2fffff⟩],call respond (.ram .ram3)⟩,
    ⟨[⟨0x300000,0x3fffff⟩],call respond (.ram .ram4)⟩,
    ⟨[⟨0x100000,0x10001f⟩],call respond .dma⟩]

/-- The bus of the first processor; its port to the common bus has no window. -/
def bus1 : List (Port (Targets R)) :=
  [⟨[],initiatorBTransport (busM respond)⟩,
    ⟨[⟨0x000000,0x0fffff⟩],call respond (.ram .ram1)⟩,
    ⟨[⟨0xfff00000,0xffffffff⟩],call respond (.ram .ram1_1)⟩]

/-- The bus of the second processor. -/
def bus2 : List (Port (Targets R)) :=
  [⟨[],initiatorBTransport (busM respond)⟩,
    ⟨[⟨0x000000,0x0fffff⟩],call respond (.ram .ram2)⟩,
    ⟨[⟨0xfff00000,0xffffffff⟩],call respond (.ram .ram2_1)⟩]

/-- Who issues accesses: a processor, or the master port of the controller. -/
inductive Initiator where
  | cpu (side : Side)
  | dma
  deriving DecidableEq,Repr

/-- The bus that an initiator is connected to. -/
def busOf : Initiator → List (Port (Targets R))
  | .cpu .one => bus1 respond
  | .cpu .two => bus2 respond
  | .dma => busM respond

/-- The access of an initiator. -/
def access (i : Initiator) (t : Targets R) (p : GenericPayload) : Targets R×GenericPayload :=
  initiatorBTransport (busOf respond i) t p

/-- The payload that the process of the controller fills in. -/
def masterPayload (p : Payload) : GenericPayload :=
  ⟨p.command,p.address,fun k => p.data.extractLsb' (8*k) 8,4,none,4,.incompleteResponse⟩

/-- The common bus as the process of the controller uses it. -/
def masterBus : Bus (Targets R) where
  bTransport t p :=
    let r := access respond .dma t (masterPayload p)
    (r.1,⟨r.2.responseStatus,load r.2.buffer 0⟩)

/-- The clock edge of the controller. A channel that writes to the window of
the controller itself reaches the registers through the bus, before the other
channel is served. In the code such a write waits inside the clocked thread
until the next clock edge, and what happens meanwhile happens before the rest
of the iteration; here the edge is one step, so no run has anything inside that
wait. -/
def edge (t : Targets R) : Targets R :=
  let t₀ : Targets R := {t with dma := ⟨t.dma.ch1.testStop,t.dma.ch2.testStop,t.dma.dataS⟩}
  let r₁ := DualDma.transmit1 (masterBus respond) t₀ t₀.dma.ch1 t₀.dma.dataS
  let r₂ := DualDma.transmit2 (masterBus respond) r₁.mem r₁.mem.dma.ch2 r₁.dataS
  {r₂.mem with dma := ⟨{r₁.chan with regAddr := r₂.mem.dma.ch1.regAddr},
    {r₂.chan with regAddr := r₂.mem.dma.ch2.regAddr},r₂.dataS⟩}

/-- What happens on the platform: an access of any initiator, or a clock edge
of the controller with the accesses that its channels make. -/
inductive Act where
  | access (i : Initiator) (p : GenericPayload)
  | edge

/-- One step of the platform. No step is refused. -/
def step (t : Targets R) : Act → Option (Targets R)
  | .access i p => some (access respond i t p).1
  | .edge => some (edge respond t)

end Platform

/-- The RAM at the bottom of the address space of a processor. -/
def lowRam : Side → Ram
  | .one => .ram1
  | .two => .ram2

/-- The RAM at the top of the 32-bit address space of a processor. -/
def highRam : Side → Ram
  | .one => .ram1_1
  | .two => .ram2_1

/-- The windows on the bus of a processor. -/
def own (side : Side) : AddressMap Leaf :=
  [(⟨0x000000,0x0fffff⟩,.ram (lowRam side)),(⟨0xfff00000,0xffffffff⟩,.ram (highRam side))]

/-- The windows on the common bus. -/
def shared : AddressMap Leaf :=
  [(⟨0x200000,0x2fffff⟩,.ram .ram3),(⟨0x300000,0x3fffff⟩,.ram .ram4),
    (⟨0x100000,0x10001f⟩,.dma)]

/-- What an initiator sees. -/
def addressMap : Initiator → AddressMap Leaf
  | .cpu side => own side++shared
  | .dma => shared

/-- A target of the common bus. -/
def Leaf.Shared (l : Leaf) : Prop := ∃ w∈shared,w.2=l

section Map

/-- Every window is as long as what lies behind it. -/
theorem window_size (i : Initiator) :
    ∀ w∈addressMap i,w.1.hi.toNat-w.1.lo.toNat<w.2.size := by
  cases i with
  | cpu side => cases side <;> decide
  | dma => decide

/-- Nobody else has a window to the RAMs of a processor. -/
theorem foreign_windows {i : Initiator} {side : Side} (hi : i≠.cpu side) :
    ∀ w∈addressMap i,w.2≠.ram (lowRam side) ∧ w.2≠.ram (highRam side) := by
  cases i with
  | cpu side' =>
    cases side <;> cases side' <;> first | exact absurd rfl hi | decide
  | dma => cases side <;> decide

/-- The RAMs of a processor are no targets of the common bus. -/
theorem own_not_shared (side : Side) : ∀ w∈own side,¬w.2.Shared := by
  intro w hw hshared
  obtain ⟨v,hv,heq⟩ := hshared
  revert v w
  cases side <;> decide

/-- An address of the common bus means the same for every initiator. -/
theorem lookup_shared {i : Initiator} {a : BitVec 64} {l : Leaf} {offset : BitVec 64}
    (hl : l.Shared) (h : lookup (addressMap i) a=some (l,offset)) :
    lookup shared a=some (l,offset) := by
  cases i with
  | cpu side =>
    refine lookup_second (fun w hw heq => ?_) h
    subst heq
    exact own_not_shared side w hw hl
  | dma => exact h

end Map

section Access

variable {R : Type*} (respond : Ram → R → GenericPayload → R×GenericPayload)

/-- The decoders look the address up in the map of the initiator, and the
access reaches the leaf it names, or nothing. -/
theorem access_lookup (i : Initiator) (t : Targets R) (p : GenericPayload) :
    access respond i t p=reach (call respond) t p (lookup (addressMap i) p.address) := by
  have hshared : ∀ s q,initiatorBTransport (busM respond) s q=
      reach (call respond) s q (lookup shared q.address) :=
    fun s q => static_decode (call respond) shared s q
  cases i with
  | cpu side =>
    cases side with
    | one => exact fallback_decode (call respond) hshared (own .one) t p
    | two => exact fallback_decode (call respond) hshared (own .two) t p
  | dma => exact hshared t p

/-- A call of one leaf leaves the other RAMs alone. -/
theorem call_frame {l : Leaf} {r : Ram} (h : l≠.ram r) (t : Targets R) (p : GenericPayload) :
    (call respond l t p).1.ram r=t.ram r := by
  cases l with
  | ram r' => exact Function.update_of_ne (fun hr => h (by rw [hr])) _ _
  | dma => rfl

/-- An access through a map without a window to a RAM leaves it alone. -/
theorem reach_frame {windows : AddressMap Leaf} {r : Ram} (h : ∀ w∈windows,w.2≠.ram r)
    (t : Targets R) (p : GenericPayload) (a : BitVec 64) :
    (reach (call respond) t p (lookup windows a)).1.ram r=t.ram r := by
  cases hl : lookup windows a with
  | none => rfl
  | some v =>
    obtain ⟨m,hmem,_,_⟩ := lookup_some hl
    exact call_frame respond (h _ hmem) t _

end Access

section Process

variable {R : Type*} (respond : Ram → R → GenericPayload → R×GenericPayload)

/-- An access of the process does not write to the window of the controller. -/
def Apart (p : Payload) : Prop :=
  p.command=.write → ∀ offset,lookup shared p.address≠some (.dma,offset)

/-- Such an access neither reads nor changes the controller. -/
theorem master_apart {p : Payload} (h : Apart p) (t : Targets R) (d : DualDma.DMA) :
    (masterBus respond).bTransport {t with dma := d} p=
      ({((masterBus respond).bTransport t p).1 with dma := d},
        ((masterBus respond).bTransport t p).2) := by
  obtain ⟨command,address,data⟩ := p
  dsimp only [masterBus]
  rw [access_lookup,access_lookup]
  dsimp only [masterPayload,addressMap]
  cases hl : lookup shared address with
  | none => rfl
  | some v =>
    obtain ⟨l,offset⟩ := v
    cases l with
    | ram r => rfl
    | dma =>
      cases command with
      | read | ignore => rfl
      | write => exact absurd hl (h rfl offset)

/-- What serving a channel leaves behind, with another controller beside it. -/
def beside (d : DualDma.DMA) (r : DualDma.Served (Targets R)) : DualDma.Served (Targets R) :=
  {r with mem := {r.mem with dma := d}}

/-- Nor does moving a word whose target is outside the window. -/
theorem move_apart {c : DualDma.Channel} (h : ∀ data,Apart (c.writePayload data))
    (t : Targets R) (d : DualDma.DMA) (dataS : BitVec 32) :
    c.move (masterBus respond) {t with dma := d} dataS=
      beside d (c.move (masterBus respond) t dataS) := by
  have hr := master_apart respond (p := c.readPayload dataS) (fun hw => nomatch hw) t d
  have hw := fun m data => master_apart respond (h data) m d
  simp only [DualDma.Channel.move,beside,hr,hw]

/-- Nor does serving a channel. -/
theorem transmit_apart {c : DualDma.Channel} (h : c.Moving → ∀ data,Apart (c.writePayload data))
    (t : Targets R) (d : DualDma.DMA) (dataS : BitVec 32) :
    DualDma.transmit1 (masterBus respond) {t with dma := d} c.testStop dataS=
      beside d (DualDma.transmit1 (masterBus respond) t c.testStop dataS) := by
  unfold DualDma.transmit1
  split_ifs with hs ho
  · rfl
  · have hstart : c.startClear=true := by
      rw [Bool.not_eq_true',Bool.not_eq_false] at hs
      exact hs
    have hleft : c.offset≠c.size := fun heq => by
      rw [DualDma.Channel.testStop,(DualDma.stopFlag_iff _ _).mpr heq] at ho
      cases ho
    exact move_apart respond (c := c.testStop) (h ⟨hstart,hleft⟩) t d dataS
  · rfl
  · rfl

/-- While no channel writes to the window of the controller, an edge is an
iteration of the process with the rest of the platform as its bus. -/
theorem edge_dmaP {t : Targets R}
    (h : ∀ side,(t.dma.chan side).Moving → ∀ data,Apart ((t.dma.chan side).writePayload data)) :
    edge respond t=
      {(DualDma.dmaP (masterBus respond) t t.dma).2.1 with
        dma := (DualDma.dmaP (masterBus respond) t t.dma).1} := by
  have h₁ := transmit_apart respond (h .one) t
    ⟨t.dma.ch1.testStop,t.dma.ch2.testStop,t.dma.dataS⟩ t.dma.dataS
  have h₂ := fun m => transmit_apart respond (h .two) m
    ⟨t.dma.ch1.testStop,t.dma.ch2.testStop,t.dma.dataS⟩
  have hchan := fun m c data => (DualDma.transmit_cases (masterBus respond) m c data).1
  dsimp only [DualDma.DMA.chan] at h₁ h₂
  dsimp only [edge,DualDma.dmaP]
  rw [h₁]
  dsimp only [beside]
  rw [DualDma.transmit2_eq,DualDma.transmit2_eq,h₂]
  dsimp only [beside]
  rw [hchan,hchan]
  rfl

end Process

section Isolation

variable {R : Type*} (respond : Ram → R → GenericPayload → R×GenericPayload)

/-- The two RAMs of a processor. -/
def view (side : Side) (t : Targets R) : R×R := (t.ram (lowRam side),t.ram (highRam side))

/-- The accesses of a processor. -/
def observe (side : Side) : Act → Option GenericPayload
  | .access i p => if i=.cpu side then some p else none
  | .edge => none

/-- What an access of a processor does to its RAMs. -/
def next (side : Side) (v : R×R) (p : GenericPayload) : R×R :=
  match lookup (own side) p.address with
  | some (l,offset) =>
    if l=.ram (lowRam side) then
      ((respond (lowRam side) v.1 {p with address := offset}).1,v.2)
    else (v.1,(respond (highRam side) v.2 {p with address := offset}).1)
  | none => v

/-- The RAMs at the bottom and at the top are different ones. -/
theorem low_ne_high (side : Side) : lowRam side≠highRam side := by
  cases side <;> decide

/-- An access of a processor to its own windows changes its RAMs by a function
of them and of the access. -/
theorem view_own (side : Side) (t : Targets R) (p : GenericPayload) :
    view side (access respond (.cpu side) t p).1=next respond side (view side t) p := by
  rw [access_lookup,addressMap,lookup_append,next]
  cases hl : lookup (own side) p.address with
  | none =>
    have hlow : ∀ w∈shared,w.2≠.ram (lowRam side) :=
      fun w hw => (foreign_windows (i := .dma) (Initiator.noConfusion) w hw).1
    have hhigh : ∀ w∈shared,w.2≠.ram (highRam side) :=
      fun w hw => (foreign_windows (i := .dma) (Initiator.noConfusion) w hw).2
    exact Prod.ext (reach_frame respond hlow t p _) (reach_frame respond hhigh t p _)
  | some v =>
    obtain ⟨l,offset⟩ := v
    obtain ⟨m,hmem,_,_⟩ := lookup_some hl
    have hne := low_ne_high side
    rcases List.mem_pair.mp hmem with h|h
    · obtain ⟨_,rfl⟩ := Prod.mk.inj h
      dsimp only
      rw [if_pos rfl]
      exact Prod.ext (Function.update_self _ _ _) (Function.update_of_ne hne.symm _ _)
    · obtain ⟨_,rfl⟩ := Prod.mk.inj h
      dsimp only
      rw [if_neg (fun heq => hne (Leaf.ram.inj heq).symm)]
      exact Prod.ext (Function.update_of_ne hne _ _) (Function.update_self _ _ _)

/-- An access of another initiator does not change them. -/
theorem view_foreign {i : Initiator} {side : Side} (hi : i≠.cpu side) (t : Targets R)
    (p : GenericPayload) : view side (access respond i t p).1=view side t := by
  have hforeign := foreign_windows hi
  rw [access_lookup]
  exact Prod.ext (reach_frame respond (fun w hw => (hforeign w hw).1) t p _)
    (reach_frame respond (fun w hw => (hforeign w hw).2) t p _)

/-- Nor does an access of a channel at the master port. -/
theorem view_master (side : Side) (t : Targets R) (p : Payload) :
    view side ((masterBus respond).bTransport t p).1=view side t :=
  view_foreign respond Initiator.noConfusion t (masterPayload p)

/-- Nor does serving a channel, whatever it is programmed to do. -/
theorem view_transmit (side : Side) (t : Targets R) (c : DualDma.Channel) (dataS : BitVec 32) :
    view side (DualDma.transmit1 (masterBus respond) t c dataS).mem=view side t ∧
      view side (DualDma.transmit2 (masterBus respond) t c dataS).mem=view side t := by
  have hkeep : ∀ m p,view side m=view side t →
      view side ((masterBus respond).bTransport m p).1=view side t :=
    fun m p hm => (view_master respond side m p).trans hm
  exact ⟨@DualDma.transmit1_keeps _ _ (fun m => view side m=view side t) hkeep _ rfl c dataS,
    @DualDma.transmit2_keeps _ _ (fun m => view side m=view side t) hkeep _ rfl c dataS⟩

/-- Nor does a clock edge. -/
theorem view_edge (side : Side) (t : Targets R) : view side (edge respond t)=view side t := by
  unfold edge
  exact ((view_transmit respond side _ _ _).2).trans (view_transmit respond side _ _ _).1

/-- The step lemma: the RAMs of a processor move only on its own accesses, by
a function of them and of the access. -/
theorem view_step {side : Side} {t u : Targets R} {e : Act} (h : step respond t e=some u) :
    view side u=advance (next respond side) (view side t) (observe side e) := by
  cases e with
  | access i p =>
    cases h
    dsimp only [observe]
    by_cases hi : i=.cpu side
    · subst hi
      rw [if_pos rfl]
      exact view_own respond side t p
    · rw [if_neg hi]
      exact view_foreign respond hi t p
  | edge =>
    cases h
    exact view_edge respond side t

end Isolation

/-- The address map of the platform, for RAMs that answer in any way. The
decoders do with an access what the map of its initiator says: it reaches the
one leaf that the map names, at an address inside it, or nothing if it names
none. Where two initiators reach targets of the common bus with one address,
they reach the same target at the same place. And the two RAMs of a processor
depend on its own accesses alone: two runs that agree on these, from states
that agree on the two RAMs, end with the same contents there, whatever the
other processor and the controller do and however the controller is
programmed. -/
theorem address_map_isolates {R : Type*}
    (respond : Ram → R → GenericPayload → R×GenericPayload) :
    (∀ i t p,access respond i t p=reach (call respond) t p (lookup (addressMap i) p.address)) ∧
    (∀ i a l offset,lookup (addressMap i) a=some (l,offset) → offset.toNat<l.size) ∧
    (∀ i j a l offset l' offset',l.Shared → l'.Shared →
      lookup (addressMap i) a=some (l,offset) → lookup (addressMap j) a=some (l',offset') →
        l=l' ∧ offset=offset') ∧
    ∀ side t t' es es' u u',view side t=view side t' →
      es.filterMap (observe side)=es'.filterMap (observe side) →
      run (step respond) t es=some u → run (step respond) t' es'=some u' →
        view side u=view side u' := by
  refine ⟨access_lookup respond,fun i a l offset hl => ?_,
    fun i j a l offset l' offset' hl hl' h h' => ?_,
    fun side t t' es es' u u' hstart hobs h h' => ?_⟩
  · obtain ⟨m,hmem,hin,rfl⟩ := lookup_some hl
    exact (PortMapping.offsetInto_le hin).trans_lt (window_size i _ hmem)
  · have heq := (lookup_shared hl h).symm.trans (lookup_shared hl' h')
    exact Prod.mk.inj (Option.some.inj heq)
  · rw [view_run (fun _ _ _ hs => view_step respond hs) h,
      view_run (fun _ _ _ hs => view_step respond hs) h',hstart,hobs]

/-- RAMs that count the accesses they get. -/
def demoRespond : Ram → ℕ → GenericPayload → ℕ×GenericPayload := fun _ n p => (n+1,p.succeed)

/-- All counters are zero, and the controller is after reset. -/
def demoTargets : Targets ℕ := ⟨fun _ => 0,DualDma.init 0⟩

/-- The second processor uses the address of the first one and starts channel
two on it, and the controller moves a word from there. -/
def demoActs : List Act :=
  [.access (.cpu .one) (masterPayload ⟨.write,0x40,5⟩),
    .access (.cpu .two) (masterPayload ⟨.write,0x40,6⟩),
    .access (.cpu .two) (masterPayload ⟨.write,0x100010,0x40⟩),
    .access (.cpu .two) (masterPayload ⟨.write,0x100014,0x200000⟩),
    .access (.cpu .two) (masterPayload ⟨.write,0x100018,4⟩),
    .access (.cpu .two) (masterPayload ⟨.write,0x10001c,1⟩),.edge,.edge]

/-- To the first processor this is a run with its one access alone: the other
processor has reached its own RAM, and the controller the shared one. -/
theorem address_map_isolates_demo :
    ∃ u u',run (step demoRespond) demoTargets demoActs=some u ∧
      run (step demoRespond) demoTargets (demoActs.take 1)=some u' ∧
      view .one u=view .one u' ∧ u.ram .ram1=1 ∧ u.ram .ram2=1 ∧ u.ram .ram3=1 := by
  refine ⟨_,_,rfl,rfl,?_,rfl,rfl,rfl⟩
  exact (address_map_isolates demoRespond).2.2.2 .one demoTargets demoTargets demoActs
    (demoActs.take 1) _ _ rfl rfl rfl rfl

end SystemCDma.BareMetal
