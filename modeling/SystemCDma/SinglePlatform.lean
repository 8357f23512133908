import SystemCDma.PlatformMemory
import SystemCDma.SingleDma

/-!
# The platform of the first project

One bus connects the two ports of the processor and the master port of the
controller with a RAM and with the register window of the controller. The RAM
was connected first, so the one address that both windows contain is its own.
The platform with its sparse RAM and with direct pointers stands next to the
one with a flat memory. The last segment of the RAM reaches past the window, so
a direct pointer to it is good for addresses that the bus does not decode; a
processor with 32-bit addresses does not see the difference.
-/

namespace SystemCDma.SinglePlatform

open ByteMemory EventRun TlmDecoder RangeList TlmMemory SparseMemory FlatMemory DirectMemory
open TlmBus hiding Answer
open PlatformMemory (Cell MasterPort Answer seen)
open PlatformSimulation (Agree)
open BareMetal (masterPayload)

/-- What an access can reach. -/
inductive Leaf where
  | ram1
  | dma
  deriving DecidableEq,Repr

/-- The contents of the RAM and the controller. -/
structure Targets (R : Type*) where
  /-- What the RAM holds. -/
  ram1 : R
  /-- The controller behind its register window. -/
  dma : SingleDma.DMA

/-- The window of the RAM. -/
def ramWindow : PortMapping := ⟨0x00000010,0xffffffff⟩

/-- The window of the controller; its last address is behind the registers. -/
def dmaWindow : PortMapping := ⟨0x00000000,0x00000010⟩

/-- What every initiator sees. -/
def addressMap : AddressMap Leaf := [(ramWindow,.ram1),(dmaWindow,.dma)]

section Platform

variable {R : Type*} (respond : R → GenericPayload → R×GenericPayload)

/-- The transport call of a leaf. -/
def call : Leaf → Targets R → GenericPayload → Targets R×GenericPayload
  | .ram1,t,p => ({t with ram1 := (respond t.ram1 p).1},(respond t.ram1 p).2)
  | .dma,t,p => ({t with dma := (SingleDma.bTransport t.dma p.word).1},
      {p with responseStatus := (SingleDma.bTransport t.dma p.word).2})

/-- The bus. -/
def bus1 : List (Port (Targets R)) :=
  [⟨[ramWindow],call respond .ram1⟩,⟨[dmaWindow],call respond .dma⟩]

/-- The access of an initiator; all of them are on the one bus. -/
def access (t : Targets R) (p : GenericPayload) : Targets R×GenericPayload :=
  initiatorBTransport (bus1 respond) t p

/-- The bus as the process of the controller uses it. -/
def masterBus : Bus (Targets R) where
  bTransport t p :=
    let r := access respond t (masterPayload p)
    (r.1,⟨r.2.responseStatus,load r.2.buffer 0⟩)

/-- The clock edge of the controller. What it writes to its own window reaches
the registers through the bus. In the code such a write waits inside the
clocked thread until the next clock edge; here the edge is one step, so no run
has anything inside that wait. An access that fails ends the simulation. -/
def edge (t : Targets R) : Except SingleDma.Report (Targets R) :=
  (SingleDma.dmaP (masterBus respond) t t.dma).map fun (dma,t',_) =>
    {t' with dma := {dma with regmem := t'.dma.regmem}}

/-- The decoder looks the address up in the map. -/
theorem access_lookup (t : Targets R) (p : GenericPayload) :
    access respond t p=reach (call respond) t p (lookup addressMap p.address) :=
  static_decode (call respond) addressMap t p

end Platform

/-- The RAM after construction. -/
def platformRam : TlmRam := tlmRam 0xffffffef true false

/-- The transport call of the sparse RAM. -/
def respond : Cell → GenericPayload → Cell×GenericPayload := PlatformMemory.respond .ram1

/-- The transport call of a flat memory of the same size. -/
def respondFlat (m : Memory) (p : GenericPayload) : Memory×GenericPayload :=
  match flatServe 0xffffffef true m (.transport p) with
  | some (m',handed) => (m',handed.payload)
  | none => (m,p)

/-- A direct pointer of the processor: its range and the segment it leads to. -/
abbrev Held := DmiData ℕ

/-- The platform: the bus targets, and the direct pointers kept for each port. -/
structure Platform where
  /-- The RAM and the controller. -/
  targets : Targets Cell
  /-- The direct pointers. -/
  held : MasterPort → List Held

/-- A request for a direct pointer at a leaf. The controller offers none. -/
def leafDmi : Leaf → Targets Cell → GenericPayload → Option (Targets Cell×Option Held)
  | .ram1,t,p => do
    let (r',reply,dmi) ← t.ram1.ram.getDirectMemPtr p
    let c := {t.ram1 with ram := r',invalidated := t.ram1.invalidated++reply.invalidated}
    some ({t with ram1 := c},dmi.map fun d => ⟨d.startAddress,d.endAddress,d.dmiPtr⟩)
  | .dma,t,_ => some (t,none)

/-- The bus, for requests for direct pointers. -/
def dmiBus1 : List (DmiPort (Targets Cell) ℕ) :=
  [⟨[ramWindow],leafDmi .ram1⟩,⟨[dmaWindow],leafDmi .dma⟩]

/-- All that arrives at the ports of the processor in a step. -/
def arrived (t : Targets Cell) : List Invalidation :=
  t.ram1.invalidated.flatMap (invalidateDMIPointers [ramWindow])

/-- The processor gives up the pointers into invalidated ranges. -/
def deliver (s : Platform) : Platform where
  targets := {s.targets with ram1 := {s.targets.ram1 with invalidated := []}}
  held port := (arrived s.targets).foldl (fun held v => killDMI v held) (s.held port)

/-- The processor keeps a direct pointer that it has been given. -/
def keep (s : Platform) (port : MasterPort) (d : Option Held) : Platform :=
  {s with held := Function.update s.held port (d.toList++s.held port)}

/-- What happens on the platform. -/
inductive Act where
  /-- A transport call of any initiator. -/
  | access (p : GenericPayload)
  /-- A clock edge of the controller. -/
  | edge
  /-- The processor asks for a direct pointer and keeps it. -/
  | request (port : MasterPort) (addr : BitVec 64) (bytes : BitVec 32)
  /-- An access of the processor, through a pointer it has or else over the bus. -/
  | direct (port : MasterPort) (p : GenericPayload)

/-- A pointer is good for all bytes of a read or a write. -/
def Covers (p : GenericPayload) (d : Held) : Prop :=
  p.command≠.ignore ∧ d.startAddress≤p.address ∧
    p.address.toNat+p.dataLength.toNat≤d.endAddress.toNat+1

instance (p : GenericPayload) (d : Held) : Decidable (Covers p d) :=
  inferInstanceAs (Decidable (_ ∧ _))

/-- An access through a pointer. -/
def throughPointer (t : Targets Cell) (d : Held) (p : GenericPayload) :
    Option (Targets Cell×Memory) :=
  (pointerAccess t.ram1.ram d.dmiPtr (p.address-d.startAddress).toNat p).map fun (r,buffer) =>
    ({t with ram1 := {t.ram1 with ram := r}},buffer)

/-- The end of a step: nothing more happens after an abort. -/
def settle (s : Platform) (a : Answer) : Option (Platform×Answer) :=
  if s.targets.ram1.aborted then none else some (deliver s,a)

/-- A step of the platform. -/
def serve (s : Platform) : Act → Option (Platform×Answer)
  | .access p =>
    let r := access respond s.targets p
    settle ⟨r.1,s.held⟩ (.handed r.2)
  | .edge =>
    match edge respond s.targets with
    | .ok t => settle ⟨t,s.held⟩ .silent
    | .error _ => none
  | .request port addr bytes => do
    let (t,result) ← getDMI dmiBus1 s.targets addr bytes
    let (s',a) ← settle ⟨t,s.held⟩ .silent
    some (keep s' port result,a)
  | .direct port p =>
    match (s.held port).find? fun d => decide (Covers p d) with
    | some d => do
      let (t,buffer) ← throughPointer s.targets d p
      settle ⟨t,s.held⟩ (.data buffer true)
    | none =>
      let r := access respond s.targets p
      settle ⟨r.1,s.held⟩ (seen r.2)

/-- A step of the platform with a flat memory and no pointers. -/
def serveFlat (t : Targets Memory) : Act → Option (Targets Memory×Answer)
  | .access p =>
    let r := access respondFlat t p
    some (r.1,.handed r.2)
  | .edge =>
    match edge respondFlat t with
    | .ok t' => some (t',.silent)
    | .error _ => none
  | .request _ _ _ => some (t,.silent)
  | .direct _ p =>
    let r := access respondFlat t p
    some (r.1,seen r.2)

/-- The state of the platform after an act. -/
def proceed (s : Platform) (e : Act) : Option Platform := (serve s e).map Prod.fst

/-- The platform after construction. -/
def start (dma : SingleDma.DMA) : Platform := ⟨⟨⟨platformRam,[],false⟩,dma⟩,fun _ => []⟩

/-- Accesses have bytes. The processor asks for a direct pointer only to bytes
of the RAM, where an access has offered one, and its addresses have 32 bits. -/
def Proper : Act → Prop
  | .access p => p.dataLength≠0
  | .edge => True
  | .request _ addr bytes => bytes≠0 ∧ 0x10≤addr.toNat ∧ addr.toNat+bytes.toNat≤2^32
  | .direct _ p => p.dataLength≠0 ∧ p.address.toNat+p.dataLength.toNat≤2^32

section Simulation

variable {M N : Type*} {bus : Bus M} {bus' : Bus N} {R : M → N → Prop} {P : Payload → Prop}

/-- An iteration of the process on two buses that answer its accesses alike:
both report the same error, or both go on with the same controller and
transactions. -/
theorem dmaP_alike (h : Agree bus bus' R P) {m : M} {n : N} (hR : R m n) {s : SingleDma.DMA}
    (hP : s.Moving → ∀ data,P (s.readPayload data) ∧ P (s.writePayload data)) :
    (∃ r,SingleDma.dmaP bus m s=.error r ∧ SingleDma.dmaP bus' n s=.error r) ∨
    ∃ dma m' n' txns,SingleDma.dmaP bus m s=.ok (dma,m',txns) ∧
      SingleDma.dmaP bus' n s=.ok (dma,n',txns) ∧ R m' n' := by
  unfold SingleDma.dmaP
  by_cases hs : (!s.startClear)=true
  · rw [if_pos hs,if_pos hs]
    exact Or.inr ⟨_,m,n,_,rfl,rfl,hR⟩
  rw [if_neg hs,if_neg hs]
  by_cases ho : 0 < s.size.setWidth 64-s.offset.setWidth 64
  · rw [Bool.not_eq_true',Bool.not_eq_false] at hs
    have hword := hP ⟨hs,(TransferEngine.stop_test _ _).mp ho⟩
    obtain ⟨hr,hra⟩ := h m n _ hR (hword s.dataS).1
    obtain ⟨hw,hwa⟩ := h _ _ _ hr
      (hword ((bus.bTransport m (s.readPayload s.dataS)).2.fill s.dataS)).2
    rw [if_pos ho,if_pos ho]
    dsimp only
    rw [←hra,←hwa]
    split_ifs
    · exact Or.inl ⟨_,rfl,rfl⟩
    · exact Or.inl ⟨_,rfl,rfl⟩
    · exact Or.inr ⟨_,_,_,_,rfl,rfl,hw⟩
  · rw [if_neg ho,if_neg ho]
    exact Or.inr ⟨_,m,n,_,rfl,rfl,hR⟩

end Simulation

/-- The RAM in the course of a step, next to a flat memory: nothing has been
aborted, the bytes are the same, and the segments from before the step are
there or have been invalidated. -/
structure Tracks (x₀ : Cell) (t : Targets Cell) (u : Targets Memory) : Prop where
  /-- Segments and invariant. -/
  kept : Kept 20 x₀.ram t.ram1.ram t.ram1.invalidated
  /-- The RAM is built as the one of the platform. -/
  built : shape x₀.ram=shape platformRam
  /-- The bytes. -/
  contents : contents t.ram1.ram=u.ram1
  /-- No abort. -/
  alive : t.ram1.aborted=false
  /-- The controllers are the same. -/
  dma : t.dma=u.dma

section Step

variable {x₀ : Cell} {t : Targets Cell} {u : Targets Memory}

/-- The size of the RAM in the course of a step. -/
theorem Tracks.maxAddress (h : Tracks x₀ t u) : t.ram1.ram.maxAddress=0xffffffef :=
  congrArg Prod.fst (h.kept.shape.trans h.built)

/-- An access is answered alike and keeps both sides together. -/
theorem access_tracks (h : Tracks x₀ t u) {p : GenericPayload} (hp : p.dataLength≠0) :
    Tracks x₀ (access respond t p).1 (access respondFlat u p).1 ∧
      (access respond t p).2=(access respondFlat u p).2 := by
  rw [access_lookup,access_lookup]
  cases hl : lookup addressMap p.address with
  | none => exact ⟨h,rfl⟩
  | some v =>
    obtain ⟨l,offset⟩ := v
    cases l with
    | dma =>
      dsimp only [reach,call]
      rw [h.dma]
      exact ⟨⟨h.kept,h.built,h.contents,h.alive,rfl⟩,rfl⟩
    | ram1 =>
      have hlen := p.dataLength.isLt
      have hoffset : offset.toNat<2^32 := by
        obtain ⟨m,hm,hin,rfl⟩ := lookup_some hl
        rcases List.mem_pair.mp hm with he|he
        · obtain ⟨rfl,_⟩ := Prod.mk.inj he
          exact (PortMapping.offsetInto_le hin).trans_lt (by decide)
        · cases (Prod.mk.inj he).2
      obtain ⟨r',reply,hr,hkept,hflat⟩ := transport_spec (p := {p with address := offset})
        h.kept.coherent ⟨by dsimp only; omega,fun hz => absurd hz hp⟩
      have hdmi : t.ram1.ram.dmiOn=true :=
        congrArg (fun y => y.2.2.2) (h.kept.shape.trans h.built)
      rw [h.maxAddress,hdmi,h.contents] at hflat
      dsimp only [reach,call,respond,PlatformMemory.respond,respondFlat]
      rw [hr,hflat]
      exact ⟨⟨h.kept.trans hkept,h.built,rfl,h.alive,h.dma⟩,rfl⟩

/-- A clock edge stops both platforms, or neither. -/
theorem edge_tracks (h : Tracks x₀ t u) :
    (∃ r,edge respond t=.error r ∧ edge respondFlat u=.error r) ∨
    ∃ t' u',edge respond t=.ok t' ∧ edge respondFlat u=.ok u' ∧ Tracks x₀ t' u' := by
  have hagree : Agree (masterBus respond) (masterBus respondFlat) (Tracks x₀) fun _ => True := by
    intro t u p hR _
    obtain ⟨hR',hanswer⟩ := access_tracks hR (p := masterPayload p)
      (by change (4 : BitVec 32)≠0; decide)
    refine ⟨hR',?_⟩
    dsimp only [masterBus]
    rw [hanswer]
  unfold edge
  rw [←h.dma]
  rcases dmaP_alike hagree h (s := t.dma) fun _ _ => ⟨trivial,trivial⟩ with ⟨r,hr,hr'⟩|⟨dma,t',u',txns,ht,hu,hR⟩
  · exact Or.inl ⟨r,by rw [hr]; rfl,by rw [hr']; rfl⟩
  · refine Or.inr ⟨{t' with dma := {dma with regmem := t'.dma.regmem}},
      {u' with dma := {dma with regmem := u'.dma.regmem}},by rw [ht]; rfl,by rw [hu]; rfl,
      hR.kept,hR.built,hR.contents,hR.alive,?_⟩
    dsimp only
    rw [hR.dma]

end Step

/-- A pointer leads to a segment of the RAM behind its window. -/
def Valid (t : Targets Cell) (d : Held) : Prop :=
  ∃ s,Shows t.ram1.ram ramWindow d.startAddress d.endAddress d.dmiPtr s

/-- The invariant between the platform and the one with a flat memory. -/
structure Matches (s : Platform) (u : Targets Memory) : Prop where
  /-- The RAM keeps its invariant. -/
  coherent : Coherent 20 s.targets.ram1.ram
  /-- It is built as it was. -/
  built : shape s.targets.ram1.ram=shape platformRam
  /-- The initiators have been told. -/
  quiet : s.targets.ram1.invalidated=[]
  /-- Nothing has been aborted. -/
  alive : s.targets.ram1.aborted=false
  /-- The bytes are the same. -/
  contents : contents s.targets.ram1.ram=u.ram1
  /-- The controllers are the same. -/
  dma : s.targets.dma=u.dma
  /-- Every pointer that the processor holds is safe to use. -/
  held : ∀ port,∀ d∈s.held port,Valid s.targets d

section Pointers

variable {s : Platform} {t : Targets Cell} {u u' : Targets Memory}

/-- What is left after a series of invalidations. -/
theorem mem_killed {vs : List Invalidation} {held : List Held} {d : Held} :
    d∈vs.foldl (fun held v => killDMI v held) held ↔
      d∈held ∧ ∀ v∈vs,¬(d.startAddress≤v.2 ∧ v.1≤d.endAddress) := by
  induction vs generalizing held with
  | nil => exact ⟨fun h => ⟨h,fun v hv => nomatch hv⟩,fun h => h.1⟩
  | cons v vs ih =>
    rw [List.foldl_cons,ih,List.forall_mem_cons,←and_assoc]
    refine and_congr_left fun _ => ?_
    rw [killDMI,List.mem_filter,decide_eq_true_eq]

/-- A step begins with the RAM as it is. -/
theorem Matches.begin (h : Matches s u) : Tracks s.targets.ram1 s.targets u :=
  ⟨by rw [h.quiet]; exact Kept.refl h.coherent,h.built,h.contents,h.alive,h.dma⟩

/-- A step ends without an abort, and the pointers that are left are safe. -/
theorem Matches.settle (h : Matches s u) (hR : Tracks s.targets.ram1 t u') (a : Answer) :
    settle ⟨t,s.held⟩ a=some (deliver ⟨t,s.held⟩,a) ∧ Matches (deliver ⟨t,s.held⟩) u' := by
  refine ⟨if_neg (by rw [hR.alive]; decide),hR.kept.coherent,hR.kept.shape.trans h.built,rfl,
    hR.alive,hR.contents,hR.dma,fun port d hd => ?_⟩
  obtain ⟨hmem,hapart⟩ := mem_killed.mp hd
  obtain ⟨g,hg⟩ := h.held port d hmem
  obtain ⟨g',hg'⟩ := hg.kept hR.kept (by
    rw [show s.targets.ram1.ram.maxAddress=0xffffffef from congrArg Prod.fst h.built]
    decide) fun v hv => hapart _ (List.mem_flatMap.mpr ⟨v,hv,List.mem_singleton.mpr rfl⟩)
  exact ⟨g',hg'.member,hg'.index,hg'.start,hg'.order,hg'.stop⟩

/-- A pointer that is safe to use may be kept. -/
theorem Matches.keep (h : Matches s u) {port : MasterPort} {result : Option Held}
    (hvalid : ∀ d∈result,Valid s.targets d) : Matches (keep s port result) u := by
  refine ⟨h.coherent,h.built,h.quiet,h.alive,h.contents,h.dma,fun port' d hd => ?_⟩
  dsimp only [SinglePlatform.keep] at hd ⊢
  by_cases hport : port'=port
  · subst hport
    rw [Function.update_self] at hd
    rcases List.mem_append.mp hd with hd|hd
    · exact hvalid d (Option.mem_toList.mp hd)
    · exact h.held _ d hd
  · rw [Function.update_of_ne hport] at hd
    exact h.held _ d hd

/-- The window of the RAM is the first one. -/
theorem lookup_ram {a : BitVec 64} (hlo : 0x10≤a.toNat) (hhi : a.toNat<2^32) :
    lookup addressMap a=some (.ram1,ramWindow.offsetInto a) := by
  refine if_pos ?_
  rw [PortMapping.inRegion,Bool.and_eq_true,decide_eq_true_eq,decide_eq_true_eq]
  exact ⟨BitVec.le_def.mpr hlo,BitVec.le_def.mpr (Nat.le_of_lt_succ hhi)⟩

/-- The distance from the start of the window. -/
theorem offset_toNat {a : BitVec 64} (hlo : 0x10≤a.toNat) :
    (ramWindow.offsetInto a).toNat=a.toNat-0x10 :=
  BitVec.toNat_sub_of_le (BitVec.le_def.mpr hlo)

/-- A payload whose bytes are decoded is executed by the flat memory. -/
theorem respondFlat_ok (m : Memory) {p : GenericPayload} (hlen : p.dataLength≠0)
    (hlast : p.address.toNat+p.dataLength.toNat≤0xfffffff0) :
    respondFlat m p=((flatExecute m p).1,{(flatExecute m p).2.1 with
      responseStatus := if (flatExecute m p).2.2 then .okResponse else .commandErrorResponse}) := by
  have hpos : p.dataLength.toNat≠0 := fun hz => hlen (BitVec.eq_of_toNat_eq hz)
  have hc : p.address+length p-1≤0xffffffef := by
    rw [BitVec.le_def,BitVec.toNat_sub,BitVec.toNat_add,length_toNat]
    change (2^64-1+(p.address.toNat+p.dataLength.toNat)%2^64)%2^64≤0xffffffef
    omega
  dsimp only [respondFlat,flatServe]
  rw [if_pos hc]

/-- An access to bytes of the RAM is one of the flat memory. -/
theorem access_ram (u : Targets Memory) {p : GenericPayload} (hlen : p.dataLength≠0)
    (hlo : 0x10≤p.address.toNat) (hhi : p.address.toNat+p.dataLength.toNat≤2^32) :
    access respondFlat u p=
      (let r := flatExecute u.ram1 {p with address := ramWindow.offsetInto p.address}
      ({u with ram1 := r.1},{r.2.1 with
        responseStatus := if r.2.2 then .okResponse else .commandErrorResponse})) := by
  have hpos : p.dataLength.toNat≠0 := fun hz => hlen (BitVec.eq_of_toNat_eq hz)
  rw [access_lookup,lookup_ram hlo (by omega)]
  dsimp only [reach,call]
  rw [respondFlat_ok u.ram1 (p := {p with address := ramWindow.offsetInto p.address}) hlen (by
    dsimp only
    rw [offset_toNat hlo]
    omega)]

/-- An access through a pointer does what the bus does. -/
theorem direct_spec (h : Matches s u) {d : Held} (hvalid : Valid s.targets d)
    {p : GenericPayload} (hp : Covers p d) (hlen : p.dataLength≠0)
    (hhi : p.address.toNat+p.dataLength.toNat≤2^32) :
    ∃ t buffer,throughPointer s.targets d p=some (t,buffer) ∧
      Tracks s.targets.ram1 t (access respondFlat u p).1 ∧
      seen (access respondFlat u p).2=.data buffer true := by
  obtain ⟨g,hg⟩ := hvalid
  obtain ⟨hcommand,hlo,hstop⟩ := hp
  have hlow : 0x10≤p.address.toNat := by
    have hstart := hg.start
    have hlo' := BitVec.le_def.mp hlo
    rw [show ramWindow.lo.toNat=0x10 from rfl] at hstart
    omega
  obtain ⟨r',q,hexec,hpointer,hkept⟩ := hg.access h.coherent hcommand hlo hstop
  rw [h.contents] at hexec
  rw [access_ram u hlen hlow hhi,hexec]
  let c : Cell := {s.targets.ram1 with ram := r'}
  refine ⟨{s.targets with ram1 := c},q.buffer,by rw [throughPointer,hpointer]; rfl,
    ⟨?_,h.built,rfl,h.alive,h.dma⟩,rfl⟩
  change Kept 20 _ r' s.targets.ram1.invalidated
  rw [h.quiet]
  exact hkept

/-- The targets after a request that has left the RAM behind. -/
def asked (t : Targets Cell) (r' : TlmRam) (invalid : List Invalidation) : Targets Cell :=
  let c : Cell := {t.ram1 with ram := r',invalidated := t.ram1.invalidated++invalid}
  {t with ram1 := c}

/-- The decoder passes a request for bytes of the RAM on, and moves the range of
the segment to the window. -/
theorem getDMIPointer_ram {p : GenericPayload} (hlo : 0x10≤p.address.toNat)
    (hhi : p.address.toNat<2^32) {r' : TlmRam} {reply : Reply} {g : MemorySegment}
    (hask : t.ram1.ram.getDirectMemPtr {p with address := ramWindow.offsetInto p.address}=
      some (r',reply,some ⟨g.base,g.top,g.index⟩))
    (hbase : g.base ≤ ramWindow.offsetInto p.address) (htop : ramWindow.offsetInto p.address≤g.top)
    {a b : BitVec 64} (hadjust : adjustRange ramWindow g.base g.top=some (a,b)) :
    getDMIPointer dmiBus1 t p=some (asked t r' reply.invalidated,some ⟨a,b,g.index⟩) := by
  have hin : ramWindow.inRegion p.address=true := by
    rw [PortMapping.inRegion,Bool.and_eq_true,decide_eq_true_eq,decide_eq_true_eq]
    exact ⟨BitVec.le_def.mpr hlo,BitVec.le_def.mpr (Nat.le_of_lt_succ hhi)⟩
  have hfind : getMapping [ramWindow] p.address=some ramWindow := List.find?_cons_of_pos hin
  rw [getDMIPointer,dmiBus1,getDmiPort]
  dsimp only
  rw [hfind]
  dsimp only [leafDmi]
  rw [hask]
  dsimp only [Option.bind_eq_bind,Option.bind_some,Option.map_some]
  rw [if_pos ⟨hbase,htop⟩,hadjust]
  rfl

/-- A request for bytes of the RAM changes none, and the pointer is safe. -/
theorem request_spec (h : Matches s u) {port : MasterPort} {addr : BitVec 64} {bytes : BitVec 32}
    (hreq : Proper (.request port addr bytes)) :
    ∃ t d,getDMI dmiBus1 s.targets addr bytes=some (t,some d) ∧
      Tracks s.targets.ram1 t u ∧ Valid t d := by
  obtain ⟨hbytes,hlo,hhi⟩ := hreq
  have hpos : bytes.toNat≠0 := fun hz => hbytes (BitVec.eq_of_toNat_eq hz)
  have hmax : s.targets.ram1.ram.maxAddress=0xffffffef := congrArg Prod.fst h.built
  have hoff := offset_toNat hlo
  let ask (command : Command) : GenericPayload :=
    {dmiRequest command addr bytes with address := ramWindow.offsetInto addr}
  have hdecoded : Decoded s.targets.ram1.ram (ask .read) := ⟨hbytes,by
    change (ramWindow.offsetInto addr).toNat+bytes.toNat≤_
    rw [hoff,hmax]
    change _≤0xffffffef+1
    omega⟩
  -- the request for writing finds the segment of the one for reading
  obtain ⟨r',reply,reply',g,hread,hwrite,hquiet,hkept,hcontents,hagain,hg,hbase,htop,_⟩ :=
    @ask_twice 20 s.targets.ram1.ram (ask .read) (ask .write) h.coherent hdecoded rfl rfl
  have hbound := hkept.coherent.bounded g hg
  rw [show r'.maxAddress=0xffffffef from congrArg Prod.fst (hkept.shape.trans h.built)] at hbound
  change g.top.toNat<0xffffffef+2^20 at hbound
  obtain ⟨a,b,hadjust,hstart,horder,hstop,_,_⟩ :=
    @adjustRange_some ramWindow g.base g.top (BitVec.le_trans hbase htop) (by decide) (by
      change g.top.toNat+0xffffffff<2^64
      omega)
  have hfirst := getDMIPointer_ram (t := s.targets) (p := dmiRequest .read addr bytes) hlo
    (by change addr.toNat<2^32; omega) hread hbase htop hadjust
  have hsecond := getDMIPointer_ram (t := asked s.targets r' reply.invalidated)
    (p := dmiRequest .write addr bytes) hlo (by change addr.toNat<2^32; omega) hwrite hbase htop
    hadjust
  refine ⟨asked (asked s.targets r' reply.invalidated) {r' with cache := some g.index}
      reply'.invalidated,⟨a,b,g.index⟩,?_,
    ⟨?_,h.built,hcontents.trans h.contents,h.alive,h.dma⟩,g,hg,rfl,hstart,horder,hstop⟩
  · rw [getDMI,hfirst]
    dsimp only [Option.bind_eq_bind,Option.bind_some]
    rw [hsecond]
    exact if_pos ⟨rfl,rfl⟩
  · dsimp only [asked]
    rw [h.quiet,hquiet]
    exact hkept.trans hagain

end Pointers

section Run

variable {s : Platform} {u : Targets Memory} {e : Act}

/-- The step lemma: the two platforms end together in an error report, or answer
an act alike and still match. -/
theorem serve_matches (h : Matches s u) (he : Proper e) :
    (serve s e=none ∧ serveFlat u e=none ∧ ∃ r,e=.edge ∧ edge respond s.targets=.error r) ∨
    ∃ s' u' a,serve s e=some (s',a) ∧ serveFlat u e=some (u',a) ∧ Matches s' u' := by
  cases e with
  | access p =>
    obtain ⟨hR,hanswer⟩ := access_tracks h.begin (show p.dataLength≠0 from he)
    obtain ⟨hs,hm⟩ := h.settle hR (.handed (access respond s.targets p).2)
    refine Or.inr ⟨_,_,_,hs,?_,hm⟩
    rw [hanswer]
    rfl
  | edge =>
    rcases edge_tracks h.begin with ⟨r,hr,hr'⟩|⟨t',u',ht,hu,hR⟩
    · exact Or.inl ⟨by rw [serve,hr],by rw [serveFlat,hr'],r,rfl,hr⟩
    · obtain ⟨hs,hm⟩ := h.settle hR .silent
      exact Or.inr ⟨_,_,_,by rw [serve,ht]; exact hs,by rw [serveFlat,hu],hm⟩
  | request port addr bytes =>
    obtain ⟨t,d,hget,hR,hvalid⟩ := request_spec h he
    obtain ⟨hs,hm⟩ := h.settle hR .silent
    have hkept : Matches (keep (deliver ⟨t,s.held⟩) port (some d)) u := hm.keep fun d' hd' => by
      cases hd'
      obtain ⟨g,hg⟩ := hvalid
      exact ⟨g,hg.member,hg.index,hg.start,hg.order,hg.stop⟩
    refine Or.inr ⟨_,_,_,?_,rfl,hkept⟩
    dsimp only [serve,Option.bind_eq_bind]
    rw [hget]
    dsimp only [Option.bind_some]
    rw [hs]
    rfl
  | direct port p =>
    obtain ⟨hlen,hhi⟩ := he
    cases hfind : (s.held port).find? fun d => decide (Covers p d) with
    | some d =>
      have hcovers : decide (Covers p d)=true :=
        @List.find?_some _ (fun d => decide (Covers p d)) d _ hfind
      obtain ⟨t,buffer,hthrough,hR,hseen⟩ :=
        direct_spec h (h.held port d (List.mem_of_find?_eq_some hfind)) (of_decide_eq_true hcovers)
          hlen hhi
      obtain ⟨hs,hm⟩ := h.settle hR (.data buffer true)
      refine Or.inr ⟨_,_,.data buffer true,?_,?_,hm⟩
      · dsimp only [serve,Option.bind_eq_bind]
        rw [hfind]
        dsimp only
        rw [hthrough]
        exact hs
      · dsimp only [serveFlat]
        rw [hseen]
    | none =>
      obtain ⟨hR,hanswer⟩ := access_tracks h.begin hlen
      obtain ⟨hs,hm⟩ := h.settle hR (seen (access respond s.targets p).2)
      refine Or.inr ⟨_,_,seen (access respond s.targets p).2,?_,?_,hm⟩
      · dsimp only [serve]
        rw [hfind]
        exact hs
      · rw [hanswer]
        rfl

/-- The two platforms match after construction. -/
theorem start_matches (dma : SingleDma.DMA) : Matches (start dma) ⟨fun _ => 0,dma⟩ :=
  ⟨tlmRam_coherent true (by decide) (by decide),rfl,rfl,rfl,tlmRam_contents true,rfl,
    fun _ _ hd => nomatch hd⟩

/-- An act that is not refused keeps a match. -/
theorem proceed_matches (h : ∃ u,Matches s u) (he : Proper e) {s' : Platform}
    (hs : proceed s e=some s') : ∃ u',Matches s' u' := by
  obtain ⟨u,hm⟩ := h
  rcases serve_matches hm he with ⟨hnone,_⟩|⟨v,u',a,hv,_,hm'⟩
  · rw [proceed,hnone] at hs
    cases hs
  · rw [proceed,hv] at hs
    cases hs
    exact ⟨u',hm'⟩

/-- The run lemma. -/
theorem run_matches (h : Matches s u) {acts : List Act} (hproper : ∀ e∈acts,Proper e)
    {s' : Platform} (hrun : run proceed s acts=some s') : ∃ u',Matches s' u' := by
  have hstart : ∃ u,Matches s u := ⟨u,h⟩
  exact run_invariant_of (fun _ _ _ hm he hs => proceed_matches hm he hs) hstart hproper hrun

end Run

/-- From construction, with any controller: whatever the processor, its direct
pointers and the controller do, in any order, every answer is the one that a
flat memory without direct pointers gives. No assertion fails and no pointer is
followed into a segment that is gone: what ends a run is the error report of
the controller after an access of its own has failed. -/
theorem single_platform_flat (dma : SingleDma.DMA) {acts : List Act} (h : ∀ e∈acts,Proper e) :
    answers serve (start dma) acts=answers serveFlat ⟨fun _ => 0,dma⟩ acts ∧
      ∀ pre e post s,acts=pre++e::post → run proceed (start dma) pre=some s → serve s e=none →
        ∃ r,e=.edge ∧ edge respond s.targets=.error r := by
  refine ⟨answers_lockstep (P := Proper) (R := Matches) (fun s u e hm he => ?_)
    (start_matches dma) h,fun pre e post s hsplit hrun hnone => ?_⟩
  · rcases serve_matches hm he with ⟨hs,hu,_⟩|hboth
    · exact Or.inl ⟨hs,hu⟩
    · exact Or.inr hboth
  · have hpre : ∀ f∈pre,Proper f := fun f hf => h f (hsplit ▸ List.mem_append_left _ hf)
    have he : Proper e := h e (hsplit ▸ List.mem_append_right _ List.mem_cons_self)
    obtain ⟨u,hm⟩ := run_matches (start_matches dma) hpre hrun
    rcases serve_matches hm he with ⟨_,_,hreport⟩|⟨s',u',a,hs,_,_⟩
    · exact hreport
    · cases hnone.symm.trans hs

/-- The processor takes a direct pointer to the bytes above the registers and
writes through it. An access over the bus then crosses the end of the page, so
that its segment is replaced, and the bytes are read again. -/
def demoActs : List Act :=
  [.request .data 0x10 4,.direct .data (byteAccess .write 0x12 0x5a),
    .access ⟨.write,0x10000e,fun _ => 1,4,none,4,.incompleteResponse⟩,
    .direct .data (byteAccess .read 0x12 0)]

/-- The flat platform answers the same. -/
theorem single_platform_flat_page :
    answers serve (start (SingleDma.init 0 0)) demoActs=
      answers serveFlat ⟨fun _ => 0,SingleDma.init 0 0⟩ demoActs := by
  refine (single_platform_flat (SingleDma.init 0 0) fun e he => ?_).1
  simp only [demoActs,List.mem_cons,List.not_mem_nil,or_false] at he
  rcases he with rfl|rfl|rfl|rfl
  · exact ⟨by decide,by decide,by decide⟩
  · exact ⟨by decide,by decide⟩
  · exact (by decide : (4 : BitVec 32)≠0)
  · exact ⟨by decide,by decide⟩

end SystemCDma.SinglePlatform
