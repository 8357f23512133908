import SystemCDma.DirectMemory
import SystemCDma.PlatformSimulation

/-!
# The memories of the two-processor platform

The platform with its sparse RAMs and with processors that keep direct pointers
into their own RAMs, next to the same platform with flat memories and no
pointers. Both give every initiator the same answers, in whatever order the
processors, their pointers and the controller take their turns.
-/

namespace SystemCDma.PlatformMemory

open ByteMemory EventRun TlmBus TlmDecoder RangeList TlmMemory SparseMemory FlatMemory
open DirectMemory BareMetal PlatformSimulation
open DualDma (Side)

/-- A RAM of the platform after construction. -/
def platformRam : TlmRam := tlmRam 0x100000 true false

/-- A RAM of the platform in the course of a step. -/
structure Cell where
  /-- The RAM. -/
  ram : TlmRam
  /-- The ranges it has invalidated since the initiators were last told. -/
  invalidated : List Invalidation
  /-- The program has been aborted in this RAM. -/
  aborted : Bool

/-- The transport call of a sparse RAM. -/
def respond (_ : Ram) (c : Cell) (p : GenericPayload) : Cell×GenericPayload :=
  match c.ram.customBTransport p with
  | some (r,reply) =>
    ({c with ram := r,invalidated := c.invalidated++reply.invalidated},reply.payload)
  | none => ({c with aborted := true},p)

/-- The transport call of a flat memory. -/
def respondFlat (_ : Ram) (m : Memory) (p : GenericPayload) : Memory×GenericPayload :=
  match flatServe 0x100000 true m (.transport p) with
  | some (m',handed) => (m',handed.payload)
  | none => (m,p)

/-- The two master ports of a processor. -/
inductive MasterPort where
  | instruction
  | data
  deriving DecidableEq,Repr

/-- A direct pointer of a processor: the RAM and the segment it leads to. -/
abbrev Held := DmiData (Ram×ℕ)

/-- The platform: the bus targets, and the direct pointers kept for each port. -/
structure Platform where
  /-- The RAMs and the controller. -/
  targets : Targets Cell
  /-- The direct pointers. -/
  held : Side → MasterPort → List Held

/-- A request for a direct pointer at a leaf. The controller offers none. -/
def leafDmi : Leaf → Targets Cell → GenericPayload → Option (Targets Cell×Option Held)
  | .ram r,t,p => do
    let (r',reply,dmi) ← (t.ram r).ram.getDirectMemPtr p
    let c := {t.ram r with ram := r',invalidated := (t.ram r).invalidated++reply.invalidated}
    some ({t with ram := Function.update t.ram r c},
      dmi.map fun d => ⟨d.startAddress,d.endAddress,(r,d.dmiPtr)⟩)
  | .dma,t,_ => some (t,none)

/-- The common bus, for requests for direct pointers. -/
def dmiBusM : List (DmiPort (Targets Cell) (Ram×ℕ)) :=
  [⟨[⟨0x200000,0x2fffff⟩],leafDmi (.ram .ram3)⟩,⟨[⟨0x300000,0x3fffff⟩],leafDmi (.ram .ram4)⟩,
    ⟨[⟨0x100000,0x10001f⟩],leafDmi .dma⟩]

/-- The bus of a processor, for requests for direct pointers. -/
def dmiBus (side : Side) : List (DmiPort (Targets Cell) (Ram×ℕ)) :=
  [⟨[],getDMIPointer dmiBusM⟩,⟨[⟨0x000000,0x0fffff⟩],leafDmi (.ram (lowRam side))⟩,
    ⟨[⟨0xfff00000,0xffffffff⟩],leafDmi (.ram (highRam side))⟩]

/-- What arrives at the ports of a processor of an invalidation in a RAM. From
the common bus it comes to a port without a window, and goes no further. -/
def arrivals (side : Side) (r : Ram) (v : Invalidation) : List Invalidation :=
  (own side).flatMap (fun w => if w.2=.ram r then invalidateDMIPointers [w.1] v else [])++
    (shared.flatMap fun w => if w.2=.ram r then invalidateDMIPointers [w.1] v else []).flatMap
      (invalidateDMIPointers [])

/-- The RAMs of the platform. -/
def rams : List Ram := [.ram1,.ram2,.ram3,.ram4,.ram1_1,.ram2_1]

/-- All that arrives at the ports of a processor in a step. -/
def arrived (t : Targets Cell) (side : Side) : List Invalidation :=
  rams.flatMap fun r => (t.ram r).invalidated.flatMap (arrivals side r)

/-- The processors give up the pointers into invalidated ranges. -/
def deliver (s : Platform) : Platform where
  targets := {s.targets with ram := fun r => {s.targets.ram r with invalidated := []}}
  held side port :=
    (arrived s.targets side).foldl (fun held v => killDMI v held) (s.held side port)

/-- A processor keeps a direct pointer that it has been given. -/
def keep (s : Platform) (side : Side) (port : MasterPort) (d : Option Held) : Platform :=
  let ports := Function.update (s.held side) port (d.toList++s.held side port)
  {s with held := Function.update s.held side ports}

/-- What happens on the platform. -/
inductive Act where
  /-- A transport call of any initiator. -/
  | access (i : Initiator) (p : GenericPayload)
  /-- A clock edge of the controller. -/
  | edge
  /-- A processor asks for a direct pointer and keeps it. -/
  | request (side : Side) (port : MasterPort) (addr : BitVec 64) (bytes : BitVec 32)
  /-- An access of a processor, through a pointer it has or else over the bus. -/
  | direct (side : Side) (port : MasterPort) (p : GenericPayload)

/-- What the initiator of an act sees of it. -/
inductive Answer where
  /-- The payload of a transport call, as handed back. -/
  | handed (p : GenericPayload)
  /-- The data of an access of a processor, and whether it succeeded. -/
  | data (buffer : Memory) (ok : Bool)
  /-- Nothing. -/
  | silent

/-- A pointer is good for all bytes of a read or a write. -/
def Covers (p : GenericPayload) (d : Held) : Prop :=
  p.command≠.ignore ∧ p.dataLength≠0 ∧ d.startAddress≤p.address ∧
    p.address.toNat+p.dataLength.toNat≤d.endAddress.toNat+1

instance (p : GenericPayload) (d : Held) : Decidable (Covers p d) :=
  inferInstanceAs (Decidable (_ ∧ _))

/-- An access through a pointer. -/
def throughPointer (t : Targets Cell) (d : Held) (p : GenericPayload) :
    Option (Targets Cell×Memory) :=
  let c := t.ram d.dmiPtr.1
  let offset := (p.address-d.startAddress).toNat
  if p.command=.read then do
    let buffer ← directRead c.ram d.dmiPtr.2 offset p.dataLength.toNat p.buffer
    some (t,buffer)
  else do
    let r ← directWrite c.ram d.dmiPtr.2 offset p.dataLength.toNat p.buffer
    some ({t with ram := Function.update t.ram d.dmiPtr.1 {c with ram := r}},p.buffer)

/-- The end of a step: nothing more happens after an abort. -/
def settle (s : Platform) (a : Answer) : Option (Platform×Answer) :=
  if rams.any fun r => (s.targets.ram r).aborted then none else some (deliver s,a)

/-- The answer of a bus access made for a processor. -/
def seen (p : GenericPayload) : Answer := .data p.buffer (decide (p.responseStatus=.okResponse))

/-- A step of the platform. -/
def serve (s : Platform) : Act → Option (Platform×Answer)
  | .access i p =>
    let r := access respond i s.targets p
    settle ⟨r.1,s.held⟩ (.handed r.2)
  | .edge => settle ⟨edge respond s.targets,s.held⟩ .silent
  | .request side port addr bytes => do
    let (t,result) ← getDMI (dmiBus side) s.targets addr bytes
    let (s',a) ← settle ⟨t,s.held⟩ .silent
    some (keep s' side port result,a)
  | .direct side port p =>
    match (s.held side port).find? fun d => decide (Covers p d) with
    | some d => do
      let (t,buffer) ← throughPointer s.targets d p
      settle ⟨t,s.held⟩ (.data buffer true)
    | none =>
      let r := access respond (.cpu side) s.targets p
      settle ⟨r.1,s.held⟩ (seen r.2)

/-- A step of the platform with flat memories and no pointers. -/
def serveFlat (t : Targets Memory) : Act → Option (Targets Memory×Answer)
  | .access i p =>
    let r := access respondFlat i t p
    some (r.1,.handed r.2)
  | .edge => some (edge respondFlat t,.silent)
  | .request _ _ _ _ => some (t,.silent)
  | .direct side _ p =>
    let r := access respondFlat (.cpu side) t p
    some (r.1,seen r.2)

/-- The platform after construction, with any controller. -/
def start (dma : DualDma.DMA) : Platform := ⟨⟨fun _ => ⟨platformRam,[],false⟩,dma⟩,fun _ _ => []⟩

/-- A processor asks for direct pointers only for addresses that its own RAMs
decode. -/
def Requested : Act → Prop
  | .request side _ addr bytes => ∀ l offset,lookup (own side) addr=some (l,offset) →
    bytes≠0 ∧ offset.toNat+bytes.toNat≤0x100001
  | _ => True

/-- A request for few bytes at the bottom of the address space is one of these. -/
theorem requested_low (side : Side) (port : MasterPort) : Requested (.request side port 0 4) := by
  intro l offset hl
  have hlow : lookup (own side) 0=some (.ram (lowRam side),0) := by cases side <;> decide
  cases hlow.symm.trans hl
  exact ⟨by decide,by decide⟩

section Cells

variable {x₀ : Ram → Cell}

/-- A cell in the course of a step, next to a flat memory: nothing has been
aborted, the bytes are the same, and the segments from before the step are
there or have been invalidated. -/
structure Tracks (x₀ : Ram → Cell) (r : Ram) (x : Cell) (m : Memory) : Prop where
  /-- Segments and invariant. -/
  kept : Kept 20 (x₀ r).ram x.ram x.invalidated
  /-- The bytes. -/
  contents : contents x.ram=m
  /-- No abort. -/
  alive : x.aborted=false

/-- All RAMs are built in the same way. -/
def Built (x₀ : Ram → Cell) : Prop := ∀ r,shape (x₀ r).ram=shape platformRam

/-- A payload inside a RAM may be of any length. -/
theorem admitted {p : GenericPayload} (h : p.address.toNat<0x100000) : Admitted 20 p := by
  have hlen := p.dataLength.isLt
  refine ⟨by omega,fun _ => ?_⟩
  by_cases hz : p.address=0
  · exact Or.inl hz
  · refine Or.inr fun hdvd => hz (BitVec.eq_of_toNat_eq ?_)
    exact Nat.eq_zero_of_dvd_of_lt hdvd h

/-- An access inside a RAM. -/
theorem responds (hbuilt : Built x₀) : Responds respond respondFlat (Tracks x₀) := by
  intro r x m p h hp
  obtain ⟨hkept,rfl,halive⟩ := h
  have hshape := hkept.shape.trans (hbuilt r)
  have hmax : x.ram.maxAddress=0x100000 := congrArg Prod.fst hshape
  have hdmi : x.ram.dmiOn=true := congrArg (fun y => y.2.2.2) hshape
  obtain ⟨r',reply,hr,hkept',hflat⟩ := transport_spec hkept.coherent (admitted hp)
  rw [hmax,hdmi] at hflat
  dsimp only [respond,respondFlat]
  rw [hr,hflat]
  exact ⟨⟨hkept.trans hkept',rfl,halive⟩,rfl⟩

end Cells

section Held

/-- A pointer of a processor leads to a segment of one of its own RAMs. It
begins where the window shows the segment, and ends in the segment and in the
window. -/
structure Leads (t : Targets Cell) (side : Side) (d : Held) (m : PortMapping)
    (s : MemorySegment) : Prop where
  /-- The RAM has a window on the bus of the processor. -/
  window : (m,Leaf.ram d.dmiPtr.1)∈own side
  /-- The segment is in the list of the RAM. -/
  member : s∈(t.ram d.dmiPtr.1).ram.head
  /-- It has the number in the pointer. -/
  index : s.index=d.dmiPtr.2
  /-- The pointer begins with the segment. -/
  start : d.startAddress.toNat=s.base.toNat+m.lo.toNat
  /-- Its range is not empty. -/
  order : d.startAddress≤d.endAddress
  /-- It ends in the segment. -/
  stop : d.endAddress.toNat≤ s.top.toNat+m.lo.toNat
  /-- It ends in the window. -/
  inside : d.endAddress.toNat≤ m.hi.toNat

/-- A pointer that is safe to use. -/
def Valid (t : Targets Cell) (side : Side) (d : Held) : Prop := ∃ m s,Leads t side d m s

/-- What is left after a series of invalidations. -/
theorem mem_killed {vs : List Invalidation} {held : List Held} {d : Held} :
    d∈vs.foldl (fun held v => killDMI v held) held ↔
      d∈held ∧ ∀ v∈vs,¬(d.startAddress≤v.2 ∧ v.1≤d.endAddress) := by
  induction vs generalizing held with
  | nil => exact ⟨fun h => ⟨h,fun v hv => nomatch hv⟩,fun h => h.1⟩
  | cons v vs ih =>
    rw [List.foldl_cons,ih,List.forall_mem_cons,←and_assoc]
    refine and_congr_left fun _ => ?_
    rw [killDMI,List.mem_filter,decide_eq_true_eq]

/-- Every RAM is in the list. -/
theorem mem_rams (r : Ram) : r∈rams := by
  cases r <;> decide

/-- An invalidation in an own RAM arrives, moved to its window. -/
theorem mem_arrived {t : Targets Cell} {side : Side} {r : Ram} {m : PortMapping}
    (hm : (m,Leaf.ram r)∈own side) {v : Invalidation} (hv : v∈(t.ram r).invalidated) :
    (offsetOutOf m v.1,offsetOutOf m v.2)∈arrived t side := by
  refine List.mem_flatMap.mpr ⟨r,mem_rams r,List.mem_flatMap.mpr ⟨v,hv,?_⟩⟩
  refine List.mem_append_left _ (List.mem_flatMap.mpr ⟨_,hm,?_⟩)
  rw [if_pos rfl]
  exact List.mem_singleton.mpr rfl

/-- The windows of a processor leave room above them. -/
theorem window_room {side : Side} : ∀ w∈own side,w.1.lo≤w.1.hi ∧ w.1.hi.toNat<2^32 := by
  cases side <;> decide

/-- A pointer that was valid before a step and is kept after it is valid. -/
theorem valid_kept {x₀ : Ram → Cell} {dma : DualDma.DMA} {t : Targets Cell} {side : Side}
    {d : Held} (hbuilt : Built x₀) (hkept : ∀ r,Kept 20 (x₀ r).ram (t.ram r).ram (t.ram r).invalidated)
    (hvalid : Valid ⟨x₀,dma⟩ side d)
    (hd : ∀ v∈arrived t side,¬(d.startAddress≤v.2 ∧ v.1≤d.endAddress)) : Valid t side d := by
  obtain ⟨m,s,hl⟩ := hvalid
  have hmem : s∈(x₀ d.dmiPtr.1).ram.head := hl.member
  rcases (hkept d.dmiPtr.1).kept s hmem with ⟨u,hu,hui,hur⟩|⟨v,hv,hlo,hhi⟩
  · have hbase : u.base.toNat=s.base.toNat := congrArg Range.lo hur
    have htop : u.top.toNat=s.top.toNat := congrArg Range.hi hur
    exact ⟨m,u,hl.window,hu,hui.trans hl.index,by rw [hbase]; exact hl.start,hl.order,
      by rw [htop]; exact hl.stop,hl.inside⟩
  · -- the invalidation would have met the pointer
    exfalso
    refine hd _ (mem_arrived hl.window hv) ?_
    obtain ⟨hmle,hmhi⟩ := window_room _ hl.window
    have hlimit := (hkept d.dmiPtr.1).limited v hv
    rw [show (x₀ d.dmiPtr.1).ram.maxAddress=0x100000 from congrArg Prod.fst (hbuilt _)] at hlimit
    change v.2.toNat<0x100000+2^20 at hlimit
    rw [BitVec.le_def] at hmle
    change m.lo.toNat≤ m.hi.toNat at hmle
    change m.hi.toNat<2^32 at hmhi
    change v.1.toNat≤ s.base.toNat at hlo
    change s.top.toNat≤v.2.toNat at hhi
    have hstart := hl.start
    have hstop := hl.stop
    have horder := hl.order
    rw [BitVec.le_def] at horder
    have h₁ : (offsetOutOf m v.1).toNat=v.1.toNat+m.lo.toNat := by
      rw [offsetOutOf,BitVec.toNat_add]
      exact Nat.mod_eq_of_lt (by omega)
    have h₂ : (offsetOutOf m v.2).toNat=v.2.toNat+m.lo.toNat := by
      rw [offsetOutOf,BitVec.toNat_add]
      exact Nat.mod_eq_of_lt (by omega)
    rw [BitVec.le_def,BitVec.le_def,h₁,h₂]
    omega

/-- Telling the initiators moves no segment. -/
theorem valid_deliver {s : Platform} {side : Side} {d : Held} (h : Valid s.targets side d) :
    Valid (deliver s).targets side d := by
  obtain ⟨m,u,hl⟩ := h
  exact ⟨m,u,hl.window,hl.member,hl.index,hl.start,hl.order,hl.stop,hl.inside⟩

end Held

/-- The invariant between the platform and the one with flat memories. -/
structure Matches (s : Platform) (t : Targets Memory) : Prop where
  /-- Every RAM keeps its invariant. -/
  coherent : ∀ r,Coherent 20 (s.targets.ram r).ram
  /-- The RAMs are built in the same way. -/
  built : Built s.targets.ram
  /-- All initiators have been told. -/
  quiet : ∀ r,(s.targets.ram r).invalidated=[]
  /-- Nothing has been aborted. -/
  alive : ∀ r,(s.targets.ram r).aborted=false
  /-- The bytes are the same. -/
  contents : ∀ r,contents (s.targets.ram r).ram=t.ram r
  /-- The controllers are the same. -/
  dma : s.targets.dma=t.dma
  /-- Every pointer that a processor holds is safe to use. -/
  held : ∀ side port,∀ d∈s.held side port,Valid s.targets side d

section Step

variable {s : Platform} {t t' : Targets Memory} {t₁ : Targets Cell}

/-- A step begins with all RAMs as they are. -/
theorem Matches.begin (h : Matches s t) : Related (Tracks s.targets.ram) s.targets t :=
  ⟨fun r => ⟨by rw [h.quiet r]; exact Kept.refl (h.coherent r),h.contents r,h.alive r⟩,h.dma⟩

/-- A step ends without an abort, and the pointers that are left are safe. -/
theorem Matches.settle (h : Matches s t) (hR : Related (Tracks s.targets.ram) t₁ t')
    (a : Answer) : settle ⟨t₁,s.held⟩ a=some (deliver ⟨t₁,s.held⟩,a) ∧
      Matches (deliver ⟨t₁,s.held⟩) t' := by
  have halive : ¬(rams.any fun r => (t₁.ram r).aborted)=true := by
    intro hany
    obtain ⟨r,_,hr⟩ := List.any_eq_true.mp hany
    rw [(hR.ram r).alive] at hr
    cases hr
  refine ⟨if_neg halive,fun r => (hR.ram r).kept.coherent,fun r => ?_,fun _ => rfl,
    fun r => (hR.ram r).alive,fun r => (hR.ram r).contents,hR.dma,fun side port d hd => ?_⟩
  · exact (hR.ram r).kept.shape.trans (h.built r)
  · obtain ⟨hmem,hapart⟩ := mem_killed.mp hd
    exact valid_deliver (valid_kept h.built (fun r => (hR.ram r).kept) (h.held side port d hmem) hapart)

/-- A pointer that is safe to use may be kept. -/
theorem Matches.keep (h : Matches s t) {side : Side} {port : MasterPort} {result : Option Held}
    (hvalid : ∀ d∈result,Valid s.targets side d) : Matches (keep s side port result) t := by
  refine ⟨h.coherent,h.built,h.quiet,h.alive,h.contents,h.dma,fun side' port' d hd => ?_⟩
  dsimp only [PlatformMemory.keep] at hd ⊢
  by_cases hside : side'=side
  · subst hside
    rw [Function.update_self] at hd
    by_cases hport : port'=port
    · subst hport
      rw [Function.update_self] at hd
      rcases List.mem_append.mp hd with hd|hd
      · exact hvalid d (Option.mem_toList.mp hd)
      · exact h.held _ _ d hd
    · rw [Function.update_of_ne hport] at hd
      exact h.held _ _ d hd
  · rw [Function.update_of_ne hside] at hd
    exact h.held _ _ d hd

/-- An address in a window of a processor is looked up there. -/
theorem lookup_own {side : Side} {m : PortMapping} {l : Leaf} (hm : (m,l)∈own side)
    {a : BitVec 64} (hlo : m.lo≤a) (hhi : a≤ m.hi) :
    lookup (addressMap (.cpu side)) a=some (l,m.offsetInto a) := by
  have hin : m.inRegion a=true := by
    rw [PortMapping.inRegion,Bool.and_eq_true,decide_eq_true_eq,decide_eq_true_eq]
    exact ⟨hlo,hhi⟩
  rcases List.mem_pair.mp hm with h|h
  · obtain ⟨rfl,rfl⟩ := Prod.mk.inj h
    exact if_pos hin
  · obtain ⟨rfl,rfl⟩ := Prod.mk.inj h
    refine (if_neg ?_).trans (if_pos hin)
    rw [PortMapping.inRegion,Bool.and_eq_true,decide_eq_true_eq,decide_eq_true_eq]
    intro hlow
    have h₁ := BitVec.le_def.mp hlow.2
    have h₂ := BitVec.le_def.mp hlo
    exact absurd (h₂.trans h₁) (by decide)

/-- A payload whose bytes are decoded is executed by a flat memory. -/
theorem respondFlat_ok (r : Ram) (m : Memory) {p : GenericPayload} (hlen : p.dataLength≠0)
    (hlast : p.address.toNat+p.dataLength.toNat≤0x100001) :
    respondFlat r m p=((flatExecute m p).1,{(flatExecute m p).2.1 with
      responseStatus := if (flatExecute m p).2.2 then .okResponse else .commandErrorResponse}) := by
  have hpos : p.dataLength.toNat≠0 := fun hz => hlen (BitVec.eq_of_toNat_eq hz)
  have hc : p.address+length p-1≤0x100000 := by
    rw [BitVec.le_def,BitVec.toNat_sub,BitVec.toNat_add,length_toNat]
    change (2^64-1+(p.address.toNat+p.dataLength.toNat)%2^64)%2^64≤0x100000
    omega
  dsimp only [respondFlat,flatServe]
  rw [if_pos hc]

/-- An access through a pointer does what the bus does. -/
theorem direct_spec (h : Matches s t) {side : Side} {d : Held} (hvalid : Valid s.targets side d)
    {p : GenericPayload} (hp : Covers p d) :
    ∃ t₁ buffer,throughPointer s.targets d p=some (t₁,buffer) ∧
      Related (Tracks s.targets.ram) t₁ (access respondFlat (.cpu side) t p).1 ∧
      seen (access respondFlat (.cpu side) t p).2=.data buffer true := by
  obtain ⟨m,u,hl⟩ := hvalid
  obtain ⟨hcommand,hlen,hlo,hhi⟩ := hp
  have hpos : p.dataLength.toNat≠0 := fun hz => hlen (BitVec.eq_of_toNat_eq hz)
  obtain ⟨hmle,hmhi⟩ := window_room _ hl.window
  change m.lo≤ m.hi at hmle
  change m.hi.toNat<2^32 at hmhi
  have hstart := hl.start
  have hstop := hl.stop
  have hinside := hl.inside
  rw [BitVec.le_def] at hlo hmle
  have hmlo : m.lo≤p.address := BitVec.le_def.mpr (by omega)
  have hmhi' : p.address≤ m.hi := BitVec.le_def.mpr (by omega)
  have hoff : (m.offsetInto p.address).toNat=p.address.toNat-m.lo.toNat :=
    BitVec.toNat_sub_of_le hmlo
  have hoff' : (p.address-d.startAddress).toNat=p.address.toNat-m.lo.toNat-u.base.toNat := by
    rw [BitVec.toNat_sub_of_le (BitVec.le_def.mpr hlo)]
    omega
  have hsize := window_size (.cpu side) _ (List.mem_append_left _ hl.window)
  change m.hi.toNat-m.lo.toNat<0x100000 at hsize
  have hu₁ : u.base.toNat≤p.address.toNat-m.lo.toNat := by omega
  have hu₂ : p.address.toNat-m.lo.toNat+p.dataLength.toNat≤u.top.toNat+1 := by omega
  have hco := h.coherent d.dmiPtr.1
  have hcontents := h.contents d.dmiPtr.1
  have hbegin := h.begin
  have hflat := respondFlat_ok d.dmiPtr.1 (t.ram d.dmiPtr.1)
    (p := {p with address := m.offsetInto p.address}) hlen (by
      change (m.offsetInto p.address).toNat+p.dataLength.toNat≤_
      omega)
  rw [access_lookup,lookup_own hl.window hmlo hmhi']
  dsimp only [reach,call]
  rw [hflat]
  unfold throughPointer
  dsimp only
  rw [hoff',←hl.index]
  cases hp : p.command with
  | ignore => exact absurd hp hcommand
  | read =>
    have hread := direct_read hco hl.member hu₁ hu₂ p.buffer
    rw [hcontents] at hread
    refine ⟨s.targets,copyBytes p.buffer 0
      (fun i => t.ram d.dmiPtr.1 (p.address.toNat-m.lo.toNat+i)) p.dataLength.toNat,?_,?_,?_⟩
    · rw [if_pos rfl,hread]
      rfl
    · dsimp only [flatExecute]
      rw [Function.update_eq_self]
      exact hbegin
    · dsimp only [flatExecute,seen]
      rw [hoff]
      rfl
  | write =>
    obtain ⟨r,hr,hkept,hwritten⟩ := direct_write hco hl.member hu₁ hu₂ p.buffer
    rw [hcontents] at hwritten
    let c : Cell := {s.targets.ram d.dmiPtr.1 with ram := r}
    refine ⟨{s.targets with ram := Function.update s.targets.ram d.dmiPtr.1 c},p.buffer,?_,
      ⟨fun r' => ?_,h.dma⟩,rfl⟩
    · rw [if_neg Command.noConfusion,hr]
      rfl
    · dsimp only [flatExecute]
      by_cases hr' : r'=d.dmiPtr.1
      · subst hr'
        rw [Function.update_self,Function.update_self]
        refine ⟨?_,?_,h.alive _⟩
        · change Kept 20 _ r (s.targets.ram _).invalidated
          rw [h.quiet]
          exact hkept
        · rw [hwritten,hoff]
      · rw [Function.update_of_ne hr',Function.update_of_ne hr']
        exact hbegin.ram r'

end Step

section Requests

variable {t : Targets Cell} {side : Side} {r : Ram} {m : PortMapping} {p : GenericPayload}

/-- The targets after a request that has left a RAM behind. -/
def asked (t : Targets Cell) (r : Ram) (r' : TlmRam) (invalid : List Invalidation) : Targets Cell :=
  let c : Cell := {t.ram r with ram := r',invalidated := (t.ram r).invalidated++invalid}
  {t with ram := Function.update t.ram r c}

/-- All bytes of a request are decoded by the RAM. -/
structure Inside (p : GenericPayload) : Prop where
  /-- There are bytes. -/
  some : p.dataLength≠0
  /-- The last one is decoded. -/
  last : p.address.toNat+p.dataLength.toNat≤0x100001

/-- The last address of such a request. -/
theorem Inside.last_toNat (h : Inside p) :
    (p.address+length p-1).toNat+1=p.address.toNat+p.dataLength.toNat := by
  have hpos : p.dataLength.toNat≠0 := fun hz => h.some (BitVec.eq_of_toNat_eq hz)
  have hlast := h.last
  rw [BitVec.toNat_sub,BitVec.toNat_add,length_toNat]
  change (2^64-1+(p.address.toNat+p.dataLength.toNat)%2^64)%2^64+1=_
  omega

/-- The RAM decodes it. -/
theorem Inside.decoded (h : Inside p) : p.address+length p-1≤0x100000 := by
  have heq := h.last_toNat
  have hlast := h.last
  rw [BitVec.le_def]
  change (p.address+length p-1).toNat≤0x100000
  omega

/-- A request inside a RAM leads to a segment around its bytes. -/
theorem leafDmi_spec (hco : Coherent 20 (t.ram r).ram)
    (hshape : shape (t.ram r).ram=shape platformRam) (hp : Inside p) :
    ∃ r' invalid seg,leafDmi (.ram r) t p=
        some (asked t r r' invalid,some ⟨seg.base,seg.top,(r,seg.index)⟩) ∧
      Kept 20 (t.ram r).ram r' invalid ∧ contents r'=contents (t.ram r).ram ∧ seg∈r'.head ∧
      seg.base≤p.address ∧ p.address≤ seg.top ∧
      p.address.toNat+p.dataLength.toNat≤ seg.top.toNat+1 := by
  have hmax : (t.ram r).ram.maxAddress=0x100000 := congrArg Prod.fst hshape
  have hlast := hp.last
  obtain ⟨r',reply,dmi,hr,hkept,hcontents,_,hiff,_,hpoints⟩ := pointer_spec hco
    (p := p) ⟨by omega,fun hz => absurd hz hp.some⟩
  obtain ⟨d,rfl⟩ := Option.isSome_iff_exists.mp (hiff.mpr (by rw [hmax]; exact hp.decoded))
  obtain ⟨⟨seg,hseg,hindex,hbase,htop⟩,hlo,hhi,hend⟩ := hpoints d rfl
  rw [←hbase] at hlo
  rw [←htop] at hhi hend
  refine ⟨r',reply.invalidated,seg,?_,hkept,hcontents,hseg,hlo,hhi,hend⟩
  dsimp only [leafDmi]
  rw [hr,hindex,hbase,htop]
  rfl

/-- The same request again leads to the same segment and invalidates nothing. -/
theorem leafDmi_again (hco : Coherent 20 (t.ram r).ram)
    (hshape : shape (t.ram r).ram=shape platformRam) (hp : Inside p) (seg : MemorySegment)
    (hseg : seg∈(t.ram r).ram.head) (hlo : seg.base≤p.address)
    (hend : p.address.toNat+p.dataLength.toNat≤ seg.top.toNat+1) :
    leafDmi (.ram r) t p=some (asked t r {(t.ram r).ram with cache := some seg.index} [],
      some ⟨seg.base,seg.top,(r,seg.index)⟩) := by
  have hmax : (t.ram r).ram.maxAddress=0x100000 := congrArg Prod.fst hshape
  have hpos : p.dataLength.toNat≠0 := fun hz => hp.some (BitVec.eq_of_toNat_eq hz)
  have hlast := hp.last_toNat
  have hin : seg.fallsWithin p.address (p.address+length p-1)=true := by
    rw [MemorySegment.fallsWithin,Bool.and_eq_true,decide_eq_true_eq,decide_eq_true_eq]
    exact ⟨hlo,BitVec.le_def.mpr (by omega)⟩
  have hfind := findAddSeg_hit hco hseg (BitVec.le_def.mpr (by omega)) hin
  have hc : (t.ram r).ram.checkAddressRange p.address (length p)=true := by
    rw [TlmRam.checkAddressRange,decide_eq_true_eq,hmax]
    exact hp.decoded
  dsimp only [leafDmi]
  unfold TlmRam.getDirectMemPtr TlmRam.getDMI
  rw [if_pos hc,hfind]
  rfl

/-- The window of a processor around an address has its own port. -/
theorem getDmiPort_own (hm : (m,Leaf.ram r)∈own side) {a : BitVec 64} (hlo : m.lo≤a)
    (hhi : a≤ m.hi) :
    ∃ port,getDmiPort (dmiBus side) a=some (port,m) ∧ port.getDirectMemPtr=leafDmi (.ram r) := by
  have hin : m.inRegion a=true := by
    rw [PortMapping.inRegion,Bool.and_eq_true,decide_eq_true_eq,decide_eq_true_eq]
    exact ⟨hlo,hhi⟩
  have hfind : getMapping [m] a=some m := List.find?_cons_of_pos hin
  rcases List.mem_pair.mp hm with h|h
  · obtain ⟨rfl,hr⟩ := Prod.mk.inj h
    rw [Leaf.ram.inj hr]
    refine ⟨⟨[⟨0x000000,0x0fffff⟩],leafDmi (.ram (lowRam side))⟩,?_,rfl⟩
    rw [dmiBus,getDmiPort,getDmiPort]
    dsimp only
    rw [hfind]
    rfl
  · obtain ⟨rfl,hr⟩ := Prod.mk.inj h
    have hlow : ¬(⟨0x000000,0x0fffff⟩ : PortMapping).inRegion a=true := by
      rw [PortMapping.inRegion,Bool.and_eq_true,decide_eq_true_eq,decide_eq_true_eq]
      intro hlow
      have h₁ := BitVec.le_def.mp hlow.2
      have h₂ := BitVec.le_def.mp hlo
      exact absurd (h₂.trans h₁) (by decide)
    rw [Leaf.ram.inj hr]
    refine ⟨⟨[⟨0xfff00000,0xffffffff⟩],leafDmi (.ram (highRam side))⟩,?_,rfl⟩
    rw [dmiBus,getDmiPort,getDmiPort,getDmiPort]
    dsimp only
    rw [hfind,show getMapping [(⟨0x000000,0x0fffff⟩ : PortMapping)] a=none from
      List.find?_cons_of_neg hlow]
    rfl

/-- No other address has one. -/
theorem getDmiPort_none {a : BitVec 64} (h : lookup (own side) a=none) :
    getDmiPort (dmiBus side) a=none := by
  rw [own,lookup,lookup,lookup] at h
  rw [dmiBus,getDmiPort,getDmiPort,getDmiPort,getDmiPort]
  split_ifs at h with h₁ h₂
  rw [Bool.not_eq_true] at h₁ h₂
  dsimp only
  rw [getMapping,getMapping,getMapping,List.find?_cons,List.find?_cons,h₁,h₂]
  rfl

/-- The decoder moves the range of the segment to the window. -/
theorem getDMIPointer_own (hm : (m,Leaf.ram r)∈own side) (hlo : m.lo≤p.address)
    (hhi : p.address≤ m.hi) {t' : Targets Cell} {seg : MemorySegment}
    (hleaf : leafDmi (.ram r) t {p with address := m.offsetInto p.address}=
      some (t',some ⟨seg.base,seg.top,(r,seg.index)⟩))
    (hbase : seg.base≤ m.offsetInto p.address) (htop : m.offsetInto p.address≤ seg.top)
    {start stop : BitVec 64} (hadjust : adjustRange m seg.base seg.top=some (start,stop)) :
    getDMIPointer (dmiBus side) t p=some (t',some ⟨start,stop,(r,seg.index)⟩) := by
  obtain ⟨port,hport,hcall⟩ := getDmiPort_own hm hlo hhi
  rw [getDMIPointer,hport]
  dsimp only [Option.bind_eq_bind]
  rw [hcall,hleaf]
  dsimp only [Option.bind_some]
  rw [if_pos ⟨hbase,htop⟩,hadjust]
  rfl

/-- The RAM that has been asked. -/
theorem asked_self (t : Targets Cell) (r : Ram) (r' : TlmRam) (invalid : List Invalidation) :
    (asked t r r' invalid).ram r=
      {t.ram r with ram := r',invalidated := (t.ram r).invalidated++invalid} :=
  Function.update_self _ _ _

/-- The other RAMs. -/
theorem asked_of_ne {r₁ : Ram} (h : r₁≠r) (t : Targets Cell) (r' : TlmRam)
    (invalid : List Invalidation) : (asked t r r' invalid).ram r₁=t.ram r₁ :=
  Function.update_of_ne h _ _

/-- A request keeps the cells close to the flat memories. -/
theorem asked_related {x₀ : Ram → Cell} {u : Targets Memory} (h : Related (Tracks x₀) t u)
    {r' : TlmRam} {invalid : List Invalidation} (hkept : Kept 20 (t.ram r).ram r' invalid)
    (hcontents : contents r'=contents (t.ram r).ram) :
    Related (Tracks x₀) (asked t r r' invalid) u := by
  refine ⟨fun r₁ => ?_,h.dma⟩
  by_cases hr : r₁=r
  · subst hr
    rw [asked_self]
    exact ⟨(h.ram _).kept.trans hkept,hcontents.trans (h.ram _).contents,(h.ram _).alive⟩
  · rw [asked_of_ne hr]
    exact h.ram r₁

/-- The windows of a processor show its RAMs. -/
theorem own_ram {l : Leaf} (hm : (m,l)∈own side) : ∃ r,l=.ram r := by
  rcases List.mem_pair.mp hm with h|h
  · exact ⟨_,(Prod.mk.inj h).2⟩
  · exact ⟨_,(Prod.mk.inj h).2⟩

/-- A request of a processor changes no byte, and the pointer it gets is safe. -/
theorem request_spec {s : Platform} {t : Targets Memory} (h : Matches s t) {port : MasterPort}
    {addr : BitVec 64} {bytes : BitVec 32} (hreq : Requested (.request side port addr bytes)) :
    ∃ t₁ result,getDMI (dmiBus side) s.targets addr bytes=some (t₁,result) ∧
      Related (Tracks s.targets.ram) t₁ t ∧ ∀ d∈result,Valid t₁ side d := by
  have hbegin := h.begin
  cases hl : lookup (own side) addr with
  | none =>
    have hnone := getDmiPort_none hl
    refine ⟨s.targets,none,?_,hbegin,fun d hd => nomatch hd⟩
    simp only [getDMI,getDMIPointer,dmiRequest,hnone,Option.bind_eq_bind,Option.bind_some]
  | some v =>
    obtain ⟨l,offset⟩ := v
    obtain ⟨hbytes,hend⟩ := hreq l offset hl
    obtain ⟨m,hm,hin,rfl⟩ := lookup_some hl
    obtain ⟨r,rfl⟩ := own_ram hm
    rw [PortMapping.inRegion,Bool.and_eq_true,decide_eq_true_eq,decide_eq_true_eq] at hin
    obtain ⟨hlo,hhi⟩ := hin
    obtain ⟨hmle,hmhi⟩ := window_room _ hm
    change m.lo≤ m.hi at hmle
    change m.hi.toNat<2^32 at hmhi
    have hsize := window_size (.cpu side) _ (List.mem_append_left _ hm)
    change m.hi.toNat-m.lo.toNat<0x100000 at hsize
    have hoff : (m.offsetInto addr).toNat=addr.toNat-m.lo.toNat := BitVec.toNat_sub_of_le hlo
    have hinside : ∀ command,Inside
        {dmiRequest command addr bytes with address := m.offsetInto addr} :=
      fun _ => ⟨hbytes,hend⟩
    -- the request for reading finds or makes the segment
    obtain ⟨r',invalid,seg,hread,hkept,hcontents,hseg,hbase,htop,hstop⟩ :=
      leafDmi_spec (t := s.targets) (h.coherent r) (h.built r) (hinside .read)
    have hco := hkept.coherent
    have hshape : shape r'=shape platformRam := hkept.shape.trans (h.built r)
    have hself := asked_self s.targets r r' invalid
    -- the request for writing finds it again
    have hwrite := leafDmi_again (t := asked s.targets r r' invalid) (r := r)
      (by rw [hself]; exact hco) (by rw [hself]; exact hshape) (hinside .write) seg
      (by rw [hself]; exact hseg) hbase hstop
    rw [hself] at hwrite
    -- the segment is the page at the bottom of the RAM
    have haligned : 2^20∣ seg.base.toNat := (hco.aligned seg hseg).1
    have hbase' := BitVec.le_def.mp hbase
    change seg.base.toNat≤(m.offsetInto addr).toNat at hbase'
    have hzero : seg.base.toNat=0 := by
      by_contra hne
      have := Nat.le_of_dvd (Nat.pos_of_ne_zero hne) haligned
      rw [BitVec.le_def] at hlo hhi hmle
      omega
    have hbound := hco.bounded seg hseg
    rw [show r'.maxAddress=0x100000 from congrArg Prod.fst hshape] at hbound
    change seg.top.toNat<0x100000+2^20 at hbound
    obtain ⟨start,stop,hadjust,hstart,horder,hle,hcut,_⟩ :=
      @adjustRange_some m seg.base seg.top (BitVec.le_trans hbase htop) hmle (by omega)
    have hread' := getDMIPointer_own (p := dmiRequest .read addr bytes) hm hlo hhi hread hbase htop
      hadjust
    have hwrite' := getDMIPointer_own (p := dmiRequest .write addr bytes) hm hlo hhi hwrite hbase
      htop hadjust
    have hcache := cache_placed (q := range seg) (c := some seg.index) hco hseg ⟨le_rfl,le_rfl⟩
      fun i hi => ⟨seg,hseg,Option.some.inj hi⟩
    have hfirst := asked_related hbegin hkept hcontents
    refine ⟨asked (asked s.targets r r' invalid) r {r' with cache := some seg.index} [],
      some ⟨start,stop,(r,seg.index)⟩,?_,asked_related hfirst ?_ ?_,fun d hd => ?_⟩
    · rw [getDMI,hread']
      dsimp only [Option.bind_eq_bind,Option.bind_some]
      rw [hwrite']
      exact if_pos ⟨rfl,rfl⟩
    · rw [hself]
      exact placed_kept hcache
    · rw [hself]
      rfl
    · cases hd
      refine ⟨m,seg,hm,?_,rfl,hstart,horder,hle,?_⟩
      · rw [asked_self]
        exact hseg
      · change stop.toNat≤ m.hi.toNat
        rw [BitVec.le_def] at hmle
        omega

end Requests

section Run

/-- The step lemma: the platform survives every act, answers it as the one with
flat memories does, and keeps the invariant. -/
theorem serve_matches {s : Platform} {t : Targets Memory} {e : Act} (h : Matches s t)
    (hreq : Requested e) : ∃ s' t' a,serve s e=some (s',a) ∧ serveFlat t e=some (t',a) ∧
      Matches s' t' := by
  have hresponds := responds h.built
  cases e with
  | access i p =>
    obtain ⟨hR,hanswer⟩ := access_related hresponds i h.begin p
    obtain ⟨hs,hm⟩ := h.settle hR (.handed (access respond i s.targets p).2)
    refine ⟨_,_,_,hs,?_,hm⟩
    rw [hanswer]
    rfl
  | edge =>
    obtain ⟨hs,hm⟩ := h.settle (edge_related hresponds h.begin) .silent
    exact ⟨_,_,_,hs,rfl,hm⟩
  | request side port addr bytes =>
    obtain ⟨t₁,result,hget,hR,hvalid⟩ := request_spec h hreq
    obtain ⟨hs,hm⟩ := h.settle hR .silent
    have hkept : Matches (keep (deliver ⟨t₁,s.held⟩) side port result) t :=
      hm.keep fun d hd => valid_deliver (hvalid d hd)
    refine ⟨_,_,_,?_,rfl,hkept⟩
    dsimp only [serve,Option.bind_eq_bind]
    rw [hget]
    dsimp only [Option.bind_some]
    rw [hs]
    rfl
  | direct side port p =>
    cases hfind : (s.held side port).find? fun d => decide (Covers p d) with
    | some d =>
      have hcovers : decide (Covers p d)=true :=
        @List.find?_some _ (fun d => decide (Covers p d)) d _ hfind
      obtain ⟨t₁,buffer,hthrough,hR,hseen⟩ :=
        direct_spec h (h.held side port d (List.mem_of_find?_eq_some hfind))
          (of_decide_eq_true hcovers)
      obtain ⟨hs,hm⟩ := h.settle hR (.data buffer true)
      refine ⟨_,_,.data buffer true,?_,?_,hm⟩
      · dsimp only [serve,Option.bind_eq_bind]
        rw [hfind]
        dsimp only
        rw [hthrough]
        exact hs
      · dsimp only [serveFlat]
        rw [hseen]
    | none =>
      obtain ⟨hR,hanswer⟩ := access_related hresponds (.cpu side) h.begin p
      obtain ⟨hs,hm⟩ := h.settle hR (seen (access respond (.cpu side) s.targets p).2)
      refine ⟨_,_,seen (access respond (.cpu side) s.targets p).2,?_,?_,hm⟩
      · dsimp only [serve]
        rw [hfind]
        exact hs
      · rw [hanswer]
        rfl

/-- The two platforms match after construction. -/
theorem start_matches (dma : DualDma.DMA) : Matches (start dma) ⟨fun _ _ => 0,dma⟩ :=
  ⟨fun _ => tlmRam_coherent true (by decide) (by decide),fun _ => rfl,fun _ => rfl,fun _ => rfl,
    fun _ => tlmRam_contents true,rfl,fun _ _ _ hd => nomatch hd⟩

/-- The platform with flat memories refuses no act. -/
theorem serveFlat_total (t : Targets Memory) (e : Act) : (serveFlat t e).isSome=true := by
  cases e <;> rfl

end Run

/-- From construction, with any controller: whatever the two processors, their
direct pointers and the controller do, in any order, no assertion fails and no
pointer is followed into a segment that is gone, and every answer is the one
that flat memories without direct pointers give. -/
theorem sparse_platform_flat (dma : DualDma.DMA) (acts : List Act) (h : ∀ e∈acts,Requested e) :
    ∃ as,answers serve (start dma) acts=some as ∧
      answers serveFlat ⟨fun _ _ => 0,dma⟩ acts=some as := by
  obtain ⟨as,has⟩ := Option.isSome_iff_exists.mp
    (answers_total serveFlat_total ⟨fun _ _ => 0,dma⟩ acts)
  have hsim : answers serve (start dma) acts=answers serveFlat ⟨fun _ _ => 0,dma⟩ acts :=
    answers_simulation (P := Requested) (R := Matches) (fun s t e => @serve_matches s t e)
      (start_matches dma) h
  exact ⟨as,hsim.trans has,has⟩

/-- A processor takes a direct pointer into the first page of its lower RAM and
writes through it. An access over the bus then crosses the end of the page, so
that its segment is replaced, and the byte is read again. -/
theorem sparse_platform_flat_page :
    ∃ as,answers serve (start (DualDma.init 0))
        [.request .one .data 0 4,.direct .one .data (byteAccess .write 0x10 0x5a),
          .access (.cpu .one) ⟨.write,0xffffd,fun _ => 1,4,none,4,.incompleteResponse⟩,
          .direct .one .data (byteAccess .read 0x10 0)]=some as ∧
      answers serveFlat ⟨fun _ _ => 0,DualDma.init 0⟩
        [.request .one .data 0 4,.direct .one .data (byteAccess .write 0x10 0x5a),
          .access (.cpu .one) ⟨.write,0xffffd,fun _ => 1,4,none,4,.incompleteResponse⟩,
          .direct .one .data (byteAccess .read 0x10 0)]=some as := by
  refine sparse_platform_flat (DualDma.init 0) _ fun e he => ?_
  rcases List.mem_cons.mp he with rfl|he
  · exact requested_low _ _
  · rcases List.mem_cons.mp he with rfl|he
    · trivial
    · rcases List.mem_pair.mp he with rfl|rfl <;> trivial

end SystemCDma.PlatformMemory
