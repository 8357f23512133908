import SystemCDma.PlatformMemory

/-!
# Debug accesses on the two-processor platform

Program images are loaded, and a debugger looks at the platform, through debug
transport: an access at a port of a processor that no processor makes. It takes
the decoders' own way for such calls, reaches the RAMs that the processor
reaches, and leaves the controller alone. At any time it does to a RAM what an
access of the processor does, also where that one holds direct pointers.
-/

namespace SystemCDma.PlatformDebug

open ByteMemory EventRun TlmBus TlmDecoder TlmMemory FlatMemory DirectMemory BareMetal
open PlatformSimulation PlatformMemory
open DualDma (Side)

section Buses

variable {R : Type*} (respond : Ram → R → GenericPayload → (R×BitVec 32)×GenericPayload)

/-- The debug transport call of a leaf. The controller has registered none. -/
def callDebug : Leaf → Targets R×BitVec 32 → GenericPayload → (Targets R×BitVec 32)×GenericPayload
  | .ram r,x,p =>
    let a := respond r (x.1.ram r) p
    (({x.1 with ram := Function.update x.1.ram r a.1.1},a.1.2),a.2)
  | .dma,x,p => ((x.1,0),p)

/-- The common bus, for debug transport. -/
def debugBusM : List (DebugPort (Targets R)) :=
  [⟨[⟨0x200000,0x2fffff⟩],callDebug respond (.ram .ram3)⟩,
    ⟨[⟨0x300000,0x3fffff⟩],callDebug respond (.ram .ram4)⟩,
    ⟨[⟨0x100000,0x10001f⟩],callDebug respond .dma⟩]

/-- The bus of a processor, for debug transport. The common bus serves three
initiators. -/
def debugBus (side : Side) : List (DebugPort (Targets R)) :=
  [⟨[],fun x p => transportDebug 3 (debugBusM respond) x.1 p⟩,
    ⟨[⟨0x000000,0x0fffff⟩],callDebug respond (.ram (lowRam side))⟩,
    ⟨[⟨0xfff00000,0xffffffff⟩],callDebug respond (.ram (highRam side))⟩]

/-- A debug access at a port of a processor, whose bus serves two initiators. -/
def debug (side : Side) (t : Targets R) (p : GenericPayload) :
    (Targets R×BitVec 32)×GenericPayload :=
  transportDebug 2 (debugBus respond side) t p

/-- It looks up the address map of the processor. -/
theorem debug_lookup (side : Side) (t : Targets R) (p : GenericPayload) :
    debug respond side t p=
      reach (callDebug respond) (t,0) p (lookup (addressMap (.cpu side)) p.address) :=
  fallback_debug (callDebug respond)
    (fun x q => static_debug (callDebug respond) 3 shared x.1 q) (by decide) (own side) t p

end Buses

/-- The debug transport of a sparse RAM. -/
def respondDebug (_ : Ram) (c : Cell) (p : GenericPayload) : (Cell×BitVec 32)×GenericPayload :=
  match c.ram.debugTransport p with
  | some (r,reply,moved) =>
    (({c with ram := r,invalidated := c.invalidated++reply.invalidated},moved),reply.payload)
  | none => (({c with aborted := true},0),p)

/-- The debug transport of a flat memory. -/
def respondDebugFlat (_ : Ram) (m : Memory) (p : GenericPayload) :
    (Memory×BitVec 32)×GenericPayload :=
  match flatServe 0x100000 true m (.debug p) with
  | some (m',handed) => ((m',handed.result),handed.payload)
  | none => ((m,0),p)

/-- What happens on the platform, with debug accesses at the ports of the
processors. -/
inductive DebugAct where
  /-- The platform runs. -/
  | act (e : PlatformMemory.Act)
  /-- A debug access. -/
  | debug (side : Side) (p : GenericPayload)

/-- A debug access succeeds if all its bytes were moved. -/
def moved (p : GenericPayload) (n : BitVec 32) (q : GenericPayload) : PlatformMemory.Answer :=
  .data q.buffer (decide (n=p.dataLength))

/-- A step of the platform. -/
def serveDebug (s : Platform) : DebugAct → Option (Platform×PlatformMemory.Answer)
  | .act e => serve s e
  | .debug side p =>
    let r := debug respondDebug side s.targets p
    settle ⟨r.1.1,s.held⟩ (moved p r.1.2 r.2)

/-- A step of the platform with flat memories. A debug access of a RAM is the
access of the processor, and anything else is not there for it. -/
def serveDebugFlat (t : Targets Memory) : DebugAct → Option (Targets Memory×PlatformMemory.Answer)
  | .act e => serveFlat t e
  | .debug side p =>
    match lookup (addressMap (.cpu side)) p.address with
    | some (.ram _,_) =>
      let r := access respondFlat (.cpu side) t p
      some (r.1,seen r.2)
    | some (.dma,_) | none => some (t,moved p 0 p)

/-- Debug accesses have bytes, and direct pointers are asked for as before. -/
def Admissible : DebugAct → Prop
  | .act e => Requested e
  | .debug _ p => p.dataLength≠0

section Leaves

variable {x₀ : Ram → Cell} {t : Targets Cell} {t' : Targets Memory}

/-- A debug access inside a RAM is the one of a flat memory. -/
theorem responds_debug (hbuilt : Built x₀) {r : Ram} {x : Cell} {m : Memory} {p : GenericPayload}
    (h : Tracks x₀ r x m) (hp : p.address.toNat<0x100000) :
    Tracks x₀ r (respondDebug r x p).1.1 (respondDebugFlat r m p).1.1 ∧
      (respondDebug r x p).1.2=(respondDebugFlat r m p).1.2 ∧
      (respondDebug r x p).2=(respondDebugFlat r m p).2 := by
  obtain ⟨hkept,rfl,halive⟩ := h
  have hshape := hkept.shape.trans (hbuilt r)
  have hmax : x.ram.maxAddress=0x100000 := congrArg Prod.fst hshape
  have hdmi : x.ram.dmiOn=true := congrArg (fun y => y.2.2.2) hshape
  obtain ⟨r',reply,n,hr,hkept',hflat⟩ := debug_spec hkept.coherent (admitted hp)
  rw [hmax,hdmi] at hflat
  dsimp only [respondDebug,respondDebugFlat]
  rw [hr,hflat]
  exact ⟨⟨hkept.trans hkept',rfl,halive⟩,rfl,rfl⟩

/-- In a flat memory it is an ordinary access. -/
theorem flat_debug (r : Ram) (m : Memory) {p q : GenericPayload} (hlen : p.dataLength≠0)
    (hq : q.dataLength=p.dataLength) :
    (respondDebugFlat r m q).1.1=(respondFlat r m q).1 ∧
      moved p (respondDebugFlat r m q).1.2 (respondDebugFlat r m q).2=seen (respondFlat r m q).2 := by
  have hne : (0 : BitVec 32)≠p.dataLength := fun h => hlen h.symm
  dsimp only [respondDebugFlat,respondFlat,flatServe]
  by_cases hc : q.address+length q-1≤0x100000
  · rw [if_pos hc,if_pos hc]
    obtain ⟨command,address,buffer,dataLength,enable,width,status⟩ := q
    dsimp only at hq
    subst hq
    cases command with
    | read => exact ⟨rfl,congrArg (PlatformMemory.Answer.data _) (by simp [flatExecute])⟩
    | write => exact ⟨rfl,congrArg (PlatformMemory.Answer.data _) (by simp [flatExecute])⟩
    | ignore => exact ⟨rfl,congrArg (PlatformMemory.Answer.data _) (decide_eq_false hne)⟩
  · rw [if_neg hc,if_neg hc]
    exact ⟨rfl,congrArg (PlatformMemory.Answer.data _) (decide_eq_false hne)⟩

/-- A debug access of a processor port. -/
theorem debug_related (hbuilt : Built x₀) (hR : Related (Tracks x₀) t t') (side : Side)
    {p : GenericPayload} (hlen : p.dataLength≠0) :
    ∃ u',Related (Tracks x₀) (debug respondDebug side t p).1.1 u' ∧
      serveDebugFlat t' (.debug side p)=
        some (u',moved p (debug respondDebug side t p).1.2 (debug respondDebug side t p).2) := by
  dsimp only [serveDebugFlat]
  rw [debug_lookup]
  cases hl : lookup (addressMap (.cpu side)) p.address with
  | none => exact ⟨t',hR,rfl⟩
  | some v =>
    obtain ⟨l,offset⟩ := v
    cases l with
    | dma => exact ⟨t',hR,rfl⟩
    | ram r =>
      obtain ⟨m,hmem,hin,rfl⟩ := lookup_some hl
      have hsize : (m.offsetInto p.address).toNat<0x100000 :=
        (PortMapping.offsetInto_le hin).trans_lt (window_size (.cpu side) _ hmem)
      obtain ⟨htracks,hmoved,hanswer⟩ :=
        responds_debug hbuilt (p := {p with address := m.offsetInto p.address}) (hR.ram r) hsize
      obtain ⟨hflat,hseen⟩ := flat_debug r (t'.ram r) (p := p)
        (q := {p with address := m.offsetInto p.address}) hlen rfl
      have haccess : access respondFlat (.cpu side) t' p=
          call respondFlat (.ram r) t' {p with address := m.offsetInto p.address} := by
        rw [access_lookup,hl]
        rfl
      refine ⟨(access respondFlat (.cpu side) t' p).1,⟨fun r' => ?_,?_⟩,?_⟩
      · rw [haccess]
        dsimp only [reach,callDebug,call]
        by_cases hr : r'=r
        · subst hr
          rw [Function.update_self,Function.update_self,←hflat]
          exact htracks
        · rw [Function.update_of_ne hr,Function.update_of_ne hr]
          exact hR.ram r'
      · rw [haccess]
        exact hR.dma
      · dsimp only [reach,callDebug]
        rw [hmoved,hanswer,hseen,haccess]
        rfl

end Leaves

section Run

/-- The step lemma, with debug accesses. -/
theorem serveDebug_matches {s : Platform} {t : Targets Memory} {e : DebugAct} (h : Matches s t)
    (hadm : Admissible e) : ∃ s' t' a,serveDebug s e=some (s',a) ∧
      serveDebugFlat t e=some (t',a) ∧ Matches s' t' := by
  cases e with
  | act e => exact serve_matches h hadm
  | debug side p =>
    obtain ⟨u',hR,hflat⟩ := debug_related h.built h.begin side hadm
    obtain ⟨hs,hm⟩ := h.settle hR (moved p (debug respondDebug side s.targets p).1.2
      (debug respondDebug side s.targets p).2)
    exact ⟨_,_,_,hs,hflat,hm⟩

/-- The platform with flat memories refuses no act. -/
theorem serveDebugFlat_total (t : Targets Memory) (e : DebugAct) :
    (serveDebugFlat t e).isSome=true := by
  cases e with
  | act e => exact serveFlat_total t e
  | debug side p =>
    dsimp only [serveDebugFlat]
    split <;> rfl

end Run

/-- From construction, with any controller: debug accesses of any processor
port, in any order with whatever else happens, find the bytes that flat memories
have; one of a RAM is the access of the processor itself, any other one moves
nothing and does not reach the controller. They break no direct pointer. -/
theorem debug_platform_flat (dma : DualDma.DMA) (acts : List DebugAct)
    (h : ∀ e∈acts,Admissible e) :
    ∃ as,answers serveDebug (start dma) acts=some as ∧
      answers serveDebugFlat ⟨fun _ _ => 0,dma⟩ acts=some as := by
  obtain ⟨as,has⟩ := Option.isSome_iff_exists.mp
    (answers_total serveDebugFlat_total ⟨fun _ _ => 0,dma⟩ acts)
  have hsim : answers serveDebug (start dma) acts=answers serveDebugFlat ⟨fun _ _ => 0,dma⟩ acts :=
    answers_simulation (P := Admissible) (R := Matches) (fun s t e => @serveDebug_matches s t e)
      (start_matches dma) h
  exact ⟨as,hsim.trans has,has⟩

/-- An image word, loaded into a shared RAM through the port of one processor
and read by the other one. -/
theorem debug_platform_flat_image :
    ∃ as,answers serveDebug (start (DualDma.init 0))
        [.debug .one ⟨.write,0x200010,fun k => BitVec.ofNat 8 k,4,none,4,.incompleteResponse⟩,
          .debug .one ⟨.read,0x100000,fun _ => 0,4,none,4,.incompleteResponse⟩,
          .act (.direct .two .data (byteAccess .read 0x200012 0))]=some as ∧
      answers serveDebugFlat ⟨fun _ _ => 0,DualDma.init 0⟩
        [.debug .one ⟨.write,0x200010,fun k => BitVec.ofNat 8 k,4,none,4,.incompleteResponse⟩,
          .debug .one ⟨.read,0x100000,fun _ => 0,4,none,4,.incompleteResponse⟩,
          .act (.direct .two .data (byteAccess .read 0x200012 0))]=some as := by
  refine debug_platform_flat (DualDma.init 0) _ fun e he => ?_
  rcases List.mem_cons.mp he with rfl|he
  · exact (by decide : (4 : BitVec 32)≠0)
  · rcases List.mem_pair.mp he with rfl|rfl
    · exact (by decide : (4 : BitVec 32)≠0)
    · trivial

end SystemCDma.PlatformDebug
