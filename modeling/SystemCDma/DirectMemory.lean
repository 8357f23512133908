import SystemCDma.FlatMemory
import SystemCDma.TlmDecoder

/-!
# Direct pointers

A processor may ask for a direct pointer to the segment around an address and
then use it without the bus. The decoders on the way move the range of the
pointer into the addresses of the processor and cut it at the end of the
window; they hand invalidations back the same way. A pointer reads and writes
the bytes that the bus does for as long as no invalidation has met its range.
-/

namespace SystemCDma.DirectMemory

open ByteMemory TlmBus TlmDecoder RangeList TlmMemory SparseMemory FlatMemory

section Pointers

variable {k : ℕ} {r : TlmRam} {s : MemorySegment} {a n : ℕ}

/-- Copy bytes out of a segment through a pointer to it. -/
def directRead (r : TlmRam) (i offset n : ℕ) (data : Memory) : Option Memory := do
  let seg ← r.deref i
  if offset+n≤ seg.bytes.toNat then
    some (copyBytes data 0 (fun j => seg.native (offset+j)) n)
  else none

/-- Copy bytes into a segment through a pointer to it. -/
def directWrite (r : TlmRam) (i offset n : ℕ) (data : Memory) : Option TlmRam := do
  let seg ← r.deref i
  if offset+n≤ seg.bytes.toNat then
    some (changed r i fun native => copyBytes native offset data n)
  else none

/-- Bytes of a segment are within its bounds. -/
theorem direct_bound (h : Coherent k r) (hs : s∈r.head) (hlo : s.base.toNat≤a)
    (hhi : a+n≤ s.top.toNat+1) : a-s.base.toNat+n≤ s.bytes.toNat := by
  have hvalid := h.ascending.valid _ (List.mem_map_of_mem hs)
  have hroom := h.room
  have hbound := h.bounded s hs
  rw [bytes_toNat hvalid (by omega)]
  change s.base.toNat≤ s.top.toNat at hvalid
  omega

/-- Reading through a pointer reads the simulated memory. -/
theorem direct_read (h : Coherent k r) (hs : s∈r.head) (hlo : s.base.toNat≤a)
    (hhi : a+n≤ s.top.toNat+1) (data : Memory) :
    directRead r s.index (a-s.base.toNat) n data=
      some (copyBytes data 0 (fun i => contents r (a+i)) n) := by
  rw [directRead,deref_mem h hs]
  dsimp only [Option.bind_eq_bind,Option.bind_some]
  rw [if_pos (direct_bound h hs hlo hhi),read_native h hs hlo hhi]

/-- Writing through a pointer writes the simulated memory. -/
theorem direct_write (h : Coherent k r) (hs : s∈r.head) (hlo : s.base.toNat≤a)
    (hhi : a+n≤ s.top.toNat+1) (data : Memory) :
    ∃ r',directWrite r s.index (a-s.base.toNat) n data=some r' ∧ Kept k r r' [] ∧
      contents r'=copyBytes (contents r) a data n := by
  rw [directWrite,deref_mem h hs]
  dsimp only [Option.bind_eq_bind,Option.bind_some]
  rw [if_pos (direct_bound h hs hlo hhi)]
  exact ⟨_,rfl,(Kept.refl h).change _ _,contents_write h hs hlo hhi data⟩

end Pointers

section Decoder

variable {S P : Type}

/-- The distance from the start of the window, added back. -/
def offsetOutOf (m : PortMapping) (a : BitVec 64) : BitVec 64 := a+m.lo

/-- What a target puts into the answer to a request for a direct pointer. -/
structure DmiData (P : Type) where
  /-- First address of the range. -/
  startAddress : BitVec 64
  /-- Last address of the range. -/
  endAddress : BitVec 64
  /-- Pointer to the first byte of the range. -/
  dmiPtr : P
  deriving DecidableEq,Repr

/-- A port of a decoder, as a request for a direct pointer sees it. The target
may abort the program, or deny the request. -/
structure DmiPort (S P : Type) where
  /-- The windows set for this port. -/
  decodes : List PortMapping
  /-- The request at the target. -/
  getDirectMemPtr : S → GenericPayload → Option (S×Option (DmiData P))

/-- Move the range of a target to the window and cut it at the length of the
window. The assertions are those of the source. -/
def adjustRange (m : PortMapping) (low high : BitVec 64) : Option (BitVec 64×BitVec 64) :=
  let inRange := high-low
  let low' := low+m.lo
  let maxDecode := m.hi-m.lo
  let high' := if maxDecode < inRange then low'+maxDecode else low'+inRange
  if high'-low' ≤ inRange ∧ low'≤high' ∧ high'-low'≤ maxDecode then some (low',high') else none

/-- The first port with a window around the address, and that window. -/
def getDmiPort : List (DmiPort S P) → BitVec 64 → Option (DmiPort S P×PortMapping)
  | [],_ => none
  | port::ports,a =>
    match getMapping port.decodes a with
    | some m => some (port,m)
    | none => getDmiPort ports a

/-- A request for a direct pointer at a decoder. Ports without a window are not
asked. Where a target denies the request, the code goes on to adjust a range
that nobody has set; the model has no result there. -/
def getDMIPointer (ports : List (DmiPort S P)) (s : S) (p : GenericPayload) :
    Option (S×Option (DmiData P)) :=
  match getDmiPort ports p.address with
  | none => some (s,none)
  | some (port,m) => do
    let offset := m.offsetInto p.address
    let (s',result) ← port.getDirectMemPtr s {p with address := offset}
    let d ← result
    if d.startAddress≤offset ∧ offset≤d.endAddress then do
      let (start,stop) ← adjustRange m d.startAddress d.endAddress
      some (s',some ⟨start,stop,d.dmiPtr⟩)
    else none

/-- An invalidation from the target of a port with these windows, as it goes on
to every initiator of the decoder. -/
def invalidateDMIPointers (decodes : List PortMapping) (v : Invalidation) : List Invalidation :=
  decodes.map fun m => (offsetOutOf m v.1,offsetOutOf m v.2)

/-- The payload of a request for a direct pointer. -/
def dmiRequest (command : Command) (addr : BitVec 64) (bytes : BitVec 32) : GenericPayload :=
  ⟨command,addr,fun _ => 0,bytes,none,0,.incompleteResponse⟩

/-- The request at a master port: one for reading, one for writing, and a
pointer for both if the ranges agree. Where only one is granted, the code
compares its range with that of an earlier request; the model has no result
there. -/
def getDMI (ports : List (DmiPort S P)) (s : S) (addr : BitVec 64) (bytes : BitVec 32) :
    Option (S×Option (DmiData P)) := do
  let (s₁,tmpr) ← getDMIPointer ports s (dmiRequest .read addr bytes)
  let (s₂,tmpw) ← getDMIPointer ports s₁ (dmiRequest .write addr bytes)
  match tmpr,tmpw with
  | some r,some w =>
    if r.startAddress=w.startAddress ∧ r.endAddress=w.endAddress then some (s₂,some r)
    else some (s₂,none)
  | none,none => some (s₂,none)
  | _,_ => none

/-- Giving up the direct pointers that meet a range. -/
def killDMI (v : Invalidation) (held : List (DmiData P)) : List (DmiData P) :=
  held.filter fun d => ¬(d.startAddress≤v.2 ∧ v.1≤d.endAddress)

/-- A range that begins in the window of a long enough address space moves as a
whole, and is cut at the end of the window if it is too long. -/
theorem adjustRange_some {m : PortMapping} {low high : BitVec 64} (hle : low≤high)
    (hm : m.lo≤ m.hi) (hroom : high.toNat+m.hi.toNat<2^64) :
    ∃ start stop,adjustRange m low high=some (start,stop) ∧
      start.toNat=low.toNat+m.lo.toNat ∧ start≤ stop ∧
      stop.toNat≤high.toNat+m.lo.toNat ∧ stop.toNat-start.toNat≤ m.hi.toNat-m.lo.toNat ∧
      (stop.toNat=high.toNat+m.lo.toNat ∨ stop.toNat=low.toNat+m.hi.toNat) := by
  rw [BitVec.le_def] at hle hm
  have hin : (high-low).toNat=high.toNat-low.toNat :=
    BitVec.toNat_sub_of_le (BitVec.le_def.mpr hle)
  have hmax : (m.hi-m.lo).toNat=m.hi.toNat-m.lo.toNat :=
    BitVec.toNat_sub_of_le (BitVec.le_def.mpr hm)
  have hlow : (low+m.lo).toNat=low.toNat+m.lo.toNat := by
    rw [BitVec.toNat_add]
    exact Nat.mod_eq_of_lt (by omega)
  have hsum : ∀ d : BitVec 64,d.toNat≤high.toNat-low.toNat →
      (low+m.lo+d).toNat=low.toNat+m.lo.toNat+d.toNat := fun d hd => by
    rw [BitVec.toNat_add,hlow]
    exact Nat.mod_eq_of_lt (by omega)
  have hback : ∀ d : BitVec 64,low+m.lo+d-(low+m.lo)=d := fun d => by
    rw [BitVec.add_comm,BitVec.add_sub_cancel]
  -- what the assertions ask of a range of length `d`
  have hcheck : ∀ d : BitVec 64,d.toNat≤high.toNat-low.toNat → d.toNat≤ m.hi.toNat-m.lo.toNat →
      low+m.lo+d-(low+m.lo)≤high-low ∧ low+m.lo≤low+m.lo+d ∧
        low+m.lo+d-(low+m.lo)≤ m.hi-m.lo := fun d h₁ h₂ => by
    have := hsum d h₁
    rw [hback]
    exact ⟨BitVec.le_def.mpr (by omega),BitVec.le_def.mpr (by omega),BitVec.le_def.mpr (by omega)⟩
  unfold adjustRange
  dsimp only
  by_cases hcut : m.hi-m.lo<high-low
  · rw [if_pos hcut]
    rw [BitVec.lt_def,hin,hmax] at hcut
    have hstop := hsum (m.hi-m.lo) (by omega)
    rw [if_pos (hcheck (m.hi-m.lo) (by omega) (by omega))]
    exact ⟨_,_,rfl,hlow,BitVec.le_def.mpr (by omega),by omega,by omega,Or.inr (by omega)⟩
  · rw [if_neg hcut]
    rw [BitVec.lt_def,hin,hmax] at hcut
    have hstop := hsum (high-low) (by omega)
    rw [if_pos (hcheck (high-low) (by omega) (by omega))]
    exact ⟨_,_,rfl,hlow,BitVec.le_def.mpr (by omega),by omega,by omega,Or.inl (by omega)⟩

end Decoder

section Window

variable {k i : ℕ} {r r' : TlmRam} {m : PortMapping} {a b : BitVec 64} {s : MemorySegment}

/-- A direct pointer, given by its range and the number of its segment, begins
where a window shows the segment and ends in it. -/
structure Shows (r : TlmRam) (m : PortMapping) (a b : BitVec 64) (i : ℕ)
    (s : MemorySegment) : Prop where
  /-- The segment is in the list of the RAM. -/
  member : s∈r.head
  /-- It has the number in the pointer. -/
  index : s.index=i
  /-- The pointer begins with the segment. -/
  start : a.toNat=s.base.toNat+m.lo.toNat
  /-- Its range is not empty. -/
  order : a≤b
  /-- It ends in the segment. -/
  stop : b.toNat≤ s.top.toNat+m.lo.toNat

/-- An access of a processor through a pointer to a segment. -/
def pointerAccess (r : TlmRam) (i offset : ℕ) (p : GenericPayload) : Option (TlmRam×Memory) :=
  if p.command=.read then
    (directRead r i offset p.dataLength.toNat p.buffer).map fun buffer => (r,buffer)
  else (directWrite r i offset p.dataLength.toNat p.buffer).map fun r' => (r',p.buffer)

/-- A pointer that no invalidation has met is as good as before. -/
theorem Shows.kept (h : Shows r m a b i s) {invalid : List Invalidation}
    (hkept : Kept k r r' invalid) (hroom : r.maxAddress.toNat+2^k+m.lo.toNat≤2^64)
    (hmeet : ∀ v∈invalid,¬(a≤offsetOutOf m v.2 ∧ offsetOutOf m v.1 ≤b)) :
    ∃ u,Shows r' m a b i u := by
  rcases hkept.kept s h.member with ⟨u,hu,hui,hur⟩|⟨v,hv,hlo,hhi⟩
  · have hbase : u.base.toNat=s.base.toNat := congrArg Range.lo hur
    have htop : u.top.toNat=s.top.toNat := congrArg Range.hi hur
    exact ⟨u,hu,hui.trans h.index,by rw [hbase]; exact h.start,h.order,by rw [htop]; exact h.stop⟩
  · -- the invalidation would have met the pointer
    exfalso
    refine hmeet v hv ?_
    have hlimit := hkept.limited v hv
    have hstart := h.start
    have hstop := h.stop
    have horder := BitVec.le_def.mp h.order
    change v.1.toNat≤ s.base.toNat at hlo
    change s.top.toNat≤v.2.toNat at hhi
    have h₁ : (offsetOutOf m v.1).toNat=v.1.toNat+m.lo.toNat := by
      rw [offsetOutOf,BitVec.toNat_add]
      exact Nat.mod_eq_of_lt (by omega)
    have h₂ : (offsetOutOf m v.2).toNat=v.2.toNat+m.lo.toNat := by
      rw [offsetOutOf,BitVec.toNat_add]
      exact Nat.mod_eq_of_lt (by omega)
    rw [BitVec.le_def,BitVec.le_def,h₁,h₂]
    omega

/-- A read or write through a pointer does to the simulated memory what it asks
for at the distance from the start of the window. -/
theorem Shows.access (h : Shows r m a b i s) (hco : Coherent k r) {p : GenericPayload}
    (hcommand : p.command≠.ignore) (hlo : a≤p.address)
    (hhi : p.address.toNat+p.dataLength.toNat ≤b.toNat+1) :
    ∃ r' q,flatExecute (contents r) {p with address := m.offsetInto p.address}=
        (contents r',q,true) ∧
      pointerAccess r i (p.address-a).toNat p=some (r',q.buffer) ∧ Kept k r r' [] := by
  have hstart := h.start
  have hstop := h.stop
  have hlo' := BitVec.le_def.mp hlo
  have hoff : (m.offsetInto p.address).toNat=p.address.toNat-m.lo.toNat :=
    BitVec.toNat_sub_of_le (BitVec.le_def.mpr (by omega))
  have hoff' : (p.address-a).toNat=p.address.toNat-m.lo.toNat-s.base.toNat := by
    rw [BitVec.toNat_sub_of_le hlo]
    omega
  have hu₁ : s.base.toNat≤p.address.toNat-m.lo.toNat := by omega
  have hu₂ : p.address.toNat-m.lo.toNat+p.dataLength.toNat≤ s.top.toNat+1 := by omega
  unfold pointerAccess flatExecute
  dsimp only
  rw [hoff,hoff',←h.index]
  cases hp : p.command with
  | ignore => exact absurd hp hcommand
  | read =>
    rw [if_pos rfl,direct_read hco h.member hu₁ hu₂]
    exact ⟨r,_,rfl,rfl,Kept.refl hco⟩
  | write =>
    obtain ⟨r',hr,hkept,hwritten⟩ := direct_write hco h.member hu₁ hu₂ p.buffer
    rw [if_neg Command.noConfusion,hr,←hwritten]
    exact ⟨r',_,rfl,rfl,hkept⟩

end Window

section Request

variable {k : ℕ} {r : TlmRam} {p q : GenericPayload}

/-- There are bytes in a request, and a RAM decodes them all. -/
structure Decoded (r : TlmRam) (p : GenericPayload) : Prop where
  /-- There are bytes. -/
  some : p.dataLength≠0
  /-- The last one is decoded. -/
  last : p.address.toNat+p.dataLength.toNat≤ r.maxAddress.toNat+1

/-- The last address of such a request, which does not wrap around. -/
theorem Decoded.last_toNat (h : Decoded r p) :
    (p.address+length p-1).toNat+1=p.address.toNat+p.dataLength.toNat := by
  have hpos : p.dataLength.toNat≠0 := fun hz => h.some (BitVec.eq_of_toNat_eq hz)
  have hlast := h.last
  have hmax := r.maxAddress.isLt
  rw [BitVec.toNat_sub,BitVec.toNat_add,length_toNat]
  change (2^64-1+(p.address.toNat+p.dataLength.toNat)%2^64)%2^64+1=_
  omega

/-- The RAM accepts the range. -/
theorem Decoded.checked (h : Decoded r p) : p.address+length p-1≤ r.maxAddress := by
  have heq := h.last_toNat
  have hlast := h.last
  rw [BitVec.le_def]
  omega

/-- A request for a direct pointer finds or makes a segment around its bytes,
and the same request once more finds that segment again. -/
theorem ask_twice (h : Coherent k r) (hp : Decoded r p) (haddress : q.address=p.address)
    (hlength : q.dataLength=p.dataLength) :
    ∃ r' reply reply' seg,
      r.getDirectMemPtr p=some (r',reply,some ⟨seg.base,seg.top,seg.index⟩) ∧
      r'.getDirectMemPtr q=some ({r' with cache := some seg.index},reply',
        some ⟨seg.base,seg.top,seg.index⟩) ∧
      reply'.invalidated=[] ∧ Kept k r r' reply.invalidated ∧ contents r'=contents r ∧
      Kept k r' {r' with cache := some seg.index} [] ∧ seg∈r'.head ∧
      seg.base≤p.address ∧ p.address≤ seg.top ∧
      p.address.toNat+p.dataLength.toNat≤ seg.top.toNat+1 := by
  have hpos : p.dataLength.toNat≠0 := fun hz => hp.some (BitVec.eq_of_toNat_eq hz)
  have hlast := hp.last
  have hlast' := hp.last_toNat
  have hmax := r.maxAddress.isLt
  obtain ⟨r',reply,dmi,hr,hkept,hcontents,_,hiff,_,hpoints⟩ := pointer_spec h (p := p)
    ⟨by omega,fun hz => absurd hz hp.some⟩
  obtain ⟨d,rfl⟩ := Option.isSome_iff_exists.mp (hiff.mpr hp.checked)
  obtain ⟨⟨seg,hseg,hindex,hbase,htop⟩,hlo,hhi,hend⟩ := hpoints d rfl
  obtain ⟨start,stop,i⟩ := d
  subst hindex hbase htop
  dsimp only at hlo hhi hend
  have hcache := cache_placed (q := range seg) (c := some seg.index) hkept.coherent hseg
    ⟨le_rfl,le_rfl⟩ fun i hi => ⟨seg,hseg,Option.some.inj hi⟩
  refine ⟨r',reply,⟨q,r'.dmiOn,[]⟩,seg,hr,?_,rfl,hkept,hcontents,placed_kept hcache,hseg,hlo,hhi,
    hend⟩
  have hsame : length q=length p := congrArg (BitVec.setWidth 64) hlength
  have horder : p.address≤p.address+length p-1 := BitVec.le_def.mpr (by omega)
  have hin : seg.fallsWithin p.address (p.address+length p-1)=true := by
    rw [MemorySegment.fallsWithin,Bool.and_eq_true,decide_eq_true_eq,decide_eq_true_eq]
    exact ⟨hlo,BitVec.le_def.mpr (by omega)⟩
  have hfind := findAddSeg_hit hkept.coherent hseg horder hin
  have hc : r'.checkAddressRange p.address (length p)=true := by
    rw [TlmRam.checkAddressRange,decide_eq_true_eq,
      show r'.maxAddress=r.maxAddress from congrArg Prod.fst hkept.shape]
    exact hp.checked
  rw [←haddress,←hsame] at hfind hc
  unfold TlmRam.getDirectMemPtr TlmRam.getDMI
  rw [if_pos hc,hfind]
  rfl

end Request

end SystemCDma.DirectMemory
