import SystemCDma.TlmBus

/-!
# The sparse RAM of the platform

The RAM allocates its contents in segments, on first use and in whole pages.
The segments stay in a list in order of address, with a pointer to the last one
used beside it. An access that touches several segments, or crosses the end of
one, makes a new segment around all of them, copies their contents over,
tells the initiators to give up direct pointers into that range, and deletes
the old ones. The functions of a segment and those on ranges are the inline
ones of the segment class, as they are compiled into `tlmMemory.o`.

Pointers to segments are their numbers. A step that stops at an assertion, or
follows a pointer to nothing, or copies past the end of a segment, is `none`.
Allocation does not fail, and tracing prints only.
-/

namespace SystemCDma.TlmMemory

open ByteMemory TlmBus

/-- A contiguous part of the simulated memory. -/
structure MemorySegment where
  /-- First simulated address. -/
  base : BitVec 64
  /-- Last simulated address. -/
  top : BitVec 64
  /-- Number of the segment in order of creation. -/
  index : ℕ
  /-- The allocated bytes. -/
  native : Memory

/-- A new segment; its bytes are cleared. -/
def MemorySegment.new (index : ℕ) (base top : BitVec 64) : MemorySegment :=
  ⟨base,top,index,fun _ => 0⟩

/-- Number of bytes of a segment. -/
def MemorySegment.bytes (s : MemorySegment) : BitVec 64 := s.top-s.base+1

/-- The segment contains both ends of a range. -/
def MemorySegment.fallsWithin (s : MemorySegment) (lo hi : BitVec 64) : Bool :=
  s.base≤lo && hi ≤ s.top

/-- The segment does not lie on one side of a range. -/
def MemorySegment.hasOverlap (s : MemorySegment) (lo hi : BitVec 64) : Bool :=
  s.base≤hi && lo ≤ s.top

/-- A RAM. -/
structure TlmRam where
  /-- The last address that is decoded. -/
  maxAddress : BitVec 64
  /-- The page size less one. -/
  maxPage : BitVec 64
  /-- The complement of `maxPage`, used to find the start of a page. -/
  addrMask : BitVec 64
  /-- Direct pointers are offered in every response. -/
  dmiOn : Bool
  /-- The segments in list order, from the head. -/
  head : List MemorySegment
  /-- Segments that were created but found no place in the list. -/
  unlinked : List MemorySegment
  /-- The segment that was used last, if any. -/
  cache : Option ℕ
  /-- Number of the next segment. -/
  segIndex : ℕ

/-- The page mask: one page for the whole memory, or pages of a megabyte, or
of the size of the memory if it is smaller. -/
def calculatePageSize (highAddress : BitVec 64) (onePage : Bool) : BitVec 64 :=
  if onePage then highAddress else if highAddress≤0xfffff then highAddress else 0xfffff

/-- A RAM after its construction. -/
def tlmRam (highAddress : BitVec 64) (dmi onePage : Bool) : TlmRam where
  maxAddress := highAddress
  maxPage := calculatePageSize highAddress onePage
  addrMask := ~~~calculatePageSize highAddress onePage
  dmiOn := dmi
  head := []
  unlinked := []
  cache := none
  segIndex := 0

/-- The range of addresses is decoded. The last address is computed with 64 bits. -/
def TlmRam.checkAddressRange (r : TlmRam) (addr bytes : BitVec 64) : Bool :=
  addr+bytes-1 ≤ r.maxAddress

/-- The data length of a payload as an address. -/
abbrev length (p : GenericPayload) : BitVec 64 := p.dataLength.setWidth 64

/-- The address range of a payload is decoded. -/
def TlmRam.checkPayloadAddress (r : TlmRam) (p : GenericPayload) : Bool :=
  r.checkAddressRange p.address (length p)

/-- The segment behind a pointer. -/
def TlmRam.deref (r : TlmRam) (i : ℕ) : Option MemorySegment :=
  (r.head++r.unlinked).find? fun s => s.index=i

/-- A segment of the list has a byte in the range. -/
def TlmRam.overlapsAny (r : TlmRam) (lo hi : BitVec 64) : Bool :=
  r.head.any fun s => s.hasOverlap lo hi

/-- The start of the first page and the end of the last page of a range. -/
def TlmRam.roundToPageBoundaries (r : TlmRam) (lo hi : BitVec 64) : BitVec 64×BitVec 64 :=
  (lo &&& r.addrMask,(hi &&& r.addrMask)+r.maxPage)

/-- The range in whole pages, grown over the segments it overlaps on one pass
through the list. -/
def TlmRam.coverRange (r : TlmRam) (lo hi : BitVec 64) : BitVec 64×BitVec 64 :=
  r.head.foldl
    (fun range s =>
      if s.hasOverlap range.1 range.2 then
        (if range.1 ≤ s.base then range.1 else s.base,if range.2 ≤ s.top then s.top else range.2)
      else range)
    (r.roundToPageBoundaries lo hi)

/-- Insert a segment behind the first one of the list that ends before it and
whose successor, if any, begins after it. There may be no such place. -/
def linkBehind (seg : MemorySegment) : List MemorySegment → Option (List MemorySegment)
  | [] => none
  | [s] => if s.top < seg.base then some [s,seg] else none
  | s::n::rest =>
    if s.top < seg.base ∧ seg.top<n.base then some (s::seg::n::rest)
    else (linkBehind seg (n::rest)).map (s::·)

/-- Put a segment into the list, and into the cache in any case. -/
def TlmRam.linkSeg (r : TlmRam) (seg : MemorySegment) : TlmRam :=
  let r' := {r with cache := some seg.index}
  match r.head with
  | [] => {r' with head := [seg]}
  | first::rest =>
    if seg.top<first.base then {r' with head := seg::first::rest}
    else match linkBehind seg (first::rest) with
      | some head => {r' with head := head}
      | none => {r' with unlinked := seg::r.unlinked}

/-- Take a segment of the list out and delete it. -/
def TlmRam.unlinkSeg (r : TlmRam) (seg : MemorySegment) : TlmRam :=
  {r with
    cache := if r.cache=some seg.index then none else r.cache
    head := r.head.filter fun s => s.index≠seg.index}

/-- Copy the contents of a segment to its place in a new one. -/
def copyIn (new seg : MemorySegment) : Option MemorySegment :=
  let offset := (seg.base-new.base).toNat
  if offset+seg.bytes.toNat≤new.bytes.toNat then
    some {new with native := copyBytes new.native offset seg.native seg.bytes.toNat}
  else none

/-- A range of addresses in which direct pointers become invalid. -/
abbrev Invalidation := BitVec 64×BitVec 64

/-- The segment that the cache points to, if it points to one. -/
def TlmRam.cached (r : TlmRam) : Option (Option MemorySegment) :=
  match r.cache with
  | some i => (r.deref i).map some
  | none => some none

/-- Find the segment of a range or make one. -/
def TlmRam.findAddSeg (r : TlmRam) (addr bytes : BitVec 64) :
    Option (TlmRam×MemorySegment×List Invalidation) := do
  let bot := addr
  let top := addr+bytes-1
  let cached ← r.cached
  match cached.filter fun s => s.fallsWithin bot top with
  | some seg => some (r,seg,[])
  | none =>
    match r.head.find? fun s => s.fallsWithin bot top with
    | some seg => some ({r with cache := some seg.index},seg,[])
    | none =>
      if r.overlapsAny bot top then do
        let range := r.coverRange bot top
        let old := r.head.filter fun s => s.hasOverlap range.1 range.2
        let seg ← old.foldlM copyIn (.new r.segIndex range.1 range.2)
        let r' := old.foldl TlmRam.unlinkSeg {r with segIndex := r.segIndex+1}
        some (r'.linkSeg seg,seg,[range])
      else
        let range := r.roundToPageBoundaries bot top
        let seg := MemorySegment.new r.segIndex range.1 range.2
        some ({r with segIndex := r.segIndex+1}.linkSeg seg,seg,[])

/-- The segment of an access and the place of its first byte there. -/
def TlmRam.getInPage (r : TlmRam) (addr bytes : BitVec 64) :
    Option (TlmRam×MemorySegment×ℕ×List Invalidation) := do
  let (r',seg,invalid) ← r.findAddSeg addr bytes
  if seg.base≤addr ∧ addr ≤ seg.top then
    let offset := (addr-seg.base).toNat
    if offset+bytes.toNat ≤ seg.bytes.toNat then some (r',seg,offset,invalid) else none
  else none

/-- Change the bytes of the segment with a number. -/
def setNative (i : ℕ) (f : Memory → Memory) (s : MemorySegment) : MemorySegment :=
  if s.index=i then {s with native := f s.native} else s

/-- Read into a data buffer. -/
def TlmRam.rread (r : TlmRam) (addr bytes : BitVec 64) (data : Memory) :
    Option (TlmRam×Memory×List Invalidation) := do
  let (r',seg,offset,invalid) ← r.getInPage addr bytes
  some (r',copyBytes data 0 (fun k => seg.native (offset+k)) bytes.toNat,invalid)

/-- Write from a data buffer. -/
def TlmRam.rwrite (r : TlmRam) (addr bytes : BitVec 64) (data : Memory) :
    Option (TlmRam×List Invalidation) := do
  let (r',seg,offset,invalid) ← r.getInPage addr bytes
  let change := setNative seg.index fun native => copyBytes native offset data bytes.toNat
  some ({r' with head := r'.head.map change,unlinked := r'.unlinked.map change},invalid)

/-- What an entry point of the RAM leaves behind, beside the RAM itself. -/
structure Reply where
  /-- The payload as it is handed back. -/
  payload : GenericPayload
  /-- The hint that a direct pointer may be asked for. -/
  dmiAllowed : Bool
  /-- The ranges that were invalidated during the call. -/
  invalidated : List Invalidation

/-- Execute a payload whose addresses are decoded; other commands than reads
and writes are refused. -/
def TlmRam.execute (r : TlmRam) (p : GenericPayload) :
    Option (TlmRam×GenericPayload×Bool×List Invalidation) :=
  match p.command with
  | .write => do
    let (r',invalid) ← r.rwrite p.address (length p) p.buffer
    some (r',p,true,invalid)
  | .read => do
    let (r',buffer,invalid) ← r.rread p.address (length p) p.buffer
    some (r',{p with buffer := buffer},true,invalid)
  | .ignore => some (r,p,false,[])

/-- The blocking transport call. The errors for byte enables and for streaming
are overwritten by the status of the access. -/
def TlmRam.customBTransport (r : TlmRam) (p : GenericPayload) : Option (TlmRam×Reply) :=
  let noted : ResponseStatus :=
    if p.byteEnablePtr.isSome then .byteEnableErrorResponse
    else if p.streamingWidth≠p.dataLength then .burstErrorResponse
    else p.responseStatus
  let p₁ := {p with responseStatus := noted}
  if r.checkPayloadAddress p then do
    let (r',p₂,ok,invalid) ← r.execute p₁
    let status : ResponseStatus := if ok then .okResponse else .commandErrorResponse
    some (r',⟨{p₂ with responseStatus := status},r.dmiOn,invalid⟩)
  else some (r,⟨{p₁ with responseStatus := .addressErrorResponse},r.dmiOn,[]⟩)

/-- The debug transport call. It returns the number of bytes moved. -/
def TlmRam.debugTransport (r : TlmRam) (p : GenericPayload) : Option (TlmRam×Reply×BitVec 32) :=
  if r.checkPayloadAddress p then do
    let (r',p',ok,invalid) ← r.execute p
    some (r',⟨p',r.dmiOn,invalid⟩,if ok then p.dataLength else 0)
  else some (r,⟨p,r.dmiOn,[]⟩,0)

/-- A direct pointer: the range it is good for and the segment whose first
byte it points to. -/
structure Dmi where
  /-- First address of the range. -/
  startAddress : BitVec 64
  /-- Last address of the range. -/
  endAddress : BitVec 64
  /-- The segment pointed into. -/
  dmiPtr : ℕ
  deriving DecidableEq,Repr

/-- The segment of a range as a direct pointer, if its addresses are decoded. -/
def TlmRam.getDMI (r : TlmRam) (addr bytes : BitVec 64) :
    Option (TlmRam×Option Dmi×List Invalidation) :=
  if r.checkAddressRange addr bytes then do
    let (r',seg,invalid) ← r.findAddSeg addr bytes
    some (r',some ⟨seg.base,seg.top,seg.index⟩,invalid)
  else some (r,none,[])

/-- The call for a direct pointer. Without one the range it returns is not set. -/
def TlmRam.getDirectMemPtr (r : TlmRam) (p : GenericPayload) :
    Option (TlmRam×Reply×Option Dmi) := do
  let (r',dmi,invalid) ← r.getDMI p.address (length p)
  some (r',⟨p,dmi.isSome && r.dmiOn,invalid⟩,dmi)

end SystemCDma.TlmMemory
