import SystemCDma.EventRun
import SystemCDma.SparseMemory

/-!
# The sparse RAM as a flat memory

Seen from its bus socket the RAM is a byte memory that starts as zero: blocking
and debug transport move the same bytes and give the same answers, whatever
segments exist, and the program does not abort. This needs pages of a power of
two. With any other page size a segment is made that finds no place in the
list, and a byte is lost.
-/

namespace SystemCDma.FlatMemory

open ByteMemory EventRun TlmBus RangeList TlmMemory SparseMemory

/-- A call at the bus socket of a RAM. -/
inductive Call where
  /-- Blocking transport. -/
  | transport (p : GenericPayload)
  /-- Debug transport. -/
  | debug (p : GenericPayload)
  /-- Request for a direct pointer. -/
  | pointer (p : GenericPayload)

/-- The payload of a call. -/
def Call.payload : Call → GenericPayload
  | .transport p | .debug p | .pointer p => p

/-- What a call hands back, apart from the pointer itself. -/
structure Handed where
  /-- The payload. -/
  payload : GenericPayload
  /-- The hint that a direct pointer may be asked for. -/
  dmiAllowed : Bool
  /-- The bytes that a debug transport moved, or whether a pointer was given. -/
  result : BitVec 32

/-- A call of the RAM. -/
def serve (r : TlmRam) : Call → Option (TlmRam×Handed)
  | .transport p => (r.customBTransport p).map fun x => (x.1,⟨x.2.payload,x.2.dmiAllowed,0⟩)
  | .debug p => (r.debugTransport p).map fun x => (x.1,⟨x.2.1.payload,x.2.1.dmiAllowed,x.2.2⟩)
  | .pointer p => (r.getDirectMemPtr p).map fun x =>
      (x.1,⟨x.2.1.payload,x.2.1.dmiAllowed,if x.2.2.isSome then 1 else 0⟩)

/-- Read or write a byte memory. -/
def flatExecute (m : Memory) (p : GenericPayload) : Memory×GenericPayload×Bool :=
  match p.command with
  | .write => (copyBytes m p.address.toNat p.buffer p.dataLength.toNat,p,true)
  | .read =>
    (m,{p with
      buffer := copyBytes p.buffer 0 (fun k => m (p.address.toNat+k)) p.dataLength.toNat},true)
  | .ignore => (m,p,false)

/-- A byte memory that decodes the addresses up to `last`. -/
def flatServe (last : BitVec 64) (dmi : Bool) (m : Memory) : Call → Option (Memory×Handed)
  | .transport p =>
    if p.address+length p-1≤last then
      let (m',p',ok) := flatExecute m p
      some (m',⟨{p' with responseStatus := if ok then .okResponse else .commandErrorResponse},
        dmi,0⟩)
    else some (m,⟨{p with responseStatus := .addressErrorResponse},dmi,0⟩)
  | .debug p =>
    if p.address+length p-1≤last then
      let (m',p',ok) := flatExecute m p
      some (m',⟨p',dmi,if ok then p.dataLength else 0⟩)
    else some (m,⟨p,dmi,0⟩)
  | .pointer p =>
    if p.address+length p-1≤last then some (m,⟨p,dmi,1⟩) else some (m,⟨p,false,0⟩)

/-- The bytes of the payload do not go past the end of the address space, and
a payload without bytes does not name the start of a page other than the first. -/
structure Admitted (k : ℕ) (p : GenericPayload) : Prop where
  /-- The address does not wrap around. -/
  fits : p.address.toNat+p.dataLength.toNat≤2^64
  /-- The address before one without bytes is in the same page, or not decoded. -/
  empty : p.dataLength=0 → p.address=0 ∨ ¬2^k∣p.address.toNat

section Access

variable {k : ℕ} {r : TlmRam} {p : GenericPayload}

/-- The data length is a small address. -/
theorem length_toNat (p : GenericPayload) : (length p).toNat=p.dataLength.toNat := by
  have h := p.dataLength.isLt
  rw [length,BitVec.toNat_setWidth]
  exact Nat.mod_eq_of_lt (by omega)

/-- The last address of a decoded payload, as a number. -/
theorem last_toNat (h : Paged k r) (ha : Admitted k p) (hc : r.checkPayloadAddress p=true) :
    (p.address+length p-1).toNat≤ r.maxAddress.toNat ∧
      (p.address+length p-1).toNat+1=p.address.toNat+p.dataLength.toNat ∧
        (p.dataLength=0 → ¬2^k∣p.address.toNat) := by
  have hle : (p.address+length p-1).toNat≤ r.maxAddress.toNat := by
    rw [TlmRam.checkPayloadAddress,TlmRam.checkAddressRange,decide_eq_true_eq,BitVec.le_def] at hc
    exact hc
  have hlen := length_toNat p
  have hfits := ha.fits
  have hroom := h.room
  have hpos := page_pos k
  have hlt := p.address.isLt
  have hne : p.address.toNat+p.dataLength.toNat≠0 := by
    intro hz
    rw [BitVec.toNat_sub,BitVec.toNat_add,hlen,hz] at hle
    change (2^64-1+0%2^64)%2^64≤ r.maxAddress.toNat at hle
    omega
  have heq : (p.address+length p-1).toNat+1=p.address.toNat+p.dataLength.toNat := by
    rw [BitVec.toNat_sub,BitVec.toNat_add,hlen]
    change (2^64-1+(p.address.toNat+p.dataLength.toNat)%2^64)%2^64+1=_
    omega
  refine ⟨hle,heq,fun hz => (ha.empty hz).resolve_left fun h0 => hne ?_⟩
  rw [hz,h0]
  rfl

/-- The pages of a decoded payload are in order, and its addresses lie in them. -/
theorem round_valid (h : Paged k r) (ha : Admitted k p) (hc : r.checkPayloadAddress p=true) :
    let q := (asRange (p.address,p.address+length p-1)).round (2^k)
    q.lo≤q.hi ∧ q.lo≤p.address.toNat ∧ p.address.toNat≤q.hi ∧
      p.address.toNat+p.dataLength.toNat≤q.hi+1 := by
  obtain ⟨_,htop,hempty⟩ := last_toNat h ha hc
  intro q
  have hpos := page_pos k
  have hlo : q.lo=p.address.toNat-p.address.toNat%2^k := rfl
  have hhi : q.hi=(p.address+length p-1).toNat-(p.address+length p-1).toNat%2^k+(2^k-1) := rfl
  have hmod := Nat.mod_lt (p.address+length p-1).toNat hpos
  have hend : (p.address+length p-1).toNat≤q.hi := by omega
  have haddr : p.address.toNat≤q.hi := by
    by_cases hz : p.dataLength=0
    · -- the address follows the last one in the same page
      have hdvd : 2^k∣q.hi+1 := (Range.round_aligned hpos _).2
      by_contra hlt
      have hz' : p.dataLength.toNat=0 := by rw [hz]; rfl
      have heq : q.hi+1=p.address.toNat := by omega
      exact hempty hz (heq ▸ hdvd)
    · have hz' : p.dataLength.toNat≠0 := fun h0 => hz (BitVec.eq_of_toNat_eq h0)
      omega
  refine ⟨?_,?_,haddr,?_⟩ <;> omega

/-- The segment of a decoded payload contains all its bytes. -/
theorem getInPage_spec (h : Coherent k r) (ha : Admitted k p) (hc : r.checkPayloadAddress p=true) :
    ∃ r' seg invalid,
      r.getInPage p.address (length p)=
        some (r',seg,p.address.toNat-seg.base.toNat,invalid) ∧
      Placed k r r' seg (asRange (p.address,p.address+length p-1)) invalid ∧
      seg.base.toNat≤p.address.toNat ∧
      p.address.toNat+p.dataLength.toNat≤ seg.top.toNat+1 := by
  obtain ⟨htop,_,_⟩ := last_toNat h.toPaged ha hc
  obtain ⟨hvalid,hqlo,hqhi,hqend⟩ := round_valid h.toPaged ha hc
  obtain ⟨r',seg,invalid,hfind,hplaced⟩ := findAddSeg_spec h hvalid htop
  obtain ⟨hlo,hhi⟩ := hplaced.around
  have hbase : seg.base.toNat≤p.address.toNat := hlo.trans hqlo
  have haddr : p.address.toNat≤ seg.top.toNat := hqhi.trans hhi
  have hend : p.address.toNat+p.dataLength.toNat≤ seg.top.toNat+1 :=
    hqend.trans (Nat.succ_le_succ hhi)
  have hroom := hplaced.coherent.room
  have hbound := hplaced.coherent.bounded seg hplaced.member
  have hbytes := bytes_toNat (s := seg) (hbase.trans haddr) (by omega)
  have hoff : (p.address-seg.base).toNat=p.address.toNat-seg.base.toNat :=
    BitVec.toNat_sub_of_le (BitVec.le_def.mpr hbase)
  refine ⟨r',seg,invalid,?_,hplaced,hbase,hend⟩
  rw [TlmRam.getInPage,hfind]
  dsimp only [Option.bind_eq_bind,Option.bind_some]
  rw [if_pos ⟨BitVec.le_def.mpr hbase,BitVec.le_def.mpr haddr⟩,hoff,length_toNat,hbytes,
    if_pos (by omega)]

/-- The RAM after bytes of one of its segments have been changed. -/
def changed (r : TlmRam) (i : ℕ) (f : Memory → Memory) : TlmRam :=
  {r with head := r.head.map (setNative i f),unlinked := r.unlinked.map (setNative i f)}

/-- The addresses of a segment do not depend on its bytes. -/
theorem setNative_range (i : ℕ) (f : Memory → Memory) (s : MemorySegment) :
    range (setNative i f s)=range s := by
  unfold setNative
  split_ifs <;> rfl

/-- Nor does its number. -/
theorem setNative_index (i : ℕ) (f : Memory → Memory) (s : MemorySegment) :
    (setNative i f s).index=s.index := by
  unfold setNative
  split_ifs <;> rfl

/-- Changing bytes of a segment keeps the invariant. -/
theorem changed_coherent (h : Coherent k r) (i : ℕ) (f : Memory → Memory) :
    Coherent k (changed r i f) := by
  have hranges : (r.head.map (setNative i f)).map range=r.head.map range := by
    rw [List.map_map]
    exact List.map_congr_left fun s _ => setNative_range i f s
  have hindexes : (r.head.map (setNative i f)).map MemorySegment.index=
      r.head.map MemorySegment.index := by
    rw [List.map_map]
    exact List.map_congr_left fun s _ => setNative_index i f s
  refine ⟨⟨h.maxPage,h.addrMask,h.room⟩,?_,?_,?_,?_,?_,fun j hj => ?_,?_⟩
  · rw [changed,hranges]
    exact h.ascending
  · exact List.forall_mem_map.mpr fun s hs => by rw [setNative_range]; exact h.aligned s hs
  · refine List.forall_mem_map.mpr fun s hs => ?_
    have htop := congrArg Range.hi (setNative_range i f s)
    change (setNative i f s).top.toNat=s.top.toNat at htop
    rw [htop]
    exact h.bounded s hs
  · exact List.forall_mem_map.mpr fun s hs => by rw [setNative_index]; exact h.numbered s hs
  · rw [changed,hindexes]
    exact h.distinct
  · obtain ⟨s,hs,hsj⟩ := h.cached j hj
    exact ⟨setNative i f s,List.mem_map_of_mem hs,(setNative_index i f s).trans hsj⟩
  · rw [changed,h.linked]
    rfl

/-- Writing into a segment writes into the simulated memory. -/
theorem contents_write (h : Coherent k r) {seg : MemorySegment} (hs : seg∈r.head) {a n : ℕ}
    (hlo : seg.base.toNat≤a) (hhi : a+n≤ seg.top.toNat+1) (data : Memory) :
    contents (changed r seg.index fun native => copyBytes native (a-seg.base.toNat) data n)=
      copyBytes (contents r) a data n := by
  have hco := changed_coherent h seg.index
    fun native => copyBytes native (a-seg.base.toNat) data n
  funext x
  by_cases hx : ∃ s∈r.head,x∈(range s).points
  · obtain ⟨s,hs',hxs⟩ := hx
    have hx' := hxs
    rw [←setNative_range seg.index fun native => copyBytes native (a-seg.base.toNat) data n] at hx'
    have hold : contents r x=byteAt s x := view_eq range byteAt 0 h.ascending hs' hxs
    have hxlo : s.base.toNat≤x := hxs.1
    rw [contents,view_eq range byteAt 0 hco.ascending (List.mem_map_of_mem hs') hx']
    dsimp only [copyBytes]
    rw [hold]
    by_cases hseg : s=seg
    · rw [hseg] at hxlo ⊢
      dsimp only [byteAt,setNative]
      rw [if_pos rfl]
      dsimp only [copyBytes]
      by_cases hin : a≤x ∧ x<a+n
      · rw [if_pos hin,if_pos ⟨by omega,by omega⟩]
        congr 1
        omega
      · rw [if_neg hin,if_neg (fun hc => hin ⟨by omega,by omega⟩)]
    · have hne : s.index≠seg.index := fun he => hseg (eq_of_index h hs' hs he)
      have hout : ¬(a≤x ∧ x<a+n) := by
        intro hin
        have hxseg : x∈(range seg).points := ⟨hlo.trans hin.1,by
          change x≤ seg.top.toNat
          omega⟩
        exact hseg (h.ascending.eq_of_meets hs' hs (Range.meets_of_mem hxs hxseg))
      rw [if_neg hout,setNative,if_neg hne]
  · have hout : ∀ s∈r.head,x∉(range s).points := fun s hs hxs => hx ⟨s,hs,hxs⟩
    have hin : ¬(a≤x ∧ x<a+n) := fun hin => hout seg hs ⟨hlo.trans hin.1,by
      change x≤ seg.top.toNat
      omega⟩
    have hnew : ∀ s∈(changed r seg.index
        fun native => copyBytes native (a-seg.base.toNat) data n).head,x∉(range s).points :=
      List.forall_mem_map.mpr fun s hs => by rw [setNative_range]; exact hout s hs
    dsimp only [copyBytes]
    rw [if_neg hin,contents,contents,view_default range byteAt 0 hnew,
      view_default range byteAt 0 hout]

/-- A read hands back the bytes of the simulated memory. -/
theorem read_native (h : Coherent k r) {seg : MemorySegment} (hs : seg∈r.head) {a n : ℕ}
    (hlo : seg.base.toNat≤a) (hhi : a+n≤ seg.top.toNat+1) (data : Memory) :
    copyBytes data 0 (fun i => seg.native (a-seg.base.toNat+i)) n=
      copyBytes data 0 (fun i => contents r (a+i)) n := by
  refine copyBytes_congr data 0 fun i hi => ?_
  have hin : a+i∈(range seg).points := ⟨by
    change seg.base.toNat≤a+i
    omega,by
    change a+i≤ seg.top.toNat
    omega⟩
  rw [contents,view_eq range byteAt 0 h.ascending hs hin,byteAt]
  congr 1
  omega

/-- What a call leaves behind, for the simulated memory and for the pointers
into the segments. -/
structure Kept (k : ℕ) (r r' : TlmRam) (invalid : List Invalidation) : Prop where
  /-- The invariant is kept. -/
  coherent : Coherent k r'
  /-- What construction has fixed stays. -/
  shape : shape r'=shape r
  /-- The addresses of a number stay in the list, or they are invalidated. -/
  kept : ∀ s∈r.head,(∃ t∈r'.head,t.index=s.index ∧ range t=range s) ∨
    ∃ v∈invalid,(asRange v).lo≤(range s).lo ∧ (range s).hi≤(asRange v).hi
  /-- No more is invalidated than segments can hold. -/
  limited : ∀ v∈invalid,v.2.toNat < r.maxAddress.toNat+2^k

/-- Finding a segment keeps the pointers. -/
theorem placed_kept {r' : TlmRam} {seg : MemorySegment} {q : Range ℕ}
    {invalid : List Invalidation} (h : Placed k r r' seg q invalid) : Kept k r r' invalid :=
  ⟨h.coherent,h.shape,fun s hs => (h.kept s hs).imp_left fun hs' => ⟨s,hs',rfl,rfl⟩,h.limited⟩

/-- So does changing bytes afterwards. -/
theorem Kept.change {r' : TlmRam} {invalid : List Invalidation} (h : Kept k r r' invalid) (i : ℕ)
    (f : Memory → Memory) : Kept k r (changed r' i f) invalid :=
  ⟨changed_coherent h.coherent i f,h.shape,fun s hs =>
    (h.kept s hs).imp_left fun ⟨t,ht,hti,htr⟩ => ⟨setNative i f t,List.mem_map_of_mem ht,
      (setNative_index i f t).trans hti,(setNative_range i f t).trans htr⟩,h.limited⟩

/-- Calls one after the other. -/
theorem Kept.trans {r' r'' : TlmRam} {invalid invalid' : List Invalidation}
    (h : Kept k r r' invalid) (h' : Kept k r' r'' invalid') :
    Kept k r r'' (invalid++invalid') := by
  have hmax : r'.maxAddress=r.maxAddress := congrArg Prod.fst h.shape
  refine ⟨h'.coherent,h'.shape.trans h.shape,fun s hs => ?_,fun v hv => ?_⟩
  · rcases h.kept s hs with ⟨t,ht,hti,htr⟩|⟨v,hv,hin⟩
    · rcases h'.kept t ht with ⟨u,hu,hui,hur⟩|⟨v,hv,hin⟩
      · exact Or.inl ⟨u,hu,hui.trans hti,hur.trans htr⟩
      · exact Or.inr ⟨v,List.mem_append_right _ hv,htr ▸ hin⟩
    · exact Or.inr ⟨v,List.mem_append_left _ hv,hin⟩
  · rcases List.mem_append.mp hv with hv|hv
    · exact h.limited v hv
    · rw [←hmax]
      exact h'.limited v hv

/-- Executing a decoded payload is reading or writing the simulated memory. -/
theorem execute_spec (h : Coherent k r) (ha : Admitted k p) (hc : r.checkPayloadAddress p=true) :
    ∃ r' invalid,r.execute p=some (r',(flatExecute (contents r) p).2.1,
        (flatExecute (contents r) p).2.2,invalid) ∧
      Kept k r r' invalid ∧ contents r'=(flatExecute (contents r) p).1 := by
  obtain ⟨r',seg,invalid,hget,hplaced,hlo,hhi⟩ := getInPage_spec h ha hc
  have hlen := length_toNat p
  unfold TlmRam.execute flatExecute
  cases p.command with
  | read =>
    have hread := read_native hplaced.coherent hplaced.member hlo hhi p.buffer
    refine ⟨r',invalid,?_,placed_kept hplaced,hplaced.contents⟩
    dsimp only [TlmRam.rread,Option.bind_eq_bind]
    rw [hget]
    dsimp only [Option.bind_some]
    rw [hlen,hread,hplaced.contents]
  | write =>
    have hwrite := contents_write hplaced.coherent hplaced.member hlo hhi p.buffer
    rw [hplaced.contents] at hwrite
    refine ⟨_,invalid,?_,(placed_kept hplaced).change _ _,hwrite⟩
    dsimp only [TlmRam.rwrite,Option.bind_eq_bind]
    rw [hget,hlen]
    rfl
  | ignore => exact ⟨r,[],rfl,⟨h,rfl,fun s hs => Or.inl ⟨s,hs,rfl,rfl⟩,fun _ hv => nomatch hv⟩,rfl⟩

end Access

section Serve

variable {k : ℕ} {r : TlmRam} {p : GenericPayload}

/-- A call that changes nothing keeps the pointers. -/
theorem Kept.refl (h : Coherent k r) : Kept k r r [] :=
  ⟨h,rfl,fun s hs => Or.inl ⟨s,hs,rfl,rfl⟩,fun _ hv => nomatch hv⟩

/-- The status that the execution found does not depend on the one before. -/
theorem flatExecute_status (m : Memory) (p : GenericPayload) (status : ResponseStatus) :
    flatExecute m {p with responseStatus := status}=
      ((flatExecute m p).1,{(flatExecute m p).2.1 with responseStatus := status},
        (flatExecute m p).2.2) := by
  obtain ⟨command,address,buffer,dataLength,enable,width,old⟩ := p
  cases command <;> rfl

/-- Blocking transport. -/
theorem transport_spec (h : Coherent k r) (ha : Admitted k p) :
    ∃ r' reply,r.customBTransport p=some (r',reply) ∧ Kept k r r' reply.invalidated ∧
      flatServe r.maxAddress r.dmiOn (contents r) (.transport p)=
        some (contents r',⟨reply.payload,reply.dmiAllowed,0⟩) := by
  unfold TlmRam.customBTransport
  dsimp only [flatServe]
  by_cases hc : r.checkPayloadAddress p=true
  · have hc' : p.address+length p-1≤ r.maxAddress := of_decide_eq_true hc
    generalize hnoted : (if p.byteEnablePtr.isSome then ResponseStatus.byteEnableErrorResponse
      else if p.streamingWidth≠p.dataLength then .burstErrorResponse
      else p.responseStatus)=noted
    obtain ⟨r',invalid,hexec,hkept,hcontents⟩ :=
      execute_spec (p := {p with responseStatus := noted}) h ⟨ha.fits,ha.empty⟩ hc
    rw [flatExecute_status] at hexec hcontents
    rw [if_pos hc,if_pos hc',hexec]
    dsimp only [Option.bind_eq_bind,Option.bind_some]
    exact ⟨r',_,rfl,hkept,by rw [hcontents]⟩
  · have hc' : ¬p.address+length p-1≤ r.maxAddress := fun hle => hc (decide_eq_true hle)
    rw [if_neg hc,if_neg hc']
    exact ⟨r,_,rfl,Kept.refl h,rfl⟩

/-- Debug transport. -/
theorem debug_spec (h : Coherent k r) (ha : Admitted k p) :
    ∃ r' reply moved,r.debugTransport p=some (r',reply,moved) ∧ Kept k r r' reply.invalidated ∧
      flatServe r.maxAddress r.dmiOn (contents r) (.debug p)=
        some (contents r',⟨reply.payload,reply.dmiAllowed,moved⟩) := by
  unfold TlmRam.debugTransport
  dsimp only [flatServe]
  by_cases hc : r.checkPayloadAddress p=true
  · have hc' : p.address+length p-1≤ r.maxAddress := of_decide_eq_true hc
    obtain ⟨r',invalid,hexec,hkept,hcontents⟩ := execute_spec h ha hc
    rw [if_pos hc,if_pos hc',hexec]
    dsimp only [Option.bind_eq_bind,Option.bind_some]
    exact ⟨r',_,_,rfl,hkept,by rw [hcontents]⟩
  · have hc' : ¬p.address+length p-1≤ r.maxAddress := fun hle => hc (decide_eq_true hle)
    rw [if_neg hc,if_neg hc']
    exact ⟨r,_,_,rfl,Kept.refl h,rfl⟩

/-- A direct pointer leads to a segment of the list and has its range. -/
def Points (r : TlmRam) (d : Dmi) : Prop :=
  ∃ s∈r.head,s.index=d.dmiPtr ∧ s.base=d.startAddress ∧ s.top=d.endAddress

/-- The request for a direct pointer. -/
theorem pointer_spec (h : Coherent k r) (ha : Admitted k p) :
    ∃ r' reply dmi,r.getDirectMemPtr p=some (r',reply,dmi) ∧ Kept k r r' reply.invalidated ∧
      contents r'=contents r ∧ reply.payload=p ∧
      (dmi.isSome=true ↔ p.address+length p-1≤ r.maxAddress) ∧
      reply.dmiAllowed=(dmi.isSome && r.dmiOn) ∧
      ∀ d∈dmi,Points r' d ∧ d.startAddress≤p.address ∧ p.address≤d.endAddress ∧
        p.address.toNat+p.dataLength.toNat≤d.endAddress.toNat+1 := by
  unfold TlmRam.getDirectMemPtr TlmRam.getDMI
  by_cases hc : r.checkPayloadAddress p=true
  · have hc' : p.address+length p-1≤ r.maxAddress := of_decide_eq_true hc
    obtain ⟨htop,_,_⟩ := last_toNat h.toPaged ha hc
    obtain ⟨hvalid,hqlo,hqhi,hqend⟩ := round_valid h.toPaged ha hc
    obtain ⟨r',seg,invalid,hfind,hplaced⟩ := findAddSeg_spec h hvalid htop
    obtain ⟨hlo,hhi⟩ := hplaced.around
    rw [if_pos (show r.checkAddressRange p.address (length p)=true from hc),hfind]
    refine ⟨r',_,_,rfl,placed_kept hplaced,hplaced.contents,rfl,iff_of_true rfl hc',rfl,
      fun d hd => ?_⟩
    cases hd
    exact ⟨⟨seg,hplaced.member,rfl,rfl,rfl⟩,BitVec.le_def.mpr (hlo.trans hqlo),
      BitVec.le_def.mpr (hqhi.trans hhi),hqend.trans (Nat.succ_le_succ hhi)⟩
  · have hc' : ¬p.address+length p-1≤ r.maxAddress := fun hle => hc (decide_eq_true hle)
    rw [if_neg (show ¬r.checkAddressRange p.address (length p)=true from hc)]
    exact ⟨r,_,_,rfl,Kept.refl h,rfl,rfl,iff_of_false (fun h0 => nomatch h0) hc',rfl,
      fun d hd => nomatch hd⟩

/-- One call: the RAM survives it, keeps its invariant and answers as the flat
memory with its contents does. -/
theorem serve_spec (h : Coherent k r) {e : Call} (ha : Admitted k e.payload) :
    ∃ r' a,serve r e=some (r',a) ∧ Coherent k r' ∧ shape r'=shape r ∧
      flatServe r.maxAddress r.dmiOn (contents r) e=some (contents r',a) := by
  cases e with
  | transport p =>
    obtain ⟨r',reply,hr,hkept,hflat⟩ := transport_spec (p := p) h ha
    exact ⟨r',_,by rw [serve,hr]; rfl,hkept.coherent,hkept.shape,hflat⟩
  | debug p =>
    obtain ⟨r',reply,moved,hr,hkept,hflat⟩ := debug_spec (p := p) h ha
    exact ⟨r',_,by rw [serve,hr]; rfl,hkept.coherent,hkept.shape,hflat⟩
  | pointer p =>
    obtain ⟨r',reply,dmi,hr,hkept,hcontents,hpayload,hiff,hallowed,_⟩ := pointer_spec (p := p) h ha
    refine ⟨r',_,by rw [serve,hr]; rfl,hkept.coherent,hkept.shape,?_⟩
    dsimp only [flatServe,Call.payload] at hiff ⊢
    rw [hcontents,hpayload,hallowed]
    cases dmi with
    | some d => rw [if_pos (hiff.mp rfl)]; rfl
    | none => rw [if_neg (fun hle => nomatch hiff.mpr hle)]; rfl

end Serve

section Construction

variable {high : BitVec 64} {onePage : Bool} {k : ℕ}

/-- A RAM with pages of a power of two starts with the invariant. -/
theorem tlmRam_coherent (dmi : Bool) (hpage : (calculatePageSize high onePage).toNat+1=2^k)
    (hroom : high.toNat+2^k<2^64) : Coherent k (tlmRam high dmi onePage) where
  maxPage := by
    change (calculatePageSize high onePage).toNat=_
    omega
  addrMask := rfl
  room := hroom
  ascending := ⟨fun _ hs => (nomatch hs),List.Pairwise.nil⟩
  aligned := fun _ hs => nomatch hs
  bounded := fun _ hs => nomatch hs
  numbered := fun _ hs => nomatch hs
  distinct := List.nodup_nil
  cached := fun _ hi => nomatch hi
  linked := rfl

/-- It starts as zero. -/
theorem tlmRam_contents (dmi : Bool) : contents (tlmRam high dmi onePage)=fun _ => 0 :=
  funext fun _ => view_default range byteAt 0 fun _ hs => nomatch hs

/-- With pages of a power of two, the RAM answers every list of calls as a flat
memory that starts as zero, and survives it. -/
theorem flat_run (dmi : Bool) (hpage : (calculatePageSize high onePage).toNat+1=2^k)
    (hroom : high.toNat+2^k<2^64) {calls : List Call} (hok : ∀ c∈calls,Admitted k c.payload) :
    answers serve (tlmRam high dmi onePage) calls=
      answers (flatServe high dmi) (fun _ => 0) calls := by
  refine answers_simulation (P := fun c => Admitted k c.payload)
    (R := fun r m => Coherent k r ∧ contents r=m ∧ shape r=shape (tlmRam high dmi onePage))
    (fun r m e hR ha => ?_) ⟨tlmRam_coherent dmi hpage hroom,tlmRam_contents dmi,rfl⟩ hok
  obtain ⟨hco,rfl,hshape⟩ := hR
  obtain ⟨r',a,hr,hco',hshape',hflat⟩ := serve_spec hco ha
  have hmax : r.maxAddress=high := congrArg Prod.fst hshape
  have hdmi : r.dmiOn=dmi := congrArg (fun x => x.2.2.2) hshape
  rw [hmax,hdmi] at hflat
  exact ⟨r',_,a,hr,hflat,hco',rfl,hshape'.trans hshape⟩

/-- Below a number that is not one less than a power of two there is a power
of two whose bit the number does not have. -/
theorem missing_bit {n : ℕ} (h : ∀ k,n+1≠2^k) : ∃ z,n.testBit z=false ∧ 2^z<n := by
  have hn : n≠0 := fun h0 => h 0 (by rw [h0]; rfl)
  have hlog := Nat.log2_self_le hn
  have hlog' := Nat.lt_log2_self (n := n)
  by_contra hall
  push Not at hall
  refine h (n.log2+1) ?_
  have hbits : n=2^(n.log2+1)-1 := by
    refine Nat.eq_of_testBit_eq fun i => ?_
    rw [Nat.testBit_two_pow_sub_one]
    by_cases hi : i<n.log2+1
    · rw [decide_eq_true hi]
      by_contra hbit
      rw [Bool.not_eq_true] at hbit
      have hle := hall i hbit
      have hpow : 2^i≤2^n.log2 := Nat.pow_le_pow_right (by omega) (by omega)
      have hin : n=2^i := by omega
      rw [hin,Nat.testBit_two_pow_self] at hbit
      cases hbit
    · rw [decide_eq_false hi]
      refine Nat.testBit_lt_two_pow (hlog'.trans_le (Nat.pow_le_pow_right (by omega) (by omega)))
  have hpos := Nat.two_pow_pos (n.log2+1)
  omega

end Construction

section LostByte

variable {high a : BitVec 64} {dmi onePage : Bool}

/-- A payload of one byte. -/
def byteAccess (command : Command) (address : BitVec 64) (data : BitVec 8) : GenericPayload :=
  ⟨command,address,fun _ => data,1,none,1,.incompleteResponse⟩

/-- No address is below the first one. -/
theorem first_le (b : BitVec 64) : 0≤b := BitVec.le_def.mpr (Nat.zero_le _)

/-- The last address of one byte is its own. -/
theorem last_byte (a : BitVec 64) : a+1-1=a := BitVec.add_sub_cancel a 1

/-- The place of a byte in a segment around it. -/
theorem getInPage_byte {r r' : TlmRam} {seg : MemorySegment} {invalid : List Invalidation}
    (hfind : r.findAddSeg a 1=some (r',seg,invalid)) (hlo : seg.base≤a) (hhi : a≤ seg.top)
    (hroom : seg.top.toNat-seg.base.toNat+1<2^64) :
    r.getInPage a 1=some (r',seg,a.toNat-seg.base.toNat,invalid) := by
  rw [BitVec.le_def] at hlo hhi
  have hbytes := bytes_toNat (s := seg) (hlo.trans hhi) hroom
  have hoff : (a-seg.base).toNat=a.toNat-seg.base.toNat :=
    BitVec.toNat_sub_of_le (BitVec.le_def.mpr hlo)
  rw [TlmRam.getInPage,hfind]
  dsimp only [Option.bind_eq_bind,Option.bind_some]
  rw [if_pos ⟨BitVec.le_def.mpr hlo,BitVec.le_def.mpr hhi⟩,hoff,hbytes,if_pos]
  change a.toNat-seg.base.toNat+1≤_
  omega

/-- Writing a byte whose place is known. -/
theorem serve_write {r r' : TlmRam} {seg : MemorySegment} {offset : ℕ}
    {invalid : List Invalidation} (hget : r.getInPage a 1=some (r',seg,offset,invalid))
    (hlast : a≤ r.maxAddress) (data : BitVec 8) :
    serve r (.transport (byteAccess .write a data))=
      some (changed r' seg.index fun native => copyBytes native offset (fun _ => data) 1,
        ⟨{byteAccess .write a data with responseStatus := .okResponse},r.dmiOn,0⟩) := by
  have hc : r.checkPayloadAddress (byteAccess .write a data)=true :=
    decide_eq_true (by change a+1-1≤_; rw [last_byte]; exact hlast)
  dsimp only [serve,TlmRam.customBTransport]
  rw [if_pos hc]
  dsimp only [byteAccess,TlmRam.execute,TlmRam.rwrite]
  rw [show length ⟨.write,a,fun _ => data,1,none,1,_⟩=1 from rfl,hget]
  rfl

/-- Reading a byte whose place is known. -/
theorem serve_read {r r' : TlmRam} {seg : MemorySegment} {offset : ℕ}
    {invalid : List Invalidation} (hget : r.getInPage a 1=some (r',seg,offset,invalid))
    (hlast : a≤ r.maxAddress) (data : BitVec 8) :
    serve r (.transport (byteAccess .read a data))=
      some (r',⟨{byteAccess .read a data with
        buffer := copyBytes (fun _ => data) 0 (fun i => seg.native (offset+i)) 1,
        responseStatus := .okResponse},r.dmiOn,0⟩) := by
  have hc : r.checkPayloadAddress (byteAccess .read a data)=true :=
    decide_eq_true (by change a+1-1≤_; rw [last_byte]; exact hlast)
  dsimp only [serve,TlmRam.customBTransport]
  rw [if_pos hc]
  dsimp only [byteAccess,TlmRam.execute,TlmRam.rread]
  rw [show length ⟨.read,a,fun _ => data,1,none,1,_⟩=1 from rfl,hget]
  rfl

/-- The RAM after a byte in the middle of its first page has been written. -/
def written (high a : BitVec 64) (dmi onePage : Bool) : TlmRam :=
  {tlmRam high dmi onePage with
    head := [⟨a,a+high,0,copyBytes (fun _ => 0) 0 (fun _ => 1) 1⟩],cache := some 0,segIndex := 1}

/-- The RAM after its first byte has been read too. -/
def forgot (high a : BitVec 64) (dmi onePage : Bool) : TlmRam :=
  {written high a dmi onePage with
    unlinked := [⟨0,high,1,fun _ => 0⟩],cache := some 1,segIndex := 2}

/-- The first call makes a segment that does not begin at the first page. -/
theorem serve_written (hpage : calculatePageSize high onePage=high) (ha : a &&& ~~~high=a)
    (hlt : a<high) (hsum : (a+high).toNat=a.toNat+high.toNat) (hroom : high.toNat+1<2^64) :
    ∃ handed,serve (tlmRam high dmi onePage) (.transport (byteAccess .write a 1))=
      some (written high a dmi onePage,handed) := by
  have hfind : (tlmRam high dmi onePage).findAddSeg a 1=
      some ({tlmRam high dmi onePage with
        head := [.new 0 a (a+high)],cache := some 0,segIndex := 1},.new 0 a (a+high),[]) := by
    dsimp only [TlmRam.findAddSeg,TlmRam.cached,tlmRam,TlmRam.overlapsAny,
      TlmRam.roundToPageBoundaries]
    rw [hpage,last_byte,ha]
    rfl
  have hpos : a≤a+high := by rw [BitVec.le_def]; omega
  have hget := getInPage_byte hfind (BitVec.le_refl a) hpos
    (show (a+high).toNat-a.toNat+1<2^64 by omega)
  have hserve := serve_write hget (BitVec.le_of_lt hlt) 1
  have hstate : changed {tlmRam high dmi onePage with
      head := [.new 0 a (a+high)],cache := some 0,segIndex := 1} 0
      (fun native => copyBytes native (a.toNat-a.toNat) (fun _ => 1) 1)=
        written high a dmi onePage := by
    rw [Nat.sub_self]
    rfl
  exact ⟨_,hserve.trans (by rw [←hstate]; rfl)⟩

/-- The second call makes the segment of the first page. It meets the one that
is there, and is left out of the list. -/
theorem serve_forgot (hpage : calculatePageSize high onePage=high) (hpos : 0<a)
    (hlt : a<high) (hroom : high.toNat+1<2^64) :
    ∃ handed,serve (written high a dmi onePage) (.transport (byteAccess .read 0 0))=
      some (forgot high a dmi onePage,handed) := by
  have hout : ¬a≤0 := BitVec.not_le.mpr hpos
  have hfind : (written high a dmi onePage).findAddSeg 0 1=
      some (forgot high a dmi onePage,.new 1 0 high,[]) := by
    have hlink : ¬high<a := BitVec.not_lt.mpr (BitVec.le_of_lt hlt)
    have hcached : (written high a dmi onePage).cached=
      some (some ⟨a,a+high,0,copyBytes (fun _ => 0) 0 (fun _ => 1) 1⟩) := rfl
    have hfirst : (0 : BitVec 64) &&& ~~~high=0 := BitVec.zero_and
    have hsum₀ : (0 : BitVec 64)+high=high := BitVec.zero_add high
    have hbefore : ¬a+high<0 := BitVec.not_lt.mpr (first_le _)
    unfold TlmRam.findAddSeg
    rw [hcached,last_byte]
    simp only [written,Option.bind_eq_bind,Option.bind_some,Option.filter,
      MemorySegment.fallsWithin,hout,decide_false,Bool.false_and,Bool.false_eq_true,reduceIte,
      List.find?_cons,List.find?_nil,TlmRam.overlapsAny,List.any_cons,List.any_nil,
      MemorySegment.hasOverlap,Bool.or_false,TlmRam.roundToPageBoundaries,tlmRam,hpage,
      TlmRam.linkSeg,MemorySegment.new,linkBehind,hfirst,hsum₀,hlink,hbefore,forgot]
  have hget := getInPage_byte hfind (BitVec.le_refl 0) (first_le _) hroom
  exact ⟨_,serve_read hget (first_le _) 0⟩

/-- The third call finds the byte in the segment that is cached and not linked. -/
theorem serve_lost (hlt : a<high) (hroom : high.toNat+1<2^64) :
    ∃ handed,serve (forgot high a dmi onePage) (.transport (byteAccess .read a 0))=
      some (forgot high a dmi onePage,handed) ∧ handed.payload.buffer 0=0 := by
  have hfind : (forgot high a dmi onePage).findAddSeg a 1=
      some (forgot high a dmi onePage,⟨0,high,1,fun _ => 0⟩,[]) := by
    have hcached : (forgot high a dmi onePage).cached=some (some ⟨0,high,1,fun _ => 0⟩) := rfl
    unfold TlmRam.findAddSeg
    rw [hcached,last_byte]
    simp only [Option.bind_eq_bind,Option.bind_some,Option.filter,MemorySegment.fallsWithin,
      first_le,BitVec.le_of_lt hlt,decide_true,Bool.and_self,reduceIte]
  have hget := getInPage_byte hfind (first_le a) (BitVec.le_of_lt hlt) hroom
  exact ⟨_,serve_read hget (BitVec.le_of_lt hlt) 0,rfl⟩

/-- The three calls: write a byte, read the first byte, read the one written. -/
def lostCalls (a : BitVec 64) : List Call :=
  [.transport (byteAccess .write a 1),.transport (byteAccess .read 0 0),
    .transport (byteAccess .read a 0)]

/-- The RAM does not answer them as a flat memory does. -/
theorem lost_byte (hpage : calculatePageSize high onePage=high) (ha : a &&& ~~~high=a)
    (hpos : 0<a) (hlt : a<high) (hsum : (a+high).toNat=a.toNat+high.toNat)
    (hroom : high.toNat+1<2^64) :
    answers serve (tlmRam high dmi onePage) (lostCalls a)≠
      answers (flatServe high dmi) (fun _ => 0) (lostCalls a) := by
  have hle := BitVec.le_of_lt hlt
  obtain ⟨h₁,hr₁⟩ := @serve_written _ _ dmi onePage hpage ha hlt hsum hroom
  obtain ⟨h₂,hr₂⟩ := @serve_forgot _ _ dmi onePage hpage hpos hlt hroom
  obtain ⟨h₃,hr₃,hzero⟩ := @serve_lost _ _ dmi onePage hlt hroom
  have hflat : ∀ m p,p.address≤high → length p=1 → flatServe high dmi m (.transport p)=
      some ((flatExecute m p).1,⟨{(flatExecute m p).2.1 with
        responseStatus := if (flatExecute m p).2.2 then .okResponse else .commandErrorResponse},
        dmi,0⟩) := fun m p hp hone => if_pos (by rw [hone,last_byte]; exact hp)
  rw [lostCalls,answers_cons hr₁,answers_cons hr₂,answers_cons hr₃,
    answers_cons (hflat _ _ hle rfl),answers_cons (hflat _ _ (first_le _) rfl),
    answers_cons (hflat _ _ hle rfl)]
  intro heq
  have hbuffer := congrArg (fun x => x.map fun l => l.map fun h : Handed => h.payload.buffer 0) heq
  simp only [answers,Option.map_some,List.map_cons,Option.some.injEq,List.cons.injEq] at hbuffer
  obtain ⟨_,_,hlast,_⟩ := hbuffer
  rw [hzero] at hlast
  simp [flatExecute,byteAccess,copyBytes] at hlast

end LostByte

/-- The page size is the size of the memory or a megabyte. -/
theorem pageSize_cases (high : BitVec 64) (onePage : Bool) :
    calculatePageSize high onePage=high ∨ calculatePageSize high onePage=0xfffff := by
  unfold calculatePageSize
  split_ifs
  · exact Or.inl rfl
  · exact Or.inl rfl
  · exact Or.inr rfl

/-- The addresses below a bit that a mask lacks are its own pages, and adding
the mask carries nowhere. -/
theorem twoPow_mask {high : BitVec 64} {z : ℕ} (hbit : high.toNat.testBit z=false) :
    BitVec.twoPow 64 z &&& ~~~high=BitVec.twoPow 64 z ∧
      (BitVec.twoPow 64 z+high).toNat=(BitVec.twoPow 64 z).toNat+high.toNat := by
  have hmask : ∀ i,i<64 → (BitVec.twoPow 64 z).getLsbD i=true → high.getLsbD i=false := by
    intro i hi h
    rw [BitVec.getLsbD_twoPow,Bool.and_eq_true,decide_eq_true_eq,decide_eq_true_eq] at h
    rw [←h.2]
    exact hbit
  constructor
  · refine BitVec.eq_of_getLsbD_eq fun i hi => ?_
    rw [BitVec.getLsbD_and,BitVec.getLsbD_not]
    cases h : (BitVec.twoPow 64 z).getLsbD i with
    | false => rfl
    | true => rw [hmask i hi h,decide_eq_true hi]; rfl
  · refine BitVec.toNat_add_of_and_eq_zero (BitVec.eq_of_getLsbD_eq fun i hi => ?_)
    rw [BitVec.getLsbD_and,BitVec.getLsbD_zero]
    cases h : (BitVec.twoPow 64 z).getLsbD i with
    | false => rfl
    | true => rw [hmask i hi h]; rfl

/-- A RAM answers every list of calls as a flat memory that starts as zero, and
survives it, exactly if its page size is a power of two. Each call may be a
blocking transport, a debug transport or a request for a direct pointer, of
any command and address and of any length but zero that does not wrap around. -/
theorem flat_exact (high : BitVec 64) (dmi onePage : Bool) (hroom : high.toNat+0x100000<2^64) :
    (∃ k,(calculatePageSize high onePage).toNat+1=2^k) ↔
      ∀ calls : List Call,(∀ c∈calls,c.payload.dataLength≠0 ∧
          c.payload.address.toNat+c.payload.dataLength.toNat≤2^64) →
        answers serve (tlmRam high dmi onePage) calls=
          answers (flatServe high dmi) (fun _ => 0) calls := by
  constructor
  · rintro ⟨k,hk⟩ calls hok
    refine flat_run dmi hk ?_ fun c hc => ⟨(hok c hc).2,fun hz => absurd hz (hok c hc).1⟩
    rcases pageSize_cases high onePage with hpage|hpage
    · rw [hpage] at hk
      have hlt : 2^k<2^64 := by omega
      have hle : 2^k≤2^63 := Nat.pow_le_pow_right (by omega) (Nat.le_of_lt_succ
        ((Nat.pow_lt_pow_iff_right (by omega)).mp hlt))
      omega
    · rw [hpage] at hk
      change 0x100000=2^k at hk
      omega
  · intro hall
    by_contra hno
    push Not at hno
    rcases pageSize_cases high onePage with hpage|hpage
    · rw [hpage] at hno
      obtain ⟨z,hbit,hlt⟩ := missing_bit hno
      obtain ⟨ha,hsum⟩ := twoPow_mask hbit
      have hz : 2^z<2^64 := by omega
      have htoNat : (BitVec.twoPow 64 z).toNat=2^z := by
        rw [BitVec.toNat_twoPow,Nat.mod_eq_of_lt hz]
      have hpos := Nat.two_pow_pos z
      refine @lost_byte _ _ dmi onePage hpage ha ?_ ?_ hsum (by omega) (hall _ fun c hc => ?_)
      · rw [BitVec.lt_def,htoNat]
        exact hpos
      · rw [BitVec.lt_def,htoNat]
        exact hlt
      · have hbyte : c.payload.dataLength=1 ∧ c.payload.address.toNat<2^64 := by
          rcases List.mem_cons.mp hc with rfl|hc
          · exact ⟨rfl,BitVec.isLt _⟩
          · rcases List.mem_pair.mp hc with rfl|rfl
            · exact ⟨rfl,BitVec.isLt _⟩
            · exact ⟨rfl,BitVec.isLt _⟩
        rw [hbyte.1]
        exact ⟨by decide,hbyte.2⟩
    · exact hno 20 (by rw [hpage]; rfl)

/-- The RAMs of the platform have pages of a megabyte, and keep the byte. -/
theorem flat_exact_megabyte : answers serve (tlmRam 0x100000 true false) (lostCalls 0x80)=
    answers (flatServe 0x100000 true) (fun _ => 0) (lostCalls 0x80) := by
  refine (flat_exact 0x100000 true false (by decide)).mp ⟨20,by decide⟩ _ fun c hc => ?_
  rcases List.mem_cons.mp hc with rfl|hc
  · exact ⟨by decide,by decide⟩
  · rcases List.mem_pair.mp hc with rfl|rfl <;> exact ⟨by decide,by decide⟩

end SystemCDma.FlatMemory
