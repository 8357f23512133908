import SystemCDma.RangeList
import SystemCDma.TlmMemory

/-!
# The segments of the sparse RAM

With pages of a power of two the segments in the list are whole pages, in
order and apart, the cache points to one of them, and every segment that was
created and not deleted is in the list. Finding or making the segment of an
access keeps this and changes no byte of the simulated memory; a segment that
goes away is covered by an invalidation.
-/

namespace SystemCDma.SparseMemory

open ByteMemory TlmBus RangeList TlmMemory

/-- A pair of addresses as a range of numbers. -/
def asRange (q : BitVec 64×BitVec 64) : Range ℕ := ⟨q.1.toNat,q.2.toNat⟩

/-- The addresses of a segment. -/
def range (s : MemorySegment) : Range ℕ := asRange (s.base,s.top)

/-- The byte that a segment holds for a simulated address. -/
def byteAt (s : MemorySegment) (a : ℕ) : BitVec 8 := s.native (a-s.base.toNat)

/-- The simulated memory; what is not allocated reads as zero. -/
def contents (r : TlmRam) : Memory := view range byteAt 0 r.head

/-- What construction fixes. -/
def shape (r : TlmRam) : BitVec 64×BitVec 64×BitVec 64×Bool :=
  (r.maxAddress,r.maxPage,r.addrMask,r.dmiOn)

/-- The page size is a power of two, and the last page is not the last one of
the address space. -/
structure Paged (k : ℕ) (r : TlmRam) : Prop where
  /-- Pages have `2^k` bytes. -/
  maxPage : r.maxPage.toNat=2^k-1
  /-- The mask clears the offset in the page. -/
  addrMask : r.addrMask= ~~~r.maxPage
  /-- Addresses up to the end of the last page do not wrap around. -/
  room : r.maxAddress.toNat+2^k<2^64

/-- The invariant of the RAM. -/
structure Coherent (k : ℕ) (r : TlmRam) : Prop extends Paged k r where
  /-- The segments of the list are in order and apart. -/
  ascending : Ascending (r.head.map range)
  /-- They are whole pages. -/
  aligned : ∀ s∈r.head,(range s).Aligned (2^k)
  /-- No segment reaches past the page of the last address. -/
  bounded : ∀ s∈r.head,s.top.toNat < r.maxAddress.toNat+2^k
  /-- Numbers of segments have been given out before. -/
  numbered : ∀ s∈r.head,s.index < r.segIndex
  /-- No two segments have the same number. -/
  distinct : (r.head.map MemorySegment.index).Nodup
  /-- The cache points into the list. -/
  cached : ∀ i,r.cache=some i → ∃ s∈r.head,s.index=i
  /-- No segment is lost. -/
  linked : r.unlinked=[]

/-- Every page has a byte. -/
theorem page_pos (k : ℕ) : 0<2^k := Nat.two_pow_pos k

section Ranges

variable {k : ℕ} {r : TlmRam} {s : MemorySegment}

/-- The comparisons of `fallsWithin` are those of the numbers. -/
theorem fallsWithin_iff (s : MemorySegment) (lo hi : BitVec 64) :
    s.fallsWithin lo hi=true ↔ (range s).lo≤lo.toNat ∧ hi.toNat≤(range s).hi := by
  rw [MemorySegment.fallsWithin,Bool.and_eq_true,decide_eq_true_eq,decide_eq_true_eq,
    BitVec.le_def,BitVec.le_def]
  rfl

/-- A segment has an overlap with a range if the two meet. -/
theorem hasOverlap_iff (s : MemorySegment) (q : BitVec 64×BitVec 64) :
    s.hasOverlap q.1 q.2=true ↔ (range s).Meets (asRange q) := by
  rw [MemorySegment.hasOverlap,Bool.and_eq_true,decide_eq_true_eq,decide_eq_true_eq,
    BitVec.le_def,BitVec.le_def]
  rfl

/-- Clearing the low bits goes to the start of the page. -/
theorem mask_toNat {a m : BitVec 64} (hm : m.toNat=2^k-1) :
    (a &&& ~~~m).toNat=a.toNat-a.toNat%2^k := by
  have hdis : (a &&& m) &&& (a &&& ~~~m)=0#64 := by
    ext i hi
    simp only [BitVec.getElem_and,BitVec.getElem_not,BitVec.getElem_zero]
    cases a[i] <;> cases m[i] <;> rfl
  have hor : (a &&& m)+(a &&& ~~~m)=a := by
    rw [BitVec.add_eq_or_of_and_eq_zero _ _ hdis]
    ext i hi
    simp only [BitVec.getElem_and,BitVec.getElem_not,BitVec.getElem_or]
    cases a[i] <;> cases m[i] <;> rfl
  have hlow : (a &&& m).toNat=a.toNat%2^k := by
    rw [BitVec.toNat_and,hm,Nat.and_two_pow_sub_one_eq_mod]
  have hsum := congrArg BitVec.toNat hor
  rw [BitVec.toNat_add_of_and_eq_zero hdis,hlow] at hsum
  omega

/-- Rounding to pages is rounding of the numbers. -/
theorem round_asRange (h : Paged k r) (lo hi : BitVec 64) :
    asRange (r.roundToPageBoundaries lo hi)=(asRange (lo,hi)).round (2^k) := by
  have hk : 2^k≤2^64 := by have := h.room; omega
  have hk' : k≤64 := (Nat.pow_le_pow_iff_right (by omega)).mp hk
  have hlo := mask_toNat (a := lo) h.maxPage
  have hhi := mask_toNat (a := hi) h.maxPage
  have hpos := page_pos k
  rw [asRange,TlmRam.roundToPageBoundaries,h.addrMask,Range.round,BitVec.toNat_add,hlo,hhi,
    h.maxPage]
  have hend : hi.toNat-hi.toNat%2^k+(2^k-1)<2^64 := by
    have hdvd : 2^k∣2^64 := pow_dvd_pow 2 hk'
    exact (page_end_lt hpos hdvd).mpr hi.isLt
  rw [Nat.mod_eq_of_lt hend]
  rfl

/-- The pass over the list is the growth of the rounded range. -/
theorem coverRange_asRange (h : Paged k r) (lo hi : BitVec 64) :
    asRange (r.coverRange lo hi)=
      cover ((asRange (lo,hi)).round (2^k)) (r.head.map range) := by
  rw [←round_asRange h,TlmRam.coverRange]
  generalize r.roundToPageBoundaries lo hi=q
  induction r.head generalizing q with
  | nil => rfl
  | cons s rest ih =>
    rw [List.foldl_cons,ih,List.map_cons,cover_cons]
    congr 1
    by_cases hm : (range s).Meets (asRange q)
    · rw [if_pos ((hasOverlap_iff s q).mpr hm),if_pos hm]
      simp only [asRange,Range.hull,range,min_def,max_def,←BitVec.le_def]
      ext <;> dsimp only <;> split_ifs <;> rfl
    · rw [if_neg (mt (hasOverlap_iff s q).mp hm),if_neg hm]

end Ranges

section Lists

variable {k : ℕ} {r : TlmRam} {s seg : MemorySegment}

/-- A pointer to a segment of the list leads to it. -/
theorem deref_mem (h : Coherent k r) (hs : s∈r.head) : r.deref s.index=some s := by
  rw [TlmRam.deref,h.linked,List.append_nil]
  have hd := h.distinct
  revert hs hd
  induction r.head with
  | nil => exact fun hs => nomatch hs
  | cons t rest ih =>
    intro hs hd
    obtain ⟨hout,hd'⟩ := List.nodup_cons.mp hd
    rcases List.mem_cons.mp hs with rfl|hs
    · exact List.find?_cons_of_pos (decide_eq_true rfl)
    · have hne : t.index≠s.index := fun he => hout (he ▸ List.mem_map_of_mem hs)
      rw [List.find?_cons_of_neg (by rw [decide_eq_true_eq]; exact hne)]
      exact ih hs hd'

/-- Segments of the list with a number in common are the same. -/
theorem eq_of_index (h : Coherent k r) {t : MemorySegment} (hs : s∈r.head) (ht : t∈r.head)
    (he : s.index=t.index) : s=t := by
  have h₁ := deref_mem h hs
  rw [he,deref_mem h ht] at h₁
  exact (Option.some.inj h₁).symm

/-- A segment that meets none of an ascending list, and does not lie before
it, is put between two of its segments or at the end. -/
theorem linkBehind_spec {first : MemorySegment} {rest : List MemorySegment}
    (h : Ascending ((first::rest).map range))
    (hfirst : first.top < seg.base) (hm : ∀ s∈rest,¬(range s).Meets (range seg)) :
    ∃ pre post,first::rest=pre++post ∧ linkBehind seg (first::rest)=some (pre++seg::post) ∧
      (∀ s∈pre,(range s).hi<(range seg).lo) ∧ ∀ s∈post,(range seg).hi<(range s).lo := by
  have hbefore : (range first).hi<(range seg).lo := BitVec.lt_def.mp hfirst
  induction rest generalizing first with
  | nil =>
    refine ⟨[first],[],rfl,if_pos hfirst,?_,fun s hs => nomatch hs⟩
    intro s hs
    rw [List.mem_singleton.mp hs]
    exact hbefore
  | cons next rest ih =>
    rw [linkBehind]
    by_cases hnext : seg.top<next.base
    · refine ⟨[first],next::rest,rfl,if_pos ⟨hfirst,hnext⟩,?_,fun s hs => ?_⟩
      · intro s hs
        rw [List.mem_singleton.mp hs]
        exact hbefore
      · have hlt : (range seg).hi<(range next).lo := BitVec.lt_def.mp hnext
        rcases List.mem_cons.mp hs with rfl|hs
        · exact hlt
        · have hapart := (List.pairwise_cons.mp h.tail.apart).1 _ (List.mem_map_of_mem hs)
          have hvalid := h.tail.valid (range next) List.mem_cons_self
          exact (hlt.trans_le hvalid).trans hapart
    · have hle : (range next).lo≤(range seg).hi := BitVec.le_def.mp (BitVec.not_lt.mp hnext)
      have hbehind : next.top < seg.base := by
        rw [BitVec.lt_def]
        by_contra hc
        exact hm next List.mem_cons_self ⟨hle,not_lt.mp hc⟩
      obtain ⟨pre,post,heq,hlink,hpre,hpost⟩ := ih h.tail hbehind
        (fun s hs => hm s (List.mem_cons_of_mem _ hs)) (BitVec.lt_def.mp hbehind)
      refine ⟨first::pre,post,by rw [heq]; rfl,?_,?_,hpost⟩
      · rw [if_neg (fun hc => hnext hc.2),hlink]
        rfl
      · intro s hs
        rcases List.mem_cons.mp hs with rfl|hs
        · exact hbefore
        · exact hpre s hs

/-- A segment that meets none of the list gets its place in it. -/
theorem linkSeg_place (h : Ascending (r.head.map range)) (hm : ∀ s∈r.head,¬(range s).Meets (range seg)) :
    ∃ pre post,r.head=pre++post ∧
      r.linkSeg seg={r with cache := some seg.index,head := pre++seg::post} ∧
      (∀ s∈pre,(range s).hi<(range seg).lo) ∧ ∀ s∈post,(range seg).hi<(range s).lo := by
  unfold TlmRam.linkSeg
  cases hhead : r.head with
  | nil => exact ⟨[],[],rfl,rfl,fun s hs => (nomatch hs),fun s hs => nomatch hs⟩
  | cons first rest =>
    rw [hhead] at h hm
    dsimp only
    by_cases hbefore : seg.top<first.base
    · rw [if_pos hbefore]
      refine ⟨[],first::rest,rfl,rfl,fun s hs => (nomatch hs),fun s hs => ?_⟩
      have hlt : (range seg).hi<(range first).lo := BitVec.lt_def.mp hbefore
      rcases List.mem_cons.mp hs with rfl|hs
      · exact hlt
      · have hapart := (List.pairwise_cons.mp h.apart).1 _ (List.mem_map_of_mem hs)
        exact (hlt.trans_le (h.valid _ List.mem_cons_self)).trans hapart
    · have hle : (range first).lo≤(range seg).hi := BitVec.le_def.mp (BitVec.not_lt.mp hbefore)
      have hbehind : first.top < seg.base := by
        rw [BitVec.lt_def]
        by_contra hc
        exact hm first List.mem_cons_self ⟨hle,not_lt.mp hc⟩
      obtain ⟨pre,post,heq,hlink,hpre,hpost⟩ := linkBehind_spec h hbehind
        fun s hs => hm s (List.mem_cons_of_mem _ hs)
      rw [if_neg hbefore,hlink]
      exact ⟨pre,post,heq,rfl,hpre,hpost⟩

/-- The new segment is the only one that linking adds. -/
theorem mem_place {pre post : List MemorySegment} (hhead : r.head=pre++post) :
    s∈pre++seg::post ↔ s=seg ∨ s∈r.head := by
  rw [hhead,List.mem_append,List.mem_append,List.mem_cons]
  exact or_left_comm

/-- A new segment of whole pages that meets no other keeps the invariant. -/
theorem linkSeg_coherent (h : Coherent k r) (hvalid : (range seg).lo≤(range seg).hi)
    (haligned : (range seg).Aligned (2^k)) (hbound : seg.top.toNat < r.maxAddress.toNat+2^k)
    (hnumber : seg.index < r.segIndex) (hfresh : ∀ s∈r.head,s.index≠seg.index)
    (hm : ∀ s∈r.head,¬(range s).Meets (range seg)) :
    Coherent k (r.linkSeg seg) ∧ (∀ s,s∈(r.linkSeg seg).head ↔ s=seg ∨ s∈r.head) ∧
      shape (r.linkSeg seg)=shape r := by
  obtain ⟨pre,post,hhead,hlink,hpre,hpost⟩ := linkSeg_place h.ascending hm
  have hmem : ∀ s,s∈pre++seg::post ↔ s=seg ∨ s∈r.head := fun s => mem_place hhead
  rw [hlink]
  refine ⟨⟨⟨h.maxPage,h.addrMask,h.room⟩,?_,fun s hs => ?_,fun s hs => ?_,fun s hs => ?_,?_,
    fun i hi => ?_,h.linked⟩,hmem,rfl⟩
  · have hasc := h.ascending
    rw [hhead,List.map_append] at hasc
    rw [List.map_append,List.map_cons]
    exact hasc.insert hvalid (List.forall_mem_map.mpr hpre) (List.forall_mem_map.mpr hpost)
  · rcases (hmem s).mp hs with rfl|hs
    · exact haligned
    · exact h.aligned s hs
  · rcases (hmem s).mp hs with rfl|hs
    · exact hbound
    · exact h.bounded s hs
  · rcases (hmem s).mp hs with rfl|hs
    · exact hnumber
    · exact h.numbered s hs
  · have hperm : (pre++seg::post).Perm (seg::r.head) := by
      rw [hhead]
      exact List.perm_middle
    refine ((hperm.map MemorySegment.index).nodup_iff).mpr (List.nodup_cons.mpr ⟨?_,h.distinct⟩)
    intro hin
    obtain ⟨s,hs,he⟩ := List.mem_map.mp hin
    exact hfresh s hs he
  · cases hi
    exact ⟨seg,(hmem seg).mpr (Or.inl rfl),rfl⟩

/-- Deleting a segment keeps the invariant. -/
theorem unlinkSeg_coherent (h : Coherent k r) (seg : MemorySegment) :
    Coherent k (r.unlinkSeg seg) := by
  have hsub : (r.unlinkSeg seg).head.Sublist r.head := List.filter_sublist
  have hmem := hsub.subset
  refine ⟨⟨h.maxPage,h.addrMask,h.room⟩,h.ascending.sublist (hsub.map range),
    fun s hs => h.aligned s (hmem hs),fun s hs => h.bounded s (hmem hs),
    fun s hs => h.numbered s (hmem hs),h.distinct.sublist (hsub.map _),fun i hi => ?_,h.linked⟩
  dsimp only [TlmRam.unlinkSeg] at hi ⊢
  split_ifs at hi with hc
  obtain ⟨s,hs,he⟩ := h.cached i hi
  refine ⟨s,List.mem_filter.mpr ⟨hs,decide_eq_true fun hs' => hc ?_⟩,he⟩
  rw [hi,←he,hs']

/-- Deleting segments one by one leaves those with other numbers, and what
construction has fixed. -/
theorem unlinkSegs (h : Coherent k r) (old : List MemorySegment) :
    Coherent k (old.foldl TlmRam.unlinkSeg r) ∧
      (∀ s,s∈(old.foldl TlmRam.unlinkSeg r).head ↔
        s∈r.head ∧ ∀ t∈old,s.index≠t.index) ∧
      shape (old.foldl TlmRam.unlinkSeg r)=shape r ∧
      (old.foldl TlmRam.unlinkSeg r).segIndex=r.segIndex := by
  induction old generalizing r with
  | nil => exact ⟨h,fun s => ⟨fun hs => ⟨hs,fun t ht => nomatch ht⟩,fun hs => hs.1⟩,rfl,rfl⟩
  | cons t old ih =>
    obtain ⟨hc,hmem,hshape,hindex⟩ := ih (unlinkSeg_coherent h t)
    refine ⟨hc,fun s => ?_,hshape,hindex⟩
    rw [List.foldl_cons,hmem,List.forall_mem_cons,←and_assoc]
    refine and_congr_left fun _ => ?_
    rw [TlmRam.unlinkSeg,List.mem_filter,decide_eq_true_eq]

end Lists

section Copies

variable {new seg : MemorySegment}

/-- The number of bytes of a segment, if it is not the whole address space. -/
theorem bytes_toNat {s : MemorySegment} (h : (range s).lo≤(range s).hi)
    (hroom : s.top.toNat-s.base.toNat+1<2^64) : s.bytes.toNat=s.top.toNat-s.base.toNat+1 := by
  change s.base.toNat ≤ s.top.toNat at h
  rw [MemorySegment.bytes,BitVec.toNat_add,BitVec.toNat_sub_of_le (BitVec.le_def.mpr h)]
  change (s.top.toNat-s.base.toNat+1)%2^64=_
  exact Nat.mod_eq_of_lt hroom

/-- Copying a segment into a new one around it puts its bytes at its own
addresses and keeps the others. -/
theorem copyIn_spec (hnew : new.top.toNat+1<2^64) (hseg : (range seg).lo≤(range seg).hi)
    (hlo : (range new).lo≤(range seg).lo) (hhi : (range seg).hi≤(range new).hi) :
    ∃ new',copyIn new seg=some new' ∧ new'.base=new.base ∧ new'.top=new.top ∧
      new'.index=new.index ∧
      (∀ a∈(range seg).points,byteAt new' a=byteAt seg a) ∧
      ∀ a,(range new).lo≤a → a∉(range seg).points → byteAt new' a=byteAt new a := by
  have hvalid : (range new).lo≤(range new).hi := hlo.trans (hseg.trans hhi)
  have hroom : seg.top.toNat+1<2^64 := (Nat.succ_le_succ hhi).trans_lt hnew
  have hbytes := bytes_toNat hseg (by omega)
  have hbytes' := bytes_toNat hvalid (by omega)
  change new.base.toNat ≤ seg.base.toNat at hlo
  change seg.top.toNat≤new.top.toNat at hhi
  change seg.base.toNat ≤ seg.top.toNat at hseg
  have hoff : (seg.base-new.base).toNat=seg.base.toNat-new.base.toNat :=
    BitVec.toNat_sub_of_le (BitVec.le_def.mpr hlo)
  refine ⟨_,if_pos (by rw [hoff,hbytes,hbytes']; omega),rfl,rfl,rfl,fun a ha => ?_,
    fun a ha hout => ?_⟩
  · have ha₁ : seg.base.toNat≤a := ha.1
    have ha₂ : a ≤ seg.top.toNat := ha.2
    dsimp only [byteAt,copyBytes]
    rw [hoff,hbytes,if_pos ⟨by omega,by omega⟩]
    congr 1
    omega
  · change new.base.toNat≤a at ha
    have hout' : ¬(seg.base.toNat≤a ∧ a ≤ seg.top.toNat) := hout
    dsimp only [byteAt,copyBytes]
    rw [hoff,hbytes,if_neg (fun hc => hout' ⟨by omega,by omega⟩)]

/-- Copying a list of segments that lie apart inside a new one. -/
theorem copies_spec {old : List MemorySegment} (hasc : Ascending (old.map range))
    (hnew : new.top.toNat+1<2^64)
    (hin : ∀ s∈old,(range new).lo≤(range s).lo ∧ (range s).hi≤(range new).hi) :
    ∃ new',old.foldlM copyIn new=some new' ∧ new'.base=new.base ∧ new'.top=new.top ∧
      new'.index=new.index ∧
      (∀ s∈old,∀ a∈(range s).points,byteAt new' a=byteAt s a) ∧
      ∀ a,(range new).lo≤a → (∀ s∈old,a∉(range s).points) → byteAt new' a=byteAt new a := by
  induction old generalizing new with
  | nil => exact ⟨new,rfl,rfl,rfl,rfl,fun s hs => (nomatch hs),fun _ _ _ => rfl⟩
  | cons s old ih =>
    have hs := List.mem_cons_self (a := s) (l := old)
    obtain ⟨hlo,hhi⟩ := hin s hs
    obtain ⟨mid,hmid,hb,ht,hi,hcopy,hkeep⟩ :=
      copyIn_spec hnew (hasc.valid _ (List.mem_map_of_mem hs)) hlo hhi
    have hrange : range mid=range new := by rw [range,range,hb,ht]
    obtain ⟨new',hnew',hb',ht',hi',hcopy',hkeep'⟩ := ih hasc.tail
      (show mid.top.toNat+1<2^64 by rw [ht]; exact hnew) (by rw [hrange]; exact fun u hu => hin u (List.mem_cons_of_mem _ hu))
    rw [hrange] at hkeep'
    refine ⟨new',?_,hb'.trans hb,ht'.trans ht,hi'.trans hi,fun u hu a ha => ?_,fun a ha hout => ?_⟩
    · rw [List.foldlM_cons,hmid]
      exact hnew'
    · rcases List.mem_cons.mp hu with rfl|hu
      · -- no later copy touches the bytes of the first one
        rw [hkeep' a (hlo.trans ha.1),hcopy a ha]
        intro v hv hav
        have hapart := (List.pairwise_cons.mp hasc.apart).1 _ (List.mem_map_of_mem hv)
        exact absurd (ha.2.trans_lt hapart) (not_lt.mpr hav.1)
      · exact hcopy' u hu a ha
    · rw [hkeep' a ha fun u hu => hout u (List.mem_cons_of_mem _ hu),
        hkeep a ha (hout s hs)]

end Copies

/-- What finding or making the segment of a range leaves behind. -/
structure Placed (k : ℕ) (r r' : TlmRam) (seg : MemorySegment) (q : Range ℕ)
    (invalid : List Invalidation) : Prop where
  /-- The invariant is kept. -/
  coherent : Coherent k r'
  /-- What construction has fixed stays. -/
  shape : shape r'=shape r
  /-- No byte of the simulated memory changes. -/
  contents : contents r'=contents r
  /-- The segment is in the list. -/
  member : seg∈r'.head
  /-- It contains the pages around the range. -/
  around : (range seg).lo≤(q.round (2^k)).lo ∧ (q.round (2^k)).hi≤(range seg).hi
  /-- A segment stays in the list, or it lies in a range that is invalidated. -/
  kept : ∀ s∈r.head,s∈r'.head ∨
    ∃ v∈invalid,(asRange v).lo≤(range s).lo ∧ (range s).hi≤(asRange v).hi
  /-- No more is invalidated than segments can hold. -/
  limited : ∀ v∈invalid,v.2.toNat < r.maxAddress.toNat+2^k

section Find

variable {k : ℕ} {r r₁ : TlmRam} {seg : MemorySegment} {q : Range ℕ}

/-- Pointing the cache to a segment of the list keeps everything else. -/
theorem cache_placed (h : Coherent k r) (hs : seg∈r.head)
    (hin : (range seg).lo≤q.lo ∧ q.hi≤(range seg).hi) {c : Option ℕ}
    (hc : ∀ i,c=some i → ∃ s∈r.head,s.index=i) : Placed k r {r with cache := c} seg q [] where
  coherent := ⟨⟨h.maxPage,h.addrMask,h.room⟩,h.ascending,h.aligned,h.bounded,h.numbered,
    h.distinct,hc,h.linked⟩
  shape := rfl
  contents := rfl
  member := hs
  around := ((h.aligned seg hs).contains_round (page_pos k)).mpr hin
  kept := fun _ hs => Or.inl hs
  limited := fun _ hv => nomatch hv

/-- Linking a new segment whose bytes are those of the simulated memory, after
the segments that it meets have been taken out. -/
theorem link_placed (h : Coherent k r) (h₁ : Coherent k r₁) (hshape : shape r₁=shape r)
    (hcount : r₁.segIndex=r.segIndex+1)
    (hrest : ∀ s,s∈r₁.head ↔ s∈r.head ∧ ¬(range s).Meets (range seg))
    (hindex : seg.index=r.segIndex) (hvalid : (range seg).lo≤(range seg).hi)
    (haligned : (range seg).Aligned (2^k)) (hbound : seg.top.toNat < r.maxAddress.toNat+2^k)
    (habsorb : ∀ s∈r.head,(range s).Meets (range seg) →
      (range seg).lo≤(range s).lo ∧ (range s).hi≤(range seg).hi)
    (hbytes : ∀ a∈(range seg).points,byteAt seg a=contents r a)
    (haround : (range seg).lo≤(q.round (2^k)).lo ∧ (q.round (2^k)).hi≤(range seg).hi)
    {invalid : List Invalidation}
    (hinvalid : (∃ s∈r.head,(range s).Meets (range seg)) →
      ∃ v∈invalid,asRange v=range seg)
    (hlimit : ∀ v∈invalid,v.2.toNat < r.maxAddress.toNat+2^k) : Placed k r (r₁.linkSeg seg) seg q invalid := by
  have hmax : r₁.maxAddress=r.maxAddress := congrArg Prod.fst hshape
  obtain ⟨hc,hmem,hs⟩ := linkSeg_coherent h₁ hvalid haligned (by rw [hmax]; exact hbound)
    (by rw [hcount,hindex]; exact Nat.lt_succ_self _)
    (fun s hs he => absurd (h.numbered s ((hrest s).mp hs).1) (by rw [he,hindex]; exact lt_irrefl _))
    (fun s hs => ((hrest s).mp hs).2)
  have hseg := (hmem seg).mpr (Or.inl rfl)
  refine ⟨hc,hs.trans hshape,?_,hseg,haround,fun s hs => ?_,hlimit⟩
  · refine view_congr range byteAt 0 hc.ascending (fun s hs => ?_) fun s hs a ha => ?_
    · by_cases hm : (range s).Meets (range seg)
      · obtain ⟨hlo,hhi⟩ := habsorb s hs hm
        exact ⟨seg,hseg,Set.Icc_subset_Icc hlo hhi⟩
      · exact ⟨s,(hmem s).mpr (Or.inr ((hrest s).mpr ⟨hs,hm⟩)),subset_rfl⟩
    · rcases (hmem s).mp hs with rfl|hs
      · exact hbytes a ha
      · exact (view_eq range byteAt 0 h.ascending ((hrest s).mp hs).1 ha).symm
  · by_cases hm : (range s).Meets (range seg)
    · obtain ⟨v,hv,hveq⟩ := hinvalid ⟨s,hs,hm⟩
      rw [←hveq] at habsorb hm
      exact Or.inr ⟨v,hv,habsorb s hs hm⟩
    · exact Or.inl ((hmem s).mpr (Or.inr ((hrest s).mpr ⟨hs,hm⟩)))

/-- Giving out one more number keeps the invariant. -/
theorem Coherent.next (h : Coherent k r) : Coherent k {r with segIndex := r.segIndex+1} :=
  ⟨⟨h.maxPage,h.addrMask,h.room⟩,h.ascending,h.aligned,h.bounded,
    fun s hs => (h.numbered s hs).trans (Nat.lt_succ_self _),h.distinct,h.cached,h.linked⟩

/-- The pages of a decoded range end before the bound on segments. -/
theorem round_bound {hi : ℕ} (h : q.hi≤hi) : (q.round (2^k)).hi<hi+2^k := by
  have hpos := page_pos k
  have hmod := Nat.mod_le q.hi (2^k)
  change q.hi-q.hi%2^k+(2^k-1)<hi+2^k
  omega

/-- The merge: a new segment around a range takes over the bytes of the
segments that it meets. -/
theorem merge_placed (h : Coherent k r) {addr top : BitVec 64}
    (hvalid : ((asRange (addr,top)).round (2^k)).lo≤((asRange (addr,top)).round (2^k)).hi)
    (htop : top.toNat ≤ r.maxAddress.toNat) :
    let c := r.coverRange addr top
    let old := r.head.filter fun s => s.hasOverlap c.1 c.2
    ∃ seg,old.foldlM copyIn (.new r.segIndex c.1 c.2)=some seg ∧
      Placed k r ((old.foldl TlmRam.unlinkSeg {r with segIndex := r.segIndex+1}).linkSeg seg)
        seg (asRange (addr,top)) [c] := by
  intro c old
  have hcover : asRange c=cover ((asRange (addr,top)).round (2^k)) (r.head.map range) :=
    coverRange_asRange h.toPaged addr top
  obtain ⟨hclo,hchi⟩ := cover_contains ((asRange (addr,top)).round (2^k)) (r.head.map range)
  rw [←hcover] at hclo hchi
  have hcvalid : (asRange c).lo≤(asRange c).hi := hclo.trans (hvalid.trans hchi)
  have hold : ∀ s,s∈old ↔ s∈r.head ∧ (range s).Meets (asRange c) := fun s => by
    rw [List.mem_filter,hasOverlap_iff]
  have habsorb : ∀ s∈r.head,(range s).Meets (asRange c) →
      (asRange c).lo≤(range s).lo ∧ (range s).hi≤(asRange c).hi := by
    intro s hs hm
    rw [hcover] at hm ⊢
    exact (h.ascending.cover _ (List.mem_map_of_mem hs) hm).2
  obtain ⟨hclo',hchi'⟩ := cover_ends (P := fun a => 2^k∣a)
    (Q := fun a => 2^k∣a+1 ∧ a < r.maxAddress.toNat+2^k)
    (Range.round_aligned (page_pos k) (asRange (addr,top))).1
    ⟨(Range.round_aligned (page_pos k) (asRange (addr,top))).2,round_bound htop⟩
    (List.forall_mem_map.mpr fun s hs =>
      ⟨(h.aligned s hs).1,(h.aligned s hs).2,h.bounded s hs⟩)
  rw [←hcover] at hclo' hchi'
  have hroom := h.room
  have hnew : c.2.toNat+1<2^64 := (Nat.succ_le_of_lt hchi'.2).trans_lt hroom
  obtain ⟨seg,hfold,hb,ht,hi,hcopy,hkeep⟩ := @copies_spec (.new r.segIndex c.1 c.2) old
    (h.ascending.sublist ((List.filter_sublist (l := r.head)).map range)) hnew
    fun s hs => habsorb s ((hold s).mp hs).1 ((hold s).mp hs).2
  have hrange : range seg=asRange c := by rw [range,hb,ht]; rfl
  obtain ⟨hco,hmem,hsh,hix⟩ := unlinkSegs h.next old
  refine ⟨seg,hfold,?_⟩
  refine link_placed h hco hsh hix (fun s => ?_) hi (by rw [hrange]; exact hcvalid)
    (by rw [hrange]; exact ⟨hclo',hchi'.1⟩) (by rw [ht]; exact hchi'.2)
    (by rw [hrange]; exact habsorb) (fun a ha => ?_) (by rw [hrange]; exact ⟨hclo,hchi⟩)
    (fun _ => ⟨c,List.mem_singleton_self c,hrange.symm⟩)
    (fun v hv => by rw [List.mem_singleton.mp hv]; exact hchi'.2)
  · rw [hmem,hrange]
    refine and_congr_right fun hs => ⟨fun hout hm => ?_,fun hm t ht he => ?_⟩
    · exact hout s ((hold s).mpr ⟨hs,hm⟩) rfl
    · obtain ⟨ht',htm⟩ := (hold t).mp ht
      rw [eq_of_index h hs ht' he] at hm
      exact hm htm
  · rw [hrange] at ha
    by_cases hin : ∃ s∈r.head,a∈(range s).points
    · obtain ⟨s,hs,has⟩ := hin
      rw [hcopy s ((hold s).mpr ⟨hs,Range.meets_of_mem has ha⟩) a has]
      exact (view_eq range byteAt 0 h.ascending hs has).symm
    · have hout : ∀ s∈r.head,a∉(range s).points := fun s hs has => hin ⟨s,hs,has⟩
      rw [hkeep a ha.1 fun s hs => hout s ((hold s).mp hs).1]
      exact (view_default range byteAt 0 hout).symm

/-- A new segment for pages that no segment meets. -/
theorem new_placed (h : Coherent k r) {addr top : BitVec 64}
    (hvalid : ((asRange (addr,top)).round (2^k)).lo≤((asRange (addr,top)).round (2^k)).hi)
    (htop : top.toNat ≤ r.maxAddress.toNat) (hany : ¬r.overlapsAny addr top=true) :
    let c := r.roundToPageBoundaries addr top
    let seg := MemorySegment.new r.segIndex c.1 c.2
    Placed k r ({r with segIndex := r.segIndex+1}.linkSeg seg) seg (asRange (addr,top)) [] := by
  intro c seg
  have hround : asRange c=(asRange (addr,top)).round (2^k) := round_asRange h.toPaged addr top
  have hrange : range seg=(asRange (addr,top)).round (2^k) := hround
  have hapart : ∀ s∈r.head,¬(range s).Meets (range seg) := by
    intro s hs hm
    rw [hrange,(h.aligned s hs).meets_round (page_pos k)] at hm
    exact hany (List.any_eq_true.mpr ⟨s,hs,(hasOverlap_iff s (addr,top)).mpr hm⟩)
  refine link_placed h h.next rfl rfl (fun s => ⟨fun hs => ⟨hs,hapart s hs⟩,fun hs => hs.1⟩) rfl
    (by rw [hrange]; exact hvalid) (by rw [hrange]; exact Range.round_aligned (page_pos k) _)
    ?_ (fun s hs hm => absurd hm (hapart s hs)) (fun a ha => ?_) (by rw [hrange]; exact ⟨le_rfl,le_rfl⟩)
    (fun ⟨s,hs,hm⟩ => absurd hm (hapart s hs)) fun _ hv => nomatch hv
  · have hhi : seg.top.toNat=((asRange (addr,top)).round (2^k)).hi := congrArg Range.hi hrange
    rw [hhi]
    exact round_bound htop
  · exact (view_default range byteAt 0 fun s hs has => hapart s hs (Range.meets_of_mem has ha)).symm

/-- What the cache points to is in the list. -/
theorem cached_mem (h : Coherent k r) :
    ∃ cached,r.cached=some cached ∧ ∀ s∈cached,s∈r.head ∧ r.cache=some s.index := by
  unfold TlmRam.cached
  cases hc : r.cache with
  | none => exact ⟨none,rfl,fun s hs => nomatch hs⟩
  | some i =>
    obtain ⟨s,hs,rfl⟩ := h.cached i hc
    refine ⟨some s,?_,fun t ht => ?_⟩
    · dsimp only
      rw [deref_mem h hs]
      rfl
    · cases ht
      exact ⟨hs,rfl⟩

/-- A range inside a segment of the list is found there. -/
theorem findAddSeg_hit (h : Coherent k r) {s : MemorySegment} (hs : s∈r.head)
    {addr bytes : BitVec 64} (horder : addr≤addr+bytes-1)
    (hin : s.fallsWithin addr (addr+bytes-1)=true) :
    r.findAddSeg addr bytes=some ({r with cache := some s.index},s,[]) := by
  have hone : ∀ t∈r.head,t.fallsWithin addr (addr+bytes-1)=true → t=s := by
    intro t ht hint
    obtain ⟨hlo,hhi⟩ := (fallsWithin_iff _ _ _).mp hin
    obtain ⟨hlo',hhi'⟩ := (fallsWithin_iff _ _ _).mp hint
    rw [BitVec.le_def] at horder
    exact h.ascending.eq_of_meets ht hs (Range.meets_of_mem (a := addr.toNat)
      ⟨hlo',horder.trans hhi'⟩ ⟨hlo,horder.trans hhi⟩)
  obtain ⟨cached,hcached,hmem⟩ := cached_mem h
  unfold TlmRam.findAddSeg
  rw [hcached]
  dsimp only [Option.bind_eq_bind,Option.bind_some]
  cases hhit : cached.filter fun s => s.fallsWithin addr (addr+bytes-1) with
  | some seg =>
    obtain ⟨hseg,hin'⟩ := Option.filter_eq_some_iff.mp hhit
    obtain ⟨hseg',hc⟩ := hmem seg hseg
    rw [hone seg hseg' hin'] at hc ⊢
    dsimp only
    rw [←hc]
  | none =>
    dsimp only
    cases hfind : r.head.find? fun s => s.fallsWithin addr (addr+bytes-1) with
    | some seg =>
      have hseg := List.find?_some hfind
      rw [hone seg (List.mem_of_find?_eq_some hfind) hseg]
    | none => exact absurd hin (List.find?_eq_none.mp hfind s hs)

/-- The specification of `findAddSeg`, for a range whose pages are in order and
decoded. -/
theorem findAddSeg_spec (h : Coherent k r) {addr bytes : BitVec 64}
    (hvalid : ((asRange (addr,addr+bytes-1)).round (2^k)).lo≤
      ((asRange (addr,addr+bytes-1)).round (2^k)).hi)
    (htop : (addr+bytes-1).toNat ≤ r.maxAddress.toNat) :
    ∃ r' seg invalid,r.findAddSeg addr bytes=some (r',seg,invalid) ∧
      Placed k r r' seg (asRange (addr,addr+bytes-1)) invalid := by
  obtain ⟨cached,hcached,hmem⟩ := cached_mem h
  unfold TlmRam.findAddSeg
  rw [hcached]
  dsimp only [Option.bind_eq_bind,Option.bind_some]
  cases hhit : cached.filter fun s => s.fallsWithin addr (addr+bytes-1) with
  | some seg =>
    obtain ⟨hs,hin⟩ := Option.filter_eq_some_iff.mp hhit
    exact ⟨r,seg,[],rfl,
      cache_placed h (hmem seg hs).1 ((fallsWithin_iff _ _ _).mp hin) h.cached⟩
  | none =>
    dsimp only
    cases hfind : r.head.find? fun s => s.fallsWithin addr (addr+bytes-1) with
    | some seg =>
      have hs := List.mem_of_find?_eq_some hfind
      have hin := List.find?_some hfind
      refine ⟨_,seg,[],rfl,cache_placed h hs ((fallsWithin_iff _ _ _).mp hin) fun i hi => ?_⟩
      cases hi
      exact ⟨seg,hs,rfl⟩
    | none =>
      dsimp only
      by_cases hany : r.overlapsAny addr (addr+bytes-1)=true
      · rw [if_pos hany]
        obtain ⟨seg,hfold,hplaced⟩ := merge_placed h hvalid htop
        rw [hfold]
        exact ⟨_,seg,_,rfl,hplaced⟩
      · rw [if_neg hany]
        exact ⟨_,_,[],rfl,new_placed h hvalid htop hany⟩

end Find

end SystemCDma.SparseMemory
