import SystemCDma.SingleDma
import SystemCDma.DualDma

/-!
# The slave ports on generic payloads

A payload names any number of bytes at any address, with byte enables and
streaming if it likes. Both slave ports look at command, address and data
pointer only: they copy four bytes to the register their address selects and
answer with success. The register arrays are byte memories here, with what
lies behind them; on whole words the ports are those of the two controllers.
An access is honoured for all register contents exactly if it is an aligned
one of four bytes that asks for nothing else.
-/

namespace SystemCDma.RegisterPayload

open ByteMemory TlmBus TransferEngine
open DualDma (Side regOffset)

/-- The values of the four registers of an array. -/
def registersOf (m : Memory) : Registers := fun i => load m (4*i.val)

/-- The slave port of the single-channel controller. -/
def bTransportSingle (dmaBaseAddr : BitVec 32) (regmem : Memory) (p : GenericPayload) :
    Memory×GenericPayload :=
  if p.command=.write then
    (copyBytes regmem (4*SingleDma.regIndex dmaBaseAddr p.address) p.buffer 4,p.succeed)
  else (regmem,p.succeed)

/-- The slave port of the two-channel controller, with one array per channel. -/
def bTransportDual (s : DualDma.DMA) (regAddr : Side → Memory) (p : GenericPayload) :
    (Side → Memory)×GenericPayload :=
  if p.command=.write then
    if (s.ch1.stop || !s.ch1.startClear)=true ∧
        (p.address=DualDma.dmaSourceAddr1 ∨ p.address=DualDma.dmaTargetAddr1 ∨
          p.address=DualDma.dmaSizeAddr1 ∨ p.address=DualDma.dmaClearAddr1) then
      (Function.update regAddr .one (copyBytes (regAddr .one)
        (4*((p.address-DualDma.dmaSourceAddr1)/4).toNat) p.buffer 4),p.succeed)
    else if (s.ch2.stop || !s.ch2.startClear)=true ∧
        (p.address=DualDma.dmaSourceAddr2 ∨ p.address=DualDma.dmaTargetAddr2 ∨
          p.address=DualDma.dmaSizeAddr2 ∨ p.address=DualDma.dmaClearAddr2) then
      (Function.update regAddr .two (copyBytes (regAddr .two)
        (4*((p.address-DualDma.dmaSourceAddr2)/4).toNat) p.buffer 4),p.succeed)
    else (regAddr,p.succeed)
  else (regAddr,p.succeed)

/-- A slave port over register arrays of some shape. -/
structure Port (A : Type) where
  /-- The blocking transport call. -/
  bTransport : A → GenericPayload → A×GenericPayload
  /-- Number of register bytes. -/
  size : ℕ
  /-- The register bytes, from the first one on. -/
  register : A → Memory
  /-- What lies behind the array of each side. -/
  outside : A → Side → Memory
  /-- The register byte that an address names. -/
  offset : BitVec 64 → ℕ
  /-- The channel at an address takes writes. -/
  Accepts : BitVec 64 → Prop

/-- The port of the single-channel controller takes writes at any time. -/
def singlePort (dmaBaseAddr : BitVec 32) : Port Memory where
  bTransport := bTransportSingle dmaBaseAddr
  size := 16
  register m := m
  outside m _ x := m (16+x)
  offset address := (address-dmaBaseAddr.setWidth 64).toNat
  Accepts _ := True

/-- The registers of both channels in address order. -/
def flat (regAddr : Side → Memory) : Memory :=
  fun k => if k<16 then regAddr .one k else regAddr .two (k-16)

/-- The channel whose registers an address lies in. -/
def sideOf (address : BitVec 64) : Side := if address<0x10 then .one else .two

/-- The port of the two-channel controller. -/
def dualPort (s : DualDma.DMA) : Port (Side → Memory) where
  bTransport := bTransportDual s
  size := 32
  register := flat
  outside regAddr side x := regAddr side (16+x)
  offset := BitVec.toNat
  Accepts address := (s.chan (sideOf address)).Open

/-- The payload asks only for bytes of the registers, and for no feature that
a register access does not have. -/
structure Port.Supported {A : Type} (port : Port A) (p : GenericPayload) : Prop where
  /-- It starts at a register byte. -/
  start : port.offset p.address<port.size
  /-- It ends inside the registers. -/
  range : port.offset p.address+p.dataLength.toNat≤port.size
  /-- It has no byte enables. -/
  enables : p.byteEnablePtr=none
  /-- It does not stream. -/
  streaming : p.dataLength≤p.streamingWidth

/-- The port honours a payload: a write that a channel takes and that is
answered with success moves the bytes of the payload and no others, and an
access that cannot be performed changes nothing and is answered with an error. -/
structure Port.Honours {A : Type} (port : Port A) (a : A) (p : GenericPayload) : Prop where
  /-- Exactly the named register bytes take the bytes of the payload. -/
  written : p.command=.write → port.Accepts p.address →
    (port.bTransport a p).2.responseStatus=.okResponse → ∀ k<port.size,
      port.register (port.bTransport a p).1 k=
        copyBytes (port.register a) (port.offset p.address) p.buffer p.dataLength.toNat k
  /-- Nothing behind the registers is touched. -/
  contained : p.command=.write → port.Accepts p.address →
    (port.bTransport a p).2.responseStatus=.okResponse →
      port.outside (port.bTransport a p).1=port.outside a
  /-- No byte after the data is read. -/
  bounded : p.command=.write → port.Accepts p.address →
    (port.bTransport a p).2.responseStatus=.okResponse → ∀ buffer,
      (∀ k<p.dataLength.toNat,buffer k=p.buffer k) →
        (port.bTransport a {p with buffer := buffer}).1=(port.bTransport a p).1
  /-- What cannot be performed is refused. -/
  refused : ¬port.Supported p →
    (port.bTransport a p).1=a ∧ (port.bTransport a p).2.responseStatus.isResponseError=true

/-- A port that answers everything with success honours supported payloads
only. -/
theorem Port.Honours.supported {A : Type} {port : Port A} {a : A} {p : GenericPayload}
    (h : port.Honours a p) (hanswer : (port.bTransport a p).2=p.succeed) : port.Supported p := by
  by_contra hn
  have herr := (h.refused hn).2
  rw [hanswer] at herr
  cases herr

section Words

/-- Four bytes copied to a register replace its value. -/
theorem registersOf_copy (m : Memory) (i : ℕ) (buffer : Memory) :
    registersOf (copyBytes m (4*i) buffer 4)=memcpy (registersOf m) i (load buffer 0) := by
  funext j
  rw [copyBytes_word,registersOf]
  dsimp only [memcpy]
  by_cases hj : j.val=i
  · rw [if_pos hj,hj,load_store]
  · rw [if_neg hj]
    refine load_store_of_disjoint _ _ (Set.disjoint_left.mpr fun x hx hy => hj ?_)
    have := hx.1
    have := hx.2
    have := hy.1
    have := hy.2
    omega

/-- On words the port of the single-channel controller is the one its runs
are about. -/
theorem single_word (s : SingleDma.DMA) {m : Memory} (h : registersOf m=s.regmem)
    (p : GenericPayload) :
    registersOf (bTransportSingle s.dmaBaseAddr m p).1=(SingleDma.bTransport s p.word).1.regmem ∧
      (bTransportSingle s.dmaBaseAddr m p).2.responseStatus=(SingleDma.bTransport s p.word).2 := by
  unfold bTransportSingle SingleDma.bTransport
  by_cases hc : p.command=.write
  · rw [if_pos hc,if_pos (show p.word.command=.write from hc)]
    refine ⟨?_,rfl⟩
    rw [registersOf_copy,h]
    rfl
  · rw [if_neg hc,if_neg (show ¬p.word.command=.write from hc)]
    exact ⟨h,rfl⟩

/-- On words the port of the two-channel controller is the one its runs are
about. -/
theorem dual_word (s : DualDma.DMA) {a : Side → Memory}
    (h : ∀ side,registersOf (a side)=(s.chan side).regAddr) (p : GenericPayload) :
    (∀ side,registersOf ((bTransportDual s a p).1 side)=
        ((DualDma.bTransport s p.word).1.chan side).regAddr) ∧
      (bTransportDual s a p).2.responseStatus=(DualDma.bTransport s p.word).2 := by
  rw [show p.word=⟨p.command,p.address,load p.buffer 0⟩ from rfl]
  unfold bTransportDual DualDma.bTransport
  by_cases hc : p.command=.write
  · rw [if_pos hc,if_pos hc]
    by_cases h₁ : (s.ch1.stop || !s.ch1.startClear)=true ∧
        (p.address=DualDma.dmaSourceAddr1 ∨ p.address=DualDma.dmaTargetAddr1 ∨
          p.address=DualDma.dmaSizeAddr1 ∨ p.address=DualDma.dmaClearAddr1)
    · rw [if_pos h₁,if_pos h₁]
      refine ⟨fun side => ?_,rfl⟩
      dsimp only
      cases side with
      | one =>
        rw [Function.update_self,registersOf_copy,h]
        rfl
      | two =>
        rw [Function.update_of_ne (by decide),h]
        rfl
    · rw [if_neg h₁,if_neg h₁]
      by_cases h₂ : (s.ch2.stop || !s.ch2.startClear)=true ∧
          (p.address=DualDma.dmaSourceAddr2 ∨ p.address=DualDma.dmaTargetAddr2 ∨
            p.address=DualDma.dmaSizeAddr2 ∨ p.address=DualDma.dmaClearAddr2)
      · rw [if_pos h₂,if_pos h₂]
        refine ⟨fun side => ?_,rfl⟩
        dsimp only
        cases side with
        | one =>
          rw [Function.update_of_ne (by decide),h]
          rfl
        | two =>
          rw [Function.update_self,registersOf_copy,h]
          rfl
      · rw [if_neg h₂,if_neg h₂]
        exact ⟨h,rfl⟩
  · rw [if_neg hc,if_neg hc]
    exact ⟨h,rfl⟩

end Words

section Single

variable (dmaBaseAddr : BitVec 32)

/-- Whatever is asked for, the answer is success, and no read fills a buffer. -/
theorem single_answer (m : Memory) (p : GenericPayload) :
    (bTransportSingle dmaBaseAddr m p).2=p.succeed := by
  unfold bTransportSingle
  split <;> rfl

/-- The selected register starts at the byte of the address, rounded down. -/
theorem index_offset (address : BitVec 64) :
    4*SingleDma.regIndex dmaBaseAddr address=4*((singlePort dmaBaseAddr).offset address/4) := by
  rw [SingleDma.regIndex,BitVec.toNat_udiv]
  rfl

/-- A write copies four bytes to the selected register. -/
theorem single_write (m : Memory) {p : GenericPayload} (h : p.command=.write) :
    (bTransportSingle dmaBaseAddr m p).1=
      copyBytes m (4*((singlePort dmaBaseAddr).offset p.address/4)) p.buffer 4 := by
  unfold bTransportSingle
  rw [if_pos h,index_offset]

/-- The single-channel controller honours an access for all register contents
exactly if it is supported and, for a write, aligned and four bytes long. -/
theorem single_honours (p : GenericPayload) :
    (∀ m,(singlePort dmaBaseAddr).Honours m p) ↔ (singlePort dmaBaseAddr).Supported p ∧
      (p.command=.write → p.dataLength=4 ∧ 4∣(singlePort dmaBaseAddr).offset p.address) := by
  constructor
  · intro h
    have hsup : (singlePort dmaBaseAddr).Supported p :=
      (h p.buffer).supported (single_answer dmaBaseAddr p.buffer p)
    refine ⟨hsup,fun hc => ?_⟩
    have hwin : ∀ k<16,_ ↔ _ := fun k hk => copyBytes_window fun m =>
      (congrFun (single_write dmaBaseAddr m hc) k).symm.trans
        ((h m).written hc trivial
          (congrArg GenericPayload.responseStatus (single_answer dmaBaseAddr m p)) k hk)
    have hstart : (singlePort dmaBaseAddr).offset p.address<16 := hsup.start
    have hrange : (singlePort dmaBaseAddr).offset p.address+p.dataLength.toNat≤16 := hsup.range
    have hfirst := hwin (4*((singlePort dmaBaseAddr).offset p.address/4)) (by omega)
    have hlast := hwin (4*((singlePort dmaBaseAddr).offset p.address/4)+3) (by omega)
    have hfour : p.dataLength.toNat=4 := by
      by_cases hlong : 4<p.dataLength.toNat
      · have hnext := hwin (4*((singlePort dmaBaseAddr).offset p.address/4)+4) (by omega)
        omega
      · omega
    exact ⟨BitVec.eq_of_toNat_eq hfour,by omega⟩
  · rintro ⟨hsup,hword⟩ m
    have hout : ∀ x,_ := fun x => hsup.range.trans (Nat.le_add_right 16 x)
    refine ⟨fun hc _ _ k _ => ?_,fun hc _ _ => ?_,fun hc _ _ buffer hb => ?_,
      fun hn => absurd hsup hn⟩
    · obtain ⟨hlen,hdvd⟩ := hword hc
      rw [hlen]
      refine (congrFun (single_write dmaBaseAddr m hc) k).trans ?_
      rw [Nat.mul_div_cancel' hdvd]
      rfl
    · obtain ⟨hlen,hdvd⟩ := hword hc
      funext side x
      refine (congrFun (single_write dmaBaseAddr m hc) (16+x)).trans ?_
      have hx := hout x
      rw [hlen] at hx
      rw [Nat.mul_div_cancel' hdvd,copyBytes,if_neg]
      · rfl
      · rintro ⟨_,hlt⟩
        exact absurd hlt (Nat.not_lt.mpr hx)
    · refine (single_write dmaBaseAddr m (p := {p with buffer := buffer}) hc).trans
        (Eq.trans ?_ (single_write dmaBaseAddr m hc).symm)
      refine copyBytes_congr _ _ fun k hk => hb k ?_
      rw [(hword hc).1]
      exact hk

end Single

section Dual

variable (s : DualDma.DMA)

/-- Whatever is asked for, the answer is success, and no read fills a buffer. -/
theorem dual_answer (a : Side → Memory) (p : GenericPayload) :
    (bTransportDual s a p).2=p.succeed := by
  unfold bTransportDual
  split
  · split
    · rfl
    · split <;> rfl
  · rfl

/-- A write to a register address copies four bytes to that register of an
open channel. -/
theorem dual_register (a : Side → Memory) {p : GenericPayload} {side : Side} {i : Fin 4}
    (hc : p.command=.write) (ha : p.address=regOffset side i) (ho : (s.chan side).Open) :
    (bTransportDual s a p).1=
      Function.update a side (copyBytes (a side) (4*i.val) p.buffer 4) := by
  unfold bTransportDual
  rw [if_pos hc]
  cases side with
  | one =>
    rw [if_pos ⟨ho,DualDma.address_test.mpr ⟨i,ha⟩⟩,ha,DualDma.index_one]
  | two =>
    have hone : ¬∃ j,p.address=regOffset .one j := by
      rintro ⟨j,hj⟩
      exact DualDma.regOffset_disjoint j i (hj.symm.trans ha)
    rw [if_neg (fun h => hone (DualDma.address_test.mp h.2)),
      if_pos ⟨ho,DualDma.address_test.mpr ⟨i,ha⟩⟩,ha,DualDma.index_two]

/-- A write to any other address changes nothing. -/
theorem dual_elsewhere (a : Side → Memory) {p : GenericPayload}
    (h : ∀ side i,p.address≠regOffset side i) : (bTransportDual s a p).1=a := by
  have hnone : ∀ side,¬∃ i,p.address=regOffset side i := fun side ⟨i,hi⟩ => h side i hi
  unfold bTransportDual
  rw [if_neg (c := _∧(p.address=DualDma.dmaSourceAddr1 ∨ _))
      (fun hp => hnone .one (DualDma.address_test.mp hp.2)),
    if_neg (c := _∧(p.address=DualDma.dmaSourceAddr2 ∨ _))
      (fun hp => hnone .two (DualDma.address_test.mp hp.2))]
  split <;> rfl

/-- Below 0x20 the aligned addresses are the register addresses. -/
theorem register_of_aligned {address : BitVec 64} (h : address.toNat<32)
    (hd : 4∣address.toNat) : ∃ i,address=regOffset (sideOf address) i := by
  obtain ⟨k,hk⟩ := hd
  have haddr : address=BitVec.ofNat 64 (4*k) := by
    apply BitVec.eq_of_toNat_eq
    rw [hk,BitVec.toNat_ofNat]
    omega
  have hk8 : k<8 := by omega
  subst haddr
  clear h hk
  interval_cases k <;> decide

/-- Register addresses are aligned. -/
theorem aligned_of_register (side : Side) (i : Fin 4) : 4∣(regOffset side i).toNat := by
  revert i
  cases side <;> decide

/-- The byte offset of a register in both arrays together. -/
theorem regOffset_toNat (side : Side) (i : Fin 4) :
    (regOffset side i).toNat=(match side with | .one => 0 | .two => 16)+4*i.val := by
  revert i
  cases side <;> decide

/-- The arrays whose bytes in address order are given. -/
def unflat (m : Memory) : Side → Memory
  | .one => m
  | .two => fun k => m (k+16)

/-- They are. -/
theorem flat_unflat (m : Memory) : flat (unflat m)=m := by
  funext k
  unfold flat
  by_cases hk : k<16
  · rw [if_pos hk]
    rfl
  · rw [if_neg hk]
    dsimp only [unflat]
    rw [Nat.sub_add_cancel (Nat.le_of_not_lt hk)]

/-- Four bytes copied to a register change these bytes of the registers. -/
theorem flat_copy (a : Side → Memory) (side : Side) (i : Fin 4) (buffer : Memory) {k : ℕ}
    (hk : k<32) :
    flat (Function.update a side (copyBytes (a side) (4*i.val) buffer 4)) k=
      copyBytes (flat a) (regOffset side i).toNat buffer 4 k := by
  have hi := i.isLt
  rw [regOffset_toNat]
  cases side with
  | one =>
    unfold flat copyBytes
    rw [Function.update_self,Function.update_of_ne (by decide),Nat.zero_add]
    dsimp only
    by_cases hlow : k<16
    · rw [if_pos hlow,if_pos hlow]
    · rw [if_neg hlow,if_neg hlow,if_neg (by omega)]
  | two =>
    unfold flat copyBytes
    rw [Function.update_self,Function.update_of_ne (by decide)]
    dsimp only
    by_cases hlow : k<16
    · rw [if_pos hlow,if_pos hlow,if_neg (by omega)]
    · rw [if_neg hlow,if_neg hlow]
      by_cases hin : 16+4*i.val≤k ∧ k<16+4*i.val+4
      · rw [if_pos (by omega),if_pos hin]
        congr 1
        omega
      · rw [if_neg (by omega),if_neg hin]

/-- Behind the arrays nothing changes. -/
theorem outside_copy (a : Side → Memory) (side side' : Side) (i : Fin 4) (buffer : Memory) (x : ℕ) :
    Function.update a side (copyBytes (a side) (4*i.val) buffer 4) side' (16+x)=a side' (16+x) := by
  have hi := i.isLt
  by_cases hs : side'=side
  · rw [hs,Function.update_self,copyBytes,if_neg (by omega)]
  · rw [Function.update_of_ne hs]

/-- Number of bytes that a write to an address copies: a word at the address of
a register, nothing elsewhere. -/
def width (address : BitVec 64) : ℕ := if 4∣address.toNat then 4 else 0

/-- When a payload has the length of what is copied. -/
theorem width_iff (p : GenericPayload) : p.dataLength.toNat=width p.address ↔
    (p.dataLength=4 ∧ 4∣p.address.toNat) ∨ (p.dataLength=0 ∧ ¬4∣p.address.toNat) := by
  have hlen : ∀ n : BitVec 32,p.dataLength.toNat=n.toNat ↔ p.dataLength=n :=
    fun n => BitVec.toNat_inj
  unfold width
  by_cases hd : 4∣p.address.toNat
  · rw [if_pos hd]
    exact ⟨fun h => Or.inl ⟨(hlen 4).mp h,hd⟩,
      fun h => h.elim (fun h => (hlen 4).mpr h.1) fun h => absurd hd h.2⟩
  · rw [if_neg hd]
    exact ⟨fun h => Or.inr ⟨(hlen 0).mp h,hd⟩,
      fun h => h.elim (fun h => absurd h.2 hd) fun h => (hlen 0).mpr h.1⟩

section Write

variable {p : GenericPayload} (hc : p.command=.write) (ho : (s.chan (sideOf p.address)).Open)
  (hstart : p.address.toNat<32)
include hc ho hstart

/-- A write that a channel takes goes to a register, or changes nothing. -/
theorem dual_write_cases :
    (4∣p.address.toNat ∧ ∃ i,p.address=regOffset (sideOf p.address) i ∧
        ∀ a,(bTransportDual s a p).1=Function.update a (sideOf p.address)
          (copyBytes (a (sideOf p.address)) (4*i.val) p.buffer 4)) ∨
      (¬4∣p.address.toNat ∧ ∀ a,(bTransportDual s a p).1=a) := by
  by_cases hd : 4∣p.address.toNat
  · obtain ⟨i,hi⟩ := register_of_aligned hstart hd
    exact Or.inl ⟨hd,i,hi,fun a => dual_register s a hc hi ho⟩
  · exact Or.inr ⟨hd,fun a =>
      dual_elsewhere s a fun side i hi => hd (hi ▸ aligned_of_register side i)⟩

/-- What it does to the register bytes. -/
theorem dual_write (a : Side → Memory) {k : ℕ} (hk : k<32) :
    flat (bTransportDual s a p).1 k=
      copyBytes (flat a) p.address.toNat p.buffer (width p.address) k := by
  rcases dual_write_cases s hc ho hstart with ⟨hd,i,hi,hw⟩|⟨hd,hw⟩
  · rw [hw,flat_copy a _ i p.buffer hk,←hi,width,if_pos hd]
  · rw [hw,width,if_neg hd,copyBytes,if_neg fun h => absurd h.2 (Nat.not_lt.mpr h.1)]

/-- It changes nothing behind the arrays. -/
theorem dual_write_outside (a : Side → Memory) (side : Side) (x : ℕ) :
    (bTransportDual s a p).1 side (16+x)=a side (16+x) := by
  rcases dual_write_cases s hc ho hstart with ⟨_,i,_,hw⟩|⟨_,hw⟩
  · rw [hw,outside_copy]
  · rw [hw]

/-- Two buffers that agree on the copied bytes leave the same arrays behind. -/
theorem dual_write_buffer (a : Side → Memory) {buffer : Memory}
    (hb : ∀ k<width p.address,buffer k=p.buffer k) :
    (bTransportDual s a {p with buffer := buffer}).1=(bTransportDual s a p).1 := by
  by_cases hd : 4∣p.address.toNat
  · obtain ⟨i,hi⟩ := register_of_aligned hstart hd
    rw [width,if_pos hd] at hb
    rw [dual_register s a (p := {p with buffer := buffer}) hc hi ho,dual_register s a hc hi ho,
      copyBytes_congr _ _ hb]
  · have hnone : ∀ side i,p.address≠regOffset side i := fun side i hi =>
      hd (hi ▸ aligned_of_register side i)
    rw [dual_elsewhere s a (p := {p with buffer := buffer}) hnone,dual_elsewhere s a hnone]

end Write

/-- The two-channel controller honours an access for all register contents
exactly if it is supported and a write that its channel takes is aligned and
four bytes long, or names no byte of no register. -/
theorem dual_honours (p : GenericPayload) :
    (∀ a,(dualPort s).Honours a p) ↔ (dualPort s).Supported p ∧
      (p.command=.write → (dualPort s).Accepts p.address →
        (p.dataLength=4 ∧ 4∣p.address.toNat) ∨ (p.dataLength=0 ∧ ¬4∣p.address.toNat)) := by
  constructor
  · intro h
    have hsup : (dualPort s).Supported p :=
      (h fun _ => p.buffer).supported (dual_answer s (fun _ => p.buffer) p)
    refine ⟨hsup,fun hc ho => (width_iff p).mp ?_⟩
    have hstart : p.address.toNat<32 := hsup.start
    have hrange : p.address.toNat+p.dataLength.toNat≤32 := hsup.range
    have hwin : ∀ k<32,(p.address.toNat≤k ∧ k<p.address.toNat+width p.address) ↔
        (p.address.toNat≤k ∧ k<p.address.toNat+p.dataLength.toNat) := by
      intro k hk
      have hcopy : ∀ m,copyBytes m p.address.toNat p.buffer (width p.address) k=
          copyBytes m p.address.toNat p.buffer p.dataLength.toNat k := by
        intro m
        have hw := (h (unflat m)).written hc ho
          (congrArg GenericPayload.responseStatus (dual_answer s (unflat m) p)) k hk
        have hflat := (dual_write s hc ho hstart (unflat m) hk).symm.trans hw
        rw [flat_unflat] at hflat
        refine hflat.trans ?_
        rw [show (dualPort s).register (unflat m)=m from flat_unflat m]
        rfl
      exact copyBytes_window hcopy
    have hend : p.address.toNat+width p.address≤32 := by
      unfold width
      split <;> omega
    -- Were one window shorter, it would miss the byte at its end.
    rcases lt_trichotomy p.dataLength.toNat (width p.address) with hlt|heq|hlt
    · have hbyte := hwin (p.address.toNat+p.dataLength.toNat) (by omega)
      omega
    · exact heq
    · have hbyte := hwin (p.address.toNat+width p.address) (by omega)
      omega
  · rintro ⟨hsup,hword⟩ a
    have hstart : p.address.toNat<32 := hsup.start
    have hlen := fun hc ho => (width_iff p).mpr (hword hc ho)
    refine ⟨fun hc ho _ k hk => ?_,fun hc ho _ => ?_,fun hc ho _ buffer hb => ?_,
      fun hn => absurd hsup hn⟩
    · rw [hlen hc ho]
      exact dual_write s hc ho hstart a hk
    · funext side x
      exact dual_write_outside s hc ho hstart a side x
    · rw [hlen hc ho] at hb
      exact dual_write_buffer s hc ho hstart a hb

end Dual

/-- When the slave ports honour a payload, for every register content. The
single-channel controller: exactly if the payload is supported and, for a
write, one aligned word. The two-channel controller: exactly if it is
supported and a write that its channel takes is one aligned word, or none at
an address of no register. -/
theorem payload_honoured_exact (dmaBaseAddr : BitVec 32) (s : DualDma.DMA) (p : GenericPayload) :
    ((∀ m,(singlePort dmaBaseAddr).Honours m p) ↔
      (singlePort dmaBaseAddr).Supported p ∧
        (p.command=.write → p.dataLength=4 ∧ 4∣(singlePort dmaBaseAddr).offset p.address)) ∧
    ((∀ a,(dualPort s).Honours a p) ↔ (dualPort s).Supported p ∧
      (p.command=.write → (dualPort s).Accepts p.address →
        (p.dataLength=4 ∧ 4∣p.address.toNat) ∨ (p.dataLength=0 ∧ ¬4∣p.address.toNat))) :=
  ⟨single_honours dmaBaseAddr p,dual_honours s p⟩

/-- The store of one byte, eight, to SIZE. What lies behind it in the memory
of the processor is not zero. -/
def storeByte : GenericPayload :=
  ⟨.write,0x08,fun k => if k=0 then 8 else 0xff,1,none,1,.incompleteResponse⟩

/-- Both ports answer the store of one byte with success and write the three
bytes after it too. -/
theorem byte_store_spills :
    (bTransportSingle 0 (fun _ => 0) storeByte).2.responseStatus=.okResponse ∧
      (bTransportSingle 0 (fun _ => 0) storeByte).1 9=0xff ∧
      ¬(singlePort 0).Honours (fun _ => 0) storeByte ∧
      (bTransportDual (DualDma.init 0) (fun _ _ => 0) storeByte).2.responseStatus=.okResponse ∧
      (bTransportDual (DualDma.init 0) (fun _ _ => 0) storeByte).1 .one 9=0xff ∧
      ¬(dualPort (DualDma.init 0)).Honours (fun _ _ => 0) storeByte := by
  refine ⟨rfl,rfl,fun h => ?_,rfl,rfl,fun h => ?_⟩
  · have hbyte := h.written rfl trivial rfl 9 (by decide)
    revert hbyte
    decide
  · have hbyte := h.written rfl (show (DualDma.init 0).ch1.Open from rfl) rfl 9 (by decide)
    revert hbyte
    decide

end SystemCDma.RegisterPayload
