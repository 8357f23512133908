import SystemCDma.PlatformMemory

/-!
# The shared RAMs as one byte memory

Seen from the common bus the two shared RAMs are one byte memory of two
megabytes. An access of any initiator inside one of them reads or writes that
memory; other accesses leave it alone. While every word of a channel lies in
one of the RAMs, the platform is the controller on that memory. A word that
crosses from one RAM to the other is in neither.
-/

namespace SystemCDma.SharedRam

open ByteMemory EventRun TlmBus TlmDecoder TlmMemory FlatMemory BareMetal PlatformSimulation
open PlatformMemory
open DualDma (Side)

/-- The bytes of the two shared RAMs, at the addresses of the common bus. -/
def sharedMemory (ram : Ram → Memory) : Memory := fun a =>
  if 0x200000≤a ∧ a<0x300000 then ram .ram3 (a-0x200000)
  else if 0x300000≤a ∧ a<0x400000 then ram .ram4 (a-0x300000)
  else 0

/-- Bytes that lie in one of the shared RAMs. -/
def InShared (a n : ℕ) : Prop :=
  (0x200000≤a ∧ a+n≤0x300000) ∨ (0x300000≤a ∧ a+n≤0x400000)

instance (a n : ℕ) : Decidable (InShared a n) := inferInstanceAs (Decidable (_ ∨ _))

/-- Bytes of a range in one of the shared RAMs lie in it. -/
theorem InShared.part {a n b k : ℕ} (h : InShared a n) (hlo : a≤b) (hhi : b+k≤a+n) :
    InShared b k := by
  rcases h with ⟨h₁,h₂⟩|⟨h₁,h₂⟩
  · exact Or.inl ⟨by omega,by omega⟩
  · exact Or.inr ⟨by omega,by omega⟩

/-- The shared RAMs are a window of the memory. -/
theorem InShared.window {a n : ℕ} (h : InShared a n) : bytes a n⊆Set.Ico 0x200000 0x400000 := by
  rcases h with ⟨h₁,h₂⟩|⟨h₁,h₂⟩
  · exact Set.Ico_subset_Ico h₁ (by omega)
  · exact Set.Ico_subset_Ico (by omega) h₂

section Bytes

variable (ram : Ram → Memory) {m : Memory} {a n : ℕ}

/-- A byte of the first shared RAM. -/
theorem sharedMemory_ram3 {x : ℕ} (h : x<0x100000) : sharedMemory ram (0x200000+x)=ram .ram3 x := by
  rw [sharedMemory,if_pos ⟨by omega,by omega⟩,Nat.add_sub_cancel_left]

/-- A byte of the second shared RAM. -/
theorem sharedMemory_ram4 {x : ℕ} (h : x<0x100000) : sharedMemory ram (0x300000+x)=ram .ram4 x := by
  rw [sharedMemory,if_neg (by omega),if_pos ⟨by omega,by omega⟩,Nat.add_sub_cancel_left]

/-- Writing into the first shared RAM. -/
theorem sharedMemory_write3 (hn : a+n≤0x100000) (buffer : Memory) :
    sharedMemory (Function.update ram .ram3 (copyBytes (ram .ram3) a buffer n))=
      copyBytes (sharedMemory ram) (0x200000+a) buffer n := by
  funext x
  dsimp only [sharedMemory,copyBytes]
  rw [Function.update_self,Function.update_of_ne (by decide)]
  by_cases hx : 0x200000+a≤x ∧ x<0x200000+a+n
  · rw [if_pos hx,if_pos ⟨by omega,by omega⟩,copyBytes,if_pos ⟨by omega,by omega⟩,
      Nat.sub_sub]
  · rw [if_neg hx]
    by_cases h₃ : 0x200000≤x ∧ x<0x300000
    · rw [if_pos h₃,if_pos h₃,copyBytes,if_neg (by omega)]
    · rw [if_neg h₃,if_neg h₃]

/-- Writing into the second shared RAM. -/
theorem sharedMemory_write4 (hn : a+n≤0x100000) (buffer : Memory) :
    sharedMemory (Function.update ram .ram4 (copyBytes (ram .ram4) a buffer n))=
      copyBytes (sharedMemory ram) (0x300000+a) buffer n := by
  funext x
  dsimp only [sharedMemory,copyBytes]
  rw [Function.update_self,Function.update_of_ne (by decide)]
  by_cases hx : 0x300000+a≤x ∧ x<0x300000+a+n
  · rw [if_pos hx,if_neg (by omega),if_pos ⟨by omega,by omega⟩,copyBytes,
      if_pos ⟨by omega,by omega⟩,Nat.sub_sub]
  · rw [if_neg hx]
    by_cases h₃ : 0x200000≤x ∧ x<0x300000
    · rw [if_pos h₃,if_pos h₃]
    · rw [if_neg h₃,if_neg h₃]
      by_cases h₄ : 0x300000≤x ∧ x<0x400000
      · rw [if_pos h₄,if_pos h₄,copyBytes,if_neg (by omega)]
      · rw [if_neg h₄,if_neg h₄]

end Bytes

/-- Where an initiator finds bytes of the shared RAMs: the RAM, the place
there, and what is read and written. -/
structure Located (i : Initiator) (a : BitVec 64) (n : ℕ) (r : Ram) (offset : BitVec 64) : Prop where
  /-- The decoders lead there. -/
  found : lookup (addressMap i) a=some (.ram r,offset)
  /-- All bytes are decoded by the RAM. -/
  decoded : offset.toNat+n≤0x100000
  /-- Reading. -/
  read : ∀ (ram : Ram → Memory) (k : ℕ),k<n → ram r (offset.toNat+k)=sharedMemory ram (a.toNat+k)
  /-- Writing. -/
  write : ∀ (ram : Ram → Memory) (buffer : Memory),
    sharedMemory (Function.update ram r (copyBytes (ram r) offset.toNat buffer n))=
      copyBytes (sharedMemory ram) a.toNat buffer n

section Location

variable {i : Initiator} {a : BitVec 64} {n : ℕ}

/-- Addresses between the RAMs of a processor go to the common bus. -/
theorem lookup_between (hlo : 0x100000≤a.toNat) (hhi : a.toNat<0xfff00000) :
    lookup (addressMap i) a=lookup shared a := by
  cases i with
  | cpu side =>
    have hlow : ¬(⟨0x000000,0x0fffff⟩ : PortMapping).inRegion a=true := by
      rw [PortMapping.inRegion,Bool.and_eq_true,decide_eq_true_eq,decide_eq_true_eq]
      rintro ⟨_,h⟩
      have h' : a.toNat≤0x0fffff := BitVec.le_def.mp h
      omega
    have hhigh : ¬(⟨0xfff00000,0xffffffff⟩ : PortMapping).inRegion a=true := by
      rw [PortMapping.inRegion,Bool.and_eq_true,decide_eq_true_eq,decide_eq_true_eq]
      rintro ⟨h,_⟩
      have h' : 0xfff00000≤a.toNat := BitVec.le_def.mp h
      omega
    rw [addressMap,own,List.cons_append,lookup,if_neg hlow,List.cons_append,lookup,if_neg hhigh]
    rfl
  | dma => rfl

/-- Bytes inside one of the shared RAMs are found there by every initiator. -/
theorem located (h : InShared a.toNat n) (hn : n≠0) : ∃ r offset,Located i a n r offset := by
  have hbetween := lookup_between (i := i) (a := a)
  rcases h with ⟨hlo,hhi⟩|⟨hlo,hhi⟩
  · have hin : (⟨0x200000,0x2fffff⟩ : PortMapping).inRegion a=true := by
      rw [PortMapping.inRegion,Bool.and_eq_true,decide_eq_true_eq,decide_eq_true_eq]
      exact ⟨BitVec.le_def.mpr hlo,BitVec.le_def.mpr (show a.toNat≤0x2fffff by omega)⟩
    have hoff : (a-0x200000).toNat=a.toNat-0x200000 :=
      BitVec.toNat_sub_of_le (BitVec.le_def.mpr hlo)
    refine ⟨.ram3,a-0x200000,?_,by omega,fun ram k hk => ?_,fun ram buffer => ?_⟩
    · rw [hbetween (by omega) (by omega),shared,lookup,if_pos hin]
      rfl
    · rw [←sharedMemory_ram3 ram (by omega)]
      congr 1
      omega
    · rw [sharedMemory_write3 ram (by omega)]
      congr 1
      omega
  · have hin : (⟨0x300000,0x3fffff⟩ : PortMapping).inRegion a=true := by
      rw [PortMapping.inRegion,Bool.and_eq_true,decide_eq_true_eq,decide_eq_true_eq]
      exact ⟨BitVec.le_def.mpr hlo,BitVec.le_def.mpr (show a.toNat≤0x3fffff by omega)⟩
    have hout : ¬(⟨0x200000,0x2fffff⟩ : PortMapping).inRegion a=true := by
      rw [PortMapping.inRegion,Bool.and_eq_true,decide_eq_true_eq,decide_eq_true_eq]
      rintro ⟨_,h⟩
      have h' : a.toNat≤0x2fffff := BitVec.le_def.mp h
      omega
    have hoff : (a-0x300000).toNat=a.toNat-0x300000 :=
      BitVec.toNat_sub_of_le (BitVec.le_def.mpr hlo)
    refine ⟨.ram4,a-0x300000,?_,by omega,fun ram k hk => ?_,fun ram buffer => ?_⟩
    · rw [hbetween (by omega) (by omega),shared,lookup,if_neg hout,lookup,if_pos hin]
      rfl
    · rw [←sharedMemory_ram4 ram (by omega)]
      congr 1
      omega
    · rw [sharedMemory_write4 ram (by omega)]
      congr 1
      omega

end Location

section Access

variable (i : Initiator) {t : Targets Memory} {p : GenericPayload}

/-- A read inside one of the shared RAMs. -/
theorem access_read (hp : InShared p.address.toNat p.dataLength.toNat) (hlen : p.dataLength≠0)
    (hc : p.command=.read) : (access respondFlat i t p).1=t ∧
      (access respondFlat i t p).2.responseStatus=.okResponse ∧
      (access respondFlat i t p).2.buffer=
        copyBytes p.buffer 0 (fun k => sharedMemory t.ram (p.address.toNat+k))
          p.dataLength.toNat := by
  have hpos : p.dataLength.toNat≠0 := fun hz => hlen (BitVec.eq_of_toNat_eq hz)
  obtain ⟨r,offset,hl⟩ := located (i := i) hp hpos
  have hdecoded := hl.decoded
  have hflat := respondFlat_ok r (t.ram r) (p := {p with address := offset}) hlen (by
    change offset.toNat+p.dataLength.toNat≤_
    omega)
  rw [access_lookup,hl.found]
  dsimp only [reach,call]
  rw [hflat]
  dsimp only [flatExecute]
  rw [hc]
  dsimp only
  rw [Function.update_eq_self]
  exact ⟨rfl,rfl,copyBytes_congr _ _ fun k hk => hl.read t.ram k hk⟩

/-- A write inside one of the shared RAMs. -/
theorem access_write (hp : InShared p.address.toNat p.dataLength.toNat) (hlen : p.dataLength≠0)
    (hc : p.command=.write) : (access respondFlat i t p).1.dma=t.dma ∧
      sharedMemory (access respondFlat i t p).1.ram=
        copyBytes (sharedMemory t.ram) p.address.toNat p.buffer p.dataLength.toNat ∧
      (access respondFlat i t p).2.responseStatus=.okResponse ∧
      (access respondFlat i t p).2.buffer=p.buffer := by
  have hpos : p.dataLength.toNat≠0 := fun hz => hlen (BitVec.eq_of_toNat_eq hz)
  obtain ⟨r,offset,hl⟩ := located (i := i) hp hpos
  have hdecoded := hl.decoded
  have hflat := respondFlat_ok r (t.ram r) (p := {p with address := offset}) hlen (by
    change offset.toNat+p.dataLength.toNat≤_
    omega)
  rw [access_lookup,hl.found]
  dsimp only [reach,call]
  rw [hflat]
  dsimp only [flatExecute]
  rw [hc]
  exact ⟨rfl,hl.write t.ram p.buffer,rfl,rfl⟩

end Access

section Edge

variable {t : Targets Memory}

/-- The word at the front of a buffer that four bytes have been copied to. -/
theorem load_copyBytes (m buffer : Memory) : load (copyBytes m 0 buffer 4) 0=load buffer 0 := by
  rw [copyBytes_word,load_store]

/-- The word at the front of a memory that is looked at from an address on. -/
theorem load_shift (m : Memory) (a : ℕ) : load (fun k => m (a+k)) 0=load m a := by
  simp only [load,Nat.zero_add,Nat.add_zero]

/-- The word of the bytes of a word. -/
theorem load_bytes (w : BitVec 32) : load (fun k => w.extractLsb' (8*k) 8) 0=w := by
  refine word_ext fun i hi => ?_
  rw [load_byte _ _ hi,Nat.zero_add]

/-- The words that the process moves inside the shared RAMs. -/
def WordAccess (p : Payload) : Prop := p.command≠.ignore ∧ InShared p.address.toNat 4

/-- For these the common bus is a byte memory. -/
theorem master_ram : Agree (masterBus respondFlat) (ramBus 0x200000 0x400000)
    (fun t m => sharedMemory t.ram=m) WordAccess := by
  rintro t m ⟨command,address,data⟩ rfl ⟨hcommand,hin⟩
  change InShared address.toNat 4 at hin
  have hwindow : 0x200000≤address.toNat ∧ address.toNat+4≤0x400000 := by
    rcases hin with h|h <;> exact ⟨by omega,by omega⟩
  have hin' : InShared (masterPayload ⟨command,address,data⟩).address.toNat
      (masterPayload ⟨command,address,data⟩).dataLength.toNat := hin
  have hlen : (masterPayload ⟨command,address,data⟩).dataLength≠0 := by
    change (4 : BitVec 32)≠0
    decide
  dsimp only [masterBus,ramBus]
  rw [if_pos hwindow]
  cases command with
  | ignore => exact absurd rfl hcommand
  | read =>
    obtain ⟨hmem,hstatus,hbuffer⟩ := access_read .dma (t := t) hin' hlen rfl
    rw [hmem,hstatus,hbuffer]
    exact ⟨rfl,congrArg _ ((load_copyBytes _ _).trans (load_shift _ _))⟩
  | write =>
    obtain ⟨_,hmem,hstatus,hbuffer⟩ := access_write .dma (t := t) hin' hlen rfl
    rw [hmem,hstatus,hbuffer]
    have hword : load (masterPayload ⟨.write,address,data⟩).buffer 0=data := load_bytes data
    refine ⟨?_,congrArg _ hword⟩
    change copyBytes _ _ (masterPayload ⟨.write,address,data⟩).buffer 4=_
    rw [copyBytes_word,hword]
    rfl

/-- The current word of a moving channel lies in shared RAMs. -/
def Fits (c : DualDma.Channel) : Prop :=
  c.Moving → InShared (c.source.toNat+c.offset.toNat) 4 ∧ InShared (c.target.toNat+c.offset.toNat) 4

/-- Then so do the accesses that move it. -/
theorem Fits.words {c : DualDma.Channel} (h : Fits c) (hm : c.Moving) (data : BitVec 32) :
    WordAccess (c.readPayload data) ∧ WordAccess (c.writePayload data) := by
  obtain ⟨hs,ht⟩ := h hm
  have hsa : (c.readPayload data).address.toNat=c.source.toNat+c.offset.toNat :=
    TransferEngine.address_toNat _ _
  have hta : (c.writePayload data).address.toNat=c.target.toNat+c.offset.toNat :=
    TransferEngine.address_toNat _ _
  exact ⟨⟨Command.noConfusion,by rw [hsa]; exact hs⟩,⟨Command.noConfusion,by rw [hta]; exact ht⟩⟩

/-- An access inside the shared RAMs is outside the window of the controller. -/
theorem WordAccess.apart {p : Payload} (h : WordAccess p) : Apart p := by
  intro _ offset hl
  obtain ⟨r,offset',hloc⟩ := located (i := .dma) h.2 (by decide)
  cases hloc.found.symm.trans hl

/-- While the words of both channels lie in shared RAMs, an edge of the
platform is an edge of the controller on the shared memory. -/
theorem edge_shared (h : ∀ side,Fits (t.dma.chan side)) :
    (edge respondFlat t).dma=
        (DualDma.dmaP (ramBus 0x200000 0x400000) (sharedMemory t.ram) t.dma).1 ∧
      sharedMemory (edge respondFlat t).ram=
        (DualDma.dmaP (ramBus 0x200000 0x400000) (sharedMemory t.ram) t.dma).2.1 := by
  have hedge := edge_dmaP respondFlat (t := t) fun side hm data =>
    ((h side).words hm data).2.apart
  obtain ⟨hdma,hmem,_⟩ := dmaP_alike master_ram (m := t) (s := t.dma) rfl
    (issues_testStop (h .one).words) (issues_testStop (h .two).words)
  rw [hedge]
  exact ⟨hdma,hmem⟩

end Edge

section Frame

variable {i : Initiator} {t : Targets Memory} {p : GenericPayload}

/-- The shared RAMs have the same windows for every initiator. -/
theorem shared_base : ∀ w∈addressMap i,(w.2=.ram .ram3 → w.1.lo=0x200000) ∧
    (w.2=.ram .ram4 → w.1.lo=0x300000) := by
  cases i with
  | cpu side => cases side <;> decide
  | dma => decide

/-- What an access may change in a RAM. -/
theorem respondFlat_frame (r : Ram) (m : Memory) (p : GenericPayload) {x : ℕ}
    (hx : p.command=.write → x∉bytes p.address.toNat p.dataLength.toNat) :
    (respondFlat r m p).1 x=m x := by
  have hexec : (flatExecute m p).1 x=m x := by
    dsimp only [flatExecute]
    cases hc : p.command with
    | read => rfl
    | write => exact if_neg (hx hc)
    | ignore => rfl
  dsimp only [respondFlat,flatServe]
  by_cases hc : p.address+length p-1≤0x100000
  · rw [if_pos hc]
    exact hexec
  · rw [if_neg hc]

/-- An access changes no byte of the shared memory but those it writes. -/
theorem access_frame {x : ℕ} (hx : p.command=.write → x∉bytes p.address.toNat p.dataLength.toNat) :
    sharedMemory (access respondFlat i t p).1.ram x=sharedMemory t.ram x := by
  rw [access_lookup]
  cases hl : lookup (addressMap i) p.address with
  | none => rfl
  | some v =>
    obtain ⟨l,offset⟩ := v
    obtain ⟨m,hmem,hin,rfl⟩ := lookup_some hl
    obtain ⟨h₃,h₄⟩ := shared_base _ hmem
    rw [PortMapping.inRegion,Bool.and_eq_true,decide_eq_true_eq,decide_eq_true_eq] at hin
    have hoff : (m.offsetInto p.address).toNat=p.address.toNat-m.lo.toNat :=
      BitVec.toNat_sub_of_le hin.1
    have hle := BitVec.le_def.mp hin.1
    -- a byte outside the written ones is outside them in the RAM
    have hout : ∀ base : ℕ,m.lo.toNat=base → base≤x → p.command=.write →
        x-base∉bytes (m.offsetInto p.address).toNat p.dataLength.toNat := by
      rintro _ rfl hbase hc ⟨h₁,h₂⟩
      exact hx hc ⟨by omega,by omega⟩
    cases l with
    | dma => rfl
    | ram r =>
      dsimp only [reach,call,sharedMemory]
      by_cases hx₃ : 0x200000≤x ∧ x<0x300000
      · rw [if_pos hx₃,if_pos hx₃]
        by_cases hr : r=.ram3
        · subst hr
          rw [Function.update_self]
          exact respondFlat_frame _ _ _ (hout 0x200000 (by rw [h₃ rfl]; rfl) hx₃.1)
        · rw [Function.update_of_ne (Ne.symm hr)]
      · rw [if_neg hx₃,if_neg hx₃]
        by_cases hx₄ : 0x300000≤x ∧ x<0x400000
        · rw [if_pos hx₄,if_pos hx₄]
          by_cases hr : r=.ram4
          · subst hr
            rw [Function.update_self]
            exact respondFlat_frame _ _ _ (hout 0x300000 (by rw [h₄ rfl]; rfl) hx₄.1)
          · rw [Function.update_of_ne (Ne.symm hr)]
        · rw [if_neg hx₄,if_neg hx₄]

/-- The access to the registers of the controller that a payload becomes. -/
def registerAccess (i : Initiator) (p : GenericPayload) : Option Payload :=
  match lookup (addressMap i) p.address with
  | some (.dma,offset) => some {p with address := offset}.word
  | _ => none

/-- Only accesses to its registers change the controller. -/
theorem access_dma {A : Type*} (respond : Ram → A → GenericPayload → A×GenericPayload)
    (t : Targets A) : (access respond i t p).1.dma=
      match registerAccess i p with
      | some q => (DualDma.bTransport t.dma q).1
      | none => t.dma := by
  rw [access_lookup,registerAccess]
  cases lookup (addressMap i) p.address with
  | none => rfl
  | some v =>
    obtain ⟨l,offset⟩ := v
    cases l <;> rfl

/-- These change no RAM. -/
theorem register_ram {A : Type*} (respond : Ram → A → GenericPayload → A×GenericPayload)
    (t : Targets A) {q : Payload} (h : registerAccess i p=some q) :
    (access respond i t p).1.ram=t.ram := by
  rw [access_lookup]
  rw [registerAccess] at h
  cases hl : lookup (addressMap i) p.address with
  | none => rfl
  | some v =>
    obtain ⟨l,offset⟩ := v
    rw [hl] at h
    cases l with
    | ram r => cases h
    | dma => rfl

end Frame

end SystemCDma.SharedRam
