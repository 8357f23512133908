import SystemCDma.SharedRam
import SystemCDma.SinglePlatform

/-!
# The RAM of the first project

The RAM seen at the addresses of the bus. What the processor and the controller
do there is done to a byte memory, and as long as the words of a transfer lie
in the window of the RAM, an edge of the platform is an edge of the controller
on that memory.
-/

namespace SystemCDma.SingleRam

open ByteMemory TransferEngine SinglePlatform FlatMemory TlmBus
open SingleDma (DMA)
open BareMetal (masterPayload)
open PlatformSimulation (Agree)
open SharedRam (load_copyBytes load_shift load_bytes)

/-- The RAM as the controller sees it. -/
def ramBus1 : Bus Memory := ramBus 0x10 (2^32)

variable {u : Targets Memory}

/-- The RAM at the addresses of the bus. -/
def memory (u : Targets Memory) : Memory := fun a => if 0x10≤a then u.ram1 (a-0x10) else 0

/-- Writing bytes to the RAM. -/
theorem memory_write (m : Memory) (dma : DMA) {a : ℕ} (h : 0x10≤a) (buffer : Memory) (n : ℕ) :
    memory ⟨copyBytes m (a-0x10) buffer n,dma⟩=copyBytes (memory ⟨m,dma⟩) a buffer n := by
  funext x
  dsimp only [memory,copyBytes]
  by_cases hx : a≤x ∧ x<a+n
  · rw [if_pos (by omega),if_pos (by omega),if_pos hx]
    congr 1
    omega
  · rw [if_neg hx]
    by_cases hlo : 0x10≤x
    · rw [if_pos hlo,if_pos hlo,if_neg (by omega)]
    · rw [if_neg hlo,if_neg hlo]

/-- Storing a word in the RAM. -/
theorem access_store {a : BitVec 64} (v : BitVec 32) (hlo : 0x10≤a.toNat)
    (hhi : a.toNat+4≤2^32) :
    ∃ q : GenericPayload,∃ u' : Targets Memory,
      access respondFlat u (masterPayload ⟨.write,a,v⟩)=(u',q) ∧
      u'.dma=u.dma ∧ memory u'=store (memory u) a.toNat v ∧ q.responseStatus=.okResponse ∧
      load q.buffer 0=v := by
  have hram := access_ram u (p := masterPayload ⟨.write,a,v⟩) (by change (4 : BitVec 32)≠0; decide)
    hlo hhi
  refine ⟨_,_,hram,rfl,?_,rfl,load_bytes v⟩
  change memory ⟨copyBytes u.ram1 (ramWindow.offsetInto a).toNat _ 4,u.dma⟩=_
  rw [offset_toNat hlo,memory_write _ _ hlo,copyBytes_word]
  congr 1
  exact load_bytes v

/-- Loading a word from the RAM. -/
theorem access_load {a : BitVec 64} (word : BitVec 32) (hlo : 0x10≤a.toNat)
    (hhi : a.toNat+4≤2^32) :
    ∃ q : GenericPayload,access respondFlat u (masterPayload ⟨.read,a,word⟩)=(u,q) ∧
      q.responseStatus=.okResponse ∧ load q.buffer 0=load (memory u) a.toNat := by
  have hram := access_ram u (p := masterPayload ⟨.read,a,word⟩) (by change (4 : BitVec 32)≠0; decide)
    hlo hhi
  refine ⟨_,hram,rfl,?_⟩
  change load (copyBytes _ 0 (fun i => u.ram1 ((ramWindow.offsetInto a).toNat+i)) 4) 0=_
  rw [load_copyBytes,load_shift,offset_toNat hlo]
  refine load_congr fun i _ => ?_
  rw [memory,if_pos (by omega)]
  exact congrArg u.ram1 (by omega)

/-- The words that the process moves inside the window of the RAM. -/
def WordAccess (p : Payload) : Prop :=
  p.command≠.ignore ∧ 0x10≤p.address.toNat ∧ p.address.toNat+4≤2^32

/-- For these the bus is a byte memory, and the registers stay as they are. -/
theorem master_ram (regs : Registers) : Agree (masterBus respondFlat) ramBus1
    (fun u m => memory u=m ∧ u.dma.regmem=regs) WordAccess := by
  rintro u m ⟨command,address,data⟩ ⟨rfl,hregs⟩ ⟨hcommand,hlo,hhi⟩
  dsimp only at hcommand hlo hhi
  dsimp only [masterBus,ramBus1,ramBus]
  rw [if_pos ⟨hlo,hhi⟩]
  cases command with
  | ignore => exact absurd rfl hcommand
  | read =>
    obtain ⟨q,hread,hstatus,hword⟩ := access_load (u := u) data hlo hhi
    rw [hread,hstatus,hword]
    exact ⟨⟨rfl,hregs⟩,rfl⟩
  | write =>
    obtain ⟨q,u',hwrite,hdma,hmem,hstatus,hword⟩ := access_store (u := u) data hlo hhi
    rw [hwrite,hstatus,hword]
    exact ⟨⟨hmem,by rw [hdma]; exact hregs⟩,rfl⟩

/-- While the words of the transfer lie in the window of the RAM, an edge of the
platform is an edge of the controller on a byte memory. -/
theorem edge_memory (hfit : u.dma.Moving → ∀ data,
      WordAccess (u.dma.readPayload data) ∧ WordAccess (u.dma.writePayload data))
    {dma : DMA} {m : Memory} {txns : List Txn}
    (h : SingleDma.dmaP ramBus1 (memory u) u.dma=.ok (dma,m,txns)) :
    ∃ u',edge respondFlat u=.ok u' ∧ u'.dma=dma ∧ memory u'=m := by
  rcases dmaP_alike (master_ram u.dma.regmem) (m := u) (n := memory u) ⟨rfl,rfl⟩ hfit with
    ⟨r,_,hr⟩|⟨dma',u',m',txns',hu,hm,hmem,hregs⟩
  · cases h.symm.trans hr
  · obtain ⟨rfl,rfl,rfl⟩ : dma=dma' ∧ m=m' ∧ txns=txns' := by
      simpa only [Except.ok.injEq,Prod.mk.injEq] using h.symm.trans hm
    have hkept := (SingleDma.dmaP_ok hm).2.1
    refine ⟨{u' with dma := {dma with regmem := u'.dma.regmem}},by rw [edge,hu]; rfl,?_,hmem⟩
    dsimp only
    rw [hregs,←hkept]

end SystemCDma.SingleRam
