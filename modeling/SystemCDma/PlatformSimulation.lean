import SystemCDma.BareMetal

/-!
# Two models of the memories of one platform

The controller and the decoders do not look into what is behind them. If two
models of the bus targets are in a relation that every access keeps, with the
same answer on both sides, then so is everything that happens on the platform:
the accesses of all initiators and the clock edges of the controller.
-/

namespace SystemCDma.PlatformSimulation

open ByteMemory TlmBus TlmDecoder BareMetal

section Process

variable {M N : Type*} {bus : Bus M} {bus' : Bus N} {R : M → N → Prop} {P : Payload → Prop}

/-- What serving a channel leaves behind on both sides. -/
structure Alike (R : M → N → Prop) (r : DualDma.Served M) (r' : DualDma.Served N) : Prop where
  /-- The channel is the same. -/
  chan : r.chan=r'.chan
  /-- The read buffer is the same. -/
  dataS : r.dataS=r'.dataS
  /-- The bus targets are in the relation. -/
  mem : R r.mem r'.mem
  /-- The same transactions were issued, with the same answers. -/
  txns : r.txns=r'.txns

/-- The accesses with a property keep the relation and are answered alike. -/
def Agree (bus : Bus M) (bus' : Bus N) (R : M → N → Prop) (P : Payload → Prop) : Prop :=
  ∀ m n p,R m n → P p → R (bus.bTransport m p).1 (bus'.bTransport n p).1 ∧
    (bus.bTransport m p).2=(bus'.bTransport n p).2

/-- The accesses that a channel makes if it moves a word have the property. -/
def Issues (P : Payload → Prop) (c : DualDma.Channel) : Prop :=
  c.startClear=true → c.stop=false →
    ∀ data,P (c.readPayload data) ∧ P (c.writePayload data)

/-- After the stop test, these are the accesses of a moving channel. -/
theorem issues_testStop {c : DualDma.Channel}
    (h : c.Moving → ∀ data,P (c.readPayload data) ∧ P (c.writePayload data)) :
    Issues P c.testStop := by
  intro hstart hstop
  refine h ⟨hstart,fun heq => ?_⟩
  rw [DualDma.Channel.testStop,(DualDma.stopFlag_iff _ _).mpr heq] at hstop
  cases hstop

/-- Moving a word. -/
theorem move_alike (h : Agree bus bus' R P) {m : M} {n : N} (hR : R m n) {c : DualDma.Channel}
    (hc : ∀ data,P (c.readPayload data) ∧ P (c.writePayload data)) (dataS : BitVec 32) :
    Alike R (c.move bus m dataS) (c.move bus' n dataS) := by
  obtain ⟨hr,hra⟩ := h m n (c.readPayload dataS) hR (hc dataS).1
  obtain ⟨hw,hwa⟩ := h _ _ (c.writePayload ((bus.bTransport m (c.readPayload dataS)).2.fill dataS))
    hr (hc _).2
  simp only [DualDma.Channel.move]
  rw [←hra]
  exact ⟨rfl,rfl,hw,by rw [hwa]⟩

/-- Serving channel one. -/
theorem transmit1_alike (h : Agree bus bus' R P) {m : M} {n : N} (hR : R m n)
    {c : DualDma.Channel} (hc : Issues P c) (dataS : BitVec 32) :
    Alike R (DualDma.transmit1 bus m c dataS) (DualDma.transmit1 bus' n c dataS) := by
  unfold DualDma.transmit1
  split_ifs with hs ho
  · exact ⟨rfl,rfl,hR,rfl⟩
  · rw [Bool.not_eq_true',Bool.not_eq_false] at hs
    rw [Bool.not_eq_true'] at ho
    exact move_alike h hR (hc hs ho) dataS
  · exact ⟨rfl,rfl,hR,rfl⟩
  · exact ⟨rfl,rfl,hR,rfl⟩

/-- Serving channel two. -/
theorem transmit2_alike (h : Agree bus bus' R P) {m : M} {n : N} (hR : R m n)
    {c : DualDma.Channel} (hc : Issues P c) (dataS : BitVec 32) :
    Alike R (DualDma.transmit2 bus m c dataS) (DualDma.transmit2 bus' n c dataS) := by
  unfold DualDma.transmit2
  split_ifs with hs ho
  · exact ⟨rfl,rfl,hR,rfl⟩
  · rw [Bool.not_eq_true',Bool.not_eq_false] at hs
    rw [Bool.not_eq_true'] at ho
    obtain ⟨hchan,hdata,hmem,htxns⟩ := move_alike h hR (hc hs ho) dataS
    exact ⟨by dsimp only; rw [hchan],hdata,hmem,htxns⟩
  · exact ⟨rfl,rfl,hR,rfl⟩
  · exact ⟨rfl,rfl,hR,rfl⟩

/-- An iteration of the process: the controller, the relation and the
transactions. -/
theorem dmaP_alike (h : Agree bus bus' R P) {m : M} {n : N} (hR : R m n) {s : DualDma.DMA}
    (h₁ : Issues P s.ch1.testStop) (h₂ : Issues P s.ch2.testStop) :
    (DualDma.dmaP bus m s).1=(DualDma.dmaP bus' n s).1 ∧
      R (DualDma.dmaP bus m s).2.1 (DualDma.dmaP bus' n s).2.1 ∧
      (DualDma.dmaP bus m s).2.2=(DualDma.dmaP bus' n s).2.2 := by
  have hone := transmit1_alike h hR h₁ s.dataS
  have htwo := transmit2_alike h hone.mem h₂ (DualDma.transmit1 bus m s.ch1.testStop s.dataS).dataS
  dsimp only [DualDma.dmaP]
  rw [←hone.chan,←hone.txns,←hone.dataS,←htwo.chan,←htwo.txns,←htwo.dataS]
  exact ⟨rfl,by rw [hone.dataS] at htwo; rw [hone.dataS]; exact htwo.mem,rfl⟩

end Process

section Platform

variable {A B : Type*} {respond : Ram → A → GenericPayload → A×GenericPayload}
  {respond' : Ram → B → GenericPayload → B×GenericPayload} {ρ : Ram → A → B → Prop}

/-- The RAMs are in the relation one by one, and the controllers are equal. -/
structure Related (ρ : Ram → A → B → Prop) (t : Targets A) (t' : Targets B) : Prop where
  /-- The contents of every RAM are in the relation. -/
  ram : ∀ r,ρ r (t.ram r) (t'.ram r)
  /-- The controllers are equal. -/
  dma : t.dma=t'.dma

/-- An access inside a RAM keeps the relation and is answered alike. -/
def Responds (respond : Ram → A → GenericPayload → A×GenericPayload)
    (respond' : Ram → B → GenericPayload → B×GenericPayload) (ρ : Ram → A → B → Prop) : Prop :=
  ∀ r x y p,ρ r x y → p.address.toNat<0x100000 →
    ρ r (respond r x p).1 (respond' r y p).1 ∧ (respond r x p).2=(respond' r y p).2

/-- A call of a leaf. -/
theorem call_related (h : Responds respond respond' ρ) {l : Leaf} {t : Targets A} {t' : Targets B}
    (hR : Related ρ t t') {p : GenericPayload} (hp : p.address.toNat<l.size) :
    Related ρ (call respond l t p).1 (call respond' l t' p).1 ∧
      (call respond l t p).2=(call respond' l t' p).2 := by
  cases l with
  | ram r =>
    obtain ⟨hρ,hanswer⟩ := h r _ _ p (hR.ram r) hp
    refine ⟨⟨fun r' => ?_,hR.dma⟩,hanswer⟩
    dsimp only [call]
    by_cases hr : r'=r
    · subst hr
      rw [Function.update_self,Function.update_self]
      exact hρ
    · rw [Function.update_of_ne hr,Function.update_of_ne hr]
      exact hR.ram r'
  | dma =>
    dsimp only [call]
    rw [hR.dma]
    exact ⟨⟨hR.ram,rfl⟩,rfl⟩

/-- An access of an initiator. -/
theorem access_related (h : Responds respond respond' ρ) (i : Initiator) {t : Targets A}
    {t' : Targets B} (hR : Related ρ t t') (p : GenericPayload) :
    Related ρ (access respond i t p).1 (access respond' i t' p).1 ∧
      (access respond i t p).2=(access respond' i t' p).2 := by
  rw [access_lookup,access_lookup]
  cases hl : lookup (addressMap i) p.address with
  | none => exact ⟨hR,rfl⟩
  | some v =>
    obtain ⟨l,offset⟩ := v
    obtain ⟨m,hmem,hin,rfl⟩ := lookup_some hl
    exact call_related h hR ((PortMapping.offsetInto_le hin).trans_lt (window_size i _ hmem))

/-- An access of the process of the controller. -/
theorem master_agree (h : Responds respond respond' ρ) :
    Agree (masterBus respond) (masterBus respond') (Related ρ) fun _ => True := by
  intro t t' p hR _
  obtain ⟨hR',hanswer⟩ := access_related h .dma hR (masterPayload p)
  refine ⟨hR',?_⟩
  dsimp only [masterBus]
  rw [hanswer]

/-- A clock edge of the controller. -/
theorem edge_related (h : Responds respond respond' ρ) {t : Targets A} {t' : Targets B}
    (hR : Related ρ t t') : Related ρ (edge respond t) (edge respond' t') := by
  have hagree := master_agree h
  have hall : ∀ c : DualDma.Channel,Issues (fun _ => True) c :=
    fun _ _ _ _ => ⟨trivial,trivial⟩
  obtain ⟨ram,dma⟩ := t
  obtain ⟨ram',dma'⟩ := t'
  obtain ⟨hram,hdma⟩ := hR
  dsimp only at hdma
  subst hdma
  have hstart : Related ρ ⟨ram,⟨dma.ch1.testStop,dma.ch2.testStop,dma.dataS⟩⟩
      ⟨ram',⟨dma.ch1.testStop,dma.ch2.testStop,dma.dataS⟩⟩ := ⟨hram,rfl⟩
  have h₁ := transmit1_alike hagree hstart (hall dma.ch1.testStop) dma.dataS
  dsimp only [edge]
  revert h₁
  generalize DualDma.transmit1 (masterBus respond) _ dma.ch1.testStop dma.dataS=r₁
  generalize DualDma.transmit1 (masterBus respond') _ dma.ch1.testStop dma.dataS=r₁'
  intro h₁
  have h₂ := transmit2_alike hagree h₁.mem (hall r₁.mem.dma.ch2) r₁.dataS
  rw [h₁.mem.dma,h₁.dataS] at h₂
  rw [h₁.mem.dma,h₁.dataS,h₁.chan]
  exact ⟨h₂.mem.ram,by rw [h₂.mem.dma,h₂.chan,h₂.dataS]⟩

end Platform

end SystemCDma.PlatformSimulation
