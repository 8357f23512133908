import SystemCDma.TlmBus

/-!
# The routing of a decoder

A decoder has ports in the order of their connection, each with the windows set
for it. A payload goes to the first port with a window around its address, at
the address relative to that window. If there is none it goes, as it is, to
the ports without a window, one after the other, until one answers with
success; what one port leaves in the payload reaches the next one. With static
ports only, or with one port without a window, this is a look-up in an address
map.
-/

namespace SystemCDma.TlmDecoder

open TlmBus

variable {S L : Type*}

/-- A window of addresses, both ends included. -/
structure PortMapping where
  /-- First address. -/
  lo : BitVec 64
  /-- Last address. -/
  hi : BitVec 64
  deriving DecidableEq,Repr

/-- The window contains an address. -/
def PortMapping.inRegion (m : PortMapping) (a : BitVec 64) : Bool := m.lo≤a && a≤ m.hi

/-- The address relative to the window. -/
def PortMapping.offsetInto (m : PortMapping) (a : BitVec 64) : BitVec 64 := a-m.lo

/-- The distance to the start of the window is at most its length. -/
theorem PortMapping.offsetInto_le {m : PortMapping} {a : BitVec 64} (h : m.inRegion a=true) :
    (m.offsetInto a).toNat≤ m.hi.toNat-m.lo.toNat := by
  unfold PortMapping.inRegion at h
  rw [Bool.and_eq_true,decide_eq_true_eq,decide_eq_true_eq] at h
  obtain ⟨hlo,hhi⟩ := h
  rw [BitVec.le_def] at hlo hhi
  rw [PortMapping.offsetInto,BitVec.toNat_sub_of_le (BitVec.le_def.mpr hlo)]
  omega

/-- A port of a decoder: its windows and what it is connected to. -/
structure Port (S : Type*) where
  /-- The windows set for this port; none makes it a dynamic port. -/
  decodes : List PortMapping
  /-- The blocking transport call of the target, which may have a state. -/
  bTransport : S → GenericPayload → S×GenericPayload

/-- The first window of a port that contains the address. -/
def getMapping (decodes : List PortMapping) (a : BitVec 64) : Option PortMapping :=
  decodes.find? fun m => m.inRegion a

/-- The first port with a window around the address, and the address relative
to that window. -/
def getPortId : List (Port S) → BitVec 64 → Option (Port S×BitVec 64)
  | [],_ => none
  | port::ports,a =>
    match getMapping port.decodes a with
    | some m => some (port,m.offsetInto a)
    | none => getPortId ports a

/-- Try the ports without a window in turn until one answers with success. The
payload goes on as the port before has left it. -/
def tryDynamic : List (Port S) → S → GenericPayload → S×GenericPayload
  | [],s,p => (s,p)
  | port::ports,s,p =>
    if port.decodes=[] then
      let (s',p') := port.bTransport s p
      if p'.responseStatus=.okResponse then (s',p') else tryDynamic ports s' p'
    else tryDynamic ports s p

/-- The transport call of a decoder. -/
def initiatorBTransport (ports : List (Port S)) (s : S) (p : GenericPayload) : S×GenericPayload :=
  match getPortId ports p.address with
  | some (port,offset) => port.bTransport s {p with address := offset}
  | none => tryDynamic ports s p

/-- An address map: windows with what lies behind them, in the order in which
they are looked up. -/
abbrev AddressMap (L : Type*) := List (PortMapping×L)

/-- The leaf that an address maps to, and the address there. -/
def lookup : AddressMap L → BitVec 64 → Option (L×BitVec 64)
  | [],_ => none
  | (m,l)::windows,a => if m.inRegion a then some (l,m.offsetInto a) else lookup windows a

/-- What an access does that maps to a leaf, or to nothing. -/
def reach (call : L → S → GenericPayload → S×GenericPayload) (s : S) (p : GenericPayload) :
    Option (L×BitVec 64) → S×GenericPayload
  | some (l,offset) => call l s {p with address := offset}
  | none => (s,p)

/-- A port with one window in front of a leaf. -/
def staticPort (call : L → S → GenericPayload → S×GenericPayload) (w : PortMapping×L) : Port S :=
  ⟨[w.1],call w.2⟩

section Lookup

variable {windows windows' : AddressMap L} {a : BitVec 64} {l : L} {offset : BitVec 64}

/-- A successful look-up names a window of the map around the address. -/
theorem lookup_some (h : lookup windows a=some (l,offset)) :
    ∃ m,(m,l)∈windows ∧ m.inRegion a=true ∧ offset=m.offsetInto a := by
  induction windows with
  | nil => cases h
  | cons w windows ih =>
    obtain ⟨m,k⟩ := w
    rw [lookup] at h
    by_cases hm : m.inRegion a=true
    · rw [if_pos hm] at h
      cases h
      exact ⟨m,List.mem_cons_self,hm,rfl⟩
    · rw [if_neg hm] at h
      obtain ⟨m',hmem,hin,hoff⟩ := ih h
      exact ⟨m',List.mem_cons_of_mem _ hmem,hin,hoff⟩

/-- A second map is looked up where the first one has no window. -/
theorem lookup_append (windows windows' : AddressMap L) (a : BitVec 64) :
    lookup (windows++windows') a=(lookup windows a).orElse fun _ => lookup windows' a := by
  induction windows with
  | nil => rfl
  | cons w windows ih =>
    obtain ⟨m,k⟩ := w
    rw [List.cons_append,lookup,lookup]
    by_cases hm : m.inRegion a=true
    · rw [if_pos hm,if_pos hm]
      rfl
    · rw [if_neg hm,if_neg hm]
      exact ih

/-- What a second map alone can name is found by it. -/
theorem lookup_second (hl : ∀ w∈windows,w.2≠l)
    (h : lookup (windows++windows') a=some (l,offset)) : lookup windows' a=some (l,offset) := by
  rw [lookup_append] at h
  cases hfirst : lookup windows a with
  | none =>
    rw [hfirst] at h
    exact h
  | some v =>
    rw [hfirst] at h
    cases h
    obtain ⟨m,hmem,_,_⟩ := lookup_some hfirst
    exact absurd rfl (hl _ hmem)

end Lookup

section Decode

variable (call : L → S → GenericPayload → S×GenericPayload) {windows : AddressMap L}
  {a : BitVec 64} {l : L} {offset : BitVec 64}

/-- The window of a static port is tried before those of the ports after it. -/
theorem getPortId_cons (m : PortMapping) (k : L) (ports : List (Port S)) (a : BitVec 64) :
    getPortId (staticPort call (m,k)::ports) a=
      if m.inRegion a then some (staticPort call (m,k),m.offsetInto a) else getPortId ports a := by
  rw [getPortId,staticPort,getMapping,List.find?_cons]
  cases m.inRegion a <;> rfl

/-- Static ports find no port for an address that their map does not name. -/
theorem getPortId_none (h : lookup windows a=none) :
    getPortId (windows.map (staticPort call)) a=none := by
  induction windows with
  | nil => rfl
  | cons w windows ih =>
    obtain ⟨m,k⟩ := w
    rw [lookup] at h
    by_cases hm : m.inRegion a=true
    · rw [if_pos hm] at h
      cases h
    · rw [if_neg hm] at h
      rw [List.map_cons,getPortId_cons,if_neg hm]
      exact ih h

/-- They find the port of the leaf that their map names. -/
theorem getPortId_some (h : lookup windows a=some (l,offset)) :
    ∃ port,getPortId (windows.map (staticPort call)) a=some (port,offset) ∧
      port.bTransport=call l := by
  induction windows with
  | nil => cases h
  | cons w windows ih =>
    obtain ⟨m,k⟩ := w
    rw [lookup] at h
    rw [List.map_cons,getPortId_cons]
    by_cases hm : m.inRegion a=true
    · rw [if_pos hm] at h ⊢
      cases h
      exact ⟨_,rfl,rfl⟩
    · rw [if_neg hm] at h ⊢
      exact ih h

/-- Static ports are never tried as dynamic ones. -/
theorem tryDynamic_static (windows : AddressMap L) (s : S) (p : GenericPayload) :
    tryDynamic (windows.map (staticPort call)) s p=(s,p) := by
  induction windows with
  | nil => rfl
  | cons w windows ih =>
    rw [List.map_cons,tryDynamic,if_neg (show ¬(staticPort call w).decodes=[] from
      List.cons_ne_nil _ _)]
    exact ih

/-- A decoder with static ports only looks its address map up. -/
theorem static_decode (windows : AddressMap L) (s : S) (p : GenericPayload) :
    initiatorBTransport (windows.map (staticPort call)) s p=
      reach call s p (lookup windows p.address) := by
  unfold initiatorBTransport
  cases hl : lookup windows p.address with
  | none =>
    rw [getPortId_none call hl]
    exact tryDynamic_static call windows s p
  | some v =>
    obtain ⟨port,hport,hcall⟩ := getPortId_some call hl
    rw [hport]
    exact congrFun (congrFun hcall s) _

/-- A decoder whose first port has no window and leads to another address map,
and whose other ports are static, looks up its own windows and then that map.
Whatever the fallback answers, no port is left to try after it. -/
theorem fallback_decode {t : S → GenericPayload → S×GenericPayload} {shared : AddressMap L}
    (ht : ∀ s p,t s p=reach call s p (lookup shared p.address)) (windows : AddressMap L)
    (s : S) (p : GenericPayload) :
    initiatorBTransport (⟨[],t⟩::windows.map (staticPort call)) s p=
      reach call s p (lookup (windows++shared) p.address) := by
  unfold initiatorBTransport
  rw [lookup_append,getPortId,show getMapping [] p.address=none from rfl]
  cases hl : lookup windows p.address with
  | none =>
    dsimp only
    rw [getPortId_none call hl,tryDynamic,if_pos rfl]
    dsimp only
    rw [tryDynamic_static,ite_id]
    exact ht s p
  | some v =>
    obtain ⟨port,hport,hcall⟩ := getPortId_some call hl
    dsimp only
    rw [hport]
    exact congrFun (congrFun hcall s) _

end Decode

section Debug

/-- A port for debug transport: its call leaves the number that it returns
beside the state of the target. -/
abbrev DebugPort (S : Type*) := Port (S×BitVec 32)

/-- Try the ports without a window in turn until one returns a number. -/
def tryDebug : List (DebugPort S) → S → GenericPayload → (S×BitVec 32)×GenericPayload
  | [],s,p => ((s,0),p)
  | port::ports,s,p =>
    if port.decodes=[] then
      let (x,p') := port.bTransport (s,0) p
      if x.2≠0 then (x,p') else tryDebug ports x.1 p'
    else tryDebug ports s p

/-- The debug transport call of a decoder. The ports without a window are
counted by the number of initiators that the decoder serves. -/
def transportDebug (nrOfTargets : ℕ) (ports : List (DebugPort S)) (s : S) (p : GenericPayload) :
    (S×BitVec 32)×GenericPayload :=
  match getPortId ports p.address with
  | some (port,offset) => port.bTransport (s,0) {p with address := offset}
  | none => tryDebug (ports.take nrOfTargets) s p

variable (call : L → S×BitVec 32 → GenericPayload → (S×BitVec 32)×GenericPayload)

/-- Static ports are never tried as dynamic ones. -/
theorem tryDebug_static (windows : AddressMap L) (s : S) (p : GenericPayload) :
    tryDebug (windows.map (staticPort call)) s p=((s,0),p) := by
  induction windows with
  | nil => rfl
  | cons w windows ih =>
    rw [List.map_cons,tryDebug,if_neg (show ¬(staticPort call w).decodes=[] from
      List.cons_ne_nil _ _)]
    exact ih

/-- Debug transport through static ports only looks the address map up. -/
theorem static_debug (n : ℕ) (windows : AddressMap L) (s : S) (p : GenericPayload) :
    transportDebug n (windows.map (staticPort call)) s p=
      reach call (s,0) p (lookup windows p.address) := by
  unfold transportDebug
  cases hl : lookup windows p.address with
  | none =>
    rw [getPortId_none call hl]
    dsimp only
    rw [←List.map_take]
    exact tryDebug_static call _ s p
  | some v =>
    obtain ⟨port,hport,hcall⟩ := getPortId_some call hl
    rw [hport]
    exact congrFun (congrFun hcall _) _

/-- With a port to another address map in front, debug transport looks that map
up too, if the decoder serves any initiator. -/
theorem fallback_debug {t : S×BitVec 32 → GenericPayload → (S×BitVec 32)×GenericPayload}
    {shared : AddressMap L}
    (ht : ∀ x p,t x p=reach call (x.1,0) p (lookup shared p.address)) {n : ℕ} (hn : 0<n)
    (windows : AddressMap L) (s : S) (p : GenericPayload) :
    transportDebug n (⟨[],t⟩::windows.map (staticPort call)) s p=
      reach call (s,0) p (lookup (windows++shared) p.address) := by
  unfold transportDebug
  rw [lookup_append,getPortId,show getMapping [] p.address=none from rfl]
  cases hl : lookup windows p.address with
  | none =>
    obtain ⟨n,rfl⟩ := Nat.exists_eq_succ_of_ne_zero hn.ne'
    dsimp only
    rw [getPortId_none call hl]
    dsimp only
    rw [List.take_succ_cons,←List.map_take,tryDebug,if_pos rfl]
    dsimp only
    rw [tryDebug_static,ht]
    dsimp only [Option.orElse]
    split_ifs with hmoved
    · rfl
    · rw [not_not] at hmoved
      exact Prod.ext (Prod.ext rfl hmoved.symm) rfl
  | some v =>
    obtain ⟨port,hport,hcall⟩ := getPortId_some call hl
    dsimp only
    rw [hport]
    exact congrFun (congrFun hcall _) _

end Debug

end SystemCDma.TlmDecoder
