import SystemCDma.TlmBus

/-!
# The control of one transfer channel

Both controllers run the same small machine on every rising clock edge. While
idle it copies the three request registers and the START/CLEAR bit into its
signals. While started it moves one word per edge until the offset equals the
size, then raises the interrupt and samples START/CLEAR again. Memory and data
never influence the control; the registers are read only at an edge.
-/

namespace SystemCDma.TransferEngine

open TlmBus

/-- The four memory-mapped control registers, in address order. -/
abbrev Registers := Fin 4 → BitVec 32

/-- Registers are numbered by literals below four. -/
instance instNeZeroFour : NeZero 4 := ⟨Nat.succ_ne_zero 3⟩

/-- The values of SOURCE, TARGET and SIZE that one transfer works with. -/
structure Request where
  /-- First source address. -/
  source : BitVec 32
  /-- First target address. -/
  target : BitVec 32
  /-- Number of bytes. -/
  size : BitVec 32
  deriving DecidableEq,Repr

/-- The request that the register file holds. -/
def request (r : Registers) : Request := ⟨r 0,r 1,r 2⟩

/-- The signals of a channel and the level of its interrupt output. -/
structure Engine where
  /-- Latched source address. -/
  source : BitVec 32
  /-- Latched target address. -/
  target : BitVec 32
  /-- Latched size in bytes. -/
  size : BitVec 32
  /-- Latched START/CLEAR bit; true while a transfer is in progress. -/
  startClear : Bool
  /-- Bytes moved so far. -/
  offset : BitVec 32
  /-- The level last written to the interrupt port. -/
  interrupt : Bool
  deriving DecidableEq,Repr

/-- The channel right after the reset section has run. -/
def Engine.reset : Engine := ⟨0,0,0,false,0,false⟩

/-- One rising edge. All reads see the values before the edge. -/
def Engine.tick (r : Registers) (e : Engine) : Engine :=
  if e.startClear=false then
    {e with source := r 0, target := r 1, size := r 2, startClear := r 3!=0,
            offset := 0, interrupt := false}
  else if e.offset≠e.size then {e with offset := e.offset+4}
  else {e with startClear := r 3!=0, interrupt := true}

/-- Data is being moved on the next edge. -/
def Engine.Moving (e : Engine) : Prop := e.startClear=true ∧ e.offset≠e.size

instance (e : Engine) : Decidable e.Moving := inferInstanceAs (Decidable (_∧_))

/-- An idle channel does not move data. -/
theorem still_idle {e : Engine} (h : e.startClear=false) : ¬e.Moving :=
  fun hm => Bool.noConfusion (h.symm.trans hm.1)

/-- A channel that has reached its size does not move data. -/
theorem still_finished {e : Engine} (h : e.offset=e.size) : ¬e.Moving := fun hm => hm.2 h

/-- The request that this edge latches, if START/CLEAR goes from false to true. -/
def Engine.latched (r : Registers) (e : Engine) : Option Request :=
  if e.startClear=false ∧ r 3≠0 then some (request r) else none

/-- The stop test subtracts in 64 bits and compares with zero, so it tells
different values apart and not smaller ones. -/
theorem stop_test (a b : BitVec 32) : 0<a.setWidth 64-b.setWidth 64 ↔ b≠a := by
  have ha := a.isLt
  have hb := b.isLt
  rw [BitVec.lt_def,BitVec.toNat_sub,BitVec.toNat_setWidth,BitVec.toNat_setWidth,ne_eq,
    ←BitVec.toNat_inj]
  simp only [BitVec.reduceToNat]
  omega

/-- Storing the advanced offset back into 32 bits is 32-bit addition. -/
theorem offset_step (x : BitVec 32) : (x.setWidth 64+4).setWidth 32=x+4 := by
  apply BitVec.eq_of_toNat_eq
  have hx := x.isLt
  simp only [BitVec.toNat_setWidth,BitVec.toNat_add,BitVec.reduceToNat]
  omega

/-- An address on the bus is the sum of base and offset, without wrap. -/
theorem address_toNat (a b : BitVec 32) :
    (a.setWidth 64+b.setWidth 64).toNat=a.toNat+b.toNat := by
  have ha := a.isLt
  have hb := b.isLt
  simp only [BitVec.toNat_add,BitVec.toNat_setWidth]
  omega

/-- The idle edge copies the registers and pulls the interrupt low. -/
theorem tick_idle (r : Registers) {e : Engine} (h : e.startClear=false) :
    e.tick r=⟨r 0,r 1,r 2,r 3!=0,0,false⟩ := if_pos h

/-- The moving edge advances the offset and changes nothing else. -/
theorem tick_moving (r : Registers) {e : Engine} (h : e.Moving) :
    e.tick r={e with offset := e.offset+4} := by
  rw [Engine.tick,if_neg (by rw [h.1]; decide),if_pos h.2]

/-- The finishing edge raises the interrupt and samples START/CLEAR. -/
theorem tick_finish (r : Registers) {e : Engine} (hs : e.startClear=true)
    (ho : e.offset=e.size) : e.tick r={e with startClear := r 3!=0, interrupt := true} := by
  rw [Engine.tick,if_neg (by rw [hs]; decide),if_neg (not_not_intro ho)]

/-- Everything an edge can do, with the guard of each branch. -/
theorem tick_cases (r : Registers) (e : Engine) :
    (e.startClear=false ∧ e.tick r=⟨r 0,r 1,r 2,r 3!=0,0,false⟩) ∨
    (e.Moving ∧ e.tick r={e with offset := e.offset+4}) ∨
    (e.startClear=true ∧ e.offset=e.size ∧
      e.tick r={e with startClear := r 3!=0, interrupt := true}) := by
  by_cases hs : e.startClear=true
  · by_cases ho : e.offset=e.size
    · exact Or.inr (Or.inr ⟨hs,ho,tick_finish r hs ho⟩)
    · exact Or.inr (Or.inl ⟨⟨hs,ho⟩,tick_moving r ⟨hs,ho⟩⟩)
  · have hf := Bool.eq_false_of_not_eq_true hs
    exact Or.inl ⟨hf,tick_idle r hf⟩

/-- An edge that latches a request starts it at offset zero. -/
theorem tick_latched {r : Registers} {e : Engine} {q : Request} (h : e.latched r=some q) :
    e.startClear=false ∧ q=request r ∧ e.tick r=⟨q.source,q.target,q.size,true,0,false⟩ := by
  unfold Engine.latched at h
  split at h
  · rename_i hc
    cases h
    refine ⟨hc.1,rfl,?_⟩
    rw [tick_idle r hc.1,bne_iff_ne.mpr hc.2]
    rfl
  · cases h

/-- An edge of a started channel latches nothing. -/
theorem latched_started (r : Registers) {e : Engine} (h : e.startClear=true) :
    e.latched r=none := by
  rw [Engine.latched,if_neg (by rw [h]; rintro ⟨hf,_⟩; cases hf)]

/-- A channel that does not move starts moving only by latching a request. -/
theorem still_edge {r : Registers} {e : Engine} (hm : ¬e.Moving) (hl : e.latched r=none) :
    ¬(e.tick r).Moving := by
  intro hnext
  rcases tick_cases r e with ⟨hs,ht⟩|⟨hmove,_⟩|⟨_,ho,ht⟩
  · rw [ht] at hnext
    rw [Engine.latched,if_pos ⟨hs,bne_iff_ne.mp hnext.1⟩] at hl
    cases hl
  · exact hm hmove
  · rw [ht] at hnext
    exact hnext.2 ho

/-- Request `q` is in progress and `n` of its words have been moved; the
interrupt is still low. -/
structure Engine.Progress (q : Request) (n : ℕ) (e : Engine) : Prop where
  /-- The source is the requested one. -/
  source : e.source=q.source
  /-- The target is the requested one. -/
  target : e.target=q.target
  /-- The size is the requested one. -/
  size : e.size=q.size
  /-- The channel is started. -/
  started : e.startClear=true
  /-- The offset counts the moved bytes, without wrap. -/
  offset : e.offset.toNat=4*n
  /-- The interrupt is low. -/
  quiet : e.interrupt=false

/-- Request `q` has been moved completely and the interrupt is high. -/
structure Engine.Raised (q : Request) (e : Engine) : Prop where
  /-- The source is the requested one. -/
  source : e.source=q.source
  /-- The target is the requested one. -/
  target : e.target=q.target
  /-- The size is the requested one. -/
  size : e.size=q.size
  /-- The offset has reached the size. -/
  offset : e.offset=q.size
  /-- The interrupt is high. -/
  high : e.interrupt=true

/-- The latching edge starts a request with no word moved. -/
theorem progress_latched {r : Registers} {e : Engine} {q : Request}
    (h : e.latched r=some q) : (e.tick r).Progress q 0 := by
  rw [(tick_latched h).2.2]
  exact ⟨rfl,rfl,rfl,rfl,rfl,rfl⟩

/-- A channel in progress moves data exactly while the size is not reached. -/
theorem Engine.Progress.moving_iff {q : Request} {n : ℕ} {e : Engine} (h : e.Progress q n) :
    e.Moving ↔ 4*n≠q.size.toNat := by
  rw [Engine.Moving,h.started,h.size,ne_eq,←BitVec.toNat_inj,h.offset]
  exact ⟨fun hm => hm.2,fun hm => ⟨rfl,hm⟩⟩

/-- A moving edge below the size moves one more word. -/
theorem Engine.Progress.tick_move {q : Request} {n : ℕ} {e : Engine} (h : e.Progress q n)
    (r : Registers) (hn : 4*(n+1)≤q.size.toNat) : (e.tick r).Progress q (n+1) := by
  have hm : e.Moving := h.moving_iff.mpr (by omega)
  have hz := q.size.isLt
  rw [tick_moving r hm]
  refine ⟨h.source,h.target,h.size,h.started,?_,h.quiet⟩
  simp only [BitVec.toNat_add,h.offset,BitVec.reduceToNat]
  omega

/-- When the size is reached the next edge raises the interrupt, samples
START/CLEAR and leaves the request in place. -/
theorem Engine.Progress.tick_raise {q : Request} {n : ℕ} {e : Engine} (h : e.Progress q n)
    (r : Registers) (hn : 4*n=q.size.toNat) :
    (e.tick r).Raised q ∧ (e.tick r).startClear=(r 3!=0) := by
  have ho : e.offset=e.size := by
    rw [h.size,←BitVec.toNat_inj,h.offset,hn]
  rw [tick_finish r h.started ho]
  exact ⟨⟨h.source,h.target,h.size,ho.trans h.size,rfl⟩,rfl⟩

/-- While START/CLEAR has not been sampled as zero a raised channel stays
raised, and the edge samples it again. -/
theorem Engine.Raised.tick_hold {q : Request} {e : Engine} (h : e.Raised q) (r : Registers)
    (hs : e.startClear=true) : (e.tick r).Raised q ∧ (e.tick r).startClear=(r 3!=0) := by
  have ho : e.offset=e.size := h.offset.trans h.size.symm
  rw [tick_finish r hs ho]
  exact ⟨⟨h.source,h.target,h.size,h.offset,rfl⟩,rfl⟩

/-- The bus address that a moving edge reads. -/
def Engine.readAddress (e : Engine) : BitVec 64 := e.source.setWidth 64+e.offset.setWidth 64

/-- The payload of the read of a moving edge; its buffer still holds an
older word. -/
def Engine.readPayload (e : Engine) (dataS : BitVec 32) : Payload :=
  ⟨.read,e.source.setWidth 64+e.offset.setWidth 64,dataS⟩

/-- The payload of the write of a moving edge. -/
def Engine.writePayload (e : Engine) (dataT : BitVec 32) : Payload :=
  ⟨.write,e.target.setWidth 64+e.offset.setWidth 64,dataT⟩

/-- The two accesses of a moving edge move the next word of the request. -/
theorem Engine.Progress.wordMove {q : Request} {n : ℕ} {e : Engine} (h : e.Progress q n)
    (dataS : BitVec 32) (ra wa : Answer) :
    WordMove q.source q.target n ⟨e.readPayload dataS,ra⟩ ⟨e.writePayload (ra.fill dataS),wa⟩ := by
  refine ⟨rfl,?_,rfl,?_,fun hr => Answer.fill_ok hr dataS⟩
  · dsimp only [Engine.readPayload]
    rw [address_toNat,h.source,h.offset]
  · dsimp only [Engine.writePayload]
    rw [address_toNat,h.target,h.offset]

/-- The transactions of one edge: the two accesses of a word when data moves,
none otherwise. The buffer may hold an older word, and nothing is said about
the answers. -/
def Engine.Issues (e : Engine) (txns : List Txn) : Prop :=
  (¬e.Moving ∧ txns=[]) ∨
    (e.Moving ∧ ∃ dataS ra wa,txns=
      [⟨e.readPayload dataS,ra⟩,⟨e.writePayload (ra.fill dataS),wa⟩])

/-- An idle or finished channel issues nothing. -/
theorem Engine.Issues.still {e : Engine} {txns : List Txn} (h : e.Issues txns)
    (hm : ¬e.Moving) : txns=[] := by
  rcases h with ⟨_,ht⟩|⟨hm',_⟩
  · exact ht
  · exact absurd hm' hm

/-- The effect of one edge on a byte memory: a moving channel copies its
current word. -/
def Engine.copyWord (e : Engine) (m : ByteMemory.Memory) : ByteMemory.Memory :=
  if e.Moving then
    ByteMemory.store m (e.target.toNat+e.offset.toNat)
      (ByteMemory.load m (e.source.toNat+e.offset.toNat))
  else m

/-- A channel that does not move leaves the memory alone. -/
theorem Engine.copyWord_still {e : Engine} (h : ¬e.Moving) (m : ByteMemory.Memory) :
    e.copyWord m=m := if_neg h

/-- A moving channel copies word `n` of its request. -/
theorem Engine.Progress.copyWord {q : Request} {n : ℕ} {e : Engine} (h : e.Progress q n)
    (hm : e.Moving) (m : ByteMemory.Memory) :
    e.copyWord m=ByteMemory.store m (q.target.toNat+4*n)
      (ByteMemory.load m (q.source.toNat+4*n)) := by
  rw [Engine.copyWord,if_pos hm,h.source,h.target,h.offset]

/-- A channel that moves word `n` of a request issues exactly its accesses. -/
theorem Engine.Issues.wordMove {e : Engine} {txns : List Txn} (h : e.Issues txns)
    {q : Request} {n : ℕ} (hp : e.Progress q n) (hm : e.Moving) :
    ∃ r w,txns=[r,w] ∧ WordMove q.source q.target n r w := by
  rcases h with ⟨hs,_⟩|⟨_,dataS,ra,wa,ht⟩
  · exact absurd hm hs
  · exact ⟨_,_,ht,hp.wordMove dataS ra wa⟩

/-- What happens to a controller and its surroundings. An edge is a whole
evaluation of the clocked process with the update of its signals after it;
accesses to the slave port and the activity of other masters fall between
edges, in any order. -/
inductive Event (M : Type*) where
  | edge
  | access (p : Payload)
  | other (f : M → M)

/-- An access is no edge. -/
theorem Event.access_ne_edge {M : Type*} (p : Payload) : (Event.access p : Event M)≠.edge := by
  intro h
  cases h

/-- The activity of another master is no edge. -/
theorem Event.other_ne_edge {M : Type*} (f : M → M) : Event.other f≠.edge := by
  intro h
  cases h

/-- Number of clock edges among some events. -/
def edgeCount {M : Type*} : List (Event M) → ℕ
  | [] => 0
  | .edge::es => edgeCount es+1
  | .access _::es => edgeCount es
  | .other _::es => edgeCount es

/-- The other masters leave a region of the memory as it is. -/
def Untouched (R : Set ℕ) (es : List (Event ByteMemory.Memory)) : Prop :=
  ∀ f,Event.other f∈es → ∀ m,Set.EqOn (f m) m R

/-- A tail of undisturbing events is undisturbing. -/
theorem Untouched.tail {R : Set ℕ} {e : Event ByteMemory.Memory}
    {es : List (Event ByteMemory.Memory)} (h : Untouched R (e::es)) : Untouched R es :=
  fun f hf => h f (List.mem_cons_of_mem _ hf)

/-- Copy a word into the register array. An index past the array would write
behind it; the four registers keep their values then. -/
def memcpy (r : Registers) (i : ℕ) (v : BitVec 32) : Registers :=
  fun j => if j.val=i then v else r j

/-- What one channel did on one edge. -/
structure Turn where
  /-- The request latched on this edge, if any. -/
  latched : Option Request
  /-- The transactions issued on this edge, in order. -/
  txns : List Txn
  deriving DecidableEq,Repr

/-- The last latched request of a history of edges and the transactions
issued since the edge that latched it. -/
def sinceLatch (history : List Turn) : Option (Request×List Txn) :=
  history.foldl (fun acc t =>
    match t.latched with
    | some q => some (q,t.txns)
    | none => acc.map fun p => (p.1,p.2++t.txns)) none

/-- One more edge either starts a new request or adds its transactions. -/
theorem sinceLatch_snoc (history : List Turn) (t : Turn) :
    sinceLatch (history++[t])=match t.latched with
      | some q => some (q,t.txns)
      | none => (sinceLatch history).map fun p => (p.1,p.2++t.txns) := by
  rw [sinceLatch,List.foldl_append]
  rfl

/-- A step function whose states contain a channel clocked by the engine: an
edge ticks it with the registers it finds and adds a turn to its history, and
no other event reaches its signals. Both controllers are such, the second one
once for each channel. -/
structure Clocked {S M : Type*} (step : S → Event M → Option S) (engine : S → Engine)
    (registers : S → Registers) (turns : S → List Turn) : Prop where
  /-- An edge is a tick with the accesses that belong to it. -/
  edge : ∀ {s t},step s .edge=some t → engine t=(engine s).tick (registers s) ∧
    ∃ txns,turns t=turns s++[⟨(engine s).latched (registers s),txns⟩] ∧ (engine s).Issues txns
  /-- Between edges the signals and the history stay as they are. -/
  between : ∀ {s t e},step s e=some t → e≠.edge → engine t=engine s ∧ turns t=turns s

end SystemCDma.TransferEngine
