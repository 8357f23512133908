import SystemCDma.ByteMemory

/-!
# Transactions of a blocking bus

Both controllers talk to memory through a blocking transport call on a
four-byte payload. A bus is any target with a state of its own: nothing is
assumed about which accesses succeed or what they return. The targets do not
lead back to the slave port of the controller that issues the access; there
the code would wait inside its clocked thread, and no run of the model covers
that. A RAM window is a bus over a byte memory.
-/

namespace SystemCDma.TlmBus

open ByteMemory

/-- The transaction commands, in the order of their integer codes. -/
inductive Command where
  | read
  | write
  | ignore
  deriving DecidableEq,Repr

/-- The response statuses of a transaction. Only the first has a positive code. -/
inductive ResponseStatus where
  | okResponse
  | incompleteResponse
  | genericErrorResponse
  | addressErrorResponse
  | commandErrorResponse
  | burstErrorResponse
  | byteEnableErrorResponse
  deriving DecidableEq,Repr

/-- A response is an error unless its code is positive; an access left
incomplete is one too. -/
def ResponseStatus.isResponseError : ResponseStatus → Bool
  | .okResponse => false
  | _ => true

/-- The part of a generic payload that the two controllers fill in per access
and read from the accesses they receive. Every payload they issue has length
and streaming width four, no byte enables and no direct memory hint. -/
structure Payload where
  /-- Read or write. -/
  command : Command
  /-- The 64-bit bus address. -/
  address : BitVec 64
  /-- The four bytes behind the data pointer, as the word `memcpy` takes. -/
  data : BitVec 32
  deriving DecidableEq,Repr

/-- A generic payload as it travels on the buses. -/
structure GenericPayload where
  /-- Read or write. -/
  command : Command
  /-- The 64-bit bus address. -/
  address : BitVec 64
  /-- The memory behind the data pointer, also past the end of the data. -/
  buffer : Memory
  /-- Number of bytes to transfer. -/
  dataLength : BitVec 32
  /-- The byte enable array, if the pointer is not null. -/
  byteEnablePtr : Option (List (BitVec 8))
  /-- Bytes per beat; less than the length means streaming. -/
  streamingWidth : BitVec 32
  /-- The response status. -/
  responseStatus : ResponseStatus

/-- The payload after its target has set the status to success. -/
def GenericPayload.succeed (p : GenericPayload) : GenericPayload :=
  {p with responseStatus := .okResponse}

/-- The part of the payload that the controllers work with. -/
def GenericPayload.word (p : GenericPayload) : Payload := ⟨p.command,p.address,load p.buffer 0⟩

/-- What the target leaves in a payload when the call returns. -/
structure Answer where
  /-- The response status. -/
  status : ResponseStatus
  /-- The word a successful read puts behind the data pointer. -/
  data : BitVec 32
  deriving DecidableEq,Repr

/-- The initiator's data buffer after a read. A failed access leaves it as it
was, so an older word stays in it. -/
def Answer.fill (a : Answer) (buffer : BitVec 32) : BitVec 32 :=
  if a.status.isResponseError then buffer else a.data

/-- A target of the master port, with its state. -/
structure Bus (M : Type*) where
  /-- The blocking transport call. -/
  bTransport : M → Payload → M×Answer

/-- One issued transaction: the payload as it was put on the bus, and what
came back. -/
structure Txn where
  /-- The issued payload. For a write its data is the datum written. -/
  payload : Payload
  /-- The answer of the target. -/
  answer : Answer
  deriving DecidableEq,Repr

/-- What an observer of the address lines sees of a transaction. -/
def Txn.access (t : Txn) : Command×BitVec 64 := (t.payload.command,t.payload.address)

/-- A bus on which every access succeeds. -/
def Bus.AllOk {M : Type*} (bus : Bus M) : Prop :=
  ∀ m p,(bus.bTransport m p).2.status=.okResponse

/-- The target of a read puts a word behind the data pointer: whatever the
buffer held before, it holds the same word afterwards. A failed read does not,
and neither does one that is answered with success and moves nothing, as reads
of the controllers' own registers are. -/
def Bus.Fills {M : Type*} (bus : Bus M) (mem : M) (address : BitVec 64) : Prop :=
  ∀ buffer buffer',(bus.bTransport mem ⟨.read,address,buffer⟩).2.fill buffer=
    (bus.bTransport mem ⟨.read,address,buffer'⟩).2.fill buffer'

/-- Nothing about a read depends on what the buffer held before. -/
structure Bus.Returns {M : Type*} (bus : Bus M) (mem : M) (address : BitVec 64) : Prop where
  /-- The target goes to the same state. -/
  target : ∀ buffer buffer',(bus.bTransport mem ⟨.read,address,buffer⟩).1=
    (bus.bTransport mem ⟨.read,address,buffer'⟩).1
  /-- The status is the same. -/
  status : ∀ buffer buffer',(bus.bTransport mem ⟨.read,address,buffer⟩).2.status=
    (bus.bTransport mem ⟨.read,address,buffer'⟩).2.status
  /-- The buffer is filled. -/
  fills : bus.Fills mem address

/-- The read fails, whatever the buffer held before. -/
def Bus.Fails {M : Type*} (bus : Bus M) (mem : M) (address : BitVec 64) : Prop :=
  ∀ buffer,(bus.bTransport mem ⟨.read,address,buffer⟩).2.status.isResponseError=true

/-- No target looks at the buffer of a read: what becomes of it and how the
read is answered do not depend on it. -/
def Bus.Blind {M : Type*} (bus : Bus M) : Prop :=
  ∀ mem address buffer buffer',
    (bus.bTransport mem ⟨.read,address,buffer⟩).1=
      (bus.bTransport mem ⟨.read,address,buffer'⟩).1 ∧
    (bus.bTransport mem ⟨.read,address,buffer⟩).2.status=
      (bus.bTransport mem ⟨.read,address,buffer'⟩).2.status

/-- What a transaction shows on the bus when it is issued: the command, the
address, and the datum of a write. -/
def Txn.shown (t : Txn) : Command×BitVec 64×Option (BitVec 32) :=
  (t.payload.command,t.payload.address,
    if t.payload.command=.write then some t.payload.data else none)

/-- A bus that behaves as a byte memory on a window of addresses. Outside the
window it may do anything. -/
structure Bus.IsRam (bus : Bus Memory) (window : Set ℕ) : Prop where
  /-- Reads of words inside the window succeed and change nothing. -/
  read : ∀ m address buffer,bytes address.toNat 4⊆window →
    bus.bTransport m ⟨.read,address,buffer⟩=(m,⟨.okResponse,load m address.toNat⟩)
  /-- Writes of words inside the window succeed and store the datum. -/
  write : ∀ m address datum,bytes address.toNat 4⊆window →
    bus.bTransport m ⟨.write,address,datum⟩=
      (store m address.toNat datum,⟨.okResponse,datum⟩)

/-- A RAM that decodes the window from `lo` up to but not including `hi`. An
access with a byte outside is answered with an address error. -/
def ramBus (lo hi : ℕ) : Bus Memory where
  bTransport m p :=
    if lo≤p.address.toNat ∧ p.address.toNat+4≤hi then
      match p.command with
      | .read => (m,⟨.okResponse,load m p.address.toNat⟩)
      | .write => (store m p.address.toNat p.data,⟨.okResponse,p.data⟩)
      | .ignore => (m,⟨.commandErrorResponse,p.data⟩)
    else (m,⟨.addressErrorResponse,p.data⟩)

/-- The decoded RAM is a byte memory on its window. -/
theorem ramBus_isRam (lo hi : ℕ) : (ramBus lo hi).IsRam (Set.Ico lo hi) := by
  have hwin : ∀ a,bytes a 4⊆Set.Ico lo hi → lo≤a ∧ a+4≤hi := by
    intro a ha
    have h₀ := ha (show a∈bytes a 4 from ⟨by omega,by omega⟩)
    have h₃ := ha (show a+3∈bytes a 4 from ⟨by omega,by omega⟩)
    have := h₀.1
    have := h₃.2
    omega
  constructor
  · intro m address buffer h
    dsimp only [ramBus]
    rw [if_pos (hwin _ h)]
  · intro m address datum h
    dsimp only [ramBus]
    rw [if_pos (hwin _ h)]

/-- A RAM that decodes every 64-bit address is a byte memory everywhere. -/
theorem ramBus_isRam_univ {hi : ℕ} (h : 2^64+4≤hi) : (ramBus 0 hi).IsRam Set.univ := by
  have hwin : ∀ a : BitVec 64,0≤a.toNat ∧ a.toNat+4≤hi := by
    intro a
    have ha := a.isLt
    omega
  constructor
  · intro m address buffer _
    dsimp only [ramBus]
    rw [if_pos (hwin _)]
  · intro m address datum _
    dsimp only [ramBus]
    rw [if_pos (hwin _)]

/-- A bus that answers every access with success and one fixed word. -/
def constBus (w : BitVec 32) : Bus Unit where
  bTransport m _ := (m,⟨.okResponse,w⟩)

/-- Every access to the fixed-word bus succeeds. -/
theorem constBus_allOk (w : BitVec 32) : (constBus w).AllOk := fun _ _ => rfl

/-- A RAM next to the slave port of a controller, which answers reads with
success and moves nothing. -/
def portBus (base lo hi : ℕ) : Bus Memory where
  bTransport m p :=
    if p.command=.read ∧ base≤p.address.toNat ∧ p.address.toNat < base+0x20 then
      (m,⟨.okResponse,p.data⟩)
    else (ramBus lo hi).bTransport m p

/-- A successful read fills the buffer with the word of the target. -/
theorem Answer.fill_ok {a : Answer} (h : a.status.isResponseError=false) (buffer : BitVec 32) :
    a.fill buffer=a.data := by
  rw [Answer.fill,h]
  rfl

/-- On a bus that does not look at the buffer a read that fills it depends on
nothing in it. -/
theorem Bus.Blind.returns {M : Type*} {bus : Bus M} (h : bus.Blind) {mem : M}
    {address : BitVec 64} (hfills : bus.Fills mem address) : bus.Returns mem address :=
  ⟨fun b b' => (h mem address b b').1,fun b b' => (h mem address b b').2,hfills⟩

/-- A RAM and a slave port do not look at the buffer of a read. -/
theorem portBus_blind (base lo hi : ℕ) : (portBus base lo hi).Blind := by
  intro mem address buffer buffer'
  dsimp only [portBus,ramBus]
  split_ifs <;> exact ⟨rfl,rfl⟩

/-- The pair of transactions that moves word `n` of a request: read the
source, then write to the target what that read returned, if it succeeded. -/
structure WordMove (source target : BitVec 32) (n : ℕ) (r w : Txn) : Prop where
  /-- The first transaction is a read. -/
  readCommand : r.payload.command=.read
  /-- It reads word `n` of the source. -/
  readAddress : r.payload.address.toNat=source.toNat+4*n
  /-- The second transaction is a write. -/
  writeCommand : w.payload.command=.write
  /-- It writes word `n` of the target. -/
  writeAddress : w.payload.address.toNat=target.toNat+4*n
  /-- The datum is the word of the successful read. -/
  datum : r.answer.status.isResponseError=false → w.payload.data=r.answer.data

/-- The transactions of the first `n` words of a request, in order, each once. -/
inductive Moves (source target : BitVec 32) : ℕ → List Txn → Prop where
  | nil : Moves source target 0 []
  | snoc {n : ℕ} {txns : List Txn} {r w : Txn} (before : Moves source target n txns)
      (word : WordMove source target n r w) : Moves source target (n+1) (txns++[r,w])

end SystemCDma.TlmBus
