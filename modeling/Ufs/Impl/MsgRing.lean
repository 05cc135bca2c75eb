import Mathlib
import Ufs.Framework.Run

/-!
# The ring of messages of a worker (`FsProc_Messenger.h`, `shmipc.c`)

Two `shmipc_mgr` share an array of `capacity` slots, a power of two: the producers draw tickets with
an atomic fetch-and-add, the consumer counts, and a ticket's slot is `ticket & mask`. A step is a
load or a store of a status, the copy of a payload, one of the two reads of it, or the clearing of a
slot. A thread that spins changes nothing. `sent` and `received` record the messages. Tickets are
natural numbers: `next` wraps at a multiple of the capacity.
-/

namespace Ufs.Impl

/-- `shmipc_STATUS_*`, without those that only the protocol of the clients has. -/
inductive ShmipcStatus where
  | empty
  | reserved
  | readyForServer
deriving Repr, DecidableEq

/-- A message. -/
structure FsProcMsg where
  type : UInt8
  ctx : UInt64
deriving Repr, DecidableEq

/-- A slot; `ctx` is the pointer at the start of `inline_data`. -/
structure ShmipcMsg where
  status : ShmipcStatus
  type : UInt8
  ctx : UInt64
deriving Repr, DecidableEq

/-- An empty slot. -/
def ShmipcMsg.zero : ShmipcMsg := ⟨.empty, 0, 0⟩

/-- Where a thread is in `put_message`. -/
inductive PutLoc where
  /-- `shmipc_mgr_alloc_slot` has a ticket and waits for its slot to be empty. -/
  | spin
  | sawEmpty
  | reserved
  | copied
deriving Repr, DecidableEq

/-- A thread that puts a message, or not. -/
inductive PutState where
  | idle
  | putMessage (loc : PutLoc) (ticket : ℕ) (msg : FsProcMsg)
deriving Repr, DecidableEq

/-- Where the receiver is in `get_message`. -/
inductive GetState where
  | idle
  | gotMsg (idx : ℕ)
  | gotType (idx : ℕ) (type : UInt8)
  | gotCtx (idx : ℕ) (msg : FsProcMsg)
deriving Repr, DecidableEq

/-- The ring with its threads, the messages put and the messages returned. -/
structure FsProcMsgRing (ι : Type*) where
  mask : ℕ
  ring : ℕ → ShmipcMsg
  producerNext : ℕ
  consumerNext : ℕ
  producers : ι → PutState
  consumer : GetState
  sent : List FsProcMsg
  received : List FsProcMsg

namespace FsProcMsgRing

variable {ι : Type*}

/-- An empty ring. -/
def start (capacity : ℕ) : FsProcMsgRing ι :=
  ⟨capacity - 1, fun _ => .zero, 0, 0, fun _ => .idle, .idle, [], []⟩

def ringIdx (s : FsProcMsgRing ι) (next : ℕ) : ℕ := next &&& s.mask

def setSlot (s : FsProcMsgRing ι) (idx : ℕ) (x : ShmipcMsg) : FsProcMsgRing ι :=
  { s with ring := Function.update s.ring idx x }

/-- A thread begins to put a message or goes on, or the receiver goes on. -/
inductive Label (ι : Type*) where
  | putMessage (p : ι) (msg : FsProcMsg)
  | producer (p : ι)
  | consumer
deriving Repr, DecidableEq

variable [DecidableEq ι]

def setProducer (s : FsProcMsgRing ι) (p : ι) (x : PutState) : FsProcMsgRing ι :=
  { s with producers := Function.update s.producers p x }

def stepProducer (s : FsProcMsgRing ι) (p : ι) (loc : PutLoc) (ticket : ℕ) (msg : FsProcMsg) : FsProcMsgRing ι :=
  let idx := s.ringIdx ticket
  match loc with
  | .spin => if (s.ring idx).status = .empty then s.setProducer p (.putMessage .sawEmpty ticket msg) else s
  | .sawEmpty => (s.setSlot idx { s.ring idx with status := .reserved }).setProducer p
      (.putMessage .reserved ticket msg)
  | .reserved =>
    (s.setSlot idx ⟨(s.ring idx).status, msg.type, msg.ctx⟩).setProducer p (.putMessage .copied ticket msg)
  | .copied => (s.setSlot idx { s.ring idx with status := .readyForServer }).setProducer p .idle

def stepConsumer (s : FsProcMsgRing ι) : FsProcMsgRing ι :=
  match s.consumer with
  | .idle =>
    let idx := s.ringIdx s.consumerNext
    if (s.ring idx).status = .readyForServer then
      { s with consumerNext := s.consumerNext + 1, consumer := .gotMsg idx }
    else s
  | .gotMsg idx => { s with consumer := .gotType idx (s.ring idx).type }
  | .gotType idx type => { s with consumer := .gotCtx idx ⟨type, (s.ring idx).ctx⟩ }
  | .gotCtx idx msg => { s.setSlot idx .zero with consumer := .idle, received := s.received ++ [msg] }

/-- One access of the shared memory. -/
def step (l : Label ι) (s : FsProcMsgRing ι) : Option (FsProcMsgRing ι) :=
  match l with
  | .putMessage p msg =>
    match s.producers p with
    | .idle =>
      some ({ s with producerNext := s.producerNext + 1, sent := s.sent ++ [msg] }.setProducer p
        (.putMessage .spin s.producerNext msg))
    | .putMessage .. => none
  | .producer p =>
    match s.producers p with
    | .idle => none
    | .putMessage loc ticket msg => some (s.stepProducer p loc ticket msg)
  | .consumer => some s.stepConsumer

end FsProcMsgRing

end Ufs.Impl
