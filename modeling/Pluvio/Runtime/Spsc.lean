import Mathlib.Algebra.Group.Nat.Defs
import Mathlib.Data.List.Basic

/-!
# The single-thread channel

The ring buffer behind the ready queues of the executor: a boxed slice of
possibly uninitialized slots, one of which is always kept free to tell a full
ring from an empty one, the index `head` of the next write and the index `tail`
of the next read. An unbounded channel moves its contents to a larger slice when
it is full.

A slot is an `Option`: `none` is a slot that was never written or whose value was
moved out, and reading one is the fault `Pluvio.Spsc.Fault.uninit` (undefined
behaviour in the source). Every other way not to return has its own fault, so
that “the channel never faults” is something to prove.
-/

namespace Pluvio

namespace Spsc

/-- The ways an operation can fail to return. -/
inductive Fault
  /-- `assert!(cap > 0)`. -/
  | capacityZero
  /-- The slots asked for cannot be allocated. -/
  | alloc
  /-- A slice index out of bounds, or an index reduced modulo zero. -/
  | bounds
  /-- A slot read while uninitialized. -/
  | uninit
  /-- `check_magic` aborts the process. -/
  | corrupted
  deriving DecidableEq

/-- Why `try_send` gives the value back. -/
inductive TrySendError (α : Type*)
  | full (v : α)
  | disconnected (v : α)
  deriving DecidableEq

/-- `send` gives the value back. -/
inductive SendError (α : Type*)
  | mk (v : α)
  deriving DecidableEq

/-- Why `try_recv` has no value. -/
inductive TryRecvError
  | empty
  | disconnected
  deriving DecidableEq

/-- The guard before the fields of `Pluvio.Spsc.Inner`. -/
def innerMagicStart : ℕ := 0x535053434D414748

/-- The guard after the fields of `Pluvio.Spsc.Inner`. -/
def innerMagicEnd : ℕ := 0x535053434D414754

/-- The capacity an unbounded channel starts with. -/
def defaultInit : ℕ := 32

/-- The largest `usize`. -/
def usizeMax : ℕ := 2 ^ 64 - 1

/-- The state shared by the two halves of a channel. -/
structure Inner (α : Type*) where
  magicStart : ℕ
  /-- The slots of the ring. -/
  buf : List (Option α)
  bufLen : ℕ
  /-- Index of the next write. -/
  head : ℕ
  /-- Index of the next read. -/
  tail : ℕ
  unbounded : Bool
  senderCount : ℕ
  receiverAlive : Bool
  magicEnd : ℕ
  deriving DecidableEq

variable {α : Type*}

/-! ### Construction -/

/-- The largest number of slots `Vec::with_capacity` can provide; it is at most
`usize::MAX`, and depends on the machine and on the size of a value. -/
abbrev SlotLimit := Fin (2 ^ 64)

/-- A slice of `len` uninitialized slots, if it can be allocated. -/
def allocSlots (slots : SlotLimit) (len : ℕ) : Except Fault (List (Option α)) :=
  if len ≤ slots then .ok (List.replicate len none) else .error .alloc

/-- The state of a new channel around a slice of `len` slots. -/
def Inner.fresh (buf : List (Option α)) (unbounded : Bool) : Inner α where
  magicStart := innerMagicStart
  buf := buf
  bufLen := buf.length
  head := 0
  tail := 0
  unbounded := unbounded
  senderCount := 1
  receiverAlive := true
  magicEnd := innerMagicEnd

/-- `Inner::new_bounded`. -/
def newBounded (slots : SlotLimit) (cap : ℕ) : Except Fault (Inner α) :=
  if cap = 0 then .error .capacityZero
  else (allocSlots slots (cap + 1)).map (Inner.fresh · false)

/-- `Inner::new_unbounded`. -/
def newUnbounded (slots : SlotLimit) (initialCap : ℕ) : Except Fault (Inner α) :=
  (allocSlots slots (max initialCap 1 + 1)).map (Inner.fresh · true)

/-- How a channel is made. -/
inductive Mode
  /-- `bounded(cap)`. -/
  | bounded (cap : ℕ)
  /-- `unbounded()`. -/
  | unbounded
  deriving DecidableEq

/-- Make a channel: the ring of a bounded one is allocated at once. -/
def Mode.channel (slots : SlotLimit) : Mode → Except Fault (Inner α)
  | .bounded cap => newBounded slots cap
  | .unbounded => newUnbounded slots defaultInit

namespace Inner

/-! ### Indices -/

/-- The length of the slice. -/
def blen (s : Inner α) : ℕ := s.buf.length

/-- The index after `i`. -/
def inc (s : Inner α) (i : ℕ) : ℕ :=
  if s.blen = 0 then 0
  else if i % s.blen + 1 = s.blen then 0
  else i % s.blen + 1

def isEmpty (s : Inner α) : Bool := s.head == s.tail

def isFull (s : Inner α) : Bool := s.inc s.head == s.tail

def cap (s : Inner α) : ℕ := s.blen - 1

/-- The number of values held. -/
def len (s : Inner α) : ℕ :=
  if s.blen = 0 then 0
  else if s.tail % s.blen ≤ s.head % s.blen then s.head % s.blen - s.tail % s.blen
  else s.blen - s.tail % s.blen + s.head % s.blen

/-- `check_magic` passes. -/
def magicOk (s : Inner α) : Bool :=
  s.magicStart == innerMagicStart && s.magicEnd == innerMagicEnd

def anySenderAlive (s : Inner α) : Bool := 0 < s.senderCount

/-! ### Slots -/

/-- Move the value out of slot `i`. -/
def readSlot (buf : List (Option α)) (i : ℕ) : Except Fault (α × List (Option α)) :=
  match buf[i]? with
  | none => .error .bounds
  | some none => .error .uninit
  | some (some v) => .ok (v, buf.set i none)

/-- Write slot `i`. -/
def writeSlot (buf : List (Option α)) (i : ℕ) (v : α) : Except Fault (List (Option α)) :=
  if i < buf.length then .ok (buf.set i (some v)) else .error .bounds

/-- `write_at`: the index is reduced modulo the length of the slice. -/
def writeAt (s : Inner α) (idx : ℕ) (v : α) : Except Fault (Inner α) :=
  (writeSlot s.buf (idx % s.blen) v).map fun buf => { s with buf := buf }

/-- `read_at`. -/
def readAt (s : Inner α) (idx : ℕ) : Except Fault (α × Inner α) :=
  (readSlot s.buf (idx % s.blen)).map fun p => (p.1, { s with buf := p.2 })

/-! ### Growing -/

/-- The loop of `try_grow`: move `k` more values, from slot `t` on of the old
slice to slot `i` on of the new one. -/
def growLoop (inc : ℕ → ℕ) : ℕ → ℕ → ℕ → List (Option α) → List (Option α) →
    Except Fault (List (Option α))
  | 0, _, _, _, newBuf => .ok newBuf
  | k + 1, i, t, oldBuf, newBuf =>
    match readSlot oldBuf t with
    | .error f => .error f
    | .ok (v, oldBuf) =>
      match writeSlot newBuf i v with
      | .error f => .error f
      | .ok newBuf => growLoop inc k (i + 1) (inc t) oldBuf newBuf

/-- The capacity `try_grow` asks for, `saturating_mul` included. -/
def newCap (oldCap : ℕ) : ℕ := max (min (oldCap * 2) usizeMax) 2

/-- `try_grow`. -/
def tryGrow (slots : SlotLimit) (s : Inner α) : Except Fault (Inner α) :=
  if !s.unbounded || !s.isFull then .ok s
  else
    match allocSlots slots (newCap s.cap + 1) with
    | .error f => .error f
    | .ok newBuf =>
      match growLoop s.inc s.len 0 s.tail s.buf newBuf with
      | .error f => .error f
      | .ok newBuf =>
        .ok { s with tail := 0, head := s.len, buf := newBuf, bufLen := newBuf.length }

/-! ### The two halves -/

/-- `Sender::try_send`. -/
def trySend (slots : SlotLimit) (s : Inner α) (v : α) :
    Except Fault (Inner α × Except (TrySendError α) Unit) :=
  if !s.magicOk then .error .corrupted
  else if !s.receiverAlive then .ok (s, .error (.disconnected v))
  else
    match (if s.isFull then s.tryGrow slots else .ok s) with
    | .error f => .error f
    | .ok s =>
      if s.isFull then .ok (s, .error (.full v))
      else (s.writeAt s.head v).map fun s' => ({ s' with head := s'.inc s.head }, .ok ())

/-- `Sender::send`. -/
def send (slots : SlotLimit) (s : Inner α) (v : α) :
    Except Fault (Inner α × Except (SendError α) Unit) :=
  (s.trySend slots v).map fun p => (p.1, match p.2 with
    | .ok () => .ok ()
    | .error (.disconnected w) => .error (.mk w)
    | .error (.full w) => .error (.mk w))

/-- `Receiver::try_recv`. -/
def tryRecv (s : Inner α) : Except Fault (Inner α × Except TryRecvError α) :=
  if !s.magicOk then .error .corrupted
  else if s.isEmpty then
    .ok (s, .error (if !s.anySenderAlive then .disconnected else .empty))
  else (s.readAt s.tail).map fun p => ({ p.2 with tail := p.2.inc s.tail }, .ok p.1)

/-- `Sender::clone`. -/
def cloneSender (s : Inner α) : Inner α := { s with senderCount := s.senderCount + 1 }

/-- `Sender::drop`. -/
def dropSender (s : Inner α) : Inner α := { s with senderCount := s.senderCount - 1 }

/-- `Receiver::drop`. -/
def dropReceiver (s : Inner α) : Inner α := { s with receiverAlive := false }

/-- The loop of `Inner::drop`, with `k` rounds left: the values dropped, or
`none` if the rounds do not suffice. -/
def dropLoop (m head : ℕ) : ℕ → ℕ → List (Option α) → Option (Except Fault (List α))
  | 0, tail, _ => if tail = head then some (.ok []) else none
  | k + 1, tail, buf =>
    if tail = head then some (.ok [])
    else
      match readSlot buf tail with
      | .error f => some (.error f)
      | .ok (v, buf) =>
        (dropLoop m head k ((tail + 1) % m) buf).map fun r => r.map (v :: ·)

/-- `Inner::drop`: the values dropped, in order. The loop visits a slot of the
slice at most once before it meets `head`, so `m` rounds are given to it. -/
def drop (s : Inner α) : Option (Except Fault (List α)) :=
  if s.blen = 0 then some (.ok [])
  else dropLoop s.blen (s.head % s.blen) s.blen (s.tail % s.blen) s.buf

end Inner

/-! ### Sequences of operations -/

/-- What a program does with the handles of a channel. -/
inductive Op (α : Type*)
  | trySend (v : α)
  | send (v : α)
  | tryRecv
  | cloneSender
  | dropSender
  deriving DecidableEq

/-- What an operation on a channel returns. -/
inductive Reply (α : Type*)
  | trySend (r : Except (TrySendError α) Unit)
  | send (r : Except (SendError α) Unit)
  | tryRecv (r : Except TryRecvError α)
  | unit

/-- What an operation returns and leaves, unless it panics. -/
def Inner.perform (slots : SlotLimit) (s : Inner α) : Op α → Except Fault (Inner α × Reply α)
  | .trySend v => (s.trySend slots v).map fun p => (p.1, .trySend p.2)
  | .send v => (s.send slots v).map fun p => (p.1, .send p.2)
  | .tryRecv => s.tryRecv.map fun p => (p.1, .tryRecv p.2)
  | .cloneSender => .ok (s.cloneSender, .unit)
  | .dropSender => .ok (s.dropSender, .unit)

/-- What a program sees of one operation: its reply, then `len`, `is_empty` and
`capacity`, which read the same for both halves. -/
structure Entry (α : Type*) where
  op : Op α
  reply : Reply α
  len : ℕ
  isEmpty : Bool
  capacity : ℕ

/-- A sequence of operations and what a program sees of it. -/
def Inner.performAll (slots : SlotLimit) :
    Inner α → List (Op α) → Except Fault (Inner α × List (Entry α))
  | s, [] => .ok (s, [])
  | s, op :: ops =>
    match s.perform slots op with
    | .error f => .error f
    | .ok (s', reply) =>
      (performAll slots s' ops).map fun p =>
        (p.1, ⟨op, reply, s'.len, s'.isEmpty, s'.cap⟩ :: p.2)

/-- The value an operation put into the channel. -/
def Entry.sent : Entry α → Option α
  | ⟨.trySend v, .trySend (.ok ()), _, _, _⟩ => some v
  | ⟨.send v, .send (.ok ()), _, _, _⟩ => some v
  | _ => none

/-- The value an operation took out of the channel. -/
def Entry.received : Entry α → Option α
  | ⟨_, .tryRecv (.ok v), _, _, _⟩ => some v
  | _ => none

end Spsc

end Pluvio
