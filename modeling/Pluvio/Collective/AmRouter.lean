import Mathlib.Data.UInt
import Pluvio.Heap
import Pluvio.Collective.Communicator

/-!
# The active-message router

One active-message stream carries the messages of all collectives. The router
sorts them into slots, one for each key `(src, step, phase, micro_chunk)`. A slot
plays two roles: it is the pending receive that waits for a message, or the early
message that waits for a receive. `Pluvio.AmRouter.deliver`,
`Pluvio.AmRouter.takeEarly` and `Pluvio.AmRouter.registerPending` move it between
the two and the vacant state.

The raw pointer of a receive is a slice of the memory of its rank, the shared
`done` flag a cell named by an `F`, and a waker is a `W`; `Pluvio.Node` holds the
three together with the router.

A payload is modelled with an `origin`, which names the send it comes from. It is
a history variable: it is not on the wire and no function reads it, it only lets
a statement say *which* message a receive got. In the same way
`Pluvio.Node.got` records the origin of the payload a receive was filled with.
-/

namespace Pluvio

/-! ### Headers and keys -/

/-- The header that travels with every message. -/
structure AmHeader where
  src : UInt16
  step : UInt16
  phase : UInt8
  microChunk : UInt8
  deriving DecidableEq, Repr

namespace AmHeader

/-- The length of an encoded header. -/
def bytes : ℕ := 8

/-- `u16::to_le_bytes`. -/
def toLeBytes (w : UInt16) : List UInt8 :=
  [UInt8.ofNat (w.toNat % 256), UInt8.ofNat (w.toNat / 256)]

/-- `u16::from_le_bytes`. -/
def fromLeBytes (lo hi : UInt8) : UInt16 := UInt16.ofNat (lo.toNat + 256 * hi.toNat)

/-- The header on the wire, two bytes reserved. -/
def encode (h : AmHeader) : List UInt8 :=
  toLeBytes h.src ++ toLeBytes h.step ++ [h.phase, h.microChunk, 0, 0]

/-- Read a header off the wire. -/
def decode (bs : List UInt8) : Except CollectiveError AmHeader :=
  match bs with
  | b0 :: b1 :: b2 :: b3 :: b4 :: b5 :: _ :: _ :: _ =>
    .ok ⟨fromLeBytes b0 b1, fromLeBytes b2 b3, b4, b5⟩
  | bs => .error (.badHeader bs.length bytes)

/-- The two bytes of a 16-bit word are the word. -/
theorem fromLeBytes_toLeBytes (w : UInt16) :
    fromLeBytes (UInt8.ofNat (w.toNat % 256)) (UInt8.ofNat (w.toNat / 256)) = w := by
  refine UInt16.toNat_inj.mp ?_
  have hw := w.toNat_lt
  rw [fromLeBytes, UInt16.toNat_ofNat', UInt8.toNat_ofNat', UInt8.toNat_ofNat']
  omega

/-- **A header survives the wire**, so the dispatcher never drops a message of
the collectives for its header. -/
theorem decode_encode (h : AmHeader) : decode h.encode = .ok h := by
  simp only [encode, decode, toLeBytes, List.cons_append, List.nil_append, fromLeBytes_toLeBytes]

end AmHeader

/-- The key of a slot. -/
structure RecvKey where
  src : UInt16
  step : UInt16
  phase : UInt8
  microChunk : UInt8
  deriving DecidableEq, Repr

/-- `RecvKey::from`. -/
def RecvKey.ofHeader (h : AmHeader) : RecvKey := ⟨h.src, h.step, h.phase, h.microChunk⟩

/-! ### The router -/

/-- The payload of a message, and the send it comes from. -/
structure Payload (α ω : Type*) where
  bytes : List α
  origin : ω
  deriving DecidableEq

/-- A pending receive: where to copy the payload and whom to tell. -/
structure PendingRecv (R F W : Type*) where
  /-- `target` and `len`. -/
  target : Slice R
  done : F
  waker : Option W

/-- A slot of the router. -/
inductive Slot (R F W α ω : Type*)
  /-- A receive waits for its message. -/
  | pending (p : PendingRecv R F W)
  /-- A message waits for its receive. -/
  | early (m : Payload α ω)

/-- The router: the occupied slots. -/
structure AmRouter (R F W α ω : Type*) where
  slots : RecvKey → Option (Slot R F W α ω)

variable {R F W α ω : Type*}

namespace AmRouter

/-- `AmRouter::new`. -/
def new : AmRouter R F W α ω := ⟨fun _ => none⟩

/-- `HashMap::insert`. -/
def insert (r : AmRouter R F W α ω) (key : RecvKey) (s : Slot R F W α ω) :
    AmRouter R F W α ω := ⟨Function.update r.slots key (some s)⟩

/-- `HashMap::remove`. -/
def remove (r : AmRouter R F W α ω) (key : RecvKey) : AmRouter R F W α ω :=
  ⟨Function.update r.slots key none⟩

/-- `take_early`. -/
def takeEarly (r : AmRouter R F W α ω) (key : RecvKey) :
    Option (Payload α ω) × AmRouter R F W α ω :=
  match r.slots key with
  | some (.early m) => (some m, r.remove key)
  | _ => (none, r)

/-- `register_pending`, which replaces the entry that may be there. -/
def registerPending (r : AmRouter R F W α ω) (key : RecvKey) (p : PendingRecv R F W) :
    AmRouter R F W α ω := r.insert key (.pending p)

/-- `update_waker`. -/
def updateWaker (r : AmRouter R F W α ω) (key : RecvKey) (w : W) : AmRouter R F W α ω :=
  match r.slots key with
  | some (.pending p) => r.insert key (.pending { p with waker := some w })
  | _ => r

/-- `cancel_pending`. -/
def cancelPending (r : AmRouter R F W α ω) (key : RecvKey) : AmRouter R F W α ω := r.remove key

/-- `deliver`, up to the copy: the router, and the receive to complete if there
is one. A message that meets an early one takes it out of its slot and is not put
there itself. -/
def deliver (r : AmRouter R F W α ω) (key : RecvKey) (m : Payload α ω) :
    AmRouter R F W α ω × Option (PendingRecv R F W) :=
  match r.slots key with
  | some (.pending p) => (r.remove key, some p)
  | none => (r.insert key (.early m), none)
  | some (.early _) => (r.remove key, none)

end AmRouter

/-! ### A rank's memory and its router -/

/-- What the router of a rank works on. -/
structure Node (R F W α ω : Type*) where
  router : AmRouter R F W α ω
  heap : Heap R α
  /-- The shared `done` cells. -/
  done : F → Bool
  /-- The origin of the payload that completed a receive. -/
  got : F → Option ω

/-- A receive future, with the cell that tells it that it is done. -/
structure RecvFuture (R F : Type*) where
  key : RecvKey
  done : F
  registered : Bool
  /-- `target` and `len`. -/
  target : Slice R

/-- What a poll of a receive future returns. -/
inductive Poll
  | ready
  | pending
  deriving DecidableEq

/-- `RecvFuture::new`. -/
def RecvFuture.new (key : RecvKey) (done : F) (target : Slice R) : RecvFuture R F where
  key := key
  done := done
  registered := false
  target := target

section Node

variable [DecidableEq R] [DecidableEq F]

namespace Node

/-- Copy a payload into its target and set the flag. -/
def fill (n : Node R F W α ω) (target : Slice R) (done : F) (m : Payload α ω) :
    Node R F W α ω :=
  { n with
    heap := n.heap.copyInto target m.bytes
    done := Function.update n.done done true
    got := Function.update n.got done (some m.origin) }

/-- `deliver`: the node, and the waker that is woken. -/
def deliver (n : Node R F W α ω) (key : RecvKey) (m : Payload α ω) :
    Node R F W α ω × Option W :=
  match n.router.deliver key m with
  | (router, some p) => ({ n with router := router }.fill p.target p.done m, p.waker)
  | (router, none) => ({ n with router := router }, none)

end Node

/-- `RecvFuture::poll`. -/
def RecvFuture.poll (fut : RecvFuture R F) (n : Node R F W α ω) (waker : W) :
    Poll × RecvFuture R F × Node R F W α ω :=
  if n.done fut.done then (.ready, fut, n)
  else if fut.registered then
    (.pending, fut, { n with router := n.router.updateWaker fut.key waker })
  else
    match n.router.takeEarly fut.key with
    | (some m, router) => (.ready, fut, { n with router := router }.fill fut.target fut.done m)
    | (none, router) => (.pending, { fut with registered := true },
        { n with router := router.registerPending fut.key ⟨fut.target, fut.done, some waker⟩ })

/-- `RecvFuture::drop`. -/
def RecvFuture.drop (fut : RecvFuture R F) (n : Node R F W α ω) : Node R F W α ω :=
  if fut.registered && !n.done fut.done then
    { n with router := n.router.cancelPending fut.key }
  else n

/-! ### What each operation does to the slots -/

namespace Node

variable {n : Node R F W α ω} {key : RecvKey} {m : Payload α ω}

/-- A message nobody waits for is kept. -/
theorem deliver_vacant (h : n.router.slots key = none) :
    n.deliver key m = ({ n with router := n.router.insert key (.early m) }, none) := by
  simp only [deliver, AmRouter.deliver, h]

/-- A message that is waited for completes the receive. -/
theorem deliver_pending {p : PendingRecv R F W} (h : n.router.slots key = some (.pending p)) :
    n.deliver key m =
      ({ n with router := n.router.remove key }.fill p.target p.done m, p.waker) := by
  simp only [deliver, AmRouter.deliver, h]

/-- **A message that meets an early one is lost, and so is the early one.** -/
theorem deliver_early {m' : Payload α ω} (h : n.router.slots key = some (.early m')) :
    n.deliver key m = ({ n with router := n.router.remove key }, none) := by
  simp only [deliver, AmRouter.deliver, h]

end Node

namespace RecvFuture

variable {n : Node R F W α ω} {fut : RecvFuture R F} {w : W}

/-- A completed receive is ready. -/
theorem poll_done (hdone : n.done fut.done = true) : fut.poll n w = (.ready, fut, n) := by
  rw [poll, if_pos hdone]

/-- A later poll of a receive that waits leaves its waker. -/
theorem poll_again (hdone : n.done fut.done = false) (hreg : fut.registered = true) :
    fut.poll n w = (.pending, fut, { n with router := n.router.updateWaker fut.key w }) := by
  rw [poll, if_neg (by simp [hdone]), if_pos hreg]

/-- A first poll that finds its message completes with it. -/
theorem poll_early {m : Payload α ω} (hdone : n.done fut.done = false)
    (hreg : fut.registered = false) (h : n.router.slots fut.key = some (.early m)) :
    fut.poll n w = (.ready, fut,
      { n with router := n.router.remove fut.key }.fill fut.target fut.done m) := by
  simp [poll, hdone, hreg, AmRouter.takeEarly, h]

/-- A first poll that finds no message registers. -/
theorem poll_register (hdone : n.done fut.done = false) (hreg : fut.registered = false)
    (h : ∀ m, n.router.slots fut.key ≠ some (.early m)) :
    fut.poll n w = (.pending, { fut with registered := true },
      { n with
        router := n.router.insert fut.key (.pending ⟨fut.target, fut.done, some w⟩) }) := by
  have htake : n.router.takeEarly fut.key = (none, n.router) := by
    unfold AmRouter.takeEarly
    split
    · next m hm => exact absurd hm (h m)
    · rfl
  simp [poll, hdone, hreg, htake, AmRouter.registerPending]

end RecvFuture

end Node

@[simp] theorem AmRouter.insert_slots_self (r : AmRouter R F W α ω) (key : RecvKey)
    (s : Slot R F W α ω) : (r.insert key s).slots key = some s := Function.update_self ..

@[simp] theorem AmRouter.remove_slots_self (r : AmRouter R F W α ω) (key : RecvKey) :
    (r.remove key).slots key = none := Function.update_self ..

/-- Updating a waker changes the waker of a pending slot and nothing else. -/
theorem AmRouter.updateWaker_slots (r : AmRouter R F W α ω) (key key' : RecvKey) (w : W) :
    (r.updateWaker key w).slots key' = r.slots key' ∨
      ∃ p, key' = key ∧ r.slots key = some (.pending p) ∧
        (r.updateWaker key w).slots key = some (.pending { p with waker := some w }) := by
  unfold AmRouter.updateWaker
  split
  · next p hp =>
    rcases eq_or_ne key' key with rfl | hne
    · exact .inr ⟨p, rfl, hp, Function.update_self ..⟩
    · exact .inl (Function.update_of_ne hne ..)
  · exact .inl rfl

theorem AmRouter.insert_slots_of_ne (r : AmRouter R F W α ω) {key key' : RecvKey}
    (s : Slot R F W α ω) (h : key' ≠ key) : (r.insert key s).slots key' = r.slots key' :=
  Function.update_of_ne h ..

theorem AmRouter.remove_slots_of_ne (r : AmRouter R F W α ω) {key key' : RecvKey}
    (h : key' ≠ key) : (r.remove key).slots key' = r.slots key' :=
  Function.update_of_ne h ..

/-- What is in a slot after one was emptied was there. -/
theorem AmRouter.slots_of_remove {r : AmRouter R F W α ω} {key key' : RecvKey}
    {s : Slot R F W α ω} (h : (r.remove key).slots key' = some s) : r.slots key' = some s := by
  rcases eq_or_ne key' key with rfl | hne
  · cases (r.remove_slots_self key').symm.trans h
  · exact (r.remove_slots_of_ne hne).symm.trans h

/-- What is in a slot after one was occupied was there, or is what was put there. -/
theorem AmRouter.slots_of_insert {r : AmRouter R F W α ω} {key key' : RecvKey}
    {s s' : Slot R F W α ω} (h : (r.insert key s).slots key' = some s') :
    r.slots key' = some s' ∨ key' = key ∧ s' = s := by
  rcases eq_or_ne key' key with rfl | hne
  · cases (r.insert_slots_self key' s).symm.trans h
    exact .inr ⟨rfl, rfl⟩
  · exact .inl ((r.insert_slots_of_ne s hne).symm.trans h)

/-- A delivery leaves the slots of the other keys alone. -/
theorem Node.deliver_slots_of_ne [DecidableEq R] [DecidableEq F] {n : Node R F W α ω}
    {key key' : RecvKey} (m : Payload α ω) (h : key' ≠ key) :
    (n.deliver key m).1.router.slots key' = n.router.slots key' := by
  rcases hslot : n.router.slots key with - | p | e
  · rw [Node.deliver_vacant hslot]
    exact AmRouter.insert_slots_of_ne _ _ h
  · rw [Node.deliver_pending hslot]
    exact AmRouter.remove_slots_of_ne _ h
  · rw [Node.deliver_early hslot]
    exact AmRouter.remove_slots_of_ne _ h

end Pluvio
