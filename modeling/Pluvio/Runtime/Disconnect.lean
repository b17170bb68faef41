import Pluvio.Runs
import Pluvio.Runtime.SpscQueue

/-!
# Disconnection of the channel

A channel is disconnected, for the handles of one side, when no handle of the
other side is left. Both halves can be cloned, but only the senders are counted:
`Inner` has a flag for the receivers, which the first of them to be dropped
clears. So the two directions part company here.

* `try_recv` reports `Disconnected` exactly when the queue is empty and no sender
  is left, along every run.
* `try_send` and `Sender::is_disconnected` are exact along those runs in which a
  receiver is dropped only when it is the last one, or when there is no sender
  left to notice.

The handles that exist are counted beside `Inner`, by what a program does and not
by what the channel remembers of it.
-/

namespace Pluvio

namespace Spsc

variable {α : Type*}

/-! ### The handles of a channel -/

namespace Inner

/-- `Sender::is_disconnected`. -/
def senderIsDisconnected (s : Inner α) : Bool := !s.receiverAlive

/-- `Receiver::clone`: another reference to the same `Inner`, which is not told. -/
def cloneReceiver (s : Inner α) : Inner α := s

end Inner

/-- A channel, the handles of it that exist, and what went through it. -/
structure Handles (α : Type*) where
  inner : Inner α
  /-- How many `Sender`s exist. -/
  senders : ℕ
  /-- How many `Receiver`s exist. -/
  receivers : ℕ
  /-- The values `try_send` accepted, oldest first. -/
  sent : List α
  /-- The values `try_recv` returned, oldest first. -/
  received : List α

/-- What a program does with a handle. -/
inductive Act (α : Type*)
  | trySend (v : α)
  | tryRecv
  | cloneSender
  | dropSender
  | cloneReceiver
  | dropReceiver
  deriving DecidableEq

namespace Handles

/-- The two halves as they are made. -/
def start (inner : Inner α) : Handles α where
  inner := inner
  senders := 1
  receivers := 1
  sent := []
  received := []

/-- What a program does with a sender that exists. -/
def onSender (slots : SlotLimit) (s : Handles α) : Act α → Option (Handles α)
  | .trySend v => match s.inner.trySend slots v with
    | .ok (inner, .ok ()) => some { s with inner := inner, sent := s.sent ++ [v] }
    | .ok (inner, .error _) => some { s with inner := inner }
    -- the growing channel cannot get its slots: the program ends
    | .error _ => none
  | .cloneSender => some { s with inner := s.inner.cloneSender, senders := s.senders + 1 }
  | .dropSender => some { s with inner := s.inner.dropSender, senders := s.senders - 1 }
  | _ => none

/-- What a program does with a receiver that exists. -/
def onReceiver (s : Handles α) : Act α → Option (Handles α)
  | .tryRecv => match s.inner.tryRecv with
    | .ok (inner, .ok v) => some { s with inner := inner, received := s.received ++ [v] }
    | .ok (inner, .error _) => some { s with inner := inner }
    | .error _ => none
  | .cloneReceiver => some { s with inner := s.inner.cloneReceiver, receivers := s.receivers + 1 }
  | .dropReceiver => some { s with inner := s.inner.dropReceiver, receivers := s.receivers - 1 }
  | _ => none

/-- The act is made with a sender. -/
def ofSender : Act α → Bool
  | .trySend _ | .cloneSender | .dropSender => true
  | .tryRecv | .cloneReceiver | .dropReceiver => false

/-- One act; it needs a handle of its side. -/
def step (slots : SlotLimit) (s : Handles α) (a : Act α) : Option (Handles α) :=
  if ofSender a then if 0 < s.senders then s.onSender slots a else none
  else if 0 < s.receivers then s.onReceiver a else none

end Handles

/-! ### What exact means -/

/-- **Disconnection is reported exactly**: to a sender when no receiver exists, and
the value is given back; to a receiver when no sender exists and what was accepted
has all been received. -/
structure Exact (slots : SlotLimit) (s : Handles α) : Prop where
  isDisconnected : 0 < s.senders → (s.inner.senderIsDisconnected = true ↔ s.receivers = 0)
  trySend : 0 < s.senders → ∀ v,
    ((∃ t w, s.inner.trySend slots v = .ok (t, .error (.disconnected w))) ↔ s.receivers = 0)
  givesBack : ∀ v t w, s.inner.trySend slots v = .ok (t, .error (.disconnected w)) →
    w = v ∧ t = s.inner
  tryRecv : 0 < s.receivers →
    ((∃ t, s.inner.tryRecv = .ok (t, .error .disconnected)) ↔
      s.inner.isEmpty = true ∧ s.senders = 0)
  /-- The values come out in the order they went in, and none is left when the
  queue is empty. -/
  inOrder : s.received <+: s.sent ∧ (s.inner.isEmpty = true ↔ s.received = s.sent)

/-- A receiver is dropped only when it is the last one, or no sender is left. -/
def LastReceiver (s : Handles α) : Act α → Prop
  | .dropReceiver => s.receivers = 1 ∨ s.senders = 0
  | _ => True

/-! ### The ring under either flag -/

namespace Inner

/-- The channel with the flag of its receiver up. -/
def alive (s : Inner α) : Inner α := { s with receiverAlive := true }

theorem alive_eq {s : Inner α} (h : s.receiverAlive = true) : s.alive = s := by
  rw [alive, ← h]

/-- `try_recv` does not look at the flag. -/
theorem tryRecv_alive (s : Inner α) :
    s.alive.tryRecv = s.tryRecv.map fun p => (p.1.alive, p.2) := by
  unfold tryRecv
  by_cases hm : s.magicOk
  · by_cases he : s.isEmpty
    · simp only [hm, he, show s.alive.magicOk = s.magicOk from rfl,
        show s.alive.isEmpty = s.isEmpty from rfl, Except.map]
      rfl
    · simp only [hm, he, show s.alive.magicOk = s.magicOk from rfl,
        show s.alive.isEmpty = s.isEmpty from rfl, readAt, show s.alive.buf = s.buf from rfl,
        show s.alive.tail = s.tail from rfl, show s.alive.blen = s.blen from rfl]
      cases readSlot s.buf (s.tail % s.blen) <;> rfl
  · simp only [hm, show s.alive.magicOk = s.magicOk from rfl]
    rfl

/-- `try_recv` does not change the flag. -/
theorem receiverAlive_of_tryRecv {s t : Inner α} {r : Except TryRecvError α}
    (h : s.tryRecv = .ok (t, r)) : t.receiverAlive = s.receiverAlive := by
  unfold tryRecv at h
  split at h
  · cases h
  · split at h
    · cases h
      rfl
    · obtain ⟨⟨v, u⟩, hread, hu⟩ := map_eq_ok h
      obtain ⟨p, -, hp⟩ := map_eq_ok hread
      cases hp
      cases hu
      rfl

end Inner

/-- The queue does not depend on the number of senders. -/
theorem Represents.withSenders {mode : Mode} {s : Inner α} {q : Fifo α}
    (h : Represents mode s q) (n : ℕ) : Represents mode { s with senderCount := n } q :=
  ⟨h.magic, h.receiver, h.unbounded, h.bounded, h.ring⟩

/-! ### The invariant -/

/-- The channel holds what was accepted and not yet received, counts its senders,
and, as long as there is one, its flag tells whether there is a receiver. -/
structure Held (mode : Mode) (s : Handles α) (q : Fifo α) : Prop where
  queue : Represents mode s.inner.alive q
  items : s.received ++ q.items = s.sent
  senders : s.inner.senderCount = s.senders
  receivers : 0 < s.senders → (s.inner.receiverAlive = true ↔ 0 < s.receivers)

/-- The invariant of a run in which only last receivers are dropped. -/
def Counted (mode : Mode) (s : Handles α) : Prop := ∃ q, Held mode s q

section Held

variable {slots : SlotLimit} {mode : Mode} {s s' : Handles α} {q : Fifo α}

/-- A new channel has one sender and one receiver. -/
theorem counted_start {inner : Inner α} (h : mode.channel slots = .ok inner) :
    Counted mode (Handles.start inner) := by
  obtain ⟨hrep, hsc⟩ := represents_channel h
  refine ⟨mode.queue, ?_, ?_, hsc, fun _ => iff_of_true hrep.receiver Nat.one_pos⟩
  · rw [Handles.start, Inner.alive_eq hrep.receiver]
    exact hrep
  · cases mode <;> rfl

variable (h : Held mode s q)

include h

theorem Held.isEmpty_iff : s.inner.isEmpty = true ↔ q.items = [] := by
  rw [show s.inner.isEmpty = s.inner.alive.isEmpty from rfl, h.queue.isEmpty_eq, List.isEmpty_iff]

theorem Held.refines (halive : s.inner.receiverAlive = true) :
    Refines mode s.inner ⟨q, s.senders⟩ :=
  ⟨Inner.alive_eq halive ▸ h.queue, h.senders⟩

/-- With the flag down nothing is sent. -/
theorem Held.trySend_dead (hdead : s.inner.receiverAlive = false) (v : α) :
    s.inner.trySend slots v = .ok (s.inner, .error (.disconnected v)) := by
  have hm : s.inner.magicOk = true := h.queue.magic
  simp only [Inner.trySend, hm, hdead, Bool.not_true, Bool.not_false, Bool.false_eq_true, if_false,
    if_true]

/-- With the flag up no `Disconnected` is returned. -/
theorem Held.trySend_alive (halive : s.inner.receiverAlive = true) (v w : α) (t : Inner α) :
    s.inner.trySend slots v ≠ .ok (t, .error (.disconnected w)) := by
  rcases (h.refines halive).trySend_cases slots v with
    ⟨s₁, _, hsend, -⟩ | ⟨hsend, -⟩ | ⟨hsend, -⟩ <;> simp [hsend]

/-- **What `try_recv` does**: it takes the oldest value, or reports why there is
none. -/
theorem Held.tryRecv_cases :
    (∃ t v queue, s.inner.tryRecv = .ok (t, .ok v) ∧ q.items = v :: queue.items ∧
      Represents mode t.alive queue ∧ t.senderCount = s.inner.senderCount ∧
      t.receiverAlive = s.inner.receiverAlive) ∨
    (s.inner.tryRecv = .ok (s.inner, .error (if s.senders = 0 then .disconnected else .empty)) ∧
      q.items = []) := by
  have hm : s.inner.magicOk = true := h.queue.magic
  rcases hq : q.items with - | ⟨v, vs⟩
  · have he := h.isEmpty_iff.mpr hq
    refine Or.inr ⟨?_, rfl⟩
    simp only [Inner.tryRecv, hm, he, Inner.anySenderAlive, h.senders, Bool.not_true,
      Bool.false_eq_true, if_false, if_true]
    rcases Nat.eq_zero_or_pos s.senders with h0 | hpos
    · simp [h0]
    · simp [hpos, hpos.ne']
  · have href : Refines mode s.inner.alive ⟨q, s.senders⟩ := ⟨h.queue, h.senders⟩
    rcases href.tryRecv_cases with ⟨t', w, queue, hrecv, hpop, href'⟩ | ⟨-, hpop⟩
    · rw [Inner.tryRecv_alive] at hrecv
      obtain ⟨⟨t, r⟩, ht, hp⟩ := map_eq_ok hrecv
      obtain ⟨rfl, rfl⟩ := Prod.mk.inj hp
      have hitems := (Fifo.pop_eq_some_iff.mp hpop).1
      obtain ⟨rfl, hvs⟩ := List.cons.inj (hq.symm.trans hitems)
      exact Or.inl ⟨t, v, queue, ht, by rw [hvs], href'.queue,
        href'.senders.trans h.senders.symm, Inner.receiverAlive_of_tryRecv ht⟩
    · simp [Fifo.pop, hq] at hpop

/-- **What is held is reported exactly.** -/
theorem Held.exact (slots : SlotLimit) : Exact slots s where
  isDisconnected := fun hs => by
    have hr := h.receivers hs
    rw [Inner.senderIsDisconnected, Bool.not_eq_true', ← Bool.not_eq_true, hr]
    omega
  trySend := fun hs v => by
    have hr := h.receivers hs
    cases hflag : s.inner.receiverAlive with
    | false =>
      refine iff_of_true ⟨_, _, h.trySend_dead hflag v⟩ ?_
      rw [hflag] at hr
      simpa using hr
    | true =>
      refine iff_of_false (fun ⟨t, w, hsend⟩ => h.trySend_alive hflag v w t hsend) ?_
      exact (hr.mp hflag).ne'
  givesBack := fun v t w hsend => by
    cases hflag : s.inner.receiverAlive with
    | false =>
      rw [h.trySend_dead hflag] at hsend
      cases hsend
      exact ⟨rfl, rfl⟩
    | true => exact absurd hsend (h.trySend_alive hflag v w t)
  tryRecv := fun _ => by
    rw [h.isEmpty_iff]
    rcases h.tryRecv_cases with ⟨t, v, queue, hrecv, hitems, -⟩ | ⟨hrecv, hitems⟩
    · simp [hrecv, hitems]
    · rcases Nat.eq_zero_or_pos s.senders with h0 | hpos
      · simp [hrecv, hitems, h0]
      · simp [hrecv, hpos.ne']
  inOrder := by
    refine ⟨⟨q.items, h.items⟩, ?_⟩
    rw [h.isEmpty_iff, ← h.items]
    simp

end Held

/-! ### One act -/

section Step

variable {slots : SlotLimit} {mode : Mode} {s s' : Handles α} {q : Fifo α}

/-- An act that is taken has its handle. -/
theorem Handles.step_cases {a : Act α} (hs : s.step slots a = some s') :
    (ofSender a = true ∧ 0 < s.senders ∧ s.onSender slots a = some s') ∨
    (ofSender a = false ∧ 0 < s.receivers ∧ s.onReceiver a = some s') := by
  unfold step at hs
  split at hs
  · next ha =>
    split at hs
    · next hpos => exact Or.inl ⟨ha, hpos, hs⟩
    · cases hs
  · next ha =>
    split at hs
    · next hpos => exact Or.inr ⟨by simpa using ha, hpos, hs⟩
    · cases hs

/-- **A sender keeps the invariant.** -/
theorem Held.onSender (h : Held mode s q) (hpos : 0 < s.senders) {a : Act α}
    (hs : s.onSender slots a = some s') : Counted mode s' := by
  have hflag := h.receivers hpos
  cases a with
  | trySend v =>
    simp only [Handles.onSender] at hs
    cases halive : s.inner.receiverAlive with
    | false =>
      rw [h.trySend_dead halive] at hs
      exact Option.some.inj hs ▸ ⟨q, h⟩
    | true =>
      rcases (h.refines halive).trySend_cases slots v with
        ⟨t, queue, hsend, hpush, href⟩ | ⟨hsend, -⟩ | ⟨hsend, -⟩
      · rw [hsend] at hs
        obtain rfl := Option.some.inj hs
        have halive' := href.queue.receiver
        refine ⟨queue, (Inner.alive_eq halive').symm ▸ href.queue, ?_, href.senders, fun _ => ?_⟩
        · rw [Fifo.items_of_push hpush, ← List.append_assoc, h.items]
        · exact iff_of_true halive' (hflag.mp halive)
      · rw [hsend] at hs
        exact Option.some.inj hs ▸ ⟨q, h⟩
      · rw [hsend] at hs
        cases hs
  | cloneSender =>
    obtain rfl := Option.some.inj hs
    exact ⟨q, h.queue.withSenders _, h.items, congrArg (· + 1) h.senders, fun _ => hflag⟩
  | dropSender =>
    obtain rfl := Option.some.inj hs
    exact ⟨q, h.queue.withSenders _, h.items, congrArg (· - 1) h.senders, fun _ => hflag⟩
  | tryRecv => cases hs
  | cloneReceiver => cases hs
  | dropReceiver => cases hs

/-- **A receiver keeps the invariant**, if it is dropped as `LastReceiver` says. -/
theorem Held.onReceiver (h : Held mode s q) (hpos : 0 < s.receivers) {a : Act α}
    (hG : LastReceiver s a) (hs : s.onReceiver a = some s') : Counted mode s' := by
  cases a with
  | tryRecv =>
    simp only [Handles.onReceiver] at hs
    rcases h.tryRecv_cases with ⟨t, v, queue, hrecv, hitems, hrep, hsc, hra⟩ | ⟨hrecv, -⟩
    · rw [hrecv] at hs
      obtain rfl := Option.some.inj hs
      refine ⟨queue, hrep, ?_, hsc.trans h.senders, fun hsend => ?_⟩
      · rw [← h.items, hitems, List.append_assoc, List.singleton_append]
      · rw [hra]
        exact h.receivers hsend
    · rw [hrecv] at hs
      exact Option.some.inj hs ▸ ⟨q, h⟩
  | cloneReceiver =>
    obtain rfl := Option.some.inj hs
    refine ⟨q, h.queue, h.items, h.senders, fun hsend => ?_⟩
    exact iff_of_true ((h.receivers hsend).mpr hpos) (Nat.succ_pos _)
  | dropReceiver =>
    obtain rfl := Option.some.inj hs
    refine ⟨q, h.queue, h.items, h.senders, fun hsend => ?_⟩
    have hlast : s.receivers = 1 := hG.resolve_right (Nat.pos_iff_ne_zero.mp hsend)
    exact iff_of_false (by simp [Inner.dropReceiver]) (by simp [hlast])
  | trySend v => cases hs
  | cloneSender => cases hs
  | dropSender => cases hs

theorem Counted.step (h : Counted mode s) {a : Act α} (hG : LastReceiver s a)
    (hs : s.step slots a = some s') : Counted mode s' := by
  obtain ⟨q, h⟩ := h
  rcases Handles.step_cases hs with ⟨-, hpos, hs⟩ | ⟨-, hpos, hs⟩
  · exact h.onSender hpos hs
  · exact h.onReceiver hpos hG hs

/-- **A receiver dropped beside another one** takes the flag down for a sender that
still has a receiver to send to. -/
theorem not_exact_of_dropReceiver {a : Act α} (hG : ¬LastReceiver s a)
    (hs : s.step slots a = some s') : ¬Exact slots s' := by
  cases a with
  | dropReceiver =>
    rcases Handles.step_cases hs with ⟨hof, -⟩ | ⟨-, hpos, hs⟩
    · cases hof
    · obtain rfl := Option.some.inj hs
      obtain ⟨hr, hsend⟩ := not_or.mp hG
      intro hexact
      have hzero : s.receivers - 1 = 0 :=
        (hexact.isDisconnected (Nat.pos_of_ne_zero hsend)).mp (by
          simp [Inner.senderIsDisconnected, Inner.dropReceiver])
      omega
  | trySend v => exact absurd trivial hG
  | tryRecv => exact absurd trivial hG
  | cloneSender => exact absurd trivial hG
  | dropSender => exact absurd trivial hG
  | cloneReceiver => exact absurd trivial hG

end Step

/-! ### Runs -/

/-- **When disconnection is exact.** Along a run of clones, drops, `try_send`s and
`try_recv`s on a channel, disconnection is reported exactly in every state if and
only if a receiver is never dropped while another receiver and a sender exist. -/
theorem disconnection_exact_iff {slots : SlotLimit} {mode : Mode} {inner : Inner α}
    (hopen : mode.channel slots = .ok inner) (acts : List (Act α)) :
    Always (Handles.step slots) (Exact slots) (Handles.start inner) acts ↔
      EachStep (Handles.step slots) LastReceiver (Handles.start inner) acts := by
  refine always_iff_eachStep (fun s (h : Counted mode s) => ?_) ?_ ?_ (counted_start hopen)
    (eachStep_true acts)
  · obtain ⟨q, h⟩ := h
    exact h.exact slots
  · exact fun s a s' h _ hlast hs => h.step hlast hs
  · exact fun s a s' _ _ hother hs => not_exact_of_dropReceiver hother hs

/-- A channel of one slot. -/
theorem disconnection_exact_iff_one :
    Always (Handles.step 100) (Exact 100) (Handles.start (Inner.fresh [none, none] false))
        [Act.trySend 7, .dropSender, .tryRecv, .tryRecv] ↔
      EachStep (Handles.step 100) LastReceiver (Handles.start (Inner.fresh [none, none] false))
        [Act.trySend 7, .dropSender, .tryRecv, .tryRecv] :=
  @disconnection_exact_iff ℕ 100 (.bounded 1) _ rfl _

/-- **A channel that is disconnected and is not**: its receiver is cloned and the
clone dropped, as when a helper that was handed one ends. The other receiver is
there and the ring has room, and a send fails as `Disconnected`. -/
theorem disconnected_with_receiver :
    (Mode.bounded 1).channel 100 = .ok (Inner.fresh [(none : Option ℕ), none] false) ∧
      ∃ s, runList (Handles.step 100) (Handles.start (Inner.fresh [(none : Option ℕ), none] false))
          [.cloneReceiver, .dropReceiver] = some s ∧
        s.senders = 1 ∧ s.receivers = 1 ∧ s.inner.senderIsDisconnected = true ∧
        s.inner.trySend 100 7 = .ok (s.inner, .error (.disconnected 7)) ∧ ¬Exact 100 s := by
  refine ⟨rfl, _, rfl, rfl, rfl, rfl, rfl, fun h => ?_⟩
  exact absurd ((h.isDisconnected Nat.one_pos).mp rfl) Nat.one_ne_zero

end Spsc

end Pluvio
