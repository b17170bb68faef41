import Pluvio.Collective.Mailbox
import Pluvio.Collective.Wire

/-!
# The dispatcher

One task takes the messages off the stream and delivers them. It waits twice for each of them,
for the message itself and then for its data, and while it waits the other tasks of the rank
create, poll and drop their receives: `Pluvio.Dispatcher.step` is any interleaving of the two.
A message whose header is too short, or whose data does not come, is logged and passed over.

What becomes of the messages is said once for all runs (`Pluvio.Dispatcher.Exact`): each one
that has arrived waits in the stream, is being received, or has exactly one outcome, in the
order of arrival, and the router has gone through a run of the mailbox in which the payloads are
those of the messages delivered. So the law of the mailbox, with its exact condition, becomes
one about the messages on the wire (`Pluvio.Dispatcher.dispatcher_law`).
-/

namespace Pluvio

namespace Dispatcher

/-- A message of the stream, with the data that is to be fetched. -/
structure AmMsg where
  header : List UInt8
  data : List UInt8
  deriving DecidableEq, Repr

/-- Where the task of the dispatcher is suspended. -/
inductive Pc
  /-- At `stream.wait_msg()`. -/
  | waiting
  /-- At `msg.recv_data_single(&mut buf)`. -/
  | receiving (key : RecvKey) (msg : AmMsg)
  | ended
  deriving DecidableEq

/-- What becomes of a message. -/
inductive Outcome
  | badHeader (e : CollectiveError)
  | receiveFailed (key : RecvKey)
  | delivered (key : RecvKey) (bytes : List UInt8)
  deriving DecidableEq

/-- The dispatcher of a rank, its stream and its router. -/
structure State (W : Type*) where
  mailbox : Mailbox.State W UInt8
  /-- The messages that have arrived and have not been taken. -/
  stream : List AmMsg
  closed : Bool
  pc : Pc
  /-- The messages that have arrived: a history variable, as the next two. -/
  arrived : List AmMsg
  /-- The messages that the task is done with, and what became of them. -/
  handled : List (AmMsg × Outcome)
  /-- What has happened at the router. -/
  log : List (Mailbox.Event W UInt8)

/-- What can happen at the stream, to the task, and to the receives. -/
inductive Event (W : Type*)
  | arrive (msg : AmMsg)
  | close
  /-- A task creates, polls or drops a receive. -/
  | request (e : Mailbox.Event W UInt8)
  /-- `wait_msg` returns a message. -/
  | take
  /-- `wait_msg` returns `None`. -/
  | finish
  /-- `recv_data_single` returns: so many bytes, or an error. -/
  | received (n : Option ℕ)

variable {W : Type*}

/-- A request comes from a receive, and so is no delivery. -/
def IsRequest : Mailbox.Event W UInt8 → Prop
  | .deliver _ _ => False
  | _ => True

instance : DecidablePred (IsRequest (W := W))
  | .deliver _ _ => .isFalse id
  | .create _ _ => .isTrue trivial
  | .poll _ _ => .isTrue trivial
  | .drop _ => .isTrue trivial

/-- A rank whose dispatcher starts, whatever the memory holds. -/
def start (heap : Heap Mailbox.Name UInt8) : State W where
  mailbox := Mailbox.start heap
  stream := []
  closed := false
  pc := .waiting
  arrived := []
  handled := []
  log := []

/-- The router goes one step. -/
def State.route (s : State W) (e : Mailbox.Event W UInt8) : Option (State W) :=
  (Mailbox.step s.mailbox e).map fun b => { s with mailbox := b, log := s.log ++ [e] }

/-- The task is done with a message and waits for the next one. -/
def State.done (s : State W) (msg : AmMsg) (o : Outcome) : State W :=
  { s with pc := .waiting, handled := s.handled ++ [(msg, o)] }

/-- `dispatcher_loop`, from a message to the next await point. -/
def State.dispatch (s : State W) (msg : AmMsg) : State W :=
  match AmHeader.decode msg.header with
  | .ok h => { s with pc := .receiving (.ofHeader h) msg }
  | .error e => s.done msg (.badHeader e)

/-- One event. The data of a message is fetched into a buffer as long as itself, which is then
cut to the bytes that have come. -/
def step (s : State W) : Event W → Option (State W)
  | .arrive msg => if s.closed then none
      else some { s with stream := s.stream ++ [msg], arrived := s.arrived ++ [msg] }
  | .close => some { s with closed := true }
  | .request e => if IsRequest e then s.route e else none
  | .take => match s.pc, s.stream with
    | .waiting, msg :: rest => some (State.dispatch { s with stream := rest } msg)
    | _, _ => none
  | .finish => if s.pc = .waiting ∧ s.closed then some { s with pc := .ended } else none
  | .received n => match s.pc with
    | .receiving key msg => match n with
      | some n => if n ≤ msg.data.length
          then (s.route (.deliver key (msg.data.take n))).map fun t =>
            t.done msg (.delivered key (msg.data.take n))
          else none
      | none => some (s.done msg (.receiveFailed key))
    | _ => none

/-! ### What becomes of the messages -/

/-- The message that is being received. -/
def Pc.current : Pc → List AmMsg
  | .receiving _ msg => [msg]
  | _ => []

/-- The key is the one that the header of the message says. -/
def HasKey (msg : AmMsg) (key : RecvKey) : Prop :=
  ∃ h, AmHeader.decode msg.header = .ok h ∧ key = .ofHeader h

/-- The outcome is one that the message can have. -/
def Outcome.Fits (msg : AmMsg) : Outcome → Prop
  | .badHeader e => AmHeader.decode msg.header = .error e
  | .receiveFailed key => HasKey msg key
  | .delivered key bytes => HasKey msg key ∧ bytes <+: msg.data

/-- The payload that an outcome delivers for a key. -/
def payloadFor (κ : RecvKey) : AmMsg × Outcome → Option (List UInt8)
  | (_, .delivered key bytes) => if key = κ then some bytes else none
  | _ => none

/-- The delivery that an outcome is. -/
def Outcome.delivery : Outcome → Option (Mailbox.Event W UInt8)
  | .delivered key bytes => some (.deliver key bytes)
  | _ => none

/-- The deliveries of a sequence of events. -/
def deliveries (es : List (Mailbox.Event W UInt8)) : List (Mailbox.Event W UInt8) :=
  es.filter fun e => ¬IsRequest e

/-- **What has become of the messages.** -/
structure Exact (heap : Heap Mailbox.Name UInt8) (s : State W) : Prop where
  /-- No message is lost, and none is handled twice or before an earlier one. -/
  once : s.arrived = s.handled.map Prod.fst ++ s.pc.current ++ s.stream
  fits : ∀ x ∈ s.handled, x.2.Fits x.1
  current : ∀ key msg, s.pc = .receiving key msg → HasKey msg key
  /-- The router has gone through a run of the mailbox. -/
  run : runList Mailbox.step (Mailbox.start heap) s.log = some s.mailbox
  /-- Its deliveries are the outcomes, in their order. -/
  log : deliveries s.log = s.handled.filterMap fun x => x.2.delivery
  /-- The payloads delivered for a key are those of its messages, in their order. -/
  payloads : ∀ κ, s.mailbox.delivered κ = s.handled.filterMap (payloadFor κ)

/-- Being done with a message that is not delivered. -/
theorem Exact.passOver {heap : Heap Mailbox.Name UInt8} {s t : State W} {msg : AmMsg}
    {o : Outcome} (h : Exact heap s) (hfits : o.Fits msg) (hdel : (o.delivery : Option
      (Mailbox.Event W UInt8)) = none) (hpay : ∀ κ, payloadFor κ (msg, o) = none)
    (hmailbox : t.mailbox = s.mailbox) (hlog : t.log = s.log)
    (honce : t.arrived = s.handled.map Prod.fst ++ [msg] ++ t.stream)
    (hhandled : t.handled = s.handled) : Exact heap (t.done msg o) where
  once := by
    show t.arrived = (t.handled ++ [(msg, o)]).map Prod.fst ++ [] ++ t.stream
    rw [honce, hhandled, List.map_append, List.append_nil]
    rfl
  fits := by
    show ∀ x ∈ t.handled ++ [(msg, o)], x.2.Fits x.1
    rw [hhandled]
    intro x hx
    rcases List.mem_append.mp hx with hx | hx
    · exact h.fits x hx
    · rw [List.mem_singleton.mp hx]
      exact hfits
  current := by
    rintro key m ⟨⟩
  run := by
    show runList _ _ t.log = some t.mailbox
    rw [hlog, hmailbox, h.run]
  log := by
    show deliveries t.log = (t.handled ++ [(msg, o)]).filterMap _
    rw [hlog, hhandled, List.filterMap_append, h.log]
    simp [hdel]
  payloads := by
    intro κ
    show t.mailbox.delivered κ = (t.handled ++ [(msg, o)]).filterMap _
    rw [hmailbox, hhandled, List.filterMap_append, h.payloads]
    simp [hpay]

/-- What a step of the router leaves of the payloads: a request delivers nothing. -/
theorem delivered_of_request {b b' : Mailbox.State W UInt8} {e : Mailbox.Event W UInt8}
    (he : IsRequest e) (hs : Mailbox.step b e = some b') : b'.delivered = b.delivered := by
  cases e with
  | deliver key bytes => exact he.elim
  | create key len =>
    cases hs
    rfl
  | poll f w =>
    obtain ⟨fut, -, rfl⟩ := Option.map_eq_some_iff.mp hs
    rfl
  | drop f =>
    obtain ⟨fut, -, rfl⟩ := Option.map_eq_some_iff.mp hs
    rfl

/-- One more event at the router. -/
theorem run_concat {heap : Heap Mailbox.Name UInt8} {es : List (Mailbox.Event W UInt8)}
    {b b' : Mailbox.State W UInt8} {e : Mailbox.Event W UInt8}
    (hrun : runList Mailbox.step (Mailbox.start heap) es = some b)
    (hs : Mailbox.step b e = some b') :
    runList Mailbox.step (Mailbox.start heap) (es ++ [e]) = some b' := by
  rw [runList_append, hrun, Option.bind_some, runList, hs]
  rfl

/-- A receive that is made, polled or dropped leaves the outcomes as they are. -/
theorem Exact.request {heap : Heap Mailbox.Name UInt8} {s s' : State W}
    {e : Mailbox.Event W UInt8} (h : Exact heap s) (he : IsRequest e) (hs : s.route e = some s') :
    Exact heap s' := by
  obtain ⟨b, hb, rfl⟩ := Option.map_eq_some_iff.mp hs
  refine ⟨h.once, h.fits, h.current, run_concat h.run hb, ?_, fun κ => ?_⟩
  · show deliveries (s.log ++ [e]) = _
    rw [deliveries, List.filter_append, ← deliveries, h.log]
    simp [he]
  · show b.delivered κ = _
    rw [delivered_of_request he hb, h.payloads]

/-- The data has come: the payload is delivered. -/
theorem Exact.deliver {heap : Heap Mailbox.Name UInt8} {s s' : State W} {key : RecvKey}
    {msg : AmMsg} {n : ℕ} (h : Exact heap s) (hpc : s.pc = .receiving key msg)
    (hs : s.route (.deliver key (msg.data.take n)) = some s') :
    Exact heap (s'.done msg (.delivered key (msg.data.take n))) := by
  obtain ⟨b, hb, rfl⟩ := Option.map_eq_some_iff.mp hs
  refine ⟨?_, ?_, by rintro _ _ ⟨⟩, run_concat h.run hb, ?_, fun κ => ?_⟩
  · show s.arrived = (s.handled ++ [_]).map Prod.fst ++ [] ++ s.stream
    rw [h.once, hpc, List.map_append, List.append_nil]
    rfl
  · show ∀ x ∈ s.handled ++ [_], x.2.Fits x.1
    intro x hx
    rcases List.mem_append.mp hx with hx | hx
    · exact h.fits x hx
    · rw [List.mem_singleton.mp hx]
      exact ⟨h.current key msg hpc, List.take_prefix n msg.data⟩
  · show deliveries (s.log ++ [_]) = (s.handled ++ [_]).filterMap _
    rw [deliveries, List.filter_append, ← deliveries, h.log, List.filterMap_append]
    rfl
  · show b.delivered κ = (s.handled ++ [_]).filterMap _
    rw [List.filterMap_append, ← h.payloads]
    cases hb
    show Function.update s.mailbox.delivered key _ κ = _
    by_cases hκ : key = κ
    · subst hκ
      simp [payloadFor]
    · simp [payloadFor, hκ, Function.update_of_ne (Ne.symm hκ)]

/-- A message is taken: its header is read, and it is received or passed over. -/
theorem Exact.take {heap : Heap Mailbox.Name UInt8} {s : State W} {msg : AmMsg}
    {rest : List AmMsg} (h : Exact heap s) (hpc : s.pc = .waiting)
    (hstream : s.stream = msg :: rest) :
    Exact heap (State.dispatch { s with stream := rest } msg) := by
  have honce : s.arrived = s.handled.map Prod.fst ++ [msg] ++ rest := by
    rw [h.once, hpc, hstream, List.append_assoc, List.append_assoc]
    rfl
  unfold State.dispatch
  cases hdec : AmHeader.decode msg.header with
  | ok hd =>
    refine ⟨honce, h.fits, ?_, h.run, h.log, h.payloads⟩
    rintro _ _ ⟨⟩
    exact ⟨hd, hdec, rfl⟩
  | error e => exact h.passOver hdec rfl (fun _ => rfl) rfl rfl honce rfl

/-- **Every step keeps the account** of the messages. -/
theorem Exact.step {heap : Heap Mailbox.Name UInt8} {s s' : State W} {e : Event W}
    (h : Exact heap s) (hs : step s e = some s') : Exact heap s' := by
  cases e with
  | arrive msg =>
    obtain ⟨-, hs⟩ := Option.ite_none_left_eq_some.mp hs
    obtain rfl := Option.some.inj hs
    refine ⟨?_, h.fits, h.current, h.run, h.log, h.payloads⟩
    show s.arrived ++ [msg] = _
    rw [h.once, List.append_assoc]
  | close =>
    obtain rfl := Option.some.inj hs
    exact ⟨h.once, h.fits, h.current, h.run, h.log, h.payloads⟩
  | request e =>
    obtain ⟨he, hs⟩ := Option.ite_none_right_eq_some.mp hs
    exact h.request he hs
  | take =>
    rw [Dispatcher.step] at hs
    split at hs
    · next hpc hstream =>
      obtain rfl := Option.some.inj hs
      exact h.take hpc hstream
    · cases hs
  | finish =>
    obtain ⟨⟨hpc, -⟩, hs⟩ := Option.ite_none_right_eq_some.mp hs
    obtain rfl := Option.some.inj hs
    refine ⟨?_, h.fits, by rintro _ _ ⟨⟩, h.run, h.log, h.payloads⟩
    rw [h.once, hpc]
    rfl
  | received n =>
    rw [Dispatcher.step] at hs
    split at hs
    · next key msg hpc =>
      -- the message that is being received is between those handled and those that wait
      have honce : s.arrived = s.handled.map Prod.fst ++ [msg] ++ s.stream := by
        rw [h.once, hpc]
        rfl
      cases n with
      | some n =>
        obtain ⟨-, hs⟩ := Option.ite_none_right_eq_some.mp hs
        obtain ⟨t, ht, rfl⟩ := Option.map_eq_some_iff.mp hs
        exact h.deliver hpc ht
      | none =>
        obtain rfl := Option.some.inj hs
        exact h.passOver (h.current key msg hpc) rfl (fun _ => rfl) rfl rfl honce rfl
    · cases hs

theorem exact_start (heap : Heap Mailbox.Name UInt8) : Exact heap (start heap : State W) where
  once := rfl
  fits := by simp [start]
  current := by simp [start]
  run := rfl
  log := rfl
  payloads := fun _ => rfl

/-- **The dispatcher refines the mailbox.** In every interleaving of the dispatcher, the stream
and the receives, each message that has arrived waits in the stream, is being received, or has
exactly one outcome that fits it, in the order of arrival, and the router has gone through a run
of the mailbox whose deliveries are those outcomes. -/
theorem dispatcher_exact (heap : Heap Mailbox.Name UInt8) (es : List (Event W)) :
    Always step (Exact heap) (start heap) es :=
  always_of_invariant (fun _ h => h) (fun _ _ _ h _ hs => h.step hs) (exact_start heap)
    (eachStep_true es)

/-! ### The law of a key, on the wire -/

/-- What an event does at the router. -/
def State.routed (s : State W) : Event W → Option (Mailbox.Event W UInt8)
  | .request e => some e
  | .received (some n) => match s.pc with
    | .receiving key msg => some (.deliver key (msg.data.take n))
    | _ => none
  | _ => none

/-- At most one receive is outstanding on the key. -/
def OneOutstanding (κ : RecvKey) (s : State W) (e : Event W) : Prop :=
  ∀ r ∈ s.routed e, Mailbox.OneOutstanding κ s.mailbox r

/-- When the data of a message for the key has come, no more payloads for the key were
delivered than receives were posted. -/
def InTime (κ : RecvKey) (s : State W) (e : Event W) : Prop :=
  ∀ r ∈ s.routed e, Mailbox.Arrives κ s.mailbox r

/-- **The law of a key, on the wire**: the `k`-th receive gets the data of the `k`-th message
for the key whose data has come. -/
structure Law (κ : RecvKey) (s : State W) : Prop where
  inOrder : ∀ k g m, (s.mailbox.posted κ)[k]? = some g →
    (s.handled.filterMap (payloadFor κ))[k]? = some m → Mailbox.Got s.mailbox.node g k m
  waits : ∀ k g, (s.mailbox.posted κ)[k]? = some g →
    (s.handled.filterMap (payloadFor κ)).length ≤ k → s.mailbox.node.done g.done = false
  kept : ∀ k m, (s.handled.filterMap (payloadFor κ))[k]? = some m →
    (s.mailbox.posted κ).length ≤ k → s.mailbox.node.router.slots κ = some (.early ⟨m, k⟩)

/-- The law of the wire is that of the mailbox. -/
theorem Exact.law_iff {heap : Heap Mailbox.Name UInt8} {s : State W} {κ : RecvKey}
    (h : Exact heap s) : Law κ s ↔ Mailbox.Law κ s.mailbox := by
  constructor
  · rintro ⟨h1, h2, h3⟩
    exact ⟨by rwa [h.payloads], by rwa [h.payloads], by rwa [h.payloads]⟩
  · rintro ⟨h1, h2, h3⟩
    rw [h.payloads] at h1 h2 h3
    exact ⟨h1, h2, h3⟩

/-- **A step of the dispatcher, seen from the router**: the one it is, or none at all. -/
theorem mailbox_step {s s' : State W} {e : Event W} (hs : step s e = some s') :
    (∃ r, s.routed e = some r ∧ Mailbox.step s.mailbox r = some s'.mailbox) ∨
      (s.routed e = none ∧ s'.mailbox = s.mailbox) := by
  cases e with
  | arrive msg =>
    obtain ⟨-, hs⟩ := Option.ite_none_left_eq_some.mp hs
    obtain rfl := Option.some.inj hs
    exact .inr ⟨rfl, rfl⟩
  | close =>
    obtain rfl := Option.some.inj hs
    exact .inr ⟨rfl, rfl⟩
  | request e =>
    obtain ⟨-, hs⟩ := Option.ite_none_right_eq_some.mp hs
    obtain ⟨b, hb, rfl⟩ := Option.map_eq_some_iff.mp hs
    exact .inl ⟨e, rfl, hb⟩
  | take =>
    rw [step] at hs
    split at hs
    · obtain rfl := Option.some.inj hs
      refine .inr ⟨rfl, ?_⟩
      unfold State.dispatch
      split <;> rfl
    · cases hs
  | finish =>
    obtain ⟨-, hs⟩ := Option.ite_none_right_eq_some.mp hs
    obtain rfl := Option.some.inj hs
    exact .inr ⟨rfl, rfl⟩
  | received n =>
    rw [step] at hs
    split at hs
    · next key msg hpc =>
      cases n with
      | some n =>
        obtain ⟨-, hs⟩ := Option.ite_none_right_eq_some.mp hs
        obtain ⟨t, ht, rfl⟩ := Option.map_eq_some_iff.mp hs
        obtain ⟨b, hb, rfl⟩ := Option.map_eq_some_iff.mp ht
        exact .inl ⟨_, by rw [State.routed, hpc], hb⟩
      | none =>
        obtain rfl := Option.some.inj hs
        exact .inr ⟨rfl, rfl⟩
    · cases hs

/-- **The law of the wire, and its exact condition.** In an interleaving with at most one
outstanding receive on the key, the receives of the key get the data of its messages in the
order in which these arrived, in every state, if and only if the data of each of them has come
when no more payloads of the key were delivered than receives were posted. -/
theorem dispatcher_law (κ : RecvKey) (heap : Heap Mailbox.Name UInt8) (es : List (Event W))
    (hone : EachStep step (OneOutstanding κ) (start heap) es) :
    Always step (Law κ) (start heap) es ↔ EachStep step (InTime κ) (start heap) es := by
  have hlaw : ∀ s : State W, Exact heap s ∧ Mailbox.Inv κ s.mailbox → Law κ s :=
    fun s h => h.1.law_iff.mpr h.2.law
  refine always_iff_eachStep hlaw ?_ ?_ ⟨exact_start heap, Mailbox.inv_start κ heap⟩ hone
  · rintro s e s' ⟨hexact, hinv⟩ hone hin hs
    refine ⟨hexact.step hs, ?_⟩
    rcases mailbox_step hs with ⟨r, hr, hb⟩ | ⟨-, hb⟩
    · exact hinv.step (hone r hr) (hin r hr) hb
    · rw [hb]
      exact hinv
  · rintro s e s' ⟨hexact, hinv⟩ - hin hs hlaw'
    obtain ⟨r, hr, hnot⟩ : ∃ r, s.routed e = some r ∧ ¬Mailbox.Arrives κ s.mailbox r := by
      simpa [InTime] using hin
    rcases mailbox_step hs with ⟨r', hr', hb⟩ | ⟨hnone, -⟩
    · obtain rfl := Option.some.inj (hr.symm.trans hr')
      exact hinv.deliver_too_soon hnot hb ((hexact.step hs).law_iff.mp hlaw')
    · rw [hr] at hnone
      cases hnone

/-- A message that is no message of the collectives, and one whose receive is posted while its
data is on the way. -/
theorem dispatcher_law_posted_late :
    Always step (Law ⟨1, 0, 0, 0⟩) (start fun _ _ => 0)
      [.arrive ⟨[1], []⟩, .arrive ⟨[1, 0, 0, 0, 0, 0, 0, 0], [7, 8]⟩, .take, .take,
        .request (.create ⟨1, 0, 0, 0⟩ 2), .request (.poll (⟨1, 0, 0, 0⟩, 0) ()),
        .received (some 2)] := by
  refine (dispatcher_law _ _ _ ?_).mpr ?_
  · rintro _ ⟨⟩
    refine ⟨by rintro _ ⟨⟩, ?_⟩
    rintro _ ⟨⟩
    refine ⟨by rintro _ ⟨⟩, ?_⟩
    rintro _ ⟨⟩
    refine ⟨by rintro _ ⟨⟩, ?_⟩
    rintro _ ⟨⟩
    refine ⟨by rintro _ ⟨⟩, ?_⟩
    rintro _ ⟨⟩
    refine ⟨by rintro _ ⟨⟩; trivial, ?_⟩
    rintro _ ⟨⟩
    refine ⟨?_, ?_⟩
    · rintro _ ⟨⟩ _ _ _ _ g hg
      exact absurd hg List.not_mem_nil
    rintro _ ⟨⟩
    exact ⟨by rintro _ ⟨⟩; trivial, trivial⟩
  · rintro _ ⟨⟩
    refine ⟨by rintro _ ⟨⟩, ?_⟩
    rintro _ ⟨⟩
    refine ⟨by rintro _ ⟨⟩, ?_⟩
    rintro _ ⟨⟩
    refine ⟨by rintro _ ⟨⟩, ?_⟩
    rintro _ ⟨⟩
    refine ⟨by rintro _ ⟨⟩, ?_⟩
    rintro _ ⟨⟩
    refine ⟨by rintro _ ⟨⟩; trivial, ?_⟩
    rintro _ ⟨⟩
    refine ⟨by rintro _ ⟨⟩; trivial, ?_⟩
    rintro _ ⟨⟩
    refine ⟨?_, trivial⟩
    rintro _ ⟨⟩ _
    exact Nat.zero_le _

end Dispatcher

end Pluvio
