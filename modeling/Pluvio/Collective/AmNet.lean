import Pluvio.Runs
import Pluvio.Collective.AmRouter

/-!
# Ranks over active messages

`n` ranks run the collectives that use active messages. A rank goes through stages
one after the other: a stage is one call, or one phase of a pipelined call. In a
stage it runs chains, which are straight lines of await points
(`Pluvio.AmNet.Instr`): sends that are issued together, at most one receive, and
the local work that follows. No more chains are in flight than the window of the
stage allows, as in the loop that feeds a `FuturesUnordered`.

Messages from one rank to another are delivered in the order they were sent. The
dispatcher of the receiver hands each of them to its router
(`Pluvio.Node.deliver`), whatever the rank is doing, and a receive takes it from
there (`Pluvio.RecvFuture.poll`). A send completes at once when it is eager and
otherwise when its message has been delivered; which sends are eager is arbitrary.
Everything else happens in any order.

The origin of a payload is the stage it was sent in. The name of a receive, which
stands for its `done` cell, is the stage, the chain and the position it is polled
at.
-/

namespace Pluvio

namespace AmNet

/-- `am_send` to an endpoint. -/
structure Send (R : Type*) where
  dst : ℕ
  header : AmHeader
  /-- The cells whose contents are sent. -/
  view : Slice R

/-- The key a message is delivered under. -/
def Send.key {R : Type*} (sd : Send R) : RecvKey := .ofHeader sd.header

/-- What a chain does up to an await point: its sends, its receive, and the local work after
them. -/
structure Instr (R α : Type*) where
  sends : List (Send R)
  /-- The key of the receive, and where its message is put. -/
  recv : Option (RecvKey × Slice R)
  /-- The work between this await point and the next one. -/
  after : Heap R α → Heap R α

/-- A stage: the chains that are run, and how many of them at a time. -/
structure Stage (R α : Type*) where
  window : ℕ
  chains : List (List (Instr R α))

/-- The name of a receive: its stage, its chain and its position there. -/
abbrev Name := ℕ × ℕ × ℕ

/-- What a chain waits for. -/
structure Await (R : Type*) where
  /-- The sends that have not completed, by their numbers. -/
  sending : List ℕ
  recv : Option (RecvFuture R Name)

/-- Where a chain is: at an await point that it may have started. -/
structure Chain (R : Type*) where
  pc : ℕ
  await : Option (Await R)

/-- A rank: the stage it is in, the window of its chains, and its node. -/
structure Rank (R α : Type*) where
  stage : ℕ
  /-- How many chains of the stage have been pushed. -/
  launched : ℕ
  /-- How many of them have returned. -/
  reaped : ℕ
  chain : ℕ → Chain R
  /-- Its memory and its router. A waker is the chain it wakes. -/
  node : Node R Name ℕ α ℕ

/-- A message on its way. The header is read off the wire as it was written
(`Pluvio.AmHeader.decode_encode`). -/
structure Message (α : Type*) where
  header : AmHeader
  payload : Payload α ℕ

/-- The key a message is delivered under. -/
def Message.key {α : Type*} (msg : Message α) : RecvKey := .ofHeader msg.header

/-- The ranks, and the messages between each two of them. -/
structure State (R α : Type*) where
  rank : ℕ → Rank R α
  chan : ℕ → ℕ → List (Message α)

/-- What can happen to the ranks and to the channels. -/
inductive Event
  /-- Rank `p` pushes its next chain. -/
  | launch (p : ℕ)
  /-- Chain `m` of rank `p` is polled. -/
  | poll (p m : ℕ)
  /-- Send `j` of chain `m` of rank `p` completes. -/
  | sent (p m j : ℕ)
  /-- The dispatcher of `q` delivers the next message from `p`. -/
  | deliver (p q : ℕ)
  /-- Rank `p` leaves its stage. -/
  | advance (p : ℕ)

/-- The ranks' programs, and the sends that complete before they are delivered. -/
structure Net (R α : Type*) where
  size : ℕ
  prog : ℕ → List (Stage R α)
  eager : ℕ → Name → ℕ → Bool

variable {R α : Type*}

/-- A chain that has not been polled. -/
def Chain.new : Chain R := ⟨0, none⟩

/-- Every rank at its first stage. -/
def start (heap : ℕ → Heap R α) : State R α where
  rank := fun p => ⟨0, 0, 0, fun _ => .new, ⟨.new, heap p, fun _ => false, fun _ => none⟩⟩
  chan := fun _ _ => []

/-- Every rank has run its program to the end. -/
def Final (net : Net R α) (s : State R α) : Prop :=
  ∀ p < net.size, (s.rank p).stage = (net.prog p).length

/-- The stage a rank is in, if it is not at its end. -/
def Net.stage (net : Net R α) (s : State R α) (p : ℕ) : Option (Stage R α) :=
  if p < net.size then (net.prog p)[(s.rank p).stage]? else none

/-- The chains in flight. -/
def Rank.inFlight (r : Rank R α) : ℕ := r.launched - r.reaped

/-- The rank waits for a chain to return: the window is full, or all chains have
been pushed. -/
def Rank.Pumping (r : Rank R α) (st : Stage R α) : Prop :=
  r.launched = st.chains.length ∨ r.inFlight = st.window

instance (r : Rank R α) (st : Stage R α) : Decidable (r.Pumping st) :=
  inferInstanceAs (Decidable (_ ∨ _))

/-- The await point chain `m` of rank `p` is at, with its chain and its stage. -/
def Net.current (net : Net R α) (s : State R α) (p m : ℕ) :
    Option (Stage R α × List (Instr R α) × Instr R α) :=
  (net.stage s p).bind fun st => (st.chains[m]?).bind fun chain =>
    (chain[((s.rank p).chain m).pc]?).map fun i => (st, chain, i)

/-- The message a send puts on its channel. -/
def Send.message (sd : Send R) (r : Rank R α) : Message α :=
  ⟨sd.header, r.node.heap.read sd.view, r.stage⟩

/-- The message of a send of the current stage of rank `p` has been delivered. -/
def State.OffChannel (s : State R α) (p : ℕ) (sd : Send R) : Prop :=
  ∀ msg ∈ s.chan p sd.dst, msg.header = sd.header → msg.payload.origin ≠ (s.rank p).stage

instance (s : State R α) (p : ℕ) (sd : Send R) : Decidable (s.OffChannel p sd) :=
  inferInstanceAs (Decidable (∀ msg ∈ _, _))

/-- The rank after a step of one of its chains. -/
def Rank.setChain (r : Rank R α) (m : ℕ) (c : Chain R) : Rank R α :=
  { r with chain := Function.update r.chain m c }

section Step

variable [DecidableEq R]

/-- The first poll of the receive of an await point. -/
def Rank.pollRecv (r : Rank R α) (m : ℕ) (i : Instr R α) :
    Option (RecvFuture R Name) × Node R Name ℕ α ℕ :=
  match i.recv with
  | none => (none, r.node)
  | some (key, target) =>
    let polled := (RecvFuture.new key (r.stage, m, (r.chain m).pc) target).poll r.node m
    (some polled.2.1, polled.2.2)

/-- The `join` of an await point is complete. -/
def Await.Complete (a : Await R) (node : Node R Name ℕ α ℕ) (m : ℕ) : Prop :=
  a.sending = [] ∧ ∀ fut ∈ a.recv, (fut.poll node m).1 = .ready

instance (a : Await R) (node : Node R Name ℕ α ℕ) (m : ℕ) : Decidable (a.Complete node m) :=
  inferInstanceAs (Decidable (_ ∧ _))

/-- The first poll of an await point: the sends are issued, and the receive is
polled. -/
def State.issue (s : State R α) (p m : ℕ) (i : Instr R α) : State R α :=
  let r := s.rank p
  let polled := r.pollRecv m i
  let await : Await R := ⟨List.range i.sends.length, polled.1⟩
  { rank := Function.update s.rank p
      { r.setChain m ⟨(r.chain m).pc, some await⟩ with node := polled.2 }
    chan := fun p' q => if p' = p then
        s.chan p q ++ (i.sends.filter fun sd => sd.dst = q).map fun sd => sd.message r
      else s.chan p' q }

/-- The poll that finds the `join` complete: the local work, up to the next await
point or the end of the chain, of length `len`. -/
def State.proceed (s : State R α) (p m : ℕ) (i : Instr R α) (len : ℕ) : State R α :=
  let r := s.rank p
  { s with
    rank := Function.update s.rank p
      { r.setChain m ⟨(r.chain m).pc + 1, none⟩ with
        reaped := r.reaped + if (r.chain m).pc + 1 = len then 1 else 0
        node := { r.node with heap := i.after r.node.heap } } }

/-- The state after an event, if it can happen. -/
def step (net : Net R α) (s : State R α) : Event → Option (State R α)
  | .launch p => (net.stage s p).bind fun st =>
    if (s.rank p).launched < st.chains.length ∧ (s.rank p).inFlight < st.window then
      some { s with
        rank := Function.update s.rank p { s.rank p with launched := (s.rank p).launched + 1 } }
    else none
  | .poll p m => (net.current s p m).bind fun (st, c, i) =>
    if m < (s.rank p).launched ∧ (s.rank p).Pumping st then
      match ((s.rank p).chain m).await with
      | none => some (s.issue p m i)
      | some a => if a.Complete (s.rank p).node m then some (s.proceed p m i c.length) else none
    else none
  | .sent p m j => (net.current s p m).bind fun (_, _, i) =>
    -- an eager send may complete at once, another one when its message has been received
    match ((s.rank p).chain m).await, i.sends[j]? with
    | some a, some sd =>
      if j ∈ a.sending ∧ (net.eager p ((s.rank p).stage, m, ((s.rank p).chain m).pc) j = true ∨
          s.OffChannel p sd) then
        some { s with
          rank := Function.update s.rank p ((s.rank p).setChain m
            ⟨((s.rank p).chain m).pc, some { a with sending := a.sending.erase j }⟩) }
      else none
    | _, _ => none
  | .deliver p q =>
    match s.chan p q with
    | [] => none
    | msg :: rest => some
      { rank := Function.update s.rank q
          { s.rank q with node := ((s.rank q).node.deliver msg.key msg.payload).1 }
        chan := fun p' q' => if p' = p ∧ q' = q then rest else s.chan p' q' }
  | .advance p => (net.stage s p).bind fun st =>
    -- all chains of the stage have been launched and reaped
    if (s.rank p).launched = st.chains.length ∧ (s.rank p).reaped = st.chains.length then
      some { s with
        rank := Function.update s.rank p
          ⟨(s.rank p).stage + 1, 0, 0, fun _ => .new, (s.rank p).node⟩ }
    else none

/-- Ranks without a program do nothing. -/
theorem stuck_start_of_nil {net : Net R α} (hnil : ∀ p < net.size, net.prog p = [])
    (heap : ℕ → Heap R α) : Stuck (step net) (start heap) := by
  have hstage : ∀ p, net.stage (start heap) p = none := fun p => by
    rw [Net.stage]
    split
    · next hp => rw [hnil p hp, List.getElem?_nil]
    · rfl
  intro e
  cases e with
  | deliver p q => rfl
  | _ => simp only [step, Net.current, hstage, Option.bind_none]

end Step

/-- And they are at their end from the start. -/
theorem final_start_of_nil {net : Net R α} (hnil : ∀ p < net.size, net.prog p = [])
    (heap : ℕ → Heap R α) : Final net (start heap) :=
  fun p hp => by rw [hnil p hp]; rfl

end AmNet

end Pluvio
