import Mathlib.Algebra.Order.BigOperators.Group.Finset
import Mathlib.Data.Finset.Max
import Mathlib.Tactic.Push
import Pluvio.Runs
import Pluvio.Heap

/-!
# Straight-line programs over a tag-matched network

`n` ranks run straight-line programs whose instructions are the await points of a
future: `join` of one send and one receive, and then some local work. The network
is reliable and does not overtake on a wire, that is for one sender, one receiver
and one tag; apart from that anything can happen in any order
(`Pluvio.TagNet.step`). A send completes at once when it is eager and otherwise
when its message is matched, and which sends are eager is arbitrary.

Programs are in lockstep (`Pluvio.TagNet.Lockstep`) when the `k`-th send of every
rank is for the `k`-th receive of one rank. The ranks may still drift apart, and
tags may repeat. But then every run is the synchronous one seen from each rank at
its own time: a rank at instruction `k` has the memory `Pluvio.TagNet.Lockstep.sync`
gives it, which is computed by a plain recursion
(`Pluvio.TagNet.Lockstep.heap_eq_sync`), and no state but the final ones is stuck
(`Pluvio.TagNet.Lockstep.not_stuck`).

The invariant is that a wire is a function of the positions of its two ends
(`Pluvio.TagNet.Lockstep.inFlight`): it holds the messages that its sender has
issued and its receiver has not taken, in the order of the program.
-/

namespace Pluvio

namespace TagNet

/-- An await point: a send, a receive, and the local work that follows. -/
structure Instr (R τ α : Type*) where
  dst : ℕ
  tag : τ
  /-- The cells whose contents are sent. -/
  view : Slice R
  recvTag : τ
  /-- Where the message that comes is put. -/
  target : Slice R
  /-- The work between this await point and the next one. -/
  after : Heap R α → Heap R α

/-- Which of the two futures of a `join` have completed. -/
structure Await where
  sent : Bool
  received : Bool
  deriving DecidableEq

/-- A rank: the await point it is at, and its memory. -/
structure Rank (R α : Type*) where
  /-- The instruction it is at. -/
  pc : ℕ
  /-- What it waits for there, once it has been polled. -/
  await : Option Await
  heap : Heap R α

/-- A message. The label says which instruction of its sender it comes from: it is
a history variable, which no step reads except to tell whether a message is still
on its wire. -/
structure Message (α : Type*) where
  label : ℕ
  bytes : List α

/-- The ranks, and what is on the wires. -/
structure State (R τ α : Type*) where
  rank : ℕ → Rank R α
  wire : ℕ → ℕ → τ → List (Message α)

/-- What can happen to the ranks and on the wires. -/
inductive Event
  /-- Rank `p` is polled. -/
  | poll (p : ℕ)
  /-- The send of rank `p` completes. -/
  | sent (p : ℕ)
  /-- The first message from `p` under the tag that `q` waits for is matched. -/
  | recv (p q : ℕ)

/-- The ranks' programs, and the sends that complete before they are matched. -/
structure Net (R τ α : Type*) where
  size : ℕ
  prog : ℕ → List (Instr R τ α)
  eager : ℕ → ℕ → Bool

variable {R τ α : Type*}

/-- Every rank at its first instruction. -/
def start (heap : ℕ → Heap R α) : State R τ α where
  rank := fun p => ⟨0, none, heap p⟩
  wire := fun _ _ _ => []

/-- Every rank has run its program to the end. -/
def Final (net : Net R τ α) (s : State R τ α) : Prop :=
  ∀ p < net.size, (s.rank p).pc = (net.prog p).length

/-- The instruction a rank is at, if it is not at its end. -/
def Net.current (net : Net R τ α) (s : State R τ α) (p : ℕ) : Option (Instr R τ α) :=
  if p < net.size then (net.prog p)[(s.rank p).pc]? else none

section Step

variable [DecidableEq R] [DecidableEq τ]

/-- The state with other messages on one wire. -/
def State.setWire (s : State R τ α) (p q : ℕ) (t : τ) (ms : List (Message α)) :
    ℕ → ℕ → τ → List (Message α) :=
  fun p' q' t' => if p' = p ∧ q' = q ∧ t' = t then ms else s.wire p' q' t'

/-- The state after an event, if it can happen. -/
def step (net : Net R τ α) (s : State R τ α) : Event → Option (State R τ α)
  | .poll p => (net.current s p).bind fun i =>
    match (s.rank p).await with
    -- the first poll issues the send; a later one goes on when both parts have completed
    | none => some
      { rank := Function.update s.rank p { s.rank p with await := some ⟨false, false⟩ }
        wire := s.setWire p i.dst i.tag
          (s.wire p i.dst i.tag ++ [⟨(s.rank p).pc, (s.rank p).heap.read i.view⟩]) }
    | some ⟨true, true⟩ => some
      { s with
        rank := Function.update s.rank p ⟨(s.rank p).pc + 1, none, i.after (s.rank p).heap⟩ }
    | some _ => none
  | .sent p => (net.current s p).bind fun i =>
    match (s.rank p).await with
    | some ⟨false, received⟩ =>
      if net.eager p (s.rank p).pc = true ∨
          ∀ m ∈ s.wire p i.dst i.tag, m.label ≠ (s.rank p).pc then
        some { s with
          rank := Function.update s.rank p { s.rank p with await := some ⟨true, received⟩ } }
      else none
    | _ => none
  | .recv p q => (net.current s q).bind fun i =>
    match (s.rank q).await, s.wire p q i.recvTag with
    | some ⟨sent, false⟩, m :: ms => some
      { rank := Function.update s.rank q { s.rank q with
          await := some ⟨sent, true⟩
          heap := (s.rank q).heap.copyInto i.target m.bytes }
        wire := s.setWire p q i.recvTag ms }
    | _, _ => none

end Step

/-- Ranks without a program do nothing. -/
theorem stuck_of_nil [DecidableEq R] [DecidableEq τ] {net : Net R τ α}
    (hnil : ∀ p < net.size, net.prog p = []) (s : State R τ α) : Stuck (step net) s := by
  have hcurrent : ∀ p, net.current s p = none := fun p => by
    rw [Net.current]
    split
    · next hp => rw [hnil p hp, List.getElem?_nil]
    · rfl
  intro e
  cases e <;> simp only [step, hcurrent, Option.bind_none]

/-- And they are at their end from the start. -/
theorem final_start_of_nil {net : Net R τ α} (hnil : ∀ p < net.size, net.prog p = [])
    (heap : ℕ → Heap R α) : Final net (start heap) :=
  fun p hp => by rw [hnil p hp]; rfl

/-- **Programs in lockstep**: the `k`-th send of every rank is for the `k`-th
receive of one rank, and of no other rank does that receive take a message. -/
structure Lockstep (n : ℕ) (prog : ℕ → List (Instr R τ α)) where
  len : ℕ
  instr : ℕ → ℕ → Instr R τ α
  prog_eq : ∀ p < n, prog p = (List.range len).map (instr p)
  /-- The rank whose `k`-th send is for this one. -/
  src : ℕ → ℕ → ℕ
  src_lt : ∀ q < n, ∀ k < len, src q k < n
  dst_src : ∀ q < n, ∀ k < len, (instr (src q k) k).dst = q
  tag_src : ∀ q < n, ∀ k < len, (instr (src q k) k).tag = (instr q k).recvTag
  dst_lt : ∀ p < n, ∀ k < len, (instr p k).dst < n
  src_dst : ∀ p < n, ∀ k < len, src (instr p k).dst k = p
  /-- Whoever sends under the tag that a receive waits for is its source. -/
  unambiguous : ∀ p < n, ∀ k < len, ∀ q < n, ∀ l < len, (instr p k).dst = q →
    (instr p k).tag = (instr q l).recvTag → p = src q l

/-- How many sends the rank has issued. -/
def Rank.issued (r : Rank R α) : ℕ := r.pc + if r.await.isSome then 1 else 0

/-- How many messages the rank has taken. -/
def Rank.taken (r : Rank R α) : ℕ :=
  r.pc + if (r.await.map Await.received) = some true then 1 else 0

namespace Lockstep

variable [DecidableEq R] [DecidableEq τ] {n : ℕ} {prog : ℕ → List (Instr R τ α)}
  (L : Lockstep n prog) (heap : ℕ → Heap R α)

/-- **The synchronous run**: the memory of each rank before its `k`-th
instruction, when all ranks run in step. -/
def sync : ℕ → ℕ → Heap R α
  | 0, p => heap p
  | k + 1, p => (L.instr p k).after ((sync k p).copyInto (L.instr p k).target
      ((sync k (L.src p k)).read (L.instr (L.src p k) k).view))

/-- What rank `p` sends with its `k`-th instruction. -/
def payload (p k : ℕ) : List α := (L.sync heap k p).read (L.instr p k).view

/-- The memory of rank `p` once its `k`-th receive has completed. -/
def filled (k p : ℕ) : Heap R α :=
  (L.sync heap k p).copyInto (L.instr p k).target (L.payload heap (L.src p k) k)

/-- The messages between two positions of the ends of a wire: issued by `p` and
not taken by `q`. -/
def inFlight (issued taken p q : ℕ) (t : τ) : List (Message α) :=
  ((List.range' taken (issued - taken)).filter fun k =>
    (L.instr p k).dst = q ∧ (L.instr p k).tag = t).map fun k => ⟨k, L.payload heap p k⟩

/-- **The invariant of a run**: every rank has the memory of the synchronous run,
and every wire is given by the positions of its ends. -/
structure Inv (s : State R τ α) : Prop where
  issued_le : ∀ p < n, (s.rank p).issued ≤ L.len
  taken_lt : ∀ q < n, ∀ k < (s.rank q).taken, k < (s.rank (L.src q k)).issued
  heap_eq : ∀ p < n, (s.rank p).heap =
    if (s.rank p).taken = (s.rank p).pc then L.sync heap (s.rank p).pc p
    else L.filled heap (s.rank p).pc p
  wire_eq : ∀ p < n, ∀ q < n, ∀ t,
    s.wire p q t = L.inFlight heap (s.rank p).issued (s.rank q).taken p q t
  wire_nil : ∀ p q t, n ≤ p → s.wire p q t = []

variable {L heap}

/-- One more send: it is the last message of its wire. -/
theorem inFlight_succ {i u p q : ℕ} {t : τ} (hu : u ≤ i) :
    L.inFlight heap (i + 1) u p q t = L.inFlight heap i u p q t ++
      if (L.instr p i).dst = q ∧ (L.instr p i).tag = t then [⟨i, L.payload heap p i⟩] else [] := by
  have hlen : i + 1 - u = (i - u) + 1 := by omega
  have hend : u + (i - u) = i := by omega
  rw [inFlight, hlen, List.range'_1_concat, hend, List.filter_append, List.map_append]
  by_cases h : (L.instr p i).dst = q ∧ (L.instr p i).tag = t
  · simp [h, inFlight]
  · simp [h, inFlight]

/-- The first message of a wire, if it is the next one. -/
theorem inFlight_of_lt {i u p q : ℕ} {t : τ} (hu : u < i) :
    L.inFlight heap i u p q t =
      (if (L.instr p u).dst = q ∧ (L.instr p u).tag = t then [⟨u, L.payload heap p u⟩] else []) ++
        L.inFlight heap i (u + 1) p q t := by
  have hlen : i - u = (i - (u + 1)) + 1 := by omega
  rw [inFlight, hlen, List.range'_succ]
  by_cases h : (L.instr p u).dst = q ∧ (L.instr p u).tag = t
  · simp [h, inFlight]
  · simp [h, inFlight]

/-- A wire whose receiver is ahead is empty. -/
theorem inFlight_of_le {i u p q : ℕ} {t : τ} (hu : i ≤ u) : L.inFlight heap i u p q t = [] := by
  rw [inFlight, Nat.sub_eq_zero_of_le hu]
  rfl

/-- **A rank that starts an await point** puts its message at the end of the wire. -/
theorem Inv.issue {s s' : State R τ α} {p : ℕ} (h : Inv L heap s) (hp : p < n)
    (hk : (s.rank p).pc < L.len) (hawait : (s.rank p).await = none)
    (hrank : s'.rank = Function.update s.rank p { s.rank p with await := some ⟨false, false⟩ })
    (hwire : s'.wire = s.setWire p (L.instr p (s.rank p).pc).dst (L.instr p (s.rank p).pc).tag
      (s.wire p (L.instr p (s.rank p).pc).dst (L.instr p (s.rank p).pc).tag ++
        [⟨(s.rank p).pc, (s.rank p).heap.read (L.instr p (s.rank p).pc).view⟩])) :
    Inv L heap s' := by
  have hissued : (s.rank p).issued = (s.rank p).pc := by simp [Rank.issued, hawait]
  have htaken : (s.rank p).taken = (s.rank p).pc := by simp [Rank.taken, hawait]
  have hself : s'.rank p = { s.rank p with await := some ⟨false, false⟩ } := by
    rw [hrank, Function.update_self]
  have hissued' : (s'.rank p).issued = (s.rank p).pc + 1 := by simp [Rank.issued, hself]
  have htaken' : (s'.rank p).taken = (s.rank p).pc := by simp [Rank.taken, hself]
  have hne : ∀ q, q ≠ p → s'.rank q = s.rank q := fun q hq => by
    rw [hrank, Function.update_of_ne hq]
  have hpay : (s.rank p).heap.read (L.instr p (s.rank p).pc).view =
      L.payload heap p (s.rank p).pc := by
    rw [h.heap_eq p hp, if_pos htaken, payload]
  have htakenEq : ∀ q, (s'.rank q).taken = (s.rank q).taken := by
    intro q
    rcases eq_or_ne q p with rfl | hq
    · rw [htaken', htaken]
    · rw [hne q hq]
  constructor
  · intro q hq
    rcases eq_or_ne q p with rfl | hqp
    · omega
    · rw [hne q hqp]
      exact h.issued_le q hq
  · intro q hq k hk'
    rw [htakenEq q] at hk'
    have hlt := h.taken_lt q hq k hk'
    rcases eq_or_ne (L.src q k) p with hsrc | hsrc
    · rw [hsrc] at hlt ⊢
      omega
    · rwa [hne _ hsrc]
  · intro q hq
    rcases eq_or_ne q p with rfl | hqp
    · rw [htaken', hself, if_pos rfl, h.heap_eq q hq, if_pos htaken]
    · rw [hne q hqp]
      exact h.heap_eq q hq
  · intro p' hp' q hq t
    rw [hwire, htakenEq q]
    rcases eq_or_ne p' p with rfl | hpp
    · rw [hissued']
      -- the message is not taken yet: its receiver cannot be ahead
      by_cases hu : (s.rank q).taken ≤ (s.rank p').pc
      · rw [inFlight_succ hu, State.setWire, hpay]
        have hold := h.wire_eq p' hp q hq t
        rw [hissued] at hold
        by_cases hc : (L.instr p' (s.rank p').pc).dst = q ∧ (L.instr p' (s.rank p').pc).tag = t
        · obtain ⟨rfl, rfl⟩ := hc
          rw [if_pos ⟨rfl, rfl, rfl⟩, if_pos ⟨rfl, rfl⟩, hold]
        · rw [if_neg fun hc' => hc ⟨hc'.2.1.symm, hc'.2.2.symm⟩, if_neg hc, hold, List.append_nil]
      · have hd : (L.instr p' (s.rank p').pc).dst ≠ q := by
          rintro rfl
          have := h.taken_lt _ hq (s.rank p').pc (by omega)
          rw [L.src_dst p' hp _ hk] at this
          omega
        rw [State.setWire, if_neg fun hc => hd hc.2.1.symm, h.wire_eq p' hp q hq t,
          inFlight_of_le (by omega), inFlight_of_le (by omega)]
    · rw [hne p' hpp, State.setWire, if_neg fun hc => hpp hc.1]
      exact h.wire_eq p' hp' q hq t
  · intro p' q t hp'
    rw [hwire, State.setWire, if_neg fun hc => by omega]
    exact h.wire_nil p' q t hp'

/-- **A rank that leaves an await point** has the memory of the synchronous run at
the next one. -/
theorem Inv.advance {s s' : State R τ α} {p : ℕ} (h : Inv L heap s) (hp : p < n)
    (hk : (s.rank p).pc < L.len) (hawait : (s.rank p).await = some ⟨true, true⟩)
    (hrank : s'.rank = Function.update s.rank p
      ⟨(s.rank p).pc + 1, none, (L.instr p (s.rank p).pc).after (s.rank p).heap⟩)
    (hwire : s'.wire = s.wire) : Inv L heap s' := by
  have hself : s'.rank p =
      ⟨(s.rank p).pc + 1, none, (L.instr p (s.rank p).pc).after (s.rank p).heap⟩ := by
    rw [hrank, Function.update_self]
  have hne : ∀ q, q ≠ p → s'.rank q = s.rank q := fun q hq => by
    rw [hrank, Function.update_of_ne hq]
  have hissued : ∀ q, (s'.rank q).issued = (s.rank q).issued := by
    intro q
    rcases eq_or_ne q p with rfl | hq
    · simp [Rank.issued, hself, hawait]
    · rw [hne q hq]
  have htaken : ∀ q, (s'.rank q).taken = (s.rank q).taken := by
    intro q
    rcases eq_or_ne q p with rfl | hq
    · simp [Rank.taken, hself, hawait]
    · rw [hne q hq]
  refine ⟨fun q hq => ?_, fun q hq k hk' => ?_, fun q hq => ?_, fun p' hp' q hq t => ?_,
    fun p' q t hp' => ?_⟩
  · rw [hissued]
    exact h.issued_le q hq
  · rw [hissued]
    rw [htaken] at hk'
    exact h.taken_lt q hq k hk'
  · rcases eq_or_ne q p with rfl | hqp
    · -- the memory was that of the filled step, and what is computed of it is the next one
      have hheap := h.heap_eq q hp
      rw [if_neg (by simp [Rank.taken, hawait])] at hheap
      rw [hself, if_pos (by simp [Rank.taken])]
      show (L.instr q (s.rank q).pc).after (s.rank q).heap = L.sync heap ((s.rank q).pc + 1) q
      rw [hheap]
      rfl
    · rw [hne q hqp]
      exact h.heap_eq q hq
  · rw [hwire, hissued, htaken]
    exact h.wire_eq p' hp' q hq t
  · rw [hwire]
    exact h.wire_nil p' q t hp'

/-- **The message at the head of a wire its receiver waits on** is the one that
receive is for. -/
theorem Inv.head {s : State R τ α} {p q : ℕ} {m : Message α} {ms : List (Message α)}
    (h : Inv L heap s) (hq : q < n) (hk : (s.rank q).pc < L.len)
    (htaken : (s.rank q).taken = (s.rank q).pc)
    (hw : s.wire p q (L.instr q (s.rank q).pc).recvTag = m :: ms) :
    p < n ∧ p = L.src q (s.rank q).pc ∧ (s.rank q).pc < (s.rank p).issued ∧
      m = ⟨(s.rank q).pc, L.payload heap p (s.rank q).pc⟩ ∧
      ms = L.inFlight heap (s.rank p).issued ((s.rank q).pc + 1) p q
        (L.instr q (s.rank q).pc).recvTag := by
  have hp : p < n := by
    by_contra hp
    rw [h.wire_nil p q _ (by omega)] at hw
    cases hw
  have hwire := h.wire_eq p hp q hq (L.instr q (s.rank q).pc).recvTag
  rw [hw, htaken] at hwire
  -- some message of the wire is for this tag, so its sender is the source
  have hsrc : p = L.src q (s.rank q).pc ∧ (s.rank q).pc < (s.rank p).issued := by
    have hmem : m ∈ L.inFlight heap (s.rank p).issued (s.rank q).pc p q
        (L.instr q (s.rank q).pc).recvTag := by
      rw [← hwire]
      exact List.mem_cons_self
    obtain ⟨k, hkmem, -⟩ := List.mem_map.mp hmem
    obtain ⟨hrange, hcond⟩ := List.mem_filter.mp hkmem
    obtain ⟨hd, ht⟩ := of_decide_eq_true hcond
    have hbound := List.mem_range'_1.mp hrange
    have := h.issued_le p hp
    exact ⟨L.unambiguous p hp k (by omega) q hq _ hk hd ht, by omega⟩
  obtain ⟨hsrc, hlt⟩ := hsrc
  rw [inFlight_of_lt hlt, if_pos ⟨by rw [hsrc]; exact L.dst_src q hq _ hk,
    by rw [hsrc]; exact L.tag_src q hq _ hk⟩] at hwire
  rw [List.singleton_append, List.cons.injEq] at hwire
  exact ⟨hp, hsrc, hlt, hwire.1, hwire.2⟩

/-- **A rank that takes the message it waits for** has the memory of the
synchronous run. -/
theorem Inv.take {s s' : State R τ α} {p q : ℕ} {sent : Bool} {m : Message α}
    {ms : List (Message α)} (h : Inv L heap s) (hq : q < n) (hk : (s.rank q).pc < L.len)
    (hawait : (s.rank q).await = some ⟨sent, false⟩)
    (hw : s.wire p q (L.instr q (s.rank q).pc).recvTag = m :: ms)
    (hrank : s'.rank = Function.update s.rank q { s.rank q with
      await := some ⟨sent, true⟩
      heap := (s.rank q).heap.copyInto (L.instr q (s.rank q).pc).target m.bytes })
    (hwire : s'.wire = s.setWire p q (L.instr q (s.rank q).pc).recvTag ms) : Inv L heap s' := by
  have htaken : (s.rank q).taken = (s.rank q).pc := by simp [Rank.taken, hawait]
  obtain ⟨hp, hsrc, hlt, rfl, hms⟩ := h.head hq hk htaken hw
  have hself : s'.rank q = { s.rank q with
      await := some ⟨sent, true⟩
      heap := (s.rank q).heap.copyInto (L.instr q (s.rank q).pc).target
        (L.payload heap p (s.rank q).pc) } := by
    rw [hrank, Function.update_self]
  have hne : ∀ r, r ≠ q → s'.rank r = s.rank r := fun r hr => by
    rw [hrank, Function.update_of_ne hr]
  have hissued : ∀ r, (s'.rank r).issued = (s.rank r).issued := by
    intro r
    rcases eq_or_ne r q with rfl | hr
    · simp [Rank.issued, hself, hawait]
    · rw [hne r hr]
  have htaken' : (s'.rank q).taken = (s.rank q).pc + 1 := by simp [Rank.taken, hself]
  constructor
  · intro r hr
    rw [hissued]
    exact h.issued_le r hr
  · intro r hr k hk'
    rw [hissued]
    rcases eq_or_ne r q with rfl | hrq
    · rw [htaken'] at hk'
      -- the message that is taken has been issued
      rcases Nat.lt_succ_iff_lt_or_eq.mp hk' with hk' | rfl
      · exact h.taken_lt r hr k (by rwa [htaken])
      · rwa [← hsrc]
    · rw [hne r hrq] at hk'
      exact h.taken_lt r hr k hk'
  · intro r hr
    rcases eq_or_ne r q with rfl | hrq
    · -- the step is not at its end, but the memory is that of a filled one
      have hheap := h.heap_eq r hr
      rw [if_pos htaken] at hheap
      rw [if_neg (by rw [htaken', hself]; simp), hself, filled, ← hsrc, ← hheap]
    · rw [hne r hrq]
      exact h.heap_eq r hr
  · intro p' hp' r hr t
    rw [hwire, hissued]
    rcases eq_or_ne r q with rfl | hrq
    · rw [htaken', State.setWire]
      by_cases hc : p' = p ∧ t = (L.instr r (s.rank r).pc).recvTag
      · obtain ⟨rfl, rfl⟩ := hc
        rw [if_pos ⟨rfl, rfl, rfl⟩, hms]
      · -- the message that was taken is on no other wire
        rw [if_neg fun hc' => hc ⟨hc'.1, hc'.2.2⟩, h.wire_eq p' hp' r hr t, htaken]
        rcases Nat.lt_or_ge (s.rank r).pc (s.rank p').issued with hlt' | hge
        · rw [inFlight_of_lt hlt', if_neg, List.nil_append]
          rintro ⟨hd, rfl⟩
          have hp'' : p' = p := by rw [← L.src_dst p' hp' _ hk, hd, ← hsrc]
          subst hp''
          exact hc ⟨rfl, by rw [← L.tag_src r hr _ hk, ← hsrc]⟩
        · rw [inFlight_of_le hge, inFlight_of_le (by omega)]
    · rw [hne r hrq, State.setWire, if_neg fun hc => hrq hc.2.1]
      exact h.wire_eq p' hp' r hr t
  · intro p' r t hp'
    rw [hwire, State.setWire, if_neg fun hc => by omega]
    exact h.wire_nil p' r t hp'

/-- **A send that completes** changes nothing else. -/
theorem Inv.sent {s s' : State R τ α} {p : ℕ} {received : Bool} (h : Inv L heap s)
    (hawait : (s.rank p).await = some ⟨false, received⟩)
    (hrank : s'.rank = Function.update s.rank p { s.rank p with await := some ⟨true, received⟩ })
    (hwire : s'.wire = s.wire) : Inv L heap s' := by
  have hself : s'.rank p = { s.rank p with await := some ⟨true, received⟩ } := by
    rw [hrank, Function.update_self]
  have hsame : ∀ q, (s'.rank q).pc = (s.rank q).pc ∧ (s'.rank q).heap = (s.rank q).heap ∧
      (s'.rank q).issued = (s.rank q).issued ∧ (s'.rank q).taken = (s.rank q).taken := by
    intro q
    rcases eq_or_ne q p with rfl | hq
    · simp [Rank.issued, Rank.taken, hself, hawait]
    · rw [hrank, Function.update_of_ne hq]
      exact ⟨rfl, rfl, rfl, rfl⟩
  refine ⟨fun q hq => ?_, fun q hq k hk' => ?_, fun q hq => ?_, fun p' hp' q hq t => ?_,
    fun p' q t hp' => ?_⟩
  · rw [(hsame q).2.2.1]
    exact h.issued_le q hq
  · rw [(hsame _).2.2.1]
    rw [(hsame q).2.2.2] at hk'
    exact h.taken_lt q hq k hk'
  · rw [(hsame q).1, (hsame q).2.1, (hsame q).2.2.2]
    exact h.heap_eq q hq
  · rw [hwire, (hsame _).2.2.1, (hsame q).2.2.2]
    exact h.wire_eq p' hp' q hq t
  · rw [hwire]
    exact h.wire_nil p' q t hp'

variable {eager : ℕ → ℕ → Bool}

omit [DecidableEq R] [DecidableEq τ] in
theorem current_eq_some (L : Lockstep n prog) {s : State R τ α} {p : ℕ} {i : Instr R τ α} :
    (⟨n, prog, eager⟩ : Net R τ α).current s p = some i ↔
      p < n ∧ (s.rank p).pc < L.len ∧ i = L.instr p (s.rank p).pc := by
  unfold Net.current
  by_cases hp : p < n
  · rw [if_pos hp]
    show (prog p)[(s.rank p).pc]? = some i ↔ _
    rw [L.prog_eq p hp, List.getElem?_map]
    rcases Nat.lt_or_ge (s.rank p).pc L.len with hk | hk
    · rw [List.getElem?_range hk]
      exact ⟨fun h => ⟨hp, hk, (Option.some.inj h).symm⟩, fun h => congrArg some h.2.2.symm⟩
    · rw [List.getElem?_eq_none (by rwa [List.length_range])]
      exact ⟨fun h => (by cases h), fun h => absurd h.2.1 (Nat.not_lt.mpr hk)⟩
  · rw [if_neg hp]
    exact ⟨fun h => (by cases h), fun h => absurd h.1 hp⟩

/-- A rank is polled at its await point for the first time. -/
theorem step_poll (L : Lockstep n prog) {s : State R τ α} {p : ℕ} (hp : p < n)
    (hk : (s.rank p).pc < L.len) (hawait : (s.rank p).await = none) :
    TagNet.step ⟨n, prog, eager⟩ s (.poll p) = some
      { rank := Function.update s.rank p { s.rank p with await := some ⟨false, false⟩ }
        wire := s.setWire p (L.instr p (s.rank p).pc).dst (L.instr p (s.rank p).pc).tag
          (s.wire p (L.instr p (s.rank p).pc).dst (L.instr p (s.rank p).pc).tag ++
            [⟨(s.rank p).pc, (s.rank p).heap.read (L.instr p (s.rank p).pc).view⟩]) } := by
  rw [TagNet.step, L.current_eq_some.mpr ⟨hp, hk, rfl⟩, Option.bind_some, hawait]

/-- A rank whose `join` is complete goes on. -/
theorem step_proceed (L : Lockstep n prog) {s : State R τ α} {p : ℕ} (hp : p < n)
    (hk : (s.rank p).pc < L.len) (hawait : (s.rank p).await = some ⟨true, true⟩) :
    TagNet.step ⟨n, prog, eager⟩ s (.poll p) = some { s with
      rank := Function.update s.rank p
        ⟨(s.rank p).pc + 1, none, (L.instr p (s.rank p).pc).after (s.rank p).heap⟩ } := by
  rw [TagNet.step, L.current_eq_some.mpr ⟨hp, hk, rfl⟩, Option.bind_some, hawait]

/-- A send completes at once. -/
theorem step_sent_eager (L : Lockstep n prog) {s : State R τ α} {p : ℕ} {received : Bool}
    (hp : p < n) (hk : (s.rank p).pc < L.len) (hawait : (s.rank p).await = some ⟨false, received⟩)
    (heager : eager p (s.rank p).pc = true) :
    TagNet.step ⟨n, prog, eager⟩ s (.sent p) = some { s with
      rank := Function.update s.rank p { s.rank p with await := some ⟨true, received⟩ } } := by
  rw [TagNet.step, L.current_eq_some.mpr ⟨hp, hk, rfl⟩, Option.bind_some, hawait]
  exact if_pos (.inl heager)

/-- A rank takes the message it waits for. -/
theorem step_recv (L : Lockstep n prog) {s : State R τ α} {p q : ℕ} {sent : Bool} {m : Message α}
    {ms : List (Message α)} (hq : q < n) (hk : (s.rank q).pc < L.len)
    (hawait : (s.rank q).await = some ⟨sent, false⟩)
    (hw : s.wire p q (L.instr q (s.rank q).pc).recvTag = m :: ms) :
    TagNet.step ⟨n, prog, eager⟩ s (.recv p q) = some
      { rank := Function.update s.rank q { s.rank q with
          await := some ⟨sent, true⟩
          heap := (s.rank q).heap.copyInto (L.instr q (s.rank q).pc).target m.bytes }
        wire := s.setWire p q (L.instr q (s.rank q).pc).recvTag ms } := by
  rw [TagNet.step, L.current_eq_some.mpr ⟨hq, hk, rfl⟩, Option.bind_some, hawait, hw]

/-- **Every step keeps the invariant.** -/
theorem Inv.step {s s' : State R τ α} {e : Event} (h : Inv L heap s)
    (hs : step ⟨n, prog, eager⟩ s e = some s') : Inv L heap s' := by
  rcases e with p | p | ⟨p, q⟩ <;> obtain ⟨i, hi, hs⟩ := Option.bind_eq_some_iff.mp hs <;>
    obtain ⟨hp, hk, rfl⟩ := L.current_eq_some.mp hi
  · split at hs
    · next hawait =>
      cases hs
      exact h.issue hp hk hawait rfl rfl
    · next hawait =>
      cases hs
      exact h.advance hp hk hawait rfl rfl
    · cases hs
  · split at hs
    · next received hawait =>
      split at hs
      · cases hs
        exact h.sent hawait rfl rfl
      · cases hs
    · cases hs
  · split at hs
    · next sent m ms hawait hw =>
      cases hs
      exact h.take hp hk hawait hw rfl rfl
    · cases hs

theorem inv_start : Inv L heap (start heap) where
  issued_le := fun _ _ => Nat.zero_le _
  taken_lt := fun _ _ _ hk => absurd hk (Nat.not_lt_zero _)
  heap_eq := fun _ _ => rfl
  wire_eq := fun _ _ _ _ _ => rfl
  wire_nil := fun _ _ _ _ => rfl

/-- **Every run is the synchronous one, seen from each rank at its own time.** -/
theorem inv_of_reaches {s : State R τ α}
    (h : Reaches (TagNet.step ⟨n, prog, eager⟩) (start heap) s) : Inv L heap s :=
  h.invariant inv_start fun _ _ _ hi _ => hi.step

/-- **A rank at an await point** has the memory of the synchronous run. -/
theorem heap_eq_sync {s : State R τ α}
    (h : Reaches (TagNet.step ⟨n, prog, eager⟩) (start heap) s) {p : ℕ} (hp : p < n)
    (hawait : (s.rank p).await = none) : (s.rank p).heap = L.sync heap (s.rank p).pc p := by
  rw [(inv_of_reaches h).heap_eq p hp, if_pos (by simp [Rank.taken, hawait])]

/-! ### No state but the final ones is stuck -/

/-- Some event is enabled. -/
def Enabled (net : Net R τ α) (s : State R τ α) : Prop := ∃ e, (TagNet.step net s e).isSome

/-- A rank that has not been polled at its await point can be. -/
theorem enabled_of_not_issued (L : Lockstep n prog) {s : State R τ α} {p : ℕ} (hp : p < n)
    (hk : (s.rank p).pc < L.len)
    (hawait : (s.rank p).await = none) : Enabled ⟨n, prog, eager⟩ s :=
  ⟨.poll p, Option.isSome_iff_exists.mpr ⟨_, L.step_poll hp hk hawait⟩⟩

/-- A rank whose `join` is complete can go on. -/
theorem enabled_of_complete (L : Lockstep n prog) {s : State R τ α} {p : ℕ} (hp : p < n)
    (hk : (s.rank p).pc < L.len)
    (hawait : (s.rank p).await = some ⟨true, true⟩) : Enabled ⟨n, prog, eager⟩ s :=
  ⟨.poll p, Option.isSome_iff_exists.mpr ⟨_, L.step_proceed hp hk hawait⟩⟩

/-- A rank whose message has been issued can take it. -/
theorem Inv.enabled_of_issued {s : State R τ α} (h : Inv L heap s) {q : ℕ} {sent : Bool}
    (hq : q < n) (hk : (s.rank q).pc < L.len) (hawait : (s.rank q).await = some ⟨sent, false⟩)
    (hlt : (s.rank q).pc < (s.rank (L.src q (s.rank q).pc)).issued) :
    Enabled ⟨n, prog, eager⟩ s := by
  have hwire := h.wire_eq _ (L.src_lt q hq _ hk) q hq (L.instr q (s.rank q).pc).recvTag
  rw [show (s.rank q).taken = (s.rank q).pc by simp [Rank.taken, hawait], inFlight_of_lt hlt,
    if_pos ⟨L.dst_src q hq _ hk, L.tag_src q hq _ hk⟩] at hwire
  exact ⟨.recv (L.src q (s.rank q).pc) q,
    Option.isSome_iff_exists.mpr ⟨_, L.step_recv hq hk hawait hwire⟩⟩

/-- **The rank that is furthest behind** can wait for nothing but an event that is
enabled: of its own, of the rank that sends to it, or of the rank it sends to. -/
theorem Inv.enabled {s : State R τ α} (h : Inv L heap s) {p : ℕ} (hp : p < n)
    (hk : (s.rank p).pc < L.len) (hmin : ∀ q < n, (s.rank p).pc ≤ (s.rank q).pc) :
    Enabled ⟨n, prog, eager⟩ s := by
  rcases hawait : (s.rank p).await with - | ⟨sent, received⟩
  · exact enabled_of_not_issued L hp hk hawait
  rcases Bool.eq_false_or_eq_true received with rfl | rfl
  · rcases Bool.eq_false_or_eq_true sent with rfl | rfl
    · exact enabled_of_complete L hp hk hawait
    -- its message has been matched, or its receiver has not taken it yet
    have hissued : (s.rank p).issued = (s.rank p).pc + 1 := by simp [Rank.issued, hawait]
    have hd := L.dst_lt p hp _ hk
    have hsrc := L.src_dst p hp _ hk
    generalize hdst : (L.instr p (s.rank p).pc).dst = q at hd hsrc
    by_cases hw : ∀ m ∈ s.wire p q (L.instr p (s.rank p).pc).tag, m.label ≠ (s.rank p).pc
    · refine ⟨.sent p, ?_⟩
      rw [TagNet.step, L.current_eq_some.mpr ⟨hp, hk, rfl⟩, Option.bind_some, hawait, hdst]
      exact Option.isSome_iff_exists.mpr ⟨_, if_pos (.inr hw)⟩
    · have htaken : (s.rank q).taken ≤ (s.rank p).pc := by
        push Not at hw
        obtain ⟨m, hm, hlabel⟩ := hw
        rw [h.wire_eq p hp q hd] at hm
        obtain ⟨k, hkm, rfl⟩ := List.mem_map.mp hm
        exact hlabel ▸ (List.mem_range'_1.mp (List.mem_filter.mp hkm).1).1
      have hpc : (s.rank q).pc = (s.rank p).pc :=
        Nat.le_antisymm (Nat.le_trans (Nat.le_add_right _ _) htaken) (hmin q hd)
      rcases hq : (s.rank q).await with - | ⟨sent, received⟩
      · exact enabled_of_not_issued L hd (by omega) hq
      · obtain rfl : received = false := by
          by_contra hr
          simp [Rank.taken, hq, Bool.eq_true_of_not_eq_false hr] at htaken
          omega
        refine h.enabled_of_issued hd (by omega) hq ?_
        rw [hpc, hsrc]
        omega
  · -- its message has been issued, or its source has not come to it yet
    have hs := L.src_lt p hp _ hk
    rcases Nat.lt_or_ge (s.rank p).pc (s.rank (L.src p (s.rank p).pc)).issued with hlt | hge
    · exact h.enabled_of_issued hp hk hawait hlt
    · have := hmin _ hs
      refine enabled_of_not_issued L hs ?_ ?_
      · simp only [Rank.issued] at hge
        omega
      · by_contra hne
        rw [Rank.issued, if_pos (Option.isSome_iff_ne_none.mpr hne)] at hge
        omega

/-- **No state but the final ones is stuck.** -/
theorem not_stuck (L : Lockstep n prog) {s : State R τ α}
    (h : Reaches (TagNet.step ⟨n, prog, eager⟩) (start heap) s) (hf : ¬Final ⟨n, prog, eager⟩ s) :
    ¬Stuck (TagNet.step ⟨n, prog, eager⟩) s := by
  have hinv : Inv L heap s := inv_of_reaches h
  unfold Final at hf
  push Not at hf
  obtain ⟨p₀, hp₀, hne⟩ := hf
  obtain ⟨p, hp, hmin⟩ := Finset.exists_min_image (Finset.range n) (fun p => (s.rank p).pc)
    ⟨p₀, Finset.mem_range.mpr hp₀⟩
  have hmin' : ∀ q < n, (s.rank p).pc ≤ (s.rank q).pc :=
    fun q hq => hmin q (Finset.mem_range.mpr hq)
  have hk : (s.rank p).pc < L.len := by
    have h₀ := hinv.issued_le p₀ hp₀
    have hle := hmin' p₀ hp₀
    have hlen : (prog p₀).length = L.len := by
      rw [L.prog_eq p₀ hp₀, List.length_map, List.length_range]
    replace hne : (s.rank p₀).pc ≠ (prog p₀).length := hne
    simp only [Rank.issued] at h₀
    omega
  obtain ⟨e, hs⟩ := hinv.enabled (Finset.mem_range.mp hp) hk hmin'
  intro hstuck
  rw [hstuck e] at hs
  cases hs

/-! ### Runs end -/

/-- What is left of a rank's program: four events for each instruction. -/
def rankWork (L : Lockstep n prog) (r : Rank R α) : ℕ :=
  4 * (L.len - r.pc) - match r.await with
    | none => 0
    | some a => 1 + a.sent.toNat + a.received.toNat

/-- What is left of a run. -/
def work (L : Lockstep n prog) (s : State R τ α) : ℕ :=
  ∑ p ∈ Finset.range n, L.rankWork (s.rank p)

omit [DecidableEq R] [DecidableEq τ] in
/-- A rank that does less has less to do. -/
theorem work_update_lt (L : Lockstep n prog) {s s' : State R τ α} {p : ℕ} {r : Rank R α}
    (hp : p < n) (hrank : s'.rank = Function.update s.rank p r)
    (hlt : L.rankWork r < L.rankWork (s.rank p)) : L.work s' < L.work s := by
  refine Finset.sum_lt_sum (fun q _ => ?_) ⟨p, Finset.mem_range.mpr hp, ?_⟩
  · rcases eq_or_ne q p with rfl | hq
    · rw [hrank, Function.update_self]
      exact hlt.le
    · rw [hrank, Function.update_of_ne hq]
  · rw [hrank, Function.update_self]
    exact hlt

/-- **Every step does some of the work.** -/
theorem work_lt (L : Lockstep n prog) {s s' : State R τ α} {e : Event}
    (hs : TagNet.step ⟨n, prog, eager⟩ s e = some s') : L.work s' < L.work s := by
  rcases e with p | p | ⟨p, q⟩ <;> obtain ⟨i, hi, hs⟩ := Option.bind_eq_some_iff.mp hs <;>
    obtain ⟨hp, hk, rfl⟩ := L.current_eq_some.mp hi
  · split at hs
    · next hawait =>
      cases hs
      refine L.work_update_lt hp rfl ?_
      simp only [rankWork, hawait, Bool.toNat_false]
      omega
    · next hawait =>
      cases hs
      refine L.work_update_lt hp rfl ?_
      simp only [rankWork, hawait, Bool.toNat_true]
      omega
    · cases hs
  · split at hs
    · next received hawait =>
      split at hs
      · cases hs
        refine L.work_update_lt hp rfl ?_
        have hle := Bool.toNat_le received
        simp only [rankWork, hawait, Bool.toNat_true, Bool.toNat_false]
        omega
      · cases hs
    · cases hs
  · split at hs
    · next sent m ms hawait hw =>
      cases hs
      refine L.work_update_lt hp rfl ?_
      have hle := Bool.toNat_le sent
      simp only [rankWork, hawait, Bool.toNat_true, Bool.toNat_false]
      omega
    · cases hs

/-- **Every run ends with all ranks at their ends.** -/
theorem terminates (L : Lockstep n prog) (heap : ℕ → Heap R α) :
    Terminates (TagNet.step ⟨n, prog, eager⟩) (Final ⟨n, prog, eager⟩)
      (start heap : State R τ α) where
  bounded := ⟨_, fun _ _ hrun => length_le_of_measure (P := fun _ => True)
    (fun _ _ _ _ hs => ⟨trivial, L.work_lt hs⟩) trivial hrun⟩
  good s hs hstuck := by
    by_contra hf
    exact L.not_stuck hs hf hstuck

end Lockstep

end TagNet

end Pluvio
