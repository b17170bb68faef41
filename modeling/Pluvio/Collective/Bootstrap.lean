import Mathlib.Algebra.BigOperators.Group.Finset.Piecewise
import Mathlib.Algebra.Order.BigOperators.Group.Finset
import Mathlib.Order.Interval.Finset.Nat
import Pluvio.Framing
import Pluvio.Runs
import Pluvio.Collective.Communicator

/-!
# The exchange of addresses

Before there are endpoints the ranks exchange their worker addresses over TCP: every
rank but `0` connects to rank `0` and sends its rank and its address, rank `0`
accepts the connections one after the other, in the order they come in, and then
sends the whole table down each of them.

A connection is two streams of bytes. What is written is on its way, and arrives in
pieces of any size (`Pluvio.Bootstrap.Event.up`, `Pluvio.Bootstrap.Event.down`); a
`read_exact` waits until its bytes are there. Rank `0` reads the greeting of a
connection to its end before it accepts the next one, so the order of the
connections is an order in which cells of the table are filled, and each greeting
names its cell.
-/

namespace Pluvio

namespace Bootstrap

open Framing

/-! ### Messages -/

/-- `write_u32_len_prefixed`: the bytes written. -/
def writeU32LenPrefixed (buf : List UInt8) : List UInt8 := toLeBytes 4 buf.length ++ buf

/-- `read_u32_len_prefixed`. -/
def readU32LenPrefixed : Reader (List UInt8) :=
  (readExact 4).bind fun lenBuf => readExact (fromLeBytes lenBuf)

/-- What a rank sends when it is connected. -/
def greeting (rank : ℕ) (myAddr : List UInt8) : List UInt8 :=
  toLeBytes 4 rank ++ writeU32LenPrefixed myAddr

/-- What rank `0` reads from a connection it accepted: the rank and the address. -/
def readGreeting : Reader (ℕ × List UInt8) :=
  (readExact 4).bind fun hdr => readU32LenPrefixed.bind fun peerAddr =>
    .pure (fromLeBytes hdr, peerAddr)

/-- What rank `0` sends to a rank in the end. -/
def broadcast (size : ℕ) (addresses : List (List UInt8)) : List UInt8 :=
  toLeBytes 4 size ++ addresses.flatMap writeU32LenPrefixed

/-- What a rank makes of the bytes it receives. -/
def readBroadcast (size : ℕ) : Reader (Except CollectiveError (List (List UInt8))) :=
  (readExact 4).bind fun countBuf =>
    if fromLeBytes countBuf ≠ size then .pure (.error (.protocol "bootstrap: size mismatch"))
    else (readTimes readU32LenPrefixed (fromLeBytes countBuf)).bind fun addresses =>
      .pure (.ok addresses)

section Messages

variable {buf : List UInt8} {rank size : ℕ} {addresses : List (List UInt8)}

/-- **A frame decodes to its contents**, which may be empty. -/
theorem reads_lenPrefixed (h : buf.length < 2 ^ 32) :
    Reads readU32LenPrefixed (writeU32LenPrefixed buf) buf := by
  have hlen : fromLeBytes (toLeBytes 4 buf.length) = buf.length := fromLeBytes_toLeBytes h
  have hhead := reads_readExact (toLeBytes 4 buf.length)
  rw [length_toLeBytes] at hhead
  refine hhead.bind ?_
  rw [hlen]
  exact reads_readExact buf

theorem reads_greeting (hrank : rank < 2 ^ 32) (h : buf.length < 2 ^ 32) :
    Reads readGreeting (greeting rank buf) (rank, buf) := by
  have hhead := reads_readExact (toLeBytes 4 rank)
  rw [length_toLeBytes] at hhead
  have hrest := Reads.bind (f := fun a => .pure (rank, a)) (reads_lenPrefixed h) (reads_pure _)
  rw [List.append_nil] at hrest
  refine hhead.bind ?_
  rw [fromLeBytes_toLeBytes (k := 4) hrank]
  exact hrest

/-- **A list of addresses decodes to the list.** -/
theorem reads_broadcast (hsize : addresses.length < 2 ^ 32)
    (h : ∀ a ∈ addresses, a.length < 2 ^ 32) :
    Reads (readBroadcast addresses.length) (broadcast addresses.length addresses)
      (.ok addresses) := by
  have hhead := reads_readExact (toLeBytes 4 addresses.length)
  rw [length_toLeBytes] at hhead
  have hcount : fromLeBytes (toLeBytes 4 addresses.length) = addresses.length :=
    fromLeBytes_toLeBytes hsize
  refine hhead.bind ?_
  rw [hcount, if_neg (not_not.mpr rfl)]
  have hrest := Reads.bind
    (f := fun l => .pure (Except.ok l : Except CollectiveError (List (List UInt8))))
    (reads_readTimes fun a ha => reads_lenPrefixed (h a ha)) (reads_pure _)
  rw [List.append_nil] at hrest
  exact hrest

theorem stable_lenPrefixed : Stable readU32LenPrefixed :=
  (stable_readExact 4).bind fun _ => stable_readExact _

theorem stable_greeting : Stable readGreeting :=
  (stable_readExact 4).bind fun _ => stable_lenPrefixed.bind fun _ => stable_pure _

theorem stable_broadcast (size : ℕ) : Stable (readBroadcast size) := by
  refine (stable_readExact 4).bind fun countBuf => ?_
  split
  · exact stable_pure _
  · exact (stable_lenPrefixed.readTimes _).bind fun _ => stable_pure _

end Messages

/-! ### The ranks -/

/-- One direction of a connection. -/
structure Stream where
  /-- Written and on the way. -/
  pending : List UInt8
  /-- Bytes that have arrived and have not been read. -/
  arrived : List UInt8

namespace Stream

def empty : Stream := ⟨[], []⟩

/-- `write_all`. -/
def write (s : Stream) (bytes : List UInt8) : Stream := { s with pending := s.pending ++ bytes }

/-- The next `k` bytes arrive. -/
def flow (s : Stream) (k : ℕ) : Stream :=
  ⟨s.pending.drop k, s.arrived ++ s.pending.take k⟩

end Stream

/-- Where rank `0` is. -/
inductive Root
  /-- In the first loop, with so many connections to go. -/
  | accepting (left : ℕ)
  /-- In the second loop, at this rank. -/
  | sending (rank : ℕ)
  | returned
  /-- An index out of bounds, or `missing connection`. -/
  | panicked
  deriving DecidableEq

/-- Where a rank other than `0` is. -/
inductive Peer
  | idle
  /-- Connected and greeted; it waits for the table. -/
  | waiting
  | returned (result : Except CollectiveError (List (List UInt8)))

/-- All ranks. A connection goes by the rank that made it. -/
structure Net where
  root : Root
  addresses : List (List UInt8)
  /-- `conns`: the connection of each rank that gave its number. -/
  conns : ℕ → Option ℕ
  /-- The connections that were made and not accepted, the first one first. -/
  queue : List ℕ
  peer : ℕ → Peer
  /-- The bytes from a rank to rank `0`. -/
  up : ℕ → Stream
  /-- The bytes from rank `0` to a rank. -/
  down : ℕ → Stream

/-- What happens next: a rank goes on, or bytes arrive. -/
inductive Event
  /-- A rank connects to rank `0` and writes its greeting. -/
  | connect (rank : ℕ)
  /-- Bytes arrive at rank `0`. -/
  | up (rank k : ℕ)
  /-- Bytes arrive at a rank. -/
  | down (rank k : ℕ)
  /-- Rank `0` goes on. -/
  | root
  /-- A rank reads the table. -/
  | receive (rank : ℕ)

section Machine

variable (size : ℕ) (addr : ℕ → List UInt8)

/-- The start: rank `0` listens. -/
def start : Net where
  root := .accepting (size - 1)
  addresses := (List.replicate size []).set 0 (addr 0)
  conns := fun _ => none
  queue := []
  peer := fun _ => .idle
  up := fun _ => .empty
  down := fun _ => .empty

/-- Rank `0` goes on: an iteration of one of its loops, or the step between them. -/
def rootStep (s : Net) : Option Net :=
  match s.root, s.queue with
  | .accepting 0, _ => some { s with root := .sending 1 }
  | .accepting (_ + 1), [] => none
  | .accepting (left + 1), conn :: queue =>
    (readGreeting (s.up conn).arrived).map fun ((peerRank, peerAddr), rest) =>
      -- the rank is what the peer says it is, and an index into the table
      if peerRank < s.addresses.length then { s with
        root := .accepting left
        addresses := s.addresses.set peerRank peerAddr
        conns := Function.update s.conns peerRank (some conn)
        queue := queue
        up := Function.update s.up conn { s.up conn with arrived := rest } }
      else { s with root := .panicked }
  | .sending rank, _ =>
    if rank < size then some <| match s.conns rank with
      | some conn => { s with
          root := .sending (rank + 1)
          -- the connection is removed from the map, and closed when all has been written
          conns := Function.update s.conns rank none
          down := Function.update s.down conn
            ((s.down conn).write (broadcast size s.addresses)) }
      | none => { s with root := .panicked }
    else some { s with root := .returned }
  | .returned, _ => none
  | .panicked, _ => none

/-- The net after an event, if it can happen. -/
def step (s : Net) : Event → Option Net
  | .connect rank => match s.peer rank with
    | .idle => if 0 < rank ∧ rank < size then some { s with
        peer := Function.update s.peer rank .waiting
        queue := s.queue ++ [rank]
        up := Function.update s.up rank ((s.up rank).write (greeting rank (addr rank))) }
      else none
    | _ => none
  | .up rank k => if 0 < k ∧ k ≤ (s.up rank).pending.length then
      some { s with up := Function.update s.up rank ((s.up rank).flow k) } else none
  | .down rank k => if 0 < k ∧ k ≤ (s.down rank).pending.length then
      some { s with down := Function.update s.down rank ((s.down rank).flow k) } else none
  | .root => rootStep size s
  | .receive rank => match s.peer rank with
    | .waiting => (readBroadcast size (s.down rank).arrived).map fun (result, rest) => { s with
        peer := Function.update s.peer rank (.returned result)
        down := Function.update s.down rank { s.down rank with arrived := rest } }
    | _ => none

/-- The table of the addresses. -/
def table : List (List UInt8) := (List.range size).map addr

/-- Every rank has returned the table. -/
def Exchanged (s : Net) : Prop :=
  s.root = .returned ∧ s.addresses = table size addr ∧
    ∀ r, 0 < r → r < size → s.peer r = .returned (.ok (table size addr))

end Machine

/-! ### The invariant -/

/-- Rank `0` has sent the table to the ranks below this one. -/
def Net.sentTo (size : ℕ) (s : Net) : ℕ :=
  match s.root with
  | .accepting _ => 1
  | .sending rank => rank
  | .returned => size
  | .panicked => size

/-- The connections rank `0` has still to accept. -/
def Net.left (s : Net) : ℕ :=
  match s.root with
  | .accepting left => left
  | _ => 0

/-- The state in which the connections of `acc` have been accepted. -/
structure Boot (size : ℕ) (addr : ℕ → List UInt8) (s : Net) (acc : List ℕ) : Prop where
  nodup : (acc ++ s.queue).Nodup
  ranks : ∀ r, r ∈ acc ++ s.queue ↔ 0 < r ∧ r < size ∧ s.peer r ≠ .idle
  addresses : s.addresses =
    (List.range size).map fun r => if r = 0 ∨ r ∈ acc then addr r else []
  notPanicked : s.root ≠ .panicked
  count : acc.length + s.left = size - 1
  sent : 1 ≤ s.sentTo size ∧ s.sentTo size ≤ size
  conns : ∀ r, s.conns r = if r ∈ acc ∧ s.sentTo size ≤ r then some r else none
  up : ∀ r ∈ s.queue, (s.up r).arrived ++ (s.up r).pending = greeting r (addr r)
  upIdle : ∀ r, s.peer r = .idle → s.up r = .empty
  down : ∀ r ∈ acc, r < s.sentTo size → s.peer r = .waiting →
    (s.down r).arrived ++ (s.down r).pending = broadcast size (table size addr)
  downEmpty : ∀ r, ¬(r ∈ acc ∧ r < s.sentTo size) → s.down r = .empty
  peer : ∀ r result, s.peer r = .returned result → result = .ok (table size addr)
  outside : ∀ r, size ≤ r → s.peer r = .idle

theorem Stream.flow_bytes (s : Stream) (k : ℕ) :
    (s.flow k).arrived ++ (s.flow k).pending = s.arrived ++ s.pending := by
  rw [flow, List.append_assoc, List.take_append_drop]

section Boot

variable {size : ℕ} {addr : ℕ → List UInt8} {s s' : Net} {acc : List ℕ}

theorem boot_start (hsize : 1 ≤ size) : Boot size addr (start size addr) [] where
  nodup := List.nodup_nil
  ranks := by simp [start]
  addresses := by
    refine List.ext_getElem? fun r => ?_
    rw [start, List.getElem?_set, List.getElem?_map, List.length_replicate]
    rcases Nat.lt_or_ge r size with hlt | hge
    · rw [List.getElem?_range hlt, List.getElem?_replicate_of_lt hlt]
      rcases Nat.eq_zero_or_pos r with rfl | hpos
      · simp [hlt]
      · simp [hpos.ne, hpos.ne']
    · rw [List.getElem?_eq_none (l := List.range size) (by rwa [List.length_range]),
        List.getElem?_eq_none (l := List.replicate size []) (by rwa [List.length_replicate])]
      simp [show ¬0 = r by omega]
  notPanicked := nofun
  count := Nat.zero_add _
  sent := ⟨le_rfl, hsize⟩
  conns := by simp [start]
  up := by simp [start]
  upIdle := fun _ _ => rfl
  down := by simp
  downEmpty := fun _ _ => rfl
  peer := nofun
  outside := fun _ _ => rfl

/-- **A connection** goes to the end of the queue. -/
theorem Boot.connect (h : Boot size addr s acc) {rank : ℕ} (hidle : s.peer rank = .idle)
    (hrank : 0 < rank ∧ rank < size) :
    Boot size addr { s with
      peer := Function.update s.peer rank .waiting
      queue := s.queue ++ [rank]
      up := Function.update s.up rank ((s.up rank).write (greeting rank (addr rank))) } acc := by
  have hnew : rank ∉ acc ++ s.queue := fun hc => ((h.ranks rank).mp hc).2.2 hidle
  have hacc : rank ∉ acc := fun hc => hnew (List.mem_append_left _ hc)
  refine ⟨?_, fun r => ?_, h.addresses, h.notPanicked, h.count, h.sent, h.conns, fun r hr => ?_,
    fun r hr => ?_, fun r hr hlt hw => ?_, h.downEmpty, fun r result hr => ?_, fun r hr => ?_⟩
  · rw [← List.append_assoc]
    exact h.nodup.append (List.nodup_singleton _) (by simpa using hnew)
  · rw [← List.append_assoc, List.mem_append, h.ranks, List.mem_singleton]
    rcases eq_or_ne r rank with rfl | hne
    · simp [hrank]
    · simp [hne]
  · dsimp only at hr ⊢
    rcases eq_or_ne r rank with rfl | hne
    · rw [Function.update_self, h.upIdle r hidle]
      rfl
    · rw [Function.update_of_ne hne]
      exact h.up r ((List.mem_append.mp hr).resolve_right (by simpa using hne))
  · dsimp only at hr ⊢
    rcases eq_or_ne r rank with rfl | hne
    · rw [Function.update_self] at hr
      cases hr
    · rw [Function.update_of_ne hne] at hr ⊢
      exact h.upIdle r hr
  · have hne : r ≠ rank := fun hc => hacc (hc ▸ hr)
    dsimp only at hw
    rw [Function.update_of_ne hne] at hw
    exact h.down r hr hlt hw
  · dsimp only at hr
    rcases eq_or_ne r rank with rfl | hne
    · rw [Function.update_self] at hr
      cases hr
    · rw [Function.update_of_ne hne] at hr
      exact h.peer r result hr
  · dsimp only
    rw [Function.update_of_ne (by omega)]
    exact h.outside r hr

/-- **Bytes arrive** at rank `0`. -/
theorem Boot.flowUp (h : Boot size addr s acc) {rank k : ℕ}
    (hk : 0 < k ∧ k ≤ (s.up rank).pending.length) :
    Boot size addr { s with up := Function.update s.up rank ((s.up rank).flow k) } acc := by
  refine ⟨h.nodup, h.ranks, h.addresses, h.notPanicked, h.count, h.sent, h.conns, fun r hr => ?_,
    fun r hr => ?_, h.down, h.downEmpty, h.peer, h.outside⟩
  · dsimp only
    rcases eq_or_ne r rank with rfl | hne
    · rw [Function.update_self, Stream.flow_bytes]
      exact h.up r hr
    · rw [Function.update_of_ne hne]
      exact h.up r hr
  · have hne : r ≠ rank := by
      rintro rfl
      rw [h.upIdle r hr, Stream.empty] at hk
      exact absurd hk.1 (by simpa using hk.2)
    dsimp only
    rw [Function.update_of_ne hne]
    exact h.upIdle r hr

/-- **Bytes arrive** at a rank. -/
theorem Boot.flowDown (h : Boot size addr s acc) {rank k : ℕ}
    (hk : 0 < k ∧ k ≤ (s.down rank).pending.length) :
    Boot size addr { s with down := Function.update s.down rank ((s.down rank).flow k) } acc := by
  refine ⟨h.nodup, h.ranks, h.addresses, h.notPanicked, h.count, h.sent, h.conns, h.up, h.upIdle,
    fun r hr hlt hw => ?_, fun r hr => ?_, h.peer, h.outside⟩
  · dsimp only
    rcases eq_or_ne r rank with rfl | hne
    · rw [Function.update_self, Stream.flow_bytes]
      exact h.down r hr hlt hw
    · rw [Function.update_of_ne hne]
      exact h.down r hr hlt hw
  · have hne : r ≠ rank := by
      rintro rfl
      rw [h.downEmpty r hr, Stream.empty] at hk
      exact absurd hk.1 (by simpa using hk.2)
    dsimp only
    rw [Function.update_of_ne hne]
    exact h.downEmpty r hr

theorem Boot.mem_acc (h : Boot size addr s acc) {r : ℕ} (hr : r ∈ acc) :
    0 < r ∧ r < size ∧ s.peer r ≠ .idle :=
  (h.ranks r).mp (List.mem_append_left _ hr)

/-- A rank that does something is a rank. -/
theorem Boot.lt_of_not_idle (h : Boot size addr s acc) {r : ℕ} (hr : s.peer r ≠ .idle) :
    r < size :=
  Nat.lt_of_not_le fun hge => hr (h.outside r hge)

/-- **After the first loop** all connections have been accepted. -/
theorem Boot.full (h : Boot size addr s acc) (hleft : s.left = 0) {r : ℕ} (hr : 0 < r)
    (hlt : r < size) : r ∈ acc := by
  have hsub : acc.toFinset ⊆ Finset.Ioo 0 size := fun q hq => by
    obtain ⟨hpos, hq, -⟩ := h.mem_acc (List.mem_toFinset.mp hq)
    exact Finset.mem_Ioo.mpr ⟨hpos, hq⟩
  have hcard : (Finset.Ioo 0 size).card ≤ acc.toFinset.card := by
    have hcount := h.count
    rw [List.toFinset_card_of_nodup (List.nodup_append.mp h.nodup).1, Nat.card_Ioo]
    omega
  exact List.mem_toFinset.mp
    (Finset.eq_of_subset_of_card_le hsub hcard ▸ Finset.mem_Ioo.mpr ⟨hr, hlt⟩)

theorem Boot.addresses_full (h : Boot size addr s acc) (hleft : s.left = 0) :
    s.addresses = table size addr := by
  rw [h.addresses, table]
  refine List.map_congr_left fun r hr => if_pos ?_
  exact (Nat.eq_zero_or_pos r).imp id fun hpos => h.full hleft hpos (List.mem_range.mp hr)

variable (hsize : size < 2 ^ 32) (haddr : ∀ r < size, (addr r).length < 2 ^ 32)

include hsize haddr

omit hsize haddr in
theorem length_table (size : ℕ) (addr : ℕ → List UInt8) : (table size addr).length = size := by
  rw [table, List.length_map, List.length_range]

/-- The table decodes to the table. -/
theorem reads_table :
    Reads (readBroadcast size) (broadcast size (table size addr)) (.ok (table size addr)) := by
  have hbytes : ∀ a ∈ table size addr, a.length < 2 ^ 32 := fun a ha => by
    obtain ⟨q, hq, rfl⟩ := List.mem_map.mp ha
    exact haddr q (List.mem_range.mp hq)
  have hreads := reads_broadcast (by rw [length_table]; exact hsize) hbytes
  rwa [length_table] at hreads

/-- What rank `0` reads from a connection is its greeting. -/
theorem Boot.greeted (h : Boot size addr s acc) {conn : ℕ} (hq : conn ∈ s.queue)
    {p : ℕ × List UInt8} {rest : List UInt8}
    (hp : readGreeting (s.up conn).arrived = some (p, rest)) :
    p = (conn, addr conn) ∧ rest = [] ∧ (s.up conn).pending = [] := by
  obtain ⟨-, hlt, -⟩ := (h.ranks conn).mp (List.mem_append_right _ hq)
  refine stable_greeting.whole (b := (conn, addr conn)) ?_ hp
  rw [h.up conn hq]
  exact reads_greeting (hlt.trans hsize) (haddr conn hlt)

/-- What a rank reads is the table. -/
theorem Boot.answered (h : Boot size addr s acc) {r : ℕ} (hw : s.peer r = .waiting)
    {p : Except CollectiveError (List (List UInt8))} {rest : List UInt8}
    (hp : readBroadcast size (s.down r).arrived = some (p, rest)) :
    p = .ok (table size addr) ∧ rest = [] ∧ (s.down r).pending = [] ∧
      r ∈ acc ∧ r < s.sentTo size := by
  have hin : r ∈ acc ∧ r < s.sentTo size := by
    by_contra hc
    rw [h.downEmpty r hc] at hp
    cases hp
  obtain ⟨hp, hrest, hpend⟩ := (stable_broadcast size).whole
    (t := (s.down r).pending) (by rw [h.down r hin.1 hin.2 hw]; exact reads_table hsize haddr) hp
  exact ⟨hp, hrest, hpend, hin⟩

omit hsize haddr

/-- **Rank `0` accepts a connection.** -/
theorem Boot.accept (h : Boot size addr s acc) {left conn : ℕ} {queue : List ℕ}
    (hroot : s.root = .accepting (left + 1)) (hq : s.queue = conn :: queue)
    (rest : List UInt8) :
    Boot size addr { s with
      root := .accepting left
      addresses := s.addresses.set conn (addr conn)
      conns := Function.update s.conns conn (some conn)
      queue := queue
      up := Function.update s.up conn { s.up conn with arrived := rest } } (acc ++ [conn]) := by
  have hmem : conn ∈ acc ++ s.queue := by rw [hq]; simp
  obtain ⟨hpos, hlt, hbusy⟩ := (h.ranks conn).mp hmem
  have hsent : s.sentTo size = 1 := by rw [Net.sentTo, hroot]
  have hlist : acc ++ [conn] ++ queue = acc ++ s.queue := by
    rw [hq, List.append_assoc, List.singleton_append]
  have hnodup := h.nodup
  rw [← hlist] at hnodup
  refine ⟨hnodup, fun r => ?_, ?_, nofun, ?_, ⟨le_rfl, show 1 ≤ size by omega⟩, fun r => ?_,
    fun r hr => ?_, fun r hr => ?_, fun r hr hr1 => ?_, fun r _ => ?_, h.peer,
    h.outside⟩
  · rw [hlist]
    exact h.ranks r
  · -- the table has one more address, at the place of the rank that has connected
    rw [h.addresses]
    refine List.ext_getElem? fun r => ?_
    rw [List.getElem?_set, List.getElem?_map, List.getElem?_map, List.length_map,
      List.length_range]
    rcases eq_or_ne conn r with rfl | hne
    · rw [if_pos rfl, if_pos hlt, List.getElem?_range hlt]
      simp
    · rw [if_neg hne]
      rcases Nat.lt_or_ge r size with hr | hr
      · rw [List.getElem?_range hr]
        simp [hne.symm]
      · rw [List.getElem?_eq_none (by rwa [List.length_range])]
        rfl
  · -- one more has been accepted, and one fewer is left
    have hcount : acc.length + (left + 1) = size - 1 := by
      simpa only [Net.left, hroot] using h.count
    rw [List.length_append, List.length_singleton]
    change acc.length + 1 + left = size - 1
    omega
  · -- the table has been sent to nobody, so whoever was accepted is still connected
    have hconns := h.conns r
    rw [hsent] at hconns
    rcases eq_or_ne r conn with rfl | hne
    · dsimp only
      rw [Function.update_self, if_pos]
      exact ⟨by simp, hpos⟩
    · dsimp only
      rw [Function.update_of_ne hne, hconns]
      simp [hne, Net.sentTo]
  · have hne : r ≠ conn := by
      rintro rfl
      exact (List.nodup_append.mp hnodup).2.2 r (by simp) r hr rfl
    dsimp only
    rw [Function.update_of_ne hne]
    exact h.up r (by rw [hq]; exact List.mem_cons_of_mem _ hr)
  · have hne : r ≠ conn := fun hc => hbusy (hc ▸ hr)
    dsimp only
    rw [Function.update_of_ne hne]
    exact h.upIdle r hr
  · have hpos : 0 < r := by
      refine ((h.ranks r).mp ?_).1
      rw [← hlist]
      exact List.mem_append_left _ hr
    -- and nobody waits for the table with a part of it on the way
    exact absurd (show r < 1 from hr1) (by omega)
  · refine h.downEmpty r fun hc => ?_
    rw [hsent] at hc
    exact absurd hc.2 (by have := (h.mem_acc hc.1).1; omega)

/-- Rank `0` moves on and neither accepts nor sends. -/
theorem Boot.moveOn (h : Boot size addr s acc) {root : Root}
    (hsent : Net.sentTo size { s with root := root } = s.sentTo size)
    (hleft : Net.left { s with root := root } = s.left) (hroot : root ≠ .panicked) :
    Boot size addr { s with root := root } acc := by
  refine ⟨h.nodup, h.ranks, h.addresses, hroot, ?_, ?_, ?_, h.up, h.upIdle, ?_, ?_, h.peer,
    h.outside⟩
  · rw [hleft]
    exact h.count
  · rw [hsent]
    exact h.sent
  · rw [hsent]
    exact h.conns
  · rw [hsent]
    exact h.down
  · rw [hsent]
    exact h.downEmpty

/-- **Rank `0` sends the table** to a rank. -/
theorem Boot.send (h : Boot size addr s acc) {rank : ℕ} (hroot : s.root = .sending rank)
    (hlt : rank < size) :
    s.conns rank = some rank ∧ Boot size addr { s with
      root := .sending (rank + 1)
      conns := Function.update s.conns rank none
      down := Function.update s.down rank
        ((s.down rank).write (broadcast size s.addresses)) } acc := by
  have hsent : s.sentTo size = rank := by rw [Net.sentTo, hroot]
  have hleft : s.left = 0 := by rw [Net.left, hroot]
  have hcount : acc.length + 0 = size - 1 := by simpa only [hleft] using h.count
  have hpos : 1 ≤ rank := hsent ▸ h.sent.1
  have hin : rank ∈ acc := h.full hleft hpos hlt
  refine ⟨?_, h.nodup, h.ranks, h.addresses, nofun, hcount, ⟨Nat.succ_pos _, hlt⟩, fun r => ?_,
    h.up, h.upIdle, fun r hr hr1 hw => ?_, fun r hr => ?_, h.peer, h.outside⟩
  · rw [h.conns, if_pos ⟨hin, hsent.le⟩]
  · have hconns := h.conns r
    rw [hsent] at hconns
    change Function.update s.conns rank none r = if r ∈ acc ∧ rank + 1 ≤ r then some r else none
    rcases eq_or_ne r rank with rfl | hne
    · rw [Function.update_self, if_neg (by omega)]
    · rw [Function.update_of_ne hne, hconns]
      exact if_congr (and_congr_right fun _ => by omega) rfl rfl
  · have hr1 : r < rank + 1 := hr1
    dsimp only at hw ⊢
    rcases eq_or_ne r rank with rfl | hne
    · have hempty : s.down r = .empty := h.downEmpty r (by omega)
      rw [Function.update_self, hempty, h.addresses_full hleft]
      rfl
    · rw [Function.update_of_ne hne]
      exact h.down r hr (by omega) hw
  · have hr : ¬(r ∈ acc ∧ r < rank + 1) := hr
    have hne : r ≠ rank := fun hc => hr ⟨hc ▸ hin, by omega⟩
    dsimp only
    rw [Function.update_of_ne hne]
    exact h.downEmpty r fun hc => hr ⟨hc.1, by omega⟩

/-- A rank whose table has arrived reads it whole, and returns with it. -/
theorem Boot.receive (h : Boot size addr s acc) {rank : ℕ} (hw : s.peer rank = .waiting)
    (hin : rank ∈ acc ∧ rank < s.sentTo size) {rest : List UInt8} :
    Boot size addr { s with
      peer := Function.update s.peer rank (.returned (.ok (table size addr)))
      down := Function.update s.down rank { s.down rank with arrived := rest } } acc := by
  refine ⟨h.nodup, fun r => ?_, h.addresses, h.notPanicked, h.count, h.sent, h.conns, h.up,
    fun r hr => ?_, fun r hr hlt hr1 => ?_, fun r hr => ?_, fun r result hr => ?_,
    fun r hr => ?_⟩
  · rw [h.ranks]
    rcases eq_or_ne r rank with rfl | hne
    · simp [hw]
    · simp [hne]
  · dsimp only at hr
    rcases eq_or_ne r rank with rfl | hne
    · rw [Function.update_self] at hr
      cases hr
    · rw [Function.update_of_ne hne] at hr
      exact h.upIdle r hr
  · dsimp only at hr1 ⊢
    rcases eq_or_ne r rank with rfl | hne
    · rw [Function.update_self] at hr1
      cases hr1
    · rw [Function.update_of_ne hne] at hr1 ⊢
      exact h.down r hr hlt hr1
  · have hne : r ≠ rank := fun hc => hr (hc ▸ hin)
    dsimp only
    rw [Function.update_of_ne hne]
    exact h.downEmpty r hr
  · dsimp only at hr
    rcases eq_or_ne r rank with rfl | hne
    · rw [Function.update_self] at hr
      exact (Peer.returned.inj hr).symm
    · rw [Function.update_of_ne hne] at hr
      exact h.peer r result hr
  · have hlt := (h.mem_acc hin.1).2.1
    dsimp only
    rw [Function.update_of_ne (by omega)]
    exact h.outside r hr

include hsize haddr

/-- **Rank `0` goes on**, and does not panic. -/
theorem Boot.rootStep (h : Boot size addr s acc) (hs : rootStep size s = some s') :
    ∃ acc', Boot size addr s' acc' := by
  have hlen : s.addresses.length = size := by rw [h.addresses, List.length_map, List.length_range]
  unfold Bootstrap.rootStep at hs
  split at hs
  · next hroot =>
    obtain rfl := Option.some.inj hs
    exact ⟨acc, h.moveOn (by simp only [Net.sentTo, hroot]) (by simp only [Net.left, hroot]) nofun⟩
  · cases hs
  · next left conn queue hroot hq =>
    obtain ⟨⟨⟨peerRank, peerAddr⟩, rest⟩, hread, hs⟩ := Option.map_eq_some_iff.mp hs
    have hin : conn ∈ s.queue := by rw [hq]; exact List.mem_cons_self
    obtain ⟨hp, -, -⟩ := h.greeted hsize haddr hin hread
    obtain ⟨rfl, rfl⟩ := Prod.mk.inj hp
    have hlt := ((h.ranks _).mp (List.mem_append_right _ hin)).2.1
    dsimp only at hs
    rw [if_pos (hlen ▸ hlt)] at hs
    exact ⟨_, hs ▸ h.accept hroot hq rest⟩
  · next rank hroot =>
    split at hs
    · next hlt =>
      obtain ⟨hconn, hsend⟩ := h.send hroot hlt
      rw [hconn] at hs
      exact ⟨acc, Option.some.inj hs ▸ hsend⟩
    · next hge =>
      obtain rfl := Option.some.inj hs
      have hle := h.sent.2
      simp only [Net.sentTo, hroot] at hle
      refine ⟨acc, h.moveOn ?_ (by simp only [Net.left, hroot]) nofun⟩
      simp only [Net.sentTo, hroot]
      omega
  · cases hs
  · cases hs

/-- Every event keeps the bootstrap on course, with the ranks accepted so far or one more. -/
theorem Boot.step (h : Boot size addr s acc) {e : Event} (hs : step size addr s e = some s') :
    ∃ acc', Boot size addr s' acc' := by
  cases e with
  | connect rank =>
    rw [Bootstrap.step] at hs
    split at hs
    · next hidle =>
      obtain ⟨hrank, hs⟩ := Option.ite_none_right_eq_some.mp hs
      exact ⟨acc, Option.some.inj hs ▸ h.connect hidle hrank⟩
    · cases hs
  | up rank k =>
    obtain ⟨hk, hs⟩ := Option.ite_none_right_eq_some.mp hs
    exact ⟨acc, Option.some.inj hs ▸ h.flowUp hk⟩
  | down rank k =>
    obtain ⟨hk, hs⟩ := Option.ite_none_right_eq_some.mp hs
    exact ⟨acc, Option.some.inj hs ▸ h.flowDown hk⟩
  | root => exact h.rootStep hsize haddr hs
  | receive rank =>
    rw [Bootstrap.step] at hs
    split at hs
    · next hw =>
      obtain ⟨⟨result, rest⟩, hread, rfl⟩ := Option.map_eq_some_iff.mp hs
      obtain ⟨rfl, -, -, hin⟩ := h.answered hsize haddr hw hread
      exact ⟨acc, h.receive hw hin⟩
    · cases hs

/-- **A state in which nothing can happen** is one in which all have returned. -/
theorem Boot.exchanged (h : Boot size addr s acc) (hstuck : Stuck (Bootstrap.step size addr) s) :
    Exchanged size addr s := by
  have hup : ∀ r, (s.up r).pending = [] := fun r => by
    by_contra hne
    have hk : 0 < 1 ∧ 1 ≤ (s.up r).pending.length :=
      ⟨Nat.one_pos, List.length_pos_iff.mpr hne⟩
    have hnone := hstuck (.up r 1)
    rw [Bootstrap.step, if_pos hk] at hnone
    cases hnone
  have hdown : ∀ r, (s.down r).pending = [] := fun r => by
    by_contra hne
    have hk : 0 < 1 ∧ 1 ≤ (s.down r).pending.length :=
      ⟨Nat.one_pos, List.length_pos_iff.mpr hne⟩
    have hnone := hstuck (.down r 1)
    rw [Bootstrap.step, if_pos hk] at hnone
    cases hnone
  have hbusy : ∀ r, 0 < r → r < size → s.peer r ≠ .idle := fun r hpos hlt hidle => by
    have hnone := hstuck (.connect r)
    rw [Bootstrap.step, hidle] at hnone
    simp only [if_pos (And.intro hpos hlt)] at hnone
    cases hnone
  -- rank `0` has nothing to wait for
  have hroot : s.root = .returned := by
    have hnone : Bootstrap.rootStep size s = none := hstuck .root
    unfold Bootstrap.rootStep at hnone
    split at hnone
    · cases hnone
    · next left hroot hq =>
      -- a connection is still to be made
      have hcount : acc.length + (left + 1) = size - 1 := by
        simpa only [Net.left, hroot] using h.count
      have hsub : Finset.Ioo 0 size ⊆ acc.toFinset := fun r hr => by
        obtain ⟨hpos, hlt⟩ := Finset.mem_Ioo.mp hr
        have hmem := (h.ranks r).mpr ⟨hpos, hlt, hbusy r hpos hlt⟩
        rw [hq, List.append_nil] at hmem
        exact List.mem_toFinset.mpr hmem
      have hcard := (Finset.card_le_card hsub).trans acc.toFinset_card_le
      rw [Nat.card_Ioo] at hcard
      omega
    · next left conn queue hroot hq =>
      have hin : conn ∈ s.queue := by rw [hq]; exact List.mem_cons_self
      have hlt := ((h.ranks conn).mp (List.mem_append_right _ hin)).2.1
      have harrived := h.up conn hin
      rw [hup conn, List.append_nil] at harrived
      have hread := reads_greeting (hlt.trans hsize) (haddr conn hlt) []
      rw [List.append_nil, ← harrived] at hread
      rw [hread] at hnone
      cases hnone
    · next rank hroot =>
      split at hnone <;> cases hnone
    · next hroot => exact hroot
    · next hroot => exact absurd hroot h.notPanicked
  have hleft : s.left = 0 := by rw [Net.left, hroot]
  refine ⟨hroot, h.addresses_full hleft, fun r hpos hlt => ?_⟩
  cases hpeer : s.peer r with
  | idle => exact absurd hpeer (hbusy r hpos hlt)
  | waiting =>
    have harrived := h.down r (h.full hleft hpos hlt) (by rw [Net.sentTo, hroot]; exact hlt) hpeer
    rw [hdown r, List.append_nil] at harrived
    have hread := reads_table hsize haddr []
    rw [List.append_nil, ← harrived] at hread
    have hnone := hstuck (.receive r)
    rw [Bootstrap.step, hpeer] at hnone
    simp only [hread] at hnone
    cases hnone
  | returned result => rw [h.peer r result hpeer]

omit hsize haddr

/-! ### The exchange ends -/

/-- What a rank is to do: to connect and greet, with `len` bytes, and to return. -/
def Peer.weight (len : ℕ) : Peer → ℕ
  | .idle => 2 + len
  | .waiting => 1
  | .returned _ => 0

/-- What is left to do at a rank and on its connection. -/
def Net.weight (addr : ℕ → List UInt8) (s : Net) (r : ℕ) : ℕ :=
  (s.peer r).weight (greeting r (addr r)).length + (s.up r).pending.length +
    (s.down r).pending.length

/-- What is left to do at rank `0`, if a table is `len` bytes. -/
def Root.weight (size len : ℕ) : Root → ℕ
  | .accepting left => left + 2 + (size - 1) * (1 + len)
  | .sending rank => 1 + (size - rank) * (1 + len)
  | .returned => 0
  | .panicked => 0

/-- What is left to do. -/
def Net.fuel (size : ℕ) (addr : ℕ → List UInt8) (s : Net) : ℕ :=
  s.root.weight size (broadcast size (table size addr)).length +
    ∑ r ∈ Finset.range size, s.weight addr r

/-- Less to do at one rank is less to do. -/
theorem fuel_lt_of_weight {r : ℕ} (hroot : s'.root = s.root) (hr : r < size)
    (hother : ∀ q, q ≠ r → s'.weight addr q = s.weight addr q)
    (hlt : s'.weight addr r < s.weight addr r) : s'.fuel size addr < s.fuel size addr := by
  have hsum : ∑ q ∈ Finset.range size, s'.weight addr q <
      ∑ q ∈ Finset.range size, s.weight addr q := by
    refine Finset.sum_lt_sum (fun q _ => ?_) ⟨r, Finset.mem_range.mpr hr, hlt⟩
    rcases eq_or_ne q r with rfl | hne
    · exact hlt.le
    · exact (hother q hne).le
  rw [Net.fuel, Net.fuel, hroot]
  omega

/-- Rank `0` does as much as it leaves to another rank, and more. -/
theorem fuel_lt_of_root (r k : ℕ)
    (hroot : s'.root.weight size (broadcast size (table size addr)).length + k <
      s.root.weight size (broadcast size (table size addr)).length)
    (hother : ∀ q, q ≠ r → s'.weight addr q = s.weight addr q)
    (hle : s'.weight addr r ≤ s.weight addr r + k) : s'.fuel size addr < s.fuel size addr := by
  have hsum : ∑ q ∈ Finset.range size, s'.weight addr q ≤
      ∑ q ∈ Finset.range size, s.weight addr q + k := by
    calc ∑ q ∈ Finset.range size, s'.weight addr q
        ≤ ∑ q ∈ Finset.range size, (s.weight addr q + if q = r then k else 0) := by
          refine Finset.sum_le_sum fun q _ => ?_
          rcases eq_or_ne q r with rfl | hne
          · rw [if_pos rfl]
            exact hle
          · rw [if_neg hne]
            exact (hother q hne).le
      _ ≤ ∑ q ∈ Finset.range size, s.weight addr q + k := by
          rw [Finset.sum_add_distrib, Finset.sum_ite_eq']
          split <;> omega
  rw [Net.fuel, Net.fuel]
  omega

theorem Boot.fuel_rootStep (h : Boot size addr s acc) (hs : Bootstrap.rootStep size s = some s') :
    s'.fuel size addr < s.fuel size addr := by
  unfold Bootstrap.rootStep at hs
  split at hs
  · next hroot =>
    obtain rfl := Option.some.inj hs
    refine fuel_lt_of_root 0 0 ?_ (fun _ _ => rfl) le_rfl
    rw [hroot, Root.weight, Root.weight]
    omega
  · cases hs
  · next left conn queue hroot hq =>
    obtain ⟨⟨⟨peerRank, peerAddr⟩, rest⟩, -, hs⟩ := Option.map_eq_some_iff.mp hs
    dsimp only at hs
    split at hs
    · obtain rfl := hs
      refine fuel_lt_of_root conn 0 ?_ (fun q hne => ?_) ?_
      · rw [hroot, Root.weight, Root.weight]
        omega
      · simp only [Net.weight, Function.update_of_ne hne]
      · simp only [Net.weight, Function.update_self]
        omega
    · obtain rfl := hs
      refine fuel_lt_of_root 0 0 ?_ (fun _ _ => rfl) le_rfl
      rw [hroot, Root.weight, Root.weight]
      omega
  · next rank hroot =>
    split at hs
    · next hlt =>
      obtain ⟨hconn, -⟩ := h.send hroot hlt
      rw [hconn] at hs
      obtain rfl := Option.some.inj hs
      have hleft : s.left = 0 := by rw [Net.left, hroot]
      have hsize : size - rank = size - (rank + 1) + 1 := by omega
      rw [h.addresses_full hleft]
      refine fuel_lt_of_root rank (broadcast size (table size addr)).length ?_ (fun q hne => ?_) ?_
      · rw [hroot, Root.weight, Root.weight, hsize, Nat.add_mul, Nat.one_mul]
        omega
      · simp only [Net.weight, Function.update_of_ne hne]
      · simp only [Net.weight, Function.update_self, Stream.write, List.length_append]
        omega
    · next hge =>
      obtain rfl := Option.some.inj hs
      refine fuel_lt_of_root 0 0 ?_ (fun _ _ => rfl) le_rfl
      rw [hroot, Root.weight, Root.weight]
      omega
  · cases hs
  · cases hs

/-- **Every event leaves less to do.** -/
theorem Boot.fuel_step (h : Boot size addr s acc) {e : Event}
    (hs : Bootstrap.step size addr s e = some s') : s'.fuel size addr < s.fuel size addr := by
  cases e with
  | connect rank =>
    rw [Bootstrap.step] at hs
    split at hs
    · next hidle =>
      obtain ⟨hrank, hs⟩ := Option.ite_none_right_eq_some.mp hs
      obtain rfl := Option.some.inj hs
      refine fuel_lt_of_weight rfl hrank.2 (fun q hne => ?_) ?_
      · simp only [Net.weight, Function.update_of_ne hne]
      · simp only [Net.weight, Function.update_self, Stream.write, List.length_append, hidle,
          Peer.weight]
        omega
    · cases hs
  | up rank k =>
    obtain ⟨hk, hs⟩ := Option.ite_none_right_eq_some.mp hs
    obtain rfl := Option.some.inj hs
    -- there are bytes on the way, so the rank has connected
    have hbusy : s.peer rank ≠ .idle := fun hidle => by
      rw [h.upIdle rank hidle] at hk
      exact absurd hk.1 (by simpa [Stream.empty] using hk.2)
    refine fuel_lt_of_weight rfl (h.lt_of_not_idle hbusy) (fun q hne => ?_) ?_
    · simp only [Net.weight, Function.update_of_ne hne]
    · simp only [Net.weight, Function.update_self, Stream.flow, List.length_drop]
      omega
  | down rank k =>
    obtain ⟨hk, hs⟩ := Option.ite_none_right_eq_some.mp hs
    obtain rfl := Option.some.inj hs
    -- there are bytes on the way, so the table has been sent to it
    have hin : rank ∈ acc ∧ rank < s.sentTo size := by
      by_contra hc
      rw [h.downEmpty rank hc] at hk
      exact absurd hk.1 (by simpa [Stream.empty] using hk.2)
    refine fuel_lt_of_weight rfl (h.mem_acc hin.1).2.1 (fun q hne => ?_) ?_
    · simp only [Net.weight, Function.update_of_ne hne]
    · simp only [Net.weight, Function.update_self, Stream.flow, List.length_drop]
      omega
  | root => exact h.fuel_rootStep hs
  | receive rank =>
    rw [Bootstrap.step] at hs
    split at hs
    · next hw =>
      obtain ⟨⟨result, rest⟩, -, rfl⟩ := Option.map_eq_some_iff.mp hs
      refine fuel_lt_of_weight rfl (h.lt_of_not_idle (by rw [hw]; nofun)) (fun q hne => ?_) ?_
      · simp only [Net.weight, Function.update_of_ne hne]
      · simp only [Net.weight, Function.update_self, hw, Peer.weight]
        omega
    · cases hs

end Boot

/-! ### Runs -/

section Runs

variable {size : ℕ} {addr : ℕ → List UInt8} {s s' : Net}

/-- **The invariant of the exchange.** -/
theorem boot_of_reaches (hpos : 1 ≤ size) (hsize : size < 2 ^ 32)
    (haddr : ∀ r < size, (addr r).length < 2 ^ 32)
    (h : Reaches (step size addr) (start size addr) s) : ∃ acc, Boot size addr s acc :=
  h.invariant (P := fun s => ∃ acc, Boot size addr s acc) ⟨[], boot_start hpos⟩
    fun _ _ _ ⟨_, hb⟩ _ hs => hb.step hsize haddr hs

/-- A run is no longer than what there is to do. -/
theorem length_le_fuel (hsize : size < 2 ^ 32) (haddr : ∀ r < size, (addr r).length < 2 ^ 32)
    {es : List Event} {acc : List ℕ} (hb : Boot size addr s acc)
    (hrun : runList (step size addr) s es = some s') : es.length ≤ s.fuel size addr := by
  induction es generalizing s acc with
  | nil => exact Nat.zero_le _
  | cons e es ih =>
    obtain ⟨t, ht, hrest⟩ := Option.bind_eq_some_iff.mp hrun
    obtain ⟨acc', hb'⟩ := hb.step hsize haddr ht
    have hlt := hb.fuel_step ht
    have hle := ih hb' hrest
    rw [List.length_cons]
    omega

/-- **The exchange of addresses gives every rank the same table.** However the ranks
connect, one after the other, and in whatever pieces the bytes arrive: rank `0` does
not panic and no rank returns an error; what a rank returns is the table whose entry
`r` is the address of rank `r`; all runs end; and when nothing more can happen, every
rank has returned. -/
theorem exchange_addresses_correct (hpos : 1 ≤ size) (hsize : size < 2 ^ 32)
    (haddr : ∀ r < size, (addr r).length < 2 ^ 32)
    (h : Reaches (step size addr) (start size addr) s) :
    (s.root ≠ .panicked ∧ (s.root = .returned → s.addresses = table size addr)) ∧
      (∀ r result, s.peer r = .returned result → result = .ok (table size addr)) ∧
      (∃ bound, ∀ es s', runList (step size addr) s es = some s' → es.length ≤ bound) ∧
      (Stuck (step size addr) s → Exchanged size addr s) ∧
      ∃ s', Reaches (step size addr) s s' ∧ Exchanged size addr s' := by
  obtain ⟨acc, hb⟩ := boot_of_reaches hpos hsize haddr h
  refine ⟨⟨hb.notPanicked, fun hroot => ?_⟩, hb.peer, ⟨s.fuel size addr, fun es s' hrun => ?_⟩,
    hb.exchanged hsize haddr, ?_⟩
  · exact hb.addresses_full (by rw [Net.left, hroot])
  · exact length_le_fuel hsize haddr hb hrun
  · obtain ⟨s', hreach, ⟨acc', hb'⟩, hstuck⟩ := Steps.exists_stuck
      (P := fun s => ∃ acc, Boot size addr s acc) (μ := Net.fuel size addr)
      (fun _ _ _ ⟨_, hb⟩ _ hs => ⟨hb.step hsize haddr hs, hb.fuel_step hs⟩) ⟨acc, hb⟩
    exact ⟨s', hreach, hb'.exchanged hsize haddr fun e => hstuck e trivial⟩

/-- Three ranks, one of them without an address. -/
theorem exchange_addresses_correct_three :
    ∃ s', Reaches (step 3 fun r => List.replicate r 7) (start 3 fun r => List.replicate r 7) s' ∧
      Exchanged 3 (fun r => List.replicate r 7) s' :=
  (exchange_addresses_correct (by decide) (by decide)
    (fun r hr => by rw [List.length_replicate]; omega) .refl).2.2.2.2

end Runs

end Bootstrap

end Pluvio
