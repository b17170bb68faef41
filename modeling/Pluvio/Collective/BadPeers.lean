import Mathlib.Data.Finset.Card
import Pluvio.Collective.Bootstrap

/-!
# Bad peers in the exchange of addresses

Rank `0` of the exchange, with whatever connects to it: a connection brings some bytes, after
which a read fails, and takes what is written to it or does not.

The rank that a peer announces is not checked. One that is too large is an index out of
bounds. One that comes twice, or is `0`, takes the place of another one, which is missing in
the second loop, unless a write to a lower rank fails before the loop gets there.
`Pluvio.Bootstrap.exchange_rejects_iff` says that these are the only ways to panic, and that
the table is right when there is one.

Both loops are given by what they have made after a number of iterations. An iteration is a
step of rank `0` in `Pluvio.Bootstrap.Net`, where all peers are ranks (`Pluvio.Bootstrap.Agrees`).
-/

namespace Pluvio

namespace Bootstrap

/-! ### Rank `0` -/

/-- A connection that rank `0` accepts. -/
structure Conn where
  /-- All the bytes that come over the connection. -/
  bytes : List UInt8
  /-- What a read says that asks for more. -/
  readError : IoError
  /-- What the writes to it say, if they fail. -/
  writeError : Option IoError
  deriving DecidableEq

/-- The rank and the address that a peer gives, if it gives both. -/
def Conn.greeted (c : Conn) : Option (ℕ × List UInt8) := (readGreeting c.bytes).map Prod.fst

/-- The rank of a peer that gives both. -/
def Conn.rank (c : Conn) : Option ℕ := c.greeted.map Prod.fst

/-- How `exchange_addresses` ends without a table. -/
inductive Stop
  | err (e : CollectiveError)
  /-- `addresses[peer_rank]`, out of bounds. -/
  | indexOutOfBounds (len index : ℕ)
  /-- `expect("missing connection")`. -/
  | missingConnection
  deriving DecidableEq

/-- `addresses` and `conns`. -/
structure Accepting where
  addresses : List (List UInt8)
  conns : ℕ → Option Conn

/-- An iteration of the first loop. -/
def accept (s : Accepting) (stream : Conn) : Except Stop Accepting :=
  match stream.greeted with
  | none => .error (.err (.bootstrap stream.readError))
  | some (peerRank, peerAddr) =>
    if peerRank < s.addresses.length then
      .ok ⟨s.addresses.set peerRank peerAddr, Function.update s.conns peerRank (some stream)⟩
    else .error (.indexOutOfBounds s.addresses.length peerRank)

/-- An iteration of the second loop. -/
def send (conns : ℕ → Option Conn) (rank : ℕ) : Except Stop (ℕ → Option Conn) :=
  match conns rank with
  | none => .error .missingConnection
  | some stream =>
    match stream.writeError with
    | some e => .error (.err (.bootstrap e))
    | none => .ok (Function.update conns rank none)

/-! ### The same loops as among all ranks -/

/-- The table, and the ranks with a connection, are those of rank `0` among all ranks. -/
structure Agrees (net : Net) (s : Accepting) : Prop where
  addresses : s.addresses = net.addresses
  conns : ∀ r, (s.conns r).isSome = (net.conns r).isSome

/-- **The first loop** does what `Pluvio.Bootstrap.rootStep` does with a greeting that is
there. -/
theorem Agrees.accept {size left conn : ℕ} {queue : List ℕ} {net net' : Net} {s : Accepting}
    {c : Conn} (h : Agrees net s) (hroot : net.root = .accepting (left + 1))
    (hqueue : net.queue = conn :: queue) (hbytes : c.bytes = (net.up conn).arrived)
    (hstep : rootStep size net = some net') :
    (∃ s', accept s c = .ok s' ∧ Agrees net' s' ∧ net'.root = .accepting left) ∨
      net'.root = .panicked ∧
        ∃ r, accept s c = .error (.indexOutOfBounds s.addresses.length r) := by
  rw [rootStep, hroot, hqueue] at hstep
  obtain ⟨⟨⟨peerRank, peerAddr⟩, rest⟩, hread, hnet⟩ := Option.map_eq_some_iff.mp hstep
  have hgreeted : c.greeted = some (peerRank, peerAddr) := by
    rw [Conn.greeted, hbytes, hread]
    rfl
  rw [Bootstrap.accept, hgreeted]
  dsimp only at hnet ⊢
  rw [h.addresses]
  split at hnet
  · next hlt =>
    subst hnet
    refine .inl ⟨_, if_pos hlt, ⟨rfl, fun r => ?_⟩, rfl⟩
    dsimp only
    rw [Function.update_apply, Function.update_apply]
    split
    · rfl
    · exact h.conns r
  · next hge =>
    subst hnet
    exact .inr ⟨rfl, peerRank, if_neg hge⟩

/-- **The second loop** does what `Pluvio.Bootstrap.rootStep` does, when the writes do not
fail. -/
theorem Agrees.send {size rank : ℕ} {net net' : Net} {s : Accepting} (h : Agrees net s)
    (hroot : net.root = .sending rank) (hrank : rank < size)
    (hworks : ∀ c, s.conns rank = some c → c.writeError = none)
    (hstep : rootStep size net = some net') :
    (∃ conns, send s.conns rank = .ok conns ∧ Agrees net' ⟨s.addresses, conns⟩ ∧
      net'.root = .sending (rank + 1)) ∨
      net'.root = .panicked ∧ send s.conns rank = .error .missingConnection := by
  rw [rootStep.eq_def, hroot] at hstep
  dsimp only at hstep
  rw [if_pos hrank] at hstep
  have hnet := Option.some.inj hstep
  have hsome := h.conns rank
  rw [Bootstrap.send]
  cases hc : s.conns rank with
  | none =>
    rw [hc, Option.isSome_none, eq_comm, Option.isSome_eq_false_iff, Option.isNone_iff_eq_none]
      at hsome
    rw [hsome] at hnet
    subst hnet
    exact .inr ⟨rfl, rfl⟩
  | some c =>
    rw [hc, Option.isSome_some, eq_comm, Option.isSome_iff_exists] at hsome
    obtain ⟨conn, hconn⟩ := hsome
    rw [hconn] at hnet
    subst hnet
    dsimp only
    rw [hworks c hc]
    refine .inl ⟨_, rfl, ⟨h.addresses, fun r => ?_⟩, rfl⟩
    dsimp only
    rw [Function.update_apply, Function.update_apply]
    split
    · rfl
    · exact h.conns r

/-! ### The exchange -/

section Exchange

variable (size : ℕ) (myAddr : List UInt8) (peers : ℕ → Conn)

/-- The first loop after `k` iterations. The connections come in the order of `peers`. -/
def acceptLoop : ℕ → Except Stop Accepting
  | 0 => .ok ⟨(List.replicate size []).set 0 myAddr, fun _ => none⟩
  | k + 1 => (acceptLoop k).bind fun s => accept s (peers k)

/-- The second loop after `k` iterations. -/
def sendLoop (conns : ℕ → Option Conn) : ℕ → Except Stop (ℕ → Option Conn)
  | 0 => .ok conns
  | k + 1 => (sendLoop conns k).bind fun conns => send conns (k + 1)

/-- `exchange_addresses` at rank `0`. -/
def exchangeAddresses : Except Stop (List (List UInt8)) :=
  (acceptLoop size myAddr peers (size - 1)).bind fun s =>
    (sendLoop s.conns (size - 1)).map fun _ => s.addresses

/-! ### Rejecting bad peers -/

/-- The peers give the ranks but `0`, each once. -/
structure DistinctRanks : Prop where
  given : ∀ k < size - 1, ∃ r, (peers k).rank = some r ∧ 0 < r ∧ r < size
  distinct : ∀ j < size - 1, ∀ k < size - 1, (peers j).rank = (peers k).rank → j = k

/-- **Bad peers are rejected**: the exchange ends with an error, or the peers have given
the ranks but `0`, and the table has the address of each at its rank. -/
def Rejects : Prop :=
  (∃ e, exchangeAddresses size myAddr peers = .error (.err e)) ∨
    ∃ table, exchangeAddresses size myAddr peers = .ok table ∧ DistinctRanks size peers ∧
      table.length = size ∧ table[0]? = some myAddr ∧
        ∀ k < size - 1, ∀ r a, (peers k).greeted = some (r, a) → table[r]? = some a

/-- The last of the first `k` connections with this rank. -/
def lastWith : ℕ → ℕ → Option Conn
  | 0, _ => none
  | k + 1, r => if (peers k).rank = some r then some (peers k) else lastWith k r

/-- The first `k` peers give ranks that there are. -/
def InRange (k : ℕ) : Prop := ∀ j < k, ∃ r, (peers j).rank = some r ∧ r < size

/-- A peer gives less than a rank and an address, and those before it give ranks that there
are. -/
def Truncated : Prop := ∃ k < size - 1, (peers k).rank = none ∧ InRange size peers k

/-- The writes to a rank fail, and this rank and those below it have been given. -/
def Broken : Prop :=
  ∃ r, 0 < r ∧ r < size ∧ (∃ c, lastWith peers (size - 1) r = some c ∧ c.writeError ≠ none) ∧
    ∀ q, 0 < q → q ≤ r → ∃ k < size - 1, (peers k).rank = some q

/-! ### The first loop -/

/-- What the first loop has made of the first `k` connections. -/
structure Accepted (k : ℕ) (s : Accepting) : Prop where
  length : s.addresses.length = size
  conns : s.conns = lastWith peers k
  addresses : ∀ r c a, lastWith peers k r = some c → c.greeted = some (r, a) →
    s.addresses[r]? = some a
  zero : lastWith peers k 0 = none → s.addresses[0]? = some myAddr

end Exchange

variable {size : ℕ} {myAddr : List UInt8} {peers : ℕ → Conn} {k r : ℕ} {c : Conn}
  {s s' : Accepting}

theorem rank_eq_some : c.rank = some r ↔ ∃ a, c.greeted = some (r, a) := by
  rw [Conn.rank, Option.map_eq_some_iff]
  constructor
  · rintro ⟨⟨r', a⟩, h, rfl⟩
    exact ⟨a, h⟩
  · rintro ⟨a, h⟩
    exact ⟨(r, a), h, rfl⟩

/-- A connection of the map is one of those that gave the rank. -/
theorem lastWith_eq_some (h : lastWith peers k r = some c) :
    ∃ j < k, peers j = c ∧ c.rank = some r := by
  induction k with
  | zero => cases h
  | succ k ih =>
    rw [lastWith] at h
    split at h
    · next hr =>
      obtain rfl := Option.some.inj h
      exact ⟨k, k.lt_succ_self, rfl, hr⟩
    · obtain ⟨j, hj, hc⟩ := ih h
      exact ⟨j, Nat.lt_succ_of_lt hj, hc⟩

/-- A rank is missing when nobody gave it. -/
theorem lastWith_eq_none : lastWith peers k r = none ↔ ∀ j < k, (peers j).rank ≠ some r := by
  induction k with
  | zero => exact iff_of_true rfl fun j hj => absurd hj j.not_lt_zero
  | succ k ih =>
    rw [lastWith, Nat.forall_lt_succ_right]
    split
    · next h => exact iff_of_false nofun fun hc => hc.2 h
    · next h => rw [ih, and_iff_left h]

/-- **A connection is accepted** when its rank is one that there is. -/
theorem accept_of_lt (h : Accepted size myAddr peers k s) (hr : (peers k).rank = some r)
    (hlt : r < size) : ∃ s', accept s (peers k) = .ok s' ∧
      Accepted size myAddr peers (k + 1) s' := by
  obtain ⟨a, hgreeted⟩ := rank_eq_some.mp hr
  have hget : ∀ q, (s.addresses.set r a)[q]? = if q = r then some a else s.addresses[q]? := by
    intro q
    rcases eq_or_ne q r with rfl | hne
    · rw [if_pos rfl, List.getElem?_set_self (h.length ▸ hlt)]
    · rw [if_neg hne, List.getElem?_set_ne hne.symm]
  -- a rank that comes a second time replaces the connection of the first one
  have hlast : ∀ q, lastWith peers (k + 1) q =
      if q = r then some (peers k) else lastWith peers k q := by
    intro q
    simp only [lastWith, hr, Option.some.injEq, eq_comm]
  refine ⟨⟨s.addresses.set r a, Function.update s.conns r (some (peers k))⟩, ?_, ?_, ?_,
    fun q c b hc hb => ?_, fun hnone => ?_⟩
  · rw [accept, hgreeted]
    exact if_pos (h.length ▸ hlt)
  · exact List.length_set.trans h.length
  · funext q
    rw [hlast, ← h.conns]
    exact Function.update_apply ..
  · rw [hlast] at hc
    rw [hget]
    split at hc
    · next heq =>
      obtain rfl := Option.some.inj hc
      rw [hgreeted] at hb
      cases hb
      exact if_pos rfl
    · next hne => exact (if_neg hne).trans (h.addresses q c b hc hb)
  · rw [hlast] at hnone
    rw [hget]
    split at hnone
    · cases hnone
    · next hne => exact (if_neg hne).trans (h.zero hnone)

theorem accepted_zero (hsize : 1 ≤ size) :
    Accepted size myAddr peers 0 ⟨(List.replicate size []).set 0 myAddr, fun _ => none⟩ where
  length := by rw [List.length_set, List.length_replicate]
  conns := rfl
  addresses := nofun
  zero := fun _ => List.getElem?_set_self (by rwa [List.length_replicate])

/-- **How the first loop goes**: it accepts all connections, or stops at the first one that
is truncated or gives a rank that there is not. -/
theorem acceptLoop_cases (myAddr : List UInt8) (peers : ℕ → Conn) (hsize : 1 ≤ size) (k : ℕ) :
    (InRange size peers k ∧ ∃ s, acceptLoop size myAddr peers k = .ok s ∧
      Accepted size myAddr peers k s) ∨
    (∃ j < k, (peers j).rank = none ∧ InRange size peers j ∧
      acceptLoop size myAddr peers k = .error (.err (.bootstrap (peers j).readError))) ∨
    ∃ j < k, ∃ r, (peers j).rank = some r ∧ size ≤ r ∧ InRange size peers j ∧
      acceptLoop size myAddr peers k = .error (.indexOutOfBounds size r) := by
  induction k with
  | zero => exact .inl ⟨fun j hj => absurd hj j.not_lt_zero, _, rfl, accepted_zero hsize⟩
  | succ k ih =>
    rcases ih with ⟨hrange, s, hs, hacc⟩ | ⟨j, hj, hnone, hrange, hs⟩ |
      ⟨j, hj, r, hr, hge, hrange, hs⟩
    · have hstep : acceptLoop size myAddr peers (k + 1) = accept s (peers k) := by
        rw [acceptLoop, hs]
        rfl
      rw [hstep]
      rcases hr : (peers k).rank with - | r
      · -- this one is truncated
        refine .inr (.inl ⟨k, k.lt_succ_self, hr, hrange, ?_⟩)
        rw [accept, Option.map_eq_none_iff.mp hr]
      · rcases Nat.lt_or_ge r size with hlt | hge
        · obtain ⟨s', hs', hacc'⟩ := accept_of_lt hacc hr hlt
          refine .inl ⟨fun j hj => ?_, s', hs', hacc'⟩
          rcases Nat.lt_succ_iff_lt_or_eq.mp hj with hj | rfl
          · exact hrange j hj
          · exact ⟨r, hr, hlt⟩
        · obtain ⟨a, hgreeted⟩ := rank_eq_some.mp hr
          refine .inr (.inr ⟨k, k.lt_succ_self, r, hr, hge, hrange, ?_⟩)
          rw [accept, hgreeted]
          dsimp only
          rw [hacc.length, if_neg (Nat.not_lt.mpr hge)]
    · refine .inr (.inl ⟨j, Nat.lt_succ_of_lt hj, hnone, hrange, ?_⟩)
      rw [acceptLoop, hs]
      rfl
    · refine .inr (.inr ⟨j, Nat.lt_succ_of_lt hj, r, hr, hge, hrange, ?_⟩)
      rw [acceptLoop, hs]
      rfl

/-! ### The second loop -/

/-- The ranks up to `k` are there, and take what is written to them. -/
def Sent (last : ℕ → Option Conn) (k : ℕ) : Prop :=
  ∀ q, 0 < q → q ≤ k → ∃ c, last q = some c ∧ c.writeError = none

/-- **How the second loop goes**: it writes to all ranks, or stops at the first one that is
missing or to which the writes fail. -/
theorem sendLoop_cases (last : ℕ → Option Conn) (k : ℕ) :
    (Sent last k ∧ ∃ conns, sendLoop last k = .ok conns ∧ ∀ r, k < r → conns r = last r) ∨
    (∃ r c e, 0 < r ∧ r ≤ k ∧ last r = some c ∧ c.writeError = some e ∧ Sent last (r - 1) ∧
      sendLoop last k = .error (.err (.bootstrap e))) ∨
    ∃ r, 0 < r ∧ r ≤ k ∧ last r = none ∧ Sent last (r - 1) ∧
      sendLoop last k = .error .missingConnection := by
  induction k with
  | zero => exact .inl ⟨fun q hq hle => absurd hq hle.not_gt, last, rfl, fun _ _ => rfl⟩
  | succ k ih =>
    rcases ih with ⟨hsent, conns, hs, hrest⟩ | ⟨r, c, e, hr, hle, hc, he, hsent, hs⟩ |
      ⟨r, hr, hle, hnone, hsent, hs⟩
    · have hstep : sendLoop last (k + 1) = send conns (k + 1) := by
        rw [sendLoop, hs]
        rfl
      have hget := hrest (k + 1) k.lt_succ_self
      rw [hstep, send, hget]
      rcases hc : last (k + 1) with - | c
      · exact .inr (.inr ⟨k + 1, k.succ_pos, le_rfl, hc, hsent, rfl⟩)
      · dsimp only
        rcases he : c.writeError with - | e
        · refine .inl ⟨fun q hq hle => ?_, _, rfl, fun r hr => ?_⟩
          · rcases Nat.le_succ_iff.mp hle with hle | rfl
            · exact hsent q hq hle
            · exact ⟨c, hc, he⟩
          · rw [Function.update_of_ne (Nat.ne_of_gt hr)]
            exact hrest r (Nat.lt_of_succ_lt hr)
        · exact .inr (.inl ⟨k + 1, c, e, k.succ_pos, le_rfl, hc, he, hsent, rfl⟩)
    · refine .inr (.inl ⟨r, c, e, hr, Nat.le_succ_of_le hle, hc, he, hsent, ?_⟩)
      rw [sendLoop, hs]
      rfl
    · refine .inr (.inr ⟨r, hr, Nat.le_succ_of_le hle, hnone, hsent, ?_⟩)
      rw [sendLoop, hs]
      rfl

/-! ### All ranks, each once -/

/-- There are as many peers as ranks but `0`, so none of these is missing if each peer gives
one of its own. -/
theorem DistinctRanks.all_given (h : DistinctRanks size peers) (hr : 0 < r) (hlt : r < size) :
    ∃ k < size - 1, (peers k).rank = some r := by
  have hmaps : Set.MapsTo (fun k => (peers k).rank.getD 0) (Finset.range (size - 1))
      (Finset.Ioo 0 size) := by
    intro k hk
    obtain ⟨q, hq, hpos, hlt⟩ := h.given k (Finset.mem_range.mp hk)
    exact Finset.mem_coe.mpr (Finset.mem_Ioo.mpr (by simpa only [hq] using ⟨hpos, hlt⟩))
  have hinj : Set.InjOn (fun k => (peers k).rank.getD 0) (Finset.range (size - 1)) := by
    intro j hj k hk heq
    obtain ⟨q, hq, -⟩ := h.given j (Finset.mem_range.mp hj)
    obtain ⟨q', hq', -⟩ := h.given k (Finset.mem_range.mp hk)
    refine h.distinct j (Finset.mem_range.mp hj) k (Finset.mem_range.mp hk) ?_
    simp only [hq, hq', Option.getD_some] at heq
    rw [hq, hq', heq]
  have hsurj := Finset.surjOn_of_injOn_of_card_le _ hmaps hinj
    (by rw [Nat.card_Ioo, Finset.card_range, Nat.sub_zero])
  obtain ⟨k, hk, heq⟩ := hsurj (Finset.mem_coe.mpr (Finset.mem_Ioo.mpr ⟨hr, hlt⟩))
  obtain ⟨q, hq, -⟩ := h.given k (Finset.mem_range.mp hk)
  simp only [hq, Option.getD_some] at heq
  exact ⟨k, Finset.mem_range.mp hk, heq ▸ hq⟩

/-- **No rank is missing** only if each peer gives one of its own. -/
theorem distinctRanks_of_all
    (h : ∀ r, 0 < r → r < size → ∃ k < size - 1, (peers k).rank = some r) :
    DistinctRanks size peers := by
  have hsub : (Finset.Ioo 0 size).image some ⊆
      (Finset.range (size - 1)).image fun k => (peers k).rank := by
    intro o ho
    obtain ⟨r, hr, rfl⟩ := Finset.mem_image.mp ho
    obtain ⟨hpos, hlt⟩ := Finset.mem_Ioo.mp hr
    obtain ⟨k, hk, hrank⟩ := h r hpos hlt
    exact Finset.mem_image.mpr ⟨k, Finset.mem_range.mpr hk, hrank⟩
  have hcard : ((Finset.Ioo 0 size).image some).card = size - 1 := by
    rw [Finset.card_image_of_injective _ (Option.some_injective ℕ), Nat.card_Ioo, Nat.sub_zero]
  have hle : ((Finset.range (size - 1)).image fun k => (peers k).rank).card ≤ size - 1 :=
    Finset.card_image_le.trans_eq (Finset.card_range _)
  -- so the ranks that are given are those and no others
  have heq := Finset.eq_of_subset_of_card_le hsub (hle.trans hcard.ge)
  constructor
  · intro k hk
    have hmem : (peers k).rank ∈ (Finset.Ioo 0 size).image some :=
      heq ▸ Finset.mem_image_of_mem _ (Finset.mem_range.mpr hk)
    obtain ⟨r, hr, hrank⟩ := Finset.mem_image.mp hmem
    exact ⟨r, hrank.symm, Finset.mem_Ioo.mp hr⟩
  · have hinj := Finset.card_image_iff.mp
      ((heq ▸ hcard).trans (Finset.card_range (size - 1)).symm)
    exact fun j hj k hk hr => hinj (Finset.mem_coe.mpr (Finset.mem_range.mpr hj))
      (Finset.mem_coe.mpr (Finset.mem_range.mpr hk)) hr

/-! ### The condition -/

/-- The condition under which rank `0` does not panic. -/
def Handled (size : ℕ) (peers : ℕ → Conn) : Prop :=
  Truncated size peers ∨ InRange size peers (size - 1) ∧
    (DistinctRanks size peers ∨ Broken size peers)

/-- A connection that is left in the map is one of those that were accepted. -/
theorem given_of_lastWith (h : lastWith peers k r = some c) :
    ∃ j < k, (peers j).rank = some r := by
  obtain ⟨j, hj, rfl, hr⟩ := lastWith_eq_some h
  exact ⟨j, hj, hr⟩

theorem not_truncated (h : InRange size peers (size - 1)) : ¬Truncated size peers := by
  rintro ⟨k, hk, hnone, -⟩
  obtain ⟨r, hr, -⟩ := h k hk
  cases hnone.symm.trans hr

/-- A rank out of range comes before anything that could stop the first loop. -/
theorem not_handled_of_outOfRange (hk : k < size - 1) (hr : (peers k).rank = some r)
    (hge : size ≤ r) (hrange : InRange size peers k) : ¬Handled size peers := by
  have hout : ∀ j, InRange size peers j → ¬k < j := fun j hj hlt => by
    obtain ⟨r', hr', hlt'⟩ := hj k hlt
    obtain rfl := Option.some.inj (hr.symm.trans hr')
    exact absurd hlt' (Nat.not_lt.mpr hge)
  rintro (⟨j, hj, hnone, hrange'⟩ | ⟨hrange', -⟩)
  · rcases Nat.lt_trichotomy j k with hlt | rfl | hlt
    · obtain ⟨r', hr', -⟩ := hrange j hlt
      cases hnone.symm.trans hr'
    · cases hnone.symm.trans hr
    · exact hout j hrange' hlt
  · exact hout _ hrange' hk

/-- A rank is missing that the second loop comes to. -/
theorem not_handled_of_missing (hrange : InRange size peers (size - 1)) (hr : 0 < r)
    (hlt : r < size) (hnone : lastWith peers (size - 1) r = none)
    (hsent : Sent (lastWith peers (size - 1)) (r - 1)) : ¬Handled size peers := by
  have hmissing := lastWith_eq_none.mp hnone
  rintro (htrunc | ⟨-, hdistinct | ⟨q, hq, -, ⟨c, hc, hfails⟩, hgiven⟩⟩)
  · exact not_truncated hrange htrunc
  · obtain ⟨k, hk, hrank⟩ := hdistinct.all_given hr hlt
    exact hmissing k hk hrank
  · rcases Nat.lt_or_ge q r with hqr | hrq
    · -- the writes to this rank did not fail
      obtain ⟨c', hc', hworks⟩ := hsent q hq (Nat.le_sub_one_of_lt hqr)
      obtain rfl := Option.some.inj (hc.symm.trans hc')
      exact hfails hworks
    · obtain ⟨k, hk, hrank⟩ := hgiven r hr hrq
      exact hmissing k hk hrank

/-- **The table**, when the second loop comes to its end. -/
theorem table_of_sent (hacc : Accepted size myAddr peers (size - 1) s)
    (hsent : Sent (lastWith peers (size - 1)) (size - 1)) :
    DistinctRanks size peers ∧ s.addresses[0]? = some myAddr ∧
      ∀ k < size - 1, ∀ r a, (peers k).greeted = some (r, a) → s.addresses[r]? = some a := by
  have hdistinct : DistinctRanks size peers := distinctRanks_of_all fun r hr hlt => by
    obtain ⟨c, hc, -⟩ := hsent r hr (Nat.le_sub_one_of_lt hlt)
    exact given_of_lastWith hc
  refine ⟨hdistinct, hacc.zero (lastWith_eq_none.mpr fun k hk hzero => ?_),
    fun k hk r a hgreeted => ?_⟩
  · obtain ⟨r, hr, hpos, -⟩ := hdistinct.given k hk
    obtain rfl := Option.some.inj (hr.symm.trans hzero)
    exact absurd hpos (Nat.lt_irrefl 0)
  · have hrank := rank_eq_some.mpr ⟨a, hgreeted⟩
    cases hlast : lastWith peers (size - 1) r with
    | none => exact absurd hrank (lastWith_eq_none.mp hlast k hk)
    | some c =>
      -- the connection in the map is this one, for no other has its rank
      obtain ⟨j, hj, rfl, hr⟩ := lastWith_eq_some hlast
      obtain rfl := hdistinct.distinct j hj k hk (hr.trans hrank.symm)
      exact hacc.addresses r _ a hlast hgreeted

/-- **When bad peers are rejected.** Rank `0` of the exchange ends with an error, or with the
table of the addresses of peers that gave all ranks but `0`, if and only if some peer gives
less than a rank and an address, and those before it give ranks below `size`; or all give
ranks below `size` and either these are all ranks but `0`, or there is a rank to which the
writes fail and no rank up to it is missing. -/
theorem exchange_rejects_iff (hsize : 1 ≤ size) :
    Rejects size myAddr peers ↔ Handled size peers := by
  have herr : ∀ e, exchangeAddresses size myAddr peers = .error (.err e) →
      Rejects size myAddr peers := fun e he => .inl ⟨e, he⟩
  have hpanic : ∀ why, exchangeAddresses size myAddr peers = .error why →
      (∀ e, why ≠ .err e) → ¬Rejects size myAddr peers := by
    rintro why hwhy hne (⟨e, he⟩ | ⟨table, htable, -⟩)
    · exact hne e (Except.error.inj (hwhy.symm.trans he))
    · cases hwhy.symm.trans htable
  rcases acceptLoop_cases myAddr peers hsize (size - 1) with
    ⟨hrange, s, hs, hacc⟩ | ⟨k, hk, hnone, hrange, hs⟩ | ⟨k, hk, r, hr, hge, hrange, hs⟩
  · have hexchange : exchangeAddresses size myAddr peers =
        (sendLoop (lastWith peers (size - 1)) (size - 1)).map fun _ => s.addresses := by
      rw [exchangeAddresses, hs, ← hacc.conns]
      rfl
    rcases sendLoop_cases (lastWith peers (size - 1)) (size - 1) with
      ⟨hsent, conns, hend, -⟩ | ⟨r, c, e, hr, hle, hc, he, hsent, hend⟩ |
        ⟨r, hr, hle, hnone, hsent, hend⟩ <;> rw [hend] at hexchange
    · obtain ⟨hdistinct, hzero, htable⟩ := table_of_sent hacc hsent
      exact iff_of_true (.inr ⟨_, hexchange, hdistinct, hacc.length, hzero, htable⟩)
        (.inr ⟨hrange, .inl hdistinct⟩)
    · have hne : c.writeError ≠ none := fun hworks => by cases he.symm.trans hworks
      refine iff_of_true (herr _ hexchange)
        (.inr ⟨hrange, .inr ⟨r, hr, by omega, ⟨c, hc, hne⟩, fun q hq hqr => ?_⟩⟩)
      rcases Nat.lt_or_ge q r with hlt | hge
      · obtain ⟨c', hc', -⟩ := hsent q hq (Nat.le_sub_one_of_lt hlt)
        exact given_of_lastWith hc'
      · exact given_of_lastWith (Nat.le_antisymm hqr hge ▸ hc)
    · exact iff_of_false (hpanic _ hexchange nofun)
        (not_handled_of_missing hrange hr (by omega) hnone hsent)
  · refine iff_of_true (herr (.bootstrap (peers k).readError) ?_) (.inl ⟨k, hk, hnone, hrange⟩)
    rw [exchangeAddresses, hs]
    rfl
  · refine iff_of_false (hpanic (.indexOutOfBounds size r) ?_ nofun)
      (not_handled_of_outOfRange hk hr hge hrange)
    rw [exchangeAddresses, hs]
    rfl

/-- Two peers that give their ranks, the higher one first. -/
theorem exchange_rejects_iff_three :
    Rejects 3 [7] fun k => ⟨greeting (2 - k) [UInt8.ofNat k], .unexpectedEof, none⟩ := by
  have hpair : ∀ j < 3 - 1, j = 0 ∨ j = 1 := by omega
  refine (exchange_rejects_iff (by decide)).mpr (.inr ⟨fun j hj => ?_, .inl ⟨fun j hj => ?_,
    fun j hj k hk h => ?_⟩⟩)
  · rcases hpair j hj with rfl | rfl
    · exact ⟨2, rfl, by decide⟩
    · exact ⟨1, rfl, by decide⟩
  · rcases hpair j hj with rfl | rfl
    · exact ⟨2, rfl, by decide⟩
    · exact ⟨1, rfl, by decide⟩
  · rcases hpair j hj with rfl | rfl <;> rcases hpair k hk with rfl | rfl
    · rfl
    · cases h
    · cases h
    · rfl

/-- **Two ways to crash rank `0`**: a rank that is too large, and a rank that two peers
give. -/
theorem exchange_panics :
    ¬Rejects 2 [7] (fun _ => ⟨greeting 5 [1], .unexpectedEof, none⟩) ∧
      ¬Rejects 3 [7] fun _ => ⟨greeting 1 [1], .unexpectedEof, none⟩ := by
  have hlarge : exchangeAddresses 2 [7] (fun _ => ⟨greeting 5 [1], .unexpectedEof, none⟩) =
      .error (.indexOutOfBounds 2 5) := rfl
  have htwice : exchangeAddresses 3 [7] (fun _ => ⟨greeting 1 [1], .unexpectedEof, none⟩) =
      .error .missingConnection := rfl
  constructor
  · rintro (⟨e, he⟩ | ⟨table, htable, -⟩)
    · cases hlarge.symm.trans he
    · cases hlarge.symm.trans htable
  · rintro (⟨e, he⟩ | ⟨table, htable, -⟩)
    · cases htwice.symm.trans he
    · cases htwice.symm.trans htable

end Bootstrap

end Pluvio
