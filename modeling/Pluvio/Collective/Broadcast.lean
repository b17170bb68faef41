import Mathlib.Data.Nat.Size
import Pluvio.Circle
import Pluvio.Collective.AmPlan

/-!
# Broadcast

A binomial tree. Ranks are counted from the root, and the rank at `l` receives in the
round of the highest bit of `l`, from the rank without that bit; in the rounds after
that it sends to the ranks that have one more bit, as long as there are such. So it
takes part in consecutive rounds, from `Pluvio.bcastFirst` on, and not in the others.

`Pluvio.broadcastRounds` is the loop of the source, `Pluvio.broadcast_eq` says which
rounds it makes, and `Pluvio.broadcastPlan` lays them out for all ranks. Whatever the
roots, what a rank is sent in round `r` comes from the rank `2 ^ r` places before it
(`Pluvio.broadcastPlan_sameSender`).
-/

namespace Pluvio

open AmNet

variable {α : Type*}

/-- `PHASE_BCAST`. -/
def phaseBcast : UInt8 := 5

/-- `usize::BITS`. -/
def usizeBits : ℕ := 64

/-- `leading_zeros`, of a `usize`. -/
def leadingZeros (x : ℕ) : ℕ := usizeBits - x.size

/-- The complement of a `usize`. -/
def usizeNot (x : ℕ) : ℕ := 2 ^ usizeBits - 1 - x

/-- `logical_highest_bit`. -/
def logicalHighestBit (x : ℕ) : ℕ := usizeBits - 1 - leadingZeros x

section Source

variable (comm : UcxCommunicator) (call len root logical : ℕ)

/-- The send of a round. -/
def broadcastSend (round ep : ℕ) : Instr Region α where
  sends := [⟨ep, ⟨UInt16.ofNat comm.rank, UInt16.ofNat round, phaseBcast, 0⟩,
    ⟨(call, .buf), 0, len⟩⟩]
  recv := none
  after := id

/-- The receive from the parent in the tree. -/
def broadcastRecv (round : ℕ) : Instr Region α :=
  let parentLogical := logical &&& usizeNot (1 <<< round)
  let parent := (parentLogical + root) % comm.size
  { sends := []
    recv := some (.ofHeader ⟨UInt16.ofNat parent, UInt16.ofNat round, phaseBcast, 0⟩,
      ⟨(call, .buf), 0, len⟩)
    after := id }

/-- The rounds of the loop; the flag is `have_data`. -/
def broadcastRounds : Bool → List ℕ → Call (Instr Region α)
  | _, [] => ⟨[], .ok ()⟩
  | true, round :: rounds =>
    let mask := 1 <<< round
    let peerLogical := logical ||| mask
    if peerLogical ≠ logical ∧ peerLogical < comm.size then
      let peer := (peerLogical + root) % comm.size
      match comm.endpoint peer with
      | none => ⟨[], .error (.protocol "bcast: missing endpoint")⟩
      | some ep =>
        let rest := broadcastRounds true rounds
        ⟨broadcastSend comm call len round ep :: rest.steps, rest.result⟩
    else broadcastRounds true rounds
  | false, round :: rounds =>
    if round = logicalHighestBit logical then
      let rest := broadcastRounds true rounds
      ⟨broadcastRecv comm call len root logical round :: rest.steps, rest.result⟩
    else broadcastRounds false rounds

/-- `broadcast`, of a buffer of `len` elements. -/
def broadcast : Call (Stage Region α) :=
  let n := comm.size
  let rank := comm.rank
  if n = 1 then ⟨[], .ok ()⟩
  else if n ≤ root then ⟨[], .error (.protocol "broadcast: root out of range")⟩
  else
    let logical := (rank + n - root) % n
    let rounds := max (usizeBits - leadingZeros (n - 1)) 1
    let made := broadcastRounds comm call len root logical (logical = 0) (List.range rounds)
    ⟨[⟨1, [made.steps]⟩], made.result⟩

end Source

/-! ### Bits -/

section Bits

variable {x r : ℕ}

theorem leadingZeros_eq (hx : x < 2 ^ 64) : usizeBits - leadingZeros x = x.size := by
  have hsize : x.size ≤ 64 := Nat.size_le.mpr hx
  rw [leadingZeros, usizeBits]
  omega

theorem logicalHighestBit_eq (hx : x < 2 ^ 64) : logicalHighestBit x = x.size - 1 := by
  have hzeros := leadingZeros_eq hx
  rw [logicalHighestBit]
  unfold usizeBits at hzeros ⊢
  omega

/-- The highest bit of a number is what it says. -/
theorem size_eq_succ_iff : x.size = r + 1 ↔ 2 ^ r ≤ x ∧ x < 2 ^ (r + 1) := by
  rw [← Nat.lt_size, ← Nat.size_le]
  omega

/-- Masking with the complement of the highest bit takes that bit away. -/
theorem and_usizeNot (hr : r < 64) (hlow : 2 ^ r ≤ x) (hhigh : x < 2 ^ (r + 1)) :
    x &&& usizeNot (1 <<< r) = x - 2 ^ r := by
  obtain ⟨y, rfl⟩ := Nat.exists_eq_add_of_le hlow
  rw [Nat.pow_succ] at hhigh
  have hy : y < 2 ^ r := by omega
  have hpow : 2 ^ r < 2 ^ 64 := Nat.pow_lt_pow_right Nat.one_lt_two hr
  have hnot : usizeNot (1 <<< r) = 2 ^ 64 - (2 ^ r + 1) := by
    rw [usizeNot, usizeBits, Nat.one_shiftLeft, Nat.sub_sub, Nat.add_comm 1]
  rw [Nat.add_sub_cancel_left, hnot]
  refine Nat.eq_of_testBit_eq fun i => ?_
  rw [Nat.testBit_and, Nat.testBit_two_pow_sub_succ hpow, Nat.testBit_two_pow]
  rcases Nat.lt_trichotomy i r with hlt | rfl | hgt
  · rw [Nat.testBit_two_pow_add_gt hlt, decide_eq_true (by omega : i < 64),
      decide_eq_false (by omega : r ≠ i), Bool.not_false, Bool.and_true, Bool.and_true]
  · rw [decide_eq_true rfl, Bool.not_true, Bool.and_false, Bool.and_false,
      Nat.testBit_lt_two_pow hy]
  · -- no bits are left there
    have hle : 2 ^ (r + 1) ≤ 2 ^ i := Nat.pow_le_pow_right Nat.two_pos hgt
    rw [Nat.pow_succ] at hle
    rw [Nat.testBit_lt_two_pow (by omega : 2 ^ r + y < 2 ^ i), Bool.false_and,
      Nat.testBit_lt_two_pow (by omega : y < 2 ^ i)]

end Bits

/-! ### The plan -/

variable {n call len root p q m k r : ℕ}

/-- The first round a rank takes part in, if it is the one at `l`. -/
def bcastFirst (l : ℕ) : ℕ := l.size - 1

/-- And the number after that of the last one. -/
def bcastLast (n l : ℕ) : ℕ := max l.size (n - 1 - l).size

/-- The send of rank `p` in round `r`. -/
def bcastSend (n call len p r : ℕ) : Send Region :=
  ⟨(p + 2 ^ r) % n, ⟨UInt16.ofNat p, UInt16.ofNat r, phaseBcast, 0⟩, ⟨(call, .buf), 0, len⟩⟩

/-- The key of that message. -/
def bcastKey (p r : ℕ) : RecvKey := .ofHeader ⟨UInt16.ofNat p, UInt16.ofNat r, phaseBcast, 0⟩

/-- The await point of rank `p` in round `r`. -/
def bcastRound (n call len root p r : ℕ) : Instr Region α :=
  if r < (back n p root).size then
    broadcastRecv (.connected n p) call len root (back n p root) r
  else broadcastSend (.connected n p) call len r ((p + 2 ^ r) % n)

/-- **A call, laid out for all ranks.** -/
def broadcastPlan (α : Type*) (n call len root : ℕ) (hn : 2 ≤ n) : Plan n Region α where
  width := 1
  window := 1
  len p _ := bcastLast n (back n p root) - bcastFirst (back n p root)
  instr p _ k := bcastRound n call len root p (bcastFirst (back n p root) + k)
  window_pos := Nat.one_pos
  len_pos p hp _ _ := by
    have hroot : 0 < (n - 1).size := Nat.size_pos.mpr (by omega)
    rcases Nat.eq_zero_or_pos (back n p root) with hzero | hpos
    · rw [hzero, bcastLast, bcastFirst, Nat.size_zero]
      simp only [Nat.sub_zero]
      omega
    · have hsize := Nat.size_pos.mpr hpos
      rw [bcastLast, bcastFirst]
      omega

/-- The peer of a round. -/
theorem bcast_peer (hp : p < n) (hroot : root < n) (c : ℕ) :
    (back n p root + c + root) % n = (p + c) % n := by
  rw [show back n p root + c + root = root + back n p root + c by omega, ← Nat.mod_add_mod,
    add_back hp hroot]

/-- **The rounds of a rank that has the data**: it sends as long as there is a peer. -/
theorem broadcastRounds_true (call len : ℕ) (hp : p < n) (hroot : root < n) (a d : ℕ)
    (ha : (back n p root).size ≤ a) :
    (broadcastRounds (.connected n p) call len root (back n p root) true (List.range' a d) :
        Call (Instr Region α)) =
      ⟨(List.range' a (min (a + d) (n - 1 - back n p root).size - a)).map
        (bcastRound n call len root p), .ok ()⟩ := by
  have hl : back n p root < n := back_lt hp
  induction d generalizing a with
  | zero =>
    rw [show min (a + 0) (n - 1 - back n p root).size - a = 0 by omega]
    rfl
  | succ d ih =>
    have hlt : back n p root < 2 ^ a := Nat.size_le.mp ha
    have hpeer : back n p root ||| 1 <<< a = back n p root + 2 ^ a := by
      have hor := Nat.two_pow_add_eq_or_of_lt hlt 1
      rw [Nat.mul_one] at hor
      rw [Nat.or_comm, Nat.one_shiftLeft, ← hor, Nat.add_comm]
    have hiff : back n p root + 2 ^ a < n ↔ a < (n - 1 - back n p root).size := by
      rw [Nat.lt_size]
      omega
    have hpos := Nat.two_pow_pos a
    have hnext := ih (a + 1) (by omega)
    rw [List.range'_succ, broadcastRounds]
    dsimp only
    rw [hpeer, show (UcxCommunicator.connected n p).size = n from rfl]
    by_cases hlast : a < (n - 1 - back n p root).size
    · have hin := hiff.mpr hlast
      have hep : (UcxCommunicator.connected n p).endpoint ((p + 2 ^ a) % n) =
          some ((p + 2 ^ a) % n) := by
        refine UcxCommunicator.endpoint_connected (Nat.mod_lt _ (by omega)) ?_
        rw [mod_eq_ite (by omega)]
        split <;> omega
      have hlen : min (a + (d + 1)) (n - 1 - back n p root).size - a =
          min (a + 1 + d) (n - 1 - back n p root).size - (a + 1) + 1 := by omega
      rw [if_pos ⟨by omega, hin⟩, bcast_peer hp hroot, hep, hnext, hlen, List.range'_succ,
        List.map_cons, bcastRound, if_neg (Nat.not_lt.mpr ha)]
    · -- there is no peer any more
      have hlen : min (a + (d + 1)) (n - 1 - back n p root).size - a =
          min (a + 1 + d) (n - 1 - back n p root).size - (a + 1) := by omega
      have hzero : min (a + 1 + d) (n - 1 - back n p root).size - (a + 1) = 0 := by omega
      rw [if_neg fun hc => hlast (hiff.mp hc.2), hnext, hlen, hzero]
      rfl

/-- **The rounds of a rank that waits for the data.** -/
theorem broadcastRounds_false (call len : ℕ) (hsize : n < 2 ^ 64) (hp : p < n) (hroot : root < n)
    (hpos : 0 < back n p root) (a d : ℕ) (ha : a < (back n p root).size)
    (had : (back n p root).size ≤ a + d) :
    (broadcastRounds (.connected n p) call len root (back n p root) false (List.range' a d) :
        Call (Instr Region α)) =
      ⟨bcastRound n call len root p (bcastFirst (back n p root)) ::
        (List.range' (back n p root).size (min (a + d) (n - 1 - back n p root).size -
          (back n p root).size)).map (bcastRound n call len root p), .ok ()⟩ := by
  have hl : back n p root < n := back_lt hp
  have hsizepos := Nat.size_pos.mpr hpos
  induction d generalizing a with
  | zero => omega
  | succ d ih =>
    rw [List.range'_succ, broadcastRounds, logicalHighestBit_eq (by omega)]
    dsimp only
    by_cases hhere : a = (back n p root).size - 1
    · have hrest := broadcastRounds_true (α := α) call len hp hroot (a + 1) d (by omega)
      rw [if_pos hhere, hrest, bcastRound, bcastFirst, if_pos (by omega), ← hhere,
        show (back n p root).size = a + 1 by omega, show a + 1 + d = a + (d + 1) by omega]
    · have hnext := ih (a + 1) (by omega) (by omega)
      rw [if_neg hhere, hnext, show a + 1 + d = a + (d + 1) by omega]

/-- **A call** makes the rounds of the plan and returns `Ok`. -/
theorem broadcast_eq (hn : 2 ≤ n) (hsize : n < 2 ^ 64) (hp : p < n) (hroot : root < n)
    (call len : ℕ) : (broadcast (.connected n p) call len root : Call (Stage Region α)) =
      ⟨[(broadcastPlan α n call len root hn).stage p], .ok ()⟩ := by
  have hl : back n p root < n := back_lt hp
  have hrounds : max (usizeBits - leadingZeros (n - 1)) 1 = (n - 1).size := by
    have hpos : 0 < (n - 1).size := Nat.size_pos.mpr (by omega)
    rw [leadingZeros_eq (by omega)]
    omega
  have hle : (n - 1 - back n p root).size ≤ (n - 1).size := Nat.size_le_size (by omega)
  unfold broadcast
  rw [show (UcxCommunicator.connected n p).size = n from rfl,
    show (UcxCommunicator.connected n p).rank = p from rfl]
  dsimp only
  rw [if_neg (by omega), if_neg (by omega), hrounds, List.range_eq_range', ← back]
  simp only [Plan.stage, broadcastPlan, List.range_one, List.map_singleton]
  rcases Nat.eq_zero_or_pos (back n p root) with hzero | hpos
  · have hmade := broadcastRounds_true (α := α) call len hp hroot 0 (n - 1).size (by
      rw [hzero, Nat.size_zero])
    have hlen : min (0 + (n - 1).size) (n - 1 - back n p root).size - 0 =
        bcastLast n (back n p root) - bcastFirst (back n p root) := by
      rw [hzero, bcastLast, bcastFirst, Nat.size_zero]
      simp only [Nat.sub_zero]
      omega
    have hfirst : bcastFirst (back n p root) = 0 := by
      rw [hzero, bcastFirst, Nat.size_zero]
    rw [decide_eq_true hzero, hmade, hlen, ← List.range_eq_range']
    simp only [hfirst, Nat.zero_add]
  · have hsizepos := Nat.size_pos.mpr hpos
    have hmade := broadcastRounds_false (α := α) call len hsize hp hroot hpos 0 (n - 1).size
      hsizepos (by rw [Nat.zero_add]; exact Nat.size_le_size (by omega))
    have hlen : bcastLast n (back n p root) - bcastFirst (back n p root) =
        min (0 + (n - 1).size) (n - 1 - back n p root).size - (back n p root).size + 1 := by
      rw [bcastLast, bcastFirst]
      omega
    rw [decide_eq_false hpos.ne', hmade, hlen, List.range_succ_eq_map, List.map_cons, List.map_map,
      List.range'_eq_map_range, List.map_map, Nat.add_zero]
    refine congrArg (fun steps => Call.mk [Stage.mk 1 [_ :: steps]] (.ok ())) ?_
    refine List.map_congr_left fun i _ => ?_
    show bcastRound n call len root p _ = bcastRound n call len root p _
    rw [bcastFirst, show (back n p root).size - 1 + (i + 1) = (back n p root).size + i by omega]

/-- A call with a root that is not a rank returns an error at once, at every rank. -/
theorem broadcast_of_root_le (hn : n ≠ 1) (hroot : n ≤ root) (p call len : ℕ) :
    (broadcast (.connected n p) call len root : Call (Stage Region α)) =
      ⟨[], .error (.protocol "broadcast: root out of range")⟩ :=
  (if_neg hn).trans (if_pos hroot)

/-! ### Sends and receives -/

/-- A rank sends in the rounds after the one of its highest bit, while there is a rank
with one more bit. -/
theorem broadcastPlan_isSend {hn : 2 ≤ n} {j : ℕ} {sd : Send Region} :
    (broadcastPlan α n call len root hn).IsSend p m k j sd ↔ p < n ∧ m = 0 ∧ j = 0 ∧
      ∃ r, bcastFirst (back n p root) + k = r ∧ (back n p root).size ≤ r ∧
        back n p root + 2 ^ r < n ∧ sd = bcastSend n call len p r := by
  have hlast : ∀ r, p < n → (back n p root + 2 ^ r < n ↔ r < (n - 1 - back n p root).size) := by
    intro r hp
    have hl : back n p root < n := back_lt hp
    rw [Nat.lt_size]
    omega
  constructor
  · rintro ⟨hat, hsd⟩
    have hp := hat.rank
    have hm : m < 1 := hat.chain
    have hk : k < bcastLast n (back n p root) - bcastFirst (back n p root) := hat.pos
    have hsd : (bcastRound (α := α) n call len root p
      (bcastFirst (back n p root) + k)).sends[j]? = some sd := hsd
    by_cases hr : bcastFirst (back n p root) + k < (back n p root).size
    · rw [bcastRound, if_pos hr] at hsd
      exact nomatch hsd
    · rw [bcastRound, if_neg hr] at hsd
      rcases j with - | j
      · refine ⟨hp, by omega, rfl, _, rfl, Nat.not_lt.mp hr, (hlast _ hp).mpr ?_,
          (Option.some.inj hsd).symm⟩
        rw [bcastLast] at hk
        omega
      · exact nomatch hsd
  · rintro ⟨hp, rfl, rfl, r, rfl, hr, hlt, rfl⟩
    refine ⟨⟨hp, Nat.one_pos, ?_⟩, ?_⟩
    · have hend := (hlast _ hp).mp hlt
      show k < bcastLast n (back n p root) - bcastFirst (back n p root)
      rw [bcastLast]
      omega
    · show (bcastRound (α := α) n call len root p _).sends[0]? = _
      rw [bcastRound, if_neg (Nat.not_lt.mpr hr)]
      rfl

/-- The parent of a rank, which is `2 ^ r` places before it. -/
theorem bcast_parent (hsize : n < 2 ^ 64) (hq : q < n) (hroot : root < n)
    (hlow : 2 ^ r ≤ back n q root) (hhigh : back n q root < 2 ^ (r + 1)) :
    ((back n q root &&& usizeNot (1 <<< r)) + root) % n = back n q (2 ^ r) := by
  have hl : back n q root < n := back_lt hq
  have hr : r < 64 := (Nat.pow_lt_pow_iff_right Nat.one_lt_two).mp (by omega)
  rw [and_usizeNot hr hlow hhigh, back_eq_ite hq (by omega : 2 ^ r ≤ n)]
  rw [back_eq_ite hq hroot.le] at hlow hl ⊢
  rw [mod_eq_ite (by split <;> omega)]
  split_ifs at * <;> omega

/-- A rank other than the root receives first of all, in the round of its highest bit. -/
theorem broadcastPlan_isRecv {hn : 2 ≤ n} (hsize : n < 2 ^ 64) (hroot : root < n) {κ : RecvKey}
    {t : Slice Region} : (broadcastPlan α n call len root hn).IsRecv q m k κ t ↔ q < n ∧ m = 0 ∧
      k = 0 ∧ ∃ r, (back n q root).size = r + 1 ∧ κ = bcastKey (back n q (2 ^ r)) r ∧
        t = ⟨(call, .buf), 0, len⟩ := by
  have hkey : ∀ r, q < n → (back n q root).size = r + 1 →
      (bcastRound (α := α) n call len root q r).recv =
        some (bcastKey (back n q (2 ^ r)) r, ⟨(call, .buf), 0, len⟩) := by
    intro r hq hr
    obtain ⟨hlow, hhigh⟩ := size_eq_succ_iff.mp hr
    rw [bcastRound, if_pos (by omega), broadcastRecv]
    dsimp only
    rw [show (UcxCommunicator.connected n q).size = n from rfl,
      bcast_parent hsize hq hroot hlow hhigh]
    rfl
  constructor
  · rintro ⟨hat, hrecv⟩
    have hq := hat.rank
    have hm : m < 1 := hat.chain
    have hrecv : (bcastRound (α := α) n call len root q
      (bcastFirst (back n q root) + k)).recv = some (κ, t) := hrecv
    by_cases hr : bcastFirst (back n q root) + k < (back n q root).size
    · rw [bcastFirst] at hr
      obtain ⟨r, hr'⟩ : ∃ r, (back n q root).size = r + 1 :=
        ⟨(back n q root).size - 1, by omega⟩
      have hpos : bcastFirst (back n q root) + k = r := by
        rw [bcastFirst]
        omega
      rw [hpos, hkey r hq hr'] at hrecv
      obtain ⟨rfl, rfl⟩ := Prod.mk.inj (Option.some.inj hrecv)
      exact ⟨hq, by omega, by omega, r, hr', rfl, rfl⟩
    · rw [bcastRound, if_neg hr] at hrecv
      exact nomatch hrecv
  · rintro ⟨hq, rfl, rfl, r, hr, rfl, rfl⟩
    have hfirst : bcastFirst (back n q root) + 0 = r := by
      rw [bcastFirst]
      omega
    refine ⟨⟨hq, Nat.one_pos, ?_⟩, ?_⟩
    · show 0 < bcastLast n (back n q root) - bcastFirst (back n q root)
      rw [bcastLast, bcastFirst]
      omega
    · show (bcastRound (α := α) n call len root q _).recv = _
      rw [hfirst]
      exact hkey r hq hr

/-- The key of a message says its round. -/
theorem bcastKey_inj {p' r' : ℕ} (hr : r < 64) (hr' : r' < 64)
    (h : bcastKey p r = bcastKey p' r') : r = r' := by
  have hnat := congrArg UInt16.toNat (congrArg RecvKey.step h)
  rw [bcastKey, bcastKey] at hnat
  change (UInt16.ofNat r).toNat = (UInt16.ofNat r').toNat at hnat
  rw [UInt16.toNat_ofNat', UInt16.toNat_ofNat'] at hnat
  omega

/-- The round of a send fits into a `usize`. -/
theorem bcast_round_lt {l : ℕ} (hsize : n < 2 ^ 64) (h : l + 2 ^ r < n) : r < 64 :=
  (Nat.pow_lt_pow_iff_right Nat.one_lt_two).mp (by omega)

/-- The place of the peer, counted from the root. -/
theorem back_peer (hp : p < n) (hroot : root < n) {c : ℕ} (hlt : back n p root + c < n) :
    back n ((p + c) % n) root = back n p root + c := by
  rw [back_eq_ite hp hroot.le] at hlt ⊢
  rw [mod_eq_ite (by split at hlt <;> omega), back_eq_ite (by split_ifs <;> omega) hroot.le]
  split_ifs at * <;> omega

/-- The place of the parent. -/
theorem back_parent (hq : q < n) (hroot : root < n) {c : ℕ} (hle : c ≤ back n q root) :
    back n (back n q c) root = back n q root - c := by
  have hl : back n q root < n := back_lt hq
  rw [back_eq_ite hq hroot.le] at hle hl ⊢
  have hc : c ≤ n := by split at hle <;> omega
  rw [back_eq_ite (back_lt hq) hroot.le, back_eq_ite hq hc]
  split_ifs at * <;> omega

/-- The round of an await point. -/
def bcastTime (n root p k : ℕ) : ℕ := bcastFirst (back n p root) + k

/-- **Sends and receives of a call match**, round by round. -/
theorem broadcastPlan_matched {hn : 2 ≤ n} (hsize : n < 2 ^ 64) (hroot : root < n) :
    (broadcastPlan α n call len root hn).Matched fun p _ k => bcastTime n root p k := by
  constructor
  · exact fun hlt => Nat.add_lt_add_left hlt _
  · intro p m k j sd p' m' k' j' sd' hs hs' hdst hkey
    obtain ⟨hp, rfl, rfl, r, hk, -, hlt, rfl⟩ := broadcastPlan_isSend.mp hs
    obtain ⟨hp', rfl, rfl, r', hk', -, hlt', rfl⟩ := broadcastPlan_isSend.mp hs'
    obtain rfl := bcastKey_inj (bcast_round_lt hsize hlt) (bcast_round_lt hsize hlt') hkey
    have hpow : 2 ^ r < n := by omega
    obtain rfl := add_mod_inj hp hp' hpow hdst
    exact ⟨rfl, rfl, by omega, rfl⟩
  · intro q m k m' k' κ t t' h h'
    obtain ⟨-, rfl, rfl, -⟩ := (broadcastPlan_isRecv hsize hroot).mp h
    obtain ⟨-, rfl, rfl, -⟩ := (broadcastPlan_isRecv hsize hroot).mp h'
    exact ⟨rfl, rfl⟩
  · intro q m k κ t h
    obtain ⟨hq, rfl, rfl, r, hr, rfl, rfl⟩ := (broadcastPlan_isRecv hsize hroot).mp h
    obtain ⟨hlow, hhigh⟩ := size_eq_succ_iff.mp hr
    have hl : back n q root < n := back_lt hq
    have hplace := back_parent hq hroot hlow
    rw [Nat.pow_succ] at hhigh
    -- the parent has no bit from `r` on
    have hparent : (back n (back n q (2 ^ r)) root).size ≤ r := by
      rw [hplace, Nat.size_le]
      omega
    have hfirst : bcastFirst (back n (back n q (2 ^ r)) root) ≤ r := by
      rw [bcastFirst]
      omega
    refine ⟨back n q (2 ^ r), r - bcastFirst (back n (back n q (2 ^ r)) root), 0, _,
      broadcastPlan_isSend.mpr ⟨back_lt hq, rfl, rfl, r, by omega, hparent, by omega, rfl⟩, ?_,
      rfl, ?_⟩
    · show (back n q (2 ^ r) + 2 ^ r) % n = q
      rw [Nat.add_comm, add_back hq (by omega)]
    · rw [bcastTime, bcastTime]
      have hown : bcastFirst (back n q root) = r := by
        rw [bcastFirst]
        omega
      omega
  · intro p m k j sd hs
    obtain ⟨hp, rfl, rfl, r, hk, hr, hlt, rfl⟩ := broadcastPlan_isSend.mp hs
    have hplace := back_peer hp hroot hlt
    have hsmall := Nat.size_le.mp hr
    have hpow : 2 ^ r < n := by omega
    refine ⟨0, _, (broadcastPlan_isRecv hsize hroot).mpr ⟨Nat.mod_lt _ (by omega), rfl, rfl, r, ?_,
      ?_, rfl⟩⟩
    · show (back n ((p + 2 ^ r) % n) root).size = r + 1
      rw [hplace, size_eq_succ_iff, Nat.pow_succ]
      omega
    · show bcastKey p r = bcastKey (back n ((p + 2 ^ r) % n) (2 ^ r)) r
      rw [back_add_mod hp hpow]

/-- The phase of the keys. -/
theorem phase_broadcastPlan {hn : 2 ≤ n} {j : ℕ} {sd : Send Region}
    (hs : (broadcastPlan α n call len root hn).IsSend p m k j sd) : sd.key.phase = phaseBcast := by
  obtain ⟨-, -, -, r, -, -, -, rfl⟩ := broadcastPlan_isSend.mp hs
  rfl

/-- **Two calls use a key towards a rank from the same rank**, whatever their roots: the
one that is as many places before it as the round says. -/
theorem broadcastPlan_sameSender {hn hn' : 2 ≤ n} (hsize : n < 2 ^ 64)
    {call' len' root' : ℕ} : (broadcastPlan α n call len root hn).SameSender
      (broadcastPlan α n call' len' root' hn') := by
  intro p m k j sd p' m' k' j' sd' hs hs' hdst hkey
  obtain ⟨hp, -, -, r, -, -, hlt, rfl⟩ := broadcastPlan_isSend.mp hs
  obtain ⟨hp', -, -, r', -, -, hlt', rfl⟩ := broadcastPlan_isSend.mp hs'
  obtain rfl := bcastKey_inj (bcast_round_lt hsize hlt) (bcast_round_lt hsize hlt') hkey
  exact add_mod_inj hp hp' (by omega) hdst

end Pluvio
