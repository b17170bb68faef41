import Mathlib.Data.Nat.Log
import Pluvio.Circle
import Pluvio.Collective.AmOutline
import Pluvio.Collective.AmProgress

/-!
# Bruck allgather

In round `k` a rank sends what it has to the rank `2 ^ k` places before it and
receives as much from the rank `2 ^ k` places after it. What it has is the
contributions of the ranks from itself on, in this order: twice as many after each
round, until all `n` are there. The last round is cut short when `n` is not a power
of two. A local rotation puts the contributions where they belong.

`Pluvio.bruckRounds` is the loop, `Pluvio.bruckRounds_eq` says which rounds it
makes, and `Pluvio.bruckPlan` lays them out for all ranks; the keys of a round are
those of no other one (`Pluvio.bruckPlan_matched`).
-/

namespace Pluvio

open AmNet

variable {α : Type*}

/-- `PHASE_BRUCK`. -/
def phaseBruck : UInt8 := 4

section Source

variable (comm : UcxCommunicator) (call l : ℕ)

/-- The copy of `send_buf` to the start of `recv_buf`. -/
def bruckCopy : Instr Region α where
  sends := []
  recv := none
  after h := h.copyInto ⟨(call, .buf), 0, l⟩ (h.read ⟨(call, .send), 0, l⟩)

/-- The exchange of a round. -/
def bruckRound (count toSend round sendEp : ℕ) : Instr Region α :=
  let n := comm.size
  let rank := comm.rank
  let recvPeer := (rank + count) % n
  { sends := [⟨sendEp, ⟨UInt16.ofNat rank, UInt16.ofNat round, phaseBruck, 0⟩,
      ⟨(call, .buf), 0, toSend * l⟩⟩]
    recv := some (.ofHeader ⟨UInt16.ofNat recvPeer, UInt16.ofNat round, phaseBruck, 0⟩,
      ⟨(call, .buf), count * l, toSend * l⟩)
    after := id }

/-- The final local rotation, through the buffer `rotated`, which is filled with the first element
of `send_buf`: there has to be one, for the call panics here when it is empty. -/
def bruckRotate : Instr Region α where
  sends := []
  recv := none
  after h :=
    let n := comm.size
    let rank := comm.rank
    let first := h (call, .send) 0
    let rotated := h.copyInto ⟨(call, .tmp 0), 0, n * l⟩ (List.replicate (n * l) first)
    let rotated := (List.range n).foldl (fun h k =>
      let global := (rank + k) % n
      h.copyInto ⟨(call, .tmp 0), global * l, l⟩ (h.read ⟨(call, .buf), k * l, l⟩)) rotated
    rotated.copyInto ⟨(call, .buf), 0, n * l⟩ (rotated.read ⟨(call, .tmp 0), 0, n * l⟩)

/-- The loop, with `count` contributions at hand, and what follows it. -/
def bruckRounds (count round : ℕ) : Call (Instr Region α) :=
  if 0 < count ∧ count < comm.size then
    let n := comm.size
    let toSend := min count (n - count)
    let sendPeer := (comm.rank + n - count) % n
    match comm.endpoint sendPeer with
    | none => ⟨[], .error (.protocol "bruck: missing endpoint")⟩
    | some sendEp =>
      let rest := bruckRounds (count + toSend) (round + 1)
      ⟨bruckRound comm call l count toSend round sendEp :: rest.steps, rest.result⟩
  else ⟨[bruckRotate comm call l], .ok ()⟩
termination_by comm.size - count

/-- `bruck_allgather`, with `l` elements in `send_buf` and `recvLen` in `recv_buf`. -/
def bruckAllgather (recvLen : ℕ) : Call (Stage Region α) :=
  let n := comm.size
  if recvLen ≠ l * n then ⟨[], .error .badShape⟩
  else if n = 1 then ⟨[⟨1, [[bruckCopy call l]]⟩], .ok ()⟩
  else
    let rounds := bruckRounds comm call l 1 0
    ⟨[⟨1, [bruckCopy call l :: rounds.steps]⟩], rounds.result⟩

end Source

/-! ### The rounds -/

variable {n l call p q k : ℕ}

/-- How many contributions a rank has before round `k`. -/
def bruckCount (n k : ℕ) : ℕ := min (2 ^ k) n

/-- How many of them it sends. -/
def bruckToSend (n k : ℕ) : ℕ := min (2 ^ k) (n - 2 ^ k)

/-- The number of rounds, in each of which a rank has twice as many contributions. -/
def bruckTotal (n : ℕ) : ℕ := Nat.clog 2 n

/-- A round that is made has contributions missing before it. -/
theorem lt_bruckTotal_iff : k < bruckTotal n ↔ 2 ^ k < n := Nat.lt_clog_iff_pow_lt Nat.one_lt_two

theorem bruckCount_of_lt (hk : k < bruckTotal n) : bruckCount n k = 2 ^ k :=
  min_eq_left (lt_bruckTotal_iff.mp hk).le

/-- **A round adds what is received.** -/
theorem bruckCount_succ (hk : k < bruckTotal n) :
    2 ^ k + bruckToSend n k = bruckCount n (k + 1) := by
  have hlt := lt_bruckTotal_iff.mp hk
  rw [bruckToSend, bruckCount, Nat.pow_succ]
  omega

/-- After the last round all contributions are there. -/
theorem bruckCount_total (n : ℕ) : bruckCount n (bruckTotal n) = n :=
  min_eq_right (Nat.le_pow_clog Nat.one_lt_two n)

/-- No round is past the last value of its counter. -/
theorem bruckTotal_le (hn : n < 2 ^ 64) : bruckTotal n ≤ 64 := Nat.clog_le_of_le_pow hn.le

/-- Round `k` of rank `p`. -/
def bruckRoundOf (n call l p k : ℕ) : Instr Region α :=
  bruckRound (.connected n p) call l (2 ^ k) (bruckToSend n k) k (back n p (2 ^ k))

/-- **The loop** makes the rounds up to the last one. -/
theorem bruckRounds_eq (call l : ℕ) (hp : p < n) (k : ℕ) (hk : k ≤ bruckTotal n) :
    (bruckRounds (.connected n p) call l (bruckCount n k) k : Call (Instr Region α)) =
      ⟨(List.range' k (bruckTotal n - k)).map (bruckRoundOf n call l p) ++
        [bruckRotate (.connected n p) call l], .ok ()⟩ := by
  induction hd : bruckTotal n - k generalizing k with
  | zero =>
    obtain rfl : k = bruckTotal n := by omega
    rw [bruckCount_total, bruckRounds, if_neg fun hc => absurd hc.2 (Nat.lt_irrefl n)]
    rfl
  | succ d ih =>
    have hlt : k < bruckTotal n := by omega
    have hpow := lt_bruckTotal_iff.mp hlt
    have hpos := Nat.two_pow_pos k
    have hep : (UcxCommunicator.connected n p).endpoint (back n p (2 ^ k)) =
        some (back n p (2 ^ k)) := by
      refine UcxCommunicator.endpoint_connected (back_lt hp) ?_
      rw [back_eq_ite hp hpow.le]
      split <;> omega
    have hnext := ih (k + 1) hlt (by omega)
    rw [← bruckCount_succ hlt] at hnext
    rw [bruckRounds, bruckCount_of_lt hlt, if_pos ⟨hpos, hpow⟩]
    show (match (UcxCommunicator.connected n p).endpoint (back n p (2 ^ k)) with
      | none => (⟨[], .error (.protocol "bruck: missing endpoint")⟩ : Call (Instr Region α))
      | some sendEp => _) = _
    rw [hep]
    dsimp only
    show Call.mk (_ :: (bruckRounds (.connected n p) call l (2 ^ k + bruckToSend n k)
      (k + 1)).steps) (bruckRounds (.connected n p) call l (2 ^ k + bruckToSend n k)
        (k + 1)).result = _
    rw [hnext, List.range'_succ, List.map_cons, List.cons_append]
    rfl

/-! ### The plan -/

/-- The await points of a call: the copy, the rounds and the rotation. -/
def bruckInstr (n call l p k : ℕ) : Instr Region α :=
  if k = 0 then bruckCopy call l
  else if k ≤ bruckTotal n then bruckRoundOf n call l p (k - 1)
  else bruckRotate (.connected n p) call l

/-- How many there are: a rank on its own only copies. -/
def bruckLen (n : ℕ) : ℕ := if n = 1 then 1 else bruckTotal n + 2

/-- **A call, laid out for all ranks.** -/
def bruckPlan (α : Type*) (n call l : ℕ) : Plan n Region α where
  width := 1
  window := 1
  len _ _ := bruckLen n
  instr p _ k := bruckInstr n call l p k
  window_pos := Nat.one_pos
  len_pos _ _ _ _ := by
    unfold bruckLen
    split <;> omega

/-- **A call with a good shape** makes the rounds of the plan and returns `Ok`. -/
theorem bruckAllgather_eq (hp : p < n) (call l : ℕ) :
    (bruckAllgather (.connected n p) call l (l * n) : Call (Stage Region α)) =
      ⟨[(bruckPlan α n call l).stage p], .ok ()⟩ := by
  have hsize : (UcxCommunicator.connected n p).size = n := rfl
  rw [bruckAllgather]
  simp only [hsize, ne_eq, not_true_eq_false, if_false]
  by_cases hn : n = 1
  · subst hn
    rfl
  · rw [if_neg hn]
    have hcount : bruckCount n 0 = 1 := min_eq_left (by omega)
    have hrounds := bruckRounds_eq (α := α) call l hp 0 (Nat.zero_le _)
    rw [hcount, Nat.sub_zero] at hrounds
    have hsteps : bruckCopy call l :: ((List.range' 0 (bruckTotal n)).map
        (bruckRoundOf n call l p) ++ [bruckRotate (.connected n p) call l]) =
          (List.range (bruckTotal n + 2)).map (bruckInstr (α := α) n call l p) := by
      rw [List.range_succ_eq_map, List.map_cons, List.map_map, List.range_succ, List.map_append,
        List.map_singleton, ← List.range_eq_range']
      refine congrArg₂ _ rfl (congrArg₂ _ (List.map_congr_left fun k hk => ?_) ?_)
      · have hk := List.mem_range.mp hk
        show _ = bruckInstr n call l p (k + 1)
        rw [bruckInstr, if_neg k.succ_ne_zero, if_pos (by omega), Nat.add_sub_cancel]
      · show _ = [bruckInstr n call l p (bruckTotal n + 1)]
        rw [bruckInstr, if_neg (Nat.succ_ne_zero _), if_neg (by omega)]
    rw [hrounds, hsteps]
    simp only [Plan.stage, bruckPlan, bruckLen, if_neg hn, List.range_one, List.map_singleton]

/-! ### The keys of a round -/

/-- The key of the message rank `p` sends in round `k`. -/
def bruckKey (p k : ℕ) : RecvKey :=
  .ofHeader ⟨UInt16.ofNat p, UInt16.ofNat k, phaseBruck, 0⟩

/-- What rank `p` sends in round `k`. -/
def bruckSend (n call l p k : ℕ) : Send Region :=
  ⟨back n p (2 ^ k), ⟨UInt16.ofNat p, UInt16.ofNat k, phaseBruck, 0⟩,
    ⟨(call, .buf), 0, bruckToSend n k * l⟩⟩

theorem bruckInstr_succ (hk : k < bruckTotal n) :
    (bruckInstr n call l p (k + 1) : Instr Region α) = bruckRoundOf n call l p k := by
  rw [bruckInstr, if_neg k.succ_ne_zero, if_pos (by omega), Nat.add_sub_cancel]

theorem bruckInstr_last :
    (bruckInstr n call l p (bruckTotal n + 1) : Instr Region α) =
      bruckRotate (.connected n p) call l := by
  rw [bruckInstr, if_neg (Nat.succ_ne_zero _), if_neg (by omega)]

/-- **The await points of a call**: the copy, a round, or the rotation. -/
theorem bruckPlan_at {m : ℕ} (h : (bruckPlan α n call l).At p m k) :
    p < n ∧ m = 0 ∧ (k = 0 ∨ (∃ r < bruckTotal n, k = r + 1) ∨ n ≠ 1 ∧ k = bruckTotal n + 1) := by
  refine ⟨h.rank, Nat.lt_one_iff.mp h.chain, ?_⟩
  have hk : k < bruckLen n := h.pos
  unfold bruckLen at hk
  split at hk
  · exact .inl (by omega)
  · next hn =>
    rcases k with - | r
    · exact .inl rfl
    · rcases Nat.lt_or_ge r (bruckTotal n) with hr | hr
      · exact .inr (.inl ⟨r, hr, rfl⟩)
      · exact .inr (.inr ⟨hn, by omega⟩)

/-- A round is an await point of the call. -/
theorem bruckPlan_at_round (hp : p < n) (hk : k < bruckTotal n) :
    (bruckPlan α n call l).At p 0 (k + 1) := by
  refine ⟨hp, Nat.one_pos, ?_⟩
  show k + 1 < bruckLen n
  have hpow := lt_bruckTotal_iff.mp hk
  have hpos := Nat.two_pow_pos k
  rw [bruckLen, if_neg (by omega)]
  omega

theorem bruckPlan_isSend {m j : ℕ} {sd : Send Region} :
    (bruckPlan α n call l).IsSend p m k j sd ↔ p < n ∧ m = 0 ∧ j = 0 ∧
      ∃ r < bruckTotal n, k = r + 1 ∧ sd = bruckSend n call l p r := by
  constructor
  · rintro ⟨hat, hsd⟩
    obtain ⟨hp, rfl, rfl | ⟨r, hr, rfl⟩ | ⟨-, rfl⟩⟩ := bruckPlan_at hat
    · cases hsd
    · have hsd : (bruckInstr (α := α) n call l p (r + 1)).sends[j]? = some sd := hsd
      rw [bruckInstr_succ hr] at hsd
      rcases j with - | j
      · exact ⟨hp, rfl, rfl, r, hr, rfl, (Option.some.inj hsd).symm⟩
      · cases hsd
    · have hsd : (bruckInstr (α := α) n call l p (bruckTotal n + 1)).sends[j]? = some sd := hsd
      rw [bruckInstr_last] at hsd
      cases hsd
  · rintro ⟨hp, rfl, rfl, r, hr, rfl, rfl⟩
    refine ⟨bruckPlan_at_round hp hr, ?_⟩
    show (bruckInstr (α := α) n call l p (r + 1)).sends[0]? = _
    rw [bruckInstr_succ hr]
    rfl

theorem bruckPlan_isRecv {m : ℕ} {κ : RecvKey} {t : Slice Region} :
    (bruckPlan α n call l).IsRecv q m k κ t ↔ q < n ∧ m = 0 ∧ ∃ r < bruckTotal n, k = r + 1 ∧
      κ = bruckKey ((q + 2 ^ r) % n) r ∧ t = ⟨(call, .buf), 2 ^ r * l, bruckToSend n r * l⟩ := by
  constructor
  · rintro ⟨hat, hrecv⟩
    obtain ⟨hq, rfl, rfl | ⟨r, hr, rfl⟩ | ⟨-, rfl⟩⟩ := bruckPlan_at hat
    · cases hrecv
    · have hrecv : (bruckInstr (α := α) n call l q (r + 1)).recv = some (κ, t) := hrecv
      rw [bruckInstr_succ hr] at hrecv
      cases hrecv
      exact ⟨hq, rfl, r, hr, rfl, rfl, rfl⟩
    · have hrecv : (bruckInstr (α := α) n call l q (bruckTotal n + 1)).recv = some (κ, t) := hrecv
      rw [bruckInstr_last] at hrecv
      cases hrecv
  · rintro ⟨hq, rfl, r, hr, rfl, rfl, rfl⟩
    refine ⟨bruckPlan_at_round hq hr, ?_⟩
    show (bruckInstr (α := α) n call l q (r + 1)).recv = _
    rw [bruckInstr_succ hr]
    rfl

/-- The round of a key. -/
theorem bruckKey_step (hn : n < 2 ^ 64) (hk : k < bruckTotal n) (p : ℕ) :
    (bruckKey p k).step.toNat = k := by
  have htotal := bruckTotal_le hn
  show (UInt16.ofNat k).toNat = k
  rw [UInt16.toNat_ofNat']
  omega

/-- **The key of a message says its round.** -/
theorem bruckKey_inj (hn : n < 2 ^ 64) {p' k' : ℕ} (hk : k < bruckTotal n)
    (hk' : k' < bruckTotal n) (h : bruckKey p k = bruckKey p' k') : k = k' := by
  rw [← bruckKey_step hn hk p, h, bruckKey_step hn hk']

/-- **Sends and receives of a call match**: what rank `p` sends in round `k` is what
the rank `2 ^ k` places before it receives in that round. -/
theorem bruckPlan_matched (hn : n < 2 ^ 64) (call l : ℕ) :
    (bruckPlan α n call l).Matched fun _ _ k => k := by
  constructor
  · exact fun h => h
  · intro p m k j sd p' m' k' j' sd' hs hs' hdst hkey
    obtain ⟨hp, rfl, rfl, r, hr, rfl, rfl⟩ := bruckPlan_isSend.mp hs
    obtain ⟨hp', rfl, rfl, r', hr', rfl, rfl⟩ := bruckPlan_isSend.mp hs'
    obtain rfl := bruckKey_inj hn hr hr' hkey
    exact ⟨back_inj hp hp' (lt_bruckTotal_iff.mp hr) hdst, rfl, rfl, rfl⟩
  · intro q m k m' k' κ t t' h h'
    obtain ⟨hq, rfl, r, hr, rfl, rfl, rfl⟩ := bruckPlan_isRecv.mp h
    obtain ⟨-, rfl, r', hr', rfl, hκ, rfl⟩ := bruckPlan_isRecv.mp h'
    obtain rfl := bruckKey_inj hn hr hr' hκ
    exact ⟨rfl, rfl⟩
  · intro q m k κ t h
    obtain ⟨hq, rfl, r, hr, rfl, rfl, rfl⟩ := bruckPlan_isRecv.mp h
    have hp := Nat.mod_lt (q + 2 ^ r) (Nat.zero_lt_of_lt hq)
    exact ⟨(q + 2 ^ r) % n, r + 1, 0, _, bruckPlan_isSend.mpr ⟨hp, rfl, rfl, r, hr, rfl, rfl⟩,
      back_add_mod hq (lt_bruckTotal_iff.mp hr), rfl, Nat.le_refl _⟩
  · intro p m k j sd hs
    obtain ⟨hp, rfl, rfl, r, hr, rfl, rfl⟩ := bruckPlan_isSend.mp hs
    refine ⟨r + 1, _, bruckPlan_isRecv.mpr ⟨back_lt hp, rfl, r, hr, rfl, ?_, rfl⟩⟩
    show bruckKey p r = bruckKey ((back n p (2 ^ r) + 2 ^ r) % n) r
    rw [Nat.add_comm, add_back hp (lt_bruckTotal_iff.mp hr)]

/-- Two calls use a key towards a rank from the same rank. -/
theorem bruckPlan_sameSender (hn : n < 2 ^ 64) {call' l' : ℕ} :
    (bruckPlan α n call l).SameSender (bruckPlan α n call' l') := by
  intro p m k j sd p' m' k' j' sd' hs hs' hdst hkey
  obtain ⟨hp, -, -, r, hr, -, rfl⟩ := bruckPlan_isSend.mp hs
  obtain ⟨hp', -, -, r', hr', -, rfl⟩ := bruckPlan_isSend.mp hs'
  obtain rfl := bruckKey_inj hn hr hr' hkey
  exact back_inj hp hp' (lt_bruckTotal_iff.mp hr) hdst

/-! ### The local steps -/

/-- One contribution put where it belongs. -/
def bruckPut (n call l p : ℕ) (h : Heap Region α) (k : ℕ) : Heap Region α :=
  h.copyInto ⟨(call, .tmp 0), (p + k) % n * l, l⟩ (h.read ⟨(call, .buf), k * l, l⟩)

/-- **The rotation, contribution by contribution**: slot `k` goes to the place of
rank `p + k`, and `recv_buf` is left alone. -/
theorem foldl_bruckPut (call l : ℕ) (h : Heap Region α) (hp : p < n) (m : ℕ) (hm : m ≤ n) :
    (∀ x, (List.range m).foldl (bruckPut n call l p) h (call, .buf) x = h (call, .buf) x) ∧
      ∀ k < m, ∀ j < l, (List.range m).foldl (bruckPut n call l p) h (call, .tmp 0)
        ((p + k) % n * l + j) = h (call, .buf) (k * l + j) := by
  induction m with
  | zero => exact ⟨fun _ => rfl, fun k hk => absurd hk (Nat.not_lt_zero k)⟩
  | succ m ih =>
    obtain ⟨hbuf, htmp⟩ := ih (by omega)
    rw [List.range_succ, List.foldl_append, List.foldl_cons, List.foldl_nil]
    set h' := (List.range m).foldl (bruckPut n call l p) h with hh'
    refine ⟨fun x => ?_, fun k hk j hj => ?_⟩
    · rw [bruckPut, Heap.copyInto_of_not_has, hbuf]
      rintro ⟨hr, -⟩
      cases hr
    · rcases Nat.lt_succ_iff_lt_or_eq.mp hk with hk | rfl
      · -- another place
        have hne : (p + k) % n ≠ (p + m) % n := by
          rw [mod_eq_ite (by omega), mod_eq_ite (by omega)]
          split <;> split <;> omega
        rw [bruckPut, Heap.copyInto_of_not_has _ _ (Slice.not_has_chunk hj hne)]
        exact htmp k hk j hj
      · have hcopy := Heap.copyInto_read h' h' (s := ⟨(call, .buf), k * l, l⟩)
          (t := ⟨(call, .tmp 0), (p + k) % n * l, l⟩) rfl hj
        exact hcopy.trans (hbuf _)

/-- **The rotation** takes the contributions from the places after the rank's own to
their own. -/
theorem bruckRotate_after (hp : p < n) {h : Heap Region α} {v : ℕ → ℕ → α}
    (hv : ∀ x < n * l, h (call, .buf) x = v ((p + x / l) % n) (x % l)) {x : ℕ} (hx : x < n * l) :
    (bruckRotate (.connected n p) call l).after h (call, .buf) x = v (x / l) (x % l) := by
  have hl : 0 < l := Nat.pos_of_lt_mul_left hx
  have hq : x / l < n := Nat.div_lt_of_lt_mul (by rwa [Nat.mul_comm])
  have hj := Nat.mod_lt x hl
  -- the slot that goes to the place of rank `x / l`
  have hk := back_lt (k := p) hq
  have hplace := add_back hq hp
  set h₁ := h.copyInto ⟨(call, .tmp 0), 0, n * l⟩ (List.replicate (n * l) (h (call, .send) 0))
    with hh₁
  obtain ⟨hbuf, htmp⟩ := foldl_bruckPut call l h₁ hp n (Nat.le_refl n)
  have hcell := htmp (back n (x / l) p) hk (x % l) hj
  rw [hplace, Nat.div_add_mod'] at hcell
  show Heap.copyInto ((List.range n).foldl (bruckPut n call l p) h₁) ⟨(call, .buf), 0, n * l⟩
    (Heap.read ((List.range n).foldl (bruckPut n call l p) h₁) ⟨(call, .tmp 0), 0, n * l⟩)
      (call, .buf) x = _
  have hcopy := Heap.copyInto_read ((List.range n).foldl (bruckPut n call l p) h₁)
    ((List.range n).foldl (bruckPut n call l p) h₁) (s := ⟨(call, .tmp 0), 0, n * l⟩)
      (t := ⟨(call, .buf), 0, n * l⟩) rfl hx
  simp only [Nat.zero_add] at hcopy
  rw [hcopy, hcell, hh₁, Heap.copyInto_of_not_has]
  · have hlt : back n (x / l) p * l + x % l < n * l := by
      have := Nat.mul_le_mul_right l hk
      rw [Nat.succ_mul] at this
      omega
    rw [hv _ hlt, Nat.mul_comm _ l, Nat.mul_add_div hl, Nat.div_eq_of_lt hj, Nat.add_zero,
      Nat.mul_add_mod, Nat.mod_eq_of_lt hj, hplace]
  · rintro ⟨hr, -⟩
    cases hr

/-! ### What the buffers hold -/

section Outline

variable (heap : ℕ → Heap Region α)

/-- The first `count` contributions from rank `p` on are in `recv_buf`. -/
def BruckHas (n l p count : ℕ) (h : Heap Region α) : Prop :=
  ∀ x < count * l, h (0, .buf) x = heap ((p + x / l) % n) (0, .send) (x % l)

/-- All contributions are in `recv_buf`, at their places. -/
def BruckDone (n l : ℕ) (h : Heap Region α) : Prop :=
  ∀ x < n * l, h (0, .buf) x = heap (x / l) (0, .send) (x % l)

/-- What a rank holds at a position. -/
def bruckHolds (n l p k : ℕ) (h : Heap Region α) : Prop :=
  if k = 0 then ∀ x < l, h (0, .send) x = heap p (0, .send) x
  else if k ≤ bruckTotal n + 1 then BruckHas heap n l p (bruckCount n (k - 1)) h
  else BruckDone heap n l h

/-- What rank `q` is sent in round `k`. -/
def bruckPayload (n l q k : ℕ) : List α :=
  (List.range (bruckToSend n k * l)).map fun x =>
    heap (((q + 2 ^ k) % n + x / l) % n) (0, .send) (x % l)

variable {heap}

theorem bruckHolds_succ (hk : k ≤ bruckTotal n) {h : Heap Region α} :
    bruckHolds heap n l p (k + 1) h ↔ BruckHas heap n l p (bruckCount n k) h := by
  rw [bruckHolds, if_neg k.succ_ne_zero, if_pos (by omega), Nat.add_sub_cancel]

theorem bruckHolds_last {h : Heap Region α} :
    bruckHolds heap n l p (bruckTotal n + 2) h ↔ BruckDone heap n l h := by
  rw [bruckHolds, if_neg (Nat.succ_ne_zero _), if_neg (by omega)]

/-- **The copy** puts a rank's own contribution first. -/
theorem bruckHas_copy (hp : p < n) {h : Heap Region α}
    (hsend : ∀ x < l, h (0, .send) x = heap p (0, .send) x) :
    BruckHas heap n l p (bruckCount n 0) ((bruckCopy 0 l).after h) := by
  have hcount : bruckCount n 0 = 1 := min_eq_left (by omega)
  intro x hx
  rw [hcount, Nat.one_mul] at hx
  have hcopy := Heap.copyInto_read h h (s := ⟨(0, .send), 0, l⟩) (t := ⟨(0, .buf), 0, l⟩) rfl hx
  simp only [Nat.zero_add] at hcopy
  rw [Nat.div_eq_of_lt hx, Nat.add_zero, Nat.mod_eq_of_lt hp, Nat.mod_eq_of_lt hx, ← hsend x hx]
  exact hcopy

/-- **What is sent** in a round is what its receiver is to get. -/
theorem BruckHas.read (hp : p < n) (hk : k < bruckTotal n) {h : Heap Region α}
    (hh : BruckHas heap n l p (bruckCount n k) h) :
    h.read ⟨(0, .buf), 0, bruckToSend n k * l⟩ = bruckPayload heap n l (back n p (2 ^ k)) k := by
  have hplace : (back n p (2 ^ k) + 2 ^ k) % n = p := by
    rw [Nat.add_comm, add_back hp (lt_bruckTotal_iff.mp hk)]
  refine List.map_congr_left fun x hx => ?_
  have hx := List.mem_range.mp hx
  rw [Nat.zero_add, hplace]
  refine hh x (Nat.lt_of_lt_of_le hx (Nat.mul_le_mul_right l ?_))
  rw [bruckCount_of_lt hk]
  exact min_le_left ..

/-- **A round** doubles what a rank has, or completes it. -/
theorem BruckHas.recv (hk : k < bruckTotal n) {h h' : Heap Region α}
    (hh : BruckHas heap n l p (bruckCount n k) h)
    (hh' : ∀ x, h' (0, .buf) x = h.copyInto ⟨(0, .buf), 2 ^ k * l, bruckToSend n k * l⟩
      (bruckPayload heap n l p k) (0, .buf) x) :
    BruckHas heap n l p (bruckCount n (k + 1)) h' := by
  intro x hx
  rw [hh']
  rcases Nat.lt_or_ge x (2 ^ k * l) with hlt | hge
  · -- what was there
    rw [Heap.copyInto_of_not_has _ _ fun hc => absurd hc.2.1 (Nat.not_le.mpr hlt)]
    exact hh x (by rwa [bruckCount_of_lt hk])
  · obtain ⟨y, rfl⟩ := Nat.exists_eq_add_of_le hge
    rw [← bruckCount_succ hk, Nat.add_mul] at hx
    have hl : 0 < l := Nat.pos_of_lt_mul_left (Nat.lt_of_add_lt_add_left hx)
    have hy : y < bruckToSend n k * l := Nat.lt_of_add_lt_add_left hx
    rw [Heap.copyInto_of_has h (s := ⟨(0, .buf), 2 ^ k * l, bruckToSend n k * l⟩) hy (by
      rw [bruckPayload, List.getElem?_map, List.getElem?_range hy]; rfl)]
    dsimp only
    rw [Nat.mul_comm _ l, Nat.mul_add_div hl, Nat.mul_add_mod, Nat.mod_add_mod, Nat.add_assoc]

end Outline

/-! ### The program -/

/-- The program of a rank that makes one call. -/
def bruckProgram (n l p : ℕ) : List (Stage Region α) :=
  (bruckAllgather (.connected n p) 0 l (l * n)).steps

/-- The call, laid out for all ranks. -/
def bruckLayout (α : Type*) (n l : ℕ) : Layout n (bruckProgram (α := α) n l) :=
  .ofPlans 1 (fun _ => bruckPlan α n 0 l) _ fun p hp => by
    rw [bruckProgram, bruckAllgather_eq hp]
    rfl

/-- **The outline of a call.** -/
def bruckOutline (hn : n < 2 ^ 64) (heap : ℕ → Heap Region α) :
    (bruckLayout α n l).Outline heap where
  pre i p h := if i = 0 then ∀ x < l, h (0, .send) x = heap p (0, .send) x
    else BruckDone heap n l h
  holds _ p m k h := m = 0 → bruckHolds heap n l p k h
  foot _ _ m _ _ := m = 0
  payload _ q κ := bruckPayload heap n l q κ.step.toNat
  init p _ := fun x _ => rfl
  enter {i p m h} hi _ _ hpre _ := by
    rwa [Nat.lt_one_iff.mp hi, if_pos rfl] at hpre
  leave {i p h} hi hp hend := by
    rw [if_neg i.succ_ne_zero]
    have hend : bruckHolds heap n l p (bruckLen n) h := hend 0 Nat.one_pos rfl
    unfold bruckLen at hend
    split at hend
    · next hn1 =>
      -- a rank on its own has what it needs
      subst hn1
      have hhas := (bruckHolds_succ (Nat.zero_le _)).mp hend
      intro x hx
      rw [Nat.one_mul] at hx
      rw [hhas x (by rwa [bruckCount, Nat.pow_zero, min_self, Nat.one_mul]), Nat.mod_one,
        Nat.div_eq_of_lt hx]
    · exact bruckHolds_last.mp hend
  stable {i p m k h h'} hh hag hm := by
    have heq : h' = h := funext fun r => funext fun c => hag r c hm
    exact heq ▸ hh hm
  sends {i p m k j sd h} hs hh := by
    obtain ⟨-, hs⟩ := Layout.isSend_ofPlans.mp hs
    obtain ⟨hp, rfl, rfl, r, hr, rfl, rfl⟩ := bruckPlan_isSend.mp hs
    have hhas := (bruckHolds_succ hr.le).mp (hh rfl)
    rw [show (bruckSend n 0 l p r).key.step.toNat = r from bruckKey_step hn hr p]
    exact hhas.read hp hr
  next_recv {i p m k κ t h h'} hrecv hh hag hm := by
    obtain ⟨-, hrecv⟩ := Layout.isRecv_ofPlans.mp hrecv
    obtain ⟨hp, rfl, r, hr, rfl, rfl, rfl⟩ := bruckPlan_isRecv.mp hrecv
    have hhas := (bruckHolds_succ hr.le).mp (hh rfl)
    refine (bruckHolds_succ hr).mpr ?_
    show BruckHas heap n l p _ ((bruckInstr n 0 l p (r + 1)).after h')
    rw [bruckInstr_succ hr]
    refine hhas.recv hr fun x => ?_
    have hcell := hag (0, .buf) x rfl
    rwa [bruckKey_step hn hr] at hcell
  next {i p m k h} hat hnone hh hm := by
    obtain ⟨-, hat⟩ := Layout.at_ofPlans.mp hat
    have hnone' : (bruckInstr (α := α) n 0 l p k).recv = none := hnone
    show bruckHolds heap n l p (k + 1) ((bruckInstr n 0 l p k).after h)
    obtain ⟨hp, rfl, rfl | ⟨r, hr, rfl⟩ | ⟨-, rfl⟩⟩ := bruckPlan_at hat
    · exact (bruckHolds_succ (Nat.zero_le _)).mpr (bruckHas_copy hp (hh rfl))
    · rw [bruckInstr_succ hr] at hnone'
      cases hnone'
    · have hhas := (bruckHolds_succ (Nat.le_refl _)).mp (hh rfl)
      rw [bruckCount_total] at hhas
      rw [bruckInstr_last]
      exact bruckHolds_last.mpr fun x hx => bruckRotate_after hp
        (v := fun r x => heap r (0, .send) x) hhas hx
  frame_recv {i p m k κ t m'} hr hne r c _ hm := by
    obtain ⟨-, hr⟩ := Layout.isRecv_ofPlans.mp hr
    exact hne (hm.trans (Nat.lt_one_iff.mp hr.1.chain).symm)
  frame_after {i p m k m'} h hat hne r c hm := by
    obtain ⟨-, hat⟩ := Layout.at_ofPlans.mp hat
    exact absurd (hm.trans (Nat.lt_one_iff.mp hat.chain).symm) hne

/-! ### Runs -/

/-- The receive rank `q` makes in round `k`. -/
def bruckAwait (α : Type*) (n l q k : ℕ) : Option (RecvKey × Slice Region) :=
  ((bruckRounds (.connected n q) 0 l 1 0 : Call (Instr Region α)).steps[k]?).bind Instr.recv

theorem bruckRounds_steps (hp : p < n) : (bruckRounds (.connected n p) call l 1 0 :
    Call (Instr Region α)) = ⟨(List.range (bruckTotal n)).map (bruckRoundOf n call l p) ++
      [bruckRotate (.connected n p) call l], .ok ()⟩ := by
  have hcount : bruckCount n 0 = 1 := min_eq_left (by omega)
  have hrounds := bruckRounds_eq (α := α) call l hp 0 (Nat.zero_le _)
  rwa [hcount, Nat.sub_zero, ← List.range_eq_range'] at hrounds

theorem bruckAwait_eq (hq : q < n) (hk : k < bruckTotal n) :
    bruckAwait α n l q k = some (bruckKey ((q + 2 ^ k) % n) k,
      ⟨(0, .buf), 2 ^ k * l, bruckToSend n k * l⟩) := by
  rw [bruckAwait, bruckRounds_steps hq, List.getElem?_append_left (by simpa using hk),
    List.getElem?_map, List.getElem?_range hk]
  rfl

/-- The program has one stage. -/
theorem length_bruckProgram (hp : p < n) : (bruckProgram (α := α) n l p).length = 1 := by
  rw [bruckProgram, bruckAllgather_eq hp]
  rfl

/-- The receives of the call wait for its sends, those of a round for those of the same round. -/
theorem bruckLayout_matched (hn : n < 2 ^ 64) :
    (bruckLayout α n l).Matched fun _ _ _ k => k :=
  Layout.matched_ofPlans (fun _ => bruckPlan_matched hn 0 l) fun _ _ => bruckPlan_sameSender hn

/-- **The invariant and the outline of every run.** -/
theorem bruck_outlined (hn : n < 2 ^ 64)
    (h : Reaches (step ⟨n, bruckProgram n l, eager⟩) (start heap) s) :
    Inv (bruckLayout α n l) s ∧ (bruckOutline (l := l) hn heap).Outlined s :=
  Layout.Outline.outlined_of_steps _ (bruckLayout_matched hn)
    (h.guarded (fun _ hs => inv_of_steps (bruckLayout_matched hn) hs)
      fun _ e _ hinv _ => hinv.inTime_of_origin_eq (fun i i' _ _ _ _ hi hi' => by
        have hlt : i < 1 := hi.stage_lt
        have hlt' : i' < 1 := hi'.stage_lt
        omega) e)

/-- **Every run ends**, with all ranks at the end of the call. -/
theorem bruck_terminates (hn : n < 2 ^ 64) (heap : ℕ → Heap Region α) :
    Terminates (step ⟨n, bruckProgram n l, eager⟩) (Final ⟨n, bruckProgram n l, eager⟩)
      (start heap) :=
  (bruckLayout_matched hn).terminates fun _ hs => (bruck_outlined hn hs).1

/-- **Bruck allgather.** In every run of a call of `n` ranks with `L` elements each:
the loop makes `⌈log₂ n⌉` rounds and the call returns `Ok`; every message on its way
from rank `p` is that of a round `k`, is for the rank `2 ^ k` places before `p`, and
is awaited there in round `k` under exactly its key and with exactly its number of
elements; a state that is not final is not stuck; and a rank that has returned has
the contribution of each rank at its place. -/
theorem bruck_allgather_correct (hsize : n < 2 ^ 64) {L : ℕ} (_hL : 1 ≤ L)
    (eager : ℕ → Name → ℕ → Bool) (heap : ℕ → Heap Region α) {s : AmNet.State Region α}
    (h : Reaches (step ⟨n, bruckProgram n L, eager⟩) (start heap) s) :
    (∀ p < n,
      (bruckAllgather (.connected n p) 0 L (L * n) : Call (Stage Region α)).result = .ok () ∧
      (bruckRounds (.connected n p) 0 L 1 0 : Call (Instr Region α)).steps.length =
        Nat.clog 2 n + 1) ∧
    (∀ p q, ∀ msg ∈ s.chan p q, ∃ k < Nat.clog 2 n, q = (p + n - 2 ^ k) % n ∧
      msg.key = bruckKey p k ∧
        ∃ t, bruckAwait α n L q k = some (bruckKey p k, t) ∧ t.len = msg.payload.bytes.length) ∧
    (¬Final ⟨n, bruckProgram n L, eager⟩ s → ¬Stuck (step ⟨n, bruckProgram n L, eager⟩) s) ∧
    ∀ p < n, (s.rank p).stage = (bruckProgram (α := α) n L p).length → ∀ r < n,
      (s.rank p).node.heap.read ⟨(0, .buf), r * L, L⟩ = (heap r).read ⟨(0, .send), 0, L⟩ := by
  obtain ⟨hinv, hout⟩ := bruck_outlined hsize h
  refine ⟨fun p hp => ⟨?_, ?_⟩, fun p q msg hmsg => ?_, fun hf hstuck => ?_,
    fun p hp hret r hr => ?_⟩
  · rw [bruckAllgather_eq hp]
  · rw [bruckRounds_steps hp, List.length_append, List.length_map, List.length_range]
    rfl
  · -- the message has been issued in a round, and its receiver makes that round
    obtain ⟨m, k, j, sd, hsend, hdst, hkey, -⟩ :=
      hinv.messages.chan_issued _ p q _ ⟨msg, hmsg, rfl, rfl⟩
    obtain ⟨hp, -, -, r, hr, -, rfl⟩ := bruckPlan_isSend.mp (Layout.isSend_ofPlans.mp hsend).2
    have hpow := lt_bruckTotal_iff.mp hr
    have hkey : msg.key = bruckKey p r := hkey.symm
    have hq : q = back n p (2 ^ r) := hdst.symm
    refine ⟨r, hr, hq, hkey, ⟨(0, .buf), 2 ^ r * L, bruckToSend n r * L⟩, ?_, ?_⟩
    · rw [bruckAwait_eq (hq ▸ back_lt hp) hr, hq, Nat.add_comm, add_back hp hpow]
    · rw [hout.chan p q msg hmsg, hkey]
      show _ = (bruckPayload heap n L q (bruckKey p r).step.toNat).length
      rw [bruckKey_step hsize hr, bruckPayload, List.length_map, List.length_range]
  · exact hf (hinv.not_stuck (bruckLayout_matched hsize) hstuck)
  · have hpre := (hout.ranks p hp).final (hret.trans (length_bruckProgram hp))
    have hdone : BruckDone heap n L (s.rank p).node.heap := hpre
    refine List.map_congr_left fun x hx => ?_
    have hx : x < L := List.mem_range.mp hx
    have hlt : r * L + x < n * L := by
      have := Nat.mul_le_mul_right L hr
      rw [Nat.succ_mul] at this
      omega
    rw [hdone _ hlt, Nat.mul_comm r L, Nat.mul_add_div (by omega), Nat.div_eq_of_lt hx,
      Nat.add_zero, Nat.mul_add_mod, Nat.mod_eq_of_lt hx, Nat.zero_add]

/-- Three ranks with two elements each: some run ends, and all have all contributions. -/
theorem bruck_allgather_correct_three : ∃ s,
    Reaches (step ⟨3, bruckProgram 3 2, fun _ _ _ => false⟩) (start fun p _ i => 2 * p + i) s ∧
      ∀ p < 3, ∀ r < 3,
        (s.rank p).node.heap.read ⟨(0, .buf), r * 2, 2⟩ = [2 * r, 2 * r + 1] := by
  have hterm : Terminates (step ⟨3, bruckProgram 3 2, fun _ _ _ => false⟩) _ _ :=
    bruck_terminates (by decide) fun p _ i => 2 * p + i
  obtain ⟨s, hs, hfinal⟩ := hterm.exists_good
  exact ⟨s, hs, fun p hp r hr => (bruck_allgather_correct (by decide) (by decide)
    (fun _ _ _ => false) (fun p _ i => 2 * p + i) hs).2.2.2 p hp (hfinal p hp) r hr⟩

end Pluvio
