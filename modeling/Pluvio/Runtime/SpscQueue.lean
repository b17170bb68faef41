import Mathlib.Data.Nat.ModEq
import Mathlib.Tactic.Ring
import Pluvio.Fifo
import Pluvio.Runtime.Spsc

/-!
# The channel is a queue

The ring of `Pluvio.Spsc.Inner` against the queue of `Pluvio.Fifo`. The two are
tied by `Pluvio.Spsc.Represents`: counted from `tail`, slot number `i` of the
ring holds what position `i` of the queue holds, where reading past the end of
the queue gives `none`, an uninitialized slot. This single equation says at once
that the values held are initialized, that the slots beyond them are not, and in
which order they lie; every operation keeps it, at any offset of `tail`, growing
included.
-/

namespace Pluvio

namespace Spsc

variable {α : Type*}

/-! ### The queue a channel is meant to be -/

/-- The capacity a full channel moves to. -/
def Mode.grow : Mode → ℕ → ℕ
  | .bounded _, c => c
  | .unbounded, c => max (c * 2) 2

/-- The empty queue a channel starts as. -/
def Mode.queue : Mode → Fifo α
  | .bounded cap => ⟨[], cap⟩
  | .unbounded => ⟨[], defaultInit⟩

/-- The abstract channel: a queue and the number of live senders. -/
structure Spec (α : Type*) where
  queue : Fifo α
  senders : ℕ

namespace Spec

/-- One operation of the abstract channel. -/
def perform (mode : Mode) (q : Spec α) : Op α → Spec α × Reply α
  | .trySend v => match q.queue.push mode.grow v with
    | some queue => ({ q with queue := queue }, .trySend (.ok ()))
    | none => (q, .trySend (.error (.full v)))
  | .send v => match q.queue.push mode.grow v with
    | some queue => ({ q with queue := queue }, .send (.ok ()))
    | none => (q, .send (.error (.mk v)))
  | .tryRecv => match q.queue.pop with
    | some (v, queue) => ({ q with queue := queue }, .tryRecv (.ok v))
    | none => (q, .tryRecv (.error (if q.senders = 0 then .disconnected else .empty)))
  | .cloneSender => ({ q with senders := q.senders + 1 }, .unit)
  | .dropSender => ({ q with senders := q.senders - 1 }, .unit)

/-- A sequence of operations of the abstract channel and what is seen of it. -/
def performAll (mode : Mode) : Spec α → List (Op α) → Spec α × List (Entry α)
  | q, [] => (q, [])
  | q, op :: ops =>
    let (q', reply) := q.perform mode op
    let (q'', es) := performAll mode q' ops
    (q'', ⟨op, reply, q'.queue.items.length, q'.queue.items.isEmpty, q'.queue.capacity⟩ :: es)

/-- One operation of the abstract channel loses and duplicates nothing. -/
theorem perform_conservation (mode : Mode) (q : Spec α) (op : Op α) (len cap : ℕ)
    (isEmpty : Bool) :
    (Entry.received ⟨op, (q.perform mode op).2, len, isEmpty, cap⟩).toList ++
        (q.perform mode op).1.queue.items =
      q.queue.items ++ (Entry.sent ⟨op, (q.perform mode op).2, len, isEmpty, cap⟩).toList := by
  cases op with
  | trySend v =>
    cases h : q.queue.push mode.grow v with
    | none => simp [perform, h, Entry.sent, Entry.received]
    | some q' => simp [perform, h, Entry.sent, Entry.received, Fifo.items_of_push h]
  | send v =>
    cases h : q.queue.push mode.grow v with
    | none => simp [perform, h, Entry.sent, Entry.received]
    | some q' => simp [perform, h, Entry.sent, Entry.received, Fifo.items_of_push h]
  | tryRecv =>
    cases h : q.queue.pop with
    | none => simp [perform, h, Entry.sent, Entry.received]
    | some p => simp [perform, h, Entry.sent, Entry.received, (Fifo.pop_eq_some_iff.mp h).1]
  | cloneSender => simp [perform, Entry.sent, Entry.received]
  | dropSender => simp [perform, Entry.sent, Entry.received]

private theorem filterMap_cons_eq {β γ : Type*} (f : β → Option γ) (b : β) (l : List β) :
    (b :: l).filterMap f = (f b).toList ++ l.filterMap f := by
  cases h : f b <;> simp [h]

/-- **The abstract channel is first in, first out**: the values received,
followed by those still held, are the values held at the start followed by those
sent. -/
theorem performAll_conservation (mode : Mode) (q : Spec α) (ops : List (Op α)) :
    (q.performAll mode ops).2.filterMap Entry.received ++
        (q.performAll mode ops).1.queue.items =
      q.queue.items ++ (q.performAll mode ops).2.filterMap Entry.sent := by
  induction ops generalizing q with
  | nil => simp [performAll]
  | cons op ops ih =>
    have h1 := perform_conservation mode q op
      (q.perform mode op).1.queue.items.length (q.perform mode op).1.queue.capacity
      (q.perform mode op).1.queue.items.isEmpty
    have h2 := ih (q.perform mode op).1
    simp only [performAll, filterMap_cons_eq]
    rw [List.append_assoc, h2, ← List.append_assoc, h1, List.append_assoc]

end Spec

/-! ### The ring -/

/-- A step of at most one lap around a ring of `m` slots. -/
private theorem add_mod_lap {a b m : ℕ} (ha : a < m) (hb : b ≤ m) :
    (a + b) % m = if a + b < m then a + b else a + b - m := by
  split
  · next h => exact Nat.mod_eq_of_lt h
  · next h => rw [Nat.mod_eq_sub_mod (by omega), Nat.mod_eq_of_lt (by omega)]

/-- Different offsets below `m` are different slots. -/
private theorem add_mod_inj {a i j m : ℕ} (hi : i < m) (hj : j < m)
    (h : (a + i) % m = (a + j) % m) : i = j :=
  Nat.ModEq.eq_of_lt_of_lt (Nat.ModEq.add_left_cancel' a h) hi hj

/-- A slot is not the one `k` further on, for `k` short of a lap. -/
private theorem ne_add_mod {a k m : ℕ} (ha : a < m) (hk : 0 < k) (hkm : k < m) :
    a ≠ (a + k) % m := fun hc => by
  rw [add_mod_lap ha hkm.le] at hc
  split at hc <;> omega

/-- The slots `buf`, written at `head` and read at `tail`, hold the queue `q`. -/
structure Ring (buf : List (Option α)) (head tail : ℕ) (q : Fifo α) : Prop where
  capPos : 0 < q.capacity
  length : buf.length = q.capacity + 1
  tailLt : tail < buf.length
  headEq : head = (tail + q.items.length) % buf.length
  lenLe : q.items.length ≤ q.capacity
  slot : ∀ i < buf.length, buf[(tail + i) % buf.length]? = some q.items[i]?

section Ring

variable {buf : List (Option α)} {head tail : ℕ} {q : Fifo α} (h : Ring buf head tail q)

include h

theorem Ring.headLt : head < buf.length := by
  rw [h.headEq]
  exact Nat.mod_lt _ (Nat.zero_lt_of_lt h.tailLt)

/-- The head is at most one lap ahead of the tail. -/
theorem Ring.head_lap :
    head = if tail + q.items.length < buf.length then tail + q.items.length
      else tail + q.items.length - buf.length := by
  have hle := h.lenLe
  have hb := h.length
  rw [h.headEq, add_mod_lap h.tailLt (by omega)]

theorem Ring.readSlot_tail {v : α} {vs : List α} (hq : q.items = v :: vs) :
    Inner.readSlot buf tail = .ok (v, buf.set tail none) := by
  have h0 := h.slot 0 (Nat.zero_lt_of_lt h.tailLt)
  rw [Nat.add_zero, hq, List.getElem?_cons_zero, Nat.mod_eq_of_lt h.tailLt] at h0
  rw [Inner.readSlot, h0]

/-- **Writing at the head**, with room left, appends to the queue. -/
theorem Ring.push (hroom : q.items.length < q.capacity) (v : α) :
    Ring (buf.set head (some v)) ((head + 1) % buf.length) tail
      { q with items := q.items ++ [v] } where
  capPos := h.capPos
  length := List.length_set.trans h.length
  tailLt := by rw [List.length_set]; exact h.tailLt
  headEq := by
    rw [List.length_set, h.headEq, Nat.mod_add_mod, List.length_append, List.length_singleton,
      Nat.add_assoc]
  lenLe := by rw [List.length_append]; exact hroom
  slot := fun i hi => by
    have hb := h.length
    rw [List.length_set] at hi ⊢
    rcases eq_or_ne i q.items.length with rfl | hne
    · rw [← h.headEq, List.getElem?_set_self h.headLt]
      simp
    · have hslot : head ≠ (tail + i) % buf.length := fun hc =>
        hne (add_mod_inj hi (by omega) (hc.symm.trans h.headEq))
      rw [List.getElem?_set_ne hslot, h.slot i hi]
      rcases Nat.lt_or_gt_of_ne hne with hlt | hgt
      · rw [List.getElem?_append_left hlt]
      · rw [List.getElem?_eq_none (by omega), List.getElem?_eq_none (by simp; omega)]

/-- **Reading at the tail** takes the oldest value. -/
theorem Ring.pop {v : α} {vs : List α} (hq : q.items = v :: vs) :
    Ring (buf.set tail none) head ((tail + 1) % buf.length) { q with items := vs } where
  capPos := h.capPos
  length := List.length_set.trans h.length
  tailLt := by
    rw [List.length_set]
    exact Nat.mod_lt _ (Nat.zero_lt_of_lt h.tailLt)
  headEq := by
    rw [List.length_set, h.headEq, hq, Nat.mod_add_mod, List.length_cons, Nat.add_assoc,
      Nat.add_comm 1]
  lenLe := by
    have hle := h.lenLe
    rw [hq, List.length_cons] at hle
    exact Nat.le_of_succ_le hle
  slot := fun i hi => by
    have hb := h.length
    have hle := h.lenLe
    rw [hq, List.length_cons] at hle
    rw [List.length_set] at hi ⊢
    rw [Nat.mod_add_mod, Nat.add_assoc, Nat.add_comm 1 i]
    rcases Nat.lt_or_ge (i + 1) buf.length with hlt | hge
    · have hslot := ne_add_mod h.tailLt (Nat.succ_pos i) hlt
      rw [List.getElem?_set_ne hslot, h.slot _ hlt, hq, List.getElem?_cons_succ]
    · -- the slot just emptied is the last one, counted from the new tail
      have hi1 : i + 1 = buf.length := by omega
      rw [hi1, Nat.add_mod_right, Nat.mod_eq_of_lt h.tailLt, List.getElem?_set_self h.tailLt,
        List.getElem?_eq_none (by simp only; omega)]

end Ring

/-- The slots of a ring laid out from slot `0` of a larger slice. -/
theorem Ring.flat (items : List α) {c : ℕ} (hc : items.length ≤ c) (hpos : 0 < c) :
    Ring (items.map some ++ List.replicate (c + 1 - items.length) none) items.length 0
      ⟨items, c⟩ := by
  have hlen : (items.map some ++ List.replicate (c + 1 - items.length) (none : Option α)).length =
      c + 1 := by
    rw [List.length_append, List.length_map, List.length_replicate]
    omega
  exact {
    capPos := hpos
    length := hlen
    tailLt := by rw [hlen]; exact Nat.succ_pos c
    headEq := by rw [hlen, Nat.zero_add, Nat.mod_eq_of_lt (by simp only; omega)]
    lenLe := hc
    slot := fun i hi => by
      rw [Nat.zero_add, Nat.mod_eq_of_lt hi]
      rw [hlen] at hi
      rcases Nat.lt_or_ge i items.length with hlt | hge
      · rw [List.getElem?_append_left (by rwa [List.length_map]), List.getElem?_map,
          List.getElem?_eq_getElem hlt]
        rfl
      · rw [List.getElem?_append_right (by rwa [List.length_map]), List.length_map,
          List.getElem?_replicate, if_pos (by omega), List.getElem?_eq_none hge] }

/-! ### The representation -/

/-- The channel `s`, made by `mode`, its receiver alive, holds the queue `q`. -/
structure Represents (mode : Mode) (s : Inner α) (q : Fifo α) : Prop where
  magic : s.magicOk = true
  receiver : s.receiverAlive = true
  unbounded : s.unbounded = decide (mode = .unbounded)
  bounded : ∀ cap, mode = .bounded cap → q.capacity = cap
  ring : Ring s.buf s.head s.tail q

section Facts

variable {mode : Mode} {s : Inner α} {q : Fifo α}

theorem Inner.inc_eq (h : 0 < s.blen) (i : ℕ) : s.inc i = (i + 1) % s.blen := by
  have hlt := Nat.mod_lt i h
  rw [Inner.inc, if_neg (by omega), ← Nat.mod_add_mod i]
  split
  · next he => rw [he, Nat.mod_self]
  · next he => exact (Nat.mod_eq_of_lt (by omega)).symm

variable (h : Represents mode s q)

include h

theorem Represents.blenPos : 0 < s.blen := Nat.zero_lt_of_lt h.ring.tailLt

theorem Represents.cap_eq : s.cap = q.capacity := by
  rw [Inner.cap, Inner.blen, h.ring.length, Nat.add_sub_cancel]

theorem Represents.isEmpty_eq : s.isEmpty = q.items.isEmpty := by
  have hhead := h.ring.head_lap
  have ht := h.ring.tailLt
  have hb := h.ring.length
  have hle := h.ring.lenLe
  have key : s.head = s.tail ↔ q.items = [] := by
    rw [← List.length_eq_zero_iff]
    split at hhead <;> omega
  rw [Inner.isEmpty, Bool.eq_iff_iff, beq_iff_eq, List.isEmpty_iff]
  exact key

theorem Represents.len_eq : s.len = q.items.length := by
  have hhead := h.ring.head_lap
  have ht := h.ring.tailLt
  have hh := h.ring.headLt
  have hb := h.ring.length
  have hle := h.ring.lenLe
  rw [Inner.len, Inner.blen, if_neg (by omega), Nat.mod_eq_of_lt ht, Nat.mod_eq_of_lt hh]
  split at hhead <;> split <;> omega

theorem Represents.isFull_iff : s.isFull = true ↔ q.items.length = q.capacity := by
  have ht := h.ring.tailLt
  have hb := h.ring.length
  have hle := h.ring.lenLe
  have hmod : s.inc s.head = (s.tail + (q.items.length + 1)) % s.blen := by
    rw [Inner.inc_eq h.blenPos, h.ring.headEq, Inner.blen, Nat.mod_add_mod, Nat.add_assoc]
  rw [Inner.isFull, beq_iff_eq, hmod, Inner.blen, add_mod_lap ht (by omega)]
  split <;> omega

/-- **A write with room left** succeeds and appends to the queue. -/
theorem Represents.write (hroom : q.items.length < q.capacity) (v : α) :
    ∃ s', s.writeAt s.head v = .ok s' ∧
      Represents mode { s' with head := s'.inc s.head } { q with items := q.items ++ [v] } ∧
      s'.senderCount = s.senderCount := by
  have hhead := h.ring.headLt
  refine ⟨{ s with buf := s.buf.set s.head (some v) }, ?_, ⟨h.magic, h.receiver, h.unbounded,
    h.bounded, ?_⟩, rfl⟩
  · have hmod : s.head % s.blen = s.head := Nat.mod_eq_of_lt hhead
    simp only [Inner.writeAt, Inner.writeSlot, hmod, if_pos hhead, Except.map]
  · rw [Inner.inc_eq (by rw [Inner.blen, List.length_set]; exact h.blenPos), Inner.blen,
      List.length_set]
    exact h.ring.push hroom v

/-- **A read of a nonempty ring** succeeds and takes the oldest value. -/
theorem Represents.read {v : α} {vs : List α} (hq : q.items = v :: vs) :
    ∃ s', s.readAt s.tail = .ok (v, s') ∧
      Represents mode { s' with tail := s'.inc s.tail } { q with items := vs } ∧
      s'.senderCount = s.senderCount := by
  refine ⟨{ s with buf := s.buf.set s.tail none }, ?_, ⟨h.magic, h.receiver, h.unbounded,
    h.bounded, ?_⟩, rfl⟩
  · have hmod : s.tail % s.blen = s.tail := Nat.mod_eq_of_lt h.ring.tailLt
    simp only [Inner.readAt, hmod, h.ring.readSlot_tail hq, Except.map]
  · rw [Inner.inc_eq (by rw [Inner.blen, List.length_set]; exact h.blenPos), Inner.blen,
      List.length_set]
    exact h.ring.pop hq

end Facts

/-! ### Construction -/

theorem allocSlots_eq_ok {slots : SlotLimit} {len : ℕ} {buf : List (Option α)}
    (h : allocSlots slots len = .ok buf) : len ≤ slots ∧ buf = List.replicate len none := by
  unfold allocSlots at h
  split at h
  · next hle => exact ⟨hle, (Except.ok.inj h).symm⟩
  · cases h

theorem map_eq_ok {ε β γ : Type*} {f : β → γ} {x : Except ε β} {c : γ} (h : x.map f = .ok c) :
    ∃ b, x = .ok b ∧ f b = c := by
  cases x with
  | error e => cases h
  | ok b => exact ⟨b, rfl, Except.ok.inj h⟩

/-- A fresh slice is an empty ring. -/
theorem represents_fresh {mode : Mode} {c : ℕ} {unb : Bool} (hpos : 0 < c)
    (hunb : unb = decide (mode = .unbounded)) (hcap : ∀ cap, mode = .bounded cap → c = cap) :
    Represents mode (Inner.fresh (List.replicate (c + 1) (none : Option α)) unb) ⟨[], c⟩ where
  magic := by simp [Inner.magicOk, Inner.fresh]
  receiver := rfl
  unbounded := hunb
  bounded := hcap
  ring := Ring.flat [] (Nat.zero_le c) hpos

/-- **A new channel holds the empty queue.** -/
theorem represents_channel {slots : SlotLimit} {mode : Mode} {s : Inner α}
    (h : mode.channel slots = .ok s) :
    Represents mode s (mode.queue : Fifo α) ∧ s.senderCount = 1 := by
  cases mode with
  | bounded cap =>
    simp only [Mode.channel, newBounded] at h
    split at h
    · cases h
    · next hcap =>
      obtain ⟨buf, hbuf, rfl⟩ := map_eq_ok h
      obtain ⟨-, rfl⟩ := allocSlots_eq_ok hbuf
      exact ⟨represents_fresh (by omega) (by simp) (by simp), rfl⟩
  | unbounded =>
    obtain ⟨buf, hbuf, rfl⟩ := map_eq_ok h
    obtain ⟨-, rfl⟩ := allocSlots_eq_ok hbuf
    exact ⟨represents_fresh (c := 32) (by decide) (by simp) (by simp), rfl⟩

/-! ### Growing -/

/-- **The loop of `try_grow`** moves the values into the first slots of the new
slice: with `i` values moved and `k` to go, from the slots of the positions from
`i` on. -/
theorem growLoop_eq {inc : ℕ → ℕ} {m len : ℕ} {items : List α} (tail : ℕ)
    (hinc : ∀ t, inc t = (t + 1) % m) (hm : items.length < m) (hlen : items.length ≤ len) :
    ∀ (k i : ℕ) (oldBuf : List (Option α)), i + k = items.length →
      (∀ j, i ≤ j → j < items.length → oldBuf[(tail + j) % m]? = some items[j]?) →
      Inner.growLoop inc k i ((tail + i) % m) oldBuf
          ((items.take i).map some ++ List.replicate (len - i) none) =
        .ok (items.map some ++ List.replicate (len - items.length) none) := by
  intro k
  induction k with
  | zero =>
    intro i oldBuf hik _
    obtain rfl : i = items.length := hik
    rw [Inner.growLoop, List.take_length]
  | succ k ih =>
    intro i oldBuf hik hold
    have hi : i < items.length := by omega
    have hslot := hold i le_rfl hi
    rw [List.getElem?_eq_getElem hi] at hslot
    have hread : Inner.readSlot oldBuf ((tail + i) % m) =
        .ok (items[i], oldBuf.set ((tail + i) % m) none) := by
      rw [Inner.readSlot, hslot]
    have htake : ((items.take i).map some).length = i := by
      rw [List.length_map, List.length_take]
      omega
    have hwrite : Inner.writeSlot ((items.take i).map some ++ List.replicate (len - i) none) i
        items[i] = .ok ((items.take (i + 1)).map some ++
          List.replicate (len - (i + 1)) none) := by
      rw [Inner.writeSlot, if_pos (by rw [List.length_append, htake, List.length_replicate]; omega),
        List.set_append_right _ _ (by omega), htake, Nat.sub_self,
        show len - i = len - (i + 1) + 1 by omega, List.replicate_succ, List.set_cons_zero,
        List.take_succ_eq_append_getElem hi, List.map_append, List.append_assoc]
      rfl
    simp only [Inner.growLoop, hread, hwrite]
    rw [hinc, Nat.mod_add_mod, Nat.add_assoc]
    refine ih (i + 1) _ (by omega) fun j hij hj => ?_
    -- the slot that was read is not one of those still to be read
    have hne : (tail + i) % m ≠ (tail + j) % m := fun hc => by
      have := add_mod_inj (by omega) (by omega) hc
      omega
    rw [List.getElem?_set_ne hne]
    exact hold j (by omega) hj

/-- Below the slot limit `saturating_mul` does not saturate. -/
theorem newCap_eq {slots : SlotLimit} {c : ℕ} (h : Inner.newCap c + 1 ≤ slots) :
    Inner.newCap c = max (c * 2) 2 := by
  have hs := slots.isLt
  unfold Inner.newCap usizeMax at *
  omega

/-- **Growing a full ring** keeps its contents and moves to the larger
capacity. -/
theorem Represents.grow {slots : SlotLimit} {s : Inner α} {q : Fifo α}
    (h : Represents .unbounded s q) (hfull : q.items.length = q.capacity)
    (hfit : Inner.newCap q.capacity + 1 ≤ slots) :
    ∃ s', s.tryGrow slots = .ok s' ∧
      Represents .unbounded s' { q with capacity := Mode.unbounded.grow q.capacity } ∧
      s'.senderCount = s.senderCount := by
  have hb := h.ring.length
  have hgrow : Inner.newCap q.capacity = Mode.unbounded.grow q.capacity := newCap_eq hfit
  have hle : q.items.length ≤ Inner.newCap q.capacity := by
    rw [hgrow, Mode.grow]
    omega
  have hloop : Inner.growLoop s.inc s.len 0 s.tail s.buf
      (List.replicate (Inner.newCap q.capacity + 1) none) =
        .ok (q.items.map some ++
          List.replicate (Inner.newCap q.capacity + 1 - q.items.length) none) := by
    have hloop := growLoop_eq s.tail (Inner.inc_eq h.blenPos)
      (by rw [Inner.blen]; omega) (Nat.le_succ_of_le hle) q.items.length 0 s.buf (Nat.zero_add _)
      fun j _ hj => h.ring.slot j (by omega)
    rw [Nat.add_zero, Inner.blen, Nat.mod_eq_of_lt h.ring.tailLt] at hloop
    rw [h.len_eq]
    exact hloop
  have hring := Ring.flat q.items hle (by rw [hgrow, Mode.grow]; omega)
  have hunb : s.unbounded = true := h.unbounded
  have hisFull : s.isFull = true := h.isFull_iff.mpr hfull
  have htry : s.tryGrow slots = .ok { s with
      tail := 0
      head := s.len
      buf := q.items.map some ++ List.replicate (Inner.newCap q.capacity + 1 - q.items.length) none
      bufLen := (q.items.map some ++ List.replicate
        (Inner.newCap q.capacity + 1 - q.items.length) (none : Option α)).length } := by
    simp only [Inner.tryGrow, hunb, hisFull, h.cap_eq, allocSlots, if_pos hfit, hloop,
      Bool.not_true, Bool.or_self, Bool.false_eq_true, if_false]
  refine ⟨_, htry, ⟨h.magic, h.receiver, h.unbounded, (fun cap hc => by cases hc), ?_⟩, rfl⟩
  rw [h.len_eq, ← hgrow]
  exact hring

/-! ### Dropping -/

/-- The loop of `Inner::drop` drops the values held, oldest first. -/
theorem dropLoop_eq {m head : ℕ} : ∀ (items : List α) (k tail : ℕ) (buf : List (Option α)),
    items.length ≤ k → items.length < m → tail < m → (tail + items.length) % m = head →
    (∀ j, j < items.length → buf[(tail + j) % m]? = some items[j]?) →
    Inner.dropLoop m head k tail buf = some (.ok items) := by
  intro items
  induction items with
  | nil =>
    intro k tail buf _ _ htail hhead _
    have he : tail = head := by rwa [List.length_nil, Nat.add_zero, Nat.mod_eq_of_lt htail] at hhead
    cases k <;> simp only [Inner.dropLoop, if_pos he]
  | cons v vs ih =>
    intro k tail buf hk hm htail hhead hslot
    rw [List.length_cons] at hk hm hhead hslot
    cases k with
    | zero => omega
    | succ k =>
      have hne : tail ≠ head := hhead ▸ ne_add_mod htail (Nat.succ_pos _) hm
      have h0 := hslot 0 (by omega)
      rw [Nat.add_zero, Nat.mod_eq_of_lt htail, List.getElem?_cons_zero] at h0
      have hread : Inner.readSlot buf tail = .ok (v, buf.set tail none) := by
        rw [Inner.readSlot, h0]
      have hrest := ih k ((tail + 1) % m) (buf.set tail none) (by omega) (by omega)
        (Nat.mod_lt _ (by omega))
        (by rw [Nat.mod_add_mod, ← hhead]; congr 1; omega) fun j hj => by
          have hj1 := hslot (j + 1) (by omega)
          have hne := ne_add_mod htail (Nat.succ_pos j) (by omega : j + 1 < m)
          rw [Nat.mod_add_mod, Nat.add_assoc, Nat.add_comm 1 j, List.getElem?_set_ne hne, hj1,
            List.getElem?_cons_succ]
      simp only [Inner.dropLoop, if_neg hne, hread, hrest, Option.map_some, Except.map]

/-- **Dropping the channel** drops exactly the values held, each once. -/
theorem Represents.drop_eq {mode : Mode} {s : Inner α} {q : Fifo α} (h : Represents mode s q) :
    s.drop = some (.ok q.items) := by
  have hb := h.ring.length
  have hle := h.ring.lenLe
  have hpos := h.blenPos
  rw [Inner.drop, if_neg (by omega), Inner.blen, Nat.mod_eq_of_lt h.ring.headLt,
    Nat.mod_eq_of_lt h.ring.tailLt]
  exact dropLoop_eq q.items _ s.tail s.buf (by omega) (by omega) h.ring.tailLt
    h.ring.headEq.symm fun j hj => h.ring.slot j (by omega)

/-! ### One operation -/

/-- The full queue cannot be moved to a larger slice: there are not enough
slots. -/
def Overflows (slots : SlotLimit) (mode : Mode) (q : Fifo α) : Prop :=
  mode = .unbounded ∧ q.items.length = q.capacity ∧ slots < Inner.newCap q.capacity + 1

/-- The channel, its receiver alive, is in the state of the abstract channel. -/
structure Refines (mode : Mode) (s : Inner α) (q : Spec α) : Prop where
  queue : Represents mode s q.queue
  senders : s.senderCount = q.senders

section Operations

variable {slots : SlotLimit} {mode : Mode} {s : Inner α} {q : Spec α} (h : Refines mode s q)

include h

/-- Both guards of `try_send` pass. -/
theorem Refines.trySend_eq (v : α) :
    s.trySend slots v =
      match (if s.isFull then s.tryGrow slots else .ok s) with
      | .error f => .error f
      | .ok s =>
        if s.isFull then .ok (s, .error (.full v))
        else (s.writeAt s.head v).map fun s' => ({ s' with head := s'.inc s.head }, .ok ()) := by
  rw [Inner.trySend, h.queue.magic, h.queue.receiver]
  rfl

/-- **`try_send` with room left** accepts the value. -/
theorem Refines.trySend_room (slots : SlotLimit)
    (hroom : q.queue.items.length < q.queue.capacity) (v : α) :
    ∃ s', s.trySend slots v = .ok (s', .ok ()) ∧
      Refines mode s' { q with queue := { q.queue with items := q.queue.items ++ [v] } } := by
  have hfull : s.isFull = false :=
    Bool.eq_false_iff.mpr fun hc => hroom.ne (h.queue.isFull_iff.mp hc)
  obtain ⟨s', hw, hs', hsc⟩ := h.queue.write hroom v
  refine ⟨{ s' with head := s'.inc s.head }, ?_, hs', hsc.trans h.senders⟩
  simp only [h.trySend_eq, hfull, hw, Except.map, Bool.false_eq_true, if_false]

/-- **`try_send` on a full bounded channel** gives the value back. -/
theorem Refines.trySend_bounded (hmode : mode ≠ .unbounded)
    (hfull : q.queue.items.length = q.queue.capacity) (v : α) :
    s.trySend slots v = .ok (s, .error (.full v)) := by
  have hisFull : s.isFull = true := h.queue.isFull_iff.mpr hfull
  have hunb : s.unbounded = false := h.queue.unbounded.trans (decide_eq_false hmode)
  simp only [h.trySend_eq, Inner.tryGrow, hisFull, hunb, Bool.not_false, Bool.true_or, if_true]

end Operations

section Grow

variable {slots : SlotLimit} {s : Inner α} {q : Spec α} (h : Refines .unbounded s q)
  (hfull : q.queue.items.length = q.queue.capacity)

include h hfull

/-- **`try_send` on a full unbounded channel** grows it and accepts the value. -/
theorem Refines.trySend_grow (hfit : Inner.newCap q.queue.capacity + 1 ≤ slots) (v : α) :
    ∃ s', s.trySend slots v = .ok (s', .ok ()) ∧
      Refines .unbounded s' { q with queue :=
        ⟨q.queue.items ++ [v], Mode.unbounded.grow q.queue.capacity⟩ } := by
  have hisFull : s.isFull = true := h.queue.isFull_iff.mpr hfull
  have hcap := h.queue.ring.capPos
  obtain ⟨s₁, htry, hs₁, hsc₁⟩ := h.queue.grow hfull hfit
  have hroom : q.queue.items.length < Mode.unbounded.grow q.queue.capacity := by
    rw [Mode.grow]
    omega
  have hfull₁ : s₁.isFull = false :=
    Bool.eq_false_iff.mpr fun hc => hroom.ne (hs₁.isFull_iff.mp hc)
  obtain ⟨s', hw, hs', hsc⟩ := hs₁.write hroom v
  refine ⟨{ s' with head := s'.inc s₁.head }, ?_, hs', (hsc.trans hsc₁).trans h.senders⟩
  simp only [h.trySend_eq, hisFull, htry, hfull₁, hw, Except.map, Bool.false_eq_true, if_true,
    if_false]

/-- A full unbounded channel that cannot grow stops the program. -/
theorem Refines.trySend_overflow (hbig : slots < Inner.newCap q.queue.capacity + 1) (v : α) :
    s.trySend slots v = .error .alloc := by
  have hisFull : s.isFull = true := h.queue.isFull_iff.mpr hfull
  have hunb : s.unbounded = true := h.queue.unbounded
  simp only [h.trySend_eq, Inner.tryGrow, hisFull, hunb, h.queue.cap_eq, allocSlots,
    if_neg (Nat.not_le.mpr hbig), Bool.not_true, Bool.or_self, Bool.false_eq_true, if_true,
    if_false]

end Grow

section Perform

variable {mode : Mode} {s : Inner α} {q : Spec α} (h : Refines mode s q)

include h

/-- **`try_send` refines the push of the queue**, or needs slots that cannot be
allocated. -/
theorem Refines.trySend_cases (slots : SlotLimit) (v : α) :
    (∃ s' queue, s.trySend slots v = .ok (s', .ok ()) ∧
      q.queue.push mode.grow v = some queue ∧ Refines mode s' { q with queue := queue }) ∨
    (s.trySend slots v = .ok (s, .error (.full v)) ∧ q.queue.push mode.grow v = none ∧
      mode = .bounded q.queue.items.length) ∨
    (s.trySend slots v = .error .alloc ∧ Overflows slots mode q.queue) := by
  rcases Nat.lt_or_ge q.queue.items.length q.queue.capacity with hroom | hge
  · obtain ⟨s', hs', href⟩ := h.trySend_room slots hroom v
    exact Or.inl ⟨s', _, hs', if_pos hroom, href⟩
  have hfull : q.queue.items.length = q.queue.capacity := le_antisymm h.queue.ring.lenLe hge
  cases mode with
  | bounded cap =>
    have hcap := h.queue.bounded cap rfl
    refine Or.inr (Or.inl ⟨h.trySend_bounded (by simp) hfull v, ?_, ?_⟩)
    · exact Fifo.push_eq_none_iff.mpr ⟨hge, hge⟩
    · rw [hfull, hcap]
  | unbounded =>
    rcases Nat.lt_or_ge slots (Inner.newCap q.queue.capacity + 1) with hbig | hfit
    · exact Or.inr (Or.inr ⟨h.trySend_overflow hfull hbig v, rfl, hfull, hbig⟩)
    · obtain ⟨s', hs', href⟩ := h.trySend_grow hfull hfit v
      have hpos := h.queue.ring.capPos
      refine Or.inl ⟨s', _, hs', ?_, href⟩
      rw [Fifo.push, if_neg (by omega), if_pos (by rw [Mode.grow]; omega)]

/-- **A value is refused exactly by a bounded channel that is full**, and then it
is given back. -/
theorem Refines.trySend_full_iff (slots : SlotLimit) (v w : α) (s' : Inner α) :
    s.trySend slots v = .ok (s', .error (.full w)) ↔
      mode = .bounded q.queue.items.length ∧ w = v ∧ s' = s := by
  rcases h.trySend_cases slots v with
    ⟨s₁, queue, hsend, hpush, -⟩ | ⟨hsend, -, hmode⟩ | ⟨hsend, hunb, -⟩
  · rw [hsend]
    refine iff_of_false (by simp) ?_
    rintro ⟨hmode, -, -⟩
    have hcap := h.queue.bounded _ hmode
    have hnone : q.queue.push mode.grow v = none :=
      Fifo.push_eq_none_iff.mpr ⟨hcap.le, by rw [hmode, Mode.grow]; exact hcap.le⟩
    rw [hnone] at hpush
    cases hpush
  · rw [hsend]
    constructor
    · rintro hc
      cases hc
      exact ⟨hmode, rfl, rfl⟩
    · rintro ⟨-, rfl, rfl⟩
      rfl
  · rw [hsend]
    exact iff_of_false (by simp) fun hc => by simp [hunb] at hc

/-- **`try_recv` refines the pop of the queue.** -/
theorem Refines.tryRecv_cases :
    (∃ s' v queue, s.tryRecv = .ok (s', .ok v) ∧ q.queue.pop = some (v, queue) ∧
      Refines mode s' { q with queue := queue }) ∨
    (s.tryRecv = .ok (s, .error (if q.senders = 0 then .disconnected else .empty)) ∧
      q.queue.pop = none) := by
  have hmagic := h.queue.magic
  have hempty := h.queue.isEmpty_eq
  rcases hq : q.queue.items with _ | ⟨v, vs⟩
  · right
    have halive : s.anySenderAlive = decide (0 < q.senders) := by
      rw [Inner.anySenderAlive, h.senders]
    rw [hq] at hempty
    refine ⟨?_, by rw [Fifo.pop, hq]⟩
    simp only [Inner.tryRecv, hmagic, hempty, halive, List.isEmpty_nil, Bool.not_true,
      Bool.false_eq_true, if_false, if_true, Bool.not_eq_true', decide_eq_false_iff_not,
      Nat.not_lt, Nat.le_zero]
  · left
    obtain ⟨s', hr, hs', hsc⟩ := h.queue.read hq
    rw [hq] at hempty
    refine ⟨{ s' with tail := s'.inc s.tail }, v, { q.queue with items := vs }, ?_,
      Fifo.pop_eq_some_iff.mpr ⟨hq, rfl⟩, hs', hsc.trans h.senders⟩
    simp only [Inner.tryRecv, hmagic, hempty, hr, List.isEmpty_cons, Bool.not_true,
      Bool.false_eq_true, if_false, Except.map]

/-- **Every operation refines the abstract one**, or needs slots that cannot be
allocated. -/
theorem Refines.perform_cases (slots : SlotLimit) (op : Op α) :
    (∃ s', s.perform slots op = .ok (s', (q.perform mode op).2) ∧
      Refines mode s' (q.perform mode op).1) ∨
    (s.perform slots op = .error .alloc ∧ Overflows slots mode q.queue) := by
  cases op with
  | trySend v =>
    rcases h.trySend_cases slots v with
      ⟨s', queue, hs, hq, href⟩ | ⟨hs, hq, -⟩ | ⟨hs, hov⟩
    · exact Or.inl ⟨s', by simp only [Inner.perform, Spec.perform, hs, hq, Except.map],
        by simpa only [Spec.perform, hq] using href⟩
    · exact Or.inl ⟨s, by simp only [Inner.perform, Spec.perform, hs, hq, Except.map],
        by simpa only [Spec.perform, hq] using h⟩
    · exact Or.inr ⟨by simp only [Inner.perform, hs, Except.map], hov⟩
  | send v =>
    rcases h.trySend_cases slots v with
      ⟨s', queue, hs, hq, href⟩ | ⟨hs, hq, -⟩ | ⟨hs, hov⟩
    · exact Or.inl ⟨s', by simp only [Inner.perform, Inner.send, Spec.perform, hs, hq, Except.map],
        by simpa only [Spec.perform, hq] using href⟩
    · exact Or.inl ⟨s, by simp only [Inner.perform, Inner.send, Spec.perform, hs, hq, Except.map],
        by simpa only [Spec.perform, hq] using h⟩
    · exact Or.inr ⟨by simp only [Inner.perform, Inner.send, hs, Except.map], hov⟩
  | tryRecv =>
    rcases h.tryRecv_cases with ⟨s', v, queue, hs, hq, href⟩ | ⟨hs, hq⟩
    · exact Or.inl ⟨s', by simp only [Inner.perform, Spec.perform, hs, hq, Except.map],
        by simpa only [Spec.perform, hq] using href⟩
    · exact Or.inl ⟨s, by simp only [Inner.perform, Spec.perform, hs, hq, Except.map],
        by simpa only [Spec.perform, hq] using h⟩
  | cloneSender =>
    refine Or.inl ⟨s.cloneSender, rfl, ⟨?_, congrArg (· + 1) h.senders⟩⟩
    exact ⟨h.queue.magic, h.queue.receiver, h.queue.unbounded, h.queue.bounded, h.queue.ring⟩
  | dropSender =>
    refine Or.inl ⟨s.dropSender, rfl, ⟨?_, congrArg (· - 1) h.senders⟩⟩
    exact ⟨h.queue.magic, h.queue.receiver, h.queue.unbounded, h.queue.bounded, h.queue.ring⟩

/-- **Every sequence of operations refines the abstract one**: either it returns,
with the same replies, lengths and capacities after every operation, or it stops
at an operation on a full queue that would need more slots than there are. -/
theorem Refines.performAll_cases (slots : SlotLimit) (ops : List (Op α)) :
    (∃ s', s.performAll slots ops = .ok (s', (q.performAll mode ops).2) ∧
      Refines mode s' (q.performAll mode ops).1) ∨
    (s.performAll slots ops = .error .alloc ∧
      ∃ pre op post, ops = pre ++ op :: post ∧
        Overflows slots mode (q.performAll mode pre).1.queue) := by
  induction ops generalizing s q with
  | nil => exact Or.inl ⟨s, rfl, h⟩
  | cons op ops ih =>
    rcases h.perform_cases slots op with ⟨s₁, hs₁, href₁⟩ | ⟨hs, hov⟩
    · rcases ih href₁ with ⟨s', hs', href⟩ | ⟨hs', pre, op', post, rfl, hov⟩
      · refine Or.inl ⟨s', ?_, href⟩
        simp only [Inner.performAll, hs₁, hs', Except.map, Spec.performAll, href₁.queue.len_eq,
          href₁.queue.isEmpty_eq, href₁.queue.cap_eq]
      · refine Or.inr ⟨?_, op :: pre, op', post, rfl, hov⟩
        simp only [Inner.performAll, hs₁, hs', Except.map]
    · exact Or.inr ⟨by simp only [Inner.performAll, hs], [], op, ops, rfl, hov⟩

end Perform

/-! ### The channel -/

/-- **The channel refines a first-in first-out queue.** Whatever a program does
with the senders of a channel and its one receiver, it sees the replies, lengths
and capacities of the abstract queue after every operation; what it received,
followed by what is still held, is exactly what it sent, in order; a value is
refused as `Full` exactly when the channel is bounded and holds as many values as
its capacity, and then it is given back; and dropping the channel drops exactly
the values still held. The only other outcome is that a full unbounded channel
has to move to a slice that cannot be allocated. -/
theorem channel_refines_fifo {slots : SlotLimit} {mode : Mode} {s₀ : Inner α}
    (hopen : mode.channel slots = .ok s₀) (ops : List (Op α)) :
    (∃ s q, Spec.performAll mode ⟨mode.queue, 1⟩ ops = q ∧
      s₀.performAll slots ops = .ok (s, q.2) ∧
      q.2.filterMap Entry.received ++ q.1.queue.items = q.2.filterMap Entry.sent ∧
      (∀ v w s', s.trySend slots v = .ok (s', .error (.full w)) ↔
        mode = .bounded q.1.queue.items.length ∧ w = v ∧ s' = s) ∧
      s.drop = some (.ok q.1.queue.items)) ∨
    (s₀.performAll slots ops = .error .alloc ∧
      ∃ pre op post, ops = pre ++ op :: post ∧
        Overflows slots mode (Spec.performAll mode ⟨mode.queue, 1⟩ pre).1.queue) := by
  obtain ⟨hrep, hsc⟩ := represents_channel hopen
  have href₀ : Refines mode s₀ ⟨mode.queue, 1⟩ := ⟨hrep, hsc⟩
  refine (href₀.performAll_cases slots ops).imp ?_ id
  rintro ⟨s, hs, href⟩
  refine ⟨s, _, rfl, hs, ?_, href.trySend_full_iff slots, href.queue.drop_eq⟩
  rw [Spec.performAll_conservation]
  cases mode <;> rfl

/-- A bounded channel of one slot, refusing a value. -/
theorem channel_refines_fifo_one :
    (∃ s q, Spec.performAll (.bounded 1) ⟨Mode.queue (.bounded 1), 1⟩
        [Op.trySend 7, .trySend 8, .tryRecv] = q ∧
      (Inner.fresh [none, none] false).performAll 100 [Op.trySend 7, .trySend 8, .tryRecv] =
        .ok (s, q.2) ∧
      q.2.filterMap Entry.received ++ q.1.queue.items = q.2.filterMap Entry.sent ∧
      (∀ (v w : ℕ) s', s.trySend 100 v = .ok (s', .error (.full w)) ↔
        Mode.bounded 1 = .bounded q.1.queue.items.length ∧ w = v ∧ s' = s) ∧
      s.drop = some (.ok q.1.queue.items)) ∨
    ((Inner.fresh [none, none] false).performAll 100 [Op.trySend 7, .trySend 8, .tryRecv] =
        .error .alloc ∧
      ∃ pre op post, [Op.trySend 7, .trySend 8, .tryRecv] = pre ++ op :: post ∧
        Overflows 100 (.bounded 1)
          (Spec.performAll (.bounded 1) ⟨Mode.queue (.bounded 1), 1⟩ pre).1.queue) :=
  @channel_refines_fifo ℕ 100 (.bounded 1) _ rfl [.trySend 7, .trySend 8, .tryRecv]

end Spsc

end Pluvio
