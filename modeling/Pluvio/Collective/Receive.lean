import Pluvio.Collective.Mailbox

/-!
# What an `Ok` receive has received

The two places where a payload is copied, the poll that finds it and the delivery
that meets a pending receive, both stop at the shorter of the payload and the
target, and both set the same `done` flag. So the flag, and the `Ok` a poll gives
when it is set, does not say that the target was filled: a payload of another
length leaves a target that is filled in part, or is cut.

`Pluvio.Mailbox.ok_exact_iff` says when an `Ok` means what it should: every payload
that meets a receive has the length of its target. What is copied never leaves the
target of a receive that exists and waits, whatever the lengths, and after drops
too; that is `Pluvio.Mailbox.step_within`. In the words of the unsafe code,
`Pluvio.Mailbox.writes_live_receives`: the pointer of a pending slot is that of a
receive that has not been dropped, and a drop takes it out of the router.

The invariant of the router is `Pluvio.Mailbox.Live`: a pending slot belongs to a
future that exists, is registered and is not completed, and an early payload is the
one its number stands for. `Pluvio.Mailbox.Effect` lists what an event can do, once
and for all the case distinctions here.
-/

namespace Pluvio

namespace Mailbox

variable {W α : Type*}

/-! ### What an event does -/

/-- What an event can do. -/
inductive Effect (s : State W α) : Event W α → State W α → Prop
  /-- A payload nobody waits for is kept. -/
  | kept (key : RecvKey) (bytes : List α) (hslot : s.node.router.slots key = none) :
      Effect s (.deliver key bytes) { s with
        node := { s.node with
          router := s.node.router.insert key (.early ⟨bytes, (s.delivered key).length⟩) }
        delivered := Function.update s.delivered key (s.delivered key ++ [bytes]) }
  /-- A payload fills the receive that waits for it. -/
  | filled (key : RecvKey) (bytes : List α) (p : PendingRecv Name Name W)
      (hslot : s.node.router.slots key = some (.pending p)) :
      Effect s (.deliver key bytes) { s with
        node := { s.node with router := s.node.router.remove key }.fill p.target p.done
          ⟨bytes, (s.delivered key).length⟩
        delivered := Function.update s.delivered key (s.delivered key ++ [bytes]) }
  /-- Two payloads meet in a slot, and neither is kept. -/
  | clash (key : RecvKey) (bytes : List α) (m : Payload α ℕ)
      (hslot : s.node.router.slots key = some (.early m)) :
      Effect s (.deliver key bytes) { s with
        node := { s.node with router := s.node.router.remove key }
        delivered := Function.update s.delivered key (s.delivered key ++ [bytes]) }
  /-- A receive is created, and nothing of it is in the router yet. -/
  | created (key : RecvKey) (len : ℕ) :
      Effect s (.create key len) { s with
        futs := Function.update s.futs (key, s.created key)
          (some (RecvFuture.new key (key, s.created key) ⟨(key, s.created key), 0, len⟩))
        created := Function.update s.created key (s.created key + 1) }
  /-- A completed receive is polled. -/
  | ready (f : Name) (w : W) (fut : RecvFuture Name Name) (hfut : s.futs f = some fut)
      (hdone : s.node.done fut.done = true) : Effect s (.poll f w) s
  /-- A receive that waits is polled again. -/
  | waits (f : Name) (w : W) (fut : RecvFuture Name Name) (hfut : s.futs f = some fut)
      (hdone : s.node.done fut.done = false) (hreg : fut.registered = true) :
      Effect s (.poll f w) { s with
        node := { s.node with router := s.node.router.updateWaker fut.key w } }
  /-- A receive takes the early payload. -/
  | takes (f : Name) (w : W) (fut : RecvFuture Name Name) (m : Payload α ℕ)
      (hfut : s.futs f = some fut) (hfresh : Fresh s fut)
      (hslot : s.node.router.slots fut.key = some (.early m)) :
      Effect s (.poll f w) { s with
        node := { s.node with router := s.node.router.remove fut.key }.fill fut.target fut.done m
        posted := Function.update s.posted fut.key (s.posted fut.key ++ [fut]) }
  /-- A first poll finds no payload, and puts the receive into its slot. -/
  | registers (f : Name) (w : W) (fut : RecvFuture Name Name)
      (hfut : s.futs f = some fut) (hfresh : Fresh s fut)
      (hslot : ∀ m, s.node.router.slots fut.key ≠ some (.early m)) :
      Effect s (.poll f w) { s with
        node := { s.node with
          router := s.node.router.insert fut.key (.pending ⟨fut.target, fut.done, some w⟩) }
        futs := Function.update s.futs f (some { fut with registered := true })
        posted := Function.update s.posted fut.key (s.posted fut.key ++ [fut]) }
  /-- A receive that waits is dropped. -/
  | cancels (f : Name) (fut : RecvFuture Name Name) (hfut : s.futs f = some fut)
      (hdone : s.node.done fut.done = false) (hreg : fut.registered = true) :
      Effect s (.drop f) { s with
        node := { s.node with router := s.node.router.remove fut.key }
        futs := Function.update s.futs f none }
  /-- A receive that does not wait is dropped. -/
  | forgets (f : Name) (fut : RecvFuture Name Name) (hfut : s.futs f = some fut)
      (hidle : s.node.done fut.done = true ∨ fut.registered = false) :
      Effect s (.drop f) { s with futs := Function.update s.futs f none }

/-- **Every step is one of them.** -/
theorem step_effect {s s' : State W α} {e : Event W α} (hs : step s e = some s') :
    Effect s e s' := by
  cases e with
  | deliver key bytes =>
    obtain rfl := Option.some.inj hs
    match hslot : s.node.router.slots key with
    | none =>
      rw [Node.deliver_vacant hslot]
      exact .kept key bytes hslot
    | some (.pending p) =>
      rw [Node.deliver_pending hslot]
      exact .filled key bytes p hslot
    | some (.early m) =>
      rw [Node.deliver_early hslot]
      exact .clash key bytes m hslot
  | create key len =>
    obtain rfl := Option.some.inj hs
    exact .created key len
  | poll f w =>
    obtain ⟨fut, hfut, rfl⟩ := Option.map_eq_some_iff.mp hs
    have hsame : Function.update s.futs f (some fut) = s.futs := by
      rw [← hfut, Function.update_eq_self]
    rcases Bool.eq_false_or_eq_true (s.node.done fut.done) with hdone | hdone
    · rw [RecvFuture.poll_done hdone, if_neg (by simp [Fresh, hdone]), hsame]
      exact .ready f w fut hfut hdone
    rcases Bool.eq_false_or_eq_true fut.registered with hreg | hreg
    · rw [RecvFuture.poll_again hdone hreg, if_neg (by simp [Fresh, hreg]), hsame]
      exact .waits f w fut hfut hdone hreg
    have hfresh : Fresh s fut := ⟨hreg, hdone⟩
    by_cases hearly : ∃ m, s.node.router.slots fut.key = some (.early m)
    · obtain ⟨m, hm⟩ := hearly
      rw [RecvFuture.poll_early hdone hreg hm, if_pos hfresh, hsame]
      exact .takes f w fut m hfut hfresh hm
    · rw [RecvFuture.poll_register hdone hreg fun m hm => hearly ⟨m, hm⟩, if_pos hfresh]
      exact .registers f w fut hfut hfresh fun m hm => hearly ⟨m, hm⟩
  | drop f =>
    obtain ⟨fut, hfut, rfl⟩ := Option.map_eq_some_iff.mp hs
    unfold RecvFuture.drop
    split
    · next h =>
      obtain ⟨hreg, hdone⟩ := Bool.and_eq_true_iff.mp h
      exact .cancels f fut hfut (by simpa using hdone) hreg
    · next h =>
      refine .forgets f fut hfut ?_
      rcases Bool.eq_false_or_eq_true (s.node.done fut.done) with hdone | hdone
      · exact .inl hdone
      · rcases Bool.eq_false_or_eq_true fut.registered with hreg | hreg
        · exact absurd (by simp [hreg, hdone]) h
        · exact .inr hreg

/-! ### Slots and the receives they belong to -/

/-- Every slot is what it seems: a pending one belongs to a receive that exists and
waits, and an early payload is the one its number stands for. -/
structure Live (s : State W α) : Prop where
  own : Own s
  index : ∀ f fut, s.futs f = some fut → f.2 < s.created f.1
  /-- The flag of a receive that is not created yet is not set. -/
  unset : ∀ f : Name, s.created f.1 ≤ f.2 → s.node.done f = false
  pending : ∀ κ p, s.node.router.slots κ = some (.pending p) → s.node.done p.done = false ∧
    ∃ fut, s.futs p.done = some fut ∧ fut.registered = true ∧ fut.target = p.target
  early : ∀ κ m, s.node.router.slots κ = some (.early m) →
    (s.delivered κ)[m.origin]? = some m.bytes

/-- A payload keeps its number. -/
theorem delivered_update {d : RecvKey → List (List α)} {key κ : RecvKey} {bytes m : List α}
    {k : ℕ} (h : (d κ)[k]? = some m) :
    (Function.update d key (d key ++ [bytes]) κ)[k]? = some m := by
  rcases eq_or_ne κ key with rfl | hne
  · rw [Function.update_self]
    exact getElem?_concat_iff.mpr (.inl h)
  · rwa [Function.update_of_ne hne]

/-- The payload that arrives gets the next number. -/
theorem delivered_update_self (d : RecvKey → List (List α)) (key : RecvKey) (bytes : List α) :
    (Function.update d key (d key ++ [bytes]) key)[(d key).length]? = some bytes := by
  rw [Function.update_self, List.getElem?_concat_length]

theorem live_start (heap : Heap Name α) : Live (start heap : State W α) where
  own := own_start heap
  index := fun _ _ h => nomatch h
  unset := fun _ _ => rfl
  pending := fun _ _ h => nomatch h
  early := fun _ _ h => nomatch h

/-- The flag of another receive is as it was after one is filled. -/
theorem fill_done_of_ne {n : Node Name Name W α ℕ} {t : Slice Name} {d f : Name}
    {m : Payload α ℕ} {b : Bool} (hne : f ≠ d) : (n.fill t d m).done f = b ↔ n.done f = b := by
  show Function.update n.done d true f = b ↔ _
  rw [Function.update_of_ne hne]

/-- A receive that is filled records where its payload came from. -/
theorem fill_got (n : Node Name Name W α ℕ) (t : Slice Name) (d : Name) (m : Payload α ℕ) :
    (n.fill t d m).got d = some m.origin := Function.update_self ..

/-- A receive that is not created yet is none of those that exist. -/
theorem Live.ne_of_created_le {s : State W α} {f g : Name} {fut : RecvFuture Name Name}
    (h : Live s) (hfut : s.futs f = some fut) (hg : s.created g.1 ≤ g.2) : g ≠ f := by
  rintro rfl
  exact absurd (h.index _ fut hfut) (Nat.not_lt.mpr hg)

/-- A receive that is replaced or dropped had been created. -/
theorem Live.index_update {s : State W α} {f g : Name} {fut gut : RecvFuture Name Name}
    {new : Option (RecvFuture Name Name)} (h : Live s) (hfut : s.futs f = some fut)
    (hg : Function.update s.futs f new g = some gut) : g.2 < s.created g.1 := by
  rcases eq_or_ne g f with rfl | hne
  · exact h.index g fut hfut
  · exact h.index g gut ((Function.update_of_ne hne ..).symm.trans hg)

/-- A receive that waits in a slot is registered, so it is not one that is polled for the
first time. -/
theorem Live.done_ne_fresh {s : State W α} {κ : RecvKey} {p : PendingRecv Name Name W} {f : Name}
    {fut : RecvFuture Name Name} (h : Live s) (hp : s.node.router.slots κ = some (.pending p))
    (hfut : s.futs f = some fut) (hfresh : Fresh s fut) : p.done ≠ f := by
  rintro rfl
  obtain ⟨-, gut, hgut, hreg, -⟩ := h.pending κ p hp
  rw [hfut, Option.some_inj] at hgut
  rw [← hgut, hfresh.1] at hreg
  cases hreg

/-- A payload that arrives has its number, and frees the slot of the receive it fills. -/
theorem Live.deliver {s s' : State W α} {key : RecvKey} {bytes : List α} (h : Live s)
    (hs : step s (.deliver key bytes) = some s') : Live s' := by
  have hown := h.own.step hs
  cases step_effect hs with
  | kept _ _ hslot =>
    refine ⟨hown, h.index, h.unset, fun κ p hp => ?_, fun κ m hm => ?_⟩
    · exact h.pending κ p ((AmRouter.slots_of_insert hp).resolve_right fun hc => nomatch hc.2)
    · rcases AmRouter.slots_of_insert hm with hm | ⟨rfl, hm⟩
      · exact delivered_update (h.early κ m hm)
      · cases hm
        exact delivered_update_self ..
  | filled _ _ p hslot =>
    obtain ⟨-, fut, hfut, -, -⟩ := h.pending key p hslot
    refine ⟨hown, h.index, fun f hf => ?_, fun κ q hq => ?_, fun κ m hm => ?_⟩
    · exact (fill_done_of_ne (h.ne_of_created_le hfut hf)).mpr (h.unset f hf)
    · -- the slot that is left belongs to a receive of another key
      have hne : κ ≠ key := by
        rintro rfl
        cases (AmRouter.remove_slots_self ..).symm.trans hq
      replace hq := AmRouter.slots_of_remove hq
      obtain ⟨hd, hrest⟩ := h.pending κ q hq
      refine ⟨(fill_done_of_ne fun he => hne ?_).mpr hd, hrest⟩
      rw [← (h.own.slot κ q hq).1, he, (h.own.slot key p hslot).1]
    · exact delivered_update (h.early κ m (AmRouter.slots_of_remove hm))
  | clash _ _ m hslot =>
    exact ⟨hown, h.index, h.unset, fun κ p hp => h.pending κ p (AmRouter.slots_of_remove hp),
      fun κ m' hm => delivered_update (h.early κ m' (AmRouter.slots_of_remove hm))⟩

/-- A new receive waits in no slot. -/
theorem Live.create {s s' : State W α} {key : RecvKey} {len : ℕ} (h : Live s)
    (hs : step s (.create key len) = some s') : Live s' := by
  have hown := h.own.step hs
  cases step_effect hs with
  | created =>
    refine ⟨hown, fun f fut hf => ?_, fun f hf => h.unset f ?_, fun κ p hp => ?_, h.early⟩
    · rcases eq_or_ne f (key, s.created key) with rfl | hne
      · simp
      · have hlt := h.index f fut ((Function.update_of_ne hne ..).symm.trans hf)
        by_cases hk : f.1 = key
        · simp only [hk, Function.update_self] at hlt ⊢
          omega
        · simpa only [Function.update_of_ne hk] using hlt
    · by_cases hk : f.1 = key
      · simp only [hk, Function.update_self] at hf ⊢
        omega
      · simpa only [Function.update_of_ne hk] using hf
    · obtain ⟨hd, fut, hfut, hrest⟩ := h.pending κ p hp
      have hne : (key, s.created key) ≠ p.done := h.ne_of_created_le hfut (Nat.le_refl _)
      exact ⟨hd, fut, (Function.update_of_ne hne.symm ..).trans hfut, hrest⟩

/-- A poll puts its own receive into the slot, or takes the payload out. -/
theorem Live.poll {s s' : State W α} {f : Name} {w : W} (h : Live s)
    (hs : step s (.poll f w) = some s') : Live s' := by
  have hown := h.own.step hs
  cases step_effect hs with
  | ready => exact h
  | waits _ _ fut hfut hdone hreg =>
    refine ⟨hown, h.index, h.unset, fun κ p hp => ?_, fun κ m hm => ?_⟩
    · rcases s.node.router.updateWaker_slots fut.key κ w with hu | ⟨q, rfl, hq, hu⟩
      · exact h.pending κ p (hu.symm.trans hp)
      · cases hu.symm.trans hp
        exact h.pending _ q hq
    · rcases s.node.router.updateWaker_slots fut.key κ w with hu | ⟨q, rfl, -, hu⟩
      · exact h.early κ m (hu.symm.trans hm)
      · cases hu.symm.trans hm
  | takes _ _ fut m hfut hfresh hslot =>
    obtain ⟨-, hname, -⟩ := h.own.fut f fut hfut
    refine ⟨hown, h.index, fun g hg => ?_, fun κ p hp => ?_, fun κ m' hm =>
      h.early κ m' (AmRouter.slots_of_remove hm)⟩
    · exact (fill_done_of_ne (hname ▸ h.ne_of_created_le hfut hg)).mpr (h.unset g hg)
    · replace hp := AmRouter.slots_of_remove hp
      obtain ⟨hd, hrest⟩ := h.pending κ p hp
      exact ⟨(fill_done_of_ne (hname ▸ h.done_ne_fresh hp hfut hfresh)).mpr hd, hrest⟩
  | registers _ _ fut hfut hfresh hslot =>
    obtain ⟨hkey, hname, -⟩ := h.own.fut f fut hfut
    refine ⟨hown, fun _ _ => h.index_update hfut, h.unset, fun κ p hp => ?_, fun κ m hm =>
      h.early κ m ((AmRouter.slots_of_insert hm).resolve_right fun hc => nomatch hc.2)⟩
    rcases AmRouter.slots_of_insert hp with hp | ⟨hκ, hq⟩
    · obtain ⟨hd, gut, hgut, hrest⟩ := h.pending κ p hp
      have hne := h.done_ne_fresh hp hfut hfresh
      exact ⟨hd, gut, (Function.update_of_ne hne ..).trans hgut, hrest⟩
    · cases hq
      refine ⟨hfresh.2, { fut with registered := true }, ?_, rfl, rfl⟩
      exact (congrArg _ hname).trans (Function.update_self ..)

/-- A drop takes the slot of its receive along. -/
theorem Live.drop {s s' : State W α} {f : Name} (h : Live s)
    (hs : step s (.drop f) = some s') : Live s' := by
  have hown := h.own.step hs
  cases step_effect hs with
  | cancels _ fut hfut hdone hreg =>
    obtain ⟨hkey, hname, -⟩ := h.own.fut f fut hfut
    refine ⟨hown, fun _ _ => h.index_update hfut, h.unset, fun κ p hp => ?_, fun κ m hm =>
      h.early κ m (AmRouter.slots_of_remove hm)⟩
    have hp' := AmRouter.slots_of_remove hp
    obtain ⟨hd, gut, hgut, hrest⟩ := h.pending κ p hp'
    refine ⟨hd, gut, (Function.update_of_ne ?_ ..).trans hgut, hrest⟩
    -- the slot of the dropped receive is gone
    rintro rfl
    obtain rfl : fut.key = κ := hkey.trans (h.own.slot κ p hp').1
    cases (AmRouter.remove_slots_self ..).symm.trans hp
  | forgets _ fut hfut hidle =>
    refine ⟨hown, fun _ _ => h.index_update hfut, h.unset, fun κ p hp => ?_, h.early⟩
    obtain ⟨hd, gut, hgut, hreg, ht⟩ := h.pending κ p hp
    refine ⟨hd, gut, (Function.update_of_ne ?_ ..).trans hgut, hreg, ht⟩
    rintro rfl
    obtain rfl : gut = fut := Option.some.inj (hgut.symm.trans hfut)
    rcases hidle with hidle | hidle
    · rw [(h.own.fut _ gut hfut).2.1, hd] at hidle
      cases hidle
    · rw [hreg] at hidle
      cases hidle

/-- **Every step keeps the slots what they seem.** -/
theorem Live.step {s s' : State W α} {e : Event W α} (h : Live s) (hs : step s e = some s') :
    Live s' := by
  cases e with
  | deliver key bytes => exact h.deliver hs
  | create key len => exact h.create hs
  | poll f w => exact h.poll hs
  | drop f => exact h.drop hs

/-! ### What a completed receive holds -/

/-- The receive has received exactly its buffer: a payload of its key, as long as the
target, and the target holds it. -/
def Exact (s : State W α) (fut : RecvFuture Name Name) : Prop :=
  ∃ k m, s.node.got fut.done = some k ∧ (s.delivered fut.key)[k]? = some m ∧
    m.length = fut.target.len ∧ s.node.heap.read fut.target = m

/-- **Every receive whose polls report `Ok`** has received exactly its buffer. -/
def OkExact (s : State W α) : Prop :=
  ∀ f fut, s.futs f = some fut → s.node.done fut.done = true → Exact s fut

/-- A payload that meets a receive, in a delivery or in a poll, is as long as its
target. -/
def LengthsMatch (s : State W α) : Event W α → Prop
  | .deliver key bytes =>
      ∀ p, s.node.router.slots key = some (.pending p) → bytes.length = p.target.len
  | .poll f _ => ∀ fut m, s.futs f = some fut → Fresh s fut →
      s.node.router.slots fut.key = some (.early m) → m.bytes.length = fut.target.len
  | _ => True

/-- The step writes nothing but the target of a receive that exists, and that it
completes. -/
def Within (s s' : State W α) : Prop :=
  ∀ r i, s'.node.heap r i ≠ s.node.heap r i → ∃ f fut, s.futs f = some fut ∧
    s.node.done fut.done = false ∧ s'.node.done fut.done = true ∧ fut.target.Has r i

/-- **A poll reports `Ok` when the flag is set**, be it by the poll itself. -/
theorem poll_ready_iff (fut : RecvFuture Name Name) (n : Node Name Name W α ℕ) (w : W) :
    (fut.poll n w).1 = .ready ↔ (fut.poll n w).2.2.done fut.done = true := by
  rcases Bool.eq_false_or_eq_true (n.done fut.done) with hdone | hdone
  · rw [RecvFuture.poll_done hdone]
    exact iff_of_true rfl hdone
  rcases Bool.eq_false_or_eq_true fut.registered with hreg | hreg
  · rw [RecvFuture.poll_again hdone hreg]
    exact iff_of_false (fun h => nomatch h) (by simp [hdone])
  by_cases hearly : ∃ m, n.router.slots fut.key = some (.early m)
  · obtain ⟨m, hm⟩ := hearly
    rw [RecvFuture.poll_early hdone hreg hm]
    exact iff_of_true rfl (Function.update_self ..)
  · rw [RecvFuture.poll_register hdone hreg fun m hm => hearly ⟨m, hm⟩]
    exact iff_of_false (fun h => nomatch h) (by simp [hdone])

/-- What a receive holds depends on its own cells, and on payloads that keep their
numbers. -/
theorem Exact.congr {s s' : State W α} {fut : RecvFuture Name Name} (h : Exact s fut)
    (hgot : s'.node.got fut.done = s.node.got fut.done)
    (hread : s'.node.heap.read fut.target = s.node.heap.read fut.target)
    (hdel : ∀ (k : ℕ) (m : List α), (s.delivered fut.key)[k]? = some m →
      (s'.delivered fut.key)[k]? = some m) :
    Exact s' fut := by
  obtain ⟨k, m, hk, hm, hlen, hr⟩ := h
  exact ⟨k, m, hgot.trans hk, hdel k m hm, hlen, hread.trans hr⟩

/-- A receive filled with a payload of its length holds it. -/
theorem exact_of_fill {s' : State W α} {n : Node Name Name W α ℕ} {fut : RecvFuture Name Name}
    {m : Payload α ℕ} (hnode : s'.node = n.fill fut.target fut.done m)
    (hm : (s'.delivered fut.key)[m.origin]? = some m.bytes)
    (hlen : m.bytes.length = fut.target.len) : Exact s' fut := by
  refine ⟨m.origin, m.bytes, ?_, hm, hlen, ?_⟩
  · rw [hnode, fill_got]
  · rw [hnode]
    exact Heap.read_copyInto _ hlen

/-- A receive that is filled with a payload of another length does not hold it. -/
theorem not_exact_of_fill {s' : State W α} {n : Node Name Name W α ℕ}
    (fut : RecvFuture Name Name) {m : Payload α ℕ}
    (hnode : s'.node = n.fill fut.target fut.done m)
    (hm : (s'.delivered fut.key)[m.origin]? = some m.bytes)
    (hlen : m.bytes.length ≠ fut.target.len) : ¬Exact s' fut := by
  rintro ⟨k, m', hk, hm', hlen', -⟩
  rw [hnode] at hk
  obtain rfl : m.origin = k := Option.some.inj ((fill_got ..).symm.trans hk)
  obtain rfl : m.bytes = m' := Option.some.inj (hm.symm.trans hm')
  exact hlen hlen'

/-- Filling one receive leaves what another holds. -/
theorem Exact.fill {s s' : State W α} {n : Node Name Name W α ℕ} {fut : RecvFuture Name Name}
    {t : Slice Name} {d : Name} {m : Payload α ℕ} (h : Exact s fut)
    (hnode : s'.node = n.fill t d m) (hgot : n.got = s.node.got) (hheap : n.heap = s.node.heap)
    (hd : fut.done ≠ d) (ht : fut.target.region ≠ t.region)
    (hdel : ∀ (k : ℕ) (m : List α), (s.delivered fut.key)[k]? = some m →
      (s'.delivered fut.key)[k]? = some m) :
    Exact s' fut := by
  refine h.congr ?_ ?_ hdel
  · rw [hnode, ← hgot]
    exact Function.update_of_ne hd ..
  · rw [hnode, ← hheap]
    exact fill_read_of_ne ht

/-- **Payloads of the right length** keep every completed receive exact. -/
theorem OkExact.step {s s' : State W α} {e : Event W α} (hok : OkExact s) (h : Live s)
    (hlen : LengthsMatch s e) (hs : step s e = some s') : OkExact s' := by
  cases step_effect hs with
  | kept key bytes hslot | clash key bytes m hslot =>
    exact fun f fut hfut hdone =>
      Exact.congr (hok f fut hfut hdone) rfl rfl fun k m hm => delivered_update hm
  | filled key bytes p hslot =>
    intro f fut hfut hdone
    obtain ⟨hkey, hname, hregion⟩ := h.own.fut f fut hfut
    obtain ⟨hpkey, hpregion⟩ := h.own.slot key p hslot
    obtain ⟨-, gut, hgut, -, htarget⟩ := h.pending key p hslot
    by_cases hf : f = p.done
    · -- the receive that is filled
      subst hf
      obtain rfl : gut = fut := Option.some.inj (hgut.symm.trans hfut)
      obtain rfl : gut.key = key := hkey.trans hpkey
      refine exact_of_fill (by rw [hname, htarget]) (delivered_update_self ..) ?_
      rw [htarget]
      exact hlen p hslot
    · have hne : fut.done ≠ p.done := by rwa [hname]
      replace hdone := (fill_done_of_ne hne).mp hdone
      refine Exact.fill (hok f fut hfut hdone) rfl rfl rfl hne ?_ fun k m hm => delivered_update hm
      rwa [hregion, hpregion]
  | created key len =>
    intro f fut hfut hdone
    rcases eq_or_ne f (key, s.created key) with rfl | hne
    · -- the flag of the new receive is not set
      cases (Function.update_self ..).symm.trans hfut
      have := h.unset (key, s.created key) (Nat.le_refl _)
      rw [show s.node.done (key, s.created key) = true from hdone] at this
      cases this
    · exact Exact.congr (hok f fut ((Function.update_of_ne hne ..).symm.trans hfut) hdone) rfl rfl
        fun _ _ hm => hm
  | ready f w fut hfut hdone => exact hok
  | waits f w fut hfut hdone hreg =>
    exact fun g gut hg hd => Exact.congr (hok g gut hg hd) rfl rfl fun _ _ hm => hm
  | takes f w fut m hfut hfresh hslot =>
    intro g gut hg hd
    obtain ⟨-, hname, hregion⟩ := h.own.fut f fut hfut
    obtain ⟨-, hgname, hgregion⟩ := h.own.fut g gut hg
    by_cases hgf : g = f
    · -- the receive that takes the payload
      subst hgf
      obtain rfl : fut = gut := Option.some.inj (hfut.symm.trans hg)
      exact exact_of_fill rfl (h.early _ m hslot) (hlen fut m hfut hfresh hslot)
    · have hne : gut.done ≠ fut.done := by rwa [hgname, hname]
      replace hd := (fill_done_of_ne hne).mp hd
      refine Exact.fill (hok g gut hg hd) rfl rfl rfl hne ?_ fun _ _ hm => hm
      rwa [hgregion, hregion]
  | registers f w fut hfut hfresh hslot =>
    intro g gut hg hd
    rcases eq_or_ne g f with rfl | hne
    · cases (Function.update_self ..).symm.trans hg
      -- it waits, so it is not completed
      cases hfresh.2.symm.trans hd
    · exact Exact.congr (hok g gut ((Function.update_of_ne hne ..).symm.trans hg) hd) rfl rfl
        fun _ _ hm => hm
  | cancels f fut hfut hdone hreg | forgets f fut hfut hidle =>
    intro g gut hg hd
    rcases eq_or_ne g f with rfl | hne
    · cases (Function.update_self ..).symm.trans hg
    · exact Exact.congr (hok g gut ((Function.update_of_ne hne ..).symm.trans hg) hd) rfl rfl
        fun _ _ hm => hm

/-- **A payload of another length** leaves a receive that reports `Ok` and has not
received its buffer. -/
theorem Live.not_okExact {s s' : State W α} {e : Event W α} (h : Live s)
    (hlen : ¬LengthsMatch s e) (hs : Mailbox.step s e = some s') : ¬OkExact s' := by
  intro hok
  cases step_effect hs with
  | filled key bytes p hslot =>
    have hne : bytes.length ≠ p.target.len := by
      intro heq
      refine hlen fun q hq => ?_
      cases hslot.symm.trans hq
      exact heq
    obtain ⟨-, fut, hfut, -, htarget⟩ := h.pending key p hslot
    obtain ⟨hkey, hname, -⟩ := h.own.fut _ fut hfut
    obtain rfl : fut.key = key := hkey.trans (h.own.slot key p hslot).1
    refine not_exact_of_fill fut (by rw [hname, htarget]) (delivered_update_self ..)
      (by rwa [htarget]) (hok _ fut hfut ?_)
    rw [hname]
    exact Function.update_self ..
  | takes f w fut m hfut hfresh hslot =>
    have hne : m.bytes.length ≠ fut.target.len := by
      intro heq
      refine hlen fun gut m' hg _ hm' => ?_
      obtain rfl : fut = gut := Option.some.inj (hfut.symm.trans hg)
      cases hslot.symm.trans hm'
      exact heq
    refine not_exact_of_fill fut rfl ?_ hne (hok f fut hfut (Function.update_self ..))
    exact h.early _ m hslot
  | kept key bytes hslot | clash key bytes m hslot =>
    exact hlen fun p hp => nomatch hslot.symm.trans hp
  | created | cancels | forgets => exact hlen trivial
  | ready f w fut hfut hdone =>
    refine hlen fun gut m hg hfresh _ => ?_
    obtain rfl : fut = gut := Option.some.inj (hfut.symm.trans hg)
    cases hfresh.2.symm.trans hdone
  | waits f w fut hfut hdone hreg =>
    refine hlen fun gut m hg hfresh _ => ?_
    obtain rfl : fut = gut := Option.some.inj (hfut.symm.trans hg)
    cases hfresh.1.symm.trans hreg
  | registers f w fut hfut hfresh hslot =>
    refine hlen fun gut m hg _ hm => ?_
    obtain rfl : fut = gut := Option.some.inj (hfut.symm.trans hg)
    exact absurd hm (hslot m)

/-- **No step writes outside the target of a receive that waits for it.** -/
theorem Live.within {s s' : State W α} {e : Event W α} (h : Live s)
    (hs : Mailbox.step s e = some s') : Within s s' := by
  intro r i hne
  cases step_effect hs with
  | filled key bytes p hslot =>
    obtain ⟨hdone, fut, hfut, -, htarget⟩ := h.pending key p hslot
    have hname := (h.own.fut _ fut hfut).2.1
    refine ⟨p.done, fut, hfut, by rwa [hname], by rw [hname]; exact Function.update_self .., ?_⟩
    rw [htarget]
    by_contra hout
    exact hne (Heap.copyInto_of_not_has _ _ hout)
  | takes f w fut m hfut hfresh hslot =>
    refine ⟨f, fut, hfut, hfresh.2, Function.update_self .., ?_⟩
    by_contra hout
    exact hne (Heap.copyInto_of_not_has _ _ hout)
  | kept | clash | created | ready | waits | registers | cancels | forgets => exact absurd rfl hne

/-- **When an `Ok` receive has received exactly its buffer.** In a run, every receive
whose polls report `Ok` holds a payload of its own length if and only if each payload
that meets a receive is as long as its target. A poll reports `Ok` exactly when it
leaves the flag set, and whatever the lengths, no step writes outside the target of a
receive that it completes. -/
theorem ok_exact_iff (heap : Heap Name α) (es : List (Event W α)) :
    (Always step OkExact (start heap) es ↔ EachStep step LengthsMatch (start heap) es) ∧
      (∀ (fut : RecvFuture Name Name) (n : Node Name Name W α ℕ) (w : W),
        (fut.poll n w).1 = .ready ↔ (fut.poll n w).2.2.done fut.done = true) ∧
      ∀ (s s' : State W α) (e : Event W α), Reaches step (start heap) s → step s e = some s' →
        Within s s' := by
  have hstart : OkExact (start heap : State W α) := fun _ _ h => nomatch h
  refine ⟨?_, poll_ready_iff, fun s s' e hreach hs => ?_⟩
  · exact always_iff_eachStep (fun s (h : Live s ∧ OkExact s) => h.2)
      (fun s e s' h _ hlen hs => ⟨h.1.step hs, h.2.step h.1 hlen hs⟩)
      (fun s e s' h _ hlen hs => h.1.not_okExact hlen hs) ⟨live_start heap, hstart⟩
      (eachStep_true es)
  · have hlive : Live s := hreach.invariant (live_start heap) fun _ _ _ h _ => h.step
    exact hlive.within hs

/-- A payload of one byte, and a receive of one byte. -/
theorem ok_exact_iff_one :
    Always step OkExact (start fun _ _ => (0 : ℕ))
      [.deliver ⟨1, 0, 0, 0⟩ [7], .create ⟨1, 0, 0, 0⟩ 1, .poll (⟨1, 0, 0, 0⟩, 0) ()] := by
  refine (ok_exact_iff _ _).1.mpr ?_
  rintro _ ⟨⟩
  refine ⟨fun _ hp => (nomatch hp), ?_⟩
  rintro _ ⟨⟩
  refine ⟨trivial, ?_⟩
  rintro _ ⟨⟩
  refine ⟨?_, trivial⟩
  rintro _ _ ⟨⟩ - ⟨⟩
  rfl

/-- **An `Ok` for a target that is half filled.** One byte arrives for a receive of two,
after it or before it: the next poll reports `Ok` in both orders, and the second byte
of the target is what it was. -/
theorem ok_of_short_payload :
    ¬Always step OkExact (start fun _ _ => (0 : ℕ))
        [.create ⟨1, 0, 0, 0⟩ 2, .poll (⟨1, 0, 0, 0⟩, 0) (), .deliver ⟨1, 0, 0, 0⟩ [7]] ∧
      ¬Always step OkExact (start fun _ _ => (0 : ℕ))
        [.deliver ⟨1, 0, 0, 0⟩ [7], .create ⟨1, 0, 0, 0⟩ 2, .poll (⟨1, 0, 0, 0⟩, 0) ()] := by
  constructor <;> intro h
  all_goals
    obtain ⟨k, m, hk, hm, hlen, -⟩ :=
      ((h.2 _ rfl).2 _ rfl).2 _ rfl (⟨1, 0, 0, 0⟩, 0) _ rfl rfl
    obtain rfl : 0 = k := Option.some.inj hk
    obtain rfl : [7] = m := Option.some.inj hm
    cases hlen

/-! ### Whose memory a delivery writes -/

/-- The pending slot `p` under `κ` is that of the future `fut`, named `f`, which exists,
is registered under this key and is not done. -/
structure Owner (s : State W α) (κ : RecvKey) (p : PendingRecv Name Name W) (f : Name)
    (fut : RecvFuture Name Name) : Prop where
  alive : s.futs f = some fut
  key : fut.key = κ
  registered : fut.registered = true
  notDone : s.node.done fut.done = false
  done : p.done = fut.done
  target : p.target = fut.target

/-- What a delivery does to the memory and the flags: nothing, when no receive waits for
it, and otherwise it writes the cells of the target that the payload reaches, and sets the
flag of the receive, which is the flag of no other. -/
def DeliversLive (s : State W α) (key : RecvKey) (bytes : List α) (s' : State W α) : Prop :=
  (∀ p, s.node.router.slots key ≠ some (.pending p)) ∧
      s'.node.heap = s.node.heap ∧ s'.node.done = s.node.done ∨
    ∃ p f fut, s.node.router.slots key = some (.pending p) ∧ Owner s key p f fut ∧
      s'.node.heap = s.node.heap.copyInto fut.target bytes ∧
      (∀ r i, s'.node.heap r i ≠ s.node.heap r i →
        fut.target.Has r i ∧ i < fut.target.off + bytes.length) ∧
      s'.node.done = Function.update s.node.done fut.done true ∧
      ∀ g gut, s.futs g = some gut → gut.done = fut.done → g = f

/-- **A pending slot has its owner.** -/
theorem Live.owner {s : State W α} (h : Live s) {κ : RecvKey} {p : PendingRecv Name Name W}
    (hp : s.node.router.slots κ = some (.pending p)) : ∃ f fut, Owner s κ p f fut := by
  obtain ⟨hdone, fut, hfut, hreg, htarget⟩ := h.pending κ p hp
  obtain ⟨hkey, hname, -⟩ := h.own.fut _ fut hfut
  exact ⟨p.done, fut, hfut, hkey.trans (h.own.slot κ p hp).1, hreg, by rwa [hname], hname.symm,
    htarget.symm⟩

/-- **A delivery writes for the owner of the slot**, and for nobody else. -/
theorem Live.deliversLive {s s' : State W α} {key : RecvKey} {bytes : List α} (h : Live s)
    (hs : Mailbox.step s (.deliver key bytes) = some s') : DeliversLive s key bytes s' := by
  cases step_effect hs with
  | kept _ _ hslot | clash _ _ _ hslot =>
    exact .inl ⟨fun p hp => (nomatch hslot.symm.trans hp), rfl, rfl⟩
  | filled _ _ p hslot =>
    obtain ⟨f, fut, howner⟩ := h.owner hslot
    have hheap : (s.node.heap.copyInto p.target bytes) = s.node.heap.copyInto fut.target bytes := by
      rw [howner.target]
    refine .inr ⟨p, f, fut, hslot, howner, hheap, fun r i hne => ?_, ?_, fun g gut hg hd => ?_⟩
    · have hwrite : s.node.heap.copyInto fut.target bytes r i ≠ s.node.heap r i :=
        hheap ▸ hne
      have hhas : fut.target.Has r i := by
        by_contra hout
        exact hwrite (Heap.copyInto_of_not_has _ _ hout)
      refine ⟨hhas, ?_⟩
      by_contra hlong
      refine hwrite (if_neg ?_)
      rintro ⟨-, -, hhi⟩
      omega
    · rw [← howner.done]
      rfl
    · rw [← (h.own.fut g gut hg).2.1, hd]
      exact (h.own.fut f fut howner.alive).2.1

/-- **The router writes only into live receives.** In every state that creating, polling and
dropping receives and delivering payloads can reach, on any keys and in any order, a pending
slot belongs to a future that exists, is registered under its key and is not done; a
delivery writes into the target of this future and sets its flag, or does neither; and a
future that is dropped leaves no slot behind. -/
theorem writes_live_receives (heap : Heap Name α) {s : State W α}
    (hreach : Reaches step (start heap) s) :
    (∀ κ p, s.node.router.slots κ = some (.pending p) → ∃ f fut, Owner s κ p f fut) ∧
      (∀ key bytes s', step s (.deliver key bytes) = some s' → DeliversLive s key bytes s') ∧
      ∀ f fut s', s.futs f = some fut → step s (.drop f) = some s' →
        ∀ κ p, s'.node.router.slots κ = some (.pending p) → p.done ≠ fut.done := by
  have hlive : Live s := hreach.invariant (live_start heap) fun _ _ _ h _ => h.step
  refine ⟨fun _ _ => hlive.owner, fun _ _ _ => hlive.deliversLive,
    fun f fut s' hfut hs κ p hp he => ?_⟩
  have hgone : s'.futs f = none := by
    cases step_effect hs with
    | cancels | forgets => exact Function.update_self ..
  -- the slot that is left has an owner, which is not the one that was dropped
  obtain ⟨-, gut, hgut, -, -⟩ := (hlive.step hs).pending κ p hp
  rw [he, (hlive.own.fut f fut hfut).2.1, hgone] at hgut
  cases hgut

/-- Two receives on a key: the slot of the first is replaced, and goes when the first is
dropped. -/
theorem writes_live_receives_two :
    ∃ s : State Unit ℕ, Reaches step (start fun _ _ => 0) s ∧
      (∃ p, s.node.router.slots ⟨1, 0, 0, 0⟩ = some (.pending p) ∧ p.target.len = 2 ∧
        ∃ f fut, Owner s ⟨1, 0, 0, 0⟩ p f fut) ∧
      ∃ s', step s (.drop (⟨1, 0, 0, 0⟩, 0)) = some s' ∧
        s'.node.router.slots ⟨1, 0, 0, 0⟩ = none := by
  obtain ⟨s, hs⟩ : ∃ s : State Unit ℕ, runList step (start fun _ _ => 0)
      [.create ⟨1, 0, 0, 0⟩ 1, .create ⟨1, 0, 0, 0⟩ 2, .poll (⟨1, 0, 0, 0⟩, 0) (),
        .poll (⟨1, 0, 0, 0⟩, 1) ()] = some s := ⟨_, rfl⟩
  have hlive := (writes_live_receives _ (.of_run hs)).1
  refine ⟨s, .of_run hs, ?_, ?_⟩
  · have hslot : s.node.router.slots ⟨1, 0, 0, 0⟩ = some (.pending
        ⟨⟨(⟨1, 0, 0, 0⟩, 1), 0, 2⟩, (⟨1, 0, 0, 0⟩, 1), some ()⟩) := by
      cases hs
      rfl
    exact ⟨_, hslot, rfl, hlive _ _ hslot⟩
  · cases hs
    exact ⟨_, rfl, rfl⟩

end Mailbox

end Pluvio
