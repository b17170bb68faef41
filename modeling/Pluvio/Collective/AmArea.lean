import Pluvio.Collective.AmPlan

/-!
# A call among others

Several calls can be in flight on a communicator at a time. They share the memory of
their rank, its router and the channels, and each has a part of these to itself, its area
(`Pluvio.AmNet.Area`): cells of the memory, the phase bytes of its keys, and a stretch of
the stages of each rank.

A call sees no more than its area. `Pluvio.AmNet.Area.Sees` says that a state which the
call shares with others looks, inside the area, like a state in which the call is alone;
the stages are counted from the first one of the call. What the call does then, it can do
alone and the other way round (`Pluvio.AmNet.Among.step`), and outside the area nothing
changes (`Pluvio.AmNet.Area.Keeps`), which is all that a call with another area sees of it
(`Pluvio.AmNet.Area.NodeSees.of_keeps`).
-/

namespace Pluvio

namespace AmNet

variable {R α : Type*}

/-- **What a call has to itself.** -/
structure Area (R : Type*) where
  /-- The cells of its buffers. -/
  own : R → ℕ → Prop
  /-- The phases of its keys. -/
  phases : List UInt8
  /-- The number of its first stage on each rank. -/
  first : ℕ → ℕ
  /-- How many stages it has there. -/
  count : ℕ → ℕ

/-- An await point that stays among some cells, and under keys of some phases. -/
structure Instr.Within (own : R → ℕ → Prop) (phases : List UInt8) (i : Instr R α) : Prop where
  sends : ∀ sd ∈ i.sends, sd.key.phase ∈ phases ∧ sd.view.Within own
  recv : ∀ κ t, i.recv = some (κ, t) → κ.phase ∈ phases ∧ t.Within own
  after : Heap.LocalTo own i.after

namespace Area

variable (A B : Area R) (p : ℕ)

/-- The name of a receive of the call, on a rank where other calls are made too. -/
def name (a : Name) : Name := (A.first p + a.1, a.2)

/-- The receives of the call. -/
def Named (a : Name) : Prop := A.first p ≤ a.1 ∧ a.1 < A.first p + A.count p

/-- Two areas have nothing in common. -/
structure Apart : Prop where
  own : ∀ r i, A.own r i → ¬B.own r i
  phases : ∀ x ∈ A.phases, x ∉ B.phases
  names : ∀ p a, A.Named p a → ¬B.Named p a

theorem name_injective : Function.Injective (A.name p) := by
  rintro ⟨st, x⟩ ⟨st', x'⟩ h
  obtain ⟨hst, rfl⟩ := Prod.mk.injEq .. ▸ h
  obtain rfl : st = st' := Nat.add_left_cancel hst
  rfl

theorem named_name {a : Name} (ha : a.1 < A.count p) : A.Named p (A.name p a) :=
  ⟨Nat.le_add_right .., Nat.add_lt_add_left ha _⟩

/-! ### Nodes -/

/-- A slot of the router, as the call sees it. -/
inductive SlotSees : Slot R Name ℕ α ℕ → Slot R Name ℕ α ℕ → Prop
  | pending (target : Slice R) (a : Name) (w w' : Option ℕ) (htarget : target.Within A.own)
      (ha : a.1 < A.count p) :
      SlotSees (.pending ⟨target, A.name p a, w⟩) (.pending ⟨target, a, w'⟩)
  | early (bytes : List α) (o o' : ℕ) : SlotSees (.early ⟨bytes, o⟩) (.early ⟨bytes, o'⟩)

/-- **A node that is shared looks like one that is not.** -/
structure NodeSees (m n : Node R Name ℕ α ℕ) : Prop where
  heap : Heap.AgreeOn A.own m.heap n.heap
  done : ∀ a : Name, a.1 < A.count p → m.done (A.name p a) = n.done a
  slots : ∀ κ, κ.phase ∈ A.phases →
    Option.Rel (A.SlotSees p) (m.router.slots κ) (n.router.slots κ)

/-- **Outside the area nothing changes.** -/
structure NodeKeeps (m m' : Node R Name ℕ α ℕ) : Prop where
  heap : Heap.AgreeOn (fun r i => ¬A.own r i) m'.heap m.heap
  done : ∀ a, ¬A.Named p a → m'.done a = m.done a
  slots : ∀ κ, κ.phase ∉ A.phases → m'.router.slots κ = m.router.slots κ

variable {A B p} {m m' m'' n : Node R Name ℕ α ℕ}

/-- What looks like an early message is one. -/
theorem early_of_sees {sl : Option (Slot R Name ℕ α ℕ)} {e : Payload α ℕ}
    (h : Option.Rel (A.SlotSees p) sl (some (.early e))) :
    ∃ o, sl = some (.early ⟨e.bytes, o⟩) := by
  cases h with
  | some h =>
    cases h with
    | early bytes o o' => exact ⟨o, rfl⟩

/-- And an early message looks like one. -/
theorem sees_early {sl : Option (Slot R Name ℕ α ℕ)} {e : Payload α ℕ}
    (h : Option.Rel (A.SlotSees p) (some (.early e)) sl) :
    ∃ o', sl = some (.early ⟨e.bytes, o'⟩) := by
  cases h with
  | some h =>
    cases h with
    | early bytes o o' => exact ⟨o', rfl⟩

theorem NodeKeeps.refl (A : Area R) (p : ℕ) (m : Node R Name ℕ α ℕ) : A.NodeKeeps p m m :=
  ⟨.refl _ _, fun _ _ => rfl, fun _ _ => rfl⟩

theorem NodeKeeps.trans (h : A.NodeKeeps p m m') (h' : A.NodeKeeps p m' m'') :
    A.NodeKeeps p m m'' :=
  ⟨h'.heap.trans h.heap, fun a ha => (h'.done a ha).trans (h.done a ha),
    fun κ hκ => (h'.slots κ hκ).trans (h.slots κ hκ)⟩

/-- **What changes in one area is not seen in another.** -/
theorem NodeSees.of_keeps (hap : A.Apart B) (h : A.NodeSees p m n) (hk : B.NodeKeeps p m m') :
    A.NodeSees p m' n where
  heap r i hi := (hk.heap r i (hap.own r i hi)).trans (h.heap r i hi)
  done a ha := (hk.done _ (hap.names p _ (A.named_name p ha))).trans (h.done a ha)
  slots κ hκ := by
    rw [hk.slots κ (hap.phases _ hκ)]
    exact h.slots κ hκ

variable {κ : RecvKey} {target : Slice R} {a : Name} {bytes : List α} {o o' : ℕ}

/-- A slot of the call replaced. -/
theorem NodeSees.insert {sl sl' : Slot R Name ℕ α ℕ} (h : A.NodeSees p m n)
    (hsl : A.SlotSees p sl sl') : A.NodeSees p { m with router := m.router.insert κ sl }
      { n with router := n.router.insert κ sl' } where
  heap := h.heap
  done := h.done
  slots κ' hκ' := by
    rcases eq_or_ne κ' κ with rfl | hne
    · rw [AmRouter.insert_slots_self, AmRouter.insert_slots_self]
      exact .some hsl
    · rw [AmRouter.insert_slots_of_ne _ _ hne, AmRouter.insert_slots_of_ne _ _ hne]
      exact h.slots κ' hκ'

theorem NodeKeeps.insert (m : Node R Name ℕ α ℕ) (hκ : κ.phase ∈ A.phases)
    (sl : Slot R Name ℕ α ℕ) : A.NodeKeeps p m { m with router := m.router.insert κ sl } where
  heap := .refl _ _
  done _ _ := rfl
  slots _ hκ' := AmRouter.insert_slots_of_ne _ _ fun heq => hκ' (heq ▸ hκ)

/-- A slot of the call emptied. -/
theorem NodeSees.remove (h : A.NodeSees p m n) (κ : RecvKey) :
    A.NodeSees p { m with router := m.router.remove κ } { n with router := n.router.remove κ } where
  heap := h.heap
  done := h.done
  slots κ' hκ' := by
    rcases eq_or_ne κ' κ with rfl | hne
    · rw [AmRouter.remove_slots_self, AmRouter.remove_slots_self]
      exact .none
    · rw [AmRouter.remove_slots_of_ne _ hne, AmRouter.remove_slots_of_ne _ hne]
      exact h.slots κ' hκ'

theorem NodeKeeps.remove (m : Node R Name ℕ α ℕ) (hκ : κ.phase ∈ A.phases) :
    A.NodeKeeps p m { m with router := m.router.remove κ } where
  heap := .refl _ _
  done _ _ := rfl
  slots _ hκ' := AmRouter.remove_slots_of_ne _ fun heq => hκ' (heq ▸ hκ)

/-- The local work of the call. -/
theorem NodeSees.after {f : Heap R α → Heap R α} (hf : Heap.LocalTo A.own f)
    (h : A.NodeSees p m n) : A.NodeSees p { m with heap := f m.heap } { n with heap := f n.heap } :=
  ⟨hf.congr _ _ h.heap, h.done, h.slots⟩

theorem NodeKeeps.after {f : Heap R α → Heap R α} (hf : Heap.LocalTo A.own f)
    (m : Node R Name ℕ α ℕ) : A.NodeKeeps p m { m with heap := f m.heap } :=
  ⟨hf.frame m.heap, fun _ _ => rfl, fun _ _ => rfl⟩

section Operations

variable [DecidableEq R]

/-- Filling a target of the call. -/
theorem NodeSees.fill (h : A.NodeSees p m n) (ha : a.1 < A.count p) :
    A.NodeSees p (m.fill target (A.name p a) ⟨bytes, o⟩) (n.fill target a ⟨bytes, o'⟩) where
  heap := h.heap.copyInto target bytes
  done b hb := by
    rcases eq_or_ne b a with rfl | hne
    · have hm : (m.fill target (A.name p b) ⟨bytes, o⟩).done (A.name p b) = true :=
        Function.update_self ..
      have hn : (n.fill target b ⟨bytes, o'⟩).done b = true := Function.update_self ..
      rw [hm, hn]
    · have hm : (m.fill target (A.name p a) ⟨bytes, o⟩).done (A.name p b) = m.done (A.name p b) :=
        Function.update_of_ne ((A.name_injective p).ne hne) ..
      have hn : (n.fill target a ⟨bytes, o'⟩).done b = n.done b := Function.update_of_ne hne ..
      rw [hm, hn, h.done b hb]
  slots := h.slots

theorem NodeKeeps.fill (m : Node R Name ℕ α ℕ) (htarget : target.Within A.own)
    (ha : a.1 < A.count p) : A.NodeKeeps p m (m.fill target (A.name p a) ⟨bytes, o⟩) where
  heap := Heap.agreeOn_copyInto bytes fun r i hc hi => hi (htarget r i hc)
  done b hb := Function.update_of_ne (fun heq => hb (by rw [heq]; exact A.named_name p ha)) ..
  slots _ _ := rfl

/-- **A delivery under a key of the call.** -/
theorem NodeSees.deliver (h : A.NodeSees p m n) (hκ : κ.phase ∈ A.phases) :
    A.NodeSees p (m.deliver κ ⟨bytes, o⟩).1 (n.deliver κ ⟨bytes, o'⟩).1 ∧
      A.NodeKeeps p m (m.deliver κ ⟨bytes, o⟩).1 := by
  have hslot := h.slots κ hκ
  rcases hm : m.router.slots κ with - | sl <;> rcases hn : n.router.slots κ with - | sl' <;>
    rw [hm, hn] at hslot
  · rw [Node.deliver_vacant hm, Node.deliver_vacant hn]
    exact ⟨h.insert (.early bytes o o'), .insert m hκ _⟩
  · cases hslot
  · cases hslot
  · obtain ⟨hsl⟩ := hslot
    cases hsl with
    | pending target a w w' htarget ha =>
      rw [Node.deliver_pending hm, Node.deliver_pending hn]
      exact ⟨(h.remove κ).fill ha, (NodeKeeps.remove m hκ).trans (.fill _ htarget ha)⟩
    | early bytes' o₁ o₁' =>
      rw [Node.deliver_early hm, Node.deliver_early hn]
      exact ⟨h.remove κ, .remove m hκ⟩

/-- A receive future of the call. -/
inductive FutSees (A : Area R) (p : ℕ) : RecvFuture R Name → RecvFuture R Name → Prop
  | mk (key : RecvKey) (a : Name) (registered : Bool) (target : Slice R)
      (hkey : key.phase ∈ A.phases) (ha : a.1 < A.count p) (htarget : target.Within A.own) :
      FutSees A p ⟨key, A.name p a, registered, target⟩ ⟨key, a, registered, target⟩

/-- **A poll of a receive of the call.** -/
theorem NodeSees.poll {f g : RecvFuture R Name} (h : A.NodeSees p m n) (hf : A.FutSees p f g)
    (w : ℕ) : (f.poll m w).1 = (g.poll n w).1 ∧ A.FutSees p (f.poll m w).2.1 (g.poll n w).2.1 ∧
      A.NodeSees p (f.poll m w).2.2 (g.poll n w).2.2 ∧ A.NodeKeeps p m (f.poll m w).2.2 := by
  obtain ⟨key, a, registered, target, hkey, ha, htarget⟩ := hf
  have hf : A.FutSees p ⟨key, A.name p a, registered, target⟩ ⟨key, a, registered, target⟩ :=
    .mk key a registered target hkey ha htarget
  have hdone := h.done a ha
  have hslot := h.slots key hkey
  rcases Bool.eq_false_or_eq_true (n.done a) with hn | hn
  · rw [RecvFuture.poll_done (hdone.trans hn), RecvFuture.poll_done hn]
    exact ⟨rfl, hf, h, .refl A p m⟩
  rw [hn] at hdone
  cases registered with
  | true =>
    rw [RecvFuture.poll_again hdone rfl, RecvFuture.poll_again hn rfl]
    refine ⟨rfl, hf, ?_⟩
    -- the waker is no part of what the call sees
    rcases hm : m.router.slots key with - | sl <;> rcases hn : n.router.slots key with - | sl' <;>
      rw [hm, hn] at hslot
    · simp only [AmRouter.updateWaker, hm, hn]
      exact ⟨h, .refl A p m⟩
    · cases hslot
    · cases hslot
    · obtain ⟨hsl⟩ := hslot
      cases hsl with
      | pending target' a' w₁ w₂ htarget' ha' =>
        simp only [AmRouter.updateWaker, hm, hn]
        exact ⟨h.insert (.pending target' a' _ _ htarget' ha'), .insert m hkey _⟩
      | early bytes o o' =>
        simp only [AmRouter.updateWaker, hm, hn]
        exact ⟨h, .refl A p m⟩
  | false =>
    by_cases hearly : ∃ e, n.router.slots key = some (.early e)
    · obtain ⟨e, hn'⟩ := hearly
      obtain ⟨o, hm⟩ := early_of_sees (hn' ▸ hslot)
      rw [RecvFuture.poll_early hdone rfl hm, RecvFuture.poll_early hn rfl hn']
      exact ⟨rfl, hf, (h.remove key).fill ha, (NodeKeeps.remove m hkey).trans (.fill _ htarget ha)⟩
    · have hm : ∀ e, m.router.slots key ≠ some (.early e) := by
        intro e hm
        obtain ⟨o', hn'⟩ := sees_early (hm ▸ hslot)
        exact hearly ⟨_, hn'⟩
      rw [RecvFuture.poll_register hdone rfl hm,
        RecvFuture.poll_register hn rfl fun e he => hearly ⟨e, he⟩]
      exact ⟨rfl, .mk key a true target hkey ha htarget,
        h.insert (.pending target a _ _ htarget ha), .insert m hkey _⟩

end Operations

/-! ### Ranks -/

/-- What a chain of the call waits for. -/
structure AwaitSees (A : Area R) (p : ℕ) (a b : Await R) : Prop where
  sending : a.sending = b.sending
  recv : Option.Rel (A.FutSees p) a.recv b.recv

/-- A chain of the call. -/
structure ChainSees (A : Area R) (p : ℕ) (c d : Chain R) : Prop where
  pc : c.pc = d.pc
  await : Option.Rel (A.AwaitSees p) c.await d.await

/-- **A rank that is in several calls looks, to one of them, like one that is in one.** -/
structure RankSees (A : Area R) (p : ℕ) (r u : Rank R α) : Prop where
  stage : r.stage = A.first p + u.stage
  launched : r.launched = u.launched
  reaped : r.reaped = u.reaped
  chain : ∀ m, A.ChainSees p (r.chain m) (u.chain m)
  node : A.NodeSees p r.node u.node

/-- A message of the call. Its origin is a stage of its sender. -/
def message (A : Area R) (p : ℕ) (msg : Message α) : Message α :=
  { msg with payload := ⟨msg.payload.bytes, A.first p + msg.payload.origin⟩ }

/-- **A state of several calls looks, to one of them, like a state of its own.** -/
structure Sees (A : Area R) (s t : State R α) : Prop where
  rank : ∀ p, A.RankSees p (s.rank p) (t.rank p)
  chan : ∀ p q, (s.chan p q).filter (fun msg => msg.key.phase ∈ A.phases) =
    (t.chan p q).map (A.message p)

/-- **Outside the area nothing changes.** -/
structure Keeps (A : Area R) (s s' : State R α) : Prop where
  node : ∀ p, A.NodeKeeps p (s.rank p).node (s'.rank p).node
  chan : ∀ p q, (s'.chan p q).filter (fun msg => msg.key.phase ∉ A.phases) =
    (s.chan p q).filter fun msg => msg.key.phase ∉ A.phases

/-! ### Steps of the call -/

section Ranks

variable {r u : Rank R α} {j k : ℕ}

theorem RankSees.inFlight (h : A.RankSees p r u) : r.inFlight = u.inFlight := by
  rw [Rank.inFlight, Rank.inFlight, h.launched, h.reaped]

theorem RankSees.pumping_iff (h : A.RankSees p r u) (st : Stage R α) :
    r.Pumping st ↔ u.Pumping st := by
  rw [Rank.Pumping, Rank.Pumping, h.launched, h.inFlight]

theorem RankSees.setChain (h : A.RankSees p r u) {c d : Chain R} (hc : A.ChainSees p c d) (k : ℕ) :
    A.RankSees p (r.setChain k c) (u.setChain k d) where
  stage := h.stage
  launched := h.launched
  reaped := h.reaped
  chain k' := by
    rcases eq_or_ne k' k with rfl | hne
    · simp only [Rank.setChain, Function.update_self]
      exact hc
    · simp only [Rank.setChain, Function.update_of_ne hne]
      exact h.chain k'
  node := h.node

/-- The name of a receive that the call polls now. -/
theorem RankSees.name_eq (h : A.RankSees p r u) (x : ℕ × ℕ) :
    (r.stage, x) = A.name p (u.stage, x) := by
  rw [h.stage, Area.name]

variable [DecidableEq R]

/-- The first poll of a receive. -/
theorem RankSees.pollRecv (h : A.RankSees p r u) {i : Instr R α} (hi : i.Within A.own A.phases)
    (hst : u.stage < A.count p) (k : ℕ) :
    Option.Rel (A.FutSees p) (r.pollRecv k i).1 (u.pollRecv k i).1 ∧
      A.NodeSees p (r.pollRecv k i).2 (u.pollRecv k i).2 ∧
      A.NodeKeeps p r.node (r.pollRecv k i).2 := by
  rcases hrecv : i.recv with - | ⟨key, target⟩
  · simp only [Rank.pollRecv, hrecv]
    exact ⟨.none, h.node, .refl A p r.node⟩
  · obtain ⟨hkey, htarget⟩ := hi.recv key target hrecv
    have hfut : A.FutSees p (RecvFuture.new key (r.stage, k, (r.chain k).pc) target)
        (RecvFuture.new key (u.stage, k, (u.chain k).pc) target) := by
      rw [h.name_eq, (h.chain k).pc]
      exact .mk key _ false target hkey hst htarget
    obtain ⟨-, hf, hn, hk⟩ := h.node.poll hfut k
    simp only [Rank.pollRecv, hrecv]
    exact ⟨.some hf, hn, hk⟩

/-- A `join` of the call is complete when it is. -/
theorem AwaitSees.complete_iff {a b : Await R} (h : A.AwaitSees p a b) (hn : A.NodeSees p m n)
    (w : ℕ) : a.Complete m w ↔ b.Complete n w := by
  obtain ⟨sending, f⟩ := a
  obtain ⟨sending', g⟩ := b
  obtain ⟨rfl, hrecv⟩ := h
  refine and_congr_right fun _ => ?_
  cases hrecv with
  | none => exact iff_of_true nofun nofun
  | some hf =>
    simp only [Option.mem_some_iff, forall_eq', (hn.poll hf w).1]

end Ranks

section States

variable {s t : State R α} {r u : Rank R α}

theorem RankSees.update {f g : ℕ → Rank R α} (h : ∀ p, A.RankSees p (f p) (g p))
    (hr : A.RankSees p r u) (p' : ℕ) :
    A.RankSees p' (Function.update f p r p') (Function.update g p u p') := by
  rcases eq_or_ne p' p with rfl | hne
  · rw [Function.update_self, Function.update_self]
    exact hr
  · rw [Function.update_of_ne hne, Function.update_of_ne hne]
    exact h p'

theorem NodeKeeps.update {f : ℕ → Rank R α} (hr : A.NodeKeeps p (f p).node r.node) (p' : ℕ) :
    A.NodeKeeps p' (f p').node (Function.update f p r p').node := by
  rcases eq_or_ne p' p with rfl | hne
  · rw [Function.update_self]
    exact hr
  · rw [Function.update_of_ne hne]
    exact .refl A p' _

theorem Sees.setRank (h : A.Sees s t) (hr : A.RankSees p r u) :
    A.Sees { s with rank := Function.update s.rank p r }
      { t with rank := Function.update t.rank p u } :=
  ⟨.update h.rank hr, h.chan⟩

theorem Keeps.setRank (hr : A.NodeKeeps p (s.rank p).node r.node) :
    A.Keeps s { s with rank := Function.update s.rank p r } :=
  ⟨.update hr, fun _ _ => rfl⟩

/-- **A message of the call has been delivered** if it has been in either state. -/
theorem Sees.offChannel_iff (h : A.Sees s t) {sd : Send R} (hsd : sd.key.phase ∈ A.phases) :
    s.OffChannel p sd ↔ t.OffChannel p sd := by
  have hmem : ∀ msg : Message α, msg.header = sd.header → (msg ∈ s.chan p sd.dst ↔
      msg ∈ (t.chan p sd.dst).map (A.message p)) := by
    intro msg hmsg
    have hkey : msg.key = sd.key := congrArg RecvKey.ofHeader hmsg
    rw [← h.chan, List.mem_filter]
    exact (and_iff_left (by simpa [hkey] using hsd)).symm
  have hstage := (h.rank p).stage
  constructor
  · intro hoff msg hmsg hhead horigin
    have hshared := (hmem (A.message p msg) hhead).mpr (List.mem_map.mpr ⟨msg, hmsg, rfl⟩)
    refine hoff (A.message p msg) hshared hhead ?_
    rw [hstage, ← horigin, message]
  · intro hoff msg hmsg hhead horigin
    obtain ⟨msg', hmsg', rfl⟩ := List.mem_map.mp ((hmem msg hhead).mp hmsg)
    refine hoff msg' hmsg' hhead ?_
    exact Nat.add_left_cancel (horigin.trans hstage)

/-- **A delivery of a message of the call.** -/
theorem Sees.deliver [DecidableEq R] {net big : Net R α} {s' : State R α} {q : ℕ} {msg : Message α}
    {rest : List (Message α)} (h : A.Sees s t) (hstep : step big s (.deliver p q) = some s')
    (hchan : s.chan p q = msg :: rest) (hmsg : msg.key.phase ∈ A.phases) :
    ∃ t', step net t (.deliver p q) = some t' ∧ A.Sees s' t' ∧ A.Keeps s s' := by
  obtain ⟨msg', rest', hchan', rfl⟩ := step_deliver.mp hstep
  obtain ⟨rfl, rfl⟩ := List.cons.inj (hchan.symm.trans hchan')
  -- it is the next one of the call too
  have hown := h.chan p q
  rw [hchan, List.filter_cons_of_pos (by simpa using hmsg)] at hown
  rcases hcall : t.chan p q with - | ⟨m₀, rest₀⟩
  · rw [hcall] at hown
    cases hown
  rw [hcall, List.map_cons] at hown
  obtain ⟨rfl, hrest⟩ := List.cons.inj hown
  have hr := h.rank q
  have hdeliver : A.NodeSees q
        ((s.rank q).node.deliver m₀.key (A.message p m₀).payload).1
        ((t.rank q).node.deliver m₀.key m₀.payload).1 ∧
      A.NodeKeeps q (s.rank q).node
        ((s.rank q).node.deliver m₀.key (A.message p m₀).payload).1 := hr.node.deliver hmsg
  obtain ⟨hn, hk⟩ := hdeliver
  refine ⟨_, step_deliver.mpr ⟨m₀, rest₀, hcall, rfl⟩,
    ⟨.update h.rank ⟨hr.stage, hr.launched, hr.reaped, hr.chain, hn⟩, fun p' q' => ?_⟩,
    ⟨.update hk, fun p' q' => ?_⟩⟩
  · by_cases hpq : p' = p ∧ q' = q
    · simp only [hpq, and_self, if_true]
      exact hrest
    · simp only [if_neg hpq]
      exact h.chan p' q'
  · by_cases hpq : p' = p ∧ q' = q
    · obtain ⟨rfl, rfl⟩ := hpq
      rw [hchan, List.filter_cons_of_neg (by simpa using hmsg)]
      simp only [and_self, if_true]
    · simp only [if_neg hpq]

end States

end Area

/-- **A call that is made among others** runs its own stages, and stays in its area. -/
structure Among (A : Area R) (net big : Net R α) : Prop where
  size : big.size = net.size
  stage : ∀ p k, (big.prog p)[A.first p + k]? = (net.prog p)[k]?
  count : ∀ p, A.count p = (net.prog p).length
  eager : ∀ p a j, big.eager p (A.name p a) j = net.eager p a j
  within : ∀ p, ∀ st ∈ net.prog p, ∀ c ∈ st.chains, ∀ i ∈ c, i.Within A.own A.phases

namespace Among

variable {A : Area R} {net big : Net R α} {s t : State R α} {p m : ℕ}

/-- The rank is in the same stage. -/
theorem stage_eq (h : Among A net big) (hs : A.Sees s t) (p : ℕ) :
    big.stage s p = net.stage t p := by
  rw [Net.stage, Net.stage, h.size, (hs.rank p).stage, h.stage]

/-- And at the same await point. -/
theorem current_eq (h : Among A net big) (hs : A.Sees s t) (p m : ℕ) :
    big.current s p m = net.current t p m := by
  rw [Net.current, Net.current, h.stage_eq hs, ((hs.rank p).chain m).pc]

/-- Which is one of the call. -/
theorem within_of_current (h : Among A net big) {st : Stage R α} {c : List (Instr R α)}
    {i : Instr R α} (hcur : net.current t p m = some (st, c, i)) :
    (t.rank p).stage < A.count p ∧ i.Within A.own A.phases := by
  obtain ⟨st', hst, hcur⟩ := Option.bind_eq_some_iff.mp hcur
  obtain ⟨c', hc, hcur⟩ := Option.bind_eq_some_iff.mp hcur
  obtain ⟨i', hi, heq⟩ := Option.map_eq_some_iff.mp hcur
  obtain ⟨rfl, rfl, rfl⟩ : st' = st ∧ c' = c ∧ i' = i := by simpa using heq
  rw [Net.stage] at hst
  split at hst
  · obtain ⟨hlt, -⟩ := List.getElem?_eq_some_iff.mp hst
    exact ⟨h.count p ▸ hlt, h.within p _ (List.mem_of_getElem? hst) _ (List.mem_of_getElem? hc) _
      (List.mem_of_getElem? hi)⟩
  · cases hst

variable {i : Instr R α}

/-- **The poll that finds the `join` complete.** -/
theorem proceed (hs : A.Sees s t) (hi : i.Within A.own A.phases) (len : ℕ) :
    A.Sees (s.proceed p m i len) (t.proceed p m i len) ∧ A.Keeps s (s.proceed p m i len) := by
  have hr := hs.rank p
  have hpc := (hr.chain m).pc
  have hchain : A.ChainSees p ⟨((s.rank p).chain m).pc + 1, none⟩
      ⟨((t.rank p).chain m).pc + 1, none⟩ := ⟨congrArg (· + 1) hpc, .none⟩
  have hset := hr.setChain hchain m
  refine ⟨hs.setRank ⟨hset.stage, hset.launched, ?_, hset.chain, hr.node.after hi.after⟩,
    .setRank (.after hi.after _)⟩
  show (s.rank p).reaped + _ = (t.rank p).reaped + _
  rw [hr.reaped, hpc]

variable [DecidableEq R]

/-- **The first poll of an await point.** -/
theorem issue (hs : A.Sees s t) (hi : i.Within A.own A.phases)
    (hst : (t.rank p).stage < A.count p) :
    A.Sees (s.issue p m i) (t.issue p m i) ∧ A.Keeps s (s.issue p m i) := by
  obtain ⟨hf, hn, hk⟩ := (hs.rank p).pollRecv hi hst m
  have hchain : A.ChainSees p ⟨((s.rank p).chain m).pc,
        some ⟨List.range i.sends.length, ((s.rank p).pollRecv m i).1⟩⟩
      ⟨((t.rank p).chain m).pc,
        some ⟨List.range i.sends.length, ((t.rank p).pollRecv m i).1⟩⟩ :=
    ⟨((hs.rank p).chain m).pc, .some ⟨rfl, hf⟩⟩
  have hset := (hs.rank p).setChain hchain m
  -- what is sent is of the call, and read off its buffers
  have hmsg : ∀ sd ∈ i.sends, sd.message (s.rank p) = A.message p (sd.message (t.rank p)) := by
    intro sd hsd
    rw [Send.message, Send.message, Area.message, (hs.rank p).stage,
      (hs.rank p).node.heap.read_eq (hi.sends sd hsd).2]
  have hphase : ∀ q, ∀ msg ∈ ((i.sends.filter fun sd => sd.dst = q).map
      fun sd => sd.message (s.rank p)), msg.key.phase ∈ A.phases := by
    intro q msg hmem
    obtain ⟨sd, hsd, rfl⟩ := List.mem_map.mp hmem
    exact (hi.sends sd (List.mem_of_mem_filter hsd)).1
  constructor
  · constructor
    · exact .update hs.rank ⟨hset.stage, hset.launched, hset.reaped, hset.chain, hn⟩
    · intro p' q
      rcases eq_or_ne p' p with rfl | hne
      · simp only [State.issue, if_true]
        rw [List.filter_append, hs.chan, List.map_append, List.map_map,
          List.filter_eq_self.mpr fun msg hmem => by simpa using hphase q msg hmem]
        exact congrArg _ (List.map_congr_left fun sd hsd =>
          hmsg sd (List.mem_of_mem_filter hsd))
      · simp only [State.issue, if_neg hne]
        exact hs.chan p' q
  · constructor
    · exact .update hk
    · intro p' q
      rcases eq_or_ne p' p with rfl | hne
      · simp only [State.issue, if_true]
        rw [List.filter_append]
        refine List.append_right_eq_self.mpr (List.filter_eq_nil_iff.mpr fun msg hmem => ?_)
        simpa using hphase q msg hmem
      · simp only [State.issue, if_neg hne]

/-- **What the call does among others, it does alone**, and the other way round, but for the
deliveries, which the call does not make. -/
theorem step_rel (h : Among A net big) (hs : A.Sees s t) {e : Event}
    (he : ∀ p q, e ≠ .deliver p q) :
    Option.Rel (fun s' t' => A.Sees s' t' ∧ A.Keeps s s') (step big s e) (step net t e) := by
  cases e with
  | deliver p q => exact absurd rfl (he p q)
  | launch p =>
    have hr := hs.rank p
    rw [step, step, h.stage_eq hs]
    refine rel_bind fun st _ => rel_ite (by rw [hr.launched, hr.inFlight]) fun _ => .some ?_
    exact ⟨hs.setRank ⟨hr.stage, congrArg (· + 1) hr.launched, hr.reaped, hr.chain, hr.node⟩,
      .setRank (.refl A p _)⟩
  | poll p m =>
    have hr := hs.rank p
    rw [step, step, h.current_eq hs]
    refine rel_bind ?_
    rintro ⟨st, c, i⟩ hcur
    obtain ⟨hst, hi⟩ := h.within_of_current hcur
    refine rel_ite (by rw [hr.launched, hr.pumping_iff]) fun _ => ?_
    have hawait := (hr.chain m).await
    rcases hm : ((s.rank p).chain m).await with - | a <;>
      rcases hn : ((t.rank p).chain m).await with - | b <;> rw [hm, hn] at hawait
    · -- a first poll
      exact .some (issue hs hi hst)
    · cases hawait
    · cases hawait
    · obtain ⟨hab⟩ := hawait
      -- a later one, which goes on if everything has completed
      exact rel_ite (hab.complete_iff hr.node m) fun _ => .some (proceed hs hi c.length)
  | sent p m j =>
    have hr := hs.rank p
    rw [step, step, h.current_eq hs]
    refine rel_bind ?_
    rintro ⟨st, c, i⟩ hcur
    obtain ⟨hst, hi⟩ := h.within_of_current hcur
    have hawait := (hr.chain m).await
    rcases hm : ((s.rank p).chain m).await with - | a <;>
      rcases hn : ((t.rank p).chain m).await with - | b <;> rw [hm, hn] at hawait
    · exact .none
    · cases hawait
    · cases hawait
    · obtain ⟨hab⟩ := hawait
      dsimp only
      rcases hsd : i.sends[j]? with - | sd
      · exact .none
      · have hphase := (hi.sends sd (List.mem_of_getElem? hsd)).1
        have hchain : A.ChainSees p
            ⟨((s.rank p).chain m).pc, some { a with sending := a.sending.erase j }⟩
            ⟨((t.rank p).chain m).pc, some { b with sending := b.sending.erase j }⟩ :=
          ⟨(hr.chain m).pc, .some ⟨congrArg (·.erase j) hab.sending, hab.recv⟩⟩
        refine rel_ite ?_ fun _ =>
          .some ⟨hs.setRank (hr.setChain hchain m), .setRank (.refl A p _)⟩
        rw [hab.sending, (hr.chain m).pc, hr.name_eq, h.eager, hs.offChannel_iff hphase]
  | advance p =>
    have hr := hs.rank p
    rw [step, step, h.stage_eq hs]
    refine rel_bind fun st _ => rel_ite (by rw [hr.launched, hr.reaped]) fun _ => .some ?_
    refine ⟨hs.setRank ⟨?_, rfl, rfl, fun _ => ⟨rfl, .none⟩, hr.node⟩, .setRank (.refl A p _)⟩
    show (s.rank p).stage + 1 = A.first p + ((t.rank p).stage + 1)
    rw [hr.stage, Nat.add_assoc]

end Among

end AmNet

end Pluvio
