import Pluvio.Runs
import Pluvio.Collective.AmRouter

/-!
# The router as a mailbox

One node, and any interleaving of `deliver` with the creation, the polls and the
drops of receive futures, on any keys. The law a key should follow is that of a
mailbox (`Pluvio.Mailbox.Law`): the `k`-th receive gets the `k`-th payload, and a
payload that no receive has got yet is kept.

A slot keeps one payload at most. So the law holds as long as each payload of the
key arrives when no more of them were delivered than receives were posted
(`Pluvio.Mailbox.Arrives`), and it breaks at the first one that does not:
`Pluvio.Mailbox.mailbox_law` says that these are the runs that follow the law.

The invariant is that a key is in one of three phases (`Pluvio.Mailbox.Phase`):
as many payloads as receives and a vacant slot, one more payload, which is the
early one, or one more receive, which is the pending one.

A receive is named by its key and by its number among the receives created on
that key. The name stands for its `done` cell and for the region its target is in:
the cell is its own, and so is the buffer, which the receive borrows exclusively.
-/

namespace Pluvio

namespace Mailbox

/-- The name of a receive. -/
abbrev Name := RecvKey × ℕ

/-- A node with its receive futures, and what has happened on each key. -/
structure State (W α : Type*) where
  /-- A payload's origin is its number among those delivered for the key. -/
  node : Node Name Name W α ℕ
  /-- The receive futures that have not been dropped. -/
  futs : Name → Option (RecvFuture Name Name)
  /-- How many futures were created on a key. -/
  created : RecvKey → ℕ
  /-- The receives of a key, in the order of their first polls. -/
  posted : RecvKey → List (RecvFuture Name Name)
  /-- The payloads delivered for a key, in order. -/
  delivered : RecvKey → List (List α)

/-- What can happen at a node. -/
inductive Event (W α : Type*)
  | deliver (key : RecvKey) (bytes : List α)
  | create (key : RecvKey) (len : ℕ)
  | poll (f : Name) (waker : W)
  | drop (f : Name)

variable {W α : Type*}

/-- The key an event is about. -/
def Event.key : Event W α → RecvKey
  | .deliver key _ => key
  | .create key _ => key
  | .poll f _ => f.1
  | .drop f => f.1

/-- The node at the start, whatever its memory holds. -/
def start (heap : Heap Name α) : State W α where
  node := ⟨.new, heap, fun _ => false, fun _ => none⟩
  futs := fun _ => none
  created := fun _ => 0
  posted := fun _ => []
  delivered := fun _ => []

/-- The next poll of the future is its first one. -/
def Fresh (s : State W α) (fut : RecvFuture Name Name) : Prop :=
  fut.registered = false ∧ s.node.done fut.done = false

instance (s : State W α) (fut : RecvFuture Name Name) : Decidable (Fresh s fut) :=
  inferInstanceAs (Decidable (_ ∧ _))

/-- The node after an event, which needs the future that it is about. -/
def step (s : State W α) : Event W α → Option (State W α)
  | .deliver key bytes => some { s with
      node := (s.node.deliver key ⟨bytes, (s.delivered key).length⟩).1
      delivered := Function.update s.delivered key (s.delivered key ++ [bytes]) }
  | .create key len => some { s with
      futs := Function.update s.futs (key, s.created key)
        (some (RecvFuture.new key (key, s.created key) ⟨(key, s.created key), 0, len⟩))
      created := Function.update s.created key (s.created key + 1) }
  | .poll f waker => (s.futs f).map fun fut => { s with
      node := (fut.poll s.node waker).2.2
      futs := Function.update s.futs f (some (fut.poll s.node waker).2.1)
      posted := if Fresh s fut
        then Function.update s.posted fut.key (s.posted fut.key ++ [fut]) else s.posted }
  | .drop f => (s.futs f).map fun fut => { s with
      node := fut.drop s.node
      futs := Function.update s.futs f none }

/-! ### The law of a key -/

/-- At most one receive is outstanding on the key: it is posted when the ones
before it are done, and none is dropped in between. -/
def OneOutstanding (κ : RecvKey) (s : State W α) : Event W α → Prop
  | .poll f _ => ∀ fut, s.futs f = some fut → fut.key = κ → Fresh s fut →
      ∀ g ∈ s.posted κ, s.node.done g.done = true
  | .drop f => ∀ fut, s.futs f = some fut → fut.key = κ → fut.registered = true →
      s.node.done fut.done = true
  | _ => True

/-- A payload of the key arrives when no more of them were delivered than
receives were posted. -/
def Arrives (κ : RecvKey) (s : State W α) : Event W α → Prop
  | .deliver key _ => key = κ → (s.delivered κ).length ≤ (s.posted κ).length
  | _ => True

/-- The receive `g` has completed with the `k`-th payload `m`: its flag is set, so
that its next poll is ready, and its target holds the payload. -/
structure Got (n : Node Name Name W α ℕ) (g : RecvFuture Name Name) (k : ℕ) (m : List α) :
    Prop where
  done : n.done g.done = true
  got : n.got g.done = some k
  holds : (n.heap.read g.target).take m.length = m.take g.target.len

/-- **The mailbox law of a key.** -/
structure Law (κ : RecvKey) (s : State W α) : Prop where
  /-- The `k`-th receive completes with the `k`-th payload. -/
  inOrder : ∀ k g m, (s.posted κ)[k]? = some g → (s.delivered κ)[k]? = some m → Got s.node g k m
  /-- A receive whose payload has not come is not completed. -/
  waits : ∀ k g, (s.posted κ)[k]? = some g → (s.delivered κ).length ≤ k →
    s.node.done g.done = false
  /-- A payload whose receive has not come is kept. -/
  kept : ∀ k m, (s.delivered κ)[k]? = some m → (s.posted κ).length ≤ k →
    s.node.router.slots κ = some (.early ⟨m, k⟩)

/-! ### Operations on other keys -/

/-- The key `κ` looks the same at both nodes: its slot, and the flags and the
buffers of its receives. -/
structure NodeSameAt (κ : RecvKey) (n n' : Node Name Name W α ℕ) : Prop where
  slot : n'.router.slots κ = n.router.slots κ
  done : ∀ f : Name, f.1 = κ → n'.done f = n.done f
  got : ∀ f : Name, f.1 = κ → n'.got f = n.got f
  heap : ∀ f : Name, f.1 = κ → n'.heap f = n.heap f

/-- The key `κ` looks the same in both states. -/
structure SameAt (κ : RecvKey) (s s' : State W α) : Prop where
  node : NodeSameAt κ s.node s'.node
  futs : ∀ f : Name, f.1 = κ → s'.futs f = s.futs f
  posted : s'.posted κ = s.posted κ
  delivered : s'.delivered κ = s.delivered κ

/-- A receive's cell and buffer are its own, and so are those a pending slot
points to. -/
structure Own (s : State W α) : Prop where
  fut : ∀ f fut, s.futs f = some fut → fut.key = f.1 ∧ fut.done = f ∧ fut.target.region = f
  slot : ∀ κ p, s.node.router.slots κ = some (.pending p) →
    p.done.1 = κ ∧ p.target.region = p.done

theorem NodeSameAt.refl (κ : RecvKey) (n : Node Name Name W α ℕ) : NodeSameAt κ n n :=
  ⟨rfl, fun _ _ => rfl, fun _ _ => rfl, fun _ _ => rfl⟩

/-- Filling a receive of another key. -/
theorem NodeSameAt.fill {κ : RecvKey} {n n' : Node Name Name W α ℕ} {t : Slice Name} {d : Name}
    (m : Payload α ℕ) (h : NodeSameAt κ n n') (hd : d.1 ≠ κ) (ht : t.region = d) :
    NodeSameAt κ n (n'.fill t d m) where
  slot := h.slot
  done := by
    intro f hf
    have hne : f ≠ d := fun he => hd (he ▸ hf)
    exact (Function.update_of_ne hne ..).trans (h.done f hf)
  got := by
    intro f hf
    have hne : f ≠ d := fun he => hd (he ▸ hf)
    exact (Function.update_of_ne hne ..).trans (h.got f hf)
  heap := by
    intro f hf
    have hne : f ≠ d := fun he => hd (he ▸ hf)
    funext i
    rw [← congrFun (h.heap f hf) i]
    exact Heap.copyInto_of_not_has _ _ fun hc => hne (hc.1.trans ht)

/-- A change of another slot leaves the key as it is. -/
theorem NodeSameAt.router {κ : RecvKey} {n : Node Name Name W α ℕ}
    {r : AmRouter Name Name W α ℕ} (h : r.slots κ = n.router.slots κ) :
    NodeSameAt κ n { n with router := r } :=
  ⟨h, fun _ _ => rfl, fun _ _ => rfl, fun _ _ => rfl⟩

/-- A delivery for another key. -/
theorem NodeSameAt.deliver {κ key : RecvKey} {n : Node Name Name W α ℕ} (m : Payload α ℕ)
    (hslot : ∀ p, n.router.slots key = some (.pending p) →
      p.done.1 = key ∧ p.target.region = p.done) (hne : key ≠ κ) :
    NodeSameAt κ n (n.deliver key m).1 := by
  have hrem : (n.router.remove key).slots κ = n.router.slots κ :=
    AmRouter.remove_slots_of_ne _ hne.symm
  match h : n.router.slots key with
  | none =>
    rw [Node.deliver_vacant h]
    exact .router (AmRouter.insert_slots_of_ne _ _ hne.symm)
  | some (.pending p) =>
    rw [Node.deliver_pending h]
    obtain ⟨hd, ht⟩ := hslot p h
    exact (NodeSameAt.router hrem).fill m (by rwa [hd]) ht
  | some (.early _) =>
    rw [Node.deliver_early h]
    exact .router hrem

/-- A poll of a receive on another key. -/
theorem NodeSameAt.poll {κ : RecvKey} {n : Node Name Name W α ℕ} {fut : RecvFuture Name Name}
    (w : W) (hd : fut.done.1 = fut.key) (ht : fut.target.region = fut.done) (hne : fut.key ≠ κ) :
    NodeSameAt κ n (fut.poll n w).2.2 := by
  rcases Bool.eq_false_or_eq_true (n.done fut.done) with hdone | hdone
  · rw [RecvFuture.poll_done hdone]
    exact .refl κ n
  rcases Bool.eq_false_or_eq_true fut.registered with hreg | hreg
  · rw [RecvFuture.poll_again hdone hreg]
    refine .router ?_
    rcases n.router.updateWaker_slots fut.key κ w with h | ⟨p, hκ, -⟩
    · exact h
    · exact absurd hκ.symm hne
  by_cases hearly : ∃ m, n.router.slots fut.key = some (.early m)
  · obtain ⟨m, hm⟩ := hearly
    rw [RecvFuture.poll_early hdone hreg hm]
    exact (NodeSameAt.router (AmRouter.remove_slots_of_ne _ hne.symm)).fill m (by rwa [hd]) ht
  · rw [RecvFuture.poll_register hdone hreg fun m hm => hearly ⟨m, hm⟩]
    exact .router (AmRouter.insert_slots_of_ne _ _ hne.symm)

/-- **An operation on another key does not affect a key.** -/
theorem step_sameAt {κ : RecvKey} {s s' : State W α} {e : Event W α} (hown : Own s)
    (hne : e.key ≠ κ) (hs : step s e = some s') : SameAt κ s s' := by
  cases e with
  | deliver key bytes =>
    cases hs
    exact ⟨.deliver _ (hown.slot key) hne, fun _ _ => rfl, rfl, Function.update_of_ne hne.symm ..⟩
  | create key len =>
    cases hs
    refine ⟨.refl κ _, fun f hf => Function.update_of_ne ?_ .., rfl, rfl⟩
    rintro rfl
    exact hne hf
  | poll f w =>
    obtain ⟨fut, hfut, rfl⟩ := Option.map_eq_some_iff.mp hs
    obtain ⟨hkey, hd, ht⟩ := hown.fut f fut hfut
    have hfne : ∀ g : Name, g.1 = κ → g ≠ f := fun g hg he => hne (he ▸ hg)
    refine ⟨.poll w (by rw [hd, hkey]) (ht.trans hd.symm) (by rwa [hkey]),
      fun g hg => Function.update_of_ne (hfne g hg) .., ?_, rfl⟩
    show (if Fresh s fut then _ else s.posted) κ = s.posted κ
    split
    · exact Function.update_of_ne (fun h => hne (hkey.symm.trans h.symm)) ..
    · rfl
  | drop f =>
    obtain ⟨fut, hfut, rfl⟩ := Option.map_eq_some_iff.mp hs
    obtain ⟨hkey, -, -⟩ := hown.fut f fut hfut
    have hfne : ∀ g : Name, g.1 = κ → g ≠ f := fun g hg he => hne (he ▸ hg)
    refine ⟨?_, fun g hg => Function.update_of_ne (hfne g hg) .., rfl, rfl⟩
    show NodeSameAt κ s.node (fut.drop s.node)
    unfold RecvFuture.drop
    split
    · exact .router (AmRouter.remove_slots_of_ne _ fun h => hne (hkey.symm.trans h.symm))
    · exact .refl κ _

/-- A delivery makes no slot pending. -/
theorem pending_of_deliver {n : Node Name Name W α ℕ} {κ key : RecvKey} {m : Payload α ℕ}
    {p : PendingRecv Name Name W}
    (h : (n.deliver key m).1.router.slots κ = some (.pending p)) :
    n.router.slots κ = some (.pending p) := by
  match hs : n.router.slots key with
  | none =>
    rw [Node.deliver_vacant hs] at h
    exact (AmRouter.slots_of_insert h).resolve_right fun hc => nomatch hc.2
  | some (.pending _) =>
    rw [Node.deliver_pending hs] at h
    exact AmRouter.slots_of_remove h
  | some (.early _) =>
    rw [Node.deliver_early hs] at h
    exact AmRouter.slots_of_remove h

/-- A poll makes the slot of its own receive pending, if any. -/
theorem pending_of_poll {n : Node Name Name W α ℕ} {κ : RecvKey} {fut : RecvFuture Name Name}
    {w : W} {p : PendingRecv Name Name W}
    (h : (fut.poll n w).2.2.router.slots κ = some (.pending p)) :
    (∃ p₀, n.router.slots κ = some (.pending p₀) ∧ p.done = p₀.done ∧ p.target = p₀.target) ∨
      (κ = fut.key ∧ p.done = fut.done ∧ p.target = fut.target) := by
  rcases Bool.eq_false_or_eq_true (n.done fut.done) with hdone | hdone
  · rw [RecvFuture.poll_done hdone] at h
    exact .inl ⟨p, h, rfl, rfl⟩
  rcases Bool.eq_false_or_eq_true fut.registered with hreg | hreg
  · rw [RecvFuture.poll_again hdone hreg] at h
    rcases n.router.updateWaker_slots fut.key κ w with hu | ⟨p₀, rfl, hp₀, hu⟩
    · exact .inl ⟨p, hu.symm.trans h, rfl, rfl⟩
    · cases hu.symm.trans h
      exact .inl ⟨p₀, hp₀, rfl, rfl⟩
  by_cases hearly : ∃ m, n.router.slots fut.key = some (.early m)
  · obtain ⟨m, hm⟩ := hearly
    rw [RecvFuture.poll_early hdone hreg hm] at h
    exact .inl ⟨p, AmRouter.slots_of_remove h, rfl, rfl⟩
  · rw [RecvFuture.poll_register hdone hreg fun m hm => hearly ⟨m, hm⟩] at h
    rcases AmRouter.slots_of_insert h with h | ⟨rfl, hp⟩
    · exact .inl ⟨p, h, rfl, rfl⟩
    · cases hp
      exact .inr ⟨rfl, rfl, rfl⟩

/-- A poll only marks a future as registered. -/
theorem poll_fut (fut : RecvFuture Name Name) (n : Node Name Name W α ℕ) (w : W) :
    (fut.poll n w).2.1.key = fut.key ∧ (fut.poll n w).2.1.done = fut.done ∧
      (fut.poll n w).2.1.target = fut.target := by
  unfold RecvFuture.poll
  split
  · exact ⟨rfl, rfl, rfl⟩
  split
  · exact ⟨rfl, rfl, rfl⟩
  split <;> exact ⟨rfl, rfl, rfl⟩

/-- **Receives keep to their own cells.** -/
theorem Own.step {s s' : State W α} {e : Event W α} (hown : Own s) (hs : step s e = some s') :
    Own s' := by
  cases e with
  | deliver key bytes =>
    cases hs
    exact ⟨hown.fut, fun κ p hp => hown.slot κ p (pending_of_deliver hp)⟩
  | create key len =>
    cases hs
    refine ⟨fun f fut hf => ?_, hown.slot⟩
    rcases eq_or_ne f (key, s.created key) with rfl | hne
    · cases (Function.update_self ..).symm.trans hf
      exact ⟨rfl, rfl, rfl⟩
    · exact hown.fut f fut ((Function.update_of_ne hne ..).symm.trans hf)
  | poll f w =>
    obtain ⟨fut, hfut, rfl⟩ := Option.map_eq_some_iff.mp hs
    obtain ⟨hkey, hd, ht⟩ := hown.fut f fut hfut
    constructor
    · intro g gut hg
      rcases eq_or_ne g f with rfl | hne
      · cases (Function.update_self ..).symm.trans hg
        obtain ⟨hk', hd', ht'⟩ := poll_fut fut s.node w
        exact ⟨hk'.trans hkey, hd'.trans hd, (congrArg _ ht').trans ht⟩
      · exact hown.fut g gut ((Function.update_of_ne hne ..).symm.trans hg)
    · intro κ p hp
      rcases pending_of_poll hp with ⟨p₀, hp₀, hpd, hpt⟩ | ⟨rfl, hpd, hpt⟩
      · obtain ⟨h1, h2⟩ := hown.slot κ p₀ hp₀
        exact ⟨by rw [hpd, h1], by rw [hpd, hpt, h2]⟩
      · exact ⟨by rw [hpd, hd, hkey], by rw [hpd, hpt, ht, hd]⟩
  | drop f =>
    obtain ⟨fut, -, rfl⟩ := Option.map_eq_some_iff.mp hs
    constructor
    · intro g gut hg
      rcases eq_or_ne g f with rfl | hne
      · cases (Function.update_self ..).symm.trans hg
      · exact hown.fut g gut ((Function.update_of_ne hne ..).symm.trans hg)
    · intro κ p hp
      refine hown.slot κ p ?_
      replace hp : (fut.drop s.node).router.slots κ = some (.pending p) := hp
      unfold RecvFuture.drop at hp
      split at hp
      · exact AmRouter.slots_of_remove hp
      · exact hp

theorem own_start (heap : Heap Name α) : Own (start heap : State W α) := by
  constructor
  · intro f fut h
    cases h
  · intro κ p h
    cases h

/-! ### The three phases of a key -/

/-- What the key is at. -/
inductive Phase (κ : RecvKey) (s : State W α) : Prop
  /-- Every payload has met its receive. -/
  | even (hslot : s.node.router.slots κ = none)
      (hlen : (s.posted κ).length = (s.delivered κ).length)
  /-- The last payload waits for its receive. -/
  | ahead (ms : List (List α)) (m : List α)
      (hslot : s.node.router.slots κ = some (.early ⟨m, ms.length⟩))
      (hms : s.delivered κ = ms ++ [m]) (hlen : (s.posted κ).length = ms.length)
  /-- The last receive waits for its payload. -/
  | behind (gs : List (RecvFuture Name Name)) (g : RecvFuture Name Name) (w : Option W)
      (hslot : s.node.router.slots κ = some (.pending ⟨g.target, g.done, w⟩))
      (hgs : s.posted κ = gs ++ [g]) (hlen : gs.length = (s.delivered κ).length)
      (hdone : s.node.done g.done = false)

/-- The invariant of a key whose payloads all arrive in time. -/
structure Inv (κ : RecvKey) (s : State W α) : Prop where
  own : Own s
  posted : ∀ g ∈ s.posted κ, g.done.1 = κ ∧ g.target.region = g.done
  got : ∀ k g m, (s.posted κ)[k]? = some g → (s.delivered κ)[k]? = some m → Got s.node g k m
  phase : Phase κ s

/-- A position of a list with one more element. -/
theorem getElem?_concat_iff {β : Type*} {l : List β} {x y : β} {k : ℕ} :
    (l ++ [x])[k]? = some y ↔ l[k]? = some y ∨ k = l.length ∧ x = y := by
  rcases Nat.lt_trichotomy k l.length with hk | rfl | hk
  · rw [List.getElem?_append_left hk]
    exact ⟨.inl, fun h => h.resolve_right fun h' => hk.ne h'.1⟩
  · simp
  · rw [List.getElem?_eq_none (by rw [List.length_append]; exact hk),
      List.getElem?_eq_none hk.le]
    refine ⟨fun h => (by cases h), ?_⟩
    rintro (h | ⟨h, -⟩)
    · cases h
    · exact absurd h hk.ne'

/-- The invariant gives the law. -/
theorem Inv.law {κ : RecvKey} {s : State W α} (h : Inv κ s) : Law κ s where
  inOrder := h.got
  waits := by
    intro k g hg hk
    have hlt := (List.getElem?_eq_some_iff.mp hg).1
    rcases h.phase with ⟨-, hlen⟩ | ⟨ms, m, -, hms, hlen⟩ | ⟨gs, g', w, -, hgs, hlen, hdone⟩
    · omega
    · rw [hms, List.length_append] at hk
      omega
    · rw [hgs] at hg
      rcases getElem?_concat_iff.mp hg with hg | ⟨-, rfl⟩
      · have := (List.getElem?_eq_some_iff.mp hg).1
        omega
      · exact hdone
  kept := by
    intro k m hm hk
    have hlt := (List.getElem?_eq_some_iff.mp hm).1
    rcases h.phase with ⟨-, hlen⟩ | ⟨ms, m', hslot, hms, hlen⟩ | ⟨gs, g', w, -, hgs, hlen, -⟩
    · omega
    · rw [hms] at hm
      rcases getElem?_concat_iff.mp hm with hm | ⟨rfl, rfl⟩
      · have := (List.getElem?_eq_some_iff.mp hm).1
        omega
      · exact hslot
    · rw [hgs, List.length_append] at hk
      omega

/-- **The invariant is about the cells and the slot of the key**, up to the waker
of a pending receive. -/
theorem Inv.congr {κ : RecvKey} {s s' : State W α} (h : Inv κ s) (hown : Own s')
    (hslot : s'.node.router.slots κ = s.node.router.slots κ ∨
      ∃ p w, s.node.router.slots κ = some (.pending p) ∧
        s'.node.router.slots κ = some (.pending { p with waker := w }))
    (hdone : ∀ f : Name, f.1 = κ → s'.node.done f = s.node.done f)
    (hgot : ∀ f : Name, f.1 = κ → s'.node.got f = s.node.got f)
    (hheap : ∀ f : Name, f.1 = κ → s'.node.heap f = s.node.heap f)
    (hpost : s'.posted κ = s.posted κ) (hdel : s'.delivered κ = s.delivered κ) : Inv κ s' where
  own := hown
  posted := by
    rw [hpost]
    exact h.posted
  got := by
    intro k g m hg hm
    rw [hpost] at hg
    rw [hdel] at hm
    obtain ⟨hd, ht⟩ := h.posted g (List.mem_of_getElem? hg)
    obtain ⟨h1, h2, h3⟩ := h.got k g m hg hm
    refine ⟨(hdone _ hd).trans h1, (hgot _ hd).trans h2, ?_⟩
    rw [← h3, Heap.read, Heap.read, hheap _ (by rw [ht, hd])]
  phase := by
    rcases h.phase with ⟨hv, hlen⟩ | ⟨ms, m, he, hms, hlen⟩ | ⟨gs, g, w, hp, hgs, hlen, hd⟩
    · obtain hslot | ⟨p, w, hp, -⟩ := hslot
      · exact .even (hslot.trans hv) (by rw [hpost, hdel, hlen])
      · cases hv.symm.trans hp
    · obtain hslot | ⟨p, w, hp, -⟩ := hslot
      · exact .ahead ms m (hslot.trans he) (hdel.trans hms) (by rw [hpost, hlen])
      · cases he.symm.trans hp
    · have hg := (h.posted g (by rw [hgs]; exact List.mem_concat_self)).1
      obtain ⟨w', hw'⟩ : ∃ w', s'.node.router.slots κ = some (.pending ⟨g.target, g.done, w'⟩) := by
        obtain hslot | ⟨p, w', hp', hw'⟩ := hslot
        · exact ⟨w, hslot.trans hp⟩
        · cases hp.symm.trans hp'
          exact ⟨w', hw'⟩
      exact .behind gs g w' hw' (hpost.trans hgs) (by rw [hdel, hlen]) ((hdone _ hg).trans hd)

/-- A target in another region is as it was after one is filled. -/
theorem fill_read_of_ne {n : Node Name Name W α ℕ} {t u : Slice Name} {d : Name}
    {m : Payload α ℕ} (hne : u.region ≠ t.region) :
    (n.fill t d m).heap.read u = n.heap.read u := by
  refine Heap.AgreeOn.read_eq (Heap.agreeOn_copyInto m.bytes fun r i hc => ?_) fun r i hr => hr
  rintro ⟨hr, -⟩
  exact hne (hr.symm.trans hc.1)

/-- Filling another receive leaves a completed one as it is. -/
theorem Got.fill {n : Node Name Name W α ℕ} {g : RecvFuture Name Name} {k : ℕ} {m : List α}
    {t : Slice Name} {d : Name} (h : Got n g k m) (hg : g.target.region = g.done)
    (ht : t.region = d) (hd : n.done d = false) (m' : Payload α ℕ) : Got (n.fill t d m') g k m := by
  have hne : g.done ≠ d := by
    rintro rfl
    rw [h.done] at hd
    cases hd
  refine ⟨(Function.update_of_ne hne ..).trans h.done,
    (Function.update_of_ne hne ..).trans h.got, ?_⟩
  have hrow : (n.fill t d m').heap.read g.target = n.heap.read g.target :=
    fill_read_of_ne (by rwa [hg, ht])
  rw [hrow, h.holds]

/-- What a receive has got does not depend on the router. -/
theorem Got.router {n : Node Name Name W α ℕ} {g : RecvFuture Name Name} {k : ℕ} {m : List α}
    (h : Got n g k m) (r : AmRouter Name Name W α ℕ) : Got { n with router := r } g k m :=
  ⟨h.done, h.got, h.holds⟩

/-- A receive filled with a payload has got it. -/
theorem got_fill (n : Node Name Name W α ℕ) (g : RecvFuture Name Name) (k : ℕ) (m : List α) :
    Got (n.fill g.target g.done ⟨m, k⟩) g k m :=
  ⟨Function.update_self .., Function.update_self .., Heap.take_read_copyInto ..⟩

/-! ### Operations on the key itself -/

/-- **A payload that arrives in time** goes to the receive that waits for it, or
is kept. -/
theorem Inv.deliver {κ : RecvKey} {s s' : State W α} {bytes : List α} (h : Inv κ s)
    (hin : (s.delivered κ).length ≤ (s.posted κ).length)
    (hs : step s (.deliver κ bytes) = some s') : Inv κ s' := by
  have hown := h.own.step hs
  obtain ⟨hnode, hpost, hdel⟩ :
      s'.node = (s.node.deliver κ ⟨bytes, (s.delivered κ).length⟩).1 ∧
        s'.posted κ = s.posted κ ∧ s'.delivered κ = s.delivered κ ++ [bytes] := by
    cases hs
    exact ⟨rfl, rfl, Function.update_self ..⟩
  rcases h.phase with ⟨hslot, hlen⟩ | ⟨ms, m, -, hms, hlen⟩ | ⟨gs, g, w, hslot, hgs, hlen, hdone⟩
  · -- nobody waits: the payload becomes the early one
    rw [Node.deliver_vacant hslot] at hnode
    refine ⟨hown, by rw [hpost]; exact h.posted, fun k g m hg hm => ?_,
      .ahead (s.delivered κ) bytes ?_ hdel ?_⟩
    · rw [hpost] at hg
      rw [hdel] at hm
      rcases getElem?_concat_iff.mp hm with hm | ⟨rfl, -⟩
      · rw [hnode]
        exact (h.got k g m hg hm).router _
      · have := (List.getElem?_eq_some_iff.mp hg).1
        omega
    · rw [hnode]
      exact AmRouter.insert_slots_self ..
    · rw [hpost, hlen]
  · -- an early one waits: there are more payloads than receives
    rw [hms, List.length_append, List.length_singleton] at hin
    omega
  · -- the last receive waits: it is filled
    rw [Node.deliver_pending hslot] at hnode
    have hg := (h.posted g (by rw [hgs]; exact List.mem_concat_self)).2
    refine ⟨hown, by rw [hpost]; exact h.posted, fun k g' m hg' hm => ?_, .even ?_ ?_⟩
    · rw [hpost] at hg'
      rw [hdel] at hm
      rw [hnode]
      rcases getElem?_concat_iff.mp hm with hm | ⟨rfl, rfl⟩
      · exact ((h.got k g' m hg' hm).router (s.node.router.remove κ)).fill
          (h.posted g' (List.mem_of_getElem? hg')).2 hg hdone _
      · obtain rfl : g = g' := by
          rw [hgs, ← hlen, List.getElem?_concat_length] at hg'
          exact Option.some.inj hg'
        exact got_fill ..
    · rw [hnode]
      exact AmRouter.remove_slots_self ..
    · rw [hpost, hdel, hgs, List.length_append, List.length_append, hlen]
      rfl

/-- **A first poll** takes the payload that waits, or waits for it. -/
theorem Inv.firstPoll {κ : RecvKey} {s s' : State W α} {f : Name} {w : W}
    {fut : RecvFuture Name Name} (h : Inv κ s) (hfut : s.futs f = some fut) (hkey : fut.key = κ)
    (hfresh : Fresh s fut) (hone : ∀ g ∈ s.posted κ, s.node.done g.done = true)
    (hs : step s (.poll f w) = some s') : Inv κ s' := by
  have hown := h.own.step hs
  obtain ⟨hf, hd, ht⟩ := h.own.fut f fut hfut
  subst hkey
  obtain ⟨hnode, hpost, hdel⟩ : s'.node = (fut.poll s.node w).2.2 ∧
      s'.posted fut.key = s.posted fut.key ++ [fut] ∧
        s'.delivered fut.key = s.delivered fut.key := by
    rw [step, hfut, Option.map_some, if_pos hfresh] at hs
    cases hs
    exact ⟨rfl, Function.update_self .., rfl⟩
  have hposted : ∀ g ∈ s'.posted fut.key, g.done.1 = fut.key ∧ g.target.region = g.done := by
    intro g hg
    rw [hpost] at hg
    rcases List.mem_append.mp hg with hg | hg
    · exact h.posted g hg
    · obtain rfl := List.mem_singleton.mp hg
      exact ⟨by rw [hd, hf], by rw [ht, hd]⟩
  rcases h.phase with ⟨hslot, hlen⟩ | ⟨ms, m, hslot, hms, hlen⟩ | ⟨gs, g, w', -, hgs, hlen, hdone⟩
  · -- no payload: the receive registers
    rw [RecvFuture.poll_register hfresh.2 hfresh.1 (by simp [hslot])] at hnode
    refine ⟨hown, hposted, fun k g m hg hm => ?_,
      .behind (s.posted fut.key) fut (some w) ?_ hpost (by rw [hdel, hlen]) ?_⟩
    · rw [hpost] at hg
      rw [hdel] at hm
      rw [hnode]
      rcases getElem?_concat_iff.mp hg with hg | ⟨rfl, -⟩
      · exact (h.got k g m hg hm).router _
      · have := (List.getElem?_eq_some_iff.mp hm).1
        omega
    · rw [hnode]
      exact AmRouter.insert_slots_self ..
    · rw [hnode]
      exact hfresh.2
  · -- the early payload is taken
    rw [RecvFuture.poll_early hfresh.2 hfresh.1 hslot] at hnode
    refine ⟨hown, hposted, fun k g m' hg hm => ?_, .even ?_ ?_⟩
    · rw [hpost] at hg
      rw [hdel] at hm
      rw [hnode]
      rcases getElem?_concat_iff.mp hg with hg | ⟨rfl, rfl⟩
      · exact ((h.got k g m' hg hm).router (s.node.router.remove fut.key)).fill
          (h.posted g (List.mem_of_getElem? hg)).2 (by rw [ht, hd]) hfresh.2 _
      · rw [hms, hlen, List.getElem?_concat_length] at hm
        obtain rfl := Option.some.inj hm
        rw [hlen]
        exact got_fill ..
    · rw [hnode]
      exact AmRouter.remove_slots_self ..
    · rw [hpost, hdel, List.length_append, hlen, hms, List.length_append]
      rfl
  · -- another receive waits: there would be two of them
    rw [hone g (by rw [hgs]; exact List.mem_concat_self)] at hdone
    cases hdone

/-- **Every other poll** changes no more than a waker. -/
theorem Inv.laterPoll {κ : RecvKey} {s s' : State W α} {f : Name} {w : W}
    {fut : RecvFuture Name Name} (h : Inv κ s) (hfut : s.futs f = some fut) (hkey : fut.key = κ)
    (hfresh : ¬Fresh s fut) (hs : step s (.poll f w) = some s') : Inv κ s' := by
  have hown := h.own.step hs
  obtain ⟨hnode, hpost, hdel⟩ : s'.node = (fut.poll s.node w).2.2 ∧ s'.posted = s.posted ∧
      s'.delivered = s.delivered := by
    rw [step, hfut, Option.map_some, if_neg hfresh] at hs
    cases hs
    exact ⟨rfl, rfl, rfl⟩
  rcases Bool.eq_false_or_eq_true (s.node.done fut.done) with hdone | hdone
  · rw [RecvFuture.poll_done hdone] at hnode
    exact h.congr hown (.inl (by rw [hnode])) (fun _ _ => by rw [hnode]) (fun _ _ => by rw [hnode])
      (fun _ _ => by rw [hnode]) (by rw [hpost]) (by rw [hdel])
  · have hreg : fut.registered = true := by
      by_contra hreg
      exact hfresh ⟨by simpa using hreg, hdone⟩
    rw [RecvFuture.poll_again hdone hreg] at hnode
    refine h.congr hown ?_ (fun _ _ => by rw [hnode]) (fun _ _ => by rw [hnode])
      (fun _ _ => by rw [hnode]) (by rw [hpost]) (by rw [hdel])
    rw [hnode]
    rcases s.node.router.updateWaker_slots fut.key κ w with hu | ⟨p, -, hp, hu⟩
    · exact .inl hu
    · exact .inr ⟨p, some w, by rw [← hkey]; exact hp, by rw [← hkey]; exact hu⟩

/-- **Every step keeps the invariant** of a key, if its payloads arrive in time
and its receives follow one another. -/
theorem Inv.step {κ : RecvKey} {s s' : State W α} {e : Event W α} (h : Inv κ s)
    (hone : OneOutstanding κ s e) (hin : Arrives κ s e) (hs : step s e = some s') : Inv κ s' := by
  by_cases hκ : e.key = κ
  · subst hκ
    cases e with
    | deliver key bytes => exact h.deliver (hin rfl) hs
    | create key len =>
      have hown := h.own.step hs
      cases hs
      exact h.congr hown (.inl rfl) (fun _ _ => rfl) (fun _ _ => rfl) (fun _ _ => rfl) rfl rfl
    | poll f w =>
      obtain ⟨fut, hfut, -⟩ := Option.map_eq_some_iff.mp hs
      have hkey := (h.own.fut f fut hfut).1
      by_cases hfresh : Fresh s fut
      · exact h.firstPoll hfut hkey hfresh (hone fut hfut hkey hfresh) hs
      · exact h.laterPoll hfut hkey hfresh hs
    | drop f =>
      have hown := h.own.step hs
      obtain ⟨fut, hfut, hs'⟩ := Option.map_eq_some_iff.mp hs
      have hkey := (h.own.fut f fut hfut).1
      -- a receive that is not registered, or is done, has no slot
      have hdrop : fut.drop s.node = s.node := by
        refine if_neg fun hc => ?_
        obtain ⟨hreg, hnot⟩ := Bool.and_eq_true_iff.mp hc
        rw [hone fut hfut hkey hreg] at hnot
        cases hnot
      rw [hdrop] at hs'
      subst hs'
      exact h.congr hown (.inl rfl) (fun _ _ => rfl) (fun _ _ => rfl) (fun _ _ => rfl) rfl rfl
  · have hsame := step_sameAt h.own hκ hs
    exact h.congr (h.own.step hs) (.inl hsame.node.slot) hsame.node.done hsame.node.got
      hsame.node.heap hsame.posted hsame.delivered

/-- **A payload that arrives too soon** takes the early one with it: neither is
kept. -/
theorem Inv.deliver_too_soon {κ : RecvKey} {s s' : State W α} {e : Event W α} (h : Inv κ s)
    (hin : ¬Arrives κ s e) (hs : Mailbox.step s e = some s') : ¬Law κ s' := by
  intro hlaw
  cases e with
  | deliver key bytes =>
    obtain ⟨rfl, hlt⟩ := Classical.not_imp.mp hin
    rcases h.phase with ⟨-, hlen⟩ | ⟨ms, m, hslot, hms, hlen⟩ | ⟨gs, g, w, -, hgs, hlen, -⟩
    · omega
    · obtain ⟨hnode, hpost, hdel⟩ : s'.node.router = s.node.router.remove key ∧
          s'.posted = s.posted ∧ s'.delivered key = s.delivered key ++ [bytes] := by
        cases hs
        rw [Node.deliver_early hslot]
        exact ⟨rfl, rfl, Function.update_self ..⟩
      have hkept := hlaw.kept ms.length m ?_ (by rw [hpost, hlen])
      · rw [hnode, AmRouter.remove_slots_self] at hkept
        cases hkept
      · rw [hdel, hms, List.getElem?_append_left (by simp), List.getElem?_concat_length]
    · rw [hgs, List.length_append] at hlt
      omega
  | create | poll | drop => exact hin trivial

theorem inv_start (κ : RecvKey) (heap : Heap Name α) : Inv κ (start heap : State W α) where
  own := own_start heap
  posted := fun g hg => absurd hg List.not_mem_nil
  got := by
    intro k g m hg
    cases hg
  phase := .even rfl rfl

/-! ### The mailbox law -/

/-- **The mailbox law of the router, and its exact condition.** In a run with at
most one outstanding receive on the key, the law holds in every state if and only
if each payload of the key arrives when no more of them were delivered than
receives were posted. Whatever the run, the steps on other keys do not affect the
key. -/
theorem mailbox_law (κ : RecvKey) (heap : Heap Name α) (es : List (Event W α))
    (hone : EachStep step (OneOutstanding κ) (start heap) es) :
    (Always step (Law κ) (start heap) es ↔ EachStep step (Arrives κ) (start heap) es) ∧
      ∀ (s s' : State W α) (e : Event W α), Reaches step (start heap) s → e.key ≠ κ →
        step s e = some s' → SameAt κ s s' := by
  constructor
  · exact always_iff_eachStep (fun s hs => hs.law) (fun s e s' hs h1 h2 h => hs.step h1 h2 h)
      (fun s e s' hs _ h2 h => hs.deliver_too_soon h2 h) (inv_start κ heap) hone
  · intro s s' e hreach hne hs
    have hown : Own s := hreach.invariant (own_start heap) fun _ _ _ h _ => h.step
    exact step_sameAt hown hne hs

/-- A key, and a payload delivered for it before its receive: the law holds. -/
theorem mailbox_law_one_early :
    Always step (Law ⟨1, 0, 0, 0⟩) (start fun _ _ => (0 : ℕ))
      [.deliver ⟨1, 0, 0, 0⟩ [7], .create ⟨1, 0, 0, 0⟩ 1, .poll (⟨1, 0, 0, 0⟩, 0) ()] := by
  refine (mailbox_law _ _ _ ?_).1.mpr ?_
  · rintro _ ⟨⟩
    refine ⟨trivial, ?_⟩
    rintro _ ⟨⟩
    refine ⟨trivial, ?_⟩
    intro s' _
    exact ⟨fun _ _ _ _ g hg => absurd hg List.not_mem_nil, trivial⟩
  · rintro _ ⟨⟩
    refine ⟨fun _ => Nat.le_refl 0, ?_⟩
    rintro _ ⟨⟩
    refine ⟨trivial, ?_⟩
    intro s' _
    exact ⟨trivial, trivial⟩

/-- **Two payloads ahead of their receives.** Both are discarded, and the receive
that is posted then waits for a payload that was delivered long ago. -/
theorem mailbox_law_two_early :
    ∃ es : List (Event Unit ℕ),
      EachStep step (OneOutstanding ⟨1, 0, 0, 0⟩) (start fun _ _ => 0) es ∧
        ¬Always step (Law ⟨1, 0, 0, 0⟩) (start fun _ _ => 0) es := by
  refine ⟨[.deliver ⟨1, 0, 0, 0⟩ [7], .deliver ⟨1, 0, 0, 0⟩ [8], .create ⟨1, 0, 0, 0⟩ 1,
    .poll (⟨1, 0, 0, 0⟩, 0) ()], ?_, ?_⟩
  · rintro _ ⟨⟩
    refine ⟨trivial, ?_⟩
    rintro _ ⟨⟩
    refine ⟨trivial, ?_⟩
    rintro _ ⟨⟩
    refine ⟨trivial, ?_⟩
    intro s' _
    exact ⟨fun _ _ _ _ g hg => absurd hg List.not_mem_nil, trivial⟩
  · intro h
    have hlaw := ((h.2 _ rfl).2 _ rfl).head
    cases hlaw.kept 0 [7] rfl (Nat.le_refl 0)

end Mailbox

end Pluvio
