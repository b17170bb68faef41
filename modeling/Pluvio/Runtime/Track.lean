import Pluvio.Runs
import Mathlib.Data.List.Nodup
import Mathlib.Data.List.Perm.Basic
import Mathlib.Data.UInt

/-!
# Track ids

A tracked future takes an id from the pool of its thread when it is polled for the first
time, shows it as the current one while it is being polled, and gives it back when it
completes. Polls are nested, so the frames of the polls under way are a stack, and each
frame remembers the id that was current before it.

A future that is dropped gives nothing back. So ids are conserved exactly as long as no
future is dropped between its first poll and its completion
(`Pluvio.Track.track_ids_conserved_iff`): an id that was handed out is then in the pool,
once, or held by one future that is alive.

The invariant is that the pool and the ids of the futures together are a permutation of
the ids below the next one (`Pluvio.Track.Inv.ids`). In particular there are never more
ids than futures that were alive at a time, and the counter of the allocator, of 64 bits,
does not come around.
-/

namespace Pluvio

namespace Track

/-! ### The allocator and the futures -/

/-- `TrackIdAllocator`. -/
structure TrackIdAllocator where
  availableIds : List UInt64
  nextId : UInt64

namespace TrackIdAllocator

/-- `TrackIdAllocator::new`. -/
def new : TrackIdAllocator := ⟨[], 1⟩

/-- `TrackIdAllocator::acquire`. -/
def acquire (a : TrackIdAllocator) : UInt64 × TrackIdAllocator :=
  match a.availableIds with
  | id :: ids => (id, { a with availableIds := ids })
  | [] => (a.nextId, { a with nextId := a.nextId + 1 })

/-- `TrackIdAllocator::release`. -/
def release (a : TrackIdAllocator) (id : UInt64) : TrackIdAllocator :=
  if id ≠ 0 then { a with availableIds := a.availableIds ++ [id] } else a

end TrackIdAllocator

/-- `TrackedFuture`, without the future it wraps. -/
structure TrackedFuture where
  trackId : Option UInt64
  deriving DecidableEq

/-- A poll under way: the future, and the locals `track_id` and `previous_track_id`. -/
structure Polling where
  future : ℕ
  trackId : UInt64
  previous : UInt64

/-- A thread. A future goes by its position among those that were created. -/
structure Thread where
  /-- `TRACK_ALLOCATOR`. -/
  alloc : TrackIdAllocator
  /-- `CURRENT_TRACK_ID`. -/
  current : UInt64
  /-- The futures, without those that have been dropped. -/
  futs : List (Option TrackedFuture)
  /-- The polls under way, the innermost one first. -/
  polling : List Polling
  /-- The ids that have been handed out. -/
  handedOut : List UInt64

/-- What happens on the thread. -/
inductive Event
  /-- `tracked`. -/
  | create
  /-- A future is polled, up to the poll of the one it wraps. -/
  | poll (f : ℕ)
  /-- The innermost poll ends, with `Ready` or with `Pending`. -/
  | polled (ready : Bool)
  | drop (f : ℕ)

/-- A thread with its allocator, and any current id. -/
def start (current : UInt64) : Thread := ⟨.new, current, [], [], []⟩

namespace Thread

/-- How many futures are alive. -/
def live (s : Thread) : ℕ := s.futs.countP Option.isSome

/-- The ids that futures hold. -/
def held (s : Thread) : List UInt64 := s.futs.filterMap (·.bind TrackedFuture.trackId)

/-- The id is current while the future is polled. -/
def enter (s : Thread) (f : ℕ) (trackId : UInt64) : Thread :=
  { s with current := trackId, polling := ⟨f, trackId, s.current⟩ :: s.polling }

/-- The future takes an id. -/
def give (s : Thread) (f : ℕ) (r : UInt64 × TrackIdAllocator) : Thread :=
  { s with
    alloc := r.2
    futs := s.futs.set f (some ⟨some r.1⟩)
    handedOut := r.1 :: s.handedOut }

/-- `TrackedFuture::poll`, up to the poll of the inner future. -/
def poll (s : Thread) (f : ℕ) (fut : TrackedFuture) : Thread :=
  match fut.trackId with
  | some trackId => s.enter f trackId
  | none => (s.give f s.alloc.acquire).enter f s.alloc.acquire.1

/-- `TrackedFuture::poll`, from there on. -/
def polled (s : Thread) (p : Polling) (outer : List Polling) (ready : Bool) : Thread :=
  let s := { s with current := p.previous, polling := outer }
  if ready then
    { s with alloc := s.alloc.release p.trackId, futs := s.futs.set p.future (some ⟨none⟩) }
  else s

end Thread

/-- One event. A future is borrowed while it is being polled. It takes sixteen bytes at
least, so no more than `2 ^ 60` of them are alive. -/
def step (s : Thread) : Event → Option Thread
  | .create => if s.live < 2 ^ 60 then some { s with futs := s.futs ++ [some ⟨none⟩] } else none
  | .poll f => s.futs[f]?.join.bind fun fut =>
    if f ∈ s.polling.map Polling.future then none else some (s.poll f fut)
  | .polled ready =>
    match s.polling with
    | [] => none
    | p :: outer => some (s.polled p outer ready)
  | .drop f => s.futs[f]?.join.bind fun _ =>
    if f ∈ s.polling.map Polling.future then none else some { s with futs := s.futs.set f none }

/-! ### Conservation -/

/-- The id that is current inside the polls, with `c₀` outside all of them. -/
def currentIn (c₀ : UInt64) : List Polling → UInt64
  | [] => c₀
  | p :: _ => p.trackId

/-- Ids are conserved: each one handed out is in the pool again or held by one future. -/
structure Conserved (c₀ : UInt64) (s : Thread) : Prop where
  /-- An id that was handed out is in the pool, once, or held by one future, once, and not
  both. -/
  once : ∀ id ∈ s.handedOut,
    s.alloc.availableIds.count id + s.futs.count (some ⟨some id⟩) = 1
  /-- There are no other ids. -/
  only : ∀ id, id ∈ s.alloc.availableIds ∨ some ⟨some id⟩ ∈ s.futs → id ∈ s.handedOut
  nonzero : 0 ∉ s.handedOut
  /-- The current id is that of the innermost poll, and outside all polls what it was. -/
  current : s.current = currentIn c₀ s.polling

/-- The event drops a future that holds an id. -/
def Leaks (s : Thread) : Event → Prop
  | .drop f => ∃ id, s.futs[f]? = some (some ⟨some id⟩)
  | _ => False

/-- The polls restore the ids that were current before them. -/
def Restores (c₀ : UInt64) : List Polling → Prop
  | [] => True
  | p :: outer => p.previous = currentIn c₀ outer ∧ Restores c₀ outer

/-- The ids below the next one. -/
def idsBelow (nextId : UInt64) : List UInt64 :=
  (List.range' 1 (nextId.toNat - 1)).map UInt64.ofNat

/-- The invariant of a thread whose ids are conserved. -/
structure Inv (c₀ : UInt64) (s : Thread) : Prop where
  /-- The pool and the futures have all ids below the next one, each once. -/
  ids : (s.alloc.availableIds ++ s.held).Perm (idsBelow s.alloc.nextId)
  next : 1 ≤ s.alloc.nextId.toNat ∧ s.alloc.nextId.toNat ≤ 2 ^ 60 + 1
  live : s.live ≤ 2 ^ 60
  handedOut : ∀ id, id ∈ s.handedOut ↔ id ∈ s.alloc.availableIds ++ s.held
  current : s.current = currentIn c₀ s.polling
  restores : Restores c₀ s.polling
  polled : ∀ p ∈ s.polling, s.futs[p.future]? = some (some ⟨some p.trackId⟩)
  nodup : (s.polling.map Polling.future).Nodup

/-! ### What one event does to the ids -/

section Ids

variable {α β : Type*} {l : List α} {i : ℕ} {x : α}

/-- One element of a list replaced. -/
theorem perm_filterMap_set (g : α → Option β) (h : l[i]? = some x) (y : α) :
    ((g x).toList ++ (l.set i y).filterMap g).Perm ((g y).toList ++ l.filterMap g) := by
  have hcons : ∀ (a : α) (l : List α), (a :: l).filterMap g = (g a).toList ++ l.filterMap g := by
    intro a l
    rw [List.filterMap_cons]
    cases g a <;> rfl
  induction l generalizing i with
  | nil => cases h
  | cons a l ih =>
    cases i with
    | zero =>
      obtain rfl : a = x := Option.some.inj h
      rw [List.set_cons_zero, hcons, hcons]
      exact List.perm_append_comm_assoc ..
    | succ i =>
      rw [List.set_cons_succ, hcons, hcons]
      calc (g x).toList ++ ((g a).toList ++ (l.set i y).filterMap g)
          |>.Perm ((g a).toList ++ ((g x).toList ++ (l.set i y).filterMap g)) :=
            List.perm_append_comm_assoc ..
        _ |>.Perm ((g a).toList ++ ((g y).toList ++ l.filterMap g)) := (ih h).append_left _
        _ |>.Perm ((g y).toList ++ ((g a).toList ++ l.filterMap g)) :=
            List.perm_append_comm_assoc ..

/-- A future replaced by a future. -/
theorem countP_isSome_set {l : List (Option α)} {a b : α} (h : l[i]? = some (some a)) :
    (l.set i (some b)).countP Option.isSome = l.countP Option.isSome := by
  obtain ⟨hlt, hget⟩ := List.getElem?_eq_some_iff.mp h
  have hpos : 0 < l.countP Option.isSome :=
    List.countP_pos_iff.mpr ⟨some a, hget ▸ List.getElem_mem hlt, rfl⟩
  rw [List.countP_set hlt, hget]
  simp only [Option.isSome_some, if_true]
  omega

end Ids

namespace Thread

variable {s : Thread} {f : ℕ} {id : UInt64}

/-- There are no more ids than futures. -/
theorem length_held_le (s : Thread) : s.held.length ≤ s.live := by
  rw [held, List.length_filterMap_eq_countP]
  refine List.countP_mono_left fun x _ hx => ?_
  cases x with
  | none => exact hx
  | some fut => rfl

/-- How often the futures hold an id. -/
theorem count_held (s : Thread) (id : UInt64) :
    s.held.count id = s.futs.count (some ⟨some id⟩) := by
  rw [held, List.count_filterMap, List.count]
  refine List.countP_congr fun x _ => ?_
  rcases x with - | ⟨- | id'⟩ <;> simp

theorem mem_held : id ∈ s.held ↔ some ⟨some id⟩ ∈ s.futs := by
  rw [← List.count_pos_iff, count_held, List.count_pos_iff]

end Thread

/-! ### The ids below the next one -/

theorem length_idsBelow (n : UInt64) : (idsBelow n).length = n.toNat - 1 := by
  rw [idsBelow, List.length_map, List.length_range']

theorem nodup_idsBelow (n : UInt64) : (idsBelow n).Nodup := by
  refine List.Nodup.map_on ?_ (List.nodup_range' 1)
  intro a ha b hb hab
  have hn := n.toNat_lt
  rw [List.mem_range'_1] at ha hb
  have hmod := congrArg UInt64.toNat hab
  rwa [UInt64.toNat_ofNat', UInt64.toNat_ofNat', Nat.mod_eq_of_lt (by omega),
    Nat.mod_eq_of_lt (by omega)] at hmod

theorem zero_notMem_idsBelow (n : UInt64) : 0 ∉ idsBelow n := by
  intro h
  obtain ⟨k, hk, hzero⟩ := List.mem_map.mp h
  have hn := n.toNat_lt
  rw [List.mem_range'_1] at hk
  have hmod := congrArg UInt64.toNat hzero
  rw [UInt64.toNat_ofNat', Nat.mod_eq_of_lt (by omega), UInt64.toNat_zero] at hmod
  omega

/-- The next id is one more. -/
theorem idsBelow_succ {n : UInt64} (hpos : 1 ≤ n.toNat) (hlt : n.toNat + 1 < 2 ^ 64) :
    (n + 1).toNat = n.toNat + 1 ∧ idsBelow (n + 1) = idsBelow n ++ [n] := by
  have hsucc : (n + 1).toNat = n.toNat + 1 := by
    rw [UInt64.toNat_add, UInt64.toNat_one]
    exact Nat.mod_eq_of_lt hlt
  refine ⟨hsucc, ?_⟩
  have hlen : n.toNat + 1 - 1 = (n.toNat - 1) + 1 := by omega
  rw [idsBelow, hsucc, hlen, List.range'_1_concat, List.map_append, List.map_singleton,
    Nat.add_sub_cancel' hpos, UInt64.ofNat_toNat]
  rfl

/-! ### The invariant -/

section Steps

variable {c₀ : UInt64} {s s' : Thread} {f : ℕ} {e : Event}

theorem Inv.nodup_ids (h : Inv c₀ s) : (s.alloc.availableIds ++ s.held).Nodup :=
  h.ids.nodup_iff.mpr (nodup_idsBelow _)

/-- An id that is in the pool or held is a positive number. -/
theorem Inv.ne_zero (h : Inv c₀ s) {id : UInt64} (hid : id ∈ s.alloc.availableIds ++ s.held) :
    id ≠ 0 := by
  rintro rfl
  exact zero_notMem_idsBelow _ (h.ids.mem_iff.mp hid)

/-- Under the invariant the ids are conserved. -/
theorem Inv.conserved (h : Inv c₀ s) : Conserved c₀ s where
  once := by
    intro id hid
    rw [← Thread.count_held, ← List.count_append]
    exact List.count_eq_one_of_mem h.nodup_ids ((h.handedOut id).mp hid)
  only := by
    intro id hid
    rw [h.handedOut, List.mem_append, Thread.mem_held]
    exact hid
  nonzero := fun hid => h.ne_zero ((h.handedOut 0).mp hid) rfl
  current := h.current

theorem inv_start (c₀ : UInt64) : Inv c₀ (start c₀) where
  ids := .nil
  next := (by decide : 1 ≤ (1 : UInt64).toNat ∧ (1 : UInt64).toNat ≤ 2 ^ 60 + 1)
  live := Nat.zero_le _
  handedOut := fun _ => Iff.rfl
  current := rfl
  restores := trivial
  polled := fun _ hp => absurd hp List.not_mem_nil
  nodup := .nil

/-- A new future has acquired an id that nobody else holds. -/
theorem Inv.create (h : Inv c₀ s) (hlt : s.live < 2 ^ 60) :
    Inv c₀ { s with futs := s.futs ++ [some ⟨none⟩] } := by
  have hheld : Thread.held { s with futs := s.futs ++ [some ⟨none⟩] } = s.held := by
    rw [Thread.held, List.filterMap_append]
    exact List.append_nil _
  refine ⟨by rw [hheld]; exact h.ids, h.next, ?_, by rw [hheld]; exact h.handedOut, h.current,
    h.restores, fun p hp => ?_, h.nodup⟩
  · rw [Thread.live, List.countP_append]
    exact hlt
  · have hlt' := (List.getElem?_eq_some_iff.mp (h.polled p hp)).1
    exact (List.getElem?_append_left hlt').trans (h.polled p hp)

/-- The id comes from the pool, or is the next one. -/
theorem acquire_cases (a : TrackIdAllocator) :
    (∃ id rest, a.availableIds = id :: rest ∧ a.acquire = (id, ⟨rest, a.nextId⟩)) ∨
      a.availableIds = [] ∧ a.acquire = (a.nextId, ⟨[], a.nextId + 1⟩) := by
  obtain ⟨pool, next⟩ := a
  cases pool with
  | nil => exact .inr ⟨rfl, rfl⟩
  | cons id rest => exact .inl ⟨id, rest, rfl, rfl⟩

/-- What the ids of the futures are after one of them took the id of `r`. -/
theorem perm_held_give (hfut : s.futs[f]? = some (some ⟨none⟩)) (r : UInt64 × TrackIdAllocator) :
    (s.give f r).held.Perm (r.1 :: s.held) :=
  perm_filterMap_set (fun fut : Option TrackedFuture => fut.bind TrackedFuture.trackId) hfut
    (some ⟨some r.1⟩)

/-- **A future takes an id**, from the pool or a new one. -/
theorem Inv.give (h : Inv c₀ s) (hfut : s.futs[f]? = some (some ⟨none⟩))
    (hf : f ∉ s.polling.map Polling.future) : Inv c₀ (s.give f s.alloc.acquire) := by
  have hlive : (s.give f s.alloc.acquire).live ≤ 2 ^ 60 :=
    (countP_isSome_set hfut).trans_le h.live
  have hheld := perm_held_give hfut s.alloc.acquire
  have hmem : ∀ id, id ∈ s.alloc.acquire.1 :: s.handedOut ↔
      id ∈ s.alloc.acquire.1 :: (s.alloc.availableIds ++ s.held) := by
    intro id
    rw [List.mem_cons, List.mem_cons, h.handedOut]
  have hpolled : ∀ p ∈ s.polling,
      (s.futs.set f (some ⟨some s.alloc.acquire.1⟩))[p.future]? = some (some ⟨some p.trackId⟩) := by
    intro p hp
    have hne : f ≠ p.future := fun he => hf (he ▸ List.mem_map_of_mem hp)
    exact (List.getElem?_set_ne hne).trans (h.polled p hp)
  rcases acquire_cases s.alloc with ⟨id, rest, hpool, hacq⟩ | ⟨hpool, hacq⟩
  · rw [hacq] at hlive hheld hmem hpolled ⊢
    rw [hpool] at hmem
    have hids : (rest ++ (s.give f (id, ⟨rest, s.alloc.nextId⟩)).held).Perm
        (id :: rest ++ s.held) :=
      (hheld.append_left rest).trans List.perm_middle
    refine ⟨hids.trans ?_, h.next, hlive, fun k => ?_, h.current, h.restores, hpolled, h.nodup⟩
    · rw [← hpool]
      exact h.ids
    · refine (hmem k).trans (Iff.trans ?_ hids.mem_iff.symm)
      simp only [List.cons_append, List.mem_cons, or_self_left]
  · -- all ids below the next one are held, by futures that are alive
    have hlen : s.held.length = s.alloc.nextId.toNat - 1 := by
      have hlen := h.ids.length_eq
      rwa [hpool, List.nil_append, length_idsBelow] at hlen
    have hle := (Thread.length_held_le _).trans hlive
    rw [hheld.length_eq, List.length_cons, hlen] at hle
    obtain ⟨hpos, -⟩ := h.next
    obtain ⟨hsucc, hnew⟩ := idsBelow_succ hpos (by omega)
    rw [hacq] at hlive hheld hmem hpolled ⊢
    rw [hpool, List.nil_append] at hmem
    refine ⟨?_, ?_, hlive, fun k => ?_, h.current, h.restores, hpolled, h.nodup⟩
    · have hold := h.ids
      rw [hpool, List.nil_append] at hold
      rw [show (s.give f (s.alloc.nextId, ⟨[], s.alloc.nextId + 1⟩)).alloc.nextId =
        s.alloc.nextId + 1 from rfl, hnew]
      exact hheld.trans ((hold.cons _).trans (List.perm_append_singleton _ _).symm)
    · rw [show (s.give f (s.alloc.nextId, ⟨[], s.alloc.nextId + 1⟩)).alloc.nextId =
        s.alloc.nextId + 1 from rfl, hsucc]
      omega
    · exact (hmem k).trans hheld.mem_iff.symm

/-- **A poll begins**, of a future that has an id. -/
theorem Inv.enter (h : Inv c₀ s) {trackId : UInt64}
    (hfut : s.futs[f]? = some (some ⟨some trackId⟩)) (hf : f ∉ s.polling.map Polling.future) :
    Inv c₀ (s.enter f trackId) := by
  refine ⟨h.ids, h.next, h.live, h.handedOut, rfl, ⟨h.current, h.restores⟩, fun p hp => ?_,
    List.nodup_cons.mpr ⟨hf, h.nodup⟩⟩
  rcases List.mem_cons.mp hp with rfl | hp
  · exact hfut
  · exact h.polled p hp

/-- A poll of a future that is not being polled. -/
theorem Inv.poll (h : Inv c₀ s) {fut : TrackedFuture} (hfut : s.futs[f]? = some (some fut))
    (hf : f ∉ s.polling.map Polling.future) : Inv c₀ (s.poll f fut) := by
  obtain ⟨- | trackId⟩ := fut
  · have hlt := (List.getElem?_eq_some_iff.mp hfut).1
    exact (h.give hfut hf).enter (List.getElem?_set_self hlt) hf
  · exact h.enter hfut hf

/-- **A poll ends**: the id that was current is current again, and a future that is
completed gives its own back. -/
theorem Inv.polled_end (h : Inv c₀ s) {p : Polling} {outer : List Polling}
    (hp : s.polling = p :: outer) (ready : Bool) : Inv c₀ (s.polled p outer ready) := by
  have hrestores := h.restores
  have hnodup := h.nodup
  have hpolled := h.polled
  rw [hp] at hrestores hnodup hpolled
  obtain ⟨hnot, hnodup⟩ := List.nodup_cons.mp hnodup
  have hfut := hpolled p List.mem_cons_self
  have houter := fun q hq => hpolled q (List.mem_cons_of_mem p hq)
  cases ready with
  | false =>
    exact ⟨h.ids, h.next, h.live, h.handedOut, hrestores.1, hrestores.2, houter, hnodup⟩
  | true =>
    -- the id of the completed future goes back to the free ones
    have hin : p.trackId ∈ s.held := Thread.mem_held.mpr (List.mem_of_getElem? hfut)
    have hne : p.trackId ≠ 0 := h.ne_zero (List.mem_append_right _ hin)
    have hheld : (p.trackId :: (s.polled p outer true).held).Perm s.held :=
      perm_filterMap_set (fun fut : Option TrackedFuture => fut.bind TrackedFuture.trackId) hfut
        (some ⟨none⟩)
    have hpool : s.alloc.release p.trackId =
        { s.alloc with availableIds := s.alloc.availableIds ++ [p.trackId] } := if_pos hne
    have hids : ((s.polled p outer true).alloc.availableIds ++ (s.polled p outer true).held).Perm
        (s.alloc.availableIds ++ s.held) := by
      have heq : (s.polled p outer true).alloc.availableIds =
          s.alloc.availableIds ++ [p.trackId] := congrArg TrackIdAllocator.availableIds hpool
      rw [heq, List.append_assoc]
      exact hheld.append_left _
    have hnext : (s.polled p outer true).alloc.nextId = s.alloc.nextId := by
      show (s.alloc.release p.trackId).nextId = s.alloc.nextId
      rw [hpool]
    refine ⟨hnext ▸ hids.trans h.ids, hnext ▸ h.next, (countP_isSome_set hfut).trans_le h.live,
      fun id => (h.handedOut id).trans hids.mem_iff.symm, hrestores.1, hrestores.2,
      fun q hq => ?_, hnodup⟩
    have hother : p.future ≠ q.future := fun he => hnot (he ▸ List.mem_map_of_mem hq)
    exact (List.getElem?_set_ne hother).trans (houter q hq)

/-- **A future without an id is dropped.** -/
theorem Inv.drop (h : Inv c₀ s) (hfut : s.futs[f]? = some (some ⟨none⟩))
    (hf : f ∉ s.polling.map Polling.future) : Inv c₀ { s with futs := s.futs.set f none } := by
  have hheld : (Thread.held { s with futs := s.futs.set f none }).Perm s.held :=
    perm_filterMap_set (fun fut : Option TrackedFuture => fut.bind TrackedFuture.trackId) hfut none
  have hids := hheld.append_left s.alloc.availableIds
  have hlive : (s.futs.set f none).countP Option.isSome ≤ s.futs.countP Option.isSome := by
    obtain ⟨hlt, hget⟩ := List.getElem?_eq_some_iff.mp hfut
    rw [List.countP_set hlt]
    exact Nat.sub_le ..
  refine ⟨hids.trans h.ids, h.next, hlive.trans h.live,
    fun id => (h.handedOut id).trans hids.mem_iff.symm, h.current, h.restores, fun p hp => ?_,
    h.nodup⟩
  have hne : f ≠ p.future := fun he => hf (he ▸ List.mem_map_of_mem hp)
  exact (List.getElem?_set_ne hne).trans (h.polled p hp)

/-- **An event that leaks no id** keeps the invariant. -/
theorem Inv.step (h : Inv c₀ s) (hleak : ¬Leaks s e) (hs : Track.step s e = some s') :
    Inv c₀ s' := by
  cases e with
  | create =>
    obtain ⟨hlt, hs⟩ := Option.ite_none_right_eq_some.mp hs
    obtain rfl := Option.some.inj hs
    exact h.create hlt
  | poll f =>
    obtain ⟨fut, hfut, hs⟩ := Option.bind_eq_some_iff.mp hs
    obtain ⟨hf, hs⟩ := Option.ite_none_left_eq_some.mp hs
    obtain rfl := Option.some.inj hs
    exact h.poll (Option.join_eq_some_iff.mp hfut) hf
  | polled ready =>
    rcases hp : s.polling with - | ⟨p, outer⟩
    · rw [Track.step, hp] at hs
      cases hs
    · rw [Track.step, hp] at hs
      obtain rfl := Option.some.inj hs
      exact h.polled_end hp ready
  | drop f =>
    obtain ⟨⟨- | id⟩, hfut, hs⟩ := Option.bind_eq_some_iff.mp hs
    · obtain ⟨hf, hs⟩ := Option.ite_none_left_eq_some.mp hs
      obtain rfl := Option.some.inj hs
      exact h.drop (Option.join_eq_some_iff.mp hfut) hf
    · exact absurd ⟨id, Option.join_eq_some_iff.mp hfut⟩ hleak

/-- **A future dropped with its id**: nobody has the id any more. -/
theorem Inv.not_conserved (h : Inv c₀ s) (hleak : Leaks s e) (hs : Track.step s e = some s') :
    ¬Conserved c₀ s' := by
  cases e with
  | drop f =>
    obtain ⟨id, hfut⟩ := hleak
    obtain ⟨-, -, hs⟩ := Option.bind_eq_some_iff.mp hs
    obtain ⟨-, hs⟩ := Option.ite_none_left_eq_some.mp hs
    obtain rfl := Option.some.inj hs
    intro hcons
    have hheld : (id :: Thread.held { s with futs := s.futs.set f none }).Perm s.held :=
      perm_filterMap_set (fun fut : Option TrackedFuture => fut.bind TrackedFuture.trackId) hfut
        none
    have hgiven : id ∈ s.handedOut :=
      (h.handedOut id).mpr (List.mem_append_right _ (hheld.mem_iff.mp List.mem_cons_self))
    -- it was held once, by the future that is gone
    have hbefore := h.conserved.once id hgiven
    have hafter := hcons.once id hgiven
    have hcount := hheld.count_eq id
    rw [← Thread.count_held] at hbefore
    rw [← Thread.count_held { s with futs := s.futs.set f none }] at hafter
    rw [List.count_cons_self] at hcount
    dsimp only at hafter
    omega
  | create | poll | polled => exact hleak.elim

end Steps

/-- **When track ids are conserved.** In a run of a thread, in every state each id that was
handed out is once in the pool or with one future, no other id is, none is `0`, and the
current id is that of the innermost poll, and outside all polls what it was at the start,
if and only if no future is dropped that has been polled and is not completed. -/
theorem track_ids_conserved_iff (c₀ : UInt64) (es : List Event) :
    Always step (Conserved c₀) (start c₀) es ↔
      EachStep step (fun s e => ¬Leaks s e) (start c₀) es := by
  refine always_iff_eachStep (fun _ (h : Inv c₀ _) => h.conserved) ?_ ?_ (inv_start c₀)
    (eachStep_true es)
  · intro s e s' h _ hleak hs
    exact h.step hleak hs
  · intro s e s' h _ hleak hs
    exact h.not_conserved (not_not.mp hleak) hs

/-- **A task that is cancelled**: it was polled once, and its id is lost. -/
theorem cancelled_id_lost : ∃ s, runList step (start 0) [.create, .poll 0, .polled false,
    .drop 0] = some s ∧ ¬Conserved 0 s ∧ s.handedOut = [1] ∧ s.alloc.availableIds = [] ∧
      s.live = 0 := by
  refine ⟨_, rfl, fun h => ?_, by decide⟩
  exact absurd (h.once 1 (by decide)) (by decide)

end Track

end Pluvio
