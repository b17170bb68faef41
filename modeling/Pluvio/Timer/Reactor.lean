import Mathlib.Algebra.GroupWithZero.Nat
import Mathlib.Data.Prod.Lex
import Pluvio.OrdMap
import Pluvio.Runs
import Pluvio.Runtime.Reactor

/-!
# The timer reactor

The timers of a thread are a map from handles to wakers, ordered by deadline and
then by the number the process-wide `COUNTER` gave the handle. A poll takes out
the entries up to the sentinel `max_at(now)`, the largest handle of the instant,
and wakes them one by one; a counter beside the map is kept for `status`.

What is due is said without the map, from three lists of what a program saw of the
reactor: the handles `register_timer` returned, those for which `cancel_timer`
returned `true`, and the wakers that were woken, with the instant
(`Pluvio.Timer.System.pending`). That the reactor does what these lists ask for is
`Pluvio.Timer.Exact`. It rests on one thing only, that no handle is given out
twice, and `COUNTER`, a `u64`, begins again after `2 ^ 64` handles.
-/

namespace Pluvio

namespace Timer

variable {T W : Type*} [LinearOrder T]

/-! ### Handles -/

/-- `TimerHandle`: a deadline and a number. -/
structure TimerHandle (T : Type*) where
  deadline : T
  id : UInt64

namespace TimerHandle

/-- The derived order: by deadline, then by number. -/
def toPair (h : TimerHandle T) : T ×ₗ ℕ := toLex (h.deadline, h.id.toNat)

omit [LinearOrder T] in
theorem toPair_injective : Function.Injective (toPair (T := T)) := by
  rintro ⟨d, i⟩ ⟨d', i'⟩ h
  obtain ⟨hd, hi⟩ := Prod.mk.inj (toLex_inj.mp h)
  exact congrArg₂ TimerHandle.mk hd (UInt64.toNat_inj.mp hi)

instance : LinearOrder (TimerHandle T) := LinearOrder.lift' toPair toPair_injective

/-- `TimerHandle::max_at`: the sentinel for all handles up to an instant. -/
def maxAt (deadline : T) : TimerHandle T := ⟨deadline, 0xffffffffffffffff⟩

/-- **The sentinel** has the handles due at its instant below it, and no others. -/
theorem le_maxAt_iff {h : TimerHandle T} {now : T} : h ≤ maxAt now ↔ h.deadline ≤ now := by
  have hid : h.id.toNat ≤ (maxAt now).id.toNat := by
    have hlt := h.id.toNat_lt
    have hmax : (maxAt now).id.toNat = 2 ^ 64 - 1 := by simp [maxAt]
    omega
  change toPair h ≤ toPair (maxAt now) ↔ _
  rw [toPair, toPair, Prod.Lex.toLex_le_toLex]
  constructor
  · rintro (hlt | ⟨heq, -⟩)
    · exact hlt.le
    · exact heq.le
  · intro hle
    rcases hle.lt_or_eq with hlt | heq
    · exact Or.inl hlt
    · exact Or.inr ⟨heq, hid⟩

end TimerHandle

/-! ### The reactor -/

/-- `TimerReactor`. -/
structure TimerReactor (T W : Type*) [LinearOrder T] where
  timers : OrdMap (TimerHandle T) W
  /-- How many timers there are, for `status` to read. -/
  timerCountAtomic : UInt64

namespace TimerReactor

/-- `TimerReactor::new`. -/
def new : TimerReactor T W := ⟨.empty, 0⟩

/-- `register_timer`, which is given the number `TimerHandle::new` draws. -/
def registerTimer (r : TimerReactor T W) (handle : TimerHandle T) (waker : W) :
    TimerReactor T W :=
  ⟨r.timers.insert handle waker, r.timerCountAtomic + 1⟩

/-- `cancel_timer`. -/
def cancelTimer (r : TimerReactor T W) (handle : TimerHandle T) : Bool × TimerReactor T W :=
  let removed := (r.timers.get handle).isSome
  (removed, ⟨r.timers.remove handle,
    if removed then r.timerCountAtomic - 1 else r.timerCountAtomic⟩)

/-- The loop of `wake_expired_timers`: the wakers woken, in order, each with the
handle it was under. -/
def wakeLoop : List (TimerHandle T) → TimerReactor T W →
    TimerReactor T W × List (TimerHandle T × W)
  | [], r => (r, [])
  | handle :: expired, r =>
    match r.timers.get handle with
    | some waker =>
      let p := wakeLoop expired ⟨r.timers.remove handle, r.timerCountAtomic - 1⟩
      (p.1, (handle, waker) :: p.2)
    | none => wakeLoop expired r

/-- `wake_expired_timers`: the number returned, the reactor after it, and the
wakers woken. -/
def wakeExpiredTimers (r : TimerReactor T W) (now : T) :
    ℕ × TimerReactor T W × List (TimerHandle T × W) :=
  if r.timers.isEmpty then (0, r, [])
  else if r.timers.firstKeyValue.any fun first => now < first.1.deadline then (0, r, [])
  else
    let expired := (r.timers.rangeTo (.maxAt now)).map (·.1)
    (expired.length, wakeLoop expired r)

/-- `TimerReactor::status`. -/
def status (r : TimerReactor T W) : ReactorStatus :=
  if 0 < r.timerCountAtomic then .running else .stopped

/-- The entries that are due at an instant. -/
def due (r : TimerReactor T W) (now : T) : List (TimerHandle T × W) :=
  r.timers.entries.filter (·.1.deadline ≤ now)

section Facts

variable {r : TimerReactor T W} {now : T}

theorem due_eq (r : TimerReactor T W) (now : T) : r.due now = r.timers.rangeTo (.maxAt now) :=
  List.filter_congr fun _ _ => decide_eq_decide.mpr TimerHandle.le_maxAt_iff.symm

theorem mem_due {e : TimerHandle T × W} :
    e ∈ r.due now ↔ e ∈ r.timers.entries ∧ e.1.deadline ≤ now := by
  simp [due]

/-- **The loop wakes the entries it is given** when they are the first ones of the
map. -/
theorem wakeLoop_eq (l rest : List (TimerHandle T × W)) :
    ∀ r : TimerReactor T W, r.timers.entries = l ++ rest →
      (wakeLoop (l.map (·.1)) r).2 = l ∧
      (wakeLoop (l.map (·.1)) r).1.timers.entries = rest ∧
      (wakeLoop (l.map (·.1)) r).1.timerCountAtomic =
        r.timerCountAtomic - UInt64.ofNat l.length := by
  induction l with
  | nil => exact fun r hr => ⟨rfl, hr, (UInt64.sub_zero _).symm⟩
  | cons e l ih =>
    intro r hr
    obtain ⟨hget, hremove⟩ := OrdMap.remove_first hr
    obtain ⟨h₁, h₂, h₃⟩ := ih ⟨r.timers.remove e.1, r.timerCountAtomic - 1⟩ hremove
    rw [List.map_cons, wakeLoop, hget]
    refine ⟨congrArg (e :: ·) h₁, h₂, h₃.trans ?_⟩
    rw [List.length_cons, Nat.add_comm, UInt64.ofNat_add]
    grind

/-- **A poll takes out the entries that are due**, in order, and no others. -/
theorem wakeExpiredTimers_eq (r : TimerReactor T W) (now : T) :
    (r.wakeExpiredTimers now).1 = (r.due now).length ∧
    (r.wakeExpiredTimers now).2.2 = r.due now ∧
    (r.wakeExpiredTimers now).2.1.timers.entries = r.timers.entries.filter (now < ·.1.deadline) ∧
    (r.wakeExpiredTimers now).2.1.timerCountAtomic =
      r.timerCountAtomic - UInt64.ofNat (r.due now).length := by
  have hrest : r.timers.entries.filter (now < ·.1.deadline) =
      r.timers.entries.filter (TimerHandle.maxAt now < ·.1) :=
    List.filter_congr fun e _ => by
      rw [decide_eq_decide, ← not_le, ← not_le, TimerHandle.le_maxAt_iff]
  have hsplit := r.timers.rangeTo_append (.maxAt now)
  -- both early exits leave when nothing is due
  have hquit : r.timers.rangeTo (.maxAt now) = [] →
      (0 : ℕ) = (r.due now).length ∧ [] = r.due now ∧
      r.timers.entries = r.timers.entries.filter (now < ·.1.deadline) ∧
      r.timerCountAtomic = r.timerCountAtomic - UInt64.ofNat (r.due now).length := by
    intro hnil
    rw [hnil, List.nil_append] at hsplit
    rw [hrest, hsplit, due_eq, hnil]
    exact ⟨rfl, rfl, rfl, (UInt64.sub_zero _).symm⟩
  unfold wakeExpiredTimers
  split
  · next hempty =>
    exact hquit (by rw [OrdMap.rangeTo, List.isEmpty_iff.mp hempty]; rfl)
  · split
    · next _ hfirst =>
      obtain ⟨first, hf, hlt⟩ := (Option.any_eq_true _ _).mp hfirst
      have hlt : now < first.1.deadline := of_decide_eq_true hlt
      refine hquit (OrdMap.rangeTo_eq_nil hf (not_le.mp fun hle => ?_))
      exact hlt.not_ge (TimerHandle.le_maxAt_iff.mp hle)
    · obtain ⟨h₁, h₂, h₃⟩ := wakeLoop_eq _ _ r hsplit.symm
      rw [hrest, due_eq]
      exact ⟨List.length_map _, h₁, h₂, h₃⟩

end Facts

end TimerReactor

/-! ### Histories -/

/-- A wake: what `wake_expired_timers` took out, and when. -/
structure Wake (T W : Type*) where
  handle : TimerHandle T
  waker : W
  instant : T

/-- The reactor of a thread, `COUNTER`, and what was seen of the reactor. -/
structure System (T W : Type*) [LinearOrder T] where
  counter : UInt64
  reactor : TimerReactor T W
  /-- The handles `register_timer` returned, and the wakers it was given. -/
  registered : List (TimerHandle T × W)
  /-- The handles for which `cancel_timer` returned `true`. -/
  cancelled : List (TimerHandle T)
  woken : List (Wake T W)

/-- What happens to a reactor. -/
inductive Event (T W : Type*)
  | register (deadline : T) (waker : W)
  | cancel (handle : TimerHandle T)
  | poll (now : T)
  /-- `TimerHandle::new` for the reactor of another thread. -/
  | elsewhere

namespace System

/-- A new reactor, in a process that has made no handle. -/
def start : System T W where
  counter := 1
  reactor := .new
  registered := []
  cancelled := []
  woken := []

/-- **The pending timers**: registered, not cancelled and not woken. -/
def pending (s : System T W) : List (TimerHandle T × W) :=
  s.registered.filter fun t => t.1 ∉ s.cancelled ∧ t.1 ∉ s.woken.map (·.handle)

/-- The handle `TimerHandle::new` makes. -/
def nextHandle (s : System T W) (deadline : T) : TimerHandle T := ⟨deadline, s.counter⟩

/-- One event. Every entry of the map is held in memory, so there are fewer than
`2 ^ 64` of them. -/
def step (s : System T W) : Event T W → Option (System T W)
  | .register deadline waker =>
    if s.reactor.timers.len + 1 < 2 ^ 64 then
      some { s with
        counter := s.counter + 1
        reactor := s.reactor.registerTimer (s.nextHandle deadline) waker
        registered := s.registered ++ [(s.nextHandle deadline, waker)] }
    else none
  | .cancel handle =>
    let p := s.reactor.cancelTimer handle
    some { s with
      reactor := p.2
      cancelled := if p.1 then s.cancelled ++ [handle] else s.cancelled }
  | .poll now =>
    let p := s.reactor.wakeExpiredTimers now
    some { s with
      reactor := p.2.1
      woken := s.woken ++ p.2.2.map fun e => ⟨e.1, e.2, now⟩ }
  | .elsewhere => some { s with counter := s.counter + 1 }

end System

/-- **The reactor does what its history asks for.** -/
structure Exact (s : System T W) : Prop where
  /-- The map holds the pending timers. -/
  timers : s.reactor.timers.entries.Perm s.pending
  /-- A cancel succeeds on the pending timers. -/
  cancel : ∀ handle, (s.reactor.cancelTimer handle).1 = true ↔ handle ∈ s.pending.map (·.1)
  /-- A poll wakes the pending timers that are due, each once, by deadline and
  number, and takes exactly these out of the map. -/
  poll : ∀ now, (s.reactor.wakeExpiredTimers now).2.2.Perm
      (s.pending.filter (·.1.deadline ≤ now)) ∧
    ((s.reactor.wakeExpiredTimers now).2.2.map (·.1)).Pairwise (· < ·) ∧
    (s.reactor.wakeExpiredTimers now).1 = (s.pending.filter (·.1.deadline ≤ now)).length ∧
    (s.reactor.wakeExpiredTimers now).2.1.timers.entries.Perm
      (s.pending.filter (now < ·.1.deadline))
  /-- The counter is the number of pending timers. -/
  count : s.reactor.timerCountAtomic.toNat = s.pending.length
  status : s.reactor.status = .running ↔ s.pending ≠ []
  /-- No timer was woken before its deadline, twice, or after it was cancelled. -/
  notEarly : ∀ w ∈ s.woken, w.handle.deadline ≤ w.instant
  once : (s.woken.map (·.handle)).Nodup
  notCancelled : ∀ w ∈ s.woken, w.handle ∉ s.cancelled

/-- `register_timer` returns a handle it did not return before. -/
def FreshHandle (s : System T W) : Event T W → Prop
  | .register deadline _ => s.nextHandle deadline ∉ s.registered.map (·.1)
  | _ => True

/-! ### The invariant -/

/-- The map holds the pending timers, whose handles are all different. -/
structure Tracked (s : System T W) : Prop where
  timers : s.reactor.timers.entries.Perm s.pending
  handles : (s.registered.map (·.1)).Nodup
  count : s.reactor.timerCountAtomic = UInt64.ofNat s.reactor.timers.len
  small : s.reactor.timers.len < 2 ^ 64
  cancelled : ∀ h ∈ s.cancelled, h ∈ s.registered.map (·.1)
  woken : ∀ w ∈ s.woken, w.handle ∈ s.registered.map (·.1)
  notEarly : ∀ w ∈ s.woken, w.handle.deadline ≤ w.instant
  once : (s.woken.map (·.handle)).Nodup
  notCancelled : ∀ w ∈ s.woken, w.handle ∉ s.cancelled

section Tracked

variable {s s' : System T W}

theorem tracked_start : Tracked (System.start : System T W) where
  timers := List.Perm.refl _
  handles := List.nodup_nil
  count := rfl
  small := Nat.two_pow_pos 64
  cancelled := by simp [System.start]
  woken := by simp [System.start]
  notEarly := by simp [System.start]
  once := List.nodup_nil
  notCancelled := by simp [System.start]

theorem System.mem_pending {t : TimerHandle T × W} :
    t ∈ s.pending ↔ t ∈ s.registered ∧ t.1 ∉ s.cancelled ∧ ∀ w ∈ s.woken, w.handle ≠ t.1 := by
  simp [pending, List.mem_filter]

theorem Tracked.count_eq (h : Tracked s) :
    s.reactor.timerCountAtomic.toNat = s.reactor.timers.len := by
  rw [h.count, UInt64.toNat_ofNat', Nat.mod_eq_of_lt h.small]

/-- **What is tracked is exact.** -/
theorem Tracked.exact (h : Tracked s) : Exact s where
  timers := h.timers
  cancel := fun handle => by
    rw [TimerReactor.cancelTimer, OrdMap.isSome_get_iff]
    exact (h.timers.map _).mem_iff
  poll := fun now => by
    obtain ⟨hcount, hwoken, hrest, -⟩ := s.reactor.wakeExpiredTimers_eq now
    have hdue : (s.reactor.due now).Perm (s.pending.filter (·.1.deadline ≤ now)) :=
      h.timers.filter _
    rw [hcount, hwoken, hrest]
    refine ⟨hdue, ?_, hdue.length_eq, h.timers.filter _⟩
    exact List.pairwise_map.mpr (s.reactor.timers.sorted.filter _)
  count := h.count_eq.trans h.timers.length_eq
  status := by
    have hlt : 0 < s.reactor.timerCountAtomic ↔ 0 < s.reactor.timerCountAtomic.toNat :=
      UInt64.lt_iff_toNat_lt
    have hpos : 0 < s.reactor.timerCountAtomic ↔ s.pending ≠ [] := by
      rw [hlt, h.count_eq, OrdMap.len, h.timers.length_eq, List.length_pos_iff]
    rw [TimerReactor.status, ReactorStatus.ite_eq_running, hpos]
  notEarly := h.notEarly
  once := h.once
  notCancelled := h.notCancelled

/-- **`register_timer` with a fresh handle.** -/
theorem Tracked.register (h : Tracked s) {deadline : T} {waker : W}
    (hsmall : s.reactor.timers.len + 1 < 2 ^ 64)
    (hfresh : s.nextHandle deadline ∉ s.registered.map (·.1)) :
    Tracked { s with
      counter := s.counter + 1
      reactor := s.reactor.registerTimer (s.nextHandle deadline) waker
      registered := s.registered ++ [(s.nextHandle deadline, waker)] } := by
  set handle := s.nextHandle deadline
  have hnew : handle ∉ s.reactor.timers.entries.map (·.1) := fun hc => by
    obtain ⟨t, ht, hth⟩ := List.mem_map.mp ((h.timers.map _).mem_iff.mp hc)
    exact hfresh (hth ▸ List.mem_map_of_mem (System.mem_pending.mp ht).1)
  have hins := OrdMap.insert_perm (v := waker) hnew
  have hlen : (s.reactor.timers.insert handle waker).len = s.reactor.timers.len + 1 :=
    hins.length_eq
  refine ⟨?_, ?_, ?_, ?_, ?_, ?_, h.notEarly, h.once, h.notCancelled⟩
  · have hkeep : (handle ∉ s.cancelled ∧ handle ∉ s.woken.map (·.handle)) := by
      refine ⟨fun hc => hfresh (h.cancelled _ hc), fun hc => ?_⟩
      obtain ⟨w, hw, hwh⟩ := List.mem_map.mp hc
      exact hfresh (hwh ▸ h.woken w hw)
    rw [System.pending, List.filter_append, List.filter_cons_of_pos (by simpa using hkeep)]
    exact hins.trans ((h.timers.cons _).trans (List.perm_append_singleton _ _).symm)
  · rw [List.map_append, List.nodup_append]
    refine ⟨h.handles, by simp, ?_⟩
    simpa using fun a w hw ha => hfresh (List.mem_map.mpr ⟨(a, w), hw, ha⟩)
  · rw [TimerReactor.registerTimer, hlen, UInt64.ofNat_add, ← h.count]
    rfl
  · rw [TimerReactor.registerTimer, hlen]
    exact hsmall
  · exact fun a ha => by
      rw [List.map_append]
      exact List.mem_append_left _ (h.cancelled a ha)
  · exact fun w hw => by
      rw [List.map_append]
      exact List.mem_append_left _ (h.woken w hw)

/-- **`cancel_timer`.** -/
theorem Tracked.cancel (h : Tracked s) (handle : TimerHandle T) :
    Tracked { s with
      reactor := (s.reactor.cancelTimer handle).2
      cancelled := if (s.reactor.cancelTimer handle).1 then s.cancelled ++ [handle]
        else s.cancelled } := by
  have hentries : (s.reactor.cancelTimer handle).2.timers.entries =
      s.reactor.timers.entries.filter (·.1 ≠ handle) := rfl
  cases hget : (s.reactor.timers.get handle).isSome with
  | false =>
    -- there is no such timer, and nothing changes
    have hnone : (s.reactor.cancelTimer handle).1 = false := hget
    have hnot : handle ∉ s.reactor.timers.entries.map (·.1) := fun hc => by
      rw [OrdMap.isSome_get_iff.mpr hc] at hget
      cases hget
    have hsame : (s.reactor.cancelTimer handle).2 = s.reactor := by
      have htimers : s.reactor.timers.remove handle = s.reactor.timers :=
        OrdMap.remove_eq_self hnot
      rw [TimerReactor.cancelTimer, hget, htimers]
      rfl
    rw [hnone, hsame]
    exact h
  | true =>
    -- the timer goes from those that are pending to those that were cancelled
    have hsome : (s.reactor.cancelTimer handle).1 = true := hget
    have hmem := OrdMap.isSome_get_iff.mp hget
    obtain ⟨t, ht, rfl⟩ := List.mem_map.mp hmem
    have hpend := System.mem_pending.mp (h.timers.mem_iff.mp ht)
    have hlen := OrdMap.len_remove hmem
    rw [hsome, if_pos rfl]
    refine ⟨?_, h.handles, ?_, ?_, ?_, h.woken, h.notEarly, h.once, ?_⟩
    · rw [hentries]
      refine (h.timers.filter _).trans (List.Perm.of_eq ?_)
      rw [System.pending, System.pending, List.filter_filter]
      exact List.filter_congr fun e _ => by
        simp only [List.mem_append, List.mem_singleton, not_or, decide_eq_decide, ← Bool.decide_and]
        tauto
    · -- the count was not zero, as the timer was counted
      have hcount : (s.reactor.cancelTimer t.1).2.timerCountAtomic =
          s.reactor.timerCountAtomic - 1 := if_pos hget
      rw [hcount, h.count, ← hlen, UInt64.ofNat_add]
      exact UInt64.add_sub_cancel _ _
    · exact Nat.lt_of_succ_lt (hlen.trans_lt h.small)
    · intro a ha
      rcases List.mem_append.mp ha with ha | ha
      · exact h.cancelled a ha
      · rw [List.mem_singleton.mp ha]
        exact List.mem_map_of_mem hpend.1
    · intro w hw hc
      rcases List.mem_append.mp hc with hc | hc
      · exact h.notCancelled w hw hc
      · exact hpend.2.2 w hw (List.mem_singleton.mp hc)

/-- **`wake_expired_timers`.** -/
theorem Tracked.poll (h : Tracked s) (now : T) :
    Tracked { s with
      reactor := (s.reactor.wakeExpiredTimers now).2.1
      woken := s.woken ++ (s.reactor.wakeExpiredTimers now).2.2.map fun e => ⟨e.1, e.2, now⟩ } := by
  obtain ⟨-, hwoken, hrest, hcount⟩ := s.reactor.wakeExpiredTimers_eq now
  rw [hwoken]
  have hmap : ((s.reactor.due now).map fun e => (⟨e.1, e.2, now⟩ : Wake T W)).map (·.handle) =
      (s.reactor.due now).map (·.1) := by
    rw [List.map_map]
    rfl
  have hpend : ∀ e ∈ s.reactor.due now, e ∈ s.pending := fun e he =>
    h.timers.mem_iff.mp (TimerReactor.mem_due.mp he).1
  have hlen : (s.reactor.wakeExpiredTimers now).2.1.timers.len + (s.reactor.due now).length =
      s.reactor.timers.len := by
    have hperm := List.filter_append_perm
      (fun e : TimerHandle T × W => decide (now < e.1.deadline)) s.reactor.timers.entries
    have hdue : s.reactor.due now =
        s.reactor.timers.entries.filter fun e => !decide (now < e.1.deadline) :=
      List.filter_congr fun e _ => by simp [← not_lt]
    rw [OrdMap.len, hrest, hdue, ← List.length_append]
    exact hperm.length_eq
  refine ⟨?_, h.handles, ?_, ?_, h.cancelled, ?_, ?_, ?_, ?_⟩
  · rw [hrest]
    refine (h.timers.filter _).trans (List.Perm.of_eq ?_)
    rw [System.pending, System.pending, List.filter_filter]
    refine List.filter_congr fun e he => ?_
    rw [List.map_append, hmap]
    -- of the pending timers those that are due are woken now
    have hin : e.1 ∉ s.cancelled → e.1 ∉ s.woken.map (·.handle) →
        (e.1 ∈ (s.reactor.due now).map (·.1) ↔ e.1.deadline ≤ now) := by
      intro hc hw
      have hmem : e ∈ s.reactor.timers.entries :=
        h.timers.mem_iff.mpr (List.mem_filter.mpr ⟨he, decide_eq_true ⟨hc, hw⟩⟩)
      constructor
      · intro hd
        obtain ⟨d, hd, hde⟩ := List.mem_map.mp hd
        exact hde ▸ (TimerReactor.mem_due.mp hd).2
      · exact fun hle => List.mem_map_of_mem (TimerReactor.mem_due.mpr ⟨hmem, hle⟩)
    simp only [List.mem_append, not_or, decide_eq_decide, ← Bool.decide_and]
    constructor
    · rintro ⟨hlt, hc, hw⟩
      exact ⟨hc, hw, fun hd => hlt.not_ge ((hin hc hw).mp hd)⟩
    · rintro ⟨hc, hw, hd⟩
      exact ⟨not_le.mp fun hle => hd ((hin hc hw).mpr hle), hc, hw⟩
  · rw [hcount, h.count, ← hlen, UInt64.ofNat_add]
    exact UInt64.add_sub_cancel _ _
  · have := h.small
    change (s.reactor.wakeExpiredTimers now).2.1.timers.len < 2 ^ 64
    omega
  · intro w hw
    rcases List.mem_append.mp hw with hw | hw
    · exact h.woken w hw
    · obtain ⟨e, he, rfl⟩ := List.mem_map.mp hw
      exact List.mem_map_of_mem (System.mem_pending.mp (hpend e he)).1
  · intro w hw
    rcases List.mem_append.mp hw with hw | hw
    · exact h.notEarly w hw
    · obtain ⟨e, he, rfl⟩ := List.mem_map.mp hw
      exact (TimerReactor.mem_due.mp he).2
  · rw [List.map_append, hmap, List.nodup_append]
    refine ⟨h.once, ?_, ?_⟩
    · exact (List.Sublist.map _ List.filter_sublist).nodup s.reactor.timers.nodup_keys
    · rintro a ha b hb rfl
      obtain ⟨w, hw, rfl⟩ := List.mem_map.mp ha
      obtain ⟨e, he, hew⟩ := List.mem_map.mp hb
      exact (System.mem_pending.mp (hpend e he)).2.2 w hw hew.symm
  · intro w hw
    rcases List.mem_append.mp hw with hw | hw
    · exact h.notCancelled w hw
    · obtain ⟨e, he, rfl⟩ := List.mem_map.mp hw
      exact (System.mem_pending.mp (hpend e he)).2.1

/-- **One event keeps the invariant**, if it makes no handle a second time. -/
theorem Tracked.step (h : Tracked s) {e : Event T W} (hG : FreshHandle s e)
    (hs : s.step e = some s') : Tracked s' := by
  cases e with
  | register deadline waker =>
    rw [System.step] at hs
    split at hs
    · next hsmall => exact Option.some.inj hs ▸ h.register hsmall hG
    · cases hs
  | cancel handle => exact Option.some.inj hs ▸ h.cancel handle
  | poll now => exact Option.some.inj hs ▸ h.poll now
  | elsewhere =>
    obtain rfl := Option.some.inj hs
    exact ⟨h.timers, h.handles, h.count, h.small, h.cancelled, h.woken, h.notEarly, h.once,
      h.notCancelled⟩

/-- **A handle made twice** stands for two timers, and the map has room for one. -/
theorem not_exact_of_reused {e : Event T W} (hG : ¬FreshHandle s e)
    (hs : s.step e = some s') : ¬Exact s' := by
  cases e with
  | register deadline waker =>
    rw [System.step] at hs
    split at hs
    · obtain rfl := Option.some.inj hs
      intro hexact
      set handle := s.nextHandle deadline
      obtain ⟨t, ht, hth⟩ := List.mem_map.mp (not_not.mp hG)
      have hperm := hexact.timers
      have hin : (handle, waker) ∈ (s.reactor.timers.insert handle waker).entries :=
        OrdMap.mem_insert.mpr (Or.inl rfl)
      have hkeep := (List.mem_filter.mp (hperm.mem_iff.mp hin)).2
      have hnodup := (hperm.map (·.1)).nodup_iff.mp (OrdMap.nodup_keys _)
      -- the earlier timer and the new one are both pending
      rw [System.pending, List.filter_append, List.map_append, List.nodup_append] at hnodup
      refine hnodup.2.2 handle ?_ handle ?_ rfl
      · exact List.mem_map.mpr ⟨t, List.mem_filter.mpr ⟨ht, by rw [hth]; exact hkeep⟩, hth⟩
      · exact List.mem_map.mpr
          ⟨(handle, waker), List.mem_filter.mpr ⟨List.mem_singleton_self _, hkeep⟩, rfl⟩
    · cases hs
  | cancel handle => exact absurd trivial hG
  | poll now => exact absurd trivial hG
  | elsewhere => exact absurd trivial hG

end Tracked

/-! ### Runs -/

/-- **When the timer reactor fires exactly the due timers.** Along a history of
registrations, cancels and polls it does so in every state if and only if no
registration is given a handle that one before it was given. -/
theorem timers_exact_iff (events : List (Event T W)) :
    Always System.step Exact System.start events ↔
      EachStep System.step FreshHandle (System.start : System T W) events := by
  refine always_iff_eachStep (fun s (h : Tracked s) => h.exact) ?_ ?_ tracked_start
    (eachStep_true events)
  · exact fun s e s' h _ hfresh hs => h.step hfresh hs
  · exact fun s e s' _ _ hreused hs => not_exact_of_reused hreused hs

/-- How many handles an event makes. -/
def Event.draws : Event T W → ℕ
  | .register _ _ | .elsewhere => 1
  | .cancel _ | .poll _ => 0

/-- The handles made so far have the first `k` numbers. -/
structure Numbered (s : System T W) (k : ℕ) : Prop where
  counter : s.counter = UInt64.ofNat (k + 1)
  registered : ∀ t ∈ s.registered, ∃ j < k, t.1.id = UInt64.ofNat (j + 1)

section Numbered

variable {s s' : System T W} {k : ℕ}

theorem numbered_start : Numbered (System.start : System T W) 0 :=
  ⟨rfl, by simp [System.start]⟩

theorem Numbered.step (h : Numbered s k) {e : Event T W} (hs : s.step e = some s') :
    Numbered s' (k + e.draws) := by
  have hcounter : s.counter + 1 = UInt64.ofNat (k + 1 + 1) :=
    h.counter ▸ (UInt64.ofNat_add (k + 1) 1).symm
  have hold : ∀ t ∈ s.registered, ∃ j < k + 1, t.1.id = UInt64.ofNat (j + 1) := fun t ht =>
    let ⟨j, hj, hid⟩ := h.registered t ht
    ⟨j, Nat.lt_succ_of_lt hj, hid⟩
  cases e with
  | register deadline waker =>
    rw [System.step] at hs
    split at hs
    · obtain rfl := Option.some.inj hs
      refine ⟨hcounter, fun t ht => ?_⟩
      rcases List.mem_append.mp ht with ht | ht
      · exact hold t ht
      · rw [List.mem_singleton.mp ht]
        exact ⟨k, Nat.lt_succ_self k, h.counter⟩
    · cases hs
  | cancel handle => exact Option.some.inj hs ▸ ⟨h.counter, h.registered⟩
  | poll now => exact Option.some.inj hs ▸ ⟨h.counter, h.registered⟩
  | elsewhere => exact Option.some.inj hs ▸ ⟨hcounter, hold⟩

/-- A number below `2 ^ 64` is the next one. -/
theorem Numbered.fresh (h : Numbered s k) {e : Event T W} (hk : k + e.draws ≤ 2 ^ 64) :
    FreshHandle s e := by
  cases e with
  | register deadline waker =>
    intro hc
    obtain ⟨t, ht, hth⟩ := List.mem_map.mp hc
    obtain ⟨j, hj, hid⟩ := h.registered t ht
    rw [hth, System.nextHandle, h.counter] at hid
    have hmod := congrArg UInt64.toNat hid
    rw [UInt64.toNat_ofNat', UInt64.toNat_ofNat'] at hmod
    have hk : k + 1 ≤ 2 ^ 64 := hk
    omega
  | cancel handle => trivial
  | poll now => trivial
  | elsewhere => trivial

/-- **The first `2 ^ 64` handles** of a process are all different. -/
theorem Numbered.eachStep_fresh {events : List (Event T W)} (h : Numbered s k)
    (hk : k + (events.map Event.draws).sum ≤ 2 ^ 64) :
    EachStep System.step FreshHandle s events := by
  induction events generalizing s k with
  | nil => trivial
  | cons e events ih =>
    rw [List.map_cons, List.sum_cons] at hk
    exact fun s' hs => ⟨h.fresh (by omega), ih (h.step hs) (by omega)⟩

end Numbered

/-- The other reactors of the process make handles. -/
theorem runList_elsewhere (s : System T W) (n : ℕ) :
    runList System.step s (List.replicate n .elsewhere) =
      some { s with counter := s.counter + UInt64.ofNat n } := by
  induction n generalizing s with
  | zero =>
    have hzero : s.counter + UInt64.ofNat 0 = s.counter := UInt64.add_zero _
    rw [hzero]
    rfl
  | succ n ih =>
    rw [List.replicate_succ, runList, System.step, Option.bind_some, ih, Nat.add_comm n 1,
      UInt64.ofNat_add, ← UInt64.add_assoc]
    rfl

/-- **Two timers with one handle**: between two registrations at one deadline the
other threads of the process make `2 ^ 64 - 1` handles. -/
theorem timers_collide :
    ¬Always System.step Exact (System.start : System ℕ ℕ)
      ([.register 5 0] ++ List.replicate (2 ^ 64 - 1) .elsewhere ++ [.register 5 1]) := by
  intro hall
  generalize hn : 2 ^ 64 - 1 = n at hall
  have hwrap : (2 : UInt64) + UInt64.ofNat n = 1 := by rw [← hn]; rfl
  obtain ⟨s, hs⟩ : ∃ s, (System.start : System ℕ ℕ).step (.register 5 0) = some s := ⟨_, rfl⟩
  have hcounter : s.counter = 2 := Option.some.inj hs ▸ rfl
  have hreg : s.registered = [(⟨5, 1⟩, 0)] := Option.some.inj hs ▸ rfl
  have hlen : s.reactor.timers.len = 1 := Option.some.inj hs ▸ rfl
  have hrun : runList System.step System.start ([.register 5 0] ++ List.replicate n .elsewhere) =
      some { s with counter := s.counter + UInt64.ofNat n } := by
    rw [runList_append, runList, hs, Option.bind_some, runList, Option.bind_some, runList_elsewhere]
  set t : System ℕ ℕ := { s with counter := s.counter + UInt64.ofNat n } with ht
  have hreused : ¬FreshHandle t (.register 5 1) := by
    have hnext : t.nextHandle 5 = ⟨5, 1⟩ := by rw [System.nextHandle, ht, hcounter, hwrap]
    rw [FreshHandle, hnext, ht, hreg]
    simp
  obtain ⟨u, hu⟩ : ∃ u, t.step (.register 5 1) = some u := by
    rw [System.step, if_pos (by rw [hlen]; decide)]
    exact ⟨_, rfl⟩
  refine not_exact_of_reused hreused hu (hall.last ?_)
  rw [runList_append, hrun, Option.bind_some, runList, hu]
  rfl

end Timer

end Pluvio
