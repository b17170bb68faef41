import Pluvio.Timer.Reactor

/-!
# Delays and timeouts

A `Delay` registers a timer the first time its poll returns `Pending`, with the
waker of that poll, and cancels it when it is dropped. The later polls that return
`Pending` leave the timer as it is, so the waker the reactor will wake is the first
one and not the latest one.

Everything else holds without a condition on the wakers: a poll after the deadline
is reached returns `Ready`, and a dropped future has no timer. What a future needs
for its latest waker is that a future was first polled with it, itself or another
one, to whose deadline the reactor comes in time (`Pluvio.Timer.Known`); it is enough
that every future is always polled with the waker of its first pending poll.
-/

namespace Pluvio

namespace Timer

variable {T W ρ : Type*} [LinearOrder T]

/-! ### The futures -/

/-- `std::task::Poll`. -/
inductive Poll (α : Type*)
  | ready (v : α)
  | pending
  deriving DecidableEq

def Poll.isReady {α : Type*} : Poll α → Bool
  | .ready _ => true
  | .pending => false

/-- `Delay`, without the reference to the reactor of its thread. -/
structure Delay (T : Type*) where
  deadline : T
  timerHandle : Option (TimerHandle T)

/-- What a poll leaves: its result, the future, the reactor and `COUNTER`. -/
structure Polled (α F T W : Type*) [LinearOrder T] where
  result : Poll α
  future : F
  reactor : TimerReactor T W
  counter : UInt64

namespace Delay

/-- `Delay::new_at`. -/
def newAt (deadline : T) : Delay T := ⟨deadline, none⟩

/-- `Delay::poll` at the instant `now`. -/
def poll (d : Delay T) (r : TimerReactor T W) (counter : UInt64) (now : T) (waker : W) :
    Polled Unit (Delay T) T W :=
  if d.deadline ≤ now then ⟨.ready (), d, r, counter⟩
  else match d.timerHandle with
    | none =>
      let handle : TimerHandle T := ⟨d.deadline, counter⟩
      ⟨.pending, { d with timerHandle := some handle }, r.registerTimer handle waker, counter + 1⟩
    | some _ => ⟨.pending, d, r, counter⟩

/-- `Delay::drop`. -/
def drop (d : Delay T) (r : TimerReactor T W) : TimerReactor T W :=
  match d.timerHandle with
  | some handle => (r.cancelTimer handle).2
  | none => r

end Delay

/-- `TimeoutError`. -/
inductive TimeoutError
  | mk
  deriving DecidableEq

/-- `Timeout`. -/
structure Timeout (T : Type*) where
  /-- The user's future has not been dropped. -/
  future : Bool
  delay : Delay T

namespace Timeout

/-- `Timeout::new_at`. -/
def newAt (deadline : T) : Timeout T := ⟨true, .newAt deadline⟩

/-- The second half of `Timeout::poll`: has the timeout expired? -/
def pollDelay (t : Timeout T) (r : TimerReactor T W) (counter : UInt64) (now : T) (waker : W) :
    Polled (Except TimeoutError ρ) (Timeout T) T W :=
  let p := t.delay.poll r counter now waker
  match p.result with
  | .ready () => ⟨.ready (.error .mk), ⟨false, p.future⟩, p.reactor, p.counter⟩
  | .pending => ⟨.pending, { t with delay := p.future }, p.reactor, p.counter⟩

/-- `Timeout::poll`; `answer` is what the user's future says when it is polled. -/
def poll (t : Timeout T) (answer : Poll ρ) (r : TimerReactor T W) (counter : UInt64) (now : T)
    (waker : W) : Polled (Except TimeoutError ρ) (Timeout T) T W :=
  match t.future, answer with
  | true, .ready result => ⟨.ready (.ok result), { t with future := false }, r, counter⟩
  | _, _ => t.pollDelay r counter now waker

end Timeout

/-- A future of this crate. -/
inductive Fut (T : Type*)
  | delay (d : Delay T)
  | timeout (t : Timeout T)

namespace Fut

/-- The `Delay` of the future. -/
def timer : Fut T → Delay T
  | .delay d => d
  | .timeout t => t.delay

/-- A poll of the future; only a `Timeout` has a user's future to ask. Whether it
returned `Ready`, and what it leaves. -/
def poll (f : Fut T) (answer : Poll ρ) (r : TimerReactor T W) (counter : UInt64) (now : T)
    (waker : W) : Bool × Fut T × TimerReactor T W × UInt64 :=
  match f with
  | .delay d =>
    let p := d.poll r counter now waker
    (p.result.isReady, .delay p.future, p.reactor, p.counter)
  | .timeout t =>
    let p := t.poll answer r counter now waker
    (p.result.isReady, .timeout p.future, p.reactor, p.counter)

section Facts

variable (r : TimerReactor T W) (counter : UInt64) (now : T) (waker : W)

/-- **What a poll of a `Delay` does.** -/
theorem delay_poll_cases (d : Delay T) :
    (d.deadline ≤ now ∧ d.poll r counter now waker = ⟨.ready (), d, r, counter⟩) ∨
    (now < d.deadline ∧ (∃ h, d.timerHandle = some h) ∧
      d.poll r counter now waker = ⟨.pending, d, r, counter⟩) ∨
    (now < d.deadline ∧ d.timerHandle = none ∧
      d.poll r counter now waker = ⟨.pending, ⟨d.deadline, some ⟨d.deadline, counter⟩⟩,
        r.registerTimer ⟨d.deadline, counter⟩ waker, counter + 1⟩) := by
  unfold Delay.poll
  rcases le_or_gt d.deadline now with hle | hlt
  · exact Or.inl ⟨hle, if_pos hle⟩
  · rw [if_neg hlt.not_ge]
    cases hh : d.timerHandle with
    | some h => exact Or.inr (Or.inl ⟨hlt, ⟨h, rfl⟩, rfl⟩)
    | none => exact Or.inr (Or.inr ⟨hlt, rfl, rfl⟩)

/-- A poll of a `Timeout` ends with the user's future, or asks the delay. -/
theorem timeout_poll_cases (t : Timeout T) (answer : Poll ρ) :
    (∃ result, t.poll answer r counter now waker =
      ⟨.ready (.ok result), { t with future := false }, r, counter⟩) ∨
    t.poll answer r counter now waker = t.pollDelay r counter now waker := by
  obtain ⟨future, d⟩ := t
  cases future with
  | false => exact Or.inr rfl
  | true =>
    cases answer with
    | ready result => exact Or.inl ⟨result, rfl⟩
    | pending => exact Or.inr rfl

/-- **What a poll does**: it returns `Ready` and leaves the timer alone, or it
returns `Pending` before the deadline, with a timer that was there or that it
registered. -/
theorem poll_cases (f : Fut T) (answer : Poll ρ) :
    ∃ f' : Fut T,
      (f'.timer = f.timer ∧ f.poll answer r counter now waker = (true, f', r, counter)) ∨
      (now < f.timer.deadline ∧ (∃ h, f.timer.timerHandle = some h) ∧ f'.timer = f.timer ∧
        f.poll answer r counter now waker = (false, f', r, counter)) ∨
      (now < f.timer.deadline ∧ f.timer.timerHandle = none ∧
        f'.timer = ⟨f.timer.deadline, some ⟨f.timer.deadline, counter⟩⟩ ∧
        f.poll answer r counter now waker = (false, f',
          r.registerTimer ⟨f.timer.deadline, counter⟩ waker, counter + 1)) := by
  cases f with
  | delay d =>
    rcases delay_poll_cases r counter now waker d with
      ⟨-, hp⟩ | ⟨hlt, hh, hp⟩ | ⟨hlt, hh, hp⟩
    · exact ⟨.delay d, Or.inl ⟨rfl, by rw [poll, hp]; rfl⟩⟩
    · exact ⟨.delay d, Or.inr (Or.inl ⟨hlt, hh, rfl, by rw [poll, hp]; rfl⟩)⟩
    · exact ⟨.delay _, Or.inr (Or.inr ⟨hlt, hh, rfl, by rw [poll, hp]; rfl⟩)⟩
  | timeout t =>
    rcases timeout_poll_cases r counter now waker t answer with ⟨result, hp⟩ | hp
    · exact ⟨.timeout ⟨false, t.delay⟩, Or.inl ⟨rfl, by rw [poll, hp]; rfl⟩⟩
    · rcases delay_poll_cases r counter now waker t.delay with
        ⟨-, hd⟩ | ⟨hlt, hh, hd⟩ | ⟨hlt, hh, hd⟩
      · exact ⟨.timeout ⟨false, t.delay⟩, Or.inl ⟨rfl, by
          rw [poll, hp, Timeout.pollDelay, hd]; rfl⟩⟩
      · exact ⟨.timeout t, Or.inr (Or.inl ⟨hlt, hh, rfl, by
          rw [poll, hp, Timeout.pollDelay, hd]; rfl⟩)⟩
      · exact ⟨.timeout ⟨t.future, _⟩, Or.inr (Or.inr ⟨hlt, hh, rfl, by
          rw [poll, hp, Timeout.pollDelay, hd]; rfl⟩)⟩

/-- **After the deadline a poll returns `Ready`.** -/
theorem poll_ready (f : Fut T) (answer : Poll ρ) (h : f.timer.deadline ≤ now) :
    (f.poll answer r counter now waker).1 = true := by
  obtain ⟨f', ⟨-, hp⟩ | ⟨hlt, -⟩ | ⟨hlt, -⟩⟩ :=
    poll_cases r counter now waker f answer
  · rw [hp]
  · exact absurd h hlt.not_ge
  · exact absurd h hlt.not_ge

end Facts

end Fut

/-! ### A thread with futures -/

/-- A future and what is remembered of it. -/
structure Member (T W : Type*) where
  fut : Fut T
  dropped : Bool
  /-- If the last poll returned `Pending`, the waker it was given, and how many
  wakers had been woken before it. -/
  last : Option (W × ℕ)

/-- A thread: its clock, its reactor and its futures. -/
structure World (T W : Type*) [LinearOrder T] where
  /-- The latest instant that was read. -/
  now : T
  counter : UInt64
  reactor : TimerReactor T W
  members : List (Member T W)
  /-- The timers that were registered: for which future, under which handle and
  with which waker. -/
  registered : List (ℕ × TimerHandle T × W)
  /-- The wakers the reactor woke, oldest first. -/
  woken : List W
  /-- The instant of the latest poll of the reactor. -/
  polledAt : Option T

/-- What happens on the thread. -/
inductive Action (T W ρ : Type*)
  | delay (deadline : T)
  | timeout (deadline : T)
  | poll (i : ℕ) (now : T) (waker : W) (answer : Poll ρ)
  | drop (i : ℕ)
  | reactor (now : T)
  /-- `TimerHandle::new` for the reactor of another thread. -/
  | elsewhere

/-- The handle a poll made: the one the future did not have before. -/
def Fut.made (f f' : Fut T) : List (TimerHandle T) :=
  if f.timer.timerHandle.isNone then f'.timer.timerHandle.toList else []

namespace World

/-- A thread at the instant `now`, with a new reactor. -/
def start (now : T) : World T W where
  now := now
  counter := 1
  reactor := .new
  members := []
  registered := []
  woken := []
  polledAt := none

/-- The world after a poll of the future `i`, which is `m`. -/
def pollMember (s : World T W) (i : ℕ) (m : Member T W) (now : T) (waker : W) (answer : Poll ρ) :
    World T W :=
  let p := m.fut.poll answer s.reactor s.counter now waker
  { s with
    now := now
    counter := p.2.2.2
    reactor := p.2.2.1
    members := s.members.set i
      { m with fut := p.2.1, last := if p.1 then none else some (waker, s.woken.length) }
    registered := s.registered ++ (m.fut.made p.2.1).map fun h => (i, h, waker) }

/-- The world after the drop of the future `i`, which is `m`. -/
def dropMember (s : World T W) (i : ℕ) (m : Member T W) : World T W :=
  { s with
    reactor := m.fut.timer.drop s.reactor
    members := s.members.set i { m with dropped := true } }

/-- The world after a poll of the reactor. -/
def pollReactor (s : World T W) (now : T) : World T W :=
  let p := s.reactor.wakeExpiredTimers now
  { s with
    now := now
    reactor := p.2.1
    woken := s.woken ++ p.2.2.map (·.2)
    polledAt := some now }

/-- One action. A dropped future is not used again, and the clock does not go
back. -/
def step (s : World T W) : Action T W ρ → Option (World T W)
  | .delay d => some { s with members := s.members ++ [⟨.delay (.newAt d), false, none⟩] }
  | .timeout d => some { s with members := s.members ++ [⟨.timeout (.newAt d), false, none⟩] }
  | .poll i now waker answer => s.members[i]?.bind fun m =>
    if m.dropped = false ∧ s.now ≤ now then some (s.pollMember i m now waker answer) else none
  | .drop i => s.members[i]?.bind fun m =>
    if m.dropped = false then some (s.dropMember i m) else none
  | .reactor now => if s.now ≤ now then some (s.pollReactor now) else none
  | .elsewhere => some { s with counter := s.counter + 1 }

/-- Future number `i` exists, and is `m`. -/
def Live (s : World T W) (i : ℕ) (m : Member T W) : Prop :=
  s.members[i]? = some m ∧ m.dropped = false

/-- The reactor was polled at or after `deadline`. -/
def Reached (s : World T W) (deadline : T) : Prop := ∃ t, s.polledAt = some t ∧ deadline ≤ t

end World

/-- **The futures are served**: when the reactor was polled at or after the deadline
of a future, the waker of its last poll, if that returned `Pending`, has been woken
since, and its next poll returns `Ready`; and a dropped future has no timer. -/
structure Served (ρ : Type*) (s : World T W) : Prop where
  woken : ∀ i m, s.Live i m → ∀ w k, m.last = some (w, k) →
    s.Reached m.fut.timer.deadline → w ∈ s.woken.drop k
  ready : ∀ i m, s.Live i m → s.Reached m.fut.timer.deadline →
    ∀ (answer : Poll ρ) now waker, s.now ≤ now →
      (m.fut.poll answer s.reactor s.counter now waker).1 = true
  clean : ∀ i m, s.members[i]? = some m → m.dropped = true →
    ∀ h w, (i, h, w) ∈ s.registered → h ∉ s.reactor.timers.entries.map (·.1)

/-- When a poll of the reactor comes to the deadline of a future whose last poll returned
`Pending`, the waker of that poll is the waker of a timer that is due, or was woken for
another timer since. -/
def LastWaker (s : World T W) : Action T W ρ → Prop
  | .reactor now => ∀ i m, s.Live i m → ∀ w k, m.last = some (w, k) →
    ¬s.Reached m.fut.timer.deadline → m.fut.timer.deadline ≤ now →
      w ∈ (s.reactor.due now).map (·.2) ∨ w ∈ s.woken.drop k
  | _ => True

/-- `COUNTER` gives no number twice for one deadline. -/
def NoReuse (s : World T W) (a : Action T W ρ) : Prop :=
  ∀ s', s.step a = some s' → (s'.registered.map (·.2.1)).Nodup

/-! ### The invariant -/

/-- Every entry of the map is the timer of a future that is there. -/
structure Kept (s : World T W) : Prop where
  clock : ∀ t, s.polledAt = some t → t ≤ s.now
  entry : ∀ h w, (h, w) ∈ s.reactor.timers.entries → ∃ i m, (i, h, w) ∈ s.registered ∧ s.Live i m
  handle : ∀ i h w, (i, h, w) ∈ s.registered → ∃ m, s.members[i]? = some m ∧
    m.fut.timer.timerHandle = some h
  nodup : (s.registered.map (·.2.1)).Nodup
  woken : ∀ i m, s.Live i m → ∀ w k, m.last = some (w, k) →
    k ≤ s.woken.length ∧ (s.Reached m.fut.timer.deadline → w ∈ s.woken.drop k)

section Kept

variable {s s' : World T W}

theorem kept_start (now : T) : Kept (World.start now : World T W) where
  clock := nofun
  entry := by simp [World.start, TimerReactor.new, OrdMap.empty]
  handle := by simp [World.start]
  nodup := List.nodup_nil
  woken := by simp [World.start, World.Live]

theorem Kept.reached_le (h : Kept s) {d : T} (hr : s.Reached d) : d ≤ s.now := by
  obtain ⟨t, ht, hle⟩ := hr
  exact hle.trans (h.clock t ht)

/-- A handle has one registration. -/
theorem Kept.unique (h : Kept s) {e e' : ℕ × TimerHandle T × W} (he : e ∈ s.registered)
    (he' : e' ∈ s.registered) (hh : e.2.1 = e'.2.1) : e = e' :=
  List.inj_on_of_nodup_map h.nodup he he' hh

/-- **What is kept is served.** -/
theorem Kept.served (ρ : Type*) (h : Kept s) : Served ρ s where
  woken := fun i m hm w k hlast hr => (h.woken i m hm w k hlast).2 hr
  ready := fun i m _ hr answer now waker hnow =>
    Fut.poll_ready s.reactor s.counter now waker m.fut answer ((h.reached_le hr).trans hnow)
  clean := fun i m hm hdropped a w hreg hmem => by
    obtain ⟨⟨a, w'⟩, he, rfl⟩ := List.mem_map.mp hmem
    obtain ⟨j, m', hreg', hlive⟩ := h.entry a w' he
    obtain ⟨rfl, -⟩ := Prod.mk.inj (h.unique hreg hreg' rfl)
    obtain ⟨hsame, hnot⟩ := hlive
    rw [hm] at hsame
    rw [← Option.some.inj hsame, hdropped] at hnot
    cases hnot

/-- What is in a list with one entry replaced. -/
theorem getElem?_set_cases {α : Type*} {l : List α} {i j : ℕ} {a b c : α} (hi : l[i]? = some a)
    (hj : (l.set i b)[j]? = some c) : (j = i ∧ c = b) ∨ (j ≠ i ∧ l[j]? = some c) := by
  rcases eq_or_ne i j with rfl | hne
  · rw [List.getElem?_set_self (List.getElem?_eq_some_iff.mp hi).1] at hj
    exact Or.inl ⟨rfl, (Option.some.inj hj).symm⟩
  · rw [List.getElem?_set_ne hne] at hj
    exact Or.inr ⟨hne.symm, hj⟩

/-- What a list holds is there after one entry is replaced, up to that entry. -/
theorem getElem?_set_of {α : Type*} {l : List α} {i j : ℕ} {a b c : α} (hi : l[i]? = some a)
    (hj : l[j]? = some c) : (l.set i b)[j]? = some (if j = i then b else c) := by
  rcases eq_or_ne i j with rfl | hne
  · rw [if_pos rfl, List.getElem?_set_self (List.getElem?_eq_some_iff.mp hi).1]
  · rw [if_neg hne.symm, List.getElem?_set_ne hne, hj]

theorem Kept.create (h : Kept s) (f : Fut T) :
    Kept { s with members := s.members ++ [⟨f, false, none⟩] } := by
  have hold : ∀ {i m}, s.members[i]? = some m →
      (s.members ++ [⟨f, false, none⟩])[i]? = some m := fun {i m} hm => by
    rwa [List.getElem?_append_left (List.getElem?_eq_some_iff.mp hm).1]
  refine ⟨h.clock, fun a w he => ?_, fun i a w hreg => ?_, h.nodup, fun i m hm w k hlast => ?_⟩
  · obtain ⟨i, m, hreg, hm, hlive⟩ := h.entry a w he
    exact ⟨i, m, hreg, hold hm, hlive⟩
  · obtain ⟨m, hm, hh⟩ := h.handle i a w hreg
    exact ⟨m, hold hm, hh⟩
  · obtain ⟨hm, hlive⟩ := hm
    rcases Nat.lt_or_ge i s.members.length with hlt | hge
    · rw [List.getElem?_append_left hlt] at hm
      exact h.woken i m ⟨hm, hlive⟩ w k hlast
    · rw [List.getElem?_append_right hge] at hm
      obtain rfl := List.mem_singleton.mp (List.mem_of_getElem? hm)
      cases hlast

omit [LinearOrder T] in
theorem Fut.made_same {f f' : Fut T} (h : f'.timer = f.timer) : f.made f' = [] := by
  rw [made, h]
  cases f.timer.timerHandle <;> rfl

omit [LinearOrder T] in
theorem Fut.made_new {f f' : Fut T} {handle : TimerHandle T} (hnone : f.timer.timerHandle = none)
    (h : f'.timer = ⟨f.timer.deadline, some handle⟩) : f.made f' = [handle] := by
  rw [made, hnone, h]
  rfl

/-- A poll that leaves the timer as it is. -/
theorem Kept.pollSame (h : Kept s) {i : ℕ} {m : Member T W} (hm : s.Live i m) {now : T}
    (hnow : s.now ≤ now) {f : Fut T} (hf : f.timer = m.fut.timer) {last : Option (W × ℕ)}
    (hlast : ∀ w k, last = some (w, k) → k = s.woken.length ∧ now < m.fut.timer.deadline) :
    Kept { s with
      now := now
      members := s.members.set i { m with fut := f, last := last } } := by
  obtain ⟨hi, hlive⟩ := hm
  refine ⟨fun t ht => (h.clock t ht).trans hnow, fun a w he => ?_, fun j a w hreg => ?_, h.nodup,
    fun j m' hm' w k hk => ?_⟩
  · obtain ⟨j, m', hreg, hm', hlive'⟩ := h.entry a w he
    refine ⟨j, _, hreg, getElem?_set_of hi hm', ?_⟩
    split <;> assumption
  · obtain ⟨m', hm', hh⟩ := h.handle j a w hreg
    refine ⟨_, getElem?_set_of hi hm', ?_⟩
    split
    · next hji =>
      obtain rfl : m = m' := by
        rw [hji, hi] at hm'
        exact Option.some.inj hm'
      rw [hf, hh]
    · exact hh
  · obtain ⟨hm', hlive'⟩ := hm'
    rcases getElem?_set_cases hi hm' with ⟨rfl, rfl⟩ | ⟨-, hm'⟩
    · obtain ⟨rfl, hlt⟩ := hlast w k hk
      rw [hf]
      exact ⟨le_rfl, fun hr => absurd hlt ((h.reached_le hr).trans hnow).not_gt⟩
    · exact h.woken j m' ⟨hm', hlive'⟩ w k hk

/-- The poll that registers the timer. -/
theorem Kept.pollRegister (h : Kept s) {i : ℕ} {m : Member T W} (hm : s.Live i m) {now : T}
    (hnow : s.now ≤ now) (hlt : now < m.fut.timer.deadline)
    (hnone : m.fut.timer.timerHandle = none) {f : Fut T} {handle : TimerHandle T}
    (hf : f.timer = ⟨m.fut.timer.deadline, some handle⟩) (waker : W)
    (hnodup : ((s.registered ++ [(i, handle, waker)]).map (·.2.1)).Nodup) :
    Kept { s with
      now := now
      counter := s.counter + 1
      reactor := s.reactor.registerTimer handle waker
      members := s.members.set i { m with fut := f, last := some (waker, s.woken.length) }
      registered := s.registered ++ [(i, handle, waker)] } := by
  obtain ⟨hi, hlive⟩ := hm
  have hset : (s.members.set i { m with fut := f, last := some (waker, s.woken.length) })[i]? =
      some { m with fut := f, last := some (waker, s.woken.length) } :=
    List.getElem?_set_self (List.getElem?_eq_some_iff.mp hi).1
  refine ⟨fun t ht => (h.clock t ht).trans hnow, fun a w he => ?_, fun j a w hreg => ?_, hnodup,
    fun j m' hm' w k hk => ?_⟩
  · rcases OrdMap.mem_insert.mp he with he | ⟨he, -⟩
    · obtain ⟨rfl, rfl⟩ := Prod.mk.inj he
      exact ⟨i, _, List.mem_append_right _ (List.mem_singleton_self _), hset, hlive⟩
    · obtain ⟨j, m', hreg, hm', hlive'⟩ := h.entry a w he
      refine ⟨j, _, List.mem_append_left _ hreg, getElem?_set_of hi hm', ?_⟩
      split <;> assumption
  · rcases List.mem_append.mp hreg with hreg | hreg
    · obtain ⟨m', hm', hh⟩ := h.handle j a w hreg
      refine ⟨_, getElem?_set_of hi hm', ?_⟩
      split
      · next hji =>
        -- the future has no timer yet
        rw [hji, hi] at hm'
        rw [← Option.some.inj hm', hnone] at hh
        cases hh
      · exact hh
    · obtain ⟨rfl, heq⟩ := Prod.mk.inj (List.mem_singleton.mp hreg)
      obtain ⟨rfl, rfl⟩ := Prod.mk.inj heq
      exact ⟨_, hset, by rw [hf]⟩
  · obtain ⟨hm', hlive'⟩ := hm'
    rcases getElem?_set_cases hi hm' with ⟨rfl, rfl⟩ | ⟨-, hm'⟩
    · obtain ⟨rfl, rfl⟩ := Prod.mk.inj (Option.some.inj hk)
      rw [hf]
      exact ⟨le_rfl, fun hr => absurd hlt ((h.reached_le hr).trans hnow).not_gt⟩
    · exact h.woken j m' ⟨hm', hlive'⟩ w k hk

theorem Kept.pollMember (h : Kept s) {i : ℕ} {m : Member T W} (hm : s.Live i m) {now : T}
    (hnow : s.now ≤ now) (waker : W) (answer : Poll ρ)
    (hnodup : ((s.pollMember i m now waker answer).registered.map (·.2.1)).Nodup) :
    Kept (s.pollMember i m now waker answer) := by
  obtain ⟨f, ⟨hf, hp⟩ | ⟨hlt, -, hf, hp⟩ | ⟨hlt, hnone, hf, hp⟩⟩ :=
    Fut.poll_cases s.reactor s.counter now waker m.fut answer
  · rw [World.pollMember, hp, Fut.made_same hf, List.map_nil, List.append_nil]
    exact h.pollSame hm hnow hf nofun
  · rw [World.pollMember, hp, Fut.made_same hf, List.map_nil, List.append_nil]
    refine h.pollSame hm hnow hf fun w k hk => ⟨?_, hlt⟩
    exact (Prod.mk.inj (Option.some.inj hk)).2.symm
  · rw [World.pollMember, hp, Fut.made_new hnone hf] at hnodup ⊢
    exact h.pollRegister hm hnow hlt hnone hf waker hnodup

/-- **The drop of a future** takes its timer out of the map. -/
theorem Kept.dropMember (h : Kept s) {i : ℕ} {m : Member T W} (hm : s.Live i m) :
    Kept (s.dropMember i m) := by
  obtain ⟨hi, hlive⟩ := hm
  -- what is left belongs to the others
  have hentries : ∀ a w, (a, w) ∈ (m.fut.timer.drop s.reactor).timers.entries →
      (a, w) ∈ s.reactor.timers.entries ∧ m.fut.timer.timerHandle ≠ some a := by
    intro a w he
    unfold Delay.drop at he
    cases hh : m.fut.timer.timerHandle with
    | none =>
      rw [hh] at he
      exact ⟨he, nofun⟩
    | some handle =>
      rw [hh] at he
      obtain ⟨he, hne⟩ := List.mem_filter.mp he
      exact ⟨he, fun hc => of_decide_eq_true hne (Option.some.inj hc).symm⟩
  refine ⟨h.clock, fun a w he => ?_, fun j a w hreg => ?_, h.nodup, fun j m' hm' w k hk => ?_⟩
  · obtain ⟨he, hne⟩ := hentries a w he
    obtain ⟨j, m', hreg, hm', hlive'⟩ := h.entry a w he
    obtain ⟨m'', hm'', hh⟩ := h.handle j a w hreg
    refine ⟨j, _, hreg, getElem?_set_of hi hm', ?_⟩
    rw [if_neg]
    · exact hlive'
    · rintro rfl
      rw [hi] at hm''
      exact hne (Option.some.inj hm'' ▸ hh)
  · obtain ⟨m', hm', hh⟩ := h.handle j a w hreg
    refine ⟨_, getElem?_set_of hi hm', ?_⟩
    split
    · next hji =>
      rw [hji, hi] at hm'
      exact Option.some.inj hm' ▸ hh
    · exact hh
  · obtain ⟨hm', hlive'⟩ := hm'
    rcases getElem?_set_cases hi hm' with ⟨-, rfl⟩ | ⟨-, hm'⟩
    · cases hlive'
    · exact h.woken j m' ⟨hm', hlive'⟩ w k hk

/-- What a poll of the reactor leaves of its world. -/
theorem World.pollReactor_eq (s : World T W) (now : T) :
    (s.pollReactor now).reactor.timers.entries =
        s.reactor.timers.entries.filter (now < ·.1.deadline) ∧
      (s.pollReactor now).woken = s.woken ++ (s.reactor.due now).map (·.2) := by
  obtain ⟨-, hwoken, hrest, -⟩ := s.reactor.wakeExpiredTimers_eq now
  exact ⟨hrest, by rw [World.pollReactor, hwoken]⟩

/-- **A poll of the reactor** that wakes the latest wakers. -/
theorem Kept.pollReactor (h : Kept s) {now : T}
    (hG : LastWaker s (.reactor now : Action T W ρ)) : Kept (s.pollReactor now) := by
  obtain ⟨hentries, hwoken⟩ := s.pollReactor_eq now
  refine ⟨?_, fun a w he => ?_, h.handle, h.nodup, fun i m hm w k hk => ?_⟩
  · exact fun t ht => (Option.some.inj ht).symm.le
  · rw [hentries] at he
    exact h.entry a w (List.mem_filter.mp he).1
  · obtain ⟨hle, hold⟩ := h.woken i m hm w k hk
    rw [hwoken, List.length_append, List.drop_append_of_le_length hle]
    refine ⟨Nat.le_add_right_of_le hle, fun hr => ?_⟩
    obtain ⟨t, ht, hdl⟩ := hr
    obtain rfl := Option.some.inj ht
    by_cases hbefore : s.Reached m.fut.timer.deadline
    · exact List.mem_append_left _ (hold hbefore)
    · exact List.mem_append.mpr (hG i m hm w k hk hbefore hdl).symm

/-- **A poll of the reactor** that leaves one of them out. -/
theorem Kept.not_served (h : Kept s) {now : T}
    (hG : ¬LastWaker s (.reactor now : Action T W ρ)) : ¬Served ρ (s.pollReactor now) := by
  intro hserved
  refine hG fun i m hm w k hk _ hdl => ?_
  have hle := (h.woken i m hm w k hk).1
  have hwoken := hserved.woken i m hm w k hk ⟨now, rfl, hdl⟩
  rw [(s.pollReactor_eq now).2, List.drop_append_of_le_length hle] at hwoken
  exact (List.mem_append.mp hwoken).symm

/-- **Every action** keeps the timers of the futures, if the latest wakers are woken. -/
theorem Kept.step (h : Kept s) {a : Action T W ρ} (hfresh : NoReuse s a) (hG : LastWaker s a)
    (hs : s.step a = some s') : Kept s' := by
  have hnodup := hfresh s' hs
  cases a with
  | delay d => exact Option.some.inj hs ▸ h.create _
  | timeout d => exact Option.some.inj hs ▸ h.create _
  | poll i now waker answer =>
    obtain ⟨m, hi, hs⟩ := Option.bind_eq_some_iff.mp hs
    obtain ⟨⟨hlive, hnow⟩, hs⟩ := Option.ite_none_right_eq_some.mp hs
    obtain rfl := Option.some.inj hs
    exact h.pollMember ⟨hi, hlive⟩ hnow waker answer hnodup
  | drop i =>
    obtain ⟨m, hi, hs⟩ := Option.bind_eq_some_iff.mp hs
    obtain ⟨hlive, hs⟩ := Option.ite_none_right_eq_some.mp hs
    exact Option.some.inj hs ▸ h.dropMember ⟨hi, hlive⟩
  | reactor now =>
    obtain ⟨-, hs⟩ := Option.ite_none_right_eq_some.mp hs
    exact Option.some.inj hs ▸ h.pollReactor hG
  | elsewhere =>
    obtain rfl := Option.some.inj hs
    exact ⟨h.clock, h.entry, h.handle, h.nodup, h.woken⟩

end Kept

/-! ### The timers of the futures -/

/-- The timers of the futures are in the map until their deadline is reached, and nothing
else is. -/
structure Armed (s : World T W) : Prop where
  armed : ∀ i m, s.Live i m → ∀ h, m.fut.timer.timerHandle = some h →
    ∃ w, (i, h, w) ∈ s.registered ∧ h.deadline = m.fut.timer.deadline ∧
      (¬s.Reached m.fut.timer.deadline → (h, w) ∈ s.reactor.timers.entries)
  ahead : ∀ e ∈ s.reactor.timers.entries, ¬s.Reached e.1.deadline

section Armed

variable {s s' : World T W}

theorem armed_start (now : T) : Armed (World.start now : World T W) where
  armed := by simp [World.start, World.Live]
  ahead := by simp [World.start, TimerReactor.new, OrdMap.empty]

theorem Armed.create (h : Armed s) {f : Fut T} (hf : f.timer.timerHandle = none) :
    Armed { s with members := s.members ++ [⟨f, false, none⟩] } := by
  refine ⟨fun i m hm handle hh => ?_, h.ahead⟩
  obtain ⟨hm, hlive⟩ := hm
  rcases Nat.lt_or_ge i s.members.length with hlt | hge
  · rw [List.getElem?_append_left hlt] at hm
    exact h.armed i m ⟨hm, hlive⟩ handle hh
  · rw [List.getElem?_append_right hge] at hm
    obtain rfl := List.mem_singleton.mp (List.mem_of_getElem? hm)
    rw [hf] at hh
    cases hh

theorem Armed.pollSame (h : Armed s) {i : ℕ} {m : Member T W} (hm : s.Live i m) {now : T}
    {f : Fut T} (hf : f.timer = m.fut.timer) (last : Option (W × ℕ)) :
    Armed { s with
      now := now
      members := s.members.set i { m with fut := f, last := last } } := by
  refine ⟨?_, h.ahead⟩
  rintro j m' ⟨hm', hlive⟩ handle hh
  rcases getElem?_set_cases hm.1 hm' with ⟨rfl, rfl⟩ | ⟨-, hm'⟩
  · rw [hf] at hh ⊢
    exact h.armed j m hm handle hh
  · exact h.armed j m' ⟨hm', hlive⟩ handle hh

theorem Armed.pollRegister (h : Armed s) (hk : Kept s) {i : ℕ} {m : Member T W}
    (hm : s.Live i m) {now : T} (hnow : s.now ≤ now) (hlt : now < m.fut.timer.deadline)
    {f : Fut T} {handle : TimerHandle T}
    (hf : f.timer = ⟨m.fut.timer.deadline, some handle⟩)
    (hd : handle.deadline = m.fut.timer.deadline) (waker : W)
    (hnodup : ((s.registered ++ [(i, handle, waker)]).map (·.2.1)).Nodup) :
    Armed { s with
      now := now
      counter := s.counter + 1
      reactor := s.reactor.registerTimer handle waker
      members := s.members.set i { m with fut := f, last := some (waker, s.woken.length) }
      registered := s.registered ++ [(i, handle, waker)] } := by
  have hnew : (i, handle, waker) ∈ s.registered ++ [(i, handle, waker)] :=
    List.mem_append_right _ (List.mem_singleton_self _)
  constructor
  · rintro j m' ⟨hm', hlive⟩ a ha
    rcases getElem?_set_cases hm.1 hm' with ⟨rfl, rfl⟩ | ⟨-, hm'⟩
    · rw [hf] at ha ⊢
      obtain rfl := Option.some.inj ha
      exact ⟨waker, hnew, hd, fun _ => OrdMap.mem_insert.mpr (Or.inl rfl)⟩
    · obtain ⟨w, hreg, hda, hentry⟩ := h.armed j m' ⟨hm', hlive⟩ a ha
      have hne : a ≠ handle := by
        rintro rfl
        rw [List.map_append, List.nodup_append] at hnodup
        exact hnodup.2.2 a (List.mem_map_of_mem hreg) a (by simp) rfl
      refine ⟨w, List.mem_append_left _ hreg, hda, fun hr => ?_⟩
      exact OrdMap.mem_insert.mpr (Or.inr ⟨hentry hr, hne⟩)
  · intro e he hr
    rcases OrdMap.mem_insert.mp he with rfl | ⟨he, -⟩
    · exact ((hk.reached_le hr).trans hnow).not_gt (hd ▸ hlt)
    · exact h.ahead e he hr

theorem Armed.pollMember (h : Armed s) (hk : Kept s) {i : ℕ} {m : Member T W}
    (hm : s.Live i m) {now : T} (hnow : s.now ≤ now) (waker : W) (answer : Poll ρ)
    (hnodup : ((s.pollMember i m now waker answer).registered.map (·.2.1)).Nodup) :
    Armed (s.pollMember i m now waker answer) := by
  obtain ⟨f, ⟨hf, hp⟩ | ⟨-, -, hf, hp⟩ | ⟨hlt, hnone, hf, hp⟩⟩ :=
    Fut.poll_cases s.reactor s.counter now waker m.fut answer
  · rw [World.pollMember, hp, Fut.made_same hf, List.map_nil, List.append_nil]
    exact h.pollSame hm hf _
  · rw [World.pollMember, hp, Fut.made_same hf, List.map_nil, List.append_nil]
    exact h.pollSame hm hf _
  · rw [World.pollMember, hp, Fut.made_new hnone hf] at hnodup ⊢
    exact h.pollRegister hk hm hnow hlt hf rfl waker hnodup

theorem Armed.dropMember (h : Armed s) (hk : Kept s) {i : ℕ} {m : Member T W} (hm : s.Live i m) :
    Armed (s.dropMember i m) := by
  -- what is left was there before
  have hsub : ∀ e ∈ (m.fut.timer.drop s.reactor).timers.entries,
      e ∈ s.reactor.timers.entries := by
    intro e he
    rw [Delay.drop] at he
    split at he
    · exact (List.mem_filter.mp he).1
    · exact he
  refine ⟨?_, fun e he => h.ahead e (hsub e he)⟩
  rintro j m' ⟨hm', hlive⟩ a ha
  rcases getElem?_set_cases hm.1 hm' with ⟨-, rfl⟩ | ⟨hne, hm'⟩
  · cases hlive
  · obtain ⟨w, hreg, hda, hentry⟩ := h.armed j m' ⟨hm', hlive⟩ a ha
    refine ⟨w, hreg, hda, fun hr => ?_⟩
    change (a, w) ∈ (m.fut.timer.drop s.reactor).timers.entries
    unfold Delay.drop
    cases hh : m.fut.timer.timerHandle with
    | none => exact hentry hr
    | some handle =>
      obtain ⟨w', hreg', -⟩ := h.armed i m hm handle hh
      refine List.mem_filter.mpr ⟨hentry hr, decide_eq_true ?_⟩
      rintro rfl
      exact hne (congrArg (·.1) (hk.unique hreg hreg' rfl))

theorem Armed.pollReactor (h : Armed s) (hk : Kept s) {now : T} (hnow : s.now ≤ now) :
    Armed (s.pollReactor now) := by
  refine ⟨fun i m hm a ha => ?_, fun e he hr => ?_⟩
  · obtain ⟨w, hreg, hda, hentry⟩ := h.armed i m hm a ha
    refine ⟨w, hreg, hda, fun hr => ?_⟩
    have hlt : now < m.fut.timer.deadline := not_le.mp fun hle => hr ⟨now, rfl, hle⟩
    rw [(s.pollReactor_eq now).1]
    refine List.mem_filter.mpr ⟨hentry fun hbefore => ?_, decide_eq_true (hda ▸ hlt)⟩
    exact ((hk.reached_le hbefore).trans hnow).not_gt hlt
  · rw [(s.pollReactor_eq now).1] at he
    obtain ⟨t, ht, hle⟩ := hr
    obtain rfl := Option.some.inj ht
    exact hle.not_gt (of_decide_eq_true (List.mem_filter.mp he).2)

/-- **Every action** keeps the timers in the map. -/
theorem Armed.step (h : Armed s) (hk : Kept s) {a : Action T W ρ} (hfresh : NoReuse s a)
    (hs : s.step a = some s') : Armed s' := by
  have hnodup := hfresh s' hs
  cases a with
  | delay d => exact Option.some.inj hs ▸ h.create rfl
  | timeout d => exact Option.some.inj hs ▸ h.create rfl
  | poll i now waker answer =>
    obtain ⟨m, hi, hs⟩ := Option.bind_eq_some_iff.mp hs
    obtain ⟨⟨hlive, hnow⟩, hs⟩ := Option.ite_none_right_eq_some.mp hs
    obtain rfl := Option.some.inj hs
    exact h.pollMember hk ⟨hi, hlive⟩ hnow waker answer hnodup
  | drop i =>
    obtain ⟨m, hi, hs⟩ := Option.bind_eq_some_iff.mp hs
    obtain ⟨hlive, hs⟩ := Option.ite_none_right_eq_some.mp hs
    exact Option.some.inj hs ▸ h.dropMember hk ⟨hi, hlive⟩
  | reactor now =>
    obtain ⟨hnow, hs⟩ := Option.ite_none_right_eq_some.mp hs
    exact Option.some.inj hs ▸ h.pollReactor hk hnow
  | elsewhere =>
    obtain rfl := Option.some.inj hs
    exact ⟨h.armed, h.ahead⟩

end Armed

/-! ### The wakers of the first polls -/

/-- What the callers have polled the futures with. -/
structure Calls (W : Type*) where
  /-- The waker of the first poll of a future that returned `Pending`. -/
  first : ℕ → Option W
  /-- The first wakers of the futures to whose deadlines the polls of the reactor have come
  since the last poll of a future. -/
  come : ℕ → Set W

namespace Calls

/-- No future has been polled. -/
def start : Calls W := ⟨fun _ => none, fun _ => ∅⟩

/-- The first wakers of the futures to whose deadlines a poll of the reactor comes. -/
def comes (c : Calls W) (s : World T W) (now : T) : Set W :=
  {w | ∃ i m, s.Live i m ∧ c.first i = some w ∧ ¬s.Reached m.fut.timer.deadline ∧
    m.fut.timer.deadline ≤ now}

/-- The waker of a poll of a future that returns `Pending`. -/
def pendingWaker (s : World T W) (i : ℕ) (now : T) (waker : W) (answer : Poll ρ) : Option W :=
  s.members[i]?.bind fun m =>
    if (m.fut.poll answer s.reactor s.counter now waker).1 then none else some waker

/-- What an action adds to the memory of the wakers. -/
def remember (s : World T W) (a : Action T W ρ) (c : Calls W) : Calls W :=
  match a with
  | .poll i now waker answer =>
    { first := Function.update c.first i ((c.first i).or (pendingWaker s i now waker answer))
      come := Function.update c.come i ∅ }
  | .reactor now => { c with come := fun i => c.come i ∪ c.comes s now }
  | _ => c

end Calls

/-- **The latest wakers are known.** When a poll of the reactor comes to the deadline of a
future whose last poll returned `Pending`, a future was first polled with the waker of that
poll, itself or another one, to whose deadline this poll of the reactor comes or one since
that poll has come. -/
def Known (s : World T W) (c : Calls W) : Action T W ρ → Prop
  | .reactor now => ∀ i m, s.Live i m → ∀ w k, m.last = some (w, k) →
    ¬s.Reached m.fut.timer.deadline → m.fut.timer.deadline ≤ now →
      w ∈ c.comes s now ∨ w ∈ c.come i
  | _ => True

/-- What is remembered of the calls is what the reactor was given and has woken. -/
structure Remembered (s : World T W) (c : Calls W) : Prop where
  first : ∀ i w, c.first i = some w ↔ ∃ h, (i, h, w) ∈ s.registered
  come : ∀ i m, s.Live i m → ∀ w k, m.last = some (w, k) → ∀ v, v ∈ s.woken.drop k ↔ v ∈ c.come i

section Remembered

variable {s s' : World T W} {c : Calls W}

theorem remembered_start (now : T) : Remembered (World.start now : World T W) .start where
  first := by simp [World.start, Calls.start]
  come := by simp [World.start, World.Live]

/-- **The timers that are due** are those of the futures to whose deadlines the poll comes. -/
theorem Remembered.mem_due (h : Remembered s c) (hk : Kept s) (ha : Armed s) {now : T} {w : W} :
    w ∈ (s.reactor.due now).map (·.2) ↔ w ∈ c.comes s now := by
  rw [List.mem_map]
  constructor
  · rintro ⟨⟨handle, w⟩, he, rfl⟩
    obtain ⟨hentry, hle⟩ := TimerReactor.mem_due.mp he
    obtain ⟨i, m, hreg, hm⟩ := hk.entry handle w hentry
    obtain ⟨m', hm', hh⟩ := hk.handle i handle w hreg
    obtain rfl : m = m' := Option.some.inj (hm.1.symm.trans hm')
    obtain ⟨-, -, hd, -⟩ := ha.armed i m hm handle hh
    exact ⟨i, m, hm, (h.first i w).mpr ⟨handle, hreg⟩, hd ▸ ha.ahead _ hentry, hd ▸ hle⟩
  · rintro ⟨i, m, hm, hfirst, hnot, hle⟩
    obtain ⟨handle, hreg⟩ := (h.first i w).mp hfirst
    obtain ⟨m', hm', hh⟩ := hk.handle i handle w hreg
    obtain rfl : m = m' := Option.some.inj (hm.1.symm.trans hm')
    obtain ⟨w', hreg', hd, hentry⟩ := ha.armed i m hm handle hh
    obtain rfl : w = w' := congrArg (·.2.2) (hk.unique hreg hreg' rfl)
    exact ⟨(handle, w), TimerReactor.mem_due.mpr ⟨hentry hnot, hd ▸ hle⟩, rfl⟩

/-- **The condition on the calls** is the one on the timers. -/
theorem Remembered.known_iff (h : Remembered s c) (hk : Kept s) (ha : Armed s)
    (a : Action T W ρ) : LastWaker s a ↔ Known s c a := by
  cases a with
  | reactor now =>
    refine forall₅_congr fun i m hm w k => forall₃_congr fun hlast _ _ => ?_
    exact or_congr (h.mem_due hk ha) (h.come i m hm w k hlast w)
  | delay | timeout | poll | drop | elsewhere => exact Iff.rfl

theorem Remembered.create (h : Remembered s c) (f : Fut T) :
    Remembered { s with members := s.members ++ [⟨f, false, none⟩] } c := by
  refine ⟨h.first, fun i m hm w k hlast v => ?_⟩
  obtain ⟨hm, hlive⟩ := hm
  rcases Nat.lt_or_ge i s.members.length with hlt | hge
  · rw [List.getElem?_append_left hlt] at hm
    exact h.come i m ⟨hm, hlive⟩ w k hlast v
  · rw [List.getElem?_append_right hge] at hm
    obtain rfl := List.mem_singleton.mp (List.mem_of_getElem? hm)
    cases hlast

/-- The first waker of a future whose poll registers no timer. -/
theorem Remembered.first_same (h : Remembered s c) (ha : Armed s) {i : ℕ} {m : Member T W}
    (hm : s.Live i m) {o : Option W} (ho : o = none ∨ ∃ a, m.fut.timer.timerHandle = some a) :
    Function.update c.first i ((c.first i).or o) = c.first := by
  refine Function.update_eq_self_iff.mpr ?_
  rcases ho with rfl | ⟨a, hh⟩
  · exact Option.or_none
  · obtain ⟨w, hreg, -⟩ := ha.armed i m hm a hh
    rw [(h.first i w).mpr ⟨a, hreg⟩, Option.some_or]

/-- The first waker of a future whose poll registers its timer. -/
theorem Remembered.first_new (h : Remembered s c) (hk : Kept s) {i : ℕ} {m : Member T W}
    (hm : s.Live i m) (hnone : m.fut.timer.timerHandle = none) (handle : TimerHandle T)
    (waker : W) (j : ℕ) (w : W) :
    Function.update c.first i ((c.first i).or (some waker)) j = some w ↔
      ∃ a, (j, a, w) ∈ s.registered ++ [(i, handle, waker)] := by
  have hnew : ∀ a v, (i, a, v) ∉ s.registered := by
    intro a v hreg
    obtain ⟨m', hm', hh⟩ := hk.handle i a v hreg
    obtain rfl : m = m' := Option.some.inj (hm.1.symm.trans hm')
    rw [hnone] at hh
    cases hh
  have hfirst : c.first i = none := by
    refine Option.eq_none_iff_forall_ne_some.mpr fun v hv => ?_
    obtain ⟨a, hreg⟩ := (h.first i v).mp hv
    exact hnew a v hreg
  rw [hfirst, Option.none_or]
  rcases eq_or_ne j i with rfl | hne
  · rw [Function.update_self]
    simp [hnew, eq_comm]
  · rw [Function.update_of_ne hne, h.first]
    simp [hne]

theorem Remembered.pollMember (h : Remembered s c) (hk : Kept s) (ha : Armed s) {i : ℕ}
    {m : Member T W} (hm : s.Live i m) {now : T} (waker : W) (answer : Poll ρ) :
    Remembered (s.pollMember i m now waker answer)
      (c.remember s (.poll i now waker answer)) := by
  constructor
  · rw [Calls.remember, Calls.pendingWaker, hm.1, Option.bind_some]
    obtain ⟨f, ⟨hf, hp⟩ | ⟨-, hhandle, hf, hp⟩ | ⟨-, hnone, hf, hp⟩⟩ :=
      Fut.poll_cases s.reactor s.counter now waker m.fut answer
    · rw [World.pollMember, hp, Fut.made_same hf]
      simpa [h.first_same ha hm (.inl rfl)] using h.first
    · have hsame := h.first_same ha hm (.inr hhandle : some waker = none ∨ _)
      rw [World.pollMember, hp, Fut.made_same hf, List.map_nil, List.append_nil]
      exact fun j w => (iff_of_eq (congrArg (· j = some w) hsame)).trans (h.first j w)
    · rw [World.pollMember, hp, Fut.made_new hnone hf]
      exact h.first_new hk hm hnone _ waker
  · rintro j m' ⟨hm', hlive⟩ w k hlast v
    rcases getElem?_set_cases hm.1 hm' with ⟨rfl, rfl⟩ | ⟨hne, hm'⟩
    · -- nothing was woken since
      have hk : k = s.woken.length := by
        simp only [ite_eq_iff, reduceCtorEq, and_false, false_or, Option.some.injEq,
          Prod.mk.injEq] at hlast
        exact hlast.2.2.symm
      have hcome : (c.remember s (.poll j now waker answer)).come j = ∅ := Function.update_self ..
      rw [hk, World.pollMember, List.drop_length, hcome]
      exact iff_of_false List.not_mem_nil not_false
    · have hcome : (c.remember s (.poll i now waker answer)).come j = c.come j :=
        Function.update_of_ne hne ..
      rw [hcome]
      exact h.come j m' ⟨hm', hlive⟩ w k hlast v

theorem Remembered.dropMember (h : Remembered s c) {i : ℕ} {m : Member T W} (hm : s.Live i m) :
    Remembered (s.dropMember i m) c := by
  refine ⟨h.first, ?_⟩
  rintro j m' ⟨hm', hlive⟩ w k hlast v
  rcases getElem?_set_cases hm.1 hm' with ⟨-, rfl⟩ | ⟨-, hm'⟩
  · cases hlive
  · exact h.come j m' ⟨hm', hlive⟩ w k hlast v

theorem Remembered.pollReactor (h : Remembered s c) (hk : Kept s) (ha : Armed s) (now : T) :
    Remembered (s.pollReactor now) (c.remember s (.reactor now : Action T W ρ)) := by
  refine ⟨h.first, fun i m hm w k hlast v => ?_⟩
  rw [(s.pollReactor_eq now).2, List.drop_append_of_le_length (hk.woken i m hm w k hlast).1,
    List.mem_append, h.mem_due hk ha, h.come i m hm w k hlast]
  exact Iff.rfl

/-- After every action the memory is still that of what the reactor was given and has woken. -/
theorem Remembered.step (h : Remembered s c) (hk : Kept s) (ha : Armed s) {a : Action T W ρ}
    (hs : s.step a = some s') : Remembered s' (c.remember s a) := by
  cases a with
  | delay d => exact Option.some.inj hs ▸ h.create _
  | timeout d => exact Option.some.inj hs ▸ h.create _
  | poll i now waker answer =>
    obtain ⟨m, hi, hs⟩ := Option.bind_eq_some_iff.mp hs
    obtain ⟨⟨hlive, -⟩, hs⟩ := Option.ite_none_right_eq_some.mp hs
    exact Option.some.inj hs ▸ h.pollMember hk ha ⟨hi, hlive⟩ waker answer
  | drop i =>
    obtain ⟨m, hi, hs⟩ := Option.bind_eq_some_iff.mp hs
    obtain ⟨hlive, hs⟩ := Option.ite_none_right_eq_some.mp hs
    exact Option.some.inj hs ▸ h.dropMember ⟨hi, hlive⟩
  | reactor now =>
    obtain ⟨-, hs⟩ := Option.ite_none_right_eq_some.mp hs
    exact Option.some.inj hs ▸ h.pollReactor hk ha now
  | elsewhere =>
    obtain rfl := Option.some.inj hs
    exact ⟨h.first, h.come⟩

end Remembered

/-! ### Runs -/

/-- What holds in a run whose latest wakers are known. -/
structure ServedInv (r : World T W × Calls W) : Prop where
  kept : Kept r.1
  armed : Armed r.1
  remembered : Remembered r.1 r.2

theorem servedInv_start (now : T) : ServedInv ((World.start now, .start) : World T W × Calls W) :=
  ⟨kept_start now, armed_start now, remembered_start now⟩

/-- **Every action** keeps it, if the latest wakers are known. -/
theorem ServedInv.step {r r' : World T W × Calls W} (h : ServedInv r) {a : Action T W ρ}
    (hfresh : NoReuse r.1 a) (hG : Known r.1 r.2 a)
    (hs : withMemory World.step Calls.remember r a = some r') : ServedInv r' := by
  obtain ⟨hs, hmemory⟩ := withMemory_eq_some.mp hs
  refine ⟨?_, h.armed.step h.kept hfresh hs, hmemory ▸ h.remembered.step h.kept h.armed hs⟩
  exact h.kept.step hfresh ((h.remembered.known_iff h.kept h.armed a).mpr hG) hs

/-- **When delays and timeouts are served.** Along a run in which `COUNTER` makes no
handle twice, the futures are served in every state if and only if their latest
wakers are known at each poll of the reactor: some future, itself or another one, was first
polled with the waker that a future was last polled with, and the reactor comes to the
deadline of this one after that poll and not after it comes to the deadline of the other. -/
theorem served_iff (start : T) (actions : List (Action T W ρ))
    (hfresh : EachStep World.step NoReuse (World.start start) actions) :
    Always World.step (Served ρ) (World.start start) actions ↔
      EachStep (withMemory World.step Calls.remember) (fun r a => Known r.1 r.2 a)
        (World.start start, .start) actions := by
  rw [← always_withMemory Calls.start]
  refine always_iff_eachStep (fun r (h : ServedInv r) => h.kept.served ρ) ?_ ?_
    (servedInv_start start) (hfresh.withMemory Calls.start)
  · exact fun r a r' h hfresh hG hs => h.step hfresh hG hs
  · intro r a r' h _ hG hs
    obtain ⟨hs, -⟩ := withMemory_eq_some.mp hs
    rw [← h.remembered.known_iff h.kept h.armed] at hG
    cases a with
    | reactor now =>
      obtain ⟨-, hs⟩ := Option.ite_none_right_eq_some.mp hs
      exact Option.some.inj hs ▸ h.kept.not_served hG
    | delay | timeout | poll | drop | elsewhere => exact absurd trivial hG

/-- One delay, polled once before its deadline. -/
def onePoll : List (Action ℕ ℕ ℕ) := [.delay 10, .poll 0 0 1 .pending, .reactor 10]

theorem onePoll_noReuse : EachStep World.step NoReuse (World.start 0 : World ℕ ℕ) onePoll := by
  intro s₁ h₁
  cases h₁
  refine ⟨fun t ht => ?_, fun s₂ h₂ => ?_⟩
  · cases ht
    exact List.nodup_nil
  cases h₂
  refine ⟨fun t ht => ?_, fun s₃ h₃ => ⟨fun t ht => ?_, trivial⟩⟩
  · cases ht
    exact List.nodup_singleton _
  · cases ht
    exact List.nodup_singleton _

/-- One delay, polled once and woken. -/
theorem served_iff_once :
    Always World.step (Served ℕ) (World.start 0 : World ℕ ℕ) onePoll ↔
      EachStep (withMemory World.step Calls.remember) (fun r a => Known r.1 r.2 a)
        ((World.start 0, .start) : World ℕ ℕ × Calls ℕ) onePoll :=
  served_iff 0 onePoll onePoll_noReuse

/-- **A delay that moves to another task**: it is polled with the waker of the first
task and then with that of the second, and the reactor, at its deadline, wakes the
first. -/
theorem second_waker_not_woken : ∃ s, runList World.step (World.start 0 : World ℕ ℕ)
      [(.delay 10 : Action ℕ ℕ ℕ), .poll 0 0 1 .pending, .poll 0 1 2 .pending, .reactor 10] =
        some s ∧
    (∃ m, s.Live 0 m ∧ m.fut.timer.deadline = 10 ∧ m.last = some (2, 0)) ∧
    s.polledAt = some 10 ∧ s.woken = [1] ∧ s.reactor.timers.entries = [] ∧ ¬Served ℕ s := by
  refine ⟨_, rfl, ⟨_, ⟨rfl, rfl⟩, rfl, rfl⟩, rfl, rfl, rfl, fun h => ?_⟩
  have hwoken := h.woken 0 _ ⟨rfl, rfl⟩ 2 0 rfl ⟨10, rfl, le_rfl⟩
  exact absurd hwoken (by decide)

/-! ### Futures that stay with their waker -/

/-- A future is polled with the waker it was first polled with. -/
def SameWaker (c : Calls W) : Action T W ρ → Prop
  | .poll i _ waker _ => ∀ w, c.first i = some w → waker = w
  | _ => True

/-- The waker of the last poll of a future is the one it was first polled with. -/
def Constant (s : World T W) (c : Calls W) : Prop :=
  ∀ i m, s.Live i m → ∀ w k, m.last = some (w, k) → c.first i = some w

section Constant

variable {s s' : World T W} {c : Calls W}

/-- **Wakers that never change** are known. -/
theorem Constant.known (h : Constant s c) (a : Action T W ρ) : Known s c a := by
  cases a with
  | reactor now =>
    exact fun i m hm w k hlast hnot hle => .inl ⟨i, m, hm, h i m hm w k hlast, hnot, hle⟩
  | delay | timeout | poll | drop | elsewhere => trivial

theorem Constant.create (h : Constant s c) (f : Fut T) :
    Constant { s with members := s.members ++ [⟨f, false, none⟩] } c := by
  rintro i m ⟨hm, hlive⟩ w k hlast
  rcases Nat.lt_or_ge i s.members.length with hlt | hge
  · rw [List.getElem?_append_left hlt] at hm
    exact h i m ⟨hm, hlive⟩ w k hlast
  · rw [List.getElem?_append_right hge] at hm
    obtain rfl := List.mem_singleton.mp (List.mem_of_getElem? hm)
    cases hlast

theorem Constant.pollMember (h : Constant s c) {i : ℕ} {m : Member T W} (hm : s.Live i m)
    {now : T} {waker : W} {answer : Poll ρ}
    (hsame : SameWaker c (.poll i now waker answer : Action T W ρ)) :
    Constant (s.pollMember i m now waker answer) (c.remember s (.poll i now waker answer)) := by
  rintro j m' ⟨hm', hlive⟩ w k hlast
  rcases getElem?_set_cases hm.1 hm' with ⟨rfl, rfl⟩ | ⟨hne, hm'⟩
  · rw [Calls.remember]
    dsimp only at hlast ⊢
    rw [Function.update_self, Calls.pendingWaker, hm.1, Option.bind_some]
    split at hlast
    · cases hlast
    · next hpending =>
      obtain ⟨rfl, -⟩ := Prod.mk.inj (Option.some.inj hlast)
      rw [if_neg hpending]
      cases hfirst : c.first j with
      | none => rfl
      | some v => rw [hsame v hfirst, Option.some_or]
  · rw [Calls.remember]
    exact (Function.update_of_ne hne ..).trans (h j m' ⟨hm', hlive⟩ w k hlast)

theorem Constant.step (h : Constant s c) {a : Action T W ρ} (hsame : SameWaker c a)
    (hs : s.step a = some s') : Constant s' (c.remember s a) := by
  cases a with
  | delay d => exact Option.some.inj hs ▸ h.create _
  | timeout d => exact Option.some.inj hs ▸ h.create _
  | poll i now waker answer =>
    obtain ⟨m, hi, hs⟩ := Option.bind_eq_some_iff.mp hs
    obtain ⟨⟨hlive, -⟩, hs⟩ := Option.ite_none_right_eq_some.mp hs
    exact Option.some.inj hs ▸ h.pollMember ⟨hi, hlive⟩ hsame
  | drop i =>
    obtain ⟨m, hi, hs⟩ := Option.bind_eq_some_iff.mp hs
    obtain ⟨hlive, hs⟩ := Option.ite_none_right_eq_some.mp hs
    obtain rfl := Option.some.inj hs
    rintro j m' ⟨hm', hlive'⟩ w k hlast
    rcases getElem?_set_cases hi hm' with ⟨-, rfl⟩ | ⟨-, hm'⟩
    · cases hlive'
    · exact h j m' ⟨hm', hlive'⟩ w k hlast
  | reactor now =>
    obtain ⟨-, hs⟩ := Option.ite_none_right_eq_some.mp hs
    exact Option.some.inj hs ▸ h
  | elsewhere => exact Option.some.inj hs ▸ h

/-- **Futures that stay with their first waker are served.** -/
theorem served_of_sameWaker (start : T) (actions : List (Action T W ρ))
    (hfresh : EachStep World.step NoReuse (World.start start) actions)
    (hsame : EachStep (withMemory World.step Calls.remember) (fun r a => SameWaker r.2 a)
      (World.start start, .start) actions) :
    Always World.step (Served ρ) (World.start start) actions := by
  rw [← always_withMemory Calls.start]
  refine always_of_invariant (fun r (h : ServedInv r ∧ Constant r.1 r.2) => h.1.kept.served ρ) ?_
    ⟨servedInv_start start, fun i m hm => by simp [World.start, World.Live] at hm⟩
    ((hfresh.withMemory Calls.start).and hsame)
  rintro r a r' ⟨h, hc⟩ ⟨hfresh, hsame⟩ hs
  refine ⟨h.step hfresh (hc.known a) hs, ?_⟩
  obtain ⟨hs, hmemory⟩ := withMemory_eq_some.mp hs
  exact hmemory ▸ hc.step hsame hs

end Constant

end Timer

end Pluvio
