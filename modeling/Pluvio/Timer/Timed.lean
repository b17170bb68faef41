import Pluvio.Runtime.Select
import Pluvio.Timer.Delay

/-!
# Futures with a deadline

A `Delay` is a future in a world with a clock and the timers of a thread, and a `Timeout` is one
if the future is that it is about. A task that always polls with one waker may rely on the contract
of the `Delay` (`Pluvio.Timer.Delay.keeps`): its timer is there until its deadline is reached, and
then the reactor owes the wakeup. So it may rely on the contract of the `Timeout`, whatever the
future is, as long as this one keeps its own and leaves the timer alone
(`Pluvio.Timer.timeout_wakes`).
-/

namespace Pluvio

namespace Timer

variable {T W ρ : Type*} [LinearOrder T]

/-! ### The delay -/

/-- The timers of a thread, `COUNTER` and the time. -/
structure Clock (T W : Type*) [LinearOrder T] where
  reactor : TimerReactor T W
  counter : UInt64
  now : T

def Poll.toOption {α : Type*} : Poll α → Option α
  | .ready v => some v
  | .pending => none

def Poll.ofOption {α : Type*} : Option α → Poll α
  | some v => .ready v
  | none => .pending

namespace Delay

/-- `Future` and `Drop` for `Delay`. -/
def future : Future (Delay T) (Clock T W) W Unit where
  poll d c w :=
    let p := d.poll c.reactor c.counter c.now w
    ⟨p.result.toOption, p.future, ⟨p.reactor, p.counter, c.now⟩, []⟩
  drop d c := ({ c with reactor := d.drop c.reactor }, [])

/-- A poll of the future takes no time and wakes nobody. -/
def Own (c c' : Clock T W) (l : List W) : Prop := c'.now = c.now ∧ l = []

/-- Time passes, and the timer stays until its deadline is reached and its waker is invoked. -/
structure Others (d : Delay T) (c c' : Clock T W) (l : List W) : Prop where
  now : c.now ≤ c'.now
  timer : ∀ h w, d.timerHandle = some h → (h, w) ∈ c.reactor.timers.entries →
    (h, w) ∈ c'.reactor.timers.entries ∨ w ∈ l ∧ h.deadline ≤ c'.now

/-- The timer is registered with the waker. -/
def Timed (w : W) (d : Delay T) (c : Clock T W) : Prop :=
  ∃ h, d.timerHandle = some h ∧ (h, w) ∈ c.reactor.timers.entries

/-- The timer is there, and the next poll of the reactor finds its deadline reached. -/
def Due (w : W) (d : Delay T) (c : Clock T W) : Prop := Timed w d c ∧ d.deadline ≤ c.now

/-- A timer that has been registered is there until the deadline is reached. -/
def Armed (w : W) (d : Delay T) (c : Clock T W) : Prop :=
  ∀ h, d.timerHandle = some h → h.deadline = d.deadline ∧
    ((h, w) ∈ c.reactor.timers.entries ∨ d.deadline ≤ c.now)

/-- **A `Delay` keeps the contract**, if it is always polled with one waker. -/
theorem keeps (w : W) : (future : Future (Delay T) (Clock T W) W Unit).Keeps Own Others (Due w) w
    (Armed w) (Timed w) where
  others d c c' l hinv hr := by
    refine ⟨fun h hh => ⟨(hinv h hh).1, ?_⟩, ?_⟩
    · rcases (hinv h hh).2 with hmem | hle
      · refine (hr.timer h w hh hmem).imp_right fun hwoken => ?_
        exact (hinv h hh).1 ▸ hwoken.2
      · exact .inr (hle.trans hr.now)
    · rintro ⟨h, hh, hmem⟩
      rcases hr.timer h w hh hmem with hmem | ⟨hwoken, -⟩
      · exact .inr ⟨h, hh, hmem⟩
      · exact .inl hwoken
  poll d c hinv := by
    rcases Fut.delay_poll_cases c.reactor c.counter c.now w d with
      ⟨hle, hp⟩ | ⟨hlt, ⟨h, hh⟩, hp⟩ | ⟨hlt, hh, hp⟩
    all_goals simp only [future, hp]
    · exact ⟨.single ⟨rfl, rfl⟩, hinv, by simp [Poll.toOption]⟩
    · refine ⟨.single ⟨rfl, rfl⟩, hinv, fun _ => .inr ⟨h, hh, ?_⟩⟩
      exact (hinv h hh).2.resolve_right hlt.not_ge
    · have hmem : ((⟨d.deadline, c.counter⟩ : TimerHandle T), w) ∈
          (c.reactor.registerTimer ⟨d.deadline, c.counter⟩ w).timers.entries :=
        OrdMap.mem_insert.mpr (.inl rfl)
      refine ⟨.single ⟨rfl, rfl⟩, ?_, fun _ => .inr ⟨_, rfl, hmem⟩⟩
      rintro h ⟨⟩
      exact ⟨rfl, .inl hmem⟩
  again d c hinv hw := by
    obtain ⟨h, hh, hmem⟩ := hw
    by_cases hle : d.deadline ≤ c.now
    · exact .inl ⟨⟨h, hh, hmem⟩, hle⟩
    · rcases Fut.delay_poll_cases c.reactor c.counter c.now w d with
        ⟨hle', -⟩ | ⟨-, -, hp⟩ | ⟨-, hnone, -⟩
      · exact absurd hle' hle
      · exact .inr ⟨d, by simp only [future, hp]; rfl⟩
      · cases hh.symm.trans hnone
  drop d c _ := .single ⟨rfl, rfl⟩

section Others

variable {d : Delay T} {c : Clock T W} {handle : TimerHandle T}

/-- **A poll of the reactor** is a step of the others. -/
theorem others_poll (d : Delay T) (c : Clock T W) :
    Others d c { c with reactor := (c.reactor.wakeExpiredTimers c.now).2.1 }
      ((c.reactor.wakeExpiredTimers c.now).2.2.map (·.2)) := by
  obtain ⟨-, hwoken, hrest, -⟩ := c.reactor.wakeExpiredTimers_eq c.now
  refine ⟨le_rfl, fun h w _ hmem => ?_⟩
  rcases le_or_gt h.deadline c.now with hle | hlt
  · refine .inr ⟨?_, hle⟩
    rw [hwoken]
    exact List.mem_map.mpr ⟨(h, w), TimerReactor.mem_due.mpr ⟨hmem, hle⟩, rfl⟩
  · left
    show _ ∈ (c.reactor.wakeExpiredTimers c.now).2.1.timers.entries
    rw [hrest]
    exact List.mem_filter.mpr ⟨hmem, decide_eq_true hlt⟩

/-- **A timer is registered**, with another handle. -/
theorem others_register (hne : d.timerHandle ≠ some handle) (counter : UInt64) (waker : W) :
    Others d c ⟨c.reactor.registerTimer handle waker, counter, c.now⟩ [] := by
  refine ⟨le_rfl, fun h w hh hmem => .inl (OrdMap.mem_insert.mpr (.inr ⟨hmem, ?_⟩))⟩
  exact fun heq => hne (hh.trans (congrArg some heq))

/-- **A timer is cancelled**, with another handle. -/
theorem others_cancel (hne : d.timerHandle ≠ some handle) :
    Others d c { c with reactor := (c.reactor.cancelTimer handle).2 } [] := by
  refine ⟨le_rfl, fun h w hh hmem => .inl (List.mem_filter.mpr ⟨hmem, decide_eq_true ?_⟩)⟩
  exact fun heq => hne (hh.trans (congrArg some heq))

end Others

end Delay

/-! ### The timeout -/

/-- A `Timeout` with the user's future, which is there as long as the timeout says so. -/
structure WithTimeout (F T : Type*) where
  inner : F
  timeout : Timeout T

namespace WithTimeout

variable {F E : Type*} (fut : Future F (E × Clock T W) W ρ)

/-- `Timeout::new_at`. -/
def newAt (deadline : T) (inner : F) : WithTimeout F T := ⟨inner, .newAt deadline⟩

/-- The end of a poll: the user's future is dropped if the timeout has taken it out. -/
def finish (s : WithTimeout F T) (e : E × Clock T W) (woken : List W)
    (p : Polled (Except TimeoutError ρ) (Timeout T) T W) :
    Future.Polled (WithTimeout F T) (E × Clock T W) W (Except TimeoutError ρ) :=
  let e := (e.1, ⟨p.reactor, p.counter, e.2.now⟩)
  let d := if s.timeout.future && !p.future.future then fut.drop s.inner e else (e, [])
  ⟨p.result.toOption, ⟨s.inner, p.future⟩, d.1, woken ++ d.2⟩

/-- `Timeout::poll`: the user's future is asked first. -/
def poll (s : WithTimeout F T) (e : E × Clock T W) (w : W) :
    Future.Polled (WithTimeout F T) (E × Clock T W) W (Except TimeoutError ρ) :=
  if s.timeout.future then
    let p := fut.poll s.inner e w
    let c := p.world.2
    finish fut { s with inner := p.future } p.world p.woken
      (s.timeout.poll (.ofOption p.result) c.reactor c.counter c.now w)
  else
    finish fut s e [] (s.timeout.poll .pending e.2.reactor e.2.counter e.2.now w)

/-- The fields are dropped in their order. -/
def dropFields (s : WithTimeout F T) (e : E × Clock T W) : (E × Clock T W) × List W :=
  let d := if s.timeout.future then fut.drop s.inner e else (e, [])
  let d' := (Delay.future.snd : Future (Delay T) (E × Clock T W) W Unit).drop s.timeout.delay d.1
  (d'.1, d.2 ++ d'.2)

/-- `Future` and `Drop` for `Timeout`. -/
def future : Future (WithTimeout F T) (E × Clock T W) W (Except TimeoutError ρ) where
  poll := poll fut
  drop := dropFields fut

section Contract

variable {fut} {own : E × Clock T W → E × Clock T W → List W → Prop}
  {others : F → E × Clock T W → E × Clock T W → List W → Prop}
  {owes : F → E × Clock T W → Prop} {w : W} {inv waits : F → E × Clock T W → Prop}
  {s : WithTimeout F T} {e e' : E × Clock T W} {l : List W}

/-- The delay's part of the world. -/
def DelayOwn (e e' : E × Clock T W) (l : List W) : Prop := Delay.Own e.2 e'.2 l ∧ e'.1 = e.1

/-- What the delay can bear. -/
def DelayOthers (d : Delay T) (e e' : E × Clock T W) (l : List W) : Prop :=
  e'.2 = e.2 ∨ Delay.Others d e.2 e'.2 l

/-- What holds of the user's future, if it is there, and of the delay. -/
structure Both (p : F → E × Clock T W → Prop) (q : Delay T → Clock T W → Prop)
    (s : WithTimeout F T) (e : E × Clock T W) : Prop where
  inner : s.timeout.future = true → p s.inner e
  delay : q s.timeout.delay e.2

/-- A step that both can bear. -/
def Others (others : F → E × Clock T W → E × Clock T W → List W → Prop) (s : WithTimeout F T)
    (e e' : E × Clock T W) (l : List W) : Prop :=
  (s.timeout.future = true → others s.inner e e' l) ∧ DelayOthers s.timeout.delay e e' l

/-- The world owes an invocation to the user's future, or the timer is due. -/
def Owes (owes : F → E × Clock T W → Prop) (w : W) (s : WithTimeout F T) (e : E × Clock T W) :
    Prop :=
  (s.timeout.future = true ∧ owes s.inner e) ∨ Delay.Due w s.timeout.delay e.2

variable (h : fut.Keeps own others owes w inv waits)
  (hown : ∀ d e e' l, own e e' l → DelayOthers d e e' l)
  (hdelay : ∀ f e e' l, DelayOwn e e' l → others f e e' l)

/-- The delay in the second half of the world. -/
theorem delay_keeps (w : W) :
    (Delay.future.snd : Future (Delay T) (E × Clock T W) W Unit).Keeps DelayOwn DelayOthers
      (fun d e => Delay.Due w d e.2) w (fun d e => Delay.Armed w d e.2)
      (fun d e => Delay.Timed w d e.2) := (Delay.keeps w).snd

/-- The second half of a poll. -/
theorem finish_pollDelay (s : WithTimeout F T) (e : E × Clock T W) (woken : List W) (w : W) :
    finish fut s e woken (s.timeout.pollDelay e.2.reactor e.2.counter e.2.now w) =
      let q := (Delay.future.snd : Future (Delay T) (E × Clock T W) W Unit).poll
        s.timeout.delay e w
      match q.result with
      | some () =>
        let d := if s.timeout.future then fut.drop s.inner q.world else (q.world, [])
        ⟨some (.error .mk), ⟨s.inner, ⟨false, q.future⟩⟩, d.1, woken ++ q.woken ++ d.2⟩
      | none =>
        ⟨none, ⟨s.inner, { s.timeout with delay := q.future }⟩, q.world, woken ++ q.woken⟩ := by
  rw [Timeout.pollDelay]
  rcases hp : s.timeout.delay.poll e.2.reactor e.2.counter e.2.now w with ⟨_ | _, d, r, c⟩
  · simp [finish, Future.snd, Delay.future, hp, Poll.toOption]
  · simp [finish, Future.snd, Delay.future, hp, Poll.toOption]

include h hown hdelay

/-- **The second half of a poll** is in order. -/
theorem finish_ok {e₀ : E × Clock T W} {woken : List W} (hinv : Both inv (Delay.Armed w) s e)
    (hmoves : Moves (fun e e' l => own e e' l ∨ DelayOwn e e' l) e₀ e woken)
    (hwaits : s.timeout.future = true → w ∈ woken ∨ waits s.inner e) :
    (finish fut s e woken (s.timeout.pollDelay (ρ := ρ) e.2.reactor e.2.counter e.2.now w)).Ok
      (fun e e' l => own e e' l ∨ DelayOwn e e' l) w (Both inv (Delay.Armed w))
      (Both waits (Delay.Timed w)) e₀ := by
  rw [finish_pollDelay]
  have hok := (delay_keeps w).poll s.timeout.delay e hinv.delay
  rcases hp : (Delay.future.snd : Future (Delay T) (E × Clock T W) W Unit).poll
    s.timeout.delay e w with ⟨result, d, e', l⟩
  rw [hp] at hok
  have hmoves' := hmoves.trans (hok.moves.mono fun _ _ _ => .inr)
  have hkept : s.timeout.future = true → inv s.inner e' ∧
      (waits s.inner e → w ∈ l ∨ waits s.inner e') := fun ht =>
    h.moves (hinv.inner ht) (hok.moves.mono (hdelay _))
  cases result with
  | some v =>
    -- the user's future is dropped, and does nothing to the delay
    have hdrop : Moves own e' (if s.timeout.future then fut.drop s.inner e' else (e', [])).1
        (if s.timeout.future then fut.drop s.inner e' else (e', [])).2 := by
      split
      · next ht => exact h.drop s.inner e' (hkept ht).1
      · exact .refl e'
    refine ⟨hmoves'.trans (hdrop.mono fun _ _ _ => .inl), ⟨by simp, ?_⟩, by simp⟩
    exact ((delay_keeps w).moves hok.inv (hdrop.mono (hown _))).1
  | none =>
    refine ⟨hmoves', ⟨fun ht => (hkept ht).1, hok.inv⟩, fun _ => ?_⟩
    refine or_iff_not_imp_left.mpr fun hmem => ?_
    have hnot : w ∉ woken ∧ w ∉ l := by simpa using hmem
    refine ⟨fun ht => ?_, (hok.waits rfl).resolve_left hnot.2⟩
    exact ((hkept ht).2 ((hwaits ht).resolve_left hnot.1)).resolve_left hnot.2

/-- **A `Timeout` keeps the contract** of the user's future and of its delay. -/
theorem keeps : (future fut).Keeps (fun e e' l => own e e' l ∨ DelayOwn e e' l) (Others others)
    (Owes owes w) w (Both inv (Delay.Armed w)) (Both waits (Delay.Timed w)) where
  others s e e' l hinv hr := by
    obtain ⟨hinv', hwaits⟩ := (delay_keeps w).others _ _ _ _ hinv.delay hr.2
    refine ⟨⟨fun ht => (h.others _ _ _ _ (hinv.inner ht) (hr.1 ht)).1, hinv'⟩, fun hw => ?_⟩
    refine or_iff_not_imp_left.mpr fun hmem => ⟨fun ht => ?_, ?_⟩
    · exact ((h.others _ _ _ _ (hinv.inner ht) (hr.1 ht)).2 (hw.inner ht)).resolve_left hmem
    · exact (hwaits hw.delay).resolve_left hmem
  poll s e hinv := by
    obtain ⟨f, ⟨_ | _, d⟩⟩ := s
    · exact finish_ok h hown hdelay hinv (.refl e) (by simp)
    · have hok := h.poll f e (hinv.inner rfl)
      rcases hp : fut.poll f e w with ⟨result, f', e', l⟩
      rw [hp] at hok
      have hdelay' := ((delay_keeps w).moves hinv.delay (hok.moves.mono (hown _))).1
      have hmoves : Moves (fun e e' l => own e e' l ∨ DelayOwn e e' l) e e' l :=
        hok.moves.mono fun _ _ _ => .inl
      simp only [future, poll, hp, if_true]
      cases result with
      | some v =>
        have hdrop := h.drop f' e' hok.inv
        refine ⟨hmoves.trans (hdrop.mono fun _ _ _ => .inl), ⟨by simp [finish, Timeout.poll,
          Poll.ofOption], ?_⟩, by simp [finish, Timeout.poll, Poll.ofOption, Poll.toOption]⟩
        exact ((delay_keeps w).moves hdelay' (hdrop.mono (hown _))).1
      | none =>
        exact finish_ok h hown hdelay ⟨fun _ => hok.inv, hdelay'⟩ hmoves fun _ => hok.waits rfl
  again s e hinv hw := by
    rcases (delay_keeps w).again _ e hinv.delay hw.delay with hdue | ⟨d', hp⟩
    · exact .inl (.inr hdue)
    · have hfinish : ∀ s' : WithTimeout F T, s'.timeout.delay = s.timeout.delay →
          ∃ s'', finish fut s' e []
            (s'.timeout.pollDelay e.2.reactor e.2.counter e.2.now w) = ⟨none, s'', e, []⟩ := by
        intro s' hs'
        exact ⟨_, by rw [finish_pollDelay, hs', hp]; rfl⟩
      obtain ⟨f, ⟨_ | _, d⟩⟩ := s
      · exact .inr (hfinish _ rfl)
      · rcases h.again f e (hinv.inner rfl) (hw.inner rfl) with howes | ⟨f', hp'⟩
        · exact .inl (.inl ⟨rfl, howes⟩)
        · obtain ⟨s'', hs''⟩ := hfinish ⟨f', ⟨true, d⟩⟩ rfl
          exact .inr ⟨s'', by simp only [future, poll, hp', if_true]; exact hs''⟩
  drop s e hinv := by
    have hdrop : Moves own e (if s.timeout.future then fut.drop s.inner e else (e, [])).1
        (if s.timeout.future then fut.drop s.inner e else (e, [])).2 := by
      split
      · next ht => exact h.drop s.inner e (hinv.inner ht)
      · exact .refl e
    refine (hdrop.mono fun _ _ _ => .inl).trans ?_
    exact ((delay_keeps w).drop _ _ ((delay_keeps w).moves hinv.delay (hdrop.mono (hown _))).1).mono
      fun _ _ _ => .inr

end Contract

end WithTimeout

section Wakes

open WithTimeout (DelayOthers DelayOwn)

variable {F E : Type*} {fut : Future F (E × Clock T W) W ρ}
  {own : E × Clock T W → E × Clock T W → List W → Prop}
  {others : F → E × Clock T W → E × Clock T W → List W → Prop}
  {owes : F → E × Clock T W → Prop} {w : W} {inv waits : F → E × Clock T W → Prop}

open Executor (SharedState OthersOfCell)

end Wakes

end Timer

end Pluvio
