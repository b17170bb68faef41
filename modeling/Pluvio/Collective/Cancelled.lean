import Pluvio.Collective.Receive

/-!
# Dropped receives and their late payloads

The payloads of a key are addressed to its receives in the order in which these are
created: the `k`-th payload to the `k`-th receive, whatever became of it. A receive
that is dropped while it waits takes its slot with it, but not its payload, which
comes later and meets whatever the slot holds then. Nothing marks it as late, so
three things can happen: it fills the receive that was posted next, it is kept as
the early payload that the next receive takes, or it meets an early payload in the
slot, and the two are discarded.

Only the last one is harmless, and only if both payloads were for dropped receives.
`Pluvio.Mailbox.cancel_safe_iff` says that these are the runs in which every payload
goes to the receive it was addressed to (`Pluvio.Mailbox.Addressed`): no receive
waits when a late payload comes, and another late payload discards it before the
next receive looks into the slot.

The invariant is `Pluvio.Mailbox.Turn`: one receive at most is not completed, the
last one, and the early payload is the last that came.
-/

namespace Pluvio

namespace Mailbox

variable {W α : Type*}

/-! ### Who a payload is for -/

/-- **Every payload of the key is for one receive**: the receive gets it, and gets no
other, and until then it is kept. -/
structure Addressed (κ : RecvKey) (s : State W α) : Prop where
  /-- A completed receive has got the payload that was addressed to it. -/
  own : ∀ f fut, s.futs f = some fut → f.1 = κ → s.node.done f = true →
    ∃ m, (s.delivered κ)[f.2]? = some m ∧ Got s.node fut f.2 m
  /-- The payload of a receive that is not created yet is kept. -/
  kept : ∀ k m, (s.delivered κ)[k]? = some m → s.created κ ≤ k →
    s.node.router.slots κ = some (.early ⟨m, k⟩)
  /-- The payload of a receive that was not dropped has been got, or the first poll
  of the receive will find it. -/
  found : ∀ k m fut, (s.delivered κ)[k]? = some m → s.futs (κ, k) = some fut →
    s.node.done (κ, k) = true ∨
      fut.registered = false ∧ s.node.router.slots κ = some (.early ⟨m, k⟩)

/-- A receive is created on the key when the ones before it are completed or dropped. -/
def Alone (κ : RecvKey) (s : State W α) : Event W α → Prop
  | .create key _ => key = κ →
      ∀ f fut, s.futs f = some fut → f.1 = κ → s.node.done f = true
  | _ => True

/-- No payload of a dropped receive is still to come when a payload of the key meets a
receive, be it pending or polled for the first time; and a payload that meets an early
one is for a dropped receive. -/
def InTurn (κ : RecvKey) (s : State W α) : Event W α → Prop
  | .deliver key _ => key = κ →
      (∀ p, s.node.router.slots κ = some (.pending p) →
        (s.delivered κ).length + 1 = s.created κ) ∧
      ∀ m, s.node.router.slots κ = some (.early m) →
        (s.delivered κ).length < s.created κ ∧ s.futs (κ, (s.delivered κ).length) = none
  | .poll f _ => f.1 = κ → ∀ fut m, s.futs f = some fut → Fresh s fut →
      s.node.router.slots κ = some (.early m) → (s.delivered κ).length = s.created κ
  | _ => True

/-- The invariant of a key whose payloads go where they were addressed. -/
structure Turn (κ : RecvKey) (s : State W α) : Prop where
  live : Live s
  addressed : Addressed κ s
  /-- A receive that is not completed is the last one. -/
  last : ∀ f fut, s.futs f = some fut → f.1 = κ → s.node.done f = false →
    f.2 + 1 = s.created κ
  /-- A receive that waits has its slot. -/
  slot : ∀ f fut, s.futs f = some fut → f.1 = κ → s.node.done f = false →
    fut.registered = true → ∃ p, s.node.router.slots κ = some (.pending p)
  /-- The early payload is the last that came. -/
  latest : ∀ m, s.node.router.slots κ = some (.early m) →
    (s.delivered κ).length = m.origin + 1

theorem turn_start (κ : RecvKey) (heap : Heap Name α) : Turn κ (start heap : State W α) where
  live := live_start heap
  addressed := ⟨fun _ _ h => (nomatch h), fun _ _ h => (nomatch h), fun _ _ _ h => nomatch h⟩
  last := fun _ _ h => nomatch h
  slot := fun _ _ h => nomatch h
  latest := fun _ h => nomatch h

/-- **The invariant is about what there is of the key**, up to the waker of a pending
receive. -/
theorem Turn.congr {κ : RecvKey} {s s' : State W α} (h : Turn κ s) (hlive : Live s')
    (hslot : s'.node.router.slots κ = s.node.router.slots κ ∨
      ∃ p w, s.node.router.slots κ = some (.pending p) ∧
        s'.node.router.slots κ = some (.pending { p with waker := w }))
    (hdone : ∀ f : Name, f.1 = κ → s'.node.done f = s.node.done f)
    (hgot : ∀ f : Name, f.1 = κ → s'.node.got f = s.node.got f)
    (hheap : ∀ f : Name, f.1 = κ → s'.node.heap f = s.node.heap f)
    (hfuts : ∀ f : Name, f.1 = κ → s'.futs f = s.futs f)
    (hcreated : s'.created κ = s.created κ) (hdel : s'.delivered κ = s.delivered κ) :
    Turn κ s' := by
  have hearly : ∀ m, s'.node.router.slots κ = some (.early m) ↔
      s.node.router.slots κ = some (.early m) := by
    intro m
    rcases hslot with hslot | ⟨p, w, hp, hp'⟩
    · rw [hslot]
    · simp [hp, hp']
  refine ⟨hlive, ⟨fun f fut hf hκ hd => ?_, fun k m hm hk => ?_, fun k m fut hm hf => ?_⟩,
    fun f fut hf hκ hd => ?_, fun f fut hf hκ hd hreg => ?_, fun m hm => ?_⟩
  · rw [hfuts f hκ] at hf
    rw [hdone f hκ] at hd
    obtain ⟨-, hname, hregion⟩ := h.live.own.fut f fut hf
    obtain ⟨m, hm, hg⟩ := h.addressed.own f fut hf hκ hd
    refine ⟨m, by rwa [hdel], ?_, ?_, ?_⟩
    · rw [hname, hdone f hκ, hd]
    · rw [hname, hgot f hκ]
      exact (congrArg _ hname.symm).trans hg.got
    · rw [← hg.holds, Heap.read, Heap.read, hregion, hheap f hκ]
  · rw [hdel] at hm
    rw [hcreated] at hk
    exact (hearly _).mpr (h.addressed.kept k m hm hk)
  · rw [hdel] at hm
    rw [hfuts _ rfl] at hf
    rw [hdone _ rfl, hearly]
    exact h.addressed.found k m fut hm hf
  · rw [hfuts f hκ] at hf
    rw [hdone f hκ] at hd
    rw [hcreated]
    exact h.last f fut hf hκ hd
  · rw [hfuts f hκ] at hf
    rw [hdone f hκ] at hd
    obtain ⟨q, hq⟩ := h.slot f fut hf hκ hd hreg
    rcases hslot with hslot | ⟨p, w, -, hp'⟩
    · exact ⟨q, hslot.trans hq⟩
    · exact ⟨_, hp'⟩
  · rw [hdel]
    exact h.latest m ((hearly m).mp hm)

/-! ### Operations on the key itself -/

section Steps

variable {κ : RecvKey} {s s' : State W α}

/-- The receives that are not completed after one is filled. -/
theorem fill_done_eq_false {n : Node Name Name W α ℕ} {t : Slice Name} {d f : Name}
    {m : Payload α ℕ} : (n.fill t d m).done f = false ↔ f ≠ d ∧ n.done f = false := by
  rcases eq_or_ne f d with rfl | hne
  · have htrue : (n.fill t f m).done f = true := Function.update_self ..
    rw [htrue]
    exact iff_of_false nofun fun h => h.1 rfl
  · exact (fill_done_of_ne hne).trans (and_iff_right hne).symm

/-- A receive that is completed stays so when one is filled. -/
theorem fill_done_of_done {n : Node Name Name W α ℕ} {t : Slice Name} {d f : Name}
    {m : Payload α ℕ} (h : n.done f = true) : (n.fill t d m).done f = true := by
  rcases eq_or_ne f d with rfl | hne
  · exact Function.update_self ..
  · exact (fill_done_of_ne hne).mpr h

/-- There is one receive at most that is not completed. -/
theorem Turn.only {f g : Name} {fut gut : RecvFuture Name Name} (h : Turn κ s)
    (hf : s.futs f = some fut) (hfκ : f.1 = κ) (hfd : s.node.done f = false)
    (hg : s.futs g = some gut) (hgκ : g.1 = κ) (hgd : s.node.done g = false) : f = g := by
  have hflast := h.last f fut hf hfκ hfd
  have hglast := h.last g gut hg hgκ hgd
  exact Prod.ext (hfκ.trans hgκ.symm) (by omega)

/-- When the slot holds no early payload, those that came were for receives that are
completed or dropped. -/
theorem Turn.settled (h : Turn κ s) (hslot : ∀ m, s.node.router.slots κ ≠ some (.early m))
    {k : ℕ} {m : List α} (hm : (s.delivered κ)[k]? = some m) :
    k < s.created κ ∧ ∀ fut, s.futs (κ, k) = some fut → s.node.done (κ, k) = true := by
  constructor
  · by_contra hk
    exact hslot _ (h.addressed.kept k m hm (Nat.not_lt.mp hk))
  · intro fut hf
    rcases h.addressed.found k m fut hm hf with hd | ⟨-, he⟩
    · exact hd
    · exact absurd he (hslot _)

/-- A receive that is completed has its payload among those that came. -/
theorem Turn.lt_of_done (h : Turn κ s) {k : ℕ} {fut : RecvFuture Name Name}
    (hf : s.futs (κ, k) = some fut) (hd : s.node.done (κ, k) = true) :
    k < (s.delivered κ).length := by
  obtain ⟨m, hm, -⟩ := h.addressed.own (κ, k) fut hf rfl hd
  exact (List.getElem?_eq_some_iff.mp hm).1

/-- The payloads that have come after a delivery. -/
theorem of_delivered_update {d : RecvKey → List (List α)} {bytes m : List α} {k : ℕ}
    (h : (Function.update d κ (d κ ++ [bytes]) κ)[k]? = some m) :
    (d κ)[k]? = some m ∨ k = (d κ).length ∧ bytes = m := by
  rw [Function.update_self] at h
  exact getElem?_concat_iff.mp h

/-- A payload that finds its slot vacant comes before its receive. -/
theorem Turn.kept {bytes : List α} (h : Turn κ s) (hslot : s.node.router.slots κ = none)
    (hs : step s (.deliver κ bytes) = some s') : Turn κ s' := by
  have hlive := h.live.step hs
  have hset := fun {k m} => h.settled (k := k) (m := m) (by simp [hslot])
  cases step_effect hs with
  | filled _ _ p hslot' => cases hslot.symm.trans hslot'
  | clash _ _ m hslot' => cases hslot.symm.trans hslot'
  | kept =>
    refine ⟨hlive, ⟨fun f fut hf hκ hd => ?_, fun k m hm hk => ?_, fun k m fut hm hf => ?_⟩,
      h.last, fun f fut hf hκ hd hreg => ?_, fun m hm => ?_⟩
    · obtain ⟨m, hm, hg⟩ := h.addressed.own f fut hf hκ hd
      exact ⟨m, delivered_update hm, hg.router _⟩
    · rcases of_delivered_update hm with hm | ⟨rfl, rfl⟩
      · exact absurd (hset hm).1 (Nat.not_lt.mpr hk)
      · exact AmRouter.insert_slots_self ..
    · rcases of_delivered_update hm with hm | ⟨rfl, rfl⟩
      · exact .inl ((hset hm).2 fut hf)
      · refine .inr ⟨?_, AmRouter.insert_slots_self ..⟩
        -- a registered receive would have its slot
        by_contra hreg
        rcases Bool.eq_false_or_eq_true (s.node.done (κ, (s.delivered κ).length)) with hd | hd
        · exact absurd (h.lt_of_done hf hd) (Nat.lt_irrefl _)
        · obtain ⟨p, hp⟩ := h.slot _ fut hf rfl hd (by simpa using hreg)
          cases hslot.symm.trans hp
    · obtain ⟨p, hp⟩ := h.slot f fut hf hκ hd hreg
      cases hslot.symm.trans hp
    · cases (AmRouter.insert_slots_self ..).symm.trans hm
      dsimp only
      rw [Function.update_self, List.length_append, List.length_singleton]

/-- A payload fills the receive that waits, if that is the one it is for. -/
theorem Turn.filled {bytes : List α} {p : PendingRecv Name Name W} (h : Turn κ s)
    (hslot : s.node.router.slots κ = some (.pending p))
    (hlen : (s.delivered κ).length + 1 = s.created κ) (hs : step s (.deliver κ bytes) = some s') :
    Turn κ s' := by
  have hlive := h.live.step hs
  have hset := fun {k m} => h.settled (k := k) (m := m) (by simp [hslot])
  cases step_effect hs with
  | kept _ _ hslot' => cases hslot.symm.trans hslot'
  | clash _ _ m hslot' => cases hslot.symm.trans hslot'
  | filled _ _ p' hslot' =>
    cases hslot.symm.trans hslot'
    have hnone : ∀ {x}, (s.node.router.remove κ).slots κ ≠ some x := by simp
    obtain ⟨hpd, gut, hgut, -, htarget⟩ := h.live.pending κ p hslot
    obtain ⟨hpκ, hpregion⟩ := h.live.own.slot κ p hslot
    have hlast := h.last _ gut hgut hpκ hpd
    -- the receive that waits is the one the payload is for
    obtain ⟨target, ⟨κ', k'⟩, w⟩ := p
    obtain rfl : κ' = κ := hpκ
    obtain rfl : k' = (s.delivered κ').length := by
      dsimp only at hlast
      omega
    refine ⟨hlive, ⟨fun f fut hf hκ hd => ?_, fun k m hm hk => ?_, fun k m fut hm hf => ?_⟩,
      fun f fut hf hκ hd => ?_, fun f fut hf hκ hd hreg => ?_, fun m hm => absurd hm hnone⟩
    · by_cases hfp : f = (κ', (s.delivered κ').length)
      · subst hfp
        obtain rfl : gut = fut := Option.some.inj (hgut.symm.trans hf)
        obtain ⟨-, hname, -⟩ := h.live.own.fut _ gut hf
        obtain rfl : gut.target = target := htarget
        refine ⟨bytes, delivered_update_self .., ?_⟩
        have hgot := got_fill { s.node with router := s.node.router.remove κ' } gut
          (s.delivered κ').length bytes
        rwa [hname] at hgot
      · obtain ⟨-, hname, hregion⟩ := h.live.own.fut f fut hf
        replace hd := (fill_done_of_ne hfp).mp hd
        obtain ⟨m, hm, hg⟩ := h.addressed.own f fut hf hκ hd
        have hgot := hg.router (s.node.router.remove κ')
        exact ⟨m, delivered_update hm, hgot.fill (hregion.trans hname.symm) hpregion hpd _⟩
    · rcases of_delivered_update hm with hm | ⟨rfl, -⟩
      · exact absurd (hset hm).1 (Nat.not_lt.mpr hk)
      · dsimp only at hk
        omega
    · left
      rcases of_delivered_update hm with hm | ⟨rfl, -⟩
      · exact fill_done_of_done ((hset hm).2 fut hf)
      · exact Function.update_self ..
    · exact h.last f fut hf hκ (fill_done_eq_false.mp hd).2
    · -- the receive that waited was the only one
      obtain ⟨hne, hd⟩ := fill_done_eq_false.mp hd
      exact absurd (h.only hf hκ hd hgut rfl hpd) hne

/-- A payload that goes with another one is that of a dropped receive. -/
theorem Turn.clash {bytes : List α} {m : Payload α ℕ} (h : Turn κ s)
    (hslot : s.node.router.slots κ = some (.early m)) (hlt : (s.delivered κ).length < s.created κ)
    (hdropped : s.futs (κ, (s.delivered κ).length) = none)
    (hs : step s (.deliver κ bytes) = some s') : Turn κ s' := by
  have hlive := h.live.step hs
  cases step_effect hs with
  | kept _ _ hslot' => cases hslot.symm.trans hslot'
  | filled _ _ p hslot' => cases hslot.symm.trans hslot'
  | clash _ _ m' hslot' =>
    cases hslot.symm.trans hslot'
    have hnone : ∀ {x}, (s.node.router.remove κ).slots κ ≠ some x := by simp
    refine ⟨hlive, ⟨fun f fut hf hκ hd => ?_, fun k m' hm hk => ?_, fun k m' fut hm hf => ?_⟩,
      h.last, fun f fut hf hκ hd hreg => ?_, fun m hm => absurd hm hnone⟩
    · obtain ⟨m', hm', hg⟩ := h.addressed.own f fut hf hκ hd
      exact ⟨m', delivered_update hm', hg.router _⟩
    · dsimp only at hk
      rcases of_delivered_update hm with hm | ⟨rfl, -⟩
      · have := (List.getElem?_eq_some_iff.mp hm).1
        omega
      · omega
    · rcases of_delivered_update hm with hm | ⟨rfl, -⟩
      · have hk := (List.getElem?_eq_some_iff.mp hm).1
        rcases Bool.eq_false_or_eq_true (s.node.done (κ, k)) with hd | hd
        · exact .inl hd
        · -- it is not the last one
          have := h.last _ fut hf rfl hd
          dsimp only at this
          omega
      · cases hdropped.symm.trans hf
    · obtain ⟨p, hp⟩ := h.slot f fut hf hκ hd hreg
      cases hslot.symm.trans hp

/-- **A payload in turn** is kept, fills the receive it is for, or goes with another
payload of a dropped receive. -/
theorem Turn.deliver {bytes : List α} (h : Turn κ s) (hin : InTurn κ s (.deliver κ bytes))
    (hs : step s (.deliver κ bytes) = some s') : Turn κ s' := by
  obtain ⟨hpend, hearly⟩ := hin rfl
  rcases hslot : s.node.router.slots κ with - | p | m
  · exact h.kept hslot hs
  · exact h.filled hslot (hpend p hslot) hs
  · obtain ⟨hlt, hdropped⟩ := hearly m hslot
    exact h.clash hslot hlt hdropped hs

/-- A receive that is created when it is alone. -/
theorem Turn.create {len : ℕ} (h : Turn κ s) (hone : Alone κ s (.create κ len : Event W α))
    (hs : step s (.create κ len) = some s') : Turn κ s' := by
  have hlive := h.live.step hs
  have hall := hone rfl
  cases step_effect hs with
  | created =>
    have hold : ∀ {f fut}, f ≠ (κ, s.created κ) →
        Function.update s.futs (κ, s.created κ) (some (RecvFuture.new κ (κ, s.created κ)
          ⟨(κ, s.created κ), 0, len⟩)) f = some fut → s.futs f = some fut :=
      fun hne hf => (Function.update_of_ne hne ..).symm.trans hf
    have hunset := h.live.unset (κ, s.created κ) (Nat.le_refl _)
    refine ⟨hlive, ⟨fun f fut hf hκ hd => ?_, fun k m hm hk => ?_, fun k m fut hm hf => ?_⟩,
      fun f fut hf hκ hd => ?_, fun f fut hf hκ hd hreg => ?_, h.latest⟩
    · by_cases hnew : f = (κ, s.created κ)
      · subst hnew
        cases hunset.symm.trans hd
      · exact h.addressed.own f fut (hold hnew hf) hκ hd
    · dsimp only at hk
      rw [Function.update_self] at hk
      exact h.addressed.kept k m hm (by omega)
    · by_cases hnew : (κ, k) = (κ, s.created κ)
      · obtain rfl : k = s.created κ := congrArg Prod.snd hnew
        cases (Function.update_self ..).symm.trans hf
        exact .inr ⟨rfl, h.addressed.kept _ m hm (Nat.le_refl _)⟩
      · exact h.addressed.found k m fut hm (hold hnew hf)
    · by_cases hnew : f = (κ, s.created κ)
      · subst hnew
        dsimp only
        rw [Function.update_self]
      · cases (hall f fut (hold hnew hf) hκ).symm.trans hd
    · by_cases hnew : f = (κ, s.created κ)
      · subst hnew
        cases (Function.update_self ..).symm.trans hf
        cases hreg
      · cases (hall f fut (hold hnew hf) hκ).symm.trans hd

/-- A first poll in turn takes the payload that is for its receive. -/
theorem Turn.takes {i : ℕ} {w : W} {fut : RecvFuture Name Name} {m : Payload α ℕ} (h : Turn κ s)
    (hfut : s.futs (κ, i) = some fut) (hfresh : Fresh s fut)
    (hslot : s.node.router.slots fut.key = some (.early m))
    (hcount : (s.delivered κ).length = s.created κ)
    (hs : step s (.poll (κ, i) w) = some s')
    (hs' : s' = { s with
      node := { s.node with router := s.node.router.remove fut.key }.fill fut.target fut.done m
      posted := Function.update s.posted fut.key (s.posted fut.key ++ [fut]) }) : Turn κ s' := by
  have hlive := h.live.step hs
  subst hs'
  obtain ⟨key, done, registered, target⟩ := fut
  obtain ⟨b, o⟩ := m
  obtain ⟨hkey, hname, hregion⟩ := h.live.own.fut _ _ hfut
  obtain rfl : κ = key := hkey.symm
  obtain rfl : done = (κ, i) := hname
  have hnone : ∀ {x}, (s.node.router.remove κ).slots κ ≠ some x := by simp
  have hlatest := h.latest _ hslot
  have hlast := h.last _ _ hfut rfl hfresh.2
  -- the early payload is the one for this receive
  obtain rfl : o = i := by
    dsimp only at hlatest hlast
    omega
  refine ⟨hlive, ⟨fun g gut hg hκ hd => ?_, fun k m hm hk => ?_, fun k m gut hm hg => ?_⟩,
    fun g gut hg hκ hd => ?_, fun g gut hg hκ hd hreg => ?_, fun m hm => absurd hm hnone⟩
  · by_cases hgf : g = (κ, o)
    · subst hgf
      obtain rfl := Option.some.inj (hfut.symm.trans hg)
      exact ⟨b, h.live.early _ _ hslot, got_fill ..⟩
    · replace hd := (fill_done_of_ne hgf).mp hd
      obtain ⟨-, hname, hgregion⟩ := h.live.own.fut g gut hg
      obtain ⟨m, hm, hgot⟩ := h.addressed.own g gut hg hκ hd
      exact ⟨m, hm, (hgot.router (s.node.router.remove κ)).fill (hgregion.trans hname.symm)
        hregion hfresh.2 _⟩
  · have hkept := h.addressed.kept k m hm hk
    cases hslot.symm.trans hkept
    dsimp only at hlast hk
    omega
  · left
    rcases h.addressed.found k m gut hm hg with hd | ⟨-, hearly⟩
    · exact fill_done_of_done hd
    · cases hslot.symm.trans hearly
      exact Function.update_self ..
  · exact h.last g gut hg hκ (fill_done_eq_false.mp hd).2
  · obtain ⟨hne, hd⟩ := fill_done_eq_false.mp hd
    exact absurd (h.only hg hκ hd hfut rfl hfresh.2) hne

/-- A first poll that finds no payload registers, and every payload that has come was for another
receive. -/
theorem Turn.registers {i : ℕ} {w : W} {fut : RecvFuture Name Name} (h : Turn κ s)
    (hfut : s.futs (κ, i) = some fut) (hfresh : Fresh s fut)
    (hslot : ∀ m, s.node.router.slots fut.key ≠ some (.early m))
    (hs : step s (.poll (κ, i) w) = some s')
    (hs' : s' = { s with
      node := { s.node with
        router := s.node.router.insert fut.key (.pending ⟨fut.target, fut.done, some w⟩) }
      futs := Function.update s.futs (κ, i) (some { fut with registered := true })
      posted := Function.update s.posted fut.key (s.posted fut.key ++ [fut]) }) : Turn κ s' := by
  have hlive := h.live.step hs
  subst hs'
  obtain ⟨key, done, registered, target⟩ := fut
  obtain ⟨hkey, hname, hregion⟩ := h.live.own.fut _ _ hfut
  obtain rfl : κ = key := hkey.symm
  obtain rfl : done = (κ, i) := hname
  have hset := fun {k m} => h.settled (k := k) (m := m) hslot
  have hold : ∀ {g gut}, g ≠ (κ, i) → Function.update s.futs (κ, i)
      (some ⟨κ, (κ, i), true, target⟩) g = some gut → s.futs g = some gut :=
    fun hne hg => (Function.update_of_ne hne ..).symm.trans hg
  refine ⟨hlive, ⟨fun g gut hg hκ hd => ?_, fun k m hm hk => ?_, fun k m gut hm hg => ?_⟩,
    fun g gut hg hκ hd => ?_, fun g gut hg hκ hd hreg => ⟨_, AmRouter.insert_slots_self ..⟩,
    fun m hm => ?_⟩
  · by_cases hgf : g = (κ, i)
    · subst hgf
      cases hfresh.2.symm.trans hd
    · obtain ⟨m, hm, hgot⟩ := h.addressed.own g gut (hold hgf hg) hκ hd
      exact ⟨m, hm, hgot.router _⟩
  · exact absurd (hset hm).1 (Nat.not_lt.mpr hk)
  · left
    by_cases hk : (κ, k) = (κ, i)
    · obtain rfl : k = i := congrArg Prod.snd hk
      exact (hset hm).2 _ hfut
    · exact (hset hm).2 gut (hold hk hg)
  · by_cases hgf : g = (κ, i)
    · subst hgf
      exact h.last _ _ hfut rfl hd
    · exact h.last g gut (hold hgf hg) hκ hd
  · cases (AmRouter.insert_slots_self ..).symm.trans hm

/-- **A poll in turn** takes the payload that is for the receive, or leaves the key as it
is but for the slot of the receive. -/
theorem Turn.poll {f : Name} {w : W} (h : Turn κ s) (hf : f.1 = κ)
    (hin : InTurn κ s (.poll f w)) (hs : step s (.poll f w) = some s') : Turn κ s' := by
  have hlive := h.live.step hs
  obtain ⟨κ', i⟩ := f
  obtain rfl : κ' = κ := hf
  cases step_effect hs with
  | ready => exact h
  | waits _ _ fut hfut hdone hreg =>
    obtain ⟨hkey, -, -⟩ := h.live.own.fut _ fut hfut
    refine h.congr hlive ?_ (fun _ _ => rfl) (fun _ _ => rfl) (fun _ _ => rfl) (fun _ _ => rfl) rfl
      rfl
    rcases s.node.router.updateWaker_slots fut.key κ' w with hu | ⟨p, -, hp, hu⟩
    · exact .inl hu
    · rw [hkey] at hp hu
      exact .inr ⟨p, some w, hp, by rw [hkey]; exact hu⟩
  | takes _ _ fut m hfut hfresh hslot =>
    have hkey := (h.live.own.fut _ _ hfut).1
    exact h.takes hfut hfresh hslot (hin rfl _ _ hfut hfresh (hkey ▸ hslot)) hs rfl
  | registers _ _ fut hfut hfresh hslot => exact h.registers hfut hfresh hslot hs rfl

/-- **A drop** leaves the payload of the receive as it is. -/
theorem Turn.drop {f : Name} (h : Turn κ s) (hf : f.1 = κ)
    (hs : step s (.drop f : Event W α) = some s') : Turn κ s' := by
  have hlive := h.live.step hs
  obtain ⟨κ', i⟩ := f
  obtain rfl : κ' = κ := hf
  have hold : ∀ {g gut}, Function.update s.futs (κ', i) none g = some gut →
      g ≠ (κ', i) ∧ s.futs g = some gut := by
    intro g gut hg
    rcases eq_or_ne g (κ', i) with rfl | hne
    · cases (Function.update_self ..).symm.trans hg
    · exact ⟨hne, (Function.update_of_ne hne ..).symm.trans hg⟩
  cases step_effect hs with
  | cancels _ fut hfut hdone hreg =>
    obtain ⟨key, done, registered, target⟩ := fut
    obtain ⟨hkey, hname, -⟩ := h.live.own.fut _ _ hfut
    obtain rfl : κ' = key := hkey.symm
    obtain rfl : done = (κ', i) := hname
    obtain ⟨p, hp⟩ := h.slot _ _ hfut rfl hdone hreg
    have hset := fun {k m} => h.settled (k := k) (m := m) (by simp [hp])
    have hnone : ∀ {x}, (s.node.router.remove κ').slots κ' ≠ some x := by simp
    refine ⟨hlive, ⟨fun g gut hg hκ hd => ?_, fun k m hm hk => ?_, fun k m gut hm hg => ?_⟩,
      fun g gut hg hκ hd => h.last g gut (hold hg).2 hκ hd, fun g gut hg hκ hd hreg => ?_,
      fun m hm => absurd hm hnone⟩
    · obtain ⟨m, hm, hgot⟩ := h.addressed.own g gut (hold hg).2 hκ hd
      exact ⟨m, hm, hgot.router _⟩
    · exact absurd (hset hm).1 (Nat.not_lt.mpr hk)
    · exact .inl ((hset hm).2 gut (hold hg).2)
    · exact absurd (h.only (hold hg).2 hκ hd hfut rfl hdone) (hold hg).1
  | forgets _ fut hfut hidle =>
    exact ⟨hlive, ⟨fun g gut hg => h.addressed.own g gut (hold hg).2, h.addressed.kept,
      fun k m gut hm hg => h.addressed.found k m gut hm (hold hg).2⟩,
      fun g gut hg => h.last g gut (hold hg).2, fun g gut hg => h.slot g gut (hold hg).2, h.latest⟩

/-- **Every step in turn keeps the invariant** of a key. -/
theorem Turn.step {e : Event W α} (h : Turn κ s) (hone : Alone κ s e) (hin : InTurn κ s e)
    (hs : step s e = some s') : Turn κ s' := by
  by_cases hκ : e.key = κ
  · cases e with
    | deliver key bytes =>
      obtain rfl : key = κ := hκ
      exact h.deliver hin hs
    | create key len =>
      obtain rfl : key = κ := hκ
      exact h.create hone hs
    | poll f w => exact h.poll hκ hin hs
    | drop f => exact h.drop hκ hs
  · have hsame := step_sameAt h.live.own hκ hs
    have hcreated : s'.created κ = s.created κ := by
      cases step_effect hs with
      | created key len => exact Function.update_of_ne (fun hc => hκ hc.symm) ..
      | kept | filled | clash | ready | waits | takes | registers | cancels | forgets => rfl
    exact h.congr (h.live.step hs) (.inl hsame.node.slot) hsame.node.done hsame.node.got
      hsame.node.heap hsame.futs hcreated hsame.delivered

/-- **A payload out of turn** is lost, or goes to a receive it was not addressed to. -/
theorem Turn.not_addressed {e : Event W α} (h : Turn κ s) (hin : ¬InTurn κ s e)
    (hs : Mailbox.step s e = some s') : ¬Addressed κ s' := by
  intro haddr
  cases step_effect hs with
  | kept key bytes hslot =>
    refine hin fun hκ => ?_
    obtain rfl : key = κ := hκ
    exact ⟨fun _ hp => (nomatch hslot.symm.trans hp), fun _ hm => nomatch hslot.symm.trans hm⟩
  | filled key bytes p hslot =>
    refine hin fun hκ => ?_
    obtain rfl : key = κ := hκ
    refine ⟨fun _ _ => ?_, fun _ hm => nomatch hslot.symm.trans hm⟩
    -- the receive that is filled gets the payload that is addressed to it
    obtain ⟨hpd, gut, hgut, -, -⟩ := h.live.pending key p hslot
    obtain ⟨hpκ, -⟩ := h.live.own.slot key p hslot
    obtain ⟨-, hname, -⟩ := h.live.own.fut _ gut hgut
    obtain ⟨m, -, hgot⟩ := haddr.own p.done gut hgut hpκ (Function.update_self ..)
    have hnum := hgot.got
    rw [hname] at hnum
    replace hnum := Option.some.inj ((fill_got ..).symm.trans hnum)
    dsimp only at hnum
    rw [hnum]
    exact h.last _ gut hgut hpκ hpd
  | clash key bytes m hslot =>
    refine hin fun hκ => ?_
    obtain rfl : key = κ := hκ
    refine ⟨fun _ hp => (nomatch hslot.symm.trans hp), fun _ _ => ?_⟩
    have hnew := delivered_update_self s.delivered key bytes
    have hnone : ∀ {x}, (s.node.router.remove key).slots key ≠ some x := by simp
    constructor
    · by_contra hle
      exact hnone (haddr.kept _ _ hnew (Nat.not_lt.mp hle))
    · refine Option.eq_none_iff_forall_ne_some.mpr fun fut hfut => ?_
      rcases haddr.found _ _ fut hnew hfut with hd | ⟨-, hearly⟩
      · exact absurd (h.lt_of_done hfut hd) (Nat.lt_irrefl _)
      · exact hnone hearly
  | takes f w fut m hfut hfresh hslot =>
    refine hin fun hκ gut m' hgut _ hm' => ?_
    obtain rfl : fut = gut := Option.some.inj (hfut.symm.trans hgut)
    obtain ⟨hkey, hname, -⟩ := h.live.own.fut _ fut hfut
    obtain ⟨m₁, -, hgot⟩ := haddr.own f fut hfut hκ (by rw [← hname]; exact Function.update_self ..)
    have hnum : m.origin = f.2 := Option.some.inj ((fill_got ..).symm.trans hgot.got)
    rw [h.latest m (by rwa [← hκ, ← hkey]), hnum]
    exact h.last f fut hfut hκ (by rw [← hname]; exact hfresh.2)
  | ready f w fut hfut hdone =>
    refine hin fun _ gut m hg hfresh _ => ?_
    obtain rfl : fut = gut := Option.some.inj (hfut.symm.trans hg)
    cases hfresh.2.symm.trans hdone
  | waits f w fut hfut hdone hreg =>
    refine hin fun _ gut m hg hfresh _ => ?_
    obtain rfl : fut = gut := Option.some.inj (hfut.symm.trans hg)
    cases hfresh.1.symm.trans hreg
  | registers f w fut hfut hfresh hslot =>
    refine hin fun hκ gut m hg _ hm => ?_
    obtain ⟨hkey, -, -⟩ := h.live.own.fut _ fut hfut
    exact absurd (by rwa [hkey, hκ]) (hslot m)
  | created | cancels | forgets => exact hin trivial

end Steps

/-! ### When cancellation is safe -/

/-- **When dropping a receive does no harm.** In a run in which a receive is created on
the key when the ones before it are completed or dropped, every payload is got by the
receive it was addressed to, and by no other, if and only if each payload that meets a
receive or another payload is in turn: no payload of a dropped receive is then still to
come, or both payloads are for dropped receives. -/
theorem cancel_safe_iff (κ : RecvKey) (heap : Heap Name α) (es : List (Event W α))
    (hone : EachStep step (Alone κ) (start heap) es) :
    Always step (Addressed κ) (start heap) es ↔ EachStep step (InTurn κ) (start heap) es :=
  always_iff_eachStep (fun _ (h : Turn κ _) => h.addressed)
    (fun _ _ _ h hone hin hs => h.step hone hin hs) (fun _ _ _ h _ hin hs => h.not_addressed hin hs)
    (turn_start κ heap) hone

/-- A receive is created on the key when those with the numbers given out so far are completed
or dropped. -/
def AllSettled (κ : RecvKey) (s : State W α) : Event W α → Prop
  | .create key _ => key = κ →
      ∀ k < s.created κ, (s.futs (κ, k)).isSome → s.node.done (κ, k) = true
  | _ => True

instance (κ : RecvKey) (s : State W α) : ∀ e, Decidable (AllSettled κ s e)
  | .create key _ => inferInstanceAs (Decidable (key = κ → _))
  | .deliver .. | .poll .. | .drop _ => isTrue trivial

/-- The receives of a key that exist are among those with the numbers given out. -/
theorem Live.alone_iff {κ : RecvKey} {s : State W α} (h : Live s) (e : Event W α) :
    Alone κ s e ↔ AllSettled κ s e := by
  cases e with
  | create key len =>
    constructor
    · intro halone hkey k _ hsome
      obtain ⟨fut, hfut⟩ := Option.isSome_iff_exists.mp hsome
      exact halone hkey (κ, k) fut hfut rfl
    · rintro hall hkey ⟨_, k⟩ fut hfut rfl
      exact hall hkey k (h.index _ _ hfut) (Option.isSome_iff_exists.mpr ⟨fut, hfut⟩)
  | deliver | poll | drop => exact Iff.rfl

/-- So whether the receives of a run are created alone can be computed. -/
theorem eachStep_alone_iff (κ : RecvKey) (heap : Heap Name α) (es : List (Event W α)) :
    EachStep step (Alone κ) (start heap) es ↔ EachStep step (AllSettled κ) (start heap) es :=
  eachStep_congr (fun _ e _ (h : Live _) _ => h.alone_iff e) (fun _ _ _ h hs => h.step hs)
    (live_start heap)

/-- Whether an event is in turn can be seen from the slot of the key. -/
instance (κ : RecvKey) (s : State W α) : ∀ e, Decidable (InTurn κ s e)
  | .deliver key _ =>
    match hslot : s.node.router.slots κ with
    | none => isTrue (by simp [InTurn, hslot])
    | some (.pending p) =>
      decidable_of_iff (key = κ → (s.delivered κ).length + 1 = s.created κ)
        (by simp [InTurn, hslot])
    | some (.early m) =>
      decidable_of_iff (key = κ → (s.delivered κ).length < s.created κ ∧
        (s.futs (κ, (s.delivered κ).length)).isNone) (by simp [InTurn, hslot])
  | .poll f _ =>
    match hfut : s.futs f, hslot : s.node.router.slots κ with
    | some fut, some (.early m) =>
      decidable_of_iff (f.1 = κ → Fresh s fut → (s.delivered κ).length = s.created κ)
        (by simp [InTurn, hfut, hslot])
    | none, _ => isTrue (by simp [InTurn, hfut])
    | _, none => isTrue (by simp [InTurn, hslot])
    | _, some (.pending _) => isTrue (by simp [InTurn, hslot])
  | .create .. | .drop _ => isTrue trivial

/-- Two receives are dropped while they wait, the payload of the second one discards that of the
first one, and a third receive gets the third payload. -/
def bothLate : List (Event Unit ℕ) :=
  let κ : RecvKey := ⟨1, 0, 0, 0⟩
  [.create κ 1, .poll (κ, 0) (), .drop (κ, 0), .create κ 1, .poll (κ, 1) (), .drop (κ, 1),
    .deliver κ [7], .deliver κ [8], .create κ 1, .poll (κ, 2) (), .deliver κ [9], .poll (κ, 2) ()]

/-- Every payload goes where it was addressed. -/
theorem cancel_safe_iff_bothLate :
    Always step (Addressed ⟨1, 0, 0, 0⟩) (start fun _ _ => 0) bothLate ∧
      (runList step (start fun _ _ => 0) bothLate).map (fun s =>
        (s.node.done (⟨1, 0, 0, 0⟩, 2), s.node.heap (⟨1, 0, 0, 0⟩, 2) 0)) = some (true, 9) := by
  refine ⟨(cancel_safe_iff _ _ _ ?_).mpr (by decide +kernel), by decide +kernel⟩
  rw [eachStep_alone_iff]
  decide +kernel

/-- **The payload of a dropped receive, in another one's buffer.** A receive is dropped
while it waits, its payload comes late, and the next receive on the key takes it. -/
theorem late_payload_taken :
    ∃ es : List (Event Unit ℕ),
      EachStep step (Alone ⟨1, 0, 0, 0⟩) (start fun _ _ => 0) es ∧
        ¬Always step (Addressed ⟨1, 0, 0, 0⟩) (start fun _ _ => 0) es := by
  refine ⟨[.create ⟨1, 0, 0, 0⟩ 1, .poll (⟨1, 0, 0, 0⟩, 0) (), .drop (⟨1, 0, 0, 0⟩, 0),
    .deliver ⟨1, 0, 0, 0⟩ [7], .create ⟨1, 0, 0, 0⟩ 1, .poll (⟨1, 0, 0, 0⟩, 1) ()], ?_, ?_⟩
  · rw [eachStep_alone_iff]
    decide +kernel
  · intro h
    have haddr := ((((((h.2 _ rfl).2 _ rfl).2 _ rfl).2 _ rfl).2 _ rfl).2 _ rfl)
    obtain ⟨m, hm, -⟩ := haddr.own (⟨1, 0, 0, 0⟩, 1) _ rfl rfl rfl
    cases hm

end Mailbox

end Pluvio
