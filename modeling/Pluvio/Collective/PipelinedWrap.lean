import Pluvio.Collective.PipelinedRing

/-!
# A pipelined ring that is too large

With 65538 ranks the last of the 65537 steps of a chain has the number 65536, which
its header cannot hold: the message looks like that of step 0. Rank 0 need only be
slow for the two to meet. The ranks after it go on without it, each for one step more
than the one before (`Pluvio.PipelinedWrap.ahead_of_start`), so that the last one
issues all of its messages before rank 0 has posted its first receive. In the router
of rank 0 the last message meets the first one as an early message, and both are
gone (`Pluvio.PipelinedWrap.Flooded.duplicate`). From then on rank 0 waits for its
step 0 forever (`Pluvio.PipelinedWrap.Lost`).
-/

namespace Pluvio

namespace PipelinedWrap

open AmNet

variable {α : Type*} {op : Op α} {n : ℕ} {heap : ℕ → Heap Region α}
  {s s' : AmNet.State Region α} {r t : ℕ}

/-- One element in each chunk, one chain. -/
def shape (n : ℕ) : PipelineShape := ⟨n, 1, 1⟩

theorem shape_ok (n : ℕ) : (shape n).Ok n :=
  ⟨Nat.le_refl 1, (by decide : 1 ≤ 255), Nat.le_refl 1, Nat.dvd_refl n, Nat.one_dvd _⟩

/-- The call, with sends that complete at once. -/
def net (op : Op α) (n : ℕ) : Net Region α :=
  ⟨n, pipelinedProgram op n (shape n), fun _ _ _ => true⟩

/-- The call, laid out as the chains of its two phases. -/
abbrev layout (op : Op α) (hn : 2 ≤ n) : Layout n (pipelinedProgram op n (shape n)) :=
  pipelinedLayout op hn (shape_ok n)

/-- The key of a step of the first phase. -/
def stepKey (p k : ℕ) : RecvKey := .ofHeader (stepHeader (UInt8.ofNat 0) p k 0)

/-- **Two steps with one key.** -/
theorem stepKey_wrap (p : ℕ) : stepKey p 65536 = stepKey p 0 := by
  rw [stepKey, stepKey, stepHeader, stepHeader, show UInt16.ofNat 65536 = UInt16.ofNat 0 from rfl]

/-- Up to there, each step has its own. -/
theorem stepKey_inj {p k k' : ℕ} (hk : k < 65536) (hk' : k' < 65536)
    (h : stepKey p k = stepKey p k') : k = k' := by
  have hstep : UInt16.ofNat k = UInt16.ofNat k' := congrArg RecvKey.step h
  have hnat := congrArg UInt16.toNat hstep
  rw [UInt16.toNat_ofNat', UInt16.toNat_ofNat'] at hnat
  omega

/-! ### One rank ahead of the next -/

/-- Rank `r` is at step `t` of its chain, and waits for nothing. -/
structure Idle (rk : Rank Region α) (t : ℕ) : Prop where
  stage : rk.stage = 0
  launched : rk.launched = 1
  reaped : rk.reaped = 0
  chain : rk.chain 0 = ⟨t, none⟩
  slots : ∀ κ, rk.node.router.slots κ = none
  done : ∀ k, t ≤ k → rk.node.done (0, 0, k) = false

/-- Rank `r` has polled its step `t`, and waits for its message. -/
structure Waiting (rk : Rank Region α) (r t : ℕ) (sending : List ℕ) : Prop where
  stage : rk.stage = 0
  launched : rk.launched = 1
  reaped : rk.reaped = 0
  chain : ∃ fut, rk.chain 0 = ⟨t, some ⟨sending, some fut⟩⟩ ∧ fut.done = (0, 0, t)
  slot : ∃ target w,
    rk.node.router.slots (stepKey (r - 1) t) = some (.pending ⟨target, (0, 0, t), w⟩)
  slots : ∀ κ, κ ≠ stepKey (r - 1) t → rk.node.router.slots κ = none
  done : ∀ k, t ≤ k → rk.node.done (0, 0, k) = false

/-- Rank `r` has its message. -/
structure Ready (rk : Rank Region α) (t : ℕ) : Prop where
  stage : rk.stage = 0
  launched : rk.launched = 1
  reaped : rk.reaped = 0
  chain : ∃ fut, rk.chain 0 = ⟨t, some ⟨[], some fut⟩⟩ ∧ fut.done = (0, 0, t)
  taken : rk.node.done (0, 0, t) = true
  slots : ∀ κ, rk.node.router.slots κ = none
  done : ∀ k, t + 1 ≤ k → rk.node.done (0, 0, k) = false

section Steps

variable (op : Op α) (hn : 2 ≤ n)

include hn

/-- The await point of step `t`. -/
theorem at_step (hr : r < n) (ht : t < n - 1) : (layout op hn).At 0 r 0 t :=
  Layout.at_ofPlans.mpr ⟨Nat.two_pos, hr, Nat.one_pos, ht⟩

/-- **A rank polls its step.** -/
theorem poll_idle (hr : 1 ≤ r) (hr' : r < n) (ht : t < n - 1) (h : Idle (s.rank r) t) :
    ∃ s', step (net op n) s (.poll r 0) = some s' ∧ Waiting (s'.rank r) r t [0] ∧
      (∀ q, q ≠ r → s'.rank q = s.rank q) ∧
      (∀ p q, p ≠ r → s'.chan p q = s.chan p q) ∧
      (s'.chan r ((r + 1) % n)).map Message.key =
        (s.chan r ((r + 1) % n)).map Message.key ++ [stepKey r t] ∧
      ∀ q, q ≠ (r + 1) % n → s'.chan r q = s.chan r q := by
  have hpc : ((s.rank r).chain 0).pc = t := by rw [h.chain]
  have hawait : ((s.rank r).chain 0).await = none := by rw [h.chain]
  have hprev : back n r 1 = r - 1 := by rw [back_eq_ite hr' (by omega), if_pos hr]
  set I := microInstr op n 0 (shape n) 0 r 0 t with hI
  refine ⟨s.issue r 0 I, ?_, ?_, ?_, ?_, ?_, ?_⟩
  · refine (layout op hn).step_poll.mpr ⟨?_, ?_, .inl ?_, .inl ⟨hawait, ?_⟩⟩
    · rw [h.stage, hpc]
      exact at_step op hn hr' ht
    · rw [h.launched]
      exact Nat.one_pos
    · rw [h.launched, h.stage]
      rfl
    · rw [h.stage, hpc]
      rfl
  · -- the receive finds no message and registers
    have hname : ((s.rank r).stage, 0, ((s.rank r).chain 0).pc) = ((0, 0, t) : Name) := by
      rw [h.stage, hpc]
    have hdone : (s.rank r).node.done ((s.rank r).stage, 0, ((s.rank r).chain 0).pc) = false := by
      rw [hname]
      exact h.done t (Nat.le_refl t)
    rcases Rank.pollRecv_cases (i := I) hdone with
      ⟨hrecv, -⟩ | ⟨κ, target, hrecv, ⟨msg, hmsg, -⟩ | ⟨-, hpoll⟩⟩
    · cases hrecv
    · rw [h.slots] at hmsg
      cases hmsg
    · have hκ : κ = stepKey (r - 1) t := by
        rw [← hprev]
        cases hrecv
        rfl
      subst hκ
      rw [hname] at hpoll
      rw [rank_issue_self, hpoll]
      refine ⟨h.stage, h.launched, h.reaped,
        ⟨{ RecvFuture.new (stepKey (r - 1) t) (0, 0, t) target with registered := true }, ?_, rfl⟩,
        ⟨target, some 0, AmRouter.insert_slots_self ..⟩, fun κ hκ => ?_, h.done⟩
      · show ((s.rank r).setChain 0 _).chain 0 = _
        rw [Rank.chain_setChain, if_pos rfl, hpc]
        rfl
      · exact (AmRouter.insert_slots_of_ne _ _ hκ).trans (h.slots κ)
  · exact fun q hq => rank_issue_of_ne I hq
  · intro p q hp
    rw [chan_issue, if_neg hp]
  · rw [chan_issue, if_pos rfl, List.map_append]
    refine congrArg _ ?_
    show List.map _ (List.map _ (List.filter _ [_])) = _
    rw [List.filter_cons_of_pos (by simp)]
    rfl
  · intro q hq
    rw [chan_issue, if_pos rfl]
    show s.chan r q ++ List.map _ (List.filter _ [_]) = _
    rw [List.filter_cons_of_neg (by simpa using Ne.symm hq)]
    exact List.append_nil _

/-- Its send completes while the message is on its way. -/
theorem sent_waiting (hr : r < n) (ht : t < n - 1) (h : Waiting (s.rank r) r t [0]) :
    ∃ s', step (net op n) s (.sent r 0 0) = some s' ∧ Waiting (s'.rank r) r t [] ∧
      (∀ q, q ≠ r → s'.rank q = s.rank q) ∧ s'.chan = s.chan := by
  obtain ⟨fut, hchain, hfut⟩ := h.chain
  have hpc : ((s.rank r).chain 0).pc = t := by rw [hchain]
  refine ⟨_, (layout op hn).step_sent.mpr ⟨⟨[0], some fut⟩,
    microSend n 0 (shape n) 0 r 0 t, by rw [hchain], ⟨?_, ?_⟩, List.mem_singleton_self 0, .inl rfl,
    rfl⟩, ?_, ?_, rfl⟩
  · rw [h.stage, hpc]
    exact at_step op hn hr ht
  · rw [h.stage, hpc]
    rfl
  · simp only [Function.update_self]
    refine ⟨h.stage, h.launched, h.reaped, ⟨fut, ?_, hfut⟩, h.slot, h.slots, h.done⟩
    rw [Rank.chain_setChain, if_pos rfl, hpc]
    rfl
  · exact fun q hq => Function.update_of_ne hq ..

omit hn in
/-- Its message is delivered, and the rank is ready to go on. -/
theorem deliver_waiting (h : Waiting (s.rank r) r t []) {ks : List RecvKey}
    (hchan : (s.chan (r - 1) r).map Message.key = stepKey (r - 1) t :: ks) :
    ∃ s', step (net op n) s (.deliver (r - 1) r) = some s' ∧ Ready (s'.rank r) t ∧
      (∀ q, q ≠ r → s'.rank q = s.rank q) ∧ (s'.chan (r - 1) r).map Message.key = ks ∧
      ∀ p q, ¬(p = r - 1 ∧ q = r) → s'.chan p q = s.chan p q := by
  obtain ⟨msg, rest, hmsgs, hkey, hrest⟩ := List.map_eq_cons_iff.mp hchan
  obtain ⟨target, w, hslot⟩ := h.slot
  obtain ⟨fut, hc, hfut⟩ := h.chain
  refine ⟨_, step_deliver.mpr ⟨msg, rest, hmsgs, rfl⟩, ?_, ?_, ?_, ?_⟩
  · simp only [Function.update_self]
    rw [hkey, Node.deliver_pending hslot]
    refine ⟨h.stage, h.launched, h.reaped, ⟨fut, hc, hfut⟩, Function.update_self .., fun κ => ?_,
      fun k hk => ?_⟩
    · show ((s.rank r).node.router.remove (stepKey (r - 1) t)).slots κ = none
      by_cases hκ : κ = stepKey (r - 1) t
      · rw [hκ, AmRouter.remove_slots_self]
      · rw [AmRouter.remove_slots_of_ne _ hκ, h.slots κ hκ]
    · show Function.update (s.rank r).node.done (0, 0, t) true (0, 0, k) = false
      rw [Function.update_of_ne, h.done k (by omega)]
      simp only [ne_eq, Prod.mk.injEq, true_and]
      omega
  · exact fun q hq => Function.update_of_ne hq ..
  · dsimp only
    rw [if_pos ⟨rfl, rfl⟩, hrest]
  · exact fun p q hpq => if_neg hpq

/-- A rank that is ready goes on to the next await point. -/
theorem poll_ready (hr : r < n) (ht : t + 1 < n - 1) (h : Ready (s.rank r) t) :
    ∃ s', step (net op n) s (.poll r 0) = some s' ∧ Idle (s'.rank r) (t + 1) ∧
      (∀ q, q ≠ r → s'.rank q = s.rank q) ∧ s'.chan = s.chan := by
  obtain ⟨fut, hchain, hfut⟩ := h.chain
  have hpc : ((s.rank r).chain 0).pc = t := by rw [hchain]
  refine ⟨_, (layout op hn).step_poll.mpr ⟨?_, ?_, .inl ?_, .inr ⟨⟨[], some fut⟩, by rw [hchain],
    ⟨rfl, fun fut' hfut' => ?_⟩, rfl⟩⟩, ?_, ?_, rfl⟩
  · rw [h.stage, hpc]
    exact at_step op hn hr (by omega)
  · rw [h.launched]
    exact Nat.one_pos
  · rw [h.launched, h.stage]
    rfl
  · cases hfut'
    rw [RecvFuture.poll_done (by rw [hfut]; exact h.taken)]
  · have hlen : (layout op hn).len (s.rank r).stage r 0 = n - 1 := rfl
    rw [State.proceed]
    simp only [Function.update_self]
    refine ⟨h.stage, h.launched, ?_, ?_, h.slots, h.done⟩
    · show (s.rank r).reaped + (if _ then _ else _) = 0
      rw [hpc, hlen, if_neg (by omega), h.reaped]
    · exact ((s.rank r).chain_setChain_self 0 ⟨((s.rank r).chain 0).pc + 1, none⟩).trans
        (by rw [hpc])
  · exact fun q hq => Function.update_of_ne hq ..

/-- A rank that has done nothing starts its chain. -/
theorem launch_fresh (hr : r < n) (h : s.rank r = (start heap).rank r) :
    ∃ s', step (net op n) s (.launch r) = some s' ∧ Idle (s'.rank r) 0 ∧
      (∀ q, q ≠ r → s'.rank q = s.rank q) ∧ s'.chan = s.chan := by
  refine ⟨_, (layout op hn).step_launch.mpr ⟨hr, ?_, ?_, ?_, rfl⟩, ?_, ?_, rfl⟩
  · rw [h]
    exact Nat.two_pos
  · rw [h]
    exact Nat.one_pos
  · rw [h]
    exact Nat.one_pos
  · simp only [Function.update_self, h]
    exact ⟨rfl, rfl, rfl, rfl, fun _ => rfl, fun _ _ => rfl⟩
  · exact fun q hq => Function.update_of_ne hq ..

/-! ### A rank goes as far as it can -/

omit hn in
/-- The ranks before `r` have done what they can, `r` is at step `t`, and the others
have not begun. -/
structure Ahead (n : ℕ) (heap : ℕ → Heap Region α) (s : AmNet.State Region α) (r t : ℕ) :
    Prop where
  idle : Idle (s.rank r) t
  fresh : ∀ q, q = 0 ∨ r < q → s.rank q = (start heap).rank q
  inbox : (s.chan (r - 1) r).map Message.key = (List.range' t (r - 1 - t)).map (stepKey (r - 1))
  outbox : (s.chan r ((r + 1) % n)).map Message.key = (List.range t).map (stepKey r)
  empty : ∀ p q, r < p → s.chan p q = []
  zero : ∀ p, p + 1 ≠ n → s.chan p 0 = []

/-- **One step of a rank** for which there is a message. -/
theorem Ahead.next (h : Ahead n heap s r t) (hr : r < n) (ht : t + 1 < r) :
    ∃ s', Reaches (step (net op n)) s s' ∧ Ahead n heap s' r (t + 1) := by
  have hinbox : (s.chan (r - 1) r).map Message.key =
      stepKey (r - 1) t :: (List.range' (t + 1) (r - 1 - (t + 1))).map (stepKey (r - 1)) := by
    rw [h.inbox, show r - 1 - t = r - 1 - (t + 1) + 1 by omega, List.range'_succ, List.map_cons]
  obtain ⟨s₁, hs₁, hw, hrank₁, hchan₁, hout, hchan₁'⟩ :=
    poll_idle op hn (by omega) hr (by omega) h.idle
  obtain ⟨s₂, hs₂, hw₂, hrank₂, hchan₂⟩ := sent_waiting op hn hr (by omega) hw
  rw [← hchan₁ _ r (show r - 1 ≠ r by omega), ← hchan₂] at hinbox
  obtain ⟨s₃, hs₃, hready, hrank₃, hin, hchan₃⟩ := deliver_waiting op (n := n) hw₂ hinbox
  obtain ⟨s₄, hs₄, hidle, hrank₄, hchan₄⟩ := poll_ready op hn hr (by omega) hready
  refine ⟨s₄, (((Steps.single trivial hs₁).tail trivial hs₂).tail trivial hs₃).tail trivial hs₄,
    hidle, ?_, ?_, ?_, ?_, ?_⟩
  · intro q hq
    have hne : q ≠ r := by omega
    rw [hrank₄ q hne, hrank₃ q hne, hrank₂ q hne, hrank₁ q hne, h.fresh q hq]
  · rw [hchan₄]
    exact hin
  · rw [hchan₄, hchan₃ r _ (by omega), hchan₂, hout, h.outbox, List.range_succ, List.map_append]
    rfl
  · intro p q hp
    rw [hchan₄, hchan₃ p q (by omega), hchan₂, hchan₁ p q (by omega), h.empty p q hp]
  · intro p hp
    rw [hchan₄, hchan₃ p 0 (by omega), hchan₂]
    by_cases hpr : p = r
    · subst hpr
      rw [hchan₁' 0 (by rw [Nat.mod_eq_of_lt (by omega)]; omega), h.zero p hp]
    · rw [hchan₁ p 0 hpr, h.zero p hp]

/-- **As far as there are messages.** -/
theorem Ahead.last (h : Ahead n heap s r 0) (hr : r < n) (t : ℕ) (ht : t < r) :
    ∃ s', Reaches (step (net op n)) s s' ∧ Ahead n heap s' r t := by
  induction t with
  | zero => exact ⟨s, .refl, h⟩
  | succ t ih =>
    obtain ⟨s₁, hs₁, h₁⟩ := ih (by omega)
    obtain ⟨s₂, hs₂, h₂⟩ := h₁.next op hn hr ht
    exact ⟨s₂, hs₁.trans hs₂, h₂⟩

/-- **And then the next rank.** -/
theorem Ahead.succ (h : Ahead n heap s r 0) (hr : 1 ≤ r) (hr' : r + 1 < n) :
    ∃ s', Reaches (step (net op n)) s s' ∧ Ahead n heap s' (r + 1) 0 := by
  obtain ⟨s₁, hs₁, h₁⟩ := h.last op hn (by omega) (r - 1) (by omega)
  obtain ⟨s₂, hs₂, hw, hrank₂, hchan₂, hout, hchan₂'⟩ :=
    poll_idle op hn hr (by omega) (by omega) h₁.idle
  have hfresh : s₂.rank (r + 1) = (start heap).rank (r + 1) := by
    rw [hrank₂ _ (by omega), h₁.fresh _ (.inr (Nat.lt_succ_self r))]
  obtain ⟨s₃, hs₃, hidle, hrank₃, hchan₃⟩ := launch_fresh op hn hr' hfresh
  have hmod : (r + 1) % n = r + 1 := Nat.mod_eq_of_lt hr'
  refine ⟨s₃, (hs₁.tail trivial hs₂).tail trivial hs₃, hidle, ?_, ?_, ?_, ?_, ?_⟩
  · intro q hq
    rw [hrank₃ q (by omega), hrank₂ q (by omega), h₁.fresh q (by omega)]
  · rw [hchan₃, Nat.add_sub_cancel, ← hmod, hout, h₁.outbox, Nat.sub_zero,
      ← List.range_eq_range']
    conv_rhs => rw [show r = r - 1 + 1 by omega, List.range_succ, List.map_append]
    rw [show r - 1 + 1 = r by omega]
    rfl
  · rw [hchan₃, hchan₂ _ _ (by omega), h₁.empty _ _ (by omega)]
    rfl
  · intro p q hp
    rw [hchan₃, hchan₂ p q (by omega), h₁.empty p q (by omega)]
  · intro p hp
    rw [hchan₃]
    by_cases hpr : p = r
    · rw [hpr, hchan₂' 0 (by omega), h₁.zero r (by omega)]
    · rw [hchan₂ p 0 hpr, h₁.zero p hp]

/-- **One rank after the other.** -/
theorem ahead_of_start (heap : ℕ → Heap Region α) (hr : 1 ≤ r) (hr' : r < n) :
    ∃ s, Reaches (step (net op n)) (start heap) s ∧ Ahead n heap s r 0 := by
  induction r, hr using Nat.le_induction with
  | base =>
    obtain ⟨s, hs, hidle, hrank, hchan⟩ :=
      launch_fresh (s := start heap) op hn hr' rfl
    refine ⟨s, .single trivial hs, hidle, fun q hq => hrank q (by omega), ?_, ?_, ?_, ?_⟩
    all_goals
      intros
      rw [hchan]
      rfl
  | succ r hr ih =>
    obtain ⟨s₁, hs₁, h₁⟩ := ih (by omega)
    obtain ⟨s₂, hs₂, h₂⟩ := h₁.succ op hn hr hr'
    exact ⟨s₂, hs₁.trans hs₂, h₂⟩

/-! ### The last rank's messages -/

omit hn in
/-- The last rank has issued all its messages of the first phase, and the first `k` of
them are in the router of rank 0, which has not begun. -/
structure Flooded (n : ℕ) (s : AmNet.State Region α) (k : ℕ) : Prop where
  stage : (s.rank 0).stage = 0
  reaped : (s.rank 0).reaped = 0
  chain : (s.rank 0).chain 0 = ⟨0, none⟩
  done : (s.rank 0).node.done (0, 0, 0) = false
  early : ∀ j < k, ∃ e, (s.rank 0).node.router.slots (stepKey (n - 1) j) = some (.early e)
  vacant : ∀ κ, (∀ j < k, κ ≠ stepKey (n - 1) j) → (s.rank 0).node.router.slots κ = none
  chan : (s.chan (n - 1) 0).map Message.key =
    (List.range' k (n - 1 - k)).map (stepKey (n - 1))
  zero : ∀ p, p + 1 ≠ n → s.chan p 0 = []
  last : Waiting (s.rank (n - 1)) (n - 1) (n - 2) [0]

/-- **The last rank issues all its messages.** -/
theorem flooded_of_start (heap : ℕ → Heap Region α) :
    ∃ s, Reaches (step (net op n)) (start heap) s ∧ Flooded n s 0 := by
  obtain ⟨s₁, hs₁, h₁⟩ := ahead_of_start op hn heap (r := n - 1) (by omega) (by omega)
  obtain ⟨s₂, hs₂, h₂⟩ := h₁.last op hn (by omega) (n - 2) (by omega)
  obtain ⟨s₃, hs₃, hw, hrank, hchan, hout, hchan'⟩ :=
    poll_idle op hn (r := n - 1) (t := n - 2) (by omega) (by omega) (by omega) h₂.idle
  have hmod : (n - 1 + 1) % n = 0 := by rw [Nat.sub_add_cancel (by omega), Nat.mod_self]
  have hzero : s₃.rank 0 = (start heap).rank 0 := by
    rw [hrank 0 (by omega), h₂.fresh 0 (.inl rfl)]
  refine ⟨s₃, hs₁.trans (hs₂.tail trivial hs₃), ?_, ?_, ?_, ?_, ?_, ?_, ?_, ?_, hw⟩
  · rw [hzero]; rfl
  · rw [hzero]; rfl
  · rw [hzero]; rfl
  · rw [hzero]; rfl
  · exact fun j hj => absurd hj (Nat.not_lt_zero j)
  · intro κ _
    rw [hzero]
    rfl
  · rw [h₂.outbox, hmod] at hout
    have hlast : (List.range (n - 1)).map (stepKey (n - 1)) =
        (List.range (n - 2)).map (stepKey (n - 1)) ++ [stepKey (n - 1) (n - 2)] := by
      conv_lhs => rw [show n - 1 = n - 2 + 1 by omega, List.range_succ, List.map_append]
      rw [show n - 2 + 1 = n - 1 by omega]
      rfl
    rw [hout, Nat.sub_zero, ← List.range_eq_range', hlast]
  · intro p hp
    rw [hchan p 0 (by omega), h₂.zero p hp]

omit hn in
/-- **They fill the router of rank 0.** -/
theorem Flooded.next (hN : n = 65538) {k : ℕ} (h : Flooded n s k) (hk : k < 65536) :
    ∃ s', step (net op n) s (.deliver (n - 1) 0) = some s' ∧ Flooded n s' (k + 1) := by
  have hchan := h.chan
  rw [show n - 1 - k = n - 1 - (k + 1) + 1 by omega, List.range'_succ, List.map_cons] at hchan
  obtain ⟨msg, rest, hmsgs, hkey, hrest⟩ := List.map_eq_cons_iff.mp hchan
  -- below `65536` the keys of the steps are different, so the slot is vacant
  have hslot : (s.rank 0).node.router.slots msg.key = none := by
    rw [hkey]
    refine h.vacant _ fun j hj hc => ?_
    exact absurd (stepKey_inj hk (by omega) hc) hj.ne'
  refine ⟨_, step_deliver.mpr ⟨msg, rest, hmsgs, rfl⟩, ?_⟩
  rw [Node.deliver_vacant hslot]
  constructor
  · simp only [Function.update_self]
    exact h.stage
  · simp only [Function.update_self]
    exact h.reaped
  · simp only [Function.update_self]
    exact h.chain
  · simp only [Function.update_self]
    exact h.done
  · intro j hj
    simp only [Function.update_self]
    rcases Nat.lt_succ_iff_lt_or_eq.mp hj with hj | rfl
    · obtain ⟨e, he⟩ := h.early j hj
      refine ⟨e, (AmRouter.insert_slots_of_ne _ _ fun hc => ?_).trans he⟩
      rw [hkey] at hc
      exact absurd (stepKey_inj (by omega) hk hc) hj.ne
    · exact ⟨msg.payload, hkey ▸ AmRouter.insert_slots_self ..⟩
  · intro κ hκ
    simp only [Function.update_self]
    refine (AmRouter.insert_slots_of_ne _ _ ?_).trans (h.vacant κ fun j hj => hκ j (by omega))
    rw [hkey]
    exact hκ k (Nat.lt_succ_self k)
  · dsimp only
    rw [if_pos ⟨rfl, rfl⟩, hrest]
  · intro p hp
    dsimp only
    rw [if_neg (by omega), h.zero p hp]
  · have hne : n - 1 ≠ 0 := by omega
    simp only [Function.update_of_ne hne]
    exact h.last

/-- Up to the one that has the number of the first. -/
theorem flooded (hN : n = 65538) (heap : ℕ → Heap Region α) (k : ℕ) (hk : k ≤ 65536) :
    ∃ s, Reaches (step (net op n)) (start heap) s ∧ Flooded n s k := by
  induction k with
  | zero => exact flooded_of_start op hn heap
  | succ k ih =>
    obtain ⟨s₁, hs₁, h₁⟩ := ih (by omega)
    obtain ⟨s₂, hs₂, h₂⟩ := h₁.next op hN (by omega)
    exact ⟨s₂, hs₁.tail trivial hs₂, h₂⟩

omit hn in
/-- **The last message meets the first one** in the router. -/
theorem Flooded.duplicate (hN : n = 65538) (h : Flooded n s 65536) :
    ∃ msg e, s.chan (n - 1) 0 = [msg] ∧ msg.key = stepKey (n - 1) 0 ∧
      (s.rank 0).node.router.slots msg.key = some (.early e) := by
  have hchan := h.chan
  rw [show n - 1 - 65536 = 1 by omega, List.range'_one, List.map_singleton] at hchan
  obtain ⟨msg, hmsgs, hkey⟩ := List.map_eq_singleton_iff.mp hchan
  obtain ⟨e, he⟩ := h.early 0 (by omega)
  rw [stepKey_wrap] at hkey
  exact ⟨msg, e, hmsgs, hkey, hkey ▸ he⟩

/-! ### A message that never comes -/

omit hn in
/-- Rank 0 waits for its step 0, whose message is neither on its channel nor in the
router nor to be sent any more. -/
structure Lost (n : ℕ) (s : AmNet.State Region α) : Prop where
  stage : (s.rank 0).stage = 0
  reaped : (s.rank 0).reaped = 0
  pc : ((s.rank 0).chain 0).pc = 0
  done : (s.rank 0).node.done (0, 0, 0) = false
  await : ∀ a, ((s.rank 0).chain 0).await = some a →
    ∃ fut, a.recv = some fut ∧ fut.registered = true ∧ fut.done = (0, 0, 0)
  not_early : ∀ e, (s.rank 0).node.router.slots (stepKey (n - 1) 0) ≠ some (.early e)
  pending : ∀ κ pr, (s.rank 0).node.router.slots κ = some (.pending pr) → κ = stepKey (n - 1) 0
  chan : ∀ p, ∀ msg ∈ s.chan p 0, msg.key ≠ stepKey (n - 1) 0
  last : (s.rank (n - 1)).stage = 0 → n - 2 ≤ ((s.rank (n - 1)).chain 0).pc ∧
    (((s.rank (n - 1)).chain 0).pc = n - 2 → ((s.rank (n - 1)).chain 0).await ≠ none)

omit hn in
/-- **The two messages are gone.** -/
theorem Flooded.lost (hN : n = 65538) (h : Flooded n s 65536) :
    ∃ s', step (net op n) s (.deliver (n - 1) 0) = some s' ∧ Lost n s' := by
  obtain ⟨msg, e, hmsgs, hkey, hslot⟩ := h.duplicate hN
  have hne : n - 1 ≠ 0 := by omega
  have hslots : ∀ κ, (s.rank 0).node.router.slots κ = none ∨
      ∃ e, (s.rank 0).node.router.slots κ = some (.early e) := by
    intro κ
    by_cases hκ : ∃ j < 65536, κ = stepKey (n - 1) j
    · obtain ⟨j, hj, rfl⟩ := hκ
      exact .inr (h.early j hj)
    · push Not at hκ
      exact .inl (h.vacant κ hκ)
  refine ⟨_, step_deliver.mpr ⟨msg, [], hmsgs, rfl⟩, ?_⟩
  rw [Node.deliver_early hslot]
  constructor
  · simp only [Function.update_self]
    exact h.stage
  · simp only [Function.update_self]
    exact h.reaped
  · simp only [Function.update_self, h.chain]
  · simp only [Function.update_self]
    exact h.done
  · intro a ha
    simp only [Function.update_self, h.chain] at ha
    cases ha
  · intro e he
    simp only [Function.update_self, ← hkey, AmRouter.remove_slots_self] at he
    cases he
  · intro κ pr hpr
    simp only [Function.update_self] at hpr
    rcases hslots κ with hc | ⟨e, hc⟩ <;> cases hc.symm.trans (AmRouter.slots_of_remove hpr)
  · intro p msg' hmsg'
    dsimp only at hmsg'
    split at hmsg'
    · cases hmsg'
    · next hp =>
      rw [h.zero p (by omega)] at hmsg'
      cases hmsg'
  · intro _
    obtain ⟨fut, hchain, -⟩ := h.last.chain
    simp only [Function.update_of_ne hne, hchain]
    exact ⟨Nat.le_refl _, fun _ => nofun⟩

omit hn in
/-- A rank that is not rank 0 leaves rank 0 waiting, if it puts no message of that key
on its channel. -/
theorem Lost.of_rank_ne (h : Lost n s) {p : ℕ} (hp : p ≠ 0)
    (hrank : ∀ q, q ≠ p → s'.rank q = s.rank q)
    (hchan : ∀ p', ∀ msg ∈ s'.chan p' 0, msg ∈ s.chan p' 0 ∨ msg.key ≠ stepKey (n - 1) 0)
    (hlast : p = n - 1 → (s'.rank p).stage = 0 → (s.rank p).stage = 0 ∧
      ((s.rank p).chain 0).pc ≤ ((s'.rank p).chain 0).pc ∧
        (((s'.rank p).chain 0).pc = ((s.rank p).chain 0).pc →
          ((s.rank p).chain 0).await ≠ none → ((s'.rank p).chain 0).await ≠ none)) :
    Lost n s' := by
  have hzero : s'.rank 0 = s.rank 0 := hrank 0 hp.symm
  constructor
  · rw [hzero]; exact h.stage
  · rw [hzero]; exact h.reaped
  · rw [hzero]; exact h.pc
  · rw [hzero]; exact h.done
  · rw [hzero]; exact h.await
  · rw [hzero]; exact h.not_early
  · rw [hzero]; exact h.pending
  · intro p' msg hmsg
    exact (hchan p' msg hmsg).elim (h.chan p' msg) id
  · intro hstage
    by_cases hpn : p = n - 1
    · subst hpn
      obtain ⟨hstage', hpc, hawait⟩ := hlast rfl hstage
      obtain ⟨hle, hne⟩ := h.last hstage'
      exact ⟨by omega, fun heq => hawait (by omega) (hne (by omega))⟩
    · rw [hrank (n - 1) (Ne.symm hpn)] at hstage ⊢
      exact h.last hstage

omit hn in
/-- A step of rank 0 by itself. -/
theorem Lost.of_rank_zero (h : Lost n s) (hn : 2 ≤ n) (hrank : ∀ q, q ≠ 0 → s'.rank q = s.rank q)
    (hchan : ∀ p', s'.chan p' 0 = s.chan p' 0) (hstage : (s'.rank 0).stage = 0)
    (hreaped : (s'.rank 0).reaped = 0) (hpc : ((s'.rank 0).chain 0).pc = 0)
    (hdone : (s'.rank 0).node.done (0, 0, 0) = false)
    (hawait : ∀ a, ((s'.rank 0).chain 0).await = some a →
      ∃ fut, a.recv = some fut ∧ fut.registered = true ∧ fut.done = (0, 0, 0))
    (hslots : ∀ κ, (s'.rank 0).node.router.slots κ = (s.rank 0).node.router.slots κ ∨
      κ = stepKey (n - 1) 0 ∧ ∃ pr, (s'.rank 0).node.router.slots κ = some (.pending pr)) :
    Lost n s' := by
  refine ⟨hstage, hreaped, hpc, hdone, hawait, fun e he => ?_, fun κ pr hpr => ?_,
    fun p' msg hmsg => h.chan p' msg (hchan p' ▸ hmsg), ?_⟩
  · rcases hslots (stepKey (n - 1) 0) with hc | ⟨-, pr, hc⟩
    · exact h.not_early e (hc ▸ he)
    · cases hc.symm.trans he
  · rcases hslots κ with hc | ⟨hκ, -⟩
    · exact h.pending κ pr (hc ▸ hpr)
    · exact hκ
  · rw [hrank (n - 1) (by omega)]
    exact h.last

omit hn in
/-- Nobody but the last rank sends to rank 0, and what it sends in its second phase has
another key. -/
theorem Lost.issue_chan (hn : 2 ≤ n) (h : Lost n s) {p : ℕ}
    (hat : (layout op hn).At (s.rank p).stage p 0 ((s.rank p).chain 0).pc)
    (hawait : ((s.rank p).chain 0).await = none) (p' : ℕ) :
    ∀ msg ∈ (s.issue p 0 ((layout op hn).instr (s.rank p).stage p 0
      ((s.rank p).chain 0).pc)).chan p' 0, msg ∈ s.chan p' 0 ∨ msg.key ≠ stepKey (n - 1) 0 := by
  intro msg hmsg
  rw [chan_issue] at hmsg
  split at hmsg
  · next hp =>
    subst hp
    rcases List.mem_append.mp hmsg with hmsg | hmsg
    · exact .inl hmsg
    · obtain ⟨sd, hsd, rfl⟩ := List.mem_map.mp hmsg
      obtain ⟨hsd, hdst⟩ := List.mem_filter.mp hsd
      obtain rfl := List.mem_singleton.mp hsd
      have hp : p' = n - 1 := by
        have hdst : (p' + 1) % n = 0 := of_decide_eq_true hdst
        have := back_one_succ hat.rank
        rw [hdst, back_eq_ite (by omega) (by omega), if_neg (by omega)] at this
        omega
      subst hp
      refine .inr fun hkey => ?_
      have hphase : UInt8.ofNat (s.rank (n - 1)).stage = UInt8.ofNat 0 :=
        congrArg RecvKey.phase hkey
      have hstage : (s.rank (n - 1)).stage < 2 := hat.stage
      have hpos : ((s.rank (n - 1)).chain 0).pc < n - 1 := hat.pos
      rcases (show (s.rank (n - 1)).stage = 0 ∨ (s.rank (n - 1)).stage = 1 by omega) with h0 | h1
      · obtain ⟨hle, hne⟩ := h.last h0
        exact hne (by omega) hawait
      · rw [h1] at hphase
        cases hphase
  · exact .inl hmsg

omit hn in
/-- Rank 0 polls its step: it registers. -/
theorem Lost.issue_zero (hn : 2 ≤ n) (h : Lost n s) :
    Lost n (s.issue 0 0 ((layout op hn).instr (s.rank 0).stage 0 0 ((s.rank 0).chain 0).pc)) := by
  rw [h.stage, h.pc]
  set I := (layout op hn).instr 0 0 0 0 with hI
  have hkey : ∀ {κ target}, I.recv = some (κ, target) → κ = stepKey (n - 1) 0 := by
    intro κ target hrecv
    have hprev : back n 0 1 = n - 1 := by
      rw [back_eq_ite (by omega) (by omega), if_neg (by omega)]
      omega
    cases hrecv
    rw [hprev]
    rfl
  have hname : ((s.rank 0).stage, 0, ((s.rank 0).chain 0).pc) = ((0, 0, 0) : Name) := by
    rw [h.stage, h.pc]
  have hdone : (s.rank 0).node.done ((s.rank 0).stage, 0, ((s.rank 0).chain 0).pc) = false := by
    rw [hname, h.done]
  have hchan : ∀ p', (s.issue 0 0 I).chan p' 0 = s.chan p' 0 := by
    intro p'
    rw [chan_issue]
    split
    · next hp =>
      subst hp
      show s.chan 0 0 ++ List.map _ (List.filter _ [_]) = _
      have hne : ¬(0 + 1) % n = 0 := by
        rw [Nat.mod_eq_of_lt (by omega)]
        omega
      rw [List.filter_cons_of_neg (by simpa using hne)]
      exact List.append_nil _
    · rfl
  rcases Rank.pollRecv_cases (i := I) hdone with
    ⟨hrecv, -⟩ | ⟨κ, target, hrecv, ⟨e, he, -⟩ | ⟨-, hpoll⟩⟩
  · cases hrecv
  · rw [hkey hrecv] at he
    exact absurd he (h.not_early e)
  · -- it registers, under the key of the message that is lost
    rw [hname, hkey hrecv] at hpoll
    have hrank := rank_issue_self (s := s) (p := 0) (m := 0) I
    rw [hpoll] at hrank
    refine h.of_rank_zero hn (fun q hq => rank_issue_of_ne I hq) hchan ?_ ?_ ?_ ?_ ?_ ?_ <;>
      rw [hrank]
    · exact h.stage
    · exact h.reaped
    · exact (congrArg Chain.pc (Rank.chain_setChain_self ..)).trans h.pc
    · exact h.done
    · intro a ha
      cases (congrArg Chain.await (Rank.chain_setChain_self ..)).symm.trans ha
      exact ⟨_, rfl, rfl, rfl⟩
    · intro κ'
      by_cases hκ : κ' = stepKey (n - 1) 0
      · subst hκ
        exact .inr ⟨rfl, _, AmRouter.insert_slots_self ..⟩
      · exact .inl (AmRouter.insert_slots_of_ne _ _ hκ)

omit op hn in
/-- What is delivered to rank 0 is not what it waits for. -/
theorem Lost.deliver_zero (hn : 2 ≤ n) (h : Lost n s) {p : ℕ} {msg : Message α}
    {rest : List (Message α)} (hmsgs : s.chan p 0 = msg :: rest) :
    Lost n { rank := Function.update s.rank 0
               { s.rank 0 with node := ((s.rank 0).node.deliver msg.key msg.payload).1 }
             chan := fun p' q' => if p' = p ∧ q' = 0 then rest else s.chan p' q' } := by
  have hne : msg.key ≠ stepKey (n - 1) 0 := h.chan p msg (hmsgs ▸ List.mem_cons_self)
  have hchan : ∀ p', ∀ msg' ∈ (if p' = p ∧ 0 = 0 then rest else s.chan p' 0),
      msg'.key ≠ stepKey (n - 1) 0 := by
    intro p' msg' hmsg'
    split at hmsg'
    · exact h.chan p msg' (hmsgs ▸ List.mem_cons_of_mem _ hmsg')
    · exact h.chan p' msg' hmsg'
  -- the router, with the slot of another key changed
  have key : ∀ node : Node Region Name ℕ α ℕ, node.done = (s.rank 0).node.done →
      (∀ κ, κ ≠ msg.key → node.router.slots κ = (s.rank 0).node.router.slots κ) →
      (∀ pr, node.router.slots msg.key ≠ some (.pending pr)) →
        Lost n { rank := Function.update s.rank 0 { s.rank 0 with node := node }
                 chan := fun p' q' => if p' = p ∧ q' = 0 then rest else s.chan p' q' } := by
    intro node hdone hslots hnot
    refine ⟨?_, ?_, ?_, ?_, ?_, ?_, ?_, hchan, ?_⟩
    · simp only [Function.update_self]
      exact h.stage
    · simp only [Function.update_self]
      exact h.reaped
    · simp only [Function.update_self]
      exact h.pc
    · simp only [Function.update_self, hdone]
      exact h.done
    · simp only [Function.update_self]
      exact h.await
    · intro e he
      simp only [Function.update_self, hslots _ hne.symm] at he
      exact h.not_early e he
    · intro κ pr hpr
      simp only [Function.update_self] at hpr
      by_cases hκ : κ = msg.key
      · exact absurd (hκ ▸ hpr) (hnot pr)
      · exact h.pending κ pr ((hslots κ hκ).symm.trans hpr)
    · have hlast : n - 1 ≠ 0 := by omega
      simp only [Function.update_of_ne hlast]
      exact h.last
  rcases hslot : (s.rank 0).node.router.slots msg.key with - | pr | e
  · rw [Node.deliver_vacant hslot]
    refine key _ rfl (fun κ hκ => AmRouter.insert_slots_of_ne _ _ hκ) fun pr hpr => ?_
    cases (AmRouter.insert_slots_self (s.rank 0).node.router msg.key _).symm.trans hpr
  · exact absurd (h.pending _ pr hslot) hne
  · rw [Node.deliver_early hslot]
    refine key _ rfl (fun κ hκ => AmRouter.remove_slots_of_ne _ hκ) fun pr hpr => ?_
    cases (AmRouter.remove_slots_self (s.rank 0).node.router msg.key).symm.trans hpr

/-- Whatever happens, rank `0` goes on waiting for the message that is lost. -/
theorem Lost.step (h : Lost n s) {e : Event} (hs : AmNet.step (net op n) s e = some s') :
    Lost n s' := by
  have hself : ∀ {p : ℕ} {rk : Rank Region α},
      (Function.update s.rank p rk) p = rk := Function.update_self ..
  have hother : ∀ {p : ℕ} {rk : Rank Region α}, ∀ q, q ≠ p →
      (Function.update s.rank p rk) q = s.rank q := fun q hq => Function.update_of_ne hq ..
  rcases e with p | ⟨p, m⟩ | ⟨p, m, j⟩ | ⟨p, q⟩ | p
  · obtain ⟨-, -, -, -, rfl⟩ := (layout op hn).step_launch.mp hs
    by_cases hp : p = 0
    · subst hp
      refine h.of_rank_zero hn hother (fun _ => rfl) ?_ ?_ ?_ ?_ ?_ ?_ <;> simp only [hself]
      exacts [h.stage, h.reaped, h.pc, h.done, h.await, fun _ => .inl trivial]
    · refine h.of_rank_ne hp hother (fun _ _ hmsg => .inl hmsg) fun _ hstage => ?_
      simp only [hself] at hstage ⊢
      exact ⟨hstage, Nat.le_refl _, fun _ hne => hne⟩
  · obtain ⟨hat, -, -, hcase⟩ := (layout op hn).step_poll.mp hs
    obtain rfl : m = 0 := Nat.lt_one_iff.mp hat.chain
    rcases hcase with ⟨hawait, rfl⟩ | ⟨a, hawait, hcomplete, rfl⟩
    · -- a first poll: what it sends has other keys than the message that is lost
      have hchan := h.issue_chan op hn hat hawait
      by_cases hp : p = 0
      · subst hp
        exact h.issue_zero op hn
      · refine h.of_rank_ne hp (fun q hq => rank_issue_of_ne _ hq) hchan fun hpn hstage => ?_
        rw [rank_issue_self] at hstage ⊢
        have hchain := fun c => (s.rank p).chain_setChain_self 0 c
        refine ⟨hstage, ?_, fun _ _ hc => ?_⟩
        · exact (congrArg Chain.pc (hchain ⟨((s.rank p).chain 0).pc, _⟩)).ge
        · cases (congrArg Chain.await (hchain ⟨_, some _⟩)).symm.trans hc
    · by_cases hp : p = 0
      · -- its receive is not done
        subst hp
        obtain ⟨fut, hfut, hreg, hd⟩ := h.await a hawait
        have hready := (poll_ready_iff (.inl hreg)).mp (hcomplete.2 fut hfut)
        rw [hd, h.done] at hready
        cases hready
      · refine h.of_rank_ne hp hother (fun _ _ hmsg => .inl hmsg) fun _ hstage => ?_
        rw [State.proceed] at hstage ⊢
        simp only [hself] at hstage ⊢
        have hpc : (((s.rank p).setChain 0 ⟨((s.rank p).chain 0).pc + 1, none⟩).chain 0).pc =
            ((s.rank p).chain 0).pc + 1 := congrArg Chain.pc (Rank.chain_setChain_self ..)
        exact ⟨hstage, by omega, fun hc => by omega⟩
  · -- the end of a send touches neither a slot nor a channel
    obtain ⟨a, sd, hawait, hsend, -, -, rfl⟩ := (layout op hn).step_sent.mp hs
    obtain rfl : m = 0 := Nat.lt_one_iff.mp hsend.1.chain
    have hchain := (s.rank p).chain_setChain_self 0
    by_cases hp : p = 0
    · subst hp
      refine h.of_rank_zero hn hother (fun _ => rfl) ?_ ?_ ?_ ?_ ?_ ?_ <;>
        simp only [hself, hchain]
      · exact h.stage
      · exact h.reaped
      · exact h.pc
      · exact h.done
      · intro a' ha'
        cases ha'
        exact h.await a hawait
      · exact fun _ => .inl rfl
    · refine h.of_rank_ne hp hother (fun _ _ hmsg => .inl hmsg) fun _ hstage => ?_
      simp only [hself, hchain] at hstage ⊢
      exact ⟨hstage, Nat.le_refl _, fun _ _ => nofun⟩
  · -- what is delivered to rank `0` has another key
    obtain ⟨msg, rest, hmsgs, rfl⟩ := step_deliver.mp hs
    by_cases hq : q = 0
    · subst hq
      exact h.deliver_zero hn hmsgs
    · refine h.of_rank_ne hq hother (fun p' msg' hmsg' => .inl ?_) fun _ hstage => ?_
      · dsimp only at hmsg'
        rwa [if_neg fun hc => hq hc.2.symm] at hmsg'
      · simp only [hself] at hstage ⊢
        exact ⟨hstage, Nat.le_refl _, fun _ hne => hne⟩
  · obtain ⟨-, -, -, hreaped, rfl⟩ := (layout op hn).step_advance.mp hs
    by_cases hp : p = 0
    · subst hp
      -- its chain is not reaped, as it has not ended
      rw [h.reaped] at hreaped
      cases hreaped
    · refine h.of_rank_ne hp hother (fun _ _ hmsg => .inl hmsg) fun _ hstage => ?_
      simp only [hself] at hstage
      cases hstage

/-! ### The run that never ends -/

/-- Messages go to the next rank. -/
theorem dst_lt {i p m k j : ℕ} {sd : Send Region}
    (h : (layout op hn).IsSend i p m k j sd) : sd.dst < n := by
  obtain ⟨-, h⟩ := Layout.isSend_ofPlans.mp h
  obtain ⟨-, -, -, -, rfl⟩ := pipelinedPlan_isSend.mp h
  exact Nat.mod_lt _ (by omega)

/-- Messages are between the ranks, all along a run. -/
theorem closed_of_reaches (h : Reaches (step (net op n)) (start heap) s) : Closed n s := by
  refine h.invariant (fun p q hne => absurd rfl hne) fun s e s' hc _ hs => ?_
  exact (layout op hn).closed_step (fun hsend => dst_lt op hn hsend) hc hs

/-- **With 65538 ranks, rank 0 can be left waiting.** -/
theorem exists_lost (hN : n = 65538) (heap : ℕ → Heap Region α) :
    ∃ s, Reaches (step (net op n)) (start heap) s ∧ ¬Final (net op n) s ∧
      Stuck (step (net op n)) s := by
  obtain ⟨s₁, hs₁, h₁⟩ := flooded op hn hN heap 65536 (Nat.le_refl _)
  obtain ⟨s₂, hs₂, h₂⟩ := h₁.lost op hN
  have hreach := hs₁.tail trivial hs₂
  obtain ⟨s₃, hs₃, hstuck⟩ := exists_stuck (P := layout op hn) (fun hsend => dst_lt op hn hsend)
    (fun _ _ => True) (closed_of_reaches op hn hreach)
  have hlost : Lost n s₃ := hs₃.invariant h₂ fun _ _ _ h _ hs => h.step op hn hs
  refine ⟨s₃, hreach.trans hs₃, fun hf => ?_, fun e => hstuck e trivial⟩
  have hlen : (pipelinedProgram op n (shape n) 0).length = 2 :=
    length_pipelinedProgram hn (by omega) (shape_ok n)
  have hzero := (hf 0 (Nat.lt_of_lt_of_le Nat.two_pos hn)).symm.trans hlost.stage
  exact absurd (hlen.symm.trans hzero) (by decide)

end Steps

end PipelinedWrap

/-- **65538 ranks are too many**: a call of good shape has a run to a state where
nothing can happen and rank 0 has not returned. -/
theorem pipelined_ring_stuck : PipelineShape.Ok ⟨65538, 1, 1⟩ 65538 ∧
    ∃ s, Reaches (AmNet.step ⟨65538, pipelinedProgram ⟨Nat.add⟩ 65538 ⟨65538, 1, 1⟩,
        fun _ _ _ => true⟩) (AmNet.start fun _ _ _ => 0) s ∧
      ¬AmNet.Final ⟨65538, pipelinedProgram ⟨Nat.add⟩ 65538 ⟨65538, 1, 1⟩, fun _ _ _ => true⟩ s ∧
      Stuck (AmNet.step ⟨65538, pipelinedProgram ⟨Nat.add⟩ 65538 ⟨65538, 1, 1⟩,
        fun _ _ _ => true⟩) s :=
  ⟨PipelinedWrap.shape_ok 65538,
    PipelinedWrap.exists_lost ⟨Nat.add⟩ (by omega) rfl fun _ _ _ => 0⟩

end Pluvio
