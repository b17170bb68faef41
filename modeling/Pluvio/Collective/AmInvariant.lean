import Mathlib.Tactic.Push
import Pluvio.Collective.AmPlan

/-!
# Where the messages are

The invariant of matched programs, as long as no message is delivered onto an
early one (`Pluvio.AmNet.InTime`). A message that has been issued is in exactly one
place (`Pluvio.AmNet.Messages`): on its channel, in the slot of its key as the
early message, or taken by the receive of its own stage. Under one key the messages
of a channel come in the order of their stages, after the early one if there is
one. That is what keeps a receive from being given the message of another stage,
although the key does not tell the two apart: the message of an earlier stage would
have been taken already, and the one of a later stage cannot overtake.
-/

namespace Pluvio

namespace AmNet

variable {R α : Type*} {n : ℕ} {prog : ℕ → List (Stage R α)} {P : Layout n prog}

/-! ### The first poll of a receive -/

section PollRecv

variable [DecidableEq R] {r : Rank R α} {m : ℕ} {i : Instr R α}

/-- **The first poll of a receive** takes the early message, or registers. -/
theorem Rank.pollRecv_cases (hdone : r.node.done (r.stage, m, (r.chain m).pc) = false) :
    (i.recv = none ∧ r.pollRecv m i = (none, r.node)) ∨
      ∃ κ t, i.recv = some (κ, t) ∧
        ((∃ msg, r.node.router.slots κ = some (.early msg) ∧
            r.pollRecv m i = (some (.new κ (r.stage, m, (r.chain m).pc) t),
              { r.node with router := r.node.router.remove κ }.fill t
                (r.stage, m, (r.chain m).pc) msg)) ∨
          (∀ msg, r.node.router.slots κ ≠ some (.early msg)) ∧
            r.pollRecv m i =
              (some { RecvFuture.new κ (r.stage, m, (r.chain m).pc) t with registered := true },
                { r.node with
                  router := r.node.router.insert κ
                    (.pending ⟨t, (r.stage, m, (r.chain m).pc), some m⟩) })) := by
  unfold Rank.pollRecv
  rcases hrecv : i.recv with - | ⟨κ, t⟩
  · exact .inl ⟨rfl, rfl⟩
  refine .inr ⟨κ, t, rfl, ?_⟩
  by_cases hearly : ∃ msg, r.node.router.slots κ = some (.early msg)
  · obtain ⟨msg, hmsg⟩ := hearly
    refine .inl ⟨msg, hmsg, ?_⟩
    dsimp only
    rw [RecvFuture.poll_early hdone rfl hmsg]
    rfl
  · refine .inr ⟨fun msg hmsg => hearly ⟨msg, hmsg⟩, ?_⟩
    dsimp only
    rw [RecvFuture.poll_register hdone rfl fun msg hmsg => hearly ⟨msg, hmsg⟩]
    rfl

/-- The first poll of a receive completes no other one. -/
theorem Rank.done_pollRecv (hdone : r.node.done (r.stage, m, (r.chain m).pc) = false) (a : Name) :
    (r.pollRecv m i).2.done a = r.node.done a ∨ a = (r.stage, m, (r.chain m).pc) := by
  by_cases ha : a = (r.stage, m, (r.chain m).pc)
  · exact .inr ha
  refine .inl ?_
  rcases Rank.pollRecv_cases (i := i) hdone with ⟨-, h⟩ | ⟨κ, t, -, ⟨msg, -, h⟩ | ⟨-, h⟩⟩
  · rw [h]
  · rw [h]
    exact Function.update_of_ne ha ..
  · rw [h]

end PollRecv

/-! ### A rank by itself -/

/-- The invariant of a rank. -/
structure Local (P : Layout n prog) (p : ℕ) (r : Rank R α) : Prop where
  stage_le : r.stage ≤ P.stages
  pc_le : r.stage < P.stages → ∀ m < P.width r.stage, (r.chain m).pc ≤ P.len r.stage p m
  /-- A chain waits at an await point. -/
  waits : ∀ m a, (r.chain m).await = some a → P.At r.stage p m (r.chain m).pc
  fresh : ∀ m, r.launched ≤ m → r.chain m = .new
  launched_le : r.stage < P.stages → r.launched ≤ P.width r.stage
  /-- A rank that has returned pushes no chain. -/
  idle : r.stage = P.stages → r.launched = 0
  /-- The chains that have returned are those at their ends. -/
  reaped_eq : r.stage < P.stages → r.reaped =
    ((Finset.range r.launched).filter fun m => (r.chain m).pc = P.len r.stage p m).card
  window : r.stage < P.stages → r.inFlight ≤ P.window r.stage
  recv_none : ∀ m a, (r.chain m).await = some a →
    (P.instr r.stage p m (r.chain m).pc).recv = none → a.recv = none
  /-- The future a chain waits for has been polled: it is registered or done. -/
  recv_some : ∀ m a κ t, (r.chain m).await = some a →
    (P.instr r.stage p m (r.chain m).pc).recv = some (κ, t) →
      ∃ fut, a.recv = some fut ∧ fut.key = κ ∧ fut.done = (r.stage, m, (r.chain m).pc) ∧
        fut.target = t ∧ (fut.registered = true ∨ r.node.done fut.done = true)
  sending : ∀ m a j, (r.chain m).await = some a → j ∈ a.sending →
    j < (P.instr r.stage p m (r.chain m).pc).sends.length
  /-- What has been left has been received. -/
  taken : ∀ i m k κ t, P.IsRecv i p m k κ t → r.Passed i m k → r.node.done (i, m, k) = true
  /-- What has been received had been started. -/
  started : ∀ i m k, r.node.done (i, m, k) = true → r.Started i m k

/-- The messages can tell no difference between the two ranks. -/
structure Rank.Same (P : Layout n prog) (p : ℕ) (r r' : Rank R α) : Prop where
  router : r'.node.router = r.node.router
  done : r'.node.done = r.node.done
  got : r'.node.got = r.node.got
  started : ∀ i m k, P.At i p m k → (r'.Started i m k ↔ r.Started i m k)

theorem Rank.Same.refl (p : ℕ) (r : Rank R α) : r.Same P p r :=
  ⟨rfl, rfl, rfl, fun _ _ _ _ => Iff.rfl⟩

/-- **The window bounds the chains in flight**, at any time. -/
theorem Local.inFlight_le {p : ℕ} {r : Rank R α} (h : Local P p r) {w : ℕ}
    (hw : ∀ i < P.stages, P.window i ≤ w) : r.inFlight ≤ w := by
  rcases Nat.lt_or_eq_of_le h.stage_le with hi | hi
  · exact (h.window hi).trans (hw _ hi)
  · rw [Rank.inFlight, h.idle hi, Nat.zero_sub]
    exact Nat.zero_le w

/-- A chain that waits has been pushed. -/
theorem Local.launched_of_await {p m : ℕ} {r : Rank R α} (h : Local P p r) {a : Await R}
    (hawait : (r.chain m).await = some a) : m < r.launched := by
  by_contra hm
  rw [h.fresh m (Nat.not_lt.mp hm)] at hawait
  cases hawait

/-- A rank where all chains have returned is at the end of all of them. -/
theorem Local.pc_eq_of_reaped {p : ℕ} {r : Rank R α} (h : Local P p r) (hi : r.stage < P.stages)
    (hl : r.launched = P.width r.stage) (hr : r.reaped = P.width r.stage) {m : ℕ}
    (hm : m < P.width r.stage) : (r.chain m).pc = P.len r.stage p m := by
  have hcard := h.reaped_eq hi
  rw [hr, hl] at hcard
  have hall := Finset.filter_card_eq (s := Finset.range (P.width r.stage))
    (hcard.symm.trans (Finset.card_range _).symm)
  exact hall m (Finset.mem_range.mpr hm)

/-- A rank that pushes a chain while its window has room keeps the invariant. -/
theorem Local.launch {p : ℕ} {r : Rank R α} (h : Local P p r) (hp : p < n)
    (hi : r.stage < P.stages) (hl : r.launched < P.width r.stage)
    (hw : r.inFlight < P.window r.stage) :
    Local P p { r with launched := r.launched + 1 } ∧
      r.Same P p { r with launched := r.launched + 1 } := by
  refine ⟨⟨h.stage_le, h.pc_le, h.waits, fun m hm => h.fresh m (by simp only at hm; omega),
    fun _ => hl, fun hend => absurd hend hi.ne, fun _ => ?_, fun _ => ?_, h.recv_none, h.recv_some,
    h.sending, h.taken, h.started⟩, rfl, rfl, rfl, fun _ _ _ _ => Iff.rfl⟩
  · -- the new chain is at its start, which is not its end
    have hpos := P.len_pos _ hi p hp _ hl
    rw [Finset.range_add_one, Finset.filter_insert, if_neg, h.reaped_eq hi]
    rw [h.fresh _ (Nat.le_refl _)]
    exact hpos.ne
  · simp only [Rank.inFlight] at hw ⊢
    omega

/-- Where a chain of a rank is, after one of them was replaced. -/
theorem Rank.chain_setChain (r : Rank R α) (m m' : ℕ) (c : Chain R) :
    (r.setChain m c).chain m' = if m' = m then c else r.chain m' := by
  rw [Rank.setChain]
  exact Function.update_apply ..

@[simp] theorem Rank.chain_setChain_self (r : Rank R α) (m : ℕ) (c : Chain R) :
    (r.setChain m c).chain m = c := Function.update_self ..

/-- What all chains satisfy, and the new one too. -/
theorem Rank.forall_setChain {Q : ℕ → Chain R → Prop} {r : Rank R α} {m : ℕ} {c : Chain R}
    (h : ∀ m', Q m' (r.chain m')) (hc : Q m c) (m' : ℕ) : Q m' ((r.setChain m c).chain m') := by
  rw [Rank.chain_setChain]
  split
  · next heq => exact heq ▸ hc
  · exact h m'

section Rules

variable {p m : ℕ} {r : Rank R α}

/-- **The chains that have returned**, if a chain that has not is replaced. -/
theorem Local.reaped_setChain (h : Local P p r) (hat : P.At r.stage p m (r.chain m).pc)
    (hm : m < r.launched) (c : Chain R) (hi : r.stage < P.stages) :
    r.reaped + (if c.pc = P.len r.stage p m then 1 else 0) =
      ((Finset.range r.launched).filter fun m' =>
        ((r.setChain m c).chain m').pc = P.len r.stage p m').card := by
  rw [h.reaped_eq hi]
  have hold : m ∉ (Finset.range r.launched).filter fun m' =>
      (r.chain m').pc = P.len r.stage p m' := by
    rw [Finset.mem_filter]
    exact fun hc => hat.pos.ne hc.2
  by_cases hc : c.pc = P.len r.stage p m
  · -- the chain is at its end now: one more has returned
    rw [if_pos hc, ← Finset.card_insert_of_notMem hold]
    congr 1
    ext m'
    rw [Finset.mem_insert, Finset.mem_filter, Finset.mem_filter, Rank.chain_setChain]
    by_cases heq : m' = m
    · subst heq
      rw [if_pos rfl]
      exact iff_of_true (.inl rfl) ⟨Finset.mem_range.mpr hm, hc⟩
    · rw [if_neg heq]
      exact ⟨fun hc' => hc'.resolve_left heq, .inr⟩
  · rw [if_neg hc, Nat.add_zero]
    congr 1
    ext m'
    rw [Finset.mem_filter, Finset.mem_filter, Rank.chain_setChain]
    by_cases heq : m' = m
    · subst heq
      rw [if_pos rfl]
      exact iff_of_false (fun hc' => hat.pos.ne hc'.2) fun hc' => hc hc'.2
    · rw [if_neg heq]

/-- **Replacing a chain that is at an await point**, and the node with it. What is
asked of the new chain is what the invariant says of it. -/
theorem Local.setChain (h : Local P p r) (hat : P.At r.stage p m (r.chain m).pc)
    (hm : m < r.launched) (c : Chain R) (node : Node R Name ℕ α ℕ) (reaped : ℕ)
    (hreaped : reaped = r.reaped + if c.pc = P.len r.stage p m then 1 else 0)
    (hpc : c.pc ≤ P.len r.stage p m)
    (hwaits : ∀ a, c.await = some a → P.At r.stage p m c.pc)
    (hnone : ∀ a, c.await = some a → (P.instr r.stage p m c.pc).recv = none → a.recv = none)
    (hsome : ∀ a κ t, c.await = some a → (P.instr r.stage p m c.pc).recv = some (κ, t) →
      ∃ fut, a.recv = some fut ∧ fut.key = κ ∧ fut.done = (r.stage, m, c.pc) ∧ fut.target = t ∧
        (fut.registered = true ∨ node.done fut.done = true))
    (hsending : ∀ a j, c.await = some a → j ∈ a.sending →
      j < (P.instr r.stage p m c.pc).sends.length)
    (hdone : ∀ a, r.node.done a = true → node.done a = true)
    (htaken : ∀ k κ t, P.IsRecv r.stage p m k κ t → k < c.pc → node.done (r.stage, m, k) = true)
    (hstarted : ∀ i m' k, node.done (i, m', k) = true →
      Rank.Started { r.setChain m c with reaped := reaped, node := node } i m' k) :
    Local P p { r.setChain m c with reaped := reaped, node := node } := by
  -- the chain that is replaced has been launched, so those that have not are as they were
  have hlaunched : ∀ m', r.launched ≤ m' → (r.setChain m c).chain m' = .new := by
    intro m' hm'
    have hne : m' ≠ m := fun hc => Nat.not_lt.mpr hm' (hc ▸ hm)
    rw [Rank.chain_setChain, if_neg hne]
    exact h.fresh m' hm'
  refine ⟨h.stage_le, fun hi m' hm' => ?_, fun m' a ha => ?_, hlaunched, h.launched_le, h.idle,
    fun hi => ?_, fun hi => ?_, fun m' a ha hrecv => ?_, ?_, fun m' a j ha hj => ?_, ?_, hstarted⟩
  · exact r.forall_setChain (Q := fun m' c => m' < P.width r.stage → c.pc ≤ P.len r.stage p m')
      (h.pc_le hi) (fun _ => hpc) m' hm'
  · exact r.forall_setChain (Q := fun m' c => ∀ a, c.await = some a → P.At r.stage p m' c.pc)
      h.waits hwaits m' a ha
  · exact hreaped.trans (h.reaped_setChain hat hm c hi)
  · have hw : r.launched - r.reaped ≤ P.window r.stage := h.window hi
    show r.launched - reaped ≤ P.window r.stage
    omega
  · exact r.forall_setChain (Q := fun m' c => ∀ a, c.await = some a →
      (P.instr r.stage p m' c.pc).recv = none → a.recv = none) h.recv_none hnone m' a ha hrecv
  · refine r.forall_setChain (Q := fun m' c => ∀ a κ t, c.await = some a →
      (P.instr r.stage p m' c.pc).recv = some (κ, t) → ∃ fut, a.recv = some fut ∧ fut.key = κ ∧
        fut.done = (r.stage, m', c.pc) ∧ fut.target = t ∧
          (fut.registered = true ∨ node.done fut.done = true))
      (fun m' a κ t ha hrecv => ?_) hsome
    obtain ⟨fut, h1, h2, h3, h4, h5⟩ := h.recv_some m' a κ t ha hrecv
    exact ⟨fut, h1, h2, h3, h4, h5.imp id (hdone _)⟩
  · exact r.forall_setChain (Q := fun m' c => ∀ a j, c.await = some a → j ∈ a.sending →
      j < (P.instr r.stage p m' c.pc).sends.length) h.sending hsending m' a j ha hj
  · rintro i m' k κ t hrecv (hi | ⟨rfl, hk⟩)
    · exact hdone _ (h.taken i m' k κ t hrecv (.inl hi))
    · refine r.forall_setChain (Q := fun m' c => ∀ κ t, P.IsRecv r.stage p m' k κ t → k < c.pc →
        node.done (r.stage, m', k) = true) (fun m' κ t hrecv hk => ?_) (fun κ t => htaken k κ t)
        m' κ t hrecv hk
      exact hdone _ (h.taken _ m' k κ t hrecv (.inr ⟨rfl, hk⟩))

/-- What a rank has started once chain `m` has been polled for the first time at
its await point. -/
theorem Rank.started_await {a : Await R} {node : Node R Name ℕ α ℕ} {reaped i m' k : ℕ} :
    Rank.Started { r.setChain m ⟨(r.chain m).pc, some a⟩ with reaped := reaped, node := node }
        i m' k ↔ r.Started i m' k ∨ i = r.stage ∧ m' = m ∧ k = (r.chain m).pc := by
  unfold Rank.Started
  show i < r.stage ∨ i = r.stage ∧ (k < ((r.setChain m _).chain m').pc ∨
    k = ((r.setChain m _).chain m').pc ∧ ((r.setChain m _).chain m').await.isSome = true) ↔ _
  rw [Rank.chain_setChain]
  by_cases hm : m' = m
  · subst hm
    rw [if_pos rfl]
    simp only [Option.isSome_some, and_true]
    tauto
  · rw [if_neg hm]
    tauto

/-- An await point that has not been polled is not started, so its receive is not
done. -/
theorem Local.done_eq_false (h : Local P p r) (hawait : (r.chain m).await = none) :
    r.node.done (r.stage, m, (r.chain m).pc) = false := by
  by_contra hne
  rcases h.started _ _ _ (Bool.eq_true_of_not_eq_false hne) with hi | ⟨-, hk | ⟨-, ha⟩⟩
  · exact absurd hi (Nat.lt_irrefl _)
  · exact absurd hk (Nat.lt_irrefl _)
  · rw [hawait] at ha
    cases ha

variable [DecidableEq R]

/-- So does one that starts an await point, with the sends and the receive of it under way. -/
theorem Local.issue (h : Local P p r) (hat : P.At r.stage p m (r.chain m).pc)
    (hm : m < r.launched) (hawait : (r.chain m).await = none) :
    Local P p { r.setChain m ⟨(r.chain m).pc, some ⟨List.range
          (P.instr r.stage p m (r.chain m).pc).sends.length,
        (r.pollRecv m (P.instr r.stage p m (r.chain m).pc)).1⟩⟩ with
      node := (r.pollRecv m (P.instr r.stage p m (r.chain m).pc)).2 } := by
  have hdone := h.done_eq_false hawait
  have hnode := r.done_pollRecv (i := P.instr r.stage p m (r.chain m).pc) hdone
  refine h.setChain hat hm ⟨(r.chain m).pc, _⟩ _ _ ?_ hat.pos.le ?_ ?_ ?_ ?_ ?_ ?_ ?_
  · rw [if_neg hat.pos.ne, Nat.add_zero]
    rfl
  · intro a ha
    exact hat
  · intro a ha hrecv
    cases ha
    rcases r.pollRecv_cases (i := P.instr r.stage p m (r.chain m).pc) hdone with
      ⟨-, hp⟩ | ⟨κ, t, hp, -⟩
    · rw [hp]
    · cases hrecv.symm.trans hp
  · intro a κ t ha hrecv
    cases ha
    rcases r.pollRecv_cases (i := P.instr r.stage p m (r.chain m).pc) hdone with
      ⟨hp, -⟩ | ⟨κ', t', hp, ⟨msg, -, hq⟩ | ⟨-, hq⟩⟩
    · cases hrecv.symm.trans hp
    · cases hrecv.symm.trans hp
      rw [hq]
      exact ⟨_, rfl, rfl, rfl, rfl, .inr (Function.update_self ..)⟩
    · cases hrecv.symm.trans hp
      rw [hq]
      exact ⟨_, rfl, rfl, rfl, rfl, .inl rfl⟩
  · intro a j ha hj
    cases ha
    exact List.mem_range.mp hj
  · intro a ha
    rcases hnode a with heq | heq
    · rw [heq, ha]
    · rw [heq, hdone] at ha
      cases ha
  · intro k κ t hrecv hk
    have hold := h.taken _ m k κ t hrecv (.inr ⟨rfl, hk⟩)
    rcases hnode (r.stage, m, k) with heq | heq
    · rw [heq, hold]
    · rw [heq, hdone] at hold
      cases hold
  · intro i m' k hd
    refine Rank.started_await.mpr ?_
    rcases hnode (i, m', k) with heq | heq
    · rw [heq] at hd
      exact .inl (h.started i m' k hd)
    · -- the only flag that the poll may set is that of its own await point
      obtain ⟨rfl, rfl, rfl⟩ : i = r.stage ∧ m' = m ∧ k = (r.chain m).pc := by simpa using heq
      exact .inr ⟨rfl, rfl, rfl⟩

/-- A future that has been polled is ready exactly when it is done. -/
theorem poll_ready_iff {fut : RecvFuture R Name} {node : Node R Name ℕ α ℕ} {w : ℕ}
    (h : fut.registered = true ∨ node.done fut.done = true) :
    (fut.poll node w).1 = .ready ↔ node.done fut.done = true := by
  rcases Bool.eq_false_or_eq_true (node.done fut.done) with hd | hd
  · rw [RecvFuture.poll_done hd]
    exact iff_of_true rfl hd
  · rw [RecvFuture.poll_again hd (h.resolve_right (by rw [hd]; exact Bool.false_ne_true)), hd]
    exact iff_of_false (fun h => by cases h) Bool.false_ne_true

/-- So does one that leaves an await point, when all its sends and its receive are complete. -/
theorem Local.proceed (h : Local P p r) (hat : P.At r.stage p m (r.chain m).pc)
    (hm : m < r.launched) {a : Await R} (hawait : (r.chain m).await = some a)
    (hcomplete : a.Complete r.node m) (heap : Heap R α) :
    Local P p { r.setChain m ⟨(r.chain m).pc + 1, none⟩ with
        reaped := r.reaped + if (r.chain m).pc + 1 = P.len r.stage p m then 1 else 0
        node := { r.node with heap := heap } } ∧
      r.Same P p { r.setChain m ⟨(r.chain m).pc + 1, none⟩ with
        reaped := r.reaped + if (r.chain m).pc + 1 = P.len r.stage p m then 1 else 0
        node := { r.node with heap := heap } } := by
  have hsame : ∀ reaped i m' k, Rank.Started { r.setChain m ⟨(r.chain m).pc + 1, none⟩ with
      reaped := reaped, node := { r.node with heap := heap } } i m' k ↔ r.Started i m' k := by
    intro reaped i m' k
    unfold Rank.Started
    show i < r.stage ∨ i = r.stage ∧ (k < ((r.setChain m _).chain m').pc ∨
      k = ((r.setChain m _).chain m').pc ∧ ((r.setChain m _).chain m').await.isSome = true) ↔ _
    rw [Rank.chain_setChain]
    by_cases hm' : m' = m
    · subst hm'
      rw [if_pos rfl, hawait]
      simp only [Option.isSome_none, Option.isSome_some, and_true, Bool.false_eq_true, and_false,
        or_false]
      omega
    · rw [if_neg hm']
  refine ⟨?_, rfl, rfl, rfl, fun i m' k _ => hsame _ i m' k⟩
  refine h.setChain hat hm ⟨(r.chain m).pc + 1, none⟩ _ _ rfl hat.pos ?_ ?_ ?_ ?_ ?_ ?_ ?_
  · intro a ha
    cases ha
  · intro a ha
    cases ha
  · intro a κ t ha
    cases ha
  · intro a j ha
    cases ha
  · exact fun _ hd => hd
  · intro k κ t hrecv hk
    rcases Nat.lt_succ_iff_lt_or_eq.mp hk with hk | rfl
    · exact h.taken _ m k κ t hrecv (.inr ⟨rfl, hk⟩)
    · -- the receive of this await point: the `join` is complete
      obtain ⟨fut, hfut, -, hd, -, hpolled⟩ := h.recv_some m a κ t hawait hrecv.2
      rw [← hd]
      exact (poll_ready_iff hpolled).mp (hcomplete.2 fut hfut)
  · intro i m' k hd
    exact (hsame _ i m' k).mpr (h.started i m' k hd)

omit [DecidableEq R] in
/-- **The completion of a send.** -/
theorem Local.sent (h : Local P p r) (hm : m < r.launched) {a : Await R}
    (hawait : (r.chain m).await = some a) (j : ℕ) :
    Local P p (r.setChain m ⟨(r.chain m).pc, some { a with sending := a.sending.erase j }⟩) ∧
      r.Same P p
        (r.setChain m ⟨(r.chain m).pc, some { a with sending := a.sending.erase j }⟩) := by
  have hat := h.waits m a hawait
  have hsame : ∀ i m' k, Rank.Started { r.setChain m
      ⟨(r.chain m).pc, some { a with sending := a.sending.erase j }⟩ with
        reaped := r.reaped, node := r.node } i m' k ↔ r.Started i m' k := by
    intro i m' k
    refine Rank.started_await.trans (or_iff_left_of_imp ?_)
    rintro ⟨rfl, rfl, rfl⟩
    exact .inr ⟨rfl, .inr ⟨rfl, by rw [hawait]; rfl⟩⟩
  refine ⟨?_, rfl, rfl, rfl, fun i m' k _ => hsame i m' k⟩
  refine h.setChain hat hm ⟨(r.chain m).pc, some _⟩ r.node r.reaped ?_ hat.pos.le ?_ ?_ ?_ ?_ ?_ ?_
    ?_
  · rw [if_neg hat.pos.ne, Nat.add_zero]
  · exact fun _ _ => hat
  · intro a' ha'
    cases ha'
    exact h.recv_none m a hawait
  · intro a' κ t ha'
    cases ha'
    exact h.recv_some m a κ t hawait
  · intro a' j' ha' hj'
    cases ha'
    exact h.sending m a j' hawait (List.mem_of_mem_erase hj')
  · exact fun _ hd => hd
  · exact fun k κ t hrecv hk => h.taken _ m k κ t hrecv (.inr ⟨rfl, hk⟩)
  · exact fun i m' k hd => (hsame i m' k).mpr (h.started i m' k hd)

omit [DecidableEq R] in
/-- **A delivery**, which completes at most a receive that has been started. -/
theorem Local.setNode (h : Local P p r) {node : Node R Name ℕ α ℕ}
    (hdone : ∀ a, r.node.done a = true → node.done a = true)
    (hstarted : ∀ i m k, node.done (i, m, k) = true → r.Started i m k) :
    Local P p { r with node := node } := by
  refine ⟨h.stage_le, h.pc_le, h.waits, h.fresh, h.launched_le, h.idle, h.reaped_eq, h.window,
    h.recv_none, fun m a κ t ha hrecv => ?_, h.sending,
    fun i m k κ t hr hp => hdone _ (h.taken i m k κ t hr hp), hstarted⟩
  obtain ⟨fut, h1, h2, h3, h4, h5⟩ := h.recv_some m a κ t ha hrecv
  exact ⟨fut, h1, h2, h3, h4, h5.imp id (hdone _)⟩

omit [DecidableEq R] in
/-- So does one that leaves a stage, and it has been where it was before. -/
theorem Local.advance (h : Local P p r) (hi : r.stage < P.stages)
    (hl : r.launched = P.width r.stage) (hr : r.reaped = P.width r.stage) :
    Local P p ⟨r.stage + 1, 0, 0, fun _ => .new, r.node⟩ ∧
      r.Same P p ⟨r.stage + 1, 0, 0, fun _ => .new, r.node⟩ := by
  have hend : ∀ m < P.width r.stage, (r.chain m).pc = P.len r.stage p m :=
    fun m hm => h.pc_eq_of_reaped hi hl hr hm
  have hpassed : ∀ i m k, P.At i p m k → i ≤ r.stage → r.Passed i m k := by
    intro i m k hat hle
    rcases Nat.eq_or_lt_of_le hle with rfl | hlt
    · exact .inr ⟨rfl, by rw [hend m hat.chain]; exact hat.pos⟩
    · exact .inl hlt
  have hstarted : ∀ i m k, Rank.Started (⟨r.stage + 1, 0, 0, fun _ => .new, r.node⟩ : Rank R α)
      i m k ↔ i ≤ r.stage := by
    intro i m k
    unfold Rank.Started Chain.new
    constructor
    · rintro (hlt | ⟨-, hlt | ⟨-, hawait⟩⟩)
      · exact Nat.le_of_lt_succ hlt
      · exact absurd hlt (Nat.not_lt_zero k)
      · exact nomatch hawait
    · exact fun hle => .inl (Nat.lt_succ_of_le hle)
  refine ⟨⟨hi, ?_, ?_, ?_, ?_, fun _ => rfl, ?_, ?_, ?_, ?_, ?_, ?_, ?_⟩, rfl, rfl, rfl,
    fun i m k hat => ?_⟩
  · exact fun _ _ _ => Nat.zero_le _
  · intro m a ha
    cases ha
  · exact fun _ _ => rfl
  · exact fun _ => Nat.zero_le _
  · exact fun _ => rfl
  · exact fun _ => Nat.zero_le _
  · intro m a ha
    cases ha
  · intro m a κ t ha
    cases ha
  · intro m a j ha
    cases ha
  · intro i m k κ t hrecv hp
    refine h.taken i m k κ t hrecv (hpassed i m k hrecv.1 ?_)
    exact (hstarted i m k).mp hp.started
  · intro i m k hd
    refine (hstarted i m k).mpr ?_
    rcases h.started i m k hd with hlt | ⟨rfl, -⟩
    · exact hlt.le
    · exact Nat.le_refl _
  · rw [hstarted]
    constructor
    · exact fun hle => (hpassed i m k hat hle).started
    · rintro (hlt | ⟨rfl, -⟩)
      · exact hlt.le
      · exact Nat.le_refl _

end Rules

/-! ### One rank of many -/

section Update

variable {s : State R α} {p : ℕ} {r : Rank R α}

/-- One rank is replaced by one that satisfies the invariant too. -/
theorem Local.update (hr : Local P p r) (h : ∀ q < n, Local P q (s.rank q)) :
    ∀ q < n, Local P q (Function.update s.rank p r q) :=
  (Function.forall_update_iff s.rank fun q r => q < n → Local P q r).mpr
    ⟨fun _ => hr, fun q _ => h q⟩

/-- One rank is replaced by one that the messages cannot tell from it. -/
theorem Rank.Same.update (h : (s.rank p).Same P p r) (q : ℕ) :
    (s.rank q).Same P q (Function.update s.rank p r q) :=
  (Function.forall_update_iff s.rank fun q r => (s.rank q).Same P q r).mpr
    ⟨h, fun q _ => .refl q _⟩ q

end Update

/-! ### The messages -/

section Messages

variable (P) (s : State R α)

/-- Rank `p` has issued the message of stage `i` for `q` under `κ`. -/
def Issued (i p q : ℕ) (κ : RecvKey) : Prop :=
  ∃ m k j sd, P.IsSend i p m k j sd ∧ sd.dst = q ∧ sd.key = κ ∧ (s.rank p).Started i m k

/-- Rank `q` has taken the message of stage `i` under `κ`. -/
def Taken (i q : ℕ) (κ : RecvKey) : Prop :=
  ∃ m k t, P.IsRecv i q m k κ t ∧ (s.rank q).node.done (i, m, k) = true

/-- A message of stage `i` is on its channel. -/
def OnChannel (i p q : ℕ) (κ : RecvKey) : Prop :=
  ∃ msg ∈ s.chan p q, msg.key = κ ∧ msg.payload.origin = i

/-- A message of stage `i` is the early one of its key. -/
def IsEarly (i q : ℕ) (κ : RecvKey) : Prop :=
  ∃ msg, (s.rank q).node.router.slots κ = some (.early msg) ∧ msg.origin = i

/-- Where the messages are: each one that has been issued is on its channel, kept by the router,
or has been taken. -/
structure Messages : Prop where
  chan_issued : ∀ i p q κ, OnChannel s i p q κ → Issued P s i p q κ
  chan_not_taken : ∀ i p q κ, OnChannel s i p q κ → ¬Taken P s i q κ
  /-- Under one key the messages of a channel come in the order of their stages. -/
  sorted : ∀ p q, (s.chan p q).Pairwise fun a b =>
    a.key = b.key → a.payload.origin < b.payload.origin
  early_issued : ∀ i q κ, IsEarly s i q κ → ∃ p, Issued P s i p q κ
  early_not_taken : ∀ i q κ, IsEarly s i q κ → ¬Taken P s i q κ
  /-- And after the early one. -/
  early_first : ∀ i i' p q κ, IsEarly s i q κ → OnChannel s i' p q κ → i < i'
  /-- A pending slot is that of a receive which has been started and is not done. -/
  pending : ∀ q κ pr, (s.rank q).node.router.slots κ = some (.pending pr) →
    ∃ i m k, P.IsRecv i q m k κ pr.target ∧ pr.done = (i, m, k) ∧ (s.rank q).Started i m k ∧
      (s.rank q).node.done (i, m, k) = false
  /-- A receive which has been started and is not done has its slot. -/
  posted : ∀ i q m k κ t, P.IsRecv i q m k κ t → (s.rank q).Started i m k →
    (s.rank q).node.done (i, m, k) = false →
      ∃ w, (s.rank q).node.router.slots κ = some (.pending ⟨t, (i, m, k), w⟩)
  /-- No message that has been issued is lost. -/
  kept : ∀ i p q κ, Issued P s i p q κ → OnChannel s i p q κ ∨ IsEarly s i q κ ∨ Taken P s i q κ
  taken_issued : ∀ i q κ, Taken P s i q κ → ∃ p, Issued P s i p q κ
  /-- **A receive gets the message of its own stage.** -/
  got : ∀ i q m k κ t, P.IsRecv i q m k κ t → (s.rank q).node.done (i, m, k) = true →
    (s.rank q).node.got (i, m, k) = some i

/-- **The receives that wait** are those with a pending slot. -/
structure Posts : Prop where
  pending : ∀ q κ pr, (s.rank q).node.router.slots κ = some (.pending pr) →
    ∃ i m k, P.IsRecv i q m k κ pr.target ∧ pr.done = (i, m, k) ∧ (s.rank q).Started i m k ∧
      (s.rank q).node.done (i, m, k) = false
  posted : ∀ i q m k κ t, P.IsRecv i q m k κ t → (s.rank q).Started i m k →
    (s.rank q).node.done (i, m, k) = false →
      ∃ w, (s.rank q).node.router.slots κ = some (.pending ⟨t, (i, m, k), w⟩)

/-- The invariant of a run of matched programs. -/
structure Inv : Prop where
  ranks : ∀ p < n, Local P p (s.rank p)
  messages : Messages P s

/-- **No message is delivered onto an early one.** -/
def InTime (s : State R α) : Event → Prop
  | .deliver p q => ∀ msg ∈ (s.chan p q).head?, ∀ i, ¬IsEarly s i q msg.key
  | _ => True

instance (s : State R α) (q : ℕ) (κ : RecvKey) : Decidable (∀ i, ¬IsEarly s i q κ) :=
  match hslot : (s.rank q).node.router.slots κ with
  | some (.early m) => isFalse fun h => h m.origin ⟨m, hslot, rfl⟩
  | some (.pending r) => isTrue fun _ h => by
    obtain ⟨m, hearly, -⟩ := h
    cases hslot.symm.trans hearly
  | none => isTrue fun _ h => by
    obtain ⟨m, hearly, -⟩ := h
    cases hslot.symm.trans hearly

/-- In a run this can be computed. -/
instance decidableInTime (s : State R α) : ∀ e, Decidable (InTime s e)
  | .deliver p q => inferInstanceAs (Decidable (∀ msg ∈ (s.chan p q).head?, _))
  | .launch _ | .poll .. | .sent .. | .advance _ => isTrue trivial

end Messages

section MessageRules

variable {s s' : State R α} {time : ℕ → ℕ → ℕ → ℕ → ℕ}

theorem Messages.posts (h : Messages P s) : Posts P s := ⟨h.pending, h.posted⟩

/-- The receive of an await point has one key. -/
theorem Layout.IsRecv.key_eq {i q m k : ℕ} {κ κ' : RecvKey} {t t' : Slice R}
    (h : P.IsRecv i q m k κ t) (h' : P.IsRecv i q m k κ' t') : κ = κ' := by
  have := h.2.symm.trans h'.2
  simp only [Option.some.injEq, Prod.mk.injEq] at this
  exact this.1

/-- A step that the receives that wait cannot see. -/
theorem Posts.same (h : Posts P s)
    (hslots : ∀ q κ pr, (s'.rank q).node.router.slots κ = some (.pending pr) ↔
      (s.rank q).node.router.slots κ = some (.pending pr))
    (hdone : ∀ q, (s'.rank q).node.done = (s.rank q).node.done)
    (hstarted : ∀ q i m k, P.At i q m k →
      ((s'.rank q).Started i m k ↔ (s.rank q).Started i m k)) : Posts P s' := by
  refine ⟨fun q κ pr hpr => ?_, fun i q m k κ t hrecv hst hd => ?_⟩
  · obtain ⟨i, m, k, hrecv, hd, hst, hnot⟩ := h.pending q κ pr ((hslots q κ pr).mp hpr)
    exact ⟨i, m, k, hrecv, hd, (hstarted q i m k hrecv.1).mpr hst, by rw [hdone, hnot]⟩
  · rw [hdone] at hd
    obtain ⟨w, hw⟩ := h.posted i q m k κ t hrecv ((hstarted q i m k hrecv.1).mp hst) hd
    exact ⟨w, (hslots q κ _).mpr hw⟩

/-- **A receive is given a message**, which leaves its slot empty. -/
theorem Posts.fill (h : Posts P s) {i q m k : ℕ} {κ : RecvKey} {t : Slice R}
    (hrecv : P.IsRecv i q m k κ t)
    (hdone : ∀ r a, (s'.rank r).node.done a = true ↔
      (s.rank r).node.done a = true ∨ r = q ∧ a = (i, m, k))
    (hslots : ∀ r κ', ¬(r = q ∧ κ' = κ) →
      (s'.rank r).node.router.slots κ' = (s.rank r).node.router.slots κ')
    (hslot : (s'.rank q).node.router.slots κ = none)
    (howner : ∀ pr, (s.rank q).node.router.slots κ = some (.pending pr) → pr.done = (i, m, k))
    (hstarted : ∀ r j m' k', (s.rank r).Started j m' k' → (s'.rank r).Started j m' k')
    (hstarted' : ∀ r j m' k', (s'.rank r).Started j m' k' →
      (s.rank r).Started j m' k' ∨ r = q ∧ (j, m', k') = (i, m, k)) : Posts P s' := by
  refine ⟨fun r κ' pr hpr => ?_, fun j r m' k' κ' t' hrecv' hst hd => ?_⟩
  · have hne : ¬(r = q ∧ κ' = κ) := by
      rintro ⟨rfl, rfl⟩
      cases hslot.symm.trans hpr
    obtain ⟨j, m', k', hrecv', hd, hst, hnot⟩ :=
      h.pending r κ' pr ((hslots r κ' hne).symm.trans hpr)
    refine ⟨j, m', k', hrecv', hd, hstarted r j m' k' hst, ?_⟩
    by_contra hd'
    rcases (hdone r _).mp (Bool.eq_true_of_not_eq_false hd') with hd' | ⟨rfl, ha⟩
    · rw [hnot] at hd'
      cases hd'
    · simp only [Prod.mk.injEq] at ha
      obtain ⟨rfl, rfl, rfl⟩ := ha
      exact hne ⟨rfl, hrecv'.key_eq hrecv⟩
  · have hd' : ¬((s.rank r).node.done (j, m', k') = true ∨ r = q ∧ (j, m', k') = (i, m, k)) := by
      rw [← hdone, hd]
      exact Bool.false_ne_true
    have hst' := (hstarted' r j m' k' hst).resolve_right fun heq => hd' (.inr heq)
    obtain ⟨w, hw⟩ := h.posted j r m' k' κ' t' hrecv' hst'
      (Bool.eq_false_of_not_eq_true fun hdone => hd' (.inl hdone))
    refine ⟨w, (hslots r κ' ?_).trans hw⟩
    -- a pending slot that is emptied is that of the receive itself
    rintro ⟨rfl, rfl⟩
    exact hd' (.inr ⟨rfl, howner _ hw⟩)

/-- A step that the messages cannot see. -/
theorem Messages.congr (h : Messages P s) (hrank : ∀ p, (s.rank p).Same P p (s'.rank p))
    (hchan : s'.chan = s.chan) : Messages P s' := by
  have hissued : ∀ i p q κ, Issued P s' i p q κ ↔ Issued P s i p q κ := by
    intro i p q κ
    constructor
    · rintro ⟨m, k, j, sd, hsd, hd, hk, hst⟩
      exact ⟨m, k, j, sd, hsd, hd, hk, ((hrank p).started i m k hsd.1).mp hst⟩
    · rintro ⟨m, k, j, sd, hsd, hd, hk, hst⟩
      exact ⟨m, k, j, sd, hsd, hd, hk, ((hrank p).started i m k hsd.1).mpr hst⟩
  have htaken : ∀ i q κ, Taken P s' i q κ ↔ Taken P s i q κ := by
    intro i q κ
    simp only [Taken, (hrank q).done]
  have honchan : ∀ i p q κ, OnChannel s' i p q κ ↔ OnChannel s i p q κ := by
    intro i p q κ
    simp only [OnChannel, hchan]
  have hearly : ∀ i q κ, IsEarly s' i q κ ↔ IsEarly s i q κ := by
    intro i q κ
    simp only [IsEarly, (hrank q).router]
  have hposts : Posts P s' := h.posts.same (fun q κ pr => by rw [(hrank q).router])
    (fun q => (hrank q).done) fun q => (hrank q).started
  refine ⟨?_, ?_, ?_, ?_, ?_, ?_, hposts.pending, hposts.posted, ?_, ?_, ?_⟩
  · intro i p q κ
    rw [honchan, hissued]
    exact h.chan_issued i p q κ
  · intro i p q κ
    rw [honchan, htaken]
    exact h.chan_not_taken i p q κ
  · rw [hchan]
    exact h.sorted
  · intro i q κ
    simp only [hearly, hissued]
    exact h.early_issued i q κ
  · intro i q κ
    rw [hearly, htaken]
    exact h.early_not_taken i q κ
  · intro i i' p q κ
    rw [hearly, honchan]
    exact h.early_first i i' p q κ
  · intro i p q κ
    rw [hissued, honchan, hearly, htaken]
    exact h.kept i p q κ
  · intro i q κ
    simp only [htaken, hissued]
    exact h.taken_issued i q κ
  · intro i q m k κ t hrecv
    rw [(hrank q).done, (hrank q).got]
    exact h.got i q m k κ t hrecv

/-- **Stages do not mix.** The first message under the key of a receive that is due
or pending is the one of the stage of the receive: that of an earlier stage has
been taken, and that of a later stage comes after. -/
theorem Inv.origin_eq (h : Inv P s) (hM : P.Matched time) {i i' p q m k : ℕ} {κ : RecvKey}
    {t : Slice R} (hissued : Issued P s i p q κ) (hnot : ¬Taken P s i q κ)
    (hrecv : P.IsRecv i' q m k κ t) (hpast : ∀ j < i', ∀ m' k', (s.rank q).Passed j m' k')
    (hdone : (s.rank q).node.done (i', m, k) = false)
    (hfirst : ∀ j, OnChannel s j p q κ ∨ IsEarly s j q κ → i ≤ j) : i = i' := by
  obtain ⟨ms, ks, js, sd, hsend, hdst, hkey, hstarted⟩ := hissued
  rcases Nat.lt_trichotomy i i' with hlt | heq | hgt
  · -- an earlier stage: its receive has been left
    obtain ⟨k', t', hrecv'⟩ := hM.receiver hsend
    rw [hdst, hkey] at hrecv'
    exact absurd ⟨ms, k', t', hrecv', (h.ranks q hrecv.1.rank).taken _ _ _ _ _ hrecv'
      (hpast i hlt ms k')⟩ hnot
  · exact heq
  · -- a later stage: the message of the receive was issued before it
    obtain ⟨p', k', j', sd', hsend', hdst', hkey', -⟩ := hM.sender hrecv
    obtain rfl := hM.same_sender hsend' hsend (hdst'.trans hdst.symm) (hkey'.trans hkey.symm)
    have hissued' : Issued P s i' p' q κ := ⟨m, k', j', sd', hsend', hdst', hkey',
      (hstarted.passed_of_stage_lt hgt m k').started⟩
    rcases h.messages.kept i' p' q κ hissued' with hc | hc | ⟨m', k'', t', hrecv', hd⟩
    · exact absurd (hfirst i' (.inl hc)) (Nat.not_le.mpr hgt)
    · exact absurd (hfirst i' (.inr hc)) (Nat.not_le.mpr hgt)
    · obtain ⟨rfl, rfl⟩ := hM.recv_unique hrecv' hrecv
      rw [hd] at hdone
      cases hdone

/-! ### A receive that completes -/

section Completes

variable {q i m k : ℕ} {κ : RecvKey}

/-- Between the two states the receive at await point `(i, m, k)` of rank `q` is given
the message of its stage, which leaves its slot empty. Nothing else happens to the
receives. -/
structure Completes (s s' : State R α) (q : ℕ) (κ : RecvKey) (i m k : ℕ) : Prop where
  done : ∀ r a, (s'.rank r).node.done a = true ↔
    (s.rank r).node.done a = true ∨ r = q ∧ a = (i, m, k)
  got : ∀ r a, ¬(r = q ∧ a = (i, m, k)) → (s'.rank r).node.got a = (s.rank r).node.got a
  got_self : (s'.rank q).node.got (i, m, k) = some i
  slots : ∀ r κ', ¬(r = q ∧ κ' = κ) →
    (s'.rank r).node.router.slots κ' = (s.rank r).node.router.slots κ'
  slot : (s'.rank q).node.router.slots κ = none

/-- What a message does to the flags and the slots, when the receive of a rank is given
it. -/
theorem filled_of_node {node : Node R Name ℕ α ℕ} (hself : (s'.rank q).node = node)
    (hne : ∀ r, r ≠ q → (s'.rank r).node = (s.rank r).node)
    (hrouter : node.router = (s.rank q).node.router.remove κ)
    (hdone : node.done = Function.update (s.rank q).node.done (i, m, k) true) :
    (∀ r a, (s'.rank r).node.done a = true ↔
        (s.rank r).node.done a = true ∨ r = q ∧ a = (i, m, k)) ∧
      (∀ r κ', ¬(r = q ∧ κ' = κ) →
        (s'.rank r).node.router.slots κ' = (s.rank r).node.router.slots κ') ∧
      (s'.rank q).node.router.slots κ = none := by
  refine ⟨fun r a => ?_, fun r κ' hκ => ?_, ?_⟩
  · rcases eq_or_ne r q with rfl | hr
    · rw [hself, hdone, Function.update_apply]
      by_cases ha : a = (i, m, k)
      · rw [if_pos ha]
        exact iff_of_true rfl (.inr ⟨rfl, ha⟩)
      · rw [if_neg ha]
        exact ⟨.inl, fun hc => hc.resolve_right fun hc => ha hc.2⟩
    · rw [hne r hr]
      exact ⟨.inl, fun hc => hc.resolve_right fun hc => hr hc.1⟩
  · rcases eq_or_ne r q with rfl | hr
    · rw [hself, hrouter]
      exact AmRouter.remove_slots_of_ne _ fun hc => hκ ⟨rfl, hc⟩
    · rw [hne r hr]
  · rw [hself, hrouter]
    exact AmRouter.remove_slots_self ..

/-- It is a matter of one node. -/
theorem completes_of_node {node : Node R Name ℕ α ℕ} (hself : (s'.rank q).node = node)
    (hne : ∀ r, r ≠ q → (s'.rank r).node = (s.rank r).node)
    (hrouter : node.router = (s.rank q).node.router.remove κ)
    (hdone : node.done = Function.update (s.rank q).node.done (i, m, k) true)
    (hgot : node.got = Function.update (s.rank q).node.got (i, m, k) (some i)) :
    Completes s s' q κ i m k := by
  obtain ⟨hdone', hslots, hslot⟩ := filled_of_node hself hne hrouter hdone
  refine ⟨hdone', fun r a ha => ?_, ?_, hslots, hslot⟩
  · rcases eq_or_ne r q with rfl | hr
    · rw [hself, hgot, Function.update_of_ne fun hc => ha ⟨rfl, hc⟩]
    · rw [hne r hr]
  · rw [hself, hgot, Function.update_self]

/-- The slots that are left were there. -/
theorem Completes.slots_of_some (hc : Completes s s' q κ i m k) {r : ℕ} {κ' : RecvKey}
    {sl : Slot R Name ℕ α ℕ} (hsl : (s'.rank r).node.router.slots κ' = some sl) :
    ¬(r = q ∧ κ' = κ) ∧ (s.rank r).node.router.slots κ' = some sl := by
  have hne : ¬(r = q ∧ κ' = κ) := by
    rintro ⟨rfl, rfl⟩
    cases hc.slot.symm.trans hsl
  exact ⟨hne, (hc.slots r κ' hne).symm.trans hsl⟩

theorem Completes.isEarly (hc : Completes s s' q κ i m k) {j r : ℕ} {κ' : RecvKey} :
    IsEarly s' j r κ' ↔ IsEarly s j r κ' ∧ ¬(r = q ∧ κ' = κ) := by
  constructor
  · rintro ⟨e, he, ho⟩
    obtain ⟨hne, he⟩ := hc.slots_of_some he
    exact ⟨⟨e, he, ho⟩, hne⟩
  · rintro ⟨⟨e, he, ho⟩, hne⟩
    exact ⟨e, (hc.slots r κ' hne).trans he, ho⟩

/-- **One more message is taken.** -/
theorem Completes.taken (hc : Completes s s' q κ i m k) {t : Slice R}
    (hrecv : P.IsRecv i q m k κ t) {j r : ℕ} {κ' : RecvKey} :
    Taken P s' j r κ' ↔ Taken P s j r κ' ∨ r = q ∧ κ' = κ ∧ j = i := by
  constructor
  · rintro ⟨m', k', t', hrecv', hd⟩
    rcases (hc.done _ _).mp hd with hd | ⟨rfl, ha⟩
    · exact .inl ⟨m', k', t', hrecv', hd⟩
    · simp only [Prod.mk.injEq] at ha
      obtain ⟨rfl, rfl, rfl⟩ := ha
      exact .inr ⟨rfl, hrecv'.key_eq hrecv, rfl⟩
  · rintro (⟨m', k', t', hrecv', hd⟩ | ⟨rfl, rfl, rfl⟩)
    · exact ⟨m', k', t', hrecv', (hc.done _ _).mpr (.inl hd)⟩
    · exact ⟨m, k, t, hrecv, (hc.done _ _).mpr (.inr ⟨rfl, rfl⟩)⟩

theorem Completes.got_eq (hc : Completes s s' q κ i m k) (hm : Messages P s) {j r m' k' : ℕ}
    {κ' : RecvKey} {t : Slice R} (hrecv : P.IsRecv j r m' k' κ' t)
    (hd : (s'.rank r).node.done (j, m', k') = true) :
    (s'.rank r).node.got (j, m', k') = some j := by
  by_cases heq : r = q ∧ (j, m', k') = (i, m, k)
  · obtain ⟨rfl, ha⟩ := heq
    simp only [Prod.mk.injEq] at ha
    obtain ⟨rfl, rfl, rfl⟩ := ha
    exact hc.got_self
  · rw [hc.got r _ heq]
    exact hm.got j r m' k' κ' t hrecv (((hc.done r _).mp hd).resolve_right heq)

end Completes

/-! ### A delivery -/

section Deliver

variable {p q : ℕ} {msg : Message α} {rest : List (Message α)}

/-- The channels once their first message has been taken off one of them. -/
def popChan (s : State R α) (p q : ℕ) (rest : List (Message α)) : ℕ → ℕ → List (Message α) :=
  fun p' q' => if p' = p ∧ q' = q then rest else s.chan p' q'

/-- What is left on the channels was there, and comes later than what was taken
off. -/
theorem Messages.of_popChan (h : Messages P s) (hchan : s.chan p q = msg :: rest)
    (hchan' : s'.chan = popChan s p q rest) {i p' q' : ℕ} {κ : RecvKey}
    (hon : OnChannel s' i p' q' κ) : OnChannel s i p' q' κ ∧
      (p' = p → q' = q → κ = msg.key → msg.payload.origin < i) := by
  obtain ⟨msg', hmem, hkey, horigin⟩ := hon
  rw [hchan', popChan] at hmem
  split at hmem
  · next hpq =>
    obtain ⟨rfl, rfl⟩ := hpq
    refine ⟨⟨msg', by rw [hchan]; exact List.mem_cons_of_mem _ hmem, hkey, horigin⟩, ?_⟩
    intro _ _ hκ
    have hsorted := h.sorted p' q'
    rw [hchan] at hsorted
    rw [← horigin]
    exact (List.pairwise_cons.mp hsorted).1 msg' hmem (hκ.symm.trans hkey.symm)
  · next hpq =>
    exact ⟨⟨msg', hmem, hkey, horigin⟩, fun hp hq => absurd ⟨hp, hq⟩ hpq⟩

/-- What was there is left, but for what was taken off. -/
theorem onChannel_popChan (hchan : s.chan p q = msg :: rest)
    (hchan' : s'.chan = popChan s p q rest) {i p' q' : ℕ} {κ : RecvKey}
    (hon : OnChannel s i p' q' κ) : OnChannel s' i p' q' κ ∨
      p' = p ∧ q' = q ∧ κ = msg.key ∧ i = msg.payload.origin := by
  obtain ⟨msg', hmem, hkey, horigin⟩ := hon
  by_cases hpq : p' = p ∧ q' = q
  · obtain ⟨rfl, rfl⟩ := hpq
    rw [hchan] at hmem
    rcases List.mem_cons.mp hmem with rfl | hmem
    · exact .inr ⟨rfl, rfl, hkey.symm, horigin.symm⟩
    · refine .inl ⟨msg', ?_, hkey, horigin⟩
      rw [hchan', popChan, if_pos ⟨rfl, rfl⟩]
      exact hmem
  · refine .inl ⟨msg', ?_, hkey, horigin⟩
    rw [hchan', popChan, if_neg hpq]
    exact hmem

/-- What is left is still sorted. -/
theorem Messages.sorted_popChan (h : Messages P s) (hchan : s.chan p q = msg :: rest)
    (hchan' : s'.chan = popChan s p q rest) (p' q' : ℕ) : (s'.chan p' q').Pairwise fun a b =>
      a.key = b.key → a.payload.origin < b.payload.origin := by
  rw [hchan', popChan]
  split
  · have := h.sorted p q
    rw [hchan] at this
    exact (List.pairwise_cons.mp this).2
  · exact h.sorted p' q'

/-- The message that is taken off was there. -/
theorem onChannel_head (hchan : s.chan p q = msg :: rest) :
    OnChannel s msg.payload.origin p q msg.key :=
  ⟨msg, by rw [hchan]; exact List.mem_cons_self, rfl, rfl⟩

/-- A message that is issued for a rank under a key is issued by one rank. -/
theorem Issued.sender_eq (hM : P.Matched time) {i i' p p' q : ℕ} {κ : RecvKey}
    (h : Issued P s i p q κ) (h' : Issued P s i' p' q κ) : p = p' := by
  obtain ⟨m, k, j, sd, hsend, hd, hk, -⟩ := h
  obtain ⟨m', k', j', sd', hsend', hd', hk', -⟩ := h'
  exact hM.same_sender hsend hsend' (hd.trans hd'.symm) (hk.trans hk'.symm)

/-- A message that is issued is of one of the stages. -/
theorem Issued.stage_lt {i p q : ℕ} {κ : RecvKey} (h : Issued P s i p q κ) : i < P.stages := by
  obtain ⟨m, k, j, sd, hsend, -⟩ := h
  exact hsend.1.stage

/-- The ranks' programs are where they were. -/
theorem issued_congr (hstarted : ∀ p i m k, (s'.rank p).Started i m k ↔ (s.rank p).Started i m k)
    {i p q : ℕ} {κ : RecvKey} : Issued P s' i p q κ ↔ Issued P s i p q κ := by
  simp only [Issued, hstarted]

/-- A rank whose node alone is replaced is where it was. -/
theorem started_of_node {node : Node R Name ℕ α ℕ}
    (hrank : s'.rank = Function.update s.rank q { s.rank q with node := node }) (r i m k : ℕ) :
    (s'.rank r).Started i m k ↔ (s.rank r).Started i m k := by
  rw [hrank]
  rcases eq_or_ne r q with rfl | hr
  · rw [Function.update_self]
    exact Iff.rfl
  · rw [Function.update_of_ne hr]

/-- The receives that wait after one of them is given its message. -/
theorem Posts.deliver_pending (h : Posts P s) {i m k : ℕ} {κ : RecvKey}
    {pr : PendingRecv R Name ℕ} (hslot : (s.rank q).node.router.slots κ = some (.pending pr))
    (hrecv : P.IsRecv i q m k κ pr.target) (hpr : pr.done = (i, m, k))
    {node : Node R Name ℕ α ℕ} (hrouter : node.router = (s.rank q).node.router.remove κ)
    (hdone : node.done = Function.update (s.rank q).node.done (i, m, k) true)
    (hrank : s'.rank = Function.update s.rank q { s.rank q with node := node }) : Posts P s' := by
  have hstarted := started_of_node hrank
  obtain ⟨hdone', hslots, hnone⟩ := filled_of_node 
    (by rw [hrank, Function.update_self]) (fun r hr => by rw [hrank, Function.update_of_ne hr])
    hrouter hdone
  refine h.fill hrecv hdone' hslots hnone (fun pr' hpr' => ?_)
    (fun r j m' k' => (hstarted r j m' k').mpr)
    fun r j m' k' hst' => .inl ((hstarted r j m' k').mp hst')
  cases hslot.symm.trans hpr'
  exact hpr

/-- **The messages after a delivery**, given what it does to the slots: the message
becomes the early one of its key, or it is taken. -/
theorem Inv.deliver_messages (h : Inv P s) (hM : P.Matched time)
    (hchan : s.chan p q = msg :: rest) (hchan' : s'.chan = popChan s p q rest) (early : Prop)
    (hvacant : ∀ i, ¬IsEarly s i q msg.key)
    (hissued : ∀ i p' r κ, Issued P s' i p' r κ ↔ Issued P s i p' r κ)
    (hearly : ∀ i r κ, IsEarly s' i r κ ↔
      IsEarly s i r κ ∨ early ∧ r = q ∧ κ = msg.key ∧ i = msg.payload.origin)
    (htaken : ∀ i r κ, Taken P s' i r κ ↔
      Taken P s i r κ ∨ ¬early ∧ r = q ∧ κ = msg.key ∧ i = msg.payload.origin)
    (hposts : Posts P s')
    (hgot : ∀ i r m k κ t, P.IsRecv i r m k κ t → (s'.rank r).node.done (i, m, k) = true →
      (s'.rank r).node.got (i, m, k) = some i) : Messages P s' := by
  have hm := h.messages
  have hhead := onChannel_head hchan
  -- what comes on the channel under the key comes after the message
  have hlater : ∀ {i p'}, OnChannel s' i p' q msg.key → msg.payload.origin < i := by
    intro i p' hon
    obtain ⟨hon, hlater⟩ := hm.of_popChan hchan hchan' hon
    exact hlater (Issued.sender_eq hM (hm.chan_issued _ _ _ _ hon)
      (hm.chan_issued _ _ _ _ hhead)) rfl rfl
  refine ⟨?_, ?_, hm.sorted_popChan hchan hchan', ?_, ?_, ?_, hposts.pending, hposts.posted, ?_, ?_,
    hgot⟩
  · intro i p' r κ hon
    exact (hissued i p' r κ).mpr (hm.chan_issued i p' r κ (hm.of_popChan hchan hchan' hon).1)
  · intro i p' r κ hon ht
    rcases (htaken i r κ).mp ht with ht | ⟨-, rfl, rfl, rfl⟩
    · exact hm.chan_not_taken i p' r κ (hm.of_popChan hchan hchan' hon).1 ht
    · exact absurd (hlater hon) (Nat.lt_irrefl _)
  · intro i r κ he
    simp only [hissued]
    rcases (hearly i r κ).mp he with he | ⟨-, rfl, rfl, rfl⟩
    · exact hm.early_issued i r κ he
    · exact ⟨p, hm.chan_issued _ _ _ _ hhead⟩
  · intro i r κ he ht
    rcases (hearly i r κ).mp he with he | ⟨hkind, rfl, rfl, rfl⟩ <;>
      rcases (htaken _ _ _).mp ht with ht | ⟨hnot, hr, hκ, -⟩
    · exact hm.early_not_taken i r κ he ht
    · exact hvacant i (hr ▸ hκ ▸ he)
    · exact hm.chan_not_taken _ _ _ _ hhead ht
    · exact hnot hkind
  · intro i i' p' r κ he hon
    rcases (hearly i r κ).mp he with he | ⟨-, rfl, rfl, rfl⟩
    · exact hm.early_first i i' p' r κ he (hm.of_popChan hchan hchan' hon).1
    · exact hlater hon
  · intro i p' r κ hiss
    rcases hm.kept i p' r κ ((hissued i p' r κ).mp hiss) with hon | he | ht
    · rcases onChannel_popChan hchan hchan' hon with hon | ⟨-, rfl, rfl, rfl⟩
      · exact .inl hon
      · -- the message itself
        by_cases hkind : early
        · exact .inr (.inl ((hearly _ _ _).mpr (.inr ⟨hkind, rfl, rfl, rfl⟩)))
        · exact .inr (.inr ((htaken _ _ _).mpr (.inr ⟨hkind, rfl, rfl, rfl⟩)))
    · exact .inr (.inl ((hearly i r κ).mpr (.inl he)))
    · exact .inr (.inr ((htaken i r κ).mpr (.inl ht)))
  · intro i r κ ht
    simp only [hissued]
    rcases (htaken i r κ).mp ht with ht | ⟨-, rfl, rfl, rfl⟩
    · exact hm.taken_issued i r κ ht
    · exact ⟨p, hm.chan_issued _ _ _ _ hhead⟩

/-- **A message nobody waits for** becomes the early one. -/
theorem Inv.deliver_vacant (h : Inv P s) (hM : P.Matched time)
    (hchan : s.chan p q = msg :: rest) (hslot : (s.rank q).node.router.slots msg.key = none)
    (hrank : s'.rank = Function.update s.rank q { s.rank q with
      node := { (s.rank q).node with
        router := (s.rank q).node.router.insert msg.key (.early msg.payload) } })
    (hchan' : s'.chan = popChan s p q rest) : Messages P s' := by
  have hm := h.messages
  have hstarted := started_of_node hrank
  have hself : (s'.rank q).node = { (s.rank q).node with
      router := (s.rank q).node.router.insert msg.key (.early msg.payload) } := by
    rw [hrank, Function.update_self]
  have hne : ∀ r, r ≠ q → s'.rank r = s.rank r := fun r hr => by
    rw [hrank, Function.update_of_ne hr]
  have hdone : ∀ r, (s'.rank r).node.done = (s.rank r).node.done ∧
      (s'.rank r).node.got = (s.rank r).node.got := by
    intro r
    rcases eq_or_ne r q with rfl | hr
    · rw [hself]
      exact ⟨rfl, rfl⟩
    · rw [hne r hr]
      exact ⟨rfl, rfl⟩
  -- the slots: one more early message
  have hslot' : (s'.rank q).node.router.slots msg.key = some (.early msg.payload) := by
    rw [hself]
    exact AmRouter.insert_slots_self ..
  have hslots : ∀ r κ, ¬(r = q ∧ κ = msg.key) →
      (s'.rank r).node.router.slots κ = (s.rank r).node.router.slots κ := by
    intro r κ hκ
    rcases eq_or_ne r q with rfl | hr
    · rw [hself]
      exact AmRouter.insert_slots_of_ne _ _ fun hc => hκ ⟨rfl, hc⟩
    · rw [hne r hr]
  have hkept : ∀ {r κ sl}, (s.rank r).node.router.slots κ = some sl →
      (s'.rank r).node.router.slots κ = some sl := by
    intro r κ sl hsl
    refine (hslots r κ ?_).trans hsl
    rintro ⟨rfl, rfl⟩
    cases hslot.symm.trans hsl
  refine h.deliver_messages hM hchan hchan' True ?_ (fun _ _ _ _ => issued_congr hstarted)
    (fun i r κ => ⟨?_, ?_⟩) ?_ ?_ ?_
  · rintro i ⟨e, he, -⟩
    cases hslot.symm.trans he
  · rintro ⟨e, he, ho⟩
    by_cases hκ : r = q ∧ κ = msg.key
    · obtain ⟨rfl, rfl⟩ := hκ
      cases hslot'.symm.trans he
      exact .inr ⟨trivial, rfl, rfl, ho.symm⟩
    · exact .inl ⟨e, (hslots r κ hκ).symm.trans he, ho⟩
  · rintro (⟨e, he, ho⟩ | ⟨-, rfl, rfl, rfl⟩)
    · exact ⟨e, hkept he, ho⟩
    · exact ⟨msg.payload, hslot', rfl⟩
  · intro i r κ
    rw [not_true_eq_false, false_and, or_false, Taken, (hdone r).1]
    rfl
  · refine hm.posts.same (fun r κ pr => ⟨fun hpr => ?_, hkept⟩) (fun r => (hdone r).1)
      fun r i m k _ => hstarted r i m k
    refine (hslots r κ ?_).symm.trans hpr
    rintro ⟨rfl, rfl⟩
    cases hslot'.symm.trans hpr
  · intro i r m k κ t hrecv hd
    rw [(hdone r).1] at hd
    rw [(hdone r).2]
    exact hm.got i r m k κ t hrecv hd

/-- The message that is delivered to a pending receive is the one of its stage. -/
theorem Inv.origin_of_pending (h : Inv P s) (hM : P.Matched time)
    (hchan : s.chan p q = msg :: rest) {i m k : ℕ} {κ : RecvKey} {t : Slice R}
    (hrecv : P.IsRecv i q m k κ t) (hkey : msg.key = κ) (hst : (s.rank q).Started i m k)
    (hd : (s.rank q).node.done (i, m, k) = false)
    (hslot : ∀ e, (s.rank q).node.router.slots κ ≠ some (.early e)) : msg.payload.origin = i := by
  subst hkey
  have hhead := onChannel_head hchan
  refine h.origin_eq hM (h.messages.chan_issued _ _ _ _ hhead)
    (h.messages.chan_not_taken _ _ _ _ hhead) hrecv
    (fun j hj m' k' => hst.passed_of_stage_lt hj m' k') hd ?_
  rintro j (⟨msg', hmem, hkey', rfl⟩ | ⟨e, he, -⟩)
  · rw [hchan] at hmem
    rcases List.mem_cons.mp hmem with rfl | hmem
    · exact Nat.le_refl _
    · have hsorted := h.messages.sorted p q
      rw [hchan] at hsorted
      exact ((List.pairwise_cons.mp hsorted).1 msg' hmem hkey'.symm).le
  · exact absurd he (hslot e)

/-- **A message that is waited for** completes the receive of its stage. -/
theorem Inv.deliver_pending (h : Inv P s) (hM : P.Matched time)
    (hchan : s.chan p q = msg :: rest) {pr : PendingRecv R Name ℕ} {i m k : ℕ}
    (hslot : (s.rank q).node.router.slots msg.key = some (.pending pr))
    (hrecv : P.IsRecv i q m k msg.key pr.target) (hpr : pr.done = (i, m, k))
    (hst : (s.rank q).Started i m k) (hd : (s.rank q).node.done (i, m, k) = false)
    {node : Node R Name ℕ α ℕ} (hrouter : node.router = (s.rank q).node.router.remove msg.key)
    (hdone : node.done = Function.update (s.rank q).node.done (i, m, k) true)
    (hgot : node.got = Function.update (s.rank q).node.got (i, m, k) (some msg.payload.origin))
    (hrank : s'.rank = Function.update s.rank q { s.rank q with node := node })
    (hchan' : s'.chan = popChan s p q rest) : Messages P s' := by
  have hm := h.messages
  have hstarted := started_of_node hrank
  have hvacant : ∀ e, (s.rank q).node.router.slots msg.key ≠ some (.early e) :=
    fun e he => by cases hslot.symm.trans he
  have horigin : msg.payload.origin = i :=
    h.origin_of_pending hM hchan hrecv rfl hst hd hvacant
  have hc : Completes s s' q msg.key i m k := by
    refine completes_of_node ?_ (fun r hr => ?_) hrouter hdone (horigin ▸ hgot)
    · rw [hrank, Function.update_self]
    · rw [hrank, Function.update_of_ne hr]
  refine h.deliver_messages hM hchan hchan' False ?_ (fun _ _ _ _ => issued_congr hstarted)
    (fun j r κ => ?_) (fun j r κ => ?_) ?_ ?_
  · rintro j ⟨e, he, -⟩
    exact hvacant e he
  · rw [false_and, or_false, hc.isEarly]
    refine and_iff_left_of_imp ?_
    rintro ⟨e, he, -⟩ ⟨rfl, rfl⟩
    exact hvacant e he
  · rw [hc.taken hrecv, not_false_eq_true, true_and, horigin]
  · exact hm.posts.deliver_pending hslot hrecv hpr hrouter hdone hrank
  · exact fun j r m' k' κ t => hc.got_eq hm

end Deliver

/-! ### A first poll -/

section Issue

variable {p m : ℕ}

/-- The await point chain `m` of rank `p` is at sends a message for `q` under `κ`. -/
def Sends (P : Layout n prog) (s : State R α) (p m q : ℕ) (κ : RecvKey) : Prop :=
  ∃ j sd, P.IsSend (s.rank p).stage p m ((s.rank p).chain m).pc j sd ∧ sd.dst = q ∧ sd.key = κ

/-- A rank has issued nothing of the stages it has not come to. -/
theorem Issued.stage_le {i p q : ℕ} {κ : RecvKey} (h : Issued P s i p q κ) :
    i ≤ (s.rank p).stage := by
  obtain ⟨m, k, j, sd, -, -, -, hi | ⟨rfl, -⟩⟩ := h
  · exact hi.le
  · exact Nat.le_refl _

/-- **The early message that a first poll finds** is the one of its stage. -/
theorem Inv.early_origin (h : Inv P s) (hM : P.Matched time) {κ : RecvKey} {t : Slice R}
    (hrecv : P.IsRecv (s.rank p).stage p m ((s.rank p).chain m).pc κ t)
    (hawait : ((s.rank p).chain m).await = none) {e : Payload α ℕ}
    (hslot : (s.rank p).node.router.slots κ = some (.early e)) :
    e.origin = (s.rank p).stage := by
  have hearly : IsEarly s e.origin p κ := ⟨e, hslot, rfl⟩
  obtain ⟨p', hiss⟩ := h.messages.early_issued _ _ _ hearly
  refine h.origin_eq hM hiss (h.messages.early_not_taken _ _ _ hearly) hrecv
    (fun j hj _ _ => .inl hj) ((h.ranks p hrecv.1.rank).done_eq_false hawait) ?_
  rintro j (hon | ⟨e', he', ho⟩)
  · exact (h.messages.early_first _ _ _ _ _ hearly hon).le
  · cases hslot.symm.trans he'
    exact ho.le

/-- What an await point sends has not been issued before it is polled. -/
theorem Sends.not_issued (hM : P.Matched time) (hawait : ((s.rank p).chain m).await = none)
    {q : ℕ} {κ : RecvKey} (h : Sends P s p m q κ) : ¬Issued P s (s.rank p).stage p q κ := by
  rintro ⟨m', k', j', sd', hsend', hd', hk', hst⟩
  obtain ⟨j, sd, hsend, hd, hk⟩ := h
  obtain ⟨-, rfl, rfl, -⟩ := hM.send_unique hsend' hsend (hd'.trans hd.symm) (hk'.trans hk.symm)
  rcases hst with hst | ⟨-, hst | ⟨-, hst⟩⟩
  · exact absurd hst (Nat.lt_irrefl _)
  · exact absurd hst (Nat.lt_irrefl _)
  · rw [hawait] at hst
    cases hst

/-- Whoever else issues a message for that rank under that key is the same rank, and
its message is of an earlier stage. -/
theorem Sends.of_issued (hM : P.Matched time) (hawait : ((s.rank p).chain m).await = none)
    {i p' q : ℕ} {κ : RecvKey} (h : Sends P s p m q κ) (hiss : Issued P s i p' q κ) :
    p' = p ∧ i < (s.rank p).stage := by
  have hp : p' = p := by
    obtain ⟨j, sd, hsend, hd, hk⟩ := h
    obtain ⟨m', k', j', sd', hsend', hd', hk', -⟩ := hiss
    exact hM.same_sender hsend' hsend (hd'.trans hd.symm) (hk'.trans hk.symm)
  subst hp
  refine ⟨rfl, Nat.lt_of_le_of_ne hiss.stage_le ?_⟩
  rintro rfl
  exact h.not_issued hM hawait hiss

/-- **The messages after a first poll**, given what it does to the slots: it takes
the early messages of the keys `took`, and completes their receives. -/
theorem Inv.issue_messages (h : Inv P s) (hM : P.Matched time)
    (hawait : ((s.rank p).chain m).await = none) (s' : State R α) (took : RecvKey → Prop)
    (hissued : ∀ i p' q κ, Issued P s' i p' q κ ↔
      Issued P s i p' q κ ∨ p' = p ∧ i = (s.rank p).stage ∧ Sends P s p m q κ)
    (honchan : ∀ i p' q κ, OnChannel s' i p' q κ ↔
      OnChannel s i p' q κ ∨ p' = p ∧ i = (s.rank p).stage ∧ Sends P s p m q κ)
    (hsorted : ∀ p' q, (s'.chan p' q).Pairwise fun a b =>
      a.key = b.key → a.payload.origin < b.payload.origin)
    (hearly : ∀ i q κ, IsEarly s' i q κ ↔ IsEarly s i q κ ∧ ¬(q = p ∧ took κ))
    (htaken : ∀ i q κ, Taken P s' i q κ ↔
      Taken P s i q κ ∨ q = p ∧ took κ ∧ i = (s.rank p).stage)
    (htook : ∀ κ, took κ → IsEarly s (s.rank p).stage p κ)
    (hposts : Posts P s')
    (hgot : ∀ i q m k κ t, P.IsRecv i q m k κ t → (s'.rank q).node.done (i, m, k) = true →
      (s'.rank q).node.got (i, m, k) = some i) : Messages P s' := by
  have hm := h.messages
  refine ⟨?_, ?_, hsorted, ?_, ?_, ?_, hposts.pending, hposts.posted, ?_, ?_, hgot⟩
  · intro i p' q κ hon
    exact (hissued i p' q κ).mpr (((honchan i p' q κ).mp hon).imp (hm.chan_issued i p' q κ) id)
  · intro i p' q κ hon ht
    rcases (honchan i p' q κ).mp hon with hon | ⟨rfl, rfl, hsends⟩ <;>
      rcases (htaken _ q κ).mp ht with ht | ⟨rfl, htk, hi⟩
    · exact hm.chan_not_taken i p' q κ hon ht
    · -- the early message of this stage comes before those on the channel
      exact absurd (hm.early_first _ i p' q κ (htook κ htk) hon) (by omega)
    · -- a key is used once in a stage, so the new message is not one that was taken
      obtain ⟨p'', hiss⟩ := hm.taken_issued _ q κ ht
      exact absurd (hsends.of_issued hM hawait hiss).2 (Nat.lt_irrefl _)
    · obtain ⟨p'', hiss⟩ := hm.early_issued _ q κ (htook κ htk)
      exact absurd (hsends.of_issued hM hawait hiss).2 (Nat.lt_irrefl _)
  · intro i q κ he
    obtain ⟨p', hiss⟩ := hm.early_issued i q κ ((hearly i q κ).mp he).1
    exact ⟨p', (hissued i p' q κ).mpr (.inl hiss)⟩
  · intro i q κ he ht
    obtain ⟨he, hnot⟩ := (hearly i q κ).mp he
    rcases (htaken i q κ).mp ht with ht | ⟨rfl, htk, -⟩
    · exact hm.early_not_taken i q κ he ht
    · exact hnot ⟨rfl, htk⟩
  · intro i i' p' q κ he hon
    obtain ⟨he, -⟩ := (hearly i q κ).mp he
    rcases (honchan i' p' q κ).mp hon with hon | ⟨rfl, rfl, hsends⟩
    · exact hm.early_first i i' p' q κ he hon
    · obtain ⟨p'', hiss⟩ := hm.early_issued i q κ he
      exact (hsends.of_issued hM hawait hiss).2
  · intro i p' q κ hiss
    rcases (hissued i p' q κ).mp hiss with hiss | hnew
    · rcases hm.kept i p' q κ hiss with hon | he | ht
      · exact .inl ((honchan i p' q κ).mpr (.inl hon))
      · by_cases htk : q = p ∧ took κ
        · obtain ⟨rfl, htk⟩ := htk
          obtain ⟨e, hslot, ho⟩ := he
          obtain ⟨e', hslot', ho'⟩ := htook κ htk
          -- the early message that is taken is the one that was kept
          cases hslot.symm.trans hslot'
          exact .inr (.inr ((htaken i q κ).mpr (.inr ⟨rfl, htk, ho.symm.trans ho'⟩)))
        · exact .inr (.inl ((hearly i q κ).mpr ⟨he, htk⟩))
      · exact .inr (.inr ((htaken i q κ).mpr (.inl ht)))
    · exact .inl ((honchan i p' q κ).mpr (.inr hnew))
  · intro i q κ ht
    rcases (htaken i q κ).mp ht with ht | ⟨rfl, htk, rfl⟩
    · obtain ⟨p', hiss⟩ := hm.taken_issued i q κ ht
      exact ⟨p', (hissued i p' q κ).mpr (.inl hiss)⟩
    · obtain ⟨p', hiss⟩ := hm.early_issued _ q κ (htook κ htk)
      exact ⟨p', (hissued _ p' q κ).mpr (.inl hiss)⟩

/-- The messages of an await point for one rank have different keys. -/
theorem Layout.At.pairwise_sends (hM : P.Matched time) {i p m k : ℕ} (hat : P.At i p m k) (q : ℕ)
    (r : Rank R α) : (((P.instr i p m k).sends.filter fun sd => sd.dst = q).map fun sd =>
      sd.message r).Pairwise fun a b => a.key ≠ b.key := by
  rw [List.pairwise_map]
  have hall : (P.instr i p m k).sends.Pairwise fun a b => a.dst = b.dst → a.key ≠ b.key := by
    rw [List.pairwise_iff_getElem]
    intro j j' hj hj' hlt hdst hkey
    exact absurd (hM.send_unique ⟨hat, List.getElem?_eq_getElem hj⟩
      ⟨hat, List.getElem?_eq_getElem hj'⟩ hdst hkey).2.2.2 hlt.ne
  refine (hall.filter _).imp_of_mem fun {a b} ha hb hab => hab ?_
  rw [of_decide_eq_true (List.mem_filter.mp ha).2, of_decide_eq_true (List.mem_filter.mp hb).2]

variable [DecidableEq R]

/-- The channels after a first poll: what is sent comes last. -/
theorem chan_issue (i : Instr R α) (p' q : ℕ) : (s.issue p m i).chan p' q = if p' = p then
    s.chan p q ++ (i.sends.filter fun sd => sd.dst = q).map fun sd => sd.message (s.rank p)
      else s.chan p' q := rfl

/-- **The messages after a first poll.** -/
theorem onChannel_issue (hat : P.At (s.rank p).stage p m ((s.rank p).chain m).pc)
    (hchan : s'.chan = (s.issue p m (P.instr (s.rank p).stage p m ((s.rank p).chain m).pc)).chan)
    (i p' q : ℕ) (κ : RecvKey) : OnChannel s' i p' q κ ↔
      OnChannel s i p' q κ ∨ p' = p ∧ i = (s.rank p).stage ∧ Sends P s p m q κ := by
  rw [OnChannel, hchan, chan_issue]
  by_cases hp : p' = p
  · subst hp
    rw [if_pos rfl]
    constructor
    · rintro ⟨msg, hmem, hkey, rfl⟩
      rcases List.mem_append.mp hmem with hmem | hmem
      · exact .inl ⟨msg, hmem, hkey, rfl⟩
      · obtain ⟨sd, hsd, rfl⟩ := List.mem_map.mp hmem
        obtain ⟨hsd, hd⟩ := List.mem_filter.mp hsd
        obtain ⟨j, hj⟩ := List.mem_iff_getElem?.mp hsd
        exact .inr ⟨rfl, rfl, j, sd, ⟨hat, hj⟩, of_decide_eq_true hd, hkey⟩
    · rintro (⟨msg, hmem, hkey, horigin⟩ | ⟨-, rfl, j, sd, ⟨-, hj⟩, hd, hkey⟩)
      · exact ⟨msg, List.mem_append_left _ hmem, hkey, horigin⟩
      · exact ⟨sd.message (s.rank p'), List.mem_append_right _ (List.mem_map.mpr ⟨sd,
          List.mem_filter.mpr ⟨List.mem_of_getElem? hj, decide_eq_true hd⟩, rfl⟩), hkey, rfl⟩
  · rw [if_neg hp]
    exact ⟨.inl, fun hc => hc.resolve_right fun hc => hp hc.1⟩

/-- The channels are still sorted: what is issued is of the latest stage. -/
theorem Inv.sorted_issue (h : Inv P s) (hM : P.Matched time)
    (hat : P.At (s.rank p).stage p m ((s.rank p).chain m).pc)
    (hawait : ((s.rank p).chain m).await = none)
    (hchan : s'.chan = (s.issue p m (P.instr (s.rank p).stage p m ((s.rank p).chain m).pc)).chan)
    (p' q : ℕ) : (s'.chan p' q).Pairwise fun a b =>
      a.key = b.key → a.payload.origin < b.payload.origin := by
  rw [hchan, chan_issue]
  by_cases hp : p' = p
  · subst hp
    rw [if_pos rfl]
    refine List.pairwise_append.mpr ⟨h.messages.sorted p' q, ?_, ?_⟩
    · exact (hat.pairwise_sends hM q (s.rank p')).imp fun hne heq => absurd heq hne
    · intro a ha b hb hkey
      obtain ⟨sd, hsd, rfl⟩ := List.mem_map.mp hb
      obtain ⟨hsd, hd⟩ := List.mem_filter.mp hsd
      obtain ⟨j, hj⟩ := List.mem_iff_getElem?.mp hsd
      have hsends : Sends P s p' m q a.key :=
        ⟨j, sd, ⟨hat, hj⟩, of_decide_eq_true hd, hkey.symm⟩
      exact (hsends.of_issued hM hawait (h.messages.chan_issued _ _ _ _ ⟨a, ha, rfl, rfl⟩)).2
  · rw [if_neg hp]
    exact h.messages.sorted p' q

/-- The rank that polls an await point for the first time. -/
theorem rank_issue_self (i : Instr R α) : (s.issue p m i).rank p =
    { (s.rank p).setChain m ⟨((s.rank p).chain m).pc,
        some ⟨List.range i.sends.length, ((s.rank p).pollRecv m i).1⟩⟩ with
      node := ((s.rank p).pollRecv m i).2 } := Function.update_self ..

theorem rank_issue_of_ne (i : Instr R α) {q : ℕ} (hq : q ≠ p) :
    (s.issue p m i).rank q = s.rank q := Function.update_of_ne hq ..

/-- A first poll starts the await point. -/
theorem started_issue (i : Instr R α) (q i' m' k : ℕ) : ((s.issue p m i).rank q).Started i' m' k ↔
    (s.rank q).Started i' m' k ∨
      q = p ∧ i' = (s.rank p).stage ∧ m' = m ∧ k = ((s.rank p).chain m).pc := by
  rcases eq_or_ne q p with rfl | hq
  · rw [rank_issue_self]
    exact Rank.started_await.trans (or_congr_right ⟨fun h => ⟨rfl, h⟩, And.right⟩)
  · rw [rank_issue_of_ne i hq]
    exact ⟨.inl, fun h => h.resolve_right fun hc => hq hc.1⟩

/-- And issues what it sends. -/
theorem issued_issue (hat : P.At (s.rank p).stage p m ((s.rank p).chain m).pc) (i : Instr R α)
    (i' p' q : ℕ) (κ : RecvKey) : Issued P (s.issue p m i) i' p' q κ ↔
      Issued P s i' p' q κ ∨ p' = p ∧ i' = (s.rank p).stage ∧ Sends P s p m q κ := by
  constructor
  · rintro ⟨m', k, j, sd, hsend, hd, hkey, hst⟩
    rcases (started_issue i p' i' m' k).mp hst with hst | ⟨rfl, rfl, rfl, rfl⟩
    · exact .inl ⟨m', k, j, sd, hsend, hd, hkey, hst⟩
    · exact .inr ⟨rfl, rfl, j, sd, hsend, hd, hkey⟩
  · rintro (⟨m', k, j, sd, hsend, hd, hkey, hst⟩ | ⟨rfl, rfl, j, sd, hsend, hd, hkey⟩)
    · exact ⟨m', k, j, sd, hsend, hd, hkey, (started_issue i p' i' m' k).mpr (.inl hst)⟩
    · exact ⟨m, _, j, sd, hsend, hd, hkey,
        (started_issue i p' _ m _).mpr (.inr ⟨rfl, rfl, rfl, rfl⟩)⟩

/-- The node of the rank that polls is what the poll of the receive leaves. -/
theorem node_issue_self (i : Instr R α) :
    ((s.issue p m i).rank p).node = ((s.rank p).pollRecv m i).2 := by rw [rank_issue_self]

/-- The receives that wait after a first poll whose receive registers, or that has
none. -/
theorem Posts.issue_of_not_took (h : Posts P s) (hlocal : Local P p (s.rank p))
    (hat : P.At (s.rank p).stage p m ((s.rank p).chain m).pc)
    (hawait : ((s.rank p).chain m).await = none) {I : Instr R α}
    (hI : I = P.instr (s.rank p).stage p m ((s.rank p).chain m).pc)
    (hone : ∀ {m' k κ t t'}, P.IsRecv (s.rank p).stage p m' k κ t →
      P.IsRecv (s.rank p).stage p m ((s.rank p).chain m).pc κ t' → m' = m)
    (hdone : ((s.rank p).pollRecv m I).2.done = (s.rank p).node.done)
    (hpending : ∀ κ pr, ((s.rank p).pollRecv m I).2.router.slots κ = some (.pending pr) →
      (s.rank p).node.router.slots κ = some (.pending pr) ∨
        ∃ t w, I.recv = some (κ, t) ∧
          pr = ⟨t, ((s.rank p).stage, m, ((s.rank p).chain m).pc), w⟩)
    (hposted : ∀ κ t, I.recv = some (κ, t) →
      ∃ w, ((s.rank p).pollRecv m I).2.router.slots κ =
        some (.pending ⟨t, ((s.rank p).stage, m, ((s.rank p).chain m).pc), w⟩))
    (hkept : ∀ κ pr, (∀ t, I.recv ≠ some (κ, t)) →
      (s.rank p).node.router.slots κ = some (.pending pr) →
        ((s.rank p).pollRecv m I).2.router.slots κ = some (.pending pr)) :
    Posts P (s.issue p m I) := by
  have hdone' : ∀ q, ((s.issue p m I).rank q).node.done = (s.rank q).node.done := by
    intro q
    rcases eq_or_ne q p with rfl | hq
    · rw [node_issue_self, hdone]
    · rw [rank_issue_of_ne I hq]
  refine ⟨fun q κ pr hpr => ?_, fun i q m' k κ t hrecv hst hd => ?_⟩
  · have hold : (s.rank q).node.router.slots κ = some (.pending pr) → ∃ i m' k,
        P.IsRecv i q m' k κ pr.target ∧ pr.done = (i, m', k) ∧
          ((s.issue p m I).rank q).Started i m' k ∧
            ((s.issue p m I).rank q).node.done (i, m', k) = false := by
      intro hpr
      obtain ⟨i, m', k, hrecv, hd, hst, hnot⟩ := h.pending q κ pr hpr
      refine ⟨i, m', k, hrecv, hd, (started_issue I q i m' k).mpr (.inl hst), ?_⟩
      rw [hdone', hnot]
    rcases eq_or_ne q p with rfl | hq
    · rw [node_issue_self] at hpr
      rcases hpending κ pr hpr with hpr | ⟨t, w, hrecv, rfl⟩
      · exact hold hpr
      · -- the receive that was polled
        refine ⟨_, m, _, ⟨hat, hI ▸ hrecv⟩, rfl, ?_, ?_⟩
        · exact (started_issue I q _ m _).mpr (.inr ⟨rfl, rfl, rfl, rfl⟩)
        · rw [hdone']
          exact hlocal.done_eq_false hawait
    · rw [rank_issue_of_ne I hq] at hpr
      exact hold hpr
  · rw [hdone'] at hd
    rcases (started_issue I q i m' k).mp hst with hold | ⟨rfl, rfl, rfl, rfl⟩
    · obtain ⟨w, hw⟩ := h.posted i q m' k κ t hrecv hold hd
      rcases eq_or_ne q p with rfl | hq
      · refine ⟨w, ?_⟩
        rw [node_issue_self]
        refine hkept κ _ (fun t' hrecv' => ?_) hw
        -- two receives of one key: the other one has been left, and so taken
        have hrecv'' : P.IsRecv (s.rank q).stage q m ((s.rank q).chain m).pc κ t' :=
          ⟨hat, hI ▸ hrecv'⟩
        have hpassed : (s.rank q).Passed i m' k := by
          rcases hold.passed_or with hpassed | ⟨rfl, -, hk⟩
          · exact hpassed
          · obtain rfl := hone hrecv hrecv''
            rw [hawait] at hk
            cases hk
        rw [hlocal.taken _ _ _ _ _ hrecv hpassed] at hd
        cases hd
      · rw [rank_issue_of_ne I hq]
        exact ⟨w, hw⟩
    · rw [node_issue_self]
      exact hposted κ t (hI ▸ hrecv.2)

/-- An await point that receives nothing, or whose receive finds no early message,
takes nothing. -/
theorem Inv.issue_of_not_took (h : Inv P s) (hM : P.Matched time)
    (hat : P.At (s.rank p).stage p m ((s.rank p).chain m).pc)
    (hawait : ((s.rank p).chain m).await = none) {I : Instr R α}
    (hI : I = P.instr (s.rank p).stage p m ((s.rank p).chain m).pc)
    (hdone : ((s.rank p).pollRecv m I).2.done = (s.rank p).node.done)
    (hgot : ((s.rank p).pollRecv m I).2.got = (s.rank p).node.got)
    (hearly : ∀ κ e, ((s.rank p).pollRecv m I).2.router.slots κ = some (.early e) ↔
      (s.rank p).node.router.slots κ = some (.early e))
    (hpending : ∀ κ pr, ((s.rank p).pollRecv m I).2.router.slots κ = some (.pending pr) →
      (s.rank p).node.router.slots κ = some (.pending pr) ∨
        ∃ t w, I.recv = some (κ, t) ∧
          pr = ⟨t, ((s.rank p).stage, m, ((s.rank p).chain m).pc), w⟩)
    (hposted : ∀ κ t, I.recv = some (κ, t) →
      ∃ w, ((s.rank p).pollRecv m I).2.router.slots κ =
        some (.pending ⟨t, ((s.rank p).stage, m, ((s.rank p).chain m).pc), w⟩))
    (hkept : ∀ κ pr, (∀ t, I.recv ≠ some (κ, t)) →
      (s.rank p).node.router.slots κ = some (.pending pr) →
        ((s.rank p).pollRecv m I).2.router.slots κ = some (.pending pr)) :
    Messages P (s.issue p m I) := by
  have hm := h.messages
  have hdone' : ∀ q, ((s.issue p m I).rank q).node.done = (s.rank q).node.done := by
    intro q
    rcases eq_or_ne q p with rfl | hq
    · rw [node_issue_self, hdone]
    · rw [rank_issue_of_ne I hq]
  have hgot' : ∀ q, ((s.issue p m I).rank q).node.got = (s.rank q).node.got := by
    intro q
    rcases eq_or_ne q p with rfl | hq
    · rw [node_issue_self, hgot]
    · rw [rank_issue_of_ne I hq]
  have hearly' : ∀ i q κ, IsEarly (s.issue p m I) i q κ ↔ IsEarly s i q κ := by
    intro i q κ
    rcases eq_or_ne q p with rfl | hq
    · simp only [IsEarly, node_issue_self, hearly]
    · simp only [IsEarly, rank_issue_of_ne I hq]
  refine h.issue_messages hM hawait (s.issue p m I) (fun _ => False)
    (issued_issue hat I) ?_ ?_ ?_ ?_ (fun _ hc => hc.elim) ?_ ?_
  · exact onChannel_issue hat (by rw [hI])
  · exact h.sorted_issue hM hat hawait (by rw [hI])
  · intro i q κ
    rw [hearly', and_false, not_false_eq_true, and_true]
  · intro i q κ
    rw [false_and, and_false, or_false, Taken, hdone']
    rfl
  · exact hm.posts.issue_of_not_took (h.ranks p hat.rank) hat hawait hI
      (fun hrecv hrecv' => (hM.recv_unique hrecv hrecv').1) hdone hpending hposted hkept
  · intro i q m' k κ t hrecv hd
    rw [hdone'] at hd
    rw [hgot']
    exact hm.got i q m' k κ t hrecv hd

/-- **An await point whose receive finds its message** takes it. -/
theorem Inv.issue_of_took (h : Inv P s) (hM : P.Matched time)
    (hat : P.At (s.rank p).stage p m ((s.rank p).chain m).pc)
    (hawait : ((s.rank p).chain m).await = none) {I : Instr R α}
    (hI : I = P.instr (s.rank p).stage p m ((s.rank p).chain m).pc) {κ₀ : RecvKey} {t₀ : Slice R}
    (hrecv₀ : I.recv = some (κ₀, t₀)) {e : Payload α ℕ}
    (hslot : (s.rank p).node.router.slots κ₀ = some (.early e))
    (hnode : ((s.rank p).pollRecv m I).2 = { (s.rank p).node with
      router := (s.rank p).node.router.remove κ₀ }.fill t₀
        ((s.rank p).stage, m, ((s.rank p).chain m).pc) e) :
    Messages P (s.issue p m I) := by
  have hm := h.messages
  have hrecv₁ : P.IsRecv (s.rank p).stage p m ((s.rank p).chain m).pc κ₀ t₀ := ⟨hat, hI ▸ hrecv₀⟩
  have horigin := h.early_origin hM hrecv₁ hawait hslot
  have hc : Completes s (s.issue p m I) p κ₀ (s.rank p).stage m ((s.rank p).chain m).pc := by
    refine completes_of_node ((node_issue_self I).trans hnode)
      (fun r hr => by rw [rank_issue_of_ne I hr]) rfl rfl ?_
    rw [Node.fill, horigin]
  refine h.issue_messages hM hawait (s.issue p m I) (fun κ => κ = κ₀)
    (issued_issue hat I) ?_ ?_ (fun i q κ => hc.isEarly) (fun i q κ => hc.taken hrecv₁) ?_ ?_ ?_
  · exact onChannel_issue hat (by rw [hI])
  · exact h.sorted_issue hM hat hawait (by rw [hI])
  · rintro κ rfl
    exact ⟨e, hslot, horigin⟩
  · refine hm.posts.fill hrecv₁ hc.done hc.slots hc.slot (fun pr hpr => ?_)
      (fun q i m' k hst => (started_issue I q i m' k).mpr (.inl hst)) fun q i m' k hst => ?_
    · cases hslot.symm.trans hpr
    · refine ((started_issue I q i m' k).mp hst).imp_right ?_
      rintro ⟨rfl, rfl, rfl, rfl⟩
      exact ⟨rfl, rfl⟩
  · exact fun i q m' k κ t => hc.got_eq hm

/-- **A first poll** keeps the invariant of the messages. -/
theorem Inv.issue (h : Inv P s) (hM : P.Matched time)
    (hat : P.At (s.rank p).stage p m ((s.rank p).chain m).pc)
    (hawait : ((s.rank p).chain m).await = none) :
    Messages P (s.issue p m (P.instr (s.rank p).stage p m ((s.rank p).chain m).pc)) := by
  have hdone := (h.ranks p hat.rank).done_eq_false hawait
  rcases Rank.pollRecv_cases (i := P.instr (s.rank p).stage p m ((s.rank p).chain m).pc) hdone with
    ⟨hrecv, hp⟩ | ⟨κ₀, t₀, hrecv, ⟨e, hslot, hp⟩ | ⟨hvac, hp⟩⟩
  · -- no receive
    refine h.issue_of_not_took hM hat hawait rfl ?_ ?_ ?_ ?_ ?_ ?_ <;> rw [hp]
    · exact fun κ e => Iff.rfl
    · exact fun κ pr hpr => .inl hpr
    · exact fun κ t hc => absurd (hrecv.symm.trans hc) nofun
    · exact fun κ pr _ hpr => hpr
  · exact h.issue_of_took hM hat hawait rfl hrecv hslot (by rw [hp])
  · -- the receive registers in the slot of its key
    have hself : ((s.rank p).pollRecv m
        (P.instr (s.rank p).stage p m ((s.rank p).chain m).pc)).2.router.slots κ₀ =
          some (.pending ⟨t₀, ((s.rank p).stage, m, ((s.rank p).chain m).pc), some m⟩) := by
      rw [hp]
      exact AmRouter.insert_slots_self ..
    have hne : ∀ κ, κ ≠ κ₀ → ((s.rank p).pollRecv m
        (P.instr (s.rank p).stage p m ((s.rank p).chain m).pc)).2.router.slots κ =
          (s.rank p).node.router.slots κ := by
      intro κ hκ
      rw [hp]
      exact AmRouter.insert_slots_of_ne _ _ hκ
    refine h.issue_of_not_took hM hat hawait rfl (by rw [hp]) (by rw [hp]) ?_ ?_ ?_ ?_
    · intro κ e
      by_cases hκ : κ = κ₀
      · subst hκ
        rw [hself]
        exact iff_of_false nofun (hvac e)
      · rw [hne κ hκ]
    · intro κ pr hpr
      by_cases hκ : κ = κ₀
      · subst hκ
        cases hself.symm.trans hpr
        exact .inr ⟨t₀, some m, hrecv, rfl⟩
      · exact .inl ((hne κ hκ).symm.trans hpr)
    · intro κ t hrecv'
      cases hrecv.symm.trans hrecv'
      exact ⟨some m, hself⟩
    · intro κ pr hno hpr
      rw [hne κ, hpr]
      rintro rfl
      exact hno t₀ hrecv

end Issue

/-! ### Runs -/

section Run

variable [DecidableEq R] {eager : ℕ → Name → ℕ → Bool} {p : ℕ}

omit [DecidableEq R] in
/-- A rank replaced by one that the messages cannot tell from it. -/
theorem Inv.update_same (h : Inv P s) {r : Rank R α} (hr : Local P p r)
    (hsame : (s.rank p).Same P p r) :
    Inv P { s with rank := Function.update s.rank p r } :=
  ⟨hr.update h.ranks, h.messages.congr hsame.update rfl⟩

/-- **A delivery** that is in time keeps the invariant. -/
theorem Inv.deliver (h : Inv P s) (hM : P.Matched time) {q : ℕ} {msg : Message α}
    {rest : List (Message α)} (hchan : s.chan p q = msg :: rest)
    (hin : ∀ i, ¬IsEarly s i q msg.key) :
    Inv P { rank := Function.update s.rank q
              { s.rank q with node := ((s.rank q).node.deliver msg.key msg.payload).1 }
            chan := fun p' q' => if p' = p ∧ q' = q then rest else s.chan p' q' } := by
  -- the rank is one of the `n`: its receive for the message is in the table
  have hq : q < n := by
    obtain ⟨m, k, j, sd, hsend, rfl, -, -⟩ := h.messages.chan_issued _ _ _ _ (onChannel_head hchan)
    obtain ⟨k', t, hrecv⟩ := hM.receiver hsend
    exact hrecv.1.rank
  have hlocal := h.ranks q hq
  rcases hslot : (s.rank q).node.router.slots msg.key with - | pr | e
  · rw [Node.deliver_vacant hslot]
    exact ⟨Local.update (hlocal.setNode (fun _ hd => hd) hlocal.started) h.ranks,
      h.deliver_vacant hM hchan hslot rfl rfl⟩
  · obtain ⟨i, m, k, hrecv, hd, hst, hnot⟩ := h.messages.pending q msg.key pr hslot
    rw [Node.deliver_pending hslot]
    refine ⟨Local.update (hlocal.setNode ?_ ?_) h.ranks,
      h.deliver_pending hM hchan hslot hrecv hd hst hnot rfl (by rw [← hd]; rfl)
        (by rw [← hd]; rfl) rfl rfl⟩
    · intro a ha
      show Function.update (s.rank q).node.done _ _ a = true
      rw [Function.update_apply, ha, ite_self]
    · intro i' m' k' hd'
      by_cases heq : (i', m', k') = (i, m, k)
      · cases heq
        exact hst
      · refine hlocal.started i' m' k' ?_
        rw [← hd']
        exact (Function.update_of_ne (hd ▸ heq) ..).symm
  · exact absurd ⟨e, hslot, rfl⟩ (hin e.origin)

/-- **One step keeps the invariant**, unless it delivers a message onto an early
one. -/
theorem Inv.step (h : Inv P s) (hM : P.Matched time) {e : Event} (hin : InTime s e)
    (hs : step ⟨n, prog, eager⟩ s e = some s') : Inv P s' := by
  rcases e with p | ⟨p, m⟩ | ⟨p, m, j⟩ | ⟨p, q⟩ | p
  · obtain ⟨hp, hi, hl, hw, rfl⟩ := P.step_launch.mp hs
    obtain ⟨hlocal, hsame⟩ := (h.ranks p hp).launch hp hi hl hw
    exact h.update_same hlocal hsame
  · obtain ⟨hat, hm, -, ⟨hawait, rfl⟩ | ⟨a, hawait, hcomplete, rfl⟩⟩ := P.step_poll.mp hs
    · exact ⟨((h.ranks p hat.rank).issue hat hm hawait).update h.ranks, h.issue hM hat hawait⟩
    · obtain ⟨hlocal, hsame⟩ := (h.ranks p hat.rank).proceed hat hm hawait hcomplete _
      exact h.update_same hlocal hsame
  · obtain ⟨a, sd, hawait, hsend, -, -, rfl⟩ := P.step_sent.mp hs
    have hlocal := h.ranks p hsend.1.rank
    obtain ⟨hlocal, hsame⟩ := hlocal.sent (hlocal.launched_of_await hawait) hawait j
    exact h.update_same hlocal hsame
  · obtain ⟨msg, rest, hchan, rfl⟩ := step_deliver.mp hs
    exact h.deliver hM hchan (hin msg (by rw [hchan]; rfl))
  · obtain ⟨hp, hi, hl, hr, rfl⟩ := P.step_advance.mp hs
    obtain ⟨hlocal, hsame⟩ := (h.ranks p hp).advance hi hl hr
    exact h.update_same hlocal hsame

/-- **A delivery onto an early message loses it**: it was issued, and is neither on its
channel nor in the router nor taken. -/
theorem Inv.lost_of_not_inTime (h : Inv P s) (hM : P.Matched time) {e : Event}
    (hin : ¬InTime s e) (hs : AmNet.step ⟨n, prog, eager⟩ s e = some s') :
    ∃ i p q κ, Issued P s' i p q κ ∧ ¬OnChannel s' i p q κ ∧ ¬IsEarly s' i q κ ∧
      ¬Taken P s' i q κ := by
  rcases e with _ | _ | _ | ⟨p, q⟩ | _
  case deliver =>
    obtain ⟨msg, rest, hchan, rfl⟩ := step_deliver.mp hs
    obtain ⟨i, e, hslot, rfl⟩ : ∃ i, IsEarly s i q msg.key := by
      by_contra hne
      refine hin fun msg' hmsg' i hearly => hne ⟨i, ?_⟩
      rw [hchan] at hmsg'
      obtain rfl := Option.some.inj hmsg'
      exact hearly
    have hearly : IsEarly s e.origin q msg.key := ⟨e, hslot, rfl⟩
    have hhead := h.messages.chan_issued _ _ _ _ (onChannel_head hchan)
    obtain ⟨p', hissued⟩ := h.messages.early_issued _ _ _ hearly
    obtain rfl := hissued.sender_eq hM hhead
    rw [Node.deliver_early hslot]
    refine ⟨e.origin, p', q, msg.key, (issued_congr fun r i m k => ?_).mpr hissued, ?_, ?_, ?_⟩
    · dsimp only
      rcases eq_or_ne r q with rfl | hne
      · rw [Function.update_self]
        exact Iff.rfl
      · rw [Function.update_of_ne hne]
    · -- what is left on the channel is of later stages
      rintro ⟨msg', hmem, hkey, horigin⟩
      dsimp only at hmem
      rw [if_pos ⟨rfl, rfl⟩] at hmem
      exact absurd (h.messages.early_first _ _ _ _ _ hearly
        ⟨msg', hchan ▸ List.mem_cons_of_mem _ hmem, hkey, horigin⟩) (Nat.lt_irrefl _)
    · rintro ⟨e', hslot', -⟩
      simp only [Function.update_self, AmRouter.remove_slots_self] at hslot'
      exact nomatch hslot'
    · rintro ⟨m, k, t, hrecv, hdone⟩
      simp only [Function.update_self] at hdone
      exact h.messages.early_not_taken _ _ _ hearly ⟨m, k, t, hrecv, hdone⟩
  all_goals exact absurd trivial hin

omit [DecidableEq R] in
/-- Nothing has been started at the start. -/
theorem not_started_start (heap : ℕ → Heap R α) (q i m k : ℕ) :
    ¬((start heap).rank q).Started i m k := by
  rintro (hc | ⟨-, hc | ⟨-, hc⟩⟩)
  · exact Nat.not_lt_zero _ hc
  · exact Nat.not_lt_zero _ hc
  · cases hc

omit [DecidableEq R] in
/-- The invariant holds at the start. -/
theorem inv_start (P : Layout n prog) (heap : ℕ → Heap R α) : Inv P (start heap) := by
  refine ⟨fun p _ => ?_, ?_⟩
  · refine ⟨Nat.zero_le _, fun _ _ _ => Nat.zero_le _, nofun, fun _ _ => rfl,
      fun _ => Nat.zero_le _, fun _ => rfl, fun _ => rfl, fun _ => Nat.zero_le _, nofun, nofun,
      nofun, ?_, nofun⟩
    intro i m k κ t _ hpassed
    exact absurd hpassed.started (not_started_start heap p i m k)
  · have hchan : ∀ i p q κ, ¬OnChannel (start heap) i p q κ := by
      rintro i p q κ ⟨msg, hmem, -⟩
      exact absurd hmem List.not_mem_nil
    have hearly : ∀ i q κ, ¬IsEarly (start heap) i q κ := by
      rintro i q κ ⟨e, he, -⟩
      cases he
    refine ⟨?_, ?_, fun _ _ => .nil, ?_, ?_, ?_, nofun, ?_, ?_, ?_, nofun⟩
    · exact fun i p q κ hc => absurd hc (hchan i p q κ)
    · exact fun i p q κ hc => absurd hc (hchan i p q κ)
    · exact fun i q κ hc => absurd hc (hearly i q κ)
    · exact fun i q κ hc => absurd hc (hearly i q κ)
    · exact fun i i' p q κ hc => absurd hc (hearly i q κ)
    · exact fun i q m k κ t _ hst => absurd hst (not_started_start heap q i m k)
    · rintro i p q κ ⟨m, k, j, sd, -, -, -, hst⟩
      exact absurd hst (not_started_start heap p i m k)
    · rintro i q κ ⟨m, k, t, -, hd⟩
      cases hd

/-- **The invariant of a run** of matched programs in which no message is delivered
onto an early one. -/
theorem inv_of_steps (hM : P.Matched time) {heap : ℕ → Heap R α}
    (h : Steps (AmNet.step ⟨n, prog, eager⟩) InTime (start heap) s) : Inv P s :=
  h.invariant (inv_start P heap) fun _ _ _ hinv hin hs => hinv.step hM hin hs

omit [DecidableEq R] in
/-- **With keys of their own, stages do not get in each other's way**: an early
message is of an earlier stage than those on the channel. -/
theorem Inv.inTime_of_origin_eq (h : Inv P s)
    (hown : ∀ i i' p p' q κ, Issued P s i p q κ → Issued P s i' p' q κ → i = i') (e : Event) :
    InTime s e := by
  rcases e with _ | _ | _ | ⟨p, q⟩ | _
  case deliver =>
    intro msg hmsg i hearly
    obtain ⟨rest, hchan⟩ := List.head?_eq_some_iff.mp hmsg
    obtain ⟨p', hiss⟩ := h.messages.early_issued _ _ _ hearly
    have hlt := h.messages.early_first _ _ _ _ _ hearly (onChannel_head hchan)
    have heq := hown _ _ _ _ _ _ hiss (h.messages.chan_issued _ _ _ _ (onChannel_head hchan))
    exact absurd heq hlt.ne
  all_goals trivial

end Run

end MessageRules

end AmNet

end Pluvio
