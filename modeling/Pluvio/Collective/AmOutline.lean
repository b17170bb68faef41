import Pluvio.Collective.AmInvariant

/-!
# What the ranks' memories hold

A proof outline for matched programs (`Pluvio.AmNet.Layout.Outline`): an assertion
at each position of each chain, and the bytes of each message. The assertion of a
chain is about the cells of its footprint, and the other chains of the rank do not
write there; so the order in which chains, deliveries and receives interleave makes
no difference to it.

Between the delivery of a message and the poll that returns it a chain is neither
before nor after its await point. Its memory then agrees, on the footprint, with one
that satisfies the assertion and into which the message has been copied.
-/

namespace Pluvio

namespace AmNet

variable {R α : Type*} [DecidableEq R] {n : ℕ} {prog : ℕ → List (Stage R α)}

/-- A proof outline: what holds of the memory of a rank at each place of its program. -/
structure Layout.Outline (P : Layout n prog) (heap : ℕ → Heap R α) where
  /-- What the memory of a rank holds when it comes to a stage. -/
  pre : ℕ → ℕ → Heap R α → Prop
  /-- What it holds when a chain of the stage is at a position. -/
  holds : ℕ → ℕ → ℕ → ℕ → Heap R α → Prop
  /-- The cells that is about. -/
  foot : ℕ → ℕ → ℕ → R → ℕ → Prop
  /-- The message of a stage for a rank under a key. -/
  payload : ℕ → ℕ → RecvKey → List α
  init : ∀ p < n, pre 0 p (heap p)
  enter : ∀ {i p m h}, i < P.stages → p < n → m < P.width i → pre i p h → holds i p m 0 h
  leave : ∀ {i p h}, i < P.stages → p < n →
    (∀ m < P.width i, holds i p m (P.len i p m) h) → pre (i + 1) p h
  stable : ∀ {i p m k h h'}, holds i p m k h → Heap.AgreeOn (foot i p m) h' h → holds i p m k h'
  sends : ∀ {i p m k j sd h}, P.IsSend i p m k j sd → holds i p m k h →
    h.read sd.view = payload i sd.dst sd.key
  next_recv : ∀ {i p m k κ t h h'}, P.IsRecv i p m k κ t → holds i p m k h →
    Heap.AgreeOn (foot i p m) h' (h.copyInto t (payload i p κ)) →
      holds i p m (k + 1) ((P.instr i p m k).after h')
  next : ∀ {i p m k h}, P.At i p m k → (P.instr i p m k).recv = none → holds i p m k h →
    holds i p m (k + 1) ((P.instr i p m k).after h)
  frame_recv : ∀ {i p m k κ t m'}, P.IsRecv i p m k κ t → m' ≠ m →
    ∀ r c, t.Has r c → ¬foot i p m' r c
  frame_after : ∀ {i p m k m'} h, P.At i p m k → m' ≠ m →
    Heap.AgreeOn (foot i p m') ((P.instr i p m k).after h) h

namespace Layout.Outline

variable {P : Layout n prog} {heap : ℕ → Heap R α} (O : P.Outline heap)

/-- The memory of a rank is as the outline says. -/
structure OfRank (p : ℕ) (r : Rank R α) : Prop where
  waiting : r.stage < P.stages → ∀ m < P.width r.stage,
    (∀ κ t, P.IsRecv r.stage p m (r.chain m).pc κ t →
      r.node.done (r.stage, m, (r.chain m).pc) = false) →
        O.holds r.stage p m (r.chain m).pc r.node.heap
  /-- The message is there, and the chain has not been polled since. -/
  taken : ∀ m κ t, P.IsRecv r.stage p m (r.chain m).pc κ t →
    r.node.done (r.stage, m, (r.chain m).pc) = true →
      ∃ h, O.holds r.stage p m (r.chain m).pc h ∧ Heap.AgreeOn (O.foot r.stage p m) r.node.heap
        (h.copyInto t (O.payload r.stage p κ))
  final : r.stage = P.stages → O.pre P.stages p r.node.heap

/-- **The outline of a run.** -/
structure Outlined (s : State R α) : Prop where
  ranks : ∀ p < n, O.OfRank p (s.rank p)
  chan : ∀ p q, ∀ msg ∈ s.chan p q, msg.payload.bytes = O.payload msg.payload.origin q msg.key
  early : ∀ q κ e, (s.rank q).node.router.slots κ = some (.early e) →
    e.bytes = O.payload e.origin q κ

section Rules

variable {O} {p m : ℕ} {r r' : Rank R α}

/-- A rank that is where it was, with the same memory. -/
theorem OfRank.congr (h : O.OfRank p r) (hstage : r'.stage = r.stage)
    (hpc : ∀ m, (r'.chain m).pc = (r.chain m).pc) (hdone : r'.node.done = r.node.done)
    (hheap : r'.node.heap = r.node.heap) : O.OfRank p r' := by
  refine ⟨fun hi m hm hnot => ?_, fun m κ t hrecv hd => ?_, fun hi => ?_⟩
  · rw [hstage, hpc, hdone] at hnot
    rw [hstage, hpc, hheap]
    exact h.waiting (hstage ▸ hi) m (hstage ▸ hm) hnot
  · rw [hstage, hpc] at hrecv
    rw [hstage, hpc, hdone] at hd
    rw [hstage, hpc, hheap]
    exact h.taken m κ t hrecv hd
  · rw [hheap]
    exact h.final (hstage ▸ hi)

/-- **The message of a receive arrives.** -/
theorem OfRank.fill (h : O.OfRank p r) {κ : RecvKey} {t : Slice R} {bs : List α}
    (hrecv : P.IsRecv r.stage p m (r.chain m).pc κ t)
    (hnot : r.node.done (r.stage, m, (r.chain m).pc) = false) (hbs : bs = O.payload r.stage p κ)
    (hstage : r'.stage = r.stage) (hpc : ∀ m, (r'.chain m).pc = (r.chain m).pc)
    (hdone : r'.node.done = Function.update r.node.done (r.stage, m, (r.chain m).pc) true)
    (hheap : r'.node.heap = r.node.heap.copyInto t bs) : O.OfRank p r' := by
  have hother : ∀ m', m' ≠ m → r'.node.done (r.stage, m', (r.chain m').pc) =
      r.node.done (r.stage, m', (r.chain m').pc) := by
    intro m' hne
    rw [hdone]
    refine Function.update_of_ne (fun heq => hne ?_) ..
    simp only [Prod.mk.injEq] at heq
    exact heq.2.1
  have hself : r'.node.done (r.stage, m, (r.chain m).pc) = true := by
    rw [hdone, Function.update_self]
  -- the cells of another chain are not written
  have hframe : ∀ m', m' ≠ m → Heap.AgreeOn (O.foot r.stage p m') r'.node.heap r.node.heap := by
    intro m' hne
    rw [hheap]
    exact Heap.agreeOn_copyInto bs (O.frame_recv hrecv hne)
  refine ⟨fun hi m' hm' hnot' => ?_, fun m' κ' t' hrecv' hd => ?_, fun hi => ?_⟩
  · rw [hstage, hpc] at hnot' ⊢
    rw [hstage] at hi hm'
    by_cases hne : m' = m
    · subst hne
      cases hself.symm.trans (hnot' κ t hrecv)
    · rw [hother m' hne] at hnot'
      exact O.stable (h.waiting hi m' hm' hnot') (hframe m' hne)
  · rw [hstage, hpc] at hrecv' hd ⊢
    by_cases hne : m' = m
    · subst hne
      obtain rfl := hrecv'.key_eq hrecv
      cases hrecv.2.symm.trans hrecv'.2
      refine ⟨r.node.heap, h.waiting hrecv.1.stage m' hrecv.1.chain fun _ _ _ => hnot, ?_⟩
      rw [hheap, hbs]
      exact .refl _ _
    · rw [hother m' hne] at hd
      obtain ⟨h₀, hholds, hagree⟩ := h.taken m' κ' t' hrecv' hd
      exact ⟨h₀, hholds, (hframe m' hne).trans hagree⟩
  · exact absurd (hstage ▸ hi) hrecv.1.stage.ne

/-- **A chain leaves its await point.** -/
theorem OfRank.proceed (h : O.OfRank p r) (hlocal : Local P p r)
    (hat : P.At r.stage p m (r.chain m).pc)
    (hready : ∀ κ t, P.IsRecv r.stage p m (r.chain m).pc κ t →
      r.node.done (r.stage, m, (r.chain m).pc) = true)
    (hstage : r'.stage = r.stage) (hpc : (r'.chain m).pc = (r.chain m).pc + 1)
    (hpc' : ∀ m', m' ≠ m → (r'.chain m').pc = (r.chain m').pc)
    (hdone : r'.node.done = r.node.done)
    (hheap : r'.node.heap = (P.instr r.stage p m (r.chain m).pc).after r.node.heap) :
    O.OfRank p r' := by
  have hframe : ∀ m', m' ≠ m → Heap.AgreeOn (O.foot r.stage p m') r'.node.heap r.node.heap := by
    intro m' hne
    rw [hheap]
    exact O.frame_after _ hat hne
  refine ⟨fun hi m' hm' hnot => ?_, fun m' κ t hrecv hd => ?_, fun hi => ?_⟩
  · rw [hstage] at hi hm' hnot ⊢
    by_cases hne : m' = m
    · subst hne
      rw [hpc, hheap]
      rcases hrecv : (P.instr r.stage p m' (r.chain m').pc).recv with - | ⟨κ, t⟩
      · refine O.next hat hrecv (h.waiting hi m' hm' fun κ t hc => ?_)
        cases hrecv.symm.trans hc.2
      · obtain ⟨h₀, hholds, hagree⟩ := h.taken m' κ t ⟨hat, hrecv⟩ (hready κ t ⟨hat, hrecv⟩)
        exact O.next_recv ⟨hat, hrecv⟩ hholds hagree
    · rw [hpc' m' hne] at hnot ⊢
      rw [hdone] at hnot
      exact O.stable (h.waiting hi m' hm' hnot) (hframe m' hne)
  · rw [hstage] at hrecv hd ⊢
    rw [hdone] at hd
    by_cases hne : m' = m
    · -- the receive of the next await point has not been polled
      subst hne
      rw [hpc] at hd
      rcases hlocal.started _ _ _ hd with hlt | ⟨-, hlt | ⟨heq, -⟩⟩ <;> omega
    · rw [hpc' m' hne] at hrecv hd ⊢
      obtain ⟨h₀, hholds, hagree⟩ := h.taken m' κ t hrecv hd
      exact ⟨h₀, hholds, (hframe m' hne).trans hagree⟩
  · exact absurd (hstage ▸ hi) hat.stage.ne

/-- **A rank at the end of its stage** has done what the stage is for. -/
theorem OfRank.pre (h : O.OfRank p r) (hp : p < n) (hi : r.stage < P.stages)
    (hend : ∀ m < P.width r.stage, (r.chain m).pc = P.len r.stage p m) :
    O.pre (r.stage + 1) p r.node.heap := by
  refine O.leave hi hp fun m hm => ?_
  rw [← hend m hm]
  refine h.waiting hi m hm fun κ t hrecv => ?_
  exact absurd (hend m hm) hrecv.1.pos.ne

/-- **A rank comes to a stage.** -/
theorem OfRank.enter (hp : p < n) (hpre : O.pre r.stage p r.node.heap)
    (hpc : ∀ m, (r.chain m).pc = 0)
    (hnot : ∀ m k, r.node.done (r.stage, m, k) = false) : O.OfRank p r := by
  refine ⟨fun hi m hm _ => ?_, fun m κ t hrecv hd => ?_, fun hi => hi ▸ hpre⟩
  · rw [hpc]
    exact O.enter hi hp hm hpre
  · rw [hnot] at hd
    cases hd

end Rules

/-! ### Runs -/

section Run

variable {O} {s s' : State R α} {eager : ℕ → Name → ℕ → Bool} {time : ℕ → ℕ → ℕ → ℕ → ℕ} {p : ℕ}

/-- One rank replaced, with its router as it was. -/
theorem Outlined.update (h : O.Outlined s) {r : Rank R α} (hr : p < n → O.OfRank p r)
    (hrouter : r.node.router = (s.rank p).node.router) :
    O.Outlined { s with rank := Function.update s.rank p r } := by
  refine ⟨fun q hq => ?_, h.chan, fun q κ e he => ?_⟩
  · show O.OfRank q (Function.update s.rank p r q)
    rcases eq_or_ne q p with rfl | hne
    · rw [Function.update_self]
      exact hr hq
    · rw [Function.update_of_ne hne]
      exact h.ranks q hq
  · have hsame : (Function.update s.rank p r q).node.router = (s.rank q).node.router := by
      rcases eq_or_ne q p with rfl | hne
      · rw [Function.update_self, hrouter]
      · rw [Function.update_of_ne hne]
    exact h.early q κ e (hsame ▸ he)

/-- A first poll keeps the outline: what it sends is the payload of the outline, and an early
message that it takes is the one that was outlined. -/
theorem Outlined.issue (h : O.Outlined s) (hinv : Inv P s) (hM : P.Matched time) {m : ℕ}
    (hat : P.At (s.rank p).stage p m ((s.rank p).chain m).pc)
    (hawait : ((s.rank p).chain m).await = none) :
    O.Outlined (s.issue p m (P.instr (s.rank p).stage p m ((s.rank p).chain m).pc)) := by
  have hlocal := hinv.ranks p hat.rank
  have hnot := hlocal.done_eq_false hawait
  have hrank := h.ranks p hat.rank
  have hholds := hrank.waiting hat.stage m hat.chain fun _ _ _ => hnot
  set I := P.instr (s.rank p).stage p m ((s.rank p).chain m).pc with hI
  have hpc : ∀ m', (((s.issue p m I).rank p).chain m').pc = ((s.rank p).chain m').pc := by
    intro m'
    rw [rank_issue_self]
    show (((s.rank p).setChain m _).chain m').pc = _
    rw [Rank.chain_setChain]
    split
    · next heq => rw [heq]
    · rfl
  have hstage : ((s.issue p m I).rank p).stage = (s.rank p).stage := by
    rw [rank_issue_self]
    rfl
  -- what the poll of the receive does, if it takes the early message
  have hpoll : O.OfRank p ((s.issue p m I).rank p) ∧
      ∀ κ e, ((s.issue p m I).rank p).node.router.slots κ = some (.early e) →
        (s.rank p).node.router.slots κ = some (.early e) := by
    rcases Rank.pollRecv_cases (i := I) hnot with
      ⟨-, hp⟩ | ⟨κ₀, t₀, hrecv, ⟨e, hslot, hp⟩ | ⟨-, hp⟩⟩
    · have hnode : ((s.issue p m I).rank p).node = (s.rank p).node := by
        rw [node_issue_self, hp]
      exact ⟨hrank.congr hstage hpc (by rw [hnode]) (by rw [hnode]), fun κ e he => hnode ▸ he⟩
    · have hnode := (node_issue_self (s := s) (p := p) (m := m) I).trans (congrArg Prod.snd hp)
      have hrecv' : P.IsRecv (s.rank p).stage p m ((s.rank p).chain m).pc κ₀ t₀ := ⟨hat, hrecv⟩
      have horigin := hinv.early_origin hM hrecv' hawait hslot
      refine ⟨hrank.fill hrecv' hnot ?_ hstage hpc (by rw [hnode]; rfl)
        (by rw [hnode]; rfl), fun κ e' he' => ?_⟩
      · rw [h.early p κ₀ e hslot, horigin]
      · rw [hnode] at he'
        exact AmRouter.slots_of_remove he'
    · have hnode := (node_issue_self (s := s) (p := p) (m := m) I).trans (congrArg Prod.snd hp)
      refine ⟨hrank.congr hstage hpc (by rw [hnode]) (by rw [hnode]), fun κ e' he' => ?_⟩
      rw [hnode] at he'
      exact (AmRouter.slots_of_insert he').resolve_right fun hc => nomatch hc.2
  refine ⟨fun q hq => ?_, fun p' q msg hmsg => ?_, fun q κ e he => ?_⟩
  · rcases eq_or_ne q p with rfl | hne
    · exact hpoll.1
    · rw [rank_issue_of_ne I hne]
      exact h.ranks q hq
  · rw [chan_issue] at hmsg
    split at hmsg
    · next heq =>
      subst heq
      rcases List.mem_append.mp hmsg with hmsg | hmsg
      · exact h.chan p' q msg hmsg
      · obtain ⟨sd, hsd, rfl⟩ := List.mem_map.mp hmsg
        obtain ⟨hsd, hd⟩ := List.mem_filter.mp hsd
        obtain ⟨j, hj⟩ := List.mem_iff_getElem?.mp hsd
        have hdst : sd.dst = q := of_decide_eq_true hd
        exact hdst ▸ O.sends ⟨hat, hj⟩ hholds
    · exact h.chan p' q msg hmsg
  · rcases eq_or_ne q p with rfl | hne
    · exact h.early q κ e (hpoll.2 κ e he)
    · rw [rank_issue_of_ne I hne] at he
      exact h.early q κ e he

/-- A delivery in time keeps the outline: it is kept as early, or fills the receive that waits
for it. -/
theorem Outlined.deliver (h : O.Outlined s) (hinv : Inv P s) (hM : P.Matched time) {q : ℕ}
    {msg : Message α} {rest : List (Message α)} (hchan : s.chan p q = msg :: rest)
    (hin : ∀ i, ¬IsEarly s i q msg.key) :
    O.Outlined { rank := Function.update s.rank q
                   { s.rank q with node := ((s.rank q).node.deliver msg.key msg.payload).1 }
                 chan := fun p' q' => if p' = p ∧ q' = q then rest else s.chan p' q' } := by
  have hmsg : msg ∈ s.chan p q := hchan ▸ List.mem_cons_self
  have hchan' : ∀ p' q', ∀ msg' ∈ (if p' = p ∧ q' = q then rest else s.chan p' q'),
      msg'.payload.bytes = O.payload msg'.payload.origin q' msg'.key := by
    intro p' q' msg' hmsg'
    split at hmsg'
    · next heq =>
      obtain ⟨rfl, rfl⟩ := heq
      exact h.chan p' q' msg' (hchan ▸ List.mem_cons_of_mem _ hmsg')
    · exact h.chan p' q' msg' hmsg'
  -- what is left: the rank, and its early messages
  have key : ∀ node : Node R Name ℕ α ℕ, (q < n → O.OfRank q { s.rank q with node := node }) →
      (∀ κ e, node.router.slots κ = some (.early e) → e.bytes = O.payload e.origin q κ) →
        O.Outlined { rank := Function.update s.rank q { s.rank q with node := node }
                     chan := fun p' q' => if p' = p ∧ q' = q then rest else s.chan p' q' } := by
    intro node hnode hearly
    refine ⟨fun q' hq' => ?_, hchan', fun q' κ e he => ?_⟩
    · show O.OfRank q' (Function.update s.rank q _ q')
      rcases eq_or_ne q' q with rfl | hne
      · rw [Function.update_self]
        exact hnode hq'
      · rw [Function.update_of_ne hne]
        exact h.ranks q' hq'
    · rcases eq_or_ne q' q with rfl | hne
      · simp only [Function.update_self] at he
        exact hearly κ e he
      · simp only [Function.update_of_ne hne] at he
        exact h.early q' κ e he
  rcases hslot : (s.rank q).node.router.slots msg.key with - | pr | e
  · rw [Node.deliver_vacant hslot]
    refine key _ (fun hq => (h.ranks q hq).congr rfl (fun _ => rfl) rfl rfl) fun κ e he => ?_
    rcases AmRouter.slots_of_insert he with he | ⟨rfl, heq⟩
    · exact h.early q κ e he
    · obtain rfl := Slot.early.inj heq
      exact h.chan p q msg hmsg
  · obtain ⟨i, m, k, hrecv, hd, hst, hnot⟩ := hinv.messages.pending q msg.key pr hslot
    have horigin := hinv.origin_of_pending hM hchan hrecv rfl hst hnot
      (fun e he => by cases hslot.symm.trans he)
    -- the receive is that of an await point the rank is at
    have hhere : i = (s.rank q).stage ∧ k = ((s.rank q).chain m).pc := by
      rcases hst.passed_or with hp | ⟨hi, hk, -⟩
      · rw [(hinv.ranks q hrecv.1.rank).taken i m k _ _ hrecv hp] at hnot
        cases hnot
      · exact ⟨hi, hk⟩
    obtain ⟨rfl, rfl⟩ := hhere
    rw [Node.deliver_pending hslot]
    refine key _ (fun hq => ?_) fun κ e he => ?_
    · exact (h.ranks q hq).fill hrecv hnot (horigin ▸ h.chan p q msg hmsg) rfl (fun _ => rfl)
        (by rw [← hd]; rfl) rfl
    · exact h.early q κ e (AmRouter.slots_of_remove he)
  · exact absurd ⟨e, hslot, rfl⟩ (hin e.origin)

/-- **One step keeps the outline.** -/
theorem Outlined.step (h : O.Outlined s) (hinv : Inv P s) (hM : P.Matched time) {e : Event}
    (hin : InTime s e) (hs : AmNet.step ⟨n, prog, eager⟩ s e = some s') : O.Outlined s' := by
  rcases e with p | ⟨p, m⟩ | ⟨p, m, j⟩ | ⟨p, q⟩ | p
  · obtain ⟨hp, -, -, -, rfl⟩ := P.step_launch.mp hs
    exact h.update (fun _ => (h.ranks p hp).congr rfl (fun _ => rfl) rfl rfl) rfl
  · obtain ⟨hat, hm, -, ⟨hawait, rfl⟩ | ⟨a, hawait, hcomplete, rfl⟩⟩ := P.step_poll.mp hs
    · exact h.issue hinv hM hat hawait
    · have hlocal := hinv.ranks p hat.rank
      refine h.update (fun _ => (h.ranks p hat.rank).proceed hlocal hat ?_ rfl ?_ ?_ rfl rfl) rfl
      · -- the receive that is complete has been polled
        intro κ t hrecv
        obtain ⟨fut, hfut, -, hd, -, hpolled⟩ := hlocal.recv_some m a κ t hawait hrecv.2
        rw [← hd]
        exact (poll_ready_iff hpolled).mp (hcomplete.2 fut hfut)
      · show (((s.rank p).setChain m _).chain m).pc = _
        rw [Rank.chain_setChain, if_pos rfl]
      · intro m' hne
        show (((s.rank p).setChain m _).chain m').pc = _
        rw [Rank.chain_setChain, if_neg hne]
  · obtain ⟨a, sd, -, hsend, -, -, rfl⟩ := P.step_sent.mp hs
    refine h.update (fun _ => (h.ranks p hsend.1.rank).congr rfl (fun m' => ?_) rfl rfl) rfl
    rw [Rank.chain_setChain]
    split
    · next heq => rw [heq]
    · rfl
  · obtain ⟨msg, rest, hchan, rfl⟩ := step_deliver.mp hs
    exact h.deliver hinv hM hchan (hin msg (by rw [hchan]; rfl))
  · obtain ⟨hp, hi, hl, hr, rfl⟩ := P.step_advance.mp hs
    have hlocal := hinv.ranks p hp
    refine h.update (fun _ => .enter hp ?_ (fun _ => rfl) fun m k => ?_) rfl
    · exact (h.ranks p hp).pre hp hi fun m hm => hlocal.pc_eq_of_reaped hi hl hr hm
    · -- nothing of the next stage has been started
      by_contra hd
      rcases hlocal.started _ _ _ (Bool.eq_true_of_not_eq_false hd) with hlt | ⟨heq, -⟩
      · exact absurd hlt (Nat.not_lt.mpr (Nat.le_succ _))
      · exact absurd heq (Nat.succ_ne_self _)

variable (O) in
/-- The outline holds at the start. -/
theorem outlined_start : O.Outlined (start heap) := by
  refine ⟨fun p hp => .enter hp (O.init p hp) (fun _ => rfl) fun _ _ => rfl, ?_, ?_⟩
  · exact fun p q msg hmsg => absurd hmsg List.not_mem_nil
  · exact fun q κ e he => absurd he nofun

variable (O) in
/-- **The outline of a run** of matched programs in which no message is delivered
onto an early one. -/
theorem outlined_of_steps (hM : P.Matched time)
    (h : Steps (AmNet.step ⟨n, prog, eager⟩) InTime (start heap) s) :
    Inv P s ∧ O.Outlined s := by
  refine h.invariant (P := fun s => Inv P s ∧ O.Outlined s)
    ⟨inv_start P heap, outlined_start O⟩ ?_
  rintro s e s' ⟨hinv, ho⟩ hin hs
  exact ⟨hinv.step hM hin hs, ho.step hinv hM hin hs⟩

end Run

end Layout.Outline

end AmNet

end Pluvio
