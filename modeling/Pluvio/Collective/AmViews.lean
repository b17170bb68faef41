import Pluvio.Collective.AmLoss

/-!
# The views of the sends

A send reads its view until it completes, and a chain may wait for that while its rank goes
on: other chains are polled, and messages are delivered. This is about which cells of the
memory of a rank an event writes (`Pluvio.AmNet.Writes`), and which of them a send may still
read (`Pluvio.AmNet.Outstanding`).

An event writes for one chain: the message of a receive that waits, or of one that is polled
for the first time, goes to its target, and the work that follows an await point is done
where the layout says. A layout is separated (`Pluvio.AmNet.Layout.Separated`) when chains
have cells of their own, and no await point sends from where it receives. Then no event of
any run writes a cell of a view that is outstanding
(`Pluvio.AmNet.Steady.not_outstanding_of_writes`).
-/

namespace Pluvio

namespace AmNet

variable {R α : Type*} {n : ℕ} {prog : ℕ → List (Stage R α)} {P : Layout n prog}
  {eager : ℕ → Name → ℕ → Bool} {s s' : State R α} {p q m i k : ℕ} {r : R} {c : ℕ}

/-- A send of chain `m` of rank `p` has been issued and has not completed, and cell `c` of
region `r` is in its view. -/
def OutstandingOf (net : Net R α) (s : State R α) (p m : ℕ) (r : R) (c : ℕ) : Prop :=
  ∃ st chain I a j sd, net.current s p m = some (st, chain, I) ∧
    ((s.rank p).chain m).await = some a ∧ j ∈ a.sending ∧ I.sends[j]? = some sd ∧ sd.view.Has r c

/-- **The cell may still be read** by a send of rank `p`. -/
def Outstanding (net : Net R α) (s : State R α) (p : ℕ) (r : R) (c : ℕ) : Prop :=
  ∃ m, OutstandingOf net s p m r c

/-- **An event writes** cell `c` of region `r` of rank `p`. The work after await point `k`
of a chain is done on `work i p m k`. -/
inductive Writes [DecidableEq R] (net : Net R α) (work : ℕ → ℕ → ℕ → ℕ → Option (Slice R))
    (s : State R α) : Event → ℕ → R → ℕ → Prop
  /-- A message comes to a receive that waits for it. -/
  | deliver {p q : ℕ} {msg : Message α} {rest : List (Message α)} {pr : PendingRecv R Name ℕ}
      {r : R} {c : ℕ} : s.chan p q = msg :: rest →
      (s.rank q).node.router.slots msg.key = some (.pending pr) → pr.target.Has r c →
        Writes net work s (.deliver p q) q r c
  /-- A receive finds its message at its first poll. -/
  | receive {p m : ℕ} {st : Stage R α} {chain : List (Instr R α)} {I : Instr R α} {κ : RecvKey}
      {t : Slice R} {e : Payload α ℕ} {r : R} {c : ℕ} :
      net.current s p m = some (st, chain, I) → ((s.rank p).chain m).await = none →
        I.recv = some (κ, t) → (s.rank p).node.router.slots κ = some (.early e) → t.Has r c →
          Writes net work s (.poll p m) p r c
  /-- An await point is left. -/
  | proceed {p m : ℕ} {st : Stage R α} {chain : List (Instr R α)} {I : Instr R α} {a : Await R}
      {w : Slice R} {r : R} {c : ℕ} :
      net.current s p m = some (st, chain, I) → ((s.rank p).chain m).await = some a →
        a.Complete (s.rank p).node m →
          work (s.rank p).stage p m ((s.rank p).chain m).pc = some w → w.Has r c →
            Writes net work s (.poll p m) p r c

/-- **Chains have cells of their own**, which their views, their targets and their work are
within, and no await point sends from where it receives. -/
structure Layout.Separated (P : Layout n prog) (foot : ℕ → ℕ → ℕ → R → ℕ → Prop)
    (work : ℕ → ℕ → ℕ → ℕ → Option (Slice R)) : Prop where
  apart : ∀ {i p m m' r c}, foot i p m r c → foot i p m' r c → m = m'
  view : ∀ {i p m k j sd}, P.IsSend i p m k j sd → sd.view.Within (foot i p m)
  target : ∀ {i p m k κ t}, P.IsRecv i p m k κ t → t.Within (foot i p m)
  works : ∀ {i p m k w}, P.At i p m k → work i p m k = some w → w.Within (foot i p m)
  own : ∀ {i p m k j sd κ t r c}, P.IsSend i p m k j sd → P.IsRecv i p m k κ t →
    sd.view.Has r c → ¬t.Has r c
  /-- The work is done where it is said to be done. -/
  frame : ∀ {i p m k r c}, P.At i p m k → (∀ w, work i p m k = some w → ¬w.Has r c) →
    ∀ h : Heap R α, (P.instr i p m k).after h r c = h r c

/-! ### The cells of a view -/

section Views

variable {foot : ℕ → ℕ → ℕ → R → ℕ → Prop} {work : ℕ → ℕ → ℕ → ℕ → Option (Slice R)}

/-- An outstanding view is that of a send of the await point the chain is at. -/
theorem outstandingOf_iff : OutstandingOf ⟨n, prog, eager⟩ s p m r c ↔
    ∃ a j sd, ((s.rank p).chain m).await = some a ∧ j ∈ a.sending ∧
      P.IsSend (s.rank p).stage p m ((s.rank p).chain m).pc j sd ∧ sd.view.Has r c := by
  constructor
  · rintro ⟨st, chain, I, a, j, sd, hcur, ha, hj, hsd, hhas⟩
    obtain ⟨hat, -, -, rfl⟩ := P.current_eq_some.mp hcur
    exact ⟨a, j, sd, ha, hj, ⟨hat, hsd⟩, hhas⟩
  · rintro ⟨a, j, sd, ha, hj, ⟨hat, hsd⟩, hhas⟩
    exact ⟨_, _, _, a, j, sd, P.current_of_at hat, ha, hj, hsd, hhas⟩

/-- A chain that waits for nothing has no view outstanding. -/
theorem not_outstandingOf_of_await {net : Net R α} (h : ((s.rank p).chain m).await = none) :
    ¬OutstandingOf net s p m r c := by
  rintro ⟨-, -, -, a, -, -, -, ha, -⟩
  cases h.symm.trans ha

/-- A chain whose sends have completed has no view outstanding. -/
theorem not_outstandingOf_of_sending {net : Net R α} {a : Await R}
    (h : ((s.rank p).chain m).await = some a) (hsending : a.sending = []) :
    ¬OutstandingOf net s p m r c := by
  rintro ⟨-, -, -, a', j, -, -, ha, hj, -⟩
  cases h.symm.trans ha
  rw [hsending] at hj
  cases hj

/-- **A cell of a chain** is in no outstanding view if it is in none of this chain. -/
theorem Layout.Separated.not_outstanding (h : P.Separated foot work)
    (hfoot : foot (s.rank p).stage p m r c)
    (hm : ¬OutstandingOf ⟨n, prog, eager⟩ s p m r c) :
    ¬Outstanding ⟨n, prog, eager⟩ s p r c := by
  rintro ⟨m', hout⟩
  obtain ⟨a, j, sd, -, -, hsend, hhas⟩ := (outstandingOf_iff (P := P)).mp hout
  obtain rfl := h.apart hfoot (h.view hsend r c hhas)
  exact hm hout

/-- **The target of the await point a chain is at** is in no outstanding view. -/
theorem Layout.Separated.not_outstanding_of_target (h : P.Separated foot work) {κ : RecvKey}
    {t : Slice R} (hrecv : P.IsRecv (s.rank p).stage p m ((s.rank p).chain m).pc κ t)
    (hhas : t.Has r c) : ¬Outstanding ⟨n, prog, eager⟩ s p r c := by
  refine h.not_outstanding (h.target hrecv r c hhas) fun hout => ?_
  obtain ⟨a, j, sd, -, -, hsend, hview⟩ := (outstandingOf_iff (P := P)).mp hout
  exact h.own hsend hrecv hview hhas

/-- A receive that waits is that of the await point its chain is at. -/
theorem Steady.isRecv_of_pending (h : Steady P s) {κ : RecvKey} {pr : PendingRecv R Name ℕ}
    (hslot : (s.rank q).node.router.slots κ = some (.pending pr)) :
    ∃ m, P.IsRecv (s.rank q).stage q m ((s.rank q).chain m).pc κ pr.target := by
  obtain ⟨i, m, k, hrecv, -, hstarted, hdone⟩ := h.posts.pending q κ pr hslot
  rcases hstarted.passed_or with hpassed | ⟨rfl, rfl, -⟩
  · have := (h.ranks q hrecv.1.rank).taken i m k κ _ hrecv hpassed
    cases hdone.symm.trans this
  · exact ⟨m, hrecv⟩

variable [DecidableEq R]

omit [DecidableEq R] in
/-- Leaving an await point, a chain stays in its stage. -/
theorem stage_proceed (I : Instr R α) (len : ℕ) :
    ((s.proceed p m I len).rank p).stage = (s.rank p).stage := by
  rw [State.proceed]
  dsimp only
  rw [Function.update_self]
  rfl

omit [DecidableEq R] in
/-- The chain is at its next await point, which it has not started. -/
theorem chain_proceed_self (I : Instr R α) (len : ℕ) :
    ((s.proceed p m I len).rank p).chain m = ⟨((s.rank p).chain m).pc + 1, none⟩ := by
  rw [State.proceed]
  dsimp only
  rw [Function.update_self]
  exact Rank.chain_setChain_self ..

/-- **No event writes what a send may still read**, not even the view of a send it issues. -/
theorem Steady.not_outstanding_of_writes (h : Steady P s) (hsep : P.Separated foot work)
    {e : Event} (hs : AmNet.step ⟨n, prog, eager⟩ s e = some s')
    (hw : Writes ⟨n, prog, eager⟩ work s e q r c) :
    ¬Outstanding ⟨n, prog, eager⟩ s q r c ∧ ¬Outstanding ⟨n, prog, eager⟩ s' q r c := by
  cases hw with
  | @deliver p _ msg _ pr _ _ hchan hslot hhas =>
    obtain ⟨m, hrecv⟩ := h.isRecv_of_pending hslot
    obtain ⟨msg', rest', -, rfl⟩ := step_deliver.mp hs
    refine ⟨hsep.not_outstanding_of_target hrecv hhas, ?_⟩
    -- the chains of the rank are where they were
    set s₁ : State R α := ⟨Function.update s.rank q _, _⟩ with hs₁
    have hrank : s₁.rank q =
        { s.rank q with node := ((s.rank q).node.deliver msg'.key msg'.payload).1 } :=
      Function.update_self ..
    have hrecv' : P.IsRecv (s₁.rank q).stage q m ((s₁.rank q).chain m).pc msg.key pr.target := by
      rw [hrank]
      exact hrecv
    exact hsep.not_outstanding_of_target hrecv' hhas
  | @receive _ m _ _ _ κ t _ _ _ hcur hawait hrecv hslot hhas =>
    obtain ⟨hat, -, -, rfl⟩ := P.current_eq_some.mp hcur
    obtain ⟨-, -, -, ⟨-, rfl⟩ | ⟨a, ha, -, -⟩⟩ := P.step_poll.mp hs
    · refine ⟨hsep.not_outstanding_of_target ⟨hat, hrecv⟩ hhas, ?_⟩
      -- its own send has been issued, and it is still at this await point
      set I := P.instr (s.rank q).stage q m ((s.rank q).chain m).pc with hI
      have hrecv' : P.IsRecv ((s.issue q m I).rank q).stage q m
          (((s.issue q m I).rank q).chain m).pc κ t := by
        rw [rank_issue_self]
        dsimp only
        rw [Rank.chain_setChain_self]
        exact ⟨hat, hrecv⟩
      exact hsep.not_outstanding_of_target hrecv' hhas
    · cases hawait.symm.trans ha
  | @proceed _ m _ _ _ _ _ _ _ hcur hawait hcomplete hwork hhas =>
    obtain ⟨hat, -, -, rfl⟩ := P.current_eq_some.mp hcur
    obtain ⟨-, -, -, ⟨ha, -⟩ | ⟨a', -, -, rfl⟩⟩ := P.step_poll.mp hs
    · cases hawait.symm.trans ha
    · have hfoot := hsep.works hat hwork r c hhas
      refine ⟨hsep.not_outstanding hfoot (not_outstandingOf_of_sending hawait hcomplete.1), ?_⟩
      -- it waits for nothing before it is polled again
      set s₁ := s.proceed q m (P.instr (s.rank q).stage q m ((s.rank q).chain m).pc)
        (P.len (s.rank q).stage q m) with hs₁
      have hstage : (s₁.rank q).stage = (s.rank q).stage := by rw [hs₁, stage_proceed]
      have hnone : ((s₁.rank q).chain m).await = none := by rw [hs₁, chain_proceed_self]
      exact hsep.not_outstanding (hstage ▸ hfoot) (not_outstandingOf_of_await hnone)

omit [DecidableEq R] in
/-- A cell of a rank, if one rank is replaced by one that has the same there. -/
theorem heap_update {x : Rank R α} (h : q = p → x.node.heap r c = (s.rank q).node.heap r c) :
    (Function.update s.rank p x q).node.heap r c = (s.rank q).node.heap r c := by
  rcases eq_or_ne q p with rfl | hne
  · rw [Function.update_self]
    exact h rfl
  · rw [Function.update_of_ne hne]

/-- A first poll writes the target of its receive, if the message is there. -/
theorem Rank.heap_pollRecv {x : Rank R α} {I : Instr R α}
    (hdone : x.node.done (x.stage, m, (x.chain m).pc) = false)
    (hno : ∀ κ t e, I.recv = some (κ, t) → x.node.router.slots κ = some (.early e) → ¬t.Has r c) :
    (x.pollRecv m I).2.heap r c = x.node.heap r c := by
  rcases Rank.pollRecv_cases (i := I) hdone with ⟨-, h⟩ | ⟨κ, t, hrecv, ⟨e, hslot, h⟩ | ⟨-, h⟩⟩
  · rw [h]
  · rw [h]
    exact Heap.copyInto_of_not_has _ _ (hno κ t e hrecv hslot)
  · rw [h]

/-- **What an event does not write is as it was.** -/
theorem Steady.heap_eq_of_not_writes (h : Steady P s) (hsep : P.Separated foot work) {e : Event}
    (hs : AmNet.step ⟨n, prog, eager⟩ s e = some s')
    (hw : ¬Writes ⟨n, prog, eager⟩ work s e q r c) :
    (s'.rank q).node.heap r c = (s.rank q).node.heap r c := by
  rcases e with p | ⟨p, m⟩ | ⟨p, m, j⟩ | ⟨p, q'⟩ | p
  · obtain ⟨-, -, -, -, rfl⟩ := P.step_launch.mp hs
    exact heap_update (by rintro rfl; rfl)
  · obtain ⟨hat, -, -, ⟨hawait, rfl⟩ | ⟨a, hawait, hcomplete, rfl⟩⟩ := P.step_poll.mp hs
    · refine heap_update ?_
      rintro rfl
      have hdone := (h.ranks q hat.rank).done_eq_false hawait
      exact Rank.heap_pollRecv hdone fun κ t e hrecv hslot hhas =>
        hw (.receive (P.current_of_at hat) hawait hrecv hslot hhas)
    · refine heap_update ?_
      rintro rfl
      exact hsep.frame hat (fun w hwork hhas =>
        hw (.proceed (P.current_of_at hat) hawait hcomplete hwork hhas)) _
  · obtain ⟨a, sd, -, -, -, -, rfl⟩ := P.step_sent.mp hs
    exact heap_update (by rintro rfl; rfl)
  · obtain ⟨msg, rest, hchan, rfl⟩ := step_deliver.mp hs
    refine heap_update ?_
    rintro rfl
    dsimp only
    rcases hslot : (s.rank q).node.router.slots msg.key with - | pr | e
    · rw [Node.deliver_vacant hslot]
    · rw [Node.deliver_pending hslot]
      exact Heap.copyInto_of_not_has _ _ fun hhas => hw (.deliver hchan hslot hhas)
    · rw [Node.deliver_early hslot]
  · obtain ⟨-, -, -, -, rfl⟩ := P.step_advance.mp hs
    exact heap_update (by rintro rfl; rfl)

end Views

end AmNet

end Pluvio
