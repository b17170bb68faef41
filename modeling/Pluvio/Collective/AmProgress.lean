import Mathlib.Algebra.BigOperators.Intervals
import Mathlib.Algebra.BigOperators.Ring.Finset
import Mathlib.Algebra.Order.BigOperators.Group.Finset
import Pluvio.Collective.AmInvariant

/-!
# No rank waits forever

Under the invariant of `Pluvio.AmNet.Inv` a state in which nothing can happen is
final (`Pluvio.AmNet.Inv.not_stuck`), and every run comes to such a state
(`Pluvio.AmNet.exists_stuck`), so that all runs end (`Pluvio.AmNet.Layout.Matched.terminates`).

The first is an argument on who is furthest behind. In a stuck state the channels
are empty, so a rank that waits for a message waits for a send that has not been
issued (`Pluvio.AmNet.Inv.waits`). Its sender is in an earlier stage, or in the
same stage with an earlier chain unfinished, or at an earlier time of the same
chain. A window that is full does no harm, because the first unfinished chain of a
rank is always in flight (`Pluvio.AmNet.Local.busy`) and receives and sends are
matched chain by chain.
-/

namespace Pluvio

namespace AmNet

variable {R α : Type*} [DecidableEq R] {n : ℕ} {prog : ℕ → List (Stage R α)} {P : Layout n prog}
  {eager : ℕ → Name → ℕ → Bool} {s : State R α} {time : ℕ → ℕ → ℕ → ℕ → ℕ} {p m : ℕ}

/-- The event can happen. -/
def Enabled (net : Net R α) (s : State R α) (e : Event) : Prop := ∃ s', step net s e = some s'

/-! ### A rank that can do nothing by itself -/

/-- **A rank that can neither push a chain nor leave its stage** waits for its first
unfinished chain, which has been pushed. -/
theorem Local.busy (h : Local P p (s.rank p)) (eager : ℕ → Name → ℕ → Bool) (hp : p < n)
    (hi : (s.rank p).stage < P.stages) :
    Enabled ⟨n, prog, eager⟩ s (.launch p) ∨ Enabled ⟨n, prog, eager⟩ s (.advance p) ∨
      P.Pumping (s.rank p) ∧ ∃ m < (s.rank p).launched,
        P.At (s.rank p).stage p m ((s.rank p).chain m).pc ∧
          ∀ m' < m, ((s.rank p).chain m').pc = P.len (s.rank p).stage p m' := by
  have hle := h.launched_le hi
  have hcard := h.reaped_eq hi
  by_cases hex : ∃ m < (s.rank p).launched, ((s.rank p).chain m).pc ≠ P.len (s.rank p).stage p m
  · by_cases hpump : P.Pumping (s.rank p)
    · -- the least unfinished chain
      classical
      obtain ⟨hm, hne⟩ := Nat.find_spec hex
      refine .inr (.inr ⟨hpump, Nat.find hex, hm, ⟨hi, hp, by omega, ?_⟩, fun m' hm' => ?_⟩)
      · exact Nat.lt_of_le_of_ne (h.pc_le hi _ (by omega)) hne
      · by_contra hne'
        exact Nat.find_min hex hm' ⟨by omega, hne'⟩
    · unfold Layout.Pumping at hpump
      have hw := h.window hi
      exact .inl ⟨_, P.step_launch.mpr ⟨hp, hi, by omega, by omega, rfl⟩⟩
  · -- all that have been pushed have returned
    have hreaped : (s.rank p).reaped = (s.rank p).launched := by
      rw [hcard, Finset.filter_true_of_mem, Finset.card_range]
      intro m hm
      by_contra hne
      exact hex ⟨m, Finset.mem_range.mp hm, hne⟩
    by_cases hl : (s.rank p).launched = P.width (s.rank p).stage
    · exact .inr (.inl ⟨_, P.step_advance.mpr ⟨hp, hi, hl, hreaped.trans hl, rfl⟩⟩)
    · have hpos := P.window_pos _ hi
      refine .inl ⟨_, P.step_launch.mpr ⟨hp, hi, by omega, ?_, rfl⟩⟩
      rw [Rank.inFlight, hreaped, Nat.sub_self]
      exact hpos

/-- A chain that has not been polled can be polled. -/
theorem enabled_poll (hat : P.At (s.rank p).stage p m ((s.rank p).chain m).pc)
    (hm : m < (s.rank p).launched) (hpump : P.Pumping (s.rank p))
    (hawait : ((s.rank p).chain m).await = none) :
    Enabled ⟨n, prog, eager⟩ s (.poll p m) :=
  ⟨_, P.step_poll.mpr ⟨hat, hm, hpump, .inl ⟨hawait, rfl⟩⟩⟩

/-- **What a chain waits for**: a send of its own that is still on its channel, or a
message that is on its channel or has not been issued. -/
theorem Inv.waits (h : Inv P s) (eager : ℕ → Name → ℕ → Bool) (hM : P.Matched time)
    (hat : P.At (s.rank p).stage p m ((s.rank p).chain m).pc) (hm : m < (s.rank p).launched)
    (hpump : P.Pumping (s.rank p)) : Enabled ⟨n, prog, eager⟩ s (.poll p m) ∨
      (∃ j, Enabled ⟨n, prog, eager⟩ s (.sent p m j)) ∨
        (∃ j q, eager p ((s.rank p).stage, m, ((s.rank p).chain m).pc) j = false ∧
          s.chan p q ≠ []) ∨
          ∃ p' k', P.At (s.rank p).stage p' m k' ∧
            time (s.rank p).stage p' m k' ≤ time (s.rank p).stage p m ((s.rank p).chain m).pc ∧
              (s.chan p' p ≠ [] ∨ ¬(s.rank p').Started (s.rank p).stage m k') := by
  have hlocal := h.ranks p hat.rank
  rcases hawait : ((s.rank p).chain m).await with - | a
  · exact .inl (enabled_poll hat hm hpump hawait)
  rcases hsending : a.sending with - | ⟨j, rest⟩
  · -- all its sends have completed
    by_cases hcomplete : a.Complete (s.rank p).node m
    · exact .inl ⟨_, P.step_poll.mpr ⟨hat, hm, hpump, .inr ⟨a, hawait, hcomplete, rfl⟩⟩⟩
    refine .inr (.inr (.inr ?_))
    rcases hrecv : (P.instr (s.rank p).stage p m ((s.rank p).chain m).pc).recv with - | ⟨κ, t⟩
    · refine absurd ⟨hsending, fun fut hfut => ?_⟩ hcomplete
      rw [hlocal.recv_none m a hawait hrecv] at hfut
      cases hfut
    obtain ⟨fut, hfut, -, hd, -, hpolled⟩ := hlocal.recv_some m a κ t hawait hrecv
    have hnot : (s.rank p).node.done ((s.rank p).stage, m, ((s.rank p).chain m).pc) = false := by
      by_contra hdone
      refine hcomplete ⟨hsending, fun fut' hfut' => ?_⟩
      cases hfut.symm.trans hfut'
      exact (poll_ready_iff hpolled).mpr (hd ▸ Bool.eq_true_of_not_eq_false hdone)
    obtain ⟨p', k', j, sd, hsend, rfl, rfl, htime⟩ := hM.sender ⟨hat, hrecv⟩
    refine ⟨p', k', hsend.1, htime, ?_⟩
    by_cases hst : (s.rank p').Started (s.rank sd.dst).stage m k'
    · -- it has been issued, it is not early, and it has not been taken
      refine .inl fun hempty => ?_
      obtain ⟨w, hslot⟩ := h.messages.posted _ _ m _ sd.key t ⟨hat, hrecv⟩
        (.inr ⟨rfl, .inr ⟨rfl, by rw [hawait]; rfl⟩⟩) hnot
      rcases h.messages.kept _ p' sd.dst sd.key ⟨m, k', j, sd, hsend, rfl, rfl, hst⟩ with
        ⟨msg, hmem, -⟩ | ⟨e, he, -⟩ | ⟨m', k'', t', hrecv', hdone⟩
      · rw [hempty] at hmem
        cases hmem
      · cases hslot.symm.trans he
      · obtain ⟨rfl, rfl⟩ := hM.recv_unique hrecv' ⟨hat, hrecv⟩
        rw [hnot] at hdone
        cases hdone
    · exact .inr hst
  · -- its first send that has not
    have hmem : j ∈ a.sending := hsending ▸ List.mem_cons_self
    obtain ⟨sd, hsd⟩ : ∃ sd, (P.instr (s.rank p).stage p m
        ((s.rank p).chain m).pc).sends[j]? = some sd :=
      ⟨_, List.getElem?_eq_getElem (hlocal.sending m a j hawait hmem)⟩
    rcases Bool.eq_false_or_eq_true
      (eager p ((s.rank p).stage, m, ((s.rank p).chain m).pc) j) with heager | heager
    · exact .inr (.inl ⟨j, _, P.step_sent.mpr
        ⟨a, _, hawait, ⟨hat, hsd⟩, hmem, .inl heager, rfl⟩⟩)
    · by_cases hoff : s.OffChannel p sd
      · exact .inr (.inl ⟨j, _, P.step_sent.mpr
          ⟨a, _, hawait, ⟨hat, hsd⟩, hmem, .inr hoff, rfl⟩⟩)
      · refine .inr (.inr (.inl ⟨j, sd.dst, heager, fun hempty => hoff ?_⟩))
        intro msg hmsg
        rw [hempty] at hmsg
        cases hmsg

/-! ### A state in which nothing can happen -/

/-- What is not enabled does not happen. -/
theorem not_enabled (hstuck : Stuck (step ⟨n, prog, eager⟩) s) (e : Event) :
    ¬Enabled ⟨n, prog, eager⟩ s e := by
  rintro ⟨s', hs⟩
  rw [hstuck e] at hs
  cases hs

/-- In a stuck state all messages have been delivered. -/
theorem chan_eq_nil (hstuck : Stuck (step ⟨n, prog, eager⟩) s) (p q : ℕ) : s.chan p q = [] := by
  rcases hchan : s.chan p q with - | ⟨msg, rest⟩
  · rfl
  · exact absurd ⟨_, step_deliver.mpr ⟨msg, rest, hchan, rfl⟩⟩ (not_enabled hstuck (.deliver p q))

/-- **In a stuck state no rank waits in a stage**, if no rank waits in an earlier
one. -/
theorem Inv.not_stuck_at (h : Inv P s) (hM : P.Matched time)
    (hstuck : Stuck (AmNet.step ⟨n, prog, eager⟩) s) {i : ℕ} (hi : i < P.stages)
    (hbefore : ∀ p < n, ¬(s.rank p).stage < i) (t : ℕ) {p : ℕ} (hp : p < n)
    (hpi : (s.rank p).stage = i) (m : ℕ) (hm : m < (s.rank p).launched)
    (hat : P.At i p m ((s.rank p).chain m).pc)
    (hfirst : ∀ m' < m, ((s.rank p).chain m').pc = P.len i p m')
    (ht : time i p m ((s.rank p).chain m).pc = t) : False := by
  -- by the chain, and then by the time
  induction m using Nat.strong_induction_on generalizing p t with
  | _ m ihm =>
  induction t using Nat.strong_induction_on generalizing p with
  | _ t iht =>
  subst hpi
  have hbusy : ∀ {p'}, p' < n → (s.rank p').stage = (s.rank p).stage → _ := fun hp' hst =>
    ((h.ranks _ hp').busy eager hp' (hst ▸ hi)).resolve_left
      (not_enabled hstuck _) |>.resolve_left (not_enabled hstuck _)
  rcases h.waits eager hM hat hm (hbusy hp rfl).1 with
    hen | ⟨j, hen⟩ | ⟨j, q, -, hne⟩ | ⟨p', k', hat', htime, hne | hnot⟩
  · exact not_enabled hstuck _ hen
  · exact not_enabled hstuck _ hen
  · exact hne (chan_eq_nil hstuck p q)
  · exact hne (chan_eq_nil hstuck p' p)
  · -- the sender has not come to its send
    have hp' := hat'.rank
    rcases Nat.lt_trichotomy (s.rank p').stage (s.rank p).stage with hlt | heq | hgt
    · exact hbefore p' hp' hlt
    · obtain ⟨hpump, m', hm', hat'', hfirst'⟩ := hbusy hp' heq
      rw [heq] at hat'' hfirst'
      have hpc : ((s.rank p').chain m).pc ≤ k' := by
        by_contra hlt
        exact hnot (.inr ⟨heq.symm, .inl (by omega)⟩)
      rcases Nat.lt_trichotomy m' m with hlt | rfl | hgt
      · exact ihm m' hlt _ hp' heq hm' hat'' hfirst' rfl
      · rcases Nat.lt_or_eq_of_le hpc with hlt | hk
        · have hearlier := hM.time_lt (i := (s.rank p).stage) (p := p') (m := m') hlt
          exact iht _ (by omega) hp' heq hm' hat'' hfirst' rfl
        · -- it is there, and has not been polled
          refine not_enabled hstuck _ (enabled_poll (by rw [heq]; exact hat'') hm' hpump ?_)
          by_contra hawait
          exact hnot (.inr ⟨heq.symm, .inr ⟨hk.symm, Option.isSome_iff_ne_none.mpr hawait⟩⟩)
      · have hend := hfirst' m hgt
        have hpos := hat'.pos
        omega
    · exact hnot (.inl hgt)

/-- **A state that is not final is not stuck.** -/
theorem Inv.not_stuck (h : Inv P s) (hM : P.Matched time)
    (hstuck : Stuck (AmNet.step ⟨n, prog, eager⟩) s) : Final ⟨n, prog, eager⟩ s := by
  have hall : ∀ i, i < P.stages → ∀ p < n, (s.rank p).stage ≠ i := by
    intro i
    induction i using Nat.strong_induction_on with
    | _ i ih =>
    intro hi p hp hpi
    obtain ⟨-, m, hm, hat, hfirst⟩ := ((h.ranks p hp).busy eager hp (hpi ▸ hi)
      ).resolve_left (not_enabled hstuck _) |>.resolve_left (not_enabled hstuck _)
    rw [hpi] at hat hfirst
    exact h.not_stuck_at hM hstuck hi (fun p' hp' hlt => ih _ hlt (by omega) p' hp' rfl) _ hp hpi
      m hm hat hfirst rfl
  intro p hp
  have hle := (h.ranks p hp).stage_le
  have hne : ¬(s.rank p).stage < P.stages := fun hlt => hall _ hlt p hp rfl
  show (s.rank p).stage = (prog p).length
  rw [P.length_prog hp]
  omega

/-! ### Runs end -/

section Measure

omit [DecidableEq R]

open Finset

/-- A sum over a function one value of which is replaced. -/
theorem sum_update {β : Type*} (F : ℕ → β → ℕ) (g : ℕ → β) {k N : ℕ} (hk : k < N) (b : β) :
    (∑ j ∈ range N, F j (Function.update g k b j)) + F k (g k) =
      (∑ j ∈ range N, F j (g j)) + F k b := by
  have hmem := mem_range.mpr hk
  rw [← add_sum_erase _ _ hmem, ← add_sum_erase _ (fun j => F j (g j)) hmem,
    Function.update_self]
  have hrest : ∑ j ∈ (range N).erase k, F j (Function.update g k b j) =
      ∑ j ∈ (range N).erase k, F j (g j) :=
    sum_congr rfl fun j hj => by rw [Function.update_of_ne (ne_of_mem_erase hj)]
  rw [hrest]
  omega

/-- Elements sorted by a number below `N` are no more than they were. -/
theorem sum_length_filter_le {β : Type*} (f : β → ℕ) (l : List β) (N : ℕ) :
    ∑ q ∈ range N, (l.filter fun b => f b = q).length ≤ l.length := by
  induction l with
  | nil => simp
  | cons b l ih =>
    have hsplit : ∀ q, ((b :: l).filter fun b => f b = q).length =
        (if f b = q then 1 else 0) + (l.filter fun b => f b = q).length := by
      intro q
      by_cases hq : f b = q
      · rw [List.filter_cons_of_pos (by simpa using hq), if_pos hq, List.length_cons, Nat.add_comm]
      · rw [List.filter_cons_of_neg (by simpa using hq), if_neg hq, Nat.zero_add]
    simp only [hsplit, sum_add_distrib, sum_ite_eq, List.length_cons]
    split <;> omega

variable (P)

/-- What an await point takes: a poll at its start and one at its end, and two events
for each message. -/
def Layout.instrWork (i p m k : ℕ) : ℕ := 2 + 2 * (P.instr i p m k).sends.length

/-- What is left of a chain. -/
def Layout.chainWork (i p m : ℕ) (c : Chain R) : ℕ :=
  match c.await with
  | none => ∑ k ∈ Ico c.pc (P.len i p m), P.instrWork i p m k
  | some a => 1 + a.sending.length + ∑ k ∈ Ico (c.pc + 1) (P.len i p m), P.instrWork i p m k

/-- The events that a stage of a rank takes. -/
def Layout.stageWork (i p : ℕ) : ℕ :=
  1 + P.width i + ∑ m ∈ range (P.width i), P.chainWork i p m .new

/-- What is left of a rank's program. -/
def Layout.rankWork (p : ℕ) (r : Rank R α) : ℕ :=
  if r.stage < P.stages then
    1 + (P.width r.stage - r.launched) +
      ∑ m ∈ range (P.width r.stage), P.chainWork r.stage p m (r.chain m) +
        ∑ i ∈ Ico (r.stage + 1) P.stages, P.stageWork i p
  else 0

/-- What is left of a run. -/
def Layout.work (s : State R α) : ℕ :=
  ∑ p ∈ range n, P.rankWork p (s.rank p) +
    ∑ p ∈ range n, ∑ q ∈ range n, (s.chan p q).length

variable {P}

/-- Messages are between the ranks. -/
def Closed (n : ℕ) (s : State R α) : Prop := ∀ p q, s.chan p q ≠ [] → p < n ∧ q < n

/-- A rank that does less has less to do. -/
theorem Layout.work_update_lt {r : Rank R α} (hp : p < n)
    (hlt : P.rankWork p r < P.rankWork p (s.rank p)) :
    P.work { s with rank := Function.update s.rank p r } < P.work s := by
  have hsum := sum_update P.rankWork s.rank hp r
  unfold Layout.work
  dsimp only
  omega

/-- The work of a chain at an await point that has not been polled. -/
theorem Layout.chainWork_none {i : ℕ} {c : Chain R} (hlt : c.pc < P.len i p m)
    (hawait : c.await = none) : P.chainWork i p m c = P.instrWork i p m c.pc +
      ∑ k ∈ Ico (c.pc + 1) (P.len i p m), P.instrWork i p m k := by
  rw [Layout.chainWork, hawait]
  exact sum_eq_sum_Ico_succ_bot hlt _

/-- The work of a chain in its await point. -/
theorem Layout.chainWork_some {i : ℕ} {c : Chain R} {a : Await R} (hawait : c.await = some a) :
    P.chainWork i p m c = 1 + a.sending.length +
      ∑ k ∈ Ico (c.pc + 1) (P.len i p m), P.instrWork i p m k := by
  rw [Layout.chainWork, hawait]

/-- The work of a rank in a stage. -/
theorem Layout.rankWork_of_lt {r : Rank R α} (hi : r.stage < P.stages) : P.rankWork p r =
    1 + (P.width r.stage - r.launched) +
      ∑ m ∈ range (P.width r.stage), P.chainWork r.stage p m (r.chain m) +
        ∑ i ∈ Ico (r.stage + 1) P.stages, P.stageWork i p := by
  rw [Layout.rankWork, if_pos hi]

/-- **A chain replaced** by one with less to do. -/
theorem Layout.rankWork_setChain {r : Rank R α} (hi : r.stage < P.stages)
    (hm : m < P.width r.stage) (c : Chain R) (reaped : ℕ) (node : Node R Name ℕ α ℕ) :
    P.rankWork p { r.setChain m c with reaped := reaped, node := node } +
        P.chainWork r.stage p m (r.chain m) = P.rankWork p r + P.chainWork r.stage p m c := by
  have hsum := sum_update (P.chainWork r.stage p) r.chain hm c
  have hnew : P.rankWork p { r.setChain m c with reaped := reaped, node := node } =
      1 + (P.width r.stage - r.launched) +
        ∑ m' ∈ range (P.width r.stage),
          P.chainWork r.stage p m' (Function.update r.chain m c m') +
          ∑ i ∈ Ico (r.stage + 1) P.stages, P.stageWork i p := if_pos hi
  have hold := P.rankWork_of_lt (p := p) hi
  omega

/-- A chain pushed is one less to push. -/
theorem Layout.rankWork_launch_lt {r : Rank R α} (hi : r.stage < P.stages)
    (hl : r.launched < P.width r.stage) :
    P.rankWork p { r with launched := r.launched + 1 } < P.rankWork p r := by
  have hold := P.rankWork_of_lt (p := p) hi
  have hnew := P.rankWork_of_lt (p := p) (r := { r with launched := r.launched + 1 }) hi
  dsimp only at hnew
  omega

/-- **A stage left**: the work of the next one was counted. -/
theorem Layout.rankWork_advance_lt {r : Rank R α} (hi : r.stage < P.stages)
    (node : Node R Name ℕ α ℕ) :
    P.rankWork p ⟨r.stage + 1, 0, 0, fun _ => .new, node⟩ < P.rankWork p r := by
  have hold := P.rankWork_of_lt (p := p) hi
  by_cases hi' : r.stage + 1 < P.stages
  · have hnew := P.rankWork_of_lt (p := p)
      (r := (⟨r.stage + 1, 0, 0, fun _ => .new, node⟩ : Rank R α)) hi'
    have hsplit := sum_eq_sum_Ico_succ_bot hi' fun i => P.stageWork i p
    have hstage : P.stageWork (r.stage + 1) p = 1 + P.width (r.stage + 1) +
      ∑ m ∈ range (P.width (r.stage + 1)), P.chainWork (r.stage + 1) p m .new := rfl
    dsimp only at hnew
    omega
  · have hnew : P.rankWork p ⟨r.stage + 1, 0, 0, fun _ => .new, node⟩ = 0 := if_neg hi'
    omega

/-- **A message delivered** is one less on the channels. -/
theorem Layout.work_deliver_lt {s' : State R α} {q : ℕ} {msg : Message α}
    {rest : List (Message α)} (hp : p < n) (hq : q < n) (hchan : s.chan p q = msg :: rest)
    (hrank : ∀ r, P.rankWork r (s'.rank r) = P.rankWork r (s.rank r))
    (hchan' : s'.chan = fun p' q' => if p' = p ∧ q' = q then rest else s.chan p' q') :
    P.work s' < P.work s := by
  have hupdate : s'.chan = Function.update s.chan p (Function.update (s.chan p) q rest) := by
    funext p' q'
    rw [hchan', Function.update_apply]
    dsimp only
    by_cases hp' : p' = p
    · subst hp'
      rw [if_pos rfl, Function.update_apply]
      simp only [true_and]
    · rw [if_neg hp', if_neg fun hc => hp' hc.1]
  have hrow := sum_update (fun _ row => ∑ q ∈ range n, (row q : List (Message α)).length)
    s.chan hp (Function.update (s.chan p) q rest)
  have hcell := sum_update (fun _ l => (l : List (Message α)).length) (s.chan p) hq rest
  rw [hchan, List.length_cons] at hcell
  rw [Layout.work, Layout.work, hupdate, sum_congr rfl fun r _ => hrank r]
  omega

variable [DecidableEq R] {s' : State R α}

/-- **The messages of an await point** come out of its work. -/
theorem Layout.work_issue_lt (hat : P.At (s.rank p).stage p m ((s.rank p).chain m).pc)
    (hawait : ((s.rank p).chain m).await = none) :
    P.work (s.issue p m (P.instr (s.rank p).stage p m ((s.rank p).chain m).pc)) < P.work s := by
  set I := P.instr (s.rank p).stage p m ((s.rank p).chain m).pc with hI
  have hrank : (s.issue p m I).rank =
      Function.update s.rank p ((s.issue p m I).rank p) := by
    rw [rank_issue_self]
    rfl
  have hchan : (s.issue p m I).chan = Function.update s.chan p fun q => s.chan p q ++
      (I.sends.filter fun sd => sd.dst = q).map fun sd => sd.message (s.rank p) := by
    funext p' q
    rw [chan_issue, Function.update_apply]
    split <;> rfl
  -- the rank
  have hsum := sum_update P.rankWork s.rank hat.rank ((s.issue p m I).rank p)
  have hchain : P.rankWork p ((s.issue p m I).rank p) + P.chainWork (s.rank p).stage p m
      ((s.rank p).chain m) = P.rankWork p (s.rank p) + P.chainWork (s.rank p).stage p m
        ⟨((s.rank p).chain m).pc, some ⟨List.range I.sends.length,
          ((s.rank p).pollRecv m I).1⟩⟩ := by
    rw [rank_issue_self]
    exact Layout.rankWork_setChain hat.stage hat.chain _ (s.rank p).reaped _
  have hold := P.chainWork_none hat.pos hawait
  have hnew := P.chainWork_some (p := p) (m := m) (i := (s.rank p).stage)
    (c := ⟨((s.rank p).chain m).pc, some ⟨List.range I.sends.length,
      ((s.rank p).pollRecv m I).1⟩⟩) rfl
  rw [Layout.instrWork, ← hI] at hold
  rw [List.length_range] at hnew
  -- its channels
  have hmsgs := sum_length_filter_le Send.dst I.sends n
  have hrow := sum_update (fun _ row => ∑ q ∈ range n, (row q : List (Message α)).length)
    s.chan hat.rank fun q => s.chan p q ++
      (I.sends.filter fun sd => sd.dst = q).map fun sd => sd.message (s.rank p)
  simp only [List.length_append, List.length_map, sum_add_distrib] at hrow
  rw [Layout.work, Layout.work, hrank, hchan]
  dsimp only at hnew
  omega

/-- Messages are issued to the ranks. -/
theorem Closed.issue (hc : Closed n s) (hp : p < n) (i : Instr R α)
    (hdst : ∀ sd ∈ i.sends, sd.dst < n) : Closed n (s.issue p m i) := by
  intro p' q hne
  rw [chan_issue] at hne
  by_cases hp' : p' = p
  · subst hp'
    rw [if_pos rfl] at hne
    refine ⟨hp, ?_⟩
    by_cases hnil : s.chan p' q = []
    · rw [hnil, List.nil_append, Ne, List.map_eq_nil_iff] at hne
      obtain ⟨sd, hsd⟩ := List.exists_mem_of_ne_nil _ hne
      obtain ⟨hsd, hd⟩ := List.mem_filter.mp hsd
      exact of_decide_eq_true hd ▸ hdst sd hsd
    · exact (hc p' q hnil).2
  · rw [if_neg hp'] at hne
    exact hc p' q hne

/-- Messages stay between the ranks. -/
theorem Layout.closed_step (hdst : ∀ {i p m k j sd}, P.IsSend i p m k j sd → sd.dst < n)
    (hc : Closed n s) {e : Event} (hs : step ⟨n, prog, eager⟩ s e = some s') : Closed n s' := by
  rcases e with p | ⟨p, m⟩ | ⟨p, m, j⟩ | ⟨p, q⟩ | p
  · obtain ⟨-, -, -, -, rfl⟩ := P.step_launch.mp hs
    exact hc
  · obtain ⟨hat, -, -, ⟨-, rfl⟩ | ⟨a, -, -, rfl⟩⟩ := P.step_poll.mp hs
    · refine hc.issue hat.rank _ fun sd hsd => ?_
      obtain ⟨j, hj⟩ := List.mem_iff_getElem?.mp hsd
      exact hdst ⟨hat, hj⟩
    · exact hc
  · obtain ⟨a, sd, -, -, -, -, rfl⟩ := P.step_sent.mp hs
    exact hc
  · obtain ⟨msg, rest, hchan, rfl⟩ := step_deliver.mp hs
    intro p' q' hne
    dsimp only at hne
    split at hne
    · next heq =>
      exact heq.1 ▸ heq.2 ▸ hc p q (by rw [hchan]; exact List.cons_ne_nil _ _)
    · exact hc p' q' hne
  · obtain ⟨-, -, -, -, rfl⟩ := P.step_advance.mp hs
    exact hc

/-- **Every step does some of the work.** -/
theorem Layout.work_lt (hc : Closed n s) {e : Event}
    (hs : step ⟨n, prog, eager⟩ s e = some s') : P.work s' < P.work s := by
  rcases e with p | ⟨p, m⟩ | ⟨p, m, j⟩ | ⟨p, q⟩ | p
  · obtain ⟨hp, hi, hl, -, rfl⟩ := P.step_launch.mp hs
    exact P.work_update_lt hp (P.rankWork_launch_lt hi hl)
  · obtain ⟨hat, -, -, ⟨hawait, rfl⟩ | ⟨a, hawait, -, rfl⟩⟩ := P.step_poll.mp hs
    · exact P.work_issue_lt hat hawait
    · -- the chain is past its await point
      refine P.work_update_lt hat.rank ?_
      have hchain := Layout.rankWork_setChain (p := p) hat.stage hat.chain
        ⟨((s.rank p).chain m).pc + 1, none⟩ ((s.rank p).reaped +
          if ((s.rank p).chain m).pc + 1 = P.len (s.rank p).stage p m then 1 else 0)
        { (s.rank p).node with heap := (P.instr (s.rank p).stage p m
          ((s.rank p).chain m).pc).after (s.rank p).node.heap }
      have hold := P.chainWork_some (p := p) (m := m) (i := (s.rank p).stage) hawait
      have hnew : P.chainWork (s.rank p).stage p m ⟨((s.rank p).chain m).pc + 1, none⟩ =
          ∑ k ∈ Ico (((s.rank p).chain m).pc + 1) (P.len (s.rank p).stage p m),
            P.instrWork (s.rank p).stage p m k := rfl
      omega
  · obtain ⟨a, sd, hawait, hsend, hj, -, rfl⟩ := P.step_sent.mp hs
    refine P.work_update_lt hsend.1.rank ?_
    have hchain := Layout.rankWork_setChain (p := p) hsend.1.stage hsend.1.chain
      ⟨((s.rank p).chain m).pc, some { a with sending := a.sending.erase j }⟩
      (s.rank p).reaped (s.rank p).node
    have hlen := List.length_erase_of_mem hj
    have hpos := List.length_pos_of_mem hj
    have hold := P.chainWork_some (p := p) (m := m) (i := (s.rank p).stage) hawait
    have hnew : P.chainWork (s.rank p).stage p m ⟨((s.rank p).chain m).pc,
        some { a with sending := a.sending.erase j }⟩ = 1 + (a.sending.erase j).length +
          ∑ k ∈ Ico (((s.rank p).chain m).pc + 1) (P.len (s.rank p).stage p m),
            P.instrWork (s.rank p).stage p m k := rfl
    show P.rankWork p { (s.rank p).setChain m _ with
      reaped := (s.rank p).reaped, node := (s.rank p).node } < _
    omega
  · obtain ⟨msg, rest, hchan, rfl⟩ := step_deliver.mp hs
    obtain ⟨hp, hq⟩ := hc p q (by rw [hchan]; exact List.cons_ne_nil _ _)
    refine P.work_deliver_lt hp hq hchan (fun r => ?_) rfl
    -- what the node of a rank holds is no work
    dsimp only
    by_cases hr : r = q
    · subst hr
      rw [Function.update_self]
      rfl
    · rw [Function.update_of_ne hr]
  · obtain ⟨hp, hi, -, -, rfl⟩ := P.step_advance.mp hs
    exact P.work_update_lt hp (P.rankWork_advance_lt hi _)

/-- **No run is longer than the work there is.** -/
theorem length_le_work (P : Layout n prog)
    (hdst : ∀ {i p m k j sd}, P.IsSend i p m k j sd → sd.dst < n) (hc : Closed n s)
    {es : List Event} (hrun : runList (step ⟨n, prog, eager⟩) s es = some s') :
    es.length ≤ P.work s :=
  length_le_of_measure (P := Closed n)
    (fun _ _ _ hc hs => ⟨P.closed_step hdst hc hs, P.work_lt hc hs⟩) hc hrun

omit [DecidableEq R] in
/-- In a matched layout messages go to ranks. -/
theorem Layout.Matched.dst_lt (hM : P.Matched time) {i k j : ℕ} {sd : Send R}
    (h : P.IsSend i p m k j sd) : sd.dst < n := by
  obtain ⟨k', t, hrecv⟩ := hM.receiver h
  exact hrecv.1.rank

/-- **Every run ends with all ranks at their ends**, if the invariant holds along all of them. -/
theorem Layout.Matched.terminates (hM : P.Matched time) {heap : ℕ → Heap R α}
    (hinv : ∀ s, Reaches (step ⟨n, prog, eager⟩) (start heap) s → Inv P s) :
    Terminates (step ⟨n, prog, eager⟩) (Final ⟨n, prog, eager⟩) (start heap) where
  bounded := ⟨P.work (start heap), fun _ _ hrun =>
    length_le_work P hM.dst_lt (fun _ _ hne => absurd rfl hne) hrun⟩
  good s hs hstuck := (hinv s hs).not_stuck hM hstuck

/-- **Every state has a run from it to one where nothing can happen**, also under a
guard that excludes events. -/
theorem exists_stuck (hdst : ∀ {i p m k j sd}, P.IsSend i p m k j sd → sd.dst < n)
    (ok : State R α → Event → Prop) (hc : Closed n s) :
    ∃ s', Steps (step ⟨n, prog, eager⟩) ok s s' ∧
      ∀ e, ok s' e → step ⟨n, prog, eager⟩ s' e = none := by
  obtain ⟨s', hsteps, -, hstuck⟩ := Steps.exists_stuck (μ := P.work)
    (fun s e s' hc _ hs => ⟨P.closed_step hdst hc hs, P.work_lt hc hs⟩) hc
  exact ⟨s', hsteps, hstuck⟩

end Measure

end AmNet

end Pluvio
