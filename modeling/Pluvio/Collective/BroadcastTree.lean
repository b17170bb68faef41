import Pluvio.Collective.AmLog
import Pluvio.Collective.Rooted

/-!
# One broadcast

The messages of a single broadcast. A rank computes by itself whom to send to, and by
itself whom to expect a message from: the first by setting a bit of its place counted
from the root, the second by clearing the highest one. `Pluvio.bcastEdge` is what the
receiver expects. `Pluvio.bcastEdge_of_isSend` says that this is what is sent, so that
the messages of a call are the edges of one tree (`Pluvio.bcastEdges`), which has all
ranks but the root at their lower ends.

What the ranks hold is that of a sequence of one call (`Pluvio.Rooted.outline`), and
what they send and receive is in the log of the run (`Pluvio.AmNet.Logged`).
-/

namespace Pluvio

open AmNet

variable {α : Type*} {n root q : ℕ}

/-! ### The tree -/

/-- The parent of a rank, as the rank computes it from its place counted from the root. -/
def bcastParent (n root q : ℕ) : ℕ :=
  let logical := back n q root
  ((logical &&& usizeNot (1 <<< logicalHighestBit logical)) + root) % n

/-- The message a rank expects: from its parent, in the round of its highest bit. -/
def bcastEdge (n root q : ℕ) : Posted where
  stage := 0
  src := bcastParent n root q
  dst := q
  key := .ofHeader ⟨UInt16.ofNat (bcastParent n root q),
    UInt16.ofNat (logicalHighestBit (back n q root)), phaseBcast, 0⟩

/-- **The messages of a broadcast**: one for each rank but the root. -/
def bcastEdges (n root : ℕ) : List Posted :=
  ((List.range n).filter fun q => q ≠ root).map (bcastEdge n root)

theorem mem_bcastEdges {x : Posted} :
    x ∈ bcastEdges n root ↔ x.dst < n ∧ x.dst ≠ root ∧ x = bcastEdge n root x.dst := by
  constructor
  · intro hx
    obtain ⟨q, hq, rfl⟩ := List.mem_map.mp hx
    obtain ⟨hlt, hne⟩ := List.mem_filter.mp hq
    exact ⟨List.mem_range.mp hlt, of_decide_eq_true hne, rfl⟩
  · rintro ⟨hlt, hne, hx⟩
    exact List.mem_map.mpr
      ⟨x.dst, List.mem_filter.mpr ⟨List.mem_range.mpr hlt, decide_eq_true hne⟩, hx.symm⟩

theorem bcastEdges_nodup : (bcastEdges n root).Nodup :=
  (List.nodup_range.filter _).map fun _ _ h => congrArg Posted.dst h

/-- **There are `n - 1` of them.** -/
theorem length_bcastEdges (hroot : root < n) : (bcastEdges n root).length = n - 1 := by
  have herase : ((List.range n).filter fun q => q ≠ root) = (List.range n).erase root := by
    rw [List.nodup_range.erase_eq_filter]
    exact List.filter_congr fun q _ => by rw [Bool.eq_iff_iff, decide_eq_true_iff, bne_iff_ne]
  rw [bcastEdges, List.length_map, herase, List.length_erase_of_mem (List.mem_range.mpr hroot),
    List.length_range]

/-- The programs of one call. -/
abbrev bcastProgram (n len root p : ℕ) : List (Stage Region α) :=
  Rooted.program (n := n) p 0 [.broadcast len root]

/-- The receives of a rank, in the order in which it makes them. -/
def bcastRecvs (α : Type*) (n len root q : ℕ) : List (RecvKey × Slice Region) :=
  ((bcastProgram (α := α) n len root q).flatMap fun st => st.chains.flatten).filterMap Instr.recv

section Plan

variable {len p i m k j : ℕ} {sd : Send Region}

/-- There is one call to make. -/
theorem stages_bcast (hroot : root < n) : Rooted.stages 0 [.broadcast len root] =
    [(⟨0, .broadcast len root, hroot⟩ : Rooted.RootedStage n)] := dif_pos hroot

/-- What is sent is sent in the call. -/
theorem bcastLayout_isSend {hn : 2 ≤ n} {hsize : n < 2 ^ 64} (hroot : root < n) :
    (Rooted.layout α hn hsize [.broadcast len root]).IsSend i p m k j sd ↔
      i = 0 ∧ (broadcastPlan α n 0 len root hn).IsSend p m k j sd := by
  rw [Rooted.layout, Layout.isSend_ofList, stages_bcast hroot]
  constructor
  · rintro ⟨st, hst, hs⟩
    rcases i with - | i
    · obtain rfl := Option.some.inj hst
      exact ⟨rfl, hs⟩
    · cases hst
  · rintro ⟨rfl, hs⟩
    exact ⟨_, rfl, hs⟩

/-- The root is at the place 0. -/
theorem back_self (hq : q < n) : back n q q = 0 := by
  rw [back_eq_ite hq hq.le, if_pos (Nat.le_refl q), Nat.sub_self]

/-- And no other rank is. -/
theorem size_back_pos (hq : q < n) (hroot : root < n) (hne : q ≠ root) :
    0 < (back n q root).size := by
  refine Nat.size_pos.mpr (Nat.pos_of_ne_zero fun hzero => hne ?_)
  have hadd := add_back hq hroot
  rwa [hzero, Nat.add_zero, Nat.mod_eq_of_lt hroot, eq_comm] at hadd

/-- The round and the parent that a rank computes. -/
theorem bcastEdge_eq {r : ℕ} (hsize : n < 2 ^ 64) (hq : q < n) (hroot : root < n)
    (hr : (back n q root).size = r + 1) :
    bcastEdge n root q = ⟨0, back n q (2 ^ r), q, bcastKey (back n q (2 ^ r)) r⟩ := by
  have hl : back n q root < n := back_lt hq
  obtain ⟨hlow, hhigh⟩ := size_eq_succ_iff.mp hr
  have hbit : logicalHighestBit (back n q root) = r := by
    rw [logicalHighestBit_eq (by omega), hr, Nat.add_sub_cancel]
  have hparent : bcastParent n root q = back n q (2 ^ r) := by
    rw [bcastParent, hbit, bcast_parent hsize hq hroot hlow hhigh]
  rw [bcastEdge, hparent, hbit]
  rfl

/-- **What is sent is what the receiver expects**, and the root expects nothing. -/
theorem bcastEdge_of_isSend {hn : 2 ≤ n} (hsize : n < 2 ^ 64) (hroot : root < n)
    (hs : (broadcastPlan α n 0 len root hn).IsSend p m k j sd) :
    sd.dst < n ∧ sd.dst ≠ root ∧ bcastEdge n root sd.dst = ⟨0, p, sd.dst, sd.key⟩ := by
  obtain ⟨hp, -, -, r, -, hr, hlt, rfl⟩ := broadcastPlan_isSend.mp hs
  have hplace : back n ((p + 2 ^ r) % n) root = back n p root + 2 ^ r := back_peer hp hroot hlt
  have hsmall := Nat.size_le.mp hr
  have hpos := Nat.two_pow_pos r
  have hpow : 2 ^ r < n := by omega
  have hdst : (p + 2 ^ r) % n < n := Nat.mod_lt _ (by omega)
  have hbits : (back n ((p + 2 ^ r) % n) root).size = r + 1 := by
    rw [hplace, size_eq_succ_iff, Nat.pow_succ]
    omega
  refine ⟨hdst, fun heq => ?_, ?_⟩
  · -- the root is at the place 0
    have heq : (p + 2 ^ r) % n = root := heq
    rw [heq, back_self hroot, Nat.size_zero] at hbits
    cases hbits
  · have hedge := bcastEdge_eq hsize hdst hroot hbits
    rwa [back_add_mod hp hpow] at hedge

/-- **Every rank but the root is sent something.** -/
theorem exists_isSend (hn : 2 ≤ n) (hsize : n < 2 ^ 64) (len : ℕ) (hroot : root < n) (hq : q < n)
    (hne : q ≠ root) : ∃ p m k j sd, (broadcastPlan α n 0 len root hn).IsSend p m k j sd ∧
      sd.dst = q := by
  have hpos := size_back_pos hq hroot hne
  have hrecv : (broadcastPlan α n 0 len root hn).IsRecv q 0 0
      (bcastKey (back n q (2 ^ ((back n q root).size - 1))) ((back n q root).size - 1))
        ⟨(0, .buf), 0, len⟩ :=
    (broadcastPlan_isRecv hsize hroot).mpr ⟨hq, rfl, rfl, _, by omega, rfl, rfl⟩
  obtain ⟨p, k', j, sd, hs, hd, -, -⟩ := (broadcastPlan_matched hsize hroot).sender hrecv
  exact ⟨p, 0, k', j, sd, hs, hd⟩

/-- **The messages of the call are the edges of the tree.** -/
theorem mem_bcastEdges_iff {hn : 2 ≤ n} {hsize : n < 2 ^ 64} (hroot : root < n) {x : Posted} :
    x ∈ bcastEdges n root ↔ ∃ m k j sd,
      (Rooted.layout α hn hsize [.broadcast len root]).IsSend x.stage x.src m k j sd ∧
        sd.dst = x.dst ∧ sd.key = x.key := by
  rw [mem_bcastEdges]
  obtain ⟨stage, src, dst, key⟩ := x
  dsimp only
  constructor
  · rintro ⟨hlt, hne, hx⟩
    obtain ⟨p, m, k, j, sd, hs, hd⟩ := exists_isSend (α := α) hn hsize len hroot hlt hne
    obtain ⟨-, -, hedge⟩ := bcastEdge_of_isSend hsize hroot hs
    rw [hd, ← hx] at hedge
    obtain ⟨rfl, rfl, -, rfl⟩ := Posted.mk.inj hedge
    exact ⟨m, k, j, sd, (bcastLayout_isSend hroot).mpr ⟨rfl, hs⟩, hd, rfl⟩
  · rintro ⟨m, k, j, sd, hs, hd, hk⟩
    obtain ⟨rfl, hplan⟩ := (bcastLayout_isSend hroot).mp hs
    obtain ⟨hlt, hne, hedge⟩ := bcastEdge_of_isSend hsize hroot hplan
    rw [hd] at hlt hne hedge
    exact ⟨hlt, hne, by rw [hedge, hk]⟩

/-- The program of a rank is the stage of the plan. -/
theorem bcastProgram_eq (hn : 2 ≤ n) (hsize : n < 2 ^ 64) (hroot : root < n) (hp : p < n)
    (len : ℕ) : (bcastProgram n len root p : List (Stage Region α)) =
      [(broadcastPlan α n 0 len root hn).stage p] := by
  rw [bcastProgram, Rooted.program_eq hn hsize hp, stages_bcast hroot]
  rfl

/-- **A rank receives what it expects**: the root nothing, and any other rank one message
into its buffer. -/
theorem bcastRecvs_eq (hn : 2 ≤ n) (hsize : n < 2 ^ 64) (hroot : root < n) (hq : q < n)
    (len : ℕ) : bcastRecvs α n len root q =
      if q = root then [] else [((bcastEdge n root q).key, ⟨(0, .buf), 0, len⟩)] := by
  -- no round receives but the one of the highest bit
  have hnone : ∀ r, (back n q root).size ≤ r →
      (bcastRound (α := α) n 0 len root q r).recv = none := by
    intro r hr
    rw [bcastRound, if_neg (Nat.not_lt.mpr hr)]
    rfl
  have hrest : ∀ d, (List.range' (back n q root).size d).filterMap
      (fun r => (bcastRound (α := α) n 0 len root q r).recv) = [] := by
    intro d
    refine List.filterMap_eq_nil_iff.mpr fun r hr => hnone r ?_
    obtain ⟨i, -, rfl⟩ := List.mem_range'.mp hr
    omega
  have hall : bcastRecvs α n len root q =
      (List.range' (bcastFirst (back n q root))
        (bcastLast n (back n q root) - bcastFirst (back n q root))).filterMap
          fun r => (bcastRound (α := α) n 0 len root q r).recv := by
    rw [bcastRecvs, bcastProgram_eq hn hsize hroot hq, List.range'_eq_map_range]
    simp only [Plan.stage, broadcastPlan, List.range_one, List.map_singleton,
      List.flatMap_singleton, List.flatten_singleton, List.filterMap_map]
    rfl
  rw [hall]
  split
  · next heq =>
    subst heq
    have hfirst : bcastFirst (back n q q) = (back n q q).size := by
      rw [back_self hq, bcastFirst, Nat.size_zero]
    rw [hfirst]
    exact hrest _
  · next hne =>
    have hpos := size_back_pos hq hroot hne
    obtain ⟨r, hr⟩ : ∃ r, (back n q root).size = r + 1 := ⟨(back n q root).size - 1, by omega⟩
    obtain ⟨d, hd⟩ : ∃ d, bcastLast n (back n q root) - bcastFirst (back n q root) = d + 1 :=
      ⟨bcastLast n (back n q root) - bcastFirst (back n q root) - 1, by
        rw [bcastLast, bcastFirst]
        omega⟩
    have hfirst : bcastFirst (back n q root) = r := by
      rw [bcastFirst, hr, Nat.add_sub_cancel]
    have hhere : (bcastRound (α := α) n 0 len root q r).recv =
        some ((bcastEdge n root q).key, ⟨(0, .buf), 0, len⟩) := by
      obtain ⟨hlow, hhigh⟩ := size_eq_succ_iff.mp hr
      rw [bcastRound, if_pos (by omega), broadcastRecv, bcastEdge_eq hsize hq hroot hr]
      dsimp only
      rw [show (UcxCommunicator.connected n q).size = n from rfl,
        bcast_parent hsize hq hroot hlow hhigh]
      rfl
    have hmore := hrest d
    rw [hr] at hmore
    rw [hd, hfirst, List.range'_succ, List.filterMap_cons]
    simp only [hhere, hmore]

end Plan

/-! ### Runs -/

section Run

variable {len : ℕ} {eager : ℕ → Name → ℕ → Bool} {heap : ℕ → Heap Region α} {l : Logged Region α}

/-- The receives of the call wait for its sends. -/
theorem bcastLayout_matched (hn : 2 ≤ n) (hsize : n < 2 ^ 64) (len root : ℕ) :
    (Rooted.layout α hn hsize [.broadcast len root]).Matched
      fun i p _ k => Rooted.time (n := n) [.broadcast len root] i p k := by
  refine Rooted.layout_matched hn hsize fun c hc c' _ hscatter => ?_
  obtain rfl := List.mem_singleton.mp hc
  exact hscatter.elim

/-- **The invariant, the outline and the log of every run.** -/
theorem bcast_logged (hn : 2 ≤ n) (hsize : n < 2 ^ 64) (hroot : root < n)
    (h : Reaches (logStep ⟨n, bcastProgram n len root, eager⟩) (logStart heap) l) :
    LogInv (Rooted.layout α hn hsize [.broadcast len root]) l ∧
      (Rooted.outline hn hsize [.broadcast len root] heap).Outlined l.state := by
  have hM := bcastLayout_matched (α := α) hn hsize len root
  refine h.invariant (P := fun l : Logged Region α => LogInv (Rooted.layout α hn hsize _) l ∧
    (Rooted.outline hn hsize _ heap).Outlined l.state)
    ⟨logInv_start _ heap, Layout.Outline.outlined_start _⟩ ?_
  rintro l e l' ⟨hlog, hout⟩ - hs
  -- with one stage, no message is delivered onto an early one
  have hin : InTime l.state e := hlog.inv.inTime_of_origin_eq (fun i i' p p' q κ hi hi' => by
    have hlt := hi.stage_lt
    have hlt' := hi'.stage_lt
    rw [show (Rooted.layout α hn hsize [.broadcast len root]).stages = 1 from
      congrArg List.length (stages_bcast hroot)] at hlt hlt'
    omega) e
  refine ⟨hlog.step hM hin hs, ?_⟩
  obtain ⟨s, hstep, rfl⟩ := Option.map_eq_some_iff.mp hs
  exact hout.step hlog.inv hM hin hstep

/-- What is sent is in the `buf` of the sender, which holds the data of the root. -/
theorem bcast_holds_of_sentBy {hn : 2 ≤ n} {hsize : n < 2 ^ 64} (hroot : root < n)
    {s s' : State Region α} {e : Event}
    (hinv : Inv (Rooted.layout α hn hsize [.broadcast len root]) s)
    (hout : (Rooted.outline hn hsize [.broadcast len root] heap).Outlined s)
    (hs : step ⟨n, bcastProgram n len root, eager⟩ s e = some s') {x : Posted}
    (hx : x ∈ sentBy ⟨n, bcastProgram n len root, eager⟩ s e) :
    (s.rank x.src).node.heap.read ⟨(0, .buf), 0, len⟩ = (heap root).read ⟨(0, .buf), 0, len⟩ := by
  obtain ⟨m, -, hawait, -, j, sd, hsend, -, -⟩ :=
    (mem_sentBy (P := Rooted.layout α hn hsize _) hs).mp hx
  have hp := hsend.1.rank
  have hholds := (hout.ranks _ hp).waiting hsend.1.stage m hsend.1.chain
    fun κ t _ => (hinv.ranks _ hp).done_eq_false hawait
  have hread := (Rooted.outline hn hsize [.broadcast len root] heap).sends hsend hholds
  obtain ⟨hstage, hplan⟩ := (bcastLayout_isSend hroot).mp hsend
  obtain ⟨-, -, -, r, -, -, -, rfl⟩ := broadcastPlan_isSend.mp hplan
  refine hread.trans ?_
  simp only [Rooted.outline, hstage, stages_bcast hroot]
  rfl

/-- The `buf` of the root is as it was. -/
theorem bcast_root_buf {hn : 2 ≤ n} {hsize : n < 2 ^ 64} (hroot : root < n) {s : State Region α}
    (hinv : Inv (Rooted.layout α hn hsize [.broadcast len root]) s)
    (hout : (Rooted.outline hn hsize [.broadcast len root] heap).Outlined s) :
    (s.rank root).node.heap.read ⟨(0, .buf), 0, len⟩ =
      (heap root).read ⟨(0, .buf), 0, len⟩ := by
  have hst : (Rooted.stages 0 [.broadcast len root])[0]? =
      some (⟨0, .broadcast len root, hroot⟩ : Rooted.RootedStage n) := by
    rw [stages_bcast hroot]
    rfl
  rcases Nat.eq_zero_or_pos (s.rank root).stage with hzero | hpos
  · -- it is in the call, and receives nothing
    have hlt : (s.rank root).stage < (Rooted.layout α hn hsize [.broadcast len root]).stages := by
      rw [hzero]
      exact (List.getElem?_eq_some_iff.mp hst).1
    have hwidth :
        0 < (Rooted.layout α hn hsize [.broadcast len root]).width (s.rank root).stage := by
      rw [hzero, Rooted.width_layout hst]
      exact Nat.one_pos
    have hholds := (hout.ranks root hroot).waiting hlt 0 hwidth fun κ t hrecv => by
      rw [Rooted.layout, Layout.isRecv_ofList] at hrecv
      obtain ⟨st, hst', hrecv⟩ := hrecv
      rw [hzero, hst] at hst'
      obtain rfl := Option.some.inj hst'
      replace hrecv : (broadcastPlan α n 0 len root hn).IsRecv root 0 _ κ t := hrecv
      obtain ⟨-, -, -, r, hr, -⟩ := (broadcastPlan_isRecv hsize hroot).mp hrecv
      rw [back_self hroot, Nat.size_zero] at hr
      cases hr
    have hown := (hholds rfl).own _ (by rw [hzero]; exact hst)
    refine hown.done ?_
    show (back n root root).size ≤ _
    rw [back_self hroot, Nat.size_zero]
    exact Nat.zero_le _
  · exact Rooted.done_of_outlined hinv hout hroot hpos hst

/-- **One broadcast.** In every run of a call of `n` ranks, with the log of its messages:
the call returns `Ok` at every rank; the messages that are sent are edges of the tree, which
has `n - 1`, each sent once and delivered at most once; what a rank receives is the message
of its edge, and the root receives nothing; a rank that sends has the data of the root; the
buffer of the root does not change; a state that is not final is not stuck, and the run goes
on to a final one; and when all ranks have returned, the messages are all the edges, each of
them delivered, and every rank has the data. -/
theorem broadcast_tree_correct (hn : 2 ≤ n) (hsize : n < 2 ^ 64) (hroot : root < n) (len : ℕ)
    (eager : ℕ → Name → ℕ → Bool) (heap : ℕ → Heap Region α) {l : Logged Region α}
    (h : Reaches (logStep ⟨n, bcastProgram n len root, eager⟩) (logStart heap) l) :
    (∀ p < n, (broadcast (.connected n p) 0 len root : Call (Stage Region α)).result = .ok ()) ∧
    ((bcastEdges n root).length = n - 1 ∧ l.sent.Subperm (bcastEdges n root) ∧
      l.delivered.Subperm l.sent) ∧
    (∀ q < n, bcastRecvs α n len root q =
      if q = root then [] else [((bcastEdge n root q).key, ⟨(0, .buf), 0, len⟩)]) ∧
    (∀ e l', logStep ⟨n, bcastProgram n len root, eager⟩ l e = some l' →
      ∀ x ∈ sentBy ⟨n, bcastProgram n len root, eager⟩ l.state e,
        (l.state.rank x.src).node.heap.read ⟨(0, .buf), 0, len⟩ =
          (heap root).read ⟨(0, .buf), 0, len⟩) ∧
    (l.state.rank root).node.heap.read ⟨(0, .buf), 0, len⟩ =
      (heap root).read ⟨(0, .buf), 0, len⟩ ∧
    (¬Final ⟨n, bcastProgram n len root, eager⟩ l.state →
      ¬Stuck (step ⟨n, bcastProgram n len root, eager⟩) l.state) ∧
    (∃ l', Reaches (logStep ⟨n, bcastProgram n len root, eager⟩) l l' ∧
      Final ⟨n, bcastProgram n len root, eager⟩ l'.state) ∧
    (Final ⟨n, bcastProgram n len root, eager⟩ l.state →
      l.sent.Perm (bcastEdges n root) ∧ l.delivered.Perm (bcastEdges n root) ∧
        ∀ p < n, (l.state.rank p).node.heap.read ⟨(0, .buf), 0, len⟩ =
          (heap root).read ⟨(0, .buf), 0, len⟩) := by
  have hM := bcastLayout_matched (α := α) hn hsize len root
  obtain ⟨hlog, hout⟩ := bcast_logged hn hsize hroot h
  have hsent : l.sent ⊆ bcastEdges n root := by
    intro x hx
    obtain ⟨m, k, j, sd, hsend, hd, hk, -⟩ := (hlog.mem_sent x).mp hx
    exact (mem_bcastEdges_iff hroot).mpr ⟨m, k, j, sd, hsend, hd, hk⟩
  refine ⟨fun p hp => ?_, ⟨length_bcastEdges hroot, ?_, ?_⟩, fun q hq => ?_, fun e l' hs x hx => ?_,
    bcast_root_buf hroot hlog.inv hout, fun hf hstuck => ?_, ?_, fun hf => ⟨?_, ?_, fun p hp => ?_⟩⟩
  · rw [broadcast_eq hn hsize hp hroot]
  · exact List.subperm_of_subset hlog.sent_nodup hsent
  · exact List.subperm_of_subset hlog.delivered_nodup fun x hx => ((hlog.mem_delivered x).mp hx).1
  · exact bcastRecvs_eq hn hsize hroot hq len
  · obtain ⟨s', hstep, -⟩ := Option.map_eq_some_iff.mp hs
    exact bcast_holds_of_sentBy hroot hlog.inv hout hstep hx
  · exact hf (hlog.inv.not_stuck hM hstuck)
  · -- runs end, and the state they end in is final
    have hdst : ∀ {i p m k j sd},
        (Rooted.layout α hn hsize [.broadcast len root]).IsSend i p m k j sd → sd.dst < n := by
      intro i p m k j sd hsend
      obtain ⟨k', t, hrecv⟩ := hM.receiver hsend
      exact hrecv.1.rank
    have hclosed : Closed n l.state := (Logged.reaches h).invariant
      (fun p q hne => absurd rfl hne) fun _ _ _ hc _ hs => Layout.closed_step hdst hc hs
    obtain ⟨s, hsteps, hstuck⟩ : ∃ s,
        Reaches (step ⟨n, bcastProgram n len root, eager⟩) l.state s ∧
          ∀ e, True → step ⟨n, bcastProgram n len root, eager⟩ s e = none :=
      exists_stuck hdst (fun _ _ => True) hclosed
    obtain ⟨l', hl', rfl⟩ := Logged.exists_log hsteps
    obtain ⟨hlog', -⟩ := bcast_logged hn hsize hroot (h.trans hl')
    exact ⟨l', hl', hlog'.inv.not_stuck hM fun e => hstuck e trivial⟩
  · -- both logs have no duplicates, so it is enough that they have the same messages
    refine (List.perm_ext_iff_of_nodup hlog.sent_nodup bcastEdges_nodup).mpr fun x => ?_
    exact (hlog.mem_of_final hM hf x).1.trans (mem_bcastEdges_iff hroot).symm
  · refine (List.perm_ext_iff_of_nodup hlog.delivered_nodup bcastEdges_nodup).mpr fun x => ?_
    obtain ⟨h1, h2⟩ := hlog.mem_of_final hM hf x
    exact h2.trans (h1.trans (mem_bcastEdges_iff hroot).symm)
  · refine Rooted.done_of_outlined hlog.inv hout hp (i := 0) ?_ (by rw [stages_bcast hroot]; rfl)
    rw [hf p hp]
    show 0 < (bcastProgram (α := α) n len root p).length
    rw [bcastProgram_eq hn hsize hroot hp]
    exact Nat.one_pos

/-- Three ranks, with rank 1 as the root: the call comes to its end. -/
theorem broadcast_tree_correct_three :
    ∃ l, Reaches (logStep ⟨3, bcastProgram 3 1 1, fun _ _ _ => false⟩)
        (logStart fun p _ x => p + x) l ∧
      Final ⟨3, bcastProgram 3 1 1, fun _ _ _ => false⟩ l.state := by
  obtain ⟨-, -, -, -, -, -, hends, -⟩ := broadcast_tree_correct (by decide : 2 ≤ 3)
    (by decide) (by decide : 1 < 3) 1 (fun _ _ _ => false) (fun p _ x => p + x) .refl
  exact hends

end Run

end Pluvio
