import Pluvio.Collective.PipelinedChain

/-!
# The pipelined ring of any number of ranks

The pipelined ring numbers its steps in 16 bits. With more than 65537 ranks two steps
of a chain have one key, and a message may be delivered onto an early one. What can be
said of all numbers of ranks is what a run that comes to its end has done: it has lost
no message (`Pluvio.PipelinedChain.follows_or_short`), and so each chain has run as it
does over a network that keeps the messages under one tag in order. The ranks then hold
what the plain ring leaves (`Pluvio.PipelinedChain.heap_of_final`).

The other side is that beyond 65537 ranks some run does lose messages, whatever the
shape of the call (`Pluvio.PipelinedChain.exists_stuck_of_large`): if rank 0 is slow,
the rank before it sends it the messages of two steps with one key.
-/

namespace Pluvio

namespace PipelinedChain

open AmNet

variable {α : Type*} {n m p q k i : ℕ} {sh : PipelineShape} {op : Op α}
  {s s' : AmNet.State Region α} {heap : ℕ → Heap Region α} {eager : ℕ → Name → ℕ → Bool}

/-! ### Lanes -/

/-- What chain `m` of rank `p` sends in a phase under the key of step `k`. -/
def lane (n i p m k : ℕ) : Lane :=
  ⟨i, m, p, (p + 1) % n, .ofHeader (stepHeader (UInt8.ofNat i) p k m)⟩

/-- The phases have different numbers. -/
theorem phase_inj {i i' : ℕ} (hi : i < 2) (hi' : i' < 2) (h : UInt8.ofNat i = UInt8.ofNat i') :
    i = i' := by
  have hnat := congrArg UInt8.toNat h
  rw [UInt8.toNat_ofNat', UInt8.toNat_ofNat'] at hnat
  omega

/-- It is a lane: the key tells the phase and the chain. -/
theorem isLane (hn : 2 ≤ n) (hsh : sh.Ok n) (hi : i < 2) (hp : p < n) (hm : m < sh.microChunks) :
    (pipelinedLayout op hn hsh).IsLane (lane n i p m k) where
  send {i' p' m' k' j sd} hsend hdst hkey := by
    obtain ⟨hi', hsend⟩ := Layout.isSend_ofPlans.mp hsend
    obtain ⟨hp', hm', -, rfl, rfl⟩ := pipelinedPlan_isSend.mp hsend
    exact ⟨phase_inj hi' hi (congrArg RecvKey.phase hkey), succ_mod_inj hp' hp hdst,
      chunk_inj hsh hm' hm (congrArg RecvKey.microChunk hkey), rfl⟩
  recv {i' m' k' target} hrecv := by
    obtain ⟨hi', hrecv⟩ := Layout.isRecv_ofPlans.mp hrecv
    obtain ⟨-, hm', -, hkey, -⟩ := pipelinedPlan_isRecv.mp hrecv
    exact ⟨(phase_inj hi hi' (congrArg RecvKey.phase hkey)).symm,
      (chunk_inj hsh hm hm' (congrArg RecvKey.microChunk hkey)).symm⟩
  paired {k' sd} hsend _ hkey := by
    obtain ⟨hi', hsend⟩ := Layout.isSend_ofPlans.mp hsend
    obtain ⟨-, -, hk', -, rfl⟩ := pipelinedPlan_isSend.mp hsend
    refine ⟨_, Layout.isRecv_ofPlans.mpr ⟨hi', pipelinedPlan_isRecv.mpr
      ⟨Nat.mod_lt _ (by omega), hm, hk', ?_, rfl⟩⟩⟩
    rw [← hkey]
    show _ = RecvKey.ofHeader (stepHeader (UInt8.ofNat i) (back n ((p + 1) % n) 1) k' m)
    rw [back_one_succ hp]
    rfl

/-- The receives of a stage under one key are of one chain. -/
theorem apart (hn : 2 ≤ n) (hsh : sh.Ok n) : (pipelinedLayout op hn hsh).Apart := by
  intro i q m k m' k' κ target target' hrecv hrecv'
  obtain ⟨-, hrecv'⟩ := Layout.isRecv_ofPlans.mp hrecv'
  obtain ⟨-, hm', -, rfl, -⟩ := pipelinedPlan_isRecv.mp hrecv'
  exact recv_chain hm' rfl hrecv

/-! ### Runs -/

/-- Messages go to the next rank. -/
theorem dst_lt (hn : 2 ≤ n) (hsh : sh.Ok n) {i p m k j : ℕ} {sd : Send Region}
    (h : (pipelinedLayout op hn hsh).IsSend i p m k j sd) : sd.dst < n := by
  obtain ⟨-, h⟩ := Layout.isSend_ofPlans.mp h
  obtain ⟨-, -, -, -, rfl⟩ := pipelinedPlan_isSend.mp h
  exact Nat.mod_lt _ (by omega)

/-- And so they are between the ranks. -/
theorem closed_of_steady {hn : 2 ≤ n} {hsh : sh.Ok n}
    (h : Steady (pipelinedLayout op hn hsh) s) : Closed n s := by
  intro p q hne
  obtain ⟨msg, hmsg⟩ := List.exists_mem_of_ne_nil _ hne
  obtain ⟨hp, hq, -⟩ := chan_of_steady hsh h hmsg
  exact ⟨hp, hq⟩

/-- **Either no message has been lost**, and each chain is where it is over tags, **or
two messages of a lane are missing**. -/
theorem follows_or_short (hn : 2 ≤ n) (hsh : sh.Ok n)
    (h : Reaches (AmNet.step ⟨n, pipelinedProgram op n sh, eager⟩) (start heap) s) :
    Steady (pipelinedLayout op hn hsh) s ∧
      ((∀ m < sh.microChunks, ∃ t, Reaches (TagNet.step (chainNet op n sh m))
          (TagNet.start heap) t ∧ Follows n sh m s t) ∨
        ∃ L, (pipelinedLayout op hn hsh).IsLane L ∧ Short (pipelinedLayout op hn hsh) s L 2) := by
  -- no message is missing at the start, and never more than there are
  have hnone : ∀ {s'}, Reaches (AmNet.step ⟨n, pipelinedProgram op n sh, eager⟩) (start heap) s' →
      Steady (pipelinedLayout op hn hsh) s' ∧
        ∀ L, (pipelinedLayout op hn hsh).IsLane L → Short (pipelinedLayout op hn hsh) s' L 0 := by
    intro s' hs'
    refine hs'.invariant (P := fun s => Steady (pipelinedLayout op hn hsh) s ∧
      ∀ L, (pipelinedLayout op hn hsh).IsLane L → Short (pipelinedLayout op hn hsh) s L 0)
      ⟨steady_start _ heap, fun L _ => short_start _ heap L⟩ ?_
    rintro s e s' ⟨hsteady, hshort⟩ - hs
    exact ⟨hsteady.step (apart hn hsh) hs, fun L hL => (hshort L hL).step hL hsteady hs⟩
  induction h with
  | refl => exact ⟨steady_start _ heap, .inl fun m hm => ⟨_, .refl, follows_start heap⟩⟩
  | @tail s s' e hs _ hstep ih =>
    obtain ⟨hsteady, hshort⟩ := hnone hs
    refine ⟨hsteady.step (apart hn hsh) hstep, ?_⟩
    rcases ih.2 with hfollows | ⟨L, hL, hd⟩
    · by_cases hin : InTime s e
      · refine .inl fun m hm => ?_
        obtain ⟨t, ht, hf⟩ := hfollows m hm
        obtain ⟨t', ht', hf'⟩ := hf.step hn hsh hm hsteady hin hstep
        exact ⟨t', ht.trans ht', hf'⟩
      · -- a delivery onto an early message
        rcases e with p | ⟨p, m⟩ | ⟨p, m, j⟩ | ⟨p, q⟩ | p
        · exact absurd trivial hin
        · exact absurd trivial hin
        · exact absurd trivial hin
        · obtain ⟨msg, rest, hchan, -⟩ := step_deliver.mp hstep
          obtain ⟨i, hearly⟩ : ∃ i, IsEarly s i q msg.key := by
            by_contra hno
            refine hin fun msg' hmsg' i hearly => hno ⟨i, ?_⟩
            rw [hchan] at hmsg'
            cases hmsg'
            exact hearly
          obtain ⟨hp, hq, hback, i', hi', k, -, m, hm, hkey⟩ :=
            chan_of_steady hsh hsteady (hchan ▸ List.mem_cons_self)
          have hL : (pipelinedLayout op hn hsh).IsLane (lane n i' p m k) :=
            isLane hn hsh hi' hp hm
          refine .inr ⟨_, hL, Short.of_not_inTime hL hsteady (hshort _ hL) hchan ?_ hkey.symm hearly
            hstep⟩
          show (p + 1) % n = q
          rw [← hback, succ_back_one hq]
        · exact absurd trivial hin
    · exact .inr ⟨L, hL, hd.step hL hsteady hstep⟩

/-- **A run that comes to its end has lost no message.** -/
theorem follows_of_final (hn : 2 ≤ n) (hsh : sh.Ok n)
    (h : Reaches (AmNet.step ⟨n, pipelinedProgram op n sh, eager⟩) (start heap) s)
    (hf : Final ⟨n, pipelinedProgram op n sh, eager⟩ s) (hm : m < sh.microChunks) :
    ∃ t, Reaches (TagNet.step (chainNet op n sh m)) (TagNet.start heap) t ∧
      Follows n sh m s t := by
  obtain ⟨hsteady, hfollows | ⟨L, hL, hd⟩⟩ := follows_or_short hn hsh h
  · exact hfollows m hm
  · exact absurd hf (Short.not_final hL hsteady hd)

/-- **Where all ranks have returned**, each holds what the plain ring leaves. -/
theorem heap_of_final (hn : 2 ≤ n) (hsh : sh.Ok n)
    (h : Reaches (AmNet.step ⟨n, pipelinedProgram op n sh, eager⟩) (start heap) s)
    (hf : Final ⟨n, pipelinedProgram op n sh, eager⟩ s) (hp : p < n) {c x : ℕ}
    (hm : m < sh.microChunks) (hc : c < n) (hx : x < sh.micro n) :
    (s.rank p).node.heap (0, .buf) (rowCell n sh m c x) =
      ringValue op n (fun r => heap r (0, .buf) (rowCell n sh m c x)) c (n - 1) := by
  obtain ⟨t, ht, hfollows⟩ := follows_of_final hn hsh h hf hm
  have hsteady := (follows_or_short hn hsh h).1
  have hstage : (s.rank p).stage = 2 := (hf p hp).trans (length_pipelinedProgram hn hp hsh)
  have hnew : (s.rank p).chain m = .new := by
    refine (hsteady.ranks p hp).fresh m ?_
    rw [(hsteady.ranks p hp).idle hstage]
    exact Nat.zero_le m
  have hpc : (t.rank p).pc = 2 * (n - 1) := by
    rw [hfollows.pc p hp, hstage, hnew]
    rfl
  have hawait : (t.rank p).await = none := by
    rw [hfollows.await p hp, hnew]
    rfl
  have hsync := (chainLockstep op hn sh m).heap_eq_sync ht hp hawait
  have hrows : RowsAt op heap n sh p m _ _ := rows_sync hn hsh hm heap _ (Nat.le_refl _) hp
  rw [hfollows.heap p hp _ _ ⟨hm, .inr ⟨rfl, c, hc, x, hx, rfl⟩⟩, hsync, hpc, hrows c hc x hx,
    ringCell, Nat.two_mul, ringAt_last hp]

/-! ### A run that loses messages -/

section Stuck

/-- Every event but those of rank 0, to which messages are delivered all the same. -/
def WithoutZero : Event → Prop
  | .launch p => p ≠ 0
  | .poll p _ => p ≠ 0
  | .sent p _ _ => p ≠ 0
  | .deliver _ _ => True
  | .advance p => p ≠ 0

/-- Nothing can happen but at rank 0. -/
def StuckBut (op : Op α) (n : ℕ) (sh : PipelineShape) (s : AmNet.State Region α) : Prop :=
  ∀ e, WithoutZero e → AmNet.step ⟨n, pipelinedProgram op n sh, fun _ _ _ => true⟩ s e = none

/-- Rank 0 stays where it is. -/
theorem step_withoutZero {prog : ℕ → List (Stage Region α)} (P : Layout n prog) {e : Event}
    (he : WithoutZero e) (hs : AmNet.step ⟨n, prog, eager⟩ s e = some s')
    (h : (s.rank 0).stage = 0 ∧ (s.rank 0).launched = 0) :
    (s'.rank 0).stage = 0 ∧ (s'.rank 0).launched = 0 := by
  rcases e with p | ⟨p, m⟩ | ⟨p, m, j⟩ | ⟨p, q⟩ | p
  · obtain ⟨-, -, -, -, rfl⟩ := P.step_launch.mp hs
    dsimp only
    rwa [Function.update_of_ne (Ne.symm he)]
  · obtain ⟨-, -, -, ⟨-, rfl⟩ | ⟨a, -, -, rfl⟩⟩ := P.step_poll.mp hs
    · rwa [rank_issue_of_ne _ (Ne.symm he)]
    · dsimp only [State.proceed]
      rwa [Function.update_of_ne (Ne.symm he)]
  · obtain ⟨a, sd, -, -, -, -, rfl⟩ := P.step_sent.mp hs
    dsimp only
    rwa [Function.update_of_ne (Ne.symm he)]
  · obtain ⟨msg, rest, -, rfl⟩ := step_deliver.mp hs
    dsimp only
    rcases eq_or_ne 0 q with rfl | hq
    · rwa [Function.update_self]
    · rwa [Function.update_of_ne hq]
  · obtain ⟨-, -, -, -, rfl⟩ := P.step_advance.mp hs
    dsimp only
    rwa [Function.update_of_ne (Ne.symm he)]

variable {t : TagNet.State Region RecvKey α} {hn : 2 ≤ n} {hsh : sh.Ok n}

/-- All messages have been delivered. -/
theorem StuckBut.chan_eq_nil (h : StuckBut op n sh s) (p q : ℕ) : s.chan p q = [] := by
  rcases hchan : s.chan p q with - | ⟨msg, rest⟩
  · rfl
  · cases (h (.deliver p q) trivial).symm.trans (step_deliver.mpr ⟨msg, rest, hchan, rfl⟩)

/-- **Another rank waits for a message of its first chain that is nowhere**, unless the
chain is through its first phase. -/
theorem StuckBut.waits (h : StuckBut op n sh s) (hsteady : Steady (pipelinedLayout op hn hsh) s)
    (hfollows : Follows n sh 0 s t) (hp : p < n) (hp0 : p ≠ 0) :
    n - 1 ≤ (t.rank p).pc ∨ (t.rank p).pc < n - 1 ∧ (t.rank p).await = some ⟨true, false⟩ ∧
      t.wire (back n p 1) p (recvKey n 0 p 0 (t.rank p).pc) = [] := by
  have hno : ∀ e, WithoutZero e →
      ¬Enabled ⟨n, pipelinedProgram op n sh, fun _ _ _ => true⟩ s e := by
    rintro e he ⟨s', hs'⟩
    cases (h e he).symm.trans hs'
  have hlocal := hsteady.ranks p hp
  have hpc := hfollows.pc p hp
  rcases Nat.eq_zero_or_pos (s.rank p).stage with hstage | hstage
  · have hi : (s.rank p).stage < (pipelinedLayout op hn hsh).stages := by
      rw [hstage]
      exact Nat.two_pos
    obtain ⟨hpump, m, hm, hat, -⟩ := ((hlocal.busy (fun _ _ _ => true) hp hi).resolve_left
      (hno (.launch p) hp0)).resolve_left (hno (.advance p) hp0)
    have hlaunched : 0 < (s.rank p).launched := by omega
    have hwidth : 0 < sh.microChunks := hsh.microChunks_pos
    have hle : ((s.rank p).chain 0).pc ≤ n - 1 := hlocal.pc_le hi 0 hwidth
    rw [hstage, Nat.zero_mul, Nat.zero_add] at hpc
    rcases Nat.lt_or_eq_of_le hle with hlt | heq
    · right
      have hat : (pipelinedLayout op hn hsh).At (s.rank p).stage p 0 ((s.rank p).chain 0).pc :=
        ⟨hi, hp, hwidth, hlt⟩
      -- it has been polled, and its send has completed
      obtain ⟨a, hawait⟩ : ∃ a, ((s.rank p).chain 0).await = some a :=
        Option.ne_none_iff_exists'.mp fun hnone =>
          hno (.poll p 0) hp0 (enabled_poll hat hlaunched hpump hnone)
      have hsending : a.sending = [] := by
        rcases hsending : a.sending with - | ⟨j, rest⟩
        · rfl
        · have hj := hlocal.sending 0 a j hawait (hsending ▸ List.mem_cons_self)
          refine absurd ⟨_, (pipelinedLayout op hn hsh).step_sent.mpr ⟨a, _, hawait,
            ⟨hat, List.getElem?_eq_getElem hj⟩, hsending ▸ List.mem_cons_self, .inl rfl, rfl⟩⟩
            (hno (.sent p 0 j) hp0)
      -- so its receive is not done
      obtain ⟨fut, hfut, -, hd, -, hpolled⟩ := hlocal.recv_some 0 a _ _ hawait rfl
      have hnot : (s.rank p).node.done ((s.rank p).stage, 0, ((s.rank p).chain 0).pc) = false := by
        by_contra hdone
        refine hno (.poll p 0) hp0 ⟨_, (pipelinedLayout op hn hsh).step_poll.mpr
          ⟨hat, hlaunched, hpump, .inr ⟨a, hawait, ⟨hsending, fun fut' hfut' => ?_⟩, rfl⟩⟩⟩
        cases hfut.symm.trans hfut'
        exact (poll_ready_iff hpolled).mpr (hd ▸ Bool.eq_true_of_not_eq_false hdone)
      refine ⟨hpc ▸ hlt, by rw [hfollows.await p hp, hawait, hnot, Option.map_some], ?_⟩
      -- and its slot has no message
      obtain ⟨w, hslot⟩ := hsteady.posts.posted _ p 0 _ _ _ ⟨hat, rfl⟩
        (.inr ⟨rfl, .inr ⟨rfl, by rw [hawait]; rfl⟩⟩) hnot
      have hkey : recvKey n 0 p 0 (t.rank p).pc =
          recvKey n (s.rank p).stage p 0 ((s.rank p).chain 0).pc := by rw [hpc, hstage]
      have hwire := hfollows.wire p hp (recvKey n 0 p 0 (t.rank p).pc) rfl
      rw [held, h.chan_eq_nil, inRouter_of_not_early fun e he => ?_] at hwire
      · exact List.map_eq_nil_iff.mp hwire
      · rw [hkey] at he
        cases hslot.symm.trans he
    · left
      rw [hpc, heq]
  · left
    rw [hpc]
    have := Nat.mul_le_mul_right (n - 1) hstage
    omega

/-- The tag of a receive in the first phase. -/
theorem recvTag_first (hk : k < n - 1) : ((chainLockstep op hn sh m).instr p k).recvTag =
    recvKey n 0 p m k := by
  have heq : chainInstr op n sh m p (0 * (n - 1) + k) = phaseInstr op n sh m 0 p k :=
    chainInstr_eq op hk
  rw [Nat.zero_mul, Nat.zero_add] at heq
  exact congrArg TagNet.Instr.recvTag heq

/-- **One rank after the other** has issued as many messages as there are ranks before
it, if no message is lost. -/
theorem StuckBut.issued (h : StuckBut op n sh s) (hsteady : Steady (pipelinedLayout op hn hsh) s)
    (hfollows : Follows n sh 0 s t)
    (ht : Reaches (TagNet.step (chainNet op n sh 0)) (TagNet.start heap) t) (hp0 : 0 < p)
    (hp : p < n) : p ≤ (t.rank p).issued := by
  have hinv : (chainLockstep op hn sh 0).Inv heap t := TagNet.Lockstep.inv_of_reaches ht
  induction p with
  | zero => exact Nat.zero_le _
  | succ p ih =>
    rcases h.waits hsteady hfollows hp p.succ_ne_zero with hge | ⟨hlt, hawait, hnil⟩
    · rw [TagNet.Rank.issued]
      omega
    have hissued : (t.rank (p + 1)).issued = (t.rank (p + 1)).pc + 1 := by
      simp [TagNet.Rank.issued, hawait]
    rw [hissued]
    by_contra hbefore
    -- the rank before has issued the message it waits for
    have hprev := ih (by omega) (by omega)
    have hback : back n (p + 1) 1 = p := by
      rw [back_eq_ite hp (by omega), if_pos (by omega), Nat.add_sub_cancel]
    have hk : (t.rank (p + 1)).pc < (chainLockstep op hn sh 0).len := by
      show _ < 2 * (n - 1)
      omega
    have hwire := hinv.wire_eq (back n (p + 1) 1) (back_lt hp) (p + 1) hp
      ((chainLockstep op hn sh 0).instr (p + 1) (t.rank (p + 1)).pc).recvTag
    have htaken : (t.rank (p + 1)).taken = (t.rank (p + 1)).pc := by
      simp [TagNet.Rank.taken, hawait]
    rw [htaken, TagNet.Lockstep.inFlight_of_lt (by rw [hback]; omega),
      if_pos ⟨(chainLockstep op hn sh 0).dst_src _ hp _ hk,
        (chainLockstep op hn sh 0).tag_src _ hp _ hk⟩, recvTag_first hlt, hnil] at hwire
    cases hwire

/-- **A run to such a state has lost messages**, beyond 65537 ranks: the last rank has
sent rank 0 the messages of two steps with one key, and there is room for one. -/
theorem StuckBut.not_follows (hn' : 65538 ≤ n) (h : StuckBut op n sh s)
    (hsteady : Steady (pipelinedLayout op hn hsh) s) (hzero : (s.rank 0).stage = 0)
    (hlaunched : (s.rank 0).launched = 0)
    (ht : Reaches (TagNet.step (chainNet op n sh 0)) (TagNet.start heap) t) :
    ¬Follows n sh 0 s t := by
  intro hfollows
  have hinv : (chainLockstep op hn sh 0).Inv heap t := TagNet.Lockstep.inv_of_reaches ht
  have h0 : 0 < n := by omega
  have hback : back n 0 1 = n - 1 := by
    rw [back_eq_ite h0 (by omega), if_neg (by omega), Nat.zero_add]
  have hissued : n - 1 ≤ (t.rank (back n 0 1)).issued := by
    rw [hback]
    exact h.issued hsteady hfollows ht (by omega) (by omega)
  have hnew : (s.rank 0).chain 0 = .new :=
    (hsteady.ranks 0 h0).fresh 0 (by rw [hlaunched])
  have htaken : (t.rank 0).taken = 0 := by
    rw [TagNet.Rank.taken, hfollows.pc 0 h0, hfollows.await 0 h0, hnew, hzero, Nat.zero_mul]
    rfl
  -- both messages are on the wire
  have hwire := hinv.wire_eq (back n 0 1) (back_lt h0) 0 h0 (recvKey n 0 0 0 0)
  have hsent : ∀ k < n - 1, recvKey n 0 0 0 k = recvKey n 0 0 0 0 →
      ((chainLockstep op hn sh 0).instr (back n 0 1) k).dst = 0 ∧
        ((chainLockstep op hn sh 0).instr (back n 0 1) k).tag = recvKey n 0 0 0 0 :=
    fun k hk hkey => ⟨(chainLockstep op hn sh 0).dst_src 0 h0 k (by show _ < 2 * (n - 1); omega),
      ((chainLockstep op hn sh 0).tag_src 0 h0 k (by show _ < 2 * (n - 1); omega)).trans
        ((recvTag_first hk).trans hkey)⟩
  have hwrap : recvKey n 0 0 0 65536 = recvKey n 0 0 0 0 := rfl
  rw [htaken, TagNet.Lockstep.inFlight_of_lt (by omega), if_pos (hsent 0 (by omega) rfl),
    Nat.zero_add] at hwire
  have hsecond : (⟨65536, (chainLockstep op hn sh 0).payload heap (back n 0 1) 65536⟩ :
      TagNet.Message α) ∈ (chainLockstep op hn sh 0).inFlight heap (t.rank (back n 0 1)).issued 1
        (back n 0 1) 0 (recvKey n 0 0 0 0) := by
    refine List.mem_map.mpr ⟨65536, List.mem_filter.mpr ⟨List.mem_range'_1.mpr ⟨by omega, by omega⟩,
      decide_eq_true (hsent 65536 (by omega) hwrap)⟩, rfl⟩
  have hlen := congrArg List.length (hfollows.wire 0 h0 (recvKey n 0 0 0 0) rfl)
  have hpos := List.length_pos_of_mem hsecond
  have hone : (inRouter s 0 (recvKey n 0 0 0 0)).length ≤ 1 := by
    unfold inRouter
    split
    · exact Nat.le_refl 1
    · exact Nat.zero_le 1
  rw [List.length_map, hwire, held, h.chan_eq_nil, List.length_append, List.length_append] at hlen
  simp only [List.length_singleton, List.filter_nil, List.map_nil, List.length_nil] at hlen
  omega

/-- **Beyond 65537 ranks a call of any good shape can be left without an end.** -/
theorem exists_stuck_of_large (op : Op α) (hn : 65538 ≤ n) (hsh : sh.Ok n)
    (heap : ℕ → Heap Region α) :
    ∃ s, Reaches (AmNet.step ⟨n, pipelinedProgram op n sh, fun _ _ _ => true⟩) (start heap) s ∧
      ¬Final ⟨n, pipelinedProgram op n sh, fun _ _ _ => true⟩ s ∧
        Stuck (AmNet.step ⟨n, pipelinedProgram op n sh, fun _ _ _ => true⟩) s := by
  have hn2 : 2 ≤ n := by omega
  -- as far as the other ranks come without rank 0
  obtain ⟨s₁, hs₁, hstuck₁⟩ : ∃ s₁, Steps
      (AmNet.step ⟨n, pipelinedProgram op n sh, fun _ _ _ => true⟩) (fun _ => WithoutZero)
      (start heap) s₁ ∧ StuckBut op n sh s₁ :=
    exists_stuck (dst_lt hn2 hsh) _
      (closed_of_steady (steady_start (pipelinedLayout op hn2 hsh) heap))
  have hreach : Reaches (AmNet.step ⟨n, pipelinedProgram op n sh, fun _ _ _ => true⟩)
      (start heap) s₁ :=
    hs₁.invariant (P := Reaches _ (start heap)) .refl fun _ _ _ hs _ hstep => hs.tail trivial hstep
  have hzero : (s₁.rank 0).stage = 0 ∧ (s₁.rank 0).launched = 0 :=
    hs₁.invariant (P := fun s => (s.rank 0).stage = 0 ∧ (s.rank 0).launched = 0) ⟨rfl, rfl⟩
      fun s e s' h he hs => step_withoutZero (pipelinedLayout op hn2 hsh) he hs h
  obtain ⟨hsteady, hfollows | ⟨L, hL, hd⟩⟩ := follows_or_short hn2 hsh hreach
  · obtain ⟨t, ht, hf⟩ := hfollows 0 hsh.microChunks_pos
    exact absurd hf (StuckBut.not_follows hn hstuck₁ hsteady hzero.1 hzero.2 ht)
  · -- and on from there
    obtain ⟨s₂, hs₂, hstuck₂⟩ : ∃ s₂, Reaches
        (AmNet.step ⟨n, pipelinedProgram op n sh, fun _ _ _ => true⟩) s₁ s₂ ∧
        ∀ e, True → AmNet.step ⟨n, pipelinedProgram op n sh, fun _ _ _ => true⟩ s₂ e = none :=
      exists_stuck (dst_lt hn2 hsh) _ (closed_of_steady hsteady)
    have hshort : Steady (pipelinedLayout op hn2 hsh) s₂ ∧
        Short (pipelinedLayout op hn2 hsh) s₂ L 2 :=
      hs₂.invariant (P := fun s => Steady (pipelinedLayout op hn2 hsh) s ∧
        Short (pipelinedLayout op hn2 hsh) s L 2) ⟨hsteady, hd⟩
        fun s e s' h _ hs => ⟨h.1.step (apart hn2 hsh) hs, h.2.step hL h.1 hs⟩
    exact ⟨s₂, hreach.trans hs₂, Short.not_final hL hshort.1 hshort.2,
      fun e => hstuck₂ e trivial⟩

end Stuck

end PipelinedChain

end Pluvio
