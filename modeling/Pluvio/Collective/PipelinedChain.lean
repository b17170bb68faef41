import Pluvio.Collective.AmLoss
import Pluvio.Collective.PipelinedRing

/-!
# A chain of the pipelined ring by itself

The steps of a chain are numbered in 16 bits, so that with more than 65537 ranks some
of them share a key, and what a key says about a message is no longer which step it is
of. But the chain uses its keys towards one rank in the order of its steps, and the
router keeps that order as long as no message is lost.

So a chain of the pipelined ring is a program over a tag-matched network
(`Pluvio.PipelinedChain.chainProgram`), whose wires hold what is in the router and on
the channels (`Pluvio.PipelinedChain.Follows`). Each step of the pipelined ring that
loses no message is some or no steps of it (`Pluvio.PipelinedChain.Follows.step`), for
any number of ranks. What a chain's rows hold is read off the synchronous run.
-/

namespace Pluvio

namespace PipelinedChain

open AmNet

variable {α : Type*} {n m p q k i : ℕ} {sh : PipelineShape}

section Program

variable (op : Op α) (n : ℕ) (sh : PipelineShape) (m : ℕ)

/-- A step of chain `m` in a phase, over tags: the tag of a message is its key. -/
def phaseInstr (i p k : ℕ) : TagNet.Instr Region RecvKey α where
  dst := (p + 1) % n
  tag := .ofHeader (stepHeader (UInt8.ofNat i) p k m)
  view := microSlice n 0 sh (sendChunk n i p k) m
  recvTag := .ofHeader (stepHeader (UInt8.ofNat i) (back n p 1) k m)
  target := microTarget n 0 sh i p m k
  after := (microInstr op n 0 sh i p m k).after

/-- The steps of both phases. -/
def chainInstr (p t : ℕ) : TagNet.Instr Region RecvKey α :=
  phaseInstr op n sh m (t / (n - 1)) p (t % (n - 1))

/-- A chain as a program over tags. -/
def chainProgram (p : ℕ) : List (TagNet.Instr Region RecvKey α) :=
  (List.range (2 * (n - 1))).map (chainInstr op n sh m p)

/-- The ranks that run it. Their sends complete at once. -/
def chainNet : TagNet.Net Region RecvKey α := ⟨n, chainProgram op n sh m, fun _ _ => true⟩

end Program

/-- The step at a position of a phase. -/
theorem chainInstr_eq (op : Op α) (hk : k < n - 1) : chainInstr op n sh m p (i * (n - 1) + k) =
    phaseInstr op n sh m i p k := by
  rw [chainInstr, Nat.mul_comm, Nat.mul_add_div (by omega), Nat.div_eq_of_lt hk, Nat.add_zero,
    Nat.mul_add_mod, Nat.mod_eq_of_lt hk]

/-- **The chain is in lockstep**, although its tags repeat. -/
def chainLockstep (op : Op α) (hn : 2 ≤ n) (sh : PipelineShape) (m : ℕ) :
    TagNet.Lockstep n (chainProgram op n sh m) where
  len := 2 * (n - 1)
  instr := chainInstr op n sh m
  prog_eq _ _ := rfl
  src q _ := back n q 1
  src_lt _ hq _ _ := back_lt hq
  dst_src _ hq _ _ := succ_back_one hq
  tag_src _ _ _ _ := rfl
  dst_lt _ _ _ _ := Nat.mod_lt _ (by omega)
  src_dst _ hp _ _ := back_one_succ hp
  unambiguous p hp _ _ q _ _ _ hd _ := by
    rw [← show (p + 1) % n = q from hd, back_one_succ hp]

/-! ### The cells of a chain -/

section Cells

variable {op : Op α}

/-- The rows of a chain are among its cells. -/
theorem chainCells_row {c : ℕ} (hm : m < sh.microChunks) (hc : c < n) {r : Region} {cell : ℕ}
    (h : (microSlice n 0 sh c m).Has r cell) : ChainCells n sh m r cell := by
  obtain ⟨rfl, hlo, hhi⟩ := h
  unfold microSlice at hlo hhi
  dsimp only at hlo hhi
  exact ⟨hm, .inr ⟨rfl, c, hc, cell - (c * sh.chunk n + m * sh.micro n), by omega, by
    rw [rowCell]
    omega⟩⟩

/-- What is received goes to cells of the chain, and to none of another one. -/
theorem microTarget_frame (hsh : sh.Ok n) (hm : m < sh.microChunks) {m' : ℕ} (hne : m' ≠ m)
    (i p k : ℕ) (r : Region) (cell : ℕ) (h : (microTarget n 0 sh i p m k).Has r cell) :
    ¬ChainCells n sh m' r cell := by
  unfold microTarget at h
  split at h
  · obtain rfl : r = (0, .tmp m) := h.1
    exact not_chainCells_tmp hne
  · exact not_chainCells_row hsh hm hne h

/-- The local work of a chain is done in its cells. -/
theorem after_frame (hsh : sh.Ok n) (hm : m < sh.microChunks) {m' : ℕ} (hne : m' ≠ m)
    (i p k : ℕ) (h : Heap Region α) :
    Heap.AgreeOn (ChainCells n sh m') ((microInstr op n 0 sh i p m k).after h) h := by
  intro r cell hfoot
  unfold microInstr
  dsimp only
  split
  · exact op.reduceSlice_of_not_has _ fun hhas => not_chainCells_row hsh hm hne hhas hfoot
  · rfl

/-- What it writes to the cells of the chain depends on nothing but these. -/
theorem after_agree (hm : m < sh.microChunks) (hp : p < n) {h h' : Heap Region α}
    (hag : Heap.AgreeOn (ChainCells n sh m) h h') (i k : ℕ) :
    Heap.AgreeOn (ChainCells n sh m) ((microInstr op n 0 sh i p m k).after h)
      ((microInstr op n 0 sh i p m k).after h') := by
  intro r cell hfoot
  unfold microInstr
  dsimp only
  split
  · dsimp only
    set row := microSlice n 0 sh ((p + n - k - 1) % n) m with hrow
    have hchunk : (p + n - k - 1) % n < n := Nat.mod_lt _ (by omega)
    by_cases hhas : row.Has r cell
    · obtain ⟨rfl, hlo, hhi⟩ := hhas
      obtain ⟨x, rfl⟩ : ∃ x, cell = row.off + x := ⟨cell - row.off, by omega⟩
      have hx : x < row.len := by omega
      have hlen : row.len = (⟨(0, .tmp m), 0, sh.micro n⟩ : Slice Region).len := rfl
      rw [op.reduceSlice_of_has h hlen hx, op.reduceSlice_of_has h' hlen hx]
      exact congrArg₂ op.apply (hag _ _ hfoot) (hag _ _ ⟨hm, .inl rfl⟩)
    · rw [op.reduceSlice_of_not_has _ hhas, op.reduceSlice_of_not_has _ hhas]
      exact hag r cell hfoot
  · exact hag r cell hfoot

/-- What a chain sends is read from its cells. -/
theorem read_agree (hm : m < sh.microChunks) (hp : p < n) {h h' : Heap Region α}
    (hag : Heap.AgreeOn (ChainCells n sh m) h h') (i k : ℕ) :
    h.read (microSlice n 0 sh (sendChunk n i p k) m) =
      h'.read (microSlice n 0 sh (sendChunk n i p k) m) := by
  refine hag.read_eq fun r cell hhas => chainCells_row hm ?_ hhas
  unfold sendChunk
  split <;> exact Nat.mod_lt _ (by omega)

/-- **What the rows hold in the synchronous run.** -/
theorem rows_sync (hn : 2 ≤ n) (hsh : sh.Ok n) (hm : m < sh.microChunks)
    (heap : ℕ → Heap Region α) (t : ℕ) (ht : t ≤ 2 * (n - 1)) {p : ℕ} (hp : p < n) :
    RowsAt op heap n sh p m t ((chainLockstep op hn sh m).sync heap t p) := by
  induction t generalizing p with
  | zero =>
    intro c hc x _
    rw [ringCell, ringAt_zero hp hc]
    rfl
  | succ t ih =>
    have hprev : back n p 1 < n := back_lt hp
    have hold := ih (by omega) hp
    have hk := Nat.mod_lt t (show 0 < n - 1 by omega)
    have ht' : t = t / (n - 1) * (n - 1) + t % (n - 1) := (Nat.div_add_mod' t (n - 1)).symm
    have hi : t / (n - 1) < 2 := Nat.div_lt_of_lt_mul (by omega)
    generalize t / (n - 1) = i at ht' hi
    generalize t % (n - 1) = k at ht' hk
    -- what the previous rank sends is what its row holds
    have hread : ((chainLockstep op hn sh m).sync heap t (back n p 1)).read
        (microSlice n 0 sh (sendChunk n i (back n p 1) k) m) = rowPayload op heap n sh i p m k := by
      have hprev' := ih (by omega) hprev
      rw [ht'] at hprev'
      rw [ht', hprev'.read hprev, succ_back_one hp]
    have hstep : (chainLockstep op hn sh m).sync heap (t + 1) p =
        (microInstr op n 0 sh i p m k).after (((chainLockstep op hn sh m).sync heap t p).copyInto
          (microTarget n 0 sh i p m k) (rowPayload op heap n sh i p m k)) := by
      rw [← hread]
      show (chainInstr op n sh m p t).after (Heap.copyInto _ (chainInstr op n sh m p t).target
        (Heap.read _ (chainInstr op n sh m (back n p 1) t).view)) = _
      conv_lhs => rw [ht']
      rw [chainInstr_eq op hk, chainInstr_eq op hk, ← ht']
      rfl
    have hlen : ∀ x < sh.micro n, x < (rowPayload op heap n sh i p m k).length := by
      intro x hx
      rwa [rowPayload, List.length_map, List.length_range]
    rw [hstep]
    rcases (show i = 0 ∨ i = 1 by omega) with rfl | rfl
    · rw [Nat.zero_mul, Nat.zero_add] at ht'
      subst ht'
      refine RowsAt.reduceScatter hsh hp hm hk hold (fun c hc x hx => ?_) fun x hx => ?_
      · exact Heap.copyInto_of_not_has _ _ fun hc => by cases hc.1
      · have hcopy := Heap.copyInto_of_has ((chainLockstep op hn sh m).sync heap t p)
          (s := ⟨(0, .tmp m), 0, sh.micro n⟩) hx (List.getElem?_eq_getElem (hlen x hx))
        rw [Nat.zero_add] at hcopy
        rw [List.getElem?_eq_getElem (hlen x hx)]
        exact congrArg some hcopy.symm
    · rw [Nat.one_mul] at ht'
      rw [ht'] at hold ⊢
      exact RowsAt.allgather hsh hp hm hk hold fun c hc x hx => rfl

end Cells

/-! ### A run of the pipelined ring, seen from a chain -/

/-- The message that is in the router under a key. -/
def inRouter (s : AmNet.State Region α) (q : ℕ) (κ : RecvKey) : List (List α) :=
  match (s.rank q).node.router.slots κ with
  | some (.early e) => [e.bytes]
  | _ => []

/-- The messages for rank `q` under a key that it has not taken, first to last. -/
def held (n : ℕ) (s : AmNet.State Region α) (q : ℕ) (κ : RecvKey) : List (List α) :=
  inRouter s q κ ++
    ((s.chan (back n q 1) q).filter fun msg => msg.key = κ).map fun msg => msg.payload.bytes

/-- The key of the receive of a step. -/
def recvKey (n i q m k : ℕ) : RecvKey :=
  .ofHeader (stepHeader (UInt8.ofNat i) (back n q 1) k m)

/-- Chain `m` of the ranks is where the ranks of the program over tags are. -/
structure Follows (n : ℕ) (sh : PipelineShape) (m : ℕ) (s : AmNet.State Region α)
    (t : TagNet.State Region RecvKey α) : Prop where
  pc : ∀ p < n, (t.rank p).pc = (s.rank p).stage * (n - 1) + ((s.rank p).chain m).pc
  await : ∀ p < n, (t.rank p).await = ((s.rank p).chain m).await.map fun _ =>
    ⟨true, (s.rank p).node.done ((s.rank p).stage, m, ((s.rank p).chain m).pc)⟩
  heap : ∀ p < n, Heap.AgreeOn (ChainCells n sh m) (s.rank p).node.heap (t.rank p).heap
  wire : ∀ q < n, ∀ κ, κ.microChunk = UInt8.ofNat m →
    (t.wire (back n q 1) q κ).map TagNet.Message.bytes = held n s q κ

variable {op : Op α} {s s' : AmNet.State Region α} {t : TagNet.State Region RecvKey α}

theorem inRouter_of_early {κ : RecvKey} {e : Payload α ℕ}
    (h : (s.rank q).node.router.slots κ = some (.early e)) : inRouter s q κ = [e.bytes] := by
  rw [inRouter, h]

theorem inRouter_of_not_early {κ : RecvKey}
    (h : ∀ e, (s.rank q).node.router.slots κ ≠ some (.early e)) : inRouter s q κ = [] := by
  unfold inRouter
  split
  · next e he => exact absurd he (h e)
  · rfl

theorem inRouter_congr {κ : RecvKey} (h : (s'.rank q).node.router.slots κ =
    (s.rank q).node.router.slots κ) : inRouter s' q κ = inRouter s q κ := by
  rw [inRouter, inRouter, h]

/-- A step that the chain does not see. -/
theorem Follows.congr (h : Follows n sh m s t)
    (hpc : ∀ p < n, (s'.rank p).stage * (n - 1) + ((s'.rank p).chain m).pc =
      (s.rank p).stage * (n - 1) + ((s.rank p).chain m).pc)
    (hawait : ∀ p < n, (((s'.rank p).chain m).await.map fun _ => (⟨true, (s'.rank p).node.done
        ((s'.rank p).stage, m, ((s'.rank p).chain m).pc)⟩ : TagNet.Await)) =
      ((s.rank p).chain m).await.map fun _ => ⟨true, (s.rank p).node.done
        ((s.rank p).stage, m, ((s.rank p).chain m).pc)⟩)
    (hheap : ∀ p < n, Heap.AgreeOn (ChainCells n sh m) (s'.rank p).node.heap (s.rank p).node.heap)
    (hheld : ∀ q < n, ∀ κ, κ.microChunk = UInt8.ofNat m → held n s' q κ = held n s q κ) :
    Follows n sh m s' t where
  pc p hp := (h.pc p hp).trans (hpc p hp).symm
  await p hp := (h.await p hp).trans (hawait p hp).symm
  heap p hp := (hheap p hp).trans (h.heap p hp)
  wire q hq κ hκ := (h.wire q hq κ hκ).trans (hheld q hq κ hκ).symm

/-- It holds at the start. -/
theorem follows_start (heap : ℕ → Heap Region α) :
    Follows n sh m (start heap) (TagNet.start heap) where
  pc p _ := by
    show 0 = 0 * (n - 1) + 0
    rw [Nat.zero_mul]
  await _ _ := rfl
  heap _ _ := .refl _ _
  wire _ _ _ _ := rfl

/-- The position of an await point is one of the program over tags. -/
theorem Follows.pc_lt {hn : 2 ≤ n} {hsh : sh.Ok n} (h : Follows n sh m s t)
    (hat : (pipelinedLayout op hn hsh).At (s.rank p).stage p m ((s.rank p).chain m).pc) :
    (t.rank p).pc < (chainLockstep op hn sh m).len ∧
      (chainLockstep op hn sh m).instr p (t.rank p).pc =
        phaseInstr op n sh m (s.rank p).stage p ((s.rank p).chain m).pc := by
  have hstage : (s.rank p).stage < 2 := hat.stage
  have hpos : ((s.rank p).chain m).pc < n - 1 := hat.pos
  rw [h.pc p hat.rank]
  refine ⟨?_, chainInstr_eq op hpos⟩
  show _ < 2 * (n - 1)
  have := Nat.mul_le_mul_right (n - 1) (Nat.le_of_lt_succ hstage)
  omega

/-- A rank of the program over tags that issues its send, which completes at once. -/
theorem reaches_issue (hn : 2 ≤ n) (hp : p < n)
    (hk : (t.rank p).pc < (chainLockstep op hn sh m).len) (hawait : (t.rank p).await = none)
    {i : TagNet.Instr Region RecvKey α}
    (hi : (chainLockstep op hn sh m).instr p (t.rank p).pc = i) :
    Reaches (TagNet.step (chainNet op n sh m)) t
      { rank := Function.update t.rank p { t.rank p with await := some ⟨true, false⟩ }
        wire := t.setWire p i.dst i.tag
          (t.wire p i.dst i.tag ++ [⟨(t.rank p).pc, (t.rank p).heap.read i.view⟩]) } := by
  have hpoll : TagNet.step (chainNet op n sh m) t (.poll p) = _ :=
    (chainLockstep op hn sh m).step_poll hp hk hawait
  rw [hi] at hpoll
  refine (Steps.single trivial hpoll).trans (.single (e := .sent p) trivial ?_)
  set t₁ : TagNet.State Region RecvKey α :=
    { rank := Function.update t.rank p { t.rank p with await := some ⟨false, false⟩ }
      wire := t.setWire p i.dst i.tag
        (t.wire p i.dst i.tag ++ [⟨(t.rank p).pc, (t.rank p).heap.read i.view⟩]) } with ht₁
  have hself : t₁.rank p = { t.rank p with await := some ⟨false, false⟩ } := Function.update_self ..
  have hsent : TagNet.step (chainNet op n sh m) t₁ (.sent p) = _ :=
    (chainLockstep op hn sh m).step_sent_eager hp (by rwa [hself]) (by rw [hself]) rfl
  rw [hsent, hself]
  simp only [ht₁, Function.update_idem]

/-- The steps of a phase. -/
theorem instr_eq {hn : 2 ≤ n} {hsh : sh.Ok n} (i p m k : ℕ) :
    (pipelinedLayout op hn hsh).instr i p m k = microInstr op n 0 sh i p m k := rfl

/-- The chains have different numbers in 8 bits, as there are at most 255 of them. -/
theorem chunk_inj (hsh : sh.Ok n) {m' : ℕ} (hm : m < sh.microChunks)
    (hm' : m' < sh.microChunks) (h : UInt8.ofNat m = UInt8.ofNat m') : m = m' := by
  have hle := hsh.microChunks_le
  have hnat := congrArg UInt8.toNat h
  rw [UInt8.toNat_ofNat', UInt8.toNat_ofNat'] at hnat
  omega

/-- What is received under the key of a chain is received by that chain. -/
theorem recv_chain {hn : 2 ≤ n} {hsh : sh.Ok n} {i m' : ℕ} {κ : RecvKey} {target : Slice Region}
    (hm : m < sh.microChunks) (hκ : κ.microChunk = UInt8.ofNat m)
    (h : (pipelinedLayout op hn hsh).IsRecv i q m' k κ target) : m' = m := by
  obtain ⟨-, hrecv⟩ := Layout.isRecv_ofPlans.mp h
  obtain ⟨-, hm', -, rfl, -⟩ := pipelinedPlan_isRecv.mp hrecv
  exact chunk_inj hsh hm' hm hκ

/-- **The first poll of a receive.** -/
theorem pollRecv_chain {r : AmNet.Rank Region α} {i k : ℕ} (hi : r.stage = i)
    (hk : (r.chain m).pc = k) (hdone : r.node.done (i, m, k) = false) :
    (∃ e, r.node.router.slots (recvKey n i p m k) = some (.early e) ∧
        (r.pollRecv m (microInstr op n 0 sh i p m k)).2 =
          { r.node with router := r.node.router.remove (recvKey n i p m k) }.fill
            (microTarget n 0 sh i p m k) (i, m, k) e) ∨
      (∀ e, r.node.router.slots (recvKey n i p m k) ≠ some (.early e)) ∧
        (r.pollRecv m (microInstr op n 0 sh i p m k)).2 =
          { r.node with
            router := r.node.router.insert (recvKey n i p m k)
              (.pending ⟨microTarget n 0 sh i p m k, (i, m, k), some m⟩) } := by
  subst hi hk
  rcases Rank.pollRecv_cases (i := microInstr op n 0 sh r.stage p m (r.chain m).pc) hdone with
    ⟨hnone, -⟩ | ⟨κ, target, hrecv, ⟨e, hslot, hp⟩ | ⟨hno, hp⟩⟩
  · cases hnone
  · cases hrecv
    exact .inl ⟨e, hslot, congrArg Prod.snd hp⟩
  · cases hrecv
    exact .inr ⟨hno, congrArg Prod.snd hp⟩

/-- What is held is a matter of the slot and of the channel. -/
theorem held_congr {κ : RecvKey}
    (hslot : (s'.rank q).node.router.slots κ = (s.rank q).node.router.slots κ)
    (hchan : (s'.chan (back n q 1) q).filter (fun msg => msg.key = κ) =
      (s.chan (back n q 1) q).filter fun msg => msg.key = κ) : held n s' q κ = held n s q κ := by
  rw [held, held, inRouter_congr hslot, hchan]

/-- **A step of another chain** of one rank. -/
theorem Follows.other (h : Follows n sh m s t) (hrank : ∀ r, r ≠ p → s'.rank r = s.rank r)
    (hstage : (s'.rank p).stage = (s.rank p).stage)
    (hchain : (s'.rank p).chain m = (s.rank p).chain m)
    (hdone : ∀ i k, (s'.rank p).node.done (i, m, k) = (s.rank p).node.done (i, m, k))
    (hheap : Heap.AgreeOn (ChainCells n sh m) (s'.rank p).node.heap (s.rank p).node.heap)
    (hheld : ∀ q < n, ∀ κ, κ.microChunk = UInt8.ofNat m → held n s' q κ = held n s q κ) :
    Follows n sh m s' t := by
  refine h.congr (fun r _ => ?_) (fun r _ => ?_) (fun r _ => ?_) hheld <;>
    rcases eq_or_ne r p with rfl | hr
  · rw [hstage, hchain]
  · rw [hrank r hr]
  · rw [hstage, hchain, hdone]
  · rw [hrank r hr]
  · exact hheap
  · rw [hrank r hr]
    exact .refl _ _

/-- A step that changes one rank, and neither its router nor what it has received. -/
theorem Follows.update (h : Follows n sh m s t) {r : AmNet.Rank Region α}
    (hpc : r.stage * (n - 1) + (r.chain m).pc =
      (s.rank p).stage * (n - 1) + ((s.rank p).chain m).pc)
    (hawait : ((r.chain m).await.map fun _ =>
        (⟨true, r.node.done (r.stage, m, (r.chain m).pc)⟩ : TagNet.Await)) =
      ((s.rank p).chain m).await.map fun _ =>
        ⟨true, (s.rank p).node.done ((s.rank p).stage, m, ((s.rank p).chain m).pc)⟩)
    (hrouter : r.node.router = (s.rank p).node.router)
    (hheap : Heap.AgreeOn (ChainCells n sh m) r.node.heap (s.rank p).node.heap) :
    Follows n sh m { s with rank := Function.update s.rank p r } t := by
  refine h.congr (fun q _ => ?_) (fun q _ => ?_) (fun q _ => ?_) fun q _ κ _ =>
    held_congr ?_ rfl <;> dsimp only <;> rcases eq_or_ne q p with rfl | hq
  · rw [Function.update_self, hpc]
  · rw [Function.update_of_ne hq]
  · rw [Function.update_self, hawait]
  · rw [Function.update_of_ne hq]
  · rw [Function.update_self]
    exact hheap
  · rw [Function.update_of_ne hq]
    exact .refl _ _
  · rw [Function.update_self, hrouter]
  · rw [Function.update_of_ne hq]

/-- The chain `m` of a rank in the middle of a first poll: its sends are on their way, and its
receive has not been polled. -/
def posted (s : AmNet.State Region α) (p m : ℕ) (I : Instr Region α) : AmNet.State Region α where
  rank := Function.update s.rank p ((s.rank p).setChain m ⟨((s.rank p).chain m).pc,
    some ⟨List.range I.sends.length, ((s.rank p).pollRecv m I).1⟩⟩)
  chan := (s.issue p m I).chan

section Posted

variable {I : Instr Region α}

theorem posted_self : (posted s p m I).rank p = (s.rank p).setChain m ⟨((s.rank p).chain m).pc,
    some ⟨List.range I.sends.length, ((s.rank p).pollRecv m I).1⟩⟩ := Function.update_self ..

theorem posted_chain : ((posted s p m I).rank p).chain m = ⟨((s.rank p).chain m).pc,
    some ⟨List.range I.sends.length, ((s.rank p).pollRecv m I).1⟩⟩ := by
  rw [posted_self, Rank.chain_setChain_self]

theorem posted_of_ne {r : ℕ} (hr : r ≠ p) : (posted s p m I).rank r = s.rank r :=
  Function.update_of_ne hr ..

end Posted

section Steps

variable (hn : 2 ≤ n) (hsh : sh.Ok n) (hm : m < sh.microChunks)

include hn hm

/-- **A first poll, before its receive**: the message is on the wire. -/
theorem Follows.post (h : Follows n sh m s t)
    (hat : (pipelinedLayout op hn hsh).At (s.rank p).stage p m ((s.rank p).chain m).pc)
    (hawait : ((s.rank p).chain m).await = none)
    (hnot : (s.rank p).node.done ((s.rank p).stage, m, ((s.rank p).chain m).pc) = false)
    {msg : AmNet.Message α}
    (hkey : msg.key = .ofHeader (stepHeader (UInt8.ofNat (s.rank p).stage) p
      ((s.rank p).chain m).pc m))
    (hbytes : msg.payload.bytes = (s.rank p).node.heap.read
      (microSlice n 0 sh (sendChunk n (s.rank p).stage p ((s.rank p).chain m).pc) m))
    (a : AmNet.Await Region) (hrank : ∀ q, q ≠ p → s'.rank q = s.rank q)
    (hself : s'.rank p = (s.rank p).setChain m ⟨((s.rank p).chain m).pc, some a⟩)
    (hchan : ∀ q < n, s'.chan (back n q 1) q =
      s.chan (back n q 1) q ++ if back n q 1 = p then [msg] else []) :
    ∃ t', Reaches (TagNet.step (chainNet op n sh m)) t t' ∧ Follows n sh m s' t' := by
  have hp := hat.rank
  obtain ⟨hlt, hinstr⟩ := h.pc_lt hat
  have htawait : (t.rank p).await = none := by rw [h.await p hp, hawait, Option.map_none]
  have hread : (t.rank p).heap.read (microSlice n 0 sh
      (sendChunk n (s.rank p).stage p ((s.rank p).chain m).pc) m) = msg.payload.bytes := by
    rw [hbytes, read_agree hm hp (h.heap p hp)]
  have hnode : ∀ q, (s'.rank q).node = (s.rank q).node := by
    intro q
    rcases eq_or_ne q p with rfl | hne
    · rw [hself]
      rfl
    · rw [hrank q hne]
  refine ⟨_, reaches_issue hn hp hlt htawait hinstr, fun q hq => ?_, fun q hq => ?_, fun q hq => ?_,
    fun q hq κ hκ => ?_⟩
  · dsimp only
    rcases eq_or_ne q p with rfl | hne
    · rw [Function.update_self, hself, Rank.chain_setChain_self]
      exact h.pc q hq
    · rw [Function.update_of_ne hne, hrank q hne]
      exact h.pc q hq
  · dsimp only
    rcases eq_or_ne q p with rfl | hne
    · rw [Function.update_self, hself, Rank.chain_setChain_self]
      exact congrArg some (congrArg _ hnot.symm)
    · rw [Function.update_of_ne hne, hrank q hne]
      exact h.await q hq
  · dsimp only
    rw [hnode]
    rcases eq_or_ne q p with rfl | hne
    · rw [Function.update_self]
      exact h.heap q hq
    · rw [Function.update_of_ne hne]
      exact h.heap q hq
  · have hrouter : inRouter s' q κ = inRouter s q κ := inRouter_congr (by rw [hnode])
    have hold := h.wire q hq κ hκ
    rw [held, hrouter, hchan q hq]
    dsimp only [phaseInstr]
    rw [hread, ← hkey, TagNet.State.setWire]
    -- on the wire of its key the message is the last one, and the others are as they were
    by_cases hwire : back n q 1 = p ∧ q = (p + 1) % n ∧ κ = msg.key
    · obtain ⟨hq', rfl, rfl⟩ := hwire
      rw [hq'] at hold
      rw [hq', if_pos ⟨rfl, rfl, rfl⟩, if_pos rfl, List.map_append, hold, held, hq',
        List.filter_append, List.map_append, ← List.append_assoc]
      simp
    · rw [if_neg hwire, hold, held]
      split
      · next hq' =>
        have hne : msg.key ≠ κ := fun hc => hwire ⟨hq', by rw [← hq', succ_back_one hq], hc.symm⟩
        simp [hne]
      · rw [List.append_nil]

omit hm in
/-- **A receive is given its message**, which is the first one on the wire. -/
theorem Follows.take (h : Follows n sh m s t)
    (hat : (pipelinedLayout op hn hsh).At (s.rank q).stage q m ((s.rank q).chain m).pc)
    {a : AmNet.Await Region} (hawait : ((s.rank q).chain m).await = some a)
    (hnot : (s.rank q).node.done ((s.rank q).stage, m, ((s.rank q).chain m).pc) = false)
    {bytes : List α} {κ : RecvKey} (hκ : κ = recvKey n (s.rank q).stage q m ((s.rank q).chain m).pc)
    (hheld : held n s q κ = bytes :: held n s' q κ)
    (hheld' : ∀ r κ', ¬(r = q ∧ κ' = κ) → held n s' r κ' = held n s r κ')
    (hrank : ∀ r, r ≠ q → s'.rank r = s.rank r)
    (hstage : (s'.rank q).stage = (s.rank q).stage)
    (hchain : (s'.rank q).chain m = (s.rank q).chain m)
    (hdone : (s'.rank q).node.done ((s.rank q).stage, m, ((s.rank q).chain m).pc) = true)
    (hheap : (s'.rank q).node.heap = (s.rank q).node.heap.copyInto
      (microTarget n 0 sh (s.rank q).stage q m ((s.rank q).chain m).pc) bytes) :
    ∃ t', Reaches (TagNet.step (chainNet op n sh m)) t t' ∧ Follows n sh m s' t' := by
  have hq := hat.rank
  obtain ⟨hlt, hinstr⟩ := h.pc_lt hat
  have htawait : (t.rank q).await = some ⟨true, false⟩ := by
    rw [h.await q hq, hawait, hnot, Option.map_some]
  have hmicro : κ.microChunk = UInt8.ofNat m := by rw [hκ]; rfl
  have hwire := h.wire q hq κ hmicro
  rw [hheld] at hwire
  obtain ⟨msg, ms, hms, hmsg, hrest⟩ := List.map_eq_cons_iff.mp hwire
  have hrecv : TagNet.step (chainNet op n sh m) t (.recv (back n q 1) q) = _ :=
    (chainLockstep op hn sh m).step_recv hq hlt htawait (m := msg)
      ((by rw [hinstr, ← hms, hκ]; rfl : _ = msg :: ms))
  rw [hinstr] at hrecv
  refine ⟨_, .single trivial hrecv, fun r hr => ?_, fun r hr => ?_, fun r hr => ?_,
    fun r hr κ' hκ' => ?_⟩
  · dsimp only
    rcases eq_or_ne r q with rfl | hne
    · rw [Function.update_self, hstage, hchain]
      exact h.pc r hr
    · rw [Function.update_of_ne hne, hrank r hne]
      exact h.pc r hr
  · dsimp only
    rcases eq_or_ne r q with rfl | hne
    · rw [Function.update_self, hstage, hchain, hawait, hdone, Option.map_some]
    · rw [Function.update_of_ne hne, hrank r hne]
      exact h.await r hr
  · dsimp only
    rcases eq_or_ne r q with rfl | hne
    · rw [Function.update_self, hheap, hmsg]
      exact (h.heap r hr).copyInto _ _
    · rw [Function.update_of_ne hne, hrank r hne]
      exact h.heap r hr
  · have hold := h.wire r hr κ' hκ'
    dsimp only [phaseInstr, TagNet.State.setWire]
    rw [show RecvKey.ofHeader (stepHeader (UInt8.ofNat (s.rank q).stage) (back n q 1)
      ((s.rank q).chain m).pc m) = κ from hκ.symm]
    by_cases heq : r = q ∧ κ' = κ
    · obtain ⟨rfl, rfl⟩ := heq
      rw [if_pos ⟨rfl, rfl, rfl⟩, hrest]
    · rw [if_neg fun hc => heq hc.2, hold, hheld' r κ' heq]

/-- An await point that is left is left in the run over tags as well. -/
theorem Follows.proceed (h : Follows n sh m s t)
    (hlocal : Local (pipelinedLayout op hn hsh) p (s.rank p))
    (hat : (pipelinedLayout op hn hsh).At (s.rank p).stage p m ((s.rank p).chain m).pc)
    {a : AmNet.Await Region} (hawait : ((s.rank p).chain m).await = some a)
    (hcomplete : a.Complete (s.rank p).node m) (len : ℕ) :
    ∃ t', Reaches (TagNet.step (chainNet op n sh m)) t t' ∧
      Follows n sh m (s.proceed p m ((pipelinedLayout op hn hsh).instr (s.rank p).stage p m
        ((s.rank p).chain m).pc) len) t' := by
  have hp := hat.rank
  obtain ⟨hlt, hinstr⟩ := h.pc_lt hat
  have hdone : (s.rank p).node.done ((s.rank p).stage, m, ((s.rank p).chain m).pc) = true := by
    obtain ⟨fut, hfut, -, hd, -, hpolled⟩ := hlocal.recv_some m a _ _ hawait rfl
    rw [← hd]
    exact (poll_ready_iff hpolled).mp (hcomplete.2 fut hfut)
  have htawait : (t.rank p).await = some ⟨true, true⟩ := by
    rw [h.await p hp, hawait, hdone, Option.map_some]
  have hstep : TagNet.step (chainNet op n sh m) t (.poll p) = _ :=
    (chainLockstep op hn sh m).step_proceed hp hlt htawait
  rw [hinstr] at hstep
  refine ⟨_, .single trivial hstep, fun r hr => ?_, fun r hr => ?_, fun r hr => ?_,
    fun r hr κ hκ => ?_⟩ <;> dsimp only [State.proceed]
  · rcases eq_or_ne r p with rfl | hne
    · rw [Function.update_self, Function.update_self, Rank.chain_setChain_self, h.pc r hr]
      exact Nat.add_assoc ..
    · rw [Function.update_of_ne hne, Function.update_of_ne hne]
      exact h.pc r hr
  · rcases eq_or_ne r p with rfl | hne
    · rw [Function.update_self, Function.update_self, Rank.chain_setChain_self]
      rfl
    · rw [Function.update_of_ne hne, Function.update_of_ne hne]
      exact h.await r hr
  · rcases eq_or_ne r p with rfl | hne
    · rw [Function.update_self, Function.update_self]
      exact after_agree hm hr (h.heap r hr) _ _
    · rw [Function.update_of_ne hne, Function.update_of_ne hne]
      exact h.heap r hr
  · refine (h.wire r hr κ hκ).trans (Eq.symm (held_congr ?_ ?_)) <;> dsimp only
    rcases eq_or_ne r p with rfl | hne
    · rw [Function.update_self]
    · rw [Function.update_of_ne hne]

omit hm in
/-- **A first poll of another chain.** -/
theorem Follows.issue_other {m' : ℕ} (hm : m < sh.microChunks) (hne : m' ≠ m)
    (h : Follows n sh m s t) (hlocal : Local (pipelinedLayout op hn hsh) p (s.rank p))
    (hat : (pipelinedLayout op hn hsh).At (s.rank p).stage p m' ((s.rank p).chain m').pc)
    (hawait : ((s.rank p).chain m').await = none) :
    Follows n sh m (s.issue p m' ((pipelinedLayout op hn hsh).instr (s.rank p).stage p m'
      ((s.rank p).chain m').pc)) t := by
  set I := (pipelinedLayout op hn hsh).instr (s.rank p).stage p m' ((s.rank p).chain m').pc with hI
  have hdone := hlocal.done_eq_false hawait
  have hmessages : ∀ q κ, κ.microChunk = UInt8.ofNat m →
      ((s.issue p m' I).chan (back n q 1) q).filter (fun msg => msg.key = κ) =
        (s.chan (back n q 1) q).filter fun msg => msg.key = κ := by
    intro q κ hκ
    rw [chan_issue]
    split
    · next hq =>
      rw [hq, List.filter_append, List.append_right_eq_self, List.filter_eq_nil_iff]
      intro msg hmsg hkey
      obtain ⟨sd, hsd, rfl⟩ := List.mem_map.mp hmsg
      obtain rfl := List.mem_singleton.mp (List.mem_filter.mp hsd).1
      refine hne (chunk_inj hsh hat.chain hm ?_)
      rw [← hκ, ← of_decide_eq_true hkey]
      rfl
    · rfl
  -- what the poll does at the node: nothing under the keys of the other chain
  have hnode : (∀ i k,
        ((s.rank p).pollRecv m' I).2.done (i, m, k) = (s.rank p).node.done (i, m, k)) ∧
      Heap.AgreeOn (ChainCells n sh m) ((s.rank p).pollRecv m' I).2.heap (s.rank p).node.heap ∧
      ∀ κ, κ.microChunk = UInt8.ofNat m →
        ((s.rank p).pollRecv m' I).2.router.slots κ = (s.rank p).node.router.slots κ := by
    have hκ₀ : ∀ κ, κ.microChunk = UInt8.ofNat m →
        κ ≠ recvKey n (s.rank p).stage p m' ((s.rank p).chain m').pc := fun κ hκ hc =>
      hne (chunk_inj hsh hat.chain hm (by rw [← hκ, hc]; rfl))
    rcases pollRecv_chain rfl rfl hdone with ⟨e, -, hp⟩ | ⟨-, hp⟩ <;> rw [hI, instr_eq, hp]
    · refine ⟨fun i k => Function.update_of_ne (fun hc => ?_) .., ?_,
        fun κ hκ => AmRouter.remove_slots_of_ne _ (hκ₀ κ hκ)⟩
      · simp only [Prod.mk.injEq] at hc
        exact hne hc.2.1.symm
      · exact Heap.agreeOn_copyInto _ (microTarget_frame hsh hat.chain hne.symm _ _ _)
    · exact ⟨fun _ _ => rfl, .refl _ _, fun κ hκ => AmRouter.insert_slots_of_ne _ _ (hκ₀ κ hκ)⟩
  refine h.other (fun r hr => rank_issue_of_ne I hr) ?_ ?_ (fun i k => ?_) ?_ fun q hq κ hκ =>
    held_congr ?_ (hmessages q κ hκ)
  · rw [rank_issue_self]
    rfl
  · rw [rank_issue_self]
    exact ((s.rank p).chain_setChain m' m _).trans (if_neg hne.symm)
  · rw [node_issue_self]
    exact hnode.1 i k
  · rw [node_issue_self]
    exact hnode.2.1
  · rcases eq_or_ne q p with rfl | hr
    · rw [node_issue_self]
      exact hnode.2.2 κ hκ
    · rw [rank_issue_of_ne I hr]

omit hn in
/-- **The sends of a first poll** are those of one in the run over tags. -/
theorem Follows.posts (hn : 2 ≤ n) (h : Follows n sh m s t)
    (hat : (pipelinedLayout op hn hsh).At (s.rank p).stage p m ((s.rank p).chain m).pc)
    (hawait : ((s.rank p).chain m).await = none)
    (hnot : (s.rank p).node.done ((s.rank p).stage, m, ((s.rank p).chain m).pc) = false) :
    ∃ t', Reaches (TagNet.step (chainNet op n sh m)) t t' ∧
      Follows n sh m (posted s p m (microInstr op n 0 sh (s.rank p).stage p m
        ((s.rank p).chain m).pc)) t' := by
  set msg := (microSend n 0 sh (s.rank p).stage p m ((s.rank p).chain m).pc).message (s.rank p)
    with hmsg
  refine h.post hn hsh hm hat hawait hnot (rfl : msg.key = _) (rfl : msg.payload.bytes = _) _
    (fun r hr => posted_of_ne hr) posted_self fun q hq => ?_
  show (if _ then _ else _) = _
  split
  · next hp =>
    have hdst : (p + 1) % n = q := by rw [← hp, succ_back_one hq]
    rw [hp, List.filter_eq_self.mpr]
    · rfl
    · intro sd hsd
      obtain rfl := List.mem_singleton.mp hsd
      exact decide_eq_true hdst
  · rw [List.append_nil]

omit hm in
/-- **A first poll that finds its message** takes it in the run over tags as well. -/
theorem Follows.issue_taken {I : Instr Region α} (h : Follows n sh m (posted s p m I) t)
    (hat : (pipelinedLayout op hn hsh).At (s.rank p).stage p m ((s.rank p).chain m).pc)
    (hnot : (s.rank p).node.done ((s.rank p).stage, m, ((s.rank p).chain m).pc) = false)
    {e : Payload α ℕ} {κ : RecvKey}
    (hκ : κ = recvKey n (s.rank p).stage p m ((s.rank p).chain m).pc)
    (hslot : (s.rank p).node.router.slots κ = some (.early e))
    (hpoll : ((s.rank p).pollRecv m I).2 =
      { (s.rank p).node with router := (s.rank p).node.router.remove κ }.fill
        (microTarget n 0 sh (s.rank p).stage p m ((s.rank p).chain m).pc)
        ((s.rank p).stage, m, ((s.rank p).chain m).pc) e) :
    ∃ t', Reaches (TagNet.step (chainNet op n sh m)) t t' ∧
      Follows n sh m (s.issue p m I) t' := by
  have hnode : ((s.issue p m I).rank p).node = _ := (node_issue_self I).trans hpoll
  have hself : (posted s p m I).rank p = _ := posted_self
  have hne : ∀ r, r ≠ p → (s.issue p m I).rank r = (posted s p m I).rank r := fun r hr =>
    (rank_issue_of_ne I hr).trans (posted_of_ne hr).symm
  obtain ⟨hdone, hslots, hslot'⟩ := filled_of_node (s := posted s p m I) (κ := κ) hnode
    (fun r hr => by rw [hne r hr]) (by rw [hself]; rfl) (by rw [hself]; rfl)
  have hheld : held n (posted s p m I) p κ = e.bytes :: held n (s.issue p m I) p κ := by
    have hbefore : inRouter (posted s p m I) p κ = [e.bytes] :=
      inRouter_of_early (by rw [hself]; exact hslot)
    have hafter : inRouter (s.issue p m I) p κ = [] := inRouter_of_not_early fun e' he' => by
      cases hslot'.symm.trans he'
    rw [held, held, hbefore, hafter]
    rfl
  refine h.take hn hsh (κ := κ) ?_ (congrArg Chain.await posted_chain) ?_ ?_ hheld
    (fun r κ' hκ' => held_congr (hslots r κ' hκ') rfl) hne ?_ ?_ ((hdone p _).mpr (.inr ⟨rfl, ?_⟩))
    ?_
  · rw [hself, Rank.chain_setChain_self]
    exact hat
  · rw [hself, Rank.chain_setChain_self]
    exact hnot
  · rw [hself, Rank.chain_setChain_self]
    exact hκ
  · rw [hself, rank_issue_self]
  · rw [hself, rank_issue_self]
  · rw [hself, Rank.chain_setChain_self]
    rfl
  · rw [hnode, hself, Rank.chain_setChain_self]
    rfl

omit hn hm in
/-- **A first poll that finds nothing** leaves what is held as it is. -/
theorem Follows.issue_registers {I : Instr Region α} (h : Follows n sh m (posted s p m I) t)
    {κ : RecvKey} {pr : PendingRecv Region Name ℕ}
    (hslot : ∀ e, (s.rank p).node.router.slots κ ≠ some (.early e))
    (hpoll : ((s.rank p).pollRecv m I).2 =
      { (s.rank p).node with router := (s.rank p).node.router.insert κ (.pending pr) }) :
    Follows n sh m (s.issue p m I) t := by
  have hnode : ((s.issue p m I).rank p).node = _ := (node_issue_self I).trans hpoll
  have hself : (posted s p m I).rank p = _ := posted_self
  have hne : ∀ r, r ≠ p → (s.issue p m I).rank r = (posted s p m I).rank r := fun r hr =>
    (rank_issue_of_ne I hr).trans (posted_of_ne hr).symm
  refine h.other hne ?_ ?_ (fun i k => ?_) ?_ fun q _ κ' _ => ?_
  · rw [hself, rank_issue_self]
  · rw [hself, rank_issue_self]
  · rw [hnode, hself]
    rfl
  · rw [hnode, hself]
    exact .refl _ _
  · by_cases heq : q = p ∧ κ' = κ
    · obtain ⟨rfl, rfl⟩ := heq
      have hbefore : inRouter (posted s q m I) q κ' = [] :=
        inRouter_of_not_early fun e he => hslot e (by rwa [hself] at he)
      have hafter : inRouter (s.issue q m I) q κ' = [] := inRouter_of_not_early fun e he => by
        rw [hnode] at he
        cases (AmRouter.insert_slots_self ..).symm.trans he
      rw [held, held, hbefore, hafter]
      rfl
    · refine held_congr ?_ rfl
      rcases eq_or_ne q p with rfl | hr
      · rw [hnode, hself]
        exact AmRouter.insert_slots_of_ne _ _ fun hc => heq ⟨rfl, hc⟩
      · rw [hne q hr]

/-- **A first poll** is one in the run over tags as well, which takes the message that was
early. -/
theorem Follows.issue (h : Follows n sh m s t)
    (hlocal : Local (pipelinedLayout op hn hsh) p (s.rank p))
    (hat : (pipelinedLayout op hn hsh).At (s.rank p).stage p m ((s.rank p).chain m).pc)
    (hawait : ((s.rank p).chain m).await = none) :
    ∃ t', Reaches (TagNet.step (chainNet op n sh m)) t t' ∧
      Follows n sh m (s.issue p m ((pipelinedLayout op hn hsh).instr (s.rank p).stage p m
        ((s.rank p).chain m).pc)) t' := by
  have hnot := hlocal.done_eq_false hawait
  rw [instr_eq]
  -- first the messages, and then the receive
  obtain ⟨t₁, ht₁, h₁⟩ := h.posts hsh hm hn hat hawait hnot
  rcases pollRecv_chain rfl rfl hnot with ⟨e, hslot, hpoll⟩ | ⟨hslot, hpoll⟩
  · obtain ⟨t₂, ht₂, h₂⟩ := h₁.issue_taken hn hsh hat hnot rfl hslot hpoll
    exact ⟨t₂, ht₁.trans ht₂, h₂⟩
  · exact ⟨t₁, ht₁, h₁.issue_registers hslot hpoll⟩

omit hn hm in
/-- The channel a message is on. -/
theorem chan_of_steady {hn : 2 ≤ n} (h : Steady (pipelinedLayout op hn hsh) s)
    {msg : AmNet.Message α} (hmsg : msg ∈ s.chan p q) :
    p < n ∧ q < n ∧ back n q 1 = p ∧ ∃ i < 2, ∃ k < n - 1, ∃ m' < sh.microChunks,
      msg.key = .ofHeader (stepHeader (UInt8.ofNat i) p k m') := by
  obtain ⟨i, m', k, j, sd, hsend, rfl, hkey, -⟩ := h.chan p q msg hmsg
  obtain ⟨hi, hsend⟩ := Layout.isSend_ofPlans.mp hsend
  obtain ⟨hp, hm', hk, -, rfl⟩ := pipelinedPlan_isSend.mp hsend
  exact ⟨hp, Nat.mod_lt _ (by omega), back_one_succ hp, i, hi, k, hk, m', hm', hkey.symm⟩

/-- A delivery to rank `q` takes the message from its channel and changes the node of the rank. -/
structure Delivery (n q : ℕ) (msg : AmNet.Message α) (s s' : AmNet.State Region α) : Prop where
  self : s'.rank q = { s.rank q with node := ((s.rank q).node.deliver msg.key msg.payload).1 }
  others : ∀ r, r ≠ q → s'.rank r = s.rank r
  popped : (s.chan (back n q 1) q).filter (fun msg' => msg'.key = msg.key) =
    msg :: (s'.chan (back n q 1) q).filter fun msg' => msg'.key = msg.key
  messages : ∀ r κ, ¬(r = q ∧ κ = msg.key) →
    (s'.chan (back n r 1) r).filter (fun msg' => msg'.key = κ) =
      (s.chan (back n r 1) r).filter fun msg' => msg'.key = κ

section Delivery

variable {msg : AmNet.Message α} {rest : List (AmNet.Message α)}

omit hn hm in
theorem delivery (hback : back n q 1 = p) (hchan : s.chan p q = msg :: rest)
    (hs' : s' = { rank := Function.update s.rank q
                    { s.rank q with node := ((s.rank q).node.deliver msg.key msg.payload).1 }
                  chan := popChan s p q rest }) : Delivery n q msg s s' := by
  subst hs'
  refine ⟨Function.update_self .., fun r hr => Function.update_of_ne hr .., ?_, fun r κ hκ => ?_⟩
  · rw [hback, hchan, List.filter_cons_of_pos (by simp)]
    exact congrArg _ (congrArg _ (if_pos ⟨rfl, rfl⟩).symm)
  · dsimp only [popChan]
    split
    · next heq =>
      rw [heq.1, heq.2, hchan, List.filter_cons_of_neg]
      intro hkey
      exact hκ ⟨heq.2, (of_decide_eq_true hkey).symm⟩
    · rfl

omit hn hm in
theorem Delivery.stage (d : Delivery n q msg s s') : (s'.rank q).stage = (s.rank q).stage := by
  rw [d.self]

omit hn hm in
theorem Delivery.chain (d : Delivery n q msg s s') (m : ℕ) :
    (s'.rank q).chain m = (s.rank q).chain m := by
  rw [d.self]

omit hn hm in
/-- What is under the other keys stays. -/
theorem Delivery.held_of_ne (d : Delivery n q msg s s') {r : ℕ} {κ : RecvKey}
    (hκ : ¬(r = q ∧ κ = msg.key)) : held n s' r κ = held n s r κ := by
  refine held_congr ?_ (d.messages r κ hκ)
  rcases eq_or_ne r q with rfl | hr
  · rw [d.self]
    exact Node.deliver_slots_of_ne _ fun hc => hκ ⟨rfl, hc⟩
  · rw [d.others r hr]

omit hn hm in
/-- A message for which no receive waits goes from the channel into the router. -/
theorem Follows.deliver_vacant (h : Follows n sh m s t) (d : Delivery n q msg s s')
    (hslot : (s.rank q).node.router.slots msg.key = none) : Follows n sh m s' t := by
  have hnode : (s'.rank q).node = _ :=
    (congrArg Rank.node d.self).trans (congrArg Prod.fst (Node.deliver_vacant hslot))
  refine h.other d.others d.stage (d.chain m) (fun i k => ?_) ?_ fun r _ κ _ => ?_
  · rw [hnode]
  · rw [hnode]
    exact .refl _ _
  · by_cases heq : r = q ∧ κ = msg.key
    · obtain ⟨rfl, rfl⟩ := heq
      have hafter : inRouter s' r msg.key = [msg.payload.bytes] := inRouter_of_early (by
        rw [hnode]
        exact AmRouter.insert_slots_self ..)
      have hbefore : inRouter s r msg.key = [] := inRouter_of_not_early fun e he => by
        cases hslot.symm.trans he
      rw [held, held, hafter, hbefore, d.popped]
      rfl
    · exact d.held_of_ne heq

variable {pr : PendingRecv Region Name ℕ}

omit hm in
/-- A message for a receive of the chain is for the one that the chain waits for. -/
theorem Follows.deliver_own (h : Follows n sh m s t)
    (hsteady : Steady (pipelinedLayout op hn hsh) s) (d : Delivery n q msg s s') (hq : q < n)
    (hslot : (s.rank q).node.router.slots msg.key = some (.pending pr))
    (hrecv : (pipelinedLayout op hn hsh).IsRecv i q m k msg.key pr.target)
    (hpr : pr.done = (i, m, k)) (hst : (s.rank q).Started i m k)
    (hnot : (s.rank q).node.done (i, m, k) = false) :
    ∃ t', Reaches (TagNet.step (chainNet op n sh m)) t t' ∧ Follows n sh m s' t' := by
  obtain ⟨-, hrecv'⟩ := Layout.isRecv_ofPlans.mp hrecv
  obtain ⟨-, -, -, hkey, htarget⟩ := pipelinedPlan_isRecv.mp hrecv'
  have hhere : i = (s.rank q).stage ∧ k = ((s.rank q).chain m).pc ∧
      ((s.rank q).chain m).await.isSome = true := by
    refine hst.passed_or.resolve_left fun hpassed => ?_
    rw [(hsteady.ranks q hq).taken _ _ _ _ _ hrecv hpassed] at hnot
    cases hnot
  obtain ⟨rfl, rfl, hsome⟩ := hhere
  obtain ⟨a, hawait⟩ := Option.isSome_iff_exists.mp hsome
  have hnode : (s'.rank q).node = _ :=
    (congrArg Rank.node d.self).trans (congrArg Prod.fst (Node.deliver_pending hslot))
  obtain ⟨hdone', -, hslot'⟩ := filled_of_node (κ := msg.key) hnode
    (fun r hr => by rw [d.others r hr]) rfl (by rw [← hpr]; rfl)
  have hheld : held n s q msg.key = msg.payload.bytes :: held n s' q msg.key := by
    have hbefore : inRouter s q msg.key = [] := inRouter_of_not_early fun e he => by
      cases hslot.symm.trans he
    have hafter : inRouter s' q msg.key = [] := inRouter_of_not_early fun e he => by
      cases hslot'.symm.trans he
    rw [held, held, hbefore, hafter, d.popped]
    rfl
  refine h.take hn hsh hrecv.1 hawait hnot hkey hheld (fun r κ' hκ => d.held_of_ne hκ) d.others
    d.stage (d.chain m) ((hdone' q _).mpr (.inr ⟨rfl, rfl⟩)) ?_
  rw [hnode, ← htarget]
  rfl

omit hn in
include hsh in
/-- A message for a receive of another chain is none of this one. -/
theorem Follows.deliver_other {m' : ℕ} (hm' : m' < sh.microChunks) (hne : m' ≠ m)
    (h : Follows n sh m s t) (d : Delivery n q msg s s')
    (hslot : (s.rank q).node.router.slots msg.key = some (.pending pr))
    (hpr : pr.done = (i, m', k)) (hkey : msg.key = recvKey n i q m' k)
    (htarget : pr.target = microTarget n 0 sh i q m' k) : Follows n sh m s' t := by
  have hnode : (s'.rank q).node = _ :=
    (congrArg Rank.node d.self).trans (congrArg Prod.fst (Node.deliver_pending hslot))
  refine h.other d.others d.stage (d.chain m) (fun i' k' => ?_) ?_ fun r _ κ hκ => ?_
  · rw [hnode]
    refine Function.update_of_ne (fun hc => ?_) ..
    rw [hpr] at hc
    simp only [Prod.mk.injEq] at hc
    exact hne hc.2.1.symm
  · rw [hnode]
    refine Heap.agreeOn_copyInto _ fun r' cell hhas => ?_
    rw [htarget] at hhas
    exact microTarget_frame hsh hm' hne.symm _ _ _ r' cell hhas
  · have hchunk : msg.key.microChunk = UInt8.ofNat m' := by rw [hkey]; rfl
    exact d.held_of_ne fun hc => hne (chunk_inj hsh hm' hm (by rw [← hchunk, ← hκ, hc.2]))

/-- **A delivery** that loses no message: its slot is vacant, or a receive of this chain waits in
it, or one of another chain does. -/
theorem Follows.deliver (h : Follows n sh m s t)
    (hsteady : Steady (pipelinedLayout op hn hsh) s) (hchan : s.chan p q = msg :: rest)
    (hin : ∀ i, ¬IsEarly s i q msg.key)
    (hs' : s' = { rank := Function.update s.rank q
                    { s.rank q with node := ((s.rank q).node.deliver msg.key msg.payload).1 }
                  chan := popChan s p q rest }) :
    ∃ t', Reaches (TagNet.step (chainNet op n sh m)) t t' ∧ Follows n sh m s' t' := by
  obtain ⟨-, hq, hback, -⟩ := chan_of_steady hsh hsteady (hchan ▸ List.mem_cons_self)
  have d : Delivery n q msg s s' := delivery hback hchan hs'
  rcases hslot : (s.rank q).node.router.slots msg.key with - | pr | e
  · exact ⟨t, .refl, h.deliver_vacant d hslot⟩
  · obtain ⟨i, m', k, hrecv, hpr, hst, hnot⟩ := hsteady.posts.pending q msg.key pr hslot
    rcases eq_or_ne m' m with rfl | hne
    · exact h.deliver_own hn hsh hsteady d hq hslot hrecv hpr hst hnot
    · obtain ⟨-, hrecv'⟩ := Layout.isRecv_ofPlans.mp hrecv
      obtain ⟨-, hm', -, hkey, htarget⟩ := pipelinedPlan_isRecv.mp hrecv'
      exact ⟨t, .refl, h.deliver_other hsh hm hm' hne d hslot hpr hkey htarget⟩
  · exact absurd ⟨e, hslot, rfl⟩ (hin e.origin)

end Delivery

/-- **Every step that loses no message** is some or no steps of the program over tags. -/
theorem Follows.step {eager : ℕ → Name → ℕ → Bool} (h : Follows n sh m s t)
    (hsteady : Steady (pipelinedLayout op hn hsh) s) {e : Event} (hin : InTime s e)
    (hs : AmNet.step ⟨n, pipelinedProgram op n sh, eager⟩ s e = some s') :
    ∃ t', Reaches (TagNet.step (chainNet op n sh m)) t t' ∧ Follows n sh m s' t' := by
  rcases e with p | ⟨p, m'⟩ | ⟨p, m', j⟩ | ⟨p, q⟩ | p
  · obtain ⟨-, -, -, -, rfl⟩ := (pipelinedLayout op hn hsh).step_launch.mp hs
    exact ⟨t, .refl, h.update rfl rfl rfl (.refl _ _)⟩
  · obtain ⟨hat, -, -, ⟨hawait, rfl⟩ | ⟨a, hawait, hcomplete, rfl⟩⟩ :=
      (pipelinedLayout op hn hsh).step_poll.mp hs
    · rcases eq_or_ne m' m with rfl | hne
      · exact h.issue hn hsh hm (hsteady.ranks p hat.rank) hat hawait
      · exact ⟨t, .refl, h.issue_other hn hsh hm hne (hsteady.ranks p hat.rank) hat hawait⟩
    · rcases eq_or_ne m' m with rfl | hne
      · exact h.proceed hn hsh hm (hsteady.ranks p hat.rank) hat hawait hcomplete _
      · have hchain : ((s.rank p).setChain m' ⟨((s.rank p).chain m').pc + 1, none⟩).chain m =
            (s.rank p).chain m := ((s.rank p).chain_setChain m' m _).trans (if_neg hne.symm)
        refine ⟨t, .refl, h.update ?_ ?_ rfl (after_frame hsh hat.chain hne.symm _ _ _ _)⟩ <;>
          dsimp only <;> rw [hchain] <;> rfl
  · obtain ⟨a, sd, hawait, hsend, -, -, rfl⟩ := (pipelinedLayout op hn hsh).step_sent.mp hs
    have hchain : ∃ a', ((s.rank p).setChain m'
        ⟨((s.rank p).chain m').pc, some { a with sending := a.sending.erase j }⟩).chain m =
          ⟨((s.rank p).chain m).pc, a'⟩ ∧ a'.isSome = ((s.rank p).chain m).await.isSome := by
      rw [Rank.chain_setChain]
      split
      · next heq =>
        subst heq
        exact ⟨_, rfl, by rw [hawait]; rfl⟩
      · exact ⟨_, rfl, rfl⟩
    obtain ⟨a', hchain, hsome⟩ := hchain
    refine ⟨t, .refl, h.update ?_ ?_ rfl (.refl _ _)⟩ <;> rw [hchain]
    · rfl
    · rcases a' with - | a' <;> rcases hawait' : ((s.rank p).chain m).await with - | a''
      · rfl
      · rw [hawait'] at hsome
        cases hsome
      · rw [hawait'] at hsome
        cases hsome
      · rfl
  · obtain ⟨msg, rest, hchan, rfl⟩ := step_deliver.mp hs
    exact h.deliver hn hsh hm hsteady hchan (hin msg (by rw [hchan]; rfl)) rfl
  · obtain ⟨hp, hi, hl, hr, rfl⟩ := (pipelinedLayout op hn hsh).step_advance.mp hs
    have hend : ((s.rank p).chain m).pc = n - 1 :=
      (hsteady.ranks p hp).pc_eq_of_reaped hi hl hr hm
    refine ⟨t, .refl, h.update ?_ ?_ rfl (.refl _ _)⟩
    · show ((s.rank p).stage + 1) * (n - 1) + 0 = _
      rw [hend, Nat.succ_mul, Nat.add_zero]
    · have hnone : ((s.rank p).chain m).await = none := by
        by_contra hne
        obtain ⟨a, ha⟩ := Option.ne_none_iff_exists'.mp hne
        exact ((hsteady.ranks p hp).waits m a ha).pos.ne hend
      rw [hnone]
      rfl

end Steps

end PipelinedChain

end Pluvio
