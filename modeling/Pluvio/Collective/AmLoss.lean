import Pluvio.Collective.AmProgress

/-!
# Messages that are lost

The router keeps one early message for each key. A message that is delivered onto an
early one is lost, and the early one with it. This is about what such a loss leads
to, for programs whose steps may share a key.

A lane (`Pluvio.AmNet.Lane`) is what one chain of one rank sends to another rank under
one key, for the receives of the same chain there. Whatever is delivered and in
whatever order, no more messages of a lane have been received, or are on their way,
than have been sent (`Pluvio.AmNet.Short`). A loss takes two of them away for good, and
so a receive is left without a message: the run does not come to its end
(`Pluvio.AmNet.Short.not_final`).
-/

namespace Pluvio

namespace AmNet

variable {R α : Type*} {n : ℕ} {prog : ℕ → List (Stage R α)} {P : Layout n prog}
  {s s' : State R α}

/-! ### What a loss does not touch -/

/-- The part of the invariant that does not depend on where the messages are. -/
structure Steady (P : Layout n prog) (s : State R α) : Prop where
  ranks : ∀ p < n, Local P p (s.rank p)
  posts : Posts P s
  /-- What is on a channel has been sent there. -/
  chan : ∀ p q, ∀ msg ∈ s.chan p q, ∃ i m k j sd, P.IsSend i p m k j sd ∧ sd.dst = q ∧
    sd.key = msg.key ∧ msg.payload.origin = i

/-- The receives of a stage at a rank under one key are of one chain. -/
def Layout.Apart (P : Layout n prog) : Prop :=
  ∀ {i q m k m' k' κ t t'}, P.IsRecv i q m k κ t → P.IsRecv i q m' k' κ t' → m = m'

section Steady

variable [DecidableEq R] {eager : ℕ → Name → ℕ → Bool} {p : ℕ}

omit [DecidableEq R] in
/-- A rank replaced by one that the messages cannot tell from it. -/
theorem Steady.update_same (h : Steady P s) {r : Rank R α} (hr : Local P p r)
    (hsame : (s.rank p).Same P p r) : Steady P { s with rank := Function.update s.rank p r } := by
  refine ⟨hr.update h.ranks, h.posts.same (fun q κ pr => ?_) (fun q => (hsame.update q).done)
    fun q => (hsame.update q).started, h.chan⟩
  rw [(hsame.update q).router]

/-- The receives that wait after a first poll. -/
theorem Steady.posts_issue (h : Steady P s) (hapart : P.Apart) {m : ℕ}
    (hat : P.At (s.rank p).stage p m ((s.rank p).chain m).pc)
    (hawait : ((s.rank p).chain m).await = none) :
    Posts P (s.issue p m (P.instr (s.rank p).stage p m ((s.rank p).chain m).pc)) := by
  set I := P.instr (s.rank p).stage p m ((s.rank p).chain m).pc with hI
  have hdone := (h.ranks p hat.rank).done_eq_false hawait
  have hone : ∀ {m' k κ t t'}, P.IsRecv (s.rank p).stage p m' k κ t →
      P.IsRecv (s.rank p).stage p m ((s.rank p).chain m).pc κ t' → m' = m :=
    fun hrecv hrecv' => hapart hrecv hrecv'
  rcases Rank.pollRecv_cases (i := I) hdone with
    ⟨hrecv, hp⟩ | ⟨κ₀, t₀, hrecv, ⟨e, hslot, hp⟩ | ⟨-, hp⟩⟩
  · -- no receive
    refine h.posts.issue_of_not_took (h.ranks p hat.rank) hat hawait hI hone ?_ ?_ ?_ ?_ <;> rw [hp]
    · exact fun κ pr hpr => .inl hpr
    · exact fun κ t hc => absurd (hrecv.symm.trans hc) nofun
    · exact fun κ pr _ hpr => hpr
  · have hnode := (node_issue_self (s := s) (p := p) (m := m) I).trans (congrArg Prod.snd hp)
    obtain ⟨hdone', hslots, hnone⟩ := filled_of_node hnode
      (fun r hr => by rw [rank_issue_of_ne I hr]) rfl rfl
    refine h.posts.fill ⟨hat, hrecv⟩ hdone' hslots hnone (fun pr hpr => ?_)
      (fun r i m' k hst => (started_issue I r i m' k).mpr (.inl hst)) fun r i m' k hst => ?_
    · cases hslot.symm.trans hpr
    · refine ((started_issue I r i m' k).mp hst).imp_right ?_
      rintro ⟨rfl, rfl, rfl, rfl⟩
      exact ⟨rfl, rfl⟩
  · -- the receive registers in the slot of its key
    refine h.posts.issue_of_not_took (h.ranks p hat.rank) hat hawait hI hone ?_ ?_ ?_ ?_ <;> rw [hp]
    · intro κ pr hpr
      rcases AmRouter.slots_of_insert hpr with hpr | ⟨rfl, heq⟩
      · exact .inl hpr
      · cases heq
        exact .inr ⟨t₀, some m, hrecv, rfl⟩
    · intro κ t hrecv'
      cases hrecv.symm.trans hrecv'
      exact ⟨some m, AmRouter.insert_slots_self ..⟩
    · intro κ pr hno hpr
      refine (AmRouter.insert_slots_of_ne _ _ ?_).trans hpr
      rintro rfl
      exact hno t₀ hrecv

omit [DecidableEq R] in
/-- The receives that wait, if one rank has another router and they wait there too. -/
theorem Posts.router (h : Posts P s) {q : ℕ} {router : AmRouter R Name ℕ α ℕ}
    (hslots : ∀ κ pr, router.slots κ = some (.pending pr) ↔
      (s.rank q).node.router.slots κ = some (.pending pr)) (chan : ℕ → ℕ → List (Message α)) :
    Posts P { rank := Function.update s.rank q
                { s.rank q with node := { (s.rank q).node with router := router } }
              chan := chan } := by
  have hrank := (Function.forall_update_iff s.rank
    (b := { s.rank q with node := { (s.rank q).node with router := router } }) fun q' r =>
      (∀ κ pr, r.node.router.slots κ = some (.pending pr) ↔
          (s.rank q').node.router.slots κ = some (.pending pr)) ∧
        r.node.done = (s.rank q').node.done ∧
          ∀ i m k, r.Started i m k ↔ (s.rank q').Started i m k).mpr
    ⟨⟨hslots, rfl, fun _ _ _ => Iff.rfl⟩,
      fun _ _ => ⟨fun _ _ => Iff.rfl, rfl, fun _ _ _ => Iff.rfl⟩⟩
  exact h.same (fun q' => (hrank q').1) (fun q' => (hrank q').2.1)
    fun q' i m k _ => (hrank q').2.2 i m k

omit [DecidableEq R] in
/-- A message is taken off its channel, and its rank has another node. -/
theorem Steady.popChan (h : Steady P s) {q : ℕ} {msg : Message α} {rest : List (Message α)}
    (hchan : s.chan p q = msg :: rest) {node : Node R Name ℕ α ℕ}
    (hdone : ∀ a, (s.rank q).node.done a = true → node.done a = true)
    (hstarted : ∀ i m k, node.done (i, m, k) = true →
      (s.rank q).node.done (i, m, k) = true ∨ (s.rank q).Started i m k)
    (hposts : Posts P { rank := Function.update s.rank q { s.rank q with node := node }
                        chan := fun p' q' => if p' = p ∧ q' = q then rest else s.chan p' q' }) :
    Steady P { rank := Function.update s.rank q { s.rank q with node := node }
               chan := fun p' q' => if p' = p ∧ q' = q then rest else s.chan p' q' } := by
  refine ⟨(Function.forall_update_iff s.rank fun q r => q < n → Local P q r).mpr
    ⟨fun hq => ?_, fun q _ => h.ranks q⟩, hposts, fun p' q' msg' hmsg' => h.chan p' q' msg' ?_⟩
  · have hlocal := h.ranks q hq
    exact hlocal.setNode hdone fun i m k hd => (hstarted i m k hd).elim (hlocal.started i m k) id
  · dsimp only at hmsg'
    split at hmsg'
    · next heq =>
      obtain ⟨rfl, rfl⟩ := heq
      exact hchan ▸ List.mem_cons_of_mem _ hmsg'
    · exact hmsg'

/-- A delivery keeps it, whatever the message meets in the router. -/
theorem Steady.deliver (h : Steady P s) {q : ℕ} {msg : Message α} {rest : List (Message α)}
    (hchan : s.chan p q = msg :: rest) :
    Steady P { rank := Function.update s.rank q
                 { s.rank q with node := ((s.rank q).node.deliver msg.key msg.payload).1 }
               chan := fun p' q' => if p' = p ∧ q' = q then rest else s.chan p' q' } := by
  rcases hslot : (s.rank q).node.router.slots msg.key with - | pr | e
  · rw [Node.deliver_vacant hslot]
    refine h.popChan hchan (fun _ hd => hd) (fun _ _ _ hd => .inl hd)
      (h.posts.router (fun κ pr => ?_) _)
    by_cases hκ : κ = msg.key
    · subst hκ
      rw [AmRouter.insert_slots_self, hslot]
      exact iff_of_false nofun nofun
    · rw [AmRouter.insert_slots_of_ne _ _ hκ]
  · obtain ⟨i, m, k, hrecv, hd, hst, -⟩ := h.posts.pending q msg.key pr hslot
    rw [Node.deliver_pending hslot]
    refine h.popChan hchan (fun a ha => ?_) (fun i' m' k' hd' => ?_) ?_
    · show Function.update (s.rank q).node.done _ _ a = true
      rw [Function.update_apply, ha, ite_self]
    · by_cases heq : (i', m', k') = (i, m, k)
      · cases heq
        exact .inr hst
      · exact .inl (hd' ▸ (Function.update_of_ne (hd ▸ heq) ..).symm)
    · exact h.posts.deliver_pending hslot hrecv hd rfl (by rw [← hd]; rfl) rfl
  · rw [Node.deliver_early hslot]
    refine h.popChan hchan (fun _ hd => hd) (fun _ _ _ hd => .inl hd)
      (h.posts.router (fun κ pr => ?_) _)
    by_cases hκ : κ = msg.key
    · subst hκ
      rw [AmRouter.remove_slots_self, hslot]
      exact iff_of_false nofun nofun
    · rw [AmRouter.remove_slots_of_ne _ hκ]

/-- **Every step keeps it**, also one that loses messages. -/
theorem Steady.step (h : Steady P s) (hapart : P.Apart) {e : Event}
    (hs : AmNet.step ⟨n, prog, eager⟩ s e = some s') : Steady P s' := by
  rcases e with p | ⟨p, m⟩ | ⟨p, m, j⟩ | ⟨p, q⟩ | p
  · obtain ⟨hp, hi, hl, hw, rfl⟩ := P.step_launch.mp hs
    obtain ⟨hlocal, hsame⟩ := (h.ranks p hp).launch hp hi hl hw
    exact h.update_same hlocal hsame
  · obtain ⟨hat, hm, -, ⟨hawait, rfl⟩ | ⟨a, hawait, hcomplete, rfl⟩⟩ := P.step_poll.mp hs
    · refine ⟨fun q hq => ?_, h.posts_issue hapart hat hawait, fun p' q msg hmsg => ?_⟩
      · rcases eq_or_ne q p with rfl | hne
        · rw [rank_issue_self]
          exact (h.ranks q hq).issue hat hm hawait
        · rw [rank_issue_of_ne _ hne]
          exact h.ranks q hq
      · rw [chan_issue] at hmsg
        split at hmsg
        · next heq =>
          subst heq
          rcases List.mem_append.mp hmsg with hmsg | hmsg
          · exact h.chan p' q msg hmsg
          · obtain ⟨sd, hsd, rfl⟩ := List.mem_map.mp hmsg
            obtain ⟨hsd, hd⟩ := List.mem_filter.mp hsd
            obtain ⟨j, hj⟩ := List.mem_iff_getElem?.mp hsd
            exact ⟨_, m, _, j, sd, ⟨hat, hj⟩, of_decide_eq_true hd, rfl, rfl⟩
        · exact h.chan p' q msg hmsg
    · obtain ⟨hlocal, hsame⟩ := (h.ranks p hat.rank).proceed hat hm hawait hcomplete _
      exact h.update_same hlocal hsame
  · obtain ⟨a, sd, hawait, hsend, -, -, rfl⟩ := P.step_sent.mp hs
    have hlocal := h.ranks p hsend.1.rank
    obtain ⟨hlocal, hsame⟩ := hlocal.sent (hlocal.launched_of_await hawait) hawait j
    exact h.update_same hlocal hsame
  · obtain ⟨msg, rest, hchan, rfl⟩ := step_deliver.mp hs
    exact h.deliver hchan
  · obtain ⟨hp, hi, hl, hr, rfl⟩ := P.step_advance.mp hs
    obtain ⟨hlocal, hsame⟩ := (h.ranks p hp).advance hi hl hr
    exact h.update_same hlocal hsame

omit [DecidableEq R] in
/-- It holds at the start. -/
theorem steady_start (P : Layout n prog) (heap : ℕ → Heap R α) : Steady P (start heap) :=
  ⟨(inv_start P heap).ranks, (inv_start P heap).messages.posts,
    fun _ _ _ hmsg => absurd hmsg List.not_mem_nil⟩

end Steady

/-! ### Lanes -/

/-- What one chain of one rank sends to another rank under one key. -/
structure Lane where
  stage : ℕ
  chain : ℕ
  src : ℕ
  dst : ℕ
  key : RecvKey

/-- Nobody else sends to that rank under that key, and no other chain receives under it
there; and each message has its receive, at the position it is sent from. -/
structure Layout.IsLane (P : Layout n prog) (L : Lane) : Prop where
  send : ∀ {i p m k j sd}, P.IsSend i p m k j sd → sd.dst = L.dst → sd.key = L.key →
    i = L.stage ∧ p = L.src ∧ m = L.chain ∧ j = 0
  recv : ∀ {i m k t}, P.IsRecv i L.dst m k L.key t → i = L.stage ∧ m = L.chain
  paired : ∀ {k sd}, P.IsSend L.stage L.src L.chain k 0 sd → sd.dst = L.dst → sd.key = L.key →
    ∃ t, P.IsRecv L.stage L.dst L.chain k L.key t

section Lanes

variable (P s) (L : Lane)

open Classical in
/-- The positions the lane has been sent from. -/
noncomputable def sentOn : Finset ℕ := (Finset.range (P.len L.stage L.src L.chain)).filter fun k =>
  ∃ sd, P.IsSend L.stage L.src L.chain k 0 sd ∧ sd.dst = L.dst ∧ sd.key = L.key ∧
    (s.rank L.src).Started L.stage L.chain k

open Classical in
/-- The positions where its receives are done. -/
noncomputable def takenOn : Finset ℕ := (Finset.range (P.len L.stage L.dst L.chain)).filter fun k =>
  (∃ t, P.IsRecv L.stage L.dst L.chain k L.key t) ∧
    (s.rank L.dst).node.done (L.stage, L.chain, k) = true

/-- How many of its messages are in the router. -/
def earlyOn : ℕ :=
  match (s.rank L.dst).node.router.slots L.key with
  | some (.early _) => 1
  | _ => 0

/-- How many of them are on the channel. -/
def chanOn : ℕ := ((s.chan L.src L.dst).filter fun msg => msg.key = L.key).length

/-- **At least `d` messages of the lane are missing.** -/
def Short (d : ℕ) : Prop :=
  (takenOn P s L).card + earlyOn s L + chanOn s L + d ≤ (sentOn P s L).card

variable {P s L}

theorem mem_sentOn {k : ℕ} : k ∈ sentOn P s L ↔ ∃ sd, P.IsSend L.stage L.src L.chain k 0 sd ∧
    sd.dst = L.dst ∧ sd.key = L.key ∧ (s.rank L.src).Started L.stage L.chain k := by
  classical
  rw [sentOn, Finset.mem_filter, Finset.mem_range]
  exact and_iff_right_of_imp fun ⟨_, hsend, _⟩ => hsend.1.pos

theorem mem_takenOn {k : ℕ} : k ∈ takenOn P s L ↔
    (∃ t, P.IsRecv L.stage L.dst L.chain k L.key t) ∧
      (s.rank L.dst).node.done (L.stage, L.chain, k) = true := by
  classical
  rw [takenOn, Finset.mem_filter, Finset.mem_range]
  exact and_iff_right_of_imp fun ⟨⟨_, hrecv⟩, _⟩ => hrecv.1.pos

theorem earlyOn_of_early {e : Payload α ℕ}
    (h : (s.rank L.dst).node.router.slots L.key = some (.early e)) : earlyOn s L = 1 := by
  rw [earlyOn, h]

theorem earlyOn_of_not_early
    (h : ∀ e, (s.rank L.dst).node.router.slots L.key ≠ some (.early e)) : earlyOn s L = 0 := by
  unfold earlyOn
  split
  · next e he => exact absurd he (h e)
  · rfl

/-- A slot that is the same counts the same. -/
theorem earlyOn_congr (h : (s'.rank L.dst).node.router.slots L.key =
    (s.rank L.dst).node.router.slots L.key) : earlyOn s' L = earlyOn s L := by
  rw [earlyOn, earlyOn, h]

/-- **A receive is given its message**: the lane has one more taken, if it is one of
its receives. -/
theorem card_takenOn_le {i q m k : ℕ} {κ : RecvKey} {t : Slice R} (hrecv : P.IsRecv i q m k κ t)
    (hdone : ∀ r a, (s'.rank r).node.done a = true →
      (s.rank r).node.done a = true ∨ r = q ∧ a = (i, m, k)) :
    (takenOn P s' L).card ≤ (takenOn P s L).card + if L.dst = q ∧ L.key = κ then 1 else 0 := by
  -- what is taken now was, or is the receive
  have hmem : ∀ k' ∈ takenOn P s' L, k' ∈ takenOn P s L ∨ (L.dst = q ∧ L.key = κ) ∧ k' = k := by
    intro k' hk'
    obtain ⟨⟨t', hrecv'⟩, hd⟩ := mem_takenOn.mp hk'
    rcases hdone _ _ hd with hd | ⟨hq, ha⟩
    · exact .inl (mem_takenOn.mpr ⟨⟨t', hrecv'⟩, hd⟩)
    · simp only [Prod.mk.injEq] at ha
      obtain ⟨rfl, rfl, rfl⟩ := ha
      subst hq
      exact .inr ⟨⟨rfl, hrecv'.key_eq hrecv⟩, rfl⟩
  split
  · refine (Finset.card_le_card (t := insert k (takenOn P s L)) fun k' hk' => ?_).trans
      (Finset.card_insert_le _ _)
    exact Finset.mem_insert.mpr ((hmem k' hk').symm.imp_left And.right)
  · next hne =>
    exact Finset.card_le_card fun k' hk' => (hmem k' hk').resolve_right fun hc => hne hc.1

/-- What a rank has received counts the same. -/
theorem takenOn_congr (h : (s'.rank L.dst).node.done = (s.rank L.dst).node.done) :
    takenOn P s' L = takenOn P s L := by
  ext k
  rw [mem_takenOn, mem_takenOn, h]

/-- What a rank has started counts the same. -/
theorem sentOn_congr (h : ∀ k, P.At L.stage L.src L.chain k →
    ((s'.rank L.src).Started L.stage L.chain k ↔ (s.rank L.src).Started L.stage L.chain k)) :
    sentOn P s' L = sentOn P s L := by
  ext k
  rw [mem_sentOn, mem_sentOn]
  refine exists_congr fun sd => and_congr_right fun hsend => ?_
  rw [h k hsend.1]

/-- A step that neither the messages nor the positions of the ranks show. -/
theorem Short.congr {d : ℕ} (h : Short P s L d) (hrank : ∀ q, (s.rank q).Same P q (s'.rank q))
    (hchan : s'.chan = s.chan) : Short P s' L d := by
  have htaken : takenOn P s' L = takenOn P s L := takenOn_congr (hrank L.dst).done
  have hsent : sentOn P s' L = sentOn P s L :=
    sentOn_congr fun k hat => (hrank L.src).started _ _ k hat
  have hearly : earlyOn s' L = earlyOn s L := earlyOn_congr (by rw [(hrank L.dst).router])
  rw [Short, htaken, hsent, hearly, chanOn, hchan]
  exact h

/-- A list in which only the first element can be picked. -/
theorem length_filter_le_one {β : Type*} {l : List β} {f : β → Bool}
    (h : ∀ (j : ℕ) x, l[j]? = some x → f x = true → j = 0) : (l.filter f).length ≤ 1 := by
  rcases l with - | ⟨x, l⟩
  · exact Nat.zero_le 1
  · have hnil : l.filter f = [] := by
      refine List.filter_eq_nil_iff.mpr fun y hy hf => ?_
      obtain ⟨j, hj⟩ := List.mem_iff_getElem?.mp hy
      cases h (j + 1) y hj hf
    rw [List.filter_cons, hnil]
    split
    · exact Nat.le_refl 1
    · exact Nat.zero_le 1

section Issue

variable [DecidableEq R] {p m : ℕ}

/-- **What a first poll puts on the channel** has been sent. -/
theorem card_sentOn_issue (hL : P.IsLane L)
    (hat : P.At (s.rank p).stage p m ((s.rank p).chain m).pc)
    (hawait : ((s.rank p).chain m).await = none) :
    (sentOn P s L).card +
        chanOn (s.issue p m (P.instr (s.rank p).stage p m ((s.rank p).chain m).pc)) L ≤
      (sentOn P (s.issue p m (P.instr (s.rank p).stage p m ((s.rank p).chain m).pc)) L).card +
        chanOn s L := by
  set I := P.instr (s.rank p).stage p m ((s.rank p).chain m).pc with hI
  have hsub : sentOn P s L ⊆ sentOn P (s.issue p m I) L := by
    intro k hk
    obtain ⟨sd, hsend, hd, hkey, hst⟩ := mem_sentOn.mp hk
    exact mem_sentOn.mpr ⟨sd, hsend, hd, hkey, (started_issue I ..).mpr (.inl hst)⟩
  by_cases hp : L.src = p
  · -- the new messages of the lane
    set new := I.sends.filter fun sd => decide (sd.key = L.key) && decide (sd.dst = L.dst) with hnew
    have hchan : chanOn (s.issue p m I) L = chanOn s L + new.length := by
      rw [chanOn, chan_issue, if_pos hp, List.filter_append, List.length_append, List.filter_map,
        List.length_map, List.filter_filter, chanOn, hp]
      rfl
    rcases hnil : new with - | ⟨sd, rest⟩
    · rw [hchan, hnil]
      exact Nat.add_le_add_right (Finset.card_le_card hsub) _
    · -- there is one, and the position it is sent from had not been started
      have hall : ∀ (j : ℕ) sd, I.sends[j]? = some sd →
          (decide (sd.key = L.key) && decide (sd.dst = L.dst)) = true →
            (s.rank p).stage = L.stage ∧ m = L.chain ∧ j = 0 := by
        intro j sd hj hsd
        rw [Bool.and_eq_true, decide_eq_true_iff, decide_eq_true_iff] at hsd
        obtain ⟨hi, -, hm, hj⟩ := hL.send ⟨hat, hj⟩ hsd.2 hsd.1
        exact ⟨hi, hm, hj⟩
      have hone : new.length ≤ 1 := length_filter_le_one fun j x hj hx => (hall j x hj hx).2.2
      have hmem : sd ∈ new := hnil ▸ List.mem_cons_self
      obtain ⟨hmem, hsd⟩ := List.mem_filter.mp hmem
      obtain ⟨j, hj⟩ := List.mem_iff_getElem?.mp hmem
      obtain ⟨hi, rfl, rfl⟩ := hall j sd hj hsd
      rw [Bool.and_eq_true, decide_eq_true_iff, decide_eq_true_iff] at hsd
      subst hp
      have hnot : ((s.rank L.src).chain L.chain).pc ∉ sentOn P s L := by
        rw [mem_sentOn]
        rintro ⟨-, -, -, -, hlt | ⟨-, hlt | ⟨-, hst⟩⟩⟩
        · omega
        · omega
        · rw [hawait] at hst
          cases hst
      have hnow : ((s.rank L.src).chain L.chain).pc ∈ sentOn P (s.issue L.src L.chain I) L := by
        refine mem_sentOn.mpr ⟨sd, hi ▸ ⟨hat, hj⟩, hsd.2, hsd.1, ?_⟩
        exact (started_issue I ..).mpr (.inr ⟨rfl, hi.symm, rfl, rfl⟩)
      have hcard := Finset.card_le_card (Finset.insert_subset hnow hsub)
      rw [Finset.card_insert_of_notMem hnot] at hcard
      omega
  · -- another rank sends
    have hchan : chanOn (s.issue p m I) L = chanOn s L := by
      rw [chanOn, chan_issue, if_neg hp, chanOn]
    rw [hchan]
    exact Nat.add_le_add_right (Finset.card_le_card hsub) _

/-- **What a first poll takes** was in the router. -/
theorem card_takenOn_issue (hlocal : Local P p (s.rank p))
    (hat : P.At (s.rank p).stage p m ((s.rank p).chain m).pc)
    (hawait : ((s.rank p).chain m).await = none) :
    (takenOn P (s.issue p m (P.instr (s.rank p).stage p m ((s.rank p).chain m).pc)) L).card +
        earlyOn (s.issue p m (P.instr (s.rank p).stage p m ((s.rank p).chain m).pc)) L ≤
      (takenOn P s L).card + earlyOn s L := by
  set I := P.instr (s.rank p).stage p m ((s.rank p).chain m).pc with hI
  have hdone := hlocal.done_eq_false hawait
  -- a poll that takes nothing
  have hsame : ((s.rank p).pollRecv m I).2.done = (s.rank p).node.done →
      (takenOn P (s.issue p m I) L).card = (takenOn P s L).card := by
    intro hd
    refine congrArg Finset.card (takenOn_congr ?_)
    rcases eq_or_ne L.dst p with hq | hq
    · rw [hq, node_issue_self, hd]
    · rw [rank_issue_of_ne I hq]
  rcases Rank.pollRecv_cases (i := I) hdone with
    ⟨-, hp⟩ | ⟨κ, t, hrecv, ⟨e, hslot, hp⟩ | ⟨hvac, hp⟩⟩
  · rw [hsame (by rw [hp]), earlyOn_congr]
    rcases eq_or_ne L.dst p with hq | hq
    · rw [hq, node_issue_self, hp]
    · rw [rank_issue_of_ne I hq]
  · have hnode := (node_issue_self (s := s) (p := p) (m := m) I).trans (congrArg Prod.snd hp)
    obtain ⟨hdone', hslots, hnone⟩ := filled_of_node hnode
      (fun r hr => by rw [rank_issue_of_ne I hr]) rfl rfl
    have hcard := card_takenOn_le (L := L) ⟨hat, hrecv⟩ fun r a => (hdone' r a).mp
    by_cases hlane : L.dst = p ∧ L.key = κ
    · rw [if_pos hlane] at hcard
      have hbefore : earlyOn s L = 1 := earlyOn_of_early (by rw [hlane.1, hlane.2, hslot])
      have hafter : earlyOn (s.issue p m I) L = 0 := earlyOn_of_not_early fun e he => by
        rw [hlane.1, hlane.2, hnone] at he
        cases he
      omega
    · rw [if_neg hlane] at hcard
      rw [earlyOn_congr (hslots _ _ hlane)]
      omega
  · rw [hsame (by rw [hp])]
    refine Nat.add_le_add_left ?_ _
    by_cases hlane : L.dst = p ∧ L.key = κ
    · rw [earlyOn_of_not_early]
      · exact Nat.zero_le _
      · intro e he
        rw [hlane.1, hlane.2, node_issue_self, hp] at he
        cases (AmRouter.insert_slots_self ..).symm.trans he
    · refine (earlyOn_congr ?_).le
      rcases eq_or_ne L.dst p with hq | hq
      · rw [hq, node_issue_self, hp]
        exact AmRouter.insert_slots_of_ne _ _ fun hc => hlane ⟨hq, hc⟩
      · rw [rank_issue_of_ne I hq]

end Issue

section Deliver

variable {p q : ℕ} {msg : Message α} {rest : List (Message α)}

/-- A message that is taken off the channel of its lane. -/
theorem chanOn_popChan_self (hchan : s.chan L.src L.dst = msg :: rest) (hkey : msg.key = L.key)
    (hchan' : s'.chan = popChan s L.src L.dst rest) : chanOn s L = chanOn s' L + 1 := by
  rw [chanOn, hchan, List.filter_cons_of_pos (by simpa using hkey), List.length_cons, chanOn,
    hchan', popChan, if_pos ⟨rfl, rfl⟩]

/-- And one of no matter to it. -/
theorem chanOn_popChan_ne (hchan : s.chan p q = msg :: rest)
    (hne : ¬(L.dst = q ∧ L.key = msg.key)) (hchan' : s'.chan = popChan s p q rest) :
    chanOn s' L = chanOn s L := by
  rw [chanOn, chanOn, hchan', popChan]
  split
  · next heq =>
    have hkey : msg.key ≠ L.key := fun hkey => hne ⟨heq.2, hkey.symm⟩
    rw [heq.1, heq.2, hchan, List.filter_cons_of_neg (by simpa using hkey)]
  · rfl

variable [DecidableEq R]

/-- A delivery replaces the node of its rank. -/
theorem node_deliver (hrank : s'.rank = Function.update s.rank q
    { s.rank q with node := ((s.rank q).node.deliver msg.key msg.payload).1 }) :
    (s'.rank q).node = ((s.rank q).node.deliver msg.key msg.payload).1 ∧
      ∀ r, r ≠ q → (s'.rank r).node = (s.rank r).node := by
  rw [hrank]
  exact ⟨by rw [Function.update_self], fun r hr => by rw [Function.update_of_ne hr]⟩

/-- A delivery completes no receive if none waits for it. -/
theorem takenOn_deliver (hrank : s'.rank = Function.update s.rank q
      { s.rank q with node := ((s.rank q).node.deliver msg.key msg.payload).1 })
    (hdone : ((s.rank q).node.deliver msg.key msg.payload).1.done = (s.rank q).node.done) :
    takenOn P s' L = takenOn P s L := by
  obtain ⟨hself, hother⟩ := node_deliver hrank
  refine takenOn_congr ?_
  rcases eq_or_ne L.dst q with hq | hq
  · rw [hq, hself, hdone]
  · rw [hother _ hq]

/-- And otherwise at most that one, whose slot is free then. -/
theorem card_takenOn_deliver (h : Steady P s) (hrank : s'.rank = Function.update s.rank q
      { s.rank q with node := ((s.rank q).node.deliver msg.key msg.payload).1 })
    {pr : PendingRecv R Name ℕ}
    (hslot : (s.rank q).node.router.slots msg.key = some (.pending pr)) :
    (takenOn P s' L).card ≤ (takenOn P s L).card +
        (if L.dst = q ∧ L.key = msg.key then 1 else 0) ∧
      (s'.rank q).node.router.slots msg.key = none := by
  obtain ⟨hself, hother⟩ := node_deliver hrank
  rw [Node.deliver_pending hslot] at hself
  obtain ⟨i, m, k, hrecv, hpr, -, -⟩ := h.posts.pending _ _ pr hslot
  obtain ⟨hdone, -, hnone⟩ := filled_of_node (i := i) (m := m) (k := k) hself hother rfl
    (by rw [← hpr]; rfl)
  exact ⟨card_takenOn_le hrecv fun r a => (hdone r a).mp, hnone⟩

/-- **What a delivery does to its lane**: nothing, unless it meets an early message there. -/
theorem Short.deliver_self (h : Steady P s) {d : ℕ} (hd : Short P s L d)
    (hchan : s.chan L.src L.dst = msg :: rest) (hkey : L.key = msg.key)
    (hrank : s'.rank = Function.update s.rank L.dst
      { s.rank L.dst with node := ((s.rank L.dst).node.deliver msg.key msg.payload).1 })
    (hchan' : s'.chan = popChan s L.src L.dst rest) : Short P s' L d ∧
      ∀ e, (s.rank L.dst).node.router.slots msg.key = some (.early e) → Short P s' L (d + 2) := by
  obtain ⟨hself, -⟩ := node_deliver hrank
  have hsent : sentOn P s' L = sentOn P s L :=
    sentOn_congr fun k _ => started_of_node hrank L.src _ _ k
  have hon := chanOn_popChan_self hchan hkey.symm hchan'
  unfold Short at hd ⊢
  rw [hsent]
  rcases hslot : (s.rank L.dst).node.router.slots msg.key with - | pr | e
  · -- it is early now
    have hdeliver := Node.deliver_vacant (m := msg.payload) hslot
    have hearly : earlyOn s' L = 1 := earlyOn_of_early (e := msg.payload) (by
      rw [hself, hdeliver, hkey]
      exact AmRouter.insert_slots_self ..)
    rw [takenOn_deliver hrank (by rw [hdeliver])]
    exact ⟨by omega, fun _ he => by cases he⟩
  · -- the receive that waits has it
    obtain ⟨hcard, hnone⟩ := card_takenOn_deliver (L := L) h hrank hslot
    rw [if_pos ⟨rfl, hkey⟩] at hcard
    have hearly : earlyOn s' L = 0 := earlyOn_of_not_early fun e he => by
      rw [hkey, hnone] at he
      cases he
    exact ⟨by omega, fun _ he => by cases he⟩
  · -- it is lost, and so is the one that was early
    have hdeliver := Node.deliver_early (m := msg.payload) hslot
    have hbefore : earlyOn s L = 1 := earlyOn_of_early (hkey ▸ hslot)
    have hearly : earlyOn s' L = 0 := earlyOn_of_not_early fun e he => by
      rw [hkey, hself, hdeliver, AmRouter.remove_slots_self] at he
      cases he
    rw [takenOn_deliver hrank (by rw [hdeliver])]
    exact ⟨by omega, fun _ _ => by omega⟩

/-- And nothing to the others. -/
theorem Short.deliver_of_ne (h : Steady P s) {d : ℕ} (hd : Short P s L d)
    (hchan : s.chan p q = msg :: rest) (hne : ¬(L.dst = q ∧ L.key = msg.key))
    (hrank : s'.rank = Function.update s.rank q
      { s.rank q with node := ((s.rank q).node.deliver msg.key msg.payload).1 })
    (hchan' : s'.chan = popChan s p q rest) : Short P s' L d := by
  obtain ⟨hself, hother⟩ := node_deliver hrank
  have hsent : sentOn P s' L = sentOn P s L :=
    sentOn_congr fun k _ => started_of_node hrank L.src _ _ k
  have hslots : (s'.rank L.dst).node.router.slots L.key =
      (s.rank L.dst).node.router.slots L.key := by
    rcases eq_or_ne L.dst q with hq | hq
    · rw [hq, hself]
      exact Node.deliver_slots_of_ne _ fun hc => hne ⟨hq, hc⟩
    · rw [hother _ hq]
  unfold Short at hd ⊢
  rw [hsent, earlyOn_congr hslots, chanOn_popChan_ne hchan hne hchan']
  rcases hslot : (s.rank q).node.router.slots msg.key with - | pr | e
  · rwa [takenOn_deliver hrank (by rw [Node.deliver_vacant hslot])]
  · obtain ⟨hcard, -⟩ := card_takenOn_deliver (L := L) h hrank hslot
    rw [if_neg hne] at hcard
    omega
  · rwa [takenOn_deliver hrank (by rw [Node.deliver_early hslot])]

omit [DecidableEq R] in
/-- The messages on a lane come from its sender. -/
theorem Steady.src_of_chan (hL : P.IsLane L) (h : Steady P s)
    (hchan : s.chan p L.dst = msg :: rest) (hkey : L.key = msg.key) : p = L.src := by
  obtain ⟨i, m, k, j, sd, hsend, hdst, hsd, -⟩ := h.chan p L.dst msg (hchan ▸ List.mem_cons_self)
  exact (hL.send hsend hdst (hsd.trans hkey.symm)).2.1

/-- **No delivery makes up** for what a lane is short of. -/
theorem Short.deliver (hL : P.IsLane L) (h : Steady P s) {d : ℕ} (hd : Short P s L d)
    (hchan : s.chan p q = msg :: rest)
    (hrank : s'.rank = Function.update s.rank q
      { s.rank q with node := ((s.rank q).node.deliver msg.key msg.payload).1 })
    (hchan' : s'.chan = popChan s p q rest) : Short P s' L d := by
  by_cases hlane : L.dst = q ∧ L.key = msg.key
  · obtain ⟨rfl, hkey⟩ := hlane
    obtain rfl := h.src_of_chan hL hchan hkey
    exact (Short.deliver_self h hd hchan hkey hrank hchan').1
  · exact Short.deliver_of_ne h hd hchan hlane hrank hchan'

end Deliver

section Run

variable [DecidableEq R] {eager : ℕ → Name → ℕ → Bool} {d : ℕ}

/-- **What is missing stays missing.** -/
theorem Short.step (hL : P.IsLane L) (h : Steady P s) (hd : Short P s L d) {e : Event}
    (hs : AmNet.step ⟨n, prog, eager⟩ s e = some s') : Short P s' L d := by
  -- a rank that does something that the messages do not show
  have hupdate : ∀ {p : ℕ} {r : Rank R α}, (s.rank p).Same P p r →
      Short P { s with rank := Function.update s.rank p r } L d := by
    intro p r hsame
    exact hd.congr hsame.update rfl
  rcases e with p | ⟨p, m⟩ | ⟨p, m, j⟩ | ⟨p, q⟩ | p
  · obtain ⟨hp, hi, hl, hw, rfl⟩ := P.step_launch.mp hs
    exact hupdate ((h.ranks p hp).launch hp hi hl hw).2
  · obtain ⟨hat, hm, -, ⟨hawait, rfl⟩ | ⟨a, hawait, hcomplete, rfl⟩⟩ := P.step_poll.mp hs
    · have hsent := card_sentOn_issue hL hat hawait
      have htaken := card_takenOn_issue (L := L) (h.ranks p hat.rank) hat hawait
      unfold Short at hd ⊢
      omega
    · exact hupdate ((h.ranks p hat.rank).proceed hat hm hawait hcomplete _).2
  · obtain ⟨a, sd, hawait, hsend, -, -, rfl⟩ := P.step_sent.mp hs
    have hlocal := h.ranks p hsend.1.rank
    exact hupdate (hlocal.sent (hlocal.launched_of_await hawait) hawait j).2
  · obtain ⟨msg, rest, hchan, rfl⟩ := step_deliver.mp hs
    exact Short.deliver hL h hd hchan rfl rfl
  · obtain ⟨hp, hi, hl, hr, rfl⟩ := P.step_advance.mp hs
    exact hupdate ((h.ranks p hp).advance hi hl hr).2

/-- **A delivery that is not in time loses two messages of its lane.** -/
theorem Short.of_not_inTime (hL : P.IsLane L) (h : Steady P s) (hd : Short P s L d) {p q : ℕ}
    {msg : Message α} {rest : List (Message α)} (hchan : s.chan p q = msg :: rest)
    (hdst : L.dst = q) (hkey : L.key = msg.key) {i : ℕ} (hearly : IsEarly s i q msg.key)
    (hs : AmNet.step ⟨n, prog, eager⟩ s (.deliver p q) = some s') : Short P s' L (d + 2) := by
  obtain ⟨msg', rest', hchan', rfl⟩ := step_deliver.mp hs
  obtain ⟨rfl, rfl⟩ := List.cons.inj (hchan.symm.trans hchan')
  obtain ⟨e, he, -⟩ := hearly
  subst hdst
  obtain rfl := h.src_of_chan hL hchan hkey
  exact (Short.deliver_self h hd hchan hkey rfl rfl).2 e he

omit [DecidableEq R] in
/-- Nothing is missing at the start. -/
theorem short_start (P : Layout n prog) (heap : ℕ → Heap R α) (L : Lane) :
    Short P (start heap) L 0 := by
  have htaken : takenOn P (start heap) L = ∅ := by
    refine Finset.eq_empty_of_forall_notMem fun k hk => ?_
    cases (mem_takenOn.mp hk).2
  rw [Short, htaken]
  exact Nat.zero_le _

omit [DecidableEq R] in
/-- **With a message missing, the run is not at its end**: the receive it was for is
still waiting for one. -/
theorem Short.not_final (hL : P.IsLane L) (h : Steady P s) (hd : Short P s L (d + 1)) :
    ¬Final ⟨n, prog, eager⟩ s := by
  intro hfinal
  have hsub : sentOn P s L ⊆ takenOn P s L := by
    intro k hk
    obtain ⟨sd, hsend, hdst, hkey, -⟩ := mem_sentOn.mp hk
    obtain ⟨t, hrecv⟩ := hL.paired hsend hdst hkey
    have hstage : (s.rank L.dst).stage = P.stages := by
      refine (hfinal L.dst hrecv.1.rank).trans ?_
      show (prog L.dst).length = _
      rw [P.length_prog hrecv.1.rank]
    refine mem_takenOn.mpr ⟨⟨t, hrecv⟩, (h.ranks _ hrecv.1.rank).taken _ _ _ _ _ hrecv (.inl ?_)⟩
    rw [hstage]
    exact hrecv.1.stage
  have hcard := Finset.card_le_card hsub
  unfold Short at hd
  omega

end Run

end Lanes

end AmNet

end Pluvio
