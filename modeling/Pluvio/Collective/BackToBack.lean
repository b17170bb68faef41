import Pluvio.Collective.Bruck
import Pluvio.Collective.PipelinedWrap

/-!
# One call after the other

The keys of a Bruck allgather and of a pipelined ring say which round or step a message
is of, and not which call. A rank that is ahead may send what looks like a message of the
call its receiver is still in, and the router would lose both. It does not come to that,
because a rank does not leave a call without having heard of all the others.

In a pipelined ring this is plain: the last step of a phase has come all around the ring,
so a rank that has left a phase has seen the next rank enter it. In a Bruck allgather it
is a matter of which rounds the messages have come through. A rank that has made `t`
rounds has heard of the rank `y` places after it, for each `y < 2 ^ t`, that it has made
its rounds up to the number of zeros at the end of `y`
(`Pluvio.BackToBack.bruck_spread`). The rank that is sent to in round `k` is
`n - 2 ^ k` places after its sender, which need not end with `k` zeros; but the sender has
made `k` rounds of its own call by then, and these account for the other digits
(`Pluvio.BackToBack.bruck_receiver_started`).

Only a pipelined ring of more than 65537 ranks has two messages with one key in one phase.
-/

namespace Pluvio

open AmNet

namespace BackToBack

variable {α : Type*} {n : ℕ}

/-! ### The calls -/

/-- A call of `n` ranks, with shapes that match. -/
inductive BackCall (n : ℕ) (α : Type*)
  /-- With `l` elements in `send_buf`. -/
  | bruckAllgather (l : ℕ)
  | pipelinedRing (op : Op α) (sh : PipelineShape) (ok : sh.Ok n)

/-- The stages of the call at rank `p`, if it is the one with the number `call`. -/
def BackCall.steps (p call : ℕ) : BackCall n α → List (Stage Region α)
  | .bruckAllgather l => (Pluvio.bruckAllgather (.connected n p) call l (l * n)).steps
  | .pipelinedRing op sh _ =>
    (Pluvio.pipelinedRing op (.connected n p) call sh.len sh.microChunks sh.maxInFlight).steps

/-- The program of rank `p` that makes these calls, the first of which has the number
`call`. -/
def program (p : ℕ) : ℕ → List (BackCall n α) → List (Stage Region α)
  | _, [] => []
  | call, c :: calls => c.steps p call ++ program p (call + 1) calls

/-- A stage: a call of `bruck_allgather`, or one of the two phases of a `pipelined_ring`. -/
inductive BackStage (n : ℕ) (α : Type*)
  | bruck (call l : ℕ)
  | phase (op : Op α) (call : ℕ) (sh : PipelineShape) (ok : sh.Ok n) (φ : Fin 2)

/-- The stages of these calls. -/
def stages : ℕ → List (BackCall n α) → List (BackStage n α)
  | _, [] => []
  | call, .bruckAllgather l :: calls => .bruck call l :: stages (call + 1) calls
  | call, .pipelinedRing op sh ok :: calls =>
    .phase op call sh ok 0 :: .phase op call sh ok 1 :: stages (call + 1) calls

/-- The stage, laid out for all ranks. -/
def BackStage.plan (hn : 2 ≤ n) : BackStage n α → Plan n Region α
  | .bruck call l => bruckPlan α n call l
  | .phase op call _ ok φ => pipelinedPlan op hn call ok φ

/-- **The calls make these stages.** -/
theorem program_eq (hn : 2 ≤ n) {p : ℕ} (hp : p < n) (call : ℕ) (calls : List (BackCall n α)) :
    program p call calls = (stages call calls).map fun st => (st.plan hn).stage p := by
  induction calls generalizing call with
  | nil => rfl
  | cons c calls ih =>
    rw [program, ih]
    match c with
    | .bruckAllgather l =>
      rw [BackCall.steps, bruckAllgather_eq hp]
      rfl
    | .pipelinedRing op sh ok =>
      rw [BackCall.steps, pipelinedRing_eq op hn hp call ok]
      rfl

/-- The calls, laid out for all ranks. -/
def layout (hn : 2 ≤ n) (calls : List (BackCall n α)) :
    Layout n fun p => program p 0 calls :=
  .ofList (stages 0 calls) (BackStage.plan hn) _ fun _ hp => program_eq hn hp 0 calls

/-! ### The phases of a call are neighbours -/

variable {op : Op α} {call : ℕ} {sh : PipelineShape} {ok : sh.Ok n} {i : ℕ}

/-- **The first phase is followed by the second**, and the second one follows the
first. -/
theorem stages_phase (c : ℕ) (calls : List (BackCall n α)) (i : ℕ) :
    ((stages c calls)[i]? = some (.phase op call sh ok 0) →
        (stages c calls)[i + 1]? = some (.phase op call sh ok 1)) ∧
      ((stages c calls)[i]? = some (.phase op call sh ok 1) →
        ∃ j, i = j + 1 ∧ (stages c calls)[j]? = some (.phase op call sh ok 0)) := by
  induction calls generalizing c i with
  | nil => exact ⟨nofun, nofun⟩
  | cons d calls ih =>
    match d with
    | .bruckAllgather l =>
      rcases i with - | i
      · exact ⟨nofun, nofun⟩
      · obtain ⟨hfirst, hsecond⟩ := ih (c + 1) i
        refine ⟨hfirst, fun h => ?_⟩
        obtain ⟨j, rfl, hj⟩ := hsecond h
        exact ⟨j + 1, rfl, hj⟩
    | .pipelinedRing op' sh' ok' =>
      rcases i with - | - | i
      · refine ⟨fun h => ?_, fun h => ?_⟩
        · obtain ⟨⟩ := Option.some.inj h
          rfl
        · exact nomatch Option.some.inj h
      · refine ⟨fun h => ?_, fun h => ?_⟩
        · exact nomatch Option.some.inj h
        · obtain ⟨⟩ := Option.some.inj h
          exact ⟨0, rfl, rfl⟩
      · obtain ⟨hfirst, hsecond⟩ := ih (c + 1) i
        refine ⟨hfirst, fun h => ?_⟩
        obtain ⟨j, rfl, hj⟩ := hsecond h
        exact ⟨j + 2, rfl, hj⟩

/-! ### The stages are matched -/

/-- The call is a `bruck_allgather`. -/
def BackCall.IsBruck : BackCall n α → Prop
  | .bruckAllgather _ => True
  | .pipelinedRing .. => False

/-- The stage is one of a `bruck_allgather`. -/
def BackStage.IsBruck : BackStage n α → Prop
  | .bruck .. => True
  | .phase .. => False

/-- **The numbers of the steps fit into the headers.** -/
def StepsFit (calls : List (BackCall n α)) : Prop := n ≤ 65537 ∨ ∀ c ∈ calls, c.IsBruck

theorem isBruck_of_mem_stages {calls : List (BackCall n α)} (h : ∀ c ∈ calls, c.IsBruck) (c : ℕ) :
    ∀ st ∈ stages c calls, st.IsBruck := by
  induction calls generalizing c with
  | nil => exact List.forall_mem_nil _
  | cons d calls ih =>
    obtain ⟨hd, hcalls⟩ := List.forall_mem_cons.mp h
    match d with
    | .bruckAllgather l => exact List.forall_mem_cons.mpr ⟨trivial, ih hcalls (c + 1)⟩
    | .pipelinedRing .. => exact absurd hd id

section Matched

variable {hn : 2 ≤ n} {st : BackStage n α}

theorem BackStage.plan_matched (hsize : n < 2 ^ 64) (hfit : n ≤ 65537 ∨ st.IsBruck) :
    (st.plan hn).Matched fun _ _ k => k := by
  match st with
  | .bruck call l => exact bruckPlan_matched hsize call l
  | .phase op call sh ok φ =>
    exact pipelinedPlan_matched op hn (hfit.resolve_right id) call ok φ

/-- The phase in the headers of a stage. -/
def BackStage.headerPhase : BackStage n α → UInt8
  | .bruck .. => phaseBruck
  | .phase _ _ _ _ φ => UInt8.ofNat φ

theorem BackStage.phase_of_isSend (st : BackStage n α) {p m k j : ℕ} {sd : Send Region}
    (hs : (st.plan hn).IsSend p m k j sd) : sd.key.phase = st.headerPhase := by
  match st with
  | .bruck call l =>
    obtain ⟨-, -, -, r, -, -, rfl⟩ := bruckPlan_isSend.mp hs
    rfl
  | .phase op call sh ok φ =>
    have hs : (pipelinedPlan op hn call ok φ).IsSend p m k j sd := hs
    obtain ⟨-, -, -, -, rfl⟩ := pipelinedPlan_isSend.mp hs
    rfl

/-- The phases of a call have keys of their own, and so has a Bruck allgather. -/
theorem phaseBruck_ne (φ : Fin 2) : phaseBruck ≠ UInt8.ofNat φ := by
  revert φ
  decide

theorem ofNat_phase_inj {φ φ' : Fin 2} (heq : UInt8.ofNat φ = UInt8.ofNat φ') : φ = φ' := by
  revert φ φ'
  decide

theorem BackStage.plan_sameSender (hsize : n < 2 ^ 64) (st st' : BackStage n α) :
    (st.plan hn).SameSender (st'.plan hn) := by
  match st, st' with
  | .bruck .., .bruck .. =>
    intro p m k j sd p' m' k' j' sd' hs hs'
    exact bruckPlan_sameSender hsize hs hs'
  | .phase op call sh ok φ, .phase op' call' sh' ok' φ' =>
    intro p m k j sd p' m' k' j' sd' hs hs'
    have hs : (pipelinedPlan op hn call ok φ).IsSend p m k j sd := hs
    have hs' : (pipelinedPlan op' hn call' ok' φ').IsSend p' m' k' j' sd' := hs'
    exact pipelinedPlan_sameSender hs hs'
  | .bruck call l, .phase op call' sh ok φ =>
    intro p m k j sd p' m' k' j' sd' hs hs' _ hkey
    have hphase := phase_of_isSend _ hs
    rw [hkey, phase_of_isSend _ hs'] at hphase
    exact absurd hphase.symm (phaseBruck_ne φ)
  | .phase op call sh ok φ, .bruck call' l =>
    intro p m k j sd p' m' k' j' sd' hs hs' _ hkey
    have hphase := phase_of_isSend _ hs
    rw [hkey, phase_of_isSend _ hs'] at hphase
    exact absurd hphase (phaseBruck_ne φ)

/-- **The stages of the calls are matched.** -/
theorem layout_matched (hn : 2 ≤ n) (hsize : n < 2 ^ 64) {calls : List (BackCall n α)}
    (hfit : StepsFit calls) : (layout hn calls).Matched fun _ _ _ k => k := by
  refine Layout.matched_ofList (fun _ _ _ _ _ hlt => hlt) (fun i st hst => ?_)
    fun st _ st' _ => st.plan_sameSender hsize st'
  exact st.plan_matched hsize
    (hfit.imp_right fun h => isBruck_of_mem_stages h 0 st (List.mem_of_getElem? hst))

end Matched

/-! ### Who has heard of whom -/

section Causality

variable {hn : 2 ≤ n} {calls : List (BackCall n α)} {s : AmNet.State Region α}
  (h : Inv (layout hn calls) s)

include h

/-- **A receive that has been left** was of a message that has been issued. -/
theorem issued_of_passed {q m k : ℕ} {κ : RecvKey} {t : Slice Region}
    (hrecv : (layout hn calls).IsRecv i q m k κ t) (hpassed : (s.rank q).Passed i m k) :
    ∃ p, Issued (layout hn calls) s i p q κ :=
  h.messages.taken_issued _ _ _
    ⟨m, k, t, hrecv, (h.ranks q hrecv.1.rank).taken _ _ _ _ _ hrecv hpassed⟩

/-- **A receive that has been started** has its message, if that has come. -/
theorem not_isEarly_of_started {q m k : ℕ} {κ : RecvKey} {t : Slice Region}
    (hrecv : (layout hn calls).IsRecv i q m k κ t) (hst : (s.rank q).Started i m k) (j : ℕ) :
    IsEarly s j q κ → j ≠ i := by
  rintro ⟨e, hslot, horigin⟩ rfl
  rcases Bool.eq_false_or_eq_true ((s.rank q).node.done (j, m, k)) with hdone | hdone
  · exact h.messages.early_not_taken _ _ _ ⟨e, hslot, horigin⟩ ⟨m, k, t, hrecv, hdone⟩
  · obtain ⟨w, hpending⟩ := h.messages.posted _ _ _ _ _ _ hrecv hst hdone
    exact nomatch hpending.symm.trans hslot

section Bruck

variable {l p q k : ℕ} (hsize : n < 2 ^ 64)
  (hst : (stages 0 calls)[i]? = some (.bruck call l))

include hst

omit h in
theorem isRecv_bruck {r : ℕ} (hq : q < n) (hr : r < bruckTotal n) :
    (layout hn calls).IsRecv i q 0 (r + 1) (bruckKey ((q + 2 ^ r) % n) r)
      ⟨(call, .buf), 2 ^ r * l, bruckToSend n r * l⟩ := by
  exact Layout.isRecv_ofList.mpr ⟨_, hst, bruckPlan_isRecv.mpr ⟨hq, rfl, r, hr, rfl, rfl, rfl⟩⟩

include hsize

/-- A rank that has made round `r` has heard of the rank `2 ^ r` places after it. -/
theorem bruck_sender_started {r : ℕ} (hq : q < n) (hr : r < bruckTotal n)
    (hpassed : (s.rank q).Passed i 0 (r + 1)) :
    (s.rank ((q + 2 ^ r) % n)).Started i 0 (r + 1) := by
  obtain ⟨p, m, k, j, sd, hsend, hdst, hkey, hstarted⟩ :=
    issued_of_passed h (isRecv_bruck hst hq hr) hpassed
  obtain ⟨st, hst', hsend⟩ := Layout.isSend_ofList.mp hsend
  obtain rfl := Option.some.inj (hst'.symm.trans hst)
  obtain ⟨hp, rfl, -, r', hr', rfl, rfl⟩ := bruckPlan_isSend.mp hsend
  obtain rfl := bruckKey_inj hsize hr' hr hkey
  have hback : back n p (2 ^ r') = q := hdst
  rw [← hback, Nat.add_comm, add_back hp (lt_bruckTotal_iff.mp hr')]
  exact hstarted

/-- **What a rank has heard** after `t` rounds: the rank `y` places after it has made the
rounds before `j`, if `2 ^ j` divides `y`. -/
theorem bruck_spread {t y j : ℕ} (hq : q < n) (ht : t ≤ bruckTotal n)
    (hpassed : ∀ r < t, (s.rank q).Passed i 0 (r + 1)) (hy : 0 < y) (hyt : y < 2 ^ t)
    (hj : 2 ^ j ∣ y) : (s.rank ((q + y) % n)).Started i 0 (j + 1) := by
  induction t generalizing q y with
  | zero => exact absurd hyt (Nat.not_lt.mpr hy)
  | succ t ih =>
    rcases Nat.lt_or_ge y (2 ^ t) with hlt | hge
    · exact ih hq (Nat.le_of_succ_le ht) (fun r hr => hpassed r (Nat.lt_succ_of_lt hr)) hy hlt hj
    · -- the highest digit is that of the last round
      obtain ⟨z, rfl⟩ := Nat.exists_eq_add_of_le hge
      have hnext := bruck_sender_started h hsize hst hq ht (hpassed t (Nat.lt_succ_self t))
      have hjt : j ≤ t := by
        by_contra hlt
        have hdvd : 2 ^ (t + 1) ∣ 2 ^ t + z := (Nat.pow_dvd_pow 2 (by omega)).trans hj
        exact absurd (Nat.le_of_dvd hy hdvd) (Nat.not_le.mpr hyt)
      rcases Nat.eq_zero_or_pos z with rfl | hz
      · rw [Nat.add_zero]
        rcases Nat.lt_or_eq_of_le hjt with hlt | rfl
        · exact (hnext.passed_of_lt (Nat.succ_lt_succ hlt)).started
        · exact hnext
      · have hzlt : z < 2 ^ t := by
          rw [Nat.pow_succ] at hyt
          omega
        have hjz : 2 ^ j ∣ z := (Nat.dvd_add_right (Nat.pow_dvd_pow 2 hjt)).mp hj
        have hmod : ((q + 2 ^ t) % n + z) % n = (q + (2 ^ t + z)) % n := by
          rw [Nat.mod_add_mod, Nat.add_assoc]
        rw [← hmod]
        exact ih (Nat.mod_lt _ (by omega)) (Nat.le_of_succ_le ht)
          (fun r hr => hnext.passed_of_lt (Nat.succ_lt_succ hr)) hz hzlt hjz

omit hst in
/-- **The receiver of a round** has started the same round of any earlier call: its sender
has made `k` rounds of its own call, and all of the earlier one. -/
theorem bruck_receiver_started {i' call' l' : ℕ} (hlt : i' < i)
    (hst : (stages 0 calls)[i]? = some (.bruck call l))
    (hst' : (stages 0 calls)[i']? = some (.bruck call' l')) (hp : p < n) (hk : k < bruckTotal n)
    (hstarted : (s.rank p).Started i 0 (k + 1)) :
    (s.rank (back n p (2 ^ k))).Started i' 0 (k + 1) := by
  have hpow : 2 ^ k < n := lt_bruckTotal_iff.mp hk
  set low := (n - 2 ^ k) % 2 ^ k
  set high := 2 ^ k * ((n - 2 ^ k) / 2 ^ k)
  have hsum : low + high = n - 2 ^ k := Nat.mod_add_div ..
  have hlow : low < 2 ^ k := Nat.mod_lt _ (Nat.two_pow_pos k)
  -- the last digits: a rank that has left the earlier call
  have hleft : ∀ r, (s.rank ((p + low) % n)).Passed i' 0 r := by
    intro r
    rcases Nat.eq_zero_or_pos low with hzero | hpos
    · rw [hzero, Nat.add_zero, Nat.mod_eq_of_lt hp]
      exact hstarted.passed_of_stage_lt hlt 0 r
    · have hother := bruck_spread h hsize hst (j := 0) hp hk.le
        (fun r hr => hstarted.passed_of_lt (Nat.succ_lt_succ hr)) hpos hlow (one_dvd low)
      exact hother.passed_of_stage_lt hlt 0 r
  -- the other ones: as many zeros as the round asks for
  have hback : back n p (2 ^ k) = ((p + low) % n + high) % n := by
    rw [Nat.mod_add_mod, Nat.add_assoc, hsum, ← Nat.add_sub_assoc hpow.le, back]
  rw [hback]
  rcases Nat.eq_zero_or_pos high with hzero | hpos
  · rw [hzero, Nat.add_zero, Nat.mod_mod]
    exact (hleft (k + 1)).started
  · have hhigh : high < 2 ^ bruckTotal n :=
      Nat.lt_of_lt_of_le (by omega) (Nat.le_pow_clog Nat.one_lt_two n)
    exact bruck_spread h hsize hst' (Nat.mod_lt _ (by omega)) le_rfl (fun r _ => hleft (r + 1))
      hpos hhigh (Nat.dvd_mul_right ..)

end Bruck

section Phase

variable {p q m k : ℕ} {φ : Fin 2} (hst : (stages 0 calls)[i]? = some (.phase op call sh ok φ))

include hst

omit h in
theorem isRecv_phase (hq : q < n) (hm : m < sh.microChunks) (hk : k < n - 1) :
    (layout hn calls).IsRecv i q m k (.ofHeader (stepHeader (UInt8.ofNat φ) (back n q 1) k m))
      (microTarget n call sh φ q m k) := by
  refine Layout.isRecv_ofList.mpr ⟨_, hst, ?_⟩
  change (pipelinedPlan op hn call ok φ).IsRecv q m k _ _
  exact pipelinedPlan_isRecv.mpr ⟨hq, hm, hk, rfl, rfl⟩

/-- A rank that has made step `k` of a chain has heard of the rank before it. -/
theorem phase_sender_started (hn' : n ≤ 65537) (hq : q < n) (hm : m < sh.microChunks)
    (hk : k < n - 1)
    (hpassed : (s.rank q).Passed i m k) : (s.rank (back n q 1)).Started i m k := by
  obtain ⟨p, m', k', j, sd, hsend, hdst, hkey, hstarted⟩ :=
    issued_of_passed h (isRecv_phase hst hq hm hk) hpassed
  obtain ⟨st, hst', hsend⟩ := Layout.isSend_ofList.mp hsend
  obtain rfl := Option.some.inj (hst'.symm.trans hst)
  have hsend : (pipelinedPlan op hn call ok φ).IsSend p m' k' j sd := hsend
  obtain ⟨hp, hm', hk', -, rfl⟩ := pipelinedPlan_isSend.mp hsend
  obtain ⟨rfl, rfl⟩ := stepHeader_inj hn' ok hm' hm hk' hk hkey
  have hnext : (p + 1) % n = q := hdst
  rw [← hnext, back_one_succ hp]
  exact hstarted

/-- **What a rank has heard** when it has left a phase: one step less of each rank that
is one place further before it. -/
theorem phase_spread (hn' : n ≤ 65537) (hp : p < n) (hleft : ∀ k, (s.rank p).Passed i 0 k) {d : ℕ}
    (hd : d + 2 ≤ n) :
    (s.rank (back n p (d + 1))).Started i 0 (n - 2 - d) := by
  induction d with
  | zero => exact phase_sender_started h hst hn' hp ok.microChunks_pos (by omega) (hleft (n - 2))
  | succ d ih =>
    have hstarted := ih (by omega)
    have hpassed : (s.rank (back n p (d + 1))).Passed i 0 (n - 2 - (d + 1)) :=
      hstarted.passed_of_lt (by omega)
    have hnext := phase_sender_started h hst hn' (back_lt hp) ok.microChunks_pos (by omega) hpassed
    rwa [back_succ hp (by omega)] at hnext

/-- **The next rank** has entered a phase that a rank has left. -/
theorem phase_next_started (hn' : n ≤ 65537) (hp : p < n) (hleft : ∀ k, (s.rank p).Passed i 0 k) :
    (s.rank ((p + 1) % n)).Started i 0 0 := by
  have hspread := phase_spread h hst hn' hp hleft (d := n - 2) (by omega)
  rw [Nat.sub_self, show n - 2 + 1 = n - 1 by omega] at hspread
  have hback : back n p (n - 1) = (p + 1) % n := by
    rw [back, show p + n - (n - 1) = p + 1 by omega]
  rwa [hback] at hspread

end Phase

/-! ### No message is delivered onto an early one -/

omit h in
/-- Between two stages that are the same phase there is one that is the other phase. -/
theorem exists_phase_between {op' : Op α} {call' i' : ℕ} {sh' : PipelineShape} {ok' : sh'.Ok n}
    {φ : Fin 2} (hlt : i' < i) (hst : (stages 0 calls)[i]? = some (.phase op call sh ok φ))
    (hst' : (stages 0 calls)[i']? = some (.phase op' call' sh' ok' φ)) :
    ∃ j op'' call'' sh'' ok'' φ'', i' < j ∧ j < i ∧
      (stages 0 calls)[j]? = some (.phase op'' call'' sh'' ok'' φ'') := by
  rcases (show φ = 0 ∨ φ = 1 by omega) with rfl | rfl
  · have hnext := (stages_phase 0 calls i').1 hst'
    have hne : i' + 1 ≠ i := by
      rintro rfl
      exact nomatch Option.some.inj (hnext.symm.trans hst)
    exact ⟨i' + 1, op', call', sh', ok', 1, i'.lt_succ_self, by omega, hnext⟩
  · obtain ⟨j, rfl, hprev⟩ := (stages_phase 0 calls i).2 hst
    have hne : i' ≠ j := by
      rintro rfl
      exact nomatch Option.some.inj (hprev.symm.trans hst')
    exact ⟨j, op, call, sh, ok, 0, by omega, j.lt_succ_self, hprev⟩

/-- **The receiver is not behind**: when a message of a stage has been issued, the receives
of the earlier stages for messages that look like it have been started. -/
theorem receiver_started (hsize : n < 2 ^ 64) (hfit : StepsFit calls) {i' p q : ℕ} {κ : RecvKey}
    (hlt : i' < i) (hissued : Issued (layout hn calls) s i p q κ)
    (hissued' : Issued (layout hn calls) s i' p q κ) :
    ∃ m k t, (layout hn calls).IsRecv i' q m k κ t ∧ (s.rank q).Started i' m k := by
  have hM := layout_matched hn hsize hfit
  obtain ⟨m, k, j, sd, hsend, rfl, rfl, hstarted⟩ := hissued
  obtain ⟨m', k', j', sd', hsend', hdst, hkey, -⟩ := hissued'
  obtain ⟨k'', t, hrecv⟩ := hM.receiver hsend'
  rw [hdst, hkey] at hrecv
  obtain ⟨st, hst, hs⟩ := Layout.isSend_ofList.mp hsend
  obtain ⟨st', hst', hs'⟩ := Layout.isSend_ofList.mp hsend'
  have hphase : st'.headerPhase = st.headerPhase := by
    rw [← st.phase_of_isSend hs, ← st'.phase_of_isSend hs', hkey]
  match st, st' with
  | .bruck call l, .bruck call' l' =>
    -- the same round of an earlier call
    obtain ⟨hp, rfl, -, r, hr, rfl, rfl⟩ := bruckPlan_isSend.mp hs
    obtain ⟨-, -, -, r', hr', -, rfl⟩ := bruckPlan_isSend.mp hs'
    obtain rfl := bruckKey_inj hsize hr' hr hkey
    have hrecv : (layout hn calls).IsRecv i' (back n p (2 ^ r')) 0 (r' + 1) _ _ :=
      isRecv_bruck hst' (back_lt hp) hr'
    rw [Nat.add_comm (back n p (2 ^ r')), add_back hp (lt_bruckTotal_iff.mp hr')] at hrecv
    exact ⟨0, r' + 1, _, hrecv, bruck_receiver_started h hsize hlt hst hst' hp hr' hstarted⟩
  | .bruck .., .phase _ _ _ _ φ => exact absurd hphase.symm (phaseBruck_ne φ)
  | .phase _ _ _ _ φ, .bruck .. => exact absurd hphase (phaseBruck_ne φ)
  | .phase op call sh ok φ, .phase op' call' sh' ok' φ' =>
    -- the other phase lies between: the sender has left it, so the receiver is in it
    obtain rfl := ofNat_phase_inj hphase
    obtain ⟨j'', op'', call'', sh'', ok'', φ'', hlow, hhigh, hbetween⟩ :=
      exists_phase_between hlt hst hst'
    have hn' : n ≤ 65537 := hfit.resolve_right fun hbruck =>
      isBruck_of_mem_stages hbruck 0 _ (List.mem_of_getElem? hst)
    have hs : (pipelinedPlan op hn call ok φ').IsSend p m k j sd := hs
    obtain ⟨hp, -, -, -, rfl⟩ := pipelinedPlan_isSend.mp hs
    have hnext := phase_next_started h hbetween hn' hp fun k =>
      hstarted.passed_of_stage_lt hhigh 0 k
    exact ⟨m', k'', t, hrecv, (hnext.passed_of_stage_lt hlow m' k'').started⟩

/-- **A delivery is in time.** -/
theorem inTime (hsize : n < 2 ^ 64) (hfit : StepsFit calls) (e : Event) : InTime s e := by
  rcases e with _ | _ | _ | ⟨p, q⟩ | _
  case deliver =>
    intro msg hmsg i' hearly
    obtain ⟨rest, hchan⟩ := List.head?_eq_some_iff.mp hmsg
    have hhead := onChannel_head hchan
    have hissued := h.messages.chan_issued _ _ _ _ hhead
    obtain ⟨p', hissued'⟩ := h.messages.early_issued _ _ _ hearly
    obtain rfl := hissued'.sender_eq (layout_matched hn hsize hfit) hissued
    have hlt := h.messages.early_first _ _ _ _ _ hearly hhead
    obtain ⟨m, k, t, hrecv, hstarted⟩ := receiver_started h hsize hfit hlt hissued hissued'
    exact not_isEarly_of_started h hrecv hstarted i' hearly rfl
  all_goals trivial

end Causality

/-! ### Calls in a row -/

section Synchronized

variable {prog : ℕ → List (Stage Region α)}

/-- **Calls that do not get in each other's way.** -/
structure Synchronized (P : Layout n prog) (s : AmNet.State Region α) : Prop where
  /-- The message that is delivered next is not a duplicate early arrival. -/
  vacant : ∀ p q msg rest, s.chan p q = msg :: rest →
    ∀ e, (s.rank q).node.router.slots msg.key ≠ some (.early e)
  /-- The messages of earlier stages that have its key have been taken. -/
  previous : ∀ p q msg rest, s.chan p q = msg :: rest →
    ∀ i < msg.payload.origin, ∀ p', Issued P s i p' q msg.key → Taken P s i q msg.key
  /-- A receive that has its message has one of its own stage. -/
  own : ∀ i q m k κ t, P.IsRecv i q m k κ t → (s.rank q).node.done (i, m, k) = true →
    (s.rank q).node.got (i, m, k) = some i
  /-- And a rank that has left a stage has all the messages of it. -/
  all : ∀ i q m k κ t, P.IsRecv i q m k κ t → i < (s.rank q).stage →
    (s.rank q).node.done (i, m, k) = true

/-- What the invariant gives, if the next delivery is in time. -/
theorem synchronized_of_inTime {P : Layout n prog} {time : ℕ → ℕ → ℕ → ℕ → ℕ}
    {s : AmNet.State Region α} (hM : P.Matched time) (h : Inv P s) (hin : ∀ e, InTime s e) :
    Synchronized P s := by
  have hvacant : ∀ p q msg rest, s.chan p q = msg :: rest → ∀ i, ¬IsEarly s i q msg.key := by
    intro p q msg rest hchan
    exact hin (.deliver p q) msg (by rw [hchan]; rfl)
  refine ⟨?_, ?_, h.messages.got, fun i q m k κ t hrecv hleft => ?_⟩
  · intro p q msg rest hchan e he
    exact hvacant p q msg rest hchan e.origin ⟨e, he, rfl⟩
  · intro p q msg rest hchan i hlt p' hissued
    rcases h.messages.kept i p' q msg.key hissued with hon | hearly | htaken
    · -- the channel has the messages of a key in the order of their stages
      have hhead := h.messages.chan_issued _ _ _ _ (onChannel_head hchan)
      obtain rfl := hissued.sender_eq hM hhead
      obtain ⟨msg', hmem, hkey, rfl⟩ := hon
      rw [hchan] at hmem
      rcases List.mem_cons.mp hmem with rfl | hmem
      · exact absurd hlt (Nat.lt_irrefl _)
      · have hsorted := h.messages.sorted p' q
        rw [hchan] at hsorted
        have hafter := (List.pairwise_cons.mp hsorted).1 msg' hmem hkey.symm
        exact absurd hlt hafter.asymm
    · exact absurd hearly (hvacant p q msg rest hchan i)
    · exact htaken
  · exact (h.ranks q hrecv.1.rank).taken i m k κ t hrecv (.inl hleft)

/-- **The invariant of every run.** -/
theorem back_to_back_inv (hn : 2 ≤ n) (hsize : n < 2 ^ 64) {calls : List (BackCall n α)}
    (hfit : StepsFit calls) {eager : ℕ → Name → ℕ → Bool} {heap : ℕ → Heap Region α}
    {s : AmNet.State Region α}
    (h : Reaches (step ⟨n, fun p => program p 0 calls, eager⟩) (start heap) s) :
    Inv (layout hn calls) s := by
  have hM := layout_matched hn hsize hfit
  exact inv_of_steps hM (h.guarded (fun _ hs => inv_of_steps hM hs)
    fun _ e _ hs _ => inTime hs hsize hfit e)

/-- **Every run ends**, with all ranks at the end of their programs. -/
theorem back_to_back_terminates (hn : 2 ≤ n) (hsize : n < 2 ^ 64) {calls : List (BackCall n α)}
    (hfit : StepsFit calls) {eager : ℕ → Name → ℕ → Bool} (heap : ℕ → Heap Region α) :
    Terminates (step ⟨n, fun p => program p 0 calls, eager⟩)
      (Final ⟨n, fun p => program p 0 calls, eager⟩) (start heap) :=
  (layout_matched hn hsize hfit).terminates fun _ => back_to_back_inv hn hsize hfit

/-- **Back-to-back Bruck allgathers and pipelined rings.** In every run of a sequence of
calls whose steps fit into the headers, the calls do not get in each other's way. -/
theorem back_to_back_synchronized (hn : 2 ≤ n) (hsize : n < 2 ^ 64) (calls : List (BackCall n α))
    (hfit : StepsFit calls) (eager : ℕ → Name → ℕ → Bool) (heap : ℕ → Heap Region α)
    {s : AmNet.State Region α}
    (h : Reaches (step ⟨n, fun p => program p 0 calls, eager⟩) (start heap) s) :
    Synchronized (layout hn calls) s :=
  have hinv := back_to_back_inv hn hsize hfit h
  synchronized_of_inTime (layout_matched hn hsize hfit) hinv (inTime hinv hsize hfit)

/-- Three ranks, a Bruck allgather before a pipelined ring. -/
def threeRanks : List (BackCall 3 ℕ) :=
  [.bruckAllgather 1, .pipelinedRing ⟨Nat.add⟩ (PipelinedWrap.shape 3) (PipelinedWrap.shape_ok 3)]

/-- Some run of theirs ends, and each receive has got the message of its own stage. -/
theorem back_to_back_synchronized_three : ∃ s,
    Reaches (step ⟨3, fun p => program p 0 threeRanks, fun _ _ _ => true⟩)
      (start fun _ _ _ => 0) s ∧
    ∀ i q m k κ t, (layout (n := 3) (by decide) threeRanks).IsRecv i q m k κ t →
      (s.rank q).node.got (i, m, k) = some i := by
  have hfit : StepsFit threeRanks := .inl (by decide)
  have hterm : Terminates (step ⟨3, fun p => program p 0 threeRanks, fun _ _ _ => true⟩) _ _ :=
    back_to_back_terminates (by decide) (by decide) hfit fun _ _ _ => 0
  obtain ⟨s, hs, hfinal⟩ := hterm.exists_good
  have hsync := back_to_back_synchronized (by decide) (by decide) threeRanks hfit
    (fun _ _ _ => true) (fun _ _ _ => 0) hs
  refine ⟨s, hs, fun i q m k κ t hrecv => ?_⟩
  refine hsync.own i q m k κ t hrecv (hsync.all i q m k κ t hrecv (hrecv.1.stage.trans_eq ?_))
  exact ((hfinal q hrecv.1.rank).trans (Layout.length_prog _ hrecv.1.rank)).symm

/-- **65538 ranks are too many**: a single pipelined ring has a run to a state where the
next delivery is a duplicate early arrival. -/
theorem not_back_to_back_synchronized : ∃ s, Reaches (step ⟨65538, fun p => program p 0
        [.pipelinedRing (⟨Nat.add⟩ : Op ℕ) (PipelinedWrap.shape 65538)
          (PipelinedWrap.shape_ok 65538)], fun _ _ _ => true⟩) (start fun _ _ _ => 0) s ∧
      ¬Synchronized (layout (n := 65538) (by decide) [.pipelinedRing (⟨Nat.add⟩ : Op ℕ)
        (PipelinedWrap.shape 65538) (PipelinedWrap.shape_ok 65538)]) s := by
  obtain ⟨s, hs, hflooded⟩ := PipelinedWrap.flooded (n := 65538) (⟨Nat.add⟩ : Op ℕ) (by decide) rfl
    (fun _ _ _ => 0) 65536 le_rfl
  obtain ⟨msg, e, hchan, -, hearly⟩ := hflooded.duplicate rfl
  have hprog : (fun p => program p 0 [.pipelinedRing (⟨Nat.add⟩ : Op ℕ) (PipelinedWrap.shape 65538)
      (PipelinedWrap.shape_ok 65538)]) =
        pipelinedProgram ⟨Nat.add⟩ 65538 (PipelinedWrap.shape 65538) :=
    funext fun p => List.append_nil _
  refine ⟨s, ?_, fun hsync => hsync.vacant _ _ msg [] hchan e hearly⟩
  rw [hprog]
  exact hs

end Synchronized

end BackToBack

end Pluvio
