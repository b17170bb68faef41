import Pluvio.Collective.AmOutline

/-!
# Proof outlines of calls in a row

A program that makes several calls is laid out as one, and each call is a part of it
(`Pluvio.AmNet.Layout.Part`): its stages are those the call has by itself, under other names of
their buffers. What is known of a call by itself, its proof outline, is then known of it in the
row, if no two calls have a buffer in common: the outlines make an outline of the whole
(`Pluvio.AmNet.Layout.InARow.outline`). A rank that has returned from a call has what the call
is for, whatever it does next (`Pluvio.AmNet.Layout.InARow.pre_of_returned`).

A run that has come to its end leaves nothing behind (`Pluvio.AmNet.Inv.settled`): no message
on a channel, and no slot of a router that is occupied.
-/

namespace Pluvio

namespace AmNet

/-! ### An await point under other names -/

section Renamed

variable {B R α : Type*}

/-- A send, its buffer known by another name. -/
def Send.map (e : B → R) (sd : Send B) : Send R := ⟨sd.dst, sd.header, sd.view.map e⟩

/-- **The same await point**, its buffers known by the names `e`. -/
structure Instr.Renamed (e : B → R) (i : Instr B α) (i' : Instr R α) : Prop where
  sends : i'.sends = i.sends.map (Send.map e)
  recv : i'.recv = i.recv.map fun r => (r.1, r.2.map e)
  after : Heap.Renamed e i.after i'.after

variable {e : B → R} {i : Instr B α} {i' : Instr R α}

theorem Instr.Renamed.exists_send (h : i.Renamed e i') {j : ℕ} {sd : Send R}
    (hs : i'.sends[j]? = some sd) : ∃ sd', i.sends[j]? = some sd' ∧ sd'.map e = sd := by
  rw [h.sends, List.getElem?_map] at hs
  exact Option.map_eq_some_iff.mp hs

theorem Instr.Renamed.exists_recv (h : i.Renamed e i') {κ : RecvKey} {t : Slice R}
    (hr : i'.recv = some (κ, t)) : ∃ t', i.recv = some (κ, t') ∧ t'.map e = t := by
  rw [h.recv] at hr
  obtain ⟨⟨κ', t'⟩, hrecv, heq⟩ := Option.map_eq_some_iff.mp hr
  cases heq
  exact ⟨t', hrecv, rfl⟩

theorem Instr.Renamed.recv_eq_none (h : i.Renamed e i') (hr : i'.recv = none) : i.recv = none := by
  rw [h.recv] at hr
  exact Option.map_eq_none_iff.mp hr

end Renamed

/-! ### The parts of a layout -/

section Parts

variable {B R α : Type*} [DecidableEq B] {n : ℕ} {prog : ℕ → List (Stage R α)}
  {L : Layout n prog} {heap : ℕ → Heap R α}

variable (B L heap) in
/-- **A call in a row of calls**, with what is known of it by itself. -/
structure Layout.Part where
  name : B → R
  /-- The programs of the ranks that make this call only. -/
  call : ℕ → List (Stage B α)
  layout : Layout n call
  /-- Its proof outline. The call finds the memory as it is at the start. -/
  outline : layout.Outline fun p => (heap p).comap name
  /-- The first of its stages. -/
  first : ℕ
  injective : Function.Injective name
  width_pos : ∀ i < layout.stages, 0 < layout.width i
  width : ∀ i < layout.stages, L.width (first + i) = layout.width i
  len : ∀ i < layout.stages, L.len (first + i) = layout.len i
  instr : ∀ i < layout.stages, ∀ p m k,
    (layout.instr i p m k).Renamed name (L.instr (first + i) p m k)

namespace Layout.Part

variable (c : L.Part B heap) {i p m k : ℕ}

/-- Stage `i` is one of the call. -/
def Runs (i : ℕ) : Prop := c.first ≤ i ∧ i < c.first + c.layout.stages

/-- The stage of the call that comes next when stage `i` does. -/
def stageAt (i : ℕ) : ℕ := min (i - c.first) c.layout.stages

variable {c}

theorem Runs.exists_eq (h : c.Runs i) : ∃ i' < c.layout.stages, i = c.first + i' ∧
    c.stageAt i = i' ∧ c.stageAt (i + 1) = i' + 1 := by
  obtain ⟨hlo, hhi⟩ := h
  refine ⟨i - c.first, by omega, by omega, ?_, ?_⟩ <;> unfold stageAt <;> omega

theorem stageAt_succ (h : ¬c.Runs i) : c.stageAt (i + 1) = c.stageAt i := by
  unfold Runs at h
  unfold stageAt
  omega

/-- When the call is over, it stays at its end. -/
theorem stageAt_of_le (h : c.first + c.layout.stages ≤ i) : c.stageAt i = c.layout.stages := by
  unfold stageAt
  omega

theorem at_of {i' : ℕ} (hi : i' < c.layout.stages) (hat : L.At (c.first + i') p m k) :
    c.layout.At i' p m k :=
  ⟨hi, hat.rank, c.width i' hi ▸ hat.chain, c.len i' hi ▸ hat.pos⟩

theorem exists_isSend {i' j : ℕ} {sd : Send R} (hi : i' < c.layout.stages)
    (hs : L.IsSend (c.first + i') p m k j sd) :
    ∃ sd', c.layout.IsSend i' p m k j sd' ∧ sd'.map c.name = sd := by
  obtain ⟨sd', hs', heq⟩ := (c.instr i' hi p m k).exists_send hs.2
  exact ⟨sd', ⟨at_of hi hs.1, hs'⟩, heq⟩

theorem exists_isRecv {i' : ℕ} {κ : RecvKey} {t : Slice R} (hi : i' < c.layout.stages)
    (hr : L.IsRecv (c.first + i') p m k κ t) :
    ∃ t', c.layout.IsRecv i' p m k κ t' ∧ t'.map c.name = t := by
  obtain ⟨t', hr', heq⟩ := (c.instr i' hi p m k).exists_recv hr.2
  exact ⟨t', ⟨at_of hi hr.1, hr'⟩, heq⟩

end Layout.Part

/-- **Calls in a row**: every stage is one of a call, and they share neither stages nor
buffers. -/
structure Layout.InARow {ι : Type*} (part : ι → L.Part B heap) : Prop where
  cover : ∀ i < L.stages, ∃ c, (part c).Runs i
  runs_inj : ∀ {c c' i}, (part c).Runs i → (part c').Runs i → c = c'
  name_inj : ∀ {c c' b b'}, (part c).name b = (part c').name b' → c = c'

namespace Layout.InARow

variable {ι : Type*} {part : ι → L.Part B heap}

/-! ### The outline of the row -/

section Assertions

variable (part)

/-- **What a rank holds when it comes to a stage**: what each call is for, as far as the rank
has come in it. -/
def Pre (i p : ℕ) (h : Heap R α) : Prop :=
  ∀ c, (part c).outline.pre ((part c).stageAt i) p (h.comap (part c).name)

/-- What it holds when a chain of the stage is at a position. -/
def Holds (i p m k : ℕ) (h : Heap R α) : Prop :=
  ∀ c, ((part c).Runs i →
      (part c).outline.holds ((part c).stageAt i) p m k (h.comap (part c).name)) ∧
    (¬(part c).Runs i → (part c).outline.pre ((part c).stageAt i) p (h.comap (part c).name))

/-- The cells that is about: those of the chain, and all those of the other calls. -/
def Foot (i p m : ℕ) (r : R) (x : ℕ) : Prop :=
  ∃ c b, (part c).name b = r ∧
    ((part c).Runs i → (part c).outline.foot ((part c).stageAt i) p m b x)

open Classical in
/-- The messages are those of the call the stage is of. -/
noncomputable def payload (i q : ℕ) (κ : RecvKey) : List α :=
  if h : ∃ c, (part c).Runs i then
    (part h.choose).outline.payload ((part h.choose).stageAt i) q κ
  else []

end Assertions

variable (hrow : InARow part) {i p m k : ℕ} {h h' : Heap R α} {c c' : ι}

include hrow

theorem payload_eq (hc : (part c).Runs i) (q : ℕ) (κ : RecvKey) :
    payload part i q κ = (part c).outline.payload ((part c).stageAt i) q κ := by
  have hex : ∃ c, (part c).Runs i := ⟨c, hc⟩
  rw [payload, dif_pos hex, hrow.runs_inj hex.choose_spec hc]

/-- The work of one call is not seen by another one. -/
theorem comap_after_of_ne (hne : c' ≠ c) {i' : ℕ} (hi : i' < (part c).layout.stages) :
    ((L.instr ((part c).first + i') p m k).after h).comap (part c').name =
      h.comap (part c').name :=
  funext fun _ => ((part c).instr i' hi p m k).after.frame h _ fun _ heq =>
    hne (hrow.name_inj heq).symm

omit hrow in
/-- A memory that is as it was on all that is asserted is as it was for the other calls. -/
theorem comap_eq_of_agreeOn (hag : Heap.AgreeOn (Foot part i p m) h' h) (hc : ¬(part c).Runs i) :
    h'.comap (part c).name = h.comap (part c).name :=
  funext fun b => funext fun x => hag _ x ⟨c, b, rfl, fun hruns => absurd hruns hc⟩

omit hrow in
/-- And on the cells of its chain for the call of the stage. -/
theorem agreeOn_comap (hag : Heap.AgreeOn (Foot part i p m) h' h) :
    Heap.AgreeOn ((part c).outline.foot ((part c).stageAt i) p m) (h'.comap (part c).name)
      (h.comap (part c).name) :=
  fun b x hfoot => hag _ x ⟨c, b, rfl, fun _ => hfoot⟩

variable [DecidableEq R]

/-- A message for one call is not seen by another one. -/
theorem comap_copyInto_of_ne (hne : c' ≠ c) (t : Slice B) (vs : List α) :
    (h.copyInto (t.map (part c).name) vs).comap (part c').name = h.comap (part c').name :=
  funext fun _ => Heap.copyInto_map_of_ne h t vs fun _ heq => hne (hrow.name_inj heq).symm

/-- **The outlines of the calls make an outline of the row.** -/
noncomputable def outline : L.Outline heap where
  pre := Pre part
  holds := Holds part
  foot := Foot part
  payload := payload part
  init p hp c := by
    have hzero : (part c).stageAt 0 = 0 := by
      unfold Part.stageAt
      omega
    rw [hzero]
    exact (part c).outline.init p hp
  enter {i p m h} hi hp hm hpre c := by
    refine ⟨fun hruns => ?_, fun _ => hpre c⟩
    have hpre := hpre c
    obtain ⟨i', hi', rfl, hat, -⟩ := hruns.exists_eq
    rw [hat] at hpre ⊢
    exact (part c).outline.enter hi' hp ((part c).width i' hi' ▸ hm) hpre
  leave {i p h} hi hp hend c := by
    by_cases hruns : (part c).Runs i
    · obtain ⟨i', hi', rfl, hat, hsucc⟩ := hruns.exists_eq
      rw [hsucc]
      refine (part c).outline.leave hi' hp fun m hm => ?_
      have hholds := (hend m ((part c).width i' hi' ▸ hm) c).1 hruns
      rwa [hat, (part c).len i' hi'] at hholds
    · -- the stage has a chain, which says that the others are as they were
      obtain ⟨c₀, hruns₀⟩ := hrow.cover i hi
      obtain ⟨i', hi', rfl, -⟩ := hruns₀.exists_eq
      rw [Part.stageAt_succ hruns]
      have hwidth := (part c₀).width_pos i' hi'
      exact (hend 0 ((part c₀).width i' hi' ▸ hwidth) c).2 hruns
  stable {i p m k h h'} hh hag c := by
    refine ⟨fun hruns => (part c).outline.stable ((hh c).1 hruns) (agreeOn_comap hag),
      fun hruns => ?_⟩
    rw [comap_eq_of_agreeOn hag hruns]
    exact (hh c).2 hruns
  sends {i p m k j sd h} hs hh := by
    obtain ⟨c, hruns⟩ := hrow.cover i hs.1.stage
    rw [hrow.payload_eq hruns]
    have hholds := (hh c).1 hruns
    obtain ⟨i', hi', rfl, hat, -⟩ := hruns.exists_eq
    obtain ⟨sd', hs', rfl⟩ := Part.exists_isSend hi' hs
    rw [hat] at hholds ⊢
    exact (part c).outline.sends hs' hholds
  next_recv {i p m k κ t h h'} hrecv hh hag c' := by
    obtain ⟨c, hruns⟩ := hrow.cover i hrecv.1.stage
    rw [hrow.payload_eq hruns] at hag
    obtain ⟨i', hi', rfl, hat, -⟩ := hruns.exists_eq
    obtain ⟨t', hrecv', rfl⟩ := Part.exists_isRecv hi' hrecv
    refine ⟨fun hruns' => ?_, fun hruns' => ?_⟩
    · obtain rfl := hrow.runs_inj hruns hruns'
      have hholds := (hh c).1 hruns
      have hag := agreeOn_comap (c := c) hag
      rw [hat] at hholds hag ⊢
      rw [Heap.comap_copyInto _ (part c).injective] at hag
      rw [((part c).instr i' hi' p m k).after.comap]
      exact (part c).outline.next_recv hrecv' hholds hag
    · have hne : c' ≠ c := fun heq => hruns' (heq ▸ hruns)
      rw [hrow.comap_after_of_ne hne hi', comap_eq_of_agreeOn hag hruns',
        hrow.comap_copyInto_of_ne hne]
      exact (hh c').2 hruns'
  next {i p m k h} hat hnone hh c' := by
    obtain ⟨c, hruns⟩ := hrow.cover i hat.stage
    obtain ⟨i', hi', rfl, hstage, -⟩ := hruns.exists_eq
    refine ⟨fun hruns' => ?_, fun hruns' => ?_⟩
    · obtain rfl := hrow.runs_inj hruns hruns'
      have hholds := (hh c).1 hruns
      rw [hstage] at hholds ⊢
      rw [((part c).instr i' hi' p m k).after.comap]
      exact (part c).outline.next (Part.at_of hi' hat)
        (((part c).instr i' hi' p m k).recv_eq_none hnone) hholds
    · have hne : c' ≠ c := fun heq => hruns' (heq ▸ hruns)
      rw [hrow.comap_after_of_ne hne hi']
      exact (hh c').2 hruns'
  frame_recv {i p m k κ t m'} hrecv hne r x hhas := by
    obtain ⟨c, hruns⟩ := hrow.cover i hrecv.1.stage
    obtain ⟨i', hi', rfl, hat, -⟩ := hruns.exists_eq
    obtain ⟨t', hrecv', rfl⟩ := Part.exists_isRecv hi' hrecv
    rintro ⟨c', b, hname, hfoot⟩
    obtain rfl := hrow.name_inj (hname.trans hhas.1)
    obtain rfl := (part c').injective (hname.trans hhas.1)
    have hfoot := hfoot hruns
    rw [hat] at hfoot
    exact (part c').outline.frame_recv hrecv' hne _ x ⟨rfl, hhas.2⟩ hfoot
  frame_after {i p m k m'} h hat hne r x := by
    obtain ⟨c, hruns⟩ := hrow.cover i hat.stage
    obtain ⟨i', hi', rfl, hstage, -⟩ := hruns.exists_eq
    rintro ⟨c', b, rfl, hfoot⟩
    by_cases heq : c' = c
    · subst heq
      have hfoot := hfoot hruns
      rw [hstage] at hfoot
      have hafter := ((part c').instr i' hi' p m k).after.comap h
      refine (congrFun (congrFun hafter b) x).trans ?_
      exact (part c').outline.frame_after _ (Part.at_of hi' hat) hne b x hfoot
    · exact congrFun (congrFun (hrow.comap_after_of_ne heq hi') b) x

/-! ### Calls that are over -/

/-- **A rank that has returned from a call** has what the call is for, whatever it does
next. -/
theorem pre_of_returned {s : State R α} (hinv : Inv L s) (hout : hrow.outline.Outlined s)
    (hp : p < n) (hreturned : (part c).first + (part c).layout.stages ≤ (s.rank p).stage) :
    (part c).outline.pre (part c).layout.stages p ((s.rank p).node.heap.comap (part c).name) := by
  have hrank := hout.ranks p hp
  rw [← Part.stageAt_of_le hreturned]
  rcases Nat.lt_or_eq_of_le (hinv.ranks p hp).stage_le with hlt | hend
  · -- the rank is in another call
    have hruns : ¬(part c).Runs (s.rank p).stage := fun hruns => absurd hruns.2 (by omega)
    obtain ⟨c₀, hruns₀⟩ := hrow.cover _ hlt
    obtain ⟨i', hi', hstage, -⟩ := hruns₀.exists_eq
    have hwidth : 0 < L.width (s.rank p).stage := by
      rw [hstage, (part c₀).width i' hi']
      exact (part c₀).width_pos i' hi'
    by_cases htaken : ∃ κ t, L.IsRecv (s.rank p).stage p 0 ((s.rank p).chain 0).pc κ t ∧
        (s.rank p).node.done ((s.rank p).stage, 0, ((s.rank p).chain 0).pc) = true
    · -- the message of its first chain is in a buffer of that call
      obtain ⟨κ, t, hrecv, hdone⟩ := htaken
      obtain ⟨h, hholds, hag⟩ := hrank.taken 0 κ t hrecv hdone
      have hne : c ≠ c₀ := fun heq => hruns (heq ▸ hruns₀)
      obtain ⟨t, -, rfl⟩ := Part.exists_isRecv hi' (hstage ▸ hrecv)
      have hother := comap_eq_of_agreeOn hag hruns
      rw [hother, hrow.comap_copyInto_of_ne hne]
      exact (hholds c).2 hruns
    · have hholds := hrank.waiting hlt 0 hwidth fun κ t hrecv => by
        by_contra hdone
        exact htaken ⟨κ, t, hrecv, Bool.eq_true_of_not_eq_false hdone⟩
      exact (hholds c).2 hruns
  · have hpre := hrank.final hend
    rw [← hend] at hpre
    exact hpre c

end Layout.InARow

end Parts

/-! ### What is left at the end -/

section Settled

variable {R α : Type*} {n : ℕ} {prog : ℕ → List (Stage R α)} {P : Layout n prog}
  {time : ℕ → ℕ → ℕ → ℕ → ℕ} {eager : ℕ → Name → ℕ → Bool} {s : State R α}

/-- **Nothing is left**: there is no message, neither on its way nor in a router, and no
receive that waits. -/
structure Settled (s : State R α) : Prop where
  chan : ∀ p q, s.chan p q = []
  router : ∀ q κ, (s.rank q).node.router.slots κ = none

/-- **A run that has come to its end leaves nothing.** -/
theorem Inv.settled (h : Inv P s) (hM : P.Matched time) (hfinal : Final ⟨n, prog, eager⟩ s) :
    Settled s := by
  -- every receive is done
  have hdone : ∀ {i q m k κ t}, P.IsRecv i q m k κ t →
      (s.rank q).node.done (i, m, k) = true := by
    intro i q m k κ t hrecv
    refine (h.ranks q hrecv.1.rank).taken i m k κ t hrecv (.inl ?_)
    refine hrecv.1.stage.trans_eq ((hfinal q hrecv.1.rank).symm ▸ ?_)
    show P.stages = (prog q).length
    rw [P.length_prog hrecv.1.rank]
  have htaken : ∀ {i p q κ}, Issued P s i p q κ → Taken P s i q κ := by
    rintro i p q κ ⟨m, k, j, sd, hsend, rfl, rfl, -⟩
    obtain ⟨k', t, hrecv⟩ := hM.receiver hsend
    exact ⟨m, k', t, hrecv, hdone hrecv⟩
  refine ⟨fun p q => ?_, fun q κ => ?_⟩
  · refine List.eq_nil_iff_forall_not_mem.mpr fun msg hmsg => ?_
    have hon : OnChannel s msg.payload.origin p q msg.key := ⟨msg, hmsg, rfl, rfl⟩
    exact h.messages.chan_not_taken _ _ _ _ hon (htaken (h.messages.chan_issued _ _ _ _ hon))
  · rcases hslot : (s.rank q).node.router.slots κ with - | pr | e
    · rfl
    · obtain ⟨i, m, k, hrecv, -, -, hnot⟩ := h.messages.pending q κ pr hslot
      rw [hdone hrecv] at hnot
      cases hnot
    · have hearly : IsEarly s e.origin q κ := ⟨e, hslot, rfl⟩
      obtain ⟨p, hissued⟩ := h.messages.early_issued _ _ _ hearly
      exact absurd (htaken hissued) (h.messages.early_not_taken _ _ _ hearly)

end Settled

end AmNet

end Pluvio
