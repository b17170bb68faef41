import Mathlib.Order.CompletePartialOrder
import Pluvio.Collective.Broadcast
import Pluvio.Collective.Bruck
import Pluvio.Collective.PipelinedRing
import Pluvio.Collective.RecursiveDoubling
import Pluvio.Collective.Scatter
import Pluvio.Collective.Together

/-!
# One call of each collective

The collectives keep out of each other's way by a byte. A key and a tag both have a phase
field of their own, which nothing else in them reaches, whatever is cast into the other
fields, and no two collectives use a phase in common:

| collective | phases | |
|---|---|---|
| pipelined ring | 0 and 1 | keys |
| scatter | 2 | keys |
| Bruck's allgather | 4 | keys |
| broadcast | 5 | keys |
| ring | 0 and 1 | tags |
| recursive doubling | 3 | tags |

So one call of each can be in flight at a time. This does not depend on the number of
ranks nor on the arguments, which may be such that a call fails, or differ from rank to
rank.
-/

namespace Pluvio

variable {α : Type*} {F : Region → ℕ → Prop} {comm : UcxCommunicator} {call : ℕ}

/-! ### What the calls over active messages use -/

section ActiveMessages

open AmNet

/-- All await points of a program stay among the cells of `F`, and under keys of these
phases. -/
def StagesWithin (F : Region → ℕ → Prop) (phases : List UInt8) (sts : List (Stage Region α)) :
    Prop := ∀ st ∈ sts, ∀ chain ∈ st.chains, ∀ i ∈ chain, i.Within F phases

theorem stagesWithin_nil (phases : List UInt8) : StagesWithin (α := α) F phases [] :=
  fun _ hst => absurd hst List.not_mem_nil

/-- A stage of one chain. -/
theorem stagesWithin_single {phases : List UInt8} {w : ℕ} {chain : List (Instr Region α)}
    (h : ∀ i ∈ chain, i.Within F phases) : StagesWithin F phases [⟨w, [chain]⟩] := by
  intro st hst chain' hchain
  obtain rfl := List.mem_singleton.mp hst
  obtain rfl := List.mem_singleton.mp hchain
  exact h

/-- A slice of a buffer of the call. -/
theorem within_of_buffers (hF : ∀ b x, F (call, b) x) (b : Buffer) (off len : ℕ) :
    (⟨(call, b), off, len⟩ : Slice Region).Within F := by
  rintro r x ⟨rfl, -⟩
  exact hF b x

variable (hF : ∀ b x, F (call, b) x)
include hF

theorem within_reduceScatterChain {op : Op α} {slots : ℕ → Slice Region}
    (hslots : ∀ k, (slots k).Within F) (nextEp microChunks microSize m : ℕ) :
    ∀ i ∈ reduceScatterChain op comm call slots nextEp microChunks microSize m,
      i.Within F [0, 1] := by
  intro i hi
  obtain ⟨step, -, rfl⟩ := List.mem_map.mp hi
  have htmp := within_of_buffers hF (.tmp m) 0 microSize
  refine ⟨fun sd hsd => ?_, fun κ t hrecv => ?_, op.localTo_reduceSlice (hslots _) htmp⟩
  · obtain rfl := List.mem_singleton.mp hsd
    exact ⟨by simp [Send.key, RecvKey.ofHeader], hslots _⟩
  · obtain ⟨rfl, rfl⟩ := Prod.mk.inj (Option.some.inj hrecv)
    exact ⟨by simp [RecvKey.ofHeader], htmp⟩

omit hF in
theorem within_allgatherChain {slots : ℕ → Slice Region} (hslots : ∀ k, (slots k).Within F)
    (nextEp microChunks m : ℕ) :
    ∀ i ∈ allgatherChain (α := α) comm slots nextEp microChunks m, i.Within F [0, 1] := by
  intro i hi
  obtain ⟨step, -, rfl⟩ := List.mem_map.mp hi
  refine ⟨fun sd hsd => ?_, fun κ t hrecv => ?_, .id F⟩
  · obtain rfl := List.mem_singleton.mp hsd
    exact ⟨by simp [Send.key, RecvKey.ofHeader], hslots _⟩
  · obtain ⟨rfl, rfl⟩ := Prod.mk.inj (Option.some.inj hrecv)
    exact ⟨by simp [RecvKey.ofHeader], hslots _⟩

/-- **The pipelined ring** uses the phases of the ring. -/
theorem within_pipelinedRing (op : Op α) (len microChunks maxInFlight : ℕ) :
    StagesWithin F [0, 1] (pipelinedRing op comm call len microChunks maxInFlight).steps := by
  unfold pipelinedRing
  dsimp only
  split_ifs
  any_goals exact stagesWithin_nil _
  split
  · exact stagesWithin_nil _
  · have hslots : ∀ chunk microSize k,
        (microSlot call chunk microChunks microSize k).Within F :=
      fun _ _ _ => within_of_buffers hF .buf _ _
    intro st hst chain hchain
    obtain rfl | hst := List.mem_cons.mp hst
    · obtain ⟨m, -, rfl⟩ := List.mem_map.mp hchain
      exact within_reduceScatterChain hF (hslots _ _) _ _ _ m
    · obtain rfl := List.mem_singleton.mp hst
      obtain ⟨m, -, rfl⟩ := List.mem_map.mp hchain
      exact within_allgatherChain (hslots _ _) _ _ m

/-- The local copy of a call. -/
theorem within_copy (phases : List UInt8) (s t : Buffer) (off off' len len' : ℕ) :
    (⟨[], none, fun h => h.copyInto ⟨(call, s), off, len⟩ (h.read ⟨(call, t), off', len'⟩)⟩ :
      Instr Region α).Within F phases :=
  ⟨nofun, nofun, .copyInto (within_of_buffers hF s off len) fun _ _ hag =>
    hag.read_eq (within_of_buffers hF t off' len')⟩

theorem within_scatterSends {chunk root : ℕ} {rs : List ℕ} {sends : List (Send Region)}
    (h : scatterSends comm call chunk root rs = .ok sends) :
    ∀ sd ∈ sends, sd.key.phase ∈ [phaseScatter] ∧ sd.view.Within F := by
  induction rs generalizing sends with
  | nil =>
    obtain rfl := Except.ok.inj h
    exact fun _ hsd => absurd hsd List.not_mem_nil
  | cons r rs ih =>
    rw [scatterSends] at h
    split at h
    · exact ih h
    · split at h
      · cases h
      · rcases hrest : scatterSends comm call chunk root rs with e | rest
        · rw [hrest] at h
          cases h
        · rw [hrest] at h
          obtain rfl := Except.ok.inj h
          intro sd hsd
          obtain rfl | hsd := List.mem_cons.mp hsd
          · exact ⟨by simp [Send.key, RecvKey.ofHeader, scatterHeader],
              within_of_buffers hF .send _ _⟩
          · exact ih hrest sd hsd

/-- **Scatter** has a phase to itself. -/
theorem within_scatter (sendLen : Option ℕ) (chunk root : ℕ) :
    StagesWithin (α := α) F [phaseScatter] (scatter comm call sendLen chunk root).steps := by
  have hcopy : ∀ off, (scatterCopy (α := α) call chunk off).Within F [phaseScatter] :=
    fun off => within_copy hF _ .buf .send 0 off chunk chunk
  unfold scatter
  dsimp only
  split_ifs
  · exact stagesWithin_nil _
  · split
    · exact stagesWithin_nil _
    · split
      · exact stagesWithin_nil _
      · exact stagesWithin_single fun i hi => List.mem_singleton.mp hi ▸ hcopy 0
  · split
    · exact stagesWithin_nil _
    · split
      · exact stagesWithin_nil _
      · split
        · exact stagesWithin_single fun i hi => List.mem_singleton.mp hi ▸ hcopy _
        · next sends hsends =>
          refine stagesWithin_single fun i hi => ?_
          obtain rfl | hi := List.mem_cons.mp hi
          · exact hcopy _
          · obtain rfl := List.mem_singleton.mp hi
            exact ⟨within_scatterSends hF hsends, (fun κ t hrecv => by cases hrecv), .id F⟩
  · refine stagesWithin_single fun i hi => ?_
    obtain rfl := List.mem_singleton.mp hi
    refine ⟨fun sd hsd => absurd hsd List.not_mem_nil, fun κ t hrecv => ?_, .id F⟩
    obtain ⟨rfl, rfl⟩ := Prod.mk.inj (Option.some.inj hrecv)
    exact ⟨by simp [RecvKey.ofHeader, scatterHeader], within_of_buffers hF .buf _ _⟩

theorem within_bruckRotate (l : ℕ) :
    (bruckRotate (α := α) comm call l).Within F [phaseBruck] := by
  have hbuf := within_of_buffers hF .buf
  have htmp := within_of_buffers hF (.tmp 0)
  have hfirst : ∀ h h' : Heap Region α, Heap.AgreeOn F h h' →
      List.replicate (comm.size * l) (h (call, .send) 0) =
        List.replicate (comm.size * l) (h' (call, .send) 0) := fun h h' hag => by
    rw [hag _ _ (hF .send 0)]
  have hpart : ∀ k, Heap.LocalTo F fun h : Heap Region α =>
      h.copyInto ⟨(call, .tmp 0), (comm.rank + k) % comm.size * l, l⟩
        (h.read ⟨(call, .buf), k * l, l⟩) :=
    fun k => .copyInto (htmp _ l) fun _ _ hag => hag.read_eq (hbuf (k * l) l)
  refine ⟨nofun, nofun, ?_⟩
  -- the buffer is made, filled part by part, and copied back
  exact (Heap.LocalTo.copyInto (hbuf 0 _) fun _ _ hag => hag.read_eq (htmp 0 _)).comp
    ((Heap.LocalTo.foldl hpart _).comp (.copyInto (htmp 0 _) hfirst))

theorem within_bruckRounds (l count round : ℕ) :
    ∀ i ∈ (bruckRounds (α := α) comm call l count round).steps, i.Within F [phaseBruck] := by
  fun_induction bruckRounds comm call l count round with
  | case1 => exact fun _ hi => absurd hi List.not_mem_nil
  | case2 count round hcount n toSend sendPeer sendEp hep rest ih =>
    intro i hi
    obtain rfl | hi := List.mem_cons.mp hi
    · refine ⟨fun sd hsd => ?_, fun κ t hrecv => ?_, .id F⟩
      · obtain rfl := List.mem_singleton.mp hsd
        exact ⟨by simp [Send.key, RecvKey.ofHeader], within_of_buffers hF .buf _ _⟩
      · obtain ⟨rfl, rfl⟩ := Prod.mk.inj (Option.some.inj hrecv)
        exact ⟨by simp [RecvKey.ofHeader], within_of_buffers hF .buf _ _⟩
    · exact ih i hi
  | case3 => exact fun i hi => List.mem_singleton.mp hi ▸ within_bruckRotate hF l

/-- **Bruck's allgather** has a phase to itself. -/
theorem within_bruckAllgather (l recvLen : ℕ) :
    StagesWithin (α := α) F [phaseBruck] (bruckAllgather comm call l recvLen).steps := by
  have hcopy : (bruckCopy (α := α) call l).Within F [phaseBruck] :=
    within_copy hF _ .buf .send 0 0 l l
  unfold bruckAllgather
  dsimp only
  split_ifs
  · exact stagesWithin_nil _
  · exact stagesWithin_single fun i hi => List.mem_singleton.mp hi ▸ hcopy
  · refine stagesWithin_single fun i hi => ?_
    obtain rfl | hi := List.mem_cons.mp hi
    · exact hcopy
    · exact within_bruckRounds hF l 1 0 i hi

theorem within_broadcastRounds (len root logical : ℕ) (rounds : List ℕ) (haveData : Bool) :
    ∀ i ∈ (broadcastRounds (α := α) comm call len root logical haveData rounds).steps,
      i.Within F [phaseBcast] := by
  have hbuf := within_of_buffers hF .buf 0 len
  induction rounds generalizing haveData with
  | nil =>
    cases haveData <;> exact fun _ hi => absurd hi List.not_mem_nil
  | cons round rounds ih =>
    cases haveData with
    | true =>
      rw [broadcastRounds]
      dsimp only
      split
      · split
        · exact fun _ hi => absurd hi List.not_mem_nil
        · intro i hi
          obtain rfl | hi := List.mem_cons.mp hi
          · refine ⟨fun sd hsd => ?_, (fun κ t hrecv => by cases hrecv), .id F⟩
            obtain rfl := List.mem_singleton.mp hsd
            exact ⟨by simp [Send.key, RecvKey.ofHeader], hbuf⟩
          · exact ih true i hi
      · exact ih true
    | false =>
      rw [broadcastRounds]
      split
      · intro i hi
        obtain rfl | hi := List.mem_cons.mp hi
        · refine ⟨fun sd hsd => absurd hsd List.not_mem_nil, fun κ t hrecv => ?_, .id F⟩
          obtain ⟨rfl, rfl⟩ := Prod.mk.inj (Option.some.inj hrecv)
          exact ⟨by simp [RecvKey.ofHeader], hbuf⟩
        · exact ih true i hi
      · exact ih false

/-- **Broadcast** has a phase to itself. -/
theorem within_broadcast (len root : ℕ) :
    StagesWithin (α := α) F [phaseBcast] (broadcast comm call len root).steps := by
  unfold broadcast
  dsimp only
  split_ifs
  · exact stagesWithin_nil _
  · exact stagesWithin_nil _
  · exact stagesWithin_single (within_broadcastRounds hF len root _ _ _)

end ActiveMessages

/-! ### What the calls over tags use -/

section Tags

open TagNet

/-- The phase of a tag. -/
def tagPhase (tag : UInt64) : ℕ := tag.toNat / 2 ^ 32 % 2 ^ 8

/-- **It is the phase that was encoded**, whatever the other fields are. -/
theorem tagPhase_encodeTag (src : ℕ) (step : UInt16) (phase microChunk : UInt8) :
    tagPhase (encodeTag src step phase microChunk) = phase.toNat := by
  have h1 := step.toNat_lt
  have h2 := phase.toNat_lt
  rw [tagPhase, encodeTag_toNat]
  omega

variable (hF : ∀ b x, F (call, b) x)
include hF

/-- **The ring** uses two phases. -/
theorem within_ringAllreduce (op : Op α) (len : ℕ) :
    ∀ i ∈ (ringAllreduce op comm call len).steps, i.Within ⟨F, fun x => tagPhase x < 2⟩ := by
  have hbuf := within_of_buffers hF .buf
  have htmp := within_of_buffers hF (.tmp 0)
  unfold ringAllreduce
  dsimp only
  split
  · exact fun _ hi => absurd hi List.not_mem_nil
  split
  · exact fun _ hi => absurd hi List.not_mem_nil
  split
  · exact fun _ hi => absurd hi List.not_mem_nil
  · intro i hi
    obtain hi | hi := List.mem_append.mp hi
    · obtain ⟨step, -, rfl⟩ := List.mem_map.mp hi
      refine ⟨?_, ?_, hbuf _ _, htmp _ _, op.localTo_reduceSlice (hbuf _ _) (htmp _ _)⟩ <;>
        simp [reduceScatterStep, tagPhase_encodeTag]
    · obtain ⟨step, -, rfl⟩ := List.mem_map.mp hi
      refine ⟨?_, ?_, hbuf _ _, hbuf _ _, .id F⟩ <;> simp [allgatherStep, tagPhase_encodeTag]

theorem within_recursiveDoublingRounds (op : Op α) (len : ℕ) (rs : List ℕ) :
    ∀ i ∈ (recursiveDoublingRounds op comm call len rs).steps,
      i.Within ⟨F, fun x => tagPhase x = 3⟩ := by
  have hbuf := within_of_buffers hF .buf 0 len
  have htmp := within_of_buffers hF (.tmp 0) 0 len
  induction rs with
  | nil => exact fun _ hi => absurd hi List.not_mem_nil
  | cons r rs ih =>
    rw [recursiveDoublingRounds]
    split
    · exact fun _ hi => absurd hi List.not_mem_nil
    · intro i hi
      obtain rfl | hi := List.mem_cons.mp hi
      · refine ⟨?_, ?_, hbuf, htmp, op.localTo_reduceSlice hbuf htmp⟩ <;>
          simp [recursiveDoublingStep, tagPhase_encodeTag, phaseRd]
      · exact ih i hi

/-- **Recursive doubling** over a power of two has a phase to itself. -/
theorem within_recursiveDoubling (op : Op α) (len : ℕ) (hpow : ∃ k < 64, comm.size = 2 ^ k) :
    ∀ i ∈ (recursiveDoubling op comm call len).steps, i.Within ⟨F, fun x => tagPhase x = 3⟩ := by
  unfold recursiveDoubling
  dsimp only
  split
  · exact fun _ hi => absurd hi List.not_mem_nil
  · exact within_recursiveDoublingRounds hF op len _

end Tags

/-! ### One call of each -/

/-- What the six calls are given, on each rank. -/
structure Arguments (α : Type*) where
  pipelinedOp : Op α
  pipelinedLen : ℕ → ℕ
  microChunks : ℕ → ℕ
  maxInFlight : ℕ → ℕ
  scatterSendLen : ℕ → Option ℕ
  scatterChunk : ℕ → ℕ
  scatterRoot : ℕ → ℕ
  bruckSendLen : ℕ → ℕ
  bruckRecvLen : ℕ → ℕ
  broadcastLen : ℕ → ℕ
  broadcastRoot : ℕ → ℕ
  ringOp : Op α
  ringLen : ℕ → ℕ
  doublingOp : Op α
  doublingLen : ℕ → ℕ

namespace Arguments

variable (args : Arguments α) (n : ℕ)

/-- The calls over active messages. -/
def am : ℕ → ℕ → List (AmNet.Stage Region α)
  | 0, p => (pipelinedRing args.pipelinedOp (.connected n p) 0 (args.pipelinedLen p)
      (args.microChunks p) (args.maxInFlight p)).steps
  | 1, p => (scatter (.connected n p) 1 (args.scatterSendLen p) (args.scatterChunk p)
      (args.scatterRoot p)).steps
  | 2, p => (bruckAllgather (.connected n p) 2 (args.bruckSendLen p) (args.bruckRecvLen p)).steps
  | 3, p => (broadcast (.connected n p) 3 (args.broadcastLen p) (args.broadcastRoot p)).steps
  | _, _ => []

/-- The calls over tags. Recursive doubling is one of them if the number of ranks is a
power of two. -/
def tag : ℕ → ℕ → List (TagNet.Instr Region UInt64 α)
  | 4, p => (ringAllreduce args.ringOp (.connected n p) 4 (args.ringLen p)).steps
  | 5, p => if ∃ k < 64, n = 2 ^ k then
      (recursiveDoubling args.doublingOp (.connected n p) 5 (args.doublingLen p)).steps
    else []
  | _, _ => []

/-- **One call of each collective**, with any sends complete at once. -/
def calls (eager : ℕ → AmNet.Name → ℕ → Bool) (tagEager : ℕ → ℕ → ℕ → Bool) :
    Together.Calls Region UInt64 α := ⟨n, args.am n, args.tag n, eager, tagEager⟩

/-- The keys that a call sends or receives under. -/
def keys (c : ℕ) : Set RecvKey :=
  {κ | ∃ p, ∃ st ∈ args.am n c p, ∃ chain ∈ st.chains, ∃ i ∈ chain,
    (∃ sd ∈ i.sends, sd.key = κ) ∨ ∃ t, i.recv = some (κ, t)}

/-- The tags that a call sends or receives under. -/
def tags (d : ℕ) : Set UInt64 :=
  {x | ∃ p, ∃ i ∈ args.tag n d p, i.tag = x ∨ i.recvTag = x}

/-- The phases of the calls over active messages. -/
def phases : ℕ → List UInt8
  | 0 => [0, 1]
  | 1 => [phaseScatter]
  | 2 => [phaseBruck]
  | 3 => [phaseBcast]
  | _ => []

/-- The tags of the calls over tags. -/
def tagsOf : ℕ → UInt64 → Prop
  | 4, x => tagPhase x < 2
  | 5, x => tagPhase x = 3
  | _, _ => False

/-- The call that uses a phase. -/
def callOfPhase (x : UInt8) : ℕ :=
  if x = phaseScatter then 1 else if x = phaseBruck then 2 else if x = phaseBcast then 3 else 0

theorem callOfPhase_eq {c : ℕ} {x : UInt8} (h : x ∈ phases c) : callOfPhase x = c := by
  match c with
  | 0 =>
    obtain rfl | h := List.mem_cons.mp h
    · rfl
    · exact List.mem_singleton.mp h ▸ rfl
  | 1 | 2 | 3 => exact List.mem_singleton.mp h ▸ rfl
  | _ + 4 => exact absurd h List.not_mem_nil

/-- No two calls use one phase. -/
theorem phases_ne {c c' : ℕ} (hne : c ≠ c') : ∀ x ∈ phases c, x ∉ phases c' :=
  fun _ h h' => hne ((callOfPhase_eq h).symm.trans (callOfPhase_eq h'))

theorem callOfTag_eq {d : ℕ} {x : UInt64} (h : tagsOf d x) :
    (if tagPhase x = 3 then 5 else 4) = d := by
  match d with
  | 4 =>
    have : tagPhase x < 2 := h
    exact if_neg (by omega)
  | 5 => exact if_pos h
  | 0 | 1 | 2 | 3 | _ + 6 => exact h.elim

/-- No two calls use one tag. -/
theorem tagsOf_ne {d d' : ℕ} (hne : d ≠ d') (x : UInt64) : tagsOf d x → ¬tagsOf d' x :=
  fun h h' => hne ((callOfTag_eq h).symm.trans (callOfTag_eq h'))

/-- The buffers of a call over active messages. -/
def own (c : ℕ) : Region → ℕ → Prop := fun r _ => c < 4 ∧ r.1 = c

/-- The buffers of a call over tags. -/
def tagOwn (d : ℕ) : Region → ℕ → Prop := fun r _ => 4 ≤ d ∧ r.1 = d

theorem within_am (c p : ℕ) : StagesWithin (own c) (phases c) (args.am n c p) := by
  match c with
  | 0 => exact within_pipelinedRing (fun _ _ => ⟨by decide, rfl⟩) _ _ _ _
  | 1 => exact within_scatter (fun _ _ => ⟨by decide, rfl⟩) _ _ _
  | 2 => exact within_bruckAllgather (fun _ _ => ⟨by decide, rfl⟩) _ _
  | 3 => exact within_broadcast (fun _ _ => ⟨by decide, rfl⟩) _ _
  | _ + 4 => exact stagesWithin_nil _

theorem within_tag (d p : ℕ) : ∀ i ∈ args.tag n d p, i.Within ⟨tagOwn d, tagsOf d⟩ := by
  match d with
  | 4 => exact within_ringAllreduce (fun _ _ => ⟨by decide, rfl⟩) _ _
  | 5 =>
    rw [tag]
    split
    · next hpow => exact within_recursiveDoubling (fun _ _ => ⟨by decide, rfl⟩) _ _ hpow
    · exact fun _ hi => absurd hi List.not_mem_nil
  | 0 | 1 | 2 | 3 | _ + 6 => exact fun _ hi => absurd hi List.not_mem_nil

/-- **The collectives have nothing in common.** -/
def separate (eager : ℕ → AmNet.Name → ℕ → Bool) (tagEager : ℕ → ℕ → ℕ → Bool) :
    Together.Separate (args.calls n eager tagEager) where
  own := own
  phases := phases
  tagOwn := tagOwn
  tags := tagsOf
  own_ne _ _ hne _ _ h h' := hne (h.2.symm.trans h'.2)
  tagOwn_ne _ _ hne _ _ h h' := hne (h.2.symm.trans h'.2)
  own_tagOwn c d r i h h' := by
    have := h.2.symm.trans h'.2
    have := h.1
    have := h'.1
    omega
  phases_ne _ _ := phases_ne
  tags_ne _ _ := tagsOf_ne
  within := args.within_am n
  tagWithin := args.within_tag n

/-- The keys of a call have its phases. -/
theorem phase_of_mem_keys {c : ℕ} {κ : RecvKey} (h : κ ∈ args.keys n c) : κ.phase ∈ phases c := by
  obtain ⟨p, st, hst, chain, hchain, i, hi, h⟩ := h
  have hwithin := args.within_am n c p st hst chain hchain i hi
  obtain ⟨sd, hsd, rfl⟩ | ⟨t, ht⟩ := h
  · exact (hwithin.sends sd hsd).1
  · exact (hwithin.recv κ t ht).1

/-- And the tags of one its own. -/
theorem tagsOf_of_mem_tags {d : ℕ} {x : UInt64} (h : x ∈ args.tags n d) : tagsOf d x := by
  obtain ⟨p, i, hi, h⟩ := h
  have hwithin := args.within_tag n d p i hi
  obtain rfl | rfl := h
  · exact hwithin.tag
  · exact hwithin.recvTag

/-- **The collectives do not interfere.** However many ranks there are and whatever the
calls are given, no two calls over active messages have a key in common and no two calls over
tags a tag, and no call makes a difference to another: each call stands, on every rank, as in
a state that it reaches alone, and in each of these it may be found. So what it may have left
in its buffers when it has returned is what it may have left there alone. -/
theorem collectives_independent (args : Arguments α) (n : ℕ) (eager : ℕ → AmNet.Name → ℕ → Bool)
    (tagEager : ℕ → ℕ → ℕ → Bool) (heap : ℕ → Heap Region α) :
    (∀ c c', c ≠ c' → Disjoint (args.keys n c) (args.keys n c')) ∧
      (∀ d d', d ≠ d' → Disjoint (args.tags n d) (args.tags n d')) ∧
      Together.Independent (args.calls n eager tagEager) own tagOwn heap ∧
      (∀ c p, (args.calls n eager tagEager).results (own c) heap c p =
        (args.calls n eager tagEager).aloneResults (own c) heap c p) ∧
      ∀ d p, (args.calls n eager tagEager).tagResults (tagOwn d) heap d p =
        (args.calls n eager tagEager).tagAloneResults (tagOwn d) heap d p := by
  have hind : Together.Independent (args.calls n eager tagEager) own tagOwn heap :=
    (args.separate n eager tagEager).independent heap
  refine ⟨fun c c' hne => ?_, fun d d' hne => ?_, hind, hind.results_eq, hind.tagResults_eq⟩
  · exact Set.disjoint_left.mpr fun κ h h' =>
      phases_ne hne _ (args.phase_of_mem_keys n h) (args.phase_of_mem_keys n h')
  · exact Set.disjoint_left.mpr fun x h h' =>
      tagsOf_ne hne x (args.tagsOf_of_mem_tags n h) (args.tagsOf_of_mem_tags n h')

end Arguments

end Pluvio
