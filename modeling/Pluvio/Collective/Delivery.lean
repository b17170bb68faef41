import Pluvio.Collective.AmSequence
import Pluvio.Collective.BackToBack
import Pluvio.Collective.Bounds

/-!
# What calls in a row deliver

Bruck allgathers and pipelined rings, one after the other, use the same keys over and over.
That they do not get in each other's way is `Pluvio.BackToBack.back_to_back_synchronized`; here
it is what they are for. The buffers of a call are those it has by itself, under the number of
the call (`Pluvio.BackToBack.nameIn`), so that the calls are a row
(`Pluvio.BackToBack.inARow`): a rank that has returned from a call has its result, while the
other ranks are anywhere (`Pluvio.BackToBack.back_to_back_delivers`), and a run ends, with all
results in place and nothing left in the channels and the routers
(`Pluvio.BackToBack.back_to_back_ends`).
-/

namespace Pluvio

open AmNet

namespace BackToBack

variable {α : Type*} {n : ℕ}

/-! ### The buffers of a call -/

/-- **The name of a buffer** of a call made by itself in a row of `N` calls, in which it is the
call `c`. -/
def nameIn (N c : ℕ) (r : Region) : Region := (c + N * r.1, r.2)

variable {N c : ℕ}

/-- No two calls have a buffer in common, nor has a call two of one name. -/
theorem nameIn_inj {c' : ℕ} (hc : c < N) (hc' : c' < N) {r r' : Region}
    (h : nameIn N c r = nameIn N c' r') : c = c' ∧ r = r' := by
  obtain ⟨hnum, hbuf⟩ := Prod.ext_iff.mp h
  have hmod := congrArg (· % N) hnum
  have hdiv := congrArg (· / N) hnum
  have hpos : 0 < N := Nat.zero_lt_of_lt hc
  simp only [nameIn, Nat.add_mul_mod_self_left, Nat.mod_eq_of_lt hc, Nat.mod_eq_of_lt hc'] at hmod
  simp only [nameIn, Nat.add_mul_div_left _ _ hpos, Nat.div_eq_of_lt hc, Nat.div_eq_of_lt hc',
    Nat.zero_add] at hdiv
  exact ⟨hmod, Prod.ext hdiv hbuf⟩

theorem nameIn_injective (hc : c < N) : Function.Injective (nameIn N c) :=
  fun _ _ h => (nameIn_inj hc hc h).2

/-- **The await points of a Bruck allgather** are those of the call by itself. -/
theorem bruckInstr_renamed (hc : c < N) (l p k : ℕ) :
    (bruckInstr (α := α) n 0 l p k).Renamed (nameIn N c) (bruckInstr n c l p k) := by
  have hinj := nameIn_injective hc
  unfold bruckInstr
  split
  · refine ⟨rfl, rfl, ?_⟩
    exact .copyInto hinj ⟨(0, .buf), 0, l⟩ fun _ => rfl
  · split
    · exact ⟨rfl, rfl, .id _⟩
    · -- the buffer of the rotation is filled, and copied back when all is put
      refine ⟨rfl, rfl, ?_⟩
      have hfill : Heap.Renamed (α := α) (nameIn N c)
          (fun h => h.copyInto ⟨(0, .tmp 0), 0, n * l⟩ (List.replicate (n * l) (h (0, .send) 0)))
          (fun h => h.copyInto ⟨(c, .tmp 0), 0, n * l⟩ (List.replicate (n * l) (h (c, .send) 0))) :=
        .copyInto hinj _ fun _ => rfl
      have hput : ∀ k, Heap.Renamed (nameIn N c) (fun h => bruckPut (α := α) n 0 l p h k)
          fun h => bruckPut n c l p h k :=
        fun _ => .copyInto hinj _ fun _ => rfl
      have hback : Heap.Renamed (α := α) (nameIn N c)
          (fun h => h.copyInto ⟨(0, .buf), 0, n * l⟩ (h.read ⟨(0, .tmp 0), 0, n * l⟩))
          (fun h => h.copyInto ⟨(c, .buf), 0, n * l⟩ (h.read ⟨(c, .tmp 0), 0, n * l⟩)) :=
        .copyInto hinj _ fun _ => rfl
      exact hback.comp ((Heap.Renamed.foldl hput (List.range n)).comp hfill)

/-- **The steps of a pipelined ring** are those of the call by itself. -/
theorem microInstr_renamed (op : Op α) (hc : c < N) (sh : PipelineShape) (φ p m k : ℕ) :
    (microInstr op n 0 sh φ p m k).Renamed (nameIn N c) (microInstr op n c sh φ p m k) := by
  unfold microInstr
  split
  · refine ⟨rfl, rfl, ?_⟩
    have hreduce : Heap.Renamed (nameIn N c)
        (fun h => op.reduceSlice h (microSlice n 0 sh ((p + n - k - 1) % n) m)
          ⟨(0, .tmp m), 0, sh.micro n⟩)
        (fun h => op.reduceSlice h (microSlice n c sh ((p + n - k - 1) % n) m)
          ⟨(c, .tmp m), 0, sh.micro n⟩) :=
      .copyInto (nameIn_injective hc) _ fun _ => rfl
    exact hreduce
  · exact ⟨rfl, rfl, .id _⟩

/-! ### Which stages are of which call -/

/-- The number of stages of a call. -/
def BackCall.width : BackCall n α → ℕ
  | .bruckAllgather _ => 1
  | .pipelinedRing .. => 2

/-- The first stage of each call. -/
def firstStage (calls : List (BackCall n α)) (c : ℕ) : ℕ :=
  ((calls.take c).map BackCall.width).sum

@[simp] theorem firstStage_zero (calls : List (BackCall n α)) : firstStage calls 0 = 0 := rfl

@[simp] theorem firstStage_cons_succ (d : BackCall n α) (calls : List (BackCall n α)) (c : ℕ) :
    firstStage (d :: calls) (c + 1) = d.width + firstStage calls c := by
  rw [firstStage, List.take_succ_cons, List.map_cons, List.sum_cons, firstStage]

variable {calls : List (BackCall n α)} {d : BackCall n α} {call i : ℕ}

/-- The stages of a call come before those of the calls after it. -/
theorem stages_cons (call : ℕ) (d : BackCall n α) (calls : List (BackCall n α)) :
    stages call (d :: calls) = stages call [d] ++ stages (call + 1) calls := by
  match d with
  | .bruckAllgather l => rfl
  | .pipelinedRing op sh ok => rfl

@[simp] theorem length_stages_singleton (call : ℕ) (d : BackCall n α) :
    (stages call [d]).length = d.width := by
  match d with
  | .bruckAllgather l => rfl
  | .pipelinedRing op sh ok => rfl

/-- **The stages of a call**, in the row. -/
theorem getElem?_stages (h : calls[c]? = some d) (hi : i < d.width) :
    (stages call calls)[firstStage calls c + i]? = (stages (call + c) [d])[i]? := by
  induction calls generalizing c call with
  | nil => cases h
  | cons d' calls ih =>
    rw [stages_cons]
    rcases c with - | c
    · obtain rfl := Option.some.inj h
      rw [firstStage_zero, Nat.zero_add, List.getElem?_append_left (by simpa using hi)]
      rfl
    · rw [firstStage_cons_succ, List.getElem?_append_right (by simp; omega),
        length_stages_singleton, Nat.add_assoc, Nat.add_sub_cancel_left, ih h,
        Nat.add_right_comm call 1]
      rfl

/-- **Every stage is one of a call.** -/
theorem exists_call (h : i < (stages call calls).length) :
    ∃ c d, calls[c]? = some d ∧ firstStage calls c ≤ i ∧ i < firstStage calls c + d.width := by
  induction calls generalizing i call with
  | nil => cases h
  | cons d calls ih =>
    rw [stages_cons, List.length_append, length_stages_singleton] at h
    rcases Nat.lt_or_ge i d.width with hlt | hge
    · exact ⟨0, d, rfl, by simp, by simpa using hlt⟩
    · have hrest : i - d.width < (stages (call + 1) calls).length := by omega
      obtain ⟨c, d', hget, hlo, hhi⟩ := ih hrest
      refine ⟨c + 1, d', hget, ?_, ?_⟩ <;> rw [firstStage_cons_succ] <;> omega

/-- **A call is over** before the next ones. -/
theorem firstStage_add_le {c' : ℕ} (hlt : c < c') (h : calls[c]? = some d)
    (hc' : c' ≤ calls.length) : firstStage calls c + d.width ≤ firstStage calls c' := by
  induction calls generalizing c c' with
  | nil => cases h
  | cons d' calls ih =>
    rcases c' with - | c'
    · cases hlt
    rcases c with - | c
    · obtain rfl := Option.some.inj h
      simp
    · have hle := ih (Nat.lt_of_succ_lt_succ hlt) h (Nat.le_of_succ_le_succ hc')
      simp only [firstStage_cons_succ]
      omega

/-! ### The calls are a row -/

section Parts

variable (hn : 2 ≤ n) (hsize : n < 2 ^ 64) (hfit : StepsFit calls) (heap : ℕ → Heap Region α)

/-- The stage of a Bruck allgather in the row. -/
theorem getElem?_bruck {l : ℕ} (h : calls[c]? = some (.bruckAllgather l)) (hi : i < 1) :
    (stages 0 calls)[firstStage calls c + i]? = some (.bruck c l) := by
  obtain rfl := Nat.lt_one_iff.mp hi
  rw [getElem?_stages h hi, Nat.zero_add]
  rfl

/-- And the phases of a pipelined ring. -/
theorem getElem?_phase {op : Op α} {sh : PipelineShape} {ok : sh.Ok n}
    (h : calls[c]? = some (.pipelinedRing op sh ok)) (hi : i < 2) :
    (stages 0 calls)[firstStage calls c + i]? = some (.phase op c sh ok ⟨i, hi⟩) := by
  rw [getElem?_stages h hi, Nat.zero_add]
  match i, hi with
  | 0, _ => rfl
  | 1, _ => rfl

/-- A Bruck allgather in the row. -/
def bruckPart {l : ℕ} (h : calls[c]? = some (.bruckAllgather l)) :
    (layout hn calls).Part Region heap where
  name := nameIn calls.length c
  call := bruckProgram n l
  layout := bruckLayout α n l
  outline := bruckOutline hsize _
  first := firstStage calls c
  injective := nameIn_injective (List.getElem?_eq_some_iff.mp h).1
  width_pos _ _ := Nat.one_pos
  width i hi := Layout.width_ofList (getElem?_bruck h hi)
  len i hi := Layout.len_ofList (getElem?_bruck h hi)
  instr i hi p m k := by
    rw [layout, Layout.instr_ofList (getElem?_bruck h hi)]
    exact bruckInstr_renamed (List.getElem?_eq_some_iff.mp h).1 l p k

/-- A pipelined ring in the row. -/
def pipelinedPart {op : Op α} {sh : PipelineShape} {ok : sh.Ok n}
    (h : calls[c]? = some (.pipelinedRing op sh ok)) :
    (layout hn calls).Part Region heap where
  name := nameIn calls.length c
  call := pipelinedProgram op n sh
  layout := pipelinedLayout op hn ok
  outline := pipelinedOutline op hn
    (hfit.resolve_right fun hbruck => hbruck _ (List.mem_of_getElem? h)) ok _
  first := firstStage calls c
  injective := nameIn_injective (List.getElem?_eq_some_iff.mp h).1
  width_pos _ _ := ok.microChunks_pos
  width i hi := Layout.width_ofList (getElem?_phase h hi)
  len i hi := Layout.len_ofList (getElem?_phase h hi)
  instr i hi p m k := by
    rw [layout, Layout.instr_ofList (getElem?_phase h hi)]
    exact microInstr_renamed op (List.getElem?_eq_some_iff.mp h).1 sh i p m k

/-- A call in the row. -/
def partOf : (d : BackCall n α) → calls[c]? = some d → (layout hn calls).Part Region heap
  | .bruckAllgather _, h => bruckPart hn hsize heap h
  | .pipelinedRing .., h => pipelinedPart hn hfit heap h

/-- **The calls**, as parts of the row. -/
def part (c : Fin calls.length) : (layout hn calls).Part Region heap :=
  partOf hn hsize hfit heap calls[c] (List.getElem?_eq_getElem c.isLt)

theorem partOf_eq (d : BackCall n α) (h : calls[c]? = some d) :
    (partOf hn hsize hfit heap d h).name = nameIn calls.length c ∧
      (partOf hn hsize hfit heap d h).first = firstStage calls c ∧
        (partOf hn hsize hfit heap d h).layout.stages = d.width := by
  match d with
  | .bruckAllgather l => exact ⟨rfl, rfl, rfl⟩
  | .pipelinedRing op sh ok => exact ⟨rfl, rfl, rfl⟩

variable (c : Fin calls.length)

theorem part_name : (part hn hsize hfit heap c).name = nameIn calls.length c :=
  (partOf_eq ..).1

theorem part_first : (part hn hsize hfit heap c).first = firstStage calls c :=
  (partOf_eq ..).2.1

theorem part_stages : (part hn hsize hfit heap c).layout.stages = calls[c].width :=
  (partOf_eq ..).2.2

theorem part_runs : (part hn hsize hfit heap c).Runs i ↔
    firstStage calls c ≤ i ∧ i < firstStage calls c + calls[c].width := by
  rw [Layout.Part.Runs, part_first, part_stages]

/-- The calls are a row: each stage is in the part of one call, and that has what it needs of
the others. -/
theorem inARow : Layout.InARow (part hn hsize hfit heap) where
  cover i hi := by
    have hi : i < (stages 0 calls).length := hi
    obtain ⟨c, d, hget, hruns⟩ := exists_call hi
    obtain ⟨hc, rfl⟩ := List.getElem?_eq_some_iff.mp hget
    exact ⟨⟨c, hc⟩, (part_runs ..).mpr hruns⟩
  runs_inj {c c' i} hc hc' := by
    rw [part_runs] at hc hc'
    rcases Nat.lt_trichotomy c c' with hlt | heq | hgt
    · have := firstStage_add_le hlt (List.getElem?_eq_getElem c.isLt) c'.isLt.le
      simp only [Fin.getElem_fin] at hc
      omega
    · exact Fin.ext heq
    · have := firstStage_add_le hgt (List.getElem?_eq_getElem c'.isLt) c.isLt.le
      simp only [Fin.getElem_fin] at hc'
      omega
  name_inj {c c' b b'} h := by
    rw [part_name, part_name] at h
    exact Fin.ext (nameIn_inj c.isLt c'.isLt h).1

end Parts

/-! ### What a call is for -/

/-- **The result of a call** is in its buffer: the contribution of each rank at its place, or
every cell reduced around the ring, in the order of its chunk. -/
def BackCall.Delivered (heap : ℕ → Heap Region α) (c : ℕ) (h : Heap Region α) :
    BackCall n α → Prop
  | .bruckAllgather l => ∀ r < n,
    h.read ⟨(c, .buf), r * l, l⟩ = (heap r).read ⟨(c, .send), 0, l⟩
  | .pipelinedRing op sh _ => ∀ ch < n, ∀ j < sh.len / n,
    h (c, .buf) (ch * (sh.len / n) + j) =
      ringValue op n (fun r => heap r (c, .buf) (ch * (sh.len / n) + j)) ch (n - 1)

/-- The rank has returned from call `c`: it is past the stages of the calls up to this one. -/
def Returned (calls : List (BackCall n α)) (s : AmNet.State Region α) (c p : ℕ) : Prop :=
  (program p 0 (calls.take (c + 1))).length ≤ (s.rank p).stage

/-- What a Bruck allgather leaves, rank by rank. -/
theorem read_of_bruckDone {heap : ℕ → Heap Region α} {l r : ℕ} {h : Heap Region α}
    (hdone : BruckDone heap n l h) (hr : r < n) :
    h.read ⟨(0, .buf), r * l, l⟩ = (heap r).read ⟨(0, .send), 0, l⟩ := by
  refine List.map_congr_left fun x hx => ?_
  have hx : x < l := List.mem_range.mp hx
  have hlt : r * l + x < n * l := by
    have := Nat.mul_le_mul_right l hr
    rw [Nat.succ_mul] at this
    omega
  rw [hdone _ hlt, Nat.mul_comm r l, Nat.mul_add_div (by omega), Nat.div_eq_of_lt hx,
    Nat.add_zero, Nat.mul_add_mod, Nat.mod_eq_of_lt hx, Nat.zero_add]

/-- What a pipelined ring leaves, chunk by chunk. -/
theorem cell_of_rowsAt {op : Op α} {sh : PipelineShape} (ok : sh.Ok n) {heap : ℕ → Heap Region α}
    {p ch j : ℕ} {h : Heap Region α} (hp : p < n)
    (hrows : ∀ m < sh.microChunks, RowsAt op heap n sh p m (2 * (n - 1)) h) (hch : ch < n)
    (hj : j < sh.chunk n) : h (0, .buf) (ch * sh.chunk n + j) =
      ringValue op n (fun r => heap r (0, .buf) (ch * sh.chunk n + j)) ch (n - 1) := by
  have hlt : j < sh.microChunks * sh.micro n := ok.chunk_eq ▸ hj
  have hmicro : 0 < sh.micro n := Nat.pos_of_lt_mul_left hlt
  have hm : j / sh.micro n < sh.microChunks := Nat.div_lt_of_lt_mul (by rwa [Nat.mul_comm])
  have hcell := hrows _ hm ch hch (j % sh.micro n) (Nat.mod_lt _ hmicro)
  rwa [rowCell, Nat.add_assoc, Nat.div_add_mod', ringCell, Nat.two_mul, ringAt_last hp] at hcell

section Delivered

variable {hn : 2 ≤ n} {hsize : n < 2 ^ 64} {hfit : StepsFit calls} {heap : ℕ → Heap Region α}
  {p : ℕ} {h : Heap Region α}

/-- **Where the outline of a call ends**, its result is in its buffer. -/
theorem partOf_delivered (hp : p < n) (hget : calls[c]? = some d)
    (hpre : (partOf hn hsize hfit heap d hget).outline.pre
      (partOf hn hsize hfit heap d hget).layout.stages p
        (h.comap (partOf hn hsize hfit heap d hget).name)) : d.Delivered heap c h := by
  match d with
  | .bruckAllgather l =>
    have hdone : BruckDone (fun r => (heap r).comap (nameIn calls.length c)) n l
      (h.comap (nameIn calls.length c)) := hpre
    exact fun r hr => read_of_bruckDone hdone hr
  | .pipelinedRing op sh ok =>
    have hrows : ∀ m < sh.microChunks,
      RowsAt op (fun r => (heap r).comap (nameIn calls.length c)) n sh p m (2 * (n - 1))
        (h.comap (nameIn calls.length c)) := hpre
    exact fun ch hch j hj => cell_of_rowsAt ok hp hrows hch hj

/-! ### Runs -/

variable (hn hsize hfit) {eager : ℕ → Name → ℕ → Bool} {s : AmNet.State Region α}

include hn hsize hfit

/-- **The invariant and the outline of every run.** -/
theorem back_to_back_outlined
    (h : Reaches (step ⟨n, fun p => program p 0 calls, eager⟩) (start heap) s) :
    Inv (layout hn calls) s ∧ (inARow hn hsize hfit heap).outline.Outlined s := by
  have hM := layout_matched hn hsize hfit
  exact Layout.Outline.outlined_of_steps _ hM (h.guarded (fun _ hs => inv_of_steps hM hs)
    fun _ e _ hs _ => inTime hs hsize hfit e)

omit hsize hfit in
/-- The stages of the first calls. -/
theorem length_program (hp : p < n) (c : ℕ) :
    (program p 0 (calls.take c)).length = firstStage calls c := by
  rw [program_eq hn hp, List.length_map]
  generalize 0 = call
  induction calls generalizing c call with
  | nil => simp [stages, firstStage]
  | cons d calls ih =>
    rcases c with - | c
    · rfl
    · rw [List.take_succ_cons, stages_cons, List.length_append, ih, firstStage_cons_succ,
        length_stages_singleton]

/-- **A rank that has returned from a call** has its result, whatever it does now. -/
theorem delivered_of_returned
    (h : Reaches (step ⟨n, fun p => program p 0 calls, eager⟩) (start heap) s) (hp : p < n)
    (hget : calls[c]? = some d) (hret : Returned calls s c p) :
    d.Delivered heap c (s.rank p).node.heap := by
  obtain ⟨hinv, hout⟩ := back_to_back_outlined hn hsize hfit h
  obtain ⟨hc, rfl⟩ := List.getElem?_eq_some_iff.mp hget
  refine partOf_delivered hp hget ((inARow hn hsize hfit heap).pre_of_returned hinv hout
    (c := ⟨c, hc⟩) hp ?_)
  rw [Returned, length_program hn hp] at hret
  rw [part_first, part_stages]
  exact (firstStage_add_le (Nat.lt_succ_self c) hget hc).trans hret

omit hsize hfit in
/-- At the end of its program a rank has returned from all calls. -/
theorem returned_of_final (hfinal : Final ⟨n, fun p => program p 0 calls, eager⟩ s) (hp : p < n)
    (hget : calls[c]? = some d) : Returned calls s c p := by
  obtain ⟨hc, rfl⟩ := List.getElem?_eq_some_iff.mp hget
  have hend : (s.rank p).stage = (program p 0 calls).length := hfinal p hp
  have hlen : (program p 0 calls).length = firstStage calls calls.length := by
    rw [← length_program hn hp, List.take_length]
  rw [Returned, hend, hlen, length_program hn hp]
  obtain hlt | heq : c + 1 < calls.length ∨ c + 1 = calls.length := by omega
  · exact (Nat.le_add_right ..).trans
      (firstStage_add_le hlt (List.getElem?_eq_getElem hlt) (Nat.le_refl _))
  · rw [heq]

end Delivered

/-! ### What back-to-back calls deliver -/

section Main

variable {eager : ℕ → Name → ℕ → Bool} {heap : ℕ → Heap Region α} {s : AmNet.State Region α}

/-- **Back-to-back calls deliver.** In every run of a sequence of Bruck allgathers and pipelined
rings whose steps fit into the headers, a rank that has returned from a call has its result in
the buffer of the call, in spite of all that the ranks do in the other calls. For an associative
and commutative operator that of a ring is the reduction over all ranks. -/
theorem back_to_back_delivers (hn : 2 ≤ n) (hsize : n < 2 ^ 64) (hfit : StepsFit calls)
    (h : Reaches (step ⟨n, fun p => program p 0 calls, eager⟩) (start heap) s) :
    ∀ p < n, ∀ c d, calls[c]? = some d → Returned calls s c p →
      d.Delivered heap c (s.rank p).node.heap ∧
        ∀ op sh ok, d = .pipelinedRing op sh ok →
          (∀ a b c, op.apply (op.apply a b) c = op.apply a (op.apply b c)) →
            (∀ a b, op.apply a b = op.apply b a) → ∀ k < sh.len,
              some ((s.rank p).node.heap (c, .buf) k) =
                op.reduceAll ((List.range n).map fun r => heap r (c, .buf) k) := by
  intro p hp c d hget hret
  have hdelivered := delivered_of_returned hn hsize hfit h hp hget hret
  refine ⟨hdelivered, ?_⟩
  rintro op sh ok rfl hassoc hcomm k hk
  obtain ⟨ch, hch, j, hj, rfl⟩ := exists_chunk (by omega) ok.len_dvd hk
  rw [hdelivered ch hch j hj, some_ringValue hassoc hcomm _ hch]

/-- Three ranks: some run comes to a state where all have the sums. -/
theorem back_to_back_delivers_three : ∃ s,
    Reaches (step ⟨3, fun p => program p 0 threeRanks, fun _ _ _ => true⟩)
      (start fun p _ i => p + i) s ∧
        ∀ p < 3, ∀ k < 3,
          some ((s.rank p).node.heap (1, .buf) k) = some (k + (1 + k) + (2 + k)) := by
  have hfit : StepsFit threeRanks := .inl (by decide)
  have hterm : Terminates (step ⟨3, fun p => program p 0 threeRanks, fun _ _ _ => true⟩)
      (Final ⟨3, fun p => program p 0 threeRanks, fun _ _ _ => true⟩) (start fun p _ i => p + i) :=
    back_to_back_terminates (by decide) (by decide) hfit _
  obtain ⟨s, hs, hfinal⟩ := hterm.exists_good
  refine ⟨s, hs, fun p hp k hk => ?_⟩
  have hret := returned_of_final (by decide) hfinal hp (show threeRanks[1]? = some _ from rfl)
  have hsum := (back_to_back_delivers (by decide) (by decide) hfit hs p hp 1 _ rfl hret).2 _ _ _ rfl
    Nat.add_assoc Nat.add_comm k hk
  rw [hsum]
  exact congrArg (fun a => some (a + (1 + k) + (2 + k))) (Nat.zero_add k)

/-- The call is accepted and has something to contribute: an allgather of nothing panics, and the
receive buffer of one exists. -/
def BackCall.Contributes : BackCall n α → Prop
  | .bruckAllgather l => 1 ≤ l ∧ l * n < 2 ^ usizeBits
  | .pipelinedRing .. => True

/-- **The call does not panic** at rank `p`: written with the operations that may, it is the call of
the program. -/
def BackCall.Runs {β : Type} (debug : Bool) (p call : ℕ) : BackCall n β → Prop
  | .bruckAllgather l => bruckAllgatherChecked (.connected n p) call debug l (l * n) =
      .ok (Pluvio.bruckAllgather (.connected n p) call l (l * n) : Call (Stage Region β))
  | .pipelinedRing op sh _ =>
    pipelinedRingChecked op (.connected n p) call sh.len sh.microChunks sh.maxInFlight =
      .ok (Pluvio.pipelinedRing op (.connected n p) call sh.len sh.microChunks sh.maxInFlight)

/-- A call with something to contribute does not panic. -/
theorem BackCall.Contributes.runs {β : Type} {d : BackCall n β} (h : d.Contributes) (debug : Bool)
    {p : ℕ} (hp : p < n) (call : ℕ) : d.Runs debug p call := by
  have hrank : (UcxCommunicator.connected n p).rank < (UcxCommunicator.connected n p).size := hp
  match d with
  | .bruckAllgather l => exact bruckAllgatherChecked_eq hrank (l * n) h.2 (.inr (.inr h.1))
  | .pipelinedRing op sh ok => exact pipelinedRingChecked_eq hrank ..

/-- **And they end.** None of the calls panics, and every run comes to its end, with all results
in place, no message on its way, and no router that has anything left. -/
theorem back_to_back_ends {β : Type} {calls : List (BackCall n β)} {heap : ℕ → Heap Region β}
    (hn : 2 ≤ n) (hsize : n < 2 ^ 64) (hfit : StepsFit calls) (hsome : ∀ d ∈ calls, d.Contributes) :
    (∀ debug, ∀ p < n, ∀ (c : ℕ) (d : BackCall n β), calls[c]? = some d → d.Runs debug p c) ∧
    Terminates (step ⟨n, fun p => program p 0 calls, eager⟩)
      (fun s => Final ⟨n, fun p => program p 0 calls, eager⟩ s ∧ Settled s ∧
        ∀ p < n, ∀ (c : ℕ) (d : BackCall n β), calls[c]? = some d →
          d.Delivered heap c (s.rank p).node.heap)
      (start heap) := by
  have hterm : Terminates (step ⟨n, fun p => program p 0 calls, eager⟩)
      (Final ⟨n, fun p => program p 0 calls, eager⟩) (start heap) :=
    back_to_back_terminates hn hsize hfit heap
  refine ⟨fun debug p hp c d hget => ?_, hterm.bounded, fun s hs hstuck => ?_⟩
  · exact (hsome d (List.mem_of_getElem? hget)).runs debug hp c
  have hfinal := hterm.good s hs hstuck
  have hinv := (back_to_back_outlined hn hsize hfit hs).1
  refine ⟨hfinal, hinv.settled (layout_matched hn hsize hfit) hfinal, fun p hp c d hget => ?_⟩
  exact delivered_of_returned hn hsize hfit hs hp hget (returned_of_final hn hfinal hp hget)

/-- Three ranks: some run ends, with nothing left and all contributions in place. -/
theorem back_to_back_ends_three : ∃ s,
    Reaches (step ⟨3, fun p => program p 0 threeRanks, fun _ _ _ => false⟩)
      (start fun p _ i => p + i) s ∧ Settled s ∧
        ∀ p < 3, ∀ r < 3, (s.rank p).node.heap (0, .buf) r = r := by
  have hfit : StepsFit threeRanks := .inl (by decide)
  have hsome : ∀ d ∈ threeRanks, d.Contributes := by
    rintro d (_ | ⟨_, _ | ⟨_, ⟨⟩⟩⟩)
    · exact ⟨Nat.le_refl 1, by decide⟩
    · trivial
  obtain ⟨s, hs, -, hsettled, hdelivered⟩ :=
    (back_to_back_ends (by decide) (by decide) hfit hsome).2.exists_good
  refine ⟨s, hs, hsettled, fun p hp r hr => ?_⟩
  have hread := hdelivered p hp 0 _ rfl r hr
  simpa [Heap.read] using hread

end Main

end BackToBack

end Pluvio
