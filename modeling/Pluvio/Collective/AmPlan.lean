import Mathlib.Data.Finset.Card
import Mathlib.Data.Finset.Range
import Pluvio.Collective.AmNet

/-!
# Matched programs

The programs of the ranks laid out as a table (`Pluvio.AmNet.Layout`): the await
point at each stage, rank, chain and position. They are matched
(`Pluvio.AmNet.Layout.Matched`) when, in every stage, each receive is for the
message of one send and each send is for one receive. Keys carry no stage, so two
stages may use the same key; what is asked is that they use it between the same
two ranks.

Nothing here says how far the ranks are. That is the business of
`Pluvio.AmNet.Rank.Started`, the await points a rank has come to, and of
`Pluvio.AmNet.Rank.Passed`, those it has left; the effect of each step is stated in
terms of these.
-/

namespace Pluvio

namespace AmNet

variable {R α : Type*}

/-- The programs of `n` ranks, laid out by stage, rank, chain and position. -/
structure Layout (n : ℕ) (prog : ℕ → List (Stage R α)) where
  stages : ℕ
  /-- The number of chains of a stage. -/
  width : ℕ → ℕ
  window : ℕ → ℕ
  /-- The length of a chain. -/
  len : ℕ → ℕ → ℕ → ℕ
  instr : ℕ → ℕ → ℕ → ℕ → Instr R α
  prog_eq : ∀ p < n, prog p = (List.range stages).map fun i =>
    ⟨window i, (List.range (width i)).map fun m => (List.range (len i p m)).map (instr i p m)⟩
  window_pos : ∀ i < stages, 0 < window i
  len_pos : ∀ i < stages, ∀ p < n, ∀ m < width i, 0 < len i p m

namespace Layout

variable {n : ℕ} {prog : ℕ → List (Stage R α)} (P : Layout n prog)

/-- The program of a rank has all the stages. -/
theorem length_prog {p : ℕ} (hp : p < n) : (prog p).length = P.stages := by
  rw [P.prog_eq p hp, List.length_map, List.length_range]

/-- There is an await point here. -/
structure At (i p m k : ℕ) : Prop where
  stage : i < P.stages
  rank : p < n
  chain : m < P.width i
  pos : k < P.len i p m

/-- Send `j` of an await point. -/
def IsSend (i p m k j : ℕ) (sd : Send R) : Prop :=
  P.At i p m k ∧ (P.instr i p m k).sends[j]? = some sd

/-- The receive of an await point. -/
def IsRecv (i q m k : ℕ) (κ : RecvKey) (t : Slice R) : Prop :=
  P.At i q m k ∧ (P.instr i q m k).recv = some (κ, t)

/-- **Matched programs.** The time is a measure of how early an await point comes in
its stage. -/
structure Matched (time : ℕ → ℕ → ℕ → ℕ → ℕ) : Prop where
  time_lt : ∀ {i p m k k'}, k < k' → time i p m k < time i p m k'
  /-- No two sends of a stage are for the same rank under the same key. -/
  send_unique : ∀ {i p m k j sd p' m' k' j' sd'}, P.IsSend i p m k j sd →
    P.IsSend i p' m' k' j' sd' → sd.dst = sd'.dst → sd.key = sd'.key →
      p = p' ∧ m = m' ∧ k = k' ∧ j = j'
  /-- No two receives of a stage at a rank have the same key. -/
  recv_unique : ∀ {i q m k m' k' κ t t'}, P.IsRecv i q m k κ t → P.IsRecv i q m' k' κ t' →
    m = m' ∧ k = k'
  /-- Each receive has its send, in the same chain and not later. -/
  sender : ∀ {i q m k κ t}, P.IsRecv i q m k κ t → ∃ p k' j sd, P.IsSend i p m k' j sd ∧
    sd.dst = q ∧ sd.key = κ ∧ time i p m k' ≤ time i q m k
  /-- Each send has its receive. -/
  receiver : ∀ {i p m k j sd}, P.IsSend i p m k j sd → ∃ k' t, P.IsRecv i sd.dst m k' sd.key t
  /-- Two stages use a key towards a rank from the same rank. -/
  same_sender : ∀ {i p m k j sd i' p' m' k' j' sd'}, P.IsSend i p m k j sd →
    P.IsSend i' p' m' k' j' sd' → sd.dst = sd'.dst → sd.key = sd'.key → p = p'

end Layout

/-! ### A stage at a time -/

/-- A stage of all ranks, laid out by rank, chain and position. -/
structure Plan (n : ℕ) (R α : Type*) where
  width : ℕ
  window : ℕ
  len : ℕ → ℕ → ℕ
  instr : ℕ → ℕ → ℕ → Instr R α
  window_pos : 0 < window
  len_pos : ∀ p < n, ∀ m < width, 0 < len p m

namespace Plan

variable {n : ℕ}

/-- The stage of a rank. -/
def stage (pl : Plan n R α) (p : ℕ) : Stage R α :=
  ⟨pl.window, (List.range pl.width).map fun m => (List.range (pl.len p m)).map (pl.instr p m)⟩

/-- There is an await point here. -/
structure At (pl : Plan n R α) (p m k : ℕ) : Prop where
  rank : p < n
  chain : m < pl.width
  pos : k < pl.len p m

/-- Send `j` of an await point. -/
def IsSend (pl : Plan n R α) (p m k j : ℕ) (sd : Send R) : Prop :=
  pl.At p m k ∧ (pl.instr p m k).sends[j]? = some sd

/-- The receive of an await point. -/
def IsRecv (pl : Plan n R α) (q m k : ℕ) (κ : RecvKey) (t : Slice R) : Prop :=
  pl.At q m k ∧ (pl.instr q m k).recv = some (κ, t)

/-- Sends and receives of the stage match. -/
structure Matched (pl : Plan n R α) (time : ℕ → ℕ → ℕ → ℕ) : Prop where
  time_lt : ∀ {p m k k'}, k < k' → time p m k < time p m k'
  send_unique : ∀ {p m k j sd p' m' k' j' sd'}, pl.IsSend p m k j sd →
    pl.IsSend p' m' k' j' sd' → sd.dst = sd'.dst → sd.key = sd'.key →
      p = p' ∧ m = m' ∧ k = k' ∧ j = j'
  recv_unique : ∀ {q m k m' k' κ t t'}, pl.IsRecv q m k κ t → pl.IsRecv q m' k' κ t' →
    m = m' ∧ k = k'
  sender : ∀ {q m k κ t}, pl.IsRecv q m k κ t → ∃ p k' j sd, pl.IsSend p m k' j sd ∧
    sd.dst = q ∧ sd.key = κ ∧ time p m k' ≤ time q m k
  receiver : ∀ {p m k j sd}, pl.IsSend p m k j sd → ∃ k' t, pl.IsRecv sd.dst m k' sd.key t

/-- The two stages use a key towards a rank from the same rank. -/
def SameSender (pl pl' : Plan n R α) : Prop :=
  ∀ {p m k j sd p' m' k' j' sd'}, pl.IsSend p m k j sd → pl'.IsSend p' m' k' j' sd' →
    sd.dst = sd'.dst → sd.key = sd'.key → p = p'

end Plan

/-- **The layout of programs given stage by stage.** -/
def Layout.ofPlans {n : ℕ} (stages : ℕ) (plan : ℕ → Plan n R α) (prog : ℕ → List (Stage R α))
    (hprog : ∀ p < n, prog p = (List.range stages).map fun i => (plan i).stage p) :
    Layout n prog where
  stages := stages
  width i := (plan i).width
  window i := (plan i).window
  len i := (plan i).len
  instr i := (plan i).instr
  prog_eq := hprog
  window_pos i _ := (plan i).window_pos
  len_pos i _ := (plan i).len_pos

section OfPlans

variable {n stages : ℕ} {plan : ℕ → Plan n R α} {prog : ℕ → List (Stage R α)}
  {hprog : ∀ p < n, prog p = (List.range stages).map fun i => (plan i).stage p}

theorem Layout.at_ofPlans {i p m k : ℕ} :
    (Layout.ofPlans stages plan prog hprog).At i p m k ↔ i < stages ∧ (plan i).At p m k :=
  ⟨fun h => ⟨h.stage, h.rank, h.chain, h.pos⟩, fun h => ⟨h.1, h.2.rank, h.2.chain, h.2.pos⟩⟩

theorem Layout.isSend_ofPlans {i p m k j : ℕ} {sd : Send R} :
    (Layout.ofPlans stages plan prog hprog).IsSend i p m k j sd ↔
      i < stages ∧ (plan i).IsSend p m k j sd := by
  rw [Layout.IsSend, Layout.at_ofPlans, and_assoc]
  rfl

theorem Layout.isRecv_ofPlans {i q m k : ℕ} {κ : RecvKey} {t : Slice R} :
    (Layout.ofPlans stages plan prog hprog).IsRecv i q m k κ t ↔
      i < stages ∧ (plan i).IsRecv q m k κ t := by
  rw [Layout.IsRecv, Layout.at_ofPlans, and_assoc]
  rfl

/-- **Programs are matched stage by stage**, if the stages agree on who uses a key. -/
theorem Layout.matched_ofPlans {time : ℕ → ℕ → ℕ → ℕ → ℕ}
    (h : ∀ i, (plan i).Matched (time i)) (hsame : ∀ i i', (plan i).SameSender (plan i')) :
    (Layout.ofPlans stages plan prog hprog).Matched time := by
  constructor
  · intro i p m k k' hlt
    exact (h i).time_lt hlt
  · intro i p m k j sd p' m' k' j' sd' hs hs'
    exact (h i).send_unique (Layout.isSend_ofPlans.mp hs).2 (Layout.isSend_ofPlans.mp hs').2
  · intro i q m k m' k' κ t t' hr hr'
    exact (h i).recv_unique (Layout.isRecv_ofPlans.mp hr).2 (Layout.isRecv_ofPlans.mp hr').2
  · intro i q m k κ t hr
    obtain ⟨hi, hr⟩ := Layout.isRecv_ofPlans.mp hr
    obtain ⟨p, k', j, sd, hs, hrest⟩ := (h i).sender hr
    exact ⟨p, k', j, sd, Layout.isSend_ofPlans.mpr ⟨hi, hs⟩, hrest⟩
  · intro i p m k j sd hs
    obtain ⟨hi, hs⟩ := Layout.isSend_ofPlans.mp hs
    obtain ⟨k', t, hr⟩ := (h i).receiver hs
    exact ⟨k', t, Layout.isRecv_ofPlans.mpr ⟨hi, hr⟩⟩
  · intro i p m k j sd i' p' m' k' j' sd' hs hs'
    exact hsame i i' (Layout.isSend_ofPlans.mp hs).2 (Layout.isSend_ofPlans.mp hs').2

end OfPlans

/-! ### A list of stages -/

/-- A stage in which nothing is done. -/
def Plan.idle (n : ℕ) (R α : Type*) : Plan n R α where
  width := 0
  window := 1
  len _ _ := 1
  instr _ _ _ := ⟨[], none, id⟩
  window_pos := Nat.one_pos
  len_pos _ _ _ _ := Nat.one_pos

/-- **The layout of programs given by a list of stages**, each of them with its plan. -/
def Layout.ofList {n : ℕ} {σ : Type*} (sts : List σ) (plan : σ → Plan n R α)
    (prog : ℕ → List (Stage R α))
    (hprog : ∀ p < n, prog p = sts.map fun st => (plan st).stage p) : Layout n prog :=
  .ofPlans sts.length (fun i => (sts[i]?.map plan).getD (.idle n R α)) prog fun p hp => by
    rw [hprog p hp]
    refine List.ext_getElem? fun i => ?_
    rw [List.getElem?_map, List.getElem?_map]
    rcases Nat.lt_or_ge i sts.length with hi | hi
    · rw [List.getElem?_range hi, Option.map_some, List.getElem?_eq_getElem hi]
      rfl
    · rw [List.getElem?_eq_none hi, List.getElem?_eq_none (by rwa [List.length_range])]
      rfl

section OfList

variable {n : ℕ} {σ : Type*} {sts : List σ} {plan : σ → Plan n R α} {prog : ℕ → List (Stage R α)}
  {hprog : ∀ p < n, prog p = sts.map fun st => (plan st).stage p} {i : ℕ} {st : σ}

/-- What is true of a stage that is there is true of the plan of one in the list. -/
theorem getD_idle {P : Plan n R α → Prop} :
    i < sts.length ∧ P ((sts[i]?.map plan).getD (.idle n R α)) ↔
      ∃ st, sts[i]? = some st ∧ P (plan st) := by
  constructor
  · rintro ⟨hi, h⟩
    rw [List.getElem?_eq_getElem hi] at h
    exact ⟨_, List.getElem?_eq_getElem hi, h⟩
  · rintro ⟨st, hst, h⟩
    refine ⟨(List.getElem?_eq_some_iff.mp hst).1, ?_⟩
    rwa [hst]

theorem Layout.exists_ofList (hi : i < (Layout.ofList sts plan prog hprog).stages) :
    ∃ st, sts[i]? = some st := ⟨_, List.getElem?_eq_getElem hi⟩

theorem Layout.at_ofList {p m k : ℕ} : (Layout.ofList sts plan prog hprog).At i p m k ↔
    ∃ st, sts[i]? = some st ∧ (plan st).At p m k :=
  Layout.at_ofPlans.trans (getD_idle (P := fun pl => pl.At p m k))

theorem Layout.isSend_ofList {p m k j : ℕ} {sd : Send R} :
    (Layout.ofList sts plan prog hprog).IsSend i p m k j sd ↔
      ∃ st, sts[i]? = some st ∧ (plan st).IsSend p m k j sd :=
  Layout.isSend_ofPlans.trans (getD_idle (P := fun pl => pl.IsSend p m k j sd))

theorem Layout.isRecv_ofList {q m k : ℕ} {κ : RecvKey} {t : Slice R} :
    (Layout.ofList sts plan prog hprog).IsRecv i q m k κ t ↔
      ∃ st, sts[i]? = some st ∧ (plan st).IsRecv q m k κ t :=
  Layout.isRecv_ofPlans.trans (getD_idle (P := fun pl => pl.IsRecv q m k κ t))

theorem Layout.width_ofList (h : sts[i]? = some st) :
    (Layout.ofList sts plan prog hprog).width i = (plan st).width := by
  show ((sts[i]?.map plan).getD (.idle n R α)).width = _
  rw [h]
  rfl

theorem Layout.len_ofList (h : sts[i]? = some st) :
    (Layout.ofList sts plan prog hprog).len i = (plan st).len := by
  show ((sts[i]?.map plan).getD (.idle n R α)).len = _
  rw [h]
  rfl

theorem Layout.instr_ofList (h : sts[i]? = some st) :
    (Layout.ofList sts plan prog hprog).instr i = (plan st).instr := by
  show ((sts[i]?.map plan).getD (.idle n R α)).instr = _
  rw [h]
  rfl

/-- **A list of stages is matched**, if each of them is and they agree on who uses a
key. -/
theorem Layout.matched_ofList {time : ℕ → ℕ → ℕ → ℕ → ℕ}
    (htime : ∀ i p m k k', k < k' → time i p m k < time i p m k')
    (h : ∀ i st, sts[i]? = some st → (plan st).Matched (time i))
    (hsame : ∀ st ∈ sts, ∀ st' ∈ sts, (plan st).SameSender (plan st')) :
    (Layout.ofList sts plan prog hprog).Matched time := by
  have hnot : ∀ {p m k}, ¬(Plan.idle n R α).At p m k := fun hat => Nat.not_lt_zero _ hat.chain
  refine Layout.matched_ofPlans (fun i => ?_) fun i i' => ?_
  · rcases hi : sts[i]? with - | st
    · -- an idle stage
      exact ⟨htime i _ _ _ _, fun hs => absurd hs.1 hnot, fun hr => absurd hr.1 hnot,
        fun hr => absurd hr.1 hnot, fun hs => absurd hs.1 hnot⟩
    · exact h i st hi
  · intro p m k j sd p' m' k' j' sd' hs hs'
    rcases hi : sts[i]? with - | st
    · exact absurd (hi ▸ hs).1 hnot
    rcases hi' : sts[i']? with - | st'
    · exact absurd (hi' ▸ hs').1 hnot
    rw [hi] at hs
    rw [hi'] at hs'
    exact hsame st (List.mem_of_getElem? hi) st' (List.mem_of_getElem? hi') hs hs'

end OfList

/-! ### How far a rank is -/

/-- The rank has come to an await point and has polled it. -/
def Rank.Started (r : Rank R α) (i m k : ℕ) : Prop :=
  i < r.stage ∨ i = r.stage ∧
    (k < (r.chain m).pc ∨ k = (r.chain m).pc ∧ (r.chain m).await.isSome = true)

/-- The rank has left an await point. -/
def Rank.Passed (r : Rank R α) (i m k : ℕ) : Prop :=
  i < r.stage ∨ i = r.stage ∧ k < (r.chain m).pc

theorem Rank.Passed.started {r : Rank R α} {i m k : ℕ} (h : r.Passed i m k) : r.Started i m k :=
  h.imp id fun ⟨hi, hk⟩ => ⟨hi, .inl hk⟩

/-- What is started and not left is where the rank is. -/
theorem Rank.Started.passed_or {r : Rank R α} {i m k : ℕ} (h : r.Started i m k) :
    r.Passed i m k ∨ i = r.stage ∧ k = (r.chain m).pc ∧ (r.chain m).await.isSome = true := by
  rcases h with h | ⟨hi, hk | ⟨hk, ha⟩⟩
  · exact .inl (.inl h)
  · exact .inl (.inr ⟨hi, hk⟩)
  · exact .inr ⟨hi, hk, ha⟩

/-- A rank has come to the positions before one it has come to. -/
theorem Rank.Started.passed_of_lt {r : Rank R α} {i m k k' : ℕ} (h : r.Started i m k)
    (hk : k' < k) : r.Passed i m k' := by
  rcases h with h | ⟨hi, hk' | ⟨hk', -⟩⟩
  · exact .inl h
  · exact .inr ⟨hi, by omega⟩
  · exact .inr ⟨hi, by omega⟩

/-- A rank has left the stages before one it has come to. -/
theorem Rank.Started.passed_of_stage_lt {r : Rank R α} {i m k i' : ℕ} (h : r.Started i m k)
    (hi : i' < i) (m' k' : ℕ) : r.Passed i' m' k' := by
  rcases h with h | ⟨rfl, -⟩
  · exact .inl (by omega)
  · exact .inl hi

/-! ### The steps, laid out -/

section Steps

variable [DecidableEq R] {n : ℕ} {prog : ℕ → List (Stage R α)} (P : Layout n prog)
  {eager : ℕ → Name → ℕ → Bool} {s s' : State R α} {p q m j : ℕ}

/-- The stage `i` of rank `p`. -/
def Layout.stage (i p : ℕ) : Stage R α :=
  ⟨P.window i, (List.range (P.width i)).map fun m => (List.range (P.len i p m)).map (P.instr i p m)⟩

/-- An element of a mapped range. -/
theorem getElem?_map_range {β : Type*} {f : ℕ → β} {n k : ℕ} {b : β} :
    ((List.range n).map f)[k]? = some b ↔ k < n ∧ b = f k := by
  rw [List.getElem?_map]
  rcases Nat.lt_or_ge k n with hk | hk
  · rw [List.getElem?_range hk]
    exact ⟨fun h => ⟨hk, (Option.some.inj h).symm⟩, fun h => congrArg some h.2.symm⟩
  · rw [List.getElem?_eq_none (by rwa [List.length_range])]
    exact ⟨fun h => (by cases h), fun h => absurd h.1 (Nat.not_lt.mpr hk)⟩

omit [DecidableEq R] in
theorem Layout.stage_eq_some {st : Stage R α} :
    (⟨n, prog, eager⟩ : Net R α).stage s p = some st ↔
      p < n ∧ (s.rank p).stage < P.stages ∧ st = P.stage (s.rank p).stage p := by
  unfold Net.stage
  by_cases hp : p < n
  · rw [if_pos hp]
    show (prog p)[(s.rank p).stage]? = some st ↔ _
    rw [P.prog_eq p hp, getElem?_map_range]
    exact ⟨fun h => ⟨hp, h⟩, fun h => h.2⟩
  · rw [if_neg hp]
    exact ⟨fun h => (by cases h), fun h => absurd h.1 hp⟩

omit [DecidableEq R] in
theorem Layout.current_eq_some {st : Stage R α} {c : List (Instr R α)} {i : Instr R α} :
    (⟨n, prog, eager⟩ : Net R α).current s p m = some (st, c, i) ↔
      P.At (s.rank p).stage p m ((s.rank p).chain m).pc ∧ st = P.stage (s.rank p).stage p ∧
        c = (List.range (P.len (s.rank p).stage p m)).map (P.instr (s.rank p).stage p m) ∧
          i = P.instr (s.rank p).stage p m ((s.rank p).chain m).pc := by
  unfold Net.current
  constructor
  · intro h
    obtain ⟨st', hst, h⟩ := Option.bind_eq_some_iff.mp h
    obtain ⟨hp, hi, rfl⟩ := P.stage_eq_some.mp hst
    obtain ⟨c', hc, h⟩ := Option.bind_eq_some_iff.mp h
    obtain ⟨hm, rfl⟩ := getElem?_map_range.mp hc
    obtain ⟨i', hi', h⟩ := Option.map_eq_some_iff.mp h
    obtain ⟨hk, rfl⟩ := getElem?_map_range.mp hi'
    cases h
    exact ⟨⟨hi, hp, hm, hk⟩, rfl, rfl, rfl⟩
  · rintro ⟨⟨hi, hp, hm, hk⟩, rfl, rfl, rfl⟩
    exact Option.bind_eq_some_iff.mpr ⟨_, P.stage_eq_some.mpr ⟨hp, hi, rfl⟩,
      Option.bind_eq_some_iff.mpr ⟨_, getElem?_map_range.mpr ⟨hm, rfl⟩,
        Option.map_eq_some_iff.mpr ⟨_, getElem?_map_range.mpr ⟨hk, rfl⟩, rfl⟩⟩⟩

omit [DecidableEq R] in
/-- The await point a chain is at. -/
theorem Layout.current_of_at (hat : P.At (s.rank p).stage p m ((s.rank p).chain m).pc) :
    (⟨n, prog, eager⟩ : Net R α).current s p m = some (P.stage (s.rank p).stage p,
      (List.range (P.len (s.rank p).stage p m)).map (P.instr (s.rank p).stage p m),
      P.instr (s.rank p).stage p m ((s.rank p).chain m).pc) :=
  P.current_eq_some.mpr ⟨hat, rfl, rfl, rfl⟩

/-- The rank waits for one of its chains to return. -/
def Layout.Pumping (r : Rank R α) : Prop :=
  r.launched = P.width r.stage ∨ r.inFlight = P.window r.stage

omit [DecidableEq R] in
theorem Layout.pumping_iff {r : Rank R α} : r.Pumping (P.stage r.stage p) ↔ P.Pumping r := by
  unfold Rank.Pumping Layout.Pumping Layout.stage
  rw [List.length_map, List.length_range]

/-- What pushing a chain does. -/
theorem Layout.step_launch : step ⟨n, prog, eager⟩ s (.launch p) = some s' ↔
    p < n ∧ (s.rank p).stage < P.stages ∧ (s.rank p).launched < P.width (s.rank p).stage ∧
      (s.rank p).inFlight < P.window (s.rank p).stage ∧
        { s with
          rank := Function.update s.rank p
            { s.rank p with launched := (s.rank p).launched + 1 } } = s' := by
  have hlen : (P.stage (s.rank p).stage p).chains.length = P.width (s.rank p).stage := by
    rw [Layout.stage, List.length_map, List.length_range]
  rw [step, Option.bind_eq_some_iff]
  constructor
  · rintro ⟨st, hst, h⟩
    obtain ⟨hp, hi, rfl⟩ := P.stage_eq_some.mp hst
    rw [Option.ite_none_right_eq_some, hlen, Option.some.injEq] at h
    exact ⟨hp, hi, h.1.1, h.1.2, h.2⟩
  · rintro ⟨hp, hi, hl, hw, rfl⟩
    refine ⟨_, P.stage_eq_some.mpr ⟨hp, hi, rfl⟩, ?_⟩
    rw [Option.ite_none_right_eq_some, hlen]
    exact ⟨⟨hl, hw⟩, rfl⟩

/-- What polling a chain does. -/
theorem Layout.step_poll : step ⟨n, prog, eager⟩ s (.poll p m) = some s' ↔
    P.At (s.rank p).stage p m ((s.rank p).chain m).pc ∧ m < (s.rank p).launched ∧
      P.Pumping (s.rank p) ∧
        (((s.rank p).chain m).await = none ∧
            s.issue p m (P.instr (s.rank p).stage p m ((s.rank p).chain m).pc) = s' ∨
          ∃ a, ((s.rank p).chain m).await = some a ∧ a.Complete (s.rank p).node m ∧
            s.proceed p m (P.instr (s.rank p).stage p m ((s.rank p).chain m).pc)
              (P.len (s.rank p).stage p m) = s') := by
  rw [step, Option.bind_eq_some_iff]
  constructor
  · rintro ⟨⟨st, c, i⟩, hcur, h⟩
    obtain ⟨hat, rfl, rfl, rfl⟩ := P.current_eq_some.mp hcur
    rw [Option.ite_none_right_eq_some, P.pumping_iff] at h
    obtain ⟨⟨hm, hpump⟩, h⟩ := h
    refine ⟨hat, hm, hpump, ?_⟩
    split at h
    · next hawait => exact .inl ⟨hawait, Option.some.inj h⟩
    · next a hawait =>
      rw [Option.ite_none_right_eq_some, List.length_map, List.length_range] at h
      exact .inr ⟨a, hawait, h.1, Option.some.inj h.2⟩
  · rintro ⟨hat, hm, hpump, h⟩
    refine ⟨_, P.current_of_at hat, ?_⟩
    show (if _ then _ else none) = _
    rw [Option.ite_none_right_eq_some, P.pumping_iff]
    refine ⟨⟨hm, hpump⟩, ?_⟩
    rcases h with ⟨hawait, rfl⟩ | ⟨a, hawait, hcomplete, rfl⟩
    · rw [hawait]
    · rw [hawait]
      show (if _ then _ else none) = _
      rw [if_pos hcomplete, List.length_map, List.length_range]

/-- What the completion of a send does. -/
theorem Layout.step_sent : step ⟨n, prog, eager⟩ s (.sent p m j) = some s' ↔
    ∃ a sd, ((s.rank p).chain m).await = some a ∧
      P.IsSend (s.rank p).stage p m ((s.rank p).chain m).pc j sd ∧ j ∈ a.sending ∧
        (eager p ((s.rank p).stage, m, ((s.rank p).chain m).pc) j = true ∨ s.OffChannel p sd) ∧
          { s with
            rank := Function.update s.rank p ((s.rank p).setChain m
              ⟨((s.rank p).chain m).pc, some { a with sending := a.sending.erase j }⟩) } = s' := by
  rw [step, Option.bind_eq_some_iff]
  constructor
  · rintro ⟨⟨st, c, i⟩, hcur, h⟩
    obtain ⟨hat, -, -, rfl⟩ := P.current_eq_some.mp hcur
    dsimp only at h
    split at h
    · next a sd hawait hsd =>
      rw [Option.ite_none_right_eq_some] at h
      exact ⟨a, sd, hawait, ⟨hat, hsd⟩, h.1.1, h.1.2, Option.some.inj h.2⟩
    · cases h
  · rintro ⟨a, sd, hawait, ⟨hat, hsd⟩, hj, hdone, rfl⟩
    refine ⟨_, P.current_of_at hat, ?_⟩
    dsimp only
    rw [hawait, hsd]
    exact if_pos ⟨hj, hdone⟩

omit P in
/-- A delivery takes the first message of a channel to the router of its receiver. -/
theorem step_deliver {net : Net R α} : step net s (.deliver p q) = some s' ↔
    ∃ msg rest, s.chan p q = msg :: rest ∧
      { rank := Function.update s.rank q
          { s.rank q with node := ((s.rank q).node.deliver msg.key msg.payload).1 }
        chan := fun p' q' => if p' = p ∧ q' = q then rest else s.chan p' q' } = s' := by
  rw [step]
  constructor
  · intro h
    split at h
    · cases h
    · next msg rest hchan => exact ⟨msg, rest, hchan, Option.some.inj h⟩
  · rintro ⟨msg, rest, hchan, rfl⟩
    rw [hchan]

/-- What leaving a stage does. -/
theorem Layout.step_advance : step ⟨n, prog, eager⟩ s (.advance p) = some s' ↔
    p < n ∧ (s.rank p).stage < P.stages ∧ (s.rank p).launched = P.width (s.rank p).stage ∧
      (s.rank p).reaped = P.width (s.rank p).stage ∧
        { s with
          rank := Function.update s.rank p
            ⟨(s.rank p).stage + 1, 0, 0, fun _ => .new, (s.rank p).node⟩ } = s' := by
  have hlen : (P.stage (s.rank p).stage p).chains.length = P.width (s.rank p).stage := by
    rw [Layout.stage, List.length_map, List.length_range]
  rw [step, Option.bind_eq_some_iff]
  constructor
  · rintro ⟨st, hst, h⟩
    obtain ⟨hp, hi, rfl⟩ := P.stage_eq_some.mp hst
    rw [Option.ite_none_right_eq_some, hlen, Option.some.injEq] at h
    exact ⟨hp, hi, h.1.1, h.1.2, h.2⟩
  · rintro ⟨hp, hi, hl, hr, rfl⟩
    refine ⟨_, P.stage_eq_some.mpr ⟨hp, hi, rfl⟩, ?_⟩
    rw [Option.ite_none_right_eq_some, hlen]
    exact ⟨⟨hl, hr⟩, rfl⟩

end Steps

end AmNet

end Pluvio
