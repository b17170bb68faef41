import Pluvio.Collective.AmArea
import Pluvio.TagArea

/-!
# Calls in flight together

The calls that are in flight on a communicator at a time. A rank has one memory and one
router for all of them, a message goes over one channel whichever call it is of, and one
dispatcher delivers it; the calls over tags share the wires. Each call is polled on its
own. The stages of the calls over active messages are numbered through, as those of calls
made one after the other are: call `c` starts at the first stage after those of the calls
before it (`Pluvio.Together.Calls.first`).

When each call has an area of its own (`Pluvio.Together.Separate`), no call makes a
difference to another (`Pluvio.Together.Independent`): what is reached together is
reached alone, call by call, and what is reached alone is reached together.
-/

namespace Pluvio

namespace Together

variable {R τ α : Type*}

/-- Where a call over active messages is. -/
structure Thread (R : Type*) where
  stage : ℕ
  launched : ℕ
  reaped : ℕ
  chain : ℕ → AmNet.Chain R

/-- Where a call over tags is. -/
structure TagThread where
  pc : ℕ
  await : Option TagNet.Await

/-- What the ranks share, and where the calls are on each of them. -/
structure State (R τ α : Type*) where
  node : ℕ → Node R AmNet.Name ℕ α ℕ
  chan : ℕ → ℕ → List (AmNet.Message α)
  wire : ℕ → ℕ → τ → List (TagNet.Message α)
  am : ℕ → ℕ → Thread R
  tag : ℕ → ℕ → TagThread

/-- What can happen: an event of one of the calls. -/
inductive Event
  /-- A call over active messages goes on. -/
  | am (call : ℕ) (e : AmNet.Event)
  /-- A call over tags goes on. -/
  | tag (call : ℕ) (e : TagNet.Event)
  /-- The dispatcher of `q` delivers the next message from `p`. -/
  | deliver (p q : ℕ)

/-- The calls that are made, and the sends that complete at once. -/
structure Calls (R τ α : Type*) where
  size : ℕ
  am : ℕ → ℕ → List (AmNet.Stage R α)
  tag : ℕ → ℕ → List (TagNet.Instr R τ α)
  eager : ℕ → AmNet.Name → ℕ → Bool
  tagEager : ℕ → ℕ → ℕ → Bool

namespace Calls

variable (calls : Calls R τ α) (c : ℕ)

/-- The stages of the calls before `c`. -/
def before (p : ℕ) : List (AmNet.Stage R α) := (List.range c).flatMap fun i => calls.am i p

/-- The first stage of a call. -/
def first (p : ℕ) : ℕ := (calls.before c p).length

/-- A call among the others: its stages come after those of the calls before it. -/
def amNet : AmNet.Net R α where
  size := calls.size
  prog := calls.before (c + 1)
  eager := calls.eager

/-- **A call on its own.** -/
def alone : AmNet.Net R α where
  size := calls.size
  prog := calls.am c
  eager p a j := calls.eager p (calls.first c p + a.1, a.2) j

/-- A call over tags, on its own or among others. -/
def tagNet : TagNet.Net R τ α where
  size := calls.size
  prog := calls.tag c
  eager := calls.tagEager c

end Calls

/-- What a call over active messages works on. -/
def State.amView (s : State R τ α) (c : ℕ) : AmNet.State R α where
  rank p := ⟨(s.am c p).stage, (s.am c p).launched, (s.am c p).reaped, (s.am c p).chain, s.node p⟩
  chan := s.chan

/-- What an event of an active-message call leaves. -/
def State.setAm (s : State R τ α) (c : ℕ) (t : AmNet.State R α) : State R τ α :=
  { s with
    node := fun p => (t.rank p).node
    chan := t.chan
    am := Function.update s.am c fun p =>
      ⟨(t.rank p).stage, (t.rank p).launched, (t.rank p).reaped, (t.rank p).chain⟩ }

/-- What a call over tags works on. -/
def State.tagView (s : State R τ α) (d : ℕ) : TagNet.State R τ α where
  rank p := ⟨(s.tag d p).pc, (s.tag d p).await, (s.node p).heap⟩
  wire := s.wire

/-- What an event of a tag-matched call leaves. -/
def State.setTag (s : State R τ α) (d : ℕ) (u : TagNet.State R τ α) : State R τ α :=
  { s with
    node := fun p => { s.node p with heap := (u.rank p).heap }
    wire := u.wire
    tag := Function.update s.tag d fun p => ⟨(u.rank p).pc, (u.rank p).await⟩ }

/-- Every call at its first await point on every rank. -/
def start (calls : Calls R τ α) (heap : ℕ → Heap R α) : State R τ α where
  node p := ⟨.new, heap p, fun _ => false, fun _ => none⟩
  chan _ _ := []
  wire _ _ _ := []
  am c p := ⟨calls.first c p, 0, 0, fun _ => .new⟩
  tag _ _ := ⟨0, none⟩

section Step

variable [DecidableEq R] [DecidableEq τ]

/-- The state after an event of one of the calls, if it can happen. -/
def step (calls : Calls R τ α) (s : State R τ α) : Event → Option (State R τ α)
  | .am _ (.deliver _ _) => none
  | .am c e => (AmNet.step (calls.amNet c) (s.amView c) e).map (s.setAm c)
  | .tag d e => (TagNet.step (calls.tagNet d) (s.tagView d) e).map (s.setTag d)
  | .deliver p q =>
    match s.chan p q with
    | [] => none
    | msg :: rest => some
      { s with
        node := Function.update s.node q ((s.node q).deliver msg.key msg.payload).1
        chan := fun p' q' => if p' = p ∧ q' = q then rest else s.chan p' q' }

end Step

/-! ### What it is for calls to be independent -/

/-- The call has returned at the rank. -/
def Calls.Returned (calls : Calls R τ α) (c : ℕ) (s : State R τ α) (p : ℕ) : Prop :=
  (s.am c p).stage = calls.first c p + (calls.am c p).length

/-- The call over tags has returned. -/
def Calls.TagReturned (calls : Calls R τ α) (d : ℕ) (s : State R τ α) (p : ℕ) : Prop :=
  (s.tag d p).pc = (calls.tag d p).length

/-- **A call stands among the others as it stands alone**: it has returned on the same
ranks, and its buffers `F` hold the same. -/
structure AsAlone (calls : Calls R τ α) (F : R → ℕ → Prop) (c : ℕ) (s : State R τ α)
    (t : AmNet.State R α) : Prop where
  returned : ∀ p, calls.Returned c s p ↔ (t.rank p).stage = (calls.am c p).length
  buffers : ∀ p, Heap.AgreeOn F (s.node p).heap (t.rank p).node.heap

/-- The same for a call over tags. -/
structure TagAsAlone (calls : Calls R τ α) (F : R → ℕ → Prop) (d : ℕ) (s : State R τ α)
    (u : TagNet.State R τ α) : Prop where
  returned : ∀ p, calls.TagReturned d s p ↔ (u.rank p).pc = (calls.tag d p).length
  buffers : ∀ p, Heap.AgreeOn F (s.node p).heap (u.rank p).heap

/-- **No call makes a difference to another.** In a state that is reached together each call
stands as in a state that it reaches alone, which it cannot leave if nothing can happen
together; and each state that it reaches alone is met so. -/
structure Independent [DecidableEq R] [DecidableEq τ] (calls : Calls R τ α)
    (own tagOwn : ℕ → R → ℕ → Prop) (heap : ℕ → Heap R α) : Prop where
  alone : ∀ s, Reaches (step calls) (start calls heap) s → ∀ c, ∃ t,
    Reaches (AmNet.step (calls.alone c)) (AmNet.start heap) t ∧ AsAlone calls (own c) c s t ∧
      (Stuck (step calls) s → Stuck (AmNet.step (calls.alone c)) t)
  tagAlone : ∀ s, Reaches (step calls) (start calls heap) s → ∀ d, ∃ u,
    Reaches (TagNet.step (calls.tagNet d)) (TagNet.start heap) u ∧
      TagAsAlone calls (tagOwn d) d s u ∧
      (Stuck (step calls) s → Stuck (TagNet.step (calls.tagNet d)) u)
  together : ∀ c t, Reaches (AmNet.step (calls.alone c)) (AmNet.start heap) t → ∃ s,
    Reaches (step calls) (start calls heap) s ∧ AsAlone calls (own c) c s t
  tagTogether : ∀ d u, Reaches (TagNet.step (calls.tagNet d)) (TagNet.start heap) u → ∃ s,
    Reaches (step calls) (start calls heap) s ∧ TagAsAlone calls (tagOwn d) d s u

section Results

variable [DecidableEq R] [DecidableEq τ] (calls : Calls R τ α) (F : R → ℕ → Prop)
  (heap : ℕ → Heap R α) (c p : ℕ)

/-- What a call may have left in its buffers `F` on a rank where it has returned. -/
def Calls.results : Set (Heap R α) := {v | ∃ s, Reaches (step calls) (start calls heap) s ∧
  calls.Returned c s p ∧ Heap.AgreeOn F v (s.node p).heap}

/-- What it may have left if it is the only one. -/
def Calls.aloneResults : Set (Heap R α) := {v | ∃ t,
  Reaches (AmNet.step (calls.alone c)) (AmNet.start heap) t ∧
    (t.rank p).stage = (calls.am c p).length ∧ Heap.AgreeOn F v (t.rank p).node.heap}

/-- The same for a call over tags. -/
def Calls.tagResults : Set (Heap R α) := {v | ∃ s, Reaches (step calls) (start calls heap) s ∧
  calls.TagReturned c s p ∧ Heap.AgreeOn F v (s.node p).heap}

/-- And if it is the only one. -/
def Calls.tagAloneResults : Set (Heap R α) := {v | ∃ u,
  Reaches (TagNet.step (calls.tagNet c)) (TagNet.start heap) u ∧
    (u.rank p).pc = (calls.tag c p).length ∧ Heap.AgreeOn F v (u.rank p).heap}

variable {calls heap} {own tagOwn : ℕ → R → ℕ → Prop}

/-- **The results of a call are those of the call alone.** -/
theorem Independent.results_eq (h : Independent calls own tagOwn heap) :
    calls.results (own c) heap c p = calls.aloneResults (own c) heap c p := by
  ext v
  constructor
  · rintro ⟨s, hs, hret, hv⟩
    obtain ⟨t, ht, has, -⟩ := h.alone s hs c
    exact ⟨t, ht, (has.returned p).mp hret, hv.trans (has.buffers p)⟩
  · rintro ⟨t, ht, hret, hv⟩
    obtain ⟨s, hs, has⟩ := h.together c t ht
    exact ⟨s, hs, (has.returned p).mpr hret, hv.trans (has.buffers p).symm⟩

theorem Independent.tagResults_eq (h : Independent calls own tagOwn heap) :
    calls.tagResults (tagOwn c) heap c p = calls.tagAloneResults (tagOwn c) heap c p := by
  ext v
  constructor
  · rintro ⟨s, hs, hret, hv⟩
    obtain ⟨u, hu, has, -⟩ := h.tagAlone s hs c
    exact ⟨u, hu, (has.returned p).mp hret, hv.trans (has.buffers p)⟩
  · rintro ⟨u, hu, hret, hv⟩
    obtain ⟨s, hs, has⟩ := h.tagTogether c u hu
    exact ⟨s, hs, (has.returned p).mpr hret, hv.trans (has.buffers p).symm⟩

end Results

/-! ### The areas of the calls -/

/-- **Calls that have nothing in common**: their buffers are disjoint, and so are the
phases of their keys, and their tags. -/
structure Separate (calls : Calls R τ α) where
  own : ℕ → R → ℕ → Prop
  phases : ℕ → List UInt8
  tagOwn : ℕ → R → ℕ → Prop
  tags : ℕ → τ → Prop
  own_ne : ∀ c c', c ≠ c' → ∀ r i, own c r i → ¬own c' r i
  tagOwn_ne : ∀ d d', d ≠ d' → ∀ r i, tagOwn d r i → ¬tagOwn d' r i
  own_tagOwn : ∀ c d r i, own c r i → ¬tagOwn d r i
  phases_ne : ∀ c c', c ≠ c' → ∀ x ∈ phases c, x ∉ phases c'
  tags_ne : ∀ d d', d ≠ d' → ∀ x, tags d x → ¬tags d' x
  within : ∀ c p, ∀ st ∈ calls.am c p, ∀ chain ∈ st.chains, ∀ i ∈ chain,
    i.Within (own c) (phases c)
  tagWithin : ∀ d p, ∀ i ∈ calls.tag d p, i.Within ⟨tagOwn d, tags d⟩

namespace Separate

variable {calls : Calls R τ α} (S : Separate calls) {c c' d d' p : ℕ}

/-- The area of a call over active messages. -/
def area (c : ℕ) : AmNet.Area R :=
  ⟨S.own c, S.phases c, calls.first c, fun p => (calls.am c p).length⟩

/-- The area of a call over tags. -/
def tagArea (d : ℕ) : TagNet.Area R τ := ⟨S.tagOwn d, S.tags d⟩

theorem before_succ (calls : Calls R τ α) (c p : ℕ) :
    calls.before (c + 1) p = calls.before c p ++ calls.am c p := by
  rw [Calls.before, List.range_succ, List.flatMap_append, List.flatMap_singleton]
  rfl

/-- The stages of a call end where those of the next one start. -/
theorem first_succ (calls : Calls R τ α) (c p : ℕ) :
    calls.first (c + 1) p = calls.first c p + (calls.am c p).length := by
  rw [Calls.first, before_succ, List.length_append]
  rfl

theorem first_mono (calls : Calls R τ α) (p : ℕ) : Monotone (calls.first · p) :=
  monotone_nat_of_le_succ fun c => by
    rw [first_succ]
    exact Nat.le_add_right ..

/-- **The areas of two calls are apart.** -/
theorem apart (hne : c ≠ c') : (S.area c).Apart (S.area c') where
  own := S.own_ne c c' hne
  phases := S.phases_ne c c' hne
  names p a := by
    rintro ⟨hlo, hhi⟩ ⟨hlo', hhi'⟩
    dsimp only [area] at hlo hhi hlo' hhi'
    rw [← first_succ] at hhi hhi'
    rcases Nat.lt_or_gt_of_ne hne with hlt | hgt
    · have : calls.first (c + 1) p ≤ calls.first c' p := first_mono calls p hlt
      omega
    · have : calls.first (c' + 1) p ≤ calls.first c p := first_mono calls p hgt
      omega

/-- **A call among the others** runs its own stages. -/
theorem among (c : ℕ) : AmNet.Among (S.area c) (calls.alone c) (calls.amNet c) where
  size := rfl
  stage p k := by
    show (calls.before (c + 1) p)[calls.first c p + k]? = (calls.am c p)[k]?
    rw [before_succ, Calls.first, List.getElem?_append_right (Nat.le_add_right ..),
      Nat.add_sub_cancel_left]
  count _ := rfl
  eager _ _ _ := rfl
  within := S.within c

/-! ### What the calls see of a state -/

/-- **A state of all calls looks, to each of them, like a state of its own.** -/
structure Sees (s : State R τ α) (ts : ℕ → AmNet.State R α) (us : ℕ → TagNet.State R τ α) :
    Prop where
  am : ∀ c, (S.area c).Sees (s.amView c) (ts c)
  tag : ∀ d, (S.tagArea d).Sees (s.tagView d) (us d)
  /-- Every message is of some call. -/
  known : ∀ p q, ∀ msg ∈ s.chan p q, ∃ c, msg.key.phase ∈ S.phases c

variable {S} {s s' : State R τ α} {ts : ℕ → AmNet.State R α} {us : ℕ → TagNet.State R τ α}

theorem sees_start (heap : ℕ → Heap R α) :
    S.Sees (start calls heap) (fun _ => AmNet.start heap) fun _ => TagNet.start heap where
  am c := by
    refine ⟨fun p => ⟨rfl, rfl, rfl, fun _ => ⟨rfl, .none⟩, .refl _ _, fun _ _ => rfl,
      fun _ _ => .none⟩, fun _ _ => rfl⟩
  tag d := ⟨fun p => ⟨rfl, rfl, .refl _ _⟩, fun _ _ _ _ => rfl⟩
  known _ _ _ hmsg := absurd hmsg List.not_mem_nil

/-- **What a call changes in its area** is not seen in the area of another. -/
theorem am_of_keeps {A : AmNet.Area R} {t : AmNet.State R α} (hap : (S.area c).Apart A)
    (h : (S.area c).Sees (s.amView c) t) (hk : A.Keeps (s.amView c') (s'.amView c'))
    (ham : s'.am c = s.am c) : (S.area c).Sees (s'.amView c) t where
  rank p := by
    have hr := h.rank p
    have hthread : s'.am c p = s.am c p := congrFun ham p
    refine ⟨?_, ?_, ?_, ?_, hr.node.of_keeps hap (hk.node p)⟩ <;>
      simp only [State.amView, hthread]
    exacts [hr.stage, hr.launched, hr.reaped, hr.chain]
  chan p q := by
    have hsub : ∀ l : List (AmNet.Message α),
        (l.filter fun msg => msg.key.phase ∉ A.phases).filter
          (fun msg => msg.key.phase ∈ (S.area c).phases) =
        l.filter fun msg => msg.key.phase ∈ (S.area c).phases := fun l => by
      rw [List.filter_filter]
      refine List.filter_congr fun msg _ => ?_
      by_cases hmsg : msg.key.phase ∈ (S.area c).phases
      · simp [hmsg, hap.phases _ hmsg]
      · simp [hmsg]
    rw [← h.chan, ← hsub, ← hsub ((s.amView c).chan p q)]
    exact congrArg _ (hk.chan p q)

/-- Nor in that of a call over tags. -/
theorem tag_of_keeps {u : TagNet.State R τ α} (h : (S.tagArea d).Sees (s.tagView d) u)
    (hk : (S.area c).Keeps (s.amView c) (s'.amView c)) (htag : s'.tag d = s.tag d)
    (hwire : s'.wire = s.wire) : (S.tagArea d).Sees (s'.tagView d) u where
  rank p := by
    have hr := h.rank p
    have hthread : s'.tag d p = s.tag d p := congrFun htag p
    refine ⟨?_, ?_, fun r i hi => ?_⟩
    · simpa only [State.tagView, hthread] using hr.pc
    · simpa only [State.tagView, hthread] using hr.await
    · exact ((hk.node p).heap r i fun hown => S.own_tagOwn c d r i hown hi).trans (hr.heap r i hi)
  wire p q x hx := by
    simpa only [State.tagView, hwire] using h.wire p q x hx

/-- What a call leaves is what it then works on. -/
theorem amView_setAm (s : State R τ α) (c : ℕ) (t : AmNet.State R α) :
    (s.setAm c t).amView c = t := by
  simp only [State.amView, State.setAm, Function.update_self]

theorem tagView_setTag (s : State R τ α) (d : ℕ) (u : TagNet.State R τ α) :
    (s.setTag d u).tagView d = u := by
  simp only [State.tagView, State.setTag, Function.update_self]

/-- Messages that are added are of a call. -/
theorem known_of_keeps (h : S.Sees s ts us)
    (hk : (S.area c).Keeps (s.amView c) (s'.amView c)) (p q : ℕ) :
    ∀ msg ∈ s'.chan p q, ∃ c, msg.key.phase ∈ S.phases c := by
  intro msg hmsg
  by_cases hphase : msg.key.phase ∈ (S.area c).phases
  · exact ⟨c, hphase⟩
  · have hmem : msg ∈ (s'.chan p q).filter fun msg => msg.key.phase ∉ (S.area c).phases :=
      List.mem_filter.mpr ⟨hmsg, by simpa using hphase⟩
    rw [show s'.chan p q = (s'.amView c).chan p q from rfl, hk.chan p q] at hmem
    exact h.known p q msg (List.mem_of_mem_filter hmem)

/-- **One call goes on**, in its area. -/
theorem Sees.update_am (h : S.Sees s ts us) {t' : AmNet.State R α}
    (hs : (S.area c).Sees (s'.amView c) t')
    (hk : (S.area c).Keeps (s.amView c) (s'.amView c)) (ham : ∀ c', c' ≠ c → s'.am c' = s.am c')
    (htag : s'.tag = s.tag) (hwire : s'.wire = s.wire) :
    S.Sees s' (Function.update ts c t') us where
  am c' := by
    rcases eq_or_ne c' c with rfl | hne
    · rw [Function.update_self]
      exact hs
    · rw [Function.update_of_ne hne]
      exact am_of_keeps (S.apart hne) (h.am c') hk (ham c' hne)
  tag d := tag_of_keeps (h.tag d) hk (congrFun htag d) hwire
  known := known_of_keeps h hk

section Steps

variable [DecidableEq R] [DecidableEq τ]

/-- **A call over active messages** can do together what it can do alone. -/
theorem Sees.am_step (h : S.Sees s ts us) (c : ℕ) {e : AmNet.Event}
    (he : ∀ p q, e ≠ .deliver p q) :
    Option.Rel (fun s' t' => S.Sees s' (Function.update ts c t') us) (step calls s (.am c e))
      (AmNet.step (calls.alone c) (ts c) e) := by
  have hstep : step calls s (.am c e) =
      (AmNet.step (calls.amNet c) (s.amView c) e).map (s.setAm c) := by
    cases e with
    | deliver p q => exact absurd rfl (he p q)
    | _ => rfl
  have hrel := (S.among c).step_rel (h.am c) he
  rw [hstep]
  generalize AmNet.step (calls.amNet c) (s.amView c) e = o at hrel
  generalize AmNet.step (calls.alone c) (ts c) e = o' at hrel
  cases hrel with
  | none => exact .none
  | @some t t' hrel =>
    obtain ⟨hs, hk⟩ := hrel
    refine .some (h.update_am ?_ ?_ (fun c' hne => Function.update_of_ne hne ..) rfl rfl)
    · rw [amView_setAm]
      exact hs
    · rw [amView_setAm]
      exact hk

/-- **A delivery** is one for the call whose message it is. -/
theorem Sees.deliver (h : S.Sees s ts us) {q : ℕ} {msg : AmNet.Message α}
    {rest : List (AmNet.Message α)} (hchan : s.chan p q = msg :: rest)
    (hmsg : msg.key.phase ∈ S.phases c) :
    ∃ s' t', step calls s (.deliver p q) = some s' ∧ s'.chan p q = rest ∧
      AmNet.step (calls.alone c) (ts c) (.deliver p q) = some t' ∧
        S.Sees s' (Function.update ts c t') us := by
  obtain ⟨s', heq⟩ : ∃ s', { s with
      node := Function.update s.node q ((s.node q).deliver msg.key msg.payload).1
      chan := fun p' q' => if p' = p ∧ q' = q then rest else s.chan p' q' } = s' := ⟨_, rfl⟩
  have hs' : step calls s (.deliver p q) = some s' := by
    rw [step, hchan, ← heq]
  have hview : AmNet.step (calls.amNet c) (s.amView c) (.deliver p q) = some (s'.amView c) := by
    refine AmNet.step_deliver.mpr ⟨msg, rest, hchan, ?_⟩
    rw [← heq]
    refine congrArg₂ AmNet.State.mk (funext fun q' => ?_) rfl
    rcases eq_or_ne q' q with rfl | hne
    · simp only [State.amView, Function.update_self]
    · simp only [State.amView, Function.update_of_ne hne]
  obtain ⟨t', ht', hs, hk⟩ : ∃ t',
      AmNet.step (calls.alone c) (ts c) (.deliver p q) = some t' ∧
        (S.area c).Sees (s'.amView c) t' ∧ (S.area c).Keeps (s.amView c) (s'.amView c) :=
    (h.am c).deliver hview hchan hmsg
  refine ⟨s', t', hs', ?_, ht', h.update_am hs hk ?_ ?_ ?_⟩ <;> subst heq
  · exact if_pos ⟨rfl, rfl⟩
  · exact fun _ _ => rfl
  · rfl
  · rfl

/-- **A call over tags** can do together what it can do alone. -/
theorem Sees.tag_step (h : S.Sees s ts us) (d : ℕ) (e : TagNet.Event) :
    Option.Rel (fun s' u' => S.Sees s' ts (Function.update us d u')) (step calls s (.tag d e))
      (TagNet.step (calls.tagNet d) (us d) e) := by
  have hwithin : ∀ p, ∀ i ∈ (calls.tagNet d).prog p, i.Within (S.tagArea d) := S.tagWithin d
  have hrel := TagNet.step_rel hwithin (h.tag d) e
  rw [step]
  generalize TagNet.step (calls.tagNet d) (s.tagView d) e = o at hrel
  generalize TagNet.step (calls.tagNet d) (us d) e = o' at hrel
  cases hrel with
  | none => exact .none
  | @some u u' hrel =>
    obtain ⟨hs, hk⟩ := hrel
    refine .some ⟨fun c => ?_, fun d' => ?_, h.known⟩
    · -- the call over tags has written outside of the area of the other
      refine ⟨fun p => ?_, (h.am c).chan⟩
      have hr := (h.am c).rank p
      refine ⟨hr.stage, hr.launched, hr.reaped, hr.chain, fun r i hi => ?_, hr.node.done,
        hr.node.slots⟩
      exact (hk.heap p r i fun hown => S.own_tagOwn c d r i hi hown).trans (hr.node.heap r i hi)
    · rcases eq_or_ne d' d with rfl | hne
      · rw [Function.update_self, tagView_setTag]
        exact hs
      · rw [Function.update_of_ne hne]
        refine ⟨fun p => ?_, fun p q x hx => ?_⟩
        · have hr := (h.tag d').rank p
          have hthread : (s.setTag d u).tag d' = s.tag d' := Function.update_of_ne hne ..
          refine ⟨?_, ?_, fun r i hi => ?_⟩
          · simpa only [State.tagView, hthread] using hr.pc
          · simpa only [State.tagView, hthread] using hr.await
          · exact (hk.heap p r i fun hown => S.tagOwn_ne d' d hne r i hi hown).trans
              (hr.heap r i hi)
        · exact (hk.wire p q x fun htag => S.tags_ne d' d hne x hx htag).trans
            ((h.tag d').wire p q x hx)

/-! ### Runs -/

/-- **What happens together happens to each call alone**, or does not happen to it. -/
theorem Sees.step (h : S.Sees s ts us) {e : Event} (hs : Together.step calls s e = some s') :
    ∃ ts' us', S.Sees s' ts' us' ∧
      (∀ c, ts' c = ts c ∨ ∃ e, AmNet.step (calls.alone c) (ts c) e = some (ts' c)) ∧
      ∀ d, us' d = us d ∨ ∃ e, TagNet.step (calls.tagNet d) (us d) e = some (us' d) := by
  have hmoved : ∀ {c e t'}, AmNet.step (calls.alone c) (ts c) e = some t' → ∀ c',
      Function.update ts c t' c' = ts c' ∨
        ∃ e, AmNet.step (calls.alone c') (ts c') e = some (Function.update ts c t' c') := by
    intro c e t' ht c'
    rcases eq_or_ne c' c with rfl | hne
    · exact .inr ⟨e, by rw [Function.update_self, ht]⟩
    · exact .inl (Function.update_of_ne hne ..)
  cases e with
  | am c e =>
    by_cases he : ∀ p q, e ≠ .deliver p q
    · have hrel := h.am_step c he
      rw [hs] at hrel
      generalize ht : AmNet.step (calls.alone c) (ts c) e = o at hrel
      cases hrel with
      | some hrel => exact ⟨_, us, hrel, hmoved ht, fun d => .inl rfl⟩
    · push Not at he
      obtain ⟨p, q, rfl⟩ := he
      cases hs
  | tag d e =>
    have hrel := h.tag_step d e
    rw [hs] at hrel
    generalize hu : TagNet.step (calls.tagNet d) (us d) e = o at hrel
    cases hrel with
    | some hrel =>
      refine ⟨ts, _, hrel, fun c => .inl rfl, fun d' => ?_⟩
      rcases eq_or_ne d' d with rfl | hne
      · exact .inr ⟨e, by rw [Function.update_self, hu]⟩
      · exact .inl (Function.update_of_ne hne ..)
  | deliver p q =>
    rcases hchan : s.chan p q with - | ⟨msg, rest⟩
    · rw [Together.step, hchan] at hs
      cases hs
    · -- the message is one of some call, which makes the delivery
      obtain ⟨c, hc⟩ := h.known p q msg (by rw [hchan]; exact List.mem_cons_self)
      obtain ⟨s₁, t', hs₁, -, ht, hsees⟩ := h.deliver hchan hc
      obtain rfl : s₁ = s' := Option.some.inj (hs₁.symm.trans hs)
      exact ⟨_, us, hsees, hmoved ht, fun d => .inl rfl⟩

/-- **What is reached together is reached alone**, call by call. -/
theorem exists_sees (heap : ℕ → Heap R α)
    (hs : Reaches (Together.step calls) (start calls heap) s) : ∃ ts us, S.Sees s ts us ∧
      (∀ c, Reaches (AmNet.step (calls.alone c)) (AmNet.start heap) (ts c)) ∧
      ∀ d, Reaches (TagNet.step (calls.tagNet d)) (TagNet.start heap) (us d) := by
  refine hs.invariant (P := fun s => ∃ ts us, S.Sees s ts us ∧
    (∀ c, Reaches (AmNet.step (calls.alone c)) (AmNet.start heap) (ts c)) ∧
      ∀ d, Reaches (TagNet.step (calls.tagNet d)) (TagNet.start heap) (us d))
    ⟨_, _, sees_start heap, fun _ => .refl, fun _ => .refl⟩ ?_
  rintro s e s' ⟨ts, us, h, ham, htag⟩ - hstep
  obtain ⟨ts', us', h', ham', htag'⟩ := h.step hstep
  refine ⟨ts', us', h', fun c => ?_, fun d => ?_⟩
  · obtain heq | ⟨e, he⟩ := ham' c
    · exact heq ▸ ham c
    · exact (ham c).tail trivial he
  · obtain heq | ⟨e, he⟩ := htag' d
    · exact heq ▸ htag d
    · exact (htag d).tail trivial he

/-- **A call can do together what it can do alone**, once the messages of the others that
are ahead of its own have been delivered. -/
theorem Sees.exists_am (h : S.Sees s ts us) {e : AmNet.Event} {t' : AmNet.State R α}
    (ht : AmNet.step (calls.alone c) (ts c) e = some t') :
    ∃ s' ts', Reaches (Together.step calls) s s' ∧ S.Sees s' ts' us ∧ ts' c = t' := by
  by_cases he : ∀ p q, e ≠ .deliver p q
  · have hrel := h.am_step c he
    rw [ht] at hrel
    generalize hs : Together.step calls s (.am c e) = o at hrel
    cases hrel with
    | some hrel => exact ⟨_, _, .single trivial hs, hrel, Function.update_self ..⟩
  push Not at he
  obtain ⟨p, q, rfl⟩ := he
  obtain ⟨msg₀, rest₀, hcall, -⟩ := AmNet.step_deliver.mp ht
  -- by induction on the messages of the channel
  generalize hchan : s.chan p q = l
  induction l generalizing s ts with
  | nil =>
    have hown := (h.am c).chan p q
    rw [show (s.amView c).chan p q = [] from hchan, hcall] at hown
    cases hown
  | cons msg rest ih =>
    obtain ⟨c', hc'⟩ := h.known p q msg (by rw [hchan]; exact List.mem_cons_self)
    obtain ⟨s₁, t₁, hs₁, hrest, ht₁, h₁⟩ := h.deliver hchan hc'
    rcases eq_or_ne c c' with rfl | hne
    · obtain rfl : t₁ = t' := Option.some.inj (ht₁.symm.trans ht)
      exact ⟨s₁, _, .single trivial hs₁, h₁, Function.update_self ..⟩
    · have hsame : Function.update ts c' t₁ c = ts c := Function.update_of_ne hne ..
      obtain ⟨s', ts', hs', h', ht'⟩ := ih h₁ (hsame ▸ ht) (hsame ▸ hcall) hrest
      exact ⟨s', ts', (Steps.single trivial hs₁).trans hs', h', ht'⟩

/-- So a call that cannot go on together cannot go on alone. -/
theorem Sees.stuck_am (h : S.Sees s ts us) (hs : Stuck (Together.step calls) s) (c : ℕ) :
    Stuck (AmNet.step (calls.alone c)) (ts c) := by
  intro e
  by_cases he : ∀ p q, e ≠ .deliver p q
  · have hrel := h.am_step c he
    rw [hs] at hrel
    generalize AmNet.step (calls.alone c) (ts c) e = o at hrel ⊢
    cases hrel
    rfl
  push Not at he
  obtain ⟨p, q, rfl⟩ := he
  rcases hchan : s.chan p q with - | ⟨msg, rest⟩
  · have hown := (h.am c).chan p q
    rw [show (s.amView c).chan p q = [] from hchan] at hown
    rw [AmNet.step, List.map_eq_nil_iff.mp hown.symm]
  · obtain ⟨c', hc'⟩ := h.known p q msg (by rw [hchan]; exact List.mem_cons_self)
    obtain ⟨s₁, -, hs₁, -⟩ := h.deliver hchan hc'
    cases (hs _).symm.trans hs₁

theorem Sees.stuck_tag (h : S.Sees s ts us) (hs : Stuck (Together.step calls) s) (d : ℕ) :
    Stuck (TagNet.step (calls.tagNet d)) (us d) := by
  intro e
  have hrel := h.tag_step d e
  rw [hs] at hrel
  generalize TagNet.step (calls.tagNet d) (us d) e = o at hrel ⊢
  cases hrel
  rfl

/-- **What is reached alone is reached together.** -/
theorem exists_together_am (heap : ℕ → Heap R α) {t : AmNet.State R α}
    (ht : Reaches (AmNet.step (calls.alone c)) (AmNet.start heap) t) : ∃ s ts us,
      Reaches (Together.step calls) (start calls heap) s ∧ S.Sees s ts us ∧ ts c = t := by
  induction ht with
  | refl => exact ⟨_, _, _, .refl, sees_start heap, rfl⟩
  | tail _ _ hstep ih =>
    obtain ⟨s, ts, us, hs, h, rfl⟩ := ih
    obtain ⟨s', ts', hs', h', ht'⟩ := h.exists_am hstep
    exact ⟨s', ts', us, hs.trans hs', h', ht'⟩

theorem exists_together_tag (heap : ℕ → Heap R α) {u : TagNet.State R τ α}
    (hu : Reaches (TagNet.step (calls.tagNet d)) (TagNet.start heap) u) : ∃ s ts us,
      Reaches (Together.step calls) (start calls heap) s ∧ S.Sees s ts us ∧ us d = u := by
  induction hu with
  | refl => exact ⟨_, _, _, .refl, sees_start heap, rfl⟩
  | @tail u u' e _ _ hstep ih =>
    obtain ⟨s, ts, us, hs, h, rfl⟩ := ih
    have hrel := h.tag_step d e
    rw [hstep] at hrel
    generalize hs' : Together.step calls s (.tag d e) = o at hrel
    cases hrel with
    | some hrel => exact ⟨_, ts, _, hs.tail trivial hs', hrel, Function.update_self ..⟩

omit [DecidableEq R] [DecidableEq τ] in
theorem Sees.asAlone (h : S.Sees s ts us) (c : ℕ) : AsAlone calls (S.own c) c s (ts c) where
  returned p := by
    have hstage : (s.am c p).stage = calls.first c p + ((ts c).rank p).stage :=
      ((h.am c).rank p).stage
    rw [Calls.Returned, hstage, Nat.add_left_cancel_iff]
  buffers p := ((h.am c).rank p).node.heap

omit [DecidableEq R] [DecidableEq τ] in
theorem Sees.tagAsAlone (h : S.Sees s ts us) (d : ℕ) :
    TagAsAlone calls (S.tagOwn d) d s (us d) where
  returned p := by
    have hpc : (s.tag d p).pc = ((us d).rank p).pc := ((h.tag d).rank p).pc
    rw [Calls.TagReturned, hpc]
  buffers p := ((h.tag d).rank p).heap

/-- **Calls that have nothing in common are independent.** -/
theorem independent (S : Separate calls) (heap : ℕ → Heap R α) :
    Independent calls S.own S.tagOwn heap where
  alone s hs c := by
    obtain ⟨ts, us, h, ham, -⟩ := S.exists_sees heap hs
    exact ⟨ts c, ham c, h.asAlone c, fun hstuck => h.stuck_am hstuck c⟩
  tagAlone s hs d := by
    obtain ⟨ts, us, h, -, htag⟩ := S.exists_sees heap hs
    exact ⟨us d, htag d, h.tagAsAlone d, fun hstuck => h.stuck_tag hstuck d⟩
  together c t ht := by
    obtain ⟨s, ts, us, hs, h, rfl⟩ := S.exists_together_am heap ht
    exact ⟨s, hs, h.asAlone c⟩
  tagTogether d u hu := by
    obtain ⟨s, ts, us, hs, h, rfl⟩ := S.exists_together_tag heap hu
    exact ⟨s, hs, h.tagAsAlone d⟩

end Steps

end Separate

end Together

end Pluvio
