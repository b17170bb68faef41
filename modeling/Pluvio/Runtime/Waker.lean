import Pluvio.Rc
import Pluvio.Runtime.Disconnect

/-!
# Raw wakers

A waker of a task is a pointer to a reference-counted cell with the id of the task and a
sender, and four functions that work on the pointer by hand: each of them turns it into a
reference that would be dropped at its end, and either forgets that reference or not. This
module follows the counts of the cells through all of it, also through the panic of
`"Failed to send task"`, which drops what a function holds at that point.

`wake_by_ref_raw` holds two references while it sends, its own and the one of its caller,
and forgets the latter only after the send. If there is no receiver any more, the panic drops
them both: the count is then one too small, and the caller is left with a waker whose cell may
have been freed. That is the only way to go wrong: in every other run the cells count the
wakers that there are, nothing that has been freed is touched, and the channel counts one
sender for every cell (`Pluvio.RawWaker.wakers_sound_iff`).
-/

namespace Pluvio

namespace RawWaker

open Spsc (Handles SlotLimit)

/-- The wakers of a channel. -/
structure State where
  channel : Handles ℕ
  /-- The cells of `PluvioWaker`s, with their `task_id`. Each of them holds a sender. -/
  cells : Rc.Heap ℕ
  /-- The cell of each `Waker` that there is. -/
  wakers : List ℕ
  /-- A cell has been touched that had been freed. -/
  dangling : Bool

namespace State

/-- `Sender::send`, and whether it succeeds; `none` if there is no memory for the value. -/
def send (slots : SlotLimit) (s : State) (id : ℕ) : Option (State × Bool) :=
  match s.channel.inner.send slots id with
  | .ok (inner, .ok ()) => some
    ({ s with channel := { s.channel with inner := inner, sent := s.channel.sent ++ [id] } }, true)
  | .ok (inner, .error _) => some ({ s with channel := { s.channel with inner := inner } }, false)
  | .error _ => none

/-- A sender is cloned outside of the wakers. -/
def cloneSender (s : State) : State :=
  { s with channel := { s.channel with
    inner := s.channel.inner.cloneSender
    senders := s.channel.senders + 1 } }

/-- A sender is dropped outside of the wakers. -/
def dropSender (s : State) : State :=
  { s with channel := { s.channel with
    inner := s.channel.inner.dropSender
    senders := s.channel.senders - 1 } }

/-- `Rc::clone` of the cell. -/
def clone (s : State) (p : ℕ) : State :=
  match s.cells.clone p with
  | none => { s with dangling := true }
  | some cells => { s with cells := cells }

/-- A reference to the cell is dropped, and with the last one its sender. -/
def drop (s : State) (p : ℕ) : State :=
  match s.cells.drop p with
  | none => { s with dangling := true }
  | some (none, cells) => { s with cells := cells }
  | some (some _, cells) => { s with cells := cells }.dropSender

/-- `rc.task_sender.send(rc.task_id)`, and whether it succeeds. -/
def sendTaskId (slots : SlotLimit) (s : State) (p : ℕ) : Option (State × Bool) :=
  match s.cells.get p with
  | none => some ({ s with dangling := true }, false)
  | some id => s.send slots id

/-- `clone_raw`: the reference of the caller is forgotten. -/
def cloneRaw (s : State) (p : ℕ) : State := s.clone p

/-- `wake_raw`: the reference of the caller is dropped, at the end or by the panic. -/
def wakeRaw (slots : SlotLimit) (s : State) (p : ℕ) : Option State :=
  (s.sendTaskId slots p).map fun sent => sent.1.drop p

/-- `wake_by_ref_raw`: `rc_clone` is dropped; the reference of the caller is forgotten at the
end, or dropped by the panic. -/
def wakeByRefRaw (slots : SlotLimit) (s : State) (p : ℕ) : Option State :=
  ((s.clone p).sendTaskId slots p).map fun sent =>
    if sent.2 then sent.1.drop p else (sent.1.drop p).drop p

/-- `drop_raw`. -/
def dropRaw (s : State) (p : ℕ) : State := s.drop p

/-- `new_waker`, with a clone of a sender: the cell, and the state afterwards. -/
def newWaker (s : State) (id : ℕ) : ℕ × State :=
  let cell := s.cells.alloc id
  (cell.1, { s with cells := cell.2 }.cloneSender)

end State

/-- What happens to the wakers of a channel. Panics unwind, and may be caught. -/
inductive Event
  /-- A task with this id is polled. -/
  | newWaker (id : ℕ)
  | cloneWaker (p : ℕ)
  | wake (p : ℕ)
  | wakeByRef (p : ℕ)
  | dropWaker (p : ℕ)
  /-- A sender that is not in a cell. -/
  | cloneSender
  | dropSender
  | tryRecv
  | dropReceiver
  deriving DecidableEq

/-- A new channel, and no waker yet. -/
def start (inner : Spsc.Inner ℕ) : State := ⟨.start inner, .empty, [], false⟩

/-- One step. A waker that is used is there, and so is a sender outside of the cells. -/
def step (slots : SlotLimit) (s : State) (e : Event) : Option State :=
  if s.dangling then none
  else match e with
  | .newWaker id =>
    -- each cell has a sender of its own, so there is one more outside of them
    if s.cells.live < s.channel.senders then
      let waker := s.newWaker id
      some { waker.2 with wakers := waker.1 :: s.wakers }
    else none
  | .cloneWaker p =>
    if p ∈ s.wakers then some { s.cloneRaw p with wakers := p :: s.wakers } else none
  | .wake p =>
    if p ∈ s.wakers then
      (s.wakeRaw slots p).map fun s' => { s' with wakers := s.wakers.erase p }
    else none
  | .wakeByRef p => if p ∈ s.wakers then s.wakeByRefRaw slots p else none
  | .dropWaker p =>
    if p ∈ s.wakers then some { s.dropRaw p with wakers := s.wakers.erase p } else none
  | .cloneSender => if s.cells.live < s.channel.senders then some s.cloneSender else none
  | .dropSender => if s.cells.live < s.channel.senders then some s.dropSender else none
  | .tryRecv => (s.channel.step slots .tryRecv).map fun channel => { s with channel := channel }
  | .dropReceiver =>
    (s.channel.step slots .dropReceiver).map fun channel => { s with channel := channel }

/-! ### What the functions do to the counts -/

/-- **The references are counted**: those of `refs`, and the senders of the cells. -/
structure Owned (s : State) (refs : List ℕ) : Prop where
  alive : s.dangling = false
  counted : Rc.Counted s.cells refs
  channel : Spsc.Counted .unbounded s.channel
  senders : s.cells.live ≤ s.channel.senders
  receivers : s.channel.receivers ≤ 1

section Owned

variable {slots : SlotLimit} {s t : State} {refs : List ℕ} {p : ℕ}

/-- A cell to which there is a reference holds a sender. -/
theorem Owned.senders_pos (h : Owned s refs) (hp : p ∈ refs) : 0 < s.channel.senders := by
  obtain ⟨v, hbox⟩ := h.counted.exists_box hp
  have hlive := Rc.live_free hbox (h.counted.lt_next p _ hbox)
  have hle := h.senders
  omega

/-- `Rc::clone` of a cell. -/
theorem Owned.clone (h : Owned s refs) (hp : p ∈ refs) :
    Owned (s.clone p) (p :: refs) ∧ (s.clone p).channel = s.channel ∧
      (s.clone p).wakers = s.wakers := by
  obtain ⟨cells, hclone, hcounted, hlive⟩ := h.counted.clone hp
  rw [State.clone, hclone]
  exact ⟨⟨h.alive, hcounted, h.channel, hlive.trans_le h.senders, h.receivers⟩, rfl, rfl⟩

/-- A reference to a cell is dropped. -/
theorem Owned.drop (h : Owned s refs) (hp : p ∈ refs) :
    Owned (s.drop p) (refs.erase p) ∧
      (s.drop p).channel.inner.receiverAlive = s.channel.inner.receiverAlive ∧
      (s.drop p).wakers = s.wakers := by
  obtain ⟨freed, cells, hdrop, hcounted, hlive⟩ := h.counted.drop hp
  have hpos := h.senders_pos hp
  have hle := h.senders
  rw [State.drop, hdrop]
  cases freed with
  | none =>
    exact ⟨⟨h.alive, hcounted, h.channel, hlive.symm.trans_le hle, h.receivers⟩, rfl, rfl⟩
  | some id =>
    obtain ⟨q, hheld⟩ := h.channel
    have hact : s.channel.onSender 0 .dropSender = some _ := rfl
    refine ⟨⟨h.alive, hcounted, hheld.onSender hpos hact, ?_, h.receivers⟩, rfl, rfl⟩
    have hlive : s.cells.live = cells.live + 1 := hlive
    show cells.live ≤ s.channel.senders - 1
    omega

/-- The id of a cell is sent: this succeeds as long as there is a receiver. -/
theorem Owned.sendTaskId (h : Owned s refs) (hp : p ∈ refs) {ok : Bool}
    (ht : s.sendTaskId slots p = some (t, ok)) :
    Owned t refs ∧ ok = s.channel.inner.receiverAlive ∧ t.wakers = s.wakers := by
  obtain ⟨id, hbox⟩ := h.counted.exists_box hp
  have hpos := h.senders_pos hp
  obtain ⟨q, hheld⟩ := h.channel
  have hget : s.cells.get p = some id := by rw [Rc.Heap.get, hbox, Option.map_some]
  rw [State.sendTaskId, hget] at ht
  simp only [State.send, Spsc.Inner.send] at ht
  cases halive : s.channel.inner.receiverAlive with
  | false =>
    rw [hheld.trySend_dead halive] at ht
    obtain ⟨rfl, rfl⟩ := Prod.mk.inj (Option.some.inj ht)
    exact ⟨⟨h.alive, h.counted, ⟨q, hheld⟩, h.senders, h.receivers⟩, rfl, rfl⟩
  | true =>
    rcases (hheld.refines halive).trySend_cases slots id with
      ⟨inner, queue, hsend, -⟩ | ⟨-, -, hmode⟩ | ⟨hsend, -⟩
    · have hact : s.channel.onSender slots (.trySend id) =
          some { s.channel with inner := inner, sent := s.channel.sent ++ [id] } := by
        simp only [Handles.onSender, hsend]
      rw [hsend] at ht
      obtain ⟨rfl, rfl⟩ := Prod.mk.inj (Option.some.inj ht)
      exact ⟨⟨h.alive, h.counted, hheld.onSender hpos hact, h.senders, h.receivers⟩, rfl, rfl⟩
    · cases hmode
    · rw [hsend] at ht
      cases ht

/-- **What `wake_by_ref_raw` does to the counts**: without a receiver, it drops the reference
of its caller. -/
theorem Owned.wakeByRef (h : Owned s refs) (hp : p ∈ refs)
    (ht : s.wakeByRefRaw slots p = some t) :
    Owned t (if s.channel.inner.receiverAlive then refs else refs.erase p) ∧
      t.wakers = s.wakers := by
  obtain ⟨hclone, hchannel, hwakers⟩ := h.clone hp
  obtain ⟨⟨u, ok⟩, hu, rfl⟩ := Option.map_eq_some_iff.mp ht
  obtain ⟨hsent, hok, hwakers₁⟩ := hclone.sendTaskId (List.mem_cons_self ..) hu
  obtain ⟨hdrop, -, hwakers₂⟩ := hsent.drop (List.mem_cons_self ..)
  rw [List.erase_cons_head] at hdrop
  have heq := hwakers₂.trans (hwakers₁.trans hwakers)
  rw [hchannel] at hok
  subst hok
  cases halive : s.channel.inner.receiverAlive with
  | true => exact ⟨hdrop, heq⟩
  | false =>
    obtain ⟨hdrop', -, hwakers₃⟩ := hdrop.drop hp
    exact ⟨hdrop', hwakers₃.trans heq⟩

/-- The channel changes by an act that leaves it enough senders, and no second receiver. -/
theorem Owned.act (h : Owned s refs) {a : Spsc.Act ℕ} {channel : Handles ℕ}
    (ha : s.channel.step slots a = some channel) (hsenders : s.cells.live ≤ channel.senders)
    (hreceivers : channel.receivers ≤ 1) : Owned { s with channel := channel } refs := by
  have hlast : Spsc.LastReceiver s.channel a := by
    cases a with
    | dropReceiver =>
      rcases Handles.step_cases ha with ⟨hof, -⟩ | ⟨-, hpos, -⟩
      · cases hof
      · exact .inl (Nat.le_antisymm h.receivers hpos)
    | _ => trivial
  exact ⟨h.alive, h.counted, h.channel.step hlast ha, hsenders, hreceivers⟩

theorem Owned.cloneSender (h : Owned s refs) (hpos : 0 < s.channel.senders) :
    Owned s.cloneSender refs := by
  have hact : s.channel.step 0 .cloneSender = some _ := if_pos hpos
  exact h.act hact (h.senders.trans (Nat.le_succ _)) h.receivers

/-- A sender that is not in a cell is dropped. -/
theorem Owned.dropSender (h : Owned s refs) (hlt : s.cells.live < s.channel.senders) :
    Owned s.dropSender refs := by
  have hact : s.channel.step 0 .dropSender = some _ := if_pos (Nat.zero_lt_of_lt hlt)
  exact h.act hact (Nat.le_sub_one_of_lt hlt) h.receivers

theorem Owned.receiver (h : Owned s refs) {a : Spsc.Act ℕ} {channel : Handles ℕ}
    (ha : s.channel.step slots a = some channel) (hact : a = .tryRecv ∨ a = .dropReceiver) :
    Owned { s with channel := channel } refs := by
  have hsame : channel.senders = s.channel.senders ∧ channel.receivers ≤ s.channel.receivers := by
    rcases Handles.step_cases ha with ⟨hof, -⟩ | ⟨-, -, hs⟩
    · rcases hact with rfl | rfl <;> cases hof
    · rcases hact with rfl | rfl
      · simp only [Handles.onReceiver] at hs
        split at hs
        · obtain rfl := Option.some.inj hs
          exact ⟨rfl, le_rfl⟩
        · obtain rfl := Option.some.inj hs
          exact ⟨rfl, le_rfl⟩
        · cases hs
      · obtain rfl := Option.some.inj hs
        exact ⟨rfl, Nat.sub_le ..⟩
  exact h.act ha (hsame.1 ▸ h.senders) (hsame.2.trans h.receivers)

/-- **A new waker** has a cell of its own, with a sender. -/
theorem Owned.newWaker (h : Owned s refs) (hlt : s.cells.live < s.channel.senders) (id : ℕ) :
    Owned (s.newWaker id).2 ((s.newWaker id).1 :: refs) := by
  obtain ⟨hcounted, hlive⟩ := h.counted.alloc id
  have halloc : Owned { s with cells := (s.cells.alloc id).2 } ((s.cells.alloc id).1 :: refs) :=
    ⟨h.alive, hcounted, h.channel, hlive.trans_le hlt, h.receivers⟩
  exact halloc.cloneSender (Nat.zero_lt_of_lt hlt)

end Owned

/-! ### Runs -/

section Runs

variable {slots : SlotLimit} {s s' : State} {e : Event}

/-- **The wakers are sound**: nothing that has been freed has been touched, the cells count the
wakers that there are, the channel counts the senders with those of the cells, and its
disconnection is reported exactly. -/
structure Sound (slots : SlotLimit) (s : State) : Prop where
  alive : s.dangling = false
  counted : Rc.Counted s.cells s.wakers
  senders : s.channel.inner.senderCount = s.channel.senders ∧ s.cells.live ≤ s.channel.senders
  exact : Spsc.Exact slots s.channel

theorem Owned.sound (slots : SlotLimit) (h : Owned s s.wakers) : Sound slots s := by
  obtain ⟨q, hheld⟩ := h.channel
  exact ⟨h.alive, h.counted, ⟨hheld.senders, h.senders⟩, hheld.exact slots⟩

/-- A waker is invoked by reference while there is a receiver. -/
def WokenByRef (s : State) (e : Event) : Prop :=
  (∃ p, e = .wakeByRef p) → s.channel.inner.receiverAlive = true

/-- Every step leaves the cells owned by the wakers that are left, unless it invokes one by
reference once the receiver is gone. -/
theorem Owned.step (h : Owned s s.wakers) (hG : WokenByRef s e)
    (hs : step slots s e = some s') : Owned s' s'.wakers := by
  obtain ⟨-, hs⟩ := Option.ite_none_left_eq_some.mp hs
  cases e with
  | newWaker id =>
    obtain ⟨hlt, hs⟩ := Option.ite_none_right_eq_some.mp hs
    obtain rfl := Option.some.inj hs
    have hnew := h.newWaker hlt id
    exact ⟨hnew.alive, hnew.counted, hnew.channel, hnew.senders, hnew.receivers⟩
  | cloneWaker p =>
    obtain ⟨hp, hs⟩ := Option.ite_none_right_eq_some.mp hs
    obtain rfl := Option.some.inj hs
    obtain ⟨hclone, -⟩ := h.clone hp
    exact ⟨hclone.alive, hclone.counted, hclone.channel, hclone.senders, hclone.receivers⟩
  | wake p =>
    obtain ⟨hp, hs⟩ := Option.ite_none_right_eq_some.mp hs
    obtain ⟨t, ht, rfl⟩ := Option.map_eq_some_iff.mp hs
    obtain ⟨⟨u, ok⟩, hu, rfl⟩ := Option.map_eq_some_iff.mp ht
    obtain ⟨hsent, -⟩ := h.sendTaskId hp hu
    obtain ⟨hdrop, -⟩ := hsent.drop hp
    exact ⟨hdrop.alive, hdrop.counted, hdrop.channel, hdrop.senders, hdrop.receivers⟩
  | wakeByRef p =>
    obtain ⟨hp, hs⟩ := Option.ite_none_right_eq_some.mp hs
    obtain ⟨hwake, hwakers⟩ := h.wakeByRef hp hs
    rw [if_pos (hG ⟨p, rfl⟩)] at hwake
    rw [hwakers]
    exact hwake
  | dropWaker p =>
    obtain ⟨hp, hs⟩ := Option.ite_none_right_eq_some.mp hs
    obtain rfl := Option.some.inj hs
    obtain ⟨hdrop, -⟩ := h.drop hp
    exact ⟨hdrop.alive, hdrop.counted, hdrop.channel, hdrop.senders, hdrop.receivers⟩
  | cloneSender =>
    obtain ⟨hlt, hs⟩ := Option.ite_none_right_eq_some.mp hs
    obtain rfl := Option.some.inj hs
    exact h.cloneSender (Nat.zero_lt_of_lt hlt)
  | dropSender =>
    obtain ⟨hlt, hs⟩ := Option.ite_none_right_eq_some.mp hs
    obtain rfl := Option.some.inj hs
    exact h.dropSender hlt
  | tryRecv =>
    obtain ⟨channel, hchannel, rfl⟩ := Option.map_eq_some_iff.mp hs
    exact h.receiver hchannel (.inl rfl)
  | dropReceiver =>
    obtain ⟨channel, hchannel, rfl⟩ := Option.map_eq_some_iff.mp hs
    exact h.receiver hchannel (.inr rfl)

/-- **The way to go wrong**: the count of a cell is one too small. -/
theorem not_sound_of_wakeByRef (h : Owned s s.wakers) (hG : ¬WokenByRef s e)
    (hs : step slots s e = some s') : ¬Sound slots s' := by
  obtain ⟨⟨p, rfl⟩, hdead⟩ := Classical.not_imp.mp hG
  obtain ⟨-, hs⟩ := Option.ite_none_left_eq_some.mp hs
  obtain ⟨hp, hs⟩ := Option.ite_none_right_eq_some.mp hs
  obtain ⟨hwake, hwakers⟩ := h.wakeByRef hp hs
  rw [if_neg hdead] at hwake
  intro hsound
  have hcount := (hwake.counted.strong p).symm.trans (hsound.counted.strong p)
  have hpos := List.count_pos_iff.mpr hp
  rw [hwakers, List.count_erase_self] at hcount
  omega

end Runs

/-- **When wakers are sound.** In a run on a new channel with any wakers, clones of them, drops,
calls and panics, the counts are right in every state, and nothing that has been freed is
touched, if and only if no waker is invoked by reference when the receiver is gone. -/
theorem wakers_sound_iff {slots : SlotLimit} {inner : Spsc.Inner ℕ}
    (hopen : Spsc.Mode.unbounded.channel slots = .ok inner) (es : List Event) :
    Always (step slots) (Sound slots) (start inner) es ↔
      EachStep (step slots) WokenByRef (start inner) es := by
  have hstart : Owned (start inner) (start inner).wakers :=
    ⟨rfl, Rc.counted_empty, Spsc.counted_start hopen, Nat.zero_le _, le_rfl⟩
  exact always_iff_eachStep (fun _ h => Owned.sound slots h) (fun _ _ _ h _ hG hs => h.step hG hs)
    (fun _ _ _ h _ hG hs => not_sound_of_wakeByRef h hG hs) hstart (eachStep_true es)

/-- A task that is polled, and woken through two wakers. -/
theorem wakers_sound_iff_twice :
    Always (step 100) (Sound 100) (start (.fresh (List.replicate 33 none) true))
        [.newWaker 5, .cloneWaker 0, .wakeByRef 0, .wake 0, .dropWaker 0] ↔
      EachStep (step 100) WokenByRef (start (.fresh (List.replicate 33 none) true))
        [.newWaker 5, .cloneWaker 0, .wakeByRef 0, .wake 0, .dropWaker 0] :=
  wakers_sound_iff rfl _

/-- A waker that is left after the panic, and is dropped when the panic unwinds. -/
example : (runList (step 100) (start (.fresh (List.replicate 33 none) true))
    [.newWaker 5, .dropReceiver, .wakeByRef 0, .dropWaker 0]).map State.dangling = some true := by
  rfl

end RawWaker

end Pluvio
