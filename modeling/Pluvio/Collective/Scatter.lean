import Pluvio.Collective.AmPlan

/-!
# Scatter

The root copies its own chunk and sends each of the other ranks the chunk that is
theirs; these make a single receive. All messages of a call have the same header,
which names the root twice and the call not at all.

`Pluvio.scatter` is the source, and `Pluvio.scatterPlan` lays a call out for all
ranks. Two calls use a key towards a rank from the same rank unless their roots are
different and have the same low 16 bits (`Pluvio.scatterPlan_sameSender`).
-/

namespace Pluvio

open AmNet

variable {α : Type*}

/-- `PHASE_SCATTER`. -/
def phaseScatter : UInt8 := 2

section Source

variable (comm : UcxCommunicator) (call : ℕ) (sendLen : Option ℕ) (chunk root : ℕ)

/-- The header of all messages of a call. -/
def scatterHeader : AmHeader := ⟨UInt16.ofNat root, UInt16.ofNat root, phaseScatter, 0⟩

/-- The copy of a chunk of `send_buf` to `recv_buf`. -/
def scatterCopy (off : ℕ) : Instr Region α where
  sends := []
  recv := none
  after h := h.copyInto ⟨(call, .buf), 0, chunk⟩ (h.read ⟨(call, .send), off, chunk⟩)

/-- The sends, which the loop collects before any of them is polled. -/
def scatterSends : List ℕ → Except CollectiveError (List (Send Region))
  | [] => .ok []
  | r :: rs =>
    if r = root then scatterSends rs
    else
      match comm.endpoint r with
      | none => .error (.protocol "scatter: missing endpoint")
      | some ep => (scatterSends rs).map
          (⟨ep, scatterHeader root, ⟨(call, .send), r * chunk, chunk⟩⟩ :: ·)

/-- The receive of a rank that is not the root. -/
def scatterRecv : Instr Region α where
  sends := []
  recv := some (.ofHeader (scatterHeader root), ⟨(call, .buf), 0, chunk⟩)
  after := id

/-- `scatter`, with `sendLen` elements in `send_buf`, if there is one, and `chunk` in
`recv_buf`. -/
def scatter : Call (Stage Region α) :=
  let n := comm.size
  let rank := comm.rank
  if n ≤ root then ⟨[], .error (.protocol "scatter: root out of range")⟩
  else if n = 1 then
    match sendLen with
    | none => ⟨[], .error (.protocol "scatter: send_buf required at root")⟩
    | some l =>
      if l ≠ chunk then ⟨[], .error .badShape⟩
      else ⟨[⟨1, [[scatterCopy call chunk 0]]⟩], .ok ()⟩
  else if rank = root then
    match sendLen with
    | none => ⟨[], .error (.protocol "scatter: send_buf required at root")⟩
    | some l =>
      if l ≠ chunk * n then ⟨[], .error .badShape⟩
      else
        let copy := scatterCopy call chunk (rank * chunk)
        match scatterSends comm call chunk root (List.range n) with
        | .error e => ⟨[⟨1, [[copy]]⟩], .error e⟩
        | .ok sends => ⟨[⟨1, [[copy, ⟨sends, none, id⟩]]⟩], .ok ()⟩
  else ⟨[⟨1, [[scatterRecv call chunk root]]⟩], .ok ()⟩

end Source

/-! ### The plan -/

variable {n call chunk root p q m k : ℕ}

/-- What the root sends to rank `r`. -/
def scatterSend (call chunk root r : ℕ) : Send Region :=
  ⟨r, scatterHeader root, ⟨(call, .send), r * chunk, chunk⟩⟩

/-- The key of all messages of a call. -/
def scatterKey (root : ℕ) : RecvKey := .ofHeader (scatterHeader root)

/-- The ranks the root sends to. -/
def scatterOthers (n root : ℕ) : List ℕ := (List.range n).filter fun r => r ≠ root

theorem mem_scatterOthers : q ∈ scatterOthers n root ↔ q < n ∧ q ≠ root := by
  rw [scatterOthers, List.mem_filter, List.mem_range, decide_eq_true_iff]

theorem nodup_scatterOthers (n root : ℕ) : (scatterOthers n root).Nodup :=
  List.nodup_range.filter _

/-- **The loop** of a root that is connected to all the others. -/
theorem scatterSends_eq (call chunk root : ℕ) {rs : List ℕ} (hrs : ∀ r ∈ rs, r < n) :
    scatterSends (.connected n root) call chunk root rs =
      .ok ((rs.filter fun r => r ≠ root).map (scatterSend call chunk root)) := by
  induction rs with
  | nil => rfl
  | cons r rs ih =>
    obtain ⟨hr, hrs⟩ := List.forall_mem_cons.mp hrs
    by_cases hroot : r = root
    · rw [scatterSends, if_pos hroot, ih hrs, List.filter_cons_of_neg (by simpa using hroot)]
    · rw [scatterSends, if_neg hroot, UcxCommunicator.endpoint_connected hr hroot, ih hrs,
        List.filter_cons_of_pos (by simpa using hroot)]
      rfl

/-- The await points of a call. -/
def scatterInstr (n call chunk root p k : ℕ) : Instr Region α :=
  if p = root then
    if k = 0 then scatterCopy call chunk (root * chunk)
    else ⟨(scatterOthers n root).map (scatterSend call chunk root), none, id⟩
  else scatterRecv call chunk root

theorem scatterLen_pos (root p : ℕ) : 0 < if p = root then 2 else 1 := by
  split <;> omega

/-- **A call, laid out for all ranks.** -/
def scatterPlan (α : Type*) (n call chunk root : ℕ) : Plan n Region α where
  width := 1
  window := 1
  len p _ := if p = root then 2 else 1
  instr p _ k := scatterInstr n call chunk root p k
  window_pos := Nat.one_pos
  len_pos p _ _ _ := scatterLen_pos root p

/-- **A call with a good shape** goes through the plan and returns `Ok`. -/
theorem scatter_eq (hn : 2 ≤ n) (hroot : root < n) {sendLen : Option ℕ}
    (hsend : p = root → sendLen = some (chunk * n)) :
    (scatter (.connected n p) call sendLen chunk root : Call (Stage Region α)) =
      ⟨[(scatterPlan α n call chunk root).stage p], .ok ()⟩ := by
  have hsize : (UcxCommunicator.connected n p).size = n := rfl
  have hrank : (UcxCommunicator.connected n p).rank = p := rfl
  unfold scatter
  rw [hsize, hrank]
  dsimp only
  rw [if_neg (Nat.not_le.mpr hroot), if_neg (by omega)]
  by_cases hp : p = root
  · subst hp
    rw [if_pos rfl, hsend rfl]
    dsimp only
    rw [if_neg (not_not.mpr rfl), scatterSends_eq _ _ _ fun r => List.mem_range.mp]
    simp only [Plan.stage, scatterPlan, scatterInstr, scatterOthers, if_true]
    rfl
  · rw [if_neg hp]
    simp only [Plan.stage, scatterPlan, scatterInstr, if_neg hp]
    rfl

/-- A call with a root that is not a rank returns an error at once, at every rank. -/
theorem scatter_of_root_le (hroot : n ≤ root) (p call : ℕ) (sendLen : Option ℕ) (chunk : ℕ) :
    (scatter (.connected n p) call sendLen chunk root : Call (Stage Region α)) =
      ⟨[], .error (.protocol "scatter: root out of range")⟩ := if_pos hroot

theorem scatterPlan_isSend {j : ℕ} {sd : Send Region} (hroot : root < n) :
    (scatterPlan α n call chunk root).IsSend p m k j sd ↔ p = root ∧ m = 0 ∧ k = 1 ∧
      ∃ r, (scatterOthers n root)[j]? = some r ∧ sd = scatterSend call chunk root r := by
  constructor
  · rintro ⟨hat, hsd⟩
    have hm : m < 1 := hat.chain
    have hk : k < if p = root then 2 else 1 := hat.pos
    have hsd : (scatterInstr (α := α) n call chunk root p k).sends[j]? = some sd := hsd
    by_cases hp : p = root
    · rw [if_pos hp] at hk
      rcases (show k = 0 ∨ k = 1 by omega) with rfl | rfl
      · rw [scatterInstr, if_pos hp, if_pos rfl] at hsd
        exact nomatch hsd
      · rw [scatterInstr, if_pos hp, if_neg Nat.one_ne_zero] at hsd
        obtain ⟨r, hr, rfl⟩ := Option.map_eq_some_iff.mp ((List.getElem?_map ..).symm.trans hsd)
        exact ⟨hp, by omega, rfl, r, hr, rfl⟩
    · rw [scatterInstr, if_neg hp] at hsd
      exact nomatch hsd
  · rintro ⟨rfl, rfl, rfl, r, hr, rfl⟩
    refine ⟨⟨hroot, Nat.one_pos, ?_⟩, ?_⟩
    · show 1 < if p = p then 2 else 1
      rw [if_pos rfl]
      exact Nat.one_lt_two
    · show (scatterInstr (α := α) n call chunk p p 1).sends[j]? = _
      rw [scatterInstr, if_pos rfl, if_neg Nat.one_ne_zero]
      show ((scatterOthers n p).map (scatterSend call chunk p))[j]? = _
      rw [List.getElem?_map, hr]
      rfl

theorem scatterPlan_isRecv {κ : RecvKey} {t : Slice Region} :
    (scatterPlan α n call chunk root).IsRecv q m k κ t ↔ q < n ∧ q ≠ root ∧ m = 0 ∧ k = 0 ∧
      κ = scatterKey root ∧ t = ⟨(call, .buf), 0, chunk⟩ := by
  constructor
  · rintro ⟨hat, hrecv⟩
    have hm : m < 1 := hat.chain
    have hk : k < if q = root then 2 else 1 := hat.pos
    have hrecv : (scatterInstr (α := α) n call chunk root q k).recv = some (κ, t) := hrecv
    by_cases hq : q = root
    · rw [scatterInstr, if_pos hq] at hrecv
      split at hrecv <;> exact nomatch hrecv
    · rw [if_neg hq] at hk
      rw [scatterInstr, if_neg hq] at hrecv
      obtain ⟨rfl, rfl⟩ := Prod.mk.inj (Option.some.inj hrecv)
      exact ⟨hat.rank, hq, by omega, by omega, rfl, rfl⟩
  · rintro ⟨hq, hne, rfl, rfl, rfl, rfl⟩
    refine ⟨⟨hq, Nat.one_pos, ?_⟩, ?_⟩
    · show 0 < if q = root then 2 else 1
      rw [if_neg hne]
      exact Nat.one_pos
    · show (scatterInstr (α := α) n call chunk root q 0).recv = _
      rw [scatterInstr, if_neg hne]
      rfl

/-- The sends of the root come before the receives. -/
def scatterTime (root p k : ℕ) : ℕ := if p = root then k else k + 1

/-- **Sends and receives of a call match**: the root sends one message to each of the
others. -/
theorem scatterPlan_matched (hroot : root < n) :
    (scatterPlan α n call chunk root).Matched fun p _ k => scatterTime root p k := by
  constructor
  · intro p m k k' hlt
    unfold scatterTime
    split <;> omega
  · intro p m k j sd p' m' k' j' sd' hs hs' hdst _
    obtain ⟨rfl, rfl, rfl, r, hr, rfl⟩ := (scatterPlan_isSend hroot).mp hs
    obtain ⟨rfl, rfl, rfl, r', hr', rfl⟩ := (scatterPlan_isSend hroot).mp hs'
    obtain rfl : r = r' := hdst
    have hj := (List.getElem?_eq_some_iff.mp hr).1
    exact ⟨rfl, rfl, rfl, (List.getElem?_inj hj (nodup_scatterOthers n p')).mp
      (hr.trans hr'.symm)⟩
  · intro q m k m' k' κ t t' h h'
    obtain ⟨-, -, rfl, rfl, -⟩ := scatterPlan_isRecv.mp h
    obtain ⟨-, -, rfl, rfl, -⟩ := scatterPlan_isRecv.mp h'
    exact ⟨rfl, rfl⟩
  · intro q m k κ t h
    obtain ⟨hq, hne, rfl, rfl, rfl, rfl⟩ := scatterPlan_isRecv.mp h
    obtain ⟨j, hj⟩ := List.mem_iff_getElem?.mp (mem_scatterOthers.mpr ⟨hq, hne⟩)
    refine ⟨root, 1, j, scatterSend call chunk root q,
      (scatterPlan_isSend hroot).mpr ⟨rfl, rfl, rfl, q, hj, rfl⟩, rfl, rfl, ?_⟩
    rw [scatterTime, scatterTime, if_pos rfl, if_neg hne]
  · intro p m k j sd hs
    obtain ⟨rfl, rfl, rfl, r, hr, rfl⟩ := (scatterPlan_isSend hroot).mp hs
    obtain ⟨hlt, hne⟩ := mem_scatterOthers.mp (List.mem_of_getElem? hr)
    exact ⟨0, _, scatterPlan_isRecv.mpr ⟨hlt, hne, rfl, rfl, rfl, rfl⟩⟩

/-- The phase of the keys. -/
theorem phase_scatterPlan (hroot : root < n) {j : ℕ} {sd : Send Region}
    (hs : (scatterPlan α n call chunk root).IsSend p m k j sd) : sd.key.phase = phaseScatter := by
  obtain ⟨-, -, -, r, -, rfl⟩ := (scatterPlan_isSend hroot).mp hs
  rfl

/-- **Two calls use a key from the same rank**, if roots that look the same in a header
are the same. -/
theorem scatterPlan_sameSender {call' chunk' root' : ℕ} (hroot : root < n) (hroot' : root' < n)
    (happart : UInt16.ofNat root = UInt16.ofNat root' → root = root') :
    (scatterPlan α n call chunk root).SameSender (scatterPlan α n call' chunk' root') := by
  intro p m k j sd p' m' k' j' sd' hs hs' _ hkey
  obtain ⟨rfl, -, -, r, -, rfl⟩ := (scatterPlan_isSend hroot).mp hs
  obtain ⟨rfl, -, -, r', -, rfl⟩ := (scatterPlan_isSend hroot').mp hs'
  exact happart (congrArg RecvKey.src hkey)

end Pluvio
