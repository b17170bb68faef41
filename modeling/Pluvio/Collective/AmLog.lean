import Pluvio.Collective.AmProgress

/-!
# The messages of a run

The ranks of `Pluvio.AmNet` with a log of the messages they send and of those that are
delivered to them (`Pluvio.AmNet.logStep`). The log is a history: no rank reads it, and
every run is the run of a log (`Pluvio.AmNet.Logged.reaches`).

In a run of matched programs the log tells the same as the state. What has been sent is
what the ranks have come to, each message once, and what has been delivered is what was
sent and is on no channel any more (`Pluvio.AmNet.LogInv`). When all ranks have
returned, everything that the programs send has been sent and delivered
(`Pluvio.AmNet.LogInv.mem_of_final`).
-/

namespace Pluvio

namespace AmNet

/-- A message that is sent: its stage, its sender, its receiver and its key. -/
structure Posted where
  stage : ℕ
  src : ℕ
  dst : ℕ
  key : RecvKey
  deriving DecidableEq

variable {R α : Type*} [DecidableEq R]

/-- The messages that an event sends. -/
def sentBy (net : Net R α) (s : State R α) : Event → List Posted
  | .poll p m =>
    match net.current s p m, ((s.rank p).chain m).await with
    | some (_, _, i), none => i.sends.map fun sd => ⟨(s.rank p).stage, p, sd.dst, sd.key⟩
    | _, _ => []
  | _ => []

/-- The message that an event delivers. -/
def deliveredBy (s : State R α) : Event → List Posted
  | .deliver p q =>
    (s.chan p q).head?.toList.map fun msg => ⟨msg.payload.origin, p, q, msg.key⟩
  | _ => []

/-- A state, and the messages of the run to it. -/
structure Logged (R α : Type*) where
  state : State R α
  sent : List Posted
  delivered : List Posted

/-- The start, with an empty log. -/
def logStart (heap : ℕ → Heap R α) : Logged R α := ⟨start heap, [], []⟩

/-- One event, and what it adds to the log. -/
def logStep (net : Net R α) (l : Logged R α) (e : Event) : Option (Logged R α) :=
  (step net l.state e).map fun s =>
    ⟨s, l.sent ++ sentBy net l.state e, l.delivered ++ deliveredBy l.state e⟩

/-- **A run of the log is a run of the ranks.** -/
theorem Logged.reaches {net : Net R α} {heap : ℕ → Heap R α} {l : Logged R α}
    (h : Reaches (logStep net) (logStart heap) l) : Reaches (step net) (start heap) l.state := by
  induction h with
  | refl => exact .refl
  | tail _ _ hs ih =>
    obtain ⟨s, hstep, rfl⟩ := Option.map_eq_some_iff.mp hs
    exact ih.tail trivial hstep

/-- **And every run of the ranks has its log.** -/
theorem Logged.exists_log {net : Net R α} {l : Logged R α} {s : State R α}
    (h : Reaches (step net) l.state s) : ∃ l', Reaches (logStep net) l l' ∧ l'.state = s := by
  induction h with
  | refl => exact ⟨l, .refl, rfl⟩
  | tail _ _ hs ih =>
    obtain ⟨l', hl', rfl⟩ := ih
    exact ⟨_, hl'.tail trivial (Option.map_eq_some_iff.mpr ⟨_, hs, rfl⟩), rfl⟩

section Effects

variable {n : ℕ} {prog : ℕ → List (Stage R α)} {P : Layout n prog}
  {eager : ℕ → Name → ℕ → Bool} {time : ℕ → ℕ → ℕ → ℕ → ℕ} {s s' : State R α} {e : Event}

/-- **What an event sends**: a first poll sends what its await point says. -/
theorem mem_sentBy (hs : step ⟨n, prog, eager⟩ s e = some s') {x : Posted} :
    x ∈ sentBy ⟨n, prog, eager⟩ s e ↔ ∃ m, e = .poll x.src m ∧
      ((s.rank x.src).chain m).await = none ∧ x.stage = (s.rank x.src).stage ∧
        Sends P s x.src m x.dst x.key := by
  cases e with
  | poll p m =>
    obtain ⟨hat, -, -, -⟩ := P.step_poll.mp hs
    rw [sentBy, P.current_of_at hat]
    rcases hawait : ((s.rank p).chain m).await with - | a
    · constructor
      · intro hx
        obtain ⟨sd, hsd, rfl⟩ := List.mem_map.mp hx
        obtain ⟨j, hj⟩ := List.mem_iff_getElem?.mp hsd
        exact ⟨m, rfl, hawait, rfl, j, sd, ⟨hat, hj⟩, rfl, rfl⟩
      · rintro ⟨m', he, -, hstage, j, sd, ⟨-, hj⟩, hd, hk⟩
        cases he
        refine List.mem_map.mpr ⟨sd, List.mem_of_getElem? hj, ?_⟩
        rw [hd, hk, ← hstage]
    · refine iff_of_false List.not_mem_nil ?_
      rintro ⟨m', he, hnone, -⟩
      cases he
      cases hawait.symm.trans hnone
  | launch | sent | deliver | advance =>
    refine iff_of_false List.not_mem_nil ?_
    rintro ⟨m, he, -⟩
    cases he

omit [DecidableEq R] in
/-- **What an event delivers**: the first message of a channel. -/
theorem mem_deliveredBy {x : Posted} : x ∈ deliveredBy s e ↔ e = .deliver x.src x.dst ∧
    ∃ msg rest, s.chan x.src x.dst = msg :: rest ∧ msg.payload.origin = x.stage ∧
      msg.key = x.key := by
  cases e with
  | deliver p q =>
    constructor
    · intro hx
      obtain ⟨msg, hmsg, rfl⟩ := List.mem_map.mp hx
      obtain ⟨rest, hchan⟩ := List.head?_eq_some_iff.mp (Option.mem_toList.mp hmsg)
      exact ⟨rfl, msg, rest, hchan, rfl, rfl⟩
    · rintro ⟨he, msg, rest, hchan, horigin, hkey⟩
      cases he
      refine List.mem_map.mpr ⟨msg, ?_, ?_⟩
      · rw [hchan]
        exact List.mem_singleton_self msg
      · rw [horigin, hkey]
  | launch | sent | poll | advance =>
    refine iff_of_false List.not_mem_nil ?_
    rintro ⟨he, -⟩
    cases he

omit [DecidableEq R] in
/-- A step that replaces a rank by one that the messages cannot tell from it. -/
theorem issued_update_same {p : ℕ} {r : Rank R α} (hsame : (s.rank p).Same P p r)
    (i p' q : ℕ) (κ : RecvKey) :
    Issued P { s with rank := Function.update s.rank p r } i p' q κ ↔ Issued P s i p' q κ := by
  refine exists₄_congr fun m k j sd => and_congr_right fun hsend => ?_
  refine and_congr_right fun _ => and_congr_right fun _ => ?_
  exact (hsame.update p').started i m k hsend.1

/-- **What has been issued after a step**: what had been, and what the event sends. -/
theorem Inv.issued_step (h : Inv P s) (hs : AmNet.step ⟨n, prog, eager⟩ s e = some s')
    (x : Posted) : Issued P s' x.stage x.src x.dst x.key ↔
      Issued P s x.stage x.src x.dst x.key ∨ x ∈ sentBy ⟨n, prog, eager⟩ s e := by
  have hsent := mem_sentBy hs (x := x) (P := P)
  -- an event that is no first poll
  have hsame : (∀ m, e = .poll x.src m → ((s.rank x.src).chain m).await ≠ none) →
      (Issued P s' x.stage x.src x.dst x.key ↔ Issued P s x.stage x.src x.dst x.key) →
        (Issued P s' x.stage x.src x.dst x.key ↔ Issued P s x.stage x.src x.dst x.key ∨
          x ∈ sentBy ⟨n, prog, eager⟩ s e) := by
    intro hpoll heq
    rw [heq, hsent, iff_self_or]
    rintro ⟨m, he, hawait, -⟩
    exact absurd hawait (hpoll m he)
  rcases e with p | ⟨p, m⟩ | ⟨p, m, j⟩ | ⟨p, q⟩ | p
  · obtain ⟨hp, hi, hl, hw, rfl⟩ := P.step_launch.mp hs
    obtain ⟨-, hrank⟩ := (h.ranks p hp).launch hp hi hl hw
    exact hsame (fun m he => nomatch he) (issued_update_same hrank ..)
  · obtain ⟨hat, hm, -, ⟨hawait, rfl⟩ | ⟨a, hawait, hcomplete, rfl⟩⟩ := P.step_poll.mp hs
    · rw [issued_issue hat, hsent]
      refine or_congr_right ⟨?_, ?_⟩
      · rintro ⟨rfl, hstage, hsends⟩
        exact ⟨m, rfl, hawait, hstage, hsends⟩
      · rintro ⟨m', he, -, hstage, hsends⟩
        cases he
        exact ⟨rfl, hstage, hsends⟩
    · obtain ⟨-, hrank⟩ := (h.ranks p hat.rank).proceed hat hm hawait hcomplete _
      refine hsame (fun m' he => ?_) (issued_update_same hrank ..)
      cases he
      rw [hawait]
      exact Option.some_ne_none a
  · obtain ⟨a, sd, hawait, hsend, -, -, rfl⟩ := P.step_sent.mp hs
    have hlocal := h.ranks p hsend.1.rank
    obtain ⟨-, hrank⟩ := hlocal.sent (hlocal.launched_of_await hawait) hawait j
    exact hsame (fun m he => nomatch he) (issued_update_same hrank ..)
  · obtain ⟨msg, rest, -, rfl⟩ := step_deliver.mp hs
    exact hsame (fun m he => nomatch he) (issued_congr (started_of_node rfl))
  · obtain ⟨hp, hi, hl, hr, rfl⟩ := P.step_advance.mp hs
    obtain ⟨-, hrank⟩ := (h.ranks p hp).advance hi hl hr
    exact hsame (fun m he => nomatch he) (issued_update_same hrank ..)

/-- **What is on a channel after a step**: what was there and what the event sends, but
for what it delivers. -/
theorem Inv.onChannel_step (h : Inv P s) (hs : AmNet.step ⟨n, prog, eager⟩ s e = some s')
    (x : Posted) : OnChannel s' x.stage x.src x.dst x.key ↔
      (OnChannel s x.stage x.src x.dst x.key ∨ x ∈ sentBy ⟨n, prog, eager⟩ s e) ∧
        x ∉ deliveredBy s e := by
  have hsent := mem_sentBy hs (x := x) (P := P)
  have hdelivered := mem_deliveredBy (s := s) (e := e) (x := x)
  -- an event that is no first poll and no delivery
  have hsame : (∀ m, e = .poll x.src m → ((s.rank x.src).chain m).await ≠ none) →
      (e ≠ .deliver x.src x.dst) → s'.chan = s.chan →
        (OnChannel s' x.stage x.src x.dst x.key ↔ (OnChannel s x.stage x.src x.dst x.key ∨
          x ∈ sentBy ⟨n, prog, eager⟩ s e) ∧ x ∉ deliveredBy s e) := by
    intro hpoll hdeliver hchan
    have hsent : x ∉ sentBy ⟨n, prog, eager⟩ s e := by
      rw [hsent]
      rintro ⟨m, he, hawait, -⟩
      exact absurd hawait (hpoll m he)
    have hdelivered : x ∉ deliveredBy s e := fun hx => hdeliver (hdelivered.mp hx).1
    rw [or_iff_left hsent, and_iff_left hdelivered, OnChannel, OnChannel, hchan]
  rcases e with p | ⟨p, m⟩ | ⟨p, m, j⟩ | ⟨p, q⟩ | p
  · obtain ⟨hp, hi, hl, hw, rfl⟩ := P.step_launch.mp hs
    exact hsame (fun m he => by cases he) (fun he => by cases he) rfl
  · obtain ⟨hat, hm, -, ⟨hawait, rfl⟩ | ⟨a, hawait, hcomplete, rfl⟩⟩ := P.step_poll.mp hs
    · have hdelivered : x ∉ deliveredBy s (.poll p m) := List.not_mem_nil
      rw [onChannel_issue hat rfl, hsent, and_iff_left hdelivered]
      refine or_congr_right ⟨?_, ?_⟩
      · rintro ⟨rfl, hstage, hsends⟩
        exact ⟨m, rfl, hawait, hstage, hsends⟩
      · rintro ⟨m', he, -, hstage, hsends⟩
        cases he
        exact ⟨rfl, hstage, hsends⟩
    · refine hsame (fun m' he => ?_) (fun he => by cases he) rfl
      cases he
      rw [hawait]
      exact Option.some_ne_none a
  · obtain ⟨a, sd, hawait, hsend, -, -, rfl⟩ := P.step_sent.mp hs
    exact hsame (fun m he => by cases he) (fun he => by cases he) rfl
  · obtain ⟨msg, rest, hchan, rfl⟩ := step_deliver.mp hs
    have hsent : x ∉ sentBy ⟨n, prog, eager⟩ s (.deliver p q) := List.not_mem_nil
    rw [or_iff_left hsent, hdelivered]
    constructor
    · intro hon
      obtain ⟨hon, hlater⟩ := h.messages.of_popChan hchan rfl hon
      refine ⟨hon, ?_⟩
      rintro ⟨he, msg', rest', hchan', horigin, hkey⟩
      cases he
      cases hchan.symm.trans hchan'
      exact absurd (hlater rfl rfl hkey.symm) (by omega)
    · rintro ⟨hon, hnot⟩
      refine (onChannel_popChan hchan rfl hon).resolve_right ?_
      rintro ⟨hp, hq, hkey, hstage⟩
      refine hnot ⟨by rw [hp, hq], msg, rest, ?_, hstage.symm, hkey.symm⟩
      rw [hp, hq, hchan]
  · obtain ⟨hp, hi, hl, hr, rfl⟩ := P.step_advance.mp hs
    exact hsame (fun m he => by cases he) (fun he => by cases he) rfl

end Effects

/-! ### The log and the state -/

section Invariant

variable {n : ℕ} {prog : ℕ → List (Stage R α)} (P : Layout n prog)

/-- **The log tells the same as the state.** -/
structure LogInv (l : Logged R α) : Prop where
  inv : Inv P l.state
  /-- Each message is sent once, -/
  sent_nodup : l.sent.Nodup
  /-- and delivered once. -/
  delivered_nodup : l.delivered.Nodup
  mem_sent : ∀ x, x ∈ l.sent ↔ Issued P l.state x.stage x.src x.dst x.key
  mem_delivered : ∀ x, x ∈ l.delivered ↔
    x ∈ l.sent ∧ ¬OnChannel l.state x.stage x.src x.dst x.key

variable {P} {eager : ℕ → Name → ℕ → Bool} {time : ℕ → ℕ → ℕ → ℕ → ℕ} {l l' : Logged R α}
  {e : Event}

omit [DecidableEq R] in
theorem logInv_start (P : Layout n prog) (heap : ℕ → Heap R α) : LogInv P (logStart heap) where
  inv := inv_start P heap
  sent_nodup := .nil
  delivered_nodup := .nil
  mem_sent x := by
    refine iff_of_false List.not_mem_nil ?_
    rintro ⟨m, k, j, sd, -, -, -, hst⟩
    exact not_started_start heap x.src x.stage m k hst
  mem_delivered x := iff_of_false List.not_mem_nil fun h => List.not_mem_nil h.1

/-- A first poll sends messages for different ranks or under different keys. -/
theorem sentBy_nodup (hM : P.Matched time) {s s' : State R α}
    (hs : step ⟨n, prog, eager⟩ s e = some s') : (sentBy ⟨n, prog, eager⟩ s e).Nodup := by
  cases e with
  | poll p m =>
    obtain ⟨hat, -, -, -⟩ := P.step_poll.mp hs
    rw [sentBy, P.current_of_at hat]
    rcases ((s.rank p).chain m).await with - | a
    · refine List.pairwise_map.mpr (List.pairwise_iff_getElem.mpr ?_)
      intro j j' hj hj' hlt heq
      obtain ⟨-, -, hdst, hkey⟩ := Posted.mk.inj heq
      exact absurd (hM.send_unique ⟨hat, List.getElem?_eq_getElem hj⟩
        ⟨hat, List.getElem?_eq_getElem hj'⟩ hdst hkey).2.2.2 hlt.ne
    · exact .nil
  | launch | sent | deliver | advance => exact .nil

/-- **Every step keeps the log true.** -/
theorem LogInv.step (h : LogInv P l) (hM : P.Matched time) (hin : InTime l.state e)
    (hlog : logStep ⟨n, prog, eager⟩ l e = some l') : LogInv P l' := by
  obtain ⟨s', hs, rfl⟩ := Option.map_eq_some_iff.mp hlog
  have hissued := h.inv.issued_step hs
  have honchan := h.inv.onChannel_step hs
  -- what is sent is new
  have hnew : ∀ x ∈ sentBy ⟨n, prog, eager⟩ l.state e,
      ¬Issued P l.state x.stage x.src x.dst x.key := by
    intro x hx
    obtain ⟨m, -, hawait, hstage, hsends⟩ := (mem_sentBy hs).mp hx
    rw [hstage]
    exact hsends.not_issued hM hawait
  -- what is delivered was on its channel
  have hwas : ∀ x ∈ deliveredBy l.state e, OnChannel l.state x.stage x.src x.dst x.key := by
    intro x hx
    obtain ⟨-, msg, rest, hchan, horigin, hkey⟩ := mem_deliveredBy.mp hx
    rw [← horigin, ← hkey]
    exact onChannel_head hchan
  have hmem : ∀ x, x ∈ l.sent ++ sentBy ⟨n, prog, eager⟩ l.state e ↔
      Issued P s' x.stage x.src x.dst x.key := by
    intro x
    rw [List.mem_append, h.mem_sent, hissued]
  refine ⟨h.inv.step hM hin hs, ?_, ?_, hmem, fun x => ?_⟩
  · refine List.nodup_append'.mpr ⟨h.sent_nodup, sentBy_nodup hM hs, ?_⟩
    exact fun x hx hx' => hnew x hx' ((h.mem_sent x).mp hx)
  · refine List.nodup_append'.mpr ⟨h.delivered_nodup, ?_, ?_⟩
    · cases e with
      | deliver p q =>
        refine List.Nodup.map_on (fun a ha b hb _ => ?_) ?_
        · rw [Option.mem_toList] at ha hb
          exact Option.some.inj (ha.symm.trans hb)
        · cases (l.state.chan p q).head? <;> simp
      | launch | sent | poll | advance => exact .nil
    · exact fun x hx hx' => ((h.mem_delivered x).mp hx).2 (hwas x hx')
  · rw [List.mem_append, h.mem_delivered, hmem, hissued, honchan, h.mem_sent]
    constructor
    · rintro (⟨hiss, hon⟩ | hx)
      · refine ⟨.inl hiss, ?_⟩
        rintro ⟨hon' | hsent, -⟩
        · exact hon hon'
        · exact hnew x hsent hiss
      · exact ⟨.inl (h.inv.messages.chan_issued _ _ _ _ (hwas x hx)), fun hc => hc.2 hx⟩
    · rintro ⟨hiss, hnot⟩
      by_cases hx : x ∈ deliveredBy l.state e
      · exact .inr hx
      · have hoff : ¬(OnChannel l.state x.stage x.src x.dst x.key ∨
            x ∈ sentBy ⟨n, prog, eager⟩ l.state e) := fun hc => hnot ⟨hc, hx⟩
        exact .inl ⟨hiss.resolve_right fun hc => hoff (.inr hc), fun hc => hoff (.inl hc)⟩

omit [DecidableEq R] in
/-- **When all ranks have returned**, everything that the programs send has been sent and
delivered, and nothing else. -/
theorem LogInv.mem_of_final (h : LogInv P l) (hM : P.Matched time)
    (hfinal : Final ⟨n, prog, eager⟩ l.state) (x : Posted) :
    (x ∈ l.sent ↔ ∃ m k j sd, P.IsSend x.stage x.src m k j sd ∧ sd.dst = x.dst ∧
      sd.key = x.key) ∧ (x ∈ l.delivered ↔ x ∈ l.sent) := by
  have hpassed : ∀ {i p}, i < P.stages → p < n → i < (l.state.rank p).stage := by
    intro i p hi hp
    refine hi.trans_eq ((hfinal p hp).symm ▸ ?_)
    show P.stages = (prog p).length
    rw [P.length_prog hp]
  have hsent : x ∈ l.sent ↔ ∃ m k j sd, P.IsSend x.stage x.src m k j sd ∧ sd.dst = x.dst ∧
      sd.key = x.key := by
    rw [h.mem_sent]
    constructor
    · rintro ⟨m, k, j, sd, hsend, hd, hk, -⟩
      exact ⟨m, k, j, sd, hsend, hd, hk⟩
    · rintro ⟨m, k, j, sd, hsend, hd, hk⟩
      exact ⟨m, k, j, sd, hsend, hd, hk, .inl (hpassed hsend.1.stage hsend.1.rank)⟩
  refine ⟨hsent, ?_⟩
  rw [h.mem_delivered, and_iff_left_iff_imp]
  rintro hx
  obtain ⟨m, k, j, sd, hsend, hd, hk⟩ := hsent.mp hx
  obtain ⟨k', t, hrecv⟩ := hM.receiver hsend
  rw [hd, hk] at hrecv
  have hdone := (h.inv.ranks _ hrecv.1.rank).taken _ m k' _ t hrecv
    (.inl (hpassed hrecv.1.stage hrecv.1.rank))
  exact fun hon => h.inv.messages.chan_not_taken _ _ _ _ hon ⟨m, k', t, hrecv, hdone⟩

end Invariant

end AmNet

end Pluvio
