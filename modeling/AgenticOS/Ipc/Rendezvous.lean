import AgenticOS.Ipc.Mailbox

/-!
# The rendezvous under concurrent callers

Any number of threads run the blocking `send` and `receive` on one endpoint.
Each load or store of the state byte, and each read or write of the message,
is one step; a spin that does not find the state it waits for leaves the state
alone. As for the mailbox, messages carry the call that sent them, and the
state logs what was started, what was received and which sends returned, with
the time of each event.

The state byte is loaded and stored in separate steps, so two senders may both
find it `IDLE`. When every load that finds `IDLE` is made while no other send
is between such a load and its store of `PENDING`, and likewise for receives
and `PENDING`, then one send at a time owns the cell, from that load until it
stores `IDLE` again.
-/

namespace AgenticOS

open Foundation List Function

inductive HandoffPoint where
  | loadIdle
  | writeMessage
  | storePending
  | loadTaken
  | storeIdle
  deriving DecidableEq

inductive TakePoint (κ : Type) where
  | loadPending
  | readMessage
  | storeTaken (msg : Option (Sent κ)) (readAt : Nat)
  deriving DecidableEq

inductive RendezvousCall (κ : Type) where
  | idle
  | sending (msg : Sent κ) (point : HandoffPoint)
  | receiving (point : TakePoint κ)
  deriving DecidableEq

/-- A `receive` that returned: what it yields, when it read the cell, and when
it stored `TAKEN`. -/
structure Receipt (κ : Type) where
  message : Option (Sent κ)
  readAt : Nat
  doneAt : Nat
  deriving DecidableEq

structure Rendezvous (κ : Type) where
  ep : Endpoint (Option (Sent κ))
  calls : κ → RendezvousCall κ
  clock : Nat
  started : List (Sent κ)
  receipts : List (Receipt κ)
  returned : List (Sent κ × Nat)

inductive RendezvousStep where
  | send (msg : Message)
  | receive
  | advance
  deriving DecidableEq

namespace RendezvousCall

variable {κ : Type}

/-- A send that found `IDLE` and has not stored it again. -/
def Owning : RendezvousCall κ → Prop
  | .sending _ p => p ≠ .loadIdle
  | _ => False

/-- A send between its load of `IDLE` and its store of `PENDING`. -/
def Depositing : RendezvousCall κ → Prop
  | .sending _ .writeMessage => True
  | .sending _ .storePending => True
  | _ => False

/-- A receive between its load of `PENDING` and its store of `TAKEN`. -/
def Taking : RendezvousCall κ → Prop
  | .receiving p => p ≠ .loadPending
  | _ => False

instance : (c : RendezvousCall κ) → Decidable c.Depositing
  | .sending _ .writeMessage | .sending _ .storePending => .isTrue trivial
  | .idle | .receiving _ | .sending _ .loadIdle | .sending _ .loadTaken
  | .sending _ .storeIdle => .isFalse id

instance [DecidableEq κ] : (c : RendezvousCall κ) → Decidable c.Taking
  | .receiving p => inferInstanceAs (Decidable (p ≠ .loadPending))
  | .idle | .sending _ _ => .isFalse id

end RendezvousCall

namespace Rendezvous

variable {κ : Type} [DecidableEq κ]

def boot : Rendezvous κ := ⟨.new none, fun _ => .idle, 0, [], [], []⟩

def goto (s : Rendezvous κ) (t : κ) (c : RendezvousCall κ) : Rendezvous κ :=
  { s with calls := Function.update s.calls t c }

def advance (s : Rendezvous κ) (t : κ) : Rendezvous κ :=
  match s.calls t with
  | .idle => s
  | .sending msg .loadIdle =>
    if s.ep.state = stateIdle then s.goto t (.sending msg .writeMessage) else s
  | .sending msg .writeMessage =>
    { s.goto t (.sending msg .storePending) with
      ep := { s.ep with message := some msg } }
  | .sending msg .storePending =>
    { s.goto t (.sending msg .loadTaken) with
      ep := { s.ep with state := stateMessagePending } }
  | .sending msg .loadTaken =>
    if s.ep.state = stateMessageTaken then s.goto t (.sending msg .storeIdle) else s
  | .sending msg .storeIdle =>
    { s.goto t .idle with
      ep := { s.ep with state := stateIdle }
      returned := s.returned ++ [(msg, s.clock)] }
  | .receiving .loadPending =>
    if s.ep.state = stateMessagePending then s.goto t (.receiving .readMessage) else s
  | .receiving .readMessage =>
    s.goto t (.receiving (.storeTaken s.ep.message s.clock))
  | .receiving (.storeTaken msg readAt) =>
    { s.goto t .idle with
      ep := { s.ep with state := stateMessageTaken }
      receipts := s.receipts ++ [⟨msg, readAt, s.clock⟩] }

def act (s : Rendezvous κ) : κ × RendezvousStep → Rendezvous κ
  | (t, .send msg) =>
    if s.calls t = .idle then
      { s.goto t (.sending ⟨s.clock, t, msg⟩ .loadIdle) with
        started := s.started ++ [⟨s.clock, t, msg⟩] }
    else s
  | (t, .receive) =>
    if s.calls t = .idle then s.goto t (.receiving .loadPending) else s
  | (t, .advance) => s.advance t

def tick (s : Rendezvous κ) : Rendezvous κ := { s with clock := s.clock + 1 }

def step (s : Rendezvous κ) (a : κ × RendezvousStep) : Rendezvous κ := (s.act a).tick

/-- The next step of the call does not find the state it waits for while
another call of its kind is between such a find and its own store. -/
def Alone (s : Rendezvous κ) : RendezvousCall κ → Prop
  | .sending _ .loadIdle =>
    s.ep.state = stateIdle → ∀ t, ¬ (s.calls t).Depositing
  | .receiving .loadPending =>
    s.ep.state = stateMessagePending → ∀ t, ¬ (s.calls t).Taking
  | _ => True

def Exclusive (s : Rendezvous κ) : κ × RendezvousStep → Prop
  | (t, .advance) => s.Alone (s.calls t)
  | _ => True

instance [Fintype κ] (s : Rendezvous κ) :
    (c : RendezvousCall κ) → Decidable (s.Alone c)
  | .sending _ .loadIdle =>
    inferInstanceAs (Decidable (s.ep.state = stateIdle →
      ∀ t, ¬ (s.calls t).Depositing))
  | .receiving .loadPending =>
    inferInstanceAs (Decidable (s.ep.state = stateMessagePending →
      ∀ t, ¬ (s.calls t).Taking))
  | .idle | .sending _ .writeMessage | .sending _ .storePending
  | .sending _ .loadTaken | .sending _ .storeIdle | .receiving .readMessage
  | .receiving (.storeTaken _ _) => .isTrue trivial

instance [Fintype κ] (s : Rendezvous κ) :
    (a : κ × RendezvousStep) → Decidable (s.Exclusive a)
  | (t, .advance) => inferInstanceAs (Decidable (s.Alone (s.calls t)))
  | (_, .send _) | (_, .receive) => .isTrue trivial

variable {s s' : Rendezvous κ} {m : Sent κ}

/-! ## The invariant -/

def Unreceived (s : Rendezvous κ) (m : Sent κ) : Prop :=
  ∀ rc ∈ s.receipts, rc.message ≠ some m

/-- A receive has yielded the message since its send started. -/
def Received (s : Rendezvous κ) (m : Sent κ) : Prop :=
  ∃ rc ∈ s.receipts, rc.message = some m ∧ m.id < rc.readAt ∧ rc.doneAt < s.clock

def SendAt (s : Rendezvous κ) (m : Sent κ) : HandoffPoint → Prop
  | .loadIdle => s.Unreceived m
  | .writeMessage => s.ep.state = stateIdle ∧ s.Unreceived m
  | .storePending =>
    s.ep.state = stateIdle ∧ s.ep.message = some m ∧ s.Unreceived m
  | .loadTaken =>
    (s.ep.state = stateMessagePending ∧ s.ep.message = some m ∧ s.Unreceived m) ∨
      (s.ep.state = stateMessageTaken ∧ s.Received m)
  | .storeIdle => s.ep.state = stateMessageTaken ∧ s.Received m

/-- What a receive may rely on once it has read the message. -/
def TakeAt (s : Rendezvous κ) : TakePoint κ → Prop
  | .storeTaken msg readAt =>
    msg = s.ep.message ∧ readAt < s.clock ∧ ∀ m, msg = some m → m.id < readAt
  | _ => True

/-- One send owns the cell, and the state byte says how far it is. -/
structure Control (s : Rendezvous κ) : Prop where
  quiet : (∀ t, ¬ (s.calls t).Owning) → s.ep.state = stateIdle
  oneOwner : ∀ t t', (s.calls t).Owning → (s.calls t').Owning → t = t'
  oneTaker : ∀ t t', (s.calls t).Taking → (s.calls t').Taking → t = t'
  sends : ∀ t m p, s.calls t = .sending m p →
    m.sender = t ∧ m.id < s.clock ∧ m ∈ s.started ∧ (∀ x ∈ s.returned, x.1 ≠ m) ∧
      s.SendAt m p
  takes : ∀ t p, s.calls t = .receiving p → p ≠ .loadPending →
    s.ep.state = stateMessagePending ∧ s.TakeAt p

structure Logs (s : Rendezvous κ) : Prop where
  receipts : ∀ rc ∈ s.receipts, ∃ m ∈ s.started, rc.message = some m
  distinct : (s.receipts.map (·.message)).Nodup
  past : ∀ m ∈ s.started, m.id < s.clock
  returned : ∀ x ∈ s.returned, ∃ rc ∈ s.receipts,
    rc.message = some x.1 ∧ x.1.id < rc.readAt ∧ rc.doneAt < x.2
  once : (s.returned.map (·.1)).Nodup

structure Inv (s : Rendezvous κ) : Prop where
  control : s.Control
  logs : s.Logs

omit [DecidableEq κ] in
theorem Logs.frame (h : s.Logs)
    (hreceipts : s'.receipts = s.receipts) (hreturned : s'.returned = s.returned)
    (hstarted : s'.started = s.started) (hclock : s.clock ≤ s'.clock) : s'.Logs := by
  refine ⟨?_, ?_, ?_, ?_, ?_⟩
  · rw [hreceipts, hstarted]
    exact h.receipts
  · rw [hreceipts]
    exact h.distinct
  · rw [hstarted]
    exact fun m hm => (h.past m hm).trans_le hclock
  · rw [hreceipts, hreturned]
    exact h.returned
  · rw [hreturned]
    exact h.once

omit [DecidableEq κ] in
theorem SendAt.frame {p : HandoffPoint} (h : s.SendAt m p) (hstate : s'.ep.state = s.ep.state)
    (hmessage : s'.ep.message = s.ep.message) (hreceipts : s'.receipts = s.receipts)
    (hclock : s.clock ≤ s'.clock) : s'.SendAt m p := by
  have hun : s.Unreceived m → s'.Unreceived m := by
    intro hu
    rw [Unreceived, hreceipts]
    exact hu
  have hre : s.Received m → s'.Received m := by
    rintro ⟨rc, hrc, hm, hread, hdone⟩
    exact ⟨rc, hreceipts ▸ hrc, hm, hread, hdone.trans_le hclock⟩
  cases p with
  | loadIdle => exact hun h
  | writeMessage => exact ⟨hstate.trans h.1, hun h.2⟩
  | storePending => exact ⟨hstate.trans h.1, hmessage.trans h.2.1, hun h.2.2⟩
  | loadTaken =>
    rcases h with ⟨hst, hmsg, hu⟩ | ⟨hst, hr⟩
    · exact .inl ⟨hstate.trans hst, hmessage.trans hmsg, hun hu⟩
    · exact .inr ⟨hstate.trans hst, hre hr⟩
  | storeIdle => exact ⟨hstate.trans h.1, hre h.2⟩

/-- The control part when one thread moves and the cell stays as it is. -/
theorem Control.move (h : s.Control) (t : κ)
    (c : RendezvousCall κ) (hcalls : s'.calls = update s.calls t c)
    (hstate : s'.ep.state = s.ep.state) (hmessage : s'.ep.message = s.ep.message)
    (hreceipts : s'.receipts = s.receipts) (hreturned : s'.returned = s.returned)
    (hstarted : ∀ m ∈ s.started, m ∈ s'.started) (hclock : s.clock ≤ s'.clock)
    (howning : c.Owning → ∀ t', (s.calls t').Owning → t' = t)
    (hquiet : (s.calls t).Owning → c.Owning)
    (htaking : c.Taking → ∀ t', (s.calls t').Taking → t' = t)
    (hsend : ∀ m p, c = .sending m p → m.sender = t ∧ m.id < s'.clock ∧
      m ∈ s'.started ∧ (∀ x ∈ s'.returned, x.1 ≠ m) ∧ s'.SendAt m p)
    (htake : ∀ p, c = .receiving p → p ≠ .loadPending →
      s.ep.state = stateMessagePending ∧ s'.TakeAt p) : s'.Control := by
  have hself : s'.calls t = c := by rw [hcalls, update_self]
  have hother : ∀ {t'}, t' ≠ t → s'.calls t' = s.calls t' := by
    intro t' hne
    rw [hcalls, update_of_ne hne]
  refine ⟨?_, ?_, ?_, ?_, ?_⟩
  · intro hnone
    rw [hstate]
    refine h.quiet fun t' hown => ?_
    by_cases ht : t' = t
    · subst ht
      exact hnone t' (hself ▸ hquiet hown)
    · exact hnone t' (hother ht ▸ hown)
  · rw [hcalls]
    exact atMostOne_update h.oneOwner howning
  · rw [hcalls]
    exact atMostOne_update h.oneTaker htaking
  · intro t' m p hcall
    by_cases ht : t' = t
    · subst ht
      exact hsend m p (hself.symm.trans hcall)
    · rw [hother ht] at hcall
      obtain ⟨hsender, hid, hst, hret, hat⟩ := h.sends t' m p hcall
      refine ⟨hsender, hid.trans_le hclock, hstarted m hst, ?_, ?_⟩
      · rw [hreturned]
        exact hret
      · exact hat.frame hstate hmessage hreceipts hclock
  · intro t' p hcall hp
    rw [hstate]
    by_cases ht : t' = t
    · subst ht
      exact htake p (hself.symm.trans hcall) hp
    · rw [hother ht] at hcall
      obtain ⟨hst, hat⟩ := h.takes t' p hcall hp
      refine ⟨hst, ?_⟩
      cases p with
      | loadPending | readMessage => trivial
      | storeTaken =>
        exact ⟨hat.1.trans hmessage.symm, hat.2.1.trans_le hclock, hat.2.2⟩

omit [DecidableEq κ] in
/-- Seen from the owner of the cell, every other send waits for `IDLE`. -/
theorem Control.waiting (h : s.Control) {t t' : κ}
    {p : HandoffPoint} (howner : (s.calls t).Owning) (hne : t' ≠ t)
    (hcall : s.calls t' = .sending m p) : p = .loadIdle := by
  by_contra hp
  refine hne (h.oneOwner t' t ?_ howner)
  rw [hcall]
  exact hp

/-- The control part when the owner of the cell changes it. -/
theorem Control.ownerStep (h : s.Control) (t : κ)
    (c : RendezvousCall κ) (hcalls : s'.calls = update s.calls t c)
    (howner : (s.calls t).Owning) (hstate : s.ep.state ≠ stateMessagePending)
    (hreceipts : s'.receipts = s.receipts) (hstarted : s'.started = s.started)
    (hreturned : ∀ x ∈ s'.returned, x ∈ s.returned ∨ x.1.sender = t)
    (hclock : s.clock ≤ s'.clock) (hleave : c.Owning ∨ s'.ep.state = stateIdle)
    (hc : ¬ c.Taking)
    (hsend : ∀ m p, c = .sending m p → m.sender = t ∧ m.id < s'.clock ∧
      m ∈ s'.started ∧ (∀ x ∈ s'.returned, x.1 ≠ m) ∧ s'.SendAt m p) :
    s'.Control := by
  have hself : s'.calls t = c := by rw [hcalls, update_self]
  have hother : ∀ {t'}, t' ≠ t → s'.calls t' = s.calls t' := by
    intro t' hne
    rw [hcalls, update_of_ne hne]
  -- nobody is taking: a taker would have the state at `PENDING`
  have hnotaker : ∀ t', ¬ (s'.calls t').Taking := by
    intro t' htake
    by_cases ht : t' = t
    · rw [ht, hself] at htake
      exact hc htake
    · rw [hother ht] at htake
      cases hcall : s.calls t' with
      | idle | sending => rw [hcall] at htake; exact htake
      | receiving p =>
        rw [hcall] at htake
        exact hstate (h.takes t' p hcall htake).1
  refine ⟨?_, ?_, ?_, ?_, ?_⟩
  · intro hnone
    rcases hleave with hown | hidle
    · exact absurd (hself ▸ hown) (hnone t)
    · exact hidle
  · rw [hcalls]
    exact atMostOne_update h.oneOwner fun _ t' hown => h.oneOwner t' t hown howner
  · intro t1 _ h1 _
    exact absurd h1 (hnotaker t1)
  · intro t' m p hcall
    by_cases ht : t' = t
    · subst ht
      exact hsend m p (hself.symm.trans hcall)
    · rw [hother ht] at hcall
      obtain ⟨hsender, hid, hst, hret, hat⟩ := h.sends t' m p hcall
      obtain rfl := h.waiting howner ht hcall
      refine ⟨hsender, hid.trans_le hclock, hstarted ▸ hst, ?_, ?_⟩
      · intro x hx
        rcases hreturned x hx with hold | hmine
        · exact hret x hold
        · rintro rfl
          exact ht (hsender.symm.trans hmine)
      · show s'.Unreceived m
        rw [Unreceived, hreceipts]
        exact hat
  · intro t' p hcall hp
    refine absurd ?_ (hnotaker t')
    rw [hcall]
    exact hp

omit [DecidableEq κ] in
/-- With the state at `PENDING`, some send has deposited its message and waits
for it to be taken. -/
theorem Control.deposited (h : s.Control) (hstate : s.ep.state = stateMessagePending) :
    ∃ t m, s.calls t = .sending m .loadTaken ∧ s.ep.message = some m ∧ s.Unreceived m := by
  have hsome : ∃ t, (s.calls t).Owning := by
    by_contra hnone
    rw [not_exists] at hnone
    rw [h.quiet hnone] at hstate
    exact absurd hstate (by decide)
  obtain ⟨t, hown⟩ := hsome
  cases hcall : s.calls t with
  | idle | receiving => rw [hcall] at hown; exact absurd hown id
  | sending m p =>
    obtain ⟨-, -, -, -, hat⟩ := h.sends t m p hcall
    cases p with
    | loadIdle => rw [hcall] at hown; exact absurd rfl hown
    | writeMessage | storePending | storeIdle =>
      rw [hat.1] at hstate
      exact absurd hstate (by decide)
    | loadTaken =>
      rcases hat with ⟨-, hmsg, hun⟩ | ⟨htaken, -⟩
      · exact ⟨t, m, hcall, hmsg, hun⟩
      · rw [htaken] at hstate
        exact absurd hstate (by decide)

/-! ### The steps -/

section

variable {t : κ}

omit [DecidableEq κ] in
theorem inv_tick (h : s.Inv) : s.tick.Inv := by
  have hc := h.control
  refine ⟨{ hc with sends := ?_, takes := ?_ }, h.logs.frame rfl rfl rfl (Nat.le_succ _)⟩
  · intro t m p hcall
    obtain ⟨hsender, hid, hst, hret, hat⟩ := hc.sends t m p hcall
    exact ⟨hsender, hid.trans (Nat.lt_succ_self _), hst, hret,
      hat.frame rfl rfl rfl (Nat.le_succ _)⟩
  · intro t p hcall hp
    obtain ⟨hst, hat⟩ := hc.takes t p hcall hp
    refine ⟨hst, ?_⟩
    cases p with
    | loadPending | readMessage => trivial
    | storeTaken => exact ⟨hat.1, hat.2.1.trans (Nat.lt_succ_self _), hat.2.2⟩

theorem inv_startSend (h : s.Inv) (hidle : s.calls t = .idle) (msg : Message) :
    (tick { s.goto t (.sending ⟨s.clock, t, msg⟩ .loadIdle) with
      started := s.started ++ [⟨s.clock, t, msg⟩] }).Inv := by
  have hfresh : ∀ m ∈ s.started, m ≠ ⟨s.clock, t, msg⟩ := by
    rintro m hm rfl
    exact Nat.lt_irrefl _ (h.logs.past _ hm)
  refine ⟨?_, ?_⟩
  · refine h.control.move t _ rfl rfl rfl rfl rfl (fun m hm => mem_append_left _ hm) (Nat.le_succ _)
      (fun hown => absurd rfl hown) (fun hown => by rw [hidle] at hown; exact False.elim hown)
      (fun htake => absurd htake id) ?_ (fun _ hc => by cases hc)
    rintro m p ⟨⟩
    refine ⟨rfl, Nat.lt_succ_self _, mem_append_right _ (mem_singleton.mpr rfl), ?_, ?_⟩
    · intro x hx heq
      obtain ⟨rc, hrc, hmsg, -⟩ := h.logs.returned x hx
      obtain ⟨m', hm', hmsg'⟩ := h.logs.receipts rc hrc
      refine hfresh m' hm' ?_
      rw [← heq]
      exact Option.some.inj (hmsg'.symm.trans hmsg)
    · intro rc hrc heq
      obtain ⟨m', hm', hmsg'⟩ := h.logs.receipts rc hrc
      exact hfresh m' hm' (Option.some.inj (hmsg'.symm.trans heq))
  · refine { h.logs with receipts := ?_, past := ?_ }
    · intro rc hrc
      obtain ⟨m, hm, hmsg⟩ := h.logs.receipts rc hrc
      exact ⟨m, mem_append_left _ hm, hmsg⟩
    · intro m hm
      rcases mem_append.mp hm with hm | hm
      · exact (h.logs.past m hm).trans (Nat.lt_succ_self _)
      · obtain rfl := mem_singleton.mp hm
        exact Nat.lt_succ_self _

theorem inv_startReceive (h : s.Inv) (hidle : s.calls t = .idle) :
    (s.goto t (.receiving .loadPending)).tick.Inv := by
  refine ⟨?_, h.logs.frame rfl rfl rfl (Nat.le_succ _)⟩
  exact h.control.move t _ rfl rfl rfl rfl rfl (fun _ hm => hm) (Nat.le_succ _)
    (fun hown => absurd hown id) (fun hown => by rw [hidle] at hown; exact False.elim hown)
    (fun htake => absurd rfl htake) (fun _ _ hc => by cases hc)
    (fun p hc hp => by cases hc; exact absurd rfl hp)

section

variable (h : s.Inv)

include h

theorem inv_loadIdle (hcall : s.calls t = .sending m .loadIdle)
    (hstate : s.ep.state = stateIdle) (hfree : ∀ t', ¬ (s.calls t').Depositing) :
    (s.goto t (.sending m .writeMessage)).tick.Inv := by
  obtain ⟨hsender, hid, hst, hret, hat⟩ := h.control.sends t m _ hcall
  -- an owner that is not depositing has the state past `IDLE`
  have hnoOwner : ∀ t', ¬ (s.calls t').Owning := by
    intro t' hown
    cases hcall' : s.calls t' with
    | idle | receiving => rw [hcall'] at hown; exact hown
    | sending m' p =>
      obtain ⟨-, -, -, -, hat'⟩ := h.control.sends t' m' p hcall'
      have hdep := hfree t'
      rw [hcall'] at hown hdep
      cases p with
      | loadIdle => exact hown rfl
      | writeMessage | storePending => exact hdep trivial
      | loadTaken =>
        rcases hat' with ⟨hst', -, -⟩ | ⟨hst', -⟩ <;> rw [hstate] at hst' <;>
          exact absurd hst' (by decide)
      | storeIdle =>
        have hst' := hat'.1
        rw [hstate] at hst'
        exact absurd hst' (by decide)
  refine ⟨?_, h.logs.frame rfl rfl rfl (Nat.le_succ _)⟩
  refine h.control.move t _ rfl rfl rfl rfl rfl (fun _ hm => hm) (Nat.le_succ _)
    (fun _ t' hown => absurd hown (hnoOwner t')) (fun hown => absurd hown (hnoOwner t))
    (fun htake => absurd htake id) ?_ (fun _ hc => by cases hc)
  rintro m' p ⟨⟩
  exact ⟨hsender, hid.trans (Nat.lt_succ_self _), hst, hret, hstate, hat⟩

theorem inv_writeMessage (hcall : s.calls t = .sending m .writeMessage) :
    (tick { s.goto t (.sending m .storePending) with
      ep := { s.ep with message := some m } }).Inv := by
  obtain ⟨hsender, hid, hst, hret, hstate, hun⟩ := h.control.sends t m _ hcall
  refine ⟨?_, h.logs.frame rfl rfl rfl (Nat.le_succ _)⟩
  refine h.control.ownerStep t _ rfl (by rw [hcall]; exact nofun)
    (by rw [hstate]; decide) rfl rfl (fun _ hx => .inl hx) (Nat.le_succ _)
    (.inl nofun) id ?_
  rintro _ p ⟨⟩
  exact ⟨hsender, hid.trans (Nat.lt_succ_self _), hst, hret, hstate, rfl, hun⟩

theorem inv_storePending (hcall : s.calls t = .sending m .storePending) :
    (tick { s.goto t (.sending m .loadTaken) with
      ep := { s.ep with state := stateMessagePending } }).Inv := by
  obtain ⟨hsender, hid, hst, hret, hstate, hmsg, hun⟩ := h.control.sends t m _ hcall
  refine ⟨?_, h.logs.frame rfl rfl rfl (Nat.le_succ _)⟩
  refine h.control.ownerStep t _ rfl (by rw [hcall]; exact nofun)
    (by rw [hstate]; decide) rfl rfl (fun _ hx => .inl hx) (Nat.le_succ _)
    (.inl nofun) id ?_
  rintro _ p ⟨⟩
  exact ⟨hsender, hid.trans (Nat.lt_succ_self _), hst, hret, .inl ⟨rfl, hmsg, hun⟩⟩

theorem inv_loadTaken (hcall : s.calls t = .sending m .loadTaken)
    (hstate : s.ep.state = stateMessageTaken) :
    (s.goto t (.sending m .storeIdle)).tick.Inv := by
  obtain ⟨hsender, hid, hst, hret, hat⟩ := h.control.sends t m _ hcall
  have hown : (s.calls t).Owning := by rw [hcall]; exact nofun
  have hreceived : s.Received m := by
    rcases hat with ⟨hpending, -, -⟩ | ⟨-, hr⟩
    · rw [hstate] at hpending
      exact absurd hpending (by decide)
    · exact hr
  refine ⟨?_, h.logs.frame rfl rfl rfl (Nat.le_succ _)⟩
  refine h.control.move t _ rfl rfl rfl rfl rfl (fun _ hm => hm) (Nat.le_succ _)
    (fun _ t' hown' => h.control.oneOwner t' t hown' hown) (fun _ => nofun)
    (fun htake => absurd htake id) ?_ (fun _ hc => by cases hc)
  rintro _ p ⟨⟩
  obtain ⟨rc, hrc, hmsg, hread, hdone⟩ := hreceived
  exact ⟨hsender, hid.trans (Nat.lt_succ_self _), hst, hret, hstate,
    rc, hrc, hmsg, hread, hdone.trans (Nat.lt_succ_self _)⟩

/-- The send returns: its message was received since it started. -/
theorem inv_storeIdle (hcall : s.calls t = .sending m .storeIdle) :
    (tick { s.goto t .idle with
      ep := { s.ep with state := stateIdle }
      returned := s.returned ++ [(m, s.clock)] }).Inv := by
  obtain ⟨hsender, _, _, hret, hstate, hreceived⟩ := h.control.sends t m _ hcall
  refine ⟨?_, ⟨h.logs.receipts, h.logs.distinct, ?_, ?_, ?_⟩⟩
  · refine h.control.ownerStep t _ rfl (by rw [hcall]; exact nofun)
      (by rw [hstate]; decide) rfl rfl ?_ (Nat.le_succ _) (.inr rfl) id
      (fun _ _ hc => by cases hc)
    intro x hx
    rcases mem_append.mp hx with hx | hx
    · exact .inl hx
    · obtain rfl := mem_singleton.mp hx
      exact .inr hsender
  · exact fun m' hm' => (h.logs.past m' hm').trans (Nat.lt_succ_self _)
  · intro x hx
    rcases mem_append.mp hx with hx | hx
    · exact h.logs.returned x hx
    · obtain rfl := mem_singleton.mp hx
      exact hreceived
  · show ((s.returned ++ [(m, s.clock)]).map (·.1)).Nodup
    rw [map_append, map_singleton, nodup_append]
    refine ⟨h.logs.once, nodup_singleton _, ?_⟩
    intro _ hm1 _ hm2
    obtain rfl := mem_singleton.mp hm2
    obtain ⟨x, hx, rfl⟩ := List.mem_map.mp hm1
    exact hret x hx

theorem inv_loadPending (hcall : s.calls t = .receiving .loadPending)
    (hstate : s.ep.state = stateMessagePending) (hfree : ∀ t', ¬ (s.calls t').Taking) :
    (s.goto t (.receiving .readMessage)).tick.Inv := by
  refine ⟨?_, h.logs.frame rfl rfl rfl (Nat.le_succ _)⟩
  exact h.control.move t _ rfl rfl rfl rfl rfl (fun _ hm => hm) (Nat.le_succ _)
    (fun hown => absurd hown id)
    (fun hown => by rw [hcall] at hown; exact False.elim hown)
    (fun _ t' htake => absurd htake (hfree t')) (fun _ _ hc => by cases hc)
    (fun p hc _ => by cases hc; exact ⟨hstate, trivial⟩)

theorem inv_readMessage (hcall : s.calls t = .receiving .readMessage) :
    (s.goto t (.receiving (.storeTaken s.ep.message s.clock))).tick.Inv := by
  have htaking : (s.calls t).Taking := by rw [hcall]; exact nofun
  obtain ⟨hstate, -⟩ := h.control.takes t _ hcall nofun
  obtain ⟨t', m', hcall', hmsg, -⟩ := h.control.deposited hstate
  have hid := (h.control.sends t' m' _ hcall').2.1
  refine ⟨?_, h.logs.frame rfl rfl rfl (Nat.le_succ _)⟩
  refine h.control.move t _ rfl rfl rfl rfl rfl (fun _ hm => hm) (Nat.le_succ _)
    (fun hown => absurd hown id)
    (fun hown => by rw [hcall] at hown; exact False.elim hown)
    (fun _ t'' htake => h.control.oneTaker t'' t htake htaking)
    (fun _ _ hc => by cases hc) ?_
  rintro p ⟨⟩ -
  refine ⟨hstate, rfl, Nat.lt_succ_self _, ?_⟩
  intro _ hm''
  rw [hmsg] at hm''
  obtain rfl := Option.some.inj hm''
  exact hid

end

/-- The receive returns: the message of the send that owns the cell, which no
receive had yielded before. -/
theorem inv_storeTaken {msg : Option (Sent κ)} {readAt : Nat} (h : s.Inv)
    (hcall : s.calls t = .receiving (.storeTaken msg readAt)) :
    (tick { s.goto t .idle with
      ep := { s.ep with state := stateMessageTaken }
      receipts := s.receipts ++ [⟨msg, readAt, s.clock⟩] }).Inv := by
  have htaking : (s.calls t).Taking := by rw [hcall]; exact nofun
  obtain ⟨hstate, rfl, -, hread⟩ := h.control.takes t _ hcall nofun
  obtain ⟨o, m, hcall', hmsg, hun⟩ := h.control.deposited hstate
  obtain ⟨hsender, -, hst, -, -⟩ := h.control.sends o m _ hcall'
  have howner : (s.calls o).Owning := by rw [hcall']; exact nofun
  have hcalls : ∀ t', update s.calls t .idle t' = s.calls t' ∨
      update s.calls t .idle t' = .idle := by
    intro t'
    rw [update_apply]
    split_ifs
    · exact .inr rfl
    · exact .inl rfl
  refine ⟨⟨?_, ?_, ?_, ?_, ?_⟩, ⟨?_, ?_, ?_, ?_, h.logs.once⟩⟩
  · -- the owner is still there
    intro hnone
    refine absurd ?_ (hnone o)
    show (update s.calls t .idle o).Owning
    have hne : o ≠ t := by
      rintro rfl
      rw [hcall] at hcall'
      cases hcall'
    rwa [update_of_ne hne]
  · exact atMostOne_update h.control.oneOwner False.elim
  · exact atMostOne_update h.control.oneTaker False.elim
  · intro t' m' p (hc : update s.calls t .idle t' = .sending m' p)
    rcases hcalls t' with e | e
    · rw [e] at hc
      obtain ⟨hsender', hid', hst', hret', hat'⟩ := h.control.sends t' m' p hc
      refine ⟨hsender', hid'.trans (Nat.lt_succ_self _), hst', hret', ?_⟩
      by_cases ho : t' = o
      · subst ho
        obtain ⟨rfl, rfl⟩ := RendezvousCall.sending.inj (hcall'.symm.trans hc)
        exact .inr ⟨rfl, ⟨s.ep.message, readAt, s.clock⟩,
          mem_append_right _ (mem_singleton.mpr rfl), hmsg, hread m hmsg,
          Nat.lt_succ_self _⟩
      · obtain rfl := h.control.waiting howner ho hc
        intro rc hrc
        rcases mem_append.mp hrc with hrc | hrc
        · exact hat' rc hrc
        · obtain rfl := mem_singleton.mp hrc
          intro heq
          obtain rfl := Option.some.inj (hmsg.symm.trans heq)
          exact ho (hsender'.symm.trans hsender)
    · rw [e] at hc
      cases hc
  · intro t' p (hc : update s.calls t .idle t' = .receiving p) hp
    rcases hcalls t' with e | e
    · rw [e] at hc
      have ht : t' = t := h.control.oneTaker t' t (by rw [hc]; exact hp) htaking
      rw [ht, update_self, hcall] at e
      cases e
    · rw [e] at hc
      cases hc
  · intro rc hrc
    rcases mem_append.mp hrc with hrc | hrc
    · exact h.logs.receipts rc hrc
    · obtain rfl := mem_singleton.mp hrc
      exact ⟨m, hst, hmsg⟩
  · show ((s.receipts ++ [(⟨s.ep.message, readAt, s.clock⟩ : Receipt κ)]).map Receipt.message).Nodup
    rw [map_append, map_singleton, nodup_append]
    refine ⟨h.logs.distinct, nodup_singleton _, ?_⟩
    intro x hx y hy
    obtain rfl := mem_singleton.mp hy
    obtain ⟨rc, hrc, rfl⟩ := List.mem_map.mp hx
    rw [hmsg]
    exact hun rc hrc
  · exact fun m' hm' => (h.logs.past m' hm').trans (Nat.lt_succ_self _)
  · intro x hx
    obtain ⟨rc, hrc, hx'⟩ := h.logs.returned x hx
    exact ⟨rc, mem_append_left _ hrc, hx'⟩

theorem inv_advance (h : s.Inv) (hx : s.Exclusive (t, .advance)) : (s.advance t).tick.Inv := by
  unfold advance
  split
  next => exact inv_tick h
  next m hcall =>
    split_ifs with hstate
    · rw [Exclusive, hcall] at hx
      exact inv_loadIdle h hcall hstate (hx hstate)
    · exact inv_tick h
  next m hcall => exact inv_writeMessage h hcall
  next m hcall => exact inv_storePending h hcall
  next m hcall =>
    split_ifs with hstate
    · exact inv_loadTaken h hcall hstate
    · exact inv_tick h
  next m hcall => exact inv_storeIdle h hcall
  next hcall =>
    split_ifs with hstate
    · rw [Exclusive, hcall] at hx
      exact inv_loadPending h hcall hstate (hx hstate)
    · exact inv_tick h
  next hcall => exact inv_readMessage h hcall
  next msg readAt hcall => exact inv_storeTaken h hcall

end

theorem inv_step {a : κ × RendezvousStep} (h : s.Inv) (hx : s.Exclusive a) : (s.step a).Inv := by
  obtain ⟨t, a⟩ := a
  cases a with
  | send msg =>
    simp only [step, act]
    split_ifs with hidle
    · exact inv_startSend h hidle msg
    · exact inv_tick h
  | receive =>
    simp only [step, act]
    split_ifs with hidle
    · exact inv_startReceive h hidle
    · exact inv_tick h
  | advance => exact inv_advance h hx

omit [DecidableEq κ] in
theorem inv_boot : (boot : Rendezvous κ).Inv where
  control := ⟨fun _ => rfl, fun _ _ h => False.elim h, fun _ _ h => False.elim h, nofun, nofun⟩
  logs := ⟨nofun, .nil, nofun, nofun, .nil⟩

/-! ## Delivery -/

structure Delivers (s : Rendezvous κ) : Prop where
  returned : ∀ x ∈ s.returned,
    s.receipts.countP (fun rc => rc.message = some x.1) = 1 ∧
      ∃ rc ∈ s.receipts, rc.message = some x.1 ∧ x.1.id < rc.readAt ∧ rc.doneAt < x.2
  yields : ∀ rc ∈ s.receipts, ∃ m ∈ s.started, rc.message = some m ∧
    s.receipts.countP (fun rc => rc.message = some m) = 1
  unshared : (s.returned.map (·.1)).Nodup ∧ s.returned.length ≤ s.receipts.length

theorem Logs.countP_eq_one (h : s.Logs) {rc : Receipt κ} (hrc : rc ∈ s.receipts)
    (hm : rc.message = some m) :
    s.receipts.countP (fun rc => rc.message = some m) = 1 := by
  have hcount := count_eq_one_of_mem h.distinct
    (List.mem_map.mpr ⟨rc, hrc, hm⟩ : some m ∈ s.receipts.map (·.message))
  rw [List.count, countP_map] at hcount
  rw [← hcount]
  refine countP_congr fun _ _ => ?_
  simp

theorem Inv.delivers (h : s.Inv) : s.Delivers := by
  refine ⟨?_, ?_, h.logs.once, ?_⟩
  · intro x hx
    obtain ⟨rc, hrc, hm, htime⟩ := h.logs.returned x hx
    exact ⟨h.logs.countP_eq_one hrc hm, rc, hrc, hm, htime⟩
  · intro rc hrc
    obtain ⟨m, hst, hm⟩ := h.logs.receipts rc hrc
    exact ⟨m, hst, hm, h.logs.countP_eq_one hrc hm⟩
  · -- each returned send has a receipt of its own
    have hsub : s.returned.map (fun x => some x.1) ⊆ s.receipts.map (·.message) := by
      intro y hy
      obtain ⟨x, hx, rfl⟩ := List.mem_map.mp hy
      obtain ⟨rc, hrc, hm, -⟩ := h.logs.returned x hx
      exact List.mem_map.mpr ⟨rc, hrc, hm⟩
    have hnodup : (s.returned.map (fun x => some x.1)).Nodup := by
      have hmap := h.logs.once.map (Option.some_injective _)
      rwa [List.map_map] at hmap
    simpa using (hnodup.subperm hsub).length_le

/-- **The rendezvous delivers, when sends and receives exclude each other.** In
every state of every run in which a load finds `IDLE` only while no send is
between such a load and its store of `PENDING`, and finds `PENDING` only while
no receive is between such a load and its store of `TAKEN`: every send that
returned had its message yielded by exactly one receive, which read it after
the send started and was done before the send returned; every receive yields a
message that some send started and no other receive yields; and no two sends
share a receive. -/
theorem handoff_of_exclusive (as : List (κ × RendezvousStep))
    (h : Along step Exclusive (boot : Rendezvous κ) as) : (run step boot as).Delivers :=
  (run_invariant (fun _ _ hs hx => inv_step hs hx) inv_boot h).delivers

/-- A send and a receive that meet. -/
theorem handoff_meeting :
    let as : List (Bool × RendezvousStep) :=
      [(false, .send (.word 7)), (true, .receive)] ++ replicate 3 (false, .advance) ++
        replicate 3 (true, .advance) ++ replicate 2 (false, .advance)
    (run step boot as).returned = [(⟨0, false, .word 7⟩, 9)] ∧ (run step boot as).Delivers := by
  intro as
  exact ⟨by decide, handoff_of_exclusive as (by decide)⟩

/-- Two sends that both find `IDLE`, and one receive. -/
def senderRace : List (ThreadId × RendezvousStep) :=
  [(0, .send (.word 1)), (1, .send (.word 2)), (2, .receive)] ++
    (List.replicate 3 [(0, .advance), (1, .advance)]).flatten ++
    List.replicate 3 (2, .advance) ++
    (List.replicate 2 [(0, .advance), (1, .advance)]).flatten

/-- **The race lets two sends return on one receive.** The first message was
never received, and its send returned all the same. -/
theorem senderRace_breaks : (run step boot senderRace).returned =
        [(⟨0, 0, .word 1⟩, 14), (⟨1, 1, .word 2⟩, 15)] ∧
      (run step boot senderRace).receipts = [⟨some ⟨1, 1, .word 2⟩, 10, 11⟩] ∧
      ¬ (run step boot senderRace).Delivers := by
  have hreturned : (run step boot senderRace).returned =
      [(⟨0, 0, .word 1⟩, 14), (⟨1, 1, .word 2⟩, 15)] := by decide
  have hreceipts : (run step boot senderRace).receipts =
      [⟨some ⟨1, 1, .word 2⟩, 10, 11⟩] := by decide
  refine ⟨hreturned, hreceipts, ?_⟩
  intro h
  have hle := h.unshared.2
  exact absurd hle (by decide)

end Rendezvous

end AgenticOS
