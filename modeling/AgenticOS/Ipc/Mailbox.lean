import AgenticOS.Ipc.Endpoint
import AgenticOS.Foundation.Execution

/-!
# The mailbox under concurrent callers

Any number of threads (indexed by an arbitrary type `κ`) call `try_send` and
`try_receive_on_object` on one endpoint. Each atomic load, store, `fetch_add`
and `fetch_sub`, and each read or write of a slot, is one step; a call's point
says which of its steps comes next and holds what it has loaded so far.

Two messages may be equal as words, so the ring of this model carries each
message with the call that sent it, and the state keeps the log of the
accepted messages and the log of the received ones. Both are ghosts.

The indices of the ring are loaded in one step and stored in another, without
a lock. Nothing goes wrong as long as at most one `try_send` and at most one
`try_receive` at a time are past their length check; two producers past it
write the same slot.
-/

namespace AgenticOS

open Foundation List Function

/-- A message with the call that sent it: when it started, and in which
thread. -/
structure Sent (κ : Type) where
  id : Nat
  sender : κ
  message : Message
  deriving DecidableEq

/-- What the kernel stores of it. -/
def Sent.payload {κ : Type} (m : Option (Sent κ)) : Message :=
  (m.map (·.message)).getD .zero

def Endpoint.stored {κ : Type} (ep : Endpoint (Option (Sent κ))) : Endpoint Message :=
  ep.map Sent.payload

inductive SendPoint where
  | loadLen
  | loadHead
  | writeSlot (head : Fin queueDepth)
  | storeHead (head : Fin queueDepth)
  | fetchAdd
  deriving DecidableEq

inductive ReceivePoint (μ : Type) where
  | loadLen
  | loadTail
  | readSlot (tail : Fin queueDepth)
  | storeTail (tail : Fin queueDepth) (msg : μ)
  | fetchSub (msg : μ)
  deriving DecidableEq

inductive MailboxCall (κ : Type) where
  | idle
  | sending (msg : Sent κ) (at_ : SendPoint)
  | receiving (at_ : ReceivePoint (Option (Sent κ)))
  deriving DecidableEq

namespace MailboxCall

variable {κ : Type}

/-- Between a length check that found room and the `fetch_add`. -/
def Producing : MailboxCall κ → Prop
  | .sending _ p => p ≠ .loadLen
  | _ => False

/-- Between a length check that found a message and the `fetch_sub`. -/
def Consuming : MailboxCall κ → Prop
  | .receiving p => p ≠ .loadLen
  | _ => False

instance : (c : MailboxCall κ) → Decidable c.Producing
  | .sending _ p => inferInstanceAs (Decidable (p ≠ .loadLen))
  | .idle | .receiving _ => .isFalse id

instance [DecidableEq κ] : (c : MailboxCall κ) → Decidable c.Consuming
  | .receiving p => inferInstanceAs (Decidable (p ≠ .loadLen))
  | .idle | .sending _ _ => .isFalse id

end MailboxCall

structure Mailbox (κ : Type) where
  ep : Endpoint (Option (Sent κ))
  calls : κ → MailboxCall κ
  clock : Nat
  accepted : List (Sent κ)
  received : List (Option (Sent κ))

inductive MailboxStep where
  | trySend (msg : Message)
  | tryReceive
  | advance
  deriving DecidableEq

namespace Mailbox

variable {κ : Type} [DecidableEq κ]

def boot : Mailbox κ := ⟨.new none, fun _ => .idle, 0, [], []⟩

/-- The thread goes on to another point, and nothing else happens. -/
def goto (s : Mailbox κ) (t : κ) (c : MailboxCall κ) : Mailbox κ :=
  { s with calls := Function.update s.calls t c }

def advance (s : Mailbox κ) (t : κ) : Mailbox κ :=
  match s.calls t with
  | .idle => s
  | .sending msg .loadLen =>
    if queueDepth ≤ s.ep.qLen.toNat then s.goto t .idle
    else s.goto t (.sending msg .loadHead)
  | .sending msg .loadHead => s.goto t (.sending msg (.writeSlot s.ep.qHead))
  | .sending msg (.writeSlot head) =>
    { s.goto t (.sending msg (.storeHead head)) with
      ep := { s.ep with qSlots := Function.update s.ep.qSlots head (some msg) } }
  | .sending msg (.storeHead head) =>
    { s.goto t (.sending msg .fetchAdd) with
      ep := { s.ep with qHead := nextSlot head } }
  | .sending msg .fetchAdd =>
    { s.goto t .idle with
      ep := { s.ep with qLen := s.ep.qLen + 1 }
      accepted := s.accepted ++ [msg] }
  | .receiving .loadLen =>
    if s.ep.qLen = 0 then s.goto t .idle
    else s.goto t (.receiving .loadTail)
  | .receiving .loadTail => s.goto t (.receiving (.readSlot s.ep.qTail))
  | .receiving (.readSlot tail) =>
    s.goto t (.receiving (.storeTail tail (s.ep.qSlots tail)))
  | .receiving (.storeTail tail msg) =>
    { s.goto t (.receiving (.fetchSub msg)) with
      ep := { s.ep with qTail := nextSlot tail } }
  | .receiving (.fetchSub msg) =>
    { s.goto t .idle with
      ep := { s.ep with qLen := s.ep.qLen - 1 }
      received := s.received ++ [msg] }

/-- A thread starts a call if it is in none, or takes the next step of the
call it is in. -/
def act (s : Mailbox κ) : κ × MailboxStep → Mailbox κ
  | (t, .trySend msg) =>
    if s.calls t = .idle then s.goto t (.sending ⟨s.clock, t, msg⟩ .loadLen) else s
  | (t, .tryReceive) =>
    if s.calls t = .idle then s.goto t (.receiving .loadLen) else s
  | (t, .advance) => s.advance t

def step (s : Mailbox κ) (a : κ × MailboxStep) : Mailbox κ :=
  { s.act a with clock := s.clock + 1 }

/-- The next step of the call is not a length check that succeeds while some
thread is between its own and its commit. -/
def Alone (s : Mailbox κ) : MailboxCall κ → Prop
  | .sending _ .loadLen =>
    s.ep.qLen.toNat < queueDepth → ∀ t, ¬ (s.calls t).Producing
  | .receiving .loadLen => s.ep.qLen ≠ 0 → ∀ t, ¬ (s.calls t).Consuming
  | _ => True

/-- A length check that succeeds does so while no thread is between its own
and its commit. -/
def Exclusive (s : Mailbox κ) : κ × MailboxStep → Prop
  | (t, .advance) => s.Alone (s.calls t)
  | _ => True

instance [Fintype κ] (s : Mailbox κ) : (c : MailboxCall κ) → Decidable (s.Alone c)
  | .sending _ .loadLen =>
    inferInstanceAs (Decidable
      (s.ep.qLen.toNat < queueDepth → ∀ t, ¬ (s.calls t).Producing))
  | .receiving .loadLen =>
    inferInstanceAs (Decidable (s.ep.qLen ≠ 0 → ∀ t, ¬ (s.calls t).Consuming))
  | .idle | .sending _ .loadHead | .sending _ (.writeSlot _)
  | .sending _ (.storeHead _) | .sending _ .fetchAdd | .receiving .loadTail
  | .receiving (.readSlot _) | .receiving (.storeTail _ _)
  | .receiving (.fetchSub _) => .isTrue trivial

instance [Fintype κ] (s : Mailbox κ) :
    (a : κ × MailboxStep) → Decidable (s.Exclusive a)
  | (t, .advance) => inferInstanceAs (Decidable (s.Alone (s.calls t)))
  | (_, .trySend _) | (_, .tryReceive) => .isTrue trivial

/-! ## Calls that nothing interrupts

The kernel model runs a whole `try_send` or `try_receive` as one transition of
the endpoint. These are the runs of the small steps in which no other thread
moves in between. -/

/-- The kernel's model of the mailbox: the endpoint, what it has taken and what it has
handed out. -/
abbrev Whole := Endpoint Message × List Message × List Message

def whole (s : Mailbox κ) : Whole :=
  (s.ep.stored, s.accepted.map (·.message), s.received.map Sent.payload)

/-- A call as one transition: `try_send` of a message, or `try_receive`. -/
def wholeStep (k : Whole) : Option Message → Whole
  | some m => ((k.1.trySend m).2, k.2.1 ++ (if (k.1.trySend m).1 then [m] else []), k.2.2)
  | none => (k.1.tryReceive.2, k.2.1, k.2.2 ++ k.1.tryReceive.1.toList)

/-- The steps of a call that nothing interrupts. -/
def stepsOf : κ × Option Message → List (κ × MailboxStep)
  | (t, some m) => (t, .trySend m) :: replicate 5 (t, .advance)
  | (t, none) => (t, .tryReceive) :: replicate 5 (t, .advance)

variable {t : κ} {s : Mailbox κ}

theorem run_stepsOf (hidle : s.calls t = .idle) (c : Option Message) :
    (run step s (stepsOf (t, c))).whole = wholeStep s.whole c ∧
      (run step s (stepsOf (t, c))).calls = s.calls := by
  cases c with
  | some m =>
    have hmap : s.ep.stored.trySend m = ((s.ep.trySend (some ⟨s.clock, t, m⟩)).1,
        (s.ep.trySend (some ⟨s.clock, t, m⟩)).2.stored) :=
      s.ep.trySend_map _ (some ⟨s.clock, t, m⟩)
    rw [wholeStep, whole, whole, hmap]
    by_cases hfull : queueDepth ≤ s.ep.qLen.toNat
    all_goals simp [stepsOf, run, step, act, advance, goto, hidle, hfull, Endpoint.trySend]
  | none =>
    have hmap : s.ep.stored.tryReceive = (s.ep.tryReceive.1.map Sent.payload,
        s.ep.tryReceive.2.stored) := s.ep.tryReceive_map _
    rw [wholeStep, whole, whole, hmap]
    by_cases hempty : s.ep.qLen = 0
    all_goals simp [stepsOf, run, step, act, advance, goto, hidle, hempty, Endpoint.tryReceive]

/-- **Two levels.** In a run without interruptions the small steps do what the kernel's
transitions do, and hand out the same messages. -/
theorem mailbox_uninterrupted (calls : List (κ × Option Message)) :
    (run step boot (calls.flatMap stepsOf)).whole =
        run wholeStep (.new .zero, [], []) (calls.map Prod.snd) ∧
      ∀ t, (run step boot (calls.flatMap stepsOf)).calls t = .idle := by
  induction calls using reverseRecOn with
  | nil => exact ⟨rfl, fun _ => rfl⟩
  | append_singleton calls c ih =>
    obtain ⟨hsame, hidle⟩ := ih
    obtain ⟨hwhole, hcalls⟩ := run_stepsOf (hidle c.1) c.2
    simp only [run, flatMap_append, map_append, foldl_append, flatMap_singleton, map_singleton,
      foldl_cons, foldl_nil] at *
    rw [hwhole, hcalls, hsame]
    exact ⟨rfl, hidle⟩

/-! ## The invariant -/

/-- What a `try_send` past its length check may rely on. -/
def SendAt (s : Mailbox κ) (msg : Sent κ) : SendPoint → Prop
  | .loadLen => True
  | .loadHead => s.ep.qHead = Ring.slot queueDepth s.accepted.length
  | .writeSlot head =>
    s.ep.qHead = Ring.slot queueDepth s.accepted.length ∧ head = s.ep.qHead
  | .storeHead head =>
    head = Ring.slot queueDepth s.accepted.length ∧ s.ep.qSlots head = some msg
  | .fetchAdd =>
    s.ep.qHead = Ring.slot queueDepth (s.accepted.length + 1) ∧
      s.ep.qSlots (Ring.slot queueDepth s.accepted.length) = some msg

/-- What a `try_receive` past its length check may rely on. -/
def ReceiveAt (s : Mailbox κ) : ReceivePoint (Option (Sent κ)) → Prop
  | .loadLen => True
  | .loadTail => s.ep.qTail = Ring.slot queueDepth s.received.length
  | .readSlot tail => tail = Ring.slot queueDepth s.received.length
  | .storeTail tail msg =>
    tail = Ring.slot queueDepth s.received.length ∧
      msg = s.accepted[s.received.length]?
  | .fetchSub msg =>
    s.ep.qTail = Ring.slot queueDepth (s.received.length + 1) ∧
      msg = s.accepted[s.received.length]?

/-- The ring carries the accepted messages that are not yet received. -/
structure QueueInv (s : Mailbox κ) : Prop where
  le : s.received.length ≤ s.accepted.length
  room : s.accepted.length ≤ s.received.length + queueDepth
  len : s.ep.qLen.toNat = s.accepted.length - s.received.length
  holds : Ring.Holds s.ep.qSlots s.accepted s.received.length s.accepted.length
  taken : s.received = (s.accepted.take s.received.length).map some

/-- At most one thread is producing, it has room, and without one the head
index is where the next message goes. -/
structure ProducerInv (s : Mailbox κ) : Prop where
  idle : (∀ t, ¬ (s.calls t).Producing) →
    s.ep.qHead = Ring.slot queueDepth s.accepted.length
  active : ∀ t msg p, s.calls t = .sending msg p → p ≠ .loadLen →
    s.accepted.length < s.received.length + queueDepth ∧ SendAt s msg p ∧
      ∀ t', (s.calls t').Producing → t' = t

structure ConsumerInv (s : Mailbox κ) : Prop where
  idle : (∀ t, ¬ (s.calls t).Consuming) →
    s.ep.qTail = Ring.slot queueDepth s.received.length
  active : ∀ t p, s.calls t = .receiving p → p ≠ .loadLen →
    s.received.length < s.accepted.length ∧ ReceiveAt s p ∧
      ∀ t', (s.calls t').Consuming → t' = t

/-- A call in flight started after every accepted call of its thread. -/
structure StampInv (s : Mailbox κ) : Prop where
  flights : ∀ t msg p, s.calls t = .sending msg p →
    msg.sender = t ∧ msg.id < s.clock ∧
      ∀ m ∈ s.accepted, m.sender = t → m.id < msg.id
  past : ∀ m ∈ s.accepted, m.id < s.clock
  ordered : s.accepted.Pairwise fun m m' => m.sender = m'.sender → m.id < m'.id

/-- The ring half of the invariant: everything but the ghost stamps. -/
structure RingInv (s : Mailbox κ) : Prop where
  queue : s.QueueInv
  producers : s.ProducerInv
  consumers : s.ConsumerInv

structure Inv (s : Mailbox κ) : Prop where
  ring : s.RingInv
  stamps : s.StampInv

/-! ### One side while the other moves -/

variable {s' : Mailbox κ}

/-- Producers are not disturbed by a step of a thread that is none of them,
if it leaves the head, the slots and the accepted messages alone. -/
theorem ProducerInv.frame (h : s.ProducerInv) (t : κ)
    (c : MailboxCall κ) (hcalls : s'.calls = update s.calls t c)
    (hold : ¬ (s.calls t).Producing) (hnew : ¬ c.Producing)
    (hhead : s'.ep.qHead = s.ep.qHead) (hslots : s'.ep.qSlots = s.ep.qSlots)
    (haccepted : s'.accepted = s.accepted)
    (hreceived : s.received.length ≤ s'.received.length) : s'.ProducerInv := by
  have hsame : ∀ t', (s'.calls t').Producing ↔ (s.calls t').Producing := by
    rw [hcalls]
    exact at_update_iff hold hnew
  refine ⟨?_, ?_⟩
  · intro hnone
    rw [hhead, haccepted]
    exact h.idle fun t' hp => hnone t' ((hsame t').mpr hp)
  · intro t' msg p hcall hp
    have hold' : s.calls t' = .sending msg p := by
      rw [hcalls, update_apply] at hcall
      split_ifs at hcall with ht
      · subst hcall
        exact absurd hp hnew
      · exact hcall
    obtain ⟨_, hat, hone⟩ := h.active t' msg p hold' hp
    refine ⟨?_, ?_, fun t'' hp'' => hone t'' ((hsame t'').mp hp'')⟩
    · rw [haccepted]
      omega
    · have hiff : s'.SendAt msg p ↔ s.SendAt msg p := by
        cases p <;> simp only [SendAt, hhead, hslots, haccepted]
      exact hiff.mpr hat

/-- Consumers are not disturbed by a step of a thread that is none of them, if
it leaves the tail and the received messages alone and accepts at most more. -/
theorem ConsumerInv.frame (h : s.ConsumerInv) (t : κ)
    (c : MailboxCall κ) (hcalls : s'.calls = update s.calls t c)
    (hold : ¬ (s.calls t).Consuming) (hnew : ¬ c.Consuming)
    (htail : s'.ep.qTail = s.ep.qTail) (hreceived : s'.received = s.received)
    (haccepted : s.accepted <+: s'.accepted) : s'.ConsumerInv := by
  have hsame : ∀ t', (s'.calls t').Consuming ↔ (s.calls t').Consuming := by
    rw [hcalls]
    exact at_update_iff hold hnew
  refine ⟨?_, ?_⟩
  · intro hnone
    rw [htail, hreceived]
    exact h.idle fun t' hp => hnone t' ((hsame t').mpr hp)
  · intro t' p hcall hp
    have hold' : s.calls t' = .receiving p := by
      rw [hcalls, update_apply] at hcall
      split_ifs at hcall with ht
      · subst hcall
        exact absurd hp hnew
      · exact hcall
    obtain ⟨hsome, hat, hone⟩ := h.active t' p hold' hp
    have hread : s'.accepted[s.received.length]? = s.accepted[s.received.length]? := by
      obtain ⟨more, hmore⟩ := haccepted
      rw [← hmore, List.getElem?_append_left hsome]
    refine ⟨?_, ?_, fun t'' hp'' => hone t'' ((hsame t'').mp hp'')⟩
    · rw [hreceived]
      exact hsome.trans_le haccepted.length_le
    · have hiff : s'.ReceiveAt p ↔ s.ReceiveAt p := by
        cases p <;> simp only [ReceiveAt, htail, hreceived, hread]
      exact hiff.mpr hat

variable {msg : Sent κ}

omit [DecidableEq κ] in
theorem ProducerInv.of_active {p : SendPoint}
    (hcall : s.calls t = .sending msg p) (hp : p ≠ .loadLen)
    (hone : ∀ t', (s.calls t').Producing → t' = t)
    (hroom : s.accepted.length < s.received.length + queueDepth)
    (hat : s.SendAt msg p) : s.ProducerInv := by
  refine ⟨fun hnone => absurd ?_ (hnone t), ?_⟩
  · rw [hcall]
    exact hp
  · intro t' _ _ hcall' hp'
    obtain rfl : t' = t := hone t' (by rw [hcall']; exact hp')
    obtain ⟨rfl, rfl⟩ := MailboxCall.sending.inj (hcall.symm.trans hcall')
    exact ⟨hroom, hat, hone⟩

omit [DecidableEq κ] in
theorem ConsumerInv.of_active
    {p : ReceivePoint (Option (Sent κ))} (hcall : s.calls t = .receiving p)
    (hp : p ≠ .loadLen) (hone : ∀ t', (s.calls t').Consuming → t' = t)
    (hsome : s.received.length < s.accepted.length) (hat : s.ReceiveAt p) :
    s.ConsumerInv := by
  refine ⟨fun hnone => absurd ?_ (hnone t), ?_⟩
  · rw [hcall]
    exact hp
  · intro t' _ hcall' hp'
    obtain rfl : t' = t := hone t' (by rw [hcall']; exact hp')
    obtain rfl := MailboxCall.receiving.inj (hcall.symm.trans hcall')
    exact ⟨hsome, hat, hone⟩

/-! ### The steps of a producer -/

theorem RingInv.goto_passive (h : s.RingInv)
    {c : MailboxCall κ} (hold : ¬ (s.calls t).Producing ∧ ¬ (s.calls t).Consuming)
    (hnew : ¬ c.Producing ∧ ¬ c.Consuming) : (s.goto t c).RingInv :=
  ⟨{ h.queue with }, h.producers.frame t c rfl hold.1 hnew.1 rfl rfl rfl le_rfl,
    h.consumers.frame t c rfl hold.2 hnew.2 rfl rfl prefix_rfl⟩

section

theorem ringInv_loadLen (h : s.RingInv) (hcall : s.calls t = .sending msg .loadLen)
    (hroom : s.ep.qLen.toNat < queueDepth) (hfree : ∀ t', ¬ (s.calls t').Producing) :
    (s.goto t (.sending msg .loadHead)).RingInv := by
  have hq := h.queue
  refine ⟨{ hq with }, ?_, ?_⟩
  · refine .of_active (update_self ..) (by simp)
      (one_update (fun t' hp => absurd hp (hfree t')) _) ?_ (h.producers.idle hfree)
    have hlen := hq.len
    show s.accepted.length < s.received.length + queueDepth
    omega
  · exact h.consumers.frame t _ rfl (by rw [hcall]; exact id) id rfl rfl prefix_rfl

theorem ringInv_loadHead (h : s.RingInv) (hcall : s.calls t = .sending msg .loadHead) :
    (s.goto t (.sending msg (.writeSlot s.ep.qHead))).RingInv := by
  obtain ⟨hroom, hat, hone⟩ := h.producers.active t msg _ hcall (by simp)
  refine ⟨{ h.queue with }, ?_, ?_⟩
  · exact .of_active (update_self ..) (by simp) (one_update hone _) hroom ⟨hat, rfl⟩
  · exact h.consumers.frame t _ rfl (by rw [hcall]; exact id) id rfl rfl prefix_rfl

variable {head : Fin queueDepth}

theorem ringInv_writeSlot (h : s.RingInv) (hcall : s.calls t = .sending msg (.writeSlot head)) :
    RingInv { s.goto t (.sending msg (.storeHead head)) with
      ep := { s.ep with qSlots := update s.ep.qSlots head (some msg) } } := by
  have hq := h.queue
  obtain ⟨hroom, ⟨hhead, rfl⟩, hone⟩ := h.producers.active t msg _ hcall (by simp)
  refine ⟨{ hq with holds := ?_ }, ?_, ?_⟩
  · rw [hhead]
    exact hq.holds.write hroom _
  · exact .of_active (update_self ..) (by simp) (one_update hone _) hroom ⟨hhead, update_self ..⟩
  · exact h.consumers.frame t _ rfl (by rw [hcall]; exact id) id rfl rfl prefix_rfl

theorem ringInv_storeHead (h : s.RingInv) (hcall : s.calls t = .sending msg (.storeHead head)) :
    RingInv { s.goto t (.sending msg .fetchAdd) with
      ep := { s.ep with qHead := nextSlot head } } := by
  obtain ⟨hroom, ⟨rfl, hslot⟩, hone⟩ := h.producers.active t msg _ hcall (by simp)
  refine ⟨{ h.queue with }, ?_, ?_⟩
  · exact .of_active (update_self ..) (by simp) (one_update hone _) hroom ⟨nextSlot_slot _, hslot⟩
  · exact h.consumers.frame t _ rfl (by rw [hcall]; exact id) id rfl rfl prefix_rfl

/-- The commit of a producer: the ring carries one more accepted message. -/
theorem ringInv_fetchAdd (h : s.RingInv) (hcall : s.calls t = .sending msg .fetchAdd) :
    RingInv { s.goto t .idle with
      ep := { s.ep with qLen := s.ep.qLen + 1 }
      accepted := s.accepted ++ [msg] } := by
  have hq := h.queue
  obtain ⟨hroom, ⟨hhead, hslot⟩, hone⟩ := h.producers.active t msg _ hcall (by simp)
  have hlen : (s.accepted ++ [msg]).length = s.accepted.length + 1 := by simp
  have hle := hq.le
  refine ⟨⟨?_, ?_, ?_, ?_, ?_⟩, ⟨?_, ?_⟩, ?_⟩
  · exact hle.trans (by simp)
  · rw [hlen]
    exact hroom
  · show (s.ep.qLen + 1).toNat = (s.accepted ++ [msg]).length - s.received.length
    have := hq.len
    rw [UInt8.toNat_add, this, hlen]
    simp only [queueDepth, UInt8.reduceToNat] at hroom ⊢
    omega
  · rw [hlen]
    exact hq.holds.commit rfl hslot
  · show s.received = ((s.accepted ++ [msg]).take s.received.length).map some
    rw [take_append_of_le_length hle]
    exact hq.taken
  · intro _
    rw [hlen]
    exact hhead
  · intro t' msg' p' hcall' hp'
    have hcalls : update s.calls t .idle t' = .sending msg' p' := hcall'
    obtain rfl := one_update hone .idle t' (by rw [hcalls]; exact hp')
    rw [update_self] at hcalls
    cases hcalls
  · exact h.consumers.frame t _ rfl (by rw [hcall]; exact id) id rfl rfl (prefix_append ..)

end

/-! ### The steps of a consumer -/

section

theorem ringInv_loadLenReceive (h : s.RingInv)
    (hcall : s.calls t = .receiving .loadLen) (hsome : s.ep.qLen ≠ 0)
    (hfree : ∀ t', ¬ (s.calls t').Consuming) :
    (s.goto t (.receiving .loadTail)).RingInv := by
  have hq := h.queue
  refine ⟨{ hq with }, ?_, ?_⟩
  · exact h.producers.frame t _ rfl (by rw [hcall]; exact id) id rfl rfl rfl le_rfl
  · refine .of_active (update_self ..) (by simp)
      (one_update (fun t' hp => absurd hp (hfree t')) _) ?_ (h.consumers.idle hfree)
    have hlen := hq.len
    have hpos : s.ep.qLen.toNat ≠ 0 := fun e => hsome (UInt8.toNat_inj.mp e)
    show s.received.length < s.accepted.length
    omega

theorem ringInv_loadTail (h : s.RingInv) (hcall : s.calls t = .receiving .loadTail) :
    (s.goto t (.receiving (.readSlot s.ep.qTail))).RingInv := by
  obtain ⟨hsome, hat, hone⟩ := h.consumers.active t _ hcall (by simp)
  refine ⟨{ h.queue with }, ?_, ?_⟩
  · exact h.producers.frame t _ rfl (by rw [hcall]; exact id) id rfl rfl rfl le_rfl
  · exact .of_active (update_self ..) (by simp) (one_update hone _) hsome hat

variable {tail : Fin queueDepth}

theorem ringInv_readSlot (h : s.RingInv) (hcall : s.calls t = .receiving (.readSlot tail)) :
    (s.goto t (.receiving (.storeTail tail (s.ep.qSlots tail)))).RingInv := by
  have hq := h.queue
  obtain ⟨hsome, hat, hone⟩ := h.consumers.active t _ hcall (by simp)
  have hread : s.ep.qSlots tail = s.accepted[s.received.length]? := by
    rw [show tail = _ from hat]
    exact hq.holds.read hsome
  refine ⟨{ hq with }, ?_, ?_⟩
  · exact h.producers.frame t _ rfl (by rw [hcall]; exact id) id rfl rfl rfl le_rfl
  · exact .of_active (update_self ..) (by simp) (one_update hone _) hsome ⟨hat, hread⟩

variable {msg : Option (Sent κ)}

theorem ringInv_storeTail (h : s.RingInv) (hcall : s.calls t = .receiving (.storeTail tail msg)) :
    RingInv { s.goto t (.receiving (.fetchSub msg)) with
      ep := { s.ep with qTail := nextSlot tail } } := by
  obtain ⟨hsome, ⟨rfl, hmsg⟩, hone⟩ := h.consumers.active t _ hcall (by simp)
  refine ⟨{ h.queue with }, ?_, ?_⟩
  · exact h.producers.frame t _ rfl (by rw [hcall]; exact id) id rfl rfl rfl le_rfl
  · exact .of_active (update_self ..) (by simp) (one_update hone _) hsome ⟨nextSlot_slot _, hmsg⟩

/-- The commit of a consumer: the oldest message in the ring is received. -/
theorem ringInv_fetchSub (h : s.RingInv) (hcall : s.calls t = .receiving (.fetchSub msg)) :
    RingInv { s.goto t .idle with
      ep := { s.ep with qLen := s.ep.qLen - 1 }
      received := s.received ++ [msg] } := by
  have hq := h.queue
  obtain ⟨hsome, ⟨htail, hmsg⟩, hone⟩ := h.consumers.active t _ hcall (by simp)
  have hlen : (s.received ++ [msg]).length = s.received.length + 1 := by simp
  have hroom := hq.room
  refine ⟨⟨?_, ?_, ?_, ?_, ?_⟩, ?_, ⟨?_, ?_⟩⟩
  · rw [hlen]
    exact hsome
  · show s.accepted.length ≤ (s.received ++ [msg]).length + queueDepth
    omega
  · show (s.ep.qLen - 1).toNat = s.accepted.length - (s.received ++ [msg]).length
    have hcur := hq.len
    have hone : (1 : UInt8) ≤ s.ep.qLen := by
      rw [UInt8.le_iff_toNat_le, hcur]
      simp only [UInt8.reduceToNat]
      omega
    rw [UInt8.toNat_sub_of_le _ _ hone, hcur, hlen]
    simp only [UInt8.reduceToNat]
    omega
  · rw [hlen]
    exact hq.holds.advance
  · show s.received ++ [msg] = (s.accepted.take (s.received ++ [msg]).length).map some
    rw [hlen, take_add_one, map_append, ← hq.taken, hmsg, List.getElem?_eq_getElem hsome]
    rfl
  · exact h.producers.frame t _ rfl (by rw [hcall]; exact id) id rfl rfl rfl (by simp)
  · intro _
    rw [hlen]
    exact htail
  · intro t' p' hcall' hp'
    have hcalls : update s.calls t .idle t' = .receiving p' := hcall'
    obtain rfl := one_update hone .idle t' (by rw [hcalls]; exact hp')
    rw [update_self] at hcalls
    cases hcalls

end

/-! ### Every step -/

theorem ringInv_advance (h : s.RingInv)
    (hx : s.Exclusive (t, .advance)) : (s.advance t).RingInv := by
  unfold advance
  split
  next => exact h
  next msg hcall =>
    split_ifs with hfull
    · exact h.goto_passive (by rw [hcall]; exact ⟨fun hp => hp rfl, id⟩) ⟨id, id⟩
    · have hroom := Nat.lt_of_not_le hfull
      rw [Exclusive, hcall] at hx
      exact ringInv_loadLen h hcall hroom (hx hroom)
  next msg hcall => exact ringInv_loadHead h hcall
  next msg head hcall => exact ringInv_writeSlot h hcall
  next msg head hcall => exact ringInv_storeHead h hcall
  next msg hcall => exact ringInv_fetchAdd h hcall
  next hcall =>
    split_ifs with hempty
    · exact h.goto_passive (by rw [hcall]; exact ⟨id, fun hp => hp rfl⟩) ⟨id, id⟩
    · rw [Exclusive, hcall] at hx
      exact ringInv_loadLenReceive h hcall hempty (hx hempty)
  next hcall => exact ringInv_loadTail h hcall
  next tail hcall => exact ringInv_readSlot h hcall
  next tail msg hcall => exact ringInv_storeTail h hcall
  next msg hcall => exact ringInv_fetchSub h hcall

variable {a : κ × MailboxStep}

theorem ringInv_act (h : s.RingInv) (hx : s.Exclusive a) : (s.act a).RingInv := by
  obtain ⟨t, a⟩ := a
  cases a with
  | trySend =>
    simp only [act]
    split_ifs with hidle
    · exact h.goto_passive (by rw [hidle]; exact ⟨id, id⟩) ⟨fun hp => hp rfl, id⟩
    · exact h
  | tryReceive =>
    simp only [act]
    split_ifs with hidle
    · exact h.goto_passive (by rw [hidle]; exact ⟨id, id⟩) ⟨id, fun hp => hp rfl⟩
    · exact h
  | advance => exact ringInv_advance h hx

/-- A step moves one thread, and a thread that is sending afterwards was
sending that message before or has just started. -/
theorem calls_act (s : Mailbox κ) (t : κ) (a : MailboxStep) :
    ∃ c, (s.act (t, a)).calls = update s.calls t c ∧ ∀ msg p, c = .sending msg p →
        (∃ p', s.calls t = .sending msg p') ∨ (msg.id = s.clock ∧ msg.sender = t) := by
  have hstay : ∃ c, s.calls = update s.calls t c ∧ ∀ msg p, c = .sending msg p →
        (∃ p', s.calls t = .sending msg p') ∨ (msg.id = s.clock ∧ msg.sender = t) :=
    ⟨s.calls t, (update_eq_self ..).symm, fun _ p h => .inl ⟨p, h⟩⟩
  have hsame : ∀ {msg p q}, s.calls t = .sending msg p → ∀ msg' q',
      MailboxCall.sending msg q = .sending msg' q' →
      (∃ p', s.calls t = .sending msg' p') ∨ (msg'.id = s.clock ∧ msg'.sender = t) := by
    rintro msg p q hcall _ _ ⟨⟩
    exact .inl ⟨p, hcall⟩
  cases a with
  | trySend =>
    simp only [act]
    split_ifs with hidle
    · refine ⟨_, rfl, ?_⟩
      rintro msg p ⟨⟩
      exact .inr ⟨rfl, rfl⟩
    · exact hstay
  | tryReceive =>
    simp only [act]
    split_ifs with hidle
    · exact ⟨_, rfl, nofun⟩
    · exact hstay
  | advance =>
    simp only [act, advance]
    split
    next => exact hstay
    next msg hcall =>
      split_ifs
      · exact ⟨_, rfl, nofun⟩
      · exact ⟨_, rfl, hsame hcall⟩
    next msg hcall => exact ⟨_, rfl, hsame hcall⟩
    next msg head hcall => exact ⟨_, rfl, hsame hcall⟩
    next msg head hcall => exact ⟨_, rfl, hsame hcall⟩
    next => exact ⟨_, rfl, nofun⟩
    next => split_ifs <;> exact ⟨_, rfl, nofun⟩
    all_goals exact ⟨_, rfl, nofun⟩

theorem sending_act {p : SendPoint} (h : (s.act a).calls t = .sending msg p) :
    (∃ p', s.calls t = .sending msg p') ∨ (msg.id = s.clock ∧ msg.sender = t) := by
  obtain ⟨t', a⟩ := a
  obtain ⟨c, hcalls, hc⟩ := calls_act s t' a
  rw [hcalls, update_apply] at h
  split_ifs at h with ht
  · subst ht
    exact hc msg p h
  · exact .inl ⟨p, h⟩

theorem accepted_act (s : Mailbox κ) (a : κ × MailboxStep) : (s.act a).accepted = s.accepted ∨
      ∃ t msg p, s.calls t = .sending msg p ∧ (s.act a).calls t = .idle ∧
        (s.act a).accepted = s.accepted ++ [msg] := by
  obtain ⟨t, a⟩ := a
  cases a with
  | trySend | tryReceive =>
    left
    simp only [act]
    split_ifs <;> rfl
  | advance =>
    simp only [act, advance]
    split <;> (try split_ifs) <;> (try exact .inl rfl)
    next msg hcall =>
      exact .inr ⟨t, msg, _, hcall, update_self .., rfl⟩

theorem stampInv_step (h : s.StampInv) (a : κ × MailboxStep) : (s.step a).StampInv := by
  have hflights : ∀ t msg p, (s.act a).calls t = .sending msg p →
      msg.sender = t ∧ msg.id < s.clock + 1 ∧ ∀ m ∈ s.accepted, m.sender = t → m.id < msg.id := by
    intro t msg p hcall
    rcases sending_act hcall with ⟨p', hold⟩ | ⟨hid, hsender⟩
    · obtain ⟨hsender, hid, hmono⟩ := h.flights t msg p' hold
      exact ⟨hsender, hid.trans (Nat.lt_succ_self _), hmono⟩
    · refine ⟨hsender, by omega, ?_⟩
      intro m hm _
      rw [hid]
      exact h.past m hm
  rcases accepted_act s a with hsame | ⟨t0, msg0, p0, hcall0, hidle, hmore⟩
  · refine ⟨?_, ?_, ?_⟩
    · intro t msg p hcall
      show _ ∧ _ ∧ ∀ m ∈ (s.act a).accepted, _
      rw [hsame]
      exact hflights t msg p hcall
    · show ∀ m ∈ (s.act a).accepted, m.id < s.clock + 1
      rw [hsame]
      exact fun m hm => (h.past m hm).trans (Nat.lt_succ_self _)
    · show (s.act a).accepted.Pairwise _
      rw [hsame]
      exact h.ordered
  · obtain ⟨hsender0, hid0, hmono0⟩ := h.flights t0 msg0 p0 hcall0
    refine ⟨?_, ?_, ?_⟩
    · intro t msg p (hcall : (s.act a).calls t = _)
      obtain ⟨hsender, hid, hmono⟩ := hflights t msg p hcall
      refine ⟨hsender, hid, ?_⟩
      show ∀ m ∈ (s.act a).accepted, _
      rw [hmore]
      intro m hm hm'
      rcases mem_append.mp hm with hm | hm
      · exact hmono m hm hm'
      · -- the accepted call was `t0`'s, and `t0` is in no call any more
        obtain rfl := mem_singleton.mp hm
        obtain rfl : t0 = t := hsender0.symm.trans hm'
        rw [hidle] at hcall
        cases hcall
    · show ∀ m ∈ (s.act a).accepted, m.id < s.clock + 1
      rw [hmore]
      intro m hm
      rcases mem_append.mp hm with hm | hm
      · exact (h.past m hm).trans (Nat.lt_succ_self _)
      · obtain rfl := mem_singleton.mp hm
        exact hid0.trans (Nat.lt_succ_self _)
    · show (s.act a).accepted.Pairwise _
      rw [hmore, pairwise_append]
      refine ⟨h.ordered, pairwise_singleton .., ?_⟩
      intro m hm _ hm' hsame
      obtain rfl := mem_singleton.mp hm'
      exact hmono0 m hm (hsame.trans hsender0)

theorem inv_step (h : s.Inv) (hx : s.Exclusive a) : (s.step a).Inv := by
  have hring := ringInv_act h.ring hx
  have hq := hring.queue
  exact ⟨⟨{ hq with }, { hring.producers with }, { hring.consumers with }⟩,
    stampInv_step h.stamps a⟩

omit [DecidableEq κ] in
theorem inv_boot : (boot : Mailbox κ).Inv where
  ring :=
    { queue := ⟨le_rfl, Nat.zero_le _, rfl, fun _ _ h => absurd h (Nat.not_lt_zero _), rfl⟩
      producers := ⟨fun _ => rfl, nofun⟩
      consumers := ⟨fun _ => rfl, nofun⟩ }
  stamps := ⟨nofun, nofun, .nil⟩

/-! ## Delivery -/

structure Delivers (s : Mailbox κ) : Prop where
  atMostOnce : ∀ m ∈ s.accepted, s.received.count (some m) ≤ 1
  exactlyOnce : s.received.length = s.accepted.length →
    ∀ m ∈ s.accepted, s.received.count (some m) = 1
  sent : ∀ x ∈ s.received, ∃ m ∈ s.accepted, x = some m
  ordered : ∀ t, ((s.received.filterMap id).filter (·.sender = t)).Pairwise
    fun m m' => m.id < m'.id
  bounded : (s.accepted.filter fun m => some m ∉ s.received).length ≤ queueDepth

omit [DecidableEq κ] in
theorem StampInv.nodup (h : s.StampInv) : s.accepted.Nodup := by
  refine h.ordered.imp ?_
  rintro m _ hlt rfl
  exact Nat.lt_irrefl _ (hlt rfl)

theorem Inv.delivers (h : s.Inv) : s.Delivers := by
  have hq := h.ring.queue
  have htaken := hq.taken
  have hnodup : s.received.Nodup := by
    rw [htaken]
    exact (h.stamps.nodup.sublist (take_sublist ..)).map (Option.some_injective _)
  refine ⟨?_, ?_, ?_, ?_, ?_⟩
  · intro m _
    exact nodup_iff_count_le_one.mp hnodup (some m)
  · intro hlen m hm
    refine count_eq_one_of_mem hnodup ?_
    rw [htaken, hlen, take_length]
    exact List.mem_map_of_mem hm
  · intro x hx
    rw [htaken] at hx
    obtain ⟨m, hm, rfl⟩ := List.mem_map.mp hx
    exact ⟨m, mem_of_mem_take hm, rfl⟩
  · intro t
    have hmsgs : s.received.filterMap id = s.accepted.take s.received.length := by
      rw [htaken]
      simp
    rw [hmsgs, pairwise_filter]
    refine (h.stamps.ordered.sublist (take_sublist ..)).imp ?_
    intro m _ hlt hm hm'
    exact hlt ((of_decide_eq_true hm).trans (of_decide_eq_true hm').symm)
  · have hsplit := take_append_drop s.received.length s.accepted
    have hdone : (s.accepted.take s.received.length).filter
        (fun m => some m ∉ s.received) = [] := by
      rw [filter_eq_nil_iff]
      intro m hm
      have hmem : some m ∈ s.received := by
        rw [htaken]
        exact List.mem_map_of_mem hm
      simpa using hmem
    rw [← hsplit, filter_append, hdone, nil_append]
    refine (length_filter_le ..).trans ?_
    have hroom := hq.room
    rw [length_drop]
    omega

/-- **The mailbox delivers, when producers and consumers exclude each other.**
In every state of every run whose successful length checks are never made while
another call of the same kind is between its own and its commit, every accepted
message has been received at most once, and exactly once when as many have been
received as accepted; nothing else is received; each sender's messages come in
the order sent; and at most `QUEUE_DEPTH` are outstanding. -/
theorem delivers_of_exclusive (as : List (κ × MailboxStep))
    (h : Along step Exclusive (boot : Mailbox κ) as) : (run step boot as).Delivers :=
  (run_invariant (fun _ _ hs hx => inv_step hs hx) inv_boot h).delivers

/-- One message there and back. -/
theorem delivers_roundTrip :
    let as : List (Bool × MailboxStep) :=
      (false, .trySend (.word 7)) :: replicate 5 (false, .advance) ++
        (true, .tryReceive) :: replicate 5 (true, .advance)
    (run step boot as).received = [some ⟨0, false, .word 7⟩] ∧ (run step boot as).Delivers := by
  intro as
  exact ⟨rfl, delivers_of_exclusive as (by decide)⟩

/-- Two producers, each past its length check before the other commits, and
then one consumer twice. -/
def producerRace : List (Fin 3 × MailboxStep) :=
  [(0, .trySend (.word 1)), (1, .trySend (.word 2))] ++
    (List.replicate 5 [(0, .advance), (1, .advance)]).flatten ++
    (List.replicate 2
      ((2, .tryReceive) :: List.replicate 5 (2, .advance))).flatten

/-- **The race loses a message and invents one.** Both sends were accepted and
two receives succeeded, but the first message is gone, and the second receive
returned a slot nobody wrote. -/
theorem producerRace_breaks :
    (run step boot producerRace).accepted = [⟨0, 0, .word 1⟩, ⟨1, 1, .word 2⟩] ∧
      (run step boot producerRace).received = [some ⟨1, 1, .word 2⟩, none] ∧
      ¬ (run step boot producerRace).Delivers := by
  have haccepted : (run step boot producerRace).accepted =
      [⟨0, 0, .word 1⟩, ⟨1, 1, .word 2⟩] := by decide
  have hreceived : (run step boot producerRace).received = [some ⟨1, 1, .word 2⟩, none] := by decide
  refine ⟨haccepted, hreceived, ?_⟩
  intro h
  obtain ⟨m, -, hm⟩ := h.sent none (by rw [hreceived]; simp)
  cases hm

end Mailbox

end AgenticOS
