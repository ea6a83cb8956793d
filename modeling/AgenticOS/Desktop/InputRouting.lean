import AgenticOS.Foundation.Execution
import AgenticOS.Ipc.Endpoint
import AgenticOS.Capability.Model

/-!
# Input routing

`input_routing.rs` with the window list it does not share: `register_window_input`, `set_focus`,
`deliver_key_event`, and of `window_manager.rs` the parts of `register`, `unregister_window`, a
click and `inject_agent_ui_action` that touch the list or the focus. The sender table holds one
`SEND` capability per registration and nothing revokes them, so an entry names its endpoint.
-/

namespace AgenticOS.InputRouting

open Foundation List

structure WindowInput where
  surfaceObject : ObjectId
  endpoint : Nat
  deriving DecidableEq

def noFocus : ObjectId := 0xFFFFFFFF

/-- A window of the list carries the endpoint it was registered with. -/
structure Routing where
  windows : List WindowInput
  registry : List WindowInput
  focusedSurface : ObjectId
  endpoints : List (Endpoint Message)

def boot : Routing := ⟨[], [], noFocus, []⟩

def isFor (surfaceObject : ObjectId) (w : WindowInput) : Bool := w.surfaceObject = surfaceObject

/-- Function keys of the benchmark and their break codes. -/
def isHotkey (scancode : UInt8) : Bool :=
  0x3B ≤ scancode && scancode ≤ 0x41 || scancode == 0x58 ||
    0xBB ≤ scancode && scancode ≤ 0xC1 || scancode == 0xD8

inductive Event
  | register (surfaceObject : ObjectId)
  | unregisterWindow (surfaceObject : ObjectId)
  | click (surfaceObject : ObjectId)
  | injectAgentUiAction (surfaceObject : ObjectId) (actionType arg0 : UInt32)
  | deliverKeyEvent (scancode : UInt8)
  | tryReceive (endpoint : Nat)

def Event.key : Event → Option UInt8
  | .deliverKeyEvent scancode => some scancode
  | .injectAgentUiAction _ actionType arg0 => if actionType = 1 then some arg0.toUInt8 else none
  | _ => none

namespace Routing

def deliverKeyEvent (s : Routing) (scancode : UInt8) : Routing :=
  if isHotkey scancode then s
  else if s.focusedSurface = noFocus then s
  else
    match s.registry.find? (isFor s.focusedSurface) with
    | none => s
    | some w =>
      match s.endpoints[w.endpoint]? with
      | none => s
      | some ep =>
        match ep.trySend (.word scancode.toUInt64) with
        | (true, ep) => { s with endpoints := s.endpoints.set w.endpoint ep }
        | (false, _) => s

def raise (s : Routing) (surfaceObject : ObjectId) : Routing :=
  match s.windows.find? (isFor surfaceObject) with
  | some w => { s with windows := s.windows.eraseP (isFor surfaceObject) ++ [w] }
  | none => s

def checked (s : Routing) (surfaceObject : ObjectId) : ObjectId :=
  match s.windows with
  | w :: _ => if surfaceObject = 0 then w.surfaceObject else surfaceObject
  | [] => surfaceObject

/-- The focus is set to the surface as it was given, not as it was checked. -/
def injectAgentUiAction (s : Routing) (surfaceObject : ObjectId) (actionType arg0 : UInt32) :
    Except String Unit × Routing :=
  if s.windows.any (isFor (s.checked surfaceObject)) then
    let focused := { s with focusedSurface := surfaceObject }
    match actionType with
    | 1 => (.ok (), focused.deliverKeyEvent arg0.toUInt8)
    | 2 => (.ok (), focused)
    | 3 => (.ok (), focused.raise (s.checked surfaceObject))
    | 4 => (.ok (), s)
    | _ => (.error "UnknownActionType", s)
  else (.error "NoSuchWindow", s)

/-- A click reaches a window of the list. -/
def step (s : Routing) : Event → Routing
  | .register surfaceObject =>
    let w := ⟨surfaceObject, s.endpoints.length⟩
    { s with
      windows := s.windows ++ [w], registry := s.registry ++ [w]
      endpoints := s.endpoints ++ [.new .zero] }
  | .unregisterWindow surfaceObject =>
    { s with windows := s.windows.eraseP (isFor surfaceObject) }
  | .click surfaceObject =>
    if s.windows.any (isFor surfaceObject) then
      raise { s with focusedSurface := surfaceObject } surfaceObject
    else s
  | .injectAgentUiAction surfaceObject actionType arg0 =>
    (s.injectAgentUiAction surfaceObject actionType arg0).2
  | .deliverKeyEvent scancode => s.deliverKeyEvent scancode
  | .tryReceive endpoint => { s with endpoints := s.endpoints.modify endpoint (·.tryReceive.2) }

def endpoint (s : Routing) (i : Nat) : Endpoint Message := s.endpoints.getD i (.new .zero)

/-- Nothing is enqueued on any endpoint: the slots and the head are what they were. -/
def Silent (s s' : Routing) : Prop :=
  ∀ i, (s'.endpoint i).qSlots = (s.endpoint i).qSlots ∧
    (s'.endpoint i).qHead = (s.endpoint i).qHead

/-- The message is enqueued on one endpoint, and the others are what they were. -/
def Sends (s s' : Routing) (i : Nat) (msg : Message) : Prop :=
  (s.endpoint i).trySend msg = (true, s'.endpoint i) ∧ ∀ j ≠ i, s'.endpoint j = s.endpoint j

/-- If the step enqueues anything, it is the key that comes in, on the endpoint of the one window
that is registered and has the focus; if an agent injects it, that is the window it was checked
for. -/
def Isolated (s : Routing) (e : Event) : Prop :=
  s.Silent (s.step e) ∨ ∃ w ∈ (s.step e).windows, ∃ scancode ∈ e.key,
    s.Sends (s.step e) w.endpoint (.word scancode.toUInt64) ∧
    w.surfaceObject = (s.step e).focusedSurface ∧
    ∀ surfaceObject actionType arg0, e = .injectAgentUiAction surfaceObject actionType arg0 →
      w.surfaceObject = s.checked surfaceObject

/-- A surface is registered once; a key comes in while the focused surface has its window, or
never had one; an agent that names surface 0 means the first window. -/
def Orderly (s : Routing) : Event → Prop
  | .register surfaceObject => ∀ x ∈ s.registry, x.surfaceObject ≠ surfaceObject
  | .deliverKeyEvent _ => (∃ w ∈ s.windows, w.surfaceObject = s.focusedSurface) ∨
      ∀ x ∈ s.registry, x.surfaceObject ≠ s.focusedSurface
  | .injectAgentUiAction surfaceObject actionType _ => actionType = 1 →
      s.checked surfaceObject = surfaceObject ∨ ∀ x ∈ s.registry, x.surfaceObject ≠ surfaceObject
  | _ => True

/-! ## The lists agree -/

def Agrees (s : Routing) : Prop :=
  ∀ w ∈ s.windows, s.registry.find? (isFor w.surfaceObject) = some w

variable {s s' : Routing} {e : Event} {surfaceObject : ObjectId}

theorem silent_of_eq (h : s'.endpoints = s.endpoints) : s.Silent s' := by
  intro i
  rw [endpoint, h]
  exact ⟨rfl, rfl⟩

@[simp] theorem deliverKeyEvent_windows (scancode : UInt8) :
    (s.deliverKeyEvent scancode).windows = s.windows ∧
      (s.deliverKeyEvent scancode).registry = s.registry ∧
      (s.deliverKeyEvent scancode).focusedSurface = s.focusedSurface := by
  unfold deliverKeyEvent
  repeat' split
  all_goals exact ⟨rfl, rfl, rfl⟩

theorem deliverKeyEvent_sends (s : Routing) (scancode : UInt8) :
    s.Silent (s.deliverKeyEvent scancode) ∨
      ∃ w, s.registry.find? (isFor s.focusedSurface) = some w ∧
        s.Sends (s.deliverKeyEvent scancode) w.endpoint (.word scancode.toUInt64) := by
  unfold deliverKeyEvent
  split_ifs
  · exact .inl (silent_of_eq rfl)
  · exact .inl (silent_of_eq rfl)
  cases hfind : s.registry.find? (isFor s.focusedSurface) with
  | none => exact .inl (silent_of_eq rfl)
  | some w =>
    dsimp only
    split
    · exact .inl (silent_of_eq rfl)
    · rename_i ep hep
      split
      · rename_i ep' hsend
        obtain ⟨hlt, rfl⟩ := List.getElem?_eq_some_iff.mp hep
        refine .inr ⟨w, rfl, ?_, fun j hj => ?_⟩
        · simpa [endpoint, hlt] using hsend
        · simp [endpoint, hj.symm]
      · exact .inl (silent_of_eq rfl)

theorem mem_raise {w : WindowInput} (hw : w ∈ (s.raise surfaceObject).windows) : w ∈ s.windows := by
  unfold raise at hw
  split at hw
  · rcases mem_append.mp hw with hw | hw
    · exact mem_of_mem_eraseP hw
    · rw [mem_singleton.mp hw]
      exact List.mem_of_find?_eq_some ‹_›
  · exact hw

theorem raise_registry : (s.raise surfaceObject).registry = s.registry := by
  unfold raise
  split <;> rfl

theorem Agrees.deliver (hs : s.Agrees) (scancode : UInt8)
    (hfocus : (∃ w ∈ s.windows, w.surfaceObject = s.focusedSurface) ∨
      ∀ x ∈ s.registry, x.surfaceObject ≠ s.focusedSurface) :
    s.Silent (s.deliverKeyEvent scancode) ∨ ∃ w ∈ s.windows,
      s.Sends (s.deliverKeyEvent scancode) w.endpoint (.word scancode.toUInt64) ∧
        w.surfaceObject = s.focusedSurface := by
  obtain hsame | ⟨w, hfind, hsent⟩ := s.deliverKeyEvent_sends scancode
  · exact .inl hsame
  obtain ⟨v, hv, hfocus⟩ | hnone := hfocus
  · have hown := hs v hv
    rw [hfocus, hfind, Option.some.injEq] at hown
    exact .inr ⟨v, hv, hown ▸ hsent, hfocus⟩
  · exact absurd (by simpa [isFor] using List.find?_some hfind)
      (hnone w (List.mem_of_find?_eq_some hfind))

theorem Agrees.step (hs : s.Agrees) (he : s.Orderly e) : (s.step e).Agrees := by
  have hsub (s' : Routing) (hreg : s'.registry = s.registry)
      (hmem : ∀ w ∈ s'.windows, w ∈ s.windows) : s'.Agrees := fun w hw => by
    rw [hreg]
    exact hs w (hmem w hw)
  cases e with
  | register surfaceObject =>
    intro w hw
    obtain hw | hw := mem_append.mp hw
    · exact (List.find?_append ..).trans (by rw [hs w hw]; rfl)
    · obtain rfl := mem_singleton.mp hw
      have hnone : s.registry.find? (isFor surfaceObject) = none := by
        simpa [isFor, Orderly] using he
      simp [Routing.step, List.find?_append, hnone, isFor]
  | unregisterWindow => exact hsub _ rfl fun w => mem_of_mem_eraseP
  | click =>
    simp only [Routing.step]
    split_ifs
    · exact hsub _ raise_registry fun w => mem_raise
    · exact hs
  | injectAgentUiAction =>
    simp only [Routing.step, injectAgentUiAction]
    split_ifs
    · split
      · exact hsub _ (by simp) (by simp)
      · exact hsub _ rfl fun _ => id
      · exact hsub _ raise_registry fun w => mem_raise
      · exact hs
      · exact hs
    · exact hs
  | deliverKeyEvent => exact hsub _ (by simp [Routing.step]) (by simp [Routing.step])
  | tryReceive => exact hsub _ rfl fun _ => id

theorem silent_register : s.Silent (s.step (.register surfaceObject)) := by
  intro i
  have hnew : (s.step (.register surfaceObject)).endpoint i = s.endpoint i := by
    simp only [endpoint, Routing.step, getD_eq_getElem?_getD, getElem?_append]
    split_ifs with hlt
    · rfl
    · rw [List.getElem?_eq_none (not_lt.mp hlt)]
      cases i - s.endpoints.length <;> rfl
  rw [hnew]
  exact ⟨rfl, rfl⟩

theorem silent_tryReceive {i : Nat} : s.Silent (s.step (.tryReceive i)) := by
  intro j
  simp only [endpoint, Routing.step, getD_eq_getElem?_getD, getElem?_modify]
  cases s.endpoints[j]? with
  | none => exact ⟨rfl, rfl⟩
  | some ep =>
    dsimp only [Option.map_eq_map, Option.map_some, Option.getD_some]
    split_ifs
    · unfold Endpoint.tryReceive
      split <;> exact ⟨rfl, rfl⟩
    · exact ⟨rfl, rfl⟩

theorem raise_endpoints : (s.raise surfaceObject).endpoints = s.endpoints := by
  unfold raise
  split <;> rfl

theorem Agrees.isolated (hs : s.Agrees) (he : s.Orderly e) : s.Isolated e := by
  cases e with
  | register => exact .inl silent_register
  | unregisterWindow => exact .inl (silent_of_eq rfl)
  | tryReceive => exact .inl silent_tryReceive
  | click =>
    refine .inl (silent_of_eq ?_)
    simp only [Routing.step]
    split_ifs
    · exact raise_endpoints
    · rfl
  | deliverKeyEvent scancode =>
    obtain hsame | ⟨w, hw, hsent, hfocus⟩ := hs.deliver scancode he
    · exact .inl hsame
    · refine .inr ⟨w, by simpa [Routing.step] using hw, scancode, rfl, hsent, ?_, by simp⟩
      simpa [Routing.step] using hfocus
  | injectAgentUiAction surfaceObject actionType arg0 =>
    unfold Isolated
    simp only [Routing.step, injectAgentUiAction]
    split_ifs with hexists
    · split
      · -- The focus is on the surface as given, which is the one that was checked.
        obtain ⟨v, hv, hvfor⟩ := List.any_eq_true.mp hexists
        have hfocus : (∃ w ∈ s.windows, w.surfaceObject = surfaceObject) ∨
            ∀ x ∈ s.registry, x.surfaceObject ≠ surfaceObject := by
          refine (he rfl).imp_left fun hchecked => ⟨v, hv, ?_⟩
          simpa [isFor, hchecked] using hvfor
        have hfocused : Agrees { s with focusedSurface := surfaceObject } := hs
        obtain hsame | ⟨w, hw, hsent, hwfocus⟩ := hfocused.deliver arg0.toUInt8 hfocus
        · exact .inl hsame
        · refine .inr ⟨w, by simpa using hw, _, rfl, hsent, by simpa using hwfocus, ?_⟩
          rintro _ _ _ ⟨⟩
          obtain hchecked | hnone := he rfl
          · exact hwfocus.trans hchecked.symm
          · exact absurd hwfocus (hnone w (List.mem_of_find?_eq_some (hs w hw)))
      · exact .inl (silent_of_eq rfl)
      · exact .inl (silent_of_eq raise_endpoints)
      · exact .inl (silent_of_eq rfl)
      · exact .inl (silent_of_eq rfl)
    · exact .inl (silent_of_eq rfl)

/-- **No key reaches another window.** In every run whose steps are orderly, every orderly step
is isolated. -/
theorem isolated_of_orderly {events : List Event} (hrun : Along step Orderly boot events)
    (he : (run step boot events).Orderly e) : (run step boot events).Isolated e := by
  have hs : (run step boot events).Agrees :=
    @run_invariant _ _ step Orderly Agrees (fun _ _ hs he => hs.step he) _ _
      (fun w hw => by cases hw) hrun
  exact hs.isolated he

theorem isolated_of_orderly_key :
    (run step boot [.register 7, .click 7]).Isolated (.deliverKeyEvent 0x1E) :=
  isolated_of_orderly ⟨by simp [Orderly, boot], trivial, trivial⟩ (.inl (by decide))

/-- A closed window keeps its entry and the focus, and gets the keys that follow. -/
theorem closed_window_gets_key :
    ¬ (run step boot [.register 7, .register 8, .click 7, .unregisterWindow 7]).Isolated
      (.deliverKeyEvent 0x1E) := by
  rintro (hsilent | ⟨w, hw, -, -, -, hfocus, -⟩)
  · exact absurd (hsilent 0).2 (by decide +kernel)
  · revert w
    decide +kernel

end Routing
end AgenticOS.InputRouting
