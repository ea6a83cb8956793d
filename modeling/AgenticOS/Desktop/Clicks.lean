import AgenticOS.Capability.Model
import AgenticOS.Desktop.Geometry
import AgenticOS.Foundation.Execution

/-!
# Clicks

`window_manager.rs`: hit tests, `raise_window`, `move_window` and the part of `report_mouse` that
acts on the window list, the focus (`input_routing::FOCUSED_SURFACE`) and the drag. Repainting
and the pixels of the windows are left out: nothing here reads them.
-/

namespace AgenticOS.Desktop

open List Option Foundation

def titleBarHeight : Nat := 20

structure Window where
  surfaceObject : ObjectId
  width : Nat
  height : Nat
  x : Int
  y : Int
  deriving DecidableEq

def pointInRect (px py rx ry : Int) (rw rh : Nat) : Bool :=
  px ≥ rx && px < asI32 (rx + rw) && py ≥ ry && py < asI32 (ry + rh)

def onTitlebar (x y : Int) (w : Window) : Bool :=
  pointInRect x y w.x (asI32 (w.y - titleBarHeight)) w.width titleBarHeight

def onContent (x y : Int) (w : Window) : Bool := pointInRect x y w.x w.y w.width w.height

def topmostTitlebarAt (windows : List Window) (x y : Int) : Option ObjectId :=
  (windows.reverse.find? (onTitlebar x y)).map (·.surfaceObject)

def topmostContentAt (windows : List Window) (x y : Int) : Option ObjectId :=
  (windows.reverse.find? (onContent x y)).map (·.surfaceObject)

def hasSurface (surfaceObject : ObjectId) (w : Window) : Bool := w.surfaceObject == surfaceObject

def raiseWindow (windows : List Window) (surfaceObject : ObjectId) : List Window :=
  match windows.find? (hasSurface surfaceObject) with
  | some win =>
    if windows.findIdx (hasSurface surfaceObject) + 1 < windows.length then
      windows.eraseP (hasSurface surfaceObject) ++ [win]
    else windows
  | none => windows

/-- `i32::clamp`, which panics unless `lo ≤ hi`. -/
def clamp (n lo hi : Int) : Option Int := if lo ≤ hi then some (max lo (min n hi)) else none

def maxPlace (screen size : Nat) : Int := max (asI32 (asI32 screen - asI32 size)) 0

def moveWindow (windows : List Window) (surfaceObject : ObjectId) (newX newY : Int)
    (fbWidth fbHeight : Nat) : Option (List Window) :=
  match windows.find? (hasSurface surfaceObject) with
  | some w => do
    let x ← clamp newX 0 (maxPlace fbWidth w.width)
    let y ← clamp newY titleBarHeight (maxPlace fbHeight w.height)
    return windows.modify (windows.findIdx (hasSurface surfaceObject))
      fun w => { w with x := x, y := y }
  | none => some windows

structure State where
  windows : List Window
  focusedSurface : ObjectId
  dragging : Option (ObjectId × Int × Int)
  leftButtonDown : Bool
  cursorX : Int
  cursorY : Int

def press (d : State) (x y : Int) : List Window × ObjectId × Option (ObjectId × Int × Int) :=
  match topmostTitlebarAt d.windows x y with
  | some target =>
    let windows := raiseWindow d.windows target
    (windows, target, match windows.find? (hasSurface target) with
      | some w => some (target, asI32 (x - w.x), asI32 (y - w.y))
      | none => d.dragging)
  | none =>
    match topmostContentAt d.windows x y with
    | some target => (raiseWindow d.windows target, target, d.dragging)
    | none => (d.windows, d.focusedSurface, d.dragging)

def drag (windows : List Window) (dragging : Option (ObjectId × Int × Int)) (x y : Int)
    (fbWidth fbHeight : Nat) : Option (List Window) :=
  match dragging with
  | some (object, offX, offY) =>
    moveWindow windows object (asI32 (x - offX)) (asI32 (y - offY)) fbWidth fbHeight
  | none => some windows

def cursor (fbWidth fbHeight : Nat) (d : State) (dx dy : Int) : Option (Int × Int) := do
  let x ← clamp (asI32 (d.cursorX + dx)) 0 (asI32 (fbWidth - 1))
  let y ← clamp (asI32 (d.cursorY + dy)) 0 (asI32 (fbHeight - 1))
  return (x, y)

/-- `none` is a panic of one of the `clamp` calls. -/
def reportMouse (fbWidth fbHeight : Nat) (d : State) (dx dy : Int) (leftDown : Bool) :
    Option State := do
  let (x, y) ← cursor fbWidth fbHeight d dx dy
  let (windows, focusedSurface, dragging) :=
    if leftDown && !d.leftButtonDown then press d x y
    else (d.windows, d.focusedSurface, d.dragging)
  let dragging := if leftDown then dragging else none
  let windows ← drag windows dragging x y fbWidth fbHeight
  return ⟨windows, focusedSurface, dragging, leftDown, x, y⟩

/-- Every surface has one window, and nothing is dragged while the button is up. -/
structure State.Ok (d : State) : Prop where
  ids : (d.windows.map (·.surfaceObject)).Nodup
  released : d.leftButtonDown = false → d.dragging = none

variable {windows : List Window}

theorem find?_hasSurface {s : ObjectId} {w : Window} (h : windows.find? (hasSurface s) = some w) :
    w.surfaceObject = s ∧ ∃ below above, windows = below ++ w :: above ∧
      raiseWindow windows s = below ++ above ++ [w] := by
  obtain ⟨hw, below, above, rfl, hbelow⟩ := List.find?_eq_some_iff_append.mp h
  have hnot (v : Window) (hv : v ∈ below) : ¬ hasSurface s v = true := by
    simpa using hbelow v hv
  refine ⟨by simpa [hasSurface] using hw, below, above, rfl, ?_⟩
  simp only [raiseWindow, h, eraseP_append_right _ hnot, eraseP_cons_of_pos hw]
  rw [ite_eq_left_iff, findIdx_append]
  intro hlast
  rw [if_neg (by simpa using hbelow), findIdx_cons] at hlast
  simp only [hw, cond_true, length_append, length_cons] at hlast
  rw [length_eq_zero_iff.mp (show above.length = 0 by omega), append_nil]

/-- What no mouse event changes of a window. -/
def Window.frame (w : Window) : ObjectId × Nat × Nat := (w.surfaceObject, w.width, w.height)

theorem frames_raiseWindow (s : ObjectId) :
    (raiseWindow windows s).map Window.frame ~ windows.map Window.frame := by
  cases hfind : windows.find? (hasSurface s) with
  | none => simp only [raiseWindow, hfind, Perm.refl]
  | some w =>
    obtain ⟨-, _, _, rfl, hraise⟩ := find?_hasSurface hfind
    rw [hraise]
    refine Perm.map _ ?_
    simpa using (perm_append_singleton w _).trans perm_middle.symm

theorem getLast?_raiseWindow {s : ObjectId} {w : Window}
    (h : (raiseWindow windows s).find? (hasSurface s) = some w) :
    ((raiseWindow windows s).getLast?).map (·.surfaceObject) = some s := by
  cases hfind : windows.find? (hasSurface s) with
  | none => simp [raiseWindow, hfind] at h
  | some v =>
    obtain ⟨hid, _, _, -, hraise⟩ := find?_hasSurface hfind
    simp [hraise, hid]

variable {fbHeight fbWidth : Nat}

theorem frames_moveWindow {windows' : List Window} {s : ObjectId} {x y : Int}
    (h : moveWindow windows s x y fbWidth fbHeight = some windows') :
    windows'.map Window.frame = windows.map Window.frame := by
  unfold moveWindow at h
  split at h
  · simp only [bind_eq_bind, bind_eq_some_iff, Option.pure_def, Option.some.injEq] at h
    obtain ⟨_, -, _, -, rfl⟩ := h
    ext i : 1
    simp only [List.getElem?_map, List.getElem?_modify]
    cases windows[i]? <;> simp [apply_ite, Window.frame]
  · rw [Option.some.inj h]

theorem frames_drag {windows' : List Window} {dragging : Option (ObjectId × Int × Int)} {x y : Int}
    (h : drag windows dragging x y fbWidth fbHeight = some windows') :
    windows'.map Window.frame = windows.map Window.frame := by
  unfold drag at h
  split at h
  · exact frames_moveWindow h
  · rw [Option.some.inj h]

/-- The window that is dragged is on top and has the focus. -/
def Grabbed (windows : List Window) (focused : ObjectId)
    (dragging : Option (ObjectId × Int × Int)) : Prop :=
  ∀ g ∈ dragging, focused = g.1 ∧ (windows.map Window.frame).getLast?.map Prod.fst = some g.1

theorem press_grabs {d : State} (x y : Int) (h : d.dragging = none) :
    (press d x y).1.map Window.frame ~ d.windows.map Window.frame ∧
      Grabbed (press d x y).1 (press d x y).2.1 (press d x y).2.2 := by
  unfold press
  split
  · refine ⟨frames_raiseWindow _, fun g hg => ?_⟩
    dsimp only at hg
    split at hg
    · obtain rfl := Option.some.inj hg
      refine ⟨rfl, ?_⟩
      rw [getLast?_map, Option.map_map]
      exact getLast?_raiseWindow ‹_›
    · simp [h] at hg
  · split
    · exact ⟨frames_raiseWindow _, by simp [Grabbed, h]⟩
    · exact ⟨.refl _, by simp [Grabbed, h]⟩

/-- The windows are those of `d`, in some order and in some places. -/
structure State.Follows (d d' : State) : Prop where
  frames : d'.windows.map Window.frame ~ d.windows.map Window.frame
  released : d'.leftButtonDown = false → d'.dragging = none
  grabbed : Grabbed d'.windows d'.focusedSurface d'.dragging

theorem State.Follows.reportMouse {d₀ d d' : State} {dx dy : Int} {leftDown : Bool}
    (h : d₀.Follows d) (hcall : reportMouse fbWidth fbHeight d dx dy leftDown = some d') :
    d₀.Follows d' := by
  simp only [Desktop.reportMouse, bind_eq_bind, bind_eq_some_iff, Option.pure_def,
    Option.some.injEq] at hcall
  obtain ⟨⟨x, y⟩, -, _, hdrag, rfl⟩ := hcall
  dsimp only at hdrag ⊢
  generalize hp : (if leftDown && !d.leftButtonDown then press d x y
    else (d.windows, d.focusedSurface, d.dragging)) = p at hdrag
  have hheld : p.1.map Window.frame ~ d.windows.map Window.frame ∧ Grabbed p.1 p.2.1 p.2.2 := by
    rw [← hp]
    split
    · exact press_grabs x y (h.released (by simp_all))
    · exact ⟨.refl _, h.grabbed⟩
  have hframes := frames_drag hdrag
  refine ⟨hframes ▸ hheld.1.trans h.frames, fun hup => if_neg (by simp_all), ?_⟩
  cases leftDown with
  | false => nofun
  | true =>
    unfold Grabbed
    rw [hframes]
    exact hheld.2

/-- **A whole run of the mouse.** No window is lost, doubled or resized, the window that is
dragged is on top and has the focus, and nothing is dragged while the button is up. -/
theorem mouse_run {d d' : State} {events : List (Int × Int × Bool)} (h : d.Ok)
    (hup : d.leftButtonDown = false)
    (hrun : attempt (fun d e => reportMouse fbWidth fbHeight d e.1 e.2.1 e.2.2) d events =
      some d') : d.Follows d' ∧ d'.Ok := by
  have hfollows : d.Follows d' :=
    attempt_invariant (G := fun _ _ => True) (fun _ _ _ hs _ hstep => hs.reportMouse hstep)
      ⟨.refl _, h.released, by simp [Grabbed, h.released hup]⟩
      (meets_of_forall (fun _ _ => trivial) _ _) hrun
  refine ⟨hfollows, ?_, hfollows.released⟩
  have hids := hfollows.frames.map Prod.fst
  rw [List.map_map, List.map_map] at hids
  exact hids.nodup_iff.mpr h.ids

theorem mouse_run_click : ∃ d', attempt (fun d e => reportMouse 640 480 d e.1 e.2.1 e.2.2)
      ⟨[⟨1, 100, 100, 0, 20⟩, ⟨2, 100, 100, 50, 20⟩], 2, none, false, 10, 10⟩
      [(0, 0, true), (5, 5, true), (0, 0, false)] = some d' ∧ d'.Ok :=
  exists_run_imp (Q := fun _ => True) ⟨_, rfl, trivial⟩ fun _ hrun _ =>
    (mouse_run ⟨by decide, fun _ => rfl⟩ rfl hrun).2

/-! ## The window that is seen -/

/-- The topmost window whose title bar or content is at the point. -/
def seen (windows : List Window) (x y : Int) : Option Window :=
  windows.reverse.find? fun w => onTitlebar x y w || onContent x y w

def Reaches (d d' : State) (x y : Int) : Prop :=
  match seen d.windows x y with
  | some w =>
    d'.focusedSurface = w.surfaceObject ∧
    (∃ w', w'.surfaceObject = w.surfaceObject ∧
      d'.windows = d.windows.filter (·.surfaceObject ≠ w.surfaceObject) ++ [w']) ∧
    d'.dragging.map (·.1) = if onTitlebar x y w then some w.surfaceObject else none
  | none =>
    d'.focusedSurface = d.focusedSurface ∧ d'.windows = d.windows ∧ d'.dragging = d.dragging

/-- The topmost window is hit on its title bar and can be placed on the screen, or is hit on its
content and no window under it has its title bar there. -/
def Aimed (fbHeight : Nat) (windows : List Window) (x y : Int) : Prop :=
  ∀ w, seen windows x y = some w →
    if onTitlebar x y w then (titleBarHeight : Int) ≤ maxPlace fbHeight w.height
    else ∀ v ∈ windows, onTitlebar x y v = false

variable {d : State} {x y : Int} {w : Window}

theorem find?_imp {α : Type} {p q : α → Bool} {l : List α} {a : α} (h : l.find? p = some a)
    (hq : q a = true) (himp : ∀ b, q b = true → p b = true) : l.find? q = some a := by
  obtain ⟨-, as, bs, rfl, has⟩ := List.find?_eq_some_iff_append.mp h
  refine List.find?_eq_some_iff_append.mpr ⟨hq, as, bs, rfl, fun b hb => ?_⟩
  by_contra hqb
  have hpb := has b hb
  rw [himp b (by simpa using hqb)] at hpb
  cases hpb

theorem State.Ok.raise (h : d.Ok) (hw : w ∈ d.windows) : raiseWindow d.windows w.surfaceObject =
      d.windows.filter (·.surfaceObject ≠ w.surfaceObject) ++ [w] := by
  have hsome : (d.windows.find? (hasSurface w.surfaceObject)).isSome := by
    rw [List.find?_isSome]
    exact ⟨w, hw, by simp [hasSurface]⟩
  obtain ⟨v, hv⟩ := isSome_iff_exists.mp hsome
  obtain ⟨hid, below, above, hlist, hraise⟩ := find?_hasSurface hv
  have hvw : v = w :=
    inj_on_of_nodup_map h.ids (List.mem_of_find?_eq_some hv) hw hid
  subst hvw
  rw [hraise, hlist]
  have hids := h.ids
  rw [hlist, map_append, map_cons, nodup_middle, nodup_cons, ← map_append] at hids
  have hothers (u : Window) (hu : u ∈ below ++ above) : u.surfaceObject ≠ v.surfaceObject :=
    fun heq => hids.1 (heq ▸ List.mem_map_of_mem hu)
  simp only [filter_append, filter_cons, ne_eq, not_true_eq_false, decide_false,
    Bool.false_eq_true, if_false]
  rw [filter_eq_self.mpr fun u hu => by simpa using hothers u (mem_append_left _ hu),
    filter_eq_self.mpr fun u hu => by simpa using hothers u (mem_append_right _ hu)]

theorem moveWindow_raised (fbWidth fbHeight : Nat) {others : List Window} (newX newY : Int)
    (hothers : ∀ v ∈ others, v.surfaceObject ≠ w.surfaceObject) :
    ∃ cx, moveWindow (others ++ [w]) w.surfaceObject newX newY fbWidth fbHeight =
      (clamp newY titleBarHeight (maxPlace fbHeight w.height)).map fun cy =>
        others ++ [{ w with x := cx, y := cy }] := by
  have hnone : others.find? (hasSurface w.surfaceObject) = none := by
    simpa [hasSurface] using hothers
  have hfind : (others ++ [w]).find? (hasSurface w.surfaceObject) = some w := by
    simp [List.find?_append, hnone, hasSurface]
  have hidx : (others ++ [w]).findIdx (hasSurface w.surfaceObject) = others.length := by
    rw [findIdx_append, if_neg (by simpa [hasSurface] using hothers)]
    simp [findIdx_cons, hasSurface]
  have hmodify (f : Window → Window) :
      (others ++ [w]).modify others.length f = others ++ [f w] := by
    clear hothers hnone hfind hidx
    induction others with
    | nil => rfl
    | cons v others ih => rw [cons_append, length_cons, modify_succ_cons, ih]; rfl
  have hx : (0 : Int) ≤ maxPlace fbWidth w.width := by
    rw [maxPlace]
    exact le_max_right _ _
  have hcx : ∃ cx, clamp newX 0 (maxPlace fbWidth w.width) = some cx := ⟨_, if_pos hx⟩
  obtain ⟨cx, hcx⟩ := hcx
  refine ⟨cx, ?_⟩
  rw [moveWindow, hfind]
  dsimp only
  rw [hcx, hidx]
  cases clamp newY titleBarHeight (maxPlace fbHeight w.height) with
  | none => rfl
  | some => exact congrArg some (hmodify _)

/-- **Clicks.** A press does to the window that is seen at the cursor what it should if and only
if the press is aimed. -/
theorem press_reaches_iff {dx dy : Int} (h : d.Ok) (hup : d.leftButtonDown = false)
    (hcursor : cursor fbWidth fbHeight d dx dy = some (x, y)) :
    (∃ d', reportMouse fbWidth fbHeight d dx dy true = some d' ∧ Reaches d d' x y) ↔
      Aimed fbHeight d.windows x y := by
  have hcall : reportMouse fbWidth fbHeight d dx dy true =
      (drag (press d x y).1 (press d x y).2.2 x y fbWidth fbHeight).map fun windows =>
        ⟨windows, (press d x y).2.1, (press d x y).2.2, true, x, y⟩ := by
    simp [Desktop.reportMouse, hcursor, hup, map_eq_bind]
  have hdragging := h.released hup
  rw [hcall, Aimed]
  unfold Reaches
  cases hseen : seen d.windows x y with
  | none =>
    have hnone (v : Window) (hv : v ∈ d.windows) :
        onTitlebar x y v = false ∧ onContent x y v = false := by
      simpa using (List.find?_eq_none.mp hseen) v (mem_reverse.mpr hv)
    have hbar : topmostTitlebarAt d.windows x y = none := by
      simpa [topmostTitlebarAt] using fun v hv => (hnone v hv).1
    have hcontent : topmostContentAt d.windows x y = none := by
      simpa [topmostContentAt] using fun v hv => (hnone v hv).2
    simp [press, hbar, hcontent, hdragging, drag]
  | some w =>
    have hw : w ∈ d.windows := mem_reverse.mp (List.mem_of_find?_eq_some hseen)
    have hothers (v : Window)
        (hv : v ∈ d.windows.filter (·.surfaceObject ≠ w.surfaceObject)) :
        v.surfaceObject ≠ w.surfaceObject := by
      simpa using (mem_filter.mp hv).2
    simp only [Option.some.injEq, forall_eq']
    cases hon : onTitlebar x y w with
    | true =>
      -- Nothing above `w` is at the point, so the scan of the title bars stops at `w`.
      have hbar : topmostTitlebarAt d.windows x y = some w.surfaceObject := by
        rw [topmostTitlebarAt, find?_imp hseen hon fun v hv => by simp [hv]]
        rfl
      have hfind : (d.windows.filter (·.surfaceObject ≠ w.surfaceObject) ++ [w]).find?
          (hasSurface w.surfaceObject) = some w := by
        rw [List.find?_append, List.find?_eq_none.mpr (by simp [hasSurface])]
        simp [hasSurface]
      simp only [press, hbar, h.raise hw, hfind, if_true, drag]
      obtain ⟨_, hmove⟩ := moveWindow_raised fbWidth fbHeight
        (asI32 (x - asI32 (x - w.x))) (asI32 (y - asI32 (y - w.y))) hothers
      rw [hmove, clamp]
      split_ifs with hroom
      · simp [hroom]
      · simp [hroom]
    | false =>
      have hcontent : onContent x y w = true := by
        simpa [hon] using List.find?_some hseen
      cases hbar : d.windows.reverse.find? (onTitlebar x y) with
      | none =>
        have hclear (v : Window) (hv : v ∈ d.windows) : onTitlebar x y v = false := by
          simpa using List.find?_eq_none.mp hbar v (mem_reverse.mpr hv)
        have htarget := find?_imp hseen hcontent fun v hv => by simp [hv]
        simp only [press, topmostTitlebarAt, topmostContentAt, hbar, htarget, map_none,
          map_some, hdragging, drag, h.raise hw]
        simpa using hclear
      | some v =>
        -- The scan of the title bars finds a window under `w`.
        have hv : v ∈ d.windows := mem_reverse.mp (List.mem_of_find?_eq_some hbar)
        have hvon := List.find?_some hbar
        have hne : v.surfaceObject ≠ w.surfaceObject := by
          intro hid
          rw [inj_on_of_nodup_map h.ids hv hw hid, hon] at hvon
          cases hvon
        have hfocus : (press d x y).2.1 = v.surfaceObject := by
          simp [press, topmostTitlebarAt, hbar]
        simp only [hfocus, Bool.false_eq_true, if_false]
        refine iff_of_false ?_ fun hclear => by simp [hclear v hv] at hvon
        rintro ⟨d', hd', hd, -⟩
        obtain ⟨windows, -, rfl⟩ := map_eq_some_iff.mp hd'
        exact hne hd

/-- Two windows apart from each other, the second one under the cursor. -/
theorem press_reaches_iff_content : (∃ d', reportMouse 640 480
        ⟨[⟨1, 100, 100, 0, 20⟩, ⟨2, 100, 100, 200, 20⟩], 1, none, false, 250, 60⟩ 0 0 true =
          some d' ∧
      Reaches ⟨[⟨1, 100, 100, 0, 20⟩, ⟨2, 100, 100, 200, 20⟩], 1, none, false, 250, 60⟩ d' 250 60) ↔
      Aimed 480 [⟨1, 100, 100, 0, 20⟩, ⟨2, 100, 100, 200, 20⟩] 250 60 :=
  press_reaches_iff ⟨by decide, fun _ => rfl⟩ rfl (by decide +kernel)

/-- The content of window 2 lies over the title bar of window 1: the press focuses window 1. -/
theorem click_reaches_covered_window :
    ¬ ∃ d', reportMouse 640 480
        ⟨[⟨1, 100, 100, 0, 50⟩, ⟨2, 100, 100, 0, 20⟩], 2, none, false, 10, 40⟩ 0 0 true = some d' ∧
      Reaches ⟨[⟨1, 100, 100, 0, 50⟩, ⟨2, 100, 100, 0, 20⟩], 2, none, false, 10, 40⟩ d' 10 40 := by
  rintro ⟨d', hcall, hfocus, -⟩
  have hother : (reportMouse 640 480
      ⟨[⟨1, 100, 100, 0, 50⟩, ⟨2, 100, 100, 0, 20⟩], 2, none, false, 10, 40⟩ 0 0 true).all
      (·.focusedSurface = 1) = true := by decide +kernel
  simp_all

end AgenticOS.Desktop
