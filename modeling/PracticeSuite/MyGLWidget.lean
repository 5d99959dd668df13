import PracticeSuite.CInt
import PracticeSuite.Trace
import PracticeSuite.TurnLoop

/-! The rotation of the OpenGL widget: three angles in sixteenths of a degree, set by the slots
of the sliders and by dragging with the mouse. -/
namespace PracticeSuite.MyGLWidget
open CInt
open TurnLoop (wrap wrapped wrapEq wrappedCongruent wrappedSame)
open Trace (attempt Always EachStep)

theorem turnPositive : (0 : Int) < 360*16 := by decide

/- while (angle < 0) angle += 360 * 16; while (angle > 360) angle -= 360 * 16; -/
def qNormalizeAngle (angle : Int) : Option Int := wrap (Fits 32) turnPositive 0 360 angle

inductive Axis where
  | x | y | z
  deriving DecidableEq, Repr

structure Point where
  x : Int
  y : Int
  deriving DecidableEq, Repr

/- `changed` is what the widget has emitted: xRotationChanged, yRotationChanged and
zRotationChanged. -/
structure Widget where
  xRot : Int
  yRot : Int
  zRot : Int
  lastPos : Point
  changed : List (Axis × Int)
  deriving DecidableEq, Repr

def initial : Widget := ⟨0,0,0,⟨0,0⟩,[]⟩

def Widget.rot (w : Widget) : Axis → Int
  | .x => w.xRot
  | .y => w.yRot
  | .z => w.zRot

def Widget.store (w : Widget) (angle : Int) : Axis → Widget
  | .x => {w with xRot := angle}
  | .y => {w with yRot := angle}
  | .z => {w with zRot := angle}

def setRotation (axis : Axis) (w : Widget) (angle : Int) : Option Widget := do
  let angle ← qNormalizeAngle angle
  if angle ≠ w.rot axis then some {w.store angle axis with changed := w.changed ++ [(axis,angle)]} else some w

def setXRotation : Widget → Int → Option Widget := setRotation .x
def setYRotation : Widget → Int → Option Widget := setRotation .y
def setZRotation : Widget → Int → Option Widget := setRotation .z

structure Buttons where
  left : Bool
  right : Bool
  deriving DecidableEq, Repr

def dragged (rot d : Int) : Option Int := do
  let d ← checked (8*d)
  checked (rot + d)

def mousePressEvent (w : Widget) (pos : Point) : Widget := {w with lastPos := pos}

def drag (w : Widget) (dx dy : Int) (buttons : Buttons) : Option Widget :=
  if buttons.left then do
    let w ← setXRotation w (← dragged w.xRot dy)
    setYRotation w (← dragged w.yRot dx)
  else if buttons.right then do
    let w ← setXRotation w (← dragged w.xRot dy)
    setZRotation w (← dragged w.zRot dx)
  else some w

def mouseMoveEvent (w : Widget) (pos : Point) (buttons : Buttons) : Option Widget := do
  let dx ← checked (pos.x - w.lastPos.x)
  let dy ← checked (pos.y - w.lastPos.y)
  let w ← drag w dx dy buttons
  some {w with lastPos := pos}

inductive Event where
  | rotate (axis : Axis) (angle : IntValue)
  | mousePress (pos : Point)
  | mouseMove (pos : Point) (buttons : Buttons)
  deriving DecidableEq, Repr

def step (w : Widget) : Event → Option Widget
  | .rotate .x angle => setXRotation w angle
  | .rotate .y angle => setYRotation w angle
  | .rotate .z angle => setZRotation w angle
  | .mousePress pos => some (mousePressEvent w pos)
  | .mouseMove pos buttons => mouseMoveEvent w pos buttons

theorem normalizeEq {angle : Int} (fits : Fits 32 angle) : qNormalizeAngle angle = some (wrapped (360*16) 360 angle) := by
  unfold Fits at fits
  apply wrapEq
  · decide
  · intro m least most
    unfold Fits
    omega
  · intro m most least
    unfold Fits
    omega

theorem wrappedInTurn (angle : Int) :
    0 ≤ wrapped (360*16) 360 angle ∧ wrapped (360*16) 360 angle < 360*16 ↔ angle % (360*16) ≤ 360 := by
  unfold wrapped
  omega

theorem storeRot (w : Widget) (angle : Int) (axis a : Axis) : (w.store angle axis).rot a = if a = axis then angle else w.rot a := by
  cases axis <;> cases a <;> rfl

theorem setRotationRot {axis : Axis} {w t : Widget} {angle : Int} (fits : Fits 32 angle) (went : setRotation axis w angle = some t)
    (a : Axis) : t.rot a = if a = axis then wrapped (360*16) 360 angle else w.rot a := by
  simp only [setRotation,normalizeEq fits,bind,Option.bind_some] at went
  split at went
  · cases Option.some.inj went
    exact storeRot w _ axis a
  · rename_i same
    cases Option.some.inj went
    rw [not_not.mp same]
    split
    · rename_i here
      rw [here]
    · rfl

theorem draggedSome {rot d angle : Int} (fits : dragged rot d = some angle) : angle = rot + 8*d ∧ Fits 32 angle := by
  obtain ⟨product,first,second⟩ := Option.bind_eq_some_iff.mp fits
  rw [checkedSome first] at second
  exact ⟨checkedSome second,checkedFits second⟩

theorem dragRot {first second : Axis} (different : second ≠ first) {w t u : Widget} {dx dy p q : Int}
    (down : dragged (w.rot first) dy = some p) (turned : setRotation first w p = some t)
    (across : dragged (t.rot second) dx = some q) (went : setRotation second t q = some u) (a : Axis) :
    u.rot a = if a = second then wrapped (360*16) 360 (w.rot second + 8*dx)
      else if a = first then wrapped (360*16) 360 (w.rot first + 8*dy) else w.rot a := by
  obtain ⟨rfl,fitsDown⟩ := draggedSome down
  have kept : t.rot second = w.rot second := by
    rw [setRotationRot fitsDown turned,if_neg different]
  rw [kept] at across
  obtain ⟨rfl,fitsAcross⟩ := draggedSome across
  rw [setRotationRot fitsAcross went,setRotationRot fitsDown turned]

def aim (w : Widget) : Event → Axis → Option Int
  | .rotate axis angle,a => if a = axis then some angle else none
  | .mousePress _,_ => none
  | .mouseMove pos buttons,.x => if buttons.left ∨ buttons.right then some (w.xRot + 8*(pos.y - w.lastPos.y)) else none
  | .mouseMove pos buttons,.y => if buttons.left then some (w.yRot + 8*(pos.x - w.lastPos.x)) else none
  | .mouseMove pos buttons,.z =>
    if buttons.right ∧ ¬ buttons.left then some (w.zRot + 8*(pos.x - w.lastPos.x)) else none

theorem mouseMoveRot {w t : Widget} {pos : Point} {buttons : Buttons} (went : mouseMoveEvent w pos buttons = some t) (a : Axis) :
    t.rot a = (aim w (.mouseMove pos buttons) a).elim (w.rot a) (wrapped (360*16) 360) := by
  simp only [mouseMoveEvent,bind,Option.bind_eq_some_iff] at went
  obtain ⟨dx,fitsX,dy,fitsY,u,turned,last⟩ := went
  have same : t.rot a = u.rot a := by
    cases Option.some.inj last
    cases a <;> rfl
  rw [same]
  cases checkedSome fitsX
  cases checkedSome fitsY
  unfold drag at turned
  split at turned
  · rename_i left
    simp only [bind,Option.bind_eq_some_iff] at turned
    obtain ⟨p,down,v,first,q,across,second⟩ := turned
    rw [dragRot (by decide : Axis.y ≠ .x) down first across second a]
    cases a <;> simp [aim,left,Widget.rot]
  · rename_i left
    split at turned
    · rename_i right
      simp only [bind,Option.bind_eq_some_iff] at turned
      obtain ⟨p,down,v,first,q,across,second⟩ := turned
      rw [dragRot (by decide : Axis.z ≠ .x) down first across second a]
      cases a <;> simp [aim,left,right,Widget.rot]
    · rename_i right
      cases Option.some.inj turned
      cases a <;> simp [aim,left,right,Widget.rot]

theorem stepRot {w t : Widget} {e : Event} (went : step w e = some t) (a : Axis) :
    t.rot a = (aim w e a).elim (w.rot a) (wrapped (360*16) 360) := by
  cases e with
  | rotate axis angle =>
    have slot : setRotation axis w angle = some t := by cases axis <;> exact went
    rw [setRotationRot angle.property slot a,aim]
    split <;> rfl
  | mousePress pos =>
    cases Option.some.inj went
    cases a <;> rfl
  | mouseMove pos buttons => exact mouseMoveRot went a

def InTurn (w : Widget) : Prop := ∀ a, 0 ≤ w.rot a ∧ w.rot a < 360*16

def Upright (w : Widget) (e : Event) : Prop := ∀ a, ∀ angle ∈ aim w e a, angle % (360*16) ≤ 360

theorem stepKeeps {w t : Widget} {e : Event} (upright : Upright w e) (inside : InTurn w) (went : step w e = some t) : InTurn t := by
  intro a
  have rot := stepRot went a
  cases aimed : aim w e a with
  | none =>
    rw [rot,aimed]
    exact inside a
  | some angle =>
    rw [rot,aimed]
    exact (wrappedInTurn angle).mpr (upright a angle aimed)

theorem stepShows {w t : Widget} {e : Event} (went : step w e = some t) (inside : InTurn t) : Upright w e := by
  intro a angle aimed
  have rot := stepRot went a
  rw [Option.mem_def.mp aimed] at rot
  have here := inside a
  rw [rot] at here
  exact (wrappedInTurn angle).mp here

theorem normalizedInTurn (angle : IntValue) :
    (∃ r, qNormalizeAngle angle = some r ∧ 0 ≤ r ∧ r < 360*16 ∧ r ≡ angle [ZMOD 360*16]) ↔ angle.val % (360*16) ≤ 360 := by
  rw [normalizeEq angle.property,← wrappedInTurn]
  constructor
  · rintro ⟨r,same,least,most,-⟩
    cases Option.some.inj same
    exact ⟨least,most⟩
  · rintro ⟨least,most⟩
    exact ⟨_,rfl,least,most,wrappedCongruent 360 angle.val⟩

theorem storedSame {angle other : IntValue} (same : angle.val ≡ other.val [ZMOD 360*16]) (axis : Axis) {w w' t t' : Widget}
    (first : setRotation axis w angle = some t) (second : setRotation axis w' other = some t') : t.rot axis = t'.rot axis := by
  rw [setRotationRot angle.property first,setRotationRot other.property second,if_pos rfl,if_pos rfl]
  exact wrappedSame same 360

theorem initialInTurn : InTurn initial := by
  intro a
  cases a <;> decide

/- Both loops end without an overflow for every int. Their result, and the angles of a run without
an overflow of its own, lie in the turn from 0 on exactly where no angle handed to a slot is
more than 360 above a whole turn. -/
theorem rotationsCanonicalExactly (angle other : IntValue) (same : angle.val ≡ other.val [ZMOD 360*16]) (axis : Axis)
    (w w' : Widget) (events : List Event) {last : Widget} (ran : attempt step initial events = some last) :
    ((∃ r, qNormalizeAngle angle = some r ∧ 0 ≤ r ∧ r < 360*16 ∧ r ≡ angle [ZMOD 360*16]) ↔ angle.val % (360*16) ≤ 360) ∧
    (∃ t t', setRotation axis w angle = some t ∧ setRotation axis w' other = some t' ∧ t.rot axis = t'.rot axis) ∧
    (Always step initial InTurn events ↔ EachStep step initial Upright events) := by
  refine ⟨normalizedInTurn angle,?_,?_⟩
  · have ends : ∀ (w : Widget) (angle : IntValue), ∃ t, setRotation axis w angle = some t := by
      intro w angle
      simp only [setRotation,normalizeEq angle.property,bind,Option.bind_some]
      split <;> exact ⟨_,rfl⟩
    obtain ⟨t,first⟩ := ends w angle
    obtain ⟨t',second⟩ := ends w' other
    exact ⟨t,t',first,second,storedSame same axis first second⟩
  · constructor
    · exact Trace.stepsOfAlways (fun _ _ _ went inside => stepShows went inside) ran
    · exact Trace.alwaysOfSteps initialInTurn fun _ _ _ upright inside went => stepKeeps upright inside went

def gentle : List Event := [.rotate .x ⟨5800,by decide⟩,.mousePress ⟨10,10⟩,.mouseMove ⟨12,13⟩ ⟨true,false⟩]

def turned : Widget := ⟨40,0,0,⟨0,0⟩,[(.x,40)]⟩

theorem gentleSteps : step initial (.rotate .x ⟨5800,by decide⟩) = some turned ∧
    step ⟨40,0,0,⟨10,10⟩,[(.x,40)]⟩ (.mouseMove ⟨12,13⟩ ⟨true,false⟩) =
      some ⟨64,16,0,⟨12,13⟩,[(.x,40),(.x,64),(.y,16)]⟩ := by
  have first : qNormalizeAngle 5800 = some 40 := (normalizeEq (by decide)).trans (by decide)
  have down : qNormalizeAngle 64 = some 64 := (normalizeEq (by decide)).trans (by decide)
  have across : qNormalizeAngle 16 = some 16 := (normalizeEq (by decide)).trans (by decide)
  constructor
  · simp [step,setXRotation,setRotation,initial,turned,Widget.rot,Widget.store,first]
  · simp [step,setXRotation,setYRotation,setRotation,mouseMoveEvent,drag,dragged,checked,Fits,Widget.rot,Widget.store,down,across]

theorem gentleRuns : attempt step initial gentle = some ⟨64,16,0,⟨12,13⟩,[(.x,40),(.x,64),(.y,16)]⟩ := by
  simp only [gentle,attempt,gentleSteps.1,Option.bind_some]
  exact Option.bind_eq_some_iff.mpr ⟨_,rfl,Option.bind_eq_some_iff.mpr ⟨_,gentleSteps.2,rfl⟩⟩

theorem gentleInTurn : Always step initial InTurn gentle := by
  refine (rotationsCanonicalExactly ⟨5800,by decide⟩ ⟨40,by decide⟩ (by decide) .x initial initial gentle gentleRuns).2.2.mpr ?_
  refine Trace.eachCons.mpr ⟨?_,fun t went => ?_⟩
  · intro a
    cases a <;> simp [aim]
  · cases Option.some.inj (gentleSteps.1.symm.trans went)
    refine Trace.eachCons.mpr ⟨by simp [Upright,aim],fun t went => ?_⟩
    cases Option.some.inj went
    refine Trace.eachCons.mpr ⟨?_,fun t _ => Trace.eachNil step t Upright⟩
    intro a
    cases a <;> simp [aim,mousePressEvent,turned]

theorem smallTurnNegative : qNormalizeAngle 361 = some (-5399) ∧
    attempt step initial [.rotate .x ⟨361,by decide⟩] = some ⟨-5399,0,0,⟨0,0⟩,[(.x,-5399)]⟩ ∧
    ¬ Always step initial InTurn [.rotate .x ⟨361,by decide⟩] := by
  have normal : qNormalizeAngle 361 = some (-5399) := (normalizeEq (by decide)).trans (by decide)
  have ran : attempt step initial [.rotate .x ⟨361,by decide⟩] = some ⟨-5399,0,0,⟨0,0⟩,[(.x,-5399)]⟩ := by
    simp [attempt,step,setXRotation,setRotation,initial,Widget.rot,Widget.store,normal]
  refine ⟨normal,ran,fun always => ?_⟩
  have inside := (always _ [] _ (List.append_nil _).symm ran .x).1
  exact absurd inside (by decide)

end PracticeSuite.MyGLWidget
