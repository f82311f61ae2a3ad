import Offside.Value

/-!
# The store

Variables live in frames. A frame binds names to values and hangs off another frame, its parent; the
first frame, which holds the global variables, has none. Frames are never given up: a function keeps
the frame it was defined in, and whoever reaches a frame sees every change to it.

* `Frame.get?`, `Frame.define`, `Frame.update`: reading, binding and rebinding a name in one frame;
* `Store.ancestor?`: the frame a given distance out;
* `Store.getAt?`, `Store.locate?`: the value of a name a given distance out, and where it is bound;
* `Store.define`, `Store.update`: the store with a name bound or rebound.
-/

namespace Offside

/-- Names bound to values. -/
abbrev Bindings := List (String × Value)

/-- A frame: its bindings, and the frame it hangs off. -/
structure Frame where
  bindings : Bindings
  parent : Option Nat

namespace Bindings

/-- Rebind a name that is bound. -/
def update (name : String) (value : Value) : Bindings → Bindings
  | [] => []
  | (n, v) :: rest => if n = name then (n, value) :: rest else (n, v) :: update name value rest

/-- Bind a name, whether it is bound or not. -/
def insert (bs : Bindings) (name : String) (value : Value) : Bindings :=
  if (bs.lookup name).isSome then update name value bs else (name, value) :: bs

/-- Bind names to values in order, as many as there are of both. -/
def insertAll : Bindings → List String → List Value → Bindings
  | bs, name :: names, value :: values => insertAll (bs.insert name value) names values
  | bs, _, _ => bs

end Bindings

namespace Frame

/-- The value of a name. -/
def get? (f : Frame) (name : String) : Option Value := f.bindings.lookup name

/-- Whether a frame binds a name. -/
def binds (f : Frame) (name : String) : Bool := (f.get? name).isSome

/-- The frame with a new name bound. -/
def define (f : Frame) (name : String) (value : Value) : Frame :=
  { f with bindings := (name, value) :: f.bindings }

/-- The frame with a name it binds rebound. -/
def update (f : Frame) (name : String) (value : Value) : Frame :=
  { f with bindings := Bindings.update name value f.bindings }

/-- The names a frame binds. -/
def names (f : Frame) : Names := f.bindings.map (·.1)

end Frame

/-- The frames of a session, by number. -/
structure Store where
  frames : Array Frame

namespace Store

/-- The number of the frame of the global variables. -/
def globals : Nat := 0

/-- The store before anything has run: the native functions are bound. -/
def initial : Store :=
  ⟨#[{ bindings := Native.all.map fun n => (n.name, .native n), parent := none }]⟩

/-- A store with one more frame, and the number of that frame. -/
def alloc (s : Store) (parent : Nat) (bindings : Bindings) : Nat × Store :=
  (s.frames.size, ⟨s.frames.push { bindings := bindings, parent := some parent }⟩)

/-- The frame `distance` parents out from a frame. -/
def ancestor? (s : Store) (frame : Nat) : Nat → Option Nat
  | 0 => some frame
  | distance + 1 => do
    let f ← s.frames[frame]?
    let parent ← f.parent
    s.ancestor? parent distance

/-- Whether a frame binds a name. -/
def binds (s : Store) (frame : Nat) (name : String) : Bool :=
  match s.frames[frame]? with
  | none => false
  | some f => f.binds name

/-- The value of a name in the frame `distance` parents out. -/
def getAt? (s : Store) (frame distance : Nat) (name : String) : Option Value := do
  let target ← s.ancestor? frame distance
  let f ← s.frames[target]?
  f.get? name

/-- The number of the frame `distance` parents out, if it binds a name. -/
def locate? (s : Store) (frame distance : Nat) (name : String) : Option Nat := do
  let target ← s.ancestor? frame distance
  if s.binds target name then some target else none

/-- The store with a new name bound in a frame. -/
def define (s : Store) (frame : Nat) (name : String) (value : Value) : Store :=
  ⟨s.frames.modify frame (·.define name value)⟩

/-- The store with a name rebound in a frame that binds it. -/
def update (s : Store) (frame : Nat) (name : String) (value : Value) : Store :=
  ⟨s.frames.modify frame (·.update name value)⟩

/-- The names bound in a frame. -/
def names (s : Store) (frame : Nat) : Names := (s.frames[frame]?.map Frame.names).getD []

end Store

end Offside
