import Offside.Proofs.Frames
import Offside.Proofs.Marks
import Offside.Proofs.Operators

/-!
# Two runs in lockstep

Two programs can be run side by side so that every step of one is matched by a step of the other,
although they name their variables differently, bind them in different frames or were read from
different texts. What has to correspond is fixed here.

* `Pairing`: which tokens, names, frames and outputs of the two runs may correspond;
* `View`: what code sees of the variables, the two runs next to each other;
* `Alike`: code of the one and of the other run that does the same in a view;
* `World`: which variables correspond, and `ValueAlike`, `StoreAlike`, `MachineAlike`, `Ready`:
  values, stores and machines that correspond under it;
* `ResultAlike`: results that correspond;
* `Alike.replace`: other tokens in the place of those of code;
* `Pairing.Within`: pairings that allow more.
-/

namespace Offside

namespace Lockstep

/-- Which things of two runs may correspond. -/
structure Pairing where
  /-- Tokens, of two source units, at which corresponding faults are reported. -/
  site : Nat → Nat → Token → Token → Prop
  /-- Names of corresponding variables. -/
  names : String → String → Prop
  /-- Frames of corresponding variables. -/
  frames : Nat → Nat → Prop
  /-- The number of frames that the second store has more than the first. -/
  ahead : Nat
  /-- Outputs of the two runs at corresponding times. -/
  sink : Sink → Sink → Prop
  frames_fresh : ∀ n, frames n (n + ahead)
  sink_writeLine : ∀ {s s' : Sink} (text : String), sink s s' →
    sink (s.writeLine text).1 (s'.writeLine text).1 ∧ (s.writeLine text).2 = (s'.writeLine text).2

/-! ### Views -/

/-- A variable as code names it: the number of frames out, and the name there. -/
abbrev Address := Nat × String

/-- What code of the two runs sees of the variables where it stands: the names that its own frame
binds, and pairs of addresses of corresponding variables. -/
structure View where
  left : Names
  right : Names
  links : List (Address × Address)

namespace View

/-- The view after a pair of names is bound. -/
def bind (V : View) (n n' : String) : View :=
  ⟨n :: V.left, n' :: V.right, ((0, n), (0, n')) :: V.links⟩

/-- The view from a fresh frame that hangs off the one here. -/
def inner (V : View) : View :=
  ⟨[], [], V.links.map fun l => ((l.1.1 + 1, l.1.2), (l.2.1 + 1, l.2.2))⟩

end View

/-! ### Code -/

/-- What is known about code as a whole: the distances of its references, and its source unit. -/
structure Origin where
  scope : ScopeMap
  file : Nat

/-- A piece of code. -/
inductive Code
  | expr (e : Expr)
  | exprs (es : List Expr)
  | stmt (s : Stmt)
  | stmts (ss : List Stmt)
  | rest (r : Else)

/-- Parameters that are bound in order, and the view they lead to. -/
inductive ParamsAlike (P : Pairing) : View → List String → List String → View → Prop
  | nil (V : View) : ParamsAlike P V [] [] V
  | cons {V W : View} {n n' : String} {ns ns' : List String} :
    n ∉ V.left → n' ∉ V.right → P.names n n' → ParamsAlike P (V.bind n n') ns ns' W →
    ParamsAlike P V (n :: ns) (n' :: ns') W

/-- Two names, each of a variable that the code it stands in refers to, refer to corresponding
variables. -/
def Refers (o o' : Origin) (V : View) (name name' : Token) : Prop :=
  ∃ d d', o.scope[name.span]? = some d ∧ o'.scope[name'.span]? = some d' ∧
    ((d, name.lexeme), (d', name'.lexeme)) ∈ V.links

/-- Code of two runs that does the same in a view, and the view it leads to. The flag says whether the
code stands in a function, so that it may return. -/
inductive Alike (P : Pairing) (o o' : Origin) : Bool → View → Code → Code → View → Prop
  | constant {b V} (value : Constant) :
    Alike P o o' b V (.expr (.constant value)) (.expr (.constant value)) V
  | variable {b V name name'} : Refers o o' V name name' →
    Alike P o o' b V (.expr (.variable name)) (.expr (.variable name')) V
  | group {b V e e'} : Alike P o o' b V (.expr e) (.expr e') V →
    Alike P o o' b V (.expr (.group e)) (.expr (.group e')) V
  | unary {b V e e' t t'} (op : UnaryOp) : P.site o.file o'.file t t' →
    Alike P o o' b V (.expr e) (.expr e') V →
    Alike P o o' b V (.expr (.unary op t e)) (.expr (.unary op t' e')) V
  | binary {b V l l' r r' t t'} (op : BinaryOp) : P.site o.file o'.file t t' →
    Alike P o o' b V (.expr l) (.expr l') V → Alike P o o' b V (.expr r) (.expr r') V →
    Alike P o o' b V (.expr (.binary op t l r)) (.expr (.binary op t' l' r')) V
  | logical {b V l l' r r' t t'} (op : LogicalOp) : P.site o.file o'.file t t' →
    Alike P o o' b V (.expr l) (.expr l') V → Alike P o o' b V (.expr r) (.expr r') V →
    Alike P o o' b V (.expr (.logical op t l r)) (.expr (.logical op t' l' r')) V
  | call {b V e e' es es' t t'} : P.site o.file o'.file t t' →
    Alike P o o' b V (.expr e) (.expr e') V → Alike P o o' b V (.exprs es) (.exprs es') V →
    Alike P o o' b V (.expr (.call e es t)) (.expr (.call e' es' t')) V
  | noExprs {b V} : Alike P o o' b V (.exprs []) (.exprs []) V
  | moreExprs {b V e e' es es'} : Alike P o o' b V (.expr e) (.expr e') V →
    Alike P o o' b V (.exprs es) (.exprs es') V →
    Alike P o o' b V (.exprs (e :: es)) (.exprs (e' :: es')) V
  | block {b V W ss ss'} : Alike P o o' b V.inner (.stmts ss) (.stmts ss') W →
    Alike P o o' b V (.stmt (.block ss)) (.stmt (.block ss')) V
  | change {b V name name' e e'} : Refers o o' V name name' →
    Alike P o o' b V (.expr e) (.expr e') V →
    Alike P o o' b V (.stmt (.change name e)) (.stmt (.change name' e')) V
  | create {b V name name' e e'} : name.lexeme ∉ V.left → name'.lexeme ∉ V.right →
    P.names name.lexeme name'.lexeme → Alike P o o' b V (.expr e) (.expr e') V →
    Alike P o o' b V (.stmt (.create name e)) (.stmt (.create name' e'))
      (V.bind name.lexeme name'.lexeme)
  | define {b V V₁ V₂ name name' ps ps' ss ss'} : name.lexeme ∉ V.left → name'.lexeme ∉ V.right →
    P.names name.lexeme name'.lexeme → name.lexeme = name'.lexeme →
    ParamsAlike P (V.bind name.lexeme name'.lexeme).inner (ps.map (·.lexeme))
      (ps'.map (·.lexeme)) V₁ →
    Alike P o o' true V₁ (.stmts ss) (.stmts ss') V₂ →
    Alike P o o' b V (.stmt (.define name ps ss)) (.stmt (.define name' ps' ss'))
      (V.bind name.lexeme name'.lexeme)
  | expression {b V e e'} : Alike P o o' b V (.expr e) (.expr e') V →
    Alike P o o' b V (.stmt (.expression e)) (.stmt (.expression e')) V
  | branch {b V W t t' e e' ss ss' r r'} : P.site o.file o'.file t t' →
    Alike P o o' b V (.expr e) (.expr e') V →
    Alike P o o' b V.inner (.stmts ss) (.stmts ss') W →
    Alike P o o' b V (.rest r) (.rest r') V →
    Alike P o o' b V (.stmt (.branch t e ss r)) (.stmt (.branch t' e' ss' r')) V
  | repeatTimes {b V W t t' e e' ss ss'} : P.site o.file o'.file t t' →
    Alike P o o' b V (.expr e) (.expr e') V →
    Alike P o o' b V.inner (.stmts ss) (.stmts ss') W →
    Alike P o o' b V (.stmt (.repeatTimes t e ss)) (.stmt (.repeatTimes t' e' ss')) V
  | repeatWhile {b V W t t' e e' ss ss'} : P.site o.file o'.file t t' →
    Alike P o o' b V (.expr e) (.expr e') V →
    Alike P o o' b V.inner (.stmts ss) (.stmts ss') W →
    Alike P o o' b V (.stmt (.repeatWhile t e ss)) (.stmt (.repeatWhile t' e' ss')) V
  | returnEmpty {V t t'} :
    Alike P o o' true V (.stmt (.returnEmpty t)) (.stmt (.returnEmpty t')) V
  | returnWith {V t t' e e'} : Alike P o o' true V (.expr e) (.expr e') V →
    Alike P o o' true V (.stmt (.returnWith t e)) (.stmt (.returnWith t' e')) V
  | noStmts {b V} : Alike P o o' b V (.stmts []) (.stmts []) V
  | moreStmts {b V V₁ V₂ s s' ss ss'} : Alike P o o' b V (.stmt s) (.stmt s') V₁ →
    Alike P o o' b V₁ (.stmts ss) (.stmts ss') V₂ →
    Alike P o o' b V (.stmts (s :: ss)) (.stmts (s' :: ss')) V₂
  /-- What follows a return never runs, so nothing has to be known of it. -/
  | leave {V V₁ s s' ss ss'} : s.isReturn = true → Alike P o o' true V (.stmt s) (.stmt s') V₁ →
    Alike P o o' true V (.stmts (s :: ss)) (.stmts (s' :: ss')) V₁
  | nothing {b V} : Alike P o o' b V (.rest .nothing) (.rest .nothing) V
  | otherwise {b V W ss ss'} : Alike P o o' b V.inner (.stmts ss) (.stmts ss') W →
    Alike P o o' b V (.rest (.block ss)) (.rest (.block ss')) V
  | otherwiseIf {b V W t t' e e' ss ss' r r'} : P.site o.file o'.file t t' →
    Alike P o o' b V (.expr e) (.expr e') V →
    Alike P o o' b V.inner (.stmts ss) (.stmts ss') W →
    Alike P o o' b V (.rest r) (.rest r') V →
    Alike P o o' b V (.rest (.branch t e ss r)) (.rest (.branch t' e' ss' r')) V

/-! ### Stores -/

/-- A variable as the store holds it: the number of its frame, and its name. -/
abbrev Location := Nat × String

/-- Which variables of the two stores correspond. -/
abbrev World := Location → Location → Prop

/-- More variables correspond in one world than in another. -/
def World.le (W W' : World) : Prop := ∀ a b, W a b → W' a b

instance : LE World := ⟨World.le⟩

theorem World.le_refl (W : World) : W ≤ W := fun _ _ h => h

theorem World.le_trans {W₁ W₂ W₃ : World} (h : W₁ ≤ W₂) (h' : W₂ ≤ W₃) : W₁ ≤ W₃ :=
  fun a b hab => h' a b (h a b hab)

end Lockstep

/-- The value of a variable. -/
def Store.value? (s : Store) (a : Lockstep.Location) : Option Value :=
  s.frames[a.1]?.bind (·.get? a.2)

namespace Lockstep

/-- From two frames, linked addresses lead to corresponding variables. -/
def Linked (W : World) (s s' : Store) (frame frame' : Nat) (links : List (Address × Address)) :
    Prop :=
  ∀ l ∈ links, ∃ f f', s.ancestor? frame l.1.1 = some f ∧ s'.ancestor? frame' l.2.1 = some f' ∧
    W (f, l.1.2) (f', l.2.2)

/-- Functions that do the same. -/
structure ClosureAlike (P : Pairing) (W : World) (s s' : Store) (c c' : Closure) : Prop where
  id : c.id = c'.id
  name : c.name = c'.name
  body : ∃ V V₁ V₂ : View, Linked W s s' c.frame c'.frame V.links ∧
    ParamsAlike P V.inner c.params c'.params V₁ ∧
    Alike P ⟨c.scope, c.file⟩ ⟨c'.scope, c'.file⟩ true V₁ (.stmts c.body) (.stmts c'.body) V₂

/-- Values that correspond: functions that do the same, and otherwise equal values. -/
def ValueAlike (P : Pairing) (W : World) (s s' : Store) : Value → Value → Prop
  | .function c, .function c' => ClosureAlike P W s s' c c'
  | .bool a, .bool b => a = b
  | .empty, .empty => True
  | .number x, .number y => x = y
  | .text a, .text b => a = b
  | .native n, .native k => n = k
  | _, _ => False

/-- Stores that correspond: corresponding variables are one to one and hold corresponding values, and
every variable of the first store has one that corresponds to it. -/
structure StoreAlike (P : Pairing) (W : World) (s s' : Store) : Prop where
  size : s'.frames.size = s.frames.size + P.ahead
  allowed : ∀ a b, W a b → P.frames a.1 b.1 ∧ P.names a.2 b.2
  unique : ∀ a b a' b', W a b → W a' b' → (a = a' ↔ b = b')
  values : ∀ a b, W a b →
    ∃ v v', s.value? a = some v ∧ s'.value? b = some v' ∧ ValueAlike P W s s' v v'
  total : ∀ a, (s.value? a).isSome → ∃ b, W a b

/-- Frames in which the two runs stand, as a view has it. -/
structure Realizes (P : Pairing) (W : World) (s s' : Store) (frame frame' : Nat) (V : View) :
    Prop where
  exists_left : frame < s.frames.size
  exists_right : frame' < s'.frames.size
  frames : P.frames frame frame'
  left : s.names frame = V.left
  right : s'.names frame' = V.right
  linked : Linked W s s' frame frame' V.links

/-! ### Machines and results -/

/-- Where the running code comes from. -/
def origin (m : Machine) : Origin := ⟨m.context.scope, m.context.file⟩

/-- Machines that correspond, apart from the code that they run. -/
structure MachineAlike (P : Pairing) (W : World) (m m' : Machine) : Prop where
  store : StoreAlike P W m.store m'.store
  definitions : m.definitions = m'.definitions
  sink : P.sink m.sink m'.sink
  clock : m.clock = m'.clock
  readings : m.readings = m'.readings
  depth : m.context.depth = m'.context.depth

/-- Machines that correspond, run code of given origins and stand in frames as a view has it. -/
structure Ready (P : Pairing) (o o' : Origin) (W : World) (m m' : Machine) (frame frame' : Nat)
    (V : View) : Prop where
  machine : MachineAlike P W m m'
  left : origin m = o
  right : origin m' = o'
  realizes : Realizes P W m.store m'.store frame frame' V

/-- Faults that correspond: they are reported at corresponding tokens, for the same cause, and that
is no fault about a name. -/
def FaultAlike (P : Pairing) (d d' : Diagnostic) : Prop :=
  ∃ k k' t t' cause, P.site k k' t t' ∧ cause.isNaming = false ∧
    d = (t.diagnose cause).inFile k ∧ d' = (t'.diagnose cause).inFile k'

/-- Results that correspond: two values with `Q` and machines that correspond, in a world with at
least the variables of `W`; or corresponding faults; or no result on either side. -/
def ResultAlike {α : Type} (P : Pairing) (W : World)
    (Q : World → Machine → Machine → α → α → Prop) : Result α → Result α → Prop
  | .done a m, .done a' m' => ∃ W', W ≤ W' ∧ MachineAlike P W' m m' ∧ Q W' m m' a a'
  | .fault d m, .fault d' m' => ∃ W', W ≤ W' ∧ MachineAlike P W' m m' ∧ FaultAlike P d d'
  | .exhausted, .exhausted => True
  | _, _ => False

/-- Values that correspond in the machines that are left. -/
def ValuesAfter (P : Pairing) (W : World) (m m' : Machine) (v v' : Value) : Prop :=
  ValueAlike P W m.store m'.store v v'

/-- Completions that correspond: both normal, in frames as a view has it; or both a return of
corresponding values, from code that may return. -/
def FlowAlike (P : Pairing) (b : Bool) (frame frame' : Nat) (V : View) (W : World)
    (m m' : Machine) : Flow → Flow → Prop
  | .normal, .normal => Realizes P W m.store m'.store frame frame' V
  | .returned v, .returned v' => b = true ∧ ValueAlike P W m.store m'.store v v'
  | _, _ => False

/-! ### Other code in its place -/

namespace Code

/-- The tokens of code. -/
def marks : Code → List Mark
  | .expr e => e.marks
  | .exprs es => Expr.allMarks es
  | .stmt s => s.marks
  | .stmts ss => Stmt.allMarks ss
  | .rest r => r.marks

/-- Code with its tokens replaced. -/
def mapTokens (f : Token → Token) : Code → Code
  | .expr e => .expr (e.mapTokens f)
  | .exprs es => .exprs (Expr.mapAllTokens f es)
  | .stmt s => .stmt (s.mapTokens f)
  | .stmts ss => .stmts (Stmt.mapAllTokens f ss)
  | .rest r => .rest (r.mapTokens f)

@[simp] theorem mapTokens_id (c : Code) : c.mapTokens id = c := by
  cases c <;> simp [mapTokens]

end Code

theorem ParamsAlike.imp {P P' : Pairing} (hnames : ∀ {n n'}, P.names n n' → P'.names n n')
    {V W : View} {ns ns' : List String} (h : ParamsAlike P V ns ns' W) :
    ParamsAlike P' V ns ns' W := by
  induction h with
  | nil V => exact .nil V
  | cons hn hn' hname _ ih => exact .cons hn hn' (hnames hname) ih

/-- A replacement for the tokens of code from `o`, so that it can be taken for code from `o'`. Tokens
at which faults are reported still correspond, and names keep their spelling and their distances. -/
structure Replaces (P P' : Pairing) (o o₁ o₂ : Origin) (f : Token → Token) (marks : List Mark) :
    Prop where
  names : ∀ {n n'}, P.names n n' → P'.names n n'
  site : ∀ {t t'}, P.site o.file o₁.file t t' → P'.site o.file o₂.file t (f t')
  lexeme : ∀ t, (f t).lexeme = t.lexeme
  scope : ∀ t ∈ references marks, ∀ d, o₁.scope[t.span]? = some d → o₂.scope[(f t).span]? = some d

theorem Replaces.mono {P P' : Pairing} {o o₁ o₂ : Origin} {f : Token → Token} {marks more : List Mark}
    (h : Replaces P P' o o₁ o₂ f more) (hsub : references marks ⊆ references more) :
    Replaces P P' o o₁ o₂ f marks :=
  ⟨h.names, h.site, h.lexeme, fun t ht => h.scope t (hsub ht)⟩

theorem Refers.replace {P P' : Pairing} {o o₁ o₂ : Origin} {f : Token → Token} {marks : List Mark}
    (h : Replaces P P' o o₁ o₂ f marks) {V : View} {name name' : Token}
    (hmem : name' ∈ references marks) (hrefers : Refers o o₁ V name name') :
    Refers o o₂ V name (f name') := by
  obtain ⟨d, d', hd, hd', hlink⟩ := hrefers
  exact ⟨d, d', hd, h.scope name' hmem d' hd', by rwa [h.lexeme]⟩

/-- Code that does the same goes on to do so with other tokens in its place. -/
theorem Alike.replace {P P' : Pairing} {o o₁ o₂ : Origin} {f : Token → Token} {b : Bool} {V W : View}
    {c c' : Code} (h : Alike P o o₁ b V c c' W) (hf : Replaces P P' o o₁ o₂ f c'.marks) :
    Alike P' o o₂ b V c (c'.mapTokens f) W := by
  induction h with
  | constant value => exact .constant value
  | «variable» hrefers =>
    exact .variable (hrefers.replace hf (by simp [Code.marks, Expr.marks, references_cons]))
  | group _ ih => exact .group (ih hf)
  | unary op hsite _ ih =>
    exact .unary op (hf.site hsite)
      (ih (hf.mono (by simp [Code.marks, Expr.marks, references_cons])))
  | binary op hsite _ _ ih ih' =>
    exact .binary op (hf.site hsite)
      (ih (hf.mono (by simp [Code.marks, Expr.marks, references_cons])))
      (ih' (hf.mono (by simp [Code.marks, Expr.marks, references_cons])))
  | logical op hsite _ _ ih ih' =>
    exact .logical op (hf.site hsite)
      (ih (hf.mono (by simp [Code.marks, Expr.marks, references_cons])))
      (ih' (hf.mono (by simp [Code.marks, Expr.marks, references_cons])))
  | call hsite _ _ ih ih' =>
    exact .call (hf.site hsite)
      (ih (hf.mono (by simp [Code.marks, Expr.marks, references_cons])))
      (ih' (hf.mono (by simp [Code.marks, Expr.marks, references_cons])))
  | noExprs => exact .noExprs
  | moreExprs _ _ ih ih' =>
    exact .moreExprs (ih (hf.mono (by simp [Code.marks, Expr.allMarks])))
      (ih' (hf.mono (by simp [Code.marks, Expr.allMarks])))
  | block _ ih => exact .block (ih hf)
  | change hrefers _ ih =>
    exact .change (hrefers.replace hf (by simp [Code.marks, Stmt.marks, references_cons]))
      (ih (hf.mono (by simp [Code.marks, Stmt.marks, references_cons])))
  | @create _ _ _ name' _ _ hn hn' hname _ ih =>
    rw [← hf.lexeme name'] at hn' hname ⊢
    exact .create hn hn' (hf.names hname)
      (ih (hf.mono (by simp [Code.marks, Stmt.marks, references_cons])))
  | @define _ _ _ _ _ name' _ ps' _ _ hn hn' hname heq hparams _ ih =>
    have hps : (ps'.map f).map (·.lexeme) = ps'.map (·.lexeme) := by
      simp [Function.comp_def, hf.lexeme]
    rw [← hps, ← hf.lexeme name'] at hparams
    rw [← hf.lexeme name'] at hn' hname heq ⊢
    exact .define hn hn' (hf.names hname) heq (hparams.imp hf.names)
      (ih (hf.mono (by simp [Code.marks, Stmt.marks, references_cons])))
  | expression _ ih => exact .expression (ih hf)
  | branch hsite _ _ _ ih ih' ih'' =>
    exact .branch (hf.site hsite)
      (ih (hf.mono (by simp [Code.marks, Stmt.marks, references_cons])))
      (ih' (hf.mono (by simp [Code.marks, Stmt.marks, references_cons])))
      (ih'' (hf.mono (by simp [Code.marks, Stmt.marks, references_cons])))
  | repeatTimes hsite _ _ ih ih' =>
    exact .repeatTimes (hf.site hsite)
      (ih (hf.mono (by simp [Code.marks, Stmt.marks, references_cons])))
      (ih' (hf.mono (by simp [Code.marks, Stmt.marks, references_cons])))
  | repeatWhile hsite _ _ ih ih' =>
    exact .repeatWhile (hf.site hsite)
      (ih (hf.mono (by simp [Code.marks, Stmt.marks, references_cons])))
      (ih' (hf.mono (by simp [Code.marks, Stmt.marks, references_cons])))
  | returnEmpty => exact .returnEmpty
  | returnWith _ ih =>
    exact .returnWith (ih (hf.mono (by simp [Code.marks, Stmt.marks, references_cons])))
  | noStmts => exact .noStmts
  | moreStmts _ _ ih ih' =>
    exact .moreStmts (ih (hf.mono (by simp [Code.marks, Stmt.allMarks])))
      (ih' (hf.mono (by simp [Code.marks, Stmt.allMarks])))
  | leave hreturn _ ih =>
    exact .leave hreturn (ih (hf.mono (by simp [Code.marks, Stmt.allMarks])))
  | nothing => exact .nothing
  | otherwise _ ih => exact .otherwise (ih hf)
  | otherwiseIf hsite _ _ _ ih ih' ih'' =>
    exact .otherwiseIf (hf.site hsite)
      (ih (hf.mono (by simp [Code.marks, Else.marks, references_cons])))
      (ih' (hf.mono (by simp [Code.marks, Else.marks, references_cons])))
      (ih'' (hf.mono (by simp [Code.marks, Else.marks, references_cons])))

/-! ### Pairings that allow more -/

/-- All code and all stores that one pairing allows another allows, too. -/
structure Pairing.Permits (P P' : Pairing) : Prop where
  site : ∀ {k k' : Nat} {t t' : Token}, P.site k k' t t' → P'.site k k' t t'
  names : ∀ {n n' : String}, P.names n n' → P'.names n n'
  frames : ∀ {i j : Nat}, P.frames i j → P'.frames i j
  ahead : P'.ahead = P.ahead

/-- All that one pairing allows another allows, too. -/
structure Pairing.Within (P P' : Pairing) : Prop extends Pairing.Permits P P' where
  sink : ∀ {s s' : Sink}, P.sink s s' → P'.sink s s'

section

variable {P P' : Pairing} (hP : P.Permits P')
include hP

theorem Alike.allow {o o' : Origin} {b : Bool} {V W : View} {c c' : Code}
    (h : Alike P o o' b V c c' W) : Alike P' o o' b V c c' W := by
  have hsame : Replaces P P' o o' o' id c'.marks := ⟨hP.names, hP.site, fun _ => rfl, fun _ _ _ => id⟩
  simpa using h.replace hsame

theorem ValueAlike.allow {W : World} {s s' : Store} {v v' : Value}
    (h : ValueAlike P W s s' v v') : ValueAlike P' W s s' v v' := by
  cases v <;> cases v' <;> try exact h
  obtain ⟨hid, hname, V, V₁, V₂, hlinked, hparams, hbody⟩ := h
  exact ⟨hid, hname, V, V₁, V₂, hlinked, hparams.imp hP.names, hbody.allow hP⟩

theorem StoreAlike.allow {W : World} {s s' : Store} (h : StoreAlike P W s s') :
    StoreAlike P' W s s' where
  size := by rw [h.size, hP.ahead]
  allowed a b hab := ⟨hP.frames (h.allowed a b hab).1, hP.names (h.allowed a b hab).2⟩
  unique := h.unique
  values a b hab := by
    obtain ⟨v, v', hv, hv', halike⟩ := h.values a b hab
    exact ⟨v, v', hv, hv', halike.allow hP⟩
  total := h.total

end

theorem Ready.allow {P P' : Pairing} (hP : P.Within P') {o o' : Origin} {W : World}
    {m m' : Machine} {frame frame' : Nat} {V : View}
    (h : Ready P o o' W m m' frame frame' V) : Ready P' o o' W m m' frame frame' V where
  machine := { h.machine with
    store := h.machine.store.allow hP.toPermits
    sink := hP.sink h.machine.sink }
  left := h.left
  right := h.right
  realizes := { h.realizes with frames := hP.frames h.realizes.frames }

end Lockstep

end Offside
