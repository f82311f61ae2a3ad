import Mathlib.Data.List.Basic
import Offside.Eval
import Offside.Proofs.Marks

/-!
# What running code leaves alone

Evaluating an expression leaves the frames there are with the names they bind and with their
parents; executing a statement may add names to the frame it runs in and to no other frame there
is. Both put the context back as they found it, and neither touches the clock or the limit of the
output. This is so however the computation ends, and where it ends with a fault a statement has not
added names even to its own frame.

* `Result.Leaves`, `Run.Moves`: what holds of the machine that a computation leaves behind;
* `Store.Keeps`, `Machine.Keeps`: frames and context are as before, except for names added to one
  frame;
* `Eval.moves_expr`, `Eval.moves_stmt`: the two facts;
* `Eval.stops_stmt`: what a fault leaves behind.
-/

namespace Offside

/-! ### Changes of the machine -/

/-- Something holds of the machine that a computation leaves behind, if it leaves one. -/
def Result.Leaves {α : Type} (P : Machine → Prop) : Result α → Prop
  | .done _ m => P m
  | .fault _ m => P m
  | .exhausted => True

theorem Result.Leaves.imp {α : Type} {P Q : Machine → Prop} {r : Result α} (h : r.Leaves P)
    (himp : ∀ m, P m → Q m) : r.Leaves Q := by
  cases r with
  | done a m => exact himp m h
  | fault d m => exact himp m h
  | exhausted => exact trivial

/-- Something holds of the machine that a fault leaves behind, if there is one. -/
def Result.Faults {α : Type} (P : Machine → Prop) : Result α → Prop
  | .fault _ m => P m
  | _ => True

namespace Run

variable {α β : Type} {R : Machine → Machine → Prop}

theorem bind_of_done {x : Run α} {f : α → Run β} {m m' : Machine} {a : α}
    (h : x m = .done a m') : (x >>= f) m = f a m' := by
  show Run.bind x f m = _
  unfold Run.bind
  rw [h]

theorem bind_of_fault {x : Run α} {f : α → Run β} {m m' : Machine} {d : Diagnostic}
    (h : x m = .fault d m') : (x >>= f) m = .fault d m' := by
  show Run.bind x f m = _
  unfold Run.bind
  rw [h]

theorem bind_of_exhausted {x : Run α} {f : α → Run β} {m : Machine} (h : x m = .exhausted) :
    (x >>= f) m = .exhausted := by
  show Run.bind x f m = _
  unfold Run.bind
  rw [h]

/-- A chain of computations that ends well has gone through both. -/
theorem of_bind_done {x : Run α} {f : α → Run β} {m m₂ : Machine} {b : β}
    (h : (x >>= f) m = .done b m₂) : ∃ a m₁, x m = .done a m₁ ∧ f a m₁ = .done b m₂ := by
  cases hx : x m with
  | done a m₁ => exact ⟨a, m₁, rfl, (bind_of_done hx).symm.trans h⟩
  | fault d m₁ => cases (bind_of_fault hx).symm.trans h
  | exhausted => cases (bind_of_exhausted hx).symm.trans h

/-- A computation changes the machine in a given way. -/
def Moves (R : Machine → Machine → Prop) (x : Run α) : Prop := ∀ m, (x m).Leaves (R m)

/-- A way to change the machine that includes not changing it and one change after another. -/
structure Change (R : Machine → Machine → Prop) : Prop where
  refl : ∀ m, R m m
  trans : ∀ {m₁ m₂ m₃}, R m₁ m₂ → R m₂ m₃ → R m₁ m₃

theorem Moves.imp {R' : Machine → Machine → Prop} {x : Run α} (h : x.Moves R)
    (himp : ∀ m m', R m m' → R' m m') : x.Moves R' :=
  fun m => (h m).imp (himp m)

section

variable (C : Change R)
include C

theorem moves_pure (a : α) : (pure a : Run α).Moves R := fun m => C.refl m

theorem moves_fail (token : Token) (e : RuntimeFault) : (fail token e : Run α).Moves R :=
  fun m => C.refl m

theorem moves_ofExcept (token : Token) (r : Except RuntimeFault α) :
    (ofExcept token r).Moves R := by
  cases r with
  | ok a => exact moves_pure C a
  | error e => exact moves_fail C token e

/-- What comes after a change of the machine adds its own. -/
theorem leaves_of_trans {m m₁ : Machine} {r : Result α} (h : R m m₁) (hr : r.Leaves (R m₁)) :
    r.Leaves (R m) :=
  hr.imp fun _ hmore => C.trans h hmore

theorem Moves.bind {x : Run α} {f : α → Run β} (hx : x.Moves R) (hf : ∀ a, (f a).Moves R) :
    (x >>= f).Moves R := by
  intro m
  have hm := hx m
  cases h : x m with
  | done a m₁ =>
    rw [h] at hm
    rw [bind_of_done h]
    exact leaves_of_trans C hm (hf a m₁)
  | fault d m₁ =>
    rw [h] at hm
    rw [bind_of_fault h]
    exact hm
  | exhausted =>
    rw [bind_of_exhausted h]
    exact trivial

end

/-- A computation that ends with a fault has changed the machine in a given way. -/
def Stops (R : Machine → Machine → Prop) (x : Run α) : Prop :=
  ∀ m, (x m).Faults (R m)

theorem Moves.stops {x : Run α} (h : x.Moves R) : x.Stops R := by
  intro m
  have hm := h m
  cases hx : x m with
  | fault d m' => rw [hx] at hm; exact hm
  | _ => exact trivial

theorem Moves.bind_stops (C : Change R) {x : Run α} {f : α → Run β} (hx : x.Moves R)
    (hf : ∀ a, (f a).Stops R) : (x >>= f).Stops R := by
  intro m
  have hm := hx m
  cases h : x m with
  | done a m₁ =>
    rw [h] at hm
    rw [bind_of_done h]
    have hrest := hf a m₁
    cases hr : f a m₁ with
    | fault d m₂ => rw [hr] at hrest; exact C.trans hm hrest
    | _ => exact trivial
  | fault d m₁ =>
    rw [h] at hm
    rw [bind_of_fault h]
    exact hm
  | exhausted =>
    rw [bind_of_exhausted h]
    exact trivial

end Run

/-- What comes after a statement that completes so: nothing if a return is on its way. -/
def Flow.andThen (next : Run Flow) : Flow → Run Flow
  | .normal => next
  | .returned value => pure (.returned value)

namespace Eval

open Run

/-! ### Sequences and loops as chains of computations -/

theorem sequence_cons (exec : Stmt → Run Flow) (s : Stmt) (ss : List Stmt) :
    sequence exec (s :: ss) = exec s >>= Flow.andThen (sequence exec ss) := by
  funext m
  rw [sequence]
  cases h : exec s m with
  | done flow m₁ => rw [bind_of_done h]; cases flow <;> rfl
  | fault d m₁ => rw [bind_of_fault h]
  | exhausted => rw [bind_of_exhausted h]

theorem whileLoop_succ (cond : Run Bool) (body : Run Flow) (fuel : Nat) :
    whileLoop cond body (fuel + 1) =
      cond >>= fun go =>
        if go then body >>= Flow.andThen (whileLoop cond body fuel) else pure .normal := by
  funext m
  rw [whileLoop]
  cases h : cond m with
  | done go m₁ =>
    rw [bind_of_done h]
    cases go with
    | false => rfl
    | true =>
      rw [if_pos rfl]
      cases h' : body m₁ with
      | done flow m₂ => rw [bind_of_done h']; cases flow <;> simp only [h'] <;> rfl
      | fault d m₂ => rw [bind_of_fault h']; simp only [h']
      | exhausted => rw [bind_of_exhausted h']; simp only [h']
  | fault d m₁ => rw [bind_of_fault h]
  | exhausted => rw [bind_of_exhausted h]

theorem timesLoop_succ (body : Run Flow) (count fuel done : Nat) :
    timesLoop body count (fuel + 1) done =
      if done < count then
        body >>= Flow.andThen (timesLoop body count fuel (Number.countUp done))
      else pure .normal := by
  funext m
  rw [timesLoop]
  by_cases hlt : done < count
  · rw [if_pos hlt, if_pos hlt]
    cases h : body m with
    | done flow m₁ => rw [bind_of_done h]; cases flow <;> rfl
    | fault d m₁ => rw [bind_of_fault h]
    | exhausted => rw [bind_of_exhausted h]
  · rw [if_neg hlt, if_neg hlt]
    rfl

theorem program_cons (fuel : Nat) (s : Stmt) (ss : List Stmt) :
    program fuel (s :: ss) = stmt fuel Store.globals s >>= fun _ => program fuel ss := by
  funext m
  rw [program]
  cases h : stmt fuel Store.globals s m with
  | done flow m₁ => rw [bind_of_done h]
  | fault d m₁ => rw [bind_of_fault h]
  | exhausted => rw [bind_of_exhausted h]

/-- After the first part of a program is through, the rest goes on from where it got to. -/
theorem program_append_of_done {fuel : Nat} {ss : List Stmt} {m m₁ : Machine}
    (h : program fuel ss m = .done () m₁) (ss' : List Stmt) :
    program fuel (ss ++ ss') m = program fuel ss' m₁ := by
  induction ss generalizing m with
  | nil =>
    cases h
    rfl
  | cons s ss ih =>
    rw [List.cons_append, program_cons]
    rw [program_cons] at h
    cases hs : stmt fuel Store.globals s m with
    | done flow m₂ =>
      rw [bind_of_done hs] at h ⊢
      exact ih h
    | fault d m₂ => rw [bind_of_fault hs] at h; cases h
    | exhausted => rw [bind_of_exhausted hs] at h; cases h

section

variable {R : Machine → Machine → Prop} (C : Change R)
include C

/-! ### Combinators -/

theorem moves_all {eval : Expr → Run Value} (h : ∀ e, (eval e).Moves R) (es : List Expr) :
    (all eval es).Moves R := by
  induction es with
  | nil => exact moves_pure C []
  | cons e es ih =>
    exact Moves.bind C (h e) fun v => Moves.bind C ih fun vs => moves_pure C (v :: vs)

theorem moves_andThen {next : Run Flow} (h : next.Moves R) (flow : Flow) :
    (flow.andThen next).Moves R := by
  cases flow with
  | normal => exact h
  | returned v => exact moves_pure C _

theorem moves_sequence {exec : Stmt → Run Flow} (h : ∀ s, (exec s).Moves R) (ss : List Stmt) :
    (sequence exec ss).Moves R := by
  induction ss with
  | nil => exact fun m => C.refl m
  | cons s ss ih =>
    rw [sequence_cons]
    exact Moves.bind C (h s) (moves_andThen C ih)

theorem moves_truth (token : Token) (e : RuntimeFault) (v : Value) : (truth token e v).Moves R := by
  cases v with
  | bool b => exact moves_pure C b
  | _ => exact moves_fail C token e

theorem moves_condition {eval : Expr → Run Value} (h : ∀ e, (eval e).Moves R) (token : Token)
    (cond : Expr) : (condition eval token cond).Moves R :=
  Moves.bind C (h cond) fun v => moves_truth C token _ v

theorem moves_branches {eval : Expr → Run Value} {body : List Stmt → Run Flow}
    (heval : ∀ e, (eval e).Moves R) (hbody : ∀ ss, (body ss).Moves R) (rest : Else) :
    (branches eval body rest).Moves R := by
  induction rest using branches.induct with
  | case1 => exact moves_pure C _
  | case2 stmts => exact hbody stmts
  | case3 token cond stmts rest ih =>
    rw [branches]
    refine Moves.bind C (moves_condition C heval token cond) fun b => ?_
    cases b with
    | false => exact ih
    | true => exact hbody stmts

theorem moves_whileLoop {cond : Run Bool} {body : Run Flow} (hcond : cond.Moves R)
    (hbody : body.Moves R) (fuel : Nat) : (whileLoop cond body fuel).Moves R := by
  induction fuel with
  | zero => exact fun m => trivial
  | succ fuel ih =>
    rw [whileLoop_succ]
    refine Moves.bind C hcond fun go => ?_
    split
    · exact Moves.bind C hbody (moves_andThen C ih)
    · exact moves_pure C _

theorem moves_timesLoop {body : Run Flow} (hbody : body.Moves R) (count fuel done : Nat) :
    (timesLoop body count fuel done).Moves R := by
  induction fuel generalizing done with
  | zero => exact fun m => trivial
  | succ fuel ih =>
    rw [timesLoop_succ]
    split
    · exact Moves.bind C hbody (moves_andThen C (ih _))
    · exact moves_pure C _

theorem moves_repetitions (token : Token) (v : Value) : (repetitions token v).Moves R := by
  cases v with
  | number x =>
    rw [repetitions]
    split
    · exact moves_pure C _
    · exact moves_fail C token _
  | _ => exact moves_fail C token _

end

end Eval

/-! ### Frames -/

namespace Store

/-- The frame that a frame hangs off. -/
def parent? (s : Store) (i : Nat) : Option Nat := s.frames[i]?.bind Frame.parent

/-- The frames of a store are still there, each with its parent and, except for the frame `hole`,
with the names it binds. -/
structure Keeps (hole : Option Nat) (s s' : Store) : Prop where
  size : s.frames.size ≤ s'.frames.size
  parent : ∀ i < s.frames.size, s'.parent? i = s.parent? i
  names : ∀ i < s.frames.size, some i ≠ hole → s'.names i = s.names i

variable {hole : Option Nat} {s s₁ s₂ s₃ : Store}

theorem Keeps.refl (hole : Option Nat) (s : Store) : Keeps hole s s :=
  ⟨Nat.le_refl _, fun _ _ => rfl, fun _ _ _ => rfl⟩

theorem Keeps.trans (h : Keeps hole s₁ s₂) (h' : Keeps hole s₂ s₃) : Keeps hole s₁ s₃ where
  size := Nat.le_trans h.size h'.size
  parent i hi := (h'.parent i (Nat.lt_of_lt_of_le hi h.size)).trans (h.parent i hi)
  names i hi hne := (h'.names i (Nat.lt_of_lt_of_le hi h.size) hne).trans (h.names i hi hne)

theorem Keeps.weaken (h : Keeps none s₁ s₂) (hole : Option Nat) : Keeps hole s₁ s₂ :=
  ⟨h.size, h.parent, fun i hi _ => h.names i hi (by simp)⟩

/-- What happens in a frame that is not there yet leaves all names alone. -/
theorem Keeps.of_fresh {fresh : Nat} (hfresh : s₁.frames.size ≤ fresh) (h : Keeps none s₁ s₂)
    (h' : Keeps (some fresh) s₂ s₃) : Keeps none s₁ s₃ where
  size := Nat.le_trans h.size h'.size
  parent i hi := (h'.parent i (Nat.lt_of_lt_of_le hi h.size)).trans (h.parent i hi)
  names i hi hne := by
    refine (h'.names i (Nat.lt_of_lt_of_le hi h.size) ?_).trans (h.names i hi hne)
    intro heq
    have := Option.some.inj heq
    omega

theorem keeps_alloc (s : Store) (parent : Nat) (bindings : Bindings) :
    Keeps none s (s.alloc parent bindings).2 where
  size := by simp [alloc]
  parent i hi := by simp [alloc, parent?, Array.getElem?_push_lt hi, hi]
  names i hi _ := by simp [alloc, names, Array.getElem?_push_lt hi, hi]

theorem names_update (f : Frame) (name : String) (value : Value) :
    (f.update name value).names = f.names := by
  unfold Frame.update Frame.names
  induction f.bindings with
  | nil => rfl
  | cons b bs ih =>
    obtain ⟨n, v⟩ := b
    rw [Bindings.update]
    split
    · rfl
    · simpa using ih

theorem keeps_update (s : Store) (frame : Nat) (name : String) (value : Value) :
    Keeps none s (s.update frame name value) where
  size := by simp [update]
  parent i hi := by
    simp only [update, parent?, Array.getElem?_modify]
    split <;> cases s.frames[i]? <;> rfl
  names i hi _ := by
    simp only [update, names, Array.getElem?_modify]
    split
    · cases s.frames[i]? with
      | none => rfl
      | some f => exact names_update f name value
    · rfl

theorem keeps_define (s : Store) (frame : Nat) (name : String) (value : Value) :
    Keeps (some frame) s (s.define frame name value) where
  size := by simp [define]
  parent i hi := by
    simp only [define, parent?, Array.getElem?_modify]
    split <;> cases s.frames[i]? <;> rfl
  names i hi hne := by
    have : frame ≠ i := fun h => hne (by rw [h])
    simp [define, names, Array.getElem?_modify, this]

end Store

theorem Sink.limit_write? {s s' : Sink} {piece : String} (h : s.write? piece = some s') :
    s'.limit = s.limit := by
  unfold Sink.write? at h
  split at h
  · rw [← Option.some.inj h]
  · split at h
    · rw [← Option.some.inj h]
    · cases h

theorem Sink.limit_writeLine (s : Sink) (text : String) : (s.writeLine text).1.limit = s.limit := by
  unfold Sink.writeLine
  split
  · rfl
  · rename_i s₁ hs₁
    split
    · exact limit_write? hs₁
    · rename_i s₂ hs₂
      exact (limit_write? hs₂).trans (limit_write? hs₁)

/-- Frames are kept as a store keeps them, and context, clock and limit of the output are the same. -/
structure Machine.Keeps (hole : Option Nat) (m m' : Machine) : Prop where
  store : m.store.Keeps hole m'.store
  context : m'.context = m.context
  clock : m'.clock = m.clock
  limit : m'.sink.limit = m.sink.limit

theorem Machine.change_keeps (hole : Option Nat) : Run.Change (Machine.Keeps hole) where
  refl m := ⟨Store.Keeps.refl hole m.store, rfl, rfl, rfl⟩
  trans h h' := ⟨h.store.trans h'.store, h'.context.trans h.context, h'.clock.trans h.clock,
    h'.limit.trans h.limit⟩

theorem Machine.Keeps.weaken {m m' : Machine} (h : m.Keeps none m') (hole : Option Nat) :
    m.Keeps hole m' :=
  { h with store := h.store.weaken hole }

namespace Eval

open Run

/-! ### Evaluation -/

/-- A variable whose distance is on record has the value that it has at that distance. -/
theorem expr_variable_of_bound {m : Machine} {frame distance : Nat} {name : Token} {value : Value}
    (hdistance : m.context.scope[name.span]? = some distance)
    (hvalue : m.store.getAt? frame distance name.lexeme = some value) (fuel : Nat) :
    expr (fuel + 1) frame (.variable name) m = .done value m := by
  have hlookup : lookup? m frame name = some value := by
    rw [lookup?, hdistance]
    exact hvalue
  show getVariable frame name m = _
  rw [getVariable, hlookup]

theorem moves_getVariable (frame : Nat) (name : Token) :
    (getVariable frame name).Moves (Machine.Keeps none) := by
  intro m
  unfold getVariable
  cases lookup? m frame name with
  | none => exact (Machine.change_keeps none).refl m
  | some v => exact (Machine.change_keeps none).refl m

theorem moves_setVariable (frame : Nat) (name : Token) (value : Value) :
    (setVariable frame name value).Moves (Machine.Keeps none) := by
  intro m
  unfold setVariable
  cases locate? m frame name with
  | none => exact (Machine.change_keeps none).refl m
  | some target => exact ⟨Store.keeps_update m.store target name.lexeme value, rfl, rfl, rfl⟩

theorem moves_defineVariable (frame : Nat) (name : Token) (value : Value) :
    (defineVariable frame name value).Moves (Machine.Keeps (some frame)) := by
  intro m
  unfold defineVariable
  split
  · exact (Machine.change_keeps _).refl m
  · exact ⟨Store.keeps_define m.store frame name.lexeme value, rfl, rfl, rfl⟩

/-- Work in a fresh frame leaves the frames there are alone. -/
theorem moves_enterFrame {α : Type} (parent : Nat) (bindings : Bindings) {f : Nat → Run α}
    (hf : ∀ frame, (f frame).Moves (Machine.Keeps (some frame))) :
    (enterFrame parent bindings >>= f).Moves (Machine.Keeps none) := by
  intro m
  have halloc := Store.keeps_alloc m.store parent bindings
  have hinner := hf m.store.frames.size { m with store := (m.store.alloc parent bindings).2 }
  show (f m.store.frames.size { m with store := (m.store.alloc parent bindings).2 }).Leaves _
  exact hinner.imp fun m₁ h => { h with store := .of_fresh (Nat.le_refl _) halloc h.store }

theorem moves_within {α : Type} (context : Context) {x : Run α}
    (hx : x.Moves (Machine.Keeps none)) : (within context x).Moves (Machine.Keeps none) := by
  intro m
  have hm := hx { m with context := context }
  unfold within
  cases hr : x { m with context := context } with
  | done a m₁ => rw [hr] at hm; simpa only [hr] using { hm with context := rfl }
  | fault d m₁ => rw [hr] at hm; simpa only [hr] using { hm with context := rfl }
  | exhausted => exact trivial

section

variable {eval : Nat → Expr → Run Value} {exec : Nat → Stmt → Run Flow}
  (heval : ∀ frame e, (eval frame e).Moves (Machine.Keeps none))
  (hexec : ∀ frame s, (exec frame s).Moves (Machine.Keeps (some frame)))
include hexec

theorem moves_block (frame : Nat) (body : List Stmt) :
    (block exec frame body).Moves (Machine.Keeps none) :=
  moves_enterFrame frame [] fun inner =>
    moves_sequence (Machine.change_keeps (some inner)) (hexec inner) body

theorem moves_callFunction (f : Closure) (args : List Value) (paren : Token) :
    (callFunction exec f args paren).Moves (Machine.Keeps none) := by
  intro m
  unfold callFunction
  split
  · exact (Machine.change_keeps none).refl m
  · refine moves_within _ (moves_enterFrame _ _ fun frame => ?_) m
    have C := Machine.change_keeps (some frame)
    exact Moves.bind C (moves_sequence C (hexec frame) f.body) fun flow => moves_pure C flow.value

omit hexec in
theorem moves_display (value : Value) (paren : Token) :
    (display value paren).Moves (Machine.Keeps none) := by
  intro m
  have hlimit := m.sink.limit_writeLine value.toText
  unfold display
  split <;> rename_i hline <;> rw [hline] at hlimit <;>
    exact ⟨Store.Keeps.refl none m.store, rfl, rfl, hlimit⟩

omit hexec in
theorem moves_callNative (n : Native) (args : List Value) (paren : Token) :
    (callNative n args paren).Moves (Machine.Keeps none) := by
  have C := Machine.change_keeps none
  cases n with
  | display =>
    show (displayAll paren args).Moves _
    induction args with
    | nil => exact moves_pure C _
    | cons v vs ih => exact Moves.bind C (moves_display v paren) fun _ => ih
  | time => exact fun m => ⟨Store.Keeps.refl none m.store, rfl, rfl, rfl⟩

theorem moves_call (callee : Value) (args : List Value) (paren : Token) :
    (call exec callee args paren).Moves (Machine.Keeps none) := by
  have C := Machine.change_keeps none
  cases callee with
  | function f =>
    rw [call]
    split
    · exact moves_callFunction hexec f args paren
    · exact moves_fail C paren _
  | native n =>
    rw [call]
    split
    · exact moves_callNative n args paren
    · exact moves_fail C paren _
  | _ => exact moves_fail C paren _

include heval

theorem moves_exprWith (frame : Nat) (e : Expr) :
    (exprWith eval exec frame e).Moves (Machine.Keeps none) := by
  have C := Machine.change_keeps none
  cases e with
  | constant value => exact moves_pure C _
  | «variable» name => exact moves_getVariable frame name
  | group inner => exact heval frame inner
  | unary op token operand =>
    exact Moves.bind C (heval frame operand) fun v => moves_ofExcept C token _
  | binary op token left right =>
    exact Moves.bind C (heval frame left) fun a =>
      Moves.bind C (heval frame right) fun b => moves_ofExcept C token _
  | logical op token left right =>
    refine Moves.bind C (heval frame left) fun v => ?_
    refine Moves.bind C (moves_truth C token _ v) fun a => ?_
    split
    · exact moves_pure C _
    · refine Moves.bind C (heval frame right) fun w => ?_
      exact Moves.bind C (moves_truth C token _ w) fun b => moves_pure C _
  | call callee args paren =>
    refine Moves.bind C (heval frame callee) fun f => ?_
    exact Moves.bind C (moves_all C (heval frame) args) fun values =>
      moves_call hexec f values paren

/-- Statements other than declarations leave the names of the frame they run in alone, too. -/
theorem moves_undeclaring (fuel frame : Nat) {s : Stmt} (hs : s.declared? = none) :
    (stmtWith fuel eval exec frame s).Moves (Machine.Keeps none) := by
  have C := Machine.change_keeps none
  cases s with
  | block body => exact moves_block hexec frame body
  | change target value =>
    exact Moves.bind C (heval frame value) fun v =>
      Moves.bind C (moves_setVariable frame target v) fun _ => moves_pure C _
  | create name value => cases hs
  | define name params body => cases hs
  | expression value => exact Moves.bind C (heval frame value) fun _ => moves_pure C _
  | branch token cond body rest =>
    refine Moves.bind C (moves_condition C (heval frame) token cond) fun b => ?_
    cases b with
    | false => exact moves_branches C (heval frame) (moves_block hexec frame) rest
    | true => exact moves_block hexec frame body
  | repeatTimes token count body =>
    refine Moves.bind C (heval frame count) fun v => ?_
    exact Moves.bind C (moves_repetitions C token v) fun n =>
      moves_timesLoop C (moves_block hexec frame body) n fuel 0
  | repeatWhile token cond body =>
    exact moves_whileLoop C (moves_condition C (heval frame) token cond)
      (moves_block hexec frame body) fuel
  | returnEmpty token => exact moves_pure C _
  | returnWith token value => exact Moves.bind C (heval frame value) fun v => moves_pure C _

theorem moves_stmtWith (fuel frame : Nat) (s : Stmt) :
    (stmtWith fuel eval exec frame s).Moves (Machine.Keeps (some frame)) := by
  have C := Machine.change_keeps (some frame)
  have hweaken : ∀ {α : Type} {x : Run α}, x.Moves (Machine.Keeps none) →
      x.Moves (Machine.Keeps (some frame)) := fun hx => hx.imp fun _ _ h => h.weaken _
  cases s with
  | create name value =>
    exact Moves.bind C (hweaken (heval frame value)) fun v =>
      Moves.bind C (moves_defineVariable frame name v) fun _ => moves_pure C _
  | define name params body =>
    refine Moves.bind C (fun m => ⟨Store.Keeps.refl _ m.store, rfl, rfl, rfl⟩) fun f => ?_
    exact Moves.bind C (moves_defineVariable frame name f) fun _ => moves_pure C _
  | _ => exact hweaken (moves_undeclaring heval hexec fuel frame rfl)

/-- A declaration binds its name last, so a fault comes before. -/
theorem stops_stmtWith (fuel frame : Nat) (s : Stmt) :
    (stmtWith fuel eval exec frame s).Stops (Machine.Keeps none) := by
  have C := Machine.change_keeps none
  have hbind : ∀ name v, (do defineVariable frame name v; return Flow.normal : Run Flow).Stops
      (Machine.Keeps none) := fun name v m => by
    show ((defineVariable frame name v >>= fun _ => pure Flow.normal) m).Faults _
    by_cases hbound : m.store.binds frame name.lexeme
    · have hfault : defineVariable frame name v m =
          .fault ((name.diagnose (.runtime (.alreadyDefined name.lexeme))).inFile m.context.file) m := by
        rw [defineVariable, if_pos hbound]
        rfl
      rw [bind_of_fault hfault]
      exact C.refl m
    · have hdone : defineVariable frame name v m =
          .done () { m with store := m.store.define frame name.lexeme v } := by
        rw [defineVariable, if_neg hbound]
      rw [bind_of_done hdone]
      exact trivial
  cases s with
  | create name value => exact (heval frame value).bind_stops C fun v => hbind name v
  | define name params body =>
    exact Moves.bind_stops C (x := makeFunction frame name params body)
      (fun m => ⟨Store.Keeps.refl _ m.store, rfl, rfl, rfl⟩) fun f => hbind name f
  | _ => exact (moves_undeclaring heval hexec fuel frame rfl).stops

end

theorem moves_eval (fuel : Nat) :
    (∀ frame e, (expr fuel frame e).Moves (Machine.Keeps none)) ∧
      ∀ frame s, (stmt fuel frame s).Moves (Machine.Keeps (some frame)) := by
  induction fuel with
  | zero => exact ⟨fun _ _ _ => trivial, fun _ _ _ => trivial⟩
  | succ fuel ih =>
    exact ⟨fun frame e => moves_exprWith ih.1 ih.2 frame e,
      fun frame s => moves_stmtWith ih.1 ih.2 fuel frame s⟩

/-- Evaluating an expression leaves the frames there are and the context as they were. -/
theorem moves_expr (fuel frame : Nat) (e : Expr) :
    (expr fuel frame e).Moves (Machine.Keeps none) :=
  (moves_eval fuel).1 frame e

/-- Executing a statement leaves all but the names of its own frame as it was. -/
theorem moves_stmt (fuel frame : Nat) (s : Stmt) :
    (stmt fuel frame s).Moves (Machine.Keeps (some frame)) :=
  (moves_eval fuel).2 frame s

/-- A statement that faults has left the names of its own frame as they were, too. -/
theorem stops_stmt (fuel frame : Nat) (s : Stmt) :
    (stmt fuel frame s).Stops (Machine.Keeps none) := by
  cases fuel with
  | zero => exact fun _ => trivial
  | succ fuel =>
    exact fun m => stops_stmtWith (moves_expr fuel) (moves_stmt fuel) fuel frame s m

/-- Running a program leaves all but the names of the global variables as it was. -/
theorem moves_program (fuel : Nat) (ss : List Stmt) :
    (program fuel ss).Moves (Machine.Keeps (some Store.globals)) := by
  have C := Machine.change_keeps (some Store.globals)
  induction ss with
  | nil => exact fun m => C.refl m
  | cons s ss ih =>
    rw [program_cons]
    exact Moves.bind C (moves_stmt fuel Store.globals s) fun _ => ih

end Eval

end Offside
