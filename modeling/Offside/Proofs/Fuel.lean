import Offside.Proofs.Frames

/-!
# Fuel

Fuel only bounds how far a computation may go. A computation that ends with some fuel ends in the
same way with more, so what a computation ends in does not depend on its fuel.

* `Run.Upto`: a computation that ends as another does, unless its fuel does not last;
* `Eval.upto_expr`, `Eval.upto_stmt`: more fuel never changes how a computation ends;
* `Run.Ends`: what a computation ends in with enough fuel;
* `Run.ends_iff`, `Run.Grows.ends_bind`: two computations that end in the same, and two in order.
-/

namespace Offside

/-! ### Computations cut short -/

namespace Run

variable {α β : Type}

/-- `x` ends as `x'` does, unless its fuel does not last. -/
def Upto (x x' : Run α) : Prop := ∀ m, x m = .exhausted ∨ x m = x' m

theorem Upto.refl (x : Run α) : x.Upto x := fun _ => .inr rfl

theorem upto_exhausted (x : Run α) : Upto (fun _ => .exhausted) x := fun _ => .inl rfl

/-- How a computation that is not cut short ends. -/
theorem Upto.eq {x x' : Run α} (h : x.Upto x') {m : Machine} {r : Result α} (hr : x m = r)
    (hends : r ≠ .exhausted) : x' m = r := by
  rcases h m with hx | hx
  · exact absurd (hr.symm.trans hx) hends
  · exact hx.symm.trans hr

theorem Upto.bind {x x' : Run α} {f f' : α → Run β} (hx : x.Upto x')
    (hf : ∀ a, (f a).Upto (f' a)) : (x >>= f).Upto (x' >>= f') := by
  intro m
  cases h : x m with
  | done a m₁ =>
    rw [bind_of_done h, bind_of_done (hx.eq h nofun)]
    exact hf a m₁
  | fault d m₁ => exact .inr ((bind_of_fault h).trans (bind_of_fault (hx.eq h nofun)).symm)
  | exhausted => exact .inl (bind_of_exhausted h)

theorem upto_andThen {next next' : Run Flow} (h : next.Upto next') (flow : Flow) :
    (flow.andThen next).Upto (flow.andThen next') := by
  cases flow with
  | normal => exact h
  | returned value => exact .refl _

end Run

namespace Eval

open Run

/-! ### Combinators -/

theorem upto_all {eval eval' : Expr → Run Value} (h : ∀ e, (eval e).Upto (eval' e))
    (es : List Expr) : (all eval es).Upto (all eval' es) := by
  induction es with
  | nil => exact .refl _
  | cons e es ih => exact (h e).bind fun v => ih.bind fun vs => .refl _

theorem upto_sequence {exec exec' : Stmt → Run Flow} (h : ∀ s, (exec s).Upto (exec' s))
    (ss : List Stmt) : (sequence exec ss).Upto (sequence exec' ss) := by
  induction ss with
  | nil => exact .refl _
  | cons s ss ih =>
    rw [sequence_cons, sequence_cons]
    exact (h s).bind (upto_andThen ih)

theorem upto_condition {eval eval' : Expr → Run Value} (h : ∀ e, (eval e).Upto (eval' e))
    (token : Token) (cond : Expr) : (condition eval token cond).Upto (condition eval' token cond) :=
  (h cond).bind fun _ => .refl _

theorem upto_branches {eval eval' : Expr → Run Value} {body body' : List Stmt → Run Flow}
    (heval : ∀ e, (eval e).Upto (eval' e)) (hbody : ∀ ss, (body ss).Upto (body' ss)) (rest : Else) :
    (branches eval body rest).Upto (branches eval' body' rest) := by
  induction rest using branches.induct with
  | case1 => exact .refl _
  | case2 stmts => exact hbody stmts
  | case3 token cond stmts rest ih =>
    rw [branches, branches]
    refine (upto_condition heval token cond).bind fun go => ?_
    cases go with
    | false => exact ih
    | true => exact hbody stmts

theorem upto_whileLoop {cond cond' : Run Bool} {body body' : Run Flow} (hcond : cond.Upto cond')
    (hbody : body.Upto body') {fuel fuel' : Nat} (hfuel : fuel ≤ fuel') :
    (whileLoop cond body fuel).Upto (whileLoop cond' body' fuel') := by
  induction fuel generalizing fuel' with
  | zero => exact upto_exhausted _
  | succ fuel ih =>
    obtain ⟨fuel', rfl⟩ := Nat.exists_eq_add_of_le' hfuel
    rw [whileLoop_succ, ← Nat.add_assoc, whileLoop_succ]
    refine hcond.bind fun go => ?_
    split
    · exact hbody.bind (upto_andThen (ih (Nat.le_add_left _ _)))
    · exact .refl _

theorem upto_timesLoop {body body' : Run Flow} (hbody : body.Upto body') (count : Nat)
    {fuel fuel' : Nat} (hfuel : fuel ≤ fuel') (done : Nat) :
    (timesLoop body count fuel done).Upto (timesLoop body' count fuel' done) := by
  induction fuel generalizing fuel' done with
  | zero => exact upto_exhausted _
  | succ fuel ih =>
    obtain ⟨fuel', rfl⟩ := Nat.exists_eq_add_of_le' hfuel
    rw [timesLoop_succ, ← Nat.add_assoc, timesLoop_succ]
    split
    · exact hbody.bind (upto_andThen (ih (Nat.le_add_left _ _) _))
    · exact .refl _

theorem upto_within {α : Type} (context : Context) {x x' : Run α} (h : x.Upto x') :
    (within context x).Upto (within context x') := by
  intro m
  unfold within
  rcases h { m with context := context } with hx | hx
  · exact .inl (by simp only [hx])
  · exact .inr (by simp only [hx])

section

variable {eval eval' : Nat → Expr → Run Value} {exec exec' : Nat → Stmt → Run Flow}
  (heval : ∀ frame e, (eval frame e).Upto (eval' frame e))
  (hexec : ∀ frame s, (exec frame s).Upto (exec' frame s))
include hexec

theorem upto_block (frame : Nat) (body : List Stmt) :
    (block exec frame body).Upto (block exec' frame body) :=
  (Upto.refl _).bind fun inner => upto_sequence (hexec inner) body

theorem upto_call (callee : Value) (args : List Value) (paren : Token) :
    (call exec callee args paren).Upto (call exec' callee args paren) := by
  cases callee with
  | function f =>
    unfold call
    dsimp only
    split
    · intro m
      unfold callFunction
      split
      · exact .inr rfl
      · refine upto_within _ ((Upto.refl _).bind fun frame => ?_) m
        exact (upto_sequence (hexec frame) f.body).bind fun flow => .refl _
    · exact .refl _
  | _ => exact .refl _

include heval

theorem upto_exprWith (frame : Nat) (e : Expr) :
    (exprWith eval exec frame e).Upto (exprWith eval' exec' frame e) := by
  cases e with
  | constant value => exact .refl _
  | «variable» name => exact .refl _
  | group inner => exact heval frame inner
  | unary op token operand => exact (heval frame operand).bind fun _ => .refl _
  | binary op token left right =>
    exact (heval frame left).bind fun _ => (heval frame right).bind fun _ => .refl _
  | logical op token left right =>
    refine (heval frame left).bind fun v => (Upto.refl _).bind fun a => ?_
    split
    · exact .refl _
    · exact (heval frame right).bind fun w => .refl _
  | call callee args paren =>
    exact (heval frame callee).bind fun f =>
      (upto_all (heval frame) args).bind fun values => upto_call hexec f values paren

theorem upto_stmtWith {fuel fuel' : Nat} (hfuel : fuel ≤ fuel') (frame : Nat) (s : Stmt) :
    (stmtWith fuel eval exec frame s).Upto (stmtWith fuel' eval' exec' frame s) := by
  cases s with
  | block body => exact upto_block hexec frame body
  | change target value => exact (heval frame value).bind fun _ => .refl _
  | create name value => exact (heval frame value).bind fun _ => .refl _
  | define name params body => exact .refl _
  | expression value => exact (heval frame value).bind fun _ => .refl _
  | branch token cond body rest =>
    refine (upto_condition (heval frame) token cond).bind fun go => ?_
    cases go with
    | false => exact upto_branches (heval frame) (upto_block hexec frame) rest
    | true => exact upto_block hexec frame body
  | repeatTimes token count body =>
    exact (heval frame count).bind fun _ => (Upto.refl _).bind fun n =>
      upto_timesLoop (upto_block hexec frame body) n hfuel 0
  | repeatWhile token cond body =>
    exact upto_whileLoop (upto_condition (heval frame) token cond) (upto_block hexec frame body) hfuel
  | returnEmpty token => exact .refl _
  | returnWith token value => exact (heval frame value).bind fun _ => .refl _

end

/-! ### The evaluator -/

theorem upto_eval {fuel fuel' : Nat} (h : fuel ≤ fuel') :
    (∀ frame e, (expr fuel frame e).Upto (expr fuel' frame e)) ∧
      ∀ frame s, (stmt fuel frame s).Upto (stmt fuel' frame s) := by
  induction fuel generalizing fuel' with
  | zero => exact ⟨fun _ _ => upto_exhausted _, fun _ _ => upto_exhausted _⟩
  | succ fuel ih =>
    obtain ⟨fuel', rfl⟩ := Nat.exists_eq_add_of_le' h
    have hless : fuel ≤ fuel' + fuel := Nat.le_add_left _ _
    obtain ⟨heval, hexec⟩ := ih hless
    exact ⟨upto_exprWith heval hexec, upto_stmtWith heval hexec hless⟩

/-- More fuel never changes how an expression ends. -/
theorem upto_expr {fuel fuel' : Nat} (h : fuel ≤ fuel') (frame : Nat) (e : Expr) :
    (expr fuel frame e).Upto (expr fuel' frame e) := (upto_eval h).1 frame e

/-- More fuel never changes how a statement ends. -/
theorem upto_stmt {fuel fuel' : Nat} (h : fuel ≤ fuel') (frame : Nat) (s : Stmt) :
    (stmt fuel frame s).Upto (stmt fuel' frame s) := (upto_eval h).2 frame s

end Eval

/-! ### Ends -/

namespace Run

variable {α : Type}

/-- More fuel never changes how a computation ends. -/
def Grows (x : Nat → Run α) : Prop := ∀ fuel fuel', fuel ≤ fuel' → (x fuel).Upto (x fuel')

/-- What a computation ends in with enough fuel. -/
def Ends (x : Nat → Run α) (m : Machine) (r : Result α) : Prop :=
  r ≠ .exhausted ∧ ∃ fuel, x fuel m = r

/-- It ends so with any fuel that is not less. -/
theorem Grows.of_le {x : Nat → Run α} (hx : Grows x) {m : Machine} {r : Result α} {fuel fuel' : Nat}
    (h : x fuel m = r) (hends : r ≠ .exhausted) (hle : fuel ≤ fuel') : x fuel' m = r :=
  (hx fuel fuel' hle).eq h hends

/-- Two computations end in the same if each of them, cut short, is the other cut short elsewhere. -/
theorem ends_iff {x y : Nat → Run α} (hxy : ∀ fuel, ∃ fuel', (x fuel).Upto (y fuel'))
    (hyx : ∀ fuel, ∃ fuel', (y fuel).Upto (x fuel')) (m : Machine) (r : Result α) :
    Ends x m r ↔ Ends y m r := by
  refine and_congr_right fun hends => ⟨fun ⟨fuel, hr⟩ => ?_, fun ⟨fuel, hr⟩ => ?_⟩
  · obtain ⟨fuel', hupto⟩ := hxy fuel
    exact ⟨fuel', hupto.eq hr hends⟩
  · obtain ⟨fuel', hupto⟩ := hyx fuel
    exact ⟨fuel', hupto.eq hr hends⟩

/-- What a computation ends in that does nothing without fuel. -/
theorem ends_succ {x : Nat → Run α} {m : Machine} (hzero : x 0 m = .exhausted) (r : Result α) :
    Ends x m r ↔ Ends (fun fuel => x (fuel + 1)) m r := by
  refine and_congr_right fun hends => ⟨fun ⟨fuel, hr⟩ => ?_, fun ⟨fuel, hr⟩ => ⟨fuel + 1, hr⟩⟩
  cases fuel with
  | zero => exact absurd (hr.symm.trans hzero) hends
  | succ fuel => exact ⟨fuel, hr⟩

/-- What a chain of computations ends in, after the first of them has ended. -/
theorem Grows.ends_bind {β : Type} {x : Nat → Run α} {f : Nat → α → Run β} (hx : Grows x)
    (hf : ∀ a, Grows fun fuel => f fuel a) {m m₁ : Machine} {a : α} (h : Ends x m (.done a m₁))
    (r : Result β) :
    Ends (fun fuel => x fuel >>= f fuel) m r ↔ Ends (fun fuel => f fuel a) m₁ r := by
  obtain ⟨hdone, enough, ha⟩ := h
  refine and_congr_right fun hends => ⟨fun ⟨fuel, hr⟩ => ?_, fun ⟨fuel, hr⟩ => ?_⟩
  · rcases hx fuel _ (Nat.le_max_left fuel enough) m with hfirst | hfirst
    · exact absurd (hr.symm.trans (bind_of_exhausted hfirst)) hends
    · rw [hx.of_le ha hdone (Nat.le_max_right fuel enough)] at hfirst
      exact ⟨fuel, (bind_of_done hfirst).symm.trans hr⟩
  · refine ⟨max fuel enough, ?_⟩
    show (x (max fuel enough) >>= f (max fuel enough)) m = r
    rw [bind_of_done (hx.of_le ha hdone (Nat.le_max_right fuel enough))]
    exact (hf a).of_le hr hends (Nat.le_max_left fuel enough)

end Run

namespace Eval

open Run

theorem grows_expr (frame : Nat) (e : Expr) : Grows fun fuel => expr fuel frame e :=
  fun _ _ h => upto_expr h frame e

end Eval

end Offside
