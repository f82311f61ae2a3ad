import Offside.Value

/-!
# What operators answer with

An operator never answers with a function. Where it faults, the fault is about its operands: neither
about a name nor about a call.

* `Cause.isNaming`, `Cause.atCall`: causes that are about a name, and causes of a call as a whole;
* `Plain`: the answers that operators give.
-/

namespace Offside

/-- Whether a fault says that a name is not bound, or is bound already. -/
def RuntimeFault.isNaming : RuntimeFault → Bool
  | .notDefined _ | .alreadyDefined _ => true
  | _ => false

/-- Whether the fault is about a name that is not bound, or is bound already, at run time. -/
def Cause.isNaming : Cause → Bool
  | .runtime e => e.isNaming
  | _ => false

/-- Whether a cause is one of a call as a whole. -/
def Cause.atCall : Cause → Bool
  | .runtime (.arityMismatch _ _) | .runtime .notCallable | .runtime .stackOverflow | .output _ =>
    true
  | _ => false

/-- A value that is no function, or a fault that is neither about a name nor about a call. -/
def Plain : Except RuntimeFault Value → Prop
  | .ok v => ∀ f, v ≠ .function f
  | .error e => e.isNaming = false ∧ (Cause.runtime e).atCall = false

theorem UnaryOp.plain_apply (op : UnaryOp) (v : Value) : Plain (op.apply v) := by
  unfold apply
  split
  · exact fun _ => nofun
  · exact ⟨rfl, rfl⟩
  · exact fun _ => nofun
  · exact ⟨rfl, rfl⟩

theorem BinaryOp.plain_applyNumbers (op : BinaryOp) (x y : Number) :
    Plain (op.applyNumbers x y) := by
  cases op with
  | divide =>
    rw [applyNumbers]
    split
    · exact ⟨rfl, rfl⟩
    · exact fun _ => nofun
  | _ => exact fun _ => nofun

theorem BinaryOp.plain_apply (op : BinaryOp) (a b : Value) : Plain (op.apply a b) := by
  unfold apply
  split
  · exact fun _ => nofun
  · exact fun _ => nofun
  · split
    · exact plain_applyNumbers _ _ _
    · exact fun _ => nofun
    · exact ⟨rfl, rfl⟩
  · split
    · exact plain_applyNumbers _ _ _
    · exact ⟨rfl, rfl⟩

end Offside
