import Mathlib.Data.List.Induction
import Offside.Proofs.Lockstep.Store
import Offside.Proofs.Operators
import Offside.Proofs.Phases
import Offside.Proofs.Points

/-!
# What the parts of a run account for

What runs at a point does to the machine what its parts do, one after another, and then one step of
its own at most. So much follows part by part: frames are only ever added, each hanging off one that
is there; a variable that is bound stays bound, and it changes its value only where a part of the run
is a `change` that rebinds it; every function was made by a definition; and a fault for too many
calls comes from a call at the limit.

* `Store.Rooted`, `Store.Sound`: frames that form a tree, and functions made in it;
* `Point.Rebinds`, `Point.Makes`, `Point.AtLimit`: the points that do these things;
* `Develops`, `Result.Accounted`: what parts account for;
* `accounted`, `ready_of_reaches`: they do, at every point that a run gets to.
-/

namespace Offside

open Lockstep (Location)

/-! ### Heaps -/

namespace Store

/-- Every frame but that of the global variables hangs off an earlier one. -/
structure Rooted (s : Store) : Prop where
  size : globals < s.frames.size
  globals : s.parent? globals = none
  parent : ∀ i < s.frames.size, i ≠ Store.globals → ∃ j < i, s.parent? i = some j

/-- Frames are added that hang off earlier ones. -/
theorem Rooted.grow {s s' : Store} (h : s.Rooted) (hsize : s.frames.size ≤ s'.frames.size)
    (hparent : ∀ i < s.frames.size, s'.parent? i = s.parent? i)
    (hfresh : ∀ i, s.frames.size ≤ i → i < s'.frames.size → ∃ j < i, s'.parent? i = some j) :
    s'.Rooted where
  size := Nat.lt_of_lt_of_le h.size hsize
  globals := (hparent _ h.size).trans h.globals
  parent i hi hne := by
    by_cases hold : i < s.frames.size
    · rw [hparent i hold]
      exact h.parent i hold hne
    · exact hfresh i (Nat.le_of_not_lt hold) hi

/-- One variable, which is bound, has been given a value, and nothing else has happened. -/
structure Rebound (a : Location) (v : Value) (s s' : Store) : Prop where
  bound : (s.value? a).isSome
  value : s'.value? a = some v
  others : ∀ b ≠ a, s'.value? b = s.value? b
  size : s'.frames.size = s.frames.size
  parents : ∀ i, s'.parent? i = s.parent? i

theorem rebound_update {s : Store} {frame : Nat} {name : String} (v : Value)
    (h : (s.value? (frame, name)).isSome) : Rebound (frame, name) v s (s.update frame name v) where
  bound := h
  value := by rw [value?_update, if_pos ⟨rfl, h⟩]
  others b hb := by rw [value?_update, if_neg fun hc => hb hc.1]
  size := by simp [update]
  parents i := by
    simp only [update, parent?, Array.getElem?_modify]
    split <;> cases s.frames[i]? <;> rfl

end Store

/-- If a value is a function, then it was made in one of the first frames, and has a given
property. -/
def Value.Sound (made : Closure → Prop) (size : Nat) (v : Value) : Prop :=
  ∀ f, v = .function f → f.frame < size ∧ made f

theorem Value.Sound.mono {made : Closure → Prop} {size size' : Nat} {v : Value}
    (h : v.Sound made size) (hle : size ≤ size') : v.Sound made size' :=
  fun f hf => ⟨Nat.lt_of_lt_of_le (h f hf).1 hle, (h f hf).2⟩

/-- The frames form a tree, and the functions in them were made in frames of it and have a given
property. -/
structure Store.Sound (made : Closure → Prop) (s : Store) : Prop where
  rooted : s.Rooted
  values : ∀ a v, s.value? a = some v → v.Sound made s.frames.size

namespace Eval

open Run

/-! ### Rebinding -/

/-- What runs at a point is a `change`, which completes: the value is evaluated, then one variable
is rebound to it. -/
def Point.Rebinds (p : Point) (a : Location) : Prop :=
  ∃ fuel target e v m₁ m₂, p.fuel = fuel + 1 ∧ p.activity = .stmt (.change target e) ∧
    expr fuel p.frame e p.machine = .done v m₁ ∧ p.result = .done [] m₂ ∧
    a.2 = target.lexeme ∧ m₁.store.Rebound a v m₂.store

/-- A function, as a definition makes it in a frame. -/
def closureOf (frame : Nat) (name : Token) (params : List Token) (body : List Stmt) (m : Machine) :
    Closure :=
  { id := m.definitions, name := name.lexeme, params := params.map (·.lexeme), body := body,
    frame := frame, scope := m.context.scope, file := m.context.file }

/-- What runs at a point is a definition, and this is the function it makes. -/
def Point.Makes (p : Point) (f : Closure) : Prop :=
  ∃ name params body, p.activity = .stmt (.define name params body) ∧
    f = closureOf p.frame name params body p.machine

/-- A function is called with as many arguments as it has parameters, while as many calls are active
as there may be. -/
def Point.AtLimit (p : Point) : Prop :=
  ∃ f args paren, p.activity = .call (.function f) args paren ∧ f.params.length = args.length ∧
    maxCallDepth ≤ p.machine.context.depth

/-- How the parts of a point may change the store. -/
structure Develops (made : Closure → Prop) (r : Point) (s s' : Store) : Prop where
  size : s.frames.size ≤ s'.frames.size
  sound : s.Sound made → s'.Sound made
  values : ∀ a v, s.value? a = some v →
    ∃ v', s'.value? a = some v' ∧ (v' = v ∨ ∃ q, Reaches r q ∧ q.Rebinds a)

variable {made : Closure → Prop} {r : Point} {s s₁ s₂ : Store}

theorem Develops.refl (made : Closure → Prop) (r : Point) (s : Store) : Develops made r s s :=
  ⟨Nat.le_refl _, id, fun _ v h => ⟨v, h, .inl rfl⟩⟩

theorem Develops.trans (h : Develops made r s s₁) (h' : Develops made r s₁ s₂) :
    Develops made r s s₂ where
  size := Nat.le_trans h.size h'.size
  sound := h'.sound ∘ h.sound
  values a v hv := by
    obtain ⟨v₁, hv₁, h₁⟩ := h.values a v hv
    obtain ⟨v₂, hv₂, h₂⟩ := h'.values a v₁ hv₁
    refine ⟨v₂, hv₂, ?_⟩
    rcases h₂ with rfl | h₂
    · exact h₁
    · exact .inr h₂

/-- A frame is added that hangs off one that is there. -/
theorem develops_alloc {parent : Nat} {bindings : Bindings} (hparent : parent < s.frames.size)
    (hbindings : ∀ n v, bindings.lookup n = some v → v.Sound made s.frames.size) :
    Develops made r s (s.alloc parent bindings).2 := by
  have hkeeps := s.keeps_alloc parent bindings
  have hsize : (s.alloc parent bindings).2.frames.size = s.frames.size + 1 := by simp [Store.alloc]
  refine ⟨hkeeps.size, fun hs => ⟨hs.rooted.grow hkeeps.size hkeeps.parent ?_, ?_⟩,
    fun a v hv => ⟨v, ?_, .inl rfl⟩⟩
  · intro i hge hi
    obtain rfl : i = s.frames.size := by omega
    exact ⟨parent, hparent, s.parent?_alloc parent bindings⟩
  · intro a v hv
    rw [Store.value?_alloc] at hv
    split at hv
    · exact (hbindings a.2 v hv).mono hkeeps.size
    · exact (hs.values a v hv).mono hkeeps.size
  · have hold : a.1 < s.frames.size := Store.lt_size_of_value? (by rw [hv]; rfl)
    rw [Store.value?_alloc, if_neg (Nat.ne_of_lt hold), hv]

/-- A new variable is bound in a frame. -/
theorem develops_define {frame : Nat} {name : String} {v : Value} (hframe : frame < s.frames.size)
    (hv : v.Sound made s.frames.size) (hnew : s.binds frame name = false) :
    Develops made r s (s.define frame name v) := by
  have hkeeps := s.keeps_define frame name v
  have hsize : (s.define frame name v).frames.size = s.frames.size := by simp [Store.define]
  refine ⟨hkeeps.size, fun hs => ⟨hs.rooted.grow hkeeps.size hkeeps.parent ?_, ?_⟩,
    fun a w hw => ⟨w, ?_, .inl rfl⟩⟩
  · intro i hge hi
    omega
  · intro a w hw
    rw [Store.value?_define _ _ _ _ hframe] at hw
    rw [hsize]
    split at hw
    · exact Option.some.inj hw ▸ hv
    · exact hs.values a w hw
  · rw [Store.value?_define _ _ _ _ hframe, if_neg, hw]
    rintro rfl
    rw [Store.binds_eq, hw] at hnew
    cases hnew

/-- A variable is rebound by one of the parts. -/
theorem develops_rebound {a : Location} {v : Value} {q : Point} (h : s.Rebound a v s₁)
    (hv : v.Sound made s.frames.size) (hq : Reaches r q) (hrebinds : q.Rebinds a) :
    Develops made r s s₁ := by
  refine ⟨h.size.ge, fun hs => ⟨hs.rooted.grow h.size.ge (fun i _ => h.parents i) ?_, ?_⟩, ?_⟩
  · intro i hge hi
    have := h.size
    omega
  · intro b w hw
    rw [h.size]
    by_cases hb : b = a
    · rw [hb, h.value] at hw
      exact Option.some.inj hw ▸ hv
    · exact hs.values b w (h.others b hb ▸ hw)
  · intro b w hw
    by_cases hb : b = a
    · exact ⟨v, hb ▸ h.value, .inr ⟨q, hq, hb ▸ hrebinds⟩⟩
    · exact ⟨w, (h.others b hb).trans hw, .inl rfl⟩

/-! ### Computations -/

/-- The values that an activity starts with. -/
def Activity.values : Activity → List Value
  | .call callee args _ => callee :: args
  | _ => []

/-- A point that is ready to run. -/
structure Point.Ready (made : Closure → Prop) (p : Point) : Prop where
  store : p.machine.store.Sound made
  frame : p.frame < p.machine.store.frames.size
  values : ∀ v ∈ p.activity.values, v.Sound made p.machine.store.frames.size

end Eval

/-- How a computation with a given store ends, as a part of what runs at a point: the store has
developed, the values are sound, and where a call is one too many there is a point that it is at. -/
def Result.Accounted (made : Closure → Prop) (r : Eval.Point) (s : Store) :
    Result (List Value) → Prop
  | .done vs m => Eval.Develops made r s m.store ∧ ∀ v ∈ vs, v.Sound made m.store.frames.size
  | .fault d m => Eval.Develops made r s m.store ∧ (d.cause = .runtime .stackOverflow →
      ∃ q, Eval.Reaches r q ∧ q.AtLimit ∧ q.result = .fault d q.machine)
  | .exhausted => True

namespace Eval

open Run

variable {made : Closure → Prop} {r : Point} {α β : Type} {values : α → List Value}
  {values' : β → List Value}

theorem accounted_pure {m : Machine} {a : α}
    (h : ∀ v ∈ values a, v.Sound made m.store.frames.size) :
    (((pure a : Run α) m).yield values).Accounted made r m.store :=
  ⟨.refl made r m.store, h⟩

theorem accounted_fail {m : Machine} {token : Token} {e : RuntimeFault} (he : e ≠ .stackOverflow) :
    (((fail token e : Run α) m).yield values).Accounted made r m.store :=
  ⟨.refl made r m.store, fun h => absurd (Cause.runtime.inj h) he⟩

theorem accounted_of_develops {s s₁ : Store} {x : Result (List Value)}
    (h : Develops made r s s₁) (hx : x.Accounted made r s₁) : x.Accounted made r s := by
  cases x with
  | done vs m => exact ⟨h.trans hx.1, hx.2⟩
  | fault d m => exact ⟨h.trans hx.1, hx.2⟩
  | exhausted => exact trivial

theorem accounted_bind {x : Run α} {f : α → Run β} {m : Machine}
    (hx : ((x m).yield values).Accounted made r m.store)
    (hf : ∀ a m₁, x m = .done a m₁ → Develops made r m.store m₁.store →
      (∀ v ∈ values a, v.Sound made m₁.store.frames.size) →
      ((f a m₁).yield values').Accounted made r m₁.store) :
    (((x >>= f) m).yield values').Accounted made r m.store := by
  cases h : x m with
  | done a m₁ =>
    rw [h] at hx
    rw [bind_of_done h]
    exact accounted_of_develops hx.1 (hf a m₁ h hx.1 hx.2)
  | fault d m₁ =>
    rw [h] at hx
    rw [bind_of_fault h]
    exact hx
  | exhausted =>
    rw [bind_of_exhausted h]
    exact trivial

theorem of_done {x : Result α} {s : Store} {a : α} {m₁ : Machine}
    (h : x = .done a m₁) (hx : (x.yield values).Accounted made r s) :
    Develops made r s m₁.store ∧ ∀ v ∈ values a, v.Sound made m₁.store.frames.size := by
  rw [h] at hx
  exact hx

/-! ### Parts -/

theorem Point.Ready.after {fuel fuel' frame : Nat} {activity activity' : Activity}
    {calls calls' : List Closure} {m m₁ : Machine}
    (hp : Point.Ready made ⟨fuel, frame, activity, calls, m⟩)
    (h : Develops made r m.store m₁.store)
    (hvalues : ∀ v ∈ activity'.values, v.Sound made m₁.store.frames.size) :
    Point.Ready made ⟨fuel', frame, activity', calls', m₁⟩ :=
  ⟨h.sound hp.store, Nat.lt_of_lt_of_le hp.frame h.size, hvalues⟩

/-- The frame of a block. -/
theorem develops_block {frame : Nat} (hframe : frame < s.frames.size) :
    Develops made r s (s.alloc frame []).2 :=
  develops_alloc hframe nofun

/-- The frame of a call. -/
theorem develops_call {m : Machine} {f : Closure} {args : List Value}
    (hf : (Value.function f).Sound made m.store.frames.size)
    (hargs : ∀ v ∈ args, v.Sound made m.store.frames.size) :
    Develops made r m.store (m.store.alloc f.frame (Bindings.insertAll [] f.params args)).2 :=
  develops_alloc (hf f rfl).1 fun n v hv => by
    rcases Bindings.of_lookup_insertAll hv with hv | hv
    · exact hargs v hv
    · cases hv

theorem sound_nil {size : Nat} : ∀ v ∈ ([] : List Value), v.Sound made size :=
  fun _ h => absurd h List.not_mem_nil

theorem Point.Ready.part {p q : Point} (hp : p.Ready made) (h : Starts p q)
    (ih : ∀ q, Starts p q → q.Ready made → q.result.Accounted made r q.machine.store) :
    q.Ready made := by
  cases h with
  | first | firstExpr | value | block | branch | loop | firstStmt | otherwise | condition | round
  | whether =>
    exact ⟨hp.store, hp.frame, sound_nil⟩
  | top => exact ⟨hp.store, hp.store.rooted.size, sound_nil⟩
  | right ha | unsettled ha _ | args ha =>
    obtain ⟨hdev, -⟩ := of_done ha (ih _ (.first rfl) ⟨hp.store, hp.frame, sound_nil⟩)
    exact hp.after hdev sound_nil
  | call hf hargs =>
    obtain ⟨hdev, hvalue⟩ := of_done hf (ih _ (.first rfl) ⟨hp.store, hp.frame, sound_nil⟩)
    obtain ⟨hdev', hvalues⟩ := of_done hargs (ih _ (.args hf) (hp.after hdev sound_nil))
    refine hp.after (hdev.trans hdev') fun v hv => ?_
    rcases List.mem_cons.1 hv with rfl | hv
    · exact (hvalue _ (by simp)).mono hdev'.size
    · exact hvalues v hv
  | moreExprs hv =>
    obtain ⟨hdev, -⟩ := of_done hv (ih _ .firstExpr ⟨hp.store, hp.frame, sound_nil⟩)
    exact hp.after hdev sound_nil
  | body hargs hdepth =>
    obtain ⟨hf, hargs⟩ := List.forall_mem_cons.1 hp.values
    have hdev : Develops made r _ _ := develops_call hf hargs
    exact ⟨hdev.sound hp.store, by simp [Store.alloc], sound_nil⟩
  | times hv _ =>
    obtain ⟨hdev, -⟩ := of_done hv (ih _ (.value rfl) ⟨hp.store, hp.frame, sound_nil⟩)
    exact hp.after hdev sound_nil
  | moreStmts hs =>
    obtain ⟨hdev, -⟩ := of_done hs (ih _ .firstStmt ⟨hp.store, hp.frame, sound_nil⟩)
    exact hp.after hdev sound_nil
  | inner =>
    have hdev : Develops made r _ _ := develops_block hp.frame
    exact ⟨hdev.sound hp.store, by simp [Store.alloc], sound_nil⟩
  | chosen hcond | passed hcond =>
    obtain ⟨hdev, -⟩ := of_done hcond (ih _ .condition ⟨hp.store, hp.frame, sound_nil⟩)
    exact hp.after hdev sound_nil
  | moreRounds hlt hbody =>
    obtain ⟨hdev, -⟩ := of_done hbody (ih _ (.round hlt) ⟨hp.store, hp.frame, sound_nil⟩)
    exact hp.after hdev sound_nil
  | again hcond =>
    obtain ⟨hdev, -⟩ := of_done hcond (ih _ .whether ⟨hp.store, hp.frame, sound_nil⟩)
    exact hp.after hdev sound_nil
  | moreAgain hcond hbody =>
    obtain ⟨hdev, -⟩ := of_done hcond (ih _ .whether ⟨hp.store, hp.frame, sound_nil⟩)
    obtain ⟨hdev', -⟩ := of_done hbody (ih _ (.again hcond) (hp.after hdev sound_nil))
    exact hp.after (hdev.trans hdev') sound_nil
  | moreTop hs =>
    obtain ⟨hdev, -⟩ := of_done hs (ih _ .top ⟨hp.store, hp.store.rooted.size, sound_nil⟩)
    exact hp.after hdev sound_nil

/-! ### Evaluation -/

theorem sound_bool {size : Nat} (b : Bool) : ∀ v ∈ [Value.bool b], v.Sound made size := by
  rintro v hv f rfl
  cases List.mem_singleton.1 hv

theorem sound_empty {size : Nat} : ∀ v ∈ [Value.empty], v.Sound made size := by
  rintro v hv f rfl
  cases List.mem_singleton.1 hv

theorem sound_number {size : Nat} (x : Number) : ∀ v ∈ [Value.number x], v.Sound made size := by
  rintro v hv f rfl
  cases List.mem_singleton.1 hv

theorem truth_eq_done {token : Token} {e : RuntimeFault} {v : Value} {b : Bool} {m m₁ : Machine}
    (h : truth token e v m = .done b m₁) : v = .bool b ∧ m₁ = m := by
  cases v with
  | bool a => cases h; exact ⟨rfl, rfl⟩
  | _ => cases h

theorem accounted_ofExcept {token : Token} {x : Except RuntimeFault Value} {m : Machine}
    (h : Plain x) :
    ((ofExcept token x m).yield fun v => [v]).Accounted made r m.store := by
  cases x with
  | ok v =>
    refine accounted_pure fun w hw => ?_
    obtain rfl := List.mem_singleton.1 hw
    exact fun f hf => absurd hf (h f)
  | error e =>
    refine accounted_fail ?_
    rintro rfl
    cases h.2

theorem accounted_truth {token : Token} {e : RuntimeFault} (he : e ≠ .stackOverflow) (v : Value)
    (m : Machine) :
    ((truth token e v m).yield fun _ => []).Accounted made r m.store := by
  cases v with
  | bool b => exact accounted_pure fun w hw => absurd hw List.not_mem_nil
  | _ => exact accounted_fail he

theorem accounted_condition {eval : Expr → Run Value} {token : Token} {cond : Expr} {m : Machine}
    (h : ((eval cond m).yield fun v => [v]).Accounted made r m.store) :
    ((condition eval token cond m).yield fun _ => []).Accounted made r m.store :=
  accounted_bind h fun v m₁ _ _ _ => accounted_truth (by simp) v m₁

theorem condition_eq_done {eval : Expr → Run Value} {token : Token} {cond : Expr} {b : Bool}
    {m m₁ : Machine} (h : condition eval token cond m = .done b m₁) :
    eval cond m = .done (.bool b) m₁ := by
  obtain ⟨v, m₂, hcond, htruth⟩ := of_bind_done h
  obtain ⟨rfl, rfl⟩ := truth_eq_done htruth
  exact hcond

theorem accounted_andThen {next : Run Flow} {flow : Flow} {m : Machine}
    (hflow : ∀ v ∈ flow.values, v.Sound made m.store.frames.size)
    (hnext : flow = .normal → ((next m).yield Flow.values).Accounted made r m.store) :
    ((flow.andThen next m).yield Flow.values).Accounted made r m.store := by
  cases flow with
  | normal => exact hnext rfl
  | returned v => exact accounted_pure hflow

theorem accounted_expr {fuel frame : Nat} {e : Expr} {calls : List Closure} {m : Machine}
    (hp : Point.Ready made ⟨fuel + 1, frame, .expr e, calls, m⟩)
    (ih : ∀ q, Starts ⟨fuel + 1, frame, .expr e, calls, m⟩ q →
      q.result.Accounted made r q.machine.store) :
    ((exprWith (expr fuel) (stmt fuel) frame e m).yield fun v => [v]).Accounted made r m.store := by
  cases e with
  | constant value =>
    refine accounted_pure fun w hw f hf => ?_
    obtain rfl := List.mem_singleton.1 hw
    cases value <;> cases hf
  | «variable» name =>
    show ((getVariable frame name m).yield _).Accounted made r m.store
    cases hv : lookup? m frame name with
    | none =>
      rw [getVariable, hv]
      exact accounted_fail (by simp)
    | some v =>
      rw [getVariable, hv]
      refine accounted_pure fun w hw => ?_
      obtain rfl := List.mem_singleton.1 hw
      obtain ⟨distance, -, hget⟩ := Option.bind_eq_some_iff.1 hv
      rw [Store.getAt?_eq] at hget
      obtain ⟨target, -, hvalue⟩ := Option.bind_eq_some_iff.1 hget
      exact hp.store.values _ _ hvalue
  | group inner => exact ih _ (.first rfl)
  | unary op token operand =>
    exact accounted_bind (ih _ (.first rfl)) fun v m₁ _ _ _ => accounted_ofExcept (op.plain_apply v)
  | binary op token left right =>
    refine accounted_bind (ih _ (.first rfl)) fun a m₁ ha _ _ => ?_
    exact accounted_bind (ih _ (.right ha)) fun b m₂ _ _ _ =>
      accounted_ofExcept (op.plain_apply a b)
  | logical op token left right =>
    refine accounted_bind (ih _ (.first rfl)) fun v m₁ hv _ _ => ?_
    refine accounted_bind (accounted_truth (by simp) v m₁) fun a m₂ ha _ _ => ?_
    obtain ⟨rfl, rfl⟩ := truth_eq_done ha
    by_cases hsettled : op.settledBy a
    · rw [if_pos hsettled]
      exact accounted_pure (sound_bool a)
    · rw [if_neg hsettled]
      refine accounted_bind (ih _ (.unsettled hv (by simpa using hsettled))) fun w m₃ _ _ _ => ?_
      exact accounted_bind (accounted_truth (by simp) w m₃) fun b m₄ _ _ _ =>
        accounted_pure (sound_bool b)
  | call callee args paren =>
    refine accounted_bind (ih _ (.first rfl)) fun f m₁ hf _ _ => ?_
    exact accounted_bind (ih _ (.args hf)) fun values m₂ hvalues _ _ => ih _ (.call hf hvalues)

theorem accounted_exprs {fuel frame : Nat} {es : List Expr} {calls : List Closure} {m : Machine}
    (ih : ∀ q, Starts ⟨fuel, frame, .exprs es, calls, m⟩ q →
      q.result.Accounted made r q.machine.store) :
    ((all (expr fuel frame) es m).yield id).Accounted made r m.store := by
  cases es with
  | nil => exact accounted_pure sound_nil
  | cons e es =>
    refine accounted_bind (ih _ .firstExpr) fun v m₁ hv _ hsound => ?_
    refine accounted_bind (ih _ (.moreExprs hv)) fun vs m₂ _ hdev hsounds => ?_
    refine accounted_pure (List.forall_mem_cons.2 ⟨?_, hsounds⟩)
    exact (hsound v List.mem_cons_self).mono hdev.size

theorem accounted_display (v : Value) (paren : Token) (m : Machine) :
    ((display v paren m).yield fun _ => []).Accounted made r m.store := by
  unfold display
  split
  · exact ⟨.refl made r m.store, sound_nil⟩
  · exact ⟨.refl made r m.store, nofun⟩

theorem accounted_native {n : Native} {args : List Value} {paren : Token} {m : Machine} :
    ((callNative n args paren m).yield fun v => [v]).Accounted made r m.store := by
  cases n with
  | display =>
    show ((displayAll paren args m).yield fun v => [v]).Accounted made r m.store
    induction args generalizing m with
    | nil => exact accounted_pure sound_empty
    | cons v vs ih => exact accounted_bind (accounted_display v paren m) fun _ m₁ _ _ _ => ih
  | time => exact ⟨.refl made r m.store, sound_number _⟩

/-- The value of a call is sound if that of the body is. -/
theorem sound_flow {size : Nat} {flow : Flow} (h : ∀ v ∈ flow.values, v.Sound made size) :
    ∀ v ∈ [flow.value], v.Sound made size := by
  cases flow with
  | normal => exact sound_empty
  | returned v => exact h

/-- A call ends as the body of the function does, but for the context. -/
theorem accounted_within {context : Context} {parent : Nat} {bindings : Bindings}
    {body : Nat → Run Flow} {m : Machine}
    (h : ((body m.store.frames.size
        { m with store := (m.store.alloc parent bindings).2, context := context }).yield
          Flow.values).Accounted made r (m.store.alloc parent bindings).2) :
    ((within context
        (do
          let frame ← enterFrame parent bindings
          let flow ← body frame
          return flow.value) m).yield fun v => [v]).Accounted made r
      (m.store.alloc parent bindings).2 := by
  have hx : (do
      let frame ← enterFrame parent bindings
      let flow ← body frame
      return flow.value : Run Value) { m with context := context } =
        (body m.store.frames.size >>= fun flow => pure flow.value)
          { m with store := (m.store.alloc parent bindings).2, context := context } := rfl
  rw [within, hx]
  cases hbody : body m.store.frames.size
      { m with store := (m.store.alloc parent bindings).2, context := context } with
  | done flow m₁ =>
    rw [hbody] at h
    rw [bind_of_done hbody]
    exact ⟨h.1, sound_flow h.2⟩
  | fault d m₁ =>
    rw [hbody] at h
    rw [bind_of_fault hbody]
    exact h
  | exhausted =>
    rw [bind_of_exhausted hbody]
    exact trivial

theorem accounted_call {fuel frame : Nat} {callee : Value} {args : List Value} {paren : Token}
    {calls : List Closure} {m : Machine}
    (hr : Reaches r ⟨fuel, frame, .call callee args paren, calls, m⟩)
    (hp : Point.Ready made ⟨fuel, frame, .call callee args paren, calls, m⟩)
    (ih : ∀ q, Starts ⟨fuel, frame, .call callee args paren, calls, m⟩ q →
      q.result.Accounted made r q.machine.store) :
    ((call (stmt fuel) callee args paren m).yield fun v => [v]).Accounted made r m.store := by
  cases callee with
  | function f =>
    rw [call]
    split
    · rename_i harity
      by_cases hdepth : maxCallDepth ≤ m.context.depth
      · have hresult : callFunction (stmt fuel) f args paren m =
            .fault ((paren.diagnose (.runtime .stackOverflow)).inFile m.context.file) m :=
          if_pos hdepth
        rw [hresult]
        refine ⟨.refl made r m.store, fun _ => ⟨_, hr, ⟨f, args, paren, rfl, harity, hdepth⟩, ?_⟩⟩
        show (call (stmt fuel) (.function f) args paren m).yield _ = _
        rw [call, if_pos harity, hresult]
        rfl
      · obtain ⟨hf, hargs⟩ := List.forall_mem_cons.1 hp.values
        refine accounted_of_develops (develops_call hf hargs) ?_
        have hbody := ih _ (.body harity (Nat.lt_of_not_le hdepth))
        rw [callFunction, if_neg hdepth]
        exact accounted_within hbody
    · exact accounted_fail (by simp)
  | native n =>
    rw [call]
    split
    · exact accounted_native
    · exact accounted_fail (by simp)
  | _ => exact accounted_fail (by simp)

theorem accounted_define {frame : Nat} {name : Token} {v : Value} {m : Machine}
    (hframe : frame < m.store.frames.size) (hv : v.Sound made m.store.frames.size) :
    ((defineVariable frame name v m).yield fun _ => []).Accounted made r m.store := by
  unfold defineVariable
  split
  · exact accounted_fail (by simp)
  · rename_i hnew
    exact ⟨develops_define hframe hv (by simpa using hnew), sound_nil⟩

theorem bound_of_locate? {m : Machine} {frame target : Nat} {name : Token}
    (h : locate? m frame name = some target) :
    (m.store.value? (target, name.lexeme)).isSome := by
  obtain ⟨distance, -, h⟩ := Option.bind_eq_some_iff.1 h
  obtain ⟨f, -, h⟩ := Option.bind_eq_some_iff.1 h
  split at h
  · rename_i hbinds
    rwa [← Option.some.inj h, ← Store.binds_eq]
  · cases h

theorem rebinds_change {fuel frame target : Nat} {name : Token} {e : Expr} {calls : List Closure}
    {m m₁ : Machine} {v : Value} (hv : expr fuel frame e m = .done v m₁)
    (htarget : locate? m₁ frame name = some target) :
    Point.Rebinds ⟨fuel + 1, frame, .stmt (.change name e), calls, m⟩ (target, name.lexeme) := by
  refine ⟨fuel, name, e, v, m₁, { m₁ with store := m₁.store.update target name.lexeme v }, rfl, rfl,
    hv, ?_, rfl, Store.rebound_update v (bound_of_locate? htarget)⟩
  show Result.yield Flow.values ((expr fuel frame e >>= fun v => setVariable frame name v >>=
    fun _ => pure .normal) m) = _
  have hset : setVariable frame name v m₁ =
      .done () { m₁ with store := m₁.store.update target name.lexeme v } := by
    rw [setVariable, htarget]
  rw [bind_of_done hv, bind_of_done hset]
  rfl

theorem accounted_change {fuel frame : Nat} {name : Token} {e : Expr} {calls : List Closure}
    {m m₁ : Machine} {v : Value}
    (hr : Reaches r ⟨fuel + 1, frame, .stmt (.change name e), calls, m⟩)
    (hv : expr fuel frame e m = .done v m₁) (hsound : v.Sound made m₁.store.frames.size) :
    ((setVariable frame name v m₁).yield fun _ => []).Accounted made r m₁.store := by
  cases ht : locate? m₁ frame name with
  | none =>
    rw [setVariable, ht]
    exact accounted_fail (by simp)
  | some target =>
    rw [setVariable, ht]
    exact ⟨develops_rebound (Store.rebound_update v (bound_of_locate? ht)) hsound hr
      (rebinds_change hv ht), sound_nil⟩

theorem accounted_makeFunction {frame : Nat} {name : Token} {params : List Token}
    {body : List Stmt} {m : Machine} (hframe : frame < m.store.frames.size)
    (hmade : made (closureOf frame name params body m)) :
    ((makeFunction frame name params body m).yield fun v => [v]).Accounted made r m.store := by
  refine ⟨.refl made r m.store, fun v hv f hf => ?_⟩
  obtain rfl := List.mem_singleton.1 hv
  obtain rfl := Value.function.inj hf
  exact ⟨hframe, hmade⟩

theorem accounted_repetitions (token : Token) (v : Value) (m : Machine) :
    ((repetitions token v m).yield fun _ => []).Accounted made r m.store := by
  cases v with
  | number x =>
    rw [repetitions]
    cases x.toCount? with
    | some count => exact accounted_pure sound_nil
    | none => exact accounted_fail (by simp)
  | _ => exact accounted_fail (by simp)

theorem repetitions_eq_done {token : Token} {v : Value} {count : Nat} {m m₁ : Machine}
    (h : repetitions token v m = .done count m₁) : m₁ = m := by
  cases v with
  | number x =>
    rw [repetitions] at h
    cases hx : x.toCount? with
    | some n => rw [hx] at h; cases h; rfl
    | none => rw [hx] at h; cases h
  | _ => cases h

theorem accounted_stmt {fuel frame : Nat} {s : Stmt} {calls : List Closure} {m : Machine}
    (hr : Reaches r ⟨fuel + 1, frame, .stmt s, calls, m⟩)
    (hmade : ∀ f, Point.Makes ⟨fuel + 1, frame, .stmt s, calls, m⟩ f → made f)
    (hp : Point.Ready made ⟨fuel + 1, frame, .stmt s, calls, m⟩)
    (ih : ∀ q, Starts ⟨fuel + 1, frame, .stmt s, calls, m⟩ q →
      q.result.Accounted made r q.machine.store) :
    ((stmtWith fuel (expr fuel) (stmt fuel) frame s m).yield Flow.values).Accounted made r
      m.store := by
  have hnormal : ∀ m : Machine,
      (((pure .normal : Run Flow) m).yield Flow.values).Accounted made r m.store :=
    fun m => accounted_pure sound_nil
  cases s with
  | block body => exact ih _ .block
  | change target e =>
    refine accounted_bind (ih _ (.value rfl)) fun v m₁ hv hdev hsound => ?_
    exact accounted_bind (accounted_change hr hv (hsound v List.mem_cons_self)) fun _ m₂ _ _ _ =>
      hnormal m₂
  | create name e =>
    refine accounted_bind (ih _ (.value rfl)) fun v m₁ hv hdev hsound => ?_
    exact accounted_bind
      (accounted_define (Nat.lt_of_lt_of_le hp.frame hdev.size) (hsound v List.mem_cons_self))
      fun _ m₂ _ _ _ => hnormal m₂
  | define name params body =>
    refine accounted_bind (accounted_makeFunction hp.frame (hmade _ ⟨name, params, body, rfl, rfl⟩))
      fun v m₁ _ hdev hsound => ?_
    exact accounted_bind
      (accounted_define (Nat.lt_of_lt_of_le hp.frame hdev.size) (hsound v List.mem_cons_self))
      fun _ m₂ _ _ _ => hnormal m₂
  | expression e => exact accounted_bind (ih _ (.value rfl)) fun _ m₁ _ _ _ => hnormal m₁
  | branch token cond body rest => exact ih _ .branch
  | repeatTimes token e body =>
    refine accounted_bind (ih _ (.value rfl)) fun v m₁ hv _ _ => ?_
    refine accounted_bind (accounted_repetitions token v m₁) fun count m₂ hcount _ _ => ?_
    obtain rfl := repetitions_eq_done hcount
    exact ih _ (.times hv hcount)
  | repeatWhile token cond body => exact ih _ .loop
  | returnEmpty token => exact accounted_pure sound_empty
  | returnWith token e =>
    exact accounted_bind (ih _ (.value rfl)) fun v m₁ _ _ hsound => accounted_pure hsound

theorem accounted_stmts {fuel frame : Nat} {ss : List Stmt} {calls : List Closure} {m : Machine}
    (ih : ∀ q, Starts ⟨fuel, frame, .stmts ss, calls, m⟩ q →
      q.result.Accounted made r q.machine.store) :
    ((sequence (stmt fuel frame) ss m).yield Flow.values).Accounted made r m.store := by
  cases ss with
  | nil => exact accounted_pure (a := Flow.normal) sound_nil
  | cons s ss =>
    rw [sequence_cons]
    exact accounted_bind (ih _ .firstStmt) fun flow m₁ hs _ hsound =>
      accounted_andThen hsound fun h => ih _ (.moreStmts (h ▸ hs))

theorem accounted_branches {fuel frame : Nat} {rest : Else} {calls : List Closure} {m : Machine}
    (ih : ∀ q, Starts ⟨fuel, frame, .branches rest, calls, m⟩ q →
      q.result.Accounted made r q.machine.store) :
    ((branches (expr fuel frame) (block (stmt fuel) frame) rest m).yield Flow.values).Accounted
      made r m.store := by
  cases rest with
  | nothing => exact accounted_pure sound_nil
  | block body => exact ih _ .otherwise
  | branch token cond body rest =>
    refine accounted_bind (accounted_condition (ih _ .condition)) fun go m₁ hgo _ _ => ?_
    cases go with
    | true => exact ih _ (.chosen (condition_eq_done hgo))
    | false => exact ih _ (.passed (condition_eq_done hgo))

theorem accounted_times {fuel frame count done rounds : Nat} {body : List Stmt}
    {calls : List Closure} {m : Machine}
    (ih : ∀ q, Starts ⟨fuel, frame, .times count done rounds body, calls, m⟩ q →
      q.result.Accounted made r q.machine.store) :
    ((timesLoop (block (stmt fuel) frame body) count rounds done m).yield Flow.values).Accounted
      made r m.store := by
  cases rounds with
  | zero => exact trivial
  | succ rounds =>
    rw [timesLoop_succ]
    split
    · rename_i hlt
      exact accounted_bind (ih _ (.round hlt)) fun flow m₁ hbody _ hsound =>
        accounted_andThen hsound fun h => ih _ (.moreRounds hlt (h ▸ hbody))
    · exact accounted_pure sound_nil

theorem accounted_loop {fuel frame rounds : Nat} {token : Token} {cond : Expr} {body : List Stmt}
    {calls : List Closure} {m : Machine}
    (ih : ∀ q, Starts ⟨fuel, frame, .loop token cond body rounds, calls, m⟩ q →
      q.result.Accounted made r q.machine.store) :
    ((whileLoop (condition (expr fuel frame) token cond) (block (stmt fuel) frame body) rounds
      m).yield Flow.values).Accounted made r m.store := by
  cases rounds with
  | zero => exact trivial
  | succ rounds =>
    rw [whileLoop_succ]
    refine accounted_bind (accounted_condition (ih _ .whether)) fun go m₁ hgo _ _ => ?_
    cases go with
    | true =>
      have hcond := condition_eq_done hgo
      exact accounted_bind (ih _ (.again hcond)) fun flow m₂ hbody _ hsound =>
        accounted_andThen hsound fun h => ih _ (.moreAgain hcond (h ▸ hbody))
    | false => exact accounted_pure sound_nil

/-- The parts of a point account for what runs there. -/
theorem accounted_of_parts {p : Point} (hr : Reaches r p) (hmade : ∀ f, p.Makes f → made f)
    (hp : p.Ready made)
    (ih : ∀ q, Starts p q → q.result.Accounted made r q.machine.store) :
    p.result.Accounted made r p.machine.store := by
  obtain ⟨fuel, frame, activity, calls, m⟩ := p
  cases activity with
  | expr e =>
    cases fuel with
    | zero => exact trivial
    | succ fuel => exact accounted_expr hp ih
  | exprs es => exact accounted_exprs ih
  | call callee args paren => exact accounted_call hr hp ih
  | stmt s =>
    cases fuel with
    | zero => exact trivial
    | succ fuel => exact accounted_stmt hr hmade hp ih
  | stmts ss => exact accounted_stmts ih
  | block body => exact accounted_of_develops (develops_block hp.frame) (ih _ .inner)
  | branches rest => exact accounted_branches ih
  | times count done rounds body => exact accounted_times ih
  | loop token cond body rounds => exact accounted_loop ih
  | program ss =>
    cases ss with
    | nil => exact ⟨.refl made r m.store, sound_nil⟩
    | cons s ss =>
      show ((program fuel (s :: ss) m).yield _).Accounted made r m.store
      rw [program_cons]
      exact accounted_bind (ih _ .top) fun flow m₁ hs _ _ => ih _ (.moreTop hs)

/-- What runs at a point that is ready is accounted for. -/
theorem accounted {p : Point} (hr : Reaches r p)
    (hmade : ∀ q f, Reaches r q → q.Makes f → made f) (hp : p.Ready made) :
    p.result.Accounted made r p.machine.store := by
  induction p using Starts.induction with
  | h p ih =>
    have hparts : ∀ q, Starts p q → q.Ready made → q.result.Accounted made r q.machine.store :=
      fun q hq hready => ih q hq (hr.tail hq) hready
    exact accounted_of_parts hr (hmade p · hr) hp fun q hq => hparts q hq (hp.part hq hparts)

/-- Every point that a run gets to is ready if the run starts at one that is. -/
theorem ready_of_reaches {p : Point} (hmade : ∀ q f, Reaches r q → q.Makes f → made f)
    (hready : r.Ready made) (h : Reaches r p) : p.Ready made := by
  induction h with
  | refl => exact hready
  | tail hp hq ih => exact ih.part hq fun q' hq' => accounted (hp.tail hq') hmade

end Eval

/-! ### Sessions -/

theorem Store.Sound.imp {made made' : Closure → Prop} {s : Store} (h : s.Sound made)
    (himp : ∀ f, made f → made' f) : s.Sound made' :=
  ⟨h.rooted, fun a v hv f hf => ⟨(h.values a v hv f hf).1, himp f (h.values a v hv f hf).2⟩⟩

theorem Store.sound_initial {made : Closure → Prop} : Store.initial.Sound made := by
  refine ⟨⟨by decide, rfl, fun i hi hne => ?_⟩, fun a v hv f hf => ?_⟩
  · have : i < 1 := hi
    exact absurd (Nat.lt_one_iff.1 this) hne
  · obtain ⟨n, rfl⟩ := Store.native_of_initial hv
    cases hf

namespace Session

/-- The point at which a program starts to run in a session. -/
def entry (s : Session) (setting : Setting) (program : Compiled) : Eval.Point :=
  ⟨setting.fuel, Store.globals, .program program.stmts, [],
    s.machine setting program.scope s.sources.length⟩

theorem result_entry (s : Session) (setting : Setting) (program : Compiled) :
    (s.entry setting program).result =
      (Eval.program setting.fuel program.stmts (s.entry setting program).machine).yield fun _ => [] :=
  rfl

/-- What a text that compiles does is what its program does. -/
theorem run_of_program {s : Session} (setting : Setting) {source : List Char} {program : Compiled}
    (h : compile s.globals (Text.normalizeNewlines source) = .ok program) :
    s.run setting source =
      let s' := { s with sources := s.sources ++ [Text.normalizeNewlines source] }
      match Eval.program setting.fuel program.stmts (s.entry setting program).machine with
      | .done _ m => (s'.keep m, ⟨m.sink.text, .success⟩)
      | .fault e m => (s'.keep m, ⟨m.sink.text, .failure [e]⟩)
      | .exhausted => (s', ⟨"", .exhausted⟩) := by
  rw [run_of_compile_ok setting source h]
  rfl

/-- The run of a text in a session gets to a point. -/
def Visits (s : Session) (setting : Setting) (source : List Char) (p : Eval.Point) : Prop :=
  ∃ program, compile s.globals (Text.normalizeNewlines source) = .ok program ∧
    Eval.Reaches (s.entry setting program) p

/-- One of the runs of a fresh session has made a function. -/
def MadeIn (runs : List (Setting × List Char)) (f : Closure) : Prop :=
  ∃ before setting source later p, runs = before ++ (setting, source) :: later ∧
    (after before).Visits setting source p ∧ p.Makes f

theorem MadeIn.append {runs : List (Setting × List Char)} {f : Closure} (h : MadeIn runs f)
    (more : List (Setting × List Char)) : MadeIn (runs ++ more) f := by
  obtain ⟨before, setting, source, later, p, rfl, hp, hf⟩ := h
  exact ⟨before, setting, source, later ++ more, p, by simp, hp, hf⟩

theorem after_concat (runs : List (Setting × List Char)) (setting : Setting)
    (source : List Char) :
    after (runs ++ [(setting, source)]) = ((after runs).run setting source).1 := by
  simp [after]

theorem made_of_entry {runs : List (Setting × List Char)} (setting : Setting) {source : List Char}
    {program : Compiled}
    (h : compile (after runs).globals (Text.normalizeNewlines source) = .ok program)
    (p : Eval.Point) (f : Closure) (hp : Eval.Reaches ((after runs).entry setting program) p)
    (hf : p.Makes f) : MadeIn (runs ++ [(setting, source)]) f :=
  ⟨runs, setting, source, [], p, rfl, ⟨program, h, hp⟩, hf⟩

theorem ready_entry {runs : List (Setting × List Char)}
    (hs : (after runs).store.Sound (MadeIn runs)) (more : List (Setting × List Char))
    (setting : Setting) (program : Compiled) :
    ((after runs).entry setting program).Ready (MadeIn (runs ++ more)) where
  store := hs.imp fun _ hf => hf.append more
  frame := hs.rooted.size
  values := Eval.sound_nil

/-- The frames of a session form a tree, and its functions were made by its runs. -/
theorem sound_after (runs : List (Setting × List Char)) :
    (after runs).store.Sound (MadeIn runs) := by
  induction runs using List.reverseRecOn with
  | nil => exact Store.sound_initial
  | append_singleton runs r ih =>
    obtain ⟨setting, source⟩ := r
    rw [after_concat]
    cases hcompile : compile (after runs).globals (Text.normalizeNewlines source) with
    | error errors =>
      rw [run_of_compile_error setting source hcompile]
      exact ih.imp fun _ hf => hf.append _
    | ok program =>
      have haccounted := Eval.accounted .refl (made_of_entry setting hcompile)
        (ready_entry ih [(setting, source)] setting program)
      have hmore := ih.imp fun _ hf => MadeIn.append hf [(setting, source)]
      rw [result_entry] at haccounted
      rw [run_of_program setting hcompile]
      cases hr : Eval.program setting.fuel program.stmts
          ((after runs).entry setting program).machine with
      | done _ m =>
        rw [hr] at haccounted
        exact haccounted.1.sound hmore
      | fault d m =>
        rw [hr] at haccounted
        exact haccounted.1.sound hmore
      | exhausted => exact hmore

end Session

end Offside
