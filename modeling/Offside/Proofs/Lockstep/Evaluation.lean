import Offside.Proofs.Lockstep.Store

/-!
# Evaluation in lockstep

Code that is alike does the same: from machines that correspond, with the same fuel, it ends alike,
and leaves machines that correspond. In particular it never ends with a fault about a name, and code
outside functions never ends with a return.

* `ResultAlike.bind`: computations one after the other;
* `stmtWith_return`, `sequence_of_ne_normal`: a return, and what follows it;
* `Matches`: what is known of evaluation with less fuel;
* `expr_alike`, `stmt_alike`, `program_alike`: the three facts.
-/

namespace Offside.Lockstep

open Run Eval

variable {α β : Type} {P : Pairing} {o o' : Origin} {W W' : World} {m m' : Machine}
  {frame frame' : Nat} {b : Bool} {V V₁ : View}

/-! ### Results -/

theorem ResultAlike.of_le {Q : World → Machine → Machine → α → α → Prop} {r r' : Result α}
    (hW : W ≤ W') (h : ResultAlike P W' Q r r') : ResultAlike P W Q r r' := by
  cases r <;> cases r' <;> try exact h
  · obtain ⟨W₁, hW₁, hm, hq⟩ := h
    exact ⟨W₁, World.le_trans hW hW₁, hm, hq⟩
  · obtain ⟨W₁, hW₁, hm, hd⟩ := h
    exact ⟨W₁, World.le_trans hW hW₁, hm, hd⟩

/-- Weaker facts about the values, with what is known of the machines that are left. -/
theorem ResultAlike.imp {Q Q' : World → Machine → Machine → α → α → Prop} {r r' : Result α}
    {K K' : Machine → Prop} (hr : r.Leaves K) (hr' : r'.Leaves K') (h : ResultAlike P W Q r r')
    (himp : ∀ W₁ m₁ m₁' a a', W ≤ W₁ → K m₁ → K' m₁' → Q W₁ m₁ m₁' a a' → Q' W₁ m₁ m₁' a a') :
    ResultAlike P W Q' r r' := by
  cases r <;> cases r' <;> try exact h
  obtain ⟨W₁, hW₁, hm, hq⟩ := h
  exact ⟨W₁, hW₁, hm, himp W₁ _ _ _ _ hW₁ hr hr' hq⟩

theorem ResultAlike.bind {Q : World → Machine → Machine → α → α → Prop}
    {Q' : World → Machine → Machine → β → β → Prop} {R R' : Machine → Machine → Prop}
    {x x' : Run α} {f g : α → Run β} (hx : x.Moves R) (hx' : x'.Moves R')
    (h : ResultAlike P W Q (x m) (x' m'))
    (hf : ∀ W₁ m₁ m₁' a a', W ≤ W₁ → MachineAlike P W₁ m₁ m₁' → R m m₁ → R' m' m₁' →
      Q W₁ m₁ m₁' a a' → ResultAlike P W₁ Q' (f a m₁) (g a' m₁')) :
    ResultAlike P W Q' ((x >>= f) m) ((x' >>= g) m') := by
  have hm := hx m
  have hm' := hx' m'
  cases hr : x m <;> cases hr' : x' m' <;> rw [hr, hr'] at h <;> try exact h.elim
  · rw [hr] at hm
    rw [hr'] at hm'
    rw [bind_of_done hr, bind_of_done hr']
    obtain ⟨W₁, hW₁, hm₁, hq⟩ := h
    exact (hf W₁ _ _ _ _ hW₁ hm₁ hm hm' hq).of_le hW₁
  · rw [bind_of_fault hr, bind_of_fault hr']
    exact h
  · rw [bind_of_exhausted hr, bind_of_exhausted hr']
    exact h

/-- Results whose values are not looked at. -/
theorem ResultAlike.discard {Q : World → Machine → Machine → α → α → Prop} {x x' : Run α}
    (h : ResultAlike P W Q (x m) (x' m')) :
    ResultAlike P W (fun _ _ _ _ _ => True) ((x >>= fun _ => pure ()) m)
      ((x' >>= fun _ => pure ()) m') := by
  cases hr : x m <;> cases hr' : x' m' <;> rw [hr, hr'] at h <;> try exact h.elim
  · rw [bind_of_done hr, bind_of_done hr']
    obtain ⟨W₁, hW₁, hm, -⟩ := h
    exact ⟨W₁, hW₁, hm, trivial⟩
  · rw [bind_of_fault hr, bind_of_fault hr']
    exact h
  · rw [bind_of_exhausted hr, bind_of_exhausted hr']
    exact trivial

/-- Outside functions no result is a return. -/
theorem ResultAlike.not_returned {r r' : Result Flow}
    (h : ResultAlike P W (FlowAlike P false frame frame' V) r r') (v : Value) (m : Machine) :
    r ≠ .done (.returned v) m := by
  rintro rfl
  cases r' with
  | done flow m' =>
    obtain ⟨_, _, _, hflow⟩ := h
    cases flow with
    | normal => exact hflow
    | returned v' => cases hflow.1
  | fault d m' => exact h
  | exhausted => exact h

/-! ### Readiness -/

theorem Ready.after {m₁ m₁' : Machine} {hole hole' : Option Nat}
    (h : Ready P o o' W m m' frame frame' V) (hm : MachineAlike P W' m₁ m₁')
    (hk : m.Keeps hole m₁) (hk' : m'.Keeps hole' m₁')
    (hreal : Realizes P W' m₁.store m₁'.store frame frame' V₁) :
    Ready P o o' W' m₁ m₁' frame frame' V₁ where
  machine := hm
  left := by rw [← h.left, origin, hk.context]; rfl
  right := by rw [← h.right, origin, hk'.context]; rfl
  realizes := hreal

/-- Computations that keep the frames there are keep the two runs ready. -/
theorem Ready.step {m₁ m₁' : Machine} (h : Ready P o o' W m m' frame frame' V) (hW : W ≤ W')
    (hm : MachineAlike P W' m₁ m₁') (hk : m.Keeps none m₁) (hk' : m'.Keeps none m₁') :
    Ready P o o' W' m₁ m₁' frame frame' V :=
  h.after hm hk hk' (h.realizes.mono hW hk.store hk'.store)

theorem Ready.bind {Q : World → Machine → Machine → α → α → Prop}
    {Q' : World → Machine → Machine → β → β → Prop} {x x' : Run α} {f f' : α → Run β}
    (hready : Ready P o o' W m m' frame frame' V) (hx : x.Moves (Machine.Keeps none))
    (hx' : x'.Moves (Machine.Keeps none)) (h : ResultAlike P W Q (x m) (x' m'))
    (hf : ∀ W₁ m₁ m₁' a a', W ≤ W₁ → Ready P o o' W₁ m₁ m₁' frame frame' V →
      m.Keeps none m₁ → m'.Keeps none m₁' → Q W₁ m₁ m₁' a a' →
      ResultAlike P W₁ Q' (f a m₁) (f' a' m₁')) :
    ResultAlike P W Q' ((x >>= f) m) ((x' >>= f') m') :=
  h.bind hx hx' fun W₁ m₁ m₁' a a' hW hm hk hk' hq =>
    hf W₁ m₁ m₁' a a' hW (hready.step hW hm hk hk') hk hk' hq

theorem Ready.pure {Q : World → Machine → Machine → α → α → Prop} {a c : α}
    (h : Ready P o o' W m m' frame frame' V) (hq : Q W m m' a c) :
    ResultAlike P W Q ((Pure.pure a : Run α) m) ((Pure.pure c : Run α) m') :=
  ⟨W, World.le_refl W, h.machine, hq⟩

theorem Ready.stop {Q : World → Machine → Machine → α → α → Prop} {t t' : Token} {cause : Cause}
    (h : Ready P o o' W m m' frame frame' V) (hsite : P.site o.file o'.file t t')
    (hcause : cause.isNaming = false) :
    ResultAlike P W Q ((Run.stop t cause : Run α) m) ((Run.stop t' cause : Run α) m') := by
  refine ⟨W, World.le_refl W, h.machine, m.context.file, m'.context.file, t, t', cause, ?_, hcause,
    rfl, rfl⟩
  have hfile : m.context.file = o.file := by rw [← h.left]; rfl
  have hfile' : m'.context.file = o'.file := by rw [← h.right]; rfl
  rwa [hfile, hfile']

theorem Ready.fail {Q : World → Machine → Machine → α → α → Prop} {t t' : Token} {e : RuntimeFault}
    (h : Ready P o o' W m m' frame frame' V) (hsite : P.site o.file o'.file t t')
    (he : e.isNaming = false) :
    ResultAlike P W Q ((Run.fail t e : Run α) m) ((Run.fail t' e : Run α) m') :=
  h.stop hsite he

/-! ### Values -/

variable {s s' : Store} {v v' w w' : Value}

theorem ValueAlike.toText (h : ValueAlike P W s s' v v') : v.toText = v'.toText := by
  cases v <;> cases v' <;> simp_all [ValueAlike, Value.toText]
  exact h.name

theorem ValueAlike.same (h : ValueAlike P W s s' v v') (h' : ValueAlike P W s s' w w') :
    v.same w = v'.same w' := by
  cases v <;> cases v' <;> try exact h.elim
  all_goals cases w <;> cases w' <;> try exact h'.elim
  all_goals simp_all [ValueAlike, Value.same]
  rw [h.id, h'.id]

/-- A value that is no function corresponds to itself. -/
theorem ValueAlike.refl_of (h : ∀ c, v ≠ .function c) : ValueAlike P W s s' v v := by
  cases v <;> simp_all [ValueAlike]

theorem UnaryOp.apply_alike (op : UnaryOp) (h : ValueAlike P W s s' v v') :
    op.apply v = op.apply v' := by
  cases v <;> cases v' <;> simp_all [ValueAlike]
  all_goals cases op <;> rfl

theorem BinaryOp.apply_alike (op : BinaryOp) (h : ValueAlike P W s s' v v')
    (h' : ValueAlike P W s s' w w') : op.apply v w = op.apply v' w' := by
  have hsame := h.same h'
  cases v <;> cases v' <;> try exact h.elim
  all_goals cases w <;> cases w' <;> try exact h'.elim
  all_goals cases op <;> simp_all [ValueAlike, BinaryOp.apply]

/-! ### Variables and values -/

/-- The outcome of an operator, which neither makes a function nor complains about a name. -/
theorem Ready.ofExcept {t t' : Token} {r : Except RuntimeFault Value}
    (h : Ready P o o' W m m' frame frame' V) (hsite : P.site o.file o'.file t t')
    (hr : Plain r) :
    ResultAlike P W (ValuesAfter P) (Run.ofExcept t r m) (Run.ofExcept t' r m') := by
  cases r with
  | ok u => exact h.pure (ValueAlike.refl_of hr)
  | error e => exact h.fail hsite hr.1

theorem Ready.truth {t t' : Token} {e : RuntimeFault} (h : Ready P o o' W m m' frame frame' V)
    (hsite : P.site o.file o'.file t t') (he : e.isNaming = false)
    (hv : ValueAlike P W s s' v v') :
    ResultAlike P W (fun _ _ _ => Eq) (Eval.truth t e v m) (Eval.truth t' e v' m') := by
  cases v <;> cases v' <;> try exact hv.elim
  all_goals first
    | exact h.pure hv
    | exact h.fail hsite he

theorem Ready.repetitions {t t' : Token} (h : Ready P o o' W m m' frame frame' V)
    (hsite : P.site o.file o'.file t t') (hv : ValueAlike P W s s' v v') :
    ResultAlike P W (fun _ _ _ => Eq) (Eval.repetitions t v m) (Eval.repetitions t' v' m') := by
  cases v <;> cases v' <;> try exact hv.elim
  case number.number x y =>
    obtain rfl : x = y := hv
    rw [Eval.repetitions, Eval.repetitions]
    cases x.toCount? with
    | none => exact h.fail hsite rfl
    | some count => exact h.pure rfl
  all_goals exact h.fail hsite rfl

variable {name name' : Token}

/-- The variables that linked names stand for in the two stores. -/
theorem Ready.linked (h : Ready P o o' W m m' frame frame' V) (hrefers : Refers o o' V name name') :
    ∃ d d' f f', m.context.scope[name.span]? = some d ∧ m'.context.scope[name'.span]? = some d' ∧
      m.store.ancestor? frame d = some f ∧ m'.store.ancestor? frame' d' = some f' ∧
      W (f, name.lexeme) (f', name'.lexeme) := by
  obtain ⟨d, d', hd, hd', hmem⟩ := hrefers
  obtain ⟨f, f', hf, hf', hw⟩ := h.realizes.linked _ hmem
  rw [← h.left] at hd
  rw [← h.right] at hd'
  exact ⟨d, d', f, f', hd, hd', hf, hf', hw⟩

theorem Ready.getVariable (h : Ready P o o' W m m' frame frame' V)
    (hrefers : Refers o o' V name name') :
    ResultAlike P W (ValuesAfter P) (Eval.getVariable frame name m)
      (Eval.getVariable frame' name' m') := by
  obtain ⟨d, d', f, f', hd, hd', hf, hf', hw⟩ := h.linked hrefers
  obtain ⟨v, v', hv, hv', hvv⟩ := h.machine.store.values _ _ hw
  have hlookup : lookup? m frame name = some v := by
    simpa [lookup?, hd, Store.getAt?_eq, hf] using hv
  have hlookup' : lookup? m' frame' name' = some v' := by
    simpa [lookup?, hd', Store.getAt?_eq, hf'] using hv'
  rw [Eval.getVariable, Eval.getVariable, hlookup, hlookup']
  exact ⟨W, World.le_refl W, h.machine, hvv⟩

theorem Ready.setVariable (h : Ready P o o' W m m' frame frame' V)
    (hrefers : Refers o o' V name name') (hv : ValueAlike P W m.store m'.store v v') :
    ResultAlike P W (fun _ _ _ => Eq) (Eval.setVariable frame name v m)
      (Eval.setVariable frame' name' v' m') := by
  obtain ⟨d, d', f, f', hd, hd', hf, hf', hw⟩ := h.linked hrefers
  obtain ⟨u, u', hu, hu', -⟩ := h.machine.store.values _ _ hw
  have hlocate : locate? m frame name = some f := by
    simp [locate?, hd, Store.locate?, hf, Store.binds_eq, hu]
  have hlocate' : locate? m' frame' name' = some f' := by
    simp [locate?, hd', Store.locate?, hf', Store.binds_eq, hu']
  rw [Eval.setVariable, Eval.setVariable, hlocate, hlocate']
  exact ⟨W, World.le_refl W, { h.machine with store := h.machine.store.update hw hv }, rfl⟩

/-- A new variable on both sides; the view has both names from then on. -/
theorem Ready.defineVariable (h : Ready P o o' W m m' frame frame' V)
    (hname : name.lexeme ∉ V.left) (hname' : name'.lexeme ∉ V.right)
    (hnames : P.names name.lexeme name'.lexeme)
    (hv : ValueAlike P (W.add (frame, name.lexeme) (frame', name'.lexeme)) m.store m'.store v v') :
    ResultAlike P W
      (fun W₁ m₁ m₁' _ _ => Realizes P W₁ m₁.store m₁'.store frame frame'
        (V.bind name.lexeme name'.lexeme))
      (Eval.defineVariable frame name v m) (Eval.defineVariable frame' name' v' m') := by
  have hfree : ¬ m.store.binds frame name.lexeme := by
    rwa [Store.binds_eq, Store.value?_isSome_iff, h.realizes.left]
  have hfree' : ¬ m'.store.binds frame' name'.lexeme := by
    rwa [Store.binds_eq, Store.value?_isSome_iff, h.realizes.right]
  obtain ⟨hstore, hreal⟩ := bind_alike h.machine.store h.realizes hname hname' hnames hv
  rw [Eval.defineVariable, Eval.defineVariable, if_neg hfree, if_neg hfree']
  exact ⟨_, World.le_add W _ _, { h.machine with store := hstore }, hreal⟩

/-- A new function on both sides. -/
theorem Ready.define {ps ps' : List Token} {ss ss' : List Stmt} {V₂ : View}
    {eval : Nat → Expr → Run Value} {exec : Nat → Stmt → Run Flow}
    (h : Ready P o o' W m m' frame frame' V) (hname : name.lexeme ∉ V.left)
    (hname' : name'.lexeme ∉ V.right) (hnames : P.names name.lexeme name'.lexeme)
    (heq : name.lexeme = name'.lexeme)
    (hparams : ParamsAlike P (V.bind name.lexeme name'.lexeme).inner (ps.map (·.lexeme))
      (ps'.map (·.lexeme)) V₁)
    (hss : Alike P o o' true V₁ (.stmts ss) (.stmts ss') V₂) (fuel : Nat) :
    ResultAlike P W (FlowAlike P b frame frame' (V.bind name.lexeme name'.lexeme))
      (Eval.stmtWith fuel eval exec frame (.define name ps ss) m)
      (Eval.stmtWith fuel eval exec frame' (.define name' ps' ss') m') := by
  let c : Closure :=
    { id := m.definitions, name := name.lexeme, params := ps.map (·.lexeme), body := ss,
      frame := frame, scope := m.context.scope, file := m.context.file }
  let c' : Closure :=
    { id := m'.definitions, name := name'.lexeme, params := ps'.map (·.lexeme), body := ss',
      frame := frame', scope := m'.context.scope, file := m'.context.file }
  have hc : ValueAlike P (W.add (frame, name.lexeme) (frame', name'.lexeme)) m.store m'.store
      (.function c) (.function c') := by
    refine ⟨h.machine.definitions, heq, V.bind name.lexeme name'.lexeme, V₁, V₂, ?_, hparams, ?_⟩
    · intro l hl
      rcases List.mem_cons.1 hl with rfl | hl
      · exact ⟨frame, frame', rfl, rfl, .inr ⟨rfl, rfl⟩⟩
      · obtain ⟨f, f', hf, hf', hw⟩ := h.realizes.linked l hl
        exact ⟨f, f', hf, hf', .inl hw⟩
    · rw [← h.left, ← h.right] at hss
      exact hss
  have h₁ : Ready P o o' W { m with definitions := m.definitions + 1 }
      { m' with definitions := m'.definitions + 1 } frame frame' V :=
    ⟨{ h.machine with definitions := congrArg (· + 1) h.machine.definitions }, h.left, h.right,
      h.realizes⟩
  have hdefine := h₁.defineVariable hname hname' hnames hc
  exact hdefine.bind (f := fun _ => Run.pure Flow.normal) (g := fun _ => Run.pure Flow.normal)
    (moves_defineVariable _ _ _) (moves_defineVariable _ _ _)
    fun W₂ _ _ _ _ _ hm _ _ hreal => ⟨W₂, World.le_refl W₂, hm, hreal⟩

/-! ### Native functions -/

theorem Ready.display {t t' : Token} (h : Ready P o o' W m m' frame frame' V)
    (hsite : P.site o.file o'.file t t') (hv : ValueAlike P W' s s' v v') :
    ResultAlike P W (ValuesAfter P) (Eval.display v t m) (Eval.display v' t' m') := by
  obtain ⟨hsink, hopen⟩ := P.sink_writeLine v.toText h.machine.sink
  rw [Eval.display, Eval.display, ← hv.toText]
  cases hw : m.sink.writeLine v.toText with
  | mk sink written =>
    cases hw' : m'.sink.writeLine v.toText with
    | mk sink' written' =>
      rw [hw, hw'] at hsink hopen
      obtain rfl : written = written' := hopen
      have h₁ : Ready P o o' W { m with sink := sink } { m' with sink := sink' } frame frame' V :=
        ⟨{ h.machine with sink := hsink }, h.left, h.right, h.realizes⟩
      cases written with
      | true => exact h₁.pure (Q := ValuesAfter P) (a := .empty) (c := .empty) trivial
      | false => exact h₁.stop hsite rfl

theorem Ready.displayAll {t t' : Token} {vs vs' : List Value}
    (hvs : List.Forall₂ (ValueAlike P W s s') vs vs') (h : Ready P o o' W' m m' frame frame' V)
    (hsite : P.site o.file o'.file t t') :
    ResultAlike P W' (ValuesAfter P) (Eval.displayAll t vs m) (Eval.displayAll t' vs' m') := by
  induction hvs generalizing W' m m' with
  | nil => exact h.pure (Q := ValuesAfter P) (a := .empty) (c := .empty) trivial
  | cons hv _ ih =>
    exact h.bind (moves_display _ t) (moves_display _ t') (h.display hsite hv)
      fun _ _ _ _ _ _ h₁ _ _ _ => ih h₁

theorem Ready.callNative {t t' : Token} {vs vs' : List Value} (n : Native)
    (h : Ready P o o' W m m' frame frame' V) (hsite : P.site o.file o'.file t t')
    (hvs : List.Forall₂ (ValueAlike P W m.store m'.store) vs vs') :
    ResultAlike P W (ValuesAfter P) (Eval.callNative n vs t m) (Eval.callNative n vs' t' m') := by
  cases n with
  | display => exact Ready.displayAll hvs h hsite
  | time =>
    refine ⟨W, World.le_refl W, { h.machine with readings := ?_ }, ?_⟩
    · rw [h.machine.readings]
    · show m.clock m.readings = m'.clock m'.readings
      rw [h.machine.clock, h.machine.readings]

/-! ### Returns -/

theorem Alike.isReturn_eq {s s' : Stmt} (h : Alike P o o' b V (.stmt s) (.stmt s') V₁) :
    s'.isReturn = s.isReturn := by
  cases h <;> rfl

theorem Alike.inFunction {s s' : Stmt} (h : Alike P o o' b V (.stmt s) (.stmt s') V₁)
    (hreturn : s.isReturn = true) : b = true := by
  cases h <;> first | rfl | cases hreturn

/-- A return never completes normally. -/
theorem stmtWith_return {eval : Nat → Expr → Run Value} {exec : Nat → Stmt → Run Flow} {s : Stmt}
    (hreturn : s.isReturn = true) (fuel : Nat) (m₁ : Machine) :
    Eval.stmtWith fuel eval exec frame s m ≠ .done .normal m₁ := by
  intro hdone
  cases s <;> try cases hreturn
  case returnEmpty t => cases hdone
  case returnWith t e =>
    obtain ⟨v, m₂, -, hreturned⟩ := of_bind_done hdone
    cases hreturned

/-- Nothing after a statement runs that does not complete normally. -/
theorem sequence_of_ne_normal {exec : Stmt → Run Flow} {s : Stmt} {ss : List Stmt}
    (h : ∀ m₁, exec s m ≠ .done .normal m₁) : Eval.sequence exec (s :: ss) m = exec s m := by
  rw [Eval.sequence]
  split
  · rename_i m₁ hdone
    exact absurd hdone (h m₁)
  · rfl

/-! ### Code inside code -/

/-- Evaluation that ends alike on code that is alike. -/
structure Matches (P : Pairing) (eval : Nat → Expr → Run Value) (exec : Nat → Stmt → Run Flow) :
    Prop where
  moves_eval : ∀ frame e, (eval frame e).Moves (Machine.Keeps none)
  moves_exec : ∀ frame s, (exec frame s).Moves (Machine.Keeps (some frame))
  eval_alike : ∀ {o o' W m m' frame frame' b V e e'}, Ready P o o' W m m' frame frame' V →
    Alike P o o' b V (.expr e) (.expr e') V →
    ResultAlike P W (ValuesAfter P) (eval frame e m) (eval frame' e' m')
  exec_alike : ∀ {o o' W m m' frame frame' b V V₁ s s'}, Ready P o o' W m m' frame frame' V →
    Alike P o o' b V (.stmt s) (.stmt s') V₁ →
    ResultAlike P W (FlowAlike P b frame frame' V₁) (exec frame s m) (exec frame' s' m')
  exec_return : ∀ {frame s m m₁}, s.isReturn = true → exec frame s m ≠ .done .normal m₁

/-- What follows a statement that ended alike, from the frames and the view it led to. -/
theorem Ready.andThen {V₂ : View} {x x' next next' : Run Flow} {hole hole' : Option Nat}
    (h : Ready P o o' W m m' frame frame' V) (hx : x.Moves (Machine.Keeps hole))
    (hx' : x'.Moves (Machine.Keeps hole'))
    (hflow : ResultAlike P W (FlowAlike P b frame frame' V₁) (x m) (x' m'))
    (hnext : ∀ W₁ m₁ m₁', W ≤ W₁ → Ready P o o' W₁ m₁ m₁' frame frame' V₁ →
      ResultAlike P W₁ (FlowAlike P b frame frame' V₂) (next m₁) (next' m₁')) :
    ResultAlike P W (FlowAlike P b frame frame' V₂) ((x >>= Flow.andThen next) m)
      ((x' >>= Flow.andThen next') m') := by
  refine hflow.bind hx hx' fun W₁ m₁ m₁' flow flow' hW hm hk hk' hq => ?_
  cases flow <;> cases flow' <;> try exact hq.elim
  · exact hnext W₁ m₁ m₁' hW (h.after hm hk hk' hq)
  · exact ⟨W₁, World.le_refl W₁, hm, hq⟩

/-- A computation in the context of other code. -/
theorem within_alike {c c' : Context} {x x' : Run Value}
    (h : ResultAlike P W (ValuesAfter P) (x { m with context := c }) (x' { m' with context := c' }))
    (hdepth : m.context.depth = m'.context.depth) :
    ResultAlike P W (ValuesAfter P) (within c x m) (within c' x' m') := by
  unfold within
  cases hr : x { m with context := c } <;> cases hr' : x' { m' with context := c' } <;>
    rw [hr, hr'] at h <;> try exact h.elim
  · obtain ⟨W₁, hW₁, hm₁, hv⟩ := h
    exact ⟨W₁, hW₁, { hm₁ with depth := hdepth }, hv⟩
  · obtain ⟨W₁, hW₁, hm₁, hd⟩ := h
    exact ⟨W₁, hW₁, { hm₁ with depth := hdepth }, hd⟩
  · exact trivial

namespace Matches

variable {eval : Nat → Expr → Run Value} {exec : Nat → Stmt → Run Flow} (M : Matches P eval exec)
include M

theorem all {es es' : List Expr} (h : Ready P o o' W m m' frame frame' V)
    (hes : Alike P o o' b V (.exprs es) (.exprs es') V) :
    ResultAlike P W (fun W₁ m₁ m₁' => List.Forall₂ (ValueAlike P W₁ m₁.store m₁'.store))
      (Eval.all (eval frame) es m) (Eval.all (eval frame') es' m') := by
  have C := Machine.change_keeps none
  induction es generalizing es' W m m' with
  | nil =>
    cases hes
    exact h.pure .nil
  | cons e es ih =>
    cases hes with
    | moreExprs he hes =>
      refine h.bind (M.moves_eval _ _) (M.moves_eval _ _) (M.eval_alike h he)
        fun W₁ m₁ m₁' v v' _ h₁ _ _ hv => ?_
      refine h₁.bind (moves_all C (M.moves_eval _) _) (moves_all C (M.moves_eval _) _) (ih h₁ hes)
        fun W₂ m₂ m₂' vs vs' hW₂ h₂ hk hk' hvs => ?_
      exact h₂.pure (.cons (ValueAlike.mono hv hW₂ hk.store hk'.store) hvs)

theorem sequence {ss ss' : List Stmt} (h : Ready P o o' W m m' frame frame' V)
    (hss : Alike P o o' b V (.stmts ss) (.stmts ss') V₁) :
    ResultAlike P W (FlowAlike P b frame frame' V₁) (Eval.sequence (exec frame) ss m)
      (Eval.sequence (exec frame') ss' m') := by
  induction ss generalizing ss' V W m m' with
  | nil =>
    cases hss
    exact ⟨W, World.le_refl W, h.machine, h.realizes⟩
  | cons s ss ih =>
    cases hss with
    | moreStmts hs hss =>
      rw [sequence_cons, sequence_cons]
      exact h.andThen (M.moves_exec _ _) (M.moves_exec _ _) (M.exec_alike h hs)
        fun W₁ m₁ m₁' _ h₁ => ih h₁ hss
    | leave hreturn hs =>
      have hreturn' := hs.isReturn_eq.trans hreturn
      rw [sequence_of_ne_normal fun _ => M.exec_return hreturn,
        sequence_of_ne_normal fun _ => M.exec_return hreturn']
      exact M.exec_alike h hs

/-- A block leaves the frame it stands in as it was. -/
theorem block {ss ss' : List Stmt} (h : Ready P o o' W m m' frame frame' V)
    (hss : Alike P o o' b V.inner (.stmts ss) (.stmts ss') V₁) :
    ResultAlike P W (FlowAlike P b frame frame' V) (Eval.block exec frame ss m)
      (Eval.block exec frame' ss' m') := by
  obtain ⟨hstore, hreal⟩ := alloc_alike h.machine.store h.realizes.linked
  have hinner : Ready P o o' W { m with store := (m.store.alloc frame []).2 }
      { m' with store := (m'.store.alloc frame' []).2 } m.store.frames.size m'.store.frames.size
      V.inner := ⟨{ h.machine with store := hstore }, h.left, h.right, hreal⟩
  refine ResultAlike.imp (moves_block M.moves_exec frame ss m) (moves_block M.moves_exec frame' ss' m')
    (M.sequence hinner hss) fun W₁ m₁ m₁' flow flow' hW hk hk' hflow => ?_
  cases flow <;> cases flow' <;> try exact hflow.elim
  · exact h.realizes.mono hW hk.store hk'.store
  · exact hflow

/-! ### Calls -/

/-- The body of a function runs in frames that bind its parameters, in the view that its definition
had of the variables around it. -/
theorem callFunction {c c' : Closure} {vs vs' : List Value} {t t' : Token}
    (h : Ready P o o' W m m' frame frame' V) (hsite : P.site o.file o'.file t t')
    (hc : ClosureAlike P W m.store m'.store c c')
    (hvs : List.Forall₂ (ValueAlike P W m.store m'.store) vs vs')
    (hlength : c.params.length = vs.length) :
    ResultAlike P W (ValuesAfter P) (Eval.callFunction exec c vs t m)
      (Eval.callFunction exec c' vs' t' m') := by
  rw [Eval.callFunction, Eval.callFunction, ← h.machine.depth]
  split
  · exact h.fail hsite rfl
  obtain ⟨V, V₁, V₂, hlinked, hparams, hbody⟩ := hc.body
  obtain ⟨hstore, hreal⟩ := alloc_alike h.machine.store hlinked
  have hs := m.store.keeps_alloc c.frame []
  have hs' := m'.store.keeps_alloc c'.frame []
  obtain ⟨W', hW, hstore, hreal⟩ := params_alike hparams hstore hreal
    (hvs.imp fun _ _ hv => hv.mono (World.le_refl W) hs hs') hlength
  refine (within_alike ?_ h.machine.depth).of_le hW
  have hready : Ready P ⟨c.scope, c.file⟩ ⟨c'.scope, c'.file⟩ W'
      { m with store := _, context := ⟨c.scope, c.file, m.context.depth + 1⟩ }
      { m' with store := _, context := ⟨c'.scope, c'.file, m.context.depth + 1⟩ }
      m.store.frames.size m'.store.frames.size V₁ :=
    ⟨{ h.machine with store := hstore, depth := rfl }, rfl, rfl, hreal⟩
  have hseq := M.sequence hready hbody
  refine hseq.bind (f := fun flow => pure flow.value) (g := fun flow => pure flow.value)
    (moves_sequence (Machine.change_keeps _) (M.moves_exec _) _)
    (moves_sequence (Machine.change_keeps _) (M.moves_exec _) _)
    fun W₁ m₁ m₁' flow flow' _ hm _ _ hflow => ?_
  refine ⟨W₁, World.le_refl W₁, hm, ?_⟩
  cases flow <;> cases flow' <;> try exact hflow.elim
  · exact trivial
  · exact hflow.2

theorem call {f f' : Value} {vs vs' : List Value} {t t' : Token}
    (h : Ready P o o' W m m' frame frame' V) (hsite : P.site o.file o'.file t t')
    (hf : ValueAlike P W m.store m'.store f f')
    (hvs : List.Forall₂ (ValueAlike P W m.store m'.store) vs vs') :
    ResultAlike P W (ValuesAfter P) (Eval.call exec f vs t m) (Eval.call exec f' vs' t' m') := by
  have hlen := hvs.length_eq
  cases f <;> cases f' <;> try exact hf.elim
  case function.function c c' =>
    obtain ⟨V, V₁, V₂, -, hparams, -⟩ := ClosureAlike.body hf
    rw [Eval.call, Eval.call, ← hparams.length_eq, ← hlen]
    split
    · exact M.callFunction h hsite hf hvs ‹_›
    · exact h.fail hsite rfl
  case native.native n n' =>
    obtain rfl : n = n' := hf
    rw [Eval.call, Eval.call, ← hlen]
    split
    · exact h.callNative n hsite hvs
    · exact h.fail hsite rfl
  all_goals exact h.fail hsite rfl

/-! ### Expressions -/

theorem exprWith {e e' : Expr} (h : Ready P o o' W m m' frame frame' V)
    (he : Alike P o o' b V (.expr e) (.expr e') V) :
    ResultAlike P W (ValuesAfter P) (Eval.exprWith eval exec frame e m)
      (Eval.exprWith eval exec frame' e' m') := by
  have C := Machine.change_keeps none
  cases he with
  | constant value => cases value <;> exact h.pure (ValueAlike.refl_of (by simp [Value.ofConstant]))
  | «variable» hrefers => exact h.getVariable hrefers
  | group he => exact M.eval_alike h he
  | unary op hsite he =>
    refine h.bind (M.moves_eval _ _) (M.moves_eval _ _) (M.eval_alike h he)
      fun W₁ m₁ m₁' v v' _ h₁ _ _ hv => ?_
    rw [UnaryOp.apply_alike op hv]
    exact h₁.ofExcept hsite (op.plain_apply v')
  | binary op hsite hl hr =>
    refine h.bind (M.moves_eval _ _) (M.moves_eval _ _) (M.eval_alike h hl)
      fun W₁ m₁ m₁' v v' _ h₁ _ _ hv => ?_
    refine h₁.bind (M.moves_eval _ _) (M.moves_eval _ _) (M.eval_alike h₁ hr)
      fun W₂ m₂ m₂' w w' hW h₂ hk hk' hw => ?_
    rw [BinaryOp.apply_alike op (ValueAlike.mono hv hW hk.store hk'.store) hw]
    exact h₂.ofExcept hsite (op.plain_apply v' w')
  | logical op hsite hl hr =>
    refine h.bind (M.moves_eval _ _) (M.moves_eval _ _) (M.eval_alike h hl)
      fun W₁ m₁ m₁' v v' _ h₁ _ _ hv => ?_
    refine h₁.bind (moves_truth C _ _ _) (moves_truth C _ _ _) (h₁.truth hsite rfl hv)
      fun W₂ m₂ m₂' a a' _ h₂ _ _ ha => ?_
    obtain rfl : a = a' := ha
    split
    · exact h₂.pure (ValueAlike.refl_of (by simp))
    refine h₂.bind (M.moves_eval _ _) (M.moves_eval _ _) (M.eval_alike h₂ hr)
      fun W₃ m₃ m₃' w w' _ h₃ _ _ hw => ?_
    refine h₃.bind (moves_truth C _ _ _) (moves_truth C _ _ _) (h₃.truth hsite rfl hw)
      fun W₄ m₄ m₄' c c' _ h₄ _ _ hc => ?_
    obtain rfl : c = c' := hc
    exact h₄.pure (ValueAlike.refl_of (by simp))
  | call hsite he hes =>
    refine h.bind (M.moves_eval _ _) (M.moves_eval _ _) (M.eval_alike h he)
      fun W₁ m₁ m₁' f f' _ h₁ _ _ hf => ?_
    refine h₁.bind (moves_all C (M.moves_eval _) _) (moves_all C (M.moves_eval _) _) (M.all h₁ hes)
      fun W₂ m₂ m₂' vs vs' hW h₂ hk hk' hvs => ?_
    exact M.call h₂ hsite (ValueAlike.mono hf hW hk.store hk'.store) hvs

/-! ### Statements -/

theorem condition {e e' : Expr} {t t' : Token} (h : Ready P o o' W m m' frame frame' V)
    (hsite : P.site o.file o'.file t t') (he : Alike P o o' b V (.expr e) (.expr e') V) :
    ResultAlike P W (fun _ _ _ => Eq) (Eval.condition (eval frame) t e m)
      (Eval.condition (eval frame') t' e' m') :=
  h.bind (M.moves_eval _ _) (M.moves_eval _ _) (M.eval_alike h he)
    fun _ _ _ _ _ _ h₁ _ _ hv => h₁.truth hsite rfl hv

/-- A condition, and what follows it either way. -/
theorem conditional {e e' : Expr} {t t' : Token} {yes no yes' no' : Run Flow}
    (h : Ready P o o' W m m' frame frame' V) (hsite : P.site o.file o'.file t t')
    (he : Alike P o o' b V (.expr e) (.expr e') V)
    (hyes : ∀ W₁ m₁ m₁', Ready P o o' W₁ m₁ m₁' frame frame' V →
      ResultAlike P W₁ (FlowAlike P b frame frame' V₁) (yes m₁) (yes' m₁'))
    (hno : ∀ W₁ m₁ m₁', Ready P o o' W₁ m₁ m₁' frame frame' V →
      ResultAlike P W₁ (FlowAlike P b frame frame' V₁) (no m₁) (no' m₁')) :
    ResultAlike P W (FlowAlike P b frame frame' V₁)
      ((Eval.condition (eval frame) t e >>= fun go => if go then yes else no) m)
      ((Eval.condition (eval frame') t' e' >>= fun go => if go then yes' else no') m') := by
  have C := Machine.change_keeps none
  refine h.bind (moves_condition C (M.moves_eval _) _ _) (moves_condition C (M.moves_eval _) _ _)
    (M.condition h hsite he) fun W₁ m₁ m₁' go go' _ h₁ _ _ hgo => ?_
  obtain rfl : go = go' := hgo
  cases go with
  | true => exact hyes W₁ m₁ m₁' h₁
  | false => exact hno W₁ m₁ m₁' h₁

theorem branches {r r' : Else} (h : Ready P o o' W m m' frame frame' V)
    (hr : Alike P o o' b V (.rest r) (.rest r') V) :
    ResultAlike P W (FlowAlike P b frame frame' V)
      (Eval.branches (eval frame) (Eval.block exec frame) r m)
      (Eval.branches (eval frame') (Eval.block exec frame') r' m') := by
  induction r using Eval.branches.induct generalizing r' W m m' with
  | case1 =>
    cases hr
    exact h.pure h.realizes
  | case2 stmts =>
    cases hr with
    | otherwise hss => exact M.block h hss
  | case3 token cond stmts rest ih =>
    cases hr with
    | otherwiseIf hsite he hss hr =>
      rw [Eval.branches, Eval.branches]
      exact M.conditional h hsite he (fun _ _ _ h₁ => M.block h₁ hss) fun _ _ _ h₁ => ih h₁ hr

theorem whileLoop {e e' : Expr} {t t' : Token} {ss ss' : List Stmt}
    (h : Ready P o o' W m m' frame frame' V) (hsite : P.site o.file o'.file t t')
    (he : Alike P o o' b V (.expr e) (.expr e') V)
    (hss : Alike P o o' b V.inner (.stmts ss) (.stmts ss') V₁) (fuel : Nat) :
    ResultAlike P W (FlowAlike P b frame frame' V)
      (Eval.whileLoop (Eval.condition (eval frame) t e) (Eval.block exec frame ss) fuel m)
      (Eval.whileLoop (Eval.condition (eval frame') t' e') (Eval.block exec frame' ss') fuel m') := by
  induction fuel generalizing W m m' with
  | zero => exact trivial
  | succ fuel ih =>
    rw [whileLoop_succ, whileLoop_succ]
    refine M.conditional h hsite he (fun W₁ m₁ m₁' h₁ => ?_) fun _ _ _ h₁ => h₁.pure h₁.realizes
    exact h₁.andThen (moves_block M.moves_exec _ _) (moves_block M.moves_exec _ _) (M.block h₁ hss)
      fun _ _ _ _ h₂ => ih h₂

theorem timesLoop {ss ss' : List Stmt} (h : Ready P o o' W m m' frame frame' V)
    (hss : Alike P o o' b V.inner (.stmts ss) (.stmts ss') V₁) (count fuel done : Nat) :
    ResultAlike P W (FlowAlike P b frame frame' V)
      (Eval.timesLoop (Eval.block exec frame ss) count fuel done m)
      (Eval.timesLoop (Eval.block exec frame' ss') count fuel done m') := by
  induction fuel generalizing W m m' done with
  | zero => exact trivial
  | succ fuel ih =>
    rw [timesLoop_succ, timesLoop_succ]
    split
    · exact h.andThen (moves_block M.moves_exec _ _) (moves_block M.moves_exec _ _) (M.block h hss)
        fun _ _ _ _ h₁ => ih h₁ _
    · exact h.pure h.realizes

/-- Code that is alike ends alike, if the code inside it does. -/
theorem stmtWith {s s' : Stmt} (fuel : Nat) (h : Ready P o o' W m m' frame frame' V)
    (hs : Alike P o o' b V (.stmt s) (.stmt s') V₁) :
    ResultAlike P W (FlowAlike P b frame frame' V₁) (Eval.stmtWith fuel eval exec frame s m)
      (Eval.stmtWith fuel eval exec frame' s' m') := by
  have C := Machine.change_keeps none
  cases hs with
  | block hss => exact M.block h hss
  | change hrefers he =>
    refine h.bind (M.moves_eval _ _) (M.moves_eval _ _) (M.eval_alike h he)
      fun W₁ m₁ m₁' v v' _ h₁ _ _ hv => ?_
    exact h₁.bind (moves_setVariable _ _ _) (moves_setVariable _ _ _) (h₁.setVariable hrefers hv)
      fun _ _ _ _ _ _ h₂ _ _ _ => h₂.pure h₂.realizes
  | create hname hname' hnames he =>
    refine h.bind (M.moves_eval _ _) (M.moves_eval _ _) (M.eval_alike h he)
      fun W₁ m₁ m₁' v v' _ h₁ _ _ hv => ?_
    exact (h₁.defineVariable hname hname' hnames (hv.widen _ _)).bind (moves_defineVariable _ _ _)
      (moves_defineVariable _ _ _)
      fun W₂ m₂ m₂' _ _ _ hm _ _ hreal => ⟨W₂, World.le_refl W₂, hm, hreal⟩
  | define hname hname' hnames heq hparams hss =>
    exact h.define hname hname' hnames heq hparams hss fuel
  | expression he =>
    exact h.bind (M.moves_eval _ _) (M.moves_eval _ _) (M.eval_alike h he)
      fun _ _ _ _ _ _ h₁ _ _ _ => h₁.pure h₁.realizes
  | branch hsite he hss hr =>
    exact M.conditional h hsite he (fun _ _ _ h₁ => M.block h₁ hss) fun _ _ _ h₁ => M.branches h₁ hr
  | repeatTimes hsite he hss =>
    refine h.bind (M.moves_eval _ _) (M.moves_eval _ _) (M.eval_alike h he)
      fun W₁ m₁ m₁' v v' _ h₁ _ _ hv => ?_
    refine h₁.bind (moves_repetitions C _ _) (moves_repetitions C _ _) (h₁.repetitions hsite hv)
      fun W₂ m₂ m₂' n n' _ h₂ _ _ hn => ?_
    obtain rfl : n = n' := hn
    exact M.timesLoop h₂ hss n fuel 0
  | repeatWhile hsite he hss => exact M.whileLoop h hsite he hss fuel
  | returnEmpty => exact ⟨W, World.le_refl W, h.machine, rfl, trivial⟩
  | returnWith he =>
    exact h.bind (M.moves_eval _ _) (M.moves_eval _ _) (M.eval_alike h he)
      fun W₁ _ _ _ _ _ h₁ _ _ hv => ⟨W₁, World.le_refl W₁, h₁.machine, rfl, hv⟩

end Matches

/-! ### Evaluation -/

/-- With the same fuel, code that is alike ends alike. -/
theorem matches_eval (P : Pairing) (fuel : Nat) : Matches P (expr fuel) (stmt fuel) := by
  induction fuel with
  | zero =>
    exact ⟨moves_expr 0, moves_stmt 0, fun _ _ => trivial, fun _ _ => trivial,
      fun _ hdone => by cases hdone⟩
  | succ fuel ih =>
    exact ⟨moves_expr _, moves_stmt _, fun h he => ih.exprWith h he,
      fun h hs => ih.stmtWith fuel h hs, fun hreturn => stmtWith_return hreturn fuel _⟩

/-- The statements of two programs, neither of which returns. -/
theorem program_alike {ss ss' : List Stmt} (fuel : Nat)
    (h : Ready P o o' W m m' Store.globals Store.globals V)
    (hss : Alike P o o' false V (.stmts ss) (.stmts ss') V₁) :
    ResultAlike P W
      (fun W₁ m₁ m₁' _ _ => Ready P o o' W₁ m₁ m₁' Store.globals Store.globals V₁)
      (program fuel ss m) (program fuel ss' m') := by
  induction ss generalizing ss' V W m m' with
  | nil =>
    cases hss
    exact ⟨W, World.le_refl W, h.machine, h⟩
  | cons s ss ih =>
    cases hss with
    | moreStmts hs hss =>
      rw [program_cons, program_cons]
      refine ((matches_eval P fuel).exec_alike h hs).bind (moves_stmt _ _ _) (moves_stmt _ _ _)
        fun W₁ m₁ m₁' flow flow' _ hm hk hk' hflow => ?_
      cases flow <;> cases flow' <;> try exact hflow.elim
      · exact ih (h.after hm hk hk' hflow) hss
      · exact absurd hflow.1 (by simp)

end Offside.Lockstep
