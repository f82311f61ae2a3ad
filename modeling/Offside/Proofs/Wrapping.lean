import Mathlib
import Offside.Proofs.Agreement
import Offside.Proofs.Distances

/-!
# Programs in a block

A program can be put into a block, so that it declares its names in a scope of its own and no longer
next to the global variables. That makes one scope more between the program and the global variables
it started with, and no other difference: the block is accepted, the references to those variables
are one deeper, and a run writes the same and ends the same, without a new global variable.

* `Site.Global`: places at which a name refers to a global variable;
* `Site.Wraps`: places of a program, and the same places once it is in a block;
* `Scope.errors_block`, `Scope.getElem?_block`: what the analysis of scopes finds in the block;
* `Lockstep.deeper`: a run next to one with one frame more;
* `Session.block_shifts_globals`: acceptance, distances and execution.
-/

namespace Offside

namespace Layer

theorem shows_given (given : Names) (before : List Stmt) (leading : Stmt) (name : String) :
    (Layer.mk given before leading).Shows name ↔
      name ∈ given ∨ (Layer.mk [] before leading).Shows name := by
  simp [Shows, Holds, or_assoc]

/-- A scope that leads to a block right away shows what it is given. -/
theorem shows_block (given : Names) (body : List Stmt) (name : String) :
    (Layer.mk given [] (.block body)).Shows name ↔ name ∈ given := by
  simp [Shows, Holds, Stmt.Declares, Stmt.declared?]

end Layer

namespace Site

/-! ### Scopes further out -/

/-- A place with more scopes around it. -/
def within (outer : List Layer) (site : Site) : Site :=
  { site with layers := site.layers ++ outer }

theorem reads_append (inner outer : List Layer) (e : Expr) :
    reads (inner ++ outer) e = (reads inner e).map (within outer) := by
  simp [reads, within, Function.comp_def]

theorem parameters_append (inner outer : List Layer) (earlier names : List Token) :
    parameters (inner ++ outer) earlier names =
      (parameters inner earlier names).map (within outer) := by
  induction names generalizing earlier with
  | nil => rfl
  | cons name names ih =>
    rw [parameters, parameters, ih]
    rfl

theorem distance?_within (outer : List Layer) (inside : Site) (name : String) :
    (inside.within outer).distance? name = (inside.distance? name).or
      ((outer.findIdx? fun layer => layer.Shows name).map (· + inside.layers.length)) :=
  List.findIdx?_append

mutual

/-- The places of a statement are the same wherever it stands, but for the scopes further out. -/
theorem ofStmt_append (inner outer : List Layer) :
    ∀ s, ofStmt (inner ++ outer) s = (ofStmt inner s).map (within outer)
  | .block body => ofStmts_append inner outer [] [] body
  | .change target value => by
    rw [ofStmt, ofStmt, reads_append, List.map_append]
    rfl
  | .create name value => by
    rw [ofStmt, ofStmt, reads_append]
    rfl
  | .define name params body => by
    rw [ofStmt, ofStmt, parameters_append, ofStmts_append, List.map_append]
    rfl
  | .expression value => reads_append inner outer value
  | .branch _ cond body rest => by
    rw [ofStmt, ofStmt, reads_append, ofStmts_append, ofElse_append, List.map_append,
      List.map_append]
  | .repeatTimes _ count body => by
    rw [ofStmt, ofStmt, reads_append, ofStmts_append, List.map_append]
  | .repeatWhile _ cond body => by
    rw [ofStmt, ofStmt, reads_append, ofStmts_append, List.map_append]
  | .returnEmpty _ => rfl
  | .returnWith _ value => by
    rw [ofStmt, ofStmt, reads_append]
    rfl

theorem ofStmts_append (inner outer : List Layer) (given : Names) (before : List Stmt) :
    ∀ ss, ofStmts (inner ++ outer) given before ss =
      (ofStmts inner given before ss).map (within outer)
  | [] => rfl
  | s :: ss => by
    have hfirst := ofStmt_append (⟨given, before, s⟩ :: inner) outer s
    rw [List.cons_append] at hfirst
    rw [ofStmts, ofStmts, hfirst, ofStmts_append, List.map_append]

theorem ofElse_append (inner outer : List Layer) :
    ∀ r, ofElse (inner ++ outer) r = (ofElse inner r).map (within outer)
  | .nothing => rfl
  | .block body => ofStmts_append inner outer [] [] body
  | .branch _ cond body rest => by
    rw [ofElse, ofElse, reads_append, ofStmts_append, ofElse_append, List.map_append,
      List.map_append]

end

/-- The places of a list of statements are places of its members, each in the scope of the list. -/
theorem mem_ofStmts {outer : List Layer} {given : Names} {before ss : List Stmt} {site : Site} :
    site ∈ ofStmts outer given before ss ↔
      ∃ front s back, ss = front ++ s :: back ∧
        ∃ inside ∈ ofStmt [] s, site = inside.within (⟨given, before ++ front, s⟩ :: outer) := by
  induction ss generalizing before with
  | nil => simp [ofStmts]
  | cons s ss ih =>
    have hfirst : ofStmt (⟨given, before, s⟩ :: outer) s =
        (ofStmt [] s).map (within (⟨given, before, s⟩ :: outer)) := ofStmt_append [] _ s
    rw [ofStmts, List.mem_append, ih, hfirst, List.mem_map]
    constructor
    · rintro (⟨inside, hinside, rfl⟩ | ⟨front, r, back, rfl, inside, hinside, rfl⟩)
      · exact ⟨[], s, ss, rfl, inside, hinside, by simp⟩
      · exact ⟨s :: front, r, back, rfl, inside, hinside, by simp⟩
    · rintro ⟨_ | ⟨r, front⟩, s', back, hsplit, inside, hinside, rfl⟩
      · obtain ⟨rfl, -⟩ := List.cons.inj hsplit
        exact .inl ⟨inside, hinside, by simp⟩
      · obtain ⟨rfl, rfl⟩ := List.cons.inj hsplit
        exact .inr ⟨front, s', back, rfl, inside, hinside, by simp⟩

/-! ### Places in a block -/

/-- A name refers to one of the global variables that a program starts with: no scope inside the
outermost one shows it. -/
def Global (globals : Names) (site : Site) (name : String) : Prop :=
  name ∈ globals ∧ ∀ layer ∈ site.layers.dropLast, ¬ layer.Shows name

instance (globals : Names) (site : Site) (name : String) : Decidable (site.Global globals name) :=
  inferInstanceAs (Decidable (_ ∧ _))

/-- The references of a program to the global variables that it starts with. -/
def globalReferences (globals : Names) (ss : List Stmt) : List Token :=
  (all globals ss).filterMap fun site =>
    site.refers?.filter fun name => site.Global globals name.lexeme

/-- A place of a program, and the same place once the program is in a block. Then the scope of the
program is given nothing, and the scope around it has the global variables. -/
def Wraps (globals : Names) (ss : List Stmt) (site site' : Site) : Prop :=
  ∃ front s back inside, ss = front ++ s :: back ∧
    site = within [⟨globals, front, s⟩] inside ∧
    site' = within [⟨[], front, s⟩, ⟨globals, [], .block ss⟩] inside

variable {globals : Names} {ss : List Stmt} {site site' : Site}

theorem mem_globalReferences {name : Token} :
    name ∈ globalReferences globals ss ↔
      ∃ site ∈ all globals ss, name ∈ site.refers? ∧ site.Global globals name.lexeme := by
  simp [globalReferences, Option.filter_eq_some_iff]

theorem exists_wraps (h : site ∈ all globals ss) :
    ∃ site' ∈ all globals [.block ss], Wraps globals ss site site' := by
  obtain ⟨front, s, back, hsplit, inside, hinside, rfl⟩ := mem_ofStmts.1 h
  refine ⟨_, ?_, front, s, back, inside, hsplit, rfl, rfl⟩
  rw [all, ofStmts, ofStmts, List.append_nil, ofStmt]
  exact mem_ofStmts.2 ⟨front, s, back, hsplit, inside, hinside, rfl⟩

theorem exists_wrapped (h : site' ∈ all globals [.block ss]) :
    ∃ site ∈ all globals ss, Wraps globals ss site site' := by
  rw [all, ofStmts, ofStmts, List.append_nil, ofStmt] at h
  obtain ⟨front, s, back, hsplit, inside, hinside, rfl⟩ := mem_ofStmts.1 h
  refine ⟨_, ?_, front, s, back, inside, hsplit, rfl, rfl⟩
  exact mem_ofStmts.2 ⟨front, s, back, hsplit, inside, hinside, rfl⟩

namespace Wraps

theorem item (h : Wraps globals ss site site') : site'.item = site.item := by
  obtain ⟨front, s, back, inside, -, rfl, rfl⟩ := h
  rfl

theorem refers? (h : Wraps globals ss site site') : site'.refers? = site.refers? := by
  unfold Site.refers? mark
  rw [h.item]

theorem initializes? (h : Wraps globals ss site site') :
    site'.initializes? = site.initializes? := by
  obtain ⟨front, s, back, ⟨layers, item⟩, -, rfl, rfl⟩ := h
  cases layers <;> rfl

theorem holds (h : Wraps globals ss site site') {name : String} (hname : site'.Holds name) :
    site.Holds name := by
  obtain ⟨front, s, back, ⟨layers, item⟩, -, rfl, rfl⟩ := h
  cases layers with
  | nil =>
    obtain ⟨layer, hlayer, hholds⟩ := hname
    obtain rfl : Layer.mk [] front s = layer := Option.some.inj hlayer
    exact ⟨_, rfl, .inr (hholds.resolve_left List.not_mem_nil)⟩
  | cons layer layers => exact hname

theorem inFunction (h : Wraps globals ss site site') (hin : site.InFunction) :
    site'.InFunction := by
  obtain ⟨front, s, back, inside, -, rfl, rfl⟩ := h
  obtain ⟨layer, hlayer, hdefine⟩ := hin
  rcases List.mem_append.1 hlayer with hlayer | hlayer
  · exact ⟨layer, List.mem_append_left _ hlayer, hdefine⟩
  · obtain rfl := List.mem_singleton.1 hlayer
    exact ⟨⟨[], front, s⟩, List.mem_append_right _ List.mem_cons_self, hdefine⟩

/-- In a block, exactly the references to global variables are one deeper, if the program declares
none of these again. -/
theorem distance? (h : Wraps globals ss site site')
    (hfree : ∀ s ∈ ss, ∀ n ∈ globals, ¬ s.Declares n) (name : String) :
    site'.distance? name =
      (site.distance? name).map fun d => if site.Global globals name then d + 1 else d := by
  obtain ⟨front, s, back, inside, rfl, rfl, rfl⟩ := h
  have hglobal : (inside.within [⟨globals, front, s⟩]).Global globals name ↔
      name ∈ globals ∧ inside.distance? name = none := by
    rw [Global, within, List.dropLast_concat, Site.distance?, List.findIdx?_eq_none_iff]
    simp
  have hshows : name ∈ globals → ¬ (Layer.mk [] front s).Shows name := by
    rintro hname ((hnil | ⟨r, hr, hdeclares⟩) | hdeclares)
    · cases hnil
    · exact hfree r (List.mem_append_left _ hr) name hname hdeclares
    · exact hfree s (List.mem_append_right _ List.mem_cons_self) name hname hdeclares
  rw [distance?_within, distance?_within]
  cases hinside : inside.distance? name with
  | some d =>
    -- a scope inside that of the program shows the name
    have hno : ¬ (inside.within [⟨globals, front, s⟩]).Global globals name := fun h =>
      Option.some_ne_none d (hinside.symm.trans (hglobal.1 h).2)
    rw [Option.some_or, Option.some_or, Option.map_some, if_neg hno]
  | none =>
    rw [Option.none_or, Option.none_or]
    by_cases hname : name ∈ globals
    · have houter := (Layer.shows_given globals front s name).2 (.inl hname)
      have hblock := (Layer.shows_block globals (front ++ s :: back) name).2 hname
      have hyes := hglobal.2 ⟨hname, hinside⟩
      simp [List.findIdx?_cons, hshows hname, houter, hblock, hyes, Nat.add_comm 1]
    · have hblock := (Layer.shows_block globals (front ++ s :: back) name).not.2 hname
      have hsame : (Layer.mk globals front s).Shows name ↔ (Layer.mk [] front s).Shows name := by
        rw [Layer.shows_given]
        exact or_iff_right hname
      have hno : ¬ (inside.within [⟨globals, front, s⟩]).Global globals name := fun h =>
        hname h.1
      by_cases hown : (Layer.mk [] front s).Shows name
      · simp [List.findIdx?_cons, hown, hsame.2 hown, hno]
      · simp [List.findIdx?_cons, hown, hsame.not.2 hown, hblock]

/-- Nothing becomes wrong at a place because of the block. -/
theorem faults_eq_nil (h : Wraps globals ss site site')
    (hfree : ∀ s ∈ ss, ∀ n ∈ globals, ¬ s.Declares n) (hsite : site.faults = []) :
    site'.faults = [] := by
  have hknown : ∀ name, site.distance? name ≠ none → site'.distance? name ≠ none := by
    intro name hname
    rw [h.distance? hfree, ne_eq, Option.map_eq_none_iff]
    exact hname
  unfold faults at hsite ⊢
  rw [h.item]
  cases hitem : site.item <;> simp only [hitem, List.append_eq_nil_iff, faultIf_eq_nil] at hsite ⊢
  case read name =>
    rw [h.initializes?]
    exact ⟨hsite.1, hknown _ hsite.2⟩
  case target name => exact hknown _ hsite
  case declaration name => exact fun hname => hsite (h.holds hname)
  case parameter earlier name => exact hsite
  case exit token => exact not_not.2 (h.inFunction (not_not.1 hsite))

end Wraps

end Site

namespace Scope

variable {globals : Names} {ss : List Stmt}

theorem not_mem_of_declare {scope : Names} {name : Token}
    (h : (declare scope name).2.errors = []) : name.lexeme ∉ scope := by
  rw [findings_declare] at h
  exact Site.faultIf_eq_nil.1 h

/-- No statement of an accepted program declares a name that its scope starts with. -/
theorem not_declares {b : Bool} {outer : List Names} {scope : Names}
    (h : (ofStmts b outer scope ss).2.errors = []) :
    ∀ s ∈ ss, ∀ n ∈ scope, ¬ s.Declares n := by
  induction ss generalizing scope with
  | nil => simp
  | cons s ss ih =>
    obtain ⟨hs, hss⟩ := List.append_eq_nil_iff.1 h
    have hmore : ∀ n ∈ scope, n ∈ (ofStmt b outer scope s).1 := fun n hn => mem_ofStmt.2 (.inl hn)
    refine List.forall_mem_cons.2 ⟨?_, fun r hr n hn => ih hss r hr n (hmore n hn)⟩
    intro n hn hdeclares
    cases s with
    | create name value =>
      obtain rfl : name.lexeme = n := Option.some.inj hdeclares
      exact not_mem_of_declare (List.append_eq_nil_iff.1 hs).1 hn
    | define name params body =>
      obtain rfl : name.lexeme = n := Option.some.inj hdeclares
      exact not_mem_of_declare (List.append_eq_nil_iff.1 (List.append_eq_nil_iff.1 hs).1).1 hn
    | _ => cases hdeclares

/-- The block of an accepted program is accepted. -/
theorem errors_block (haccepted : (resolve globals ss).errors = []) :
    (resolve globals [.block ss]).errors = [] := by
  have hfree := not_declares haccepted
  rw [resolve_eq_gather] at haccepted ⊢
  refine List.flatMap_eq_nil_iff.2 fun site' hsite' => ?_
  obtain ⟨site, hsite, hwraps⟩ := Site.exists_wrapped hsite'
  exact hwraps.faults_eq_nil hfree (List.flatMap_eq_nil_iff.1 haccepted site hsite)

theorem allMarks_block (ss : List Stmt) : Stmt.allMarks [.block ss] = Stmt.allMarks ss := by
  simp [Stmt.allMarks, Stmt.marks]

section

variable (hspans : ((references (Stmt.allMarks ss)).map (·.span)).Nodup)
  (haccepted : (resolve globals ss).errors = [])
include hspans haccepted

/-- At each place the block has the distance that is on record without it, or one more. -/
theorem getElem?_block_of_mem {site : Site} (hsite : site ∈ Site.all globals ss) {name : Token}
    (hname : site.refers? = some name) :
    (ScopeMap.ofReferences (resolve globals [.block ss]).references)[name.span]? =
      (ScopeMap.ofReferences (resolve globals ss).references)[name.span]?.map fun d =>
        if site.Global globals name.lexeme then d + 1 else d := by
  obtain ⟨site', hsite', hwraps⟩ := Site.exists_wraps hsite
  have hnodup := (Site.perm_spans globals ss).nodup_iff.2 hspans
  have hnodup' := (Site.perm_spans globals [.block ss]).nodup_iff.2 (by rwa [allMarks_block])
  have hdistance := Site.getElem?_located hnodup hsite hname
  have hdistance' := Site.getElem?_located hnodup' hsite' (hwraps.refers?.trans hname)
  rw [hwraps.distance? (not_declares haccepted), ← hdistance] at hdistance'
  rwa [resolve_eq_gather, resolve_eq_gather]

/-- The distances on record for the block are those of the program, but one more for each reference
to a global variable. -/
theorem getElem?_block (span : Span) :
    (ScopeMap.ofReferences (resolve globals [.block ss]).references)[span]? =
      (ScopeMap.ofReferences (resolve globals ss).references)[span]?.map fun d =>
        if span ∈ (Site.globalReferences globals ss).map (·.span) then d + 1 else d := by
  by_cases hglobal : span ∈ (Site.globalReferences globals ss).map (·.span)
  · obtain ⟨name, hmem, rfl⟩ := List.mem_map.1 hglobal
    obtain ⟨site, hsite, hname, hsite_global⟩ := Site.mem_globalReferences.1 hmem
    simp only [if_pos hglobal]
    simpa only [if_pos hsite_global] using getElem?_block_of_mem hspans haccepted hsite hname
  · simp only [if_neg hglobal, Option.map_id']
    by_cases hrefers : ∃ site ∈ Site.all globals ss, ∃ name ∈ site.refers?, name.span = span
    · obtain ⟨site, hsite, name, hname, rfl⟩ := hrefers
      have hlocal : ¬ site.Global globals name.lexeme := fun h =>
        hglobal (List.mem_map_of_mem (Site.mem_globalReferences.2 ⟨site, hsite, hname, h⟩))
      simpa only [if_neg hlocal, Option.map_id'] using
        getElem?_block_of_mem hspans haccepted hsite hname
    · -- no reference has this span, so neither map has an entry for it
      rw [resolve_eq_gather, resolve_eq_gather]
      have hnone : span ∉ ScopeMap.ofReferences (Site.gather (Site.all globals ss)).references :=
        fun h => hrefers (Site.exists_of_mem_located h)
      have hnone' : span ∉
          ScopeMap.ofReferences (Site.gather (Site.all globals [.block ss])).references := by
        intro h
        obtain ⟨site', hsite', name, hname, hspan⟩ := Site.exists_of_mem_located h
        obtain ⟨site, hsite, hwraps⟩ := Site.exists_wrapped hsite'
        exact hrefers ⟨site, hsite, name, hwraps.refers?.symm.trans hname, hspan⟩
      rw [Std.HashMap.getElem?_eq_none hnone, Std.HashMap.getElem?_eq_none hnone']

end

end Scope

/-! ### Execution -/

namespace Lockstep

/-- A run next to one with one frame more. -/
def deeper : Pairing :=
  { identity with frames := fun _ _ => True, ahead := 1, frames_fresh := fun _ => trivial }

/-- A store corresponds to itself with a fresh frame. -/
theorem StoreAlike.alloc_right {W : World} {s : Store} (h : StoreAlike identity W s s)
    (parent : Nat) : StoreAlike deeper W s (s.alloc parent []).2 where
  size := by simp [Store.alloc, deeper]
  allowed a b hab := ⟨trivial, congrArg Prod.snd (h.value_self hab).1⟩
  unique := h.unique
  values a b hab := by
    obtain ⟨rfl, v, hv, halike⟩ := h.value_self hab
    have hlt : a.1 < s.frames.size := Store.lt_size_of_value? (by rw [hv]; rfl)
    have hv' : (s.alloc parent []).2.value? a = some v := by
      rw [Store.value?_alloc, if_neg (Nat.ne_of_lt hlt), hv]
    have hsame : ValueAlike deeper W s s v v :=
      halike.of_identity (fun _ => rfl) fun _ _ _ => ⟨rfl, rfl⟩
    exact ⟨v, v, hv, hv', hsame.mono (World.le_refl W) (Store.Keeps.refl none s)
      (s.keeps_alloc parent [])⟩
  total := h.total

end Lockstep

namespace Eval

/-- A block is the sequence of its statements in a fresh frame. -/
theorem program_block (fuel : Nat) (ss : List Stmt) (m : Machine) :
    program (fuel + 1) [.block ss] m =
      (sequence (stmt fuel m.store.frames.size) ss >>= fun _ => pure ())
        { m with store := (m.store.alloc Store.globals []).2 } := by
  rw [program_cons]
  rfl

/-- A program whose statements do not return does what the sequence of its statements does. -/
theorem program_eq_sequence {fuel : Nat} {ss : List Stmt} {m : Machine}
    (h : ∀ v m₁, sequence (stmt fuel Store.globals) ss m ≠ .done (.returned v) m₁) :
    program fuel ss m = (sequence (stmt fuel Store.globals) ss >>= fun _ => pure ()) m := by
  induction ss generalizing m with
  | nil => rfl
  | cons s ss ih =>
    rw [program_cons]
    rw [sequence_cons] at h ⊢
    cases hs : stmt fuel Store.globals s m with
    | done flow m₁ =>
      rw [Run.bind_of_done hs]
      rw [Run.bind_of_done hs] at h
      cases flow with
      | normal =>
        rw [ih h]
        show Run.bind _ _ m₁ = Run.bind _ _ m
        rw [Run.bind, Run.bind, Run.bind_of_done hs]
        rfl
      | returned v => exact absurd rfl (h v m₁)
    | fault d m₁ => rw [Run.bind_of_fault hs, Run.bind_of_fault (Run.bind_of_fault hs)]
    | exhausted => rw [Run.bind_of_exhausted hs, Run.bind_of_exhausted (Run.bind_of_exhausted hs)]

end Eval

namespace Session

open Lockstep

/-- What a block sees of the global variables: they are one frame further out than for a program. -/
def blockView (globals : Names) : View :=
  ⟨globals, [], globals.map fun n => ((0, n), (1, n))⟩

theorem overlooks_blockView (globals : Names) :
    Overlooks (blockView globals) [] globals [globals] [] := by
  refine ⟨rfl, rfl, ?_⟩
  intro n d d' _ hd hd'
  obtain ⟨hn, rfl⟩ := Scope.distance?_singleton hd
  rw [Scope.distance?, if_neg List.not_mem_nil] at hd'
  obtain ⟨k, hk, rfl⟩ := Option.map_eq_some_iff.1 hd'
  obtain ⟨-, rfl⟩ := Scope.distance?_singleton hk
  exact List.mem_map.2 ⟨n, hn, rfl⟩

variable {s : Session} (setting : Setting)

/-- A run starts ready next to one that stands in a fresh frame. -/
theorem ready_block {W : World} (hsize : Store.globals < s.store.frames.size)
    (hstore : StoreAlike identity W s.store s.store) (fuel : Nat) (scope scope' : ScopeMap)
    (file : Nat) :
    Ready deeper ⟨scope, file⟩ ⟨scope', file⟩ W (s.machine setting scope file)
      { s.machine { setting with fuel := fuel } scope' file with
        store := (s.store.alloc Store.globals []).2 }
      Store.globals s.store.frames.size (blockView s.globals) := by
  refine ⟨⟨hstore.alloc_right Store.globals, rfl, rfl, rfl, rfl, rfl⟩, rfl, rfl, hsize, ?_, trivial,
    rfl, names_alloc s.store Store.globals [], ?_⟩
  · simp [Store.alloc]
  · intro l hl
    obtain ⟨n, hn, rfl⟩ := List.mem_map.1 hl
    obtain ⟨b, hb⟩ := hstore.total (Store.globals, n)
      ((s.store.value?_isSome_iff Store.globals n).2 hn)
    obtain ⟨rfl, -⟩ := hstore.value_self hb
    refine ⟨Store.globals, Store.globals, rfl, ?_, hb⟩
    rw [Store.ancestor?_succ]
    simp [Store.parent?_alloc, Store.ancestor?]

/-- A run of a block adds no global variable, however it ends. -/
theorem globals_execute_block (hsize : Store.globals < s.store.frames.size) (ss : List Stmt)
    (scope : ScopeMap) (file : Nat) :
    (s.execute setting ⟨[.block ss], scope⟩ file).1.globals = s.globals := by
  have hmoves : (Eval.program setting.fuel [.block ss]).Moves (Machine.Keeps none) := by
    have C := Machine.change_keeps none
    rw [Eval.program_cons]
    refine Run.Moves.bind C ?_ fun _ => Run.moves_pure C ()
    cases setting.fuel with
    | zero => exact fun _ => trivial
    | succ fuel => exact Eval.moves_block (Eval.moves_stmt fuel) Store.globals ss
  have hkeeps := hmoves (s.machine setting scope file)
  unfold execute
  cases hr : Eval.program setting.fuel [.block ss] (s.machine setting scope file) with
  | done _ m =>
    rw [hr] at hkeeps
    exact hkeeps.store.names Store.globals hsize (by simp)
  | fault d m =>
    rw [hr] at hkeeps
    exact hkeeps.store.names Store.globals hsize (by simp)
  | exhausted => rfl

/-- A program and its block write the same and end the same. The block is one level of nesting more,
which takes one more unit of fuel. -/
theorem execute_block_alike (hs : s.store.Steady) {map map' : ScopeMap} {file : Nat}
    {ss : List Stmt} {V : View}
    (h : Alike deeper ⟨map, file⟩ ⟨map', file⟩ false (blockView s.globals) (.stmts ss) (.stmts ss)
      V) :
    (s.execute { setting with fuel := setting.fuel + 1 } ⟨[.block ss], map'⟩ file).2 =
      (s.execute setting ⟨ss, map⟩ file).2 := by
  obtain ⟨hsize, W, hstore⟩ := hs
  have hready := ready_block setting hsize hstore (setting.fuel + 1) map map' file
  have hsequence := (matches_eval deeper setting.fuel).sequence hready h
  have hresult : ResultAlike deeper W (fun _ _ _ _ _ => True)
      (Eval.program setting.fuel ss (s.machine setting map file))
      (Eval.program (setting.fuel + 1) [.block ss]
        (s.machine { setting with fuel := setting.fuel + 1 } map' file)) := by
    rw [Eval.program_eq_sequence hsequence.not_returned, Eval.program_block]
    exact hsequence.discard
  exact execute_eq id id hresult

/-- A program may be put into a block of its own, although it then declares its names one scope
further in: the block is accepted; of the distances on record, exactly those of the references to
the global variables that the program starts with are one more; and in whatever session the block
runs, it writes the same and ends the same, faults included, and adds no global variable. As one
level of nesting more it takes one more unit of fuel. Distances are on record by the spans of the
references, which differ in a program that was read from a text. -/
theorem block_shifts_globals {globals : Names} {ss : List Stmt}
    (hspans : ((references (Stmt.allMarks ss)).map (·.span)).Nodup)
    (haccepted : (Scope.resolve globals ss).errors = []) :
    let map := ScopeMap.ofReferences (Scope.resolve globals ss).references
    let map' := ScopeMap.ofReferences (Scope.resolve globals [.block ss]).references
    (Scope.resolve globals [.block ss]).errors = [] ∧
      (∀ span, map'[span]? = map[span]?.map fun d =>
        if span ∈ (Site.globalReferences globals ss).map (·.span) then d + 1 else d) ∧
      ∀ runs : List (Setting × List Char), (after runs).globals = globals →
        ∀ setting file,
          let ran := (after runs).execute { setting with fuel := setting.fuel + 1 }
            ⟨[.block ss], map'⟩ file
          ran.2 = ((after runs).execute setting ⟨ss, map⟩ file).2 ∧ ran.1.globals = globals := by
  intro map map'
  have hblock := Scope.errors_block haccepted
  refine ⟨hblock, Scope.getElem?_block hspans haccepted, ?_⟩
  rintro runs rfl setting file
  have hsteady := steady_after runs
  have hspans' : ((references (Stmt.allMarks [.block ss])).map (·.span)).Nodup := by
    rwa [Scope.allMarks_block]
  have hrecorded' := (Scope.recorded_append.1 (Scope.recorded_of_spans hspans' hblock)).1
  obtain ⟨V, halike⟩ := alike_of_recorded (P := deeper) (fun _ => ⟨rfl, rfl⟩)
    (fun _ => rfl) (overlooks_blockView _) (Scope.recorded_of_spans hspans haccepted) hrecorded'
  exact ⟨execute_block_alike setting hsteady halike,
    globals_execute_block _ hsteady.1 ss map' file⟩

/-- A function with a parameter that has the name of a global variable, read next to two reads of
global variables, one inside the function and one outside. -/
theorem block_shifts_globals_hidden :
    let token (kind : Kind) (lexeme : String) (start : Nat) : Token :=
      { kind := kind, lexeme := lexeme, line := 1, span := ⟨start, start + 1⟩ }
    let name (lexeme : String) (start : Nat) : Token := token .identifier lexeme start
    let ss : List Stmt :=
      [.define (name "f" 0) [name "display" 1]
        [.create (name "x" 2) (.call (.variable (name "time" 3)) [] (token .rightParen ")" 4)),
          .change (name "x" 5) (.variable (name "display" 6)),
          .returnWith (token .returnWord "return" 7) (.variable (name "x" 8))],
        .expression (.call (.variable (name "display" 9))
          [.call (.variable (name "f" 10)) [.constant .empty] (token .rightParen ")" 11)]
          (token .rightParen ")" 12))]
    let globals := Session.initial.globals
    let map := ScopeMap.ofReferences (Scope.resolve globals ss).references
    let map' := ScopeMap.ofReferences (Scope.resolve globals [.block ss]).references
    ((references (Stmt.allMarks ss)).map (·.span)).Nodup ∧ (Scope.resolve globals ss).errors = [] ∧
      (Scope.resolve globals [.block ss]).errors = [] ∧
      map'[(name "time" 3).span]? = some 2 ∧ map'[(name "display" 6).span]? = some 0 ∧
      map'[(name "display" 9).span]? = some 1 ∧
      ∀ setting file,
        let ran := Session.initial.execute { setting with fuel := setting.fuel + 1 }
          ⟨[.block ss], map'⟩ file
        ran.2 = (Session.initial.execute setting ⟨ss, map⟩ file).2 ∧ ran.1.globals = globals := by
  intro token name ss globals map map'
  have hspans : ((references (Stmt.allMarks ss)).map (·.span)).Nodup := by decide
  have haccepted : (Scope.resolve globals ss).errors = [] := by decide
  obtain ⟨hblock, hmap, hruns⟩ := block_shifts_globals hspans haccepted
  have hrecorded : ∀ r ∈ (Scope.resolve globals ss).references, map[r.1]? = some r.2 := fun r hr =>
    ScopeMap.getElem?_ofReferences (by decide) hr
  have htime : map[(name "time" 3).span]? = some 1 := hrecorded (_, 1) (by decide)
  have hown : map[(name "display" 6).span]? = some 0 := hrecorded (_, 0) (by decide)
  have hdisplay : map[(name "display" 9).span]? = some 0 := hrecorded (_, 0) (by decide)
  refine ⟨hspans, haccepted, hblock, ?_, ?_, ?_, hruns [] rfl⟩
  · rw [hmap, htime, Option.map_some, if_pos (by decide)]
  · rw [hmap, hown, Option.map_some, if_neg (by decide)]
  · rw [hmap, hdisplay, Option.map_some, if_pos (by decide)]

/-- References that share a span share a distance, the one recorded last. So a call of a function
that every session starts with goes by the distance of a variable of an inner block, and only in the
block around the program does that lead elsewhere. -/
theorem wrapped_reference_misses :
    let token (kind : Kind) (lexeme : String) (start : Nat) : Token :=
      { kind := kind, lexeme := lexeme, line := 1, span := ⟨start, start + 1⟩ }
    let name (lexeme : String) (start : Nat) : Token := token .identifier lexeme start
    let ss : List Stmt :=
      [.expression (.call (.variable (name "display" 50)) [.constant (.text "1")]
          (token .rightParen ")" 1)),
        .block [.create (name "x" 2) (.constant .empty), .expression (.variable (name "x" 50))]]
    let globals := Session.initial.globals
    let setting : Setting := ⟨9, fun _ => Number.ofDecimalText ['0'], none⟩
    let ending (ss : List Stmt) : Ending :=
      (Session.initial.execute setting
        ⟨ss, ScopeMap.ofReferences (Scope.resolve globals ss).references⟩ 0).2.ending
    (Scope.resolve globals ss).errors = [] ∧ (Scope.resolve globals [.block ss]).errors = [] ∧
      ending ss = .success ∧
      ending [.block ss] =
        .failure [⟨.runtime (.notDefined "display"), 1, .lexeme "display", ⟨50, 51⟩, some 0⟩] := by
  exact ⟨by decide, by decide, by cbv, by cbv⟩

end Session

end Offside
