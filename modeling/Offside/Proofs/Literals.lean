import Offside.Proofs.Accounting
import Offside.Proofs.Coverage
import Offside.Proofs.Nesting

/-!
# Texts that literals can hold

A text literal stands on one line and ends at the next quote, and line endings are normalized before
a text is read. So no text that a program writes down holds a line feed, a carriage return or a
quote, and no name holds a line feed. Texts are made from others only by putting them together, so
this stays so as long as programs run, and every value is displayed on one line.

* `Text.Clean`: a text that a literal can hold;
* `Constant.Clean`, `Stmt.Clean`, `Closure.Clean`, `Value.Clean`, `Store.Clean`:
  things in which all texts are such;
* `Grammar.clean_of_read`: the programs that are read;
* `Value.not_mem_toText`: what is displayed.
-/

namespace Offside

/-- A text that a literal can hold: there is no line ending in it, and no quote. -/
def Text.Clean (cs : List Char) : Prop := '\n' ∉ cs ∧ '\r' ∉ cs ∧ '"' ∉ cs

theorem Text.Clean.append {as bs : List Char} (ha : Clean as) (hb : Clean bs) :
    Clean (as ++ bs) := by
  obtain ⟨hfeed, hreturn, hquote⟩ := ha
  obtain ⟨hfeed', hreturn', hquote'⟩ := hb
  simp [Clean, *]

/-! ### Trees -/

/-- If a constant is a text, then one that a literal can hold. -/
def Constant.Clean (c : Constant) : Prop := ∀ s, c = .text s → Text.Clean s.toList

mutual

/-- Literals can hold the texts of an expression. -/
def Expr.Clean : Expr → Prop
  | .constant value => value.Clean
  | .variable _ => True
  | .group inner => inner.Clean
  | .unary _ _ operand => operand.Clean
  | .binary _ _ left right => left.Clean ∧ right.Clean
  | .logical _ _ left right => left.Clean ∧ right.Clean
  | .call callee args _ => callee.Clean ∧ Expr.AllClean args

/-- Literals can hold the texts of all of the expressions. -/
def Expr.AllClean : List Expr → Prop
  | [] => True
  | e :: es => e.Clean ∧ Expr.AllClean es

end

mutual

/-- Literals can hold the texts of a statement, and the functions it defines have names without a
line feed. -/
def Stmt.Clean : Stmt → Prop
  | .block body => Stmt.AllClean body
  | .change _ value => value.Clean
  | .create _ value => value.Clean
  | .define name _ body => '\n' ∉ name.lexeme.toList ∧ Stmt.AllClean body
  | .expression value => value.Clean
  | .branch _ cond body rest => cond.Clean ∧ Stmt.AllClean body ∧ rest.Clean
  | .repeatTimes _ count body => count.Clean ∧ Stmt.AllClean body
  | .repeatWhile _ cond body => cond.Clean ∧ Stmt.AllClean body
  | .returnEmpty _ => True
  | .returnWith _ value => value.Clean

/-- All of the statements are so. -/
def Stmt.AllClean : List Stmt → Prop
  | [] => True
  | s :: ss => s.Clean ∧ Stmt.AllClean ss

/-- The further branches of a conditional are so. -/
def Else.Clean : Else → Prop
  | .nothing => True
  | .block body => Stmt.AllClean body
  | .branch _ cond body rest => cond.Clean ∧ Stmt.AllClean body ∧ rest.Clean

end

theorem Expr.Clean.first {e first : Expr} (h : e.Clean) (hfirst : e.first? = some first) :
    first.Clean := by
  cases e with
  | group inner | unary op token operand =>
    cases hfirst
    exact h
  | binary op token left right | logical op token left right | call callee args paren =>
    cases hfirst
    exact h.1
  | _ => cases hfirst

theorem Stmt.Clean.first {s : Stmt} {e : Expr} (h : s.Clean) (hfirst : s.first? = some e) :
    e.Clean := by
  cases s with
  | change target value | create name value | expression value | returnWith token value =>
    cases hfirst
    exact h
  | repeatTimes token count body =>
    cases hfirst
    exact h.1
  | _ => cases hfirst

/-! ### Tokens -/

/-- If a token carries a text, then one that a literal can hold, and if it is a name, then one
without a line feed. -/
structure Token.Clean (t : Token) : Prop where
  literal : ∀ s, t.literal = some (.text s) → Text.Clean s.toList
  name : t.kind = .identifier → '\n' ∉ t.lexeme.toList

/-- Layout tokens carry nothing. -/
theorem Token.clean_of_structural {t : Token} (hliteral : t.literal = none)
    (hkind : t.kind.isStructural = true) : t.Clean where
  literal s hs := by
    rw [hliteral] at hs
    cases hs
  name hname := by
    rw [hname] at hkind
    cases hkind

namespace Piece

/-- Between the quotes of a text literal there is no quote. -/
theorem quote_not_mem_of_mem_cut (cs : List Char) :
    ∀ p ∈ cut cs, p.cls = .token .text → '"' ∉ p.chars.tail.dropLast := by
  induction cs using cut_induction with
  | nil => simp
  | cons c rest ih =>
    rw [cut_cons]
    refine List.forall_mem_cons.2 ⟨fun hcls => ?_, ih⟩
    have hshape := shape_classify c rest
    rw [show (classify c rest).1 = _ from hcls] at hshape
    show '"' ∉ (rest.take (classify c rest).2).dropLast
    generalize (classify c rest).2 = length at hshape
    cases hshape with
    | text _ hclosed =>
      rw [take_closed hclosed, List.dropLast_concat]
      exact quote_not_mem_takeWhile rest
    | plain _ _ _ _ hsolid =>
      exact fun hmem => (hsolid _ (List.mem_of_mem_dropLast hmem)).ne_quote rfl

/-- A piece of a line, as tokens are made from it. -/
structure Clean (p : Piece) : Prop where
  text : p.cls = .token .text → Text.Clean p.chars.tail.dropLast
  line : '\n' ∉ p.chars

theorem clean_of_mem_cut {cs : List Char} (hfeed : '\n' ∉ cs) (hreturn : '\r' ∉ cs) :
    ∀ p ∈ cut cs, p.Clean := by
  intro p hp
  have hsub : ∀ c ∈ p.chars, c ∈ cs := by
    intro c hc
    rw [← flatMap_chars_cut cs]
    exact List.mem_flatMap.2 ⟨p, hp, hc⟩
  have hinner : ∀ c ∈ p.chars.tail.dropLast, c ∈ cs := fun c hc =>
    hsub c (List.mem_of_mem_tail (List.mem_of_mem_dropLast hc))
  refine ⟨fun hcls => ⟨?_, ?_, quote_not_mem_of_mem_cut cs p hp hcls⟩, ?_⟩
  · exact fun hmem => hfeed (hinner _ hmem)
  · exact fun hmem => hreturn (hinner _ hmem)
  · exact fun hmem => hfeed (hsub _ hmem)

end Piece

namespace Layout

theorem clean_scanPieces {pieces : List Piece} (h : ∀ p ∈ pieces, p.Clean)
    (number offset : Nat) : ∀ t ∈ (scanPieces number offset pieces).tokens, t.Clean := by
  induction pieces generalizing offset with
  | nil => simp [scanPieces]
  | cons p pieces ih =>
    obtain ⟨hp, hpieces⟩ := List.forall_mem_cons.1 h
    have hrest := ih hpieces (offset + Text.size p.chars)
    unfold scanPieces
    rcases hcls : p.cls with _ | _ | kind | _ | _
    · exact hrest
    · exact hrest
    · refine List.forall_mem_cons.2 ⟨⟨fun s hs => ?_, fun _ => ?_⟩, hrest⟩
      · cases kind with
        | text =>
          cases hs
          rw [String.toList_ofList]
          exact hp.text hcls
        | number => cases hs
        | _ => cases hs
      · rw [String.toList_ofList]
        exact hp.line
    · exact hrest
    · exact hrest

theorem clean_shift (levels : List Indent) (current : Indent) {mark : Token}
    (hliteral : mark.literal = none) (hkind : mark.kind = .indent) :
    ∀ t ∈ (shift levels current mark).2.tokens, t.Clean := by
  have hmark : mark.Clean := Token.clean_of_structural hliteral (by rw [hkind]; rfl)
  intro t ht
  unfold shift at ht
  split at ht
  · cases ht
  · split at ht
    · rwa [List.mem_singleton.1 ht]
    · rw [(List.mem_replicate.1 ht).2]
      exact Token.clean_of_structural rfl rfl

theorem clean_scanLine (levels : List Indent) (number offset : Nat) {l : Text.Line}
    (hfeed : '\n' ∉ l.text) (hreturn : '\r' ∉ l.text) :
    ∀ t ∈ (scanLine levels number offset l).2.tokens, t.Clean := by
  have hbody : ∀ c ∈ l.text.dropWhile Indent.isPart, c ∈ l.text := fun c hc =>
    (List.dropWhile_suffix Indent.isPart).mem hc
  intro t ht
  unfold scanLine at ht
  dsimp only at ht
  split at ht
  · cases ht
  · rcases List.mem_append.1 ht with ht | ht
    · rcases List.mem_append.1 ht with ht | ht
      · exact clean_shift _ _ rfl rfl t ht
      · refine clean_scanPieces (Piece.clean_of_mem_cut ?_ ?_) _ _ t ht
        · exact fun hmem => hfeed (hbody _ hmem)
        · exact fun hmem => hreturn (hbody _ hmem)
    · rw [List.mem_singleton.1 ht]
      exact Token.clean_of_structural rfl rfl

theorem clean_scanFrom (levels : List Indent) (number offset : Nat) (ended : Bool)
    {ls : List Text.Line} (h : ∀ l ∈ ls, '\n' ∉ l.text ∧ '\r' ∉ l.text) :
    ∀ t ∈ (scanFrom levels number offset ended ls).tokens, t.Clean := by
  induction ls generalizing levels number offset ended with
  | nil =>
    intro t ht
    rcases List.mem_append.1 ht with ht | ht
    · rw [(List.mem_replicate.1 ht).2]
      exact Token.clean_of_structural rfl rfl
    · rw [List.mem_singleton.1 ht]
      exact Token.clean_of_structural rfl rfl
  | cons l ls ih =>
    obtain ⟨hl, hls⟩ := List.forall_mem_cons.1 h
    intro t ht
    rcases List.mem_append.1 ht with ht | ht
    · exact clean_scanLine levels _ offset hl.1 hl.2 t ht
    · exact ih _ _ _ _ hls t ht

/-- The tokens of a text without carriage returns. -/
theorem clean_scan {cs : List Char} (h : '\r' ∉ cs) :
    ∀ t ∈ (scan cs).tokens, t.Clean := by
  refine clean_scanFrom _ _ _ _ fun l hl => ?_
  obtain ⟨as, bs, hsplit⟩ := List.append_of_mem hl
  have hreg := Text.regular_lines cs
  rw [hsplit] at hreg
  refine ⟨hreg.middle.2.1, fun hmem => h ?_⟩
  rw [← Text.flatMap_chars_lines cs]
  exact List.mem_flatMap.2 ⟨l, hl, List.mem_append_left _ hmem⟩

end Layout

/-! ### Programs -/

namespace Grammar

/-- Literals can hold the texts of what the grammar derives. -/
def Phrase.Clean : Phrase → Prop
  | .expression _ e => e.Clean
  | .arguments es => Expr.AllClean es
  | .parameters _ => True
  | .statement s => s.Clean
  | .statements ss => Stmt.AllClean ss
  | .block ss => Stmt.AllClean ss
  | .alternatives r => r.Clean
  | .program ss => Stmt.AllClean ss

theorem Denotes.clean {t : Token} {c : Constant} (h : Denotes t c) (ht : t.Clean) :
    c.Clean := by
  rintro s rfl
  cases h with
  | text _ hliteral => exact ht.literal s hliteral

theorem Derives.clean {ph : Phrase} {ts : List Token} (h : Derives ph ts)
    (hts : ∀ t ∈ ts, t.Clean) : ph.Clean := by
  induction h with
  | constant hc => exact hc.clean (hts _ List.mem_cons_self)
  | @binary rank t c l r ts us _ _ _ ih ih' =>
    obtain ⟨hts, ht⟩ := List.forall_mem_append.1 hts
    obtain ⟨-, hus⟩ := List.forall_mem_cons.1 ht
    cases c with
    | binary op => exact ⟨ih hts, ih' hus⟩
    | logical op => exact ⟨ih hts, ih' hus⟩
  | define _ hname _ _ _ ih =>
    simp only [List.forall_mem_cons] at hts
    obtain ⟨-, hname', -, -, hts⟩ := hts
    exact ⟨hname'.name hname, ih hts⟩
  | defineWith _ hname _ _ _ _ _ _ _ ih =>
    simp only [List.forall_mem_cons, List.forall_mem_append] at hts
    obtain ⟨-, hname', -, -, -, -, hts⟩ := hts
    exact ⟨hname'.name hname, ih hts⟩
  | _ =>
    simp_all [Phrase.Clean, Expr.Clean, Expr.AllClean, Stmt.Clean, Stmt.AllClean,
      Else.Clean, or_imp, forall_and]

/-- The programs of texts without carriage returns. -/
theorem clean_of_read {cs : List Char} {program : List Stmt} (hreturn : '\r' ∉ cs)
    (h : read cs = .ok program) : Stmt.AllClean program :=
  (read_eq_ok_iff.1 h).2.clean (Layout.clean_scan hreturn)

end Grammar

/-! ### Values -/

/-- A function as a program defines it. -/
structure Closure.Clean (f : Closure) : Prop where
  name : '\n' ∉ f.name.toList
  body : Stmt.AllClean f.body

/-- A value that a program of such texts can come to. -/
structure Value.Clean (v : Value) : Prop where
  text : ∀ s, v = .text s → Text.Clean s.toList
  function : ∀ f, v = .function f → f.Clean

namespace Value

theorem clean_bool (b : Bool) : (bool b).Clean := ⟨by simp, by simp⟩

theorem clean_empty : empty.Clean := ⟨by simp, by simp⟩

theorem clean_number (x : Number) : (number x).Clean := ⟨by simp, by simp⟩

theorem clean_native (n : Native) : (native n).Clean := ⟨by simp, by simp⟩

theorem clean_function {f : Closure} (h : f.Clean) : (function f).Clean where
  text := by simp
  function g hg := Value.function.inj hg ▸ h

theorem clean_ofConstant {c : Constant} (h : c.Clean) : (ofConstant c).Clean := by
  cases c with
  | text s => exact ⟨fun s' hs => h s' (by rw [← Value.text.inj hs]), by simp [ofConstant]⟩
  | bool b => exact clean_bool b
  | empty => exact clean_empty
  | number x => exact clean_number x

end Value

theorem UnaryOp.clean_apply {op : UnaryOp} {v w : Value} (h : op.apply v = .ok w) :
    w.Clean := by
  unfold apply at h
  split at h
  · rw [← Except.ok.inj h]
    exact Value.clean_number _
  · cases h
  · rw [← Except.ok.inj h]
    exact Value.clean_bool _
  · cases h

theorem BinaryOp.clean_applyNumbers {op : BinaryOp} {x y : Number} {w : Value}
    (h : op.applyNumbers x y = .ok w) : w.Clean := by
  cases op with
  | divide =>
    rw [applyNumbers] at h
    split at h
    · cases h
    · rw [← Except.ok.inj h]
      exact Value.clean_number _
  | add | subtract | multiply =>
    rw [← Except.ok.inj h]
    exact Value.clean_number _
  | _ =>
    rw [← Except.ok.inj h]
    exact Value.clean_bool _

/-- Addition puts texts together, and no other operator makes a text. -/
theorem BinaryOp.clean_apply {op : BinaryOp} {a b w : Value} (ha : a.Clean)
    (hb : b.Clean) (h : op.apply a b = .ok w) : w.Clean := by
  unfold apply at h
  split at h
  · rw [← Except.ok.inj h]
    exact Value.clean_bool _
  · rw [← Except.ok.inj h]
    exact Value.clean_bool _
  · split at h
    · exact clean_applyNumbers h
    · rename_i s t
      rw [← Except.ok.inj h]
      refine ⟨fun u hu => ?_, by simp⟩
      rw [← Value.text.inj hu, String.toList_append]
      exact (ha.text s rfl).append (hb.text t rfl)
    · cases h
  · split at h
    · exact clean_applyNumbers h
    · cases h

/-! ### Display -/

theorem Decimal.not_mem_toChars (d : Decimal) : '\n' ∉ d.toChars := by
  have hdigits : ∀ n, '\n' ∉ Nat.toDigits 10 n := fun n hmem => by
    have := Nat.isDigit_of_mem_toDigits (by decide) (by decide) hmem
    cases this
  unfold toChars
  split
  · exact hdigits _
  · simp [paddedDigits, hdigits]

theorem Number.not_mem_toText (x : Number) : '\n' ∉ (x.toText "infinity").toList := by
  have hdigits : '\n' ∉
      (if x.isInfinite then "infinity" else String.ofList x.shortestDecimal.toChars).toList := by
    split
    · decide
    · rw [String.toList_ofList]
      exact x.shortestDecimal.not_mem_toChars
  unfold toText
  dsimp only
  generalize (if x.isInfinite then "infinity" else _) = digits at hdigits ⊢
  split
  · decide
  · split
    · simpa [String.toList_append] using hdigits
    · exact hdigits

/-- A value is displayed on one line. -/
theorem Value.not_mem_toText {v : Value} (h : v.Clean) : '\n' ∉ v.toText.toList := by
  cases v with
  | bool b => cases b <;> decide
  | empty => decide
  | number x => exact x.not_mem_toText
  | text s => exact (h.text s rfl).1
  | native n => cases n <;> decide
  | function f =>
    have hname := (h.function f rfl).name
    simp [toText, String.toList_append, hname]

/-! ### Stores -/

namespace Store

/-- Literals can hold the texts of all variables. -/
def Clean (s : Store) : Prop := ∀ a v, s.value? a = some v → v.Clean

theorem clean_initial : initial.Clean := by
  intro a v hv
  obtain ⟨n, rfl⟩ := native_of_initial hv
  exact Value.clean_native n

variable {s : Store}

theorem Clean.getAt? (h : s.Clean) {frame distance : Nat} {name : String} {v : Value}
    (hv : s.getAt? frame distance name = some v) : v.Clean := by
  rw [getAt?_eq] at hv
  obtain ⟨target, -, hvalue⟩ := Option.bind_eq_some_iff.1 hv
  exact h _ _ hvalue

theorem Clean.alloc (h : s.Clean) (parent : Nat) {bindings : Bindings}
    (hbindings : ∀ n v, bindings.lookup n = some v → v.Clean) :
    (s.alloc parent bindings).2.Clean := by
  intro a v hv
  rw [value?_alloc] at hv
  split at hv
  · exact hbindings _ _ hv
  · exact h _ _ hv

theorem Clean.update (h : s.Clean) (frame : Nat) (name : String) {v : Value}
    (hv : v.Clean) : (s.update frame name v).Clean := by
  intro a w hw
  rw [value?_update] at hw
  split at hw
  · rwa [← Option.some.inj hw]
  · exact h _ _ hw

theorem Clean.define (h : s.Clean) (frame : Nat) (name : String) {v : Value}
    (hv : v.Clean) : (s.define frame name v).Clean := by
  intro a w hw
  by_cases hframe : frame < s.frames.size
  · rw [value?_define _ _ _ _ hframe] at hw
    split at hw
    · rwa [← Option.some.inj hw]
    · exact h _ _ hw
  · -- there is no such frame, so nothing is bound
    refine h a w (Eq.trans ?_ hw)
    simp only [Store.define, value?, Array.getElem?_modify]
    split
    · subst_vars
      simp [Array.getElem?_eq_none (Nat.le_of_not_lt hframe)]
    · rfl

end Store

end Offside
