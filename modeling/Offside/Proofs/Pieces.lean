import Mathlib.Data.List.Infix
import Mathlib.Data.List.TakeWhile
import Offside.Piece

/-!
# What pieces look like

A piece of a text is a gap, a comment, a text literal, a text literal left open, or something plain,
which holds no blank, no quote and no comment. Which of these it is shows in its first character and
the one after it.

* `Piece.Shape`: a class and a length that fit what a piece starts with;
* `Piece.shape_classify`: every piece has the shape of its class;
* `Piece.Passed`: the characters of a line that scanning passes over, told by quotes and slashes;
* `Piece.kept_iff`: these are the characters of gaps and comments.
-/

namespace Offside

/-- The classes of pieces that can be plain. -/
def PieceClass.isPlain : PieceClass → Bool
  | .token _ | .stray => true
  | _ => false

/-- The classes of pieces that scanning does not pass over. -/
def PieceClass.isKept : PieceClass → Bool
  | .gap | .comment => false
  | _ => true

namespace Piece

/-! ### Rows of characters -/

theorem take_run (p : Char → Bool) (cs : List Char) : cs.take (run p cs) = cs.takeWhile p :=
  (List.prefix_iff_eq_take.1 (List.takeWhile_prefix p)).symm

theorem drop_run (p : Char → Bool) (cs : List Char) : cs.drop (run p cs) = cs.dropWhile p := by
  have hsplit : cs.takeWhile p ++ cs.dropWhile p = cs := List.takeWhile_append_dropWhile
  have hdrop : (cs.takeWhile p ++ cs.dropWhile p).drop (run p cs) = cs.dropWhile p := List.drop_left
  rwa [hsplit] at hdrop

theorem of_mem_take_run {p : Char → Bool} {cs : List Char} {c : Char} (h : c ∈ cs.take (run p cs)) :
    p c = true := by
  rw [take_run] at h
  exact List.mem_takeWhile_imp h

/-! ### Characters of plain pieces -/

/-- The characters that a gap, a comment or a text literal starts with. -/
def openers : List Char := [' ', '\t', '\r', '\x0c', '/', '"']

/-- A character that is no blank, no quote and no slash. -/
def Solid (c : Char) : Prop := c ∉ openers

theorem Solid.isGap {c : Char} (h : Solid c) : isGap c = false := by
  unfold Piece.isGap
  simp only [Solid, openers, List.mem_cons, not_or] at h
  simp [h]

theorem Solid.ne_slash {c : Char} (h : Solid c) : c ≠ '/' := by
  rintro rfl
  exact h (by decide)

theorem Solid.ne_quote {c : Char} (h : Solid c) : c ≠ '"' := by
  rintro rfl
  exact h (by decide)

theorem solid_of_class {p : Char → Bool} (hp : openers.any p = false) {c : Char}
    (h : p c = true) : Solid c :=
  fun hmem => List.any_eq_false.1 hp c hmem h

theorem solid_of_isDigit {c : Char} (h : isDigit c = true) : Solid c := solid_of_class (by decide) h

theorem solid_of_isWordPart {c : Char} (h : isWordPart c = true) : Solid c :=
  solid_of_class (by decide) h

theorem solid_of_mem_fraction {cs : List Char} {c : Char} (h : c ∈ cs.take (fractionLength cs)) :
    Solid c := by
  unfold fractionLength at h
  split at h
  · split at h
    · cases h
    · rw [List.take_succ_cons] at h
      rcases List.mem_cons.1 h with rfl | h
      · exact solid_of_class (p := (· = '.')) (by decide) rfl
      · exact solid_of_isDigit (of_mem_take_run h)
  · cases h

theorem solid_of_doubleMark? {c d : Char} {kind : Kind} (h : doubleMark? c d = some kind) :
    Solid d := by
  unfold doubleMark? at h
  split at h
  · exact solid_of_class (p := (· = '=')) (by decide) rfl
  · exact solid_of_class (p := (· = '=')) (by decide) rfl
  · cases h

/-! ### Shapes -/

/-- The class and the further length of a piece that starts with `c` before `rest`. -/
inductive Shape (c : Char) (rest : List Char) : PieceClass → Nat → Prop
  | gap : isGap c = true → Shape c rest .gap (run isGap rest)
  | comment : c = '/' → rest.head? = some '/' → Shape c rest .comment (run (· ≠ '\n') rest)
  | text : c = '"' → (rest.dropWhile isTextPart).head? = some '"' →
    Shape c rest (.token .text) (run isTextPart rest + 1)
  | openText : c = '"' → (rest.dropWhile isTextPart).head? ≠ some '"' →
    Shape c rest .openText (run isTextPart rest)
  | plain {cls : PieceClass} {length : Nat} : cls.isPlain = true → isGap c = false → c ≠ '"' →
    (c = '/' → rest.head? ≠ some '/') → (∀ x ∈ rest.take length, Solid x) →
    Shape c rest cls length

theorem shape_classify (c : Char) (rest : List Char) :
    Shape c rest (classify c rest).1 (classify c rest).2 := by
  unfold classify
  split
  · next hgap => exact .gap hgap
  · next hgap =>
    rw [Bool.not_eq_true] at hgap
    split
    · next hcomment =>
      simp only [Bool.and_eq_true, decide_eq_true_eq] at hcomment
      exact .comment hcomment.1 hcomment.2
    · next hcomment =>
      have hslash : c = '/' → rest.head? ≠ some '/' := by
        rintro rfl hhead
        exact hcomment (by simp [hhead])
      split
      · next hquote =>
        dsimp only
        rw [drop_run]
        split
        · next hclosed => exact .text hquote hclosed
        · next hopen => exact .openText hquote hopen
      · next hquote =>
        split
        · refine .plain rfl hgap hquote hslash fun x hx => ?_
          rw [List.take_add] at hx
          rcases List.mem_append.1 hx with hx | hx
          · exact solid_of_isDigit (of_mem_take_run hx)
          · exact solid_of_mem_fraction hx
        · split
          · exact .plain rfl hgap hquote hslash fun x hx => solid_of_isWordPart (of_mem_take_run hx)
          · split
            · next kind hmark =>
              refine .plain rfl hgap hquote hslash fun x hx => ?_
              obtain ⟨d, hd, hmark⟩ := Option.bind_eq_some_iff.1 hmark
              obtain ⟨tail, rfl⟩ := List.head?_eq_some_iff.1 hd
              rw [List.mem_singleton.1 hx]
              exact solid_of_doubleMark? hmark
            · split
              · exact .plain rfl hgap hquote hslash (by simp)
              · exact .plain rfl hgap hquote hslash (by simp)

/-- Induction along the pieces of a text. -/
theorem cut_induction {P : List Char → Prop} (nil : P [])
    (cons : ∀ c rest, P (rest.drop (classify c rest).2) → P (c :: rest)) (cs : List Char) : P cs := by
  suffices h : ∀ n, ∀ cs : List Char, cs.length ≤ n → P cs from h _ cs (Nat.le_refl _)
  intro n
  induction n with
  | zero =>
    intro cs hcs
    rw [List.length_eq_zero_iff.1 (Nat.le_zero.1 hcs)]
    exact nil
  | succ n ih =>
    intro cs hcs
    cases cs with
    | nil => exact nil
    | cons c rest =>
      refine cons c rest (ih _ ?_)
      rw [List.length_drop]
      rw [List.length_cons] at hcs
      omega

/-! ### Comments -/

/-- A place on a line outside of text literals: an even number of quotes stands before it. -/
def Unquoted (before : List Char) : Prop := before.count '"' % 2 = 0

/-- A comment of a line has started by its character `n`: two slashes stand there, or before it,
outside of text literals. -/
def Commented (text : List Char) (n : Nat) : Prop :=
  ∃ start rest, text = start ++ '/' :: '/' :: rest ∧ start.length ≤ n ∧ Unquoted start

theorem Unquoted.append {as bs : List Char} (h : Unquoted as) (hbs : '"' ∉ bs) :
    Unquoted (as ++ bs) := by
  rw [Unquoted, List.count_append, List.count_eq_zero.2 hbs]
  exact h

theorem Unquoted.not_in_text {as bs : List Char} (h : Unquoted as) (hbs : '"' ∉ bs) :
    ¬Unquoted (as ++ '"' :: bs) := by
  unfold Unquoted at *
  rw [List.count_append, List.count_cons_self, List.count_eq_zero.2 hbs]
  omega

theorem Unquoted.after_text {as bs : List Char} (h : Unquoted as) (hbs : '"' ∉ bs) :
    Unquoted (as ++ '"' :: (bs ++ ['"'])) := by
  unfold Unquoted at *
  rw [List.count_append, List.count_cons_self, List.count_append, List.count_eq_zero.2 hbs,
    List.count_singleton_self]
  omega

/-- No comment starts in a stretch of a line if none of its places outside of text literals has two
slashes. -/
theorem not_commented_append {text a z rest : List Char} (htext : text = a ++ z ++ rest)
    (ha : ∀ n < a.length, ¬Commented text n)
    (hz : ∀ u v, z = u ++ '/' :: v → (v ++ rest).head? = some '/' → ¬Unquoted (a ++ u)) :
    ∀ n < (a ++ z).length, ¬Commented text n := by
  rintro n hn ⟨start, tail, hstart, hle, hquotes⟩
  by_cases hshort : start.length < a.length
  · exact ha _ hshort ⟨start, tail, hstart, Nat.le_refl _, hquotes⟩
  · -- the slashes stand after `a`, and before the end of `z`
    obtain ⟨u, rfl⟩ : a <+: start :=
      List.prefix_of_prefix_length_le ⟨z ++ rest, by rw [htext, List.append_assoc]⟩
        ⟨_, hstart.symm⟩ (Nat.le_of_not_lt hshort)
    have htail : z ++ rest = u ++ '/' :: '/' :: tail := by
      rw [htext, List.append_assoc, List.append_assoc] at hstart
      exact List.append_cancel_left hstart
    rw [List.length_append] at hle hn
    obtain ⟨w, rfl⟩ : u <+: z :=
      List.prefix_of_prefix_length_le ⟨_, htail.symm⟩ (List.prefix_append z rest) (by omega)
    rw [List.append_assoc] at htail
    cases w with
    | nil =>
      rw [List.append_nil] at hn
      omega
    | cons c v =>
      obtain ⟨rfl, hv⟩ := List.cons.inj (List.append_cancel_left htail)
      exact hz u v rfl (congrArg List.head? hv) hquotes

/-- A line read up to a place outside of text literals and comments. -/
structure Reached (text before : List Char) : Prop where
  unquoted : Unquoted before
  uncommented : ∀ n < before.length, ¬Commented text n

/-- A character of a line that is passed over: a blank outside of text literals, or a part of a
comment. -/
def Passed (text before : List Char) (c : Char) : Prop :=
  isGap c = true ∧ Unquoted before ∨ Commented text before.length

/-- What a piece tells of its characters: they are passed over exactly if the piece is a gap or a
comment. -/
def Tells (text before : List Char) (p : Piece) : Prop :=
  ∀ x c y, p.chars = x ++ c :: y → (p.cls.isKept = true ↔ ¬Passed text (before ++ x) c)

section Reading

variable {text a rest : List Char} {c : Char}

/-- An element of two lists in a row stands in the first or in the second. -/
theorem append_eq_append_cons {α : Type} {as bs x y : List α} {e : α} (h : as ++ bs = x ++ e :: y) :
    (∃ u, as = x ++ e :: u) ∨ ∃ x', x = as ++ x' ∧ bs = x' ++ e :: y := by
  rcases List.append_eq_append_iff.1 h with ⟨x', hx, hbs⟩ | ⟨u, has, hu⟩
  · exact .inr ⟨x', hx, hbs⟩
  · cases u with
    | nil => exact .inr ⟨[], by simpa using has.symm, by simpa using hu.symm⟩
    | cons f u =>
      obtain ⟨rfl, -⟩ := List.cons.inj hu
      exact .inl ⟨u, has⟩

theorem mem_of_append_cons {x y z : List Char} {c : Char} (h : z = x ++ c :: y) :
    c ∈ z ∧ ∀ d ∈ x, d ∈ z := by
  subst h
  exact ⟨by simp, fun d hd => by simp [hd]⟩

theorem gap_tells {z : List Char} (ha : Reached text a) (hz : ∀ d ∈ z, isGap d = true) :
    Tells text a ⟨.gap, z⟩ := by
  intro x d y hsplit
  obtain ⟨hd, hx⟩ := mem_of_append_cons hsplit
  have hquote : '"' ∉ x := fun hmem => absurd (hz _ (hx _ hmem)) (by decide)
  exact ⟨nofun, fun h => absurd (.inl ⟨hz d hd, ha.unquoted.append hquote⟩) h⟩

theorem comment_tells {z : List Char} (htext : text = a ++ '/' :: '/' :: rest) (ha : Reached text a) :
    Tells text a ⟨.comment, z⟩ := by
  intro x d y _
  refine ⟨nofun, fun h => absurd (.inr ⟨a, rest, htext, ?_, ha.unquoted⟩) h⟩
  rw [List.length_append]
  exact Nat.le_add_right _ _

/-- A stretch of kept characters: none is a blank outside of text literals, and no comment starts. -/
theorem kept_tells {z after : List Char} {cls : PieceClass} (hcls : cls.isKept = true)
    (htext : text = a ++ z ++ after) (ha : Reached text a)
    (hgap : ∀ x d y, z = x ++ d :: y → isGap d = true → ¬Unquoted (a ++ x))
    (hslash : ∀ u v, z = u ++ '/' :: v → (v ++ after).head? = some '/' → ¬Unquoted (a ++ u)) :
    Tells text a ⟨cls, z⟩ := by
  intro x d y hsplit
  have hlength : (a ++ x).length < (a ++ z).length := by
    have : z = x ++ d :: y := hsplit
    simp [this]
  refine ⟨fun _ => ?_, fun _ => hcls⟩
  rintro (⟨hblank, hquotes⟩ | hcomment)
  · exact hgap x d y hsplit hblank hquotes
  · exact not_commented_append htext ha.uncommented hslash _ hlength hcomment

theorem reached_append {z after : List Char} (htext : text = a ++ z ++ after) (ha : Reached text a)
    (hquotes : Unquoted (a ++ z))
    (hslash : ∀ u v, z = u ++ '/' :: v → (v ++ after).head? = some '/' → ¬Unquoted (a ++ u)) :
    Reached text (a ++ z) :=
  ⟨hquotes, not_commented_append htext ha.uncommented hslash⟩

/-- What precedes a character of a text literal, after its opening quote, holds no quote. -/
theorem not_mem_of_text {inner close x y : List Char} {d : Char} (hinner : '"' ∉ inner)
    (hclose : close = [] ∨ close = ['"']) (h : inner ++ close = x ++ d :: y) : '"' ∉ x := by
  have hlength : x.length ≤ inner.length := by
    have := congrArg List.length h
    simp only [List.length_append, List.length_cons] at this
    rcases hclose with rfl | rfl <;> simp at this <;> omega
  have hinit : x <+: inner :=
    List.prefix_of_prefix_length_le ⟨_, h.symm⟩ (List.prefix_append inner close) hlength
  exact fun hmem => hinner (hinit.subset hmem)

theorem text_gap {inner : List Char} (close : List Char) (ha : Unquoted a) (hinner : '"' ∉ inner)
    (hclose : close = [] ∨ close = ['"']) :
    ∀ x d y, '"' :: (inner ++ close) = x ++ d :: y → d ≠ '"' → ¬Unquoted (a ++ x) := by
  intro x d y hsplit hd
  cases x with
  | nil => exact absurd (List.cons.inj hsplit).1.symm hd
  | cons e x =>
    obtain ⟨rfl, htail⟩ := List.cons.inj hsplit
    exact ha.not_in_text (not_mem_of_text hinner hclose htail)

theorem quote_not_mem_takeWhile (cs : List Char) : '"' ∉ cs.takeWhile isTextPart :=
  fun hmem => absurd (List.mem_takeWhile_imp hmem) (by decide)

/-- What a text literal takes after its first quote: the inner characters and the second quote. -/
theorem take_closed {cs : List Char} (h : (cs.dropWhile isTextPart).head? = some '"') :
    cs.take (run isTextPart cs + 1) = cs.takeWhile isTextPart ++ ['"'] := by
  obtain ⟨tail, htail⟩ := List.head?_eq_some_iff.1 h
  rw [List.take_add, take_run, drop_run, htail]
  rfl

/-- A piece tells of its characters, and reading goes on after it outside of text literals and
comments, unless it ends the line. -/
theorem Shape.tells {cls : PieceClass} {length : Nat} (h : Shape c rest cls length)
    (htext : text = a ++ c :: rest) (hline : '\n' ∉ rest) (ha : Reached text a) :
    Tells text a ⟨cls, c :: rest.take length⟩ ∧
      (rest.drop length = [] ∨ Reached text (a ++ c :: rest.take length)) := by
  have hsplit : text = a ++ (c :: rest.take length) ++ rest.drop length := by
    rw [htext]
    simp
  cases h with
  | gap hc =>
    have hz : ∀ d ∈ c :: rest.take (run isGap rest), isGap d = true :=
      List.forall_mem_cons.2 ⟨hc, fun d hd => of_mem_take_run hd⟩
    refine ⟨gap_tells ha hz, .inr (reached_append hsplit ha (ha.unquoted.append ?_) ?_)⟩
    · exact fun hmem => absurd (hz _ hmem) (by decide)
    · intro u v huv
      exact absurd (hz _ (mem_of_append_cons huv).1) (by decide)
  | comment hc hrest =>
    obtain ⟨tail, rfl⟩ := List.head?_eq_some_iff.1 hrest
    subst hc
    refine ⟨comment_tells htext ha, .inl ?_⟩
    rw [drop_run, List.dropWhile_eq_nil_iff]
    exact fun d hd => decide_eq_true fun heq => hline (heq ▸ hd)
  | text hc hclosed =>
    subst hc
    have hinner := quote_not_mem_takeWhile rest
    rw [take_closed hclosed] at hsplit ⊢
    have hgap := text_gap ['"'] ha.unquoted hinner (.inr rfl)
    refine ⟨kept_tells rfl hsplit ha (fun x d y h hd => hgap x d y h ?_)
      (fun u v h _ => hgap u _ v h (by decide)),
      .inr (reached_append hsplit ha (ha.unquoted.after_text hinner)
        fun u v h _ => hgap u _ v h (by decide))⟩
    rintro rfl
    cases hd
  | openText hc hopen =>
    subst hc
    have hinner := quote_not_mem_takeWhile rest
    have hgap := text_gap [] ha.unquoted hinner (.inl rfl)
    rw [List.append_nil, ← take_run] at hgap
    refine ⟨kept_tells rfl hsplit ha (fun x d y h hd => hgap x d y h ?_)
      (fun u v h _ => hgap u _ v h (by decide)), .inl ?_⟩
    · rintro rfl
      cases hd
    · -- what the literal leaves of the line would start with a quote or a line feed
      rw [drop_run]
      cases hdrop : rest.dropWhile isTextPart with
      | nil => rfl
      | cons d tail =>
        have hd : isTextPart d = false := by
          have := List.head?_dropWhile_not isTextPart rest
          rw [hdrop] at this
          simpa using this
        have hmem : d ∈ rest := (List.dropWhile_sublist _).mem (hdrop ▸ List.mem_cons_self)
        rw [hdrop, List.head?_cons, ne_eq, Option.some.injEq] at hopen
        simp only [isTextPart, Bool.and_eq_false_iff, decide_eq_false_iff_not, not_not] at hd
        rcases hd with rfl | rfl
        · exact absurd rfl hopen
        · exact absurd hmem hline
  | plain hplain hgap hquote hslash hsolid =>
    have hslashes : ∀ u v, c :: rest.take length = u ++ '/' :: v →
        (v ++ rest.drop length).head? = some '/' → ¬Unquoted (a ++ u) := by
      intro u v huv hhead
      cases u with
      | nil =>
        obtain ⟨rfl, rfl⟩ := List.cons.inj huv
        rw [List.take_append_drop] at hhead
        exact absurd hhead (hslash rfl)
      | cons e u =>
        obtain ⟨rfl, htail⟩ := List.cons.inj huv
        exact absurd rfl (hsolid _ (mem_of_append_cons htail).1).ne_slash
    refine ⟨kept_tells ?_ hsplit ha (fun x d y h hd => ?_) hslashes,
      .inr (reached_append hsplit ha (ha.unquoted.append ?_) hslashes)⟩
    · cases cls with
      | token kind => rfl
      | stray => rfl
      | _ => cases hplain
    · have hnot : isGap d = false := by
        rcases List.mem_cons.1 (mem_of_append_cons h).1 with rfl | hmem
        · exact hgap
        · exact (hsolid d hmem).isGap
      rw [hnot] at hd
      cases hd
    · intro hmem
      rcases List.mem_cons.1 hmem with rfl | hmem
      · exact hquote rfl
      · exact (hsolid _ hmem).ne_quote rfl

end Reading

/-- The characters of a piece, each with whether scanning keeps it. -/
def shown (p : Piece) : List (Char × Bool) := p.chars.map (·, p.cls.isKept)

/-- Scanning keeps exactly the characters of a line that are not passed over. The induction goes along
the pieces, with what has been read before them. -/
theorem kept_iff {text : List Char} (hline : '\n' ∉ text) (rest : List Char) {before : List Char}
    (htext : text = before ++ rest) (hbefore : Reached text before) {x y : List (Char × Bool)}
    {c : Char} {kept : Bool} (h : (cut rest).flatMap shown = x ++ (c, kept) :: y) :
    kept = true ↔ ¬Passed text (before ++ x.map Prod.fst) c := by
  induction rest using cut_induction generalizing before x with
  | nil => simp at h
  | cons d rest ih =>
    have hrest : '\n' ∉ rest := fun hmem => hline (by rw [htext]; simp [hmem])
    obtain ⟨htells, hnext⟩ := (shape_classify d rest).tells htext hrest hbefore
    rw [cut_cons, List.flatMap_cons] at h
    generalize hp : (⟨(classify d rest).1, d :: rest.take (classify d rest).2⟩ : Piece) = p at h htells
    have hchars : d :: rest.take (classify d rest).2 = p.chars := by rw [← hp]
    rw [hchars] at hnext
    -- the character belongs to this piece, or to a later one
    rcases append_eq_append_cons h with ⟨u, hu⟩ | ⟨x', rfl, hx'⟩
    · have hmap : p.chars = x.map Prod.fst ++ c :: u.map Prod.fst := by
        have := congrArg (List.map Prod.fst) hu
        simpa [shown, Function.comp_def] using this
      have hkept : kept = p.cls.isKept := by
        have hmem : (c, kept) ∈ p.shown := by simp [hu]
        obtain ⟨_, -, heq⟩ := List.mem_map.1 hmem
        exact (Prod.mk.inj heq).2.symm
      rw [hkept]
      exact htells _ _ _ hmap
    · rcases hnext with hnil | hreached
      · rw [hnil] at hx'
        simp at hx'
      · have hsplit : text = before ++ p.chars ++ rest.drop (classify d rest).2 := by
          rw [htext, ← hchars]
          simp
        have hlater := ih hsplit hreached hx'
        simpa [shown, Function.comp_def] using hlater

end Piece

end Offside
