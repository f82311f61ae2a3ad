import Mathlib.Data.List.Forall2
import Mathlib.Tactic.Linarith
import Mathlib.Tactic.Ring
import Offside.Proofs.Levels

/-!
# The width of a tab

Indentation is measured twice only, with tabs at their widest and with tabs as one column. That is
enough for all widths between the two. If every line is indented by tabs and then spaces, its column
for a width in between is a weighted mean of its two measures. Lines and levels that both measures
compare alike are compared alike by every mean of the two, so a text whose lines all fit the open
levels has the same tokens for every width.

* `TabsFirst`: blanks that are tabs and then spaces;
* `Indent.atWidth`: the indentation that blanks make for a given width of a tab;
* `Layout.scanBy`: the tokens and faults of a text, with any measure of indentation;
* `Indent.Mixes`: an indentation whose column is a weighted mean of the measures of another;
* `Layout.shift_mixes`: levels opened and closed alike, one line;
* `Layout.scanBy_atWidth`: the tokens of a text for every width of a tab.
-/

namespace Offside

/-! ### Tabs and then spaces -/

/-- Some tabs and then some spaces. -/
def TabsFirst (cs : List Char) : Prop :=
  ∃ tabs spaces, cs = List.replicate tabs '\t' ++ List.replicate spaces ' '

theorem tabsFirst_iff {cs : List Char} :
    TabsFirst cs ↔
      cs = List.replicate (cs.count '\t') '\t' ++ List.replicate (cs.count ' ') ' ' := by
  refine ⟨?_, fun h => ⟨_, _, h⟩⟩
  rintro ⟨tabs, spaces, rfl⟩
  simp [List.count_replicate]

instance (cs : List Char) : Decidable (TabsFirst cs) := decidable_of_iff _ tabsFirst_iff.symm

namespace Indent

/-- The indentation that blanks make when each tab is `width` columns wide. -/
def atWidth (width : Nat) (cs : List Char) : Indent :=
  ⟨width * cs.count '\t' + cs.count ' ', cs.count '\t' + cs.count ' '⟩

theorem atWidth_tabsFirst (width tabs spaces : Nat) :
    atWidth width (List.replicate tabs '\t' ++ List.replicate spaces ' ') =
      ⟨width * tabs + spaces, tabs + spaces⟩ := by
  simp [atWidth, List.count_replicate]

theorem foldl_advance_tabs (n : Nat) (tabs : Nat) :
    (List.replicate n '\t').foldl advance ⟨tabStop * tabs, tabs⟩ =
      ⟨tabStop * (tabs + n), tabs + n⟩ := by
  induction n generalizing tabs with
  | zero => rfl
  | succ n ih =>
    have hstep : advance ⟨tabStop * tabs, tabs⟩ '\t' = ⟨tabStop * (tabs + 1), tabs + 1⟩ := by
      simp [advance, tabStop, Nat.mul_comm]
    rw [List.replicate_succ, List.foldl_cons, hstep, ih, Nat.add_assoc, Nat.add_comm 1]

theorem foldl_advance_spaces (n : Nat) (i : Indent) :
    (List.replicate n ' ').foldl advance i = ⟨i.column + n, i.alternate + n⟩ := by
  induction n generalizing i with
  | zero => rfl
  | succ n ih =>
    rw [List.replicate_succ, List.foldl_cons, ih]
    simp only [advance, if_true, Nat.add_assoc, Nat.add_comm 1]

/-- With only tabs before the spaces, each tab takes the line from one tab stop to the next. -/
theorem ofChars_tabsFirst (tabs spaces : Nat) :
    ofChars (List.replicate tabs '\t' ++ List.replicate spaces ' ') =
      ⟨tabStop * tabs + spaces, tabs + spaces⟩ := by
  have htabs : (List.replicate tabs '\t').foldl advance base = ⟨tabStop * tabs, tabs⟩ := by
    simpa [base] using foldl_advance_tabs tabs 0
  rw [ofChars, List.foldl_append, htabs, foldl_advance_spaces]

/-! ### Means of the two measures -/

/-- An indentation `j` that counts tabs as one like `i`, and whose column is the mean of the two
measures of `i` with the weights `p` and `q`. -/
structure Mixes (p q : Nat) (i j : Indent) : Prop where
  column : (p + q) * j.column = p * i.column + q * i.alternate
  alternate : j.alternate = i.alternate

namespace Mixes

variable {p q : Nat} {i i' j j' : Indent}

theorem base (p q : Nat) : Mixes p q Indent.base Indent.base := ⟨by simp [Indent.base], rfl⟩

/-- What is less by both measures is less by every mean of them. -/
theorem column_lt (hweight : 0 < p + q) (hi : Mixes p q i i') (hj : Mixes p q j j')
    (hcolumn : i.column < j.column) (halternate : i.alternate < j.alternate) :
    i'.column < j'.column := by
  have hp : p * (i.column + 1) ≤ p * j.column := Nat.mul_le_mul_left p hcolumn
  have hq : q * (i.alternate + 1) ≤ q * j.alternate := Nat.mul_le_mul_left q halternate
  refine Nat.lt_of_mul_lt_mul_left (a := p + q) ?_
  rw [hi.column, hj.column]
  linarith

theorem column_eq (hweight : 0 < p + q) (hi : Mixes p q i i') (hj : Mixes p q i j') :
    i'.column = j'.column :=
  Nat.eq_of_mul_eq_mul_left hweight (hi.column.trans hj.column.symm)

/-- For tabs and then spaces, a width between one and the distance of the tab stops is a mean. -/
theorem atWidth {width : Nat} (hmin : 1 ≤ width) (hmax : width ≤ tabStop) {cs : List Char}
    (h : TabsFirst cs) :
    Mixes (width - 1) (tabStop - width) (ofChars cs) (Indent.atWidth width cs) := by
  obtain ⟨tabs, spaces, rfl⟩ := h
  obtain ⟨p, rfl⟩ := Nat.exists_eq_add_of_le' hmin
  obtain ⟨q, hq⟩ := Nat.exists_eq_add_of_le hmax
  rw [ofChars_tabsFirst, atWidth_tabsFirst]
  refine ⟨?_, rfl⟩
  dsimp only
  rw [hq, Nat.add_sub_cancel, Nat.add_sub_cancel_left]
  ring

end Mixes

end Indent

namespace Layout

open Indent (Mixes)
open Text (Line)

/-! ### Scanning with another measure -/

/-- The levels open after a line and its tokens and faults, when indentation is measured by
`measure`. -/
def scanLineBy (measure : List Char → Indent) (levels : List Indent) (number offset : Nat)
    (l : Line) : List Indent × Scan :=
  if l.Visible then
    let (levels, opening) := shift levels (measure l.blanks) (mark number offset l)
    (levels, opening ++ scanBody number offset l ++ ⟨[ending number offset l], []⟩)
  else (levels, ⟨[], []⟩)

/-- The tokens and faults of the lines after the first `number`. -/
def scanFromBy (measure : List Char → Indent) (levels : List Indent) (number offset : Nat)
    (ended : Bool) : List Line → Scan
  | [] => close levels number offset ended
  | l :: ls =>
    let (levels, scan) := scanLineBy measure levels (number + 1) offset l
    scan ++ scanFromBy measure levels (number + 1) (offset + l.size) l.ended ls

/-- The tokens and faults of a text when indentation is measured by `measure`. -/
def scanBy (measure : List Char → Indent) (cs : List Char) : Scan :=
  scanFromBy measure [] 0 0 true (Text.lines cs)

theorem scanLineBy_ofChars (levels : List Indent) (number offset : Nat) (l : Line) :
    scanLineBy Indent.ofChars levels number offset l = scanLine levels number offset l := by
  unfold scanLineBy
  split
  · rename_i hvisible
    rw [scanLine_of_visible hvisible]
    rfl
  · rename_i hinvisible
    rw [scanLine_of_invisible hinvisible]

theorem scanFromBy_ofChars (levels : List Indent) (number offset : Nat) (ended : Bool)
    (ls : List Line) :
    scanFromBy Indent.ofChars levels number offset ended ls =
      scanFrom levels number offset ended ls := by
  induction ls generalizing levels number offset ended with
  | nil => rfl
  | cons l ls ih =>
    unfold scanFromBy scanFrom
    rw [scanLineBy_ofChars]
    dsimp only
    rw [ih]

/-- Scanning itself measures with tab stops. -/
theorem scanBy_ofChars (cs : List Char) : scanBy Indent.ofChars cs = scan cs :=
  scanFromBy_ofChars [] 0 0 true (Text.lines cs)

/-! ### Lines that fit the open levels -/

/-- A finding other than that a line fits none of the open levels. -/
def Fitting (d : Diagnostic) : Prop :=
  d.cause ≠ .lexical .inconsistentIndentation ∧ d.cause ≠ .lexical .unmatchedIndentation

instance : DecidablePred Fitting := fun _ => inferInstanceAs (Decidable (_ ∧ _))

/-- How a line fits: it stands at the innermost level, or deeper by both measures, or at the level
that it comes back to. -/
inductive Fits (levels : List Indent) (current : Indent) : Prop
  | same (h : current = top levels)
  | deeper (hcolumn : (top levels).column < current.column)
      (halternate : (top levels).alternate < current.alternate)
  | back (hcolumn : current.column < (top levels).column)
      (hlevel : current = top (keep levels current.column))

theorem fits_of_shift {levels : List Indent} {current : Indent} {mark : Token}
    (h : ∀ d ∈ (shift levels current mark).2.errors, Fitting d) : Fits levels current := by
  have hinconsistent : ¬Fitting (fault mark .inconsistentIndentation) := fun h => h.1 rfl
  have hunmatched : ¬Fitting (fault mark .unmatchedIndentation) := fun h => h.2 rfl
  unfold shift at h
  split at h
  · rename_i hcolumn
    by_cases halternate : current.alternate = (top levels).alternate
    · exact .same (congrArg₂ Indent.mk hcolumn halternate)
    · exact absurd (h _ (by simp [halternate])) hinconsistent
  · rename_i hne
    split at h
    · rename_i hcolumn
      by_cases halternate : (top levels).alternate < current.alternate
      · exact .deeper hcolumn halternate
      · exact absurd (h _ (by simp [deepen, Nat.le_of_not_lt halternate])) hinconsistent
    · rename_i hdeeper
      refine .back (by omega) ?_
      by_cases hcolumn : current.column = (top (keep levels current.column)).column
      · by_cases halternate :
          current.alternate = (top (keep levels current.column)).alternate
        · exact congrArg₂ Indent.mk hcolumn halternate
        · exact absurd (h _ (by simp [shrink, ← hcolumn, halternate])) hinconsistent
      · exact absurd (h _ (by simp [shrink, hcolumn])) hunmatched

theorem top_mem (levels : List Indent) : top levels ∈ levels ++ [Indent.base] := by
  cases levels with
  | nil => exact List.mem_singleton_self _
  | cons l levels => exact List.mem_cons_self

theorem top_keep_mem (levels : List Indent) (column : Nat) :
    top (keep levels column) ∈ levels ++ [Indent.base] :=
  ((keep_suffix levels column).sublist.append_right _).subset (top_mem _)

/-- A line that comes back to a level is less deep than those taken away, also by a measure that does
not decide which these are. -/
theorem Steep.lt_top {measure : Indent → Nat} {levels : List Indent} {current : Indent}
    (h : Steep measure levels) (hcolumn : current.column < (top levels).column)
    (hlevel : current = top (keep levels current.column)) :
    measure current < measure (top levels) := by
  cases levels with
  | nil => exact absurd hcolumn (Nat.not_lt_zero _)
  | cons l levels =>
    have hkeep : keep (l :: levels) current.column = keep levels current.column :=
      List.dropWhile_cons_of_pos (decide_eq_true hcolumn)
    rw [hkeep] at hlevel
    exact (List.pairwise_cons.1 h).1 _ (hlevel ▸ top_keep_mem levels _)

/-! ### Levels that mix the two measures -/

section Mixes

variable {p q : Nat} {levels levels' : List Indent} {current current' : Indent}

theorem mixes_top (h : List.Forall₂ (Mixes p q) levels levels') :
    Mixes p q (top levels) (top levels') := by
  cases h with
  | nil => exact .base p q
  | cons h _ => exact h

variable (hweight : 0 < p + q) (hlevels : List.Forall₂ (Mixes p q) levels levels')
  (hcurrent : Mixes p q current current') (halternate : Steep Indent.alternate levels)
include hweight hlevels hcurrent halternate

/-- A line that comes back to a level keeps the same levels by every mean. The induction is on the
levels, from the innermost: those taken away lie above the one that the line comes back to, by both
measures. -/
theorem keep_mixes (hlevel : current = top (keep levels current.column)) :
    List.Forall₂ (Mixes p q) (keep levels current.column) (keep levels' current'.column) := by
  induction hlevels with
  | nil => exact .nil
  | @cons l l' levels levels' hl hrest ih =>
    by_cases hcolumn : current.column < l.column
    · have hbelow : current.alternate < l.alternate := halternate.lt_top hcolumn hlevel
      have hcolumn' : current'.column < l'.column := hcurrent.column_lt hweight hl hcolumn hbelow
      unfold keep at hlevel ih ⊢
      rw [List.dropWhile_cons_of_pos (by simpa using hcolumn)] at hlevel ⊢
      rw [List.dropWhile_cons_of_pos (by simpa using hcolumn')]
      exact ih (steep_cons.1 halternate).2 hlevel
    · unfold keep at hlevel ⊢
      rw [List.dropWhile_cons_of_neg (by simpa using hcolumn)] at hlevel ⊢
      obtain rfl : current = l := hlevel
      have hcolumn' : ¬current'.column < l'.column :=
        Nat.not_lt.2 (Nat.le_of_eq (hl.column_eq hweight hcurrent))
      rw [List.dropWhile_cons_of_neg (by simpa using hcolumn')]
      exact .cons hl hrest

/-- A line that fits opens and closes the same levels by every mean, without a fault of its own. -/
theorem shift_mixes {mark : Token}
    (hfits : ∀ d ∈ (shift levels current mark).2.errors, Fitting d) :
    List.Forall₂ (Mixes p q) (shift levels current mark).1 (shift levels' current' mark).1 ∧
      (shift levels' current' mark).2 = (shift levels current mark).2 := by
  have htop : Mixes p q (top levels) (top levels') := mixes_top hlevels
  cases fits_of_shift hfits with
  | same h =>
    have hcolumn : current'.column = (top levels').column := hcurrent.column_eq hweight (h ▸ htop)
    have hequal : current'.alternate = (top levels').alternate := by
      rw [hcurrent.alternate, htop.alternate, h]
    simp only [shift, hcolumn, hequal, h, if_true, ne_eq, not_true_eq_false, if_false, and_true]
    exact hlevels
  | deeper hcolumn hdeeper =>
    have hcolumn' := htop.column_lt hweight hcurrent hcolumn hdeeper
    simp only [shift, if_neg (Nat.ne_of_gt hcolumn), if_neg (Nat.ne_of_gt hcolumn'), if_pos hcolumn,
      if_pos hcolumn', deepen, htop.alternate, hcurrent.alternate, hlevels.length_eq, and_true]
    exact .cons hcurrent hlevels
  | back hcolumn hlevel =>
    have hcolumn' := hcurrent.column_lt hweight htop hcolumn (halternate.lt_top hcolumn hlevel)
    have hkeep := keep_mixes hweight hlevels hcurrent halternate hlevel
    have hkept : Mixes p q current (top (keep levels' current'.column)) := by
      have := mixes_top hkeep
      rwa [← hlevel] at this
    simp only [shift, if_neg (Nat.ne_of_lt hcolumn), if_neg (Nat.ne_of_lt hcolumn'),
      if_neg (Nat.lt_asymm hcolumn), if_neg (Nat.lt_asymm hcolumn'), shrink, ← hlevel,
      ← hcurrent.column_eq hweight hkept, hkept.alternate, hcurrent.alternate, hlevels.length_eq,
      hkeep.length_eq, ne_eq, not_true_eq_false, if_false, and_true]
    exact hkeep

end Mixes

/-! ### All lines -/

section Run

variable {p q : Nat} (hweight : 0 < p + q) {measure : List Char → Indent}
include hweight

/-- Lines that fit have the same tokens and faults by every mean. The induction is on the lines, with
levels open before each that both measures order. -/
theorem scanFromBy_mixes {levels levels' : List Indent}
    (hlevels : List.Forall₂ (Mixes p q) levels levels') (halternate : Steep Indent.alternate levels)
    (number offset : Nat) (ended : Bool) {ls : List Line}
    (hmixes : ∀ l ∈ ls, l.Visible → Mixes p q l.indent (measure l.blanks))
    (hfits : ∀ d ∈ (scanFrom levels number offset ended ls).errors, Fitting d) :
    scanFromBy measure levels' number offset ended ls = scanFrom levels number offset ended ls := by
  induction ls generalizing levels levels' number offset ended with
  | nil =>
    have hempty : levels'.isEmpty = levels.isEmpty := by cases hlevels <;> rfl
    simp only [scanFromBy, scanFrom, close, hlevels.length_eq, hempty]
  | cons l ls ih =>
    obtain ⟨hl, hls⟩ := List.forall_mem_cons.1 hmixes
    rw [scanFrom, Scan.errors_append] at hfits
    obtain ⟨hline, hrest⟩ := List.forall_mem_append.1 hfits
    have hsteep := halternate.scanLine
      (orders_alternate levels (number + 1) offset l fun d hd => (hline d hd).1) (number + 1) offset
    rw [scanFromBy, scanFrom]
    by_cases hvisible : l.Visible
    · rw [scanLine_of_visible hvisible] at hline hrest hsteep ⊢
      simp only [Scan.errors_append, List.forall_mem_append] at hline
      obtain ⟨hopen, htokens⟩ :=
        shift_mixes hweight hlevels (hl hvisible) halternate hline.1.1
      simp only [scanLineBy, if_pos hvisible, htokens]
      rw [ih hopen hsteep _ _ _ hls hrest]
    · rw [scanLine_of_invisible hvisible] at hrest ⊢
      simp only [scanLineBy, if_neg hvisible]
      rw [ih hlevels halternate _ _ _ hls hrest]

end Run

/-- If every visible line of a text is indented by tabs and then spaces, and no line is reported as
inconsistent or as fitting no open level, the tokens do not depend on the width of a tab: measuring
`t` tabs and `s` spaces as `width * t + s` columns, for a width from one to eight, gives the same
tokens on the same lines, indents and dedents among them, and the same faults. So no line fits no
open level. -/
theorem scanBy_atWidth {cs : List Char}
    (htabs : ∀ l ∈ Text.lines cs, l.Visible → TabsFirst l.blanks)
    (hfits : ∀ d ∈ (scan cs).errors, Fitting d) {width : Nat} (hmin : 1 ≤ width)
    (hmax : width ≤ 8) :
    scanBy (Indent.atWidth width) cs = scan cs ∧
      ∀ d ∈ (scanBy (Indent.atWidth width) cs).errors, Fitting d := by
  have hweight : 0 < width - 1 + (Indent.tabStop - width) := by
    unfold Indent.tabStop
    omega
  have hscan : scanBy (Indent.atWidth width) cs = scan cs :=
    scanFromBy_mixes hweight .nil steep_nil 0 0 true
      (fun l hl hvisible => Mixes.atWidth hmin hmax (htabs l hl hvisible)) hfits
  exact ⟨hscan, hscan ▸ hfits⟩

/-- Blocks by tabs alone, by tabs and spaces and by spaces alone, with tabs four columns wide. -/
theorem scanBy_atWidth_blocks :
    scanBy (Indent.atWidth 4) "if a\n\tif b\n\t  c\n\td\nif e\n f\n".toList =
        scan "if a\n\tif b\n\t  c\n\td\nif e\n f\n".toList ∧
      ∀ d ∈ (scanBy (Indent.atWidth 4) "if a\n\tif b\n\t  c\n\td\nif e\n f\n".toList).errors,
        Fitting d :=
  scanBy_atWidth (by decide) (by decide) (by decide) (by decide)

end Layout

end Offside
