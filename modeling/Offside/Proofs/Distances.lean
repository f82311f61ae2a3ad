import Offside.Proofs.Visibility

/-!
# One distance for each reference

Every text has a tree: scanning never stops at an error, and parsing keeps the statements that are
well formed. Whatever tree that is, its references are names that stand at places of their own in
the text, and the analysis of scopes comes to each of them once. So each reference either has an
entry in the map of distances or is reported as a name that is not declared.

* `Diagnostic.isUnknownName`: the reports of names that are not declared;
* `Site.perm_refers?`: at each place a reference is recorded or reported;
* `Scope.perm_references`: so it is in a whole program;
* `Scope.one_entry_per_reference`: the entries of the map, counted.
-/

namespace Offside

/-- Whether a diagnostic reports a name that is not declared. -/
def Diagnostic.isUnknownName (d : Diagnostic) : Bool :=
  match d.cause with
  | .scope (.notDefined _) => true
  | _ => false

/-! ### Entries of a map of distances -/

namespace ScopeMap

variable {entries : List (Span × Nat)} {m : ScopeMap}

/-- Entries for spans that are all different, and not in the map yet, are all added. -/
theorem size_foldl_insert (hnodup : (entries.map (·.1)).Nodup)
    (hfresh : ∀ span ∈ entries.map (·.1), span ∉ m) :
    (entries.foldl (fun m r => m.insert r.1 r.2) m).size = m.size + entries.length := by
  induction entries generalizing m with
  | nil => rfl
  | cons r entries ih =>
    obtain ⟨hr, hnodup⟩ := List.nodup_cons.1 hnodup
    obtain ⟨hrm, hfresh⟩ := List.forall_mem_cons.1 hfresh
    have hnext : ∀ span ∈ entries.map (·.1), span ∉ m.insert r.1 r.2 := by
      intro span hspan hmem
      rcases Std.HashMap.mem_insert.1 hmem with heq | hmem
      · obtain rfl := beq_iff_eq.1 heq
        exact hr hspan
      · exact hfresh span hspan hmem
    have hsize : (m.insert r.1 r.2).size = m.size + 1 := by
      rw [Std.HashMap.size_insert, if_neg hrm]
    rw [List.foldl_cons, ih hnodup hnext, hsize, List.length_cons]
    omega

theorem size_ofReferences (hnodup : (entries.map (·.1)).Nodup) :
    (ofReferences entries).size = entries.length := by
  rw [ofReferences, size_foldl_insert hnodup (fun _ _ => Std.HashMap.not_mem_empty),
    Std.HashMap.size_empty, Nat.zero_add]

end ScopeMap

/-! ### References recorded and references reported -/

namespace Site

theorem filter_faultIf (p : Prop) [Decidable p] (t : Token) (e : ScopeError) :
    (faultIf p t e).filter Diagnostic.isUnknownName =
      if p ∧ (t.diagnose (.scope e)).isUnknownName then [t.diagnose (.scope e)] else [] := by
  unfold faultIf
  by_cases hp : p
  · cases hd : (t.diagnose (.scope e)).isUnknownName <;> simp [hp, hd]
  · simp [hp]

/-- What stands at a place is recorded or reported as unknown if it is a reference, and neither
otherwise. -/
theorem located?_or_unknown (site : Site) :
    site.located?.toList.map (·.1) ++
        (site.faults.filter Diagnostic.isUnknownName).map (·.span) =
      site.refers?.toList.map (·.span) := by
  obtain ⟨layers, item⟩ := site
  cases item with
  | read name =>
    cases hd : (Site.mk layers (.read name)).distance? name.lexeme <;>
      simp [located?, refers?, mark, faults, hd, filter_faultIf, Token.diagnose,
        Diagnostic.isUnknownName]
  | target name =>
    cases hd : (Site.mk layers (.target name)).distance? name.lexeme <;>
      simp [located?, refers?, mark, faults, hd, filter_faultIf, Token.diagnose,
        Diagnostic.isUnknownName]
  | _ =>
    simp [located?, refers?, mark, faults, filter_faultIf, Token.diagnose,
      Diagnostic.isUnknownName]

/-- Of the references at some places, those that are recorded and those that are reported. -/
theorem perm_refers? (sites : List Site) :
    ((sites.filterMap located?).map (·.1) ++
        ((sites.flatMap faults).filter Diagnostic.isUnknownName).map (·.span)).Perm
      ((sites.filterMap refers?).map (·.span)) := by
  induction sites with
  | nil => exact .nil
  | cons site sites ih =>
    have hcons : ∀ {α : Type} (f : Site → Option α),
        (site :: sites).filterMap f = (f site).toList ++ sites.filterMap f := by
      intro α f
      rw [List.filterMap_cons]
      cases f site <;> rfl
    rw [hcons, hcons, List.flatMap_cons, List.filter_append, List.map_append, List.map_append,
      List.map_append, ← located?_or_unknown site, List.append_assoc, List.append_assoc]
    -- the reports of this place move in front of the records of the places after it
    exact ((List.perm_append_comm_assoc _ _ _).trans (ih.append_left _)).append_left _

end Site

namespace Scope

/-- The references of a program are recorded or reported as unknown, each once. -/
theorem perm_references (globals : Names) (program : List Stmt) :
    ((resolve globals program).references.map (·.1) ++
        ((resolve globals program).errors.filter Diagnostic.isUnknownName).map (·.span)).Perm
      ((references (Stmt.allMarks program)).map (·.span)) := by
  rw [resolve_eq_gather]
  exact (Site.perm_refers? (Site.all globals program)).trans (Site.perm_spans globals program)

/-- Whatever a text is, its tree has one entry in the map of distances for each reference, but for
those that are reported as names that are not declared. No two references have the same span, and
every entry is for the span of an identifier of the text. -/
theorem one_entry_per_reference (cs : List Char) (globals : Names) :
    let program := (Grammar.readLeniently cs).stmts
    let found := resolve globals program
    let map := ScopeMap.ofReferences found.references
    map.size + found.errors.countP Diagnostic.isUnknownName =
        (references (Stmt.allMarks program)).length ∧
      ((references (Stmt.allMarks program)).map (·.span)).Nodup ∧
      ∀ span ∈ map, ∃ t ∈ (Layout.scan cs).tokens, t.kind = .identifier ∧ t.span = span := by
  intro program found map
  have hkept : Grammar.Kept (Stmt.allMarks program) (Layout.scan cs).tokens := Grammar.kept_parse cs
  have hsub := references_sublist_names (Stmt.allMarks program)
  have hspans : ((references (Stmt.allMarks program)).map (·.span)).Nodup :=
    (Grammar.toldApart_parse cs : ToldApart program).sublist (hsub.map _)
  have hperm := perm_references globals program
  have hkeys : (found.references.map (·.1)).Nodup :=
    (List.nodup_append.1 (hperm.nodup_iff.2 hspans)).1
  refine ⟨?_, hspans, fun span hspan => ?_⟩
  · have hlength := hperm.length_eq
    rw [List.length_append, List.length_map, List.length_map, List.length_map] at hlength
    rw [ScopeMap.size_ofReferences hkeys, List.countP_eq_length_filter]
    exact hlength
  · have hmem := hperm.subset (List.mem_append_left _ (ScopeMap.mem_of_mem_ofReferences hspan))
    obtain ⟨t, ht, rfl⟩ := List.mem_map.1 hmem
    have hident := (hsub.trans (Grammar.names_sublist_identifiers hkept)).subset ht
    obtain ⟨ht, hkind⟩ := List.mem_filter.1 hident
    exact ⟨t, ht, of_decide_eq_true hkind, rfl⟩

end Scope

end Offside
