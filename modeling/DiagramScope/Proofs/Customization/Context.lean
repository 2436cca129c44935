import DiagramScope.Proofs.Customization.Insertion
import DiagramScope.Proofs.Customization.Opening
import DiagramScope.Proofs.Script.Evaluation.Copying

/-!
Inserted rows and the context of the node. Main statement: rows that are filled from the context and
saved bind the variables that they show to equal values, add variables for the empty matrix under
new names, and leave all other variables as they are, if the values can be written. Values that nest
too deeply cannot, nor can lists where a variable hides the function that makes lists.
-/

set_option autoImplicit false
set_option relaxedAutoImplicit false

namespace DiagramScope

open Script (Bindings IsName Value SameVariables assignmentLine constant?)

namespace Resolution

theorem checkAt_eq_ok_iff {p : Properties} {maxDepth : Nat} {node : Node} {bound : Bindings} :
    checkAt p maxDepth node = .ok bound ↔
      ∃ statements, resolve p maxDepth node = .ok statements ∧
        Script.Interpreter.fresh.evaluateLines statements = .ok bound := by
  unfold checkAt check
  simp only [Except.bind_eq_ok_iff, Except.mapError_eq_ok_iff]

end Resolution

namespace Customization

section Names

private theorem constant?_eq_none {name : String} (h : ∀ more, name.toList ≠ '%' :: more) :
    constant? name = none := by
  have hne {s : String} {more : List Char} (hs : s.toList = '%' :: more) : name ≠ s := by
    rintro rfl
    exact h more hs
  unfold constant?
  simp only [hne (s := "%pi") rfl, hne (s := "%e") rfl, hne (s := "%t") rfl, hne (s := "%T") rfl,
    hne (s := "%f") rfl, hne (s := "%F") rfl, hne (s := "%inf") rfl, hne (s := "%nan") rfl,
    if_false, decide_false, Bool.or_self, Bool.false_eq_true]

private theorem isName_generatedName (n : Nat) : IsName (generatedName n) := by
  refine ⟨'g', "eneratedVar".toList ++ Nat.toDigits 10 n, ?_, by decide, fun d hd => ?_⟩
  · rw [← toList_generatedName, String.ofList_toList]
  · rcases List.mem_append.1 hd with hd | hd
    · exact List.all_eq_true.1 rfl d hd
    · have hdigit : d.isDigit = true := Nat.isDigit_of_mem_toDigits (by decide) (by decide) hd
      unfold Script.Lexer.isNamePart
      rw [hdigit]
      simp

private theorem constant?_generatedName (n : Nat) : constant? (generatedName n) = none := by
  refine constant?_eq_none fun more hmore => ?_
  rw [toList_generatedName] at hmore
  cases (List.cons.inj hmore).1

private theorem generatedName_ne_list (n : Nat) : generatedName n ≠ "list" := by
  intro heq
  have hlist := toList_generatedName n
  rw [heq] at hlist
  cases (List.cons.inj hlist).1

end Names

section Variables

variable {es copies : List (String × Value)}

private theorem exists_find_of_sameVariables (h : SameVariables es copies)
    (hnodup : (es.map Prod.fst).Nodup) {e : String × Value} (he : e ∈ es) :
    ∃ v, OrderedMap.find e.1 copies = some v ∧ e.2.equals v = true := by
  induction h with
  | nil => cases he
  | @cons e' copy es copies hfirst _ ih =>
    obtain ⟨hname, hequal⟩ := hfirst
    rw [List.map_cons, List.nodup_cons] at hnodup
    rcases List.mem_cons.1 he with rfl | he
    · exact ⟨copy.2, by simp [OrderedMap.find, hname], hequal⟩
    · have hne : copy.1 ≠ e.1 := by
        rw [← hname]
        rintro heq
        exact hnodup.1 (heq ▸ List.mem_map_of_mem he)
      obtain ⟨v, hv, hequal⟩ := ih hnodup.2 he
      exact ⟨v, by simp [OrderedMap.find, hne, hv], hequal⟩

private theorem find_eq_none_of_sameVariables (h : SameVariables es copies) {name : String}
    (hname : name ∉ es.map Prod.fst) : OrderedMap.find name copies = none := by
  rw [← h.names] at hname
  cases hfound : OrderedMap.find name copies with
  | none => rfl
  | some v =>
    have hmem := (OrderedMap.find_isSome_iff name copies).1 (by rw [hfound]; rfl)
    exact absurd hmem hname

end Variables

/-- What becomes of variables when some are copied and new ones are generated: all names keep their
places and the new ones follow; copies are equal to their originals, the new variables hold the
empty matrix, and all others keep their values. -/
structure Kept (originals : List (String × Value)) (newNames : List String)
    (before after : Bindings) : Prop where
  keys : after.keys = before.keys ++ newNames
  copied : ∀ e ∈ originals, ∃ v, after.get? e.1 = some v ∧ e.2.equals v = true
  generated : ∀ name ∈ newNames, after.get? name = some .empty
  other : ∀ name ∈ before.keys, name ∉ originals.map Prod.fst → after.get? name = before.get? name

section Added

variable {c d : Customization} {count : Nat} {numbers : List Nat}

private theorem copied_subset : c.copied count ⊆ c.context.entries :=
  fun _ he => (List.mem_filter.1 (List.mem_of_mem_take he)).1

private theorem nodup_copied : ((c.copied count).map Prod.fst).Nodup :=
  c.context.nodup_keys.sublist
    (((List.take_sublist _ _).trans List.filter_sublist).map Prod.fst)

private theorem mem_keys_of_mem_copied {name : String} (h : name ∈ (c.copied count).map Prod.fst) :
    name ∈ c.context.keys := by
  obtain ⟨e, he, rfl⟩ := List.mem_map.1 h
  exact List.mem_map_of_mem (copied_subset he)

private theorem mem_generated {name : String} (h : name ∈ (generated numbers).map Prod.fst) :
    ∃ n ∈ numbers, name = generatedName n := by
  obtain ⟨_, he, rfl⟩ := List.mem_map.1 h
  obtain ⟨n, hn, rfl⟩ := List.mem_map.1 he
  exact ⟨n, hn, rfl⟩

private theorem Inserted.not_mem_keys (h : Inserted c count d numbers) {name : String}
    (hname : name ∈ (generated numbers).map Prod.fst) : name ∉ c.context.keys := by
  obtain ⟨n, hn, rfl⟩ := mem_generated hname
  exact ((c.isFree_iff).1 (h.free n hn)).1

private theorem Inserted.nodup_names (h : Inserted c count d numbers) :
    ((c.copied count ++ generated numbers).map Prod.fst).Nodup := by
  rw [List.map_append, List.nodup_append]
  refine ⟨nodup_copied, ?_, ?_⟩
  · unfold generated
    rw [List.map_map]
    exact h.nodup.map fun m n hmn => generatedName_injective hmn
  · rintro name hcopied name' hgenerated rfl
    exact h.not_mem_keys hgenerated (mem_keys_of_mem_copied hcopied)

private theorem Inserted.kept (h : Inserted c count d numbers) {copies : List (String × Value)}
    (hsame : SameVariables (c.copied count ++ generated numbers) copies) :
    Kept (c.copied count) ((generated numbers).map Prod.fst) c.context
      (c.context.insertAll copies) := by
  have hnodup : (copies.map Prod.fst).Nodup := by
    rw [hsame.names]
    exact h.nodup_names
  refine ⟨?_, fun e he => ?_, fun name hname => ?_, fun name hname hother => ?_⟩
  · rw [OrderedMap.keys_insertAll hnodup, hsame.names, List.map_append, List.filter_append]
    have hnone : ((c.copied count).map Prod.fst).filter (fun k => !c.context.contains k) = [] := by
      apply List.filter_eq_nil_iff.2
      intro name hname
      rw [(OrderedMap.contains_iff_mem_keys _ _).2 (mem_keys_of_mem_copied hname)]
      exact Bool.false_ne_true
    have hall : ((generated numbers).map Prod.fst).filter (fun k => !c.context.contains k) =
        (generated numbers).map Prod.fst := by
      apply List.filter_eq_self.2
      intro name hname
      rw [Bool.not_eq_true', Bool.eq_false_iff, ne_eq, OrderedMap.contains_iff_mem_keys]
      exact h.not_mem_keys hname
    rw [hnone, hall, List.nil_append]
  · obtain ⟨v, hv, hequal⟩ :=
      exists_find_of_sameVariables hsame h.nodup_names (List.mem_append_left _ he)
    refine ⟨v, ?_, hequal⟩
    rw [OrderedMap.get?_insertAll _ hnodup, hv]
    rfl
  · obtain ⟨n, hn, rfl⟩ := mem_generated hname
    have hmem : (generatedName n, Value.empty) ∈ generated numbers := List.mem_map_of_mem hn
    obtain ⟨v, hv, hequal⟩ :=
      exists_find_of_sameVariables hsame h.nodup_names (List.mem_append_right _ hmem)
    rw [OrderedMap.get?_insertAll _ hnodup, hv]
    cases v with
    | empty => rfl
    | _ => cases hequal
  · have hfree : name ∉ (c.copied count ++ generated numbers).map Prod.fst := by
      rw [List.map_append, List.mem_append, not_or]
      exact ⟨hother, fun hgenerated => h.not_mem_keys hgenerated hname⟩
    rw [OrderedMap.get?_insertAll _ hnodup, find_eq_none_of_sameVariables hsame hfree]
    rfl

/-- The new lines can be evaluated behind the context. -/
theorem Inserted.exists_kept (h : Inserted c count d numbers) {lines : List String}
    (hlines : lines ≠ []) (hcontext : Script.Interpreter.fresh.evaluateLines lines = .ok c.context)
    (hwritable : ∀ e ∈ c.copied count, e.2.Writable c.context.keys) :
    ∃ after, Script.Interpreter.fresh.evaluateLines
          (lines ++ (c.copied count ++ generated numbers).map assignmentLine) = .ok after ∧
        Kept (c.copied count) ((generated numbers).map Prod.fst) c.context after := by
  have hassignable := Script.assignable_of_evaluateLines hcontext
  have hnames : ∀ e ∈ c.copied count ++ generated numbers,
      IsName e.1 ∧ constant? e.1 = none := by
    intro e he
    rcases List.mem_append.1 he with he | he
    · have hkey : e.1 ∈ c.context.keys := mem_keys_of_mem_copied (List.mem_map_of_mem he)
      exact ⟨hassignable.isName _ hkey, hassignable.constant _ hkey⟩
    · obtain ⟨n, -, rfl⟩ := List.mem_map.1 he
      exact ⟨isName_generatedName n, constant?_generatedName n⟩
  have hvalues : ∀ e ∈ c.copied count ++ generated numbers, e.2.Canonical := by
    intro e he
    rcases List.mem_append.1 he with he | he
    · exact hassignable.canonical e.1 e.2 (OrderedMap.get?_of_mem_entries (copied_subset he))
    · obtain ⟨n, -, rfl⟩ := List.mem_map.1 he
      exact .empty
  have hlist : "list" ∉ c.context.keys →
      "list" ∉ c.context.keys ++ (c.copied count ++ generated numbers).map Prod.fst := by
    intro hfree hmem
    rw [List.map_append, List.mem_append, List.mem_append] at hmem
    rcases hmem with hmem | hmem | hmem
    · exact hfree hmem
    · exact hfree (mem_keys_of_mem_copied hmem)
    · obtain ⟨n, -, hn⟩ := mem_generated hmem
      exact generatedName_ne_list n hn.symm
  have hall : ∀ e ∈ c.copied count ++ generated numbers,
      e.2.Writable (c.context.keys ++ (c.copied count ++ generated numbers).map Prod.fst) := by
    intro e he
    rcases List.mem_append.1 he with he | he
    · obtain ⟨hfinite, hlevels, hlistFree⟩ := hwritable e he
      exact ⟨hfinite, hlevels, fun items hitems => hlist (hlistFree items hitems)⟩
    · obtain ⟨n, -, rfl⟩ := List.mem_map.1 he
      exact ⟨rfl, Nat.one_le_ofNat, nofun⟩
  obtain ⟨copies, hevaluate, hsame⟩ :=
    Script.Interpreter.exists_evaluateLines_append hlines hcontext hnames hvalues hall
  exact ⟨_, hevaluate, h.kept hsame⟩

end Added

section Save

variable {s : Store} {maxDepth count : Nat} {node : Node} {bound : Bindings}

private theorem Inserted.ownStatements_eq {c d : Customization} {numbers : List Nat}
    (h : Inserted c count d numbers) {mask : Option Mask} (hmask : mask.getD .default = c.mask)
    (lines : List String) :
    Resolution.ownStatements lines (some d.mask) =
      Resolution.ownStatements lines mask ++
        (c.copied count ++ generated numbers).map assignmentLine := by
  have hassignments : Resolution.assignmentsOf mask = c.mask.assignments := by
    rw [← hmask]
    cases mask <;> rfl
  have hrows : ((c.copied count ++ generated numbers).map rowOf).map Mask.Entry.assignment =
      (c.copied count ++ generated numbers).map assignmentLine := by
    rw [List.map_map]
    rfl
  have hnew : Resolution.assignmentsOf (some d.mask) =
      c.mask.assignments ++ (c.copied count ++ generated numbers).map assignmentLine := by
    change d.mask.entries.map Mask.Entry.assignment = _
    rw [h.entries, List.map_append, hrows]
    rfl
  unfold Resolution.ownStatements
  rw [hnew, hassignments, List.append_assoc, List.cons_append]

/-- Inserting and saving rows appends their assignments to the context of the node. -/
theorem exists_save_insertRows {statements : List String} {mask : Option Mask}
    (hresolve : Resolution.resolve s.properties maxDepth node = .ok statements)
    (hmask : Resolution.storedMask s.properties node = .ok mask) (bound : Bindings) (count : Nat) :
    ∃ s' numbers,
      Inserted ⟨node, mask.getD .default, bound⟩ count
          (insertRows ⟨node, mask.getD .default, bound⟩ count) numbers ∧
        (insertRows ⟨node, mask.getD .default, bound⟩ count).save s = .ok s' ∧
          Resolution.resolve s'.properties maxDepth node =
            .ok (statements ++ (copied ⟨node, mask.getD .default, bound⟩ count ++
              generated numbers).map assignmentLine) := by
  obtain ⟨_, _, lines, _, _, _, hlines, _, _⟩ := Resolution.resolve_own_eq_ok_iff.1 hresolve
  obtain ⟨numbers, hinserted⟩ := exists_inserted ⟨node, mask.getD .default, bound⟩ count
  obtain ⟨s', hsave, -, hmask', hagrees⟩ := exists_save hlines hinserted.node
  obtain ⟨around, lines', mask₀, hmask₀, hstatements, hresolve'⟩ :=
    Resolution.resolve_of_agreesExcept hagrees hresolve
  obtain rfl : mask = mask₀ := Except.ok.inj (hmask.symm.trans hmask₀)
  refine ⟨s', numbers, hinserted, hsave, ?_⟩
  have hown := hinserted.ownStatements_eq (show mask.getD .default = _ from rfl) lines'
  rw [hresolve' _ hmask', hown, ← List.append_assoc, ← hstatements]

/-- Rows that are filled from the context do not change it. Where the context of a node can be
evaluated, its mask can be opened with a fresh session, any number of rows can be inserted, and the
mask can be saved. If the values that the new rows copy can be written, the context can then be
evaluated again: the variables that were copied have equal values, all others have the same values,
and the only new variables are those of the generated rows, which hold the empty matrix. -/
theorem inserted_rows_keep_context
    (h : Resolution.checkAt s.properties maxDepth node = .ok bound) (count : Nat) :
    ∃ b c s' numbers,
      openMask (.fresh .default) s.properties maxDepth node = (b, .ok (some c)) ∧
        c.context = bound ∧ Inserted c count (c.insertRows count) numbers ∧
          (c.insertRows count).save s = .ok s' ∧
            ((∀ e ∈ c.copied count, e.2.Writable bound.keys) →
              ∃ b' after,
                Resolution.checkAt s'.properties maxDepth node = .ok after ∧
                  (Broker.fresh .default).evaluateAt s'.properties maxDepth node =
                      (b', .ok (some after)) ∧
                    Kept (c.copied count) ((generated numbers).map Prod.fst) bound after) := by
  obtain ⟨statements, hresolve, hevaluate⟩ := Resolution.checkAt_eq_ok_iff.1 h
  obtain ⟨_, _, _, mask, _, _, _, hmask, _⟩ := Resolution.resolve_own_eq_ok_iff.1 hresolve
  obtain ⟨b, hopen⟩ := exists_openMask (b := .fresh .default) rfl SlotNames.distinct_default
    hresolve hevaluate hmask
  obtain ⟨s', numbers, hinserted, hsave, hresolved⟩ :=
    exists_save_insertRows hresolve hmask bound count
  refine ⟨b, _, s', numbers, hopen, rfl, hinserted, hsave, ?_⟩
  intro hwritable
  obtain ⟨after, hafter, hkept⟩ :=
    hinserted.exists_kept (Resolution.resolve_ne_nil hresolve) hevaluate hwritable
  obtain ⟨b', hb'⟩ := Broker.evaluateAt_of_evaluates (b := .fresh .default) rfl
    SlotNames.distinct_default hresolved hafter
  exact ⟨b', after, Resolution.checkAt_eq_ok_iff.2 ⟨_, hresolved, hafter⟩, hb', hkept⟩

def listBound : Bindings := OrderedMap.empty.insert "x" (.list [.text "a"])

def listDiagram : Store :=
  Store.empty.update (.diagram 1) fun data => { data with context := ["x = list(\"a\")"] }

theorem inserted_rows_keep_context_list :
    ∃ b c s' numbers b' after,
      openMask (.fresh .default) listDiagram.properties 1 (.diagram 1) = (b, .ok (some c)) ∧
        c.context = listBound ∧ Inserted c 2 (c.insertRows 2) numbers ∧
          (c.insertRows 2).save listDiagram = .ok s' ∧
            Resolution.checkAt s'.properties 1 (.diagram 1) = .ok after ∧
              (Broker.fresh .default).evaluateAt s'.properties 1 (.diagram 1) =
                  (b', .ok (some after)) ∧
                Kept (c.copied 2) ((generated numbers).map Prod.fst) listBound after := by
  have hcheck : Resolution.checkAt listDiagram.properties 1 (.diagram 1) = .ok listBound := by
    decide +kernel
  obtain ⟨b, c, s', numbers, hopen, hcontext, hinserted, hsave, hcontinue⟩ :=
    inserted_rows_keep_context hcheck 2
  have hwritable : ∀ e ∈ c.copied 2, e.2.Writable listBound.keys := by
    intro e he
    have hmem := copied_subset he
    rw [hcontext] at hmem
    obtain rfl := List.mem_singleton.1 hmem
    exact ⟨rfl, by decide, fun _ _ => by decide⟩
  obtain ⟨b', after, hafter, hevaluate, hkept⟩ := hcontinue hwritable
  exact ⟨b, c, s', numbers, b', after, hopen, hcontext, hinserted, hsave, hafter, hevaluate, hkept⟩

/-- Where a copied value nests deeper than statements may, the context cannot be evaluated after the
rows were saved. -/
theorem deep_copies_break_context {mask : Option Mask}
    (h : Resolution.checkAt s.properties maxDepth node = .ok bound)
    (hmask : Resolution.storedMask s.properties node = .ok mask) {e : String × Value}
    (he : e ∈ copied ⟨node, mask.getD .default, bound⟩ count) (hfinite : e.2.isFinite = true)
    (hdeep : Script.maxNesting < e.2.levels) :
    ∃ s', (insertRows ⟨node, mask.getD .default, bound⟩ count).save s = .ok s' ∧
      ∀ after, Resolution.checkAt s'.properties maxDepth node ≠ .ok after := by
  obtain ⟨statements, hresolve, hevaluate⟩ := Resolution.checkAt_eq_ok_iff.1 h
  obtain ⟨s', numbers, -, hsave, hresolved⟩ := exists_save_insertRows hresolve hmask bound count
  refine ⟨s', hsave, ?_⟩
  intro after hafter
  obtain ⟨statements', hstatements', hafter⟩ := Resolution.checkAt_eq_ok_iff.1 hafter
  obtain rfl := Except.ok.inj (hresolved.symm.trans hstatements')
  have hassignable := Script.assignable_of_evaluateLines hevaluate
  have hname := hassignable.isName e.1 (mem_keys_of_mem_copied (List.mem_map_of_mem he))
  have hvalue := hassignable.canonical e.1 e.2 (OrderedMap.get?_of_mem_entries (copied_subset he))
  have hline : assignmentLine e ∈ statements ++
      (copied ⟨node, mask.getD .default, bound⟩ count ++ generated numbers).map assignmentLine :=
    List.mem_append_right _ (List.mem_map_of_mem (List.mem_append_left _ he))
  exact Script.Interpreter.evaluateLines_ne_ok_of_deep hline hname hvalue hfinite hdeep after hafter

def hiddenListBound : Bindings := listBound.insert "list" (.text "b")

def hiddenListDiagram : Store :=
  Store.empty.update (.diagram 1) fun data =>
    { data with context := ["x = list(\"a\")", "list = \"b\""] }

/-- A row that copies a list breaks the context if a variable hides the function that makes
lists. -/
theorem hidden_list_breaks_context :
    ∃ b c s', Resolution.checkAt hiddenListDiagram.properties 1 (.diagram 1) = .ok hiddenListBound ∧
      openMask (.fresh .default) hiddenListDiagram.properties 1 (.diagram 1) = (b, .ok (some c)) ∧
        (c.insertRows 1).save hiddenListDiagram = .ok s' ∧
          ∀ after, Resolution.checkAt s'.properties 1 (.diagram 1) ≠ .ok after := by
  have hresolve : Resolution.resolve hiddenListDiagram.properties 1 (.diagram 1) =
      .ok ["x = list(\"a\")", "list = \"b\"", ""] := by decide +kernel
  have hevaluate : Script.Interpreter.fresh.evaluateLines ["x = list(\"a\")", "list = \"b\"", ""] =
      .ok hiddenListBound := by decide +kernel
  obtain ⟨b, hopen⟩ := exists_openMask (b := .fresh .default) rfl SlotNames.distinct_default
    hresolve hevaluate rfl
  obtain ⟨s', numbers, hinserted, hsave, hresolved⟩ :=
    exists_save_insertRows hresolve rfl hiddenListBound 1
  have hcheck := Resolution.checkAt_eq_ok_iff.2 ⟨_, hresolve, hevaluate⟩
  refine ⟨b, _, s', hcheck, hopen, hsave, ?_⟩
  intro after hafter
  -- the only new row copies `x`
  have hcopied : (copied ⟨.diagram 1, .default, hiddenListBound⟩ 1).length = 1 := rfl
  obtain rfl : numbers = [] := by
    have hsize := hinserted.size
    rw [Option.getD_none, hcopied] at hsize
    exact List.eq_nil_of_length_eq_zero (by omega)
  obtain ⟨statements, hstatements, hafter⟩ := Resolution.checkAt_eq_ok_iff.1 hafter
  obtain rfl := Except.ok.inj (hresolved.symm.trans hstatements)
  obtain ⟨globals, locals, hglobals, hlocals, -⟩ :=
    (Script.Interpreter.evaluateLines_append_eq_ok_iff (List.cons_ne_nil _ _)
      (List.cons_ne_nil _ _)).1 hafter
  obtain rfl := Except.ok.inj (hevaluate.symm.trans hglobals)
  -- `list("a")` is an element of the text that `list` holds, and no text has such an element
  have hfails : ((⟨hiddenListBound⟩ : Script.Interpreter).evaluateLines
      [assignmentLine ("x", .list [.text "a"])]).isOk = false := by decide +kernel
  have hlocals' : (⟨hiddenListBound⟩ : Script.Interpreter).evaluateLines
      [assignmentLine ("x", .list [.text "a"])] = .ok locals := hlocals
  rw [hlocals'] at hfails
  cases hfails

end Save

end Customization

end DiagramScope
