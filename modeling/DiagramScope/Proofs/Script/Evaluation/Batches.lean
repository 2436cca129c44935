import DiagramScope.Proofs.Script.Evaluation.Layers
import DiagramScope.Proofs.Script.Spans

/-!
Sources run in batches. A run binds local variables over the globals and writes them over at its
end; main statement: it does what its statements do one by one, directly on the globals, up to the
first that fails, so that it does not matter how statements are divided among runs.
-/

set_option autoImplicit false
set_option relaxedAutoImplicit false

namespace DiagramScope.Script

open Text (utf8Length)

private theorem EvaluationFault.diagnostic_shift (bytes : Nat) (fault : EvaluationFault) :
    (fault.mapSpan fun span => span.shift bytes).diagnostic = fault.diagnostic.shift bytes := by
  cases fault <;> rfl

def Diagnostics.shift (ds : Diagnostics) (bytes : Nat) : Diagnostics :=
  ⟨ds.all.map (·.shift bytes)⟩

namespace Interpreter

def perform (i : Interpreter) (s : Statement) : Except EvaluationFault Interpreter :=
  (execute ⟨.empty, i.globals⟩ s).map fun scope => ⟨scope.locals⟩

inductive Performs : Interpreter → List Statement → Interpreter → Prop where
  | nil (i : Interpreter) : Performs i [] i
  | cons {i j k : Interpreter} {s : Statement} {rest : List Statement} (h : i.perform s = .ok j)
      (hrest : Performs j rest k) : Performs i (s :: rest) k

/-- Statements that are carried out one by one up to the first that fails, which has so many in
front of it. -/
inductive Stops : Interpreter → List Statement → Nat → Interpreter → EvaluationFault → Prop where
  | here {i : Interpreter} {s : Statement} {fault : EvaluationFault}
      (h : i.perform s = .error fault) (rest : List Statement) : Stops i (s :: rest) 0 i fault
  | later {i j k : Interpreter} {s : Statement} {rest : List Statement} {count : Nat}
      {fault : EvaluationFault} (h : i.perform s = .ok j) (hrest : Stops j rest count k fault) :
      Stops i (s :: rest) (count + 1) k fault

variable {i j k : Interpreter} {p q program : List Statement} {count : Nat}
  {fault : EvaluationFault}

private theorem performs_or_stops (i : Interpreter) (program : List Statement) :
    (∃ j, i.Performs program j) ∨ ∃ count j fault, i.Stops program count j fault := by
  induction program generalizing i with
  | nil => exact Or.inl ⟨i, .nil i⟩
  | cons s rest ih =>
    cases h : i.perform s with
    | error fault => exact Or.inr ⟨0, i, fault, .here h rest⟩
    | ok j =>
      rcases ih j with ⟨k, hrest⟩ | ⟨count, k, fault, hrest⟩
      · exact Or.inl ⟨k, .cons h hrest⟩
      · exact Or.inr ⟨count + 1, k, fault, .later h hrest⟩

private theorem Performs.append (hp : i.Performs p j) (hq : j.Performs q k) :
    i.Performs (p ++ q) k := by
  induction hp with
  | nil => exact hq
  | cons h _ ih => exact .cons h (ih hq)

private theorem Performs.stops (hp : i.Performs p j) (hq : j.Stops q count k fault) :
    i.Stops (p ++ q) (p.length + count) k fault := by
  induction hp with
  | nil => rwa [List.nil_append, List.length_nil, Nat.zero_add]
  | cons h _ ih =>
    rw [List.length_cons, Nat.add_right_comm]
    exact .later h (ih hq)

private theorem Stops.append (h : i.Stops p count j fault) (q : List Statement) :
    i.Stops (p ++ q) count j fault := by
  induction h with
  | here h rest => exact .here h (rest ++ q)
  | later h _ ih => exact .later h ih

private theorem Stops.performs (h : i.Stops program count j fault) :
    i.Performs (program.take count) j := by
  induction h with
  | here => exact .nil _
  | later h _ ih => exact .cons h ih

private theorem Stops.fails (h : i.Stops program count j fault) :
    ∃ s, program[count]? = some s ∧ j.perform s = .error fault := by
  induction h with
  | here h => exact ⟨_, rfl, h⟩
  | later _ _ ih => exact ih

section Moved

variable (f : Span → Span)

private theorem perform_mapSpan (i : Interpreter) (s : Statement) :
    i.perform (s.mapSpan f) = relocated f (i.perform s) := by
  unfold perform
  rw [execute_mapSpan, relocated_map]

private theorem Performs.mapSpan (h : i.Performs program j) :
    i.Performs (program.map (Statement.mapSpan f)) j := by
  induction h with
  | nil i => exact .nil i
  | cons h _ ih => exact .cons (by rw [perform_mapSpan, h, relocated_ok]) ih

private theorem Stops.mapSpan (h : i.Stops program count j fault) :
    i.Stops (program.map (Statement.mapSpan f)) count j (fault.mapSpan f) := by
  induction h with
  | here h rest => exact .here (by rw [perform_mapSpan, h, relocated_error]) _
  | later h _ ih => exact .later (by rw [perform_mapSpan, h, relocated_ok]) ih

end Moved

section Run

private theorem execute_of_perform {s : Statement} (h : i.perform s = .ok j) :
    execute ⟨.empty, i.globals⟩ s = .ok ⟨.empty, j.globals⟩ := by
  unfold perform at h
  cases hs : execute ⟨.empty, i.globals⟩ s with
  | error fault => rw [hs] at h; cases h
  | ok scope =>
    rw [hs] at h
    have hempty := execute_globals hs
    obtain ⟨globals, locals⟩ := scope
    obtain rfl : globals = .empty := hempty
    cases h
    rfl

private theorem execute_of_perform_error {s : Statement} (h : i.perform s = .error fault) :
    execute ⟨.empty, i.globals⟩ s = .error fault := by
  unfold perform at h
  cases hs : execute ⟨.empty, i.globals⟩ s with
  | error fault' => rw [hs] at h; cases h; rfl
  | ok scope => rw [hs] at h; cases h

private theorem Performs.executeAll_eq (h : i.Performs program j) :
    executeAll ⟨.empty, i.globals⟩ program = (⟨.empty, j.globals⟩, none) := by
  induction h with
  | nil => rfl
  | cons h _ ih => rw [executeAll, execute_of_perform h]; exact ih

private theorem Stops.executeAll_eq (h : i.Stops program count j fault) :
    executeAll ⟨.empty, i.globals⟩ program = (⟨.empty, j.globals⟩, some fault) := by
  induction h with
  | here h => rw [executeAll, execute_of_perform_error h]
  | later h _ ih => rw [executeAll, execute_of_perform h]; exact ih

def outcome : Option EvaluationFault → Except Diagnostics Unit
  | none => .ok ()
  | some fault => .error (.single fault.diagnostic)

/-- What a run leaves is what its statements leave in one table. -/
theorem run_eq {source : String} (h : parse source = .ok program) {globals : Bindings}
    {fault? : Option EvaluationFault}
    (hall : executeAll ⟨.empty, i.globals⟩ program = (⟨.empty, globals⟩, fault?)) :
    i.run source = (⟨globals⟩, outcome fault?) := by
  -- Locals over the globals, flattened into one table, are what the same statements leave in it.
  have hflat := executeAll_flattened (.fresh i.globals) program
  change executeAll ⟨.empty, i.globals⟩ program = _ at hflat
  have hkept := executeAll_globals (.fresh i.globals) program
  rw [hall] at hflat
  simp only [run, h]
  generalize executeAll (.fresh i.globals) program = result at hflat hkept ⊢
  obtain ⟨⟨globals', locals⟩, fault'⟩ := result
  obtain rfl : globals' = i.globals := hkept
  cases hflat
  rfl

private theorem Performs.run_eq {source : String} (hp : i.Performs program j)
    (h : parse source = .ok program) : i.run source = (j, .ok ()) :=
  Interpreter.run_eq h hp.executeAll_eq

private theorem Stops.run_eq {source : String} (hs : i.Stops program count j fault)
    (h : parse source = .ok program) : i.run source = (j, .error (.single fault.diagnostic)) :=
  Interpreter.run_eq h hs.executeAll_eq

end Run

/-- Whether the evaluation of a program over the globals stops at the statement that has `count`
others in front of it: those run without a fault, and it fails in the scope that they leave. -/
def StopsAt (i : Interpreter) (program : List Statement) (count : Nat) (fault : EvaluationFault) :
    Prop :=
  ∃ scope s, executeAll (.fresh i.globals) (program.take count) = (scope, none) ∧
    program[count]? = some s ∧ execute scope s = .error fault

private theorem StopsAt.exists_stops (h : i.StopsAt program count fault) :
    ∃ j, i.Performs (program.take count) j ∧ i.Stops program count j fault := by
  obtain ⟨scope, s, hbefore, hs, hfails⟩ := h
  have hflat := executeAll_flattened (.fresh i.globals) (program.take count)
  change executeAll ⟨.empty, i.globals⟩ _ = _ at hflat
  rw [hbefore] at hflat
  rcases performs_or_stops i (program.take count) with ⟨j, hj⟩ | ⟨_, _, _, hstops⟩
  · refine ⟨j, hj, ?_⟩
    rw [hj.executeAll_eq] at hflat
    obtain ⟨hscope, -⟩ := Prod.mk.inj hflat
    have hperform : j.perform s = .error fault := by
      unfold perform
      rw [hscope, execute_flattened, hfails]
      rfl
    obtain ⟨hlength, hget⟩ := List.getElem?_eq_some_iff.1 hs
    have hsplit : program = program.take count ++ s :: program.drop (count + 1) := by
      rw [← hget, List.getElem_cons_drop, List.take_append_drop]
    have hall := hj.stops (.here hperform (program.drop (count + 1)))
    rwa [← hsplit, List.length_take_of_le (Nat.le_of_lt hlength), Nat.add_zero] at hall
  · rw [hstops.executeAll_eq] at hflat
    cases (Prod.mk.inj hflat).2

private theorem Stops.stopsAt (h : i.Stops program count j fault) :
    i.StopsAt program count fault := by
  obtain ⟨s, hs, hfails⟩ := h.fails
  obtain ⟨locals, hbefore, hj⟩ := executeAll_over_eq_iff.1 h.performs.executeAll_eq
  refine ⟨⟨i.globals, locals⟩, s, hbefore, hs, ?_⟩
  have hflat := execute_flattened ⟨i.globals, locals⟩ s
  change execute ⟨.empty, i.globals.extend locals⟩ s = _ at hflat
  rw [← hj, execute_of_perform_error hfails] at hflat
  cases hover : execute ⟨i.globals, locals⟩ s with
  | error fault' => rw [hover] at hflat; exact hflat.symm
  | ok scope => rw [hover] at hflat; cases hflat

def behind (bytes : Nat) (result : Except Diagnostics Unit) : Except Diagnostics Unit :=
  result.mapError (·.shift bytes)

/-- Whether it does not matter how statements are divided among runs. Two sources that can be read,
run one after the other, do what the two lines do in one run, up to the place of what is reported. A
source that cannot be read changes nothing; one that fails at a statement leaves what the statements
in front of it alone leave, which the source starts with; and one that does not fail writes over the
globals what it assigns when it is evaluated. -/
structure RunsInBatches (i : Interpreter) : Prop where
  lines : ∀ a b p q, parse a = .ok p → parse b = .ok q →
    (∀ problems, (i.run a).2 = .error problems → i.run (a ++ "\n" ++ b) = i.run a) ∧
      ((i.run a).2 = .ok () → i.run (a ++ "\n" ++ b) =
        (((i.run a).1.run b).1, behind (utf8Length a.toList + 1) ((i.run a).1.run b).2))
  unread : ∀ source problems, parse source = .error problems → i.run source = (i, .error problems)
  failed : ∀ source program problems, parse source = .ok program →
    (i.run source).2 = .error problems → ∃ count fault, i.StopsAt program count fault
  stopped : ∀ source program count fault, parse source = .ok program →
    i.StopsAt program count fault →
      (i.run source).2 = .error (.single fault.diagnostic) ∧
        (∀ text, parse text = .ok (program.take count) →
          i.run text = ((i.run source).1, .ok ())) ∧
            ∃ text rest, source = text ++ rest ∧ parse text = .ok (program.take count)
  succeeded : ∀ source, (i.run source).2 = .ok () → ∃ bound, i.evaluateLines [source] = .ok bound ∧
    (i.run source).1.globals = i.globals.extend bound

private theorem run_lines (i : Interpreter) {a b : String} (ha : parse a = .ok p)
    (hb : parse b = .ok q) :
    (∀ problems, (i.run a).2 = .error problems → i.run (a ++ "\n" ++ b) = i.run a) ∧
      ((i.run a).2 = .ok () → i.run (a ++ "\n" ++ b) =
        (((i.run a).1.run b).1, behind (utf8Length a.toList + 1) ((i.run a).1.run b).2)) := by
  have hboth := parse_lines_eq_ok_iff.2 ⟨p, q, ha, hb, rfl⟩
  rcases performs_or_stops i p with ⟨j, hp⟩ | ⟨count, j, fault, hp⟩
  · rw [hp.run_eq ha]
    refine ⟨nofun, fun _ => ?_⟩
    rcases performs_or_stops j q with ⟨k, hq⟩ | ⟨count, k, fault, hq⟩
    · rw [(hp.append (hq.mapSpan _)).run_eq hboth, hq.run_eq hb]
      rfl
    · rw [(hp.stops (hq.mapSpan _)).run_eq hboth, hq.run_eq hb, EvaluationFault.diagnostic_shift]
      rfl
  · rw [hp.run_eq ha, (hp.append _).run_eq hboth]
    exact ⟨fun _ _ => rfl, nofun⟩

private theorem stopped_run (i : Interpreter) {source : String} (h : parse source = .ok program)
    (hstops : i.StopsAt program count fault) :
    (i.run source).2 = .error (.single fault.diagnostic) ∧
      (∀ text, parse text = .ok (program.take count) → i.run text = ((i.run source).1, .ok ())) ∧
        ∃ text rest, source = text ++ rest ∧ parse text = .ok (program.take count) := by
  obtain ⟨j, hbefore, hj⟩ := hstops.exists_stops
  rw [hj.run_eq h]
  exact ⟨rfl, fun text htext => hbefore.run_eq htext, exists_parse_take h count⟩

private theorem succeeded_run (i : Interpreter) {source : String} (h : (i.run source).2 = .ok ()) :
    ∃ bound, i.evaluateLines [source] = .ok bound ∧
      (i.run source).1.globals = i.globals.extend bound := by
  have hjoin : joinLines [source] = source := rfl
  unfold run at h
  unfold run evaluateLines
  rw [hjoin]
  cases hparse : parse source with
  | error problems => simp [hparse] at h
  | ok program =>
    obtain ⟨⟨scope, fault⟩, hall⟩ : ∃ result, executeAll (.fresh i.globals) program = result :=
      ⟨_, rfl⟩
    simp only [hparse, hall] at h ⊢
    cases fault with
    | none => exact ⟨scope.locals, rfl, rfl⟩
    | some fault => cases h

/-- Batches of statements do not matter to any interpreter, and a run that fails keeps exactly what
was assigned in front of the failure. -/
theorem runs_in_batches (i : Interpreter) : RunsInBatches i where
  lines _ _ _ _ ha hb := run_lines i ha hb
  unread source problems h := by rw [run, h]
  failed source program problems h hfailed := by
    rcases performs_or_stops i program with ⟨j, hp⟩ | ⟨count, j, fault, hp⟩
    · rw [hp.run_eq h] at hfailed
      cases hfailed
    · exact ⟨count, fault, hp.stopsAt⟩
  stopped _ _ _ _ h hstops := stopped_run i h hstops
  succeeded _ h := succeeded_run i h

end Interpreter

end DiagramScope.Script
