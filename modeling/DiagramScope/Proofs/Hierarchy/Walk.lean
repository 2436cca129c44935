import DiagramScope.Proofs.Hierarchy
import Mathlib.Data.List.Nodup

/-!
What the walk up from a block comes to, in terms of the path of blocks that enclose it. Main
statement: it succeeds exactly on the paths that end in a diagram within the bound, fails where a
path comes back to itself, grows too long or cannot be read, and reads each block on the way once.
-/

set_option autoImplicit false
set_option relaxedAutoImplicit false

namespace DiagramScope

/-- The blocks on the way up from a block to one that encloses it, each the parent of the one
before. -/
inductive Properties.Path (p : Properties) : Nat → List Nat → Nat → Prop where
  | single (block : Nat) : p.Path block [block] block
  | step {block parent last : Nat} {blocks : List Nat} :
      p.parentBlock (.block block) = .ok (some parent) → p.Path parent blocks last →
      p.Path block (block :: blocks) last

/-- Whether no path leads on from a block: it has no parent, or its parent cannot be read. -/
def Properties.Stuck (p : Properties) (block : Nat) : Prop :=
  ∀ parent, p.parentBlock (.block block) ≠ .ok (some parent)

/-- Whether a path cannot be completed because of what is read at its last block: its parent, or its
diagram if it has no parent. -/
inductive Properties.Breaks (p : Properties) (last : Nat) (fault : StoreFault) : Prop where
  | parent (h : p.parentBlock (.block last) = .error fault)
  | diagram (hnone : p.parentBlock (.block last) = .ok none)
      (h : p.parentDiagram (.block last) = .error fault)

namespace Properties

variable {p : Properties} {first last last' : Nat} {blocks blocks' : List Nat}

private theorem stuck_of_none (h : p.parentBlock (.block last) = .ok none) : p.Stuck last := by
  intro parent hparent
  cases h.symm.trans hparent

private theorem Breaks.stuck {fault : StoreFault} (h : p.Breaks last fault) : p.Stuck last := by
  cases h with
  | parent h =>
    intro parent hparent
    cases h.symm.trans hparent
  | diagram hnone _ => exact stuck_of_none hnone

private theorem Breaks.unique {fault fault' : StoreFault} (h : p.Breaks last fault)
    (h' : p.Breaks last fault') : fault = fault' := by
  cases h with
  | parent hfault =>
    cases h' with
    | parent hfault' => exact Except.error.inj (hfault.symm.trans hfault')
    | diagram hnone _ => cases hnone.symm.trans hfault
  | diagram hnone hfault =>
    cases h' with
    | parent hfault' => cases hnone.symm.trans hfault'
    | diagram _ hfault' => exact Except.error.inj (hfault.symm.trans hfault')

private theorem exists_of_not_stuck (h : ¬ p.Stuck last) :
    ∃ parent, p.parentBlock (.block last) = .ok (some parent) := by
  simpa [Properties.Stuck] using h

private theorem Path.exists_cons (h : p.Path first blocks last) :
    ∃ rest, blocks = first :: rest := by
  cases h with
  | single => exact ⟨[], rfl⟩
  | step _ _ => exact ⟨_, rfl⟩

private theorem Path.concat {parent : Nat} (h : p.Path first blocks last)
    (hparent : p.parentBlock (.block last) = .ok (some parent)) :
    p.Path first (blocks ++ [parent]) parent := by
  induction h with
  | single block => exact .step hparent (.single parent)
  | step hstep _ ih => exact .step hstep (ih hparent)

private theorem Path.suffix {front back : List Nat} {block : Nat}
    (h : p.Path first (front ++ block :: back) last) : p.Path block (block :: back) last := by
  induction front generalizing first with
  | nil =>
    obtain ⟨rest, hrest⟩ := h.exists_cons
    obtain ⟨rfl, -⟩ := List.cons.inj hrest
    exact h
  | cons _ front ih =>
    generalize hwhole : _ :: front ++ block :: back = whole at h
    cases h with
    | single => simp at hwhole
    | step _ hrest =>
      obtain ⟨-, rfl⟩ := List.cons.inj hwhole
      exact ih hrest

/-- Of two paths that start at the same block, one leads on from the end of the other, unless they
are the same. -/
theorem Path.comparable (h : p.Path first blocks last) (h' : p.Path first blocks' last') :
    (blocks = blocks' ∧ last = last') ∨
      (∃ parent more, p.parentBlock (.block last) = .ok (some parent) ∧
        blocks' = blocks ++ parent :: more) ∨
      ∃ parent more, p.parentBlock (.block last') = .ok (some parent) ∧
        blocks = blocks' ++ parent :: more := by
  induction h generalizing blocks' with
  | single block =>
    cases h' with
    | single => exact Or.inl ⟨rfl, rfl⟩
    | step hparent hrest =>
      obtain ⟨more, rfl⟩ := hrest.exists_cons
      exact Or.inr (Or.inl ⟨_, more, hparent, rfl⟩)
  | step hparent hrest ih =>
    cases h' with
    | single =>
      obtain ⟨more, rfl⟩ := hrest.exists_cons
      exact Or.inr (Or.inr ⟨_, more, hparent, rfl⟩)
    | step hparent' hrest' =>
      obtain rfl := Option.some.inj (Except.ok.inj (hparent.symm.trans hparent'))
      rcases ih hrest' with ⟨rfl, rfl⟩ | ⟨parent, more, hnext, rfl⟩ | ⟨parent, more, hnext, rfl⟩
      · exact Or.inl ⟨rfl, rfl⟩
      · exact Or.inr (Or.inl ⟨parent, more, hnext, rfl⟩)
      · exact Or.inr (Or.inr ⟨parent, more, hnext, rfl⟩)

private theorem Path.nodup (h : p.Path first blocks last) (hstuck : p.Stuck last) :
    blocks.Nodup := by
  induction h with
  | single block => exact List.nodup_singleton block
  | @step block parent last blocks hparent hrest ih =>
    refine List.nodup_cons.2 ⟨fun hmem => ?_, ih hstuck⟩
    obtain ⟨front, back, rfl⟩ := List.append_of_mem hmem
    -- From the block that comes back there would be two paths to the same end.
    have hwhole : p.Path block (block :: (front ++ block :: back)) last := .step hparent hrest
    rcases hwhole.comparable hrest.suffix with ⟨hsame, -⟩ | ⟨_, _, hnext, -⟩ | ⟨_, _, hnext, -⟩
    · have hlength := congrArg List.length hsame
      simp at hlength
      omega
    · exact hstuck _ hnext
    · exact hstuck _ hnext

end Properties

namespace Hierarchy

variable {p : Properties} {first last last' : Nat} {blocks blocks' : List Nat}

section Ends

variable {start : Node} {limit : Nat} {budget block : Nat} {visited : List Nat}

/-- How a walk ends that came up a path. -/
inductive Ends (p : Properties) (start : Node) (limit : Nat) (blocks : List Nat) (last : Nat) :
    Except Failure Nat → Prop where
  | root (diagram : Nat) (hnone : p.parentBlock (.block last) = .ok none)
      (hdiagram : p.parentDiagram (.block last) = .ok diagram) :
      Ends p start limit blocks last (.ok diagram)
  | breaks (fault : StoreFault) (h : p.Breaks last fault) :
      Ends p start limit blocks last (.error (.store fault))
  | cycle (parent : Nat) (hparent : p.parentBlock (.block last) = .ok (some parent))
      (h : parent ∈ blocks ∨ blocks.length = limit) :
      Ends p start limit blocks last (.error (.cycle start blocks.length))

/-- What a walk comes to that passed some blocks: they are the beginning of a path within the bound
that does not come back to a block, and at its end the walk ends. -/
inductive Arrives (p : Properties) (start : Node) (limit first : Nat) (passed : List Nat)
    (walk : Except Failure (List Node)) : Prop where
  | intro (more : List Nat) (last : Nat) (outcome : Except Failure Nat)
      (hpath : p.Path first (passed ++ more) last) (hnodup : (passed ++ more).Nodup)
      (hlength : (passed ++ more).length ≤ limit)
      (hends : Ends p start limit (passed ++ more) last outcome)
      (hwalk : walk = outcome.map fun diagram => more.map .block ++ [.diagram diagram])

private theorem Arrives.here {passed : List Nat} (hpath : p.Path first passed block)
    (hnodup : passed.Nodup) (hlength : passed.length ≤ limit) {outcome : Except Failure Nat}
    (hends : Ends p start limit passed block outcome) :
    Arrives p start limit first passed (outcome.map fun diagram => [.diagram diagram]) := by
  rw [← List.append_nil passed] at hpath hnodup hlength hends
  exact .intro [] block outcome hpath hnodup hlength hends rfl

private theorem Arrives.stuck (hpath : p.Path first visited.reverse block) (hnodup : visited.Nodup)
    (hlength : visited.length ≤ limit) (hstuck : p.Stuck block) :
    Arrives p start limit first visited.reverse (climb p start budget visited block) := by
  have hhere {outcome : Except Failure Nat}
      (hends : Ends p start limit visited.reverse block outcome) :=
    Arrives.here hpath (List.nodup_reverse.2 hnodup) (by rwa [List.length_reverse]) hends
  cases hparent : p.parentBlock (.block block) with
  | error fault =>
    rw [climb_error hparent]
    exact hhere (.breaks fault (.parent hparent))
  | ok found =>
    cases found with
    | some parent => exact absurd hparent (hstuck parent)
    | none =>
      rw [climb_none hparent]
      cases hdiagram : p.parentDiagram (.block block) with
      | error fault => exact hhere (.breaks fault (.diagram hparent hdiagram))
      | ok diagram => exact hhere (.root diagram hparent hdiagram)

private theorem Arrives.further {passed : List Nat} {parent : Nat}
    {walk : Except Failure (List Node)}
    (h : Arrives p start limit first (passed ++ [parent]) walk) :
    Arrives p start limit first passed (walk.map (.block parent :: ·)) := by
  obtain ⟨more, last, outcome, hpath, hnodup, hlength, hends, rfl⟩ := h
  rw [List.append_assoc] at hpath hnodup hlength hends
  refine .intro (parent :: more) last outcome hpath hnodup hlength hends ?_
  cases outcome <;> rfl

private theorem Arrives.cycle (hpath : p.Path first visited.reverse block) (hnodup : visited.Nodup)
    (hlength : visited.length ≤ limit) {parent : Nat}
    (hparent : p.parentBlock (.block block) = .ok (some parent))
    (h : parent ∈ visited ∨ visited.length = limit) :
    Arrives p start limit first visited.reverse (.error (.cycle start visited.length)) := by
  have hcycle : parent ∈ visited.reverse ∨ visited.reverse.length = limit :=
    h.imp List.mem_reverse.2 List.length_reverse.trans
  rw [← List.length_reverse] at hlength ⊢
  exact .here hpath (List.nodup_reverse.2 hnodup) hlength (.cycle parent hparent hcycle)

/-- A walk that passed the blocks of a path goes on to the end of a path. -/
theorem climb_arrives (hpath : p.Path first visited.reverse block) (hnodup : visited.Nodup)
    (hlimit : visited.length + budget = limit) :
    Arrives p start limit first visited.reverse (climb p start budget visited block) := by
  induction budget generalizing visited block with
  | zero =>
    have hlength : visited.length ≤ limit := Nat.le_of_eq hlimit
    by_cases hstuck : p.Stuck block
    · exact .stuck hpath hnodup hlength hstuck
    · obtain ⟨parent, hparent⟩ := Properties.exists_of_not_stuck hstuck
      rw [climb_some hparent, ite_self]
      exact .cycle hpath hnodup hlength hparent (Or.inr hlimit)
  | succ budget ih =>
    have hlength : visited.length ≤ limit := by omega
    by_cases hstuck : p.Stuck block
    · exact .stuck hpath hnodup hlength hstuck
    · obtain ⟨parent, hparent⟩ := Properties.exists_of_not_stuck hstuck
      rw [climb_some hparent]
      split
      · next hseen =>
        exact .cycle hpath hnodup hlength hparent (Or.inl (List.contains_iff_mem.1 hseen))
      · next hnew =>
        have hnext : p.Path first (parent :: visited).reverse parent := by
          rw [List.reverse_cons]
          exact hpath.concat hparent
        have hfresh : (parent :: visited).Nodup :=
          List.nodup_cons.2 ⟨fun hmem => hnew (List.contains_iff_mem.2 hmem), hnodup⟩
        have hrest := ih hnext hfresh (by rw [List.length_cons]; omega)
        rw [List.reverse_cons] at hrest
        exact hrest.further

end Ends

section Reads

abbrev Reading (α : Type) : Type := ExceptT Failure (StateM (List Nat)) α

namespace Reading

def parentBlock (p : Properties) (node : Node) : Reading (Option Nat) :=
  ExceptT.mk fun reads => pure (Failure.ofStore (p.parentBlock node), reads ++ [node.id])

def parentDiagram (p : Properties) (node : Node) : Reading Nat :=
  ExceptT.mk (pure (Failure.ofStore (p.parentDiagram node)))

end Reading

/-- The hierarchy above a node, with a list of the blocks whose parents were read for it. -/
def aboveReading (p : Properties) (maxDepth : Nat) (start : Node) :
    Except Failure Hierarchy × List Nat :=
  (aboveWith (Reading.parentBlock p) (Reading.parentDiagram p) maxDepth start).run.run []

variable {start : Node} {budget block : Nat} {visited : List Nat}

def readingRun (p : Properties) (start : Node) (budget : Nat) (visited : List Nat) (block : Nat)
    (reads : List Nat) : Except Failure (List Node) × List Nat :=
  (climbWith (Reading.parentBlock p) (Reading.parentDiagram p) start budget visited
    block).run.run reads

private theorem run_bind_parentBlock {α : Type} (p : Properties) (block : Nat)
    (next : Option Nat → Reading α) (reads : List Nat) :
    (Reading.parentBlock p (.block block) >>= next).run.run reads =
      match p.parentBlock (.block block) with
      | .error fault => (.error (.store fault), reads ++ [block])
      | .ok found => (next found).run.run (reads ++ [block]) := by
  unfold Reading.parentBlock
  cases p.parentBlock (.block block) <;> rfl

private theorem readingRun_of_stuck (hstuck : p.Stuck block) (reads : List Nat) :
    readingRun p start budget visited block reads =
      (climb p start budget visited block, reads ++ [block]) := by
  unfold readingRun climbWith
  rw [run_bind_parentBlock]
  cases hparent : p.parentBlock (.block block) with
  | error fault => rw [climb_error hparent]
  | ok found =>
    cases found with
    | some parent => exact absurd hparent (hstuck parent)
    | none =>
      rw [climb_none hparent]
      unfold Reading.parentDiagram
      cases p.parentDiagram (.block block) <;> rfl

private theorem run_map {α β : Type} (walk : Reading α) (f : α → β) (reads : List Nat) :
    (walk >>= fun a => pure (f a)).run.run reads =
      ((walk.run.run reads).1.map f, (walk.run.run reads).2) := by
  rw [ExceptT.run_bind, StateT.run_bind]
  generalize walk.run.run reads = result
  obtain ⟨outcome, rest⟩ := result
  cases outcome <;> rfl

private theorem readingRun_of_some {parent : Nat}
    (h : p.parentBlock (.block block) = .ok (some parent)) (reads : List Nat) :
    readingRun p start budget visited block reads =
      if visited.contains parent then (.error (.cycle start visited.length), reads ++ [block])
      else match budget with
        | 0 => (.error (.cycle start visited.length), reads ++ [block])
        | budget + 1 =>
          let rest := readingRun p start budget (parent :: visited) parent (reads ++ [block])
          (rest.1.map (.block parent :: ·), rest.2) := by
  conv => lhs; unfold readingRun climbWith
  rw [run_bind_parentBlock, h]
  by_cases hseen : visited.contains parent = true
  · simp only [hseen, if_true]
    rfl
  · cases budget with
    | zero =>
      simp only [hseen]
      rfl
    | succ budget =>
      simp only [hseen]
      exact run_map _ _ _

/-- Keeping a list of the reads changes nothing, and the list is a path. -/
theorem exists_reads (p : Properties) (start : Node) (budget : Nat) (visited : List Nat)
    (block : Nat) (reads : List Nat) :
    ∃ blocks last, p.Path block blocks last ∧ blocks.length ≤ budget + 1 ∧
      readingRun p start budget visited block reads =
        (climb p start budget visited block, reads ++ blocks) := by
  induction budget generalizing visited block reads with
  | zero =>
    refine ⟨[block], block, .single block, Nat.le_refl 1, ?_⟩
    by_cases hstuck : p.Stuck block
    · exact readingRun_of_stuck hstuck reads
    · obtain ⟨parent, hparent⟩ := Properties.exists_of_not_stuck hstuck
      rw [readingRun_of_some hparent, climb_some hparent, ite_self, ite_self]
  | succ budget ih =>
    have hhere : [block].length ≤ budget + 1 + 1 := by simp
    by_cases hstuck : p.Stuck block
    · exact ⟨[block], block, .single block, hhere, readingRun_of_stuck hstuck reads⟩
    · obtain ⟨parent, hparent⟩ := Properties.exists_of_not_stuck hstuck
      rw [readingRun_of_some hparent, climb_some hparent]
      split
      · exact ⟨[block], block, .single block, hhere, rfl⟩
      · obtain ⟨blocks, last, hpath, hlength, hrun⟩ :=
          ih (parent :: visited) parent (reads ++ [block])
        refine ⟨block :: blocks, last, .step hparent hpath, Nat.succ_le_succ hlength, ?_⟩
        simp only [hrun, List.append_assoc, List.singleton_append]

private theorem exists_aboveReading (p : Properties) (maxDepth block : Nat) :
    ∃ blocks last, p.Path block blocks last ∧ blocks.length ≤ max 1 maxDepth ∧
      aboveReading p maxDepth (.block block) = (above? p maxDepth (.block block), blocks) := by
  obtain ⟨blocks, last, hpath, hlength, hrun⟩ :=
    exists_reads p (.block block) (maxDepth - 1) [block] block []
  refine ⟨blocks, last, hpath, by omega, ?_⟩
  have habove := run_map (climbWith (Reading.parentBlock p) (Reading.parentDiagram p) (.block block)
    (maxDepth - 1) [block] block) (Hierarchy.mk (.block block)) []
  unfold readingRun at hrun
  rw [hrun] at habove
  exact habove

end Reads

section Above

variable {maxDepth block : Nat}

private theorem above?_arrives (p : Properties) (maxDepth block : Nat) :
    ∃ blocks last outcome, p.Path block blocks last ∧ blocks.Nodup ∧
      blocks.length ≤ max 1 maxDepth ∧ Ends p (.block block) (max 1 maxDepth) blocks last outcome ∧
        above? p maxDepth (.block block) = outcome.map fun diagram =>
          ⟨.block block, blocks.tail.map .block ++ [.diagram diagram]⟩ := by
  have hlimit : [block].length + (maxDepth - 1) = max 1 maxDepth := by
    rw [List.length_singleton]
    omega
  have harrives : Arrives p (.block block) (max 1 maxDepth) block [block]
      (climb p (.block block) (maxDepth - 1) [block] block) :=
    climb_arrives (.single block) (List.nodup_singleton block) hlimit
  obtain ⟨more, last, outcome, hpath, hnodup, hlength, hends, hwalk⟩ := harrives
  refine ⟨block :: more, last, outcome, hpath, hnodup, hlength, hends, ?_⟩
  change (climb p (.block block) (maxDepth - 1) [block] block).map (Hierarchy.mk (.block block)) = _
  rw [hwalk]
  cases outcome <;> rfl

private theorem Ends.eq_of_stuck {limit : Nat} {start : Node} {outcome : Except Failure Nat}
    (hends : Ends p start limit blocks last outcome) (h : p.Path block blocks last)
    (h' : p.Path block blocks' last') (hstuck : p.Stuck last') (hlength : blocks'.length ≤ limit) :
    blocks = blocks' ∧ last = last' := by
  rcases h.comparable h' with hsame | ⟨parent, more, hparent, rfl⟩ | ⟨_, _, hparent, -⟩
  · exact hsame
  · cases hends with
    | root _ hnone _ => exact absurd hparent (Properties.stuck_of_none hnone parent)
    | breaks _ hbreaks => exact absurd hparent (hbreaks.stuck parent)
    | cycle parent' hparent' hcycle =>
      obtain rfl := Option.some.inj (Except.ok.inj (hparent.symm.trans hparent'))
      have hnodup := h'.nodup hstuck
      rcases hcycle with hback | hdeep
      · exact absurd List.mem_cons_self (List.disjoint_of_nodup_append hnodup hback)
      · rw [List.length_append, List.length_cons] at hlength
        omega
  · exact absurd hparent (hstuck _)

private theorem Ends.eq_ok {limit diagram : Nat} {start : Node} {outcome : Except Failure Nat}
    (hends : Ends p start limit blocks last outcome)
    (hnone : p.parentBlock (.block last) = .ok none)
    (hdiagram : p.parentDiagram (.block last) = .ok diagram) : outcome = .ok diagram := by
  cases hends with
  | root diagram' _ hdiagram' =>
    exact congrArg Except.ok (Except.ok.inj (hdiagram'.symm.trans hdiagram))
  | breaks fault hbreaks =>
    cases hbreaks with
    | parent hfault => cases hnone.symm.trans hfault
    | diagram _ hfault => cases hdiagram.symm.trans hfault
  | cycle parent hparent _ => cases hnone.symm.trans hparent

private theorem Ends.eq_store {limit : Nat} {start : Node} {outcome : Except Failure Nat}
    {fault : StoreFault} (hends : Ends p start limit blocks last outcome)
    (h : p.Breaks last fault) :
    outcome = .error (.store fault) := by
  cases hends with
  | root diagram hnone hdiagram =>
    cases h with
    | parent hfault => cases hnone.symm.trans hfault
    | diagram _ hfault => cases hdiagram.symm.trans hfault
  | breaks fault' hbreaks => rw [hbreaks.unique h]
  | cycle parent hparent _ => exact absurd hparent (h.stuck parent)

private theorem not_leads_on {limit parent : Nat} (h : p.Path block blocks last)
    (hnodup : blocks.Nodup)
    (hlength : blocks.length ≤ limit) (hstuck : p.Stuck last) (h' : p.Path block blocks' last')
    (hparent : p.parentBlock (.block last') = .ok (some parent)) :
    parent ∉ blocks' ∧ blocks'.length < limit := by
  rcases h.comparable h' with ⟨-, rfl⟩ | ⟨_, _, hnext, -⟩ | ⟨next, more, hnext, rfl⟩
  · exact absurd hparent (hstuck parent)
  · exact absurd hnext (hstuck _)
  · obtain rfl := Option.some.inj (Except.ok.inj (hparent.symm.trans hnext))
    rw [List.length_append, List.length_cons] at hlength
    refine ⟨fun hback => ?_, by omega⟩
    exact absurd List.mem_cons_self (List.disjoint_of_nodup_append hnodup hback)

private theorem above?_eq_ok_iff {h : Hierarchy} :
    above? p maxDepth (.block block) = .ok h ↔
      ∃ blocks last diagram, p.Path block blocks last ∧ p.parentBlock (.block last) = .ok none ∧
        blocks.length ≤ max 1 maxDepth ∧ p.parentDiagram (.block last) = .ok diagram ∧
          h.nodes = blocks.map .block ++ [.diagram diagram] := by
  obtain ⟨blocks, last, outcome, hpath, -, hlength, hends, hwalk⟩ := above?_arrives p maxDepth block
  obtain ⟨rest, hblocks⟩ := hpath.exists_cons
  rw [hwalk]
  constructor
  · intro hok
    cases hends with
    | breaks _ _ => cases hok
    | cycle _ _ _ => cases hok
    | root diagram hnone hdiagram =>
      obtain rfl := Except.ok.inj hok
      refine ⟨blocks, last, diagram, hpath, hnone, hlength, hdiagram, ?_⟩
      rw [hblocks]
      rfl
  · rintro ⟨blocks', last', diagram, hpath', hnone, hlength', hdiagram, hnodes⟩
    obtain ⟨rfl, rfl⟩ :=
      hends.eq_of_stuck hpath hpath' (Properties.stuck_of_none hnone) hlength'
    rw [hends.eq_ok hnone hdiagram]
    obtain ⟨start, above⟩ := h
    rw [hblocks] at hnodes
    obtain ⟨rfl, rfl⟩ := List.cons.inj hnodes
    rw [hblocks]
    rfl

private theorem above?_eq_cycle_iff :
    (∃ depth, above? p maxDepth (.block block) = .error (.cycle (.block block) depth)) ↔
      ∃ blocks last parent, p.Path block blocks last ∧
        p.parentBlock (.block last) = .ok (some parent) ∧
          (parent ∈ blocks ∨ max 1 maxDepth ≤ blocks.length) := by
  obtain ⟨blocks, last, outcome, hpath, hnodup, hlength, hends, hwalk⟩ :=
    above?_arrives p maxDepth block
  rw [hwalk]
  constructor
  · rintro ⟨depth, hcycle⟩
    cases hends with
    | root _ _ _ => cases hcycle
    | breaks _ _ => cases hcycle
    | cycle parent hparent hback =>
      exact ⟨blocks, last, parent, hpath, hparent, hback.imp_right fun h => Nat.le_of_eq h.symm⟩
  · rintro ⟨blocks', last', parent, hpath', hparent, hback⟩
    have hstuck : ¬ p.Stuck last := by
      intro hstuck
      have honward := not_leads_on hpath hnodup hlength hstuck hpath' hparent
      exact hback.elim honward.1 (Nat.not_le.2 honward.2)
    cases hends with
    | root _ hnone _ => exact absurd (Properties.stuck_of_none hnone) hstuck
    | breaks _ hbreaks => exact absurd hbreaks.stuck hstuck
    | cycle _ _ _ => exact ⟨blocks.length, rfl⟩

private theorem above?_eq_store_iff {fault : StoreFault} :
    above? p maxDepth (.block block) = .error (.store fault) ↔
      ∃ blocks last, p.Path block blocks last ∧ blocks.length ≤ max 1 maxDepth ∧
        p.Breaks last fault := by
  obtain ⟨blocks, last, outcome, hpath, -, hlength, hends, hwalk⟩ := above?_arrives p maxDepth block
  rw [hwalk]
  constructor
  · intro hfault
    cases hends with
    | root _ _ _ => cases hfault
    | cycle _ _ _ => cases hfault
    | breaks fault' hbreaks =>
      obtain rfl := Failure.store.inj (Except.error.inj hfault)
      exact ⟨blocks, last, hpath, hlength, hbreaks⟩
  · rintro ⟨blocks', last', hpath', hlength', hbreaks⟩
    obtain ⟨rfl, rfl⟩ := hends.eq_of_stuck hpath hpath' hbreaks.stuck hlength'
    rw [hends.eq_store hbreaks]
    rfl

private theorem eq_cycle_or_eq_store {failure : Failure}
    (h : above? p maxDepth (.block block) = .error failure) :
    (∃ depth, failure = .cycle (.block block) depth) ∨ ∃ fault, failure = .store fault := by
  obtain ⟨blocks, last, outcome, -, -, -, hends, hwalk⟩ := above?_arrives p maxDepth block
  rw [hwalk] at h
  cases hends with
  | root _ _ _ => cases h
  | breaks fault _ => exact Or.inr ⟨fault, (Except.error.inj h).symm⟩
  | cycle _ _ _ => exact Or.inl ⟨blocks.length, (Except.error.inj h).symm⟩

/-- Whether the walk up from a block does what it should under a bound: it finds the path of blocks
up to one without a parent, and its diagram, if they can be read and the bound is not passed; it
gives up where, before anything cannot be read, the path comes back to a block or goes on past the
bound; and otherwise it fails with what could not be read first. -/
structure WalksExactly (p : Properties) (maxDepth block : Nat) : Prop where
  ok_iff : ∀ h, above? p maxDepth (.block block) = .ok h ↔
    ∃ blocks last diagram, p.Path block blocks last ∧ p.parentBlock (.block last) = .ok none ∧
      blocks.length ≤ max 1 maxDepth ∧ p.parentDiagram (.block last) = .ok diagram ∧
        h.nodes = blocks.map .block ++ [.diagram diagram]
  nodup : ∀ h, above? p maxDepth (.block block) = .ok h → h.nodes.Nodup
  cycle_iff : (∃ depth, above? p maxDepth (.block block) = .error (.cycle (.block block) depth)) ↔
    ∃ blocks last parent, p.Path block blocks last ∧
      p.parentBlock (.block last) = .ok (some parent) ∧
        (parent ∈ blocks ∨ max 1 maxDepth ≤ blocks.length)
  store_iff : ∀ fault, above? p maxDepth (.block block) = .error (.store fault) ↔
    ∃ blocks last, p.Path block blocks last ∧ blocks.length ≤ max 1 maxDepth ∧ p.Breaks last fault
  failure : ∀ failure, above? p maxDepth (.block block) = .error failure →
    (∃ depth, failure = .cycle (.block block) depth) ∨ ∃ fault, failure = .store fault
  reads : ∃ blocks last, p.Path block blocks last ∧ blocks.length ≤ max 1 maxDepth ∧
    aboveReading p maxDepth (.block block) = (above? p maxDepth (.block block), blocks)
  raised : ∀ maxDepth' h, maxDepth ≤ maxDepth' → above? p maxDepth (.block block) = .ok h →
    above? p maxDepth' (.block block) = .ok h

private theorem above?_mono {maxDepth maxDepth' : Nat} {start : Node} {h : Hierarchy}
    (hdepth : maxDepth ≤ maxDepth') (habove : above? p maxDepth start = .ok h) :
    above? p maxDepth' start = .ok h := by
  obtain ⟨kind, id⟩ := start
  cases kind with
  | diagram => exact habove
  | block =>
    obtain ⟨nodes, hclimb, hpure⟩ := Except.bind_eq_ok_iff.1 habove
    have hbudget : maxDepth - 1 ≤ maxDepth' - 1 := Nat.sub_le_sub_right hdepth 1
    have hmore : climb p (.block id) (maxDepth' - 1) [id] id = .ok nodes :=
      climb_mono hbudget (fun _ hid => hid) hclimb
    exact Except.bind_eq_ok_iff.2 ⟨nodes, hmore, hpure⟩

/-- The walk up from a block finds exactly the paths that lead to a diagram within the bound, for
all stores and all bounds. It stops whatever the parents of blocks are, reads the parent of at most
as many blocks as the bound allows, and a larger bound does not change what it finds. -/
theorem walks_are_exact (p : Properties) (maxDepth block : Nat) :
    WalksExactly p maxDepth block where
  ok_iff _ := above?_eq_ok_iff
  nodup _ h := (nodup_nodes_and_mem_iff h).1
  cycle_iff := above?_eq_cycle_iff
  store_iff _ := above?_eq_store_iff
  failure _ := eq_cycle_or_eq_store
  reads := exists_aboveReading p maxDepth block
  raised _ _ := above?_mono

end Above

end Hierarchy

end DiagramScope
