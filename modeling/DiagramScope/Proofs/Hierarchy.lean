import DiagramScope.Hierarchy

/-!
The walk up from a block. Main statements: it is the block and then the walk up from the node that
encloses it, under the same bound; it visits the nodes of the block's chain, each once, and its
outcome depends on the parents of these nodes only.
-/

set_option autoImplicit false
set_option relaxedAutoImplicit false

namespace DiagramScope

/-- The node that encloses a block: the block that it names as its parent, else its diagram. -/
def Properties.enclosing (p : Properties) (block : Nat) : Except StoreFault Node := do
  match ← p.parentBlock (.block block) with
  | some parent => pure (.block parent)
  | none => (p.parentDiagram (.block block)).map .diagram

/-- The chain of a node: the node, and with each block the node that encloses it. -/
inductive Properties.InChain (p : Properties) (start : Node) : Node → Prop where
  | start : p.InChain start start
  | enclosing {block : Nat} {outer : Node} :
      p.InChain start (.block block) → p.enclosing block = .ok outer → p.InChain start outer

namespace Hierarchy

variable {p : Properties}

private theorem enclosing_of_none {block diagram : Nat}
    (h : p.parentBlock (.block block) = .ok none)
    (hdiagram : p.parentDiagram (.block block) = .ok diagram) :
    p.enclosing block = .ok (.diagram diagram) := by
  simp only [Properties.enclosing, h, hdiagram]
  rfl

private theorem enclosing_of_some {block parent : Nat}
    (h : p.parentBlock (.block block) = .ok (some parent)) :
    p.enclosing block = .ok (.block parent) := by
  simp only [Properties.enclosing, h]
  rfl

theorem climb_error {start : Node} {budget : Nat} {visited : List Nat} {block : Nat}
    {fault : StoreFault} (h : p.parentBlock (.block block) = .error fault) :
    climb p start budget visited block = .error (.store fault) := by
  unfold climb climbWith
  rw [h]
  rfl

theorem climb_none {start : Node} {budget : Nat} {visited : List Nat} {block : Nat}
    (h : p.parentBlock (.block block) = .ok none) :
    climb p start budget visited block =
      (Failure.ofStore (p.parentDiagram (.block block))).map fun diagram => [.diagram diagram] := by
  unfold climb climbWith
  rw [h]
  rfl

theorem climb_some {start : Node} {budget : Nat} {visited : List Nat} {block parent : Nat}
    (h : p.parentBlock (.block block) = .ok (some parent)) :
    climb p start budget visited block =
      if visited.contains parent then .error (.cycle start visited.length)
      else match budget with
        | 0 => .error (.cycle start visited.length)
        | budget + 1 =>
          (climb p start budget (parent :: visited) parent).map (.block parent :: ·) := by
  conv => lhs; unfold climb climbWith
  rw [h]
  cases budget <;> rfl

private theorem climb_eq_ok_iff {start : Node} {budget : Nat} {visited : List Nat} {block : Nat}
    {nodes : List Node} :
    climb p start budget visited block = .ok nodes ↔
      (∃ diagram, p.parentBlock (.block block) = .ok none ∧
        p.parentDiagram (.block block) = .ok diagram ∧ nodes = [.diagram diagram]) ∨
      ∃ parent rest more, p.parentBlock (.block block) = .ok (some parent) ∧
        visited.contains parent = false ∧ budget = rest + 1 ∧
          climb p start rest (parent :: visited) parent = .ok more ∧
            nodes = .block parent :: more := by
  cases h : p.parentBlock (.block block) with
  | error fault =>
    simp [climb_error h]
  | ok found =>
    cases found with
    | none =>
      rw [climb_none h, Except.map_eq_ok_iff]
      simp only [Failure.ofStore_eq_ok_iff, Except.ok.injEq, reduceCtorEq, false_and,
        exists_false, or_false, true_and, eq_comm (b := nodes)]
    | some parent =>
      rw [climb_some h]
      simp only [Except.ok.injEq, reduceCtorEq, false_and, exists_false, false_or,
        Option.some.injEq, exists_and_left, exists_eq_left']
      cases visited.contains parent with
      | true => simp only [if_true, reduceCtorEq, Bool.true_eq_false, false_and]
      | false =>
        cases budget with
        | zero => simp
        | succ budget =>
          simp [Except.map_eq_ok_iff, eq_comm (b := nodes)]

/-- A walk that ends at a diagram does so with more blocks to spend and fewer to avoid. -/
theorem climb_mono {start start' : Node} {budget budget' : Nat} {visited visited' : List Nat}
    {block : Nat} {nodes : List Node} (hbudget : budget ≤ budget')
    (hvisited : ∀ id, visited'.contains id = true → visited.contains id = true)
    (h : climb p start budget visited block = .ok nodes) :
    climb p start' budget' visited' block = .ok nodes := by
  induction budget generalizing budget' visited visited' block nodes with
  | zero =>
    rcases climb_eq_ok_iff.1 h with htop | ⟨parent, rest, more, _, _, hrest, _⟩
    · exact climb_eq_ok_iff.2 (Or.inl htop)
    · omega
  | succ budget ih =>
    rcases climb_eq_ok_iff.1 h with htop | ⟨parent, rest, more, hparent, hnew, hrest, hmore, hnodes⟩
    · exact climb_eq_ok_iff.2 (Or.inl htop)
    · obtain rfl : budget = rest := Nat.succ.inj hrest
      obtain ⟨budget', rfl⟩ : ∃ k, budget' = k + 1 := ⟨budget' - 1, by omega⟩
      have hnew' : visited'.contains parent = false := by
        cases hseen : visited'.contains parent with
        | false => rfl
        | true => rw [hvisited parent hseen] at hnew; cases hnew
      refine climb_eq_ok_iff.2 (Or.inr ⟨parent, budget', more, hparent, hnew', rfl, ?_, hnodes⟩)
      refine ih (by omega) (fun id hid => ?_) hmore
      simp only [List.contains_cons, Bool.or_eq_true] at hid ⊢
      exact hid.imp_right (hvisited id)

private theorem not_mem_climb {start : Node} {budget : Nat} {visited : List Nat} {block : Nat}
    {nodes : List Node} (h : climb p start budget visited block = .ok nodes) {id : Nat}
    (hid : visited.contains id = true) : .block id ∉ nodes := by
  induction budget generalizing visited block nodes with
  | zero =>
    rcases climb_eq_ok_iff.1 h with ⟨diagram, _, _, rfl⟩ | ⟨parent, rest, more, _, _, hrest, _⟩
    · intro hmem
      cases List.mem_singleton.1 hmem
    · omega
  | succ budget ih =>
    rcases climb_eq_ok_iff.1 h with
      ⟨diagram, _, _, rfl⟩ | ⟨parent, rest, more, _, hnew, hrest, hmore, rfl⟩
    · intro hmem
      cases List.mem_singleton.1 hmem
    · obtain rfl : budget = rest := Nat.succ.inj hrest
      intro hmem
      rcases List.mem_cons.1 hmem with hparent | hmem
      · obtain rfl : id = parent := congrArg Node.id hparent
        rw [hid] at hnew
        cases hnew
      · refine ih hmore ?_ hmem
        simp only [List.contains_cons, hid, Bool.or_true]

theorem start_not_mem_above {maxDepth : Nat} {start : Node} {h : Hierarchy}
    (habove : above? p maxDepth start = .ok h) : h.start = start ∧ start ∉ h.above := by
  obtain ⟨kind, id⟩ := start
  cases kind with
  | diagram =>
    obtain rfl := Except.ok.inj habove
    exact ⟨rfl, nofun⟩
  | block =>
    obtain ⟨nodes, hclimb, hpure⟩ := Except.bind_eq_ok_iff.1 habove
    obtain rfl := Except.ok.inj hpure
    exact ⟨rfl, not_mem_climb hclimb (by simp)⟩

/-- The hierarchy of a block is the block below the hierarchy of the node that encloses it. -/
theorem above?_block {maxDepth block : Nat} {h : Hierarchy}
    (hblock : above? p maxDepth (.block block) = .ok h) :
    ∃ outer k, p.enclosing block = .ok outer ∧ above? p maxDepth outer = .ok k ∧
      h = ⟨.block block, k.nodes⟩ := by
  obtain ⟨nodes, hclimb, hpure⟩ := Except.bind_eq_ok_iff.1 hblock
  obtain rfl := Except.ok.inj hpure
  rcases climb_eq_ok_iff.1 hclimb with
    ⟨diagram, hnone, hdiagram, rfl⟩ | ⟨parent, rest, more, hparent, _, hrest, hmore, rfl⟩
  · exact ⟨.diagram diagram, ⟨.diagram diagram, []⟩, enclosing_of_none hnone hdiagram, rfl, rfl⟩
  · have hwhole : climb p (.block parent) (maxDepth - 1) [parent] parent = .ok more := by
      refine climb_mono (by omega) (fun id hid => ?_) hmore
      simp only [List.contains_cons, Bool.or_eq_true] at hid ⊢
      exact hid.imp_right fun hnone => by cases hnone
    refine ⟨.block parent, ⟨.block parent, more⟩, enclosing_of_some hparent, ?_, rfl⟩
    exact Except.bind_eq_ok_iff.2 ⟨more, hwhole, rfl⟩

private theorem inChain_block_iff {block : Nat} {outer other : Node}
    (h : p.enclosing block = .ok outer) :
    p.InChain (.block block) other ↔ other = .block block ∨ p.InChain outer other := by
  constructor
  · intro hchain
    induction hchain with
    | start => exact Or.inl rfl
    | @enclosing inner next _ hnext ih =>
      rcases ih with hself | hinner
      · obtain rfl : inner = block := congrArg Node.id hself
        obtain rfl := Except.ok.inj (h.symm.trans hnext)
        exact Or.inr .start
      · exact Or.inr (.enclosing hinner hnext)
  · rintro (rfl | hchain)
    · exact .start
    · induction hchain with
      | start => exact .enclosing .start h
      | enclosing _ hnext ih => exact .enclosing ih hnext

private theorem inChain_diagram_iff {diagram : Nat} {other : Node} :
    p.InChain (.diagram diagram) other ↔ other = .diagram diagram := by
  constructor
  · intro hchain
    induction hchain with
    | start => rfl
    | enclosing _ _ ih => cases ih
  · rintro rfl
    exact .start

/-- A hierarchy consists of the chain of its start, each node once. -/
theorem nodup_nodes_and_mem_iff {maxDepth : Nat} {start : Node} {h : Hierarchy}
    (habove : above? p maxDepth start = .ok h) :
    h.nodes.Nodup ∧ ∀ node, node ∈ h.nodes ↔ p.InChain start node := by
  -- The induction is on the number of nodes above, one less for the node that encloses a block.
  induction hlength : h.above.length generalizing start h with
  | zero =>
    obtain ⟨kind, id⟩ := start
    cases kind with
    | diagram =>
      obtain rfl := Except.ok.inj habove
      refine ⟨List.nodup_cons.2 ⟨List.not_mem_nil, List.nodup_nil⟩, fun node => ?_⟩
      exact List.mem_singleton.trans inChain_diagram_iff.symm
    | block =>
      obtain ⟨outer, k, _, _, rfl⟩ := above?_block habove
      cases hlength
  | succ count ih =>
    obtain ⟨kind, id⟩ := start
    cases kind with
    | diagram =>
      obtain rfl := Except.ok.inj habove
      cases hlength
    | block =>
      obtain ⟨outer, k, houter, hk, rfl⟩ := above?_block habove
      obtain ⟨hnodup, hmem⟩ := ih hk (Nat.succ.inj hlength)
      refine ⟨List.nodup_cons.2 ⟨(start_not_mem_above habove).2, hnodup⟩, fun node => ?_⟩
      rw [show (⟨.block, id⟩ : Node) = .block id from rfl, inChain_block_iff houter, ← hmem]
      exact List.mem_cons

theorem mem_nodes_iff_inChain {maxDepth : Nat} {start node : Node} {h : Hierarchy}
    (habove : above? p maxDepth start = .ok h) : node ∈ h.nodes ↔ p.InChain start node :=
  (nodup_nodes_and_mem_iff habove).2 node

/-- A walk depends on the parents of the nodes of a chain only, whether it succeeds or fails. -/
theorem climb_congr {q : Properties} {bottom : Node}
    (h : ∀ node key, p.InChain bottom node → Store.isParentKey key → q node key = p node key)
    (start : Node) (budget : Nat) (visited : List Nat) {block : Nat}
    (hchain : p.InChain bottom (.block block)) :
    climb q start budget visited block = climb p start budget visited block := by
  have hblock {block : Nat} (hchain : p.InChain bottom (.block block)) :
      q.parentBlock (.block block) = p.parentBlock (.block block) := by
    unfold Properties.parentBlock
    rw [h _ .parentBlock hchain rfl]
  have hdiagram {block : Nat} (hchain : p.InChain bottom (.block block)) :
      q.parentDiagram (.block block) = p.parentDiagram (.block block) := by
    unfold Properties.parentDiagram
    rw [h _ .parentDiagram hchain rfl]
  induction budget generalizing visited block with
  | zero =>
    unfold climb climbWith
    rw [hblock hchain, hdiagram hchain]
  | succ budget ih =>
    cases hparent : p.parentBlock (.block block) with
    | error fault => rw [climb_error hparent, climb_error ((hblock hchain).trans hparent)]
    | ok found =>
      cases found with
      | none =>
        rw [climb_none hparent, climb_none ((hblock hchain).trans hparent), hdiagram hchain]
      | some parent =>
        have hnext := ih (parent :: visited) (.enclosing hchain (enclosing_of_some hparent))
        rw [climb_some hparent, climb_some ((hblock hchain).trans hparent)]
        simp only [hnext]

theorem above?_congr {q : Properties} {start : Node}
    (h : ∀ node key, p.InChain start node → Store.isParentKey key → q node key = p node key)
    (maxDepth : Nat) : above? q maxDepth start = above? p maxDepth start := by
  obtain ⟨kind, id⟩ := start
  cases kind with
  | diagram => rfl
  | block =>
    have hclimb := climb_congr h (.block id) (maxDepth - 1) [id] .start
    exact congrArg (Except.map (Hierarchy.mk (.block id))) hclimb

end Hierarchy

end DiagramScope
