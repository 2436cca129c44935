import DiagramScope.Document
import DiagramScope.Proofs.Mask.Codec
import DiagramScope.Proofs.OrderedMap
import DiagramScope.Proofs.Store

/-!
Loading documents. Main statement: a document becomes a store if and only if no node is declared
twice and no block gives its mask in two forms. The store then has exactly the declared nodes in
their order, each with what its own declaration says; otherwise the fault names the first
declaration that cannot be taken.
-/

set_option autoImplicit false
set_option relaxedAutoImplicit false

namespace DiagramScope.Document

def BlockDeclaration.GivesBoth (b : BlockDeclaration) : Prop := b.mask.isSome ∧ b.exprs.isSome

/-- What may be stored for the mask of a block: nothing, its raw form as it is, or what reads back
as the mask. -/
inductive BlockDeclaration.Stores (b : BlockDeclaration) : Option Wire → Prop where
  | nothing (hmask : b.mask = none) (hexprs : b.exprs = none) : Stores b none
  | verbatim {w : Wire} (hmask : b.mask = none) (hexprs : b.exprs = some w) : Stores b (some w)
  | encoded {mask : Mask} {w : Wire} (hmask : b.mask = some mask) (hexprs : b.exprs = none)
      (hread : Mask.decode w = .ok mask) : Stores b (some w)

structure DiagramDeclaration.ReadsIn (d : DiagramDeclaration) (p : Properties) : Prop where
  context : p.rawContext d.node = .ok d.context
  exprs : p.maskExprs d.node = .ok none
  parentBlock : p.parentBlock d.node = .ok none
  parentDiagram : p.parentDiagram d.node = .error (.missingProperty d.node .parentDiagram)

structure BlockDeclaration.ReadsIn (b : BlockDeclaration) (p : Properties) : Prop where
  context : p.rawContext b.node = .ok b.context
  exprs : ∃ stored, p.maskExprs b.node = .ok stored ∧ b.Stores stored
  parentBlock : p.parentBlock b.node = .ok (if b.rawParent = 0 then none else some b.rawParent)
  parentDiagram : p.parentDiagram b.node = .ok b.parentDiagram

inductive Declaration where
  | diagram (d : DiagramDeclaration)
  | block (b : BlockDeclaration)

namespace Declaration

def node : Declaration → Node
  | diagram d => d.node
  | block b => b.node

def data : Declaration → NodeData
  | diagram d => d.data
  | block b => b.data

def Conflicts : Declaration → Prop
  | diagram _ => False
  | block b => b.GivesBoth

def addTo (s : Store) : Declaration → Except DocumentFault Store
  | diagram d => addDiagram s d
  | block b => addBlock s b

end Declaration

def declarations (d : Document) : List Declaration :=
  d.diagrams.map .diagram ++ d.blocks.map .block

private theorem nodes_declarations (d : Document) :
    d.declarations.map Declaration.node =
      d.diagrams.map DiagramDeclaration.node ++ d.blocks.map BlockDeclaration.node := by
  rw [declarations, List.map_append, List.map_map, List.map_map]
  rfl

private theorem toStore_eq_foldlM (d : Document) :
    d.toStore = d.declarations.foldlM Declaration.addTo .empty := by
  rw [declarations, List.foldlM_append, List.foldlM_map]
  simp only [List.foldlM_map]
  rfl

/-- Declarations that can all be taken. -/
structure Sound (declared : List Declaration) : Prop where
  nodup : (declared.map Declaration.node).Nodup
  apart : ∀ c ∈ declared, ¬ c.Conflicts

/-- How a declaration offends against the rules behind others that were taken. A node that is there
already counts before a mask in two forms. -/
inductive Offends (taken : List Declaration) (c : Declaration) : DocumentFault → Prop where
  | again (hnode : c.node ∈ taken.map Declaration.node) : Offends taken c (.declaredTwice c.node)
  | both (hnode : c.node ∉ taken.map Declaration.node) (hboth : c.Conflicts) :
      Offends taken c (.maskAndExprs c.node)

/-- A fault is that of the first declaration that offends. -/
def FirstOffence (declared : List Declaration) (fault : DocumentFault) : Prop :=
  ∃ taken c rest, declared = taken ++ c :: rest ∧ Sound taken ∧ Offends taken c fault

def Keeps (declared : List Declaration) (s : Store) : Prop :=
  s.nodes.entries = declared.map fun c => (c.node, c.data)

section Taking

variable {taken more : List Declaration} {c : Declaration} {s s' : Store} {fault : DocumentFault}

private theorem Sound.of_append (h : Sound (taken ++ more)) : Sound taken := by
  have hnodes := h.nodup
  rw [List.map_append] at hnodes
  exact ⟨(List.nodup_append.1 hnodes).1, fun c hc => h.apart c (List.mem_append_left more hc)⟩

private theorem sound_concat_iff :
    Sound (taken ++ [c]) ↔ Sound taken ∧ c.node ∉ taken.map Declaration.node ∧ ¬ c.Conflicts := by
  constructor
  · intro h
    have hnodes := h.nodup
    rw [List.map_append, List.nodup_append] at hnodes
    refine ⟨h.of_append, ?_, h.apart c (by simp)⟩
    intro hmem
    exact hnodes.2.2 c.node hmem c.node (by simp) rfl
  · rintro ⟨htaken, hnode, hboth⟩
    constructor
    · rw [List.map_append, List.nodup_append]
      refine ⟨htaken.nodup, by simp, ?_⟩
      intro node hmem node' hmem' heq
      have hlast : node' = c.node := List.mem_singleton.1 hmem'
      exact hnode (hlast ▸ heq ▸ hmem)
    · intro c' hc'
      rcases List.mem_append.1 hc' with hmem | hmem
      · exact htaken.apart c' hmem
      · exact (List.mem_singleton.1 hmem) ▸ hboth

private theorem Keeps.unique (h : Keeps taken s) (h' : Keeps taken s') : s' = s := by
  obtain ⟨nodes⟩ := s
  obtain ⟨nodes'⟩ := s'
  have hnodes : nodes' = nodes := OrderedMap.ext (h'.trans h.symm)
  rw [hnodes]

private theorem Sound.exists_keeps (h : Sound taken) : ∃ s, Keeps taken s := by
  have hkeys : ((taken.map fun c => (c.node, c.data)).map Prod.fst).Nodup := by
    rw [List.map_map]
    exact h.nodup
  exact ⟨⟨⟨_, hkeys⟩⟩, rfl⟩

private theorem Keeps.nodeList (h : Keeps taken s) : s.nodeList = taken.map Declaration.node := by
  rw [Store.nodeList, OrderedMap.keys, h, List.map_map]
  rfl

private theorem Keeps.contains_iff (h : Keeps taken s) (node : Node) :
    s.contains node = true ↔ node ∈ taken.map Declaration.node := by
  rw [← h.nodeList]
  exact OrderedMap.contains_iff_mem_keys s.nodes node

private theorem Keeps.update (h : Keeps taken s) (hnode : c.node ∉ taken.map Declaration.node) :
    Keeps (taken ++ [c]) (s.update c.node fun _ => c.data) := by
  rw [← h.nodeList] at hnode
  have hentries := s.nodes.entries_insert_of_notMem c.data hnode
  rw [Keeps, List.map_append, ← h]
  exact hentries

private theorem declare_of_contains {node : Node} (data : NodeData) (h : s.contains node = true) :
    declare s node data = .error (.declaredTwice node) :=
  if_pos h

private theorem declare_of_not_contains {node : Node} (data : NodeData)
    (h : ¬ s.contains node = true) : declare s node data = .ok (s.update node fun _ => data) :=
  if_neg h

private theorem addTo_of_again (h : s.contains c.node = true) :
    c.addTo s = .error (.declaredTwice c.node) := by
  cases c with
  | diagram d => exact declare_of_contains d.data h
  | block b =>
    have hdeclare := declare_of_contains b.data h
    rw [Declaration.addTo, addBlock]
    exact Except.bind_eq_error_iff.2 (.inl hdeclare)

private theorem addTo_of_both (h : ¬ s.contains c.node = true) (hboth : c.Conflicts) :
    c.addTo s = .error (.maskAndExprs c.node) := by
  cases c with
  | diagram d => exact hboth.elim
  | block b =>
    have hdeclare := declare_of_not_contains b.data h
    rw [Declaration.addTo, addBlock]
    refine Except.bind_eq_error_iff.2 (.inr ⟨_, hdeclare, ?_⟩)
    rw [hboth.1, hboth.2]
    rfl

private theorem addTo_of_sound (h : ¬ s.contains c.node = true) (hboth : ¬ c.Conflicts) :
    c.addTo s = .ok (s.update c.node fun _ => c.data) := by
  cases c with
  | diagram d => exact declare_of_not_contains d.data h
  | block b =>
    have hdeclare := declare_of_not_contains b.data h
    rw [Declaration.addTo, addBlock]
    refine Except.bind_eq_ok_iff.2 ⟨_, hdeclare, ?_⟩
    have hforms : ¬ (b.mask.isSome && b.exprs.isSome) = true := by
      intro hand
      exact hboth (Bool.and_eq_true_iff.1 hand)
    rw [if_neg hforms]
    rfl

/-- A declaration is taken if it is sound behind those before, and then it is kept behind them. -/
theorem Keeps.addTo_eq_ok_iff (h : Keeps taken s) (hsound : Sound taken) :
    c.addTo s = .ok s' ↔
      Sound (taken ++ [c]) ∧ s' = s.update c.node fun _ => c.data := by
  rw [sound_concat_iff, ← h.contains_iff]
  by_cases hnode : s.contains c.node = true
  · simp [addTo_of_again hnode, hnode]
  · by_cases hboth : c.Conflicts
    · simp [addTo_of_both hnode hboth, hboth]
    · simp [addTo_of_sound hnode hboth, hnode, hboth, hsound, eq_comm]

private theorem Keeps.addTo_eq_error_iff (h : Keeps taken s) :
    c.addTo s = .error fault ↔ Offends taken c fault := by
  constructor
  · intro hfault
    by_cases hnode : s.contains c.node = true
    · rw [addTo_of_again hnode] at hfault
      cases hfault
      exact .again ((h.contains_iff _).1 hnode)
    · by_cases hboth : c.Conflicts
      · rw [addTo_of_both hnode hboth] at hfault
        cases hfault
        exact .both (fun hmem => hnode ((h.contains_iff _).2 hmem)) hboth
      · rw [addTo_of_sound hnode hboth] at hfault
        cases hfault
  · rintro (hnode | ⟨hnode, hboth⟩)
    · exact addTo_of_again ((h.contains_iff _).2 hnode)
    · exact addTo_of_both (fun hmem => hnode ((h.contains_iff _).1 hmem)) hboth

/-- Declarations are all taken if they are sound together, and then all of them are kept. -/
theorem Keeps.foldlM_eq_ok_iff (h : Keeps taken s) (hsound : Sound taken) :
    more.foldlM Declaration.addTo s = .ok s' ↔
      Sound (taken ++ more) ∧ Keeps (taken ++ more) s' := by
  induction more generalizing taken s with
  | nil =>
    rw [List.append_nil]
    constructor
    · intro hdone
      cases hdone
      exact ⟨hsound, h⟩
    · rintro ⟨-, hkeeps⟩
      rw [h.unique hkeeps]
      rfl
  | cons c rest ih =>
    have happend : taken ++ c :: rest = taken ++ [c] ++ rest := List.append_cons ..
    rw [List.foldlM_cons, Except.bind_eq_ok_iff, happend]
    constructor
    · rintro ⟨s₁, hfirst, hrest⟩
      obtain ⟨hsound₁, rfl⟩ := (h.addTo_eq_ok_iff hsound).1 hfirst
      have hkeeps₁ := h.update (sound_concat_iff.1 hsound₁).2.1
      exact (ih hkeeps₁ hsound₁).1 hrest
    · intro hall
      have hsound₁ : Sound (taken ++ [c]) := hall.1.of_append
      have hkeeps₁ := h.update (sound_concat_iff.1 hsound₁).2.1
      exact ⟨_, (h.addTo_eq_ok_iff hsound).2 ⟨hsound₁, rfl⟩, (ih hkeeps₁ hsound₁).2 hall⟩

end Taking

section Loading

variable {d : Document} {s : Store} {fault : DocumentFault}

private theorem keeps_nil : Keeps [] .empty := rfl

private theorem sound_nil : Sound [] := ⟨List.nodup_nil, nofun⟩

private theorem toStore_eq_ok_iff :
    d.toStore = .ok s ↔ Sound d.declarations ∧ Keeps d.declarations s := by
  rw [toStore_eq_foldlM]
  exact keeps_nil.foldlM_eq_ok_iff sound_nil

private theorem toStore_eq_error_iff :
    d.toStore = .error fault ↔ FirstOffence d.declarations fault := by
  rw [toStore_eq_foldlM, Except.foldlM_eq_error_iff]
  constructor
  · rintro ⟨taken, c, rest, s', hsplit, htaken, hlast⟩
    obtain ⟨hsound, hkeeps⟩ := (keeps_nil.foldlM_eq_ok_iff sound_nil).1 htaken
    exact ⟨taken, c, rest, hsplit, hsound, hkeeps.addTo_eq_error_iff.1 hlast⟩
  · rintro ⟨taken, c, rest, hsplit, hsound, hoffends⟩
    obtain ⟨s', hkeeps⟩ := hsound.exists_keeps
    have htaken := (keeps_nil.foldlM_eq_ok_iff sound_nil).2 ⟨hsound, hkeeps⟩
    exact ⟨taken, c, rest, s', hsplit, htaken, hkeeps.addTo_eq_error_iff.2 hoffends⟩

/-- The declarations of a document are sound if the diagrams differ, the blocks differ, and no block
gives its mask in two forms. A block and a diagram may share an identifier. -/
theorem sound_declarations_iff :
    Sound d.declarations ↔
      (d.diagrams.map DiagramDeclaration.id).Nodup ∧ (d.blocks.map BlockDeclaration.id).Nodup ∧
        ∀ b ∈ d.blocks, ¬ b.GivesBoth := by
  have hdiagrams : (d.diagrams.map DiagramDeclaration.node).Nodup ↔
      (d.diagrams.map DiagramDeclaration.id).Nodup := by
    simp [List.Nodup, List.pairwise_map, DiagramDeclaration.node, Node.diagram]
  have hblocks : (d.blocks.map BlockDeclaration.node).Nodup ↔
      (d.blocks.map BlockDeclaration.id).Nodup := by
    simp [List.Nodup, List.pairwise_map, BlockDeclaration.node, Node.block]
  have hkinds : ∀ node ∈ d.diagrams.map DiagramDeclaration.node,
      ∀ node' ∈ d.blocks.map BlockDeclaration.node, node ≠ node' := by
    intro node hnode node' hnode' heq
    obtain ⟨c, -, rfl⟩ := List.mem_map.1 hnode
    obtain ⟨b, -, rfl⟩ := List.mem_map.1 hnode'
    exact NodeKind.noConfusion (congrArg Node.kind heq)
  constructor
  · rintro ⟨hnodup, hapart⟩
    rw [nodes_declarations, List.nodup_append] at hnodup
    refine ⟨hdiagrams.1 hnodup.1, hblocks.1 hnodup.2.1, fun b hb => hapart (.block b) ?_⟩
    exact List.mem_append_right _ (List.mem_map_of_mem hb)
  · rintro ⟨hids, hids', hapart⟩
    constructor
    · rw [nodes_declarations, List.nodup_append]
      exact ⟨hdiagrams.2 hids, hblocks.2 hids', hkinds⟩
    · intro c hc
      rcases List.mem_append.1 hc with hmem | hmem
      · obtain ⟨_, -, rfl⟩ := List.mem_map.1 hmem
        exact id
      · obtain ⟨b, hb, rfl⟩ := List.mem_map.1 hmem
        exact hapart b hb

private theorem Keeps.properties {declared : List Declaration} {c : Declaration}
    (h : Keeps declared s) (hc : c ∈ declared) (key : PropertyKey) :
    s.properties c.node key = c.data.read c.node key := by
  have hmem : (c.node, c.data) ∈ s.nodes.entries := by
    rw [h]
    exact List.mem_map_of_mem hc
  exact Store.properties_of_get? (OrderedMap.get?_of_mem_entries hmem) key

private theorem Keeps.diagram_reads {declared : List Declaration} {c : DiagramDeclaration}
    (h : Keeps declared s) (hc : .diagram c ∈ declared) : c.ReadsIn s.properties := by
  have hread : ∀ key, s.properties c.node key = c.data.read c.node key := h.properties hc
  constructor
  · rw [Properties.rawContext, hread]
    rfl
  · rw [Properties.maskExprs, hread]
    rfl
  · rw [Properties.parentBlock, hread]
    rfl
  · rw [Properties.parentDiagram, hread]
    rfl

private theorem BlockDeclaration.stores_storedExprs {b : BlockDeclaration} (h : ¬ b.GivesBoth) :
    b.Stores b.storedExprs := by
  unfold storedExprs
  cases hmask : b.mask with
  | some mask =>
    cases hexprs : b.exprs with
    | some w => exact absurd ⟨Option.isSome_of_eq_some hmask, Option.isSome_of_eq_some hexprs⟩ h
    | none => exact .encoded hmask hexprs (Mask.decode_encode mask)
  | none =>
    cases hexprs : b.exprs with
    | some w => exact .verbatim hmask hexprs
    | none => exact .nothing hmask hexprs

private theorem Keeps.block_reads {declared : List Declaration} {b : BlockDeclaration}
    (h : Keeps declared s) (hb : .block b ∈ declared) (hforms : ¬ b.GivesBoth) :
    b.ReadsIn s.properties := by
  have hread : ∀ key, s.properties b.node key = b.data.read b.node key := h.properties hb
  constructor
  · rw [Properties.rawContext, hread]
    rfl
  · refine ⟨b.storedExprs, ?_, BlockDeclaration.stores_storedExprs hforms⟩
    rw [Properties.maskExprs, hread]
    rfl
  · rw [Properties.parentBlock, hread]
    rfl
  · rw [Properties.parentDiagram, hread]
    rfl

end Loading

/-- A store is what a document declares: its diagrams and then its blocks, in their order and with
nothing else, and each of them reads as it was declared. -/
structure IsStoreOf (d : Document) (s : Store) : Prop where
  nodes : s.nodeList =
    d.diagrams.map DiagramDeclaration.node ++ d.blocks.map BlockDeclaration.node
  diagrams : ∀ c ∈ d.diagrams, c.ReadsIn s.properties
  blocks : ∀ b ∈ d.blocks, b.ReadsIn s.properties

/-- Loading gives a store if and only if the diagrams differ, the blocks differ and no mask is given
in two forms. The store is what the document declares, and a fault is that of the first declaration
that offends. -/
structure LoadsFaithfully (d : Document) : Prop where
  parsed : ∀ text, read text = .ok d → parse text = d.toStore.mapError .document
  succeeds : (∃ s, d.toStore = .ok s) ↔
    (d.diagrams.map DiagramDeclaration.id).Nodup ∧ (d.blocks.map BlockDeclaration.id).Nodup ∧
      ∀ b ∈ d.blocks, ¬ b.GivesBoth
  keeps : ∀ s, d.toStore = .ok s → IsStoreOf d s
  fails : ∀ fault, d.toStore = .error fault ↔ FirstOffence d.declarations fault

theorem documents_load_faithfully (d : Document) : LoadsFaithfully d where
  parsed := by
    intro text hread
    rw [parse, hread]
  succeeds := by
    rw [← sound_declarations_iff]
    constructor
    · rintro ⟨s, hs⟩
      exact (toStore_eq_ok_iff.1 hs).1
    · intro hsound
      obtain ⟨s, hkeeps⟩ := hsound.exists_keeps
      exact ⟨s, toStore_eq_ok_iff.2 ⟨hsound, hkeeps⟩⟩
  keeps := by
    intro s hs
    obtain ⟨hsound, hkeeps⟩ := toStore_eq_ok_iff.1 hs
    constructor
    · exact hkeeps.nodeList.trans (nodes_declarations d)
    · intro c hc
      exact hkeeps.diagram_reads (List.mem_append_left _ (List.mem_map_of_mem hc))
    · intro b hb
      have hmem : .block b ∈ d.declarations := List.mem_append_right _ (List.mem_map_of_mem hb)
      exact hkeeps.block_reads hmem (hsound.apart _ hmem)
  fails := fun _ => toStore_eq_error_iff

end DiagramScope.Document
