import DiagramScope.Store

/-!
Writing to a store. Main statements: a write that succeeds changes one property of one node and no
place in the order of the nodes, and it succeeds for the context lines and the mask of every node
that exists.
-/

set_option autoImplicit false
set_option relaxedAutoImplicit false

namespace DiagramScope

/-- Two ways to read properties that differ at most in one property of one node. -/
def Properties.AgreesExcept (p q : Properties) (node : Node) (key : PropertyKey) : Prop :=
  ∀ node' key', node' ≠ node ∨ key' ≠ key → q node' key' = p node' key'

namespace NodeData

def read (data : NodeData) (node : Node) : PropertyKey → Except StoreFault Property
  | .rawContext => .ok (.strings data.context)
  | .maskExprs => .ok (.exprs data.exprs)
  | .parentBlock => .ok (.parent data.parentBlock)
  | .parentDiagram =>
    match data.parentDiagram with
    | some id => .ok (.id id)
    | none => .error (.missingProperty node .parentDiagram)

private theorem read_put_self (data : NodeData) (node : Node) (value : Property) :
    (data.put value).read node value.key = .ok value := by
  cases value <;> rfl

theorem read_put_of_ne (data : NodeData) (node : Node) {key : PropertyKey} {value : Property}
    (hkey : value.key ≠ key) : (data.put value).read node key = data.read node key := by
  cases value <;> cases key <;> first | rfl | exact absurd rfl hkey

end NodeData

namespace Store

variable {s s' : Store} {node : Node} {key : PropertyKey} {value : Property}

theorem properties_of_get? {data : NodeData} (h : s.nodes.get? node = some data)
    (key : PropertyKey) : s.properties node key = data.read node key := by
  unfold properties get
  rw [h]
  cases key <;> rfl

theorem properties_of_get?_none (h : s.nodes.get? node = none) (key : PropertyKey) :
    s.properties node key = .error (.missingNode node) := by
  unfold properties get
  rw [h]

theorem exists_of_rawContext {lines : List String}
    (h : s.properties.rawContext node = .ok lines) : ∃ data, s.nodes.get? node = some data := by
  cases hdata : s.nodes.get? node with
  | some data => exact ⟨data, rfl⟩
  | none =>
    have hfail : s.properties.rawContext node = .error (.missingNode node) := by
      unfold Properties.rawContext
      rw [properties_of_get?_none hdata]
      rfl
    rw [hfail] at h
    cases h

/-- A write succeeds if it puts a value of the key in place for a node that exists, other than a
parent for a diagram. -/
theorem set_eq_ok_iff :
    s.set node key value = .ok s' ↔
      ∃ data, s.nodes.get? node = some data ∧ (isParentKey key && node.isDiagram) = false ∧
        value.key = key ∧ s' = ⟨s.nodes.insert node (data.put value)⟩ := by
  unfold set
  cases s.nodes.get? node with
  | none => simp
  | some data =>
    cases isParentKey key && node.isDiagram with
    | true => simp
    | false =>
      by_cases hkey : value.key = key
      · simp [hkey, eq_comm]
      · simp [hkey]

/-- What comes of a write: the property has the value, and nothing else has changed. -/
structure Written (s s' : Store) (node : Node) (key : PropertyKey) (value : Property) : Prop where
  nodes : s'.nodeList = s.nodeList
  value : s'.properties node key = .ok value
  agrees : s.properties.AgreesExcept s'.properties node key

theorem properties_insert_self (s : Store) (node : Node) (data : NodeData) (key : PropertyKey) :
    properties ⟨s.nodes.insert node data⟩ node key = data.read node key :=
  properties_of_get? (s.nodes.get?_insert_self node data) key

theorem properties_insert_of_ne (s : Store) {node node' : Node} (hnode : node' ≠ node)
    (data : NodeData) (key : PropertyKey) :
    properties ⟨s.nodes.insert node data⟩ node' key = s.properties node' key := by
  unfold properties get
  rw [OrderedMap.get?_insert_of_ne _ hnode]

theorem written_of_set (h : s.set node key value = .ok s') : s.Written s' node key value := by
  obtain ⟨data, hdata, -, rfl, rfl⟩ := set_eq_ok_iff.1 h
  refine ⟨?_, ?_, ?_⟩
  · have hmem : node ∈ s.nodes.keys :=
      (OrderedMap.contains_iff_mem_keys _ _).1 (by rw [OrderedMap.contains, hdata]; rfl)
    exact (OrderedMap.keys_insert ..).trans (if_pos hmem)
  · exact (properties_insert_self ..).trans (NodeData.read_put_self ..)
  · intro node' key' hother
    by_cases hnode : node' = node
    · subst hnode
      have hkey : key' ≠ value.key := hother.resolve_left (fun hne => hne rfl)
      rw [properties_insert_self, NodeData.read_put_of_ne _ _ hkey.symm,
        properties_of_get? hdata]
    · exact properties_insert_of_ne s hnode _ key'

theorem exists_written {data : NodeData} (h : s.nodes.get? node = some data) (value : Property)
    (hkey : isParentKey value.key = false) :
    ∃ s', s.set node value.key value = .ok s' ∧ s.Written s' node value.key value := by
  have hset : s.set node value.key value = .ok ⟨s.nodes.insert node (data.put value)⟩ :=
    set_eq_ok_iff.2 ⟨data, h, by rw [hkey, Bool.false_and], rfl, rfl⟩
  exact ⟨_, hset, written_of_set hset⟩

end Store

end DiagramScope
