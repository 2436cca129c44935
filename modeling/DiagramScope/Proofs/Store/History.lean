import DiagramScope.Proofs.OrderedMap
import DiagramScope.Proofs.Store

/-!
What holds of a store after any history of changes. Main statement: the nodes are those that were
filled in, a write succeeds if the node can have a value of that type under the key, it changes the
one property and lasts, a write that fails changes nothing, and what is read under a key belongs to
the key.
-/

set_option autoImplicit false
set_option relaxedAutoImplicit false

namespace DiagramScope

namespace Properties

def access (p : Properties) (node : Node) : PropertyKey → Except StoreFault Property
  | .rawContext => (p.rawContext node).map .strings
  | .maskExprs => (p.maskExprs node).map .exprs
  | .parentBlock => (p.parentBlock node).map .parent
  | .parentDiagram => (p.parentDiagram node).map .id

variable {p : Properties} {node : Node} {key : PropertyKey}

private theorem access_of_error {fault : StoreFault} (h : p node key = .error fault) :
    p.access node key = .error fault := by
  cases key <;>
    simp only [access, rawContext, maskExprs, parentBlock, parentDiagram, h] <;> rfl

private theorem access_of_ok {value : Property} (h : p node key = .ok value) :
    p.access node key = if value.key = key then .ok value else .error (mismatch key value) := by
  cases key <;>
    simp only [access, rawContext, maskExprs, parentBlock, parentDiagram, h] <;>
    cases value <;> rfl

end Properties

private theorem NodeData.read_cases (data : NodeData) (node : Node) (key : PropertyKey) :
    (∃ value, data.read node key = .ok value ∧ value.key = key) ∨
      key = .parentDiagram ∧ data.read node key = .error (.missingProperty node key) := by
  cases key with
  | rawContext => exact .inl ⟨_, rfl, rfl⟩
  | maskExprs => exact .inl ⟨_, rfl, rfl⟩
  | parentBlock => exact .inl ⟨_, rfl, rfl⟩
  | parentDiagram =>
    unfold read
    cases data.parentDiagram with
    | some id => exact .inl ⟨_, rfl, rfl⟩
    | none => exact .inr ⟨rfl, rfl⟩

private theorem NodeData.read_foldl_put {key : PropertyKey} {properties : List Property}
    (hkeys : ∀ value ∈ properties, value.key ≠ key) (data : NodeData) (node : Node) :
    (properties.foldl put data).read node key = data.read node key := by
  induction properties generalizing data with
  | nil => rfl
  | cons value rest ih =>
    obtain ⟨hvalue, hrest⟩ := List.forall_mem_cons.1 hkeys
    exact (ih hrest _).trans (read_put_of_ne data node hvalue)

/-- A change of a store: a node is added, if it is not there, and properties of it are filled in one
after the other, or one property of a node is replaced. -/
inductive Change where
  | fill (node : Node) (properties : List Property)
  | set (node : Node) (key : PropertyKey) (value : Property)

def Change.Touches (node : Node) (key : PropertyKey) : Change → Prop
  | fill node' properties => node' = node ∧ ∃ value ∈ properties, value.key = key
  | set node' key' _ => node' = node ∧ key' = key

namespace Store

variable {s : Store} {node : Node} {key : PropertyKey} {value : Property}

/-- Makes a change and tells whether it could be made. One that fails leaves the store as it is. -/
def change (s : Store) : Change → Store × Except StoreFault Unit
  | .fill node properties => (s.update node fun data => properties.foldl NodeData.put data, .ok ())
  | .set node key value =>
    match s.set node key value with
    | .ok s' => (s', .ok ())
    | .error fault => (s, .error fault)

def after (s : Store) (changes : List Change) : Store :=
  changes.foldl (fun s c => (s.change c).1) s

@[simp]
theorem after_nil (s : Store) : s.after [] = s := rfl

@[simp]
theorem after_cons (s : Store) (c : Change) (cs : List Change) :
    s.after (c :: cs) = (s.change c).1.after cs := rfl

private theorem mem_nodeList_iff : node ∈ s.nodeList ↔ ∃ data, s.nodes.get? node = some data := by
  rw [← Option.isSome_iff_exists]
  exact (OrderedMap.contains_iff_mem_keys s.nodes node).symm

/-! ### One change -/

structure Accepts (s : Store) (node : Node) (key : PropertyKey) (value : Property) : Prop where
  present : node ∈ s.nodeList
  typed : value.key = key
  block : key = .parentBlock ∨ key = .parentDiagram → node.kind = .block

/-- Why a value cannot be written under a key of a node. A diagram refuses parents before their type
matters. -/
inductive Refuses (s : Store) (node : Node) (key : PropertyKey) (value : Property) :
    StoreFault → Prop
  | absent : node ∉ s.nodeList → Refuses s node key value (.missingNode node)
  | parentless : node ∈ s.nodeList → key = .parentBlock ∨ key = .parentDiagram →
      node.kind = .diagram → Refuses s node key value (.missingProperty node key)
  | mistyped : node ∈ s.nodeList →
      (key = .parentBlock ∨ key = .parentDiagram → node.kind = .block) → value.key ≠ key →
      Refuses s node key value (.wrongType key key.typeName value.typeName)

private theorem isParentKey_iff :
    isParentKey key = true ↔ key = .parentBlock ∨ key = .parentDiagram := by
  cases key <;> decide

private theorem guard_eq_false_iff : (isParentKey key && node.isDiagram) = false ↔
    (key = .parentBlock ∨ key = .parentDiagram → node.kind = .block) := by
  rw [← isParentKey_iff]
  unfold Node.isDiagram
  cases isParentKey key <;> cases node.kind <;> decide

private theorem accepts_iff : s.Accepts node key value ↔ ∃ s', s.set node key value = .ok s' := by
  constructor
  · rintro ⟨hpresent, htyped, hblock⟩
    obtain ⟨data, hdata⟩ := mem_nodeList_iff.1 hpresent
    exact ⟨_, set_eq_ok_iff.2 ⟨data, hdata, guard_eq_false_iff.2 hblock, htyped, rfl⟩⟩
  · rintro ⟨s', hset⟩
    obtain ⟨data, hdata, hguard, htyped, -⟩ := set_eq_ok_iff.1 hset
    exact ⟨mem_nodeList_iff.2 ⟨data, hdata⟩, htyped, guard_eq_false_iff.1 hguard⟩

private theorem refuses_of_set {fault : StoreFault} (h : s.set node key value = .error fault) :
    s.Refuses node key value fault := by
  unfold set at h
  split at h
  · next hdata =>
    cases h
    exact .absent (by rw [mem_nodeList_iff, hdata]; rintro ⟨data, h⟩; cases h)
  · next data hdata =>
    have hpresent : node ∈ s.nodeList := mem_nodeList_iff.2 ⟨data, hdata⟩
    split at h
    · next hguard =>
      cases h
      obtain ⟨hkey, hnode⟩ := Bool.and_eq_true_iff.1 hguard
      exact .parentless hpresent (isParentKey_iff.1 hkey) (of_decide_eq_true hnode)
    · next hguard =>
      split at h
      · cases h
      · next hkey =>
        cases h
        exact .mistyped hpresent (guard_eq_false_iff.1 (Bool.not_eq_true _ ▸ hguard)) hkey

private theorem Refuses.not_accepts {fault : StoreFault} (h : s.Refuses node key value fault) :
    ¬ s.Accepts node key value := by
  intro haccepts
  cases h with
  | absent habsent => exact habsent haccepts.present
  | parentless _ hkey hnode => exact absurd ((haccepts.block hkey).symm.trans hnode) (by decide)
  | mistyped _ _ htyped => exact htyped haccepts.typed

private theorem Refuses.unique {fault fault' : StoreFault} (h : s.Refuses node key value fault)
    (h' : s.Refuses node key value fault') : fault = fault' := by
  cases h with
  | absent habsent =>
    cases h' with
    | absent => rfl
    | parentless hpresent | mistyped hpresent => exact absurd hpresent habsent
  | parentless hpresent hkey hnode =>
    cases h' with
    | absent habsent => exact absurd hpresent habsent
    | parentless => rfl
    | mistyped _ hblock => exact absurd ((hblock hkey).symm.trans hnode) (by decide)
  | mistyped hpresent hblock =>
    cases h' with
    | absent habsent => exact absurd hpresent habsent
    | parentless _ hkey hnode => exact absurd ((hblock hkey).symm.trans hnode) (by decide)
    | mistyped => rfl

/-- A change of one property is made where it is accepted and leaves the store alone where it is
refused. -/
theorem change_set_cases (s : Store) (node : Node) (key : PropertyKey) (value : Property) :
    (∃ s', s.change (.set node key value) = (s', .ok ()) ∧ s.Accepts node key value ∧
        s.Written s' node key value) ∨
      ∃ fault, s.change (.set node key value) = (s, .error fault) ∧
        s.Refuses node key value fault := by
  cases hset : s.set node key value with
  | ok s' =>
    exact .inl ⟨s', by simp only [change, hset], accepts_iff.2 ⟨s', hset⟩, written_of_set hset⟩
  | error fault => exact .inr ⟨fault, by simp only [change, hset], refuses_of_set hset⟩

private theorem change_set_eq_ok_iff :
    (s.change (.set node key value)).2 = .ok () ↔ s.Accepts node key value := by
  obtain ⟨s', hchange, haccepts, -⟩ | ⟨fault, hchange, hrefuses⟩ :=
    s.change_set_cases node key value
  · simp [hchange, haccepts]
  · simp [hchange, hrefuses.not_accepts]

private theorem change_set_eq_error_iff {fault : StoreFault} :
    (s.change (.set node key value)).2 = .error fault ↔ s.Refuses node key value fault := by
  obtain ⟨s', hchange, haccepts, -⟩ | ⟨fault', hchange, hrefuses⟩ :=
    s.change_set_cases node key value
  · rw [hchange]
    exact ⟨nofun, fun hrefuses => absurd haccepts hrefuses.not_accepts⟩
  · rw [hchange]
    refine ⟨fun hfault => ?_, fun hrefuses' => congrArg Except.error (hrefuses.unique hrefuses')⟩
    cases hfault
    exact hrefuses

private theorem written_change (h : s.Accepts node key value) :
    s.Written (s.change (.set node key value)).1 node key value := by
  obtain ⟨s', hchange, -, hwritten⟩ | ⟨fault, -, hrefuses⟩ := s.change_set_cases node key value
  · rw [hchange]
    exact hwritten
  · exact absurd h hrefuses.not_accepts

private theorem change_of_not_accepts (h : ¬ s.Accepts node key value) :
    (s.change (.set node key value)).1 = s := by
  obtain ⟨s', -, haccepts, -⟩ | ⟨fault, hchange, -⟩ := s.change_set_cases node key value
  · exact absurd haccepts h
  · rw [hchange]

private theorem mem_nodeList_change {c : Change} : node ∈ (s.change c).1.nodeList ↔
    node ∈ s.nodeList ∨ ∃ properties, c = .fill node properties := by
  cases c with
  | fill node' properties =>
    have hmem : node ∈ (s.change (.fill node' properties)).1.nodeList ↔
        node = node' ∨ node ∈ s.nodeList := OrderedMap.mem_keys_insert ..
    simp [hmem, eq_comm, or_comm]
  | set node' key value =>
    obtain ⟨s', hchange, -, hwritten⟩ | ⟨fault, hchange, -⟩ := s.change_set_cases node' key value
    · simp [hchange, hwritten.nodes]
    · simp [hchange]

private theorem properties_change {c : Change} (hnode : node ∈ s.nodeList)
    (hc : ¬ c.Touches node key) : (s.change c).1.properties node key = s.properties node key := by
  cases c with
  | fill node' properties =>
    by_cases hsame : node' = node
    · subst hsame
      obtain ⟨data, hdata⟩ := mem_nodeList_iff.1 hnode
      have hkeys : ∀ value ∈ properties, value.key ≠ key :=
        fun value hvalue hkey => hc ⟨rfl, value, hvalue, hkey⟩
      calc (s.change (.fill node' properties)).1.properties node' key
          = (properties.foldl NodeData.put ((s.nodes.get? node').getD .blank)).read node' key :=
            properties_insert_self ..
        _ = data.read node' key := by
            rw [hdata, Option.getD_some, NodeData.read_foldl_put hkeys]
        _ = s.properties node' key := (properties_of_get? hdata key).symm
    · exact properties_insert_of_ne s (Ne.symm hsame) _ key
  | set node' key' value =>
    obtain ⟨s', hchange, -, hwritten⟩ | ⟨fault, hchange, -⟩ := s.change_set_cases node' key' value
    · rw [hchange]
      refine hwritten.agrees node key (Classical.not_and_iff_not_or_not.1 ?_)
      exact fun h => hc ⟨h.1.symm, h.2.symm⟩
    · rw [hchange]

/-! ### Any number of changes -/

private theorem mem_nodeList_after {changes : List Change} : node ∈ (s.after changes).nodeList ↔
    node ∈ s.nodeList ∨ ∃ properties, Change.fill node properties ∈ changes := by
  induction changes generalizing s with
  | nil => simp
  | cons c cs ih =>
    simp only [after_cons, ih, mem_nodeList_change, List.mem_cons, or_assoc, exists_or,
      eq_comm (a := c)]

/-- What is read under a key stays until a change is meant for it. -/
theorem properties_after {changes : List Change} (hnode : node ∈ s.nodeList)
    (hchanges : ∀ c ∈ changes, ¬ c.Touches node key) :
    (s.after changes).properties node key = s.properties node key := by
  induction changes generalizing s with
  | nil => rfl
  | cons c cs ih =>
    obtain ⟨hc, hcs⟩ := List.forall_mem_cons.1 hchanges
    calc ((s.change c).1.after cs).properties node key
        = (s.change c).1.properties node key := ih (mem_nodeList_change.2 (.inl hnode)) hcs
      _ = s.properties node key := properties_change hnode hc

private theorem properties_after_change {later : List Change} (h : s.Accepts node key value)
    (hlater : ∀ c ∈ later, ¬ c.Touches node key) :
    ((s.change (.set node key value)).1.after later).properties node key = .ok value := by
  have hwritten := written_change h
  have hpresent : node ∈ (s.change (.set node key value)).1.nodeList :=
    hwritten.nodes.symm ▸ h.present
  exact (properties_after hpresent hlater).trans hwritten.value

/-! ### The laws -/

private theorem get_of_mem (hnode : node ∈ s.nodeList) (key : PropertyKey) :
    (∃ value, s.get node key = .ok value ∧ value.key = key) ∨
      key = .parentDiagram ∧ s.get node key = .error (.missingProperty node key) := by
  obtain ⟨data, hdata⟩ := mem_nodeList_iff.1 hnode
  have hget : s.get node key = data.read node key := properties_of_get? hdata key
  rw [hget]
  exact data.read_cases node key

private theorem get_of_not_mem (hnode : node ∉ s.nodeList) (key : PropertyKey) :
    s.get node key = .error (.missingNode node) :=
  properties_of_get?_none ((OrderedMap.get?_eq_none_iff ..).2 hnode) key

private theorem access_properties (s : Store) (node : Node) (key : PropertyKey) :
    s.properties.access node key = s.get node key := by
  by_cases hnode : node ∈ s.nodeList
  · obtain ⟨value, hget, hvalue⟩ | ⟨-, hget⟩ := get_of_mem hnode key
    · have haccess := (Properties.access_of_ok hget).trans (if_pos hvalue)
      exact haccess.trans hget.symm
    · exact (Properties.access_of_error hget).trans hget.symm
  · have hget := get_of_not_mem hnode key
    exact (Properties.access_of_error hget).trans hget.symm

private theorem access_ne_mistyped (s : Store) (node : Node) (key key' : PropertyKey)
    (expected found : String) :
    s.properties.access node key ≠ .error (.wrongType key' expected found) := by
  rw [access_properties]
  by_cases hnode : node ∈ s.nodeList
  · obtain ⟨value, hget, -⟩ | ⟨-, hget⟩ := get_of_mem hnode key <;> simp [hget]
  · simp [get_of_not_mem hnode key]

/-- What holds of a store after a history of changes. -/
structure KeepsLaws (s : Store) (history : List Change) : Prop where
  mem_nodeList : ∀ node, node ∈ s.nodeList ↔ ∃ properties, Change.fill node properties ∈ history
  succeeds : ∀ node key value,
    (s.change (.set node key value)).2 = .ok () ↔ s.Accepts node key value
  fails : ∀ node key value fault,
    (s.change (.set node key value)).2 = .error fault ↔ s.Refuses node key value fault
  written : ∀ node key value, s.Accepts node key value →
    s.Written (s.change (.set node key value)).1 node key value
  lasts : ∀ node key value later, s.Accepts node key value →
    (∀ c ∈ later, ¬ c.Touches node key) →
      ((s.change (.set node key value)).1.after later).get node key = .ok value
  kept : ∀ node key value, ¬ s.Accepts node key value → (s.change (.set node key value)).1 = s
  present : ∀ node ∈ s.nodeList, ∀ key,
    (∃ value, s.get node key = .ok value ∧ value.key = key) ∨
      key = .parentDiagram ∧ s.get node key = .error (.missingProperty node key)
  absent : ∀ node, node ∉ s.nodeList → ∀ key, s.get node key = .error (.missingNode node)
  accessors : ∀ node key, s.properties.access node key = s.get node key
  never_mistyped : ∀ node key key' expected found,
    s.properties.access node key ≠ .error (.wrongType key' expected found)

/-- The laws hold after every history. -/
theorem keepsLaws_of_history (history : List Change) :
    (empty.after history).KeepsLaws history where
  mem_nodeList node := by
    have hempty : node ∉ empty.nodeList := List.not_mem_nil
    rw [mem_nodeList_after, or_iff_right hempty]
  succeeds _ _ _ := change_set_eq_ok_iff
  fails _ _ _ _ := change_set_eq_error_iff
  written _ _ _ := written_change
  lasts _ _ _ _ := properties_after_change
  kept _ _ _ := change_of_not_accepts
  present _ := get_of_mem
  absent _ := get_of_not_mem
  accessors := access_properties _
  never_mistyped := access_ne_mistyped _

end Store

end DiagramScope
