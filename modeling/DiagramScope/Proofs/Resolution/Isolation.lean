import DiagramScope.Proofs.Resolution.Rewriting
import Mathlib.Data.List.Nodup

/-!
Contexts of unrelated nodes do not touch each other. Main statement: a write to a node outside of a
chain changes nothing in the hierarchy and the context of the chain's start, and new lines for a
node of the chain change its lines in this context and nothing else.
-/

set_option autoImplicit false
set_option relaxedAutoImplicit false

namespace DiagramScope.Resolution

variable {p q : Properties} {maxDepth : Nat} {node other : Node}

/-- All of a context but the lines of one node: the nodes nearer to the root and the nodes nearer to
the start, each with its segment, and the mask of the node. -/
structure Surroundings where
  outer : List (Node × List String)
  mask : Option Mask
  inner : List (Node × List String)

namespace Surroundings

variable {x : Surroundings} {lines : List String}

def around (x : Surroundings) (lines : List String) : List String :=
  x.outer.flatMap Prod.snd ++ (lines ++ "" :: assignmentsOf x.mask) ++ x.inner.flatMap Prod.snd

/-- The lines of `other`, a node of the chain of `node`, stand in the context of `node` between the
segments of the other nodes of the chain, each in its place. -/
structure Surround (x : Surroundings) (p : Properties) (maxDepth : Nat) (node other : Node)
    (lines : List String) : Prop where
  places : ∃ h, Hierarchy.above? p maxDepth node = .ok h ∧
    h.rootFirst = x.outer.map Prod.fst ++ other :: x.inner.map Prod.fst
  segments : ∀ entry ∈ x.outer ++ x.inner, entry.1 ≠ other ∧ segment p entry.1 = .ok entry.2
  lines : p.rawContext other = .ok lines
  mask : storedMask p other = .ok x.mask

private theorem Surround.resolve_eq (h : x.Surround p maxDepth node other lines) :
    resolve p maxDepth node = .ok (x.around lines) := by
  obtain ⟨k, habove, hplaces⟩ := h.places
  have hown : segment p other = .ok (ownStatements lines x.mask) :=
    segment_eq_ok_iff.2 ⟨lines, x.mask, h.lines, h.mask, rfl⟩
  refine resolve_eq_ok_iff.2 ⟨k, _, habove, Except.mapM_eq_ok_iff_entries.2
    ⟨x.outer ++ (other, ownStatements lines x.mask) :: x.inner, ?_, rfl, ?_⟩, ?_⟩
  · rw [hplaces, List.map_append, List.map_cons]
  · intro entry hentry
    rcases List.mem_append.1 hentry with houter | hinner
    · exact (h.segments entry (List.mem_append_left _ houter)).2
    · rcases List.mem_cons.1 hinner with rfl | hinner
      · exact hown
      · exact (h.segments entry (List.mem_append_right _ hinner)).2
  · simp [around, ownStatements, List.flatMap]

/-- A context that can be resolved has the lines of every node of the chain in it. -/
theorem exists_surround {statements : List String}
    (hresolve : resolve p maxDepth node = .ok statements) (hchain : p.InChain node other) :
    ∃ (x : Surroundings) (lines : List String),
      x.Surround p maxDepth node other lines ∧ statements = x.around lines := by
  obtain ⟨k, segments, habove, hsegments, rfl⟩ := resolve_eq_ok_iff.1 hresolve
  obtain ⟨entries, hfst, -, hentries⟩ := Except.mapM_eq_ok_iff_entries.1 hsegments
  have hmem : other ∈ k.rootFirst :=
    List.mem_reverse.2 ((Hierarchy.mem_nodes_iff_inChain habove).2 hchain)
  have hnodup : k.rootFirst.Nodup :=
    List.nodup_reverse.2 (Hierarchy.nodup_nodes_and_mem_iff habove).1
  obtain ⟨front, back, hsplit⟩ := List.append_of_mem hmem
  obtain ⟨outer, rest, rfl, rfl, hrest⟩ := List.map_eq_append_iff.1 (hfst.trans hsplit)
  obtain ⟨⟨place, own⟩, inner, rfl, hplace, rfl⟩ := List.map_eq_cons_iff.1 hrest
  obtain rfl : place = other := hplace
  -- A hierarchy lists each node once, so the rest of it says nothing about this node.
  have hapart : ∀ entry ∈ outer ++ inner, entry.1 ≠ place := by
    intro entry hentry heq
    rw [hsplit, List.nodup_middle, ← List.map_append] at hnodup
    exact (List.nodup_cons.1 hnodup).1 (heq ▸ List.mem_map_of_mem hentry)
  have hsegment := hentries (place, own) (by simp)
  obtain ⟨lines, mask, hlines, hmask, -⟩ := segment_eq_ok_iff.1 hsegment
  have hx : (⟨outer, mask, inner⟩ : Surroundings).Surround p maxDepth node place lines := by
    refine ⟨⟨k, habove, hsplit⟩, fun entry hentry => ⟨hapart entry hentry, ?_⟩, hlines, hmask⟩
    refine hentries entry ?_
    rcases List.mem_append.1 hentry with houter | hinner
    · exact List.mem_append_left _ houter
    · exact List.mem_append_right _ (List.mem_cons_of_mem _ hinner)
  exact ⟨_, lines, hx, Except.ok.inj (hresolve.symm.trans hx.resolve_eq)⟩

private theorem Surround.rewrite (h : x.Surround p maxDepth node other lines)
    (hagrees : p.AgreesExcept q other .rawContext) {lines' : List String}
    (hlines : q.rawContext other = .ok lines') : x.Surround q maxDepth node other lines' where
  places := by
    obtain ⟨k, habove, hplaces⟩ := h.places
    exact ⟨k, (above?_of_agreesExcept hagrees rfl).trans habove, hplaces⟩
  segments := fun entry hentry => by
    obtain ⟨hne, hsegment⟩ := h.segments entry hentry
    exact ⟨hne, (segment_congr fun key _ => hagrees _ key (Or.inl hne)).trans hsegment⟩
  lines := hlines
  mask := (storedMask_congr (hagrees other .maskExprs (Or.inr nofun))).trans h.mask

end Surroundings

/-- Resolution is isolated. No write to a node outside of the chain of a node changes the hierarchy
or the context of the node, be they results or failures. If the context can be resolved, a node of
the chain can be given any lines; the hierarchy stays, and the context changes in these lines only:
the segments of all other nodes, the blank line and the mask of the node stay in their places. -/
theorem contexts_depend_on_chain (s : Store) (maxDepth : Nat) (node other : Node) :
    (¬ s.properties.InChain node other → ∀ key value s', s.set other key value = .ok s' →
        Hierarchy.above? s'.properties maxDepth node = Hierarchy.above? s.properties maxDepth node ∧
          resolve s'.properties maxDepth node = resolve s.properties maxDepth node) ∧
      (s.properties.InChain node other →
        ∀ statements, resolve s.properties maxDepth node = .ok statements →
          ∃ (x : Surroundings) (lines : List String),
            x.Surround s.properties maxDepth node other lines ∧ statements = x.around lines ∧
              ∀ lines', ∃ s', setRawContext s other lines' = .ok s' ∧
                Hierarchy.above? s'.properties maxDepth node =
                    Hierarchy.above? s.properties maxDepth node ∧
                  x.Surround s'.properties maxDepth node other lines' ∧
                    resolve s'.properties maxDepth node = .ok (x.around lines')) := by
  constructor
  · intro houtside key value s' hset
    have hchain : ∀ node' key', s.properties.InChain node node' →
        s'.properties node' key' = s.properties node' key' := by
      intro node' key' hnode'
      refine (Store.written_of_set hset).agrees node' key' (Or.inl ?_)
      rintro rfl
      exact houtside hnode'
    exact ⟨Hierarchy.above?_congr (fun node' key' hnode' _ => hchain node' key' hnode') _,
      resolve_congr hchain⟩
  · intro hchain statements hresolve
    obtain ⟨x, lines, hx, hstatements⟩ := Surroundings.exists_surround hresolve hchain
    refine ⟨x, lines, hx, hstatements, fun lines' => ?_⟩
    obtain ⟨data, hdata⟩ := Store.exists_of_rawContext hx.lines
    obtain ⟨s', hset, hwritten⟩ := Store.exists_written hdata (.strings lines') rfl
    have hlines' : s'.properties.rawContext other = .ok lines' :=
      Except.bind_eq_ok_iff.2 ⟨_, hwritten.value, rfl⟩
    have hx' := hx.rewrite hwritten.agrees hlines'
    exact ⟨s', Failure.ofStore_eq_ok_iff.2 hset, above?_of_agreesExcept hwritten.agrees rfl, hx',
      hx'.resolve_eq⟩

theorem contexts_depend_on_chain_nested :
    (∀ key value s', nestedBlocks.set (.block 2) key value = .ok s' →
        Hierarchy.above? s'.properties 4 (.block 1) =
            Hierarchy.above? nestedBlocks.properties 4 (.block 1) ∧
          resolve s'.properties 4 (.block 1) = resolve nestedBlocks.properties 4 (.block 1)) ∧
      ∃ (x : Surroundings) (lines : List String),
        x.Surround nestedBlocks.properties 4 (.block 2) (.block 1) lines ∧
          ["a = 'far'", "", "a = 'near'", "b = a", "", "a = 'own'", ""] = x.around lines ∧
            ∀ lines', ∃ s', setRawContext nestedBlocks (.block 1) lines' = .ok s' ∧
              Hierarchy.above? s'.properties 4 (.block 2) =
                  Hierarchy.above? nestedBlocks.properties 4 (.block 2) ∧
                x.Surround s'.properties 4 (.block 2) (.block 1) lines' ∧
                  resolve s'.properties 4 (.block 2) = .ok (x.around lines') := by
  have hinner : Hierarchy.above? nestedBlocks.properties 4 (.block 1) =
      .ok ⟨.block 1, [.diagram 1]⟩ := by
    unfold Hierarchy.above? Hierarchy.aboveWith Hierarchy.climbWith
    rfl
  constructor
  · refine (contexts_depend_on_chain nestedBlocks 4 (.block 1) (.block 2)).1 ?_
    rw [← Hierarchy.mem_nodes_iff_inChain hinner]
    decide
  · have hchain : nestedBlocks.properties.InChain (.block 2) (.block 1) := .enclosing .start rfl
    refine (contexts_depend_on_chain nestedBlocks 4 (.block 2) (.block 1)).2 hchain _ ?_
    unfold resolve Hierarchy.above? Hierarchy.aboveWith Hierarchy.climbWith Hierarchy.climbWith
    rfl

end DiagramScope.Resolution
