import ClassCheck.Proofs.BreadthFirst
import ClassCheck.Proofs.Phases

/-! The shape of the hierarchy of a program, whatever the program declares: the links form a forest,
the order lists it tree by tree, and the tables of a class continue in those of the class above. -/

namespace ClassCheck

namespace Hierarchy

/-- Links never lead back, and children are the links read the other way. -/
structure IsForest (h : Hierarchy) : Prop where
  acyclic : ∀ c ∈ h.classes, ¬ Relation.TransGen (fun a b => h.parent? a = some b) c c
  chain_ends : ∀ c ∈ h.classes, follow h.parent? h.size c = none
  children_nodup : ∀ p ∈ h.classes, (h.children p).Nodup
  mem_children : ∀ p ∈ h.classes, ∀ c, c ∈ h.children p ↔ c ∈ h.classes ∧ h.parent? c = some p

/-- The order is breadth-first within each tree, and begins with the tree of the root. -/
structure IsOrdered (h : Hierarchy) : Prop where
  perm : h.order.Perm h.classes
  nodup : h.order.Nodup
  head : h.order.head? = some root
  parent_first : ∀ before c after p, h.order = before ++ c :: after → h.parent? c = some p →
    p ∈ before
  root_tree_first : ∃ front back, h.order = front ++ back ∧
    (∀ c ∈ front, root ∈ c :: h.ancestors c) ∧ ∀ c ∈ back, root ∉ c :: h.ancestors c
  depth_mono : h.order.Pairwise fun a b => h.SameTree a b → h.depth a ≤ h.depth b

structure TablesFollow (h : Hierarchy) : Prop where
  source : ∀ c ∈ h.classes, (h.classInfo c).source = h.tableParent? c
  vars : ∀ c ∈ h.classes, (h.classInfo c).varChain =
    (h.classInfo c).own.vars :: ((h.tableParent? c).map fun p => (h.classInfo p).varChain).getD []
  methods : ∀ c ∈ h.classes, (h.classInfo c).methodChain =
    (h.classInfo c).own.signatures ::
      ((h.tableParent? c).map fun p => (h.classInfo p).methodChain).getD []

namespace Linked

variable {h : Hierarchy} (linked : h.Linked)
include linked

theorem isForest : h.IsForest where
  acyclic := by
    intro c hc hcycle
    obtain ⟨n, hn⟩ := transGen_iff_follow.mp hcycle
    exact linked.acyclic c hc n hn
  chain_ends := fun c hc => linked.chain_ends hc
  children_nodup := fun p _ => linked.children_nodup p
  mem_children := fun p hp c => linked.mem_children hp

theorem isOrdered : h.IsOrdered where
  perm := linked.order_perm
  nodup := linked.order_nodup
  head := linked.order_head
  parent_first := fun _ _ _ _ ho hp => linked.order_parent_first ho hp
  root_tree_first := by
    obtain ⟨rest, ho, hrest⟩ := linked.order_root_tree
    refine ⟨_, rest, ho, ?_, hrest⟩
    intro c hc
    have hcc := levels_subset (singleton_subset h.root_mem) hc
    exact (linked.mem_tree h.root_mem hcc).mp hc
  depth_mono := linked.order_depth

theorem tablesFollow : h.TablesFollow where
  source := by
    intro c hc
    change (h.sources c).head? = _
    rw [linked.sources_eq hc]
    cases h.tableParent? c <;> rfl
  vars := by
    intro c hc
    change _ :: (h.inherited c).map _ = _
    rw [linked.inherited_eq hc]
    cases h.tableParent? c <;> rfl
  methods := by
    intro c hc
    change _ :: (h.inherited c).map _ = _
    rw [linked.inherited_eq hc]
    cases h.tableParent? c <;> rfl

end Linked

theorem ofRegistry_root_mem {r : Registry} (sound : r.Sound) (quiet : (ofRegistry r).reports = [])
    {c : ClassNode} (hc : c ∈ (ofRegistry r).value.classes) :
    root ∈ c :: (ofRegistry r).value.ancestors c := by
  have linked := ofRegistry_linked sound
  obtain ⟨m, t, -, hmt, ht⟩ := exists_top (linked.chain_ends hc)
  have htc := follow_mem (parent?_closed _) hc hmt
  rcases List.mem_cons.mp htc with rfl | ho
  · exact (linked.mem_upward hc).mpr ⟨m, hmt⟩
  exact absurd ((linked.parent?_eq_none_iff htc).mp ht) (ofRegistry_parent quiet ho)

end Hierarchy

/-- The hierarchy of every program is a forest in breadth-first order with chained tables, and on an
accepted program it is one tree below the root. -/
theorem analyzed_hierarchy_shape (program : Option Program) (entry : EntryPoint) :
    let r := (Registry.ofProgram program).value
    let h := (Hierarchy.ofRegistry r).value
    let a := analyze program entry
    h.IsForest ∧ h.IsOrdered ∧ h.TablesFollow ∧
      r.classes.Nodup ∧ (h.order.map (·.toRegistered)).Perm r.classes ∧
      a.order = h.order.map h.classInfo ∧
      (a.isAccepted = true → ∀ c ∈ a.order, Hierarchy.root ∈ c.upward) := by
  intro r h a
  have sound : r.Sound := Registry.ofProgram_sound program
  have linked : h.Linked := Hierarchy.ofRegistry_linked sound
  have hperm : (h.order.map (·.toRegistered)).Perm r.classes := by
    have hmap := linked.order_perm.map (·.toRegistered)
    rwa [Hierarchy.ofRegistry_registered] at hmap
  refine ⟨linked.isForest, linked.isOrdered, linked.tablesFollow,
    List.Nodup.of_map _ sound.names_nodup, hperm, order_analyze program entry, ?_⟩
  intro haccepted c hc
  obtain ⟨n, hn, rfl⟩ := mem_analyze_order.mp hc
  have hquiet := (isAccepted_iff.mp haccepted).links
  exact Hierarchy.ofRegistry_root_mem sound hquiet hn

end ClassCheck
