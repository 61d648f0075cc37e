import ClassCheck.Proofs.Mirrors
import ClassCheck.Proofs.Phases

/-!
# Editing bodies of methods

An edit of method bodies commutes with registration, linking, ordering and the building of tables:
each of them gives the edited classes in the same places, with the same reports.
-/

namespace ClassCheck

namespace ClassNode

def outline (c : ClassNode) : ClassNode := { c with decl := c.decl.outline }

theorem outline_node (g : BodyEdit) (c : ClassNode) : (g.node c).outline = c.outline := by
  rw [outline, outline, BodyEdit.node, g.outline]

theorem map_outline_node (g : BodyEdit) (cs : List ClassNode) :
    (cs.map g.node).map outline = cs.map outline := by
  rw [List.map_map]
  exact List.map_congr_left fun c _ => outline_node g c

end ClassNode

/-- All that a table says of a class, without the bodies of methods. -/
def ClassInfo.outline (c : ClassInfo) : ClassInfo :=
  { c.toClassNode.outline with
    ancestors := c.ancestors.map ClassNode.outline
    children := c.children.map ClassNode.outline
    source := c.source.map ClassNode.outline
    own := c.own
    above := c.above }

def ClassTable.outline (t : ClassTable) : ClassTable :=
  ⟨t.root.outline, t.others.map ClassInfo.outline⟩

namespace Registry

def Edited (g : BodyEdit) (r r' : Registry) : Prop := r'.others = r.others.map g.registered

theorem redefinition_registered (g : BodyEdit) (old : Registered) :
    redefinition (g.registered old) = redefinition old := by
  have hfile : (g.registered old).decl.file = old.decl.file :=
    ClassDecl.file_of_outline (g.outline old.decl)
  have hline : (g.registered old).decl.line = old.decl.line :=
    ClassDecl.line_of_outline (g.outline old.decl)
  rw [redefinition, redefinition, g.name_registered, hfile, hline]
  rfl

theorem register_append (r : Registry) (ds es : List (Option ClassDecl)) :
    r.register (ds ++ es) = r.register ds >>= fun r' => r'.register es := by
  induction ds generalizing r with
  | nil => rw [List.nil_append, register, pure_bind]
  | cons o ds ih =>
    cases o with
    | none => exact ih r
    | some d =>
      rw [List.cons_append]
      cases hd : r.find? d.name with
      | none => rw [register_new hd, register_new hd, ih]
      | some old => rw [register_old hd, register_old hd, bind_assoc, ih]

theorem mem_register_names {r : Registry} {ds : List (Option ClassDecl)} {n : String} :
    n ∈ (r.register ds).value.names ↔ n ∈ r.names ∨ ∃ d, some d ∈ ds ∧ d.name = n := by
  induction ds generalizing r with
  | nil => simp [register]
  | cons o ds ih =>
    cases o with
    | none => simp [register_none, ih]
    | some e =>
      cases he : r.find? e.name with
      | none =>
        rw [register_new he, ih, names_add]
        simp [Registered.name, or_assoc, eq_comm]
      | some old =>
        have hold := mem_names_of_find? he
        rw [register_old he, Reported.value_bind, ih]
        constructor
        · rintro (hn | ⟨d, hd, hdn⟩)
          · exact Or.inl hn
          · exact Or.inr ⟨d, List.mem_cons_of_mem _ hd, hdn⟩
        · rintro (hn | ⟨d, hd, rfl⟩)
          · exact Or.inl hn
          · rcases List.mem_cons.mp hd with hd | hd
            · rw [Option.some.inj hd]
              exact Or.inl hold
            · exact Or.inr ⟨d, hd, rfl⟩

namespace Edited

variable {g : BodyEdit} {r r' : Registry} (edited : r.Edited g r')
include edited

theorem classes : r'.classes = r.classes.map g.registered := by
  rw [Registry.classes, Registry.classes, edited, List.map_cons, g.registered_root]

theorem mirrors : r.Mirrors g r' where
  length := by rw [edited.classes, List.length_map]
  find := by
    intro n
    rw [find?, find?, edited.classes, List.find?_map]
    congr 2
    funext c
    exact congrArg (· == n) (g.name_registered c)

theorem add {d d' : ClassDecl} (hd : g.apply d = d') :
    (r.add ⟨d, .user⟩).Edited g (r'.add ⟨d', .user⟩) := by
  rw [Edited, Registry.add, Registry.add, edited, List.map_append, ← hd]
  rfl

theorem register {ds : List (Option ClassDecl)}
    (hfixed : ∀ d, some d ∈ ds → d.name ∉ r.names → g.apply d = d) :
    (r.register ds).value.Edited g (r'.register ds).value ∧
      (r'.register ds).reports = (r.register ds).reports := by
  induction ds generalizing r r' with
  | nil => exact ⟨edited, rfl⟩
  | cons o ds ih =>
    cases o with
    | none => exact ih edited fun d hd => hfixed d (List.mem_cons_of_mem none hd)
    | some d =>
      have hfind := edited.mirrors.find d.name
      cases hd : r.find? d.name with
      | none =>
        rw [hd, Option.map_none] at hfind
        rw [register_new hd, register_new hfind]
        refine ih (edited.add (hfixed d List.mem_cons_self (find?_eq_none_iff.mp hd))) ?_
        intro e he hnew
        refine hfixed e (List.mem_cons_of_mem _ he) fun hold => hnew ?_
        rw [names_add]
        exact List.mem_append_left _ hold
      | some old =>
        rw [hd, Option.map_some] at hfind
        rw [register_old hd, register_old hfind, redefinition_registered]
        obtain ⟨hvalue, hreports⟩ :=
          ih edited fun e he => hfixed e (List.mem_cons_of_mem _ he)
        refine ⟨hvalue, ?_⟩
        rw [Reported.reports_bind, Reported.reports_bind, hreports]

end Edited

end Registry

namespace Hierarchy

def Edited (g : BodyEdit) (h h' : Hierarchy) : Prop := h'.classes = h.classes.map g.node

theorem ofRegistry_edited {g : BodyEdit} {r r' : Registry}
    (edited : r.Edited g r') :
    (ofRegistry r).value.Edited g (ofRegistry r').value ∧
      (ofRegistry r').reports = (ofRegistry r).reports := by
  constructor
  · rw [Edited, classes, classes, List.map_cons, g.node_root, ofRegistry_others, ofRegistry_others,
      edited, List.map_map, List.map_map]
    congr 1
    exact List.map_congr_left fun c _ => (edited.mirrors.link c).1
  · simp only [ofRegistry, Reported.forEach, Reported.reports_bind, Reported.reports_pure,
      List.append_nil]
    rw [edited, List.flatMap_map]
    exact List.flatMap_congr fun c _ => (edited.mirrors.link c).2

namespace Edited

variable {g : BodyEdit} {h h' : Hierarchy} (edited : h.Edited g h')
include edited

theorem mirrors : h.Mirrors g h' where
  size := by rw [size, size, edited, List.length_map]
  find := by
    intro n
    rw [find?, find?, edited, List.find?_map]
    congr 2
    funext c
    exact congrArg (· == n) (g.name_node c)

theorem children (c : ClassNode) : h'.children (g.node c) = (h.children c).map g.node := by
  rw [children_eq, children_eq, edited, List.filter_map, g.name_node]
  rfl

theorem spread (n i : Nat) (list : List ClassNode) :
    h'.spread n i (list.map g.node) = (h.spread n i list).map g.node := by
  induction n generalizing i list with
  | zero => rfl
  | succ n ih =>
    rw [Hierarchy.spread, Hierarchy.spread, List.getElem?_map]
    cases list[i]? with
    | none => rfl
    | some c =>
      simp only [Option.map_some]
      rw [edited.children, ← List.map_append, ih]

theorem order : h'.order = h.order.map g.node := by
  have htree : ∀ list top, h'.appendTree (list.map g.node) (g.node top) =
      (h.appendTree list top).map g.node := by
    intro list top
    rw [appendTree, appendTree, edited.mirrors.size, List.length_map, ← List.map_singleton,
      ← List.map_append, edited.spread, apply_ite (List.map g.node)]
    rfl
  have hfold : ∀ cs list : List ClassNode, (cs.map g.node).foldl h'.appendTree (list.map g.node) =
      (cs.foldl h.appendTree list).map g.node := by
    intro cs
    induction cs with
    | nil => exact fun _ => rfl
    | cons c cs ih =>
      intro list
      rw [List.map_cons, List.foldl_cons, List.foldl_cons, htree, ih]
  rw [Hierarchy.order, edited]
  exact hfold h.classes []

theorem outline (c : ClassNode) :
    (h'.classInfo (g.node c)).outline = (h.classInfo c).outline := by
  have hancestors : (h'.ancestors (g.node c)).map ClassNode.outline =
      (h.ancestors c).map ClassNode.outline := by
    rw [edited.mirrors.ancestors, ClassNode.map_outline_node]
  have hchildren : (h'.children (g.node c)).map ClassNode.outline =
      (h.children c).map ClassNode.outline := by
    rw [edited.children, ClassNode.map_outline_node]
  have hsource : (h'.sources (g.node c)).head?.map ClassNode.outline =
      (h.sources c).head?.map ClassNode.outline := by
    rw [edited.mirrors.sources, ← List.head?_map, ← List.head?_map, ClassNode.map_outline_node]
  have hown : (h'.classInfo (g.node c)).own = (h.classInfo c).own :=
    congrArg Reported.value (edited.mirrors.members c)
  have habove : (h'.classInfo (g.node c)).above = (h.classInfo c).above :=
    edited.mirrors.inherited c
  rw [ClassInfo.outline, ClassInfo.outline, hown, habove]
  change ClassInfo.mk (g.node c).outline _ _ _ _ _ = ClassInfo.mk c.outline _ _ _ _ _
  rw [ClassNode.outline_node]
  congr 1

theorem map_outline (cs : List ClassNode) :
    ((cs.map g.node).map h'.classInfo).map ClassInfo.outline =
      (cs.map h.classInfo).map ClassInfo.outline := by
  rw [List.map_map, List.map_map, List.map_map]
  exact List.map_congr_left fun c _ => edited.outline c

theorem table_outline :
    (ClassTable.ofHierarchy h').outline = (ClassTable.ofHierarchy h).outline := by
  have hclasses := edited.map_outline h.classes
  rw [← edited] at hclasses
  obtain ⟨hroot, hothers⟩ := List.cons.inj hclasses
  rw [ClassTable.outline, ClassTable.outline]
  exact congrArg₂ ClassTable.mk hroot hothers

theorem members_reports :
    (Reported.forEach h'.order h'.members).reports =
      (Reported.forEach h.order h.members).reports := by
  simp only [Reported.forEach]
  rw [edited.order, List.flatMap_map]
  exact List.flatMap_congr fun c _ => congrArg Reported.reports (edited.mirrors.members c)

end Edited

end Hierarchy

end ClassCheck
