import ClassCheck.Proofs.Faces
import ClassCheck.Proofs.MemberTables

/-!
# Hierarchies that mirror each other

Linking, inheriting and checking find classes by name, and read everything about a class but the
bodies of its methods. So two hierarchies in which the same names find the same classes, up to
bodies, give the same links, the same members, and classes with the same faces.
-/

namespace ClassCheck

def Member.outline : Member → Member
  | .field f => .field f
  | .method m => .method { m with body := [] }

def ClassDecl.outline (d : ClassDecl) : ClassDecl :=
  { d with members := d.members.map (Option.map Member.outline) }

namespace ClassDecl

variable {d e : ClassDecl} (h : d.outline = e.outline)
include h

theorem name_of_outline : d.name = e.name := (congrArg name h :)

theorem parent_of_outline : d.parent = e.parent := (congrArg parent h :)

theorem file_of_outline : d.file = e.file := (congrArg file h :)

theorem line_of_outline : d.line = e.line := (congrArg line h :)

end ClassDecl

/-- A change of declarations that keeps all but bodies of methods, and the root class. -/
structure BodyEdit where
  apply : ClassDecl → ClassDecl
  outline : ∀ d, (apply d).outline = d.outline
  root : apply BuiltIn.root.decl = BuiltIn.root.decl

namespace BodyEdit

def keep : BodyEdit := ⟨id, fun _ => rfl, rfl⟩

variable (g : BodyEdit)

def registered (c : Registered) : Registered := { c with decl := g.apply c.decl }

def node (c : ClassNode) : ClassNode := { c with decl := g.apply c.decl }

@[simp] theorem name_registered (c : Registered) : (g.registered c).name = c.name :=
  ClassDecl.name_of_outline (g.outline c.decl)

@[simp] theorem wantedParent_registered (c : Registered) :
    (g.registered c).wantedParent = c.wantedParent := by
  rw [Registered.wantedParent, Registered.wantedParent, registered,
    ClassDecl.parent_of_outline (g.outline c.decl)]

@[simp] theorem registered_root : g.registered BuiltIn.root = BuiltIn.root := by
  rw [registered, g.root]

@[simp] theorem name_node (c : ClassNode) : (g.node c).name = c.name :=
  ClassDecl.name_of_outline (g.outline c.decl)

@[simp] theorem node_root : g.node Hierarchy.root = Hierarchy.root := by
  rw [node, show Hierarchy.root.decl = BuiltIn.root.decl from rfl, g.root]
  rfl

@[simp] theorem registered_keep : keep.registered = id := rfl

@[simp] theorem node_keep : keep.node = id := rfl

end BodyEdit

/-- A name finds in `r'` what it finds in `r`, as edited. -/
structure Registry.Mirrors (g : BodyEdit) (r r' : Registry) : Prop where
  length : r'.classes.length = r.classes.length
  find : ∀ n, r'.find? n = (r.find? n).map g.registered

namespace Registry.Mirrors

variable {g : BodyEdit} {r r' : Registry} (mirrors : r.Mirrors g r')
include mirrors

theorem wantedChain (n : Nat) (c : Registered) :
    r'.wantedChain n (g.registered c) = (r.wantedChain n c).map g.registered := by
  induction n generalizing c with
  | zero => rfl
  | succ n ih =>
    rw [Registry.wantedChain, Registry.wantedChain, g.wantedParent_registered, mirrors.find]
    have hroot : (g.registered c).isRoot = c.isRoot := rfl
    cases hc : c.isRoot with
    | true => simp [hroot, hc]
    | false =>
      cases r.find? c.wantedParent with
      | none => simp [hroot, hc]
      | some p => simp [hroot, hc, ih]

theorem leadsTo (start target : Registered) :
    r'.leadsTo (g.registered start) (g.registered target) = r.leadsTo start target := by
  rw [Registry.leadsTo, Registry.leadsTo, mirrors.length, mirrors.wantedChain, List.any_map]
  simp [Function.comp_def]

theorem resolveParent (c : Registered) :
    r'.resolveParent (g.registered c) = (r.resolveParent c).map g.registered := by
  rw [Registry.resolveParent, Registry.resolveParent, g.wantedParent_registered, mirrors.find,
    g.name_registered]
  cases r.find? c.wantedParent with
  | none => rfl
  | some p =>
    have hextendable : (g.registered p).isExtendable = p.isExtendable := rfl
    simp only [Option.map_some, hextendable, mirrors.leadsTo]
    split_ifs <;> rfl

theorem link (c : Registered) :
    (r'.link (g.registered c)).value = g.node (r.link c).value ∧
      (r'.link (g.registered c)).reports = (r.link c).reports := by
  rw [Registry.link, Registry.link, mirrors.resolveParent]
  cases r.resolveParent c with
  | ok p =>
    refine ⟨?_, rfl⟩
    change ClassNode.mk _ (some (g.registered p).name) = _
    rw [g.name_registered]
    rfl
  | error problem =>
    refine ⟨rfl, ?_⟩
    simp [Except.map, BodyEdit.registered, ClassDecl.file_of_outline (g.outline c.decl),
      ClassDecl.line_of_outline (g.outline c.decl)]

end Registry.Mirrors

namespace Members

variable {h h' : Hierarchy} (hknows : h.knows = h'.knows) {c c' : ClassNode}
  (hname : c.name = c'.name) (hfile : c.decl.file = c'.decl.file) (above : List Members)
include hknows hname hfile

theorem declare_outline (m : Members) (member : Member) :
    m.declare h c above member = m.declare h' c' above member.outline := by
  cases member with
  | field f =>
    rw [Member.outline, declare, declare, declareField_eq, declareField_eq, hknows, hname, hfile]
  | method d =>
    rw [Member.outline, declare, declare, declareMethod_eq, declareMethod_eq, canReturn, canReturn,
      signature, signature, hknows, hname, hfile]

theorem declareAll_outline (m : Members) (ms : List (Option Member)) :
    m.declareAll h c above ms = m.declareAll h' c' above (ms.map (Option.map Member.outline)) := by
  induction ms generalizing m with
  | nil => rfl
  | cons o ms ih =>
    cases o with
    | none => exact ih m
    | some member =>
      simp only [declareAll, List.map_cons, Option.map_some,
        declare_outline hknows hname hfile above, ih]

end Members

theorem Members.ofClass_outline {h h' : Hierarchy} (hknows : h.knows = h'.knows) {c c' : ClassNode}
    (houtline : c.decl.outline = c'.decl.outline) (above : List Members) :
    ofClass h c above = ofClass h' c' above := by
  have hname : c.name = c'.name := ClassDecl.name_of_outline houtline
  have hfile := ClassDecl.file_of_outline houtline
  have hmembers : c.decl.members.map (Option.map Member.outline) =
    c'.decl.members.map (Option.map Member.outline) := congrArg ClassDecl.members houtline
  rw [ofClass, ofClass, declareAll_outline hknows hname hfile, hmembers,
    ← declareAll_outline rfl rfl rfl]

namespace Hierarchy

theorem knows_eq (h : Hierarchy) (t : Ty) :
    h.knows t = (Ty.isPrimitiveName t.name || (h.find? t.name).isSome) := by
  rw [← ClassTable.knows_ofHierarchy, ClassTable.knows_eq, ClassTable.find?_ofHierarchy,
    Option.isSome_map]

abbrev context (h : Hierarchy) (c : ClassNode) : Context := ⟨.ofHierarchy h, h.classInfo c⟩

def checkedNode (h : Hierarchy) (c : ClassNode) : Check Unit :=
  (h.context c).checkedMembers c.decl.members

structure Mirrors (g : BodyEdit) (h h' : Hierarchy) : Prop where
  size : h'.size = h.size
  find : ∀ n, h'.find? n = (h.find? n).map g.node

namespace Mirrors

variable {g : BodyEdit} {h h' : Hierarchy} (mirrors : h.Mirrors g h')
include mirrors

theorem knows : h.knows = h'.knows := by
  funext t
  rw [knows_eq, knows_eq, mirrors.find, Option.isSome_map]

theorem parent? (c : ClassNode) : h'.parent? (g.node c) = (h.parent? c).map g.node := by
  rw [Hierarchy.parent?, Hierarchy.parent?, Option.map_bind]
  exact congrArg _ (funext mirrors.find)

theorem ancestors (c : ClassNode) : h'.ancestors (g.node c) = (h.ancestors c).map g.node := by
  have hwithin : ∀ n c, h'.ancestorsWithin n (g.node c) = (h.ancestorsWithin n c).map g.node := by
    intro n
    induction n with
    | zero => intro c; rfl
    | succ n ih =>
      intro c
      rw [ancestorsWithin, ancestorsWithin, mirrors.parent?]
      cases h.parent? c with
      | none => rfl
      | some p => simp [ih]
  rw [Hierarchy.ancestors, Hierarchy.ancestors, mirrors.size, hwithin]

theorem sources (c : ClassNode) : h'.sources (g.node c) = (h.sources c).map g.node := by
  have hany : ∀ cs : List ClassNode,
      (cs.map g.node).any (·.isRoot) = cs.any (·.isRoot) := by
    intro cs
    rw [List.any_map]
    rfl
  simp only [Hierarchy.sources, mirrors.ancestors, ← List.map_cons, hany]
  split_ifs <;> simp

theorem membersAlong (cs : List ClassNode) :
    h'.membersAlong (cs.map g.node) = h.membersAlong cs := by
  induction cs with
  | nil => rfl
  | cons c cs ih =>
    rw [List.map_cons, Hierarchy.membersAlong, Hierarchy.membersAlong, ih,
      Members.ofClass_outline mirrors.knows.symm (g.outline c.decl)]

theorem inherited (c : ClassNode) : h'.inherited (g.node c) = h.inherited c := by
  rw [Hierarchy.inherited, Hierarchy.inherited, mirrors.sources, mirrors.membersAlong]

theorem members (c : ClassNode) : h'.members (g.node c) = h.members c := by
  rw [Hierarchy.members, Hierarchy.members, mirrors.inherited,
    Members.ofClass_outline mirrors.knows.symm (g.outline c.decl)]

theorem face (c : ClassNode) : (h'.classInfo (g.node c)).face = (h.classInfo c).face := by
  have hupward : (h'.classInfo (g.node c)).upward.map (·.name) =
      (h.classInfo c).upward.map (·.name) := by
    change (g.node c :: h'.ancestors (g.node c)).map (·.name) =
      (c :: h.ancestors c).map (·.name)
    rw [mirrors.ancestors, ← List.map_cons, List.map_map]
    exact List.map_congr_left fun d _ => g.name_node d
  have hown : (h'.classInfo (g.node c)).own = (h.classInfo c).own :=
    congrArg Reported.value (mirrors.members c)
  have habove : (h'.classInfo (g.node c)).above = (h.classInfo c).above := mirrors.inherited c
  rw [ClassInfo.face, ClassInfo.face, ClassFace.mk.injEq]
  exact ⟨g.name_node c, ClassDecl.file_of_outline (g.outline c.decl),
    ClassDecl.line_of_outline (g.outline c.decl), rfl, rfl, hupward, hown, habove⟩

theorem find?_face (n : String) :
    ((ClassTable.ofHierarchy h').find? n).map ClassInfo.face =
      ((ClassTable.ofHierarchy h).find? n).map ClassInfo.face := by
  rw [ClassTable.find?_ofHierarchy, ClassTable.find?_ofHierarchy, mirrors.find, Option.map_map,
    Option.map_map, Option.map_map]
  exact congrArg (Option.map · (h.find? n)) (funext mirrors.face)

theorem same (c : ClassNode) : (h.context c).Same (h'.context (g.node c)) where
  self := (mirrors.face c).symm
  root := by
    have hroot := mirrors.face root
    rw [g.node_root] at hroot
    exact hroot.symm
  parent := by
    change ((ClassTable.ofHierarchy h).parent? (h.classInfo c)).map ClassInfo.face =
      ((ClassTable.ofHierarchy h').parent? (h'.classInfo (g.node c))).map ClassInfo.face
    rw [ClassTable.parent?_ofHierarchy, ClassTable.parent?_ofHierarchy, mirrors.parent?,
      Option.map_map, Option.map_map, Option.map_map]
    exact congrArg (Option.map · (h.parent? c)) (funext fun d => (mirrors.face d).symm)
  find := fun n _ => (mirrors.find?_face n).symm

theorem checkedNode {c : ClassNode} (hc : g.node c = c) : h'.checkedNode c = h.checkedNode c := by
  have hsame := (mirrors.same c).checkedMembers c.decl.members
  rw [hc] at hsame
  exact hsame.symm

end Mirrors

end Hierarchy

end ClassCheck
