import ClassCheck.ClassTable
import Mathlib.Tactic.SplitIfs

/-!
# Members by inheritance

The members of a class as they follow from its declaration and from the classes it inherits from.
Here the members of the classes above are complete by construction. Filling the tables of all
classes in one run has to come to the same.
-/

namespace ClassCheck

namespace Members

def declareField (m : Members) (h : Hierarchy) (c : ClassNode) (f : Field) :
    Except MemberProblem Members :=
  (f.vet h c (m.vars.peek f.name)).map m.addField

def declareMethod (m : Members) (h : Hierarchy) (c : ClassNode) (above : List Members)
    (d : Method) : Except MemberProblem Members :=
  (d.vet h c (m.signatures.peek d.name)
    (ScopeStack.lookup (above.map (·.signatures)) d.name)).map m.addMethod

def declare (m : Members) (h : Hierarchy) (c : ClassNode) (above : List Members) :
    Member → Reported MemberProblem Members
  | .field f => .attempt m c.decl.file f.line (m.declareField h c f)
  | .method d => .attempt m c.decl.file d.line (m.declareMethod h c above d)

def declareAll (m : Members) (h : Hierarchy) (c : ClassNode) (above : List Members) :
    List (Option Member) → Reported MemberProblem Members
  | [] => pure m
  | none :: rest => m.declareAll h c above rest
  | some member :: rest => do
      let m' ← m.declare h c above member
      m'.declareAll h c above rest

def ofClass (h : Hierarchy) (c : ClassNode) (above : List Members) :
    Reported MemberProblem Members :=
  empty.declareAll h c above c.decl.members

theorem declareField_eq (m : Members) (h : Hierarchy) (c : ClassNode) (f : Field) :
    m.declareField h c f =
      if isReserved f.name then .error (.reservedField f.name)
      else if (m.vars.peek f.name).isSome then .error (.duplicateField f.name c.name)
      else if !h.knows f.type then .error (.undefinedFieldType f.type f.name)
      else .ok (m.addField f.symbol) := by
  rw [declareField, Field.vet]
  split_ifs <;> rfl

theorem declareMethod_eq (m : Members) (h : Hierarchy) (c : ClassNode) (above : List Members)
    (d : Method) :
    m.declareMethod h c above d =
      if isReserved d.name then .error (.reservedMethod d.name)
      else if (m.signatures.peek d.name).isSome then .error (.duplicateMethod d.name c.name)
      else if !canReturn h d.returnType then .error (.undefinedReturnType d.returnType d.name)
      else
        match ScopeStack.lookup (above.map (·.signatures)) d.name with
        | none => .ok (m.addMethod (signature c d))
        | some inherited =>
            match (signature c d).mismatch? inherited with
            | some mismatch => .error (.overload d.name c.name inherited mismatch)
            | none => .ok (m.addMethod (signature c d)) := by
  rw [declareMethod, Method.vet]
  split_ifs
  · rfl
  · rfl
  · rfl
  · cases ScopeStack.lookup (above.map (·.signatures)) d.name with
    | none => rfl
    | some inherited =>
      simp only
      cases (signature c d).mismatch? inherited <;> rfl

variable {h : Hierarchy} {c : ClassNode} {above : List Members} {m m' : Members}

theorem declareField_eq_ok_iff {f : Field} :
    m.declareField h c f = .ok m' ↔ isReserved f.name = false ∧ m.vars.peek f.name = none ∧
      h.knows f.type = true ∧ m' = m.addField f.symbol := by
  rw [declareField_eq]
  cases isReserved f.name <;> cases m.vars.peek f.name <;> cases h.knows f.type <;>
    simp [eq_comm]

theorem declareMethod_eq_ok_iff {d : Method} :
    m.declareMethod h c above d = .ok m' ↔
      isReserved d.name = false ∧ m.signatures.peek d.name = none ∧
      canReturn h d.returnType = true ∧
      (∀ t, ScopeStack.lookup (above.map (·.signatures)) d.name = some t →
        (signature c d).mismatch? t = none) ∧
      m' = m.addMethod (signature c d) := by
  rw [declareMethod_eq]
  cases isReserved d.name <;> cases m.signatures.peek d.name <;>
    cases canReturn h d.returnType <;>
    cases ScopeStack.lookup (above.map (·.signatures)) d.name with
    | none => simp [eq_comm]
    | some t => cases ht : (signature c d).mismatch? t <;> simp [ht, eq_comm]

theorem declare_induction {P : Members → Prop} {member : Member} (start : P m)
    (field : ∀ f, member = .field f → m.declareField h c f = .ok (m.addField f.symbol) →
      P (m.addField f.symbol))
    (method : ∀ d, member = .method d →
      m.declareMethod h c above d = .ok (m.addMethod (signature c d)) →
      P (m.addMethod (signature c d))) :
    P (m.declare h c above member).value := by
  cases member with
  | field f =>
    rw [declare, Reported.value_attempt]
    cases hd : m.declareField h c f with
    | error problem => exact start
    | ok m' =>
      obtain rfl := (declareField_eq_ok_iff.mp hd).2.2.2
      exact field f rfl hd
  | method d =>
    rw [declare, Reported.value_attempt]
    cases hd : m.declareMethod h c above d with
    | error problem => exact start
    | ok m' =>
      obtain rfl := (declareMethod_eq_ok_iff.mp hd).2.2.2.2
      exact method d rfl hd

theorem declareAll_induction {P : Members → Prop} {members : List (Option Member)} (start : P m)
    (field : ∀ m f, some (.field f) ∈ members → P m →
      m.declareField h c f = .ok (m.addField f.symbol) → P (m.addField f.symbol))
    (method : ∀ m d, some (.method d) ∈ members → P m →
      m.declareMethod h c above d = .ok (m.addMethod (signature c d)) →
      P (m.addMethod (signature c d))) :
    P (m.declareAll h c above members).value := by
  induction members generalizing m with
  | nil => exact start
  | cons o members ih =>
    have hrest : ∀ {m}, P m → P (m.declareAll h c above members).value := fun hm =>
      ih hm (fun m f hf => field m f (List.mem_cons_of_mem o hf))
        fun m d hd => method m d (List.mem_cons_of_mem o hd)
    cases o with
    | none => exact hrest start
    | some member =>
      refine hrest (declare_induction start ?_ ?_)
      · rintro f rfl
        exact field m f List.mem_cons_self start
      · rintro d rfl
        exact method m d List.mem_cons_self start

def fieldScope (fields : List Symbol) : Scope Symbol :=
  fields.reverse.flatMap fun s => [(selfKey s.name, s), (s.name, s)]

def methodScope (methods : List Signature) : Scope Signature :=
  methods.reverse.map fun s => (s.name, s)

/-- Each table is one scope, with the members that were added and nothing else. -/
structure Flat (m : Members) : Prop where
  vars : m.vars.scopes = [fieldScope m.fields]
  signatures : m.signatures.scopes = [methodScope m.methods]

namespace Flat

theorem empty : Members.empty.Flat := ⟨rfl, rfl⟩

theorem addField (flat : m.Flat) (s : Symbol) : (m.addField s).Flat := by
  refine ⟨?_, flat.signatures⟩
  simp [Members.addField, ScopeStack.add, flat.vars, fieldScope]

theorem addMethod (flat : m.Flat) (s : Signature) : (m.addMethod s).Flat := by
  refine ⟨flat.vars, ?_⟩
  simp [Members.addMethod, ScopeStack.add, flat.signatures, methodScope]

theorem peek_signatures (flat : m.Flat) (x : String) :
    m.signatures.peek x = m.signatures.find? x := by
  rw [ScopeStack.peek, ScopeStack.find?, flat.signatures]
  simp

theorem declare (flat : m.Flat) (h : Hierarchy) (c : ClassNode) (above : List Members)
    (member : Member) : (m.declare h c above member).value.Flat :=
  declare_induction flat (fun f _ _ => flat.addField f.symbol)
    fun d _ _ => flat.addMethod (signature c d)

theorem declareAll (flat : m.Flat) (h : Hierarchy) (c : ClassNode) (above : List Members)
    (members : List (Option Member)) : (m.declareAll h c above members).value.Flat :=
  declareAll_induction flat (fun _ f _ flat _ => flat.addField f.symbol)
    fun _ d _ flat _ => flat.addMethod (signature c d)

end Flat

end Members

namespace Hierarchy

/-- The members of each class of a chain, where each class inherits from those after it. -/
def membersAlong (h : Hierarchy) : List ClassNode → List Members
  | [] => []
  | c :: above =>
      let inherited := h.membersAlong above
      (Members.ofClass h c inherited).value :: inherited

def inherited (h : Hierarchy) (c : ClassNode) : List Members := h.membersAlong (h.sources c)

def members (h : Hierarchy) (c : ClassNode) : Reported MemberProblem Members :=
  Members.ofClass h c (h.inherited c)

def classInfo (h : Hierarchy) (c : ClassNode) : ClassInfo :=
  let above := h.inherited c
  { c with
    ancestors := h.ancestors c
    children := h.children c
    source := (h.sources c).head?
    own := (Members.ofClass h c above).value
    above := above }

end Hierarchy

def ClassTable.ofHierarchy (h : Hierarchy) : ClassTable :=
  ⟨h.classInfo Hierarchy.root, h.others.map h.classInfo⟩

end ClassCheck
