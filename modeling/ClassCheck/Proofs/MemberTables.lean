import ClassCheck.Proofs.Ancestry
import ClassCheck.Proofs.Judgements

/-! The types in the tables of classes: only fields of known types and methods of known or void
return types are entered, so that is what is found there. -/

namespace ClassCheck

/-- Every field in the tables has the property `P`, and every method the property `Q`. -/
structure Members.All (P : Symbol → Prop) (Q : Signature → Prop) (m : Members) : Prop where
  vars : m.vars.All P
  signatures : m.signatures.All Q

/-- If the member gets into the tables of `c`, it has the property `P` or `Q` there. -/
def Member.Brings (h : Hierarchy) (c : ClassNode) (P : Symbol → Prop) (Q : Signature → Prop) :
    Member → Prop
  | .field f => h.knows f.type = true → P ⟨f.name, .field, f.type⟩
  | .method m => Members.canReturn h m.returnType = true → Q (Members.signature c m)

namespace Members

variable {h : Hierarchy} {P : Symbol → Prop} {Q : Signature → Prop}

theorem All.empty : Members.empty.All P Q :=
  ⟨ScopeStack.All.empty_enter, ScopeStack.All.empty_enter⟩

theorem All.declareAll {m : Members} (hm : m.All P Q) {c : ClassNode} (above : List Members)
    {ms : List (Option Member)} (brings : ∀ member, some member ∈ ms → member.Brings h c P Q) :
    (m.declareAll h c above ms).value.All P Q := by
  refine declareAll_induction hm ?_ ?_
  · intro m f hf hm hd
    have hp : P f.symbol := brings _ hf (declareField_eq_ok_iff.mp hd).2.2.1
    exact ⟨(hm.vars.add f.name hp).add (selfKey f.name) hp, hm.signatures⟩
  · intro m d hm' hm hd
    have hq : Q (signature c d) := brings _ hm' (declareMethod_eq_ok_iff.mp hd).2.2.1
    exact ⟨hm.vars, hm.signatures.add d.name hq⟩

end Members

namespace Hierarchy

variable {h : Hierarchy} {P : Symbol → Prop} {Q : Signature → Prop}

theorem membersAlong_all {cs : List ClassNode}
    (brings : ∀ c ∈ cs, ∀ member, some member ∈ c.decl.members → member.Brings h c P Q) :
    ∀ m ∈ h.membersAlong cs, m.All P Q := by
  induction cs with
  | nil =>
    intro m hm
    cases hm
  | cons c cs ih =>
    intro m hm
    rw [membersAlong, List.mem_cons] at hm
    rcases hm with rfl | hm
    · exact Members.All.empty.declareAll _ (brings c List.mem_cons_self)
    · exact ih (fun d hd => brings d (List.mem_cons_of_mem c hd)) m hm

@[simp] theorem toClassNode_classInfo (h : Hierarchy) (c : ClassNode) :
    (h.classInfo c).toClassNode = c := rfl

theorem chains_all {c : ClassNode}
    (brings : ∀ d ∈ c :: h.sources c, ∀ member, some member ∈ d.decl.members →
      member.Brings h d P Q) :
    (∀ t ∈ (h.classInfo c).varChain, t.All P) ∧
      ∀ t ∈ (h.classInfo c).methodChain, t.All Q := by
  have hall : ∀ m ∈ (h.classInfo c).own :: (h.classInfo c).above, m.All P Q :=
    membersAlong_all brings
  constructor
  · intro t ht
    obtain ⟨m, hm, rfl⟩ := List.mem_map.mp ht
    exact (hall m hm).vars
  · intro t ht
    obtain ⟨m, hm, rfl⟩ := List.mem_map.mp ht
    exact (hall m hm).signatures

theorem brings_known (c : ClassNode) (member : Member) :
    member.Brings h c (fun s => h.knows s.type = true)
      fun s => Members.canReturn h s.returnType = true := by
  cases member with
  | field f => exact id
  | method m => exact id

end Hierarchy

namespace ClassTable

variable {h : Hierarchy}

theorem classes_ofHierarchy (h : Hierarchy) :
    (ofHierarchy h).classes = h.classes.map h.classInfo := rfl

theorem names_ofHierarchy (h : Hierarchy) :
    (ofHierarchy h).classes.map (·.name) = h.classes.map (·.name) := by
  rw [classes_ofHierarchy, List.map_map]
  rfl

theorem knows_ofHierarchy (h : Hierarchy) (t : Ty) : (ofHierarchy h).knows t = h.knows t := by
  rw [knows, names_ofHierarchy, Hierarchy.knows]

theorem varChain_known {c : ClassInfo} (hc : c ∈ (ofHierarchy h).classes) :
    ∀ t ∈ c.varChain, t.All fun s => (ofHierarchy h).knows s.type = true := by
  rw [classes_ofHierarchy] at hc
  obtain ⟨n, -, rfl⟩ := List.mem_map.mp hc
  simp only [knows_ofHierarchy]
  exact (Hierarchy.chains_all fun d _ member _ => Hierarchy.brings_known d member).1

theorem methodChain_known {c : ClassInfo} (hc : c ∈ (ofHierarchy h).classes) :
    ∀ t ∈ c.methodChain, t.All fun s =>
      s.returnType = .void ∨ (ofHierarchy h).knows s.returnType = true := by
  rw [classes_ofHierarchy] at hc
  obtain ⟨n, -, rfl⟩ := List.mem_map.mp hc
  have hchain := (Hierarchy.chains_all (h := h) (c := n)
    fun d _ member _ => Hierarchy.brings_known d member).2
  intro t ht scope hscope b hb
  have hreturn : Members.canReturn h b.2.returnType = true := hchain t ht scope hscope b hb
  rw [Members.canReturn, Bool.or_eq_true] at hreturn
  rw [knows_ofHierarchy]
  exact hreturn.imp_left fun hv => eq_of_beq hv

theorem classInfo_mem {c : ClassNode} (hc : c ∈ h.classes) :
    h.classInfo c ∈ (ofHierarchy h).classes := List.mem_map_of_mem hc

theorem find?_ofHierarchy (h : Hierarchy) (n : String) :
    (ofHierarchy h).find? n = (h.find? n).map h.classInfo := by
  rw [find?, classes_ofHierarchy, List.find?_map]
  rfl

theorem parent?_ofHierarchy (h : Hierarchy) (c : ClassNode) :
    (ofHierarchy h).parent? (h.classInfo c) = (h.parent? c).map h.classInfo := by
  change c.parent.bind (ofHierarchy h).find? = (c.parent.bind h.find?).map h.classInfo
  cases c.parent with
  | none => rfl
  | some n => exact find?_ofHierarchy h n

end ClassTable

theorem Admissible.serves {h : Hierarchy} {T : Ty → Prop}
    (admissible : Admissible (.ofHierarchy h) T) {c : ClassNode} (hc : c ∈ h.classes)
    (linked : T .error ∨ (h.parent? c).isSome = true) :
    Context.Serves ⟨.ofHierarchy h, h.classInfo c⟩ T where
  toAdmissible := admissible
  self_mem := ClassTable.classInfo_mem hc
  linked := by
    refine linked.imp_right fun hp => ?_
    change ((ClassTable.ofHierarchy h).parent? (h.classInfo c)).isSome = true
    rw [ClassTable.parent?_ofHierarchy, Option.isSome_map, hp]
  vars := by
    intro d hd t ht scope hscope b hb
    exact admissible.known _ (ClassTable.varChain_known hd t ht scope hscope b hb)
  methods := by
    intro d hd t ht scope hscope b hb
    rcases ClassTable.methodChain_known hd t ht scope hscope b hb with hvoid | hknown
    · rw [hvoid]
      exact admissible.void
    · exact admissible.known _ hknown

end ClassCheck
