import Mathlib.Data.List.Nodup
import ClassCheck.Proofs.MemberTables
import ClassCheck.Proofs.WellFormed

/-!
# The members that a class declares

A list of members is declared without a report exactly if its names are distinct and free, its types
known, and its methods agree with those above; the tables then have these members and no others.
-/

namespace ClassCheck

namespace ClassDecl

variable {d : ClassDecl}

theorem mem_picked {α : Type} {pick : Member → Option α} {make : α → Member}
    (hpick : ∀ m a, pick m = some a ↔ m = make a) {ms : List (Option Member)} {a : α} :
    a ∈ (ms.filterMap id).filterMap pick ↔ some (make a) ∈ ms := by
  simp only [List.mem_filterMap, id, hpick, exists_eq_right]

theorem mem_fields {f : Field} : f ∈ d.fields ↔ some (.field f) ∈ d.members := by
  refine mem_picked fun m g => ?_
  cases m <;> simp [Member.field?]

theorem mem_methods {m : Method} : m ∈ d.methods ↔ some (.method m) ∈ d.members := by
  refine mem_picked fun g n => ?_
  cases g <;> simp [Member.method?]

end ClassDecl

theorem isReserved_eq_false_iff {name : String} :
    isReserved name = false ↔ name ∉ ["this", "super", "null"] := by
  simp [isReserved, and_assoc]

theorem Ty.isVoid_iff {t : Ty} : t.isVoid = true ↔ t = .void := beq_iff_eq

theorem Ty.isNull_iff {t : Ty} : t.isNull = true ↔ t = .null := beq_iff_eq

def Signature.type (s : Signature) : MethodType := ⟨s.params, s.returnType⟩

theorem Signature.mismatch?_eq_none_iff {s inherited : Signature} :
    s.mismatch? inherited = none ↔ inherited.type = s.type := by
  simp only [mismatch?, Signature.type, MethodType.mk.injEq]
  grind

def Finds {α β : Type} (l : List α) (name : α → String) (entry : α → β) (x : String)
    (found : Option β) : Prop :=
  ∀ b, found = some b ↔ ∃ a ∈ l, name a = x ∧ b = entry a

namespace Finds

variable {α β : Type} {l : List α} {name : α → String} {entry : α → β} {x : String}
  {found : Option β}

theorem nil : Finds [] name entry x none := by
  intro b
  simp

theorem eq_none_iff (finds : Finds l name entry x found) : found = none ↔ x ∉ l.map name := by
  constructor
  · intro hnone hmem
    obtain ⟨a, ha, hname⟩ := List.mem_map.mp hmem
    rw [(finds _).mpr ⟨a, ha, hname, rfl⟩] at hnone
    cases hnone
  · intro hnew
    refine Option.eq_none_iff_forall_ne_some.mpr ?_
    intro b hb
    obtain ⟨a, ha, hname, -⟩ := (finds b).mp hb
    exact hnew (List.mem_map.mpr ⟨a, ha, hname⟩)

theorem snoc (finds : Finds l name entry x found) {a : α} (hnew : name a ∉ l.map name) :
    Finds (l ++ [a]) name entry x (if x = name a then some (entry a) else found) := by
  intro b
  split
  · rename_i hx
    subst hx
    constructor
    · intro hb
      cases hb
      exact ⟨a, List.mem_append_right _ (List.mem_singleton_self a), rfl, rfl⟩
    · intro hb
      obtain ⟨a', ha', hname, rfl⟩ := hb
      rcases List.mem_append.mp ha' with ha' | ha'
      · exact absurd (List.mem_map.mpr ⟨a', ha', hname⟩) hnew
      · rw [List.mem_singleton.mp ha']
  · rename_i hx
    rw [finds b]
    constructor
    · intro hb
      obtain ⟨a', ha', hname, rfl⟩ := hb
      exact ⟨a', List.mem_append_left _ ha', hname, rfl⟩
    · intro hb
      obtain ⟨a', ha', hname, rfl⟩ := hb
      rcases List.mem_append.mp ha' with ha' | ha'
      · exact ⟨a', ha', hname, rfl⟩
      · rw [List.mem_singleton.mp ha'] at hname
        exact absurd hname.symm hx

end Finds

@[simp] theorem Field.symbol_name (f : Field) : f.symbol.name = f.name := rfl

namespace Members

@[simp] theorem signature_type (c : ClassNode) (m : Method) : (signature c m).type = m.type := rfl

theorem dotless_ne_selfKey {x : String} (hx : Dotless x) (y : String) : x ≠ selfKey y := by
  intro h
  apply hx
  rw [h, selfKey, String.toList_append]
  exact List.mem_append_left _ (by decide)

theorem selfKey_inj {x y : String} : selfKey x = selfKey y ↔ x = y := by
  rw [selfKey, selfKey, ← String.toList_inj, ← String.toList_inj, String.toList_append,
    String.toList_append, List.append_cancel_left_eq]

/-- What has to hold of the fields and methods of a class below classes with the members `above`. -/
structure Declarable (h : Hierarchy) (above : List Members) (fs : List Field) (ms : List Method) :
    Prop where
  fields_distinct : (fs.map (·.name)).Nodup
  fields_ok : ∀ f ∈ fs, f.name ∉ ["this", "super", "null"] ∧ h.knows f.type = true
  methods_distinct : (ms.map (·.name)).Nodup
  methods_ok : ∀ m ∈ ms, m.name ∉ ["this", "super", "null"] ∧ canReturn h m.returnType = true ∧
    ∀ s, ScopeStack.lookup (above.map (·.signatures)) m.name = some s → s.type = m.type

/-- The tables of `c` have these fields and methods and no others. -/
structure Lists (m : Members) (c : ClassNode) (fs : List Field) (ms : List Method) : Prop where
  vars_flat : ∀ x, m.vars.peek x = m.vars.find? x
  signatures_flat : ∀ x, m.signatures.peek x = m.signatures.find? x
  field : ∀ x, Dotless x → Finds fs (·.name) Field.symbol x (m.vars.find? x)
  selfField : ∀ x, Finds fs (·.name) Field.symbol x (m.vars.find? (selfKey x))
  method : ∀ x, Finds ms (·.name) (signature c) x (m.signatures.find? x)

variable {h : Hierarchy} {c : ClassNode} {above : List Members} {m : Members}
  {fs : List Field} {ms : List Method}

theorem Declarable.left {fs' : List Field} {ms' : List Method}
    (ok : Declarable h above (fs ++ fs') (ms ++ ms')) : Declarable h above fs ms where
  fields_distinct := by
    have hdistinct := ok.fields_distinct
    rw [List.map_append] at hdistinct
    exact hdistinct.of_append_left
  fields_ok := fun f hf => ok.fields_ok f (List.mem_append_left _ hf)
  methods_distinct := by
    have hdistinct := ok.methods_distinct
    rw [List.map_append] at hdistinct
    exact hdistinct.of_append_left
  methods_ok := fun d hd => ok.methods_ok d (List.mem_append_left _ hd)

theorem Declarable.addField_iff (ok : Declarable h above fs ms) {f : Field} :
    Declarable h above (fs ++ [f]) ms ↔
      f.name ∉ ["this", "super", "null"] ∧ f.name ∉ fs.map (·.name) ∧ h.knows f.type = true := by
  constructor
  · intro hadd
    have hdistinct := hadd.fields_distinct
    rw [List.map_append, List.map_singleton, ← List.concat_eq_append,
      List.nodup_concat] at hdistinct
    obtain ⟨hfree, hknown⟩ := hadd.fields_ok f (List.mem_append_right _ (List.mem_singleton_self f))
    exact ⟨hfree, hdistinct.1, hknown⟩
  · intro hadd
    obtain ⟨hfree, hnew, hknown⟩ := hadd
    refine ⟨?_, ?_, ok.methods_distinct, ok.methods_ok⟩
    · rw [List.map_append, List.map_singleton, ← List.concat_eq_append, List.nodup_concat]
      exact ⟨hnew, ok.fields_distinct⟩
    · intro g hg
      rcases List.mem_append.mp hg with hg | hg
      · exact ok.fields_ok g hg
      · rw [List.mem_singleton.mp hg]
        exact ⟨hfree, hknown⟩

theorem Declarable.addMethod_iff (ok : Declarable h above fs ms) {d : Method} :
    Declarable h above fs (ms ++ [d]) ↔
      d.name ∉ ["this", "super", "null"] ∧ d.name ∉ ms.map (·.name) ∧
      canReturn h d.returnType = true ∧
      ∀ s, ScopeStack.lookup (above.map (·.signatures)) d.name = some s → s.type = d.type := by
  constructor
  · intro hadd
    have hdistinct := hadd.methods_distinct
    rw [List.map_append, List.map_singleton, ← List.concat_eq_append,
      List.nodup_concat] at hdistinct
    obtain ⟨hfree, hreturn, hagree⟩ :=
      hadd.methods_ok d (List.mem_append_right _ (List.mem_singleton_self d))
    exact ⟨hfree, hdistinct.1, hreturn, hagree⟩
  · intro hadd
    obtain ⟨hfree, hnew, hreturn, hagree⟩ := hadd
    refine ⟨ok.fields_distinct, ok.fields_ok, ?_, ?_⟩
    · rw [List.map_append, List.map_singleton, ← List.concat_eq_append, List.nodup_concat]
      exact ⟨hnew, ok.methods_distinct⟩
    · intro e he
      rcases List.mem_append.mp he with he | he
      · exact ok.methods_ok e he
      · rw [List.mem_singleton.mp he]
        exact ⟨hfree, hreturn, hagree⟩

namespace Lists

theorem empty (c : ClassNode) : Members.empty.Lists c [] [] where
  vars_flat := fun _ => rfl
  signatures_flat := fun _ => rfl
  field := fun _ _ => .nil
  selfField := fun _ => .nil
  method := fun _ => .nil

theorem addField (lists : m.Lists c fs ms) {f : Field} (hdot : Dotless f.name)
    (hnew : f.name ∉ fs.map (·.name)) : (m.addField f.symbol).Lists c (fs ++ [f]) ms where
  vars_flat := by
    intro x
    simp only [Members.addField, ScopeStack.peek_add, ScopeStack.find?_add, lists.vars_flat]
  signatures_flat := lists.signatures_flat
  field := by
    intro x hx
    have hfound := (lists.field x hx).snoc hnew
    simpa only [Members.addField, ScopeStack.find?_add, dotless_ne_selfKey hx,
      Field.symbol_name, if_false] using hfound
  selfField := by
    intro x
    have hfound := (lists.selfField x).snoc hnew
    have hbare : selfKey x ≠ f.name := (dotless_ne_selfKey hdot x).symm
    simpa only [Members.addField, ScopeStack.find?_add, Field.symbol_name, hbare, selfKey_inj,
      if_false] using hfound
  method := lists.method

theorem addMethod (lists : m.Lists c fs ms) {d : Method} (hnew : d.name ∉ ms.map (·.name)) :
    (m.addMethod (signature c d)).Lists c fs (ms ++ [d]) where
  vars_flat := lists.vars_flat
  signatures_flat := by
    intro x
    simp only [Members.addMethod, ScopeStack.peek_add, ScopeStack.find?_add, lists.signatures_flat]
  field := lists.field
  selfField := lists.selfField
  method := by
    intro x
    simp only [Members.addMethod, ScopeStack.find?_add]
    exact (lists.method x).snoc hnew

theorem declareField_iff (lists : m.Lists c fs ms) (ok : Declarable h above fs ms) {f : Field}
    (hdot : Dotless f.name) {m' : Members} :
    m.declareField h c f = .ok m' ↔
      Declarable h above (fs ++ [f]) ms ∧ m' = m.addField f.symbol := by
  rw [ok.addField_iff, ← isReserved_eq_false_iff, ← (lists.field f.name hdot).eq_none_iff,
    ← lists.vars_flat, declareField_eq_ok_iff]
  simp only [and_assoc]

theorem declareMethod_iff (lists : m.Lists c fs ms) (ok : Declarable h above fs ms) {d : Method}
    {m' : Members} :
    m.declareMethod h c above d = .ok m' ↔
      Declarable h above fs (ms ++ [d]) ∧ m' = m.addMethod (signature c d) := by
  have hagree : ∀ s : Signature, s.type = d.type ↔ (signature c d).mismatch? s = none := by
    intro s
    rw [← signature_type c d]
    exact Signature.mismatch?_eq_none_iff.symm
  rw [ok.addMethod_iff, ← isReserved_eq_false_iff, ← (lists.method d.name).eq_none_iff,
    ← lists.signatures_flat, declareMethod_eq_ok_iff]
  simp only [hagree, and_assoc]

end Lists

theorem declare_rest (m : Members) (file : String) (line : Int)
    {outcome : Except MemberProblem Members} {m₁ : Members} {fs₁ fs₂ : List Field}
    {ms₁ ms₂ : List Method} {rest : List (Option Member)}
    (houtcome : ∀ m', outcome = .ok m' ↔ Declarable h above fs₁ ms₁ ∧ m' = m₁)
    (hrest : Declarable h above fs₁ ms₁ →
      ((m₁.declareAll h c above rest).reports = [] ↔
        Declarable h above (fs₁ ++ fs₂) (ms₁ ++ ms₂)) ∧
      (Declarable h above (fs₁ ++ fs₂) (ms₁ ++ ms₂) →
        (m₁.declareAll h c above rest).value.Lists c (fs₁ ++ fs₂) (ms₁ ++ ms₂))) :
    let run := Reported.attempt m file line outcome >>= fun m' => m'.declareAll h c above rest
    (run.reports = [] ↔ Declarable h above (fs₁ ++ fs₂) (ms₁ ++ ms₂)) ∧
      (Declarable h above (fs₁ ++ fs₂) (ms₁ ++ ms₂) →
        run.value.Lists c (fs₁ ++ fs₂) (ms₁ ++ ms₂)) := by
  cases outcome with
  | ok m' =>
    obtain ⟨ok₁, rfl⟩ := (houtcome m').mp rfl
    simpa [Reported.attempt] using hrest ok₁
  | error problem =>
    have hnot : ¬ Declarable h above (fs₁ ++ fs₂) (ms₁ ++ ms₂) := by
      intro hall
      have houtcome₁ := (houtcome m₁).mpr ⟨hall.left, rfl⟩
      cases houtcome₁
    simp [Reported.attempt, hnot]

/-- Declaring the rest of a list goes on quietly exactly if the whole may be declared. -/
theorem Lists.declareAll {members : List (Option Member)}
    (hdot : ∀ f ∈ (members.filterMap id).filterMap Member.field?, Dotless f.name)
    (lists : m.Lists c fs ms) (ok : Declarable h above fs ms) :
    let fs' := fs ++ (members.filterMap id).filterMap Member.field?
    let ms' := ms ++ (members.filterMap id).filterMap Member.method?
    ((m.declareAll h c above members).reports = [] ↔ Declarable h above fs' ms') ∧
      (Declarable h above fs' ms' → (m.declareAll h c above members).value.Lists c fs' ms') := by
  induction members generalizing m fs ms with
  | nil => simp [Members.declareAll, ok, lists]
  | cons member rest ih =>
    cases member with
    | none => exact ih hdot lists ok
    | some member =>
      cases member with
      | field f =>
        have hf : Dotless f.name := hdot f List.mem_cons_self
        have hrest := declare_rest m c.decl.file f.line
          (fun _ => lists.declareField_iff ok hf)
          (fun ok₁ => ih (fun g hg => hdot g (List.mem_cons_of_mem _ hg))
            (lists.addField hf (ok.addField_iff.mp ok₁).2.1) ok₁)
        rw [List.append_assoc] at hrest
        exact hrest
      | method d =>
        have hrest := declare_rest m c.decl.file d.line
          (fun _ => lists.declareMethod_iff ok (d := d))
          (fun ok₁ => ih hdot (lists.addMethod (ok.addMethod_iff.mp ok₁).2.1) ok₁)
        rw [List.append_assoc] at hrest
        exact hrest

theorem ofClass_reports_eq_nil_iff (hdot : ∀ f ∈ c.decl.fields, Dotless f.name) :
    (ofClass h c above).reports = [] ↔ Declarable h above c.decl.fields c.decl.methods :=
  ((Lists.empty c).declareAll hdot ⟨.nil, by simp, .nil, by simp⟩).1

theorem ofClass_lists (hdot : ∀ f ∈ c.decl.fields, Dotless f.name)
    (ok : Declarable h above c.decl.fields c.decl.methods) :
    (ofClass h c above).value.Lists c c.decl.fields c.decl.methods :=
  ((Lists.empty c).declareAll hdot ⟨.nil, by simp, .nil, by simp⟩).2 ok

end Members

end ClassCheck
