import ClassCheck.Proofs.VisibleMembers

/-!
# Tables that say what the program declares

Behind `ClassTable.Faithful` the classes of a table can be forgotten: its look-ups and its tests on
types are the relations of the specification. The table of a program without reports on its classes
and members is faithful.
-/

namespace ClassCheck

/-- The types that expressions have: known ones, and those of `null` and of calls without a
result. -/
def Program.Valid (p : Program) (t : Ty) : Prop := p.Known t ∨ t = .void ∨ t = .null

theorem Program.Valid.isClass_mem {p : Program} {ty : Ty} (h : p.Valid ty)
    (hclass : ty.isClass = true) : ty.name ∈ p.classNames := by
  have hplain : Ty.isSpecialName ty.name = false := by
    simp only [Ty.isClass, Bool.and_eq_true, Bool.not_eq_true'] at hclass
    exact hclass.2
  rcases h with (h | h | h) | rfl | rfl
  · rw [h] at hplain
    cases hplain
  · rw [h] at hplain
    cases hplain
  · exact h
  · cases hplain
  · cases hplain

theorem Program.subtype_iff_transGen {p : Program} {sub sup : Ty} (hne : sub ≠ sup)
    (hroot : sup ≠ .plain BuiltIn.rootName) :
    p.Subtype sub sup ↔
      sub.isArray = sup.isArray ∧ Relation.TransGen p.Extends sub.name sup.name := by
  constructor
  · intro h
    cases h with
    | refl => exact absurd rfl hne
    | root => exact absurd rfl hroot
    | up isArray hup => exact ⟨rfl, hup⟩
  · intro h
    obtain ⟨harray, hup⟩ := h
    have hsup : sup = ⟨sup.name, sub.isArray⟩ := by rw [harray]
    rw [hsup]
    exact .up sub.isArray hup

theorem Ty.isPrimitive_iff {t : Ty} : t.isPrimitive = true ↔ t = .int ∨ t = .boolean := by
  obtain ⟨name, isArray⟩ := t
  cases isArray <;> simp [isPrimitive, isPrimitiveName, int, boolean, plain]

structure ClassTable.Faithful (t : ClassTable) (p : Program) : Prop where
  find?_iff : ∀ n c, t.find? n = some c ↔ c ∈ t.classes ∧ c.name = n
  mem_classNames : ∀ n, n ∈ p.classNames ↔ ∃ c ∈ t.classes, c.name = n
  names_plain : ∀ n ∈ p.classNames, Ty.isSpecialName n = false
  root_name : t.root.name = BuiltIn.rootName
  parent_iff : ∀ c ∈ t.classes, ∀ n,
    (∃ q, t.parent? c = some q ∧ q.name = n) ↔ p.Extends c.name n
  descends_iff : ∀ c ∈ t.classes, ∀ d ∈ t.classes,
    c.descendsFrom d = true ↔ Relation.ReflTransGen p.Extends c.name d.name
  var_iff : ∀ c ∈ t.classes, ∀ x, Dotless x → ∀ ty,
    (∃ s, ScopeStack.lookup c.varChain x = some s ∧ s.type = ty) ↔
      p.Sees ClassDecl.HasField c.name x ty
  field_iff : ∀ c ∈ t.classes, ∀ x ty,
    (∃ s, c.field? x = some s ∧ s.type = ty) ↔ p.Sees ClassDecl.HasField c.name x ty
  method_iff : ∀ c ∈ t.classes, ∀ x ty,
    (∃ s, c.method? x = some s ∧ s.type = ty) ↔ p.Sees ClassDecl.HasMethod c.name x ty
  field_known : ∀ n x ty, p.Sees ClassDecl.HasField n x ty → p.Known ty
  result_known : ∀ n x ty, p.Sees ClassDecl.HasMethod n x ty → ty.result = .void ∨ p.Known ty.result
  params_known : ∀ n x ty, p.Sees ClassDecl.HasMethod n x ty → ∀ param ∈ ty.params, p.Known param

namespace ClassTable.Faithful

variable {t : ClassTable} {p : Program} (faithful : t.Faithful p)
include faithful

theorem knows_iff {ty : Ty} : t.knows ty = true ↔ p.Known ty := by
  have hnames : ty.name ∈ t.classes.map (·.name) ↔ ty.name ∈ p.classNames := by
    rw [faithful.mem_classNames, List.mem_map]
  simp only [knows, Ty.isKnown, Ty.isPrimitiveName, Bool.or_eq_true, beq_iff_eq,
    List.contains_iff_mem, hnames, Program.Known, or_assoc]

theorem canReturn_iff {ty : Ty} : t.canReturn ty = true ↔ ty = .void ∨ p.Known ty := by
  rw [canReturn, Bool.or_eq_true, Ty.isVoid_iff, faithful.knows_iff]

theorem eq_of_name {c d : ClassInfo} (hc : c ∈ t.classes) (hd : d ∈ t.classes)
    (h : c.name = d.name) : c = d := by
  have hfind := (faithful.find?_iff _ _).mpr ⟨hc, h⟩
  rw [(faithful.find?_iff _ _).mpr ⟨hd, rfl⟩] at hfind
  exact (Option.some.inj hfind).symm

theorem root_mem : BuiltIn.rootName ∈ p.classNames :=
  (faithful.mem_classNames _).mpr ⟨t.root, List.mem_cons_self, faithful.root_name⟩

theorem extends_target {sub sup : String} (h : p.Extends sub sup) : sup ∈ p.classNames := by
  obtain ⟨c, hc, rfl⟩ := (faithful.mem_classNames _).mp h.source
  obtain ⟨q, hq, rfl⟩ := (faithful.parent_iff c hc sup).mpr h
  refine (faithful.mem_classNames _).mpr ⟨q, ?_, rfl⟩
  obtain ⟨n, -, hn⟩ := Option.bind_eq_some_iff.mp hq
  exact ((faithful.find?_iff _ _).mp hn).1

theorem transGen_mem {sub sup : String} (h : Relation.TransGen p.Extends sub sup) :
    sub ∈ p.classNames ∧ sup ∈ p.classNames := by
  refine ⟨?_, ?_⟩
  · obtain ⟨_, hsub, -⟩ := Relation.TransGen.head'_iff.mp h
    exact hsub.source
  · obtain ⟨_, -, hsup⟩ := Relation.TransGen.tail'_iff.mp h
    exact faithful.extends_target hsup

theorem isClass_plain {n : String} (hn : n ∈ p.classNames) : (Ty.plain n).isClass = true := by
  simp [Ty.isClass, Ty.plain, faithful.names_plain n hn]

theorem isReference_of_mem {n : String} (hn : n ∈ p.classNames) (isArray : Bool) :
    (⟨n, isArray⟩ : Ty).isReference = true := by
  simp [Ty.isReference, Ty.isClass, faithful.names_plain n hn]

theorem not_mem_special {n : String} (h : Ty.isSpecialName n = true) : n ∉ p.classNames := by
  intro hn
  rw [faithful.names_plain n hn] at h
  cases h

theorem known_not_special {ty : Ty} (h : p.Known ty) :
    ty ≠ .void ∧ ty ≠ .null ∧ ty.isError = false := by
  have hnames : ty.name ≠ "void" ∧ ty.name ≠ "null" ∧ ty.name ≠ "<error>" := by
    rcases h with h | h | h
    · rw [h]
      decide
    · rw [h]
      decide
    · refine ⟨?_, ?_, ?_⟩
      all_goals
        intro hname
        rw [hname] at h
        exact faithful.not_mem_special (by decide) h
  refine ⟨?_, ?_, beq_eq_false_iff_ne.mpr hnames.2.2⟩
  · intro hty
    exact hnames.1 (by rw [hty]; rfl)
  · intro hty
    exact hnames.2.1 (by rw [hty]; rfl)

theorem valid_not_error {ty : Ty} (h : p.Valid ty) : ty.isError = false := by
  rcases h with h | rfl | rfl
  · exact (faithful.known_not_special h).2.2
  · rfl
  · rfl

theorem reference_iff {ty : Ty} :
    p.Reference ty ↔ ty.isReference = true ∧ t.knows ty = true := by
  rw [faithful.knows_iff, Program.Reference, and_comm]
  refine and_congr_left ?_
  intro hknown
  have hname : ty.name ∈ p.classNames ↔ Ty.isSpecialName ty.name = false := by
    constructor
    · exact faithful.names_plain _
    · intro hplain
      rcases hknown with h | h | h
      · rw [h] at hplain
        cases hplain
      · rw [h] at hplain
        cases hplain
      · exact h
  cases harray : ty.isArray <;> simp [Ty.isReference, Ty.isClass, harray, hname]

theorem valid_isReference_iff {ty : Ty} (h : p.Valid ty) :
    ty.isReference = true ↔ p.Reference ty := by
  rw [faithful.reference_iff]
  rcases h with h | rfl | rfl
  · rw [faithful.knows_iff.mpr h]
    simp
  · simp [Ty.isReference, Ty.isClass, Ty.void, Ty.plain, Ty.isSpecialName]
  · simp [Ty.isReference, Ty.isClass, Ty.null, Ty.plain, Ty.isSpecialName]

theorem subtype_isReference {sub sup : Ty} (h : p.Subtype sub sup) (hne : sub ≠ sup) :
    sub.isReference = true ∧ sup.isReference = true := by
  cases h with
  | refl => exact absurd rfl hne
  | root href => exact ⟨(faithful.reference_iff.mp href).1, rfl⟩
  | up isArray hup =>
    obtain ⟨hsub, hsup⟩ := faithful.transGen_mem hup
    exact ⟨faithful.isReference_of_mem hsub _, faithful.isReference_of_mem hsup _⟩

theorem find?_descends_iff {sub sup : String} (hne : sub ≠ sup) :
    (match t.find? sub, t.find? sup with
      | some c, some d => c.descendsFrom d
      | _, _ => false) = true ↔ Relation.TransGen p.Extends sub sup := by
  split
  · rename_i c d hc hd
    obtain ⟨hcmem, rfl⟩ := (faithful.find?_iff _ _).mp hc
    obtain ⟨hdmem, rfl⟩ := (faithful.find?_iff _ _).mp hd
    rw [faithful.descends_iff c hcmem d hdmem, Relation.reflTransGen_iff_eq_or_transGen]
    exact ⟨fun h => h.resolve_left hne.symm, .inr⟩
  · rename_i hnone
    refine iff_of_false Bool.false_ne_true ?_
    intro h
    obtain ⟨hsub, hsup⟩ := faithful.transGen_mem h
    obtain ⟨c, hc⟩ := (faithful.mem_classNames _).mp hsub
    obtain ⟨d, hd⟩ := (faithful.mem_classNames _).mp hsup
    exact hnone c d ((faithful.find?_iff _ _).mpr hc) ((faithful.find?_iff _ _).mpr hd)

theorem isSubtype_iff {sub sup : Ty} (hsub : p.Valid sub) :
    t.isSubtype sub sup = true ↔ p.Subtype sub sup := by
  have hrootType : t.root.type = .plain BuiltIn.rootName := by
    rw [Registered.type, faithful.root_name]
  rw [isSubtype, hrootType]
  by_cases heq : sub = sup
  · rw [if_pos heq, heq]
    exact iff_of_true rfl (.refl _)
  rw [if_neg heq]
  by_cases hform : sub.isReference = true ∧ sup.isReference = true
  swap
  · rw [if_pos (by simpa [or_iff_not_imp_left] using hform)]
    exact iff_of_false Bool.false_ne_true fun h => hform (faithful.subtype_isReference h heq)
  rw [if_neg (by simp [hform])]
  by_cases hroot : sup = .plain BuiltIn.rootName
  · rw [if_pos hroot, hroot]
    exact iff_of_true rfl (.root ((faithful.valid_isReference_iff hsub).mp hform.1))
  rw [if_neg hroot, Program.subtype_iff_transGen heq hroot]
  by_cases harray : sub.isArray = sup.isArray
  · have hnames : sub.name ≠ sup.name := fun hname => heq (Ty.ext hname harray)
    rw [if_neg (not_not_intro harray), and_iff_right harray]
    exact faithful.find?_descends_iff hnames
  · rw [if_pos harray]
    exact iff_of_false Bool.false_ne_true fun h => harray h.1

theorem not_subtype_null {ty : Ty} (hne : ty ≠ .null) :
    ¬ p.Subtype .null ty ∧ ¬ p.Subtype ty .null := by
  refine ⟨fun h => ?_, fun h => ?_⟩
  · have hnull := (faithful.subtype_isReference h hne.symm).1
    cases hnull
  · have hnull := (faithful.subtype_isReference h hne).2
    cases hnull

theorem accepts_iff {target source : Ty} (ht : p.Known target) (hs : p.Valid source) :
    t.accepts target source = true ↔ p.Assignable target source := by
  obtain ⟨hvoid, hnull, herror⟩ := faithful.known_not_special ht
  have hvoid' : target.isVoid = false := beq_eq_false_iff_ne.mpr hvoid
  simp only [accepts, herror, faithful.valid_not_error hs, hvoid', Program.Assignable,
    Bool.or_false, Bool.false_eq_true, if_false]
  by_cases hsv : source = .void
  · subst hsv
    simp [Ty.isVoid, Ty.void, Ty.null, Ty.plain]
  rw [if_neg (mt Ty.isVoid_iff.mp hsv)]
  by_cases hsn : source = .null
  · subst hsn
    have hnot := (faithful.not_subtype_null hnull).1
    simp [Ty.isNull, hnot, faithful.valid_isReference_iff (.inl ht)]
  · rw [if_neg (mt Ty.isNull_iff.mp hsn), faithful.isSubtype_iff hs]
    simp [hsv, hsn]

theorem comparable_iff {left right : Ty} (hl : p.Valid left) (hr : p.Valid right) :
    t.comparable left right = true ↔ p.Comparable left right := by
  simp only [comparable, faithful.valid_not_error hl, faithful.valid_not_error hr, Bool.or_self,
    Bool.false_eq_true, if_false, Program.Comparable, Program.Related]
  have hvoid : ¬ p.Reference .void := fun h => (faithful.known_not_special h.1).1 rfl
  have hnull : ¬ p.Reference .null := fun h => (faithful.known_not_special h.1).2.1 rfl
  have hdistinct : Ty.void ≠ .null := by decide
  by_cases hlv : left = .void
  · subst hlv
    simp [Ty.isVoid, hvoid, hdistinct]
  by_cases hrv : right = .void
  · subst hrv
    simp [Ty.isVoid, hvoid, hdistinct]
  rw [if_neg (by simp [Ty.isVoid_iff, hlv, hrv])]
  by_cases heq : left = right
  · rw [if_pos heq]
    exact iff_of_true rfl (.inr (.inr ⟨hlv, hrv, .inl (heq ▸ .refl _)⟩))
  rw [if_neg heq]
  by_cases hln : left = .null
  · subst hln
    have hnot := faithful.not_subtype_null (Ne.symm heq)
    rw [if_pos (Ty.isNull_iff.mpr rfl), faithful.valid_isReference_iff hr]
    simp [hnot, hnull]
  rw [if_neg (mt Ty.isNull_iff.mp hln)]
  by_cases hrn : right = .null
  · subst hrn
    have hnot := faithful.not_subtype_null heq
    rw [if_pos (Ty.isNull_iff.mpr rfl), faithful.valid_isReference_iff hl]
    simp [hnot, hnull]
  rw [if_neg (mt Ty.isNull_iff.mp hrn), Bool.or_eq_true, faithful.isSubtype_iff hl,
    faithful.isSubtype_iff hr]
  simp [hlv, hrv, hln, hrn]

end ClassTable.Faithful

namespace Program

variable {p : Program}

theorem builtIn_formals_known : ∀ b ∈ Registry.builtIn.classes, ∀ m ∈ b.decl.methods,
    ∀ f ∈ m.formals, p.Known f.type := by
  have hnames : ∀ b ∈ Registry.builtIn.classes, ∀ m ∈ b.decl.methods, ∀ f ∈ m.formals,
      f.type.name ∈ "int" :: "boolean" :: Registry.builtIn.names := by decide
  exact fun b hb m hm f hf => known_of_builtIn (hnames b hb m hm f hf)

namespace HierarchyOk

variable (ok : p.HierarchyOk)
include ok

theorem descendsFrom_iff {c d : ClassNode} (hc : c ∈ p.hierarchy.classes)
    (hd : d ∈ p.hierarchy.classes) :
    (p.hierarchy.classInfo c).descendsFrom (p.hierarchy.classInfo d) = true ↔
      Relation.ReflTransGen p.Extends c.name d.name := by
  have linked := Hierarchy.ofProgram_linked (some p)
  rw [linked.descendsFrom_iff hc hd, Relation.reflTransGen_iff_eq_or_transGen,
    ok.transGen_extends_iff hc hd]
  constructor
  · intro h
    obtain ⟨n, hn⟩ := h
    cases n with
    | zero =>
      cases hn
      exact .inl rfl
    | succ n => exact .inr ⟨n, hn⟩
  · intro h
    rcases h with h | ⟨n, hn⟩
    · rw [linked.eq_of_name hd hc h]
      exact ⟨0, rfl⟩
    · exact ⟨n + 1, hn⟩

/-- Without reports on classes and members the table is faithful, as long as also the formals have
known types. -/
theorem faithful (hplain : ∀ d ∈ p.decls, Ty.isSpecialName d.name = false)
    (hdot : ∀ d ∈ p.decls, ∀ f ∈ d.fields, Dotless f.name)
    (quiet : ∀ c ∈ p.hierarchy.classes, (p.hierarchy.members c).reports = [])
    (hformals : ∀ d ∈ p.decls, ∀ m ∈ d.methods, ∀ f ∈ m.formals, p.Known f.type) :
    (ClassTable.ofHierarchy p.hierarchy).Faithful p := by
  have linked := Hierarchy.ofProgram_linked (some p)
  have hmembers : ∀ d ∈ p.allDecls, p.MembersOk d := fun d => ok.membersOk_of_quiet hdot quiet
  have hclass : ∀ c ∈ (ClassTable.ofHierarchy p.hierarchy).classes,
      ∃ n ∈ p.hierarchy.classes, p.hierarchy.classInfo n = c := by
    intro c hc
    rw [ClassTable.classes_ofHierarchy] at hc
    exact List.mem_map.mp hc
  constructor
  case find?_iff =>
    intro n c
    rw [ClassTable.find?_ofHierarchy, ClassTable.classes_ofHierarchy, Option.map_eq_some_iff,
      List.mem_map]
    constructor
    · intro h
      obtain ⟨a, ha, rfl⟩ := h
      obtain ⟨hmem, hname⟩ := linked.find?_eq_some_iff.mp ha
      exact ⟨⟨a, hmem, rfl⟩, hname⟩
    · intro h
      obtain ⟨⟨a, ha, rfl⟩, hname⟩ := h
      exact ⟨a, linked.find?_eq_some_iff.mpr ⟨ha, hname⟩, rfl⟩
  case mem_classNames =>
    intro n
    rw [ok.mem_classNames, ClassTable.classes_ofHierarchy]
    simp
  case names_plain =>
    intro n hn
    rw [p.classNames_eq, List.mem_append] at hn
    rcases hn with hn | hn
    · have hbuiltIn : ∀ m ∈ Registry.builtIn.names, Ty.isSpecialName m = false := by decide
      exact hbuiltIn n hn
    · obtain ⟨d, hd, rfl⟩ := List.mem_map.mp hn
      exact hplain d hd
  case root_name => rfl
  case parent_iff =>
    intro c hc n
    obtain ⟨a, ha, rfl⟩ := hclass c hc
    rw [ClassTable.parent?_ofHierarchy]
    constructor
    · intro h
      obtain ⟨q, hq, rfl⟩ := h
      obtain ⟨b, hb, rfl⟩ := Option.map_eq_some_iff.mp hq
      exact (ok.parent?_iff ha (Hierarchy.parent?_mem hb)).mp hb
    · intro h
      rcases ok.root_or_parent ha with rfl | ⟨q, hq⟩
      · exact absurd h not_extends_root
      · have hextends := (ok.parent?_iff ha (Hierarchy.parent?_mem hq)).mp hq
        rw [hq]
        exact ⟨_, rfl, hextends.unique ok.classNames_nodup h⟩
  case descends_iff =>
    intro c hc d hd
    obtain ⟨a, ha, rfl⟩ := hclass c hc
    obtain ⟨b, hb, rfl⟩ := hclass d hd
    exact ok.descendsFrom_iff ha hb
  case var_iff =>
    intro c hc x hx ty
    obtain ⟨a, ha, rfl⟩ := hclass c hc
    exact ok.field_iff_sees hdot quiet ha hx ty
  case field_iff =>
    intro c hc x ty
    obtain ⟨a, ha, rfl⟩ := hclass c hc
    exact ok.selfField_iff_sees hdot quiet ha x ty
  case method_iff =>
    intro c hc x ty
    obtain ⟨a, ha, rfl⟩ := hclass c hc
    exact ok.method_iff_sees hdot quiet ha x ty
  case field_known =>
    intro n x ty h
    obtain ⟨e, he, -, f, hf, -, rfl⟩ := h.declared
    exact (hmembers e he).fields_known f hf
  case result_known =>
    intro n x ty h
    obtain ⟨e, he, -, m, hm, -, rfl⟩ := h.declared
    exact (hmembers e he).results_known m hm
  case params_known =>
    intro n x ty h param hparam
    obtain ⟨e, he, -, m, hm, -, rfl⟩ := h.declared
    obtain ⟨f, hf, rfl⟩ := List.mem_map.mp hparam
    rcases List.mem_append.mp he with he | he
    · obtain ⟨b, hb, rfl⟩ := List.mem_map.mp he
      exact builtIn_formals_known b hb m hm f hf
    · exact hformals e he m hm f hf

end HierarchyOk

end Program

end ClassCheck
