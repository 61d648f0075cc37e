import ClassCheck.Proofs.SubtypeOrder

/-!
# Arrays, assignment and comparison

Three relations are built on subtyping. Arrays of classes are ordered by the links alone, so that
the shortcut which puts every class below the root is missing for arrays: a class that no link
connects to the root is below it, while its arrays are not below those of the root. Two operands can
be compared if one can be assigned to the other or both are null, and assignment goes along with
subtyping on both sides.
-/

namespace ClassCheck

namespace Ty

theorem isReference_arrayOf (t : Ty) : t.arrayOf.isReference = true := rfl

end Ty

/-! ### Arrays of classes -/

namespace Hierarchy.Linked

variable {h : Hierarchy} (linked : h.Linked)
include linked

theorem arrayOf_type_eq_iff {c d : ClassNode} (hc : c ∈ h.classes) (hd : d ∈ h.classes) :
    c.type.arrayOf = d.type.arrayOf ↔ c = d := by
  constructor
  · intro harray
    exact linked.eq_of_name hc hd (congrArg Ty.name harray)
  · rintro rfl
    rfl

theorem isSubtype_arrayOf_iff {c d : ClassNode} (hc : c ∈ h.classes) (hd : d ∈ h.classes) :
    (ClassTable.ofHierarchy h).isSubtype c.type.arrayOf d.type.arrayOf = true ↔
      d ∈ c :: h.ancestors c := by
  have hplain : d.type.arrayOf ≠ .plain BuiltIn.rootName := by
    intro heq
    cases congrArg Ty.isArray heq
  rw [linked.isSubtype_iff, and_iff_right (Ty.isReference_arrayOf _),
    and_iff_right (Ty.isReference_arrayOf _), or_iff_right hplain,
    linked.arrayOf_type_eq_iff hc hd]
  constructor
  · rintro (rfl | ⟨-, hleads⟩)
    · exact List.mem_cons_self
    · exact (linked.leads_iff hc hd).mp hleads
  · intro hup
    exact .inr ⟨rfl, (linked.leads_iff hc hd).mpr hup⟩

/-- Arrays are ordered as their elements, but for arrays of the root over classes that no link
connects to it. -/
theorem covariant_iff {c d : ClassNode} (hc : c ∈ h.classes) (hd : d ∈ h.classes)
    (hcclass : c.type.isClass = true) (hdclass : d.type.isClass = true) :
    (ClassTable.ofHierarchy h).isSubtype c.type.arrayOf d.type.arrayOf =
        (ClassTable.ofHierarchy h).isSubtype c.type d.type ↔
      (d = root → root ∈ c :: h.ancestors c) := by
  rw [Bool.eq_iff_iff, linked.isSubtype_arrayOf_iff hc hd,
    linked.isSubtype_type_iff hc hd hcclass hdclass]
  constructor
  · rintro hsame rfl
    exact hsame.mpr (.inr rfl)
  · intro hroot
    refine ⟨.inl, ?_⟩
    rintro (hup | rfl)
    · exact hup
    · exact hroot rfl

end Hierarchy.Linked

section Analyzed

variable {program : Option Program} {entry : EntryPoint} {c d : ClassInfo}
  (hc : c ∈ (analyze program entry).order)
include hc

theorem root_mem_upward (accepted : (analyze program entry).isAccepted = true) :
    Hierarchy.root ∈ c.upward := by
  have hquiet := (isAccepted_iff.mp accepted).links
  obtain ⟨n, hn, rfl⟩ := mem_analyze_order.mp hc
  exact Hierarchy.ofRegistry_root_mem (Registry.ofProgram_sound program) hquiet hn

variable (hd : d ∈ (analyze program entry).order)
include hd

theorem isSubtype_arrayOf_analyze :
    (analyze program entry).table.isSubtype c.type.arrayOf d.type.arrayOf = true ↔
      d.toClassNode ∈ c.upward := by
  have linked := Hierarchy.ofProgram_linked program
  obtain ⟨n, hn, rfl⟩ := mem_analyze_order.mp hc
  obtain ⟨k, hk, rfl⟩ := mem_analyze_order.mp hd
  rw [table_analyze]
  exact linked.isSubtype_arrayOf_iff hn hk

theorem covariant_analyze (hcclass : c.type.isClass = true) (hdclass : d.type.isClass = true) :
    (analyze program entry).table.isSubtype c.type.arrayOf d.type.arrayOf =
        (analyze program entry).table.isSubtype c.type d.type ↔
      (d.type = .plain "Object" → Hierarchy.root ∈ c.upward) := by
  have linked := Hierarchy.ofProgram_linked program
  obtain ⟨n, hn, rfl⟩ := mem_analyze_order.mp hc
  obtain ⟨k, hk, rfl⟩ := mem_analyze_order.mp hd
  rw [table_analyze]
  refine (linked.covariant_iff hn hk hcclass hdclass).trans ?_
  exact imp_congr_left (linked.type_eq_root_iff hk).symm

end Analyzed

/-- In every hierarchy, arrays of classes are ordered exactly as the links lead. This is the order
of their elements unless it is about arrays of the root and a class whose links do not lead there;
in an accepted program all links do. -/
theorem array_covariance_exact (program : Option Program) (entry : EntryPoint) :
    let a := analyze program entry
    (∀ c ∈ a.order, ∀ d ∈ a.order, c.type.isClass = true → d.type.isClass = true →
      (a.table.isSubtype c.type.arrayOf d.type.arrayOf = true ↔ d.toClassNode ∈ c.upward) ∧
      (a.table.isSubtype c.type.arrayOf d.type.arrayOf = a.table.isSubtype c.type d.type ↔
        (d.type = .plain "Object" → Hierarchy.root ∈ c.upward))) ∧
    (a.isAccepted = true →
      ∀ c ∈ a.order, ∀ d ∈ a.order, c.type.isClass = true → d.type.isClass = true →
        a.table.isSubtype c.type.arrayOf d.type.arrayOf = a.table.isSubtype c.type d.type) := by
  intro a
  constructor
  · intro c hc d hd hcclass hdclass
    exact ⟨isSubtype_arrayOf_analyze hc hd, covariant_analyze hc hd hcclass hdclass⟩
  · intro accepted c hc d hd hcclass hdclass
    exact (covariant_analyze hc hd hcclass hdclass).mpr fun _ => root_mem_upward hc accepted

def strayProgram : Program :=
  ⟨1, [
    some ⟨"Stray.btm", 1, "Stray", "Missing", []⟩,
    some ⟨"Main.btm", 1, "Main", "", [
      some (.method ⟨2, "main", .void, [], [
        .decl 3 "stray" (.plain "Object") (.newObject ⟨1, 3⟩ "Stray"),
        .decl 4 "strays" ⟨"Object", true⟩ (.newArray ⟨2, 4⟩ "Stray" (.int ⟨3, 4⟩ 2))]⟩)]⟩]⟩

/-- A class whose parent is missing is below the root, but its arrays are refused where arrays of
the root are expected. -/
theorem strayProgram_not_covariant :
    let a := analyze (some strayProgram) (.ofNames "" "")
    a.diagnostics.map (fun d => (d.kind, d.line)) = [(.illegalInheritance, 1), (.typeMismatch, 4)] ∧
      ∃ c ∈ a.order, ∃ d ∈ a.order, c.type.isClass = true ∧ d.type.isClass = true ∧
        a.table.isSubtype c.type d.type = true ∧
        a.table.isSubtype c.type.arrayOf d.type.arrayOf = false := by
  decide +kernel

/-! ### Assignment and comparison -/

namespace ClassTable

variable {t : ClassTable}

@[simp] theorem isSubtype_self (t : ClassTable) (ty : Ty) : t.isSubtype ty ty = true := if_pos rfl

theorem isSubtype_cases {sub sup : Ty} (h : t.isSubtype sub sup = true) :
    sub = sup ∨ sub.isReference = true ∧ sup.isReference = true := by
  rw [isSubtype] at h
  split_ifs at h with heq hform
  · exact .inl heq
  all_goals
    simp only [Bool.or_eq_true, Bool.not_eq_true', not_or, Bool.not_eq_false] at hform
    exact .inr hform

theorem eq_of_isSubtype {sub sup : Ty} (h : t.isSubtype sub sup = true)
    (hform : sub.isReference = false ∨ sup.isReference = false) : sub = sup := by
  rcases isSubtype_cases h with heq | ⟨hsub, hsup⟩
  · exact heq
  · simp [hsub, hsup] at hform

/-- Assignment by cases: anything goes with an error, nothing with void, null goes to references,
and the rest is subtyping. -/
theorem accepts_iff {target source : Ty} :
    t.accepts target source = true ↔
      target.isError = true ∨ source.isError = true ∨ source ≠ .void ∧ target ≠ .void ∧
        (source = .null ∧ target.isReference = true ∨
          source ≠ .null ∧ t.isSubtype source target = true) := by
  rw [accepts]
  split_ifs with herror hvoid hnull
  · rw [Bool.or_eq_true] at herror
    exact iff_of_true rfl (herror.imp_right .inl)
  all_goals
    simp only [Bool.or_eq_true, not_or] at herror
    rw [or_iff_right herror.1, or_iff_right herror.2]
  · simp only [Ty.isVoid, Bool.or_eq_true, beq_iff_eq] at hvoid
    exact iff_of_false id fun h => hvoid.elim h.1 h.2.1
  all_goals
    simp only [Ty.isVoid, Bool.or_eq_true, beq_iff_eq, not_or] at hvoid
    rw [and_iff_right hvoid.1, and_iff_right hvoid.2]
  · rw [Ty.isNull, beq_iff_eq] at hnull
    simp [hnull]
  · rw [Ty.isNull, beq_iff_eq] at hnull
    simp [hnull]

section Proper

variable {target source : Ty} (htarget : target.isError = false) (hsource : source.isError = false)
include htarget hsource

theorem accepts_iff_of_proper :
    t.accepts target source = true ↔ source ≠ .void ∧ target ≠ .void ∧
      (source = .null ∧ target.isReference = true ∨
        source ≠ .null ∧ t.isSubtype source target = true) := by
  rw [accepts_iff, htarget, hsource]
  simp

theorem accepts_iff_isSubtype (hvoid : target ≠ .void) (hvoid' : source ≠ .void)
    (hnull : source ≠ .null) :
    t.accepts target source = true ↔ t.isSubtype source target = true := by
  simp [accepts_iff_of_proper htarget hsource, hvoid, hvoid', hnull]

end Proper

theorem accepts_null_iff {ty : Ty} (herror : ty.isError = false) (hvoid : ty ≠ .void)
    (hnull : ty ≠ .null) :
    t.accepts .null ty = true ∨ t.accepts ty .null = true ↔ ty.isReference = true := by
  have hproper : Ty.null.isError = false ∧ Ty.null ≠ .void := by decide
  have hleft : ¬ t.accepts .null ty = true := by
    rw [accepts_iff_isSubtype hproper.1 herror hproper.2 hvoid hnull]
    exact fun hsub => hnull (eq_of_isSubtype hsub (.inr rfl))
  have hright : t.accepts ty .null = true ↔ ty.isReference = true := by
    simp [accepts_iff_of_proper herror hproper.1, hvoid, hproper.2]
  rw [or_iff_right hleft, hright]

theorem comparable_iff {left right : Ty} :
    t.comparable left right = true ↔
      left = .null ∧ right = .null ∨ t.accepts left right = true ∨ t.accepts right left = true := by
  rw [comparable]
  split_ifs with herror hvoid heq hleft hright
  · rw [Bool.or_eq_true] at herror
    exact iff_of_true rfl (.inr (.inl (accepts_iff.mpr (herror.imp_right .inl))))
  all_goals
    simp only [Bool.or_eq_true, not_or, Bool.not_eq_true] at herror
  · simp only [Ty.isVoid, Bool.or_eq_true, beq_iff_eq] at hvoid
    rw [accepts_iff_of_proper herror.1 herror.2, accepts_iff_of_proper herror.2 herror.1]
    refine iff_of_false id ?_
    rintro (⟨rfl, rfl⟩ | ⟨hr, hl, -⟩ | ⟨hl, hr, -⟩)
    · exact absurd hvoid (by decide)
    · exact hvoid.elim hl hr
    · exact hvoid.elim hl hr
  all_goals
    simp only [Ty.isVoid, Bool.or_eq_true, beq_iff_eq, not_or] at hvoid
  · subst heq
    refine iff_of_true rfl ?_
    by_cases hnull : left = .null
    · exact .inl ⟨hnull, hnull⟩
    · exact .inr (.inl ((accepts_iff_isSubtype herror.1 herror.2 hvoid.1 hvoid.2 hnull).mpr
        (t.isSubtype_self left)))
  · rw [Ty.isNull, beq_iff_eq] at hleft
    subst hleft
    rw [accepts_null_iff herror.2 hvoid.2 (Ne.symm heq), or_iff_right]
    exact fun h => heq h.2.symm
  · rw [Ty.isNull, beq_iff_eq] at hright
    subst hright
    rw [or_comm (a := t.accepts left .null = true), accepts_null_iff herror.1 hvoid.1 heq,
      or_iff_right]
    exact fun h => heq h.1
  · rw [Ty.isNull, beq_iff_eq] at hleft hright
    rw [accepts_iff_isSubtype herror.1 herror.2 hvoid.1 hvoid.2 hright,
      accepts_iff_isSubtype herror.2 herror.1 hvoid.2 hvoid.1 hleft, Bool.or_eq_true, or_comm]
    exact (or_iff_right fun hnull => hleft hnull.1).symm

theorem comparable_comm (t : ClassTable) (left right : Ty) :
    t.comparable left right = t.comparable right left := by
  rw [Bool.eq_iff_iff, comparable_iff, comparable_iff, and_comm, or_comm (b := _ = true)]

end ClassTable

namespace Hierarchy.Linked

variable {h : Hierarchy} (linked : h.Linked) {target source : Ty}
include linked

theorem accepts_of_wider {wider : Ty} (htarget : target.isError = false)
    (haccepts : (ClassTable.ofHierarchy h).accepts target source = true)
    (hsub : (ClassTable.ofHierarchy h).isSubtype target wider = true) :
    (ClassTable.ofHierarchy h).accepts wider source = true := by
  rw [ClassTable.accepts_iff] at haccepts ⊢
  rcases haccepts with herror | herror | ⟨hsource, hvoid, hvalue⟩
  · rw [htarget] at herror
    cases herror
  · exact .inr (.inl herror)
  refine .inr (.inr ⟨hsource, ?_, ?_⟩)
  · rintro rfl
    exact hvoid (ClassTable.eq_of_isSubtype hsub (.inr rfl))
  rcases hvalue with ⟨hnull, href⟩ | ⟨hnull, hbelow⟩
  · refine .inl ⟨hnull, ?_⟩
    rcases ClassTable.isSubtype_cases hsub with rfl | ⟨-, hwider⟩
    · exact href
    · exact hwider
  · exact .inr ⟨hnull, linked.isSubtype_trans hbelow hsub⟩

theorem accepts_of_narrower {narrower : Ty} (hsource : source.isError = false)
    (haccepts : (ClassTable.ofHierarchy h).accepts target source = true)
    (hsub : (ClassTable.ofHierarchy h).isSubtype narrower source = true) :
    (ClassTable.ofHierarchy h).accepts target narrower = true := by
  by_cases heq : narrower = source
  · rw [heq]
    exact haccepts
  rw [ClassTable.accepts_iff] at haccepts ⊢
  rcases haccepts with herror | herror | ⟨-, hvoid, hvalue⟩
  · exact .inl herror
  · rw [hsource] at herror
    cases herror
  -- void and null have no other type above them
  have hproper : ∀ ty : Ty, ty.isReference = false → narrower ≠ ty := by
    rintro _ hty rfl
    exact heq (ClassTable.eq_of_isSubtype hsub (.inl hty))
  refine .inr (.inr ⟨hproper _ rfl, hvoid, .inr ⟨hproper _ rfl, ?_⟩⟩)
  rcases hvalue with ⟨rfl, -⟩ | ⟨-, hbelow⟩
  · exact absurd (ClassTable.eq_of_isSubtype hsub (.inr rfl)) heq
  · exact linked.isSubtype_trans hsub hbelow

end Hierarchy.Linked

/-- In every hierarchy, comparison is assignment in either direction, or null against null, and
assignment is closed under subtyping: the target may be wider and the source narrower, unless the
one that changes is an error. -/
theorem assignment_follows_subtyping (program : Option Program) (entry : EntryPoint) :
    let table := (analyze program entry).table
    (∀ left right, table.comparable left right = true ↔ left = .null ∧ right = .null ∨
      table.accepts left right = true ∨ table.accepts right left = true) ∧
    (∀ left right, table.comparable left right = table.comparable right left) ∧
    (∀ target source wider, target.isError = false → table.accepts target source = true →
      table.isSubtype target wider = true → table.accepts wider source = true) ∧
    (∀ target source narrower, source.isError = false → table.accepts target source = true →
      table.isSubtype narrower source = true → table.accepts target narrower = true) := by
  intro table
  have linked := Hierarchy.ofProgram_linked program
  rw [show table = _ from table_analyze program entry]
  exact ⟨fun _ _ => ClassTable.comparable_iff, ClassTable.comparable_comm _,
    fun _ _ _ => linked.accepts_of_wider, fun _ _ _ => linked.accepts_of_narrower⟩

end ClassCheck
