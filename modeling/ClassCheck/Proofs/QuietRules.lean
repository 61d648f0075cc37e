import ClassCheck.Proofs.FaithfulTable
import ClassCheck.Proofs.Judgements

/-!
# Rules that report nothing

One equivalence for each rule of typing: on types that expressions have, the rule gives `t` without
a report exactly if the specification says so.
-/

namespace ClassCheck

namespace Context

@[simp] theorem report_eq_pure_iff {cx : Context} {line : Int} {problem : TypingProblem}
    {u : Unit} :
    cx.report line problem = pure u ↔ False :=
  iff_false_intro fun h => List.cons_ne_nil _ _ (congrArg Reported.reports h)

@[simp] theorem refuse_eq_pure_iff {cx : Context} {line : Int} {problem : TypingProblem} {t : Ty} :
    cx.refuse line problem = pure t ↔ False := by
  simp [refuse]

@[simp] theorem require_eq_pure_iff {cx : Context} {ok : Bool} {line : Int}
    {problem : TypingProblem} {u : Unit} : cx.require ok line problem = pure u ↔ ok = true := by
  cases ok <;> simp [require]

end Context

namespace Program

variable {p : Program} {self : String}

theorem SelfClass.word {word c : String} (h : p.SelfClass self word c) :
    word = "this" ∨ word = "super" := by
  cases h with
  | this => exact .inl rfl
  | super => exact .inr rfl

theorem selfClass_cases {word c : String} :
    p.SelfClass self word c ↔
      (word = "this" ∧ c = self) ∨ (word = "super" ∧ p.Extends self c) := by
  constructor
  · intro h
    cases h with
    | this => exact .inl ⟨rfl, rfl⟩
    | super hsup => exact .inr ⟨rfl, hsup⟩
  · intro h
    rcases h with ⟨rfl, rfl⟩ | ⟨rfl, hsup⟩
    · exact .this
    · exact .super hsup

theorem selfClass_this_iff {c : String} : p.SelfClass self "this" c ↔ c = self := by
  simp [selfClass_cases]

theorem selfClass_super_iff {c : String} : p.SelfClass self "super" c ↔ p.Extends self c := by
  simp [selfClass_cases]

theorem callableAs_iff {t : Ty} {c : String} :
    p.CallableAs t c ↔
      (t.isArray = true ∧ c = BuiltIn.rootName) ∨
      (t.isArray = false ∧ t.name = c ∧ c ∈ p.classNames) := by
  constructor
  · intro h
    cases h with
    | object hc => exact .inr ⟨rfl, rfl, hc⟩
    | array => exact .inl ⟨rfl, rfl⟩
  · intro h
    obtain ⟨name, isArray⟩ := t
    rcases h with ⟨harray, rfl⟩ | ⟨hplain, rfl, hc⟩
    · cases harray
      exact .array name
    · cases hplain
      exact .object hc

end Program

/-- The scopes find what is visible among the locals `Γ` and the fields of `self`. -/
def Shows (vars : Vars) (p : Program) (self : String) (Γ : List (String × Ty)) : Prop :=
  ∀ x, Dotless x → ∀ t,
    (∃ s, ScopeStack.lookup vars x = some s ∧ s.type = t) ↔ p.Visible self Γ x t

structure Context.Faithful (cx : Context) (p : Program) : Prop extends cx.table.Faithful p where
  self_mem : cx.self ∈ cx.table.classes
  linked : ∃ q, cx.parent? = some q

namespace Context.Faithful

variable {cx : Context} {p : Program} (faithful : cx.Faithful p)
include faithful

theorem parent?_mem {q : ClassInfo} (hq : cx.parent? = some q) : q ∈ cx.table.classes := by
  obtain ⟨n, -, hn⟩ := Option.bind_eq_some_iff.mp hq
  exact ((faithful.find?_iff _ _).mp hn).1

theorem extends_iff {q : ClassInfo} (hq : cx.parent? = some q) {c : String} :
    p.Extends cx.self.name c ↔ c = q.name := by
  have hparent : cx.table.parent? cx.self = some q := hq
  rw [← faithful.parent_iff _ faithful.self_mem]
  simp [hparent, eq_comm]

/-! ### Names -/

theorem selfClass_iff (site : Site) {word c : String} :
    p.SelfClass cx.self.name word c ↔
      ∃ owner, cx.fieldOwner? (.var site .absent word) = some owner ∧ owner.name = c := by
  constructor
  · intro h
    cases h with
    | this => exact ⟨cx.self, rfl, rfl⟩
    | super hsup =>
      obtain ⟨q, hq, hname⟩ := (faithful.parent_iff _ faithful.self_mem c).mpr hsup
      exact ⟨q, hq, hname⟩
  · intro h
    obtain ⟨owner, howner, rfl⟩ := h
    rw [fieldOwner?] at howner
    split at howner
    · rename_i hword
      cases howner
      rw [hword]
      exact .this
    · split at howner
      · rename_i hword
        rw [hword]
        exact .super ((faithful.parent_iff _ faithful.self_mem _).mp ⟨owner, howner, rfl⟩)
      · cases howner

theorem fieldOwner?_mem {receiver : Expr} {owner : ClassInfo}
    (h : cx.fieldOwner? receiver = some owner) :
    owner ∈ cx.table.classes ∧ ∃ site word, receiver = .var site .absent word := by
  unfold fieldOwner? at h
  split at h
  · refine ⟨?_, _, _, rfl⟩
    split at h
    · cases h
      exact faithful.self_mem
    · split at h
      · exact faithful.parent?_mem h
      · cases h
  · cases h

theorem fieldType_iff {owner : ClassInfo} (howner : owner ∈ cx.table.classes) {line : Int}
    {name : String} {t : Ty} :
    cx.fieldType owner line name = pure t ↔ p.Sees ClassDecl.HasField owner.name name t := by
  rw [← faithful.field_iff owner howner, fieldType]
  cases owner.field? name with
  | none => simp
  | some s => simp [eq_comm]

omit faithful in
theorem variableType_iff {vars : Vars} {Γ : List (String × Ty)}
    (shows : Shows vars p cx.self.name Γ) {line : Int} {name : String} (hname : Dotless name)
    {t : Ty} :
    cx.variableType vars line name = pure t ↔ p.Visible cx.self.name Γ name t := by
  rw [← shows name hname, variableType]
  cases ScopeStack.lookup vars name with
  | none => simp
  | some s => simp [eq_comm]

theorem nameType_iff {vars : Vars} {Γ : List (String × Ty)} (shows : Shows vars p cx.self.name Γ)
    {line : Int} {name : String} (hname : Dotless name) {t : Ty} :
    cx.nameType vars line name = pure t ↔
      (∃ c, p.SelfClass cx.self.name name c ∧ t = .plain c) ∨ (name = "null" ∧ t = .null) ∨
        (name ∉ ["this", "super", "null"] ∧ p.Visible cx.self.name Γ name t) := by
  rw [nameType]
  by_cases hthis : name = "this"
  · subst hthis
    simp [Program.selfClass_this_iff, Registered.type]
  rw [if_neg hthis]
  by_cases hsuper : name = "super"
  · subst hsuper
    obtain ⟨q, hq⟩ := faithful.linked
    simp [Program.selfClass_super_iff, faithful.extends_iff hq, hq, Registered.type]
  rw [if_neg hsuper]
  have hself : ∀ c, ¬ p.SelfClass cx.self.name name c := by
    intro c h
    exact h.word.elim hthis hsuper
  by_cases hnull : name = "null"
  · subst hnull
    simp [hself]
  · rw [if_neg hnull, variableType_iff shows hname]
    simp [hself, hthis, hsuper, hnull]

theorem receiverField_iff {line : Int} {receiver : Expr} {name : String} {t : Ty} :
    cx.receiverField line receiver name = pure t ↔
      ∃ site word c, receiver = .var site .absent word ∧ p.SelfClass cx.self.name word c ∧
        p.Sees ClassDecl.HasField c name t := by
  rw [receiverField]
  constructor
  · intro h
    split at h
    · rename_i owner howner
      obtain ⟨hmem, site, word, rfl⟩ := faithful.fieldOwner?_mem howner
      exact ⟨site, word, owner.name, rfl, (faithful.selfClass_iff site).mpr ⟨owner, howner, rfl⟩,
        (faithful.fieldType_iff hmem).mp h⟩
    · simp at h
  · intro h
    obtain ⟨site, word, c, rfl, hself, hsees⟩ := h
    obtain ⟨owner, howner, rfl⟩ := (faithful.selfClass_iff site).mp hself
    rw [howner]
    exact (faithful.fieldType_iff (faithful.fieldOwner?_mem howner).1).mpr hsees

theorem memberType_iff {line : Int} {receiver : Expr} {receiverType : Ty}
    (hvalid : p.Valid receiverType) {name : String} {t : Ty} :
    cx.memberType line receiver receiverType name = pure t ↔
      (receiverType.isArray = true ∧ name = "length" ∧ t = .int) ∨
      (receiverType.isArray = false ∧ cx.receiverField line receiver name = pure t) := by
  rw [memberType, faithful.valid_not_error hvalid]
  cases receiverType.isArray with
  | true => by_cases hname : name = "length" <;> simp [hname]
  | false => simp

/-! ### Elements of arrays -/

theorem fitsInt_iff {t : Ty} (hvalid : p.Valid t) : t.fitsInt = true ↔ t = .int := by
  simp [Ty.fitsInt, faithful.valid_not_error hvalid]

theorem fitsBoolean_iff {t : Ty} (hvalid : p.Valid t) : t.fitsBoolean = true ↔ t = .boolean := by
  simp [Ty.fitsBoolean, faithful.valid_not_error hvalid]

theorem indexed_iff {index : Expr} {indexType : Ty} (hvalid : p.Valid indexType) {u : Unit} :
    cx.indexed index indexType = pure u ↔ indexType = .int := by
  rw [indexed, require_eq_pure_iff, faithful.fitsInt_iff hvalid]

theorem elementType_iff {line : Int} {name : String} {base : Ty} (hknown : p.Known base) {t : Ty} :
    cx.elementType line name base = pure t ↔ base.isArray = true ∧ t = base.elem := by
  rw [elementType, (faithful.known_not_special hknown).2.2]
  cases base.isArray <;> simp

/-! ### Method calls -/

theorem receiverClass_iff {line : Int} {receiver : Expr} (hreceiver : receiver ≠ .absent)
    {receiverType : Ty} (hvalid : p.Valid receiverType) {method : String}
    {owner : Option ClassInfo} :
    cx.receiverClass line receiver receiverType method = pure owner ↔
      ∃ o ∈ cx.table.classes, owner = some o ∧ p.CallableAs receiverType o.name := by
  rw [receiverClass, Expr.isAbsent_eq_false hreceiver, faithful.valid_not_error hvalid]
  simp only [Program.callableAs_iff]
  cases harray : receiverType.isArray with
  | true =>
    have hroot : ∀ o ∈ cx.table.classes, o.name = BuiltIn.rootName ↔ o = cx.table.root := by
      intro o ho
      rw [← faithful.root_name]
      exact ⟨faithful.eq_of_name ho List.mem_cons_self, fun h => h ▸ rfl⟩
    constructor
    · intro h
      refine ⟨cx.table.root, List.mem_cons_self, by simpa using h, .inl ⟨rfl, faithful.root_name⟩⟩
    · intro h
      obtain ⟨o, ho, rfl, h⟩ := h
      rcases h with ⟨-, hname⟩ | ⟨hplain, -⟩
      · rw [(hroot o ho).mp hname]
        rfl
      · cases hplain
  | false =>
    cases hclass : receiverType.isClass with
    | true =>
      constructor
      · intro h
        have hnamed : owner = cx.table.find? receiverType.name := by
          simpa [ClassTable.named?, hclass] using h
        obtain ⟨o, ho, hname⟩ := (faithful.mem_classNames _).mp (hvalid.isClass_mem hclass)
        rw [(faithful.find?_iff _ _).mpr ⟨ho, hname⟩] at hnamed
        exact ⟨o, ho, hnamed, .inr ⟨rfl, hname.symm, (faithful.mem_classNames _).mpr ⟨o, ho, rfl⟩⟩⟩
      · intro h
        obtain ⟨o, ho, rfl, h⟩ := h
        rcases h with ⟨harr, -⟩ | ⟨-, hname, -⟩
        · cases harr
        · have hfind := (faithful.find?_iff _ _).mpr ⟨ho, hname.symm⟩
          simp [ClassTable.named?, hclass, hfind]
    | false =>
      -- primitive values, `null` and nothing at all have no methods
      refine iff_of_false (by simp) ?_
      intro h
      obtain ⟨o, ho, -, h⟩ := h
      rcases h with ⟨harr, -⟩ | ⟨-, hname, hmem⟩
      · cases harr
      · have hplain := faithful.isClass_plain hmem
        rw [← hname] at hplain
        have hty : receiverType = .plain receiverType.name := Ty.ext rfl harray
        rw [hty, hplain] at hclass
        cases hclass

theorem callable_mem {t : Ty} {c : String} (h : p.CallableAs t c) : c ∈ p.classNames := by
  cases h with
  | object hc => exact hc
  | array => exact faithful.root_mem

theorem argument_iff {method : String} {position : Nat} {arg : Expr} {argType param : Ty}
    (hvalid : p.Valid argType) (hknown : p.Known param) {fits : Bool} :
    cx.argument method position arg argType param = pure fits ↔
      argType = param ∧ fits = true := by
  have hvoid := (faithful.known_not_special hknown).1
  rw [argument, faithful.valid_not_error hvalid, faithful.knows_iff.mpr hknown]
  by_cases hv : argType = .void
  · subst hv
    simp [Ty.isVoid, hvoid.symm]
  · rw [if_neg (mt Ty.isVoid_iff.mp hv)]
    by_cases heq : argType = param <;> simp [heq]

theorem arguments_iff {method : String} {position : Nat} {args : List Expr} {types params : List Ty}
    (hargs : args.length = types.length) (hparams : types.length = params.length)
    (hvalid : ∀ t ∈ types, p.Valid t) (hknown : ∀ t ∈ params, p.Known t) {fits : Bool} :
    cx.arguments method position (args.zip types) params = pure fits ↔
      types = params ∧ fits = true := by
  induction types generalizing args params position fits with
  | nil =>
    cases params with
    | nil => simp [arguments]
    | cons param params => cases hparams
  | cons t types ih =>
    cases args with
    | nil => cases hargs
    | cons arg args =>
      cases params with
      | nil => cases hparams
      | cons param params =>
        have hfirst : ∀ b, cx.argument method position arg t param = pure b ↔
            t = param ∧ b = true :=
          fun b => faithful.argument_iff (hvalid t List.mem_cons_self)
            (hknown param List.mem_cons_self)
        have hrest : ∀ b, cx.arguments method (position + 1) (args.zip types) params = pure b ↔
            types = params ∧ b = true :=
          fun b => ih (Nat.succ.inj hargs) (Nat.succ.inj hparams)
            (fun t ht => hvalid t (List.mem_cons_of_mem _ ht))
            (fun t ht => hknown t (List.mem_cons_of_mem _ ht))
        simp [arguments, hfirst, hrest, and_assoc]

theorem callType_iff {line : Int} {owner : ClassInfo} (howner : owner ∈ cx.table.classes)
    {method : String} {args : List Expr} {types : List Ty} (hargs : args.length = types.length)
    (hvalid : ∀ t ∈ types, p.Valid t) {t : Ty} :
    cx.callType line (some owner) method (args.zip types) = pure t ↔
      p.Sees ClassDecl.HasMethod owner.name method ⟨types, t⟩ := by
  rw [← faithful.method_iff owner howner, callType]
  cases hmethod : owner.method? method with
  | none => simp
  | some sig =>
    have hknown := faithful.params_known _ _ _
      ((faithful.method_iff owner howner method sig.type).mp ⟨sig, hmethod, rfl⟩)
    have hzip : (args.zip types).length = types.length := by
      rw [List.length_zip, hargs, Nat.min_self]
    simp only [Option.some.injEq, exists_eq_left', Signature.type, MethodType.mk.injEq, hzip]
    by_cases hlength : types.length = sig.params.length
    · rw [if_neg (not_not_intro hlength), Reported.bind_eq_pure_iff]
      simp only [faithful.arguments_iff hargs hlength hvalid hknown, Reported.pure_eq_pure_iff]
      constructor
      · intro h
        obtain ⟨fits, ⟨hparams, rfl⟩, rfl⟩ := h
        exact ⟨hparams.symm, rfl⟩
      · intro h
        exact ⟨true, ⟨h.1.symm, rfl⟩, h.2.symm⟩
    · rw [if_pos hlength]
      refine iff_of_false (by simp) ?_
      intro h
      exact hlength (congrArg List.length h.1).symm

/-! ### Objects, arrays and casts -/

theorem objectType_iff {line : Int} {className : String} {t : Ty} :
    cx.objectType line className = pure t ↔ className ∈ p.classNames ∧ t = .plain className := by
  have hnamed : (cx.table.named? (.plain className)).isSome = true ↔ className ∈ p.classNames := by
    rw [ClassTable.named?]
    constructor
    · intro h
      split at h
      · obtain ⟨o, ho⟩ := Option.isSome_iff_exists.mp h
        exact (faithful.mem_classNames _).mpr ⟨o, (faithful.find?_iff _ _).mp ho⟩
      · cases h
    · intro h
      obtain ⟨o, ho⟩ := (faithful.mem_classNames _).mp h
      rw [if_pos (faithful.isClass_plain h)]
      exact Option.isSome_iff_exists.mpr ⟨o, (faithful.find?_iff _ _).mpr ho⟩
  rw [← hnamed, objectType]
  cases (cx.table.named? (.plain className)).isSome <;> simp

theorem arrayType_iff {line : Int} {elemName : String} {size : Expr} {sizeType : Ty}
    (hvalid : p.Valid sizeType) {t : Ty} :
    cx.arrayType line elemName size sizeType = pure t ↔
      p.Known (.plain elemName) ∧ sizeType = .int ∧ t = ⟨elemName, true⟩ := by
  rw [← faithful.knows_iff, ← faithful.fitsInt_iff hvalid, arrayType]
  cases cx.table.knows (.plain elemName) <;> cases sizeType.fitsInt <;>
    simp [Ty.arrayOf, Ty.plain]

theorem instanceOfType_iff {line : Int} {target : Ty} {operand : Expr} {operandType t : Ty} :
    cx.instanceOfType line target operand operandType = pure t ↔
      p.Reference target ∧ operandType ∉ [.void, .int, .boolean] ∧ t = .boolean := by
  have hasked : ∀ u, cx.askedFor line target = pure u ↔ p.Reference target := by
    intro u
    rw [faithful.reference_iff, askedFor]
    cases target.isReference <;> simp
  have hoperand : (!(operandType.isVoid || operandType.isPrimitive)) = true ↔
      operandType ∉ [.void, .int, .boolean] := by
    rw [Bool.not_eq_true', Bool.or_eq_false_iff, ← Bool.not_eq_true, ← Bool.not_eq_true,
      Ty.isVoid_iff, Ty.isPrimitive_iff]
    simp
  simp only [instanceOfType, Reported.bind_eq_pure_iff, hasked, require_eq_pure_iff, hoperand,
    Reported.pure_eq_pure_iff]
  simp

theorem castType_iff {line : Int} {target operandType : Ty} (hvalid : p.Valid operandType)
    {t : Ty} :
    (∃ outcome, cx.castType line target operandType = pure outcome ∧ outcome.type = t) ↔
      p.Reference target ∧
        (operandType = .null ∨ (p.Reference operandType ∧ p.Related operandType target)) ∧
        t = target := by
  rw [castType, faithful.valid_not_error hvalid]
  by_cases htarget : p.Reference target
  swap
  · refine iff_of_false ?_ fun h => htarget h.1
    rw [faithful.reference_iff] at htarget
    cases hform : target.isReference <;> cases hknows : cx.table.knows target <;> simp_all
  obtain ⟨hform, hknows⟩ := faithful.reference_iff.mp htarget
  have hcomm : target = t ↔ t = target := eq_comm
  rw [hform, hknows]
  by_cases hnull : operandType = .null
  · subst hnull
    simp [Ty.isNull, htarget, hcomm]
  have hnull' : operandType.isNull = false := Bool.eq_false_iff.mpr (mt Ty.isNull_iff.mp hnull)
  rw [← faithful.valid_isReference_iff hvalid, Program.Related, ← faithful.isSubtype_iff hvalid,
    ← faithful.isSubtype_iff (.inl htarget.1), hnull']
  cases operandType.isReference with
  | false => simp [hnull]
  | true =>
    cases cx.table.isSubtype operandType target <;> cases cx.table.isSubtype target operandType <;>
      simp [htarget, hnull, hcomm]

/-! ### Assignments -/

theorem targetType_iff {vars : Vars} {Γ : List (String × Ty)} (shows : Shows vars p cx.self.name Γ)
    {line : Int} {qualifier name : String} (hname : Dotless name) {t : Ty} :
    cx.targetType vars line qualifier name = pure t ↔
      p.Target cx.self.name Γ qualifier name t := by
  rw [targetType, Program.Target]
  by_cases hempty : qualifier = ""
  · subst hempty
    rw [if_pos rfl, variableType_iff shows hname]
    simp [Program.selfClass_cases]
  rw [if_neg hempty]
  by_cases hthis : qualifier = "this"
  · subst hthis
    rw [if_pos rfl, faithful.fieldType_iff faithful.self_mem]
    simp [Program.selfClass_this_iff]
  rw [if_neg hthis]
  by_cases hsuper : qualifier = "super"
  · subst hsuper
    obtain ⟨q, hq⟩ := faithful.linked
    rw [if_pos rfl, hq]
    simp [faithful.fieldType_iff (faithful.parent?_mem hq), Program.selfClass_super_iff,
      faithful.extends_iff hq]
  · rw [if_neg hsuper]
    simp [Program.selfClass_cases, hempty, hthis, hsuper]

theorem targetElement_iff {line : Int} {name : String} {target : Ty} (hknown : p.Known target)
    {t : Ty} :
    cx.targetElement line name target = pure t ↔ target.isArray = true ∧ t = target.elem := by
  rw [targetElement, (faithful.known_not_special hknown).2.2]
  cases target.isArray <;> simp

theorem fits_iff {target source : Ty} (hknown : p.Known target) (hvalid : p.Valid source)
    {line : Int} {isVoid unfit : TypingProblem} {u : Unit} :
    (if source.isVoid then cx.report line isVoid
      else cx.require (cx.table.accepts target source) line unfit) = pure u ↔
      p.Assignable target source := by
  by_cases hvoid : source = .void
  · subst hvoid
    refine iff_of_false (by simp [Ty.isVoid]) ?_
    intro h
    rcases h with ⟨hnull, -⟩ | ⟨hvoid, -⟩
    · exact absurd hnull (by decide)
    · exact hvoid rfl
  · rw [if_neg (mt Ty.isVoid_iff.mp hvoid), require_eq_pure_iff, faithful.accepts_iff hknown hvalid]

theorem assigned_iff {target : Ty} (hknown : p.Known target) {value : Expr} {valueType : Ty}
    (hvalid : p.Valid valueType) {name : String} {u : Unit} :
    cx.assigned target value valueType name = pure u ↔ p.Assignable target valueType :=
  faithful.fits_iff hknown hvalid

/-! ### Operators -/

theorem binaryType_iff {line : Int} {op : BinaryOp} {left right t : Ty} (hl : p.Valid left)
    (hr : p.Valid right) :
    cx.binaryType line op left right = pure t ↔
      (op.family = .arithmetic ∧ left = .int ∧ right = .int ∧ t = .int) ∨
      (op.family = .relational ∧ left = .int ∧ right = .int ∧ t = .boolean) ∨
      (op.family = .equality ∧ p.Comparable left right ∧ t = .boolean) ∨
      (op.family = .logical ∧ left = .boolean ∧ right = .boolean ∧ t = .boolean) := by
  rw [binaryType, ← faithful.comparable_iff hl hr, ← faithful.fitsInt_iff hl,
    ← faithful.fitsInt_iff hr, ← faithful.fitsBoolean_iff hl, ← faithful.fitsBoolean_iff hr]
  cases op.family with
  | arithmetic => cases left.fitsInt <;> cases right.fitsInt <;> simp
  | relational => simp [and_assoc]
  | equality => simp
  | logical => simp [and_assoc]
  | none => simp

theorem unaryType_iff {line : Int} {op : UnaryOp} {storage : Bool} {operand t : Ty}
    (hvalid : p.Valid operand) :
    cx.unaryType line op storage operand = pure t ↔
      (op = .neg ∧ operand = .int ∧ t = .int) ∨
      (op = .not ∧ operand = .boolean ∧ t = .boolean) ∨
      ((op = .incr ∨ op = .decr) ∧ storage = true ∧ operand = .int ∧ t = .int) := by
  rw [unaryType.eq_def, ← faithful.fitsInt_iff hvalid, ← faithful.fitsBoolean_iff hvalid]
  cases op with
  | neg => cases operand.fitsInt <;> simp
  | not => cases operand.fitsBoolean <;> simp
  | incr => cases storage <;> cases operand.fitsInt <;> simp
  | decr => cases storage <;> cases operand.fitsInt <;> simp
  | unknown => simp

end Context.Faithful

end ClassCheck
