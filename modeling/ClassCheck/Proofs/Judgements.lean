import ClassCheck.Proofs.Steps
import ClassCheck.Typing.Rules
import Mathlib.Tactic.SplitIfs

/-! Which types the rules give. A set of types is admissible for a table if it holds the types that
classes, fields and methods have; a rule that is given such types gives one, unless it reports a
problem or the error type is in the set itself. -/

namespace ClassCheck

def ScopeStack.All {α : Type} (P : α → Prop) (t : ScopeStack α) : Prop :=
  ∀ scope ∈ t.scopes, ∀ b ∈ scope, P b.2

namespace ScopeStack

variable {α : Type} {P : α → Prop}

theorem mem_of_lookup {scope : Scope α} {name : String} {a : α}
    (h : scope.lookup name = some a) : (name, a) ∈ scope := by
  obtain ⟨before, after, rfl, -⟩ := List.lookup_eq_some_iff.mp h
  exact List.mem_append_cons_self

theorem All.find? {t : ScopeStack α} (ht : t.All P) {name : String} {a : α}
    (h : t.find? name = some a) : P a := by
  obtain ⟨scope, hscope, hlookup⟩ := List.exists_of_findSome?_eq_some h
  exact ht scope hscope (name, a) (mem_of_lookup hlookup)

theorem All.lookup {chain : List (ScopeStack α)} (hc : ∀ t ∈ chain, t.All P) {name : String}
    {a : α} (h : lookup chain name = some a) : P a := by
  obtain ⟨t, ht, hfind⟩ := List.exists_of_findSome?_eq_some h
  exact (hc t ht).find? hfind

theorem All.empty_enter : (ScopeStack.empty : ScopeStack α).enter.All P := by
  intro scope hscope b hb
  rw [enter, List.mem_cons] at hscope
  rcases hscope with rfl | hscope <;> cases ‹_›

theorem All.enter {t : ScopeStack α} (ht : t.All P) : t.enter.All P := by
  intro scope hscope b hb
  rw [ScopeStack.enter, List.mem_cons] at hscope
  rcases hscope with rfl | hscope
  · cases hb
  · exact ht scope hscope b hb

theorem All.exit {t : ScopeStack α} (ht : t.All P) : t.exit.All P :=
  fun scope hscope b hb => ht scope (List.mem_of_mem_tail hscope) b hb

theorem All.add {t : ScopeStack α} (ht : t.All P) (name : String) {a : α} (ha : P a) :
    (t.add name a).All P := by
  cases t with
  | mk scopes =>
    cases scopes with
    | nil =>
      intro scope hscope b hb
      rw [List.mem_singleton.mp hscope] at hb
      rw [List.mem_singleton.mp hb]
      exact ha
    | cons scope outer =>
      intro inner hinner b hb
      rcases List.mem_cons.mp hinner with rfl | hinner
      · rcases List.mem_cons.mp hb with rfl | hb
        · exact ha
        · exact ht scope List.mem_cons_self b hb
      · exact ht inner (List.mem_cons_of_mem _ hinner) b hb

end ScopeStack

theorem Ty.isKnown_int (names : List String) : Ty.int.isKnown names = true := rfl

theorem Ty.isKnown_boolean (names : List String) : Ty.boolean.isKnown names = true := rfl

theorem ClassTable.root_mem (t : ClassTable) : t.root ∈ t.classes := List.mem_cons_self

theorem ClassTable.knows_type {t : ClassTable} {c : ClassInfo} (hc : c ∈ t.classes) :
    t.knows c.type = true := by
  have hname : (t.classes.map (·.name)).contains c.name = true := by
    rw [List.contains_iff_mem]
    exact List.mem_map_of_mem hc
  change (Ty.isPrimitiveName c.name || (t.classes.map (·.name)).contains c.name) = true
  rw [hname, Bool.or_true]

theorem ClassTable.named?_mem {t : ClassTable} {ty : Ty} {c : ClassInfo}
    (h : t.named? ty = some c) : c ∈ t.classes := by
  rw [named?] at h
  split at h
  · exact List.mem_of_find?_eq_some h
  · cases h

theorem ClassTable.named?_name {t : ClassTable} {ty : Ty} {c : ClassInfo}
    (h : t.named? ty = some c) : c.name = ty.name := by
  rw [named?] at h
  split at h
  · simpa using List.find?_some h
  · cases h

theorem ClassTable.named?_isSome {t : ClassTable} {ty : Ty} (hclass : ty.isClass = true)
    (hknows : t.knows ty = true) : (t.named? ty).isSome = true := by
  have hprim : Ty.isPrimitiveName ty.name = false := by
    cases hp : Ty.isPrimitiveName ty.name with
    | false => rfl
    | true => simp [Ty.isClass, Ty.isSpecialName, hp] at hclass
  rw [named?, if_pos hclass, find?, List.find?_isSome]
  rw [knows, Ty.isKnown, hprim, Bool.false_or, List.contains_iff_mem] at hknows
  obtain ⟨c, hc, hname⟩ := List.mem_map.mp hknows
  exact ⟨c, hc, beq_iff_eq.mpr hname⟩

/-- A set of types that contains what expressions can have, with the error type or without. -/
structure Admissible (table : ClassTable) (T : Ty → Prop) : Prop where
  void : T .void
  null : T .null
  string : T (.plain BuiltIn.stringName)
  known : ∀ t, table.knows t = true → T t
  elem : ∀ t, T t → t.isArray = true → T t.elem
  erroneous : ∀ t, T t → t.isError = true → T .error
  named : ∀ t, T t → t.isClass = true → T .error ∨ (table.named? t).isSome = true

/-- Where typing takes place: a class of a table whose fields and methods have types of `T`. The
class is linked, unless the error type is in `T`. -/
structure Context.Serves (cx : Context) (T : Ty → Prop) : Prop extends
    Admissible cx.table T where
  self_mem : cx.self ∈ cx.table.classes
  linked : T .error ∨ cx.parent?.isSome = true
  vars : ∀ c ∈ cx.table.classes, ∀ t ∈ c.varChain, t.All fun s => T s.type
  methods : ∀ c ∈ cx.table.classes, ∀ t ∈ c.methodChain, t.All fun s => T s.returnType

/-- Where typing takes place, for a set of types that need not have all known ones: it has those of
the classes and of their fields and methods. -/
structure Context.Hosts (cx : Context) (T : Ty → Prop) : Prop where
  int : T .int
  boolean : T .boolean
  null : T .null
  string : T (.plain BuiltIn.stringName)
  elem : ∀ t, T t → t.isArray = true → T t.elem
  erroneous : ∀ t, T t → t.isError = true → T .error
  named : ∀ t, T t → t.isClass = true → T .error ∨ (cx.table.named? t).isSome = true
  self_mem : cx.self ∈ cx.table.classes
  linked : T .error ∨ cx.parent?.isSome = true
  classes : ∀ c ∈ cx.table.classes, T c.type
  vars : ∀ c ∈ cx.table.classes, ∀ t ∈ c.varChain, t.All fun s => T s.type
  methods : ∀ c ∈ cx.table.classes, ∀ t ∈ c.methodChain, t.All fun s => T s.returnType

/-- The outcome has the property `Q`, unless a problem is reported and errors are not admitted. -/
def Gives (T : Ty → Prop) {α : Type} (j : Judged α) (Q : α → Prop) : Prop :=
  T .error ∨ j.reports = [] → Q j.value

namespace Context

variable {cx : Context} {T : Ty → Prop}

theorem parent?_mem {p : ClassInfo} (h : cx.parent? = some p) : p ∈ cx.table.classes := by
  obtain ⟨n, -, hn⟩ := Option.bind_eq_some_iff.mp h
  exact List.mem_of_find?_eq_some hn

theorem refuse_gives (line : Int) (problem : TypingProblem) :
    Gives T (cx.refuse line problem) T := by
  intro h
  rcases h with h | h
  · exact h
  · simp [refuse, report] at h

theorem variableType_gives {vars : Vars} (hv : ∀ t ∈ vars, t.All fun s => T s.type) (line : Int)
    (name : String) : Gives T (cx.variableType vars line name) T := by
  rw [variableType]
  cases hs : ScopeStack.lookup vars name with
  | some s =>
    intro _
    exact ScopeStack.All.lookup hv hs
  | none => exact refuse_gives line _

theorem arrayType_gives {elemName : String}
    (hn : cx.table.knows (.plain elemName) = true → T (Ty.plain elemName).arrayOf) (line : Int)
    (size : Expr) (sizeType : Ty) : Gives T (cx.arrayType line elemName size sizeType) T := by
  intro h
  simp only [arrayType, Reported.value_bind, Reported.value_pure]
  split_ifs with hok
  · exact hn (Bool.and_eq_true_iff.mp hok).1
  · refine h.resolve_right fun hquiet => hok ?_
    simp only [arrayType, Reported.reports_bind, Reported.reports_pure, List.append_nil,
      List.append_eq_nil_iff] at hquiet
    obtain ⟨hknown, hsize⟩ := hquiet
    rw [require] at hknown hsize
    split_ifs at hknown with hk
    · split_ifs at hsize with hs
      · rw [hk, hs]
        rfl
      · simp [report] at hsize
    · simp [report] at hknown

theorem castType_gives {target : Ty} (ht : cx.table.knows target = true → T target) (line : Int)
    (operandType : Ty) :
    Gives T (cx.castType line target operandType) fun outcome => T outcome.type := by
  simp only [castType]
  split_ifs with hreference hknown
  · intro h
    exact refuse_gives line _ (h.imp_right fun hquiet => by simpa using hquiet)
  · intro h
    exact refuse_gives line _ (h.imp_right fun hquiet => by simpa using hquiet)
  · intro _
    exact ht (by simpa using hknown)
  · intro _
    exact ht (by simpa using hknown)
  · intro h
    exact refuse_gives line _ (h.imp_right fun hquiet => by simpa using hquiet)
  · intro h
    exact refuse_gives line _ (h.imp_right fun hquiet => by simpa using hquiet)
  · intro _
    exact ht (by simpa using hknown)

theorem Serves.hosts (serves : cx.Serves T) : cx.Hosts T where
  int := serves.known _ (Ty.isKnown_int _)
  boolean := serves.known _ (Ty.isKnown_boolean _)
  null := serves.null
  string := serves.string
  elem := serves.elem
  erroneous := serves.erroneous
  named := serves.named
  self_mem := serves.self_mem
  linked := serves.linked
  classes := fun _ hc => serves.known _ (ClassTable.knows_type hc)
  vars := serves.vars
  methods := serves.methods

namespace Hosts

variable (hosts : cx.Hosts T)
include hosts

theorem fieldType_gives {owner : ClassInfo} (ho : owner ∈ cx.table.classes) (line : Int)
    (name : String) : Gives T (cx.fieldType owner line name) T := by
  rw [fieldType]
  cases hs : owner.field? name with
  | some s =>
    intro _
    exact ScopeStack.All.lookup (hosts.vars owner ho) hs
  | none => exact refuse_gives line _

theorem nameType_gives {vars : Vars} (hv : ∀ t ∈ vars, t.All fun s => T s.type) (line : Int)
    (name : String) : Gives T (cx.nameType vars line name) T := by
  rw [nameType]
  split_ifs
  · intro _
    exact hosts.classes _ hosts.self_mem
  · intro _
    cases hp : cx.parent? with
    | some p => exact hosts.classes _ (parent?_mem hp)
    | none =>
      have hlinked := hosts.linked
      rw [hp] at hlinked
      exact hlinked.resolve_right (by simp)
  · intro _
    exact hosts.null
  · exact variableType_gives hv line name

theorem fieldOwner?_mem {receiver : Expr} {owner : ClassInfo}
    (h : cx.fieldOwner? receiver = some owner) : owner ∈ cx.table.classes := by
  unfold fieldOwner? at h
  split at h
  · split_ifs at h
    · cases h
      exact hosts.self_mem
    · exact parent?_mem h
  · cases h

theorem receiverField_gives (line : Int) (receiver : Expr) (name : String) :
    Gives T (cx.receiverField line receiver name) T := by
  rw [receiverField]
  cases ho : cx.fieldOwner? receiver with
  | some owner => exact hosts.fieldType_gives (hosts.fieldOwner?_mem ho) line name
  | none => exact refuse_gives line _

theorem memberType_gives {receiverType : Ty} (hr : T receiverType) (line : Int) (receiver : Expr)
    (name : String) : Gives T (cx.memberType line receiver receiverType name) T := by
  rw [memberType]
  split_ifs with herror
  · intro _
    exact hosts.erroneous _ hr herror
  · intro _
    exact hosts.int
  · exact refuse_gives line _
  · exact hosts.receiverField_gives line receiver name

theorem varType_gives {vars : Vars} (hv : ∀ t ∈ vars, t.All fun s => T s.type) {receiver : Expr}
    {receiverType : Ty} (hr : receiver.isAbsent = false → T receiverType) (line : Int)
    (name : String) : Gives T (cx.varType vars line receiver receiverType name) T := by
  rw [varType]
  split_ifs with habsent
  · exact hosts.nameType_gives hv line name
  · exact hosts.memberType_gives (hr (Bool.eq_false_iff.mpr habsent)) line receiver name

theorem indexedType_gives {vars : Vars} (hv : ∀ t ∈ vars, t.All fun s => T s.type)
    {receiver : Expr} {receiverType : Ty} (hr : receiver.isAbsent = false → T receiverType)
    (line : Int) (name : String) :
    Gives T (cx.indexedType vars line receiver receiverType name) T := by
  rw [indexedType]
  split_ifs with habsent herror
  · exact variableType_gives hv line name
  · intro _
    exact hosts.erroneous _ (hr (Bool.eq_false_iff.mpr habsent)) herror
  · exact hosts.receiverField_gives line receiver name

theorem elementType_gives {base : Ty} (hb : T base) (line : Int) (name : String) :
    Gives T (cx.elementType line name base) T := by
  rw [elementType]
  split_ifs with herror harray
  · intro _
    exact hosts.erroneous _ hb herror
  · intro _
    exact hosts.elem _ hb harray
  · exact refuse_gives line _

theorem receiverClass_gives {receiver : Expr} {receiverType : Ty}
    (hr : receiver.isAbsent = false → T receiverType) (line : Int) (method : String) :
    Gives T (cx.receiverClass line receiver receiverType method) fun owner =>
      (owner = none → T .error) ∧ ∀ c, owner = some c → c ∈ cx.table.classes := by
  rw [receiverClass]
  split_ifs with habsent herror harray hclass
  · intro _
    refine ⟨by simp, fun c hc => ?_⟩
    cases hc
    exact hosts.self_mem
  · intro _
    exact ⟨fun _ => hosts.erroneous _ (hr (Bool.eq_false_iff.mpr habsent)) herror, by simp⟩
  · intro _
    refine ⟨by simp, fun c hc => ?_⟩
    cases hc
    exact cx.table.root_mem
  · intro _
    refine ⟨fun hnone => ?_, fun c hc => ClassTable.named?_mem hc⟩
    have hnamed := hosts.named _ (hr (Bool.eq_false_iff.mpr habsent)) hclass
    rw [Reported.value_pure] at hnone
    rw [hnone] at hnamed
    exact hnamed.resolve_right (by simp)
  · intro h
    refine ⟨fun _ => h.resolve_right ?_, by simp⟩
    simp [report]

omit hosts in
theorem argument_fits {method : String} {position : Nat} {arg : Expr} {argType param : Ty}
    (h : (cx.argument method position arg argType param).reports = []) :
    (cx.argument method position arg argType param).value = true := by
  rw [argument] at h ⊢
  split_ifs at h ⊢ <;> simp_all [report]

omit hosts in
theorem arguments_fit {method : String} {position : Nat} {args : List (Expr × Ty)}
    {params : List Ty} (h : (cx.arguments method position args params).reports = []) :
    (cx.arguments method position args params).value = true := by
  induction args generalizing position params with
  | nil => rfl
  | cons a args ih =>
    cases params with
    | nil => rfl
    | cons param params =>
      simp only [arguments, Reported.reports_bind, Reported.value_bind, Reported.reports_pure,
        Reported.value_pure, List.append_nil, List.append_eq_nil_iff] at h ⊢
      rw [argument_fits h.1, ih h.2, Bool.and_true]

theorem callType_gives {owner : Option ClassInfo} (hnone : owner = none → T .error)
    (hmem : ∀ c, owner = some c → c ∈ cx.table.classes) (line : Int) (method : String)
    (args : List (Expr × Ty)) : Gives T (cx.callType line owner method args) T := by
  cases owner with
  | none =>
    intro _
    exact hnone rfl
  | some c =>
    simp only [callType]
    cases hsig : c.method? method with
    | none => exact refuse_gives line _
    | some sig =>
      simp only
      split_ifs
      · exact refuse_gives line _
      · intro h
        simp only [Reported.value_bind, Reported.value_pure]
        split_ifs with hfits
        · exact ScopeStack.All.lookup (hosts.methods c (hmem c rfl)) hsig
        · refine h.resolve_right fun hquiet => hfits (arguments_fit ?_)
          simpa using hquiet

theorem objectType_gives (line : Int) (className : String) :
    Gives T (cx.objectType line className) T := by
  rw [objectType]
  split_ifs with hsome
  · intro _
    obtain ⟨c, hc⟩ := Option.isSome_iff_exists.mp hsome
    have hname : c.name = className := ClassTable.named?_name hc
    have htype := hosts.classes c (ClassTable.named?_mem hc)
    rw [Registered.type, hname] at htype
    exact htype
  · exact refuse_gives line _

theorem instanceOfType_gives (line : Int) (target : Ty) (operand : Expr) (operandType : Ty) :
    Gives T (cx.instanceOfType line target operand operandType) T := by
  intro _
  exact hosts.boolean

theorem targetType_gives {vars : Vars} (hv : ∀ t ∈ vars, t.All fun s => T s.type) (line : Int)
    (qualifier name : String) : Gives T (cx.targetType vars line qualifier name) T := by
  rw [targetType]
  split_ifs
  · exact variableType_gives hv line name
  · exact hosts.fieldType_gives hosts.self_mem line name
  · cases hp : cx.parent? with
    | some owner => exact hosts.fieldType_gives (parent?_mem hp) line name
    | none =>
      intro _
      have hlinked := hosts.linked
      rw [hp] at hlinked
      exact hlinked.resolve_right (by simp)
  · exact refuse_gives line _

theorem targetElement_gives {target : Ty} (ht : T target) (line : Int) (name : String) :
    Gives T (cx.targetElement line name target) T := by
  rw [targetElement]
  split_ifs with harray
  · intro _
    exact hosts.elem _ ht harray
  · intro h
    rcases h with h | h
    · exact h
    · rw [require] at h
      split_ifs at h with herror
      · exact hosts.erroneous _ ht herror
      · simp [report] at h

theorem binaryType_gives (line : Int) (op : BinaryOp) (left right : Ty) :
    Gives T (cx.binaryType line op left right) T := by
  rw [binaryType]
  cases op.family with
  | arithmetic =>
    simp only
    split_ifs
    · intro _
      exact hosts.int
    · exact refuse_gives line _
  | relational =>
    intro _
    exact hosts.boolean
  | equality =>
    intro _
    exact hosts.boolean
  | logical =>
    intro _
    exact hosts.boolean
  | none => exact refuse_gives line _

theorem unaryType_gives (line : Int) (op : UnaryOp) (storage : Bool) (operand : Ty) :
    Gives T (cx.unaryType line op storage operand) T := by
  cases op with
  | neg =>
    simp only [unaryType]
    split_ifs
    · intro _
      exact hosts.int
    · exact refuse_gives line _
  | not =>
    simp only [unaryType]
    split_ifs
    · intro _
      exact hosts.boolean
    · exact refuse_gives line _
  | incr | decr =>
    simp only [unaryType]
    split_ifs
    · exact refuse_gives line _
    · intro _
      exact hosts.int
    · exact refuse_gives line _
  | unknown => exact refuse_gives line _

end Hosts

end Context

end ClassCheck
