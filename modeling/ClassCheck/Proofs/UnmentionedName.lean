import ClassCheck.Proofs.LeafClass
import ClassCheck.Proofs.RecordedTypes
import ClassCheck.Proofs.WellFormed

/-!
# Names that nothing mentions

Typing looks up the names that are written in a member, and the names of the types it comes across.
Where a name is not written, and no class, field or method brings in a type of that name, it makes
no difference to typing whether there is a class of that name: no type of that name is ever noted,
so none is ever looked up.
-/

namespace ClassCheck

/-- The names of classes and types that are written at a node. -/
def Node.mentions : Node → List String
  | .classDecl c => [c.parentName]
  | .field f => [f.type.name]
  | .method m => [m.returnType.name]
  | .formal f => [f.type.name]
  | .stmt (.decl _ _ type _) => [type.name]
  | .expr (.newObject _ className) => [className]
  | .expr (.newArray _ elemName _) => [elemName]
  | .expr (.instanceOf _ _ target) => [target.name]
  | .expr (.cast _ target _) => [target.name]
  | _ => []

def Node.Omits (x : String) (n : Node) : Prop := ∀ name ∈ n.mentions, name ≠ x

def Ty.Avoids (x : String) (t : Ty) : Prop := t.isReference = true → t.name ≠ x

theorem Ty.Apart.avoids {x : String} {t : Ty} (apart : t.Apart x) : t.Avoids x := by
  rcases apart with h | rfl | rfl
  · exact fun _ => h
  · intro h
    cases h
  · intro h
    cases h

theorem Ty.avoids_error (x : String) : Ty.error.Avoids x := fun h => by cases h

theorem Ty.avoids_void (x : String) : Ty.void.Avoids x := fun h => by cases h

/-- Two contexts that show the same faces but for a class named `x`, which is not the type of
anything that is in sight of either. -/
structure Context.Ignores (x : String) (cx dx : Context) : Prop where
  alike : cx.Alike (· ≠ x) dx
  hosts : cx.Hosts (Ty.Avoids x)
  params : ∀ c ∈ cx.table.classes, ∀ t ∈ c.methodChain, t.All fun s => ∀ p ∈ s.params, p.Apart x

namespace Context.Hosts

variable {x : String} {cx : Context} (hosts : cx.Hosts (Ty.Avoids x)) {vars : Vars}
  (hvars : ∀ t ∈ vars, t.All fun s => s.type.Avoids x) {found : List (Judged Ty)}
  (hfound : ∀ j ∈ found, j.value.Avoids x)

omit hosts in
include hfound in
theorem finding_avoids (i : Nat) : (finding found i).value.Avoids x := by
  rw [finding, List.getD_eq_getElem?_getD]
  cases hi : found[i]? with
  | none => exact Ty.avoids_error x
  | some j => exact hfound j (List.mem_of_getElem? hi)

include hosts hvars hfound

theorem judgement_avoids {e : Expr} (he : e ≠ .absent) (omits : (Node.expr e).Omits x)
    (storage : Bool) : (cx.judgement vars storage e found).value.type.Avoids x := by
  have hwritten : ∀ t ∈ e.written, t.Avoids x := by
    intro t ht _
    cases e with
    | newArray | cast =>
      obtain rfl := List.mem_singleton.mp ht
      exact omits _ List.mem_cons_self
    | _ => cases ht
  exact hosts.judgement_gives hvars he (fun t ht _ => hwritten t ht)
    (fun i _ _ _ => finding_avoids hfound i) storage (.inl (Ty.avoids_error x))

end Context.Hosts

namespace Context.Ignores

variable {x : String} {cx dx : Context} (ignores : cx.Ignores x dx) {vars : Vars}
  (hvars : ∀ t ∈ vars, t.All fun s => s.type.Avoids x)
include ignores

theorem dispatch_judgement {found : List (Judged Ty)} (hfound : ∀ j ∈ found, j.value.Avoids x)
    (storage : Bool) (site : Site) (receiver : Expr) (method : String) (args : List Expr) :
    cx.judgement vars storage (.dispatch site receiver method args) found =
      dx.judgement vars storage (.dispatch site receiver method args) found := by
  have hreceiver := Hosts.finding_avoids hfound 0
  obtain ⟨howner, hreports⟩ := ignores.alike.receiverClass site.line receiver
    (finding found 0).value method fun hclass => hreceiver (by simp [Ty.isReference, hclass])
  obtain ⟨-, hmem⟩ := ignores.hosts.receiverClass_gives
    (fun _ : receiver.isAbsent = false => hreceiver) site.line method (.inl (Ty.avoids_error x))
  have hcall := ignores.alike.callType howner method
    (fun c s hc hs t ht => (ScopeStack.All.lookup (ignores.params c (hmem c hc)) hs t ht).name_ne)
    site.line (args.zip (Reported.forEach found.tail id).value)
  apply Reported.ext
  · simp only [Context.judgement, Reported.value_bind, hcall]
  · simp only [Context.judgement, Reported.reports_bind, hreports, hcall]

include hvars

theorem judgement {found : List (Judged Ty)} (hfound : ∀ j ∈ found, j.value.Avoids x) {e : Expr}
    (omits : (Node.expr e).Omits x) (storage : Bool) :
    cx.judgement vars storage e found = dx.judgement vars storage e found := by
  have alike := ignores.alike
  have hfinding := Hosts.finding_avoids hfound
  have herror := Ty.avoids_error x
  cases e with
  | dispatch site receiver method args =>
    exact ignores.dispatch_judgement hfound storage site receiver method args
  | newObject site className =>
    have hname : className ≠ x := omits className List.mem_cons_self
    simp only [Context.judgement, alike.objectType hname]
  | newArray site elemName size =>
    have hname : elemName ≠ x := omits elemName List.mem_cons_self
    simp only [Context.judgement, alike.arrayType hname]
  | instanceOf site operand target =>
    have htarget : target.name ≠ x := omits target.name List.mem_cons_self
    simp only [Context.judgement, alike.instanceOfType htarget]
  | cast site target operand =>
    have htarget : target.name ≠ x := omits target.name List.mem_cons_self
    have hcast := alike.castType htarget (hfinding 0) site.line
    apply Reported.ext <;>
      simp only [Context.judgement, Reported.value_bind, Reported.reports_bind, hcast]
  | assign site qualifier name value =>
    have htarget := ignores.hosts.targetType_gives hvars site.line qualifier name (.inl herror)
    have hassigned := alike.assigned htarget (hfinding 0) value name
    rw [alike.targetType] at hassigned
    apply Reported.ext <;>
      simp only [Context.judgement, Reported.value_bind, Reported.reports_bind, hassigned,
        alike.targetType]
  | assignElement site qualifier name index value =>
    have htarget := ignores.hosts.targetType_gives hvars site.line qualifier name (.inl herror)
    have helem := ignores.hosts.targetElement_gives htarget site.line name (.inl herror)
    have hassigned := alike.assigned helem (hfinding 1) value name
    rw [alike.targetElement, alike.targetType] at hassigned
    apply Reported.ext <;>
      simp only [Context.judgement, Reported.value_bind, Reported.reports_bind, hassigned,
        alike.targetType, alike.targetElement, alike.indexed]
  | binary site op left right =>
    have hbinary := alike.binaryType (hfinding 0) (hfinding 1) site.line op
    apply Reported.ext <;>
      simp only [Context.judgement, Reported.value_bind, Reported.reports_bind, hbinary]
  | _ =>
    simp only [Context.judgement, alike.varType, alike.indexedType, alike.indexed,
      alike.elementType, alike.unaryType]

end Context.Ignores

/-- From states with the property `I`, the two steps do the same: they end in such a state, with a
value that has the property `Q`. -/
def Coincides {σ α : Type} (I : σ → Prop) (m m' : StateT σ Judged α) (Q : α → Prop) : Prop :=
  ∀ s, I s → m s = m' s ∧ I (m s).value.2 ∧ Q (m s).value.1

namespace Coincides

variable {σ α β : Type} {I : σ → Prop}

theorem bind {m m' : StateT σ Judged α} {f f' : α → StateT σ Judged β} {Q : α → Prop}
    {R : β → Prop} (hm : Coincides I m m' Q) (hf : ∀ a, Q a → Coincides I (f a) (f' a) R) :
    Coincides I (m >>= f) (m' >>= f') R := by
  intro s hs
  obtain ⟨hsame, hs', hQ⟩ := hm s hs
  obtain ⟨hrest, hend⟩ := hf _ hQ _ hs'
  refine ⟨?_, hend⟩
  apply Reported.ext
  · rw [Step.value_bind, Step.value_bind, hrest, hsame]
  · rw [Step.reports_bind, Step.reports_bind, hrest, hsame]

theorem pure {a : α} {Q : α → Prop} (ha : Q a) :
    Coincides I (Pure.pure a : StateT σ Judged α) (Pure.pure a) Q :=
  fun _ hs => ⟨rfl, hs, ha⟩

theorem lift {j j' : Judged α} {Q : α → Prop} (hj : j = j') (hQ : Q j.value) :
    Coincides I (liftM j : StateT σ Judged α) (liftM j') Q :=
  fun s hs => ⟨by rw [hj], hs, hQ⟩

theorem judge {j j' : Judged Unit} (hj : j = j') :
    Coincides I (liftM j : StateT σ Judged Unit) (liftM j') fun _ => True :=
  lift hj trivial

theorem get : Coincides I (MonadState.get : StateT σ Judged σ) MonadState.get I :=
  fun _ hs => ⟨rfl, hs, hs⟩

theorem ofModify {f : σ → σ} (hf : ∀ s, I s → I (f s)) :
    Coincides I (modify f : StateT σ Judged Unit) (modify f) fun _ => True :=
  fun s hs => ⟨rfl, hf s hs, trivial⟩

theorem weaken {m m' : StateT σ Judged α} {Q R : α → Prop} (hm : Coincides I m m' Q)
    (h : ∀ a, Q a → R a) : Coincides I m m' R := by
  intro s hs
  obtain ⟨hsame, hs', hQ⟩ := hm s hs
  exact ⟨hsame, hs', h _ hQ⟩

end Coincides

namespace Coincides

variable {x : String} {cx dx : Context}

theorem findings {vars : Vars} {es : List Expr}
    (h : ∀ e ∈ es, Coincides (·.Within (Ty.Avoids x)) (cx.infer vars e) (dx.infer vars e)
      (Ty.Avoids x)) {n : Notes} (hn : n.Within (Ty.Avoids x)) :
    cx.findings vars es n = dx.findings vars es n ∧
      (cx.findings vars es n).2.Within (Ty.Avoids x) ∧
      ∀ j ∈ (cx.findings vars es n).1, j.value.Avoids x := by
  induction es generalizing n with
  | nil => exact ⟨rfl, hn, by simp [Context.findings]⟩
  | cons e es ih =>
    obtain ⟨hfirst, hn', ht⟩ := h e List.mem_cons_self n hn
    obtain ⟨hrest, hend, hall⟩ := ih (fun a ha => h a (List.mem_cons_of_mem e ha)) hn'
    refine ⟨?_, hend, List.forall_mem_cons.mpr ⟨ht, hall⟩⟩
    simp only [Context.findings, ← hfirst, hrest]

theorem infer (ignores : cx.Ignores x dx) {vars : Vars}
    (hvars : ∀ t ∈ vars, t.All fun s => s.type.Avoids x) {e : Expr}
    (omits : Tree.All (Node.Omits x) e.trees) :
    Coincides (·.Within (Ty.Avoids x)) (cx.infer vars e) (dx.infer vars e) (Ty.Avoids x) := by
  induction e using Expr.parts_induction with
  | step e ih =>
    by_cases he : e = .absent
    · rw [he, Context.infer, Context.infer]
      exact pure (Ty.avoids_error x)
    intro n hn
    obtain ⟨hnode, hparts⟩ := Expr.all_parts he omits
    obtain ⟨hsame, hwithin, hfound⟩ := findings (fun p hp => ih p hp (hparts p hp)) hn
    set storage := (cx.findings vars e.parts n).2.stores e
    have hjudgement := ignores.judgement hvars hfound hnode storage
    have hgiven := ignores.hosts.judgement_avoids hvars hfound he hnode storage
    rw [Context.infer_eq he, Context.infer_eq he, ← hsame, ← hjudgement]
    exact ⟨rfl, hwithin.conclude e hgiven⟩

end Coincides

structure MethodContext.Ignores (x : String) (cx dx : MethodContext) : Prop where
  context : cx.toContext.Ignores x dx.toContext
  methodName : cx.methodName = dx.methodName
  returnType : cx.returnType = dx.returnType

namespace Coincides

def relation (x : String) : StepRelation where
  Holds := fun m m' _ Q => Coincides (fun s : BodyState => s.Within (Ty.Avoids x)) m m' Q
  skip := pure trivial
  bind := bind
  loop := fun _ hm => (ofModify fun _ hs => ⟨hs.notes, hs.locals⟩).bind fun _ _ =>
    hm.bind fun _ _ => ofModify fun _ hs => ⟨hs.notes, hs.locals⟩
  scope := fun hm => (ofModify fun _ hs => ⟨hs.notes, hs.locals.enter⟩).bind fun _ _ =>
    hm.bind fun _ _ => ofModify fun _ hs => ⟨hs.notes, hs.locals.exit⟩

variable {x : String} {cx dx : MethodContext} (ignores : cx.Ignores x dx)
include ignores

theorem value {e : Expr} (omits : Tree.All (Node.Omits x) e.trees) :
    Coincides (·.Within (Ty.Avoids x)) (cx.value e) (dx.value e) (Ty.Avoids x) := by
  intro s hs
  have hosts := ignores.context.hosts
  have hvars : ∀ t ∈ s.locals :: cx.self.varChain, t.All fun v => v.type.Avoids x :=
    List.forall_mem_cons.mpr ⟨hs.locals, hosts.vars _ hosts.self_mem⟩
  obtain ⟨hsame, hn, ht⟩ := infer ignores.context hvars omits s.notes hs.notes
  have hvalue : cx.value e s = dx.value e s := by
    simp only [MethodContext.value, ← ClassInfo.varChain_of_face ignores.context.alike.self,
      StateT.run, hsame]
  exact ⟨hvalue, ⟨hn, hs.locals⟩, ht⟩

theorem declare {type : Ty} (htype : type.name ≠ x) (line : Int) (kind : SymbolKind)
    (name : String) :
    Coincides (·.Within (Ty.Avoids x)) (cx.declare line kind name type)
      (dx.declare line kind name type) fun bound => ∀ s, bound = some s → s.type.Avoids x := by
  have alike := ignores.context.alike
  refine get.bind fun s _ => ?_
  have hsame : cx.binding s.locals line kind name type =
      dx.binding s.locals line kind name type := by
    rw [Context.binding, Context.binding, alike.report, alike.knows fun _ => htype]
  have hknown : cx.table.knows type = true → type.Avoids x := fun _ _ => htype
  have hgives := Context.binding_gives hknown s.locals line kind name (.inl (Ty.avoids_error x))
  refine (lift (Q := fun bound => ∀ v, bound = some v → v.type.Avoids x) hsame hgives).bind
    fun bound hbound => ?_
  cases bound with
  | none => exact pure (by simp)
  | some v =>
    have hv := hbound v rfl
    exact (ofModify fun b hb => ⟨hb.notes, hb.locals.add v.name hv⟩).bind fun _ _ => pure hbound

theorem initialized {bound : Option Symbol} (hbound : ∀ s, bound = some s → s.type.Avoids x)
    {initType : Ty} (hinit : initType.Avoids x) (line : Int) (name : String) :
    cx.initialized line name bound initType = dx.initialized line name bound initType := by
  have alike := ignores.context.alike
  cases bound with
  | none => rfl
  | some s =>
    simp only [Context.initialized, alike.report, alike.require,
      alike.accepts (hbound s rfl) hinit]

theorem relates : (relation x).Relates cx dx (Node.Omits x) (fun _ t => t.Avoids x)
    fun bound => ∀ s, bound = some s → s.type.Avoids x where
  value := value ignores
  judgedCondition := fun _ => judge (by
    rw [Context.condition, Context.condition, ignores.context.alike.require])
  declare := fun {_ _ type _} omits =>
    declare ignores (omits type.name List.mem_cons_self) _ _ _
  initialized := fun _ ht hbound => judge (initialized ignores hbound ht _ _)
  statement := fun _ => judge (by rw [ignores.context.alike.require])
  breakLoop := fun _ => by
    rw [MethodContext.check, MethodContext.check]
    refine get.bind fun _ _ => judge ?_
    rw [ignores.context.alike.require]
  returned := fun _ => judge (by
    rw [MethodContext.returned, MethodContext.returned, ignores.context.alike.require,
      ignores.methodName, ignores.returnType])
  returnedValue := fun _ _ => judge (by
    rw [MethodContext.returnedValue, MethodContext.returnedValue, ignores.context.alike.require,
      ignores.context.alike.report, ignores.methodName, ignores.returnType])
  formal := fun {f} omits =>
    (declare ignores (omits f.type.name List.mem_cons_self) _ _ _).weaken fun _ _ => trivial

end Coincides

namespace Coincides

variable {x : String} {cx dx : Context} (ignores : cx.Ignores x dx)
include ignores

theorem checkedField {f : Field} (omits : Tree.All (Node.Omits x) [f.tree]) :
    Coincides (·.Within (Ty.Avoids x)) (cx.checkedField f) (dx.checkedField f) fun _ => True := by
  have alike := ignores.alike
  obtain ⟨hnode, hinit⟩ := Tree.All.node.mp omits
  have htype : f.type.name ≠ x := hnode f.type.name List.mem_cons_self
  rw [Context.checkedField, Context.checkedField, ← ClassInfo.varChain_of_face alike.self]
  have hvars := ignores.hosts.vars _ ignores.hosts.self_mem
  refine (infer ignores hvars hinit).bind fun t ht => judge ?_
  rw [Context.fieldInitialized, Context.fieldInitialized, alike.report, alike.require,
    alike.knows fun _ => htype, alike.accepts (fun _ => htype) ht]

theorem checkedMethod {m : Method} (omits : Tree.All (Node.Omits x) [m.tree]) :
    Coincides (·.Within (Ty.Avoids x)) (cx.checkedMethod m) (dx.checkedMethod m)
      fun _ => True := by
  obtain ⟨hnode, -⟩ := Tree.All.node.mp omits
  have hreturn : m.returnType.name ≠ x := hnode m.returnType.name List.mem_cons_self
  have method : (cx.ofMethod m).Ignores x (dx.ofMethod m) := by
    refine ⟨ignores, rfl, ?_⟩
    simp only [Context.ofMethod, ignores.alike.canReturn fun _ => hreturn]
  have hrun := (relates method).method omits
  intro notes hn
  obtain ⟨hsame, hs, -⟩ := hrun ⟨notes, ScopeStack.empty.enter, []⟩ ⟨hn, ScopeStack.All.empty_enter⟩
  have hmethod : cx.checkedMethod m notes = dx.checkedMethod m notes := by
    simp only [Context.checkedMethod, StateT.run, hsame]
  exact ⟨hmethod, hs.notes, trivial⟩

theorem checkedMembers {ms : List (Option Member)}
    (omits : ∀ m, some m ∈ ms → Tree.All (Node.Omits x) [m.tree]) :
    Coincides (·.Within (Ty.Avoids x)) (cx.checkedMembers ms) (dx.checkedMembers ms)
      fun _ => True := by
  refine Context.checkedMembers_related
    (P := fun m m' _ => Coincides (fun n : Notes => n.Within (Ty.Avoids x)) m m' fun _ => True)
    (pure trivial) (fun hm hk => hm.bind fun _ _ => hk) cx dx fun m hm => ?_
  cases m with
  | field f => exact checkedField ignores (omits _ hm)
  | method m => exact checkedMethod ignores (omits _ hm)

end Coincides

theorem ClassDecl.apart_of_omits {x : String} {d : ClassDecl}
    (omits : Tree.All (Node.Omits x) [d.tree]) : d.Apart x := by
  intro member hmember
  have htree := omits.of_member hmember
  cases member with
  | field f =>
    obtain ⟨hnode, -⟩ := Tree.All.node.mp htree
    exact .inl (hnode f.type.name List.mem_cons_self)
  | method m =>
    obtain ⟨hnode, hall⟩ := Tree.All.node.mp htree
    obtain ⟨hformals, -⟩ := Tree.All.append.mp hall
    refine ⟨.inr (.inl (hnode m.returnType.name List.mem_cons_self)), fun f hf => .inl ?_⟩
    have hformal := hformals.of_mem (List.mem_map_of_mem hf)
    exact (Tree.All.node.mp hformal).1 f.type.name List.mem_cons_self

theorem Member.Apart.brings {x : String} {member : Member} (apart : member.Apart x)
    (h : Hierarchy) (c : ClassNode) :
    member.Brings h c (fun s => s.type.Avoids x)
      fun s => s.returnType.Avoids x ∧ ∀ p ∈ s.params, p.Apart x := by
  cases member with
  | field f => exact fun _ => Ty.Apart.avoids apart
  | method m =>
    obtain ⟨hreturn, hformals⟩ := apart
    refine fun _ => ⟨?_, ?_⟩
    · rcases hreturn with hvoid | hreturn
      · rw [Members.signature, hvoid]
        exact Ty.avoids_void x
      · exact hreturn.avoids
    · exact List.forall_mem_map.mpr hformals

namespace Hierarchy.Gains

variable {h h' : Hierarchy} {c : ClassNode} (gains : h.Gains c h')
  (apart : ∀ d ∈ h.classes, d.decl.Apart c.name) (hstring : BuiltIn.stringName ≠ c.name)
include gains apart

theorem chains_avoid {d : ClassInfo} (hd : d ∈ (ClassTable.ofHierarchy h).classes) :
    (∀ t ∈ d.varChain, t.All fun s => s.type.Avoids c.name) ∧
      ∀ t ∈ d.methodChain, t.All fun s =>
        s.returnType.Avoids c.name ∧ ∀ p ∈ s.params, p.Apart c.name := by
  rw [ClassTable.classes_ofHierarchy] at hd
  obtain ⟨n, hn, rfl⟩ := List.mem_map.mp hd
  have hsources := gains.small.sources_subset hn
  exact chains_all fun e he member hmember => (apart e (hsources he) member hmember).brings h e

include hstring

theorem ignores {d : ClassNode} (hd : d ∈ h.classes) :
    (h.context d).Ignores c.name (h'.context d) where
  alike := gains.alike apart hd
  hosts := {
    int := Ty.Apart.avoids (.inr (.inl rfl))
    boolean := Ty.Apart.avoids (.inr (.inr rfl))
    null := fun hnull => by cases hnull
    string := fun _ => hstring
    elem := fun t ht harray _ => ht (by simp [Ty.isReference, harray])
    erroneous := fun _ _ _ => Ty.avoids_error c.name
    named := fun _ _ _ => .inl (Ty.avoids_error c.name)
    self_mem := ClassTable.classInfo_mem hd
    linked := .inl (Ty.avoids_error c.name)
    classes := by
      intro e he _
      obtain ⟨n, hn, rfl⟩ := List.mem_map.mp (ClassTable.classes_ofHierarchy h ▸ he)
      exact gains.name_ne hn
    vars := fun e he => (gains.chains_avoid apart he).1
    methods := fun e he t ht scope hscope b hb =>
      ((gains.chains_avoid apart he).2 t ht scope hscope b hb).1 }
  params := fun e he t ht scope hscope b hb =>
    ((gains.chains_avoid apart he).2 t ht scope hscope b hb).2

end Hierarchy.Gains

end ClassCheck
