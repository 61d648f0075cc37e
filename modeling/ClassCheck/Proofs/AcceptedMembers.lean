import ClassCheck.Proofs.Overriding

/-!
# The members that a class accepts

An account of class environments that knows no tables. Each member is judged by the members accepted
before it and by the nearest method of its name further up, and a name stands for the nearest
declaration that was accepted. Declaring the members of a class comes to the same.
-/

namespace ClassCheck

def Member.line : Member → Int
  | .field f => f.line
  | .method m => m.line

structure Accepted where
  fields : List Field
  methods : List Method

abbrev Accounts := List (ClassNode × Accepted)

namespace Accounts

def field? (chain : Accounts) (x : String) : Option Field :=
  chain.findSome? fun a => a.2.fields.find? (·.name == x)

def method? (chain : Accounts) (x : String) : Option (ClassNode × Method) :=
  chain.findSome? fun a => (a.2.methods.find? (·.name == x)).map fun m => (a.1, m)

end Accounts

namespace Accepted

def empty : Accepted := ⟨[], []⟩

variable (classNames : List String) (above : Accounts)

def fieldFault? (got : Accepted) (f : Field) : Option Diagnostic.Kind :=
  if f.name ∈ ["this", "super", "null"] then some .reservedIdentifier
  else if f.name ∈ got.fields.map (·.name) then some .duplicateDefinition
  else if f.type.name ∈ "int" :: "boolean" :: classNames then none
  else some .undefinedType

/-- The first check that a method fails. The last asks it to repeat the return type and the formal
types of the nearest method that it would override. -/
def methodFault? (got : Accepted) (m : Method) : Option Diagnostic.Kind :=
  if m.name ∈ ["this", "super", "null"] then some .reservedIdentifier
  else if m.name ∈ got.methods.map (·.name) then some .duplicateDefinition
  else if m.returnType = .void ∨ m.returnType.name ∈ "int" :: "boolean" :: classNames then
    match above.method? m.name with
    | none => none
    | some (_, inherited) =>
        if inherited.returnType = m.returnType ∧
          inherited.formals.map (·.type) = m.formals.map (·.type) then none
        else some .illegalOverload
  else some .undefinedType

def fault? (got : Accepted) : Member → Option Diagnostic.Kind
  | .field f => got.fieldFault? classNames f
  | .method m => got.methodFault? classNames above m

def add (got : Accepted) : Member → Accepted
  | .field f => { got with fields := got.fields ++ [f] }
  | .method m => { got with methods := got.methods ++ [m] }

def takeAll (got : Accepted) : List (Option Member) → Accepted
  | [] => got
  | none :: rest => got.takeAll rest
  | some member :: rest =>
      match got.fault? classNames above member with
      | none => (got.add member).takeAll rest
      | some _ => got.takeAll rest

def faults (got : Accepted) : List (Option Member) → List (Diagnostic.Kind × Int)
  | [] => []
  | none :: rest => got.faults rest
  | some member :: rest =>
      match got.fault? classNames above member with
      | none => (got.add member).faults rest
      | some kind => (kind, member.line) :: got.faults rest

end Accepted

/-- What each class of a chain accepts, where a class comes before those it inherits from. -/
def Accounts.along (classNames : List String) : List ClassNode → Accounts
  | [] => []
  | c :: cs => (c, Accepted.empty.takeAll classNames (along classNames cs) c.decl.members) ::
      along classNames cs

/-- The classes above in whose tables those of the class continue: its ancestors, and then the root
if the topmost of them has no link to it. -/
def ClassInfo.tableChain (c : ClassInfo) : List ClassNode :=
  if c.upward.any (·.isRoot) then c.ancestors else c.ancestors ++ [Hierarchy.root]

theorem Finds.eq_find? {α β : Type} {l : List α} {name : α → String} {entry : α → β} {x : String}
    {found : Option β} (finds : Finds l name entry x found) :
    found = (l.find? (name · == x)).map entry := by
  cases ha : l.find? (name · == x) with
  | none => exact finds.eq_none_iff.mpr (find?_name_eq_none_iff.mp ha)
  | some a =>
    have hname : name a = x := by simpa using List.find?_some ha
    exact (finds _).mpr ⟨a, List.mem_of_find?_eq_some ha, hname, rfl⟩

theorem isReserved_iff {name : String} :
    isReserved name = true ↔ name ∈ ["this", "super", "null"] := by
  simp [isReserved, or_assoc]

theorem Hierarchy.knows_iff {h : Hierarchy} {t : Ty} :
    h.knows t = true ↔ t.name ∈ "int" :: "boolean" :: h.names := by
  simp [knows, Ty.isKnown, Ty.isPrimitiveName, names, or_assoc]

namespace Members

def enter (m : Members) (c : ClassNode) : Member → Members
  | .field f => m.addField f.symbol
  | .method d => m.addMethod (signature c d)

/-- The next member is entered without a report, or it is left out and reported once. -/
def Settles (m : Members) (h : Hierarchy) (c : ClassNode) (above : List Members) (member : Member) :
    Option Diagnostic.Kind → Prop
  | none => m.declare h c above member = pure (m.enter c member)
  | some kind => ∃ problem : MemberProblem, problem.kind = kind ∧
      m.declare h c above member = ⟨m, [⟨c.decl.file, member.line, problem⟩]⟩

def Verdict (outcome : Except MemberProblem Members) (entered : Members) :
    Option Diagnostic.Kind → Prop
  | none => outcome = .ok entered
  | some kind => ∃ problem, outcome = .error problem ∧ problem.kind = kind

theorem Verdict.settles {m : Members} {h : Hierarchy} {c : ClassNode} {above : List Members}
    {member : Member} {outcome : Except MemberProblem Members} {fault : Option Diagnostic.Kind}
    (verdict : Verdict outcome (m.enter c member) fault)
    (hdeclare : m.declare h c above member = .attempt m c.decl.file member.line outcome) :
    m.Settles h c above member fault := by
  cases fault with
  | none => rw [Settles, hdeclare, show outcome = _ from verdict, Reported.attempt]
  | some kind =>
    obtain ⟨problem, rfl, hkind⟩ := verdict
    exact ⟨problem, hkind, hdeclare⟩

structure Records (m : Members) (c : ClassNode) (got : Accepted) : Prop
    extends Lists m c got.fields got.methods where
  fields : m.fields = got.fields.map Field.symbol
  methods : m.methods = got.methods.map (signature c)

abbrev RecordsAll (ms : List Members) (chain : Accounts) : Prop :=
  List.Forall₂ (fun m a => m.Records a.1 a.2) ms chain

namespace RecordsAll

variable {ms : List Members} {chain : Accounts}

theorem method? (all : RecordsAll ms chain) (x : String) :
    inherits? ms x = (chain.method? x).map fun a => signature a.1 a.2 := by
  induction all with
  | nil => rfl
  | @cons m a ms chain records _ ih =>
    rw [inherits?_cons, (records.method x).eq_find?, ih, Accounts.method?, Accounts.method?,
      List.findSome?_cons]
    cases a.2.methods.find? (·.name == x) <;> rfl

theorem field? (all : RecordsAll ms chain) (x : String) :
    ScopeStack.lookup (ms.map (·.vars)) (selfKey x) = (chain.field? x).map Field.symbol := by
  induction all with
  | nil => rfl
  | @cons m a ms chain records _ ih =>
    rw [List.map_cons, ScopeStack.lookup, List.findSome?_cons, ← ScopeStack.lookup, ih,
      (records.selfField x).eq_find?, Accounts.field?, Accounts.field?, List.findSome?_cons]
    cases a.2.fields.find? (·.name == x) <;> rfl

end RecordsAll

namespace Records

theorem empty (c : ClassNode) : Members.empty.Records c .empty :=
  ⟨.empty c, rfl, rfl⟩

variable {h : Hierarchy} {c : ClassNode} {m : Members} {got : Accepted} {ms : List Members}
  {above : Accounts}

theorem declareField (records : m.Records c got) {f : Field} (hdot : Dotless f.name) :
    Verdict (m.declareField h c f) (m.addField f.symbol) (got.fieldFault? h.names f) := by
  have hduplicate : (m.vars.peek f.name).isSome = true ↔ f.name ∈ got.fields.map (·.name) := by
    rw [records.vars_flat, Option.isSome_iff_ne_none, ne_eq, (records.field _ hdot).eq_none_iff,
      not_not]
  rw [Members.declareField_eq, Accepted.fieldFault?]
  simp only [isReserved_iff, hduplicate, Bool.not_eq_true', ← Bool.not_eq_true, Hierarchy.knows_iff]
  split_ifs
  · exact ⟨_, rfl, rfl⟩
  · exact ⟨_, rfl, rfl⟩
  · rfl
  · exact ⟨_, rfl, rfl⟩

theorem declareMethod (records : m.Records c got) (all : RecordsAll ms above) {d : Method} :
    Verdict (m.declareMethod h c ms d) (m.addMethod (signature c d))
      (got.methodFault? h.names above d) := by
  have hduplicate : (m.signatures.peek d.name).isSome = true ↔
      d.name ∈ got.methods.map (·.name) := by
    rw [records.signatures_flat, Option.isSome_iff_ne_none, ne_eq,
      (records.method d.name).eq_none_iff, not_not]
  have hreturn : canReturn h d.returnType = true ↔
      d.returnType = .void ∨ d.returnType.name ∈ "int" :: "boolean" :: h.names := by
    rw [canReturn, Bool.or_eq_true, Ty.isVoid_iff, Hierarchy.knows_iff]
  have hinherited := all.method? d.name
  rw [inherits?] at hinherited
  rw [Members.declareMethod_eq, Accepted.methodFault?, hinherited]
  simp only [isReserved_iff, hduplicate, Bool.not_eq_true', ← Bool.not_eq_true, hreturn]
  split_ifs
  · exact ⟨_, rfl, rfl⟩
  · exact ⟨_, rfl, rfl⟩
  · cases above.method? d.name with
    | none => rfl
    | some a =>
      have hagree : (signature c d).mismatch? (signature a.1 a.2) = none ↔
          a.2.returnType = d.returnType ∧
            a.2.formals.map (·.type) = d.formals.map (·.type) := by
        rw [Signature.mismatch?_eq_none_iff, signature_type, signature_type, Method.type,
          Method.type, MethodType.mk.injEq, and_comm]
      simp only [Option.map_some]
      split_ifs with hrepeats
      · rw [hagree.mpr hrepeats]
        rfl
      · cases hm : (signature c d).mismatch? (signature a.1 a.2) with
        | none => exact absurd (hagree.mp hm) hrepeats
        | some mismatch => exact ⟨_, rfl, rfl⟩
  · exact ⟨_, rfl, rfl⟩

theorem declare (records : m.Records c got) (all : RecordsAll ms above) {member : Member}
    (hdot : ∀ f, member = .field f → Dotless f.name) :
    m.Settles h c ms member (got.fault? h.names above member) := by
  cases member with
  | field f => exact (records.declareField (hdot f rfl)).settles rfl
  | method d => exact (records.declareMethod all).settles rfl

theorem enter (records : m.Records c got) {classNames : List String} {member : Member}
    (hdot : ∀ f, member = .field f → Dotless f.name)
    (hok : got.fault? classNames above member = none) :
    (m.enter c member).Records c (got.add member) := by
  cases member with
  | field f =>
    have hnew : f.name ∉ got.fields.map (·.name) := by
      intro htaken
      rw [Accepted.fault?, Accepted.fieldFault?] at hok
      split_ifs at hok
    refine ⟨records.toLists.addField (hdot f rfl) hnew, ?_, records.methods⟩
    simp [Members.enter, Members.addField, Accepted.add, records.fields]
  | method d =>
    have hnew : d.name ∉ got.methods.map (·.name) := by
      intro htaken
      rw [Accepted.fault?, Accepted.methodFault?] at hok
      split_ifs at hok
    refine ⟨records.toLists.addMethod hnew, records.fields, ?_⟩
    simp [Members.enter, Members.addMethod, Accepted.add, records.methods]

theorem declareAll (records : m.Records c got) (all : RecordsAll ms above)
    (members : List (Option Member))
    (hdot : ∀ f, some (.field f) ∈ members → Dotless f.name) :
    (m.declareAll h c ms members).value.Records c (got.takeAll h.names above members) ∧
      (m.declareAll h c ms members).reports.map (fun r => (r.problem.kind, r.file, r.line)) =
        (got.faults h.names above members).map fun k => (k.1, c.decl.file, k.2) := by
  induction members generalizing m got with
  | nil => exact ⟨records, rfl⟩
  | cons o members ih =>
    have hrest : ∀ f, some (.field f) ∈ members → Dotless f.name :=
      fun f hf => hdot f (List.mem_cons_of_mem _ hf)
    cases o with
    | none => exact ih records hrest
    | some member =>
      have hmember : ∀ f, member = .field f → Dotless f.name := by
        rintro f rfl
        exact hdot f List.mem_cons_self
      have hsettles := records.declare (h := h) all hmember
      rw [Members.declareAll, Accepted.takeAll, Accepted.faults]
      cases hfault : got.fault? h.names above member with
      | none =>
        rw [hfault] at hsettles
        rw [show m.declare h c ms member = _ from hsettles, pure_bind]
        exact ih (records.enter hmember hfault) hrest
      | some kind =>
        rw [hfault] at hsettles
        obtain ⟨problem, rfl, hdeclare⟩ := hsettles
        obtain ⟨hrecords, hreports⟩ := ih records hrest
        rw [hdeclare]
        refine ⟨hrecords, ?_⟩
        rw [Reported.reports_bind, List.map_append, hreports]
        rfl

end Records

end Members

namespace Hierarchy

variable {h : Hierarchy}

theorem membersAlong_records {cs : List ClassNode}
    (hdot : ∀ c ∈ cs, ∀ f ∈ c.decl.fields, Dotless f.name) :
    Members.RecordsAll (h.membersAlong cs) (Accounts.along h.names cs) := by
  induction cs with
  | nil => exact .nil
  | cons c cs ih =>
    have all := ih fun d hd => hdot d (List.mem_cons_of_mem c hd)
    refine .cons ?_ all
    exact ((Members.Records.empty c).declareAll all c.decl.members fun f hf =>
      hdot c List.mem_cons_self f (ClassDecl.mem_fields.mpr hf)).1

theorem ofProgram_dotless {program : Option Program}
    (hdot : ∀ d, some d ∈ (program.map (·.classes)).getD [] → ∀ f ∈ d.fields, Dotless f.name)
    {c : ClassNode} (hc : c ∈ (ofProgram program).classes) :
    ∀ f ∈ c.decl.fields, Dotless f.name := by
  have hbuiltIn : ∀ b ∈ Registry.builtIn.classes, ∀ f ∈ b.decl.fields, Dotless f.name := by
    intro b hb
    rw [(Registry.builtIn_members b hb).1]
    simp
  rcases List.mem_cons.mp (ofRegistry_mem_registered hc) with hroot | ho
  · exact hbuiltIn c.toRegistered (hroot ▸ Registry.builtIn.root_mem)
  · rcases Registry.mem_register_others.mp ho with hb | ⟨d, hd, hfirst, -⟩
    · exact hbuiltIn c.toRegistered (Registry.others_subset hb)
    · rw [hd]
      exact hdot d hfirst.mem

end Hierarchy

namespace Environment

def enter (e : Environment) (h : Hierarchy) (c : ClassNode) (member : Member) : Environment :=
  e.set (h.number c) ((e.members (h.number c)).enter c member)

def Settles (e : Environment) (h : Hierarchy) (c : ClassNode) (member : Member) :
    Option Diagnostic.Kind → Prop
  | none => e.declare h c member = pure (e.enter h c member)
  | some kind => ∃ problem : MemberProblem, problem.kind = kind ∧
      e.declare h c member = ⟨e, [⟨c.decl.file, member.line, problem⟩]⟩

theorem Fits.settles {e : Environment} {h : Hierarchy} (fits : e.Fits h) (linked : h.Linked)
    {c : ClassNode} (hc : c ∈ h.classes) {member : Member} {fault : Option Diagnostic.Kind}
    (settles : (e.members (h.number c)).Settles h c (e.above h c) member fault) :
    e.Settles h c member fault := by
  have hdeclare := fits.declare_eq linked hc member
  cases fault with
  | none =>
    rw [show Members.declare .. = _ from settles, map_pure] at hdeclare
    exact hdeclare
  | some kind =>
    obtain ⟨problem, hkind, hm⟩ := settles
    refine ⟨problem, hkind, ?_⟩
    rw [hdeclare, hm]
    exact Reported.ext (set_members e _) (Reported.reports_map _ _)

end Environment

/-- As the tables are filled, `e` is how all of them stand when the turn comes to the member of `c`
that follows the members `before`. -/
def Hierarchy.Reaches (h : Hierarchy) (c : ClassNode) (before : List (Option Member))
    (member : Member) (e : Environment) : Prop :=
  ∃ done rest after, h.order = done ++ c :: rest ∧
    c.decl.members = before ++ some member :: after ∧
    e = (((Environment.initial h).fillAll h done).value.declareAll h c before).value

theorem Hierarchy.Reaches.settles {h : Hierarchy} {c : ClassNode} {before : List (Option Member)}
    {member : Member} {e : Environment} (reaches : h.Reaches c before member e)
    (linked : h.Linked) {above : Accounts} (all : Members.RecordsAll (h.inherited c) above)
    (hdot : ∀ f ∈ c.decl.fields, Dotless f.name) :
    e.Settles h c member ((Accepted.empty.takeAll h.names above before).fault? h.names above
      member) := by
  obtain ⟨done, rest, after, ho, hmembers, rfl⟩ := reaches
  have hc : c ∈ h.classes := linked.mem_order.mp (by rw [ho]; simp)
  obtain ⟨fits, hinherited, hown⟩ := Environment.at_member linked ho before
  have hbefore := (Members.Records.empty c).declareAll (h := h) all before
    fun f hf => hdot f (ClassDecl.mem_fields.mpr (hmembers ▸ List.mem_append_left _ hf))
  refine fits.settles linked hc ?_
  rw [hinherited, hown]
  refine hbefore.1.declare all ?_
  rintro f rfl
  refine hdot f (ClassDecl.mem_fields.mpr ?_)
  rw [hmembers]
  simp

/-- The environment of every class is made of the nearest accepted declarations. A member that is
not accepted leaves no trace but one report, in the order of the classes and of their members. -/
theorem environments_are_nearest_accepted (program : Option Program) (entry : EntryPoint)
    (dotless : ∀ d, some d ∈ (program.map (·.classes)).getD [] → ∀ f ∈ d.fields, Dotless f.name) :
    let h := Hierarchy.ofProgram program
    let tables := h.environment.value
    let a := analyze program entry
    let names := a.table.classes.map (·.name)
    (∀ c ∈ a.order,
      let above := Accounts.along names c.tableChain
      let got := Accepted.empty.takeAll names above c.decl.members
      let chain : Accounts := (c.toClassNode, got) :: above
      c.own.fields = got.fields.map Field.symbol ∧
      c.own.methods = got.methods.map (Members.signature c.toClassNode) ∧
      (∀ x, c.field? x = (chain.field? x).map Field.symbol ∧
        tables.vars.lookup (h.number c.toClassNode) (Members.selfKey x) = c.field? x) ∧
      (∀ x, c.method? x = ((chain.method? x).map fun b => Members.signature b.1 b.2) ∧
        tables.signatures.lookup (h.number c.toClassNode) x = c.method? x) ∧
      ∀ before member e, h.Reaches c.toClassNode before member e →
        e.Settles h c.toClassNode member
          ((Accepted.empty.takeAll names above before).fault? names above member)) ∧
    a.diagnostics = (Registry.ofProgram program).diagnostics ++
      (Hierarchy.ofRegistry (Registry.ofProgram program).value).diagnostics ++
      h.environment.diagnostics ++ (entry.problems a.table).map Located.diagnostic ++
      h.typing.diagnostics ∧
    h.environment.diagnostics.map (fun d => (d.kind, d.file, d.line)) = a.order.flatMap fun c =>
      (Accepted.empty.faults names (.along names c.tableChain) c.decl.members).map fun k =>
        (k.1, c.decl.file, k.2) := by
  intro h tables a names
  have linked : h.Linked := Hierarchy.ofProgram_linked program
  have hnames : names = h.names := by
    rw [show names = a.table.classes.map (·.name) from rfl,
      show a.table = _ from table_analyze program entry]
    exact ClassTable.names_ofHierarchy h
  rw [hnames]
  -- the tables of a class and of all classes above it are as the account has them
  have hall : ∀ c ∈ h.classes,
      Members.RecordsAll (h.membersAlong (c :: h.sources c)) (.along h.names (c :: h.sources c)) :=
    fun c hc => Hierarchy.membersAlong_records fun d hd =>
      Hierarchy.ofProgram_dotless dotless (linked.sources_subset hc hd)
  have habove : ∀ c ∈ h.classes,
      Members.RecordsAll (h.inherited c) (.along h.names (h.sources c)) :=
    fun c hc => (List.forall₂_cons.mp (hall c hc)).2
  refine ⟨?_, ?_, ?_⟩
  · intro c hc
    obtain ⟨n, hn, rfl⟩ := mem_analyze_order.mp hc
    have hdot := Hierarchy.ofProgram_dotless dotless hn
    have records := (List.forall₂_cons.mp (hall n hn)).1
    have hchain := linked.environment_classInfo hn
    have fits := linked.environment_filled.toFits
    refine ⟨records.fields, records.methods, fun x => ⟨(hall n hn).field? x, ?_⟩,
      fun x => ⟨(hall n hn).method? x, ?_⟩, ?_⟩
    · rw [← hchain, ClassInfo.field?, ClassInfo.varChain, Forest.lookup]
      exact congrArg (ScopeStack.lookup · _) (fits.chain_tables linked hn _)
    · rw [← hchain, ClassInfo.method?, ClassInfo.methodChain, Forest.lookup]
      exact congrArg (ScopeStack.lookup · _) (fits.chain_tables linked hn _)
    · intro before member e reaches
      exact Hierarchy.Reaches.settles reaches linked (habove n hn) hdot
  · rw [diagnostics_analyze, structuralDiagnostics, ← environment_diagnostics, ← table_analyze]
  · have hclass : ∀ n ∈ h.order,
        ((h.members n).reports.map Located.diagnostic).map (fun d => (d.kind, d.file, d.line)) =
          (Accepted.empty.faults h.names (.along h.names (h.sources n)) n.decl.members).map
            fun k => (k.1, n.decl.file, k.2) := by
      intro n hn
      have hn := linked.mem_order.mp hn
      have hdot := Hierarchy.ofProgram_dotless dotless hn
      rw [List.map_map]
      exact ((Members.Records.empty n).declareAll (habove n hn) n.decl.members fun f hf =>
        hdot f (ClassDecl.mem_fields.mpr hf)).2
    rw [Reported.diagnostics, linked.environment_reports, Reported.forEach, List.map_flatMap,
      List.map_flatMap, order_analyze, List.flatMap_map]
    exact List.flatMap_congr hclass

def layeredProgram : Program where
  line := 1
  classes := [
    some ⟨"Main.btm", 1, "Main", "Base", [
      some (.field ⟨2, "n", .boolean, .absent⟩),
      some (.method ⟨3, "next", .int, [⟨3, "by", .int⟩], []⟩),
      some (.method ⟨4, "main", .void, [], []⟩)]⟩,
    some ⟨"Base.btm", 1, "Base", "Missing", [
      some (.field ⟨2, "n", .int, .absent⟩),
      some (.field ⟨3, "n", .plain "Missing", .absent⟩),
      some (.method ⟨4, "next", .int, [], []⟩),
      none,
      some (.method ⟨5, "clone", .int, [], []⟩),
      some (.field ⟨6, "this", .plain "Missing", .absent⟩)]⟩]

theorem layeredProgram_environments :
    (∀ d, some d ∈ layeredProgram.classes → ∀ f ∈ d.fields, Dotless f.name) ∧
    let a := analyze (some layeredProgram) (.ofNames "" "")
    a.order.getLast?.map (fun c => (c.name, c.field? "n", c.method? "next")) =
      some ("Main", some ⟨"n", .field, .boolean⟩, some ⟨"next", .int, [], "Base", 4⟩) ∧
    ∃ before found after, a.diagnostics = before ++ found ++ after ∧
      found.map (fun d => (d.kind, d.file, d.line)) = [
        (.duplicateDefinition, "Base.btm", 3), (.illegalOverload, "Base.btm", 5),
        (.reservedIdentifier, "Base.btm", 6), (.illegalOverload, "Main.btm", 3)] := by
  have dotless : ∀ d, some d ∈ layeredProgram.classes → ∀ f ∈ d.fields, Dotless f.name := by
    have hnames : ∀ d ∈ layeredProgram.classes.filterMap id, ∀ x ∈ d.fields.map (·.name),
        '.' ∉ x.toList := by decide +kernel
    intro d hd f hf
    exact hnames d (List.mem_filterMap.mpr ⟨some d, hd, rfl⟩) f.name (List.mem_map_of_mem hf)
  obtain ⟨hclasses, hdiagnostics, hfound⟩ :=
    environments_are_nearest_accepted (some layeredProgram) (.ofNames "" "") dotless
  refine ⟨dotless, ?_, _, _, _, hdiagnostics.trans (List.append_assoc ..), ?_⟩
  · have hlast := Option.map_congr fun c
        (hc : (analyze (some layeredProgram) (.ofNames "" "")).order.getLast? = some c) =>
      have hc := hclasses c (List.mem_of_getLast? hc)
      congrArg₂ (fun f m => (c.name, f, m)) (hc.2.2.1 "n").1 (hc.2.2.2.1 "next").1
    exact hlast.trans (by decide +kernel)
  · rw [hfound]
    decide +kernel

end ClassCheck
