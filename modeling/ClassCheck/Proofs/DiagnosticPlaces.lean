import ClassCheck.Proofs.Overriding
import ClassCheck.Proofs.RefusedLinks
import ClassCheck.Proofs.ReportSites

/-!
# Every diagnostic has a place

Whatever is reported about a class is reported in its file, on the line of a node of its
declaration. Nothing is ever wrong with a built-in class but that it is no entry point, so all other
places are in the program itself. A missing operand has no line, and none of the rules asks for it.
-/

namespace ClassCheck

def Node.line? : Node → Option Int
  | .program p => some p.line
  | .noClass => none
  | .classDecl c => some c.line
  | .field f => some f.line
  | .method m => some m.line
  | .formal f => some f.line
  | .stmt s => some s.line
  | .expr e => some e.line

namespace ClassDecl

def Occupies (c : ClassDecl) (line : Int) : Prop :=
  ∃ n ∈ c.tree.visited fun _ => true, n.line? = some line

theorem mem_visited {c : ClassDecl} {n : Node} :
    (n ∈ c.tree.visited fun _ => true) ↔ n ∈ Tree.nodesAll [c.tree] := by
  rw [Tree.visited_all, Tree.nodesAll_eq_flatMap, List.flatMap_singleton]

theorem tree_on (c : ClassDecl) : Tree.All (Node.On c.Occupies) [c.tree] := by
  intro n hn
  have hvisited := mem_visited.mpr hn
  cases n with
  | program | noClass => trivial
  | _ => exact ⟨_, hvisited, rfl⟩

theorem occupies_line (c : ClassDecl) : c.Occupies c.line := (Tree.All.node.mp c.tree_on).1

theorem member_on {c : ClassDecl} {m : Member} (hm : some m ∈ c.members) :
    Tree.All (Node.On c.Occupies) [m.tree] :=
  c.tree_on.of_member hm

theorem occupies_method {c : ClassDecl} {m : Method} (hm : some (.method m) ∈ c.members) :
    c.Occupies m.line :=
  (Tree.All.node.mp (member_on hm)).1

end ClassDecl

def Located.Inside {π : Type} (l : Located π) (c : ClassDecl) : Prop :=
  l.file = c.file ∧ c.Occupies l.line

/-! ### Built-in classes -/

namespace Registry

theorem builtIn_place : ∀ b ∈ builtIn.classes, b.decl.file = "<built-in class>" ∧
    ∀ n ∈ b.decl.tree.visited fun _ => true, n.line? = some 0 := by decide

theorem builtIn_subset {program : Option Program} {b : Registered} (hb : b ∈ builtIn.classes) :
    b ∈ (ofProgram program).value.classes := by
  rcases List.mem_cons.mp hb with rfl | ho
  · exact root_mem _
  · exact others_subset (mem_register_others.mpr (.inl ho))

theorem link_builtIn {program : Option Program} {c : Registered} (hb : c ∈ builtIn.others) :
    ((ofProgram program).value.link c).reports = [] :=
  link_reports_eq_nil_iff.mpr
    ⟨_, (ofProgram_sound program).resolveParent_builtIn hb (mem_register_others.mpr (.inl hb))⟩

end Registry

namespace Hierarchy

variable {program : Option Program}

theorem knows_builtIn {t : Ty} (ht : t.name ∈ "int" :: "boolean" :: Registry.builtIn.names) :
    (ofProgram program).knows t = true := by
  have hname : t.name ∈ Registry.builtIn.names → t.name ∈ (ofProgram program).names := by
    intro h
    obtain ⟨b, hb, hbt⟩ := List.mem_map.mp h
    rw [ofProgram, ofRegistry_names, ← hbt]
    exact List.mem_map_of_mem (Registry.builtIn_subset hb)
  rw [List.mem_cons, List.mem_cons] at ht
  simp only [knows, Ty.isKnown, Ty.isPrimitiveName, Bool.or_eq_true, beq_iff_eq,
    List.contains_iff_mem, or_assoc]
  exact ht.imp_right (Or.imp_right hname)

theorem parent?_builtIn {c : ClassNode} (hc : c ∈ (ofProgram program).classes)
    (hb : c.toRegistered ∈ Registry.builtIn.others) :
    (ofProgram program).parent? c = some root := by
  have linked := ofProgram_linked program
  rcases List.mem_cons.mp hc with rfl | ho
  · cases Registry.builtIn_sound.others_not_root _ hb
  obtain ⟨d, hd, rfl⟩ := mem_ofRegistry_others.mp ho
  rw [Registry.link_toRegistered] at hb
  refine linked.parent?_eq_some_iff.mpr ⟨root_mem _, ?_⟩
  exact Registry.link_parent_eq_some_iff.mpr
    ⟨_, (Registry.ofProgram_sound program).resolveParent_builtIn hb hd, rfl⟩

theorem inherits?_builtIn {c : ClassNode} (hc : c ∈ (ofProgram program).classes)
    (hb : c.toRegistered ∈ Registry.builtIn.classes) {m : Method} (hm : m ∈ c.decl.methods) :
    Members.inherits? ((ofProgram program).inherited c) m.name = none := by
  have linked := ofProgram_linked program
  rcases List.mem_cons.mp hb with hroot | ho
  · have hisRoot : c.isRoot = true := by
      rw [Registered.isRoot, hroot]
      rfl
    rw [(linked.isRoot_iff hc).mp hisRoot, inherited_root]
    rfl
  rw [Option.eq_none_iff_forall_ne_some]
  intro s hs
  -- above a library class there is the root alone, and its table has one name
  rw [inherited, linked.sources_child hc (parent?_builtIn hc ho), sources_root] at hs
  have hclone : ∀ t ∈ ((ofProgram program).membersAlong [root]).map (·.signatures),
      t.All fun s => s.name = "clone" := by
    intro t ht
    obtain ⟨members, hmembers, rfl⟩ := List.mem_map.mp ht
    refine (membersAlong_all (P := fun _ => True) ?_ members hmembers).signatures
    intro d hd member hmember
    rw [List.mem_singleton.mp hd] at hmember
    cases List.mem_singleton.mp hmember
    exact fun _ => rfl
  have hname : s.name = "clone" := ScopeStack.All.lookup hclone hs
  rw [membersAlong_named hs] at hname
  have hlibrary : ∀ b ∈ Registry.builtIn.others, ∀ m ∈ b.decl.methods, m.name ≠ "clone" := by
    decide
  exact hlibrary _ ho m hm hname

theorem members_builtIn {c : ClassNode} (hc : c ∈ (ofProgram program).classes)
    (hb : c.toRegistered ∈ Registry.builtIn.classes) :
    ((ofProgram program).members c).reports = [] := by
  obtain ⟨hfields, hdistinct, hmethods⟩ := Registry.builtIn_members _ hb
  have hnone : ∀ f : Field, f ∉ c.decl.fields := by simp [hfields]
  refine (Members.ofClass_reports_eq_nil_iff fun f hf => absurd hf (hnone f)).mpr ?_
  constructor
  · rw [hfields]
    exact List.nodup_nil
  · exact fun f hf => absurd hf (hnone f)
  · exact hdistinct
  · intro m hm
    obtain ⟨hname, hreturn⟩ := hmethods m hm
    refine ⟨hname, ?_, fun s hs => ?_⟩
    · rw [Members.canReturn, Bool.or_eq_true, Ty.isVoid_iff]
      exact hreturn.imp_right knows_builtIn
    · rw [show ScopeStack.lookup _ _ = none from inherits?_builtIn hc hb hm] at hs
      cases hs

end Hierarchy

/-! ### What each phase reports, and where -/

def Program.declared (program : Option Program) : List (Option ClassDecl) :=
  (program.map (·.classes)).getD []

theorem Registry.register_inside (r : Registry) (ds : List (Option ClassDecl)) :
    ∀ l ∈ (r.register ds).reports, ∃ d, some d ∈ ds ∧ l.Inside d := by
  induction ds generalizing r with
  | nil =>
    intro l hl
    cases hl
  | cons o ds ih =>
    have hrest : ∀ r' : Registry, ∀ l ∈ (r'.register ds).reports,
        ∃ d, some d ∈ o :: ds ∧ l.Inside d := by
      intro r' l hl
      obtain ⟨d, hd, hinside⟩ := ih r' l hl
      exact ⟨d, List.mem_cons_of_mem o hd, hinside⟩
    cases o with
    | none => exact hrest r
    | some d =>
      cases hd : r.find? d.name with
      | none =>
        rw [register_new hd]
        exact hrest _
      | some old =>
        intro l hl
        rw [register_old hd, Reported.reports_bind] at hl
        rcases List.mem_append.mp hl with hl | hl
        · rw [List.mem_singleton.mp hl]
          exact ⟨d, List.mem_cons_self, rfl, d.occupies_line⟩
        · exact hrest r l hl

namespace Hierarchy

variable {program : Option Program}

theorem ofRegistry_inside : ∀ l ∈ (ofRegistry (Registry.ofProgram program).value).reports,
    ∃ d, some d ∈ Program.declared program ∧ l.Inside d := by
  intro l hl
  have hreports : (ofRegistry (Registry.ofProgram program).value).reports =
      (Registry.ofProgram program).value.others.flatMap fun c =>
        ((Registry.ofProgram program).value.link c).reports := by
    simp [ofRegistry, Reported.forEach]
  rw [hreports] at hl
  obtain ⟨c, hc, hl⟩ := List.mem_flatMap.mp hl
  rcases Registry.mem_register_others.mp hc with hb | ⟨d, rfl, hfirst, -⟩
  · rw [Registry.link_builtIn hb] at hl
    cases hl
  · obtain ⟨hfile, hline⟩ := Registry.link_stands _ _ l hl
    exact ⟨d, hfirst.mem, hfile, hline ▸ d.occupies_line⟩

theorem declared_of_user {c : ClassNode} (hc : c ∈ (ofProgram program).classes)
    (hnot : c.toRegistered ∉ Registry.builtIn.classes) :
    some c.decl ∈ Program.declared program :=
  ((Registry.mem_ofProgram (ofRegistry_mem_registered hc)).resolve_left hnot).2

theorem members_inside {c : ClassNode} (hc : c ∈ (ofProgram program).classes) :
    ∀ l ∈ ((ofProgram program).members c).reports,
      some c.decl ∈ Program.declared program ∧ l.Inside c.decl := by
  intro l hl
  refine ⟨declared_of_user hc fun hb => ?_, ?_⟩
  · rw [members_builtIn hc hb] at hl
    cases hl
  · exact Members.declareAll_stands (fun _ hm => ClassDecl.member_on hm) _ _ _ l hl

theorem signatures_occupy (h : Hierarchy) (c : ClassNode) :
    (h.classInfo c).own.signatures.All fun s => c.decl.Occupies s.line := by
  refine (Members.All.empty.declareAll (P := fun _ => True) (h.inherited c) ?_).signatures
  intro member hm
  cases member with
  | field f => exact fun _ => trivial
  | method m => exact fun _ => ClassDecl.occupies_method hm

end Hierarchy

theorem ScopeStack.All.peek {α : Type} {P : α → Prop} {t : ScopeStack α} (ht : t.All P)
    {name : String} {a : α} (h : t.peek name = some a) : P a := by
  obtain ⟨scopes⟩ := t
  cases scopes with
  | nil => cases h
  | cons scope outer => exact ht scope List.mem_cons_self (name, a) (mem_of_lookup h)

theorem EntryPoint.problems_inside (entry : EntryPoint) (h : Hierarchy) :
    ∀ l ∈ entry.problems (.ofHierarchy h),
      (h.find? entry.className = none ∧ l.problem.kind = .missingMain ∧ l.file = "" ∧
        l.line = -1) ∨
      ∃ c, h.find? entry.className = some c ∧ l.Inside c.decl := by
  intro l hl
  rw [problems, ClassTable.find?_ofHierarchy] at hl
  cases hc : h.find? entry.className with
  | none =>
    rw [hc] at hl
    rw [List.mem_singleton.mp hl]
    exact .inl ⟨rfl, rfl, rfl, rfl⟩
  | some c =>
    refine .inr ⟨c, rfl, ?_⟩
    rw [hc, Option.map_some] at hl
    cases hs : (h.classInfo c).own.signatures.peek entry.methodName with
    | none =>
      simp only [hs] at hl
      rw [List.mem_singleton.mp hl]
      exact ⟨rfl, c.decl.occupies_line⟩
    | some sig =>
      have hline := (h.signatures_occupy c).peek hs
      simp only [hs] at hl
      rcases List.mem_append.mp hl with hl | hl
      all_goals
        split_ifs at hl
        · cases hl
        · rw [List.mem_singleton.mp hl]
          exact ⟨rfl, hline⟩

theorem EntryPoint.problems_place (entry : EntryPoint) {program : Option Program} :
    ∀ l ∈ entry.problems (.ofHierarchy (Hierarchy.ofProgram program)),
      ((Hierarchy.ofProgram program).find? entry.className = none ∧
        l.problem.kind = .missingMain ∧ l.file = "" ∧ l.line = -1) ∨
      (entry.className ∈ Registry.builtIn.names ∧ l.file = "<built-in class>" ∧ l.line = 0) ∨
      ∃ d, some d ∈ Program.declared program ∧ l.Inside d := by
  intro l hl
  rcases entry.problems_inside _ l hl with hnone | ⟨c, hfind, hfile, hline⟩
  · exact .inl hnone
  obtain ⟨hc, hname⟩ := (Hierarchy.ofProgram_linked program).find?_eq_some_iff.mp hfind
  by_cases hb : c.toRegistered ∈ Registry.builtIn.classes
  · obtain ⟨hbuiltIn, hzero⟩ := Registry.builtIn_place _ hb
    obtain ⟨n, hn, hat⟩ := hline
    rw [hzero n hn, Option.some.injEq] at hat
    exact .inr (.inl ⟨hname ▸ List.mem_map_of_mem hb, hfile.trans hbuiltIn, hat.symm⟩)
  · exact .inr (.inr ⟨c.decl, Hierarchy.declared_of_user hc hb, hfile, hline⟩)

theorem ClassTable.checkedClasses_inside (t : ClassTable) (cs : List ClassInfo) (n : Notes) :
    ∀ l ∈ (t.checkedClasses cs n).reports, ∃ c ∈ cs, l.Inside c.decl := by
  induction cs generalizing n with
  | nil =>
    intro l hl
    cases hl
  | cons c cs ih =>
    intro l hl
    rw [checkedClasses, Step.reports_bind] at hl
    rcases List.mem_append.mp hl with hl | hl
    · have hstands : Reported.Stands c.decl.file c.decl.Occupies
          (Context.checkedMembers ⟨t, c⟩ c.decl.members n) :=
        Context.checkedMembers_stands (fun _ hm => ClassDecl.member_on hm) n
      exact ⟨c, List.mem_cons_self, hstands l hl⟩
    · obtain ⟨d, hd, hinside⟩ := ih _ l hl
      exact ⟨d, List.mem_cons_of_mem c hd, hinside⟩

theorem Hierarchy.typing_inside {program : Option Program} :
    ∀ l ∈ (Hierarchy.ofProgram program).typing.reports,
      ∃ d, some d ∈ Program.declared program ∧ l.Inside d := by
  intro l hl
  obtain ⟨c, hc, hinside⟩ := ClassTable.checkedClasses_inside _ _ _ l hl
  obtain ⟨n, hn, rfl⟩ := List.mem_map.mp hc
  obtain ⟨horder, huser⟩ := List.mem_filter.mp hn
  have hmem := (ofProgram_linked program).mem_order.mp horder
  refine ⟨n.decl, declared_of_user hmem fun hb => ?_, hinside⟩
  have hbuiltIn : ∀ b ∈ Registry.builtIn.classes, b.isBuiltIn = true := by decide
  rw [hbuiltIn _ hb] at huser
  cases huser

/-! ### Missing operands -/

/-- Nothing is reported at an operand that is not there. It has the error type, without a report,
and the rules which report at an operand report nothing about one of that type. -/
structure Context.SparesMissing (cx : Context) : Prop where
  typed : ∀ vars n, cx.infer vars .absent n = pure (.error, n)
  index : (cx.indexed .absent .error).reports = []
  size : ∀ line elemName, (cx.arrayType line elemName .absent .error).reports =
    (cx.require (cx.table.knows (.plain elemName)) line (.undefinedElement elemName)).reports
  assigned : ∀ target name, (cx.assigned target .absent .error name).reports = []
  argument : ∀ method position param,
    (cx.argument method position .absent .error param).reports = []
  condition : ∀ place, (cx.condition place .absent .error).reports = []
  operand : ∀ line target, (cx.instanceOfType line target .absent .error).reports =
    (cx.askedFor line target).reports
  /-- What a rule reports is on the line of the expression or of a part that is there. -/
  own : ∀ vars storage e types,
    List.Forall₂ (fun part t => part = Expr.absent → t = Ty.error) e.parts types →
    ∀ r ∈ (cx.judgement vars storage e (types.map pure)).reports,
      r.line = e.line ∨ ∃ part ∈ e.parts, part ≠ .absent ∧ r.line = part.line

theorem Context.parts_found {cx : Context} {R : Located TypingProblem → Prop} {parts : List Expr}
    {types : List Ty}
    (h : List.Forall₂ (fun part t => part = Expr.absent → t = Ty.error) parts types)
    (hR : ∀ part ∈ parts, part ≠ .absent → cx.Permits R part.line) :
    List.Forall₂ (cx.PartFound R) parts (types.map pure) := by
  induction h with
  | nil => exact .nil
  | @cons part t parts types hpart _ ih =>
    obtain ⟨hfirst, hrest⟩ := List.forall_mem_cons.mp hR
    refine .cons ⟨Reported.only_pure t, ?_⟩ (ih hrest)
    by_cases habsent : part = .absent
    · rw [hpart habsent]
      exact .inl rfl
    · exact .inr (hfirst habsent)

theorem Context.sparesMissing (cx : Context) : cx.SparesMissing where
  typed := by
    intro vars n
    rw [Context.infer]
    rfl
  index := rfl
  size := fun line elemName => List.append_nil _
  assigned := by
    intro target name
    have haccepts := cx.table.accepts_of_isError target (t := .error) rfl
    rw [Context.assigned, haccepts]
    rfl
  argument := fun method position param => rfl
  condition := fun place => rfl
  operand := fun line target => List.append_nil _
  own := by
    intro vars storage e types htypes r hr
    have hfound := cx.parts_found
      (R := fun r => r.line = e.line ∨ ∃ part ∈ e.parts, part ≠ .absent ∧ r.line = part.line)
      htypes fun part hpart hthere _ _ => .inr ⟨part, hpart, hthere, rfl⟩
    exact judgement_only (fun _ _ => .inl rfl) hfound vars storage r hr

/-- Every diagnostic but those on a missing entry class or a built-in one is in the file of a class
of the program, on a line where the walk over that class visits a node. Nothing is reported at a
missing operand. -/
theorem diagnostics_stand_at_nodes (program : Option Program) (entry : EntryPoint) :
    let a := analyze program entry
    (∀ d ∈ a.diagnostics,
      (a.class? entry.className = none ∧ d.kind = .missingMain ∧ d.file = "" ∧ d.line = -1) ∨
      (entry.className ∈ Registry.builtIn.names ∧
        (d.kind = .missingMain ∨ d.kind = .malformedMain) ∧ d.file = "<built-in class>" ∧
        d.line = 0) ∨
      ∃ c, some c ∈ Program.declared program ∧ d.file = c.file ∧
        ∃ n ∈ c.tree.visited fun _ => true, n.line? = some d.line) ∧
    ∀ cx : Context, cx.SparesMissing := by
  intro a
  refine ⟨fun d hd => ?_, Context.sparesMissing⟩
  simp only [diagnostics_analyze, structuralDiagnostics, Reported.diagnostics, List.mem_append,
    List.mem_map, or_assoc, a] at hd
  rcases hd with ⟨l, hl, rfl⟩ | ⟨l, hl, rfl⟩ | ⟨l, hl, rfl⟩ | ⟨l, hl, rfl⟩ | ⟨l, hl, rfl⟩
  · exact .inr (.inr (Registry.register_inside _ _ l hl))
  · exact .inr (.inr (Hierarchy.ofRegistry_inside l hl))
  · obtain ⟨c, hc, hl⟩ := List.mem_flatMap.mp hl
    have hmem := (Hierarchy.ofProgram_linked program).mem_order.mp hc
    exact .inr (.inr ⟨c.decl, Hierarchy.members_inside hmem l hl⟩)
  · rcases entry.problems_place l hl with ⟨hnone, hplaced⟩ | ⟨hname, hplaced⟩ | hdeclared
    · refine .inl ⟨?_, hplaced⟩
      rw [Analysis.class?, table_analyze, ClassTable.find?_ofHierarchy, hnone, Option.map_none]
    · refine .inr (.inl ⟨hname, ?_, hplaced⟩)
      change l.problem.kind = _ ∨ l.problem.kind = _
      cases l.problem <;> simp [EntryProblem.kind]
    · exact .inr (.inr hdeclared)
  · exact .inr (.inr (Hierarchy.typing_inside l hl))

end ClassCheck
