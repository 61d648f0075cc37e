import ClassCheck.Proofs.Declarations
import ClassCheck.Proofs.MemberTables

/-!
# Which links are refused

A class is left without a link exactly if the parent it asks for is missing, sealed, or leads back
to the class. The search that finds out about the last ends on every graph of declared parents.
Nothing but a refused link is reported as illegal inheritance, once for each and in the order of
registration.
-/

namespace ClassCheck

namespace Registry

def Asks (r : Registry) (sub sup : String) : Prop :=
  ∃ c ∈ r.others, c.name = sub ∧ c.wantedParent = sup

inductive Refuses (r : Registry) (c : Registered) : HierarchyProblem → Prop where
  | missingParent : c.wantedParent ∉ r.names →
      Refuses r c (.missingParent c.name c.wantedParent)
  | sealedParent : c.wantedParent ∈ r.names → c.wantedParent ∈ ["String", "TextIO", "Sys"] →
      Refuses r c (.sealedParent c.name c.wantedParent)
  | cycle : c.wantedParent ∈ r.names → c.wantedParent ∉ ["String", "TextIO", "Sys"] →
      Relation.TransGen r.Asks c.name c.name → Refuses r c (.cycle c.name)

def refusal? (r : Registry) (c : Registered) : Option HierarchyProblem :=
  match r.resolveParent c with
  | .ok _ => none
  | .error problem => some problem

/-- A search for `target` along declared parents that turns back where it has been before. It gives
nothing if it is not over after so many steps. -/
def search (r : Registry) (target : Registered) : Nat → List Registered → Registered → Option Bool
  | 0, _, _ => none
  | n + 1, seen, c =>
      if c.isRoot then some false
      else if c.name = target.name then some true
      else if c.name ∈ seen.map (·.name) then some false
      else
        match r.find? c.wantedParent with
        | none => some false
        | some p => r.search target n (c :: seen) p

variable {r : Registry}

/-- The search for `target` has come to `c` by way of the classes seen. -/
structure Trail (r : Registry) (target : Registered) (seen : List Registered) (c : Registered) :
    Prop where
  mem : c ∈ r.classes
  seen_mem : ∀ s ∈ seen, s ∈ r.classes
  nodup : seen.Nodup
  missed : target ∉ seen
  onward : ∀ s ∈ seen, ∀ q, r.wanted? s = some q → q = c ∨ q ∈ seen

namespace Trail

variable {target c p : Registered} {seen : List Registered}

theorem start (hc : c ∈ r.classes) : r.Trail target [] c :=
  ⟨hc, by simp, .nil, by simp, by simp⟩

theorem step (trail : r.Trail target seen c) (hnew : c ∉ seen) (hc : c ≠ target)
    (hp : r.wanted? c = some p) : r.Trail target (c :: seen) p where
  mem := wanted?_mem hp
  seen_mem := by
    intro s hs
    rcases List.mem_cons.mp hs with rfl | hs
    · exact trail.mem
    · exact trail.seen_mem s hs
  nodup := List.nodup_cons.mpr ⟨hnew, trail.nodup⟩
  missed := by
    intro h
    rcases List.mem_cons.mp h with rfl | h
    · exact hc rfl
    · exact trail.missed h
  onward := by
    intro s hs q hq
    rcases List.mem_cons.mp hs with rfl | hs
    · exact Or.inl (Option.some.inj (hq.symm.trans hp))
    · right
      rcases trail.onward s hs q hq with rfl | h
      · exact List.mem_cons_self
      · exact List.mem_cons_of_mem c h

theorem length_le (trail : r.Trail target seen c) : seen.length ≤ r.classes.length :=
  (trail.nodup.subperm fun s hs => trail.seen_mem s hs).length_le

theorem not_reached (trail : r.Trail target seen c) (hc : c ∈ seen) (n : Nat) :
    follow r.wanted? n c ≠ some target := by
  have closed : ∀ a ∈ seen, ∀ b, r.wanted? a = some b → b ∈ seen := by
    intro a ha b hb
    rcases trail.onward a ha b hb with rfl | h
    · exact hc
    · exact h
  intro hn
  exact trail.missed (follow_mem closed hc hn)

end Trail

theorem follow_root {n : Nat} {c target : Registered} (hc : c.isRoot = true)
    (ht : target.isRoot = false) : follow r.wanted? n c ≠ some target := by
  intro hn
  cases n with
  | zero =>
    rw [Option.some.inj hn, ht] at hc
    cases hc
  | succ n => simp [follow_succ, wanted?, hc] at hn

theorem search_spec (sound : r.Sound) {target : Registered} (ht : target ∈ r.others) {n : Nat}
    {seen : List Registered} {c : Registered} (trail : r.Trail target seen c)
    (hn : r.classes.length < n + seen.length) :
    ∃ found, r.search target n seen c = some found ∧
      (found = true ↔ ∃ m, follow r.wanted? m c = some target) := by
  induction n generalizing seen c with
  | zero =>
    have hlength := trail.length_le
    omega
  | succ n ih =>
    have htarget := sound.others_not_root target ht
    simp only [search]
    split_ifs with hroot hname hseen
    · exact ⟨false, rfl, by simpa using fun m => follow_root hroot htarget⟩
    · have heq := sound.eq_of_name trail.mem (others_subset ht) hname
      exact ⟨true, rfl, by simpa using ⟨0, congrArg some heq⟩⟩
    · obtain ⟨s, hs, hsc⟩ := List.mem_map.mp hseen
      have heq := sound.eq_of_name (trail.seen_mem s hs) trail.mem hsc
      exact ⟨false, rfl, by simpa using trail.not_reached (heq ▸ hs)⟩
    · have hc : c ≠ target := fun h => hname (congrArg Registered.name h)
      have hstep : r.wanted? c = r.find? c.wantedParent := by simp [wanted?, hroot]
      -- the target is none of the classes so far, so it is reached from the next one or not at all
      have hnext : (∃ m, follow r.wanted? m c = some target) ↔
          ∃ m, (r.wanted? c).bind (follow r.wanted? m) = some target := by
        constructor
        · rintro ⟨_ | m, hm⟩
          · exact absurd (Option.some.inj hm) hc
          · exact ⟨m, hm⟩
        · rintro ⟨m, hm⟩
          exact ⟨m + 1, hm⟩
      cases hp : r.find? c.wantedParent with
      | none => exact ⟨false, rfl, by simp [hnext, hstep, hp]⟩
      | some p =>
        have hnew : c ∉ seen := fun h => hseen (List.mem_map_of_mem h)
        have hlonger : r.classes.length < n + (c :: seen).length := by
          rw [List.length_cons]
          omega
        obtain ⟨found, hfound, hiff⟩ := ih (trail.step hnew hc (hstep.trans hp)) hlonger
        refine ⟨found, hfound, ?_⟩
        simp only [hiff, hnext, hstep, hp, Option.bind_some]

/-- The search is over after as many steps as there are classes, and agrees with the cycle test. -/
theorem search_eq_leadsTo (sound : r.Sound) {start target : Registered} (hs : start ∈ r.classes)
    (ht : target ∈ r.others) :
    r.search target (r.classes.length + 1) [] start = some (r.leadsTo start target) := by
  obtain ⟨found, hfound, hiff⟩ := search_spec sound ht (Trail.start hs)
    (show r.classes.length < r.classes.length + 1 + ([] : List Registered).length by simp)
  have hsame : found = r.leadsTo start target := by
    rw [Bool.eq_iff_iff, hiff, leadsTo_iff sound hs ht]
  rw [hfound, hsame]

namespace Sound

variable (sound : r.Sound)
include sound

theorem wanted?_iff_asks {c p : Registered} (hc : c ∈ r.classes) (hp : p ∈ r.classes) :
    r.wanted? c = some p ↔ r.Asks c.name p.name := by
  rw [wanted?_eq_some_iff, sound.find?_eq_some_iff]
  constructor
  · rintro ⟨hroot, -, hname⟩
    rcases List.mem_cons.mp hc with rfl | ho
    · cases hroot
    · exact ⟨c, ho, rfl, hname.symm⟩
  · rintro ⟨d, hd, hdc, hname⟩
    obtain rfl := sound.eq_of_name (others_subset hd) hc hdc
    exact ⟨sound.others_not_root d hd, hp, hname.symm⟩

theorem transGen_asks_iff {c p : Registered} (hc : c ∈ r.classes) (hp : p ∈ r.classes) :
    Relation.TransGen r.Asks c.name p.name ↔ ∃ n, follow r.wanted? (n + 1) c = some p := by
  refine transGen_name_iff (fun _ _ _ h => wanted?_mem h)
    (fun a ha b hb => sound.wanted?_iff_asks ha hb) ?_ hc hp
  rintro x y ⟨d, hd, rfl, -⟩
  exact ⟨d, others_subset hd, rfl⟩

theorem cycle_iff {c p : Registered} (hc : c ∈ r.others) (hp : r.find? c.wantedParent = some p) :
    Relation.TransGen r.Asks c.name c.name ↔ r.leadsTo p c = true := by
  have hmem := others_subset hc
  have hwanted : r.wanted? c = some p :=
    wanted?_eq_some_iff.mpr ⟨sound.others_not_root c hc, hp⟩
  rw [sound.transGen_asks_iff hmem hmem, leadsTo_iff sound (wanted?_mem hwanted) hc]
  simp only [follow_succ, hwanted, Option.bind_some]

theorem asks_deterministic {n m m' : String} (h : r.Asks n m) (h' : r.Asks n m') : m = m' := by
  obtain ⟨c, hc, hcn, rfl⟩ := h
  obtain ⟨d, hd, hdn, rfl⟩ := h'
  rw [sound.eq_of_name (others_subset hc) (others_subset hd) (hcn.trans hdn.symm)]

theorem not_asks_root {m : String} : ¬ r.Asks BuiltIn.rootName m := by
  rintro ⟨c, hc, hname, -⟩
  have hroot : c = BuiltIn.root := sound.eq_of_name (others_subset hc) r.root_mem hname
  have hnot := sound.others_not_root c hc
  rw [hroot] at hnot
  cases hnot

end Sound

theorem ofProgram_isExtendable_iff {program : Option Program} {c : Registered}
    (hc : c ∈ (ofProgram program).value.classes) :
    c.isExtendable = true ↔ c.name ∉ ["String", "TextIO", "Sys"] := by
  rcases List.mem_cons.mp hc with rfl | ho
  · decide
  rcases mem_register_others.mp ho with hb | ⟨d, rfl, -, hnew⟩
  · have hlibrary : ∀ b ∈ builtIn.others,
        b.isExtendable = true ↔ b.name ∉ ["String", "TextIO", "Sys"] := by decide
    exact hlibrary c hb
  · exact iff_of_true rfl fun h => hnew (List.mem_cons_of_mem _ h)

theorem ofProgram_sealed_asks {program : Option Program} {n m : String}
    (hn : n ∈ ["String", "TextIO", "Sys"]) (h : (ofProgram program).value.Asks n m) :
    m = BuiltIn.rootName := by
  have hlibrary : ∀ n ∈ ["String", "TextIO", "Sys"],
      ∃ b ∈ builtIn.others, b.name = n ∧ b.wantedParent = BuiltIn.rootName := by decide
  obtain ⟨b, hb, hbn, hbm⟩ := hlibrary n hn
  have hasks : (ofProgram program).value.Asks n BuiltIn.rootName :=
    ⟨b, mem_register_others.mpr (Or.inl hb), hbn, hbm⟩
  exact (ofProgram_sound program).asks_deterministic h hasks

theorem refusal?_eq_some_iff {program : Option Program} {c : Registered}
    (hc : c ∈ (ofProgram program).value.others) {problem : HierarchyProblem} :
    (ofProgram program).value.refusal? c = some problem ↔
      (ofProgram program).value.Refuses c problem := by
  have sound := ofProgram_sound program
  rw [refusal?, resolveParent]
  cases hp : (ofProgram program).value.find? c.wantedParent with
  | none =>
    have hmissing := find?_eq_none_iff.mp hp
    constructor
    · intro h
      obtain rfl := Option.some.inj h
      exact .missingParent hmissing
    · rintro (_ | hthere | hthere)
      · rfl
      · exact absurd hthere hmissing
      · exact absurd hthere hmissing
  | some p =>
    have hthere := mem_names_of_find? hp
    obtain ⟨hmem, hname⟩ := sound.find?_eq_some_iff.mp hp
    have hopen := ofProgram_isExtendable_iff hmem
    rw [hname] at hopen
    have hcycle := sound.cycle_iff hc hp
    cases he : p.isExtendable with
    | false =>
      have hsealed : c.wantedParent ∈ ["String", "TextIO", "Sys"] := by
        by_contra h
        rw [hopen.mpr h] at he
        cases he
      constructor
      · intro h
        obtain rfl : HierarchyProblem.sealedParent c.name c.wantedParent = problem := by
          simpa [he] using h
        exact .sealedParent hthere hsealed
      · rintro (hmissing | _ | ⟨-, hno⟩)
        · exact absurd hthere hmissing
        · simp [he]
        · exact absurd hsealed hno
    | true =>
      have hno := hopen.mp he
      cases hl : (ofProgram program).value.leadsTo p c with
      | false =>
        constructor
        · simp [he, hl]
        · rintro (hmissing | ⟨-, hsealed⟩ | ⟨-, -, hback⟩)
          · exact absurd hthere hmissing
          · exact absurd hsealed hno
          · rw [hcycle, hl] at hback
            cases hback
      | true =>
        constructor
        · intro h
          obtain rfl : HierarchyProblem.cycle c.name = problem := by simpa [he, hl] using h
          exact .cycle hthere hno (hcycle.mpr hl)
        · rintro (hmissing | ⟨-, hsealed⟩ | _)
          · exact absurd hthere hmissing
          · exact absurd hsealed hno
          · simp [he, hl]

/-- A class that leads into a cycle it is not on is refused for no reason at all. -/
theorem refusal?_below_cycle {program : Option Program} {c : Registered}
    (hc : c ∈ (ofProgram program).value.others) {n : String}
    (hbelow : Relation.TransGen (ofProgram program).value.Asks c.name n)
    (hcycle : Relation.TransGen (ofProgram program).value.Asks n n)
    (hoff : ¬ Relation.TransGen (ofProgram program).value.Asks c.name c.name) :
    (ofProgram program).value.refusal? c = none := by
  have sound := ofProgram_sound program
  have hasks : (ofProgram program).value.Asks c.name c.wantedParent := ⟨c, hc, rfl, rfl⟩
  -- the declared parent asks for a parent in its turn, be it on the cycle or on the way to it
  have honward : ∃ m, (ofProgram program).value.Asks c.wantedParent m ∧
      Relation.ReflTransGen (ofProgram program).value.Asks m n := by
    obtain ⟨m, hm, hmn⟩ := Relation.TransGen.head'_iff.mp hbelow
    rw [sound.asks_deterministic hasks hm]
    rcases Relation.ReflTransGen.cases_head hmn with rfl | h
    · exact Relation.TransGen.head'_iff.mp hcycle
    · exact h
  obtain ⟨m, hm, hmn⟩ := honward
  rw [Option.eq_none_iff_forall_ne_some]
  intro problem hproblem
  rcases (refusal?_eq_some_iff hc).mp hproblem with hmissing | ⟨-, hsealed⟩ | ⟨-, -, hback⟩
  · obtain ⟨d, hd, hname, -⟩ := hm
    exact hmissing (hname ▸ List.mem_map_of_mem (others_subset hd))
  · -- below a sealed class there is only the root, which is on no cycle
    obtain rfl := ofProgram_sealed_asks hsealed hm
    rcases Relation.ReflTransGen.cases_head hmn with rfl | ⟨k, hk, -⟩
    · obtain ⟨k, hk, -⟩ := Relation.TransGen.head'_iff.mp hcycle
      exact sound.not_asks_root hk
    · exact sound.not_asks_root hk
  · exact hoff hback

section Reports

theorem link_reports (c : Registered) :
    (r.link c).reports =
      ((r.refusal? c).map fun problem => ⟨c.decl.file, c.decl.line, problem⟩).toList := by
  rw [link, refusal?]
  cases r.resolveParent c <;> rfl

theorem link_parent {c : Registered} (hnone : r.refusal? c = none) :
    (r.link c).value.parent = some c.wantedParent := by
  rw [link_parent_eq_some_iff]
  rw [refusal?] at hnone
  cases ho : r.resolveParent c with
  | error problem => simp [ho] at hnone
  | ok q =>
    have hq := (resolveParent_eq_ok_iff.mp ho).1
    exact ⟨q, rfl, by simpa using List.find?_some hq⟩

theorem link_parent_none {c : Registered} {problem : HierarchyProblem}
    (hsome : r.refusal? c = some problem) : (r.link c).value.parent = none := by
  rw [refusal?] at hsome
  rw [link]
  cases ho : r.resolveParent c with
  | error problem => rfl
  | ok q => simp [ho] at hsome

theorem refusal?_kind {c : Registered} {problem : HierarchyProblem}
    (hsome : r.refusal? c = some problem) : problem.kind = .illegalInheritance := by
  rw [refusal?, resolveParent] at hsome
  cases hp : r.find? c.wantedParent with
  | none =>
    rw [hp] at hsome
    exact Option.some.inj hsome ▸ rfl
  | some p =>
    cases he : p.isExtendable <;> cases hl : r.leadsTo p c <;> simp [hp, he, hl] at hsome <;>
      exact hsome ▸ rfl

theorem register_kind (r : Registry) (ds : List (Option ClassDecl)) :
    ∀ l ∈ (r.register ds).reports, l.problem.kind = .duplicateDefinition := by
  induction ds generalizing r with
  | nil => simp [register]
  | cons o ds ih =>
    cases o with
    | none => exact ih r
    | some d =>
      cases hd : r.find? d.name with
      | none =>
        rw [register_new hd]
        exact ih _
      | some old =>
        intro l hl
        rw [register_old hd, Reported.reports_bind] at hl
        rcases List.mem_append.mp hl with hl | hl
        · rw [List.mem_singleton.mp hl, redefinition]
          split_ifs <;> rfl
        · exact ih r l hl

theorem register_others (r : Registry) (ds : List (Option ClassDecl)) :
    ∃ taken : List ClassDecl, taken.Sublist (ds.filterMap id) ∧
      (r.register ds).value.others = r.others ++ taken.map fun d => ⟨d, .user⟩ := by
  induction ds generalizing r with
  | nil => exact ⟨[], .slnil, (List.append_nil _).symm⟩
  | cons o ds ih =>
    cases o with
    | none => exact ih r
    | some d =>
      cases hd : r.find? d.name with
      | none =>
        obtain ⟨taken, hsub, heq⟩ := ih (r.add ⟨d, .user⟩)
        refine ⟨d :: taken, hsub.cons_cons d, ?_⟩
        rw [register_new hd, heq]
        simp [add]
      | some old =>
        obtain ⟨taken, hsub, heq⟩ := ih r
        refine ⟨taken, hsub.cons d, ?_⟩
        rw [register_old hd]
        exact heq

end Reports

end Registry

theorem filter_diagnostics_eq_nil {π : Type} [Explained π] {k : Diagnostic.Kind}
    {ls : List (Located π)}
    (hne : ∀ l ∈ ls, Explained.kind l.problem ≠ k) :
    (ls.map Located.diagnostic).filter (·.kind == k) = [] := by
  rw [List.filter_eq_nil_iff]
  intro d hd
  obtain ⟨l, hl, rfl⟩ := List.mem_map.mp hd
  simpa [Located.diagnostic] using hne l hl

theorem Hierarchy.ofRegistry_diagnostics (r : Registry) :
    (ofRegistry r).diagnostics = r.others.filterMap fun c =>
      (r.refusal? c).map fun problem => Located.diagnostic ⟨c.decl.file, c.decl.line, problem⟩ := by
  have hreports : (ofRegistry r).reports = r.others.flatMap fun c => (r.link c).reports := by
    simp [ofRegistry, Reported.forEach]
  rw [Reported.diagnostics, hreports, List.map_flatMap, List.filterMap_eq_flatMap_toList]
  congr 1
  funext c
  rw [Registry.link_reports]
  cases r.refusal? c <;> rfl

theorem MemberProblem.kind_ne (problem : MemberProblem) : problem.kind ≠ .illegalInheritance := by
  cases problem <;> simp [kind]

theorem EntryProblem.kind_ne (problem : EntryProblem) : problem.kind ≠ .illegalInheritance := by
  cases problem <;> simp [kind]

theorem TypingProblem.kind_ne (problem : TypingProblem) : problem.kind ≠ .illegalInheritance := by
  cases problem <;> simp [kind]

theorem filter_illegalInheritance (program : Option Program) (entry : EntryPoint) :
    (analyze program entry).diagnostics.filter (·.kind == .illegalInheritance) =
      (Hierarchy.ofRegistry (Registry.ofProgram program).value).diagnostics := by
  have hregistry : (Registry.ofProgram program).diagnostics.filter
      (·.kind == .illegalInheritance) = [] := by
    refine filter_diagnostics_eq_nil fun l hl h => ?_
    have hkind := Registry.register_kind _ _ l hl
    rw [show l.problem.kind = _ from h] at hkind
    cases hkind
  have hlinks : (Hierarchy.ofRegistry (Registry.ofProgram program).value).diagnostics.filter
      (·.kind == .illegalInheritance) =
        (Hierarchy.ofRegistry (Registry.ofProgram program).value).diagnostics := by
    rw [Hierarchy.ofRegistry_diagnostics, List.filter_eq_self]
    intro d hd
    obtain ⟨c, -, hc⟩ := List.mem_filterMap.mp hd
    obtain ⟨problem, hproblem, rfl⟩ := Option.map_eq_some_iff.mp hc
    exact beq_iff_eq.mpr (Registry.refusal?_kind hproblem)
  simp only [diagnostics_analyze, structuralDiagnostics, Reported.diagnostics, List.filter_append]
  rw [filter_diagnostics_eq_nil fun l _ => EntryProblem.kind_ne l.problem,
    filter_diagnostics_eq_nil fun l _ => TypingProblem.kind_ne l.problem,
    filter_diagnostics_eq_nil fun l _ => MemberProblem.kind_ne l.problem]
  rw [Reported.diagnostics] at hregistry hlinks
  rw [hregistry, hlinks]
  simp

/-- A class is linked to the parent it names, or to none and then for the first of three reasons,
reported once. A class below a cycle is linked like any other, and the search for cycles ends. -/
theorem illegal_inheritance_exact (program : Option Program) (entry : EntryPoint) :
    let r := (Registry.ofProgram program).value
    let a := analyze program entry
    a.diagnostics.filter (·.kind == .illegalInheritance) = (r.others.filterMap fun c =>
        (r.refusal? c).map fun problem =>
          Located.diagnostic ⟨c.decl.file, c.decl.line, problem⟩) ∧
      (∃ taken : List ClassDecl, taken.Sublist (((program.map (·.classes)).getD []).filterMap id) ∧
        r.others = Registry.builtIn.others ++ taken.map fun d => ⟨d, .user⟩) ∧
      (∀ c ∈ r.others,
        (∀ problem, r.refusal? c = some problem ↔ r.Refuses c problem) ∧
        ∃ info, a.class? c.name = some info ∧ info.toRegistered = c ∧
          (r.refusal? c = none →
            ∃ p, a.table.parent? info = some p ∧ p.name = c.wantedParent) ∧
          (r.refusal? c ≠ none → info.parent = none)) ∧
      (∀ c ∈ r.others, ∀ n, Relation.TransGen r.Asks c.name n → Relation.TransGen r.Asks n n →
        ¬ Relation.TransGen r.Asks c.name c.name → r.refusal? c = none) ∧
      ∀ start ∈ r.classes, ∀ target ∈ r.others,
        r.search target (r.classes.length + 1) [] start = some (r.leadsTo start target) := by
  intro r a
  have sound : r.Sound := Registry.ofProgram_sound program
  have linked := Hierarchy.ofProgram_linked program
  refine ⟨(filter_illegalInheritance program entry).trans (Hierarchy.ofRegistry_diagnostics r),
    Registry.register_others _ _, fun c hc => ⟨fun problem => Registry.refusal?_eq_some_iff hc, ?_⟩,
    fun c hc n hbelow hcycle hoff => Registry.refusal?_below_cycle hc hbelow hcycle hoff,
    fun start hs target ht => Registry.search_eq_leadsTo sound hs ht⟩
  have hnode := Registry.link_toRegistered (r := r) c
  have hmem : (r.link c).value ∈ (Hierarchy.ofProgram program).classes :=
    List.mem_cons_of_mem _ (Hierarchy.mem_ofRegistry_others.mpr ⟨c, hc, rfl⟩)
  have hfind : (Hierarchy.ofProgram program).find? c.name = some (r.link c).value :=
    linked.find?_eq_some_iff.mpr ⟨hmem, congrArg Registered.name hnode⟩
  refine ⟨(Hierarchy.ofProgram program).classInfo (r.link c).value, ?_, hnode, ?_, ?_⟩
  · rw [Analysis.class?, table_analyze, ClassTable.find?_ofHierarchy, hfind, Option.map_some]
  · intro hnone
    have hparent := Registry.link_parent hnone
    obtain ⟨p, hp, hname⟩ := linked.parent_exists _ hmem _ hparent
    refine ⟨(Hierarchy.ofProgram program).classInfo p, ?_, hname⟩
    rw [table_analyze, ClassTable.parent?_ofHierarchy, Hierarchy.parent?, hparent,
      Option.bind_some, linked.find?_eq_some_iff.mpr ⟨hp, hname⟩, Option.map_some]
  · intro hrefused
    obtain ⟨problem, hproblem⟩ := Option.ne_none_iff_exists'.mp hrefused
    exact Registry.link_parent_none hproblem

end ClassCheck
