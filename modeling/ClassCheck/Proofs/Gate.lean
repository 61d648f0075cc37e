import ClassCheck.Compilation
import ClassCheck.Proofs.Traversal

/-! The gate to the generator. A program is handed over once and only if nothing was reported, and
then every expression of it has a type that code can be made for: each place where typing goes on
with the error type in silence lies behind a report of some phase. -/

namespace ClassCheck

/-- The types that code is made for: void, null, and the values and arrays of primitive and class
types. -/
def Ty.Concrete (table : ClassTable) (t : Ty) : Prop :=
  t = .void ∨ t = .null ∨ ∃ u, (u = .int ∨ u = .boolean ∨ ∃ c ∈ table.classes, u = c.type) ∧
    (t = u ∨ t = u.arrayOf)

def Ty.Resolved (table : ClassTable) (t : Ty) : Prop :=
  (t = .void ∨ t = .null ∨ table.knows t = true) ∧ t.isError = false

theorem Ty.eq_or_eq_arrayOf {t u : Ty} (h : t.name = u.name) (hu : u.isArray = false) :
    t = u ∨ t = u.arrayOf := by
  cases t with
  | mk name isArray =>
    cases u with
    | mk name' isArray' =>
      subst h hu
      cases isArray
      · exact Or.inl rfl
      · exact Or.inr rfl

theorem ClassTable.concrete_of_knows {table : ClassTable} {t : Ty} (ht : table.knows t = true) :
    ∃ u, (u = .int ∨ u = .boolean ∨ ∃ c ∈ table.classes, u = c.type) ∧
      (t = u ∨ t = u.arrayOf) := by
  rw [knows, Ty.isKnown, Bool.or_eq_true, List.contains_iff_mem] at ht
  rcases ht with hprim | hclass
  · rw [Ty.isPrimitiveName, Bool.or_eq_true, beq_iff_eq, beq_iff_eq] at hprim
    rcases hprim with hint | hbool
    · exact ⟨.int, Or.inl rfl, Ty.eq_or_eq_arrayOf hint rfl⟩
    · exact ⟨.boolean, Or.inr (Or.inl rfl), Ty.eq_or_eq_arrayOf hbool rfl⟩
  · obtain ⟨c, hc, hname⟩ := List.mem_map.mp hclass
    exact ⟨c.type, Or.inr (Or.inr ⟨c, hc, rfl⟩), Ty.eq_or_eq_arrayOf hname.symm rfl⟩

theorem Ty.Resolved.concrete {table : ClassTable} {t : Ty} (ht : t.Resolved table) :
    t.Concrete table := by
  rcases ht.1 with h | h | h
  · exact Or.inl h
  · exact Or.inr (Or.inl h)
  · exact Or.inr (Or.inr (ClassTable.concrete_of_knows h))

theorem Ty.Resolved.named?_isSome {table : ClassTable} {t : Ty} (ht : t.Resolved table)
    (hclass : t.isClass = true) : (table.named? t).isSome = true := by
  rcases ht.1 with rfl | rfl | hk
  · cases hclass
  · cases hclass
  · exact ClassTable.named?_isSome hclass hk

theorem ClassTable.knows_not_error {table : ClassTable}
    (hnames : ∀ c ∈ table.classes, c.name ≠ "<error>") {t : Ty} (ht : table.knows t = true) :
    t.isError = false := by
  cases herror : t.isError with
  | false => rfl
  | true =>
    have hname : t.name = "<error>" := eq_of_beq herror
    rw [knows, Ty.isKnown, hname, Bool.or_eq_true, List.contains_iff_mem] at ht
    rcases ht with hprim | hclass
    · simp [Ty.isPrimitiveName] at hprim
    · obtain ⟨c, hc, hcname⟩ := List.mem_map.mp hclass
      exact absurd hcname (hnames c hc)

theorem Ty.resolved_admissible {table : ClassTable}
    (hnames : ∀ c ∈ table.classes, c.name ≠ "<error>")
    (hs : table.knows (.plain BuiltIn.stringName) = true) :
    Admissible table (Ty.Resolved table) where
  void := ⟨Or.inl rfl, rfl⟩
  null := ⟨Or.inr (Or.inl rfl), rfl⟩
  string := ⟨Or.inr (Or.inr hs), rfl⟩
  known := fun t ht => ⟨Or.inr (Or.inr ht), ClassTable.knows_not_error hnames ht⟩
  elem := by
    intro t ht harray
    rcases ht.1 with rfl | rfl | hk
    · cases harray
    · cases harray
    · exact ⟨Or.inr (Or.inr (ClassTable.knows_elem hk)), ht.2⟩
  erroneous := by
    intro t ht herror
    rw [ht.2] at herror
    cases herror
  named := fun _ ht hclass => Or.inr (ht.named?_isSome hclass)

namespace Hierarchy

theorem ofProgram_name_ne {p : Program}
    (hnames : ∀ c, some c ∈ p.classes → c.name ≠ "<error>") {c : ClassNode}
    (hc : c ∈ (ofProgram (some p)).classes) : c.name ≠ "<error>" := by
  have hreg := ofRegistry_mem_registered hc
  rcases List.mem_cons.mp hreg with hroot | ho
  · change c.toRegistered.name ≠ "<error>"
    rw [hroot]
    decide
  · rcases Registry.mem_register_others.mp ho with hb | ⟨d, hd, hfirst, -⟩
    · have hall : ∀ b ∈ Registry.builtIn.others, b.name ≠ "<error>" := by
        intro b hb
        simp only [Registry.builtIn, List.mem_cons, List.not_mem_nil, or_false] at hb
        rcases hb with rfl | rfl | rfl <;> decide
      exact hall _ hb
    · change c.toRegistered.name ≠ "<error>"
      rw [hd]
      exact hnames d hfirst.mem

theorem ofProgram_table_name_ne {p : Program}
    (hnames : ∀ c, some c ∈ p.classes → c.name ≠ "<error>") :
    ∀ c ∈ (ClassTable.ofHierarchy (ofProgram (some p))).classes, c.name ≠ "<error>" := by
  intro c hc
  rw [ClassTable.classes_ofHierarchy] at hc
  obtain ⟨n, hn, rfl⟩ := List.mem_map.mp hc
  exact ofProgram_name_ne hnames hn

theorem serves_resolved {p : Program} (hnames : ∀ c, some c ∈ p.classes → c.name ≠ "<error>")
    (quiet : (ofRegistry (Registry.ofProgram (some p)).value).reports = []) {c : ClassNode}
    (hc : c ∈ (ofProgram (some p)).others) :
    Context.Serves ⟨.ofHierarchy (ofProgram (some p)), (ofProgram (some p)).classInfo c⟩
      (Ty.Resolved (.ofHierarchy (ofProgram (some p)))) := by
  have hcc : c ∈ (ofProgram (some p)).classes := List.mem_cons_of_mem _ hc
  have hparent : ((ofProgram (some p)).parent? c).isSome = true := by
    rw [Option.isSome_iff_ne_none]
    intro hnone
    have linked := ofProgram_linked (some p)
    exact ofRegistry_parent quiet hc ((linked.parent?_eq_none_iff hcc).mp hnone)
  refine (Ty.resolved_admissible (ofProgram_table_name_ne hnames) ?_).serves hcc (Or.inr hparent)
  rw [ClassTable.knows_ofHierarchy]
  exact ofProgram_knows_string (some p)

end Hierarchy

theorem quiet_notes_resolved {p : Program}
    (hnames : ∀ c, some c ∈ p.classes → c.name ≠ "<error>") {entry : EntryPoint}
    (quiet : Quiet (some p) entry) :
    (analyze (some p) entry).notes.Within (Ty.Resolved (analyze (some p) entry).table) := by
  have hserves : ∀ c ∈ (analyze (some p) entry).order.filter (!·.isBuiltIn),
      Context.Serves ⟨(analyze (some p) entry).table, c⟩
        (Ty.Resolved (analyze (some p) entry).table) := by
    intro c hc
    obtain ⟨hco, huser⟩ := List.mem_filter.mp hc
    obtain ⟨n, hn, rfl⟩ := mem_analyze_order.mp hco
    rw [table_analyze]
    rcases List.mem_cons.mp hn with rfl | ho
    · cases huser
    · exact Hierarchy.serves_resolved hnames quiet.links ho
  exact (Keeps.checkedClasses hserves Notes.empty (Notes.Within.empty _) (Or.inr quiet.typing)).1

theorem quiet_has_visited {p : Program} {entry : EntryPoint} (quiet : Quiet (some p) entry)
    {e : Expr} (he : e ∈ p.exprs) : (analyze (some p) entry).notes.Has e := by
  rw [has_analyze_notes_iff]
  rw [Program.exprs_eq, List.mem_flatMap] at he
  obtain ⟨d, hd, hed⟩ := he
  have hmem : some d ∈ p.classes := by simpa using hd
  have hnodup := (Registry.register_reports_eq_nil_iff Registry.builtIn_sound.names_nodup).mp
    quiet.registration
  obtain ⟨hfirst, hname⟩ := Registry.firstDeclared_of_nodup hnodup hmem
  exact ⟨d, hfirst, hname, hed⟩

namespace MultiError

variable {ε : Type} {errors : MultiError ε}

theorem fold_eq_none_iff {ds : List Diagnostic} : errors.fold ds = none ↔ ds = [] := by
  have hsome : ∀ (ds : List Diagnostic) (e : ε), ∃ e',
      ds.foldl (fun e d => some (errors.append e d)) (some e) = some e' := by
    intro ds
    induction ds with
    | nil => exact fun e => ⟨e, rfl⟩
    | cons d ds ih => exact fun e => ih (errors.append (some e) d)
  cases ds with
  | nil => simp [fold]
  | cons d ds =>
    obtain ⟨e, he⟩ := hsome ds (errors.append none d)
    simp [fold, he]

theorem Appends.wrapped_fold (appends : errors.Appends) {ds : List Diagnostic} {e : ε}
    (he : errors.fold ds = some e) : errors.wrapped e = ds := by
  have hfold : ∀ (ds : List Diagnostic) (first : Option ε),
      ((ds.foldl (fun e d => some (errors.append e d)) first).map errors.wrapped).getD [] =
        (first.map errors.wrapped).getD [] ++ ds := by
    intro ds
    induction ds with
    | nil => simp
    | cons d ds ih =>
      intro first
      rw [List.foldl_cons, ih, Option.map_some, Option.getD_some, appends.wrapped_append,
        List.append_assoc, List.singleton_append]
  have hall := hfold ds none
  rwa [← fold, he] at hall

theorem plain_appends : plain.Appends := ⟨fun e _ => by cases e <;> rfl⟩

end MultiError

/-- The generator, with a record of what it is called with. -/
def Generator.recorded {σ : Type} (generate : Generator σ) :
    Generator (σ × List (Program × Analysis)) :=
  fun p a s => (((generate p a).run s.1).1, (((generate p a).run s.1).2, s.2 ++ [(p, a)]))

section Compile

variable {ε σ : Type} {errors : MultiError ε} {p : Program} {entry : EntryPoint}

theorem compile_refused {error : ε}
    (refused : errors.fold (analyze (some p) entry).diagnostics = some error)
    (generator : Option (Generator σ)) (s : σ) :
    let a := analyze (some p) entry
    (compile errors (some p) generator entry).run s = (⟨some a, some (.semantic error),
      "compiler: start semantic analysis" :: a.progress⟩, s) := by
  simp only [compile, refused]
  rfl

theorem compile_analyzed (accepted : (analyze (some p) entry).diagnostics = []) (s : σ) :
    let a := analyze (some p) entry
    (compile errors (some p) none entry).run s =
      (⟨some a, none, "compiler: start semantic analysis" :: a.progress⟩, s) := by
  simp only [compile, MultiError.fold_eq_none_iff.mpr accepted]
  rfl

theorem compile_generated (accepted : (analyze (some p) entry).diagnostics = [])
    (generate : Generator σ) (s : σ) :
    let a := analyze (some p) entry
    (compile errors (some p) (some generate) entry).run s =
      (⟨some a, ((generate p a).run s).1.map .generator,
        "compiler: start semantic analysis" :: a.progress ++ ["compiler: start generate codes"]⟩,
        ((generate p a).run s).2) := by
  simp only [compile, MultiError.fold_eq_none_iff.mpr accepted]
  rfl

end Compile

theorem quiet_typed {p : Program} (hnames : ∀ c, some c ∈ p.classes → c.name ≠ "<error>")
    {entry : EntryPoint} (quiet : Quiet (some p) entry) {e : Expr} (he : e ∈ p.exprs) :
    let a := analyze (some p) entry
    ∃ t, a.typeOf? e = some t ∧ t.isError = false ∧ t.Concrete a.table := by
  obtain ⟨t, ht⟩ := Option.isSome_iff_exists.mp (quiet_has_visited quiet he)
  have hresolved := quiet_notes_resolved hnames quiet e t ht
  exact ⟨t, ht, hresolved.2, hresolved.concrete⟩

/-- An accepted program is handed to the generator once, and its answer and its new state are those
of the compilation; every expression it meets has a type that code can be made for. A program that
is not accepted never gets there: the state stays as it is, and the reports come back wrapped in one
error, all of them and in order. -/
theorem generator_gate {ε σ : Type} (errors : MultiError ε) (appends : errors.Appends)
    (p : Program) (hnames : ∀ c, some c ∈ p.classes → c.name ≠ "<error>")
    (generator : Option (Generator σ)) (entry : EntryPoint) (s : σ) :
    let a := analyze (some p) entry
    let out := (compile errors (some p) generator entry).run s
    let recorded := (compile errors (some p) (generator.map Generator.recorded) entry).run (s, [])
    let calls := recorded.2.2
    (recorded.1 = out.1 ∧ recorded.2.1 = out.2) ∧
    calls.length ≤ 1 ∧
    (calls ≠ [] ↔ generator.isSome = true ∧ a.diagnostics = []) ∧
    (∀ call ∈ calls, call = (p, a) ∧
      ∀ e ∈ p.exprs, ∃ t, call.2.typeOf? e = some t ∧ t.isError = false ∧ t.Concrete a.table) ∧
    (a.diagnostics = [] → out.1.analysis = some a ∧
      (generator = none → out.1.error = none ∧ out.2 = s) ∧
      ∀ generate, generator = some generate →
        out.1.error = ((generate p a).run s).1.map .generator ∧
        out.2 = ((generate p a).run s).2) ∧
    (a.diagnostics ≠ [] → out.1.analysis = some a ∧ out.2 = s ∧
      ∃ error, out.1.error = some (.semantic error) ∧ errors.wrapped error = a.diagnostics) := by
  intro a out recorded calls
  by_cases accepted : a.diagnostics = []
  · have quiet : Quiet (some p) entry := diagnostics_eq_nil_iff.mp accepted
    cases generator with
    | none =>
      have hout : out = _ := compile_analyzed accepted s
      have hrecorded : recorded = _ := compile_analyzed accepted (s, [])
      simp [calls, hout, hrecorded, accepted, a]
    | some generate =>
      have hout : out = _ := compile_generated accepted generate s
      have hrecorded : recorded = _ := compile_generated accepted generate.recorded (s, [])
      have hcalls : calls = [(p, a)] := by
        rw [show calls = recorded.2.2 from rfl, hrecorded]
        rfl
      refine ⟨by rw [hrecorded, hout]; exact ⟨rfl, rfl⟩, by simp [hcalls],
        by simp [hcalls, accepted], ?_, ?_, fun refused => absurd accepted refused⟩
      · intro call hcall
        rw [hcalls, List.mem_singleton] at hcall
        subst hcall
        exact ⟨rfl, fun e he => quiet_typed hnames quiet he⟩
      · intro _
        rw [hout]
        refine ⟨rfl, by simp, ?_⟩
        rintro _ ⟨⟩
        exact ⟨rfl, rfl⟩
  · obtain ⟨error, herror⟩ :=
      Option.ne_none_iff_exists'.mp (mt MultiError.fold_eq_none_iff.mp accepted)
    have hout : out = _ := compile_refused herror generator s
    have hrecorded : recorded = _ :=
      compile_refused herror (generator.map Generator.recorded) (s, [])
    have hcalls : calls = [] := by
      rw [show calls = recorded.2.2 from rfl, hrecorded]
    refine ⟨by rw [hrecorded, hout]; exact ⟨rfl, rfl⟩, by simp [hcalls],
      by simp [hcalls, accepted], by simp [hcalls], fun hnone => absurd hnone accepted, ?_⟩
    intro _
    rw [hout]
    exact ⟨rfl, rfl, error, rfl, appends.wrapped_fold herror⟩

def counterProgram : Program where
  line := 1
  classes := [
    some ⟨"Counter.btm", 1, "Counter", "", [
      some (.field ⟨2, "n", .int, .int ⟨0, 2⟩ 0⟩),
      some (.method ⟨3, "next", .int, [], [
        .expr 4 (.assign ⟨1, 4⟩ "this" "n"
          (.binary ⟨2, 4⟩ .add (.var ⟨3, 4⟩ .absent "n") (.int ⟨4, 4⟩ 1))),
        .ret 5 (.var ⟨5, 5⟩ .absent "n")]⟩)]⟩,
    some ⟨"Main.btm", 1, "Main", "Counter", [
      some (.method ⟨2, "main", .void, [], [
        .decl 3 "c" (.plain "Counter") (.var ⟨6, 3⟩ .absent "this"),
        .whileLoop 4
          (.binary ⟨7, 4⟩ .lt (.dispatch ⟨8, 4⟩ (.var ⟨9, 4⟩ .absent "c") "next" [])
            (.int ⟨10, 4⟩ 3))
          (.ifElse 5 (.instanceOf ⟨11, 5⟩ (.var ⟨12, 5⟩ .absent "c") (.plain "Main"))
            (.breakLoop 5) .absent),
        .expr 6 (.dispatch ⟨13, 6⟩ .absent "next" [])]⟩)]⟩]

def counting : Generator Nat := fun _ _ n => (none, n + 1)

theorem counterProgram_handed_over :
    (∀ c, some c ∈ counterProgram.classes → c.name ≠ "<error>") ∧ MultiError.plain.Appends ∧
    let a := analyze (some counterProgram) (.ofNames "" "")
    let out := (compile .plain (some counterProgram) (some counting) (.ofNames "" "")).run 0
    out.1.error.isNone = true ∧ out.2 = 1 ∧
      ∀ e ∈ counterProgram.exprs, ∃ t, a.typeOf? e = some t ∧ t.isError = false := by
  have hnames : ∀ c, some c ∈ counterProgram.classes → c.name ≠ "<error>" := by
    intro c hc
    simp only [counterProgram, List.mem_cons, Option.some.injEq, List.not_mem_nil, or_false] at hc
    rcases hc with rfl | rfl <;> decide
  have quiet : (analyze (some counterProgram) (.ofNames "" "")).diagnostics = [] := by
    decide +kernel
  obtain ⟨-, -, hcalls, htyped, haccepted, -⟩ := generator_gate .plain MultiError.plain_appends
    counterProgram hnames (some counting) (.ofNames "" "") 0
  obtain ⟨herror, hstate⟩ := (haccepted quiet).2.2 counting rfl
  obtain ⟨call, hcall⟩ := List.exists_mem_of_ne_nil _ (hcalls.mpr ⟨rfl, quiet⟩)
  obtain ⟨rfl, hexprs⟩ := htyped call hcall
  refine ⟨hnames, MultiError.plain_appends, by rw [herror]; rfl, hstate, fun e he => ?_⟩
  obtain ⟨t, ht, hresolved, -⟩ := hexprs e he
  exact ⟨t, ht, hresolved⟩

end ClassCheck
