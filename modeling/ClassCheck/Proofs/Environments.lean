import ClassCheck.Proofs.BreadthFirst

/-!
# The run that fills all tables

Tables are filled along the order of the classes, and a method is compared with what is found in the
tables as they stand. A class comes after all those whose members it sees, so their tables are
complete by then. In the end every class has the members that follow by inheritance.
-/

namespace ClassCheck

namespace Hierarchy

variable {h : Hierarchy}

namespace Linked

variable (linked : h.Linked)
include linked

theorem getElem?_number {c : ClassNode} (hc : c ∈ h.classes) :
    h.classes[h.number c]? = some c := by
  rw [number, ← List.find?_eq_getElem?_findIdx]
  exact linked.find?_eq_some_iff.mpr ⟨hc, rfl⟩

theorem number_inj {c d : ClassNode} (hc : c ∈ h.classes) (hd : d ∈ h.classes)
    (hcd : h.number c = h.number d) : c = d := by
  have heq := linked.getElem?_number hc
  rw [hcd, linked.getElem?_number hd] at heq
  exact (Option.some.inj heq).symm

theorem inherited_eq {c : ClassNode} (hc : c ∈ h.classes) :
    h.inherited c =
      ((h.tableParent? c).map fun p => (h.members p).value :: h.inherited p).getD [] := by
  rw [inherited, linked.sources_eq hc]
  cases h.tableParent? c <;> rfl

theorem inherited_eq_map {c : ClassNode} (hc : c ∈ h.classes) :
    h.inherited c = (h.sources c).map fun d => (h.members d).value := by
  refine linked.source_induction (fun c hc ih => ?_) hc
  rw [linked.inherited_eq hc, linked.sources_eq hc]
  cases hp : h.tableParent? c with
  | none => rfl
  | some p => simp [ih p hp]

end Linked

end Hierarchy

namespace Environment

variable {e : Environment} {h : Hierarchy} {c : ClassNode}

/-- There is a slot for each class. Its tables are one scope each, and go on where those of the
class do. -/
structure Fits (e : Environment) (h : Hierarchy) : Prop where
  parents : e.slots.map (·.parent) = h.classes.map fun c => (h.tableParent? c).map h.number
  flat : ∀ s ∈ e.slots, s.members.Flat

theorem initial_fits (h : Hierarchy) : (initial h).Fits h where
  parents := by simp [initial]
  flat := by
    intro s hs
    obtain ⟨c, -, rfl⟩ := List.mem_map.mp hs
    exact Members.Flat.empty

/-! ### Reading and writing a slot -/

theorem set_slots (e : Environment) (i j : Nat) (m : Members) :
    (e.set i m).slots[j]? =
      if i = j then e.slots[j]?.map fun s => { s with members := m } else e.slots[j]? := by
  rw [set, List.getElem?_modify]
  split <;> simp

theorem members_set_of_ne {i j : Nat} (hij : i ≠ j) (m : Members) :
    (e.set i m).members j = e.members j := by
  rw [members, set_slots, if_neg hij, members]

@[simp] theorem set_set (e : Environment) (i : Nat) (m m' : Members) :
    (e.set i m).set i m' = e.set i m' := by
  rw [set, set, set, List.modify_modify_eq]
  rfl

@[simp] theorem set_members (e : Environment) (i : Nat) : e.set i (e.members i) = e := by
  have hslots : (e.set i (e.members i)).slots = e.slots := by
    refine List.ext_getElem? fun j => ?_
    rw [set_slots]
    split
    · rename_i hij
      subst hij
      cases hs : e.slots[i]? with
      | none => rfl
      | some s => simp [members, hs]
    · rfl
  exact congrArg Environment.mk hslots

theorem Fits.set (fits : e.Fits h) (i : Nat) {m : Members} (flat : m.Flat) :
    (e.set i m).Fits h where
  parents := by
    rw [← fits.parents]
    refine List.ext_getElem? fun j => ?_
    rw [List.getElem?_map, List.getElem?_map, set_slots]
    split
    · exact Option.map_map ..
    · rfl
  flat := by
    intro s hs
    obtain ⟨j, hj⟩ := List.mem_iff_getElem?.mp hs
    rw [set_slots] at hj
    split at hj
    · obtain ⟨t, -, rfl⟩ := Option.map_eq_some_iff.mp hj
      exact flat
    · exact fits.flat s (List.mem_of_getElem? hj)

section Linked

variable (linked : h.Linked)
include linked

theorem Fits.slot (fits : e.Fits h) (hc : c ∈ h.classes) :
    e.slots[h.number c]? =
      some ⟨e.members (h.number c), (h.tableParent? c).map h.number⟩ := by
  have hparent := congrArg (·[h.number c]?) fits.parents
  simp only [List.getElem?_map, linked.getElem?_number hc, Option.map_some] at hparent
  obtain ⟨s, hs, hsp⟩ := Option.map_eq_some_iff.mp hparent
  rw [members, hs, ← hsp]
  rfl

theorem Fits.members_flat (fits : e.Fits h) (hc : c ∈ h.classes) :
    (e.members (h.number c)).Flat :=
  fits.flat _ (List.mem_of_getElem? (fits.slot linked hc))

theorem Fits.members_set (fits : e.Fits h) (hc : c ∈ h.classes) (m : Members) :
    (e.set (h.number c) m).members (h.number c) = m := by
  rw [members, set_slots, if_pos rfl, fits.slot linked hc]
  rfl

theorem above_set (hc : c ∈ h.classes) (m : Members) :
    (e.set (h.number c) m).above h c = e.above h c := by
  refine List.map_congr_left fun d hd => members_set_of_ne (fun hcd => ?_) m
  obtain ⟨hself, -⟩ := List.nodup_cons.mp (linked.sources_nodup hc)
  have hdc := linked.sources_subset hc (List.mem_cons_of_mem c hd)
  exact hself (linked.number_inj hc hdc hcd ▸ hd)

/-! ### Looking up a name -/

theorem Fits.peek_tables {α : Type} (fits : e.Fits h) (hc : c ∈ h.classes)
    (table : Members → ScopeStack α) (x : String) :
    (e.tables table).peek (h.number c) x = (table (e.members (h.number c))).peek x := by
  rw [Forest.peek, tables, List.getElem?_map, fits.slot linked hc]
  rfl

theorem Fits.chain_tables {α : Type} (fits : e.Fits h) (hc : c ∈ h.classes)
    (table : Members → ScopeStack α) :
    (e.tables table).chain (h.number c) =
      (e.members (h.number c) :: e.above h c).map table := by
  have hwithin : ∀ n, ∀ c ∈ h.classes, (e.tables table).chainWithin n (h.number c) =
      ((c :: h.sources c).take n).map fun d => table (e.members (h.number d)) := by
    intro n
    induction n with
    | zero => exact fun _ _ => rfl
    | succ n ih =>
      intro c hc
      rw [Forest.chainWithin, tables, List.getElem?_map, fits.slot linked hc, ← tables,
        linked.sources_eq hc]
      cases hp : h.tableParent? c with
      | none => simp
      | some p => simp [ih p (Hierarchy.tableParent?_mem hp)]
  have hsize : (e.tables table).size = h.size := by
    simpa [tables, Forest.size, Hierarchy.size] using congrArg List.length fits.parents
  rw [Forest.chain, hsize, hwithin h.size c hc, List.take_of_length_le (linked.sources_length hc),
    above, List.map_cons, List.map_cons, List.map_map]
  rfl

/-- What is found under a name that the class has not taken is inherited. -/
theorem Fits.lookup_signatures (fits : e.Fits h) (hc : c ∈ h.classes) {x : String}
    (hfree : (e.members (h.number c)).signatures.peek x = none) :
    e.signatures.lookup (h.number c) x =
      ScopeStack.lookup ((e.above h c).map (·.signatures)) x := by
  rw [(fits.members_flat linked hc).peek_signatures] at hfree
  rw [Forest.lookup, signatures, fits.chain_tables linked hc, List.map_cons, ScopeStack.lookup,
    List.findSome?_cons, hfree, ScopeStack.lookup]

/-! ### Filling the tables of one class -/

theorem Fits.declareField_eq (fits : e.Fits h) (hc : c ∈ h.classes) (f : Field) :
    e.declareField h c f =
      ((e.members (h.number c)).declareField h c f).map (e.set (h.number c)) := by
  rw [declareField, Members.declareField, vars, fits.peek_tables linked hc]
  cases f.vet h c ((e.members (h.number c)).vars.peek f.name) <;> rfl

theorem Fits.declareMethod_eq (fits : e.Fits h) (hc : c ∈ h.classes) (d : Method) :
    e.declareMethod h c d =
      ((e.members (h.number c)).declareMethod h c (e.above h c) d).map (e.set (h.number c)) := by
  have hpeek := fits.peek_tables linked hc (·.signatures) d.name
  rw [declareMethod, Members.declareMethod, show e.signatures.peek _ _ = _ from hpeek]
  cases hown : (e.members (h.number c)).signatures.peek d.name with
  | none =>
    rw [fits.lookup_signatures linked hc hown]
    cases d.vet h c none _ <;> rfl
  | some s =>
    -- the name is taken, and it makes no difference what else is found
    rw [Method.vet, Method.vet]
    split_ifs
    · rfl
    · rfl
    all_goals contradiction

theorem Fits.declare_eq (fits : e.Fits h) (hc : c ∈ h.classes) (member : Member) :
    e.declare h c member = e.set (h.number c) <$>
      (e.members (h.number c)).declare h c (e.above h c) member := by
  cases member with
  | field f =>
    rw [declare, Members.declare, Reported.map_attempt, set_members,
      fits.declareField_eq linked hc]
  | method d =>
    rw [declare, Members.declare, Reported.map_attempt, set_members,
      fits.declareMethod_eq linked hc]

theorem Fits.declareAll_eq (fits : e.Fits h) (hc : c ∈ h.classes)
    (members : List (Option Member)) :
    e.declareAll h c members = e.set (h.number c) <$>
      (e.members (h.number c)).declareAll h c (e.above h c) members := by
  induction members generalizing e with
  | nil => simp [declareAll, Members.declareAll]
  | cons o members ih =>
    cases o with
    | none => exact ih fits
    | some member =>
      have hnext := fits.set (h.number c)
        ((fits.members_flat linked hc).declare h c (e.above h c) member)
      have hrest := ih hnext
      rw [fits.members_set linked hc, above_set linked hc] at hrest
      rw [declareAll, Members.declareAll, fits.declare_eq linked hc]
      ext1
      · simp [hrest]
      · simp [hrest]

/-! ### Filling the tables of all classes -/

/-- The classes of `done` have all their members, and the others none so far. -/
structure Filled (e : Environment) (h : Hierarchy) (done : List ClassNode) : Prop
    extends Fits e h where
  complete : ∀ c ∈ done, e.members (h.number c) = (h.members c).value
  untouched : ∀ c ∈ h.classes, c ∉ done → e.members (h.number c) = .empty

omit linked in
theorem initial_filled (h : Hierarchy) : (initial h).Filled h [] where
  toFits := initial_fits h
  complete := by simp
  untouched := by
    intro c _ _
    rw [members, initial, List.getElem?_map, Option.map_map]
    cases h.classes[h.number c]? <;> rfl

/-- The next class is filled with its members by inheritance, if all classes whose members it sees
are done. -/
theorem Filled.fill {done : List ClassNode} (filled : e.Filled h done) (hdone : done ⊆ h.classes)
    (hc : c ∈ h.classes) (hnew : c ∉ done) (hsources : h.sources c ⊆ done) :
    e.fill h c = ⟨e.set (h.number c) (h.members c).value, (h.members c).reports⟩ ∧
      (e.set (h.number c) (h.members c).value).Filled h (done ++ [c]) := by
  have habove : e.above h c = h.inherited c := by
    rw [above, linked.inherited_eq_map hc]
    exact List.map_congr_left fun d hd => filled.complete d (hsources hd)
  have hfill : e.fill h c = e.set (h.number c) <$> h.members c := by
    rw [Environment.fill, filled.toFits.declareAll_eq linked hc, filled.untouched c hc hnew, habove]
    rfl
  have hother : ∀ d ∈ h.classes, d ≠ c → h.number c ≠ h.number d :=
    fun d hd hdc hnumber => hdc (linked.number_inj hd hc hnumber.symm)
  refine ⟨hfill.trans (Reported.ext rfl (Reported.reports_map _ _)),
    filled.toFits.set _ (Members.Flat.empty.declareAll h c _ _), ?_, ?_⟩
  · intro d hd
    rcases List.mem_append.mp hd with hd | hd
    · have hdc : d ≠ c := fun heq => hnew (heq ▸ hd)
      rw [members_set_of_ne (hother d (hdone hd) hdc), filled.complete d hd]
    · rw [List.mem_singleton.mp hd, filled.toFits.members_set linked hc]
  · intro d hd hout
    rw [List.mem_append, List.mem_singleton, not_or] at hout
    rw [members_set_of_ne (hother d hd hout.2), filled.untouched d hd hout.1]

theorem tableParent_before {before after : List ClassNode} {p : ClassNode}
    (ho : h.order = before ++ c :: after) (hp : h.tableParent? c = some p) : p ∈ before := by
  rw [← Hierarchy.tableParent?_eq hp]
  cases hq : h.parent? c with
  | some q => exact linked.order_parent_first ho hq
  | none =>
    -- a class whose link was refused comes after the root, which is the first of all
    have hhead := linked.order_head
    rw [ho] at hhead
    cases before with
    | nil =>
      obtain rfl : c = Hierarchy.root := Option.some.inj hhead
      cases hp
    | cons b before =>
      obtain rfl : b = Hierarchy.root := Option.some.inj hhead
      exact List.mem_cons_self

theorem sources_before (hc : c ∈ h.classes) :
    ∀ before after, h.order = before ++ c :: after → h.sources c ⊆ before := by
  refine linked.source_induction (fun c hc ih before after ho => ?_) hc
  rw [linked.sources_eq hc]
  cases hp : h.tableParent? c with
  | none => simp
  | some p =>
    have hbefore := tableParent_before linked ho hp
    refine List.cons_subset.mpr ⟨hbefore, ?_⟩
    obtain ⟨first, last, rfl⟩ := List.append_of_mem hbefore
    rw [List.append_assoc, List.cons_append] at ho
    exact fun d hd => List.mem_append_left _ (ih p hp first _ ho hd)

theorem Filled.fillAll {done next rest : List ClassNode} (filled : e.Filled h done)
    (ho : h.order = done ++ next ++ rest) :
    (e.fillAll h next).value.Filled h (done ++ next) ∧
      (e.fillAll h next).reports = next.flatMap fun c => (h.members c).reports := by
  induction next generalizing e done with
  | nil => exact ⟨by rwa [List.append_nil], rfl⟩
  | cons c next ih =>
    rw [List.append_assoc, List.cons_append] at ho
    have hmem : ∀ d ∈ done ++ c :: (next ++ rest), d ∈ h.classes :=
      fun d hd => linked.mem_order.mp (ho ▸ hd)
    have hnodup := linked.order_nodup
    rw [ho, List.nodup_middle, List.nodup_cons] at hnodup
    have hc : c ∈ h.classes := hmem c (by simp)
    obtain ⟨hfill, hnext⟩ := filled.fill linked (fun d hd => hmem d (List.mem_append_left _ hd))
      hc (fun hd => hnodup.1 (List.mem_append_left _ hd)) (sources_before linked hc done _ ho)
    obtain ⟨hvalue, hreports⟩ := ih hnext (by simp [ho])
    rw [Environment.fillAll, List.foldlM_cons, hfill]
    refine ⟨by rwa [List.append_assoc, List.singleton_append] at hvalue, ?_⟩
    rw [Reported.reports_bind, List.flatMap_cons]
    exact congrArg _ hreports

/-- When the turn comes to a member of a class, the classes it sees are complete, and its own tables
have the members before. -/
theorem at_member {done rest : List ClassNode} (ho : h.order = done ++ c :: rest)
    (before : List (Option Member)) :
    let e := (((initial h).fillAll h done).value.declareAll h c before).value
    e.Fits h ∧ e.above h c = h.inherited c ∧
      e.members (h.number c) = (Members.empty.declareAll h c (h.inherited c) before).value := by
  intro e
  have hc : c ∈ h.classes := linked.mem_order.mp (by rw [ho]; simp)
  have filled : ((initial h).fillAll h done).value.Filled h done :=
    ((initial_filled h).fillAll linked ho).1
  have hnodup := linked.order_nodup
  rw [ho, List.nodup_middle, List.nodup_cons] at hnodup
  have hempty := filled.untouched c hc fun hd => hnodup.1 (List.mem_append_left _ hd)
  have habove : ((initial h).fillAll h done).value.above h c = h.inherited c := by
    rw [above, linked.inherited_eq_map hc]
    exact List.map_congr_left fun d hd =>
      filled.complete d (sources_before linked hc done rest ho hd)
  have he : e = ((initial h).fillAll h done).value.set (h.number c)
      (Members.empty.declareAll h c (h.inherited c) before).value := by
    rw [← habove, ← hempty]
    exact congrArg Reported.value (filled.toFits.declareAll_eq linked hc before)
  rw [he]
  exact ⟨filled.toFits.set _ (Members.Flat.empty.declareAll h c _ before),
    (above_set linked hc _).trans habove, filled.toFits.members_set linked hc _⟩

end Linked

end Environment

namespace Hierarchy.Linked

variable {h : Hierarchy} (linked : h.Linked) {c : ClassNode}
include linked

theorem environment_filled : h.environment.value.Filled h h.order :=
  ((Environment.initial_filled h).fillAll linked (List.append_nil _).symm).1

theorem environment_reports :
    h.environment.reports = (Reported.forEach h.order h.members).reports :=
  ((Environment.initial_filled h).fillAll linked (List.append_nil _).symm).2

theorem environment_members (hc : c ∈ h.classes) :
    h.environment.value.members (h.number c) = (h.members c).value :=
  linked.environment_filled.complete c (linked.mem_order.mpr hc)

theorem environment_classInfo (hc : c ∈ h.classes) :
    h.environment.value.classInfo h c = h.classInfo c := by
  have habove : h.environment.value.above h c = h.inherited c := by
    rw [Environment.above, linked.inherited_eq_map hc]
    exact List.map_congr_left fun d hd =>
      linked.environment_members (linked.sources_subset hc (List.mem_cons_of_mem c hd))
  rw [Environment.classInfo, linked.environment_members hc, habove]
  rfl

theorem environment_table :
    ClassTable.ofEnvironment h.environment.value h = .ofHierarchy h := by
  rw [ClassTable.ofEnvironment, ClassTable.ofHierarchy, linked.environment_classInfo h.root_mem]
  congr 1
  exact List.map_congr_left fun c hc => linked.environment_classInfo (List.mem_cons_of_mem _ hc)

theorem environment_order :
    h.order.map (h.environment.value.classInfo h) = h.order.map h.classInfo :=
  List.map_congr_left fun _ hc => linked.environment_classInfo (linked.mem_order.mp hc)

end Hierarchy.Linked

end ClassCheck
