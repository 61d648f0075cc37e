import ClassCheck.Proofs.BreadthFirst
import ClassCheck.Proofs.Mirrors

/-!
# A hierarchy with one class more

A class that no other class asks for as its parent is a leaf. Taking it in changes no link between
the others and no chain of ancestors, and in the order of the classes it stands at one place among
the others.
-/

namespace ClassCheck

theorem find?_name_insert {α : Type} (name : α → String) {a : α} {n : String} (hn : name a ≠ n)
    (before after : List α) :
    (before ++ a :: after).find? (name · == n) = (before ++ after).find? (name · == n) := by
  simp [List.find?_append, hn]

namespace Registry

/-- The registry `r'` has one class more than `r`, at any place, which no class of `r` asks for. -/
structure Gains (r : Registry) (c : Registered) (r' : Registry) : Prop where
  sound : r'.Sound
  place : ∃ before after, r.others = before ++ after ∧ r'.others = before ++ c :: after
  unwanted : ∀ d ∈ r.others, d.wantedParent ≠ c.name

namespace Gains

variable {r r' : Registry} {c : Registered} (gains : r.Gains c r')
include gains

theorem perm : r'.classes.Perm (c :: r.classes) := by
  obtain ⟨before, after, hr, hr'⟩ := gains.place
  rw [classes, classes, hr, hr']
  exact (List.perm_middle.cons BuiltIn.root).trans (.swap ..)

theorem mem {d : Registered} (hd : d ∈ r.classes) : d ∈ r'.classes :=
  gains.perm.mem_iff.mpr (List.mem_cons_of_mem c hd)

theorem others_mem {d : Registered} (hd : d ∈ r.others) : d ∈ r'.others := by
  obtain ⟨before, after, hr, hr'⟩ := gains.place
  rw [hr, List.mem_append] at hd
  rw [hr', List.mem_append, List.mem_cons]
  exact hd.imp_right Or.inr

theorem names_nodup : (c.name :: r.names).Nodup :=
  (gains.perm.map Registered.name).nodup_iff.mp gains.sound.names_nodup

theorem small : r.Sound where
  names_nodup := (List.nodup_cons.mp gains.names_nodup).2
  others_not_root := fun d hd => gains.sound.others_not_root d (gains.others_mem hd)

theorem find?_of_ne {n : String} (hn : c.name ≠ n) : r'.find? n = r.find? n := by
  obtain ⟨before, after, hr, hr'⟩ := gains.place
  rw [find?, find?, classes, classes, hr, hr']
  exact find?_name_insert Registered.name hn (BuiltIn.root :: before) after

theorem wanted? {d : Registered} (hd : d ∈ r.classes) : r'.wanted? d = r.wanted? d := by
  rcases List.mem_cons.mp hd with rfl | ho
  · rfl
  · rw [Registry.wanted?, Registry.wanted?, gains.find?_of_ne (gains.unwanted d ho).symm]

theorem follow {d : Registered} (hd : d ∈ r.classes) (n : Nat) :
    follow r'.wanted? n d = follow r.wanted? n d := by
  induction n generalizing d with
  | zero => rfl
  | succ n ih =>
    rw [follow_succ, follow_succ, gains.wanted? hd]
    cases hp : r.wanted? d with
    | none => rfl
    | some p => exact ih (wanted?_mem hp)

theorem leadsTo {start target : Registered} (hs : start ∈ r.classes) (ht : target ∈ r.others) :
    r'.leadsTo start target = r.leadsTo start target := by
  rw [Bool.eq_iff_iff, leadsTo_iff gains.sound (gains.mem hs) (gains.others_mem ht),
    leadsTo_iff gains.small hs ht]
  simp only [gains.follow hs]

theorem link {d : Registered} (hd : d ∈ r.others) : r'.link d = r.link d := by
  have hresolve : r'.resolveParent d = r.resolveParent d := by
    rw [resolveParent, resolveParent, gains.find?_of_ne (gains.unwanted d hd).symm]
    cases hp : r.find? d.wantedParent with
    | none => rfl
    | some p => simp only [gains.leadsTo (List.mem_of_find?_eq_some hp) hd]
  rw [Registry.link, Registry.link, hresolve]

end Gains

theorem register_insert {r r' : Registry} {c : Registered} {before after : List Registered}
    (hr : r.others = before ++ after) (hr' : r'.others = before ++ c :: after)
    {ds : List (Option ClassDecl)} (hds : ∀ d, some d ∈ ds → d.name ≠ c.name) :
    (r'.register ds).reports = (r.register ds).reports ∧
      ∃ taken, (r.register ds).value.others = before ++ (after ++ taken) ∧
        (r'.register ds).value.others = before ++ c :: (after ++ taken) := by
  induction ds generalizing r r' after with
  | nil => exact ⟨rfl, [], by simp [register, hr], by simp [register, hr']⟩
  | cons o ds ih =>
    have hrest : ∀ d, some d ∈ ds → d.name ≠ c.name := fun d hd => hds d (List.mem_cons_of_mem o hd)
    cases o with
    | none => exact ih hr hr' hrest
    | some d =>
      have hfind : r'.find? d.name = r.find? d.name := by
        rw [find?, find?, classes, classes, hr, hr']
        exact find?_name_insert Registered.name (hds d List.mem_cons_self).symm
          (BuiltIn.root :: before) after
      cases hd : r.find? d.name with
      | none =>
        have hadd : (r.add ⟨d, .user⟩).others = before ++ (after ++ [⟨d, .user⟩]) := by
          simp [add, hr]
        have hadd' : (r'.add ⟨d, .user⟩).others = before ++ c :: (after ++ [⟨d, .user⟩]) := by
          simp [add, hr']
        rw [register_new hd, register_new (hfind.trans hd)]
        obtain ⟨hreports, taken, htaken, htaken'⟩ := ih hadd hadd' hrest
        exact ⟨hreports, ⟨d, .user⟩ :: taken, by simpa using htaken, by simpa using htaken'⟩
      | some old =>
        rw [register_old hd, register_old (hfind.trans hd)]
        obtain ⟨hreports, htaken⟩ := ih hr hr' hrest
        exact ⟨congrArg (_ ++ ·) hreports, htaken⟩

end Registry

namespace Hierarchy

structure Gains (h : Hierarchy) (c : ClassNode) (h' : Hierarchy) : Prop where
  small : h.Linked
  large : h'.Linked
  place : ∃ before after, h.others = before ++ after ∧ h'.others = before ++ c :: after
  leaf : ∀ d ∈ h'.classes, d.parent ≠ some c.name

theorem Linked.parent_ne_self {h : Hierarchy} (linked : h.Linked) {c : ClassNode}
    (hc : c ∈ h.classes) : c.parent ≠ some c.name := by
  intro hself
  refine linked.acyclic c hc 0 ?_
  rw [follow_succ, parent?, hself, Option.bind_some, linked.find?_eq_some_iff.mpr ⟨hc, rfl⟩]
  rfl

section OfRegistry

variable {r r' : Registry} {c : Registered} (gains : r.Gains c r')
include gains

theorem ofRegistry_gains : (ofRegistry r).value.Gains (r'.link c).value (ofRegistry r').value := by
  have large := ofRegistry_linked gains.sound
  have hname : (r'.link c).value.name = c.name :=
    congrArg Registered.name (Registry.link_toRegistered c)
  obtain ⟨before, after, hr, hr'⟩ := gains.place
  have hlink : ∀ ds : List Registered, (∀ d ∈ ds, d ∈ r.others) →
      ds.map (fun d => (r'.link d).value) = ds.map fun d => (r.link d).value :=
    fun ds hds => List.map_congr_left fun d hd => by rw [gains.link (hds d hd)]
  have hplace : (ofRegistry r').value.others = before.map (fun d => (r.link d).value) ++
      (r'.link c).value :: after.map fun d => (r.link d).value := by
    rw [ofRegistry_others, hr', List.map_append, List.map_cons,
      hlink before fun d hd => hr ▸ List.mem_append_left after hd,
      hlink after fun d hd => hr ▸ List.mem_append_right before hd]
  refine ⟨ofRegistry_linked gains.small, large, ⟨_, _, ?_, hplace⟩, ?_⟩
  · rw [ofRegistry_others, hr, List.map_append]
  · intro d hd
    rw [hname]
    rcases List.mem_cons.mp hd with rfl | ho
    · simp [root]
    rw [hplace, List.mem_append, List.mem_cons, or_left_comm, ← List.mem_append,
      ← List.map_append, ← hr] at ho
    rcases ho with rfl | ho
    · rw [← hname]
      exact large.parent_ne_self hd
    · obtain ⟨e, he, rfl⟩ := List.mem_map.mp ho
      intro hparent
      obtain ⟨p, hp, hpname⟩ := Registry.link_parent_eq_some_iff.mp hparent
      have hfind := (Registry.resolveParent_eq_ok_iff.mp hp).1
      have hpe : p.name = e.wantedParent := by simpa using List.find?_some hfind
      exact gains.unwanted e he (hpe.symm.trans hpname)

theorem ofRegistry_reports : ∃ first last, (ofRegistry r).reports = first ++ last ∧
    (ofRegistry r').reports = first ++ (r'.link c).reports ++ last := by
  obtain ⟨before, after, hr, hr'⟩ := gains.place
  have hlink : ∀ ds : List Registered, (∀ d ∈ ds, d ∈ r.others) →
      ds.flatMap (fun d => (r'.link d).reports) = ds.flatMap fun d => (r.link d).reports :=
    fun ds hds => List.flatMap_congr fun d hd => by rw [gains.link (hds d hd)]
  refine ⟨before.flatMap fun d => (r.link d).reports, after.flatMap fun d => (r.link d).reports,
    ?_, ?_⟩
  · simp [ofRegistry, Reported.forEach, hr]
  · have hbefore := hlink before fun d hd => hr ▸ List.mem_append_left after hd
    have hafter := hlink after fun d hd => hr ▸ List.mem_append_right before hd
    simp [ofRegistry, Reported.forEach, hr', hbefore, hafter]

end OfRegistry

namespace Gains

variable {h h' : Hierarchy} {c : ClassNode} (gains : h.Gains c h')
include gains

theorem added_mem : c ∈ h'.classes := by
  obtain ⟨before, after, -, hh'⟩ := gains.place
  rw [classes, hh']
  simp

theorem perm : h'.classes.Perm (c :: h.classes) := by
  obtain ⟨before, after, hh, hh'⟩ := gains.place
  rw [classes, classes, hh, hh']
  exact (List.perm_middle.cons root).trans (.swap ..)

theorem mem {d : ClassNode} (hd : d ∈ h.classes) : d ∈ h'.classes :=
  gains.perm.mem_iff.mpr (List.mem_cons_of_mem c hd)

theorem name_ne {d : ClassNode} (hd : d ∈ h.classes) : d.name ≠ c.name := by
  have hnodup : (c.name :: h.names).Nodup :=
    (gains.perm.map fun d : ClassNode => d.name).nodup_iff.mp gains.large.names_nodup
  exact fun heq => (List.nodup_cons.mp hnodup).1 (heq ▸ List.mem_map_of_mem hd)

theorem find?_of_ne {n : String} (hn : c.name ≠ n) : h'.find? n = h.find? n := by
  obtain ⟨before, after, hh, hh'⟩ := gains.place
  rw [find?, find?, classes, classes, hh, hh']
  exact find?_name_insert (fun d : ClassNode => d.name) hn (root :: before) after

theorem knows {t : Ty} (ht : Ty.isPrimitiveName t.name = false → t.name ≠ c.name) :
    h'.knows t = h.knows t := by
  rw [knows_eq, knows_eq]
  cases hprimitive : Ty.isPrimitiveName t.name with
  | true => rfl
  | false => rw [gains.find?_of_ne (ht hprimitive).symm]

theorem parent? {d : ClassNode} (hd : d ∈ h.classes) : h'.parent? d = h.parent? d := by
  rw [Hierarchy.parent?, Hierarchy.parent?]
  cases hp : d.parent with
  | none => rfl
  | some n =>
    have hn : c.name ≠ n := fun heq => gains.leaf d (gains.mem hd) (heq ▸ hp)
    exact gains.find?_of_ne hn

theorem follow {d : ClassNode} (hd : d ∈ h.classes) (n : Nat) :
    follow h'.parent? n d = follow h.parent? n d := by
  induction n generalizing d with
  | zero => rfl
  | succ n ih =>
    rw [follow_succ, follow_succ, gains.parent? hd]
    cases hp : h.parent? d with
    | none => rfl
    | some p => exact ih (parent?_mem hp)

theorem size : h'.size = h.size + 1 := gains.perm.length_eq

theorem ancestors {d : ClassNode} (hd : d ∈ h.classes) : h'.ancestors d = h.ancestors d := by
  have hends : ClassCheck.follow h'.parent? h.size d = none := by
    rw [gains.follow hd, gains.small.chain_ends hd]
  rw [Hierarchy.ancestors, Hierarchy.ancestors,
    ancestorsWithin_stable hends (by rw [gains.size]; omega)]
  generalize h.size = n
  clear hends
  induction n generalizing d with
  | zero => rfl
  | succ n ih =>
    rw [ancestorsWithin, ancestorsWithin, gains.parent? hd]
    cases hp : h.parent? d with
    | none => rfl
    | some p => simp only [ih (parent?_mem hp)]

theorem sources {d : ClassNode} (hd : d ∈ h.classes) : h'.sources d = h.sources d := by
  rw [Hierarchy.sources, Hierarchy.sources, gains.ancestors hd]

theorem classes_filter : h'.classes.filter (·.name != c.name) = h.classes := by
  obtain ⟨before, after, hh, hh'⟩ := gains.place
  have hkeep : h.classes.filter (·.name != c.name) = h.classes :=
    List.filter_eq_self.mpr fun d hd => bne_iff_ne.mpr (gains.name_ne hd)
  have hdrop : (c :: after).filter (·.name != c.name) = after.filter (·.name != c.name) := by simp
  rw [classes, hh, ← List.cons_append, List.filter_append] at hkeep
  rw [classes, classes, hh, hh', ← List.cons_append, ← List.cons_append, List.filter_append, hdrop,
    hkeep]

theorem children_filter (d : ClassNode) :
    (h'.children d).filter (·.name != c.name) = h.children d := by
  rw [children_eq, children_eq, List.filter_comm, gains.classes_filter]

theorem children_leaf {d : ClassNode} (hd : d.name = c.name) : h'.children d = [] := by
  rw [children_eq, List.filter_eq_nil_iff]
  intro e he
  rw [hd, beq_iff_eq]
  exact gains.leaf e he

theorem flatMap_children_filter (front : List ClassNode) :
    (front.flatMap h'.children).filter (·.name != c.name) =
      (front.filter (·.name != c.name)).flatMap h.children := by
  induction front with
  | nil => rfl
  | cons d front ih =>
    rw [List.flatMap_cons, List.filter_append, ih, gains.children_filter]
    by_cases hd : d.name = c.name
    · rw [List.filter_cons_of_neg (by simp [hd]), ← gains.children_filter d, gains.children_leaf hd]
      rfl
    · rw [List.filter_cons_of_pos (by simp [hd]), List.flatMap_cons]

theorem levels_filter (n : Nat) (front : List ClassNode) :
    (h'.levels n front).filter (·.name != c.name) =
      h.levels n (front.filter (·.name != c.name)) := by
  induction n generalizing front with
  | zero => rfl
  | succ n ih => rw [levels, levels, List.filter_append, ih, gains.flatMap_children_filter]

theorem trees_filter {ts : List ClassNode} (hts : ∀ t ∈ ts, t.name ≠ c.name → t ∈ h.tops) :
    (ts.flatMap fun t => h'.levels h'.size [t]).filter (·.name != c.name) =
      (ts.filter (·.name != c.name)).flatMap fun t => h.levels h.size [t] := by
  induction ts with
  | nil => rfl
  | cons t ts ih =>
    have hrest := ih fun s hs => hts s (List.mem_cons_of_mem t hs)
    rw [List.flatMap_cons, List.filter_append, hrest, gains.levels_filter, gains.size]
    by_cases ht : t.name = c.name
    · simp [ht, levels_nil]
    · have htop := hts t List.mem_cons_self ht
      have hstable : h.levels (h.size + 1) [t] = h.levels h.size [t] := by
        have hfront := singleton_subset (tops_subset htop)
        refine gains.small.levels_stable hfront fun d hd s _ hds => ?_
        rw [gains.small.chain_ends hd] at hds
        cases hds
      simp [ht, hstable]

theorem order_filter : h'.order.filter (·.name != c.name) = h.order := by
  have htops : h'.tops.filter (·.name != c.name) = h.tops := by
    rw [tops, tops, List.filter_comm, gains.classes_filter]
  rw [gains.large.order_eq, gains.small.order_eq, gains.trees_filter, htops]
  intro t ht hname
  rw [← htops]
  exact List.mem_filter.mpr ⟨ht, bne_iff_ne.mpr hname⟩

theorem order_place : ∃ first last, h.order = first ++ last ∧ h'.order = first ++ c :: last := by
  obtain ⟨first, last, ho⟩ := List.append_of_mem (gains.large.mem_order.mpr gains.added_mem)
  refine ⟨first, last, ?_, ho⟩
  have hnodup := gains.large.order_nodup
  rw [ho, List.nodup_middle, List.nodup_cons] at hnodup
  have hkeep : ∀ d ∈ first ++ last, (d.name != c.name) = true := by
    intro d hd
    refine bne_iff_ne.mpr fun hname => hnodup.1 ?_
    have hmem : d ∈ h'.order := by
      rw [ho, List.perm_middle.mem_iff]
      exact List.mem_cons_of_mem c hd
    exact gains.large.eq_of_name (gains.large.mem_order.mp hmem) gains.added_mem hname ▸ hd
  have hdrop : (c :: last).filter (·.name != c.name) = last.filter (·.name != c.name) := by simp
  rw [← gains.order_filter, ho, List.filter_append, hdrop, ← List.filter_append,
    List.filter_eq_self.mpr hkeep]

end Gains

end Hierarchy

/-! ### Members and faces -/

/-- The type is known or not whether there is a class named `x` or not. -/
def Ty.Apart (x : String) (t : Ty) : Prop := t.name ≠ x ∨ t = .int ∨ t = .boolean

theorem Ty.Apart.name_ne {x : String} {t : Ty} (apart : t.Apart x)
    (hprimitive : Ty.isPrimitiveName t.name = false) : t.name ≠ x := by
  rcases apart with h | rfl | rfl
  · exact h
  · cases hprimitive
  · cases hprimitive

def Member.Apart (x : String) : Member → Prop
  | .field f => f.type.Apart x
  | .method m => (m.returnType = .void ∨ m.returnType.Apart x) ∧ ∀ f ∈ m.formals, f.type.Apart x

def ClassDecl.Apart (x : String) (d : ClassDecl) : Prop :=
  ∀ member, some member ∈ d.members → member.Apart x

namespace Hierarchy.Gains

variable {h h' : Hierarchy} {c : ClassNode} (gains : h.Gains c h')
include gains

theorem declare {member : Member} (apart : member.Apart c.name) (m : Members) (d : ClassNode)
    (above : List Members) : m.declare h' d above member = m.declare h d above member := by
  cases member with
  | field f =>
    have hknows := gains.knows (Ty.Apart.name_ne apart)
    simp only [Members.declare, Members.declareField_eq, hknows]
  | method k =>
    have hreturn : Members.canReturn h' k.returnType = Members.canReturn h k.returnType := by
      rcases apart.1 with hvoid | hapart
      · rw [hvoid]
        rfl
      · rw [Members.canReturn, Members.canReturn, gains.knows hapart.name_ne]
    simp only [Members.declare, Members.declareMethod_eq, hreturn]

theorem declareAll {members : List (Option Member)}
    (apart : ∀ member, some member ∈ members → member.Apart c.name) (m : Members) (d : ClassNode)
    (above : List Members) : m.declareAll h' d above members = m.declareAll h d above members := by
  induction members generalizing m with
  | nil => rfl
  | cons o members ih =>
    have hrest := ih fun member hm => apart member (List.mem_cons_of_mem o hm)
    cases o with
    | none => exact hrest m
    | some member =>
      simp only [Members.declareAll, gains.declare (apart member List.mem_cons_self), hrest]

theorem membersAlong {cs : List ClassNode} (apart : ∀ d ∈ cs, d.decl.Apart c.name) :
    h'.membersAlong cs = h.membersAlong cs := by
  induction cs with
  | nil => rfl
  | cons d cs ih =>
    have hrest := ih fun e he => apart e (List.mem_cons_of_mem d he)
    simp only [Hierarchy.membersAlong, Members.ofClass, hrest,
      gains.declareAll (apart d List.mem_cons_self)]

variable (apart : ∀ d ∈ h.classes, d.decl.Apart c.name)
include apart

theorem inherited {d : ClassNode} (hd : d ∈ h.classes) : h'.inherited d = h.inherited d := by
  have hsources := gains.small.sources_subset hd
  rw [Hierarchy.inherited, Hierarchy.inherited, gains.sources hd]
  exact gains.membersAlong fun e he => apart e (hsources (List.mem_cons_of_mem d he))

theorem members {d : ClassNode} (hd : d ∈ h.classes) : h'.members d = h.members d := by
  rw [Hierarchy.members, Hierarchy.members, gains.inherited apart hd]
  exact gains.declareAll (apart d hd) _ d _

theorem face {d : ClassNode} (hd : d ∈ h.classes) :
    (h'.classInfo d).face = (h.classInfo d).face := by
  have hupward : (h'.classInfo d).upward = (h.classInfo d).upward :=
    congrArg (d :: ·) (gains.ancestors hd)
  have hown : (h'.classInfo d).own = (h.classInfo d).own :=
    congrArg Reported.value (gains.members apart hd)
  have habove : (h'.classInfo d).above = (h.classInfo d).above := gains.inherited apart hd
  simp only [ClassInfo.face, hupward, hown, habove]
  rfl

theorem find?_face {n : String} (hn : n ≠ c.name) :
    ((ClassTable.ofHierarchy h').find? n).map ClassInfo.face =
      ((ClassTable.ofHierarchy h).find? n).map ClassInfo.face := by
  rw [ClassTable.find?_ofHierarchy, ClassTable.find?_ofHierarchy, gains.find?_of_ne hn.symm]
  cases hd : h.find? n with
  | none => rfl
  | some d => exact congrArg some (gains.face apart (find?_mem hd))

theorem alike {d : ClassNode} (hd : d ∈ h.classes) :
    (h.context d).Alike (· ≠ c.name) (h'.context d) where
  self := (gains.face apart hd).symm
  root := (gains.face apart h.root_mem).symm
  parent := by
    change ((ClassTable.ofHierarchy h).parent? (h.classInfo d)).map ClassInfo.face =
      ((ClassTable.ofHierarchy h').parent? (h'.classInfo d)).map ClassInfo.face
    rw [ClassTable.parent?_ofHierarchy, ClassTable.parent?_ofHierarchy, gains.parent? hd]
    cases hp : h.parent? d with
    | none => rfl
    | some p => exact congrArg some (gains.face apart (parent?_mem hp)).symm
  find := fun _ hn => (gains.find?_face apart hn).symm

end Hierarchy.Gains

end ClassCheck
