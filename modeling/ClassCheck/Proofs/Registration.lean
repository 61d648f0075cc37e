import ClassCheck.Hierarchy.Registry
import ClassCheck.Proofs.Chains

/-! Which declarations are taken in: of several classes with one name the first, and none with the
name of a built-in class. -/

namespace ClassCheck

theorem find?_name_eq_none_iff {α : Type} {name : α → String} {l : List α} {n : String} :
    l.find? (name · == n) = none ↔ n ∉ l.map name := by
  simp only [List.find?_eq_none, beq_iff_eq, List.mem_map, not_exists, not_and]

theorem find?_name_eq_some_iff {α : Type} {name : α → String} {l : List α}
    (nodup : (l.map name).Nodup) {n : String} {a : α} :
    l.find? (name · == n) = some a ↔ a ∈ l ∧ name a = n := by
  constructor
  · intro h
    exact ⟨List.mem_of_find?_eq_some h, by simpa using List.find?_some h⟩
  · intro h
    obtain ⟨ha, rfl⟩ := h
    cases hb : l.find? (name · == name a) with
    | none => exact absurd (List.mem_map_of_mem ha) (find?_name_eq_none_iff.mp hb)
    | some b =>
      have hname : name b = name a := by simpa using List.find?_some hb
      rw [List.inj_on_of_nodup_map nodup (List.mem_of_find?_eq_some hb) ha hname]

/-- The declaration `d` is the first of its name among `ds`. -/
def FirstDeclared (ds : List (Option ClassDecl)) (d : ClassDecl) : Prop :=
  ∃ before after, ds = before ++ some d :: after ∧ ∀ e, some e ∈ before → e.name ≠ d.name

theorem firstDeclared_none_cons {ds : List (Option ClassDecl)} {d : ClassDecl} :
    FirstDeclared (none :: ds) d ↔ FirstDeclared ds d := by
  constructor
  · intro h
    obtain ⟨before, after, heq, hne⟩ := h
    cases before with
    | nil => simp at heq
    | cons o before =>
      obtain ⟨rfl, rfl⟩ := List.cons.inj heq
      exact ⟨before, after, rfl, fun e he => hne e (List.mem_cons_of_mem _ he)⟩
  · intro h
    obtain ⟨before, after, rfl, hne⟩ := h
    refine ⟨none :: before, after, rfl, fun e he => hne e ?_⟩
    simpa using he

theorem firstDeclared_some_cons {ds : List (Option ClassDecl)} {d e : ClassDecl} :
    FirstDeclared (some e :: ds) d ↔ d = e ∨ e.name ≠ d.name ∧ FirstDeclared ds d := by
  constructor
  · intro h
    obtain ⟨before, after, heq, hne⟩ := h
    cases before with
    | nil =>
      obtain ⟨he, -⟩ := List.cons.inj heq
      exact Or.inl (Option.some.inj he).symm
    | cons o before =>
      obtain ⟨rfl, rfl⟩ := List.cons.inj heq
      refine Or.inr ⟨hne e List.mem_cons_self, before, after, rfl, ?_⟩
      exact fun f hf => hne f (List.mem_cons_of_mem _ hf)
  · intro h
    rcases h with rfl | ⟨hed, before, after, rfl, hne⟩
    · exact ⟨[], ds, rfl, by simp⟩
    · refine ⟨some e :: before, after, rfl, fun f hf => ?_⟩
      rcases List.mem_cons.mp hf with hf | hf
      · cases hf
        exact hed
      · exact hne f hf

theorem FirstDeclared.mem {ds : List (Option ClassDecl)} {d : ClassDecl}
    (h : FirstDeclared ds d) : some d ∈ ds := by
  obtain ⟨before, after, rfl, -⟩ := h
  simp

namespace Registry

def names (r : Registry) : List String := r.classes.map (·.name)

theorem names_add (r : Registry) (c : Registered) : (r.add c).names = r.names ++ [c.name] := by
  simp [names, classes, add]

theorem find?_eq_none_iff {r : Registry} {n : String} : r.find? n = none ↔ n ∉ r.names :=
  find?_name_eq_none_iff

theorem add_names_nodup {r : Registry} (nodup : r.names.Nodup) {d : ClassDecl}
    (hd : r.find? d.name = none) : (r.add ⟨d, .user⟩).names.Nodup := by
  rw [names_add, List.nodup_append]
  refine ⟨nodup, by simp, ?_⟩
  intro n hn m hm hnm
  rw [hnm, List.mem_singleton.mp hm] at hn
  exact find?_eq_none_iff.mp hd hn

theorem mem_names_of_find? {r : Registry} {n : String} {c : Registered}
    (hc : r.find? n = some c) : n ∈ r.names := by
  by_contra hno
  rw [find?_eq_none_iff.mpr hno] at hc
  cases hc

theorem register_none (r : Registry) (ds : List (Option ClassDecl)) :
    r.register (none :: ds) = r.register ds := rfl

theorem register_new {r : Registry} {d : ClassDecl} (hd : r.find? d.name = none)
    (ds : List (Option ClassDecl)) :
    r.register (some d :: ds) = (r.add ⟨d, .user⟩).register ds := by
  rw [register, hd]

theorem register_old {r : Registry} {d : ClassDecl} {old : Registered}
    (hd : r.find? d.name = some old) (ds : List (Option ClassDecl)) :
    r.register (some d :: ds) =
      (Reported.report d.file d.line (redefinition old) >>= fun _ => r.register ds) := by
  rw [register, hd]

theorem register_names_nodup {r : Registry} (nodup : r.names.Nodup)
    (ds : List (Option ClassDecl)) : (r.register ds).value.names.Nodup := by
  induction ds generalizing r with
  | nil => exact nodup
  | cons o ds ih =>
    cases o with
    | none => exact ih nodup
    | some d =>
      cases hd : r.find? d.name with
      | none =>
        rw [register_new hd]
        exact ih (add_names_nodup nodup hd)
      | some old =>
        rw [register_old hd]
        exact ih nodup

theorem mem_register_others {r : Registry} {ds : List (Option ClassDecl)} {c : Registered} :
    c ∈ (r.register ds).value.others ↔
      c ∈ r.others ∨ ∃ d, c = ⟨d, .user⟩ ∧ FirstDeclared ds d ∧ d.name ∉ r.names := by
  induction ds generalizing r with
  | nil => simp [register, FirstDeclared]
  | cons o ds ih =>
    cases o with
    | none =>
      rw [register_none, ih]
      simp only [firstDeclared_none_cons]
    | some e =>
      cases he : r.find? e.name with
      | none =>
        rw [register_new he, ih, names_add]
        have hnew := find?_eq_none_iff.mp he
        simp only [add, List.mem_append, List.mem_singleton, firstDeclared_some_cons, not_or]
        constructor
        · intro h
          rcases h with (hc | rfl) | ⟨d, rfl, hd, hdr, hde⟩
          · exact Or.inl hc
          · exact Or.inr ⟨e, rfl, Or.inl rfl, hnew⟩
          · exact Or.inr ⟨d, rfl, Or.inr ⟨fun h => hde h.symm, hd⟩, hdr⟩
        · intro h
          rcases h with hc | ⟨d, rfl, rfl | ⟨hed, hd⟩, hdr⟩
          · exact Or.inl (Or.inl hc)
          · exact Or.inl (Or.inr rfl)
          · exact Or.inr ⟨d, rfl, hd, hdr, fun h => hed h.symm⟩
      | some old =>
        rw [register_old he]
        have hold := mem_names_of_find? he
        simp only [Reported.value_bind, ih, firstDeclared_some_cons]
        constructor
        · intro h
          rcases h with hc | ⟨d, rfl, hd, hdr⟩
          · exact Or.inl hc
          · exact Or.inr ⟨d, rfl, Or.inr ⟨fun h => hdr (h ▸ hold), hd⟩, hdr⟩
        · intro h
          rcases h with hc | ⟨d, rfl, rfl | ⟨-, hd⟩, hdr⟩
          · exact Or.inl hc
          · exact absurd hold hdr
          · exact Or.inr ⟨d, rfl, hd, hdr⟩

structure Sound (r : Registry) : Prop where
  names_nodup : r.names.Nodup
  others_not_root : ∀ c ∈ r.others, c.isRoot = false

theorem builtIn_sound : builtIn.Sound where
  names_nodup := by decide
  others_not_root := by
    intro c hc
    simp only [builtIn, List.mem_cons, List.not_mem_nil, or_false] at hc
    rcases hc with rfl | rfl | rfl <;> rfl

theorem ofProgram_sound (p : Option Program) : (ofProgram p).value.Sound where
  names_nodup := register_names_nodup builtIn_sound.names_nodup _
  others_not_root := by
    intro c hc
    rcases mem_register_others.mp hc with hb | ⟨d, rfl, -⟩
    · exact builtIn_sound.others_not_root c hb
    · rfl

theorem root_mem (r : Registry) : BuiltIn.root ∈ r.classes := List.mem_cons_self

theorem others_subset {r : Registry} {c : Registered} (hc : c ∈ r.others) : c ∈ r.classes :=
  List.mem_cons_of_mem _ hc

namespace Sound

variable {r : Registry} (sound : r.Sound)
include sound

theorem find?_eq_some_iff {n : String} {c : Registered} :
    r.find? n = some c ↔ c ∈ r.classes ∧ c.name = n :=
  find?_name_eq_some_iff sound.names_nodup

theorem eq_of_name {c d : Registered} (hc : c ∈ r.classes) (hd : d ∈ r.classes)
    (h : c.name = d.name) : c = d :=
  List.inj_on_of_nodup_map sound.names_nodup hc hd h

theorem isRoot_iff {c : Registered} (hc : c ∈ r.classes) : c.isRoot = true ↔ c = BuiltIn.root := by
  constructor
  · intro h
    rcases List.mem_cons.mp hc with rfl | ho
    · rfl
    · rw [sound.others_not_root c ho] at h
      cases h
  · intro h
    rw [h]
    rfl

end Sound

end Registry

end ClassCheck
