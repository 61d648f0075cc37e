import ClassCheck.Proofs.PartsFirst

/-!
# A walk that turns back

A node is reached through the places that syntax has for parts, and the ways to all nodes, in the
order of the places, are what a full walk goes through. A walk that turns back at some nodes leaves
out what is below them, and nothing else. Equal nodes may stand at several places, so the walk is
followed with a label for each place, and where it turns back may depend on the label.
-/

namespace ClassCheck

/-! ### Places -/

def Stmt.slots : Stmt → List Node
  | .absent | .breakLoop _ => []
  | .decl _ _ _ init => [.expr init]
  | .expr _ value => [.expr value]
  | .ifElse _ condition thenBranch elseBranch =>
      [.expr condition, .stmt thenBranch, .stmt elseBranch]
  | .whileLoop _ condition body => [.expr condition, .stmt body]
  | .forLoop _ init condition update body =>
      [.expr init, .expr condition, .expr update, .stmt body]
  | .block _ body => body.map .stmt
  | .ret _ value => [.expr value]

/-- The labels above the place `p`, from the top on. -/
def labelsAbove {α : Type} (label : List Nat → Option α) (p : List Nat) : List α :=
  (List.range p.length).filterMap fun k => label (p.take k)

namespace Node

def ofClass : Option ClassDecl → Node
  | none => .noClass
  | some c => .classDecl c

def ofMember : Member → Node
  | .field f => .field f
  | .method m => .method m

def isPresent : Node → Bool
  | .expr .absent | .stmt .absent => false
  | _ => true

/-- The places for parts right below a node, in source order; absent parts have theirs, but not
empty places among the members of a class. -/
def slots : Node → List Node
  | .program p => p.classes.map ofClass
  | .classDecl c => (c.members.filterMap id).map ofMember
  | .field f => [.expr f.init]
  | .method m => m.formals.map .formal ++ m.body.map .stmt
  | .stmt s => s.slots
  | .expr e => e.parts.map .expr
  | .noClass | .formal _ => []

/-- The node that is reached from `n` through the given places, one below the other. -/
def at? : Node → List Nat → Option Node
  | n, [] => if n.isPresent then some n else none
  | n, i :: p => n.slots[i]?.bind fun m => m.at? p

def above (n : Node) (p : List Nat) : List Node := labelsAbove n.at? p

def trees : Node → List (Tree Node)
  | .program p => [p.tree]
  | .noClass => [.node .noClass []]
  | .classDecl c => [c.tree]
  | .field f => [f.tree]
  | .method m => [m.tree]
  | .formal f => [f.tree]
  | .stmt s => s.trees
  | .expr e => e.trees

def visited (keep : Node → Bool) (n : Node) : List Node := n.trees.flatMap (·.visited keep)

end Node

/-! ### The tree of a node -/

theorem Expr.treesOfAll_eq (es : List Expr) :
    treesOfAll es = (es.map Node.expr).flatMap Node.trees := by
  induction es with
  | nil => rfl
  | cons e es ih => rw [treesOfAll, ih, List.map_cons, List.flatMap_cons, Node.trees]

theorem Stmt.treesOfAll_eq (ss : List Stmt) :
    treesOfAll ss = (ss.map Node.stmt).flatMap Node.trees := by
  induction ss with
  | nil => rfl
  | cons s ss ih => rw [treesOfAll, ih, List.map_cons, List.flatMap_cons, Node.trees]

namespace Node

theorem eq_absent {n : Node} (hn : n.isPresent = false) :
    n = .expr .absent ∨ n = .stmt .absent := by
  unfold isPresent at hn
  split at hn
  · exact .inl rfl
  · exact .inr rfl
  · cases hn

theorem trees_of_absent {n : Node} (hn : n.isPresent = false) : n.trees = [] := by
  rcases eq_absent hn with rfl | rfl <;> rfl

theorem flatMap_trees {α : Type} {part : α → Node} {tree : α → Tree Node}
    (h : ∀ a, (part a).trees = [tree a]) (as : List α) :
    (as.map part).flatMap trees = as.map tree := by
  induction as with
  | nil => rfl
  | cons a as ih =>
    rw [List.map_cons, List.flatMap_cons, h, ih, List.map_cons, List.singleton_append]

theorem trees_eq {n : Node} (hn : n.isPresent = true) :
    n.trees = [.node n (n.slots.flatMap trees)] := by
  cases n with
  | program p =>
    have hclass : ∀ o, (ofClass o).trees = [match o with
        | none => .node .noClass []
        | some c => c.tree] := by
      intro o
      cases o <;> rfl
    exact congrArg (fun ts => [Tree.node (.program p) ts]) (flatMap_trees hclass p.classes).symm
  | noClass => rfl
  | classDecl c =>
    have hmember : ∀ m, (ofMember m).trees = [m.tree] := by
      intro m
      cases m <;> rfl
    have hparts : c.members.filterMap (·.map Member.tree) =
        ((c.members.filterMap id).map ofMember).flatMap trees := by
      rw [flatMap_trees hmember, List.map_filterMap]
      rfl
    exact congrArg (fun ts => [Tree.node (.classDecl c) ts]) hparts
  | field f => simp [trees, slots, Field.tree]
  | method m =>
    have hparts : m.formals.map Formal.tree ++ Stmt.treesOfAll m.body =
        (m.formals.map Node.formal ++ m.body.map Node.stmt).flatMap trees := by
      rw [List.flatMap_append, flatMap_trees (fun _ => rfl), Stmt.treesOfAll_eq]
    exact congrArg (fun ts => [Tree.node (.method m) ts]) hparts
  | formal f => rfl
  | stmt s =>
    cases s with
    | absent => cases hn
    | _ => simp [trees, slots, Stmt.slots, Stmt.trees, Stmt.treesOfAll_eq]
  | expr e =>
    cases e with
    | absent => cases hn
    | _ => simp [trees, slots, Expr.parts, Expr.trees, Expr.treesOfAll_eq]

end Node

/-! ### Labels -/

mutual

def Tree.map {α β : Type} (f : α → β) : Tree α → Tree β
  | .node item children => .node (f item) (Tree.mapAll f children)

def Tree.mapAll {α β : Type} (f : α → β) : List (Tree α) → List (Tree β)
  | [] => []
  | t :: ts => t.map f :: Tree.mapAll f ts

end

namespace Tree

theorem mapAll_eq {α β : Type} (f : α → β) (ts : List (Tree α)) : mapAll f ts = ts.map (map f) := by
  induction ts with
  | nil => rfl
  | cons t ts ih => rw [mapAll, ih, List.map_cons]

theorem map_id {α : Type} (t : Tree α) : t.map id = t := by
  induction t with
  | node item children ih =>
    have hchildren : children.map (map id) = children :=
      (List.map_congr_left ih).trans (List.map_id children)
    rw [map, mapAll_eq, hchildren, id]

end Tree

namespace Node

variable {α : Type} {name : α → Node}

theorem exists_parts {ns : List Node} {ts : List (Tree α)}
    (h : ts.map (Tree.map name) = ns.flatMap trees) :
    ∃ parts : List (Node × List (Tree α)), parts.map Prod.fst = ns ∧
      parts.flatMap Prod.snd = ts ∧ ∀ x ∈ parts, x.2.map (Tree.map name) = x.1.trees := by
  induction ns generalizing ts with
  | nil => exact ⟨[], rfl, (List.map_eq_nil_iff.mp h).symm, by simp⟩
  | cons n ns ih =>
    obtain ⟨first, rest, rfl, hfirst, hrest⟩ := List.map_eq_append_iff.mp h
    obtain ⟨parts, rfl, rfl, hparts⟩ := ih hrest
    exact ⟨(n, first) :: parts, rfl, rfl, List.forall_mem_cons.mpr ⟨hfirst, hparts⟩⟩

theorem exists_label {n : Node} (hn : n.isPresent = true) {ts : List (Tree α)}
    (h : ts.map (Tree.map name) = n.trees) :
    ∃ a children, ts = [.node a children] ∧ name a = n ∧
      children.map (Tree.map name) = n.slots.flatMap trees := by
  rw [trees_eq hn, List.map_eq_singleton_iff] at h
  obtain ⟨⟨a, children⟩, rfl, ht⟩ := h
  rw [Tree.map, Tree.mapAll_eq] at ht
  obtain ⟨ha, hchildren⟩ := Tree.node.inj ht
  exact ⟨a, children, rfl, ha, hchildren⟩

end Node

/-! ### Induction over parts -/

@[elab_as_elim]
theorem Node.slots_induction {motive : Node → Prop}
    (step : ∀ n, (∀ m ∈ n.slots, motive m) → motive n) (n : Node) : motive n := by
  -- from the inside out: only expressions and statements hold parts of their own kind
  have hexpr : ∀ e, motive (.expr e) := by
    intro e
    induction e using Expr.parts_induction with
    | step e ih => exact step _ (by simpa [slots] using ih)
  have hstmt : ∀ s, motive (.stmt s) := by
    intro s
    induction s with
    | absent | breakLoop => exact step _ (by simp [slots, Stmt.slots])
    | decl | expr | ret => exact step _ (by simpa [slots, Stmt.slots] using hexpr _)
    | ifElse _ _ _ _ iht ihe =>
      exact step _ (by simpa [slots, Stmt.slots] using ⟨hexpr _, iht, ihe⟩)
    | whileLoop _ _ _ ih => exact step _ (by simpa [slots, Stmt.slots] using ⟨hexpr _, ih⟩)
    | forLoop _ _ _ _ _ ih =>
      exact step _ (by simpa [slots, Stmt.slots] using ⟨hexpr _, hexpr _, hexpr _, ih⟩)
    | block _ _ ih => exact step _ (by simpa [slots, Stmt.slots] using ih)
  have hformal : ∀ f, motive (.formal f) := fun f => step _ (by simp [slots])
  have hmember : ∀ m, motive (ofMember m) := by
    intro m
    cases m with
    | field f => exact step (.field f) (by simpa [slots] using hexpr _)
    | method m =>
      refine step (.method m) fun n hn => ?_
      rcases List.mem_append.mp hn with hn | hn
      · obtain ⟨f, -, rfl⟩ := List.mem_map.mp hn
        exact hformal f
      · obtain ⟨s, -, rfl⟩ := List.mem_map.mp hn
        exact hstmt s
  have hclass : ∀ o, motive (ofClass o) := by
    intro o
    cases o with
    | none => exact step .noClass (by simp [slots])
    | some c =>
      refine step (.classDecl c) fun n hn => ?_
      obtain ⟨m, -, rfl⟩ := List.mem_map.mp hn
      exact hmember m
  cases n with
  | program p =>
    refine step _ fun n hn => ?_
    obtain ⟨o, -, rfl⟩ := List.mem_map.mp hn
    exact hclass o
  | noClass => exact hclass none
  | classDecl c => exact hclass (some c)
  | field f => exact hmember (.field f)
  | method m => exact hmember (.method m)
  | formal f => exact hformal f
  | stmt s => exact hstmt s
  | expr e => exact hexpr e

/-! ### The order of places -/

theorem prefix_of_lex_between {p q r : List Nat} (hpr : List.Lex (· < ·) p r)
    (hrq : List.Lex (· < ·) r q) (hpq : p <+: q) : p <+: r := by
  induction hpr generalizing q with
  | nil => exact List.nil_prefix
  | rel hlt =>
    obtain ⟨rest, rfl⟩ := hpq
    cases hrq with
    | rel hgt => exact absurd hgt (Nat.lt_asymm hlt)
    | cons _ => exact absurd hlt (Nat.lt_irrefl _)
  | cons _ ih =>
    obtain ⟨rest, rfl⟩ := hpq
    cases hrq with
    | rel hlt => exact absurd hlt (Nat.lt_irrefl _)
    | cons hrest => exact List.cons_prefix_cons.mpr ⟨rfl, ih hrest (List.prefix_append _ rest)⟩

/-- In order, those below a place come first among all that come after it. -/
theorem exists_split_below {p : List Nat} {places : List (List Nat)}
    (hordered : places.Pairwise (List.Lex (· < ·))) (hafter : ∀ q ∈ places, List.Lex (· < ·) p q) :
    ∃ below after, places = below ++ after ∧ (∀ q ∈ below, p <+: q) ∧ ∀ q ∈ after, ¬ p <+: q := by
  induction places with
  | nil => exact ⟨[], [], rfl, by simp, by simp⟩
  | cons r places ih =>
    obtain ⟨hr, hordered⟩ := List.pairwise_cons.mp hordered
    obtain ⟨hpr, hafter⟩ := List.forall_mem_cons.mp hafter
    by_cases hextends : p <+: r
    · obtain ⟨below, after, rfl, hbelow, hrest⟩ := ih hordered hafter
      exact ⟨r :: below, after, rfl, List.forall_mem_cons.mpr ⟨hextends, hbelow⟩, hrest⟩
    · refine ⟨[], r :: places, rfl, by simp, List.forall_mem_cons.mpr ⟨hextends, ?_⟩⟩
      exact fun q hq hpq => hextends (prefix_of_lex_between hpr (hr q hq) hpq)

namespace Node

theorem at?_nil {n : Node} (hn : n.isPresent = true) : n.at? [] = some n := if_pos hn

theorem at?_cons {n m : Node} {i : Nat} (hm : n.slots[i]? = some m) (p : List Nat) :
    n.at? (i :: p) = m.at? p := by
  rw [at?, hm, Option.bind_some]

theorem at?_of_absent {n : Node} (hn : n.isPresent = false) (p : List Nat) : n.at? p = none := by
  rcases eq_absent hn with rfl | rfl <;> cases p <;> rfl

def labelBelow {α : Type} (a : α) (below : Nat → List Nat → Option α) : List Nat → Option α
  | [] => some a
  | i :: p => below i p

theorem labelsAbove_cons {α : Type} (a : α) (below : Nat → List Nat → Option α) (i : Nat)
    (p : List Nat) :
    labelsAbove (labelBelow a below) (i :: p) = a :: labelsAbove (below i) p := by
  rw [labelsAbove, List.length_cons, List.range_succ_eq_map, List.filterMap_cons, List.take_zero,
    List.filterMap_map]
  rfl

/-- The labels of the trees, place by place. A walk over the trees which turns back where `keep`
fails goes through the places that have no such label above. -/
structure Labelled (root : Node) (places : List (List Nat)) {α : Type} (name : α → Node)
    (ts : List (Tree α)) (label : List Nat → Option α) : Prop where
  named : ∀ p, (label p).map name = root.at? p
  visited : ∀ keep : α → Bool, (ts.flatMap (·.visited keep)).map some =
    (places.filter fun p => (labelsAbove label p).all keep).map label

/-- The places of the nodes that walks from `root` visit, in the order they are visited. -/
structure Listing (root : Node) (places : List (List Nat)) : Prop where
  ordered : places.Pairwise (List.Lex (· < ·))
  complete : ∀ p, p ∈ places ↔ (root.at? p).isSome = true
  labelled : ∀ {α : Type} {name : α → Node} {ts : List (Tree α)},
    ts.map (Tree.map name) = root.trees → ∃ label, root.Labelled places name ts label

theorem Listing.absent {n : Node} (hn : n.isPresent = false) : Listing n [] where
  ordered := .nil
  complete := fun p => by simp [at?_of_absent hn p]
  labelled := by
    intro α name ts hts
    rw [trees_of_absent hn, List.map_eq_nil_iff] at hts
    subst hts
    exact ⟨fun _ => none, fun p => (at?_of_absent hn p).symm, fun _ => rfl⟩

section Below

variable {n : Node}

def placesBelow (n : Node) (below : Node → List (List Nat)) : List (List Nat) :=
  n.slots.zipIdx.flatMap fun s => (below s.1).map (s.2 :: ·)

theorem mem_placesBelow {below : Node → List (List Nat)} {p : List Nat} :
    p ∈ n.placesBelow below ↔ ∃ i m, n.slots[i]? = some m ∧ ∃ q ∈ below m, i :: q = p := by
  simp only [placesBelow, List.mem_flatMap, List.mem_map, List.mem_zipIdx_iff_getElem?]
  constructor
  · rintro ⟨⟨m, i⟩, hm, hp⟩
    exact ⟨i, m, hm, hp⟩
  · rintro ⟨i, m, hm, hp⟩
    exact ⟨(m, i), hm, hp⟩

variable {below : Node → List (List Nat)}
  (hbelow : ∀ (i : Nat) m, n.slots[i]? = some m → Listing m (below m))
include hbelow

theorem ordered_placesBelow : (n.placesBelow below).Pairwise (List.Lex (· < ·)) := by
  have hindices : n.slots.zipIdx.Pairwise fun s s' => s.2 < s'.2 := by
    rw [← List.pairwise_map, List.zipIdx_map_snd]
    exact List.pairwise_lt_range' 1
  rw [placesBelow, List.pairwise_flatMap]
  constructor
  · intro s hs
    have hlisting := hbelow s.2 s.1 (List.mem_zipIdx_iff_getElem?.mp hs)
    exact List.pairwise_map.mpr (hlisting.ordered.imp .cons)
  · refine hindices.imp fun hlt x hx y hy => ?_
    obtain ⟨q, -, rfl⟩ := List.mem_map.mp hx
    obtain ⟨q', -, rfl⟩ := List.mem_map.mp hy
    exact .rel hlt

theorem exists_labels {α : Type} {name : α → Node} {parts : List (Node × List (Tree α))}
    (hslots : parts.map Prod.fst = n.slots)
    (hparts : ∀ x ∈ parts, x.2.map (Tree.map name) = x.1.trees) (i : Nat) :
    ∃ label : List Nat → Option α, (∀ p, (label p).map name = n.at? (i :: p)) ∧
      ∀ x, parts[i]? = some x → x.1.Labelled (below x.1) name x.2 label := by
  cases hx : parts[i]? with
  | none =>
    have hi : n.slots[i]? = none := by rw [← hslots, List.getElem?_map, hx, Option.map_none]
    refine ⟨fun _ => none, fun p => ?_, nofun⟩
    rw [at?, hi, Option.bind_none, Option.map_none]
  | some x =>
    have hi : n.slots[i]? = some x.1 := by rw [← hslots, List.getElem?_map, hx, Option.map_some]
    obtain ⟨label, hlabel⟩ := (hbelow i x.1 hi).labelled (hparts x (List.mem_of_getElem? hx))
    refine ⟨label, fun p => ?_, fun y hy => ?_⟩
    · rw [hlabel.named, at?_cons hi]
    · cases hy
      exact hlabel

omit hbelow in
/-- Below a label, a walk goes through the places that the parts have, or turns back at once. -/
theorem visited_placesBelow {α : Type} {name : α → Node} {parts : List (Node × List (Tree α))}
    (hslots : parts.map Prod.fst = n.slots) {labels : Nat → List Nat → Option α}
    (hlabels : ∀ (i : Nat) (x), parts[i]? = some x →
      x.1.Labelled (below x.1) name x.2 (labels i)) (a : α) (keep : α → Bool) :
    ((n.placesBelow below).filter fun p => (labelsAbove (labelBelow a labels) p).all keep).map
        (labelBelow a labels) =
      if keep a then ((parts.flatMap Prod.snd).flatMap (·.visited keep)).map some else [] := by
  have hpart : ∀ s ∈ parts.zipIdx,
      ((((below s.1.1).map (s.2 :: ·)).filter fun p =>
          (labelsAbove (labelBelow a labels) p).all keep).map (labelBelow a labels)) =
        if keep a then (s.1.2.flatMap (·.visited keep)).map some else [] := by
    intro s hs
    have hlabel := hlabels s.2 s.1 (List.mem_zipIdx_iff_getElem?.mp hs)
    rw [List.filter_map, List.map_map, hlabel.visited keep]
    -- the label itself is above all of these places, and the rest of what is above is in the part
    simp only [Function.comp_def, labelsAbove_cons, labelBelow, List.all_cons]
    cases keep a <;> simp
  rw [placesBelow, ← hslots, List.zipIdx_map, List.flatMap_map, List.filter_flatMap,
    List.map_flatMap]
  refine (List.flatMap_congr hpart).trans ?_
  cases keep a with
  | false => simp
  | true =>
    nth_rewrite 2 [← List.zipIdx_map_fst 0 parts]
    rw [List.flatMap_map, List.flatMap_assoc, List.map_flatMap]
    rfl

theorem Listing.node (hn : n.isPresent = true) : Listing n ([] :: n.placesBelow below) where
  ordered := by
    refine List.pairwise_cons.mpr ⟨fun p hp => ?_, ordered_placesBelow hbelow⟩
    obtain ⟨i, m, -, q, -, rfl⟩ := mem_placesBelow.mp hp
    exact .nil
  complete := by
    intro p
    cases p with
    | nil => simp [at?_nil hn]
    | cons i q =>
      rw [List.mem_cons, or_iff_right (List.cons_ne_nil i q), mem_placesBelow]
      constructor
      · rintro ⟨j, m, hm, q', hq', heq⟩
        obtain ⟨rfl, rfl⟩ := List.cons.inj heq
        rw [at?_cons hm]
        exact ((hbelow _ m hm).complete q').mp hq'
      · intro hsome
        obtain ⟨x, hx⟩ := Option.isSome_iff_exists.mp hsome
        obtain ⟨m, hm, hmx⟩ := Option.bind_eq_some_iff.mp hx
        refine ⟨i, m, hm, q, ((hbelow i m hm).complete q).mpr ?_, rfl⟩
        rw [hmx]
        rfl
  labelled := by
    intro α name ts hts
    obtain ⟨a, children, rfl, ha, hchildren⟩ := exists_label hn hts
    obtain ⟨parts, hslots, rfl, hparts⟩ := exists_parts hchildren
    choose labels hnamed hlabels using exists_labels hbelow hslots hparts
    refine ⟨labelBelow a labels, ?_, fun keep => ?_⟩
    · rintro (_ | ⟨i, p⟩)
      · rw [labelBelow, Option.map_some, ha, at?_nil hn]
      · exact hnamed i p
    · rw [List.flatMap_singleton, Tree.visited_node, List.filter_cons_of_pos rfl, List.map_cons,
        List.map_cons, visited_placesBelow hslots hlabels a keep]
      cases keep a <;> rfl

end Below

theorem exists_listing (root : Node) : ∃ places, Listing root places := by
  induction root using slots_induction with
  | step n ih =>
    cases hn : n.isPresent with
    | false => exact ⟨[], .absent hn⟩
    | true =>
      choose! below hbelow using ih
      exact ⟨_, .node (fun i m hm => hbelow m (List.mem_of_getElem? hm)) hn⟩

theorem Listing.nodup {root : Node} {places : List (List Nat)} (h : Listing root places) :
    places.Nodup := by
  refine List.Pairwise.imp ?_ h.ordered
  rintro p _ hlex rfl
  exact List.lt_irrefl p hlex

theorem Listing.visited {root : Node} {places : List (List Nat)} (h : Listing root places)
    (keep : Node → Bool) : (root.visited keep).map some =
      (places.filter fun p => (root.above p).all keep).map root.at? := by
  have hself : root.trees.map (Tree.map id) = root.trees := by
    rw [List.map_congr_left fun t _ => t.map_id, List.map_id']
  obtain ⟨label, hlabel⟩ := h.labelled hself
  have heq : label = root.at? := funext fun p => by rw [← hlabel.named p, Option.map_id, id]
  rw [Node.visited, hlabel.visited keep, heq]
  rfl

theorem Listing.visited_all {root : Node} {places : List (List Nat)} (h : Listing root places) :
    (root.visited fun _ => true).map some = places.map root.at? := by
  have hall : ∀ p ∈ places, ((root.above p).all fun _ => true) = true :=
    fun p _ => List.all_eq_true.mpr fun _ _ => rfl
  rw [h.visited, List.filter_eq_self.mpr hall]

theorem Listing.contiguous {root : Node} {places : List (List Nat)} (h : Listing root places)
    {p : List Nat} (hp : p ∈ places) :
    ∃ before below after, places = before ++ p :: (below ++ after) ∧ (∀ q ∈ below, p <+: q) ∧
      ∀ q ∈ before ++ after, ¬ p <+: q := by
  obtain ⟨before, rest, rfl⟩ := List.append_of_mem hp
  obtain ⟨-, hrest, hbefore⟩ := List.pairwise_append.mp h.ordered
  obtain ⟨hafter, hordered⟩ := List.pairwise_cons.mp hrest
  obtain ⟨below, after, rfl, hbelow, hnot⟩ := exists_split_below hordered hafter
  refine ⟨before, below, after, rfl, hbelow, fun q hq => ?_⟩
  rcases List.mem_append.mp hq with hq | hq
  · have hlex : q < p := hbefore q hq p List.mem_cons_self
    exact fun hpq => List.not_lt.mpr hpq.le hlex
  · exact hnot q hq

end Node

/-- From every node, the full walk visits what is at each place once, with what is below a place
right after it. A walk that turns back visits the same in the same order, but for the places below
nodes where it turns back; and so it does if it turns back by labels that tell equal nodes apart. -/
theorem pruned_walk_exact (root : Node) :
    ∃ places : List (List Nat),
      places.Nodup ∧ places.Pairwise (List.Lex (· < ·)) ∧
      (∀ p, p ∈ places ↔ (root.at? p).isSome = true) ∧
      (root.visited fun _ => true).map some = places.map root.at? ∧
      (∀ keep, (root.visited keep).map some =
        (places.filter fun p => (root.above p).all keep).map root.at?) ∧
      (∀ p ∈ places, ∃ before below after, places = before ++ p :: (below ++ after) ∧
        (∀ q ∈ below, p <+: q) ∧ ∀ q ∈ before ++ after, ¬ p <+: q) ∧
      ∀ (α : Type) (name : α → Node) (ts : List (Tree α)),
        ts.map (Tree.map name) = root.trees →
        ∃ label : List Nat → Option α, (∀ p, (label p).map name = root.at? p) ∧
          ∀ keep : α → Bool, (ts.flatMap (·.visited keep)).map some =
            (places.filter fun p => (labelsAbove label p).all keep).map label := by
  obtain ⟨places, h⟩ := root.exists_listing
  refine ⟨places, h.nodup, h.ordered, h.complete, h.visited_all, h.visited,
    fun p hp => h.contiguous hp, fun α name ts hts => ?_⟩
  obtain ⟨label, hlabel⟩ := h.labelled hts
  exact ⟨label, hlabel.named, hlabel.visited⟩

end ClassCheck
