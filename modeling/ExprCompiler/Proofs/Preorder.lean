import Mathlib.Data.List.Basic
import ExprCompiler.Expr.Basic

/-!
# Walks in preorder

A walk keeps on a stack what it has still to go through, the next expression at
the end. What is still to come are the traversals of these expressions, one
after the other, and each turn takes the first node off this row; so a walk
gives the traversal of its expression, in as many turns as there are nodes.
A node is known by its place. The places of an expression come in their own
order, each of them once and before those below it.
-/

namespace ExprCompiler.Expr

mutual

def preorder : Expr → List Expr
  | binary op l r s => binary op l r s :: (l.preorder ++ r.preorder)
  | call callee args s => call callee args s :: preorders args
  | e => [e]

def preorders : List Expr → List Expr
  | [] => []
  | e :: es => e.preorder ++ preorders es

end

theorem preorders_eq_flatMap (es : List Expr) : preorders es = es.flatMap preorder := by
  induction es with
  | nil => rfl
  | cons e es ih => rw [preorders, ih, List.flatMap_cons]

theorem preorder_eq (e : Expr) : e.preorder = e :: e.children.flatMap preorder := by
  cases e <;> simp [preorder, preorders_eq_flatMap, children]

@[elab_as_elim]
theorem induction_children {motive : Expr → Prop} (e : Expr)
    (node : ∀ e, (∀ c ∈ e.children, motive c) → motive e) : motive e := by
  refine node e fun c hc => ?_
  have : c.size < e.size := by
    obtain ⟨before, after, h⟩ := List.append_of_mem hc
    rw [size_eq e, h, sizes_append, sizes]
    omega
  exact induction_children c node
termination_by e.size

/-! ### The turns of a walk -/

/-- A turn gives the expression at the end of the stack and puts the children in its place, the
first one at the end. -/
def resume? (stack : List Expr) : Option (Expr × List Expr) :=
  stack.getLast?.map fun e => (e, stack.dropLast ++ e.children.reverse)

inductive Yields : List Expr → List Expr → Prop
  | exhausted {stack : List Expr} (h : resume? stack = none) : Yields stack []
  | next {stack left given : List Expr} {x : Expr} (h : resume? stack = some (x, left))
    (hrest : Yields left given) : Yields stack (x :: given)

section

variable {e x : Expr} {stack left given : List Expr}

theorem walkFrom_eq_flatMap (stack : List Expr) : walkFrom stack = stack.flatMap preorder := by
  fun_induction walkFrom stack with
  | case1 => rfl
  | case2 e stack ih =>
    -- The children come off the stack before all that was below their parent.
    rw [ih, List.flatMap_append, List.flatMap_cons, preorder_eq, List.cons_append]

theorem length_walkFrom (stack : List Expr) : (walkFrom stack).length = sizes stack := by
  fun_induction walkFrom stack with
  | case1 => rfl
  | case2 e stack ih =>
    rw [List.length_cons, ih, sizes_append, sizes, size_eq]
    omega

theorem resume?_concat (below : List Expr) (x : Expr) :
    resume? (below ++ [x]) = some (x, below ++ x.children.reverse) := by
  simp [resume?]

theorem walkFrom_of_resume (h : resume? stack = some (x, left)) :
    walkFrom stack.reverse = x :: walkFrom left.reverse := by
  obtain rfl | ⟨below, e, rfl⟩ := List.eq_nil_or_concat' stack
  · cases h
  · rw [resume?_concat] at h
    cases h
    rw [List.reverse_concat, walkFrom, List.reverse_append, List.reverse_reverse]

theorem Yields.eq_walkFrom (h : Yields stack given) : given = walkFrom stack.reverse := by
  induction h with
  | @exhausted stack h =>
    have hempty : stack = [] := by simpa [resume?] using h
    rw [hempty, List.reverse_nil, walkFrom]
  | next h _ ih => rw [walkFrom_of_resume h, ih]

theorem yields_walkFrom (stack : List Expr) : Yields stack.reverse (walkFrom stack) := by
  fun_induction walkFrom stack with
  | case1 => exact .exhausted rfl
  | case2 e stack ih =>
    rw [List.reverse_append] at ih
    rw [List.reverse_cons]
    exact .next (resume?_concat _ e) ih

theorem yields_iff : Yields [e] given ↔ given = e.walk :=
  ⟨Yields.eq_walkFrom, fun h => h ▸ yields_walkFrom [e]⟩

end

/-! ### The places of the nodes -/

abbrev Place := List Nat

def get? : Expr → Place → Option Expr
  | e, [] => some e
  | e, i :: p => e.children[i]?.bind fun c => c.get? p

mutual

def places : Expr → List Place
  | binary _ l r _ => [] :: (l.places.map (0 :: ·) ++ r.places.map (1 :: ·))
  | call _ args _ => [] :: placesFrom 0 args
  | _ => [[]]

def placesFrom (i : Nat) : List Expr → List Place
  | [] => []
  | e :: es => e.places.map (i :: ·) ++ placesFrom (i + 1) es

end

section

variable {e : Expr} {p : Place}

theorem placesFrom_eq_flatMap (i : Nat) (es : List Expr) :
    placesFrom i es = (es.zipIdx i).flatMap fun c => c.1.places.map (c.2 :: ·) := by
  induction es generalizing i with
  | nil => rfl
  | cons e es ih => rw [placesFrom, ih, List.zipIdx_cons, List.flatMap_cons]

theorem places_eq (e : Expr) :
    e.places = [] :: e.children.zipIdx.flatMap fun c => c.1.places.map (c.2 :: ·) := by
  cases e <;> simp [places, placesFrom_eq_flatMap, children]

theorem cons_mem_places_iff {i : Nat} :
    i :: p ∈ e.places ↔ ∃ c, e.children[i]? = some c ∧ p ∈ c.places := by
  rw [places_eq, List.mem_cons, List.mem_flatMap]
  constructor
  · rintro (h | ⟨⟨c, j⟩, hc, hp⟩)
    · cases h
    · obtain ⟨q, hq, hcons⟩ := List.mem_map.1 hp
      obtain ⟨rfl, rfl⟩ := List.cons.inj hcons
      exact ⟨c, List.mem_zipIdx_iff_getElem?.1 hc, hq⟩
  · rintro ⟨c, hc, hp⟩
    exact .inr ⟨(c, i), List.mem_zipIdx_iff_getElem?.2 hc, List.mem_map_of_mem hp⟩

theorem mem_places_iff : p ∈ e.places ↔ (e.get? p).isSome := by
  induction p generalizing e with
  | nil => simp [places_eq e, get?]
  | cons i p ih =>
    rw [cons_mem_places_iff, get?]
    cases e.children[i]? with
    | none => simp
    | some c => simpa using ih

theorem map_get?_places (e : Expr) : e.places.map e.get? = e.preorder.map some := by
  induction e using induction_children with
  | node e ih =>
    have hbelow : ∀ c ∈ e.children.zipIdx,
        (c.1.places.map (c.2 :: ·)).map e.get? = c.1.preorder.map some := fun c hc => by
      have hat : e.children[c.2]? = some c.1 := List.mem_zipIdx_iff_getElem?.1 hc
      rw [← ih c.1 (List.mem_of_getElem? hat), List.map_map]
      exact List.map_congr_left fun p _ => by rw [Function.comp_apply, get?, hat, Option.bind_some]
    calc
      e.places.map e.get? =
          some e :: e.children.zipIdx.flatMap fun c => (c.1.places.map (c.2 :: ·)).map e.get? := by
        rw [places_eq, List.map_cons, List.map_flatMap, get?]
      _ = some e :: e.children.zipIdx.flatMap fun c => c.1.preorder.map some := by
        rw [List.flatMap_congr hbelow]
      _ = some e :: (e.children.zipIdx.map Prod.fst).flatMap fun c => c.preorder.map some := by
        rw [List.flatMap_map]
      _ = e.preorder.map some := by
        rw [List.zipIdx_map_fst, preorder_eq, List.map_cons, List.map_flatMap]

theorem places_ordered (e : Expr) : e.places.Pairwise (· < ·) := by
  induction e using induction_children with
  | node e ih =>
    rw [places_eq, List.pairwise_cons, List.pairwise_flatMap]
    have hindex : e.children.zipIdx.Pairwise fun c d => c.2 < d.2 := by
      rw [List.pairwise_iff_getElem]
      intro i j hi hj hij
      simpa using hij
    -- The node and what is below it, two places below one child, and places below two children.
    refine ⟨fun p hp => ?_, fun c hc => ?_, hindex.imp fun hlt p hp q hq => ?_⟩
    · obtain ⟨c, -, q, -, rfl⟩ : ∃ c ∈ e.children.zipIdx, ∃ q ∈ c.1.places, c.2 :: q = p := by
        simpa using hp
      exact List.nil_lt_cons _ _
    · have hc' := List.mem_of_getElem? (List.mem_zipIdx_iff_getElem?.1 hc)
      rw [List.pairwise_map]
      exact (ih c.1 hc').imp fun h => List.cons_lt_cons_self.2 h
    · obtain ⟨p, -, rfl⟩ := List.mem_map.1 hp
      obtain ⟨q, -, rfl⟩ := List.mem_map.1 hq
      exact List.cons_lt_cons_iff.2 (.inl hlt)

/-- A walk ends in as many turns as the expression has nodes, and gives its traversal: the node at
every place, once and before all those below it. -/
theorem walk_preorder (e : Expr) :
    (∀ given, Yields [e] given ↔ given = e.walk) ∧ e.walk = e.preorder ∧
      e.walk.length = e.size ∧ e.walk.map some = e.places.map e.get? ∧
      (∀ p, p ∈ e.places ↔ (e.get? p).isSome) ∧ e.places.Nodup ∧
      e.places.Pairwise fun p q => p < q ∧ ¬ q <+: p := by
  have hwalk : e.walk = e.preorder := by
    rw [walk, walkFrom_eq_flatMap, List.flatMap_singleton]
  have hlength : e.walk.length = e.size := by
    rw [walk, length_walkFrom, sizes, sizes, Nat.add_zero]
  have hnodes : e.walk.map some = e.places.map e.get? := by rw [hwalk, map_get?_places]
  have hbefore : e.places.Pairwise fun p q => p < q ∧ ¬ q <+: p :=
    e.places_ordered.imp fun hlt => ⟨hlt, fun hprefix => List.not_lt.2 hprefix.le hlt⟩
  have hnodup : e.places.Nodup := by
    refine hbefore.imp ?_
    rintro p _ h rfl
    exact h.2 (List.prefix_refl p)
  exact ⟨fun _ => yields_iff, hwalk, hlength, hnodes, fun _ => mem_places_iff, hnodup, hbefore⟩

example : (binary "*" (call "f" [var "a" none, var "b" none] none)
    (binary "+" (var "c" none) (number 1 none) none) none).walk.map text =
      ["(* (call f a b) (+ c 1))", "(call f a b)", "a", "b", "(+ c 1)", "c", "1"] := by cbv

end

end ExprCompiler.Expr
