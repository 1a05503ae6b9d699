import TailLisp.Proofs.Crafting

/-!
# TailLisp.Proofs.Grammar

**Generated programs obey the grammar of the target language.** The tree view of a program admits
trees that no program has: a function without a body, a `Return` at the top, a chain of comparisons
that compares nothing. `Tree.isLegal` checks a tree node by node against the rules that the target
language has for them, and the main result is that every program which comes out of a compilation
passes this check (`Program.compile_obeys_grammar`).

A jump out of a loop and a return depend on what is around them, so the rules are checked at a
`Tree.Spot`. Code that is made of a material obeys them where it stands, whatever the material is.
-/

namespace TailLisp

/-! ### The rules -/

namespace Tree

/-- Where the part of a node stands. -/
def Spot.below (spot : Spot) (kind part : String) : Spot :=
  if kind = "FunctionDef" ∧ part = "body" then { inFunction := true }
  else if kind = "While" ∧ part = "body" then { inFunction := spot.inFunction, inLoop := true }
  else { inFunction := spot.inFunction, inLoop := spot.inLoop,
         isTarget := kind = "Assign" ∧ part = "targets" }

/-- The items of the part of a node that is a row. -/
def itemsOf (parts : List (String × Tree)) (part : String) : List Tree :=
  match parts.lookup part with
  | some (.row items) => items
  | _ => []

/-- Is the tree a node of a kind? -/
def isKind (kind : String) : Tree → Bool
  | .node k _ _ => k = kind
  | _ => false

/-- Is the tree the given word? -/
def isWord (text : String) : Tree → Bool
  | .word t => t = text
  | _ => false

/-- The rules for a single node. -/
def obeysRule (spot : Spot) (kind : String) (parts : List (String × Tree)) : Bool :=
  if kind = "FunctionDef" ∨ kind = "While" ∨ kind = "If" then !(itemsOf parts "body").isEmpty
  else if kind = "Return" then spot.inFunction
  else if kind = "Continue" then spot.inLoop && spot.isLast
  else if kind = "BoolOp" then 2 ≤ (itemsOf parts "values").length
  else if kind = "Compare" then
    0 < (itemsOf parts "ops").length
      && (itemsOf parts "ops").length = (itemsOf parts "comparators").length
  else if kind = "Dict" then (itemsOf parts "keys").length = (itemsOf parts "values").length
  else if kind = "Assign" then
    (itemsOf parts "targets").length = 1 && (itemsOf parts "targets").all (isKind "Name")
  else if kind = "Name" then
    (parts.lookup "ctx").any (isWord (if spot.isTarget then "Store" else "Load"))
  else true

mutual

/-- Does the tree obey the rules, at every node of it? -/
def isLegal (spot : Spot) : Tree → Bool
  | .node kind _ parts => obeysRule spot kind parts && arePartsLegal spot kind parts
  | .row items => areLegal spot items
  | .word _ => true
  | .const _ => true

/-- Do the parts of a node obey the rules? -/
def arePartsLegal (spot : Spot) (kind : String) : List (String × Tree) → Bool
  | [] => true
  | (part, t) :: parts => isLegal (spot.below kind part) t && arePartsLegal spot kind parts

/-- Do the items of a row obey the rules? -/
def areLegal (spot : Spot) : List Tree → Bool
  | [] => true
  | t :: ts => isLegal { spot with isLast := ts.isEmpty } t && areLegal spot ts

end

end Tree

/-! ### From expressions and statements to their trees -/

namespace Tree

@[simp] theorem areLegal_replicate (spot : Spot) (text : String) (n : Nat) :
    areLegal spot (List.replicate n (.word text)) = true := by
  induction n with
  | zero => rfl
  | succ n ih => simpa [List.replicate_succ, areLegal, isLegal] using ih

@[simp] theorem isLegal_params (spot : Spot) (place : Span) (names : List String)
    (rest : Option String) : (params place names rest).isLegal spot = true := by
  have hnames : ∀ spot : Spot, areLegal spot (names.map (param place)) = true := by
    intro spot
    induction names with
    | nil => rfl
    | cons name names ih => simp [areLegal, isLegal, param, obeysRule, arePartsLegal, ih]
  cases rest <;>
    simp [params, isLegal, obeysRule, arePartsLegal, areLegal, hnames, param]

end Tree

namespace Expr

open Tree

theorem length_treesOf (above : Span) (es : List Expr) :
    (treesOf above es).length = es.length := by
  induction es with
  | nil => rfl
  | cons e es ih => simp [treesOf, ih]

theorem length_treesOfKeys (above : Span) (entries : List (Expr × Expr)) :
    (treesOfKeys above entries).length = (treesOfValues above entries).length := by
  induction entries with
  | nil => rfl
  | cons entry entries ih => simp [treesOfKeys, treesOfValues, ih]

variable {M : Material}

mutual

/-- The tree of an expression obeys the rules, by recursion on the expression. -/
theorem isLegal_tree : ∀ (e : Expr) (above : Span) (spot : Spot), e.MadeOf M →
    spot.isTarget = false → (e.tree above).isLegal spot = true
  | .const _ _, _, _, _, _ => by simp [tree, Tree.isLegal, obeysRule, arePartsLegal]
  | .name _ _, _, _, _, ht => by
    simp [tree, nameAt, Tree.isLegal, obeysRule, arePartsLegal, isWord, ht, List.lookup_cons]
  | .field value _ _, _, _, h, _ => by
    simp [tree, Tree.isLegal, obeysRule, arePartsLegal, Spot.below, isLegal_tree value _ _ h.1]
  | .call callee args _, _, _, h, _ => by
    simp [tree, Tree.isLegal, obeysRule, arePartsLegal, Tree.areLegal, Spot.below,
      isLegal_tree callee _ _ h.1, areLegal_treesOf args _ _ h.2.1]
  | .list items _, _, _, h, _ => by
    simp [tree, Tree.isLegal, obeysRule, arePartsLegal, Spot.below, areLegal_treesOf items _ _ h.1]
  | .dict entries _, _, _, h, _ => by
    simp [tree, Tree.isLegal, obeysRule, arePartsLegal, Spot.below, itemsOf, List.lookup_cons,
      length_treesOfKeys, areLegal_treesOfKeys entries _ _ h.1,
      areLegal_treesOfValues entries _ _ h.1]
  | .binary _ left right _, _, _, h, _ => by
    simp [tree, Tree.isLegal, obeysRule, arePartsLegal, Spot.below, isLegal_tree left _ _ h.1,
      isLegal_tree right _ _ h.2.1]
  | .unary _ operand _, _, _, h, _ => by
    simp [tree, Tree.isLegal, obeysRule, arePartsLegal, Spot.below, isLegal_tree operand _ _ h.1]
  | .logical _ operands _, _, _, h, _ => by
    simp [tree, Tree.isLegal, obeysRule, arePartsLegal, Spot.below, itemsOf, List.lookup_cons,
      length_treesOf, h.2.2, areLegal_treesOf operands _ _ h.1]
  | .compare _ first others _, _, _, h, _ => by
    simp [tree, Tree.isLegal, obeysRule, arePartsLegal, Spot.below, itemsOf, List.lookup_cons,
      length_treesOf, h.2.2.2, isLegal_tree first _ _ h.1, areLegal_treesOf others _ _ h.2.1]
  | .conditional test yes no _, _, _, h, _ => by
    simp [tree, Tree.isLegal, obeysRule, arePartsLegal, Spot.below, isLegal_tree test _ _ h.1,
      isLegal_tree yes _ _ h.2.1, isLegal_tree no _ _ h.2.2.1]
  | .thunk body _, _, _, h, _ => by
    simp [tree, Tree.isLegal, obeysRule, arePartsLegal, Spot.below, isLegal_tree body _ _ h.1]

theorem areLegal_treesOf : ∀ (es : List Expr) (above : Span) (spot : Spot), MadeOfAll M es →
    spot.isTarget = false → Tree.areLegal spot (treesOf above es) = true
  | [], _, _, _, _ => rfl
  | e :: es, _, _, h, ht => by
    simp [treesOf, Tree.areLegal, isLegal_tree e _ _ h.1, areLegal_treesOf es _ _ h.2, ht]

theorem areLegal_treesOfKeys : ∀ (entries : List (Expr × Expr)) (above : Span) (spot : Spot),
    MadeOfEntries M entries → spot.isTarget = false →
    Tree.areLegal spot (treesOfKeys above entries) = true
  | [], _, _, _, _ => rfl
  | (key, _) :: entries, _, _, h, ht => by
    simp [treesOfKeys, Tree.areLegal, isLegal_tree key _ _ h.1,
      areLegal_treesOfKeys entries _ _ h.2.2, ht]

theorem areLegal_treesOfValues : ∀ (entries : List (Expr × Expr)) (above : Span) (spot : Spot),
    MadeOfEntries M entries → spot.isTarget = false →
    Tree.areLegal spot (treesOfValues above entries) = true
  | [], _, _, _, _ => rfl
  | (_, value) :: entries, _, _, h, ht => by
    simp [treesOfValues, Tree.areLegal, isLegal_tree value _ _ h.2.1,
      areLegal_treesOfValues entries _ _ h.2.2, ht]

end

end Expr

namespace Stmt

open Tree

theorem isEmpty_treesOf (above : Span) (ss : List Stmt) :
    (treesOf above ss).isEmpty = ss.isEmpty := by
  cases ss <;> rfl

variable {M : Material}

mutual

/-- The tree of a statement obeys the rules of the spot that it was made for. -/
theorem isLegal_tree : ∀ (s : Stmt) (above : Span) (spot : Spot), s.MadeOf M spot →
    spot.isTarget = false → (s.tree above).isLegal spot = true
  | .assign _ value _, _, _, h, _ => by
    simp [tree, nameAt, Tree.isLegal, obeysRule, arePartsLegal, Tree.areLegal, Spot.below, itemsOf,
      isKind, isWord, List.lookup_cons, value.isLegal_tree _ _ h.2.1]
  | .eval value _, _, _, h, _ => by
    simp [tree, Tree.isLegal, obeysRule, arePartsLegal, Spot.below, value.isLegal_tree _ _ h.1]
  | .ret value _, _, _, h, _ => by
    simp [tree, Tree.isLegal, obeysRule, arePartsLegal, Spot.below, h.2.2,
      value.isLegal_tree _ _ h.1]
  | .branch test yes no _, _, _, h, _ => by
    simp [tree, Tree.isLegal, obeysRule, arePartsLegal, Spot.below, itemsOf, List.lookup_cons,
      isEmpty_treesOf, h.2.2.2.2, test.isLegal_tree _ _ h.1, areLegal_treesOf yes _ _ h.2.1,
      areLegal_treesOf no _ _ h.2.2.1]
  | .loop test body _, _, _, h, _ => by
    simp [tree, Tree.isLegal, Tree.areLegal, obeysRule, arePartsLegal, Spot.below, itemsOf,
      List.lookup_cons, isEmpty_treesOf, h.2.2.2, test.isLegal_tree _ _ h.1,
      areLegal_treesOf body _ _ h.2.1]
  | .define _ _ _ body _, _, _, h, _ => by
    simp [tree, Tree.isLegal, Tree.areLegal, obeysRule, arePartsLegal, Spot.below, itemsOf,
      List.lookup_cons, isEmpty_treesOf, h.2.2.2.2, areLegal_treesOf body _ _ h.2.2.1]
  | .skip _, _, _, _, _ => by simp [tree, Tree.isLegal, obeysRule, arePartsLegal]
  | .next _, _, _, h, _ => by simp [tree, Tree.isLegal, obeysRule, arePartsLegal, h.2]

theorem areLegal_treesOf : ∀ (ss : List Stmt) (above : Span) (spot : Spot), MadeOfAll M spot ss →
    spot.isTarget = false → Tree.areLegal spot (treesOf above ss) = true
  | [], _, _, _, _ => rfl
  | s :: ss, _, _, h, ht => by
    simp only [treesOf, Tree.areLegal, isEmpty_treesOf, Bool.and_eq_true]
    exact ⟨isLegal_tree s _ _ h.1 ht, areLegal_treesOf ss _ _ h.2 ht⟩

end

end Stmt

/-! ### Whole programs -/

/-- Any place and any name. -/
def Material.anything : Material where
  place _ := True
  name _ := True
  target _ := True
  temp _ _ := True

/-- All names and places are a material for all forms: what is left are the rules. -/
theorem Material.anything_covers : anything.Covers fun _ => True where
  nil := trivial
  place _ _ _ := trivial
  fused _ _ _ _ _ := trivial
  read _ _ := trivial
  bound _ := trivial
  unchecked _ _ _ := ⟨trivial, fun _ _ _ => trivial⟩
  bindable _ _ := ⟨trivial, fun _ _ _ => trivial⟩
  tempers _ _ _ _ _ := trivial
  library _ _ := trivial

namespace Program

/-- Every program that comes out of a compilation obeys the rules at every node: functions, loops
and branches have a body; a `Return` stands in a function, and a `Continue` in a loop of the same
function at the end of its block; a `BoolOp` has two values or more, a `Compare` has as many
operators as comparators and at least one, a `Dict` as many keys as values; an `Assign` has one
target, which is a stored `Name`, and every other `Name` is loaded. -/
theorem compile_obeys_grammar (options : Options) (file source : String) (program : List Stmt)
    (h : (compile options file source).result = .ok program) :
    Tree.areLegal {} (Stmt.programTrees program) = true := by
  have hforms : ∀ forms, Expanded options source forms →
      ∀ form ∈ forms, form.Throughout true fun _ => True :=
    fun _ _ form _ => form.throughout_of_forall fun _ => trivial
  have hmade := compile_madeOf_expanded Material.anything_covers (fun _ => trivial) hforms h
  exact Stmt.areLegal_treesOf program _ _ hmade rfl

/-- A function with an empty block, a loop over a pattern and a helper among the arguments of a
jump. -/
def nestedSource : String :=
  "(defn f [n] (if n (let [])) (loop [i 0 [x y] n]" ++
  " (if (and (< i n) x) (recur 1 [y (do n x)]) (case i (1 2) i x))))"

/-- The source has a program, which obeys the rules. -/
theorem compile_obeys_grammar_nested : ∃ program,
    (compile {} "nested" nestedSource).result = .ok program
      ∧ Tree.areLegal {} (Stmt.programTrees program) = true := by
  have hok : (compile {} "nested" nestedSource).result.isOk = true := by decide +kernel
  cases hresult : (compile {} "nested" nestedSource).result with
  | error fault =>
    rw [hresult] at hok
    cases hok
  | ok program => exact ⟨program, rfl, compile_obeys_grammar _ _ _ _ hresult⟩

end Program

end TailLisp
