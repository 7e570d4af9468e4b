import Calculator.Proofs.Acceptance

/-! What a value is made of.

The stack of operands is a forest. Each entry has grown from a block of operands of
the text, the blocks lie side by side, and applying an operator joins the two latest
(`exists_trees_of_run`). So a value, however odd the text, is that of one tree: its
leaves are all the operands in their order, its nodes all the operators
(`exists_tree_of_evaluate`). -/
namespace Calculator

/-! ### Operands and operators of a text -/

/-- An operand as it stands in a text: a number by itself, or a function and its number. -/
inductive Operand where
  | literal (x : Float)
  | call (f : UnaryFunction) (x : Float)

def Operand.value : Operand → Except Fault Float
  | .literal x => .ok x
  | .call f x => f.apply x

namespace Token

/-- The operands among tokens, from left to right. -/
def operands : List Token → List Operand
  | [] => []
  | .function f :: .number x :: tokens => .call f x :: operands tokens
  | .number x :: tokens => .literal x :: operands tokens
  | _ :: tokens => operands tokens

/-- The operators among tokens, each with the number of its token; the first token has
number `n`. -/
def operators (n : Nat) : List Token → List (Operator × Nat)
  | [] => []
  | .operator op :: tokens => (op, n) :: operators (n + 1) tokens
  | _ :: tokens => operators (n + 1) tokens

theorem operators_append (n : Nat) (tokens more : List Token) :
    operators n (tokens ++ more) = operators n tokens ++ operators (n + tokens.length) more := by
  induction tokens generalizing n with
  | nil => rfl
  | cons token tokens ih =>
    have hlength : n + 1 + tokens.length = n + (tokens.length + 1) := by omega
    rw [List.cons_append, List.length_cons, ← hlength]
    cases token with
    | operator op => rw [operators, operators, ih, List.cons_append]
    | _ => exact ih (n + 1)

end Token

/-- What follows an outline does not change its operands, for it ends no function. -/
theorem Outline.operands_append {level : Nat} (o : Outline level) (more : List Token) :
    Token.operands (o.tokens ++ more) = Token.operands o.tokens ++ Token.operands more := by
  induction o generalizing more with
  | empty => rfl
  | number row x ih => simp [tokens, ih, Token.operands]
  | call row f x ih => simp [tokens, ih, Token.operands]
  | group row inner ih ihInner => simp [tokens, ih, ihInner, Token.operands]
  | term row ih => exact ih more
  | expression o ih => exact ih more
  | binary op left right ihLeft ihRight => simp [tokens, ihLeft, ihRight, Token.operands]

/-! ### Trees -/

/-- Operands joined by operators, each with the number of its token. -/
inductive OperandTree where
  | leaf (operand : Operand)
  | node (op : Operator) (i : Nat) (left right : OperandTree)

namespace OperandTree

/-- The leaves from left to right. -/
def leaves : OperandTree → List Operand
  | .leaf operand => [operand]
  | .node _ _ left right => left.leaves ++ right.leaves

/-- The nodes, both sides before what joins them. -/
def nodes : OperandTree → List (Operator × Nat)
  | .leaf _ => []
  | .node op i left right => left.nodes ++ right.nodes ++ [(op, i)]

/-- The value from the leaves up. Every node must have one. -/
def value : OperandTree → Except Fault Float
  | .leaf operand => operand.value
  | .node op _ left right => do
    let a ← left.value
    let b ← right.value
    op.apply a b

theorem length_leaves (tree : OperandTree) : tree.leaves.length = tree.nodes.length + 1 := by
  induction tree with
  | leaf operand => rfl
  | node op i left right ihl ihr =>
    rw [leaves, nodes, List.length_append, List.length_append, List.length_append, ihl, ihr,
      List.length_singleton]
    omega

end OperandTree

/-! ### Forests -/

/-- The trees have grown to the operands, entry by entry. -/
def Grown (trees : List OperandTree) (operands : List Float) : Prop :=
  List.Forall₂ (fun tree x => tree.value = .ok x) trees operands

/-- The leaves of trees from left to right, with the latest tree first. -/
def leavesOf : List OperandTree → List Operand
  | [] => []
  | tree :: trees => leavesOf trees ++ tree.leaves

def nodesOf : List OperandTree → List (Operator × Nat)
  | [] => []
  | tree :: trees => nodesOf trees ++ tree.nodes

/-- Applying an operator joins the two latest trees. -/
theorem exists_trees_of_reduce {op : Operator} {i : Nat} {operands operands' : List Float}
    (h : Engine.reduce op i operands = .ok operands') {trees : List OperandTree}
    (hgrown : Grown trees operands) :
    ∃ trees', Grown trees' operands' ∧ leavesOf trees' = leavesOf trees ∧
      nodesOf trees' = nodesOf trees ++ [(op, i)] := by
  match operands, hgrown with
  | b :: a :: operands, .cons (a := right) hright (.cons (a := left) hleft hbelow) =>
    obtain ⟨x, hx, h⟩ := bind_eq_ok h
    cases h
    have hvalue : (OperandTree.node op i left right).value = .ok x := by
      rw [OperandTree.value, hleft, ok_bind, hright, ok_bind, Engine.located_eq_ok hx]
    exact ⟨.node op i left right :: _, .cons hvalue hbelow,
      by simp [leavesOf, OperandTree.leaves], by simp [nodesOf, OperandTree.nodes]⟩

/-- **The operands stay a forest**: an outline adds its operands as leaves, in their order,
and its operators as nodes, each of them once. -/
theorem exists_trees_of_run {level : Nat} (o : Outline level) {n : Nat}
    {operands operands' : List Float} (h : o.run n operands = .ok operands')
    {trees : List OperandTree} (hgrown : Grown trees operands) :
    ∃ trees', Grown trees' operands' ∧
      leavesOf trees' = leavesOf trees ++ Token.operands o.tokens ∧
      (nodesOf trees').Perm (nodesOf trees ++ Token.operators n o.tokens) := by
  induction o generalizing n operands operands' trees with
  | empty =>
    cases h
    exact ⟨trees, hgrown, by simp [Outline.tokens, Token.operands],
      by simp [Outline.tokens, Token.operators]⟩
  | number row x ih =>
    obtain ⟨below, hrow, h⟩ := bind_eq_ok h
    cases h
    obtain ⟨trees', hgrown', hleaves, hnodes⟩ := ih hrow hgrown
    refine ⟨.leaf (.literal x) :: trees', .cons rfl hgrown', ?_, ?_⟩
    · simp [leavesOf, hleaves, OperandTree.leaves, Outline.tokens, row.operands_append,
        Token.operands]
    · simpa [nodesOf, OperandTree.nodes, Outline.tokens, Token.operators_append,
        Token.operators] using hnodes
  | call row f x ih =>
    obtain ⟨below, hrow, h⟩ := bind_eq_ok h
    obtain ⟨y, hy, h⟩ := bind_eq_ok h
    cases h
    obtain ⟨trees', hgrown', hleaves, hnodes⟩ := ih hrow hgrown
    refine ⟨.leaf (.call f x) :: trees', .cons (Engine.located_eq_ok hy) hgrown', ?_, ?_⟩
    · simp [leavesOf, hleaves, OperandTree.leaves, Outline.tokens, row.operands_append,
        Token.operands]
    · simpa [nodesOf, OperandTree.nodes, Outline.tokens, Token.operators_append,
        Token.operators] using hnodes
  | group row inner ih ihInner =>
    obtain ⟨below, hrow, h⟩ := bind_eq_ok h
    obtain ⟨trees₁, hgrown₁, hleaves₁, hnodes₁⟩ := ih hrow hgrown
    obtain ⟨trees₂, hgrown₂, hleaves₂, hnodes₂⟩ := ihInner h hgrown₁
    refine ⟨trees₂, hgrown₂, ?_, hnodes₂.trans ?_⟩
    · simp [hleaves₂, hleaves₁, Outline.tokens, row.operands_append, inner.operands_append,
        Token.operands]
    · simpa [Outline.tokens, Token.operators_append, Token.operators] using
        hnodes₁.append_right (Token.operators (n + row.tokens.length + 1) inner.tokens)
  | term row ih => exact ih h hgrown
  | expression o ih => exact ih h hgrown
  | binary op left right ihLeft ihRight =>
    obtain ⟨below₁, hleft, h⟩ := bind_eq_ok h
    obtain ⟨below₂, hright, hreduce⟩ := bind_eq_ok h
    obtain ⟨trees₁, hgrown₁, hleaves₁, hnodes₁⟩ := ihLeft hleft hgrown
    obtain ⟨trees₂, hgrown₂, hleaves₂, hnodes₂⟩ := ihRight hright hgrown₁
    obtain ⟨trees₃, hgrown₃, hleaves₃, hnodes₃⟩ := exists_trees_of_reduce hreduce hgrown₂
    refine ⟨trees₃, hgrown₃, ?_, ?_⟩
    · simp [hleaves₃, hleaves₂, hleaves₁, Outline.tokens, left.operands_append, Token.operands]
    -- The operator stands between its sides and is applied after both.
    · rw [hnodes₃, Outline.tokens, Token.operators_append, Token.operators, ← List.append_assoc]
      have hsides := hnodes₂.trans
        (hnodes₁.append_right (Token.operators (n + left.tokens.length + 1) right.tokens))
      have hlast := List.perm_append_singleton (op, n + left.tokens.length) (nodesOf trees₂)
      exact hlast.trans ((hsides.cons _).trans List.perm_middle.symm)

/-! ### Texts -/

/-- **A value is made of all that the text holds.** There is a tree with this value whose
leaves are the operands of the text in their order and whose nodes are its operators,
each of them once. So there is one operand more than there are operators; and
parentheses and functions are in order. -/
theorem exists_tree_of_evaluate {source : String} {v : Float} (h : evaluate source = .ok v) :
    (lex source).Complete ∧
      (∃ tree : OperandTree, tree.leaves = Token.operands (lex source).tokens ∧
        tree.nodes.Perm (Token.operators 0 (lex source).tokens) ∧ tree.value = .ok v) ∧
      (Token.operands (lex source).tokens).length =
        (Token.operators 0 (lex source).tokens).length + 1 ∧
      Token.Balanced (lex source).tokens ∧ Token.Applied (lex source).tokens := by
  obtain ⟨hcomplete, hvalue⟩ := evaluate_eq_ok_iff_value.mp h
  obtain ⟨o, htokens, hrun⟩ := Engine.value_eq_ok_iff.mp hvalue
  have hempty : Grown [] [] := .nil
  obtain ⟨trees, hgrown, hleaves, hnodes⟩ := exists_trees_of_run o hrun hempty
  match trees, hgrown with
  | [tree], .cons htree .nil =>
    have hleaves' : tree.leaves = Token.operands (lex source).tokens := by
      rw [← htokens]
      exact hleaves
    have hnodes' : tree.nodes.Perm (Token.operators 0 (lex source).tokens) := by
      rw [← htokens]
      exact hnodes
    refine ⟨hcomplete, ⟨tree, hleaves', hnodes', htree⟩, ?_, Engine.balanced_of_value hvalue,
      Engine.applied_of_value hvalue⟩
    rw [← hleaves', ← hnodes'.length_eq, tree.length_leaves]

/-- Six minus one, with both operators behind their operands. -/
theorem exists_tree_operators_last :
    evaluate "2(3*)1-" = .ok 5 ∧
      ∃ tree : OperandTree, tree.leaves = [.literal 2, .literal 3, .literal 1] ∧
        tree.nodes.Perm [(.mul, 3), (.sub, 6)] ∧ tree.value = .ok 5 := by
  have h : evaluate "2(3*)1-" = .ok 5 := by decide +kernel
  have htokens : (lex "2(3*)1-").tokens =
      [.number 2, .leftParen, .number 3, .operator .mul, .rightParen, .number 1,
        .operator .sub] := by
    decide +kernel
  obtain ⟨-, ⟨tree, hleaves, hnodes, hvalue⟩, -⟩ := exists_tree_of_evaluate h
  rw [htokens] at hleaves hnodes
  exact ⟨h, tree, hleaves, hnodes, hvalue⟩

end Calculator
