import Treewalk.Tree.Node

/-!
# When two trees are the same

Trees are compared part by part, and numbers by their value: both zeros are the same, and what is
not a number is not the same as anything.

## Main definitions

* `LiteralValue.same`, `Expr.same`, `Stmt.same`, … — the comparisons.
-/

namespace Treewalk

/-- Comparison of values that may be missing. -/
def sameOption {α : Type} (same : α → α → Bool) : Option α → Option α → Bool
  | none, none => true
  | some a, some b => same a b
  | _, _ => false

/-- Comparison of lists, item by item. -/
def sameList {α : Type} (same : α → α → Bool) : List α → List α → Bool
  | [], [] => true
  | a :: as, b :: bs => same a b && sameList same as bs
  | _, _ => false

/-- Whether two values of literals are the same. -/
def LiteralValue.same : LiteralValue → LiteralValue → Bool
  | .null, .null => true
  | .bool a, .bool b => a == b
  | .number x, .number y => x == y
  | .text s, .text t => s == t
  | _, _ => false

/-- Whether two literals are the same. -/
def Literal.same (a b : Literal) : Bool :=
  a.value.same b.value && a.raw == b.raw && a.location == b.location

mutual

/-- Whether two expressions are the same. -/
def Expr.same : Expr → Expr → Bool
  | .identifier a, .identifier b => a == b
  | .literal a, .literal b => a.same b
  | .chain a l, .chain b l' => a.same b && l == l'
  | .member o p c q l, .member o' p' c' q' l' =>
    o.same o' && p.same p' && c == c' && q == q' && l == l'
  | .assignment a b l, .assignment a' b' l' => a.same a' && b.same b' && l == l'
  | .array es l, .array es' l' => Expr.sameAll es es' && l == l'
  | .object ps l, .object ps' l' => Property.sameAll ps ps' && l == l'
  | .binary a o b l, .binary a' o' b' l' => a.same a' && o == o' && b.same b' && l == l'
  | .call c as l, .call c' as' l' => c.same c' && Expr.sameAll as as' && l == l'
  | _, _ => false

/-- Whether two entries of object literals are the same. -/
def Property.same : Property → Property → Bool
  | ⟨kind, key, value, computed, shorthand, method⟩, p =>
    kind == p.kind && key.same p.key && value.same p.value && computed == p.computed
      && shorthand == p.shorthand && method == p.method

/-- Whether two lists of expressions are the same. -/
def Expr.sameAll : List Expr → List Expr → Bool
  | [], [] => true
  | a :: as, b :: bs => a.same b && Expr.sameAll as bs
  | _, _ => false

/-- Whether two lists of entries are the same. -/
def Property.sameAll : List Property → List Property → Bool
  | [], [] => true
  | a :: as, b :: bs => a.same b && Property.sameAll as bs
  | _, _ => false

end

/-- Whether two parameters are the same. -/
def Parameter.same (a b : Parameter) : Bool :=
  a.id == b.id && sameOption Expr.same a.default b.default

/-- Whether two declared variables are the same. -/
def Declarator.same (a b : Declarator) : Bool :=
  a.id == b.id && sameOption Expr.same a.init b.init

mutual

/-- Whether two statements are the same. -/
def Stmt.same : Stmt → Stmt → Bool
  | .empty l, .empty l' => l == l'
  | .debugger l, .debugger l' => l == l'
  | .ifElse t c a l, .ifElse t' c' a' l' =>
    t.same t' && c.same c' && Stmt.sameOptional a a' && l == l'
  | .whileLoop t b l, .whileLoop t' b' l' => t.same t' && b.same b' && l == l'
  | .block b l, .block b' l' => Stmt.sameAll b b' && l == l'
  | .expression e l, .expression e' l' => e.same e' && l == l'
  | .function i a g ps b m l, .function i' a' g' ps' b' m' l' =>
    i == i' && a == a' && g == g' && sameList Parameter.same ps ps' && Stmt.sameAll b b' && m == m'
      && l == l'
  | .declaration k ds l, .declaration k' ds' l' =>
    k == k' && sameList Declarator.same ds ds' && l == l'
  | .array es l, .array es' l' => sameList Expr.same es es' && l == l'
  | .ret e l, .ret e' l' => sameOption Expr.same e e' && l == l'
  | _, _ => false

/-- Whether two lists of statements are the same. -/
def Stmt.sameAll : List Stmt → List Stmt → Bool
  | [], [] => true
  | a :: as, b :: bs => a.same b && Stmt.sameAll as bs
  | _, _ => false

/-- Whether two statements that may be missing are the same. -/
def Stmt.sameOptional : Option Stmt → Option Stmt → Bool
  | none, none => true
  | some a, some b => a.same b
  | _, _ => false

end

/-- Whether two blocks are the same. -/
def Block.same (a b : Block) : Bool := Stmt.sameAll a.body b.body && a.location == b.location

/-- Whether two sequences of statements are the same. -/
def ScopeBlock.same (a b : ScopeBlock) : Bool := Stmt.sameAll a.body b.body

/-- Whether two programs are the same. -/
def Program.same (a b : Program) : Bool := Stmt.sameAll a.body b.body

end Treewalk
