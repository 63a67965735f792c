import CallByNeed.Expr.Basic

/-! # The parts of a lambda

A well formed lambda lists bindings and then one return expression. `parts` takes such a list apart
and names the defect of any other. `items` lists one at once, and a `Builder` binding by binding.
-/

namespace CallByNeed.Lambda
set_option autoImplicit false

variable {ν : Type}

abbrev Binding (ν : Type) := Expr ν × Expr ν

def isBare : Item ν → Bool
  | .bare _ => true
  | .binding _ _ => false

/-- The bindings up to the first bare expression, which has to be the last item. -/
def split : List (Item ν) → Except LambdaShape (List (Binding ν) × Expr ν)
  | [] => .error .noReturn
  | [.bare body] => .ok ([], body)
  | .bare _ :: _ :: _ => .error .bindingAfterReturn
  | .binding name value :: rest =>
      match split rest with
      | .ok (bindings, body) => .ok ((name, value) :: bindings, body)
      | .error shape => .error shape

/-- The bindings in order and the return expression. Several bare expressions are reported before
any other defect. -/
def parts (items : List (Item ν)) : Except LambdaShape (List (Binding ν) × Expr ν) :=
  let bare := items.countP isBare
  if 1 < bare then .error (.manyReturns bare) else split items

def items (bindings : List (Binding ν)) (returning : Expr ν) : List (Item ν) :=
  bindings.map (fun binding => .binding binding.1 binding.2) ++ [.bare returning]

/-- A lambda under construction: the bindings so far. -/
structure Builder (ν : Type) where
  items : List (Item ν)

/-- Nothing is bound yet. -/
def builder : Builder ν :=
  ⟨[]⟩

namespace Builder

def bind (builder : Builder ν) (name value : Expr ν) : Builder ν :=
  ⟨builder.items ++ [.binding name value]⟩

/-- The items of the finished lambda. -/
def returning (builder : Builder ν) (body : Expr ν) : List (Item ν) :=
  builder.items ++ [.bare body]

/-- Adds the bindings, from first to last. -/
def bindAll (builder : Builder ν) (bindings : List (Binding ν)) : Builder ν :=
  bindings.foldl (fun built binding => built.bind binding.1 binding.2) builder

end Builder
end CallByNeed.Lambda
