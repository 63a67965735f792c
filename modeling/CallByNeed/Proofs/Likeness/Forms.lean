import CallByNeed.Proofs.Likeness.Basic
import CallByNeed.Proofs.Renumbering.Basic

/-! # The same syntax over related scopes

What is alike but for its values and its scopes is the same syntax: a likeness that relates values
in one way and scopes in another, and is loose about nothing else. The form of an expression then
says what the form of the other one is.
-/

namespace CallByNeed
set_option autoImplicit false

variable {ν : Type}

/-- Related scopes, as expressions. -/
inductive ScopesBy (rel : Scope ν → Scope ν → Prop) : Expr ν → Expr ν → Prop where
  | scope {scope scope' : Scope ν} (h : rel scope scope') :
      ScopesBy rel (.scope scope) (.scope scope')

/-- Values and scopes are related, each in a way of their own. -/
abbrev Likeness.between (value : Value ν → Value ν → Prop) (rel : Scope ν → Scope ν → Prop) :
    Likeness ν :=
  ⟨value, ScopesBy rel⟩

/-- The same syntax over related values and scopes. No frames correspond but those of related
scopes. -/
abbrev Expr.Between (value : Value ν → Value ν → Prop) (rel : Scope ν → Scope ν → Prop) :
    Expr ν → Expr ν → Prop :=
  Expr.Alike (.between value rel) fun _ _ => False

abbrev Table.Between (value : Value ν → Value ν → Prop) (rel : Scope ν → Scope ν → Prop) :
    Table (Expr ν) → Table (Expr ν) → Prop :=
  Table.Alike (.between value rel) fun _ _ => False

/-- Related values, or related scopes. -/
inductive Head.Between (value : Value ν → Value ν → Prop) (rel : Scope ν → Scope ν → Prop) :
    Head ν → Head ν → Prop where
  | value {it it' : Value ν} (h : value it it') :
      Head.Between value rel (.terminal (.value it)) (.terminal (.value it'))
  | native (method : Native ν) :
      Head.Between value rel (.terminal (.native method)) (.terminal (.native method))
  | closure {scope scope' : Scope ν} (h : rel scope scope') :
      Head.Between value rel (.closure scope) (.closure scope')

section Forms

variable {value : Value ν → Value ν → Prop} {rel more : Scope ν → Scope ν → Prop}

/-! ## More related scopes -/

theorem Likeness.between_within (h : ∀ scope scope', rel scope scope' → more scope scope') :
    (Likeness.between value rel).Within (.between value more) := by
  refine ⟨fun _ _ h => h, fun expr expr' hscopes => ?_⟩
  cases hscopes with
  | scope hscope => exact .scope (h _ _ hscope)

theorem Expr.Between.imp (h : ∀ scope scope', rel scope scope' → more scope scope')
    {expr expr' : Expr ν} (hexpr : expr.Between value rel expr') : expr.Between value more expr' :=
  hexpr.weaken (Likeness.between_within h) fun _ _ hplace => hplace

theorem Table.Between.imp (h : ∀ scope scope', rel scope scope' → more scope scope')
    {table table' : Table (Expr ν)} (htable : table.Between value rel table') :
    table.Between value more table' :=
  htable.weaken (Likeness.between_within h) fun _ _ hplace => hplace

theorem Head.Between.imp (h : ∀ scope scope', rel scope scope' → more scope scope')
    {head head' : Head ν} (hhead : head.Between value rel head') : head.Between value more head' := by
  cases hhead with
  | value hvalue => exact .value hvalue
  | native method => exact .native method
  | closure hscope => exact .closure (h _ _ hscope)

/-! ## Scopes -/

mutual

/-- The scopes in the same syntax over related scopes are related one by one. -/
theorem Expr.Between.scopes : ∀ {expr expr' : Expr ν}, expr.Between value rel expr' →
    List.Forall₂ rel expr.scopes expr'.scopes
  | _, _, .loose (.scope h) => .cons h .nil
  | _, _, .value _ | _, _, .native _ | _, _, .identifier _ | _, _, .failure _ => .nil
  | _, _, .application hoperator harguments =>
      List.rel_append (Expr.Between.scopes hoperator) (scopesAll_between harguments)
  | _, _, .lambda h => scopesItems_between h
  | _, _, .scope h => absurd h.number not_false

theorem scopesAll_between : ∀ {exprs exprs' : List (Expr ν)},
    List.Forall₂ (Expr.Between value rel) exprs exprs' →
    List.Forall₂ rel (scopesAll exprs) (scopesAll exprs')
  | _, _, .nil => .nil
  | _, _, .cons h hrest => List.rel_append h.scopes (scopesAll_between hrest)

theorem Item.between_scopes : ∀ {item item' : Item ν},
    item.Alike (.between value rel) (fun _ _ => False) item' →
    List.Forall₂ rel item.scopes item'.scopes
  | _, _, .binding hname hbound =>
      List.rel_append (Expr.Between.scopes hname) (Expr.Between.scopes hbound)
  | _, _, .bare h => Expr.Between.scopes h

theorem scopesItems_between : ∀ {items items' : List (Item ν)},
    List.Forall₂ (Item.Alike (.between value rel) fun _ _ => False) items items' →
    List.Forall₂ rel (scopesItems items) (scopesItems items')
  | _, _, .nil => .nil
  | _, _, .cons h hrest => List.rel_append (Item.between_scopes h) (scopesItems_between hrest)

end

/-! ## Forms -/

variable {expr : Expr ν}

theorem Expr.Between.of_value {it : Value ν} (h : (Expr.value it).Between value rel expr) :
    ∃ it', expr = .value it' ∧ value it it' := by
  cases h with
  | loose h => cases h
  | value h => exact ⟨_, rfl, h⟩

theorem Expr.Between.of_native {method : Native ν}
    (h : (Expr.native method).Between value rel expr) : expr = .native method := by
  cases h with
  | loose h => cases h
  | native => rfl

theorem Expr.Between.of_failure {failure : Failure}
    (h : (Expr.failure failure).Between value rel expr) : expr = .failure failure := by
  cases h with
  | loose h => cases h
  | failure => rfl

theorem Expr.Between.of_identifier {name : String}
    (h : (Expr.identifier name).Between value rel expr) : expr = .identifier name := by
  cases h with
  | loose h => cases h
  | identifier => rfl

theorem Expr.Between.of_application {operator : Expr ν} {arguments : List (Expr ν)}
    (h : (Expr.application operator arguments).Between value rel expr) :
    ∃ operator' arguments', expr = .application operator' arguments' ∧
      operator.Between value rel operator' ∧
      List.Forall₂ (Expr.Between value rel) arguments arguments' := by
  cases h with
  | loose h => cases h
  | application hoperator harguments => exact ⟨_, _, rfl, hoperator, harguments⟩

theorem Expr.Between.of_lambda {items : List (Item ν)}
    (h : (Expr.lambda items).Between value rel expr) :
    ∃ items', expr = .lambda items' ∧
      List.Forall₂ (Item.Alike (.between value rel) fun _ _ => False) items items' := by
  cases h with
  | loose h => cases h
  | lambda h => exact ⟨_, rfl, h⟩

/-- No frames correspond, so scopes are alike only if they are related. -/
theorem Expr.Between.of_scope {scope : Scope ν} (h : (Expr.scope scope).Between value rel expr) :
    ∃ scope', expr = .scope scope' ∧ rel scope scope' := by
  cases h with
  | loose h =>
    cases h with
    | scope h => exact ⟨_, rfl, h⟩
  | scope h => exact absurd h.number not_false

theorem Expr.Between.identifier? {expr' : Expr ν} (h : expr.Between value rel expr') :
    expr.identifier? = expr'.identifier? := by
  cases h with
  | loose h => cases h; rfl
  | value | native | identifier | failure | application | lambda | scope => rfl

theorem Head.Between.toExpr {head head' : Head ν} (h : head.Between value rel head') :
    head.toExpr.Between value rel head'.toExpr := by
  cases h with
  | value h => exact .value h
  | native method => exact .native method
  | closure h => exact .loose (.scope h)

theorem headsBetween_toExpr {heads heads' : List (Head ν)}
    (h : List.Forall₂ (Head.Between value rel) heads heads') :
    List.Forall₂ (Expr.Between value rel) (heads.map Head.toExpr) (heads'.map Head.toExpr) :=
  List.forall₂_map_left_iff.2 (List.forall₂_map_right_iff.2 (h.imp fun _ _ => Head.Between.toExpr))

end Forms
end CallByNeed
