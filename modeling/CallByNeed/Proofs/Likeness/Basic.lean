import CallByNeed.Expr.Lambda
import CallByNeed.Expr.Scope
import CallByNeed.Reduction.Step
import CallByNeed.Reduction.World
import Mathlib.Data.List.Forall2

/-! # Expressions that are alike

Two expressions are alike if they have the same form with related values and corresponding frames
in it, except that in some places anything the likeness is loose about may stand. Frames correspond
by their numbers and are alike in all their parts, whatever encloses them included. All that the
reducer reads off an expression or a scope is the same for what is alike: lookup leads to the same
place, tables have the same names, and lambdas the same parts.
-/

namespace CallByNeed
set_option autoImplicit false

variable {ν : Type}

/-- Which values are related, and which expressions count as alike whatever their form is. -/
structure Likeness (ν : Type) where
  value : Value ν → Value ν → Prop
  loose : Expr ν → Expr ν → Prop

/-- Which frame of one side corresponds to which frame of the other one, by their numbers. -/
abbrev Places := Nat → Nat → Prop

/-- The second correspondence has all pairs of the first one. -/
def Places.Extends (place later : Places) : Prop :=
  ∀ number number', place number number' → later number number'

theorem Places.Extends.refl (place : Places) : place.Extends place :=
  fun _ _ h => h

theorem Places.Extends.trans {first second third : Places} (h : first.Extends second)
    (h' : second.Extends third) : first.Extends third :=
  fun number number' hplace => h' number number' (h number number' hplace)

mutual

inductive Expr.Alike (like : Likeness ν) (place : Places) : Expr ν → Expr ν → Prop where
  | loose {expr expr' : Expr ν} (h : like.loose expr expr') : Expr.Alike like place expr expr'
  | value {value value' : Value ν} (h : like.value value value') :
      Expr.Alike like place (.value value) (.value value')
  | native (method : Native ν) : Expr.Alike like place (.native method) (.native method)
  | identifier (name : String) : Expr.Alike like place (.identifier name) (.identifier name)
  | failure (failure : Failure) : Expr.Alike like place (.failure failure) (.failure failure)
  | application {operator operator' : Expr ν} {arguments arguments' : List (Expr ν)}
      (hoperator : Expr.Alike like place operator operator')
      (harguments : List.Forall₂ (Expr.Alike like place) arguments arguments') :
      Expr.Alike like place (.application operator arguments) (.application operator' arguments')
  | lambda {items items' : List (Item ν)} (h : List.Forall₂ (Item.Alike like place) items items') :
      Expr.Alike like place (.lambda items) (.lambda items')
  | scope {scope scope' : Scope ν} (h : Scope.Alike like place scope scope') :
      Expr.Alike like place (.scope scope) (.scope scope')

inductive Item.Alike (like : Likeness ν) (place : Places) : Item ν → Item ν → Prop where
  | binding {name name' bound bound' : Expr ν} (hname : Expr.Alike like place name name')
      (hbound : Expr.Alike like place bound bound') :
      Item.Alike like place (.binding name bound) (.binding name' bound')
  | bare {body body' : Expr ν} (h : Expr.Alike like place body body') :
      Item.Alike like place (.bare body) (.bare body')

inductive Role.Alike (like : Likeness ν) (place : Places) : Role ν → Role ν → Prop where
  | root : Role.Alike like place .root .root
  | closure : Role.Alike like place .closure .closure
  | call {arguments arguments' : List (Expr ν)}
      (h : List.Forall₂ (Expr.Alike like place) arguments arguments') :
      Role.Alike like place (.call arguments) (.call arguments')
  | thunk : Role.Alike like place .thunk .thunk

/-- Entries of one name with alike expressions. -/
inductive Entry.Alike (like : Likeness ν) (place : Places) :
    String × Expr ν → String × Expr ν → Prop where
  | entry {name : String} {bound bound' : Expr ν} (h : Expr.Alike like place bound bound') :
      Entry.Alike like place (name, bound) (name, bound')

inductive Frame.Alike (like : Likeness ν) (place : Places) : Frame ν → Frame ν → Prop where
  | frame {number number' : Nat} {role role' : Role ν} {entries entries' : List (String × Expr ν)}
      {body body' : Expr ν} (hnumber : place number number')
      (hrole : Role.Alike like place role role')
      (hentries : List.Forall₂ (Entry.Alike like place) entries entries')
      (hbody : Expr.Alike like place body body') :
      Frame.Alike like place ⟨number, role, ⟨entries⟩, body⟩ ⟨number', role', ⟨entries'⟩, body'⟩

inductive Scope.Alike (like : Likeness ν) (place : Places) : Scope ν → Scope ν → Prop where
  | scope {frame frame' : Frame ν} {outer outer' : List (Frame ν)}
      (hframe : Frame.Alike like place frame frame')
      (houter : List.Forall₂ (Frame.Alike like place) outer outer') :
      Scope.Alike like place ⟨frame, outer⟩ ⟨frame', outer'⟩

end

/-- Lists of expressions that are alike one by one. -/
abbrev AllAlike (like : Likeness ν) (place : Places) : List (Expr ν) → List (Expr ν) → Prop :=
  List.Forall₂ (Expr.Alike like place)

/-- Tables with the same names and alike entries. -/
def Table.Alike (like : Likeness ν) (place : Places) (table table' : Table (Expr ν)) : Prop :=
  List.Forall₂ (Entry.Alike like place) table.entries table'.entries

inductive Terminal.Alike (like : Likeness ν) : Terminal ν → Terminal ν → Prop where
  | value {value value' : Value ν} (h : like.value value value') :
      Terminal.Alike like (.value value) (.value value')
  | native (method : Native ν) : Terminal.Alike like (.native method) (.native method)

inductive Head.Alike (like : Likeness ν) (place : Places) : Head ν → Head ν → Prop where
  | terminal {result result' : Terminal ν} (h : Terminal.Alike like result result') :
      Head.Alike like place (.terminal result) (.terminal result')
  | closure {scope scope' : Scope ν} (h : Scope.Alike like place scope scope')
      (hkind : scope.kind = .closure) :
      Head.Alike like place (.closure scope) (.closure scope')

/-! ## More correspondences -/

/-- The second likeness has all pairs of the first one. -/
structure Likeness.Within (like later : Likeness ν) : Prop where
  value : ∀ value value', like.value value value' → later.value value value'
  loose : ∀ expr expr', like.loose expr expr' → later.loose expr expr'

theorem Likeness.Within.refl (like : Likeness ν) : like.Within like :=
  ⟨fun _ _ h => h, fun _ _ h => h⟩

section Mono

variable {like more : Likeness ν} {place later : Places}

mutual

/-- What is alike stays so where more is alike and more frames correspond. -/
theorem Expr.Alike.weaken (hmore : like.Within more) (hlater : place.Extends later) :
    ∀ {expr expr' : Expr ν}, expr.Alike like place expr' → expr.Alike more later expr'
  | _, _, .loose h => .loose (hmore.loose _ _ h)
  | _, _, .value h => .value (hmore.value _ _ h)
  | _, _, .native method => .native method
  | _, _, .identifier name => .identifier name
  | _, _, .failure failure => .failure failure
  | _, _, .application hoperator harguments =>
      .application (hoperator.weaken hmore hlater) (allAlike_weaken hmore hlater harguments)
  | _, _, .lambda h => .lambda (itemsAlike_weaken hmore hlater h)
  | _, _, .scope h => .scope (h.weaken hmore hlater)

theorem allAlike_weaken (hmore : like.Within more) (hlater : place.Extends later) :
    ∀ {exprs exprs' : List (Expr ν)}, AllAlike like place exprs exprs' →
    AllAlike more later exprs exprs'
  | _, _, .nil => .nil
  | _, _, .cons h hrest => .cons (h.weaken hmore hlater) (allAlike_weaken hmore hlater hrest)

theorem Item.Alike.weaken (hmore : like.Within more) (hlater : place.Extends later) :
    ∀ {item item' : Item ν}, item.Alike like place item' → item.Alike more later item'
  | _, _, .binding hname hbound => .binding (hname.weaken hmore hlater) (hbound.weaken hmore hlater)
  | _, _, .bare h => .bare (h.weaken hmore hlater)

theorem itemsAlike_weaken (hmore : like.Within more) (hlater : place.Extends later) :
    ∀ {items items' : List (Item ν)}, List.Forall₂ (Item.Alike like place) items items' →
    List.Forall₂ (Item.Alike more later) items items'
  | _, _, .nil => .nil
  | _, _, .cons h hrest => .cons (h.weaken hmore hlater) (itemsAlike_weaken hmore hlater hrest)

theorem Role.Alike.weaken (hmore : like.Within more) (hlater : place.Extends later) :
    ∀ {role role' : Role ν}, role.Alike like place role' → role.Alike more later role'
  | _, _, .root => .root
  | _, _, .closure => .closure
  | _, _, .call h => .call (allAlike_weaken hmore hlater h)
  | _, _, .thunk => .thunk

theorem entriesAlike_weaken (hmore : like.Within more) (hlater : place.Extends later) :
    ∀ {entries entries' : List (String × Expr ν)},
    List.Forall₂ (Entry.Alike like place) entries entries' →
    List.Forall₂ (Entry.Alike more later) entries entries'
  | _, _, .nil => .nil
  | _, _, .cons (.entry h) hrest =>
      .cons (.entry (h.weaken hmore hlater)) (entriesAlike_weaken hmore hlater hrest)

theorem Frame.Alike.weaken (hmore : like.Within more) (hlater : place.Extends later) :
    ∀ {frame frame' : Frame ν}, frame.Alike like place frame' → frame.Alike more later frame'
  | _, _, .frame hnumber hrole hentries hbody =>
      .frame (hlater _ _ hnumber) (hrole.weaken hmore hlater)
        (entriesAlike_weaken hmore hlater hentries) (hbody.weaken hmore hlater)

theorem framesAlike_weaken (hmore : like.Within more) (hlater : place.Extends later) :
    ∀ {frames frames' : List (Frame ν)}, List.Forall₂ (Frame.Alike like place) frames frames' →
    List.Forall₂ (Frame.Alike more later) frames frames'
  | _, _, .nil => .nil
  | _, _, .cons h hrest => .cons (h.weaken hmore hlater) (framesAlike_weaken hmore hlater hrest)

theorem Scope.Alike.weaken (hmore : like.Within more) (hlater : place.Extends later) :
    ∀ {scope scope' : Scope ν}, scope.Alike like place scope' → scope.Alike more later scope'
  | _, _, .scope hframe houter =>
      .scope (hframe.weaken hmore hlater) (framesAlike_weaken hmore hlater houter)

end

theorem Expr.Alike.mono (hlater : place.Extends later) {expr expr' : Expr ν}
    (h : expr.Alike like place expr') : expr.Alike like later expr' :=
  h.weaken (.refl like) hlater

theorem allAlike_mono (hlater : place.Extends later) {exprs exprs' : List (Expr ν)}
    (h : AllAlike like place exprs exprs') : AllAlike like later exprs exprs' :=
  allAlike_weaken (.refl like) hlater h

theorem itemsAlike_mono (hlater : place.Extends later) {items items' : List (Item ν)}
    (h : List.Forall₂ (Item.Alike like place) items items') :
    List.Forall₂ (Item.Alike like later) items items' :=
  itemsAlike_weaken (.refl like) hlater h

theorem Scope.Alike.mono (hlater : place.Extends later) {scope scope' : Scope ν}
    (h : scope.Alike like place scope') : scope.Alike like later scope' :=
  h.weaken (.refl like) hlater

theorem Head.Alike.mono (hlater : place.Extends later) {head head' : Head ν}
    (h : head.Alike like place head') : head.Alike like later head' := by
  cases h with
  | terminal h => exact .terminal h
  | closure h hkind => exact .closure (h.mono hlater) hkind

end Mono

variable {like : Likeness ν} {place : Places}

/-! ## Tables -/

namespace Table

theorem Alike.find? {table table' : Table (Expr ν)} (h : table.Alike like place table')
    (name : String) :
    Option.Rel (Expr.Alike like place) (table.find? name) (table'.find? name) := by
  obtain ⟨entries⟩ := table
  obtain ⟨entries'⟩ := table'
  show Option.Rel _ (findEntry name entries) (findEntry name entries')
  replace h : List.Forall₂ (Entry.Alike like place) entries entries' := h
  induction h with
  | nil => exact .none
  | cons hentry _ ih =>
    obtain ⟨hbound⟩ := hentry
    rw [findEntry, findEntry]
    split
    · exact .some hbound
    · exact ih

theorem Alike.insert {table table' : Table (Expr ν)} (h : table.Alike like place table')
    (name : String) {bound bound' : Expr ν} (hbound : bound.Alike like place bound') :
    (table.insert name bound).Alike like place (table'.insert name bound') := by
  obtain ⟨entries⟩ := table
  obtain ⟨entries'⟩ := table'
  show List.Forall₂ (Entry.Alike like place) (insertEntry name bound entries)
    (insertEntry name bound' entries')
  replace h : List.Forall₂ (Entry.Alike like place) entries entries' := h
  induction h with
  | nil => exact .cons (.entry hbound) .nil
  | cons hentry hrest ih =>
    cases hentry with
    | entry hold =>
      rw [insertEntry, insertEntry]
      split
      · exact .cons (.entry hbound) hrest
      · split
        · exact .cons (.entry hbound) (.cons (.entry hold) hrest)
        · exact .cons (.entry hold) ih

theorem Alike.names {table table' : Table (Expr ν)} (h : table.Alike like place table') :
    table.names = table'.names := by
  obtain ⟨entries⟩ := table
  obtain ⟨entries'⟩ := table'
  show entries.map Prod.fst = entries'.map Prod.fst
  replace h : List.Forall₂ (Entry.Alike like place) entries entries' := h
  induction h with
  | nil => rfl
  | cons hentry _ ih =>
    cases hentry with
    | entry hbound => rw [List.map_cons, List.map_cons, ih]

theorem Alike.weaken {more : Likeness ν} {later : Places} (hmore : like.Within more)
    (hlater : place.Extends later) {table table' : Table (Expr ν)}
    (h : table.Alike like place table') : table.Alike more later table' :=
  entriesAlike_weaken hmore hlater h

theorem Alike.mono {later : Places} (hlater : place.Extends later)
    {table table' : Table (Expr ν)} (h : table.Alike like place table') :
    table.Alike like later table' :=
  h.weaken (.refl like) hlater

theorem alike_empty : (empty : Table (Expr ν)).Alike like place empty :=
  .nil

end Table

/-! ## Frames -/

namespace Frame.Alike

variable {frame frame' : Frame ν} (h : frame.Alike like place frame')
include h

theorem number : place frame.number frame'.number := by
  cases h with
  | frame hnumber hrole hentries hbody => exact hnumber

theorem role : frame.role.Alike like place frame'.role := by
  cases h with
  | frame hnumber hrole hentries hbody => exact hrole

theorem bindings : frame.bindings.Alike like place frame'.bindings := by
  cases h with
  | frame hnumber hrole hentries hbody => exact hentries

theorem body : frame.body.Alike like place frame'.body := by
  cases h with
  | frame hnumber hrole hentries hbody => exact hbody

end Frame.Alike

namespace Role.Alike

variable {role role' : Role ν} (h : role.Alike like place role')
include h

theorem kind : role.kind = role'.kind := by
  cases h <;> rfl

theorem arguments? : Option.Rel (AllAlike like place) role.arguments? role'.arguments? := by
  cases h with
  | call h => exact .some h
  | root | closure | thunk => exact .none

end Role.Alike

/-! ## Scopes -/

namespace Scope.Alike

variable {scope scope' : Scope ν} (h : scope.Alike like place scope')
include h

theorem frame : scope.frame.Alike like place scope'.frame := by
  cases h with
  | scope hframe houter => exact hframe

theorem frames : List.Forall₂ (Frame.Alike like place) scope.frames scope'.frames := by
  cases h with
  | scope hframe houter => exact .cons hframe houter

theorem number : place scope.number scope'.number :=
  h.frame.number

theorem kind : scope.kind = scope'.kind :=
  h.frame.role.kind

theorem body : scope.body.Alike like place scope'.body :=
  h.frame.body

theorem depth : scope.depth = scope'.depth :=
  h.frames.length_eq

theorem parent? : Option.Rel (Scope.Alike like place) scope.parent? scope'.parent? := by
  cases h with
  | scope hframe houter =>
    cases houter with
    | nil => exact .none
    | cons hnext hrest => exact .some (.scope hnext hrest)

/-- A closure over alike scopes. -/
theorem newClosure {number number' : Nat} (hnumber : place number number')
    {table table' : Table (Expr ν)} (htable : table.Alike like place table')
    {body body' : Expr ν} (hbody : body.Alike like place body') :
    (Scope.closure number table body scope).Alike like place
      (Scope.closure number' table' body' scope') :=
  .scope (.frame hnumber .closure htable hbody) h.frames

theorem newThunk {number number' : Nat} (hnumber : place number number')
    {deferred deferred' : Expr ν} (hdeferred : deferred.Alike like place deferred') :
    (Scope.thunk number deferred scope).Alike like place
      (Scope.thunk number' deferred' scope') :=
  .scope (.frame hnumber .thunk .nil hdeferred) h.frames

/-- A call of alike closures. -/
theorem newCall {number number' : Nat} (hnumber : place number number')
    {arguments arguments' : List (Expr ν)} (harguments : AllAlike like place arguments arguments') :
    (Scope.call number scope arguments).Alike like place
      (Scope.call number' scope' arguments') := by
  cases h with
  | scope hframe houter =>
    exact .scope (.frame hnumber (.call harguments) hframe.bindings hframe.body) houter

end Scope.Alike

/-- Alike things found, or the same failure to find any. -/
inductive FoundAlike (like : Likeness ν) (place : Places) :
    Except Failure (Scope.Found ν) → Except Failure (Scope.Found ν) → Prop where
  | missing (failure : Failure) : FoundAlike like place (.error failure) (.error failure)
  | found {bound bound' : Expr ν} {owner owner' : Scope ν} (hbound : bound.Alike like place bound')
      (howner : owner.Alike like place owner') :
      FoundAlike like place (.ok (bound, owner)) (.ok (bound', owner'))

namespace Scope

theorem findBinding_alike (name : String) {frames frames' : List (Frame ν)}
    (h : List.Forall₂ (Frame.Alike like place) frames frames') :
    FoundAlike like place (findBinding name frames) (findBinding name frames') := by
  induction h with
  | nil => exact .missing _
  | @cons frame frame' outer outer' hframe houter ih =>
    rw [findBinding, findBinding]
    have hfind := hframe.bindings.find? name
    revert hfind
    cases frame.bindings.find? name <;> cases frame'.bindings.find? name <;> intro hfind
    · exact ih
    · cases hfind
    · cases hfind
    · cases hfind with
      | some hbound => exact .found hbound (.scope hframe houter)

/-- What is found by an index in two argument lists of related expressions, or the same failure. -/
theorem argument_related {held : Expr ν → Expr ν → Prop}
    {found : Except Failure (Found ν) → Except Failure (Found ν) → Prop} {owner owner' : Scope ν}
    (hmissing : ∀ failure, found (.error failure) (.error failure))
    (hfound : ∀ {bound bound'}, held bound bound' →
      found (.ok (bound, owner)) (.ok (bound', owner')))
    (index : Nat) {arguments arguments' : List (Expr ν)} (h : List.Forall₂ held arguments arguments') :
    found
      (match arguments[index]? with
      | some argument => .ok (argument, owner)
      | none => .error (.positionalOutOfRange index arguments.length))
      (match arguments'[index]? with
      | some argument => .ok (argument, owner')
      | none => .error (.positionalOutOfRange index arguments'.length)) := by
  by_cases hindex : index < arguments.length
  · have hindex' : index < arguments'.length := h.length_eq ▸ hindex
    simp only [List.getElem?_eq_getElem hindex, List.getElem?_eq_getElem hindex']
    exact hfound (h.get hindex hindex')
  · have hindex' : ¬index < arguments'.length := h.length_eq ▸ hindex
    simp only [List.getElem?_eq_none (Nat.le_of_not_lt hindex),
      List.getElem?_eq_none (Nat.le_of_not_lt hindex'), h.length_eq]
    exact hmissing _

theorem findArgument_alike (index : Nat) {frames frames' : List (Frame ν)}
    (h : List.Forall₂ (Frame.Alike like place) frames frames') :
    FoundAlike like place (findArgument index frames) (findArgument index frames') := by
  induction h with
  | nil => exact .missing _
  | @cons frame frame' outer outer' hframe houter ih =>
    rw [findArgument, findArgument]
    have harguments := hframe.role.arguments?
    revert harguments
    cases frame.role.arguments? <;> cases frame'.role.arguments? <;> intro harguments
    · exact ih
    · cases harguments
    · cases harguments
    · cases harguments with
      | some hall => exact argument_related .missing (.found · (.scope hframe houter)) index hall

/-- Lookup in alike scopes leads to the same place. -/
theorem Alike.find {scope scope' : Scope ν} (h : scope.Alike like place scope')
    (name : String) : FoundAlike like place (scope.find name) (scope'.find name) := by
  unfold Scope.find
  cases positional? name with
  | none => exact findBinding_alike name h.frames
  | some index => exact findArgument_alike index h.frames

end Scope

/-! ## Lambdas -/

namespace Lambda

/-- Bindings that are alike one by one. -/
abbrev BindingsAlike (like : Likeness ν) (place : Places) :
    List (Binding ν) → List (Binding ν) → Prop :=
  List.Forall₂ fun binding binding' =>
    binding.1.Alike like place binding'.1 ∧ binding.2.Alike like place binding'.2

/-- Alike parts, or the same defect. -/
inductive PartsAlike (like : Likeness ν) (place : Places) :
    Except LambdaShape (List (Binding ν) × Expr ν) →
    Except LambdaShape (List (Binding ν) × Expr ν) → Prop where
  | defect (shape : LambdaShape) : PartsAlike like place (.error shape) (.error shape)
  | parts {bindings bindings' : List (Binding ν)} {body body' : Expr ν}
      (hbindings : BindingsAlike like place bindings bindings')
      (hbody : body.Alike like place body') :
      PartsAlike like place (.ok (bindings, body)) (.ok (bindings', body'))

namespace PartsAlike

variable {found : Except LambdaShape (List (Binding ν) × Expr ν)}

theorem of_defect {shape : LambdaShape} (h : PartsAlike like place (.error shape) found) :
    found = .error shape := by
  cases h
  rfl

theorem of_parts {bindings : List (Binding ν)} {body : Expr ν}
    (h : PartsAlike like place (.ok (bindings, body)) found) :
    ∃ bindings' body', found = .ok (bindings', body') ∧
      BindingsAlike like place bindings bindings' ∧ body.Alike like place body' := by
  cases h with
  | parts hbindings hbody => exact ⟨_, _, rfl, hbindings, hbody⟩

end PartsAlike

theorem isBare_alike {item item' : Item ν} (h : item.Alike like place item') :
    isBare item = isBare item' := by
  cases h <;> rfl

theorem countP_alike {items items' : List (Item ν)}
    (h : List.Forall₂ (Item.Alike like place) items items') :
    items.countP isBare = items'.countP isBare := by
  induction h with
  | nil => rfl
  | cons hitem _ ih => rw [List.countP_cons, List.countP_cons, ih, isBare_alike hitem]

theorem split_alike {items items' : List (Item ν)}
    (h : List.Forall₂ (Item.Alike like place) items items') :
    PartsAlike like place (split items) (split items') := by
  induction h with
  | nil => exact .defect _
  | cons hitem hrest ih =>
    cases hitem with
    | bare hbody =>
      cases hrest with
      | nil => exact .parts .nil hbody
      | cons hnext hlater => exact .defect _
    | binding hname hbound =>
      rw [split, split]
      revert ih
      generalize split _ = first
      generalize split _ = second
      rintro (_ | ⟨hbindings, hbody⟩)
      · exact .defect _
      · exact .parts (.cons ⟨hname, hbound⟩ hbindings) hbody

theorem parts_alike {items items' : List (Item ν)}
    (h : List.Forall₂ (Item.Alike like place) items items') :
    PartsAlike like place (parts items) (parts items') := by
  unfold parts
  rw [countP_alike h]
  simp only
  split
  · exact .defect _
  · exact split_alike h

end Lambda

/-! ## Heads -/

theorem Terminal.Alike.toExpr {result result' : Terminal ν} (h : result.Alike like result') :
    result.toExpr.Alike like place result'.toExpr := by
  cases h with
  | value h => exact .value h
  | native method => exact .native method

theorem Head.Alike.toExpr {head head' : Head ν} (h : head.Alike like place head') :
    head.toExpr.Alike like place head'.toExpr := by
  cases h with
  | terminal h => exact h.toExpr
  | closure h _ => exact .scope h

end CallByNeed
