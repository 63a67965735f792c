import CallByNeed.Proofs.Deferral.Simulation
import CallByNeed.Proofs.Worlds.Operations

/-! # Scopes that stand for each other

Two evaluations can go on side by side in different scopes, as long as what one of them finds in its
scope is what the other one finds in its own. A pairing says which scope stands for which. Paired
scopes are twins if all that is read off them is the same syntax over paired scopes; only where a
scope is an expression itself do the two have to be of one kind.

Worlds are abreast if paired scopes are twins with the same records in them. They stay abreast when
frames are made and records are written side by side, and native methods that treat frames as opaque
give the same syntax over paired scopes in them (`World.Abreast.invoke`).
-/

namespace CallByNeed
set_option autoImplicit false

variable {ν σ : Type}

/-! ## Pairings -/

/-- Which scope of one evaluation stands for which scope of another one. -/
abbrev Pairing (ν : Type) := Scope ν → Scope ν → Prop

namespace Pairing

/-- The second pairing has all pairs of the first one. -/
def Within (rel later : Pairing ν) : Prop :=
  ∀ scope scope', rel scope scope' → later scope scope'

/-- Paired scopes of one kind, which stand for each other as expressions, too. -/
def held (rel : Pairing ν) : Pairing ν :=
  fun scope scope' => rel scope scope' ∧ scope.kind = scope'.kind

/-- One more pair. -/
def insert (rel : Pairing ν) (new new' : Scope ν) : Pairing ν :=
  fun scope scope' => rel scope scope' ∨ scope = new ∧ scope' = new'

variable {rel middle later : Pairing ν}

theorem Within.refl (rel : Pairing ν) : rel.Within rel :=
  fun _ _ h => h

theorem Within.trans (h : rel.Within middle) (h' : middle.Within later) : rel.Within later :=
  fun scope scope' hrel => h' scope scope' (h scope scope' hrel)

theorem Within.held (h : rel.Within later) : rel.held.Within later.held :=
  fun scope scope' hheld => ⟨h scope scope' hheld.1, hheld.2⟩

theorem within_insert (rel : Pairing ν) (new new' : Scope ν) : rel.Within (rel.insert new new') :=
  fun _ _ h => .inl h

theorem insert_self (rel : Pairing ν) (new new' : Scope ν) : rel.insert new new' new new' :=
  .inr ⟨rfl, rfl⟩

end Pairing

/-! ## Twins -/

/-- The same syntax in paired scopes, or the same failure to find any. -/
inductive FoundOver (rel : Pairing ν) :
    Except Failure (Scope.Found ν) → Except Failure (Scope.Found ν) → Prop where
  | missing (failure : Failure) : FoundOver rel (.error failure) (.error failure)
  | found {bound bound' : Expr ν} {owner owner' : Scope ν} (hbound : bound.Over rel.held bound')
      (howner : rel owner owner') : FoundOver rel (.ok (bound, owner)) (.ok (bound', owner'))

/-- What is read off the one scope is the same, over paired scopes, for the other one. -/
structure Scope.Twin (rel : Pairing ν) (scope scope' : Scope ν) : Prop where
  find : ∀ name, FoundOver rel (scope.find name) (scope'.find name)
  parent : Option.Rel rel scope.parent? scope'.parent?
  body : scope.body.Over rel.held scope'.body
  bindings : scope.bindings.Over rel.held scope'.bindings
  shown : scope.kind = scope'.kind → scope.display = scope'.display

theorem optionRel_imp {α β : Type} {rel more : α → β → Prop} (h : ∀ first second, rel first second →
    more first second) {first : Option α} {second : Option β} (hrel : Option.Rel rel first second) :
    Option.Rel more first second := by
  cases hrel with
  | none => exact .none
  | some hrel => exact .some (h _ _ hrel)

section Mono

variable {rel later : Pairing ν} (hlater : rel.Within later)
include hlater

theorem Expr.Over.within {expr expr' : Expr ν} (h : expr.Over rel.held expr') :
    expr.Over later.held expr' :=
  h.imp hlater.held

theorem Head.Over.within {head head' : Head ν} (h : head.Over rel.held head') :
    head.Over later.held head' :=
  h.imp hlater.held

theorem Table.Over.within {table table' : Table (Expr ν)} (h : table.Over rel.held table') :
    table.Over later.held table' :=
  h.imp hlater.held

theorem FoundOver.within {found found' : Except Failure (Scope.Found ν)}
    (h : FoundOver rel found found') : FoundOver later found found' := by
  cases h with
  | missing failure => exact .missing failure
  | found hbound howner => exact .found (hbound.within hlater) (hlater _ _ howner)

theorem Scope.Twin.within {scope scope' : Scope ν} (h : scope.Twin rel scope') :
    scope.Twin later scope' where
  find name := (h.find name).within hlater
  parent := optionRel_imp hlater h.parent
  body := h.body.within hlater
  bindings := h.bindings.within hlater
  shown := h.shown

end Mono

/-! ## Lookup in new frames -/

section Lookup

variable {rel : Pairing ν} {number number' : Nat} {name : String}

/-- A thunk binds nothing. -/
theorem Scope.find_thunk (number : Nat) (deferred : Expr ν) (calling : Scope ν) (name : String) :
    (Scope.thunk number deferred calling).find name = calling.find name := by
  unfold Scope.find
  cases positional? name <;> rfl

/-- A name is looked for in the frame itself, and then in the scope around it. -/
theorem Scope.find_of_name (hname : positional? name = none) (scope : Scope ν) :
    scope.find name =
      match scope.bindings.find? name with
      | some bound => .ok (bound, scope)
      | none =>
          match scope.parent? with
          | none => .error (.missingIdentifier name)
          | some parent => parent.find name := by
  have hfind (inner : Scope ν) : inner.find name = findBinding name inner.frames := by
    rw [Scope.find, hname]
  rw [hfind]
  obtain ⟨frame, _ | ⟨next, outer⟩⟩ := scope
  · rfl
  · simp only [Scope.parent?, hfind]
    rfl

theorem FoundOver.of_name (hname : positional? name = none) {scope scope' : Scope ν}
    (hrel : rel scope scope') (hbindings : scope.bindings.Over rel.held scope'.bindings)
    (hparent : Option.Rel (fun parent parent' => FoundOver rel (parent.find name) (parent'.find name))
      scope.parent? scope'.parent?) :
    FoundOver rel (scope.find name) (scope'.find name) := by
  have hfind := hbindings.find? name
  rw [Scope.find_of_name hname scope, Scope.find_of_name hname scope']
  revert hfind hparent
  cases scope.bindings.find? name <;> cases scope'.bindings.find? name <;> intro hparent hfind <;>
    cases hfind
  · revert hparent
    cases scope.parent? <;> cases scope'.parent? <;> intro hparent <;> cases hparent
    · exact .missing _
    · rename_i hfound
      exact hfound
  · rename_i hbound
    exact .found hbound hrel

/-- A closure finds its own bindings first. -/
theorem FoundOver.closure {table table' : Table (Expr ν)} (htable : table.Over rel.held table')
    {body body' : Expr ν} {parent parent' : Scope ν}
    (hparent : FoundOver rel (parent.find name) (parent'.find name))
    (hnew : rel (.closure number table body parent) (.closure number' table' body' parent')) :
    FoundOver rel ((Scope.closure number table body parent).find name)
      ((Scope.closure number' table' body' parent').find name) := by
  cases hname : positional? name with
  | none =>
    refine .of_name hname hnew htable ?_
    rw [Scope.parent?_closure, Scope.parent?_closure]
    exact .some hparent
  | some index =>
    unfold Scope.find at hparent ⊢
    rw [hname] at hparent ⊢
    exact hparent

/-- A call finds what its arguments and its closure's bindings are, and goes on in what encloses the
closure. -/
theorem FoundOver.call {later : Pairing ν} (hlater : rel.Within later)
    (htwins : ∀ {scope scope'}, rel scope scope' → scope.Twin rel scope')
    {closure closure' : Scope ν} (hclosure : rel closure closure')
    {arguments arguments' : List (Expr ν)}
    (harguments : List.Forall₂ (Expr.Over later.held) arguments arguments')
    (hnew : later (.call number closure arguments) (.call number' closure' arguments')) :
    FoundOver later ((Scope.call number closure arguments).find name)
      ((Scope.call number' closure' arguments').find name) := by
  have htwin := htwins hclosure
  cases hname : positional? name with
  | none =>
    refine .of_name hname hnew (htwin.bindings.within hlater) ?_
    exact optionRel_imp (fun _ _ hrel => ((htwins hrel).find name).within hlater) htwin.parent
  | some index =>
    unfold Scope.find
    rw [hname]
    exact Scope.argument_related .missing (.found · hnew) index harguments

end Lookup

/-! ## Worlds abreast -/

/-- Paired scopes are stored, one for one, and are twins with the same records. -/
structure World.Abreast (rel : Pairing ν) (world world' : World ν σ) : Prop where
  consistent : world.Consistent ∧ world'.Consistent
  stored : ∀ {scope scope'}, rel scope scope' → world.Stores scope ∧ world'.Stores scope'
  unique : ∀ {scope scope' other other'}, rel scope scope' → rel other other' →
    (scope.number = other.number ↔ scope'.number = other'.number)
  records : ∀ {scope scope'}, rel scope scope' → ∀ name,
    (world.recordAt scope.number name).map Terminal.forget =
      (world'.recordAt scope'.number name).map Terminal.forget
  twins : ∀ {scope scope'}, rel scope scope' → scope.Twin rel scope'

/-- What making frames keeps. -/
theorem World.Makes.kept {before after : World ν σ} (h : Relation.ReflTransGen Makes before after)
    (hconsistent : before.Consistent) : after.Consistent ∧ before.Grows after ∧
      ∀ number name, after.recordAt number name = before.recordAt number name := by
  induction h with
  | refl => exact ⟨hconsistent, .refl _, fun _ _ => rfl⟩
  | tail _ hmade ih =>
    obtain ⟨hmiddle, hgrows, hrecords⟩ := ih
    exact ⟨hmade.consistent hmiddle, hgrows.trans hmade.grows,
      fun number name => (hmade.records number name).trans (hrecords number name)⟩

namespace World.Abreast

variable {rel : Pairing ν} {world world' : World ν σ} (h : world.Abreast rel world')
include h

/-- The same syntax over paired scopes is shown as the same text. -/
theorem display {expr expr' : Expr ν} (hexpr : expr.Over rel.held expr') :
    expr.display = expr'.display := by
  refine Expr.Alike.display (fun _ _ hscopes => ?_) hexpr
  cases hscopes with
  | scope hscope =>
    rw [Expr.display_scope, Expr.display_scope]
    exact (h.twins hscope.1).shown hscope.2

/-! ### What is stored -/

theorem storesAll {scopes scopes' : List (Scope ν)}
    (hscopes : List.Forall₂ rel.held scopes scopes') :
    world.StoresAll scopes ∧ world'.StoresAll scopes' := by
  induction hscopes with
  | nil => exact ⟨.nil, .nil⟩
  | cons hscope _ ih =>
    obtain ⟨hstored, hstored'⟩ := h.stored hscope.1
    exact ⟨.cons hstored ih.1, .cons hstored' ih.2⟩

theorem storesTable {table table' : Table (Expr ν)} (htable : table.Over rel.held table') :
    world.StoresAll (scopesAll (table.entries.map Prod.snd)) ∧
      world'.StoresAll (scopesAll (table'.entries.map Prod.snd)) := by
  have hentries : List.Forall₂ (Expr.Over rel.held) (table.entries.map Prod.snd)
      (table'.entries.map Prod.snd) := by
    rw [List.forall₂_map_left_iff, List.forall₂_map_right_iff]
    refine List.Forall₂.imp (fun entry entry' hentry => ?_) htable
    cases hentry with
    | entry hbound => exact hbound
  exact h.storesAll (scopesAll_between hentries)

/-! ### Changes without a new pair -/

/-- Whatever is made on either side, old pairs stay abreast. -/
theorem makes {after after' : World ν σ} (hmakes : Relation.ReflTransGen Makes world after)
    (hmakes' : Relation.ReflTransGen Makes world' after') : after.Abreast rel after' := by
  obtain ⟨hconsistent, hgrows, hrecords⟩ := Makes.kept hmakes h.consistent.1
  obtain ⟨hconsistent', hgrows', hrecords'⟩ := Makes.kept hmakes' h.consistent.2
  exact {
    consistent := ⟨hconsistent, hconsistent'⟩
    stored := fun hrel => ⟨(h.stored hrel).1.grows hgrows, (h.stored hrel).2.grows hgrows'⟩
    unique := h.unique
    records := fun hrel name => by rw [hrecords, hrecords', h.records hrel]
    twins := h.twins }

theorem emit (event event' : Event ν) : (world.emit event).Abreast rel (world'.emit event') :=
  h.makes (.single (.outside rfl)) (.single (.outside rfl))

/-- The same result is recorded for one name in paired scopes. -/
theorem memoize {scope scope' : Scope ν} (hscope : rel scope scope') (name : String)
    {result result' : Terminal ν} (hresult : result.forget = result'.forget) :
    (world.memoize scope name result).Abreast rel (world'.memoize scope' name result') where
  consistent := ⟨h.consistent.1.memoize _ _ _, h.consistent.2.memoize _ _ _⟩
  stored hrel := ⟨(h.stored hrel).1.grows (grows_memoize _ _ _ _),
    (h.stored hrel).2.grows (grows_memoize _ _ _ _)⟩
  unique := h.unique
  twins := h.twins
  records {other other'} hrel own := by
    have hsize := (h.stored hrel).1.lt_size
    have hsize' := (h.stored hrel).2.lt_size
    have hold := h.records hrel own
    rw [recordAt_memoize, recordAt_memoize]
    by_cases hsame : other.number = scope.number ∧ own = name
    · rw [if_pos ⟨hsame.1, hsame.2, hsize⟩,
        if_pos ⟨(h.unique hrel hscope).1 hsame.1, hsame.2, hsize'⟩]
      revert hold
      cases world.recordAt other.number own <;> cases world'.recordAt other'.number own <;>
        intro hold
      · exact congrArg some hresult
      · cases hold
      · cases hold
      · exact hold
    · rw [if_neg fun hand => hsame ⟨hand.1, hand.2.1⟩,
        if_neg fun hand => hsame ⟨(h.unique hrel hscope).2 hand.1, hand.2.1⟩]
      exact hold

theorem memoizeAll {result result' : Terminal ν} (hresult : result.forget = result'.forget)
    {owners owners' : List (Scope ν × String)}
    (howners : List.Forall₂ (fun owner owner' => rel owner.1 owner'.1 ∧ owner.2 = owner'.2)
      owners owners') :
    (world.memoizeAll result owners).Abreast rel (world'.memoizeAll result' owners') := by
  induction howners generalizing world world' with
  | nil => exact h
  | @cons owner owner' rest rest' howner _ ih =>
    obtain ⟨scope, name⟩ := owner
    obtain ⟨scope', name'⟩ := owner'
    obtain ⟨hscope, rfl⟩ := howner
    exact ih (h.memoize hscope name hresult)

/-- A native method that treats frames as opaque gives the same syntax over paired scopes. -/
theorem invoke {invoke : Invoke ν σ} {code : Code ν} (hnatives : invoke.Computes code)
    (method : Native ν) {heads heads' : List (Head ν)}
    (hheads : List.Forall₂ (Head.Over rel.held) heads heads') {scope scope' : Scope ν}
    (hscope : rel scope scope') :
    let called := invoke method (heads.map Head.toExpr) scope world
    let called' := invoke method (heads'.map Head.toExpr) scope' world'
    called.1.Over rel.held called'.1 ∧ called.2.Abreast rel called'.2 := by
  obtain ⟨harguments, harguments'⟩ := h.storesAll (scopesAll_between (headsBetween_toExpr hheads))
  obtain ⟨hstored, hstored'⟩ := h.stored hscope
  refine ⟨hnatives.uniform.over hheads method (fun _ _ hheld => .loose (.scope hheld))
    (hnatives.result _ _ _ _ h.consistent.1 harguments hstored)
    (hnatives.result _ _ _ _ h.consistent.2 harguments' hstored'), ?_⟩
  exact h.makes (hnatives.effects _ _ _ _ h.consistent.1 harguments hstored)
    (hnatives.effects _ _ _ _ h.consistent.2 harguments' hstored')

/-! ### New pairs -/

/-- In worlds that have grown, a stored scope without records becomes the pair of another one, if no
other pair has their numbers. -/
theorem insert {after after' : World ν σ} (hconsistent : after.Consistent ∧ after'.Consistent)
    (hgrows : world.Grows after ∧ world'.Grows after')
    (hrecords : ∀ number name, after.recordAt number name = world.recordAt number name)
    (hrecords' : ∀ number name, after'.recordAt number name = world'.recordAt number name)
    {new new' : Scope ν} (hstored : after.Stores new ∧ after'.Stores new')
    (hfresh : ∀ {scope scope'}, rel scope scope' →
      scope.number ≠ new.number ∧ scope'.number ≠ new'.number)
    (hnone : ∀ name, world.recordAt new.number name = none ∧ world'.recordAt new'.number name = none)
    (htwin : new.Twin (rel.insert new new') new') : after.Abreast (rel.insert new new') after' where
  consistent := hconsistent
  stored := by
    rintro scope scope' (hrel | ⟨rfl, rfl⟩)
    · exact ⟨(h.stored hrel).1.grows hgrows.1, (h.stored hrel).2.grows hgrows.2⟩
    · exact hstored
  unique := by
    rintro scope scope' other other' (hrel | ⟨rfl, rfl⟩) (hother | ⟨rfl, rfl⟩)
    · exact h.unique hrel hother
    · exact iff_of_false (hfresh hrel).1 (hfresh hrel).2
    · exact iff_of_false (hfresh hother).1.symm (hfresh hother).2.symm
    · exact iff_of_true rfl rfl
  records := by
    rintro scope scope' (hrel | ⟨rfl, rfl⟩) name
    · rw [hrecords, hrecords', h.records hrel]
    · rw [hrecords, hrecords', (hnone name).1, (hnone name).2]
  twins := by
    rintro scope scope' (hrel | ⟨rfl, rfl⟩)
    · exact (h.twins hrel).within (rel.within_insert _ _)
    · exact htwin

/-- New frames that are twins become a pair. -/
theorem newScope {make make' : Nat → Scope ν} (hnumber : (make world.size).number = world.size)
    (hnumber' : (make' world'.size).number = world'.size)
    (hconsistent : (world.newScope make).2.Consistent)
    (hconsistent' : (world'.newScope make').2.Consistent)
    (htwin : (make world.size).Twin (rel.insert (make world.size) (make' world'.size))
      (make' world'.size)) :
    (world.newScope make).2.Abreast (rel.insert (make world.size) (make' world'.size))
      (world'.newScope make').2 := by
  refine h.insert ⟨hconsistent, hconsistent'⟩ ⟨grows_newScope _ _, grows_newScope _ _⟩
    (recordAt_newScope _ _) (recordAt_newScope _ _)
    ⟨stores_newScope world make hnumber, stores_newScope world' make' hnumber'⟩
    (fun hrel => ?_) (fun name => ?_) htwin
  · rw [hnumber, hnumber']
    exact ⟨Nat.ne_of_lt (h.stored hrel).1.lt_size, Nat.ne_of_lt (h.stored hrel).2.lt_size⟩
  · exact ⟨recordAt_eq_none (Nat.le_of_eq hnumber.symm) name,
      recordAt_eq_none (Nat.le_of_eq hnumber'.symm) name⟩

/-- Closures over paired scopes. -/
theorem newClosure {table table' : Table (Expr ν)} (htable : table.Over rel.held table')
    {body body' : Expr ν} (hbody : body.Over rel.held body') {scope scope' : Scope ν}
    (hscope : rel scope scope') :
    ∃ later : Pairing ν, rel.Within later ∧
      later.held (world.newClosure table body scope).1 (world'.newClosure table' body' scope').1 ∧
      (world.newClosure table body scope).2.Abreast later
        (world'.newClosure table' body' scope').2 := by
  have hlater := rel.within_insert (.closure world.size table body scope)
    (.closure world'.size table' body' scope')
  have hnew := rel.insert_self (.closure world.size table body scope)
    (.closure world'.size table' body' scope')
  obtain ⟨hstored, hstored'⟩ := h.stored hscope
  refine ⟨_, hlater, ⟨hnew, rfl⟩, h.newScope rfl rfl
    (h.consistent.1.newClosure (h.storesTable htable).1 (h.storesAll hbody.scopes).1 hstored)
    (h.consistent.2.newClosure (h.storesTable htable).2 (h.storesAll hbody.scopes).2 hstored') ?_⟩
  refine ⟨fun name => ?_, ?_, hbody.within hlater, htable.within hlater, fun _ => ?_⟩
  · exact .closure (htable.within hlater) (((h.twins hscope).find name).within hlater) hnew
  · rw [Scope.parent?_closure, Scope.parent?_closure]
    exact .some (hlater _ _ hscope)
  · rw [Scope.display_closure, Scope.display_closure, htable.names, h.display hbody]

/-- Thunks of one expression deferred in paired scopes. -/
theorem newThunk {deferred deferred' : Expr ν} (hdeferred : deferred.Over rel.held deferred')
    {scope scope' : Scope ν} (hscope : rel scope scope') :
    ∃ later : Pairing ν, rel.Within later ∧
      later.held (world.newThunk deferred scope).1 (world'.newThunk deferred' scope').1 ∧
      (world.newThunk deferred scope).2.Abreast later (world'.newThunk deferred' scope').2 := by
  have hlater := rel.within_insert (.thunk world.size deferred scope)
    (.thunk world'.size deferred' scope')
  have hnew := rel.insert_self (.thunk world.size deferred scope)
    (.thunk world'.size deferred' scope')
  obtain ⟨hstored, hstored'⟩ := h.stored hscope
  refine ⟨_, hlater, ⟨hnew, rfl⟩, h.newScope rfl rfl
    (h.consistent.1.newThunk (h.storesAll hdeferred.scopes).1 hstored)
    (h.consistent.2.newThunk (h.storesAll hdeferred.scopes).2 hstored') ?_⟩
  refine ⟨fun name => ?_, ?_, hdeferred.within hlater, .nil, fun _ => ?_⟩
  · rw [Scope.find_thunk, Scope.find_thunk]
    exact ((h.twins hscope).find name).within hlater
  · rw [Scope.parent?_thunk, Scope.parent?_thunk]
    exact .some (hlater _ _ hscope)
  · rw [Scope.display_thunk, Scope.display_thunk, h.display hdeferred]

theorem newThunks {exprs exprs' : List (Expr ν)}
    (hexprs : List.Forall₂ (Expr.Over rel.held) exprs exprs') {scope scope' : Scope ν}
    (hscope : rel scope scope') :
    ∃ later : Pairing ν, rel.Within later ∧
      List.Forall₂ (Expr.Over later.held) (world.newThunks scope exprs).1
        (world'.newThunks scope' exprs').1 ∧
      (world.newThunks scope exprs).2.Abreast later (world'.newThunks scope' exprs').2 := by
  induction exprs generalizing rel world world' exprs' with
  | nil =>
    cases hexprs
    exact ⟨rel, .refl rel, .nil, h⟩
  | cons expr rest ih =>
    cases hexprs with
    | cons hexpr hrest =>
      obtain ⟨middle, hmiddle, hthunk, hworlds⟩ := h.newThunk hexpr hscope
      obtain ⟨later, hlater, hthunks, hall⟩ := ih hworlds
        (hrest.imp fun _ _ hother => hother.within hmiddle) (hmiddle _ _ hscope)
      exact ⟨later, hmiddle.trans hlater,
        .cons (.loose (.scope (hlater.held _ _ hthunk))) hthunks, hall⟩

/-- Calls of paired closures on the same arguments. -/
theorem newCall {closure closure' : Scope ν} (hclosure : rel closure closure')
    {arguments arguments' : List (Expr ν)}
    (harguments : List.Forall₂ (Expr.Over rel.held) arguments arguments') {scope scope' : Scope ν}
    (hscope : rel scope scope') :
    ∃ later : Pairing ν, rel.Within later ∧
      later (world.newCall closure arguments scope).1 (world'.newCall closure' arguments' scope').1 ∧
      (world.newCall closure arguments scope).2.Abreast later
        (world'.newCall closure' arguments' scope').2 := by
  obtain ⟨middle, hmiddle, hthunks, hworlds⟩ := h.newThunks harguments hscope
  have hlater := middle.within_insert
    (.call (world.newThunks scope arguments).2.size closure (world.newThunks scope arguments).1)
    (.call (world'.newThunks scope' arguments').2.size closure'
      (world'.newThunks scope' arguments').1)
  have hnew := middle.insert_self
    (.call (world.newThunks scope arguments).2.size closure (world.newThunks scope arguments).1)
    (.call (world'.newThunks scope' arguments').2.size closure'
      (world'.newThunks scope' arguments').1)
  obtain ⟨hstored, hstored'⟩ := h.stored hclosure
  obtain ⟨hcalling, hcalling'⟩ := h.stored hscope
  have htwin := hworlds.twins (hmiddle _ _ hclosure)
  refine ⟨_, hmiddle.trans hlater, hnew, hworlds.newScope rfl rfl
    (h.consistent.1.newCall hstored (h.storesAll (scopesAll_between harguments)).1 hcalling).1
    (h.consistent.2.newCall hstored' (h.storesAll (scopesAll_between harguments)).2 hcalling').1 ?_⟩
  refine ⟨fun name => ?_, (htwin.within hlater).parent, htwin.body.within hlater,
    htwin.bindings.within hlater, fun _ => ?_⟩
  · exact .call hlater hworlds.twins (hmiddle _ _ hclosure)
      (hthunks.imp fun _ _ hthunk => hthunk.within hlater) hnew
  · rw [Scope.display_call, Scope.display_call, hthunks.length_eq, hworlds.display htwin.body]

end World.Abreast
end CallByNeed
