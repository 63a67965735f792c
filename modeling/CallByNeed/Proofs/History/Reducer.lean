import CallByNeed.Proofs.History.Follows

/-! # The reducer follows itself

One statement for each function of the reducer: a run of it follows a run on corresponding arguments
in a world with fewer records. Frames that both runs make correspond to each other. Frames that
natives make stay unknown, as they cannot come out of the natives.
-/

namespace CallByNeed
set_option autoImplicit false

open CallByName

variable {ν σ α β : Type} {code : Code ν}

/-! ## Making frames -/

/-- The numbering with so many frames more, of which the first ones correspond. -/
def extendBy (number : Nat → Nat) (left right count : Nat) (place : Nat) : Nat :=
  if place < left then number place
  else if place < left + count then right + (place - left) + 1
  else 0

theorem extendBy_old {number : Nat → Nat} {left right count place : Nat} (h : place < left) :
    extendBy number left right count place = number place :=
  if_pos h

theorem extendBy_new (number : Nat → Nat) (left right : Nat) {count index : Nat}
    (h : index < count) :
    extendBy number left right count (left + index) = right + index + 1 := by
  have hold : ¬left + index < left := by omega
  have hnew : left + index < left + count := by omega
  rw [extendBy, if_neg hold, if_pos hnew]
  omega

theorem extendBy_later {number : Nat → Nat} {left right count place : Nat}
    (h : left + count ≤ place) : extendBy number left right count place = 0 := by
  have hold : ¬place < left := by omega
  have hnew : ¬place < left + count := by omega
  rw [extendBy, if_neg hold, if_neg hnew]

namespace World

/-- Thunks that both worlds make correspond in their order. -/
theorem newThunks_follow {number : Nat → Nat} {calling calling' : Scope ν}
    (hcalling : calling.renumber number = calling'.renumber Nat.succ)
    {exprs exprs' : List (Expr ν)}
    (hexprs : exprs.map (Expr.renumber number) = exprs'.map (Expr.renumber Nat.succ))
    (left right : World ν σ)
    (hnumber : ∀ index, index < exprs.length →
      number (left.size + index) = right.size + index + 1) :
    (left.newThunks calling exprs).1.map (Expr.renumber number) =
      (right.newThunks calling' exprs').1.map (Expr.renumber Nat.succ) := by
  induction exprs generalizing exprs' left right with
  | nil =>
    cases exprs' with
    | nil => rfl
    | cons expr rest => cases hexprs
  | cons expr rest ih =>
    cases exprs' with
    | nil => cases hexprs
    | cons expr' rest' =>
      obtain ⟨hexpr, hrest⟩ := List.cons.inj hexprs
      have hsize : (left.newThunk expr calling).2.size = left.size + 1 := size_newScope left _
      have hsize' : (right.newThunk expr' calling').2.size = right.size + 1 :=
        size_newScope right _
      have hlater := ih hrest (left.newThunk expr calling).2 (right.newThunk expr' calling').2
        fun index hindex => by
          have hnext := hnumber (index + 1) (Nat.succ_lt_succ hindex)
          rw [hsize, hsize', show left.size + 1 + index = left.size + (index + 1) by omega, hnext]
          omega
      have hfirst := hnumber 0 (Nat.zero_lt_succ _)
      show Expr.scope (Scope.renumber number (.thunk left.size expr calling)) ::
          (World.newThunks calling rest (left.newThunk expr calling).2).1.map _ =
        Expr.scope (Scope.renumber Nat.succ (.thunk right.size expr' calling')) ::
          (World.newThunks calling' rest' (right.newThunk expr' calling').2).1.map _
      rw [Scope.renumber_thunk, Scope.renumber_thunk, hexpr, hcalling, hlater]
      rw [show number left.size = right.size.succ from hfirst]

/-- Calls that both worlds make correspond if what they are made of does. -/
theorem newCall_follow {number : Nat → Nat} {closure closure' calling calling' : Scope ν}
    {arguments arguments' : List (Expr ν)}
    (hclosure : closure.renumber number = closure'.renumber Nat.succ)
    (hcalling : calling.renumber number = calling'.renumber Nat.succ)
    (harguments : arguments.map (Expr.renumber number) = arguments'.map (Expr.renumber Nat.succ))
    (left right : World ν σ) (hnumber : ∀ index, index ≤ arguments.length →
      number (left.size + index) = right.size + index + 1) :
    (left.newCall closure arguments calling).1.renumber number =
      (right.newCall closure' arguments' calling').1.renumber Nat.succ := by
  have hthunks := newThunks_follow hcalling harguments left right fun index hindex =>
    hnumber index (Nat.le_of_lt hindex)
  have hlength : arguments.length = arguments'.length := by
    have hlengths := congrArg List.length harguments
    rwa [List.length_map, List.length_map] at hlengths
  have hplace : number (left.newThunks calling arguments).2.size =
      Nat.succ (right.newThunks calling' arguments').2.size := by
    rw [size_newThunks, size_newThunks, ← hlength]
    exact hnumber arguments.length (Nat.le_refl _)
  show Scope.renumber number (.call (left.newThunks calling arguments).2.size closure
      (left.newThunks calling arguments).1) =
    Scope.renumber Nat.succ (.call (right.newThunks calling' arguments').2.size closure'
      (right.newThunks calling' arguments').1)
  rw [Scope.renumber_call, Scope.renumber_call, hplace, hclosure, hthunks]

variable {world : World ν σ}

theorem furnished_newClosure (hconsistent : world.Consistent) {table : Table (Expr ν)}
    {body : Expr ν} {scope : Scope ν}
    (h : world.StoresAll (Result.scopesOf [.bound table.entries, .next body scope])) :
    world.Furnished (world.newClosure table body scope).2 := by
  have hall : world.StoresAll (scope :: (table.scopes ++ body.scopes)) :=
    h.subset fun inner hm => by grind [Result.scopesOf, Result.scopes, Table.scopes]
  refine ⟨World.grows_newScope world _, fun _ => ?_, World.recordAt_newScope world _⟩
  exact hconsistent.newClosure hall.tail.left hall.tail.right hall.head

theorem furnished_newCall {closure scope : Scope ν} {arguments : List (Expr ν)}
    (h : world.StoresAll (Result.scopesOf
      [.heads arguments, .head (.closure closure), .head (.closure scope)])) (event : Event ν) :
    world.Furnished ((world.newCall closure arguments scope).2.emit event) := by
  have hall : world.StoresAll (closure :: scope :: scopesAll arguments) := by
    refine h.subset fun inner hm => ?_
    simp only [Result.scopesOf, Result.scopes, Head.scopes]
    grind
  have hcall : World.Makes world (world.newCall closure arguments scope).2 :=
    .call closure arguments scope hall.head hall.tail.tail hall.tail.head
  exact World.Makes.furnished ((Relation.ReflTransGen.single hcall).tail (.outside rfl))

/-- What is stored already is older than the frames that are added. -/
theorem sameNeeds_extendBy (hconsistent : world.Consistent) {number : Nat → Nat}
    {needs needs' : List (Result ν)} (hstored : world.StoresAll (Result.scopesOf needs))
    (hsame : needs.map (Result.renumber number) = needs'.map (Result.renumber Nat.succ))
    (right count : Nat) :
    needs.map (Result.renumber (extendBy number world.size right count)) =
      needs'.map (Result.renumber Nat.succ) := by
  rw [← hsame]
  refine List.map_congr_left fun need hneed => ?_
  exact Result.renumber_congr hconsistent (fun _ => extendBy_old)
    (hstored.subset fun inner hinner => Result.mem_scopesOf hneed hinner)

end World

namespace Run

/-- The needs of one closure that is made correspond to those of another one. -/
theorem follows_newClosure (table table' : Table (Expr ν)) (body body' : Expr ν)
    (scope scope' : Scope ν) :
    Follows code (fun frame => .head (.closure frame))
      [.bound table.entries, .next body scope] [.bound table'.entries, .next body' scope']
      (withWorld (World.newClosure table body scope) : Run ν σ (Scope ν))
      (withWorld (World.newClosure table' body' scope')) := by
  refine follows_withWorld fun number left right hleft hright hstored hstored' hknows hsame => ?_
  refine ⟨World.furnished_newClosure hleft hstored, World.furnished_newClosure hright hstored',
    extendBy number left.size right.size 1, fun place => extendBy_old, fun place hplace => ?_, ?_⟩
  · rw [show (left.newClosure table body scope).2.size = left.size + 1 from
      World.size_newScope left _] at hplace
    exact extendBy_later hplace
  · have hneeds := World.sameNeeds_extendBy hleft hstored hsame right.size 1
    simp only [List.map_cons, List.map_nil, List.cons.injEq, and_true, Result.renumber,
      Result.bound.injEq, Result.next.injEq] at hneeds
    obtain ⟨hentries, hbody, hscope⟩ := hneeds
    have htable : table.map (Expr.renumber (extendBy number left.size right.size 1)) =
        table'.map (Expr.renumber Nat.succ) := congrArg Table.mk hentries
    have hplace : extendBy number left.size right.size 1 left.size = Nat.succ right.size :=
      extendBy_new number left.size right.size Nat.zero_lt_one
    show Result.head (.closure (Scope.renumber _ (.closure left.size table body scope))) =
      .head (.closure (Scope.renumber _ (.closure right.size table' body' scope')))
    rw [Scope.renumber_closure, Scope.renumber_closure, hplace, htable, hbody, hscope]

/-- The frames of corresponding calls correspond, as do their arguments. -/
theorem follows_call (closure closure' scope scope' : Scope ν)
    (arguments arguments' : List (Expr ν)) :
    Follows code (fun frame => .head (.closure frame))
      [.heads arguments, .head (.closure closure), .head (.closure scope)]
      [.heads arguments', .head (.closure closure'), .head (.closure scope')]
      (Run.call closure arguments scope : Run ν σ (Scope ν))
      (Run.call closure' arguments' scope') := by
  -- The event changes neither frames nor records.
  let change := fun (closure : Scope ν) arguments scope (world : World ν σ) =>
    ((world.newCall closure arguments scope).1,
      (world.newCall closure arguments scope).2.emit (.calling closure.body arguments))
  have hrun : ∀ closure arguments scope, (Run.call closure arguments scope : Run ν σ (Scope ν)) =
      withWorld (change closure arguments scope) := fun _ _ _ => rfl
  rw [hrun, hrun]
  refine follows_withWorld fun number left right hleft hright hstored hstored' hknows hsame => ?_
  refine ⟨World.furnished_newCall hstored _, World.furnished_newCall hstored' _,
    extendBy number left.size right.size (arguments.length + 1), fun place => extendBy_old,
    fun place hplace => ?_, ?_⟩
  · have hmade : (change closure arguments scope left).2.size =
        (left.newThunks scope arguments).2.size + 1 :=
      World.size_newScope (left.newThunks scope arguments).2
        fun number => .call number closure (left.newThunks scope arguments).1
    rw [hmade, World.size_newThunks] at hplace
    exact extendBy_later hplace
  · have hneeds := World.sameNeeds_extendBy hleft hstored hsame right.size (arguments.length + 1)
    simp only [List.map_cons, List.map_nil, List.cons.injEq, and_true, Result.renumber,
      Head.renumber, Result.heads.injEq, Result.head.injEq, Head.closure.injEq] at hneeds
    obtain ⟨harguments, hclosure, hscope⟩ := hneeds
    have hframe := World.newCall_follow hclosure hscope harguments left right fun index hindex =>
      extendBy_new number left.size right.size (Nat.lt_succ_of_le hindex)
    exact congrArg (fun frame => Result.head (.closure frame)) hframe

end Run

namespace Engine

/-- Corresponding calls of a native method give corresponding results. The frames that the native
makes cannot be part of them. -/
theorem callNative_follows {engine : Engine ν σ} (hnatives : engine.invoke.Computes code)
    (method : Native ν) (arguments arguments' : List (Expr ν)) (scope scope' : Scope ν) :
    Run.Follows code (fun result => .heads [result])
      [.heads arguments, .head (.closure scope)] [.heads arguments', .head (.closure scope')]
      (engine.callNative method arguments scope) (engine.callNative method arguments' scope') := by
  let change := fun arguments (scope : Scope ν) (world : World ν σ) =>
    let given := engine.invoke method arguments scope (world.emit (.invoking method arguments scope))
    (given.1, given.2.emit (.returned method given.1))
  have hrun : ∀ arguments scope, engine.callNative method arguments scope =
      Run.withWorld (change arguments scope) := fun _ _ => rfl
  rw [hrun, hrun]
  refine Run.follows_withWorld fun number left right hleft hright hstored hstored' hknows hsame => ?_
  have hgiven : ∀ {world : World ν σ} {arguments : List (Expr ν)} {scope : Scope ν},
      world.Consistent →
      world.StoresAll (Result.scopesOf [.heads arguments, .head (.closure scope)]) →
      world.Furnished (change arguments scope world).2 ∧ ∀ number : Nat → Nat,
        (change arguments scope world).1.renumber number =
          code method (arguments.map (Expr.renumber number)) := by
    intro world arguments scope hconsistent h
    have hall : world.StoresAll (scope :: scopesAll arguments) := by
      refine h.subset fun inner hm => ?_
      simp only [Result.scopesOf, Result.scopes, Head.scopes]
      grind
    have hentered : world.Furnished (world.emit (.invoking method arguments scope)) :=
      World.Makes.furnished (.single (.outside rfl))
    have hconsistent' := hentered.consistent hconsistent
    have hall' := hall.grows hentered.grows
    have heffects := hnatives.effects method arguments scope _ hconsistent' hall'.tail hall'.head
    refine ⟨World.Makes.furnished ?_, fun number => ?_⟩
    · exact ((Relation.ReflTransGen.single (.outside rfl)).trans heffects).tail (.outside rfl)
    · exact hnatives.renumber hconsistent' hall'.tail hall'.head number
  obtain ⟨hfurnished, hresult⟩ := hgiven hleft hstored
  obtain ⟨hfurnished', hresult'⟩ := hgiven hright hstored'
  refine ⟨hfurnished, hfurnished', number, fun _ _ => rfl, fun place hplace => ?_, ?_⟩
  · exact hknows.fresh place (Nat.le_trans hfurnished.grows.size hplace)
  · simp only [List.map_cons, List.map_nil, List.cons.injEq, and_true, Result.renumber,
      Result.heads.injEq] at hsame
    obtain ⟨harguments, -⟩ := hsame
    show Result.heads [Expr.renumber number _] = Result.heads [Expr.renumber Nat.succ _]
    rw [hresult, hresult', harguments]

end Engine
/-! ## Arguments and lambdas -/

theorem Lambda.parts_follow {number : Nat → Nat} {items items' : List (Item ν)}
    (h : renumberItems number items = renumberItems Nat.succ items')
    {bindings bindings' : List (Lambda.Binding ν)} {body body' : Expr ν}
    (hparts : Lambda.parts items = .ok (bindings, body))
    (hparts' : Lambda.parts items' = .ok (bindings', body')) :
    (bindings.map Prod.fst).map (Expr.renumber number) =
        (bindings'.map Prod.fst).map (Expr.renumber Nat.succ) ∧
      (bindings.map Prod.snd).map (Expr.renumber number) =
        (bindings'.map Prod.snd).map (Expr.renumber Nat.succ) ∧
      body.renumber number = body'.renumber Nat.succ := by
  have hleft := Lambda.parts_renumber_ok hparts number
  have hright := Lambda.parts_renumber_ok hparts' Nat.succ
  rw [h, hright] at hleft
  obtain ⟨hbindings, hbody⟩ := Prod.mk.inj (Except.ok.inj hleft)
  have hfst : ∀ (number : Nat → Nat) (bindings : List (Lambda.Binding ν)),
      (bindings.map Prod.fst).map (Expr.renumber number) =
        (bindings.map (Lambda.Binding.renumber number)).map Prod.fst := by
    intro number bindings
    rw [List.map_map, List.map_map]
    rfl
  have hsnd : ∀ (number : Nat → Nat) (bindings : List (Lambda.Binding ν)),
      (bindings.map Prod.snd).map (Expr.renumber number) =
        (bindings.map (Lambda.Binding.renumber number)).map Prod.snd := by
    intro number bindings
    rw [List.map_map, List.map_map]
    rfl
  refine ⟨?_, ?_, hbody.symm⟩
  · rw [hfst, hfst, hbindings]
  · rw [hsnd, hsnd, hbindings]

/-- Corresponding lambdas have the same defect, if any. -/
theorem Lambda.parts_error_follow {number : Nat → Nat} {items items' : List (Item ν)}
    (h : renumberItems number items = renumberItems Nat.succ items') (shape : LambdaShape) :
    Lambda.parts items = .error shape ↔ Lambda.parts items' = .error shape := by
  have hleft := Lambda.parts_renumber number items
  have hright := Lambda.parts_renumber Nat.succ items'
  rw [h, hright] at hleft
  cases hitems : Lambda.parts items with
  | error defect =>
    cases hitems' : Lambda.parts items' with
    | error defect' =>
      rw [hitems, hitems'] at hleft
      have hdefect : defect' = defect := Except.error.inj hleft
      rw [hdefect]
    | ok parts' =>
      rw [hitems, hitems'] at hleft
      cases hleft
  | ok parts =>
    cases hitems' : Lambda.parts items' with
    | error defect' =>
      rw [hitems, hitems'] at hleft
      cases hleft
    | ok parts' => simp

/-- The scopes of bindings are those of their names and those of what they bind. -/
theorem Lambda.mem_bindingScopes {bindings : List (Lambda.Binding ν)} {inner : Scope ν} :
    inner ∈ Lambda.bindingScopes bindings ↔
      inner ∈ scopesAll (bindings.map Prod.fst) ∨ inner ∈ scopesAll (bindings.map Prod.snd) := by
  induction bindings with
  | nil => simp [Lambda.bindingScopes, scopesAll]
  | cons binding rest ih =>
    simp only [Lambda.bindingScopes, List.flatMap_cons, List.mem_append] at ih ⊢
    simp only [List.map_cons, scopesAll, List.mem_append]
    grind

namespace Covers

theorem noBinding {needs needs' : List (Result ν)} : Covers needs needs'
    [.bound (Table.empty : Table (Expr ν)).entries] [.bound (Table.empty : Table (Expr ν)).entries] :=
  ⟨fun _ _ => rfl, fun _ hm => absurd hm List.not_mem_nil, fun _ hm => absurd hm List.not_mem_nil⟩

/-- What a table comes to when one more name is bound. -/
theorem insert (name : String) {bound bound' : Expr ν} {table table' : Table (Expr ν)} :
    Covers [.heads [bound], .bound table.entries] [.heads [bound'], .bound table'.entries]
      [.bound (table.insert name bound).entries] [.bound (table'.insert name bound').entries] := by
  have hscopes : ∀ {bound : Expr ν} {table : Table (Expr ν)},
      ∀ inner ∈ Result.scopesOf [.bound (table.insert name bound).entries],
        inner ∈ Result.scopesOf [.heads [bound], .bound table.entries] := by
    intro bound table inner hm
    simp only [Result.scopesOf, Result.scopes, scopesAll, List.append_nil, List.mem_append] at hm ⊢
    exact Table.scopes_insert hm
  refine ⟨fun number hsame => ?_, hscopes, hscopes⟩
  simp only [List.map_cons, List.map_nil, Result.renumber, List.cons.injEq, and_true,
    Result.heads.injEq, Result.bound.injEq] at hsame
  obtain ⟨hbound, hentries⟩ := hsame
  have hmap : table.map (Expr.renumber number) = table'.map (Expr.renumber Nat.succ) :=
    congrArg Table.mk hentries
  have hinsert : (table.insert name bound).map (Expr.renumber number) =
      (table'.insert name bound').map (Expr.renumber Nat.succ) := by
    rw [Table.insert_map, Table.insert_map, hmap, hbound]
  have hrenumbered : renumberBound number (table.insert name bound).entries =
      renumberBound Nat.succ (table'.insert name bound').entries :=
    congrArg Table.entries hinsert
  simp only [List.map_cons, List.map_nil, Result.renumber, hrenumbered]

theorem parts {items items' : List (Item ν)} {bindings bindings' : List (Lambda.Binding ν)}
    {body body' : Expr ν} (hparts : Lambda.parts items = .ok (bindings, body))
    (hparts' : Lambda.parts items' = .ok (bindings', body')) (scope scope' : Scope ν) :
    Covers [.next (.lambda items) scope] [.next (.lambda items') scope']
      [.heads (bindings.map Prod.fst), .heads (bindings.map Prod.snd), .heads [body]]
      [.heads (bindings'.map Prod.fst), .heads (bindings'.map Prod.snd), .heads [body']] := by
  have hscopes : ∀ {items : List (Item ν)} {bindings : List (Lambda.Binding ν)} {body : Expr ν}
      {scope : Scope ν}, Lambda.parts items = .ok (bindings, body) →
      ∀ inner ∈ Result.scopesOf
        [.heads (bindings.map Prod.fst), .heads (bindings.map Prod.snd), .heads [body]],
        inner ∈ Result.scopesOf [.next (.lambda items) scope] := by
    intro items bindings body scope hparts inner hm
    simp only [Result.scopesOf, Result.scopes, scopesAll, List.append_nil, List.mem_append] at hm
    have hitem : inner ∈ scopesItems items := by
      refine Lambda.parts_scopes hparts inner (List.mem_append.2 ?_)
      rcases hm with hname | hbound | hbody
      · exact .inl (Lambda.mem_bindingScopes.2 (.inl hname))
      · exact .inl (Lambda.mem_bindingScopes.2 (.inr hbound))
      · exact .inr hbody
    exact List.mem_append_left _ (List.mem_cons_of_mem _ hitem)
  refine ⟨fun number hsame => ?_, hscopes hparts, hscopes hparts'⟩
  simp only [List.map_cons, List.map_nil, Result.renumber, Expr.renumber, List.cons.injEq,
    and_true, Result.next.injEq, Expr.lambda.injEq] at hsame
  obtain ⟨hnames, hvalues, hbody⟩ := Lambda.parts_follow hsame.1 hparts hparts'
  simp only [List.map_cons, List.map_nil, Result.renumber, hnames, hvalues, hbody]

theorem application {operator operator' : Expr ν} {arguments arguments' : List (Expr ν)}
    {scope scope' : Scope ν} :
    Covers [.next (.application operator arguments) scope]
      [.next (.application operator' arguments') scope']
      [.next operator scope, .heads arguments] [.next operator' scope', .heads arguments'] where
  same number hsame := by
    simp only [List.map_cons, List.map_nil, Result.renumber, Expr.renumber, List.cons.injEq,
      and_true, Result.next.injEq, Expr.application.injEq, renumberAll_eq_map] at hsame
    obtain ⟨⟨hoperator, harguments⟩, hscope⟩ := hsame
    simp only [List.map_cons, List.map_nil, Result.renumber, hoperator, harguments, hscope]
  scopes inner hm := by
    simpa only [Result.scopesOf, Result.scopes, Expr.scopes, List.cons_append, List.append_assoc,
      List.append_nil] using hm
  scopes' inner hm := by
    simpa only [Result.scopesOf, Result.scopes, Expr.scopes, List.cons_append, List.append_assoc,
      List.append_nil] using hm

end Covers

/-- The resolutions one level deeper follow each other on corresponding arguments. -/
structure Nested.Follows (code : Code ν) (nested : Nested ν σ) : Prop where
  resolve : ∀ expr expr' scope scope', Run.Follows code .head [.next expr scope]
    [.next expr' scope'] (nested.resolve expr scope) (nested.resolve expr' scope')
  bindingName : ∀ position position' scope scope', Run.Follows code .name [.next position scope]
    [.next position' scope'] (nested.bindingName position scope)
    (nested.bindingName position' scope')

namespace Nested.Follows

variable {nested : Nested ν σ} (h : Nested.Follows code nested)
  (hmeets : Nested.Meets code nested)

omit h in
include hmeets in
theorem keeps_resolve (expr : Expr ν) (scope : Scope ν) :
    Run.Keeps code .head [.next expr scope] (nested.resolve expr scope) := by
  refine (hmeets.resolve expr scope).keeps ?_ fun _ _ hm => hm
  intro inner hm
  exact List.mem_append_left _ hm

omit h in
include hmeets in
theorem keeps_resolveAll (scope : Scope ν) (arguments : List (Expr ν)) :
    Run.Keeps code .heads [.heads arguments, .head (.closure scope)]
      (nested.resolveAll scope arguments) := by
  refine (hmeets.resolveAll scope arguments).keeps ?_ fun _ _ hm => hm
  intro inner hm
  simp only [Result.scopesOf, Result.scopes, Head.scopes]
  grind

omit h in
include hmeets in
theorem keeps_bindingName (position : Expr ν) (scope : Scope ν) :
    Run.Keeps code .name [.next position scope] (nested.bindingName position scope) := by
  refine (hmeets.bindingName position scope).keeps ?_ fun _ _ hm => hm
  intro inner hm
  exact List.mem_append_left _ hm

omit h in
include hmeets in
theorem keeps_close (items : List (Item ν)) (scope : Scope ν) :
    Run.Keeps code (fun frame => .head (.closure frame)) [.next (.lambda items) scope]
      (nested.close items scope) := by
  refine (hmeets.close items scope).keeps ?_ fun _ _ hm => hm
  intro inner hm
  exact List.mem_append_left _ hm

include h hmeets

theorem resolveAll (scope scope' : Scope ν) (arguments arguments' : List (Expr ν)) :
    Run.Follows code .heads [.heads arguments, .head (.closure scope)]
      [.heads arguments', .head (.closure scope')] (nested.resolveAll scope arguments)
      (nested.resolveAll scope' arguments') := by
  induction arguments generalizing arguments' with
  | nil =>
    refine Run.Follows.of_same fun number hsame => ?_
    cases arguments' with
    | nil => exact Run.follows_pure fun _ _ => rfl
    | cons argument rest => cases hsame
  | cons argument rest ih =>
    refine Run.Follows.of_same fun number hsame => ?_
    cases arguments' with
    | nil => cases hsame
    | cons argument' rest' =>
      rw [Nested.resolveAll_cons, Nested.resolveAll_cons]
      refine (h.resolve argument argument' scope scope').bind_of
        (keeps_resolve hmeets argument scope) (keeps_resolve hmeets argument' scope')
        (.next (.of_first (Covers.uncons.trans .first)) (.later .first)) fun head head' => ?_
      refine (ih rest').bind_of (keeps_resolveAll hmeets scope rest)
        (keeps_resolveAll hmeets scope' rest')
        (.later (.cons (.of_first (Covers.uncons.trans (.later .first))) (.later .first)))
        fun heads heads' => ?_
      refine Run.follows_pure fun number hsame => ?_
      simp only [List.map_cons, Result.renumber, List.cons.injEq, Result.heads.injEq,
        Result.head.injEq] at hsame
      have hhead : head.toExpr.renumber number = head'.toExpr.renumber Nat.succ := by
        rw [← Head.toExpr_renumber, hsame.2.1, Head.toExpr_renumber]
      simp only [Result.renumber, List.map_cons, hhead, hsame.1]

omit h in
theorem keeps_bindAll (scope : Scope ν) (bindings : List (Lambda.Binding ν))
    (table : Table (Expr ν)) :
    Run.Keeps code (fun table => .bound table.entries)
      [.heads (bindings.map Prod.fst), .heads (bindings.map Prod.snd), .bound table.entries,
        .head (.closure scope)] (nested.bindAll scope bindings table) := by
  refine (hmeets.bindAll scope bindings table).keeps ?_ fun _ _ hm => hm
  intro inner hm
  simp only [List.mem_cons, List.mem_append, Lambda.mem_bindingScopes, Table.scopes] at hm
  simp only [Result.scopesOf, Result.scopes, Head.scopes]
  grind

theorem bindAll (scope scope' : Scope ν) (bindings bindings' : List (Lambda.Binding ν))
    (table table' : Table (Expr ν)) :
    Run.Follows code (fun table => .bound table.entries)
      [.heads (bindings.map Prod.fst), .heads (bindings.map Prod.snd), .bound table.entries,
        .head (.closure scope)]
      [.heads (bindings'.map Prod.fst), .heads (bindings'.map Prod.snd), .bound table'.entries,
        .head (.closure scope')]
      (nested.bindAll scope bindings table) (nested.bindAll scope' bindings' table') := by
  induction bindings generalizing bindings' table table' with
  | nil =>
    refine Run.Follows.of_same fun number hsame => ?_
    cases bindings' with
    | nil =>
      refine Run.follows_pure fun number hsame => ?_
      grind [Result.renumber]
    | cons binding rest => cases hsame
  | cons binding rest ih =>
    refine Run.Follows.of_same fun number hsame => ?_
    cases bindings' with
    | nil => cases hsame
    | cons binding' rest' =>
      obtain ⟨position, bound⟩ := binding
      obtain ⟨position', bound'⟩ := binding'
      rw [Nested.bindAll_cons, Nested.bindAll_cons]
      refine (h.bindingName position position' scope scope').bind_of
        (keeps_bindingName hmeets position scope) (keeps_bindingName hmeets position' scope')
        (.next (.of_first (Covers.uncons.trans .first)) (.later (.later (.later .first))))
        fun name name' => ?_
      refine Run.Follows.of_same fun number hsame => ?_
      have hname : name = name' := Result.name.inj (List.cons.inj hsame).1
      subst hname
      refine Run.Follows.quiet_bind (Run.quiet_reportRebound name table)
        (Run.quiet_reportRebound name table') fun _ _ => ?_
      refine (ih rest' (table.insert name bound) (table'.insert name bound')).of_covers (.later ?_)
      refine .cons (.of_first (Covers.uncons.trans (.later .first))) ?_
      refine .cons (.later (.of_first (Covers.uncons.trans (.later .first)))) ?_
      refine .cons (.trans ?_ (Covers.insert name)) (.later (.later (.later .first)))
      exact .cons (.later (.of_first (Covers.uncons.trans .first))) (.later (.later .first))

theorem close (items items' : List (Item ν)) (scope scope' : Scope ν) :
    Run.Follows code (fun frame => .head (.closure frame)) [.next (.lambda items) scope]
      [.next (.lambda items') scope'] (nested.close items scope) (nested.close items' scope') := by
  refine Run.Follows.of_same fun number hsame => ?_
  have hitems : renumberItems number items = renumberItems Nat.succ items' := by
    simp only [List.map_cons, List.map_nil, Result.renumber, Expr.renumber, List.cons.injEq,
      and_true, Result.next.injEq, Expr.lambda.injEq] at hsame
    exact hsame.1
  have hdefects := Lambda.parts_error_follow hitems
  rw [Nested.close, Nested.close]
  cases hparts : Lambda.parts items with
  | error shape =>
    rw [(hdefects shape).1 hparts]
    exact Run.follows_fail _
  | ok parts =>
    cases hparts' : Lambda.parts items' with
    | error shape =>
      rw [(hdefects shape).2 hparts'] at hparts
      cases hparts
    | ok parts' =>
      obtain ⟨bindings, body⟩ := parts
      obtain ⟨bindings', body'⟩ := parts'
      have hcovers := Covers.parts hparts hparts' scope scope'
      refine (bindAll h hmeets scope scope' bindings bindings' .empty .empty).bind_of
        (keeps_bindAll hmeets scope bindings .empty)
        (keeps_bindAll hmeets scope' bindings' .empty) ?_ fun table table' => ?_
      · refine .cons (hcovers.trans .first) (.cons (hcovers.trans (.later .first)) ?_)
        exact .cons .noBinding .within
      refine Run.Follows.quiet_bind (Run.quiet_emit _) (Run.quiet_emit _) fun _ _ => ?_
      refine (Run.follows_newClosure table table' body body' scope scope').of_covers ?_
      refine .cons .first (.later (.next ?_ .within))
      exact hcovers.trans (.later (.later .first))

end Nested.Follows
/-! ## Steps -/

theorem Scope.enter_renumber (number : Nat → Nat) (scope : Scope ν) :
    scope.enter.toResult.renumber number = (scope.renumber number).enter.toResult := by
  unfold Scope.enter
  rw [Scope.renumber_kind]
  cases scope.kind with
  | closure => rfl
  | thunk =>
    simp only [Outcome.toResult, Result.renumber, Scope.renumber_body, Scope.renumber_parent?]
    cases scope.parent? <;> rfl
  | call => simp only [Outcome.toResult, Result.renumber, Scope.renumber_body]
  | root => simp only [Outcome.toResult, Result.renumber, Scope.renumber_body]

theorem Run.keeps_call (closure scope : Scope ν) (arguments : List (Expr ν)) :
    Run.Keeps code (fun frame => .head (.closure frame))
      [.heads arguments, .head (.closure closure), .head (.closure scope)]
      (Run.call closure arguments scope : Run ν σ (Scope ν)) := by
  have hmeets : Run.Meets code Engine.anything (fun frame => [frame])
      (closure :: scope :: scopesAll arguments)
      (Run.call closure arguments scope : Run ν σ (Scope ν)) := by
    rw [← bind_pure (Run.call closure arguments scope : Run ν σ (Scope ν))]
    refine Run.call_bind_meets (fun inner hm => hm) fun frame => ?_
    exact Run.meets_pure (fun _ _ => trivial) fun inner hm =>
      List.mem_cons.2 (.inl (List.mem_singleton.1 hm))
  refine hmeets.keeps (fun inner hm => ?_) fun _ _ hm => hm
  simp only [Result.scopesOf, Result.scopes, Head.scopes]
  grind

namespace Engine

variable {engine : Engine ν σ} {nested : Nested ν σ}

section Application

variable (hnatives : engine.invoke.Computes code) (h : Nested.Follows code nested)
  (hmeets : Nested.Meets code nested)
include hnatives

theorem keeps_callNative (method : Native ν) (arguments : List (Expr ν)) (scope : Scope ν) :
    Run.Keeps code (fun result => .heads [result]) [.heads arguments, .head (.closure scope)]
      (engine.callNative method arguments scope) := by
  have hcall : Run.Meets code anything Expr.scopes (scope :: scopesAll arguments)
      (engine.callNative method arguments scope) := by
    rw [← bind_pure (engine.callNative method arguments scope)]
    refine callNative_bind_meets hnatives (fun inner hm => hm) fun result => ?_
    exact Run.meets_pure (fun _ _ => trivial) fun inner hm => List.mem_append_left _ hm
  refine hcall.keeps (fun inner hm => ?_) fun result inner hm => ?_
  · simp only [Result.scopesOf, Result.scopes, Head.scopes]
    grind
  · simpa only [Result.scopes, scopesAll, List.append_nil] using hm

include h hmeets

theorem stepApplication_follows (operator operator' : Expr ν) (arguments arguments' : List (Expr ν))
    (scope scope' : Scope ν) :
    Run.Follows code Outcome.toResult [.next operator scope, .heads arguments]
      [.next operator' scope', .heads arguments']
      (engine.stepApplication nested operator arguments scope)
      (engine.stepApplication nested operator' arguments' scope') := by
  rw [stepApplication, stepApplication]
  refine (h.resolve operator operator' scope scope').bind_of
    (Nested.Follows.keeps_resolve hmeets operator scope)
    (Nested.Follows.keeps_resolve hmeets operator' scope') .first fun head head' => ?_
  refine Run.Follows.of_same fun number hsame => ?_
  have harguments := Nested.Follows.resolveAll h hmeets scope scope' arguments arguments'
  have hkeeps := Nested.Follows.keeps_resolveAll hmeets scope arguments
  have hkeeps' := Nested.Follows.keeps_resolveAll hmeets scope' arguments'
  have hcovers : Covers
      [.head head, .next operator scope, .heads arguments]
      [.head head', .next operator' scope', .heads arguments']
      [.heads arguments, .head (.closure scope)] [.heads arguments', .head (.closure scope')] :=
    .cons (.later (.later .first)) (.later (.of_first .within))
  rcases head with (value | method) | closure
  · rcases head' with (value' | method') | closure'
    · refine Run.Follows.quiet_bind (Run.quiet_emit _) (Run.quiet_emit _) fun _ _ => ?_
      exact Run.follows_pure fun number hsame => (List.cons.inj hsame).1
    · cases hsame
    · cases hsame
  · rcases head' with (value' | method') | closure'
    · cases hsame
    · have hmethod : method = method' := by
        have hhead := (List.cons.inj hsame).1
        simpa only [Result.renumber, Head.renumber, Terminal.forget, Result.head.injEq,
          Head.terminal.injEq, Terminal.native.injEq] using hhead
      subst hmethod
      refine harguments.bind_of hkeeps hkeeps' hcovers fun heads heads' => ?_
      refine (callNative_follows hnatives method heads heads' scope scope').bind_of
        (keeps_callNative hnatives method heads scope)
        (keeps_callNative hnatives method heads' scope')
        (.cons .first (.later (.later (.of_first .within)))) fun result result' => ?_
      refine Run.follows_pure fun number hsame => ?_
      simp only [List.map_cons, List.map_nil, Result.renumber, List.cons.injEq,
        Result.heads.injEq, Result.next.injEq, and_true] at hsame
      simp only [Result.renumber, Outcome.toResult, hsame.1, hsame.2.2.2.1.2]
    · cases hsame
  · rcases head' with (value' | method') | closure'
    · cases hsame
    · cases hsame
    · refine harguments.bind_of hkeeps hkeeps' hcovers fun heads heads' => ?_
      refine (Run.follows_call closure closure' scope scope' heads heads').bind_of
        (Run.keeps_call closure scope heads) (Run.keeps_call closure' scope' heads')
        (.cons .first (.cons (.later .first) (.later (.later (.of_first .within)))))
        fun frame frame' => ?_
      refine Run.follows_pure fun number hsame => ?_
      have hframe : frame.renumber number = frame'.renumber Nat.succ := by
        simp only [List.map_cons, Result.renumber, Head.renumber] at hsame
        grind
      have hbody : frame.body.renumber number = frame'.body.renumber Nat.succ := by
        rw [← Scope.renumber_body, ← Scope.renumber_body, hframe]
      simp only [Result.renumber, Outcome.toResult, hframe, hbody]

theorem stepBody_follows (expr expr' : Expr ν) (hexpr : expr.identifier? = none)
    (scope scope' : Scope ν) :
    Run.Follows code Outcome.toResult [.next expr scope] [.next expr' scope']
      (engine.stepBody nested expr scope) (engine.stepBody nested expr' scope') := by
  refine Run.Follows.of_same fun number hsame => ?_
  have hparts : expr.renumber number = expr'.renumber Nat.succ ∧
      scope.renumber number = scope'.renumber Nat.succ := by
    simpa only [List.map_cons, List.map_nil, Result.renumber, List.cons.injEq, and_true,
      Result.next.injEq] using hsame
  obtain ⟨hsame, -⟩ := hparts
  unfold stepBody
  refine Run.Follows.quiet_bind (Run.quiet_emit _) (Run.quiet_emit _) fun _ _ => ?_
  cases expr with
  | value it =>
    cases expr' with
    | value it' =>
      refine Run.follows_pure fun number hsame => ?_
      simp only [List.map_cons, List.map_nil, Result.renumber, Expr.renumber, List.cons.injEq,
        and_true, Result.next.injEq, Expr.value.injEq] at hsame
      simp only [Outcome.toResult, Result.renumber, Head.renumber, Terminal.forget, hsame.1]
    | _ => cases hsame
  | native method =>
    cases expr' with
    | native method' =>
      refine Run.follows_pure fun number hsame => ?_
      simp only [List.map_cons, List.map_nil, Result.renumber, Expr.renumber, List.cons.injEq,
        and_true, Result.next.injEq, Expr.native.injEq] at hsame
      simp only [Outcome.toResult, Result.renumber, Head.renumber, Terminal.forget, hsame.1]
    | _ => cases hsame
  | failure failure =>
    cases expr' with
    | failure failure' =>
      have hfailure : failure = failure' := by
        simpa only [Expr.renumber, Expr.failure.injEq] using hsame
      subst hfailure
      exact Run.follows_fail failure
    | _ => cases hsame
  | identifier name => cases hexpr
  | lambda items =>
    cases expr' with
    | lambda items' =>
      refine (Nested.Follows.close h hmeets items items' scope scope').bind ?_ ?_
        fun frame frame' => ?_
      · exact Nested.Follows.keeps_close hmeets items scope
      · exact Nested.Follows.keeps_close hmeets items' scope'
      · exact Run.follows_pure fun number hsame => (List.cons.inj hsame).1
    | _ => cases hsame
  | scope inner =>
    cases expr' with
    | scope inner' =>
      refine Run.follows_pure fun number hsame => ?_
      simp only [List.map_cons, List.map_nil, Result.renumber, Expr.renumber, List.cons.injEq,
        and_true, Result.next.injEq, Expr.scope.injEq] at hsame
      rw [Scope.enter_renumber, Scope.enter_renumber, hsame.1]
    | _ => cases hsame
  | application operator arguments =>
    cases expr' with
    | application operator' arguments' =>
      exact (stepApplication_follows hnatives h hmeets operator operator' arguments arguments'
        scope scope').of_covers .application
    | _ => cases hsame

end Application

end Engine
end CallByNeed
