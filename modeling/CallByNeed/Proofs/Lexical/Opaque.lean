import CallByNeed.Proofs.CallByName.Renumbering
import CallByNeed.Proofs.Likeness.Forms
import CallByNeed.Proofs.Worlds.Consistency

/-! # Alike up to identities

Expressions with equal values, up to the identities that evaluations gave them. Natives that treat
frames as opaque give such results for such arguments (`Code.Uniform.alike`), what is stored in a
consistent world is like itself as long as its frames correspond to themselves
(`World.Consistent.alike_self`), and all that is alike in this way is shown as the same text
(`Expr.Alike.display`).
-/

namespace CallByNeed
set_option autoImplicit false

variable {ν σ : Type}

/-- Values are alike if they are the same up to the identities that evaluations gave them. -/
def Likeness.renewed (loose : Expr ν → Expr ν → Prop) : Likeness ν :=
  ⟨fun value value' => value.forget = value'.forget, loose⟩

variable {loose : Expr ν → Expr ν → Prop} {place : Places}

/-! ## What is forgotten -/

section Forget

variable {expr : Expr ν}

theorem Expr.of_forget_value {it : Value ν} (h : expr.forget = .value it) :
    ∃ own, expr = .value own ∧ own.forget = it := by
  cases expr with
  | value own => exact ⟨own, rfl, Expr.value.inj h⟩
  | _ => cases h

theorem Expr.of_forget_native {method : Native ν} (h : expr.forget = .native method) :
    expr = .native method := by
  cases expr with
  | native own => exact h
  | _ => cases h

theorem Expr.of_forget_identifier {name : String} (h : expr.forget = .identifier name) :
    expr = .identifier name := by
  cases expr with
  | identifier own => exact h
  | _ => cases h

theorem Expr.of_forget_failure {failure : Failure} (h : expr.forget = .failure failure) :
    expr = .failure failure := by
  cases expr with
  | failure own => exact h
  | _ => cases h

theorem Expr.of_forget_application {operator : Expr ν} {arguments : List (Expr ν)}
    (h : expr.forget = .application operator arguments) :
    ∃ own others, expr = .application own others ∧ own.forget = operator ∧
      replaceScopesAll id others = arguments := by
  cases expr with
  | application own others =>
    obtain ⟨hoperator, harguments⟩ := Expr.application.inj h
    exact ⟨own, others, rfl, hoperator, harguments⟩
  | _ => cases h

theorem Expr.of_forget_lambda {items : List (Item ν)} (h : expr.forget = .lambda items) :
    ∃ own, expr = .lambda own ∧ replaceScopesItems id own = items := by
  cases expr with
  | lambda own => exact ⟨own, rfl, Expr.lambda.inj h⟩
  | _ => cases h

theorem Expr.of_forget_scope {inner : Scope ν} (h : expr.forget = .scope inner) :
    expr = .scope inner := by
  cases expr with
  | scope own => exact h
  | _ => cases h

end Forget

/-! ## Replaced scopes -/

section Replaced

variable {replace replace' : Scope ν → Scope ν}

mutual

/-- Two ways to replace the scopes of a pattern give alike expressions if they give alike scopes. -/
theorem Expr.alike_of_replaced : ∀ (pattern : Expr ν) {expr expr' : Expr ν},
    expr.forget = pattern.replaceScopes replace → expr'.forget = pattern.replaceScopes replace' →
    (∀ inner ∈ pattern.scopes,
      (Expr.scope (replace inner)).Alike (.renewed loose) place (.scope (replace' inner))) →
    expr.Alike (.renewed loose) place expr'
  | .value it, expr, expr', h, h', _ => by
      obtain ⟨own, rfl, hown⟩ := Expr.of_forget_value h
      obtain ⟨own', rfl, hown'⟩ := Expr.of_forget_value h'
      exact .value (hown.trans hown'.symm)
  | .native method, expr, expr', h, h', _ => by
      rw [Expr.of_forget_native h, Expr.of_forget_native h']
      exact .native _
  | .identifier name, expr, expr', h, h', _ => by
      rw [Expr.of_forget_identifier h, Expr.of_forget_identifier h']
      exact .identifier _
  | .failure failure, expr, expr', h, h', _ => by
      rw [Expr.of_forget_failure h, Expr.of_forget_failure h']
      exact .failure _
  | .application operator arguments, expr, expr', h, h', halike => by
      obtain ⟨own, others, rfl, hoperator, harguments⟩ := Expr.of_forget_application h
      obtain ⟨own', others', rfl, hoperator', harguments'⟩ := Expr.of_forget_application h'
      exact .application
        (operator.alike_of_replaced hoperator hoperator' fun inner hm =>
          halike inner (List.mem_append_left _ hm))
        (allAlike_of_replaced arguments harguments harguments' fun inner hm =>
          halike inner (List.mem_append_right _ hm))
  | .lambda items, expr, expr', h, h', halike => by
      obtain ⟨own, rfl, hitems⟩ := Expr.of_forget_lambda h
      obtain ⟨own', rfl, hitems'⟩ := Expr.of_forget_lambda h'
      exact .lambda (itemsAlike_of_replaced items hitems hitems' halike)
  | .scope inner, expr, expr', h, h', halike => by
      rw [Expr.of_forget_scope h, Expr.of_forget_scope h']
      exact halike inner (List.mem_singleton.2 rfl)

theorem allAlike_of_replaced : ∀ (patterns : List (Expr ν)) {exprs exprs' : List (Expr ν)},
    replaceScopesAll id exprs = replaceScopesAll replace patterns →
    replaceScopesAll id exprs' = replaceScopesAll replace' patterns →
    (∀ inner ∈ scopesAll patterns,
      (Expr.scope (replace inner)).Alike (.renewed loose) place (.scope (replace' inner))) →
    AllAlike (.renewed loose) place exprs exprs'
  | [], [], [], _, _, _ => .nil
  | pattern :: rest, expr :: exprs, expr' :: exprs', h, h', halike => by
      obtain ⟨hexpr, hexprs⟩ := List.cons.inj h
      obtain ⟨hexpr', hexprs'⟩ := List.cons.inj h'
      exact .cons
        (pattern.alike_of_replaced hexpr hexpr' fun inner hm =>
          halike inner (List.mem_append_left _ hm))
        (allAlike_of_replaced rest hexprs hexprs' fun inner hm =>
          halike inner (List.mem_append_right _ hm))

theorem Item.alike_of_replaced : ∀ (pattern : Item ν) {item item' : Item ν},
    item.replaceScopes id = pattern.replaceScopes replace →
    item'.replaceScopes id = pattern.replaceScopes replace' →
    (∀ inner ∈ pattern.scopes,
      (Expr.scope (replace inner)).Alike (.renewed loose) place (.scope (replace' inner))) →
    item.Alike (.renewed loose) place item'
  | .binding name bound, .binding own other, .binding own' other', h, h', halike => by
      obtain ⟨hname, hbound⟩ := Item.binding.inj h
      obtain ⟨hname', hbound'⟩ := Item.binding.inj h'
      exact .binding
        (name.alike_of_replaced hname hname' fun inner hm =>
          halike inner (List.mem_append_left _ hm))
        (bound.alike_of_replaced hbound hbound' fun inner hm =>
          halike inner (List.mem_append_right _ hm))
  | .bare body, .bare own, .bare own', h, h', halike =>
      .bare (body.alike_of_replaced (Item.bare.inj h) (Item.bare.inj h') halike)

theorem itemsAlike_of_replaced : ∀ (patterns : List (Item ν)) {items items' : List (Item ν)},
    replaceScopesItems id items = replaceScopesItems replace patterns →
    replaceScopesItems id items' = replaceScopesItems replace' patterns →
    (∀ inner ∈ scopesItems patterns,
      (Expr.scope (replace inner)).Alike (.renewed loose) place (.scope (replace' inner))) →
    List.Forall₂ (Item.Alike (.renewed loose) place) items items'
  | [], [], [], _, _, _ => .nil
  | pattern :: rest, item :: items, item' :: items', h, h', halike => by
      obtain ⟨hitem, hitems⟩ := List.cons.inj h
      obtain ⟨hitem', hitems'⟩ := List.cons.inj h'
      exact .cons
        (pattern.alike_of_replaced hitem hitem' fun inner hm =>
          halike inner (List.mem_append_left _ hm))
        (itemsAlike_of_replaced rest hitems hitems' fun inner hm =>
          halike inner (List.mem_append_right _ hm))

end

end Replaced

/-! ## Frames that correspond to themselves -/

/-- An expression is like itself if its scopes are. -/
theorem Expr.alike_self (expr : Expr ν)
    (h : ∀ inner ∈ expr.scopes,
      (Expr.scope inner).Alike (.renewed loose) place (.scope inner)) :
    expr.Alike (.renewed loose) place expr := by
  have hforget : expr.forget = expr.replaceScopes id := rfl
  exact expr.alike_of_replaced hforget hforget h

/-- A scope is like itself if its frame corresponds to itself, and its parent and what it contains
are like themselves. -/
theorem Scope.alike_self {scope : Scope ν} (hnumber : place scope.number scope.number)
    (hparent : ∀ {outer}, scope.parent? = some outer → outer.Alike (.renewed loose) place outer)
    (hcontents : ∀ expr ∈ scope.contents, expr.Alike (.renewed loose) place expr) :
    scope.Alike (.renewed loose) place scope := by
  obtain ⟨⟨number, role, ⟨entries⟩, body⟩, outer⟩ := scope
  refine .scope (.frame hnumber ?_ ?_ (hcontents body List.mem_cons_self)) ?_
  · cases role with
    | root => exact .root
    | closure => exact .closure
    | thunk => exact .thunk
    | call arguments =>
      refine .call (List.forall₂_same.2 fun argument hargument => hcontents argument ?_)
      exact List.mem_cons_of_mem _ (List.mem_append_right _ hargument)
  · refine List.forall₂_same.2 fun entry hentry => .entry (hcontents entry.2 ?_)
    refine List.mem_cons_of_mem _ (List.mem_append_left _ ?_)
    exact List.mem_map_of_mem hentry
  · cases outer with
    | nil => exact .nil
    | cons frame rest => exact (hparent rfl).frames

/-- Stored scopes are like themselves where all frames correspond to themselves. -/
theorem World.Consistent.alike_self {world : World ν σ} (hconsistent : world.Consistent)
    (hplace : ∀ number, number < world.size → place number number) {scope : Scope ν}
    (h : world.Stores scope) : scope.Alike (.renewed loose) place scope := by
  -- The frames that a frame mentions were made before it.
  induction hn : scope.number using Nat.strongRecOn generalizing scope with
  | ind number ih =>
    have hsupports := hconsistent.supports h
    refine Scope.alike_self (hplace _ h.lt_size) (fun houter => ?_) fun expr hexpr => ?_
    · obtain ⟨hstored, hless⟩ := hsupports.parent houter
      exact ih _ (hn ▸ hless) hstored rfl
    · refine expr.alike_self fun inner hm => ?_
      obtain ⟨hstored, hless⟩ := hsupports.contents inner (mem_scopesAll.2 ⟨expr, hexpr, hm⟩)
      exact .scope (ih _ (hn ▸ hless) hstored rfl)

/-! ## Natives that treat frames as opaque -/

/-- The head with a scope that only says which one of a list it is in place of its own. -/
def Head.pattern (index : Nat) : Head ν → Expr ν
  | .terminal result => result.forget.toExpr
  | .closure _ => .scope (.root index .empty)

def patterns (heads : List (Head ν)) : List (Expr ν) :=
  heads.mapIdx Head.pattern

/-- The scope of the head that a pattern's scope stands for. -/
def scopeAmong (heads : List (Head ν)) (inner : Scope ν) : Scope ν :=
  match heads[inner.number]? with
  | some (.closure scope) => scope
  | _ => inner

theorem forget_eq_patterns (heads : List (Head ν)) :
    (heads.map Head.toExpr).map (Expr.replaceScopes id) =
      (patterns heads).map (Expr.replaceScopes (scopeAmong heads)) := by
  apply List.ext_getElem?
  intro index
  simp only [patterns, List.getElem?_map, List.getElem?_mapIdx]
  cases hhead : heads[index]? with
  | none => rfl
  | some head =>
    cases head with
    | terminal result =>
      cases result with
      | value it => exact congrArg (some ∘ Expr.value) it.forget_forget.symm
      | native method => rfl
    | closure scope =>
      show some (Expr.scope scope) = some (Expr.scope (scopeAmong heads (.root index .empty)))
      rw [scopeAmong, show (Scope.root index .empty : Scope ν).number = index from rfl, hhead]

/-- Heads with equal values, up to the identities that evaluations gave them, or with related
scopes. -/
abbrev Head.Over (rel : Scope ν → Scope ν → Prop) : Head ν → Head ν → Prop :=
  Head.Between (fun value value' => value.forget = value'.forget) rel

theorem Head.Alike.over {head head' : Head ν} (h : head.Alike (.renewed loose) place head') :
    head.Over (Scope.Alike (.renewed loose) place) head' := by
  cases h with
  | closure h _ => exact .closure h
  | terminal hresult =>
    cases hresult with
    | value h => exact .value h
    | native method => exact .native method

theorem Head.Over.pattern {rel : Scope ν → Scope ν → Prop} {head head' : Head ν}
    (h : head.Over rel head') (index : Nat) : head.pattern index = head'.pattern index := by
  cases h with
  | closure => rfl
  | value h => exact congrArg Expr.value h
  | native method => rfl

section Heads

variable {rel : Scope ν → Scope ν → Prop} {heads heads' : List (Head ν)}
  (h : List.Forall₂ (Head.Over rel) heads heads')
include h

theorem patterns_over : patterns heads = patterns heads' := by
  apply List.ext_getElem?
  intro index
  simp only [patterns, List.getElem?_mapIdx]
  by_cases hindex : index < heads.length
  · have hindex' : index < heads'.length := h.length_eq ▸ hindex
    rw [List.getElem?_eq_getElem hindex, List.getElem?_eq_getElem hindex']
    exact congrArg some ((h.get hindex hindex').pattern index)
  · have hindex' : ¬index < heads'.length := h.length_eq ▸ hindex
    rw [List.getElem?_eq_none (Nat.le_of_not_lt hindex),
      List.getElem?_eq_none (Nat.le_of_not_lt hindex')]

/-- What a scope in the patterns stands for on either side is related. -/
theorem scopeAmong_over {inner : Scope ν} (hinner : inner ∈ scopesAll (patterns heads)) :
    rel (scopeAmong heads inner) (scopeAmong heads' inner) := by
  obtain ⟨expr, hexpr, hm⟩ := mem_scopesAll.1 hinner
  obtain ⟨index, hindex, rfl⟩ := List.mem_mapIdx.1 hexpr
  have hindex' : index < heads'.length := h.length_eq ▸ hindex
  have hhead : (heads[index]).Over rel heads'[index] := h.get hindex hindex'
  have hfirst := List.getElem?_eq_getElem hindex
  have hsecond := List.getElem?_eq_getElem hindex'
  revert hhead hm hfirst hsecond
  generalize heads[index] = head
  generalize heads'[index] = head'
  intro hm hhead hfirst hsecond
  cases hhead with
  | value => exact absurd hm List.not_mem_nil
  | native => exact absurd hm List.not_mem_nil
  | closure hscope =>
    cases List.mem_singleton.1 hm
    rw [scopeAmong, scopeAmong, show (Scope.root index .empty : Scope ν).number = index from rfl,
      hfirst, hsecond]
    exact hscope

/-- Natives that treat frames as opaque give alike results for arguments with related scopes. -/
theorem Code.Uniform.over {code : Code ν} (huniform : code.Uniform) (method : Native ν)
    (halike : ∀ scope scope', rel scope scope' →
      (Expr.scope scope).Alike (.renewed loose) place (.scope scope'))
    {result result' : Expr ν}
    (hresult : result.forget = (code method (heads.map Head.toExpr)).forget)
    (hresult' : result'.forget = (code method (heads'.map Head.toExpr)).forget) :
    result.Alike (.renewed loose) place result' := by
  have hforget (heads : List (Head ν)) : (code method (heads.map Head.toExpr)).forget =
      (code method (patterns heads)).replaceScopes (scopeAmong heads) := by
    rw [Expr.forget, ← huniform, ← huniform, forget_eq_patterns]
  rw [hforget] at hresult hresult'
  rw [← patterns_over h] at hresult'
  exact Expr.alike_of_replaced _ hresult hresult' fun inner hm =>
    halike _ _ (scopeAmong_over h (huniform.scopes hm))

end Heads

/-- Natives that treat frames as opaque give alike results for alike arguments. -/
theorem Code.Uniform.alike {code : Code ν} {heads heads' : List (Head ν)}
    (huniform : code.Uniform) (h : List.Forall₂ (Head.Alike (.renewed loose) place) heads heads')
    (method : Native ν) {result result' : Expr ν}
    (hresult : result.forget = (code method (heads.map Head.toExpr)).forget)
    (hresult' : result'.forget = (code method (heads'.map Head.toExpr)).forget) :
    result.Alike (.renewed loose) place result' :=
  huniform.over (h.imp fun _ _ => Head.Alike.over) method (fun _ _ => .scope) hresult hresult'

/-! ## Texts -/

/-- What is loosely alike is shown as the same text. -/
def ShowsAlike (loose : Expr ν → Expr ν → Prop) : Prop :=
  ∀ expr expr', loose expr expr' → expr.display = expr'.display

mutual

/-- What is alike is shown as the same text if what is loosely alike is so. -/
theorem Expr.Alike.display (hloose : ShowsAlike loose) : ∀ {expr expr' : Expr ν},
    expr.Alike (.renewed loose) place expr' → expr.display = expr'.display
  | _, _, .loose h => hloose _ _ h
  | _, _, .value h => congrArg (fun it => it.payload.display) h
  | _, _, .native _ => rfl
  | _, _, .identifier _ => rfl
  | _, _, .failure _ => rfl
  | _, _, .application hoperator .nil => by
      rw [Expr.display, Expr.display, hoperator.display hloose]
  | _, _, .application hoperator (.cons hargument hrest) => by
      rw [Expr.display, Expr.display, hoperator.display hloose, displayAll, displayAll,
        hargument.display hloose, displayAll_alike hloose hrest]
      all_goals exact List.cons_ne_nil _ _
  | _, _, .lambda h => by rw [Expr.display, Expr.display, displayItems_alike hloose h]
  | _, _, .scope (.scope hframe _) => by
      rw [Expr.display, Expr.display]
      exact hframe.display hloose

theorem displayAll_alike (hloose : ShowsAlike loose) : ∀ {exprs exprs' : List (Expr ν)},
    AllAlike (.renewed loose) place exprs exprs' → displayAll exprs = displayAll exprs'
  | _, _, .nil => rfl
  | _, _, .cons h hrest => by
      rw [displayAll, displayAll, h.display hloose, displayAll_alike hloose hrest]

theorem Item.Alike.display (hloose : ShowsAlike loose) : ∀ {item item' : Item ν},
    item.Alike (.renewed loose) place item' → item.display = item'.display
  | _, _, .binding hname hbound => by
      rw [Item.display, Item.display, hname.display hloose, hbound.display hloose]
  | _, _, .bare h => by rw [Item.display, Item.display, h.display hloose]

theorem displayItems_alike (hloose : ShowsAlike loose) : ∀ {items items' : List (Item ν)},
    List.Forall₂ (Item.Alike (.renewed loose) place) items items' →
    displayItems items = displayItems items'
  | _, _, .nil => rfl
  | _, _, .cons h hrest => by
      rw [displayItems, displayItems, h.display hloose, displayItems_alike hloose hrest]

theorem Frame.Alike.display (hloose : ShowsAlike loose) : ∀ {frame frame' : Frame ν},
    frame.Alike (.renewed loose) place frame' → frame.display = frame'.display
  | _, _, .frame _ .root _ _ => rfl
  | _, _, .frame _ .closure hentries hbody => by
      have hnames := (show Table.Alike (.renewed loose) place ⟨_⟩ ⟨_⟩ from hentries).names
      rw [Frame.display, Frame.display, hnames, hbody.display hloose]
  | _, _, .frame _ (.call harguments) _ hbody => by
      rw [Frame.display, Frame.display, harguments.length_eq, hbody.display hloose]
  | _, _, .frame _ .thunk _ hbody => by rw [Frame.display, Frame.display, hbody.display hloose]

end

end CallByNeed
