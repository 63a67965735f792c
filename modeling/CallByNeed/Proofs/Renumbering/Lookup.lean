import CallByNeed.Expr.Lambda
import CallByNeed.Expr.Scope
import CallByNeed.Proofs.Renumbering.Basic
import CallByNeed.Reduction.Step

/-! # Renumbered frames are read alike

Lookup, the parts of lambdas, the frames that can be made and the text of expressions do not depend
on the numbers of frames: each of them commutes with renumbering.
-/

namespace CallByNeed
set_option autoImplicit false

variable {ν : Type}

/-! ## Tables -/

namespace Table

variable {α β : Type}

theorem findEntry_map (change : α → β) (name : String) (entries : List (String × α)) :
    findEntry name (entries.map fun entry => (entry.1, change entry.2)) =
      (findEntry name entries).map change := by
  induction entries with
  | nil => rfl
  | cons entry rest ih =>
    obtain ⟨other, value⟩ := entry
    simp only [List.map_cons, findEntry]
    by_cases h : name = other
    · rw [if_pos h, if_pos h]
      rfl
    · rw [if_neg h, if_neg h]
      exact ih

theorem find?_map (change : α → β) (table : Table α) (name : String) :
    (table.map change).find? name = (table.find? name).map change :=
  findEntry_map change name table.entries

theorem insertEntry_map (change : α → β) (name : String) (value : α)
    (entries : List (String × α)) :
    insertEntry name (change value) (entries.map fun entry => (entry.1, change entry.2)) =
      (insertEntry name value entries).map fun entry => (entry.1, change entry.2) := by
  induction entries with
  | nil => rfl
  | cons entry rest ih =>
    obtain ⟨other, old⟩ := entry
    simp only [List.map_cons, insertEntry]
    by_cases h : name = other
    · rw [if_pos h, if_pos h]
      rfl
    · rw [if_neg h, if_neg h]
      by_cases hl : name < other
      · rw [if_pos hl, if_pos hl]
        rfl
      · rw [if_neg hl, if_neg hl, ih]
        rfl

theorem insert_map (change : α → β) (table : Table α) (name : String) (value : α) :
    (table.insert name value).map change = (table.map change).insert name (change value) := by
  unfold Table.insert Table.map
  rw [insertEntry_map]

theorem names_map (change : α → β) (table : Table α) : (table.map change).names = table.names := by
  simp [Table.map, names]

/-- Every entry that a lookup finds is in the list of entries. -/
theorem mem_of_find? {table : Table α} {name : String} {value : α}
    (h : table.find? name = some value) : (name, value) ∈ table.entries := by
  obtain ⟨entries⟩ := table
  change findEntry name entries = some value at h
  change (name, value) ∈ entries
  induction entries with
  | nil => cases h
  | cons entry rest ih =>
    obtain ⟨other, old⟩ := entry
    rw [findEntry] at h
    by_cases hname : name = other
    · rw [if_pos hname] at h
      cases h
      rw [hname]
      exact List.mem_cons_self
    · rw [if_neg hname] at h
      exact List.mem_cons_of_mem _ (ih h)

/-- What an insertion adds is the new entry. -/
theorem mem_insert {table : Table α} {name : String} {value : α} {entry : String × α}
    (h : entry ∈ (table.insert name value).entries) :
    entry = (name, value) ∨ entry ∈ table.entries := by
  unfold Table.insert at h
  obtain ⟨entries⟩ := table
  simp only at h ⊢
  induction entries with
  | nil => exact .inl (List.mem_singleton.1 h)
  | cons head rest ih =>
    obtain ⟨other, old⟩ := head
    rw [insertEntry] at h
    by_cases hname : name = other
    · rw [if_pos hname] at h
      rcases List.mem_cons.1 h with hnew | hold
      · exact .inl hnew
      · exact .inr (List.mem_cons_of_mem _ hold)
    · rw [if_neg hname] at h
      by_cases hl : name < other
      · rw [if_pos hl] at h
        exact List.mem_cons.1 h
      · rw [if_neg hl] at h
        rcases List.mem_cons.1 h with hhead | hrest
        · exact .inr (hhead ▸ List.mem_cons_self)
        · rcases ih hrest with hnew | hold
          · exact .inl hnew
          · exact .inr (List.mem_cons_of_mem _ hold)

end Table

/-! ## Frames -/

theorem Frame.renumber_eq (number : Nat → Nat) (frame : Frame ν) :
    frame.renumber number = ⟨number frame.number, frame.role.renumber number,
      frame.bindings.map (Expr.renumber number), frame.body.renumber number⟩ := by
  obtain ⟨old, role, ⟨entries⟩, body⟩ := frame
  rw [Frame.renumber, renumberEntries_eq_map]
  rfl

@[simp] theorem Role.renumber_kind (number : Nat → Nat) (role : Role ν) :
    (role.renumber number).kind = role.kind := by
  cases role <;> rfl

theorem Role.renumber_arguments? (number : Nat → Nat) (role : Role ν) :
    (role.renumber number).arguments? =
      role.arguments?.map (List.map (Expr.renumber number)) := by
  cases role with
  | call arguments =>
    rw [Role.renumber, renumberAll_eq_map]
    rfl
  | root => rfl
  | closure => rfl
  | thunk => rfl

namespace Scope

variable (number : Nat → Nat) (scope : Scope ν)

theorem renumber_frames :
    (scope.renumber number).frames = scope.frames.map (Frame.renumber number) := by
  obtain ⟨frame, outer⟩ := scope
  rw [Scope.renumber, renumberFrames_eq_map]
  rfl

@[simp] theorem renumber_number : (scope.renumber number).number = number scope.number := by
  obtain ⟨frame, outer⟩ := scope
  rw [Scope.renumber, Scope.number, Frame.renumber_eq]
  rfl

@[simp] theorem renumber_kind : (scope.renumber number).kind = scope.kind := by
  obtain ⟨frame, outer⟩ := scope
  rw [Scope.renumber, Scope.kind, Frame.renumber_eq]
  exact Role.renumber_kind number frame.role

@[simp] theorem renumber_body : (scope.renumber number).body = scope.body.renumber number := by
  obtain ⟨frame, outer⟩ := scope
  rw [Scope.renumber, Scope.body, Frame.renumber_eq]
  rfl

theorem renumber_parent? :
    (scope.renumber number).parent? = scope.parent?.map (Scope.renumber number) := by
  obtain ⟨frame, outer⟩ := scope
  rw [Scope.renumber]
  cases outer with
  | nil => rfl
  | cons next outer => rfl

/-! ## Lookup -/

/-- What a lookup found, with other numbers for the frames. -/
def Found.renumber (found : Found ν) : Found ν :=
  (found.1.renumber number, found.2.renumber number)

theorem findBinding_renumber (name : String) (frames : List (Frame ν)) :
    findBinding name (frames.map (Frame.renumber number)) =
      (findBinding name frames).map (Found.renumber number) := by
  induction frames with
  | nil => rfl
  | cons frame outer ih =>
    simp only [List.map_cons, findBinding]
    rw [Frame.renumber_eq, Table.find?_map]
    cases frame.bindings.find? name with
    | none => exact ih
    | some bound =>
      simp only [Option.map_some, Except.map, Found.renumber, Scope.renumber,
        renumberFrames_eq_map, Frame.renumber_eq]

theorem findArgument_renumber (index : Nat) (frames : List (Frame ν)) :
    findArgument index (frames.map (Frame.renumber number)) =
      (findArgument index frames).map (Found.renumber number) := by
  induction frames with
  | nil => rfl
  | cons frame outer ih =>
    simp only [List.map_cons, findArgument]
    rw [Frame.renumber_eq, Role.renumber_arguments?]
    cases frame.role.arguments? with
    | none => exact ih
    | some arguments =>
      simp only [Option.map_some, List.getElem?_map, List.length_map]
      cases arguments[index]? with
      | none => rfl
      | some argument =>
        simp only [Option.map_some, Except.map, Found.renumber, Scope.renumber,
          renumberFrames_eq_map, Frame.renumber_eq]

theorem find_renumber (name : String) :
    (scope.renumber number).find name = (scope.find name).map (Found.renumber number) := by
  unfold find
  rw [renumber_frames]
  cases positional? name with
  | none => exact findBinding_renumber number name scope.frames
  | some index => exact findArgument_renumber number index scope.frames

theorem find_renumber_ok {name : String} {bound : Expr ν} {owner : Scope ν}
    (h : scope.find name = .ok (bound, owner)) :
    (scope.renumber number).find name =
      .ok (bound.renumber number, owner.renumber number) := by
  rw [find_renumber, h]
  rfl

theorem find_renumber_error {name : String} {failure : Failure}
    (h : scope.find name = .error failure) :
    (scope.renumber number).find name = .error failure := by
  rw [find_renumber, h]
  rfl

/-! ## New frames -/

theorem renumber_closure (place : Nat) (bindings : Table (Expr ν)) (body : Expr ν) :
    (closure place bindings body scope).renumber number =
      closure (number place) (bindings.map (Expr.renumber number)) (body.renumber number)
        (scope.renumber number) := by
  unfold closure
  rw [Scope.renumber, Frame.renumber_eq, renumber_frames, renumberFrames_eq_map]
  rfl

theorem renumber_thunk (place : Nat) (deferred : Expr ν) :
    (thunk place deferred scope).renumber number =
      thunk (number place) (deferred.renumber number) (scope.renumber number) := by
  unfold thunk
  rw [Scope.renumber, Frame.renumber_eq, renumber_frames, renumberFrames_eq_map]
  rfl

theorem renumber_call (place : Nat) (arguments : List (Expr ν)) :
    (call place scope arguments).renumber number =
      call (number place) (scope.renumber number) (arguments.map (Expr.renumber number)) := by
  obtain ⟨frame, outer⟩ := scope
  simp only [call, Scope.renumber, Frame.renumber_eq, Role.renumber, renumberAll_eq_map]

end Scope

/-! ## Lambdas -/

namespace Lambda

def Binding.renumber (number : Nat → Nat) (binding : Binding ν) : Binding ν :=
  (binding.1.renumber number, binding.2.renumber number)

def renumberParts (number : Nat → Nat) (parts : List (Binding ν) × Expr ν) :
    List (Binding ν) × Expr ν :=
  (parts.1.map (Binding.renumber number), parts.2.renumber number)

theorem isBare_renumber (number : Nat → Nat) (item : Item ν) :
    isBare (item.renumber number) = isBare item := by
  cases item <;> rfl

theorem split_renumber (number : Nat → Nat) (items : List (Item ν)) :
    split (renumberItems number items) = (split items).map (renumberParts number) := by
  induction items with
  | nil => rfl
  | cons item rest ih =>
    cases item with
    | bare body => cases rest <;> rfl
    | binding name value =>
      simp only [renumberItems, Item.renumber, split]
      rw [ih]
      cases split rest <;> rfl

theorem parts_renumber (number : Nat → Nat) (items : List (Item ν)) :
    parts (renumberItems number items) = (parts items).map (renumberParts number) := by
  have hcount : (renumberItems number items).countP isBare = items.countP isBare := by
    rw [renumberItems_eq_map, List.countP_map]
    congr 1
    funext item
    exact isBare_renumber number item
  unfold parts
  rw [hcount]
  by_cases h : 1 < items.countP isBare
  · simp only [if_pos h]
    rfl
  · simp only [if_neg h]
    exact split_renumber number items

theorem parts_renumber_ok {items : List (Item ν)} {bindings : List (Binding ν)}
    {body : Expr ν} (h : parts items = .ok (bindings, body)) (number : Nat → Nat) :
    parts (renumberItems number items) =
      .ok (bindings.map (Binding.renumber number), body.renumber number) := by
  rw [parts_renumber, h]
  rfl

end Lambda

/-! ## Texts -/

theorem Expr.identifier?_renumber (number : Nat → Nat) (expr : Expr ν) :
    (expr.renumber number).identifier? = expr.identifier? := by
  cases expr <;> rfl

mutual

/-- The text of an expression does not show the numbers of frames. -/
theorem Expr.display_renumber (number : Nat → Nat) : ∀ expr : Expr ν,
    (expr.renumber number).display = expr.display
  | .value it => rfl
  | .native method => rfl
  | .application operator [] => by
      simp only [Expr.renumber, renumberAll, Expr.display]
      rw [operator.display_renumber number]
  | .application operator (argument :: rest) => by
      simp only [Expr.renumber, renumberAll, Expr.display, displayAll]
      rw [operator.display_renumber number, argument.display_renumber number,
        displayAll_renumber number rest]
  | .lambda items => by
      simp only [Expr.renumber, Expr.display]
      rw [displayItems_renumber number items]
  | .identifier name => rfl
  | .failure failure => rfl
  | .scope ⟨frame, outer⟩ => by
      simp only [Expr.renumber, Scope.renumber, Expr.display]
      exact frame.display_renumber number

theorem Frame.display_renumber (number : Nat → Nat) : ∀ frame : Frame ν,
    (frame.renumber number).display = frame.display
  | ⟨_, .root, _, _⟩ => by
      simp only [Frame.renumber, Role.renumber, Frame.display]
  | ⟨_, .closure, ⟨entries⟩, body⟩ => by
      have hnames : Table.names ⟨renumberEntries number entries⟩ = Table.names ⟨entries⟩ := by
        rw [renumberEntries_eq_map]
        exact Table.names_map (Expr.renumber number) ⟨entries⟩
      simp only [Frame.renumber, Role.renumber, Frame.display]
      rw [hnames, body.display_renumber number]
  | ⟨_, .call arguments, _, body⟩ => by
      simp only [Frame.renumber, Role.renumber, Frame.display]
      rw [body.display_renumber number, renumberAll_eq_map, List.length_map]
  | ⟨_, .thunk, _, body⟩ => by
      simp only [Frame.renumber, Role.renumber, Frame.display]
      rw [body.display_renumber number]

theorem displayAll_renumber (number : Nat → Nat) : ∀ exprs : List (Expr ν),
    displayAll (renumberAll number exprs) = displayAll exprs
  | [] => rfl
  | expr :: rest => by
      rw [renumberAll, displayAll, displayAll, expr.display_renumber number,
        displayAll_renumber number rest]

theorem Item.display_renumber (number : Nat → Nat) : ∀ item : Item ν,
    (item.renumber number).display = item.display
  | .binding name value => by
      rw [Item.renumber, Item.display, Item.display, name.display_renumber number,
        value.display_renumber number]
  | .bare body => by
      rw [Item.renumber, Item.display, Item.display, body.display_renumber number]

theorem displayItems_renumber (number : Nat → Nat) : ∀ items : List (Item ν),
    displayItems (renumberItems number items) = displayItems items
  | [] => rfl
  | item :: rest => by
      rw [renumberItems, displayItems, displayItems, item.display_renumber number,
        displayItems_renumber number rest]

end

/-! ## Heads -/

namespace Head

def renumber (number : Nat → Nat) : Head ν → Head ν
  | .terminal result => .terminal result.forget
  | .closure scope => .closure (scope.renumber number)

def scopes : Head ν → List (Scope ν)
  | .terminal _ => []
  | .closure scope => [scope]

theorem scopes_toExpr (head : Head ν) : head.toExpr.scopes = head.scopes := by
  rcases head with (_ | _) | _ <;> rfl

theorem toExpr_renumber (number : Nat → Nat) (head : Head ν) :
    (head.renumber number).toExpr = head.toExpr.renumber number := by
  rcases head with (_ | _) | _ <;> rfl

theorem name?_renumber (number : Nat → Nat) (head : Head ν) :
    (head.renumber number).name? = head.name? := by
  rcases head with (_ | _) | _ <;> rfl

theorem display_renumber (number : Nat → Nat) (head : Head ν) :
    (head.renumber number).toExpr.display = head.toExpr.display := by
  rw [toExpr_renumber, Expr.display_renumber]

end Head
end CallByNeed
