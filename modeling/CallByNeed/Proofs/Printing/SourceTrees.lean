import CallByNeed.Proofs.Likeness.Basic
import CallByNeed.Proofs.Printing.Atoms

/-! # Source trees are read back from their text

A source tree consists of applications, lambdas, integers, texts and words (`Expr.IsSource`). The
lambdas may list any items. The first character of its text tells the form of a source tree
(`Expr.IsSource.form_eq`). From there each part can be read in one way only (`Script.Reads`), as
what follows a part never continues it: the parts of a list are read one by one up to the bracket
that closes it (`Script.reads_all`). So source trees with the same text are the same
(`Expr.display_injective`).
-/

namespace CallByNeed
set_option autoImplicit false

variable {ν α : Type}

/-! ## Source trees -/

def delimiters : List Char :=
  [' ', ')', '\x7d', ',', ':']

/-- What stands after an expression, unless the text ends there. -/
def IsDelimiter (c : Char) : Prop :=
  c ∈ delimiters

instance (c : Char) : Decidable (IsDelimiter c) :=
  inferInstanceAs (Decidable (c ∈ _))

/-- What stands after an item. -/
def IsItemEnd (c : Char) : Prop :=
  c = ',' ∨ c = '\x7d'

instance (c : Char) : Decidable (IsItemEnd c) :=
  inferInstanceAs (Decidable (_ ∨ _))

theorem IsItemEnd.isDelimiter {c : Char} (h : IsItemEnd c) : IsDelimiter c := by
  rcases h with rfl | rfl <;> decide

/-- What starts an expression that is not an atom, or a text. -/
def IsOpening (c : Char) : Prop :=
  c ∈ ['(', '\x7b', '"']

instance (c : Char) : Decidable (IsOpening c) :=
  inferInstanceAs (Decidable (c ∈ _))

/-- A name that is read as one word, and not as a number or a text. It may hold white space other
than the space character. -/
structure IsWord (name : String) : Prop where
  nonempty : name.toList ≠ []
  head : ∀ c ∈ name.toList.head?, ¬Text.IsNumeral c
  chars : ∀ c ∈ name.toList, ¬IsOpening c ∧ ¬IsDelimiter c

instance (name : String) : Decidable (IsWord name) :=
  decidable_of_iff
    (name.toList.isEmpty = false ∧
      (name.toList.head?.all fun c => !decide (Text.IsNumeral c)) = true ∧
      (name.toList.all fun c => !decide (IsOpening c) && !decide (IsDelimiter c)) = true)
    ⟨fun ⟨hnonempty, hhead, hchars⟩ =>
        ⟨by simpa using hnonempty, by simpa [Option.all_eq_true] using hhead,
          by simpa using hchars⟩,
      fun h => ⟨by simpa using h.nonempty, by simpa [Option.all_eq_true] using h.head,
        by simpa using h.chars⟩⟩

mutual

/-- Expressions that are written as they are: no native methods, failures or scopes occur in them,
and no values but 64 bit integers and texts. -/
inductive Expr.IsSource : Expr ν → Prop where
  | integer (identity : Identity) (value : Int) :
      Expr.IsSource (.value ⟨identity, .integer .i64 value⟩)
  | text (identity : Identity) (text : String) : Expr.IsSource (.value ⟨identity, .text text⟩)
  | identifier {name : String} (h : IsWord name) : Expr.IsSource (.identifier name)
  | application {operator : Expr ν} {arguments : List (Expr ν)} (hoperator : operator.IsSource)
      (harguments : ∀ argument ∈ arguments, argument.IsSource) :
      Expr.IsSource (.application operator arguments)
  | lambda {items : List (Item ν)} (h : ∀ item ∈ items, item.IsSource) :
      Expr.IsSource (.lambda items)

inductive Item.IsSource : Item ν → Prop where
  | binding {name bound : Expr ν} (hname : name.IsSource) (hbound : bound.IsSource) :
      Item.IsSource (.binding name bound)
  | bare {body : Expr ν} (h : body.IsSource) : Item.IsSource (.bare body)

end

/-- Values are related if they have the same payload, and nothing is loose. -/
def Likeness.payloads (ν : Type) : Likeness ν :=
  ⟨fun value value' => value.payload = value'.payload, fun _ _ => False⟩

/-- The same expression, but for the identities of values. -/
abbrev Expr.Same : Expr ν → Expr ν → Prop :=
  Expr.Alike (.payloads ν) Eq

abbrev Item.Same : Item ν → Item ν → Prop :=
  Item.Alike (.payloads ν) Eq

/-! ## Reading -/

/-- A way to write things, with the characters that may follow what is written. -/
structure Script (α : Type) where
  write : α → List Char
  ends : Char → Prop
  proper : α → Prop
  same : α → α → Prop

namespace Script

/-- What is written for the thing is written for nothing else, and it is clear where it ends. -/
def Reads (script : Script α) (thing : α) : Prop :=
  ∀ other rest rest', script.proper other →
    Text.GoesOn script.ends rest → Text.GoesOn script.ends rest' →
    script.write thing ++ rest = script.write other ++ rest' →
      script.same thing other ∧ rest = rest'

/-- A list goes on with a separator or with its end. -/
theorem goesOn_all {ends : Char → Prop} {separator last : Char} (hseparator : ends separator)
    (hlast : ends last) (things : List α) (text : α → List Char) (rest : List Char) :
    Text.GoesOn ends (things.flatMap (fun thing => separator :: text thing) ++ last :: rest) := by
  cases things with
  | nil =>
    rintro c ⟨⟩
    exact hlast
  | cons thing things =>
    rintro c ⟨⟩
    exact hseparator

/-- The things of a list are read one by one, each after its separator, up to the end of the
list. -/
theorem reads_all (script : Script α) (space : List Char) {separator last : Char}
    (hseparator : script.ends separator) (hlast : script.ends last) (hne : separator ≠ last)
    {things others : List α} (hthings : ∀ thing ∈ things, script.Reads thing)
    (hothers : ∀ other ∈ others, script.proper other) {rest rest' : List Char}
    (h : things.flatMap (fun thing => separator :: (space ++ script.write thing)) ++ last :: rest =
      others.flatMap (fun other => separator :: (space ++ script.write other)) ++ last :: rest') :
    List.Forall₂ script.same things others ∧ rest = rest' := by
  induction things generalizing others with
  | nil =>
    cases others with
    | nil => exact ⟨.nil, (List.cons.inj h).2⟩
    | cons other others => exact absurd (List.cons.inj h).1.symm hne
  | cons thing things ih =>
    cases others with
    | nil => exact absurd (List.cons.inj h).1 hne
    | cons other others =>
      obtain ⟨hthing, hthings⟩ := List.forall_mem_cons.1 hthings
      obtain ⟨hother, hothers⟩ := List.forall_mem_cons.1 hothers
      simp only [List.flatMap_cons, List.cons_append, List.append_assoc, List.cons.injEq,
        List.append_cancel_left_eq, true_and] at h
      have hends := @goesOn_all α _ _ _ hseparator hlast
      obtain ⟨hsame, hrest⟩ := hthing other _ _ hother (hends things _ rest) (hends others _ rest') h
      obtain ⟨hall, hrests⟩ := ih hthings hothers hrest
      exact ⟨.cons hsame hall, hrests⟩

end Script

/-- Expressions as they are displayed. -/
def Expr.script : Script (Expr ν) :=
  ⟨fun expr => expr.display.toList, IsDelimiter, Expr.IsSource, Expr.Same⟩

/-- Items as they are displayed. -/
def Item.script : Script (Item ν) :=
  ⟨fun item => item.display.toList, IsItemEnd, Item.IsSource, Item.Same⟩

/-! ## The characters of an expression -/

theorem displayAll_eq_map (exprs : List (Expr ν)) : displayAll exprs = exprs.map Expr.display := by
  induction exprs with
  | nil => rfl
  | cons expr rest ih => rw [displayAll, ih, List.map_cons]

theorem displayItems_eq_map (items : List (Item ν)) :
    displayItems items = items.map Item.display := by
  induction items with
  | nil => rfl
  | cons item rest ih => rw [displayItems, ih, List.map_cons]

theorem intercalate_cons (separator first : List α) (rest : List (List α)) :
    separator.intercalate (first :: rest) = first ++ rest.flatMap (separator ++ ·) := by
  induction rest generalizing first with
  | nil => rw [List.intercalate_singleton, List.flatMap_nil, List.append_nil]
  | cons next rest ih =>
    rw [List.intercalate_cons_cons, ih, List.flatMap_cons, List.append_assoc, List.append_assoc]

theorem display_integer (identity : Identity) (value : Int) :
    (Expr.value ⟨identity, .integer .i64 value⟩ : Expr ν).display = toString value := by
  rw [Expr.display, Value.display, Payload.display]
  rfl

theorem display_text (identity : Identity) (text : String) :
    (Expr.value ⟨identity, .text text⟩ : Expr ν).display = Text.quoted text := by
  rw [Expr.display, Value.display, Payload.display]

theorem display_identifier (name : String) : (Expr.identifier name : Expr ν).display = name := by
  rw [Expr.display]

theorem toList_application (operator : Expr ν) (arguments : List (Expr ν)) :
    (Expr.application operator arguments).display.toList =
      '(' :: (operator.display.toList ++
        (arguments.flatMap (fun argument => ' ' :: argument.display.toList) ++ [')'])) := by
  cases arguments with
  | nil =>
    rw [Expr.display, String.toList_append, String.toList_append]
    rfl
  | cons argument rest =>
    simp only [Expr.display, String.toList_append, String.toList_intercalate, displayAll_eq_map,
      List.map_cons, intercalate_cons, List.flatMap_cons, List.flatMap_map, List.map_map,
      List.append_assoc, List.cons_append]
    rfl

theorem toList_noItems : (Expr.lambda ([] : List (Item ν))).display.toList = ['\x7b', '\x7d'] := by
  rw [Expr.display, displayItems, String.intercalate_nil, String.toList_append,
    String.toList_append]
  rfl

theorem toList_items (item : Item ν) (rest : List (Item ν)) :
    (Expr.lambda (item :: rest)).display.toList =
      '\x7b' :: (item.display.toList ++
        (rest.flatMap (fun item => ',' :: ' ' :: item.display.toList) ++ ['\x7d'])) := by
  simp only [Expr.display, String.toList_append, String.toList_intercalate, displayItems_eq_map,
    List.map_cons, intercalate_cons, List.flatMap_map, List.map_map, List.append_assoc]
  rfl

theorem toList_lambda (items : List (Item ν)) :
    ∃ rest, (Expr.lambda items).display.toList = '\x7b' :: rest := by
  cases items with
  | nil => exact ⟨_, toList_noItems⟩
  | cons item rest => exact ⟨_, toList_items item rest⟩

theorem toList_binding (name bound : Expr ν) :
    (Item.binding name bound).display.toList =
      name.display.toList ++ ':' :: ' ' :: bound.display.toList := by
  rw [Item.display, String.toList_append, String.toList_append, List.append_assoc]
  rfl

/-! ## Forms -/

/-- What a source tree is, by the first character of its text. -/
inductive Form where
  | application | lambda | text | integer | word

def Form.ofHead (c : Char) : Form :=
  if c = '(' then .application
  else if c = '\x7b' then .lambda
  else if c = '"' then .text
  else if c.isDigit || c == '-' then .integer
  else .word

def Expr.form : Expr ν → Form
  | .application _ _ => .application
  | .lambda _ => .lambda
  | .value ⟨_, .text _⟩ => .text
  | .value ⟨_, _⟩ => .integer
  | .native _ | .identifier _ | .failure _ | .scope _ => .word

theorem Form.ofHead_numeral {c : Char} (h : Text.IsNumeral c) : Form.ofHead c = .integer := by
  have hne : c ≠ '(' ∧ c ≠ '\x7b' ∧ c ≠ '"' := by
    refine ⟨?_, ?_, ?_⟩ <;> rintro rfl <;> exact absurd h (by decide)
  have hnumeral : (c.isDigit || c == '-') = true := by
    simpa [Text.IsNumeral] using h
  rw [ofHead, if_neg hne.1, if_neg hne.2.1, if_neg hne.2.2, if_pos hnumeral]

theorem Form.ofHead_word {c : Char} (h : ¬Text.IsNumeral c) (hc : ¬IsOpening c) :
    Form.ofHead c = .word := by
  have hnumeral : ¬(c.isDigit || c == '-') = true := by
    simpa [Text.IsNumeral] using h
  rw [ofHead, if_neg, if_neg, if_neg, if_neg hnumeral]
  all_goals
    rintro rfl
    exact hc (by decide)

theorem not_isDelimiter_numeral {c : Char} (h : Text.IsNumeral c) : ¬IsDelimiter c := by
  intro hc
  have hall : (delimiters.all fun c => !decide (Text.IsNumeral c)) = true := by decide
  have hnumeral := List.all_eq_true.1 hall c hc
  rw [decide_eq_true h] at hnumeral
  cases hnumeral

/-- The first character tells the form, and it does not end anything. -/
theorem Expr.IsSource.head {expr : Expr ν} (h : expr.IsSource) :
    ∃ c rest, expr.display.toList = c :: rest ∧ Form.ofHead c = expr.form ∧ ¬IsDelimiter c := by
  cases h with
  | integer identity value =>
    obtain ⟨c, rest, hchars⟩ := List.exists_cons_of_ne_nil (Text.integer_ne_nil value)
    have hc : Text.IsNumeral c := Text.isNumeral_of_mem_integer (hchars ▸ List.mem_cons_self)
    rw [display_integer, hchars]
    exact ⟨c, rest, rfl, Form.ofHead_numeral hc, not_isDelimiter_numeral hc⟩
  | text identity text =>
    rw [display_text, Text.toList_quoted]
    exact ⟨'"', _, rfl, rfl, by decide⟩
  | @identifier name hname =>
    obtain ⟨c, rest, hchars⟩ := List.exists_cons_of_ne_nil hname.nonempty
    have hc : c ∈ name.toList := hchars ▸ List.mem_cons_self
    have hhead : ¬Text.IsNumeral c := hname.head c (by rw [hchars]; rfl)
    rw [display_identifier, hchars]
    exact ⟨c, rest, rfl, Form.ofHead_word hhead (hname.chars c hc).1, (hname.chars c hc).2⟩
  | application =>
    rw [toList_application]
    exact ⟨'(', _, rfl, rfl, by decide⟩
  | @lambda items =>
    obtain ⟨rest, hchars⟩ := toList_lambda items
    rw [hchars]
    exact ⟨'\x7b', rest, rfl, rfl, by decide⟩

/-- Texts of source trees that agree up to what follows are of the same form. -/
theorem Expr.IsSource.form_eq {expr expr' : Expr ν} (h : expr.IsSource) (h' : expr'.IsSource)
    {rest rest' : List Char}
    (heq : Expr.script.write expr ++ rest = Expr.script.write expr' ++ rest') :
    expr.form = expr'.form := by
  obtain ⟨c, tail, hchars, hform, -⟩ := h.head
  obtain ⟨c', tail', hchars', hform', -⟩ := h'.head
  simp only [Expr.script, hchars, hchars'] at heq
  rw [← hform, ← hform', (List.cons.inj heq).1]

theorem Item.IsSource.head {item : Item ν} (h : item.IsSource) :
    ∃ c rest, item.display.toList = c :: rest ∧ ¬IsDelimiter c := by
  cases h with
  | bare hbody =>
    obtain ⟨c, rest, hchars, -, hc⟩ := hbody.head
    exact ⟨c, rest, hchars, hc⟩
  | binding hname hbound =>
    obtain ⟨c, rest, hchars, -, hc⟩ := hname.head
    rw [toList_binding, hchars]
    exact ⟨c, _, rfl, hc⟩

/-! ## Reading by form -/

namespace Expr

theorem reads_integer (identity : Identity) (value : Int) :
    script.Reads (.value ⟨identity, .integer .i64 value⟩ : Expr ν) := by
  intro other rest rest' hother hrest hrest' h
  have hform := (IsSource.integer identity value).form_eq hother h
  cases hother with
  | integer identity' value' =>
    simp only [script, display_integer] at h
    have hrun (value : Int) : ∀ c ∈ (toString value).toList, ¬IsDelimiter c := fun c hc =>
      not_isDelimiter_numeral (Text.isNumeral_of_mem_integer hc)
    obtain ⟨hvalue, hrests⟩ := Text.run_unique (hrun value) (hrun value') hrest hrest' h
    cases Text.integer_inj hvalue
    exact ⟨.value rfl, hrests⟩
  | text | identifier | application | lambda => cases hform

theorem reads_text (identity : Identity) (text : String) :
    script.Reads (.value ⟨identity, .text text⟩ : Expr ν) := by
  intro other rest rest' hother hrest hrest' h
  have hform := (IsSource.text identity text).form_eq hother h
  cases hother with
  | text identity' text' =>
    simp only [script, display_text] at h
    obtain ⟨rfl, hrests⟩ := Text.quoted_unique h
    exact ⟨.value rfl, hrests⟩
  | integer | identifier | application | lambda => cases hform

theorem reads_identifier {name : String} (hname : IsWord name) :
    script.Reads (.identifier name : Expr ν) := by
  intro other rest rest' hother hrest hrest' h
  have hform := (IsSource.identifier hname).form_eq hother h
  cases hother with
  | identifier hname' =>
    simp only [script, display_identifier] at h
    obtain ⟨hchars, hrests⟩ := Text.run_unique (fun c hc => (hname.chars c hc).2)
      (fun c hc => (hname'.chars c hc).2) hrest hrest' h
    cases String.toList_inj.1 hchars
    exact ⟨.identifier name, hrests⟩
  | integer | text | application | lambda => cases hform

theorem reads_application {operator : Expr ν} {arguments : List (Expr ν)}
    (hsource : (Expr.application operator arguments).IsSource) (hoperator : script.Reads operator)
    (harguments : ∀ argument ∈ arguments, script.Reads argument) :
    script.Reads (.application operator arguments) := by
  intro other rest rest' hother hrest hrest' h
  have hform := hsource.form_eq hother h
  cases hother with
  | @application operator' arguments' hoperator' harguments' =>
    simp only [script, toList_application, List.cons_append, List.append_assoc, List.cons.injEq,
      true_and, List.nil_append] at h
    have hspace : IsDelimiter ' ' := by decide
    have hclose : IsDelimiter ')' := by decide
    have hends := @Script.goesOn_all (Expr ν) _ _ _ hspace hclose
    obtain ⟨hsame, htail⟩ := hoperator _ _ _ hoperator' (hends _ _ _) (hends _ _ _) h
    obtain ⟨hall, hrests⟩ := Script.reads_all script [] hspace hclose (by decide) harguments
      harguments' htail
    exact ⟨.application hsame hall, hrests⟩
  | integer | text | identifier | lambda => cases hform

theorem reads_lambda {items : List (Item ν)} (hsource : (Expr.lambda items).IsSource)
    (hitems : ∀ item ∈ items, Item.script.Reads item) : script.Reads (.lambda items) := by
  intro other rest rest' hother hrest hrest' h
  have hform := hsource.form_eq hother h
  cases hother with
  | @lambda items' hitems' =>
    have hfirst {item : Item ν} {rest rest' : List Char} (hitem : item.IsSource) :
        item.display.toList ++ rest ≠ '\x7d' :: rest' := by
      obtain ⟨c, tail, hchars, hc⟩ := hitem.head
      rw [hchars]
      intro hclose
      exact hc (by rw [(List.cons.inj hclose).1]; unfold IsDelimiter; decide)
    have hcomma : IsItemEnd ',' := .inl rfl
    have hclose : IsItemEnd '\x7d' := .inr rfl
    have hends := @Script.goesOn_all (Item ν) _ _ _ hcomma hclose
    cases items with
    | nil =>
      cases items' with
      | nil =>
        simp only [script, List.append_cancel_left_eq] at h
        exact ⟨.lambda .nil, h⟩
      | cons item' items' =>
        simp only [script, toList_noItems, toList_items, List.cons_append, List.append_assoc,
          List.cons.injEq, true_and] at h
        exact absurd h.symm (hfirst (hitems' item' List.mem_cons_self))
    | cons item items =>
      cases items' with
      | nil =>
        cases hsource with
        | lambda hsources =>
          simp only [script, toList_noItems, toList_items, List.cons_append, List.append_assoc,
            List.cons.injEq, true_and] at h
          exact absurd h (hfirst (hsources item List.mem_cons_self))
      | cons item' items' =>
        simp only [script, toList_items, List.cons_append, List.append_assoc, List.cons.injEq,
          true_and, List.nil_append] at h
        obtain ⟨hitem, hitems⟩ := List.forall_mem_cons.1 hitems
        obtain ⟨hitem', hitems'⟩ := List.forall_mem_cons.1 hitems'
        obtain ⟨hsame, htail⟩ := hitem item' _ _ hitem' (hends _ _ _) (hends _ _ _) h
        obtain ⟨hall, hrests⟩ := Script.reads_all Item.script [' '] hcomma hclose (by decide) hitems
          hitems' htail
        exact ⟨.lambda (.cons hsame hall), hrests⟩
  | integer | text | identifier | application => cases hform

end Expr

namespace Item

theorem goesOn_delimiter {rest : List Char} (h : Text.GoesOn IsItemEnd rest) :
    Text.GoesOn IsDelimiter rest :=
  fun c hc => (h c hc).isDelimiter

theorem goesOn_colon (rest : List Char) : Text.GoesOn IsDelimiter (':' :: rest) := by
  rintro c ⟨⟩
  decide

/-- An item does not end before a colon. -/
theorem not_goesOn_colon {rest : List Char} : ¬Text.GoesOn IsItemEnd (':' :: rest) := fun h =>
  absurd (h ':' rfl) (by decide)

theorem reads_bare {body : Expr ν} (hbody : Expr.script.Reads body) :
    script.Reads (.bare body) := by
  intro other rest rest' hother hrest hrest' h
  have hends := goesOn_delimiter hrest
  cases hother with
  | bare hbody' =>
    obtain ⟨hsame, hrests⟩ := hbody _ _ _ hbody' hends (goesOn_delimiter hrest') h
    exact ⟨.bare hsame, hrests⟩
  | binding hname' hbound' =>
    simp only [script, toList_binding, List.append_assoc, List.cons_append] at h
    obtain ⟨-, rfl⟩ := hbody _ _ _ hname' hends (goesOn_colon _) h
    exact absurd hrest not_goesOn_colon

theorem reads_binding {name bound : Expr ν} (hname : Expr.script.Reads name)
    (hbound : Expr.script.Reads bound) : script.Reads (.binding name bound) := by
  intro other rest rest' hother hrest hrest' h
  have hends := goesOn_delimiter hrest
  simp only [script, toList_binding, List.append_assoc, List.cons_append] at h
  cases hother with
  | bare hbody' =>
    obtain ⟨-, rfl⟩ := hname _ _ _ hbody' (goesOn_colon _) (goesOn_delimiter hrest') h
    exact absurd hrest' not_goesOn_colon
  | binding hname' hbound' =>
    simp only [toList_binding, List.append_assoc, List.cons_append] at h
    obtain ⟨hsame, htail⟩ := hname _ _ _ hname' (goesOn_colon _) (goesOn_colon _) h
    simp only [List.cons.injEq, true_and] at htail
    obtain ⟨hsame', hrests⟩ := hbound _ _ _ hbound' hends (goesOn_delimiter hrest') htail
    exact ⟨.binding hsame hsame', hrests⟩

end Item

/-! ## All source trees -/

mutual

theorem Expr.IsSource.reads : ∀ {expr : Expr ν}, expr.IsSource → Expr.script.Reads expr
  | _, .integer identity value => Expr.reads_integer identity value
  | _, .text identity text => Expr.reads_text identity text
  | _, .identifier h => Expr.reads_identifier h
  | _, .application hoperator harguments =>
      Expr.reads_application (.application hoperator harguments) hoperator.reads
        fun argument hm => (harguments argument hm).reads
  | _, .lambda h => Expr.reads_lambda (.lambda h) fun item hm => (h item hm).reads

theorem Item.IsSource.reads : ∀ {item : Item ν}, item.IsSource → Item.script.Reads item
  | _, .binding hname hbound => Item.reads_binding hname.reads hbound.reads
  | _, .bare h => Item.reads_bare h.reads

end

/-- Source trees with the same text are the same. -/
theorem Expr.display_injective {expr expr' : Expr ν} (h : expr.IsSource) (h' : expr'.IsSource)
    (heq : expr.display = expr'.display) : expr.Same expr' := by
  have hend : Text.GoesOn IsDelimiter [] := nofun
  refine (h.reads expr' [] [] h' hend hend ?_).1
  show expr.display.toList ++ [] = expr'.display.toList ++ []
  rw [heq]

/-- A lambda with an item after its return expression, over values of this identity. -/
def Expr.tangled (identity : Identity) : Expr Unit :=
  .lambda [.binding (.identifier "x") (.value ⟨identity, .text "a, b\x7d"⟩),
    .bare (.application (.identifier "f") [.value ⟨identity, .integer .i64 (-3)⟩]),
    .binding (.application (.identifier "g") []) (.lambda [])]

theorem Expr.display_injective_tangled :
    (tangled (.supplied 0)).display = "\x7bx: \"a, b\x7d\", (f -3), (g): \x7b\x7d\x7d" ∧
      (tangled (.supplied 0)).Same (tangled (.built 1)) := by
  have hx : IsWord "x" := by decide +kernel
  have hf : IsWord "f" := by decide +kernel
  have hg : IsWord "g" := by decide +kernel
  have hsource (identity : Identity) : (tangled identity).IsSource := by
    refine .lambda (List.forall_mem_cons.2 ⟨.binding (.identifier hx) (.text _ _),
      List.forall_mem_cons.2 ⟨.bare (.application (.identifier hf) ?_),
        List.forall_mem_cons.2 ⟨.binding (.application (.identifier hg) nofun) (.lambda nofun),
          nofun⟩⟩⟩)
    exact List.forall_mem_singleton.2 (.integer _ _)
  exact ⟨by decide +kernel, display_injective (hsource _) (hsource _) (by decide +kernel)⟩

end CallByNeed
