import CallByNeed.Proofs.Printing.Atoms
import CallByNeed.Reduction.Event

/-! # What the texts of records say

The text of a record opens with the words of its kind and then says what the record is of, and no
other record's text opens with these words (`Event.opens_iff_says`). So the records of steps, native
calls, calls, closures and forced closures can be picked out of a log by their texts alone.

Warnings and ignored arguments are of no kind. Their texts open with a quote and with a value.
-/

namespace CallByNeed
set_option autoImplicit false

variable {ν : Type}

theorem Expr.isTerminal_iff (expr : Expr ν) : expr.isTerminal = true ↔
    (∃ value, expr = .value value) ∨ (∃ method, expr = .native method) ∨
      ∃ failure, expr = .failure failure := by
  cases expr <;> simp [isTerminal]

namespace Event

/-! ## Native calls that have returned -/

/-- The two texts of a native call that has returned differ right after the name of the method. -/
theorem resulted_ne_further (name text other : String) :
    "Call to " ++ name ++ " resulted in " ++ text ≠
      "Call to " ++ name ++ " needs further resolution: " ++ other := by
  intro h
  have htexts := congrArg String.toList h
  simp only [String.toList_append, List.append_assoc] at htexts
  have hrest := List.append_cancel_left (List.append_cancel_left htexts)
  cases hrest

section Returned

variable (method : Native ν) {result : Expr ν}

theorem message_resulted (h : result.isTerminal = true) : (returned method result).message =
    "Call to " ++ method.name ++ " resulted in " ++ result.display :=
  if_pos h

theorem message_further (h : ¬result.isTerminal = true) : (returned method result).message =
    "Call to " ++ method.name ++ " needs further resolution: " ++ result.display :=
  if_neg h

theorem message_resulted_iff : (returned method result).message =
    "Call to " ++ method.name ++ " resulted in " ++ result.display ↔ result.isTerminal = true := by
  refine ⟨fun htext => ?_, message_resulted method⟩
  by_contra h
  exact resulted_ne_further _ _ _ (htext.symm.trans (message_further method h))

theorem message_further_iff : (returned method result).message =
    "Call to " ++ method.name ++ " needs further resolution: " ++ result.display ↔
      ¬result.isTerminal = true := by
  refine ⟨fun htext h => ?_, message_further method⟩
  exact resulted_ne_further _ _ _ ((message_resulted method h).symm.trans htext)

end Returned

/-! ## Kinds -/

/-- What records have words of their own for. -/
inductive Kind where
  | step | native | call | closure | forcing | finish
  deriving DecidableEq

def Kind.words : Kind → String
  | .step => "resolve "
  | .native => "Call "
  | .call => "call "
  | .closure => "close over "
  | .forcing => "force closure "
  | .finish => "interpret finished after "

/-- Warnings and ignored arguments are of no kind. -/
def kind? : Event ν → Option Kind
  | .resolving _ => some .step
  | .invoking _ _ _ | .returned _ _ => some .native
  | .calling _ _ => some .call
  | .closing _ _ => some .closure
  | .forcing _ => some .forcing
  | .finished _ => some .finish
  | .argumentsIgnored _ | .rebound _ _ => none

/-- The text of the record opens with these words. -/
def Opens (event : Event ν) (words : String) : Prop :=
  words.toList <+: event.message.toList

variable {event : Event ν} {kind : Kind}

/-- No kind's words are the start of another's. -/
theorem Kind.eq_of_words {kind kind' : Kind} (h : kind.words.toList <+: kind'.words.toList) :
    kind = kind' := by
  revert h
  cases kind <;> cases kind' <;> decide

/-- What the text of a record of a kind says. -/
inductive Says : Kind → Event ν → String → Prop where
  | step (expr : Expr ν) : Says .step (.resolving expr) ("resolve " ++ expr.display)
  | visit (method : Native ν) (arguments : List (Expr ν)) (scope : Scope ν) :
      Says .native (.invoking method arguments scope)
        ("Call " ++ method.name ++ " with " ++ displayArguments arguments)
  | resulted (method : Native ν) {result : Expr ν} (hresult : result.isTerminal = true) :
      Says .native (.returned method result)
        ("Call to " ++ method.name ++ " resulted in " ++ result.display)
  | further (method : Native ν) {result : Expr ν} (hresult : ¬result.isTerminal = true) :
      Says .native (.returned method result)
        ("Call to " ++ method.name ++ " needs further resolution: " ++ result.display)
  | call (body : Expr ν) (arguments : List (Expr ν)) :
      Says .call (.calling body arguments)
        ("call " ++ body.display ++ " with " ++ displayArguments arguments)
  | closure (bindings : Nat) (body : Expr ν) :
      Says .closure (.closing bindings body)
        ("close over " ++ toString bindings ++ " binding(s) with body " ++ body.display)
  | forcing (closure : Scope ν) :
      Says .forcing (.forcing closure) ("force closure " ++ closure.display)
  | finish (steps : Nat) :
      Says .finish (.finished steps) ("interpret finished after " ++ toString steps ++ " steps")

theorem says_of_kind (h : event.kind? = some kind) : Says kind event event.message := by
  cases event with
  | resolving expr =>
    cases h
    exact .step expr
  | closing bindings body =>
    cases h
    exact .closure bindings body
  | calling body arguments =>
    cases h
    exact .call body arguments
  | invoking method arguments scope =>
    cases h
    exact .visit method arguments scope
  | returned method result =>
    cases h
    by_cases hresult : result.isTerminal = true
    · rw [message_resulted method hresult]
      exact .resulted method hresult
    · rw [message_further method hresult]
      exact .further method hresult
  | forcing closure =>
    cases h
    exact .forcing closure
  | finished steps =>
    cases h
    exact .finish steps
  | argumentsIgnored operator => cases h
  | rebound name dropped => cases h

theorem Says.opens {text : String} (h : Says kind event text) :
    kind.words.toList <+: text.toList := by
  have hbegins (words more : String) : words.toList <+: (words ++ more).toList := by
    rw [String.toList_append]
    exact List.prefix_append _ _
  have hwords : "Call ".toList <+: "Call to ".toList := by decide
  cases h with
  | step expr => exact hbegins _ _
  | forcing closure => exact hbegins _ _
  | resulted method _ | further method _ =>
    rw [String.append_assoc, String.append_assoc]
    exact hwords.trans (hbegins _ _)
  | visit method arguments scope =>
    rw [String.append_assoc, String.append_assoc]
    exact hbegins _ _
  | call body arguments =>
    rw [String.append_assoc, String.append_assoc]
    exact hbegins _ _
  | closure bindings body =>
    rw [String.append_assoc, String.append_assoc]
    exact hbegins _ _
  | finish steps =>
    rw [String.append_assoc]
    exact hbegins _ _

/-! ## Texts of no kind -/

/-- The characters that the words of the kinds start with. -/
def Kind.initials : List Char := ['r', 'C', 'c', 'f', 'i']

theorem Kind.words_start (kind : Kind) : ∃ first second rest,
    kind.words.toList = first :: second :: rest ∧ first ∈ initials ∧ second ≠ ' ' := by
  cases kind <;> exact ⟨_, _, _, rfl, by decide, by decide⟩

/-- The text starts like the words of no kind. -/
def StartsApart (text : String) : Prop :=
  ∃ c rest, text.toList = c :: rest ∧ c ∉ Kind.initials

theorem StartsApart.append {text : String} (h : StartsApart text) (more : String) :
    StartsApart (text ++ more) := by
  obtain ⟨c, rest, htext, hc⟩ := h
  refine ⟨c, rest ++ more.toList, ?_, hc⟩
  rw [String.toList_append, htext, List.cons_append]

theorem not_opens_of_startsApart (h : StartsApart event.message) : ¬event.Opens kind.words := by
  intro hopens
  obtain ⟨c, rest, hmessage, hc⟩ := h
  obtain ⟨first, second, tail, hwords, hfirst, -⟩ := kind.words_start
  rw [Opens, hmessage, hwords] at hopens
  obtain ⟨rfl, -⟩ := List.cons_prefix_cons.1 hopens
  exact hc hfirst

/-- The characters of numbers. -/
def IsNumeric (c : Char) : Prop :=
  c.isDigit = true ∨ c = '-' ∨ c = '.'

theorem startsApart_of_numeric {text : String} (hne : text.toList ≠ [])
    (h : ∀ c ∈ text.toList, IsNumeric c) : StartsApart text := by
  have hapart : ∀ c ∈ Kind.initials, ¬IsNumeric c := by simp [Kind.initials, IsNumeric]
  obtain ⟨c, rest, htext⟩ := List.exists_cons_of_ne_nil hne
  have hnumeric : IsNumeric c := h c (htext ▸ List.mem_cons_self)
  exact ⟨c, rest, htext, fun hc => hapart c hc hnumeric⟩

theorem startsApart_integer (value : Int) : StartsApart (toString value) := by
  refine startsApart_of_numeric (Text.integer_ne_nil value) fun c hc => ?_
  rcases Text.isNumeral_of_mem_integer hc with hdigit | hsign
  · exact .inl hdigit
  · exact .inr (.inl hsign)

theorem startsApart_positional (number : Decimal.DecimalNumber) :
    StartsApart number.positional := by
  have hdigits : ∀ c ∈ Nat.toDigits 10 number.digits, IsNumeric c :=
    fun c hc => .inl (Text.isNumeral_of_mem_toDigits hc)
  have hzeros (n : Nat) : ∀ c ∈ List.replicate n '0', IsNumeric c := by
    intro c hc
    rw [(List.mem_replicate.1 hc).2]
    exact .inl rfl
  rw [Decimal.DecimalNumber.positional]
  split
  · refine startsApart_of_numeric ?_ ?_ <;> rw [String.toList_ofList]
    · exact List.append_ne_nil_of_left_ne_nil Nat.toDigits_ne_nil _
    · exact List.forall_mem_append.2 ⟨hdigits, hzeros _⟩
  · have hpadded := List.forall_mem_append.2
      ⟨hzeros ((-number.exponent).toNat + 1 - (Nat.toDigits 10 number.digits).length), hdigits⟩
    refine startsApart_of_numeric ?_ ?_ <;> rw [String.toList_ofList]
    · exact List.append_ne_nil_of_right_ne_nil _ (List.cons_ne_nil _ _)
    · refine List.forall_mem_append.2 ⟨fun c hc => hpadded c (List.mem_of_mem_take hc), ?_⟩
      exact List.forall_mem_cons.2 ⟨.inr (.inr rfl), fun c hc => hpadded c (List.mem_of_mem_drop hc)⟩

theorem startsApart_number (number : Decimal.BinaryNumber) :
    StartsApart number.text ∨ number.text = "inf" := by
  have hminus : StartsApart "-" := ⟨'-', [], rfl, by decide⟩
  cases number with
  | nan => exact .inl ⟨'N', ['a', 'N'], rfl, by decide⟩
  | infinite negative =>
    cases negative with
    | true => exact .inl ⟨'-', ['i', 'n', 'f'], rfl, by decide⟩
    | false => exact .inr rfl
  | finite negative significand exponent closeBelow =>
    rw [Decimal.BinaryNumber.text]
    cases negative with
    | true => exact .inl (hminus.append _)
    | false =>
      by_cases hzero : significand = 0
      · simp only [Bool.false_eq_true, if_false, if_pos hzero]
        exact .inl ⟨'0', [], rfl, by decide⟩
      · simp only [Bool.false_eq_true, if_false, if_neg hzero]
        exact .inl (startsApart_positional _)

/-- The text of a value starts like the words of no kind, or it is one of two words or a single
character. -/
theorem startsApart_value (value : Value ν) : StartsApart value.display ∨
    value.display = "false" ∨ value.display = "inf" ∨ ∃ c, value.display.toList = [c] := by
  have hhash : StartsApart "#<" := ⟨'#', ['<'], rfl, by decide⟩
  have hnative : StartsApart "#<native " := ⟨'#', _, rfl, by decide⟩
  obtain ⟨identity, payload⟩ := value
  rw [Value.display]
  cases payload with
  | text text | constantText text => exact .inl ⟨'"', _, Text.toList_quoted text, by decide⟩
  | integer type value =>
    rw [Payload.display]
    by_cases hprinted : type.isPrinted = true
    · rw [if_pos hprinted]
      exact .inl (startsApart_integer value)
    · rw [if_neg hprinted]
      exact .inl ((hhash.append _).append _)
  | float64 bits | float32 bits =>
    rcases startsApart_number _ with h | h
    · exact .inl h
    · exact .inr (.inr (.inl h))
  | bool value =>
    rw [Payload.display]
    cases value with
    | true => exact .inl ⟨'t', ['r', 'u', 'e'], rfl, by decide⟩
    | false => exact .inr (.inl rfl)
  | char c =>
    refine .inr (.inr (.inr ⟨c, ?_⟩))
    rw [Payload.display, Char.toString_eq_singleton, String.toList_singleton]
  | native method => exact .inl ((hnative.append _).append _)
  | unit | pair _ _ | integers _ | someText _ => exact .inl ((hhash.append _).append _)

theorem not_opens_of_no_kind (h : event.kind? = none) : ¬event.Opens kind.words := by
  cases event with
  | rebound name dropped =>
    have hquote : StartsApart "'" := ⟨'\'', [], rfl, by decide⟩
    exact not_opens_of_startsApart (((hquote.append _).append _).append _)
  | argumentsIgnored operator =>
    have htext : (argumentsIgnored operator).message =
      operator.display ++ " used as an operator, arguments ignored" := rfl
    rcases startsApart_value operator with happart | hfalse | hinf | ⟨c, hchar⟩
    · exact not_opens_of_startsApart (htext ▸ happart.append _)
    · rw [Opens, htext, hfalse]
      cases kind <;> decide
    · rw [Opens, htext, hinf]
      cases kind <;> decide
    · -- A blank follows the character, and no kind's words have one there.
      obtain ⟨first, second, rest, hwords, -, hsecond⟩ := kind.words_start
      rw [Opens, htext, String.toList_append, hchar, hwords]
      intro hopens
      exact hsecond (List.cons_prefix_cons.1 (List.cons_prefix_cons.1 hopens).2).1
  | _ => cases h

/-! ## Texts and kinds -/

/-- A text opens with the words of a kind exactly if the record is of that kind, and then it says
what a record of the kind is to say. -/
theorem opens_iff_says (event : Event ν) (kind : Kind) :
    event.Opens kind.words ↔ Says kind event event.message := by
  refine ⟨fun hopens => ?_, Says.opens⟩
  cases hkind : event.kind? with
  | none => exact absurd hopens (not_opens_of_no_kind hkind)
  | some other =>
    have hsays := says_of_kind hkind
    have hsame : kind = other := by
      rcases List.prefix_or_prefix_of_prefix hopens hsays.opens with hbegins | hbegins
      · exact Kind.eq_of_words hbegins
      · exact (Kind.eq_of_words hbegins).symm
    rw [hsame]
    exact hsays

end Event
end CallByNeed
