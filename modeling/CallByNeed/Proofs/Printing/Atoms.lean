import CallByNeed.Expr.Display
import Mathlib.Data.String.Basic

/-! # Reading atoms back

The text of a number or of a word is a run: it goes on up to the first character that cannot be in
it, so there is one way to read it (`Text.run_unique`). Digits determine their number
(`Text.toDigits_inj`). A quoted text ends at the first quote without a backslash before it, and no
escape is the start of another one (`Text.quoted_unique`).
-/

namespace CallByNeed.Text
set_option autoImplicit false

/-! ## Runs -/

/-- The text is at its end, or it goes on with such a character. -/
def GoesOn (stop : Char → Prop) (rest : List Char) : Prop :=
  ∀ c ∈ rest.head?, stop c

/-- A run of characters that do not stop it is read as far as it goes. -/
theorem run_unique {stop : Char → Prop} {run run' rest rest' : List Char}
    (hrun : ∀ c ∈ run, ¬stop c) (hrun' : ∀ c ∈ run', ¬stop c)
    (hrest : GoesOn stop rest) (hrest' : GoesOn stop rest')
    (h : run ++ rest = run' ++ rest') : run = run' ∧ rest = rest' := by
  induction run generalizing run' with
  | nil =>
    cases run' with
    | nil => exact ⟨rfl, h⟩
    | cons c run' =>
      obtain rfl : rest = c :: (run' ++ rest') := h
      exact absurd (hrest c rfl) (hrun' c List.mem_cons_self)
  | cons c run ih =>
    cases run' with
    | nil =>
      obtain rfl : c :: (run ++ rest) = rest' := h
      exact absurd (hrest' c rfl) (hrun c List.mem_cons_self)
    | cons c' run' =>
      obtain ⟨rfl, htail⟩ := List.cons.inj h
      have hruns := ih (List.forall_mem_cons.1 hrun).2 (List.forall_mem_cons.1 hrun').2 htail
      exact ⟨congrArg _ hruns.1, hruns.2⟩

/-! ## Digits -/

theorem digitChar_inj {m n : Nat} (hm : m < 16) (hn : n < 16) (h : m.digitChar = n.digitChar) :
    m = n := by
  have hall : ∀ m < 16, ∀ n < 16, Nat.digitChar m = Nat.digitChar n → m = n := by decide
  exact hall m hm n hn h

section Digits

variable {base : Nat} (hbase : 1 < base)
include hbase

/-- All digits but the last one are those of the quotient. -/
theorem toDigits_eq_append {n : Nat} (h : base ≤ n) :
    Nat.toDigits base n = Nat.toDigits base (n / base) ++ [(n % base).digitChar] :=
  Nat.toDigits_of_base_le hbase h

theorem mem_toDigits {n : Nat} {c : Char} (h : c ∈ Nat.toDigits base n) :
    ∃ digit < base, c = digit.digitChar := by
  induction n using Nat.base_induction base hbase with
  | single n hn =>
    rw [Nat.toDigits_of_lt_base hn, List.mem_singleton] at h
    exact ⟨n, hn, h⟩
  | digit n last hlast hn ih =>
    rw [← Nat.toDigits_append_toDigits hbase hn hlast, Nat.toDigits_of_lt_base hlast] at h
    rcases List.mem_append.1 h with h | h
    · exact ih h
    · exact ⟨last, hlast, List.mem_singleton.1 h⟩

/-- Up to base sixteen, digits determine their number. -/
theorem toDigits_inj (hsixteen : base ≤ 16) {m n : Nat}
    (h : Nat.toDigits base m = Nat.toDigits base n) : m = n := by
  have hpos : 0 < base := by omega
  induction m using Nat.base_induction base hbase generalizing n with
  | single m hm =>
    rw [Nat.toDigits_of_lt_base hm] at h
    rcases Nat.lt_or_ge n base with hn | hn
    · rw [Nat.toDigits_of_lt_base hn] at h
      exact digitChar_inj (by omega) (by omega) (List.singleton_inj.1 h)
    · rw [toDigits_eq_append hbase hn] at h
      obtain ⟨hempty, -⟩ := List.append_inj' (show [] ++ [m.digitChar] = _ from h) rfl
      exact absurd hempty.symm Nat.toDigits_ne_nil
  | digit m last hlast hm ih =>
    rw [← Nat.toDigits_append_toDigits hbase hm hlast, Nat.toDigits_of_lt_base hlast] at h
    rcases Nat.lt_or_ge n base with hn | hn
    · rw [Nat.toDigits_of_lt_base hn] at h
      obtain ⟨hempty, -⟩ := List.append_inj' (show _ = [] ++ [n.digitChar] from h) rfl
      exact absurd hempty Nat.toDigits_ne_nil
    · rw [toDigits_eq_append hbase hn] at h
      obtain ⟨hquotient, hdigit⟩ := List.append_inj' h rfl
      have hmod := Nat.mod_lt n hpos
      have hlasts := digitChar_inj (by omega) (by omega) (List.singleton_inj.1 hdigit)
      rw [ih hquotient, hlasts, Nat.div_add_mod]

end Digits

/-! ## Integers -/

/-- The characters of integers. -/
def IsNumeral (c : Char) : Prop :=
  c.isDigit = true ∨ c = '-'

instance (c : Char) : Decidable (IsNumeral c) :=
  inferInstanceAs (Decidable (_ ∨ _))

theorem isNumeral_of_mem_toDigits {n : Nat} {c : Char} (h : c ∈ Nat.toDigits 10 n) :
    c.isDigit = true :=
  Nat.isDigit_of_mem_toDigits (by decide) (by decide) h

/-- An integer is written in decimal, with a sign before it if it is negative. -/
theorem toList_integer (value : Int) :
    (toString value).toList =
      (if value < 0 then ['-'] else []) ++ Nat.toDigits 10 value.natAbs := by
  cases value with
  | ofNat n => exact Nat.toList_repr
  | negSucc n =>
    show ("-" ++ (n + 1).repr).toList = _
    rw [String.toList_append, Nat.toList_repr, if_pos (Int.negSucc_lt_zero n)]
    rfl

theorem isNumeral_of_mem_integer {value : Int} {c : Char} (h : c ∈ (toString value).toList) :
    IsNumeral c := by
  rw [toList_integer] at h
  rcases List.mem_append.1 h with hsign | hdigit
  · split at hsign
    · exact .inr (List.mem_singleton.1 hsign)
    · cases hsign
  · exact .inl (isNumeral_of_mem_toDigits hdigit)

theorem integer_ne_nil (value : Int) : (toString value).toList ≠ [] := by
  rw [toList_integer]
  exact List.append_ne_nil_of_right_ne_nil _ Nat.toDigits_ne_nil

/-- Integers that are written alike are equal. -/
theorem integer_inj {value value' : Int}
    (h : (toString value).toList = (toString value').toList) : value = value' := by
  have hsigned {n n' : Nat} : '-' :: Nat.toDigits 10 n ≠ Nat.toDigits 10 n' := fun hsign =>
    absurd (isNumeral_of_mem_toDigits (hsign ▸ List.mem_cons_self)) (by decide)
  rw [toList_integer, toList_integer] at h
  split at h <;> split at h
  · have habs := toDigits_inj (by decide) (by decide) (List.cons.inj h).2
    omega
  · exact absurd h hsigned
  · exact absurd h.symm hsigned
  · have habs := toDigits_inj (by decide) (by decide) h
    omega

/-! ## Escapes -/

/-- The characters that are written as a backslash and a letter. -/
def shortEscapes : List (Char × Char) :=
  [('\x00', '0'), ('\t', 't'), ('\r', 'r'), ('\n', 'n'), ('"', '"'), ('\\', '\\')]

/-- The ways to write a character within quotes. -/
inductive Escaped : Char → List Char → Prop where
  | short {c letter : Char} (h : (c, letter) ∈ shortEscapes) : Escaped c ['\\', letter]
  | plain {c : Char} (hslash : c ≠ '\\') (hquote : c ≠ '"') : Escaped c [c]
  | code (c : Char) : Escaped c ('\\' :: 'u' :: '\x7b' :: (hexDigits c ++ ['\x7d']))

theorem escape_escaped (c : Char) : Escaped c (escape c) := by
  unfold escape
  split
  all_goals try exact .short (by decide)
  rename_i hquote hslash
  split
  · exact .plain hslash hquote
  · exact .code c

theorem hexDigits_unique {c c' : Char} {rest rest' : List Char}
    (h : hexDigits c ++ '\x7d' :: rest = hexDigits c' ++ '\x7d' :: rest') :
    c = c' ∧ rest = rest' := by
  have hdigits (c : Char) : ∀ digit ∈ hexDigits c, digit ≠ '\x7d' := by
    intro digit hdigit
    obtain ⟨n, hn, rfl⟩ := mem_toDigits (by decide) hdigit
    exact Nat.digitChar_ne '\x7d' (by decide)
  have hstop (rest : List Char) : GoesOn (· = '\x7d') ('\x7d' :: rest) := by
    rintro c ⟨⟩
    rfl
  obtain ⟨hcode, hrest⟩ := run_unique (hdigits c) (hdigits c') (hstop rest) (hstop rest') h
  exact ⟨Char.toNat_inj.1 (toDigits_inj (by decide) (by decide) hcode), (List.cons.inj hrest).2⟩

/-- Characters within quotes are told apart by how they are written. -/
theorem Escaped.unique {c c' : Char} {text text' rest rest' : List Char} (hc : Escaped c text)
    (hc' : Escaped c' text') (h : text ++ rest = text' ++ rest') : c = c' ∧ rest = rest' := by
  have hletters : ∀ entry ∈ shortEscapes, entry.2 ≠ 'u' ∧
      ∀ entry' ∈ shortEscapes, entry.2 = entry'.2 → entry.1 = entry'.1 := by decide
  cases hc with
  | short hshort =>
    cases hc' with
    | short hshort' =>
      obtain ⟨hletter, hrest⟩ := List.cons.inj (List.cons.inj h).2
      exact ⟨(hletters _ hshort).2 _ hshort' hletter, hrest⟩
    | plain hslash hquote => exact absurd (List.cons.inj h).1.symm hslash
    | code => exact absurd (List.cons.inj (List.cons.inj h).2).1 (hletters _ hshort).1
  | plain hslash hquote =>
    cases hc' with
    | plain hslash' hquote' => exact List.cons.inj h
    | short hshort' => exact absurd (List.cons.inj h).1 hslash
    | code => exact absurd (List.cons.inj h).1 hslash
  | code =>
    cases hc' with
    | short hshort' =>
      exact absurd (List.cons.inj (List.cons.inj h).2).1.symm (hletters _ hshort').1
    | plain hslash hquote => exact absurd (List.cons.inj h).1.symm hslash
    | code =>
      simp only [List.cons_append, List.append_assoc, List.cons.injEq, true_and] at h
      exact hexDigits_unique h

/-- What is written for a character does not start with a quote. -/
theorem Escaped.head {c : Char} {text rest rest' : List Char} (h : Escaped c text) :
    text ++ rest ≠ '"' :: rest' := by
  intro hquoted
  cases h with
  | short => exact absurd (List.cons.inj hquoted).1 (by decide)
  | plain hslash hquote => exact hquote (List.cons.inj hquoted).1
  | code => exact absurd (List.cons.inj hquoted).1 (by decide)

/-! ## Quoted text -/

theorem escapes_unique {text text' rest rest' : List Char}
    (h : text.flatMap escape ++ '"' :: rest = text'.flatMap escape ++ '"' :: rest') :
    text = text' ∧ rest = rest' := by
  induction text generalizing text' with
  | nil =>
    cases text' with
    | nil => exact ⟨rfl, (List.cons.inj h).2⟩
    | cons c text' =>
      rw [List.flatMap_cons, List.append_assoc] at h
      exact absurd h.symm (escape_escaped c).head
  | cons c text ih =>
    rw [List.flatMap_cons, List.append_assoc] at h
    cases text' with
    | nil => exact absurd h (escape_escaped c).head
    | cons c' text' =>
      rw [List.flatMap_cons, List.append_assoc] at h
      obtain ⟨rfl, htail⟩ := (escape_escaped c).unique (escape_escaped c') h
      obtain ⟨rfl, hrest⟩ := ih htail
      exact ⟨rfl, hrest⟩

theorem toList_quoted (text : String) :
    (quoted text).toList = '"' :: (text.toList.flatMap escape ++ ['"']) := by
  rw [quoted, String.toList_ofList, List.cons_append]

/-- A quoted text is read back, whatever follows it. -/
theorem quoted_unique {text text' : String} {rest rest' : List Char}
    (h : (quoted text).toList ++ rest = (quoted text').toList ++ rest') :
    text = text' ∧ rest = rest' := by
  simp only [toList_quoted, List.cons_append, List.append_assoc, List.nil_append] at h
  obtain ⟨htext, hrest⟩ := escapes_unique (List.cons.inj h).2
  exact ⟨String.toList_inj.1 htext, hrest⟩

end CallByNeed.Text
