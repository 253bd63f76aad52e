/-
  DedupArchive/Proofs/Json/Spelling.lean
  ======================================
  **Texts that spell tokens.**

  A text spells some tokens if the lexer, wherever it stands between two tokens,
  reads exactly these and stands between two tokens again.  Spelled texts can be
  put together.  A word, a string and a mark are spelled by themselves; a number
  ends only where something else begins, so it is spelled together with the
  character behind it.
-/
import DedupArchive.Json.Token
import Mathlib.Tactic.IntervalCases

namespace DedupArchive.Json

open Lexer (step extend)

/-- Whether a text reads as these tokens, whatever has been read before. -/
def Spells (text : List Char) (tokens : List Token) : Prop :=
  ∀ before : List Token,
    text.foldlM step ⟨.between, before⟩ = some ⟨.between, tokens.reverse ++ before⟩

theorem Spells.append {text text' : List Char} {tokens tokens' : List Token} (h : Spells text tokens)
    (h' : Spells text' tokens') : Spells (text ++ text') (tokens ++ tokens') := by
  intro before
  rw [List.foldlM_append, h before, Option.bind_eq_bind, Option.bind_some, h', List.reverse_append,
    List.append_assoc]

/-- All tokens of a text are those that it spells. -/
theorem Spells.tokens_eq {text : List Char} {tokens : List Token} (h : Spells text tokens) :
    tokens? text = some tokens := by
  rw [tokens?, Lexer.start, h, Option.bind_some, Lexer.finish?, List.append_nil, List.reverse_reverse]

theorem spells_openObject : Spells ['\x7b'] [.openObject] := fun _ => rfl

theorem spells_closeObject : Spells ['\x7d'] [.closeObject] := fun _ => rfl

theorem spells_comma : Spells [','] [.comma] := fun _ => rfl

theorem spells_colon : Spells [':'] [.colon] := fun _ => rfl

theorem spells_null : Spells ['n', 'u', 'l', 'l'] [.null] := fun _ => rfl

/-! ### Strings -/

/-- Whether a character stands for itself in a string. -/
def IsPlain (c : Char) : Prop := c ≠ '"' ∧ c ≠ '\\' ∧ 0x20 ≤ c.toNat

instance : DecidablePred IsPlain := fun _ => inferInstanceAs (Decidable (_ ∧ _))

theorem foldlM_step_plain {chars : List Char} (h : ∀ c ∈ chars, IsPlain c) (before : List Token)
    (read : List Char) : chars.foldlM step ⟨.string ⟨read, none, true⟩, before⟩ =
      some ⟨.string ⟨chars.reverse ++ read, none, true⟩, before⟩ := by
  induction chars generalizing read with
  | nil => rfl
  | cons c rest ih =>
    obtain ⟨⟨hquote, hslash, hcontrol⟩, hrest⟩ := List.forall_mem_cons.mp h
    have hstep : step ⟨.string ⟨read, none, true⟩, before⟩ c =
        some ⟨.string ⟨c :: read, none, true⟩, before⟩ := by
      simp only [step, if_neg hquote, if_neg hslash, if_neg (Nat.not_lt.mpr hcontrol)]
      rfl
    rw [List.foldlM_cons, hstep, Option.bind_eq_bind, Option.bind_some, ih hrest, List.reverse_cons,
      List.append_assoc, List.singleton_append]

theorem spells_string {chars : List Char} (h : ∀ c ∈ chars, IsPlain c) :
    Spells ('"' :: chars ++ ['"']) [.string (some (String.ofList chars))] := by
  intro before
  have hopen : step ⟨.between, before⟩ '"' = some ⟨.string .start, before⟩ := rfl
  have hclose : step ⟨.string ⟨chars.reverse, none, true⟩, before⟩ '"' =
      some ⟨.between, .string (some (String.ofList chars)) :: before⟩ := by
    simp [step, OpenString.text?]
  rw [List.cons_append, List.foldlM_cons, hopen, Option.bind_eq_bind, Option.bind_some, OpenString.start,
    List.foldlM_append, foldlM_step_plain h, Option.bind_eq_bind, Option.bind_some, List.append_nil,
    List.foldlM_cons, hclose]
  rfl

/-! ### Numbers -/

/-- The lexer after the digits of a number. -/
theorem foldlM_step_digits (n : Nat) (before : List Token) :
    (Nat.toDigits 10 n).foldlM step ⟨.between, before⟩ =
      some ⟨.number (if n = 0 then .zero else .digits) (some n), before⟩ := by
  -- all digits but the last are those of a tenth of the number
  induction n using Nat.strongRecOn with
  | ind n ih =>
    by_cases hsmall : n < 10
    · rw [Nat.toDigits_of_lt_base hsmall]
      interval_cases n <;> rfl
    · have hlast : n % 10 < 10 := Nat.mod_lt n (by decide)
      have hdigit : (n % 10).digitChar.isDigit = true := by
        rw [Nat.isDigit_digitChar]
        exact decide_eq_true hlast
      rw [Nat.toDigits_of_base_le (by decide) (by omega), List.foldlM_append, ih (n / 10) (by omega),
        if_neg (by omega : ¬ n / 10 = 0), if_neg (by omega : ¬ n = 0), Option.bind_eq_bind,
        Option.bind_some, List.foldlM_cons]
      simp only [step, NumberPart.next?, hdigit, if_true, extend, Option.map_some,
        Nat.toNat_digitChar_of_lt_ten hlast]
      have hvalue : 10 * (n / 10) + (48 + n % 10 - 48) = n := by omega
      rw [hvalue]
      rfl

def EndsNumber (c : Char) : Prop := c.isDigit = false ∧ c ≠ '.' ∧ c ≠ 'e' ∧ c ≠ 'E'

instance : DecidablePred EndsNumber := fun _ => inferInstanceAs (Decidable (_ ∧ _))

def SpellsValue (text : List Char) (v : Token) : Prop :=
  ∀ ⦃c : Char⦄ ⦃rest : List Char⦄ ⦃tokens : List Token⦄, EndsNumber c → Spells (c :: rest) tokens →
    Spells (text ++ c :: rest) (v :: tokens)

theorem Spells.spellsValue {text : List Char} {v : Token} (h : Spells text [v]) : SpellsValue text v :=
  fun _ _ _ _ hrest => h.append hrest

theorem spellsValue_number (n : Nat) : SpellsValue (toString n).toList (.number (some n)) := by
  intro c rest tokens hend h before
  obtain ⟨hdigit, hpoint, hsmall, hlarge⟩ := hend
  have hstep : step ⟨.number (if n = 0 then .zero else .digits) (some n), before⟩ c =
      step ⟨.between, .number (some n) :: before⟩ c := by
    split
    all_goals simp [step, NumberPart.next?, NumberPart.isComplete, hdigit, hpoint, hsmall, hlarge]
  have htext : (toString n).toList = Nat.toDigits 10 n := Nat.toList_repr
  have hrest := h (.number (some n) :: before)
  rw [List.foldlM_cons] at hrest
  rw [htext, List.foldlM_append, foldlM_step_digits, Option.bind_eq_bind, Option.bind_some,
    List.foldlM_cons, hstep, hrest, List.reverse_cons, List.append_assoc, List.singleton_append]

end DedupArchive.Json
