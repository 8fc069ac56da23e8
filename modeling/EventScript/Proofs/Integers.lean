import EventScript.Proofs.Documents
import EventScript.Value.Cast
import Mathlib.Data.Nat.Digits.Defs

/-!
# Integers as text

A text is read as an integer as far as it makes sense: blanks, a sign, and decimal digits or, after
`0x`, hexadecimal ones. What is read is the value of the numeral as a word of 32 bits, however long
the numeral is (`Text.readInteger_numeral`). The text of an integer is such a numeral, so every
integer is read back from its text (`Value.integers_read_back`).
-/

namespace EventScript

open List

namespace Text

/-- The value of a numeral. The last digit counts once. -/
def numeralValue (radix : Nat) (digit? : Char → Option Nat) (cs : List Char) : Nat :=
  Nat.ofDigits radix (cs.filterMap digit?).reverse

theorem numeralValue_append (digit? : Char → Option Nat) (cs : List Char) (h : digit? c = some d) :
    numeralValue radix digit? (cs ++ [c]) = numeralValue radix digit? cs * radix + d := by
  unfold numeralValue
  rw [filterMap_append, filterMap_cons_some h, filterMap_nil, reverse_append, reverse_singleton,
    singleton_append, Nat.ofDigits_cons, Nat.add_comm, Nat.mul_comm]

theorem numeralValue_toDigits : numeralValue 10 decimalDigit? (Nat.toDigits 10 n) = n := by
  have hdigit : ∀ d < 10, decimalDigit? d.digitChar = some d := by decide
  induction n using Nat.strongRecOn with
  | ind n ih =>
    rw [Nat.toDigits_eq_if (by decide)]
    split
    · exact (numeralValue_append _ [] (hdigit n ‹_›)).trans (Nat.zero_add n)
    · rw [numeralValue_append _ _ (hdigit (n % 10) (Nat.mod_lt n (by decide))), ih _ (by omega)]
      exact Nat.div_add_mod' n 10

/-! ## Readers -/

theorem readDigits_append (radix : Nat) (hcs : ∀ c ∈ cs, (digit? c).isSome = true)
    (hrest : ∀ c ∈ rest.head?, digit? c = none) (past : List Char) :
    readDigits (UInt32.ofNat radix) digit? (UInt32.ofNat (numeralValue radix digit? past))
      (cs ++ rest) = UInt32.ofNat (numeralValue radix digit? (past ++ cs)) := by
  induction cs generalizing past with
  | nil =>
    rw [append_nil]
    cases rest with
    | nil => rfl
    | cons c rest => rw [nil_append, readDigits, hrest c rfl]
  | cons c cs ih =>
    obtain ⟨d, hd⟩ := Option.isSome_iff_exists.1 (hcs c mem_cons_self)
    have hnext := ih (forall_mem_cons.1 hcs).2 (past ++ [c])
    rw [numeralValue_append _ past hd, UInt32.ofNat_add, UInt32.ofNat_mul, append_assoc] at hnext
    rw [cons_append, readDigits, hd]
    exact hnext

def EndsDecimal (c : Char) : Prop := decimalDigit? c = none ∧ c ≠ 'x' ∧ c ≠ 'X'

theorem readUnsigned_decimal (hcs : ∀ c ∈ cs, (decimalDigit? c).isSome = true)
    (hrest : ∀ c ∈ rest.head?, EndsDecimal c) :
    readUnsigned (cs ++ rest) = UInt32.ofNat (numeralValue 10 decimalDigit? cs) := by
  have hdigit : ∀ c ∈ cs, c ≠ 'x' ∧ c ≠ 'X' := fun c hc => by
    constructor <;> rintro rfl <;> exact absurd (hcs _ hc) (by decide)
  have hradix : ∀ x tail, cs ++ rest = '0' :: x :: tail → x ≠ 'x' ∧ x ≠ 'X' := by
    intro x tail heq
    rcases cs with _ | ⟨a, _ | ⟨b, cs⟩⟩
    · exact absurd (hrest '0' (congrArg head? heq)).1 (by decide)
    · exact (hrest x (congrArg head? (cons.inj heq).2)).2
    · cases heq
      exact hdigit x (mem_cons_of_mem _ mem_cons_self)
  have hread : readUnsigned (cs ++ rest) = readDigits 10 decimalDigit? 0 (cs ++ rest) := by
    unfold readUnsigned
    split
    · rename_i heq; exact absurd rfl (hradix _ _ heq).1
    · rename_i heq; exact absurd rfl (hradix _ _ heq).2
    · rfl
  rw [hread]
  exact readDigits_append 10 hcs (fun c hc => (hrest c hc).1) []

theorem readUnsigned_hex (hx : x = 'x' ∨ x = 'X') (hcs : ∀ c ∈ cs, (hexDigit? c).isSome = true)
    (hrest : ∀ c ∈ rest.head?, hexDigit? c = none) :
    readUnsigned ('0' :: x :: (cs ++ rest)) = UInt32.ofNat (numeralValue 16 hexDigit? cs) := by
  have h := readDigits_append 16 hcs hrest []
  rcases hx with rfl | rfl <;> exact h

/-- The signs that a numeral can have, and what they make of its value. -/
def signs : List (List Char × Int) := [([], 1), (['+'], 1), (['-'], -1)]

theorem not_blank_of_isDigit (h : c.isDigit = true) : isBlank c = false := by
  simp only [Char.isDigit, Bool.and_eq_true, decide_eq_true_eq, UInt32.le_iff_toNat_le] at h
  have hlow : 48 ≤ c.toNat := h.1
  have hhigh : c.toNat ≤ 57 := h.2
  simp [isBlank, blanks, Ranges.mem]
  omega

/-- A numeral with a sign, after blanks, is read as the word that stands for its value. -/
theorem readInteger_numeral (hws : ∀ c ∈ ws, isBlank c = true) (hsign : sign ∈ signs)
    (hstart : sign.1 = [] → cs.head?.any Char.isDigit = true)
    (hread : readUnsigned cs = UInt32.ofNat n) :
    readInteger (String.ofList (ws ++ (sign.1 ++ cs))) = Int32.ofInt (sign.2 * n) := by
  have htrim : ∀ {c : Char} {cs : List Char}, isBlank c = false →
      trimStart (ws ++ c :: cs) = c :: cs := fun hc => by
    rw [trimStart, dropWhile_append_of_pos hws, dropWhile_cons_of_neg (by simp [hc])]
  have hn : (readUnsigned cs).toInt32 = Int32.ofInt n := by
    rw [hread, UInt32.toInt32_ofNat', Int32.ofInt_eq_ofNat]
  unfold readInteger
  rw [String.toList_ofList]
  simp only [signs, mem_cons, not_mem_nil, or_false] at hsign
  rcases hsign with rfl | rfl | rfl
  · cases cs with
    | nil => cases hstart rfl
    | cons c cs =>
      have hc : c.isDigit = true := hstart rfl
      have hsplit : Decimal.splitSign (c :: cs) = (false, c :: cs) := by
        unfold Decimal.splitSign
        split
        · rename_i heq; cases heq; cases hc
        · rename_i heq; cases heq; cases hc
        · rfl
      rw [nil_append, htrim (not_blank_of_isDigit hc), hsplit, Int.one_mul]
      exact hn
  · rw [singleton_append, htrim (by decide), Int.one_mul]
    exact hn
  · rw [singleton_append, htrim (by decide), Int.neg_one_mul, Int32.ofInt_neg]
    exact congrArg (- ·) hn

end Text

/-- Conversion to an integer undoes conversion to text, and it reads numerals of any length as their
value in words of 32 bits. Blanks can come before the numeral, and what comes after it does not
matter if it does not go on with it. -/
theorem Value.integers_read_back (ws rest : List Char) (hws : ∀ c ∈ ws, Text.isBlank c = true) :
    (∀ n : Int32, (∀ c ∈ rest.head?, Text.EndsDecimal c) →
      ∃ s : String, (integer n).cast? .string = some (string s) ∧
        (string (.ofList (ws ++ (s.toList ++ rest)))).cast? .integer = some (integer n)) ∧
    ∀ sign ∈ Text.signs, ∀ cs : List Char,
      ((sign.1 = [] → cs ≠ []) → (∀ c ∈ cs, c.isDigit = true) →
        (∀ c ∈ rest.head?, Text.EndsDecimal c) → ∃ n : Int32,
        (string (.ofList (ws ++ (sign.1 ++ (cs ++ rest))))).cast? .integer = some (integer n) ∧
          n.toInt = Int.bmod (sign.2 * Text.numeralValue 10 Text.decimalDigit? cs) 0x100000000) ∧
      ∀ x ∈ ['x', 'X'], (∀ c ∈ cs, (Text.hexDigit? c).isSome = true) →
        (∀ c ∈ rest.head?, Text.hexDigit? c = none) → ∃ n : Int32,
        (string (.ofList (ws ++ (sign.1 ++ '0' :: x :: (cs ++ rest))))).cast? .integer =
            some (integer n) ∧
          n.toInt = Int.bmod (sign.2 * Text.numeralValue 16 Text.hexDigit? cs) 0x100000000 := by
  have decimal (sign : List Char × Int) (hsign : sign ∈ Text.signs) {cs : List Char}
      (hne : sign.1 = [] → cs ≠ []) (hcs : ∀ c ∈ cs, c.isDigit = true)
      (hrest : ∀ c ∈ rest.head?, Text.EndsDecimal c) :
      (string (.ofList (ws ++ (sign.1 ++ (cs ++ rest))))).cast? .integer =
        some (integer (.ofInt (sign.2 * Text.numeralValue 10 Text.decimalDigit? cs))) := by
    refine congrArg (some <| integer ·) (Text.readInteger_numeral hws hsign (fun hs => ?_)
      (Text.readUnsigned_decimal (fun c hc => ?_) hrest))
    · obtain ⟨c, cs, rfl⟩ := exists_cons_of_ne_nil (hne hs)
      exact hcs c mem_cons_self
    · rw [Text.decimalDigit?, if_pos (hcs c hc)]; rfl
  refine ⟨fun n hrest => ⟨_, rfl, ?_⟩, fun sign hsign cs => ⟨fun hne hcs hrest => ?_,
    fun x hx hcs hrest => ?_⟩⟩
  · have hdigits (k : Nat) : ∀ c ∈ Nat.toDigits 10 k, c.isDigit = true := fun c hc =>
      Nat.isDigit_of_mem_toDigits (by decide) (by decide) hc
    rcases Json.Numeral.toString_cases n.toInt with ⟨k, hk, htext⟩ | ⟨k, hk, htext⟩
    · have h := decimal ([], 1) (by decide) (fun _ => Nat.toDigits_ne_nil) (hdigits k) hrest
      rw [Text.numeralValue_toDigits, Int.one_mul, ← hk, Int32.ofInt_toInt] at h
      rwa [show render (integer n) = toString n.toInt from rfl, htext]
    · have h := decimal (['-'], -1) (by decide) nofun (hdigits (k + 1)) hrest
      rw [Text.numeralValue_toDigits, Int.neg_one_mul, Int.natCast_succ, ← hk,
        Int32.ofInt_toInt] at h
      rwa [show render (integer n) = toString n.toInt from rfl, htext]
  · exact ⟨_, decimal sign hsign hne hcs hrest, Int32.toInt_ofInt⟩
  · refine ⟨_, congrArg (some <| integer ·) (Text.readInteger_numeral hws hsign (fun _ => rfl)
      (Text.readUnsigned_hex ?_ hcs hrest)), Int32.toInt_ofInt⟩
    simpa using hx

/-- The least integer is read back from its text, after a blank and with more text behind it. -/
theorem Value.least_read_back : ∃ s : String,
    (integer Int32.minValue).cast? .string = some (string s) ∧
      (string (.ofList ([' '] ++ (s.toList ++ ['.', '5'])))).cast? .integer =
        some (integer Int32.minValue) :=
  (integers_read_back [' '] ['.', '5'] (forall_mem_singleton.2 rfl)).1 _ (by
    rintro c ⟨⟩
    exact ⟨by decide, by decide, by decide⟩)

end EventScript
