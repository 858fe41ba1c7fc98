/-
# Integers are read back from their decimal form

The digits of a number read from the left come to that number, and what has
been read in between is never larger, so the bound is met only by a number
that is too large. The decimal form of every word of 64 bits is therefore read
back as this word, the smallest one included, which has no positive counterpart.

Key theorems: `appendDigits_eq_ok`, `readInteger_toString`.
-/
import CommandConsole.Number.Integer

namespace CommandConsole

theorem digit?_of_isDigit {c : Char} (h : c.isDigit = true) : digit? c = some (c.toNat - 48) := by
  unfold digit?
  refine if_pos ?_
  simpa [Char.isDigit, Char.le_def, UInt32.le_iff_toNat_le] using h

/-- More digits make a number larger. -/
theorem le_ofDigitChars : ∀ (cs : List Char) (n : Nat), n ≤ Nat.ofDigitChars 10 cs n
  | [], _ => Nat.le_refl _
  | c :: cs, n => by
    rw [Nat.ofDigitChars_cons]
    refine Nat.le_trans ?_ (le_ofDigitChars cs _)
    omega

/-- Digits come to the number that they write, if it is not too large. -/
theorem appendDigits_eq_ok (bound : Nat) (overflow : IntegerFault) : ∀ (cs : List Char) (n : Nat),
    (∀ c ∈ cs, c.isDigit = true) → Nat.ofDigitChars 10 cs n ≤ bound →
      appendDigits bound overflow n cs = .ok (Nat.ofDigitChars 10 cs n)
  | [], _, _, _ => rfl
  | c :: cs, n, hdigits, hbound => by
    rw [Nat.ofDigitChars_cons] at hbound ⊢
    have hle : 10 * n + (c.toNat - 48) ≤ bound := Nat.le_trans (le_ofDigitChars cs _) hbound
    rw [appendDigits, digit?_of_isDigit (hdigits c List.mem_cons_self)]
    dsimp only
    rw [if_neg (Nat.not_lt.mpr hle)]
    exact appendDigits_eq_ok bound overflow cs _
      (fun d hd => hdigits d (List.mem_cons_of_mem c hd)) hbound

theorem isDigit_toDigits (n : Nat) : ∀ c ∈ Nat.toDigits 10 n, c.isDigit = true :=
  fun _ hc => Nat.isDigit_of_mem_toDigits (by decide) (by decide) hc

/-- The decimal form of a number is read back, if the number is not too large. -/
theorem readMagnitude_toDigits {bound n : Nat} (overflow : IntegerFault) (h : n ≤ bound) :
    readMagnitude bound overflow (Nat.toDigits 10 n) = .ok n := by
  have hvalue : Nat.ofDigitChars 10 (Nat.toDigits 10 n) 0 = n :=
    Nat.ofDigitChars_toDigits (by decide) (by decide)
  have hread := appendDigits_eq_ok bound overflow (Nat.toDigits 10 n) 0 (isDigit_toDigits n)
    (by rwa [hvalue])
  rw [hvalue] at hread
  unfold readMagnitude
  split
  · rename_i hnil
    exact absurd hnil Nat.toDigits_ne_nil
  · exact hread

/-- What begins with a digit has no sign. -/
theorem readInteger_of_isDigit {text : String} {c : Char} {cs : List Char}
    (h : text.toList = c :: cs) (hc : c.isDigit = true) :
    readInteger text = (readMagnitude (Nat.pow 2 63 - 1) .tooLarge (c :: cs)).map fun n =>
      Int64.ofInt n := by
  have hminus : c ≠ '-' := by
    rintro rfl
    cases hc
  have hplus : c ≠ '+' := by
    rintro rfl
    cases hc
  rw [readInteger, h]
  split <;> simp_all

/-- **The decimal form of an integer is read back as that integer.** -/
theorem readInteger_toString (n : Int64) : readInteger (toString n.toInt) = .ok n := by
  have hlt : n.toInt < 2 ^ 63 := n.toInt_lt
  have hle : -2 ^ 63 ≤ n.toInt := n.le_toInt
  have hword : Nat.pow 2 63 = 2 ^ 63 := rfl
  rw [Int.toString_eq_repr, Int.repr_eq_if]
  split
  · rename_i hpos
    have hread := @readMagnitude_toDigits (Nat.pow 2 63 - 1) n.toInt.toNat .tooLarge (by omega)
    obtain ⟨c, cs, hcs⟩ := List.exists_cons_of_ne_nil (@Nat.toDigits_ne_nil n.toInt.toNat 10)
    have hc : c.isDigit = true := isDigit_toDigits n.toInt.toNat c (hcs ▸ List.mem_cons_self)
    rw [readInteger_of_isDigit (by rw [Nat.toList_repr, hcs]) hc, ← hcs, hread]
    change Except.ok (Int64.ofInt n.toInt.toNat) = .ok n
    rw [Int.toNat_of_nonneg hpos, Int64.ofInt_toInt]
  · rename_i hneg
    have hread := @readMagnitude_toDigits (Nat.pow 2 63) (-n.toInt).toNat .tooSmall (by omega)
    have htext : ("-" ++ (-n.toInt).toNat.repr).toList =
        '-' :: Nat.toDigits 10 (-n.toInt).toNat := by
      rw [String.toList_append, Nat.toList_repr]
      rfl
    rw [readInteger, htext]
    simp only [hread]
    change Except.ok (Int64.ofInt (-(-n.toInt).toNat)) = .ok n
    rw [Int.toNat_of_nonneg (by omega), Int.neg_neg, Int64.ofInt_toInt]

end CommandConsole
