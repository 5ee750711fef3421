/-
OffsideMarkup.Proofs.WrittenNumber — how a number is written.

A number in a text is decimal digits, at least one, behind a plus sign or not. `WritesNumber` says
which number that is, by the digits from the last one on, and `readNumber?_eq_some_iff` that a text
is read as a number just if it is written like this and the number is below the bound.
-/
import Mathlib.Data.Nat.Digits.Defs
import Mathlib.Tactic.Ring
import OffsideMarkup.Text.Number

namespace OffsideMarkup

/-- The value of a decimal digit. -/
def digitValue (c : Char) : Nat := c.toNat - '0'.toNat

/-- The text is the number in decimal notation: one digit or more, zeros in front allowed, behind a
plus sign or not. -/
def WritesNumber (cs : List Char) (n : Nat) : Prop :=
  ∃ ds, (cs = ds ∨ cs = '+' :: ds) ∧ ds ≠ [] ∧ (∀ c ∈ ds, c.isDigit = true)
    ∧ n = Nat.ofDigits 10 (ds.reverse.map digitValue)

section

variable {cs : List Char} {acc bound n : Nat}

theorem WritesNumber.ne_nil (h : WritesNumber cs n) : cs ≠ [] := by
  obtain ⟨ds, rfl | rfl, some_digits, -⟩ := h
  · exact some_digits
  · exact List.cons_ne_nil _ _

/-- Nothing but digits and a plus sign is in a number. -/
theorem WritesNumber.isDigit_or_plus (h : WritesNumber cs n) :
    ∀ c ∈ cs, c.isDigit = true ∨ c = '+' := by
  obtain ⟨ds, rfl | rfl, -, digits, -⟩ := h
  · exact fun c mem => .inl (digits c mem)
  · intro c mem
    rcases List.mem_cons.mp mem with rfl | mem
    · exact .inr rfl
    · exact .inl (digits c mem)

theorem readDigits_eq_some_iff : readDigits acc cs = some n ↔ (∀ c ∈ cs, c.isDigit = true)
    ∧ n = Nat.ofDigits 10 (cs.reverse.map digitValue) + 10 ^ cs.length * acc := by
  induction cs generalizing acc with
  | nil => simpa [readDigits] using eq_comm
  | cons c cs ih =>
    unfold readDigits
    by_cases digit : c.isDigit = true
    · have value : Nat.ofDigits 10 ((c :: cs).reverse.map digitValue)
          = Nat.ofDigits 10 (cs.reverse.map digitValue) + 10 ^ cs.length * digitValue c := by
        simp [Nat.ofDigits_append]
      rw [if_pos digit, ih, List.forall_mem_cons, value, List.length_cons, pow_succ, digitValue]
      simp only [digit, true_and]
      ring_nf
    · simp [digit]

theorem dropPlus_cases (cs : List Char) : cs = dropPlus cs ∨ cs = '+' :: dropPlus cs := by
  unfold dropPlus
  split
  · exact .inr rfl
  · exact .inl rfl

/-- Digits do not start with a plus sign. -/
theorem dropPlus_eq_self (digits : ∀ c ∈ cs, c.isDigit = true) : dropPlus cs = cs := by
  unfold dropPlus
  split
  · exact absurd (digits '+' List.mem_cons_self) (by decide)
  · rfl

theorem readNumber?_eq_some_iff :
    readNumber? bound cs = some n ↔ WritesNumber cs n ∧ n < bound := by
  unfold readNumber?
  constructor
  · intro read
    split at read
    · exact absurd read (by simp)
    · next some_digits =>
      obtain ⟨value, small⟩ := Option.filter_eq_some_iff.mp read
      obtain ⟨digits, value⟩ := readDigits_eq_some_iff.mp value
      exact ⟨⟨_, dropPlus_cases cs, by simpa using some_digits, digits, by simpa using value⟩,
        by simpa using small⟩
  · rintro ⟨⟨ds, sign, some_digits, digits, value⟩, small⟩
    have rest : dropPlus cs = ds := by
      rcases sign with rfl | rfl
      · exact dropPlus_eq_self digits
      · rfl
    have read : readDigits 0 ds = some n :=
      readDigits_eq_some_iff.mpr ⟨digits, by simpa using value⟩
    rw [rest, if_neg (by simpa using some_digits), read]
    simp [small]

/-- Zeros in front make no difference, and the bound itself is not read. -/
example : readNumber? wordBound ['+', '0', '1', '3'] = some 13
    ∧ readNumber? wordBound "4294967295".toList = some 4294967295
    ∧ readNumber? wordBound "4294967296".toList = none := by decide

end

end OffsideMarkup
