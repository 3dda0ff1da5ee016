import Simplex.Scalar.Binary
import Simplex.Proofs.Words

/-!
# Texts of numbers

Whatever its bits stand for and in whatever style it is laid out, the text of a binary floating
point number is a word: digits, a sign, a point, an exponent, or one of the names of the values that
are no numbers, and never a blank or a line feed. The plain style never uses an exponent, and the
marked style always has a point or an exponent in a number.
-/

namespace Simplex

/-- There is no blank and no line feed in a text. -/
def Unbroken (s : String) : Prop := ' ' ∉ s.toList ∧ '\n' ∉ s.toList

instance (s : String) : Decidable (Unbroken s) := inferInstanceAs (Decidable (_ ∧ _))

namespace Unbroken

variable {s t : String}

theorem append (hs : Unbroken s) (ht : Unbroken t) : Unbroken (s ++ t) := by
  rw [Unbroken, String.toList_append, List.mem_append, List.mem_append]
  exact ⟨fun h => h.elim hs.1 ht.1, fun h => h.elim hs.2 ht.2⟩

/-- Digits are unbroken. -/
theorem ofList {digits : List Char} (h : ∀ c ∈ digits, c.isDigit = true) :
    Unbroken (String.ofList digits) := by
  rw [Unbroken, String.toList_ofList]
  exact ⟨fun hc => absurd (h _ hc) (by decide), fun hc => absurd (h _ hc) (by decide)⟩

theorem fill {c : Char} (hblank : ' ' ≠ c) (hfeed : '\n' ≠ c) (n : Nat) :
    Unbroken (fill c n) := by
  rw [Unbroken, Simplex.fill, String.toList_ofList]
  exact ⟨fun h => hblank (List.eq_of_mem_replicate h), fun h => hfeed (List.eq_of_mem_replicate h)⟩

theorem toString_nat (n : Nat) : Unbroken (toString n) :=
  ⟨(isWord_toString n).blank, (isWord_toString n).feed⟩

theorem toString_int : ∀ n : Int, Unbroken (toString n)
  | .ofNat n => toString_nat n
  | .negSucc n => append (s := "-") (by decide) (toString_nat (n + 1))

end Unbroken

/-! ## Words of several parts -/

section
variable {s t : String}

/-- A text that is not empty and unbroken is a word. -/
theorem Unbroken.isWord (hs : Unbroken s) (hne : s.toList ≠ []) : IsWord s.toList :=
  ⟨hne, hs.1, hs.2⟩

/-- What is unbroken continues a word. -/
theorem IsWord.append (hs : IsWord s.toList) (ht : Unbroken t) : IsWord (s ++ t).toList := by
  refine Unbroken.isWord (.append ⟨hs.blank, hs.feed⟩ ht) ?_
  rw [String.toList_append]
  exact List.append_ne_nil_of_left_ne_nil hs.ne_nil _

/-- What is unbroken may stand in front of a word. -/
theorem Unbroken.append_isWord (hs : Unbroken s) (ht : IsWord t.toList) :
    IsWord (s ++ t).toList := by
  refine Unbroken.isWord (.append hs ⟨ht.blank, ht.feed⟩) ?_
  rw [String.toList_append]
  exact List.append_ne_nil_of_right_ne_nil _ ht.ne_nil

end

namespace Decimal

variable {style : Style} {digits : List Char}

/-- Digits without an exponent are a word. -/
theorem Style.isWord_positionalText (hne : digits ≠ []) (h : ∀ c ∈ digits, c.isDigit = true)
    (places : Int) : IsWord (style.positionalText digits places).toList := by
  have hdigits : IsWord (String.ofList digits).toList :=
    (Unbroken.ofList h).isWord (by rwa [String.toList_ofList])
  have hzeros : ∀ n, Unbroken (fill '0' n) := Unbroken.fill (by decide) (by decide)
  rw [positionalText]
  split
  · exact ((Unbroken.append (by decide) (hzeros _)).append_isWord hdigits)
  split
  · refine (hdigits.append (hzeros _)).append ?_
    split <;> decide
  · refine IsWord.append (Unbroken.append_isWord ?_ ⟨by decide, by decide, by decide⟩) ?_
    · exact .ofList fun c hc => h c (List.mem_of_mem_take hc)
    · exact .ofList fun c hc => h c (List.mem_of_mem_drop hc)

/-- Digits with an exponent are a word. -/
theorem Style.isWord_exponentText (h : ∀ c ∈ digits, c.isDigit = true) (exponent : Int) :
    IsWord (exponentText digits exponent).toList := by
  have hfraction : ∀ c ∈ digits.drop 1, c.isDigit = true :=
    fun c hc => h c (List.mem_of_mem_drop hc)
  refine IsWord.append (Unbroken.append_isWord (.append ?_ ?_) ⟨by decide, by decide, by decide⟩)
    (.toString_int exponent)
  · exact .ofList fun c hc => h c (List.mem_of_mem_take hc)
  · split
    · decide
    · exact .append (by decide) (.ofList hfraction)

/-- The text of a decimal is a word. -/
theorem Style.isWord_text (style : Style) (d : Digits) : IsWord (style.text d).toList := by
  have hne : Nat.toDigits 10 d.digits ≠ [] := Nat.toDigits_ne_nil
  have h : ∀ c ∈ Nat.toDigits 10 d.digits, c.isDigit = true :=
    fun c hc => Nat.isDigit_of_mem_toDigits (by decide) (by decide) hc
  rw [text]
  split
  · exact isWord_positionalText hne h _
  · split
    · exact isWord_positionalText hne h _
    · exact isWord_exponentText h _

/-- **The text of a number of a binary format is a word**, whatever its bits and its style. -/
theorem isWord_textOfBits (format : BinaryFormat) (style : Style) (bits : Nat) :
    IsWord (textOfBits format style bits).toList := by
  have hsign : ∀ negative : Bool, Unbroken (if negative then "-" else "") := by decide
  rw [textOfBits]
  split
  · exact ⟨by decide, by decide, by decide⟩
  · exact (hsign _).append_isWord ⟨by decide, by decide, by decide⟩
  · refine (hsign _).append_isWord ?_
    split <;> exact ⟨by decide, by decide, by decide⟩
  · exact (hsign _).append_isWord (style.isWord_text _)

/-! ## The two styles -/

/-- Digits without an exponent have no mark of one. -/
theorem Style.exponent_notMem_positionalText (h : ∀ c ∈ digits, c.isDigit = true) (places : Int) :
    'e' ∉ (style.positionalText digits places).toList := by
  have hdigits : 'e' ∉ digits := fun hc => absurd (h _ hc) (by decide)
  have hzeros : ∀ n, 'e' ∉ (fill '0' n).toList := fun n => by simp [fill]
  rw [positionalText]
  split
  · simp [hdigits, hzeros]
  split
  · split <;> simp [hdigits, hzeros]
  · have htake : 'e' ∉ digits.take places.toNat := fun hc => hdigits (List.mem_of_mem_take hc)
    have hdrop : 'e' ∉ digits.drop places.toNat := fun hc => hdigits (List.mem_of_mem_drop hc)
    simp [htake, hdrop]

/-- A style that keeps the point writes one whenever it writes no exponent. -/
theorem Style.point_mem_positionalText (hpoint : style.keepsPoint = true) (places : Int) :
    '.' ∈ (style.positionalText digits places).toList := by
  rw [positionalText, if_pos hpoint]
  split
  · simp
  split
  · simp
  · simp

/-- **The plain style never uses an exponent**, whatever the bits. -/
theorem exponent_notMem_textOfBits_plain (format : BinaryFormat) (bits : Nat) :
    'e' ∉ (textOfBits format plain bits).toList := by
  have hsign : ∀ negative : Bool, 'e' ∉ (if negative then "-" else "").toList := by decide
  rw [textOfBits]
  split
  · decide
  · simp [hsign]
  · simp [hsign, plain]
  · next negative x _ =>
    have hdigits : ∀ c ∈ Nat.toDigits 10 (shortest x).digits, c.isDigit = true :=
      fun c hc => Nat.isDigit_of_mem_toDigits (by decide) (by decide) hc
    have htext := plain.exponent_notMem_positionalText hdigits
      ((Nat.toDigits 10 (shortest x).digits).length + (shortest x).exponent)
    simpa [hsign, Style.text, plain] using htext

example : textOfBits binary64 plain 0x4341c37937e08000 = "10000000000000000" := by decide +kernel

/-- In the marked style a decimal has a point or an exponent. -/
theorem point_or_exponent_mem_text (d : Digits) :
    '.' ∈ (marked.text d).toList ∨ 'e' ∈ (marked.text d).toList := by
  have hpositional : marked.positional = some (-4, 16) := rfl
  rw [Style.text, hpositional]
  dsimp only
  split
  · exact .inl (marked.point_mem_positionalText rfl _)
  · simp [Style.exponentText]

/-- **The marked style shows by a point or an exponent that it writes a number.** -/
theorem point_or_exponent_mem_textOfBits {format : BinaryFormat} {bits : Nat}
    (hnan : format.decode bits ≠ .nan)
    (hinfinite : ∀ negative, format.decode bits ≠ .infinite negative) :
    '.' ∈ (textOfBits format marked bits).toList ∨
      'e' ∈ (textOfBits format marked bits).toList := by
  rw [textOfBits]
  split
  · next h => exact absurd h hnan
  · next negative h => exact absurd h (hinfinite negative)
  · simp [marked]
  · next negative x _ =>
    rw [String.toList_append, List.mem_append, List.mem_append]
    exact (point_or_exponent_mem_text (shortest x)).imp .inr .inr

example : textOfBits binary64 marked 0x3ff0000000000000 = "1.0" := by decide +kernel

example : textOfBits binary64 marked 0x3f1a36e2eb1c432c = "9.999999999999999e-5" := by
  decide +kernel

end Decimal

/-! ## Scalars -/

/-- The plain text of every scalar is a word: it is not empty, and it has no blank and no line feed
in it. Any other character may be there, the bar of the tables as well. -/
def ScalarText.PlainWords (F : Type) [ScalarText F] : Prop :=
  ∀ x : F, IsWord (ScalarText.plain x).toList

theorem plainWords_float : ScalarText.PlainWords Float :=
  fun _ => Decimal.isWord_textOfBits _ _ _

theorem plainWords_float32 : ScalarText.PlainWords Float32 :=
  fun _ => Decimal.isWord_textOfBits _ _ _

/-- The value `4141054.25` lies exactly between two decimals of one digit less, and the upper one is
written. -/
example : Decimal.textOfBits Decimal.binary32 Decimal.plain 0x4a7cbff9 = "4141054.3" := by
  decide +kernel

end Simplex
