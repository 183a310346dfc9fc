import MipsAsm.Proofs.Token.Phrase

/-! # What constants denote

The value of a constant, said by its spelling alone: a sign and digits whose places count powers of
the base, or the byte that a character, an escape or hexadecimal digits stand for. The readers of
constants accept more than the scanner lets through, a second sign for one. On what it does let
through they give the value that is spelled, up to the limit of 64 bits.
-/

namespace MipsAsm

namespace Token

open Automaton Computability
open Text (digitValue numeral)

variable {cs digits : List Char} {c : Char} {m : Nat}

/-! ## Digits -/

/-- The base reads the characters of a class by their values. -/
def DigitsOf (base : Nat) (p : Char → Bool) : Prop :=
  ∀ c, p c = true → Text.digit? base c = some (digitValue c)

/-- The characters of constants are few enough to look at each of them. -/
theorem digitsOf_of_inner {base : Nat} {p : Char → Bool} (hInner : ∀ c, p c = true → Inner c)
    (hEach : ∀ n < 128, p (Char.ofNat n) = true →
      Text.digit? base (Char.ofNat n) = some (digitValue (Char.ofNat n))) : DigitsOf base p := by
  intro c hClass
  have hAscii : c.toNat < 128 := by
    rcases hInner c hClass with hDollar | hDot | ⟨_, hHigh⟩ <;> omega
  have hDigit := hEach c.toNat hAscii
  rw [Char.ofNat_toNat] at hDigit
  exact hDigit hClass

theorem digitsOf_hex : DigitsOf 16 isHexDigit :=
  digitsOf_of_inner (fun _ => inner_of_isHexDigit) (by decide +kernel)

theorem digitsOf_decimal : DigitsOf 10 Char.isDigit :=
  digitsOf_of_inner (fun _ => inner_of_isDigit) (by decide +kernel)

theorem digitsOf_octal : DigitsOf 8 isOctalDigit :=
  digitsOf_of_inner (fun _ => inner_of_isOctalDigit) (by decide +kernel)

theorem DigitsOf.natural? {base : Nat} {p : Char → Bool} (hDigits : DigitsOf base p)
    (hSome : digits ≠ []) (hClass : ∀ c ∈ digits, p c = true) :
    Text.natural? base digits = some (numeral base digits) :=
  Text.natural?_of_digits hSome fun c hMem => hDigits c (hClass c hMem)

/-! ## Integers -/

/-- A magnitude and the number that it spells. -/
inductive SpellsMagnitude : List Char → Nat → Prop where
  | hexadecimal {mark : Char} {digits : List Char} (hMark : isHexMark mark = true)
      (hSome : digits ≠ []) (hDigits : ∀ c ∈ digits, isHexDigit c = true) :
      SpellsMagnitude ('0' :: mark :: digits) (numeral 16 digits)
  | octal {digits : List Char} (hSome : digits ≠ [])
      (hDigits : ∀ c ∈ digits, isOctalDigit c = true) :
      SpellsMagnitude ('0' :: digits) (numeral 8 digits)
  | decimal {digits : List Char} (hSome : digits ≠ []) (hDigits : ∀ c ∈ digits, c.isDigit = true)
      (hZero : digits.head? = some '0' → digits = ['0']) :
      SpellsMagnitude digits (numeral 10 digits)

/-- A constant, the sign that it has and the number behind the sign. -/
inductive SpellsInteger : List Char → Int → Nat → Prop where
  | plain {cs : List Char} {m : Nat} (hMagnitude : SpellsMagnitude cs m) : SpellsInteger cs 1 m
  | plus {cs : List Char} {m : Nat} (hMagnitude : SpellsMagnitude cs m) :
      SpellsInteger ('+' :: cs) 1 m
  | minus {cs : List Char} {m : Nat} (hMagnitude : SpellsMagnitude cs m) :
      SpellsInteger ('-' :: cs) (-1) m

theorem forall_of_mem_kstar {p : Char → Bool} (hMem : cs ∈ (one p)∗) : ∀ c ∈ cs, p c = true :=
  (madeOf_one fun _ => id).kstar cs hMem

theorem exists_of_mem_mul_kstar {p q : Char → Bool} (hMem : cs ∈ one p * (one q)∗) :
    ∃ c rest, cs = c :: rest ∧ p c = true ∧ ∀ d ∈ rest, q d = true := by
  obtain ⟨_, ⟨c, hFirst, rfl⟩, rest, hRest, rfl⟩ := Language.mem_mul.mp hMem
  exact ⟨c, rest, rfl, hFirst, forall_of_mem_kstar hRest⟩

theorem mem_mul_kstar_of_forall {p : Char → Bool} (hSome : cs ≠ [])
    (hAll : ∀ c ∈ cs, p c = true) : cs ∈ one p * (one p)∗ := by
  cases cs with
  | nil => exact absurd rfl hSome
  | cons c cs =>
    obtain ⟨hFirst, hRest⟩ := List.forall_mem_cons.mp hAll
    exact Language.append_mem_mul (singleton_mem_one hFirst)
      (mem_kstar_one (List.all_eq_true.mpr hRest))

theorem isDigit_iff : c.isDigit = true ↔ 48 ≤ c.toNat ∧ c.toNat ≤ 57 := by
  rw [← contains_digits, digits, contains_range, decide_eq_true_eq]
  exact Iff.rfl

theorem isLeadingDigit_iff : isLeadingDigit c = true ↔ c.isDigit = true ∧ c ≠ '0' := by
  have hZero : c = '0' ↔ c.toNat = 48 := Char.toNat_inj.symm
  have hLeading : isLeadingDigit c = true ↔ 49 ≤ c.toNat ∧ c.toNat ≤ 57 := by
    simp only [isLeadingDigit, Bool.and_eq_true, decide_eq_true_eq]
    exact Iff.rfl
  rw [hLeading, isDigit_iff, ne_eq, hZero]
  omega

/-- Every magnitude of the grammar spells a number. -/
theorem exists_spellsMagnitude (hText : cs ∈ magnitude) : ∃ m, SpellsMagnitude cs m := by
  rcases hText with ((hZero | hOctal) | hHex) | hDecimal
  · obtain ⟨c, hSame, rfl⟩ := hZero
    obtain rfl := eq_of_beq hSame
    exact ⟨_, .decimal (by simp) (List.forall_mem_singleton.mpr rfl) fun _ => rfl⟩
  · rw [mul_assoc] at hOctal
    obtain ⟨_, ⟨c, hSame, rfl⟩, digits, hDigits, rfl⟩ := Language.mem_mul.mp hOctal
    obtain rfl := eq_of_beq hSame
    obtain ⟨d, rest, rfl, hFirst, hRest⟩ := exists_of_mem_mul_kstar hDigits
    exact ⟨_, .octal (by simp) (List.forall_mem_cons.mpr ⟨hFirst, hRest⟩)⟩
  · rw [mul_assoc, mul_assoc] at hHex
    obtain ⟨_, ⟨c, hSame, rfl⟩, _, hMarked, rfl⟩ := Language.mem_mul.mp hHex
    obtain ⟨_, ⟨mark, hMark, rfl⟩, digits, hDigits, rfl⟩ := Language.mem_mul.mp hMarked
    obtain rfl := eq_of_beq hSame
    obtain ⟨d, rest, rfl, hFirst, hRest⟩ := exists_of_mem_mul_kstar hDigits
    exact ⟨_, .hexadecimal hMark (by simp) (List.forall_mem_cons.mpr ⟨hFirst, hRest⟩)⟩
  · obtain ⟨d, rest, rfl, hFirst, hRest⟩ := exists_of_mem_mul_kstar hDecimal
    obtain ⟨hDigit, hZero⟩ := isLeadingDigit_iff.mp hFirst
    refine ⟨_, .decimal (by simp) (List.forall_mem_cons.mpr ⟨hDigit, hRest⟩) ?_⟩
    intro hHead
    exact absurd (Option.some.inj hHead) hZero

theorem SpellsMagnitude.mem (hMagnitude : SpellsMagnitude cs m) : cs ∈ magnitude := by
  have hZero : ['0'] ∈ one (· == '0') := singleton_mem_one rfl
  cases hMagnitude with
  | hexadecimal hMark hSome hDigits =>
    refine Or.inl (Or.inr ?_)
    rw [mul_assoc, mul_assoc]
    exact Language.append_mem_mul hZero (Language.append_mem_mul (singleton_mem_one hMark)
      (mem_mul_kstar_of_forall hSome hDigits))
  | octal hSome hDigits =>
    refine Or.inl (Or.inl (Or.inr ?_))
    rw [mul_assoc]
    exact Language.append_mem_mul hZero (mem_mul_kstar_of_forall hSome hDigits)
  | decimal hSome hDigits hLone =>
    cases cs with
    | nil => exact absurd rfl hSome
    | cons c cs =>
      obtain ⟨hFirst, hRest⟩ := List.forall_mem_cons.mp hDigits
      by_cases hSame : c = '0'
      · rw [hLone (congrArg some hSame)]
        exact Or.inl (Or.inl (Or.inl hZero))
      · have hLeading := isLeadingDigit_iff.mpr ⟨hFirst, hSame⟩
        exact Or.inr (Language.append_mem_mul (singleton_mem_one hLeading)
          (mem_kstar_one (List.all_eq_true.mpr hRest)))

theorem SpellsMagnitude.magnitude? (hMagnitude : SpellsMagnitude cs m) :
    Token.magnitude? cs = if m ≤ 0x7FFFFFFFFFFFFFFF then some (m : Int) else none := by
  cases hMagnitude with
  | @hexadecimal mark digits hMark hSome hDigits =>
    have hRead := Text.signed?_eq_of_natural? (digitsOf_hex.natural? hSome hDigits)
    simp only [isHexMark, Bool.or_eq_true, beq_iff_eq] at hMark
    rcases hMark with rfl | rfl
    · exact hRead
    · exact hRead
  | @octal digits hSome hDigits =>
    have hRead := Text.signed?_eq_of_natural? (digitsOf_octal.natural? hSome hDigits)
    cases digits with
    | nil => exact absurd rfl hSome
    | cons d digits =>
      have hFirst := (List.forall_mem_cons.mp hDigits).1
      unfold Token.magnitude?
      split
      · rename_i hCons
        cases hCons
        cases hFirst
      · rename_i hCons
        cases hCons
        cases hFirst
      · rename_i hCons
        cases hCons
        exact hRead
      · rename_i hOther
        exact absurd rfl (hOther d digits)
  | decimal hSome hDigits hZero =>
    have hRead := Text.signed?_eq_of_natural? (digitsOf_decimal.natural? hSome hDigits)
    cases cs with
    | nil => exact absurd rfl hSome
    | cons c cs =>
      by_cases hFirst : c = '0'
      · subst hFirst
        cases hZero rfl
        exact hRead
      · rw [magnitude?_of_head_ne hFirst]
        exact hRead

theorem exists_spellsInteger (hText : cs ∈ integer) : ∃ sign m, SpellsInteger cs sign m := by
  obtain ⟨sign, digits, rfl, hSign, hDigits⟩ := exists_of_mem_integer hText
  obtain ⟨m, hMagnitude⟩ := exists_spellsMagnitude hDigits
  simp only [List.mem_cons, List.not_mem_nil, or_false] at hSign
  rcases hSign with rfl | rfl | rfl
  · exact ⟨1, m, .plain hMagnitude⟩
  · exact ⟨1, m, .plus hMagnitude⟩
  · exact ⟨-1, m, .minus hMagnitude⟩

theorem SpellsInteger.integer? {sign : Int} (hInteger : SpellsInteger cs sign m) :
    Token.integer? cs = if m ≤ 0x7FFFFFFFFFFFFFFF then some (sign * m) else none := by
  cases hInteger with
  | plain hMagnitude =>
    rw [integer?_of_magnitude hMagnitude.mem, hMagnitude.magnitude?, Int.one_mul]
  | plus hMagnitude =>
    rw [Int.one_mul]
    exact hMagnitude.magnitude?
  | minus hMagnitude =>
    rw [Token.integer?, hMagnitude.magnitude?]
    split
    · rw [Option.map_some, Int.neg_mul, Int.one_mul]
    · rfl

/-! ## Bytes -/

/-- The characters that stand for others behind a backslash, with the bytes that they stand for. -/
def escapes : List (Char × UInt8) :=
  [('n', 0x0A), ('t', 0x09), ('r', 0x0D), ('0', 0x00), ('\\', 0x5C), ('\'', 0x27), ('"', 0x22)]

/-- The body of a character literal and the byte that it spells. -/
inductive SpellsByte : List Char → UInt8 → Prop where
  | plain {c : Char} {b : UInt8} (hQuote : c ≠ '\'') (hBackslash : c ≠ '\\')
      (hByte : b.toNat = c.toNat) (hAscii : c.toNat < 0x80) : SpellsByte [c] b
  | escape {c : Char} {b : UInt8} (hPair : (c, b) ∈ escapes) : SpellsByte ['\\', c] b
  | hexadecimal {mark : Char} {digits : List Char} {b : UInt8} (hMark : isHexMark mark = true)
      (hCount : digits.length = 1 ∨ digits.length = 2)
      (hDigits : ∀ c ∈ digits, isHexDigit c = true) (hByte : b.toNat = numeral 16 digits) :
      SpellsByte ('\\' :: mark :: digits) b

theorem character?_singleton (hBackslash : c ≠ '\\') :
    character? [c] = if c.toNat < 0x80 then some (UInt8.ofNat c.toNat) else none := by
  unfold character?
  split
  · rename_i hCons
    exact absurd (List.cons.inj hCons).1 hBackslash
  · rename_i hCons
    cases hCons
  · rename_i hCons
    cases hCons
  · rename_i hCons
    cases hCons
  · rename_i hCons
    cases hCons
    rfl
  · rename_i hOther
    exact absurd rfl (hOther c)

theorem SpellsByte.character? {b : UInt8} (hSpells : SpellsByte cs b) :
    Token.character? cs = some b := by
  cases hSpells with
  | plain hQuote hBackslash hByte hAscii =>
    rw [character?_singleton hBackslash, if_pos hAscii, ← hByte, UInt8.ofNat_toNat]
  | escape hPair =>
    simp only [escapes, List.mem_cons, Prod.mk.injEq, List.not_mem_nil, or_false] at hPair
    rcases hPair with ⟨rfl, rfl⟩ | ⟨rfl, rfl⟩ | ⟨rfl, rfl⟩ | ⟨rfl, rfl⟩ | ⟨rfl, rfl⟩ | ⟨rfl, rfl⟩ |
      ⟨rfl, rfl⟩ <;> rfl
  | @hexadecimal mark digits _ hMark hCount hDigits hByte =>
    have hSome : digits ≠ [] := by
      rintro rfl
      rcases hCount with hOne | hTwo
      · cases hOne
      · cases hTwo
    have hBits : numeral 16 digits < 1 <<< 8 := by
      rw [← hByte]
      exact b.toNat_lt
    have hRead := Text.unsigned?_of_natural? (digitsOf_hex.natural? hSome hDigits) hBits
    have hValue : (Text.unsigned? 16 8 digits).map UInt8.ofNat = some b := by
      rw [hRead, Option.map_some, ← hByte, UInt8.ofNat_toNat]
    simp only [isHexMark, Bool.or_eq_true, beq_iff_eq] at hMark
    rcases hMark with rfl | rfl
    · exact hValue
    · exact hValue

theorem DigitsOf.lt {base : Nat} {p : Char → Bool} (hDigits : DigitsOf base p)
    (hClass : p c = true) : digitValue c < base := by
  have hDigit := hDigits c hClass
  rw [Text.digit?, Option.filter_eq_some_iff] at hDigit
  exact of_decide_eq_true hDigit.2

theorem exists_spellsByte_hexadecimal {mark : Char} (hMark : isHexMark mark = true)
    (hCount : digits.length = 1 ∨ digits.length = 2) (hDigits : ∀ c ∈ digits, isHexDigit c = true)
    (hFits : numeral 16 digits < 0x100) : ∃ b, SpellsByte ('\\' :: mark :: digits) b :=
  ⟨UInt8.ofNat (numeral 16 digits),
    .hexadecimal hMark hCount hDigits (UInt8.toNat_ofNat_of_lt' hFits)⟩

/-- A body spells a byte, unless it is a character that is none. -/
theorem exists_spellsByte_or (hText : cs ∈ characterBody) :
    (∃ b, SpellsByte cs b) ∨ ∃ c, cs = [c] ∧ 0x80 ≤ c.toNat := by
  rcases hText with (hPlain | hEscape) | hHex
  · obtain ⟨c, hClass, rfl⟩ := hPlain
    simp only [Bool.and_eq_true, bne_iff_ne] at hClass
    by_cases hAscii : c.toNat < 0x80
    · have hByte : (UInt8.ofNat c.toNat).toNat = c.toNat :=
        UInt8.toNat_ofNat_of_lt' (Nat.lt_trans hAscii (by decide))
      exact Or.inl ⟨_, .plain hClass.1 hClass.2 hByte hAscii⟩
    · exact Or.inr ⟨c, rfl, Nat.le_of_not_lt hAscii⟩
  · obtain ⟨_, ⟨b, hSame, rfl⟩, _, ⟨c, hClass, rfl⟩, rfl⟩ := Language.mem_mul.mp hEscape
    obtain rfl := eq_of_beq hSame
    have hPair : ∃ byte, (c, byte) ∈ escapes := by
      simp only [isEscapable, Bool.or_eq_true, beq_iff_eq] at hClass
      rcases hClass with (((((rfl | rfl) | rfl) | rfl) | rfl) | rfl) | rfl <;> simp [escapes]
    obtain ⟨byte, hMem⟩ := hPair
    exact Or.inl ⟨byte, .escape hMem⟩
  · rw [mul_assoc, mul_assoc] at hHex
    obtain ⟨_, ⟨b, hSame, rfl⟩, _, hMarked, rfl⟩ := Language.mem_mul.mp hHex
    obtain ⟨_, ⟨mark, hMark, rfl⟩, _, hDigits, rfl⟩ := Language.mem_mul.mp hMarked
    obtain ⟨_, ⟨d, hFirst, rfl⟩, _, hMore, rfl⟩ := Language.mem_mul.mp hDigits
    obtain rfl := eq_of_beq hSame
    have hHigh := digitsOf_hex.lt hFirst
    left
    rcases hMore with hNone | ⟨e, hSecond, rfl⟩
    · obtain rfl : _ = [] := hNone
      refine exists_spellsByte_hexadecimal hMark (Or.inl rfl) (List.forall_mem_singleton.mpr hFirst) ?_
      change Nat.ofDigits 16 [digitValue d] < 0x100
      rw [Nat.ofDigits_singleton]
      omega
    · have hLow := digitsOf_hex.lt hSecond
      refine exists_spellsByte_hexadecimal hMark (Or.inr rfl)
        (List.forall_mem_cons.mpr ⟨hFirst, List.forall_mem_singleton.mpr hSecond⟩) ?_
      change Nat.ofDigits 16 [digitValue e, digitValue d] < 0x100
      rw [Nat.ofDigits_cons, Nat.ofDigits_singleton]
      omega

theorem character?_of_not_ascii (hOther : 0x80 ≤ c.toNat) : character? [c] = none := by
  have hBackslash : c ≠ '\\' := by
    rintro rfl
    exact absurd hOther (by decide)
  rw [character?_singleton hBackslash, if_neg (Nat.not_lt.mpr hOther)]

theorem character?_eq_some_iff (hText : cs ∈ characterBody) (b : UInt8) :
    character? cs = some b ↔ SpellsByte cs b := by
  refine ⟨fun hValue => ?_, SpellsByte.character?⟩
  rcases exists_spellsByte_or hText with ⟨b', hSpells⟩ | ⟨c, rfl, hOther⟩
  · cases hValue.symm.trans hSpells.character?
    exact hSpells
  · cases hValue.symm.trans (character?_of_not_ascii hOther)

theorem character?_eq_none_iff (hText : cs ∈ characterBody) :
    character? cs = none ↔ ∃ c, cs = [c] ∧ 0x80 ≤ c.toNat := by
  constructor
  · intro hNone
    rcases exists_spellsByte_or hText with ⟨b, hSpells⟩ | hOther
    · cases hNone.symm.trans hSpells.character?
    · exact hOther
  · rintro ⟨c, rfl, hOther⟩
    exact character?_of_not_ascii hOther

/-! ## Tokens -/

/-- The token comes from a call of a scanner or from the scan of a line. -/
inductive Scanned (t : Token) : Prop where
  | call (s : Scanner) (hToken : s.next.1 = .ok (some t))
  | line (options : Options) (source line : Nat) (cs : List Char) (ts : List Token)
      (hScan : scanLine options source line cs = .ok ts) (hMem : t ∈ ts)

theorem Scanned.exists_lexeme {t : Token} (hScanned : Scanned t) :
    ∃ operators spelling, Lexeme operators t.kind spelling t.text.toList := by
  cases hScanned with
  | call s hToken =>
    obtain ⟨_, spelling, _, _, _, hLexeme, _⟩ := Scanner.exists_of_next_token hToken
    exact ⟨_, spelling, hLexeme⟩
  | line options source line cs ts hScan hMem =>
    obtain ⟨spelling, hLexeme⟩ := (Scanner.tiles_of_tokens hScan).exists_lexeme t hMem
    exact ⟨_, spelling, hLexeme⟩

/-- The values of a token are those that its text spells. -/
structure Decodes (t : Token) : Prop where
  integer : t.kind = .integerConstant → (∃ sign m, SpellsInteger t.text.toList sign m) ∧
    ∀ sign m, SpellsInteger t.text.toList sign m →
      t.intValue? = if m ≤ 0x7FFFFFFFFFFFFFFF then some (sign * m) else none
  byte : t.kind = .characterLiteral →
    (∀ b, t.charValue? = some b ↔ SpellsByte t.text.toList b) ∧
      ∀ v, t.intValue? = some v ↔ ∃ b : UInt8, SpellsByte t.text.toList b ∧ (b.toNat : Int) = v
  wide : t.kind = .characterLiteral →
    (t.charValue? = none ↔ ∃ c, t.text.toList = [c] ∧ 0x80 ≤ c.toNat) ∧
      (t.intValue? = none ↔ ∃ c, t.text.toList = [c] ∧ 0x80 ≤ c.toNat)

/-- **Constants decode to what they spell.** -/
theorem decodes_of_scanned {t : Token} (hScanned : Scanned t) : Decodes t := by
  obtain ⟨operators, spelling, hLexeme⟩ := hScanned.exists_lexeme
  obtain ⟨kind, text, pos⟩ := t
  constructor
  · rintro ⟨⟩
    obtain ⟨hText, _⟩ := hLexeme
    exact ⟨exists_spellsInteger hText, fun sign m hSpells => hSpells.integer?⟩
  · rintro ⟨⟩
    obtain ⟨hText, _⟩ := hLexeme
    have hByte := character?_eq_some_iff hText
    refine ⟨hByte, fun v => ?_⟩
    simp only [← hByte]
    exact Option.map_eq_some_iff
  · rintro ⟨⟩
    obtain ⟨hText, _⟩ := hLexeme
    have hWide := character?_eq_none_iff hText
    exact ⟨hWide, Option.map_eq_none_iff.trans hWide⟩

/-- The least number of 64 bits is out of range, since its sign does not count, and a character
behind a number is no byte. -/
theorem decodes_limits :
    (∃ ts, scanLine ⟨false, true⟩ 0 0 "-0x8000000000000000 'é' 0777 '\\x7f'".toList = .ok ts ∧
      ts.map intValue? = [none, none, some 511, some 127] ∧ ∀ t ∈ ts, Decodes t) := by
  have hScan : scanLine ⟨false, true⟩ 0 0 "-0x8000000000000000 'é' 0777 '\\x7f'".toList =
      .ok [⟨.integerConstant, "-0x8000000000000000", ⟨0, 0, 0⟩⟩,
        ⟨.characterLiteral, "é", ⟨0, 0, 20⟩⟩, ⟨.integerConstant, "0777", ⟨0, 0, 24⟩⟩,
        ⟨.characterLiteral, "\\x7f", ⟨0, 0, 29⟩⟩] := by
    decide +kernel
  exact ⟨_, hScan, by decide +kernel, fun t hMem =>
    decodes_of_scanned (.line _ _ _ _ _ hScan hMem)⟩

end Token

end MipsAsm
