import MipsAsm.Proofs.Text.Numeral
import MipsAsm.Text.Quoted

/-! # Characters that messages name

Between single quotes a character stands for itself, or a backslash and a letter stand for it, or
its code point does. From what is quoted the character can be told.
-/

namespace MipsAsm.Text

/-- What a backslash is put in front of, and the characters that are meant. -/
def shortEscapes : List (Char × Char) :=
  [('0', '\x00'), ('t', '\t'), ('r', '\r'), ('n', '\n'), ('\'', '\''), ('\\', '\\')]

/-- The text in single quotes names the character. -/
inductive Quotes (c : Char) : List Char → Prop where
  | itself (hQuote : c ≠ '\'') (hBackslash : c ≠ '\\') : Quotes c ['\'', c, '\'']
  | short (letter : Char) (hPair : (letter, c) ∈ shortEscapes) :
      Quotes c ['\'', '\\', letter, '\'']
  | point {digits : List Char} (hDigits : ∀ d ∈ digits, d ∈ "0123456789abcdef".toList)
      (hPoint : numeral 16 digits = c.toNat) :
      Quotes c ('\'' :: '\\' :: 'u' :: '\x7b' :: (digits ++ ['\x7d', '\'']))

theorem digitChar_lower {d : Nat} (hDigit : d < 16) :
    d.digitChar ∈ "0123456789abcdef".toList ∧ digit? 16 d.digitChar = some (digitValue d.digitChar) ∧
      digit? 16 d.digitChar = some d := by
  revert d
  decide +kernel

theorem quotes_point (c : Char) :
    Quotes c ('\'' :: '\\' :: 'u' :: '\x7b' :: ((lowerHex c.toNat).toList ++ ['\x7d', '\''])) := by
  rw [lowerHex, String.toList_ofList]
  have hRead : natural? 16 (Nat.toDigits 16 c.toNat) = some c.toNat := by
    have hDigits := natural?_map_toDigits (by decide) id
      (fun d hDigit => (digitChar_lower hDigit).2.2) c.toNat
    rwa [List.map_id] at hDigits
  constructor
  · intro d hMem
    obtain ⟨k, hLt, rfl⟩ := exists_of_mem_toDigits (by decide) hMem
    exact (digitChar_lower hLt).1
  · refine numeral_eq_of_natural? (fun d hMem => ?_) hRead
    obtain ⟨k, hLt, rfl⟩ := exists_of_mem_toDigits (by decide) hMem
    exact (digitChar_lower hLt).2.1

theorem quotes_quoted (c : Char) : Quotes c (quoted c).toList := by
  rw [quoted, String.toList_append, String.toList_append, escaped]
  split
  · rename_i hSame
    exact .short '0' (by simp [shortEscapes, hSame])
  split
  · rename_i hSame
    exact .short 't' (by simp [shortEscapes, hSame])
  split
  · rename_i hSame
    exact .short 'r' (by simp [shortEscapes, hSame])
  split
  · rename_i hSame
    exact .short 'n' (by simp [shortEscapes, hSame])
  split
  · rename_i hSame
    exact .short '\'' (by simp [shortEscapes, hSame])
  split
  · rename_i hSame
    exact .short '\\' (by simp [shortEscapes, hSame])
  split
  · have hPoint := quotes_point c
    simpa using hPoint
  · rename_i hQuote hBackslash _
    rw [Char.toString_eq_singleton, String.toList_singleton]
    exact .itself hQuote hBackslash

theorem shortEscapes_unique {letter c d : Char} (hFirst : (letter, c) ∈ shortEscapes)
    (hSecond : (letter, d) ∈ shortEscapes) : c = d := by
  simp only [shortEscapes, List.mem_cons, Prod.mk.injEq, List.not_mem_nil, or_false]
    at hFirst hSecond
  rcases hFirst with ⟨rfl, rfl⟩ | ⟨rfl, rfl⟩ | ⟨rfl, rfl⟩ | ⟨rfl, rfl⟩ | ⟨rfl, rfl⟩ | ⟨rfl, rfl⟩ <;>
    simpa [eq_comm] using hSecond

theorem Quotes.unique {c d : Char} {shown : List Char} (hFirst : Quotes c shown)
    (hSecond : Quotes d shown) : c = d := by
  cases hFirst with
  | itself =>
    cases hSecond with
    | itself => rfl
  | short letter hPair =>
    generalize hText : ['\'', '\\', letter, '\''] = text at hSecond
    cases hSecond with
    | itself => cases hText
    | short _ hPair' =>
      cases hText
      exact shortEscapes_unique hPair hPair'
    | point => simp at hText
  | @point digits hDigits hPoint =>
    generalize hText : '\'' :: '\\' :: 'u' :: '\x7b' :: (digits ++ ['\x7d', '\'']) = text at hSecond
    cases hSecond with
    | itself => simp at hText
    | short => simp at hText
    | point hDigits' hPoint' =>
      simp only [List.cons.injEq, true_and, List.append_cancel_right_eq] at hText
      rw [← hText] at hPoint'
      exact Char.toNat_inj.mp (hPoint.symm.trans hPoint')

theorem quotes_iff {c d : Char} : Quotes d (quoted c).toList ↔ d = c := by
  constructor
  · intro hQuotes
    exact hQuotes.unique (quotes_quoted c)
  · rintro rfl
    exact quotes_quoted d

end MipsAsm.Text
