import Mathlib.Data.List.Forall2
import MipsAsm.Proofs.Text.Numeral
import MipsAsm.Text.Paint

/-! # What a painted text shows

An escape sequence begins with the escape character and ends with the next `m`. Paint adds nothing
but such sequences, so that what is left without them is the text that was painted.
-/

namespace MipsAsm.Text

/-- Drops the escape sequences, given whether one has begun. -/
def dropEscapes (inside : Bool) : List Char → List Char
  | [] => []
  | c :: cs =>
    if inside then dropEscapes (c != 'm') cs
    else if c == '\x1b' then dropEscapes true cs
    else c :: dropEscapes false cs

/-- The text without its colours. -/
def unpainted (s : String) : String :=
  String.ofList (dropEscapes false s.toList)

/-- Wherever the text stands, this is what is seen of it. -/
def Shows (s : String) (cs : List Char) : Prop :=
  ∀ rest, dropEscapes false (s.toList ++ rest) = cs ++ dropEscapes false rest

variable {s t : String} {cs ds : List Char}

theorem dropEscapes_of_not_mem (hPlain : '\x1b' ∉ cs) (rest : List Char) :
    dropEscapes false (cs ++ rest) = cs ++ dropEscapes false rest := by
  induction cs with
  | nil => rfl
  | cons c cs ih =>
    have hOther : (c == '\x1b') = false :=
      beq_false_of_ne (Ne.symm (List.ne_of_not_mem_cons hPlain))
    rw [List.cons_append, dropEscapes, hOther]
    exact congrArg (c :: ·) (ih (List.not_mem_of_not_mem_cons hPlain))

theorem dropEscapes_inside (hInside : 'm' ∉ cs) (rest : List Char) :
    dropEscapes true (cs ++ 'm' :: rest) = dropEscapes false rest := by
  induction cs with
  | nil => rfl
  | cons c cs ih =>
    have hOther : (c != 'm') = true :=
      bne_iff_ne.mpr (Ne.symm (List.ne_of_not_mem_cons hInside))
    rw [List.cons_append, dropEscapes, if_pos rfl, hOther]
    exact ih (List.not_mem_of_not_mem_cons hInside)

theorem not_mem_toString {c : Char} (hDigit : digit? 10 c = none) (n : Nat) :
    c ∉ (toString n).toList := by
  intro hMem
  obtain ⟨d, hSome⟩ := exists_digit?_of_natural? (natural?_toString n) c hMem
  rw [hDigit] at hSome
  cases hSome

namespace Shows

theorem of_not_mem (hPlain : '\x1b' ∉ s.toList) : Shows s s.toList :=
  dropEscapes_of_not_mem hPlain

theorem append (hFront : Shows s cs) (hBack : Shows t ds) : Shows (s ++ t) (cs ++ ds) := by
  intro rest
  rw [String.toList_append, List.append_assoc, hFront, hBack, List.append_assoc]

theorem escape (code : Nat) : Shows (escape code) [] := by
  intro rest
  have hSplit : (Text.escape code).toList ++ rest =
      '\x1b' :: ('[' :: (toString code).toList ++ 'm' :: rest) := by
    simp [Text.escape]
  have hInside : 'm' ∉ '[' :: (toString code).toList :=
    List.not_mem_cons_of_ne_of_not_mem (by decide) (not_mem_toString rfl code)
  rw [hSplit, dropEscapes]
  exact dropEscapes_inside hInside rest

theorem join_escapes (codes : List Nat) : Shows (String.join (codes.map Text.escape)) [] := by
  intro rest
  rw [String.toList_join]
  induction codes with
  | nil => rfl
  | cons code codes ih =>
    rw [List.map_cons, List.flatMap_cons, List.append_assoc, escape code]
    exact ih

/-- Paint does not show. -/
theorem paint (attributes : List Attribute) (hText : Shows s cs) :
    Shows (paint attributes s) cs := by
  have hSet := join_escapes (attributes.map Attribute.code)
  have hReset := join_escapes (attributes.map Attribute.resetCode)
  rw [List.map_map] at hSet hReset
  have hAll := (hSet.append hText).append hReset
  rw [List.nil_append, List.append_nil] at hAll
  exact hAll

theorem intercalate (separator : String) (hPlain : '\x1b' ∉ separator.toList) {ss : List String}
    {css : List (List Char)} (hTexts : List.Forall₂ Shows ss css) :
    Shows (separator.intercalate ss) (separator.toList.intercalate css) := by
  intro rest
  rw [String.toList_intercalate]
  induction hTexts with
  | nil => rfl
  | @cons s cs ss css hText hTexts ih =>
    cases hTexts with
    | nil => simpa using hText rest
    | cons _ _ =>
      simp only [List.map_cons, List.intercalate_cons_cons, List.append_assoc] at ih ⊢
      rw [hText, dropEscapes_of_not_mem hPlain, ih]

theorem unpainted_eq (hText : Shows s cs) : unpainted s = String.ofList cs := by
  have hAll := hText []
  rw [List.append_nil] at hAll
  rw [unpainted, hAll, dropEscapes, List.append_nil]

end Shows

end MipsAsm.Text
