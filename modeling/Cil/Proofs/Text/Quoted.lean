import Cil.Proofs.Text.Label
import Cil.Text.Quoted

/-!
# Quoted texts

A text can be quoted in many ways, which differ in the characters that they escape. Each of them
shows the text that is quoted, as an escape says which character it stands for:
`Text.Quotes.unique`.
-/

namespace Cil.Text

/-- The character that a letter behind a backslash stands for. -/
def shortEscape? : Char → Option Char
  | '"' => some '"'
  | '\\' => some '\\'
  | 't' => some '\t'
  | 'r' => some '\r'
  | 'n' => some '\n'
  | '0' => some '\x00'
  | _ => none

/-- Characters between quotes that stand for one. -/
inductive StandsFor : List Char → Char → Prop
  /-- A backslash and a letter. -/
  | short {letter c : Char} (h : shortEscape? letter = some c) : StandsFor ['\\', letter] c
  /-- The character itself, unless it is a quote or a backslash. -/
  | raw {c : Char} (hquote : c ≠ '"') (hbackslash : c ≠ '\\') : StandsFor [c] c
  /-- The code point in hexadecimal. -/
  | codePoint (c : Char) :
    StandsFor ('\\' :: 'u' :: '\x7b' :: (Nat.toDigits 16 c.toNat ++ ['\x7d'])) c

/-- Characters between quotes that stand for a text, each character of it in any way. -/
inductive Escapes : List Char → List Char → Prop
  | nil : Escapes [] []
  | cons {shown rest cs : List Char} {c : Char} (h : StandsFor shown c) (hrest : Escapes rest cs) :
    Escapes (shown ++ rest) (c :: cs)

/-- A quoted form of a literal. -/
def Quotes (quoted literal : String) : Prop :=
  ∃ shown, quoted.toList = '"' :: shown ++ ['"'] ∧ Escapes shown literal.toList

private theorem StandsFor.unique {shown shown' rest rest' : List Char} {c c' : Char}
    (h : StandsFor shown c) (h' : StandsFor shown' c') (heq : shown ++ rest = shown' ++ rest') :
    c = c' ∧ rest = rest' := by
  have hbrace (n : Nat) : '\x7d' ∉ Nat.toDigits 16 n := notMem_toDigits (by decide) n
  cases h with
  | @short letter _ hletter =>
    cases h' with
    | @short letter' _ hletter' =>
      have hboth : letter = letter' ∧ rest = rest' := by simpa using heq
      obtain ⟨rfl, rfl⟩ := hboth
      exact ⟨Option.some.inj (hletter.symm.trans hletter'), rfl⟩
    | raw _ hbackslash => simp [hbackslash.symm] at heq
    | codePoint =>
      have hu : letter = 'u' := (List.cons.inj (List.cons.inj heq).2).1
      subst hu
      cases hletter
  | raw _ hbackslash =>
    cases h' with
    | short => simp [hbackslash] at heq
    | raw => simpa using heq
    | codePoint => simp [hbackslash] at heq
  | codePoint =>
    cases h' with
    | @short letter' _ hletter' =>
      have hu : 'u' = letter' := (List.cons.inj (List.cons.inj heq).2).1
      subst hu
      cases hletter'
    | raw _ hbackslash => simp [hbackslash.symm] at heq
    | codePoint =>
      simp only [List.cons_append, List.append_assoc, List.cons.injEq, true_and] at heq
      obtain ⟨hdigits, htail⟩ :=
        eq_of_append_of_notMem (hbrace _) (hbrace _) (by simp) (by simp) heq
      exact ⟨Char.toNat_inj.mp (toDigits_inj.mp hdigits), by simpa using htail⟩

private theorem StandsFor.ne_nil {shown : List Char} {c : Char} (h : StandsFor shown c) :
    shown ≠ [] := by
  cases h <;> exact List.cons_ne_nil _ _

/-- What stands for a text stands for no other. -/
theorem Escapes.unique {shown cs cs' : List Char} (h : Escapes shown cs) (h' : Escapes shown cs') :
    cs = cs' := by
  induction h generalizing cs' with
  | nil =>
    generalize hshown : ([] : List Char) = shown at h'
    cases h' with
    | nil => rfl
    | cons hc => exact absurd (List.append_eq_nil_iff.mp hshown.symm).1 hc.ne_nil
  | @cons shown rest cs c hc _ ih =>
    generalize hall : shown ++ rest = all at h'
    cases h' with
    | nil => exact absurd (List.append_eq_nil_iff.mp hall).1 hc.ne_nil
    | cons hc' hrest' =>
      obtain ⟨rfl, rfl⟩ := hc.unique hc' hall
      rw [ih hrest']

/-- A quoted text is the quoted form of one literal. -/
theorem Quotes.unique {quoted s t : String} (h : Quotes quoted s) (h' : Quotes quoted t) :
    s = t := by
  obtain ⟨shown, hshown, hs⟩ := h
  obtain ⟨shown', hshown', ht⟩ := h'
  have hsame : shown = shown' := by simpa using hshown.symm.trans hshown'
  exact String.toList_inj.mp (hs.unique (hsame ▸ ht))

private theorem standsFor_escapeChar (c : Char) : StandsFor (escapeChar c) c := by
  unfold escapeChar
  split
  case h_7 hquote hbackslash =>
    split
    · exact .codePoint c
    · exact .raw hquote hbackslash
  all_goals exact .short rfl

/-- The quoted form of a text is one. -/
theorem quotes_quote (s : String) : Quotes (quote s) s := by
  have hescape (cs : List Char) : Escapes (escape cs) cs := by
    induction cs with
    | nil => exact .nil
    | cons c cs ih => exact .cons (standsFor_escapeChar c) ih
  exact ⟨escape s.toList, by rw [quote, String.toList_ofList], hescape s.toList⟩

end Cil.Text
