/-
**Blank characters and trimming.**

A character is blank when it has the Unicode property White_Space.  Trimming removes the blank
characters at both ends of a text and keeps those inside.

Main definitions:

* `Text.blankRanges` — the code points with the property, as inclusive ranges;
* `Text.isBlank` — the property;
* `Text.trimChars`, `Text.trim` — a text without blank ends.

Main results:

* `Text.trimChars_trimChars` — trimming twice is trimming once;
* `Text.trimChars_eq_self_iff` — a text is trimmed when neither of its ends is blank.
-/

set_option relaxedAutoImplicit false
set_option autoImplicit false

namespace LogicBlock

namespace Text

/-- The code points with the property White_Space, as inclusive ranges. -/
def blankRanges : List (Nat × Nat) :=
  [(0x0009, 0x000D), (0x0020, 0x0020), (0x0085, 0x0085), (0x00A0, 0x00A0), (0x1680, 0x1680),
    (0x2000, 0x200A), (0x2028, 0x2029), (0x202F, 0x202F), (0x205F, 0x205F), (0x3000, 0x3000)]

/-- Whether a character has the property White_Space. -/
def isBlank (c : Char) : Bool :=
  blankRanges.any fun r => r.1 ≤ c.toNat && c.toNat ≤ r.2

/-- The characters without the blanks at the front. -/
def trimStart (cs : List Char) : List Char :=
  cs.dropWhile isBlank

/-- The characters without the blanks at the end. -/
def trimEnd (cs : List Char) : List Char :=
  (cs.reverse.dropWhile isBlank).reverse

/-- The characters without the blanks at both ends. -/
def trimChars (cs : List Char) : List Char :=
  trimEnd (trimStart cs)

/-- The text without the blanks at both ends. -/
def trim (s : String) : String :=
  String.ofList (trimChars s.toList)

@[simp] theorem toList_trim (s : String) : (trim s).toList = trimChars s.toList := by
  simp [trim]

@[simp] theorem trimStart_nil : trimStart [] = [] :=
  rfl

@[simp] theorem trimEnd_nil : trimEnd [] = [] :=
  rfl

@[simp] theorem trimChars_nil : trimChars [] = [] :=
  rfl

theorem trimStart_cons (c : Char) (cs : List Char) :
    trimStart (c :: cs) = if isBlank c then trimStart cs else c :: cs := by
  simp only [trimStart, List.dropWhile_cons]

/-- The first character, if there is one, is not blank. -/
def NoBlankStart (cs : List Char) : Prop :=
  ∀ c, cs.head? = some c → isBlank c = false

/-- The last character, if there is one, is not blank. -/
def NoBlankEnd (cs : List Char) : Prop :=
  ∀ c, cs.getLast? = some c → isBlank c = false

theorem noBlankStart_trimStart (cs : List Char) : NoBlankStart (trimStart cs) := by
  induction cs with
  | nil => intro c h; simp at h
  | cons d cs ih =>
    rw [trimStart_cons]
    split
    · exact ih
    · rename_i hd
      intro c h
      simp only [List.head?_cons, Option.some.injEq] at h
      subst h
      simpa using hd

theorem trimStart_eq_self_iff (cs : List Char) : trimStart cs = cs ↔ NoBlankStart cs := by
  constructor
  · intro h
    exact h ▸ noBlankStart_trimStart cs
  · intro h
    cases cs with
    | nil => rfl
    | cons c cs => rw [trimStart_cons, h c rfl]; rfl

theorem trimEnd_eq_reverse (cs : List Char) : trimEnd cs = (trimStart cs.reverse).reverse :=
  rfl

theorem noBlankEnd_trimEnd (cs : List Char) : NoBlankEnd (trimEnd cs) := by
  intro c h
  rw [trimEnd_eq_reverse, List.getLast?_reverse] at h
  exact noBlankStart_trimStart _ c h

theorem trimEnd_eq_self_iff (cs : List Char) : trimEnd cs = cs ↔ NoBlankEnd cs := by
  rw [trimEnd_eq_reverse, List.reverse_eq_iff, trimStart_eq_self_iff]
  simp [NoBlankStart, NoBlankEnd]

/-- Dropping blanks at the end keeps a text whose first character is not blank that way. -/
theorem noBlankStart_trimEnd {cs : List Char} (h : NoBlankStart cs) :
    NoBlankStart (trimEnd cs) := by
  intro c hc
  have hsuffix : (trimStart cs.reverse) <:+ cs.reverse := List.dropWhile_suffix _
  have hstart : trimEnd cs <+: cs := by
    rw [trimEnd_eq_reverse]
    simpa using List.reverse_prefix.2 hsuffix
  obtain ⟨rest, hrest⟩ := hstart
  refine h c ?_
  rw [← hrest]
  cases ht : trimEnd cs with
  | nil => rw [ht] at hc; simp at hc
  | cons d ds => rw [ht] at hc; simpa using hc

/-- **A text is trimmed exactly when neither of its ends is blank.** -/
theorem trimChars_eq_self_iff (cs : List Char) :
    trimChars cs = cs ↔ NoBlankStart cs ∧ NoBlankEnd cs := by
  constructor
  · intro h
    rw [← h]
    exact ⟨noBlankStart_trimEnd (noBlankStart_trimStart cs), noBlankEnd_trimEnd _⟩
  · rintro ⟨hs, he⟩
    rw [trimChars, (trimStart_eq_self_iff cs).2 hs, (trimEnd_eq_self_iff cs).2 he]

/-- **Trimming twice is trimming once.** -/
@[simp] theorem trimChars_trimChars (cs : List Char) :
    trimChars (trimChars cs) = trimChars cs :=
  (trimChars_eq_self_iff _).2
    ⟨noBlankStart_trimEnd (noBlankStart_trimStart cs), noBlankEnd_trimEnd _⟩

@[simp] theorem trim_trim (s : String) : trim (trim s) = trim s := by
  simp [trim]

end Text

end LogicBlock
