import LogicTrainer.Text.Basic

/-! Blank characters.

The white space of the whole character set: the controls that move the print position, the
separators, and the spaces of every width. Joiners and other characters that merely have no
width are not blank. -/
namespace LogicTrainer

/-- White space, as formulas, numbers and file lines count it. -/
def isBlank (c : Char) : Bool :=
  let n := c.toNat
  (9 ≤ n && n ≤ 13) || (0x1c ≤ n && n ≤ 0x20) || n == 0x85 || n == 0xa0 || n == 0x1680 ||
    (0x2000 ≤ n && n ≤ 0x200a) || n == 0x2028 || n == 0x2029 || n == 0x202f || n == 0x205f ||
    n == 0x3000

namespace Text

/-- A text without its blanks at either end. -/
def stripped (t : Text) : Text := t.trim isBlank

/-- A text without any blank. -/
def squeezed (t : Text) : Text := t.filter fun c => !isBlank c

theorem squeezed_append (a b : Text) : (a ++ b : Text).squeezed = a.squeezed ++ b.squeezed :=
  List.filter_append ..

theorem squeezed_cons {c : Char} (h : isBlank c = false) (t : Text) :
    squeezed (c :: t) = c :: t.squeezed := by
  simp [squeezed, h]

theorem squeezed_cons_blank {c : Char} (h : isBlank c = true) (t : Text) :
    squeezed (c :: t) = t.squeezed := by
  simp [squeezed, h]

theorem squeezed_eq_self {t : Text} (h : ∀ c ∈ t, isBlank c = false) : t.squeezed = t :=
  List.filter_eq_self.2 fun c hc => by simp [h c hc]

theorem squeezed_squeezed (t : Text) : t.squeezed.squeezed = t.squeezed := by
  simp [squeezed]

theorem not_blank_of_mem_squeezed {t : Text} {c : Char} (h : c ∈ t.squeezed) :
    isBlank c = false := by
  simpa using (List.mem_filter.1 h).2

end Text
end LogicTrainer
