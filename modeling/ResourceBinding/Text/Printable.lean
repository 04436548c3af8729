/-!
# Printable text

What a text shows on a terminal or in a log file: its characters without the control characters of
ASCII, save for those that lay text out, which are tab, line feed, form feed and carriage return.

Control characters are the only ones to go (`printable_of_all`), and none is left
(`isPrintable_of_mem_printable`).
-/

namespace ResourceBinding.Text

/-- The control characters that lay text out. The vertical tab is none of them. -/
def layoutControls : List Char :=
  ['\t', '\n', '\x0c', '\r']

/-- Whether a character is one of the control characters of ASCII. -/
def isControl (c : Char) : Bool :=
  c.toNat < 0x20 || c.toNat = 0x7F

/-- Whether a character is shown, or lays out what is. -/
def isPrintable (c : Char) : Bool :=
  !isControl c || layoutControls.contains c

/-- A text without what does not show. -/
def printable (text : String) : String :=
  String.ofList (text.toList.filter isPrintable)

/-- What is left of a text shows. -/
theorem isPrintable_of_mem_printable {text : String} {c : Char}
    (h : c ∈ (printable text).toList) : isPrintable c := by
  simp only [printable, String.toList_ofList, List.mem_filter] at h
  exact h.2

/-- **A text that shows stays as it is.** -/
theorem printable_of_all {text : String} (h : ∀ c ∈ text.toList, isPrintable c) :
    printable text = text := by
  rw [printable, List.filter_eq_self.2 h, String.ofList_toList]

end ResourceBinding.Text
