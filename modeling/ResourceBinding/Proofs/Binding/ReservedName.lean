import ResourceBinding.Binding.ReservedName

/-!
# Telling reserved names apart

Each number has an accessor and a carrier of its own, and no accessor of a resource is that of
literal samplers.
-/

namespace ResourceBinding.ReservedName

theorem toList_accessor (i : Nat) :
    (accessor i).toList = accessorStem.toList ++ Numeral.decimal i := by
  rw [accessor, String.toList_append, String.toList_ofList]

theorem append_decimal_injective {stem : String} {i j : Nat}
    (h : stem ++ String.ofList (Numeral.decimal i) = stem ++ String.ofList (Numeral.decimal j)) :
    i = j := by
  have hlist := congrArg String.toList h
  rw [String.toList_append, String.toList_append, String.toList_ofList, String.toList_ofList,
    List.append_cancel_left_eq] at hlist
  have hvalue := congrArg (Numeral.value? 10) hlist
  rw [Numeral.value?_decimal, Numeral.value?_decimal] at hvalue
  exact Option.some.inj hvalue

/-- **Accessors are told by their numbers.** -/
theorem accessor_injective {i j : Nat} (h : accessor i = accessor j) : i = j :=
  append_decimal_injective h

/-- **Carriers are told by their numbers.** -/
theorem carrier_injective {i j : Nat} (h : carrier i = carrier j) : i = j :=
  append_decimal_injective h

theorem isPrefixOf?_append_self (stem digits : List Char) :
    stem.isPrefixOf? (stem ++ digits) = some digits := by
  induction stem with
  | nil => rfl
  | cons c stem ih =>
    change (if c == c then stem.isPrefixOf? (stem ++ digits) else none) = some digits
    rw [if_pos (beq_self_eq_true c), ih]

@[simp]
theorem isAccessor_accessor (i : Nat) : isAccessor (accessor i) = true := by
  have hdigits : (Numeral.decimal i).all Char.isDigit = true :=
    List.all_eq_true.mpr fun c hc => Numeral.isDigit_of_mem_decimal hc
  have hne : (Numeral.decimal i).isEmpty = false := by
    simpa using Numeral.decimal_ne_nil i
  rw [isAccessor, toList_accessor, isPrefixOf?_append_self]
  simp only [hdigits, hne, Bool.not_false, Bool.and_true]

theorem isAccessor_samplerAccessor : isAccessor samplerAccessor = false := by
  decide +kernel

theorem accessor_ne_samplerAccessor (i : Nat) : accessor i ≠ samplerAccessor := by
  intro h
  have := isAccessor_accessor i
  rw [h, isAccessor_samplerAccessor] at this
  cases this

theorem isAccessor_samplerMaker : isAccessor samplerMaker = false := by
  decide +kernel

theorem accessor_ne_samplerMaker (i : Nat) : accessor i ≠ samplerMaker := by
  intro h
  have haccessor := isAccessor_accessor i
  rw [h, isAccessor_samplerMaker] at haccessor
  cases haccessor

end ResourceBinding.ReservedName
