import Mathlib.Logic.ExistsUnique
import TreeWalk.Value.Operator

/-! The exact result of an operator is told without computing it: a quotient is what leaves a
remainder smaller than the divisor and on the side of the dividend. -/
namespace TreeWalk
namespace Value

def arithmeticOperators : List String := ["+", "-", "*", "/"]

def IsQuotient (a b q : Int) : Prop :=
  ∃ r, a = q * b + r ∧ r.natAbs < b.natAbs ∧ (r = 0 ∨ r.sign = a.sign)

def Exact (operator : String) (a b c : Int) : Prop :=
  operator = "+" ∧ c = a + b ∨ operator = "-" ∧ c = a - b ∨ operator = "*" ∧ c = a * b ∨
    operator = "/" ∧ IsQuotient a b c

section

variable {operator : String} {a b c : Int}

/-- A remainder that is zero or of the sign of the dividend does not lie on the other side. -/
theorem side_of_sign {r : Int} (h : r = 0 ∨ r.sign = a.sign) :
    (0 ≤ a → 0 ≤ r) ∧ (a ≤ 0 → r ≤ 0) := by
  rcases h with rfl | hsign
  · exact ⟨fun _ => Int.le_refl 0, fun _ => Int.le_refl 0⟩
  · rcases Int.lt_trichotomy a 0 with hneg | rfl | hpos
    · rw [Int.sign_eq_neg_one_of_neg hneg, Int.sign_eq_neg_one_iff_neg] at hsign
      omega
    · rw [Int.sign_zero, Int.sign_eq_zero_iff_zero] at hsign
      omega
    · rw [Int.sign_eq_one_of_pos hpos, Int.sign_eq_one_iff_pos] at hsign
      omega

theorem sign_tmod (a b : Int) : a.tmod b = 0 ∨ (a.tmod b).sign = a.sign := by
  rcases Int.lt_trichotomy a 0 with hneg | rfl | hpos
  · have hside : 0 ≤ (-a).tmod b := Int.tmod_nonneg b (by omega)
    rw [Int.neg_tmod] at hside
    rcases Int.lt_or_eq_of_le (show a.tmod b ≤ 0 by omega) with hlt | hzero
    · exact .inr (by rw [Int.sign_eq_neg_one_of_neg hlt, Int.sign_eq_neg_one_of_neg hneg])
    · exact .inl hzero
  · exact .inl (Int.zero_tmod b)
  · have hside : 0 ≤ a.tmod b := Int.tmod_nonneg b (Int.le_of_lt hpos)
    rcases Int.lt_or_eq_of_le hside with hlt | hzero
    · exact .inr (by rw [Int.sign_eq_one_of_pos hlt, Int.sign_eq_one_of_pos hpos])
    · exact .inl hzero.symm

theorem natAbs_tmod_lt (a : Int) (hb : b ≠ 0) : (a.tmod b).natAbs < b.natAbs := by
  rw [Int.natAbs_tmod]
  exact Nat.mod_lt _ (Int.natAbs_pos.mpr hb)

theorem isQuotient_tdiv (a : Int) (hb : b ≠ 0) : IsQuotient a b (a.tdiv b) := by
  refine ⟨a.tmod b, ?_, natAbs_tmod_lt a hb, sign_tmod a b⟩
  rw [Int.mul_comm, Int.mul_tdiv_add_tmod]

theorem IsQuotient.ne_zero (h : IsQuotient a b c) : b ≠ 0 := by
  obtain ⟨r, -, hsmaller, -⟩ := h
  omega

/-- Nothing else is the quotient: two remainders on the same side differ by less than the divisor,
so they do not differ. -/
theorem IsQuotient.eq_tdiv (h : IsQuotient a b c) : c = a.tdiv b := by
  have hb := h.ne_zero
  obtain ⟨r, hdivision, hsmaller, hsign⟩ := h
  have hdivision' : b * a.tdiv b + a.tmod b = a := Int.mul_tdiv_add_tmod a b
  have hsmaller' := natAbs_tmod_lt a hb
  have hside := side_of_sign hsign
  have hside' := side_of_sign (sign_tmod a b)
  have hmultiple : a.tmod b - r = b * (c - a.tdiv b) := by
    rw [Int.mul_sub, Int.mul_comm b c]
    omega
  have hdiffer : (a.tmod b - r).natAbs < b.natAbs := by
    rcases Int.le_total 0 a with hpos | hneg
    · have := hside.1 hpos
      have := hside'.1 hpos
      omega
    · have := hside.2 hneg
      have := hside'.2 hneg
      omega
  have hzero : b * (c - a.tdiv b) = 0 :=
    hmultiple ▸ Int.eq_zero_of_dvd_of_natAbs_lt_natAbs ⟨_, hmultiple⟩ hdiffer
  have hc := (Int.mul_eq_zero.mp hzero).resolve_left hb
  omega

/-- The operator computes the exact result and looks whether it is in range. -/
theorem Exact.binary_eq (h : Exact operator a b c) :
    binary operator (.int a) (.int b) =
      if InRange c then .int c else (Failure.overflow a operator b).value := by
  rcases h with ⟨rfl, rfl⟩ | ⟨rfl, rfl⟩ | ⟨rfl, rfl⟩ | ⟨rfl, hquotient⟩
  · rfl
  · rfl
  · rfl
  · have hguard : ¬ ("/" = "/" ∧ b = 0) := fun h => hquotient.ne_zero h.2
    rw [hquotient.eq_tdiv]
    exact if_neg hguard

theorem binary_by_zero (a : Int) :
    binary "/" (.int a) (.int 0) = (Failure.divisionByZero a).value := rfl

/-- There is one exact result, but for a division by zero. -/
theorem existsUnique_exact (hop : operator ∈ arithmeticOperators)
    (hzero : ¬ (operator = "/" ∧ b = 0)) : ∃! c, Exact operator a b c := by
  simp only [arithmeticOperators, List.mem_cons, List.not_mem_nil, or_false] at hop
  rcases hop with rfl | rfl | rfl | rfl
  · exact ⟨a + b, by simp [Exact]⟩
  · exact ⟨a - b, by simp [Exact]⟩
  · exact ⟨a * b, by simp [Exact]⟩
  · have hb : b ≠ 0 := fun hb => hzero ⟨rfl, hb⟩
    simp only [Exact, String.reduceEq, false_and, false_or, true_and]
    exact ⟨a.tdiv b, isQuotient_tdiv a hb, fun _ h => h.eq_tdiv⟩

theorem overflow_ne_divisionByZero (a b a' : Int) (operator : String) :
    (Failure.overflow a operator b).value ≠ (Failure.divisionByZero a').value := by
  intro h
  have hmessage :
      (Failure.overflow a operator b).message = (Failure.divisionByZero a').message := by
    simpa only [Failure.value, error.injEq] using h
  have hoverflow : (Failure.overflow a operator b).message =
      "integer overflow: " ++ toString a ++ " " ++ operator ++ " " ++ toString b := rfl
  have hdivision : (Failure.divisionByZero a').message =
      "division by zero: " ++ toString a' ++ " / 0" := rfl
  rw [hoverflow, hdivision] at hmessage
  have hhead := congrArg (fun s : String => s.toList.head?) hmessage
  simp at hhead

/-- Of the quotients of integers in range only one is out of range. -/
theorem IsQuotient.inRange_iff (h : IsQuotient a b c) (ha : InRange a) :
    ¬ InRange c ↔ a = minInt ∧ b = -1 := by
  have hle : c.natAbs ≤ a.natAbs := by
    rw [h.eq_tdiv]
    exact Int.natAbs_tdiv_le_natAbs a b
  constructor
  · intro hout
    -- Not in range, and yet no larger than an integer in range: the negative of the least one.
    have hc : c = 0x8000000000000000 := by
      unfold InRange minInt maxInt at *
      omega
    subst hc
    obtain ⟨r, hdivision, hsmaller, hsign⟩ := h
    have hside := side_of_sign hsign
    unfold InRange minInt maxInt at *
    omega
  · rintro ⟨rfl, rfl⟩
    rw [h.eq_tdiv]
    decide

/-- What an arithmetic operator comes to: the error about zero, the exact result, or the error about
an overflow. -/
theorem binary_cases (hop : operator ∈ arithmeticOperators) (a b : Int) :
    (operator = "/" ∧ b = 0) ∧
        binary operator (.int a) (.int b) = (Failure.divisionByZero a).value ∨
      ¬ (operator = "/" ∧ b = 0) ∧ ∃ c, Exact operator a b c ∧
        (InRange c ∧ binary operator (.int a) (.int b) = .int c ∨
          ¬ InRange c ∧
            binary operator (.int a) (.int b) = (Failure.overflow a operator b).value) := by
  by_cases hzero : operator = "/" ∧ b = 0
  · obtain ⟨rfl, rfl⟩ := hzero
    exact .inl ⟨⟨rfl, rfl⟩, binary_by_zero a⟩
  · obtain ⟨c, hc, -⟩ := existsUnique_exact (a := a) hop hzero
    refine .inr ⟨hzero, c, hc, ?_⟩
    by_cases hrange : InRange c
    · exact .inl ⟨hrange, hc.binary_eq.trans (if_pos hrange)⟩
    · exact .inr ⟨hrange, hc.binary_eq.trans (if_neg hrange)⟩

theorem binary_eq_int_iff (hop : operator ∈ arithmeticOperators) (a b c : Int) :
    binary operator (.int a) (.int b) = .int c ↔ Exact operator a b c ∧ InRange c := by
  constructor
  · intro h
    rcases binary_cases hop a b with ⟨-, hresult⟩ | ⟨-, c', hc', ⟨hrange, hresult⟩ | ⟨-, hresult⟩⟩
    · cases hresult.symm.trans h
    · cases hresult.symm.trans h
      exact ⟨hc', hrange⟩
    · cases hresult.symm.trans h
  · rintro ⟨hc, hrange⟩
    exact hc.binary_eq.trans (if_pos hrange)

theorem binary_eq_divisionByZero_iff (hop : operator ∈ arithmeticOperators) (a b : Int) :
    binary operator (.int a) (.int b) = (Failure.divisionByZero a).value ↔
      operator = "/" ∧ b = 0 := by
  constructor
  · intro h
    rcases binary_cases hop a b with ⟨hzero, -⟩ | ⟨-, c, -, ⟨-, hresult⟩ | ⟨-, hresult⟩⟩
    · exact hzero
    · cases hresult.symm.trans h
    · exact absurd (hresult.symm.trans h) (overflow_ne_divisionByZero a b a operator)
  · rintro ⟨rfl, rfl⟩
    exact binary_by_zero a

theorem binary_eq_overflow_iff (hop : operator ∈ arithmeticOperators) (a b : Int) :
    binary operator (.int a) (.int b) = (Failure.overflow a operator b).value ↔
      ∃ c, Exact operator a b c ∧ ¬ InRange c := by
  constructor
  · intro h
    rcases binary_cases hop a b with ⟨-, hresult⟩ | ⟨-, c, hc, ⟨-, hresult⟩ | ⟨hrange, -⟩⟩
    · exact absurd (h.symm.trans hresult) (overflow_ne_divisionByZero a b a operator)
    · cases hresult.symm.trans h
    · exact ⟨c, hc, hrange⟩
  · rintro ⟨c, hc, hrange⟩
    exact hc.binary_eq.trans (if_neg hrange)

theorem unary_minus_int (ha : InRange a) :
    unary "-" (.int a) =
      if a = minInt then (Failure.negationOverflow a).value else .int (-a) := by
  have hiff : maxInt < -a ↔ a = minInt := by
    unfold InRange minInt maxInt at *
    omega
  change (if maxInt < -a then _ else _) = _
  simp only [hiff]

theorem binary_ne (a b : Int) : binary "!=" (.int a) (.int b) = .bool (decide (a ≠ b)) := by
  change Value.bool (a != b) = _
  rw [decide_not]
  rfl

end

/-- Arithmetic on an integer in range and any other comes to the exact result where that is in
range, and to an error where it is not or where there is none. Of the quotients only that of the
least integer by minus one is out of range, and of the negatives only that of the least integer.
Comparisons are exact for all integers. -/
theorem arithmetic_exact_or_refused {a : Int} (ha : InRange a) (b : Int) :
    (∀ operator ∈ arithmeticOperators,
      let result := binary operator (.int a) (.int b)
      (¬ (operator = "/" ∧ b = 0) → ∃! c, Exact operator a b c) ∧
      (∀ c, result = .int c ↔ Exact operator a b c ∧ InRange c) ∧
      (result = .error ("division by zero: " ++ toString a ++ " / 0") ↔
        operator = "/" ∧ b = 0) ∧
      (result =
          .error ("integer overflow: " ++ toString a ++ " " ++ operator ++ " " ++ toString b) ↔
        ∃ c, Exact operator a b c ∧ ¬ InRange c)) ∧
    (∀ q, IsQuotient a b q → (¬ InRange q ↔ a = minInt ∧ b = -1)) ∧
    (unary "-" (.int a) =
      if a = minInt then .error ("integer overflow: -" ++ toString a) else .int (-a)) ∧
    ∀ x y : Int,
      binary "<" (.int x) (.int y) = .bool (decide (x < y)) ∧
      binary ">" (.int x) (.int y) = .bool (decide (x > y)) ∧
      binary "==" (.int x) (.int y) = .bool (decide (x = y)) ∧
      binary "!=" (.int x) (.int y) = .bool (decide (x ≠ y)) := by
  refine ⟨fun operator hop => ?_, fun q hq => hq.inRange_iff ha, unary_minus_int ha, fun x y => ?_⟩
  · exact ⟨existsUnique_exact hop, binary_eq_int_iff hop a b,
      binary_eq_divisionByZero_iff hop a b, binary_eq_overflow_iff hop a b⟩
  · exact ⟨rfl, rfl, rfl, binary_ne x y⟩

theorem arithmetic_exact_or_refused_least :
    InRange minInt ∧
      binary "/" (.int minInt) (.int (-1)) =
        .error "integer overflow: -9223372036854775808 / -1" ∧
      unary "-" (.int minInt) = .error "integer overflow: --9223372036854775808" := by
  have hrange : InRange minInt := by decide
  obtain ⟨hoperators, hquotients, hminus, -⟩ := arithmetic_exact_or_refused hrange (-1)
  obtain ⟨-, -, -, hoverflow⟩ := hoperators "/" (by decide)
  have hquotient : IsQuotient minInt (-1) 0x8000000000000000 := ⟨0, by decide⟩
  have hout := (hquotients _ hquotient).mpr ⟨rfl, rfl⟩
  have hexact : Exact "/" minInt (-1) 0x8000000000000000 := .inr (.inr (.inr ⟨rfl, hquotient⟩))
  exact ⟨hrange, hoverflow.mpr ⟨_, hexact, hout⟩, hminus⟩

end Value
end TreeWalk
