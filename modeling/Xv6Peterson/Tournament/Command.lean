import Xv6Peterson.Tournament.Create

namespace Xv6Peterson
namespace Tournament

open Word

/-!
# The command line of `tournament`

Before its checks of `num_processes` (`mainChecks`), `main` of
`user/tournament.c` checks that it has one argument and reads it with `atoi`
of `user/ulib.c`, which accumulates the leading decimal digits in an `int` and
stops at the first character that is not one, the terminating `'\0'` included.
The arithmetic is that of `int`, so the model's `Int32` wraps around; the
results below stay below `2 ^ 31`.

`atoi` reads back what `toString` writes (`atoi_toString`), whatever follows
the digits, so on a decimal argument `main` goes on exactly with `1`, `2`, `4`,
`8` and `16`, and prints one of its two messages otherwise.
-/

/-! ## `atoi` -/

/-- The loop of `atoi` with `n` read so far, over the characters left. -/
def atoiLoop (n : Int32) : List Char -> Int32
  | [] => n
  | c :: rest => if '0' ≤ c ∧ c ≤ '9' then atoiLoop (n * 10 + .ofNat c.toNat - .ofNat '0'.toNat) rest else n

/-- `atoi(s)`. -/
def atoi (s : String) : Int32 :=
  atoiLoop 0 s.toList

theorem digitChar_code {d : Nat} (digit : d < 10) :
    ('0' ≤ Nat.digitChar d ∧ Nat.digitChar d ≤ '9') ∧ (Nat.digitChar d).toNat = 48 + d := by
  have all : forall d : Fin 10,
      ('0' ≤ Nat.digitChar d ∧ Nat.digitChar d ≤ '9') ∧ (Nat.digitChar d).toNat = 48 + d := by
    decide
  exact all ⟨d, digit⟩

/-- One digit: `n * 10 + c - '0'` adds its value. -/
theorem atoiLoop_digit (n : Int32) {d : Nat} (digit : d < 10) (rest : List Char) :
    atoiLoop n (Nat.digitChar d :: rest) = atoiLoop (n * 10 + .ofNat d) rest := by
  obtain ⟨isDigit, code⟩ := digitChar_code digit
  have zero : '0'.toNat = 48 := rfl
  rw [atoiLoop, if_pos isDigit, code, zero, Int32.ofNat_add]
  congr 1
  grind

/-- The loop stops at a character that is not a digit. -/
theorem atoiLoop_of_stop (n : Int32) {rest : List Char}
    (stops : forall c, rest.head? = some c -> ¬ ('0' ≤ c ∧ c ≤ '9')) : atoiLoop n rest = n := by
  cases rest with
  | nil => rfl
  | cons c rest => exact if_neg (stops c rfl)

/-- The decimal digits of `m`, by strong induction on `m` as `Nat.toDigits`
peels off the last digit: the loop multiplies what it has read by `10` per
digit and adds `m`. -/
theorem atoiLoop_toDigits (m : Nat) : forall (n : Int32) (rest : List Char),
    atoiLoop n (Nat.toDigits 10 m ++ rest) =
      atoiLoop (n * .ofNat (10 ^ (Nat.toDigits 10 m).length) + .ofNat m) rest := by
  induction m using Nat.strong_induction_on with
  | _ m inductionHypothesis =>
      intro n rest
      rw [Nat.toDigits_eq_if (by decide)]
      split
      case isTrue single =>
        rw [List.singleton_append, atoiLoop_digit n single]
        rfl
      case isFalse several =>
        have lower := inductionHypothesis (m / 10) (by omega)
        rw [List.append_assoc, List.singleton_append, lower, atoiLoop_digit _ (Nat.mod_lt m (by decide))]
        congr 1
        -- `m` is `m / 10 * 10 + m % 10`, in the ring of `Int32`
        have ten : Int32.ofNat 10 = 10 := rfl
        have digits : Int32.ofNat m = Int32.ofNat (m / 10) * 10 + Int32.ofNat (m % 10) := by
          conv_lhs => rw [← Nat.div_add_mod' m 10]
          rw [Int32.ofNat_add, Int32.ofNat_mul, ten]
        rw [List.length_append, List.length_singleton, pow_succ, Int32.ofNat_mul, ten, digits]
        grind

theorem toList_toString (m : Nat) : (toString m).toList = Nat.toDigits 10 m := by
  simp [Nat.repr]

/-- `atoi` reads back the decimal text of `m`, whatever follows it that is
not a digit, up to the wrap-around of `int`. -/
theorem atoi_toString (m : Nat) {rest : String}
    (stops : forall c, rest.toList.head? = some c -> ¬ ('0' ≤ c ∧ c ≤ '9')) :
    atoi (toString m ++ rest) = .ofNat m := by
  unfold atoi
  rw [String.toList_append, toList_toString, atoiLoop_toDigits, atoiLoop_of_stop _ stops]
  grind

/-! ## The command line -/

/-- What `main` of `user/tournament.c` makes of its command line `argv`
(`argc` is its length) before `tournament_create`: the message it prints
before `exit(1)`, or `num_processes`. -/
def mainCommand (argv : List String) : Except String Int32 :=
  match argv with
  | [_, arg] =>
      match mainChecks (atoi arg) with
      | some message => .error message
      | none => .ok (atoi arg)
  | _ => .error "Usage: tournament <num_processes>\n"

/-- `main` goes on with `n` exactly when it has one argument, whose leading
digits make `n`, and `n` is a power of two up to `16`. -/
theorem mainCommand_eq_ok_iff (argv : List String) (n : Int32) :
    mainCommand argv = .ok n ↔
      exists prog arg, argv = [prog, arg] ∧ atoi arg = n ∧ exists k : Nat, k ≤ 4 ∧ n.toInt = 2 ^ k := by
  unfold mainCommand
  split
  case h_1 prog arg =>
    rw [← mainChecks_eq_none_iff]
    cases checked : mainChecks (atoi arg) with
    | some message =>
        simp only [reduceCtorEq, false_iff, not_exists, not_and, List.cons.injEq, and_true]
        rintro _ _ ⟨-, rfl⟩ rfl
        rw [checked]
        simp
    | none =>
        simp only [Except.ok.injEq, List.cons.injEq, and_true]
        constructor
        · rintro rfl
          exact ⟨prog, arg, ⟨rfl, rfl⟩, rfl, checked⟩
        · rintro ⟨_, _, ⟨-, rfl⟩, rfl, -⟩
          rfl
  case h_2 other =>
    simp only [reduceCtorEq, false_iff, not_exists, not_and]
    rintro prog arg rfl
    exact (other prog arg rfl).elim

/-- `tournament m` for a decimal `m` below `2 ^ 31`, followed by anything that
is not a digit: `main` goes on with `1`, `2`, `4`, `8` and `16`, and otherwise
prints that the number is out of range or not a power of two. -/
theorem tournamentCommand_decimal (prog rest : String) (m : Nat) (small : m < 2 ^ 31)
    (stops : forall c, rest.toList.head? = some c -> ¬ ('0' ≤ c ∧ c ≤ '9')) :
    mainCommand [prog, toString m ++ rest] =
      if m = 0 ∨ 16 < m then .error "Number of processes must be between 1 and 16 (inclusive).\n"
      else if m ∈ [1, 2, 4, 8, 16] then .ok (.ofNat m)
      else .error "Number of processes must be a power of 2 (e.g., 1, 2, 4, 8, 16).\n" := by
  simp only [mainCommand, atoi_toString m stops]
  by_cases outside : m = 0 ∨ 16 < m
  · -- the first check of `main` fails
    have value := toInt_ofNat_of_lt small
    have failed : Int32.ofNat m ≤ 0 ∨ Int32.ofNat m > 16 := by
      rw [Int32.le_iff_toInt_le, gt_iff_lt, Int32.lt_iff_toInt_lt, value]
      simp only [Int32.toInt_zero]
      have sixteen : (16 : Int32).toInt = 16 := by decide
      rw [sixteen]
      omega
    rw [if_pos outside, mainChecks, if_pos failed]
  · -- the sixteen values in range, one by one
    rw [if_neg outside]
    have inRange : 1 ≤ m ∧ m ≤ 16 := by omega
    obtain ⟨low, high⟩ := inRange
    interval_cases m <;> rfl

/-- `tournament 4`. -/
theorem tournamentCommand_decimal_four :
    mainCommand ["tournament", toString 4 ++ ""] = .ok (.ofNat 4) :=
  tournamentCommand_decimal "tournament" "" 4 (by decide) (fun c empty => by cases empty)

end Tournament
end Xv6Peterson
